import KoraDB.Base.Base64
import KoraDB.Query.Page

/-!
# Filter signatures

The signature of a filter is a nested text whose fields and values may hold
every delimiter it uses. It can still be read from the left: each kind of node
starts with a letter of its own, numbers end at the colon, and strings and
groups are preceded by their lengths. So no signature is the start of another
(`signature_cancel`), and two filters never share one.
-/

namespace KoraDB.Query

open KoraDB.Base

/-! ## Reading from the left -/

/-- No digit is a colon, so a number ends at the first one. -/
theorem number_cancel {u v t t' : Bytes} (hu : ∀ b ∈ u, b ≤ 57) (hv : ∀ b ∈ v, b ≤ 57)
    (h : u ++ 58 :: t = v ++ 58 :: t') : u = v ∧ t = t' := by
  have hcolon : ∀ {w : Bytes}, (∀ b ∈ w, b ≤ 57) → (58 : UInt8) ∉ w := by
    intro w hw hmem
    exact absurd (hw 58 hmem) (by decide)
  exact cut_first (hcolon hu) (hcolon hv) h

theorem formatUint_cancel {m n : Nat} {t t' : Bytes}
    (h : formatUint m ++ 58 :: t = formatUint n ++ 58 :: t') : m = n ∧ t = t' := by
  obtain ⟨hnum, ht⟩ := number_cancel (fun _ hb => (digits_formatUint hb).2)
    (fun _ hb => (digits_formatUint hb).2) h
  exact ⟨formatUint_inj hnum, ht⟩

theorem formatInt_cancel {m n : Int} {t t' : Bytes}
    (h : formatInt m ++ 58 :: t = formatInt n ++ 58 :: t') : m = n ∧ t = t' := by
  obtain ⟨hnum, ht⟩ := number_cancel (fun _ hb => le_of_mem_formatInt hb)
    (fun _ hb => le_of_mem_formatInt hb) h
  exact ⟨formatInt_inj hnum, ht⟩

/-- A string behind its length. -/
theorem counted_cancel {u v t t' : Bytes}
    (h : formatUint u.length ++ 58 :: (u ++ t) = formatUint v.length ++ 58 :: (v ++ t')) :
    u = v ∧ t = t' := by
  obtain ⟨hlen, h⟩ := formatUint_cancel h
  exact List.append_inj h hlen

/-! ## Signatures -/

/-- The signature of a comparison with what follows it, delimiters apart. -/
theorem writeFilterSignature_cmp {c : Cmp} {s : Bytes}
    (h : writeFilterSignature (.cmp c) = .ok s) (t : Bytes) :
    s ++ t = ascii "cmp:" ++ (formatUint c.field.length ++ 58 :: (c.field ++ 58 ::
      (formatInt c.op.code ++ 58 ::
        (formatUint c.value.length ++ 58 :: (c.value ++ 59 :: t))))) := by
  rw [writeFilterSignature] at h
  cases h
  simp only [List.append_assoc]
  rfl

theorem writeFilterSignature_and {fs : List Filter} {s : Bytes}
    (h : writeFilterSignature (.and fs) = .ok s) (t : Bytes) :
    ∃ ss, writeFilterSignatures fs = .ok ss ∧
      s ++ t = ascii "and:" ++ (formatUint fs.length ++ 58 :: 91 :: (ss ++ (ascii "];" ++ t))) := by
  rw [writeFilterSignature] at h
  obtain ⟨ss, hss, h⟩ := bind_eq_ok_iff.mp h
  cases h
  refine ⟨ss, hss, ?_⟩
  simp only [List.append_assoc]
  rfl

theorem writeFilterSignature_or {fs : List Filter} {s : Bytes}
    (h : writeFilterSignature (.or fs) = .ok s) (t : Bytes) :
    ∃ ss, writeFilterSignatures fs = .ok ss ∧
      s ++ t = ascii "or:" ++ (formatUint fs.length ++ 58 :: 91 :: (ss ++ (ascii "];" ++ t))) := by
  rw [writeFilterSignature] at h
  obtain ⟨ss, hss, h⟩ := bind_eq_ok_iff.mp h
  cases h
  refine ⟨ss, hss, ?_⟩
  simp only [List.append_assoc]
  rfl

/-- Each kind of node starts with a letter of its own. -/
def Filter.letter : Filter → UInt8
  | .nil => 110
  | .cmp _ => 99
  | .and _ => 97
  | .or _ => 111
  | .unknown => 0

theorem signature_head {f : Filter} {s : Bytes} (h : writeFilterSignature f = .ok s) (t : Bytes) :
    (s ++ t).head? = some f.letter := by
  cases f with
  | nil =>
      rw [writeFilterSignature] at h
      cases h
      rfl
  | cmp c =>
      rw [writeFilterSignature_cmp h]
      rfl
  | and fs =>
      obtain ⟨ss, _, heq⟩ := writeFilterSignature_and h t
      rw [heq]
      rfl
  | or fs =>
      obtain ⟨ss, _, heq⟩ := writeFilterSignature_or h t
      rw [heq]
      rfl
  | unknown =>
      rw [writeFilterSignature] at h
      cases h

/-- Signatures that agree were written by nodes of one kind. -/
theorem letter_eq {f g : Filter} {s s' t t' : Bytes} (hf : writeFilterSignature f = .ok s)
    (hg : writeFilterSignature g = .ok s') (h : s ++ t = s' ++ t') : f.letter = g.letter := by
  have hhead := signature_head hf t
  rw [h, signature_head hg t'] at hhead
  exact (Option.some.inj hhead).symm

mutual

/-- No signature is the start of another: with whatever behind it, a signature
gives back its filter and what is behind. -/
theorem signature_cancel :
    ∀ (f g : Filter) {s s' t t' : Bytes}, writeFilterSignature f = .ok s →
      writeFilterSignature g = .ok s' → s ++ t = s' ++ t' → f = g ∧ t = t'
  | .nil, g, s, s', t, t', hf, hg, h => by
      have hletter := letter_eq hf hg h
      cases g with
      | nil =>
          rw [hf] at hg
          cases hg
          exact ⟨rfl, List.append_cancel_left h⟩
      | cmp _ | and _ | or _ | unknown => exact absurd hletter (by simp [Filter.letter])
  | .cmp c, g, s, s', t, t', hf, hg, h => by
      have hletter := letter_eq hf hg h
      cases g with
      | cmp d =>
          rw [writeFilterSignature_cmp hf, writeFilterSignature_cmp hg] at h
          -- field, operator and value, each with its end announced
          obtain ⟨hfield, h⟩ := counted_cancel (List.append_cancel_left h)
          obtain ⟨hop, h⟩ := formatInt_cancel (List.cons.inj h).2
          obtain ⟨hvalue, h⟩ := counted_cancel h
          refine ⟨?_, (List.cons.inj h).2⟩
          obtain ⟨field, ⟨code⟩, value⟩ := c
          cases hfield
          cases hop
          cases hvalue
          rfl
      | nil | and _ | or _ | unknown => exact absurd hletter (by simp [Filter.letter])
  | .and fs, g, s, s', t, t', hf, hg, h => by
      have hletter := letter_eq hf hg h
      cases g with
      | and gs =>
          obtain ⟨ss, hss, heq⟩ := writeFilterSignature_and hf t
          obtain ⟨ss', hss', heq'⟩ := writeFilterSignature_and hg t'
          rw [heq, heq'] at h
          -- the count comes first, so both groups are read to their ends
          obtain ⟨hlen, hsubs⟩ := formatUint_cancel (List.append_cancel_left h)
          obtain ⟨rfl, hend⟩ := signatures_cancel fs gs hlen hss hss' (List.cons.inj hsubs).2
          exact ⟨rfl, List.append_cancel_left hend⟩
      | nil | cmp _ | or _ | unknown => exact absurd hletter (by simp [Filter.letter])
  | .or fs, g, s, s', t, t', hf, hg, h => by
      have hletter := letter_eq hf hg h
      cases g with
      | or gs =>
          obtain ⟨ss, hss, heq⟩ := writeFilterSignature_or hf t
          obtain ⟨ss', hss', heq'⟩ := writeFilterSignature_or hg t'
          rw [heq, heq'] at h
          obtain ⟨hlen, hsubs⟩ := formatUint_cancel (List.append_cancel_left h)
          obtain ⟨rfl, hend⟩ := signatures_cancel fs gs hlen hss hss' (List.cons.inj hsubs).2
          exact ⟨rfl, List.append_cancel_left hend⟩
      | nil | cmp _ | and _ | unknown => exact absurd hletter (by simp [Filter.letter])
  | .unknown, g, s, s', t, t', hf, hg, h => by
      rw [writeFilterSignature] at hf
      cases hf

/-- Members are read one after the other, as many as the group announced. -/
theorem signatures_cancel :
    ∀ (fs gs : List Filter) {s s' t t' : Bytes}, fs.length = gs.length →
      writeFilterSignatures fs = .ok s → writeFilterSignatures gs = .ok s' →
      s ++ t = s' ++ t' → fs = gs ∧ t = t'
  | [], [], s, s', t, t', _, hf, hg, h => by
      rw [hf] at hg
      cases hg
      exact ⟨rfl, List.append_cancel_left h⟩
  | f :: fs, g :: gs, s, s', t, t', hlen, hf, hg, h => by
      rw [writeFilterSignatures] at hf hg
      simp only [bind_eq_ok_iff, pure, Except.pure, Except.ok.injEq] at hf hg
      obtain ⟨s₁, hs₁, s₂, hs₂, rfl⟩ := hf
      obtain ⟨s₁', hs₁', s₂', hs₂', rfl⟩ := hg
      rw [List.append_assoc, List.append_assoc] at h
      obtain ⟨rfl, hrest⟩ := signature_cancel f g hs₁ hs₁' h
      obtain ⟨rfl, hend⟩ := signatures_cancel fs gs (Nat.succ.inj hlen) hs₂ hs₂' hrest
      exact ⟨rfl, hend⟩

end

/-- Filters with one signature are one filter. -/
theorem writeFilterSignature_inj {f g : Filter} {s : Bytes} (hf : writeFilterSignature f = .ok s)
    (hg : writeFilterSignature g = .ok s) : f = g :=
  (@signature_cancel f g s s [] [] hf hg rfl).1

/-- SHA-256 tells the signatures of the two filters apart. -/
def NoCollision (lib : Lib) (f g : Filter) : Prop :=
  ∀ sig sig', writeFilterSignature f = .ok sig → writeFilterSignature g = .ok sig' →
    lib.sha256 sig = lib.sha256 sig' → sig = sig'

/-- Then filters with one hash are one filter. -/
theorem filterHash_inj {lib : Lib} {f g : Filter} {hash : Bytes} (hsha : NoCollision lib f g)
    (hf : filterHash lib f = .ok hash) (hg : filterHash lib g = .ok hash) : f = g := by
  simp only [filterHash, bind_eq_ok_iff, pure, Except.pure, Except.ok.injEq] at hf hg
  obtain ⟨sig, hsig, rfl⟩ := hf
  obtain ⟨sig', hsig', heq⟩ := hg
  have hsame := hsha sig sig' hsig hsig' (base64Url_injective heq.symm)
  rw [← hsame] at hsig'
  exact writeFilterSignature_inj hsig hsig'

end KoraDB.Query
