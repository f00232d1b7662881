import KoraDB.Engine.Database
import KoraDB.System.Machine
import Mathlib.Data.List.Induction

/-!
# Generated ids

A collection without a key field numbers its documents. `Insert` asks the data
bucket for the next value of its sequence and stores under it without looking
first, so that nothing is overwritten rests on an invariant of the whole store:
every key of the bucket is the big-endian form of a number between one and the
sequence (`Numbered`). No operation lowers a sequence, and until 2^64 calls of
`Insert` none wraps around.
-/

namespace KoraDB.System

open KoraDB.Base KoraDB.Proto KoraDB.Catalog KoraDB.Schema KoraDB.Engine

/-- A call of `Insert`, on whatever collection and with whatever outcome. -/
def Op.isInsert : Op → Bool
  | .call (.insert _ _) => true
  | _ => false

def insertCount (ops : List Op) : Nat := ops.countP Op.isInsert

theorem insertCount_concat (ops : List Op) (op : Op) :
    insertCount (ops ++ [op]) = insertCount ops + if op.isInsert = true then 1 else 0 := by
  simp [insertCount, List.countP_append, List.countP_singleton]

theorem insertCount_append_le (ops more : List Op) :
    insertCount ops ≤ insertCount (ops ++ more) := by
  simp [insertCount, List.countP_append]

/-! ## The sequence of a collection -/

/-- An operation moves the sequence of a collection by one at most, and only if
it is an insert. -/
theorem step_sequence {w : World} {r : Registry} {op : Op} {c : Bytes}
    (hroom : op.isInsert = true → r.store.sequence (dataBucket c) + 1 < 2 ^ 64) :
    r.store.sequence (dataBucket c) ≤ (step w r op).store.sequence (dataBucket c) ∧
      (step w r op).store.sequence (dataBucket c) ≤
        r.store.sequence (dataBucket c) + if op.isInsert = true then 1 else 0 := by
  suffices h : (step w r op).store.sequence (dataBucket c) = r.store.sequence (dataBucket c) ∨
      (op.isInsert = true ∧ (step w r op).store.sequence (dataBucket c) =
        r.store.sequence (dataBucket c) + 1) by
    rcases h with h | ⟨hins, h⟩
    · omega
    · rw [if_pos hins]
      omega
  by_cases hop : ∃ call, op = .call call
  · obtain ⟨call, rfl⟩ := hop
    have heff := exec_effect w.codec r.files r.store call
    simp only [step]
    generalize Engine.step w.codec r.files r.store call = s' at heff ⊢
    generalize (exec w.codec r.files r.store call).2 = res at heff
    cases heff with
    | failed | absent _ _ _ => exact .inl rfl
    | created h =>
        obtain ⟨_, _, _, _, _, _, _, hseq⟩ := createCollection_eq_ok h
        exact .inl (hseq _)
    | replaced _ _ _ _ _ hseq _ | removed _ _ _ _ hseq _ => exact .inl (hseq _)
    | inserted hcm hmsg hplaced habsent hseq hrw =>
        rename_i cm msg
        rw [hseq]
        cases hk : cm.keyKind with
        | field => exact .inl (by rw [(hplaced.field hk).1])
        | auto =>
            obtain ⟨n, hn, _, _, hnext⟩ := hplaced.auto hk
            rw [hnext]
            by_cases hb : dataBucket cm.name = dataBucket c
            · rw [if_pos hb, hn, hb, Nat.mod_eq_of_lt (hroom rfl)]
              exact .inr ⟨rfl, rfl⟩
            · exact .inl (if_neg hb)
  · refine .inl (step_sameBucket (fun call heq => hop ⟨call, heq⟩) (.inl ?_)).sequence
    exact isDocBucket_data c

/-! ## The invariant -/

/-- The collection `c` in a store that has seen `n` calls of `Insert`. -/
structure Numbered (c : Bytes) (n : Nat) (s : Store) : Prop where
  name : ∀ cm, getMeta s c = .ok cm → cm.name = c
  vacant : (∀ cm, getMeta s c ≠ .ok cm) → ∀ k, s.get (dataBucket c) k = none
  keys : ∀ cm, getMeta s c = .ok cm → cm.keyKind = .auto →
    ∀ k b, s.get (dataBucket c) k = some b →
      ∃ m, 1 ≤ m ∧ m ≤ s.sequence (dataBucket c) ∧ k = be64 m
  bound : s.sequence (dataBucket c) ≤ n

theorem numbered_empty (c : Bytes) : Numbered c 0 Storage.Store.empty where
  name cm hcm := absurd hcm (getMeta_empty c cm)
  vacant _ _ := Storage.Store.get_empty _ _
  keys cm hcm := absurd hcm (getMeta_empty c cm)
  bound := by simp [Storage.Store.sequence, Storage.Store.bucketOrNew, Storage.Store.empty,
    Storage.Bucket.empty]

/-- What an insert into a numbered collection does. -/
theorem Numbered.insert {codec : Codec} {fs : Files} {s : Store} {c json id : Bytes} {n : Nat}
    (h : Numbered c n s) (hn : n + 1 < 2 ^ 64)
    (hauto : ∀ cm, getMeta s c = .ok cm → cm.keyKind = .auto)
    (hres : (exec codec fs s (.insert c json)).2 = .ok id) :
    id = formatUint (s.sequence (dataBucket c) + 1) ∧
      (Engine.step codec fs s (.insert c json)).sequence (dataBucket c) =
        s.sequence (dataBucket c) + 1 ∧
      ∀ k b, s.get (dataBucket c) k = some b →
        (Engine.step codec fs s (.insert c json)).get (dataBucket c) k = some b := by
  have heff := exec_effect codec fs s (.insert c json)
  rw [hres] at heff
  generalize Engine.step codec fs s (.insert c json) = s' at heff ⊢
  have hle := h.bound
  cases heff with
  | inserted hcm hmsg hplaced habsent hseq hrw =>
      rename_i cm msg
      have hauto := hauto cm hcm
      obtain ⟨m, hm, rfl, rfl, hnext⟩ := hplaced.auto hauto
      rw [h.name cm hcm] at hm hnext
      rw [Nat.mod_eq_of_lt (by omega)] at hm
      refine ⟨by rw [hm], ?_, ?_⟩
      · rw [hseq, hnext, if_pos rfl, hm]
      · intro k b hget
        -- the new key is the form of a number above every stored one
        have hne : be64 m ≠ k := by
          intro heq
          obtain ⟨m', _, hm', hk⟩ := h.keys cm hcm hauto k b hget
          have := be64_inj (by omega) (by omega) (heq.trans hk)
          omega
        rw [hrw.get_data fun hh => hne hh.2]
        exact hget

theorem numbered_step {w : World} {r : Registry} {c : Bytes} {n : Nat} {op : Op}
    (hc : validString c = true) (hnamed : Named r.store) (h : Numbered c n r.store)
    (hn : n + (if op.isInsert = true then 1 else 0) < 2 ^ 64) :
    Numbered c (n + if op.isInsert = true then 1 else 0) (step w r op).store := by
  have hle := h.bound
  obtain ⟨hgrows, hmoves⟩ := @step_sequence w r op c (by
    intro hins
    rw [if_pos hins] at hn
    omega)
  refine ⟨fun cm => named_step hnamed op c cm hc, ?_, ?_, by omega⟩
  · intro hnone k
    cases hget : (step w r op).store.get (dataBucket c) k with
    | none => rfl
    | some b =>
        rcases stored_op hget with ⟨b, hb⟩ | ⟨_, _, cm, _, _, _, hcm, _⟩
        · have hbefore := h.vacant (fun cm hcm => hnone cm (step_getMeta_kept hcm op)) k
          rw [hb] at hbefore
          cases hbefore
        · exact absurd (step_getMeta_kept hcm op) (hnone cm)
  · intro cm hcm' hauto k b hget
    -- the definition in force now is the one there was before
    have hback : ∀ cm₀, getMeta r.store c = .ok cm₀ → cm₀ = cm := by
      intro cm₀ hcm₀
      have hlater := step_getMeta_kept (w := w) hcm₀ op
      rw [hcm'] at hlater
      cases hlater
      rfl
    rcases stored_op hget with ⟨b, hb⟩ | ⟨json, id, cm₀, msg, s₁, rfl, hcm, hplaced, hseq⟩
    · by_cases hdef : ∃ cm₀, getMeta r.store c = .ok cm₀
      · obtain ⟨cm₀, hcm⟩ := hdef
        rw [hback cm₀ hcm] at hcm
        obtain ⟨m, hm, hle, hk⟩ := h.keys cm hcm hauto k b hb
        exact ⟨m, hm, hle.trans hgrows, hk⟩
      · rw [h.vacant (fun cm₀ hcm => hdef ⟨cm₀, hcm⟩) k] at hb
        cases hb
    · cases hback cm₀ hcm
      have hroom : n + 1 < 2 ^ 64 := hn
      obtain ⟨m, hm, hkey, _, hnext⟩ := hplaced.auto hauto
      rw [h.name cm hcm] at hm hnext
      rw [Nat.mod_eq_of_lt (by omega)] at hm
      refine ⟨m, by omega, ?_, hkey⟩
      rw [hseq, hnext, if_pos rfl]

theorem numbered_run {w : World} {c : Bytes} (hc : validString c = true) (ops : List Op)
    (hcount : insertCount ops < 2 ^ 64) : Numbered c (insertCount ops) (reached w ops).store := by
  induction ops using List.reverseRecOn with
  | nil => exact numbered_empty c
  | append_singleton ops op ih =>
      rw [insertCount_concat] at hcount ⊢
      rw [reached_concat]
      exact numbered_step hc (named_run w ops) (ih (by omega)) hcount

theorem reached_sequence_le {w : World} {c : Bytes} (hc : validString c = true)
    (ops more : List Op) (hcount : insertCount (ops ++ more) < 2 ^ 64) :
    (reached w ops).store.sequence (dataBucket c) ≤
      (reached w (ops ++ more)).store.sequence (dataBucket c) := by
  induction more using List.reverseRecOn with
  | nil => rw [List.append_nil]
  | append_singleton more op ih =>
      rw [← List.append_assoc, insertCount_concat] at hcount
      rw [← List.append_assoc, reached_concat]
      have hbound := (numbered_run (w := w) hc (ops ++ more) (by omega)).bound
      refine (ih (by omega)).trans (step_sequence ?_).1
      intro hins
      rw [if_pos hins] at hcount
      omega

/-! ## The ids returned -/

/-- The id an operation returns, if it is a successful insert into `c`. -/
def insertedId (w : World) (c : Bytes) (r : Registry) : Op → Option Bytes
  | .call (.insert coll json) =>
      if coll = c then (exec w.codec r.files r.store (.insert coll json)).2.toOption else none
  | _ => none

/-- The ids returned by the successful inserts into `c` of a run. -/
def insertedIds (w : World) (c : Bytes) : Registry → List Op → List Bytes
  | _, [] => []
  | r, op :: ops => (insertedId w c r op).toList ++ insertedIds w c (step w r op) ops

theorem insertedIds_concat (w : World) (c : Bytes) (r : Registry) (ops : List Op) (op : Op) :
    insertedIds w c r (ops ++ [op]) =
      insertedIds w c r ops ++ (insertedId w c (run (step w) r ops) op).toList := by
  induction ops generalizing r with
  | nil => simp [insertedIds]
  | cons o ops ih => simp [insertedIds, ih]

theorem insertedId_eq_some {w : World} {c id : Bytes} {r : Registry} {op : Op}
    (h : insertedId w c r op = some id) :
    ∃ json, op = .call (.insert c json) ∧
      (exec w.codec r.files r.store (.insert c json)).2 = .ok id := by
  unfold insertedId at h
  split at h
  · split at h
    · rename_i coll json hcoll
      subst hcoll
      refine ⟨json, rfl, ?_⟩
      cases hres : (exec w.codec r.files r.store (.insert coll json)).2 with
      | error e =>
          rw [hres] at h
          cases h
      | ok id' =>
          rw [hres] at h
          cases h
          rfl
    · cases h
  · cases h

/-- A successful insert into a collection that is numbered at the end of the
run. -/
theorem insert_next {w : World} {c json id : Bytes} (hc : validString c = true)
    {before after : List Op}
    (hcount : insertCount (before ++ .call (.insert c json) :: after) < 2 ^ 64)
    {cm : CollectionMeta}
    (hcm : getMeta (reached w (before ++ .call (.insert c json) :: after)).store c = .ok cm)
    (hauto : cm.keyKind = .auto)
    (hres : (exec w.codec (reached w before).files (reached w before).store
      (.insert c json)).2 = .ok id) :
    id = formatUint ((reached w before).store.sequence (dataBucket c) + 1) ∧
      (reached w (before ++ [.call (.insert c json)])).store.sequence (dataBucket c) =
        (reached w before).store.sequence (dataBucket c) + 1 ∧
      ∀ k b, (reached w before).store.get (dataBucket c) k = some b →
        (reached w (before ++ [.call (.insert c json)])).store.get (dataBucket c) k = some b := by
  have hroom : insertCount before + 1 < 2 ^ 64 := by
    rw [List.append_cons] at hcount
    have hle := insertCount_append_le (before ++ [.call (.insert c json)]) after
    have hins : (Op.call (.insert c json)).isInsert = true := rfl
    rw [insertCount_concat, if_pos hins] at hle
    omega
  rw [reached_concat]
  refine (numbered_run hc before (by omega)).insert hroom ?_ hres
  intro cm' hcm'
  have hlater := reached_getMeta_kept hcm' (.call (.insert c json) :: after)
  rw [hcm] at hlater
  cases hlater
  exact hauto

/-- The ids of a run are increasing numbers up to the sequence. -/
theorem insertedIds_increasing {w : World} {c : Bytes} (hc : validString c = true)
    {before after : List Op} (hcount : insertCount (before ++ after) < 2 ^ 64)
    {cm : CollectionMeta} (hcm : getMeta (reached w (before ++ after)).store c = .ok cm)
    (hauto : cm.keyKind = .auto) :
    ∃ ns : List Nat, insertedIds w c Registry.initial before = ns.map formatUint ∧
      ns.Pairwise (· < ·) ∧ ∀ n ∈ ns, n ≤ (reached w before).store.sequence (dataBucket c) := by
  induction before using List.reverseRecOn generalizing after with
  | nil => exact ⟨[], rfl, List.Pairwise.nil, fun n hn => by cases hn⟩
  | append_singleton before op ih =>
      have hgrows := reached_sequence_le (w := w) hc before [op]
        ((insertCount_append_le _ after).trans_lt hcount)
      rw [← List.append_cons] at hcount hcm
      obtain ⟨ns, hns, hsorted, hle⟩ := ih hcount hcm
      rw [insertedIds_concat]
      cases hid : insertedId w c (run (step w) Registry.initial before) op with
      | none =>
          refine ⟨ns, ?_, hsorted, fun n hn => (hle n hn).trans hgrows⟩
          rw [hns, Option.toList_none, List.append_nil]
      | some id =>
          obtain ⟨json, rfl, hres⟩ := insertedId_eq_some hid
          obtain ⟨rfl, hseq, _⟩ := insert_next hc hcount hcm hauto hres
          refine ⟨ns ++ [(reached w before).store.sequence (dataBucket c) + 1], ?_, ?_, ?_⟩
          · rw [hns, List.map_append]
            rfl
          · rw [List.pairwise_append]
            refine ⟨hsorted, List.pairwise_singleton _ _, ?_⟩
            intro n hn m hm
            rw [List.mem_singleton] at hm
            have := hle n hn
            omega
          · intro n hn
            rw [List.mem_append, List.mem_singleton] at hn
            rcases hn with hn | hn
            · exact (hle n hn).trans hgrows
            · omega

/-- **Ids are never reused.** In a run with fewer than 2^64 calls of `Insert`, a
collection with a valid UTF-8 name that is auto-keyed holds documents under the
forms of the numbers from one to its sequence only, and the ids returned for it
increase. A successful insert keeps every document there is, and returns none of
the ids that documents have had before, removed ones included. -/
theorem autoIds_never_reused (w : World) (ops : List Op) {c : Bytes}
    (hc : validString c = true) (hcount : insertCount ops < 2 ^ 64) {cm : CollectionMeta}
    (hcm : getMeta (reached w ops).store c = .ok cm) (hauto : cm.keyKind = .auto) :
    (∀ k b, (reached w ops).store.get (dataBucket c) k = some b →
      ∃ m, 1 ≤ m ∧ m ≤ (reached w ops).store.sequence (dataBucket c) ∧ k = be64 m) ∧
    (∃ ns : List Nat, insertedIds w c Registry.initial ops = ns.map formatUint ∧
      ns.Pairwise (· < ·)) ∧
    ∀ before json after id, ops = before ++ .call (.insert c json) :: after →
      (exec w.codec (reached w before).files (reached w before).store
        (.insert c json)).2 = .ok id →
      (∀ k b, (reached w before).store.get (dataBucket c) k = some b →
        (reached w (before ++ [.call (.insert c json)])).store.get (dataBucket c) k = some b) ∧
      ∀ earlier rest k b fs, before = earlier ++ rest →
        (reached w earlier).store.get (dataBucket c) k = some b →
        idFromStorageKey fs cm k ≠ .ok id := by
  refine ⟨(numbered_run hc ops hcount).keys cm hcm hauto, ?_, ?_⟩
  · obtain ⟨ns, hns, hsorted, _⟩ := @insertedIds_increasing w c hc ops []
      (by rwa [List.append_nil]) cm (by rwa [List.append_nil]) hauto
    exact ⟨ns, hns, hsorted⟩
  · rintro before json after id rfl hres
    obtain ⟨rfl, _, hkept⟩ := insert_next hc hcount hcm hauto hres
    refine ⟨hkept, ?_⟩
    rintro earlier rest k b fs rfl hget hid
    have hbefore : insertCount (earlier ++ rest) < 2 ^ 64 :=
      (insertCount_append_le _ _).trans_lt hcount
    have hearlier := (insertCount_append_le earlier rest).trans_lt hbefore
    have hnum := numbered_run (w := w) hc earlier hearlier
    have hgrows := reached_sequence_le (w := w) hc earlier rest hbefore
    have hdef : getMeta (reached w earlier).store c = .ok cm := by
      by_cases hex : ∃ cm₀, getMeta (reached w earlier).store c = .ok cm₀
      · obtain ⟨cm₀, hcm₀⟩ := hex
        have hlater := reached_getMeta_kept hcm₀ (rest ++ .call (.insert c json) :: after)
        rw [← List.append_assoc, hcm] at hlater
        cases hlater
        exact hcm₀
      · rw [hnum.vacant (fun cm₀ hcm₀ => hex ⟨cm₀, hcm₀⟩) k] at hget
        cases hget
    obtain ⟨m, _, hle, rfl⟩ := hnum.keys cm hdef hauto k b hget
    have hbound := hnum.bound
    rw [idFromStorageKey_auto hauto (by omega)] at hid
    have := formatUint_inj (Except.ok.inj hid)
    omega

/-- Three tickets: the second is deleted, and the third does not get its id. -/
theorem autoIds_never_reused_desk :
    let w : World := ⟨deskEnv, deskCodec, id⟩
    let c := ascii "tickets"
    let ops : List Op := [.register {} ⟨ascii "ticket.proto", ticket1, 0⟩,
      .call (.createCollection c (ascii "desk.Ticket") ⟨[], [ascii "level"]⟩),
      .call (.insert c textT1), .call (.insert c textT2), .restart,
      .call (.delete c (ascii "2")), .call (.insert c (ascii "none")),
      .call (.insert c textT2)]
    insertedIds w c Registry.initial ops = [ascii "1", ascii "2", ascii "3"] ∧
      ∃ ns : List Nat, insertedIds w c Registry.initial ops = ns.map formatUint ∧
        ns.Pairwise (· < ·) := by
  intro w c ops
  refine ⟨by decide +kernel, ?_⟩
  exact (@autoIds_never_reused w ops c (by decide) (by decide)
    ⟨c, ascii "desk.Ticket", .auto, [], [ascii "level"]⟩ (by decide +kernel) rfl).2.1

end KoraDB.System
