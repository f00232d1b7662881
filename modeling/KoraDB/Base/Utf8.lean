import KoraDB.Base.Bytes

/-!
# UTF-8 as Go decodes it

`utf8.DecodeRune` on a byte string: the width of the rune at the front, or
an invalid byte of width one. `encoding/json` writes each invalid byte as
U+FFFD, so a string survives a JSON round trip exactly when it is valid
(`toValidUTF8_eq_self`).
-/

namespace KoraDB.Base

/-- A byte in `lo .. hi`. -/
def isCont (lo hi b : UInt8) : Bool := lo ≤ b && b ≤ hi

/-- The range of the second byte after the lead byte `b0`: shortened for the
leads that would otherwise allow overlong forms, surrogates or runes past
U+10FFFF. -/
def isSecond (b0 b1 : UInt8) : Bool :=
  isCont (if b0 = 0xE0 then 0xA0 else if b0 = 0xF0 then 0x90 else 0x80)
    (if b0 = 0xED then 0x9F else if b0 = 0xF4 then 0x8F else 0xBF) b1

/-- `utf8.DecodeRune`: the first rune and its width, `none` for an invalid
byte (or no byte at all). -/
def decodeRune : Bytes → Option (Nat × Nat)
  | [] => none
  | b0 :: rest =>
    if b0 < 0x80 then some (b0.toNat, 1)
    else if isCont 0xC2 0xDF b0 then
      match rest with
      | b1 :: _ =>
        if isCont 0x80 0xBF b1 then
          some ((b0.toNat - 0xC0) * 64 + (b1.toNat - 0x80), 2)
        else none
      | [] => none
    else if isCont 0xE0 0xEF b0 then
      match rest with
      | b1 :: b2 :: _ =>
        if isSecond b0 b1 && isCont 0x80 0xBF b2 then
          some (((b0.toNat - 0xE0) * 64 + (b1.toNat - 0x80)) * 64 + (b2.toNat - 0x80), 3)
        else none
      | _ => none
    else if isCont 0xF0 0xF4 b0 then
      match rest with
      | b1 :: b2 :: b3 :: _ =>
        if isSecond b0 b1 && isCont 0x80 0xBF b2 && isCont 0x80 0xBF b3 then
          some ((((b0.toNat - 0xF0) * 64 + (b1.toNat - 0x80)) * 64 + (b2.toNat - 0x80)) * 64
            + (b3.toNat - 0x80), 4)
        else none
      | _ => none
    else none

/-- The runes of a string, an invalid byte as `none`. The fuel is the number
of bytes: every rune takes at least one. -/
def runesAux : Nat → Bytes → List (Option Nat)
  | 0, _ => []
  | _ + 1, [] => []
  | fuel + 1, b :: rest =>
    match decodeRune (b :: rest) with
    | some (r, w) => some r :: runesAux fuel ((b :: rest).drop w)
    | none => none :: runesAux fuel rest

/-- `for _, r := range s`, with invalid bytes marked. -/
def runes (s : Bytes) : List (Option Nat) := runesAux s.length s

/-- `utf8.ValidString`. -/
def validString (s : Bytes) : Bool := (runes s).all Option.isSome

/-- The UTF-8 form of U+FFFD. -/
def runeError : Bytes := [0xEF, 0xBF, 0xBD]

def toValidAux : Nat → Bytes → Bytes
  | 0, _ => []
  | _ + 1, [] => []
  | fuel + 1, b :: rest =>
    match decodeRune (b :: rest) with
    | some (_, w) => (b :: rest).take w ++ toValidAux fuel ((b :: rest).drop w)
    | none => runeError ++ toValidAux fuel rest

/-- What a string reads back as after `json.Marshal` and `json.Unmarshal`:
each invalid byte has become U+FFFD. -/
def toValidUTF8 (s : Bytes) : Bytes := toValidAux s.length s

/-- A rune is at least one byte wide. -/
theorem decodeRune_width {s : Bytes} {r w : Nat} (h : decodeRune s = some (r, w)) : 1 ≤ w := by
  unfold decodeRune at h
  repeat' split at h
  all_goals simp only [reduceCtorEq, Option.some.injEq, Prod.mk.injEq] at h
  all_goals omega

/-- The two walks visit the same runes: with no invalid byte met and enough
fuel, the rewritten string is the string. -/
theorem toValidAux_eq_self {fuel : Nat} {s : Bytes} (hlen : s.length ≤ fuel)
    (h : (runesAux fuel s).all Option.isSome = true) : toValidAux fuel s = s := by
  induction fuel generalizing s with
  | zero => exact (List.length_eq_zero_iff.mp (Nat.le_zero.mp hlen)) ▸ rfl
  | succ fuel ih =>
      cases s with
      | nil => rfl
      | cons b rest =>
          cases hd : decodeRune (b :: rest) with
          | none =>
              simp only [runesAux, hd, List.all_cons, Option.isSome_none, Bool.false_and,
                Bool.false_eq_true] at h
          | some rw =>
              obtain ⟨r, w⟩ := rw
              have hw : 1 ≤ w := decodeRune_width hd
              simp only [runesAux, hd, List.all_cons, Option.isSome_some, Bool.true_and] at h
              simp only [toValidAux, hd]
              rw [ih ?_ h, List.take_append_drop]
              simp only [List.length_drop, List.length_cons] at hlen ⊢
              omega

/-- A valid string is unchanged by the JSON round trip. -/
theorem toValidUTF8_eq_self {s : Bytes} (h : validString s = true) : toValidUTF8 s = s :=
  toValidAux_eq_self (Nat.le_refl _) h

/-- ASCII bytes are one-byte runes. -/
theorem decodeRune_ascii {b : UInt8} (h : b < 0x80) (rest : Bytes) :
    decodeRune (b :: rest) = some (b.toNat, 1) := by
  simp only [decodeRune, if_pos h]

theorem runesAux_ascii {fuel : Nat} {s : Bytes} (h : ∀ b ∈ s, b < 0x80) :
    (runesAux fuel s).all Option.isSome = true := by
  induction fuel generalizing s with
  | zero => rfl
  | succ fuel ih =>
      cases s with
      | nil => rfl
      | cons b rest =>
          simp only [runesAux, decodeRune_ascii (h b List.mem_cons_self), List.all_cons,
            Option.isSome_some, Bool.true_and, List.drop_succ_cons, List.drop_zero]
          exact ih fun x hx => h x (List.mem_cons_of_mem _ hx)

/-- Every ASCII string is valid UTF-8. -/
theorem validString_of_ascii {s : Bytes} (h : ∀ b ∈ s, b < 0x80) : validString s = true :=
  runesAux_ascii h

/-! ## The forms of a rune -/

/-- A rune at the front of a string, in one of the four forms. -/
inductive RuneAt : Bytes → Nat → Nat → Prop
  | one {b0 : UInt8} {rest : Bytes} (h0 : b0 < 0x80) : RuneAt (b0 :: rest) b0.toNat 1
  | two {b0 b1 : UInt8} {rest : Bytes} (h0 : isCont 0xC2 0xDF b0 = true)
      (h1 : isCont 0x80 0xBF b1 = true) :
      RuneAt (b0 :: b1 :: rest) ((b0.toNat - 0xC0) * 64 + (b1.toNat - 0x80)) 2
  | three {b0 b1 b2 : UInt8} {rest : Bytes} (h0 : isCont 0xE0 0xEF b0 = true)
      (h1 : isSecond b0 b1 = true) (h2 : isCont 0x80 0xBF b2 = true) :
      RuneAt (b0 :: b1 :: b2 :: rest)
        (((b0.toNat - 0xE0) * 64 + (b1.toNat - 0x80)) * 64 + (b2.toNat - 0x80)) 3
  | four {b0 b1 b2 b3 : UInt8} {rest : Bytes} (h0 : isCont 0xF0 0xF4 b0 = true)
      (h1 : isSecond b0 b1 = true) (h2 : isCont 0x80 0xBF b2 = true)
      (h3 : isCont 0x80 0xBF b3 = true) :
      RuneAt (b0 :: b1 :: b2 :: b3 :: rest)
        ((((b0.toNat - 0xF0) * 64 + (b1.toNat - 0x80)) * 64 + (b2.toNat - 0x80)) * 64
          + (b3.toNat - 0x80)) 4

theorem isCont_iff {lo hi b : UInt8} :
    isCont lo hi b = true ↔ lo.toNat ≤ b.toNat ∧ b.toNat ≤ hi.toNat := by
  simp only [isCont, Bool.and_eq_true, decide_eq_true_eq, UInt8.le_iff_toNat_le]

theorem runeAt_of_decodeRune {s : Bytes} {r w : Nat} (h : decodeRune s = some (r, w)) :
    RuneAt s r w := by
  unfold decodeRune at h
  repeat' split at h
  all_goals simp only [reduceCtorEq, Option.some.injEq, Prod.mk.injEq] at h
  all_goals obtain ⟨rfl, rfl⟩ := h
  · exact .one ‹_›
  · exact .two ‹_› ‹_›
  · rename_i h12
    rw [Bool.and_eq_true] at h12
    exact .three ‹_› h12.1 h12.2
  · rename_i h123
    rw [Bool.and_eq_true, Bool.and_eq_true] at h123
    exact .four ‹_› h123.1.1 h123.1.2 h123.2

/-- The lead bytes of the forms are apart. -/
theorem decodeRune_of_runeAt {s : Bytes} {r w : Nat} (h : RuneAt s r w) :
    decodeRune s = some (r, w) := by
  have hbig : ∀ {lo hi b : UInt8}, 0x80 ≤ lo.toNat → isCont lo hi b = true → ¬ b < 0x80 := by
    intro lo hi b hlo hb hlt
    have hlt : b.toNat < 128 := UInt8.lt_iff_toNat_lt.mp hlt
    have := isCont_iff.mp hb
    omega
  have hapart : ∀ {lo hi lo' hi' b : UInt8}, hi'.toNat < lo.toNat → isCont lo hi b = true →
      ¬ isCont lo' hi' b = true := by
    intro lo hi lo' hi' b hlt hb hb'
    have := isCont_iff.mp hb
    have := isCont_iff.mp hb'
    omega
  cases h with
  | one h0 => exact decodeRune_ascii h0 _
  | two h0 h1 => rw [decodeRune, if_neg (hbig (by decide) h0), if_pos h0, if_pos h1]
  | three h0 h1 h2 =>
      rw [decodeRune, if_neg (hbig (by decide) h0), if_neg (hapart (by decide) h0), if_pos h0]
      simp only [h1, h2, Bool.and_self, if_true]
  | four h0 h1 h2 h3 =>
      rw [decodeRune, if_neg (hbig (by decide) h0), if_neg (hapart (by decide) h0),
        if_neg (hapart (by decide) h0), if_pos h0]
      simp only [h1, h2, h3, Bool.and_self, if_true]

/-- A rune is decided by its own bytes. -/
theorem decodeRune_take {s : Bytes} {r w : Nat} (h : decodeRune s = some (r, w)) (t : Bytes) :
    decodeRune (s.take w ++ t) = some (r, w) := by
  apply decodeRune_of_runeAt
  cases runeAt_of_decodeRune h with
  | one h0 => exact .one h0
  | two h0 h1 => exact .two h0 h1
  | three h0 h1 h2 => exact .three h0 h1 h2
  | four h0 h1 h2 h3 => exact .four h0 h1 h2 h3

theorem take_width_length {s : Bytes} {r w : Nat} (h : decodeRune s = some (r, w)) :
    (s.take w).length = w := by
  cases runeAt_of_decodeRune h <;> rfl

/-! ## Writing a rune -/

/-- `utf8.EncodeRune` on a rune that is no surrogate. -/
def encodeRune (r : Nat) : Bytes :=
  if r < 0x80 then [UInt8.ofNat r]
  else if r < 0x800 then [UInt8.ofNat (0xC0 + r / 64), UInt8.ofNat (0x80 + r % 64)]
  else if r < 0x10000 then
    [UInt8.ofNat (0xE0 + r / 4096), UInt8.ofNat (0x80 + r / 64 % 64), UInt8.ofNat (0x80 + r % 64)]
  else [UInt8.ofNat (0xF0 + r / 262144), UInt8.ofNat (0x80 + r / 4096 % 64),
    UInt8.ofNat (0x80 + r / 64 % 64), UInt8.ofNat (0x80 + r % 64)]

theorem cont_range {b : UInt8} (h : isCont 0x80 0xBF b = true) :
    128 ≤ b.toNat ∧ b.toNat ≤ 191 := isCont_iff.mp h

/-- The second byte is a continuation byte, and not one of an overlong form. -/
theorem second_range {b0 b1 : UInt8} (h : isSecond b0 b1 = true) :
    (128 ≤ b1.toNat ∧ b1.toNat ≤ 191) ∧ (b0.toNat = 224 → 160 ≤ b1.toNat) ∧
      (b0.toNat = 240 → 144 ≤ b1.toNat) := by
  have hlead : ∀ n : Nat, n < 256 → (b0.toNat = n ↔ b0 = UInt8.ofNat n) := by
    intro n hn
    rw [← UInt8.toNat_inj, UInt8.toNat_ofNat', Nat.mod_eq_of_lt hn]
  rw [hlead 224 (by omega), hlead 240 (by omega)]
  unfold isSecond at h
  rw [isCont_iff] at h
  by_cases hE0 : b0 = 0xE0
  · subst hE0
    simp at h ⊢
    omega
  · by_cases hF0 : b0 = 0xF0
    · subst hF0
      simp at h ⊢
      omega
    · rw [if_neg hE0, if_neg hF0] at h
      refine ⟨⟨h.1, ?_⟩, fun he => absurd he hE0, fun he => absurd he hF0⟩
      have h2 := h.2
      split at h2
      · change b1.toNat ≤ 159 at h2
        omega
      · split at h2
        · change b1.toNat ≤ 143 at h2
          omega
        · exact h2

theorem ofNat_eq {n : Nat} {b : UInt8} (h : n = b.toNat) : UInt8.ofNat n = b := by
  rw [h, UInt8.ofNat_toNat]

/-- Writing a rune gives the bytes it was read from. -/
theorem encodeRune_decodeRune {s : Bytes} {r w : Nat} (h : decodeRune s = some (r, w)) :
    encodeRune r = s.take w := by
  cases runeAt_of_decodeRune h with
  | @one b0 _ h0 =>
      have h0 : b0.toNat < 128 := UInt8.lt_iff_toNat_lt.mp h0
      rw [encodeRune, if_pos h0, UInt8.ofNat_toNat]
      rfl
  | @two b0 b1 _ h0 h1 =>
      have h0 : 194 ≤ b0.toNat ∧ b0.toNat ≤ 223 := isCont_iff.mp h0
      have h1 := cont_range h1
      rw [encodeRune, if_neg (by omega), if_pos (by omega), ofNat_eq (b := b0) (by omega),
        ofNat_eq (b := b1) (by omega)]
      rfl
  | @three b0 b1 b2 _ h0 h1 h2 =>
      have h0 : 224 ≤ b0.toNat ∧ b0.toNat ≤ 239 := isCont_iff.mp h0
      obtain ⟨h1, hE0, _⟩ := second_range h1
      have h2 := cont_range h2
      rw [encodeRune, if_neg (by omega), if_neg (by omega), if_pos (by omega),
        ofNat_eq (b := b0) (by omega), ofNat_eq (b := b1) (by omega),
        ofNat_eq (b := b2) (by omega)]
      rfl
  | @four b0 b1 b2 b3 _ h0 h1 h2 h3 =>
      have h0 : 240 ≤ b0.toNat ∧ b0.toNat ≤ 244 := isCont_iff.mp h0
      obtain ⟨h1, _, hF0⟩ := second_range h1
      have h2 := cont_range h2
      have h3 := cont_range h3
      rw [encodeRune, if_neg (by omega), if_neg (by omega), if_neg (by omega),
        ofNat_eq (b := b0) (by omega), ofNat_eq (b := b1) (by omega),
        ofNat_eq (b := b2) (by omega), ofNat_eq (b := b3) (by omega)]
      rfl

end KoraDB.Base
