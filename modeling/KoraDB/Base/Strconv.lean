import Mathlib.Data.Nat.Digits.Lemmas
import KoraDB.Base.Bytes

/-!
# Text encodings: `strconv` and `base64`

Formatting and parsing in base 10, with the width limits of `ParseUint` and
`ParseInt`. Several spellings denote one number (leading zeros, a plus sign);
the formatted one is parsed back to the number it came from. Base 64 is only
written here, never read.
-/

namespace KoraDB.Base

/-! ## Digits -/

def digitByte (d : Nat) : UInt8 := UInt8.ofNat (48 + d)

/-- A hexadecimal digit, in lower case. -/
def hexDigit (n : Nat) : UInt8 := UInt8.ofNat (if n < 10 then 48 + n else 87 + n)

def digitValue (b : UInt8) : Option Nat :=
  if 48 ≤ b ∧ b ≤ 57 then some (b.toNat - 48) else none

theorem digitValue_digitByte : ∀ d < 10, digitValue (digitByte d) = some d := by decide

/-- Read a run of digits onto an accumulator. -/
def parseDigits : Nat → Bytes → Option Nat
  | acc, [] => some acc
  | acc, b :: rest =>
    match digitValue b with
    | some d => parseDigits (acc * 10 + d) rest
    | none => none

theorem parseDigits_map (ds : List Nat) (h : ∀ d ∈ ds, d < 10) (acc : Nat) :
    parseDigits acc (ds.map digitByte) = some (ds.foldl (fun n d => n * 10 + d) acc) := by
  induction ds generalizing acc with
  | nil => rfl
  | cons d ds ih =>
      have hd : digitValue (digitByte d) = some d :=
        digitValue_digitByte d (h d List.mem_cons_self)
      rw [List.map_cons, List.foldl_cons]
      unfold parseDigits
      rw [hd]
      exact ih (fun x hx => h x (List.mem_cons_of_mem _ hx)) _

/-! ## Unsigned -/

/-- `strconv.FormatUint(n, 10)`. -/
def formatUint (n : Nat) : Bytes :=
  if n = 0 then [48] else (Nat.digits 10 n).reverse.map digitByte

/-- `strconv.ParseUint(s, 10, bits)`; `none` for any error. -/
def parseUint (bits : Nat) (s : Bytes) : Option Nat :=
  if s = [] then none
  else (parseDigits 0 s).filter fun n => decide (n < 2 ^ bits)

theorem parseDigits_formatUint (n : Nat) : parseDigits 0 (formatUint n) = some n := by
  unfold formatUint
  split
  · rename_i hn
    rw [hn]
    rfl
  · have hdig : ∀ d ∈ (Nat.digits 10 n).reverse, d < 10 := by
      intro d hd
      exact Nat.digits_lt_base (by omega) (List.mem_reverse.mp hd)
    -- reading the reversed digits from the left is `Nat.ofDigits`
    have hval : (Nat.digits 10 n).reverse.foldl (fun n d => n * 10 + d) 0 = n := by
      rw [List.foldl_reverse]
      calc (Nat.digits 10 n).foldr (fun d n => n * 10 + d) 0
          = (Nat.digits 10 n).foldr (fun d n => d + 10 * n) 0 := by
            congr 1
            funext d n
            omega
        _ = Nat.ofDigits 10 (Nat.digits 10 n) := (Nat.ofDigits_eq_foldr 10 _).symm
        _ = n := Nat.ofDigits_digits 10 n
    rw [parseDigits_map _ hdig, hval]

theorem formatUint_ne_nil (n : Nat) : formatUint n ≠ [] := by
  intro h
  have hp := parseDigits_formatUint n
  unfold formatUint at h
  split at h
  · cases h
  · rename_i hn
    rw [List.map_eq_nil_iff, List.reverse_eq_nil_iff] at h
    exact Nat.digits_ne_nil_iff_ne_zero.mpr hn h

theorem parseUint_formatUint {bits n : Nat} (h : n < 2 ^ bits) :
    parseUint bits (formatUint n) = some n := by
  unfold parseUint
  rw [if_neg (formatUint_ne_nil n), parseDigits_formatUint]
  simp [h]

theorem parseUint_lt {bits n : Nat} {s : Bytes} (h : parseUint bits s = some n) :
    n < 2 ^ bits := by
  unfold parseUint at h
  split at h
  · cases h
  · simpa using (Option.filter_eq_some_iff.mp h).2

/-! ## Signed -/

def plus : UInt8 := 0x2B
def minus : UInt8 := 0x2D

/-- `strconv.FormatInt(n, 10)`. -/
def formatInt (n : Int) : Bytes :=
  if n < 0 then minus :: formatUint n.natAbs else formatUint n.natAbs

/-- `strconv.ParseInt(s, 10, bits)`: an optional sign, then digits in range. -/
def parseInt (bits : Nat) (s : Bytes) : Option Int :=
  let negative := s.head? = some minus
  let digits := if s.head? = some minus ∨ s.head? = some plus then s.tail else s
  (parseUint bits digits).bind fun n =>
    if negative then
      if n ≤ 2 ^ (bits - 1) then some (-(n : Int)) else none
    else
      if n < 2 ^ (bits - 1) then some (n : Int) else none

/-- A formatted number is written in digits. -/
theorem digits_formatUint {n : Nat} {b : UInt8} (hb : b ∈ formatUint n) : 48 ≤ b ∧ b ≤ 57 := by
  unfold formatUint at hb
  split at hb
  · rw [List.mem_singleton.mp hb]
    decide
  · obtain ⟨d, hd, rfl⟩ := List.mem_map.mp hb
    have hlt : d < 10 := Nat.digits_lt_base (by omega) (List.mem_reverse.mp hd)
    unfold digitByte
    rw [UInt8.le_iff_toNat_le, UInt8.le_iff_toNat_le, UInt8.toNat_ofNat']
    show 48 ≤ (48 + d) % 256 ∧ (48 + d) % 256 ≤ 57
    omega

theorem digit_of_mem_formatUint {n : Nat} {b : UInt8} (hb : b ∈ formatUint n) : 48 ≤ b :=
  (digits_formatUint hb).1

/-- A formatted number starts with a digit. -/
theorem formatUint_head (n : Nat) :
    (formatUint n).head? ≠ some minus ∧ (formatUint n).head? ≠ some plus := by
  constructor
  · intro h
    exact absurd (digit_of_mem_formatUint (List.mem_of_mem_head? h)) (by decide)
  · intro h
    exact absurd (digit_of_mem_formatUint (List.mem_of_mem_head? h)) (by decide)

theorem parseInt_formatInt {bits : Nat} (hbits : 0 < bits) {n : Int}
    (hlo : -(2 : Int) ^ (bits - 1) ≤ n) (hhi : n < (2 : Int) ^ (bits - 1)) :
    parseInt bits (formatInt n) = some n := by
  have hpow : 2 ^ bits = 2 * 2 ^ (bits - 1) := by
    rw [← Nat.pow_succ', Nat.succ_eq_add_one, Nat.sub_add_cancel hbits]
  have hcast : ((2 ^ (bits - 1) : Nat) : Int) = (2 : Int) ^ (bits - 1) := by push_cast; rfl
  have hpos : 0 < 2 ^ (bits - 1) := Nat.pow_pos (by omega)
  unfold formatInt
  split
  · rename_i hneg
    have habs : n.natAbs ≤ 2 ^ (bits - 1) := by omega
    have hparse : parseUint bits (formatUint n.natAbs) = some n.natAbs :=
      parseUint_formatUint (by omega)
    unfold parseInt
    simp only [List.head?_cons, true_or, if_true, List.tail_cons, hparse, Option.bind_some, habs]
    congr 1
    omega
  · have habs : n.natAbs < 2 ^ (bits - 1) := by omega
    have hparse : parseUint bits (formatUint n.natAbs) = some n.natAbs :=
      parseUint_formatUint (by omega)
    obtain ⟨hm, hp⟩ := formatUint_head n.natAbs
    unfold parseInt
    simp only [hm, hp, or_self, if_false, hparse, Option.bind_some, habs, if_true]
    congr 1
    omega

theorem formatUint_inj {m n : Nat} (h : formatUint m = formatUint n) : m = n := by
  have hm := parseDigits_formatUint m
  rw [h, parseDigits_formatUint] at hm
  exact (Option.some.inj hm).symm

theorem formatInt_inj {m n : Int} (h : formatInt m = formatInt n) : m = n := by
  -- only a negative number starts with a minus
  have hsign : ∀ {a b : Nat}, minus :: formatUint a ≠ formatUint b := by
    intro a b heq
    exact (formatUint_head b).1 (by rw [← heq]; rfl)
  unfold formatInt at h
  split at h <;> split at h
  · have := formatUint_inj (List.cons.inj h).2
    omega
  · exact absurd h hsign
  · exact absurd h.symm hsign
  · have := formatUint_inj h
    omega

/-- A formatted integer holds no byte past the digits. -/
theorem le_of_mem_formatInt {n : Int} {b : UInt8} (hb : b ∈ formatInt n) : b ≤ 57 := by
  unfold formatInt at hb
  split at hb
  · rcases List.mem_cons.mp hb with rfl | hb
    · decide
    · exact (digits_formatUint hb).2
  · exact (digits_formatUint hb).2

/-- A parsed number is in the range of its width. -/
theorem parseInt_range {bits : Nat} {s : Bytes} {n : Int} (h : parseInt bits s = some n) :
    -(2 : Int) ^ (bits - 1) ≤ n ∧ n < (2 : Int) ^ (bits - 1) := by
  have hcast : ((2 ^ (bits - 1) : Nat) : Int) = (2 : Int) ^ (bits - 1) := by push_cast; rfl
  have hpos : 0 < 2 ^ (bits - 1) := Nat.pow_pos (by omega)
  unfold parseInt at h
  obtain ⟨u, _, hu⟩ := Option.bind_eq_some_iff.mp h
  split at hu
  · split at hu
    · have := Option.some.inj hu
      omega
    · cases hu
  · split at hu
    · have := Option.some.inj hu
      omega
    · cases hu

/-! ## Booleans -/

def formatBool (b : Bool) : Bytes := if b then ascii "true" else ascii "false"

/-- `strconv.ParseBool`. -/
def parseBool (s : Bytes) : Option Bool :=
  if s ∈ ["1", "t", "T", "TRUE", "true", "True"].map ascii then some true
  else if s ∈ ["0", "f", "F", "FALSE", "false", "False"].map ascii then some false
  else none

theorem parseBool_formatBool : ∀ b, parseBool (formatBool b) = some b := by decide

theorem formatBool_injective : Function.Injective formatBool := by
  intro a b h
  have := congrArg parseBool h
  rw [parseBool_formatBool, parseBool_formatBool] at this
  exact Option.some.inj this

/-! ## Padded numbers -/

/-- `fmt.Sprintf("%0*d", width, n)`: padded with zeros to the width. -/
def zeroPadded (width n : Nat) : Bytes :=
  List.replicate (width - (formatUint n).length) 48 ++ formatUint n

/-- `fmt.Sprintf("%020d", n)`: at least twenty digits. -/
def formatPadded (n : Nat) : Bytes := zeroPadded 20 n

/-- Leading zeros do not count. -/
theorem parseDigits_zeros (k : Nat) (s : Bytes) :
    parseDigits 0 (List.replicate k 48 ++ s) = parseDigits 0 s := by
  induction k with
  | zero => rfl
  | succ k ih => exact ih

theorem parseDigits_zeroPadded (width n : Nat) : parseDigits 0 (zeroPadded width n) = some n := by
  unfold zeroPadded
  rw [parseDigits_zeros, parseDigits_formatUint]

theorem length_formatUint_le {width n : Nat} (hwidth : 0 < width) (h : n < 10 ^ width) :
    (formatUint n).length ≤ width := by
  unfold formatUint
  split
  · exact hwidth
  · rw [List.length_map, List.length_reverse]
    exact (Nat.digits_length_le_iff (by decide) n).mpr h

theorem length_zeroPadded {width n : Nat} (hwidth : 0 < width) (h : n < 10 ^ width) :
    (zeroPadded width n).length = width := by
  have hle := length_formatUint_le hwidth h
  rw [zeroPadded, List.length_append, List.length_replicate]
  omega

theorem digits_zeroPadded {width n : Nat} {b : UInt8} (hb : b ∈ zeroPadded width n) :
    48 ≤ b ∧ b ≤ 57 := by
  unfold zeroPadded at hb
  rcases List.mem_append.mp hb with hb | hb
  · rw [List.eq_of_mem_replicate hb]
    decide
  · exact digits_formatUint hb

theorem formatPadded_inj {m n : Nat} (h : formatPadded m = formatPadded n) : m = n := by
  have hm := parseDigits_zeroPadded 20 m
  rw [show zeroPadded 20 m = zeroPadded 20 n from h, parseDigits_zeroPadded] at hm
  exact (Option.some.inj hm).symm

theorem digit_of_mem_formatPadded {n : Nat} {b : UInt8} (hb : b ∈ formatPadded n) : 48 ≤ b :=
  (digits_zeroPadded hb).1

theorem nul_not_mem_formatPadded (n : Nat) : (0x00 : UInt8) ∉ formatPadded n := by
  intro hmem
  exact absurd (digit_of_mem_formatPadded hmem) (by decide)

/-! ## Base 64 -/

def base64Digit (n : Nat) : UInt8 :=
  if n < 26 then UInt8.ofNat (65 + n)
  else if n < 52 then UInt8.ofNat (71 + n)
  else if n < 62 then UInt8.ofNat (n - 4)
  else if n = 62 then 45
  else 95

/-- `base64.RawURLEncoding.EncodeToString`. -/
def base64Url : Bytes → Bytes
  | [] => []
  | [a] => [base64Digit (a.toNat / 4), base64Digit (a.toNat % 4 * 16)]
  | [a, b] => [base64Digit (a.toNat / 4), base64Digit (a.toNat % 4 * 16 + b.toNat / 16),
      base64Digit (b.toNat % 16 * 4)]
  | a :: b :: c :: rest => base64Digit (a.toNat / 4) ::
      base64Digit (a.toNat % 4 * 16 + b.toNat / 16) ::
      base64Digit (b.toNat % 16 * 4 + c.toNat / 64) :: base64Digit (c.toNat % 64) :: base64Url rest

/-- The bits of a text in groups of six; the last group is filled with zeros. -/
def sextets : Bytes → List Nat
  | [] => []
  | [a] => [a.toNat / 4, a.toNat % 4 * 16]
  | [a, b] => [a.toNat / 4, a.toNat % 4 * 16 + b.toNat / 16, b.toNat % 16 * 4]
  | a :: b :: c :: rest => a.toNat / 4 :: (a.toNat % 4 * 16 + b.toNat / 16) ::
      (b.toNat % 16 * 4 + c.toNat / 64) :: c.toNat % 64 :: sextets rest

theorem sextets_lt (s : Bytes) : ∀ n ∈ sextets s, n < 64 := by
  induction s using sextets.induct with
  | case1 => simp [sextets]
  | case2 a =>
      have ha := a.toNat_lt
      simp only [sextets, List.mem_cons, List.not_mem_nil, or_false, forall_eq_or_imp, forall_eq]
      omega
  | case3 a b =>
      have ha := a.toNat_lt
      have hb := b.toNat_lt
      simp only [sextets, List.mem_cons, List.not_mem_nil, or_false, forall_eq_or_imp, forall_eq]
      omega
  | case4 a b c rest ih =>
      have ha := a.toNat_lt
      have hb := b.toNat_lt
      have hc := c.toNat_lt
      simp only [sextets, List.forall_mem_cons]
      exact ⟨by omega, by omega, by omega, by omega, ih⟩

theorem base64Url_eq (s : Bytes) : base64Url s = (sextets s).map base64Digit := by
  induction s using sextets.induct with
  | case1 | case2 | case3 => rfl
  | case4 a b c rest ih =>
      rw [base64Url, ih]
      rfl

/-- Base 64 text is made of its digits. -/
theorem base64Url_forall {P : UInt8 → Prop} (hP : ∀ n < 64, P (base64Digit n)) (s : Bytes) :
    ∀ d ∈ base64Url s, P d := by
  rw [base64Url_eq, List.forall_mem_map]
  exact fun n hn => hP n (sextets_lt s n hn)

/-- Base 64 text is ASCII. -/
theorem base64Url_ascii (s : Bytes) : ∀ d ∈ base64Url s, d < 0x80 :=
  base64Url_forall (by decide) s

end KoraDB.Base
