import KoraDB.Base.Strconv

/-!
# Reading base 64

`RawURLEncoding` without padding and `StdEncoding` with it, as Go decodes them:
line breaks are passed over wherever they stand, and the bits a last digit has
too many are ignored. What either encoding writes is read back
(`decodeUrl_base64Url`, `decodeStd_base64Std`).
-/

namespace KoraDB.Base

/-! ## Digits -/

/-- The digits of the standard alphabet; it differs in the last two. -/
def base64StdDigit (n : Nat) : UInt8 :=
  if n = 62 then 43 else if n = 63 then 47 else base64Digit n

/-- The value of a letter or figure, in either alphabet. -/
def base64Value (b : UInt8) : Option Nat :=
  if 65 ≤ b ∧ b ≤ 90 then some (b.toNat - 65)
  else if 97 ≤ b ∧ b ≤ 122 then some (b.toNat - 71)
  else if 48 ≤ b ∧ b ≤ 57 then some (b.toNat + 4)
  else none

def base64UrlValue (b : UInt8) : Option Nat :=
  if b = 45 then some 62 else if b = 95 then some 63 else base64Value b

def base64StdValue (b : UInt8) : Option Nat :=
  if b = 43 then some 62 else if b = 47 then some 63 else base64Value b

theorem base64UrlValue_digit : ∀ n < 64, base64UrlValue (base64Digit n) = some n := by decide

theorem base64StdValue_digit : ∀ n < 64, base64StdValue (base64StdDigit n) = some n := by decide

/-- Line breaks between digits do not count. -/
def stripBreaks (s : Bytes) : Bytes := s.filter fun b => b != 10 && b != 13

theorem stripBreaks_eq_self {s : Bytes} (h : ∀ b ∈ s, 32 ≤ b) : stripBreaks s = s := by
  refine List.filter_eq_self.mpr fun b hb => ?_
  have hle := h b hb
  have h10 : b ≠ 10 := by
    rintro rfl
    exact absurd hle (by decide)
  have h13 : b ≠ 13 := by
    rintro rfl
    exact absurd hle (by decide)
  simp [h10, h13]

/-! ## Bytes from digits -/

/-- The three bytes of four digits. -/
def byte1 (w x : Nat) : UInt8 := UInt8.ofNat (w * 4 + x / 16)
@[inherit_doc byte1] def byte2 (x y : Nat) : UInt8 := UInt8.ofNat (x % 16 * 16 + y / 4)
@[inherit_doc byte1] def byte3 (y z : Nat) : UInt8 := UInt8.ofNat (y % 4 * 64 + z)

theorem byte1_digits (a : UInt8) (n : Nat) (hn : n < 16) :
    byte1 (a.toNat / 4) (a.toNat % 4 * 16 + n) = a := by
  have hval : a.toNat / 4 * 4 + (a.toNat % 4 * 16 + n) / 16 = a.toNat := by omega
  rw [byte1, hval, UInt8.ofNat_toNat]

theorem byte2_digits (m : Nat) (b : UInt8) (n : Nat) (hn : n < 4) :
    byte2 (m * 16 + b.toNat / 16) (b.toNat % 16 * 4 + n) = b := by
  have hlt := b.toNat_lt
  have hval : (m * 16 + b.toNat / 16) % 16 * 16 + (b.toNat % 16 * 4 + n) / 4 = b.toNat := by omega
  rw [byte2, hval, UInt8.ofNat_toNat]

theorem byte3_digits (m : Nat) (c : UInt8) :
    byte3 (m * 4 + c.toNat / 64) (c.toNat % 64) = c := by
  have hlt := c.toNat_lt
  have hval : (m * 4 + c.toNat / 64) % 4 * 64 + c.toNat % 64 = c.toNat := by omega
  rw [byte3, hval, UInt8.ofNat_toNat]

/-! ## Without padding -/

/-- The loop of `RawURLEncoding.Decode`; the last group may have two or three
digits. -/
def decodeUrlDigits : Bytes → Option Bytes
  | [] => some []
  | [_] => none
  | [w, x] => do
    let w ← base64UrlValue w
    let x ← base64UrlValue x
    return [byte1 w x]
  | [w, x, y] => do
    let w ← base64UrlValue w
    let x ← base64UrlValue x
    let y ← base64UrlValue y
    return [byte1 w x, byte2 x y]
  | w :: x :: y :: z :: rest => do
    let w ← base64UrlValue w
    let x ← base64UrlValue x
    let y ← base64UrlValue y
    let z ← base64UrlValue z
    let bytes ← decodeUrlDigits rest
    return byte1 w x :: byte2 x y :: byte3 y z :: bytes

/-- `base64.RawURLEncoding.DecodeString`. -/
def decodeUrl (s : Bytes) : Option Bytes := decodeUrlDigits (stripBreaks s)

theorem decodeUrlDigits_base64Url (s : Bytes) : decodeUrlDigits (base64Url s) = some s := by
  induction s using base64Url.induct with
  | case1 => rfl
  | case2 a =>
      have ha := a.toNat_lt
      rw [base64Url, decodeUrlDigits, base64UrlValue_digit _ (by omega),
        base64UrlValue_digit _ (by omega)]
      show some [byte1 _ (a.toNat % 4 * 16 + 0)] = some [a]
      rw [byte1_digits a 0 (by omega)]
  | case3 a b =>
      have ha := a.toNat_lt
      have hb := b.toNat_lt
      rw [base64Url, decodeUrlDigits, base64UrlValue_digit _ (by omega),
        base64UrlValue_digit _ (by omega), base64UrlValue_digit _ (by omega)]
      show some [byte1 _ _, byte2 _ (b.toNat % 16 * 4 + 0)] = some [a, b]
      rw [byte1_digits a _ (by omega), byte2_digits _ b 0 (by omega)]
  | case4 a b c rest ih =>
      have ha := a.toNat_lt
      have hb := b.toNat_lt
      have hc := c.toNat_lt
      rw [base64Url, decodeUrlDigits, base64UrlValue_digit _ (by omega),
        base64UrlValue_digit _ (by omega), base64UrlValue_digit _ (by omega),
        base64UrlValue_digit _ (by omega), ih]
      show some (byte1 _ _ :: byte2 _ _ :: byte3 _ _ :: rest) = some (a :: b :: c :: rest)
      rw [byte1_digits a _ (by omega), byte2_digits _ b _ (by omega), byte3_digits]

theorem decodeUrl_base64Url (s : Bytes) : decodeUrl (base64Url s) = some s := by
  rw [decodeUrl, stripBreaks_eq_self (base64Url_forall (by decide) s)]
  exact decodeUrlDigits_base64Url s

theorem base64Url_injective : Function.Injective base64Url := by
  intro s t h
  have hs := decodeUrl_base64Url s
  rw [h, decodeUrl_base64Url t] at hs
  exact (Option.some.inj hs).symm

/-! ## With padding -/

/-- `=`, which fills the last group. -/
def pad : UInt8 := 61

/-- `base64.StdEncoding.EncodeToString`. -/
def base64Std : Bytes → Bytes
  | [] => []
  | [a] => [base64StdDigit (a.toNat / 4), base64StdDigit (a.toNat % 4 * 16), pad, pad]
  | [a, b] => [base64StdDigit (a.toNat / 4), base64StdDigit (a.toNat % 4 * 16 + b.toNat / 16),
      base64StdDigit (b.toNat % 16 * 4), pad]
  | a :: b :: c :: rest => base64StdDigit (a.toNat / 4) ::
      base64StdDigit (a.toNat % 4 * 16 + b.toNat / 16) ::
      base64StdDigit (b.toNat % 16 * 4 + c.toNat / 64) :: base64StdDigit (c.toNat % 64) ::
      base64Std rest

/-- The loop of `StdEncoding.Decode`; padding ends the text. -/
def decodeStdDigits : Bytes → Option Bytes
  | [] => some []
  | w :: x :: y :: z :: rest => do
    let w ← base64StdValue w
    let x ← base64StdValue x
    if y = pad then
      if z = pad ∧ rest = [] then some [byte1 w x] else none
    else
      let y ← base64StdValue y
      if z = pad then
        if rest = [] then some [byte1 w x, byte2 x y] else none
      else
        let z ← base64StdValue z
        let bytes ← decodeStdDigits rest
        return byte1 w x :: byte2 x y :: byte3 y z :: bytes
  | _ => none

/-- `base64.StdEncoding.DecodeString`. -/
def decodeStd (s : Bytes) : Option Bytes := decodeStdDigits (stripBreaks s)

theorem base64StdDigit_ne_pad : ∀ n < 64, base64StdDigit n ≠ pad := by decide

theorem base64Std_eq (s : Bytes) :
    ∃ k, base64Std s = (sextets s).map base64StdDigit ++ List.replicate k pad := by
  induction s using sextets.induct with
  | case1 => exact ⟨0, rfl⟩
  | case2 => exact ⟨2, rfl⟩
  | case3 => exact ⟨1, rfl⟩
  | case4 a b c rest ih =>
      obtain ⟨k, hk⟩ := ih
      refine ⟨k, ?_⟩
      rw [base64Std, hk]
      rfl

/-- Padded base 64 text is made of its digits and the padding. -/
theorem base64Std_forall {P : UInt8 → Prop} (hP : ∀ n < 64, P (base64StdDigit n)) (hpad : P pad)
    (s : Bytes) : ∀ d ∈ base64Std s, P d := by
  obtain ⟨k, hk⟩ := base64Std_eq s
  rw [hk, List.forall_mem_append, List.forall_mem_map]
  refine ⟨fun n hn => hP n (sextets_lt s n hn), ?_⟩
  intro d hd
  rw [List.eq_of_mem_replicate hd]
  exact hpad

theorem decodeStdDigits_base64Std (s : Bytes) : decodeStdDigits (base64Std s) = some s := by
  induction s using base64Std.induct with
  | case1 => rfl
  | case2 a =>
      have ha := a.toNat_lt
      rw [base64Std, decodeStdDigits, base64StdValue_digit _ (by omega),
        base64StdValue_digit _ (by omega)]
      show some [byte1 _ (a.toNat % 4 * 16 + 0)] = some [a]
      rw [byte1_digits a 0 (by omega)]
  | case3 a b =>
      have ha := a.toNat_lt
      have hb := b.toNat_lt
      rw [base64Std, decodeStdDigits, base64StdValue_digit _ (by omega),
        base64StdValue_digit _ (by omega), base64StdValue_digit _ (by omega)]
      simp only [Option.bind_eq_bind, Option.bind_some]
      rw [if_neg (base64StdDigit_ne_pad _ (by omega))]
      show some [byte1 _ _, byte2 _ (b.toNat % 16 * 4 + 0)] = some [a, b]
      rw [byte1_digits a _ (by omega), byte2_digits _ b 0 (by omega)]
  | case4 a b c rest ih =>
      have ha := a.toNat_lt
      have hb := b.toNat_lt
      have hc := c.toNat_lt
      rw [base64Std, decodeStdDigits, base64StdValue_digit _ (by omega),
        base64StdValue_digit _ (by omega), base64StdValue_digit _ (by omega),
        base64StdValue_digit _ (by omega), ih]
      simp only [Option.bind_eq_bind, Option.bind_some]
      rw [if_neg (base64StdDigit_ne_pad _ (by omega)), if_neg (base64StdDigit_ne_pad _ (by omega))]
      show some (byte1 _ _ :: byte2 _ _ :: byte3 _ _ :: rest) = some (a :: b :: c :: rest)
      rw [byte1_digits a _ (by omega), byte2_digits _ b _ (by omega), byte3_digits]

theorem decodeStd_base64Std (s : Bytes) : decodeStd (base64Std s) = some s := by
  rw [decodeStd, stripBreaks_eq_self (base64Std_forall (by decide) (by decide) s)]
  exact decodeStdDigits_base64Std s

end KoraDB.Base
