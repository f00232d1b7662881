import KoraDB.Base.Strconv
import KoraDB.Base.Utf8

/-!
# JSON text as `encoding/json` writes and reads it

`appendString` escapes what HTML or JavaScript could misread and writes an
invalid byte as U+FFFD; `unquote` undoes escapes and replaces invalid bytes
too. So a string reads back as its valid form (`readString_quote`). Reading
covers the whole grammar: values nest to ten thousand levels, and numbers are
kept as they are spelled.
-/

namespace KoraDB.Base.Json

/-! ## Writing strings -/

/-- `\uxxxx`. -/
def unicodeEscape (r : Nat) : Bytes :=
  [92, 117, hexDigit (r / 4096), hexDigit (r / 256 % 16), hexDigit (r / 16 % 16),
    hexDigit (r % 16)]

/-- The escapes of two characters that are written. -/
def shortEscapes : List (UInt8 × UInt8) :=
  [(34, 34), (92, 92), (8, 98), (12, 102), (10, 110), (13, 114), (9, 116)]

/-- One ASCII character in `appendString`; `htmlSafeSet` excludes control
characters, the quote, the backslash and `<`, `>`, `&`. -/
def quoteAscii (b : UInt8) : Bytes :=
  match shortEscapes.lookup b with
  | some e => [92, e]
  | none => if b < 32 ∨ b = 60 ∨ b = 62 ∨ b = 38 then unicodeEscape b.toNat else [b]

/-- The loop of `appendString`. The fuel is the number of bytes. -/
def quoteAux : Nat → Bytes → Bytes
  | 0, _ => []
  | _ + 1, [] => []
  | fuel + 1, b :: rest =>
    if b < 0x80 then quoteAscii b ++ quoteAux fuel rest
    else
      match decodeRune (b :: rest) with
      | none => unicodeEscape 0xFFFD ++ quoteAux fuel rest
      | some (r, w) =>
        (if r = 0x2028 ∨ r = 0x2029 then unicodeEscape r else (b :: rest).take w) ++
          quoteAux fuel ((b :: rest).drop w)

/-- `appendString`: a string as a JSON literal. -/
def quote (s : Bytes) : Bytes := 34 :: (quoteAux s.length s ++ [34])

/-! ## Reading strings -/

def hexValue (b : UInt8) : Option Nat :=
  if 48 ≤ b ∧ b ≤ 57 then some (b.toNat - 48)
  else if 97 ≤ b ∧ b ≤ 102 then some (b.toNat - 87)
  else if 65 ≤ b ∧ b ≤ 70 then some (b.toNat - 55)
  else none

/-- Four hexadecimal digits. -/
def readHex4 : Bytes → Option (Nat × Bytes)
  | a :: b :: c :: d :: rest => do
    let a ← hexValue a
    let b ← hexValue b
    let c ← hexValue c
    let d ← hexValue d
    return (((a * 16 + b) * 16 + c) * 16 + d, rest)
  | _ => none

/-- The escapes of two characters that are read. -/
def readShort (e : UInt8) : Option UInt8 :=
  [(34, 34), (92, 92), (47, 47), (98, 8), (102, 12), (110, 10), (114, 13), (116, 9)].lookup e

/-- `utf16.DecodeRune`: the rune of two surrogates. -/
def decodeSurrogates (r r' : Nat) : Option Nat :=
  if 0xD800 ≤ r ∧ r < 0xDC00 ∧ 0xDC00 ≤ r' ∧ r' < 0xE000 then
    some ((r - 0xD800) * 1024 + (r' - 0xDC00) + 0x10000)
  else none

/-- The bytes of `\uxxxx` and what is left: a pair of surrogates is one rune,
and a single one is replaced. -/
def readUnicode (s : Bytes) : Option (Bytes × Bytes) := do
  let (r, rest) ← readHex4 s
  if 0xD800 ≤ r ∧ r < 0xE000 then
    match rest with
    | 92 :: 117 :: next =>
      match (readHex4 next).bind fun p => (decodeSurrogates r p.1).map fun d => (d, p.2) with
      | some (d, rest) => return (encodeRune d, rest)
      | none => return (runeError, rest)
    | _ => return (runeError, rest)
  else return (encodeRune r, rest)

/-- An escape behind its backslash. -/
def readEscape : Bytes → Option (Bytes × Bytes)
  | [] => none
  | e :: rest => if e = 117 then readUnicode rest else (readShort e).map fun c => ([c], rest)

/-- The rest of a string literal behind its opening quote, unquoted, and what
follows the closing quote. -/
def readString : Nat → Bytes → Option (Bytes × Bytes)
  | 0, _ => none
  | _ + 1, [] => none
  | fuel + 1, b :: rest =>
    if b = 34 then some ([], rest)
    else if b = 92 then do
      let (bytes, rest) ← readEscape rest
      let (s, rest) ← readString fuel rest
      return (bytes ++ s, rest)
    else if b < 32 then none
    else
      match decodeRune (b :: rest) with
      | none => do
        let (s, rest) ← readString fuel rest
        return (runeError ++ s, rest)
      | some (_, w) => do
        let (s, rest') ← readString fuel ((b :: rest).drop w)
        return ((b :: rest).take w ++ s, rest')

/-! ## Reading values -/

/-- A JSON value; a number is its literal. -/
inductive Value where
  | null
  | bool (b : Bool)
  | number (literal : Bytes)
  | string (s : Bytes)
  | array (items : List Value)
  | object (members : List (Bytes × Value))

def isSpace (b : UInt8) : Bool := b == 32 || b == 9 || b == 10 || b == 13

def skipSpace (s : Bytes) : Bytes := s.dropWhile isSpace

def isDigit (b : UInt8) : Bool := (digitValue b).isSome

/-- At least one digit. -/
def readDigits (s : Bytes) : Option (Bytes × Bytes) :=
  if (s.takeWhile isDigit).isEmpty then none else some (s.takeWhile isDigit, s.dropWhile isDigit)

/-- The integer part: a zero stands alone. -/
def readInteger (s : Bytes) : Option (Bytes × Bytes) :=
  match s with
  | 48 :: rest => some ([48], rest)
  | s => readDigits s

/-- The fraction, if there is one. -/
def readFraction (s : Bytes) : Option (Bytes × Bytes) :=
  match s with
  | 46 :: rest => (readDigits rest).map fun p => (46 :: p.1, p.2)
  | s => some ([], s)

/-- The exponent, if there is one. -/
def readExponent (s : Bytes) : Option (Bytes × Bytes) :=
  match s with
  | e :: rest =>
    if e = 101 ∨ e = 69 then
      match rest with
      | sign :: digits =>
        if sign = plus ∨ sign = minus then
          (readDigits digits).map fun p => (e :: sign :: p.1, p.2)
        else (readDigits rest).map fun p => (e :: p.1, p.2)
      | [] => none
    else some ([], s)
  | [] => some ([], [])

/-- The literal of a number and what follows it. -/
def readNumber (s : Bytes) : Option (Bytes × Bytes) := do
  let (sign, s) := if s.head? = some minus then ([minus], s.tail) else ([], s)
  let (int, s) ← readInteger s
  let (frac, s) ← readFraction s
  let (exp, s) ← readExponent s
  return (sign ++ int ++ frac ++ exp, s)

/-- A fixed word. -/
def readWord (word : Bytes) (v : Value) (s : Bytes) : Option (Value × Bytes) :=
  if s.take word.length = word then some (v, s.drop word.length) else none

mutual

/-- One value, and what follows it. `depth` is how many levels may still be
opened. -/
def readValue : Nat → Nat → Bytes → Option (Value × Bytes)
  | 0, _, _ => none
  | fuel + 1, depth, s =>
    match s with
    | [] => none
    | b :: rest =>
      if b = 34 then (readString s.length rest).map fun p => (.string p.1, p.2)
      else if b = 123 then
        if depth = 0 then none
        else if (skipSpace rest).head? = some 125 then some (.object [], (skipSpace rest).tail)
        else (readMembers fuel (depth - 1) (skipSpace rest)).map fun p => (.object p.1, p.2)
      else if b = 91 then
        if depth = 0 then none
        else if (skipSpace rest).head? = some 93 then some (.array [], (skipSpace rest).tail)
        else (readItems fuel (depth - 1) (skipSpace rest)).map fun p => (.array p.1, p.2)
      else if b = 110 then readWord (ascii "null") .null s
      else if b = 116 then readWord (ascii "true") (.bool true) s
      else if b = 102 then readWord (ascii "false") (.bool false) s
      else (readNumber s).map fun p => (.number p.1, p.2)

/-- The members of an object from the first name on, with the closing brace. -/
def readMembers : Nat → Nat → Bytes → Option (List (Bytes × Value) × Bytes)
  | 0, _, _ => none
  | fuel + 1, depth, s =>
    match s with
    | 34 :: rest => do
      let (name, s) ← readString s.length rest
      match skipSpace s with
      | 58 :: s => do
        let (v, s) ← readValue fuel depth (skipSpace s)
        match skipSpace s with
        | 44 :: s => do
          let (members, s) ← readMembers fuel depth (skipSpace s)
          return ((name, v) :: members, s)
        | 125 :: s => return ([(name, v)], s)
        | _ => none
      | _ => none
    | _ => none

/-- The items of an array from the first on, with the closing bracket. -/
def readItems : Nat → Nat → Bytes → Option (List Value × Bytes)
  | 0, _, _ => none
  | fuel + 1, depth, s => do
    let (v, s) ← readValue fuel depth s
    match skipSpace s with
    | 44 :: s => do
      let (items, s) ← readItems fuel depth (skipSpace s)
      return (v :: items, s)
    | 93 :: s => return ([v], s)
    | _ => none

end

/-- `maxNestingDepth`. -/
def maxNestingDepth : Nat := 10000

/-- `checkValid` and the value it has checked: one value with space around it. -/
def read (s : Bytes) : Option Value :=
  (readValue (2 * s.length + 1) maxNestingDepth (skipSpace s)).bind fun p =>
    if (skipSpace p.2).isEmpty then some p.1 else none

/-! ## Strings are read back -/

/-- Reading the piece gives the bytes, whatever follows. -/
def Piece (piece bytes : Bytes) : Prop :=
  ∀ fuel t, readString (fuel + 1) (piece ++ t) =
    (readString fuel t).map fun p => (bytes ++ p.1, p.2)

theorem hexValue_hexDigit : ∀ n < 16, hexValue (hexDigit n) = some n := by decide

theorem readHex4_digits {r : Nat} (hr : r < 65536) (t : Bytes) :
    readHex4 (hexDigit (r / 4096) :: hexDigit (r / 256 % 16) :: hexDigit (r / 16 % 16) ::
      hexDigit (r % 16) :: t) = some (r, t) := by
  rw [readHex4, hexValue_hexDigit _ (by omega), hexValue_hexDigit _ (by omega),
    hexValue_hexDigit _ (by omega), hexValue_hexDigit _ (by omega)]
  show some (((r / 4096 * 16 + r / 256 % 16) * 16 + r / 16 % 16) * 16 + r % 16, t) = some (r, t)
  congr 2
  omega

theorem piece_escape {e : UInt8} {digits bytes : Bytes}
    (h : ∀ t, readEscape (e :: (digits ++ t)) = some (bytes, t)) :
    Piece (92 :: e :: digits) bytes := by
  intro fuel t
  show readString (fuel + 1) (92 :: e :: (digits ++ t)) = _
  rw [readString, if_neg (by decide), if_pos rfl, h]
  show ((readString fuel t).bind fun p => some (bytes ++ p.1, p.2)) = _
  cases readString fuel t <;> rfl

theorem piece_unicodeEscape {r : Nat} (hr : r < 65536) (hs : ¬ (0xD800 ≤ r ∧ r < 0xE000)) :
    Piece (unicodeEscape r) (encodeRune r) := by
  refine piece_escape fun t => ?_
  show readUnicode (hexDigit (r / 4096) :: hexDigit (r / 256 % 16) :: hexDigit (r / 16 % 16) ::
    hexDigit (r % 16) :: t) = _
  unfold readUnicode
  rw [readHex4_digits hr]
  show (if 0xD800 ≤ r ∧ r < 0xE000 then _ else some (encodeRune r, t)) = _
  rw [if_neg hs]

/-- The escapes that are written are read. -/
theorem readEscape_short {b e : UInt8} (h : shortEscapes.lookup b = some e) (t : Bytes) :
    readEscape (e :: t) = some ([b], t) := by
  -- none of the short escapes is the `u` of the long one
  have hall : shortEscapes.all (fun p => readShort p.2 == some p.1 && p.2 != 117) = true := by
    decide
  have hmem : (b, e) ∈ shortEscapes := by
    obtain ⟨l₁, l₂, heq, _⟩ := List.lookup_eq_some_iff.mp h
    rw [heq]
    exact List.mem_append_right _ List.mem_cons_self
  have hpair := List.all_eq_true.mp hall _ hmem
  simp only [Bool.and_eq_true, beq_iff_eq, bne_iff_ne] at hpair
  obtain ⟨hshort, hne⟩ := hpair
  rw [readEscape, if_neg hne, hshort]
  rfl

theorem piece_quoteAscii {b : UInt8} (hb : b < 0x80) : Piece (quoteAscii b) [b] := by
  unfold quoteAscii
  cases hlook : shortEscapes.lookup b with
  | some e => exact piece_escape (readEscape_short hlook)
  | none =>
      by_cases hesc : b < 32 ∨ b = 60 ∨ b = 62 ∨ b = 38
      · have hlt : b.toNat < 128 := UInt8.lt_iff_toNat_lt.mp hb
        have hpiece := piece_unicodeEscape (r := b.toNat) (by omega) (by omega)
        rw [encodeRune, if_pos hlt, UInt8.ofNat_toNat] at hpiece
        simp only [if_pos hesc]
        exact hpiece
      · -- a quote or a backslash would have had a short escape
        simp only [if_neg hesc]
        intro fuel t
        have hquote : b ≠ 34 := by
          rintro rfl
          cases hlook
        have hslash : b ≠ 92 := by
          rintro rfl
          cases hlook
        show readString (fuel + 1) (b :: t) = _
        rw [readString, if_neg hquote, if_neg hslash, if_neg fun h => hesc (.inl h),
          decodeRune_ascii hb]
        show ((readString fuel t).bind fun p => some ([b] ++ p.1, p.2)) = _
        cases readString fuel t <;> rfl

/-- A rune of several bytes is written as it is. -/
theorem piece_rune {b : UInt8} {rest : Bytes} {r w : Nat} (hb : ¬ b < 0x80)
    (h : decodeRune (b :: rest) = some (r, w)) :
    Piece ((b :: rest).take w) ((b :: rest).take w) := by
  intro fuel t
  have hw := decodeRune_width h
  have hcut : (b :: rest).take w ++ t = b :: (rest.take (w - 1) ++ t) := by
    rw [← Nat.sub_add_cancel hw]
    rfl
  have hdec := decodeRune_take h t
  have hlen := take_width_length h
  rw [hcut] at hdec ⊢
  have hge : 128 ≤ b.toNat := Nat.le_of_not_lt fun hlt => hb (UInt8.lt_iff_toNat_lt.mpr hlt)
  have hne : ∀ c : UInt8, c.toNat < 128 → b ≠ c := by
    rintro c hc rfl
    omega
  rw [readString, if_neg (hne 34 (by decide)), if_neg (hne 92 (by decide)),
    if_neg fun hlt => hb (UInt8.lt_trans hlt (by decide)), hdec]
  show ((readString fuel ((b :: (rest.take (w - 1) ++ t)).drop w)).bind fun p =>
    some ((b :: (rest.take (w - 1) ++ t)).take w ++ p.1, p.2)) = _
  rw [← hcut, List.drop_left' hlen, List.take_left' hlen]
  cases readString fuel t <;> rfl

theorem piece_length {piece bytes : Bytes} (hne : piece ≠ []) (hpiece : Piece piece bytes)
    {fuel : Nat} {text t : Bytes} {res : Bytes × Bytes} (hfuel : (piece ++ text).length < fuel)
    (ih : ∀ fuel, text.length < fuel → readString fuel (text ++ 34 :: t) = some res) :
    readString fuel ((piece ++ text) ++ 34 :: t) = some (bytes ++ res.1, res.2) := by
  have hpos : 0 < piece.length := List.length_pos_iff.mpr hne
  rw [List.length_append] at hfuel
  obtain ⟨fuel, rfl⟩ : ∃ n, fuel = n + 1 := ⟨fuel - 1, by omega⟩
  rw [List.append_assoc, hpiece, ih fuel (by omega)]
  rfl

theorem quoteAscii_ne_nil (b : UInt8) : quoteAscii b ≠ [] := by
  unfold quoteAscii unicodeEscape
  split
  · exact List.cons_ne_nil _ _
  · split <;> exact List.cons_ne_nil _ _

theorem readString_quoteAux (n : Nat) (s t : Bytes) :
    ∀ fuel, (quoteAux n s).length < fuel →
      readString fuel (quoteAux n s ++ 34 :: t) = some (toValidAux n s, t) := by
  have hend : ∀ fuel, 0 < fuel → readString fuel (34 :: t) = some ([], t) := by
    intro fuel hfuel
    obtain ⟨fuel, rfl⟩ : ∃ n, fuel = n + 1 := ⟨fuel - 1, by omega⟩
    rfl
  induction n generalizing s with
  | zero =>
      intro fuel hfuel
      exact hend fuel hfuel
  | succ n ih =>
      cases s with
      | nil =>
          intro fuel hfuel
          exact hend fuel hfuel
      | cons b rest =>
          intro fuel hfuel
          unfold quoteAux at hfuel ⊢
          unfold toValidAux
          by_cases hb : b < 0x80
          · rw [if_pos hb] at hfuel ⊢
            rw [decodeRune_ascii hb]
            exact piece_length (quoteAscii_ne_nil b) (piece_quoteAscii hb) hfuel (ih rest)
          · rw [if_neg hb] at hfuel ⊢
            cases hd : decodeRune (b :: rest) with
            | none =>
                -- a byte that starts no rune is written as the escape of U+FFFD
                simp only [hd] at hfuel ⊢
                exact piece_length (List.cons_ne_nil _ _)
                  (piece_unicodeEscape (r := 0xFFFD) (by decide) (by decide)) hfuel (ih rest)
            | some p =>
                obtain ⟨r, w⟩ := p
                simp only [hd] at hfuel ⊢
                by_cases hsep : r = 0x2028 ∨ r = 0x2029
                · -- the two line separators are escaped, and the escape is their rune
                  rw [if_pos hsep] at hfuel ⊢
                  rw [← encodeRune_decodeRune hd]
                  exact piece_length (List.cons_ne_nil _ _)
                    (piece_unicodeEscape (by omega) (by omega)) hfuel (ih _)
                · rw [if_neg hsep] at hfuel ⊢
                  have hne : (b :: rest).take w ≠ [] := by
                    intro hnil
                    have hlen := take_width_length hd
                    rw [hnil] at hlen
                    have := decodeRune_width hd
                    simp at hlen
                    omega
                  exact piece_length hne (piece_rune hb hd) hfuel (ih _)

/-- A quoted string reads back as its valid form. -/
theorem readString_quote (s t : Bytes) {fuel : Nat} (hfuel : (quoteAux s.length s).length < fuel) :
    readString fuel (quoteAux s.length s ++ 34 :: t) = some (toValidUTF8 s, t) :=
  readString_quoteAux s.length s t fuel hfuel

/-- Text of characters that need no escape is only put in quotes. -/
theorem quote_plain {s : Bytes} (h : ∀ b ∈ s, b < 0x80 ∧ quoteAscii b = [b]) :
    quote s = 34 :: (s ++ [34]) := by
  have haux : ∀ n, s.length ≤ n → quoteAux n s = s := by
    induction s with
    | nil =>
        intro n _
        cases n <;> rfl
    | cons b rest ih =>
        intro n hn
        obtain ⟨n, rfl⟩ : ∃ m, n = m + 1 := ⟨n - 1, by simp at hn; omega⟩
        obtain ⟨hb, hself⟩ := h b List.mem_cons_self
        rw [quoteAux, if_pos hb, hself,
          ih (fun x hx => h x (List.mem_cons_of_mem _ hx)) n (Nat.le_of_succ_le_succ hn)]
        rfl
  rw [quote, haux s.length (Nat.le_refl _)]

/-! ## Values are read back -/

/-- The text of a member's value: read as `v` in front of what can follow it
in an object. -/
structure ReadsAs (text : Bytes) (v : Value) : Prop where
  unspaced : ∃ b rest, text = b :: rest ∧ isSpace b = false
  reads : ∀ fuel depth b t, b = 44 ∨ b = 125 →
    readValue (fuel + 1) depth (text ++ b :: t) = some (v, b :: t)

theorem skipSpace_cons {b : UInt8} (h : isSpace b = false) (t : Bytes) :
    skipSpace (b :: t) = b :: t := by
  rw [skipSpace, List.dropWhile_cons, h]
  rfl

theorem ReadsAs.skipSpace_eq {text : Bytes} {v : Value} (h : ReadsAs text v) (t : Bytes) :
    skipSpace (text ++ t) = text ++ t := by
  obtain ⟨b, rest, rfl, hb⟩ := h.unspaced
  exact skipSpace_cons hb _

theorem readsAs_quote (s : Bytes) : ReadsAs (quote s) (.string (toValidUTF8 s)) := by
  refine ⟨⟨34, _, rfl, by decide⟩, fun fuel depth b t _ => ?_⟩
  show readValue (fuel + 1) depth (34 :: ((quoteAux s.length s ++ [34]) ++ b :: t)) = _
  rw [List.append_assoc, readValue, if_pos rfl]
  show (readString _ (quoteAux s.length s ++ 34 :: b :: t)).map _ = _
  rw [readString_quote]
  · rfl
  · simp only [List.length_cons, List.length_append]
    omega

theorem readsAs_null : ReadsAs (ascii "null") .null := by
  refine ⟨⟨110, _, rfl, by decide⟩, fun fuel depth b t _ => ?_⟩
  show readValue (fuel + 1) depth (110 :: 117 :: 108 :: 108 :: b :: t) = _
  rw [readValue]
  rfl

/-! ### Integers -/

theorem isDigit_formatUint {n : Nat} : ∀ b ∈ formatUint n, isDigit b = true := by
  intro b hb
  rw [isDigit, digitValue, if_pos (digits_formatUint hb)]
  rfl

/-- Only zero starts with a zero. -/
theorem formatUint_cons {n : Nat} (hn : n ≠ 0) :
    ∃ d rest, formatUint n = digitByte d :: rest ∧ 0 < d ∧ d < 10 := by
  have hdigits : Nat.digits 10 n ≠ [] := Nat.digits_ne_nil_iff_ne_zero.mpr hn
  have hlast := Nat.getLast_digit_ne_zero 10 hn
  have hlt : (Nat.digits 10 n).getLast hdigits < 10 :=
    Nat.digits_lt_base (by decide) (List.getLast_mem hdigits)
  refine ⟨(Nat.digits 10 n).getLast hdigits, ((Nat.digits 10 n).dropLast.reverse).map digitByte,
    ?_, Nat.pos_of_ne_zero hlast, hlt⟩
  rw [formatUint, if_neg hn]
  nth_rewrite 1 [← List.dropLast_append_getLast hdigits]
  rw [List.reverse_append]
  rfl

theorem readDigits_append {x : Bytes} (hne : x ≠ []) (hx : ∀ b ∈ x, isDigit b = true) {b : UInt8}
    (hb : isDigit b = false) (t : Bytes) : readDigits (x ++ b :: t) = some (x, b :: t) := by
  have htake : (x ++ b :: t).takeWhile isDigit = x := by
    rw [List.takeWhile_append_of_pos hx, List.takeWhile_cons_of_neg (by simp [hb]),
      List.append_nil]
  have hdrop : (x ++ b :: t).dropWhile isDigit = b :: t := by
    rw [List.dropWhile_append_of_pos hx, List.dropWhile_cons_of_neg (by simp [hb])]
  rw [readDigits, htake, hdrop, if_neg (by simp [hne])]

theorem readInteger_formatUint (n : Nat) {b : UInt8} (hb : isDigit b = false) (t : Bytes) :
    readInteger (formatUint n ++ b :: t) = some (formatUint n, b :: t) := by
  by_cases hn : n = 0
  · subst hn
    rfl
  · have hdigits := readDigits_append (formatUint_ne_nil n) isDigit_formatUint hb t
    obtain ⟨d, rest, heq, hpos, hlt⟩ := formatUint_cons hn
    have hzero : ∀ d < 10, 0 < d → digitByte d ≠ 48 := by decide
    rw [heq] at hdigits ⊢
    rw [← hdigits, List.cons_append, readInteger]
    intro rest' hrest
    exact hzero d hlt hpos (List.cons.inj hrest).1

theorem readNumber_formatInt (n : Int) {b : UInt8} (hb : b = 44 ∨ b = 125) (t : Bytes) :
    readNumber (formatInt n ++ b :: t) = some (formatInt n, b :: t) := by
  have hdigit : isDigit b = false := by rcases hb with rfl | rfl <;> decide
  have hrest : readFraction (b :: t) = some ([], b :: t) ∧
      readExponent (b :: t) = some ([], b :: t) := by
    rcases hb with rfl | rfl <;> exact ⟨rfl, rfl⟩
  have hint := readInteger_formatUint n.natAbs hdigit t
  by_cases hneg : n < 0
  · have htext : formatInt n = minus :: formatUint n.natAbs := if_pos hneg
    rw [htext, readNumber]
    simp [hint, hrest.1, hrest.2]
  · have htext : formatInt n = formatUint n.natAbs := if_neg hneg
    have hhead : (formatUint n.natAbs ++ b :: t).head? ≠ some minus := by
      rw [List.head?_append_of_ne_nil _ (formatUint_ne_nil _)]
      exact (formatUint_head _).1
    rw [htext, readNumber, if_neg hhead]
    simp [hint, hrest.1, hrest.2]

theorem formatInt_head (n : Int) :
    ∃ b rest, formatInt n = b :: rest ∧ (b = minus ∨ (48 ≤ b ∧ b ≤ 57)) := by
  unfold formatInt
  split
  · exact ⟨_, _, rfl, .inl rfl⟩
  · obtain ⟨b, rest, heq⟩ := List.exists_cons_of_ne_nil (formatUint_ne_nil n.natAbs)
    exact ⟨b, rest, heq, .inr (digits_formatUint (heq ▸ List.mem_cons_self))⟩

/-- An integer is the literal of a number. -/
theorem readsAs_formatInt (n : Int) : ReadsAs (formatInt n) (.number (formatInt n)) := by
  obtain ⟨c, rest, heq, hc⟩ := formatInt_head n
  have hrange : 45 ≤ c.toNat ∧ c.toNat ≤ 57 := by
    rcases hc with rfl | ⟨hlo, hhi⟩
    · decide
    · exact ⟨Nat.le_trans (by decide) (UInt8.le_iff_toNat_le.mp hlo), UInt8.le_iff_toNat_le.mp hhi⟩
  have hne : ∀ d : UInt8, d.toNat < 45 ∨ 57 < d.toNat → c ≠ d := by
    rintro d hd rfl
    omega
  constructor
  · refine ⟨c, rest, heq, ?_⟩
    simp [isSpace, hne 32 (by decide), hne 9 (by decide), hne 10 (by decide), hne 13 (by decide)]
  · intro fuel depth b t hb
    have hnumber := readNumber_formatInt n hb t
    rw [heq] at hnumber ⊢
    rw [List.cons_append] at hnumber ⊢
    rw [readValue, if_neg (hne 34 (by decide)), if_neg (hne 123 (by decide)),
      if_neg (hne 91 (by decide)), if_neg (hne 110 (by decide)), if_neg (hne 116 (by decide)),
      if_neg (hne 102 (by decide)), hnumber]
    rfl

/-! ## Objects are read back -/

/-- An object with the members' names and texts. -/
def writeMembers : List (Bytes × Bytes) → Bytes
  | [] => []
  | [m] => quote m.1 ++ 58 :: m.2
  | m :: ms => quote m.1 ++ 58 :: (m.2 ++ 44 :: writeMembers ms)

def writeObject (ms : List (Bytes × Bytes)) : Bytes := 123 :: (writeMembers ms ++ [125])

theorem writeMembers_head (m : Bytes × Bytes) (ms : List (Bytes × Bytes)) :
    ∃ rest, writeMembers (m :: ms) = 34 :: rest := by
  cases ms <;> exact ⟨_, rfl⟩

/-- One member, up to the text behind its value. -/
theorem readMembers_member {name text : Bytes} {v : Value} (h : ReadsAs text v) {fuel depth : Nat}
    {b : UInt8} {t : Bytes} (hb : b = 44 ∨ b = 125) :
    readMembers (fuel + 2) depth (quote name ++ 58 :: (text ++ b :: t)) =
      if b = 44 then (readMembers (fuel + 1) depth (skipSpace t)).map fun p =>
        ((toValidUTF8 name, v) :: p.1, p.2)
      else some ([(toValidUTF8 name, v)], t) := by
  -- a comma or a closing brace ends the value, so nothing behind it is skipped
  have hspace : isSpace b = false := by rcases hb with rfl | rfl <;> decide
  show readMembers (fuel + 2) depth
    (34 :: ((quoteAux name.length name ++ [34]) ++ 58 :: (text ++ b :: t))) = _
  rw [List.append_assoc, readMembers]
  show ((readString _ (quoteAux name.length name ++ 34 :: 58 :: (text ++ b :: t))).bind _) = _
  rw [readString_quote]
  · show ((readValue (fuel + 1) depth (skipSpace (text ++ b :: t))).bind _) = _
    rw [h.skipSpace_eq, h.reads fuel depth b t hb]
    simp only [Option.bind_some, skipSpace_cons hspace]
    rcases hb with rfl | rfl
    · rw [if_pos rfl]
      show ((readMembers (fuel + 1) depth (skipSpace t)).bind _) = _
      cases readMembers (fuel + 1) depth (skipSpace t) <;> rfl
    · rfl
  · simp only [List.length_cons, List.length_append]
    omega

/-- The members of an object are read back in order. -/
theorem readMembers_writeMembers {ms : List (Bytes × Bytes)} {vs : List Value} {depth : Nat}
    {t : Bytes} (hne : ms ≠ []) (h : List.Forall₂ (fun m v => ReadsAs m.2 v) ms vs) {fuel : Nat}
    (hfuel : ms.length < fuel) :
    readMembers fuel depth (writeMembers ms ++ 125 :: t) =
      some (List.zipWith (fun m v => (toValidUTF8 m.1, v)) ms vs, t) := by
  induction h generalizing fuel with
  | nil => exact absurd rfl hne
  | @cons m v ms vs hm hms ih =>
      rw [List.length_cons] at hfuel
      obtain ⟨fuel, rfl⟩ : ∃ n, fuel = n + 2 := ⟨fuel - 2, by omega⟩
      cases ms with
      | nil =>
          cases hms
          show readMembers (fuel + 2) depth ((quote m.1 ++ 58 :: m.2) ++ 125 :: t) = _
          rw [List.append_assoc]
          show readMembers (fuel + 2) depth (quote m.1 ++ 58 :: (m.2 ++ 125 :: t)) = _
          rw [readMembers_member hm (.inr rfl)]
          rfl
      | cons m' ms =>
          obtain ⟨rest, hrest⟩ := writeMembers_head m' ms
          have htext : writeMembers (m :: m' :: ms) ++ 125 :: t =
              quote m.1 ++ 58 :: (m.2 ++ 44 :: (writeMembers (m' :: ms) ++ 125 :: t)) := by
            rw [writeMembers]
            · simp only [List.append_assoc, List.cons_append]
            · exact List.cons_ne_nil _ _
          have hskip : skipSpace (writeMembers (m' :: ms) ++ 125 :: t) =
              writeMembers (m' :: ms) ++ 125 :: t := by
            rw [hrest]
            exact skipSpace_cons (by decide) _
          rw [htext, readMembers_member hm (.inl rfl), if_pos rfl, hskip,
            ih (List.cons_ne_nil _ _) (by omega)]
          rfl

theorem length_le_writeMembers (ms : List (Bytes × Bytes)) :
    ms.length ≤ (writeMembers ms).length := by
  induction ms with
  | nil => exact Nat.le_refl 0
  | cons m ms ih =>
      cases ms with
      | nil =>
          rw [writeMembers]
          simp only [List.length_cons, List.length_append, List.length_nil]
          omega
      | cons m' ms =>
          rw [writeMembers]
          · simp only [List.length_cons, List.length_append] at ih ⊢
            omega
          · exact List.cons_ne_nil _ _

/-- **An object is read back**, its names and strings in their valid form. -/
theorem read_writeObject {ms : List (Bytes × Bytes)} {vs : List Value} (hne : ms ≠ [])
    (h : List.Forall₂ (fun m v => ReadsAs m.2 v) ms vs) :
    read (writeObject ms) =
      some (.object (List.zipWith (fun m v => (toValidUTF8 m.1, v)) ms vs)) := by
  obtain ⟨rest, hrest⟩ : ∃ rest, writeMembers ms = 34 :: rest := by
    cases ms with
    | nil => exact absurd rfl hne
    | cons m ms => exact writeMembers_head m ms
  have hskip : skipSpace (writeMembers ms ++ [125]) = writeMembers ms ++ [125] := by
    rw [hrest]
    exact skipSpace_cons (by decide) _
  have hopen : ¬ (writeMembers ms ++ [125]).head? = some 125 := by
    rw [hrest]
    show ¬ some (34 : UInt8) = some 125
    decide
  have hlen := length_le_writeMembers ms
  unfold read writeObject
  rw [skipSpace_cons (by decide), readValue, if_neg (by decide), if_pos rfl,
    if_neg (by decide), hskip, if_neg hopen,
    readMembers_writeMembers hne h (by simp only [List.length_cons, List.length_append]; omega)]
  rfl

end KoraDB.Base.Json
