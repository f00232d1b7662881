import KoraDB.Auth.Keys

/-!
# Roles and the access policy (`auth.ParseRole`, `rbac.go`)

Roles are ordered, and every method of the service has a least role. The table
is by the short name of a method, and a method that is not in it is denied to
everyone.
-/

namespace KoraDB.Auth

open KoraDB.Base KoraDB.Catalog

/-! ## Text -/

/-- `utf8.DecodeLastRune`: the rune that ends the string, and its width. -/
def decodeLastRune (s : Bytes) : Option (Nat × Nat) :=
  [1, 2, 3, 4].findSome? fun w =>
    (decodeRune (s.drop (s.length - w))).filter fun rune => rune.2 == w

def trimLeftAux : Nat → Bytes → Bytes
  | 0, s => s
  | fuel + 1, s =>
    match decodeRune s with
    | some (r, w) => if isSpaceRune r then trimLeftAux fuel (s.drop w) else s
    | none => s

def trimRightAux : Nat → Bytes → Bytes
  | 0, s => s
  | fuel + 1, s =>
    match decodeLastRune s with
    | some (r, w) => if isSpaceRune r then trimRightAux fuel (s.take (s.length - w)) else s
    | none => s

/-- `strings.TrimSpace`; a space takes at least one byte. -/
def trimSpace (s : Bytes) : Bytes := trimRightAux s.length (trimLeftAux s.length s)

/-- `strings.ToLower`, as far as it yields ASCII: besides the capital letters,
the dotted capital I and the Kelvin sign have an ASCII lower case. Other bytes
are kept, where Go may write another rune that is not ASCII either. -/
def toLower : Bytes → Bytes
  | 0xC4 :: 0xB0 :: rest => 0x69 :: toLower rest
  | 0xE2 :: 0x84 :: 0xAA :: rest => 0x6B :: toLower rest
  | b :: rest => (if 65 ≤ b ∧ b ≤ 90 then b + 32 else b) :: toLower rest
  | [] => []

/-! ## Roles -/

/-- `ParseRole`; `none` for an unknown role. -/
def parseRole (s : Bytes) : Option Int :=
  let s := toLower (trimSpace s)
  if s = ascii "readonly" ∨ s = ascii "ro" then some roleReadOnly
  else if s = ascii "readwrite" ∨ s = ascii "rw" then some roleReadWrite
  else if s = ascii "admin" then some roleAdmin
  else none

example : parseRole (ascii " Admin\t") = some roleAdmin := by decide +kernel

/-- `Role.String`. -/
def roleString (role : Int) : Bytes :=
  if role = roleReadOnly then ascii "readonly"
  else if role = roleReadWrite then ascii "readwrite"
  else if role = roleAdmin then ascii "admin"
  else ascii "none"

/-! ## The policy -/

/-- `methodMinRole`. -/
def methodMinRole : List (Bytes × Int) :=
  [(ascii "Get", roleReadOnly), (ascii "Query", roleReadOnly),
    (ascii "ListSchemas", roleReadOnly), (ascii "ListCollections", roleReadOnly),
    (ascii "Insert", roleReadWrite), (ascii "Update", roleReadWrite),
    (ascii "Delete", roleReadWrite),
    (ascii "PutSchema", roleAdmin), (ascii "CreateCollection", roleAdmin),
    (ascii "CreateKey", roleAdmin), (ascii "ListKeys", roleAdmin),
    (ascii "RevokeKey", roleAdmin)]

/-- The text behind the last slash. -/
def shortMethod (full : Bytes) : Bytes := (full.reverse.takeWhile (· != 0x2F)).reverse

/-- `RequiredRole`; `none` for a method that is not in the table. -/
def requiredRole (fullMethod : Bytes) : Option Int := methodMinRole.lookup (shortMethod fullMethod)

/-- `Principal.Can`. -/
def can (p : Option Principal) (fullMethod : Bytes) : Bool :=
  match p with
  | none => false
  | some p =>
    match requiredRole fullMethod with
    | none => false
    | some need => decide (need ≤ p.role)

theorem can_eq_true_iff {p : Principal} {fullMethod : Bytes} :
    can (some p) fullMethod = true ↔
      ∃ need, requiredRole fullMethod = some need ∧ need ≤ p.role := by
  unfold can
  cases requiredRole fullMethod with
  | none => simp
  | some need => simp

end KoraDB.Auth
