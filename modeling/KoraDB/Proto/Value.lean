import KoraDB.Base.Utf8
import Mathlib.Data.Rat.Defs

/-!
# Protobuf kinds, names and scalar values

The part of `protoreflect` that is about single values: the eighteen field
kinds, identifiers, and the scalars a field of each kind can hold.
-/

namespace KoraDB.Proto

open KoraDB.Base

/-- `protoreflect.Kind`. -/
inductive Kind
  | bool | enum
  | int32 | sint32 | uint32
  | int64 | sint64 | uint64
  | sfixed32 | fixed32 | float
  | sfixed64 | fixed64 | double
  | string | bytes
  | message | group
  deriving DecidableEq, Repr

/-- `protoreflect.Cardinality`. -/
inductive Cardinality
  | optional | required | repeated
  deriving DecidableEq, Repr

/-! ## Names -/

def isLetter (b : UInt8) : Bool :=
  (0x41 ≤ b && b ≤ 0x5A) || (0x61 ≤ b && b ≤ 0x7A) || b == 0x5F

def isIdentByte (b : UInt8) : Bool := isLetter b || (0x30 ≤ b && b ≤ 0x39)

/-- The compiler's identifiers: a letter or underscore, then letters, digits
and underscores. -/
def isIdent : Bytes → Bool
  | [] => false
  | b :: rest => isLetter b && rest.all isIdentByte

/-- `protoreflect.Name`: a string that is an identifier. -/
structure Ident where
  val : Bytes
  ok : isIdent val = true
  deriving DecidableEq

theorem Ident.val_injective : Function.Injective Ident.val := by
  intro i j h
  cases i
  cases j
  cases h
  rfl

theorem isIdentByte_lt {b : UInt8} (h : isIdentByte b = true) : b < 0x80 := by
  simp only [isIdentByte, isLetter, Bool.or_eq_true, Bool.and_eq_true, decide_eq_true_eq,
    beq_iff_eq, UInt8.le_iff_toNat_le, UInt8.ext_iff] at h
  rw [UInt8.lt_iff_toNat_lt]
  simp only [UInt8.toNat_ofNat] at h ⊢
  omega

theorem Ident.bytes {i : Ident} {b : UInt8} (h : b ∈ i.val) : isIdentByte b = true := by
  obtain ⟨val, ok⟩ := i
  cases val with
  | nil => exact absurd h List.not_mem_nil
  | cons c rest =>
      simp only [isIdent, Bool.and_eq_true, List.all_eq_true] at ok
      rcases List.mem_cons.mp h with hb | hb
      · rw [hb]
        unfold isIdentByte
        rw [ok.1]
        rfl
      · exact ok.2 b hb

/-- Identifiers are ASCII, hence valid UTF-8. -/
theorem Ident.ascii (i : Ident) : ∀ b ∈ i.val, b < 0x80 :=
  fun _ h => isIdentByte_lt (Ident.bytes h)

/-- An identifier holds no byte that is not a letter, digit or underscore. -/
theorem Ident.not_mem {i : Ident} {b : UInt8} (hb : isIdentByte b = false) : b ∉ i.val := by
  intro h
  rw [Ident.bytes h] at hb
  exact absurd hb (by simp)

/-- `FullName.Append`: the name of a declaration inside `parent`. -/
def fullName (parent : Bytes) (name : Ident) : Bytes :=
  if parent = [] then name.val else parent ++ 0x2E :: name.val

theorem fullName_ascii {parent : Bytes} (h : ∀ b ∈ parent, b < 0x80) (name : Ident) :
    ∀ b ∈ fullName parent name, b < 0x80 := by
  intro b hb
  unfold fullName at hb
  split at hb
  · exact name.ascii b hb
  · simp only [List.mem_append, List.mem_cons] at hb
    rcases hb with hb | hb | hb
    · exact h b hb
    · rw [hb]
      decide
    · exact name.ascii b hb

/-! ## Scalars -/

/-- A float or double: the finite values as rationals, the infinities and a
not-a-number. Both zeros are the rational zero; Go compares them equal. -/
inductive GoFloat
  | nan | negInf | fin (q : ℚ) | posInf
  deriving DecidableEq

/-- A scalar `protoreflect.Value`. Signed kinds of either width are one
constructor, as `Value.Int` reads them; likewise unsigned kinds and floats. -/
inductive Scalar
  | bool (b : Bool)
  | int (n : Int)
  | uint (n : Nat)
  | float (f : GoFloat)
  | str (s : Bytes)
  | bytes (s : Bytes)
  | enum (n : Int)
  deriving DecidableEq

namespace Scalar

/-- `Value.Bool`, `Value.Int`, `Value.Uint`, `Value.Float`, `Value.String`.
Go panics on a value of another type; a well-kinded value never is one. -/
def toBool : Scalar → Bool
  | .bool b => b
  | _ => false

@[inherit_doc toBool] def toInt : Scalar → Int
  | .int n => n
  | _ => 0

@[inherit_doc toBool] def toUint : Scalar → Nat
  | .uint n => n
  | _ => 0

@[inherit_doc toBool] def toFloat : Scalar → GoFloat
  | .float f => f
  | _ => .fin 0

@[inherit_doc toBool] def toStr : Scalar → Bytes
  | .str s => s
  | _ => []

/-- The signed range of a word of `bits` bits. -/
def inSigned (bits : Nat) (n : Int) : Bool :=
  decide (-(2 : Int) ^ (bits - 1) ≤ n ∧ n < (2 : Int) ^ (bits - 1))

/-- The values a field of each scalar kind can hold. -/
def hasKind : Kind → Scalar → Bool
  | .bool, .bool _ => true
  | .enum, .enum n => inSigned 32 n
  | .int32, .int n | .sint32, .int n | .sfixed32, .int n => inSigned 32 n
  | .int64, .int n | .sint64, .int n | .sfixed64, .int n => inSigned 64 n
  | .uint32, .uint n | .fixed32, .uint n => decide (n < 2 ^ 32)
  | .uint64, .uint n | .fixed64, .uint n => decide (n < 2 ^ 64)
  | .float, .float _ | .double, .float _ => true
  | .string, .str _ => true
  | .bytes, .bytes _ => true
  | _, _ => false

end Scalar

/-- The kinds whose values are scalars. -/
def Kind.isScalar : Kind → Bool
  | .message | .group => false
  | _ => true

/-- The value an unset field of a kind has when its declaration gives none. -/
def Kind.zero : Kind → Scalar
  | .bool => .bool false
  | .enum => .enum 0
  | .int32 | .sint32 | .sfixed32 | .int64 | .sint64 | .sfixed64 => .int 0
  | .uint32 | .fixed32 | .uint64 | .fixed64 => .uint 0
  | .float | .double => .float (.fin 0)
  | .string => .str []
  | .bytes | .message | .group => .bytes []

theorem Kind.zero_hasKind {kind : Kind} (h : kind.isScalar = true) :
    kind.zero.hasKind kind = true := by
  cases kind <;> first | rfl | exact absurd h (by decide)

end KoraDB.Proto
