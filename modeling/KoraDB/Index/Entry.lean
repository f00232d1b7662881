import KoraDB.Base.Except
import KoraDB.Base.Strconv
import KoraDB.Proto.Message

/-!
# Layer 3: index entries (`internal/index`)

An index on field `f` of collection `c` is the bucket `idx:c:f`. Its keys are
`value 0x00 primary-key` and its values are empty. Values of numeric and
boolean kinds have a fixed width; only string values vary in length, and only
there can a NUL byte make two pairs share an entry (`entryKey_eq_iff`).
-/

namespace KoraDB.Index

open KoraDB.Base KoraDB.Proto

inductive IndexErr
  | unindexable (field : Ident) (kind : Kind)
  deriving DecidableEq

/-- `sep`. -/
def sep : UInt8 := 0x00

def colon : UInt8 := 0x3A

/-- `Bucket`. -/
def bucket (coll field : Bytes) : Bytes := ascii "idx:" ++ (coll ++ colon :: field)

/-- `EntryKey`. -/
def entryKey (encodedValue primaryKey : Bytes) : Bytes := encodedValue ++ sep :: primaryKey

/-- `LookupPrefix`. -/
def lookupPrefix (encodedValue : Bytes) : Bytes := encodedValue ++ [sep]

/-- `PrimaryKeyFromEntry`; empty when the entry is too short. -/
def primaryKeyFromEntry (entry : Bytes) (encodedValueLen : Nat) : Bytes :=
  entry.drop (encodedValueLen + 1)

theorem primaryKeyFromEntry_entryKey (enc k : Bytes) :
    primaryKeyFromEntry (entryKey enc k) enc.length = k := by
  unfold primaryKeyFromEntry entryKey
  rw [List.drop_append]
  simp

theorem isPrefixOf_entryKey_iff {enc e : Bytes} :
    (lookupPrefix enc).isPrefixOf e = true ↔ ∃ k, e = entryKey enc k := by
  rw [List.isPrefixOf_iff_prefix]
  unfold lookupPrefix entryKey
  constructor
  · rintro ⟨k, rfl⟩
    exact ⟨k, by simp⟩
  · rintro ⟨k, rfl⟩
    exact ⟨k, by simp⟩

/-- `EncodeValue`. -/
def encodeValue (fd : FieldDesc) (v : Scalar) : Except IndexErr Bytes :=
  match fd.kind with
  | .string => .ok v.toStr
  | .bool => .ok (if v.toBool then [1] else [0])
  | .uint32 | .uint64 | .fixed32 | .fixed64 => .ok (be64 v.toUint)
  | .int32 | .int64 | .sint32 | .sint64 | .sfixed32 | .sfixed64 =>
    .ok (be64 (toUint64 v.toInt ^^^ 2 ^ 63))
  | kind => .error (.unindexable fd.name kind)

/-- `defaultValue`. Where the source returns the invalid value, `encodeValue`
fails before it reads it. -/
def defaultValue (fd : FieldDesc) : Scalar :=
  match fd.kind with
  | .string => .str []
  | .bool => .bool false
  | .uint32 | .uint64 | .fixed32 | .fixed64 => .uint 0
  | .int32 | .int64 | .sint32 | .sint64 | .sfixed32 | .sfixed64 => .int 0
  | _ => .bytes []

/-- `Indexable`. -/
def indexable (fd : FieldDesc) : Bool :=
  if fd.isList || fd.isMap || fd.kind == .message || fd.kind == .group then false
  else (encodeValue fd (defaultValue fd)).isOk

/-! ## Which values can be encoded -/

/-- Encodings depend on the kind and the value. -/
theorem encodeValue_congr {fd fd' : FieldDesc} (hname : fd'.name = fd.name)
    (hkind : fd'.kind = fd.kind) (v : Scalar) : encodeValue fd' v = encodeValue fd v := by
  unfold encodeValue
  rw [hname, hkind]

theorem indexable_congr {fd fd' : FieldDesc} (hname : fd'.name = fd.name)
    (hkind : fd'.kind = fd.kind) (hcard : fd'.cardinality = fd.cardinality)
    (hmap : fd'.isMap = fd.isMap) : indexable fd' = indexable fd := by
  have hlist : fd'.isList = fd.isList := by
    unfold FieldDesc.isList
    rw [hcard, hmap]
  have hdefault : defaultValue fd' = defaultValue fd := by
    unfold defaultValue
    rw [hkind]
  unfold indexable
  rw [hlist, hmap, hkind, hdefault, encodeValue_congr hname hkind]

/-- Outside strings every value of a kind has the same width. -/
theorem encodeValue_width {fd : FieldDesc} (hk : fd.kind ≠ .string) {v v' : Scalar}
    {enc enc' : Bytes} (h : encodeValue fd v = .ok enc) (h' : encodeValue fd v' = .ok enc') :
    enc.length = enc'.length := by
  unfold encodeValue at h h'
  cases hkind : fd.kind <;> rw [hkind] at h h' <;> simp only [Except.ok.injEq, reduceCtorEq] at h h'
  case string => exact absurd hkind hk
  case bool =>
    rw [← h, ← h']
    cases v.toBool <;> cases v'.toBool <;> rfl
  all_goals
    rw [← h, ← h']
    rfl

/-! ## What an entry says -/

/-- The value `enc'` goes on behind `enc` with a NUL, and the key `k` makes up
for what is missing: the one case in which two pairs share an entry. -/
def Continues (enc k enc' k' : Bytes) : Prop :=
  ∃ rest, enc' = enc ++ sep :: rest ∧ k = rest ++ sep :: k'

theorem entryKey_eq_iff {enc enc' k k' : Bytes} :
    entryKey enc k = entryKey enc' k' ↔
      (enc = enc' ∧ k = k') ∨ Continues enc k enc' k' ∨ Continues enc' k' enc k :=
  cut_iff

/-! ## Bucket names -/

/-- Index buckets of identifier fields are named apart. -/
theorem bucket_inj {c c' : Bytes} {f f' : Ident} (h : bucket c f.val = bucket c' f'.val) :
    c = c' ∧ f = f' := by
  have hcolon : isIdentByte colon = false := by decide
  obtain ⟨hc, hf⟩ := cut_last (Ident.not_mem hcolon) (Ident.not_mem hcolon)
    (List.append_cancel_left h)
  exact ⟨hc, Ident.val_injective hf⟩

end KoraDB.Index
