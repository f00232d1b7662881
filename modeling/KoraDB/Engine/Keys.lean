import KoraDB.Catalog.Records
import KoraDB.Index.Entry
import KoraDB.Schema.Registry

/-!
# Layer 2: primary keys (`internal/engine`)

A document id is text; the storage key is its value in the key kind of the
collection, encoded. Several ids may denote one value (`7` and `007`, `t` and
`true`), and one value has one storage key. `KeyVal` is the value in between:
`denote` reads an id, `storageKey` encodes, and the two together are the
source's `encodeKey`.
-/

namespace KoraDB.Engine

open KoraDB.Base KoraDB.Proto KoraDB.Catalog KoraDB.Schema

inductive EngineErr
  | schema (e : SchemaErr)
  | collectionNotFound (coll : Bytes)
  | documentNotFound (coll id : Bytes)
  | collectionExists
  | duplicateKey (coll id : Bytes)
  | keyFieldMissing (field message : Bytes)
  | keyFieldNotScalar (field : Bytes) (kind : Kind)
  | keyFieldUnsupported (field : Bytes) (kind : Kind)
  | indexFieldMissing (field message : Bytes)
  | indexFieldUnindexable (field : Bytes) (kind : Kind)
  | corruptRecord
  | invalidDocument (message : Bytes) (text : Bytes)
  | decode
  | marshal
  | render (text : Bytes)
  | invalidAutoID (id : Bytes)
  | invalidSignedKey (id : Bytes)
  | invalidUnsignedKey (id : Bytes)
  | invalidBoolKey (id : Bytes)
  | invalidKeyLength (length : Nat)
  | notAKeyKind (kind : Kind)
  | immutableKey (coll id field : Bytes)
  | indexedFieldGone (field : Bytes)
  | fieldMissing (field : Bytes)
  | badLiteral (literal type : Bytes)
  | notComparable (kind : Kind)
  | index (e : Index.IndexErr)
  | storage (e : Storage.StoreErr)
  deriving DecidableEq

/-- `errors.Is(err, ErrNotFound)`. -/
def EngineErr.isNotFound : EngineErr → Bool
  | .collectionNotFound _ | .documentNotFound _ _ => true
  | _ => false

/-- `errors.Is(err, ErrDuplicateKey)`. -/
def EngineErr.isDuplicateKey : EngineErr → Bool
  | .duplicateKey _ _ => true
  | _ => false

/-- `primaryKeyKindSupported`. -/
def primaryKeyKindSupported : Kind → Bool
  | .string | .bool | .int32 | .int64 | .sint32 | .sint64 | .sfixed32 | .sfixed64
  | .uint32 | .uint64 | .fixed32 | .fixed64 => true
  | _ => false

/-- `primaryKeyBitSize`. -/
def primaryKeyBitSize : Kind → Nat
  | .int32 | .sint32 | .sfixed32 | .uint32 | .fixed32 => 32
  | _ => 64

/-- `idStringFromValue`. -/
def idStringFromValue (fd : FieldDesc) (v : Scalar) : Except EngineErr Bytes :=
  match fd.kind with
  | .string => .ok v.toStr
  | .bool => .ok (formatBool v.toBool)
  | .int32 | .int64 | .sint32 | .sint64 | .sfixed32 | .sfixed64 => .ok (formatInt v.toInt)
  | .uint32 | .uint64 | .fixed32 | .fixed64 => .ok (formatUint v.toUint)
  | kind => .error (.notAKeyKind kind)

/-- The key field of a collection, as `encodeKey` and `IDFromStorageKey` look
it up. -/
def keyFieldOf (fs : Files) (cm : CollectionMeta) : Except EngineErr FieldDesc := do
  let md ← wrap (messageDescriptor fs cm.messageType) .schema
  orErr (md.byName cm.keyField) (.keyFieldMissing cm.keyField cm.messageType)

/-- The switch on the key field's kind in `encodeKey`. -/
def encodeFieldKey (fd : FieldDesc) (keyField id : Bytes) : Except EngineErr Bytes :=
  match fd.kind with
  | .int32 | .int64 | .sint32 | .sint64 | .sfixed32 | .sfixed64 => do
    let n ← orErr (parseInt (primaryKeyBitSize fd.kind) id) (.invalidSignedKey id)
    return be64 (toUint64 n)
  | .uint32 | .uint64 | .fixed32 | .fixed64 => do
    let n ← orErr (parseUint (primaryKeyBitSize fd.kind) id) (.invalidUnsignedKey id)
    return be64 n
  | .bool => do
    let v ← orErr (parseBool id) (.invalidBoolKey id)
    return formatBool v
  | .string => .ok id
  | kind => .error (.keyFieldUnsupported keyField kind)

/-- `encodeKey`. -/
def encodeKey (fs : Files) (cm : CollectionMeta) (id : Bytes) : Except EngineErr Bytes :=
  match cm.keyKind with
  | .auto => do
    let n ← orErr (parseUint 64 id) (.invalidAutoID id)
    return be64 n
  | .field => do
    let fd ← keyFieldOf fs cm
    encodeFieldKey fd cm.keyField id

/-- The signed value of a `uint64` word. -/
def ofUint64 (n : Nat) : Int := if n < 2 ^ 63 then n else n - 2 ^ 64

/-- The switch on the key field's kind in `IDFromStorageKey`. -/
def idFromFieldKey (fd : FieldDesc) (keyField key : Bytes) : Except EngineErr Bytes :=
  match fd.kind with
  | .int32 | .int64 | .sint32 | .sint64 | .sfixed32 | .sfixed64 => do
    reject (key.length != 8) (.invalidKeyLength key.length)
    return formatInt (ofUint64 (ofBe key))
  | .uint32 | .uint64 | .fixed32 | .fixed64 => do
    reject (key.length != 8) (.invalidKeyLength key.length)
    return formatUint (ofBe key)
  | .bool | .string => .ok key
  | kind => .error (.keyFieldUnsupported keyField kind)

/-- `IDFromStorageKey`. -/
def idFromStorageKey (fs : Files) (cm : CollectionMeta) (key : Bytes) : Except EngineErr Bytes :=
  match cm.keyKind with
  | .auto => do
    reject (key.length != 8) (.invalidKeyLength key.length)
    return formatUint (ofBe key)
  | .field => do
    let fd ← keyFieldOf fs cm
    idFromFieldKey fd cm.keyField key

theorem idFromStorageKey_auto {fs : Files} {cm : CollectionMeta} (hauto : cm.keyKind = .auto)
    {n : Nat} (hn : n < 2 ^ 64) : idFromStorageKey fs cm (be64 n) = .ok (formatUint n) := by
  unfold idFromStorageKey
  rw [hauto]
  simp [reject, ofBe_be64 hn]

/-- A rendered id determines the storage key it was rendered from. -/
theorem idFromFieldKey_inj {fd : FieldDesc} {keyField k k' id : Bytes}
    (h : idFromFieldKey fd keyField k = .ok id) (h' : idFromFieldKey fd keyField k' = .ok id) :
    k = k' := by
  unfold idFromFieldKey at h h'
  cases hk : fd.kind <;> rw [hk] at h h' <;>
    simp only [bind_eq_ok_iff, reject_eq_ok_iff, bne_eq_false_iff_eq, pure, Except.pure,
      Except.ok.injEq, reduceCtorEq] at h h'
  case bool | string => rw [h, h']
  case int32 | int64 | sint32 | sint64 | sfixed32 | sfixed64 =>
    obtain ⟨_, hlen, h⟩ := h
    obtain ⟨_, hlen', h'⟩ := h'
    have hval := formatInt_inj (h.trans h'.symm)
    refine ofBe_inj (hlen.trans hlen'.symm) ?_
    have hlt := ofBe_lt hlen
    have hlt' := ofBe_lt hlen'
    unfold ofUint64 at hval
    split at hval <;> split at hval <;> omega
  all_goals
    obtain ⟨_, hlen, h⟩ := h
    obtain ⟨_, hlen', h'⟩ := h'
    exact ofBe_inj (hlen.trans hlen'.symm) (formatUint_inj (h.trans h'.symm))

theorem idFromStorageKey_inj {fs : Files} {cm : CollectionMeta} {k k' id : Bytes}
    (h : idFromStorageKey fs cm k = .ok id) (h' : idFromStorageKey fs cm k' = .ok id) : k = k' := by
  unfold idFromStorageKey at h h'
  cases hk : cm.keyKind with
  | auto =>
      rw [hk] at h h'
      simp only [bind_eq_ok_iff, reject_eq_ok_iff, bne_eq_false_iff_eq, pure, Except.pure,
        Except.ok.injEq] at h h'
      obtain ⟨_, hlen, h⟩ := h
      obtain ⟨_, hlen', h'⟩ := h'
      exact ofBe_inj (hlen.trans hlen'.symm) (formatUint_inj (h.trans h'.symm))
  | field =>
      rw [hk] at h h'
      obtain ⟨fd, hfd, h⟩ := bind_eq_ok_iff.mp h
      obtain ⟨fd', hfd', h'⟩ := bind_eq_ok_iff.mp h'
      rw [hfd] at hfd'
      cases hfd'
      exact idFromFieldKey_inj h h'

/-! ## Key values -/

/-- The value of a primary key. -/
inductive KeyVal
  | int (n : Int)
  | bool (b : Bool)
  | str (s : Bytes)
  deriving DecidableEq

namespace KeyVal

/-- The one storage key of a value. -/
def storageKey : KeyVal → Bytes
  | .int n => be64 (toUint64 n)
  | .bool b => formatBool b
  | .str s => s

/-- The value a scalar field holds. -/
def ofScalar : Scalar → KeyVal
  | .bool b => .bool b
  | .int n => .int n
  | .uint n => .int n
  | .str s => .str s
  | _ => .str []

/-- The values of a key kind. -/
def hasKind : Kind → KeyVal → Prop
  | .int32, .int n | .sint32, .int n | .sfixed32, .int n => -2 ^ 31 ≤ n ∧ n < 2 ^ 31
  | .int64, .int n | .sint64, .int n | .sfixed64, .int n => -2 ^ 63 ≤ n ∧ n < 2 ^ 63
  | .uint32, .int n | .fixed32, .int n => 0 ≤ n ∧ n < 2 ^ 32
  | .uint64, .int n | .fixed64, .int n => 0 ≤ n ∧ n < 2 ^ 64
  | .bool, .bool _ => True
  | .string, .str _ => True
  | _, _ => False

/-- The value an id denotes in a key kind. -/
def denote (kind : Kind) (id : Bytes) : Option KeyVal :=
  match kind with
  | .int32 | .int64 | .sint32 | .sint64 | .sfixed32 | .sfixed64 =>
    (parseInt (primaryKeyBitSize kind) id).map .int
  | .uint32 | .uint64 | .fixed32 | .fixed64 =>
    (parseUint (primaryKeyBitSize kind) id).map fun n : Nat => KeyVal.int n
  | .bool => (parseBool id).map .bool
  | .string => some (.str id)
  | _ => none

theorem denote_hasKind {kind : Kind} {id : Bytes} {v : KeyVal} (h : denote kind id = some v) :
    v.hasKind kind := by
  unfold denote at h
  cases kind <;>
    simp only [primaryKeyBitSize, Option.map_eq_some_iff, Option.some.injEq, reduceCtorEq] at h
  case bool =>
    obtain ⟨b, _, rfl⟩ := h
    trivial
  case string =>
    subst h
    trivial
  case int32 | sint32 | sfixed32 | int64 | sint64 | sfixed64 =>
    obtain ⟨n, hn, rfl⟩ := h
    exact parseInt_range hn
  all_goals
    obtain ⟨n, hn, rfl⟩ := h
    have hlt := parseUint_lt hn
    show (0 : Int) ≤ n ∧ (n : Int) < _
    omega

/-- Values of one kind have distinct storage keys. -/
theorem storageKey_inj {kind : Kind} {v v' : KeyVal} (hv : v.hasKind kind) (hv' : v'.hasKind kind)
    (h : v.storageKey = v'.storageKey) : v = v' := by
  have hsigned : ∀ m n : Int, -2 ^ 63 ≤ m ∧ m < 2 ^ 63 → -2 ^ 63 ≤ n ∧ n < 2 ^ 63 →
      be64 (toUint64 m) = be64 (toUint64 n) → m = n := fun m n hm hn heq =>
    toUint64_inj hm hn (be64_inj (toUint64_lt m) (toUint64_lt n) heq)
  have hunsigned : ∀ m n : Int, 0 ≤ m ∧ m < 2 ^ 64 → 0 ≤ n ∧ n < 2 ^ 64 →
      be64 (toUint64 m) = be64 (toUint64 n) → m = n := by
    intro m n hm hn heq
    have := be64_inj (toUint64_lt m) (toUint64_lt n) heq
    unfold toUint64 at this
    omega
  cases kind <;> cases v <;> cases v' <;> simp only [hasKind] at hv hv'
  case bool => exact congrArg KeyVal.bool (formatBool_injective h)
  case string => exact congrArg KeyVal.str h
  case int32 m n | sint32 m n | sfixed32 m n | int64 m n | sint64 m n | sfixed64 m n =>
    exact congrArg KeyVal.int (hsigned m n (by omega) (by omega) h)
  all_goals
    rename_i m n
    exact congrArg KeyVal.int (hunsigned m n (by omega) (by omega) h)

end KeyVal

/-! ## `encodeKey` is `denote`, encoded -/

theorem encodeFieldKey_eq_ok_iff {fd : FieldDesc} {keyField id k : Bytes} :
    encodeFieldKey fd keyField id = .ok k ↔
      ∃ v, KeyVal.denote fd.kind id = some v ∧ k = v.storageKey := by
  unfold encodeFieldKey KeyVal.denote
  cases hk : fd.kind <;>
    simp only [bind_eq_ok_iff, orErr_eq_ok_iff, pure, Except.pure, Except.ok.injEq,
      Option.map_eq_some_iff, reduceCtorEq, false_and, exists_false, Option.some.injEq]
  case bool =>
    constructor
    · intro h
      obtain ⟨b, hb, rfl⟩ := h
      exact ⟨_, ⟨b, hb, rfl⟩, rfl⟩
    · intro h
      obtain ⟨_, ⟨b, hb, rfl⟩, rfl⟩ := h
      exact ⟨b, hb, rfl⟩
  case string =>
    constructor
    · intro h
      exact ⟨_, rfl, h.symm⟩
    · intro h
      obtain ⟨_, rfl, rfl⟩ := h
      rfl
  case int32 | sint32 | sfixed32 | int64 | sint64 | sfixed64 =>
    constructor
    · intro h
      obtain ⟨n, hn, rfl⟩ := h
      exact ⟨_, ⟨n, hn, rfl⟩, rfl⟩
    · intro h
      obtain ⟨_, ⟨n, hn, rfl⟩, rfl⟩ := h
      exact ⟨n, hn, rfl⟩
  all_goals
    have hword : ∀ n : Nat, n < 2 ^ 64 → (KeyVal.int n).storageKey = be64 n := by
      intro n hn
      show be64 (toUint64 n) = be64 n
      rw [toUint64_natCast hn]
    constructor
    · intro h
      obtain ⟨n, hn, rfl⟩ := h
      have hlt := parseUint_lt hn
      simp only [primaryKeyBitSize] at hlt
      exact ⟨_, ⟨n, hn, rfl⟩, (hword n (by omega)).symm⟩
    · intro h
      obtain ⟨_, ⟨n, hn, rfl⟩, rfl⟩ := h
      have hlt := parseUint_lt hn
      simp only [primaryKeyBitSize] at hlt
      exact ⟨n, hn, (hword n (by omega)).symm⟩

/-- The kind of a collection's keys: automatic ids are `uint64` numbers. -/
def keyKindOf (md : MessageDesc) (cm : CollectionMeta) : Option Kind :=
  match cm.keyKind with
  | .auto => some .uint64
  | .field => (md.byName cm.keyField).map (·.kind)

/-- The same under the active descriptors. -/
def keyKindIn (fs : Files) (cm : CollectionMeta) : Option Kind :=
  match cm.keyKind with
  | .auto => some .uint64
  | .field => (keyFieldOf fs cm).toOption.map (·.kind)

theorem keyKindIn_field {fs : Files} {cm : CollectionMeta} (hfield : cm.keyKind = .field)
    {kind : Kind} :
    keyKindIn fs cm = some kind ↔ ∃ fd, keyFieldOf fs cm = .ok fd ∧ fd.kind = kind := by
  unfold keyKindIn
  rw [hfield]
  cases keyFieldOf fs cm with
  | error e => simp [Except.toOption]
  | ok fd => simp [Except.toOption]

theorem keyKindIn_eq {fs : Files} {cm : CollectionMeta} {md : MessageDesc}
    (hmd : fs.findMessage cm.messageType = some md) : keyKindIn fs cm = keyKindOf md cm := by
  unfold keyKindIn keyKindOf keyFieldOf
  rw [messageDescriptor_eq_ok_iff.mpr hmd, wrap_ok, ok_bind]
  cases cm.keyKind with
  | auto => rfl
  | field =>
      cases md.byName cm.keyField with
      | none => rfl
      | some fd => rfl

theorem encodeKey_iff {fs : Files} {cm : CollectionMeta} {id k : Bytes} :
    encodeKey fs cm id = .ok k ↔
      ∃ kind v, keyKindIn fs cm = some kind ∧ KeyVal.denote kind id = some v ∧
        k = v.storageKey := by
  unfold encodeKey
  cases hk : cm.keyKind with
  | auto =>
      have hkind : keyKindIn fs cm = some .uint64 := by
        unfold keyKindIn
        rw [hk]
      simp only [hkind, bind_eq_ok_iff, orErr_eq_ok_iff, pure, Except.pure, Except.ok.injEq,
        Option.some.injEq, exists_and_left, exists_eq_left', KeyVal.denote, primaryKeyBitSize,
        Option.map_eq_some_iff]
      constructor
      · intro h
        obtain ⟨n, hn, rfl⟩ := h
        refine ⟨_, ⟨n, hn, rfl⟩, ?_⟩
        show be64 n = be64 (toUint64 n)
        rw [toUint64_natCast (parseUint_lt hn)]
      · intro h
        obtain ⟨_, ⟨n, hn, rfl⟩, rfl⟩ := h
        refine ⟨n, hn, ?_⟩
        show be64 n = be64 (toUint64 n)
        rw [toUint64_natCast (parseUint_lt hn)]
  | field =>
      simp only [keyKindIn_field hk, bind_eq_ok_iff, encodeFieldKey_eq_ok_iff]
      constructor
      · intro h
        obtain ⟨fd, hfd, v, hv, rfl⟩ := h
        exact ⟨fd.kind, v, ⟨fd, hfd, rfl⟩, hv, rfl⟩
      · intro h
        obtain ⟨_, v, ⟨fd, hfd, rfl⟩, hv, rfl⟩ := h
        exact ⟨fd, hfd, v, hv, rfl⟩

/-- `encodeKey` on a collection whose message type resolves. -/
theorem encodeKey_eq_ok_iff {fs : Files} {cm : CollectionMeta} {md : MessageDesc}
    (hmd : fs.findMessage cm.messageType = some md) {id k : Bytes} :
    encodeKey fs cm id = .ok k ↔
      ∃ kind v, keyKindOf md cm = some kind ∧ KeyVal.denote kind id = some v ∧
        k = v.storageKey := by
  rw [encodeKey_iff, keyKindIn_eq hmd]

/-- The id printed for a field's value denotes that value. -/
theorem denote_idString {fd : FieldDesc} {v : Scalar} (hv : v.hasKind fd.kind = true)
    {id : Bytes} (h : idStringFromValue fd v = .ok id) :
    KeyVal.denote fd.kind id = some (KeyVal.ofScalar v) := by
  unfold idStringFromValue at h
  cases hk : fd.kind <;> rw [hk] at h hv <;>
    simp only [Except.ok.injEq, reduceCtorEq] at h <;> subst h <;>
    cases v <;> simp only [Scalar.hasKind, Bool.false_eq_true, decide_eq_true_eq,
      Scalar.inSigned] at hv
  case bool => simp [KeyVal.denote, parseBool_formatBool, Scalar.toBool, KeyVal.ofScalar]
  case string => rfl
  case int32 n | sint32 n | sfixed32 n =>
    simp only [KeyVal.denote, primaryKeyBitSize, Scalar.toInt, KeyVal.ofScalar]
    rw [parseInt_formatInt (by decide) hv.1 hv.2]
    rfl
  case int64 n | sint64 n | sfixed64 n =>
    simp only [KeyVal.denote, primaryKeyBitSize, Scalar.toInt, KeyVal.ofScalar]
    rw [parseInt_formatInt (by decide) hv.1 hv.2]
    rfl
  all_goals
    simp only [KeyVal.denote, primaryKeyBitSize, Scalar.toUint, KeyVal.ofScalar]
    rw [parseUint_formatUint hv]
    rfl

/-- A supported key kind has an id for every value. -/
theorem idStringFromValue_ok {fd : FieldDesc} (h : primaryKeyKindSupported fd.kind = true)
    (v : Scalar) : ∃ id, idStringFromValue fd v = .ok id := by
  unfold idStringFromValue
  cases hk : fd.kind <;> rw [hk] at h <;> first | exact ⟨_, rfl⟩ | cases h

/-! ## Entries of one collection -/

/-- A key kind is of fixed width, or boolean, or string. -/
theorem KeyVal.storageKey_shape {kind : Kind} {v : KeyVal} (h : v.hasKind kind) :
    (kind ≠ .bool ∧ kind ≠ .string ∧ v.storageKey.length = 8) ∨
      (kind = .bool ∧ ∃ b, v = .bool b) ∨ kind = .string := by
  cases kind <;> cases v <;> simp only [KeyVal.hasKind] at h <;>
    simp [KeyVal.storageKey]

/-- In a collection only string values over string keys can share an entry: a
value that goes on is longer, and the key before it is longer and holds a
NUL. -/
theorem strings_of_continues {fd : FieldDesc} {kind : Kind} {v v' : KeyVal}
    (hv : v.hasKind kind) (hv' : v'.hasKind kind) {x x' : Scalar} {enc enc' : Bytes}
    (henc : Index.encodeValue fd x = .ok enc) (henc' : Index.encodeValue fd x' = .ok enc')
    (h : Index.Continues enc v.storageKey enc' v'.storageKey) :
    fd.kind = .string ∧ kind = .string := by
  obtain ⟨rest, hvalue, hkey⟩ := h
  constructor
  · by_contra hfd
    have hwidth := Index.encodeValue_width hfd henc henc'
    rw [hvalue, List.length_append, List.length_cons] at hwidth
    omega
  · rcases KeyVal.storageKey_shape hv with ⟨hb, hs, hlen⟩ | ⟨_, b, rfl⟩ | hs
    · rcases KeyVal.storageKey_shape hv' with ⟨_, _, hlen'⟩ | ⟨hb', _⟩ | hs'
      · rw [hkey, List.length_append, List.length_cons] at hlen
        omega
      · exact absurd hb' hb
      · exact absurd hs' hs
    · have hnul : ∀ b, Index.sep ∉ formatBool b := by decide
      have hmem : Index.sep ∈ (KeyVal.bool b).storageKey := by
        rw [hkey]
        exact List.mem_append_right _ List.mem_cons_self
      exact absurd hmem (hnul b)
    · exact hs

/-- Within a collection an index entry determines its primary key, except that
a string index over string keys needs values without NUL. -/
theorem entryKey_determines_key {fd : FieldDesc} {kind : Kind} {v v' : KeyVal}
    (hv : v.hasKind kind) (hv' : v'.hasKind kind) {x x' : Scalar} {enc enc' : Bytes}
    (henc : Index.encodeValue fd x = .ok enc) (henc' : Index.encodeValue fd x' = .ok enc')
    (hnul : fd.kind = .string → kind = .string → Index.sep ∉ enc ∧ Index.sep ∉ enc')
    (h : Index.entryKey enc v.storageKey = Index.entryKey enc' v'.storageKey) :
    v.storageKey = v'.storageKey := by
  rcases Index.entryKey_eq_iff.mp h with ⟨_, heq⟩ | hcont | hcont
  · exact heq
  · obtain ⟨hfd, hkind⟩ := strings_of_continues hv hv' henc henc' hcont
    obtain ⟨rest, hvalue, _⟩ := hcont
    exact absurd (by simp [hvalue]) (hnul hfd hkind).2
  · obtain ⟨hfd, hkind⟩ := strings_of_continues hv' hv henc' henc hcont
    obtain ⟨rest, hvalue, _⟩ := hcont
    exact absurd (by simp [hvalue]) (hnul hfd hkind).1

end KoraDB.Engine
