import KoraDB.Engine.Effects

/-!
# Ids and storage keys (`internal/engine`)

Three switches on the kind of the key field have to agree: `idStringFromValue`
prints a value, `encodeKey` reads an id and encodes what it denotes, and
`IDFromStorageKey` prints a storage key. `KeyVal.text` is the one id that all of
them have for a value, and each switch is stated against it.
-/

namespace KoraDB.Engine

open KoraDB.Base KoraDB.Proto KoraDB.Catalog KoraDB.Schema

/-! ## The id of a value -/

/-- The canonical id of a key value. -/
def KeyVal.text : KeyVal → Bytes
  | .int n => formatInt n
  | .bool b => formatBool b
  | .str s => s

theorem formatInt_of_nonneg {n : Int} (hn : 0 ≤ n) : formatInt n = formatUint n.toNat := by
  unfold formatInt
  rw [if_neg (Int.not_lt.mpr hn)]
  congr 1
  omega

/-- The id of a value denotes it. -/
theorem KeyVal.denote_text {kind : Kind} {v : KeyVal} (hv : v.hasKind kind) :
    KeyVal.denote kind v.text = some v := by
  cases kind <;> cases v <;> simp only [KeyVal.hasKind] at hv <;>
    simp only [KeyVal.denote, KeyVal.text, primaryKeyBitSize]
  case bool b => rw [parseBool_formatBool, Option.map_some]
  case int32 n | sint32 n | sfixed32 n =>
    have hparse : parseInt 32 (formatInt n) = some n := parseInt_formatInt (by decide) hv.1 hv.2
    rw [hparse, Option.map_some]
  case int64 n | sint64 n | sfixed64 n =>
    have hparse : parseInt 64 (formatInt n) = some n := parseInt_formatInt (by decide) hv.1 hv.2
    rw [hparse, Option.map_some]
  case uint32 n | fixed32 n | uint64 n | fixed64 n =>
    rw [formatInt_of_nonneg hv.1, parseUint_formatUint (by omega), Option.map_some]
    congr 2
    omega

/-- A field prints its value as the id of that value. -/
theorem idStringFromValue_eq {fd : FieldDesc} {v : Scalar} (hv : v.hasKind fd.kind = true)
    (hsup : primaryKeyKindSupported fd.kind = true) :
    idStringFromValue fd v = .ok (KeyVal.ofScalar v).text := by
  unfold idStringFromValue
  cases hk : fd.kind <;> rw [hk] at hsup hv <;> simp only [primaryKeyKindSupported,
      Bool.false_eq_true] at hsup <;> cases v <;>
    simp only [Scalar.hasKind, Bool.false_eq_true] at hv <;>
    simp only [KeyVal.ofScalar, KeyVal.text, Scalar.toStr, Scalar.toBool, Scalar.toInt,
      Scalar.toUint]
  all_goals rw [formatInt_of_nonneg (Int.natCast_nonneg _), Int.toNat_natCast]

theorem ofUint64_toUint64 {n : Int} (hn : -2 ^ 63 ≤ n ∧ n < 2 ^ 63) :
    ofUint64 (toUint64 n) = n := by
  unfold ofUint64 toUint64
  split <;> omega

theorem KeyVal.storageKey_length (n : Int) : (KeyVal.int n).storageKey.length = 8 := be64_length _

/-- A signed number is read back from its storage key. -/
theorem KeyVal.ofUint64_storageKey {n : Int} (hn : -2 ^ 63 ≤ n ∧ n < 2 ^ 63) :
    ofUint64 (ofBe (KeyVal.int n).storageKey) = n := by
  show ofUint64 (ofBe (be64 (toUint64 n))) = n
  rw [ofBe_be64 (toUint64_lt n), ofUint64_toUint64 hn]

theorem KeyVal.storageKey_unsigned {n : Int} (h0 : 0 ≤ n) (hn : n < 2 ^ 64) :
    (KeyVal.int n).storageKey = be64 n.toNat := by
  show be64 (toUint64 n) = _
  congr 1
  unfold toUint64
  omega

/-- `IDFromStorageKey` prints the storage key of a value as its id. -/
theorem idFromFieldKey_storageKey {fd : FieldDesc} {v : KeyVal} (hv : v.hasKind fd.kind)
    (keyField : Bytes) : idFromFieldKey fd keyField v.storageKey = .ok v.text := by
  unfold idFromFieldKey
  cases hk : fd.kind <;> rw [hk] at hv <;> cases v <;> simp only [KeyVal.hasKind] at hv
  case bool | string => rfl
  case int32 n | sint32 n | sfixed32 n | int64 n | sint64 n | sfixed64 n =>
    have hread := KeyVal.ofUint64_storageKey (n := n) (by omega)
    simp only [KeyVal.storageKey_length, hread, bne_self_eq_false, reject]
    rfl
  all_goals
    rw [KeyVal.storageKey_unsigned hv.1 (by omega), KeyVal.text, formatInt_of_nonneg hv.1]
    simp only [be64_length, bne_self_eq_false, reject]
    rw [ofBe_be64 (by omega)]
    rfl

/-! ## The switches of a collection -/

theorem idFromStorageKey_storageKey {fs : Files} {cm : CollectionMeta} {kind : Kind} {v : KeyVal}
    (hkind : keyKindIn fs cm = some kind) (hv : v.hasKind kind) :
    idFromStorageKey fs cm v.storageKey = .ok v.text := by
  cases hk : cm.keyKind with
  | auto =>
      rw [keyKindIn, hk] at hkind
      cases hkind
      cases v <;> simp only [KeyVal.hasKind] at hv
      rw [KeyVal.storageKey_unsigned hv.1 hv.2, KeyVal.text, formatInt_of_nonneg hv.1]
      exact idFromStorageKey_auto hk (by omega)
  | field =>
      obtain ⟨fd, hfd, rfl⟩ := (keyKindIn_field hk).mp hkind
      unfold idFromStorageKey
      rw [hk]
      show (keyFieldOf fs cm >>= fun fd => idFromFieldKey fd cm.keyField _) = _
      rw [hfd, ok_bind]
      exact idFromFieldKey_storageKey hv cm.keyField

/-- An id that is accepted and the id printed for its storage key are accepted
alike. -/
theorem idFromStorageKey_of_encodeKey {fs : Files} {cm : CollectionMeta} {id k : Bytes}
    (h : encodeKey fs cm id = .ok k) :
    ∃ id', idFromStorageKey fs cm k = .ok id' ∧ encodeKey fs cm id' = .ok k := by
  obtain ⟨kind, v, hkind, hv, rfl⟩ := encodeKey_iff.mp h
  have hvalue := KeyVal.denote_hasKind hv
  exact ⟨v.text, idFromStorageKey_storageKey hkind hvalue,
    encodeKey_iff.mpr ⟨kind, v, hkind, KeyVal.denote_text hvalue, rfl⟩⟩

/-- The id printed for the storage key of a value is accepted for it. -/
theorem encodeKey_of_idFromStorageKey {fs : Files} {cm : CollectionMeta} {kind : Kind} {v : KeyVal}
    (hkind : keyKindIn fs cm = some kind) (hv : v.hasKind kind) {id : Bytes}
    (h : idFromStorageKey fs cm v.storageKey = .ok id) :
    encodeKey fs cm id = .ok v.storageKey := by
  rw [idFromStorageKey_storageKey hkind hv] at h
  cases h
  exact encodeKey_iff.mpr ⟨kind, v, hkind, KeyVal.denote_text hv, rfl⟩

theorem KeyVal.ofScalar_inj {kind : Kind} {v v' : Scalar}
    (hsup : primaryKeyKindSupported kind = true) (hv : v.hasKind kind = true)
    (hv' : v'.hasKind kind = true) (h : KeyVal.ofScalar v = KeyVal.ofScalar v') : v = v' := by
  cases kind <;> simp only [primaryKeyKindSupported, Bool.false_eq_true] at hsup <;> cases v <;>
    simp only [Scalar.hasKind, Bool.false_eq_true] at hv <;> cases v' <;>
    simp only [Scalar.hasKind, Bool.false_eq_true] at hv' <;>
    simp only [KeyVal.ofScalar, KeyVal.bool.injEq, KeyVal.int.injEq, KeyVal.str.injEq,
      Int.natCast_inj] at h <;>
    rw [h]

/-- The id of a field's value through `encodeKey` and back. -/
theorem fieldId_roundTrip {fs : Files} {cm : CollectionMeta} {fd : FieldDesc} {v : Scalar}
    (hfield : cm.keyKind = .field) (hfd : keyFieldOf fs cm = .ok fd)
    (hsup : primaryKeyKindSupported fd.kind = true) (hv : v.hasKind fd.kind = true) :
    ∃ id k, idStringFromValue fd v = .ok id ∧ encodeKey fs cm id = .ok k ∧
      idFromStorageKey fs cm k = .ok id ∧
      ∀ v' id', v'.hasKind fd.kind = true → idStringFromValue fd v' = .ok id' →
        encodeKey fs cm id' = .ok k → v' = v := by
  have hkind : keyKindIn fs cm = some fd.kind := (keyKindIn_field hfield).mpr ⟨fd, hfd, rfl⟩
  have hid := idStringFromValue_eq hv hsup
  have hdenote := denote_idString hv hid
  have hvalue := KeyVal.denote_hasKind hdenote
  refine ⟨_, (KeyVal.ofScalar v).storageKey, hid, encodeKey_iff.mpr ⟨_, _, hkind, hdenote, rfl⟩,
    idFromStorageKey_storageKey hkind hvalue, ?_⟩
  intro v' id' hv' hid' hkey
  -- one storage key is one key value, and a kind's values differ as key values
  obtain ⟨kind, u, hkind', hu, hsame⟩ := encodeKey_iff.mp hkey
  rw [hkind] at hkind'
  cases hkind'
  rw [denote_idString hv' hid'] at hu
  cases hu
  have hvalue' := KeyVal.denote_hasKind (denote_idString hv' hid')
  exact KeyVal.ofScalar_inj hsup hv' hv (KeyVal.storageKey_inj hvalue' hvalue hsame.symm)

theorem encodeKey_auto {fs : Files} {cm : CollectionMeta} (hauto : cm.keyKind = .auto) {n : Nat}
    (hn : n < 2 ^ 64) : encodeKey fs cm (formatUint n) = .ok (be64 n) := by
  unfold encodeKey
  rw [hauto]
  simp only [parseUint_formatUint hn, orErr_some, ok_bind]
  rfl

/-- A number through `encodeKey` and back in a collection with automatic keys. -/
theorem autoId_roundTrip {fs : Files} {cm : CollectionMeta} (hauto : cm.keyKind = .auto) {n : Nat}
    (hn : n < 2 ^ 64) :
    ∃ k, encodeKey fs cm (formatUint n) = .ok k ∧
      idFromStorageKey fs cm k = .ok (formatUint n) ∧
      ∀ n', n' < 2 ^ 64 → encodeKey fs cm (formatUint n') = .ok k → n' = n := by
  refine ⟨be64 n, encodeKey_auto hauto hn, idFromStorageKey_auto hauto hn, ?_⟩
  intro n' hn' hkey
  rw [encodeKey_auto hauto hn'] at hkey
  exact be64_inj hn' hn (Except.ok.inj hkey)

/-! ## What an id addresses -/

/-- The id of a new document is accepted for the key it is stored under. -/
theorem Placed.encodeKey_eq {fs : Files} {s s₁ : Store} {cm : CollectionMeta} {msg : Msg}
    {key id : Bytes} (hp : Placed fs s s₁ cm msg key id) : encodeKey fs cm id = .ok key := by
  cases hk : cm.keyKind with
  | auto =>
      obtain ⟨n, hn, rfl, rfl, _⟩ := hp.auto hk
      have hlt : n < 2 ^ 64 := by
        rw [hn]
        exact Nat.mod_lt _ (by decide)
      exact encodeKey_auto hk hlt
  | field =>
      obtain ⟨_, _, _, _, henc⟩ := hp.field hk
      exact henc

/-- What `Get` has read when it answers. -/
theorem get_eq_ok {codec : Codec} {fs : Files} {s : Store} {coll id json : Bytes}
    {cm : CollectionMeta} (hcm : getMeta s coll = .ok cm) (h : get codec fs s coll id = .ok json) :
    ∃ k b msg, encodeKey fs cm id = .ok k ∧ s.get (dataBucket coll) k = some b ∧
      decode fs cm b = .ok msg ∧ renderMessage codec fs msg = .ok json := by
  unfold get at h
  simp only [hcm, ok_bind, bind_eq_ok_iff, orErr_eq_ok_iff] at h
  obtain ⟨k, hk, b, hb, msg, hdec, hjson⟩ := h
  exact ⟨k, b, msg, hk, hb, hdec, hjson⟩

/-- In this state the operations on a collection take the id for the document
under the storage key `k`: `Get` reads it, and `Update` and `Delete` write it
and no other document of any collection. -/
structure Addresses (codec : Codec) (fs : Files) (s : Store) (coll : Bytes) (cm : CollectionMeta)
    (id k : Bytes) : Prop where
  get : ∀ b, s.get (dataBucket coll) k = some b →
    get codec fs s coll id = (decode fs cm b >>= renderMessage codec fs)
  update : ∀ json s', update codec fs s coll id json = (s', .ok ()) →
    (∃ msg, parse codec fs cm json = .ok msg ∧
      s'.get (dataBucket coll) k = some (.document msg.recs)) ∧
    ∀ c' k', ¬ (coll = c' ∧ k = k') → s'.get (dataBucket c') k' = s.get (dataBucket c') k'
  delete : ∀ s', delete fs s coll id = (s', .ok ()) →
    s'.get (dataBucket coll) k = none ∧
    ∀ c' k', ¬ (coll = c' ∧ k = k') → s'.get (dataBucket c') k' = s.get (dataBucket c') k'

theorem addresses_of_encodeKey {codec : Codec} {fs : Files} {s : Store} {coll : Bytes}
    {cm : CollectionMeta} {id k : Bytes} (hcm : getMeta s coll = .ok cm)
    (hk : encodeKey fs cm id = .ok k) : Addresses codec fs s coll cm id k where
  get b hb := by
    unfold Engine.get
    rw [hcm, ok_bind, hk, ok_bind, hb, orErr_some, ok_bind]
  update json s' h := by
    obtain ⟨cm', msg, key, b, old, hcm', hkey, _, _, hmsg, _, hrw, _⟩ := update_eq_ok h
    rw [hcm] at hcm'
    cases hcm'
    rw [hk] at hkey
    cases hkey
    exact ⟨⟨msg, hmsg, hrw.doc⟩, fun c' k' hne => hrw.get_data hne⟩
  delete s' h := by
    obtain ⟨cm', key, hcm', hkey, hcase⟩ := delete_eq_ok h
    rw [hcm] at hcm'
    cases hcm'
    rw [hk] at hkey
    cases hkey
    rcases hcase with ⟨hnone, rfl⟩ | ⟨b, old, _, _, hrw, _⟩
    · exact ⟨hnone, fun _ _ _ => rfl⟩
    · exact ⟨hrw.doc, fun c' k' hne => hrw.get_data hne⟩

end KoraDB.Engine
