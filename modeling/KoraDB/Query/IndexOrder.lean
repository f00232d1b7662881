import KoraDB.Query.Compare

/-!
# The order of index keys

`EncodeValue` and `CompareValues` switch on the kind separately. They agree:
the encodings of two values of a field are ordered byte-wise as the query layer
orders the values (`compare_encodeValue`). Unsigned words are big-endian, signed
ones have the sign bit flipped so that the negative half comes first.

Which values can be encoded is a matter of the kind alone, so `Indexable` may
ask it of the default value and answer for all of them.
-/

namespace KoraDB.Query

open KoraDB.Base KoraDB.Proto KoraDB.Engine

/-! ## Which kinds are encoded -/

/-- A kind is encoded for all values or for none. -/
theorem encodeValue_isOk_congr (fd : FieldDesc) (v v' : Scalar) :
    (Index.encodeValue fd v).isOk = (Index.encodeValue fd v').isOk := by
  unfold Index.encodeValue
  cases fd.kind <;> rfl

theorem exists_encodeValue_iff {fd : FieldDesc} {v : Scalar} :
    (∃ enc, Index.encodeValue fd v = .ok enc) ↔ (Index.encodeValue fd v).isOk = true := by
  cases Index.encodeValue fd v with
  | error e => simp [Except.isOk, Except.toBool]
  | ok enc => simp [Except.isOk, Except.toBool]

/-- The guard of `Indexable` and of `evalCmp` lets the scalar fields through. -/
theorem scalarField_iff {fd : FieldDesc} :
    (fd.isList || fd.isMap || fd.kind == .message || fd.kind == .group) = false ↔
      fd.isList = false ∧ fd.isMap = false ∧ fd.kind.isScalar = true := by
  have hkind : (fd.kind == .message || fd.kind == .group) = !fd.kind.isScalar := by
    cases fd.kind <;> rfl
  rw [Bool.or_assoc, hkind, Bool.or_eq_false_iff, Bool.or_eq_false_iff, Bool.not_eq_false',
    and_assoc]

/-- `Indexable` on a scalar field. -/
theorem indexable_iff {fd : FieldDesc} (hlist : fd.isList = false) (hmap : fd.isMap = false)
    (hscalar : fd.kind.isScalar = true) :
    Index.indexable fd = true ↔
      ∀ v : Scalar, v.hasKind fd.kind = true → ∃ enc, Index.encodeValue fd v = .ok enc := by
  have hindexable :
      Index.indexable fd = (Index.encodeValue fd (Index.defaultValue fd)).isOk := by
    unfold Index.indexable
    rw [scalarField_iff.mpr ⟨hlist, hmap, hscalar⟩, if_neg Bool.false_ne_true]
  rw [hindexable]
  constructor
  · intro h v _
    rw [exists_encodeValue_iff, encodeValue_isOk_congr fd v (Index.defaultValue fd)]
    exact h
  · intro h
    -- every scalar kind has a value
    have hzero := exists_encodeValue_iff.mp (h fd.kind.zero (Kind.zero_hasKind hscalar))
    rw [encodeValue_isOk_congr fd _ fd.kind.zero]
    exact hzero

/-- An indexable field is a scalar field. -/
theorem scalarField_of_indexable {fd : FieldDesc} (h : Index.indexable fd = true) :
    (fd.isList || fd.isMap || fd.kind == .message || fd.kind == .group) = false := by
  unfold Index.indexable at h
  split at h
  · cases h
  · rename_i hscalar
    exact Bool.eq_false_iff.mpr hscalar

/-! ## The order of the encodings -/

theorem compare_signed {m n : Int} (hm : -2 ^ 63 ≤ m ∧ m < 2 ^ 63) (hn : -2 ^ 63 ≤ n ∧ n < 2 ^ 63) :
    compare (be64 (toUint64 m ^^^ 2 ^ 63)) (be64 (toUint64 n ^^^ 2 ^ 63)) = compare m n := by
  rw [toUint64_flip hm, toUint64_flip hn, compare_be64 (by omega) (by omega)]
  rcases Int.lt_trichotomy m n with hlt | rfl | hgt
  · rw [compare_lt_iff_lt.mpr hlt, Nat.compare_eq_lt]
    omega
  · simp
  · rw [compare_gt_iff_gt.mpr hgt, Nat.compare_eq_gt]
    omega

theorem compare_bool (p q : Bool) :
    compare (if p then [1] else [0] : Bytes) (if q then [1] else [0]) =
      compare p.toNat q.toNat := by
  cases p <;> cases q <;> rfl

/-- **Encodings are ordered as the values are.** -/
theorem compare_encodeValue {fd : FieldDesc} {a b : Scalar} {ea eb : Bytes}
    (ha : a.hasKind fd.kind = true) (hb : b.hasKind fd.kind = true)
    (hea : Index.encodeValue fd a = .ok ea) (heb : Index.encodeValue fd b = .ok eb) :
    compare ea eb = compareValues fd a b := by
  unfold Index.encodeValue at hea heb
  unfold compareValues
  -- one case for each branch of the two switches
  cases hk : fd.kind <;> rw [hk] at ha hb hea heb <;>
    simp only [Except.ok.injEq, reduceCtorEq] at hea heb <;> rw [← hea, ← heb]
  case bool => exact compare_bool a.toBool b.toBool
  case int32 | sint32 | sfixed32 | int64 | sint64 | sfixed64 =>
    cases a <;> cases b <;>
      simp only [Scalar.hasKind, Bool.false_eq_true, Scalar.inSigned, decide_eq_true_eq] at ha hb
    rename_i m n
    exact compare_signed (m := m) (n := n) (by omega) (by omega)
  case uint32 | fixed32 | uint64 | fixed64 =>
    cases a <;> cases b <;>
      simp only [Scalar.hasKind, Bool.false_eq_true, decide_eq_true_eq] at ha hb
    rename_i m n
    exact compare_be64 (m := m) (n := n) (by omega) (by omega)

/-- Equal encodings are the verdict of `==`. -/
theorem encodeValue_eq_iff {fd : FieldDesc} {a b : Scalar} {ea eb : Bytes}
    (ha : a.hasKind fd.kind = true) (hb : b.hasKind fd.kind = true)
    (hea : Index.encodeValue fd a = .ok ea) (heb : Index.encodeValue fd b = .ok eb) :
    ea = eb ↔ Op.test .eq (compareValues fd a b) = .ok true := by
  rw [← compare_encodeValue ha hb hea heb]
  have heq : compare ea eb = .eq ↔ ea = eb := Std.LawfulEqCmp.compare_eq_iff_eq
  rw [← heq]
  simp [Op.test]

/-- Values that can be encoded are comparable, and none of them is a NaN. -/
theorem ordinary_of_encodeValue {fd : FieldDesc} {a : Scalar} {ea : Bytes}
    (ha : a.hasKind fd.kind = true) (hea : Index.encodeValue fd a = .ok ea) :
    comparableKind fd.kind = true ∧ Ordinary fd.kind a := by
  unfold Index.encodeValue at hea
  have hnan : a ≠ .float .nan := by
    rintro rfl
    cases hk : fd.kind <;> rw [hk] at ha hea <;> cases ha <;> cases hea
  refine ⟨?_, ha, hnan⟩
  cases hk : fd.kind <;> rw [hk] at hea <;> first | rfl | cases hea

/-- Distinct values have distinct encodings. -/
theorem encodeValue_inj {fd : FieldDesc} {a b : Scalar} {enc : Bytes}
    (ha : a.hasKind fd.kind = true) (hb : b.hasKind fd.kind = true)
    (hea : Index.encodeValue fd a = .ok enc) (heb : Index.encodeValue fd b = .ok enc) :
    a = b := by
  obtain ⟨hkind, horda⟩ := ordinary_of_encodeValue ha hea
  have hordb := (ordinary_of_encodeValue hb heb).2
  apply ((compareValues_total hkind).eq_iff a b horda hordb).mp
  rw [← compare_encodeValue ha hb hea heb]
  exact Std.ReflCmp.compare_self

/-- On a document, `==` holds exactly when the field and the literal have one
encoding. -/
theorem evalCmp_eq_iff {lib : Lib} {mdName : Bytes} {md : MessageDesc} {msg : Msg}
    {field value : Bytes} {fd : FieldDesc} {lit : Scalar} (hmsg : msg.recs.kinded = true)
    (hfd : md.byName field = some fd) (hindex : Index.indexable fd = true)
    (hlit : scalarValueFromString lib.parseFloat fd value = .ok lit) :
    evalCmp lib mdName md msg ⟨field, .eq, value⟩ = .ok true ↔
      Index.encodeValue fd (msg.get fd) = Index.encodeValue fd lit := by
  have hguard := scalarField_of_indexable hindex
  obtain ⟨hlist, hmap, hscalar⟩ := scalarField_iff.mp hguard
  have hkind := Msg.get_hasKind hmsg hscalar
  have hlitKind := (scalarValueFromString_kind hlit).2
  obtain ⟨em, hem⟩ := (indexable_iff hlist hmap hscalar).mp hindex _ hkind
  obtain ⟨el, hel⟩ := (indexable_iff hlist hmap hscalar).mp hindex _ hlitKind
  have htest : evalCmp lib mdName md msg ⟨field, .eq, value⟩ =
      Op.test .eq (compareValues fd (msg.get fd) lit) := by
    simp only [evalCmp, hfd, orErr_some, ok_bind, hguard, reject_false, hlit, wrap_ok]
  rw [htest, ← encodeValue_eq_iff hkind hlitKind hem hel, hem, hel, Except.ok.injEq]

/-- **The index orders values as queries do.** Of a field, whatever its kind:
the encodings of two of its values are ordered byte-wise as `CompareValues`
orders the values, and they are equal exactly when `==` holds. A scalar field is
indexable exactly when all its values can be encoded. And of an indexed field of
a document, `==` with a literal holds exactly when the two have one encoding. -/
theorem index_order_agrees (lib : Lib) (fd : FieldDesc) :
    (∀ (a b : Scalar) (ea eb : Bytes), a.hasKind fd.kind = true → b.hasKind fd.kind = true →
      Index.encodeValue fd a = .ok ea → Index.encodeValue fd b = .ok eb →
      compare ea eb = compareValues fd a b ∧
        (ea = eb ↔ Op.test .eq (compareValues fd a b) = .ok true)) ∧
    (fd.isList = false → fd.isMap = false → fd.kind.isScalar = true →
      (Index.indexable fd = true ↔
        ∀ v : Scalar, v.hasKind fd.kind = true → ∃ enc, Index.encodeValue fd v = .ok enc)) ∧
    ∀ (mdName : Bytes) (md : MessageDesc) (msg : Msg) (field value : Bytes) (lit : Scalar),
      msg.recs.kinded = true → md.byName field = some fd → Index.indexable fd = true →
      scalarValueFromString lib.parseFloat fd value = .ok lit →
      (evalCmp lib mdName md msg ⟨field, .eq, value⟩ = .ok true ↔
        Index.encodeValue fd (msg.get fd) = Index.encodeValue fd lit) := by
  refine ⟨?_, indexable_iff, ?_⟩
  · intro a b ea eb ha hb hea heb
    exact ⟨compare_encodeValue ha hb hea heb, encodeValue_eq_iff ha hb hea heb⟩
  · intro mdName md msg field value lit hmsg hfd hindex hlit
    exact evalCmp_eq_iff hmsg hfd hindex hlit

/-- The least depth is encoded before 7, and the dive to 7 is found by `==`. -/
theorem index_order_agrees_depth :
    let depth : FieldDesc := plainField ⟨ascii "depth", by decide⟩ 1 .sint64 []
    let dive : MessageDesc := .mk ⟨ascii "Dive", by decide⟩ [depth] [] []
    (∃ low high, Index.encodeValue depth (.int (-2 ^ 63)) = .ok low ∧
      Index.encodeValue depth (.int 7) = .ok high ∧
      compare low high = compareValues depth (.int (-2 ^ 63)) (.int 7) ∧ low ≠ high) ∧
    evalCmp someFloats (ascii "Dive") dive ⟨dive, .scalar 1 .sint64 (.int 7) .nil⟩
      ⟨ascii "depth", .eq, ascii "7"⟩ = .ok true := by
  intro depth dive
  obtain ⟨horder, _, hdocument⟩ := index_order_agrees someFloats depth
  obtain ⟨hcompare, heq⟩ := horder (.int (-2 ^ 63)) (.int 7) _ _ (by decide) (by decide) rfl rfl
  refine ⟨⟨_, _, rfl, rfl, hcompare, ?_⟩, ?_⟩
  · intro hsame
    exact absurd (heq.mp hsame) (by decide)
  · apply (hdocument _ dive _ _ _ (.int 7) (by decide) (by decide) (by decide) (by decide)).mpr
    rfl

end KoraDB.Query
