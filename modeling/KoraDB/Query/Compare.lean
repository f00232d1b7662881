import Mathlib.Algebra.Order.Ring.Rat
import Mathlib.Order.WithBot
import KoraDB.Query.Filter

/-!
# Comparison predicates

All six operators read one three-way result. That result orders the values of
every kind a literal can be typed to, as long as none of them is a NaN
(`compareValues_total`). A NaN is below and above nothing, so `cmpFloat64` falls
through to equal: it matches `==` with every literal (`nan_equals_all`). So a
NaN beside another value is all that breaks the order, and `==` is exact unless
one side alone is a NaN (`comparison_sound`).
-/

namespace KoraDB.Query

open KoraDB.Base KoraDB.Proto KoraDB.Engine

/-! ## Three-way comparisons -/

section TotalOn

variable {α β : Type} {cmp : α → α → Ordering} {valid : α → Prop}

/-- The comparison is a total order on the values that satisfy `valid`. -/
structure TotalOn (cmp : α → α → Ordering) (valid : α → Prop) : Prop where
  swap : ∀ a b, valid a → valid b → cmp b a = (cmp a b).swap
  trans : ∀ a b c, valid a → valid b → valid c →
    (cmp a b).isLE = true → (cmp b c).isLE = true → (cmp a c).isLE = true
  eq_iff : ∀ a b, valid a → valid b → (cmp a b = .eq ↔ a = b)

/-- Values that are compared by a rank which tells them apart are ordered as
the ranks are. -/
theorem TotalOn.of_rank [Ord β] [Std.TransOrd β] [Std.LawfulEqOrd β] (rank : α → β)
    (hcmp : ∀ a b, valid a → valid b → cmp a b = compare (rank a) (rank b))
    (hinj : ∀ a b, valid a → valid b → rank a = rank b → a = b) : TotalOn cmp valid where
  swap a b ha hb := by
    rw [hcmp a b ha hb, hcmp b a hb ha]
    exact Std.OrientedCmp.eq_swap
  trans a b c ha hb hc hab hbc := by
    rw [hcmp a b ha hb] at hab
    rw [hcmp b c hb hc] at hbc
    rw [hcmp a c ha hc]
    exact Std.TransCmp.isLE_trans hab hbc
  eq_iff a b ha hb := by
    rw [hcmp a b ha hb, Std.LawfulEqOrd.compare_eq_iff_eq]
    constructor
    · exact hinj a b ha hb
    · rintro rfl
      rfl

theorem TotalOn.mono {valid' : α → Prop} (h : TotalOn cmp valid) (hsub : ∀ a, valid' a → valid a) :
    TotalOn cmp valid' where
  swap a b ha hb := h.swap a b (hsub a ha) (hsub b hb)
  trans a b c ha hb hc := h.trans a b c (hsub a ha) (hsub b hb) (hsub c hc)
  eq_iff a b ha hb := h.eq_iff a b (hsub a ha) (hsub b hb)

/-- A single value that is equal to itself. -/
theorem TotalOn.single {x : α} (hx : cmp x x = .eq) : TotalOn cmp (· = x) where
  swap a b ha hb := by
    rw [ha, hb, hx]
    rfl
  trans a b c ha _ hc _ _ := by
    rw [ha, hc, hx]
    rfl
  eq_iff a b ha hb := by
    rw [ha, hb]
    exact ⟨fun _ => rfl, fun _ => hx⟩

end TotalOn

/-! ## The kinds of values -/

/-- The kinds `scalarValueFromString` types a literal to. -/
def comparableKind : Kind → Bool
  | .enum | .bytes | .message | .group => false
  | _ => true

/-- A value a field of the kind can hold, other than a NaN. -/
def Ordinary (kind : Kind) (a : Scalar) : Prop := a.hasKind kind = true ∧ a ≠ .float .nan

/-- Where a float stands among the others; a NaN stands nowhere. -/
def floatRank : GoFloat → WithBot (WithTop ℚ)
  -- the rank of a NaN is never used
  | .nan | .negInf => ⊥
  | .fin q => ((q : WithTop ℚ) : WithBot (WithTop ℚ))
  | .posInf => ((⊤ : WithTop ℚ) : WithBot (WithTop ℚ))

theorem floatLt_iff {a b : GoFloat} (ha : a ≠ .nan) (hb : b ≠ .nan) :
    floatLt a b = true ↔ floatRank a < floatRank b := by
  cases a <;> cases b <;> simp [floatLt, floatRank] at ha hb ⊢
  exact WithBot.coe_lt_coe.mpr (WithTop.coe_lt_top _)

theorem floatRank_inj {a b : GoFloat} (ha : a ≠ .nan) (hb : b ≠ .nan)
    (h : floatRank a = floatRank b) : a = b := by
  cases a <;> cases b <;> simp [floatRank] at ha hb h ⊢
  exact h

theorem cmpFloat64_rank {a b : GoFloat} (ha : a ≠ .nan) (hb : b ≠ .nan) :
    cmpFloat64 a b = compare (floatRank a) (floatRank b) := by
  unfold cmpFloat64
  -- without a NaN the last branch of the source is equality
  rcases lt_trichotomy (floatRank a) (floatRank b) with hlt | heq | hgt
  · rw [if_pos ((floatLt_iff ha hb).mpr hlt), compare_lt_iff_lt.mpr hlt]
  · rw [if_neg (fun h => ((floatLt_iff ha hb).mp h).ne heq),
      if_neg (fun h => ((floatLt_iff hb ha).mp h).ne heq.symm), compare_eq_iff_eq.mpr heq]
  · rw [if_neg (fun h => ((floatLt_iff ha hb).mp h).not_gt hgt),
      if_pos ((floatLt_iff hb ha).mpr hgt), compare_gt_iff_gt.mpr hgt]

/-! ## The order of each kind -/

theorem total_int {fd : FieldDesc}
    (hcmp : ∀ a b, compareValues fd a b = compare a.toInt b.toInt)
    (hkind : ∀ a, Ordinary fd.kind a → ∃ n, a = .int n) :
    TotalOn (compareValues fd) (Ordinary fd.kind) := by
  refine .of_rank Scalar.toInt (fun a b _ _ => hcmp a b) ?_
  intro a b ha hb h
  obtain ⟨m, rfl⟩ := hkind a ha
  obtain ⟨n, rfl⟩ := hkind b hb
  exact congrArg Scalar.int h

theorem total_uint {fd : FieldDesc}
    (hcmp : ∀ a b, compareValues fd a b = compare a.toUint b.toUint)
    (hkind : ∀ a, Ordinary fd.kind a → ∃ n, a = .uint n) :
    TotalOn (compareValues fd) (Ordinary fd.kind) := by
  refine .of_rank Scalar.toUint (fun a b _ _ => hcmp a b) ?_
  intro a b ha hb h
  obtain ⟨m, rfl⟩ := hkind a ha
  obtain ⟨n, rfl⟩ := hkind b hb
  exact congrArg Scalar.uint h

theorem total_float {fd : FieldDesc}
    (hcmp : ∀ a b, compareValues fd a b = cmpFloat64 a.toFloat b.toFloat)
    (hkind : ∀ a, Ordinary fd.kind a → ∃ f, f ≠ .nan ∧ a = .float f) :
    TotalOn (compareValues fd) (Ordinary fd.kind) := by
  refine .of_rank (fun a => floatRank a.toFloat) ?_ ?_
  · intro a b ha hb
    obtain ⟨f, hf, rfl⟩ := hkind a ha
    obtain ⟨g, hg, rfl⟩ := hkind b hb
    rw [hcmp]
    exact cmpFloat64_rank hf hg
  · intro a b ha hb h
    obtain ⟨f, hf, rfl⟩ := hkind a ha
    obtain ⟨g, hg, rfl⟩ := hkind b hb
    exact congrArg Scalar.float (floatRank_inj hf hg h)

theorem total_bool {fd : FieldDesc} (hk : fd.kind = .bool) :
    TotalOn (compareValues fd) (Ordinary fd.kind) := by
  refine .of_rank (fun a => a.toBool.toNat) (fun a b _ _ => by simp only [compareValues, hk]) ?_
  rintro a b ⟨ha, _⟩ ⟨hb, _⟩ h
  rw [hk] at ha hb
  cases a <;> cases b <;> simp [Scalar.hasKind] at ha hb
  rename_i p _ q _
  cases p <;> cases q <;> first | rfl | cases h

theorem total_string {fd : FieldDesc} (hk : fd.kind = .string) :
    TotalOn (compareValues fd) (Ordinary fd.kind) := by
  refine .of_rank Scalar.toStr (fun a b _ _ => by simp only [compareValues, hk]) ?_
  rintro a b ⟨ha, _⟩ ⟨hb, _⟩ h
  rw [hk] at ha hb
  cases a <;> cases b <;> simp [Scalar.hasKind] at ha hb
  exact congrArg Scalar.str h

/-- `CompareValues` orders the values of every comparable kind, NaN apart. -/
theorem compareValues_total {fd : FieldDesc} (h : comparableKind fd.kind = true) :
    TotalOn (compareValues fd) (Ordinary fd.kind) := by
  -- one rank per branch of the source's switch
  cases hk : fd.kind
  case enum | bytes | message | group => rw [hk] at h; cases h
  case string => rw [← hk]; exact total_string hk
  case bool => rw [← hk]; exact total_bool hk
  case int32 | sint32 | sfixed32 | int64 | sint64 | sfixed64 =>
    rw [← hk]
    refine total_int (fun a b => by simp only [compareValues, hk]) ?_
    rintro a ⟨ha, _⟩
    rw [hk] at ha
    cases a <;> simp [Scalar.hasKind] at ha ⊢
  case uint32 | fixed32 | uint64 | fixed64 =>
    rw [← hk]
    refine total_uint (fun a b => by simp only [compareValues, hk]) ?_
    rintro a ⟨ha, _⟩
    rw [hk] at ha
    cases a <;> simp [Scalar.hasKind] at ha ⊢
  case float | double =>
    rw [← hk]
    refine total_float (fun a b => by simp only [compareValues, hk]) ?_
    rintro a ⟨ha, hnan⟩
    rw [hk] at ha
    cases a <;> simp [Scalar.hasKind] at ha hnan ⊢
    exact hnan

/-- A NaN compares as equal to every value of its kind. -/
theorem compareValues_nan {fd : FieldDesc} (hnan : (Scalar.float .nan).hasKind fd.kind = true)
    (a : Scalar) :
    compareValues fd (.float .nan) a = .eq ∧ compareValues fd a (.float .nan) = .eq := by
  have hleft : ∀ f, cmpFloat64 .nan f = .eq := by
    intro f
    cases f <;> rfl
  have hright : ∀ f, cmpFloat64 f .nan = .eq := by
    intro f
    cases f <;> rfl
  cases hk : fd.kind <;> rw [hk] at hnan <;> try cases hnan
  all_goals simp only [compareValues, hk]
  all_goals exact ⟨hleft _, hright _⟩

/-- Equality is exact of two values unless one of them alone is a NaN. -/
theorem compareValues_eq_exact {fd : FieldDesc} (h : comparableKind fd.kind = true) {a b : Scalar}
    (ha : a.hasKind fd.kind = true) (hb : b.hasKind fd.kind = true) :
    (compareValues fd a b = .eq ↔ a = b) ↔ (a = .float .nan ↔ b = .float .nan) := by
  by_cases hna : a = .float .nan
  · subst hna
    have heq := (compareValues_nan ha b).1
    simp only [heq, true_iff]
    exact eq_comm
  · by_cases hnb : b = .float .nan
    · subst hnb
      have heq := (compareValues_nan hb a).2
      simp only [heq, true_iff, hna, false_iff, not_true_eq_false]
    · simp only [hna, hnb, iff_true]
      exact (compareValues_total h).eq_iff a b ⟨ha, hna⟩ ⟨hb, hnb⟩

/-- `CompareValues` orders some values of a kind exactly if no NaN is among them
beside another value. -/
theorem compareValues_total_iff {fd : FieldDesc} (h : comparableKind fd.kind = true)
    {valid : Scalar → Prop} (hkind : ∀ a, valid a → a.hasKind fd.kind = true) :
    TotalOn (compareValues fd) valid ↔
      (valid (.float .nan) → ∀ a, valid a → a = .float .nan) := by
  constructor
  · intro htotal hnan a ha
    have heq := (compareValues_nan (hkind _ hnan) a).1
    exact ((htotal.eq_iff _ _ hnan ha).mp heq).symm
  · intro hlone
    by_cases hnan : valid (.float .nan)
    · -- a NaN is all there is, and it is equal to itself
      have hself := (compareValues_nan (hkind _ hnan) (.float .nan)).1
      exact (TotalOn.single hself).mono (hlone hnan)
    · refine (compareValues_total h).mono fun a ha => ⟨hkind a ha, ?_⟩
      rintro rfl
      exact hnan ha

/-! ## The operators -/

/-- A literal is typed to a comparable kind, and to a value of it. -/
theorem scalarValueFromString_kind {parseFloat : ParseFloat} {fd : FieldDesc} {s : Bytes}
    {lit : Scalar} (h : scalarValueFromString parseFloat fd s = .ok lit) :
    comparableKind fd.kind = true ∧ lit.hasKind fd.kind = true := by
  unfold scalarValueFromString at h
  cases hk : fd.kind <;> rw [hk] at h <;>
    simp only [orErr_eq_ok_iff, Option.map_eq_some_iff, Except.ok.injEq, reduceCtorEq] at h
  case string =>
    rw [← h]
    exact ⟨rfl, rfl⟩
  case bool | float | double =>
    obtain ⟨v, _, rfl⟩ := h
    exact ⟨rfl, rfl⟩
  case int32 | sint32 | sfixed32 | int64 | sint64 | sfixed64 =>
    obtain ⟨n, hn, rfl⟩ := h
    exact ⟨rfl, decide_eq_true (parseInt_range hn)⟩
  case uint32 | fixed32 | uint64 | fixed64 =>
    obtain ⟨n, hn, rfl⟩ := h
    exact ⟨rfl, decide_eq_true (parseUint_lt hn)⟩

theorem isScalar_of_comparable {kind : Kind} (h : comparableKind kind = true) :
    kind.isScalar = true := by
  cases kind <;> first | rfl | cases h

/-- The answers of the six operators to one comparison: one of `==`, `<` and
`>` holds, and each of the others is the negation of one of them. -/
structure Verdicts (answer : Op → Except QueryErr Bool) (isEq isLt isGt : Bool) : Prop where
  eq : answer .eq = .ok isEq
  lt : answer .lt = .ok isLt
  gt : answer .gt = .ok isGt
  ne : answer .ne = .ok (!isEq)
  gte : answer .gte = .ok (!isLt)
  lte : answer .lte = .ok (!isGt)
  exhaustive : isEq = true ∨ isLt = true ∨ isGt = true
  exclusive : ¬ (isEq = true ∧ isLt = true) ∧ ¬ (isEq = true ∧ isGt = true) ∧
    ¬ (isLt = true ∧ isGt = true)

theorem verdicts_test (cmp : Ordering) :
    Verdicts (fun op => op.test cmp) (cmp == .eq) (cmp == .lt) (cmp == .gt) := by
  cases cmp <;> constructor <;> decide

/-- The operators fail together, or all read the one comparison. -/
theorem evalCmp_cases (lib : Lib) (mdName : Bytes) (md : MessageDesc) (msg : Msg)
    (field value : Bytes) :
    (∃ e, ∀ op, evalCmp lib mdName md msg ⟨field, op, value⟩ = .error e) ∨
    ∃ fd lit, md.byName field = some fd ∧
      scalarValueFromString lib.parseFloat fd value = .ok lit ∧
      (fun op => evalCmp lib mdName md msg ⟨field, op, value⟩) =
        fun op => op.test (compareValues fd (msg.get fd) lit) := by
  unfold evalCmp
  -- every exit before the operator is looked at
  cases hfd : md.byName field with
  | none =>
      refine .inl ⟨.fieldMissing field mdName, fun op => ?_⟩
      simp only [hfd, orErr_none, error_bind]
  | some fd =>
      cases hscalar : fd.isList || fd.isMap || fd.kind == .message || fd.kind == .group with
      | true =>
          refine .inl ⟨.notScalar field, fun op => ?_⟩
          simp only [hfd, orErr_some, ok_bind, hscalar, reject_true, error_bind]
      | false =>
          cases hlit : scalarValueFromString lib.parseFloat fd value with
          | error e =>
              refine .inl ⟨.engine e, fun op => ?_⟩
              simp only [hfd, orErr_some, ok_bind, hscalar, reject_false, hlit]
              rfl
          | ok lit =>
              refine .inr ⟨fd, lit, rfl, hlit, funext fun op => ?_⟩
              simp only [hfd, orErr_some, ok_bind, hscalar, reject_false, hlit]
              rfl

/-- **The predicates are sound but for a NaN beside another value.**
`CompareValues` is a total order on some values of a comparable kind exactly if
no NaN is among them beside another value. On a document whose field has a
literal's kind one of `==`, `<`, `>` holds and the other operators are their
negations, a NaN or not; and `==` is exact of the literal unless one of the two
alone is a NaN, and only then it is not. -/
theorem comparison_sound (lib : Lib) (mdName : Bytes) (md : MessageDesc) (msg : Msg)
    (field value : Bytes) :
    (∀ fd : FieldDesc, comparableKind fd.kind = true →
      ∀ valid : Scalar → Prop, (∀ a, valid a → a.hasKind fd.kind = true) →
        (TotalOn (compareValues fd) valid ↔
          (valid (.float .nan) → ∀ a, valid a → a = .float .nan))) ∧
    (msg.recs.kinded = true →
      (∃ e, ∀ op, evalCmp lib mdName md msg ⟨field, op, value⟩ = .error e) ∨
      ∃ fd lit isEq isLt isGt, md.byName field = some fd ∧
        scalarValueFromString lib.parseFloat fd value = .ok lit ∧
        Verdicts (fun op => evalCmp lib mdName md msg ⟨field, op, value⟩) isEq isLt isGt ∧
        ((isEq = true ↔ msg.get fd = lit) ↔
          (msg.get fd = .float .nan ↔ lit = .float .nan))) := by
  refine ⟨fun fd h valid hkind => compareValues_total_iff h hkind, fun hmsg => ?_⟩
  rcases evalCmp_cases lib mdName md msg field value with herr | ⟨fd, lit, hfd, hlit, hall⟩
  · exact .inl herr
  · obtain ⟨hkind, hlitKind⟩ := scalarValueFromString_kind hlit
    have hverdicts := verdicts_test (compareValues fd (msg.get fd) lit)
    rw [← hall] at hverdicts
    refine .inr ⟨fd, lit, _, _, _, hfd, hlit, hverdicts, ?_⟩
    rw [beq_iff_eq]
    exact compareValues_eq_exact hkind (Msg.get_hasKind hmsg (isScalar_of_comparable hkind))
      hlitKind

/-! ## A sensor that reads NaN -/

/-- `message Reading \x7b double celsius = 1; \x7d`. -/
def celsiusField : FieldDesc := plainField ⟨ascii "celsius", by decide⟩ 1 .double []

def readingDesc : MessageDesc := .mk ⟨ascii "Reading", by decide⟩ [celsiusField] [] []

def reading (celsius : GoFloat) : Msg := ⟨readingDesc, .scalar 1 .double (.float celsius) .nil⟩

/-- `strconv.ParseFloat` on the texts used below. -/
def someFloats : Lib where
  parseFloat _ s :=
    if s = ascii "1" then some (.fin 1)
    else if s = ascii "2" then some (.fin 2)
    else if s = ascii "NaN" then some .nan
    else none
  sha256 := id

def celsiusIs (celsius : GoFloat) (op : Op) (literal : Bytes) : Except QueryErr Bool :=
  evalCmp someFloats (ascii "Reading") readingDesc (reading celsius) ⟨ascii "celsius", op, literal⟩

theorem comparison_sound_reading :
    celsiusIs (.fin 1) .eq (ascii "1") = .ok true ∧
    ∃ isEq isLt isGt, Verdicts (fun op => celsiusIs (.fin 2) op (ascii "1")) isEq isLt isGt := by
  refine ⟨by decide, ?_⟩
  rcases (comparison_sound someFloats (ascii "Reading") readingDesc (reading (.fin 2))
    (ascii "celsius") (ascii "1")).2 rfl with ⟨e, herr⟩ | ⟨_, _, isEq, isLt, isGt, _, _, h, _⟩
  · have hok : celsiusIs (.fin 2) .gt (ascii "1") = .ok true := by decide
    exact absurd ((herr .gt).symm.trans hok) nofun
  · exact ⟨isEq, isLt, isGt, h⟩

/-- **A stored NaN equals every literal**, the literal NaN equals every stored
value, and equality is not transitive: 1 is NaN is 2. -/
theorem nan_equals_all :
    celsiusIs .nan .eq (ascii "1") = .ok true ∧ celsiusIs .nan .eq (ascii "2") = .ok true ∧
    celsiusIs .nan .ne (ascii "1") = .ok false ∧
    celsiusIs (.fin 1) .eq (ascii "NaN") = .ok true ∧
    (reading .nan).get celsiusField ≠ .float (.fin 1) ∧
    compareValues celsiusField (.float (.fin 1)) (.float .nan) = .eq ∧
    compareValues celsiusField (.float .nan) (.float (.fin 2)) = .eq ∧
    compareValues celsiusField (.float (.fin 1)) (.float (.fin 2)) = .lt := by
  decide

end KoraDB.Query
