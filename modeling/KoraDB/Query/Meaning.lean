import KoraDB.Query.Filter

/-!
# The meaning of a filter

Over a valuation of its comparisons a filter is a Boolean formula: `And` is
the conjunction of its members, `Or` their disjunction, and no filter at all
is true. `eval` stops early and can fail; when it gives a value, this is the
value of the formula, whatever a comparison that was not reached would say.
-/

namespace KoraDB.Query

open KoraDB.Base KoraDB.Proto KoraDB.Engine

/-! ## Formulas -/

mutual

/-- The value of a filter whose comparisons have the values `holds`. -/
def Filter.meaning (holds : Cmp → Bool) : Filter → Bool
  | .nil => true
  | .cmp c => holds c
  | .and filters => meaningAll holds filters
  | .or filters => meaningAny holds filters
  | .unknown => false

def meaningAll (holds : Cmp → Bool) : List Filter → Bool
  | [] => true
  | sub :: rest => sub.meaning holds && meaningAll holds rest

def meaningAny (holds : Cmp → Bool) : List Filter → Bool
  | [] => false
  | sub :: rest => sub.meaning holds || meaningAny holds rest

end

theorem meaningAll_eq (holds : Cmp → Bool) (filters : List Filter) :
    meaningAll holds filters = filters.all (Filter.meaning holds) := by
  induction filters with
  | nil => rfl
  | cons sub rest ih => rw [meaningAll, ih, List.all_cons]

theorem meaningAny_eq (holds : Cmp → Bool) (filters : List Filter) :
    meaningAny holds filters = filters.any (Filter.meaning holds) := by
  induction filters with
  | nil => rfl
  | cons sub rest ih => rw [meaningAny, ih, List.any_cons]

/-- `And` is all of its members. -/
@[simp] theorem Filter.meaning_and (holds : Cmp → Bool) (filters : List Filter) :
    (Filter.and filters).meaning holds = filters.all (Filter.meaning holds) := by
  rw [Filter.meaning, meaningAll_eq]

/-- `Or` is any of its members. -/
@[simp] theorem Filter.meaning_or (holds : Cmp → Bool) (filters : List Filter) :
    (Filter.or filters).meaning holds = filters.any (Filter.meaning holds) := by
  rw [Filter.meaning, meaningAny_eq]

section Evaluation

variable {lib : Lib} {mdName : Bytes} {md : MessageDesc} {msg : Msg} {holds : Cmp → Bool}

mutual

/-- A value of `eval` is the value of the formula. -/
theorem eval_meaning
    (hcmp : ∀ c v, evalCmp lib mdName md msg c = .ok v → holds c = v) :
    ∀ (filter : Filter) {v : Bool}, eval lib mdName md msg filter = .ok v →
      filter.meaning holds = v
  | .nil, v, h => by
      rw [eval] at h
      cases h
      rfl
  | .cmp c, v, h => by
      rw [eval] at h
      rw [Filter.meaning]
      exact hcmp c v h
  | .and filters, v, h => by
      rw [eval] at h
      rw [Filter.meaning]
      exact evalAnd_meaning hcmp filters h
  | .or filters, v, h => by
      rw [eval] at h
      rw [Filter.meaning]
      exact evalOr_meaning hcmp filters h
  | .unknown, v, h => by
      rw [eval] at h
      cases h

theorem evalAnd_meaning
    (hcmp : ∀ c v, evalCmp lib mdName md msg c = .ok v → holds c = v) :
    ∀ (filters : List Filter) {v : Bool}, evalAnd lib mdName md msg filters = .ok v →
      meaningAll holds filters = v
  | [], v, h => by
      rw [evalAnd] at h
      cases h
      rfl
  | sub :: rest, v, h => by
      rw [evalAnd] at h
      obtain ⟨ok, hsub, hrest⟩ := bind_eq_ok_iff.mp h
      rw [meaningAll, eval_meaning hcmp sub hsub]
      cases ok with
      | true =>
          rw [Bool.true_and]
          exact evalAnd_meaning hcmp rest hrest
      | false =>
          -- the rest was not evaluated and does not matter
          cases hrest
          rfl

theorem evalOr_meaning
    (hcmp : ∀ c v, evalCmp lib mdName md msg c = .ok v → holds c = v) :
    ∀ (filters : List Filter) {v : Bool}, evalOr lib mdName md msg filters = .ok v →
      meaningAny holds filters = v
  | [], v, h => by
      rw [evalOr] at h
      cases h
      rfl
  | sub :: rest, v, h => by
      rw [evalOr] at h
      obtain ⟨ok, hsub, hrest⟩ := bind_eq_ok_iff.mp h
      rw [meaningAny, eval_meaning hcmp sub hsub]
      cases ok with
      | true =>
          cases hrest
          rfl
      | false =>
          rw [Bool.false_or]
          exact evalOr_meaning hcmp rest hrest

end

end Evaluation

/-! ## Comparisons -/

/-- The outcomes of `CompareValues` an operator stands for. -/
def Op.holds (op : Op) (cmp : Ordering) : Bool :=
  if op = Op.eq then cmp.isEq
  else if op = Op.ne then cmp.isNe
  else if op = Op.gt then cmp.isGT
  else if op = Op.gte then cmp.isGE
  else if op = Op.lt then cmp.isLT
  else decide (op = Op.lte) && cmp.isLE

/-- The field of the message compares with the literal as the operator says. -/
def Cmp.holds (parseFloat : ParseFloat) (msg : Msg) (c : Cmp) : Bool :=
  match msg.descriptor.byName c.field with
  | none => false
  | some fd =>
    match scalarValueFromString parseFloat fd c.value with
    | .error _ => false
    | .ok literal => c.op.holds (compareValues fd (msg.get fd) literal)

theorem Op.test_eq_ok {op : Op} {cmp : Ordering} {v : Bool} (h : op.test cmp = .ok v) :
    op.holds cmp = v := by
  unfold Op.test at h
  unfold Op.holds
  split_ifs at h ⊢ with heq hne hgt hgte hlt hlte
  all_goals cases h
  · cases cmp <;> rfl
  · cases cmp <;> rfl
  · cases cmp <;> rfl
  · cases cmp <;> rfl
  · cases cmp <;> rfl
  · cases cmp <;> simp [hlte]

theorem evalCmp_holds {lib : Lib} {mdName : Bytes} {msg : Msg} {c : Cmp} {v : Bool}
    (h : evalCmp lib mdName msg.descriptor msg c = .ok v) :
    c.holds lib.parseFloat msg = v := by
  simp only [evalCmp, bind_eq_ok_iff, orErr_eq_ok_iff, wrap_eq_ok_iff] at h
  obtain ⟨fd, hfd, _, _, lit, hlit, htest⟩ := h
  unfold Cmp.holds
  rw [hfd]
  show (match scalarValueFromString lib.parseFloat fd c.value with
    | .error _ => false
    | .ok literal => c.op.holds (compareValues fd (msg.get fd) literal)) = v
  rw [hlit]
  exact Op.test_eq_ok htest

/-- The message satisfies the filter. -/
def Filter.holds (parseFloat : ParseFloat) (filter : Filter) (msg : Msg) : Bool :=
  filter.meaning (Cmp.holds parseFloat msg)

theorem eval_holds {lib : Lib} {mdName : Bytes} {msg : Msg} {filter : Filter} {v : Bool}
    (h : eval lib mdName msg.descriptor msg filter = .ok v) :
    filter.holds lib.parseFloat msg = v :=
  eval_meaning (fun _ _ hc => evalCmp_holds hc) filter h

/-! ## Filters of the package -/

mutual

/-- The filter has no part of a type that `eval` does not know. -/
def Filter.known : Filter → Bool
  | .nil => true
  | .cmp _ => true
  | .and filters => allKnown filters
  | .or filters => allKnown filters
  | .unknown => false

def allKnown : List Filter → Bool
  | [] => true
  | sub :: rest => sub.known && allKnown rest

end

mutual

/-- Such a filter has a signature. -/
theorem writeFilterSignature_known :
    ∀ filter : Filter, filter.known = true → ∃ b, writeFilterSignature filter = .ok b
  | .nil, _ => ⟨_, by rw [writeFilterSignature]⟩
  | .cmp _, _ => ⟨_, by rw [writeFilterSignature]⟩
  | .and filters, h => by
      rw [Filter.known] at h
      obtain ⟨b, hb⟩ := writeFilterSignatures_known filters h
      exact ⟨_, by rw [writeFilterSignature, hb]; rfl⟩
  | .or filters, h => by
      rw [Filter.known] at h
      obtain ⟨b, hb⟩ := writeFilterSignatures_known filters h
      exact ⟨_, by rw [writeFilterSignature, hb]; rfl⟩
  | .unknown, h => by
      rw [Filter.known] at h
      cases h

theorem writeFilterSignatures_known :
    ∀ filters : List Filter, allKnown filters = true → ∃ b, writeFilterSignatures filters = .ok b
  | [], _ => ⟨[], by rw [writeFilterSignatures]⟩
  | sub :: rest, h => by
      rw [allKnown, Bool.and_eq_true] at h
      obtain ⟨b, hb⟩ := writeFilterSignature_known sub h.1
      obtain ⟨bs, hbs⟩ := writeFilterSignatures_known rest h.2
      exact ⟨_, by rw [writeFilterSignatures, hb, ok_bind, hbs]; rfl⟩

end

theorem filterHash_known (lib : Lib) {filter : Filter} (h : filter.known = true) :
    ∃ hash, filterHash lib filter = .ok hash := by
  obtain ⟨b, hb⟩ := writeFilterSignature_known filter h
  exact ⟨_, by rw [filterHash, hb]; rfl⟩

end KoraDB.Query
