import KoraDB.Server.Handlers

/-!
# Which filters the service accepts (`internal/server/server.go`)

`toFilter` walks a wire filter with the depth as an argument and one budget of
comparisons that the whole walk shares. What it accepts is a condition on the
tree alone: every part is set, no group is empty or has a nil member, every
operator is one of the six, and the tree is neither too deep nor too large
(`toFilter_exact`). The converted filter is the same tree.
-/

namespace KoraDB.Server

open KoraDB.Base

/-! ## Wire filters as trees -/

/-- The operators of the wire contract. -/
def wireOps : List (Int × Query.Op) :=
  [(1, .eq), (2, .ne), (3, .gt), (4, .gte), (5, .lt), (6, .lte)]

/-- The operator has a meaning. -/
def specifiedOp (op : Int) : Bool := (wireOps.map Prod.fst).contains op

mutual

/-- Every node is set, every group has members and none of them is nil, and
every operator is specified. -/
def PbFilter.complete : PbFilter → Bool
  | .absent => false
  | .unset => false
  | .cmp none => false
  | .cmp (some c) => specifiedOp c.op
  | .andGroup filters => !filters.isEmpty && allComplete filters
  | .orGroup filters => !filters.isEmpty && allComplete filters

def allComplete : List PbFilter → Bool
  | [] => true
  | f :: rest => f.complete && allComplete rest

end

mutual

/-- How deep the nodes nest; a comparison alone has depth one. -/
def PbFilter.depth : PbFilter → Nat
  | .absent => 0
  | .unset | .cmp _ => 1
  | .andGroup filters => maxDepth filters + 1
  | .orGroup filters => maxDepth filters + 1

def maxDepth : List PbFilter → Nat
  | [] => 0
  | f :: rest => max f.depth (maxDepth rest)

end

mutual

/-- How many comparisons the tree holds. -/
def PbFilter.comparisons : PbFilter → Nat
  | .absent | .unset => 0
  | .cmp _ => 1
  | .andGroup filters => sumComparisons filters
  | .orGroup filters => sumComparisons filters

def sumComparisons : List PbFilter → Nat
  | [] => 0
  | f :: rest => f.comparisons + sumComparisons rest

end

mutual

/-- The filter is the wire filter: the same shape with the same fields, values,
operators and order of members. Neither side is nil. -/
def Mirrors : PbFilter → Query.Filter → Prop
  | .cmp (some c), .cmp q => q.field = c.field ∧ (c.op, q.op) ∈ wireOps ∧ q.value = c.value
  | .andGroup filters, .and subs => MirrorsAll filters subs
  | .orGroup filters, .or subs => MirrorsAll filters subs
  | _, _ => False

def MirrorsAll : List PbFilter → List Query.Filter → Prop
  | [], [] => True
  | f :: rest, q :: qs => Mirrors f q ∧ MirrorsAll rest qs
  | _, _ => False

end

mutual

/-- The number of nodes of a filter. -/
def filterNodes : Query.Filter → Nat
  | .nil | .cmp _ | .unknown => 1
  | .and subs => sumNodes subs + 1
  | .or subs => sumNodes subs + 1

def sumNodes : List Query.Filter → Nat
  | [] => 0
  | q :: qs => filterNodes q + sumNodes qs

end

mutual

/-- The filter has no nil in it. -/
def nilFree : Query.Filter → Bool
  | .nil => false
  | .cmp _ | .unknown => true
  | .and subs => allNilFree subs
  | .or subs => allNilFree subs

def allNilFree : List Query.Filter → Bool
  | [] => true
  | q :: qs => nilFree q && allNilFree qs

end

/-! ## The walk -/

theorem toOp_eq_ok_iff {op : Int} {q : Query.Op} : toOp op = .ok q ↔ (op, q) ∈ wireOps := by
  unfold toOp wireOps
  constructor
  · intro h
    repeat' split at h
    all_goals cases h
    all_goals simp_all
  · intro h
    simp only [List.mem_cons, Prod.mk.injEq, List.not_mem_nil, or_false] at h
    rcases h with ⟨rfl, rfl⟩ | ⟨rfl, rfl⟩ | ⟨rfl, rfl⟩ | ⟨rfl, rfl⟩ | ⟨rfl, rfl⟩ | ⟨rfl, rfl⟩
    all_goals rfl

theorem specifiedOp_iff {op : Int} : specifiedOp op = true ↔ ∃ q, (op, q) ∈ wireOps := by
  unfold specifiedOp
  rw [List.contains_iff_mem, List.mem_map]
  constructor
  · rintro ⟨⟨o, q⟩, hmem, rfl⟩
    exact ⟨q, hmem⟩
  · rintro ⟨q, hmem⟩
    exact ⟨(op, q), hmem, rfl⟩

theorem le_maxFilterDepth {depth : Nat} (h : depth < 33) : depth ≤ maxFilterDepth :=
  Nat.le_of_lt_succ h

/-- A group of either kind is complete when it has members and they are, and one
deeper than they are. -/
theorem group_ok {depth : Nat} {filters : List PbFilter} (hempty : filters.isEmpty = false)
    (hall : allComplete filters = true)
    (hdepth : filters ≠ [] → depth + 1 + maxDepth filters ≤ 33) :
    (!filters.isEmpty && allComplete filters) = true ∧ depth + (maxDepth filters + 1) ≤ 33 := by
  refine ⟨by rw [hempty, hall]; rfl, ?_⟩
  have hmembers := hdepth (by simpa using hempty)
  omega

mutual

/-- What a successful walk found: a complete tree within both limits, which it
copied, and what it left of the budget. -/
theorem toFilterWithLimits_ok {depth : Nat} {budget : Int} :
    ∀ (f : PbFilter) {q : Query.Filter} {left : Int}, f ≠ .absent → 0 ≤ budget →
      toFilterWithLimits depth budget f = .ok (q, left) →
      f.complete = true ∧ depth + f.depth ≤ 33 ∧ left = budget - f.comparisons ∧ 0 ≤ left ∧
        Mirrors f q
  | .absent, _, _, hne, _, _ => absurd rfl hne
  | .unset, _, _, _, _, h => absurd h not_toFilterWithLimits_unset
  | .cmp c, q, left, _, _, h => by
      obtain ⟨hdepth, hbudget, rfl, c', op, rfl, hop, rfl⟩ := toFilterWithLimits_cmp_iff.mp h
      rw [toOp_eq_ok_iff] at hop
      refine ⟨specifiedOp_iff.mpr ⟨op, hop⟩, ?_, ?_, hbudget, rfl, hop, rfl⟩
      · show depth + 1 ≤ maxFilterDepth + 1
        omega
      · show budget - 1 = budget - ((1 : Nat) : Int)
        rfl
  | .andGroup filters, q, left, _, hbudget, h => by
      obtain ⟨_, hempty, subs, hsubs, rfl⟩ := toFilterWithLimits_andGroup_iff.mp h
      obtain ⟨hall, hdepth, hleft, hnonneg, hmirror⟩ := toFiltersWithLimits_ok filters hbudget hsubs
      obtain ⟨hcomplete, hbound⟩ := group_ok hempty hall hdepth
      exact ⟨hcomplete, hbound, hleft, hnonneg, hmirror⟩
  | .orGroup filters, q, left, _, hbudget, h => by
      obtain ⟨_, hempty, subs, hsubs, rfl⟩ := toFilterWithLimits_orGroup_iff.mp h
      obtain ⟨hall, hdepth, hleft, hnonneg, hmirror⟩ := toFiltersWithLimits_ok filters hbudget hsubs
      obtain ⟨hcomplete, hbound⟩ := group_ok hempty hall hdepth
      exact ⟨hcomplete, hbound, hleft, hnonneg, hmirror⟩

theorem toFiltersWithLimits_ok {depth : Nat} {budget : Int} :
    ∀ (fs : List PbFilter) {qs : List Query.Filter} {left : Int}, 0 ≤ budget →
      toFiltersWithLimits depth budget fs = .ok (qs, left) →
      allComplete fs = true ∧ (fs ≠ [] → depth + maxDepth fs ≤ 33) ∧
        left = budget - sumComparisons fs ∧ 0 ≤ left ∧ MirrorsAll fs qs
  | [], qs, left, hbudget, h => by
      -- nothing is checked of an empty list: its group was refused before
      rw [toFiltersWithLimits] at h
      cases h
      refine ⟨rfl, fun hne => absurd rfl hne, ?_, hbudget, trivial⟩
      show budget = budget - ((0 : Nat) : Int)
      omega
  | f :: rest, qs, left, hbudget, h => by
      obtain ⟨habsent, q, mid, qs', hq, hqs, rfl⟩ := toFiltersWithLimits_cons_iff.mp h
      obtain ⟨hc, hd, hmid, hmid0, hm⟩ := toFilterWithLimits_ok f habsent hbudget hq
      obtain ⟨hcs, hds, hleft, hleft0, hms⟩ := toFiltersWithLimits_ok rest hmid0 hqs
      refine ⟨?_, ?_, ?_, hleft0, hm, hms⟩
      · rw [allComplete, hc, hcs]
        rfl
      · -- the bound of the tail is only there when the tail is not empty
        intro _
        rw [maxDepth]
        cases rest with
        | nil =>
            rw [maxDepth, Nat.max_zero]
            exact hd
        | cons f' rest' =>
            have := hds (List.cons_ne_nil _ _)
            omega
      · rw [sumComparisons]
        push_cast
        omega

end

mutual

/-- A complete tree within both limits passes. -/
theorem toFilterWithLimits_of {depth : Nat} {budget : Int} :
    ∀ (f : PbFilter), f.complete = true → depth + f.depth ≤ 33 → (f.comparisons : Int) ≤ budget →
      ∃ q, toFilterWithLimits depth budget f = .ok (q, budget - f.comparisons)
  | .absent, hc, _, _ => by cases hc
  | .unset, hc, _, _ => by cases hc
  | .cmp none, hc, _, _ => by cases hc
  | .cmp (some c), hc, hdepth, hbudget => by
      obtain ⟨op, hop⟩ := specifiedOp_iff.mp hc
      change depth + 1 ≤ maxFilterDepth + 1 at hdepth
      change ((1 : Nat) : Int) ≤ budget at hbudget
      exact ⟨_, toFilterWithLimits_cmp_iff.mpr
        ⟨by omega, by omega, rfl, c, op, rfl, toOp_eq_ok_iff.mpr hop, rfl⟩⟩
  | .andGroup filters, hc, hdepth, hbudget => by
      rw [PbFilter.complete, Bool.and_eq_true, Bool.not_eq_true'] at hc
      rw [PbFilter.depth] at hdepth
      rw [PbFilter.comparisons] at hbudget
      obtain ⟨qs, hqs⟩ := @toFiltersWithLimits_of (depth + 1) budget filters hc.2 (by omega) hbudget
      exact ⟨.and qs, toFilterWithLimits_andGroup_iff.mpr
        ⟨le_maxFilterDepth (by omega), hc.1, qs, hqs, rfl⟩⟩
  | .orGroup filters, hc, hdepth, hbudget => by
      rw [PbFilter.complete, Bool.and_eq_true, Bool.not_eq_true'] at hc
      rw [PbFilter.depth] at hdepth
      rw [PbFilter.comparisons] at hbudget
      obtain ⟨qs, hqs⟩ := @toFiltersWithLimits_of (depth + 1) budget filters hc.2 (by omega) hbudget
      exact ⟨.or qs, toFilterWithLimits_orGroup_iff.mpr
        ⟨le_maxFilterDepth (by omega), hc.1, qs, hqs, rfl⟩⟩

theorem toFiltersWithLimits_of {depth : Nat} {budget : Int} :
    ∀ (fs : List PbFilter), allComplete fs = true → depth + maxDepth fs ≤ 33 →
      (sumComparisons fs : Int) ≤ budget →
      ∃ qs, toFiltersWithLimits depth budget fs = .ok (qs, budget - sumComparisons fs)
  | [], _, _, _ => by
      refine ⟨[], ?_⟩
      rw [toFiltersWithLimits, sumComparisons]
      simp
  | f :: rest, hc, hdepth, hbudget => by
      rw [allComplete, Bool.and_eq_true] at hc
      rw [maxDepth] at hdepth
      rw [sumComparisons] at hbudget ⊢
      push_cast at hbudget ⊢
      have habsent : f ≠ .absent := by
        rintro rfl
        cases hc.1
      -- the members share the budget, one after the other
      obtain ⟨q, hq⟩ := @toFilterWithLimits_of depth budget f hc.1 (by omega) (by omega)
      obtain ⟨qs, hqs⟩ := @toFiltersWithLimits_of depth (budget - f.comparisons) rest hc.2
        (by omega) (by omega)
      refine ⟨q :: qs, toFiltersWithLimits_cons_iff.mpr ⟨habsent, q, _, qs, hq, ?_, rfl⟩⟩
      rw [hqs, Int.sub_sub]

end

/-! ## The converted filter -/

mutual

theorem nilFree_of_mirrors : ∀ (f : PbFilter) {q : Query.Filter}, Mirrors f q → nilFree q = true
  | .cmp (some _), .cmp _, _ => rfl
  | .andGroup filters, .and _, h => by
      rw [nilFree]
      exact allNilFree_of_mirrors filters h
  | .orGroup filters, .or _, h => by
      rw [nilFree]
      exact allNilFree_of_mirrors filters h

theorem allNilFree_of_mirrors :
    ∀ (fs : List PbFilter) {qs : List Query.Filter}, MirrorsAll fs qs → allNilFree qs = true
  | [], [], _ => rfl
  | f :: rest, _ :: _, ⟨hq, hqs⟩ => by
      rw [allNilFree, nilFree_of_mirrors f hq, allNilFree_of_mirrors rest hqs]
      rfl

end

mutual

/-- A group has members, so a complete tree ends in comparisons. -/
theorem comparisons_pos : ∀ (f : PbFilter), f.complete = true → 1 ≤ f.comparisons
  | .cmp _, _ => Nat.le_refl 1
  | .andGroup filters, hc => by
      rw [PbFilter.complete, Bool.and_eq_true, Bool.not_eq_true'] at hc
      exact sumComparisons_pos filters hc.2 (by simpa using hc.1)
  | .orGroup filters, hc => by
      rw [PbFilter.complete, Bool.and_eq_true, Bool.not_eq_true'] at hc
      exact sumComparisons_pos filters hc.2 (by simpa using hc.1)

theorem sumComparisons_pos :
    ∀ (fs : List PbFilter), allComplete fs = true → fs ≠ [] → 1 ≤ sumComparisons fs
  | [], _, hne => absurd rfl hne
  | f :: rest, hc, _ => by
      rw [allComplete, Bool.and_eq_true] at hc
      have := comparisons_pos f hc.1
      rw [sumComparisons]
      omega

end

/-- A group adds one node to those of its members, and it has a comparison to
count the node on. -/
theorem group_nodes_le {nodes depth comparisons : Nat} (hle : nodes ≤ depth * comparisons)
    (hpos : 1 ≤ comparisons) : nodes + 1 ≤ (depth + 1) * comparisons := by
  rw [Nat.add_mul, Nat.one_mul]
  omega

mutual

/-- Every node lies on the way to a comparison, and a way is no longer than the
tree is deep. -/
theorem filterNodes_le :
    ∀ (f : PbFilter) {q : Query.Filter}, f.complete = true → Mirrors f q →
      filterNodes q ≤ f.depth * f.comparisons
  | .cmp (some _), .cmp _, _, _ => Nat.le_refl 1
  | .andGroup filters, .and _, hc, h => by
      have hpos := comparisons_pos (.andGroup filters) hc
      rw [PbFilter.complete, Bool.and_eq_true] at hc
      exact group_nodes_le (sumNodes_le filters hc.2 h) hpos
  | .orGroup filters, .or _, hc, h => by
      have hpos := comparisons_pos (.orGroup filters) hc
      rw [PbFilter.complete, Bool.and_eq_true] at hc
      exact group_nodes_le (sumNodes_le filters hc.2 h) hpos

theorem sumNodes_le :
    ∀ (fs : List PbFilter) {qs : List Query.Filter}, allComplete fs = true → MirrorsAll fs qs →
      sumNodes qs ≤ maxDepth fs * sumComparisons fs
  | [], [], _, _ => Nat.zero_le _
  | f :: rest, q :: qs, hc, ⟨hq, hqs⟩ => by
      rw [allComplete, Bool.and_eq_true] at hc
      rw [sumNodes, maxDepth, sumComparisons, Nat.mul_add]
      calc filterNodes q + sumNodes qs
          ≤ f.depth * f.comparisons + maxDepth rest * sumComparisons rest :=
            Nat.add_le_add (filterNodes_le f hc.1 hq) (sumNodes_le rest hc.2 hqs)
        _ ≤ _ := Nat.add_le_add (Nat.mul_le_mul_right _ (Nat.le_max_left _ _))
            (Nat.mul_le_mul_right _ (Nat.le_max_right _ _))

end

/-! ## What is accepted -/

/-- The filter is well formed and within the limits of the service. -/
def PbFilter.bounded (f : PbFilter) : Bool :=
  f.complete && decide (f.depth ≤ 32) && decide (f.comparisons ≤ 64)

theorem toFilter_ok {f : PbFilter} {q : Query.Filter} (hf : f ≠ .absent)
    (h : toFilter f = .ok q) : f.bounded = true ∧ Mirrors f q := by
  simp only [toFilter, bind_eq_ok_iff, Prod.exists, pure, Except.pure, Except.ok.injEq] at h
  obtain ⟨_, left, hq, rfl⟩ := h
  obtain ⟨hc, hdepth, hleft, hnonneg, hm⟩ := toFilterWithLimits_ok f hf (by decide) hq
  have hcount : f.comparisons ≤ 64 := by
    change left = 64 - _ at hleft
    omega
  refine ⟨?_, hm⟩
  rw [PbFilter.bounded, hc, decide_eq_true hcount, decide_eq_true (by omega)]
  rfl

theorem toFilter_of_bounded {f : PbFilter} (h : f.bounded = true) : ∃ q, toFilter f = .ok q := by
  rw [PbFilter.bounded, Bool.and_eq_true, Bool.and_eq_true, decide_eq_true_eq,
    decide_eq_true_eq] at h
  obtain ⟨⟨hc, hdepth⟩, hcount⟩ := h
  obtain ⟨q, hq⟩ := @toFilterWithLimits_of 1 maxFilterPredicates f hc (by omega)
    (by change _ ≤ (64 : Int); omega)
  refine ⟨q, ?_⟩
  rw [toFilter, hq]
  rfl

/-- **The translation accepts exactly the bounded well-formed filters, and
copies them.** The root alone may be nil. -/
theorem toFilter_exact (f : PbFilter) :
    ((∃ q, toFilter f = .ok q) ↔
      f = .absent ∨ (f.complete = true ∧ f.depth ≤ 32 ∧ f.comparisons ≤ 64)) ∧
    ∀ q, toFilter f = .ok q →
      (f = .absent ∧ q = .nil ∨ Mirrors f q ∧ nilFree q = true) ∧ filterNodes q ≤ 32 * 64 := by
  have hbounded : f.bounded = true ↔ f.complete = true ∧ f.depth ≤ 32 ∧ f.comparisons ≤ 64 := by
    rw [PbFilter.bounded, Bool.and_eq_true, Bool.and_eq_true, decide_eq_true_eq,
      decide_eq_true_eq, and_assoc]
  by_cases hf : f = .absent
  · subst hf
    refine ⟨⟨fun _ => .inl rfl, fun _ => ⟨.nil, rfl⟩⟩, fun q h => ?_⟩
    cases h
    exact ⟨.inl ⟨rfl, rfl⟩, by decide⟩
  · refine ⟨⟨?_, ?_⟩, fun q h => ?_⟩
    · rintro ⟨q, h⟩
      exact .inr (hbounded.mp (toFilter_ok hf h).1)
    · rintro (habsent | h)
      · exact absurd habsent hf
      · exact toFilter_of_bounded (hbounded.mpr h)
    · obtain ⟨hb, hm⟩ := toFilter_ok hf h
      obtain ⟨hc, hdepth, hcount⟩ := hbounded.mp hb
      refine ⟨.inr ⟨hm, nilFree_of_mirrors f hm⟩, ?_⟩
      exact Nat.le_trans (filterNodes_le f hc hm) (Nat.mul_le_mul hdepth hcount)

end KoraDB.Server
