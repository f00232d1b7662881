import Mathlib.Data.List.Nodup
import Mathlib.Logic.Relation

/-!
# Depth-first ordering

A keyed graph is a lookup `κ → Option α` and the keys a node depends on. The
search marks a key, visits the dependencies of its node, and emits the node
behind them. It is total: `fuel` bounds the depth of the recursion.

`Emitted` is what every part of the search does to its state: it emits the
nodes of exactly the keys it newly marked, each once.

`Runs` is the recursion without a bound on its depth. With enough fuel the
search is such a run (`runs_foldl`), and there is only one (`Runs.unique`). What
it emits is in dependency order: a node comes before one that it depends on only
if the two are on a cycle (`Runs.sorted`).
-/

namespace KoraDB.Base.Dfs

variable {κ α : Type}

/-- The marked keys and the nodes emitted so far. -/
structure State (κ α : Type) where
  visited : List κ
  ordered : List α

/-- Visit one key. -/
def visit [DecidableEq κ] (lookup : κ → Option α) (deps : α → List κ) :
    Nat → State κ α → κ → State κ α
  | 0, st, _ => st
  | fuel + 1, st, k =>
    if k ∈ st.visited then st
    else
      let st := { st with visited := k :: st.visited }
      match lookup k with
      | none => st
      | some a =>
        let st := (deps a).foldl (visit lookup deps fuel) st
        { st with ordered := st.ordered ++ [a] }

/-- Visit a list of keys in turn and read off the nodes emitted. -/
def order [DecidableEq κ] (lookup : κ → Option α) (deps : α → List κ) (fuel : Nat)
    (roots : List κ) : List α :=
  (roots.foldl (visit lookup deps fuel) ⟨[], []⟩).ordered

variable {lookup : κ → Option α} {deps : α → List κ}

/-! ## What is emitted -/

/-- From `st` to `st'` the nodes `new` were emitted, by their keys: those of
exactly the newly marked keys, each once. -/
structure Emitted (lookup : κ → Option α) (st st' : State κ α) (new : List (κ × α)) : Prop where
  marks : st.visited ⊆ st'.visited
  ordered : st'.ordered = st.ordered ++ new.map Prod.snd
  nodup : (new.map Prod.fst).Nodup
  mem : ∀ k a, (k, a) ∈ new ↔ k ∈ st'.visited ∧ k ∉ st.visited ∧ lookup k = some a

/-- From `st` to `st'` exactly the nodes of the newly marked keys were
emitted, each once. -/
def Extends (lookup : κ → Option α) (st st' : State κ α) : Prop :=
  ∃ new, Emitted lookup st st' new

namespace Emitted

variable {st st₁ st₂ st₃ : State κ α} {new new₁ new₂ : List (κ × α)} {k : κ} {a : α}

theorem refl (st : State κ α) : Emitted lookup st st [] := by
  refine ⟨List.Subset.refl _, by simp, List.nodup_nil, ?_⟩
  intro k a
  constructor
  · intro h
    exact absurd h List.not_mem_nil
  · intro h
    exact absurd h.1 h.2.1

theorem append (h₁ : Emitted lookup st₁ st₂ new₁) (h₂ : Emitted lookup st₂ st₃ new₂) :
    Emitted lookup st₁ st₃ (new₁ ++ new₂) := by
  refine ⟨List.Subset.trans h₁.marks h₂.marks, ?_, ?_, ?_⟩
  · rw [h₂.ordered, h₁.ordered, List.map_append, List.append_assoc]
  · rw [List.map_append, List.nodup_append]
    refine ⟨h₁.nodup, h₂.nodup, ?_⟩
    -- what the second part emits was unmarked when the first part ended
    intro k hk k' hk' heq
    obtain ⟨⟨_, a⟩, ha, rfl⟩ := List.mem_map.mp hk
    obtain ⟨⟨_, a'⟩, ha', rfl⟩ := List.mem_map.mp hk'
    have hin := ((h₁.mem _ _).mp ha).1
    have hout := ((h₂.mem _ _).mp ha').2.1
    dsimp only at heq hin hout
    rw [heq] at hin
    exact hout hin
  · intro k a
    rw [List.mem_append, h₁.mem, h₂.mem]
    constructor
    · intro h
      rcases h with ⟨hin, hout, hl⟩ | ⟨hin, hout, hl⟩
      · exact ⟨h₂.marks hin, hout, hl⟩
      · exact ⟨hin, fun hk => hout (h₁.marks hk), hl⟩
    · intro h
      obtain ⟨hin, hout, hl⟩ := h
      by_cases hmid : k ∈ st₂.visited
      · exact .inl ⟨hmid, hout, hl⟩
      · exact .inr ⟨hin, hmid, hl⟩

/-- A key without a node is marked, and nothing is emitted. -/
theorem absent (hl : lookup k = none) :
    Emitted lookup st { st with visited := k :: st.visited } [] := by
  refine ⟨List.subset_cons_self _ _, by simp, List.nodup_nil, ?_⟩
  intro k' a
  constructor
  · intro h
    exact absurd h List.not_mem_nil
  · intro h
    obtain ⟨hin, hout, hl'⟩ := h
    rcases List.mem_cons.mp hin with h | h
    · rw [h, hl] at hl'
      cases hl'
    · exact absurd h hout

/-- A node is emitted behind what its dependencies emitted. -/
theorem node (hk : k ∉ st.visited) (hl : lookup k = some a)
    (h : Emitted lookup { st with visited := k :: st.visited } st₂ new) :
    Emitted lookup st { st₂ with ordered := st₂.ordered ++ [a] } (new ++ [(k, a)]) := by
  refine ⟨fun x hx => h.marks (List.mem_cons_of_mem _ hx), ?_, ?_, ?_⟩
  · simp only [h.ordered, List.map_append, List.map_cons, List.map_nil, List.append_assoc]
  · rw [List.map_append, List.nodup_append]
    refine ⟨h.nodup, List.nodup_singleton _, ?_⟩
    intro x hx y hy heq
    obtain ⟨⟨_, b⟩, hb, rfl⟩ := List.mem_map.mp hx
    have hfresh := ((h.mem _ _).mp hb).2.1
    rw [List.map_cons, List.map_nil, List.mem_singleton] at hy
    exact hfresh (List.mem_cons.mpr (.inl (heq.trans hy)))
  · intro k' b
    rw [List.mem_append, h.mem, List.mem_singleton, Prod.mk.injEq, List.mem_cons]
    constructor
    · intro hm
      rcases hm with ⟨hin, hout, hl'⟩ | ⟨rfl, rfl⟩
      · exact ⟨hin, fun hv => hout (.inr hv), hl'⟩
      · exact ⟨h.marks List.mem_cons_self, hk, hl⟩
    · intro hm
      obtain ⟨hin, hout, hl'⟩ := hm
      by_cases hkk : k' = k
      · rw [hkk, hl] at hl'
        exact .inr ⟨hkk, (Option.some.inj hl').symm⟩
      · exact .inl ⟨hin, fun hv => hv.elim hkk hout, hl'⟩

end Emitted

theorem Extends.refl (st : State κ α) : Extends lookup st st := ⟨[], .refl st⟩

theorem Extends.marks {st st' : State κ α} (h : Extends lookup st st') :
    st.visited ⊆ st'.visited := by
  obtain ⟨_, hnew⟩ := h
  exact hnew.marks

theorem Extends.trans {st₁ st₂ st₃ : State κ α} (h₁ : Extends lookup st₁ st₂)
    (h₂ : Extends lookup st₂ st₃) : Extends lookup st₁ st₃ := by
  obtain ⟨new₁, h₁⟩ := h₁
  obtain ⟨new₂, h₂⟩ := h₂
  exact ⟨new₁ ++ new₂, h₁.append h₂⟩

theorem extends_foldl {f : State κ α → κ → State κ α} (hf : ∀ st k, Extends lookup st (f st k))
    (ks : List κ) (st : State κ α) : Extends lookup st (ks.foldl f st) := by
  induction ks generalizing st with
  | nil => exact Extends.refl st
  | cons k ks ih => exact (hf st k).trans (ih (f st k))

/-! ## The recursion -/

/-- Visiting `ks` in turn from `st`, to any depth, ends in `st'`. -/
inductive Runs (lookup : κ → Option α) (deps : α → List κ) :
    State κ α → List κ → State κ α → Prop
  | nil (st : State κ α) : Runs lookup deps st [] st
  | marked {st st' : State κ α} {k : κ} {ks : List κ} (hk : k ∈ st.visited)
      (hrest : Runs lookup deps st ks st') : Runs lookup deps st (k :: ks) st'
  | absent {st st' : State κ α} {k : κ} {ks : List κ} (hk : k ∉ st.visited)
      (hl : lookup k = none)
      (hrest : Runs lookup deps { st with visited := k :: st.visited } ks st') :
      Runs lookup deps st (k :: ks) st'
  | node {st mid st' : State κ α} {k : κ} {ks : List κ} {a : α} (hk : k ∉ st.visited)
      (hl : lookup k = some a)
      (hdeps : Runs lookup deps { st with visited := k :: st.visited } (deps a) mid)
      (hrest : Runs lookup deps { mid with ordered := mid.ordered ++ [a] } ks st') :
      Runs lookup deps st (k :: ks) st'

/-- A run has one end. -/
theorem Runs.unique {st st₁ st₂ : State κ α} {ks : List κ} (h₁ : Runs lookup deps st ks st₁)
    (h₂ : Runs lookup deps st ks st₂) : st₁ = st₂ := by
  induction h₁ generalizing st₂ with
  | nil => cases h₂; rfl
  | marked hk _ ih =>
      cases h₂ with
      | marked _ hrest => exact ih hrest
      | absent hk' _ _ => exact absurd hk hk'
      | node hk' _ _ _ => exact absurd hk hk'
  | absent hk hl _ ih =>
      cases h₂ with
      | marked hk' _ => exact absurd hk' hk
      | absent _ _ hrest => exact ih hrest
      | node _ hl' _ _ =>
          rw [hl] at hl'
          cases hl'
  | node hk hl _ _ ihdeps ih =>
      cases h₂ with
      | marked hk' _ => exact absurd hk' hk
      | absent _ hl' _ =>
          rw [hl] at hl'
          cases hl'
      | node _ hl' hdeps hrest =>
          rw [hl] at hl'
          cases hl'
          rw [← ihdeps hdeps] at hrest
          exact ih hrest

/-! ## Dependency order -/

/-- Node `p` of the graph depends on node `q` of it. -/
def Edge (lookup : κ → Option α) (deps : α → List κ) (p q : κ) : Prop :=
  ∃ a, lookup p = some a ∧ q ∈ deps a ∧ (lookup q).isSome = true

/-- Whatever leads to a node of the graph is a node of it. -/
theorem isSome_of_reaches {p q : κ} (h : Relation.ReflTransGen (Edge lookup deps) p q)
    (hq : (lookup q).isSome = true) : (lookup p).isSome = true := by
  rcases h.cases_head with rfl | ⟨_, ⟨a, hp, _⟩, _⟩
  · exact hq
  · rw [hp]
    rfl

/-- Visiting `ks` from `st` emitted `new`, in dependency order. -/
structure Sorted (lookup : κ → Option α) (deps : α → List κ) (st : State κ α) (ks : List κ)
    (st' : State κ α) (new : List (κ × α)) : Prop extends Emitted lookup st st' new where
  /-- All keys asked for are marked. -/
  asked : ∀ k ∈ ks, k ∈ st'.visited
  /-- The keys emitted are reached from those asked for. -/
  reached : ∀ e ∈ new, ∃ k ∈ ks, Relation.ReflTransGen (Edge lookup deps) k e.1
  /-- The dependencies of what is emitted are marked. -/
  closed : ∀ e ∈ new, ∀ q ∈ deps e.2, q ∈ st'.visited
  /-- An earlier node depends on a later one only along a cycle. -/
  sorted : new.Pairwise fun e e' =>
    Edge lookup deps e.1 e'.1 → Relation.TransGen (Edge lookup deps) e'.1 e.1

namespace Sorted

variable {st st₁ st₂ st₃ : State κ α} {ks₁ ks₂ : List κ} {new new₁ new₂ : List (κ × α)} {k : κ}
  {a : α}

/-- Where nothing is emitted, only the keys asked for matter. -/
theorem of_emitted_nil (h : Emitted lookup st₁ st₂ []) (hasked : ∀ k ∈ ks₁, k ∈ st₂.visited) :
    Sorted lookup deps st₁ ks₁ st₂ [] where
  toEmitted := h
  asked := hasked
  reached _ he := absurd he List.not_mem_nil
  closed _ he := absurd he List.not_mem_nil
  sorted := List.Pairwise.nil

theorem append (h₁ : Sorted lookup deps st₁ ks₁ st₂ new₁)
    (h₂ : Sorted lookup deps st₂ ks₂ st₃ new₂) :
    Sorted lookup deps st₁ (ks₁ ++ ks₂) st₃ (new₁ ++ new₂) where
  toEmitted := h₁.toEmitted.append h₂.toEmitted
  asked := by
    intro k hk
    rcases List.mem_append.mp hk with hk | hk
    · exact h₂.marks (h₁.asked k hk)
    · exact h₂.asked k hk
  reached := by
    intro e he
    rcases List.mem_append.mp he with he | he
    · obtain ⟨k, hk, hreach⟩ := h₁.reached e he
      exact ⟨k, List.mem_append_left _ hk, hreach⟩
    · obtain ⟨k, hk, hreach⟩ := h₂.reached e he
      exact ⟨k, List.mem_append_right _ hk, hreach⟩
  closed := by
    intro e he q hq
    rcases List.mem_append.mp he with he | he
    · exact h₂.marks (h₁.closed e he q hq)
    · exact h₂.closed e he q hq
  sorted := by
    refine List.pairwise_append.mpr ⟨h₁.sorted, h₂.sorted, ?_⟩
    -- the first part has marked all it depends on, the second emits what was unmarked
    rintro ⟨p, b⟩ he ⟨q, c⟩ he' ⟨b', hb', hq, _⟩
    obtain ⟨_, _, hb⟩ := (h₁.mem p b).mp he
    rw [hb] at hb'
    cases hb'
    exact absurd (h₁.closed _ he q hq) ((h₂.mem q c).mp he').2.1

/-- A node behind its dependencies. If one of them depends on it in turn, that
one was reached from it. -/
theorem node (hk : k ∉ st.visited) (hl : lookup k = some a)
    (h : Sorted lookup deps { st with visited := k :: st.visited } (deps a) st₂ new) :
    Sorted lookup deps st [k] { st₂ with ordered := st₂.ordered ++ [a] } (new ++ [(k, a)]) := by
  have hbelow : ∀ e ∈ new, Relation.TransGen (Edge lookup deps) k e.1 := by
    intro e he
    obtain ⟨q, hq, hreach⟩ := h.reached e he
    have hnode : (lookup e.1).isSome = true := by
      rw [((h.mem e.1 e.2).mp he).2.2]
      rfl
    exact .head' ⟨a, hl, hq, isSome_of_reaches hreach hnode⟩ hreach
  refine ⟨h.toEmitted.node hk hl, ?_, ?_, ?_, ?_⟩
  · intro k' hk'
    rw [List.mem_singleton.mp hk']
    exact h.marks List.mem_cons_self
  · intro e he
    refine ⟨k, List.mem_singleton_self k, ?_⟩
    rcases List.mem_append.mp he with he | he
    · exact (hbelow e he).to_reflTransGen
    · rw [List.mem_singleton.mp he]
  · intro e he q hq
    rcases List.mem_append.mp he with he | he
    · exact h.closed e he q hq
    · rw [List.mem_singleton.mp he] at hq
      exact h.asked q hq
  · refine List.pairwise_append.mpr ⟨h.sorted, List.pairwise_singleton _ _, ?_⟩
    intro e he e' he' _
    rw [List.mem_singleton.mp he']
    exact hbelow e he

end Sorted

/-- **Dependency order.** Every run emits the nodes it newly reaches, each once
and behind its dependencies, cycles apart. -/
theorem Runs.sorted {st st' : State κ α} {ks : List κ} (h : Runs lookup deps st ks st') :
    ∃ new, Sorted lookup deps st ks st' new := by
  induction h with
  | nil st => exact ⟨[], .of_emitted_nil (.refl st) nofun⟩
  | @marked st _ k _ hk _ ih =>
      obtain ⟨new, hrest⟩ := ih
      have hone : Sorted lookup deps st [k] st [] := by
        refine .of_emitted_nil (.refl st) ?_
        intro k' hk'
        rw [List.mem_singleton.mp hk']
        exact hk
      exact ⟨_, hone.append hrest⟩
  | @absent st _ k _ _ hl _ ih =>
      obtain ⟨new, hrest⟩ := ih
      have hone : Sorted lookup deps st [k] { st with visited := k :: st.visited } [] := by
        refine .of_emitted_nil (.absent hl) ?_
        intro k' hk'
        rw [List.mem_singleton.mp hk']
        exact List.mem_cons_self
      exact ⟨_, hone.append hrest⟩
  | node hk hl _ _ ihdeps ih =>
      obtain ⟨below, hdeps⟩ := ihdeps
      obtain ⟨new, hrest⟩ := ih
      exact ⟨_, (hdeps.node hk hl).append hrest⟩

section Before

variable [BEq κ] [LawfulBEq κ] {new : List (κ × α)}

/-- In a graph without cycles a node stands behind the nodes it depends on. -/
theorem idxOf_lt_of_edge (hall : ∀ k a, (k, a) ∈ new ↔ lookup k = some a)
    (hsorted : new.Pairwise fun e e' =>
      Edge lookup deps e.1 e'.1 → Relation.TransGen (Edge lookup deps) e'.1 e.1)
    (hacyclic : ∀ k, ¬ Relation.TransGen (Edge lookup deps) k k) {p q : κ}
    (h : Edge lookup deps p q) :
    (new.map Prod.fst).idxOf q < (new.map Prod.fst).idxOf p := by
  have hkeys : (new.map Prod.fst).Pairwise fun x y => ¬ Edge lookup deps x y := by
    rw [List.pairwise_map]
    refine hsorted.imp ?_
    intro e e' hcycle hedge
    exact hacyclic _ ((hcycle hedge).tail hedge)
  have hmem : ∀ k, (lookup k).isSome = true → k ∈ new.map Prod.fst := by
    intro k hk
    obtain ⟨a, ha⟩ := Option.isSome_iff_exists.mp hk
    exact List.mem_map.mpr ⟨(k, a), (hall k a).mpr ha, rfl⟩
  obtain ⟨a, hp, hq, hnode⟩ := h
  have hip := List.idxOf_lt_length_of_mem (hmem p (by rw [hp]; rfl))
  have hiq := List.idxOf_lt_length_of_mem (hmem q hnode)
  rcases Nat.lt_trichotomy ((new.map Prod.fst).idxOf q) ((new.map Prod.fst).idxOf p)
    with hlt | heq | hgt
  · exact hlt
  · -- one position is one key, and a key on itself is a cycle
    have hsame : q = p := (List.idxOf_inj (hmem q hnode)).mp heq
    subst hsame
    exact absurd (.single ⟨a, hp, hq, hnode⟩) (hacyclic q)
  · have hnot := List.pairwise_iff_getElem.mp hkeys _ _ hip hiq hgt
    rw [List.getElem_idxOf, List.getElem_idxOf] at hnot
    exact absurd ⟨a, hp, hq, hnode⟩ hnot

/-- And behind all nodes these depend on. -/
theorem idxOf_lt_of_path (hall : ∀ k a, (k, a) ∈ new ↔ lookup k = some a)
    (hsorted : new.Pairwise fun e e' =>
      Edge lookup deps e.1 e'.1 → Relation.TransGen (Edge lookup deps) e'.1 e.1)
    (hacyclic : ∀ k, ¬ Relation.TransGen (Edge lookup deps) k k) {p q : κ}
    (h : Relation.TransGen (Edge lookup deps) p q) :
    (new.map Prod.fst).idxOf q < (new.map Prod.fst).idxOf p := by
  induction h with
  | single hedge => exact idxOf_lt_of_edge hall hsorted hacyclic hedge
  | tail _ hedge ih => exact Nat.lt_trans (idxOf_lt_of_edge hall hsorted hacyclic hedge) ih

end Before

variable [DecidableEq κ]

/-! ## One visit -/

section Visit

variable {fuel : Nat} {st : State κ α} {k : κ}

theorem visit_marked (hk : k ∈ st.visited) : visit lookup deps (fuel + 1) st k = st := by
  unfold visit
  rw [if_pos hk]

theorem visit_absent (hk : k ∉ st.visited) (hl : lookup k = none) :
    visit lookup deps (fuel + 1) st k = { st with visited := k :: st.visited } := by
  unfold visit
  rw [if_neg hk, hl]

theorem visit_node {a : α} (hk : k ∉ st.visited) (hl : lookup k = some a) :
    visit lookup deps (fuel + 1) st k =
      let mid := (deps a).foldl (visit lookup deps fuel) { st with visited := k :: st.visited }
      { mid with ordered := mid.ordered ++ [a] } := by
  rw [visit, if_neg hk, hl]

end Visit

theorem visit_extends (lookup : κ → Option α) (deps : α → List κ) (fuel : Nat) (st : State κ α)
    (k : κ) :
    Extends lookup st (visit lookup deps fuel st k) := by
  induction fuel generalizing st k with
  | zero => exact Extends.refl st
  | succ fuel ih =>
      by_cases hk : k ∈ st.visited
      · rw [visit_marked hk]
        exact Extends.refl st
      · cases hl : lookup k with
        | none =>
            rw [visit_absent hk hl]
            exact ⟨[], .absent hl⟩
        | some a =>
            rw [visit_node hk hl]
            obtain ⟨new, hnew⟩ :=
              extends_foldl ih (deps a) { st with visited := k :: st.visited }
            exact ⟨new ++ [(k, a)], .node hk hl hnew⟩

/-- A visit marks its key. -/
theorem mem_visited_visit {fuel : Nat} (hfuel : 0 < fuel) (st : State κ α) (k : κ) :
    k ∈ (visit lookup deps fuel st k).visited := by
  cases fuel with
  | zero => omega
  | succ fuel =>
      by_cases hk : k ∈ st.visited
      · rw [visit_marked hk]
        exact hk
      · cases hl : lookup k with
        | none =>
            rw [visit_absent hk hl]
            exact List.mem_cons_self
        | some a =>
            rw [visit_node hk hl]
            have h := extends_foldl (visit_extends lookup deps fuel) (deps a)
              { st with visited := k :: st.visited }
            exact h.marks List.mem_cons_self

/-- Every root is marked when its list has been visited. -/
theorem mem_visited_foldl {fuel : Nat} (hfuel : 0 < fuel) {roots : List κ} {k : κ}
    (hk : k ∈ roots) (st : State κ α) :
    k ∈ (roots.foldl (visit lookup deps fuel) st).visited := by
  induction roots generalizing st with
  | nil => exact absurd hk List.not_mem_nil
  | cons r roots ih =>
      rw [List.foldl_cons]
      rcases List.mem_cons.mp hk with rfl | hk
      · exact (extends_foldl (visit_extends lookup deps fuel) roots _).marks
          (mem_visited_visit hfuel st k)
      · exact ih hk _

/-- **Coverage.** When the roots cover the graph, the order lists every node
exactly once. -/
theorem order_covers (deps : α → List κ) {fuel : Nat} (hfuel : 0 < fuel) {roots : List κ}
    (hroots : ∀ k a, lookup k = some a → k ∈ roots) :
    ∃ new : List (κ × α), order lookup deps fuel roots = new.map Prod.snd ∧
      (new.map Prod.fst).Nodup ∧ ∀ k a, (k, a) ∈ new ↔ lookup k = some a := by
  obtain ⟨new, hnew⟩ := extends_foldl (visit_extends lookup deps fuel) roots ⟨[], []⟩
  refine ⟨new, hnew.ordered, hnew.nodup, ?_⟩
  intro k a
  rw [hnew.mem]
  constructor
  · intro h
    exact h.2.2
  · intro h
    exact ⟨mem_visited_foldl hfuel (hroots k a h) _, List.not_mem_nil, h⟩

/-! ## Unmarked keys -/

/-- The keys of the graph still unmarked. -/
def pending (dom : List κ) (st : State κ α) : Nat :=
  (dom.filter fun k => decide (k ∉ st.visited)).length

theorem pending_anti (dom : List κ) {st st' : State κ α} (h : st.visited ⊆ st'.visited) :
    pending dom st' ≤ pending dom st := by
  unfold pending
  refine (List.monotone_filter_right dom ?_).length_le
  intro k hk
  rw [decide_eq_true_eq] at hk ⊢
  exact fun hv => hk (h hv)

/-- Marking an unmarked key of the graph leaves fewer. -/
theorem pending_mark {dom : List κ} {k : κ} (hk : k ∈ dom) {st : State κ α}
    (hnew : k ∉ st.visited) :
    pending dom { st with visited := k :: st.visited } < pending dom st := by
  have hsub : (dom.filter fun x => decide (x ∉ k :: st.visited)).Sublist
      (dom.filter fun x => decide (x ∉ st.visited)) := by
    refine List.monotone_filter_right dom ?_
    intro x hx
    rw [decide_eq_true_eq] at hx ⊢
    exact fun hv => hx (List.mem_cons_of_mem _ hv)
  refine Nat.lt_of_le_of_ne hsub.length_le ?_
  intro heq
  have hall := hsub.eq_of_length heq
  have hmem : k ∈ dom.filter fun x => decide (x ∉ st.visited) :=
    List.mem_filter.mpr ⟨hk, decide_eq_true hnew⟩
  rw [← hall, List.mem_filter, decide_eq_true_eq] at hmem
  exact hmem.2 List.mem_cons_self

/-! ## Enough fuel -/

/-- **Termination.** With more fuel than unmarked keys, the search is a run of
the unbounded recursion. -/
theorem runs_foldl {dom : List κ} (hdom : ∀ k a, lookup k = some a → k ∈ dom) {fuel : Nat}
    {st : State κ α} (hfuel : pending dom st < fuel) (ks : List κ) :
    Runs lookup deps st ks (ks.foldl (visit lookup deps fuel) st) := by
  induction fuel generalizing st ks with
  | zero => omega
  | succ fuel ih =>
      induction ks generalizing st with
      | nil => exact .nil st
      | cons k ks ihks =>
          have hle := pending_anti dom (visit_extends lookup deps (fuel + 1) st k).marks
          have hrest : Runs lookup deps (visit lookup deps (fuel + 1) st k) ks _ :=
            ihks (by omega)
          rw [List.foldl_cons]
          generalize ks.foldl (visit lookup deps (fuel + 1)) _ = st' at hrest ⊢
          by_cases hk : k ∈ st.visited
          · rw [visit_marked hk] at hrest
            exact .marked hk hrest
          · cases hl : lookup k with
            | none =>
                rw [visit_absent hk hl] at hrest
                exact .absent hk hl hrest
            | some a =>
                rw [visit_node hk hl] at hrest
                have hlt := pending_mark (hdom k a hl) hk
                exact .node hk hl (ih (by omega) (deps a)) hrest

/-- The order is what the run from nothing emits. -/
theorem runs_order (deps : α → List κ) {fuel : Nat} {roots : List κ}
    (hroots : ∀ k a, lookup k = some a → k ∈ roots) (hfuel : roots.length < fuel) :
    ∃ st, Runs lookup deps ⟨[], []⟩ roots st ∧ st.ordered = order lookup deps fuel roots := by
  have hpending : pending roots (⟨[], []⟩ : State κ α) ≤ roots.length :=
    List.length_filter_le _ _
  exact ⟨_, runs_foldl hroots (by omega) roots, rfl⟩

end KoraDB.Base.Dfs
