import KoraDB.Schema.Registry

/-!
# The order of a file set (`topoSort`)

`topoSort` visits the paths of its map in the order of their names and emits
every file behind the ones it depends on. The recursion is the depth-first
search of `Base.Dfs`, on the graph of the files that are in the map;
dependencies outside of it are marked and passed over.

Go ranges over a map in no particular order, and the paths are sorted before
they are visited. `visitOrder_unique` says that this leaves one order of visits
for each map.
-/

namespace KoraDB.Schema

open KoraDB.Base KoraDB.Proto Relation

/-- File `p` of the map depends on file `q` of the map. -/
abbrev DependsOn (m : BMap FileProto) : Bytes → Bytes → Prop :=
  Dfs.Edge (fun path => m[path]?) FileProto.dependency

/-- The loop of `topoSort` over `keys`, from the empty state, ends in `st`. -/
abbrev VisitsAll (m : BMap FileProto) (keys : List Bytes) (st : Dfs.State Bytes FileProto) : Prop :=
  Dfs.Runs (fun path => m[path]?) FileProto.dependency ⟨[], []⟩ keys st

/-! ## The order of visits -/

/-- However the keys of a map are enumerated, sorting them gives the one list. -/
theorem visitOrder_unique {m : BMap FileProto} {keys sorted : List Bytes}
    (hkeys : keys.Perm (m.toList.map Prod.fst)) (hperm : sorted.Perm keys)
    (hsorted : sorted.Pairwise fun a b => (compare a b).isLE = true) :
    sorted = m.toList.map Prod.fst := by
  have hpaths : (m.toList.map Prod.fst).Pairwise fun a b => (compare a b).isLE = true := by
    rw [List.pairwise_map]
    exact m.toList_sorted.imp fun h => isLE_iff.mpr (.inr h)
  refine (hperm.trans hkeys).eq_of_pairwise ?_ hsorted hpaths
  intro a b _ _ hab hba
  rcases isLE_iff.mp hab with heq | hlt
  · exact heq
  · exact absurd hba (by rw [not_isLE_iff.mpr hlt]; exact Bool.false_ne_true)

/-- The recursion ends, in one state, and has emitted the sorted files. -/
theorem visitsAll_topoSort (m : BMap FileProto) :
    ∃ st, VisitsAll m (m.toList.map Prod.fst) st ∧
      (∀ st', VisitsAll m (m.toList.map Prod.fst) st' → st' = st) ∧ st.ordered = topoSort m := by
  have hfuel : (m.toList.map Prod.fst).length < m.size + 1 := by
    rw [List.length_map, Std.ExtTreeMap.length_toList]
    omega
  obtain ⟨st, hrun, hord⟩ := Dfs.runs_order FileProto.dependency (fun _ _ => mem_paths) hfuel
  exact ⟨st, hrun, fun st' hrun' => hrun'.unique hrun, hord⟩

/-! ## The order of files -/

/-- The files of a sort with their paths: all of them, each once, and none
before one that it depends on unless the two are on a cycle. -/
theorem topoSort_paths (m : BMap FileProto) :
    ∃ new : List (Bytes × FileProto), topoSort m = new.map Prod.snd ∧
      (new.map Prod.fst).Nodup ∧ (∀ p f, (p, f) ∈ new ↔ m[p]? = some f) ∧
      new.Pairwise fun e e' => DependsOn m e.1 e'.1 → TransGen (DependsOn m) e'.1 e.1 := by
  obtain ⟨st, hrun, _, hord⟩ := visitsAll_topoSort m
  obtain ⟨new, hnew⟩ := hrun.sorted
  refine ⟨new, ?_, hnew.nodup, ?_, hnew.sorted⟩
  · rw [← hord, hnew.ordered]
    rfl
  · intro p f
    rw [hnew.mem]
    constructor
    · intro h
      exact h.2.2
    · intro h
      exact ⟨hnew.asked p (mem_paths h), List.not_mem_nil, h⟩

/-- **`topoSort` sorts.** For every map, with any dependencies, outside the map,
on the file itself or in cycles: in whichever order the keys are enumerated,
once sorted the recursion over them ends, in one way, and has emitted
`topoSort m`. That is a list of all files of the map, each once. Unless there is
a cycle in the map, a file comes behind all files of the map that it depends on,
directly or not. -/
theorem topoSort_correct (m : BMap FileProto) :
    (∀ keys sorted : List Bytes, keys.Perm (m.toList.map Prod.fst) → sorted.Perm keys →
      (sorted.Pairwise fun a b => (compare a b).isLE = true) →
      ∃ st, VisitsAll m sorted st ∧ (∀ st', VisitsAll m sorted st' → st' = st) ∧
        st.ordered = topoSort m) ∧
    (topoSort m).Perm (m.toList.map Prod.snd) ∧
    ∃ paths : List Bytes, paths.Nodup ∧ (∀ p, p ∈ paths ↔ p ∈ m) ∧
      (topoSort m).map some = paths.map (fun p => m[p]?) ∧
      ((∀ p, ¬ TransGen (DependsOn m) p p) →
        ∀ p q, TransGen (DependsOn m) p q → paths.idxOf q < paths.idxOf p) := by
  obtain ⟨new, hord, hnodup, hmem, hsorted⟩ := topoSort_paths m
  refine ⟨?_, ?_, new.map Prod.fst, hnodup, ?_, ?_, ?_⟩
  · intro keys sorted hkeys hperm hle
    rw [visitOrder_unique hkeys hperm hle]
    exact visitsAll_topoSort m
  · rw [hord]
    apply List.Perm.map
    have hentries : m.toList.Nodup := m.toList_sorted.imp fun h heq => h.ne (by rw [heq])
    apply (List.perm_ext_iff_of_nodup hnodup.of_map hentries).mpr
    rintro ⟨p, f⟩
    rw [hmem, BMap.mem_toList]
  · intro p
    rw [Std.ExtTreeMap.mem_iff_isSome_getElem?, Option.isSome_iff_exists, List.mem_map]
    constructor
    · rintro ⟨⟨_, f⟩, he, rfl⟩
      exact ⟨f, (hmem _ f).mp he⟩
    · rintro ⟨f, hf⟩
      exact ⟨(p, f), (hmem p f).mpr hf, rfl⟩
  · rw [hord, List.map_map, List.map_map]
    apply List.map_congr_left
    rintro ⟨p, f⟩ he
    exact ((hmem p f).mp he).symm
  · intro hacyclic p q hpath
    exact Dfs.idxOf_lt_of_path hmem hsorted hacyclic hpath

/-! ## Three files -/

/-- `a.proto` imports `b.proto` and a file outside the map, `b.proto` imports
`c.proto`: the sort starts from the end of the alphabet. -/
def alphabet : BMap FileProto :=
  let file (path : String) (imports : List String) : FileProto :=
    ⟨ascii path, [], imports.map ascii, [], []⟩
  addFiles ∅ [file "b.proto" ["c.proto"], file "a.proto" ["other.proto", "b.proto"],
    file "c.proto" []]

theorem dependsOn_alphabet {p q : Bytes} (h : DependsOn alphabet p q) : Before p q := by
  have hall : (alphabet.toList.all fun e => e.2.dependency.all fun q =>
      !(alphabet[q]?).isSome || decide (Before e.1 q)) = true := by decide +kernel
  obtain ⟨f, hf, hq, hin⟩ := h
  have hone := List.all_eq_true.mp
    (List.all_eq_true.mp hall (p, f) (BMap.mem_toList.mpr hf)) q hq
  rw [hin] at hone
  exact of_decide_eq_true hone

theorem topoSort_correct_alphabet :
    (∃ st, VisitsAll alphabet [ascii "a.proto", ascii "b.proto", ascii "c.proto"] st ∧
      st.ordered = topoSort alphabet) ∧
    ∃ paths : List Bytes, (topoSort alphabet).map some = paths.map (fun p => alphabet[p]?) ∧
      paths.idxOf (ascii "c.proto") < paths.idxOf (ascii "a.proto") := by
  have hacyclic : ∀ p, ¬ TransGen (DependsOn alphabet) p p := by
    have hbefore : ∀ p q, TransGen (DependsOn alphabet) p q → Before p q := by
      intro p q hpath
      induction hpath with
      | single hedge => exact dependsOn_alphabet hedge
      | tail _ hedge ih => exact ih.trans (dependsOn_alphabet hedge)
    intro p hcycle
    exact Before.irrefl p (hbefore p p hcycle)
  have hedges : DependsOn alphabet (ascii "a.proto") (ascii "b.proto") ∧
      DependsOn alphabet (ascii "b.proto") (ascii "c.proto") :=
    ⟨⟨_, rfl, by decide, by decide +kernel⟩, ⟨_, rfl, by decide, by decide +kernel⟩⟩
  obtain ⟨hvisits, _, paths, _, _, hpaths, hbefore⟩ := topoSort_correct alphabet
  refine ⟨?_, paths, hpaths, hbefore hacyclic _ _ ((TransGen.single hedges.1).tail hedges.2)⟩
  obtain ⟨st, hst, _, hord⟩ := hvisits [ascii "c.proto", ascii "a.proto", ascii "b.proto"]
    [ascii "a.proto", ascii "b.proto", ascii "c.proto"]
    (by decide +kernel) (by decide) (by decide)
  exact ⟨st, hst, hord⟩

end KoraDB.Schema
