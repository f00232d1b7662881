import KoraDB.Base.Run
import KoraDB.Schema.Registry

/-!
# Reopening a registry

Every record of the active catalog holds a snapshot of its import closure as
it was when the record was written, and `NewRegistry` lays the snapshots over
each other in the order of the record names. The live registry lays them over
each other in the order of registration. The two agree on a path exactly when
the last record that holds it, in name order, holds the live version.

`reopens_run_iff` says when a run of registrations keeps the two in agreement
throughout; `reopen_reverts_import` is a run of three registrations that does
not: an imported file is evolved, and a reopened database has its old version
back.
-/

namespace KoraDB.Schema

open KoraDB.Base KoraDB.Proto KoraDB.Catalog

/-! ## The last version of a path -/

/-- The last file of a path in a list. -/
def lastFile (p : Bytes) (fs : List FileProto) : Option FileProto :=
  fs.reverse.find? fun f => f.path == p

theorem lastFile_append (p : Bytes) (fs gs : List FileProto) :
    lastFile p (fs ++ gs) = (lastFile p gs).or (lastFile p fs) := by
  unfold lastFile
  rw [List.reverse_append, List.find?_append]

/-- Adding files in order leaves the last one of each path. -/
theorem get_addFiles (m : BMap FileProto) (fs : List FileProto) (p : Bytes) :
    (addFiles m fs)[p]? = (lastFile p fs).or m[p]? := by
  induction fs generalizing m with
  | nil => rfl
  | cons f fs ih =>
      show (addFiles (m.insert f.path f) fs)[p]? = (lastFile p ([f] ++ fs)).or m[p]?
      rw [ih, lastFile_append, BMap.get_insert]
      cases lastFile p fs with
      | some g => rfl
      | none =>
          by_cases hp : f.path = p
          · simp [lastFile, hp]
          · simp [lastFile, hp]

/-- A sorted snapshot holds what the map it was taken of holds. -/
theorem lastFile_topoSort {m : BMap FileProto} (hm : Keyed m) (p : Bytes) :
    lastFile p (topoSort m) = m[p]? := by
  cases h : lastFile p (topoSort m) with
  | some f =>
      unfold lastFile at h
      have hpath : f.path = p := by simpa using List.find?_some h
      obtain ⟨q, hq⟩ := mem_topoSort.mp (List.mem_reverse.mp (List.mem_of_find?_eq_some h))
      rw [← hpath, hm q f hq, hq]
  | none =>
      unfold lastFile at h
      cases hp : m[p]? with
      | none => rfl
      | some f =>
          have hmem : f ∈ (topoSort m).reverse := List.mem_reverse.mpr (mem_topoSort.mpr ⟨p, hp⟩)
          have hne := List.find?_eq_none.mp h f hmem
          rw [hm p f hp, beq_self_eq_true] at hne
          exact absurd rfl hne

/-! ## What a reopened registry sees -/

/-- The files of a stored record. -/
def snapshot (b : Blob) : List FileProto :=
  match SchemaRecord.unmarshal b with
  | some rec => rec.fdset
  | none => []

def snapshots (es : List (Bytes × Blob)) : List FileProto := es.flatMap fun e => snapshot e.2

/-- The snapshots under names before, at and behind `name`. -/
def filesBefore (s : Store) (name : Bytes) : List FileProto :=
  snapshots ((s.scan schemaBucket).filter fun e => decide (Before e.1 name))

@[inherit_doc filesBefore]
def filesAt (s : Store) (name : Bytes) : List FileProto :=
  snapshots ((s.scan schemaBucket).filter fun e => decide (e.1 = name))

@[inherit_doc filesBefore]
def filesBehind (s : Store) (name : Bytes) : List FileProto :=
  snapshots ((s.scan schemaBucket).filter fun e => decide (Before name e.1))

/-- Every record of the active catalog can be read. -/
def Readable (s : Store) : Prop :=
  ∀ k b, s.get schemaBucket k = some b → (SchemaRecord.unmarshal b).isSome = true

theorem foldlM_addFiles {es : List (Bytes × Blob)}
    (hes : ∀ e ∈ es, (SchemaRecord.unmarshal e.2).isSome = true) (m : BMap FileProto) :
    es.foldlM (fun m e => do
      let rec ← orErr (SchemaRecord.unmarshal e.2) SchemaErr.corruptRecord
      return addFiles m rec.fdset) m = .ok (addFiles m (snapshots es)) := by
  induction es generalizing m with
  | nil => rfl
  | cons e es ih =>
      obtain ⟨rec, hrec⟩ := Option.isSome_iff_exists.mp (hes e List.mem_cons_self)
      have hsnap : snapshots (e :: es) = rec.fdset ++ snapshots es := by
        simp [snapshots, snapshot, hrec]
      rw [List.foldlM_cons, hrec, orErr_some, ok_bind, hsnap, addFiles_append]
      exact ih (fun x hx => hes x (List.mem_cons_of_mem _ hx)) _

theorem loadFileProtos_eq {s : Store} (hs : Readable s) :
    loadFileProtos s = .ok (addFiles ∅ (snapshots (s.scan schemaBucket))) := by
  refine foldlM_addFiles ?_ ∅
  intro e he
  exact hs e.1 e.2 (Storage.Store.mem_scan.mp he)

/-- The last record to hold a path is looked for behind a name, at it, and
before it. -/
theorem lastFile_snapshots (s : Store) (name p : Bytes) :
    lastFile p (snapshots (s.scan schemaBucket)) =
      (lastFile p (filesBehind s name)).or
        ((lastFile p (filesAt s name)).or (lastFile p (filesBefore s name))) := by
  have hsplit := BMap.keySorted_split (Storage.Store.scan_sorted s schemaBucket) name
  have hfiles : snapshots (s.scan schemaBucket) =
      filesBefore s name ++ (filesAt s name ++ filesBehind s name) := by
    unfold filesBefore filesAt filesBehind snapshots
    conv_lhs => rw [hsplit]
    rw [List.flatMap_append, List.flatMap_append]
  rw [hfiles, lastFile_append, lastFile_append, Option.or_assoc]

/-- The live view and the store belong together: records are readable, files
are filed under their paths, and `files` is built from them. -/
structure Consistent (env : Env) (r : Registry) : Prop where
  readable : Readable r.store
  keyed : Keyed r.fileProtos
  built : (if r.fileProtos.isEmpty then .ok Files.empty else buildFiles env r.fileProtos) =
    (.ok r.files : Except SchemaErr Files)

/-- `NewRegistry` on the store of a registry gives back that registry: same
files by path, same resolvable descriptors. -/
def Reopens (env : Env) (r : Registry) : Prop := newRegistry env r.store = .ok r

/-- A consistent registry reopens as itself exactly when the last record
holding a path, in name order, holds its live version. -/
theorem reopens_iff {env : Env} {r : Registry} (hr : Consistent env r) :
    Reopens env r ↔ ∀ p, lastFile p (snapshots (r.store.scan schemaBucket)) = r.fileProtos[p]? := by
  have hget : ∀ p : Bytes, (addFiles ∅ (snapshots (r.store.scan schemaBucket)))[p]? =
      lastFile p (snapshots (r.store.scan schemaBucket)) := by
    intro p
    rw [get_addFiles]
    simp
  unfold Reopens newRegistry
  rw [loadFileProtos_eq hr.readable, ok_bind]
  constructor
  · intro h p
    rw [← hget]
    split at h
    · exact congrArg (fun r' : Registry => r'.fileProtos[p]?) (Except.ok.inj h)
    · obtain ⟨files, _, heq⟩ := bind_eq_ok_iff.mp h
      exact congrArg (fun r' : Registry => r'.fileProtos[p]?) (Except.ok.inj heq)
  · intro h
    have hmap : addFiles ∅ (snapshots (r.store.scan schemaBucket)) = r.fileProtos := by
      refine BMap.ext ?_
      intro p
      rw [hget, h p]
    have hbuilt := hr.built
    rw [hmap]
    split at hbuilt
    · rename_i hempty
      rw [if_pos hempty, Except.ok.inj hbuilt]
      rfl
    · rename_i hempty
      rw [if_neg hempty, hbuilt]
      rfl

/-! ## One registration -/

/-- The other records stay where they are. -/
theorem scan_filter_persist {s s' : Store} {rec : SchemaRecord} (h : persist s rec = .ok s')
    {keep : Bytes × Blob → Bool} (hkeep : ∀ e, keep e = true → e.1 ≠ rec.name) :
    (s'.scan schemaBucket).filter keep = (s.scan schemaBucket).filter keep := by
  have hget : ∀ k b, k ≠ rec.name →
      ((k, b) ∈ s'.scan schemaBucket ↔ (k, b) ∈ s.scan schemaBucket) := by
    intro k b hk
    rw [Storage.Store.mem_scan, Storage.Store.mem_scan, persist_active h, if_neg (Ne.symm hk)]
  refine BMap.keySorted_ext ((Storage.Store.scan_sorted _ _).filter _)
    ((Storage.Store.scan_sorted _ _).filter _) ?_
  intro k b
  rw [List.mem_filter, List.mem_filter]
  constructor
  · intro hm
    exact ⟨(hget k b (hkeep _ hm.2)).mp hm.1, hm.2⟩
  · intro hm
    exact ⟨(hget k b (hkeep _ hm.2)).mpr hm.1, hm.2⟩

theorem filesBefore_persist {s s' : Store} {rec : SchemaRecord} (h : persist s rec = .ok s') :
    filesBefore s' rec.name = filesBefore s rec.name ∧
      filesBehind s' rec.name = filesBehind s rec.name := by
  unfold filesBefore filesBehind
  rw [scan_filter_persist h fun e he => (of_decide_eq_true he).ne,
    scan_filter_persist h fun e he => (of_decide_eq_true he).ne.symm]
  exact ⟨rfl, rfl⟩

/-- The record of the name is the new one. -/
theorem filesAt_persist {s s' : Store} {rec : SchemaRecord} (h : persist s rec = .ok s') :
    filesAt s' rec.name = rec.fdset := by
  have hone : (s'.scan schemaBucket).filter (fun e => decide (e.1 = rec.name)) =
      [(rec.name, rec.marshal)] := by
    refine BMap.keySorted_ext ((Storage.Store.scan_sorted _ _).filter _)
      (List.pairwise_singleton _ _) ?_
    intro k b
    rw [List.mem_filter, Storage.Store.mem_scan, persist_active h, decide_eq_true_eq,
      List.mem_singleton, Prod.mk.injEq]
    constructor
    · intro hm
      rw [if_pos hm.2.symm] at hm
      exact ⟨hm.2, (Option.some.inj hm.1).symm⟩
    · intro hm
      rw [if_pos hm.1.symm, hm.2]
      exact ⟨rfl, hm.1⟩
  unfold filesAt
  rw [hone]
  simp [snapshots, snapshot, SchemaRecord.marshal, SchemaRecord.unmarshal]

theorem consistent_accepted {env : Env} {r r' : Registry} {name protoSource : Bytes}
    {createdUnix : Int} {version : Nat} {collected : BMap FileProto} (hr : Consistent env r)
    (h : Accepted env r r' name protoSource createdUnix version collected) :
    Consistent env r' := by
  refine ⟨?_, ?_, ?_⟩
  · intro k b hb
    rw [persist_active h.store] at hb
    split at hb
    · rw [← Option.some.inj hb]
      rfl
    · exact hr.readable k b hb
  · rw [h.fileProtos]
    exact keyed_overlay hr.keyed (keyed_closure h.closure)
  · by_cases hempty : r'.fileProtos.isEmpty = true
    · -- an accepted closure is never empty, but both sides are the empty set anyway
      rw [if_pos hempty]
      have hfiles := h.files
      unfold buildFiles at hfiles
      rw [orErr_eq_ok_iff] at hfiles
      congr 1
      refine Files.ext ?_
      rw [newFiles_files hfiles, Std.ExtTreeMap.isEmpty_iff.mp hempty, topoSort_empty]
      rfl
    · rw [if_neg hempty]
      exact h.files

/-- When the accepted registration of a closure can be undone by nobody:

* no record behind the name holds another version of a file of the closure;
* a file of the replaced snapshot that the new closure drops, and that no
  record behind the name holds, is held by the last record before it. -/
structure Restorable (s : Store) (name : Bytes) (collected : BMap FileProto) : Prop where
  unshadowed : ∀ (p : Bytes) (f g : FileProto), collected[p]? = some f →
    lastFile p (filesBehind s name) = some g → g = f
  undropped : ∀ (p : Bytes) (f : FileProto), lastFile p (filesAt s name) = some f →
    collected[p]? = none → lastFile p (filesBehind s name) = none →
    lastFile p (filesBefore s name) = some f

/-- Two ways to lay four snapshots over each other: the new closure in its
place among the records, or on top of all. -/
theorem overlay_order_iff {α : Type} (behind new at_ before : Option α) :
    behind.or (new.or before) = new.or (behind.or (at_.or before)) ↔
      (∀ f g, new = some f → behind = some g → g = f) ∧
      ∀ f, at_ = some f → new = none → behind = none → before = some f := by
  cases behind <;> cases new <;> cases at_ <;> cases before <;> simp [eq_comm]

/-- One accepted registration keeps a faithful registry faithful exactly when
its closure is restorable. -/
theorem reopens_accepted_iff {env : Env} {r r' : Registry} {name protoSource : Bytes}
    {createdUnix : Int} {version : Nat} {collected : BMap FileProto} (hr : Consistent env r)
    (hopen : Reopens env r)
    (h : Accepted env r r' name protoSource createdUnix version collected) :
    Reopens env r' ↔ Restorable r.store name collected := by
  rw [reopens_iff (consistent_accepted hr h)]
  have hlive := (reopens_iff hr).mp hopen
  obtain ⟨hbefore, hbehind⟩ := filesBefore_persist h.store
  have hat := filesAt_persist h.store
  have hpoint : ∀ p, (lastFile p (snapshots (r'.store.scan schemaBucket)) = r'.fileProtos[p]?) ↔
      (lastFile p (filesBehind r.store name)).or
          ((collected[p]?).or (lastFile p (filesBefore r.store name))) =
        (collected[p]?).or ((lastFile p (filesBehind r.store name)).or
          ((lastFile p (filesAt r.store name)).or (lastFile p (filesBefore r.store name)))) := by
    intro p
    rw [lastFile_snapshots r'.store name p, hbefore, hbehind, hat,
      lastFile_topoSort (keyed_closure h.closure), h.fileProtos, BMap.get_overlay, ← hlive p,
      lastFile_snapshots r.store name p]
  simp only [hpoint, overlay_order_iff]
  constructor
  · intro hall
    exact ⟨fun p f g => (hall p).1 f g, fun p f => (hall p).2 f⟩
  · intro hres p
    exact ⟨fun f g => hres.unshadowed p f g, fun f => hres.undropped p f⟩

/-! ## Runs of registrations -/

/-- The arguments of one `Register` call and its clock reading. -/
structure RegisterCall where
  name : Bytes
  source : Bytes
  createdUnix : Int

def stepRegister (env : Env) (r : Registry) (call : RegisterCall) : Registry :=
  (register env r call.name call.source call.createdUnix).1

/-- The registry of a new database. -/
def Registry.initial : Registry := ⟨.empty, ∅, Files.empty⟩

/-- A call is faithful: if it is accepted, its closure is restorable. -/
def Faithful (env : Env) (r : Registry) (call : RegisterCall) : Prop :=
  ∀ version collected,
    (register env r call.name call.source call.createdUnix).2 = .ok version →
    compileClosure env r.store call.name call.source = .ok collected →
    Restorable r.store call.name collected

theorem consistent_initial (env : Env) : Consistent env Registry.initial := by
  refine ⟨?_, keyed_empty, rfl⟩
  intro k b h
  rw [show Registry.initial.store = Storage.Store.empty from rfl, Storage.Store.get_empty] at h
  cases h

theorem consistent_step {env : Env} {r : Registry} (hr : Consistent env r) (call : RegisterCall) :
    Consistent env (stepRegister env r call) := by
  unfold stepRegister
  rcases register_cases env r call.name call.source call.createdUnix with
    ⟨e, he⟩ | ⟨r', version, collected, heq, hacc⟩
  · rw [he]
    exact hr
  · rw [heq]
    exact consistent_accepted hr hacc

theorem reopens_step_iff {env : Env} {r : Registry} (hr : Consistent env r)
    (hopen : Reopens env r) (call : RegisterCall) :
    Reopens env (stepRegister env r call) ↔ Faithful env r call := by
  unfold stepRegister Faithful
  rcases register_cases env r call.name call.source call.createdUnix with
    ⟨e, he⟩ | ⟨r', version, collected, heq, hacc⟩
  · rw [he]
    refine iff_of_true hopen ?_
    intro version collected hok
    cases hok
  · rw [heq, reopens_accepted_iff hr hopen hacc]
    constructor
    · intro h version' collected' _ hclosure
      rw [hacc.closure] at hclosure
      cases hclosure
      exact h
    · intro h
      exact h version collected rfl hacc.closure

/-- **Reopening.** A run of registrations leaves, after each of its calls, a
database that reopens with exactly the live schemas if and only if every
accepted call is faithful. -/
theorem reopens_run_iff (env : Env) (calls : List RegisterCall) :
    Always (stepRegister env) (Reopens env) Registry.initial calls ↔
      Each (stepRegister env) (Faithful env) Registry.initial calls := by
  have hI : ∀ r call, Consistent env r → Consistent env (stepRegister env r call) :=
    fun _ call hr => consistent_step hr call
  have hstep : ∀ r call, Consistent env r → Reopens env r →
      (Reopens env (stepRegister env r call) ↔ Faithful env r call) :=
    fun _ call hr hopen => reopens_step_iff hr hopen call
  exact always_iff_each hI hstep (consistent_initial env) rfl

/-! ## A run that is not faithful -/

/-- A compiler for sources that a table of parsed files covers: each source is
parsed by the table and its imports are looked up among the sources. -/
def tableLink (parse : Bytes → Bytes → Option FileProto) (sources : BMap Bytes) :
    Nat → Bytes → Option LinkedFile
  | 0, _ => none
  | depth + 1, path => do
    let text ← sources[path]?
    let proto ← parse path text
    let imports ← proto.dependency.mapM (tableLink parse sources depth)
    return .mk proto imports

def tableEnv (parse : Bytes → Bytes → Option FileProto) : Env where
  compile sources name :=
    match tableLink parse sources 8 name with
    | some fd => .ok [fd]
    | none => .error (ascii "not in the table")
  check _ := true
  digest _ := []

def money1 : Bytes :=
  ascii "syntax = \"proto3\"; package shop; message Money \x7b int64 units = 1; \x7d"

def money2 : Bytes :=
  ascii ("syntax = \"proto3\"; package shop; " ++
    "message Money \x7b int64 units = 1; string code = 2; \x7d")

def order1 : Bytes :=
  ascii ("syntax = \"proto3\"; package shop; import \"money.proto\"; " ++
    "message Order \x7b Money total = 1; \x7d")

/-- The three sources, parsed. -/
def shopParse (path text : Bytes) : Option FileProto :=
  let units := plainField ⟨ascii "units", by decide⟩ 1 .int64 []
  let code := plainField ⟨ascii "code", by decide⟩ 2 .string []
  let total := plainField ⟨ascii "total", by decide⟩ 1 .message (ascii "shop.Money")
  let money : Ident := ⟨ascii "Money", by decide⟩
  if text = money1 then some ⟨path, [shopPackage], [], [.mk money [units] [] []], []⟩
  else if text = money2 then some ⟨path, [shopPackage], [], [.mk money [units, code] [] []], []⟩
  else if text = order1 then
    some ⟨path, [shopPackage], [ascii "money.proto"],
      [.mk ⟨ascii "Order", by decide⟩ [total] [] []], []⟩
  else none

/-- `money.proto` is registered, imported by `order.proto`, and then gains a
field. `order.proto` sorts behind it and still holds the first version, which
is what a reopened database resolves. -/
theorem reopen_reverts_import :
    let env := tableEnv shopParse
    let r := run (stepRegister env) Registry.initial
      [⟨ascii "money.proto", money1, 0⟩, ⟨ascii "order.proto", order1, 0⟩,
        ⟨ascii "money.proto", money2, 0⟩]
    let fields (fs : Files) := (fs.findMessage (ascii "shop.Money")).map fun md => md.fields.length
    fields r.files = some 2 ∧
      (newRegistry env r.store).toOption.map (fun r' => fields r'.files) = some (some 1) ∧
      ¬ Reopens env r := by
  intro env r fields
  -- one evaluation for both registries: they share the run
  have hboth : fields r.files = some 2 ∧
      (newRegistry env r.store).toOption.map (fun r' => fields r'.files) = some (some 1) := by
    decide +kernel
  obtain ⟨hlive, hagain⟩ := hboth
  refine ⟨hlive, hagain, ?_⟩
  intro hopen
  unfold Reopens at hopen
  rw [hopen] at hagain
  have hsame : fields r.files = some 1 := Option.some.inj hagain
  rw [hlive] at hsame
  exact absurd hsame (by decide)

end KoraDB.Schema
