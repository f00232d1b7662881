import KoraDB.Base.Dfs
import KoraDB.Base.Strconv
import KoraDB.Catalog.Records
import KoraDB.Schema.Compat

/-!
# Layer 1: the schema registry (`internal/schema`)

A registry compiles `.proto` sources, keeps the accumulated files of every
accepted schema, and persists one record per schema name: its source and a
snapshot of its whole import closure. `NewRegistry` rebuilds the accumulated
files from the records in name order.

The protobuf compiler, the part of `protodesc.NewFiles` that is not in
`Proto.wellFormed`, and the digest of a serialized file set are parameters
(`Env`). The clock reading of a call is one of its arguments.
-/

namespace KoraDB.Schema

open KoraDB.Base KoraDB.Proto KoraDB.Catalog

inductive SchemaErr
  | corruptRecord
  | compile (name : Bytes) (text : Bytes)
  | noFiles (name : Bytes)
  | rebuild
  | incompatible (e : CompatErr)
  | storage (e : Storage.StoreErr)
  | notFound (name : Bytes)
  | notMessage (name : Bytes)
  deriving DecidableEq

/-- A linked file as the compiler returns it: its descriptor and the linked
files it imports. -/
inductive LinkedFile where
  | mk (proto : FileProto) (imports : List LinkedFile)

/-- What the registry uses of other packages. `compile` is
`protocompile.Compiler.Compile` over a map of sources, with the standard
imports available; its error is the message. -/
structure Env where
  compile : BMap Bytes → Bytes → Except Bytes (List LinkedFile)
  check : List FileProto → Bool
  digest : List FileProto → Bytes

/-- `schemaBucket`. -/
def schemaBucket : Bytes := ascii "__schemas__"

/-- `schemaHistoryBucket`. -/
def schemaHistoryBucket : Bytes := ascii "__schema_history__"

/-- `schema.Registry`. -/
structure Registry where
  store : Store
  fileProtos : BMap FileProto
  files : Files

/-! ## File sets -/

mutual

/-- `collectFiles`: a file and everything it imports, by path. -/
def collectFiles (out : BMap FileProto) : LinkedFile → BMap FileProto
  | .mk proto imports =>
    if out.contains proto.path then out
    else collectImports (out.insert proto.path proto) imports

/-- The loop over imports in `collectFiles`. -/
def collectImports (out : BMap FileProto) : List LinkedFile → BMap FileProto
  | [] => out
  | fd :: rest => collectImports (collectFiles out fd) rest

end

/-- `topoSort`. The recursion is never deeper than the number of files plus
one for a dependency outside the map. -/
def topoSort (m : BMap FileProto) : List FileProto :=
  Dfs.order (fun path => m[path]?) FileProto.dependency (m.size + 1) (m.toList.map Prod.fst)

/-- `buildFiles`. -/
def buildFiles (env : Env) (m : BMap FileProto) : Except SchemaErr Files :=
  orErr (newFiles env.check (topoSort m)) .rebuild

/-! ## Opening -/

/-- `for _, fp := range fdset.File { fileProtos[fp.GetName()] = fp }`. -/
def addFiles (m : BMap FileProto) (fs : List FileProto) : BMap FileProto :=
  fs.foldl (fun m fp => m.insert fp.path fp) m

/-- The scan of `loadFromStore`: every record's snapshot over the ones
before it. -/
def loadFileProtos (s : Store) : Except SchemaErr (BMap FileProto) :=
  (s.scan schemaBucket).foldlM (fun m e => do
    let rec ← orErr (SchemaRecord.unmarshal e.2) .corruptRecord
    return addFiles m rec.fdset) ∅

/-- `NewRegistry`. -/
def newRegistry (env : Env) (s : Store) : Except SchemaErr Registry := do
  let fileProtos ← loadFileProtos s
  if fileProtos.isEmpty then
    return ⟨s, fileProtos, Files.empty⟩
  else
    let files ← buildFiles env fileProtos
    return ⟨s, fileProtos, files⟩

/-! ## Registering -/

/-- `activeSources`. -/
def activeSources (s : Store) : Except SchemaErr (BMap Bytes) :=
  (s.scan schemaBucket).foldlM (fun m e => do
    let rec ← orErr (SchemaRecord.unmarshal e.2) .corruptRecord
    return m.insert rec.name rec.source) ∅

/-- The first half of `Register`: compile the source among the active ones and
collect its import closure. -/
def compileClosure (env : Env) (s : Store) (name protoSource : Bytes) :
    Except SchemaErr (BMap FileProto) := do
  let sources ← activeSources s
  let compiled ← wrap (env.compile (sources.insert name protoSource) name) (.compile name)
  let fd ← orErr compiled.head? (.noFiles name)
  return collectFiles ∅ fd

/-- The version after the stored one; an unreadable record counts as none. -/
def nextVersion (s : Store) (name : Bytes) : Nat :=
  match (s.get schemaBucket name).bind SchemaRecord.unmarshal with
  | some prev => prev.version + 1
  | none => 1

/-- `schemaHistoryKey`. -/
def schemaHistoryKey (name : Bytes) (version : Nat) : Bytes :=
  name ++ 0x00 :: formatPadded version

/-- The transaction that persists an accepted schema. -/
def persist (s : Store) (rec : SchemaRecord) : Except SchemaErr Store := do
  let s ← wrap (s.put schemaBucket rec.name rec.marshal) .storage
  wrap (s.put schemaHistoryBucket (schemaHistoryKey rec.name rec.version) rec.marshal) .storage

/-- `Register` up to and including activation: the new registry, and the
version. -/
def accept (env : Env) (r : Registry) (name protoSource : Bytes) (createdUnix : Int) :
    Except SchemaErr (Registry × Nat) := do
  let collected ← compileClosure env r.store name protoSource
  let fdset := topoSort collected
  let candidateProtos := BMap.overlay r.fileProtos collected
  let candidateFiles ← buildFiles env candidateProtos
  if r.fileProtos.contains name then
    wrap (ensureFileCompatible r.files candidateFiles name) .incompatible
  let version := nextVersion r.store name
  let store ← persist r.store
    { name := name, source := protoSource, version := version, fdset := fdset,
      digest := env.digest fdset, createdUnix := createdUnix }
  return (⟨store, candidateProtos, candidateFiles⟩, version)

/-- `Register`; a failed call leaves the registry as it was. -/
def register (env : Env) (r : Registry) (name protoSource : Bytes) (createdUnix : Int) :
    Registry × Except SchemaErr Nat :=
  match accept env r name protoSource createdUnix with
  | .ok (r', version) => (r', .ok version)
  | .error e => (r, .error e)

/-! ## Lookups -/

/-- `MessageDescriptor`. -/
def messageDescriptor (fs : Files) (fqName : Bytes) : Except SchemaErr MessageDesc :=
  match fs.findDescriptorByName fqName with
  | none => .error (.notFound fqName)
  | some (.message md) => .ok md
  | some (.enum _) => .error (.notMessage fqName)

/-- `ListSchemas`, as the records behind the summaries. -/
def listSchemas (s : Store) : Except SchemaErr (List SchemaRecord) :=
  (s.scan schemaBucket).mapM fun e => orErr (SchemaRecord.unmarshal e.2) .corruptRecord

theorem messageDescriptor_eq_ok_iff {fs : Files} {n : Bytes} {md : MessageDesc} :
    messageDescriptor fs n = .ok md ↔ fs.findMessage n = some md := by
  unfold messageDescriptor Files.findMessage
  cases fs.findDescriptorByName n with
  | none => simp
  | some sym => cases sym <;> simp

/-! ## File sets: what the functions compute -/

/-- Every file is filed under its own path. -/
def Keyed (m : BMap FileProto) : Prop := ∀ (p : Bytes) (f : FileProto), m[p]? = some f → f.path = p

theorem keyed_empty : Keyed ∅ := by
  intro p f h
  simp at h

theorem keyed_insert {m : BMap FileProto} (h : Keyed m) (f : FileProto) :
    Keyed (m.insert f.path f) := by
  intro p g hg
  rw [BMap.get_insert] at hg
  split at hg
  · rename_i hp
    rw [← Option.some.inj hg]
    exact hp
  · exact h p g hg

theorem keyed_overlay {dst src : BMap FileProto} (hd : Keyed dst) (hs : Keyed src) :
    Keyed (BMap.overlay dst src) := by
  intro p f h
  rw [BMap.get_overlay, Option.or_eq_some_iff] at h
  rcases h with h | ⟨_, h⟩
  · exact hs p f h
  · exact hd p f h

mutual

theorem keyed_collectFiles {out : BMap FileProto} (h : Keyed out) (fd : LinkedFile) :
    Keyed (collectFiles out fd) := by
  match fd with
  | .mk proto imports =>
    unfold collectFiles
    split
    · exact h
    · exact keyed_collectImports (keyed_insert h proto) imports

theorem keyed_collectImports {out : BMap FileProto} (h : Keyed out) (fds : List LinkedFile) :
    Keyed (collectImports out fds) := by
  match fds with
  | [] => exact h
  | fd :: rest => exact keyed_collectImports (keyed_collectFiles h fd) rest

end

/-- The paths of a map are the roots of its sort. -/
theorem mem_paths {m : BMap FileProto} {p : Bytes} {f : FileProto} (h : m[p]? = some f) :
    p ∈ m.toList.map Prod.fst :=
  List.mem_map.mpr ⟨(p, f), BMap.mem_toList.mpr h, rfl⟩

/-- `topoSort` lists the files of the map and no others. -/
theorem mem_topoSort {m : BMap FileProto} {f : FileProto} :
    f ∈ topoSort m ↔ ∃ p : Bytes, m[p]? = some f := by
  obtain ⟨new, hord, _, hnew⟩ := Dfs.order_covers FileProto.dependency
    (Nat.succ_pos m.size) fun _ _ => mem_paths
  unfold topoSort
  rw [hord, List.mem_map]
  constructor
  · intro h
    obtain ⟨⟨p, g⟩, hg, rfl⟩ := h
    exact ⟨p, (hnew p g).mp hg⟩
  · intro h
    obtain ⟨p, hp⟩ := h
    exact ⟨(p, f), (hnew p f).mpr hp, rfl⟩

theorem topoSort_empty : topoSort ∅ = [] := by
  rw [List.eq_nil_iff_forall_not_mem]
  intro f hf
  obtain ⟨p, hp⟩ := mem_topoSort.mp hf
  simp at hp

/-! ## What acceptance does -/

theorem addFiles_append (m : BMap FileProto) (fs gs : List FileProto) :
    addFiles m (fs ++ gs) = addFiles (addFiles m fs) gs := List.foldl_append

/-- Everything an accepted registration did. -/
structure Accepted (env : Env) (r r' : Registry) (name protoSource : Bytes) (createdUnix : Int)
    (version : Nat) (collected : BMap FileProto) : Prop where
  closure : compileClosure env r.store name protoSource = .ok collected
  fileProtos : r'.fileProtos = BMap.overlay r.fileProtos collected
  files : buildFiles env r'.fileProtos = .ok r'.files
  compatible : r.fileProtos.contains name = true →
    ensureFileCompatible r.files r'.files name = .ok ()
  version_eq : version = nextVersion r.store name
  store : persist r.store
    { name := name, source := protoSource, version := version, fdset := topoSort collected,
      digest := env.digest (topoSort collected), createdUnix := createdUnix } = .ok r'.store

theorem accept_eq_ok {env : Env} {r r' : Registry} {name protoSource : Bytes} {createdUnix : Int}
    {version : Nat} (h : accept env r name protoSource createdUnix = .ok (r', version)) :
    ∃ collected, Accepted env r r' name protoSource createdUnix version collected := by
  simp only [accept, bind_eq_ok_iff] at h
  obtain ⟨collected, hclosure, files, hfiles, h⟩ := h
  by_cases hact : r.fileProtos.contains name = true
  · rw [if_pos hact] at h
    obtain ⟨_, hcompat, h⟩ := bind_eq_ok_iff.mp h
    obtain ⟨store, hstore, heq⟩ := bind_eq_ok_iff.mp h
    cases heq
    exact ⟨collected, hclosure, rfl, hfiles, fun _ => wrap_eq_ok_iff.mp hcompat, rfl, hstore⟩
  · rw [if_neg hact] at h
    obtain ⟨store, hstore, heq⟩ := bind_eq_ok_iff.mp h
    cases heq
    exact ⟨collected, hclosure, rfl, hfiles, fun hc => absurd hc hact, rfl, hstore⟩

/-- The two outcomes of `Register`. -/
theorem register_cases (env : Env) (r : Registry) (name protoSource : Bytes) (createdUnix : Int) :
    (∃ e, register env r name protoSource createdUnix = (r, .error e)) ∨
      ∃ r' version collected, register env r name protoSource createdUnix = (r', .ok version) ∧
        Accepted env r r' name protoSource createdUnix version collected := by
  unfold register
  cases h : accept env r name protoSource createdUnix with
  | error e => exact .inl ⟨e, rfl⟩
  | ok res =>
      obtain ⟨r', version⟩ := res
      obtain ⟨collected, hacc⟩ := accept_eq_ok h
      exact .inr ⟨r', version, collected, rfl, hacc⟩

theorem keyed_closure {env : Env} {s : Store} {name protoSource : Bytes}
    {collected : BMap FileProto} (h : compileClosure env s name protoSource = .ok collected) :
    Keyed collected := by
  simp only [compileClosure, bind_eq_ok_iff, pure, Except.pure, Except.ok.injEq] at h
  obtain ⟨_, _, _, _, fd, _, rfl⟩ := h
  exact keyed_collectFiles keyed_empty fd

/-- The two entries of the transaction; the rest stays. -/
theorem persist_get {s s' : Store} {rec : SchemaRecord} (h : persist s rec = .ok s')
    (b k : Bytes) : s'.get b k =
      if schemaHistoryBucket = b ∧ schemaHistoryKey rec.name rec.version = k then some rec.marshal
      else if schemaBucket = b ∧ rec.name = k then some rec.marshal
      else s.get b k := by
  simp only [persist, bind_eq_ok_iff, wrap_eq_ok_iff] at h
  obtain ⟨s₁, h₁, h₂⟩ := h
  rw [Storage.Store.get_put h₂, Storage.Store.get_put h₁]

theorem persist_sequence {s s' : Store} {rec : SchemaRecord} (h : persist s rec = .ok s')
    (b : Bytes) : s'.sequence b = s.sequence b := by
  simp only [persist, bind_eq_ok_iff, wrap_eq_ok_iff] at h
  obtain ⟨s₁, h₁, h₂⟩ := h
  rw [Storage.Store.sequence_put h₂, Storage.Store.sequence_put h₁]

/-- The buckets registration does not write keep their entries and counters. -/
theorem persist_frame {s s' : Store} {rec : SchemaRecord} (h : persist s rec = .ok s') :
    (∀ b k, b ≠ schemaBucket → b ≠ schemaHistoryBucket → s'.get b k = s.get b k) ∧
      ∀ b, s'.sequence b = s.sequence b := by
  refine ⟨?_, persist_sequence h⟩
  intro b k hb hb'
  rw [persist_get h, if_neg fun hc => hb' hc.1.symm, if_neg fun hc => hb hc.1.symm]

/-- The active record of the name is the new one; the others stay. -/
theorem persist_active {s s' : Store} {rec : SchemaRecord} (h : persist s rec = .ok s')
    (k : Bytes) : s'.get schemaBucket k =
      if rec.name = k then some rec.marshal else s.get schemaBucket k := by
  have hne : schemaHistoryBucket ≠ schemaBucket := by decide
  rw [persist_get h, if_neg fun hc => hne hc.1]
  simp only [true_and]

/-- One history record is added; the others stay. -/
theorem persist_history {s s' : Store} {rec : SchemaRecord} (h : persist s rec = .ok s')
    (k : Bytes) : s'.get schemaHistoryBucket k =
      if schemaHistoryKey rec.name rec.version = k then some rec.marshal
      else s.get schemaHistoryBucket k := by
  have hne : schemaBucket ≠ schemaHistoryBucket := by decide
  rw [persist_get h, if_neg (c := schemaBucket = _ ∧ _) fun hc => hne hc.1]
  simp only [true_and]

end KoraDB.Schema
