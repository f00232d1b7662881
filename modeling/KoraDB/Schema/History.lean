import KoraDB.Schema.Atomic

/-!
# The schema history

Every accepted registration writes its record twice: over the active one under
the schema's name, and into the history under the name, a NUL and the version
in twenty digits. The version is one more than that of the active record.

A run is any sequence of registrations, of which any may fail, and of restarts.
`acceptances` lists what a run accepted, each with the version returned and the
record that was active right after. `Recorded` says that the two buckets hold
exactly that list, and `history_complete` that they do after every run.
`register_atomic` says what one registration does to a registry that a run has
led to.
-/

namespace KoraDB.Schema

open KoraDB.Base KoraDB.Proto KoraDB.Catalog

/-! ## Runs -/

inductive Event
  | register (faults : Faults) (call : RegisterCall)
  | restart

/-- One event. A file that does not open again is left as it is. -/
def stepEvent (env : Env) (r : Registry) : Event → Registry
  | .register faults call =>
    match (registerM env faults call).run r with
    | .ok _ r' => r'
    | .error _ r' => r'
  | .restart =>
    match newRegistry env r.store with
    | .ok r' => r'
    | .error _ => r

/-- An accepted registration: the version it returned, and the active record of
the name at that moment. -/
structure Acceptance where
  name : Bytes
  version : Nat
  active : Option Blob

def acceptance (env : Env) (r : Registry) : Event → Option Acceptance
  | .register faults call =>
    match (registerM env faults call).run r with
    | .ok version r' => some ⟨call.name, version, r'.store.get schemaBucket call.name⟩
    | .error _ _ => none
  | .restart => none

/-- What a run accepts, in order. -/
def acceptances (env : Env) : Registry → List Event → List Acceptance
  | _, [] => []
  | r, e :: es => (acceptance env r e).toList ++ acceptances env (stepEvent env r e) es

/-- The acceptances of one name. -/
def ofName (name : Bytes) (log : List Acceptance) : List Acceptance :=
  log.filter fun a => a.name == name

theorem mem_ofName {name : Bytes} {log : List Acceptance} {a : Acceptance} :
    a ∈ ofName name log ↔ a ∈ log ∧ a.name = name := by
  simp [ofName, List.mem_filter]

theorem ofName_append (name : Bytes) (log log' : List Acceptance) :
    ofName name (log ++ log') = ofName name log ++ ofName name log' := List.filter_append ..

theorem ofName_singleton (name : Bytes) (a : Acceptance) :
    ofName name [a] = if a.name = name then [a] else [] := by
  by_cases h : a.name = name
  · simp [ofName, h]
  · simp [ofName, h]

/-! ## Keys of the history -/

/-- A history key determines its name and version: the digits behind the last
NUL are the version, whatever the name contains. -/
theorem schemaHistoryKey_inj {name name' : Bytes} {version version' : Nat}
    (h : schemaHistoryKey name version = schemaHistoryKey name' version') :
    name = name' ∧ version = version' := by
  obtain ⟨hname, hdigits⟩ :=
    cut_last (nul_not_mem_formatPadded version) (nul_not_mem_formatPadded version') h
  exact ⟨hname, formatPadded_inj hdigits⟩

/-! ## The two buckets -/

/-- The catalog buckets hold exactly what was accepted. -/
structure Recorded (s : Store) (log : List Acceptance) : Prop where
  /-- Each name was accepted as version 1, 2, ..., n, in this order. -/
  versions : ∀ name,
    (ofName name log).map (·.version) = List.range' 1 (ofName name log).length
  /-- What became active is the record of the name and version. -/
  record : ∀ a ∈ log, ∃ rec : SchemaRecord,
    a.active = some rec.marshal ∧ rec.name = a.name ∧ rec.version = a.version
  /-- No two acceptances share a history key. -/
  keys : (log.map fun a => schemaHistoryKey a.name a.version).Nodup
  /-- The history holds, for each acceptance, what became active with it, and
  nothing else. -/
  history : ∀ k b, s.get schemaHistoryBucket k = some b ↔
    ∃ a ∈ log, schemaHistoryKey a.name a.version = k ∧ a.active = some b
  /-- The active record of a name is that of its last acceptance. -/
  active : ∀ name, s.get schemaBucket name = (ofName name log).getLast?.bind (·.active)

namespace Recorded

variable {s : Store} {log : List Acceptance}

theorem empty : Recorded Storage.Store.empty [] where
  versions _ := rfl
  record a ha := absurd ha List.not_mem_nil
  keys := List.nodup_nil
  history k b := by simp [Storage.Store.get_empty]
  active name := Storage.Store.get_empty ..

/-- The versions of a name are numbers from 1 to its count. -/
theorem version_mem (hs : Recorded s log) {a : Acceptance} (ha : a ∈ log) :
    1 ≤ a.version ∧ a.version < 1 + (ofName a.name log).length := by
  have hmem : a.version ∈ (ofName a.name log).map (·.version) :=
    List.mem_map.mpr ⟨a, mem_ofName.mpr ⟨ha, rfl⟩, rfl⟩
  rw [hs.versions, List.mem_range'_1] at hmem
  exact hmem

/-- The last acceptance of a name has its count as version. -/
theorem last_version (hs : Recorded s log) {name : Bytes} {a : Acceptance}
    (ha : (ofName name log).getLast? = some a) : a.version = (ofName name log).length := by
  obtain ⟨front, hfront⟩ := List.getLast?_eq_some_iff.mp ha
  have hv := hs.versions name
  rw [hfront, List.map_append, List.length_append, List.length_singleton,
    List.range'_1_concat] at hv
  have hlast := (List.append_inj' hv rfl).2
  rw [hfront, List.length_append, List.length_singleton]
  have hval : a.version = 1 + front.length := (List.cons.inj hlast).1
  omega

theorem nextVersion_eq (hs : Recorded s log) (name : Bytes) :
    nextVersion s name = (ofName name log).length + 1 := by
  unfold nextVersion
  rw [hs.active name]
  cases hlast : (ofName name log).getLast? with
  | none =>
      rw [List.getLast?_eq_none_iff] at hlast
      rw [hlast]
      rfl
  | some a =>
      obtain ⟨rec, hrec, _, hversion⟩ :=
        hs.record a (mem_ofName.mp (List.mem_of_getLast? hlast)).1
      have hget : ((some a).bind (·.active)).bind SchemaRecord.unmarshal =
          SchemaRecord.unmarshal rec.marshal := by
        show a.active.bind SchemaRecord.unmarshal = _
        rw [hrec]
        rfl
      rw [hget]
      show rec.version + 1 = _
      rw [hversion, hs.last_version hlast]

/-- The history key of the next version is free. -/
theorem fresh (hs : Recorded s log) (name : Bytes) :
    ∀ a ∈ log, schemaHistoryKey a.name a.version ≠ schemaHistoryKey name (nextVersion s name) := by
  intro a ha hkey
  obtain ⟨hname, hversion⟩ := schemaHistoryKey_inj hkey
  have hlt := (hs.version_mem ha).2
  rw [hname, hversion, hs.nextVersion_eq name] at hlt
  omega

theorem absent (hs : Recorded s log) (name : Bytes) :
    s.get schemaHistoryBucket (schemaHistoryKey name (nextVersion s name)) = none := by
  cases hget : s.get schemaHistoryBucket (schemaHistoryKey name (nextVersion s name)) with
  | none => rfl
  | some b =>
      obtain ⟨a, ha, hkey, _⟩ := (hs.history _ b).mp hget
      exact absurd hkey (hs.fresh name a ha)

/-- The active record of a name is its record of the last version. -/
theorem active_eq_history (hs : Recorded s log) (name : Bytes) :
    s.get schemaBucket name =
      s.get schemaHistoryBucket (schemaHistoryKey name (ofName name log).length) := by
  rw [hs.active name]
  cases hlast : (ofName name log).getLast? with
  | none =>
      -- never accepted: there is no version 0
      symm
      rw [List.getLast?_eq_none_iff] at hlast
      show s.get schemaHistoryBucket (schemaHistoryKey name (ofName name log).length) = none
      cases hget : s.get schemaHistoryBucket (schemaHistoryKey name (ofName name log).length) with
      | none => rfl
      | some b =>
          obtain ⟨a, ha, hkey, _⟩ := (hs.history _ b).mp hget
          have hname := (schemaHistoryKey_inj hkey).1
          have hmem : a ∈ ofName name log := mem_ofName.mpr ⟨ha, hname⟩
          rw [hlast] at hmem
          exact absurd hmem List.not_mem_nil
  | some a =>
      have ha := mem_ofName.mp (List.mem_of_getLast? hlast)
      obtain ⟨rec, hrec, _⟩ := hs.record a ha.1
      symm
      show s.get schemaHistoryBucket _ = a.active
      rw [hrec]
      refine (hs.history _ _).mpr ⟨a, ha.1, ?_, hrec⟩
      rw [ha.2, hs.last_version hlast]

section Persist

variable {s' : Store} {rec : SchemaRecord}

/-- The next version continues the numbers of its name. -/
theorem versions_concat (hs : Recorded s log) {a : Acceptance}
    (ha : a.version = nextVersion s a.name) (name : Bytes) :
    (ofName name (log ++ [a])).map (·.version) =
      List.range' 1 (ofName name (log ++ [a])).length := by
  rw [ofName_append, ofName_singleton]
  split
  · rename_i hname
    rw [List.map_append, hs.versions name, List.length_append, List.length_singleton,
      List.range'_1_concat]
    congr 1
    show [a.version] = _
    rw [ha, hs.nextVersion_eq a.name, hname, Nat.add_comm]
  · rw [List.append_nil]
    exact hs.versions name

/-- Its history key is new. -/
theorem keys_concat (hs : Recorded s log) {a : Acceptance} (ha : a.version = nextVersion s a.name) :
    ((log ++ [a]).map fun a => schemaHistoryKey a.name a.version).Nodup := by
  rw [List.map_append, List.nodup_append]
  refine ⟨hs.keys, List.nodup_singleton _, ?_⟩
  intro k hk k' hk' heq
  obtain ⟨a', ha', rfl⟩ := List.mem_map.mp hk
  have hnew : k' = schemaHistoryKey a.name a.version := List.mem_singleton.mp hk'
  rw [hnew, ha] at heq
  exact hs.fresh a.name a' ha' heq

theorem history_persist (hs : Recorded s log) (hversion : rec.version = nextVersion s rec.name)
    (h : Schema.persist s rec = .ok s') (k : Bytes) (b : Blob) :
    s'.get schemaHistoryBucket k = some b ↔
      ∃ a ∈ log ++ [⟨rec.name, rec.version, some rec.marshal⟩],
        schemaHistoryKey a.name a.version = k ∧ a.active = some b := by
  rw [persist_history h]
  simp only [List.mem_append, List.mem_singleton]
  split
  · rename_i hk
    constructor
    · intro hb
      exact ⟨_, .inr rfl, hk, hb⟩
    · rintro ⟨a, ha | rfl, hkey, hb⟩
      · -- the key was free, so it is no earlier acceptance's
        rw [← hk, hversion] at hkey
        exact absurd hkey (hs.fresh rec.name a ha)
      · exact hb
  · rename_i hk
    rw [hs.history k b]
    constructor
    · rintro ⟨a, ha, hkey, hb⟩
      exact ⟨a, .inl ha, hkey, hb⟩
    · rintro ⟨a, ha | rfl, hkey, hb⟩
      · exact ⟨a, ha, hkey, hb⟩
      · exact absurd hkey hk

theorem active_persist (hs : Recorded s log) (h : Schema.persist s rec = .ok s') (name : Bytes) :
    s'.get schemaBucket name =
      (ofName name (log ++ [⟨rec.name, rec.version, some rec.marshal⟩])).getLast?.bind
        (·.active) := by
  rw [persist_active h, ofName_append, ofName_singleton]
  split
  · rw [List.getLast?_append, List.getLast?_singleton]
    rfl
  · rw [List.append_nil]
    exact hs.active name

/-- One more acceptance. -/
theorem persist (hs : Recorded s log) (hversion : rec.version = nextVersion s rec.name)
    (h : Schema.persist s rec = .ok s') :
    Recorded s' (log ++ [⟨rec.name, rec.version, some rec.marshal⟩]) := by
  refine ⟨hs.versions_concat hversion, ?_, hs.keys_concat hversion, hs.history_persist hversion h,
    hs.active_persist h⟩
  intro a ha
  rcases List.mem_append.mp ha with ha | ha
  · exact hs.record a ha
  · rw [List.mem_singleton.mp ha]
    exact ⟨rec, rfl, rfl, rfl⟩

end Persist

end Recorded

/-! ## Every run -/

theorem newRegistry_store {env : Env} {s : Store} {r : Registry} (h : newRegistry env s = .ok r) :
    r.store = s := by
  unfold newRegistry at h
  obtain ⟨fileProtos, _, h⟩ := bind_eq_ok_iff.mp h
  split at h
  · rw [← Except.ok.inj h]
  · obtain ⟨files, _, h⟩ := bind_eq_ok_iff.mp h
    rw [← Except.ok.inj h]

theorem restart_store (env : Env) (r : Registry) : (stepEvent env r .restart).store = r.store := by
  show (match newRegistry env r.store with
    | .ok r' => r'
    | .error _ => r).store = r.store
  cases h : newRegistry env r.store with
  | error e => rfl
  | ok r' => exact newRegistry_store h

/-- A registry event touches the two catalog buckets only. -/
theorem stepEvent_sameBucket (env : Env) (r : Registry) (e : Event) {b : Bytes}
    (hactive : b ≠ schemaBucket) (hhistory : b ≠ schemaHistoryBucket) :
    Storage.Store.SameBucket r.store (stepEvent env r e).store b := by
  cases e with
  | restart =>
      rw [restart_store]
      exact .refl _ b
  | register faults call =>
      simp only [stepEvent]
      rcases registerM_cases env faults call r with ⟨e, he⟩ | ⟨r', version, collected, he, hacc⟩
      · rw [he]
        exact .refl _ b
      · rw [he]
        obtain ⟨hget, hseq⟩ := persist_frame hacc.store
        exact ⟨fun k => hget b k hactive hhistory, hseq b⟩

theorem recorded_step {env : Env} {r : Registry} {log : List Acceptance}
    (hr : Recorded r.store log) (e : Event) :
    Recorded (stepEvent env r e).store (log ++ (acceptance env r e).toList) := by
  cases e with
  | restart =>
      rw [restart_store]
      simpa [acceptance] using hr
  | register faults call =>
      simp only [stepEvent, acceptance]
      rcases registerM_cases env faults call r with ⟨e, he⟩ | ⟨r', version, collected, he, hacc⟩
      · rw [he]
        simpa using hr
      · rw [he]
        have hnew := hr.persist hacc.version_eq hacc.store
        have hactive := persist_active hacc.store call.name
        rw [if_pos rfl] at hactive
        show Recorded r'.store (log ++ [⟨call.name, version, r'.store.get schemaBucket call.name⟩])
        rw [hactive]
        exact hnew

theorem recorded_run {env : Env} (events : List Event) {r : Registry} {log : List Acceptance}
    (hr : Recorded r.store log) :
    Recorded (run (stepEvent env) r events).store (log ++ acceptances env r events) := by
  induction events generalizing r log with
  | nil => simpa [acceptances] using hr
  | cons e es ih =>
      rw [run_cons]
      unfold acceptances
      rw [← List.append_assoc]
      exact ih (recorded_step hr e)

/-- **The history is complete and immutable.** After any run of registrations,
accepted, rejected or failed, and of restarts, the catalog holds exactly what
was accepted: per name the versions 1 to n, returned in this order, each
history record the one that became active with it, the active record that of
version n. No continuation of the run changes or removes a history record. -/
theorem history_complete (env : Env) (events : List Event) :
    let r := run (stepEvent env) Registry.initial events
    let log := acceptances env Registry.initial events
    Recorded r.store log ∧
      (∀ name, r.store.get schemaBucket name =
        r.store.get schemaHistoryBucket (schemaHistoryKey name (ofName name log).length)) ∧
      ∀ more k b, r.store.get schemaHistoryBucket k = some b →
        (run (stepEvent env) r more).store.get schemaHistoryBucket k = some b := by
  intro r log
  have hr : Recorded r.store log := @recorded_run env events Registry.initial [] Recorded.empty
  refine ⟨hr, hr.active_eq_history, ?_⟩
  intro more k b hb
  obtain ⟨a, ha, hkey, hactive⟩ := (hr.history k b).mp hb
  exact ((recorded_run more hr).history k b).mpr
    ⟨a, List.mem_append_left _ ha, hkey, hactive⟩

/-! A run that accepts two versions, refuses a change of type, loses a commit
and restarts. The table stands for the compiler. -/

def memoSource (fields : Bytes) : Bytes :=
  ascii "syntax = \"proto3\"; message Memo \x7b " ++ fields ++ ascii " \x7d"

def memo1 : Bytes := memoSource (ascii "string body = 1;")
def memo2 : Bytes := memoSource (ascii "string body = 1; string tag = 2;")
def memoBytes : Bytes := memoSource (ascii "bytes body = 1;")

def memoParse (path text : Bytes) : Option FileProto :=
  let body (kind : Kind) := plainField ⟨ascii "body", by decide⟩ 1 kind []
  let memo (fields : List FieldDesc) : FileProto :=
    ⟨path, [], [], [.mk ⟨ascii "Memo", by decide⟩ fields [] []], []⟩
  if text = memo1 then some (memo [body .string])
  else if text = memo2 then some (memo [body .string, tagField])
  else if text = memoBytes then some (memo [body .bytes])
  else none

def memoCall (source : Bytes) : RegisterCall := ⟨ascii "memo.proto", source, 0⟩

def memoEvents : List Event :=
  [.register {} (memoCall memo1), .register {} (memoCall memoBytes),
    .register { commit := true } (memoCall memo2), .restart, .register {} (memoCall memo2)]

theorem history_complete_memo :
    let env := tableEnv memoParse
    let r := run (stepEvent env) Registry.initial memoEvents
    let log := acceptances env Registry.initial memoEvents
    log.map (fun a => (a.name, a.version)) = [(ascii "memo.proto", 1), (ascii "memo.proto", 2)] ∧
      Recorded r.store log :=
  ⟨by decide +kernel, (history_complete _ _).1⟩

/-! ## One registration -/

/-- The store gains a history record and a new active record for the name, the
same for both, and is otherwise as it was. -/
structure OnlyAdds (s s' : Store) (name : Bytes) (version : Nat) : Prop where
  absent : s.get schemaHistoryBucket (schemaHistoryKey name version) = none
  added : ∃ b, s'.get schemaBucket name = some b ∧
    s'.get schemaHistoryBucket (schemaHistoryKey name version) = some b
  entries : ∀ b k, ¬ (b = schemaBucket ∧ k = name) →
    ¬ (b = schemaHistoryBucket ∧ k = schemaHistoryKey name version) → s'.get b k = s.get b k
  sequences : ∀ b, s'.sequence b = s.sequence b

theorem onlyAdds_persist {s s' : Store} {rec : SchemaRecord} {log : List Acceptance}
    (hs : Recorded s log) (hversion : rec.version = nextVersion s rec.name)
    (h : persist s rec = .ok s') : OnlyAdds s s' rec.name rec.version := by
  refine ⟨?_, ⟨rec.marshal, ?_, ?_⟩, ?_, persist_sequence h⟩
  · rw [hversion]
    exact hs.absent rec.name
  · rw [persist_active h, if_pos rfl]
  · rw [persist_history h, if_pos rfl]
  · intro b k hactive hhistory
    rw [persist_get h, if_neg fun hc => hhistory ⟨hc.1.symm, hc.2.symm⟩,
      if_neg fun hc => hactive ⟨hc.1.symm, hc.2.symm⟩]

/-- A registry that has just been opened is consistent. -/
theorem consistent_newRegistry {env : Env} {s : Store} {r : Registry} (hs : Readable s)
    (h : newRegistry env s = .ok r) : Consistent env r := by
  have hkeyed : ∀ fs, Keyed (addFiles ∅ fs) := by
    intro fs p f hf
    rw [get_addFiles] at hf
    have hlast : lastFile p fs = some f := by simpa using hf
    simpa [lastFile] using List.find?_some hlast
  have hstore := newRegistry_store h
  unfold newRegistry at h
  rw [loadFileProtos_eq hs, ok_bind] at h
  split at h
  · rename_i hempty
    cases Except.ok.inj h
    exact ⟨hs, hkeyed _, if_pos hempty⟩
  · rename_i hempty
    obtain ⟨files, hfiles, h⟩ := bind_eq_ok_iff.mp h
    cases Except.ok.inj h
    exact ⟨hs, hkeyed _, (if_neg hempty).trans hfiles⟩

theorem consistent_event {env : Env} {r : Registry} (hr : Consistent env r) (e : Event) :
    Consistent env (stepEvent env r e) := by
  cases e with
  | register faults call =>
      simp only [stepEvent]
      rcases registerM_cases env faults call r with ⟨e, he⟩ | ⟨r', version, collected, he, hacc⟩
      · rw [he]
        exact hr
      · rw [he]
        exact consistent_accepted hr hacc
  | restart =>
      simp only [stepEvent]
      cases h : newRegistry env r.store with
      | error e => exact hr
      | ok r' => exact consistent_newRegistry hr.readable h

/-- The files of a consistent registry are the build of its map. The empty map
of a new database is not built; `protodesc` would accept it. -/
theorem Consistent.built_files {env : Env} {r : Registry} (hr : Consistent env r)
    (h : env.check [] = true ∨ r.fileProtos ≠ ∅) : buildFiles env r.fileProtos = .ok r.files := by
  have hbuilt := hr.built
  split at hbuilt
  · rename_i hempty
    have hmap := Std.ExtTreeMap.isEmpty_iff.mp hempty
    have hcheck := h.resolve_right fun hne => hne hmap
    rw [← Except.ok.inj hbuilt, hmap]
    unfold buildFiles
    rw [topoSort_empty]
    simp [newFiles, Files.empty, hcheck, wellFormed, symbolsOf, messagesOf]
  · exact hbuilt

/-- **Registration is atomic.** Of a registry that any run has led to, and for
any call and faults: a call that fails leaves the registry exactly as it was. A
call that succeeds adds its record to the store and nothing else, lays the
compiled import closure over the map of files, and activates the build of that
map. In every such registry the active files are the build of the map. -/
theorem register_atomic (env : Env) (events : List Event) (faults : Faults)
    (call : RegisterCall) :
    let r := run (stepEvent env) Registry.initial events
    (∀ e r', (registerM env faults call).run r = .error e r' → r' = r) ∧
      (∀ version r', (registerM env faults call).run r = .ok version r' →
        OnlyAdds r.store r'.store call.name version ∧
        (∃ collected, compileClosure env r.store call.name call.source = .ok collected ∧
          r'.fileProtos = BMap.overlay r.fileProtos collected) ∧
        buildFiles env r'.fileProtos = .ok r'.files) ∧
      (env.check [] = true ∨ r.fileProtos ≠ ∅ → buildFiles env r.fileProtos = .ok r.files) := by
  intro r
  have hrec := @recorded_run env events Registry.initial [] Recorded.empty
  have hcons : Consistent env r :=
    run_kept (consistent_initial env) fun _ e _ hr => consistent_event hr e
  refine ⟨?_, ?_, hcons.built_files⟩
  · intro e r' he
    rcases registerM_cases env faults call r with ⟨e', he'⟩ | ⟨_, _, _, hok, _⟩
    · rw [he'] at he
      cases he
      rfl
    · rw [hok] at he
      cases he
  · intro version r' hok
    rcases registerM_cases env faults call r with ⟨_, he⟩ | ⟨_, _, collected, hok', hacc⟩
    · rw [he] at hok
      cases hok
    · rw [hok'] at hok
      cases hok
      exact ⟨onlyAdds_persist hrec hacc.version_eq hacc.store,
        ⟨collected, hacc.closure, hacc.fileProtos⟩, hacc.files⟩

/-- After the run above, a third version is refused at the commit and goes
through without the fault. -/
theorem register_atomic_memo :
    let env := tableEnv memoParse
    let r := run (stepEvent env) Registry.initial memoEvents
    (∃ e, (registerM env { commit := true } (memoCall memo2)).run r = .error e r) ∧
      ∃ r', (registerM env {} (memoCall memo2)).run r = .ok 3 r' ∧
        OnlyAdds r.store r'.store (ascii "memo.proto") 3 := by
  intro env r
  have hfail : (match (registerM env { commit := true } (memoCall memo2)).run r with
      | .error e _ => some e
      | .ok _ _ => none) = some .commit := by decide +kernel
  have hpass : (match (registerM env {} (memoCall memo2)).run r with
      | .error _ _ => none
      | .ok version _ => some version) = some 3 := by decide +kernel
  refine ⟨?_, ?_⟩
  · cases h : (registerM env { commit := true } (memoCall memo2)).run r with
    | ok version r' =>
        rw [h] at hfail
        cases hfail
    | error e r' => exact ⟨e, by rw [(register_atomic env memoEvents _ _).1 e r' h]⟩
  · cases h : (registerM env {} (memoCall memo2)).run r with
    | error e r' =>
        rw [h] at hpass
        cases hpass
    | ok version r' =>
        rw [h] at hpass
        cases Option.some.inj hpass
        exact ⟨r', rfl, ((register_atomic env memoEvents _ _).2.1 _ r' h).1⟩

end KoraDB.Schema
