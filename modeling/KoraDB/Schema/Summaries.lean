import KoraDB.Schema.History

/-!
# Reading the schema history (`SchemaHistory`)

The history of a name is read by a prefix scan: its keys begin with the name and
a NUL. So do the keys of every longer name that continues with a NUL, and the
records of such a name are read along (`nul_name_joins_history`).
`schemaHistory_exact_iff` says that this is the only way the history of a name
is not exactly what was accepted under it.
-/

namespace KoraDB.Schema

open KoraDB.Base KoraDB.Proto KoraDB.Catalog

/-- `SchemaInfo`. -/
structure SchemaInfo where
  name : Bytes
  version : Nat
  source : Bytes
  digest : Bytes
  createdUnix : Int
  deriving DecidableEq

/-- `schemaInfoFromRecord`. -/
def schemaInfoFromRecord (rec : SchemaRecord) : SchemaInfo where
  name := rec.name
  version := rec.version
  source := rec.source
  digest := rec.digest
  createdUnix := rec.createdUnix

inductive HistoryErr
  | corruptRecord
  deriving DecidableEq

/-- `schemaHistoryPrefix`. -/
def schemaHistoryPrefix (name : Bytes) : Bytes := name ++ [0x00]

/-- The order `SchemaHistory` sorts by. -/
def OlderFirst (a b : SchemaInfo) : Prop := a.version ≤ b.version

instance : DecidableRel OlderFirst := fun a b => inferInstanceAs (Decidable (a.version ≤ b.version))

instance : Std.Total OlderFirst := ⟨fun a b => Nat.le_total a.version b.version⟩

instance : IsTrans SchemaInfo OlderFirst := ⟨fun _ _ _ => Nat.le_trans⟩

/-- `SchemaHistory`. `sort.Slice` promises no order among equal versions; this
is one of the orders it may return. -/
def schemaHistory (s : Store) (name : Bytes) : Except HistoryErr (List SchemaInfo) := do
  let recs ← (s.prefixScan schemaHistoryBucket (schemaHistoryPrefix name)).mapM fun e =>
    orErr (SchemaRecord.unmarshal e.2) .corruptRecord
  return (recs.map schemaInfoFromRecord).insertionSort OlderFirst

/-! ## What a scan reads -/

/-- The summary of what became active with an acceptance. -/
def Acceptance.info (a : Acceptance) : Option SchemaInfo :=
  (a.active.bind SchemaRecord.unmarshal).map schemaInfoFromRecord

/-- The scan for `name` reads the record of the acceptance. -/
def readsOf (name : Bytes) (a : Acceptance) : Bool :=
  (schemaHistoryPrefix name).isPrefixOf (schemaHistoryKey a.name a.version)

theorem readsOf_iff {name : Bytes} {a : Acceptance} :
    readsOf name a = true ↔ a.name = name ∨ schemaHistoryPrefix name <+: a.name := by
  unfold readsOf
  rw [List.isPrefixOf_iff_prefix]
  exact prefix_cut_iff (nul_not_mem_formatPadded a.version)

/-- A name does not continue itself. -/
theorem not_continues_self (name : Bytes) : ¬ schemaHistoryPrefix name <+: name := by
  intro h
  have hlen := h.length_le
  simp [schemaHistoryPrefix] at hlen

section Recorded

variable {s : Store} {log : List Acceptance}

theorem Recorded.info_eq (hs : Recorded s log) {a : Acceptance} (ha : a ∈ log) :
    ∃ info, a.info = some info ∧ info.version = a.version := by
  obtain ⟨rec, hactive, _, hversion⟩ := hs.record a ha
  refine ⟨schemaInfoFromRecord { rec with
    name := toValidUTF8 rec.name
    source := toValidUTF8 rec.source
    digest := toValidUTF8 rec.digest }, ?_, hversion⟩
  unfold Acceptance.info
  rw [hactive]
  rfl

/-- The entries that a scan visits are those of the acceptances it reads. -/
theorem scanned_perm (hs : Recorded s log) (name : Bytes) :
    ((s.prefixScan schemaHistoryBucket (schemaHistoryPrefix name)).map
        fun e => (e.1, some e.2)).Perm
      ((log.filter (readsOf name)).map fun a =>
        (schemaHistoryKey a.name a.version, a.active)) := by
  rw [Storage.Store.prefixScan_eq_filter]
  have hscan : (((s.scan schemaHistoryBucket).filter fun e =>
      (schemaHistoryPrefix name).isPrefixOf e.1).map fun e => (e.1, some e.2)).Nodup := by
    rw [List.nodup_iff_pairwise_ne, List.pairwise_map]
    refine ((s.scan_sorted _).filter _).imp ?_
    intro e e' hlt heq
    exact hlt.ne (Prod.mk.inj heq).1
  have hlog : ((log.filter (readsOf name)).map fun a =>
      (schemaHistoryKey a.name a.version, a.active)).Nodup := by
    apply List.Nodup.of_map Prod.fst
    rw [List.map_map]
    exact hs.keys.sublist (List.filter_sublist.map _)
  apply (List.perm_ext_iff_of_nodup hscan hlog).mpr
  rintro ⟨k, b⟩
  simp only [List.mem_map, List.mem_filter, Prod.mk.injEq]
  constructor
  · rintro ⟨⟨k', b'⟩, ⟨hmem, hpre⟩, rfl, rfl⟩
    obtain ⟨a, ha, hkey, hactive⟩ := (hs.history _ _).mp (Storage.Store.mem_scan.mp hmem)
    refine ⟨a, ⟨ha, ?_⟩, hkey, hactive⟩
    unfold readsOf
    rw [hkey]
    exact hpre
  · rintro ⟨a, ⟨ha, hreads⟩, rfl, rfl⟩
    obtain ⟨rec, hactive, _⟩ := hs.record a ha
    refine ⟨(schemaHistoryKey a.name a.version, rec.marshal), ⟨?_, hreads⟩, rfl, hactive.symm⟩
    exact Storage.Store.mem_scan.mpr ((hs.history _ _).mpr ⟨a, ha, rfl, hactive⟩)

/-- `SchemaHistory` never fails, and returns the summaries of the acceptances
that it reads, by version. -/
theorem schemaHistory_reads (hs : Recorded s log) (name : Bytes) :
    ∃ out, schemaHistory s name = .ok out ∧
      out.Perm ((log.filter (readsOf name)).filterMap Acceptance.info) ∧
      out.Pairwise OlderFirst := by
  have hreadable : ∀ e ∈ s.prefixScan schemaHistoryBucket (schemaHistoryPrefix name),
      (SchemaRecord.unmarshal e.2).isSome = true := by
    intro e he
    rw [Storage.Store.prefixScan_eq_filter, List.mem_filter, Storage.Store.mem_scan] at he
    obtain ⟨a, ha, _, hactive⟩ := (hs.history _ _).mp he.1
    obtain ⟨rec, hrec, _⟩ := hs.record a ha
    rw [hrec] at hactive
    rw [← Option.some.inj hactive]
    rfl
  unfold schemaHistory
  rw [mapM_orErr _ hreadable, ok_bind, List.map_filterMap]
  refine ⟨_, rfl, (List.perm_insertionSort _ _).trans ?_, List.pairwise_insertionSort _ _⟩
  have hperm := (scanned_perm hs name).filterMap fun x =>
    (x.2.bind SchemaRecord.unmarshal).map schemaInfoFromRecord
  rw [List.filterMap_map, List.filterMap_map] at hperm
  exact hperm

/-- The summaries of acceptances have their versions. -/
theorem infos_version (hs : Recorded s log) {as : List Acceptance} (has : ∀ a ∈ as, a ∈ log) :
    (as.filterMap Acceptance.info).map (·.version) = as.map (·.version) := by
  induction as with
  | nil => rfl
  | cons a as ih =>
      obtain ⟨info, hinfo, hversion⟩ := hs.info_eq (has a List.mem_cons_self)
      rw [List.filterMap_cons_some hinfo, List.map_cons, List.map_cons, hversion,
        ih fun x hx => has x (List.mem_cons_of_mem _ hx)]

theorem infos_ofName (hs : Recorded s log) (name : Bytes) :
    ((ofName name log).filterMap Acceptance.info).map (·.version) =
      List.range' 1 (ofName name log).length := by
  rw [infos_version hs fun a ha => (mem_ofName.mp ha).1, hs.versions name]

/-- Without a continued name the history of a name is its own. -/
theorem schemaHistory_own (hs : Recorded s log) {name : Bytes}
    (hown : ∀ a ∈ log, ¬ schemaHistoryPrefix name <+: a.name) :
    schemaHistory s name = .ok ((ofName name log).filterMap Acceptance.info) := by
  obtain ⟨out, hout, hperm, hsorted⟩ := schemaHistory_reads hs name
  have hreads : log.filter (readsOf name) = ofName name log := by
    apply List.filter_congr
    intro a ha
    rw [Bool.eq_iff_iff, readsOf_iff, beq_iff_eq]
    exact or_iff_left (hown a ha)
  rw [hreads] at hperm
  have hversions := infos_ofName hs name
  have hnodup : (((ofName name log).filterMap Acceptance.info).map (·.version)).Nodup := by
    rw [hversions]
    exact List.nodup_range'
  have holder : ((ofName name log).filterMap Acceptance.info).Pairwise OlderFirst := by
    have hrange : (((ofName name log).filterMap Acceptance.info).map (·.version)).Pairwise
        (· ≤ ·) := by
      rw [hversions]
      exact List.pairwise_le_range'
    rw [List.pairwise_map] at hrange
    exact hrange
  -- sorted alike, and no version twice: one list
  rw [hout, hperm.eq_of_pairwise ?_ hsorted holder]
  intro a b ha hb hab hba
  exact List.inj_on_of_nodup_map hnodup (hperm.mem_iff.mp ha) hb (Nat.le_antisymm hab hba)

/-- Otherwise it holds more records than were accepted under the name. -/
theorem schemaHistory_long (hs : Recorded s log) {name : Bytes} {a : Acceptance} (ha : a ∈ log)
    (hname : schemaHistoryPrefix name <+: a.name) {out : List SchemaInfo}
    (hout : schemaHistory s name = .ok out) : (ofName name log).length < out.length := by
  obtain ⟨out', hout', hperm, _⟩ := schemaHistory_reads hs name
  rw [hout] at hout'
  cases hout'
  have hlen : out.length = (log.filter (readsOf name)).length := by
    have hversion := infos_version hs fun x hx => List.mem_of_mem_filter (p := readsOf name) hx
    rw [hperm.length_eq, ← List.length_map (·.version), hversion, List.length_map]
  have hsub : (ofName name log).Sublist (log.filter (readsOf name)) := by
    refine List.monotone_filter_right log ?_
    intro x hx
    exact readsOf_iff.mpr (.inl (eq_of_beq hx))
  rw [hlen]
  refine Nat.lt_of_le_of_ne hsub.length_le ?_
  intro heq
  have hmem : a ∈ log.filter (readsOf name) :=
    List.mem_filter.mpr ⟨ha, readsOf_iff.mpr (.inr hname)⟩
  rw [← hsub.eq_of_length heq] at hmem
  rw [(mem_ofName.mp hmem).2] at hname
  exact not_continues_self name hname

end Recorded

/-- **When the history of a name is its own.** In every registry that a run of
registrations and restarts leads to, and for every name: `SchemaHistory` returns
exactly the versions accepted under the name, from 1 on, each once and in this
order, if and only if no accepted name begins with this one and a NUL. -/
theorem schemaHistory_exact_iff (env : Env) (events : List Event) (name : Bytes) :
    let r := run (stepEvent env) Registry.initial events
    let log := acceptances env Registry.initial events
    (∃ out, schemaHistory r.store name = .ok out ∧
      out = (ofName name log).filterMap Acceptance.info ∧
      out.map (·.version) = List.range' 1 (ofName name log).length) ↔
    ∀ a ∈ log, ¬ schemaHistoryPrefix name <+: a.name := by
  intro r log
  have hs : Recorded r.store log := @recorded_run env events Registry.initial [] Recorded.empty
  constructor
  · rintro ⟨out, hout, _, hversions⟩ a ha hname
    have hlong := schemaHistory_long hs ha hname hout
    have hlen := congrArg List.length hversions
    rw [List.length_map, List.length_range'] at hlen
    omega
  · intro hown
    exact ⟨_, schemaHistory_own hs hown, rfl, infos_ofName hs name⟩

/-! ## A name with a NUL -/

def noteSource : Bytes := ascii "syntax = \"proto3\"; message Note \x7b string tag = 2; \x7d"

/-- The table of the memos, with one more message. -/
def noteParse (path text : Bytes) : Option FileProto :=
  if text = noteSource then
    some ⟨path, [], [], [.mk ⟨ascii "Note", by decide⟩ [tagField] [] []], []⟩
  else memoParse path text

/-- **A NUL joins two histories.** Registered under `memo.proto`, a NUL and
`note.proto`, a schema is one of the versions of `memo.proto`. -/
theorem nul_name_joins_history :
    let env := tableEnv noteParse
    let memo := ascii "memo.proto"
    let note := memo ++ 0x00 :: ascii "note.proto"
    let events : List Event :=
      [.register {} (memoCall memo1), .register {} ⟨note, noteSource, 0⟩]
    (acceptances env Registry.initial events).map (fun a => (a.name, a.version)) =
        [(memo, 1), (note, 1)] ∧
      (schemaHistory (run (stepEvent env) Registry.initial events).store memo).toOption.map
          (List.map fun info => (info.name, info.version)) =
        some [(memo, 1), (note, 1)] := by
  decide +kernel

end KoraDB.Schema
