import KoraDB.Schema.Evolution
import KoraDB.Schema.History

/-!
# Registering the active source again

The compatibility check of a file against itself looks every declaration up by
name or number and should find the very declaration it started from. Messages,
enums and fields are found: their names and numbers are distinct. Enum values
are looked up by number, and an enum that allows aliases has several names for
one number; all but the first are reported as changed.

* `ensureFileCompatible_self` — a file passes against itself exactly when no
  enum in it, at any depth, has two names for one number (`AliasFree`);
* `reregister_iff` — registering the active source again succeeds, with the
  next version and every descriptor as before, exactly when moreover the files
  it compiles to are the active ones (`ClosureActive`);
* `closureActive_accepted` — right after an accepted registration they are.
-/

namespace KoraDB.Schema

open KoraDB.Base KoraDB.Proto KoraDB.Catalog

/-! ## A file against itself -/

/-- No two names of the enum stand for one number. -/
def EnumAliasFree (e : EnumDesc) : Prop :=
  ∀ v ∈ e.values, ∀ v' ∈ e.values, v.number = v'.number → v.name = v'.name

instance (e : EnumDesc) : Decidable (EnumAliasFree e) :=
  inferInstanceAs (Decidable (∀ v ∈ e.values, ∀ v' ∈ e.values, v.number = v'.number → _))

def SymbolAliasFree : Symbol → Prop
  | .message _ => True
  | .enum e => EnumAliasFree e

instance : (sym : Symbol) → Decidable (SymbolAliasFree sym)
  | .message _ => .isTrue trivial
  | .enum e => inferInstanceAs (Decidable (EnumAliasFree e))

/-- No enum of the file, at any depth, has two names for one number. -/
def AliasFree (f : FileProto) : Prop := ∀ d ∈ f.symbols, SymbolAliasFree d.2

instance (f : FileProto) : Decidable (AliasFree f) :=
  inferInstanceAs (Decidable (∀ d ∈ f.symbols, SymbolAliasFree d.2))

theorem valuesKept_self_iff {e : EnumDesc} : ValuesKept e e ↔ EnumAliasFree e := by
  constructor
  · intro h v hv v' hv' hnumber
    obtain ⟨w, hw, hname⟩ := h v hv
    obtain ⟨w', hw', hname'⟩ := h v' hv'
    -- both lookups are of one number, so both find one value
    rw [hnumber, hw'] at hw
    cases hw
    rw [← hname, hname']
  · intro h v hv
    cases hfind : e.byNumber v.number with
    | none =>
        have hne := List.find?_eq_none.mp hfind v hv
        rw [beq_self_eq_true] at hne
        exact absurd rfl hne
    | some w =>
        have hnumber : w.number = v.number := by simpa using List.find?_some hfind
        exact ⟨w, rfl, h w (List.mem_of_find?_eq_some hfind) v hv hnumber⟩

theorem ensureEnums_self_iff {parent : Bytes} {es : List EnumDesc}
    (hn : (es.map (·.name)).Nodup) :
    ensureEnumsCompatible parent es es = .ok () ↔ ∀ e ∈ es, EnumAliasFree e := by
  rw [ensureEnums_iff]
  refine forall₂_congr fun e he => ?_
  rw [(find_key_eq_some hn).mpr ⟨he, rfl⟩]
  simp only [Option.some.injEq, exists_eq_left', valuesKept_self_iff]

/-- Among declarations with distinct full names, siblings have distinct
names. -/
theorem messageNames_nodup {parent : Bytes} {ms : List MessageDesc}
    (hn : ((MessageDesc.symbolsAll parent ms).map (·.1)).Nodup) : (ms.map (·.name)).Nodup := by
  have hsub : (ms.map fun m => fullName parent m.name).Sublist
      ((MessageDesc.symbolsAll parent ms).map (·.1)) := by
    clear hn
    induction ms with
    | nil => exact List.Sublist.refl _
    | cons m ms ih =>
        -- the declarations of a message begin with the message itself
        cases m with
        | mk name fields messages enums =>
            simp only [MessageDesc.symbolsAll, MessageDesc.symbols, List.map_cons, List.map_append,
              List.cons_append]
            exact (ih.trans (List.sublist_append_right _ _)).cons_cons _
  refine List.Nodup.of_map (fullName parent) ?_
  rw [List.map_map]
  exact hn.sublist hsub

theorem enumNames_nodup {parent : Bytes} {es : List EnumDesc}
    (hn : ((es.map fun e => (fullName parent e.name, Symbol.enum e)).map (·.1)).Nodup) :
    (es.map (·.name)).Nodup := by
  refine List.Nodup.of_map (fullName parent) ?_
  rw [List.map_map] at hn ⊢
  exact hn

theorem ensureMessages_self_iff {parent : Bytes} {ms : List MessageDesc}
    (hn : (ms.map (·.name)).Nodup) :
    ensureMessagesCompatible parent ms ms = .ok () ↔
      ∀ m ∈ ms, ensureMessageCompatible parent m m = .ok () := by
  rw [ensureMessages_iff]
  refine forall₂_congr fun m hm => ?_
  rw [(find_key_eq_some hn).mpr ⟨hm, rfl⟩]
  simp only [Option.some.injEq, exists_eq_left']

/-- What the check of a scope against itself relies on: distinct full names,
and fields that are found again. -/
structure Distinct (ds : List (Bytes × Symbol)) : Prop where
  names : (ds.map (·.1)).Nodup
  fields : ∀ n md, (n, Symbol.message md) ∈ ds → FieldsKept md md

theorem Distinct.sublist {ds ds' : List (Bytes × Symbol)} (h : Distinct ds')
    (hsub : ds.Sublist ds') : Distinct ds :=
  ⟨h.names.sublist (hsub.map _), fun n md hmem => h.fields n md (hsub.subset hmem)⟩

/-- The two lists of a scope: its messages with all they contain, and its
enums. -/
theorem scope_self_iff {parent : Bytes} {ms : List MessageDesc} {es : List EnumDesc}
    (hd : Distinct (MessageDesc.symbolsAll parent ms ++
      es.map fun e => (fullName parent e.name, Symbol.enum e)))
    (ih : (∀ m ∈ ms, ensureMessageCompatible parent m m = .ok ()) ↔
      ∀ d ∈ MessageDesc.symbolsAll parent ms, SymbolAliasFree d.2) :
    (ensureMessagesCompatible parent ms ms = .ok () ∧
        ensureEnumsCompatible parent es es = .ok ()) ↔
      ∀ d ∈ MessageDesc.symbolsAll parent ms ++
        es.map (fun e => (fullName parent e.name, Symbol.enum e)), SymbolAliasFree d.2 := by
  have hmsgs := (hd.sublist (List.sublist_append_left _ _)).names
  have henums := (hd.sublist (List.sublist_append_right _ _)).names
  rw [ensureMessages_self_iff (messageNames_nodup hmsgs), ih,
    ensureEnums_self_iff (enumNames_nodup henums)]
  simp only [List.mem_append, or_imp, forall_and, List.forall_mem_map, SymbolAliasFree]

mutual

/-- A message passes against itself when the enums inside it are free of
aliases. -/
theorem message_self_iff {parent : Bytes} {md : MessageDesc}
    (hd : Distinct (MessageDesc.symbols parent md)) :
    ensureMessageCompatible parent md md = .ok () ↔
      ∀ d ∈ MessageDesc.symbols parent md, SymbolAliasFree d.2 := by
  match md with
  | .mk name fields messages enums =>
    rw [MessageDesc.symbols] at hd
    -- the message itself, and the scope it opens
    have hinner := hd.sublist (List.sublist_cons_self _ _)
    have hfields := hd.fields _ _ List.mem_cons_self
    have hscope := scope_self_iff hinner
      (messages_self_iff (hinner.sublist (List.sublist_append_left _ _)))
    rw [ensureMessage_iff, MessageDesc.symbols, List.forall_mem_cons]
    exact and_congr (iff_of_true hfields trivial) hscope

theorem messages_self_iff {parent : Bytes} {ms : List MessageDesc}
    (hd : Distinct (MessageDesc.symbolsAll parent ms)) :
    (∀ m ∈ ms, ensureMessageCompatible parent m m = .ok ()) ↔
      ∀ d ∈ MessageDesc.symbolsAll parent ms, SymbolAliasFree d.2 := by
  match ms with
  | [] => simp [MessageDesc.symbolsAll]
  | m :: ms =>
    rw [MessageDesc.symbolsAll] at hd
    rw [List.forall_mem_cons, message_self_iff (hd.sublist (List.sublist_append_left _ _)),
      messages_self_iff (hd.sublist (List.sublist_append_right _ _)), MessageDesc.symbolsAll,
      List.forall_mem_append]

end

theorem file_self_iff {f : FileProto} (hd : Distinct f.symbols) :
    ensureFileProtoCompatible f f = .ok () ↔ AliasFree f := by
  have hmsgs := messages_self_iff (hd.sublist (List.sublist_append_left _ _))
  unfold AliasFree FileProto.symbols
  rw [← scope_self_iff hd hmsgs]
  simp only [ensureFileProtoCompatible, bind_eq_ok_iff, Unique.exists_iff, PUnit.default_eq_unit]

theorem sublist_symbolsOf {fs : List FileProto} {f : FileProto} (hf : f ∈ fs) :
    f.symbols.Sublist (symbolsOf fs) := by
  unfold symbolsOf
  rw [List.flatMap_def]
  exact List.sublist_flatten_of_mem (List.mem_map_of_mem hf)

/-- The files of a set have what the check relies on. -/
theorem distinct_of_mem {fs : Files} {f : FileProto} (hf : f ∈ fs.files) : Distinct f.symbols where
  names := fs.names_nodup.sublist ((sublist_symbolsOf hf).map _)
  fields _ _ hmem := FieldsKept.refl (findMessage_of_file hf hmem)

/-- A file of a set passes the check against itself exactly when none of its
enums has an alias. -/
theorem ensureFileCompatible_self {fs : Files} {path : Bytes} {f : FileProto}
    (hf : fs.findFileByPath path = some f) :
    ensureFileCompatible fs fs path = .ok () ↔ AliasFree f := by
  have hmem := (Files.findFileByPath_eq_some.mp hf).1
  rw [← file_self_iff (distinct_of_mem hmem)]
  unfold ensureFileCompatible
  simp only [hf, orErr_some, ok_bind]

/-! ## The transaction -/

/-- A history key is 21 bytes longer than its name, for every version that
twenty digits can show. -/
theorem length_schemaHistoryKey (name : Bytes) {version : Nat} (h : version < 10 ^ 20) :
    (schemaHistoryKey name version).length = name.length + 21 := by
  have hpadded : (formatPadded version).length = 20 := length_zeroPadded (by decide) h
  unfold schemaHistoryKey
  rw [List.length_append, List.length_cons, hpadded]

/-- The transaction goes through when the two keys are legal. -/
theorem persist_ok {s : Store} {rec : SchemaRecord} (hname : rec.name ≠ [])
    (hlen : rec.name.length ≤ Storage.maxKeySize)
    (hkey : (schemaHistoryKey rec.name rec.version).length ≤ Storage.maxKeySize) :
    ∃ s', persist s rec = .ok s' := by
  have hne : schemaHistoryKey rec.name rec.version ≠ [] := by
    unfold schemaHistoryKey
    exact List.append_ne_nil_of_right_ne_nil _ (List.cons_ne_nil _ _)
  obtain ⟨s₁, h₁⟩ := s.put_ok rec.marshal (show schemaBucket ≠ [] by decide) hname hlen
  obtain ⟨s₂, h₂⟩ := s₁.put_ok rec.marshal (show schemaHistoryBucket ≠ [] by decide) hne hkey
  refine ⟨s₂, ?_⟩
  unfold persist
  rw [wrap_eq_ok_iff.mpr h₁, ok_bind, wrap_eq_ok_iff.mpr h₂]

theorem legalKeys_persist {s s' : Store} {rec : SchemaRecord} (hs : s.LegalKeys)
    (h : persist s rec = .ok s') : s'.LegalKeys := by
  simp only [persist, bind_eq_ok_iff, wrap_eq_ok_iff] at h
  obtain ⟨s₁, h₁, h₂⟩ := h
  exact (hs.put h₁).put h₂

theorem legalKeys_event {env : Env} {r : Registry} (hr : r.store.LegalKeys) (e : Event) :
    (stepEvent env r e).store.LegalKeys := by
  cases e with
  | restart =>
      rw [restart_store]
      exact hr
  | register faults call =>
      simp only [stepEvent]
      rcases registerM_cases env faults call r with ⟨e, he⟩ | ⟨r', version, collected, he, hacc⟩
      · rw [he]
        exact hr
      · rw [he]
        exact legalKeys_persist hr hacc.store

/-- What a run establishes of its registry. -/
structure Reached (env : Env) (r : Registry) : Prop where
  consistent : Consistent env r
  legal : r.store.LegalKeys
  recorded : ∃ log, Recorded r.store log

theorem reached_run (env : Env) (events : List Event) :
    Reached env (run (stepEvent env) Registry.initial events) where
  consistent := run_kept (consistent_initial env) fun _ e _ hr => consistent_event hr e
  legal := run_kept (P := fun r : Registry => r.store.LegalKeys)
    Storage.Store.legalKeys_empty fun _ e _ hr => legalKeys_event hr e
  recorded := ⟨_, @recorded_run env events Registry.initial [] Recorded.empty⟩

/-- The record of a registered name can be replaced by one of the next
version. -/
theorem Reached.persist_next {env : Env} {r : Registry} (hr : Reached env r)
    {rec prev : SchemaRecord}
    (hprev : (r.store.get schemaBucket rec.name).bind SchemaRecord.unmarshal = some prev)
    (hversion : rec.version = prev.version + 1) (hint : prev.version + 1 < 2 ^ 63) :
    ∃ s', persist r.store rec = .ok s' := by
  obtain ⟨log, hlog⟩ := hr.recorded
  obtain ⟨b, hb, hun⟩ := Option.bind_eq_some_iff.mp hprev
  obtain ⟨hne, hlen⟩ := hr.legal _ _ _ hb
  -- the previous version's history key is in the store, and the next one is as long
  have hcount : (ofName rec.name log).length = prev.version := by
    have hnext := hlog.nextVersion_eq rec.name
    unfold nextVersion at hnext
    rw [hprev] at hnext
    have : prev.version + 1 = (ofName rec.name log).length + 1 := hnext
    omega
  have hold := hlog.active_eq_history rec.name
  rw [hb, hcount] at hold
  have hkey := (hr.legal _ _ _ hold.symm).2
  rw [length_schemaHistoryKey _ (by omega)] at hkey
  refine persist_ok hne hlen ?_
  rw [hversion, length_schemaHistoryKey _ (by omega)]
  exact hkey

/-! ## Registering again -/

/-- Every file and every declaration resolves as before. -/
structure SameDescriptors (fs fs' : Files) : Prop where
  files : ∀ path, fs'.findFileByPath path = fs.findFileByPath path
  names : ∀ n, fs'.findDescriptorByName n = fs.findDescriptorByName n

/-- The source compiles, and every file of its closure is the active version
of its path. -/
def ClosureActive (env : Env) (r : Registry) (name source : Bytes) : Prop :=
  ∃ collected, compileClosure env r.store name source = .ok collected ∧
    ∀ (p : Bytes) (f : FileProto), collected[p]? = some f → r.fileProtos[p]? = some f

/-- The active file of the path, if there is one, has no enum with an alias. -/
def AliasFreeAt (r : Registry) (name : Bytes) : Prop :=
  ∀ f, r.fileProtos[name]? = some f → AliasFree f

mutual

/-- Collecting forgets no path. -/
theorem contains_collectFiles {out : BMap FileProto} {p : Bytes} (h : out.contains p = true)
    (fd : LinkedFile) : (collectFiles out fd).contains p = true := by
  match fd with
  | .mk proto imports =>
    unfold collectFiles
    split
    · exact h
    · refine contains_collectImports ?_ imports
      rw [Std.ExtTreeMap.contains_insert, h, Bool.or_true]

theorem contains_collectImports {out : BMap FileProto} {p : Bytes} (h : out.contains p = true)
    (fds : List LinkedFile) : (collectImports out fds).contains p = true := by
  match fds with
  | [] => exact h
  | fd :: rest => exact contains_collectImports (contains_collectFiles h fd) rest

end

/-- A closure has at least the file it is the closure of. -/
theorem closure_nonempty {env : Env} {s : Store} {name source : Bytes}
    {collected : BMap FileProto} (h : compileClosure env s name source = .ok collected) :
    ∃ (p : Bytes) (f : FileProto), collected[p]? = some f := by
  simp only [compileClosure, bind_eq_ok_iff, pure, Except.pure, Except.ok.injEq] at h
  obtain ⟨_, _, _, _, fd, _, rfl⟩ := h
  match fd with
  | .mk proto imports =>
    have hmem : (collectFiles ∅ (.mk proto imports)).contains proto.path = true := by
      unfold collectFiles
      rw [if_neg (by simp)]
      exact contains_collectImports (by simp) imports
    rw [Std.ExtTreeMap.contains_eq_isSome_getElem?] at hmem
    obtain ⟨f, hf⟩ := Option.isSome_iff_exists.mp hmem
    exact ⟨proto.path, f, hf⟩

/-- The resolvable file of a path is the one filed under it. -/
theorem Consistent.findFileByPath {env : Env} {r : Registry} (hr : Consistent env r)
    (path : Bytes) : r.files.findFileByPath path = r.fileProtos[path]? := by
  have hiff : ∀ f, r.files.findFileByPath path = some f ↔ r.fileProtos[path]? = some f := by
    intro f
    rw [Files.findFileByPath_eq_some, hr.mem_files]
    constructor
    · rintro ⟨⟨p, hp⟩, hpath⟩
      rw [← hpath, hr.keyed p f hp]
      exact hp
    · intro hp
      exact ⟨⟨path, hp⟩, hr.keyed path f hp⟩
  exact Option.ext hiff

/-- The check of the active files against themselves. -/
theorem compatible_self_iff {env : Env} {r : Registry} (hr : Consistent env r) (name : Bytes) :
    (r.fileProtos.contains name = true → ensureFileCompatible r.files r.files name = .ok ()) ↔
      AliasFreeAt r name := by
  unfold AliasFreeAt
  rw [Std.ExtTreeMap.contains_eq_isSome_getElem?]
  cases hf : r.fileProtos[name]? with
  | none => simp
  | some f =>
      rw [← hr.findFileByPath] at hf
      simp only [Option.isSome_some, forall_const, Option.some.injEq, forall_eq',
        ensureFileCompatible_self hf]

/-- Two sets with the same files pass the same checks. -/
theorem ensureFileCompatible_congr {fs fs' : Files} (h : SameDescriptors fs fs') (name : Bytes) :
    ensureFileCompatible fs fs' name = ensureFileCompatible fs fs name := by
  unfold ensureFileCompatible
  rw [h.files]

theorem nextVersion_of_record {s : Store} {name : Bytes} {prev : SchemaRecord}
    (h : (s.get schemaBucket name).bind SchemaRecord.unmarshal = some prev) :
    nextVersion s name = prev.version + 1 := by
  unfold nextVersion
  rw [h]

/-- A closure that is active already is accepted without a change to the files
when the check of the file against itself passes. -/
theorem register_active {env : Env} {r : Registry} (hr : Reached env r) {name source : Bytes}
    (createdUnix : Int) {prev : SchemaRecord}
    (hprev : (r.store.get schemaBucket name).bind SchemaRecord.unmarshal = some prev)
    (hint : prev.version + 1 < 2 ^ 63) (hactive : ClosureActive env r name source)
    (halias : AliasFreeAt r name) :
    ∃ store, register env r name source createdUnix =
      (⟨store, r.fileProtos, r.files⟩, .ok (prev.version + 1)) := by
  obtain ⟨collected, hclosure, hsame⟩ := hactive
  -- the candidate is the active set: same map, hence same build
  have hoverlay : BMap.overlay r.fileProtos collected = r.fileProtos := by
    refine BMap.ext fun p => ?_
    rw [BMap.get_overlay]
    cases hp : collected[p]? with
    | none => rfl
    | some f => exact (hsame p f hp).symm
  have hfiles : buildFiles env (BMap.overlay r.fileProtos collected) = .ok r.files := by
    rw [hoverlay]
    -- the empty map is the one that is not built, and a closure is not empty
    refine hr.consistent.built_files (.inr ?_)
    intro hempty
    obtain ⟨p, f, hf⟩ := closure_nonempty hclosure
    have hp := hsame p f hf
    rw [hempty] at hp
    simp at hp
  have hcheck : (if r.fileProtos.contains name then
      wrap (ensureFileCompatible r.files r.files name) SchemaErr.incompatible
      else .ok ()) = .ok () := by
    split
    · rename_i hc
      exact wrap_eq_ok_iff.mpr ((compatible_self_iff hr.consistent name).mpr halias hc)
    · rfl
  have hnext := nextVersion_of_record hprev
  let call : RegisterCall := ⟨name, source, createdUnix⟩
  have hpersist : ∃ store, persist r.store (recordOf env r.store call collected) = .ok store :=
    hr.persist_next hprev hnext hint
  obtain ⟨store, hstore⟩ := hpersist
  refine ⟨store, ?_⟩
  have haccept : accept env r call.name call.source call.createdUnix = _ :=
    accept_eq hclosure hfiles
  unfold register
  rw [haccept, hcheck, ok_bind, hstore, ok_bind, hoverlay, hnext]


/-- **Registering the active source again**, of any reached registry: it
succeeds with the next version and changes no descriptor exactly when the
source compiles to files that are active and the file has no enum alias. -/
theorem register_again_iff {env : Env} {r : Registry} (hr : Reached env r) {name source : Bytes}
    (createdUnix : Int) {prev : SchemaRecord}
    (hprev : (r.store.get schemaBucket name).bind SchemaRecord.unmarshal = some prev)
    (hint : prev.version + 1 < 2 ^ 63) :
    (∃ r', register env r name source createdUnix = (r', .ok (prev.version + 1)) ∧
        SameDescriptors r.files r'.files) ↔
      ClosureActive env r name source ∧ AliasFreeAt r name := by
  constructor
  · rintro ⟨r', hreg, hsame⟩
    rcases register_cases env r name source createdUnix with
      ⟨e, he⟩ | ⟨r₁, version, collected, heq, hacc⟩
    · rw [he] at hreg
      cases hreg
    · rw [heq] at hreg
      cases hreg
      refine ⟨⟨collected, hacc.closure, ?_⟩, ?_⟩
      · -- a file of the closure is what its path resolves to afterwards, hence before
        intro p f hf
        have hafter := (consistent_accepted hr.consistent hacc).findFileByPath p
        rw [hsame.files, hr.consistent.findFileByPath, hacc.fileProtos, BMap.get_overlay, hf]
          at hafter
        exact hafter
      · refine (compatible_self_iff hr.consistent name).mp fun hc => ?_
        rw [← ensureFileCompatible_congr hsame]
        exact hacc.compatible hc
  · rintro ⟨hactive, halias⟩
    obtain ⟨store, hreg⟩ := register_active hr createdUnix hprev hint hactive halias
    exact ⟨_, hreg, fun _ => rfl, fun _ => rfl⟩

/-! ## Twice in a row -/

/-- The source of a record over the ones before it. -/
def addSource (m : BMap Bytes) (b : Blob) : BMap Bytes :=
  match SchemaRecord.unmarshal b with
  | some rec => m.insert rec.name rec.source
  | none => m

def addSources (m : BMap Bytes) (es : List (Bytes × Blob)) : BMap Bytes :=
  es.foldl (fun m e => addSource m e.2) m

theorem addSource_eq (m : BMap Bytes) {b : Blob} {rec : SchemaRecord}
    (h : SchemaRecord.unmarshal b = some rec) :
    addSource m b = m.insert rec.name rec.source := by
  unfold addSource
  rw [h]

/-- A record has a say in the source of its own name only. -/
theorem get_addSource_ne (m : BMap Bytes) {b : Blob} {p : Bytes}
    (h : ∀ rec, SchemaRecord.unmarshal b = some rec → rec.name ≠ p) :
    (addSource m b)[p]? = m[p]? := by
  unfold addSource
  split
  · rename_i rec hrec
    rw [BMap.get_insert, if_neg (h rec hrec)]
  · rfl

theorem get_addSource_congr {m m' : BMap Bytes} {p : Bytes} (hm : m[p]? = m'[p]?) (b : Blob) :
    (addSource m b)[p]? = (addSource m' b)[p]? := by
  unfold addSource
  split
  · rw [BMap.get_insert, BMap.get_insert, hm]
  · exact hm

theorem foldlM_addSources {es : List (Bytes × Blob)}
    (hes : ∀ e ∈ es, (SchemaRecord.unmarshal e.2).isSome = true) (m : BMap Bytes) :
    es.foldlM (fun m e => do
      let rec ← orErr (SchemaRecord.unmarshal e.2) SchemaErr.corruptRecord
      return m.insert rec.name rec.source) m = .ok (addSources m es) := by
  induction es generalizing m with
  | nil => rfl
  | cons e es ih =>
      obtain ⟨rec, hrec⟩ := Option.isSome_iff_exists.mp (hes e List.mem_cons_self)
      have hstep : addSources m (e :: es) = addSources (m.insert rec.name rec.source) es := by
        rw [← addSource_eq m hrec]
        rfl
      rw [List.foldlM_cons, hrec, orErr_some, ok_bind, hstep]
      exact ih (fun x hx => hes x (List.mem_cons_of_mem _ hx)) _

theorem activeSources_eq {s : Store} (hs : Readable s) :
    activeSources s = .ok (addSources ∅ (s.scan schemaBucket)) :=
  foldlM_addSources (fun e he => hs e.1 e.2 (Storage.Store.mem_scan.mp he)) ∅

/-- For the source of `p`, records that name other schemas can be left out. -/
theorem get_addSources_filter {p : Bytes} {keep : Bytes × Blob → Bool}
    {es : List (Bytes × Blob)}
    (hother : ∀ e ∈ es, keep e = false → ∀ rec, SchemaRecord.unmarshal e.2 = some rec →
      rec.name ≠ p)
    {m m' : BMap Bytes} (hm : m[p]? = m'[p]?) :
    (addSources m es)[p]? = (addSources m' (es.filter keep))[p]? := by
  induction es generalizing m m' with
  | nil => exact hm
  | cons e es ih =>
      have hrest := fun x hx => hother x (List.mem_cons_of_mem e hx)
      cases hk : keep e with
      | false =>
          rw [List.filter_cons_of_neg (by simp [hk])]
          exact ih hrest ((get_addSource_ne m (hother e List.mem_cons_self hk)).trans hm)
      | true =>
          rw [List.filter_cons_of_pos hk]
          exact ih hrest (get_addSource_congr hm e.2)

/-- A record carries the name it is stored under, made valid. -/
theorem Recorded.name_eq {s : Store} {log : List Acceptance} (hs : Recorded s log) {k : Bytes}
    {b : Blob} (hb : s.get schemaBucket k = some b) {rec : SchemaRecord}
    (hrec : SchemaRecord.unmarshal b = some rec) : rec.name = toValidUTF8 k := by
  rw [hs.active k] at hb
  obtain ⟨a, hlast, hactive⟩ := Option.bind_eq_some_iff.mp hb
  obtain ⟨ha, hname⟩ := mem_ofName.mp (List.mem_of_getLast? hlast)
  obtain ⟨rec', hmarshal, hname', _⟩ := hs.record a ha
  rw [hmarshal] at hactive
  cases hactive
  cases hrec
  rw [← hname, ← hname']

/-- With the source of a valid name in place, the sources before and after the
name's record is replaced are the same. -/
theorem sources_persist {s s' : Store} {log log' : List Acceptance} (hs : Recorded s log)
    (hs' : Recorded s' log') {rec : SchemaRecord} (h : persist s rec = .ok s')
    (hvalid : validString rec.name = true) (source : Bytes) :
    (addSources ∅ (s'.scan schemaBucket)).insert rec.name source =
      (addSources ∅ (s.scan schemaBucket)).insert rec.name source := by
  let keep : Bytes × Blob → Bool := fun e => decide (e.1 ≠ rec.name)
  -- the record under the name carries that name, so it is none of the others' sources
  have hothers : ∀ {t : Store} {l : List Acceptance}, Recorded t l → ∀ p, p ≠ rec.name →
      (addSources ∅ (t.scan schemaBucket))[p]? =
        (addSources ∅ ((t.scan schemaBucket).filter keep))[p]? := by
    intro t l ht p hp
    refine get_addSources_filter ?_ rfl
    intro e he hkeep rec' hrec'
    have hkey : e.1 = rec.name := by simpa [keep] using hkeep
    rw [ht.name_eq (Storage.Store.mem_scan.mp he) hrec', hkey, toValidUTF8_eq_self hvalid]
    exact hp.symm
  refine BMap.ext fun p => ?_
  rw [BMap.get_insert, BMap.get_insert]
  split
  · rfl
  · rename_i hp
    rw [hothers hs' p (Ne.symm hp), hothers hs p (Ne.symm hp),
      scan_filter_persist h fun e he => of_decide_eq_true he]

/-- Right after an accepted registration under a valid name the same source
compiles to files that are all active. -/
theorem closureActive_accepted {env : Env} {r r' : Registry} (hr : Reached env r)
    (hr' : Reached env r') {name source : Bytes} {createdUnix : Int} {version : Nat}
    {collected : BMap FileProto} (hvalid : validString name = true)
    (hacc : Accepted env r r' name source createdUnix version collected) :
    ClosureActive env r' name source := by
  obtain ⟨log, hlog⟩ := hr.recorded
  obtain ⟨log', hlog'⟩ := hr'.recorded
  have hsources := sources_persist hlog hlog' hacc.store hvalid source
  refine ⟨collected, ?_, ?_⟩
  · rw [← hacc.closure]
    unfold compileClosure
    rw [activeSources_eq hr.consistent.readable, activeSources_eq hr'.consistent.readable, ok_bind,
      ok_bind, hsources]
  · intro p f hf
    rw [hacc.fileProtos, BMap.get_overlay, hf]
    rfl

/-- The record of an accepted registration is the active one. -/
theorem record_accepted {env : Env} {r r' : Registry} {name source : Bytes} {createdUnix : Int}
    {version : Nat} {collected : BMap FileProto}
    (hacc : Accepted env r r' name source createdUnix version collected) :
    ∃ rec, (r'.store.get schemaBucket name).bind SchemaRecord.unmarshal = some rec ∧
      rec.version = version := by
  rw [persist_active hacc.store, if_pos rfl]
  exact ⟨_, rfl, rfl⟩

theorem register_run {env : Env} (events : List Event) {name source : Bytes} {createdUnix : Int}
    {r' : Registry} {version : Nat}
    (h : register env (run (stepEvent env) Registry.initial events) name source createdUnix =
      (r', .ok version)) :
    r' = run (stepEvent env) Registry.initial
      (events ++ [.register {} ⟨name, source, createdUnix⟩]) := by
  rw [run_concat]
  generalize run (stepEvent env) Registry.initial events = r at h ⊢
  simp only [stepEvent, registerM_eq_register, h]

/-! ## The result -/

/-- **Registering the active source again.** A file of a descriptor set passes
the check against itself exactly when no enum in it has two names for one
number. Of every registry that a run has led to, and every registered name:
registering the source of its active version succeeds with the next version and
leaves every file and declaration as it resolves exactly when the source
compiles to active files and the file has no enum alias. Directly after an
accepted registration, only the second condition is left.

Versions are a Go `int`. -/
theorem reregister_iff (env : Env) (events : List Event) (name : Bytes) (createdUnix : Int) :
    let r := run (stepEvent env) Registry.initial events
    (∀ (fs : Files) (path : Bytes) (f : FileProto), fs.findFileByPath path = some f →
      (ensureFileCompatible fs fs path = .ok () ↔ AliasFree f)) ∧
    (∀ prev : SchemaRecord,
      (r.store.get schemaBucket name).bind SchemaRecord.unmarshal = some prev →
      prev.version + 1 < 2 ^ 63 →
      ((∃ r', register env r name prev.source createdUnix = (r', .ok (prev.version + 1)) ∧
          SameDescriptors r.files r'.files) ↔
        ClosureActive env r name prev.source ∧ AliasFreeAt r name)) ∧
    ∀ (source : Bytes) (first : Int) (r' : Registry) (version : Nat),
      validString name = true → version + 1 < 2 ^ 63 →
      register env r name source first = (r', .ok version) →
      ((∃ r'', register env r' name source createdUnix = (r'', .ok (version + 1)) ∧
          SameDescriptors r'.files r''.files) ↔ AliasFreeAt r' name) := by
  intro r
  have hr : Reached env r := reached_run env events
  refine ⟨?_, ?_, ?_⟩
  · intro fs path f hf
    exact ensureFileCompatible_self hf
  · intro prev hprev hint
    exact register_again_iff hr createdUnix hprev hint
  · intro source first r' version hvalid hint hreg
    have hr' : Reached env r' := by
      rw [register_run events hreg]
      exact reached_run env _
    rcases register_cases env r name source first with
      ⟨e, he⟩ | ⟨r₁, version', collected, heq, hacc⟩
    · rw [he] at hreg
      cases hreg
    · rw [heq] at hreg
      cases hreg
      obtain ⟨rec, hrec, hversion⟩ := record_accepted hacc
      rw [← hversion] at hint ⊢
      rw [register_again_iff hr' createdUnix hrec hint]
      exact and_iff_right (closureActive_accepted hr hr' hvalid hacc)

/-- The memo of the history's run: its second version is registered a third
and a fourth time. -/
theorem reregister_iff_memo :
    let env := tableEnv memoParse
    let name := ascii "memo.proto"
    let r := run (stepEvent env) Registry.initial memoEvents
    (∃ f, r.files.findFileByPath name = some f ∧
      (ensureFileCompatible r.files r.files name = .ok () ↔ AliasFree f)) ∧
    (∃ prev, (r.store.get schemaBucket name).bind SchemaRecord.unmarshal = some prev ∧
      prev.version = 2 ∧
      ((∃ r', register env r name prev.source 0 = (r', .ok (prev.version + 1)) ∧
          SameDescriptors r.files r'.files) ↔
        ClosureActive env r name prev.source ∧ AliasFreeAt r name)) ∧
    ∃ r' r'', register env r name memo2 0 = (r', .ok 3) ∧
      register env r' name memo2 0 = (r'', .ok 4) ∧
      SameDescriptors r'.files r''.files := by
  intro env name r
  obtain ⟨hself, hagain, htwice⟩ := reregister_iff env memoEvents name 0
  refine ⟨?_, ?_, ?_⟩
  · have hfile : (r.files.findFileByPath name).isSome = true := by decide +kernel
    obtain ⟨f, hf⟩ := Option.isSome_iff_exists.mp hfile
    exact ⟨f, hf, hself r.files name f hf⟩
  · have hrec : ((r.store.get schemaBucket name).bind SchemaRecord.unmarshal).map (·.version) =
        some 2 := by decide +kernel
    obtain ⟨prev, hprev, hversion⟩ := Option.map_eq_some_iff.mp hrec
    exact ⟨prev, hprev, hversion, hagain prev hprev (by omega)⟩
  · have hthird : (register env r name memo2 0).2 = .ok 3 := by decide +kernel
    have halias : ((register env r name memo2 0).1.fileProtos[name]?).all
        (fun f => decide (AliasFree f)) = true := by decide +kernel
    cases hreg : register env r name memo2 0 with
    | mk r' res =>
        rw [hreg] at hthird halias
        cases hthird
        have hfree : AliasFreeAt r' name := by
          intro f hf
          rw [hf] at halias
          exact of_decide_eq_true halias
        obtain ⟨r'', hfourth, hsame⟩ :=
          (htwice memo2 0 r' 3 (by decide) (by decide) hreg).mpr hfree
        exact ⟨r', r'', rfl, hfourth, hsame⟩

/-! ## Two ways it fails -/

def phaseSource : Bytes := ascii "syntax = \"proto3\"; package shop; enum Phase \x7b
  option allow_alias = true; UNKNOWN = 0; STARTED = 1; RUNNING = 1; \x7d"

/-- The source, parsed. -/
def phaseParse (path text : Bytes) : Option FileProto :=
  let value (name : Ident) (number : Int) : EnumValue := ⟨name, number⟩
  let phase : EnumDesc := ⟨⟨ascii "Phase", by decide⟩, [
    value ⟨ascii "UNKNOWN", by decide⟩ 0, value ⟨ascii "STARTED", by decide⟩ 1,
    value ⟨ascii "RUNNING", by decide⟩ 1]⟩
  if text = phaseSource then some ⟨path, [shopPackage], [], [], [phase]⟩ else none

/-- Two registries and the source of an active version of each. The first holds
an enum with an alias, and refuses its own source: the second name of 1 is
looked up by number and found to be the first. The second has reopened with an
older version of `money.proto` than the one its record holds; registering the
record's source again is accepted, and changes the message. -/
theorem reregister_fails :
    (let env := tableEnv phaseParse
     let r := run (stepEvent env) Registry.initial
       [.register {} ⟨ascii "phase.proto", phaseSource, 0⟩]
     ((r.store.get schemaBucket (ascii "phase.proto")).bind SchemaRecord.unmarshal).map
         (fun rec => (rec.version, rec.source)) = some (1, phaseSource) ∧
       (register env r (ascii "phase.proto") phaseSource 0).2 =
         .error (.incompatible (.enumValueChanged (ascii "shop.RUNNING") 1))) ∧
    (let env := tableEnv shopParse
     let r := run (stepEvent env) Registry.initial
       [.register {} ⟨ascii "money.proto", money1, 0⟩,
        .register {} ⟨ascii "order.proto", order1, 0⟩,
        .register {} ⟨ascii "money.proto", money2, 0⟩, .restart]
     let fields (fs : Files) := (fs.findMessage (ascii "shop.Money")).map fun md => md.fields.length
     ((r.store.get schemaBucket (ascii "money.proto")).bind SchemaRecord.unmarshal).map
         (fun rec => (rec.version, rec.source)) = some (2, money2) ∧
       fields r.files = some 1 ∧
       (register env r (ascii "money.proto") money2 0).2 = .ok 3 ∧
       fields (register env r (ascii "money.proto") money2 0).1.files = some 2) := by
  constructor
  · decide +kernel
  · decide +kernel

end KoraDB.Schema
