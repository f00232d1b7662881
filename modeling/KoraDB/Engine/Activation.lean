import KoraDB.Engine.Readings

/-!
# Registration while documents are written

`Register` commits a schema in one transaction and makes its descriptors
active afterwards, by a pointer swap that no transaction guards. The machine
below takes the calls apart where others can come in between:

* a registration is committed, and later activated; `regMu` keeps the next one
  out until then;
* a document operation is one transaction, in which the swap may fall after any
  number of readings. It cannot span two swaps: the commit between them would
  need the write transaction it holds;
* `CreateCollection` checks its options against the descriptors of the moment,
  and later writes its definition.

`registration_linearizable`: as long as registrations keep names, required
fields and defaults, what completes is what completes when every call runs at
one point between its beginning and its answer.
-/

namespace KoraDB.Engine

open KoraDB.Base KoraDB.Proto KoraDB.Catalog KoraDB.Schema

/-! ## The machine -/

/-- A registration between its commit and its activation. -/
structure Pending where
  call : RegisterCall
  fileProtos : BMap FileProto
  files : Files
  version : Nat

/-- A database in use: the file with what is active, the registration that
holds `regMu`, and the calls of `CreateCollection` before their transaction. -/
structure Live where
  registry : Registry
  pending : Option Pending
  looked : List (Bytes × Bytes × CollectionOptions)

def Live.initial : Live := ⟨Registry.initial, none, []⟩

inductive LiveEvent
  | commit (call : RegisterCall)
  | activate
  | lookUp (name messageType : Bytes) (opts : CollectionOptions)
  | create (i : Nat)
  /-- With `some k`, the pending activation falls after `k` readings. -/
  | write (call : DocCall) (swap : Option Nat)

/-- What a call returns. -/
inductive Answer
  | version (res : Except SchemaErr Nat)
  | result (res : Except EngineErr Bytes)

/-- A call that has returned, with its answer. -/
abbrev Done := DbCall × Answer

/-- The pointer swap. -/
def Live.swapped (l : Live) (p : Pending) : Live :=
  { l with registry := ⟨l.registry.store, p.fileProtos, p.files⟩, pending := none }

def Live.stored (l : Live) (s : Store) : Live :=
  { l with registry := { l.registry with store := s } }

/-- One event: the next state, and the calls it completes. -/
def liveStep (env : Env) (codec : Codec) (l : Live) : LiveEvent → Live × List Done
  | .commit call =>
    match l.pending with
    | some _ => (l, [])
    | none =>
      match accept env l.registry call.name call.source call.createdUnix with
      | .error e => (l, [(.register call, .version (.error e))])
      | .ok (r, version) =>
        ({ l.stored r.store with pending := some ⟨call, r.fileProtos, r.files, version⟩ }, [])
  | .activate =>
    match l.pending with
    | none => (l, [])
    | some p => (l.swapped p, [(.register p.call, .version (.ok p.version))])
  | .lookUp name messageType opts =>
    match checkCollection l.registry.files messageType opts with
    | .error e => (l, [(.call (.createCollection name messageType opts), .result (.error e))])
    | .ok () => ({ l with looked := l.looked ++ [(name, messageType, opts)] }, [])
  | .create i =>
    match l.looked[i]? with
    | none => (l, [])
    | some (name, messageType, opts) =>
      let (s, res) := l.registry.store.update (createTx name messageType opts)
      ({ l.stored s with looked := l.looked.eraseIdx i },
        [(.call (.createCollection name messageType opts), .result (res.map fun _ => []))])
  | .write call swap =>
    match l.pending, swap with
    | some p, some k =>
      let (s, res) := execAt codec (swapAt k l.registry.files p.files) l.registry.store call
      ((l.stored s).swapped p,
        [(.call call.call, .result res), (.register p.call, .version (.ok p.version))])
    | _, _ =>
      let (s, res) := execAt codec (fun _ => l.registry.files) l.registry.store call
      (l.stored s, [(.call call.call, .result res)])

/-- The state after a run of events. -/
def liveAfter (env : Env) (codec : Codec) (events : List LiveEvent) : Live :=
  run (fun l e => (liveStep env codec l e).1) Live.initial events

/-- What completes, event by event. -/
def completions (env : Env) (codec : Codec) : Live → List LiveEvent → List (List Done)
  | _, [] => []
  | l, e :: events =>
    (liveStep env codec l e).2 :: completions env codec (liveStep env codec l e).1 events

/-- The outcomes of an event. -/
inductive Moves (env : Env) (codec : Codec) (l : Live) : LiveEvent → Live × List Done → Prop
  | idle {e : LiveEvent} : Moves env codec l e (l, [])
  | refused {call : RegisterCall} {e : SchemaErr} (free : l.pending = none)
      (h : accept env l.registry call.name call.source call.createdUnix = .error e) :
      Moves env codec l (.commit call) (l, [(.register call, .version (.error e))])
  | committed {call : RegisterCall} {r : Registry} {version : Nat} (free : l.pending = none)
      (h : accept env l.registry call.name call.source call.createdUnix = .ok (r, version)) :
      Moves env codec l (.commit call)
        ({ l.stored r.store with pending := some ⟨call, r.fileProtos, r.files, version⟩ }, [])
  | activated {p : Pending} (h : l.pending = some p) :
      Moves env codec l .activate (l.swapped p, [(.register p.call, .version (.ok p.version))])
  | unfit {name messageType : Bytes} {opts : CollectionOptions} {e : EngineErr}
      (h : checkCollection l.registry.files messageType opts = .error e) :
      Moves env codec l (.lookUp name messageType opts)
        (l, [(.call (.createCollection name messageType opts), .result (.error e))])
  | fit {name messageType : Bytes} {opts : CollectionOptions}
      (h : checkCollection l.registry.files messageType opts = .ok ()) :
      Moves env codec l (.lookUp name messageType opts)
        ({ l with looked := l.looked ++ [(name, messageType, opts)] }, [])
  | created {i : Nat} {name messageType : Bytes} {opts : CollectionOptions} {s : Store}
      {res : Except EngineErr CollectionMeta} (h : l.looked[i]? = some (name, messageType, opts))
      (htx : l.registry.store.update (createTx name messageType opts) = (s, res)) :
      Moves env codec l (.create i) ({ l.stored s with looked := l.looked.eraseIdx i },
        [(.call (.createCollection name messageType opts), .result (res.map fun _ => []))])
  | written {call : DocCall} {swap : Option Nat} {s : Store} {res : Except EngineErr Bytes}
      (h : execAt codec (fun _ => l.registry.files) l.registry.store call = (s, res)) :
      Moves env codec l (.write call swap) (l.stored s, [(.call call.call, .result res)])
  | across {call : DocCall} {k : Nat} {p : Pending} {s : Store} {res : Except EngineErr Bytes}
      (hp : l.pending = some p)
      (h : execAt codec (swapAt k l.registry.files p.files) l.registry.store call = (s, res)) :
      Moves env codec l (.write call (some k)) ((l.stored s).swapped p,
        [(.call call.call, .result res), (.register p.call, .version (.ok p.version))])

theorem liveStep_moves (env : Env) (codec : Codec) (l : Live) (e : LiveEvent) :
    Moves env codec l e (liveStep env codec l e) := by
  cases e with
  | commit call =>
      simp only [liveStep]
      split
      · exact .idle
      · rename_i hp
        split
        · rename_i hacc
          exact .refused hp hacc
        · rename_i hacc
          exact .committed hp hacc
  | activate =>
      simp only [liveStep]
      split
      · exact .idle
      · rename_i hp
        exact .activated hp
  | lookUp name messageType opts =>
      simp only [liveStep]
      split
      · rename_i hcheck
        exact .unfit hcheck
      · rename_i hcheck
        exact .fit hcheck
  | create i =>
      simp only [liveStep]
      split
      · exact .idle
      · rename_i hi
        exact .created hi rfl
  | write call swap =>
      simp only [liveStep]
      split
      · rename_i hp
        exact .across hp rfl
      · exact .written rfl

/-! ## Its sequential reading -/

/-- The answer to a call that has the database to itself. -/
def answerOf (env : Env) (codec : Codec) (r : Registry) : DbCall → Option Answer
  | .register call => some (.version (register env r call.name call.source call.createdUnix).2)
  | .call call => some (.result (exec codec r.files r.store call).2)
  | .reopen => none

theorem answerOf_register {env : Env} {codec : Codec} {r : Registry} {call : RegisterCall}
    {res : Except SchemaErr Nat}
    (h : (register env r call.name call.source call.createdUnix).2 = res) :
    answerOf env codec r (.register call) = some (.version res) := by
  rw [← h]
  rfl

theorem answerOf_call {env : Env} {codec : Codec} {r : Registry} {call : Call}
    {res : Except EngineErr Bytes} (h : (exec codec r.files r.store call).2 = res) :
    answerOf env codec r (.call call) = some (.result res) := by
  rw [← h]
  rfl

/-- One call after the other, each with its answer. -/
def Sequential (env : Env) (codec : Codec) : Registry → List Done → Prop
  | _, [] => True
  | r, (call, answer) :: rest =>
    answerOf env codec r call = some answer ∧ Sequential env codec (dbStep env codec r call) rest

/-- The registry one call after the other leaves. -/
def sequentialAfter (env : Env) (codec : Codec) (r : Registry) (calls : List Done) : Registry :=
  run (dbStep env codec) r (calls.map Prod.fst)

theorem sequential_append {env : Env} {codec : Codec} {r : Registry} {first rest : List Done} :
    Sequential env codec r (first ++ rest) ↔
      Sequential env codec r first ∧
        Sequential env codec (sequentialAfter env codec r first) rest := by
  induction first generalizing r with
  | nil => simp [Sequential, sequentialAfter]
  | cons d first ih =>
      obtain ⟨call, answer⟩ := d
      rw [List.cons_append]
      simp only [Sequential, ih, and_assoc]
      rfl

theorem sequentialAfter_append (env : Env) (codec : Codec) (r : Registry)
    (first rest : List Done) :
    sequentialAfter env codec r (first ++ rest) =
      sequentialAfter env codec (sequentialAfter env codec r first) rest := by
  unfold sequentialAfter
  rw [List.map_append, run_append]

/-- The condition on one event. -/
def SchemaKept (env : Env) (l : Live) : LiveEvent → Prop
  | .commit call => keepsNames env l.registry call = true ∧
      keepsRequired env l.registry call = true ∧ keepsFieldDefaults env l.registry call = true
  | _ => True

/-- The live database is the sequential one `r`, up to a registration that is
committed and would be accepted by `r`. -/
structure Stands (env : Env) (l : Live) (r : Registry) : Prop where
  fileProtos : l.registry.fileProtos = r.fileProtos
  files : l.registry.files = r.files
  settled : l.pending = none → l.registry.store = r.store
  pending : ∀ p, l.pending = some p →
    accept env r p.call.name p.call.source p.call.createdUnix =
        .ok (⟨l.registry.store, p.fileProtos, p.files⟩, p.version) ∧
      Compatible r.files p.files
  looked : ∀ e ∈ l.looked, checkCollection r.files e.2.1 e.2.2 = .ok ()
  legible : Legible env r

section Simulation

variable {env : Env} {codec : Codec} {l : Live} {r : Registry}

theorem stands_initial (env : Env) : Stands env Live.initial Registry.initial :=
  ⟨rfl, rfl, fun _ => rfl, fun _ h => (by cases h), fun _ h => absurd h List.not_mem_nil,
    consistent_initial env, (sound_empty _).toTyped⟩

theorem Stands.registry_eq (h : Stands env l r) (hp : l.pending = none) : l.registry = r := by
  have hstore := h.settled hp
  have hprotos := h.fileProtos
  have hfiles := h.files
  obtain ⟨⟨s, protos, files⟩, pending, looked⟩ := l
  obtain ⟨s', protos', files'⟩ := r
  cases hstore
  cases hprotos
  cases hfiles
  rfl

/-- The engine's buckets are the same on both sides. -/
theorem Stands.beside (h : Stands env l r) :
    Beside (fun b => r.store.buckets[b]?) (fun b => l.registry.store.buckets[b]?) r.store
      l.registry.store := by
  cases hp : l.pending with
  | none =>
      rw [h.settled hp]
      exact ⟨fun _ _ => rfl, fun _ _ => rfl, fun _ _ => rfl⟩
  | some p =>
      have hacc := (h.pending p hp).1
      exact @accept_beside env r ⟨l.registry.store, p.fileProtos, p.files⟩ p.call p.version hacc

/-- A transaction of the engine, on both sides. -/
theorem Stands.stored (h : Stands env l r) {t u : Store}
    (ht : Beside (fun b => r.store.buckets[b]?) (fun b => l.registry.store.buckets[b]?) u t)
    (hleg : Legible env { r with store := u }) : Stands env (l.stored t) { r with store := u } where
  fileProtos := h.fileProtos
  files := h.files
  settled hp := by
    have hstore := h.settled hp
    suffices hmap : t.buckets = u.buckets by
      obtain ⟨m⟩ := t
      obtain ⟨m'⟩ := u
      cases hmap
      rfl
    refine BMap.ext fun b => ?_
    by_cases hb : isEngineBucket b = true
    · exact ht.inside b hb
    · rw [ht.right b hb, ht.left b hb, hstore]
  pending p hp := ⟨accept_after (h.pending p hp).1 ht, (h.pending p hp).2⟩
  looked := h.looked
  legible := hleg

/-- What a request for a collection was checked against stays. -/
theorem checkCollection_evolves {fs fs' : Files} (he : Evolves fs fs') {messageType : Bytes}
    {opts : CollectionOptions} (h : checkCollection fs messageType opts = .ok ()) :
    checkCollection fs' messageType opts = .ok () := by
  unfold checkCollection at h ⊢
  simp only [bind_eq_ok_iff, wrap_eq_ok_iff, messageDescriptor_eq_ok_iff] at h
  obtain ⟨md, hmd, h⟩ := h
  obtain ⟨md', hmd', hkept⟩ := he messageType md hmd
  rw [messageDescriptor_eq_ok_iff.mpr hmd', wrap_ok, ok_bind]
  have hindex : ∀ f, checkIndex md messageType f = .ok () →
      checkIndex md' messageType f = .ok () := by
    intro f hf
    simp only [checkIndex, bind_eq_ok_iff, orErr_eq_ok_iff, reject_eq_ok_iff] at hf ⊢
    obtain ⟨fd, hfd, hind⟩ := hf
    obtain ⟨fd', hfd', hsame⟩ := byName_kept hmd' hkept hfd
    refine ⟨fd', hfd', ?_⟩
    rw [Index.indexable_congr hsame.name hsame.kind hsame.cardinality hsame.isMap]
    exact hind
  have hkey : checkKeyField md messageType opts.keyField = .ok () →
      checkKeyField md' messageType opts.keyField = .ok () := by
    intro hf
    simp only [checkKeyField, bind_eq_ok_iff, orErr_eq_ok_iff, reject_eq_ok_iff] at hf ⊢
    obtain ⟨fd, hfd, u, hscalar, hsup⟩ := hf
    obtain ⟨fd', hfd', hsame⟩ := byName_kept hmd' hkept hfd
    refine ⟨fd', hfd', u, ?_, ?_⟩
    · unfold FieldDesc.isList at hscalar ⊢
      rw [hsame.cardinality, hsame.isMap, hsame.kind]
      exact hscalar
    · rw [hsame.kind]
      exact hsup
  by_cases hk : opts.keyField ≠ []
  · rw [if_pos hk] at h ⊢
    obtain ⟨_, hcheck, hidx⟩ := bind_eq_ok_iff.mp h
    rw [hkey hcheck, ok_bind]
    exact forM_eq_ok_iff.mpr fun f hf => hindex f (forM_eq_ok_iff.mp hidx f hf)
  · rw [if_neg hk] at h ⊢
    exact forM_eq_ok_iff.mpr fun f hf => hindex f (forM_eq_ok_iff.mp h f hf)

/-- An activated registration, on both sides. -/
theorem Stands.activated (h : Stands env l r) {p : Pending} (hp : l.pending = some p) :
    Stands env (l.swapped p) ⟨l.registry.store, p.fileProtos, p.files⟩ := by
  obtain ⟨hacc, hcompat⟩ := h.pending p hp
  obtain ⟨hstep, _⟩ := stepRegister_accepted hacc
  refine ⟨rfl, rfl, fun _ => rfl, fun _ hnone => (by cases hnone), ?_, ?_, ?_⟩
  · intro e he
    exact checkCollection_evolves hcompat.evolves (h.looked e he)
  · rw [← hstep]
    exact consistent_step h.legible.consistent p.call
  · obtain ⟨hcoll, hdata, _⟩ := @register_frame env r p.call
    rw [hstep] at hcoll hdata
    exact typed_evolves hcompat.evolves hcompat.required hcoll hdata h.legible.typed

/-- The documents of the live file are typed as those of the sequential one. -/
theorem Stands.typed (h : Stands env l r) : Typed r.files l.registry.store := by
  have hbeside := h.beside
  refine typed_evolves (Evolves.refl _) (NoNewRequired.refl _) ?_ ?_ h.legible.typed
  · intro c
    exact hbeside.get rfl c
  · intro c k
    exact hbeside.get (isEngineBucket_data c) k

/-- A commit leaves the sequential database for the activation. -/
theorem Stands.committed (h : Stands env l r) {call : RegisterCall} {r' : Registry}
    {version : Nat} (hp : l.pending = none)
    (hacc : accept env l.registry call.name call.source call.createdUnix = .ok (r', version))
    (hc : SchemaKept env l (.commit call)) :
    Stands env { l.stored r'.store with
      pending := some ⟨call, r'.fileProtos, r'.files, version⟩ } r := by
  obtain ⟨hnames, hreq, hdef⟩ := hc
  rw [h.registry_eq hp] at hacc hnames hreq hdef
  have hcons := h.legible.consistent
  have hcompat : Compatible r.files r'.files := by
    rw [← (stepRegister_accepted hacc).1]
    exact ⟨evolves_register hcons hnames, noNewRequired_register hcons hnames hreq,
      defaultsKept_register hcons hnames hdef⟩
  refine ⟨h.fileProtos, h.files, fun hnone => (by cases hnone), ?_, h.looked, h.legible⟩
  intro p hsome
  cases hsome
  exact ⟨hacc, hcompat⟩

/-- The transaction of a checked request is the whole call. -/
theorem exec_createCollection {fs : Files} {s : Store} {name messageType : Bytes}
    {opts : CollectionOptions} (h : checkCollection fs messageType opts = .ok ()) :
    exec codec fs s (.createCollection name messageType opts) =
      ((s.update (createTx name messageType opts)).1,
        (s.update (createTx name messageType opts)).2.map fun _ => []) := by
  show ((createCollection fs s name messageType opts).1,
    (createCollection fs s name messageType opts).2.map fun _ => []) = _
  rw [createCollection_eq]
  simp only [h, ok_bind]

theorem exec_createCollection_unfit {fs : Files} {s : Store} {name messageType : Bytes}
    {opts : CollectionOptions} {e : EngineErr}
    (h : checkCollection fs messageType opts = .error e) :
    exec codec fs s (.createCollection name messageType opts) = (s, .error e) := by
  show ((createCollection fs s name messageType opts).1,
    (createCollection fs s name messageType opts).2.map fun _ => []) = _
  rw [createCollection_eq]
  unfold Storage.Store.update
  simp only [h, error_bind]
  rfl

/-- A call of the engine with the database to itself, when both sides agree on
its outcome. -/
theorem Stands.called (h : Stands env l r) (call : Call) {t : Store}
    (ht : Beside (fun b => r.store.buckets[b]?) (fun b => l.registry.store.buckets[b]?)
      (exec codec r.files r.store call).1 t) :
    Stands env (l.stored t) (dbStep env codec r (.call call)) :=
  h.stored ht (@legible_dbStep env codec r h.legible (.call call) trivial)

/-- A document operation under the active descriptors. -/
theorem Stands.wrote (h : Stands env l r) {call : DocCall} {s : Store}
    {res : Except EngineErr Bytes}
    (hexec : exec codec r.files l.registry.store call.call = (s, res)) :
    answerOf env codec r (.call call.call) = some (.result res) ∧
      Stands env (l.stored s) (dbStep env codec r (.call call.call)) := by
  obtain ⟨hstore, hres⟩ := execAt_beside codec h.beside (fun _ => r.files) call
  rw [execAt_same, execAt_same, hexec] at hstore hres
  exact ⟨answerOf_call hres.symm, h.called call.call hstore⟩

/-- What one event does, the sequential database does with the calls the event
completes, in some order. -/
theorem explained (h : Stands env l r) {e : LiveEvent} (hc : SchemaKept env l e) :
    ∃ calls, (liveStep env codec l e).2.Perm calls ∧ Sequential env codec r calls ∧
      Stands env (liveStep env codec l e).1 (sequentialAfter env codec r calls) := by
  have hmoves := liveStep_moves env codec l e
  generalize liveStep env codec l e = out at hmoves
  cases hmoves with
  | idle => exact ⟨[], .refl _, trivial, h⟩
  | refused hp hacc =>
      rename_i call err
      rw [h.registry_eq hp] at hacc
      have hreg : register env r call.name call.source call.createdUnix = (r, .error err) := by
        unfold register
        rw [hacc]
      refine ⟨_, .refl _, ⟨answerOf_register (by rw [hreg]), trivial⟩, ?_⟩
      show Stands env l (register env r call.name call.source call.createdUnix).1
      rw [hreg]
      exact h
  | committed hp hacc => exact ⟨[], .refl _, trivial, h.committed hp hacc hc⟩
  | activated hp =>
      rename_i p
      obtain ⟨hstep, hversion⟩ := stepRegister_accepted (h.pending p hp).1
      refine ⟨_, .refl _, ⟨answerOf_register hversion, trivial⟩, ?_⟩
      show Stands env (l.swapped p) (stepRegister env r p.call)
      rw [hstep]
      exact h.activated hp
  | unfit hcheck =>
      rename_i name messageType opts err
      rw [h.files] at hcheck
      have hexec : exec codec r.files r.store (.createCollection name messageType opts) =
          (r.store, .error err) := exec_createCollection_unfit hcheck
      refine ⟨_, .refl _, ⟨answerOf_call (by rw [hexec]), trivial⟩, ?_⟩
      show Stands env l { r with store := (exec codec r.files r.store _).1 }
      rw [hexec]
      exact h
  | fit hcheck =>
      rw [h.files] at hcheck
      refine ⟨[], .refl _, trivial, h.fileProtos, h.files, h.settled, h.pending, ?_, h.legible⟩
      intro e he
      rcases List.mem_append.mp he with he | he
      · exact h.looked e he
      · cases List.mem_singleton.mp he
        exact hcheck
  | created hi htx =>
      rename_i i name messageType opts s res
      have hcheck : checkCollection r.files messageType opts = .ok () :=
        h.looked _ (List.mem_of_getElem? hi)
      have hexec := @exec_createCollection codec r.files r.store name messageType opts hcheck
      obtain ⟨hstore, hres⟩ := h.beside.update (createTx_beside h.beside name messageType opts)
      rw [htx] at hstore hres
      have hkept := h.called (.createCollection name messageType opts) (by rw [hexec]; exact hstore)
      refine ⟨_, .refl _, ⟨answerOf_call (by rw [hexec, ← hres]), trivial⟩, ?_⟩
      exact ⟨hkept.fileProtos, hkept.files, hkept.settled, hkept.pending,
        fun e he => h.looked e (List.mem_of_mem_eraseIdx he), hkept.legible⟩
  | written hexec =>
      rw [h.files, execAt_same] at hexec
      obtain ⟨hanswer, hkept⟩ := h.wrote hexec
      exact ⟨_, .refl _, ⟨hanswer, trivial⟩, hkept⟩
  | across hp hexec =>
      rename_i call k p s res
      obtain ⟨hacc, hcompat⟩ := h.pending p hp
      rw [h.files] at hexec
      rcases execAt_across codec hcompat h.typed k call with hold | hnew
      · -- the call, then the registration
        rw [hold] at hexec
        obtain ⟨hanswer, hkept⟩ := h.wrote hexec
        obtain ⟨hstep, hversion⟩ := stepRegister_accepted (hkept.pending p hp).1
        refine ⟨_, .refl _, ⟨hanswer, answerOf_register hversion, trivial⟩, ?_⟩
        show Stands env _ (stepRegister env (dbStep env codec r (.call call.call)) p.call)
        rw [hstep]
        exact hkept.activated hp
      · -- the registration, then the call
        rw [hnew] at hexec
        obtain ⟨hstep, hversion⟩ := stepRegister_accepted hacc
        obtain ⟨hanswer, hkept⟩ := (h.activated hp).wrote hexec
        refine ⟨_, .swap _ _ _, ⟨answerOf_register hversion, ?_, trivial⟩, ?_⟩
        · show answerOf env codec (stepRegister env r p.call) _ = _
          rw [hstep]
          exact hanswer
        · show Stands env _ (dbStep env codec (stepRegister env r p.call) (.call call.call))
          rw [hstep]
          exact hkept

/-- The same along a run. -/
theorem explained_run {events : List LiveEvent} (h : Stands env l r)
    (hc : Each (fun l e => (liveStep env codec l e).1) (SchemaKept env) l events) :
    ∃ order : List (List Done), List.Forall₂ List.Perm (completions env codec l events) order ∧
      Sequential env codec r order.flatten ∧
      Stands env (run (fun l e => (liveStep env codec l e).1) l events)
        (sequentialAfter env codec r order.flatten) := by
  induction events generalizing l r with
  | nil => exact ⟨[], .nil, trivial, h⟩
  | cons e events ih =>
      obtain ⟨calls, hperm, hseq, hstands⟩ := @explained env codec l r h e hc.1
      obtain ⟨order, hperms, hseqs, hlast⟩ := ih hstands hc.2
      refine ⟨calls :: order, .cons hperm hperms, ?_, ?_⟩
      · rw [List.flatten_cons]
        exact sequential_append.mpr ⟨hseq, hseqs⟩
      · rw [List.flatten_cons, sequentialAfter_append]
        exact hlast

end Simulation

/-- **Registration is atomic to the outside.** Take any run in which
registrations keep names, add no required field and change no default. What
each event completes can be put in an order in which every call returns what it
would return with the database to itself, one call after the other. The
descriptors and the buckets of the engine are then those of the sequential run,
and so is the whole database whenever no registration is under way. -/
theorem registration_linearizable (env : Env) (codec : Codec) (events : List LiveEvent)
    (h : Each (fun l e => (liveStep env codec l e).1) (SchemaKept env) Live.initial events) :
    ∃ order : List (List Done),
      List.Forall₂ List.Perm (completions env codec Live.initial events) order ∧
        Sequential env codec Registry.initial order.flatten ∧
        (liveAfter env codec events).registry.files =
          (sequentialAfter env codec Registry.initial order.flatten).files ∧
        (∀ b, isEngineBucket b = true → (liveAfter env codec events).registry.store.buckets[b]? =
          (sequentialAfter env codec Registry.initial order.flatten).store.buckets[b]?) ∧
        ((liveAfter env codec events).pending = none → (liveAfter env codec events).registry =
          sequentialAfter env codec Registry.initial order.flatten) := by
  obtain ⟨order, hperm, hseq, hstands⟩ := explained_run (stands_initial env) h
  exact ⟨order, hperm, hseq, hstands.files, hstands.beside.inside, hstands.registry_eq⟩

/-- **No document is caught between versions.** At every point of a run in which
registrations keep names, add no required field and change no default, every
stored document decodes under the active descriptors, and also under
those that are committed and not yet active, which are the ones a restart at
that point would load. -/
theorem documents_readable_throughout (env : Env) (codec : Codec) (events : List LiveEvent)
    (h : Each (fun l e => (liveStep env codec l e).1) (SchemaKept env) Live.initial events) :
    Always (fun l e => (liveStep env codec l e).1)
      (fun l => AllReadable l.registry ∧
        ∀ p, l.pending = some p → AllReadable { l.registry with files := p.files })
      Live.initial events := by
  have hstep : ∀ l e, (∃ r, Stands env l r) → SchemaKept env l e →
      ∃ r, Stands env (liveStep env codec l e).1 r := by
    rintro l e ⟨r, hstands⟩ hc
    obtain ⟨calls, _, _, hnext⟩ := @explained env codec l r hstands e hc
    exact ⟨_, hnext⟩
  have hall : Always (fun l e => (liveStep env codec l e).1) (fun l => ∃ r, Stands env l r)
      Live.initial events := always_of_each hstep ⟨_, stands_initial env⟩ h
  refine hall.imp ?_
  rintro l ⟨r, hstands⟩
  have htyped := hstands.typed
  refine ⟨allReadable_of_typed (by rw [hstands.files]; exact htyped), ?_⟩
  intro p hp
  obtain ⟨_, hcompat⟩ := hstands.pending p hp
  refine allReadable_of_typed ?_
  exact typed_evolves hcompat.evolves hcompat.required (fun _ => rfl) (fun _ _ => rfl) htyped

/-! ## A swap inside an update -/

def ticketLive (events : List LiveEvent) : Live := liveAfter deskEnv deskCodec events

/-- Tickets as in `deskCalls`, and a new version that becomes active while one
of them is replaced, after its old document was read. -/
def ticketEvents : List LiveEvent :=
  [.commit ⟨ascii "ticket.proto", ticket1, 0⟩, .activate,
    .lookUp (ascii "tickets") (ascii "desk.Ticket") ⟨ascii "id", [ascii "level"]⟩, .create 0,
    .write (.insert (ascii "tickets") textT1) none,
    .lookUp (ascii "open") (ascii "desk.Ticket") ⟨[], []⟩,
    .commit ⟨ascii "ticket.proto", ticketNote, 0⟩,
    .write (.update (ascii "tickets") (ascii "t1") textT1) (some 2), .create 0]

theorem ticketEvents_kept :
    Each (fun l e => (liveStep deskEnv deskCodec l e).1) (SchemaKept deskEnv) Live.initial
      ticketEvents := by
  refine ⟨?_, trivial, trivial, trivial, trivial, trivial, ?_, trivial, trivial, trivial⟩
  all_goals
    show keepsNames _ _ _ = true ∧ keepsRequired _ _ _ = true ∧ keepsFieldDefaults _ _ _ = true
    decide +kernel

theorem registration_linearizable_desk :
    (∃ order : List (List Done),
      List.Forall₂ List.Perm (completions deskEnv deskCodec Live.initial ticketEvents) order ∧
        Sequential deskEnv deskCodec Registry.initial order.flatten ∧
        (ticketLive ticketEvents).registry =
          sequentialAfter deskEnv deskCodec Registry.initial order.flatten) ∧
      (ticketLive ticketEvents).pending.isNone = true ∧
      ((ticketLive ticketEvents).registry.files.findMessage (ascii "desk.Ticket")).map
        (fun md => md.fields.length) = some 3 := by
  have hdone : (ticketLive ticketEvents).pending.isNone = true := by decide +kernel
  refine ⟨?_, hdone, by decide +kernel⟩
  obtain ⟨order, hperm, hseq, _, _, hlast⟩ :=
    registration_linearizable deskEnv deskCodec ticketEvents ticketEvents_kept
  exact ⟨order, hperm, hseq, hlast (Option.isNone_iff_eq_none.mp hdone)⟩

theorem documents_readable_throughout_desk :
    Always (fun l e => (liveStep deskEnv deskCodec l e).1)
        (fun l => AllReadable l.registry ∧
          ∀ p, l.pending = some p → AllReadable { l.registry with files := p.files })
        Live.initial ticketEvents ∧
      (ticketLive (ticketEvents.take 7)).pending.isSome = true :=
  ⟨documents_readable_throughout deskEnv deskCodec ticketEvents ticketEvents_kept,
    by decide +kernel⟩

end KoraDB.Engine
