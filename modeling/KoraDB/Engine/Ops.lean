import KoraDB.Engine.Keys

/-!
# Layer 2: the document engine (`internal/engine`)

Collections of documents over the storage spine. The active descriptor set is
an argument `fs`; `protojson` is the parameter `codec`, of which only what
acceptance guarantees is assumed. Each writing operation is one transaction.

Every successful document operation has the same shape (`Rewrites`): at one
key the document is replaced, the index entries of the old document are
removed and those of the new one written, and nothing else changes. Insert has
no old document and Delete no new one.
-/

namespace KoraDB.Engine

open KoraDB.Base KoraDB.Proto KoraDB.Catalog KoraDB.Schema

/-- `protojson`, against a descriptor set. An accepted document only has
fields of its type, with values of their kinds, and has all required ones. -/
structure Codec where
  unmarshal : Files → MessageDesc → Bytes → Except Bytes Wire
  marshal : Files → Msg → Except Bytes Bytes
  unmarshal_ok : ∀ {fs md json w}, unmarshal fs md json = .ok w →
    initialized fs md w = true ∧ fits fs md w = true

/-- `collectionsBucket`. -/
def collectionsBucket : Bytes := ascii "__collections__"

/-- `dataBucket`. -/
def dataBucket (coll : Bytes) : Bytes := ascii "data:" ++ coll

/-! ## Collections -/

/-- `CollectionOptions`. -/
structure CollectionOptions where
  keyField : Bytes
  indexes : List Bytes

/-- The check of a requested key field. -/
def checkKeyField (md : MessageDesc) (messageType keyField : Bytes) : Except EngineErr Unit := do
  let kfd ← orErr (md.byName keyField) (.keyFieldMissing keyField messageType)
  reject (kfd.isList || kfd.isMap || kfd.kind == .message || kfd.kind == .group)
    (.keyFieldNotScalar keyField kfd.kind)
  reject (!primaryKeyKindSupported kfd.kind) (.keyFieldUnsupported keyField kfd.kind)

/-- The check of a requested index. -/
def checkIndex (md : MessageDesc) (messageType field : Bytes) : Except EngineErr Unit := do
  let fd ← orErr (md.byName field) (.indexFieldMissing field messageType)
  reject (!Index.indexable fd) (.indexFieldUnindexable field fd.kind)

/-- The definition a new collection gets. -/
def newMeta (name messageType : Bytes) (opts : CollectionOptions) : CollectionMeta :=
  if opts.keyField = [] then ⟨name, messageType, .auto, [], opts.indexes⟩
  else ⟨name, messageType, .field, opts.keyField, opts.indexes⟩

/-- `CreateCollection`. -/
def createCollection (fs : Files) (s : Store) (name messageType : Bytes)
    (opts : CollectionOptions) : Store × Except EngineErr CollectionMeta :=
  s.update fun tx => do
    let md ← wrap (messageDescriptor fs messageType) .schema
    if opts.keyField ≠ [] then checkKeyField md messageType opts.keyField
    opts.indexes.forM (checkIndex md messageType)
    reject (tx.has collectionsBucket name) .collectionExists
    let cm := newMeta name messageType opts
    let tx ← wrap (tx.put collectionsBucket name cm.marshal) .storage
    return (tx, cm)

/-- `getMeta`. -/
def getMeta (s : Store) (coll : Bytes) : Except EngineErr CollectionMeta := do
  let b ← orErr (s.get collectionsBucket coll) (.collectionNotFound coll)
  orErr (CollectionMeta.unmarshal b) .corruptRecord

/-- `ListCollections`. -/
def listCollections (s : Store) : Except EngineErr (List CollectionMeta) :=
  (s.scan collectionsBucket).mapM fun e => orErr (CollectionMeta.unmarshal e.2) .corruptRecord

/-! ## Documents -/

/-- `parse`. -/
def parse (codec : Codec) (fs : Files) (cm : CollectionMeta) (json : Bytes) :
    Except EngineErr Msg := do
  let md ← wrap (messageDescriptor fs cm.messageType) .schema
  let w ← wrap (codec.unmarshal fs md json) (.invalidDocument cm.messageType)
  return ⟨md, w⟩

/-- `decode`. -/
def decode (fs : Files) (cm : CollectionMeta) (b : Blob) : Except EngineErr Msg := do
  let md ← wrap (messageDescriptor fs cm.messageType) .schema
  match b with
  | .document w => orErr (unmarshal fs md w) .decode
  | _ => .error .decode

/-- `RenderMessage`. -/
def renderMessage (codec : Codec) (fs : Files) (msg : Msg) : Except EngineErr Bytes :=
  wrap (codec.marshal fs msg) .render

/-- `deriveKey`: the store, since a sequence may advance, the storage key and
the id. -/
def deriveKey (fs : Files) (s : Store) (cm : CollectionMeta) (msg : Msg) :
    Except EngineErr (Store × Bytes × Bytes) :=
  match cm.keyKind with
  | .auto => do
    let (s, seq) ← wrap (s.nextSequence (dataBucket cm.name)) .storage
    return (s, be64 seq, formatUint seq)
  | .field => do
    let fd ← orErr (msg.descriptor.byName cm.keyField)
      (.keyFieldMissing cm.keyField cm.messageType)
    let id ← idStringFromValue fd (msg.get fd)
    let key ← encodeKey fs cm id
    return (s, key, id)

/-- `eachIndexedValue`. -/
def eachIndexedValue (cm : CollectionMeta) (msg : Msg)
    (fn : Store → Bytes → Bytes → Except EngineErr Store) (s : Store) : Except EngineErr Store :=
  cm.indexes.foldlM (fun s field => do
    let fd ← orErr (msg.descriptor.byName field) (.indexedFieldGone field)
    let enc ← wrap (Index.encodeValue fd (msg.get fd)) .index
    fn s field enc) s

/-- `indexInsert`. -/
def indexInsert (s : Store) (cm : CollectionMeta) (key : Bytes) (msg : Msg) :
    Except EngineErr Store :=
  eachIndexedValue cm msg (fun s field enc =>
    wrap (s.put (Index.bucket cm.name field) (Index.entryKey enc key) .empty) .storage) s

/-- `indexDelete`. -/
def indexDelete (s : Store) (cm : CollectionMeta) (key : Bytes) (msg : Msg) :
    Except EngineErr Store :=
  eachIndexedValue cm msg (fun s field enc =>
    .ok (s.delete (Index.bucket cm.name field) (Index.entryKey enc key))) s

/-- The body of `Insert`. -/
def insertTx (codec : Codec) (fs : Files) (coll json : Bytes) (s : Store) :
    Except EngineErr (Store × Bytes) := do
  let cm ← getMeta s coll
  let msg ← parse codec fs cm json
  let (s, key, id) ← deriveKey fs s cm msg
  reject (cm.keyKind == .field && s.has (dataBucket coll) key) (.duplicateKey coll id)
  let wire ← orErr (marshal fs msg) .marshal
  let s ← wrap (s.put (dataBucket coll) key (.document wire)) .storage
  let s ← indexInsert s cm key msg
  return (s, id)

/-- `Insert`; the result is the id. -/
def insert (codec : Codec) (fs : Files) (s : Store) (coll json : Bytes) :
    Store × Except EngineErr Bytes :=
  s.update (insertTx codec fs coll json)

/-- `Get`. -/
def get (codec : Codec) (fs : Files) (s : Store) (coll id : Bytes) : Except EngineErr Bytes := do
  let cm ← getMeta s coll
  let key ← encodeKey fs cm id
  let wire ← orErr (s.get (dataBucket coll) key) (.documentNotFound coll id)
  let msg ← decode fs cm wire
  renderMessage codec fs msg

/-- The check of `Update` that the key field is unchanged. -/
def checkSameKey (fs : Files) (s : Store) (cm : CollectionMeta) (coll id key : Bytes) (msg : Msg) :
    Except EngineErr Unit :=
  match cm.keyKind with
  | .auto => .ok ()
  | .field => do
    let (_, newKey, _) ← deriveKey fs s cm msg
    reject (key != newKey) (.immutableKey coll id cm.keyField)

/-- The body of `Update`. -/
def updateTx (codec : Codec) (fs : Files) (coll id json : Bytes) (s : Store) :
    Except EngineErr (Store × Unit) := do
  let cm ← getMeta s coll
  let key ← encodeKey fs cm id
  let old ← orErr (s.get (dataBucket coll) key) (.documentNotFound coll id)
  let oldMsg ← decode fs cm old
  let newMsg ← parse codec fs cm json
  checkSameKey fs s cm coll id key newMsg
  let wire ← orErr (marshal fs newMsg) .marshal
  let s ← indexDelete s cm key oldMsg
  let s ← wrap (s.put (dataBucket coll) key (.document wire)) .storage
  let s ← indexInsert s cm key newMsg
  return (s, ())

/-- `Update`. -/
def update (codec : Codec) (fs : Files) (s : Store) (coll id json : Bytes) :
    Store × Except EngineErr Unit :=
  s.update (updateTx codec fs coll id json)

/-- The body of `Delete`. -/
def deleteTx (fs : Files) (coll id : Bytes) (s : Store) : Except EngineErr (Store × Unit) := do
  let cm ← getMeta s coll
  let key ← encodeKey fs cm id
  match s.get (dataBucket coll) key with
  | none => .ok (s, ())
  | some old => do
    let oldMsg ← decode fs cm old
    let s ← indexDelete s cm key oldMsg
    return (s.delete (dataBucket coll) key, ())

/-- `Delete`. -/
def delete (fs : Files) (s : Store) (coll id : Bytes) : Store × Except EngineErr Unit :=
  s.update (deleteTx fs coll id)

/-! ## The engine as a machine -/

inductive Call
  | createCollection (name messageType : Bytes) (opts : CollectionOptions)
  | insert (coll json : Bytes)
  | update (coll id json : Bytes)
  | delete (coll id : Bytes)

/-- One call: the store it leaves, and its result (the id, for an insert). -/
def exec (codec : Codec) (fs : Files) (s : Store) : Call → Store × Except EngineErr Bytes
  | .createCollection name messageType opts =>
    let (s, res) := createCollection fs s name messageType opts
    (s, res.map fun _ => [])
  | .insert coll json => insert codec fs s coll json
  | .update coll id json =>
    let (s, res) := update codec fs s coll id json
    (s, res.map fun _ => [])
  | .delete coll id =>
    let (s, res) := delete fs s coll id
    (s, res.map fun _ => [])

def step (codec : Codec) (fs : Files) (s : Store) (call : Call) : Store :=
  (exec codec fs s call).1

/-- `protojson` for the documents a table lists, as pairs of a text and the
document it denotes. -/
def tableCodec (table : List (Bytes × Wire)) : Codec where
  unmarshal fs md json :=
    match table.find? fun e => e.1 == json with
    | none => .error (ascii "not in the table")
    | some e => if initialized fs md e.2 && fits fs md e.2 then .ok e.2
      else .error (ascii "not a document of the type")
  marshal _ msg :=
    match table.find? fun e => e.2 == msg.recs with
    | none => .error (ascii "not in the table")
    | some e => .ok e.1
  unmarshal_ok := by
    intro fs md json w h
    split at h
    · cases h
    · split at h
      · rename_i hok
        cases h
        exact Bool.and_eq_true_iff.mp hok
      · cases h

/-! ## Bucket names -/

theorem dataBucket_inj {c c' : Bytes} (h : dataBucket c = dataBucket c') : c = c' :=
  List.append_cancel_left h

theorem indexBucket_ne_dataBucket (c f c' : Bytes) : Index.bucket c f ≠ dataBucket c' := by
  intro h
  have hhead := congrArg List.head? h
  exact absurd hhead (by simp [Index.bucket, dataBucket, ascii])

theorem dataBucket_ne_collections (c : Bytes) : dataBucket c ≠ collectionsBucket := by
  intro h
  have hhead := congrArg List.head? h
  exact absurd hhead (by simp [collectionsBucket, dataBucket, ascii])

theorem indexBucket_ne_collections (c f : Bytes) : Index.bucket c f ≠ collectionsBucket := by
  intro h
  have hhead := congrArg List.head? h
  exact absurd hhead (by simp [collectionsBucket, Index.bucket, ascii])

/-! ## Index entries of a document -/

/-- `msg`, stored under `key`, has the entry `e` in bucket `b` for one of these
fields. -/
def EntryIn (fields : List Bytes) (name key : Bytes) (msg : Msg) (b e : Bytes) : Prop :=
  ∃ field ∈ fields, ∃ fd enc, msg.descriptor.byName field = some fd ∧
    Index.encodeValue fd (msg.get fd) = .ok enc ∧
    b = Index.bucket name field ∧ e = Index.entryKey enc key

/-- The same for the indexed fields of a collection. -/
def IsEntry (cm : CollectionMeta) (key : Bytes) (msg : Msg) (b e : Bytes) : Prop :=
  EntryIn cm.indexes cm.name key msg b e

theorem IsEntry.bucket_ne_data {cm : CollectionMeta} {key : Bytes} {msg : Msg} {b e : Bytes}
    (h : IsEntry cm key msg b e) (c : Bytes) : b ≠ dataBucket c := by
  obtain ⟨field, _, _, _, _, _, rfl, _⟩ := h
  exact indexBucket_ne_dataBucket _ _ _

/-- In the index of one field, the entry is the one of that field's value. -/
theorem isEntry_field_iff {cm : CollectionMeta} {key : Bytes} {msg : Msg} {field e : Bytes}
    {fd : FieldDesc} (hmem : field ∈ cm.indexes) (hfd : msg.descriptor.byName field = some fd) :
    IsEntry cm key msg (Index.bucket cm.name field) e ↔
      ∃ enc, Index.encodeValue fd (msg.get fd) = .ok enc ∧ e = Index.entryKey enc key := by
  constructor
  · intro h
    obtain ⟨field', hmem', fd', enc, hfd', henc, hb, he⟩ := h
    -- field names are identifiers, so the bucket names the field
    have hname := (MessageDesc.byName_mem hfd).2
    have hname' := (MessageDesc.byName_mem hfd').2
    rw [← hname, ← hname'] at hb
    have hident := (Index.bucket_inj hb).2
    rw [← hname', ← hident, hname, hfd] at hfd'
    cases hfd'
    exact ⟨enc, henc, he⟩
  · intro h
    obtain ⟨enc, henc, he⟩ := h
    exact ⟨field, hmem, fd, enc, hfd, henc, rfl, he⟩

theorem entryIn_cons {field : Bytes} {fields : List Bytes} {name key : Bytes} {msg : Msg}
    {b e enc : Bytes} {fd : FieldDesc} (hfd : msg.descriptor.byName field = some fd)
    (henc : Index.encodeValue fd (msg.get fd) = .ok enc) :
    EntryIn (field :: fields) name key msg b e ↔
      (Index.bucket name field = b ∧ Index.entryKey enc key = e) ∨
        EntryIn fields name key msg b e := by
  constructor
  · rintro ⟨f, hmem, fd', enc', hfd', henc', hb, he⟩
    rcases List.mem_cons.mp hmem with rfl | hmem
    · rw [hfd] at hfd'
      cases hfd'
      rw [henc] at henc'
      cases henc'
      exact .inl ⟨hb.symm, he.symm⟩
    · exact .inr ⟨f, hmem, fd', enc', hfd', henc', hb, he⟩
  · rintro (⟨hb, he⟩ | ⟨f, hmem, hrest⟩)
    · exact ⟨field, List.mem_cons_self, fd, enc, hfd, henc, hb.symm, he.symm⟩
    · exact ⟨f, List.mem_cons_of_mem _ hmem, hrest⟩

/-- A transaction on index entries: it treats the entries of one message alike
and touches nothing else. -/
theorem eachIndexedValue_spec {cm : CollectionMeta} {key : Bytes} {msg : Msg}
    {fn : Store → Bytes → Bytes → Except EngineErr Store} {val : Option Blob}
    (hfn : ∀ {s s' field enc}, fn s field enc = .ok s' →
      (∀ b e, s'.get b e = if Index.bucket cm.name field = b ∧ Index.entryKey enc key = e
        then val else s.get b e) ∧ ∀ b, s'.sequence b = s.sequence b)
    {s s' : Store} (h : eachIndexedValue cm msg fn s = .ok s') :
    (∀ b e, IsEntry cm key msg b e → s'.get b e = val) ∧
      (∀ b e, ¬ IsEntry cm key msg b e → s'.get b e = s.get b e) ∧
      ∀ b, s'.sequence b = s.sequence b := by
  unfold eachIndexedValue at h
  show (∀ b e, EntryIn cm.indexes cm.name key msg b e → _) ∧
    (∀ b e, ¬ EntryIn cm.indexes cm.name key msg b e → _) ∧ _
  generalize cm.indexes = fields at h ⊢
  induction fields generalizing s with
  | nil =>
      cases h
      refine ⟨?_, fun _ _ _ => rfl, fun _ => rfl⟩
      rintro b e ⟨_, hmem, _⟩
      exact absurd hmem List.not_mem_nil
  | cons field fields ih =>
      simp only [List.foldlM_cons, bind_eq_ok_iff, orErr_eq_ok_iff, wrap_eq_ok_iff] at h
      obtain ⟨s₁, ⟨fd, hfd, enc, henc, hs₁⟩, hrest⟩ := h
      obtain ⟨hget₁, hseq₁⟩ := hfn hs₁
      obtain ⟨hin, hout, hseq⟩ := ih hrest
      refine ⟨?_, ?_, fun b => (hseq b).trans (hseq₁ b)⟩
      · intro b e hentry
        -- an index listed twice treats the entry twice
        by_cases hlater : EntryIn fields cm.name key msg b e
        · exact hin b e hlater
        · have hhere := ((entryIn_cons hfd henc).mp hentry).resolve_right hlater
          rw [hout b e hlater, hget₁, if_pos hhere]
      · intro b e hentry
        rw [entryIn_cons hfd henc, not_or] at hentry
        rw [hout b e hentry.2, hget₁, if_neg hentry.1]

theorem indexInsert_spec {s s' : Store} {cm : CollectionMeta} {key : Bytes} {msg : Msg}
    (h : indexInsert s cm key msg = .ok s') :
    (∀ b e, IsEntry cm key msg b e → s'.get b e = some .empty) ∧
      (∀ b e, ¬ IsEntry cm key msg b e → s'.get b e = s.get b e) ∧
      ∀ b, s'.sequence b = s.sequence b := by
  refine eachIndexedValue_spec ?_ h
  intro s s' field enc hput
  rw [wrap_eq_ok_iff] at hput
  exact ⟨Storage.Store.get_put hput, Storage.Store.sequence_put hput⟩

theorem indexDelete_spec {s s' : Store} {cm : CollectionMeta} {key : Bytes} {msg : Msg}
    (h : indexDelete s cm key msg = .ok s') :
    (∀ b e, IsEntry cm key msg b e → s'.get b e = none) ∧
      (∀ b e, ¬ IsEntry cm key msg b e → s'.get b e = s.get b e) ∧
      ∀ b, s'.sequence b = s.sequence b := by
  refine eachIndexedValue_spec ?_ h
  intro s s' field enc hdel
  cases hdel
  exact ⟨Storage.Store.get_delete _ _ _, Storage.Store.sequence_delete _ _ _⟩

/-! ## What a successful operation does -/

/-- The document under `key` is replaced and the index follows it. -/
structure Rewrites (s s' : Store) (cm : CollectionMeta) (coll key : Bytes) (old new : Option Msg) :
    Prop where
  doc : s'.get (dataBucket coll) key = new.map fun m => .document m.recs
  entry : ∀ b e, (∃ m ∈ new, IsEntry cm key m b e) → s'.get b e = some .empty
  gone : ∀ b e, (∃ m ∈ old, IsEntry cm key m b e) → (¬ ∃ m ∈ new, IsEntry cm key m b e) →
    s'.get b e = none
  other : ∀ b e, (¬ ∃ m ∈ old, IsEntry cm key m b e) → (¬ ∃ m ∈ new, IsEntry cm key m b e) →
    ¬ (dataBucket coll = b ∧ key = e) → s'.get b e = s.get b e

theorem decode_eq_ok_iff {fs : Files} {cm : CollectionMeta} {md : MessageDesc}
    (hmd : fs.findMessage cm.messageType = some md) {b : Blob} {msg : Msg} :
    decode fs cm b = .ok msg ↔
      ∃ w, b = .document w ∧ initialized fs md w = true ∧ msg = ⟨md, w⟩ := by
  unfold decode
  simp only [bind_eq_ok_iff, wrap_eq_ok_iff, messageDescriptor_eq_ok_iff, hmd, Option.some.injEq,
    exists_eq_left']
  cases b with
  | document w =>
      simp only [orErr_eq_ok_iff, unmarshal_eq_some, Blob.document.injEq, exists_eq_left']
  | schema _ | collection _ | key _ | empty => simp

theorem parse_eq_ok {codec : Codec} {fs : Files} {cm : CollectionMeta} {json : Bytes} {msg : Msg}
    (h : parse codec fs cm json = .ok msg) :
    fs.findMessage cm.messageType = some msg.descriptor ∧
      initialized fs msg.descriptor msg.recs = true ∧ fits fs msg.descriptor msg.recs = true := by
  simp only [parse, bind_eq_ok_iff, wrap_eq_ok_iff, messageDescriptor_eq_ok_iff, pure, Except.pure,
    Except.ok.injEq] at h
  obtain ⟨md, hmd, w, hw, rfl⟩ := h
  obtain ⟨hinit, hfits⟩ := codec.unmarshal_ok hw
  exact ⟨hmd, hinit, hfits⟩

theorem getMeta_eq_ok_iff {s : Store} {coll : Bytes} {cm : CollectionMeta} :
    getMeta s coll = .ok cm ↔
      ∃ b, s.get collectionsBucket coll = some b ∧ CollectionMeta.unmarshal b = some cm := by
  simp only [getMeta, bind_eq_ok_iff, orErr_eq_ok_iff]

/-- An accepted collection. -/
theorem createCollection_eq_ok {fs : Files} {s s' : Store} {name messageType : Bytes}
    {opts : CollectionOptions} {cm : CollectionMeta}
    (h : createCollection fs s name messageType opts = (s', .ok cm)) :
    ∃ md, fs.findMessage messageType = some md ∧ cm = newMeta name messageType opts ∧
      (opts.keyField ≠ [] → checkKeyField md messageType opts.keyField = .ok ()) ∧
      (∀ f ∈ opts.indexes, checkIndex md messageType f = .ok ()) ∧
      s.get collectionsBucket name = none ∧
      (∀ b e, s'.get b e = if collectionsBucket = b ∧ name = e then some cm.marshal
        else s.get b e) ∧
      ∀ b, s'.sequence b = s.sequence b := by
  have h := Storage.Store.update_ok_iff.mp h
  simp only [bind_eq_ok_iff, wrap_eq_ok_iff, messageDescriptor_eq_ok_iff] at h
  obtain ⟨md, hmd, h⟩ := h
  have hkey : ∀ {β : Type} {k : Except EngineErr β} {r : β},
      (do
        if opts.keyField ≠ [] then checkKeyField md messageType opts.keyField
        k) = .ok r →
      (opts.keyField ≠ [] → checkKeyField md messageType opts.keyField = .ok ()) ∧ k = .ok r := by
    intro β k r hk
    by_cases hf : opts.keyField ≠ []
    · rw [if_pos hf] at hk
      obtain ⟨_, hcheck, hk⟩ := bind_eq_ok_iff.mp hk
      exact ⟨fun _ => hcheck, hk⟩
    · rw [if_neg hf] at hk
      exact ⟨fun hc => absurd hc hf, hk⟩
  obtain ⟨hcheck, h⟩ := hkey h
  simp only [bind_eq_ok_iff, reject_eq_ok_iff, wrap_eq_ok_iff, pure, Except.pure, Except.ok.injEq,
    Prod.mk.injEq] at h
  obtain ⟨_, hindexes, _, hfree, _, hput, rfl, rfl⟩ := h
  refine ⟨md, hmd, rfl, hcheck, forM_eq_ok_iff.mp hindexes, ?_, Storage.Store.get_put hput,
    Storage.Store.sequence_put hput⟩
  simpa [Storage.Store.has] using hfree

/-- Where an inserted document goes. -/
structure Placed (fs : Files) (s s₁ : Store) (cm : CollectionMeta) (msg : Msg) (key id : Bytes) :
    Prop where
  get_eq : ∀ b e, s₁.get b e = s.get b e
  auto : cm.keyKind = .auto → ∃ n, n = (s.sequence (dataBucket cm.name) + 1) % 2 ^ 64 ∧
    key = be64 n ∧ id = formatUint n ∧
    ∀ b, s₁.sequence b = if dataBucket cm.name = b then n else s.sequence b
  field : cm.keyKind = .field → s₁ = s ∧ ∃ fd, msg.descriptor.byName cm.keyField = some fd ∧
    idStringFromValue fd (msg.get fd) = .ok id ∧ encodeKey fs cm id = .ok key

theorem deriveKey_eq_ok {fs : Files} {s s₁ : Store} {cm : CollectionMeta} {msg : Msg}
    {key id : Bytes} (h : deriveKey fs s cm msg = .ok (s₁, key, id)) :
    Placed fs s s₁ cm msg key id := by
  unfold deriveKey at h
  cases hk : cm.keyKind with
  | auto =>
      rw [hk] at h
      simp only [bind_eq_ok_iff, wrap_eq_ok_iff, Prod.exists, pure, Except.pure, Except.ok.injEq,
        Prod.mk.injEq] at h
      obtain ⟨s₂, n, hseq, rfl, rfl, rfl⟩ := h
      obtain ⟨hn, hget, hsequence⟩ := Storage.Store.nextSequence_spec hseq
      exact ⟨hget, fun _ => ⟨n, hn, rfl, rfl, hsequence⟩, fun hf => absurd hf (by simp [hk])⟩
  | field =>
      rw [hk] at h
      simp only [bind_eq_ok_iff, orErr_eq_ok_iff, pure, Except.pure, Except.ok.injEq,
        Prod.mk.injEq] at h
      obtain ⟨fd, hfd, id', hid, key', hkey, rfl, rfl, rfl⟩ := h
      exact ⟨fun _ _ => rfl, fun ha => absurd ha (by simp [hk]), fun _ => ⟨rfl, fd, hfd, hid, hkey⟩⟩

/-- An accepted insert. -/
theorem insert_eq_ok {codec : Codec} {fs : Files} {s s' : Store} {coll json id : Bytes}
    (h : insert codec fs s coll json = (s', .ok id)) :
    ∃ cm msg s₁ key, getMeta s coll = .ok cm ∧ parse codec fs cm json = .ok msg ∧
      Placed fs s s₁ cm msg key id ∧
      (cm.keyKind = .field → s.get (dataBucket coll) key = none) ∧
      Rewrites s s' cm coll key none (some msg) ∧ ∀ b, s'.sequence b = s₁.sequence b := by
  have h := Storage.Store.update_ok_iff.mp h
  simp only [insertTx, bind_eq_ok_iff, Prod.exists, reject_eq_ok_iff, orErr_eq_ok_iff,
    marshal_eq_some, wrap_eq_ok_iff, pure, Except.pure, Except.ok.injEq, Prod.mk.injEq] at h
  obtain ⟨cm, hcm, msg, hmsg, s₁, key, id', hderive, _, hdup, wire, ⟨_, rfl⟩, s₂, hput, s₃, hidx,
    rfl, rfl⟩ := h
  have hplaced := deriveKey_eq_ok hderive
  have hget₂ := Storage.Store.get_put hput
  obtain ⟨hin, hout, hseq⟩ := indexInsert_spec hidx
  refine ⟨cm, msg, s₁, key, hcm, hmsg, hplaced, ?_, ⟨?_, ?_, ?_, ?_⟩, ?_⟩
  · intro hf
    rw [← hplaced.get_eq]
    simpa [hf, Storage.Store.has] using hdup
  · rw [hout _ _ fun he => he.bucket_ne_data coll rfl, hget₂, if_pos ⟨rfl, rfl⟩]
    rfl
  · intro b e hentry
    simp only [Option.mem_def, Option.some.injEq, exists_eq_left'] at hentry
    exact hin b e hentry
  · intro b e hentry
    simp at hentry
  · intro b e _ hnew hne
    simp only [Option.mem_def, Option.some.injEq, exists_eq_left'] at hnew
    rw [hout b e hnew, hget₂, if_neg hne, hplaced.get_eq]
  · intro b
    rw [hseq, Storage.Store.sequence_put hput]

/-- An accepted update. -/
theorem update_eq_ok {codec : Codec} {fs : Files} {s s' : Store} {coll id json : Bytes}
    (h : update codec fs s coll id json = (s', .ok ())) :
    ∃ cm msg key b old, getMeta s coll = .ok cm ∧ encodeKey fs cm id = .ok key ∧
      s.get (dataBucket coll) key = some b ∧ decode fs cm b = .ok old ∧
      parse codec fs cm json = .ok msg ∧ checkSameKey fs s cm coll id key msg = .ok () ∧
      Rewrites s s' cm coll key (some old) (some msg) ∧ ∀ b, s'.sequence b = s.sequence b := by
  have h := Storage.Store.update_ok_iff.mp h
  simp only [updateTx, bind_eq_ok_iff, orErr_eq_ok_iff, marshal_eq_some, wrap_eq_ok_iff, pure,
    Except.pure, Except.ok.injEq, Prod.mk.injEq] at h
  obtain ⟨cm, hcm, key, hkey, b, hb, old, hold, msg, hmsg, _, hsame, wire, ⟨_, rfl⟩, s₁, hdel, s₂,
    hput, s₃, hins, rfl, _⟩ := h
  obtain ⟨hdin, hdout, hdseq⟩ := indexDelete_spec hdel
  have hget := Storage.Store.get_put hput
  obtain ⟨hin, hout, hseq⟩ := indexInsert_spec hins
  refine ⟨cm, msg, key, b, old, hcm, hkey, hb, hold, hmsg, hsame, ⟨?_, ?_, ?_, ?_⟩, ?_⟩
  · rw [hout _ _ fun he => he.bucket_ne_data coll rfl, hget, if_pos ⟨rfl, rfl⟩]
    rfl
  · intro b e hentry
    simp only [Option.mem_def, Option.some.injEq, exists_eq_left'] at hentry
    exact hin b e hentry
  · intro b e hentry hnew
    simp only [Option.mem_def, Option.some.injEq, exists_eq_left'] at hentry hnew
    rw [hout b e hnew, hget, if_neg fun hd => hentry.bucket_ne_data coll hd.1.symm,
      hdin b e hentry]
  · intro b e hold hnew hne
    simp only [Option.mem_def, Option.some.injEq, exists_eq_left'] at hold hnew
    rw [hout b e hnew, hget, if_neg hne, hdout b e hold]
  · intro b
    rw [hseq, Storage.Store.sequence_put hput, hdseq]

/-- An accepted delete, of a document that was there or not. -/
theorem delete_eq_ok {fs : Files} {s s' : Store} {coll id : Bytes}
    (h : delete fs s coll id = (s', .ok ())) :
    ∃ cm key, getMeta s coll = .ok cm ∧ encodeKey fs cm id = .ok key ∧
      ((s.get (dataBucket coll) key = none ∧ s' = s) ∨
        ∃ b old, s.get (dataBucket coll) key = some b ∧ decode fs cm b = .ok old ∧
          Rewrites s s' cm coll key (some old) none ∧ ∀ b, s'.sequence b = s.sequence b) := by
  have h := Storage.Store.update_ok_iff.mp h
  simp only [deleteTx, bind_eq_ok_iff] at h
  obtain ⟨cm, hcm, key, hkey, h⟩ := h
  refine ⟨cm, key, hcm, hkey, ?_⟩
  cases hb : s.get (dataBucket coll) key with
  | none =>
      rw [hb] at h
      cases h
      exact .inl ⟨rfl, rfl⟩
  | some b =>
      rw [hb] at h
      simp only [bind_eq_ok_iff, pure, Except.pure, Except.ok.injEq, Prod.mk.injEq] at h
      obtain ⟨old, hold, s₁, hdel, rfl, _⟩ := h
      obtain ⟨hdin, hdout, hdseq⟩ := indexDelete_spec hdel
      have hget := Storage.Store.get_delete s₁ (dataBucket coll) key
      refine .inr ⟨b, old, rfl, hold, ⟨?_, ?_, ?_, ?_⟩, ?_⟩
      · rw [hget, if_pos ⟨rfl, rfl⟩]
        rfl
      · intro b e hentry
        simp at hentry
      · intro b e hentry _
        simp only [Option.mem_def, Option.some.injEq, exists_eq_left'] at hentry
        rw [hget, if_neg fun hd => hentry.bucket_ne_data coll hd.1.symm, hdin b e hentry]
      · intro b e hold _ hne
        simp only [Option.mem_def, Option.some.injEq, exists_eq_left'] at hold
        rw [hget, if_neg hne, hdout b e hold]
      · intro b
        rw [Storage.Store.sequence_delete, hdseq]

/-- A failing call leaves every bucket and every sequence as it was. -/
theorem exec_error {codec : Codec} {fs : Files} {s : Store} {call : Call} {e : EngineErr}
    (h : (exec codec fs s call).2 = .error e) : (exec codec fs s call).1 = s := by
  cases call with
  | createCollection name messageType opts =>
      have hres : (createCollection fs s name messageType opts).2 = .error e :=
        map_eq_error_iff.mp h
      exact Storage.Store.update_error hres
  | insert coll json => exact Storage.Store.update_error h
  | update coll id json =>
      have hres : (update codec fs s coll id json).2 = .error e :=
        map_eq_error_iff.mp h
      exact Storage.Store.update_error hres
  | delete coll id =>
      have hres : (delete fs s coll id).2 = .error e :=
        map_eq_error_iff.mp h
      exact Storage.Store.update_error hres

end KoraDB.Engine
