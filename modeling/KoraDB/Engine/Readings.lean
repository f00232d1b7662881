import KoraDB.Engine.IndexEvolution
import KoraDB.Schema.Atomic

/-!
# Operations by their readings of the registry

A document operation asks the registry for the active descriptors several
times inside its own transaction, and nothing keeps them from changing in
between. Here each operation takes a function from the number of the reading to
the descriptors it finds.

* `execAt_across` — an operation in which a compatible version becomes active
  after any number of readings is the operation before or the one after;
* `execAt_beside` — an operation depends on the buckets of the engine only, so
  it commutes with the transaction of `Register` (`accept_after`).
-/

namespace KoraDB.Engine

open KoraDB.Base KoraDB.Proto KoraDB.Catalog KoraDB.Schema

/-! ## The operations -/

/-- The body of `Insert`; `fs i` is the descriptor set that its reading `i` of
the registry finds. A message keeps the descriptors it was made with. -/
def insertTxAt (codec : Codec) (fs : Nat → Files) (coll json : Bytes) (s : Store) :
    Except EngineErr (Store × Bytes) := do
  let cm ← getMeta s coll
  let msg ← parse codec (fs 0) cm json
  let (s, key, id) ← deriveKey (fs 1) s cm msg
  reject (cm.keyKind == .field && s.has (dataBucket coll) key) (.duplicateKey coll id)
  let wire ← orErr (marshal (fs 0) msg) .marshal
  let s ← wrap (s.put (dataBucket coll) key (.document wire)) .storage
  let s ← indexInsert s cm key msg
  return (s, id)

/-- The body of `Update`, likewise. -/
def updateTxAt (codec : Codec) (fs : Nat → Files) (coll id json : Bytes) (s : Store) :
    Except EngineErr (Store × Unit) := do
  let cm ← getMeta s coll
  let key ← encodeKey (fs 0) cm id
  let old ← orErr (s.get (dataBucket coll) key) (.documentNotFound coll id)
  let oldMsg ← decode (fs 1) cm old
  let newMsg ← parse codec (fs 2) cm json
  checkSameKey (fs 3) s cm coll id key newMsg
  let wire ← orErr (marshal (fs 2) newMsg) .marshal
  let s ← indexDelete s cm key oldMsg
  let s ← wrap (s.put (dataBucket coll) key (.document wire)) .storage
  let s ← indexInsert s cm key newMsg
  return (s, ())

/-- The body of `Delete`, likewise. -/
def deleteTxAt (fs : Nat → Files) (coll id : Bytes) (s : Store) :
    Except EngineErr (Store × Unit) := do
  let cm ← getMeta s coll
  let key ← encodeKey (fs 0) cm id
  match s.get (dataBucket coll) key with
  | none => .ok (s, ())
  | some old => do
    let oldMsg ← decode (fs 1) cm old
    let s ← indexDelete s cm key oldMsg
    return (s.delete (dataBucket coll) key, ())

/-- The operations that write a document. -/
inductive DocCall
  | insert (coll json : Bytes)
  | update (coll id json : Bytes)
  | delete (coll id : Bytes)

def DocCall.call : DocCall → Call
  | .insert coll json => .insert coll json
  | .update coll id json => .update coll id json
  | .delete coll id => .delete coll id

/-- One document operation, by its readings. -/
def execAt (codec : Codec) (fs : Nat → Files) (s : Store) :
    DocCall → Store × Except EngineErr Bytes
  | .insert coll json => s.update (insertTxAt codec fs coll json)
  | .update coll id json =>
    let (s, res) := s.update (updateTxAt codec fs coll id json)
    (s, res.map fun _ => [])
  | .delete coll id =>
    let (s, res) := s.update (deleteTxAt fs coll id)
    (s, res.map fun _ => [])

/-- With one descriptor set throughout it is the operation of the engine. -/
theorem execAt_same (codec : Codec) (fs : Files) (s : Store) (call : DocCall) :
    execAt codec (fun _ => fs) s call = exec codec fs s call.call := by
  cases call <;> rfl

/-- The checks of `CreateCollection`, before its transaction. -/
def checkCollection (fs : Files) (messageType : Bytes) (opts : CollectionOptions) :
    Except EngineErr Unit := do
  let md ← wrap (messageDescriptor fs messageType) .schema
  if opts.keyField ≠ [] then checkKeyField md messageType opts.keyField
  opts.indexes.forM (checkIndex md messageType)

/-- The transaction of `CreateCollection`. -/
def createTx (name messageType : Bytes) (opts : CollectionOptions) (tx : Store) :
    Except EngineErr (Store × CollectionMeta) := do
  reject (tx.has collectionsBucket name) .collectionExists
  let cm := newMeta name messageType opts
  let tx ← wrap (tx.put collectionsBucket name cm.marshal) .storage
  return (tx, cm)

theorem createCollection_eq (fs : Files) (s : Store) (name messageType : Bytes)
    (opts : CollectionOptions) :
    createCollection fs s name messageType opts =
      s.update fun tx => checkCollection fs messageType opts >>= fun _ =>
        createTx name messageType opts tx := by
  unfold createCollection checkCollection
  congr 1
  funext tx
  cases wrap (messageDescriptor fs messageType) EngineErr.schema with
  | error e => rfl
  | ok md =>
      by_cases hk : opts.keyField ≠ []
      · simp only [ok_bind, if_pos hk]
        cases checkKeyField md messageType opts.keyField with
        | error e => rfl
        | ok u => rfl
      · simp only [ok_bind, if_neg hk]
        rfl

/-! ## One operation across a swap -/

/-- The swap from `fs` to `fs'` falls after `k` readings. -/
def swapAt (k : Nat) (fs fs' : Files) (i : Nat) : Files := if i < k then fs else fs'

/-- A field found under a name on both sides has the same default. -/
def DefaultsKept (fs fs' : Files) : Prop :=
  ∀ n md md', fs.findMessage n = some md → fs'.findMessage n = some md' →
    ∀ f fd fd', md.byName f = some fd → md'.byName f = some fd' → fd'.default = fd.default

/-- What a registration has to keep for the operations of the day. -/
structure Compatible (fs fs' : Files) : Prop where
  evolves : Evolves fs fs'
  required : NoNewRequired fs fs'
  defaults : DefaultsKept fs fs'

section Across

variable {codec : Codec} {fs fs' : Files} {s : Store} {coll : Bytes} {cm : CollectionMeta}
  {md : MessageDesc}

/-- Keys are encoded alike on both sides. -/
theorem encodeKey_across (he : Evolves fs fs') (hb : Bound fs cm md) :
    encodeKey fs' cm = encodeKey fs cm := by
  funext id
  unfold encodeKey
  cases hk : cm.keyKind with
  | auto => rfl
  | field =>
      obtain ⟨md', hb', hkept⟩ := bound_evolves he hb
      obtain ⟨kfd, hkfd, _⟩ := hb.key hk
      obtain ⟨kfd', hkfd', hsame⟩ := byName_kept hb'.message hkept hkfd
      have hold : keyFieldOf fs cm = .ok kfd := by
        simp only [keyFieldOf, messageDescriptor_eq_ok_iff.mpr hb.message, wrap_ok, ok_bind, hkfd,
          orErr_some]
      have hnew : keyFieldOf fs' cm = .ok kfd' := by
        simp only [keyFieldOf, messageDescriptor_eq_ok_iff.mpr hb'.message, wrap_ok, ok_bind,
          hkfd', orErr_some]
      simp only [hold, hnew, ok_bind]
      unfold encodeFieldKey
      rw [hsame.kind]

theorem deriveKey_congr (h : encodeKey fs' cm = encodeKey fs cm) (s : Store) (msg : Msg) :
    deriveKey fs' s cm msg = deriveKey fs s cm msg := by
  unfold deriveKey
  rw [h]

theorem checkSameKey_congr (h : encodeKey fs' cm = encodeKey fs cm) (s : Store)
    (coll id key : Bytes) (msg : Msg) :
    checkSameKey fs' s cm coll id key msg = checkSameKey fs s cm coll id key msg := by
  unfold checkSameKey
  rw [deriveKey_congr h]

/-- The indexed values of a document are the same on both sides. -/
theorem indexDelete_across (hc : Compatible fs fs') (hb : Bound fs cm md) {md' : MessageDesc}
    (hb' : Bound fs' cm md') (hkept : FieldsKept md md') (w : Wire) (s : Store) (key : Bytes) :
    indexDelete s cm key ⟨md', w⟩ = indexDelete s cm key ⟨md, w⟩ := by
  unfold indexDelete eachIndexedValue
  refine foldlM_congr ?_ s
  intro f hf s
  obtain ⟨fd, hfd, _⟩ := hb.indexes f hf
  obtain ⟨fd', hfd', hsame⟩ := byName_kept hb'.message hkept hfd
  have hdef := hc.defaults _ md md' hb.message hb'.message f fd fd' hfd hfd'
  have hget : Msg.get ⟨md', w⟩ fd' = Msg.get ⟨md, w⟩ fd := get_kept hsame hdef
  simp only [hfd, hfd', orErr_some, ok_bind, hget, Index.encodeValue_congr hsame.name hsame.kind]

/-- A stored document decodes on both sides, to messages with the same index
entries. -/
theorem decode_across (hc : Compatible fs fs') (hs : Typed fs s) (hcm : getMeta s coll = .ok cm)
    {key : Bytes} {b : Blob} (hget : s.get (dataBucket coll) key = some b) :
    Alike (fun m m' => ∀ s key, indexDelete s cm key m' = indexDelete s cm key m)
      (decode fs cm b) (decode fs' cm b) := by
  obtain ⟨md, hb⟩ := hs.bound hcm
  obtain ⟨md', hb', hkept⟩ := bound_evolves hc.evolves hb
  obtain ⟨hdoc, _⟩ := hs.docs coll cm md hcm hb key b hget
  obtain ⟨w, rfl, hinit', _⟩ := docOk_evolves hc.evolves hc.required hb hb' hkept hdoc
  obtain ⟨w', hw', hinit, _⟩ := hdoc
  cases hw'
  rw [(decode_eq_ok_iff hb.message).mpr ⟨w, rfl, hinit, rfl⟩,
    (decode_eq_ok_iff hb'.message).mpr ⟨w, rfl, hinit', rfl⟩]
  exact .ok (indexDelete_across hc hb hb' hkept w)

/-- Where an insert agrees with one under a single descriptor set. -/
theorem insertTxAt_eq {f : Nat → Files} {g : Files} {json : Bytes} (h₀ : f 0 = g)
    (h₁ : ∀ cm, getMeta s coll = .ok cm → encodeKey (f 1) cm = encodeKey g cm) :
    insertTxAt codec f coll json s = insertTx codec g coll json s := by
  unfold insertTxAt insertTx
  rw [h₀]
  cases hcm : getMeta s coll with
  | error e => rfl
  | ok cm => simp only [ok_bind, deriveKey_congr (h₁ cm hcm)]

/-- The old document of an update or a delete, decoded under `f` or under `g`. -/
def SameEntries (f g : Files) (coll : Bytes) (s : Store) : Prop :=
  ∀ cm key b, getMeta s coll = .ok cm → s.get (dataBucket coll) key = some b →
    Alike (fun m m' => ∀ s key, indexDelete s cm key m' = indexDelete s cm key m)
      (decode f cm b) (decode g cm b)

theorem SameEntries.refl (f : Files) (coll : Bytes) (s : Store) : SameEntries f f coll s := by
  intro cm key b _ _
  cases decode f cm b with
  | error e => exact .error e
  | ok m => exact .ok fun _ _ => rfl

theorem updateTxAt_eq {f : Nat → Files} {g : Files} {id json : Bytes} (h₂ : f 2 = g)
    (h₀ : ∀ cm, getMeta s coll = .ok cm → encodeKey (f 0) cm = encodeKey g cm)
    (h₁ : SameEntries (f 1) g coll s)
    (h₃ : ∀ cm, getMeta s coll = .ok cm → encodeKey (f 3) cm = encodeKey g cm) :
    updateTxAt codec f coll id json s = updateTx codec g coll id json s := by
  unfold updateTxAt updateTx
  rw [h₂]
  cases hcm : getMeta s coll with
  | error e => rfl
  | ok cm =>
      simp only [ok_bind, h₀ cm hcm, checkSameKey_congr (h₃ cm hcm)]
      cases encodeKey g cm id with
      | error e => rfl
      | ok key =>
          simp only [ok_bind]
          cases hget : s.get (dataBucket coll) key with
          | none => rfl
          | some b =>
              have hold := h₁ cm key b hcm hget
              simp only [orErr_some, ok_bind]
              generalize decode (f 1) cm b = old at hold ⊢
              generalize decode g cm b = old' at hold ⊢
              cases hold with
              | error e => rfl
              | ok hidx => simp only [ok_bind, hidx]

theorem deleteTxAt_eq {f : Nat → Files} {g : Files} {id : Bytes}
    (h₀ : ∀ cm, getMeta s coll = .ok cm → encodeKey (f 0) cm = encodeKey g cm)
    (h₁ : SameEntries (f 1) g coll s) :
    deleteTxAt f coll id s = deleteTx g coll id s := by
  unfold deleteTxAt deleteTx
  cases hcm : getMeta s coll with
  | error e => rfl
  | ok cm =>
      simp only [ok_bind, h₀ cm hcm]
      cases encodeKey g cm id with
      | error e => rfl
      | ok key =>
          simp only [ok_bind]
          cases hget : s.get (dataBucket coll) key with
          | none => rfl
          | some b =>
              have hold := h₁ cm key b hcm hget
              dsimp only
              generalize decode (f 1) cm b = old at hold ⊢
              generalize decode g cm b = old' at hold ⊢
              cases hold with
              | error e => rfl
              | ok hidx => simp only [ok_bind, hidx]

/-- An operation that the swap falls into is the operation before the swap or
the operation after it. -/
theorem execAt_across (codec : Codec) (hc : Compatible fs fs') (hs : Typed fs s) (k : Nat)
    (call : DocCall) :
    execAt codec (swapAt k fs fs') s call = exec codec fs s call.call ∨
      execAt codec (swapAt k fs fs') s call = exec codec fs' s call.call := by
  have hold : ∀ {i}, i < k → swapAt k fs fs' i = fs := fun h => if_pos h
  have hnew : ∀ {i}, ¬ i < k → swapAt k fs fs' i = fs' := fun h => if_neg h
  -- a reading of the key's kind may find either side
  have hkeys : ∀ (coll : Bytes) (i : Nat) (g : Files), g = fs ∨ g = fs' →
      ∀ cm, getMeta s coll = .ok cm → encodeKey (swapAt k fs fs' i) cm = encodeKey g cm := by
    intro coll i g hg cm hcm
    obtain ⟨md, hb⟩ := hs.bound hcm
    have hsame := encodeKey_across hc.evolves hb
    by_cases hi : i < k
    · rw [hold hi]
      rcases hg with rfl | rfl
      · rfl
      · exact hsame.symm
    · rw [hnew hi]
      rcases hg with rfl | rfl
      · exact hsame
      · rfl
  have hentries : ∀ coll, SameEntries fs fs' coll s :=
    fun coll cm key b hcm hget => decode_across hc hs hcm hget
  cases call with
  | insert coll json =>
      by_cases h0 : 0 < k
      · left
        show s.update _ = s.update _
        unfold Storage.Store.update
        rw [insertTxAt_eq (hold h0) (hkeys coll 1 fs (.inl rfl))]
      · right
        show s.update _ = s.update _
        unfold Storage.Store.update
        rw [insertTxAt_eq (hnew h0) (hkeys coll 1 fs' (.inr rfl))]
  | update coll id json =>
      -- the new document is parsed by the third reading, which decides
      by_cases h2 : 2 < k
      · left
        have heq : updateTxAt codec (swapAt k fs fs') coll id json s =
            updateTx codec fs coll id json s := by
          refine updateTxAt_eq (hold h2) (hkeys coll 0 fs (.inl rfl)) ?_
            (hkeys coll 3 fs (.inl rfl))
          rw [hold (show 1 < k by omega)]
          exact .refl fs coll s
        simp only [execAt, DocCall.call, exec, update, Storage.Store.update, heq]
      · right
        have heq : updateTxAt codec (swapAt k fs fs') coll id json s =
            updateTx codec fs' coll id json s := by
          refine updateTxAt_eq (hnew h2) (hkeys coll 0 fs' (.inr rfl)) ?_
            (hkeys coll 3 fs' (.inr rfl))
          by_cases h1 : 1 < k
          · rw [hold h1]
            exact hentries coll
          · rw [hnew h1]
            exact .refl fs' coll s
        simp only [execAt, DocCall.call, exec, update, Storage.Store.update, heq]
  | delete coll id =>
      by_cases h1 : 1 < k
      · left
        have heq : deleteTxAt (swapAt k fs fs') coll id s = deleteTx fs coll id s := by
          refine deleteTxAt_eq (hkeys coll 0 fs (.inl rfl)) ?_
          rw [hold h1]
          exact .refl fs coll s
        simp only [execAt, DocCall.call, exec, delete, Storage.Store.update, heq]
      · right
        have heq : deleteTxAt (swapAt k fs fs') coll id s = deleteTx fs' coll id s := by
          refine deleteTxAt_eq (hkeys coll 0 fs' (.inr rfl)) ?_
          rw [hnew h1]
          exact .refl fs' coll s
        simp only [execAt, DocCall.call, exec, delete, Storage.Store.update, heq]

end Across

/-! ## Operations beside other buckets -/

/-- The buckets the engine works on. -/
def isEngineBucket (b : Bytes) : Bool := b == collectionsBucket || isDocBucket b

theorem isEngineBucket_data (coll : Bytes) : isEngineBucket (dataBucket coll) = true := by
  unfold isEngineBucket
  rw [isDocBucket_data, Bool.or_true]

theorem isEngineBucket_index (coll field : Bytes) :
    isEngineBucket (Index.bucket coll field) = true := by
  unfold isEngineBucket
  rw [isDocBucket_index, Bool.or_true]

/-- Stores with the same engine buckets, beside given others. -/
abbrev Beside (rest rest' : Bytes → Option (Storage.Bucket Blob)) (s s' : Store) : Prop :=
  Storage.Store.Twin (fun b => isEngineBucket b = true) rest rest' s s'

section Beside

variable {rest rest' : Bytes → Option (Storage.Bucket Blob)} {s s' : Store}

/-- Two results of a transaction: the same value, over stores beside others. -/
abbrev SameResult {α : Type} (rest rest' : Bytes → Option (Storage.Bucket Blob))
    (r r' : Store × α) : Prop :=
  Beside rest rest' r.1 r'.1 ∧ r'.2 = r.2

theorem getMeta_beside (h : Beside rest rest' s s') (coll : Bytes) :
    getMeta s' coll = getMeta s coll :=
  getMeta_congr (h.get rfl coll)

theorem deriveKey_beside (h : Beside rest rest' s s') (fs : Files) (cm : CollectionMeta)
    (msg : Msg) :
    Alike (SameResult rest rest') (deriveKey fs s cm msg) (deriveKey fs s' cm msg) := by
  unfold deriveKey
  cases cm.keyKind with
  | auto =>
      refine ((h.nextSequence (isEngineBucket_data cm.name)).wrap _).bind ?_
      rintro ⟨t, n⟩ ⟨t', n'⟩ ⟨ht, hn⟩
      cases hn
      exact .ok ⟨ht, rfl⟩
  | field =>
      exact .step _ fun _ _ => .step _ fun _ _ => .step _ fun _ _ => .ok ⟨h, rfl⟩

theorem eachIndexedValue_beside {fn : Store → Bytes → Bytes → Except EngineErr Store}
    (hfn : ∀ s s' field enc, Beside rest rest' s s' →
      Alike (Beside rest rest') (fn s field enc) (fn s' field enc))
    (h : Beside rest rest' s s') (cm : CollectionMeta) (msg : Msg) :
    Alike (Beside rest rest') (eachIndexedValue cm msg fn s) (eachIndexedValue cm msg fn s') := by
  unfold eachIndexedValue
  refine Alike.foldlM ?_ cm.indexes h
  intro t t' field ht
  exact .step _ fun _ _ => .step _ fun _ _ => hfn t t' field _ ht

theorem indexInsert_beside (h : Beside rest rest' s s') (cm : CollectionMeta) (key : Bytes)
    (msg : Msg) :
    Alike (Beside rest rest') (indexInsert s cm key msg) (indexInsert s' cm key msg) := by
  refine eachIndexedValue_beside ?_ h cm msg
  intro t t' field enc ht
  exact (ht.put (isEngineBucket_index _ _) _ _).wrap _

theorem indexDelete_beside (h : Beside rest rest' s s') (cm : CollectionMeta) (key : Bytes)
    (msg : Msg) :
    Alike (Beside rest rest') (indexDelete s cm key msg) (indexDelete s' cm key msg) := by
  refine eachIndexedValue_beside ?_ h cm msg
  intro t t' field enc ht
  exact .ok (ht.delete (isEngineBucket_index _ _) _)

theorem insertTxAt_beside (codec : Codec) (h : Beside rest rest' s s') (fs : Nat → Files)
    (coll json : Bytes) :
    Alike (SameResult rest rest') (insertTxAt codec fs coll json s)
      (insertTxAt codec fs coll json s') := by
  unfold insertTxAt
  rw [getMeta_beside h]
  refine .step _ fun cm _ => .step _ fun msg _ => ?_
  refine (deriveKey_beside h (fs 1) cm msg).bind ?_
  rintro ⟨t, key, id⟩ ⟨t', key', id'⟩ ⟨ht, heq⟩
  cases heq
  dsimp only
  rw [ht.has (isEngineBucket_data coll)]
  refine .step _ fun _ _ => .step _ fun wire _ => ?_
  refine ((ht.put (isEngineBucket_data coll) key _).wrap _).bind fun u u' hu => ?_
  exact (indexInsert_beside hu cm key msg).bind fun v v' hv => .ok ⟨hv, rfl⟩

theorem updateTxAt_beside (codec : Codec) (h : Beside rest rest' s s') (fs : Nat → Files)
    (coll id json : Bytes) :
    Alike (SameResult rest rest') (updateTxAt codec fs coll id json s)
      (updateTxAt codec fs coll id json s') := by
  have hsame : ∀ cm key msg,
      checkSameKey (fs 3) s' cm coll id key msg = checkSameKey (fs 3) s cm coll id key msg := by
    intro cm key msg
    unfold checkSameKey deriveKey
    cases hk : cm.keyKind with
    | auto => rfl
    | field =>
        simp only [bind_assoc]
        rfl
  unfold updateTxAt
  rw [getMeta_beside h]
  refine .step _ fun cm _ => .step _ fun key _ => ?_
  rw [h.get (isEngineBucket_data coll)]
  refine .step _ fun old _ => .step _ fun oldMsg _ => .step _ fun newMsg _ => ?_
  rw [hsame]
  refine .step _ fun _ _ => .step _ fun wire _ => ?_
  refine (indexDelete_beside h cm key oldMsg).bind fun t t' ht => ?_
  refine ((ht.put (isEngineBucket_data coll) key _).wrap _).bind fun u u' hu => ?_
  exact (indexInsert_beside hu cm key newMsg).bind fun v v' hv => .ok ⟨hv, rfl⟩

theorem deleteTxAt_beside (h : Beside rest rest' s s') (fs : Nat → Files) (coll id : Bytes) :
    Alike (SameResult rest rest') (deleteTxAt fs coll id s) (deleteTxAt fs coll id s') := by
  unfold deleteTxAt
  rw [getMeta_beside h]
  refine .step _ fun cm _ => .step _ fun key _ => ?_
  rw [h.get (isEngineBucket_data coll)]
  cases s.get (dataBucket coll) key with
  | none => exact .ok ⟨h, rfl⟩
  | some old =>
      refine .step _ fun oldMsg _ => ?_
      refine (indexDelete_beside h cm key oldMsg).bind fun t t' ht => ?_
      exact .ok ⟨ht.delete (isEngineBucket_data coll) key, rfl⟩

/-- A document operation does not see the other buckets. -/
theorem execAt_beside (codec : Codec) (h : Beside rest rest' s s') (fs : Nat → Files)
    (call : DocCall) :
    SameResult rest rest' (execAt codec fs s call) (execAt codec fs s' call) := by
  cases call with
  | insert coll json => exact h.update (insertTxAt_beside codec h fs coll json)
  | update coll id json =>
      obtain ⟨ht, hres⟩ := h.update (updateTxAt_beside codec h fs coll id json)
      exact ⟨ht, congrArg (Except.map fun _ => []) hres⟩
  | delete coll id =>
      obtain ⟨ht, hres⟩ := h.update (deleteTxAt_beside h fs coll id)
      exact ⟨ht, congrArg (Except.map fun _ => []) hres⟩

theorem createTx_beside (h : Beside rest rest' s s') (name messageType : Bytes)
    (opts : CollectionOptions) :
    Alike (SameResult rest rest') (createTx name messageType opts s)
      (createTx name messageType opts s') := by
  unfold createTx
  rw [h.has rfl]
  refine .step _ fun _ _ => ?_
  exact ((h.put rfl name _).wrap _).bind fun t t' ht => .ok ⟨ht, rfl⟩

end Beside

/-! ## Registration beside documents -/

section Registration

variable {env : Env} {r r' : Registry} {call : RegisterCall} {version : Nat}

/-- What a bucket is after the transaction of `Register`. -/
theorem persist_bucket {s s' : Store} {rec : SchemaRecord} (h : persist s rec = .ok s')
    (b : Bytes) : s'.buckets[b]? =
      if schemaHistoryBucket = b then some { s.bucketOrNew schemaHistoryBucket with
        entries := (s.bucketOrNew schemaHistoryBucket).entries.insert
          (schemaHistoryKey rec.name rec.version) rec.marshal }
      else if schemaBucket = b then some { s.bucketOrNew schemaBucket with
        entries := (s.bucketOrNew schemaBucket).entries.insert rec.name rec.marshal }
      else s.buckets[b]? := by
  simp only [persist, bind_eq_ok_iff, wrap_eq_ok_iff, Storage.Store.put_eq_ok_iff] at h
  obtain ⟨s₁, ⟨_, _, _, rfl⟩, _, _, _, rfl⟩ := h
  have hne : schemaBucket ≠ schemaHistoryBucket := by decide
  rw [Storage.Store.bucketOrNew_insert, if_neg hne, BMap.get_insert, BMap.get_insert]

/-- The transaction goes through over any store. -/
theorem persist_total {s s' : Store} {rec : SchemaRecord} (h : persist s rec = .ok s')
    (t : Store) : ∃ t', persist t rec = .ok t' := by
  simp only [persist, bind_eq_ok_iff, wrap_eq_ok_iff, Storage.Store.put_eq_ok_iff] at h
  obtain ⟨_, ⟨hb, hk, hl, _⟩, hb', hk', hl', _⟩ := h
  obtain ⟨t₁, h₁⟩ := Storage.Store.put_ok t rec.marshal hb hk hl
  obtain ⟨t₂, h₂⟩ := Storage.Store.put_ok t₁ rec.marshal hb' hk' hl'
  refine ⟨t₂, ?_⟩
  simp only [persist, h₁, h₂, wrap_ok, ok_bind]

/-- The transaction of `Register` leaves the engine's buckets. -/
theorem persist_beside {s s' : Store} {rec : SchemaRecord} (h : persist s rec = .ok s') :
    Beside (fun b => s.buckets[b]?) (fun b => s'.buckets[b]?) s s' := by
  refine ⟨?_, fun _ _ => rfl, fun _ _ => rfl⟩
  intro b hb
  rw [persist_bucket h, if_neg ?_, if_neg ?_]
  all_goals
    rintro rfl
    exact absurd hb (by decide)

/-- It can be moved behind whatever the engine did meanwhile. -/
theorem persist_after {s s' t t' : Store} {rec : SchemaRecord} (h : persist s rec = .ok s')
    (ht : Beside (fun b => s.buckets[b]?) (fun b => s'.buckets[b]?) t t') :
    persist t rec = .ok t' := by
  obtain ⟨t₂, h₂⟩ := persist_total h t
  have hnew : ∀ b, isEngineBucket b = false → t.bucketOrNew b = s.bucketOrNew b := by
    intro b hb
    unfold Storage.Store.bucketOrNew
    rw [ht.left b (by rw [hb]; decide)]
  rw [h₂]
  suffices hmap : t₂.buckets = t'.buckets by
    obtain ⟨m⟩ := t₂
    obtain ⟨m'⟩ := t'
    cases hmap
    rfl
  refine BMap.ext fun b => ?_
  rw [persist_bucket h₂, hnew _ rfl, hnew _ rfl]
  by_cases hb : isEngineBucket b = true
  · rw [ht.inside b hb, if_neg ?_, if_neg ?_]
    all_goals
      rintro rfl
      exact absurd hb (by decide)
  · rw [ht.right b hb, persist_bucket h, ht.left b hb]

theorem accept_beside
    (h : accept env r call.name call.source call.createdUnix = .ok (r', version)) :
    Beside (fun b => r.store.buckets[b]?) (fun b => r'.store.buckets[b]?) r.store r'.store := by
  obtain ⟨collected, hacc⟩ := accept_eq_ok h
  exact persist_beside hacc.store

/-- A registration accepted before an operation of the engine is accepted after
it, with the same outcome. -/
theorem accept_after (h : accept env r call.name call.source call.createdUnix = .ok (r', version))
    {t t' : Store}
    (ht : Beside (fun b => r.store.buckets[b]?) (fun b => r'.store.buckets[b]?) t t') :
    accept env { r with store := t } call.name call.source call.createdUnix =
      .ok (⟨t', r'.fileProtos, r'.files⟩, version) := by
  obtain ⟨collected, hacc⟩ := accept_eq_ok h
  have hbucket : t.buckets[schemaBucket]? = r.store.buckets[schemaBucket]? :=
    ht.left schemaBucket (by decide)
  have hclosure : compileClosure env t call.name call.source = .ok collected := by
    rw [← hacc.closure]
    unfold compileClosure activeSources Storage.Store.scan
    rw [hbucket]
  have hversion : nextVersion t call.name = version := by
    rw [hacc.version_eq]
    unfold nextVersion Storage.Store.get
    rw [hbucket]
  have hfiles : buildFiles env (BMap.overlay r.fileProtos collected) = .ok r'.files := by
    rw [← hacc.fileProtos]
    exact hacc.files
  have hstore := persist_after hacc.store ht
  have heq := @accept_eq env { r with store := t } call collected r'.files hclosure hfiles
  rw [heq]
  have hcompat : (if r.fileProtos.contains call.name then
      wrap (ensureFileCompatible r.files r'.files call.name) SchemaErr.incompatible
      else .ok ()) = .ok () := by
    split
    · rename_i hc
      rw [hacc.compatible hc, wrap_ok]
    · rfl
  show ((if r.fileProtos.contains call.name then
      wrap (ensureFileCompatible r.files r'.files call.name) SchemaErr.incompatible
      else .ok ()) >>= _) = _
  rw [hcompat, ok_bind]
  unfold recordOf
  dsimp only
  rw [hversion, hstore, ok_bind, hacc.fileProtos]

theorem stepRegister_accepted
    (h : accept env r call.name call.source call.createdUnix = .ok (r', version)) :
    stepRegister env r call = r' ∧
      (register env r call.name call.source call.createdUnix).2 = .ok version := by
  unfold stepRegister register
  rw [h]
  exact ⟨rfl, rfl⟩

/-- No registration changes the default of a field. -/
def keepsFieldDefaults (env : Env) (r : Registry) (call : RegisterCall) : Bool :=
  eachReplacement env r call fun _ new => (messagesOf new.symbols).all fun e =>
    match r.files.findMessage e.1 with
    | some md => sameDefaults (md.fields.map fun fd => fd.name.val) md e.2
    | none => true

theorem defaultsKept_register (hr : Consistent env r) (hk : keepsNames env r call = true)
    (hd : keepsFieldDefaults env r call = true) :
    DefaultsKept r.files (stepRegister env r call).files := by
  intro n md md' hmd hmd' f fd fd' hfd hfd'
  have hsame : ∀ {md' : MessageDesc}, some md = some md' → md'.byName f = some fd' →
      fd'.default = fd.default := by
    intro md' heq hfd'
    cases heq
    rw [hfd] at hfd'
    cases hfd'
    rfl
  unfold stepRegister at hmd'
  rcases register_cases env r call.name call.source call.createdUnix with
    ⟨e, he⟩ | ⟨r', version, collected, he, hacc⟩
  · rw [he] at hmd'
    exact hsame (hmd.symm.trans hmd') hfd'
  · rw [he] at hmd'
    rcases message_after hr hacc hk hmd with hstays | ⟨old, new, md'', hrep, hmem, hmd'', _⟩
    · exact hsame (hstays.symm.trans hmd') hfd'
    · rw [show r'.files.findMessage n = some md' from hmd'] at hmd''
      cases hmd''
      have hok := eachReplacement_spec hd hacc.closure hrep
      have hmsg := List.all_eq_true.mp hok (n, md') (mem_messagesOf.mpr hmem)
      rw [hmd] at hmsg
      obtain ⟨hmem', hname⟩ := MessageDesc.byName_mem hfd
      have hfield := List.all_eq_true.mp hmsg f (List.mem_map.mpr ⟨fd, hmem', hname⟩)
      rw [hfd, hfd'] at hfield
      exact of_decide_eq_true hfield

end Registration

end KoraDB.Engine
