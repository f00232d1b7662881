import KoraDB.Base.Run
import KoraDB.Engine.Effects

/-!
# What every reachable database satisfies

Three layers, each kept by every operation. `Bindings`: a collection's message
type, key field and indexed fields resolve. `Typed`: a stored document is one
of its collection's type, and a name without a collection has no data. `Sound`:
a definition carries the name it is stored under, which a name that is not
valid UTF-8 would not survive.
-/

namespace KoraDB.Engine

open KoraDB.Base KoraDB.Proto KoraDB.Catalog KoraDB.Schema

/-! ## Collections and their descriptors -/

/-- The definition `cm` is bound to the message `md`. -/
structure Bound (fs : Files) (cm : CollectionMeta) (md : MessageDesc) : Prop where
  message : fs.findMessage cm.messageType = some md
  key : cm.keyKind = .field → ∃ kfd, md.byName cm.keyField = some kfd ∧
    kfd.isList = false ∧ kfd.isMap = false ∧ primaryKeyKindSupported kfd.kind = true
  indexes : ∀ f ∈ cm.indexes, ∃ fd, md.byName f = some fd ∧ Index.indexable fd = true

theorem Bound.unique {fs : Files} {cm : CollectionMeta} {md md' : MessageDesc}
    (h : Bound fs cm md) (h' : Bound fs cm md') : md = md' := by
  have hm := h.message
  rw [h'.message] at hm
  exact (Option.some.inj hm).symm

/-- The key kind of a bound collection. -/
theorem Bound.keyKind_eq {fs : Files} {cm : CollectionMeta} {md : MessageDesc}
    (h : Bound fs cm md) : ∃ kind, keyKindOf md cm = some kind := by
  unfold keyKindOf
  cases hk : cm.keyKind with
  | auto => exact ⟨_, rfl⟩
  | field =>
      obtain ⟨kfd, hkfd, _⟩ := h.key hk
      exact ⟨kfd.kind, by rw [hkfd]; rfl⟩

/-- A stored key of the collection: the encoding of a value of its key kind. -/
def KeyOk (md : MessageDesc) (cm : CollectionMeta) (k : Bytes) : Prop :=
  ∃ kind v, keyKindOf md cm = some kind ∧ KeyVal.hasKind kind v ∧ k = v.storageKey

theorem keyOk_encodeKey {fs : Files} {cm : CollectionMeta} {md : MessageDesc}
    (h : Bound fs cm md) {id k : Bytes} (hk : encodeKey fs cm id = .ok k) : KeyOk md cm k := by
  obtain ⟨kind, v, hkind, hv, rfl⟩ := (encodeKey_eq_ok_iff h.message).mp hk
  exact ⟨kind, v, hkind, KeyVal.denote_hasKind hv, rfl⟩

theorem keyOk_placed {fs : Files} {cm : CollectionMeta} {md : MessageDesc} (h : Bound fs cm md)
    {s s₁ : Store} {msg : Msg} {key id : Bytes} (hp : Placed fs s s₁ cm msg key id) :
    KeyOk md cm key := by
  cases hk : cm.keyKind with
  | auto =>
      obtain ⟨n, hn, rfl, _⟩ := hp.auto hk
      have hlt : n < 2 ^ 64 := by
        rw [hn]
        exact Nat.mod_lt _ (by decide)
      refine ⟨.uint64, .int n, by simp [keyKindOf, hk], ?_, ?_⟩
      · show (0 : Int) ≤ n ∧ (n : Int) < 2 ^ 64
        omega
      · show be64 n = be64 (toUint64 n)
        rw [toUint64_natCast hlt]
  | field =>
      obtain ⟨_, _, _, _, henc⟩ := hp.field hk
      exact keyOk_encodeKey h henc

/-! ## Soundness -/

/-- A stored value is a document of the message. -/
def DocOk (fs : Files) (md : MessageDesc) (b : Blob) : Prop :=
  ∃ w, b = .document w ∧ initialized fs md w = true ∧ fits fs md w = true

/-- Every definition is readable and bound to a message. -/
def Bindings (fs : Files) (s : Store) : Prop :=
  ∀ c b, s.get collectionsBucket c = some b →
    ∃ cm md, CollectionMeta.unmarshal b = some cm ∧ Bound fs cm md

/-- Every stored document is one of its collection's type. -/
structure Typed (fs : Files) (s : Store) : Prop where
  bindings : Bindings fs s
  docs : ∀ c cm md, getMeta s c = .ok cm → Bound fs cm md →
    ∀ k b, s.get (dataBucket c) k = some b → DocOk fs md b ∧ KeyOk md cm k
  vacant : ∀ c, s.get collectionsBucket c = none → ∀ k, s.get (dataBucket c) k = none

/-- Besides, definitions carry the name they are stored under, and names
without a definition have no index. -/
structure Sound (fs : Files) (s : Store) : Prop extends Typed fs s where
  name : ∀ c cm, getMeta s c = .ok cm → cm.name = c
  unindexed : ∀ c, s.get collectionsBucket c = none →
    ∀ (f : Ident) e, s.get (Index.bucket c f.val) e = none

theorem Bindings.bound {fs : Files} {s : Store} (hs : Bindings fs s) {c : Bytes}
    {cm : CollectionMeta} (h : getMeta s c = .ok cm) : ∃ md, Bound fs cm md := by
  obtain ⟨b, hb, hcm⟩ := getMeta_eq_ok_iff.mp h
  obtain ⟨cm', md, hcm', hbound⟩ := hs c b hb
  rw [hcm] at hcm'
  cases hcm'
  exact ⟨md, hbound⟩

theorem Typed.bound {fs : Files} {s : Store} (hs : Typed fs s) {c : Bytes} {cm : CollectionMeta}
    (h : getMeta s c = .ok cm) : ∃ md, Bound fs cm md :=
  hs.bindings.bound h

theorem getMeta_empty (c : Bytes) (cm : CollectionMeta) :
    getMeta Storage.Store.empty c ≠ .ok cm := by
  intro h
  obtain ⟨b, hb, _⟩ := getMeta_eq_ok_iff.mp h
  rw [Storage.Store.get_empty] at hb
  cases hb

theorem sound_empty (fs : Files) : Sound fs Storage.Store.empty where
  bindings c b h := by
    rw [Storage.Store.get_empty] at h
    cases h
  docs c cm _ h := absurd h (getMeta_empty c cm)
  vacant c _ k := Storage.Store.get_empty _ _
  name c cm h := absurd h (getMeta_empty c cm)
  unindexed c _ f e := Storage.Store.get_empty _ _

/-! ## What a rewrite keeps -/

section Rewrite

variable {s s' : Store} {cm : CollectionMeta} {coll key : Bytes} {old new : Option Msg}

theorem bindings_rewrites {fs : Files} (hs : Bindings fs s)
    (h : Rewrites s s' cm coll key old new) : Bindings fs s' := by
  intro c b hget
  rw [h.get_collections] at hget
  exact hs c b hget

/-- A rewrite is of a collection that exists. -/
theorem Rewrites.collection_ne (h : Rewrites s s' cm coll key old new)
    (hcm : getMeta s coll = .ok cm) {c : Bytes} (hvac : s'.get collectionsBucket c = none) :
    coll ≠ c := by
  intro heq
  rw [h.get_collections] at hvac
  obtain ⟨b, hb, _⟩ := getMeta_eq_ok_iff.mp hcm
  rw [heq, hvac] at hb
  cases hb

/-- A rewrite with a document of the right type keeps the documents typed. -/
theorem typed_rewrites {fs : Files} (hs : Typed fs s) (hcm : getMeta s coll = .ok cm)
    {md : MessageDesc} (hb : Bound fs cm md) (hkey : KeyOk md cm key)
    (hnew : ∀ m ∈ new, DocOk fs md (.document m.recs)) (h : Rewrites s s' cm coll key old new) :
    Typed fs s' := by
  refine ⟨bindings_rewrites hs.bindings h, ?_, ?_⟩
  · intro c cm' md' hcm' hb' k b hget
    rw [getMeta_congr (h.get_collections c)] at hcm'
    by_cases hhere : coll = c ∧ key = k
    · obtain ⟨rfl, rfl⟩ := hhere
      rw [hcm] at hcm'
      cases hcm'
      cases hb.unique hb'
      rw [h.doc] at hget
      cases hn : new with
      | none =>
          rw [hn] at hget
          cases hget
      | some m =>
          rw [hn] at hget
          cases hget
          exact ⟨hnew m (by rw [hn]; rfl), hkey⟩
    · rw [h.get_data hhere] at hget
      exact hs.docs c cm' md' hcm' hb' k b hget
  · intro c hvac k
    have hne := h.collection_ne hcm hvac
    rw [h.get_collections] at hvac
    rw [h.get_data fun hc => hne hc.1]
    exact hs.vacant c hvac k

theorem sound_rewrites {fs : Files} (hs : Sound fs s) (hcm : getMeta s coll = .ok cm)
    (ht : Typed fs s') (h : Rewrites s s' cm coll key old new) : Sound fs s' := by
  refine ⟨ht, ?_, ?_⟩
  · intro c cm' hcm'
    rw [getMeta_congr (h.get_collections c)] at hcm'
    exact hs.name c cm' hcm'
  · intro c hvac f e
    have hne := h.collection_ne hcm hvac
    rw [h.get_collections] at hvac
    rw [h.get_index (by rw [hs.name coll cm hcm]; exact hne)]
    exact hs.unindexed c hvac f e

end Rewrite

/-! ## Creating a collection -/

/-- The strings of an accepted definition, its name apart, are ASCII, so it
reads back as it was written. -/
theorem newMeta_unmarshal {fs : Files} {name messageType : Bytes} {opts : CollectionOptions}
    {md : MessageDesc} (hmd : fs.findMessage messageType = some md)
    (hkey : opts.keyField ≠ [] → checkKeyField md messageType opts.keyField = .ok ())
    (hidx : ∀ f ∈ opts.indexes, checkIndex md messageType f = .ok ()) :
    CollectionMeta.unmarshal (newMeta name messageType opts).marshal =
      some { newMeta name messageType opts with name := toValidUTF8 name } := by
  have hfield : ∀ {f : Bytes} {fd : FieldDesc}, md.byName f = some fd → validString f = true := by
    intro f fd hfd
    rw [← (MessageDesc.byName_mem hfd).2]
    exact validString_of_ascii fd.name.ascii
  have htype : validString messageType = true :=
    validString_of_ascii (symbolsOf_ascii (Files.findMessage_eq_some.mp hmd))
  have hindexes : ∀ f ∈ opts.indexes, validString f = true := by
    intro f hf
    have hcheck := hidx f hf
    simp only [checkIndex, bind_eq_ok_iff, orErr_eq_ok_iff] at hcheck
    obtain ⟨fd, hfd, _⟩ := hcheck
    exact hfield hfd
  unfold newMeta
  split
  · exact CollectionMeta.unmarshal_marshal htype (rfl : validString [] = true) hindexes
  · rename_i hk
    have hcheck := hkey hk
    simp only [checkKeyField, bind_eq_ok_iff, orErr_eq_ok_iff] at hcheck
    obtain ⟨kfd, hkfd, _⟩ := hcheck
    exact CollectionMeta.unmarshal_marshal htype (hfield hkfd) hindexes

theorem newMeta_bound {fs : Files} {name messageType : Bytes} {opts : CollectionOptions}
    {md : MessageDesc} (hmd : fs.findMessage messageType = some md)
    (hkey : opts.keyField ≠ [] → checkKeyField md messageType opts.keyField = .ok ())
    (hidx : ∀ f ∈ opts.indexes, checkIndex md messageType f = .ok ()) :
    Bound fs (newMeta name messageType opts) md := by
  have hindexes : ∀ f ∈ opts.indexes, ∃ fd, md.byName f = some fd ∧ Index.indexable fd = true := by
    intro f hf
    have hcheck := hidx f hf
    simp only [checkIndex, bind_eq_ok_iff, orErr_eq_ok_iff, reject_eq_ok_iff] at hcheck
    obtain ⟨fd, hfd, hind⟩ := hcheck
    exact ⟨fd, hfd, by simpa using hind⟩
  unfold newMeta
  split
  · exact ⟨hmd, fun hk => (by cases hk), hindexes⟩
  · rename_i hk
    have hcheck := hkey hk
    simp only [checkKeyField, bind_eq_ok_iff, orErr_eq_ok_iff, reject_eq_ok_iff,
      Bool.or_eq_false_iff] at hcheck
    obtain ⟨kfd, hkfd, _, ⟨⟨⟨hlist, hmap⟩, _⟩, _⟩, hsup⟩ := hcheck
    exact ⟨hmd, fun _ => ⟨kfd, hkfd, hlist, hmap, by simpa using hsup⟩, hindexes⟩

/-- The name a definition is stored under does not matter to its binding. -/
theorem Bound.rename {fs : Files} {cm : CollectionMeta} {md : MessageDesc} (h : Bound fs cm md)
    (name : Bytes) : Bound fs { cm with name := name } md :=
  ⟨h.message, h.key, h.indexes⟩

theorem bindings_create {fs : Files} {s s' : Store} {name messageType : Bytes}
    {opts : CollectionOptions} {cm : CollectionMeta} (hs : Bindings fs s)
    (h : createCollection fs s name messageType opts = (s', .ok cm)) : Bindings fs s' := by
  obtain ⟨md, hmd, rfl, hkey, hidx, _, hget, _⟩ := createCollection_eq_ok h
  intro c b hb
  by_cases hc : name = c
  · rw [hget, if_pos ⟨rfl, hc⟩] at hb
    cases hb
    exact ⟨_, md, newMeta_unmarshal hmd hkey hidx, (newMeta_bound hmd hkey hidx).rename _⟩
  · rw [(create_frame hget).1 c hc] at hb
    exact hs c b hb

theorem typed_create {fs : Files} {s s' : Store} {name messageType : Bytes}
    {opts : CollectionOptions} {cm : CollectionMeta} (hs : Typed fs s)
    (h : createCollection fs s name messageType opts = (s', .ok cm)) : Typed fs s' := by
  obtain ⟨md, _, rfl, _, _, hfree, hget, _⟩ := createCollection_eq_ok h
  obtain ⟨hcoll, hdata, _⟩ := create_frame hget
  refine ⟨bindings_create hs.bindings h, ?_, ?_⟩
  · intro c cm' md' hcm' hb' k b hb
    rw [hdata] at hb
    by_cases hc : name = c
    · rw [← hc, hs.vacant name hfree k] at hb
      cases hb
    · rw [getMeta_congr (hcoll c hc)] at hcm'
      exact hs.docs c cm' md' hcm' hb' k b hb
  · intro c hvac k
    have hc : name ≠ c := by
      intro hc
      rw [hget, if_pos ⟨rfl, hc⟩] at hvac
      cases hvac
    rw [hcoll c hc] at hvac
    rw [hdata]
    exact hs.vacant c hvac k

theorem sound_create {fs : Files} {s s' : Store} {name messageType : Bytes}
    {opts : CollectionOptions} {cm : CollectionMeta} (hs : Sound fs s)
    (hname : validString name = true)
    (h : createCollection fs s name messageType opts = (s', .ok cm)) : Sound fs s' := by
  obtain ⟨md, hmd, rfl, hkey, hidx, _, hget, _⟩ := createCollection_eq_ok h
  obtain ⟨hcoll, _, hindex⟩ := create_frame hget
  refine ⟨typed_create hs.toTyped h, ?_, ?_⟩
  · intro c cm' hcm'
    by_cases hc : name = c
    · obtain ⟨b, hb, hread⟩ := getMeta_eq_ok_iff.mp hcm'
      rw [hget, if_pos ⟨rfl, hc⟩] at hb
      cases hb
      rw [newMeta_unmarshal hmd hkey hidx, toValidUTF8_eq_self hname] at hread
      rw [← Option.some.inj hread]
      exact hc
    · rw [getMeta_congr (hcoll c hc)] at hcm'
      exact hs.name c cm' hcm'
  · intro c hvac f e
    have hc : name ≠ c := by
      intro hc
      rw [hget, if_pos ⟨rfl, hc⟩] at hvac
      cases hvac
    rw [hcoll c hc] at hvac
    rw [hindex]
    exact hs.unindexed c hvac f e

/-! ## The outcomes of a call -/

/-- A collection name that survives the JSON round trip. -/
def Call.NameValid : Call → Prop
  | .createCollection name _ _ => validString name = true
  | _ => True

/-- A document operation rewrote one key of one collection. -/
structure Rewrote (fs : Files) (s s' : Store) (coll key : Bytes) (cm : CollectionMeta)
    (md : MessageDesc) (old new : Option Msg) : Prop where
  collection : getMeta s coll = .ok cm
  bound : Bound fs cm md
  keyOk : KeyOk md cm key
  before : ∀ m ∈ old, s.get (dataBucket coll) key = some (.document m.recs) ∧ m.descriptor = md
  after : ∀ m ∈ new, m.descriptor = md ∧ DocOk fs md (.document m.recs)
  rewrites : Rewrites s s' cm coll key old new

theorem parsed_ok {codec : Codec} {fs : Files} {cm : CollectionMeta} {md : MessageDesc}
    (hb : Bound fs cm md) {json : Bytes} {msg : Msg} (h : parse codec fs cm json = .ok msg) :
    msg.descriptor = md ∧ DocOk fs md (.document msg.recs) := by
  obtain ⟨hmd, hinit, hfits⟩ := parse_eq_ok h
  rw [hb.message] at hmd
  cases hmd
  exact ⟨rfl, msg.recs, rfl, hinit, hfits⟩

theorem decoded_ok {fs : Files} {cm : CollectionMeta} {md : MessageDesc} (hb : Bound fs cm md)
    {b : Blob} {msg : Msg} (h : decode fs cm b = .ok msg) :
    b = .document msg.recs ∧ msg.descriptor = md := by
  obtain ⟨w, rfl, _, rfl⟩ := (decode_eq_ok_iff hb.message).mp h
  exact ⟨rfl, rfl⟩

section Effects

variable {codec : Codec} {fs : Files} {s s' s₁ : Store} {cm : CollectionMeta}
  {coll json id key : Bytes} {b : Blob} {old msg : Msg}

/-! Where the definitions resolve, an effect on a document is a rewrite. -/

theorem rewrote_inserted (hs : Bindings fs s) (hcm : getMeta s coll = .ok cm)
    (hmsg : parse codec fs cm json = .ok msg) (hplaced : Placed fs s s₁ cm msg key id)
    (hrw : Rewrites s s' cm coll key none (some msg)) :
    ∃ md, Rewrote fs s s' coll key cm md none (some msg) := by
  obtain ⟨md, hb⟩ := hs.bound hcm
  refine ⟨md, hcm, hb, keyOk_placed hb hplaced, ?_, ?_, hrw⟩
  · intro m hm
    cases hm
  · intro m hm
    cases hm
    exact parsed_ok hb hmsg

theorem rewrote_replaced (hs : Bindings fs s) (hcm : getMeta s coll = .ok cm)
    (hkey : encodeKey fs cm id = .ok key) (hget : s.get (dataBucket coll) key = some b)
    (hold : decode fs cm b = .ok old) (hmsg : parse codec fs cm json = .ok msg)
    (hrw : Rewrites s s' cm coll key (some old) (some msg)) :
    ∃ md, Rewrote fs s s' coll key cm md (some old) (some msg) := by
  obtain ⟨md, hb⟩ := hs.bound hcm
  obtain ⟨rfl, hdesc⟩ := decoded_ok hb hold
  refine ⟨md, hcm, hb, keyOk_encodeKey hb hkey, ?_, ?_, hrw⟩
  · intro m hm
    cases hm
    exact ⟨hget, hdesc⟩
  · intro m hm
    cases hm
    exact parsed_ok hb hmsg

theorem rewrote_removed (hs : Bindings fs s) (hcm : getMeta s coll = .ok cm)
    (hkey : encodeKey fs cm id = .ok key) (hget : s.get (dataBucket coll) key = some b)
    (hold : decode fs cm b = .ok old) (hrw : Rewrites s s' cm coll key (some old) none) :
    ∃ md, Rewrote fs s s' coll key cm md (some old) none := by
  obtain ⟨md, hb⟩ := hs.bound hcm
  obtain ⟨rfl, hdesc⟩ := decoded_ok hb hold
  refine ⟨md, hcm, hb, keyOk_encodeKey hb hkey, ?_, ?_, hrw⟩
  · intro m hm
    cases hm
    exact ⟨hget, hdesc⟩
  · intro m hm
    cases hm

end Effects

theorem bindings_step {codec : Codec} {fs : Files} {s : Store} (hs : Bindings fs s) (call : Call) :
    Bindings fs (step codec fs s call) := by
  have heff := exec_effect codec fs s call
  generalize step codec fs s call = s' at heff
  generalize (exec codec fs s call).2 = res at heff
  cases heff with
  | failed | absent _ _ _ => exact hs
  | created h => exact bindings_create hs h
  | inserted _ _ _ _ _ h | replaced _ _ _ _ _ _ h | removed _ _ _ _ _ h =>
      exact bindings_rewrites hs h

theorem typed_rewrote {fs : Files} {s s' : Store} {coll key : Bytes} {cm : CollectionMeta}
    {md : MessageDesc} {old new : Option Msg} (hs : Typed fs s)
    (h : Rewrote fs s s' coll key cm md old new) : Typed fs s' :=
  typed_rewrites hs h.collection h.bound h.keyOk (fun m hm => (h.after m hm).2) h.rewrites

theorem typed_step {codec : Codec} {fs : Files} {s : Store} (hs : Typed fs s) (call : Call) :
    Typed fs (step codec fs s call) := by
  have heff := exec_effect codec fs s call
  generalize step codec fs s call = s' at heff
  generalize (exec codec fs s call).2 = res at heff
  cases heff with
  | failed | absent _ _ _ => exact hs
  | created h => exact typed_create hs h
  | inserted hcm hmsg hplaced _ _ hrw =>
      obtain ⟨md, h⟩ := rewrote_inserted hs.bindings hcm hmsg hplaced hrw
      exact typed_rewrote hs h
  | replaced hcm hkey hget hold hmsg _ hrw =>
      obtain ⟨md, h⟩ := rewrote_replaced hs.bindings hcm hkey hget hold hmsg hrw
      exact typed_rewrote hs h
  | removed hcm hkey hget hold _ hrw =>
      obtain ⟨md, h⟩ := rewrote_removed hs.bindings hcm hkey hget hold hrw
      exact typed_rewrote hs h

theorem sound_rewrote {fs : Files} {s s' : Store} {coll key : Bytes} {cm : CollectionMeta}
    {md : MessageDesc} {old new : Option Msg} (hs : Sound fs s)
    (h : Rewrote fs s s' coll key cm md old new) : Sound fs s' :=
  sound_rewrites hs h.collection (typed_rewrote hs.toTyped h) h.rewrites

theorem sound_step {codec : Codec} {fs : Files} {s : Store} (hs : Sound fs s) {call : Call}
    (hname : call.NameValid) : Sound fs (step codec fs s call) := by
  have heff := exec_effect codec fs s call
  generalize step codec fs s call = s' at heff
  generalize (exec codec fs s call).2 = res at heff
  cases heff with
  | failed | absent _ _ _ => exact hs
  | created h => exact sound_create hs hname h
  | inserted hcm hmsg hplaced _ _ hrw =>
      obtain ⟨md, h⟩ := rewrote_inserted hs.bindings hcm hmsg hplaced hrw
      exact sound_rewrote hs h
  | replaced hcm hkey hget hold hmsg _ hrw =>
      obtain ⟨md, h⟩ := rewrote_replaced hs.bindings hcm hkey hget hold hmsg hrw
      exact sound_rewrote hs h
  | removed hcm hkey hget hold _ hrw =>
      obtain ⟨md, h⟩ := rewrote_removed hs.bindings hcm hkey hget hold hrw
      exact sound_rewrote hs h

/-- Every database reached by calls with valid names is sound. -/
theorem sound_run {codec : Codec} {fs : Files} {calls : List Call} {s : Store} (hs : Sound fs s)
    (hnames : ∀ call ∈ calls, call.NameValid) : Sound fs (run (step codec fs) s calls) := by
  apply run_kept hs
  intro s call hcall hs
  exact sound_step hs (hnames call hcall)

end KoraDB.Engine
