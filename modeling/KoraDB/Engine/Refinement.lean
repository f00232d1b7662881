import KoraDB.Engine.Ids
import KoraDB.Engine.IndexExact

/-!
# Collections as finite maps

Abstractly a collection is a map from key values to documents. The map is
defined by the calls: a successful insert or update puts its document at the
value its id denotes, a successful delete removes what is there, and a failing
call does nothing (`record`). `Refines` states what the operations return in
terms of that map.

An id denotes a value or it does not; `abc` is no automatic id. Such an id is
refused by every operation with an error of its own, which is why the laws are
about ids that denote something.
-/

namespace KoraDB.Engine

open KoraDB.Base KoraDB.Proto KoraDB.Catalog KoraDB.Schema

/-! ## The abstract map -/

/-- Documents by collection and key value. -/
abbrev Docs := Bytes → KeyVal → Option Msg

/-- The value an id denotes in a collection. -/
def denoteIn (fs : Files) (cm : CollectionMeta) (id : Bytes) : Option KeyVal :=
  match cm.keyKind with
  | .auto => KeyVal.denote .uint64 id
  | .field => match keyFieldOf fs cm with
    | .ok kfd => KeyVal.denote kfd.kind id
    | .error _ => none

def keyOf (fs : Files) (s : Store) (coll id : Bytes) : Option KeyVal :=
  match getMeta s coll with
  | .ok cm => denoteIn fs cm id
  | .error _ => none

/-- The document a text denotes in a collection. -/
def docOf (codec : Codec) (fs : Files) (s : Store) (coll json : Bytes) : Option Msg :=
  match getMeta s coll with
  | .ok cm => (parse codec fs cm json).toOption
  | .error _ => none

def Docs.set (docs : Docs) (coll : Bytes) (v : Option KeyVal) (doc : Option Msg) : Docs :=
  fun c u => if c = coll ∧ v = some u then doc else docs c u

theorem keyOf_eq {fs : Files} {s : Store} {coll : Bytes} {cm : CollectionMeta}
    (h : getMeta s coll = .ok cm) (id : Bytes) : keyOf fs s coll id = denoteIn fs cm id := by
  unfold keyOf
  rw [h]

theorem Docs.set_here (docs : Docs) (coll : Bytes) (v : KeyVal) (doc : Option Msg) :
    docs.set coll (some v) doc coll v = doc :=
  if_pos ⟨rfl, rfl⟩

theorem Docs.set_elsewhere {docs : Docs} {coll c : Bytes} {v u : KeyVal} {doc : Option Msg}
    (h : ¬(c = coll ∧ v = u)) : docs.set coll (some v) doc c u = docs c u :=
  if_neg fun hh => h ⟨hh.1, Option.some.inj hh.2⟩

/-- What a call with its result does to the map. -/
def record (codec : Codec) (fs : Files) (s : Store) (docs : Docs) (call : Call) :
    Except EngineErr Bytes → Docs
  | .error _ => docs
  | .ok newID => match call with
    | .createCollection _ _ _ => docs
    | .insert coll json => docs.set coll (keyOf fs s coll newID) (docOf codec fs s coll json)
    | .update coll id json => docs.set coll (keyOf fs s coll id) (docOf codec fs s coll json)
    | .delete coll id => docs.set coll (keyOf fs s coll id) none

/-- The database and the map beside it. -/
def recordStep (codec : Codec) (fs : Files) (g : Store × Docs) (call : Call) : Store × Docs :=
  (step codec fs g.1 call, record codec fs g.1 g.2 call (exec codec fs g.1 call).2)

/-! ## What the operations return -/

/-- The operations on `s`, in terms of the map `docs`. -/
structure Refines (codec : Codec) (fs : Files) (s : Store) (docs : Docs) : Prop where
  /-- `Get` renders the document of the value its id denotes. -/
  get_some : ∀ c cm id v msg, getMeta s c = .ok cm → denoteIn fs cm id = some v →
    docs c v = some msg → get codec fs s c id = renderMessage codec fs msg
  /-- `Get` reports `ErrNotFound` when there is none. -/
  get_none : ∀ c cm id v, getMeta s c = .ok cm → denoteIn fs cm id = some v →
    docs c v = none → get codec fs s c id = .error (.documentNotFound c id)
  /-- A collection that does not exist holds nothing. -/
  missing : ∀ c id, s.get collectionsBucket c = none →
    get codec fs s c id = .error (.collectionNotFound c) ∧ ∀ v, docs c v = none
  /-- An id that denotes nothing is refused: `Get`, `Update` and `Delete` fail
  with one error that is not `ErrNotFound`. -/
  malformed : ∀ c cm id json, getMeta s c = .ok cm → denoteIn fs cm id = none →
    ∃ e, e.isNotFound = false ∧ get codec fs s c id = .error e ∧
      update codec fs s c id json = (s, .error e) ∧ delete fs s c id = (s, .error e)
  /-- `Insert` into a field-keyed collection reports `ErrDuplicateKey` exactly
  when the document's key is present. -/
  duplicate : ∀ c cm kfd json msg, getMeta s c = .ok cm → cm.keyKind = .field →
    keyFieldOf fs cm = .ok kfd → parse codec fs cm json = .ok msg →
    ((∃ e, (insert codec fs s c json).2 = .error e ∧ e.isDuplicateKey = true) ↔
      ∃ old, docs c (.ofScalar (msg.get kfd)) = some old)
  /-- `Update` fails when the id is absent. -/
  update_absent : ∀ c cm id v json, getMeta s c = .ok cm → denoteIn fs cm id = some v →
    docs c v = none → update codec fs s c id json = (s, .error (.documentNotFound c id))
  /-- `Update` fails when the new document has another key. -/
  update_moved : ∀ c cm id v old kfd json msg, getMeta s c = .ok cm → denoteIn fs cm id = some v →
    docs c v = some old → cm.keyKind = .field → keyFieldOf fs cm = .ok kfd →
    parse codec fs cm json = .ok msg → KeyVal.ofScalar (msg.get kfd) ≠ v →
    update codec fs s c id json = (s, .error (.immutableKey c id cm.keyField))
  /-- `Delete` of an absent id succeeds and does nothing. -/
  delete_absent : ∀ c cm id v, getMeta s c = .ok cm → denoteIn fs cm id = some v →
    docs c v = none → delete fs s c id = (s, .ok ())
  /-- A failing call leaves all buckets and sequences as they were. -/
  failing : ∀ call e, (exec codec fs s call).2 = .error e → step codec fs s call = s

/-! ## Ids and values -/

theorem keyFieldOf_eq_ok_iff {fs : Files} {cm : CollectionMeta} {md : MessageDesc}
    (hb : Bound fs cm md) {kfd : FieldDesc} :
    keyFieldOf fs cm = .ok kfd ↔ md.byName cm.keyField = some kfd := by
  simp only [keyFieldOf, bind_eq_ok_iff, wrap_eq_ok_iff, messageDescriptor_eq_ok_iff,
    orErr_eq_ok_iff, hb.message, Option.some.injEq, exists_eq_left']

theorem denoteIn_eq {fs : Files} {cm : CollectionMeta} {md : MessageDesc} (hb : Bound fs cm md)
    {kind : Kind} (hkind : keyKindOf md cm = some kind) (id : Bytes) :
    denoteIn fs cm id = KeyVal.denote kind id := by
  unfold keyKindOf at hkind
  unfold denoteIn
  cases hk : cm.keyKind with
  | auto =>
      rw [hk] at hkind
      cases hkind
      rfl
  | field =>
      rw [hk] at hkind
      obtain ⟨kfd, hkfd, rfl⟩ := Option.map_eq_some_iff.mp hkind
      rw [(keyFieldOf_eq_ok_iff hb).mpr hkfd]

/-- `encodeKey` encodes the value the id denotes. -/
theorem encodeKey_iff_denoteIn {fs : Files} {cm : CollectionMeta} {md : MessageDesc}
    (hb : Bound fs cm md) {id k : Bytes} :
    encodeKey fs cm id = .ok k ↔ ∃ v, denoteIn fs cm id = some v ∧ k = v.storageKey := by
  obtain ⟨kind, hkind⟩ := hb.keyKind_eq
  rw [encodeKey_eq_ok_iff hb.message, denoteIn_eq hb hkind]
  constructor
  · intro h
    obtain ⟨kind', v, hkind', hv, hk⟩ := h
    rw [hkind] at hkind'
    cases hkind'
    exact ⟨v, hv, hk⟩
  · intro h
    obtain ⟨v, hv, hk⟩ := h
    exact ⟨kind, v, hkind, hv, hk⟩

/-- The key of a document that parses: its id exists and denotes the value of
its key field. -/
theorem deriveKey_field {codec : Codec} {fs : Files} {cm : CollectionMeta} {md : MessageDesc}
    (hb : Bound fs cm md) (hk : cm.keyKind = .field) {json : Bytes} {msg : Msg}
    (hmsg : parse codec fs cm json = .ok msg) {kfd : FieldDesc}
    (hkfd : md.byName cm.keyField = some kfd) (s : Store) :
    ∃ id, deriveKey fs s cm msg =
        .ok (s, (KeyVal.ofScalar (msg.get kfd)).storageKey, id) ∧
      KeyVal.hasKind kfd.kind (.ofScalar (msg.get kfd)) := by
  obtain ⟨hmd, _, hfits⟩ := parse_eq_ok hmsg
  rw [hb.message] at hmd
  cases hmd
  obtain ⟨kfd', hkfd', _, _, hsup⟩ := hb.key hk
  rw [hkfd] at hkfd'
  cases hkfd'
  have hscalar : kfd.kind.isScalar = true := by
    cases hkind : kfd.kind <;> rw [hkind] at hsup <;> first | rfl | cases hsup
  obtain ⟨id, hid⟩ := idStringFromValue_ok hsup (msg.get kfd)
  have hdenote := denote_idString (get_hasKind hfits hscalar) hid
  have hkind : keyKindOf msg.descriptor cm = some kfd.kind := by
    simp [keyKindOf, hk, hkfd]
  have henc : encodeKey fs cm id = .ok (KeyVal.ofScalar (msg.get kfd)).storageKey :=
    (encodeKey_iff_denoteIn hb).mpr ⟨_, by rw [denoteIn_eq hb hkind]; exact hdenote, rfl⟩
  refine ⟨id, ?_, KeyVal.denote_hasKind hdenote⟩
  unfold deriveKey
  rw [hk]
  simp only [hkfd, orErr_some, ok_bind, hid, henc]
  rfl

/-! ## The store holds the map -/

/-- The documents of the store are those of the map. -/
structure Holds (fs : Files) (s : Store) (docs : Docs) : Prop where
  vacant : ∀ c, s.get collectionsBucket c = none → ∀ v, docs c v = none
  stored : ∀ c cm md kind v, getMeta s c = .ok cm → Bound fs cm md →
    keyKindOf md cm = some kind → KeyVal.hasKind kind v →
    s.get (dataBucket c) v.storageKey = (docs c v).map fun m => .document m.recs
  typed : ∀ c cm md v m, getMeta s c = .ok cm → Bound fs cm md → docs c v = some m →
    m.descriptor = md

theorem holds_empty (fs : Files) : Holds fs Storage.Store.empty fun _ _ => none := by
  refine ⟨fun _ _ _ => rfl, ?_, ?_⟩
  · intro c cm md kind v _ _ _ _
    exact Storage.Store.get_empty _ _
  · intro c cm md v m _ _ h
    cases h

/-- A rewrite of the key of `v` sets the map at `v`. -/
theorem holds_rewrote {fs : Files} {s s' : Store} {docs : Docs} {coll id key : Bytes}
    {cm : CollectionMeta} {md : MessageDesc} {old new : Option Msg}
    (h : Holds fs s docs) (hrw : Rewrote fs s s' coll key cm md old new)
    (henc : encodeKey fs cm id = .ok key) :
    Holds fs s' (docs.set coll (keyOf fs s coll id) new) := by
  obtain ⟨v₀, hv₀, hkey⟩ := (encodeKey_iff_denoteIn hrw.bound).mp henc
  rw [keyOf_eq hrw.collection, hv₀]
  refine ⟨?_, ?_, ?_⟩
  · intro c hvac v
    rw [hrw.rewrites.get_collections] at hvac
    have hne : c ≠ coll := by
      intro hc
      obtain ⟨b, hb, _⟩ := getMeta_eq_ok_iff.mp hrw.collection
      rw [← hc, hvac] at hb
      cases hb
    rw [Docs.set_elsewhere fun hh => hne hh.1]
    exact h.vacant c hvac v
  · intro c cm' md' kind v hcm' hb' hkind hv
    rw [getMeta_congr (hrw.rewrites.get_collections c)] at hcm'
    by_cases hhere : c = coll ∧ v₀ = v
    · obtain ⟨rfl, rfl⟩ := hhere
      rw [Docs.set_here, ← hkey, hrw.rewrites.doc]
    · rw [Docs.set_elsewhere hhere, hrw.rewrites.get_data,
        h.stored c cm' md' kind v hcm' hb' hkind hv]
      -- distinct values of one key kind have distinct storage keys
      intro hsame
      obtain ⟨rfl, hkk⟩ := hsame
      rw [hrw.collection] at hcm'
      cases hcm'
      cases hrw.bound.unique hb'
      refine hhere ⟨rfl, ?_⟩
      rw [denoteIn_eq hrw.bound hkind] at hv₀
      exact KeyVal.storageKey_inj (KeyVal.denote_hasKind hv₀) hv (hkey.symm.trans hkk)
  · intro c cm' md' v m hcm' hb' hm
    rw [getMeta_congr (hrw.rewrites.get_collections c)] at hcm'
    by_cases hhere : c = coll ∧ v₀ = v
    · obtain ⟨rfl, rfl⟩ := hhere
      rw [Docs.set_here] at hm
      rw [hrw.collection] at hcm'
      cases hcm'
      cases hrw.bound.unique hb'
      exact (hrw.after m hm).1
    · rw [Docs.set_elsewhere hhere] at hm
      exact h.typed c cm' md' v m hcm' hb' hm

theorem holds_create {fs : Files} {s s' : Store} {docs : Docs} {name messageType : Bytes}
    {opts : CollectionOptions} {cm : CollectionMeta} (hs : Sound fs s) (h : Holds fs s docs)
    (hc : createCollection fs s name messageType opts = (s', .ok cm)) : Holds fs s' docs := by
  obtain ⟨md, _, rfl, _, _, hfree, hget, _⟩ := createCollection_eq_ok hc
  obtain ⟨hcoll, hdata, _⟩ := create_frame hget
  refine ⟨?_, ?_, ?_⟩
  · intro c hvac v
    by_cases hn : name = c
    · rw [← hn]
      exact h.vacant name hfree v
    · rw [hcoll c hn] at hvac
      exact h.vacant c hvac v
  · intro c cm' md' kind v hcm' hb' hkind hv
    rw [hdata]
    by_cases hn : name = c
    · subst hn
      rw [h.vacant name hfree v, hs.vacant name hfree]
      rfl
    · rw [getMeta_congr (hcoll c hn)] at hcm'
      exact h.stored c cm' md' kind v hcm' hb' hkind hv
  · intro c cm' md' v m hcm' hb' hm
    by_cases hn : name = c
    · rw [← hn, h.vacant name hfree v] at hm
      cases hm
    · rw [getMeta_congr (hcoll c hn)] at hcm'
      exact h.typed c cm' md' v m hcm' hb' hm

theorem docOf_eq {codec : Codec} {fs : Files} {s : Store} {coll json : Bytes} {cm : CollectionMeta}
    {msg : Msg} (hcm : getMeta s coll = .ok cm) (hmsg : parse codec fs cm json = .ok msg) :
    docOf codec fs s coll json = some msg := by
  unfold docOf
  rw [hcm]
  show (parse codec fs cm json).toOption = some msg
  rw [hmsg]
  rfl

/-- A delete that finds nothing in the store would find nothing in the map. -/
theorem Holds.set_absent {fs : Files} {s : Store} {docs : Docs} (hs : Sound fs s)
    (h : Holds fs s docs) {coll id key : Bytes} {cm : CollectionMeta}
    (hcm : getMeta s coll = .ok cm) (hkey : encodeKey fs cm id = .ok key)
    (hnone : s.get (dataBucket coll) key = none) :
    docs.set coll (keyOf fs s coll id) none = docs := by
  obtain ⟨md, hb⟩ := hs.bound hcm
  obtain ⟨kind, hkind⟩ := hb.keyKind_eq
  obtain ⟨v, hv, rfl⟩ := (encodeKey_iff_denoteIn hb).mp hkey
  rw [keyOf_eq hcm, hv]
  have habsent : docs coll v = none := by
    rw [denoteIn_eq hb hkind] at hv
    have hstored := h.stored coll cm md kind v hcm hb hkind (KeyVal.denote_hasKind hv)
    rw [hnone] at hstored
    exact Option.map_eq_none_iff.mp hstored.symm
  funext c u
  by_cases hhere : c = coll ∧ v = u
  · obtain ⟨rfl, rfl⟩ := hhere
    rw [Docs.set_here, habsent]
  · rw [Docs.set_elsewhere hhere]

/-- One call keeps the store and the map together. -/
theorem holds_step {codec : Codec} {fs : Files} {s : Store} {docs : Docs} (hs : Sound fs s)
    (h : Holds fs s docs) (call : Call) :
    Holds fs (step codec fs s call) (record codec fs s docs call (exec codec fs s call).2) := by
  have heff := exec_effect codec fs s call
  generalize step codec fs s call = s' at heff
  generalize (exec codec fs s call).2 = res at heff
  cases heff with
  | failed => exact h
  | created hc => exact holds_create hs h hc
  | inserted hcm hmsg hplaced _ _ hrw =>
      obtain ⟨md, hrewrote⟩ := rewrote_inserted hs.bindings hcm hmsg hplaced hrw
      show Holds fs s' (docs.set _ _ _)
      rw [docOf_eq hcm hmsg]
      exact holds_rewrote h hrewrote hplaced.encodeKey_eq
  | replaced hcm hkey hget hold hmsg _ hrw =>
      obtain ⟨md, hrewrote⟩ := rewrote_replaced hs.bindings hcm hkey hget hold hmsg hrw
      show Holds fs s' (docs.set _ _ _)
      rw [docOf_eq hcm hmsg]
      exact holds_rewrote h hrewrote hkey
  | absent collection encoded absent =>
      show Holds fs s (docs.set _ _ _)
      rw [h.set_absent hs collection encoded absent]
      exact h
  | removed hcm hkey hget hold _ hrw =>
      obtain ⟨md, hrewrote⟩ := rewrote_removed hs.bindings hcm hkey hget hold hrw
      exact holds_rewrote h hrewrote hkey

/-! ## From the store to the results -/

section Results

variable {codec : Codec} {fs : Files} {s : Store} {docs : Docs}

/-- What a lookup by id meets in the store. -/
theorem Holds.lookup (hs : Sound fs s) (h : Holds fs s docs) {c id : Bytes} {cm : CollectionMeta}
    {v : KeyVal} (hcm : getMeta s c = .ok cm) (hv : denoteIn fs cm id = some v) :
    encodeKey fs cm id = .ok v.storageKey ∧
      s.get (dataBucket c) v.storageKey = (docs c v).map fun m => .document m.recs := by
  obtain ⟨md, hb⟩ := hs.bound hcm
  obtain ⟨kind, hkind⟩ := hb.keyKind_eq
  refine ⟨(encodeKey_iff_denoteIn hb).mpr ⟨v, hv, rfl⟩, h.stored c cm md kind v hcm hb hkind ?_⟩
  rw [denoteIn_eq hb hkind] at hv
  exact KeyVal.denote_hasKind hv

/-- A document of the map decodes to itself. -/
theorem Holds.decode (hs : Sound fs s) (h : Holds fs s docs) {c id : Bytes} {cm : CollectionMeta}
    {v : KeyVal} {msg : Msg} (hcm : getMeta s c = .ok cm) (hv : denoteIn fs cm id = some v)
    (hmsg : docs c v = some msg) : Engine.decode fs cm (.document msg.recs) = .ok msg := by
  obtain ⟨md, hb⟩ := hs.bound hcm
  obtain ⟨_, hget⟩ := h.lookup hs hcm hv
  rw [hmsg] at hget
  obtain ⟨⟨w, hw, hinit, _⟩, _⟩ := hs.docs c cm md hcm hb _ _ hget
  cases hw
  have hdesc := h.typed c cm md v msg hcm hb hmsg
  refine (decode_eq_ok_iff hb.message).mpr ⟨msg.recs, rfl, hinit, ?_⟩
  rw [← hdesc]

theorem refines_get_some (hs : Sound fs s) (h : Holds fs s docs) {c id : Bytes}
    {cm : CollectionMeta} {v : KeyVal} {msg : Msg} (hcm : getMeta s c = .ok cm)
    (hv : denoteIn fs cm id = some v) (hmsg : docs c v = some msg) :
    get codec fs s c id = renderMessage codec fs msg := by
  obtain ⟨henc, hget⟩ := h.lookup hs hcm hv
  rw [hmsg] at hget
  unfold Engine.get
  rw [hcm, ok_bind, henc, ok_bind, hget]
  simp only [Option.map_some, orErr_some, ok_bind, h.decode hs hcm hv hmsg]

theorem refines_get_none (hs : Sound fs s) (h : Holds fs s docs) {c id : Bytes}
    {cm : CollectionMeta} {v : KeyVal} (hcm : getMeta s c = .ok cm)
    (hv : denoteIn fs cm id = some v) (hnone : docs c v = none) :
    get codec fs s c id = .error (.documentNotFound c id) := by
  obtain ⟨henc, hget⟩ := h.lookup hs hcm hv
  rw [hnone] at hget
  unfold Engine.get
  rw [hcm, ok_bind, henc, ok_bind, hget]
  rfl

theorem refines_update_absent (hs : Sound fs s) (h : Holds fs s docs) {c id : Bytes}
    {cm : CollectionMeta} {v : KeyVal} (hcm : getMeta s c = .ok cm)
    (hv : denoteIn fs cm id = some v) (hnone : docs c v = none) (json : Bytes) :
    update codec fs s c id json = (s, .error (.documentNotFound c id)) := by
  obtain ⟨henc, hget⟩ := h.lookup hs hcm hv
  rw [hnone] at hget
  unfold update Storage.Store.update updateTx
  rw [hcm, ok_bind, henc, ok_bind, hget]
  rfl

theorem refines_delete_absent (hs : Sound fs s) (h : Holds fs s docs) {c id : Bytes}
    {cm : CollectionMeta} {v : KeyVal} (hcm : getMeta s c = .ok cm)
    (hv : denoteIn fs cm id = some v) (hnone : docs c v = none) :
    delete fs s c id = (s, .ok ()) := by
  obtain ⟨henc, hget⟩ := h.lookup hs hcm hv
  rw [hnone] at hget
  unfold delete Storage.Store.update deleteTx
  rw [hcm, ok_bind, henc, ok_bind, hget]
  rfl

/-- The errors of `encodeKey` on a collection whose key field resolves. -/
theorem encodeKey_malformed {cm : CollectionMeta} {md : MessageDesc} (hb : Bound fs cm md)
    {id : Bytes} (hid : denoteIn fs cm id = none) :
    ∃ e, e.isNotFound = false ∧ encodeKey fs cm id = .error e := by
  cases henc : encodeKey fs cm id with
  | ok k =>
      obtain ⟨v, hv, _⟩ := (encodeKey_iff_denoteIn hb).mp henc
      rw [hid] at hv
      cases hv
  | error e =>
      refine ⟨e, ?_, rfl⟩
      cases hk : cm.keyKind with
      | auto =>
          unfold encodeKey at henc
          rw [hk] at henc
          cases hp : parseUint 64 id with
          | none =>
              rw [hp] at henc
              cases henc
              rfl
          | some n =>
              rw [hp] at henc
              cases henc
      | field =>
          obtain ⟨kfd, hkfd, _⟩ := hb.key hk
          unfold encodeKey at henc
          rw [hk] at henc
          simp only [(keyFieldOf_eq_ok_iff hb).mpr hkfd, ok_bind] at henc
          unfold encodeFieldKey at henc
          split at henc
          case h_1 | h_2 | h_3 | h_4 | h_5 | h_6 =>
            cases hp : parseInt (primaryKeyBitSize kfd.kind) id <;> rw [hp] at henc <;> cases henc
            rfl
          case h_7 | h_8 | h_9 | h_10 =>
            cases hp : parseUint (primaryKeyBitSize kfd.kind) id <;> rw [hp] at henc <;> cases henc
            rfl
          case h_11 =>
            cases hp : parseBool id <;> rw [hp] at henc <;> cases henc
            rfl
          case h_12 => cases henc
          case h_13 =>
            cases henc
            rfl

theorem refines_malformed (hs : Sound fs s) {c id : Bytes} {cm : CollectionMeta}
    (hcm : getMeta s c = .ok cm) (hid : denoteIn fs cm id = none) (json : Bytes) :
    ∃ e, e.isNotFound = false ∧ get codec fs s c id = .error e ∧
      update codec fs s c id json = (s, .error e) ∧ delete fs s c id = (s, .error e) := by
  obtain ⟨md, hb⟩ := hs.bound hcm
  obtain ⟨e, he, henc⟩ := encodeKey_malformed hb hid
  refine ⟨e, he, ?_, ?_, ?_⟩
  · unfold Engine.get
    rw [hcm, ok_bind, henc]
    rfl
  · unfold update Storage.Store.update updateTx
    rw [hcm, ok_bind, henc]
    rfl
  · unfold delete Storage.Store.update deleteTx
    rw [hcm, ok_bind, henc]
    rfl

theorem refines_update_moved (hs : Sound fs s) (h : Holds fs s docs) {c id : Bytes}
    {cm : CollectionMeta} {v : KeyVal} {old : Msg} {kfd : FieldDesc} {json : Bytes} {msg : Msg}
    (hcm : getMeta s c = .ok cm) (hv : denoteIn fs cm id = some v) (hold : docs c v = some old)
    (hk : cm.keyKind = .field) (hkfd : keyFieldOf fs cm = .ok kfd)
    (hmsg : parse codec fs cm json = .ok msg) (hne : KeyVal.ofScalar (msg.get kfd) ≠ v) :
    update codec fs s c id json = (s, .error (.immutableKey c id cm.keyField)) := by
  obtain ⟨md, hb⟩ := hs.bound hcm
  obtain ⟨henc, hget⟩ := h.lookup hs hcm hv
  rw [hold] at hget
  have hkfd := (keyFieldOf_eq_ok_iff hb).mp hkfd
  obtain ⟨newID, hderive, hkind⟩ := deriveKey_field hb hk hmsg hkfd s
  have hvkind : KeyVal.hasKind kfd.kind v := by
    have hkk : keyKindOf md cm = some kfd.kind := by simp [keyKindOf, hk, hkfd]
    rw [denoteIn_eq hb hkk] at hv
    exact KeyVal.denote_hasKind hv
  have hkeys : (v.storageKey != (KeyVal.ofScalar (msg.get kfd)).storageKey) = true := by
    rw [bne_iff_ne]
    intro heq
    exact hne (KeyVal.storageKey_inj hkind hvkind heq.symm)
  have hcheck : checkSameKey fs s cm c id v.storageKey msg =
      .error (.immutableKey c id cm.keyField) := by
    unfold checkSameKey
    rw [hk]
    simp only [hderive, ok_bind, hkeys, reject_true]
  have htx : updateTx codec fs c id json s = .error (.immutableKey c id cm.keyField) := by
    unfold updateTx
    rw [hcm, ok_bind, henc, ok_bind, hget]
    simp only [Option.map_some, orErr_some, ok_bind, h.decode hs hcm hv hold, hmsg, hcheck,
      error_bind]
  unfold update Storage.Store.update
  rw [htx]

/-- Writing index entries fails for reasons of its own. -/
theorem indexInsert_error {s : Store} {cm : CollectionMeta} {key : Bytes} {msg : Msg}
    {e : EngineErr} (h : indexInsert s cm key msg = .error e) : e.isDuplicateKey = false := by
  unfold indexInsert eachIndexedValue at h
  generalize cm.indexes = fields at h
  induction fields generalizing s with
  | nil => cases h
  | cons field fields ih =>
      simp only [List.foldlM_cons, bind_eq_error_iff, orErr_eq_error_iff, wrap_eq_error_iff,
        bind_eq_ok_iff] at h
      rcases h with (⟨_, rfl⟩ | ⟨fd, _, ⟨_, _, rfl⟩ | ⟨enc, _, _, _, rfl⟩⟩) | ⟨s₁, _, h⟩
      · rfl
      · rfl
      · rfl
      · exact ih h

/-- An insert of a document whose key is settled: the check for a duplicate,
then the writes. -/
theorem insertTx_keyed {c id key : Bytes} {cm : CollectionMeta} {json : Bytes} {msg : Msg}
    (hcm : getMeta s c = .ok cm) (hk : cm.keyKind = .field)
    (hmsg : parse codec fs cm json = .ok msg) (hderive : deriveKey fs s cm msg = .ok (s, key, id)) :
    insertTx codec fs c json s = (do
      reject (s.has (dataBucket c) key) (.duplicateKey c id)
      let wire ← orErr (marshal fs msg) .marshal
      let s ← wrap (s.put (dataBucket c) key (.document wire)) .storage
      let s ← indexInsert s cm key msg
      return (s, id)) := by
  unfold insertTx
  rw [hcm, ok_bind, hmsg, ok_bind, hderive, ok_bind, hk]
  rfl

/-- Past the check for a duplicate, every error is about marshalling, storage
or an index. -/
theorem insert_error_of_free {c id key : Bytes} {cm : CollectionMeta} {json : Bytes} {msg : Msg}
    {e : EngineErr} (hcm : getMeta s c = .ok cm) (hk : cm.keyKind = .field)
    (hmsg : parse codec fs cm json = .ok msg) (hderive : deriveKey fs s cm msg = .ok (s, key, id))
    (hfree : s.has (dataBucket c) key = false) (h : (insert codec fs s c json).2 = .error e) :
    e.isDuplicateKey = false := by
  unfold insert Storage.Store.update at h
  rw [insertTx_keyed hcm hk hmsg hderive, hfree, reject_false, ok_bind] at h
  split at h
  · cases h
  · rename_i e' htx
    cases h
    simp only [bind_eq_error_iff, orErr_eq_error_iff, wrap_eq_error_iff, pure, Except.pure,
      reduceCtorEq, and_false, exists_false, or_false] at htx
    rcases htx with ⟨_, rfl⟩ | ⟨wire, _, ⟨_, _, rfl⟩ | ⟨s₁, _, hins⟩⟩
    · rfl
    · rfl
    · exact indexInsert_error hins

theorem refines_duplicate (hs : Sound fs s) (h : Holds fs s docs) {c : Bytes}
    {cm : CollectionMeta} {kfd : FieldDesc} {json : Bytes} {msg : Msg}
    (hcm : getMeta s c = .ok cm) (hk : cm.keyKind = .field) (hkfd : keyFieldOf fs cm = .ok kfd)
    (hmsg : parse codec fs cm json = .ok msg) :
    (∃ e, (insert codec fs s c json).2 = .error e ∧ e.isDuplicateKey = true) ↔
      ∃ old, docs c (.ofScalar (msg.get kfd)) = some old := by
  obtain ⟨md, hb⟩ := hs.bound hcm
  have hkfd := (keyFieldOf_eq_ok_iff hb).mp hkfd
  obtain ⟨id, hderive, hkind⟩ := deriveKey_field hb hk hmsg hkfd s
  have hkk : keyKindOf md cm = some kfd.kind := by simp [keyKindOf, hk, hkfd]
  have hst := h.stored c cm md kfd.kind _ hcm hb hkk hkind
  generalize hkv : KeyVal.ofScalar (msg.get kfd) = v at hderive hst
  have hhas : s.has (dataBucket c) v.storageKey = (docs c v).isSome := by
    unfold Storage.Store.has
    rw [hst, Option.isSome_map]
  cases hdoc : docs c v with
  | some old =>
      rw [hdoc] at hhas
      refine iff_of_true ⟨.duplicateKey c id, ?_, rfl⟩ ⟨old, rfl⟩
      unfold insert Storage.Store.update
      rw [insertTx_keyed hcm hk hmsg hderive, hhas]
      rfl
  | none =>
      rw [hdoc] at hhas
      refine iff_of_false ?_ (by simp)
      intro hdup
      obtain ⟨e, herr, hde⟩ := hdup
      rw [insert_error_of_free hcm hk hmsg hderive hhas herr] at hde
      cases hde

theorem refines_of_holds (hs : Sound fs s) (h : Holds fs s docs) : Refines codec fs s docs where
  get_some _ _ _ _ _ hcm hv hmsg := refines_get_some hs h hcm hv hmsg
  get_none _ _ _ _ hcm hv hnone := refines_get_none hs h hcm hv hnone
  missing c id hvac := by
    refine ⟨?_, h.vacant c hvac⟩
    simp only [Engine.get, getMeta, hvac, orErr_none, error_bind]
  malformed _ _ _ json hcm hid := refines_malformed hs hcm hid json
  duplicate _ _ _ _ _ hcm hk hkfd hmsg := refines_duplicate hs h hcm hk hkfd hmsg
  update_absent _ _ _ _ json hcm hv hnone := refines_update_absent hs h hcm hv hnone json
  update_moved _ _ _ _ _ _ _ _ hcm hv hold hk hkfd hmsg hne :=
    refines_update_moved hs h hcm hv hold hk hkfd hmsg hne
  delete_absent _ _ _ _ hcm hv hnone := refines_delete_absent hs h hcm hv hnone
  failing _ _ herr := exec_error herr

end Results

/-! ## Runs -/

theorem holds_run {codec : Codec} {fs : Files} {calls : List Call} {g : Store × Docs}
    (hs : Sound fs g.1) (h : Holds fs g.1 g.2) (hnames : ∀ call ∈ calls, call.NameValid) :
    Sound fs (run (recordStep codec fs) g calls).1 ∧
      Holds fs (run (recordStep codec fs) g calls).1 (run (recordStep codec fs) g calls).2 := by
  apply run_kept (P := fun g : Store × Docs => Sound fs g.1 ∧ Holds fs g.1 g.2) ⟨hs, h⟩
  rintro g call hcall ⟨hs, h⟩
  exact ⟨sound_step hs (hnames call hcall), holds_step hs h call⟩

/-- **Refinement.** After any run over collections with valid names, the
operations behave as on the map of the latest successful writes. -/
theorem collections_refine_map (codec : Codec) (fs : Files) (calls : List Call)
    (hnames : ∀ call ∈ calls, call.NameValid) :
    Refines codec fs (run (recordStep codec fs) (.empty, fun _ _ => none) calls).1
      (run (recordStep codec fs) (.empty, fun _ _ => none) calls).2 := by
  have hrun := @holds_run codec fs calls (.empty, fun _ _ => none) (sound_empty fs)
    (holds_empty fs) hnames
  exact refines_of_holds hrun.1 hrun.2

/-- Over the items, `a` is found under its new tag and `b` is gone. -/
theorem collections_refine_map_items :
    ∃ docs, Refines itemCodec itemFiles (run (step itemCodec itemFiles) .empty itemCalls) docs ∧
      get itemCodec itemFiles (run (step itemCodec itemFiles) .empty itemCalls) (ascii "items")
        (ascii "a") = .ok blueA ∧
      get itemCodec itemFiles (run (step itemCodec itemFiles) .empty itemCalls) (ascii "items")
        (ascii "b") = .error (.documentNotFound (ascii "items") (ascii "b")) := by
  refine ⟨_, collections_refine_map itemCodec itemFiles itemCalls itemCalls_valid, ?_, ?_⟩
  all_goals decide +kernel

/-! ## Ids that denote nothing -/

/-- A collection with automatic ids. -/
def ticketCalls : List Call :=
  [.createCollection (ascii "tickets") itemName ⟨[], []⟩]

/-- Nothing was ever stored under `abc`, and still `Get` does not report
`ErrNotFound` and `Delete` does not succeed: the id is not a number. -/
theorem malformed_id_is_not_absent :
    (run (recordStep itemCodec itemFiles) (.empty, fun _ _ => none) ticketCalls).2 =
        (fun _ _ => none) ∧
      get itemCodec itemFiles (run (step itemCodec itemFiles) .empty ticketCalls)
        (ascii "tickets") (ascii "abc") = .error (.invalidAutoID (ascii "abc")) ∧
      (EngineErr.invalidAutoID (ascii "abc")).isNotFound = false ∧
      (delete itemFiles (run (step itemCodec itemFiles) .empty ticketCalls)
        (ascii "tickets") (ascii "abc")).2 = .error (.invalidAutoID (ascii "abc")) := by
  refine ⟨?_, ?_, rfl, ?_⟩
  · rfl
  all_goals decide +kernel

end KoraDB.Engine
