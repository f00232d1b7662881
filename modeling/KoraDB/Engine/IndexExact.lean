import KoraDB.Engine.Invariant

/-!
# Indexes agree with their data

`IndexExact` says that the keys of bucket `idx:c:f` are exactly the entries of
the documents stored in `data:c`. It holds in every state of a run as long as
no state of the run stores a NUL byte in a string field indexed under string
keys.

The bound on the length of a run is the one of the 64-bit sequence behind
automatic ids: before it wraps around, a new id is never one in use.
-/

namespace KoraDB.Engine

open KoraDB.Base KoraDB.Proto KoraDB.Catalog KoraDB.Schema

/-- The collection is keyed by a field of string kind. -/
def StringKeyed (fs : Files) (cm : CollectionMeta) : Prop :=
  cm.keyKind = .field ∧ ∃ kfd, keyFieldOf fs cm = .ok kfd ∧ kfd.kind = .string

/-- No document of the string-keyed collection `c` has a NUL byte in the string
field `f`. -/
def NulFree (fs : Files) (c f : Bytes) (s : Store) : Prop :=
  ∀ cm k b msg fd, getMeta s c = .ok cm → StringKeyed fs cm →
    s.get (dataBucket c) k = some b → decode fs cm b = .ok msg →
    msg.descriptor.byName f = some fd → fd.kind = .string → Index.sep ∉ (msg.get fd).toStr

/-- The index on `f` holds exactly the entries of the documents of `c`. -/
def IndexExact (fs : Files) (c f : Bytes) (s : Store) : Prop :=
  ∀ cm, getMeta s c = .ok cm → f ∈ cm.indexes → ∀ e,
    s.has (Index.bucket c f) e = true ↔
      ∃ k b msg fd enc, s.get (dataBucket c) k = some b ∧ decode fs cm b = .ok msg ∧
        msg.descriptor.byName f = some fd ∧ Index.encodeValue fd (msg.get fd) = .ok enc ∧
        e = Index.entryKey enc k

/-- `NulFree`, computed by a scan of the documents. -/
def nulFree (fs : Files) (c f : Bytes) (s : Store) : Bool :=
  match getMeta s c with
  | .error _ => true
  | .ok cm => match keyFieldOf fs cm with
    | .error _ => true
    | .ok kfd => cm.keyKind != .field || kfd.kind != .string ||
      (s.scan (dataBucket c)).all fun e => match decode fs cm e.2 with
        | .error _ => true
        | .ok msg => match msg.descriptor.byName f with
          | none => true
          | some fd => fd.kind != .string || !(msg.get fd).toStr.contains Index.sep

theorem nulFree_of_check {fs : Files} {c f : Bytes} {s : Store} (h : nulFree fs c f s = true) :
    NulFree fs c f s := by
  intro cm k b msg fd hcm hkeyed hget hdec hfd hkind
  obtain ⟨hkk, kfd, hkfd, hks⟩ := hkeyed
  unfold nulFree at h
  simp only [hcm, hkfd, hkk, hks, bne_self_eq_false, Bool.false_or, List.all_eq_true] at h
  have hone := h (k, b) (Storage.Store.mem_scan.mpr hget)
  simp only [hdec, hfd, hkind, bne_self_eq_false, Bool.false_or, Bool.not_eq_true',
    List.contains_eq_mem, decide_eq_false_iff_not] at hone
  exact hone

/-! ## In terms of one bound field -/

/-- Some document of `c`, read as a `md`, has the entry `e` for field `fd`. -/
def StoredEntry (s : Store) (c : Bytes) (md : MessageDesc) (fd : FieldDesc) (e : Bytes) : Prop :=
  ∃ k w enc, s.get (dataBucket c) k = some (.document w) ∧
    Index.encodeValue fd (Msg.get ⟨md, w⟩ fd) = .ok enc ∧ e = Index.entryKey enc k

theorem indexExact_iff {fs : Files} {s : Store} (hs : Sound fs s) {c f : Bytes}
    {cm : CollectionMeta} {md : MessageDesc} {fd : FieldDesc} (hcm : getMeta s c = .ok cm)
    (hb : Bound fs cm md) (hf : f ∈ cm.indexes) (hfd : md.byName f = some fd) :
    IndexExact fs c f s ↔
      ∀ e, (s.get (Index.bucket c f) e).isSome = true ↔ StoredEntry s c md fd e := by
  have hentry : ∀ e, StoredEntry s c md fd e ↔
      ∃ k b msg fd enc, s.get (dataBucket c) k = some b ∧ decode fs cm b = .ok msg ∧
        msg.descriptor.byName f = some fd ∧ Index.encodeValue fd (msg.get fd) = .ok enc ∧
        e = Index.entryKey enc k := by
    intro e
    constructor
    · intro h
      obtain ⟨k, w, enc, hget, henc, he⟩ := h
      obtain ⟨⟨w', hw, hinit, _⟩, _⟩ := hs.docs c cm md hcm hb k _ hget
      cases hw
      exact ⟨k, _, ⟨md, w⟩, fd, enc, hget,
        (decode_eq_ok_iff hb.message).mpr ⟨w, rfl, hinit, rfl⟩, hfd, henc, he⟩
    · intro h
      obtain ⟨k, b, msg, fd', enc, hget, hdec, hfd', henc, he⟩ := h
      obtain ⟨w, rfl, _, rfl⟩ := (decode_eq_ok_iff hb.message).mp hdec
      rw [show (Msg.mk md w).descriptor = md from rfl, hfd] at hfd'
      cases hfd'
      exact ⟨k, w, enc, hget, henc, he⟩
  constructor
  · intro h e
    rw [hentry]
    exact h cm hcm hf e
  · intro h cm' hcm' _ e
    rw [hcm] at hcm'
    cases hcm'
    rw [← hentry]
    exact h e

/-- Two documents of one collection share no entry while it is free of NUL. -/
theorem storedEntry_key {fs : Files} {s : Store} (hs : Sound fs s) {c f : Bytes}
    (hnul : NulFree fs c f s) {cm : CollectionMeta} {md : MessageDesc} {fd : FieldDesc}
    (hcm : getMeta s c = .ok cm) (hb : Bound fs cm md) (hfd : md.byName f = some fd)
    {k k' enc enc' : Bytes} {w w' : Wire} (hget : s.get (dataBucket c) k = some (.document w))
    (hget' : s.get (dataBucket c) k' = some (.document w'))
    (henc : Index.encodeValue fd (Msg.get ⟨md, w⟩ fd) = .ok enc)
    (henc' : Index.encodeValue fd (Msg.get ⟨md, w'⟩ fd) = .ok enc')
    (h : Index.entryKey enc k = Index.entryKey enc' k') : k = k' := by
  obtain ⟨⟨_, hw, hinit, _⟩, kind, v, hkind, hv, rfl⟩ := hs.docs c cm md hcm hb k _ hget
  obtain ⟨⟨_, hw', hinit', _⟩, kind', v', hkind', hv', rfl⟩ := hs.docs c cm md hcm hb k' _ hget'
  cases hw
  cases hw'
  rw [hkind] at hkind'
  cases hkind'
  refine entryKey_determines_key hv hv' henc henc' ?_ h
  intro hstr hkstr
  -- both values are strings, read under string keys
  have hkeyed : StringKeyed fs cm := by
    unfold keyKindOf at hkind
    cases hkk : cm.keyKind with
    | auto =>
        rw [hkk] at hkind
        cases hkind
        cases hkstr
    | field =>
        rw [hkk] at hkind
        obtain ⟨kfd, hkfd, hkfdk⟩ := Option.map_eq_some_iff.mp hkind
        refine ⟨hkk, kfd, ?_, hkfdk.trans hkstr⟩
        simp only [keyFieldOf, bind_eq_ok_iff, wrap_eq_ok_iff, messageDescriptor_eq_ok_iff,
          orErr_eq_ok_iff]
        exact ⟨md, hb.message, hkfd⟩
  have hfree := hnul cm _ _ ⟨md, w⟩ fd hcm hkeyed hget
    ((decode_eq_ok_iff hb.message).mpr ⟨w, rfl, hinit, rfl⟩) hfd hstr
  have hfree' := hnul cm _ _ ⟨md, w'⟩ fd hcm hkeyed hget'
    ((decode_eq_ok_iff hb.message).mpr ⟨w', rfl, hinit', rfl⟩) hfd hstr
  unfold Index.encodeValue at henc henc'
  rw [hstr] at henc henc'
  cases henc
  cases henc'
  exact ⟨hfree, hfree'⟩

/-- The document under `key`, if there is one, has the entry `e` for field
`fd`. -/
def EntryOf (fd : FieldDesc) (key : Bytes) (o : Option Msg) (e : Bytes) : Prop :=
  ∃ m ∈ o, ∃ enc, Index.encodeValue fd (m.get fd) = .ok enc ∧ e = Index.entryKey enc key

/-- The entries of a document that may be there, in the index of one field. -/
theorem exists_entry_iff {cm : CollectionMeta} {md : MessageDesc} {f : Bytes} {fd : FieldDesc}
    (key : Bytes) (hf : f ∈ cm.indexes) (hfd : md.byName f = some fd) {o : Option Msg}
    (ho : ∀ m ∈ o, m.descriptor = md) (e : Bytes) :
    (∃ m ∈ o, IsEntry cm key m (Index.bucket cm.name f) e) ↔ EntryOf fd key o e := by
  have hone : ∀ m ∈ o, (IsEntry cm key m (Index.bucket cm.name f) e ↔
      ∃ enc, Index.encodeValue fd (m.get fd) = .ok enc ∧ e = Index.entryKey enc key) :=
    fun m hm => isEntry_field_iff hf (by rw [ho m hm]; exact hfd)
  constructor
  · intro h
    obtain ⟨m, hm, he⟩ := h
    exact ⟨m, hm, (hone m hm).mp he⟩
  · intro h
    obtain ⟨m, hm, he⟩ := h
    exact ⟨m, hm, (hone m hm).mpr he⟩

/-! ## One rewrite -/

section Rewrite

variable {fs : Files} {s s' : Store} {coll key f : Bytes} {cm : CollectionMeta} {md : MessageDesc}
  {fd : FieldDesc} {old new : Option Msg}

/-- A rewrite puts the entry of the new document and removes the old one's. -/
theorem index_rewrote (hs : Sound fs s) (h : Rewrote fs s s' coll key cm md old new)
    (hf : f ∈ cm.indexes) (hfd : md.byName f = some fd) (e : Bytes) :
    (s'.get (Index.bucket coll f) e).isSome = true ↔
      EntryOf fd key new e ∨
        ((s.get (Index.bucket coll f) e).isSome = true ∧ ¬ EntryOf fd key old e) := by
  have hold := exists_entry_iff key hf hfd (fun m hm => (h.before m hm).2) e
  have hnew := exists_entry_iff key hf hfd (fun m hm => (h.after m hm).1) e
  rw [hs.name _ _ h.collection] at hold hnew
  by_cases hin : EntryOf fd key new e
  · rw [h.rewrites.entry _ _ (hnew.mpr hin)]
    simp [hin]
  · by_cases hout : EntryOf fd key old e
    · rw [h.rewrites.gone _ _ (hold.mpr hout) (mt hnew.mp hin)]
      simp [hin, hout]
    · rw [h.rewrites.other _ _ (mt hold.mp hout) (mt hnew.mp hin)
        fun hd => indexBucket_ne_dataBucket _ _ _ hd.1.symm]
      simp [hin, hout]

/-- `StoredEntry`, for the documents under other keys. -/
def StoredElsewhere (s : Store) (c key : Bytes) (md : MessageDesc) (fd : FieldDesc) (e : Bytes) :
    Prop :=
  ∃ k w enc, k ≠ key ∧ s.get (dataBucket c) k = some (.document w) ∧
    Index.encodeValue fd (Msg.get ⟨md, w⟩ fd) = .ok enc ∧ e = Index.entryKey enc k

/-- After a rewrite the stored entries are the new document's and those under
other keys. -/
theorem storedEntry_rewrote (h : Rewrote fs s s' coll key cm md old new) (e : Bytes) :
    StoredEntry s' coll md fd e ↔ EntryOf fd key new e ∨ StoredElsewhere s coll key md fd e := by
  have hdata : ∀ k, k ≠ key → s'.get (dataBucket coll) k = s.get (dataBucket coll) k :=
    fun k hk => h.rewrites.get_data fun hh => hk hh.2.symm
  constructor
  · intro hst
    obtain ⟨k, w, enc, hget, henc, he⟩ := hst
    by_cases hk : k = key
    · left
      rw [hk, h.rewrites.doc] at hget
      obtain ⟨m, hm, hmw⟩ := Option.map_eq_some_iff.mp hget
      cases hmw
      refine ⟨m, hm, enc, ?_, by rw [he, hk]⟩
      rw [← henc, ← (h.after m hm).1]
    · right
      rw [hdata k hk] at hget
      exact ⟨k, w, enc, hk, hget, henc, he⟩
  · intro hst
    rcases hst with ⟨m, hm, enc, henc, he⟩ | ⟨k, w, enc, hk, hget, henc, he⟩
    · refine ⟨key, m.recs, enc, ?_, ?_, he⟩
      · rw [h.rewrites.doc, hm]
        rfl
      · rw [← (h.after m hm).1]
        exact henc
    · exact ⟨k, w, enc, by rw [hdata k hk]; exact hget, henc, he⟩

/-- Another document's entry is not the old document's. -/
theorem StoredElsewhere.not_entryOf (hs : Sound fs s) (hnul : NulFree fs coll f s)
    (h : Rewrote fs s s' coll key cm md old new) (hfd : md.byName f = some fd) {e : Bytes}
    (hst : StoredElsewhere s coll key md fd e) : ¬ EntryOf fd key old e := by
  intro hout
  obtain ⟨k, w, enc, hk, hget, henc, he⟩ := hst
  obtain ⟨m, hm, enc', henc', he'⟩ := hout
  obtain ⟨hgetm, hdesc⟩ := h.before m hm
  have hsame := he.symm.trans he'
  refine hk (storedEntry_key hs hnul h.collection h.bound hfd hget hgetm henc ?_ hsame)
  rw [← hdesc]
  exact henc'

/-- The entries under other keys are the stored ones but the old document's. -/
theorem storedElsewhere_iff (hs : Sound fs s) (hnul : NulFree fs coll f s)
    (h : Rewrote fs s s' coll key cm md old new)
    (habsent : old = none → s.get (dataBucket coll) key = none) (hfd : md.byName f = some fd)
    (e : Bytes) :
    StoredElsewhere s coll key md fd e ↔ StoredEntry s coll md fd e ∧ ¬ EntryOf fd key old e := by
  constructor
  · intro hst
    refine ⟨?_, hst.not_entryOf hs hnul h hfd⟩
    obtain ⟨k, w, enc, _, hget, henc, he⟩ := hst
    exact ⟨k, w, enc, hget, henc, he⟩
  · rintro ⟨⟨k, w, enc, hget, henc, he⟩, hout⟩
    refine ⟨k, w, enc, ?_, hget, henc, he⟩
    rintro rfl
    -- what is stored under the key is the old document
    cases hold : old with
    | none =>
        rw [habsent hold] at hget
        cases hget
    | some m =>
        obtain ⟨hgetm, hdesc⟩ := h.before m hold
        rw [hgetm] at hget
        cases hget
        refine hout ⟨m, hold, enc, ?_, he⟩
        rw [← henc, ← hdesc]

end Rewrite

/-- A rewrite of what is stored under the key keeps an index exact. -/
theorem indexExact_rewrote {fs : Files} {s s' : Store} {coll key : Bytes} {cm : CollectionMeta}
    {md : MessageDesc} {old new : Option Msg} (hs : Sound fs s)
    (h : Rewrote fs s s' coll key cm md old new)
    (habsent : old = none → s.get (dataBucket coll) key = none) {c f : Bytes}
    (hnul : NulFree fs c f s) (hex : IndexExact fs c f s) : IndexExact fs c f s' := by
  have hs' := sound_rewrote hs h
  have hmeta := getMeta_congr (h.rewrites.get_collections c)
  intro cm' hcm' hf
  rw [hmeta] at hcm'
  obtain ⟨md', hb'⟩ := hs.bound hcm'
  obtain ⟨fd, hfd, _⟩ := hb'.indexes f hf
  have hfield := (MessageDesc.byName_mem hfd).2
  refine (indexExact_iff hs' (hmeta.trans hcm') hb' hf hfd).mpr ?_ cm' (hmeta.trans hcm') hf
  rw [indexExact_iff hs hcm' hb' hf hfd] at hex
  intro e
  by_cases hc : coll = c
  · subst hc
    rw [h.collection] at hcm'
    cases hcm'
    cases hb'.unique h.bound
    rw [index_rewrote hs h hf hfd, hex e, storedEntry_rewrote h,
      storedElsewhere_iff hs hnul h habsent hfd]
  · -- another collection: neither its data nor its index moved
    have hcollname := hs.name _ _ h.collection
    rw [← hfield, h.rewrites.get_index (by rw [hcollname]; exact hc), hfield, hex e]
    have hdata : ∀ k, s'.get (dataBucket c) k = s.get (dataBucket c) k :=
      fun k => h.rewrites.get_data fun hh => hc hh.1
    simp only [StoredEntry, hdata]

theorem indexExact_create {fs : Files} {s s' : Store} {name messageType : Bytes}
    {opts : CollectionOptions} {cm : CollectionMeta} (hs : Sound fs s)
    (h : createCollection fs s name messageType opts = (s', .ok cm)) {c f : Bytes}
    (hex : IndexExact fs c f s) (hs' : Sound fs s') : IndexExact fs c f s' := by
  obtain ⟨md, hmd, rfl, hkey, hidx, hfree, hget, _⟩ := createCollection_eq_ok h
  obtain ⟨hcoll, hdata, hindex⟩ := create_frame hget
  intro cm' hcm' hf e
  simp only [Storage.Store.has, hindex, hdata]
  by_cases hc : name = c
  · -- a new collection has no documents and no entries
    subst hc
    obtain ⟨md', hb'⟩ := hs'.bound hcm'
    obtain ⟨fd, hfd, _⟩ := hb'.indexes f hf
    have hd := hs.vacant name hfree
    have hi := hs.unindexed name hfree
    rw [← (MessageDesc.byName_mem hfd).2, hi fd.name e]
    simp [hd]
  · rw [getMeta_congr (hcoll c hc)] at hcm'
    exact hex cm' hcm' hf e

/-! ## Automatic ids are fresh -/

/-- The keys of an auto-keyed collection are numbers its sequence has passed,
and no sequence has passed `n`. -/
structure AutoKeys (s : Store) (n : Nat) : Prop where
  keys : ∀ c cm, getMeta s c = .ok cm → cm.keyKind = .auto →
    ∀ k b, s.get (dataBucket c) k = some b → ∃ m, k = be64 m ∧ m ≤ s.sequence (dataBucket c)
  bound : ∀ b, s.sequence b ≤ n

theorem autoKeys_empty : AutoKeys Storage.Store.empty 0 := by
  refine ⟨?_, ?_⟩
  · intro c cm h
    obtain ⟨b, hb, _⟩ := getMeta_eq_ok_iff.mp h
    rw [Storage.Store.get_empty] at hb
    cases hb
  · intro b
    simp [Storage.Store.sequence, Storage.Store.bucketOrNew, Storage.Store.empty,
      Storage.Bucket.empty]

/-- Before the counter wraps around, an insert never meets a stored key. -/
theorem AutoKeys.fresh {fs : Files} {s s₁ : Store} {n : Nat} (h : AutoKeys s n)
    (hn : n + 1 < 2 ^ 64) {cm : CollectionMeta} {msg : Msg} {key id : Bytes}
    (hcm : getMeta s cm.name = .ok cm) (hp : Placed fs s s₁ cm msg key id)
    (hauto : cm.keyKind = .auto) : s.get (dataBucket cm.name) key = none := by
  obtain ⟨m, hm, rfl, _⟩ := hp.auto hauto
  have hle := h.bound (dataBucket cm.name)
  cases hget : s.get (dataBucket cm.name) (be64 m) with
  | none => rfl
  | some b =>
      obtain ⟨m', hkey, hm'⟩ := h.keys cm.name cm hcm hauto _ _ hget
      have hmod : m = s.sequence (dataBucket cm.name) + 1 := by
        rw [hm]
        exact Nat.mod_eq_of_lt (by omega)
      have := be64_inj (by omega) (by omega) hkey
      omega

/-- An insert is of a key that is not stored. -/
theorem inserted_absent {fs : Files} {s s₁ : Store} {n : Nat} (hs : Sound fs s)
    (hauto : AutoKeys s n) (hn : n + 1 < 2 ^ 64) {cm : CollectionMeta} {msg : Msg}
    {coll key id : Bytes} (hcm : getMeta s coll = .ok cm) (hp : Placed fs s s₁ cm msg key id)
    (habsent : cm.keyKind = .field → s.get (dataBucket coll) key = none) :
    s.get (dataBucket coll) key = none := by
  have hname := hs.name _ _ hcm
  cases hk : cm.keyKind with
  | auto =>
      rw [← hname] at hcm ⊢
      exact hauto.fresh hn hcm hp hk
  | field => exact habsent hk

theorem autoKeys_rewrote {fs : Files} {s s' : Store} {n : Nat} (h : AutoKeys s n) {coll key : Bytes}
    {cm : CollectionMeta} {md : MessageDesc} {old new : Option Msg}
    (hrw : Rewrote fs s s' coll key cm md old new)
    (hseq : ∀ b, s.sequence b ≤ s'.sequence b) (hbound : ∀ b, s'.sequence b ≤ n + 1)
    (hkey : cm.keyKind = .auto → ∀ b, s'.get (dataBucket coll) key = some b →
      ∃ m, key = be64 m ∧ m ≤ s'.sequence (dataBucket coll)) : AutoKeys s' (n + 1) := by
  refine ⟨?_, hbound⟩
  intro c cm' hcm' hauto k b hget
  rw [getMeta_congr (hrw.rewrites.get_collections c)] at hcm'
  by_cases hhere : coll = c ∧ key = k
  · obtain ⟨rfl, rfl⟩ := hhere
    rw [hrw.collection] at hcm'
    cases hcm'
    exact hkey hauto b hget
  · rw [hrw.rewrites.get_data hhere] at hget
    obtain ⟨m, hk, hm⟩ := h.keys c cm' hcm' hauto k b hget
    exact ⟨m, hk, hm.trans (hseq _)⟩

theorem autoKeys_create {fs : Files} {s s' : Store} {n : Nat} {name messageType : Bytes}
    {opts : CollectionOptions} {cm : CollectionMeta} (hs : Sound fs s) (h : AutoKeys s n)
    (hc : createCollection fs s name messageType opts = (s', .ok cm)) : AutoKeys s' (n + 1) := by
  obtain ⟨md, _, rfl, _, _, hfree, hget, hseq⟩ := createCollection_eq_ok hc
  obtain ⟨hcoll, hdata, _⟩ := create_frame hget
  refine ⟨?_, fun b => by rw [hseq]; exact Nat.le_succ_of_le (h.bound b)⟩
  intro c cm' hcm' hauto k b hb
  rw [hdata] at hb
  rw [hseq]
  by_cases hc : name = c
  · rw [← hc, hs.vacant name hfree k] at hb
    cases hb
  · rw [getMeta_congr (hcoll c hc)] at hcm'
    exact h.keys c cm' hcm' hauto k b hb

/-- A rewrite that moves no sequence, under a key that is not new. -/
theorem autoKeys_rewrote_still {fs : Files} {s s' : Store} {n : Nat} (h : AutoKeys s n)
    {coll key : Bytes} {cm : CollectionMeta} {md : MessageDesc} {old new : Option Msg}
    (hrw : Rewrote fs s s' coll key cm md old new) (hseq : ∀ b, s'.sequence b = s.sequence b)
    (hkey : cm.keyKind = .auto → ∀ b, s'.get (dataBucket coll) key = some b →
      ∃ b, s.get (dataBucket coll) key = some b) : AutoKeys s' (n + 1) := by
  refine autoKeys_rewrote h hrw (fun b => by rw [hseq]) ?_ ?_
  · intro b
    rw [hseq]
    exact Nat.le_succ_of_le (h.bound b)
  · intro ha b hb
    obtain ⟨b, hb⟩ := hkey ha b hb
    rw [hseq]
    exact h.keys _ _ hrw.collection ha _ _ hb

/-- An insert under the next number of the sequence. -/
theorem autoKeys_next {fs : Files} {s s₁ s' : Store} {n : Nat} (hs : Sound fs s)
    (h : AutoKeys s n) (hn : n + 1 < 2 ^ 64) {coll key id : Bytes} {cm : CollectionMeta}
    {md : MessageDesc} {old new : Option Msg} {msg : Msg}
    (hrw : Rewrote fs s s' coll key cm md old new) (placed : Placed fs s s₁ cm msg key id)
    (hauto : cm.keyKind = .auto) (hseq₁ : ∀ b, s'.sequence b = s₁.sequence b) :
    AutoKeys s' (n + 1) := by
  obtain ⟨m, hm, hkey, _, hseq⟩ := placed.auto hauto
  have hb := h.bound (dataBucket cm.name)
  have hmod : m = s.sequence (dataBucket cm.name) + 1 := by
    rw [hm]
    exact Nat.mod_eq_of_lt (by omega)
  have hseq' : ∀ b, s'.sequence b = if dataBucket cm.name = b then m else s.sequence b :=
    fun b => (hseq₁ b).trans (hseq b)
  apply autoKeys_rewrote h hrw
  · intro b
    rw [hseq']
    split
    · rename_i hb'
      rw [← hb']
      omega
    · exact Nat.le_refl _
  · intro b
    have hle := h.bound b
    rw [hseq']
    split <;> omega
  · intro _ b _
    refine ⟨m, hkey, ?_⟩
    rw [hseq', hs.name _ _ hrw.collection, if_pos rfl]

/-- One call moves a sequence by at most one, and the keys stay passed. -/
theorem autoKeys_step {codec : Codec} {fs : Files} {s : Store} {n : Nat} (hs : Sound fs s)
    (h : AutoKeys s n) (hn : n + 1 < 2 ^ 64) {call : Call} :
    AutoKeys (step codec fs s call) (n + 1) := by
  have heff := exec_effect codec fs s call
  generalize step codec fs s call = s' at heff
  generalize (exec codec fs s call).2 = res at heff
  cases heff with
  | failed | absent _ _ _ => exact ⟨h.keys, fun b => Nat.le_succ_of_le (h.bound b)⟩
  | created hc => exact autoKeys_create hs h hc
  | inserted hcm hmsg hplaced habsent seq hrw =>
      rename_i cm msg
      obtain ⟨md, hrewrote⟩ := rewrote_inserted hs.bindings hcm hmsg hplaced hrw
      cases hk : cm.keyKind with
      | auto => exact autoKeys_next hs h hn hrewrote hplaced hk seq
      | field =>
          obtain ⟨rfl, _⟩ := hplaced.field hk
          refine autoKeys_rewrote_still h hrewrote seq ?_
          intro ha
          rw [hk] at ha
          cases ha
  | replaced hcm hkey hget hold hmsg seq hrw =>
      obtain ⟨md, hrewrote⟩ := rewrote_replaced hs.bindings hcm hkey hget hold hmsg hrw
      exact autoKeys_rewrote_still h hrewrote seq fun _ _ _ => ⟨_, hget⟩
  | removed hcm hkey hget hold seq hrw =>
      obtain ⟨md, hrewrote⟩ := rewrote_removed hs.bindings hcm hkey hget hold hrw
      refine autoKeys_rewrote_still h hrewrote seq ?_
      intro _ b hb
      rw [hrw.doc] at hb
      cases hb

/-! ## Runs -/

/-- One call keeps an index exact. -/
theorem indexExact_step {codec : Codec} {fs : Files} {s : Store} {n : Nat} (hs : Sound fs s)
    (hauto : AutoKeys s n) (hn : n + 1 < 2 ^ 64) {call : Call} (hname : call.NameValid)
    {c f : Bytes} (hnul : NulFree fs c f s) (hex : IndexExact fs c f s) :
    IndexExact fs c f (step codec fs s call) := by
  have hs' : Sound fs (step codec fs s call) := sound_step hs hname
  have heff := exec_effect codec fs s call
  generalize step codec fs s call = s' at heff hs'
  generalize (exec codec fs s call).2 = res at heff
  cases heff with
  | failed | absent _ _ _ => exact hex
  | created h => exact indexExact_create hs h hex hs'
  | inserted hcm hmsg hplaced absent _ hrw =>
      obtain ⟨md, h⟩ := rewrote_inserted hs.bindings hcm hmsg hplaced hrw
      exact indexExact_rewrote hs h
        (fun _ => inserted_absent hs hauto hn hcm hplaced absent) hnul hex
  | replaced hcm hkey hget hold hmsg _ hrw =>
      obtain ⟨md, h⟩ := rewrote_replaced hs.bindings hcm hkey hget hold hmsg hrw
      exact indexExact_rewrote hs h (fun ho => by cases ho) hnul hex
  | removed hcm hkey hget hold _ hrw =>
      obtain ⟨md, h⟩ := rewrote_removed hs.bindings hcm hkey hget hold hrw
      exact indexExact_rewrote hs h (fun ho => by cases ho) hnul hex

theorem indexExact_run_from {codec : Codec} {fs : Files} {c f : Bytes} {calls : List Call}
    {s : Store} {n : Nat} (hs : Sound fs s) (hauto : AutoKeys s n)
    (hlen : n + calls.length < 2 ^ 64) (hnames : ∀ call ∈ calls, call.NameValid)
    (hnul : Always (step codec fs) (NulFree fs c f) s calls) (hex : IndexExact fs c f s) :
    IndexExact fs c f (run (step codec fs) s calls) := by
  induction calls generalizing s n with
  | nil => exact hex
  | cons call calls ih =>
      rw [List.length_cons] at hlen
      have hname := hnames call List.mem_cons_self
      exact ih (sound_step hs hname) (autoKeys_step hs hauto (by omega)) (by omega)
        (fun x hx => hnames x (List.mem_cons_of_mem _ hx)) hnul.2
        (indexExact_step hs hauto (by omega) hname hnul.1 hex)

/-- **Index consistency.** After any run of creations, inserts, updates and
deletes, failing ones included, the index of every indexed field of every
collection holds exactly the entries of its documents, unless some state of
the run stored a NUL byte in that string field under string keys. -/
theorem indexExact_run (codec : Codec) (fs : Files) (calls : List Call)
    (hlen : calls.length < 2 ^ 64) (hnames : ∀ call ∈ calls, call.NameValid) (c f : Bytes)
    (hnul : Always (step codec fs) (NulFree fs c f) .empty calls) :
    IndexExact fs c f (run (step codec fs) .empty calls) := by
  refine indexExact_run_from (sound_empty fs) autoKeys_empty (by omega) hnames hnul ?_
  intro cm hcm
  obtain ⟨b, hb, _⟩ := getMeta_eq_ok_iff.mp hcm
  rw [Storage.Store.get_empty] at hb
  cases hb

/-! ## A run with a string index under string keys -/

def itemName : Bytes := ascii "shop.Item"

def itemDesc : MessageDesc :=
  .mk ⟨ascii "Item", by decide⟩
    [plainField ⟨ascii "sku", by decide⟩ 1 .string [], tagField] [] []

/-- `package shop; message Item \x7b string sku = 1; string tag = 2; \x7d` -/
def itemFiles : Files :=
  ⟨[⟨ascii "item.proto", [shopPackage], [], [itemDesc], []⟩], by decide⟩

def item (sku tag : Bytes) : Wire :=
  .scalar 1 .string (.str sku) (.scalar 2 .string (.str tag) .nil)

/-- The text of an item, from the texts of its strings. -/
def itemText (sku tag : Bytes) : Bytes :=
  ascii "\x7b\"sku\":\"" ++ sku ++ ascii "\",\"tag\":\"" ++ tag ++ ascii "\"\x7d"

def redA : Bytes := itemText (ascii "a") (ascii "red")
def blueA : Bytes := itemText (ascii "a") (ascii "blue")
def redB : Bytes := itemText (ascii "b") (ascii "red")

def itemCodec : Codec := tableCodec
  [(redA, item (ascii "a") (ascii "red")), (blueA, item (ascii "a") (ascii "blue")),
    (redB, item (ascii "b") (ascii "red"))]

def itemCalls : List Call :=
  [.createCollection (ascii "items") itemName ⟨ascii "sku", [ascii "tag"]⟩,
    .insert (ascii "items") redA, .insert (ascii "items") redB,
    .update (ascii "items") (ascii "a") blueA, .delete (ascii "items") (ascii "b")]

theorem itemCalls_valid : ∀ call ∈ itemCalls, call.NameValid := by
  intro call hcall
  simp only [itemCalls, List.mem_cons, List.not_mem_nil, or_false] at hcall
  rcases hcall with rfl | rfl | rfl | rfl | rfl
  · show validString (ascii "items") = true
    decide
  all_goals trivial

/-- Two items are inserted, one is retagged and one deleted; one entry is
left. -/
theorem indexExact_run_items :
    IndexExact itemFiles (ascii "items") (ascii "tag")
        (run (step itemCodec itemFiles) .empty itemCalls) ∧
      ((run (step itemCodec itemFiles) .empty itemCalls).scan
        (Index.bucket (ascii "items") (ascii "tag"))).map Prod.fst =
          [ascii "blue" ++ [0] ++ ascii "a"] := by
  refine ⟨indexExact_run itemCodec itemFiles itemCalls (by decide) itemCalls_valid _ _ ?_,
    by decide +kernel⟩
  have hchecks : Always (step itemCodec itemFiles)
      (fun s => nulFree itemFiles (ascii "items") (ascii "tag") s = true) .empty itemCalls := by
    decide +kernel
  exact hchecks.imp fun s hs => nulFree_of_check hs

end KoraDB.Engine
