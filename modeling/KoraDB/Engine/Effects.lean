import KoraDB.Base.Run
import KoraDB.Engine.Ops

/-!
# What a call can do to a store

`Effect` lists the outcomes of a call on any store, under any descriptors:
nothing, one collection more, or one document rewritten. It assumes nothing of
the store, so it also holds where a definition no longer resolves or carries
another name than the one it is stored under.

The buckets a document operation touches follow from it (`docCall_frame`): the
data of the collection it names, and the sequence and the indexes of the name
in the collection's definition.
-/

namespace KoraDB.Engine

open KoraDB.Base KoraDB.Proto KoraDB.Catalog KoraDB.Schema

/-! ## Outcomes -/

inductive Effect (codec : Codec) (fs : Files) (s : Store) :
    Call → Except EngineErr Bytes → Store → Prop
  | failed {call : Call} {e : EngineErr} : Effect codec fs s call (.error e) s
  | created {name messageType : Bytes} {opts : CollectionOptions} {s' : Store}
      {cm : CollectionMeta} (h : createCollection fs s name messageType opts = (s', .ok cm)) :
      Effect codec fs s (.createCollection name messageType opts) (.ok []) s'
  | inserted {coll json id key : Bytes} {s₁ s' : Store} {cm : CollectionMeta} {msg : Msg}
      (collection : getMeta s coll = .ok cm) (parsed : parse codec fs cm json = .ok msg)
      (placed : Placed fs s s₁ cm msg key id)
      (absent : cm.keyKind = .field → s.get (dataBucket coll) key = none)
      (seq : ∀ b, s'.sequence b = s₁.sequence b)
      (h : Rewrites s s' cm coll key none (some msg)) :
      Effect codec fs s (.insert coll json) (.ok id) s'
  | replaced {coll id json key : Bytes} {s' : Store} {cm : CollectionMeta} {b : Blob}
      {old msg : Msg} (collection : getMeta s coll = .ok cm)
      (encoded : encodeKey fs cm id = .ok key) (before : s.get (dataBucket coll) key = some b)
      (decoded : decode fs cm b = .ok old) (parsed : parse codec fs cm json = .ok msg)
      (seq : ∀ b, s'.sequence b = s.sequence b)
      (h : Rewrites s s' cm coll key (some old) (some msg)) :
      Effect codec fs s (.update coll id json) (.ok []) s'
  | absent {coll id key : Bytes} {cm : CollectionMeta} (collection : getMeta s coll = .ok cm)
      (encoded : encodeKey fs cm id = .ok key) (absent : s.get (dataBucket coll) key = none) :
      Effect codec fs s (.delete coll id) (.ok []) s
  | removed {coll id key : Bytes} {s' : Store} {cm : CollectionMeta} {b : Blob} {old : Msg}
      (collection : getMeta s coll = .ok cm) (encoded : encodeKey fs cm id = .ok key)
      (before : s.get (dataBucket coll) key = some b) (decoded : decode fs cm b = .ok old)
      (seq : ∀ b, s'.sequence b = s.sequence b)
      (h : Rewrites s s' cm coll key (some old) none) :
      Effect codec fs s (.delete coll id) (.ok []) s'

theorem exec_effect (codec : Codec) (fs : Files) (s : Store) (call : Call) :
    Effect codec fs s call (exec codec fs s call).2 (step codec fs s call) := by
  cases hres : (exec codec fs s call).2 with
  | error e =>
      rw [show step codec fs s call = s from exec_error hres]
      exact .failed
  | ok r =>
      cases call with
      | createCollection name messageType opts =>
          obtain ⟨cm, hok, rfl⟩ := map_eq_ok_iff.mp hres
          exact .created (Prod.ext rfl hok)
      | insert coll json =>
          obtain ⟨cm, msg, s₁, key, hcm, hmsg, hplaced, habsent, hrw, hseq⟩ :=
            insert_eq_ok (Prod.ext rfl hres)
          exact .inserted hcm hmsg hplaced habsent hseq hrw
      | update coll id json =>
          obtain ⟨_, hok, rfl⟩ := map_eq_ok_iff.mp hres
          obtain ⟨cm, msg, key, b, old, hcm, hkey, hget, hold, hmsg, _, hrw, hseq⟩ :=
            update_eq_ok (Prod.ext rfl hok)
          exact .replaced hcm hkey hget hold hmsg hseq hrw
      | delete coll id =>
          obtain ⟨_, hok, rfl⟩ := map_eq_ok_iff.mp hres
          obtain ⟨cm, key, hcm, hkey, ⟨hnone, heq⟩ | ⟨b, old, hget, hold, hrw, hseq⟩⟩ :=
            delete_eq_ok (Prod.ext rfl hok)
          · rw [show step codec fs s (.delete coll id) = s from heq]
            exact .absent hcm hkey hnone
          · exact .removed hcm hkey hget hold hseq hrw

/-! ## What a rewrite leaves alone -/

section Rewrite

variable {s s' : Store} {cm : CollectionMeta} {coll key : Bytes} {old new : Option Msg}

theorem not_entry_of {b : Bytes} (h : ∀ m e, ¬ IsEntry cm key m b e) (o : Option Msg) (e : Bytes) :
    ¬ ∃ m ∈ o, IsEntry cm key m b e := by
  intro hm
  obtain ⟨m, _, he⟩ := hm
  exact h m e he

/-- Buckets that are neither the collection's data nor an index of its fields
are not touched. -/
theorem Rewrites.get_other (h : Rewrites s s' cm coll key old new) {b : Bytes}
    (hdata : b ≠ dataBucket coll) (hindex : ∀ f : Ident, b ≠ Index.bucket cm.name f.val)
    (e : Bytes) : s'.get b e = s.get b e := by
  have hno : ∀ m e, ¬ IsEntry cm key m b e := by
    intro m e he
    obtain ⟨field, _, fd, _, hfd, _, hb, _⟩ := he
    -- an indexed field is found by its name, which is an identifier
    rw [← (MessageDesc.byName_mem hfd).2] at hb
    exact hindex fd.name hb
  exact h.other _ _ (not_entry_of hno old e) (not_entry_of hno new e) fun hd => hdata hd.1.symm

theorem Rewrites.get_collections (h : Rewrites s s' cm coll key old new) (c : Bytes) :
    s'.get collectionsBucket c = s.get collectionsBucket c :=
  h.get_other (dataBucket_ne_collections coll).symm
    (fun f => (indexBucket_ne_collections cm.name f.val).symm) c

theorem Rewrites.get_data (h : Rewrites s s' cm coll key old new) {c k : Bytes}
    (hne : ¬ (coll = c ∧ key = k)) : s'.get (dataBucket c) k = s.get (dataBucket c) k := by
  have hno : ∀ m e, ¬ IsEntry cm key m (dataBucket c) e := fun m e he => he.bucket_ne_data c rfl
  exact h.other _ _ (not_entry_of hno old k) (not_entry_of hno new k)
    fun hd => hne ⟨dataBucket_inj hd.1, hd.2⟩

/-- A rewrite under a stored key brings no new key. -/
theorem Rewrites.stored_before (h : Rewrites s s' cm coll key old new) {before : Blob}
    (hbefore : s.get (dataBucket coll) key = some before) {c k : Bytes} {b : Blob}
    (hget : s'.get (dataBucket c) k = some b) : ∃ b, s.get (dataBucket c) k = some b := by
  by_cases hhere : coll = c ∧ key = k
  · obtain ⟨rfl, rfl⟩ := hhere
    exact ⟨before, hbefore⟩
  · rw [h.get_data hhere] at hget
    exact ⟨b, hget⟩

/-- The indexes of other collections are not touched. -/
theorem Rewrites.get_index (h : Rewrites s s' cm coll key old new) {c : Bytes} (hc : cm.name ≠ c)
    (f : Ident) (e : Bytes) : s'.get (Index.bucket c f.val) e = s.get (Index.bucket c f.val) e :=
  h.get_other (indexBucket_ne_dataBucket c f.val coll)
    (fun _ hb => hc (Index.bucket_inj hb).1.symm) e

end Rewrite

/-- The lookups after an accepted creation: one definition more. -/
theorem create_frame {s s' : Store} {name : Bytes} {v : Blob}
    (h : ∀ b e, s'.get b e = if collectionsBucket = b ∧ name = e then some v else s.get b e) :
    (∀ c, name ≠ c → s'.get collectionsBucket c = s.get collectionsBucket c) ∧
      (∀ c k, s'.get (dataBucket c) k = s.get (dataBucket c) k) ∧
      ∀ c f e, s'.get (Index.bucket c f) e = s.get (Index.bucket c f) e := by
  refine ⟨?_, ?_, ?_⟩
  · intro c hc
    rw [h, if_neg fun hh => hc hh.2]
  · intro c k
    rw [h, if_neg fun hh => dataBucket_ne_collections c hh.1.symm]
  · intro c f e
    rw [h, if_neg fun hh => indexBucket_ne_collections c f hh.1.symm]

/-- Definitions are read from one bucket. -/
theorem getMeta_congr {s s' : Store} {c : Bytes}
    (h : s'.get collectionsBucket c = s.get collectionsBucket c) : getMeta s' c = getMeta s c := by
  unfold getMeta
  rw [h]

/-! ## What a call keeps -/

/-- A collection keeps its definition. -/
theorem getMeta_step {codec : Codec} {fs : Files} {s : Store} {c : Bytes} {cm : CollectionMeta}
    (hcm : getMeta s c = .ok cm) (call : Call) : getMeta (step codec fs s call) c = .ok cm := by
  have heff := exec_effect codec fs s call
  generalize step codec fs s call = s' at heff
  generalize (exec codec fs s call).2 = res at heff
  cases heff with
  | failed | absent _ _ _ => exact hcm
  | created h =>
      rename_i name messageType opts cm'
      obtain ⟨_, _, _, _, _, hfree, hget, _⟩ := createCollection_eq_ok h
      have hne : name ≠ c := by
        rintro rfl
        obtain ⟨b, hb, _⟩ := getMeta_eq_ok_iff.mp hcm
        rw [hfree] at hb
        cases hb
      rw [getMeta_congr ((create_frame hget).1 c hne)]
      exact hcm
  | inserted _ _ _ _ _ h | replaced _ _ _ _ _ _ h | removed _ _ _ _ _ h =>
      rw [getMeta_congr (h.get_collections c)]
      exact hcm

theorem getMeta_run {codec : Codec} {fs : Files} {s : Store} {c : Bytes} {cm : CollectionMeta}
    (hcm : getMeta s c = .ok cm) (calls : List Call) :
    getMeta (run (step codec fs) s calls) c = .ok cm :=
  run_kept (P := fun s => getMeta s c = .ok cm) hcm fun _ call _ hs => getMeta_step hs call

/-- A document was there before the call, or is the one it inserted. -/
theorem stored_step {codec : Codec} {fs : Files} {s : Store} {call : Call} {c k : Bytes} {b : Blob}
    (hget : (step codec fs s call).get (dataBucket c) k = some b) :
    (∃ b, s.get (dataBucket c) k = some b) ∨
      ∃ json id cm msg s₁, call = .insert c json ∧ getMeta s c = .ok cm ∧
        Placed fs s s₁ cm msg k id ∧
        ∀ b, (step codec fs s call).sequence b = s₁.sequence b := by
  have heff := exec_effect codec fs s call
  generalize step codec fs s call = s' at heff hget ⊢
  generalize (exec codec fs s call).2 = res at heff
  cases heff with
  | failed | absent _ _ _ => exact .inl ⟨b, hget⟩
  | created h =>
      obtain ⟨_, _, _, _, _, _, hnew, _⟩ := createCollection_eq_ok h
      rw [(create_frame hnew).2.1] at hget
      exact .inl ⟨b, hget⟩
  | inserted hcm hmsg hplaced habsent hseq hrw =>
      rename_i coll json id key s₁ cm msg
      by_cases hhere : coll = c ∧ key = k
      · obtain ⟨rfl, rfl⟩ := hhere
        exact .inr ⟨json, id, cm, msg, s₁, rfl, hcm, hplaced, hseq⟩
      · rw [hrw.get_data hhere] at hget
        exact .inl ⟨b, hget⟩
  | replaced _ _ hbefore _ _ _ hrw | removed _ _ hbefore _ _ hrw =>
      exact .inl (hrw.stored_before hbefore hget)

/-! ## Document operations -/

/-- The collection a document operation names. -/
def Call.target : Call → Option Bytes
  | .createCollection _ _ _ => none
  | .insert coll _ => some coll
  | .update coll _ _ => some coll
  | .delete coll _ => some coll

/-- A document operation does nothing, or touches the data bucket of the
collection and the sequence and index buckets of the name in its definition. -/
theorem docCall_frame {codec : Codec} {fs : Files} {s : Store} {call : Call} {coll : Bytes}
    (hcall : call.target = some coll) :
    step codec fs s call = s ∨ ∃ cm, getMeta s coll = .ok cm ∧
      ∀ b, b ≠ dataBucket coll → b ≠ dataBucket cm.name →
        (∀ f : Ident, b ≠ Index.bucket cm.name f.val) →
        Storage.Store.SameBucket s (step codec fs s call) b := by
  have heff := exec_effect codec fs s call
  generalize step codec fs s call = s' at heff
  generalize (exec codec fs s call).2 = res at heff
  cases heff with
  | failed | absent _ _ _ => exact .inl rfl
  | created _ => cases hcall
  | inserted hcm hmsg hplaced habsent hseq hrw =>
      rename_i cm msg
      cases hcall
      refine .inr ⟨cm, hcm, fun b hdata hname hindex => ⟨hrw.get_other hdata hindex, ?_⟩⟩
      rw [hseq]
      cases hk : cm.keyKind with
      | auto =>
          obtain ⟨n, _, _, _, hnext⟩ := hplaced.auto hk
          rw [hnext, if_neg hname.symm]
      | field => rw [(hplaced.field hk).1]
  | replaced hcm _ _ _ _ hseq hrw =>
      cases hcall
      exact .inr ⟨_, hcm, fun b hdata _ hindex => ⟨hrw.get_other hdata hindex, hseq b⟩⟩
  | removed hcm _ _ _ hseq hrw =>
      cases hcall
      exact .inr ⟨_, hcm, fun b hdata _ hindex => ⟨hrw.get_other hdata hindex, hseq b⟩⟩

/-- The buckets of documents and index entries, by their names. -/
def isDocBucket (b : Bytes) : Bool :=
  (ascii "data:").isPrefixOf b || (ascii "idx:").isPrefixOf b

theorem isDocBucket_data (coll : Bytes) : isDocBucket (dataBucket coll) = true := by
  have hpre : (ascii "data:").isPrefixOf (dataBucket coll) = true :=
    List.isPrefixOf_iff_prefix.mpr (List.prefix_append _ _)
  unfold isDocBucket
  rw [hpre, Bool.true_or]

theorem isDocBucket_index (coll field : Bytes) : isDocBucket (Index.bucket coll field) = true := by
  have hpre : (ascii "idx:").isPrefixOf (Index.bucket coll field) = true :=
    List.isPrefixOf_iff_prefix.mpr (List.prefix_append _ _)
  unfold isDocBucket
  rw [hpre, Bool.or_true]

/-- A document operation touches no other buckets. -/
theorem docCall_sameBucket {codec : Codec} {fs : Files} {s : Store} {call : Call} {coll b : Bytes}
    (hcall : call.target = some coll) (hb : isDocBucket b = false) :
    Storage.Store.SameBucket s (step codec fs s call) b := by
  have hne : ∀ b', isDocBucket b' = true → b ≠ b' := by
    intro b' hb' heq
    rw [heq, hb'] at hb
    cases hb
  rcases @docCall_frame codec fs s call coll hcall with h | ⟨cm, _, h⟩
  · rw [h]
    exact .refl s b
  · exact h b (hne _ (isDocBucket_data _)) (hne _ (isDocBucket_data _))
      fun f => hne _ (isDocBucket_index _ _)

/-- Creating a collection touches the bucket of definitions only. -/
theorem createCall_sameBucket {codec : Codec} {fs : Files} {s : Store} {call : Call} {b : Bytes}
    (hcall : call.target = none) (hb : b ≠ collectionsBucket) :
    Storage.Store.SameBucket s (step codec fs s call) b := by
  have heff := exec_effect codec fs s call
  generalize step codec fs s call = s' at heff
  generalize (exec codec fs s call).2 = res at heff
  cases heff with
  | failed => exact .refl s b
  | created h =>
      obtain ⟨_, _, _, _, _, _, hget, hseq⟩ := createCollection_eq_ok h
      refine ⟨fun k => ?_, hseq b⟩
      rw [hget, if_neg fun hc => hb hc.1.symm]
  | inserted | replaced | absent | removed => cases hcall

end KoraDB.Engine
