import KoraDB.Engine.Ids
import KoraDB.Engine.Invariant

/-!
# What a reached database has let in

Everything in a database passed a check when it came in: a collection has a
name that is valid UTF-8, since the calls use such names, a key is not empty,
since bbolt refuses it, and a document was read by `protojson` under the type
of its collection. `Admitted` says so of a whole database, and every call keeps
it.
-/

namespace KoraDB.Engine

open KoraDB.Base KoraDB.Proto KoraDB.Catalog KoraDB.Schema

/-- Every document was read under the type of its collection. -/
def Parsed (codec : Codec) (fs : Files) (s : Store) : Prop :=
  ∀ c k b, s.get (dataBucket c) k = some b →
    ∃ cm json msg, getMeta s c = .ok cm ∧ parse codec fs cm json = .ok msg ∧
      b = .document msg.recs

structure Admitted (codec : Codec) (fs : Files) (s : Store) : Prop where
  name : ∀ c cm, getMeta s c = .ok cm → validString c = true
  key : ∀ c, s.get (dataBucket c) [] = none
  document : Parsed codec fs s

variable {codec : Codec} {fs : Files} {s s' : Store}

theorem Admitted.key_ne_nil (hs : Admitted codec fs s) {c k : Bytes} {b : Blob}
    (hget : s.get (dataBucket c) k = some b) : k ≠ [] := by
  rintro rfl
  rw [hs.key c] at hget
  cases hget

theorem admitted_empty (codec : Codec) (fs : Files) : Admitted codec fs .empty := by
  refine ⟨?_, ?_, ?_⟩
  · intro c cm hcm
    exact absurd hcm (getMeta_empty c cm)
  · intro c
    exact Storage.Store.get_empty _ _
  · intro c k b hget
    rw [Storage.Store.get_empty] at hget
    cases hget

/-! ## One call -/

/-- An accepted insert writes under a key that bbolt accepts, not the empty one. -/
theorem insert_get_nil {coll json id c : Bytes}
    (h : insert codec fs s coll json = (s', .ok id)) :
    s'.get (dataBucket c) [] = s.get (dataBucket c) [] := by
  have h := Storage.Store.update_ok_iff.mp h
  simp only [insertTx, bind_eq_ok_iff, Prod.exists, wrap_eq_ok_iff, pure, Except.pure,
    Except.ok.injEq, Prod.mk.injEq] at h
  obtain ⟨cm, _, msg, _, s₁, key, _, hderive, _, _, wire, _, s₂, hput, s₃, hidx, rfl, _⟩ := h
  have hne : key ≠ [] := (Storage.Store.put_eq_ok_iff.mp hput).2.1
  obtain ⟨_, hout, _⟩ := indexInsert_spec hidx
  rw [hout _ _ fun he => he.bucket_ne_data c rfl, Storage.Store.get_put hput,
    if_neg fun hd => hne hd.2, (deriveKey_eq_ok hderive).get_eq]

/-- No call stores a document under the empty key. -/
theorem key_step (hs : ∀ c, s.get (dataBucket c) [] = none) (call : Call) (c : Bytes) :
    (step codec fs s call).get (dataBucket c) [] = none := by
  cases hget : (step codec fs s call).get (dataBucket c) [] with
  | none => rfl
  | some b =>
      exfalso
      rcases stored_step hget with ⟨b', hb'⟩ | ⟨json, _, _, _, _, rfl, _⟩
      · rw [hs c] at hb'
        cases hb'
      · cases hres : (insert codec fs s c json).2 with
        | error e =>
            have hsame : step codec fs s (.insert c json) = s := Storage.Store.update_error hres
            rw [hsame, hs c] at hget
            cases hget
        | ok id =>
            have hkept : (step codec fs s (.insert c json)).get (dataBucket c) [] = _ :=
              insert_get_nil (Prod.ext rfl hres)
            rw [hkept, hs c] at hget
            cases hget

theorem name_step (hs : Admitted codec fs s) {call : Call} (hname : call.NameValid) {c : Bytes}
    {cm : CollectionMeta} (hcm : getMeta (step codec fs s call) c = .ok cm) :
    validString c = true := by
  have heff := exec_effect codec fs s call
  generalize step codec fs s call = s' at heff hcm
  generalize (exec codec fs s call).2 = res at heff
  cases heff with
  | failed | absent _ _ _ => exact hs.name c cm hcm
  | created h =>
      rename_i name messageType opts cm'
      obtain ⟨_, _, _, _, _, _, hget, _⟩ := createCollection_eq_ok h
      by_cases hc : name = c
      · rw [← hc]
        exact hname
      · rw [getMeta_congr ((create_frame hget).1 c hc)] at hcm
        exact hs.name c cm hcm
  | inserted _ _ _ _ _ h | replaced _ _ _ _ _ _ h | removed _ _ _ _ _ h =>
      rw [getMeta_congr (h.get_collections c)] at hcm
      exact hs.name c cm hcm

/-- A document after a rewrite was there before it, or is the new one. -/
theorem Rewrites.document_of_get {cm : CollectionMeta} {coll key c k : Bytes}
    {old new : Option Msg} {b : Blob} (h : Rewrites s s' cm coll key old new)
    (hget : s'.get (dataBucket c) k = some b) :
    s.get (dataBucket c) k = some b ∨ (coll = c ∧ key = k) ∧ ∃ m ∈ new, b = .document m.recs := by
  by_cases hhere : coll = c ∧ key = k
  · obtain ⟨rfl, rfl⟩ := hhere
    rw [h.doc] at hget
    obtain ⟨m, hm, hb⟩ := Option.map_eq_some_iff.mp hget
    exact .inr ⟨⟨rfl, rfl⟩, m, hm, hb.symm⟩
  · rw [h.get_data hhere] at hget
    exact .inl hget

/-- A document after a call was there before it, or the call read it: an insert
under the key of the id it returns, or an update of what was there. -/
theorem written_step {call : Call} {c k : Bytes} {b : Blob}
    (hget : (step codec fs s call).get (dataBucket c) k = some b) :
    s.get (dataBucket c) k = some b ∨
      ∃ cm json msg, getMeta s c = .ok cm ∧ parse codec fs cm json = .ok msg ∧
        b = .document msg.recs ∧
        ((call = .insert c json ∧ ∃ id, (exec codec fs s call).2 = .ok id ∧
            encodeKey fs cm id = .ok k) ∨
          ∃ id old, call = .update c id json ∧ s.get (dataBucket c) k = some old) := by
  have heff := exec_effect codec fs s call
  generalize step codec fs s call = s' at heff hget
  generalize (exec codec fs s call).2 = res at heff
  cases heff with
  | failed | absent _ _ _ => exact .inl hget
  | created h =>
      obtain ⟨_, _, _, _, _, _, hnew, _⟩ := createCollection_eq_ok h
      rw [(create_frame hnew).2.1] at hget
      exact .inl hget
  | inserted hcm hmsg hplaced _ _ hrw =>
      rcases hrw.document_of_get hget with hbefore | ⟨⟨rfl, rfl⟩, m, hm, hb⟩
      · exact .inl hbefore
      · cases hm
        exact .inr ⟨_, _, _, hcm, hmsg, hb, .inl ⟨rfl, _, rfl, hplaced.encodeKey_eq⟩⟩
  | replaced hcm _ hold _ hmsg _ hrw =>
      rcases hrw.document_of_get hget with hbefore | ⟨⟨rfl, rfl⟩, m, hm, hb⟩
      · exact .inl hbefore
      · cases hm
        exact .inr ⟨_, _, _, hcm, hmsg, hb, .inr ⟨_, _, rfl, hold⟩⟩
  | removed _ _ _ _ _ hrw =>
      rcases hrw.document_of_get hget with hbefore | ⟨_, m, hm, _⟩
      · exact .inl hbefore
      · cases hm

theorem parsed_step (hs : Parsed codec fs s) (call : Call) :
    Parsed codec fs (step codec fs s call) := by
  intro c k b hget
  rcases written_step hget with hbefore | ⟨cm, json, msg, hcm, hmsg, hb, _⟩
  · obtain ⟨cm, json, msg, hcm, hmsg, hb⟩ := hs c k b hbefore
    exact ⟨cm, json, msg, getMeta_step hcm call, hmsg, hb⟩
  · exact ⟨cm, json, msg, getMeta_step hcm call, hmsg, hb⟩

theorem admitted_step (hs : Admitted codec fs s) {call : Call} (hname : call.NameValid) :
    Admitted codec fs (step codec fs s call) :=
  ⟨fun _ _ hcm => name_step hs hname hcm, key_step hs.key call, parsed_step hs.document call⟩

/-! ## Ids -/

/-- Each key of a collection reads as an id. -/
theorem idFromStorageKey_of_keyOk {cm : CollectionMeta} {md : MessageDesc} {k : Bytes}
    (hb : Bound fs cm md) (hk : KeyOk md cm k) : ∃ id, idFromStorageKey fs cm k = .ok id := by
  obtain ⟨kind, v, hkind, hv, rfl⟩ := hk
  exact ⟨v.text, idFromStorageKey_storageKey ((keyKindIn_eq hb.message).trans hkind) hv⟩

/-! ## Texts -/

/-- `protojson` can write every document it has read. -/
def Codec.Renders (codec : Codec) : Prop :=
  ∀ fs md json w, codec.unmarshal fs md json = .ok w → ∃ text, codec.marshal fs ⟨md, w⟩ = .ok text

/-- Then it can write every stored document. -/
theorem Parsed.renders (hs : Parsed codec fs s) (hrender : codec.Renders) {c k : Bytes}
    {cm : CollectionMeta} {b : Blob} {msg : Msg} (hcm : getMeta s c = .ok cm)
    (hget : s.get (dataBucket c) k = some b) (hdec : decode fs cm b = .ok msg) :
    ∃ text, renderMessage codec fs msg = .ok text := by
  obtain ⟨cm', json, msg', hcm', hparse, rfl⟩ := hs c k b hget
  rw [hcm] at hcm'
  cases hcm'
  simp only [parse, bind_eq_ok_iff, wrap_eq_ok_iff, messageDescriptor_eq_ok_iff, pure, Except.pure,
    Except.ok.injEq] at hparse
  obtain ⟨md, hmd, w, hw, rfl⟩ := hparse
  obtain ⟨text, htext⟩ := hrender fs md json w hw
  -- reading the stored document gives back the message that was parsed
  obtain ⟨w', hw', _, rfl⟩ := (decode_eq_ok_iff hmd).mp hdec
  cases hw'
  exact ⟨text, by rw [renderMessage, htext, wrap_ok]⟩

theorem tableCodec_renders (table : List (Bytes × Wire)) : (tableCodec table).Renders := by
  intro fs md json w h
  simp only [tableCodec] at h ⊢
  cases hread : table.find? fun e => e.1 == json with
  | none =>
      rw [hread] at h
      cases h
  | some e =>
      rw [hread] at h
      have hw : e.2 = w := by
        by_cases hok : (initialized fs md e.2 && fits fs md e.2) = true
        · simp only [if_pos hok] at h
          cases h
          rfl
        · simp only [if_neg hok] at h
          cases h
      cases hfind : table.find? fun e => e.2 == w with
      | none =>
          have hno := List.find?_eq_none.mp hfind e (List.mem_of_find?_eq_some hread)
          rw [hw] at hno
          exact absurd (beq_self_eq_true w) hno
      | some e' => exact ⟨e'.1, rfl⟩

/-! ## Whole runs -/

theorem admitted_run (codec : Codec) (fs : Files) {calls : List Call}
    (hnames : ∀ call ∈ calls, call.NameValid) :
    Admitted codec fs (run (step codec fs) .empty calls) := by
  apply run_kept (admitted_empty codec fs)
  intro s call hcall hs
  exact admitted_step hs (hnames call hcall)

end KoraDB.Engine
