import KoraDB.Engine.Database
import KoraDB.Engine.Lookup

/-!
# Indexes across evolution

An index entry is written under the descriptor of the day and looked up under
the active one. For a field that is set the two agree, since the check keeps
number and kind. For a field that is not set the value read is the declared
default, which the check does not look at: a new default moves the values of
old documents away from their entries.

`keepsDefaults` is the missing condition. With it, and with what documents
need to stay readable, indexes and data agree in every state of every run.
-/

namespace KoraDB.Engine

open KoraDB.Base KoraDB.Proto KoraDB.Catalog KoraDB.Schema

/-! ## The condition -/

/-- The fields indexed by some collection of a message type. -/
def indexedFields (s : Store) (messageType : Bytes) : List Bytes :=
  (s.scan collectionsBucket).flatMap fun e => match CollectionMeta.unmarshal e.2 with
    | some cm => if cm.messageType = messageType then cm.indexes else []
    | none => []

/-- The indexed fields of a message keep their defaults. -/
def sameDefaults (fields : List Bytes) (old new : MessageDesc) : Bool :=
  fields.all fun f => match old.byName f, new.byName f with
    | some fd, some fd' => decide (fd'.default = fd.default)
    | _, _ => true

/-- The condition on one replaced file. -/
def keepsDefaultsOf (fs : Files) (s : Store) (new : FileProto) : Bool :=
  (messagesOf new.symbols).all fun e => match fs.findMessage e.1 with
    | some md => sameDefaults (indexedFields s e.1) md e.2
    | none => true

/-- No registration changes the default of a field that is indexed. -/
def keepsDefaults (env : Env) (r : Registry) (call : RegisterCall) : Bool :=
  eachReplacement env r call fun _ new => keepsDefaultsOf r.files r.store new

/-- The condition of `indexes_in_step` on one call. -/
def IndexesKept (env : Env) (r : Registry) : DbCall → Prop
  | .register call => keepsNames env r call = true ∧ keepsRequired env r call = true ∧
      keepsDefaults env r call = true
  | .call call => call.NameValid
  | .reopen => Reopens env r

theorem IndexesKept.documents {env : Env} {r : Registry} {call : DbCall}
    (h : IndexesKept env r call) : DocumentsKept env r call := by
  cases call with
  | register call => exact ⟨h.1, h.2.1⟩
  | call call => trivial
  | reopen => exact h

theorem mem_indexedFields {s : Store} {c f : Bytes} {cm : CollectionMeta}
    (hcm : getMeta s c = .ok cm) (hf : f ∈ cm.indexes) : f ∈ indexedFields s cm.messageType := by
  obtain ⟨b, hb, hread⟩ := getMeta_eq_ok_iff.mp hcm
  refine List.mem_flatMap.mpr ⟨(c, b), Storage.Store.mem_scan.mpr hb, ?_⟩
  simp only [hread, if_true]
  exact hf

/-- What the condition says about one indexed field. -/
theorem default_kept {env : Env} {r : Registry} (hr : Consistent env r) {call : RegisterCall}
    (hk : keepsNames env r call = true) (hd : keepsDefaults env r call = true) {c f : Bytes}
    {cm : CollectionMeta} (hcm : getMeta r.store c = .ok cm) (hf : f ∈ cm.indexes)
    {md md' : MessageDesc} (hmd : r.files.findMessage cm.messageType = some md)
    (hmd' : (stepRegister env r call).files.findMessage cm.messageType = some md')
    {fd fd' : FieldDesc} (hfd : md.byName f = some fd) (hfd' : md'.byName f = some fd') :
    fd'.default = fd.default := by
  have hsame : ∀ {md' : MessageDesc}, some md = some md' → md'.byName f = some fd' →
      fd'.default = fd.default := by
    intro md' heq hfd'
    cases heq
    rw [hfd] at hfd'
    cases hfd'
    rfl
  unfold stepRegister at hmd'
  rcases register_cases env r call.name call.source call.createdUnix with
    ⟨e, he⟩ | ⟨r', version, collected, he, hacc⟩
  · rw [he] at hmd'
    exact hsame (hmd.symm.trans hmd') hfd'
  · rw [he] at hmd'
    rcases message_after hr hacc hk hmd with hstays | ⟨old, new, md'', hrep, hmem, hmd'', _⟩
    · exact hsame (hstays.symm.trans hmd') hfd'
    · -- the message is in a replaced file, where the condition compared it
      rw [show r'.files.findMessage cm.messageType = some md' from hmd'] at hmd''
      cases hmd''
      have hok := eachReplacement_spec hd hacc.closure hrep
      have hmsg := List.all_eq_true.mp hok (cm.messageType, md') (mem_messagesOf.mpr hmem)
      rw [hmd] at hmsg
      have hfield := List.all_eq_true.mp hmsg f (mem_indexedFields hcm hf)
      rw [hfd, hfd'] at hfield
      exact of_decide_eq_true hfield

/-! ## One registration -/

/-- The value of a kept field is the same under both descriptors. -/
theorem get_kept {md md' : MessageDesc} {w : Wire} {fd fd' : FieldDesc} (h : SameContract fd fd')
    (hd : fd'.default = fd.default) : Msg.get ⟨md', w⟩ fd' = Msg.get ⟨md, w⟩ fd := by
  show (w.last fd'.number fd'.kind).getD fd'.default = (w.last fd.number fd.kind).getD fd.default
  rw [h.number, h.kind, hd]

theorem sound_register {env : Env} {r : Registry} (hr : Consistent env r)
    (hs : Sound r.files r.store) {call : RegisterCall} (hk : keepsNames env r call = true)
    (hreq : keepsRequired env r call = true) :
    Sound (stepRegister env r call).files (stepRegister env r call).store := by
  obtain ⟨hcoll, hdata, hindex, _⟩ := @register_frame env r call
  refine ⟨typed_evolves (evolves_register hr hk) (noNewRequired_register hr hk hreq) hcoll hdata
    hs.toTyped, ?_, ?_⟩
  · intro c cm hcm
    rw [getMeta_congr (hcoll c)] at hcm
    exact hs.name c cm hcm
  · intro c hvac f e
    rw [hcoll] at hvac
    rw [hindex]
    exact hs.unindexed c hvac f e

theorem indexExact_register {env : Env} {r : Registry} (hr : Consistent env r)
    (hs : Sound r.files r.store) {call : RegisterCall} (hk : keepsNames env r call = true)
    (hreq : keepsRequired env r call = true) (hd : keepsDefaults env r call = true) {c f : Bytes}
    (hex : IndexExact r.files c f r.store) :
    IndexExact (stepRegister env r call).files c f (stepRegister env r call).store := by
  have hs' := sound_register hr hs hk hreq
  obtain ⟨hcoll, hdata, hindex, _⟩ := @register_frame env r call
  intro cm hcm' hf
  have hcm : getMeta r.store c = .ok cm := by
    rw [← getMeta_congr (hcoll c)]
    exact hcm'
  obtain ⟨md, hb⟩ := hs.bound hcm
  obtain ⟨md', hb', hkept⟩ := bound_evolves (evolves_register hr hk) hb
  obtain ⟨fd, hfd, _⟩ := hb.indexes f hf
  obtain ⟨fd', hfd', hsame⟩ := byName_kept hb'.message hkept hfd
  have hdef := default_kept hr hk hd hcm hf hb.message hb'.message hfd hfd'
  rw [indexExact_iff hs hcm hb hf hfd] at hex
  refine (indexExact_iff hs' hcm' hb' hf hfd').mpr ?_ cm hcm' hf
  intro e
  rw [hindex, hex e]
  -- the same documents, with the same values, encoded alike
  have hget : ∀ w, Msg.get ⟨md', w⟩ fd' = Msg.get ⟨md, w⟩ fd := fun w => get_kept hsame hdef
  simp only [StoredEntry, hdata, hget, Index.encodeValue_congr hsame.name hsame.kind]

theorem autoKeys_register {env : Env} {r : Registry} {n : Nat} (h : AutoKeys r.store n)
    (call : RegisterCall) : AutoKeys (stepRegister env r call).store n := by
  obtain ⟨hcoll, hdata, _, hseq⟩ := @register_frame env r call
  refine ⟨?_, fun b => by rw [hseq]; exact h.bound b⟩
  intro c cm hcm hauto k b hb
  rw [getMeta_congr (hcoll c)] at hcm
  rw [hdata] at hb
  rw [hseq]
  exact h.keys c cm hcm hauto k b hb

/-! ## Runs -/

/-- Data and index of one field in step: documents decode, the index holds
exactly their entries, and a lookup finds every document whose value compares
equal to the literal. -/
structure InStep (parseFloat : ParseFloat) (c f : Bytes) (r : Registry) : Prop where
  readable : AllReadable r
  exact : IndexExact r.files c f r.store
  lookup : ∀ cm value keys, getMeta r.store c = .ok cm → f ∈ cm.indexes →
    lookupByIndex parseFloat r.files r.store cm f value = .ok keys →
    ∀ k b msg fd lit, r.store.get (dataBucket c) k = some b → decode r.files cm b = .ok msg →
      msg.descriptor.byName f = some fd → scalarValueFromString parseFloat fd value = .ok lit →
      compareValues fd (msg.get fd) lit = .eq → k ∈ keys

/-- What a run carries along. -/
structure Indexed (env : Env) (c f : Bytes) (n : Nat) (r : Registry) : Prop where
  consistent : Consistent env r
  sound : Sound r.files r.store
  auto : AutoKeys r.store n
  exact : IndexExact r.files c f r.store

theorem Indexed.legible {env : Env} {c f : Bytes} {n : Nat} {r : Registry}
    (h : Indexed env c f n r) : Legible env r :=
  ⟨h.consistent, h.sound.toTyped⟩

theorem Indexed.inStep {env : Env} {c f : Bytes} {n : Nat} {r : Registry}
    (h : Indexed env c f n r) (parseFloat : ParseFloat) : InStep parseFloat c f r := by
  refine ⟨allReadable_of_typed h.sound.toTyped, h.exact, ?_⟩
  intro cm value keys hcm hf hl k b msg fd lit hb hdec hfd hlit heq
  rw [← h.sound.name c cm hcm] at hb
  exact mem_lookup (h.exact.covered h.sound cm hcm hf) hl hb hdec hfd hlit heq

theorem indexed_dbStep {env : Env} {codec : Codec} {c f : Bytes} {n : Nat} {r : Registry}
    (h : Indexed env c f n r) (hn : n + 1 < 2 ^ 64) {call : DbCall} (hc : IndexesKept env r call)
    (hnul : NulFree r.files c f r.store) : Indexed env c f (n + 1) (dbStep env codec r call) := by
  have hlegible : Legible env (dbStep env codec r call) := legible_dbStep h.legible hc.documents
  have hcons := hlegible.consistent
  have hauto : AutoKeys r.store (n + 1) :=
    ⟨h.auto.keys, fun b => Nat.le_succ_of_le (h.auto.bound b)⟩
  cases call with
  | register call =>
      obtain ⟨hk, hreq, hd⟩ := hc
      exact ⟨hcons, sound_register h.consistent h.sound hk hreq, autoKeys_register hauto call,
        indexExact_register h.consistent h.sound hk hreq hd h.exact⟩
  | call call =>
      exact ⟨hcons, sound_step h.sound hc, autoKeys_step h.sound h.auto hn,
        indexExact_step h.sound h.auto hn hc hnul h.exact⟩
  | reopen =>
      rw [dbStep_reopen hc]
      exact ⟨h.consistent, h.sound, hauto, h.exact⟩

theorem inStep_run {env : Env} {codec : Codec} {parseFloat : ParseFloat} {c f : Bytes}
    {calls : List DbCall} {r : Registry} {n : Nat} (h : Indexed env c f n r)
    (hlen : n + calls.length < 2 ^ 64) (hc : Each (dbStep env codec) (IndexesKept env) r calls)
    (hnul : Always (dbStep env codec) (fun r => NulFree r.files c f r.store) r calls) :
    Always (dbStep env codec) (InStep parseFloat c f) r calls := by
  induction calls generalizing r n with
  | nil => exact h.inStep parseFloat
  | cons call calls ih =>
      rw [List.length_cons] at hlen
      exact ⟨h.inStep parseFloat,
        ih (indexed_dbStep h (by omega) hc.1 hnul.1) (by omega) hc.2 hnul.2⟩

/-- **Indexes across evolution.** In a run whose registrations keep names,
required fields and the defaults of indexed fields, and that stores no NUL byte
in a string field indexed under string keys, data and index of every indexed
field are in step in every state. -/
theorem indexes_in_step (env : Env) (codec : Codec) (parseFloat : ParseFloat)
    (calls : List DbCall) (hlen : calls.length < 2 ^ 64)
    (hc : Each (dbStep env codec) (IndexesKept env) Registry.initial calls) (c f : Bytes)
    (hnul : Always (dbStep env codec) (fun r => NulFree r.files c f r.store) Registry.initial
      calls) :
    Always (dbStep env codec) (InStep parseFloat c f) Registry.initial calls := by
  refine inStep_run ⟨consistent_initial env, sound_empty _, autoKeys_empty, ?_⟩ (by omega) hc hnul
  intro cm hcm
  exact absurd hcm (getMeta_empty c cm)

/-! ## A new default -/

def tickets : CollectionMeta :=
  ⟨ascii "tickets", ascii "desk.Ticket", .field, ascii "id", [ascii "level"]⟩

/-- The level of a stored ticket. -/
def levelOf (r : Registry) (id : Bytes) : Option Scalar := do
  let b ← r.store.get (dataBucket (ascii "tickets")) id
  let msg ← (decode r.files tickets b).toOption
  let fd ← msg.descriptor.byName (ascii "level")
  return msg.get fd

/-- The tickets an index lookup finds at a level. -/
def ticketsAt (r : Registry) (level : Bytes) : Except EngineErr (List Bytes) :=
  lookupByIndex noFloat r.files r.store tickets (ascii "level") level

/-- Adding a field keeps the levels and their index in step. -/
theorem indexes_in_step_desk :
    Always (dbStep deskEnv deskCodec) (InStep noFloat (ascii "tickets") (ascii "level"))
        Registry.initial (deskCalls ++ [registerTicket ticketNote]) ∧
      ticketsAt (deskRun [registerTicket ticketNote]) (ascii "1") = .ok [ascii "t1"] := by
  refine ⟨indexes_in_step deskEnv deskCodec noFloat _ (by decide) ?_ _ _ ?_, by decide +kernel⟩
  · refine ⟨?_, ?_, trivial, trivial, ?_, trivial⟩
    · show keepsNames _ _ _ = true ∧ keepsRequired _ _ _ = true ∧ keepsDefaults _ _ _ = true
      decide +kernel
    · show validString (ascii "tickets") = true
      decide
    · show keepsNames _ _ _ = true ∧ keepsRequired _ _ _ = true ∧ keepsDefaults _ _ _ = true
      decide +kernel
  · have hchecks : Always (dbStep deskEnv deskCodec)
        (fun r => nulFree r.files (ascii "tickets") (ascii "level") r.store = true)
        Registry.initial (deskCalls ++ [registerTicket ticketNote]) := by
      decide +kernel
    exact hchecks.imp fun r hr => nulFree_of_check hr

/-- The registration that changes the default of `level` is accepted as
version 2. The ticket without a level now reads as one of level 5, but its
entry is still the one of level 1, so a lookup of level 5 misses it. -/
theorem default_change_leaves_entries_behind :
    (register deskEnv (deskRun []) (ascii "ticket.proto") ticketLevel 0).2 = .ok 2 ∧
      levelOf (deskRun []) (ascii "t1") = some (.int 1) ∧
      levelOf (deskRun [registerTicket ticketLevel]) (ascii "t1") = some (.int 5) ∧
      ticketsAt (deskRun [registerTicket ticketLevel]) (ascii "5") = .ok [ascii "t2"] ∧
      ticketsAt (deskRun [registerTicket ticketLevel]) (ascii "1") = .ok [ascii "t1"] := by
  decide +kernel

end KoraDB.Engine
