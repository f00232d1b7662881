import KoraDB.Engine.Invariant
import KoraDB.Schema.Evolution

/-!
# The database: registry and engine over one store

`engine.DB` is a store and the registry opened over it. Its calls register
schemas, work on collections, or close and open the file again. Collections
and documents are written under the descriptors of their time and read under
the active ones, so whether they stay readable is a question about whole
histories of both.

`names_stable` and `documents_readable` answer it: what has to hold of each
registration, and what then holds in every state. Each is followed by a
history that breaks its condition.
-/

namespace KoraDB.Engine

open KoraDB.Base KoraDB.Proto KoraDB.Catalog KoraDB.Schema

/-! ## The machine -/

inductive DbCall
  | register (call : RegisterCall)
  | call (call : Call)
  | reopen

/-- One call. A file that does not open again is left as it is. -/
def dbStep (env : Env) (codec : Codec) (r : Registry) : DbCall → Registry
  | .register call => stepRegister env r call
  | .call call => { r with store := step codec r.files r.store call }
  | .reopen => match newRegistry env r.store with
    | .ok r' => r'
    | .error _ => r

/-- The catalog of schemas is not among the buckets of the engine. -/
theorem step_schemaBucket {codec : Codec} {fs : Files} {s : Store} (call : Call) (k : Bytes) :
    (step codec fs s call).get schemaBucket k = s.get schemaBucket k := by
  cases htarget : call.target with
  | none => exact (createCall_sameBucket htarget (by decide)).entries k
  | some coll => exact (docCall_sameBucket htarget (by decide)).entries k

/-- The buckets of the engine are not among those of the registry. -/
theorem register_frame {env : Env} {r : Registry} (call : RegisterCall) :
    (∀ c, (stepRegister env r call).store.get collectionsBucket c =
        r.store.get collectionsBucket c) ∧
      (∀ c k, (stepRegister env r call).store.get (dataBucket c) k =
        r.store.get (dataBucket c) k) ∧
      (∀ c f e, (stepRegister env r call).store.get (Index.bucket c f) e =
        r.store.get (Index.bucket c f) e) ∧
      ∀ b, (stepRegister env r call).store.sequence b = r.store.sequence b := by
  unfold stepRegister
  rcases register_cases env r call.name call.source call.createdUnix with
    ⟨e, he⟩ | ⟨r', version, collected, he, hacc⟩
  · rw [he]
    exact ⟨fun _ => rfl, fun _ _ => rfl, fun _ _ _ => rfl, fun _ => rfl⟩
  · rw [he]
    obtain ⟨hget, hseq⟩ := persist_frame hacc.store
    refine ⟨?_, ?_, ?_, hseq⟩
    · intro c
      exact hget _ _ (by decide) (by decide)
    · intro c k
      have hhead : (dataBucket c).head? = some 0x64 := rfl
      refine hget _ _ ?_ ?_ <;> intro h <;> rw [h] at hhead <;> exact absurd hhead (by decide)
    · intro c f e
      have hhead : (Index.bucket c f).head? = some 0x69 := by
        simp [Index.bucket, ascii]
      refine hget _ _ ?_ ?_ <;> intro h <;> rw [h] at hhead <;> exact absurd hhead (by decide)

/-! ## Collections across an evolution -/

section Evolution

variable {fs fs' : Files} {cm : CollectionMeta} {md : MessageDesc}

/-- A field is found again under its name. -/
theorem byName_kept {n : Bytes} {md' : MessageDesc} (hmd' : fs'.findMessage n = some md')
    (hkept : FieldsKept md md') {f : Bytes} {fd : FieldDesc} (h : md.byName f = some fd) :
    ∃ fd', md'.byName f = some fd' ∧ SameContract fd fd' := by
  obtain ⟨hmem, rfl⟩ := MessageDesc.byName_mem h
  obtain ⟨fd', hfd', hsame⟩ := hkept fd hmem
  refine ⟨fd', ?_, hsame⟩
  rw [← hsame.name]
  exact Files.byName_eq_some hmd' (MessageDesc.byNumber_mem hfd').1

/-- A definition stays bound, to the new version of its message. -/
theorem bound_evolves (he : Evolves fs fs') (hb : Bound fs cm md) :
    ∃ md', Bound fs' cm md' ∧ FieldsKept md md' := by
  obtain ⟨md', hmd', hkept⟩ := he _ md hb.message
  refine ⟨md', ⟨hmd', ?_, ?_⟩, hkept⟩
  · intro hk
    obtain ⟨kfd, hkfd, hlist, hmap, hsup⟩ := hb.key hk
    obtain ⟨kfd', hkfd', hsame⟩ := byName_kept hmd' hkept hkfd
    refine ⟨kfd', hkfd', ?_, ?_, ?_⟩
    · unfold FieldDesc.isList at hlist ⊢
      rw [hsame.cardinality, hsame.isMap]
      exact hlist
    · rw [hsame.isMap]
      exact hmap
    · rw [hsame.kind]
      exact hsup
  · intro f hf
    obtain ⟨fd, hfd, hind⟩ := hb.indexes f hf
    obtain ⟨fd', hfd', hsame⟩ := byName_kept hmd' hkept hfd
    refine ⟨fd', hfd', ?_⟩
    rw [Index.indexable_congr hsame.name hsame.kind hsame.cardinality hsame.isMap]
    exact hind

theorem bindings_evolves (he : Evolves fs fs') {s s' : Store}
    (hcoll : ∀ c, s'.get collectionsBucket c = s.get collectionsBucket c) (hs : Bindings fs s) :
    Bindings fs' s' := by
  intro c b hb
  rw [hcoll] at hb
  obtain ⟨cm, md, hcm, hbound⟩ := hs c b hb
  obtain ⟨md', hbound', _⟩ := bound_evolves he hbound
  exact ⟨cm, md', hcm, hbound'⟩

theorem keyKindOf_kept {md' : MessageDesc} (hb' : Bound fs' cm md') (hkept : FieldsKept md md')
    {kind : Kind} (h : keyKindOf md cm = some kind) : keyKindOf md' cm = some kind := by
  unfold keyKindOf at h ⊢
  cases hk : cm.keyKind with
  | auto =>
      rw [hk] at h
      exact h
  | field =>
      rw [hk] at h
      obtain ⟨kfd, hkfd, rfl⟩ := Option.map_eq_some_iff.mp h
      obtain ⟨kfd', hkfd', hsame⟩ := byName_kept hb'.message hkept hkfd
      exact Option.map_eq_some_iff.mpr ⟨kfd', hkfd', hsame.kind⟩

theorem docOk_evolves (he : Evolves fs fs') (hreq : NoNewRequired fs fs') (hb : Bound fs cm md)
    {md' : MessageDesc} (hb' : Bound fs' cm md') (hkept : FieldsKept md md') {b : Blob}
    (h : DocOk fs md b) : DocOk fs' md' b := by
  obtain ⟨w, rfl, hinit, hfits⟩ := h
  exact ⟨w, rfl, initialized_evolves he hreq hb.message hb'.message hkept hfits hinit,
    fits_evolves he hkept hfits⟩

theorem typed_evolves (he : Evolves fs fs') (hreq : NoNewRequired fs fs') {s s' : Store}
    (hcoll : ∀ c, s'.get collectionsBucket c = s.get collectionsBucket c)
    (hdata : ∀ c k, s'.get (dataBucket c) k = s.get (dataBucket c) k) (hs : Typed fs s) :
    Typed fs' s' := by
  refine ⟨bindings_evolves he hcoll hs.bindings, ?_, ?_⟩
  · intro c cm md₁ hcm hb₁ k b hb
    rw [getMeta_congr (hcoll c)] at hcm
    rw [hdata] at hb
    obtain ⟨md, hbound⟩ := hs.bound hcm
    obtain ⟨md', hbound', hkept⟩ := bound_evolves he hbound
    cases hbound'.unique hb₁
    obtain ⟨hdoc, kind, v, hkind, hv, hk⟩ := hs.docs c cm md hcm hbound k b hb
    exact ⟨docOk_evolves he hreq hbound hbound' hkept hdoc, kind, v,
      keyKindOf_kept hbound' hkept hkind, hv, hk⟩
  · intro c hvac k
    rw [hcoll] at hvac
    rw [hdata]
    exact hs.vacant c hvac k

end Evolution

/-! ## Names -/

/-- The condition of `names_stable` on one call. -/
def NamesKept (env : Env) (r : Registry) : DbCall → Prop
  | .register call => keepsNames env r call = true
  | .call _ => True
  | .reopen => Reopens env r

/-- The registry is in order and every collection is bound. -/
structure Resolvable (env : Env) (r : Registry) : Prop where
  consistent : Consistent env r
  bindings : Bindings r.files r.store

theorem resolvable_initial (env : Env) : Resolvable env Registry.initial :=
  ⟨consistent_initial env, (sound_empty _).bindings⟩

theorem consistent_call {env : Env} {codec : Codec} {r : Registry} (hr : Resolvable env r)
    (call : Call) : Consistent env { r with store := step codec r.files r.store call } := by
  refine ⟨?_, hr.consistent.keyed, hr.consistent.built⟩
  intro k b hb
  have hb : (step codec r.files r.store call).get schemaBucket k = some b := hb
  rw [step_schemaBucket call] at hb
  exact hr.consistent.readable k b hb

/-- A registry that reopens as itself is not changed by reopening. -/
theorem dbStep_reopen {env : Env} {codec : Codec} {r : Registry} (h : Reopens env r) :
    dbStep env codec r .reopen = r := by
  unfold dbStep
  rw [show newRegistry env r.store = .ok r from h]

theorem evolves_dbStep {env : Env} {codec : Codec} {r : Registry} (hr : Resolvable env r)
    {call : DbCall} (hc : NamesKept env r call) :
    Evolves r.files (dbStep env codec r call).files := by
  cases call with
  | register call => exact evolves_register hr.consistent hc
  | call call => exact Evolves.refl r.files
  | reopen =>
      rw [dbStep_reopen hc]
      exact Evolves.refl r.files

theorem resolvable_dbStep {env : Env} {codec : Codec} {r : Registry} (hr : Resolvable env r)
    {call : DbCall} (hc : NamesKept env r call) : Resolvable env (dbStep env codec r call) := by
  cases call with
  | register call =>
      refine ⟨consistent_step hr.consistent call, ?_⟩
      exact bindings_evolves (evolves_register hr.consistent hc) (register_frame call).1 hr.bindings
  | call call => exact ⟨consistent_call hr call, bindings_step hr.bindings call⟩
  | reopen =>
      rw [dbStep_reopen hc]
      exact hr

/-- **Names are stable.** In a run whose registrations keep the package of
every replaced file and pass the check for all of them, and whose restarts
find what was active, every step is an evolution of the descriptors, and in
every state every collection's message type, key field and indexes resolve. -/
theorem names_stable (env : Env) (codec : Codec) (calls : List DbCall)
    (h : Each (dbStep env codec) (NamesKept env) Registry.initial calls) :
    Each (dbStep env codec) (fun r call => Evolves r.files (dbStep env codec r call).files)
        Registry.initial calls ∧
      Always (dbStep env codec) (fun r => Bindings r.files r.store) Registry.initial calls := by
  have hstep : ∀ r call, Resolvable env r → NamesKept env r call →
      Resolvable env (dbStep env codec r call) := fun r call hr hc => resolvable_dbStep hr hc
  have hall : Always (dbStep env codec) (Resolvable env) Registry.initial calls :=
    always_of_each hstep (resolvable_initial env) h
  exact ⟨hall.each h fun r call hr hc => evolves_dbStep hr hc,
    hall.imp fun r hr => hr.bindings⟩

/-! ## A schema and its versions -/

/-- A ticket of a package, with what follows the number of its level. -/
def ticketSource (pkg rest : Bytes) : Bytes :=
  ascii "syntax = \"proto2\"; package " ++ pkg ++
    ascii "; message Ticket \x7b required string id = 1; optional int32 level = 2 " ++ rest ++
    ascii " \x7d"

def ticket1 : Bytes := ticketSource (ascii "desk") (ascii "[default = 1];")

/-- A field that may be left out is added. -/
def ticketNote : Bytes :=
  ticketSource (ascii "desk") (ascii "[default = 1]; optional string note = 3;")

/-- The package is renamed. -/
def ticketMoved : Bytes := ticketSource (ascii "help") (ascii "[default = 1];")

/-- A field that may not be left out is added. -/
def ticketTeam : Bytes :=
  ticketSource (ascii "desk") (ascii "[default = 1]; required string team = 3;")

/-- The default of the level is changed. -/
def ticketLevel : Bytes := ticketSource (ascii "desk") (ascii "[default = 5];")

/-- The five sources, parsed. -/
def deskParse (path text : Bytes) : Option FileProto :=
  let desk : Ident := ⟨ascii "desk", by decide⟩
  let help : Ident := ⟨ascii "help", by decide⟩
  let id := proto2Field ⟨ascii "id", by decide⟩ 1 .string .required (.str []) rfl
  let level := proto2Field ⟨ascii "level", by decide⟩ 2 .int32 .optional (.int 1) (by decide)
  let level5 := proto2Field ⟨ascii "level", by decide⟩ 2 .int32 .optional (.int 5) (by decide)
  let note := proto2Field ⟨ascii "note", by decide⟩ 3 .string .optional (.str []) rfl
  let team := proto2Field ⟨ascii "team", by decide⟩ 3 .string .required (.str []) rfl
  let file (pkg : Ident) (fields : List FieldDesc) : FileProto :=
    ⟨path, [pkg], [], [.mk ⟨ascii "Ticket", by decide⟩ fields [] []], []⟩
  if text = ticket1 then some (file desk [id, level])
  else if text = ticketNote then some (file desk [id, level, note])
  else if text = ticketMoved then some (file help [id, level])
  else if text = ticketTeam then some (file desk [id, level, team])
  else if text = ticketLevel then some (file desk [id, level5])
  else none

def deskEnv : Env := tableEnv deskParse

def textT1 : Bytes := ascii "\x7b\"id\":\"t1\"\x7d"
def textT2 : Bytes := ascii "\x7b\"id\":\"t2\",\"level\":5\x7d"

def deskCodec : Codec := tableCodec
  [(textT1, .scalar 1 .string (.str (ascii "t1")) .nil),
    (textT2, .scalar 1 .string (.str (ascii "t2")) (.scalar 2 .int32 (.int 5) .nil))]

def registerTicket (source : Bytes) : DbCall :=
  .register ⟨ascii "ticket.proto", source, 0⟩

/-- Tickets by id, indexed by level, with two of them. -/
def deskCalls : List DbCall :=
  [registerTicket ticket1,
    .call (.createCollection (ascii "tickets") (ascii "desk.Ticket") ⟨ascii "id", [ascii "level"]⟩),
    .call (.insert (ascii "tickets") textT1), .call (.insert (ascii "tickets") textT2)]

def deskRun (calls : List DbCall) : Registry :=
  run (dbStep deskEnv deskCodec) Registry.initial (deskCalls ++ calls)

/-- Adding an optional field meets the condition. -/
theorem names_stable_desk :
    Always (dbStep deskEnv deskCodec) (fun r => Bindings r.files r.store) Registry.initial
        (.reopen :: deskCalls ++ [registerTicket ticketNote]) ∧
      ((deskRun [registerTicket ticketNote]).files.findMessage (ascii "desk.Ticket")).map
        (fun md => md.fields.length) = some 3 := by
  refine ⟨(names_stable deskEnv deskCodec _ ?_).2, by decide +kernel⟩
  refine ⟨rfl, ?_, trivial, trivial, trivial, ?_, trivial⟩
  all_goals
    show keepsNames _ _ _ = true
    decide +kernel

/-- The registration that renames the package is accepted as version 2. The
name `desk.Ticket` is gone with it, and the collection no longer resolves. -/
theorem package_change_loses_names :
    (register deskEnv (deskRun []) (ascii "ticket.proto") ticketMoved 0).2 = .ok 2 ∧
      ((deskRun []).files.findMessage (ascii "desk.Ticket")).isSome = true ∧
      ((deskRun [registerTicket ticketMoved]).files.findMessage
        (ascii "desk.Ticket")).isSome = false ∧
      ¬ Bindings (deskRun [registerTicket ticketMoved]).files
        (deskRun [registerTicket ticketMoved]).store := by
  have hgone : ((deskRun [registerTicket ticketMoved]).files.findMessage
      (ascii "desk.Ticket")).isSome = false := by decide +kernel
  refine ⟨by decide +kernel, by decide +kernel, hgone, ?_⟩
  intro hs
  have hcm : getMeta (deskRun [registerTicket ticketMoved]).store (ascii "tickets") =
      .ok ⟨ascii "tickets", ascii "desk.Ticket", .field, ascii "id", [ascii "level"]⟩ := by
    decide +kernel
  obtain ⟨md, hb⟩ := hs.bound hcm
  have hmd : (deskRun [registerTicket ticketMoved]).files.findMessage (ascii "desk.Ticket") =
      some md := hb.message
  rw [hmd] at hgone
  cases hgone

/-! ## Documents -/

/-- The condition of `documents_readable` on one call. -/
def DocumentsKept (env : Env) (r : Registry) : DbCall → Prop
  | .register call => keepsNames env r call = true ∧ keepsRequired env r call = true
  | .call _ => True
  | .reopen => Reopens env r

theorem DocumentsKept.names {env : Env} {r : Registry} {call : DbCall}
    (h : DocumentsKept env r call) : NamesKept env r call := by
  cases call with
  | register call => exact h.1
  | call call => trivial
  | reopen => exact h

/-- The registry is in order and every document is one of its collection's
type. -/
structure Legible (env : Env) (r : Registry) : Prop where
  consistent : Consistent env r
  typed : Typed r.files r.store

theorem Legible.resolvable {env : Env} {r : Registry} (hr : Legible env r) : Resolvable env r :=
  ⟨hr.consistent, hr.typed.bindings⟩

/-- What decodes in `r` decodes in `r'`, to a message with the same set
fields. -/
def StillReadable (r r' : Registry) : Prop :=
  ∀ c cm k b msg, getMeta r.store c = .ok cm → r.store.get (dataBucket c) k = some b →
    decode r.files cm b = .ok msg →
    ∃ msg', decode r'.files cm b = .ok msg' ∧
      known r'.files msg'.descriptor msg'.recs = known r.files msg.descriptor msg.recs ∧
      ∀ fd ∈ msg.descriptor.fields, ∀ v, msg.recs.last fd.number fd.kind = some v →
        ∃ fd', msg'.descriptor.byName fd.name.val = some fd' ∧ msg'.get fd' = v

/-- Every stored document decodes. -/
def AllReadable (r : Registry) : Prop :=
  ∀ c cm k b, getMeta r.store c = .ok cm → r.store.get (dataBucket c) k = some b →
    ∃ msg, decode r.files cm b = .ok msg

theorem allReadable_of_typed {r : Registry} (hs : Typed r.files r.store) : AllReadable r := by
  intro c cm k b hcm hb
  obtain ⟨md, hbound⟩ := hs.bound hcm
  obtain ⟨⟨w, rfl, hinit, _⟩, _⟩ := hs.docs c cm md hcm hbound k b hb
  exact ⟨⟨md, w⟩, (decode_eq_ok_iff hbound.message).mpr ⟨w, rfl, hinit, rfl⟩⟩

theorem stillReadable_evolves {r r' : Registry} (hs : Typed r.files r.store)
    (he : Evolves r.files r'.files) (hreq : NoNewRequired r.files r'.files) :
    StillReadable r r' := by
  intro c cm k b msg hcm hb hmsg
  obtain ⟨md, hbound⟩ := hs.bound hcm
  obtain ⟨md', hbound', hkept⟩ := bound_evolves he hbound
  obtain ⟨rfl, rfl⟩ := decoded_ok hbound hmsg
  obtain ⟨⟨w, hw, hinit, hfits⟩, _⟩ := hs.docs c cm msg.descriptor hcm hbound k _ hb
  cases hw
  obtain ⟨w', hw', hinit', hfits'⟩ :=
    docOk_evolves he hreq hbound hbound' hkept ⟨msg.recs, rfl, hinit, hfits⟩
  cases hw'
  refine ⟨⟨md', msg.recs⟩,
    (decode_eq_ok_iff hbound'.message).mpr ⟨msg.recs, rfl, hinit', rfl⟩, ?_, ?_⟩
  · rw [known_of_fits hfits, known_of_fits hfits']
  · intro fd hfd v hv
    obtain ⟨fd', hfd', hsame⟩ :=
      byName_kept hbound'.message hkept (Files.byName_eq_some hbound.message hfd)
    refine ⟨fd', hfd', ?_⟩
    show (msg.recs.last fd'.number fd'.kind).getD fd'.default = v
    rw [hsame.number, hsame.kind, hv]
    rfl

theorem noNewRequired_dbStep {env : Env} {codec : Codec} {r : Registry} (hr : Legible env r)
    {call : DbCall} (hc : DocumentsKept env r call) :
    NoNewRequired r.files (dbStep env codec r call).files := by
  cases call with
  | register call => exact noNewRequired_register hr.consistent hc.1 hc.2
  | call call => exact NoNewRequired.refl r.files
  | reopen =>
      rw [dbStep_reopen hc]
      exact NoNewRequired.refl r.files

theorem legible_dbStep {env : Env} {codec : Codec} {r : Registry} (hr : Legible env r)
    {call : DbCall} (hc : DocumentsKept env r call) : Legible env (dbStep env codec r call) := by
  refine ⟨(resolvable_dbStep hr.resolvable hc.names).consistent, ?_⟩
  cases call with
  | register call =>
      obtain ⟨hcoll, hdata, _⟩ := @register_frame env r call
      exact typed_evolves (evolves_register hr.consistent hc.1)
        (noNewRequired_register hr.consistent hc.1 hc.2) hcoll hdata hr.typed
  | call call => exact typed_step hr.typed call
  | reopen =>
      rw [dbStep_reopen hc]
      exact hr.typed

/-- **Documents stay readable.** If, besides, no registration adds a required
field to a message, then every step keeps every stored document decodable with
the same set fields, and in every state all of them decode. -/
theorem documents_readable (env : Env) (codec : Codec) (calls : List DbCall)
    (h : Each (dbStep env codec) (DocumentsKept env) Registry.initial calls) :
    Each (dbStep env codec) (fun r call => StillReadable r (dbStep env codec r call))
        Registry.initial calls ∧
      Always (dbStep env codec) AllReadable Registry.initial calls := by
  have hstep : ∀ r call, Legible env r → DocumentsKept env r call →
      Legible env (dbStep env codec r call) := fun r call hr hc => legible_dbStep hr hc
  have hall : Always (dbStep env codec) (Legible env) Registry.initial calls :=
    always_of_each hstep ⟨consistent_initial env, (sound_empty _).toTyped⟩ h
  refine ⟨hall.each h ?_, hall.imp fun r hr => allReadable_of_typed hr.typed⟩
  intro r call hr hc
  exact stillReadable_evolves hr.typed (evolves_dbStep hr.resolvable hc.names)
    (noNewRequired_dbStep hr hc)

/-- Adding an optional field meets this condition too, and `Get` still returns
the ticket. -/
theorem documents_readable_desk :
    Always (dbStep deskEnv deskCodec) AllReadable Registry.initial
        (.reopen :: deskCalls ++ [registerTicket ticketNote]) ∧
      get deskCodec (deskRun [registerTicket ticketNote]).files
        (deskRun [registerTicket ticketNote]).store (ascii "tickets") (ascii "t1") =
          .ok textT1 := by
  refine ⟨(documents_readable deskEnv deskCodec _ ?_).2, by decide +kernel⟩
  refine ⟨rfl, ?_, trivial, trivial, trivial, ?_, trivial⟩
  all_goals
    show keepsNames _ _ _ = true ∧ keepsRequired _ _ _ = true
    decide +kernel

/-- The registration that adds a required field is accepted as version 2, and
`Get` fails on a ticket it returned before. -/
theorem required_field_breaks_documents :
    (register deskEnv (deskRun []) (ascii "ticket.proto") ticketTeam 0).2 = .ok 2 ∧
      get deskCodec (deskRun []).files (deskRun []).store (ascii "tickets") (ascii "t1") =
        .ok textT1 ∧
      ((deskRun [registerTicket ticketTeam]).files.findMessage
        (ascii "desk.Ticket")).isSome = true ∧
      get deskCodec (deskRun [registerTicket ticketTeam]).files
        (deskRun [registerTicket ticketTeam]).store (ascii "tickets") (ascii "t1") =
          .error .decode := by
  decide +kernel

end KoraDB.Engine
