import KoraDB.Auth.Lifetime
import KoraDB.Engine.Database
import KoraDB.Server.Handlers
import KoraDB.Server.Interceptor

/-!
# Authority over a served database

A server runs requests concurrently: the interceptor checks a request when it
arrives, and its handler runs later, after any number of other requests, which
may have revoked the very key it was let in with. A run is a sequence of such
arrivals and services in any order, on a database that any operations of the
program left behind. A handler writes in at most one transaction, so it is one
event.

What changes the database is a handler, and a handler only runs for a request
that was let in. So every change goes back to a check at which a live key of
the role the method needs was stored (`no_change_without_authority`).
-/

namespace KoraDB.Server

open KoraDB.Base KoraDB.Catalog KoraDB.Schema KoraDB.Engine KoraDB.System

/-! ## Requests -/

/-- What gRPC does before the interceptor: it finds the method of a path, and
the generated code decodes the body. -/
structure Transport where
  route : Bytes → Option Method
  unmarshal : (m : Method) → Bytes → Option m.Request

structure Request where
  path : Bytes
  metadata : Metadata
  body : Bytes

/-- A request the interceptor has let in. -/
structure Admission where
  method : Method
  request : method.Request
  principal : Option Auth.Principal

/-- The way of a request to its handler. The generated code gives the
interceptor the full name of the method, whatever the path was. -/
def receive (t : Transport) (sha256 : Bytes → Bytes) (s : Store) (req : Request) (now : Time) :
    Except Code Admission := do
  let m ← orErr (t.route req.path) .unimplemented
  let body ← orErr (t.unmarshal m req.body) .internal
  let principal ← authInterceptor sha256 s now m.fullName req.metadata
  return ⟨m, body, principal⟩

/-! ## Runs -/

/-- A serving process: its database, and the requests whose handlers are still
to run. -/
structure State where
  registry : Registry
  waiting : List Admission

inductive Event
  | arrive (req : Request) (now : Time)
  | serve (i : Nat) (inputs : Inputs)

def stepServer (host : Host) (t : Transport) (st : State) : Event → State
  | .arrive req now =>
    match receive t host.sha256 st.registry.store req now with
    | .error _ => st
    | .ok a => { st with waiting := st.waiting ++ [a] }
  | .serve i inputs =>
    match st.waiting[i]? with
    | none => st
    | some a => ⟨(handle host st.registry inputs a.method a.request).1, st.waiting.eraseIdx i⟩

/-- The server after some events, on a database that some operations left. -/
def serverAfter (host : Host) (t : Transport) (setup : List Op) (events : List Event) : State :=
  run (stepServer host t) ⟨reached host.toWorld setup, []⟩ events

/-- The event runs the handler of the request. -/
def Serves (st : State) (e : Event) (a : Admission) : Prop :=
  ∃ i inputs, e = .serve i inputs ∧ st.waiting[i]? = some a

variable {host : Host} {t : Transport} {setup : List Op} {events : List Event}

theorem serverAfter_concat (e : Event) :
    serverAfter host t setup (events ++ [e]) =
      stepServer host t (serverAfter host t setup events) e := run_concat ..

theorem arrive_registry (st : State) (req : Request) (now : Time) :
    (stepServer host t st (.arrive req now)).registry = st.registry := by
  simp only [stepServer]
  split <;> rfl

theorem serve_registry {st : State} {a : Admission} {i : Nat} {inputs : Inputs}
    (ha : st.waiting[i]? = some a) :
    (stepServer host t st (.serve i inputs)).registry =
      (handle host st.registry inputs a.method a.request).1 := by
  simp only [stepServer, ha]

/-- A served database is one the program reaches by itself. -/
theorem serverAfter_reached (host : Host) (t : Transport) (setup : List Op)
    (events : List Event) :
    ∃ ops, (serverAfter host t setup events).registry = reached host.toWorld ops := by
  induction events using List.reverseRecOn with
  | nil => exact ⟨setup, rfl⟩
  | append_singleton events e ih =>
      obtain ⟨ops, hops⟩ := ih
      rw [serverAfter_concat]
      cases e with
      | arrive req now => exact ⟨ops, by rw [arrive_registry, hops]⟩
      | serve i inputs =>
          cases ha : (serverAfter host t setup events).waiting[i]? with
          | none => exact ⟨ops, by simp only [stepServer, ha, hops]⟩
          | some a =>
              rw [serve_registry ha, handle_eq_step, hops]
              cases opOf inputs a.method a.request with
              | none => exact ⟨ops, rfl⟩
              | some op => exact ⟨ops ++ [op], (reached_concat _ ops op).symm⟩

/-- A waiting request was let in at an earlier event. -/
theorem waiting_admitted {a : Admission} (ha : a ∈ (serverAfter host t setup events).waiting) :
    ∃ before req now after, events = before ++ .arrive req now :: after ∧
      receive t host.sha256 (serverAfter host t setup before).registry.store req now = .ok a := by
  induction events using List.reverseRecOn with
  | nil => exact absurd ha List.not_mem_nil
  | append_singleton events e ih =>
      -- what was waiting before the last event was let in before it
      have hold : a ∈ (serverAfter host t setup events).waiting →
          ∃ before req now after, events ++ [e] = before ++ .arrive req now :: after ∧
            receive t host.sha256 (serverAfter host t setup before).registry.store req now =
              .ok a := by
        intro hmem
        obtain ⟨before, req, now, after, rfl, hrec⟩ := ih hmem
        exact ⟨before, req, now, after ++ [e], by simp, hrec⟩
      rw [serverAfter_concat] at ha
      cases e with
      | arrive req now =>
          simp only [stepServer] at ha
          cases hrec : receive t host.sha256 (serverAfter host t setup events).registry.store req
              now with
          | error code =>
              rw [hrec] at ha
              exact hold ha
          | ok a' =>
              rw [hrec] at ha
              rcases List.mem_append.mp ha with hmem | hnew
              · exact hold hmem
              · rw [List.mem_singleton.mp hnew]
                exact ⟨events, req, now, [], rfl, hrec⟩
      | serve i inputs =>
          simp only [stepServer] at ha
          cases hi : (serverAfter host t setup events).waiting[i]? with
          | none =>
              rw [hi] at ha
              exact hold ha
          | some a' =>
              rw [hi] at ha
              exact hold (List.mem_of_mem_eraseIdx ha)

/-! ## The policy of the methods -/

/-- The least role of a method; the health methods have none. -/
def Method.minRole : Method → Option Int
  | .get | .query | .listSchemas | .listCollections => some Auth.roleReadOnly
  | .insert | .update | .delete => some Auth.roleReadWrite
  | .putSchema | .createCollection | .createKey | .listKeys | .revokeKey => some Auth.roleAdmin
  | .healthCheck | .healthList => none

/-- The table finds each method by the end of its name. -/
theorem requiredRole_fullName (m : Method) : Auth.requiredRole m.fullName = m.minRole := by
  cases m <;> decide +kernel

theorem isPublicHealthMethod_fullName {m : Method}
    (h : isPublicHealthMethod m.fullName = true) : m.minRole = none := by
  -- the public method is not in the table
  have hname : m.fullName = healthCheckMethod := beq_iff_eq.mp h
  rw [← requiredRole_fullName, hname]
  decide +kernel

/-- The least role for an operation of the program. -/
def opRole : Op → Int
  | .call call => if call.target.isSome then Auth.roleReadWrite else Auth.roleAdmin
  | .register _ _ | .key _ | .restart => Auth.roleAdmin

/-- A method needs the role of the operation its handler runs. -/
theorem minRole_of_op {inputs : Inputs} {m : Method} {req : m.Request} {op : Op}
    (h : opOf inputs m req = some op) : m.minRole = some (opRole op) := by
  cases m with
  | putSchema | createCollection | insert | update | delete | revokeKey =>
      cases h
      rfl
  | createKey =>
      simp only [opOf] at h
      split at h
      · cases h
      · cases h
        rfl
  | listSchemas | listCollections | get | query | listKeys | healthCheck | healthList => cases h

/-- What changes a bucket is the operation of the handler. -/
theorem changed_by_op {r : Registry} {inputs : Inputs} {m : Method} {req : m.Request} {b : Bytes}
    (hchanged : ¬ Storage.Store.SameBucket r.store (handle host r inputs m req).1.store b) :
    ∃ op, opOf inputs m req = some op ∧
      ¬ Storage.Store.SameBucket r.store (System.step host.toWorld r op).store b := by
  rw [handle_eq_step] at hchanged
  cases hop : opOf inputs m req with
  | none =>
      rw [hop] at hchanged
      exact absurd (.refl r.store b) hchanged
  | some op =>
      rw [hop] at hchanged
      exact ⟨op, rfl, hchanged⟩

/-- Documents and index entries are written by document operations. -/
theorem opRole_of_document {w : World} {r : Registry} {op : Op} {b : Bytes}
    (hb : isDocBucket b = true)
    (hchanged : ¬ Storage.Store.SameBucket r.store (System.step w r op).store b) :
    opRole op = Auth.roleReadWrite := by
  cases op with
  | register faults call => exact absurd (System.step_sameBucket (by simp) (.inl hb)) hchanged
  | key call => exact absurd (System.step_sameBucket (by simp) (.inl hb)) hchanged
  | restart => exact absurd (System.step_sameBucket (by simp) (.inl hb)) hchanged
  | call call =>
      cases htarget : call.target with
      | none =>
          have hne : b ≠ collectionsBucket := by
            rintro rfl
            cases hb
          exact absurd (createCall_sameBucket htarget hne) hchanged
      | some coll =>
          show (if call.target.isSome then _ else _) = _
          rw [htarget]
          rfl

/-- The reserved buckets are written by no document operation. -/
theorem opRole_of_reserved {w : World} {r : Registry} {op : Op} {b : Bytes}
    (hb : b ∈ reservedBuckets)
    (hchanged : ¬ Storage.Store.SameBucket r.store (System.step w r op).store b) :
    opRole op = Auth.roleAdmin := by
  cases op with
  | register faults call => rfl
  | key call => rfl
  | restart => rfl
  | call call =>
      cases htarget : call.target with
      | none =>
          show (if call.target.isSome then _ else _) = _
          rw [htarget]
          rfl
      | some coll => exact absurd (docCall_sameBucket htarget (reserved_not_doc b hb)) hchanged

/-! ## Authority -/

/-- The request was let in, at an earlier event, with a key that was stored and
live at that moment and whose role is as stated. -/
def Authorized (host : Host) (t : Transport) (setup : List Op) (events : List Event)
    (a : Admission) (ok : Int → Prop) : Prop :=
  ∃ before req now after token rec, events = before ++ .arrive req now :: after ∧
    receive t host.sha256 (serverAfter host t setup before).registry.store req now = .ok a ∧
    bearerToken req.metadata = .ok token ∧
    LiveKey host.sha256 (serverAfter host t setup before).registry.store now token rec ∧
    ok rec.role

theorem Authorized.imp {a : Admission} {ok ok' : Int → Prop}
    (h : Authorized host t setup events a ok) (himp : ∀ role, ok role → ok' role) :
    Authorized host t setup events a ok' := by
  obtain ⟨before, req, now, after, token, record, hev, hrec, htoken, hlive, hok⟩ := h
  exact ⟨before, req, now, after, token, record, hev, hrec, htoken, hlive, himp _ hok⟩

/-- A waiting request of a method with a least role was let in for it. -/
theorem authorized_of_waiting {a : Admission} {need : Int}
    (ha : a ∈ (serverAfter host t setup events).waiting) (hneed : a.method.minRole = some need) :
    Authorized host t setup events a fun role => need ≤ role ∧ role ≤ Auth.roleAdmin := by
  obtain ⟨before, req, now, after, rfl, hrec⟩ := waiting_admitted ha
  have hpass := hrec
  simp only [receive, bind_eq_ok_iff, pure, Except.pure, Except.ok.injEq] at hpass
  obtain ⟨m, _, body, _, principal, hauth, rfl⟩ := hpass
  rcases authInterceptor_eq_ok hauth with hhealth | ⟨token, record, need', htoken, hlive, hreq, hle⟩
  · rw [isPublicHealthMethod_fullName hhealth] at hneed
    cases hneed
  · rw [requiredRole_fullName, hneed] at hreq
    cases hreq
    obtain ⟨ops, hops⟩ := serverAfter_reached host t setup before
    have hminted : Auth.Minted host.sha256 (serverAfter host t setup before).registry.store := by
      rw [hops]
      exact minted_reached host.toWorld ops
    exact ⟨before, req, now, after, token, record, rfl, hrec, htoken, hlive, hle,
      hlive.role_le hminted⟩

/-- An event that changes a bucket runs the handler of a waiting request. -/
theorem served_of_changed {e : Event} {b : Bytes}
    (hchanged : ¬ Storage.Store.SameBucket (serverAfter host t setup events).registry.store
      (stepServer host t (serverAfter host t setup events) e).registry.store b) :
    ∃ a inputs op, Serves (serverAfter host t setup events) e a ∧
      opOf inputs a.method a.request = some op ∧
      ¬ Storage.Store.SameBucket (serverAfter host t setup events).registry.store
        (System.step host.toWorld (serverAfter host t setup events).registry op).store b := by
  cases e with
  | arrive req now =>
      rw [arrive_registry] at hchanged
      exact absurd (.refl _ b) hchanged
  | serve i inputs =>
      cases ha : (serverAfter host t setup events).waiting[i]? with
      | none =>
          simp only [stepServer, ha] at hchanged
          exact absurd (.refl _ b) hchanged
      | some a =>
          rw [serve_registry ha] at hchanged
          obtain ⟨op, hop, hch⟩ := changed_by_op hchanged
          exact ⟨a, inputs, op, ⟨i, inputs, rfl, ha⟩, hop, hch⟩

theorem Serves.waiting {st : State} {e : Event} {a : Admission} (h : Serves st e a) :
    a ∈ st.waiting := by
  obtain ⟨i, _, _, ha⟩ := h
  exact List.mem_of_getElem? ha

/-- No change without authority, in every run of a secured server: an event
that changes documents or index entries serves a request that was let in with
a key of role readwrite or admin, and one that changes another bucket a request
let in with a key of role admin; a request that is refused leaves the server as
it is, and the methods that read leave the database as it is. -/
theorem no_change_without_authority (host : Host) (t : Transport) (setup : List Op)
    (events : List Event) (e : Event) :
    (∀ b, isDocBucket b = true →
      ¬ Storage.Store.SameBucket (serverAfter host t setup events).registry.store
        (serverAfter host t setup (events ++ [e])).registry.store b →
      ∃ a, Serves (serverAfter host t setup events) e a ∧
        Authorized host t setup events a fun role => Auth.roleReadWrite ≤ role) ∧
    (∀ b ∈ reservedBuckets,
      ¬ Storage.Store.SameBucket (serverAfter host t setup events).registry.store
        (serverAfter host t setup (events ++ [e])).registry.store b →
      ∃ a, Serves (serverAfter host t setup events) e a ∧
        Authorized host t setup events a fun role => role = Auth.roleAdmin) ∧
    (∀ req now code, e = .arrive req now →
      receive t host.sha256 (serverAfter host t setup events).registry.store req now =
        .error code →
      serverAfter host t setup (events ++ [e]) = serverAfter host t setup events) ∧
    (∀ a, Serves (serverAfter host t setup events) e a → a.method.readsOnly = true →
      (serverAfter host t setup (events ++ [e])).registry =
        (serverAfter host t setup events).registry) ∧
    ∀ req now, e = .arrive req now →
      (serverAfter host t setup (events ++ [e])).registry =
        (serverAfter host t setup events).registry := by
  rw [serverAfter_concat]
  refine ⟨?_, ?_, ?_, ?_, ?_⟩
  · intro b hb hchanged
    obtain ⟨a, inputs, op, hserves, hop, hch⟩ := served_of_changed hchanged
    have hneed := minRole_of_op hop
    rw [opRole_of_document hb hch] at hneed
    exact ⟨a, hserves, (authorized_of_waiting hserves.waiting hneed).imp fun role hrole => hrole.1⟩
  · intro b hb hchanged
    obtain ⟨a, inputs, op, hserves, hop, hch⟩ := served_of_changed hchanged
    have hneed := minRole_of_op hop
    rw [opRole_of_reserved hb hch] at hneed
    -- no role is above admin, so at least admin is admin
    exact ⟨a, hserves, (authorized_of_waiting hserves.waiting hneed).imp
      fun role hrole => Int.le_antisymm hrole.2 hrole.1⟩
  · rintro req now code rfl hrefused
    simp only [stepServer, hrefused]
  · rintro a ⟨i, inputs, rfl, ha⟩ hreads
    rw [serve_registry ha]
    exact handle_readsOnly host _ inputs hreads a.request
  · rintro req now rfl
    exact arrive_registry _ req now

/-! ## A key that is revoked after the check -/

def deskHost : Host :=
  ⟨⟨deskEnv, deskCodec, id⟩, noFloat, ⟨fun _ _ => .ok .serving, fun statuses => .ok statuses⟩⟩

/-- Inserts of tickets and revocations, with the text or the key id for a
body. -/
def deskTransport : Transport where
  route path := [Method.insert, Method.revokeKey].find? fun m => m.fullName == path
  unmarshal
    | .insert, body => some ⟨ascii "tickets", body⟩
    | .revokeKey, body => some ⟨body⟩
    | _, _ => none

def deskRoot : Auth.KeyRequest := Auth.sampleRequest 1 2 Auth.roleAdmin ⟨0, 0⟩
def deskWriter : Auth.KeyRequest := Auth.sampleRequest 3 4 Auth.roleReadWrite ⟨0, 0⟩

def deskSetup : List Op :=
  [.register {} ⟨ascii "ticket.proto", ticket1, 0⟩,
    .call (.createCollection (ascii "tickets") (ascii "desk.Ticket") ⟨[], []⟩),
    .key (.create deskRoot), .key (.create deskWriter)]

def bearing (q : Auth.KeyRequest) : Metadata :=
  some ((∅ : BMap (List Bytes)).insert (ascii "authorization") [ascii "Bearer " ++ q.token])

/-- An insert is checked, and before it is served its key is revoked. -/
def deskEvents : List Event :=
  [.arrive ⟨Method.insert.fullName, bearing deskWriter, textT1⟩ (.ofUnix 1767225601),
    .arrive ⟨Method.revokeKey.fullName, bearing deskRoot, deskWriter.keyID⟩ (.ofUnix 1767225602),
    .serve 1 ⟨0, {}, ⟨⟨0, 0⟩, ⟨0, 0⟩, deskRoot.rand⟩⟩]

def deskServe : Event := .serve 0 ⟨0, {}, ⟨⟨0, 0⟩, ⟨0, 0⟩, deskRoot.rand⟩⟩

/-- The insert still takes place; its key was live when it was checked. -/
theorem no_change_without_authority_desk :
    (serverAfter deskHost deskTransport deskSetup deskEvents).registry.store.has Auth.keysBucket
        deskWriter.keyID = false ∧
      ∃ a, Serves (serverAfter deskHost deskTransport deskSetup deskEvents) deskServe a ∧
        Authorized deskHost deskTransport deskSetup deskEvents a fun role =>
          Auth.roleReadWrite ≤ role := by
  have hruns : (serverAfter deskHost deskTransport deskSetup deskEvents).registry.store.has
        Auth.keysBucket deskWriter.keyID = false ∧
      (serverAfter deskHost deskTransport deskSetup deskEvents).registry.store.sequence
        (dataBucket (ascii "tickets")) = 0 ∧
      (serverAfter deskHost deskTransport deskSetup
        (deskEvents ++ [deskServe])).registry.store.sequence
          (dataBucket (ascii "tickets")) = 1 := by
    decide +kernel
  obtain ⟨habsent, hbefore, hafter⟩ := hruns
  refine ⟨habsent, ?_⟩
  refine (no_change_without_authority deskHost deskTransport deskSetup deskEvents deskServe).1
    (dataBucket (ascii "tickets")) (isDocBucket_data _) ?_
  intro hsame
  rw [hsame.sequence, hbefore] at hafter
  cases hafter

end KoraDB.Server
