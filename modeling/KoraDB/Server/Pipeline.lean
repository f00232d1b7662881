import KoraDB.Base.Lists
import KoraDB.Server.Authority
import KoraDB.Server.Context
import KoraDB.Server.RateLimit
import KoraDB.Server.Telemetry

/-!
# The interceptor chain (`interceptors.go`, `runServe`)

A request passes audit, deadline, concurrency limit, authentication and rate
limit on its way to the handler, and the first three again on its way back.
Requests run concurrently, so the model cuts this way at every place where an
interceptor touches what requests share: the semaphore, the keys in the
database, the token bucket, the metrics and the audit log. An event moves one
request over one such place, and a run is any sequence of events.

What the shared state holds is then an account of the requests and the places
they are at (`Accounted`): no slot is lost, no request is counted or logged
twice, whatever the order (`chain_accounts`). No interceptor waits, so ten steps
of its own bring a request to its end (`every_request_ends`).
-/

namespace KoraDB.Server

open KoraDB.Base KoraDB.Catalog KoraDB.Schema KoraDB.Engine KoraDB.System

/-! ## The interceptors -/

/-- `DeadlineInterceptor` up to its handler: whether it derives a context of its
own. -/
def deadlineInterceptor (maxDuration : Int) (deadline : Option Time)
    (ctxErr : Option Query.CtxErr) (now : Time) : Except Code Bool :=
  if maxDuration ≤ 0 then .error .internal
  else
    match deadline with
    | none => .ok true
    | some d =>
      if d.sub now ≤ maxDuration then
        match ctxErr with
        | some e => .error (fromContextError e)
        | none => .ok false
      else .ok true

/-- `DeadlineInterceptor` behind its handler: a response is withdrawn when the
derived context is over. -/
def deadlineAnswer {α : Type} (derived : Bool) (ctxErr : Option Query.CtxErr)
    (res : Except Code α) : Except Code α :=
  match derived, ctxErr with
  | true, some e => .error (fromContextError e)
  | _, _ => res

/-- `ConcurrencyInterceptor` up to its handler: the slots in use then. -/
def concurrencyInterceptor (maxInFlight : Int) (semaphore : Nat) : Except Code Nat :=
  if maxInFlight ≤ 0 then .error .internal
  else if (semaphore : Int) < maxInFlight then .ok (semaphore + 1)
  else .error .resourceExhausted

/-- What `AuthInterceptor` puts into the `principalHolder`: the caller, also when
its role does not suffice. -/
def heldPrincipal (sha256 : Bytes → Bytes) (s : Store) (now : Time) (fullMethod : Bytes)
    (md : Metadata) : Option Auth.Principal :=
  if isPublicHealthMethod fullMethod then none
  else
    match bearerToken md with
    | .error _ => none
    | .ok token => (Auth.authenticateAt sha256 s token now).toOption

/-! ## Requests on their way -/

/-- The response of some method. -/
structure Reply where
  method : Method
  response : method.Response

/-- A request that has reached the chain. -/
structure Incoming where
  method : Method
  request : method.Request
  metadata : Metadata
  peer : Option Bytes
  deadline : Option Time
  started : Time

/-- Where a request is. -/
inductive Stage
  /-- Behind `begin`. -/
  | entered
  /-- Behind the deadline. -/
  | bounded
  /-- Behind the semaphore, with a slot. -/
  | holding
  /-- Behind the authentication. -/
  | authorized
  /-- Behind the rate limit. -/
  | ready
  /-- On the way back, still with its slot. -/
  | returned (res : Except Code Reply)
  /-- Before the deadline's check of the answer. -/
  | released (res : Except Code Reply)
  /-- Back in the audit interceptor. -/
  | answered (res : Except Code Reply)
  /-- Within `record`, off the gauge. -/
  | left (res : Except Code Reply) (duration : Int)
  /-- Counted, not yet logged. -/
  | counted (res : Except Code Reply) (duration : Int)
  | finished (res : Except Code Reply) (duration : Int) (stamp : Time)

/-- A request with the state of its context, and the `principalHolder`. -/
structure Active where
  incoming : Incoming
  ctxErr : Option Query.CtxErr
  derived : Bool
  principal : Option Auth.Principal
  stage : Stage

/-- The arguments of `runServe` that the chain is made of; `secure` is false
under `--insecure`. -/
structure Service where
  host : Host
  transport : Transport
  maxRequestDuration : Int
  maxConcurrentRequests : Int
  requestsPerSecond : Int
  burst : Int
  secure : Bool

/-- What the requests share, and the requests in the order they came. -/
structure Chain where
  registry : Registry
  semaphore : Nat
  bucket : TokenBucket
  metrics : Metrics
  audit : List AuditRecord
  requests : List Active

/-- What a step reads from outside. In a handler the context may run out before
a given reading, and the compiler may notice. -/
structure Tick where
  now : Time
  stamp : Time
  inputs : Inputs
  cut : Option (Nat × Query.CtxErr)
  givesUp : Bool

/-- The readings of the context in a handler: an error stays. -/
def Active.readings (a : Active) (tick : Tick) : Readings Query.CtxErr := fun k =>
  a.ctxErr.or (tick.cut.bind fun c => if c.1 ≤ k then some c.2 else none)

/-- The record of a request that has been answered. -/
def auditRecord (a : Active) (res : Except Code Reply) (duration : Int) (stamp : Time) :
    AuditRecord where
  timestamp := stamp
  method := Auth.shortMethod a.incoming.method.fullName
  principal := principalName a.principal
  peer := peerAddr a.incoming.peer
  code := statusCode res
  durationMs := milliseconds duration

/-- One step of a request. -/
def advance (svc : Service) (st : Chain) (a : Active) (tick : Tick) : Chain × Active :=
  match a.stage with
  | .entered =>
    match deadlineInterceptor svc.maxRequestDuration a.incoming.deadline a.ctxErr tick.now with
    | .error code => (st, { a with stage := .answered (.error code) })
    | .ok derived => (st, { a with derived := derived, stage := .bounded })
  | .bounded =>
    match concurrencyInterceptor svc.maxConcurrentRequests st.semaphore with
    | .error code => (st, { a with stage := .released (.error code) })
    | .ok semaphore => ({ st with semaphore := semaphore }, { a with stage := .holding })
  | .holding =>
    if svc.secure then
      let principal := heldPrincipal svc.host.sha256 st.registry.store tick.now
        a.incoming.method.fullName a.incoming.metadata
      match authInterceptor svc.host.sha256 st.registry.store tick.now
        a.incoming.method.fullName a.incoming.metadata with
      | .error code => (st, { a with principal, stage := .returned (.error code) })
      | .ok _ => (st, { a with principal, stage := .authorized })
    else (st, { a with stage := .authorized })
  | .authorized =>
    let (bucket, passed) := rateLimitInterceptor st.bucket tick.now
    match passed with
    | .error code => ({ st with bucket }, { a with stage := .returned (.error code) })
    | .ok _ => ({ st with bucket }, { a with stage := .ready })
  | .ready =>
    let (registry, res) := handleContext svc.host st.registry tick.inputs (a.readings tick)
      tick.givesUp a.incoming.method a.incoming.request
    ({ st with registry },
      { a with
        ctxErr := a.ctxErr.or (tick.cut.map Prod.snd)
        stage := .returned (res.map (Reply.mk a.incoming.method)) })
  | .returned res =>
    ({ st with semaphore := st.semaphore - 1 }, { a with stage := .released res })
  | .released res =>
    (st, { a with stage := .answered (deadlineAnswer a.derived a.ctxErr res) })
  | .answered res =>
    ({ st with metrics := st.metrics.leave },
      { a with stage := .left res (tick.now.sub a.incoming.started) })
  | .left res duration =>
    ({ st with
        metrics := st.metrics.record (Auth.shortMethod a.incoming.method.fullName)
          (statusCode res) duration },
      { a with stage := .counted res duration })
  | .counted res duration =>
    ({ st with audit := st.audit ++ [auditRecord a res duration tick.stamp] },
      { a with stage := .finished res duration tick.stamp })
  | .finished _ _ _ => (st, a)

/-! ## Runs -/

inductive ChainEvent
  /-- A request comes in; gRPC finds its method and decodes its body. -/
  | arrive (req : Request) (peer : Option Bytes) (deadline : Option Time) (now : Time)
  /-- The context of a request is over. -/
  | expire (i : Nat) (e : Query.CtxErr)
  | advance (i : Nat) (tick : Tick)

/-- The way of a request into the chain. -/
def enter (t : Transport) (req : Request) (peer : Option Bytes) (deadline : Option Time)
    (now : Time) : Option Active := do
  let m ← t.route req.path
  let body ← t.unmarshal m req.body
  return ⟨⟨m, body, req.metadata, peer, deadline, now⟩, none, false, none, .entered⟩

def stepChain (svc : Service) (st : Chain) : ChainEvent → Chain
  | .arrive req peer deadline now =>
    match enter svc.transport req peer deadline now with
    | none => st
    | some a => { st with metrics := st.metrics.begin, requests := st.requests ++ [a] }
  | .expire i e =>
    match st.requests[i]? with
    | none => st
    | some a => { st with requests := st.requests.set i { a with ctxErr := a.ctxErr.or (some e) } }
  | .advance i tick =>
    match st.requests[i]? with
    | none => st
    | some a =>
      let (st', a') := advance svc st a tick
      { st' with requests := st'.requests.set i a' }

/-- The chain of a server that starts on a database some operations left. -/
def Chain.start (svc : Service) (setup : List Op) (created : Time) : Chain :=
  ⟨reached svc.host.toWorld setup, 0, newTokenBucket svc.requestsPerSecond svc.burst created,
    .new, [], []⟩

def chainAfter (svc : Service) (setup : List Op) (created : Time) (events : List ChainEvent) :
    Chain :=
  run (stepChain svc) (Chain.start svc setup created) events

variable {svc : Service} {st st' : Chain} {a a' : Active} {tick : Tick} {setup : List Op}
  {created : Time} {events : List ChainEvent}

theorem chainAfter_concat (e : ChainEvent) :
    chainAfter svc setup created (events ++ [e]) =
      stepChain svc (chainAfter svc setup created events) e := run_concat ..

theorem enter_eq_some {t : Transport} {req : Request} {peer : Option Bytes}
    {deadline : Option Time} {now : Time} (h : enter t req peer deadline now = some a) :
    ∃ m body, t.route req.path = some m ∧ t.unmarshal m req.body = some body ∧
      a = ⟨⟨m, body, req.metadata, peer, deadline, now⟩, none, false, none, .entered⟩ := by
  simp only [enter, Option.bind_eq_bind, Option.bind_eq_some_iff, pure, Option.some.injEq] at h
  obtain ⟨m, hm, body, hbody, rfl⟩ := h
  exact ⟨m, body, hm, hbody, rfl⟩

/-! ## What an event can do -/

/-- The outcomes of a step of a request. -/
inductive Advances (svc : Service) (st : Chain) (a : Active) (tick : Tick) : Chain → Active → Prop
  | lapsed {code : Code} (hs : a.stage = .entered)
      (h : deadlineInterceptor svc.maxRequestDuration a.incoming.deadline a.ctxErr tick.now =
        .error code) :
      Advances svc st a tick st { a with stage := .answered (.error code) }
  | bounded {derived : Bool} (hs : a.stage = .entered)
      (h : deadlineInterceptor svc.maxRequestDuration a.incoming.deadline a.ctxErr tick.now =
        .ok derived) :
      Advances svc st a tick st { a with derived := derived, stage := .bounded }
  | full {code : Code} (hs : a.stage = .bounded)
      (h : concurrencyInterceptor svc.maxConcurrentRequests st.semaphore = .error code) :
      Advances svc st a tick st { a with stage := .released (.error code) }
  | acquired {n : Nat} (hs : a.stage = .bounded)
      (h : concurrencyInterceptor svc.maxConcurrentRequests st.semaphore = .ok n) :
      Advances svc st a tick { st with semaphore := n } { a with stage := .holding }
  | denied {code : Code} (hs : a.stage = .holding) (hsecure : svc.secure = true)
      (h : authInterceptor svc.host.sha256 st.registry.store tick.now a.incoming.method.fullName
        a.incoming.metadata = .error code) :
      Advances svc st a tick st
        { a with
          principal := heldPrincipal svc.host.sha256 st.registry.store tick.now
            a.incoming.method.fullName a.incoming.metadata
          stage := .returned (.error code) }
  | authorized {p : Option Auth.Principal} (hs : a.stage = .holding) (hsecure : svc.secure = true)
      (h : authInterceptor svc.host.sha256 st.registry.store tick.now a.incoming.method.fullName
        a.incoming.metadata = .ok p) :
      Advances svc st a tick st
        { a with
          principal := heldPrincipal svc.host.sha256 st.registry.store tick.now
            a.incoming.method.fullName a.incoming.metadata
          stage := .authorized }
  | unchecked (hs : a.stage = .holding) (hsecure : svc.secure = false) :
      Advances svc st a tick st { a with stage := .authorized }
  | limited {bucket : TokenBucket} {code : Code} (hs : a.stage = .authorized)
      (h : rateLimitInterceptor st.bucket tick.now = (bucket, .error code)) :
      Advances svc st a tick { st with bucket := bucket }
        { a with stage := .returned (.error code) }
  | ready {bucket : TokenBucket} (hs : a.stage = .authorized)
      (h : rateLimitInterceptor st.bucket tick.now = (bucket, .ok ())) :
      Advances svc st a tick { st with bucket := bucket } { a with stage := .ready }
  | handled {registry : Registry} {res : Except Code a.incoming.method.Response}
      (hs : a.stage = .ready)
      (h : handleContext svc.host st.registry tick.inputs (a.readings tick) tick.givesUp
        a.incoming.method a.incoming.request = (registry, res)) :
      Advances svc st a tick { st with registry := registry }
        { a with
          ctxErr := a.ctxErr.or (tick.cut.map Prod.snd)
          stage := .returned (res.map (Reply.mk a.incoming.method)) }
  | released {res : Except Code Reply} (hs : a.stage = .returned res) :
      Advances svc st a tick { st with semaphore := st.semaphore - 1 }
        { a with stage := .released res }
  | answered {res : Except Code Reply} (hs : a.stage = .released res) :
      Advances svc st a tick st
        { a with stage := .answered (deadlineAnswer a.derived a.ctxErr res) }
  | left {res : Except Code Reply} (hs : a.stage = .answered res) :
      Advances svc st a tick { st with metrics := st.metrics.leave }
        { a with stage := .left res (tick.now.sub a.incoming.started) }
  | counted {res : Except Code Reply} {duration : Int} (hs : a.stage = .left res duration) :
      Advances svc st a tick
        { st with
          metrics := st.metrics.record (Auth.shortMethod a.incoming.method.fullName)
            (statusCode res) duration }
        { a with stage := .counted res duration }
  | logged {res : Except Code Reply} {duration : Int} (hs : a.stage = .counted res duration) :
      Advances svc st a tick
        { st with audit := st.audit ++ [auditRecord a res duration tick.stamp] }
        { a with stage := .finished res duration tick.stamp }
  | ended {res : Except Code Reply} {duration : Int} {stamp : Time}
      (hs : a.stage = .finished res duration stamp) : Advances svc st a tick st a

theorem advance_advances (svc : Service) (st : Chain) (a : Active) (tick : Tick) :
    Advances svc st a tick (advance svc st a tick).1 (advance svc st a tick).2 := by
  unfold advance
  cases hs : a.stage with
  | entered =>
      cases h : deadlineInterceptor svc.maxRequestDuration a.incoming.deadline a.ctxErr
          tick.now with
      | error code => exact .lapsed hs h
      | ok derived => exact .bounded hs h
  | bounded =>
      cases h : concurrencyInterceptor svc.maxConcurrentRequests st.semaphore with
      | error code => exact .full hs h
      | ok n => exact .acquired hs h
  | holding =>
      cases hsecure : svc.secure with
      | false => exact .unchecked hs hsecure
      | true =>
          cases h : authInterceptor svc.host.sha256 st.registry.store tick.now
              a.incoming.method.fullName a.incoming.metadata with
          | error code => exact .denied hs hsecure h
          | ok p => exact .authorized hs hsecure h
  | authorized =>
      cases h : rateLimitInterceptor st.bucket tick.now with
      | mk bucket passed =>
          cases passed with
          | error code => exact .limited hs h
          | ok u => exact .ready hs h
  | ready => exact .handled hs rfl
  | returned res => exact .released hs
  | released res => exact .answered hs
  | answered res => exact .left hs
  | left res duration => exact .counted hs
  | counted res duration => exact .logged hs
  | finished res duration stamp => exact .ended hs

/-- A step of a request leaves the list of requests to the event around it. -/
theorem Advances.requests (h : Advances svc st a tick st' a') : st'.requests = st.requests := by
  cases h <;> rfl

/-- The event is a step of request `i`. -/
def ChainEvent.advances (i : Nat) : ChainEvent → Bool
  | .advance j _ => j == i
  | _ => false

/-- The outcomes of an event; one that does nothing is no step of a request. -/
inductive Steps (svc : Service) (st : Chain) : ChainEvent → Chain → Prop
  | idle {e : ChainEvent} (h : ∀ i a, st.requests[i]? = some a → e.advances i = false) :
      Steps svc st e st
  | arrived {req : Request} {peer : Option Bytes} {deadline : Option Time} {now : Time}
      {a : Active} (h : enter svc.transport req peer deadline now = some a) :
      Steps svc st (.arrive req peer deadline now)
        { st with metrics := st.metrics.begin, requests := st.requests ++ [a] }
  | expired {i : Nat} {e : Query.CtxErr} {a : Active} (hi : st.requests[i]? = some a) :
      Steps svc st (.expire i e)
        { st with requests := st.requests.set i { a with ctxErr := a.ctxErr.or (some e) } }
  | advanced {i : Nat} {tick : Tick} {a a' : Active} {st' : Chain} (hi : st.requests[i]? = some a)
      (h : Advances svc st a tick st' a') :
      Steps svc st (.advance i tick) { st' with requests := st.requests.set i a' }

theorem stepChain_steps (svc : Service) (st : Chain) (e : ChainEvent) :
    Steps svc st e (stepChain svc st e) := by
  cases e with
  | arrive req peer deadline now =>
      cases h : enter svc.transport req peer deadline now with
      | none => simp only [stepChain, h]; exact .idle fun _ _ _ => rfl
      | some a => simp only [stepChain, h]; exact .arrived h
  | expire i e =>
      cases hi : st.requests[i]? with
      | none => simp only [stepChain, hi]; exact .idle fun _ _ _ => rfl
      | some a => simp only [stepChain, hi]; exact .expired hi
  | advance i tick =>
      cases hi : st.requests[i]? with
      | none =>
          simp only [stepChain, hi]
          refine .idle fun j b hj => ?_
          rw [ChainEvent.advances, beq_eq_false_iff_ne]
          rintro rfl
          rw [hi] at hj
          cases hj
      | some a =>
          have hadv := advance_advances svc st a tick
          simp only [stepChain, hi, hadv.requests]
          exact .advanced hi hadv

/-! ## The account -/

/-- Method, code and duration of a request that is counted. -/
structure Measure where
  method : Bytes
  code : Bytes
  duration : Int
  deriving DecidableEq

/-- What the shared state has to show for a request: a slot of the semaphore, a
place on the gauge, a measure in the counters, a record in the log. -/
structure Mark where
  slot : Bool
  gauge : Bool
  measure : Option Measure
  record : Option AuditRecord

def Active.measure (a : Active) (res : Except Code Reply) (duration : Int) : Measure :=
  ⟨Auth.shortMethod a.incoming.method.fullName, statusCode res, duration⟩

def Active.mark (a : Active) : Mark :=
  match a.stage with
  | .entered | .bounded | .released _ | .answered _ => ⟨false, true, none, none⟩
  | .holding | .authorized | .ready | .returned _ => ⟨true, true, none, none⟩
  | .left _ _ => ⟨false, false, none, none⟩
  | .counted res duration => ⟨false, false, some (a.measure res duration), none⟩
  | .finished res duration stamp =>
    ⟨false, false, some (a.measure res duration), some (auditRecord a res duration stamp)⟩

def Measure.under (method code : Bytes) (m : Measure) : Bool :=
  m.method == method && m.code == code

/-- What the measures of a method and a code add up to, as `uint64`. -/
def tally (method code : Bytes) (ms : List Measure) : MetricValue :=
  ⟨(ms.filter (Measure.under method code)).length % 2 ^ 64,
    ((ms.filter (Measure.under method code)).map fun m => m.duration.toNat).sum % 2 ^ 64⟩

/-- The shared state as the account of the requests. -/
structure Accounted (svc : Service) (semaphore : Nat) (metrics : Metrics)
    (audit : List AuditRecord) (marks : List Mark) : Prop where
  slots : semaphore = marks.countP Mark.slot
  capacity : 0 < semaphore → (semaphore : Int) ≤ svc.maxConcurrentRequests
  gauge : metrics.inFlight = marks.countP Mark.gauge
  counters : ∀ method code, metrics.value method code =
    tally method code (marks.filterMap Mark.measure)
  records : audit.Perm (marks.filterMap Mark.record)

theorem tally_perm {method code : Bytes} {ms ms' : List Measure} (h : ms.Perm ms') :
    tally method code ms = tally method code ms' := by
  unfold tally
  rw [(h.filter _).length_eq, ((h.filter _).map _).sum_eq]

theorem tally_cons (method code : Bytes) (m : Measure) (ms : List Measure) :
    tally method code (m :: ms) =
      if m.method = method ∧ m.code = code then (tally method code ms).add m.duration
      else tally method code ms := by
  have hunder : m.under method code = true ↔ m.method = method ∧ m.code = code := by
    simp [Measure.under]
  unfold tally
  by_cases hkey : m.method = method ∧ m.code = code
  · rw [if_pos hkey, List.filter_cons_of_pos (hunder.mpr hkey)]
    simp only [List.length_cons, List.map_cons, List.sum_cons, MetricValue.add]
    congr 1
    · omega
    · split <;> omega
  · rw [if_neg hkey, List.filter_cons_of_neg (mt hunder.mp hkey)]

namespace Accounted

variable {n : Nat} {m : Metrics} {au : List AuditRecord} {marks marks' : List Mark}

theorem perm (h : Accounted svc n m au marks) (hp : marks.Perm marks') :
    Accounted svc n m au marks' where
  slots := h.slots.trans (hp.countP_eq _)
  capacity := h.capacity
  gauge := h.gauge.trans (congrArg _ (hp.countP_eq _))
  counters method code := (h.counters method code).trans (tally_perm (hp.filterMap _))
  records := h.records.trans (hp.filterMap _)

/-- A request comes in. -/
theorem arrived (h : Accounted svc n m au marks) :
    Accounted svc n m.begin au (⟨false, true, none, none⟩ :: marks) where
  slots := by simpa using h.slots
  capacity := h.capacity
  gauge := by simp [Metrics.begin, h.gauge]
  counters := h.counters
  records := by simpa using h.records

/-- A request takes a free slot. -/
theorem acquired {n' : Nat} (h : Accounted svc n m au (⟨false, true, none, none⟩ :: marks))
    (hfree : concurrencyInterceptor svc.maxConcurrentRequests n = .ok n') :
    Accounted svc n' m au (⟨true, true, none, none⟩ :: marks) := by
  have hn : n' = n + 1 ∧ (n : Int) < svc.maxConcurrentRequests := by
    unfold concurrencyInterceptor at hfree
    split at hfree
    · cases hfree
    · split at hfree
      · rename_i hlt
        cases hfree
        exact ⟨rfl, hlt⟩
      · cases hfree
  obtain ⟨rfl, hlt⟩ := hn
  exact
    { slots := by simpa using h.slots
      capacity := fun _ => by omega
      gauge := by simpa using h.gauge
      counters := by simpa using h.counters
      records := by simpa using h.records }

/-- A request gives its slot back. -/
theorem released (h : Accounted svc n m au (⟨true, true, none, none⟩ :: marks)) :
    Accounted svc (n - 1) m au (⟨false, true, none, none⟩ :: marks) where
  slots := by simp [h.slots]
  capacity := fun hpos => by
    have := h.capacity (by omega)
    omega
  gauge := by simpa using h.gauge
  counters := by simpa using h.counters
  records := by simpa using h.records

/-- A request leaves the gauge. -/
theorem left (h : Accounted svc n m au (⟨false, true, none, none⟩ :: marks)) :
    Accounted svc n m.leave au (⟨false, false, none, none⟩ :: marks) where
  slots := by simpa using h.slots
  capacity := h.capacity
  gauge := by simp [Metrics.leave, h.gauge]
  counters := by simpa using h.counters
  records := by simpa using h.records

/-- A request is counted. -/
theorem counted {μ : Measure} (h : Accounted svc n m au (⟨false, false, none, none⟩ :: marks)) :
    Accounted svc n (m.record μ.method μ.code μ.duration) au
      (⟨false, false, some μ, none⟩ :: marks) where
  slots := by simpa using h.slots
  capacity := h.capacity
  gauge := by simpa [Metrics.record] using h.gauge
  counters method code := by
    have hold : ∀ method code, m.value method code =
        tally method code (marks.filterMap Mark.measure) := by simpa using h.counters
    show _ = tally method code (μ :: marks.filterMap Mark.measure)
    rw [Metrics.value_record, hold, hold, tally_cons]
    split
    · rename_i hkey
      rw [hkey.1, hkey.2]
    · rfl
  records := by simpa using h.records

/-- A request is logged. -/
theorem logged {μ : Measure} {record : AuditRecord}
    (h : Accounted svc n m au (⟨false, false, some μ, none⟩ :: marks)) :
    Accounted svc n m (au ++ [record]) (⟨false, false, some μ, some record⟩ :: marks) where
  slots := by simpa using h.slots
  capacity := h.capacity
  gauge := by simpa using h.gauge
  counters := by simpa using h.counters
  records := by
    have hold : au.Perm (marks.filterMap Mark.record) := by simpa using h.records
    exact (List.perm_append_singleton _ au).trans (hold.cons _)

end Accounted

/-- A step of a request, on the account of it and the others. -/
theorem accounted_advances {marks : List Mark}
    (h : Accounted svc st.semaphore st.metrics st.audit (a.mark :: marks))
    (hadv : Advances svc st a tick st' a') :
    Accounted svc st'.semaphore st'.metrics st'.audit (a'.mark :: marks) := by
  cases hadv with
  | acquired hs hfree =>
      simp only [Active.mark, hs] at h
      exact h.acquired hfree
  | released hs =>
      simp only [Active.mark, hs] at h
      exact h.released
  | left hs =>
      simp only [Active.mark, hs] at h
      exact h.left
  | counted hs =>
      simp only [Active.mark, hs] at h
      exact h.counted (μ := a.measure _ _)
  | logged hs =>
      simp only [Active.mark, hs] at h
      exact h.logged
  | ended hs => exact h
  | lapsed hs _ | bounded hs _ | full hs _ | denied hs _ _ | authorized hs _ _ | unchecked hs _
  | limited hs _ | ready hs _ | handled hs _ | answered hs =>
      -- the step moves between places that the account does not tell apart
      simpa only [Active.mark, hs] using h

/-- Nor does it tell the states of a context apart. -/
theorem mark_ctxErr (a : Active) (ctxErr : Option Query.CtxErr) :
    Active.mark { a with ctxErr := ctxErr } = a.mark := by
  unfold Active.mark
  cases a.stage <;> rfl

/-- Replacing a request replaces its mark. -/
theorem marks_set {requests : List Active} {i : Nat} (hi : requests[i]? = some a) :
    ∃ marks, (requests.map Active.mark).Perm (a.mark :: marks) ∧
      ∀ b, ((requests.set i b).map Active.mark).Perm (b.mark :: marks) := by
  obtain ⟨rest, hold, hnew⟩ := set_perm_of_getElem? hi
  exact ⟨rest.map Active.mark, hold.map _, fun b => (hnew b).map _⟩

/-- The account of a state of the chain. -/
def Chain.Accounted (svc : Service) (st : Chain) : Prop :=
  Server.Accounted svc st.semaphore st.metrics st.audit (st.requests.map Active.mark)

theorem accounted_step {e : ChainEvent} (h : st.Accounted svc) :
    (stepChain svc st e).Accounted svc := by
  have hstep := stepChain_steps svc st e
  generalize stepChain svc st e = st' at hstep
  cases hstep with
  | idle _ => exact h
  | arrived henter =>
      rename_i a'
      have hmark : a'.mark = ⟨false, true, none, none⟩ := by
        obtain ⟨m, body, _, _, rfl⟩ := enter_eq_some henter
        rfl
      refine (Server.Accounted.arrived h).perm ?_
      rw [← hmark, List.map_append]
      exact (List.perm_append_singleton _ _).symm
  | expired hi =>
      obtain ⟨marks, hold, hnew⟩ := marks_set hi
      exact (Server.Accounted.perm h hold).perm ((mark_ctxErr _ _ ▸ hnew _).symm)
  | advanced hi hadv =>
      obtain ⟨marks, hold, hnew⟩ := marks_set hi
      exact (accounted_advances (Server.Accounted.perm h hold) hadv).perm (hnew _).symm

theorem accounted_start (svc : Service) (setup : List Op) (created : Time) :
    (Chain.start svc setup created).Accounted svc where
  slots := rfl
  capacity := fun h => absurd h (Nat.lt_irrefl 0)
  gauge := rfl
  counters := Metrics.value_new
  records := .refl _

theorem accounted_run (svc : Service) (setup : List Op) (created : Time)
    (events : List ChainEvent) : (chainAfter svc setup created events).Accounted svc :=
  run_kept (accounted_start svc setup created) fun _ _ _ h => accounted_step h

/-- The request of an event that finds it where it is. -/
theorem step_advance {i : Nat} (hi : st.requests[i]? = some a) (tick : Tick) :
    (stepChain svc st (.advance i tick)).requests[i]? = some (advance svc st a tick).2 := by
  have hlt : i < st.requests.length := (List.getElem?_eq_some_iff.mp hi).1
  simp only [stepChain, hi, (advance_advances svc st a tick).requests]
  exact List.getElem?_set_self hlt

/-- **The chain keeps account.** In every run, slots, gauge, counters and audit
log are the account of the requests and the places they are at, and never are
more slots in use than there may be. A request is turned away by the semaphore
exactly when all slots are held by other requests. -/
theorem chain_accounts (svc : Service) (setup : List Op) (created : Time)
    (events : List ChainEvent) :
    (chainAfter svc setup created events).Accounted svc ∧
    ∀ i a tick, (chainAfter svc setup created events).requests[i]? = some a →
      a.stage = .bounded → 0 < svc.maxConcurrentRequests →
      (stepChain svc (chainAfter svc setup created events) (.advance i tick)).requests[i]? =
        some { a with
          stage :=
            if (((chainAfter svc setup created events).requests.countP fun b => b.mark.slot : Nat) :
                Int) < svc.maxConcurrentRequests then .holding
            else .released (.error .resourceExhausted) } := by
  have hacc := accounted_run svc setup created events
  refine ⟨hacc, ?_⟩
  intro i a tick hi hs hpos
  have hslots : (chainAfter svc setup created events).requests.countP (fun b => b.mark.slot) =
      (chainAfter svc setup created events).semaphore := by
    rw [hacc.slots, List.countP_map]
    rfl
  rw [step_advance hi, hslots]
  simp only [advance, hs, concurrencyInterceptor, if_neg (Int.not_le.mpr hpos)]
  by_cases hfree : ((chainAfter svc setup created events).semaphore : Int) <
      svc.maxConcurrentRequests
  · simp only [if_pos hfree]
  · simp only [if_neg hfree]

/-- How far a request is. -/
def Stage.rank : Stage → Nat
  | .entered => 0
  | .bounded => 1
  | .holding => 2
  | .authorized => 3
  | .ready => 4
  | .returned _ => 5
  | .released _ => 6
  | .answered _ => 7
  | .left _ _ => 8
  | .counted _ _ => 9
  | .finished _ _ _ => 10

theorem Stage.rank_eq_one {s : Stage} : s.rank = 1 ↔ s = .bounded := by
  cases s <;> simp [Stage.rank]

/-! ### Two requests and one slot -/

/-- A secured server with a single slot, on the database of `deskSetup`. -/
def deskService : Service := ⟨deskHost, deskTransport, 30000000000, 1, 2, 2, true⟩

def deskTick : Tick :=
  ⟨.ofUnix 1767225602, .ofUnix 1767225602, ⟨0, {}, ⟨⟨0, 0⟩, ⟨0, 0⟩, deskRoot.rand⟩⟩, none, false⟩

def deskCreated : Time := .ofUnix 1767225600

/-- An insert and the revocation of its key come in. -/
def deskArrivals : List ChainEvent :=
  [.arrive ⟨Method.insert.fullName, bearing deskWriter, textT1⟩ none none
      (.ofUnix 1767225601),
    .arrive ⟨Method.revokeKey.fullName, bearing deskRoot, deskWriter.keyID⟩ none none
      (.ofUnix 1767225601)]

/-- The insert takes the slot, and the revocation comes to the semaphore. -/
def deskContention : List ChainEvent :=
  deskArrivals ++ [.advance 0 deskTick, .advance 0 deskTick, .advance 1 deskTick]

/-- The revocation is turned away. -/
theorem chain_accounts_desk :
    ∃ a, (chainAfter deskService deskSetup deskCreated deskContention).requests[1]? = some a ∧
      (stepChain deskService (chainAfter deskService deskSetup deskCreated deskContention)
        (.advance 1 deskTick)).requests[1]? =
          some { a with stage := .released (.error .resourceExhausted) } := by
  have hruns : (chainAfter deskService deskSetup deskCreated deskContention).requests.countP
        (fun b => b.mark.slot) = 1 ∧
      ((chainAfter deskService deskSetup deskCreated deskContention).requests[1]?.map
        fun a => decide (a.stage.rank = 1)) = some true := by
    decide +kernel
  obtain ⟨hcount, hrank⟩ := hruns
  obtain ⟨a, ha, hbounded⟩ := Option.map_eq_some_iff.mp hrank
  have hs : a.stage = .bounded := Stage.rank_eq_one.mp (of_decide_eq_true hbounded)
  have hturned := (chain_accounts deskService deskSetup deskCreated deskContention).2 1 a deskTick
    ha hs (by decide)
  rw [hcount] at hturned
  exact ⟨a, ha, hturned⟩

/-! ## Progress -/

theorem Advances.incoming (h : Advances svc st a tick st' a') : a'.incoming = a.incoming := by
  cases h <;> rfl

/-- No interceptor waits: a step brings a request further, unless it is at its
end. -/
theorem Advances.rank (h : Advances svc st a tick st' a') :
    min 10 (a.stage.rank + 1) ≤ a'.stage.rank := by
  cases h with
  | ended hs =>
      rw [hs]
      exact Nat.min_le_left _ _
  | lapsed hs _ | bounded hs _ | full hs _ | acquired hs _ | denied hs _ _ | authorized hs _ _
  | unchecked hs _ | limited hs _ | ready hs _ | handled hs _ | released hs | answered hs | left hs
  | counted hs | logged hs =>
      rw [hs]
      simp only [Stage.rank]
      omega

/-- What an event does to one of the requests: it is a step of this request, or
it leaves all of it as it is but for its context. -/
theorem request_step (svc : Service) {i : Nat} (hi : st.requests[i]? = some a) (e : ChainEvent) :
    ∃ b, (stepChain svc st e).requests[i]? = some b ∧
      ((e.advances i = false ∧ ∃ ctxErr, b = { a with ctxErr := ctxErr }) ∨
        ∃ tick st', e = .advance i tick ∧ Advances svc st a tick st' b ∧
          stepChain svc st e = { st' with requests := st.requests.set i b }) := by
  have hlt : i < st.requests.length := (List.getElem?_eq_some_iff.mp hi).1
  have hstep := stepChain_steps svc st e
  generalize hnext : stepChain svc st e = next at hstep
  cases hstep with
  | arrived henter =>
      refine ⟨a, ?_, .inl ⟨rfl, a.ctxErr, rfl⟩⟩
      show (st.requests ++ [_])[i]? = some a
      rw [List.getElem?_append_left hlt, hi]
  | @expired j e b hj =>
      by_cases hij : j = i
      · subst hij
        rw [hi] at hj
        cases hj
        exact ⟨_, List.getElem?_set_self hlt, .inl ⟨rfl, _, rfl⟩⟩
      · refine ⟨a, ?_, .inl ⟨rfl, a.ctxErr, rfl⟩⟩
        show (st.requests.set j _)[i]? = some a
        rw [List.getElem?_set_ne hij, hi]
  | @advanced j tick b b' st' hj hadv =>
      by_cases hij : j = i
      · subst hij
        rw [hi] at hj
        cases hj
        exact ⟨b', List.getElem?_set_self hlt, .inr ⟨tick, st', rfl, hadv, rfl⟩⟩
      · refine ⟨a, ?_, .inl ⟨?_, a.ctxErr, rfl⟩⟩
        · show (st.requests.set j _)[i]? = some a
          rw [List.getElem?_set_ne hij, hi]
        · simpa [ChainEvent.advances] using hij
  | idle hnone => exact ⟨a, hi, .inl ⟨hnone i a hi, a.ctxErr, rfl⟩⟩

/-- A request that was not there has just come in. -/
theorem request_new {i : Nat} {e : ChainEvent} (hnone : st.requests[i]? = none)
    (hb : (stepChain svc st e).requests[i]? = some a) : a.stage = .entered := by
  have hset : ∀ j (b : Active), (st.requests.set j b)[i]? = none := by
    intro j b
    rw [List.getElem?_eq_none_iff] at hnone ⊢
    rwa [List.length_set]
  have hstep := stepChain_steps svc st e
  generalize stepChain svc st e = next at hstep hb
  cases hstep with
  | idle _ =>
      rw [hnone] at hb
      cases hb
  | @arrived req peer deadline now a' henter =>
      have hmem : (st.requests ++ [a'])[i]? = some a := hb
      rw [List.getElem?_append_right (List.getElem?_eq_none_iff.mp hnone)] at hmem
      rw [List.mem_singleton.mp (List.mem_of_getElem? hmem)]
      obtain ⟨m, body, _, _, rfl⟩ := enter_eq_some henter
      rfl
  | expired _ =>
      rw [hset] at hb
      cases hb
  | advanced _ _ =>
      rw [hset] at hb
      cases hb

/-- Where a request is behind an event, and how it came there: it has just come
in, or it is where it was, or the event is a step of it. -/
theorem request_origin {i : Nat} {e : ChainEvent} {b : Active}
    (hb : (stepChain svc st e).requests[i]? = some b) :
    b.stage = .entered ∨ ∃ a, st.requests[i]? = some a ∧
      ((∃ ctxErr, b = { a with ctxErr := ctxErr }) ∨
        ∃ tick st', e = .advance i tick ∧ Advances svc st a tick st' b ∧
          stepChain svc st e = { st' with requests := st.requests.set i b }) := by
  cases ha : st.requests[i]? with
  | none => exact .inl (request_new ha hb)
  | some a =>
      obtain ⟨b', hb', hcases⟩ := request_step svc ha e
      obtain rfl : b' = b := Option.some.inj (hb'.symm.trans hb)
      exact .inr ⟨a, rfl, hcases.imp And.right id⟩

theorem request_rank (svc : Service) {i : Nat} (hi : st.requests[i]? = some a) (e : ChainEvent) :
    ∃ b, (stepChain svc st e).requests[i]? = some b ∧ b.incoming = a.incoming ∧
      min 10 (a.stage.rank + (e.advances i).toNat) ≤ b.stage.rank := by
  obtain ⟨b, hb, ⟨hother, ctxErr, rfl⟩ | ⟨tick, st', rfl, hadv, _⟩⟩ := request_step svc hi e
  · refine ⟨_, hb, rfl, ?_⟩
    rw [hother]
    exact Nat.min_le_right _ _
  · refine ⟨b, hb, hadv.incoming, ?_⟩
    rw [ChainEvent.advances, beq_self_eq_true]
    exact hadv.rank

theorem run_rank (svc : Service) {i : Nat} (hi : st.requests[i]? = some a)
    (events : List ChainEvent) :
    ∃ b, (run (stepChain svc) st events).requests[i]? = some b ∧ b.incoming = a.incoming ∧
      min 10 (a.stage.rank + events.countP (ChainEvent.advances i)) ≤ b.stage.rank := by
  induction events generalizing st a with
  | nil => exact ⟨a, hi, rfl, Nat.min_le_right _ _⟩
  | cons e events ih =>
      obtain ⟨b, hb, hin, hrank⟩ := request_rank svc hi e
      obtain ⟨c, hc, hin', hrank'⟩ := ih hb
      refine ⟨c, hc, hin'.trans hin, ?_⟩
      have hcount : (e :: events).countP (ChainEvent.advances i) =
          events.countP (ChainEvent.advances i) + (e.advances i).toNat := by
        rw [List.countP_cons]
        cases e.advances i <;> rfl
      omega

/-- The mark of a request at its end: no slot, no place on the gauge, a measure and a record. -/
theorem mark_finished {res : Except Code Reply} {duration : Int} {stamp : Time}
    (hs : a.stage = .finished res duration stamp) :
    a.mark =
      ⟨false, false, some (a.measure res duration), some (auditRecord a res duration stamp)⟩ := by
  simp only [Active.mark, hs]

/-- Ten steps of its own bring a request to its end, whatever the others do in
between. -/
theorem finished_run (svc : Service) {i : Nat} (hi : st.requests[i]? = some a)
    (hsteps : 10 ≤ events.countP (ChainEvent.advances i)) :
    ∃ b res duration stamp, (run (stepChain svc) st events).requests[i]? = some b ∧
      b.incoming = a.incoming ∧ b.stage = .finished res duration stamp := by
  obtain ⟨b, hb, hin, hrank⟩ := run_rank svc hi events
  have hend : 10 ≤ b.stage.rank := by omega
  cases hs : b.stage with
  | finished res duration stamp => exact ⟨b, res, duration, stamp, hb, hin, hs⟩
  | entered | bounded | holding | authorized | ready | returned _ | released _ | answered _
  | left _ _ | counted _ _ =>
      rw [hs] at hend
      simp [Stage.rank] at hend

/-- What the account says of a request at its end: slots and gauge are those of
the other requests, the counters have its measure beside theirs, the log has
its record beside theirs. -/
structure Settles (st : Chain) (b : Active) (res : Except Code Reply) (duration : Int)
    (stamp : Time) (others : List Active) : Prop where
  slots : st.semaphore = others.countP fun c => c.mark.slot
  gauge : st.metrics.inFlight = others.countP fun c => c.mark.gauge
  counters : ∀ method code, st.metrics.value method code =
    tally method code (b.measure res duration :: others.filterMap fun c => c.mark.measure)
  records : st.audit.Perm
    (auditRecord b res duration stamp :: others.filterMap fun c => c.mark.record)

theorem settles_of_accounted {b : Active} {res : Except Code Reply} {duration : Int}
    {stamp : Time} {others : List Active} (h : st.Accounted svc)
    (hperm : st.requests.Perm (b :: others)) (hs : b.stage = .finished res duration stamp) :
    Settles st b res duration stamp others := by
  have hacc := Server.Accounted.perm h (hperm.map Active.mark)
  rw [List.map_cons, mark_finished hs] at hacc
  constructor
  · rw [hacc.slots, List.countP_cons_of_neg (by simp), List.countP_map]
    rfl
  · rw [hacc.gauge, List.countP_cons_of_neg (by simp), List.countP_map]
    rfl
  · intro method code
    rw [hacc.counters, List.filterMap_cons, List.filterMap_map]
    rfl
  · have hrecords := hacc.records
    rwa [List.filterMap_cons, List.filterMap_map] at hrecords

/-- The account of requests that are all at their ends. -/
theorem accounted_finished (h : st.Accounted svc)
    (hall : ∀ b ∈ st.requests, ∃ res duration stamp, b.stage = .finished res duration stamp) :
    st.semaphore = 0 ∧ st.metrics.inFlight = 0 ∧ st.audit.length = st.requests.length := by
  have hmarks : ∀ mark ∈ st.requests.map Active.mark,
      mark.slot = false ∧ mark.gauge = false ∧ mark.record.isSome = true := by
    intro mark hmark
    obtain ⟨b, hb, rfl⟩ := List.mem_map.mp hmark
    obtain ⟨res, duration, stamp, hs⟩ := hall b hb
    rw [mark_finished hs]
    exact ⟨rfl, rfl, rfl⟩
  refine ⟨?_, ?_, ?_⟩
  · rw [h.slots, List.countP_eq_zero]
    intro mark hmark
    simp [(hmarks mark hmark).1]
  · rw [h.gauge, List.countP_eq_zero.mpr]
    · rfl
    · intro mark hmark
      simp [(hmarks mark hmark).2.1]
  · rw [h.records.length_eq, List.length_filterMap_eq_countP, List.countP_eq_length.mpr,
      List.length_map]
    exact fun mark hmark => (hmarks mark hmark).2.2

/-- **Every request ends.** In every run of the server and whatever the other
requests do in between, ten steps of its own bring a request to its end: it is
counted once and logged once under its method, its answer and its duration, and
the slots in use are those of the others. Once every request has had its ten
steps, all slots are free, the gauge is at zero and the log has a record for
each. -/
theorem every_request_ends (svc : Service) (setup : List Op) (created : Time)
    (before later : List ChainEvent) :
    (∀ i a, (chainAfter svc setup created before).requests[i]? = some a →
      10 ≤ later.countP (ChainEvent.advances i) →
      ∃ b res duration stamp others,
        (chainAfter svc setup created (before ++ later)).requests[i]? = some b ∧
        b.incoming = a.incoming ∧ b.stage = .finished res duration stamp ∧
        (chainAfter svc setup created (before ++ later)).requests.Perm (b :: others) ∧
        Settles (chainAfter svc setup created (before ++ later)) b res duration stamp others) ∧
    ((∀ i < (chainAfter svc setup created (before ++ later)).requests.length,
        i < (chainAfter svc setup created before).requests.length ∧
        10 ≤ later.countP (ChainEvent.advances i)) →
      (chainAfter svc setup created (before ++ later)).semaphore = 0 ∧
      (chainAfter svc setup created (before ++ later)).metrics.inFlight = 0 ∧
      (chainAfter svc setup created (before ++ later)).audit.length =
        (chainAfter svc setup created (before ++ later)).requests.length) := by
  have hacc := accounted_run svc setup created (before ++ later)
  have hrun : chainAfter svc setup created (before ++ later) =
      run (stepChain svc) (chainAfter svc setup created before) later := run_append ..
  constructor
  · intro i a hi hsteps
    obtain ⟨b, res, duration, stamp, hb, hin, hs⟩ := finished_run svc hi hsteps
    rw [← hrun] at hb
    obtain ⟨others, hperm, _⟩ := set_perm_of_getElem? hb
    exact ⟨b, res, duration, stamp, others, hb, hin, hs, hperm,
      settles_of_accounted hacc hperm hs⟩
  · intro hall
    refine accounted_finished hacc fun b hb => ?_
    obtain ⟨i, hlt, hget⟩ := List.mem_iff_getElem.mp hb
    obtain ⟨hthere, hsteps⟩ := hall i hlt
    obtain ⟨b', res, duration, stamp, hb', _, hs⟩ :=
      finished_run svc (List.getElem?_eq_getElem hthere) hsteps
    rw [← hrun, List.getElem?_eq_getElem hlt, hget] at hb'
    cases hb'
    exact ⟨res, duration, stamp, hs⟩

/-- The two requests in turns: the revocation is turned away, the insert takes
its course, and after ten steps of its own either is at its end. -/
def deskTurns : List ChainEvent :=
  (List.replicate 10 [ChainEvent.advance 0 deskTick, .advance 1 deskTick]).flatten

theorem every_request_ends_desk :
    (∃ b res duration stamp others,
      b.stage = .finished res duration stamp ∧
      Settles (chainAfter deskService deskSetup deskCreated (deskArrivals ++ deskTurns)) b res
        duration stamp others) ∧
    (chainAfter deskService deskSetup deskCreated (deskArrivals ++ deskTurns)).semaphore = 0 := by
  have hthere :
      (chainAfter deskService deskSetup deskCreated deskArrivals).requests.length = 2 := by
    decide +kernel
  have hstay : (chainAfter deskService deskSetup deskCreated
      (deskArrivals ++ deskTurns)).requests.length = 2 := by
    decide +kernel
  have hsteps : ∀ i < 2, 10 ≤ deskTurns.countP (ChainEvent.advances i) := by decide +kernel
  have hends := every_request_ends deskService deskSetup deskCreated deskArrivals deskTurns
  obtain ⟨a, ha⟩ : ∃ a,
      (chainAfter deskService deskSetup deskCreated deskArrivals).requests[1]? = some a :=
    ⟨_, List.getElem?_eq_getElem (by omega)⟩
  obtain ⟨b, res, duration, stamp, others, _, _, hs, _, hsettles⟩ :=
    hends.1 1 a ha (hsteps 1 (by decide))
  refine ⟨⟨b, res, duration, stamp, others, hs, hsettles⟩, (hends.2 ?_).1⟩
  rw [hstay, hthere]
  exact fun i hi => ⟨hi, hsteps i hi⟩

end KoraDB.Server
