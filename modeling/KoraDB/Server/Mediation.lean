import KoraDB.Server.Pipeline

/-!
# What stands before a handler

Three consequences of the way through the chain, for every interleaving:

* a successful answer goes back, step by step, to a check of the caller's key
  (but for the public health method), a token of the rate limit (where there is
  one) and a run of the handler, in this order, and it is the answer of that
  handler (`success_mediated`);
* to the database a secured chain looks like the server of `Server.Authority`,
  where a request is checked in one step and served in another
  (`chain_refines_server`);
* between two moments no more handlers run than concurrency limit, burst and
  rate allow together (`handlers_bounded`).
-/

namespace KoraDB.Server

open KoraDB.Base KoraDB.Catalog KoraDB.Schema KoraDB.Engine KoraDB.System

variable {svc : Service} {st st' : Chain} {a a' b : Active} {tick : Tick} {setup : List Op}
  {created : Time} {events : List ChainEvent}

/-! ## Causes -/

/-- Request `i` came in as `inc` and is at a stage of the kind. -/
def Chain.At (st : Chain) (i : Nat) (inc : Incoming) (kind : Stage → Prop) : Prop :=
  ∃ a, st.requests[i]? = some a ∧ a.incoming = inc ∧ kind a.stage

/-- A request that has come to a stage came to it by a step of its own, since
no request starts there. -/
theorem exists_advance {i : Nat} {inc : Incoming} {kind : Stage → Prop}
    (hentered : ¬ kind .entered) (h : (chainAfter svc setup created events).At i inc kind) :
    ∃ before tick after a b st', events = before ++ .advance i tick :: after ∧
      (chainAfter svc setup created before).requests[i]? = some a ∧ a.incoming = inc ∧
      ¬ kind a.stage ∧ kind b.stage ∧
      Advances svc (chainAfter svc setup created before) a tick st' b ∧
      (chainAfter svc setup created (before ++ [.advance i tick])).registry = st'.registry ∧
      (chainAfter svc setup created (before ++ [.advance i tick])).bucket = st'.bucket := by
  have hstart : ¬ (Chain.start svc setup created).At i inc kind := by
    rintro ⟨a, ha, _⟩
    cases ha
  obtain ⟨before, e, after, rfl, hnot, b, hb, hinc, hkind⟩ :=
    exists_step (P := fun st => Chain.At st i inc kind) hstart h
  change ¬ (chainAfter svc setup created before).At i inc kind at hnot
  change (stepChain svc (chainAfter svc setup created before) e).requests[i]? = some b at hb
  rcases request_origin hb with hnew | ⟨a, ha, ⟨ctxErr, rfl⟩ | ⟨tick, st', rfl, hadv, hnext⟩⟩
  · rw [hnew] at hkind
    exact absurd hkind hentered
  · -- a change of the context brings a request nowhere
    exact absurd ⟨a, ha, hinc, hkind⟩ hnot
  · refine ⟨before, tick, after, a, b, st', rfl, ha, hadv.incoming.symm.trans hinc,
      fun hk => hnot ⟨a, ha, hadv.incoming.symm.trans hinc, hk⟩, hkind, hadv, ?_⟩
    rw [chainAfter_concat, hnext]
    exact ⟨rfl, rfl⟩

/-- The answer that a request has at a stage. -/
def Stage.result? : Stage → Option (Except Code Reply)
  | .returned res | .released res | .answered res | .left res _ | .counted res _
  | .finished res _ _ => some res
  | .entered | .bounded | .holding | .authorized | .ready => none

/-- The request is on its way back with this success. -/
def Stage.Gives (reply : Reply) (s : Stage) : Prop := s.result? = some (.ok reply)

/-- The request is on its way back with a success. -/
def Stage.succeeds (s : Stage) : Bool := s.result?.any Except.isOk

theorem Stage.exists_gives {s : Stage} (h : s.succeeds = true) : ∃ reply, s.Gives reply := by
  obtain ⟨res, hres, hok⟩ := (Option.any_eq_true _ _).mp h
  cases res with
  | error code => cases hok
  | ok reply => exact ⟨reply, hres⟩

/-- The deadline withdraws answers and makes none. -/
theorem deadlineAnswer_eq_ok {α : Type} {derived : Bool} {ctxErr : Option Query.CtxErr}
    {res : Except Code α} {v : α} (h : deadlineAnswer derived ctxErr res = .ok v) :
    res = .ok v := by
  unfold deadlineAnswer at h
  split at h
  · cases h
  · exact h

/-- A success comes from the handler. -/
theorem Advances.gives {reply : Reply} (h : Advances svc st a tick st' a')
    (hnot : ¬ a.stage.Gives reply) (hgives : a'.stage.Gives reply) :
    a.stage = .ready ∧ ∃ response, reply = ⟨a.incoming.method, response⟩ ∧
      handleContext svc.host st.registry tick.inputs (a.readings tick) tick.givesUp
        a.incoming.method a.incoming.request = (st'.registry, .ok response) := by
  cases h with
  | @handled registry res hs h =>
      obtain ⟨response, rfl, rfl⟩ := map_eq_ok_iff.mp (Option.some.inj hgives)
      exact ⟨hs, response, rfl, h⟩
  | released hs | left hs | counted hs | logged hs =>
      rw [hs] at hnot
      exact absurd hgives hnot
  | answered hs =>
      rw [hs] at hnot
      exact absurd (congrArg some (deadlineAnswer_eq_ok (Option.some.inj hgives))) hnot
  | ended hs => exact absurd hgives hnot
  | lapsed _ _ | full _ _ | denied _ _ _ | limited _ _ => cases hgives
  | bounded _ _ | acquired _ _ | authorized _ _ _ | unchecked _ _ | ready _ _ => cases hgives

/-- A request gets ready by a pass of the rate limit. -/
theorem Advances.getsReady (h : Advances svc st a tick st' a') (hnot : a.stage ≠ .ready)
    (hready : a'.stage = .ready) :
    a.stage = .authorized ∧ st.bucket.allow tick.now = (st'.bucket, true) := by
  cases h with
  | ready hs h => exact ⟨hs, rateLimitInterceptor_eq_ok h⟩
  | ended hs => exact absurd hready hnot
  | lapsed _ _ | full _ _ | denied _ _ _ | limited _ _ | bounded _ _ | acquired _ _
  | authorized _ _ _ | unchecked _ _ | handled _ _ | released _ | answered _ | left _ | counted _
  | logged _ => cases hready

/-- A request of a secured server is authorized by the check. -/
theorem Advances.getsAuthorized (hsecure : svc.secure = true) (h : Advances svc st a tick st' a')
    (hnot : a.stage ≠ .authorized) (hauth : a'.stage = .authorized) :
    ∃ p, authInterceptor svc.host.sha256 st.registry.store tick.now a.incoming.method.fullName
      a.incoming.metadata = .ok p := by
  cases h with
  | authorized _ _ h => exact ⟨_, h⟩
  | unchecked _ hoff =>
      rw [hsecure] at hoff
      cases hoff
  | ended hs => exact absurd hauth hnot
  | lapsed _ _ | full _ _ | denied _ _ _ | limited _ _ | bounded _ _ | acquired _ _
  | ready _ _ | handled _ _ | released _ | answered _ | left _ | counted _ | logged _ => cases hauth

/-- No step changes the rate. -/
theorem Advances.rate (h : Advances svc st a tick st' a') : st'.bucket.rate = st.bucket.rate := by
  cases h with
  | limited _ h | ready _ h =>
      have hrate := st.bucket.allow_rate tick.now
      rw [← rateLimitInterceptor_bucket, h] at hrate
      exact hrate
  | lapsed _ _ | full _ _ | denied _ _ _ | bounded _ _ | acquired _ _ | authorized _ _ _
  | unchecked _ _ | handled _ _ | released _ | answered _ | left _ | counted _ | logged _
  | ended _ => rfl

theorem chainAfter_rate (svc : Service) (setup : List Op) (created : Time)
    (events : List ChainEvent) :
    (chainAfter svc setup created events).bucket.rate =
      (newTokenBucket svc.requestsPerSecond svc.burst created).rate := by
  refine run_kept (P := fun st : Chain => st.bucket.rate = _) rfl fun st e _ h => ?_
  have hstep := stepChain_steps svc st e
  generalize stepChain svc st e = next at hstep
  cases hstep with
  | idle _ | arrived _ | expired _ => exact h
  | advanced _ hadv => exact hadv.rate.trans h

/-- What the check asks of a request, with the key store and the clock of its
step: nothing on the public health method, and elsewhere the token of a live key
whose role suffices for the method. -/
def Checked (sha256 : Bytes → Bytes) (s : Store) (now : Time) (inc : Incoming) : Prop :=
  inc.method.fullName = healthCheckMethod ∨
    ∃ token rec need, bearerToken inc.metadata = .ok token ∧ LiveKey sha256 s now token rec ∧
      Auth.requiredRole inc.method.fullName = some need ∧ need ≤ rec.role

/-- What a pass of the rate limit makes of the bucket: nothing where the limit is
off, and elsewhere it takes a whole token out of the refilled bucket. -/
def PassesLimit (svc : Service) (now : Time) (bucket bucket' : TokenBucket) : Prop :=
  (svc.requestsPerSecond ≤ 0 ∧ bucket' = bucket) ∨
    (1 ≤ bucket.refilled now ∧
      bucket' = { bucket with tokens := bucket.refilled now - 1, refreshed := now })

theorem passesLimit_of_allow {bucket : TokenBucket}
    (h : (chainAfter svc setup created events).bucket.allow tick.now = (bucket, true)) :
    PassesLimit svc tick.now (chainAfter svc setup created events).bucket bucket := by
  rcases TokenBucket.allow_eq_true h with ⟨hoff, rfl⟩ | htoken
  · rw [chainAfter_rate, newTokenBucket_rate_nonpos] at hoff
    exact .inl ⟨hoff, rfl⟩
  · exact .inr htoken

/-- **Complete mediation.** In every run of a secured server, a request that is
answered with success came past the check, then past the rate limit, and then
had its handler run, each by a step of its own in a state of that moment. Unless
its method is the public health method, the check found the token of a live key
with a sufficient role in the store; unless the rate limit is off, the request
took a token out of the bucket; and the answer is what the handler gave, whose
effect is on the database. -/
theorem success_mediated (hsecure : svc.secure = true) {i : Nat} {inc : Incoming} {reply : Reply}
    (h : (chainAfter svc setup created events).At i inc (Stage.Gives reply)) :
    ∃ (before mid mid' after : List ChainEvent) (t₁ t₂ t₃ : Tick)
      (response : inc.method.Response),
      events =
        before ++ .advance i t₁ :: (mid ++ .advance i t₂ :: (mid' ++ .advance i t₃ :: after)) ∧
      Checked svc.host.sha256 (chainAfter svc setup created before).registry.store t₁.now inc ∧
      PassesLimit svc t₂.now (chainAfter svc setup created (before ++ .advance i t₁ :: mid)).bucket
        (chainAfter svc setup created
          (before ++ .advance i t₁ :: (mid ++ [.advance i t₂]))).bucket ∧
      reply = ⟨inc.method, response⟩ ∧
      handle svc.host
          (chainAfter svc setup created
            (before ++ .advance i t₁ :: (mid ++ .advance i t₂ :: mid'))).registry
          t₃.inputs inc.method inc.request =
        ((chainAfter svc setup created
            (before ++ .advance i t₁ ::
              (mid ++ .advance i t₂ :: (mid' ++ [.advance i t₃])))).registry,
          .ok response) := by
  -- back from the answer to the handler, from there to the limit, from there to the check
  obtain ⟨before₃, t₃, after, a₃, _, st₃, rfl, ha₃, rfl, hnot₃, hgives, hadv₃, hreg₃, _⟩ :=
    exists_advance (by simp [Stage.Gives, Stage.result?]) h
  obtain ⟨hs₃, response, rfl, hhandle⟩ := hadv₃.gives hnot₃ hgives
  have hready : (chainAfter svc setup created before₃).At i a₃.incoming (· = .ready) :=
    ⟨a₃, ha₃, rfl, hs₃⟩
  obtain ⟨before₂, t₂, mid', a₂, _, _, rfl, ha₂, hinc₂, hnot₂, hready₂, hadv₂, _, hbucket₂⟩ :=
    exists_advance (by simp) hready
  obtain ⟨hs₂, hpass⟩ := hadv₂.getsReady hnot₂ hready₂
  rw [← hbucket₂] at hpass
  have hauth : (chainAfter svc setup created before₂).At i a₃.incoming (· = .authorized) :=
    ⟨a₂, ha₂, hinc₂, hs₂⟩
  obtain ⟨before₁, t₁, mid, a₁, _, _, rfl, ha₁, hinc₁, hnot₁, hauth₁, hadv₁, _⟩ :=
    exists_advance (by simp) hauth
  obtain ⟨p, hp⟩ := hadv₁.getsAuthorized hsecure hnot₁ hauth₁
  rw [hinc₁] at hp
  have hchecked := (authInterceptor_eq_ok hp).imp_left beq_iff_eq.mp
  have hlimit := passesLimit_of_allow hpass
  simp only [List.append_assoc, List.cons_append] at hlimit
  refine ⟨before₁, mid, mid', after, t₁, t₂, t₃, response, by simp, hchecked, hlimit, rfl, ?_⟩
  rcases handleContext_cases svc.host _ t₃.inputs (a₃.readings t₃) t₃.givesUp a₃.incoming.method
    a₃.incoming.request with hsame | ⟨_, _, _, hcut⟩
  · rw [hhandle] at hsame
    simp only [List.append_assoc, List.cons_append] at hsame hreg₃
    rw [← hsame, ← hreg₃]
  · -- a handler that its context has cut off gives no answer
    rw [hhandle] at hcut
    cases congrArg Prod.snd hcut

theorem deskService_secure : deskService.secure = true := rfl

/-- The insert, alone on the slot, succeeds. -/
theorem success_mediated_desk :
    ∃ inc reply before mid mid' after t₁ t₂ t₃,
      (chainAfter deskService deskSetup deskCreated (deskArrivals ++ deskTurns)).At 0 inc
        (Stage.Gives reply) ∧
      deskArrivals ++ deskTurns = before ++ .advance 0 t₁ ::
        (mid ++ .advance 0 t₂ :: (mid' ++ .advance 0 t₃ :: after)) ∧
      Checked deskHost.sha256 (chainAfter deskService deskSetup deskCreated before).registry.store
        t₁.now inc := by
  have hruns : ((chainAfter deskService deskSetup deskCreated
      (deskArrivals ++ deskTurns)).requests[0]?.map fun a => a.stage.succeeds) = some true := by
    decide +kernel
  obtain ⟨a, ha, hsucceeds⟩ := Option.map_eq_some_iff.mp hruns
  obtain ⟨reply, hgives⟩ := Stage.exists_gives hsucceeds
  obtain ⟨before, mid, mid', after, t₁, t₂, t₃, _, hevents, hchecked, _⟩ :=
    success_mediated deskService_secure ⟨a, ha, rfl, hgives⟩
  exact ⟨a.incoming, reply, before, mid, mid', after, t₁, t₂, t₃, ⟨a, ha, rfl, hgives⟩, hevents,
    hchecked⟩

/-! ## The server behind the chain -/

/-- The admission of a request between its check and its handler, if it is
there. -/
def Active.admission (a : Active) : List Admission :=
  match a.stage with
  | .authorized | .ready => [⟨a.incoming.method, a.incoming.request, a.principal⟩]
  | _ => []

/-- The request was read off the wire. -/
def Incoming.Received (t : Transport) (inc : Incoming) : Prop :=
  ∃ req : Request, t.route req.path = some inc.method ∧
    t.unmarshal inc.method req.body = some inc.request ∧ req.metadata = inc.metadata

/-- The server that has checked the requests between check and handler, and
maybe more that never got to theirs. -/
structure Follows (svc : Service) (st : Chain) (server : State) : Prop where
  registry : st.registry = server.registry
  waiting : (st.requests.flatMap Active.admission).Subperm server.waiting
  received : ∀ a ∈ st.requests, a.incoming.Received svc.transport

/-- The principal the handler runs for is the one the audit log names. -/
theorem heldPrincipal_of_ok {sha256 : Bytes → Bytes} {s : Store} {now : Time} {name : Bytes}
    {md : Metadata} {p : Option Auth.Principal} (h : authInterceptor sha256 s now name md = .ok p) :
    heldPrincipal sha256 s now name md = p := by
  unfold authInterceptor at h
  unfold heldPrincipal
  by_cases hhealth : isPublicHealthMethod name = true
  · rw [if_pos hhealth] at h ⊢
    cases h
    rfl
  · rw [if_neg hhealth] at h ⊢
    simp only [bind_eq_ok_iff, wrap_eq_ok_iff, pure, Except.pure, Except.ok.injEq] at h
    obtain ⟨token, htoken, principal, hauth, _, _, rfl⟩ := h
    simp only [htoken, hauth, Except.toOption]

/-- A request that passes the check would be let in by the server. -/
theorem receive_of_authorized {s : Store} {p : Option Auth.Principal} {inc : Incoming}
    (hreceived : inc.Received svc.transport)
    (h : authInterceptor svc.host.sha256 s tick.now inc.method.fullName inc.metadata = .ok p) :
    ∃ req, receive svc.transport svc.host.sha256 s req tick.now =
      .ok ⟨inc.method, inc.request, p⟩ := by
  obtain ⟨req, hroute, hbody, hmd⟩ := hreceived
  refine ⟨req, ?_⟩
  unfold receive
  rw [hroute, orErr_some, ok_bind, hbody, orErr_some, ok_bind, hmd, h]
  rfl

theorem admission_ready (hs : a.stage = .ready) :
    a.admission = [⟨a.incoming.method, a.incoming.request, a.principal⟩] := by
  simp only [Active.admission, hs]

theorem admission_ctxErr (a : Active) (ctxErr : Option Query.CtxErr) :
    Active.admission { a with ctxErr := ctxErr } = a.admission := by
  unfold Active.admission
  cases a.stage <;> rfl

/-- One step of a request, and the event of the server it is, if any. -/
theorem follows_advances (hsecure : svc.secure = true) {server : State} {rest : List Admission}
    (hregistry : st.registry = server.registry)
    (hwaiting : (a.admission ++ rest).Subperm server.waiting)
    (hreceived : a.incoming.Received svc.transport) (h : Advances svc st a tick st' a') :
    ∃ chunk : List Event, chunk.length ≤ 1 ∧
      st'.registry = (run (stepServer svc.host svc.transport) server chunk).registry ∧
      (a'.admission ++ rest).Subperm
        (run (stepServer svc.host svc.transport) server chunk).waiting := by
  have hrest : rest.Subperm server.waiting := (List.sublist_append_right _ _).subperm.trans hwaiting
  cases h with
  | @authorized p hs _ h =>
      obtain ⟨req, hreq⟩ := receive_of_authorized hreceived h
      rw [hregistry] at hreq
      refine ⟨[.arrive req tick.now], Nat.le_refl 1, ?_, ?_⟩
      · simp only [run_cons, run_nil, arrive_registry, hregistry]
      · simp only [run_cons, run_nil, stepServer, hreq, Active.admission, heldPrincipal_of_ok h]
        exact ((List.subperm_cons _).mpr hrest).trans
          (List.perm_append_singleton _ _).symm.subperm
  | @handled registry res hs h =>
      rw [admission_ready hs] at hwaiting
      rcases handleContext_cases svc.host st.registry tick.inputs (a.readings tick) tick.givesUp
        a.incoming.method a.incoming.request with hsame | ⟨_, _, _, hcut⟩
      · -- the server serves the admission, wherever it stands in its list
        obtain ⟨j, hj⟩ := List.mem_iff_getElem?.mp (hwaiting.subset List.mem_cons_self)
        refine ⟨[.serve j tick.inputs], Nat.le_refl 1, ?_, ?_⟩
        · rw [run_cons, run_nil, serve_registry hj, ← hregistry, ← hsame, h]
        · have hlt : j < server.waiting.length := (List.getElem?_eq_some_iff.mp hj).1
          have herase := (List.getElem_cons_eraseIdx_perm hlt).symm
          rw [List.getElem?_eq_some_iff.mp hj |>.2] at herase
          simp only [run_cons, run_nil, stepServer, hj]
          exact (List.subperm_cons _).mp (hwaiting.trans herase.subperm)
      · -- a handler that its context has cut off changes nothing
        rw [h] at hcut
        have hunchanged : registry = st.registry := congrArg Prod.fst hcut
        exact ⟨[], Nat.zero_le 1, hunchanged.trans hregistry, hrest⟩
  | unchecked _ hoff =>
      rw [hsecure] at hoff
      cases hoff
  | ready hs _ =>
      refine ⟨[], Nat.zero_le 1, hregistry, ?_⟩
      rw [run_nil]
      simpa only [Active.admission, hs] using hwaiting
  | ended hs => exact ⟨[], Nat.zero_le 1, hregistry, hwaiting⟩
  | lapsed _ _ | full _ _ | denied _ _ _ | limited _ _ | bounded _ _ | acquired _ _
  | released _ | answered _ | left _ | counted _ | logged _ =>
      exact ⟨[], Nat.zero_le 1, hregistry, hrest⟩

/-- Replacing a request replaces its admission. -/
theorem admissions_set {requests : List Active} {i : Nat} (hi : requests[i]? = some a) :
    ∃ rest, (requests.flatMap Active.admission).Perm (a.admission ++ rest) ∧
      ∀ b, ((requests.set i b).flatMap Active.admission).Perm (b.admission ++ rest) := by
  obtain ⟨rest, hold, hnew⟩ := set_perm_of_getElem? hi
  exact ⟨rest.flatMap Active.admission, hold.flatMap_right _, fun b => (hnew b).flatMap_right _⟩

theorem received_set {requests : List Active} {i : Nat}
    (h : ∀ a ∈ requests, a.incoming.Received svc.transport) (hi : requests[i]? = some a)
    (hinc : a'.incoming = a.incoming) :
    ∀ b ∈ requests.set i a', b.incoming.Received svc.transport := by
  intro b hb
  rcases List.mem_or_eq_of_mem_set hb with hb | rfl
  · exact h b hb
  · rw [hinc]
    exact h a (List.mem_of_getElem? hi)

theorem follows_step (hsecure : svc.secure = true) {server : State} (h : Follows svc st server)
    (e : ChainEvent) :
    ∃ chunk : List Event, chunk.length ≤ 1 ∧
      Follows svc (stepChain svc st e) (run (stepServer svc.host svc.transport) server chunk) := by
  have hstep := stepChain_steps svc st e
  generalize stepChain svc st e = next at hstep
  cases hstep with
  | idle _ => exact ⟨[], Nat.zero_le 1, h⟩
  | @arrived req peer deadline now a henter =>
      obtain ⟨m, body, hroute, hbody, rfl⟩ := enter_eq_some henter
      refine ⟨[], Nat.zero_le 1, h.registry, ?_, ?_⟩
      · rw [List.flatMap_append]
        simpa [Active.admission] using h.waiting
      · intro b hb
        rcases List.mem_append.mp hb with hb | hb
        · exact h.received b hb
        · rw [List.mem_singleton.mp hb]
          exact ⟨req, hroute, hbody, rfl⟩
  | @expired i e a hi =>
      obtain ⟨rest, hold, hnew⟩ := admissions_set hi
      refine ⟨[], Nat.zero_le 1, h.registry, ?_, received_set h.received hi rfl⟩
      have hsame := hnew { a with ctxErr := a.ctxErr.or (some e) }
      rw [admission_ctxErr] at hsame
      exact (hsame.trans hold.symm).subperm.trans h.waiting
  | @advanced i tick a a' st' hi hadv =>
      obtain ⟨rest, hold, hnew⟩ := admissions_set hi
      obtain ⟨chunk, hlen, hregistry, hwaiting⟩ :=
        follows_advances hsecure h.registry (hold.symm.subperm.trans h.waiting)
          (h.received a (List.mem_of_getElem? hi)) hadv
      exact ⟨chunk, hlen, hregistry, (hnew a').subperm.trans hwaiting,
        received_set h.received hi hadv.incoming⟩

theorem follows_run (hsecure : svc.secure = true) {server : State} (h : Follows svc st server)
    (events : List ChainEvent) :
    ∃ chunks : List (List Event), chunks.length = events.length ∧ (∀ c ∈ chunks, c.length ≤ 1) ∧
      ∀ n, Follows svc (run (stepChain svc) st (events.take n))
        (run (stepServer svc.host svc.transport) server (chunks.take n).flatten) := by
  induction events generalizing st server with
  | nil =>
      refine ⟨[], rfl, fun c hc => absurd hc List.not_mem_nil, fun n => ?_⟩
      rw [List.take_nil, List.take_nil]
      exact h
  | cons e events ih =>
      obtain ⟨chunk, hlen, hnext⟩ := follows_step hsecure h e
      obtain ⟨chunks, hcount, hlens, hrun⟩ := ih hnext
      refine ⟨chunk :: chunks, by simp [hcount], ?_, ?_⟩
      · intro c hc
        rcases List.mem_cons.mp hc with rfl | hc
        · exact hlen
        · exact hlens c hc
      · intro n
        cases n with
        | zero => exact h
        | succ n =>
            rw [List.take_succ_cons, List.take_succ_cons, List.flatten_cons, run_cons, run_append]
            exact hrun n

/-- **The chain and the server.** Whatever the requests in a secured chain do
and in whatever order, a server that checks and serves them as
`Server.Authority` has it goes along: each event of the chain is at most one of
its events, and after each of them both have the same database, and every
request between its check and its handler is one that server has let in. -/
theorem chain_refines_server (hsecure : svc.secure = true) (setup : List Op) (created : Time)
    (events : List ChainEvent) :
    ∃ chunks : List (List Event), chunks.length = events.length ∧ (∀ c ∈ chunks, c.length ≤ 1) ∧
      ∀ n,
        (chainAfter svc setup created (events.take n)).registry =
          (serverAfter svc.host svc.transport setup (chunks.take n).flatten).registry ∧
        ((chainAfter svc setup created (events.take n)).requests.flatMap Active.admission).Subperm
          (serverAfter svc.host svc.transport setup (chunks.take n).flatten).waiting := by
  have hstart : Follows svc (Chain.start svc setup created)
      ⟨reached svc.host.toWorld setup, []⟩ :=
    ⟨rfl, List.Subperm.refl _, fun a ha => absurd ha List.not_mem_nil⟩
  obtain ⟨chunks, hcount, hlens, hrun⟩ := follows_run hsecure hstart events
  exact ⟨chunks, hcount, hlens, fun n => ⟨(hrun n).registry, (hrun n).waiting⟩⟩

/-- The insert of `deskTurns` is checked by one event of the server and served
by another; the revocation never gets to it. -/
theorem chain_refines_server_desk :
    ∃ chunks : List (List Event), chunks.length = (deskArrivals ++ deskTurns).length ∧
      (chainAfter deskService deskSetup deskCreated (deskArrivals ++ deskTurns)).registry =
        (serverAfter deskHost deskTransport deskSetup chunks.flatten).registry := by
  obtain ⟨chunks, hcount, _, hrun⟩ := chain_refines_server deskService_secure deskSetup
    deskCreated (deskArrivals ++ deskTurns)
  refine ⟨chunks, hcount, ?_⟩
  have hall := (hrun (deskArrivals ++ deskTurns).length).1
  rwa [List.take_length, ← hcount, List.take_length] at hall

/-! ## How many handlers run -/

def Stage.isAuthorized : Stage → Bool
  | .authorized => true
  | _ => false

def Stage.isReady : Stage → Bool
  | .ready => true
  | _ => false

/-- The clock reading of a request that comes to the rate limit. -/
def limiterReading (st : Chain) : ChainEvent → List Time
  | .advance i tick => if (st.requests[i]?).any (·.stage.isAuthorized) then [tick.now] else []
  | _ => []

/-- The request whose handler runs. -/
def handlerRun (st : Chain) : ChainEvent → List Nat
  | .advance i _ => if (st.requests[i]?).any (·.stage.isReady) then [i] else []
  | _ => []

/-- The requests before their handler. -/
def Chain.ready (st : Chain) : Nat := st.requests.countP fun a => a.stage.isReady

theorem ready_set {i : Nat} (hi : st.requests[i]? = some a) (b : Active) :
    (st.requests.set i b).countP (fun a => a.stage.isReady) + a.stage.isReady.toNat =
      st.ready + b.stage.isReady.toNat := by
  obtain ⟨rest, hold, hnew⟩ := set_perm_of_getElem? hi
  unfold Chain.ready
  rw [hold.countP_eq, (hnew b).countP_eq, List.countP_cons, List.countP_cons]
  cases a.stage.isReady <;> cases b.stage.isReady <;> simp

/-- A step takes its reading to the bucket, and a request gets ready by it
exactly when it is admitted. -/
theorem Advances.limiter (h : Advances svc st a tick st' a') :
    st'.bucket = bucketAfter st.bucket (if a.stage.isAuthorized then [tick.now] else []) ∧
    a'.stage.isReady.toNat =
      (admissions st.bucket (if a.stage.isAuthorized then [tick.now] else [])).count true := by
  cases h with
  | limited hs h | ready hs h =>
      rw [hs]
      simp [Stage.isAuthorized, Stage.isReady, bucketAfter, admissions, h, Except.isOk,
        Except.toBool]
  | lapsed hs _ | full hs _ | denied hs _ _ | bounded hs _ | acquired hs _ | authorized hs _ _
  | unchecked hs _ | handled hs _ | released hs | answered hs | left hs | counted hs | logged hs =>
      rw [hs]
      exact ⟨rfl, rfl⟩
  | ended hs =>
      rw [hs]
      exact ⟨rfl, rfl⟩

/-- A token makes a request ready, and a handler takes one that is. -/
theorem limiter_step (svc : Service) (st : Chain) (e : ChainEvent) :
    (stepChain svc st e).bucket = bucketAfter st.bucket (limiterReading st e) ∧
    (stepChain svc st e).ready + (handlerRun st e).length =
      st.ready + (admissions st.bucket (limiterReading st e)).count true := by
  have hstep := stepChain_steps svc st e
  generalize stepChain svc st e = next at hstep
  cases hstep with
  | idle hnone =>
      have hquiet : limiterReading st e = [] ∧ handlerRun st e = [] := by
        cases e with
        | arrive req peer deadline now => exact ⟨rfl, rfl⟩
        | expire i e => exact ⟨rfl, rfl⟩
        | advance i tick =>
            cases hi : st.requests[i]? with
            | none => simp [limiterReading, handlerRun, hi]
            | some a => simpa [ChainEvent.advances] using hnone i a hi
      rw [hquiet.1, hquiet.2]
      exact ⟨rfl, rfl⟩
  | @arrived req peer deadline now a henter =>
      obtain ⟨m, body, _, _, rfl⟩ := enter_eq_some henter
      refine ⟨rfl, ?_⟩
      simp [Chain.ready, handlerRun, limiterReading, admissions, Stage.isReady]
  | @expired i e a hi =>
      have hset := ready_set hi { a with ctxErr := a.ctxErr.or (some e) }
      exact ⟨rfl, Nat.add_right_cancel hset⟩
  | @advanced i tick a a' st' hi hadv =>
      obtain ⟨hbucket, hready⟩ := hadv.limiter
      have hset := ready_set hi a'
      have hreading : limiterReading st (.advance i tick) =
          if a.stage.isAuthorized then [tick.now] else [] := by
        rw [limiterReading, hi]
        rfl
      have hruns : (handlerRun st (.advance i tick)).length = a.stage.isReady.toNat := by
        rw [handlerRun, hi]
        cases hs : a.stage.isReady <;> simp [hs]
      rw [hreading, hruns, ← hready]
      exact ⟨hbucket, hset⟩

theorem limiter_run (svc : Service) (st : Chain) (events : List ChainEvent) :
    (run (stepChain svc) st events).bucket =
      bucketAfter st.bucket (observed (stepChain svc) limiterReading st events) ∧
    (run (stepChain svc) st events).ready +
        (observed (stepChain svc) handlerRun st events).length =
      st.ready +
        (admissions st.bucket (observed (stepChain svc) limiterReading st events)).count true := by
  induction events generalizing st with
  | nil => exact ⟨rfl, rfl⟩
  | cons e events ih =>
      obtain ⟨hbucket, hready⟩ := limiter_step svc st e
      obtain ⟨hbucket', hready'⟩ := ih (stepChain svc st e)
      simp only [observed, run_cons, admissions_append, List.count_append, List.length_append]
      rw [hbucket] at hbucket' hready'
      refine ⟨hbucket'.trans (run_append ..).symm, ?_⟩
      omega

/-- In any sequence of requests, whatever times they read, no more pass than
the burst and the rate up to the latest time allow. -/
theorem admissions_le {r b : ℚ} {bucket : TokenBucket} (h : Limiting r b bucket) {nows : List Time}
    {t : Time} (hstart : seconds bucket.refreshed ≤ seconds t)
    (hle : ∀ now ∈ nows, seconds now ≤ seconds t) :
    ((admissions bucket nows).count true : ℚ) ≤
      b + r * (seconds t - seconds bucket.refreshed) := by
  induction nows using List.reverseRecOn with
  | nil =>
      have hflow := mul_nonneg h.rate_pos.le (sub_nonneg.mpr hstart)
      have hburst := h.burst_ge
      simp only [admissions, List.count_nil, Nat.cast_zero]
      linarith
  | append_singleton nows now ih =>
      have hearlier := ih fun now' hnow' => hle now' (List.mem_append_left _ hnow')
      cases hok : ((bucketAfter bucket nows).allow now).2 with
      | false =>
          -- the last request does not pass, so the bound of the others is enough
          rw [admissions_append, List.count_append]
          simpa [admissions, rateLimitInterceptor_isOk, hok] using hearlier
      | true =>
          have hget : (nows ++ [now])[nows.length]? = some now := by simp
          have hpass : (admissions bucket (nows ++ [now]))[nows.length]? = some true := by
            rw [admissions_get hget, List.take_left', hok]
            rfl
          have hwindow := window_le h (Nat.zero_le _) hget hpass
          have hall : (nows ++ [now]).take (nows.length + 1) = nows ++ [now] :=
            List.take_of_length_le (by simp)
          rw [List.drop_zero, take_admissions, hall] at hwindow
          have hlast := mul_le_mul_of_nonneg_left
            (sub_le_sub_right (hle now (by simp)) (seconds bucket.refreshed)) h.rate_pos.le
          exact hwindow.trans (add_le_add h.tokens_le hlast)

/-- No more requests stand before their handlers than there may be slots. -/
theorem ready_le (svc : Service) (setup : List Op) (created : Time) (events : List ChainEvent) :
    (chainAfter svc setup created events).ready ≤ svc.maxConcurrentRequests.toNat := by
  have hacc := accounted_run svc setup created events
  have hle : (chainAfter svc setup created events).ready ≤
      (chainAfter svc setup created events).semaphore := by
    rw [hacc.slots, List.countP_map]
    refine List.countP_mono_left fun a _ hready => ?_
    cases hs : a.stage <;> simp_all [Stage.isReady, Active.mark]
  by_cases hnone : (chainAfter svc setup created events).semaphore = 0
  · omega
  · have hcap := hacc.capacity (Nat.pos_of_ne_zero hnone)
    omega

/-- **Overload.** Where there is a rate limit, with a rate and a burst of at least
one, from any moment of any run on no more handlers run than the slots for
requests already admitted, the burst, and the rate times the time since the last
reading of the rate limit allow together; the time is the latest that a request
reads there. -/
theorem handlers_bounded (hr : 1 ≤ svc.requestsPerSecond) (hb : 1 ≤ svc.burst)
    (before after : List ChainEvent) {t : Time}
    (hlast : seconds (chainAfter svc setup created before).bucket.refreshed ≤ seconds t)
    (hle : ∀ now ∈ observed (stepChain svc) limiterReading (chainAfter svc setup created before)
      after, seconds now ≤ seconds t) :
    ((observed (stepChain svc) handlerRun (chainAfter svc setup created before) after).length : ℚ) ≤
      svc.maxConcurrentRequests.toNat + (svc.burst + svc.requestsPerSecond *
        (seconds t - seconds (chainAfter svc setup created before).bucket.refreshed)) := by
  have hlimiting : Limiting svc.requestsPerSecond svc.burst
      (chainAfter svc setup created before).bucket := by
    unfold chainAfter
    rw [(limiter_run svc _ before).1]
    exact limiting_after (limiting_new hr hb created) _
  have hruns := (limiter_run svc (chainAfter svc setup created before) after).2
  have hready := ready_le svc setup created before
  have hadmitted := admissions_le hlimiting hlast hle
  have hcount : (observed (stepChain svc) handlerRun (chainAfter svc setup created before)
      after).length ≤ svc.maxConcurrentRequests.toNat +
        (admissions (chainAfter svc setup created before).bucket (observed (stepChain svc)
          limiterReading (chainAfter svc setup created before) after)).count true := by
    omega
  calc ((observed (stepChain svc) handlerRun (chainAfter svc setup created before)
          after).length : ℚ)
      ≤ svc.maxConcurrentRequests.toNat +
          ((admissions (chainAfter svc setup created before).bucket (observed (stepChain svc)
            limiterReading (chainAfter svc setup created before) after)).count true : ℚ) := by
        exact_mod_cast hcount
    _ ≤ _ := by linarith

/-- Two seconds after its creation the bucket of `deskService` may have let six
requests pass, and one more may have been before its handler. -/
theorem handlers_bounded_desk :
    ((observed (stepChain deskService) handlerRun
      (chainAfter deskService deskSetup deskCreated deskArrivals) deskTurns).length : ℚ) ≤
        1 + (2 + 2 * 2) := by
  have hruns : (chainAfter deskService deskSetup deskCreated deskArrivals).bucket.refreshed =
        deskCreated ∧
      observed (stepChain deskService) limiterReading
        (chainAfter deskService deskSetup deskCreated deskArrivals) deskTurns =
          [deskTick.now] := by
    decide +kernel
  obtain ⟨hstart, hreadings⟩ := hruns
  have hsub : seconds deskTick.now - seconds deskCreated = 2 := by
    norm_num [seconds, deskTick, deskCreated, Time.ofUnix, wrap64, Time.unixToInternal]
  have hbound := handlers_bounded (show 1 ≤ deskService.requestsPerSecond by decide)
    (show 1 ≤ deskService.burst by decide) deskArrivals deskTurns
    (show seconds (chainAfter deskService deskSetup deskCreated deskArrivals).bucket.refreshed ≤
      seconds deskTick.now by rw [hstart]; linarith) (by rw [hreadings]; simp)
  rw [hstart, hsub] at hbound
  exact hbound.trans (by norm_num [deskService])

end KoraDB.Server
