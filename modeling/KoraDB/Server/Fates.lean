import KoraDB.Server.Mediation

/-!
# What becomes of a request

Of the interceptor chain, the other requests and the clocks a client sees no
more than what becomes of its own request. That is little: the handler never
runs and the answer is an error; or it runs once, and the answer is its answer
or, when the deadline has taken that back, an error. `request_fate` says so of
every request in every run of the chain, whatever the order of events.
-/

namespace KoraDB.Server

open KoraDB.Base KoraDB.Catalog KoraDB.Schema KoraDB.Engine KoraDB.System

inductive Fate
  /-- It is stopped before it has any effect: by the connection, the deadline or
  an interceptor, or by a context that is over. -/
  | refused (code : Code)
  | served
  /-- Its handler runs, and its answer does not arrive. -/
  | lost (code : Code)

/-- The database and the answer, from those of the handler. -/
def Fate.outcome {α : Type} (r : Registry) (handled : Registry × Except Code α) :
    Fate → Registry × Except Code α
  | .refused code => (r, .error code)
  | .served => handled
  | .lost code => (handled.1, .error code)

/-- An answer may be taken back for an error. -/
theorem Fate.outcome_error {α : Type} (fate : Fate) (r : Registry)
    (handled : Registry × Except Code α) (code : Code) :
    ∃ fate' : Fate, fate'.outcome r handled = ((fate.outcome r handled).1, .error code) := by
  cases fate with
  | refused _ => exact ⟨.refused code, rfl⟩
  | served | lost _ => exact ⟨.lost code, rfl⟩

/-- A run of a handler: the database before it, what it read, and the database
behind it. -/
structure HandlerRun where
  before : Registry
  inputs : Inputs
  after : Registry

/-- The runs of the handler of request `i`. -/
def runsOf (svc : Service) (i : Nat) (st : Chain) : ChainEvent → List HandlerRun
  | .advance j tick =>
    if j = i ∧ (st.requests[i]?).any (·.stage.isReady) = true then
      [⟨st.registry, tick.inputs, (stepChain svc st (.advance j tick)).registry⟩]
    else []
  | .arrive _ _ _ _ | .expire _ _ => []

/-- What the handler of a request does, with its answer as a reply. -/
def Incoming.handled (host : Host) (inc : Incoming) (r : Registry) (inputs : Inputs) :
    Registry × Except Code Reply :=
  let (r', res) := handle host r inputs inc.method inc.request
  (r', res.map (Reply.mk inc.method))

/-- The answer is that of the only run of the handler, or an error. -/
inductive Settled (host : Host) (inc : Incoming) : List HandlerRun → Except Code Reply → Prop
  | refused (code : Code) : Settled host inc [] (.error code)
  | ran (fate : Fate) (r : Registry) (inputs : Inputs) {r' : Registry}
      {res : Except Code Reply} (h : fate.outcome r (inc.handled host r inputs) = (r', res)) :
      Settled host inc [⟨r, inputs, r'⟩] res

/-- Before it has an answer, the handler of a request has not run. -/
structure Tracked (host : Host) (a : Active) (runs : List HandlerRun) : Prop where
  before : a.stage.result? = none → runs = []
  behind : ∀ res, a.stage.result? = some res → Settled host a.incoming runs res

variable {svc : Service} {st st' : Chain} {a b : Active} {tick : Tick} {setup : List Op}
  {created : Time} {events : List ChainEvent} {runs : List HandlerRun}

/-- The deadline leaves an answer or takes it back. -/
theorem Settled.deadline {host : Host} {inc : Incoming} {res : Except Code Reply}
    (h : Settled host inc runs res) (derived : Bool) (ctxErr : Option Query.CtxErr) :
    Settled host inc runs (deadlineAnswer derived ctxErr res) := by
  unfold deadlineAnswer
  split
  · rename_i e
    cases h with
    | refused code => exact .refused _
    | ran fate r inputs h =>
        obtain ⟨fate', hfate'⟩ :=
          fate.outcome_error r (inc.handled host r inputs) (fromContextError e)
        rw [h] at hfate'
        exact .ran fate' r inputs hfate'
  · exact h

/-- A run of the handler settles the request. -/
theorem settled_handled {res : Except Code a.incoming.method.Response} {registry : Registry}
    (h : handleContext svc.host st.registry tick.inputs (a.readings tick) tick.givesUp
      a.incoming.method a.incoming.request = (registry, res)) :
    Settled svc.host a.incoming [⟨st.registry, tick.inputs, registry⟩]
      (res.map (Reply.mk a.incoming.method)) := by
  rcases handleContext_cases svc.host st.registry tick.inputs (a.readings tick) tick.givesUp
    a.incoming.method a.incoming.request with hplain | ⟨k, e, _, hctx⟩
  · refine .ran .served st.registry tick.inputs ?_
    rw [h] at hplain
    show Incoming.handled svc.host a.incoming st.registry tick.inputs = _
    rw [Incoming.handled, ← hplain]
  · rw [h] at hctx
    cases hctx
    exact .ran (.refused (fromContextError e)) st.registry tick.inputs rfl

theorem tracked_idle (h : a.stage.result? = none) : Tracked svc.host a [] := by
  refine ⟨fun _ => rfl, fun res hres => ?_⟩
  rw [h] at hres
  cases hres

theorem Tracked.settled {res : Except Code Reply} (hres : b.stage.result? = some res)
    (h : Settled svc.host b.incoming runs res) : Tracked svc.host b runs := by
  refine ⟨fun hnone => ?_, fun res' hres' => ?_⟩
  · rw [hres] at hnone
    cases hnone
  · rw [hres] at hres'
    cases hres'
    exact h

/-- What a step of the request adds to the runs of its handler. -/
theorem tracked_advances (htracked : Tracked svc.host a runs) (h : Advances svc st a tick st' b) :
    Tracked svc.host b
      (runs ++ if a.stage.isReady then [⟨st.registry, tick.inputs, st'.registry⟩] else []) := by
  have hbefore : ∀ {s : Stage}, a.stage = s → s.result? = none → runs = [] :=
    fun hs hnone => htracked.before (hs ▸ hnone)
  have hbehind : ∀ {s : Stage} {res : Except Code Reply}, a.stage = s → s.result? = some res →
      Settled svc.host a.incoming runs res := fun hs hres => htracked.behind _ (hs ▸ hres)
  have hquiet : ∀ {s : Stage}, a.stage = s → s.isReady = false →
      (runs ++ if a.stage.isReady then [⟨st.registry, tick.inputs, st'.registry⟩] else []) =
        runs := by
    intro s hs hnot
    rw [hs, hnot]
    exact List.append_nil runs
  cases h with
  | lapsed hs _ | full hs _ | denied hs _ _ | limited hs _ =>
      rw [hbefore hs rfl, hs]
      exact .settled rfl (.refused _)
  | bounded hs _ | acquired hs _ | authorized hs _ _ | unchecked hs _ | ready hs _ =>
      rw [hbefore hs rfl, hs]
      exact tracked_idle rfl
  | handled hs h =>
      have hsettled := settled_handled h
      rw [hbefore hs rfl, hs]
      exact .settled rfl hsettled
  | released hs | left hs | counted hs | logged hs =>
      have hsettled := hbehind hs rfl
      rw [hquiet hs rfl]
      exact .settled rfl hsettled
  | answered hs =>
      have hsettled := hbehind hs rfl
      rw [hquiet hs rfl]
      exact .settled rfl (hsettled.deadline _ _)
  | ended hs =>
      rw [hquiet hs rfl]
      exact htracked

/-- A request that is not there has had no handler run. -/
structure Watched (svc : Service) (i : Nat) (st : Chain) (runs : List HandlerRun) : Prop where
  absent : st.requests[i]? = none → runs = []
  present : ∀ a, st.requests[i]? = some a → Tracked svc.host a runs

theorem watched_step {i : Nat} (h : Watched svc i st runs) (e : ChainEvent) :
    Watched svc i (stepChain svc st e) (runs ++ runsOf svc i st e) := by
  cases hi : st.requests[i]? with
  | none =>
      have hquiet : runsOf svc i st e = [] := by
        cases e with
        | arrive _ _ _ _ | expire _ _ => rfl
        | advance j tick => rw [runsOf, if_neg (by simp [hi])]
      rw [hquiet, h.absent hi, List.append_nil]
      refine ⟨fun _ => rfl, fun b hb => ?_⟩
      exact tracked_idle (by rw [request_new hi hb]; rfl)
  | some a =>
      have htracked := h.present a hi
      obtain ⟨b, hb, ⟨hother, ctxErr, rfl⟩ | ⟨tick, st', rfl, hadv, hnext⟩⟩ := request_step svc hi e
      · have hquiet : runsOf svc i st e = [] := by
          cases e with
          | arrive _ _ _ _ | expire _ _ => rfl
          | advance j tick =>
              rw [runsOf, if_neg]
              rintro ⟨rfl, _⟩
              simp [ChainEvent.advances] at hother
        rw [hquiet, List.append_nil]
        refine ⟨fun hnone => ?_, fun b' hb' => ?_⟩
        · rw [hb] at hnone
          cases hnone
        · rw [hb] at hb'
          cases hb'
          exact ⟨htracked.before, htracked.behind⟩
      · have hruns : runsOf svc i st (.advance i tick) =
            if a.stage.isReady then [⟨st.registry, tick.inputs, st'.registry⟩] else [] := by
          rw [runsOf, hnext, hi]
          simp
        rw [hruns]
        refine ⟨fun hnone => ?_, fun b' hb' => ?_⟩
        · rw [hb] at hnone
          cases hnone
        · rw [hb] at hb'
          cases hb'
          exact tracked_advances htracked hadv

theorem watched_run (svc : Service) (setup : List Op) (created : Time) (i : Nat)
    (events : List ChainEvent) :
    Watched svc i (chainAfter svc setup created events)
      (observed (stepChain svc) (runsOf svc i) (Chain.start svc setup created) events) := by
  induction events using List.reverseRecOn with
  | nil => exact ⟨fun _ => rfl, fun a ha => by cases ha⟩
  | append_singleton events e ih =>
      rw [chainAfter_concat, observed_concat]
      exact watched_step ih e

/-- **The fate of a request.** In every run of the chain, a request that has an
answer had its handler run once or not at all. If not, the answer is an error.
If it did, the answer and the database right behind that run are what one of the
fates makes of the handler: refused without an effect, served, or served in
vain. -/
theorem request_fate {i : Nat} {inc : Incoming} {res : Except Code Reply}
    (h : (chainAfter svc setup created events).At i inc fun s => s.result? = some res) :
    let runs := observed (stepChain svc) (runsOf svc i) (Chain.start svc setup created) events
    (runs = [] ∧ ∃ code, res = .error code) ∨
      ∃ (fate : Fate) (run : HandlerRun), runs = [run] ∧
        fate.outcome run.before (inc.handled svc.host run.before run.inputs) =
          (run.after, res) := by
  intro runs
  obtain ⟨a, ha, rfl, hres⟩ := h
  have hsettled := ((watched_run svc setup created i events).present a ha).behind res hres
  generalize hruns :
    observed (stepChain svc) (runsOf svc i) (Chain.start svc setup created) events = runs'
      at hsettled
  cases hsettled with
  | refused code => exact .inl ⟨hruns, code, rfl⟩
  | ran fate r inputs h => exact .inr ⟨fate, _, hruns, h⟩

/-- The revocation that the full desk turns away: its handler has not run. -/
theorem request_fate_desk :
    ∃ a code,
      (chainAfter deskService deskSetup deskCreated (deskArrivals ++ deskTurns)).requests[1]? =
        some a ∧ a.stage.result? = some (.error code) ∧
      observed (stepChain deskService) (runsOf deskService 1)
        (Chain.start deskService deskSetup deskCreated) (deskArrivals ++ deskTurns) = [] := by
  have hends : ((chainAfter deskService deskSetup deskCreated
      (deskArrivals ++ deskTurns)).requests[1]?.map fun a => a.stage.result?.isSome) =
      some true := by
    decide +kernel
  have hquiet : (observed (stepChain deskService) (runsOf deskService 1)
      (Chain.start deskService deskSetup deskCreated) (deskArrivals ++ deskTurns)).length = 0 := by
    decide +kernel
  obtain ⟨a, ha, hsome⟩ := Option.map_eq_some_iff.mp hends
  obtain ⟨res, hres⟩ := Option.isSome_iff_exists.mp hsome
  rcases request_fate ⟨a, ha, rfl, hres⟩ with ⟨hnone, code, rfl⟩ | ⟨_, run, hone, _⟩
  · exact ⟨a, code, ha, hres, hnone⟩
  · rw [hone] at hquiet
    cases hquiet

end KoraDB.Server
