import KoraDB.Query.Cancel
import KoraDB.Server.Handlers

/-!
# Handlers and the context of their request (`internal/server/server.go`)

Two handlers pass the context on: `Query` to the executor, which polls it, and
`PutSchema` to the compiler, which may give up once the context is over. The
others never look at it. So a handler answers as it does without a context, or
with the code of the context's error and without a change (`handleContext_cases`).
-/

namespace KoraDB.Server

open KoraDB.Base KoraDB.Base.PollM KoraDB.Proto KoraDB.Catalog KoraDB.Schema KoraDB.Engine
  KoraDB.System

/-- `status.FromContextError`, and `toStatus` on an error of the context. -/
def fromContextError : Query.CtxErr → Code
  | .canceled => .canceled
  | .deadlineExceeded => .deadlineExceeded

/-- The answer of a handler that polls. -/
def answerOf {α : Type} : Except (Stop Query.CtxErr Code) α → Except Code α
  | .ok a => .ok a
  | .error (.interrupted e) => .error (fromContextError e)
  | .error (.failed code) => .error code

/-- `Server.Query`. -/
def queryContext (lib : Query.Lib) (codec : Codec) (fs : Files) (s : Store) (req : QueryRequest) :
    PollM Query.CtxErr Code Query.Page := do
  let filter ← lift (wrap (toFilter req.filter) fun _ => .invalidArgument)
  lift (reject (decide (req.pageSize < 0) || decide (defaultResultLimit < req.pageSize))
    .invalidArgument)
  if req.pageSize = 0 then
    let results ← (Query.executeWithLimitContext lib codec fs s req.collection filter
      defaultResultLimit).mapErr toStatusLimit
    return ⟨results, .empty⟩
  else
    (Query.executePageContext lib codec fs s req.collection filter req.pageSize
      req.pageToken).mapErr toStatusQuery

/-- `Server.PutSchema`, where `cut` is the error the compiler gives up with. The
active sources are read before it starts. -/
def putSchemaContext (env : Env) (r : Registry) (req : PutSchemaRequest) (inputs : Inputs) :
    Option Query.CtxErr → Registry × Except Code Int
  | none => putSchema env r req inputs
  | some e =>
    if inputs.faults.sources then (r, .error .invalidArgument)
    else
      match activeSources r.store with
      | .error _ => (r, .error .invalidArgument)
      | .ok _ => (r, .error (fromContextError e))

/-- The handler of a method, with the context of its request. `givesUp` says
whether a compiler whose context is over notices. -/
def handleContext (host : Host) (r : Registry) (inputs : Inputs)
    (ctx : Readings Query.CtxErr) (givesUp : Bool) :
    (m : Method) → m.Request → Registry × Except Code m.Response
  | .query, req =>
    (r, answerOf
      ((queryContext ⟨host.parseFloat, host.sha256⟩ host.codec r.files r.store req).runWith ctx))
  | .putSchema, req => putSchemaContext host.env r req inputs (if givesUp then ctx 0 else none)
  | m, req => handle host r inputs m req

theorem queryContext_paced (lib : Query.Lib) (codec : Codec) (fs : Files) (s : Store)
    (req : QueryRequest) :
    Paced (queryContext lib codec fs s req) (query lib codec fs s req) fun _ _ => True := by
  unfold queryContext query
  refine .afterLift fun filter _ => .afterLift fun _ _ => ?_
  split
  · refine (Query.executeWithLimitContext_paced lib codec fs s req.collection filter
      defaultResultLimit).mapErr.bind fun results _ => .ofPure ?_
    exact fun _ _ => trivial
  · exact (Query.executePageContext_paced lib codec fs s req.collection filter req.pageSize
      req.pageToken).mapErr.imp fun _ _ _ _ => trivial

/-- Where the sources cannot be read, the compiler never starts. -/
theorem putSchemaContext_cases (env : Env) (r : Registry) (req : PutSchemaRequest)
    (inputs : Inputs) (cut : Option Query.CtxErr) :
    putSchemaContext env r req inputs cut = putSchema env r req inputs ∨
      ∃ e, cut = some e ∧
        putSchemaContext env r req inputs cut = (r, .error (fromContextError e)) := by
  cases cut with
  | none => exact .inl rfl
  | some e =>
      unfold putSchemaContext
      cases hfault : inputs.faults.sources with
      | true =>
          left
          simp [putSchema, registerM, hfault, Schema.failIf, bind, EStateM.bind, EStateM.run]
      | false =>
          cases hsources : activeSources r.store with
          | ok sources => exact .inr ⟨e, rfl, rfl⟩
          | error err =>
              left
              have hruns := registerM_run env inputs.faults
                ⟨req.name, req.protoSource, inputs.createdUnix⟩ r
              unfold putSchema
              generalize (registerM env inputs.faults _).run r = out at hruns ⊢
              cases hruns with
              | fault _ => rfl
              | refused _ => rfl
              | accepted haccept =>
                  obtain ⟨_, hacc⟩ := accept_eq_ok haccept
                  have hclosure := hacc.closure
                  rw [compileClosure, hsources] at hclosure
                  cases hclosure

/-- A poll that finds an error, or the plain query. -/
theorem queryContext_cases (lib : Query.Lib) (codec : Codec) (fs : Files) (s : Store)
    (req : QueryRequest) (ctx : Readings Query.CtxErr) :
    answerOf ((queryContext lib codec fs s req).runWith ctx) = query lib codec fs s req ∨
      ∃ k e, ctx k = some e ∧
        answerOf ((queryContext lib codec fs s req).runWith ctx) =
          .error (fromContextError e) := by
  obtain ⟨n, _, hrun⟩ := (queryContext_paced lib codec fs s req).runWith
  rw [hrun]
  cases hint : interruption ctx 0 n with
  | none =>
      left
      cases query lib codec fs s req <;> rfl
  | some e =>
      obtain ⟨k, hk⟩ := exists_of_interruption hint
      exact .inr ⟨k, e, hk, rfl⟩

/-- **A handler and its context.** It does what it does without one, or it
changes nothing and answers with the code of an error the context reported. -/
theorem handleContext_cases (host : Host) (r : Registry) (inputs : Inputs)
    (ctx : Readings Query.CtxErr) (givesUp : Bool) (m : Method) (req : m.Request) :
    handleContext host r inputs ctx givesUp m req = handle host r inputs m req ∨
      ∃ k e, ctx k = some e ∧
        handleContext host r inputs ctx givesUp m req = (r, .error (fromContextError e)) := by
  cases m with
  | query =>
      rcases queryContext_cases ⟨host.parseFloat, host.sha256⟩ host.codec r.files r.store req ctx
        with hsame | ⟨k, e, hk, hctx⟩
      · exact .inl (congrArg (Prod.mk r) hsame)
      · exact .inr ⟨k, e, hk, congrArg (Prod.mk r) hctx⟩
  | putSchema =>
      rcases putSchemaContext_cases host.env r req inputs (if givesUp then ctx 0 else none) with
        hsame | ⟨e, hcut, hctx⟩
      · exact .inl hsame
      · cases givesUp with
        | false => cases hcut
        | true => exact .inr ⟨0, e, hcut, hctx⟩
  | listSchemas | createCollection | listCollections | insert | get | update | delete | createKey
  | listKeys | revokeKey | healthCheck | healthList => exact .inl rfl

/-- The operation a handler runs under a context: a registration whose compiler
gives up is none. -/
def opOfContext (inputs : Inputs) (ctx : Readings Query.CtxErr) (givesUp : Bool) :
    (m : Method) → m.Request → Option Op
  | .putSchema, req => if givesUp && (ctx 0).isSome then none else opOf inputs .putSchema req
  | m, req => opOf inputs m req

theorem handleContext_registry (host : Host) (r : Registry) (inputs : Inputs)
    (ctx : Readings Query.CtxErr) (givesUp : Bool) (m : Method) (req : m.Request) :
    (handleContext host r inputs ctx givesUp m req).1 =
      run (step host.toWorld) r (opOfContext inputs ctx givesUp m req).toList := by
  have hplain : (handle host r inputs m req).1 =
      run (step host.toWorld) r (opOf inputs m req).toList := by
    rw [handle_eq_step]
    cases opOf inputs m req <;> rfl
  cases m with
  | putSchema =>
      have hcut : ∀ e, (putSchemaContext host.env r req inputs (some e)).1 = r := by
        intro e
        simp only [putSchemaContext]
        cases inputs.faults.sources with
        | true => rfl
        | false => cases activeSources r.store <;> rfl
      show (putSchemaContext host.env r req inputs (if givesUp then ctx 0 else none)).1 =
        run (step host.toWorld) r (if givesUp && (ctx 0).isSome then none
          else opOf inputs .putSchema req).toList
      cases givesUp with
      | false => exact hplain
      | true =>
          cases hctx : ctx 0 with
          | none => exact hplain
          | some e => exact hcut e
  | query => rfl
  | listSchemas | createCollection | listCollections | insert | get | update | delete | createKey
  | listKeys | revokeKey | healthCheck | healthList => exact hplain

end KoraDB.Server
