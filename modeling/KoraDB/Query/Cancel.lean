import KoraDB.Base.Polling
import KoraDB.Query.Exact

/-!
# Queries of a request that may end early (`internal/query`)

`ExecutePageContext` reads its context before it starts, at every document or
key it looks at and before every result it adds. Here a context is what it
reports at each of these readings, so that a request may be cancelled or run
out of time between any two of them. The loops are those of `Query.Page` with
the readings put in where the source has them.

A cancelled query never gives a partial page: the answer is the error of the
context or the very page an undisturbed query gives (`page_or_interruption`).
-/

namespace KoraDB.Query

open KoraDB.Base KoraDB.Base.PollM KoraDB.Proto KoraDB.Catalog KoraDB.Schema KoraDB.Engine

/-- `context.Canceled` and `context.DeadlineExceeded`. -/
inductive CtxErr
  | canceled
  | deadlineExceeded
  deriving DecidableEq, Repr

/-- A part of a query that polls the context. -/
abbrev QueryM := PollM CtxErr QueryErr

section Loops

variable (lib : Lib) (codec : Codec) (fs : Files) (p : Plan)

/-- `appendResult`. -/
def appendResultContext (acc : Acc) (key : Bytes) (msg : Msg) : QueryM Acc := do
  poll
  lift (appendResult codec fs p acc key msg)

/-- What both loops do with a document. -/
def considerContext (acc : Acc) (key : Bytes) (msg : Msg) : QueryM Acc := do
  let ok ← lift (eval lib p.cm.messageType p.md msg p.filter)
  if ok then appendResultContext codec fs p acc key msg else pure acc

/-- The full scan; the callback reads the context after `Each` has decoded. -/
def scanLoopContext : List (Bytes × Blob) → Acc → QueryM Acc
  | [], acc => pure acc
  | (k, b) :: rest, acc => do
    let msg ← lift (wrap (decode fs p.cm b) .engine)
    poll
    let acc ← if skips p k then pure acc else considerContext lib codec fs p acc k msg
    if acc.more then pure acc else scanLoopContext rest acc

/-- The loop over the keys an index gave. -/
def seededLoopContext (s : Store) : List Bytes → Acc → QueryM Acc
  | [], acc => pure acc
  | k :: rest, acc => do
    poll
    if skips p k then seededLoopContext s rest acc
    else do
      match ← lift (wrap (fetchByKey fs s p.cm k) .engine) with
      | none => seededLoopContext s rest acc
      | some msg => do
        let acc ← considerContext lib codec fs p acc k msg
        if acc.more then pure acc else seededLoopContext s rest acc

/-- The two branches, by whether an index gave candidates. -/
def collectContext (s : Store) : Option (List Bytes) → QueryM Acc
  | some keys => seededLoopContext lib codec fs p s (sortKeys keys) ⟨[], [], false⟩
  | none => scanLoopContext lib codec fs p (s.scan (dataBucket p.cm.name)) ⟨[], [], false⟩

end Loops

/-- `ExecutePageContext`, with the rows of the page and its token. -/
def executeRowsContext (lib : Lib) (codec : Codec) (fs : Files) (s : Store) (coll : Bytes)
    (filter : Filter) (pageSize : Int) (pageToken : PageToken) :
    QueryM (List Row × PageToken) := do
  poll
  lift (reject (decide (pageSize ≤ 0)) .pageSize)
  let hash ← lift (filterHash lib filter)
  let cursor ← lift (parsePageToken pageToken coll hash)
  let cm ← lift (wrap (getMeta s coll) .engine)
  let md ← lift (wrap (messageDescriptor fs cm.messageType) fun e => .engine (.schema e))
  let acc ← collectContext lib codec fs ⟨cm, md, filter, pageSize, cursor.lastKey⟩ s
    (indexSeed lib fs s cm filter)
  return (acc.rows, if acc.more then encodePageToken ⟨1, coll, hash, acc.lastKey⟩ else .empty)

/-- `ExecutePageContext`. -/
def executePageContext (lib : Lib) (codec : Codec) (fs : Files) (s : Store) (coll : Bytes)
    (filter : Filter) (pageSize : Int) (pageToken : PageToken) : QueryM Page := do
  return toPage (← executeRowsContext lib codec fs s coll filter pageSize pageToken)

/-! ## The loops with and without a context -/

/-- Two readings are spent on every row that was added since. -/
def Spent (acc : Acc) (acc' : Acc) (n : Nat) : Prop :=
  2 * acc'.rows.length ≤ 2 * acc.rows.length + n

section Paced

variable {lib : Lib} {codec : Codec} {fs : Files} {p : Plan}

theorem appendResult_rows {acc acc' : Acc} {key : Bytes} {msg : Msg}
    (h : appendResult codec fs p acc key msg = .ok acc') :
    acc'.rows.length ≤ acc.rows.length + 1 := by
  unfold appendResult at h
  split at h
  · cases h
    exact Nat.le_succ _
  · simp only [bind_eq_ok_iff] at h
    obtain ⟨j, _, id, _, h⟩ := h
    cases h
    simp

theorem Spent.trans {acc acc₁ acc' : Acc} {n n' : Nat} (h : Spent acc acc₁ n)
    (h' : Spent acc₁ acc' n') : Spent acc acc' (n + n') := by
  unfold Spent at *
  omega

theorem Spent.refl (acc : Acc) (n : Nat) : Spent acc acc n := Nat.le_add_right _ _

/-- With the reading of the loop around it, a document costs two readings for
the row it may add. -/
theorem considerContext_paced (acc : Acc) (key : Bytes) (msg : Msg) :
    Paced (considerContext lib codec fs p acc key msg) (consider lib codec fs p acc key msg)
      fun acc' n => Spent acc acc' (n + 1) := by
  refine .afterLift fun ok _ => ?_
  cases ok with
  | false => exact .ofPure (.refl acc _)
  | true =>
      refine .afterPoll (.ofLift ?_)
      intro acc' hacc
      have hrows := appendResult_rows hacc
      unfold Spent
      omega

/-- A loop goes on with what its body leaves unless the page is complete. -/
theorem goOn_paced {acc : Acc} {body : QueryM Acc} {body' : Except QueryErr Acc}
    {rest : Acc → QueryM Acc} {rest' : Acc → Except QueryErr Acc}
    (hbody : Paced body body' fun acc₁ n => Spent acc acc₁ (n + 1))
    (hrest : ∀ acc₁, Paced (rest acc₁) (rest' acc₁) (Spent acc₁)) :
    Paced (body >>= fun acc₁ => if acc₁.more then pure acc₁ else rest acc₁)
      (body' >>= fun acc₁ => if acc₁.more then .ok acc₁ else rest' acc₁)
      fun acc' n => Spent acc acc' (n + 1) := by
  refine hbody.bind fun acc₁ _ => ?_
  split
  · exact .ofPure fun n hn => hn
  · refine (hrest acc₁).imp fun acc' n' _ hn' n hn => ?_
    rw [Nat.add_right_comm]
    exact hn.trans hn'

theorem scanLoopContext_paced (docs : List (Bytes × Blob)) (acc : Acc) :
    Paced (scanLoopContext lib codec fs p docs acc) (scanLoop lib codec fs p docs acc)
      (Spent acc) := by
  induction docs generalizing acc with
  | nil => exact .ofPure (.refl acc 0)
  | cons e docs ih =>
      obtain ⟨k, b⟩ := e
      rw [scanLoopContext, scanLoop]
      refine .afterLift fun msg _ => .afterPoll ?_
      by_cases hskip : skips p k = true
      · simp only [hskip, if_true]
        exact goOn_paced (.ofPure (.refl acc _)) ih
      · simp only [hskip, Bool.false_eq_true, if_false]
        exact goOn_paced (considerContext_paced acc k msg) ih

theorem seededLoopContext_paced (s : Store) (keys : List Bytes) (acc : Acc) :
    Paced (seededLoopContext lib codec fs p s keys acc) (seededLoop lib codec fs p s keys acc)
      (Spent acc) := by
  induction keys generalizing acc with
  | nil => exact .ofPure (.refl acc 0)
  | cons k keys ih =>
      have hon : Paced (seededLoopContext lib codec fs p s keys acc)
          (seededLoop lib codec fs p s keys acc) fun acc' n => Spent acc acc' (n + 1) :=
        (ih acc).imp fun acc' n _ hn => hn.trans (.refl acc' 1)
      rw [seededLoopContext, seededLoop]
      refine .afterPoll ?_
      split
      · exact hon
      · refine .afterLift fun found _ => ?_
        cases found with
        | none => exact hon
        | some msg => exact goOn_paced (considerContext_paced acc k msg) ih

theorem collectContext_paced (s : Store) (seed : Option (List Bytes)) :
    Paced (collectContext lib codec fs p s seed) (collect lib codec fs p s seed)
      fun acc n => 2 * acc.rows.length ≤ n := by
  have hnone : ∀ acc n, Spent ⟨[], [], false⟩ acc n → 2 * acc.rows.length ≤ n := by
    intro acc n hn
    simpa [Spent] using hn
  cases seed with
  | none => exact (scanLoopContext_paced _ _).imp fun acc n _ hn => hnone acc n hn
  | some keys => exact (seededLoopContext_paced s _ _).imp fun acc n _ hn => hnone acc n hn

end Paced

variable (lib : Lib) (codec : Codec) (fs : Files) (s : Store) (coll : Bytes) (filter : Filter)

theorem executeRowsContext_paced (pageSize : Int) (pageToken : PageToken) :
    Paced (executeRowsContext lib codec fs s coll filter pageSize pageToken)
      (executeRows lib codec fs s (fun cm => indexSeed lib fs s cm filter) coll filter pageSize
        pageToken)
      fun res n => 2 * res.1.length + 1 ≤ n := by
  unfold executeRowsContext executeRows
  refine .afterPoll ?_
  refine .afterLift fun _ _ => .afterLift fun hash _ => .afterLift fun cursor _ =>
    .afterLift fun cm _ => .afterLift fun md _ => ?_
  refine (collectContext_paced s _).bind fun acc _ => .ofPure ?_
  intro n hn
  exact Nat.succ_le_succ hn

/-- A query with a context is the plain query, but for its readings: one at the
start, and two for every result of the page. -/
theorem executePageContext_paced (pageSize : Int) (pageToken : PageToken) :
    Paced (executePageContext lib codec fs s coll filter pageSize pageToken)
      (executePage lib codec fs s coll filter pageSize pageToken)
      fun page n => 2 * page.results.length + 1 ≤ n := by
  unfold executePageContext executePage executePageFrom
  rw [map_eq_bind]
  refine (executeRowsContext_paced lib codec fs s coll filter pageSize pageToken).bind
    fun res _ => .ofPure ?_
  intro n hn
  simpa [toPage] using hn

/-- A context that is over before the query ends it at once. -/
theorem executePageContext_over {ctx : Readings CtxErr} {e : CtxErr} (h : ctx 0 = some e)
    (pageSize : Int) (pageToken : PageToken) :
    (executePageContext lib codec fs s coll filter pageSize pageToken).runWith ctx =
      .error (.interrupted e) := by
  have hpoll : (poll : QueryM Unit) ctx 0 = .error (.interrupted e) := by
    unfold poll
    rw [h]
  have hrows : executeRowsContext lib codec fs s coll filter pageSize pageToken ctx 0 =
      .error (.interrupted e) := bind_of_error hpoll
  unfold PollM.runWith executePageContext
  rw [bind_of_error hrows]
  rfl

/-- **A page or the context's error.** A query reads its context a number of
times that the context has no part in: once, and twice more for each result at
least. If one of these readings finds an error, the first such error is the
answer; else the answer is that of the same query without a context. -/
theorem page_or_interruption (pageSize : Int) (pageToken : PageToken) :
    ∃ n, 1 ≤ n ∧
      (∀ page, executePage lib codec fs s coll filter pageSize pageToken = .ok page →
        2 * page.results.length + 1 ≤ n) ∧
      ∀ ctx : Readings CtxErr,
        (∀ k e, k < n → ctx k = some e → (∀ j < k, ctx j = none) →
          (executePageContext lib codec fs s coll filter pageSize pageToken).runWith ctx =
            .error (.interrupted e)) ∧
        ((∀ k < n, ctx k = none) →
          (executePageContext lib codec fs s coll filter pageSize pageToken).runWith ctx =
            wrap (executePage lib codec fs s coll filter pageSize pageToken) .failed) := by
  obtain ⟨n, hsize, hrun⟩ :=
    (executePageContext_paced lib codec fs s coll filter pageSize pageToken).runWith
  have hpos : 1 ≤ n := by
    by_contra hzero
    obtain rfl : n = 0 := by omega
    -- without a reading, a context that is over would change nothing
    have hover : (executePageContext lib codec fs s coll filter pageSize pageToken).runWith
        (fun _ => some .canceled) = .error (.interrupted .canceled) :=
      executePageContext_over lib codec fs s coll filter rfl pageSize pageToken
    rw [hrun] at hover
    revert hover
    show wrap (executePage lib codec fs s coll filter pageSize pageToken) Stop.failed ≠ _
    cases executePage lib codec fs s coll filter pageSize pageToken <;> simp [wrap]
  refine ⟨n, hpos, hsize, fun ctx => ⟨?_, ?_⟩⟩
  · intro k e hk he hfirst
    have hint : interruption ctx 0 n = some e :=
      interruption_of_first hk (by rwa [Nat.zero_add]) fun j hj => by
        rw [Nat.zero_add]
        exact hfirst j hj
    rw [hrun, hint]
    rfl
  · intro hnone
    have hint : interruption ctx 0 n = none :=
      interruption_eq_none.mpr fun j hj => by
        rw [Nat.zero_add]
        exact hnone j hj
    rw [hrun, hint]
    rfl

/-- `ExecuteWithLimitContext`. -/
def executeWithLimitContext (limit : Int) : PollM CtxErr LimitErr (List Result) := do
  let page ← (executePageContext lib codec fs s coll filter limit .empty).mapErr .query
  lift (reject (page.nextPageToken != .empty) (.resultLimit limit))
  return page.results

theorem executeWithLimitContext_paced (limit : Int) :
    Paced (executeWithLimitContext lib codec fs s coll filter limit)
      (executeWithLimit lib codec fs s coll filter limit) fun _ _ => True := by
  unfold executeWithLimitContext executeWithLimit
  refine (executePageContext_paced lib codec fs s coll filter limit .empty).mapErr.bind
    fun page _ => .afterLift fun _ _ => .ofPure ?_
  exact fun _ _ => trivial

end KoraDB.Query
