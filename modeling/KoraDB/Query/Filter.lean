import KoraDB.Engine.Lookup

/-!
# Layer 4: filters (`internal/query`)

A filter is a tree of comparisons. Evaluation stops at the first sub-filter
that decides an `And` or an `Or`, so an error behind it is never seen. The
signature of a filter binds a page token to its query.
-/

namespace KoraDB.Query

open KoraDB.Base KoraDB.Proto KoraDB.Catalog KoraDB.Engine

/-- `Op`: six of the integers are operators. -/
structure Op where
  code : Int
  deriving DecidableEq

namespace Op

def eq : Op := ⟨0⟩
def ne : Op := ⟨1⟩
def gt : Op := ⟨2⟩
def gte : Op := ⟨3⟩
def lt : Op := ⟨4⟩
def lte : Op := ⟨5⟩

end Op

/-- `Cmp`. -/
structure Cmp where
  field : Bytes
  op : Op
  value : Bytes
  deriving DecidableEq

/-- `Filter`. `unknown` is a value of none of the package's filter types, such
as a pointer to one. -/
inductive Filter where
  | nil
  | cmp (c : Cmp)
  | and (filters : List Filter)
  | or (filters : List Filter)
  | unknown

/-- Why a page token is refused. -/
inductive TokenErr
  | malformedEncoding | malformedBody | queryMismatch
  deriving DecidableEq

inductive QueryErr
  | pageSize
  | unknownFilter
  | fieldMissing (field message : Bytes)
  | notScalar (field : Bytes)
  | unknownOperator (op : Op)
  | invalidPageToken (e : TokenErr)
  | engine (e : EngineErr)
  deriving DecidableEq

/-- What the query layer uses of the standard library. -/
structure Lib where
  parseFloat : ParseFloat
  sha256 : Bytes → Bytes

/-! ## Evaluation -/

/-- The switch on the operator in `evalCmp`. -/
def Op.test (op : Op) (cmp : Ordering) : Except QueryErr Bool :=
  if op = Op.eq then .ok (cmp == .eq)
  else if op = Op.ne then .ok (cmp != .eq)
  else if op = Op.gt then .ok (cmp == .gt)
  else if op = Op.gte then .ok (cmp != .lt)
  else if op = Op.lt then .ok (cmp == .lt)
  else if op = Op.lte then .ok (cmp != .gt)
  else .error (.unknownOperator op)

/-- `evalCmp`. The full name of the descriptor is only used in the error. -/
def evalCmp (lib : Lib) (mdName : Bytes) (md : MessageDesc) (msg : Msg) (c : Cmp) :
    Except QueryErr Bool := do
  let fd ← orErr (md.byName c.field) (.fieldMissing c.field mdName)
  reject (fd.isList || fd.isMap || fd.kind == .message || fd.kind == .group) (.notScalar c.field)
  let literal ← wrap (scalarValueFromString lib.parseFloat fd c.value) .engine
  c.op.test (compareValues fd (msg.get fd) literal)

mutual

/-- `eval`. -/
def eval (lib : Lib) (mdName : Bytes) (md : MessageDesc) (msg : Msg) :
    Filter → Except QueryErr Bool
  | .nil => .ok true
  | .and filters => evalAnd lib mdName md msg filters
  | .or filters => evalOr lib mdName md msg filters
  | .cmp c => evalCmp lib mdName md msg c
  | .unknown => .error .unknownFilter

/-- The loop of `eval` over the members of an `And`. -/
def evalAnd (lib : Lib) (mdName : Bytes) (md : MessageDesc) (msg : Msg) :
    List Filter → Except QueryErr Bool
  | [] => .ok true
  | sub :: rest => do
    let ok ← eval lib mdName md msg sub
    if ok then evalAnd lib mdName md msg rest else .ok false

/-- The loop of `eval` over the members of an `Or`. -/
def evalOr (lib : Lib) (mdName : Bytes) (md : MessageDesc) (msg : Msg) :
    List Filter → Except QueryErr Bool
  | [] => .ok false
  | sub :: rest => do
    let ok ← eval lib mdName md msg sub
    if ok then .ok true else evalOr lib mdName md msg rest

end

/-! ## Signatures -/

mutual

/-- `writeFilterSignature`. -/
def writeFilterSignature : Filter → Except QueryErr Bytes
  | .nil => .ok (ascii "nil;")
  | .cmp c => .ok (ascii "cmp:" ++ formatUint c.field.length ++ ascii ":" ++ c.field ++ ascii ":" ++
      formatInt c.op.code ++ ascii ":" ++ formatUint c.value.length ++ ascii ":" ++ c.value ++
      ascii ";")
  | .and filters => do
    let subs ← writeFilterSignatures filters
    return ascii "and:" ++ formatUint filters.length ++ ascii ":[" ++ subs ++ ascii "];"
  | .or filters => do
    let subs ← writeFilterSignatures filters
    return ascii "or:" ++ formatUint filters.length ++ ascii ":[" ++ subs ++ ascii "];"
  | .unknown => .error .unknownFilter

/-- The loops of `writeFilterSignature` over the members of a group. -/
def writeFilterSignatures : List Filter → Except QueryErr Bytes
  | [] => .ok []
  | sub :: rest => do
    let s ← writeFilterSignature sub
    let ss ← writeFilterSignatures rest
    return s ++ ss

end

/-- `filterHash`. -/
def filterHash (lib : Lib) (filter : Filter) : Except QueryErr Bytes := do
  let signature ← writeFilterSignature filter
  return base64Url (lib.sha256 signature)

/-- A filter hash is ASCII and survives the JSON round trip. -/
theorem validString_filterHash {lib : Lib} {filter : Filter} {hash : Bytes}
    (h : filterHash lib filter = .ok hash) : validString hash = true := by
  simp only [filterHash, bind_eq_ok_iff, pure, Except.pure, Except.ok.injEq] at h
  obtain ⟨signature, _, rfl⟩ := h
  exact validString_of_ascii (base64Url_ascii _)

/-! ## What a match says -/

/-- The comparisons an index can answer: the filter itself, or the members of
an `And` at the top. -/
def seedCandidates : Filter → List Cmp
  | .cmp c => [c]
  | .and filters => filters.filterMap fun sub => match sub with
    | .cmp c => some c
    | _ => none
  | _ => []

theorem evalAnd_true {lib : Lib} {mdName : Bytes} {md : MessageDesc} {msg : Msg}
    {filters : List Filter} (h : evalAnd lib mdName md msg filters = .ok true) :
    ∀ sub ∈ filters, eval lib mdName md msg sub = .ok true := by
  induction filters with
  | nil => exact fun sub hsub => absurd hsub List.not_mem_nil
  | cons sub rest ih =>
      obtain ⟨ok, hsub, hrest⟩ := bind_eq_ok_iff.mp (by rw [evalAnd] at h; exact h)
      cases ok with
      | false => cases hrest
      | true =>
          intro x hx
          rcases List.mem_cons.mp hx with rfl | hx
          · exact hsub
          · exact ih hrest x hx

/-- A document that matches a filter satisfies each of its candidates. -/
theorem evalCmp_of_match {lib : Lib} {mdName : Bytes} {md : MessageDesc} {msg : Msg}
    {filter : Filter} (h : eval lib mdName md msg filter = .ok true) {c : Cmp}
    (hc : c ∈ seedCandidates filter) : evalCmp lib mdName md msg c = .ok true := by
  cases filter with
  | nil => exact absurd hc List.not_mem_nil
  | or _ => exact absurd hc List.not_mem_nil
  | unknown => exact absurd hc List.not_mem_nil
  | cmp c' =>
      rw [List.mem_singleton.mp hc]
      exact (by rw [eval] at h; exact h)
  | and filters =>
      obtain ⟨sub, hsub, hcmp⟩ := List.mem_filterMap.mp hc
      have hmatch := evalAnd_true (by rw [eval] at h; exact h) sub hsub
      cases sub with
      | cmp c' =>
          cases hcmp
          exact (by rw [eval] at hmatch; exact hmatch)
      | nil | and _ | or _ | unknown => cases hcmp

/-- What a satisfied equality compares. -/
theorem evalCmp_eq_true {lib : Lib} {mdName : Bytes} {md : MessageDesc} {msg : Msg} {c : Cmp}
    (hop : c.op = Op.eq) (h : evalCmp lib mdName md msg c = .ok true) :
    ∃ fd lit, md.byName c.field = some fd ∧
      scalarValueFromString lib.parseFloat fd c.value = .ok lit ∧
      compareValues fd (msg.get fd) lit = .eq := by
  simp only [evalCmp, bind_eq_ok_iff, orErr_eq_ok_iff, wrap_eq_ok_iff] at h
  obtain ⟨fd, hfd, _, _, lit, hlit, htest⟩ := h
  refine ⟨fd, lit, hfd, hlit, ?_⟩
  rw [hop] at htest
  simpa [Op.test] using htest

end KoraDB.Query
