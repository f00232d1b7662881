import KoraDB.Server.Paging
import KoraDB.Server.WireFilter

/-!
# `query` (`cmd/KoraDB`)

The command runs on an open database or on a server. The server gets the same
comparison and token, and the page size as an `int32`; it bounds the size and
otherwise runs the same executor. So it answers as the open database does, or
fails, as long as the conversion does not turn a page size into another one
that the server accepts (`remoteQueryPage_eq_ok`). From 2^32 on it can:
`wrapped_page_size` has two command lines that get another page.
-/

namespace KoraDB.Cli

open KoraDB.Base KoraDB.Proto KoraDB.Catalog KoraDB.Schema KoraDB.Engine KoraDB.Server

inductive QueryCmdErr
  | usage
  | unknownOperator (op : Bytes)
  | pageSize
  | pageTokenEmpty
  | unknownFlag (arg : Bytes)
  | pageTokenAlone
  | query (e : Query.LimitErr)
  | rpc (code : Code)
  deriving DecidableEq

/-! ## Backends -/

/-- `embeddedBackend.QueryPage`. -/
def embeddedQueryPage (lib : Query.Lib) (codec : Codec) (fs : Files) (s : Store)
    (coll field : Bytes) (op : Query.Op) (value : Bytes) (pageSize : Int) (pageToken : Bytes) :
    Except QueryCmdErr TextPage :=
  let filter : Query.Filter := .cmp ⟨field, op, value⟩
  if pageSize = 0 then do
    let results ← wrap (Query.executeWithLimit lib codec fs s coll filter defaultResultLimit) .query
    return ⟨results, []⟩
  else
    wrap (executePageText lib codec fs s coll filter pageSize pageToken) fun e => .query (.query e)

/-- `toWireOp`. -/
def toWireOp (op : Query.Op) : Int :=
  if op = Query.Op.eq then 1
  else if op = Query.Op.ne then 2
  else if op = Query.Op.gt then 3
  else if op = Query.Op.gte then 4
  else if op = Query.Op.lt then 5
  else if op = Query.Op.lte then 6
  else 0

/-- `int32(n)`. -/
def int32 (n : Int) : Int := (BitVec.ofInt 32 n).toInt

/-- gRPC encodes no string that is not valid UTF-8. -/
def validStrings (strings : List Bytes) : Bool := strings.all validString

/-- `remoteBackend.QueryPage` on a server of the database. `refusal` is what
stops the call on its way, if anything: the interceptors, a deadline, a lost
connection. -/
def remoteQueryPage (lib : Query.Lib) (codec : Codec) (fs : Files) (s : Store)
    (refusal : Option Code) (coll field : Bytes) (op : Query.Op) (value : Bytes) (pageSize : Int)
    (pageToken : Bytes) : Except QueryCmdErr TextPage := do
  reject (!validStrings [coll, field, value, pageToken]) (.rpc .internal)
  match refusal with
  | some code => .error (.rpc code)
  | none =>
    let page ← wrap (queryText lib codec fs s coll (.cmp (some ⟨field, toWireOp op, value⟩))
      (int32 pageSize) pageToken) .rpc
    reject (!validStrings (page.results.flatMap fun res => [res.id, res.json])) (.rpc .internal)
    return page

/-! ## The command -/

/-- `parseOp`. -/
def parseOp (s : Bytes) : Option Query.Op :=
  if s = ascii "==" ∨ s = ascii "eq" then some Query.Op.eq
  else if s = ascii "!=" ∨ s = ascii "ne" then some Query.Op.ne
  else if s = ascii ">" ∨ s = ascii "gt" then some Query.Op.gt
  else if s = ascii ">=" ∨ s = ascii "gte" then some Query.Op.gte
  else if s = ascii "<" ∨ s = ascii "lt" then some Query.Op.lt
  else if s = ascii "<=" ∨ s = ascii "lte" then some Query.Op.lte
  else none

def pageSizeFlag : Bytes := ascii "--page-size="
def pageTokenFlag : Bytes := ascii "--page-token="

/-- One flag of `query`, onto the page size and the token so far. -/
def parseQueryFlag (acc : Int × Bytes) (arg : Bytes) : Except QueryCmdErr (Int × Bytes) :=
  if pageSizeFlag.isPrefixOf arg then
    match parseInt 64 (arg.drop pageSizeFlag.length) with
    | none => .error .pageSize
    | some n => if n ≤ 0 then .error .pageSize else .ok (n, acc.2)
  else if pageTokenFlag.isPrefixOf arg then
    if arg.drop pageTokenFlag.length = [] then .error .pageTokenEmpty
    else .ok (acc.1, arg.drop pageTokenFlag.length)
  else .error (.unknownFlag arg)

/-- What `cmdQuery` asks its backend for. -/
structure QueryCall where
  coll : Bytes
  field : Bytes
  op : Query.Op
  value : Bytes
  pageSize : Int
  pageToken : Bytes

/-- The arguments of `cmdQuery`. -/
def parseQuery : List Bytes → Except QueryCmdErr QueryCall
  | coll :: field :: opStr :: value :: flags => do
    let op ← orErr (parseOp opStr) (.unknownOperator opStr)
    let (pageSize, pageToken) ← flags.foldlM parseQueryFlag (0, [])
    reject (pageToken != [] && pageSize == 0) .pageTokenAlone
    return ⟨coll, field, op, value, pageSize, pageToken⟩
  | _ => .error .usage

/-- `cmdQuery`, up to the printing of the rows and the token. -/
def cmdQuery (queryPage : Bytes → Bytes → Query.Op → Bytes → Int → Bytes →
    Except QueryCmdErr TextPage) (args : List Bytes) : Except QueryCmdErr TextPage := do
  let q ← parseQuery args
  queryPage q.coll q.field q.op q.value q.pageSize q.pageToken

/-! ## Agreement -/

/-- The server converts the operator back. -/
theorem toOp_toWireOp {op q : Query.Op} (h : toOp (toWireOp op) = .ok q) : q = op := by
  rw [toOp_eq_ok_iff] at h
  unfold toWireOp at h
  split_ifs at h with h1 h2 h3 h4 h5 h6
  all_goals simp [wireOps] at h
  all_goals rw [h]
  all_goals exact Eq.symm ‹_›

theorem toFilter_cmp {field value : Bytes} {op : Query.Op} {filter : Query.Filter}
    (h : toFilter (.cmp (some ⟨field, toWireOp op, value⟩)) = .ok filter) :
    filter = .cmp ⟨field, op, value⟩ := by
  have hpresent : PbFilter.cmp (some ⟨field, toWireOp op, value⟩) ≠ .absent := nofun
  obtain ⟨_, hmirror⟩ := toFilter_ok hpresent h
  cases filter with
  | cmp c =>
      obtain ⟨hfield, hop, hvalue⟩ := hmirror
      have hop' := toOp_toWireOp (toOp_eq_ok_iff.mpr hop)
      obtain ⟨field', op', value'⟩ := c
      cases hfield
      cases hop'
      cases hvalue
      rfl
  | nil | and _ | or _ | unknown => exact hmirror.elim

/-- The page size reaches the server as itself or as one that it refuses. -/
def SizeArrives (pageSize : Int) : Prop :=
  0 ≤ int32 pageSize → int32 pageSize ≤ 1000 → int32 pageSize = pageSize

/-- The page sizes of which this holds. -/
def SizeKept (pageSize : Int) : Prop := pageSize < 2 ^ 32 ∨ 1000 < pageSize % 2 ^ 32

theorem int32_eq_bmod (n : Int) : int32 n = n.bmod (2 ^ 32) := BitVec.toInt_ofInt n

theorem SizeKept.arrives {n : Int} (h0 : 0 ≤ n) (hn : SizeKept n) : SizeArrives n := by
  intro hlo hhi
  rw [int32_eq_bmod] at hlo hhi ⊢
  -- the sizes in between arrive negative or above the server's bound
  unfold Int.bmod at hlo hhi ⊢
  unfold SizeKept at hn
  norm_num at hlo hhi hn ⊢
  split_ifs at hlo hhi ⊢ <;> omega

/-- Any other page size arrives as its low 32 bits. -/
theorem int32_of_not_kept {n : Int} (hn : ¬ SizeKept n) :
    int32 n = n % 2 ^ 32 ∧ 2 ^ 32 ≤ n ∧ 0 ≤ n % 2 ^ 32 ∧ n % 2 ^ 32 ≤ 1000 := by
  obtain ⟨hbig, hlow⟩ := not_or.mp hn
  have hpos := Int.emod_nonneg n (show (2 ^ 32 : Int) ≠ 0 by decide)
  refine ⟨?_, by omega, hpos, by omega⟩
  rw [int32_eq_bmod]
  unfold Int.bmod
  norm_num at hpos hlow ⊢
  omega

/-- What a server does with a page size that arrived as itself. -/
theorem queryText_cmp {lib : Query.Lib} {codec : Codec} {fs : Files} {s : Store}
    {coll field value pageToken : Bytes} {op : Query.Op} {pageSize : Int} {page : TextPage}
    (h : queryText lib codec fs s coll (.cmp (some ⟨field, toWireOp op, value⟩)) pageSize
      pageToken = .ok page) :
    (0 ≤ pageSize ∧ pageSize ≤ 1000) ∧
      embeddedQueryPage lib codec fs s coll field op value pageSize pageToken = .ok page := by
  simp only [queryText, bind_eq_ok_iff, wrap_eq_ok_iff, reject_eq_ok_iff, Bool.or_eq_false_iff,
    decide_eq_false_iff_not, Int.not_lt] at h
  obtain ⟨filter, hfilter, _, hbounds, h⟩ := h
  cases toFilter_cmp hfilter
  refine ⟨hbounds, ?_⟩
  unfold embeddedQueryPage
  -- both sides branch on the same size; only the errors differ
  by_cases hzero : pageSize = 0
  · rw [if_pos hzero] at h ⊢
    simp only [bind_eq_ok_iff, wrap_eq_ok_iff, pure, Except.pure, Except.ok.injEq] at h ⊢
    exact h
  · rw [if_neg hzero] at h ⊢
    rw [wrap_eq_ok_iff] at h ⊢
    exact h

/-- What a server answers is what the open database answers. -/
theorem remoteQueryPage_eq_ok {lib : Query.Lib} {codec : Codec} {fs : Files} {s : Store}
    {refusal : Option Code} {coll field value pageToken : Bytes} {op : Query.Op} {pageSize : Int}
    {page : TextPage} (hsize : SizeArrives pageSize)
    (h : remoteQueryPage lib codec fs s refusal coll field op value pageSize pageToken =
      .ok page) :
    embeddedQueryPage lib codec fs s coll field op value pageSize pageToken = .ok page := by
  cases refusal with
  | some code =>
      simp only [remoteQueryPage, bind_eq_ok_iff, reduceCtorEq, and_false, exists_false] at h
  | none =>
      simp only [remoteQueryPage, bind_eq_ok_iff, wrap_eq_ok_iff, pure, Except.pure,
        Except.ok.injEq] at h
      obtain ⟨_, _, page', hquery, _, _, rfl⟩ := h
      obtain ⟨⟨hlo, hhi⟩, hpage⟩ := queryText_cmp hquery
      rwa [hsize hlo hhi] at hpage

/-- The page sizes the command accepts are Go's positive integers, and zero
when none is given. -/
theorem parseQueryFlags_size {flags : List Bytes} {acc res : Int × Bytes}
    (hacc : 0 ≤ acc.1 ∧ acc.1 < 2 ^ 63) (h : flags.foldlM parseQueryFlag acc = .ok res) :
    0 ≤ res.1 ∧ res.1 < 2 ^ 63 := by
  induction flags generalizing acc with
  | nil =>
      cases h
      exact hacc
  | cons arg flags ih =>
      rw [List.foldlM_cons] at h
      obtain ⟨acc', hflag, hrest⟩ := bind_eq_ok_iff.mp h
      refine ih ?_ hrest
      -- only `--page-size` changes the size, and it refuses what is not positive
      unfold parseQueryFlag at hflag
      split at hflag
      · split at hflag
        · cases hflag
        · rename_i n hn
          split at hflag
          · cases hflag
          · rename_i hpos
            cases hflag
            exact ⟨by omega, (parseInt_range hn).2⟩
      · split at hflag
        · split at hflag
          · cases hflag
          · cases hflag
            exact hacc
        · cases hflag

/-- What the command asks for. -/
theorem parseQuery_eq_ok_iff {args : List Bytes} {q : QueryCall} :
    parseQuery args = .ok q ↔
      ∃ opStr flags, args = q.coll :: q.field :: opStr :: q.value :: flags ∧
        parseOp opStr = some q.op ∧
        flags.foldlM parseQueryFlag (0, []) = .ok (q.pageSize, q.pageToken) ∧
        (q.pageToken != [] && q.pageSize == 0) = false := by
  constructor
  · intro h
    unfold parseQuery at h
    split at h
    · rename_i coll field opStr value flags
      simp only [bind_eq_ok_iff, orErr_eq_ok_iff, reject_eq_ok_iff, Prod.exists, pure, Except.pure,
        Except.ok.injEq] at h
      obtain ⟨op, hop, pageSize, pageToken, hflags, _, halone, rfl⟩ := h
      exact ⟨opStr, flags, rfl, hop, hflags, halone⟩
    · cases h
  · rintro ⟨opStr, flags, rfl, hop, hflags, halone⟩
    simp only [parseQuery, bind_eq_ok_iff, orErr_eq_ok_iff, reject_eq_ok_iff, Prod.exists]
    exact ⟨q.op, hop, q.pageSize, q.pageToken, hflags, (), halone, rfl⟩

/-- The command agrees on both backends when the page size is kept. -/
theorem cmdQuery_agrees {lib : Query.Lib} {codec : Codec} {fs : Files} {s : Store}
    {refusal : Option Code} {args : List Bytes} {page : TextPage}
    (hsize : ∀ q, parseQuery args = .ok q → SizeKept q.pageSize)
    (h : cmdQuery (remoteQueryPage lib codec fs s refusal) args = .ok page) :
    cmdQuery (embeddedQueryPage lib codec fs s) args = .ok page := by
  obtain ⟨q, hq, hpage⟩ := bind_eq_ok_iff.mp h
  obtain ⟨_, _, _, _, hflags, _⟩ := parseQuery_eq_ok_iff.mp hq
  have h0 : 0 ≤ q.pageSize := (parseQueryFlags_size (by decide) hflags).1
  exact bind_eq_ok_iff.mpr ⟨q, hq, remoteQueryPage_eq_ok ((hsize q hq).arrives h0) hpage⟩

/-! ## Page sizes that wrap -/

/-- The ids a command prints, and whether it prints a token. -/
def printed (res : Except QueryCmdErr TextPage) : Except QueryCmdErr (List Bytes × Bool) :=
  res.map fun page => (page.results.map Query.Result.id, !page.nextPageToken.isEmpty)

/-- `query items tag == red` with some flags, on the shelf. -/
def redItems (remote : Bool) (flags : List Bytes) : Except QueryCmdErr (List Bytes × Bool) :=
  printed (cmdQuery
    (if remote then remoteQueryPage Query.itemLib itemCodec itemFiles Query.shelf none
      else embeddedQueryPage Query.itemLib itemCodec itemFiles Query.shelf)
    ([ascii "items", ascii "tag", ascii "==", ascii "red"] ++ flags))

/-- **Another page.** With a page size of 2^32 + 1 the open database gives both
red items, and the server a page of one with a token. With 2^32 and the token
behind the first item the open database gives the second, and the server both:
it was asked for no page size, and ignores the token. -/
theorem wrapped_page_size :
    let big : Bytes := ascii "--page-size=4294967297"
    let zero : Bytes := ascii "--page-size=4294967296"
    let token : Bytes := pageTokenFlag ++ behindA
    redItems false [big] = .ok ([ascii "a", ascii "b"], false) ∧
      redItems true [big] = .ok ([ascii "a"], true) ∧
      redItems false [zero, token] = .ok ([ascii "b"], false) ∧
      redItems true [zero, token] = .ok ([ascii "a", ascii "b"], false) := by
  decide +kernel

end KoraDB.Cli
