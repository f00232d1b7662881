import KoraDB.Query.Filter

/-!
# Pages (`internal/query`)

`ExecutePageContext` collects matching documents in key order, from behind the
cursor of its token, until the page is full and one more match shows that it
is not the last. The candidates come from an index or from a scan of the whole
collection.

A page token is base 64 of a JSON cursor. The model keeps what reading such a
text gives: nothing, one of two errors, or a cursor. The context of a request
is taken to be never cancelled. A page is read in one transaction, so it is a
function of one store.
-/

namespace KoraDB.Query

open KoraDB.Base KoraDB.Proto KoraDB.Catalog KoraDB.Schema KoraDB.Engine

/-! ## Tokens -/

/-- `pageCursor`. -/
structure PageCursor where
  version : Int
  collection : Bytes
  filterHash : Bytes
  lastKey : Bytes
  deriving DecidableEq

/-- A page token, as what `parsePageToken` reads from the text. -/
inductive PageToken
  | empty
  | undecodable
  | notJSON
  | cursor (c : PageCursor)
  deriving DecidableEq

/-- `encodePageToken`: JSON makes the strings valid UTF-8. -/
def encodePageToken (c : PageCursor) : PageToken :=
  .cursor { c with
    collection := toValidUTF8 c.collection
    filterHash := toValidUTF8 c.filterHash }

/-- `parsePageToken`. -/
def parsePageToken (token : PageToken) (collection expectedFilterHash : Bytes) :
    Except QueryErr PageCursor :=
  match token with
  | .empty => .ok ⟨0, [], [], []⟩
  | .undecodable => .error (.invalidPageToken .malformedEncoding)
  | .notJSON => .error (.invalidPageToken .malformedBody)
  | .cursor c => do
    reject (c.version != 1 || c.lastKey.length == 0 || c.collection != collection ||
      c.filterHash != expectedFilterHash) (.invalidPageToken .queryMismatch)
    return c

/-- A token is accepted for the query it was made for. -/
theorem parsePageToken_encodePageToken {lib : Lib} {filter : Filter} {coll hash key : Bytes}
    (hcoll : validString coll = true) (hhash : filterHash lib filter = .ok hash) (hkey : key ≠ []) :
    parsePageToken (encodePageToken ⟨1, coll, hash, key⟩) coll hash = .ok ⟨1, coll, hash, key⟩ := by
  have hlen : (key.length == 0) = false := by
    rw [beq_eq_false_iff_ne]
    exact mt List.length_eq_zero_iff.mp hkey
  simp only [parsePageToken, encodePageToken, toValidUTF8_eq_self hcoll,
    toValidUTF8_eq_self (validString_filterHash hhash), hlen, bne_self_eq_false, Bool.or_self]
  rfl

/-! ## Collecting -/

/-- A `Result` with the storage key it was found under. -/
structure Row where
  key : Bytes
  id : Bytes
  json : Bytes
  deriving DecidableEq

/-- The variables the callbacks of `ExecutePageContext` write. -/
structure Acc where
  rows : List Row
  lastKey : Bytes
  more : Bool

/-- The variables they read. -/
structure Plan where
  cm : CollectionMeta
  md : MessageDesc
  filter : Filter
  pageSize : Int
  after : Bytes

section Collect

variable (lib : Lib) (codec : Codec) (fs : Files) (p : Plan)

/-- `appendResult`. A page that is full ends the loop around it, which
`errPageComplete` does in the source. -/
def appendResult (acc : Acc) (key : Bytes) (msg : Msg) : Except QueryErr Acc :=
  if p.pageSize ≤ acc.rows.length then .ok { acc with more := true }
  else do
    let j ← wrap (renderMessage codec fs msg) .engine
    let id ← wrap (idFromStorageKey fs p.cm key) .engine
    return { acc with rows := acc.rows ++ [⟨key, id, j⟩], lastKey := key }

/-- The key is not behind the cursor. -/
def skips (key : Bytes) : Bool := decide (0 < p.after.length) && (compare key p.after).isLE

/-- What both loops do with a document. -/
def consider (acc : Acc) (key : Bytes) (msg : Msg) : Except QueryErr Acc := do
  let ok ← eval lib p.cm.messageType p.md msg p.filter
  if ok then appendResult codec fs p acc key msg else .ok acc

/-- The full scan: `Each` decodes a document before the callback sees it. -/
def scanLoop : List (Bytes × Blob) → Acc → Except QueryErr Acc
  | [], acc => .ok acc
  | (k, b) :: rest, acc => do
    let msg ← wrap (decode fs p.cm b) .engine
    let acc ← if skips p k then .ok acc else consider lib codec fs p acc k msg
    if acc.more then .ok acc else scanLoop rest acc

/-- `FetchByKey`; `none` is `ErrNotFound`. -/
def fetchByKey (s : Store) (cm : CollectionMeta) (key : Bytes) : Except EngineErr (Option Msg) :=
  match s.get (dataBucket cm.name) key with
  | none => .ok none
  | some b => (decode fs cm b).map some

/-- The loop over the keys an index gave. -/
def seededLoop (s : Store) : List Bytes → Acc → Except QueryErr Acc
  | [], acc => .ok acc
  | k :: rest, acc =>
    if skips p k then seededLoop s rest acc
    else do
      match ← wrap (fetchByKey fs s p.cm k) .engine with
      | none => seededLoop s rest acc
      | some msg =>
        let acc ← consider lib codec fs p acc k msg
        if acc.more then .ok acc else seededLoop s rest acc

/-- `sort.Slice` by `bytes.Compare`. -/
def sortKeys (keys : List Bytes) : List Bytes :=
  keys.insertionSort fun a b => (compare a b).isLE = true

/-- The two branches, by whether an index gave candidates. -/
def collect (s : Store) (seed : Option (List Bytes)) : Except QueryErr Acc :=
  match seed with
  | some keys => seededLoop lib codec fs p s (sortKeys keys) ⟨[], [], false⟩
  | none => scanLoop lib codec fs p (s.scan (dataBucket p.cm.name)) ⟨[], [], false⟩

end Collect

/-! ## Pages -/

/-- `Result`. -/
structure Result where
  id : Bytes
  json : Bytes
  deriving DecidableEq

/-- `Page`. -/
structure Page where
  results : List Result
  nextPageToken : PageToken
  deriving DecidableEq

/-- `indexSeed`. -/
def indexSeed (lib : Lib) (fs : Files) (s : Store) (cm : CollectionMeta) (filter : Filter) :
    Option (List Bytes) :=
  (seedCandidates filter).findSome? fun c =>
    if c.op = Op.eq ∧ hasIndex cm c.field = true then
      (lookupByIndex lib.parseFloat fs s cm c.field c.value).toOption
    else none

/-- `ExecutePageContext` on the candidates of `seed`, with the rows of the page
and its token. -/
def executeRows (lib : Lib) (codec : Codec) (fs : Files) (s : Store)
    (seed : CollectionMeta → Option (List Bytes)) (coll : Bytes) (filter : Filter)
    (pageSize : Int) (pageToken : PageToken) : Except QueryErr (List Row × PageToken) := do
  reject (decide (pageSize ≤ 0)) .pageSize
  let hash ← filterHash lib filter
  let cursor ← parsePageToken pageToken coll hash
  let cm ← wrap (getMeta s coll) .engine
  let md ← wrap (messageDescriptor fs cm.messageType) fun e => .engine (.schema e)
  let acc ← collect lib codec fs ⟨cm, md, filter, pageSize, cursor.lastKey⟩ s (seed cm)
  return (acc.rows, if acc.more then encodePageToken ⟨1, coll, hash, acc.lastKey⟩ else .empty)

/-- The page of some rows. -/
def toPage (res : List Row × PageToken) : Page :=
  ⟨res.1.map fun row => ⟨row.id, row.json⟩, res.2⟩

/-- `ExecutePageContext` on the candidates of `seed`. -/
def executePageFrom (lib : Lib) (codec : Codec) (fs : Files) (s : Store)
    (seed : CollectionMeta → Option (List Bytes)) (coll : Bytes) (filter : Filter)
    (pageSize : Int) (pageToken : PageToken) : Except QueryErr Page :=
  (executeRows lib codec fs s seed coll filter pageSize pageToken).map toPage

/-- `ExecutePageContext`. -/
def executePage (lib : Lib) (codec : Codec) (fs : Files) (s : Store) (coll : Bytes)
    (filter : Filter) (pageSize : Int) (pageToken : PageToken) : Except QueryErr Page :=
  executePageFrom lib codec fs s (fun cm => indexSeed lib fs s cm filter) coll filter pageSize
    pageToken

end KoraDB.Query
