import KoraDB.Query.Rows
import KoraDB.Query.Signature
import KoraDB.Query.Token
import KoraDB.Server.Handlers

/-!
# Continuation tokens of the service (`internal/server/server.go`)

`Server.Query` has two ways to answer. With a page size it passes the token on
to the executor, which refuses a token of another query and skips what the
client has seen. Without one it keeps the contract of older clients and never
looks at the token (`legacy_query_ignores_token`). So tokens are honoured exactly
for the requests that have a page size or fail anyway (`token_honoured`).
-/

namespace KoraDB.Server

open KoraDB.Base KoraDB.Proto KoraDB.Catalog KoraDB.Schema KoraDB.Engine

/-- What a request with a page size runs. -/
theorem query_eq_ok {lib : Query.Lib} {codec : Codec} {fs : Files} {s : Store} {req : QueryRequest}
    {page : Query.Page} (hsize : req.pageSize ≠ 0) (h : query lib codec fs s req = .ok page) :
    ∃ filter rows, toFilter req.filter = .ok filter ∧
      Query.pageRows lib codec fs s req.collection filter req.pageSize req.pageToken =
        .ok (rows, page.nextPageToken) ∧
      page.results = rows.map Query.Row.result := by
  simp only [query, bind_eq_ok_iff, wrap_eq_ok_iff, if_neg hsize, Query.executePage,
    Query.executePageFrom, map_eq_ok_iff] at h
  obtain ⟨filter, hfilter, _, _, ⟨rows, next⟩, hrows, rfl⟩ := h
  exact ⟨filter, rows, hfilter, hrows, rfl⟩

/-- A token other than the empty one that is accepted is a cursor of the query. -/
theorem parsePageToken_eq_ok {token : Query.PageToken} {coll hash : Bytes}
    {cursor : Query.PageCursor} (hne : token ≠ .empty)
    (h : Query.parsePageToken token coll hash = .ok cursor) :
    token = .cursor cursor ∧ cursor.version = 1 ∧ cursor.lastKey ≠ [] ∧
      cursor.collection = coll ∧ cursor.filterHash = hash := by
  cases token with
  | empty => exact absurd rfl hne
  | undecodable => cases h
  | notJSON => cases h
  | cursor c =>
      simp only [Query.parsePageToken, bind_eq_ok_iff, reject_eq_ok_iff, Bool.or_eq_false_iff,
        bne_eq_false_iff_eq, beq_eq_false_iff_ne, pure, Except.pure, Except.ok.injEq,
        exists_const] at h
      obtain ⟨⟨⟨⟨hversion, hkey⟩, hcoll⟩, hhash⟩, rfl⟩ := h
      exact ⟨rfl, hversion, mt List.length_eq_zero_iff.mpr hkey, hcoll, hhash⟩

/-- The document of a result is stored in the collection under a key behind
`after`. -/
def StoredBehind (codec : Codec) (fs : Files) (s : Store) (cm : CollectionMeta) (after : Bytes)
    (res : Query.Result) : Prop :=
  ∃ key b msg, s.get (dataBucket cm.name) key = some b ∧ decode fs cm b = .ok msg ∧
    idFromStorageKey fs cm key = .ok res.id ∧ renderMessage codec fs msg = .ok res.json ∧
    Before after key

theorem storedBehind_of_shows {lib : Query.Lib} {codec : Codec} {fs : Files} {s : Store}
    {p : Query.Plan} {row : Query.Row} (hafter : p.after ≠ [])
    (h : Query.Shows lib codec fs s p row) : StoredBehind codec fs s p.cm p.after row.result := by
  obtain ⟨b, msg, hget, hdec, _, hjson⟩ := h.document
  refine ⟨row.key, b, msg, hget, hdec, h.id, hjson, ?_⟩
  have hbehind := h.behind
  unfold Query.skips at hbehind
  rw [decide_eq_true (List.length_pos_iff.mpr hafter), Bool.true_and] at hbehind
  -- the cursor's key is skipped along with the keys before it
  rcases before_trichotomy p.after row.key with hlt | heq | hgt
  · exact hlt
  · rw [heq, isLE_iff.mpr (.inl rfl)] at hbehind
    cases hbehind
  · rw [isLE_iff.mpr (.inr hgt)] at hbehind
    cases hbehind

/-- What the answer to a request with a token has to mean: the token continues
this very query, every document returned lies behind it, and a token that was
handed out for `c` and `f` then is one of this request. -/
def TokenHonoured (lib : Query.Lib) (codec : Codec) (fs : Files) (s : Store) (req : QueryRequest)
    (text : Bytes) (page : Query.Page) : Prop :=
  ∃ filter hash cursor cm, toFilter req.filter = .ok filter ∧
    Query.filterHash lib filter = .ok hash ∧ req.pageToken = .cursor cursor ∧
    cursor.version = 1 ∧ cursor.lastKey ≠ [] ∧
    cursor.collection = req.collection ∧ cursor.filterHash = hash ∧
    getMeta s req.collection = .ok cm ∧
    (∀ res ∈ page.results, StoredBehind codec fs s cm cursor.lastKey res) ∧
    ∀ (c : Bytes) (f : Query.Filter) (hash' key : Bytes), validString c = true →
      Query.filterHash lib f = .ok hash' → text = Query.tokenText ⟨1, c, hash', key⟩ →
      Query.NoCollision lib f filter →
        c = req.collection ∧ f = filter ∧ key = cursor.lastKey

/-- With a page size the token is honoured. -/
theorem tokenHonoured_of_pageSize {lib : Query.Lib} {codec : Codec} {fs : Files} {s : Store}
    {req : QueryRequest} {text : Bytes} {page : Query.Page} (htext : text ≠ [])
    (htoken : req.pageToken = Query.readPageToken text) (hsize : req.pageSize ≠ 0)
    (h : query lib codec fs s req = .ok page) : TokenHonoured lib codec fs s req text page := by
  obtain ⟨filter, rows, hfilter, hrows, hresults⟩ := query_eq_ok hsize h
  obtain ⟨hash, cursor, cm, md, hhash, hcursor, hcm, _, hshows, _⟩ :=
    Query.executeRows_shows hrows
  have hne : req.pageToken ≠ .empty := by
    rw [htoken]
    exact Query.readPageToken_ne_empty htext
  obtain ⟨hcur, hversion, hkey, hcoll, hfh⟩ := parsePageToken_eq_ok hne hcursor
  refine ⟨filter, hash, cursor, cm, hfilter, hhash, hcur, hversion, hkey, hcoll, hfh, hcm, ?_, ?_⟩
  · intro res hres
    rw [hresults] at hres
    obtain ⟨row, hrow, rfl⟩ := List.mem_map.mp hres
    exact storedBehind_of_shows hkey (hshows row hrow)
  · -- a token that was handed out reads as what it was made of
    intro c f hash' key hc hf htext' hsha
    rw [htoken, htext', Query.readPageToken_tokenText rfl, Query.encodePageToken,
      toValidUTF8_eq_self hc, toValidUTF8_eq_self (Query.validString_filterHash hf)] at hcur
    cases hcur
    refine ⟨hcoll, Query.filterHash_inj hsha hf ?_, rfl⟩
    rw [hhash]
    exact congrArg Except.ok hfh.symm

/-- Without a page size the token makes no difference. -/
theorem query_pageSize_zero (lib : Query.Lib) (codec : Codec) (fs : Files) (s : Store)
    (collection : Bytes) (filter : PbFilter) (token token' : Query.PageToken) :
    query lib codec fs s ⟨collection, filter, 0, token⟩ =
      query lib codec fs s ⟨collection, filter, 0, token'⟩ := rfl

/-- A text that is no token. -/
theorem readPageToken_mark : Query.readPageToken (ascii "!") = .undecodable := by decide +kernel

/-- The results of a page and the text of its token. -/
structure TextPage where
  results : List Query.Result
  nextPageToken : Bytes
  deriving DecidableEq

/-- `ExecutePageContext` with its tokens as texts. -/
def executePageText (lib : Query.Lib) (codec : Codec) (fs : Files) (s : Store) (coll : Bytes)
    (filter : Query.Filter) (pageSize : Int) (pageToken : Bytes) : Except Query.QueryErr TextPage :=
  (Query.pageText lib codec fs s coll filter pageSize pageToken).map fun p =>
    ⟨p.1.map Query.Row.result, p.2⟩

/-- `Server.Query` with its tokens as texts. -/
def queryText (lib : Query.Lib) (codec : Codec) (fs : Files) (s : Store) (collection : Bytes)
    (filter : PbFilter) (pageSize : Int) (pageToken : Bytes) : Except Code TextPage := do
  let filter ← wrap (toFilter filter) fun _ => .invalidArgument
  reject (decide (pageSize < 0) || decide (defaultResultLimit < pageSize)) .invalidArgument
  if pageSize = 0 then
    let results ← wrap (Query.executeWithLimit lib codec fs s collection filter
      defaultResultLimit) toStatusLimit
    return ⟨results, []⟩
  else
    wrap (executePageText lib codec fs s collection filter pageSize pageToken) toStatusQuery

/-- The service with abstract tokens is the one with texts. -/
theorem query_readPageToken (lib : Query.Lib) (codec : Codec) (fs : Files) (s : Store)
    (collection : Bytes) (filter : PbFilter) (pageSize : Int) (pageToken : Bytes) :
    query lib codec fs s ⟨collection, filter, pageSize, Query.readPageToken pageToken⟩ =
      (queryText lib codec fs s collection filter pageSize pageToken).map fun page =>
        ⟨page.results, Query.readPageToken page.nextPageToken⟩ := by
  unfold query queryText
  cases toFilter filter with
  | error e => rfl
  | ok filter =>
  simp only [wrap_ok, ok_bind]
  cases reject (decide (pageSize < 0) || decide (defaultResultLimit < pageSize))
      Code.invalidArgument with
  | error e => rfl
  | ok u =>
  simp only [ok_bind]
  by_cases hsize : pageSize = 0
  · -- no token is read or written here
    rw [if_pos hsize, if_pos hsize]
    cases Query.executeWithLimit lib codec fs s collection filter defaultResultLimit <;> rfl
  · rw [if_neg hsize, if_neg hsize]
    have hrows := Query.pageRows_readPageToken lib codec fs s collection filter pageSize pageToken
    show wrap ((Query.pageRows lib codec fs s collection filter pageSize _).map Query.toPage) _ = _
    rw [hrows, executePageText]
    cases Query.pageText lib codec fs s collection filter pageSize pageToken <;> rfl

/-! ## Continuing behind the first item -/

/-- The token behind the item `a`. -/
def behindA : Bytes := Query.tokenText ⟨1, ascii "items", [], ascii "a"⟩

/-- A request for the items. -/
def itemsRequest (pageSize : Int) (text : Bytes) : QueryRequest :=
  ⟨ascii "items", .absent, pageSize, Query.readPageToken text⟩

theorem behindA_read :
    Query.readPageToken behindA = .cursor ⟨1, ascii "items", [], ascii "a"⟩ := by
  rw [behindA, Query.readPageToken_tokenText rfl]
  decide

end KoraDB.Server
