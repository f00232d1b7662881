import KoraDB.Engine.Admitted
import KoraDB.Query.Meaning
import KoraDB.Query.Traversal

/-!
# The pages of one state (`internal/query`)

While the database stays as it is, the pages of a query cut one list into
pieces: the documents that satisfy the filter, in key order. Where nothing
fails on the documents of the collection, the scan of a page is computed in
full (`scanLoop_clean`), the cursor of a page leaves exactly the rest of the
list for the next one, and what a client reads follows by induction on the
number of its requests.

That nothing fails is the case for a reached database when the filter evaluates
on its documents and `protojson` can write what it has read.
-/

namespace KoraDB.Query

open KoraDB.Base KoraDB.Proto KoraDB.Catalog KoraDB.Schema KoraDB.Engine

/-! ## All results at once -/

/-- What `ExecuteWithLimit` fails with; `resultLimit` is `ResultLimitError`. -/
inductive LimitErr
  | query (e : QueryErr)
  | resultLimit (limit : Int)
  deriving DecidableEq

/-- `ExecuteWithLimitContext`. -/
def executeWithLimit (lib : Lib) (codec : Codec) (fs : Files) (s : Store) (coll : Bytes)
    (filter : Filter) (limit : Int) : Except LimitErr (List Result) := do
  let page ← wrap (executePage lib codec fs s coll filter limit .empty) .query
  reject (page.nextPageToken != .empty) (.resultLimit limit)
  return page.results

/-! ## A client of one state -/

/-- A client that follows the tokens for at most `fuel` requests of one page
size. Gives the pages and the last token. -/
def follow (lib : Lib) (codec : Codec) (fs : Files) (s : Store) (coll : Bytes) (filter : Filter)
    (pageSize : Int) : Nat → PageToken → Except QueryErr (List Page × PageToken)
  | 0, token => .ok ([], token)
  | fuel + 1, token => do
    let page ← executePage lib codec fs s coll filter pageSize token
    if page.nextPageToken = .empty then return ([page], .empty)
    else
      let (pages, last) ← follow lib codec fs s coll filter pageSize fuel page.nextPageToken
      return (page :: pages, last)

/-! ## The documents that satisfy a filter -/

/-- The documents of a listing whose message satisfies the filter. -/
def satisfying (parseFloat : ParseFloat) (fs : Files) (cm : CollectionMeta) (filter : Filter)
    (docs : List (Bytes × Blob)) : List (Bytes × Msg) :=
  docs.filterMap fun e =>
    match decode fs cm e.2 with
    | .error _ => none
    | .ok msg => if filter.holds parseFloat msg then some (e.1, msg) else none

/-- The documents of the collection whose message satisfies the filter, in key
order. -/
def matching (parseFloat : ParseFloat) (fs : Files) (s : Store) (coll : Bytes)
    (cm : CollectionMeta) (filter : Filter) : List (Bytes × Msg) :=
  satisfying parseFloat fs cm filter (s.scan (dataBucket coll))

/-- A result is the id and the text of a document. -/
def IsResult (codec : Codec) (fs : Files) (cm : CollectionMeta) (e : Bytes × Msg) (res : Result) :
    Prop :=
  idFromStorageKey fs cm e.1 = .ok res.id ∧ renderMessage codec fs e.2 = .ok res.json

/-- The row of a document. -/
def rowOf (codec : Codec) (fs : Files) (cm : CollectionMeta) (e : Bytes × Msg) : Row :=
  ⟨e.1, (idFromStorageKey fs cm e.1).toOption.getD [],
    (renderMessage codec fs e.2).toOption.getD []⟩

/-- The result in a row. -/
def Row.result (row : Row) : Result := ⟨row.id, row.json⟩

theorem toPage_eq (res : List Row × PageToken) : toPage res = ⟨res.1.map Row.result, res.2⟩ := rfl

section Scan

variable (lib : Lib) (codec : Codec) (fs : Files) (p : Plan)

/-- Nothing fails on the document, and the filter gives `v`. -/
structure Clean (cm : CollectionMeta) (md : MessageDesc) (filter : Filter) (e : Bytes × Blob)
    (msg : Msg) (v : Bool) : Prop where
  decodes : decode fs cm e.2 = .ok msg
  evaluates : eval lib cm.messageType md msg filter = .ok v
  descriptor : msg.descriptor = md
  renders : ∃ j, renderMessage codec fs msg = .ok j
  identified : ∃ id, idFromStorageKey fs cm e.1 = .ok id

/-- The variables of the loop when it has these rows. -/
def Acc.ofRows (rows : List Row) (more : Bool) : Acc :=
  ⟨rows, (rows.getLast?.map Row.key).getD [], more⟩

/-- The rows of the documents behind the cursor that satisfy the filter. -/
def rowsBehind (docs : List (Bytes × Blob)) : List Row :=
  ((satisfying lib.parseFloat fs p.cm p.filter docs).filter fun e => !skips p e.1).map
    (rowOf codec fs p.cm)

variable {lib codec fs p}

theorem Clean.holds {cm : CollectionMeta} {md : MessageDesc} {filter : Filter} {e : Bytes × Blob}
    {msg : Msg} {v : Bool} (h : Clean lib codec fs cm md filter e msg v) :
    filter.holds lib.parseFloat msg = v := by
  have heval := h.evaluates
  rw [← h.descriptor] at heval
  exact eval_holds heval

theorem rowsBehind_cons {e : Bytes × Blob} {docs : List (Bytes × Blob)} {msg : Msg} {v : Bool}
    (h : Clean lib codec fs p.cm p.md p.filter e msg v) :
    rowsBehind lib codec fs p (e :: docs) =
      if v = true ∧ skips p e.1 = false then
        rowOf codec fs p.cm (e.1, msg) :: rowsBehind lib codec fs p docs
      else rowsBehind lib codec fs p docs := by
  unfold rowsBehind satisfying
  cases hv : v with
  | false =>
      rw [List.filterMap_cons_none (by simp [h.decodes, h.holds, hv])]
      simp
  | true =>
      rw [List.filterMap_cons_some (b := (e.1, msg)) (by simp [h.decodes, h.holds, hv])]
      cases hskip : skips p e.1 with
      | false => simp [hskip]
      | true => simp [hskip]

/-- What the loop does with a document that satisfies the filter. -/
theorem consider_clean {e : Bytes × Blob} {msg : Msg} {rows : List Row} {n : Nat}
    (h : Clean lib codec fs p.cm p.md p.filter e msg true) (hsize : p.pageSize = n) :
    consider lib codec fs p (Acc.ofRows rows false) e.1 msg =
      .ok (if rows.length < n then Acc.ofRows (rows ++ [rowOf codec fs p.cm (e.1, msg)]) false
        else Acc.ofRows rows true) := by
  obtain ⟨j, hj⟩ := h.renders
  obtain ⟨id, hid⟩ := h.identified
  unfold consider
  rw [h.evaluates, ok_bind, if_pos rfl]
  unfold appendResult
  rw [hsize]
  by_cases hroom : rows.length < n
  · rw [if_pos hroom, if_neg (by simpa [Acc.ofRows] using hroom), hj, hid]
    simp [Acc.ofRows, rowOf, hj, hid, Except.toOption, pure, Except.pure]
  · rw [if_neg hroom, if_pos (by simpa [Acc.ofRows] using hroom)]
    rfl

/-- The scan of documents on which nothing fails: it adds rows until the page
is full, and reports whether one is left over. -/
theorem scanLoop_clean {n : Nat} (hsize : p.pageSize = n) {docs : List (Bytes × Blob)}
    (hclean : ∀ e ∈ docs, ∃ msg v, Clean lib codec fs p.cm p.md p.filter e msg v) {rows : List Row}
    (hroom : rows.length ≤ n) :
    scanLoop lib codec fs p docs (Acc.ofRows rows false) =
      .ok (Acc.ofRows (rows ++ (rowsBehind lib codec fs p docs).take (n - rows.length))
        (decide (n - rows.length < (rowsBehind lib codec fs p docs).length))) := by
  induction docs generalizing rows with
  | nil => simp [scanLoop, rowsBehind, satisfying]
  | cons e docs ih =>
      obtain ⟨msg, v, he⟩ := hclean e List.mem_cons_self
      have hrest : ∀ e ∈ docs, ∃ msg v, Clean lib codec fs p.cm p.md p.filter e msg v :=
        fun e he => hclean e (List.mem_cons_of_mem _ he)
      rw [scanLoop, he.decodes, wrap_ok, ok_bind, rowsBehind_cons he]
      by_cases hskip : skips p e.1 = true
      · rw [if_pos hskip, ok_bind, if_neg (by simp [hskip])]
        exact ih hrest hroom
      · rw [if_neg hskip]
        cases v with
        | false =>
            have hpass : consider lib codec fs p (Acc.ofRows rows false) e.1 msg =
                .ok (Acc.ofRows rows false) := by
              unfold consider
              rw [he.evaluates]
              rfl
            rw [hpass, ok_bind, if_neg (by simp)]
            exact ih hrest hroom
        | true =>
            rw [if_pos ⟨rfl, by simpa using hskip⟩, consider_clean he hsize, ok_bind]
            by_cases hfull : rows.length < n
            · have hsucc : n - rows.length = n - (rows.length + 1) + 1 := by omega
              rw [if_pos hfull]
              refine (ih hrest (by rw [List.length_append]; exact hfull)).trans ?_
              rw [hsucc, List.take_succ_cons]
              simp
            · -- the page is full and this row is the one left over
              have hzero : n - rows.length = 0 := by omega
              rw [if_neg hfull, hzero]
              simp [Acc.ofRows]

end Scan

/-! ## One page -/

/-- A state in which nothing about a query of the collection fails. -/
structure Queryable (lib : Lib) (codec : Codec) (fs : Files) (s : Store) (coll : Bytes)
    (cm : CollectionMeta) (md : MessageDesc) (filter : Filter) (hash : Bytes) : Prop where
  collection : getMeta s coll = .ok cm
  message : fs.findMessage cm.messageType = some md
  valid : validString coll = true
  signature : filterHash lib filter = .ok hash
  keys : ∀ k b, s.get (dataBucket coll) k = some b → k ≠ []
  clean : ∀ e ∈ s.scan (dataBucket coll), ∃ msg v, Clean lib codec fs cm md filter e msg v

/-- The indexes are in order, too. -/
structure Settled (lib : Lib) (codec : Codec) (fs : Files) (s : Store) (coll : Bytes)
    (cm : CollectionMeta) (md : MessageDesc) (filter : Filter) (hash : Bytes) : Prop
    extends Queryable lib codec fs s coll cm md filter hash where
  ready : Ready fs coll s

/-- A query of the collection neither fails nor misses a document. -/
structure Answers (lib : Lib) (codec : Codec) (fs : Files) (s : Store) (coll : Bytes)
    (cm : CollectionMeta) (md : MessageDesc) (filter : Filter) (hash : Bytes) : Prop
    extends Queryable lib codec fs s coll cm md filter hash where
  name : cm.name = coll
  seed : ∀ n after, SeedCovers lib fs s ⟨cm, md, filter, n, after⟩ (indexSeed lib fs s cm filter)

theorem Settled.answers {lib : Lib} {codec : Codec} {fs : Files} {s : Store} {coll : Bytes}
    {cm : CollectionMeta} {md : MessageDesc} {filter : Filter} {hash : Bytes}
    (h : Settled lib codec fs s coll cm md filter hash) :
    Answers lib codec fs s coll cm md filter hash where
  toQueryable := h.toQueryable
  name := h.ready.sound.name coll cm h.collection
  seed n after := seedCovers_indexSeed (p := ⟨cm, md, filter, n, after⟩) h.message
    fun f hf => h.ready.covered f cm h.collection hf

/-- The rows of all results. -/
def resultRows (lib : Lib) (codec : Codec) (fs : Files) (s : Store) (coll : Bytes)
    (cm : CollectionMeta) (filter : Filter) : List Row :=
  (matching lib.parseFloat fs s coll cm filter).map (rowOf codec fs cm)

/-- The token behind the rows that were read. -/
def tokenAfter (coll hash : Bytes) (seen : List Row) : PageToken :=
  match seen.getLast? with
  | none => .empty
  | some row => encodePageToken ⟨1, coll, hash, row.key⟩

theorem tokenAfter_ne_empty {coll hash : Bytes} {seen : List Row} (h : seen ≠ []) :
    tokenAfter coll hash seen ≠ .empty := by
  unfold tokenAfter
  cases hlast : seen.getLast? with
  | none => exact absurd (List.getLast?_eq_none_iff.mp hlast) h
  | some row =>
      intro heq
      cases heq

theorem take_ne_nil {rest : List Row} {n : Nat} (hn : 0 < n) (hmore : n < rest.length) :
    rest.take n ≠ [] := by
  intro hnil
  have hlen : (rest.take n).length = 0 := by rw [hnil]; rfl
  rw [List.length_take] at hlen
  omega

theorem mem_satisfying {parseFloat : ParseFloat} {fs : Files} {cm : CollectionMeta}
    {filter : Filter} {docs : List (Bytes × Blob)} {k : Bytes} {msg : Msg} :
    (k, msg) ∈ satisfying parseFloat fs cm filter docs ↔
      ∃ b, (k, b) ∈ docs ∧ decode fs cm b = .ok msg ∧ filter.holds parseFloat msg = true := by
  unfold satisfying
  rw [List.mem_filterMap]
  constructor
  · rintro ⟨⟨k', b⟩, he, hsome⟩
    cases hdec : decode fs cm b with
    | error e =>
        rw [hdec] at hsome
        cases hsome
    | ok msg' =>
        simp only [hdec, Option.ite_none_right_eq_some, Option.some.injEq, Prod.mk.injEq] at hsome
        obtain ⟨hholds, rfl, rfl⟩ := hsome
        exact ⟨b, he, hdec, hholds⟩
  · rintro ⟨b, he, hdec, hholds⟩
    exact ⟨(k, b), he, by simp [hdec, hholds]⟩

/-- The documents that satisfy a filter come in key order. -/
theorem matching_sorted (parseFloat : ParseFloat) (fs : Files) (s : Store) (coll : Bytes)
    (cm : CollectionMeta) (filter : Filter) :
    ((matching parseFloat fs s coll cm filter).map Prod.fst).Pairwise Before := by
  rw [List.pairwise_map]
  unfold matching satisfying
  rw [List.pairwise_filterMap]
  refine (s.scan_sorted (dataBucket coll)).imp ?_
  -- a document keeps its key
  have hkey : ∀ (e : Bytes × Blob) (x : Bytes × Msg),
      (match decode fs cm e.2 with
        | .error _ => none
        | .ok msg => if filter.holds parseFloat msg then some (e.1, msg) else none) = some x →
      x.1 = e.1 := by
    intro e x hx
    split at hx
    · cases hx
    · split at hx
      · cases hx
        rfl
      · cases hx
  intro e e' hlt x hx x' hx'
  rw [hkey e x hx, hkey e' x' hx']
  exact hlt

section Answers

variable {lib : Lib} {codec : Codec} {fs : Files} {s : Store} {coll : Bytes} {cm : CollectionMeta}
  {md : MessageDesc} {filter : Filter} {hash : Bytes}

theorem resultRows_sorted :
    (resultRows lib codec fs s coll cm filter).Pairwise fun a b => Before a.key b.key := by
  have hsorted := matching_sorted lib.parseFloat fs s coll cm filter
  rw [List.pairwise_map] at hsorted
  unfold resultRows
  rw [List.pairwise_map]
  exact hsorted

theorem Answers.key_ne_nil (h : Answers lib codec fs s coll cm md filter hash) {row : Row}
    (hrow : row ∈ resultRows lib codec fs s coll cm filter) : row.key ≠ [] := by
  obtain ⟨⟨k, msg⟩, he, rfl⟩ := List.mem_map.mp hrow
  obtain ⟨b, hb, _⟩ := mem_satisfying.mp he
  exact h.keys k b (Storage.Store.mem_scan.mp hb)

/-- The token behind the rows that were read leaves the other rows. -/
theorem Answers.rowsBehind_eq (h : Answers lib codec fs s coll cm md filter hash)
    {seen rest : List Row} (hall : resultRows lib codec fs s coll cm filter = seen ++ rest)
    {n : Int} :
    ∃ cursor, parsePageToken (tokenAfter coll hash seen) coll hash = .ok cursor ∧
      rowsBehind lib codec fs ⟨cm, md, filter, n, cursor.lastKey⟩ (s.scan (dataBucket coll)) =
        rest := by
  have hbehind : ∀ after : Bytes, rowsBehind lib codec fs ⟨cm, md, filter, n, after⟩
      (s.scan (dataBucket coll)) =
        (seen ++ rest).filter fun row => !skips ⟨cm, md, filter, n, after⟩ row.key := by
    intro after
    rw [← hall]
    unfold rowsBehind resultRows matching
    rw [List.filter_map]
    rfl
  unfold tokenAfter
  cases hlast : seen.getLast? with
  | none =>
      refine ⟨⟨0, [], [], []⟩, rfl, ?_⟩
      rw [hbehind, List.getLast?_eq_none_iff.mp hlast, List.nil_append, List.filter_eq_self]
      intro row _
      rfl
  | some row =>
      have hne : row.key ≠ [] := by
        apply h.key_ne_nil
        rw [hall]
        exact List.mem_append_left _ (List.mem_of_getLast? hlast)
      have hparse := parsePageToken_encodePageToken h.valid h.signature hne
      refine ⟨_, hparse, ?_⟩
      rw [hbehind]
      have hsorted : (seen ++ rest).Pairwise fun a b => Before a.key b.key := by
        rw [← hall]
        exact resultRows_sorted
      refine Keyset.filter_behind_last (fun hxy => hxy.asymm) hsorted hlast ?_
      intro k
      have hskip := skips_iff (p := ⟨cm, md, filter, n, row.key⟩) (k := k.key) hparse rfl
      rw [Bool.not_eq_true', hskip]
      simp [Keyset.Behind, PageToken.after, encodePageToken]

/-- A page: the first of the rows that are left, and a token if some remain. -/
theorem Answers.executePage_eq (h : Answers lib codec fs s coll cm md filter hash)
    {seen rest : List Row} (hall : resultRows lib codec fs s coll cm filter = seen ++ rest)
    {n : Nat} (hn : 0 < n) :
    executePage lib codec fs s coll filter n (tokenAfter coll hash seen) =
      .ok ⟨(rest.take n).map Row.result,
        if n < rest.length then tokenAfter coll hash (seen ++ rest.take n) else .empty⟩ := by
  obtain ⟨cursor, hcursor, hrest⟩ := h.rowsBehind_eq (n := n) hall
  have hscan : collect lib codec fs ⟨cm, md, filter, n, cursor.lastKey⟩ s none =
      .ok (Acc.ofRows (rest.take n) (decide (n < rest.length))) := by
    have hloop := @scanLoop_clean lib codec fs ⟨cm, md, filter, n, cursor.lastKey⟩ n rfl _ h.clean
      [] (Nat.zero_le n)
    rw [hrest] at hloop
    unfold collect
    rw [h.name]
    exact hloop
  refine map_eq_ok_iff.mpr ⟨_, executeRows_eq_ok_iff.mpr ⟨Int.natCast_pos.mpr hn, hash, cursor, cm,
    md, _, h.signature, hcursor, h.collection, h.message,
    collect_of_scan (h.seed n cursor.lastKey) hscan, rfl⟩, ?_⟩
  rw [toPage_eq]
  unfold Acc.ofRows
  by_cases hmore : n < rest.length
  · obtain ⟨row, hrow⟩ := Option.ne_none_iff_exists'.mp
      (mt List.getLast?_eq_none_iff.mp (take_ne_nil hn hmore))
    simp [hmore, hrow, tokenAfter, List.getLast?_append]
  · simp [hmore]

/-! ## Following the tokens -/

/-- The client reads the rows that are left in pages, in as many requests as
they have pages. -/
theorem Answers.follow_eq (h : Answers lib codec fs s coll cm md filter hash) {n : Nat}
    (hn : 0 < n) {fuel : Nat} {seen rest : List Row}
    (hall : resultRows lib codec fs s coll cm filter = seen ++ rest)
    (hfuel : Keyset.pageCount n rest.length ≤ fuel) :
    ∃ pages, follow lib codec fs s coll filter n fuel (tokenAfter coll hash seen) =
        .ok (pages, .empty) ∧
      Keyset.Paged n (rest.map Row.result) (pages.map Page.results) := by
  induction fuel generalizing seen rest with
  | zero =>
      unfold Keyset.pageCount at hfuel
      omega
  | succ fuel ih =>
      rw [follow, h.executePage_eq hall hn, ok_bind]
      by_cases hmore : n < rest.length
      · have hnext : tokenAfter coll hash (seen ++ rest.take n) ≠ .empty :=
          tokenAfter_ne_empty (List.append_ne_nil_of_right_ne_nil _ (take_ne_nil hn hmore))
        have hsplit : resultRows lib codec fs s coll cm filter =
            (seen ++ rest.take n) ++ rest.drop n := by
          rw [hall, List.append_assoc, List.take_append_drop]
        have hless : Keyset.pageCount n (rest.drop n).length ≤ fuel := by
          rw [Keyset.pageCount_of_lt hn hmore] at hfuel
          rw [List.length_drop]
          omega
        obtain ⟨pages, hpages, hpaged⟩ := ih hsplit hless
        rw [if_pos hmore, if_neg hnext, hpages]
        refine ⟨_, rfl, ?_⟩
        have hlong : n < (rest.map Row.result).length := by
          rw [List.length_map]
          exact hmore
        rw [List.map_drop] at hpaged
        have hnextPage := Keyset.Paged.next hlong hpaged
        rw [← List.map_take] at hnextPage
        exact hnextPage
      · rw [if_neg hmore, if_pos rfl]
        refine ⟨_, rfl, ?_⟩
        have hshort : rest.take n = rest := List.take_of_length_le (Nat.le_of_not_lt hmore)
        rw [hshort]
        refine .last ?_
        rw [List.length_map]
        exact Nat.le_of_not_lt hmore

/-- `ExecuteWithLimit` is one page that has to be the last. -/
theorem Answers.executeWithLimit_eq (h : Answers lib codec fs s coll cm md filter hash) {l : Nat}
    (hl : 0 < l) :
    executeWithLimit lib codec fs s coll filter l =
      if (resultRows lib codec fs s coll cm filter).length ≤ l then
        .ok ((resultRows lib codec fs s coll cm filter).map Row.result)
      else .error (.resultLimit l) := by
  have hpage : executePage lib codec fs s coll filter l .empty = _ :=
    @Answers.executePage_eq lib codec fs s coll cm md filter hash h [] _ (List.nil_append _).symm l
      hl
  unfold executeWithLimit
  rw [hpage, wrap_ok, ok_bind]
  by_cases hle : (resultRows lib codec fs s coll cm filter).length ≤ l
  · rw [if_pos hle, if_neg (Nat.not_lt.mpr hle), List.take_of_length_le hle]
    rfl
  · have hlt := Nat.lt_of_not_le hle
    have hnext : tokenAfter coll hash
        ([] ++ (resultRows lib codec fs s coll cm filter).take l) ≠ .empty :=
      tokenAfter_ne_empty (take_ne_nil hl hlt)
    rw [if_neg hle, if_pos hlt, bne_iff_ne.mpr hnext]
    rfl

/-- A row carries the id and the text of its document. -/
theorem Answers.isResult_rowOf (h : Answers lib codec fs s coll cm md filter hash)
    {e : Bytes × Msg} (he : e ∈ matching lib.parseFloat fs s coll cm filter) :
    IsResult codec fs cm e (rowOf codec fs cm e).result := by
  obtain ⟨b, hb, hdec, _⟩ := mem_satisfying.mp he
  obtain ⟨msg, v, hclean⟩ := h.clean _ hb
  obtain ⟨j, hj⟩ := hclean.renders
  obtain ⟨id, hid⟩ := hclean.identified
  have hmsg : e.2 = msg := by
    have hsame := hclean.decodes
    rw [hdec] at hsame
    cases hsame
    rfl
  unfold IsResult Row.result rowOf
  constructor
  · simp [hid, Except.toOption]
  · simp [hmsg, hj, Except.toOption]

theorem Answers.forall_isResult (h : Answers lib codec fs s coll cm md filter hash) :
    List.Forall₂ (IsResult codec fs cm) (matching lib.parseFloat fs s coll cm filter)
      ((resultRows lib codec fs s coll cm filter).map Row.result) := by
  unfold resultRows
  rw [List.map_map, List.forall₂_map_right_iff, List.forall₂_same]
  exact fun e he => h.isResult_rowOf he

/-- No id comes twice. -/
theorem Answers.ids_nodup (h : Answers lib codec fs s coll cm md filter hash) :
    (((resultRows lib codec fs s coll cm filter).map Row.result).map Result.id).Nodup := by
  have hids : ∀ row ∈ resultRows lib codec fs s coll cm filter,
      idFromStorageKey fs cm row.key = .ok row.id := by
    intro row hrow
    obtain ⟨e, he, rfl⟩ := List.mem_map.mp hrow
    exact (h.isResult_rowOf he).1
  rw [List.map_map]
  exact Query.ids_nodup hids (List.pairwise_map.mpr resultRows_sorted)

end Answers

/-- The results of a query in one state, however a client asks for them. -/
structure Lists (lib : Lib) (codec : Codec) (fs : Files) (s : Store) (coll : Bytes)
    (filter : Filter) (results : List Result) : Prop where
  pages : ∀ n : Nat, 1 ≤ n → ∀ fuel, max 1 (results.length ⌈/⌉ n) ≤ fuel →
    ∃ pages, follow lib codec fs s coll filter n fuel .empty = .ok (pages, .empty) ∧
      pages.length = max 1 (results.length ⌈/⌉ n) ∧
      (∀ page ∈ pages, page.results.length ≤ n) ∧
      pages.flatMap Page.results = results
  limit : ∀ l : Nat, 1 ≤ l → executeWithLimit lib codec fs s coll filter l =
    if results.length ≤ l then .ok results else .error (.resultLimit l)

theorem Answers.lists {lib : Lib} {codec : Codec} {fs : Files} {s : Store} {coll : Bytes}
    {cm : CollectionMeta} {md : MessageDesc} {filter : Filter} {hash : Bytes}
    (h : Answers lib codec fs s coll cm md filter hash) :
    Lists lib codec fs s coll filter
      ((resultRows lib codec fs s coll cm filter).map Row.result) := by
  refine ⟨?_, ?_⟩
  · intro n hn fuel hfuel
    rw [List.length_map] at hfuel ⊢
    obtain ⟨pages, hpages, hpaged⟩ := h.follow_eq hn (List.nil_append _).symm hfuel
    have hcount := hpaged.length_eq hn
    rw [List.length_map, List.length_map] at hcount
    refine ⟨pages, hpages, hcount, ?_, ?_⟩
    · intro page hpage
      exact hpaged.length_le _ (List.mem_map_of_mem hpage)
    · rw [List.flatMap_def]
      exact hpaged.flatten
  · intro l hl
    rw [List.length_map]
    exact h.executeWithLimit_eq hl

/-! ## Reached databases -/

/-- In a reached database a query only fails where its filter does. -/
theorem settled_run {lib : Lib} {codec : Codec} {fs : Files} {coll : Bytes} {filter : Filter}
    {calls : List Call} {s : Store} {cm : CollectionMeta} (hrender : codec.Renders)
    (hs : s = run (step codec fs) .empty calls) (hnames : ∀ call ∈ calls, call.NameValid)
    (hnul : Always (step codec fs) (fun s => ∀ f, IndexNulFree fs coll f s) .empty calls)
    (hcm : getMeta s coll = .ok cm) (hknown : filter.known = true)
    (heval : ∀ k b msg, s.get (dataBucket coll) k = some b → decode fs cm b = .ok msg →
      ∃ v, eval lib cm.messageType msg.descriptor msg filter = .ok v) :
    ∃ md hash, Settled lib codec fs s coll cm md filter hash := by
  have hready : Ready fs coll s := by
    rw [hs]
    exact ready_run (ready_empty fs coll) hnames hnul
  have hadm : Admitted codec fs s := by
    rw [hs]
    exact admitted_run codec fs hnames
  obtain ⟨md, hbound⟩ := hready.sound.bound hcm
  obtain ⟨hash, hhash⟩ := filterHash_known lib hknown
  refine ⟨md, hash, ⟨hcm, hbound.message, hadm.name coll cm hcm, hhash,
    fun k b => hadm.key_ne_nil, ?_⟩, hready⟩
  rintro ⟨k, b⟩ he
  have hget := Storage.Store.mem_scan.mp he
  obtain ⟨⟨w, rfl, hinit, _⟩, hkey⟩ := hready.sound.docs coll cm md hcm hbound k b hget
  have hdec : decode fs cm (.document w) = .ok ⟨md, w⟩ :=
    (decode_eq_ok_iff hbound.message).mpr ⟨w, rfl, hinit, rfl⟩
  obtain ⟨v, hv⟩ := heval k _ _ hget hdec
  exact ⟨⟨md, w⟩, v, hdec, hv, rfl, Parsed.renders hadm.document hrender hcm hget hdec,
    idFromStorageKey_of_keyOk hbound hkey⟩

/-- Paging is exact. In a reached database, for a filter that evaluates on the
documents of the collection, the matching documents have one list of results.
A client that follows the tokens reads it in `max 1 ⌈m / n⌉` pages of at most
`n` results, and a limit gives all of it or fails. -/
theorem paging_exact {lib : Lib} {codec : Codec} {fs : Files} {coll : Bytes} {filter : Filter}
    {calls : List Call} {s : Store} {cm : CollectionMeta} (hrender : codec.Renders)
    (hs : s = run (step codec fs) .empty calls) (hnames : ∀ call ∈ calls, call.NameValid)
    (hnul : Always (step codec fs) (fun s => ∀ f, IndexNulFree fs coll f s) .empty calls)
    (hcm : getMeta s coll = .ok cm) (hknown : filter.known = true)
    (heval : ∀ k b msg, s.get (dataBucket coll) k = some b → decode fs cm b = .ok msg →
      ∃ v, eval lib cm.messageType msg.descriptor msg filter = .ok v) :
    ((matching lib.parseFloat fs s coll cm filter).map Prod.fst).Pairwise Before ∧
    ∃ results : List Result,
      List.Forall₂ (IsResult codec fs cm) (matching lib.parseFloat fs s coll cm filter) results ∧
      (results.map Result.id).Nodup ∧
      (∀ n : Nat, 1 ≤ n → ∀ fuel, max 1 (results.length ⌈/⌉ n) ≤ fuel →
        ∃ pages, follow lib codec fs s coll filter n fuel .empty = .ok (pages, .empty) ∧
          pages.length = max 1 (results.length ⌈/⌉ n) ∧
          (∀ page ∈ pages, page.results.length ≤ n) ∧
          pages.flatMap Page.results = results) ∧
      ∀ l : Nat, 1 ≤ l → executeWithLimit lib codec fs s coll filter l =
        if results.length ≤ l then .ok results else .error (.resultLimit l) := by
  obtain ⟨md, hash, hsettled⟩ := settled_run hrender hs hnames hnul hcm hknown heval
  have hset := hsettled.answers
  exact ⟨matching_sorted _ _ _ _ _ _, (resultRows lib codec fs s coll cm filter).map Row.result,
    hset.forall_isResult, hset.ids_nodup, hset.lists.pages, hset.lists.limit⟩

/-! ## Paging the shelf -/

/-- The filter evaluates on the documents of the collection. -/
def evaluates (lib : Lib) (fs : Files) (s : Store) (coll : Bytes) (cm : CollectionMeta)
    (filter : Filter) : Bool :=
  (s.scan (dataBucket coll)).all fun e =>
    match decode fs cm e.2 with
    | .error _ => true
    | .ok msg => (eval lib cm.messageType msg.descriptor msg filter).toBool

theorem evaluates_of_check {lib : Lib} {fs : Files} {s : Store} {coll : Bytes}
    {cm : CollectionMeta} {filter : Filter} (h : evaluates lib fs s coll cm filter = true)
    (k : Bytes) (b : Blob) (msg : Msg) (hget : s.get (dataBucket coll) k = some b)
    (hdec : decode fs cm b = .ok msg) :
    ∃ v, eval lib cm.messageType msg.descriptor msg filter = .ok v := by
  have hdoc := List.all_eq_true.mp h (k, b) (Storage.Store.mem_scan.mpr hget)
  rw [hdec] at hdoc
  cases hv : eval lib cm.messageType msg.descriptor msg filter with
  | error e =>
      simp only [hv] at hdoc
      cases hdoc
  | ok v => exact ⟨v, rfl⟩

/-- Two red items make two pages of one item, and a limit of one is exceeded. -/
theorem paging_exact_items :
    ∃ pages, follow itemLib itemCodec itemFiles shelf (ascii "items") red 1 5 .empty =
        .ok (pages, .empty) ∧
      pages.length = 2 ∧
      executeWithLimit itemLib itemCodec itemFiles shelf (ascii "items") red 1 =
        .error (.resultLimit 1) := by
  have hcm : getMeta shelf (ascii "items") =
      .ok ⟨ascii "items", itemName, .field, ascii "sku", [ascii "tag"]⟩ := by decide +kernel
  have hnul : Always (step itemCodec itemFiles)
      (fun s => ∀ f, IndexNulFree itemFiles (ascii "items") f s) .empty (itemCalls.take 3) := by
    refine ⟨?_, ?_, ?_, ?_⟩
    all_goals exact indexNulFree_of_check (by decide +kernel)
  obtain ⟨_, results, hresults, _, hpages, hlimit⟩ :=
    @paging_exact itemLib itemCodec itemFiles (ascii "items") red (itemCalls.take 3) shelf _
      (tableCodec_renders _) rfl
      (fun call hcall => itemCalls_valid call (List.mem_of_mem_take hcall)) hnul hcm
      (by decide) (evaluates_of_check (by decide +kernel))
  have hlen : results.length = 2 := by
    rw [← hresults.length_eq]
    decide +kernel
  obtain ⟨pages, hfollow, hcount, _⟩ := hpages 1 (Nat.le_refl 1) 5 (by rw [hlen]; decide)
  refine ⟨pages, hfollow, ?_, ?_⟩
  · rw [hcount, hlen]
    decide
  · have hone := hlimit 1 (Nat.le_refl 1)
    rw [hlen] at hone
    exact hone

/-! ## Where paging is not exact -/

/-- A filter with a part that `eval` never reaches. -/
def guarded : Filter := .and [.or [], .unknown]

/-- The list is not returned: the collection has a name that is not valid
UTF-8, a part of the filter has no signature, or the limit is not positive. -/
theorem paging_inexact :
    (∃ cm, getMeta (run (step itemCodec itemFiles) .empty strayCalls) [0xFF] = .ok cm ∧
      (matching noFloat itemFiles (run (step itemCodec itemFiles) .empty strayCalls) [0xFF] cm
        .nil).length = 1 ∧
      follow itemLib itemCodec itemFiles (run (step itemCodec itemFiles) .empty strayCalls) [0xFF]
        .nil 1 1 .empty = .ok ([⟨[], .empty⟩], .empty)) ∧
    ((∀ mdName md msg, eval itemLib mdName md msg guarded = .ok false) ∧
      follow itemLib itemCodec itemFiles shelf (ascii "items") guarded 1 1 .empty =
        .error .unknownFilter) ∧
    (∃ cm, getMeta shelf (ascii "items") = .ok cm ∧
      (matching noFloat itemFiles shelf (ascii "items") cm (.or [])).length = 0 ∧
      executeWithLimit itemLib itemCodec itemFiles shelf (ascii "items") (.or []) 0 =
        .error (.query .pageSize)) := by
  refine ⟨⟨⟨toValidUTF8 [0xFF], itemName, .field, ascii "sku", []⟩, ?_, ?_, ?_⟩, ⟨?_, ?_⟩,
    ⟨⟨ascii "items", itemName, .field, ascii "sku", [ascii "tag"]⟩, ?_, ?_, ?_⟩⟩
  · decide +kernel
  · decide +kernel
  · decide +kernel
  · intro mdName md msg
    rfl
  · decide +kernel
  · decide +kernel
  · decide +kernel
  · decide +kernel

end KoraDB.Query
