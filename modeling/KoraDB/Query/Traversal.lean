import KoraDB.Base.Keyset
import KoraDB.Query.Agree

/-!
# Following the tokens (`internal/query`)

A client reads page after page, each with the token of the one before, while
the database changes between the requests. Each page is a keyset page of the
matches in its snapshot, so the results on traversals of `Base.Keyset` apply.

Two things hide a document from a query. Two documents can share an index
entry when an indexed string holds a NUL byte and the keys are strings. And a
query reads the buckets of the stored name, which differs from the name that
documents are inserted under when that is not valid UTF-8. Both are shown at
the end.
-/

namespace KoraDB.Query

open KoraDB.Base KoraDB.Proto KoraDB.Catalog KoraDB.Schema KoraDB.Engine

/-! ## Requests -/

/-- The rows of `ExecutePage`. -/
def pageRows (lib : Lib) (codec : Codec) (fs : Files) (s : Store) (coll : Bytes) (filter : Filter)
    (pageSize : Int) (token : PageToken) : Except QueryErr (List Row × PageToken) :=
  executeRows lib codec fs s (fun cm => indexSeed lib fs s cm filter) coll filter pageSize token

/-- A client that follows the tokens. Before each request some calls change
the database; the request has a page size and reads the database then. Gives
the snapshots with their rows and the last token. -/
def traverse (lib : Lib) (codec : Codec) (fs : Files) (coll : Bytes) (filter : Filter) :
    Store → PageToken → List (List Call × Int) →
      Except QueryErr (List (Store × List Row) × PageToken)
  | _, token, [] => .ok ([], token)
  | s, token, (calls, pageSize) :: requests => do
    let s := run (step codec fs) s calls
    let (rows, next) ← pageRows lib codec fs s coll filter pageSize token
    if next = .empty then return ([(s, rows)], .empty)
    else
      let (pages, last) ← traverse lib codec fs coll filter s next requests
      return ((s, rows) :: pages, last)

/-- A request, and the rest of the traversal when its token is not empty. -/
theorem traverse_cons {lib : Lib} {codec : Codec} {fs : Files} {coll : Bytes} {filter : Filter}
    {s : Store} {token last : PageToken} {calls : List Call} {pageSize : Int}
    {requests : List (List Call × Int)} {pages : List (Store × List Row)}
    (h : traverse lib codec fs coll filter s token ((calls, pageSize) :: requests) =
      .ok (pages, last)) :
    ∃ rows next, pageRows lib codec fs (run (step codec fs) s calls) coll filter pageSize token =
        .ok (rows, next) ∧
      ((next = .empty ∧ pages = [(run (step codec fs) s calls, rows)] ∧ last = .empty) ∨
       (next ≠ .empty ∧ ∃ rest, pages = (run (step codec fs) s calls, rows) :: rest ∧
          traverse lib codec fs coll filter (run (step codec fs) s calls) next requests =
            .ok (rest, last))) := by
  rw [traverse] at h
  obtain ⟨⟨rows, next⟩, hrows, h⟩ := bind_eq_ok_iff.mp h
  refine ⟨rows, next, hrows, ?_⟩
  by_cases hend : next = .empty
  · simp only [if_pos hend] at h
    cases h
    exact .inl ⟨hend, rfl, rfl⟩
  · simp only [if_neg hend] at h
    obtain ⟨⟨rest, last'⟩, hrest, h⟩ := bind_eq_ok_iff.mp h
    cases h
    exact .inr ⟨hend, rest, rfl, hrest⟩

/-- The rows of all pages. -/
def allRows (pages : List (Store × List Row)) : List Row := pages.flatMap Prod.snd

/-- The collection holds a document under the key that satisfies the filter. -/
def Matches (lib : Lib) (fs : Files) (coll : Bytes) (filter : Filter) (s : Store) (k : Bytes) :
    Prop :=
  ∃ cm md b msg, getMeta s coll = .ok cm ∧ fs.findMessage cm.messageType = some md ∧
    s.get (dataBucket coll) k = some b ∧ decode fs cm b = .ok msg ∧
    eval lib cm.messageType md msg filter = .ok true

def isMatch (lib : Lib) (fs : Files) (coll : Bytes) (filter : Filter) (s : Store) (k : Bytes) :
    Bool :=
  match getMeta s coll with
  | .error _ => false
  | .ok cm =>
    match fs.findMessage cm.messageType, s.get (dataBucket coll) k with
    | some md, some b => satisfies lib fs ⟨cm, md, filter, 1, []⟩ b
    | _, _ => false

theorem matches_of_check {lib : Lib} {fs : Files} {coll : Bytes} {filter : Filter} {s : Store}
    {k : Bytes} (h : isMatch lib fs coll filter s k = true) : Matches lib fs coll filter s k := by
  unfold isMatch at h
  split at h
  · cases h
  · rename_i cm hcm
    split at h
    · rename_i md b hmd hb
      obtain ⟨msg, hdec, htrue⟩ := satisfies_iff.mp h
      exact ⟨cm, md, b, msg, hcm, hmd, hb, hdec, htrue⟩
    · cases h

/-! ## Cursors -/

/-- The key a token continues behind. -/
def PageToken.after : PageToken → Option Bytes
  | .cursor c => some c.lastKey
  | _ => none

/-- A token that is accepted skips the keys up to its own. -/
theorem skips_iff {token : PageToken} {coll hash : Bytes} {cursor : PageCursor} {p : Plan}
    (h : parsePageToken token coll hash = .ok cursor) (hp : p.after = cursor.lastKey) {k : Bytes} :
    skips p k = false ↔ Keyset.Behind Before token.after k := by
  unfold skips Keyset.Behind
  rw [hp]
  cases token with
  | empty =>
      cases h
      simp [PageToken.after]
  | undecodable => cases h
  | notJSON => cases h
  | cursor c =>
      obtain ⟨_, hok, heq⟩ := bind_eq_ok_iff.mp h
      cases heq
      rw [reject_eq_ok_iff] at hok
      simp only [Bool.or_eq_false_iff, beq_eq_false_iff_ne] at hok
      have hpos : 0 < cursor.lastKey.length := Nat.pos_of_ne_zero hok.1.1.2
      rw [decide_eq_true hpos, Bool.true_and, not_isLE_iff]
      simp [PageToken.after]

theorem skips_of_mem_hits {lib : Lib} {fs : Files} {p : Plan} {docs : List (Bytes × Blob)}
    {k : Bytes} (h : k ∈ hits lib fs p docs) : skips p k = false := by
  obtain ⟨e, he, rfl⟩ := List.mem_map.mp h
  have hhit := (List.mem_filter.mp he).2
  simp only [Bool.and_eq_true, Bool.not_eq_true'] at hhit
  exact hhit.1

theorem mem_hits_iff {lib : Lib} {fs : Files} {s : Store} {coll : Bytes} {p : Plan}
    (hcm : getMeta s coll = .ok p.cm) (hname : p.cm.name = coll)
    (hmd : fs.findMessage p.cm.messageType = some p.md) {k : Bytes} :
    k ∈ hits lib fs p (s.scan (dataBucket p.cm.name)) ↔
      Matches lib fs coll p.filter s k ∧ skips p k = false := by
  unfold hits
  rw [List.mem_map, hname]
  constructor
  · rintro ⟨⟨k', b⟩, he, rfl⟩
    obtain ⟨hscan, hhit⟩ := List.mem_filter.mp he
    simp only [Bool.and_eq_true, Bool.not_eq_true'] at hhit
    obtain ⟨msg, hdec, htrue⟩ := satisfies_iff.mp hhit.2
    exact ⟨⟨p.cm, p.md, b, msg, hcm, hmd, Storage.Store.mem_scan.mp hscan, hdec, htrue⟩, hhit.1⟩
  · rintro ⟨⟨cm, md, b, msg, hcm', hmd', hb, hdec, htrue⟩, hskip⟩
    rw [hcm] at hcm'
    cases hcm'
    rw [hmd] at hmd'
    cases hmd'
    refine ⟨(k, b), List.mem_filter.mpr ⟨Storage.Store.mem_scan.mpr hb, ?_⟩, rfl⟩
    simp [hskip, satisfies_iff.mpr ⟨msg, hdec, htrue⟩]

/-! ## One page -/

/-- What a query of the collection relies on. -/
structure Ready (fs : Files) (coll : Bytes) (s : Store) : Prop where
  sound : Sound fs s
  covered : ∀ f, Covered fs coll f s

/-- The keys of a seed are distinct in every state. -/
theorem indexSeed_nodup {lib : Lib} {fs : Files} {s : Store} {cm : CollectionMeta}
    {filter : Filter} : ∀ keys ∈ indexSeed lib fs s cm filter, keys.Nodup := by
  intro keys hkeys
  obtain ⟨_, _, _, _, hl⟩ := indexSeed_eq_some hkeys
  obtain ⟨_, _, _, _, _, _, _, _, hnodup, _⟩ := lookupByIndex_eq_ok hl
  exact hnodup

/-- The matches of a state in which a query finds all of them. -/
def Found (lib : Lib) (fs : Files) (coll : Bytes) (filter : Filter) (s : Store) (k : Bytes) :
    Prop :=
  Ready fs coll s ∧ Matches lib fs coll filter s k

/-- A page lists keys behind the cursor, and its token continues behind the last
of them. In a state that queries rely on, they are the first of the matches. -/
theorem pageRows_isPage {lib : Lib} {codec : Codec} {fs : Files} {s : Store} {coll : Bytes}
    {filter : Filter} {pageSize : Int} {token next : PageToken} {rows : List Row}
    (h : pageRows lib codec fs s coll filter pageSize token = .ok (rows, next)) :
    Keyset.IsPage Before (Found lib fs coll filter s) token.after (rows.map Row.key)
        (decide (next ≠ .empty)) ∧
      (next ≠ .empty → next.after = (rows.map Row.key).getLast?) ∧
      ∃ cm, getMeta s coll = .ok cm ∧
        ∀ row ∈ rows, idFromStorageKey fs cm row.key = .ok row.id := by
  obtain ⟨hsize, hash, cursor, cm, md, acc, _, hcursor, hcm, hmd, hacc, hres⟩ :=
    executeRows_eq_ok_iff.mp h
  cases hres
  obtain ⟨hkept, hkeys, hmore⟩ := collect_takes_named hsize indexSeed_nodup hacc
  have htoken : decide ((if acc.more = true then
      encodePageToken ⟨1, coll, hash, acc.lastKey⟩ else .empty) ≠ PageToken.empty) = acc.more := by
    cases acc.more with
    | true => rfl
    | false => rfl
  have hbehind : ∀ k ∈ hits lib fs ⟨cm, md, filter, pageSize, cursor.lastKey⟩
      ((s.scan (dataBucket cm.name)).filter (named (indexSeed lib fs s cm filter))),
      Keyset.Behind Before token.after k :=
    fun k hk => (skips_iff hcursor rfl).mp (skips_of_mem_hits hk)
  have hpage : Keyset.IsPage Before (Found lib fs coll filter s) token.after
      (acc.rows.map Row.key) acc.more := by
    rw [hkeys, hmore]
    refine (Keyset.isPage_take (S := (· ∈ hits lib fs _ _)) (hits_sorted _ _)
      (fun k => ⟨fun hk => ⟨hk, hbehind k hk⟩, And.left⟩) (Int.pos_iff_toNat_pos.mp hsize)).imp ?_
    rintro k ⟨hs, hmatch⟩ hk
    have hseed : SeedCovers lib fs s ⟨cm, md, filter, pageSize, cursor.lastKey⟩
        (indexSeed lib fs s cm filter) :=
      seedCovers_indexSeed hmd fun f hf => hs.covered f cm hcm hf
    rw [hits_named hseed, mem_hits_iff hcm (hs.sound.name coll cm hcm) hmd]
    exact ⟨hmatch, (skips_iff hcursor rfl).mpr hk⟩
  refine ⟨by rw [htoken]; exact hpage, ?_, cm, hcm, hkept.ids⟩
  intro hnext
  have hfull : acc.more = true := by
    rw [← htoken]
    exact decide_eq_true hnext
  rw [hfull] at hpage
  obtain ⟨b, hb⟩ := hpage.exists_last
  rw [if_pos hfull, hb]
  show some acc.lastKey = some b
  rw [List.getLast?_map] at hb
  rw [hkept.last, hb]
  rfl

/-! ## Between two pages -/

theorem ready_empty (fs : Files) (coll : Bytes) : Ready fs coll .empty :=
  ⟨sound_empty fs, covered_empty fs coll⟩

theorem ready_run {codec : Codec} {fs : Files} {coll : Bytes} {s : Store} {calls : List Call}
    (hs : Ready fs coll s) (hnames : ∀ call ∈ calls, call.NameValid)
    (hnul : Always (step codec fs) (fun s => ∀ f, IndexNulFree fs coll f s) s calls) :
    Ready fs coll (run (step codec fs) s calls) := by
  refine ⟨sound_run hs.sound hnames, fun f => ?_⟩
  exact covered_run hs.sound hnames (hnul.imp fun _ h => h f) (hs.covered f)

/-! ## The traversal -/

/-- The pages of a client are a keyset traversal of what it can find, and all ids
are rendered under one definition of the collection. -/
theorem traverse_spec {lib : Lib} {codec : Codec} {fs : Files} {coll : Bytes} {filter : Filter}
    {requests : List (List Call × Int)} {s : Store} {token last : PageToken}
    {pages : List (Store × List Row)} (hreq : requests ≠ [])
    (h : traverse lib codec fs coll filter s token requests = .ok (pages, last)) :
    Keyset.Traversal Before token.after
        (pages.map fun pg => (Found lib fs coll filter pg.1, pg.2.map Row.key))
        (decide (last ≠ .empty)) ∧
      ∃ cm, (∀ cm', getMeta s coll = .ok cm' → cm' = cm) ∧
        ∀ row ∈ allRows pages, idFromStorageKey fs cm row.key = .ok row.id := by
  induction requests generalizing s token pages with
  | nil => exact absurd rfl hreq
  | cons req requests ih =>
      obtain ⟨calls, pageSize⟩ := req
      obtain ⟨rows, next, hrows, hcase⟩ := traverse_cons h
      obtain ⟨hpage, hafter, cm, hcm, hids⟩ := pageRows_isPage hrows
      have hkept : ∀ cm', getMeta s coll = .ok cm' → cm' = cm := by
        intro cm' hcm'
        have hlater : getMeta (run (step codec fs) s calls) coll = .ok cm' :=
          getMeta_run hcm' calls
        rw [hcm] at hlater
        cases hlater
        rfl
      rcases hcase with ⟨rfl, rfl, rfl⟩ | ⟨hmore, rest, rfl, hrest⟩
      · -- the last page
        refine ⟨.last hpage, cm, hkept, ?_⟩
        simpa [allRows] using hids
      · rw [decide_eq_true hmore] at hpage
        cases requests with
        | nil =>
            -- the client stopped before the end
            cases hrest
            rw [decide_eq_true hmore]
            refine ⟨.last hpage, cm, hkept, ?_⟩
            simpa [allRows] using hids
        | cons req requests =>
            obtain ⟨htrav, cm', hcm', hids'⟩ := ih (List.cons_ne_nil _ _) hrest
            rw [hafter hmore] at htrav
            refine ⟨.next hpage htrav, cm, hkept, ?_⟩
            intro row hrow
            change row ∈ rows ++ allRows rest at hrow
            rcases List.mem_append.mp hrow with hrow | hrow
            · exact hids row hrow
            · rw [hcm' cm hcm]
              exact hids' row hrow

/-- Valid names and no NUL bytes make every snapshot one that queries rely on. -/
theorem traverse_ready {lib : Lib} {codec : Codec} {fs : Files} {coll : Bytes} {filter : Filter}
    {requests : List (List Call × Int)} {s : Store} {token last : PageToken}
    {pages : List (Store × List Row)} (hs : Ready fs coll s)
    (hnames : ∀ req ∈ requests, ∀ call ∈ req.1, call.NameValid)
    (hnul : Always (step codec fs) (fun s => ∀ f, IndexNulFree fs coll f s) s
      (requests.flatMap Prod.fst))
    (h : traverse lib codec fs coll filter s token requests = .ok (pages, last)) :
    ∀ pg ∈ pages, Ready fs coll pg.1 := by
  induction requests generalizing s token pages with
  | nil =>
      cases h
      exact fun pg hpg => absurd hpg List.not_mem_nil
  | cons req requests ih =>
      obtain ⟨calls, pageSize⟩ := req
      rw [List.flatMap_cons, always_append] at hnul
      have hs' := ready_run hs (hnames _ List.mem_cons_self) hnul.1
      obtain ⟨rows, next, _, ⟨_, rfl, _⟩ | ⟨_, rest, rfl, hrest⟩⟩ := traverse_cons h
      · intro pg hpg
        rw [List.mem_singleton.mp hpg]
        exact hs'
      · intro pg hpg
        rcases List.mem_cons.mp hpg with rfl | hpg
        · exact hs'
        · exact ih hs' (fun r hr => hnames r (List.mem_cons_of_mem _ hr)) hnul.2 hrest pg hpg

/-- Paging loses and repeats nothing stable: whatever calls run between the
requests of a client that follows the tokens, the keys it sees ascend and no id
comes twice. If the names are valid UTF-8 and no indexed string holds a NUL
byte, a client that reaches an empty token saw every document that existed and
satisfied the filter in each snapshot exactly once. -/
theorem traverse_stable {lib : Lib} {codec : Codec} {fs : Files} {coll : Bytes} {filter : Filter}
    {requests : List (List Call × Int)} {last : PageToken} {pages : List (Store × List Row)}
    (hreq : requests ≠ [])
    (h : traverse lib codec fs coll filter .empty .empty requests = .ok (pages, last)) :
    ((allRows pages).map Row.key).Pairwise Before ∧
    ((allRows pages).map Row.id).Nodup ∧
    ((∀ req ∈ requests, ∀ call ∈ req.1, call.NameValid) →
      Always (step codec fs) (fun s => ∀ f, IndexNulFree fs coll f s) .empty
        (requests.flatMap Prod.fst) →
      last = .empty → ∀ k, (∀ pg ∈ pages, Matches lib fs coll filter pg.1 k) →
        ((allRows pages).map Row.key).count k = 1) := by
  obtain ⟨htrav, cm, _, hids⟩ := traverse_spec hreq h
  have hkeys : (pages.map fun pg => (Found lib fs coll filter pg.1, pg.2.map Row.key)).flatMap
      Prod.snd = (allRows pages).map Row.key := by
    rw [List.flatMap_map, allRows, List.map_flatMap]
  have htrans : IsTrans Bytes Before := ⟨fun _ _ _ => Before.trans⟩
  have hsorted := htrav.sorted
  rw [hkeys] at hsorted
  refine ⟨hsorted, ids_nodup hids hsorted, ?_⟩
  intro hnames hnul hlast k hstable
  have hready := traverse_ready (ready_empty fs coll) hnames hnul h
  apply List.count_eq_one_of_mem
  · exact hsorted.imp Before.ne
  · rw [← hkeys]
    rw [hlast] at htrav
    refine htrav.complete ?_ fun a ha => absurd ha (by simp [PageToken.after])
    intro pg hpg
    obtain ⟨pg', hpg', rfl⟩ := List.mem_map.mp hpg
    exact ⟨hready pg' hpg', hstable pg' hpg'⟩

/-! ## Paging red items -/

/-- The second red item is read although the first one is retagged before the
second page. -/
theorem traverse_stable_items :
    ∃ pages, traverse itemLib itemCodec itemFiles (ascii "items") red .empty .empty
        [(itemCalls.take 3, 1), ([.update (ascii "items") (ascii "a") blueA], 5)] =
          .ok (pages, .empty) ∧
      (allRows pages).map Row.id = [ascii "a", ascii "b"] ∧
      ((allRows pages).map Row.key).Pairwise Before ∧
      ∀ k, (∀ pg ∈ pages, Matches itemLib itemFiles (ascii "items") red pg.1 k) →
        ((allRows pages).map Row.key).count k = 1 := by
  have hrun : (traverse itemLib itemCodec itemFiles (ascii "items") red .empty .empty
      [(itemCalls.take 3, 1), ([.update (ascii "items") (ascii "a") blueA], 5)]).map
        (fun res => ((allRows res.1).map Row.id, res.2)) =
      .ok ([ascii "a", ascii "b"], .empty) := by decide +kernel
  obtain ⟨⟨pages, last⟩, htrav, hres⟩ := map_eq_ok_iff.mp hrun
  obtain ⟨hids, hlast⟩ := Prod.mk.inj hres
  change last = .empty at hlast
  subst hlast
  obtain ⟨hsorted, _, hcomplete⟩ := traverse_stable (List.cons_ne_nil _ _) htrav
  refine ⟨pages, htrav, hids, hsorted, hcomplete ?_ ?_ rfl⟩
  · intro req hreq
    rcases List.mem_cons.mp hreq with rfl | hreq
    · exact fun call hcall => itemCalls_valid call (List.mem_of_mem_take hcall)
    · rw [List.mem_singleton.mp hreq]
      intro call hcall
      rw [List.mem_singleton.mp hcall]
      trivial
  · refine ⟨?_, ?_, ?_, ?_, ?_⟩
    all_goals exact indexNulFree_of_check (by decide +kernel)

/-! ## Hidden documents -/

/-- The tag of one item, with the separator and its key, reads as the tag of
the other with its key. -/
def nulTag : Bytes := itemText (ascii "c") (ascii "a\\u0000b")
def nulSku : Bytes := itemText (ascii "b\\u0000c") (ascii "a")

def nulCodec : Codec := tableCodec
  [(nulTag, item (ascii "c") [97, 0, 98]), (nulSku, item [98, 0, 99] [97])]

/-- Deleting one item removes the entry of the other. -/
def nulCalls : List Call :=
  [.createCollection (ascii "items") itemName ⟨ascii "sku", [ascii "tag"]⟩,
    .insert (ascii "items") nulTag, .insert (ascii "items") nulSku,
    .delete (ascii "items") (ascii "c")]

/-- The name is stored as the replacement character, and queries use it. -/
def strayCalls : List Call :=
  [.createCollection [0xFF] itemName ⟨ascii "sku", []⟩, .insert [0xFF] redA]

/-- An empty last page hides every match. -/
theorem hidden_of_empty_page {lib : Lib} {codec : Codec} {fs : Files} {coll : Bytes}
    {filter : Filter} {calls : List Call} {pageSize : Int} {k : Bytes}
    (hpage : pageRows lib codec fs (run (step codec fs) .empty calls) coll filter pageSize .empty =
      .ok ([], .empty))
    (hmatch : isMatch lib fs coll filter (run (step codec fs) .empty calls) k = true) :
    ∃ pages, traverse lib codec fs coll filter .empty .empty [(calls, pageSize)] =
        .ok (pages, .empty) ∧
      allRows pages = [] ∧ ∀ pg ∈ pages, Matches lib fs coll filter pg.1 k := by
  refine ⟨[(run (step codec fs) .empty calls, [])], ?_, rfl, ?_⟩
  · rw [traverse]
    show (pageRows lib codec fs _ coll filter pageSize .empty >>= _) = _
    rw [hpage]
    rfl
  · intro pg hpg
    rw [List.mem_singleton.mp hpg]
    exact matches_of_check hmatch

/-- A document that matches is not on the only page: its entry was removed as
another document's, or the name of its collection is not valid UTF-8. -/
theorem stable_match_not_returned :
    (∃ pages, traverse itemLib nulCodec itemFiles (ascii "items")
        (.cmp ⟨ascii "tag", Op.eq, [97]⟩) .empty .empty [(nulCalls, 1)] = .ok (pages, .empty) ∧
      allRows pages = [] ∧
      ∀ pg ∈ pages, Matches itemLib itemFiles (ascii "items") (.cmp ⟨ascii "tag", Op.eq, [97]⟩) pg.1
        [98, 0, 99]) ∧
    (∃ pages, traverse itemLib itemCodec itemFiles [0xFF] .nil .empty .empty [(strayCalls, 1)] =
        .ok (pages, .empty) ∧
      allRows pages = [] ∧
      ∀ pg ∈ pages, Matches itemLib itemFiles [0xFF] .nil pg.1 (ascii "a")) := by
  constructor
  · exact hidden_of_empty_page (by decide +kernel) (by decide +kernel)
  · exact hidden_of_empty_page (by decide +kernel) (by decide +kernel)

end KoraDB.Query
