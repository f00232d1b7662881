import KoraDB.Cli.Query
import KoraDB.Query.Exact
import KoraDB.Storage.Contents

/-!
# Page sizes over the wire

A query of a server answers as the open database does, or fails, for the page
sizes that `SizeKept` describes. These are all: for any other size there is a
database on which the server answers something else (`remote_query_agrees`). Its
low 32 bits are a size that the server accepts. If they are zero, the server
ignores a token that the open database refuses. If they are not, a collection of
one document more than that has a first page on the server, and all its documents
on the open database.
-/

namespace KoraDB.Cli

open KoraDB.Base KoraDB.Proto KoraDB.Catalog KoraDB.Schema KoraDB.Engine KoraDB.Server

/-! ## Copies of an item -/

/-- Items by number, without an index. -/
def plainItems : CollectionMeta := ⟨ascii "items", itemName, .auto, [], []⟩

def redItem : Msg := ⟨itemDesc, item (ascii "a") (ascii "red")⟩

def copyCalls (n : Nat) : List Call :=
  .createCollection (ascii "items") itemName ⟨[], []⟩ ::
    List.replicate n (.insert (ascii "items") redA)

/-- What `n` inserts of the item leave. -/
structure Copied (n : Nat) (s : Store) : Prop where
  collection : getMeta s (ascii "items") = .ok plainItems
  sequence : s.sequence (dataBucket (ascii "items")) = n
  contents : s.Contents (dataBucket (ascii "items"))
    ((List.range n).map fun i => (be64 (i + 1), .document redItem.recs))

/-- A document that can be read goes into a collection by number. -/
theorem insert_auto {codec : Codec} {fs : Files} {s : Store} {coll json : Bytes}
    {cm : CollectionMeta} {msg : Msg} {w : Wire} (hcm : getMeta s coll = .ok cm)
    (hauto : cm.keyKind = .auto) (hindexes : cm.indexes = [])
    (hmsg : parse codec fs cm json = .ok msg) (hwire : marshal fs msg = some w) :
    ∃ s' id, insert codec fs s coll json = (s', .ok id) := by
  obtain ⟨s₁, n, hseq⟩ : ∃ s₁ n, s.nextSequence (dataBucket cm.name) = .ok (s₁, n) := ⟨_, _, rfl⟩
  obtain ⟨s₂, hput⟩ := @Storage.Store.put_ok _ s₁ (dataBucket coll) (be64 n) (.document w)
    (List.cons_ne_nil _ _) (List.cons_ne_nil _ _) (by rw [be64_length]; decide)
  refine ⟨s₂, formatUint n, Storage.Store.update_ok_iff.mpr ?_⟩
  simp only [insertTx, hcm, ok_bind, hmsg, deriveKey, hauto, hseq, wrap_ok, hwire, orErr_some, hput,
    indexInsert, eachIndexedValue, hindexes, List.foldlM_nil, pure, Except.pure]
  rfl

theorem copied_insert {n : Nat} {s : Store} (hn : n + 1 < 2 ^ 64) (h : Copied n s) :
    Copied (n + 1) (Engine.step itemCodec itemFiles s (.insert (ascii "items") redA)) := by
  have hparse : parse itemCodec itemFiles plainItems redA = .ok redItem := rfl
  obtain ⟨s', id, hins⟩ := @insert_auto itemCodec itemFiles s (ascii "items") redA plainItems
    redItem redItem.recs h.collection rfl rfl hparse (by decide +kernel)
  have hstep : Engine.step itemCodec itemFiles s (.insert (ascii "items") redA) = s' :=
    congrArg Prod.fst hins
  have hmeta := @getMeta_step itemCodec itemFiles s _ _ h.collection (.insert (ascii "items") redA)
  obtain ⟨cm, msg, s₁, key, hcm, hmsg, hplaced, _, hrw, hseq⟩ := insert_eq_ok hins
  rw [h.collection] at hcm
  cases hcm
  rw [hparse] at hmsg
  cases hmsg
  obtain ⟨m, hm, rfl, _, hnext⟩ := hplaced.auto rfl
  have hm : m = n + 1 := by
    rw [hm, show dataBucket plainItems.name = dataBucket (ascii "items") from rfl, h.sequence,
      Nat.mod_eq_of_lt hn]
  subst hm
  rw [hstep] at hmeta ⊢
  refine ⟨hmeta, ?_, ?_⟩
  · rw [hseq, hnext]
    exact if_pos rfl
  · rw [List.range_succ, List.map_append]
    refine h.contents.added ?_ fun k => ?_
    · -- the numbers given out so far are smaller
      cases hget : s.get (dataBucket (ascii "items")) (be64 (n + 1)) with
      | none => rfl
      | some b =>
          obtain ⟨i, hi, heq⟩ := List.mem_map.mp ((h.contents.get _ _).mp hget)
          have hlt := List.mem_range.mp hi
          have hsame := be64_inj (by omega) (by omega) (congrArg Prod.fst heq)
          omega
    · by_cases hk : be64 (n + 1) = k
      · rw [if_pos hk, ← hk]
        exact hrw.doc
      · rw [if_neg hk]
        exact hrw.get_data fun hh => hk hh.2

theorem copied_run {n : Nat} (hn : n < 2 ^ 64) :
    Copied n (run (Engine.step itemCodec itemFiles) .empty (copyCalls n)) := by
  induction n with
  | zero =>
      refine ⟨by decide +kernel, by decide +kernel, List.nodup_nil, fun k v => ?_⟩
      have hempty : (run (Engine.step itemCodec itemFiles) .empty (copyCalls 0)).scan
          (dataBucket (ascii "items")) = [] := by decide +kernel
      rw [← Storage.Store.mem_scan, hempty]
      rfl
  | succ n ih =>
      have hcalls : copyCalls (n + 1) = copyCalls n ++ [.insert (ascii "items") redA] := by
        unfold copyCalls
        rw [List.replicate_succ', List.cons_append]
      rw [hcalls, run_append]
      exact copied_insert hn (ih (by omega))

section

variable {n : Nat} {s : Store}

/-- A stored item. -/
theorem Copied.stored (h : Copied n s) {k : Bytes} {b : Blob}
    (hget : s.get (dataBucket (ascii "items")) k = some b) :
    ∃ i < n, k = be64 (i + 1) ∧ b = .document redItem.recs := by
  obtain ⟨i, hi, heq⟩ := List.mem_map.mp ((h.contents.get k b).mp hget)
  cases heq
  exact ⟨i, List.mem_range.mp hi, rfl, rfl⟩

theorem decode_redItem : decode itemFiles plainItems (.document redItem.recs) = .ok redItem := rfl

/-- Nothing fails on a query for the red ones. -/
theorem Copied.answers (h : Copied n s) (hn : n < 2 ^ 64) :
    ∃ hash, Query.Answers Query.itemLib itemCodec itemFiles s (ascii "items") plainItems itemDesc
      Query.red hash := by
  obtain ⟨hash, hhash⟩ := Query.filterHash_known Query.itemLib
    (show Query.red.known = true by decide)
  refine ⟨hash, ⟨h.collection, rfl, by decide, hhash, ?_, ?_⟩, rfl, ?_⟩
  · intro k b hget
    obtain ⟨i, _, rfl, _⟩ := h.stored hget
    exact List.cons_ne_nil _ _
  · rintro ⟨k, b⟩ he
    obtain ⟨i, hi, rfl, rfl⟩ := h.stored (Storage.Store.mem_scan.mp he)
    exact ⟨redItem, true, decode_redItem, by decide +kernel, rfl, ⟨redA, by decide +kernel⟩,
      ⟨_, idFromStorageKey_auto rfl (by omega)⟩⟩
  · -- without an index there is no seed
    intro n after keys hkeys
    cases hkeys

/-- The rows of such a query. -/
def redRows (s : Store) : List Query.Row :=
  Query.resultRows Query.itemLib itemCodec itemFiles s (ascii "items") plainItems Query.red

/-- All of them match. -/
theorem Copied.redRows_length (h : Copied n s) : (redRows s).length = n := by
  have hall : Query.matching noFloat itemFiles s (ascii "items") plainItems Query.red =
      (s.scan (dataBucket (ascii "items"))).map fun e => (e.1, redItem) := by
    unfold Query.matching Query.satisfying
    rw [← List.filterMap_eq_map]
    refine List.filterMap_congr ?_
    rintro ⟨k, b⟩ he
    obtain ⟨_, _, _, rfl⟩ := h.stored (Storage.Store.mem_scan.mp he)
    simp only [decode_redItem]
    rfl
  unfold redRows Query.resultRows
  rw [List.length_map, show Query.itemLib.parseFloat = noFloat from rfl, hall, List.length_map,
    h.contents.scan_eq, (Storage.Store.byKey_perm _ _).length_eq, List.length_map,
    List.length_range]

end

/-! ## First pages -/

/-- The first page as a text page. -/
theorem executePageText_first {lib : Query.Lib} {codec : Codec} {fs : Files} {s : Store}
    {coll hash : Bytes} {cm : CollectionMeta} {md : MessageDesc} {filter : Query.Filter}
    (h : Query.Answers lib codec fs s coll cm md filter hash) {n : Nat} (hn : 0 < n) :
    ∃ next, executePageText lib codec fs s coll filter n [] =
      .ok ⟨((Query.resultRows lib codec fs s coll cm filter).take n).map Query.Row.result,
        next⟩ := by
  have hpage : (Query.pageRows lib codec fs s coll filter n (Query.readPageToken [])).map
      Query.toPage = _ :=
    @Query.Answers.executePage_eq lib codec fs s coll cm md filter hash h [] _
      (List.nil_append _).symm n hn
  rw [Query.pageRows_readPageToken] at hpage
  obtain ⟨p, hp, hres⟩ := map_eq_ok_iff.mp hpage
  obtain ⟨⟨rows, next⟩, htext, rfl⟩ := map_eq_ok_iff.mp hp
  refine ⟨next, ?_⟩
  rw [executePageText, htext]
  exact congrArg (fun results => Except.ok (TextPage.mk results next))
    (congrArg Query.Page.results hres)

/-- What a query of the copies returns can be sent. -/
theorem Copied.valid {n : Nat} {s : Store} (h : Copied n s) (hn : n < 2 ^ 64) (m : Nat) :
    validStrings ((((redRows s).take m).map Query.Row.result).flatMap fun res =>
      [res.id, res.json]) = true := by
  obtain ⟨hash, hanswers⟩ := h.answers hn
  refine List.all_eq_true.mpr fun text htext => ?_
  obtain ⟨res, hres, htext⟩ := List.mem_flatMap.mp htext
  obtain ⟨row, hrow, rfl⟩ := List.mem_map.mp hres
  obtain ⟨⟨k, msg⟩, he, rfl⟩ := List.mem_map.mp (List.mem_of_mem_take hrow)
  obtain ⟨hid, hjson⟩ := hanswers.isResult_rowOf he
  obtain ⟨b, hb, hdec, _⟩ := Query.mem_satisfying.mp he
  obtain ⟨i, hi, rfl, rfl⟩ := h.stored (Storage.Store.mem_scan.mp hb)
  rw [decode_redItem] at hdec
  cases hdec
  rcases List.mem_cons.mp htext with rfl | htext
  · rw [idFromStorageKey_auto rfl (by omega)] at hid
    rw [← Except.ok.inj hid]
    exact validString_of_ascii fun b hb => UInt8.lt_of_le_of_lt (digits_formatUint hb).2 (by decide)
  · rw [List.mem_singleton.mp htext]
    rw [show renderMessage itemCodec itemFiles redItem = .ok redA by decide +kernel] at hjson
    rw [← Except.ok.inj hjson]
    decide +kernel

/-! ## Agreement -/

/-- A query of a server fails, or returns what the open database returns. -/
def Agree (remote embedded : Except QueryCmdErr TextPage) : Prop :=
  (∃ e, remote = .error e) ∨ ∃ page, remote = .ok page ∧ embedded = .ok page

theorem agree_of_eq_ok {remote embedded : Except QueryCmdErr TextPage}
    (h : ∀ page, remote = .ok page → embedded = .ok page) : Agree remote embedded := by
  cases hremote : remote with
  | error e => exact .inl ⟨e, rfl⟩
  | ok page => exact .inr ⟨page, rfl, h page hremote⟩

theorem Agree.eq_ok {remote embedded : Except QueryCmdErr TextPage} {page : TextPage}
    (h : Agree remote embedded) (hremote : remote = .ok page) : embedded = .ok page := by
  rcases h with ⟨e, he⟩ | ⟨page', hpage, hembedded⟩
  · rw [hremote] at he
    cases he
  · rw [hremote] at hpage
    cases hpage
    exact hembedded

/-- A size that wraps to zero: the token is a text that is no token. -/
theorem disagree_at_zero {pageSize : Int} (hwraps : int32 pageSize = 0) (hpos : 0 < pageSize) :
    ¬ Agree
      (remoteQueryPage Query.itemLib itemCodec itemFiles Query.shelf none (ascii "items")
        (ascii "tag") Query.Op.eq (ascii "red") pageSize (ascii "!"))
      (embeddedQueryPage Query.itemLib itemCodec itemFiles Query.shelf (ascii "items")
        (ascii "tag") Query.Op.eq (ascii "red") pageSize (ascii "!")) := by
  intro hagree
  have hremote : (remoteQueryPage Query.itemLib itemCodec itemFiles Query.shelf none
      (ascii "items") (ascii "tag") Query.Op.eq (ascii "red") pageSize (ascii "!")).isOk =
        true := by
    unfold remoteQueryPage
    rw [hwraps]
    decide +kernel
  have hembedded : embeddedQueryPage Query.itemLib itemCodec itemFiles Query.shelf (ascii "items")
      (ascii "tag") Query.Op.eq (ascii "red") pageSize (ascii "!") =
        .error (.query (.query (.invalidPageToken .malformedEncoding))) := by
    rw [embeddedQueryPage, if_neg (by omega), executePageText, Query.pageText,
      decide_eq_false (by omega), readPageToken_mark]
    rfl
  cases hres : remoteQueryPage Query.itemLib itemCodec itemFiles Query.shelf none (ascii "items")
      (ascii "tag") Query.Op.eq (ascii "red") pageSize (ascii "!") with
  | error e =>
      rw [hres] at hremote
      cases hremote
  | ok page =>
      rw [hagree.eq_ok hres] at hembedded
      cases hembedded

section

variable {n w : Nat} {s : Store} {pageSize : Int}

/-- The first page of the copies on the open database. -/
theorem Copied.embedded (h : Copied n s) (hn : n < 2 ^ 64) (hw : 0 < w) :
    ∃ next, embeddedQueryPage Query.itemLib itemCodec itemFiles s (ascii "items") (ascii "tag")
      Query.Op.eq (ascii "red") w [] = .ok ⟨((redRows s).take w).map Query.Row.result, next⟩ := by
  obtain ⟨hash, hanswers⟩ := h.answers hn
  obtain ⟨next, hfirst⟩ := executePageText_first hanswers hw
  refine ⟨next, ?_⟩
  rw [embeddedQueryPage, if_neg (by omega)]
  exact wrap_eq_ok_iff.mpr hfirst

/-- The first page of the copies on a server. -/
theorem Copied.remote (h : Copied n s) (hn : n < 2 ^ 64) (hwraps : int32 pageSize = w)
    (hpos : 0 < w) (hw : w ≤ 1000) :
    ∃ next, remoteQueryPage Query.itemLib itemCodec itemFiles s none (ascii "items") (ascii "tag")
      Query.Op.eq (ascii "red") pageSize [] =
        .ok ⟨((redRows s).take w).map Query.Row.result, next⟩ := by
  obtain ⟨hash, hanswers⟩ := h.answers hn
  obtain ⟨next, hfirst⟩ := executePageText_first hanswers hpos
  have hfilter : toFilter (.cmp (some ⟨ascii "tag", toWireOp Query.Op.eq, ascii "red"⟩)) =
      .ok Query.red := rfl
  have hquery : queryText Query.itemLib itemCodec itemFiles s (ascii "items")
      (.cmp (some ⟨ascii "tag", toWireOp Query.Op.eq, ascii "red"⟩)) w [] =
        .ok ⟨((redRows s).take w).map Query.Row.result, next⟩ := by
    simp only [queryText, bind_eq_ok_iff, wrap_eq_ok_iff, reject_eq_ok_iff, Bool.or_eq_false_iff,
      decide_eq_false_iff_not]
    refine ⟨Query.red, hfilter, (), ⟨by omega, ?_⟩, ?_⟩
    · show ¬ (1000 : Int) < w
      omega
    · rw [if_neg (by omega)]
      exact wrap_eq_ok_iff.mpr hfirst
  refine ⟨next, ?_⟩
  simp only [remoteQueryPage, bind_eq_ok_iff, wrap_eq_ok_iff, reject_eq_ok_iff, hwraps]
  exact ⟨(), by decide, _, hquery, (), by rw [h.valid hn]; rfl, rfl⟩

/-- A size that wraps to a smaller one, over one document more than that. -/
theorem disagree_at_copies (hs : Copied (w + 1) s) (hwraps : int32 pageSize = w) (hpos : 0 < w)
    (hw : w ≤ 1000) (hbig : 2 ^ 32 ≤ pageSize) :
    ¬ Agree
      (remoteQueryPage Query.itemLib itemCodec itemFiles s none (ascii "items") (ascii "tag")
        Query.Op.eq (ascii "red") pageSize [])
      (embeddedQueryPage Query.itemLib itemCodec itemFiles s (ascii "items") (ascii "tag")
        Query.Op.eq (ascii "red") pageSize []) := by
  intro hagree
  have hfew : w + 1 < 2 ^ 64 := by omega
  obtain ⟨next, hremote⟩ := hs.remote hfew hwraps hpos hw
  obtain ⟨size, rfl⟩ := Int.eq_ofNat_of_zero_le (show 0 ≤ pageSize by omega)
  obtain ⟨next', hembedded⟩ := hs.embedded hfew (show 0 < size by omega)
  have hpage := hagree.eq_ok hremote
  rw [hembedded] at hpage
  have hlength := congrArg (fun page => page.results.length) (Except.ok.inj hpage)
  simp only [List.length_map, List.length_take, hs.redRows_length] at hlength
  omega

end

/-- **The backends agree on the sizes that are kept, and on no others.** For such
a size a query of a server fails or has the rows and the token that the open
database gives, in every state and whatever is asked. For any other size a
database can be made on which the server answers, and answers something else. -/
theorem remote_query_agrees (pageSize : Int) (h0 : 0 ≤ pageSize) :
    (SizeKept pageSize → ∀ lib codec fs s refusal coll field op value pageToken,
      Agree (remoteQueryPage lib codec fs s refusal coll field op value pageSize pageToken)
        (embeddedQueryPage lib codec fs s coll field op value pageSize pageToken)) ∧
    (¬ SizeKept pageSize → ∃ lib codec fs calls coll field op value pageToken,
      let s := run (Engine.step codec fs) .empty calls
      ¬ Agree (remoteQueryPage lib codec fs s none coll field op value pageSize pageToken)
        (embeddedQueryPage lib codec fs s coll field op value pageSize pageToken)) := by
  refine ⟨?_, ?_⟩
  · intro hkept lib codec fs s refusal coll field op value pageToken
    exact agree_of_eq_ok fun page => remoteQueryPage_eq_ok (hkept.arrives h0)
  · intro hwrong
    obtain ⟨hwraps, hbig, hlow, hhigh⟩ := int32_of_not_kept hwrong
    obtain ⟨w, hw⟩ := Int.eq_ofNat_of_zero_le hlow
    rw [hw] at hwraps hhigh
    by_cases hzero : w = 0
    · rw [hzero] at hwraps
      exact ⟨Query.itemLib, itemCodec, itemFiles, itemCalls.take 3, ascii "items", ascii "tag",
        Query.Op.eq, ascii "red", ascii "!", disagree_at_zero hwraps (by omega)⟩
    · exact ⟨Query.itemLib, itemCodec, itemFiles, copyCalls (w + 1), ascii "items", ascii "tag",
        Query.Op.eq, ascii "red", [],
        disagree_at_copies (copied_run (by omega)) hwraps (by omega) (by omega) hbig⟩

/-- The red items of the shelf over both backends, with a page size the server
takes as it is. -/
theorem remote_query_agrees_items :
    ∃ page, remoteQueryPage Query.itemLib itemCodec itemFiles Query.shelf none (ascii "items")
        (ascii "tag") Query.Op.eq (ascii "red") 1000 [] = .ok page ∧
      page.results.map Query.Result.id = [ascii "a", ascii "b"] ∧
      embeddedQueryPage Query.itemLib itemCodec itemFiles Query.shelf (ascii "items")
        (ascii "tag") Query.Op.eq (ascii "red") 1000 [] = .ok page := by
  have hremote : (remoteQueryPage Query.itemLib itemCodec itemFiles Query.shelf none
      (ascii "items") (ascii "tag") Query.Op.eq (ascii "red") 1000 []).map
      (fun page => page.results.map Query.Result.id) = .ok [ascii "a", ascii "b"] := by
    decide +kernel
  obtain ⟨page, hok, hids⟩ := map_eq_ok_iff.mp hremote
  exact ⟨page, hok, hids, ((remote_query_agrees 1000 (by decide)).1 (.inl (by decide)) _ _ _ _ _ _ _
    _ _ _).eq_ok hok⟩

end KoraDB.Cli
