import KoraDB.Query.Page

/-!
# The index and the scan give one page (`internal/query`)

The loop over the keys of an index reads documents one by one, the full scan
reads them all in key order. `storedLoop` is between the two: it runs over
listed documents and looks at the cursor before it decodes. The seeded loop is
`storedLoop` on the documents its keys name, and a scan that succeeds is
`storedLoop` on any part of the documents that holds every match.
-/

namespace KoraDB.Query

open KoraDB.Base KoraDB.Proto KoraDB.Catalog KoraDB.Schema KoraDB.Engine

section Loops

variable (lib : Lib) (codec : Codec) (fs : Files) (p : Plan)

/-- The loop over listed documents. -/
def storedLoop : List (Bytes × Blob) → Acc → Except QueryErr Acc
  | [], acc => .ok acc
  | (k, b) :: rest, acc =>
    if skips p k then storedLoop rest acc
    else do
      let msg ← wrap (decode fs p.cm b) .engine
      let acc ← consider lib codec fs p acc k msg
      if acc.more then .ok acc else storedLoop rest acc

/-- The document matches the filter. -/
def satisfies (b : Blob) : Bool :=
  match decode fs p.cm b with
  | .error _ => false
  | .ok msg =>
    match eval lib p.cm.messageType p.md msg p.filter with
    | .ok true => true
    | _ => false

/-- The keys of the matches behind the cursor. -/
def hits (docs : List (Bytes × Blob)) : List Bytes :=
  (docs.filter fun e => !skips p e.1 && satisfies lib fs p e.2).map Prod.fst

variable {lib codec fs p}

theorem satisfies_iff {b : Blob} :
    satisfies lib fs p b = true ↔
      ∃ msg, decode fs p.cm b = .ok msg ∧
        eval lib p.cm.messageType p.md msg p.filter = .ok true := by
  unfold satisfies
  cases decode fs p.cm b with
  | error e => simp
  | ok msg =>
      simp only [Except.ok.injEq, exists_eq_left']
      split <;> simp_all

theorem hits_cons (k : Bytes) (b : Blob) (docs : List (Bytes × Blob)) :
    hits lib fs p ((k, b) :: docs) =
      if skips p k = false ∧ satisfies lib fs p b = true then k :: hits lib fs p docs
      else hits lib fs p docs := by
  unfold hits
  rw [List.filter_cons]
  simp only [Bool.and_eq_true, Bool.not_eq_true']
  split <;> rfl

/-! ## One document -/

/-- What `consider` can do: pass over the document, find the page full, or add
a row. -/
theorem consider_eq_ok {acc acc' : Acc} {key : Bytes} {msg : Msg}
    (h : consider lib codec fs p acc key msg = .ok acc') :
    (eval lib p.cm.messageType p.md msg p.filter = .ok false ∧ acc' = acc) ∨
    (eval lib p.cm.messageType p.md msg p.filter = .ok true ∧
      ((p.pageSize ≤ acc.rows.length ∧ acc' = { acc with more := true }) ∨
       (acc.rows.length < p.pageSize ∧ ∃ id j, idFromStorageKey fs p.cm key = .ok id ∧
          renderMessage codec fs msg = .ok j ∧
          acc' = { acc with rows := acc.rows ++ [⟨key, id, j⟩], lastKey := key }))) := by
  obtain ⟨ok, heval, h⟩ := bind_eq_ok_iff.mp h
  cases ok with
  | false =>
      cases h
      exact .inl ⟨heval, rfl⟩
  | true =>
      refine .inr ⟨heval, ?_⟩
      change appendResult codec fs p acc key msg = .ok acc' at h
      unfold appendResult at h
      split at h
      · rename_i hfull
        cases h
        exact .inl ⟨hfull, rfl⟩
      · rename_i hroom
        simp only [bind_eq_ok_iff, wrap_eq_ok_iff, pure, Except.pure, Except.ok.injEq] at h
        obtain ⟨j, hj, id, hid, rfl⟩ := h
        exact .inr ⟨Int.not_le.mp hroom, id, j, hid, hj, rfl⟩

/-! ## The two loops -/

theorem fetchByKey_eq {s : Store} {cm : CollectionMeta} {k : Bytes} {b : Blob}
    (h : s.get (dataBucket cm.name) k = some b) :
    fetchByKey fs s cm k = (decode fs cm b).map some := by
  unfold fetchByKey
  rw [h]

theorem seededLoop_eq_storedLoop (s : Store) (keys : List Bytes) (acc : Acc) :
    seededLoop lib codec fs p s keys acc =
      storedLoop lib codec fs p
        (keys.filterMap fun k => (s.get (dataBucket p.cm.name) k).map fun b => (k, b)) acc := by
  induction keys generalizing acc with
  | nil => rfl
  | cons k keys ih =>
      rw [seededLoop]
      cases hget : s.get (dataBucket p.cm.name) k with
      | none =>
          rw [List.filterMap_cons_none (by rw [hget]; rfl)]
          unfold fetchByKey
          rw [hget]
          show (if skips p k = true then _ else seededLoop lib codec fs p s keys acc) = _
          rw [ite_self]
          exact ih acc
      | some b =>
          rw [List.filterMap_cons_some (by rw [hget]; rfl), storedLoop, fetchByKey_eq hget]
          by_cases hskip : skips p k = true
          · rw [if_pos hskip, if_pos hskip]
            exact ih acc
          · rw [if_neg hskip, if_neg hskip]
            cases decode fs p.cm b with
            | error e => rfl
            | ok msg =>
                show (consider lib codec fs p acc k msg >>= fun acc' =>
                    if acc'.more = true then .ok acc' else seededLoop lib codec fs p s keys acc') =
                  (consider lib codec fs p acc k msg >>= _)
                congr 1
                funext acc'
                rw [ih acc']

/-- A scan that succeeds needs only the documents that match. -/
theorem storedLoop_filter_of_scanLoop {keep : Bytes × Blob → Bool} {docs : List (Bytes × Blob)}
    {acc acc' : Acc} (hkeep : ∀ e ∈ docs, satisfies lib fs p e.2 = true → keep e = true)
    (hmore : acc.more = false) (h : scanLoop lib codec fs p docs acc = .ok acc') :
    storedLoop lib codec fs p (docs.filter keep) acc = .ok acc' := by
  induction docs generalizing acc with
  | nil => exact h
  | cons e docs ih =>
      obtain ⟨k, b⟩ := e
      have hrest : ∀ e ∈ docs, satisfies lib fs p e.2 = true → keep e = true :=
        fun e he => hkeep e (List.mem_cons_of_mem _ he)
      rw [scanLoop] at h
      obtain ⟨msg, hdec, hloop⟩ := bind_eq_ok_iff.mp h
      rw [wrap_eq_ok_iff] at hdec
      by_cases hskip : skips p k = true
      · -- before the cursor: the scan decoded the document for nothing
        simp only [if_pos hskip, ok_bind, hmore] at hloop
        rw [List.filter_cons]
        split
        · rw [storedLoop, if_pos hskip]
          exact ih hrest hmore hloop
        · exact ih hrest hmore hloop
      · simp only [if_neg hskip] at hloop
        obtain ⟨acc₁, hstep, hnext⟩ := bind_eq_ok_iff.mp hloop
        by_cases hk : keep (k, b) = true
        · rw [List.filter_cons_of_pos hk, storedLoop, if_neg hskip, hdec, wrap_ok, ok_bind, hstep,
            ok_bind]
          cases hfull : acc₁.more with
          | true =>
              rw [hfull] at hnext
              exact hnext
          | false =>
              rw [hfull] at hnext
              exact ih hrest hfull hnext
        · -- a document left out does not match, so it left no trace
          rw [List.filter_cons_of_neg hk]
          rcases consider_eq_ok hstep with ⟨_, rfl⟩ | ⟨htrue, _⟩
          · rw [hmore] at hnext
            exact ih hrest hmore hnext
          · exact absurd (hkeep _ List.mem_cons_self (satisfies_iff.mpr ⟨msg, hdec, htrue⟩)) hk

/-! ## What a page holds -/

/-- Rows carry the ids of their keys, the last key is the last row's, and the
page is not overfull. -/
structure Acc.Kept (fs : Files) (p : Plan) (acc : Acc) : Prop where
  ids : ∀ row ∈ acc.rows, idFromStorageKey fs p.cm row.key = .ok row.id
  last : acc.lastKey = (acc.rows.getLast?.map Row.key).getD []
  room : acc.rows.length ≤ p.pageSize

theorem Acc.Kept.push {acc : Acc} {key id j : Bytes} (h : acc.Kept fs p)
    (hroom : acc.rows.length < p.pageSize) (hid : idFromStorageKey fs p.cm key = .ok id) :
    Acc.Kept fs p { acc with rows := acc.rows ++ [⟨key, id, j⟩], lastKey := key } := by
  refine ⟨?_, by simp, ?_⟩
  · intro row hrow
    rcases List.mem_append.mp hrow with hrow | hrow
    · exact h.ids row hrow
    · rw [List.mem_singleton.mp hrow]
      exact hid
  · simp only [List.length_append, List.length_singleton]
    omega

/-- The loop takes matches until the page is full, and reports whether one is
left over. -/
theorem storedLoop_takes {docs : List (Bytes × Blob)} {acc acc' : Acc} (hacc : acc.Kept fs p)
    (hmore : acc.more = false) (h : storedLoop lib codec fs p docs acc = .ok acc') :
    acc'.Kept fs p ∧
    acc'.rows.map Row.key = acc.rows.map Row.key ++
      (hits lib fs p docs).take (p.pageSize - acc.rows.length).toNat ∧
    acc'.more = decide ((p.pageSize - acc.rows.length).toNat < (hits lib fs p docs).length) := by
  induction docs generalizing acc with
  | nil =>
      cases h
      exact ⟨hacc, by simp [hits], by simp [hits, hmore]⟩
  | cons e docs ih =>
      obtain ⟨k, b⟩ := e
      rw [storedLoop] at h
      rw [hits_cons]
      by_cases hskip : skips p k = true
      · rw [if_pos hskip] at h
        rw [if_neg (by simp [hskip])]
        exact ih hacc hmore h
      · rw [if_neg hskip] at h
        obtain ⟨msg, hdec, hloop⟩ := bind_eq_ok_iff.mp h
        rw [wrap_eq_ok_iff] at hdec
        obtain ⟨acc₁, hstep, hnext⟩ := bind_eq_ok_iff.mp hloop
        rcases consider_eq_ok hstep with
          ⟨hfalse, rfl⟩ | ⟨htrue, ⟨hfull, rfl⟩ | ⟨hroom, id, j, hid, _, rfl⟩⟩
        · -- no match
          have hsat : satisfies lib fs p b = false := by
            simp [satisfies, hdec, hfalse]
          rw [hmore] at hnext
          rw [if_neg (by simp [hsat])]
          exact ih hacc hmore hnext
        · -- the page is full and this match is the one left over
          cases hnext
          have hzero : (p.pageSize - acc.rows.length).toNat = 0 := by omega
          rw [if_pos ⟨Bool.not_eq_true _ ▸ hskip, satisfies_iff.mpr ⟨msg, hdec, htrue⟩⟩, hzero]
          exact ⟨⟨hacc.ids, hacc.last, hacc.room⟩, by simp, by simp⟩
        · have hsucc : (p.pageSize - acc.rows.length).toNat =
              (p.pageSize - (acc.rows.length + 1 : Nat)).toNat + 1 := by omega
          rw [if_pos ⟨Bool.not_eq_true _ ▸ hskip, satisfies_iff.mpr ⟨msg, hdec, htrue⟩⟩, hsucc]
          rw [if_neg (by simp [hmore])] at hnext
          obtain ⟨hkept, hkeys, hleft⟩ := ih (hacc.push hroom hid) hmore hnext
          simp only [List.length_append, List.length_singleton] at hkeys hleft
          refine ⟨hkept, ?_, ?_⟩
          · rw [hkeys, List.take_succ_cons]
            simp
          · rw [hleft]
            simp

end Loops

/-! ## The candidates of an index -/

theorem mem_sortKeys {keys : List Bytes} {k : Bytes} : k ∈ sortKeys keys ↔ k ∈ keys :=
  (List.perm_insertionSort _ keys).mem_iff

theorem sortKeys_sorted {keys : List Bytes} (h : keys.Nodup) : (sortKeys keys).Pairwise Before := by
  have htotal : Std.Total fun a b : Bytes => (compare a b).isLE = true := by
    refine ⟨fun a b => ?_⟩
    rw [isLE_iff, isLE_iff]
    rcases before_trichotomy a b with hab | hab | hab
    · exact .inl (.inr hab)
    · exact .inl (.inl hab)
    · exact .inr (.inr hab)
  have htrans : IsTrans Bytes fun a b => (compare a b).isLE = true :=
    ⟨fun a b c => Std.TransCmp.isLE_trans⟩
  have hnodup : (sortKeys keys).Nodup := (List.perm_insertionSort _ keys).nodup_iff.mpr h
  have hle : (sortKeys keys).Pairwise fun a b => (compare a b).isLE = true :=
    List.pairwise_insertionSort _ keys
  refine hle.imp₂ ?_ hnodup
  intro a b hab hne
  exact (isLE_iff.mp hab).resolve_left hne

/-- The documents that sorted keys name, as part of the scan. -/
theorem fetched_eq_filter {s : Store} {bucket : Bytes} {keys : List Bytes} (h : keys.Nodup) :
    ((sortKeys keys).filterMap fun k => (s.get bucket k).map fun b => (k, b)) =
      (s.scan bucket).filter fun e => decide (e.1 ∈ keys) := by
  apply BMap.keySorted_ext
  · rw [List.pairwise_filterMap]
    refine (sortKeys_sorted h).imp ?_
    intro k k' hlt e he e' he'
    obtain ⟨b, _, rfl⟩ := Option.map_eq_some_iff.mp he
    obtain ⟨b', _, rfl⟩ := Option.map_eq_some_iff.mp he'
    exact hlt
  · exact (s.scan_sorted bucket).filter _
  · intro k b
    rw [List.mem_filterMap, List.mem_filter, Storage.Store.mem_scan, decide_eq_true_iff]
    constructor
    · rintro ⟨k', hk', he⟩
      obtain ⟨b', hb', hpair⟩ := Option.map_eq_some_iff.mp he
      cases hpair
      exact ⟨hb', mem_sortKeys.mp hk'⟩
    · rintro ⟨hb, hk⟩
      exact ⟨k, mem_sortKeys.mpr hk, by rw [hb]; rfl⟩

/-- The keys the loop starts from, if any, are distinct and name every
match. -/
def SeedCovers (lib : Lib) (fs : Files) (s : Store) (p : Plan) (seed : Option (List Bytes)) :
    Prop :=
  ∀ keys ∈ seed, keys.Nodup ∧ ∀ k b, s.get (dataBucket p.cm.name) k = some b →
    satisfies lib fs p b = true → k ∈ keys

section Seeds

variable {lib : Lib} {codec : Codec} {fs : Files} {s : Store} {p : Plan}

/-- The keys of an indexed equality of the filter name every match. -/
theorem seedCovers_lookup {c : Cmp} {keys : List Bytes}
    (hmd : fs.findMessage p.cm.messageType = some p.md)
    (hcov : EntriesCover fs s p.cm c.field) (hc : c ∈ seedCandidates p.filter) (hop : c.op = Op.eq)
    (hl : lookupByIndex lib.parseFloat fs s p.cm c.field c.value = .ok keys) :
    SeedCovers lib fs s p (some keys) := by
  intro keys' hkeys
  cases hkeys
  obtain ⟨_, _, _, _, _, _, _, _, hnodup, _⟩ := lookupByIndex_eq_ok hl
  refine ⟨hnodup, ?_⟩
  intro k b hb hsat
  obtain ⟨msg, hdec, htrue⟩ := satisfies_iff.mp hsat
  obtain ⟨fd, lit, hfd, hlit, heq⟩ := evalCmp_eq_true hop (evalCmp_of_match htrue hc)
  obtain ⟨w, _, _, rfl⟩ := (decode_eq_ok_iff hmd).mp hdec
  exact mem_lookup hcov hl hb hdec hfd hlit heq

theorem indexSeed_eq_some {cm : CollectionMeta} {filter : Filter} {keys : List Bytes}
    (h : indexSeed lib fs s cm filter = some keys) :
    ∃ c ∈ seedCandidates filter, c.op = Op.eq ∧ hasIndex cm c.field = true ∧
      lookupByIndex lib.parseFloat fs s cm c.field c.value = .ok keys := by
  obtain ⟨c, hc, hpick⟩ := List.exists_of_findSome?_eq_some h
  split at hpick
  · rename_i hpred
    refine ⟨c, hc, hpred.1, hpred.2, ?_⟩
    cases hl : lookupByIndex lib.parseFloat fs s cm c.field c.value with
    | error e =>
        rw [hl] at hpick
        cases hpick
    | ok keys' =>
        rw [hl] at hpick
        cases hpick
        rfl
  · cases hpick

theorem seedCovers_indexSeed (hmd : fs.findMessage p.cm.messageType = some p.md)
    (hcov : ∀ f ∈ p.cm.indexes, EntriesCover fs s p.cm f) :
    SeedCovers lib fs s p (indexSeed lib fs s p.cm p.filter) := by
  intro keys hkeys
  obtain ⟨c, hc, hop, hindex, hl⟩ := indexSeed_eq_some hkeys
  exact seedCovers_lookup hmd (hcov _ (hasIndex_iff.mp hindex)) hc hop hl keys rfl

/-- The seeded branch repeats a scan that succeeds. -/
theorem collect_of_scan {seed : Option (List Bytes)} {acc : Acc}
    (hseed : SeedCovers lib fs s p seed) (h : collect lib codec fs p s none = .ok acc) :
    collect lib codec fs p s seed = .ok acc := by
  cases seed with
  | none => exact h
  | some keys =>
      obtain ⟨hnodup, hall⟩ := hseed keys rfl
      show seededLoop lib codec fs p s (sortKeys keys) ⟨[], [], false⟩ = .ok acc
      rw [seededLoop_eq_storedLoop, fetched_eq_filter hnodup]
      refine storedLoop_filter_of_scanLoop ?_ rfl h
      intro e he hsat
      rw [decide_eq_true_iff]
      exact hall e.1 e.2 (Storage.Store.mem_scan.mp he) hsat

theorem hits_filter {keep : Bytes × Blob → Bool} {docs : List (Bytes × Blob)}
    (hkeep : ∀ e ∈ docs, satisfies lib fs p e.2 = true → keep e = true) :
    hits lib fs p (docs.filter keep) = hits lib fs p docs := by
  unfold hits
  rw [List.filter_filter]
  congr 1
  apply List.filter_congr
  intro e he
  cases hsat : satisfies lib fs p e.2 with
  | false => simp
  | true => simp [hkeep e he hsat]

/-- The documents that a branch goes through: all, or those the seed names. -/
def named (seed : Option (List Bytes)) (e : Bytes × Blob) : Bool :=
  seed.all fun keys => keys.contains e.1

/-- Either branch fills the page with the first matches behind the cursor among
the documents it goes through. -/
theorem collect_takes_named {seed : Option (List Bytes)} {acc : Acc} (hsize : 0 < p.pageSize)
    (hseed : ∀ keys ∈ seed, keys.Nodup) (h : collect lib codec fs p s seed = .ok acc) :
    acc.Kept fs p ∧
    acc.rows.map Row.key =
      (hits lib fs p ((s.scan (dataBucket p.cm.name)).filter (named seed))).take
        p.pageSize.toNat ∧
    acc.more = decide (p.pageSize.toNat <
      (hits lib fs p ((s.scan (dataBucket p.cm.name)).filter (named seed))).length) := by
  have hstart : Acc.Kept fs p ⟨[], [], false⟩ :=
    ⟨fun row hrow => absurd hrow List.not_mem_nil, rfl, Int.le_of_lt hsize⟩
  cases seed with
  | none =>
      have hstored := @storedLoop_filter_of_scanLoop _ _ _ _ (named none) _ _ _
        (fun _ _ _ => rfl) rfl h
      simpa using storedLoop_takes hstart rfl hstored
  | some keys =>
      change seededLoop lib codec fs p s (sortKeys keys) ⟨[], [], false⟩ = .ok acc at h
      rw [seededLoop_eq_storedLoop, fetched_eq_filter (hseed keys rfl)] at h
      have hnamed : named (some keys) = fun e => decide (e.1 ∈ keys) := by
        funext e
        exact List.contains_eq_mem _ _
      rw [hnamed]
      simpa using storedLoop_takes hstart rfl h

/-- When the seed covers the matches, these are the matches of the scan. -/
theorem hits_named {seed : Option (List Bytes)} (hseed : SeedCovers lib fs s p seed) :
    hits lib fs p ((s.scan (dataBucket p.cm.name)).filter (named seed)) =
      hits lib fs p (s.scan (dataBucket p.cm.name)) := by
  refine hits_filter fun e he hsat => ?_
  rw [named, Option.all_eq_true]
  intro keys hkeys
  rw [List.contains_iff_mem]
  exact (hseed keys hkeys).2 e.1 e.2 (Storage.Store.mem_scan.mp he) hsat

theorem hits_sorted (bucket : Bytes) (keep : Bytes × Blob → Bool) :
    (hits lib fs p ((s.scan bucket).filter keep)).Pairwise Before := by
  unfold hits
  rw [List.pairwise_map]
  exact ((s.scan_sorted bucket).filter _).filter _

/-- Rows in key order have distinct ids. -/
theorem ids_nodup {cm : CollectionMeta} {rows : List Row}
    (hids : ∀ row ∈ rows, idFromStorageKey fs cm row.key = .ok row.id)
    (hsorted : (rows.map Row.key).Pairwise Before) : (rows.map Row.id).Nodup := by
  rw [List.pairwise_map] at hsorted
  rw [List.nodup_iff_pairwise_ne, List.pairwise_map]
  refine hsorted.imp_of_mem ?_
  intro row row' hrow hrow' hlt hid
  have hsame := hids row' hrow'
  rw [← hid] at hsame
  exact hlt.ne (idFromStorageKey_inj (hids row hrow) hsame)

end Seeds

/-! ## Pages -/

/-- `executeRows` in full, when it succeeds. -/
theorem executeRows_eq_ok_iff {lib : Lib} {codec : Codec} {fs : Files} {s : Store}
    {seed : CollectionMeta → Option (List Bytes)} {coll : Bytes} {filter : Filter} {pageSize : Int}
    {token : PageToken} {res : List Row × PageToken} :
    executeRows lib codec fs s seed coll filter pageSize token = .ok res ↔
      0 < pageSize ∧ ∃ hash cursor cm md acc, filterHash lib filter = .ok hash ∧
        parsePageToken token coll hash = .ok cursor ∧ getMeta s coll = .ok cm ∧
        fs.findMessage cm.messageType = some md ∧
        collect lib codec fs ⟨cm, md, filter, pageSize, cursor.lastKey⟩ s (seed cm) = .ok acc ∧
        res = (acc.rows,
          if acc.more then encodePageToken ⟨1, coll, hash, acc.lastKey⟩ else .empty) := by
  unfold executeRows
  simp only [bind_eq_ok_iff, reject_eq_ok_iff, decide_eq_false_iff_not, Int.not_le, wrap_eq_ok_iff,
    messageDescriptor_eq_ok_iff, pure, Except.pure, Except.ok.injEq, exists_const]
  constructor
  · rintro ⟨hsize, hash, hhash, cursor, hcursor, cm, hcm, md, hmd, acc, hacc, rfl⟩
    exact ⟨hsize, hash, cursor, cm, md, acc, hhash, hcursor, hcm, hmd, hacc, rfl⟩
  · rintro ⟨hsize, hash, cursor, cm, md, acc, hhash, hcursor, hcm, hmd, hacc, rfl⟩
    exact ⟨hsize, hash, hhash, cursor, hcursor, cm, hcm, md, hmd, acc, hacc, rfl⟩

/-- The index and the scan agree: when every document has its entries, a page
that the full scan returns is also what each indexed equality of the filter
gives, the one `indexSeed` picks included, and it lists no id twice. -/
theorem seeded_page_agrees {lib : Lib} {codec : Codec} {fs : Files} {s : Store} {coll : Bytes}
    {filter : Filter} {pageSize : Int} {token : PageToken} {page : Page}
    (hcov : ∀ f, Covered fs coll f s)
    (hscan : executePageFrom lib codec fs s (fun _ => none) coll filter pageSize token = .ok page) :
    executePage lib codec fs s coll filter pageSize token = .ok page ∧
    (∀ cm c keys, getMeta s coll = .ok cm → c ∈ seedCandidates filter → c.op = Op.eq →
      hasIndex cm c.field = true →
      lookupByIndex lib.parseFloat fs s cm c.field c.value = .ok keys →
      executePageFrom lib codec fs s (fun _ => some keys) coll filter pageSize token = .ok page) ∧
    (page.results.map Result.id).Nodup := by
  obtain ⟨res, hres, rfl⟩ := map_eq_ok_iff.mp hscan
  obtain ⟨hsize, hash, cursor, cm, md, acc, hhash, hcursor, hcm, hmd, hacc, rfl⟩ :=
    executeRows_eq_ok_iff.mp hres
  -- any seed that names every match gives the same rows and token
  have hsame : ∀ seed : CollectionMeta → Option (List Bytes),
      SeedCovers lib fs s ⟨cm, md, filter, pageSize, cursor.lastKey⟩ (seed cm) →
      executePageFrom lib codec fs s seed coll filter pageSize token =
        .ok (toPage (acc.rows,
          if acc.more then encodePageToken ⟨1, coll, hash, acc.lastKey⟩ else .empty)) := by
    intro seed hseed
    refine map_eq_ok_iff.mpr ⟨_, executeRows_eq_ok_iff.mpr ?_, rfl⟩
    exact ⟨hsize, hash, cursor, cm, md, acc, hhash, hcursor, hcm, hmd,
      collect_of_scan hseed hacc, rfl⟩
  refine ⟨?_, ?_, ?_⟩
  · exact hsame _ (seedCovers_indexSeed hmd fun f hf => hcov f cm hcm hf)
  · intro cm' c keys hcm' hc hop hindex hl
    rw [hcm] at hcm'
    cases hcm'
    exact hsame _ (seedCovers_lookup hmd (hcov _ cm hcm (hasIndex_iff.mp hindex)) hc hop hl)
  · obtain ⟨hkept, hkeys, _⟩ := collect_takes_named hsize (fun _ h => absurd h (by simp)) hacc
    have hsorted : (acc.rows.map Row.key).Pairwise Before := by
      rw [hkeys]
      exact (hits_sorted _ _).sublist (List.take_sublist _ _)
    have hids := ids_nodup hkept.ids hsorted
    simpa [toPage, List.map_map, Function.comp_def] using hids

/-! ## Red items -/

/-- The digest is no part of what the samples show. -/
def itemLib : Lib := ⟨noFloat, fun _ => []⟩

/-- Two red items. -/
def shelf : Store := run (step itemCodec itemFiles) .empty (itemCalls.take 3)

def red : Filter := .cmp ⟨ascii "tag", Op.eq, ascii "red"⟩

theorem shelf_covered (f : Bytes) : Covered itemFiles (ascii "items") f shelf := by
  refine covered_run (sound_empty itemFiles) ?_ ?_ (covered_empty _ _ _)
  · exact fun call hcall => itemCalls_valid call (List.mem_of_mem_take hcall)
  · refine ⟨?_, ?_, ?_, ?_⟩
    all_goals exact indexNulFree_of_check (by decide +kernel) f

/-- The first page of the red items, read through the index on the tag. -/
theorem seeded_page_agrees_items :
    executePage itemLib itemCodec itemFiles shelf (ascii "items") red 1 .empty =
      .ok ⟨[⟨ascii "a", redA⟩], encodePageToken ⟨1, ascii "items", [], ascii "a"⟩⟩ :=
  (seeded_page_agrees shelf_covered (by decide +kernel)).1

end KoraDB.Query
