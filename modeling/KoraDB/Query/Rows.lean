import KoraDB.Query.Agree

/-!
# Where the rows of a page come from

Whatever an index says and whatever the database holds, a row shows a document
that is stored under its key behind the cursor, and the token of a page
continues behind its last row (`executeRows_shows`). Unlike the statements
about which documents a page holds, this needs nothing of the state.
-/

namespace KoraDB.Query

open KoraDB.Base KoraDB.Proto KoraDB.Catalog KoraDB.Schema KoraDB.Engine

/-- The row shows a document of the collection that satisfies the filter and
lies behind the cursor. -/
structure Shows (lib : Lib) (codec : Codec) (fs : Files) (s : Store) (p : Plan) (row : Row) :
    Prop where
  document : ∃ b msg, s.get (dataBucket p.cm.name) row.key = some b ∧ decode fs p.cm b = .ok msg ∧
    eval lib p.cm.messageType p.md msg p.filter = .ok true ∧
    renderMessage codec fs msg = .ok row.json
  behind : skips p row.key = false
  id : idFromStorageKey fs p.cm row.key = .ok row.id

section Loops

variable {lib : Lib} {codec : Codec} {fs : Files} {s : Store} {p : Plan}

/-- The loop adds rows of the documents it is given. -/
theorem storedLoop_shows {docs : List (Bytes × Blob)} {acc acc' : Acc}
    (hdocs : ∀ e ∈ docs, s.get (dataBucket p.cm.name) e.1 = some e.2)
    (hacc : ∀ row ∈ acc.rows, Shows lib codec fs s p row)
    (h : storedLoop lib codec fs p docs acc = .ok acc') :
    ∀ row ∈ acc'.rows, Shows lib codec fs s p row := by
  induction docs generalizing acc with
  | nil =>
      cases h
      exact hacc
  | cons e docs ih =>
      obtain ⟨k, b⟩ := e
      have hrest : ∀ e ∈ docs, s.get (dataBucket p.cm.name) e.1 = some e.2 :=
        fun e he => hdocs e (List.mem_cons_of_mem _ he)
      rw [storedLoop] at h
      -- a key that is skipped adds nothing; any other is decoded and considered
      by_cases hskip : skips p k = true
      · rw [if_pos hskip] at h
        exact ih hrest hacc h
      · rw [if_neg hskip] at h
        simp only [bind_eq_ok_iff, wrap_eq_ok_iff] at h
        obtain ⟨msg, hdec, acc₁, hstep, hnext⟩ := h
        have hacc₁ : ∀ row ∈ acc₁.rows, Shows lib codec fs s p row := by
          rcases consider_eq_ok hstep with
            ⟨_, rfl⟩ | ⟨htrue, ⟨_, rfl⟩ | ⟨_, id, j, hid, hj, rfl⟩⟩
          · exact hacc
          · exact hacc
          · intro row hrow
            rcases List.mem_append.mp hrow with hrow | hrow
            · exact hacc row hrow
            · rw [List.mem_singleton.mp hrow]
              exact ⟨⟨b, msg, hdocs _ List.mem_cons_self, hdec, htrue, hj⟩,
                Bool.not_eq_true _ ▸ hskip, hid⟩
        split at hnext
        · cases hnext
          exact hacc₁
        · exact ih hrest hacc₁ hnext

/-- Either branch is the loop over some stored documents. -/
theorem collect_stored {seed : Option (List Bytes)} {acc : Acc}
    (h : collect lib codec fs p s seed = .ok acc) :
    ∃ docs, (∀ e ∈ docs, s.get (dataBucket p.cm.name) e.1 = some e.2) ∧
      storedLoop lib codec fs p docs ⟨[], [], false⟩ = .ok acc := by
  cases seed with
  | none =>
      -- the scan, with nothing filtered out beforehand
      refine ⟨_, ?_, @storedLoop_filter_of_scanLoop _ _ _ _ (fun _ => true) _ _ _
        (fun _ _ _ => rfl) rfl h⟩
      intro e he
      exact Storage.Store.mem_scan.mp (List.mem_of_mem_filter he)
  | some keys =>
      change seededLoop lib codec fs p s (sortKeys keys) ⟨[], [], false⟩ = .ok acc at h
      rw [seededLoop_eq_storedLoop] at h
      -- keys of the seed that are stored; an entry without its document is passed over
      refine ⟨_, ?_, h⟩
      intro e he
      obtain ⟨k, _, hk⟩ := List.mem_filterMap.mp he
      obtain ⟨b, hb, rfl⟩ := Option.map_eq_some_iff.mp hk
      exact hb

/-- Rows show documents, and a page that is not the last ends in one. -/
theorem collect_shows {seed : Option (List Bytes)} {acc : Acc} (hsize : 0 < p.pageSize)
    (h : collect lib codec fs p s seed = .ok acc) :
    (∀ row ∈ acc.rows, Shows lib codec fs s p row) ∧
    (acc.more = true → ∃ row, acc.rows.getLast? = some row ∧ acc.lastKey = row.key) := by
  obtain ⟨docs, hdocs, hloop⟩ := collect_stored h
  have hstart : Acc.Kept fs p ⟨[], [], false⟩ :=
    ⟨fun row hrow => absurd hrow List.not_mem_nil, rfl, Int.le_of_lt hsize⟩
  obtain ⟨hkept, hkeys, hmore⟩ := storedLoop_takes hstart rfl hloop
  refine ⟨storedLoop_shows hdocs (fun row hrow => absurd hrow List.not_mem_nil) hloop, ?_⟩
  intro htrue
  have hlast := hkept.last
  cases hrow : acc.rows.getLast? with
  | some row =>
      rw [hrow] at hlast
      exact ⟨row, rfl, hlast⟩
  | none =>
      -- a page without rows took no match and left none over
      exfalso
      rw [List.getLast?_eq_none_iff.mp hrow] at hkeys
      rw [htrue, eq_comm, decide_eq_true_iff] at hmore
      have hlen := congrArg List.length hkeys
      simp only [List.map_nil, List.nil_append, List.length_nil, List.length_take] at hlen hmore
      omega

end Loops

/-- **What is on a page, in any state.** The token was accepted, each row shows
a stored document behind it, and the next token is that of the last row. -/
theorem executeRows_shows {lib : Lib} {codec : Codec} {fs : Files} {s : Store}
    {seed : CollectionMeta → Option (List Bytes)} {coll : Bytes} {filter : Filter} {pageSize : Int}
    {token next : PageToken} {rows : List Row}
    (h : executeRows lib codec fs s seed coll filter pageSize token = .ok (rows, next)) :
    ∃ hash cursor cm md, filterHash lib filter = .ok hash ∧
      parsePageToken token coll hash = .ok cursor ∧ getMeta s coll = .ok cm ∧
      fs.findMessage cm.messageType = some md ∧
      (∀ row ∈ rows, Shows lib codec fs s ⟨cm, md, filter, pageSize, cursor.lastKey⟩ row) ∧
      (next = .empty ∨
        ∃ row, rows.getLast? = some row ∧ next = encodePageToken ⟨1, coll, hash, row.key⟩) := by
  obtain ⟨hsize, hash, cursor, cm, md, acc, hhash, hcursor, hcm, hmd, hacc, hres⟩ :=
    executeRows_eq_ok_iff.mp h
  cases hres
  obtain ⟨hrows, hlast⟩ := collect_shows hsize hacc
  refine ⟨hash, cursor, cm, md, hhash, hcursor, hcm, hmd, hrows, ?_⟩
  cases hmore : acc.more with
  | false => exact .inl rfl
  | true =>
      obtain ⟨row, hrow, hkey⟩ := hlast hmore
      refine .inr ⟨row, hrow, ?_⟩
      rw [← hkey]
      rfl

end KoraDB.Query
