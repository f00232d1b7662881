import KoraDB.Engine.Admitted
import KoraDB.Query.Rows
import KoraDB.Query.Signature
import KoraDB.Query.Token
import KoraDB.System.Isolation

/-!
# Page tokens of a running database

In every reachable database a stored key is not empty, so a token that a page
hands out continues that page's query, behind its last row, and no other query.
-/

namespace KoraDB.System

open KoraDB.Base KoraDB.Proto KoraDB.Catalog KoraDB.Schema KoraDB.Engine

/-- No operation stores a document under the empty key. -/
theorem keyed_reached (w : World) (ops : List Op) (c : Bytes) :
    (reached w ops).store.get (dataBucket c) [] = none := by
  refine reached_kept (P := fun r => ∀ c, r.store.get (dataBucket c) [] = none) ?_ ?_ ops c
  · intro c
    exact Storage.Store.get_empty _ _
  · intro r op hr c
    by_cases hop : ∃ call, op = .call call
    · obtain ⟨call, rfl⟩ := hop
      exact key_step hr call c
    · rw [(step_sameBucket (fun call heq => hop ⟨call, heq⟩) (.inl (isDocBucket_data c))).entries]
      exact hr c

/-- When a token that was made for one query is accepted for another, and what
it says then. -/
theorem parse_issued {c c' hash hash' key : Bytes} (hc : validString c = true)
    (hhash : validString hash = true) (hkey : key ≠ []) {cursor : Query.PageCursor} :
    Query.parsePageToken (Query.encodePageToken ⟨1, c, hash, key⟩) c' hash' = .ok cursor ↔
      (c = c' ∧ hash = hash') ∧ cursor = ⟨1, c, hash, key⟩ := by
  have hlen : (key.length == 0) = false := by
    rw [beq_eq_false_iff_ne]
    exact mt List.length_eq_zero_iff.mp hkey
  simp only [Query.parsePageToken, Query.encodePageToken, toValidUTF8_eq_self hc,
    toValidUTF8_eq_self hhash, bind_eq_ok_iff, reject_eq_ok_iff, hlen, bne_self_eq_false,
    Bool.or_false, Bool.false_or, Bool.or_eq_false_iff, bne_eq_false_iff_eq, pure, Except.pure,
    Except.ok.injEq, exists_const]
  constructor
  · rintro ⟨hsame, rfl⟩
    exact ⟨hsame, rfl⟩
  · rintro ⟨hsame, rfl⟩
    exact ⟨hsame, rfl⟩

/-- **A token is bound to its query.** No two filters share a signature. In
every reachable database, a token that a page of `c` and `f` hands out is
accepted for `c'` and `g` exactly when they are `c` and `f`, and then continues
behind the last row of the page. -/
theorem tokens_bound_to_query :
    (∀ (f g : Query.Filter) (sig : Bytes), Query.writeFilterSignature f = .ok sig →
      Query.writeFilterSignature g = .ok sig → f = g) ∧
    ∀ (w : World) (ops : List Op) (lib : Query.Lib) (c c' : Bytes) (f g : Query.Filter)
      (pageSize : Int) (token next hash' : Bytes) (rows : List Query.Row),
      validString c = true → validString c' = true → Query.NoCollision lib f g →
      Query.pageText lib w.codec (reached w ops).files (reached w ops).store c f pageSize token =
        .ok (rows, next) → next ≠ [] → Query.filterHash lib g = .ok hash' →
      ((∃ cursor, Query.parsePageToken (Query.readPageToken next) c' hash' = .ok cursor) ↔
        c = c' ∧ f = g) ∧
      ∀ cursor, Query.parsePageToken (Query.readPageToken next) c' hash' = .ok cursor →
        ∃ row, rows.getLast? = some row ∧ cursor.lastKey = row.key := by
  refine ⟨fun f g sig => Query.writeFilterSignature_inj, ?_⟩
  intro w ops lib c c' f g pageSize token next hash' rows hc _ hsha hpage hnext hhash'
  have habstract := Query.pageRows_readPageToken lib w.codec (reached w ops).files
    (reached w ops).store c f pageSize token
  rw [hpage] at habstract
  -- a token that is not empty is that of the last row, whatever state made it
  obtain ⟨hash, cursor₀, cm, md, hhash, _, _, _, hrows, hlast⟩ := Query.executeRows_shows habstract
  rcases hlast with hempty | ⟨row, hrow, htoken⟩
  · exact absurd hempty (Query.readPageToken_ne_empty hnext)
  · -- an empty key would be refused, but no document is stored under it
    have hkey : row.key ≠ [] := by
      obtain ⟨b, _, hget, _⟩ := (hrows row (List.mem_of_getLast? hrow)).document
      intro hnil
      rw [hnil, keyed_reached] at hget
      cases hget
    have hparse : ∀ {cursor : Query.PageCursor},
        Query.parsePageToken (Query.readPageToken next) c' hash' = .ok cursor ↔
          (c = c' ∧ hash = hash') ∧ cursor = ⟨1, c, hash, row.key⟩ := by
      intro cursor
      rw [htoken]
      exact parse_issued hc (Query.validString_filterHash hhash) hkey
    refine ⟨⟨?_, ?_⟩, ?_⟩
    · rintro ⟨cursor, h⟩
      obtain ⟨⟨hcoll, rfl⟩, _⟩ := hparse.mp h
      exact ⟨hcoll, Query.filterHash_inj hsha hhash hhash'⟩
    · rintro ⟨rfl, rfl⟩
      rw [hhash] at hhash'
      cases hhash'
      exact ⟨_, hparse.mpr ⟨⟨rfl, rfl⟩, rfl⟩⟩
    · intro cursor h
      obtain ⟨_, rfl⟩ := hparse.mp h
      exact ⟨row, hrow, rfl⟩

/-- The first ticket of the desk is a page, and its token continues the listing
of the tickets only. -/
theorem tokens_bound_to_query_desk :
    let w : World := ⟨deskEnv, deskCodec, id⟩
    let ops : List Op := [.register {} ⟨ascii "ticket.proto", ticket1, 0⟩,
      .call (.createCollection (ascii "tickets") (ascii "desk.Ticket") ⟨[], []⟩),
      .call (.insert (ascii "tickets") textT1),
      .call (.insert (ascii "tickets") textT2)]
    let lib : Query.Lib := ⟨noFloat, id⟩
    ∃ rows next, Query.pageText lib w.codec (reached w ops).files (reached w ops).store
        (ascii "tickets") .nil 1 [] = .ok (rows, next) ∧ next ≠ [] ∧
      ∀ c' g hash', validString c' = true → Query.filterHash lib g = .ok hash' →
        ((∃ cursor, Query.parsePageToken (Query.readPageToken next) c' hash' = .ok cursor) ↔
          ascii "tickets" = c' ∧ .nil = g) := by
  intro w ops lib
  have hpage : (Query.pageText lib w.codec (reached w ops).files (reached w ops).store
      (ascii "tickets") .nil 1 []).map (fun p => p.2.isEmpty) = .ok false := by decide +kernel
  obtain ⟨⟨rows, next⟩, hok, hne⟩ := map_eq_ok_iff.mp hpage
  have hnext : next ≠ [] := by
    rintro rfl
    cases hne
  refine ⟨rows, next, hok, hnext, fun c' g hash' hc' hhash' => ?_⟩
  exact (tokens_bound_to_query.2 w ops lib _ c' .nil g 1 [] next hash' rows (by decide) hc'
    (fun _ _ _ _ h => h) hok hnext hhash').1

end KoraDB.System
