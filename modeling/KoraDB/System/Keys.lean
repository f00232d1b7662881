import KoraDB.Auth.Bootstrap
import KoraDB.System.Machine

/-!
# Keys along a run of the program

A creation draws an id and stores its record there, whatever was there before.
So a record may get lost to a later creation that draws the same id. Along runs
whose draws are distinct this does not happen: what is stored was drawn
(`KeysKnown`), and a draw that was never made before finds its place free.
-/

namespace KoraDB.System

open KoraDB.Base KoraDB.Catalog KoraDB.Schema

/-- The ids an operation draws at random. -/
def Op.draws : Op → List Bytes
  | .key c => c.drawnID.toList
  | .register _ _ | .call _ | .restart => []

/-- The draws of some operations, in order. -/
def draws (ops : List Op) : List Bytes := ops.flatMap Op.draws

/-- All keys of the store were granted, with ids that have been drawn. -/
structure KeysKnown (sha256 : Bytes → Bytes) (past : List Bytes) (s : Store) : Prop where
  minted : Auth.Minted sha256 s
  drawn : ∀ k b, s.get Auth.keysBucket k = some b → k ∈ past

variable {w : World} {r : Registry} {op : Op} {ops : List Op} {past : List Bytes} {k : Bytes}

theorem keysKnown_empty (sha256 : Bytes → Bytes) : KeysKnown sha256 [] .empty where
  minted := Auth.minted_empty
  drawn k b h := by
    rw [Storage.Store.get_empty] at h
    cases h

/-- A key after an operation was there before, or the operation has drawn it. -/
theorem get_key_step (hm : Auth.Minted w.sha256 r.store) {b : Blob}
    (h : (step w r op).store.get Auth.keysBucket k = some b) :
    r.store.get Auth.keysBucket k = some b ∨ k ∈ op.draws := by
  by_cases hop : ∃ call, op = .key call
  · obtain ⟨call, rfl⟩ := hop
    rcases Auth.get_step hm h with hold | ⟨q, rfl, hc, rfl, _⟩
    · exact .inl hold
    · right
      rw [Op.draws, Auth.drawnID_create hc]
      exact List.mem_cons_self
  · rw [(step_keysBucket fun call heq => hop ⟨call, heq⟩).entries k] at h
    exact .inl h

theorem minted_op (hm : Auth.Minted w.sha256 r.store) (op : Op) :
    Auth.Minted w.sha256 (step w r op).store := by
  by_cases hop : ∃ call, op = .key call
  · obtain ⟨call, rfl⟩ := hop
    exact Auth.minted_step hm call
  · intro k b hget
    rw [(step_keysBucket fun call heq => hop ⟨call, heq⟩).entries k] at hget
    exact hm k b hget

theorem keysKnown_step (h : KeysKnown w.sha256 past r.store) (op : Op) :
    KeysKnown w.sha256 (past ++ op.draws) (step w r op).store where
  minted := minted_op h.minted op
  drawn k b hget := by
    rcases get_key_step h.minted hget with hold | hdrawn
    · exact List.mem_append_left _ (h.drawn k b hold)
    · exact List.mem_append_right _ hdrawn

theorem keysKnown_run (h : KeysKnown w.sha256 past r.store) (ops : List Op) :
    KeysKnown w.sha256 (past ++ draws ops) (run (step w) r ops).store := by
  induction ops generalizing r past with
  | nil =>
      rw [draws, List.flatMap_nil, List.append_nil]
      exact h
  | cons op ops ih =>
      rw [draws, List.flatMap_cons, ← List.append_assoc]
      exact ih (keysKnown_step h op)

theorem get_key_run (hm : Auth.Minted w.sha256 r.store) {b : Blob}
    (h : (run (step w) r ops).store.get Auth.keysBucket k = some b) :
    (∃ b, r.store.get Auth.keysBucket k = some b) ∨ k ∈ draws ops := by
  induction ops generalizing r with
  | nil => exact .inl ⟨b, h⟩
  | cons op ops ih =>
      rcases ih (minted_op hm op) h with ⟨b', hb'⟩ | hdrawn
      · rcases get_key_step hm hb' with hold | hdrawn
        · exact .inl ⟨b', hold⟩
        · exact .inr (List.mem_append_left _ hdrawn)
      · exact .inr (List.mem_append_right _ hdrawn)

/-! ## Distinct draws -/

/-- What operations keep whose draws are new; it may speak of all draws so
far. -/
def FreshlyKept (w : World) (P : List Bytes → Store → Prop) : Prop :=
  ∀ past r op, KeysKnown w.sha256 past r.store → (past ++ op.draws).Nodup → P past r.store →
    P (past ++ op.draws) (step w r op).store

theorem FreshlyKept.run {P : List Bytes → Store → Prop} (hP : FreshlyKept w P)
    (h : KeysKnown w.sha256 past r.store) (hdistinct : (past ++ draws ops).Nodup)
    (h0 : P past r.store) : P (past ++ draws ops) (Base.run (step w) r ops).store := by
  induction ops generalizing r past with
  | nil =>
      rw [draws, List.flatMap_nil, List.append_nil]
      exact h0
  | cons op ops ih =>
      rw [draws, List.flatMap_cons, ← List.append_assoc] at hdistinct ⊢
      exact ih (keysKnown_step h op) hdistinct
        (hP past r op h (List.Nodup.of_append_left hdistinct) h0)

/-- A new draw finds its place free. -/
theorem not_stored_of_fresh (h : KeysKnown w.sha256 past r.store)
    (hdistinct : (past ++ op.draws).Nodup) (hk : k ∈ op.draws) :
    r.store.get Auth.keysBucket k = none := by
  rw [Option.eq_none_iff_forall_ne_some]
  intro b hb
  exact List.disjoint_of_nodup_append hdistinct (h.drawn k b hb) hk

/-- Once there is an administrator's record, there is one. -/
theorem adminRecord_kept (w : World) : FreshlyKept w fun _ s => Auth.AdminRecord s := by
  intro past r op h hdistinct ha
  by_cases hop : ∃ call, op = .key call
  · obtain ⟨call, rfl⟩ := hop
    refine Auth.adminRecord_step h.minted ha fun k hk => ?_
    exact not_stored_of_fresh h hdistinct (Option.mem_toList.mpr hk)
  · have hsame := @step_keysBucket w r op fun call heq => hop ⟨call, heq⟩
    obtain ⟨k, rec, ⟨b, hb, hrec⟩, hrole⟩ := ha
    exact ⟨k, rec, ⟨b, (hsame.entries k).trans hb, hrec⟩, hrole⟩

/-- The id has been drawn, and what is stored there, if anything, is `b`. -/
def OnlyRecord (k : Bytes) (b : Blob) (past : List Bytes) (s : Store) : Prop :=
  k ∈ past ∧ ∀ b', s.get Auth.keysBucket k = some b' → b' = b

/-- A key keeps its record until it is revoked; it never gets another one. -/
theorem onlyRecord_kept (w : World) (k : Bytes) (b : Blob) : FreshlyKept w (OnlyRecord k b) := by
  intro past r op h hdistinct honly
  refine ⟨List.mem_append_left _ honly.1, fun b' hget => ?_⟩
  rcases get_key_step h.minted hget with hold | hdrawn
  · exact honly.2 b' hold
  · exact absurd hdrawn (List.disjoint_of_nodup_append hdistinct honly.1)

end KoraDB.System
