import KoraDB.Auth.Lifetime
import KoraDB.Auth.Lockout

/-!
# The first administrator (`internal/auth`)

A secured server asks for an administrator's record before it starts
(`HasAdminKey`). Once there is one, there always is: `Revoke` refuses to delete
the last, and a creation adds a record, unless it draws an id that is taken and
overwrites another key (`adminRecord_step`).
-/

namespace KoraDB.Auth

open KoraDB.Base KoraDB.Catalog

variable {sha256 : Bytes → Bytes} {s : Store} {call : KeyCall} {k : Bytes}

/-- `CreateKey`: a creation with the zero time for its expiry. -/
protected def createKey (sha256 : Bytes → Bytes) (s : Store) (name : Bytes) (role : Int)
    (now createdAt : Time) (rand : Entropy) : Store × Except AuthErr (Bytes × Bytes) :=
  createKeyWithExpiry sha256 s ⟨name, role, ⟨0, 0⟩, now, createdAt, rand⟩

/-- The scan of `HasAdminKey`: it stops at the first administrator, and at a
record that it cannot read. -/
def findAdmin : List (Bytes × Blob) → Except AuthErr Bool
  | [] => .ok false
  | e :: rest => do
    let rec ← orErr (KeyRecord.unmarshal e.2) .corruptRecord
    if rec.role = roleAdmin then .ok true else findAdmin rest

/-- `HasAdminKey`. -/
def hasAdminKey (s : Store) : Except AuthErr Bool := findAdmin (s.scan keysBucket)

/-- Some record is an administrator's. -/
def AdminRecord (s : Store) : Prop := ∃ k rec, Stored s k rec ∧ rec.role = roleAdmin

/-! ## `HasAdminKey` -/

theorem findAdmin_cons_of_unmarshal {e : Bytes × Blob} {rest : List (Bytes × Blob)}
    {rec : KeyRecord} (h : KeyRecord.unmarshal e.2 = some rec) :
    findAdmin (e :: rest) = if rec.role = roleAdmin then .ok true else findAdmin rest := by
  rw [findAdmin, h, orErr_some, ok_bind]

/-- Among readable entries the scan tells whether an administrator is there. -/
theorem findAdmin_readable {entries : List (Bytes × Blob)}
    (hread : ∀ e ∈ entries, (KeyRecord.unmarshal e.2).isSome = true) :
    findAdmin entries = .ok (entries.any isAdminEntry) := by
  induction entries with
  | nil => rfl
  | cons e rest ih =>
      obtain ⟨rec, hrec⟩ := Option.isSome_iff_exists.mp (hread e List.mem_cons_self)
      have hrest := ih fun e he => hread e (List.mem_cons_of_mem _ he)
      rw [findAdmin_cons_of_unmarshal hrec, List.any_cons, hrest]
      by_cases hrole : rec.role = roleAdmin
      · simp [isAdminEntry, hrec, hrole]
      · simp [isAdminEntry, hrec, hrole]

theorem any_isAdminEntry_iff : (s.scan keysBucket).any isAdminEntry = true ↔ AdminRecord s := by
  rw [List.any_eq_true]
  constructor
  · rintro ⟨⟨k, b⟩, hmem, hadmin⟩
    obtain ⟨rec, hb, hrec, hrole⟩ := mem_adminEntries.mp (List.mem_filter.mpr ⟨hmem, hadmin⟩)
    exact ⟨k, rec, ⟨b, hb, hrec⟩, hrole⟩
  · rintro ⟨k, rec, ⟨b, hb, hrec⟩, hrole⟩
    obtain ⟨hmem, hadmin⟩ := List.mem_filter.mp (mem_adminEntries.mpr ⟨rec, hb, hrec, hrole⟩)
    exact ⟨(k, b), hmem, hadmin⟩

/-- On a minted store `HasAdminKey` never fails, and it says whether there is an
administrator's record. -/
theorem Minted.hasAdminKey (hm : Minted sha256 s) :
    hasAdminKey s = .ok ((s.scan keysBucket).any isAdminEntry) := by
  refine findAdmin_readable fun e he => ?_
  obtain ⟨q, hq, _, hb⟩ := hm e.1 e.2 (Storage.Store.mem_scan.mp he)
  rw [hb, unmarshal_record hq]
  rfl

theorem Minted.hasAdminKey_iff (hm : Minted sha256 s) :
    Auth.hasAdminKey s = .ok true ↔ AdminRecord s := by
  rw [hm.hasAdminKey, Except.ok.injEq, any_isAdminEntry_iff]

/-! ## What a call does to the records -/

theorem drawnID_create {q : KeyRequest} (hc : checkRequest q = .ok ()) :
    (KeyCall.create q).drawnID = some q.keyID := by
  simp only [KeyCall.drawnID, hc]

/-- An entry after a call was there before, or the call has drawn its id. -/
theorem get_step (hm : Minted sha256 s) {b : Blob}
    (h : (step sha256 s call).get keysBucket k = some b) :
    s.get keysBucket k = some b ∨
      ∃ q, call = .create q ∧ checkRequest q = .ok () ∧ k = q.keyID ∧
        b = (q.record sha256).marshal := by
  cases call with
  | create q =>
      simp only [step] at h
      cases hc : checkRequest q with
      | error e =>
          rw [create_of_check_error hc] at h
          exact .inl h
      | ok u =>
          rw [get_create hc] at h
          split at h
          · rename_i hk
            exact .inr ⟨q, rfl, hc, hk.2.symm, (Option.some.inj h).symm⟩
          · exact .inl h
  | revoke id =>
      simp only [step] at h
      rw [get_revoke hm] at h
      split at h
      · cases h
      · exact .inl h

/-- A creation keeps every record but one under the id it draws. -/
theorem stored_create {q : KeyRequest} {rec : KeyRecord} (h : Stored s k rec)
    (hfresh : (KeyCall.create q).drawnID ≠ some k) :
    Stored (createKeyWithExpiry sha256 s q).1 k rec := by
  cases hc : checkRequest q with
  | error e =>
      rw [create_of_check_error hc]
      exact h
  | ok u =>
      obtain ⟨b, hb, hrec⟩ := h
      rw [drawnID_create hc] at hfresh
      refine ⟨b, ?_, hrec⟩
      rw [get_create hc, if_neg fun hk => hfresh (congrArg some hk.2)]
      exact hb

/-- `Revoke` leaves an administrator's record. -/
theorem adminRecord_revoke (hm : Minted sha256 s) (ha : AdminRecord s) (k : Bytes) :
    AdminRecord (revoke s k).1 := by
  cases hget : s.get keysBucket k with
  | none =>
      rw [revoke_absent hget]
      exact ha
  | some b =>
      obtain ⟨rec, hst⟩ := hm.stored_of_get hget
      rcases revoke_stored hm hst with ⟨_, hr⟩ | ⟨honly, hr⟩
      · rw [hr]
        exact ha
      · rw [hr]
        -- another administrator than `k` is stored, or the guard would have held
        obtain ⟨k₀, rec₀, hst₀, hrole₀⟩ := ha
        by_cases hk : k₀ = k
        · subst hk
          have hother : ∃ k' rec', Stored s k' rec' ∧ rec'.role = roleAdmin ∧ k' ≠ k₀ := by
            by_contra hnone
            push Not at hnone
            exact honly ⟨⟨rec₀, hst₀, hrole₀⟩, hnone⟩
          obtain ⟨k', rec', hst', hrole', hne⟩ := hother
          exact ⟨k', rec', stored_delete.mpr ⟨hne, hst'⟩, hrole'⟩
        · exact ⟨k₀, rec₀, stored_delete.mpr ⟨hk, hst₀⟩, hrole₀⟩

/-- Calls keep an administrator's record, as long as no creation draws an id
that is taken. -/
theorem adminRecord_step (hm : Minted sha256 s) (ha : AdminRecord s)
    (hfresh : ∀ k, call.drawnID = some k → s.get keysBucket k = none) :
    AdminRecord (step sha256 s call) := by
  cases call with
  | create q =>
      obtain ⟨k, rec, hst, hrole⟩ := ha
      refine ⟨k, rec, stored_create hst fun hdrawn => ?_, hrole⟩
      obtain ⟨b, hb, _⟩ := hst
      rw [hfresh k hdrawn] at hb
      cases hb
  | revoke k => exact adminRecord_revoke hm ha k

end KoraDB.Auth
