import KoraDB.Auth.Token
import KoraDB.Base.Run

/-!
# What the key bucket holds

Every record in the key bucket of a reachable store was written by an accepted
`CreateKeyWithExpiry` and reads back as it was written (`Minted`). On such a
store `Revoke` has three outcomes, told apart by the stored records alone
(`revoke_absent`, `revoke_stored`).
-/

namespace KoraDB.Auth

open KoraDB.Base KoraDB.Catalog

variable {sha256 : Bytes → Bytes}

theorem keysBucket_ne_nil : keysBucket ≠ [] := by decide

/-! ## `CreateKeyWithExpiry` -/

theorem checkRequest_name {q : KeyRequest} (h : checkRequest q = .ok ()) :
    validString q.name = true := by
  simp only [checkRequest, validatePrincipalName, bind_eq_ok_iff, reject_eq_ok_iff] at h
  obtain ⟨_, _, _, ⟨_, hutf, _⟩, _⟩ := h
  simpa using hutf

/-- An accepted record reads back as it was written. -/
theorem unmarshal_record {q : KeyRequest} (h : checkRequest q = .ok ()) :
    KeyRecord.unmarshal (q.record sha256).marshal = some (q.record sha256) :=
  KeyRecord.unmarshal_marshal (validString_hexEncode _) (checkRequest_name h)
    (validString_hexEncode _)

/-- An accepted request is stored: the key id is a legal bucket key. -/
theorem put_record_ok (sha256 : Bytes → Bytes) (s : Store) (q : KeyRequest) :
    ∃ s', s.put keysBucket q.keyID (q.record sha256).marshal = .ok s' := by
  have hlen := q.keyID_length
  refine ⟨_, Storage.Store.put_eq_ok_iff.mpr ⟨keysBucket_ne_nil, ?_, ?_, rfl⟩⟩
  · intro hnil
    rw [hnil] at hlen
    exact absurd hlen (by decide)
  · rw [hlen]
    decide

theorem create_of_check (sha256 : Bytes → Bytes) (s : Store) {q : KeyRequest}
    (h : checkRequest q = .ok ()) :
    ∃ s', s.put keysBucket q.keyID (q.record sha256).marshal = .ok s' ∧
      createKeyWithExpiry sha256 s q = (s', .ok (q.token, q.keyID)) := by
  obtain ⟨s', hs'⟩ := put_record_ok sha256 s q
  refine ⟨s', hs', ?_⟩
  unfold createKeyWithExpiry
  rw [h]
  simp only [Storage.Store.update, hs', wrap_ok, ok_bind]
  rfl

theorem create_of_check_error {s : Store} {q : KeyRequest} {e : AuthErr}
    (h : checkRequest q = .error e) : createKeyWithExpiry sha256 s q = (s, .error e) := by
  unfold createKeyWithExpiry
  rw [h]

/-- A request is granted exactly when its checks pass, and the result is then
its token. -/
theorem create_result_iff {s : Store} {q : KeyRequest} {token id : Bytes} :
    (createKeyWithExpiry sha256 s q).2 = .ok (token, id) ↔
      checkRequest q = .ok () ∧ token = q.token ∧ id = q.keyID := by
  cases h : checkRequest q with
  | error e =>
      rw [create_of_check_error h]
      simp
  | ok u =>
      obtain ⟨s', _, hc⟩ := create_of_check sha256 s h
      rw [hc]
      simp [eq_comm]

/-- The effect of a creation on lookups. -/
theorem get_create {s : Store} {q : KeyRequest} (h : checkRequest q = .ok ()) (b k : Bytes) :
    (createKeyWithExpiry sha256 s q).1.get b k =
      if keysBucket = b ∧ q.keyID = k then some (q.record sha256).marshal else s.get b k := by
  obtain ⟨s', hput, hc⟩ := create_of_check sha256 s h
  rw [hc]
  exact Storage.Store.get_put hput b k

/-! ## Minted stores -/

/-- Every stored key record was written by an accepted request. -/
def Minted (sha256 : Bytes → Bytes) (s : Store) : Prop :=
  ∀ k b, s.get keysBucket k = some b →
    ∃ q, checkRequest q = .ok () ∧ k = q.keyID ∧ b = (q.record sha256).marshal

/-- A key id with the record stored under it. -/
def Stored (s : Store) (k : Bytes) (rec : KeyRecord) : Prop :=
  ∃ b, s.get keysBucket k = some b ∧ KeyRecord.unmarshal b = some rec

theorem Stored.unique {s : Store} {k : Bytes} {rec rec' : KeyRecord} (h : Stored s k rec)
    (h' : Stored s k rec') : rec = rec' := by
  obtain ⟨b, hb, hr⟩ := h
  obtain ⟨b', hb', hr'⟩ := h'
  rw [hb] at hb'
  rw [← Option.some.inj hb', hr] at hr'
  exact Option.some.inj hr'

/-- In a minted store a stored record is its request's. -/
theorem Minted.stored {s : Store} (hm : Minted sha256 s) {k : Bytes} {rec : KeyRecord}
    (h : Stored s k rec) :
    ∃ q, checkRequest q = .ok () ∧ k = q.keyID ∧ rec = q.record sha256 := by
  obtain ⟨b, hb, hr⟩ := h
  obtain ⟨q, hq, hk, rfl⟩ := hm k b hb
  rw [unmarshal_record hq] at hr
  exact ⟨q, hq, hk, (Option.some.inj hr).symm⟩

theorem Minted.stored_of_get {s : Store} (hm : Minted sha256 s) {k : Bytes} {b : Blob}
    (h : s.get keysBucket k = some b) : ∃ rec, Stored s k rec := by
  obtain ⟨q, hq, _, rfl⟩ := hm k b h
  exact ⟨q.record sha256, _, h, unmarshal_record hq⟩

/-! ## Counting administrators -/

/-- An entry of the key bucket that decodes to an administrator's record. -/
def isAdminEntry (e : Bytes × Blob) : Bool :=
  (KeyRecord.unmarshal e.2).any fun rec => rec.role == roleAdmin

/-- The scan of `Revoke` counts the administrators' entries. -/
theorem Minted.scanKeys {s : Store} (hm : Minted sha256 s) :
    ∃ recs, scanKeys s = .ok recs ∧ (recs.filter fun rec => rec.role == roleAdmin).length =
      ((s.scan keysBucket).filter isAdminEntry).length := by
  refine ⟨_, mapM_orErr AuthErr.corruptRecord ?_, ?_⟩
  · intro e he
    obtain ⟨q, hq, _, hb⟩ := hm e.1 e.2 (Storage.Store.mem_scan.mp he)
    rw [hb, unmarshal_record hq]
    rfl
  · rw [← List.countP_eq_length_filter, ← List.countP_eq_length_filter, List.countP_filterMap]
    apply List.countP_congr
    intro e _
    cases hrec : KeyRecord.unmarshal e.2 <;> simp [isAdminEntry, hrec]

theorem mem_adminEntries {s : Store} {k : Bytes} {b : Blob} :
    (k, b) ∈ (s.scan keysBucket).filter isAdminEntry ↔
      ∃ rec, s.get keysBucket k = some b ∧ KeyRecord.unmarshal b = some rec ∧
        rec.role = roleAdmin := by
  rw [List.mem_filter, Storage.Store.mem_scan]
  cases hrec : KeyRecord.unmarshal b with
  | none => simp [isAdminEntry, hrec]
  | some rec => simp [isAdminEntry, hrec]

/-- With the administrator `k` stored, the count is at most one exactly when
no other administrator is. -/
theorem admin_count_le_one {s : Store} {k : Bytes} {rec : KeyRecord} (hk : Stored s k rec)
    (hrole : rec.role = roleAdmin) :
    ((s.scan keysBucket).filter isAdminEntry).length ≤ 1 ↔
      ∀ k' rec', Stored s k' rec' → rec'.role = roleAdmin → k' = k := by
  obtain ⟨b, hb, hrec⟩ := hk
  have hmem := mem_adminEntries.mpr ⟨rec, hb, hrec, hrole⟩
  have hsorted := (Storage.Store.scan_sorted s keysBucket).filter isAdminEntry
  have hother : (∀ k' rec', Stored s k' rec' → rec'.role = roleAdmin → k' = k) ↔
      ∀ e ∈ (s.scan keysBucket).filter isAdminEntry, e.1 = k := by
    constructor
    · intro h e he
      obtain ⟨rec', hb', hrec', hrole'⟩ := mem_adminEntries.mp he
      exact h e.1 rec' ⟨e.2, hb', hrec'⟩ hrole'
    · intro h k' rec' hst hrole'
      obtain ⟨b', hb', hrec'⟩ := hst
      exact h (k', b') (mem_adminEntries.mpr ⟨rec', hb', hrec', hrole'⟩)
  rw [hother]
  -- the scan lists distinct keys, so two entries are two administrators
  match hL : (s.scan keysBucket).filter isAdminEntry with
  | [] => rw [hL] at hmem; exact absurd hmem List.not_mem_nil
  | [e] =>
      rw [hL] at hmem
      have he : e = (k, b) := (List.mem_singleton.mp hmem).symm
      simp [he]
  | e₁ :: e₂ :: rest =>
      rw [hL] at hsorted
      have hne : e₁.1 ≠ e₂.1 :=
        Before.ne (List.rel_of_pairwise_cons hsorted List.mem_cons_self)
      constructor
      · intro h
        simp only [List.length_cons] at h
        omega
      · intro h
        have h₁ := h e₁ List.mem_cons_self
        have h₂ := h e₂ (List.mem_cons_of_mem _ List.mem_cons_self)
        exact absurd (h₁.trans h₂.symm) hne

/-! ## `Revoke` -/

/-- The guard of `Revoke`: the target is the only stored administrator. -/
def OnlyAdmin (s : Store) (k : Bytes) : Prop :=
  (∃ rec, Stored s k rec ∧ rec.role = roleAdmin) ∧
    ∀ k' rec', Stored s k' rec' → rec'.role = roleAdmin → k' = k

/-- Revoking a key that is not there does nothing, successfully. -/
theorem revoke_absent {s : Store} {k : Bytes} (h : s.get keysBucket k = none) :
    revoke s k = (s, .ok ()) := by
  unfold revoke
  rw [Storage.Store.update_ok_iff, h]

/-- Revoking a stored key deletes it unless it is the only administrator. -/
theorem revoke_stored {s : Store} (hm : Minted sha256 s) {k : Bytes} {rec : KeyRecord}
    (h : Stored s k rec) :
    (OnlyAdmin s k ∧ revoke s k = (s, .error .lastAdmin)) ∨
      (¬ OnlyAdmin s k ∧ revoke s k = (s.delete keysBucket k, .ok ())) := by
  obtain ⟨recs, hscan, hcount⟩ := hm.scanKeys
  have hst := h
  obtain ⟨b, hb, hrec⟩ := h
  unfold revoke
  simp only [Storage.Store.update, hb, hrec, orErr_some, ok_bind]
  by_cases hrole : rec.role = roleAdmin
  · rw [if_pos hrole, hscan, ok_bind, hcount]
    by_cases hone : ((s.scan keysBucket).filter isAdminEntry).length ≤ 1
    · refine .inl ⟨⟨⟨rec, hst, hrole⟩, (admin_count_le_one hst hrole).mp hone⟩, ?_⟩
      rw [decide_eq_true hone]
      rfl
    · refine .inr ⟨fun honly => hone ((admin_count_le_one hst hrole).mpr honly.2), ?_⟩
      rw [decide_eq_false hone]
      rfl
  · refine .inr ⟨?_, ?_⟩
    · intro honly
      obtain ⟨⟨rec', hst', hrole'⟩, _⟩ := honly
      rw [hst.unique hst'] at hrole
      exact hrole hrole'
    · rw [if_neg hrole]
      rfl

/-- A successful revocation removes the key, a failed one nothing; no other
entry changes either way. -/
theorem get_revoke {s : Store} (hm : Minted sha256 s) (k b k' : Bytes) :
    (revoke s k).1.get b k' =
      if (revoke s k).2 = .ok () ∧ keysBucket = b ∧ k = k' then none else s.get b k' := by
  cases hg : s.get keysBucket k with
  | none =>
      rw [revoke_absent hg]
      split
      · rename_i h
        obtain ⟨_, rfl, rfl⟩ := h
        exact hg
      · rfl
  | some blob =>
      obtain ⟨rec, hst⟩ := hm.stored_of_get hg
      rcases revoke_stored hm hst with ⟨_, hr⟩ | ⟨_, hr⟩
      · rw [hr]
        simp
      · rw [hr]
        simp only [true_and]
        exact Storage.Store.get_delete s keysBucket k b k'

/-- Whatever the bucket holds, `Revoke` deletes its key or does nothing. -/
theorem revoke_store (s : Store) (k : Bytes) :
    (revoke s k).1 = s ∨ (revoke s k).1 = s.delete keysBucket k := by
  cases hres : (revoke s k).2 with
  | error e => exact .inl (Storage.Store.update_error hres)
  | ok u =>
      have h := Storage.Store.update_ok_iff.mp (Prod.ext rfl hres)
      cases hget : s.get keysBucket k with
      | none =>
          rw [hget] at h
          exact .inl (Prod.mk.inj (Except.ok.inj h)).1.symm
      | some b =>
          simp only [hget, bind_eq_ok_iff] at h
          obtain ⟨target, _, h⟩ := h
          split at h
          · simp only [bind_eq_ok_iff] at h
            obtain ⟨_, _, _, _, h⟩ := h
            exact .inr (Prod.mk.inj (Except.ok.inj h)).1.symm
          · exact .inr (Prod.mk.inj (Except.ok.inj h)).1.symm

/-- A call on keys touches the key bucket only. -/
theorem step_sameBucket (sha256 : Bytes → Bytes) (s : Store) (call : KeyCall) {b : Bytes}
    (hb : b ≠ keysBucket) : Storage.Store.SameBucket s (step sha256 s call) b := by
  cases call with
  | create q =>
      simp only [step]
      cases hc : checkRequest q with
      | error e =>
          rw [create_of_check_error hc]
          exact .refl s b
      | ok u =>
          obtain ⟨s', hput, heq⟩ := create_of_check sha256 s hc
          rw [heq]
          exact Storage.Store.sameBucket_put hput hb
  | revoke k =>
      simp only [step]
      rcases revoke_store s k with h | h
      · rw [h]
        exact .refl s b
      · rw [h]
        exact Storage.Store.sameBucket_delete s hb

/-! ## The invariant -/

theorem minted_empty : Minted sha256 Storage.Store.empty := by
  intro k b h
  rw [Storage.Store.get_empty] at h
  exact absurd h (by simp)

theorem minted_step {s : Store} (hm : Minted sha256 s) (call : KeyCall) :
    Minted sha256 (step sha256 s call) := by
  intro k b h
  cases call with
  | create q =>
      simp only [step] at h
      cases hc : checkRequest q with
      | error e =>
          rw [create_of_check_error hc] at h
          exact hm k b h
      | ok u =>
          rw [get_create hc] at h
          split at h
          · rename_i hk
            exact ⟨q, hc, hk.2.symm, (Option.some.inj h).symm⟩
          · exact hm k b h
  | revoke id =>
      simp only [step] at h
      rw [get_revoke hm] at h
      split at h
      · exact absurd h (by simp)
      · exact hm k b h

/-- Every reachable key store is minted. -/
theorem minted_run (sha256 : Bytes → Bytes) (calls : List KeyCall) :
    Minted sha256 (run (step sha256) .empty calls) := by
  apply run_kept minted_empty
  intro s call _ h
  exact minted_step h call

/-! ## Authentication on a minted store -/

/-- A token is accepted exactly when it names a stored, unexpired key and its
secret has the stored hash. -/
theorem authenticateAt_eq_ok_iff {s : Store} {token : Bytes} {now : Time} {p : Principal} :
    authenticateAt sha256 s token now = .ok p ↔
      ∃ keyID secret rec, parseToken token = .ok (keyID, secret) ∧ Stored s keyID rec ∧
        hashSecret sha256 secret = rec.secretSHA256 ∧ unexpired rec now = true ∧
        p = ⟨rec.keyID, rec.name, rec.role⟩ := by
  unfold authenticateAt
  simp only [bind_eq_ok_iff, orErr_eq_ok_iff, reject_eq_ok_iff, Prod.exists, pure, Except.pure,
    Except.ok.injEq]
  constructor
  · intro h
    obtain ⟨keyID, secret, hparse, b, hb, rec, hrec, _, hhash, _, hexp, rfl⟩ := h
    refine ⟨keyID, secret, rec, hparse, ⟨b, hb, hrec⟩, by simpa using hhash, ?_, rfl⟩
    unfold unexpired
    cases hz : rec.expiresUnix == 0 with
    | true => rfl
    | false => simpa [bne, hz] using hexp
  · intro h
    obtain ⟨keyID, secret, rec, hparse, ⟨b, hb, hrec⟩, hhash, hexp, rfl⟩ := h
    refine ⟨keyID, secret, hparse, b, hb, rec, hrec, (), by simpa using hhash, (), ?_, rfl⟩
    unfold unexpired at hexp
    cases hz : rec.expiresUnix == 0 with
    | true => simp [bne, hz]
    | false => simpa [bne, hz] using hexp

end KoraDB.Auth
