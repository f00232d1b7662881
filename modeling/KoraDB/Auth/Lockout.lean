import KoraDB.Auth.Lifetime

/-!
# Can a revocation lock the administrators out?

`Revoke` refuses to delete the last administrator record, but it counts
records, not usable keys: an expired administrator still counts. So the last
administrator who can log in may be revoked while an expired record remains.
`revoke_keeps_admin_iff` says that this is the only way.
-/

namespace KoraDB.Auth

open KoraDB.Base KoraDB.Catalog

variable {sha256 : Bytes → Bytes}

/-- Some token authenticates as an administrator at `now`. -/
def AdminEnters (sha256 : Bytes → Bytes) (s : Store) (now : Time) : Prop :=
  ∃ token p, authenticateAt sha256 s token now = .ok p ∧ p.role = roleAdmin

/-- The record under `k` is an administrator's and has not expired at `now`. -/
def LiveAdmin (s : Store) (now : Time) (k : Bytes) : Prop :=
  ∃ rec, Stored s k rec ∧ rec.role = roleAdmin ∧ unexpired rec now = true

/-- Revoking `k` at `now` is safe: `k` is no live administrator, or another
one is live, or no other administrator record is stored at all. -/
def SafeToRevoke (s : Store) (now : Time) (k : Bytes) : Prop :=
  LiveAdmin s now k →
    (∃ k', k' ≠ k ∧ LiveAdmin s now k') ∨
    ∀ k' rec, Stored s k' rec → rec.role = roleAdmin → k' = k

/-- On a minted store an administrator can log in exactly when a live
administrator record is stored: whoever drew its secret has its token. -/
theorem adminEnters_iff {s : Store} (hm : Minted sha256 s) (now : Time) :
    AdminEnters sha256 s now ↔ ∃ k, LiveAdmin s now k := by
  constructor
  · intro h
    obtain ⟨token, p, hauth, hrole⟩ := h
    obtain ⟨k, _, rec, _, hst, _, hexp, rfl⟩ := authenticateAt_eq_ok_iff.mp hauth
    exact ⟨k, rec, hst, hrole, hexp⟩
  · intro h
    obtain ⟨k, rec, hst, hrole, hexp⟩ := h
    obtain ⟨q, _, rfl, rfl⟩ := hm.stored hst
    exact ⟨q.token, q.principal, authenticateAt_eq_ok_iff.mpr
      ⟨q.keyID, q.secret, q.record sha256, parseToken_token q, hst, rfl, hexp, rfl⟩, hrole⟩

/-- Deleting one key keeps the records of all others. -/
theorem stored_delete {s : Store} {k k' : Bytes} {rec : KeyRecord} :
    Stored (s.delete keysBucket k) k' rec ↔ k' ≠ k ∧ Stored s k' rec := by
  unfold Stored
  by_cases hk : k = k'
  · simp [Storage.Store.get_delete, hk]
  · simp [Storage.Store.get_delete, hk, Ne.symm hk]

theorem liveAdmin_delete {s : Store} {now : Time} {k k' : Bytes} :
    LiveAdmin (s.delete keysBucket k) now k' ↔ k' ≠ k ∧ LiveAdmin s now k' := by
  unfold LiveAdmin
  simp only [stored_delete]
  constructor
  · intro h
    obtain ⟨rec, ⟨hne, hst⟩, hrest⟩ := h
    exact ⟨hne, rec, hst, hrest⟩
  · intro h
    obtain ⟨hne, rec, hst, hrest⟩ := h
    exact ⟨rec, ⟨hne, hst⟩, hrest⟩

/-- **Lock-out.** From every reachable key store, a revocation keeps the
administrators' access at `now` exactly when it is safe. -/
theorem revoke_keeps_admin_iff (sha256 : Bytes → Bytes) (calls : List KeyCall) (k : Bytes)
    (now : Time) :
    (AdminEnters sha256 (run (step sha256) .empty calls) now →
        AdminEnters sha256 (revoke (run (step sha256) .empty calls) k).1 now) ↔
      SafeToRevoke (run (step sha256) .empty calls) now k := by
  have hm := minted_run sha256 calls
  generalize run (step sha256) .empty calls = s at hm ⊢
  have hm' : Minted sha256 (revoke s k).1 := minted_step hm (.revoke k)
  rw [adminEnters_iff hm, adminEnters_iff hm']
  cases hg : s.get keysBucket k with
  | none =>
      -- nothing to revoke, and nothing under `k` to lose
      rw [revoke_absent hg]
      refine iff_of_true id ?_
      intro hlive
      obtain ⟨_, ⟨b, hb, _⟩, _⟩ := hlive
      rw [hg] at hb
      cases hb
  | some b =>
      obtain ⟨rec, hst⟩ := hm.stored_of_get hg
      rcases revoke_stored hm hst with ⟨honly, hr⟩ | ⟨honly, hr⟩
      · rw [hr]
        exact iff_of_true id fun _ => .inr honly.2
      · rw [hr]
        simp only [liveAdmin_delete]
        constructor
        · intro hkeep hlive
          exact .inl (hkeep ⟨k, hlive⟩)
        · intro hsafe hsome
          obtain ⟨k₀, hlive⟩ := hsome
          by_cases hk : k₀ = k
          · rw [hk] at hlive
            rcases hsafe hlive with hother | hnone
            · exact hother
            · obtain ⟨rec', hst', hrole', _⟩ := hlive
              exact absurd ⟨⟨rec', hst', hrole'⟩, hnone⟩ honly
          · exact ⟨k₀, hk, hlive⟩

/-- The SHA-256 digests of the two secrets below, and nothing else of
SHA-256. -/
def sampleSha256 (s : Bytes) : Bytes :=
  if s = hexEncode (List.replicate 32 2) then
    [116, 159, 26, 151, 255, 108, 208, 14, 164, 108, 203, 58, 71, 187, 18, 50,
      131, 254, 86, 200, 250, 50, 75, 234, 41, 93, 146, 143, 85, 129, 97, 223]
  else if s = hexEncode (List.replicate 32 4) then
    [65, 154, 112, 31, 209, 133, 237, 26, 208, 246, 64, 150, 152, 251, 244, 38,
      225, 190, 224, 65, 254, 22, 117, 49, 166, 132, 147, 178, 119, 143, 135, 24]
  else []

/-- A root administrator without expiry and one who expires after a day; two
days later the first is revoked. The expired record is counted, so the
revocation succeeds, and no administrator can log in any more. -/
theorem revoke_locks_admins_out :
    let root := sampleRequest 1 2 roleAdmin ⟨0, 0⟩
    let temp := sampleRequest 3 4 roleAdmin (.ofUnix 1767312000)
    let s := run (step sampleSha256) .empty [.create root, .create temp]
    let now := Time.ofUnix 1767398400
    AdminEnters sampleSha256 s now ∧ (revoke s root.keyID).2 = .ok () ∧
      ¬ AdminEnters sampleSha256 (revoke s root.keyID).1 now := by
  intro root temp s now
  refine ⟨⟨root.token, root.principal, by decide, rfl⟩, by decide, ?_⟩
  have hm : Minted sampleSha256 (revoke s root.keyID).1 :=
    minted_step (minted_run _ _) (.revoke root.keyID)
  rw [adminEnters_iff hm]
  intro h
  obtain ⟨k, rec, hst, _, hexp⟩ := h
  -- the bucket is left with the expired record alone
  obtain ⟨b, hb, hrec⟩ := hst
  have hscan : (revoke s root.keyID).1.scan keysBucket =
      [(temp.keyID, (temp.record sampleSha256).marshal)] := by rfl
  have hmem := Storage.Store.mem_scan.mpr hb
  rw [hscan, List.mem_singleton, Prod.mk.injEq] at hmem
  rw [hmem.2, unmarshal_record (by decide)] at hrec
  rw [← Option.some.inj hrec] at hexp
  exact absurd hexp (by decide)

end KoraDB.Auth
