import KoraDB.Auth.Lifetime

/-!
# Requested expiries

A caller names an expiry in Unix seconds, with zero for none; a `time.Time` has
a sentinel of its own, the zero time of year 1; and the stored record has zero
again. The conversions agree on every instant except the two sentinels
(`honoured_iff`): a request for one of those makes a key that never expires.
-/

namespace KoraDB.Base

/-! ## Conversions of instants -/

theorem wrap64_le {n : Int} (h : -2 ^ 63 ≤ n) : wrap64 n ≤ n := by
  unfold wrap64
  omega

namespace Time

/-- The seconds fit the `int64` that holds them. -/
def InRange (t : Time) : Prop := -2 ^ 63 ≤ t.sec ∧ t.sec < 2 ^ 63

theorem before_eq_true_iff {t u : Time} :
    t.before u = true ↔ t.sec < u.sec ∨ t.sec = u.sec ∧ t.nsec < u.nsec := by
  simp [before]

theorem before_eq_false_iff {t u : Time} :
    t.before u = false ↔ u.sec < t.sec ∨ u.sec = t.sec ∧ u.nsec ≤ t.nsec := by
  rw [← Bool.not_eq_true, before_eq_true_iff]
  omega

theorem unix_ofUnix {u : Int} (h : -2 ^ 63 ≤ u) (h' : u < 2 ^ 63) : (ofUnix u).unix = u := by
  simp only [ofUnix, unix, wrap64, unixToInternal]
  omega

theorem ofUnix_unix {t : Time} (h : t.InRange) : ofUnix t.unix = ⟨t.sec, 0⟩ := by
  obtain ⟨hlo, hhi⟩ := h
  simp only [ofUnix, unix, wrap64, unixToInternal, mk.injEq, and_true]
  omega

theorem unix_range (t : Time) : -2 ^ 63 ≤ t.unix ∧ t.unix < 2 ^ 63 := by
  simp only [unix, wrap64]
  omega

/-- The zero time in Unix seconds. -/
def zeroUnix : Int := -62135596800

theorem ofUnix_isZero_iff {u : Int} (h : -2 ^ 63 ≤ u) (h' : u < 2 ^ 63) :
    (ofUnix u).isZero = true ↔ u = zeroUnix := by
  simp only [isZero, ofUnix, wrap64, unixToInternal, zeroUnix, beq_self_eq_true, Bool.and_true,
    beq_iff_eq]
  omega

end Time

end KoraDB.Base

namespace KoraDB.Auth

open KoraDB.Base KoraDB.Catalog

variable {sha256 : Bytes → Bytes}

/-- The `expiresAt` that `CreateKeyWithExpiry` is called with for an expiry in
Unix seconds. -/
def requestedExpiry (unix : Int) : Time := if unix ≠ 0 then .ofUnix unix else ⟨0, 0⟩

/-- The key `keyID`, created at `now` into the store `s`, expires at `e`: the
instant is in the future, and from then on `token` is rejected, whatever calls
come in between, as long as none draws the same id again. -/
def Honoured (sha256 : Bytes → Bytes) (e now : Time) (s : Store) (token keyID : Bytes) : Prop :=
  now.before e = true ∧
    ∀ later : List KeyCall, (∀ call ∈ later, call.drawnID ≠ some keyID) →
      ∀ t : Time, t.before e = false →
        ∀ p, authenticateAt sha256 (run (step sha256) s later) token t ≠ .ok p

/-- The instants that the sentinels of the conversions stand for. -/
def IsSentinel (unix : Int) : Prop := unix = 0 ∨ unix = Time.zeroUnix

/-- After a key is created, its id holds its record or nothing. -/
theorem get_later {k : Bytes} {b : Blob} {s : Store} (later : List KeyCall)
    (hlater : ∀ call ∈ later, call.drawnID ≠ some k)
    (h : s.get keysBucket k = some b ∨ s.get keysBucket k = none) :
    (run (step sha256) s later).get keysBucket k = some b ∨
      (run (step sha256) s later).get keysBucket k = none := by
  refine run_kept (P := fun s : Store => s.get keysBucket k = some b ∨ s.get keysBucket k = none)
    h ?_
  intro s call hcall h
  have hdrawn := hlater call hcall
  cases call with
  | create q =>
      simp only [step]
      cases hc : checkRequest q with
      | error e =>
          rw [create_of_check_error hc]
          exact h
      | ok u =>
          have hne : q.keyID ≠ k := by
            intro heq
            apply hdrawn
            simp only [KeyCall.drawnID, hc, heq]
          rw [get_create hc, if_neg fun hh => hne hh.2]
          exact h
  | revoke id =>
      simp only [step]
      rcases revoke_store s id with heq | heq
      · rw [heq]
        exact h
      · rw [heq, Storage.Store.get_delete]
        split
        · exact .inr rfl
        · exact h

section

variable {s : Store} {q : KeyRequest} {u : Int}

theorem checkRequest_future (h : checkRequest q = .ok ()) (hz : q.expiresAt.isZero = false) :
    q.now.before q.expiresAt = true := by
  simp only [checkRequest, bind_eq_ok_iff, reject_eq_ok_iff] at h
  obtain ⟨_, _, _, _, hafter⟩ := h
  simpa [hz, Time.after] using hafter

/-- A key without a stored expiry lets its token in at every time. -/
theorem authenticateAt_forever (h : checkRequest q = .ok ()) (hexp : q.expiresUnix = 0)
    (t : Time) :
    authenticateAt sha256 (createKeyWithExpiry sha256 s q).1 q.token t = .ok q.principal := by
  rw [authenticateAt_eq_ok_iff]
  refine ⟨q.keyID, q.secret, q.record sha256, parseToken_token q, ?_, rfl, ?_, rfl⟩
  · refine ⟨(q.record sha256).marshal, ?_, unmarshal_record h⟩
    rw [get_create h, if_pos ⟨rfl, rfl⟩]
  · show (q.expiresUnix == 0 || _) = true
    rw [hexp]
    rfl

/-- A key with a stored expiry never lets its token in from then on. -/
theorem authenticateAt_expired (h : checkRequest q = .ok ()) (hexp : q.expiresUnix ≠ 0)
    {later : List KeyCall} (hlater : ∀ call ∈ later, call.drawnID ≠ some q.keyID) {t : Time}
    (ht : t.before (.ofUnix q.expiresUnix) = false) (p : Principal) :
    authenticateAt sha256 (run (step sha256) (createKeyWithExpiry sha256 s q).1 later) q.token t
      ≠ .ok p := by
  intro hp
  obtain ⟨keyID, secret, rec, hparse, ⟨b, hget, hrec⟩, _, hlive, _⟩ :=
    authenticateAt_eq_ok_iff.mp hp
  rw [parseToken_token] at hparse
  cases hparse
  have hthere : (createKeyWithExpiry sha256 s q).1.get keysBucket q.keyID =
      some (q.record sha256).marshal := by
    rw [get_create h, if_pos ⟨rfl, rfl⟩]
  rcases get_later later hlater (.inl hthere) with hstill | hgone
  · rw [hget] at hstill
    cases hstill
    rw [unmarshal_record h] at hrec
    cases hrec
    have hrecord : (q.record sha256).expiresUnix = q.expiresUnix := rfl
    unfold unexpired at hlive
    rw [hrecord, ht, Bool.or_false, beq_iff_eq] at hlive
    exact hexp hlive
  · rw [hget] at hgone
    cases hgone

/-- A request for a sentinel stores no expiry. -/
theorem expiresUnix_sentinel (hlo : -2 ^ 63 ≤ u) (hhi : u < 2 ^ 63) (hu : IsSentinel u)
    (hexp : q.expiresAt = requestedExpiry u) : q.expiresUnix = 0 := by
  unfold KeyRequest.expiresUnix
  rw [hexp, if_pos]
  rcases hu with hu | hu
  · rw [hu]
    rfl
  · unfold requestedExpiry
    rw [if_pos (by rw [hu]; decide), Time.ofUnix_isZero_iff hlo hhi]
    exact hu

/-- Every other request stores the seconds it names. -/
theorem expiresUnix_requested (hlo : -2 ^ 63 ≤ u) (hhi : u < 2 ^ 63) (hu : ¬ IsSentinel u)
    (hexp : q.expiresAt = requestedExpiry u) :
    q.expiresAt = .ofUnix u ∧ q.expiresAt.isZero = false ∧ q.expiresUnix = u := by
  obtain ⟨h0, hz⟩ := not_or.mp hu
  have hat : q.expiresAt = .ofUnix u := by
    rw [hexp]
    exact if_pos h0
  have hzero : q.expiresAt.isZero = false := by
    rw [← Bool.not_eq_true, hat, Time.ofUnix_isZero_iff hlo hhi]
    exact hz
  refine ⟨hat, hzero, ?_⟩
  unfold KeyRequest.expiresUnix
  rw [hzero, hat]
  exact Time.unix_ofUnix hlo hhi

/-- A granted request for `u` is honoured exactly if `u` is no sentinel. The
instant `e` the caller meant may be later than `u`, by a fraction of a second or
because `u` was out of the range of `time.Time`. -/
theorem honoured_iff (hlo : -2 ^ 63 ≤ u) (hhi : u < 2 ^ 63) {e : Time}
    (he : e.before (.ofUnix u) = false) (hexp : q.expiresAt = requestedExpiry u)
    (h : checkRequest q = .ok ()) :
    Honoured sha256 e q.now (createKeyWithExpiry sha256 s q).1 q.token q.keyID ↔
      ¬ IsSentinel u := by
  constructor
  · intro hhon hu
    have hself : e.before e = false := by
      rw [Time.before_eq_false_iff]
      omega
    have hstored := expiresUnix_sentinel hlo hhi hu hexp
    exact hhon.2 [] (by simp) e hself q.principal (authenticateAt_forever h hstored e)
  · intro hu
    obtain ⟨hat, hzero, hstored⟩ := expiresUnix_requested hlo hhi hu hexp
    rw [Time.before_eq_false_iff] at he
    refine ⟨?_, ?_⟩
    · have hfuture := checkRequest_future h hzero
      rw [hat, Time.before_eq_true_iff] at hfuture
      rw [Time.before_eq_true_iff]
      omega
    · intro later hlater t ht
      refine authenticateAt_expired h ?_ hlater ?_
      · rw [hstored]
        exact fun h0 => hu (.inl h0)
      · rw [hstored, Time.before_eq_false_iff]
        rw [Time.before_eq_false_iff] at ht
        omega

end

end KoraDB.Auth
