import Mathlib.Data.List.Induction
import KoraDB.Auth.Ledger

/-!
# A token authenticates exactly while its key lives

The key bucket is a summary of the calls made so far. `Held` says it in terms
of the calls: some creation of `q` was accepted and no later revocation of its
id succeeded. `get_run_iff` shows that the bucket holds exactly the records of
held requests, and the characterisation of authentication follows by reading
the token back.
-/

namespace KoraDB.Auth

open KoraDB.Base KoraDB.Catalog

variable {sha256 : Bytes → Bytes}

/-- The key id a call draws at random, if it comes to that. -/
def KeyCall.drawnID : KeyCall → Option Bytes
  | .create q => match checkRequest q with
    | .ok () => some q.keyID
    | .error _ => none
  | .revoke _ => none

/-- After `calls`, request `q` has been granted and its key not revoked. -/
def Held (sha256 : Bytes → Bytes) (calls : List KeyCall) (q : KeyRequest) : Prop :=
  ∃ before after, calls = before ++ .create q :: after ∧
    checkRequest q = .ok () ∧
    ∀ mid tail, after = mid ++ .revoke q.keyID :: tail →
      (revoke (run (step sha256) .empty (before ++ .create q :: mid)) q.keyID).2 ≠ .ok ()

theorem not_held_nil (q : KeyRequest) : ¬ Held sha256 [] q := by
  intro h
  obtain ⟨before, after, heq, _⟩ := h
  simp at heq

/-- One more call: a request is held if it was and this call did not revoke
it, or if this call grants it. -/
theorem held_concat {calls : List KeyCall} {call : KeyCall} {q : KeyRequest} :
    Held sha256 (calls ++ [call]) q ↔
      (Held sha256 calls q ∧ ¬ (call = .revoke q.keyID ∧
        (revoke (run (step sha256) .empty calls) q.keyID).2 = .ok ())) ∨
      (call = .create q ∧ checkRequest q = .ok ()) := by
  constructor
  · intro h
    obtain ⟨before, after, heq, hok, hlive⟩ := h
    rcases List.eq_nil_or_concat after with rfl | ⟨after, last, rfl⟩
    · right
      obtain ⟨_, hlast⟩ := List.append_inj' heq rfl
      exact ⟨(List.cons.inj hlast).1, hok⟩
    · left
      have heq' : calls ++ [call] = (before ++ .create q :: after) ++ [last] := by
        rw [heq]
        simp
      obtain ⟨rfl, hlast⟩ := List.append_inj' heq' rfl
      obtain ⟨rfl, _⟩ := List.cons.inj hlast
      refine ⟨⟨before, after, rfl, hok, ?_⟩, ?_⟩
      · intro mid tail hmid
        exact hlive mid (tail ++ [call]) (by rw [hmid]; simp)
      · intro hrev
        obtain ⟨hcall, hres⟩ := hrev
        exact hlive after [] (by rw [hcall]; simp) hres
  · intro h
    rcases h with ⟨⟨before, after, rfl, hok, hlive⟩, hlast⟩ | ⟨rfl, hok⟩
    · refine ⟨before, after ++ [call], by simp, hok, ?_⟩
      intro mid tail hmid hres
      rcases List.eq_nil_or_concat tail with rfl | ⟨tail, last, rfl⟩
      · obtain ⟨hmid', hcall⟩ := List.append_inj' hmid rfl
        rw [← hmid'] at hres
        exact hlast ⟨(List.cons.inj hcall).1, hres⟩
      · have hmid' : after ++ [call] = (mid ++ .revoke q.keyID :: tail) ++ [last] := by
          rw [hmid]
          simp
        exact hlive mid tail (List.append_inj' hmid' rfl).1 hres
    · refine ⟨calls, [], rfl, hok, ?_⟩
      intro mid tail hmid
      simp at hmid

/-- A held request drew its id in one of the calls. -/
theorem Held.drawn {calls : List KeyCall} {q : KeyRequest} (h : Held sha256 calls q) :
    q.keyID ∈ calls.filterMap KeyCall.drawnID := by
  obtain ⟨before, after, rfl, hok, _⟩ := h
  rw [List.mem_filterMap]
  refine ⟨.create q, by simp, ?_⟩
  simp [KeyCall.drawnID, hok]

/-- `b` is the record of a held request with id `k`. -/
def HeldRecord (sha256 : Bytes → Bytes) (calls : List KeyCall) (k : Bytes) (b : Blob) : Prop :=
  ∃ q, Held sha256 calls q ∧ q.keyID = k ∧ b = (q.record sha256).marshal

theorem heldRecord_refused {calls : List KeyCall} {q : KeyRequest} {e : AuthErr}
    (hc : checkRequest q = .error e) (k : Bytes) (b : Blob) :
    HeldRecord sha256 (calls ++ [.create q]) k b ↔ HeldRecord sha256 calls k b := by
  unfold HeldRecord
  simp only [held_concat, reduceCtorEq, false_and, not_false_eq_true, and_true]
  constructor
  · rintro ⟨q', hq | ⟨heq, hok⟩, hrest⟩
    · exact ⟨q', hq, hrest⟩
    · cases heq
      rw [hc] at hok
      cases hok
  · rintro ⟨q', hq, hrest⟩
    exact ⟨q', .inl hq, hrest⟩

/-- A grant under a fresh id adds its own record. -/
theorem heldRecord_granted {calls : List KeyCall} {q : KeyRequest} (hc : checkRequest q = .ok ())
    (hfresh : ∀ q', Held sha256 calls q' → q'.keyID ≠ q.keyID) (k : Bytes) (b : Blob) :
    HeldRecord sha256 (calls ++ [.create q]) k b ↔
      if q.keyID = k then b = (q.record sha256).marshal else HeldRecord sha256 calls k b := by
  unfold HeldRecord
  simp only [held_concat, reduceCtorEq, false_and, not_false_eq_true, and_true]
  by_cases hk : q.keyID = k
  · rw [if_pos hk]
    constructor
    · rintro ⟨q', hq | ⟨heq, _⟩, hqk, hb⟩
      · exact absurd (hqk.trans hk.symm) (hfresh q' hq)
      · cases heq
        exact hb
    · intro hb
      exact ⟨q, .inr ⟨rfl, hc⟩, hk, hb⟩
  · rw [if_neg hk]
    constructor
    · rintro ⟨q', hq | ⟨heq, _⟩, hqk, hb⟩
      · exact ⟨q', hq, hqk, hb⟩
      · cases heq
        exact absurd hqk hk
    · rintro ⟨q', hq, hrest⟩
      exact ⟨q', .inl hq, hrest⟩

/-- A revocation that succeeds removes the record of its id. -/
theorem heldRecord_revoke {calls : List KeyCall} {id : Bytes} (k : Bytes) (b : Blob) :
    HeldRecord sha256 (calls ++ [.revoke id]) k b ↔
      HeldRecord sha256 calls k b ∧
        ¬ ((revoke (run (step sha256) .empty calls) id).2 = .ok () ∧ id = k) := by
  unfold HeldRecord
  simp only [held_concat, reduceCtorEq, false_and, or_false, KeyCall.revoke.injEq]
  constructor
  · rintro ⟨q, ⟨hq, hlive⟩, rfl, hb⟩
    refine ⟨⟨q, hq, rfl, hb⟩, ?_⟩
    rintro ⟨hres, rfl⟩
    exact hlive ⟨rfl, hres⟩
  · rintro ⟨⟨q, hq, rfl, hb⟩, hlive⟩
    refine ⟨q, ⟨hq, ?_⟩, rfl, hb⟩
    rintro ⟨rfl, hres⟩
    exact hlive ⟨hres, rfl⟩

/-- The key bucket holds exactly the records of the held requests. -/
theorem get_run_iff {calls : List KeyCall} (hids : (calls.filterMap KeyCall.drawnID).Nodup)
    (k : Bytes) (b : Blob) :
    (run (step sha256) .empty calls).get keysBucket k = some b ↔ HeldRecord sha256 calls k b := by
  induction calls using List.reverseRecOn with
  | nil =>
      have hnone : ¬ HeldRecord sha256 [] k b := by
        rintro ⟨q, hq, _⟩
        exact not_held_nil q hq
      rw [run_nil, Storage.Store.get_empty]
      simp [hnone]
  | append_singleton calls call ih =>
      rw [List.filterMap_append, List.nodup_append] at hids
      obtain ⟨hold, _, hdistinct⟩ := hids
      specialize ih hold
      rw [run_concat]
      cases call with
      | create q =>
          simp only [step]
          cases hc : checkRequest q with
          | error e => rw [create_of_check_error hc, ih, heldRecord_refused hc]
          | ok u =>
              -- the id is new, so no earlier request is held under it
              have hfresh : ∀ q', Held sha256 calls q' → q'.keyID ≠ q.keyID := by
                intro q' hq
                have hnew : q.keyID ∈ List.filterMap KeyCall.drawnID [.create q] := by
                  simp [KeyCall.drawnID, hc]
                exact hdistinct _ hq.drawn _ hnew
              rw [get_create hc, heldRecord_granted hc hfresh]
              simp only [true_and]
              split
              · rw [Option.some.injEq, eq_comm]
              · exact ih
      | revoke id =>
          simp only [step]
          rw [get_revoke (minted_run sha256 calls), heldRecord_revoke, ← ih]
          simp only [true_and]
          split
          · rename_i hrev
            exact iff_of_false (by simp) fun h => h.2 hrev
          · rename_i hrev
            exact (and_iff_left hrev).symm

/-- SHA-256 tells the secret of a token apart from the secrets issued in a run. -/
def NoSecretCollision (sha256 : Bytes → Bytes) (calls : List KeyCall) (token : Bytes) : Prop :=
  ∀ keyID secret q, parseToken token = .ok (keyID, secret) → .create q ∈ calls →
    sha256 secret = sha256 q.secret → secret = q.secret

theorem hexDigit_inj : ∀ m < 16, ∀ n < 16, hexDigit m = hexDigit n → m = n := by
  decide

theorem hexEncode_injective : Function.Injective hexEncode := by
  intro a b h
  induction a generalizing b with
  | nil =>
      cases b with
      | nil => rfl
      | cons y b => simp [hexEncode] at h
  | cons x a ih =>
      cases b with
      | nil => simp [hexEncode] at h
      | cons y b =>
          have hx : x.toNat < 256 := x.toNat_lt
          have hy : y.toNat < 256 := y.toNat_lt
          simp only [hexEncode, List.flatMap_cons, List.cons_append, List.nil_append,
            List.cons.injEq] at h
          obtain ⟨hhi, hlo, hrest⟩ := h
          have hdiv := hexDigit_inj _ (by omega) _ (by omega) hhi
          have hmod := hexDigit_inj _ (by omega) _ (by omega) hlo
          have hxy : x = y := UInt8.toNat_inj.mp (by omega)
          rw [hxy, ih hrest]

/-- **Token lifetime.** After any run of creations and revocations, a string whose
secret collides with no other one that was issued authenticates at `now` exactly
when it is the token some accepted creation returned, that creation's key has not
been revoked since, and its expiry is absent or later than `now`; the principal is
the one of that creation. -/
theorem authenticateAt_run_iff (calls : List KeyCall)
    (hids : (calls.filterMap KeyCall.drawnID).Nodup) (token : Bytes)
    (hsha : NoSecretCollision sha256 calls token) (now : Time) (p : Principal) :
    authenticateAt sha256 (run (step sha256) .empty calls) token now = .ok p ↔
      ∃ before q after, calls = before ++ .create q :: after ∧
        (createKeyWithExpiry sha256 (run (step sha256) .empty before) q).2 =
          .ok (token, q.keyID) ∧
        (∀ mid tail, after = mid ++ .revoke q.keyID :: tail →
          (revoke (run (step sha256) .empty (before ++ .create q :: mid)) q.keyID).2 ≠ .ok ()) ∧
        (q.expiresUnix = 0 ∨ now.before (.ofUnix q.expiresUnix) = true) ∧
        p = ⟨q.keyID, q.name, q.role⟩ := by
  rw [authenticateAt_eq_ok_iff]
  constructor
  · intro h
    obtain ⟨keyID, secret, rec, hparse, ⟨b, hb, hrec⟩, hhash, hexp, rfl⟩ := h
    obtain ⟨q, hheld, rfl, rfl⟩ := (get_run_iff hids keyID b).mp hb
    obtain ⟨before, after, heq, hok, hlive⟩ := hheld
    rw [unmarshal_record hok] at hrec
    obtain rfl := Option.some.inj hrec
    have hissued : KeyCall.create q ∈ calls := by
      rw [heq]
      exact List.mem_append_right _ List.mem_cons_self
    have hsecret : secret = q.secret :=
      hsha _ _ q hparse hissued (hexEncode_injective hhash)
    obtain ⟨rfl, _⟩ := parseToken_eq_ok_iff.mp hparse
    refine ⟨before, q, after, heq, ?_, hlive, ?_, rfl⟩
    · rw [hsecret]
      exact create_result_iff.mpr ⟨hok, rfl, rfl⟩
    · simpa [unexpired, KeyRequest.record] using hexp
  · intro h
    obtain ⟨before, q, after, heq, hcreate, hlive, hexp, rfl⟩ := h
    obtain ⟨hok, rfl, _⟩ := create_result_iff.mp hcreate
    have hget := (get_run_iff hids q.keyID _).mpr ⟨q, ⟨before, after, heq, hok, hlive⟩, rfl, rfl⟩
    refine ⟨q.keyID, q.secret, q.record sha256, parseToken_token q, ⟨_, hget, unmarshal_record hok⟩,
      rfl, ?_, rfl⟩
    simpa [unexpired, KeyRequest.record] using hexp

/-- A request with fixed random bytes, made on 1 January 2026. -/
def sampleRequest (id secret : UInt8) (role : Int) (expiresAt : Time) : KeyRequest where
  name := ascii "ops"
  role := role
  expiresAt := expiresAt
  now := .ofUnix 1767225600
  createdAt := .ofUnix 1767225600
  rand := ⟨Vector.replicate 8 id, Vector.replicate 32 secret⟩

/-- A checksum of 32 bytes in the place of SHA-256. -/
def sampleDigest (s : Bytes) : Bytes :=
  (List.range 32).map fun i => s.getD i 0 + s.getD (i + 32) 0

/-- A key that expires a day later still authenticates after another key was
created and revoked. -/
theorem authenticateAt_run_sample :
    let q := sampleRequest 1 2 roleReadWrite (.ofUnix 1767312000)
    let other := sampleRequest 3 4 roleReadOnly ⟨0, 0⟩
    authenticateAt sampleDigest
        (run (step sampleDigest) .empty [.create q, .create other, .revoke other.keyID])
        q.token (.ofUnix 1767225601) = .ok ⟨q.keyID, ascii "ops", roleReadWrite⟩ := by
  intro q other
  have hsha : NoSecretCollision sampleDigest [.create q, .create other, .revoke other.keyID]
      q.token := by
    intro keyID secret q' hparse hissued hsame
    rw [parseToken_token] at hparse
    cases hparse
    simp only [List.mem_cons, KeyCall.create.injEq, reduceCtorEq, List.not_mem_nil, or_false]
      at hissued
    rcases hissued with rfl | rfl
    · rfl
    · exact absurd hsame (by decide +kernel)
  refine (authenticateAt_run_iff _ (by decide) _ hsha _ _).mpr
    ⟨[], q, [.create other, .revoke other.keyID], rfl, by decide, ?_, .inr (by decide), rfl⟩
  intro mid tail hmid
  cases mid with
  | nil => simp at hmid
  | cons first mid =>
      cases mid with
      | nil =>
          simp only [List.cons_append, List.nil_append, List.cons.injEq, KeyCall.revoke.injEq]
            at hmid
          exact absurd hmid.2.1 (by decide)
      | cons second mid => simp at hmid

end KoraDB.Auth
