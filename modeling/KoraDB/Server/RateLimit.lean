import Mathlib.Algebra.Order.Ring.Abs
import Mathlib.Algebra.Order.Ring.Rat
import Mathlib.Tactic.Linarith
import Mathlib.Tactic.FieldSimp
import KoraDB.Base.Run
import KoraDB.Server.Keys

/-!
# The rate limit (`internal/server/interceptors.go`)

`RateLimitInterceptor` guards the server with one token bucket. Requests read
the clock before they take the lock, so the bucket may see times that go
backwards: a refill is then negative, and the next one starts from the earlier
time.

The source computes in `float64`; here the same computation is exact. Its
invariant is about whole runs (`tokens_run`): what was admitted and what is
left never exceed what was there and what flowed in, in any order of times.
-/

namespace KoraDB.Server

open KoraDB.Base

/-- An instant in seconds. `now.Sub(t).Seconds()` is the difference of two as
long as `Sub` does not saturate, for some 292 years (`seconds_sub`). -/
def seconds (t : Time) : ℚ := t.sec + t.nsec / 10 ^ 9

/-- Two instants that are less than `2 ^ 63` nanoseconds apart. -/
theorem seconds_sub {t u : Time} (h : |seconds t - seconds u| * 10 ^ 9 < 2 ^ 63) :
    ((t.sub u : ℤ) : ℚ) / 10 ^ 9 = seconds t - seconds u := by
  have hexact : (seconds t - seconds u) * 10 ^ 9 =
      (((t.sec - u.sec) * 10 ^ 9 + (t.nsec - u.nsec) : ℤ) : ℚ) := by
    push_cast [seconds]
    ring
  have hbound : |(((t.sec - u.sec) * 10 ^ 9 + (t.nsec - u.nsec) : ℤ) : ℚ)| < 2 ^ 63 := by
    rwa [← hexact, abs_mul, abs_of_pos (by norm_num : (0 : ℚ) < 10 ^ 9)]
  have hnanos : t.sub u = (t.sec - u.sec) * 10 ^ 9 + (t.nsec - u.nsec) := by
    obtain ⟨hlo, hhi⟩ := abs_lt.mp hbound
    have hlo' : -2 ^ 63 < (t.sec - u.sec) * 10 ^ 9 + ((t.nsec : ℤ) - u.nsec) := by
      exact_mod_cast hlo
    have hhi' : (t.sec - u.sec) * 10 ^ 9 + ((t.nsec : ℤ) - u.nsec) < 2 ^ 63 := by
      exact_mod_cast hhi
    rw [Time.sub, min_eq_right (by omega), max_eq_right (by omega)]
  rw [hnanos, ← hexact]
  exact mul_div_cancel_right₀ _ (by norm_num)

/-- `tokenBucket`. -/
structure TokenBucket where
  rate : ℚ
  burst : ℚ
  tokens : ℚ
  refreshed : Time
  deriving DecidableEq

/-- `newTokenBucket`. A rate that is not positive gives the zero bucket, and a
burst that is not positive is as large as the rate. -/
def newTokenBucket (requestsPerSecond burst : Int) (now : Time) : TokenBucket :=
  if requestsPerSecond ≤ 0 then ⟨0, 0, 0, ⟨0, 0⟩⟩
  else
    let burst := if burst ≤ 0 then requestsPerSecond else burst
    ⟨requestsPerSecond, burst, burst, now⟩

/-- `minFloat`. -/
def minFloat (a b : ℚ) : ℚ := if a < b then a else b

/-- The tokens after the refill in `allow`, which the source takes from
`now.Sub(b.refreshed).Seconds()`. -/
def TokenBucket.refilled (b : TokenBucket) (now : Time) : ℚ :=
  minFloat b.burst (b.tokens + (seconds now - seconds b.refreshed) * b.rate)

/-- `allow`: the bucket it leaves, and whether the request passes. -/
def TokenBucket.allow (b : TokenBucket) (now : Time) : TokenBucket × Bool :=
  if b.rate ≤ 0 then (b, true)
  else
    let b := { b with tokens := b.refilled now, refreshed := now }
    if b.tokens < 1 then (b, false) else ({ b with tokens := b.tokens - 1 }, true)

/-- `RateLimitInterceptor`, up to the handler. -/
def rateLimitInterceptor (b : TokenBucket) (now : Time) : TokenBucket × Except Code Unit :=
  let (b, ok) := b.allow now
  (b, if ok then .ok () else .error .resourceExhausted)

/-! ## Runs -/

/-- The bucket after a sequence of requests. -/
def bucketAfter (b : TokenBucket) (nows : List Time) : TokenBucket :=
  run (fun b now => (rateLimitInterceptor b now).1) b nows

/-- Which requests of a sequence pass. -/
def admissions : TokenBucket → List Time → List Bool
  | _, [] => []
  | b, now :: nows =>
    (rateLimitInterceptor b now).2.isOk :: admissions (rateLimitInterceptor b now).1 nows

theorem rateLimitInterceptor_isOk (b : TokenBucket) (now : Time) :
    (rateLimitInterceptor b now).2.isOk = (b.allow now).2 := by
  unfold rateLimitInterceptor
  obtain ⟨b', ok⟩ := b.allow now
  cases ok <;> rfl

theorem rateLimitInterceptor_bucket (b : TokenBucket) (now : Time) :
    (rateLimitInterceptor b now).1 = (b.allow now).1 := rfl

theorem rateLimitInterceptor_eq_ok {b b' : TokenBucket} {now : Time}
    (h : rateLimitInterceptor b now = (b', .ok ())) : b.allow now = (b', true) := by
  have hok := rateLimitInterceptor_isOk b now
  have hbucket := rateLimitInterceptor_bucket b now
  rw [h] at hok hbucket
  exact Prod.ext hbucket.symm hok.symm

/-- A request that passes does so because the limit is off, or for a token. -/
theorem TokenBucket.allow_eq_true {b b' : TokenBucket} {now : Time}
    (h : b.allow now = (b', true)) :
    (b.rate ≤ 0 ∧ b' = b) ∨
      (1 ≤ b.refilled now ∧
        b' = { b with tokens := b.refilled now - 1, refreshed := now }) := by
  unfold TokenBucket.allow at h
  by_cases hrate : b.rate ≤ 0
  · rw [if_pos hrate] at h
    exact .inl ⟨hrate, (congrArg Prod.fst h).symm⟩
  · rw [if_neg hrate] at h
    by_cases hlt : b.refilled now < 1
    · simp only [if_pos hlt] at h
      cases congrArg Prod.snd h
    · simp only [if_neg hlt] at h
      exact .inr ⟨not_lt.mp hlt, (congrArg Prod.fst h).symm⟩

theorem TokenBucket.allow_rate (b : TokenBucket) (now : Time) : (b.allow now).1.rate = b.rate := by
  unfold TokenBucket.allow
  split
  · rfl
  · dsimp only
    split <;> rfl

/-- The limit of a new bucket is off exactly when the flag turns it off. -/
theorem newTokenBucket_rate_nonpos {requestsPerSecond burst : Int} {now : Time} :
    (newTokenBucket requestsPerSecond burst now).rate ≤ 0 ↔ requestsPerSecond ≤ 0 := by
  unfold newTokenBucket
  by_cases hoff : requestsPerSecond ≤ 0
  · simp [hoff]
  · rw [if_neg hoff]
    show (requestsPerSecond : ℚ) ≤ 0 ↔ requestsPerSecond ≤ 0
    exact Int.cast_nonpos

theorem bucketAfter_concat (b : TokenBucket) (nows : List Time) (now : Time) :
    bucketAfter b (nows ++ [now]) = ((bucketAfter b nows).allow now).1 := run_concat ..

theorem admissions_append (b : TokenBucket) (nows later : List Time) :
    admissions b (nows ++ later) = admissions b nows ++ admissions (bucketAfter b nows) later := by
  induction nows generalizing b with
  | nil => rfl
  | cons now nows ih => exact congrArg _ (ih _)

theorem take_admissions (b : TokenBucket) (nows : List Time) (n : Nat) :
    (admissions b nows).take n = admissions b (nows.take n) := by
  induction nows generalizing b n with
  | nil => rw [List.take_nil]; exact List.take_nil
  | cons now nows ih =>
      cases n with
      | zero => rfl
      | succ n => exact congrArg _ (ih _ n)

theorem drop_admissions (b : TokenBucket) (nows : List Time) (n : Nat) :
    (admissions b nows).drop n = admissions (bucketAfter b (nows.take n)) (nows.drop n) := by
  -- both sides are what is left of one list behind the same start
  have hsplit := admissions_append b (nows.take n) (nows.drop n)
  rw [List.take_append_drop, ← take_admissions] at hsplit
  exact List.append_cancel_left (((admissions b nows).take_append_drop n).trans hsplit)

/-- Whether one request of a sequence passes. -/
theorem admissions_get {b : TokenBucket} {nows : List Time} {k : Nat} {now : Time}
    (h : nows[k]? = some now) :
    (admissions b nows)[k]? = some ((bucketAfter b (nows.take k)).allow now).2 := by
  have hdrop : nows.drop k = now :: nows.drop (k + 1) := by
    obtain ⟨hlt, rfl⟩ := List.getElem?_eq_some_iff.mp h
    exact List.drop_eq_getElem_cons hlt
  rw [← Nat.add_zero k, ← List.getElem?_drop, drop_admissions, Nat.add_zero, hdrop, admissions,
    List.getElem?_cons_zero, rateLimitInterceptor_isOk]

/-! ## One request -/

/-- A bucket that limits: it was made for a positive rate. -/
structure Limiting (r b : ℚ) (bucket : TokenBucket) : Prop where
  rate : bucket.rate = r
  rate_pos : 0 < r
  burst : bucket.burst = b
  burst_ge : 1 ≤ b
  tokens_le : bucket.tokens ≤ b

variable {r b : ℚ} {bucket : TokenBucket}

theorem limiting_new {requestsPerSecond burst : Int} (hr : 1 ≤ requestsPerSecond) (hb : 1 ≤ burst)
    (now : Time) :
    Limiting requestsPerSecond burst (newTokenBucket requestsPerSecond burst now) := by
  have hr' : (1 : ℚ) ≤ requestsPerSecond := by exact_mod_cast hr
  have hb' : (1 : ℚ) ≤ burst := by exact_mod_cast hb
  unfold newTokenBucket
  rw [if_neg (by omega), if_neg (by omega)]
  exact ⟨rfl, by linarith, rfl, hb', le_refl _⟩

theorem refilled_eq (h : Limiting r b bucket) (now : Time) :
    bucket.refilled now =
      min b (bucket.tokens + (seconds now - seconds bucket.refreshed) * r) := by
  unfold TokenBucket.refilled minFloat
  rw [h.rate, h.burst]
  split
  · rename_i hlt
    exact (min_eq_left hlt.le).symm
  · rename_i hge
    exact (min_eq_right (not_lt.mp hge)).symm

/-- Everything a request does to the bucket. -/
theorem allow_cases (h : Limiting r b bucket) (now : Time) :
    (bucket.refilled now < 1 ∧
      bucket.allow now = ({ bucket with tokens := bucket.refilled now, refreshed := now }, false)) ∨
    (1 ≤ bucket.refilled now ∧
      bucket.allow now =
        ({ bucket with tokens := bucket.refilled now - 1, refreshed := now }, true)) := by
  have hrate : ¬ bucket.rate ≤ 0 := by
    rw [h.rate]
    exact not_le.mpr h.rate_pos
  unfold TokenBucket.allow
  rw [if_neg hrate]
  by_cases hlt : bucket.refilled now < 1
  · exact .inl ⟨hlt, if_pos hlt⟩
  · exact .inr ⟨not_lt.mp hlt, if_neg hlt⟩

theorem allow_refreshed (h : Limiting r b bucket) (now : Time) :
    (bucket.allow now).1.refreshed = now := by
  rcases allow_cases h now with ⟨_, hallow⟩ | ⟨_, hallow⟩ <;> rw [hallow]

theorem limiting_allow (h : Limiting r b bucket) (now : Time) :
    Limiting r b (bucket.allow now).1 := by
  have hcap : bucket.refilled now ≤ b := by
    rw [refilled_eq h]
    exact min_le_left _ _
  rcases allow_cases h now with ⟨_, hallow⟩ | ⟨_, hallow⟩ <;> rw [hallow]
  · exact ⟨h.rate, h.rate_pos, h.burst, h.burst_ge, hcap⟩
  · exact ⟨h.rate, h.rate_pos, h.burst, h.burst_ge, by show _ - 1 ≤ b; linarith⟩

/-- What a request costs comes out of the bucket, and no more flows in than the
time since the last request brings. The time may be negative. -/
theorem tokens_allow (h : Limiting r b bucket) (now : Time) :
    (bucket.allow now).1.tokens + (if (bucket.allow now).2 then 1 else 0) ≤
      bucket.tokens + r * (seconds now - seconds bucket.refreshed) := by
  have hin : bucket.refilled now ≤
      bucket.tokens + r * (seconds now - seconds bucket.refreshed) := by
    rw [refilled_eq h, mul_comm r]
    exact min_le_right _ _
  rcases allow_cases h now with ⟨_, hallow⟩ | ⟨_, hallow⟩ <;> rw [hallow]
  · simpa using hin
  · simpa using hin

/-- An admitted request leaves no debt. -/
theorem tokens_nonneg_of_allow (h : Limiting r b bucket) {now : Time}
    (hok : (bucket.allow now).2 = true) : 0 ≤ (bucket.allow now).1.tokens := by
  rcases allow_cases h now with ⟨_, hallow⟩ | ⟨hge, hallow⟩ <;> rw [hallow] at hok ⊢
  · cases hok
  · show 0 ≤ bucket.refilled now - 1
    linarith

/-! ## Sequences of requests -/

theorem limiting_after (h : Limiting r b bucket) (nows : List Time) :
    Limiting r b (bucketAfter bucket nows) :=
  run_kept h fun _ now _ hb => limiting_allow hb now

/-- The potential of a run: tokens left and requests admitted, against tokens
held before and tokens flowed in. -/
theorem tokens_run (h : Limiting r b bucket) (nows : List Time) :
    (bucketAfter bucket nows).tokens + (admissions bucket nows).count true ≤
      bucket.tokens +
        r * (seconds (bucketAfter bucket nows).refreshed - seconds bucket.refreshed) := by
  induction nows generalizing bucket with
  | nil => simp [bucketAfter, admissions]
  | cons now nows ih =>
      -- the inflows of the steps telescope to the time between first and last
      have hstep := tokens_allow h now
      have hrest := ih (limiting_allow h now)
      rw [allow_refreshed h now] at hrest
      have hcount : (((admissions bucket (now :: nows)).count true : ℕ) : ℚ) =
          (admissions (bucket.allow now).1 nows).count true +
            (if (bucket.allow now).2 then 1 else 0) := by
        rw [admissions, rateLimitInterceptor_isOk, List.count_cons]
        cases (bucket.allow now).2 <;> simp <;> rfl
      rw [hcount]
      show (bucketAfter (bucket.allow now).1 nows).tokens + _ ≤
        _ + r * (seconds (bucketAfter (bucket.allow now).1 nows).refreshed - _)
      linarith

/-- The bucket after the request `k` of a sequence. -/
theorem bucketAfter_take {nows : List Time} {k : Nat} {now : Time} (h : nows[k]? = some now) :
    bucketAfter bucket (nows.take (k + 1)) = ((bucketAfter bucket (nows.take k)).allow now).1 := by
  rw [List.take_add_one, h, Option.toList_some, bucketAfter_concat]

/-- Between a state of the bucket and a later admitted request, admissions are
bounded by the tokens of that state and the time in between. -/
theorem window_le (h : Limiting r b bucket) {nows : List Time} {i k : Nat} {now : Time}
    (hik : i ≤ k) (hnow : nows[k]? = some now)
    (hok : (admissions bucket nows)[k]? = some true) :
    ((((admissions bucket nows).take (k + 1)).drop i).count true : ℚ) ≤
      (bucketAfter bucket (nows.take i)).tokens +
        r * (seconds now - seconds (bucketAfter bucket (nows.take i)).refreshed) := by
  have hk := limiting_after h (nows.take k)
  rw [admissions_get hnow, Option.some.injEq] at hok
  have hsplit : bucketAfter (bucketAfter bucket (nows.take i)) ((nows.take (k + 1)).drop i) =
      ((bucketAfter bucket (nows.take k)).allow now).1 := by
    have hcut : nows.take i ++ (nows.take (k + 1)).drop i = nows.take (k + 1) := by
      have htake := List.take_append_drop i (nows.take (k + 1))
      rwa [List.take_take, Nat.min_eq_left (by omega)] at htake
    unfold bucketAfter
    rw [← run_append, hcut]
    exact bucketAfter_take hnow
  -- an admitted request leaves no debt, so the tokens left can be dropped
  have hrun := tokens_run (limiting_after h (nows.take i)) ((nows.take (k + 1)).drop i)
  rw [hsplit, allow_refreshed hk] at hrun
  have hnonneg := tokens_nonneg_of_allow hk hok
  rw [take_admissions, drop_admissions, List.take_take, Nat.min_eq_left (by omega)]
  linarith

/-! ## Times in order -/

/-- While times go forwards the bucket never owes a token. -/
theorem tokens_nonneg_allow (h : Limiting r b bucket) (hnonneg : 0 ≤ bucket.tokens) {now : Time}
    (hle : seconds bucket.refreshed ≤ seconds now) : 0 ≤ (bucket.allow now).1.tokens := by
  have hin : 0 ≤ (seconds now - seconds bucket.refreshed) * r :=
    mul_nonneg (by linarith) h.rate_pos.le
  have hfull : 0 ≤ bucket.refilled now := by
    rw [refilled_eq h]
    exact le_min (by linarith [h.burst_ge]) (by linarith)
  rcases allow_cases h now with ⟨_, hallow⟩ | ⟨hge, hallow⟩ <;> rw [hallow]
  · exact hfull
  · show 0 ≤ bucket.refilled now - 1
    linarith

/-- A request that comes `1/r` seconds after the last one passes. -/
theorem allow_of_gap (h : Limiting r b bucket) (hnonneg : 0 ≤ bucket.tokens) {now : Time}
    (hgap : 1 / r ≤ seconds now - seconds bucket.refreshed) : (bucket.allow now).2 = true := by
  have hin : 1 ≤ (seconds now - seconds bucket.refreshed) * r := (div_le_iff₀ h.rate_pos).mp hgap
  have hfull : 1 ≤ bucket.refilled now := by
    rw [refilled_eq h]
    exact le_min h.burst_ge (by linarith)
  rcases allow_cases h now with ⟨hlt, _⟩ | ⟨_, hallow⟩
  · exact absurd hlt (not_lt.mpr hfull)
  · rw [hallow]

/-- The bucket after some of the requests holds the time of the last one, or
that of its creation. -/
theorem refreshed_take (h : Limiting r b bucket) {nows : List Time} {k : Nat} {prev : Time}
    (hprev : (bucket.refreshed :: nows)[k]? = some prev) :
    (bucketAfter bucket (nows.take k)).refreshed = prev := by
  cases k with
  | zero => exact Option.some.inj hprev
  | succ k =>
      rw [List.getElem?_cons_succ] at hprev
      rw [bucketAfter_take hprev]
      exact allow_refreshed (limiting_after h _) prev

theorem tokens_nonneg_take (h : Limiting r b bucket) (hnonneg : 0 ≤ bucket.tokens)
    {nows : List Time} (horder : ((bucket.refreshed :: nows).map seconds).Pairwise (· ≤ ·))
    (n : Nat) : 0 ≤ (bucketAfter bucket (nows.take n)).tokens := by
  induction n with
  | zero => exact hnonneg
  | succ n ih =>
      cases hnow : nows[n]? with
      | none =>
          rw [List.take_of_length_le (Nat.le_succ_of_le (List.getElem?_eq_none_iff.mp hnow)),
            ← List.take_of_length_le (List.getElem?_eq_none_iff.mp hnow)]
          exact ih
      | some now =>
          have hlt : n < nows.length := (List.getElem?_eq_some_iff.mp hnow).1
          obtain ⟨prev, hprev⟩ : ∃ prev, (bucket.refreshed :: nows)[n]? = some prev :=
            ⟨_, List.getElem?_eq_getElem (by rw [List.length_cons]; omega)⟩
          -- the request comes right behind its predecessor
          have hle : seconds prev ≤ seconds now := by
            have hn : (bucket.refreshed :: nows)[n + 1]? = some now := hnow
            rw [List.pairwise_map] at horder
            rw [List.getElem?_eq_some_iff] at hprev hn
            obtain ⟨h₁, rfl⟩ := hprev
            obtain ⟨h₂, rfl⟩ := hn
            exact List.pairwise_iff_getElem.mp horder n (n + 1) h₁ h₂ (Nat.lt_succ_self n)
          rw [bucketAfter_take hnow]
          refine tokens_nonneg_allow (limiting_after h _) ih ?_
          rw [refreshed_take h hprev]
          exact hle

/-! ## The contract -/

/-- **The rate limit.** Whatever times the requests read, between any request
and a later admitted one at most `burst` requests pass beyond the rate, and
likewise from the creation of the bucket on. If the times go forwards, the
tokens stay between none and `burst`, and a request that keeps the rate
passes. -/
theorem rate_limited {requestsPerSecond burst : Int} (hr : 1 ≤ requestsPerSecond)
    (hb : 1 ≤ burst) (created : Time) (nows : List Time) :
    let bucket := newTokenBucket requestsPerSecond burst created
    let passed := admissions bucket nows
    (∀ (i k : Nat) nowI nowK, i < k → nows[i]? = some nowI → nows[k]? = some nowK →
      passed[k]? = some true →
      (((passed.take (k + 1)).drop (i + 1)).count true : ℚ) ≤
        burst + requestsPerSecond * (seconds nowK - seconds nowI)) ∧
    (∀ (k : Nat) nowK, nows[k]? = some nowK → passed[k]? = some true →
      ((passed.take (k + 1)).count true : ℚ) ≤
        burst + requestsPerSecond * (seconds nowK - seconds created)) ∧
    (((created :: nows).map seconds).Pairwise (· ≤ ·) →
      (∀ n, 0 ≤ (bucketAfter bucket (nows.take n)).tokens ∧
        (bucketAfter bucket (nows.take n)).tokens ≤ burst) ∧
      ∀ (k : Nat) prev now, (created :: nows)[k]? = some prev → nows[k]? = some now →
        1 / (requestsPerSecond : ℚ) ≤ seconds now - seconds prev → passed[k]? = some true) := by
  intro bucket passed
  have hlim : Limiting requestsPerSecond burst bucket := limiting_new hr hb created
  have hnew : bucket = ⟨requestsPerSecond, burst, burst, created⟩ := by
    show newTokenBucket _ _ _ = _
    unfold newTokenBucket
    rw [if_neg (by omega), if_neg (by omega)]
  have hcreated : bucket.refreshed = created := by rw [hnew]
  refine ⟨?_, ?_, ?_⟩
  · -- the window starts in the bucket that request `i` has left
    intro i k nowI nowK hik hi hk hok
    have hwin := window_le hlim (Nat.succ_le_of_lt hik) hk hok
    have hlast : (bucketAfter bucket (nows.take (i + 1))).refreshed = nowI := by
      rw [bucketAfter_take hi]
      exact allow_refreshed (limiting_after hlim _) nowI
    have hcap := (limiting_after hlim (nows.take (i + 1))).tokens_le
    rw [Nat.succ_eq_add_one, hlast] at hwin
    linarith
  · -- the window starts in the new bucket
    intro k nowK hk hok
    have hwin := window_le hlim (Nat.zero_le k) hk hok
    rw [List.drop_zero] at hwin
    have hfirst : bucketAfter bucket (nows.take 0) = bucket := rfl
    rw [hfirst, hcreated] at hwin
    have hcap := hlim.tokens_le
    linarith
  · intro horder
    rw [← hcreated] at horder
    have hfull : 0 ≤ bucket.tokens := by
      rw [hnew]
      exact le_trans zero_le_one hlim.burst_ge
    have hnonneg := tokens_nonneg_take hlim hfull horder
    refine ⟨fun n => ⟨hnonneg n, (limiting_after hlim _).tokens_le⟩, ?_⟩
    intro k prev now hprev hnow hgap
    rw [← hcreated] at hprev
    rw [admissions_get hnow, Option.some.injEq]
    apply allow_of_gap (limiting_after hlim _) (hnonneg k)
    rw [refreshed_take hlim hprev]
    exact hgap

/-- Two requests a second and a burst of two: of three requests at once two
pass, a clock that goes back a second leaves a debt of two tokens, and two
seconds after that reading the bucket is full again. -/
theorem rate_limited_sample :
    let created : Time := ⟨100, 0⟩
    let nows : List Time := [⟨100, 0⟩, ⟨100, 0⟩, ⟨100, 0⟩, ⟨99, 0⟩, ⟨101, 0⟩, ⟨101, 500000000⟩]
    let passed := admissions (newTokenBucket 2 2 created) nows
    passed = [true, true, false, false, true, true] ∧
      (((passed.take 6).drop 1).count true : ℚ) ≤ 2 + 2 * (3 / 2) := by
  intro created nows passed
  have hpassed : passed = [true, true, false, false, true, true] := by decide +kernel
  refine ⟨hpassed, ?_⟩
  have hwin := (rate_limited (by decide : (1 : Int) ≤ 2) (by decide : (1 : Int) ≤ 2) created
    nows).1 0 5 ⟨100, 0⟩ ⟨101, 500000000⟩ (by decide) rfl rfl (by decide +kernel)
  refine hwin.trans ?_
  norm_num [seconds]

end KoraDB.Server
