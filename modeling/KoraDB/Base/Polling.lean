import KoraDB.Base.Except

/-!
# Computations that poll a context

A loop that can be cancelled reads its context from time to time and gives up
at the first error it finds there; apart from that it is the loop it would be
without a context. `PollM` is the monad of such computations: it counts the
readings, and `poll` is one of them.

`Paced m x Q` says exactly that: `m` makes a number of readings that no context
has a part in, it stops at the first error among them, and else it ends as the
plain computation `x`. On a value of `x` the number of readings meets `Q`. The
rules below follow the way `m` is put together.
-/

namespace KoraDB.Base

/-- How a computation that polls ends without a value. -/
inductive Stop (κ ε : Type)
  | interrupted (e : κ)
  | failed (e : ε)
  deriving DecidableEq

/-- What a context reports at each reading. -/
abbrev Readings (κ : Type) := Nat → Option κ

/-- A computation that polls, from the number of readings made before it. -/
def PollM (κ ε α : Type) := Readings κ → Nat → Except (Stop κ ε) (α × Nat)

namespace PollM

variable {κ ε α β : Type}

/-- One computation after another. -/
def andThen (m : PollM κ ε α) (f : α → PollM κ ε β) : PollM κ ε β := fun ctx n =>
  match m ctx n with
  | .ok (a, n') => f a ctx n'
  | .error e => .error e

instance : Monad (PollM κ ε) where
  pure a := fun _ n => .ok (a, n)
  bind := andThen

/-- `if err := ctx.Err(); err != nil { return err }`. -/
def poll : PollM κ ε Unit := fun ctx n =>
  match ctx n with
  | some e => .error (.interrupted e)
  | none => .ok ((), n + 1)

/-- A part that does not read the context. -/
def lift (x : Except ε α) : PollM κ ε α := fun _ n =>
  match x with
  | .ok a => .ok (a, n)
  | .error e => .error (.failed e)

/-- The computation with its failures passed on as others. -/
def mapErr {ε' : Type} (m : PollM κ ε α) (f : ε → ε') : PollM κ ε' α := fun ctx n =>
  wrap (m ctx n) fun
    | .interrupted e => .interrupted e
    | .failed e => .failed (f e)

/-- The computation with a context. -/
def runWith (m : PollM κ ε α) (ctx : Readings κ) : Except (Stop κ ε) α := (m ctx 0).map Prod.fst

theorem bind_of_ok {m : PollM κ ε α} {f : α → PollM κ ε β} {ctx : Readings κ} {n n' : Nat} {a : α}
    (h : m ctx n = .ok (a, n')) : (m >>= f) ctx n = f a ctx n' := by
  show andThen m f ctx n = _
  unfold andThen
  rw [h]

theorem bind_of_error {m : PollM κ ε α} {f : α → PollM κ ε β} {ctx : Readings κ} {n : Nat}
    {e : Stop κ ε} (h : m ctx n = .error e) : (m >>= f) ctx n = .error e := by
  show andThen m f ctx n = _
  unfold andThen
  rw [h]

end PollM

open PollM

variable {κ ε α β : Type}

/-- The first error among `n` readings from `k` on. -/
def interruption (ctx : Readings κ) (k : Nat) : Nat → Option κ
  | 0 => none
  | n + 1 => (ctx k).orElse fun _ => interruption ctx (k + 1) n

theorem interruption_add (ctx : Readings κ) (k n n' : Nat) :
    interruption ctx k (n + n') =
      (interruption ctx k n).orElse fun _ => interruption ctx (k + n) n' := by
  induction n generalizing k with
  | zero => rw [Nat.zero_add]; rfl
  | succ n ih =>
      rw [Nat.add_right_comm, interruption, interruption, ih, Nat.add_assoc, Nat.add_comm 1 n]
      cases ctx k <;> rfl

theorem interruption_eq_none {ctx : Readings κ} {k n : Nat} :
    interruption ctx k n = none ↔ ∀ j < n, ctx (k + j) = none := by
  induction n generalizing k with
  | zero => simp [interruption]
  | succ n ih =>
      rw [interruption]
      constructor
      · intro h j hj
        cases hk : ctx k with
        | some e => rw [hk] at h; cases h
        | none =>
            rw [hk] at h
            cases j with
            | zero => exact hk
            | succ j => rw [← Nat.add_assoc, Nat.add_right_comm]; exact ih.mp h j (by omega)
      · intro h
        have hk : ctx k = none := h 0 (by omega)
        rw [hk]
        refine ih.mpr fun j hj => ?_
        rw [Nat.add_assoc, Nat.add_comm 1 j]
        exact h (j + 1) (by omega)

theorem exists_of_interruption {ctx : Readings κ} {k n : Nat} {e : κ}
    (h : interruption ctx k n = some e) : ∃ j, ctx j = some e := by
  induction n generalizing k with
  | zero => cases h
  | succ n ih =>
      rw [interruption] at h
      cases hk : ctx k with
      | some e' =>
          rw [hk] at h
          cases h
          exact ⟨k, hk⟩
      | none =>
          rw [hk] at h
          exact ih h

theorem interruption_of_first {ctx : Readings κ} {k n j : Nat} {e : κ} (hj : j < n)
    (he : ctx (k + j) = some e) (hfirst : ∀ i < j, ctx (k + i) = none) :
    interruption ctx k n = some e := by
  -- nothing among the readings before, then the reading, then whatever follows
  have hbefore : interruption ctx k j = none := interruption_eq_none.mpr hfirst
  obtain ⟨rest, rfl⟩ : ∃ rest, n = j + (rest + 1) := ⟨n - j - 1, by omega⟩
  rw [interruption_add, hbefore, Option.orElse_none, interruption, he]
  rfl

/-- Stops at the first error among `n` readings, and else ends as `x`. -/
def paced (n : Nat) (x : Except ε α) : PollM κ ε α := fun ctx k =>
  (interruption ctx k n).elim (lift x ctx (k + n)) fun e => .error (.interrupted e)

/-- The computation is the plain `x`, but for a number of readings that meets
`Q` when `x` gives a value. -/
def Paced (m : PollM κ ε α) (x : Except ε α) (Q : α → Nat → Prop) : Prop :=
  ∃ n, m = paced n x ∧ ∀ a, x = .ok a → Q a n

theorem paced_of_some {n k : Nat} {x : Except ε α} {ctx : Readings κ} {e : κ}
    (h : interruption ctx k n = some e) : paced n x ctx k = .error (.interrupted e) := by
  unfold paced
  rw [h]
  rfl

theorem paced_of_none {n k : Nat} {x : Except ε α} {ctx : Readings κ}
    (h : interruption ctx k n = none) : paced n x ctx k = lift x ctx (k + n) := by
  unfold paced
  rw [h]
  rfl

namespace Paced

variable {m : PollM κ ε α} {f : α → PollM κ ε β} {x : Except ε α} {g : α → Except ε β}
  {P Q : α → Nat → Prop} {R : β → Nat → Prop}

theorem ofPure {a : α} (h : Q a 0) : Paced (pure a : PollM κ ε α) (.ok a) Q :=
  ⟨0, rfl, fun a' ha => by cases ha; exact h⟩

theorem ofLift (h : ∀ a, x = .ok a → Q a 0) : Paced (lift x : PollM κ ε α) x Q := ⟨0, rfl, h⟩

theorem imp (h : Paced m x P) (himp : ∀ a n, x = .ok a → P a n → Q a n) : Paced m x Q := by
  obtain ⟨n, hm, hP⟩ := h
  exact ⟨n, hm, fun a ha => himp a n ha (hP a ha)⟩

theorem bind (hm : Paced m x P)
    (hf : ∀ a, x = .ok a → Paced (f a) (g a) fun b n' => ∀ n, P a n → R b (n + n')) :
    Paced (m >>= f) (x >>= g) R := by
  obtain ⟨n, rfl, hP⟩ := hm
  cases x with
  | error e =>
      refine ⟨n, ?_, fun a ha => by cases ha⟩
      funext ctx k
      cases hint : interruption ctx k n with
      | some e' =>
          rw [bind_of_error (paced_of_some hint)]
          exact (paced_of_some hint).symm
      | none =>
          rw [bind_of_error (paced_of_none hint), paced_of_none hint]
          rfl
  | ok a =>
      obtain ⟨n', hfa, hR⟩ := hf a rfl
      refine ⟨n + n', ?_, fun b hb => hR b hb n (hP a rfl)⟩
      funext ctx k
      -- the second part reads on where the first one has stopped reading
      show _ = (interruption ctx k (n + n')).elim _ _
      rw [interruption_add]
      cases hint : interruption ctx k n with
      | some e => exact bind_of_error (paced_of_some hint)
      | none =>
          rw [bind_of_ok (paced_of_none hint), hfa, ← Nat.add_assoc]
          rfl

/-- A part that does not read the context costs no reading. -/
theorem afterLift (hf : ∀ a, x = .ok a → Paced (f a) (g a) R) :
    Paced (lift x >>= f) (x >>= g) R := by
  have hlift : Paced (lift x : PollM κ ε α) x fun _ n => n = 0 := ofLift fun _ _ => rfl
  refine hlift.bind fun a ha => (hf a ha).imp ?_
  rintro b n' _ hR _ rfl
  rwa [Nat.zero_add]

/-- A reading has no counterpart in the plain computation. -/
theorem afterPoll {m : PollM κ ε α} (h : Paced m x fun a n => Q a (n + 1)) :
    Paced (poll >>= fun _ => m) x Q := by
  have hpoll : Paced (poll : PollM κ ε Unit) (.ok ()) fun _ n => n = 1 := by
    refine ⟨1, ?_, fun _ _ => rfl⟩
    funext ctx k
    show _ = (interruption ctx k 1).elim _ _
    simp only [poll, interruption]
    cases ctx k <;> rfl
  show Paced (poll >>= fun _ => m) (.ok () >>= fun _ => x) Q
  refine hpoll.bind fun _ _ => h.imp ?_
  rintro a n _ hQ _ rfl
  rwa [Nat.add_comm]

theorem mapErr {ε' : Type} {h : ε → ε'} (hm : Paced m x Q) :
    Paced (m.mapErr h) (wrap x h) Q := by
  obtain ⟨n, rfl, hQ⟩ := hm
  refine ⟨n, ?_, fun a ha => hQ a (wrap_eq_ok_iff.mp ha)⟩
  funext ctx k
  unfold PollM.mapErr paced
  cases interruption ctx k n with
  | some e => rfl
  | none => cases x <;> rfl

/-- What a context makes of the computation. -/
theorem runWith (h : Paced m x Q) :
    ∃ n, (∀ a, x = .ok a → Q a n) ∧ ∀ ctx, m.runWith ctx =
      (interruption ctx 0 n).elim (wrap x .failed) fun e => .error (.interrupted e) := by
  obtain ⟨n, rfl, hQ⟩ := h
  refine ⟨n, hQ, fun ctx => ?_⟩
  unfold PollM.runWith paced
  cases interruption ctx 0 n with
  | some e => rfl
  | none => cases x <;> rfl

end Paced

end KoraDB.Base
