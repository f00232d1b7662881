import Mathlib.Logic.Basic

/-!
# Runs of a deterministic machine

A machine here is a step function `σ → α → σ`: a state takes a call and
becomes the next state (a failing call steps to the same state). Everything
the development says about "every reachable state" or "every sequence of
calls" is one of the shapes below:

* `run` — the state after a list of calls;
* `Always` — a property holds in every state a run visits;
* `Each` — a condition holds of every step a run takes;
* `run_kept` — what each call keeps, the run keeps;
* `Always.kept` — the same, where a step may use what holds always;
* `observed` — what is seen of the steps of a run, in order;
* `exists_step` — what a run brings about, one of its steps brings about;
* `always_of_each` — an invariant, with the step condition it needs;
* `always_iff_each` — the sharp form, when the condition on one step is not
  only enough to keep the property but exactly what keeps it.
-/

namespace KoraDB.Base

variable {σ α β : Type*}

/-- The state a machine is in after a list of calls. -/
def run (step : σ → α → σ) (s : σ) (calls : List α) : σ :=
  calls.foldl step s

@[simp] theorem run_nil (step : σ → α → σ) (s : σ) : run step s [] = s := rfl

@[simp] theorem run_cons (step : σ → α → σ) (s : σ) (a : α) (calls : List α) :
    run step s (a :: calls) = run step (step s a) calls := rfl

/-- Runs compose. -/
theorem run_append (step : σ → α → σ) (s : σ) (before after : List α) :
    run step s (before ++ after) = run step (run step s before) after :=
  List.foldl_append

/-- One more call at the end of a run is one more step. -/
theorem run_concat (step : σ → α → σ) (s : σ) (calls : List α) (a : α) :
    run step s (calls ++ [a]) = step (run step s calls) a := by
  rw [run_append]
  rfl

/-- `P` holds in every state the run visits, the first and the last included. -/
def Always (step : σ → α → σ) (P : σ → Prop) : σ → List α → Prop
  | s, [] => P s
  | s, a :: calls => P s ∧ Always step P (step s a) calls

instance Always.decidable (step : σ → α → σ) (P : σ → Prop) [DecidablePred P] :
    ∀ (s : σ) (calls : List α), Decidable (Always step P s calls)
  | s, [] => inferInstanceAs (Decidable (P s))
  | s, a :: calls =>
      have := Always.decidable step P (step s a) calls
      inferInstanceAs (Decidable (P s ∧ Always step P (step s a) calls))

/-- `C` holds of every step the run takes: of the state before the call and
the call. -/
def Each (step : σ → α → σ) (C : σ → α → Prop) : σ → List α → Prop
  | _, [] => True
  | s, a :: calls => C s a ∧ Each step C (step s a) calls

/-- What holds always holds at the end. -/
theorem Always.last {step : σ → α → σ} {P : σ → Prop} {s : σ} {calls : List α}
    (h : Always step P s calls) : P (run step s calls) := by
  induction calls generalizing s with
  | nil => exact h
  | cons a calls ih => exact ih h.2

/-- What holds always holds at the start. -/
theorem Always.first {step : σ → α → σ} {P : σ → Prop} {s : σ} {calls : List α}
    (h : Always step P s calls) : P s := by
  cases calls with
  | nil => exact h
  | cons a calls => exact h.1

theorem always_append {step : σ → α → σ} {P : σ → Prop} {s : σ} {before after : List α} :
    Always step P s (before ++ after) ↔
      Always step P s before ∧ Always step P (run step s before) after := by
  induction before generalizing s with
  | nil => exact ⟨fun h => ⟨h.first, h⟩, fun h => h.2⟩
  | cons a before ih =>
      show P s ∧ Always step P (step s a) (before ++ after) ↔
        (P s ∧ Always step P (step s a) before) ∧ Always step P (run step (step s a) before) after
      rw [ih, and_assoc]

theorem Always.imp {step : σ → α → σ} {P Q : σ → Prop} {s : σ} {calls : List α}
    (h : Always step P s calls) (himp : ∀ s, P s → Q s) : Always step Q s calls := by
  induction calls generalizing s with
  | nil => exact himp s h
  | cons a calls ih => exact ⟨himp s h.1, ih h.2⟩

/-- What a state and a step condition give together holds of every step. -/
theorem Always.each {step : σ → α → σ} {P : σ → Prop} {C D : σ → α → Prop} {s : σ}
    {calls : List α} (h : Always step P s calls) (hc : Each step C s calls)
    (himp : ∀ s a, P s → C s a → D s a) : Each step D s calls := by
  induction calls generalizing s with
  | nil => trivial
  | cons a calls ih => exact ⟨himp s a h.1 hc.1, ih h.2 hc.2⟩

/-- **Invariants.** A property that holds at the start and that every step
meeting `C` keeps holds in every state of a run whose steps all meet `C`. -/
theorem always_of_each {step : σ → α → σ} {P : σ → Prop} {C : σ → α → Prop}
    (hstep : ∀ s a, P s → C s a → P (step s a)) {s : σ} {calls : List α}
    (h0 : P s) (h : Each step C s calls) : Always step P s calls := by
  induction calls generalizing s with
  | nil => exact h0
  | cons a calls ih => exact ⟨h0, ih (hstep s a h0 h.1) h.2⟩

/-- A property that each call of the run keeps holds at its end. -/
theorem run_kept {step : σ → α → σ} {P : σ → Prop} {s : σ} {calls : List α} (h0 : P s)
    (hstep : ∀ s, ∀ a ∈ calls, P s → P (step s a)) : P (run step s calls) := by
  induction calls generalizing s with
  | nil => exact h0
  | cons a calls ih =>
      apply ih
      · exact hstep s a List.mem_cons_self h0
      · exact fun s b hb => hstep s b (List.mem_cons_of_mem _ hb)

/-- What each step from a state in `P` keeps holds at the end of a run that
stays in `P`. -/
theorem Always.kept {step : σ → α → σ} {P Q : σ → Prop} {s : σ} {calls : List α}
    (h : Always step P s calls) (h0 : Q s) (hstep : ∀ s a, P s → Q s → Q (step s a)) :
    Q (run step s calls) := by
  induction calls generalizing s with
  | nil => exact h0
  | cons a calls ih => exact ih h.2 (hstep s a h.1 h0)

/-- **The sharp form.** Under an invariant `I`, when a step keeps `P` exactly
if it meets `C`, a run keeps `P` throughout exactly if all its steps do. -/
theorem always_iff_each {step : σ → α → σ} {I P : σ → Prop} {C : σ → α → Prop}
    (hI : ∀ s a, I s → I (step s a))
    (hstep : ∀ s a, I s → P s → (P (step s a) ↔ C s a)) {s : σ} {calls : List α}
    (hs : I s) (h0 : P s) : Always step P s calls ↔ Each step C s calls := by
  induction calls generalizing s with
  | nil => exact ⟨fun _ => trivial, fun _ => h0⟩
  | cons a calls ih =>
      constructor
      · rintro ⟨_, hrest⟩
        have hnext : P (step s a) := hrest.first
        exact ⟨(hstep s a hs h0).mp hnext, (ih (hI s a hs) hnext).mp hrest⟩
      · rintro ⟨hc, hrest⟩
        have hnext : P (step s a) := (hstep s a hs h0).mpr hc
        exact ⟨h0, (ih (hI s a hs) hnext).mpr hrest⟩

/-- What is seen of the steps of a run, in order. -/
def observed (step : σ → α → σ) (see : σ → α → List β) : σ → List α → List β
  | _, [] => []
  | s, a :: calls => see s a ++ observed step see (step s a) calls

theorem observed_append (step : σ → α → σ) (see : σ → α → List β) (s : σ)
    (before after : List α) :
    observed step see s (before ++ after) =
      observed step see s before ++ observed step see (run step s before) after := by
  induction before generalizing s with
  | nil => rfl
  | cons a before ih =>
      show see s a ++ observed step see (step s a) (before ++ after) = _
      rw [ih, ← List.append_assoc]
      rfl

theorem observed_concat (step : σ → α → σ) (see : σ → α → List β) (s : σ) (calls : List α)
    (a : α) :
    observed step see s (calls ++ [a]) = observed step see s calls ++ see (run step s calls) a := by
  rw [observed_append, observed, observed, List.append_nil]

/-- **Causes.** What holds at the end of a run and not at its start, some step
of the run brings about. -/
theorem exists_step {step : σ → α → σ} {P : σ → Prop} {s : σ} {calls : List α} (h0 : ¬ P s)
    (h : P (run step s calls)) :
    ∃ before a after, calls = before ++ a :: after ∧ ¬ P (run step s before) ∧
      P (step (run step s before) a) := by
  induction calls generalizing s with
  | nil => exact absurd h h0
  | cons a calls ih =>
      by_cases ha : P (step s a)
      · exact ⟨[], a, calls, rfl, h0, ha⟩
      · obtain ⟨before, b, after, rfl, hnot, hb⟩ := ih ha h
        exact ⟨a :: before, b, after, rfl, hnot, hb⟩

end KoraDB.Base
