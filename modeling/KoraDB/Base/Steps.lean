import Mathlib.Tactic.Common

/-!
# Programs that may stop after any step

A program over a state that outlives it, such as a directory. Every change of
the state is a step, and the process may stop after each of them, so what
matters is not only where the program ends but every state it passes through.

`Spec I pre m post fail` says that from a state in `pre` the program passes
through states in `I` only, and ends in `post` or, with an error, in `fail`. The
rules follow the program's structure. For the other direction, that a state is
passed through, `Traces` says that a program only ever adds to its trace.
-/

namespace KoraDB.Base.Steps

/-- The state, and those passed through so far. -/
structure Traced (σ : Type) where
  now : σ
  past : List σ

abbrev StepM (ε σ : Type) := EStateM ε (Traced σ)

section

variable {ε σ α β : Type}

/-- One step. -/
def change (f : σ → σ) : StepM ε σ Unit := fun w => .ok () ⟨f w.now, w.past ++ [f w.now]⟩

/-- Read the state. -/
def look : StepM ε σ σ := fun w => .ok w.now w

def failIf (c : Bool) (e : ε) : StepM ε σ Unit := if c then throw e else pure ()

/-- Handle an error in the state it was raised in. -/
def recover (m : StepM ε σ α) (handle : ε → StepM ε σ α) : StepM ε σ α := fun w =>
  match m.run w with
  | .ok a w' => .ok a w'
  | .error e w' => (handle e).run w'

/-- Errors under another name. -/
def relabel {ε' : Type} (f : ε → ε') (m : StepM ε σ α) : StepM ε' σ α := fun w =>
  match m.run w with
  | .ok a w' => .ok a w'
  | .error e w' => .error (f e) w'

/-- One more step, however the program ends. -/
def deferred (last : σ → σ) (m : StepM ε σ α) : StepM ε σ α := do
  let a ← recover m fun e => do
    change last
    throw e
  change last
  return a

/-- How a run ends: its result and the last state. -/
def ending : EStateM.Result ε (Traced σ) α → Except ε α × σ
  | .ok a w => (.ok a, w.now)
  | .error e w => (.error e, w.now)

/-- The states passed through, the last one included. -/
def visited : EStateM.Result ε (Traced σ) α → List σ
  | .ok _ w => w.past
  | .error _ w => w.past

/-! ## Specifications -/

def Outcome (I : σ → Prop) (past : List σ) (post : α → σ → Prop) (fail : ε → σ → Prop) :
    EStateM.Result ε (Traced σ) α → Prop
  | .ok a w => post a w.now ∧ ∃ new, w.past = past ++ new ∧ ∀ s ∈ new, I s
  | .error e w => fail e w.now ∧ ∃ new, w.past = past ++ new ∧ ∀ s ∈ new, I s

def Spec (I : σ → Prop) (pre : σ → Prop) (m : StepM ε σ α) (post : α → σ → Prop)
    (fail : ε → σ → Prop) : Prop :=
  ∀ w : Traced σ, pre w.now → Outcome I w.past post fail (m.run w)

variable {I pre : σ → Prop} {fail : ε → σ → Prop}

theorem spec_pure {post : α → σ → Prop} (a : α) (h : ∀ s, pre s → post a s) :
    Spec I pre (pure a : StepM ε σ α) post fail :=
  fun w hw => ⟨h w.now hw, [], (List.append_nil _).symm, by simp⟩

theorem spec_throw {post : α → σ → Prop} (e : ε) (h : ∀ s, pre s → fail e s) :
    Spec I pre (throw e : StepM ε σ α) post fail :=
  fun w hw => ⟨h w.now hw, [], (List.append_nil _).symm, by simp⟩

theorem spec_change {post : Unit → σ → Prop} {f : σ → σ}
    (h : ∀ s, pre s → I (f s) ∧ post () (f s)) :
    Spec I pre (change f : StepM ε σ Unit) post fail :=
  fun w hw => ⟨(h w.now hw).2, [f w.now], rfl, by simpa using (h w.now hw).1⟩

/-- An outcome that continues after other states in `I`. -/
theorem Outcome.after {past new : List σ} {post : α → σ → Prop}
    {r : EStateM.Result ε (Traced σ) α} (h : Outcome I (past ++ new) post fail r)
    (hnew : ∀ s ∈ new, I s) : Outcome I past post fail r := by
  have hjoin : ∀ all, (∃ later, all = past ++ new ++ later ∧ ∀ s ∈ later, I s) →
      ∃ later, all = past ++ later ∧ ∀ s ∈ later, I s := by
    rintro all ⟨later, rfl, hlater⟩
    refine ⟨new ++ later, List.append_assoc .., ?_⟩
    intro s hs
    exact (List.mem_append.mp hs).elim (hnew s) (hlater s)
  cases r with
  | ok a w => exact ⟨h.1, hjoin _ h.2⟩
  | error e w => exact ⟨h.1, hjoin _ h.2⟩

theorem Outcome.visited {past : List σ} {post : α → σ → Prop}
    {r : EStateM.Result ε (Traced σ) α} (h : Outcome I past post fail r) :
    ∃ new, visited r = past ++ new ∧ ∀ s ∈ new, I s := by
  cases r with
  | ok a w => exact h.2
  | error e w => exact h.2

theorem run_bind (m : StepM ε σ α) (k : α → StepM ε σ β) (w : Traced σ) :
    (m >>= k).run w = match m.run w with
      | .ok a w' => (k a).run w'
      | .error e w' => .error e w' := by
  simp only [bind, EStateM.bind, EStateM.run]
  cases m w with
  | ok a w' => rfl
  | error e w' => rfl

theorem run_check {c : Bool} (hc : c = false) (e : ε) (k : StepM ε σ β) (w : Traced σ) :
    (failIf c e >>= fun _ => k).run w = k.run w := by
  rw [hc]
  rfl

theorem run_look (k : σ → StepM ε σ β) (w : Traced σ) : (look >>= k).run w = (k w.now).run w := rfl

theorem run_change (f : σ → σ) (k : StepM ε σ β) (w : Traced σ) :
    (change f >>= fun _ => k).run w = k.run ⟨f w.now, w.past ++ [f w.now]⟩ := rfl

theorem spec_bind {M : α → σ → Prop} {post : β → σ → Prop} {m : StepM ε σ α}
    {k : α → StepM ε σ β} (hm : Spec I pre m M fail)
    (hk : ∀ a, Spec I (M a) (k a) post fail) : Spec I pre (m >>= k) post fail := by
  intro w hw
  have hout := hm w hw
  rw [run_bind]
  cases hrun : m.run w with
  | error e w' =>
      rw [hrun] at hout
      exact hout
  | ok a w' =>
      rw [hrun] at hout
      obtain ⟨hmid, new, hpast, hnew⟩ := hout
      have hrest := hk a w' hmid
      rw [hpast] at hrest
      exact hrest.after hnew

/-- A check: what follows runs in the same states. -/
theorem spec_check {post : β → σ → Prop} {c : Bool} {e : ε} {k : StepM ε σ β}
    (hfail : ∀ s, pre s → c = true → fail e s) (hk : c = false → Spec I pre k post fail) :
    Spec I pre (failIf c e >>= fun _ => k) post fail := by
  cases c with
  | true =>
      refine spec_bind (M := fun _ _ => False) (spec_throw e fun s hs => hfail s hs rfl) fun _ => ?_
      exact fun w hw => hw.elim
  | false => exact spec_bind (spec_pure () fun s hs => hs) fun _ => hk rfl

/-- A fact in the precondition that is not about the state. -/
theorem spec_given {P : Prop} {post : α → σ → Prop} {m : StepM ε σ α}
    (h : P → Spec I pre m post fail) : Spec I (fun s => pre s ∧ P) m post fail :=
  fun w hw => h hw.2 w hw.1

/-- Reading a known state. -/
theorem spec_look_at {s₀ : σ} {post : β → σ → Prop} {k : σ → StepM ε σ β}
    (hk : Spec I (fun s => s = s₀) (k s₀) post fail) :
    Spec I (fun s => s = s₀) (look >>= k) post fail := by
  rintro w rfl
  exact hk w rfl

theorem spec_recover {R : ε → σ → Prop} {post : α → σ → Prop} {m : StepM ε σ α}
    {handle : ε → StepM ε σ α} (hm : Spec I pre m post R)
    (hh : ∀ e, Spec I (R e) (handle e) post fail) :
    Spec I pre (recover m handle) post fail := by
  intro w hw
  have hout := hm w hw
  simp only [recover, EStateM.run] at hout ⊢
  cases hrun : m w with
  | ok a w' =>
      rw [hrun] at hout
      exact hout
  | error e w' =>
      rw [hrun] at hout
      obtain ⟨hraised, new, hpast, hnew⟩ := hout
      have hrest := hh e w' hraised
      rw [hpast] at hrest
      exact hrest.after hnew

theorem spec_relabel {ε' : Type} {f : ε → ε'} {post : α → σ → Prop} {fail' : ε' → σ → Prop}
    {m : StepM ε σ α} (h : Spec I pre m post fun e => fail' (f e)) :
    Spec I pre (relabel f m) post fail' := by
  intro w hw
  have hout := h w hw
  simp only [relabel, EStateM.run] at hout ⊢
  cases hrun : m w with
  | ok a w' =>
      rw [hrun] at hout
      exact hout
  | error e w' =>
      rw [hrun] at hout
      exact hout

theorem spec_deferred {last : σ → σ} {M post : α → σ → Prop} {R : ε → σ → Prop}
    {m : StepM ε σ α} (hm : Spec I pre m M R)
    (hpost : ∀ a s, M a s → I (last s) ∧ post a (last s))
    (hfail : ∀ e s, R e s → I (last s) ∧ fail e (last s)) :
    Spec I pre (deferred last m) post fail := by
  refine spec_bind (spec_recover hm fun e => ?_) fun a => ?_
  · exact spec_bind (spec_change (hfail e)) fun _ => spec_throw e fun s hs => hs
  · exact spec_bind (spec_change (hpost a)) fun _ => spec_pure a fun s hs => hs

theorem spec_conseq {pre' : σ → Prop} {post post' : α → σ → Prop} {fail' : ε → σ → Prop}
    {m : StepM ε σ α} (h : Spec I pre m post fail) (hpre : ∀ s, pre' s → pre s)
    (hpost : ∀ a s, post a s → post' a s) (hfail : ∀ e s, fail e s → fail' e s) :
    Spec I pre' m post' fail' := by
  intro w hw
  have hout := h w (hpre _ hw)
  cases hrun : m.run w with
  | ok a w' =>
      rw [hrun] at hout
      exact ⟨hpost a _ hout.1, hout.2⟩
  | error e w' =>
      rw [hrun] at hout
      exact ⟨hfail e _ hout.1, hout.2⟩

theorem spec_mono {I' : σ → Prop} {post : α → σ → Prop} {m : StepM ε σ α}
    (h : Spec I pre m post fail) (hI : ∀ s, I s → I' s) : Spec I' pre m post fail := by
  intro w hw
  have hout := h w hw
  cases hrun : m.run w with
  | ok a w' =>
      rw [hrun] at hout
      obtain ⟨hpost, new, hpast, hnew⟩ := hout
      exact ⟨hpost, new, hpast, fun s hs => hI s (hnew s hs)⟩
  | error e w' =>
      rw [hrun] at hout
      obtain ⟨hfail, new, hpast, hnew⟩ := hout
      exact ⟨hfail, new, hpast, fun s hs => hI s (hnew s hs)⟩

/-- What a program that has returned leaves. -/
theorem ending_ok {s₀ s : σ} {a : α} {past : List σ} {post : α → σ → Prop} {m : StepM ε σ α}
    (h : Spec I (fun s => s = s₀) m post fail) (hend : ending (m.run ⟨s₀, past⟩) = (.ok a, s)) :
    post a s := by
  have hout := h ⟨s₀, past⟩ rfl
  cases hrun : m.run ⟨s₀, past⟩ with
  | ok a' w =>
      rw [hrun] at hout hend
      cases hend
      exact hout.1
  | error e w =>
      rw [hrun] at hend
      cases congrArg Prod.fst hend

/-- A program without a way to fail returns. -/
theorem exists_ending {s₀ : σ} (past : List σ) {post : α → σ → Prop} {m : StepM ε σ α}
    (h : Spec I (fun s => s = s₀) m post fun _ _ => False) :
    ∃ a s, ending (m.run ⟨s₀, past⟩) = (.ok a, s) ∧ post a s := by
  have hout := h ⟨s₀, past⟩ rfl
  cases hrun : m.run ⟨s₀, past⟩ with
  | ok a w =>
      rw [hrun] at hout
      exact ⟨a, w.now, rfl, hout.1⟩
  | error e w =>
      rw [hrun] at hout
      exact hout.1.elim

/-- A program without a way to return fails. -/
theorem exists_ending_error {s₀ : σ} (past : List σ) {m : StepM ε σ α}
    (h : Spec I (fun s => s = s₀) m (fun _ _ => False) fail) :
    ∃ e s, ending (m.run ⟨s₀, past⟩) = (.error e, s) ∧ fail e s := by
  have hout := h ⟨s₀, past⟩ rfl
  cases hrun : m.run ⟨s₀, past⟩ with
  | ok a w =>
      rw [hrun] at hout
      exact hout.1.elim
  | error e w =>
      rw [hrun] at hout
      exact ⟨e, w.now, rfl, hout.1⟩

/-- A program that can only end in one way. -/
theorem ending_eq {s₀ : σ} {m : StepM ε σ α} {r : Except ε α × σ}
    (h : Spec (fun _ => True) (fun s => s = s₀) m (fun a s => (.ok a, s) = r)
      (fun e s => (.error e, s) = r)) (past : List σ) : ending (m.run ⟨s₀, past⟩) = r := by
  have hout := h ⟨s₀, past⟩ rfl
  cases hrun : m.run ⟨s₀, past⟩ with
  | ok a w =>
      rw [hrun] at hout
      exact hout.1
  | error e w =>
      rw [hrun] at hout
      exact hout.1

/-! ## Traces -/

/-- Where a run stops. -/
def stop : EStateM.Result ε (Traced σ) α → Traced σ
  | .ok _ w => w
  | .error _ w => w

/-- A later point of the same trace: states were added to it, the last of which
is the state now. -/
def Traced.Before (w w' : Traced σ) : Prop :=
  ∃ new, w'.past = w.past ++ new ∧ w'.now = new.getLast?.getD w.now

theorem Traced.Before.refl (w : Traced σ) : w.Before w := ⟨[], (List.append_nil _).symm, rfl⟩

theorem Traced.Before.trans {w₁ w₂ w₃ : Traced σ} (h₁ : w₁.Before w₂) (h₂ : w₂.Before w₃) :
    w₁.Before w₃ := by
  obtain ⟨new, hpast, hnow⟩ := h₁
  obtain ⟨later, hpast', hnow'⟩ := h₂
  refine ⟨new ++ later, by rw [hpast', hpast, List.append_assoc], ?_⟩
  rw [hnow', hnow, List.getLast?_append]
  cases later.getLast? with
  | none => rfl
  | some s => rfl

/-- Programs add to the trace only. -/
def Traces (m : StepM ε σ α) : Prop := ∀ w : Traced σ, w.Before (stop (m.run w))

theorem traces_pure (a : α) : Traces (pure a : StepM ε σ α) := fun w => .refl w

theorem traces_throw (e : ε) : Traces (throw e : StepM ε σ α) := fun w => .refl w

theorem traces_look : Traces (look : StepM ε σ σ) := fun w => .refl w

theorem traces_change (f : σ → σ) : Traces (change f : StepM ε σ Unit) :=
  fun w => ⟨[f w.now], rfl, rfl⟩

theorem traces_failIf (c : Bool) (e : ε) : Traces (failIf c e : StepM ε σ Unit) := by
  cases c with
  | true => exact traces_throw e
  | false => exact traces_pure ()

theorem traces_bind {m : StepM ε σ α} {k : α → StepM ε σ β} (hm : Traces m)
    (hk : ∀ a, Traces (k a)) : Traces (m >>= k) := by
  intro w
  have hfirst := hm w
  rw [run_bind]
  cases hrun : m.run w with
  | error e w' =>
      rw [hrun] at hfirst
      exact hfirst
  | ok a w' =>
      rw [hrun] at hfirst
      exact hfirst.trans (hk a w')

theorem traces_recover {m : StepM ε σ α} {handle : ε → StepM ε σ α} (hm : Traces m)
    (hh : ∀ e, Traces (handle e)) : Traces (recover m handle) := by
  intro w
  have hfirst := hm w
  simp only [recover, EStateM.run] at hfirst ⊢
  cases hrun : m w with
  | ok a w' =>
      rw [hrun] at hfirst
      exact hfirst
  | error e w' =>
      rw [hrun] at hfirst
      exact hfirst.trans (hh e w')

/-- A state once passed through stays in the trace. -/
theorem Traces.mem_visited {m : StepM ε σ α} (h : Traces m) {w : Traced σ} {s : σ}
    (hs : s ∈ w.past) : s ∈ visited (m.run w) := by
  obtain ⟨new, hpast, _⟩ := h w
  have hmem : s ∈ (stop (m.run w)).past := hpast ▸ List.mem_append_left new hs
  cases hrun : m.run w with
  | ok a w' => rwa [hrun] at hmem
  | error e w' => rwa [hrun] at hmem

/-- The state a run ends in is one it has passed through. -/
theorem Traces.ending_mem {m : StepM ε σ α} (h : Traces m) (s₀ : σ) :
    (ending (m.run ⟨s₀, []⟩)).2 ∈ s₀ :: visited (m.run ⟨s₀, []⟩) := by
  obtain ⟨new, hpast, hnow⟩ := h ⟨s₀, []⟩
  have hmem : (stop (m.run ⟨s₀, []⟩)).now ∈ s₀ :: (stop (m.run ⟨s₀, []⟩)).past := by
    rw [hpast, hnow]
    cases hlast : new.getLast? with
    | none => exact List.mem_cons_self
    | some s => exact List.mem_cons_of_mem _ (List.mem_of_getLast? hlast)
  cases hrun : m.run ⟨s₀, []⟩ with
  | ok a w' => rwa [hrun] at hmem
  | error e w' => rwa [hrun] at hmem

end

end KoraDB.Base.Steps
