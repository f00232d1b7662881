import Mathlib.Logic.Basic

/-!
# Fallible computations

Inversion of a sequence of fallible steps: a chain returns `ok` exactly when
every link does, and an error exactly when some link does. Proofs about a
modelled function peel its body apart with these rules and never unfold the
monad.
-/

namespace KoraDB.Base

variable {ε ε' α β γ δ : Type}

theorem bind_eq_ok_iff {x : Except ε α} {f : α → Except ε β} {b : β} :
    (x >>= f) = .ok b ↔ ∃ a, x = .ok a ∧ f a = .ok b := by
  cases x with
  | error e =>
      constructor
      · intro h
        cases h
      · rintro ⟨a, h, _⟩
        cases h
  | ok a =>
      constructor
      · intro h
        exact ⟨a, rfl, h⟩
      · rintro ⟨a', h, h'⟩
        cases h
        exact h'

theorem bind_eq_error_iff {x : Except ε α} {f : α → Except ε β} {e : ε} :
    (x >>= f) = .error e ↔ x = .error e ∨ ∃ a, x = .ok a ∧ f a = .error e := by
  cases x with
  | error e' =>
      show Except.error e' = .error e ↔ _
      simp
  | ok a =>
      show f a = .error e ↔ _
      simp

@[simp] theorem ok_bind {a : α} {f : α → Except ε β} : ((.ok a : Except ε α) >>= f) = f a := rfl

@[simp] theorem error_bind {e : ε} {f : α → Except ε β} :
    ((.error e : Except ε α) >>= f) = .error e := rfl

theorem map_eq_ok_iff {x : Except ε α} {f : α → β} {b : β} :
    x.map f = .ok b ↔ ∃ a, x = .ok a ∧ f a = b := by
  cases x <;> simp [Except.map]

theorem map_eq_error_iff {x : Except ε α} {f : α → β} {e : ε} :
    x.map f = .error e ↔ x = .error e := by
  cases x <;> simp [Except.map]

theorem map_eq_bind {x : Except ε α} {f : α → β} : x.map f = x >>= fun a => .ok (f a) := by
  cases x <;> rfl

theorem exists_of_isSome {x : Except ε α} (h : x.toOption.isSome = true) : ∃ a, x = .ok a := by
  cases x with
  | error e => cases h
  | ok a => exact ⟨a, rfl⟩

/-- `if c { return err }`: the rest of a function runs only when the test
does not fire. -/
def reject (c : Bool) (e : ε) : Except ε Unit :=
  if c then .error e else .ok ()

@[simp] theorem reject_true (e : ε) : reject true e = .error e := rfl

@[simp] theorem reject_false (e : ε) : reject false e = .ok () := rfl

theorem reject_eq_ok_iff {c : Bool} {e : ε} {u : Unit} : reject c e = .ok u ↔ c = false := by
  cases c <;> simp [reject]

/-- `if c { if err := x; err != nil { return err } }`. -/
def onlyIf (c : Bool) (x : Except ε Unit) : Except ε Unit :=
  if c then x else .ok ()

theorem onlyIf_eq_ok_iff {c : Bool} {x : Except ε Unit} {u : Unit} :
    onlyIf c x = .ok u ↔ (c = true → x = .ok ()) := by
  cases c <;> simp [onlyIf]

/-- An absent value is an error. -/
def orErr (x : Option α) (e : ε) : Except ε α :=
  match x with
  | some a => .ok a
  | none => .error e

@[simp] theorem orErr_some (a : α) (e : ε) : orErr (some a) e = .ok a := rfl

@[simp] theorem orErr_none (e : ε) : orErr (none : Option α) e = .error e := rfl

theorem orErr_eq_ok_iff {x : Option α} {e : ε} {a : α} : orErr x e = .ok a ↔ x = some a := by
  cases x <;> simp [orErr]

theorem orErr_eq_error_iff {x : Option α} {e e' : ε} :
    orErr x e = .error e' ↔ x = none ∧ e = e' := by
  cases x <;> simp [orErr]

/-- `fmt.Errorf("...: %w", err)`: the error is wrapped, the value kept. -/
def wrap (x : Except ε α) (f : ε → ε') : Except ε' α :=
  match x with
  | .ok a => .ok a
  | .error e => .error (f e)

@[simp] theorem wrap_ok (a : α) (f : ε → ε') : wrap (.ok a) f = .ok a := rfl

@[simp] theorem wrap_error (e : ε) (f : ε → ε') :
    wrap (.error e : Except ε α) f = .error (f e) := rfl

theorem wrap_eq_ok_iff {x : Except ε α} {f : ε → ε'} {a : α} : wrap x f = .ok a ↔ x = .ok a := by
  cases x <;> simp [wrap]

/-- However its error is wrapped, a result is the same. -/
theorem rewrap {x : Except ε α} {f : ε → ε'} {a : α} (h : wrap x f = .ok a) (g : ε → δ) :
    wrap x g = .ok a := wrap_eq_ok_iff.mpr (wrap_eq_ok_iff.mp h)

theorem wrap_eq_error_iff {x : Except ε α} {f : ε → ε'} {e' : ε'} :
    wrap x f = .error e' ↔ ∃ e, x = .error e ∧ f e = e' := by
  cases x <;> simp [wrap]

/-- A loop that may fail succeeds when every round does. -/
theorem forM_eq_ok_iff {l : List α} {f : α → Except ε Unit} :
    l.forM f = .ok () ↔ ∀ x ∈ l, f x = .ok () := by
  induction l with
  | nil => exact ⟨fun _ x hx => absurd hx List.not_mem_nil, fun _ => rfl⟩
  | cons a l ih =>
      show (f a >>= fun _ => l.forM f) = .ok () ↔ _
      rw [bind_eq_ok_iff]
      constructor
      · intro h x hx
        obtain ⟨_, ha, hl⟩ := h
        rcases List.mem_cons.mp hx with rfl | hx
        · exact ha
        · exact ih.mp hl x hx
      · intro h
        exact ⟨(), h a List.mem_cons_self, ih.mpr fun x hx => h x (List.mem_cons_of_mem _ hx)⟩

/-- A scan that decodes every entry returns what it has decoded. -/
theorem mapM_orErr {l : List α} {f : α → Option β} (e : ε) (h : ∀ x ∈ l, (f x).isSome = true) :
    l.mapM (fun x => orErr (f x) e) = .ok (l.filterMap f) := by
  induction l with
  | nil => rfl
  | cons a l ih =>
      obtain ⟨b, hb⟩ := Option.isSome_iff_exists.mp (h a List.mem_cons_self)
      rw [List.mapM_cons, hb, orErr_some, ok_bind, ih fun x hx => h x (List.mem_cons_of_mem _ hx),
        ok_bind, List.filterMap_cons_some hb]
      rfl

theorem exists_of_mem_mapM {l : List α} {f : α → Except ε β} {out : List β}
    (h : l.mapM f = .ok out) {b : β} (hb : b ∈ out) : ∃ a ∈ l, f a = .ok b := by
  induction l generalizing out with
  | nil =>
      cases h
      exact absurd hb List.not_mem_nil
  | cons a l ih =>
      rw [List.mapM_cons] at h
      obtain ⟨b₀, hb₀, h⟩ := bind_eq_ok_iff.mp h
      obtain ⟨rest, hrest, h⟩ := bind_eq_ok_iff.mp h
      cases h
      rcases List.mem_cons.mp hb with rfl | hb
      · exact ⟨a, List.mem_cons_self, hb₀⟩
      · obtain ⟨a', ha', hfa'⟩ := ih hrest hb
        exact ⟨a', List.mem_cons_of_mem _ ha', hfa'⟩

/-- Loops whose rounds agree on the list agree. -/
theorem foldlM_congr {l : List γ} {f g : α → γ → Except ε α}
    (h : ∀ c ∈ l, ∀ a, f a c = g a c) (a : α) : l.foldlM f a = l.foldlM g a := by
  induction l generalizing a with
  | nil => rfl
  | cons c l ih =>
      rw [List.foldlM_cons, List.foldlM_cons, h c List.mem_cons_self]
      congr 1
      funext a'
      exact ih (fun c' hc' => h c' (List.mem_cons_of_mem _ hc')) a'

/-! ## Two computations side by side -/

/-- The same error, or results that `R` relates. -/
inductive Alike (R : α → β → Prop) : Except ε α → Except ε β → Prop
  | ok {a : α} {b : β} (h : R a b) : Alike R (.ok a) (.ok b)
  | error (e : ε) : Alike R (.error e) (.error e)

namespace Alike

variable {R : α → β → Prop} {S : γ → δ → Prop}

theorem refl (x : Except ε α) : Alike Eq x x := by
  cases x with
  | error e => exact .error e
  | ok a => exact .ok rfl

theorem bind {x : Except ε α} {y : Except ε β} {f : α → Except ε γ} {g : β → Except ε δ}
    (h : Alike R x y) (hf : ∀ a b, R a b → Alike S (f a) (g b)) : Alike S (x >>= f) (y >>= g) := by
  cases h with
  | ok hab => exact hf _ _ hab
  | error e => exact .error e

/-- A step both computations take with the same outcome. -/
theorem step (x : Except ε α) {f : α → Except ε γ} {g : α → Except ε δ}
    (hf : ∀ a, x = .ok a → Alike S (f a) (g a)) : Alike S (x >>= f) (x >>= g) := by
  cases x with
  | error e => exact .error e
  | ok a => exact hf a rfl

theorem wrap {x : Except ε α} {y : Except ε β} (h : Alike R x y) (f : ε → ε') :
    Alike R (Base.wrap x f) (Base.wrap y f) := by
  cases h with
  | ok hab => exact .ok hab
  | error e => exact .error (f e)

theorem foldlM {f : α → γ → Except ε α} {g : β → γ → Except ε β}
    (hf : ∀ a b c, R a b → Alike R (f a c) (g b c)) (l : List γ) {a : α} {b : β} (h : R a b) :
    Alike R (l.foldlM f a) (l.foldlM g b) := by
  induction l generalizing a b with
  | nil => exact .ok h
  | cons c l ih =>
      rw [List.foldlM_cons, List.foldlM_cons]
      exact (hf a b c h).bind fun a' b' hab => ih hab

end Alike

end KoraDB.Base
