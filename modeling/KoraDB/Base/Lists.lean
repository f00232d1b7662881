import Mathlib.Data.List.Nodup
import Mathlib.Data.List.Pairwise
import Mathlib.Data.List.Perm.Basic

/-!
# Lists

Lookup in a list whose entries have distinct keys, replacing one element, a
stretch of a sorted list, and cutting a list at a separator.
-/

namespace KoraDB.Base

variable {α κ : Type}

/-- In a table with distinct keys, looking up a key finds its entry. -/
theorem find_key_eq_some [BEq κ] [LawfulBEq κ] {key : α → κ} {l : List α} (hn : (l.map key).Nodup)
    {k : κ} {a : α} : l.find? (fun x => key x == k) = some a ↔ a ∈ l ∧ key a = k := by
  refine ⟨fun h => ⟨List.mem_of_find?_eq_some h, by simpa using List.find?_some h⟩, ?_⟩
  intro h
  obtain ⟨hmem, hkey⟩ := h
  cases hf : l.find? (fun x => key x == k) with
  | none =>
      have := List.find?_eq_none.mp hf a hmem
      simp [hkey] at this
  | some b =>
      have hb : key b = k := by simpa using List.find?_some hf
      have hbm : b ∈ l := List.mem_of_find?_eq_some hf
      rw [List.inj_on_of_nodup_map hn hbm hmem (hb.trans hkey.symm)]

/-- Lookups by the same key compose: what `as` finds in `bs` and `bs` in `cs`,
`as` finds in `cs`. No list needs distinct keys. -/
theorem find_key_trans [BEq κ] [LawfulBEq κ] {key : α → κ} {as bs cs : List α}
    {R S T : α → α → Prop} (hRST : ∀ a ∈ as, ∀ b c, R a b → S b c → T a c)
    (hab : ∀ a ∈ as, ∃ b, bs.find? (fun x => key x == key a) = some b ∧ R a b)
    (hbc : ∀ b ∈ bs, ∃ c, cs.find? (fun x => key x == key b) = some c ∧ S b c) :
    ∀ a ∈ as, ∃ c, cs.find? (fun x => key x == key a) = some c ∧ T a c := by
  intro a ha
  obtain ⟨b, hb, hR⟩ := hab a ha
  obtain ⟨c, hc, hS⟩ := hbc b (List.mem_of_find?_eq_some hb)
  have hkey : key b = key a := by simpa using List.find?_some hb
  rw [hkey] at hc
  exact ⟨c, hc, hRST a ha b c hR hS⟩

/-- Replacing one element, up to order: the rest stays. -/
theorem set_perm_of_getElem? {l : List α} {i : Nat} {a : α} (h : l[i]? = some a) :
    ∃ rest, l.Perm (a :: rest) ∧ ∀ b, (l.set i b).Perm (b :: rest) := by
  obtain ⟨hlt, rfl⟩ := List.getElem?_eq_some_iff.mp h
  exact ⟨l.eraseIdx i, (List.getElem_cons_eraseIdx_perm hlt).symm,
    fun b => List.set_perm_cons_eraseIdx hlt b⟩

/-- In a sorted list, dropping what fails `¬ p` and taking while `q` collects
all of `q`, when `q` holds on one stretch that starts behind `p`. -/
theorem takeWhile_dropWhile_eq_filter {r : α → α → Prop} {p q : α → Bool} {l : List α}
    (hl : l.Pairwise r) (hpq : ∀ x ∈ l, q x = true → p x = false)
    (hp : ∀ x y, r x y → p x = false → p y = false)
    (hq : ∀ x y, r x y → p x = false → q y = true → q x = true) :
    (l.dropWhile p).takeWhile q = l.filter q := by
  induction l with
  | nil => rfl
  | cons x l ih =>
      obtain ⟨hx, hl⟩ := List.pairwise_cons.mp hl
      specialize ih hl fun y hy => hpq y (List.mem_cons_of_mem _ hy)
      cases hpx : p x with
      | true =>
          have hqx : ¬ q x = true := by
            intro hqx
            rw [hpq x List.mem_cons_self hqx] at hpx
            cases hpx
          rw [List.dropWhile_cons_of_pos hpx, List.filter_cons_of_neg hqx, ih]
      | false =>
          -- from here on nothing is dropped
          have hdrop : l.dropWhile p = l := by
            cases l with
            | nil => rfl
            | cons y l =>
                rw [List.dropWhile_cons_of_neg]
                simp [hp x y (hx y List.mem_cons_self) hpx]
          rw [hdrop] at ih
          rw [List.dropWhile_cons_of_neg (by simp [hpx])]
          by_cases hqx : q x = true
          · rw [List.takeWhile_cons_of_pos hqx, List.filter_cons_of_pos hqx, ih]
          · have hnone : l.filter q = [] := by
              rw [List.filter_eq_nil_iff]
              intro y hy hqy
              exact hqx (hq x y (hx y hy) hpx hqy)
            rw [List.takeWhile_cons_of_neg hqx, List.filter_cons_of_neg hqx, hnone]

/-! ## Separators -/

/-- Two ways to cut a list at a separator are the same, or one of them cuts at a
later separator. -/
theorem cut_iff {a : α} {x x' y y' : List α} :
    x ++ a :: y = x' ++ a :: y' ↔
      (x = x' ∧ y = y') ∨ (∃ r, x' = x ++ a :: r ∧ y = r ++ a :: y') ∨
        ∃ r, x = x' ++ a :: r ∧ y' = r ++ a :: y := by
  constructor
  · intro h
    rcases List.append_eq_append_iff.mp h with ⟨r, hx, hy⟩ | ⟨r, hx, hy⟩
    · cases r with
      | nil =>
          rw [List.append_nil] at hx
          exact .inl ⟨hx.symm, (List.cons.inj hy).2⟩
      | cons b r =>
          obtain ⟨rfl, htail⟩ := List.cons.inj hy
          exact .inr (.inl ⟨r, hx, htail⟩)
    · cases r with
      | nil =>
          rw [List.append_nil] at hx
          exact .inl ⟨hx, (List.cons.inj hy).2.symm⟩
      | cons b r =>
          obtain ⟨rfl, htail⟩ := List.cons.inj hy
          exact .inr (.inr ⟨r, hx, htail⟩)
  · rintro (⟨rfl, rfl⟩ | ⟨r, rfl, rfl⟩ | ⟨r, rfl, rfl⟩)
    · rfl
    · rw [List.append_assoc, List.cons_append]
    · rw [List.append_assoc, List.cons_append]

/-- A list is cut in one way at the first occurrence of a separator. -/
theorem cut_first {a : α} {x x' y y' : List α} (hx : a ∉ x) (hx' : a ∉ x')
    (h : x ++ a :: y = x' ++ a :: y') : x = x' ∧ y = y' := by
  rcases cut_iff.mp h with heq | ⟨r, hr, _⟩ | ⟨r, hr, _⟩
  · exact heq
  · exact absurd (by simp [hr]) hx'
  · exact absurd (by simp [hr]) hx

/-- A list is cut in one way at the last occurrence of a separator. -/
theorem cut_last {a : α} {x x' y y' : List α} (hy : a ∉ y) (hy' : a ∉ y')
    (h : x ++ a :: y = x' ++ a :: y') : x = x' ∧ y = y' := by
  rcases cut_iff.mp h with heq | ⟨r, _, hr⟩ | ⟨r, _, hr⟩
  · exact heq
  · exact absurd (by simp [hr]) hy
  · exact absurd (by simp [hr]) hy'

/-- What begins with `x` and a separator was cut behind `x`, or behind something
that begins so itself. -/
theorem prefix_cut_iff {a : α} {x x' y : List α} (hy : a ∉ y) :
    x ++ [a] <+: x' ++ a :: y ↔ x' = x ∨ x ++ [a] <+: x' := by
  constructor
  · rintro ⟨t, ht⟩
    rw [List.append_assoc, List.singleton_append] at ht
    rcases cut_iff.mp ht with ⟨hx, _⟩ | ⟨r, hr, _⟩ | ⟨r, _, hr⟩
    · exact .inl hx.symm
    · exact .inr ⟨r, by rw [hr, List.append_assoc, List.singleton_append]⟩
    · exact absurd (by simp [hr]) hy
  · rintro (rfl | h)
    · exact ⟨y, by rw [List.append_assoc, List.singleton_append]⟩
    · exact h.trans (List.prefix_append _ _)

end KoraDB.Base
