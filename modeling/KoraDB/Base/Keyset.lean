import Mathlib.Algebra.Order.Floor.Div
import Mathlib.Data.List.Pairwise
import Mathlib.Order.Defs.Unbundled

/-!
# Keyset pagination over a changing set

A reader pages through an ordered set. A page holds the first members behind
a cursor, and the cursor of the next page is the last key of this one. Between
two pages the set may change in any way. What the reader then knows is
`Traversal.sorted`, the keys it saw ascend, and `Traversal.complete`, a reader
that came to the end saw every key that was a member at each page.

When the set does not change, the pages cut one listing into pieces (`Paged`),
and their number is known.
-/

namespace KoraDB.Base.Keyset

variable {α : Type} {r : α → α → Prop} {S : α → Prop} {after : Option α}

/-- The key is behind the cursor. -/
def Behind (r : α → α → Prop) (after : Option α) (k : α) : Prop := ∀ a ∈ after, r a k

/-- A page of the set `S` from behind the cursor. When `more` is set there may
be members behind the page, and only there. -/
structure IsPage (r : α → α → Prop) (S : α → Prop) (after : Option α) (page : List α)
    (more : Bool) : Prop where
  sorted : page.Pairwise r
  behind : ∀ k ∈ page, Behind r after k
  complete : ∀ k, S k → Behind r after k → k ∈ page ∨ (more = true ∧ ∀ x ∈ page, r x k)
  nonempty : more = true → page ≠ []

theorem IsPage.exists_last {page : List α} (h : IsPage r S after page true) :
    ∃ b, page.getLast? = some b :=
  Option.ne_none_iff_exists'.mp (mt List.getLast?_eq_none_iff.mp (h.nonempty rfl))

/-- A page of a set is one of every part of it. -/
theorem IsPage.imp {S' : α → Prop} {page : List α} {more : Bool} (h : IsPage r S after page more)
    (himp : ∀ k, S' k → Behind r after k → S k) : IsPage r S' after page more where
  sorted := h.sorted
  behind := h.behind
  complete k hk hbehind := h.complete k (himp k hk hbehind) hbehind
  nonempty := h.nonempty

/-- The first keys of a sorted listing are a page. -/
theorem isPage_take {l : List α} (hsorted : l.Pairwise r)
    (hmem : ∀ k, k ∈ l ↔ S k ∧ Behind r after k) {n : Nat} (hn : 0 < n) :
    IsPage r S after (l.take n) (decide (n < l.length)) := by
  have hsplit : l.take n ++ l.drop n = l := List.take_append_drop n l
  refine ⟨hsorted.sublist (List.take_sublist n l), ?_, ?_, ?_⟩
  · intro k hk
    exact ((hmem k).mp (List.mem_of_mem_take hk)).2
  · intro k hS hk
    have hin : k ∈ l.take n ++ l.drop n := by
      rw [hsplit]
      exact (hmem k).mpr ⟨hS, hk⟩
    rcases List.mem_append.mp hin with hfirst | hrest
    · exact .inl hfirst
    · right
      refine ⟨?_, ?_⟩
      · have hpos : 0 < (l.drop n).length := List.length_pos_of_mem hrest
        rw [List.length_drop] at hpos
        exact decide_eq_true (by omega)
      · rw [← hsplit] at hsorted
        exact fun x hx => (List.pairwise_append.mp hsorted).2.2 x hx k hrest
  · intro hmore hempty
    have hlong : n < l.length := of_decide_eq_true hmore
    have hlen : (l.take n).length = 0 := by rw [hempty]; rfl
    rw [List.length_take] at hlen
    omega

/-- Pages read one after the other, each with the set it was read from. The
flag says whether the last page had more behind it. -/
inductive Traversal (r : α → α → Prop) : Option α → List ((α → Prop) × List α) → Bool → Prop
  | last {after : Option α} {S : α → Prop} {page : List α} {more : Bool} :
      IsPage r S after page more → Traversal r after [(S, page)] more
  | next {after : Option α} {S : α → Prop} {page : List α} {rest : List ((α → Prop) × List α)}
      {more : Bool} : IsPage r S after page true → Traversal r page.getLast? rest more →
      Traversal r after ((S, page) :: rest) more

/-- In a sorted page every key is the last one or before it. -/
theorem before_last {page : List α} (h : page.Pairwise r) {x k : α} (hx : x ∈ page)
    (hlast : page.getLast? = some k) : x = k ∨ r x k := by
  obtain ⟨init, rfl⟩ := List.getLast?_eq_some_iff.mp hlast
  rcases List.mem_append.mp hx with hinit | hk
  · exact .inr ((List.pairwise_append.mp h).2.2 x hinit k List.mem_cons_self)
  · exact .inl (List.mem_singleton.mp hk)

/-- A reader that came to the end saw every key that was a member at each
page. -/
theorem Traversal.complete {pages : List ((α → Prop) × List α)}
    (h : Traversal r after pages false) {k : α} (hk : ∀ pg ∈ pages, pg.1 k)
    (hafter : Behind r after k) : k ∈ pages.flatMap Prod.snd := by
  generalize hend : false = more at h
  induction h with
  | last hpage =>
      subst hend
      rcases hpage.complete k (hk _ List.mem_cons_self) hafter with hin | ⟨hmore, _⟩
      · simpa using hin
      · cases hmore
  | @next after S page rest more hpage hrest ih =>
      rw [List.flatMap_cons, List.mem_append]
      rcases hpage.complete k (hk _ List.mem_cons_self) hafter with hin | ⟨_, hbehind⟩
      · exact .inl hin
      · refine .inr (ih (fun pg hpg => hk pg (List.mem_cons_of_mem _ hpg)) ?_ hend)
        exact fun b hb => hbehind b (List.mem_of_getLast? hb)

section Transitive

variable [IsTrans α r]

theorem Traversal.behind {pages : List ((α → Prop) × List α)} {more : Bool}
    (h : Traversal r after pages more) : ∀ k ∈ pages.flatMap Prod.snd, Behind r after k := by
  induction h with
  | last hpage =>
      intro k hk
      simp only [List.flatMap_cons, List.flatMap_nil, List.append_nil] at hk
      exact hpage.behind k hk
  | @next after S page rest more hpage hrest ih =>
      intro k hk a ha
      rw [List.flatMap_cons] at hk
      rcases List.mem_append.mp hk with hk | hk
      · exact hpage.behind k hk a ha
      · -- the cursor of the rest is a key of this page
        obtain ⟨b, hb⟩ := hpage.exists_last
        have hab : r a b := hpage.behind b (List.mem_of_getLast? hb) a ha
        exact IsTrans.trans a b k hab (ih k hk b hb)

/-- The keys a reader sees ascend over the whole traversal. -/
theorem Traversal.sorted {pages : List ((α → Prop) × List α)} {more : Bool}
    (h : Traversal r after pages more) : (pages.flatMap Prod.snd).Pairwise r := by
  induction h with
  | last hpage =>
      simp only [List.flatMap_cons, List.flatMap_nil, List.append_nil]
      exact hpage.sorted
  | @next after S page rest more hpage hrest ih =>
      rw [List.flatMap_cons, List.pairwise_append]
      refine ⟨hpage.sorted, ih, ?_⟩
      intro x hx y hy
      obtain ⟨b, hb⟩ := hpage.exists_last
      have hby : r b y := hrest.behind y hy b hb
      rcases before_last hpage.sorted hx hb with rfl | hxb
      · exact hby
      · exact IsTrans.trans x b y hxb hby

end Transitive

/-! ## A set that does not change -/

/-- The pages of a listing: full ones as long as something is left over. -/
inductive Paged (n : Nat) : List α → List (List α) → Prop
  | last {l : List α} : l.length ≤ n → Paged n l [l]
  | next {l : List α} {pages : List (List α)} : n < l.length → Paged n (l.drop n) pages →
      Paged n l (l.take n :: pages)

/-- How many pages a listing of `m` members has. -/
def pageCount (n m : Nat) : Nat := max 1 (m ⌈/⌉ n)

theorem pageCount_of_le {n m : Nat} (h : m ≤ n) : pageCount n m = 1 := by
  rcases Nat.eq_zero_or_pos n with rfl | hn
  · rw [Nat.le_zero.mp h]
    rfl
  · refine max_eq_left ?_
    rw [ceilDiv_le_iff_le_mul hn, Nat.mul_one]
    exact h

theorem pageCount_of_lt {n m : Nat} (hn : 0 < n) (h : n < m) :
    pageCount n m = pageCount n (m - n) + 1 := by
  obtain ⟨k, rfl⟩ : ∃ k, m = k + 1 + n := ⟨m - n - 1, by omega⟩
  have hrest : 1 ≤ (k + 1) ⌈/⌉ n := by
    rw [Nat.ceilDiv_eq_add_pred_div]
    exact Nat.div_pos (by omega) hn
  have hsucc : (k + 1 + n) ⌈/⌉ n = (k + 1) ⌈/⌉ n + 1 := by
    rw [Nat.ceilDiv_eq_add_pred_div, Nat.ceilDiv_eq_add_pred_div, ← Nat.add_div_right _ hn]
    congr 1
    omega
  unfold pageCount
  rw [Nat.add_sub_cancel, hsucc]
  omega

namespace Paged

variable {n : Nat} {l : List α} {pages : List (List α)}

theorem flatten (h : Paged n l pages) : pages.flatten = l := by
  induction h with
  | last _ => simp
  | next _ _ ih => rw [List.flatten_cons, ih, List.take_append_drop]

theorem length_le (h : Paged n l pages) : ∀ page ∈ pages, page.length ≤ n := by
  induction h with
  | last hle =>
      intro page hpage
      rw [List.mem_singleton.mp hpage]
      exact hle
  | next _ _ ih =>
      intro page hpage
      rcases List.mem_cons.mp hpage with rfl | hpage
      · exact List.length_take_le _ _
      · exact ih page hpage

theorem length_eq (hn : 0 < n) (h : Paged n l pages) : pages.length = pageCount n l.length := by
  induction h with
  | last hle => exact (pageCount_of_le hle).symm
  | next hlt _ ih => rw [List.length_cons, ih, List.length_drop, pageCount_of_lt hn hlt]

end Paged

/-- Behind the last key of the first part of a sorted listing is the rest. -/
theorem filter_behind_last {first rest : List α} {a : α} {p : α → Bool}
    (hasymm : ∀ {x y}, r x y → ¬ r y x) (h : (first ++ rest).Pairwise r)
    (hlast : first.getLast? = some a) (hp : ∀ k, p k = true ↔ r a k) :
    (first ++ rest).filter p = rest := by
  obtain ⟨hfirst, _, hcross⟩ := List.pairwise_append.mp h
  rw [List.filter_append, List.filter_eq_nil_iff.mpr, List.nil_append, List.filter_eq_self]
  · intro k hk
    exact (hp k).mpr (hcross a (List.mem_of_getLast? hlast) k hk)
  · intro k hk hbehind
    have hak : r a k := (hp k).mp hbehind
    rcases before_last hfirst hk hlast with rfl | hka
    · exact hasymm hak hak
    · exact hasymm hka hak

end KoraDB.Base.Keyset
