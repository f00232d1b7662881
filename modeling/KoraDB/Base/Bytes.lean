import Mathlib.Data.List.Basic
import Mathlib.Data.List.Sort
import Mathlib.Tactic.Ring
import Mathlib.Tactic.NormNum
import Std.Data.ExtTreeMap

/-!
# Byte strings and byte-keyed maps

A Go `string` or `[]byte` is a list of bytes. Byte strings are ordered
lexicographically (`bytes.Compare`, Go's `<` on strings, and the key order of
a B+tree bucket are all `compare` on `Bytes`), and a map keyed by byte strings
is the ordered extensional map of the standard library: two maps with the same
lookups are equal, and `toList` lists the entries in key order.
-/

namespace KoraDB.Base

/-- A Go string or byte slice. -/
abbrev Bytes := List UInt8

/-- The bytes of an ASCII literal. -/
def ascii (s : String) : Bytes := s.toList.map fun c => c.toNat.toUInt8

/-- `bytes.Compare(a, b) < 0`. -/
abbrev Before (a b : Bytes) : Prop := compare a b = .lt

theorem Before.trans {a b c : Bytes} (hab : Before a b) (hbc : Before b c) : Before a c :=
  Std.TransCmp.lt_trans hab hbc

theorem Before.irrefl (a : Bytes) : ¬ Before a a := by
  simp [Before]

theorem Before.ne {a b : Bytes} (h : Before a b) : a ≠ b := by
  rintro rfl
  exact Before.irrefl a h

theorem Before.asymm {a b : Bytes} (h : Before a b) : ¬ Before b a :=
  fun h' => Before.irrefl a (h.trans h')

/-- `bytes.Compare(a, b) <= 0` fails exactly when `b` comes first. -/
theorem not_isLE_iff {a b : Bytes} : (compare a b).isLE = false ↔ Before b a := by
  have hswap : compare b a = (compare a b).swap := Std.OrientedCmp.eq_swap
  unfold Before
  rw [hswap]
  cases compare a b <;> simp

theorem not_isLT_iff {a b : Bytes} : (compare a b).isLT = false ↔ ¬ Before a b := by
  unfold Before
  cases compare a b <;> simp

theorem isLE_iff {a b : Bytes} : (compare a b).isLE = true ↔ a = b ∨ Before a b := by
  have heq : compare a b = .eq ↔ a = b := Std.LawfulEqCmp.compare_eq_iff_eq
  unfold Before
  rw [← heq]
  cases compare a b <;> simp

theorem before_trichotomy (a b : Bytes) : Before a b ∨ a = b ∨ Before b a := by
  cases h : (compare a b).isLE with
  | false => exact .inr (.inr (not_isLE_iff.mp h))
  | true =>
      rcases isLE_iff.mp h with h | h
      · exact .inr (.inl h)
      · exact .inl h

theorem before_cons {a b : UInt8} {as bs : Bytes} :
    Before (a :: as) (b :: bs) ↔ compare a b = .lt ∨ (a = b ∧ Before as bs) := by
  show (List.compareLex compare (a :: as) (b :: bs)) = .lt ↔ _
  rw [List.compareLex_cons_cons, Ordering.then_eq_lt, Std.LawfulEqCmp.compare_eq_iff_eq]
  rfl

/-- A string is not before one it begins with. -/
theorem not_before_of_isPrefix {pre x : Bytes} (h : pre <+: x) : ¬ Before x pre := by
  induction pre generalizing x with
  | nil => cases x <;> intro hlt <;> cases hlt
  | cons a pre ih =>
      obtain ⟨t, rfl⟩ := h
      intro hlt
      rcases before_cons.mp hlt with hlt | ⟨_, hlt⟩
      · simp at hlt
      · exact ih ⟨t, rfl⟩ hlt

/-- The strings that begin with `pre` follow it without a gap. -/
theorem isPrefix_of_between {pre x y : Bytes} (hx : pre <+: x) (hlo : ¬ Before y pre)
    (hhi : Before y x) : pre <+: y := by
  induction pre generalizing x y with
  | nil => exact List.nil_prefix
  | cons a pre ih =>
      obtain ⟨t, rfl⟩ := hx
      cases y with
      | nil => exact absurd rfl hlo
      | cons b y =>
          have hlo' := mt before_cons.mpr hlo
          rcases before_cons.mp hhi with hba | ⟨rfl, hy⟩
          · exact absurd (.inl hba) hlo'
          · refine List.cons_prefix_cons.mpr ⟨rfl, ih ⟨t, rfl⟩ ?_ hy⟩
            intro hlt
            exact hlo' (.inr ⟨rfl, hlt⟩)

/-! ## Maps keyed by byte strings -/

/-- A Go `map[string]V`, or the entries of one bucket: a finite map ordered by
its keys. -/
abbrev BMap (V : Type*) := Std.ExtTreeMap Bytes V

namespace BMap

variable {V : Type*}

theorem get_insert (m : BMap V) (k a : Bytes) (v : V) :
    (m.insert k v)[a]? = if k = a then some v else m[a]? := by
  rw [Std.ExtTreeMap.getElem?_insert]
  simp only [Std.LawfulEqCmp.compare_eq_iff_eq]

theorem get_insert_ne {m : BMap V} {k a : Bytes} {v : V} (h : k ≠ a) :
    (m.insert k v)[a]? = m[a]? := by
  rw [get_insert, if_neg h]

theorem get_erase (m : BMap V) (k a : Bytes) :
    (m.erase k)[a]? = if k = a then none else m[a]? := by
  rw [Std.ExtTreeMap.getElem?_erase]
  simp only [Std.LawfulEqCmp.compare_eq_iff_eq]

/-- Maps with the same lookups are equal. -/
theorem ext {m m' : BMap V} (h : ∀ k : Bytes, m[k]? = m'[k]?) : m = m' :=
  Std.ExtTreeMap.ext_getElem? h

theorem mem_toList {m : BMap V} {k : Bytes} {v : V} : (k, v) ∈ m.toList ↔ m[k]? = some v :=
  Std.ExtTreeMap.mem_toList_iff_getElem?_eq_some

/-- Entries are listed in strictly increasing key order. -/
theorem toList_sorted (m : BMap V) : m.toList.Pairwise fun a b => Before a.1 b.1 :=
  Std.ExtTreeMap.ordered_keys_toList

/-- Key-sorted listings with the same entries are equal. -/
theorem keySorted_ext {l₁ l₂ : List (Bytes × V)} (h₁ : l₁.Pairwise fun a b => Before a.1 b.1)
    (h₂ : l₂.Pairwise fun a b => Before a.1 b.1) (h : ∀ k v, (k, v) ∈ l₁ ↔ (k, v) ∈ l₂) :
    l₁ = l₂ := by
  have hanti : Std.Antisymm fun a b : Bytes × V => Before a.1 b.1 :=
    ⟨fun _ _ hab hba => absurd hba hab.asymm⟩
  have hirrefl : Std.Irrefl fun a b : Bytes × V => Before a.1 b.1 :=
    ⟨fun a => Before.irrefl a.1⟩
  exact h₁.eq_of_mem_iff h₂ fun e => h e.1 e.2

/-- A key-sorted listing is its part before a key, at the key, and behind
it. -/
theorem keySorted_split {es : List (Bytes × V)} (h : es.Pairwise fun a b => Before a.1 b.1)
    (k : Bytes) :
    es = es.filter (fun e => decide (Before e.1 k)) ++
      (es.filter (fun e => decide (e.1 = k)) ++ es.filter fun e => decide (Before k e.1)) := by
  induction es with
  | nil => rfl
  | cons e es ih =>
      obtain ⟨hhead, htail⟩ := List.pairwise_cons.mp h
      specialize ih htail
      rcases before_trichotomy e.1 k with hlt | heq | hgt
      · have hne : e.1 ≠ k := hlt.ne
        rw [List.filter_cons_of_pos (by simpa using hlt),
          List.filter_cons_of_neg (by simpa using hne),
          List.filter_cons_of_neg (by simpa using hlt.asymm), List.cons_append, ← ih]
      · have hlater : ∀ x ∈ es, Before k x.1 := fun x hx => heq ▸ hhead x hx
        have hbefore : es.filter (fun x => decide (Before x.1 k)) = [] := by
          rw [List.filter_eq_nil_iff]
          intro x hx
          simpa using (hlater x hx).asymm
        rw [List.filter_cons_of_neg (by simp [heq]),
          List.filter_cons_of_pos (by simpa using heq),
          List.filter_cons_of_neg (by simp [heq]), hbefore]
        rw [hbefore] at ih
        rw [List.nil_append] at ih ⊢
        rw [List.cons_append, ← ih]
      · have hlater : ∀ x ∈ es, Before k x.1 := fun x hx => hgt.trans (hhead x hx)
        have hbefore : es.filter (fun x => decide (Before x.1 k)) = [] := by
          rw [List.filter_eq_nil_iff]
          intro x hx
          simpa using (hlater x hx).asymm
        have hat : es.filter (fun x => decide (x.1 = k)) = [] := by
          rw [List.filter_eq_nil_iff]
          intro x hx
          simpa using (hlater x hx).ne.symm
        rw [List.filter_cons_of_neg (by simpa using hgt.asymm),
          List.filter_cons_of_neg (by simpa using hgt.ne.symm),
          List.filter_cons_of_pos (by simpa using hgt), hbefore, hat]
        rw [hbefore, hat] at ih
        rw [List.nil_append, List.nil_append] at ih ⊢
        rw [← ih]

/-- `for k, v := range src { dst[k] = v }`: the entries of `src` overlay those
of `dst`. Go's iteration order is unspecified; the keys of a map are distinct,
so the result does not depend on it. -/
def overlay (dst src : BMap V) : BMap V :=
  src.toList.foldl (fun m e => m.insert e.1 e.2) dst

/-- A run of insertions whose keys all differ from `a` leaves `a` alone. -/
theorem get_foldl_insert_ne {es : List (Bytes × V)} {a : Bytes} (h : ∀ e ∈ es, e.1 ≠ a)
    (m : BMap V) : (es.foldl (fun m e => m.insert e.1 e.2) m)[a]? = m[a]? := by
  induction es generalizing m with
  | nil => rfl
  | cons e es ih =>
      rw [List.foldl_cons, ih (fun x hx => h x (List.mem_cons_of_mem _ hx)),
        get_insert_ne (h e List.mem_cons_self)]

/-- The last of several insertions at a key decides its value. -/
theorem get_foldl_insert_last {es : List (Bytes × V)} {a : Bytes} {v : V}
    (hmem : (a, v) ∈ es) (huniq : ∀ e ∈ es, e.1 = a → e.2 = v) (m : BMap V) :
    (es.foldl (fun m e => m.insert e.1 e.2) m)[a]? = some v := by
  induction es generalizing m with
  | nil => exact absurd hmem List.not_mem_nil
  | cons e es ih =>
      rw [List.foldl_cons]
      by_cases hin : (a, v) ∈ es
      · exact ih hin (fun x hx => huniq x (List.mem_cons_of_mem _ hx)) _
      · have he : e = (a, v) := by
          rcases List.mem_cons.mp hmem with h | h
          · exact h.symm
          · exact absurd h hin
        have hne : ∀ x ∈ es, x.1 ≠ a := by
          intro x hx hxa
          have hxv : x.2 = v := huniq x (List.mem_cons_of_mem _ hx) hxa
          exact hin (by rw [← hxa, ← hxv]; exact hx)
        rw [get_foldl_insert_ne hne, he, get_insert, if_pos rfl]

theorem get_overlay (dst src : BMap V) (k : Bytes) :
    (overlay dst src)[k]? = src[k]?.or dst[k]? := by
  unfold overlay
  cases h : src[k]? with
  | none =>
      rw [get_foldl_insert_ne]
      · rfl
      · rintro ⟨a, v⟩ he rfl
        rw [mem_toList.mp he] at h
        exact absurd h (by simp)
  | some v =>
      rw [get_foldl_insert_last (mem_toList.mpr h)]
      · rfl
      · rintro ⟨a, w⟩ he rfl
        rw [mem_toList.mp he] at h
        exact Option.some.inj h

end BMap

/-! ## Big-endian words -/

/-- `binary.BigEndian.PutUint64`: the eight bytes of `n`, most significant
first. -/
def be64 (n : Nat) : Bytes :=
  [UInt8.ofNat (n / 2 ^ 56), UInt8.ofNat (n / 2 ^ 48), UInt8.ofNat (n / 2 ^ 40),
   UInt8.ofNat (n / 2 ^ 32), UInt8.ofNat (n / 2 ^ 24), UInt8.ofNat (n / 2 ^ 16),
   UInt8.ofNat (n / 2 ^ 8), UInt8.ofNat n]

/-- `binary.BigEndian.Uint64`. -/
def ofBe (b : Bytes) : Nat := b.foldl (fun acc x => acc * 256 + x.toNat) 0

@[simp] theorem be64_length (n : Nat) : (be64 n).length = 8 := rfl

theorem ofBe_be64 {n : Nat} (h : n < 2 ^ 64) : ofBe (be64 n) = n := by
  simp only [ofBe, be64, List.foldl_cons, List.foldl_nil, UInt8.toNat_ofNat']
  omega

/-- `uint64(n)` of an integer. -/
def toUint64 (n : Int) : Nat := (n % 2 ^ 64).toNat

theorem toUint64_lt (n : Int) : toUint64 n < 2 ^ 64 := by
  unfold toUint64
  omega

/-- The conversion keeps `int64` values apart. -/
theorem toUint64_inj {m n : Int} (hm : -2 ^ 63 ≤ m ∧ m < 2 ^ 63) (hn : -2 ^ 63 ≤ n ∧ n < 2 ^ 63)
    (h : toUint64 m = toUint64 n) : m = n := by
  unfold toUint64 at h
  omega

theorem toUint64_natCast {n : Nat} (h : n < 2 ^ 64) : toUint64 n = n := by
  unfold toUint64
  omega

/-- Distinct words have distinct encodings. -/
theorem be64_inj {m n : Nat} (hm : m < 2 ^ 64) (hn : n < 2 ^ 64) (h : be64 m = be64 n) :
    m = n := by
  rw [← ofBe_be64 hm, ← ofBe_be64 hn, h]

/-! ## The order of words -/

theorem compare_uint8 (x y : UInt8) : compare x y = compare x.toNat y.toNat := by
  show compareOfLessAndEq x y = compareOfLessAndEq x.toNat y.toNat
  unfold compareOfLessAndEq
  simp only [UInt8.lt_iff_toNat_lt, UInt8.toNat_inj]

/-- A digit more: the leading digits decide, then the last one. -/
theorem compare_digit (m n : Nat) (x y : UInt8) :
    compare (m * 256 + x.toNat) (n * 256 + y.toNat) = (compare m n).then (compare x y) := by
  have hx := x.toNat_lt
  have hy := y.toNat_lt
  rw [compare_uint8]
  simp only [Nat.compare_eq_ite_lt]
  rcases Nat.lt_trichotomy m n with hlt | rfl | hgt
  · rw [if_pos (by omega), if_pos hlt]
    rfl
  · simp
  · rw [if_neg (by omega), if_pos (by omega), if_neg (by omega), if_pos hgt]
    rfl

/-- Words of one width are ordered byte-wise as their values are. -/
theorem compare_ofBe {a b : Bytes} (hlen : a.length = b.length) :
    compare (ofBe a) (ofBe b) = compare a b := by
  -- what has been read of both words comes first
  have hread : ∀ (a b : Bytes) (m n : Nat), a.length = b.length →
      compare (a.foldl (fun acc x => acc * 256 + x.toNat) m)
        (b.foldl (fun acc x => acc * 256 + x.toNat) n) = (compare m n).then (compare a b) := by
    intro a
    induction a with
    | nil =>
        intro b m n hlen
        obtain rfl := List.eq_nil_of_length_eq_zero hlen.symm
        show compare m n = (compare m n).then .eq
        rw [Ordering.then_eq]
    | cons x a ih =>
        intro b m n hlen
        cases b with
        | nil => cases hlen
        | cons y b =>
            have hcons : compare (x :: a) (y :: b) = (compare x y).then (compare a b) :=
              List.compareLex_cons_cons
            rw [List.foldl_cons, List.foldl_cons, ih b _ _ (Nat.succ.inj hlen), compare_digit,
              hcons, Ordering.then_assoc]
  exact hread a b 0 0 hlen

/-- Words of one width are told apart by their values. -/
theorem ofBe_inj {a b : Bytes} (hlen : a.length = b.length) (h : ofBe a = ofBe b) : a = b := by
  have heq : compare a b = .eq := by
    rw [← compare_ofBe hlen, h]
    exact Std.ReflCmp.compare_self
  exact Std.LawfulEqCmp.compare_eq_iff_eq.mp heq

theorem compare_be64 {m n : Nat} (hm : m < 2 ^ 64) (hn : n < 2 ^ 64) :
    compare (be64 m) (be64 n) = compare m n := by
  rw [← compare_ofBe (a := be64 m) (b := be64 n) rfl, ofBe_be64 hm, ofBe_be64 hn]

/-- Setting the bit above a word adds its weight. -/
theorem xor_two_pow {i x : Nat} (h : x < 2 ^ i) : x ^^^ 2 ^ i = x + 2 ^ i := by
  have hor : 2 ^ i * 1 + x = 2 ^ i * 1 ||| x := Nat.two_pow_add_eq_or_of_lt h 1
  rw [Nat.mul_one] at hor
  rw [Nat.add_comm, hor]
  apply Nat.eq_of_testBit_eq
  intro j
  rw [Nat.testBit_xor, Nat.testBit_or, Nat.testBit_two_pow]
  by_cases hj : i = j
  · subst hj
    rw [Nat.testBit_lt_two_pow h, decide_eq_true rfl]
    rfl
  · rw [decide_eq_false hj, Bool.xor_false, Bool.false_or]

/-- `uint64(n) ^ (1 << 63)` moves the `int64` range to start at zero. -/
theorem toUint64_flip {n : Int} (hn : -2 ^ 63 ≤ n ∧ n < 2 ^ 63) :
    toUint64 n ^^^ 2 ^ 63 = (n + 2 ^ 63).toNat := by
  by_cases hneg : n < 0
  · -- the sign bit is set, and flipping it twice changes nothing
    have hhigh : toUint64 n = (n + 2 ^ 63).toNat ^^^ 2 ^ 63 := by
      rw [xor_two_pow (by omega)]
      unfold toUint64
      omega
    rw [hhigh, Nat.xor_assoc, Nat.xor_self, Nat.xor_zero]
  · have hlow : toUint64 n = n.toNat := by
      unfold toUint64
      omega
    rw [hlow, xor_two_pow (by omega)]
    omega

theorem ofBe_lt {b : Bytes} (hlen : b.length = 8) : ofBe b < 2 ^ 64 := by
  match b, hlen with
  | [a, b, c, d, e, f, g, h], _ =>
    simp only [ofBe, List.foldl_cons, List.foldl_nil]
    have ha := a.toNat_lt
    have hb := b.toNat_lt
    have hc := c.toNat_lt
    have hd := d.toNat_lt
    have he := e.toNat_lt
    have hf := f.toNat_lt
    have hg := g.toNat_lt
    have hh := h.toNat_lt
    omega

end KoraDB.Base
