import KoraDB.Base.Bytes
import KoraDB.Base.Except
import KoraDB.Base.Lists

/-!
# Layer 0: the storage spine (`internal/storage`)

A store is a set of named buckets, each an ordered map from byte keys to
values with a persistent sequence counter. bbolt itself is not modelled: a
transaction is a function on the store, atomic by construction — `Store.update`
keeps the new store when the function succeeds and the old one when it fails.

The value type is a parameter, since no function of this layer looks inside a
value. bbolt's limits on keys are part of the model: an empty key and a key
over 32768 bytes are refused by `Put`.
-/

namespace KoraDB.Storage

open KoraDB.Base

/-- bbolt's reasons to refuse a `Put`. -/
inductive StoreErr
  | bucketNameRequired
  | keyRequired
  | keyTooLarge
  deriving DecidableEq, Repr

/-- bbolt's `MaxKeySize`. -/
def maxKeySize : Nat := 32768

/-- One bucket: its entries and the counter behind `NextSequence`. -/
structure Bucket (V : Type) where
  entries : BMap V
  seq : Nat

/-- The bucket `CreateBucketIfNotExists` creates. -/
def Bucket.empty {V : Type} : Bucket V := ⟨∅, 0⟩

/-- An open database file: its named buckets. -/
structure Store (V : Type) where
  buckets : BMap (Bucket V)

namespace Store

variable {V ε α : Type}

/-- A newly created database file. -/
def empty : Store V := ⟨∅⟩

/-- The bucket of a name, as `CreateBucketIfNotExists` would give it. -/
def bucketOrNew (s : Store V) (bucket : Bytes) : Bucket V :=
  s.buckets[bucket]?.getD Bucket.empty

/-- `Txn.Put`. -/
def put (s : Store V) (bucket key : Bytes) (val : V) : Except StoreErr (Store V) := do
  reject (bucket == []) .bucketNameRequired
  reject (key == []) .keyRequired
  reject (decide (maxKeySize < key.length)) .keyTooLarge
  let b := s.bucketOrNew bucket
  return ⟨s.buckets.insert bucket { b with entries := b.entries.insert key val }⟩

/-- `Txn.Get`; `none` is `ErrNotFound`. -/
def get (s : Store V) (bucket key : Bytes) : Option V :=
  match s.buckets[bucket]? with
  | none => none
  | some b => b.entries[key]?

/-- `Txn.Has`. -/
def has (s : Store V) (bucket key : Bytes) : Bool := (s.get bucket key).isSome

/-- `Txn.Delete`. Deleting a missing key is not an error. -/
def delete (s : Store V) (bucket key : Bytes) : Store V :=
  match s.buckets[bucket]? with
  | none => s
  | some b => ⟨s.buckets.insert bucket { b with entries := b.entries.erase key }⟩

/-- `Txn.Scan`: the entries of a bucket in key order. -/
def scan (s : Store V) (bucket : Bytes) : List (Bytes × V) :=
  match s.buckets[bucket]? with
  | none => []
  | some b => b.entries.toList

/-- `Txn.PrefixScan`: the entries whose key begins with `pre`, in key order.
The cursor starts at the first key not before `pre` and stops at the first
key without the prefix. -/
def prefixScan (s : Store V) (bucket pre : Bytes) : List (Bytes × V) :=
  ((s.scan bucket).dropWhile fun e => (compare e.1 pre).isLT).takeWhile
    fun e => pre.isPrefixOf e.1

/-- `Txn.NextSequence`: a `uint64` counter. -/
def nextSequence (s : Store V) (bucket : Bytes) : Except StoreErr (Store V × Nat) := do
  reject (bucket == []) .bucketNameRequired
  let b := s.bucketOrNew bucket
  let n := (b.seq + 1) % 2 ^ 64
  return (⟨s.buckets.insert bucket { b with seq := n }⟩, n)

/-- The counter of a bucket; zero when the bucket does not exist. -/
def sequence (s : Store V) (bucket : Bytes) : Nat := (s.bucketOrNew bucket).seq

/-- `Store.Update`: one read-write transaction, rolled back on error. -/
def update (s : Store V) (fn : Store V → Except ε (Store V × α)) : Store V × Except ε α :=
  match fn s with
  | .ok (s', a) => (s', .ok a)
  | .error e => (s, .error e)

/-- `Store.View`: one read-only transaction. -/
def view (s : Store V) (fn : Store V → Except ε α) : Except ε α := fn s

/-! ## What the operations do to lookups -/

@[simp] theorem get_empty (bucket key : Bytes) : (empty : Store V).get bucket key = none := by
  simp [empty, get]

theorem get_eq_bucketOrNew (s : Store V) (bucket key : Bytes) :
    s.get bucket key = (s.bucketOrNew bucket).entries[key]? := by
  unfold get bucketOrNew
  cases s.buckets[bucket]? with
  | none => simp [Bucket.empty]
  | some b => rfl

/-- Writing one bucket back changes that bucket only. -/
theorem bucketOrNew_insert (s : Store V) (bucket other : Bytes) (b : Bucket V) :
    (⟨s.buckets.insert bucket b⟩ : Store V).bucketOrNew other =
      if bucket = other then b else s.bucketOrNew other := by
  unfold bucketOrNew
  rw [BMap.get_insert]
  split <;> rfl

/-- `put` in full: when it succeeds the key is legal and one bucket gained one
entry. -/
theorem put_eq_ok_iff {s s' : Store V} {bucket key : Bytes} {val : V} :
    s.put bucket key val = .ok s' ↔
      bucket ≠ [] ∧ key ≠ [] ∧ key.length ≤ maxKeySize ∧
      s' = ⟨s.buckets.insert bucket { s.bucketOrNew bucket with
        entries := (s.bucketOrNew bucket).entries.insert key val }⟩ := by
  unfold put
  simp only [bind_eq_ok_iff, reject_eq_ok_iff, beq_eq_false_iff_ne, decide_eq_false_iff_not,
    Nat.not_lt, pure, Except.pure, Except.ok.injEq]
  constructor
  · rintro ⟨_, hb, _, hk, _, hl, rfl⟩
    exact ⟨hb, hk, hl, rfl⟩
  · rintro ⟨hb, hk, hl, rfl⟩
    exact ⟨(), hb, (), hk, (), hl, rfl⟩

/-- A legal key can be written. -/
theorem put_ok (s : Store V) {bucket key : Bytes} (val : V) (hb : bucket ≠ []) (hk : key ≠ [])
    (hl : key.length ≤ maxKeySize) : ∃ s', s.put bucket key val = .ok s' :=
  ⟨_, put_eq_ok_iff.mpr ⟨hb, hk, hl, rfl⟩⟩

/-- A `put` stores its value and changes no other entry. -/
theorem get_put {s s' : Store V} {bucket key : Bytes} {val : V}
    (h : s.put bucket key val = .ok s') (b k : Bytes) :
    s'.get b k = if bucket = b ∧ key = k then some val else s.get b k := by
  obtain ⟨_, _, _, rfl⟩ := put_eq_ok_iff.mp h
  rw [get_eq_bucketOrNew, bucketOrNew_insert, get_eq_bucketOrNew]
  by_cases hb : bucket = b
  · subst hb
    rw [if_pos rfl, BMap.get_insert]
    simp only [true_and]
  · rw [if_neg hb, if_neg (fun hc => hb hc.1)]

/-- Every stored key is one that `put` takes. -/
def LegalKeys (s : Store V) : Prop :=
  ∀ b k v, s.get b k = some v → k ≠ [] ∧ k.length ≤ maxKeySize

theorem legalKeys_empty : LegalKeys (empty : Store V) := by
  intro b k v h
  rw [get_empty] at h
  cases h

theorem LegalKeys.put {s s' : Store V} {bucket key : Bytes} {val : V} (hs : LegalKeys s)
    (h : s.put bucket key val = .ok s') : LegalKeys s' := by
  intro b k v hget
  rw [get_put h] at hget
  split at hget
  · rename_i hk
    obtain ⟨_, hne, hlen, _⟩ := put_eq_ok_iff.mp h
    rw [← hk.2]
    exact ⟨hne, hlen⟩
  · exact hs b k v hget

/-- A `put` touches no sequence. -/
theorem sequence_put {s s' : Store V} {bucket key : Bytes} {val : V}
    (h : s.put bucket key val = .ok s') (b : Bytes) : s'.sequence b = s.sequence b := by
  obtain ⟨_, _, _, rfl⟩ := put_eq_ok_iff.mp h
  unfold sequence
  rw [bucketOrNew_insert]
  split
  · rename_i hb
    rw [hb]
  · rfl

/-- A `delete` removes its key and changes no other entry. -/
theorem get_delete (s : Store V) (bucket key b k : Bytes) :
    (s.delete bucket key).get b k = if bucket = b ∧ key = k then none else s.get b k := by
  unfold delete
  cases hs : s.buckets[bucket]? with
  | none =>
      by_cases hb : bucket = b ∧ key = k
      · obtain ⟨rfl, rfl⟩ := hb
        simp [get, hs]
      · rw [if_neg hb]
  | some bk =>
      rw [get_eq_bucketOrNew, bucketOrNew_insert, get_eq_bucketOrNew]
      by_cases hb : bucket = b
      · subst hb
        have hbk : s.bucketOrNew bucket = bk := by
          unfold bucketOrNew
          rw [hs]
          rfl
        rw [if_pos rfl, BMap.get_erase, hbk]
        simp only [true_and]
      · rw [if_neg hb, if_neg (fun hc => hb hc.1)]

/-- A `delete` touches no sequence. -/
theorem sequence_delete (s : Store V) (bucket key b : Bytes) :
    (s.delete bucket key).sequence b = s.sequence b := by
  unfold delete
  cases hs : s.buckets[bucket]? with
  | none => rfl
  | some bk =>
      unfold sequence
      rw [bucketOrNew_insert]
      split
      · rename_i hb
        subst hb
        unfold bucketOrNew
        rw [hs]
        rfl
      · rfl

/-- A new sequence number changes no entry, and advances its bucket's counter
only. -/
theorem nextSequence_spec {s s' : Store V} {bucket : Bytes} {n : Nat}
    (h : s.nextSequence bucket = .ok (s', n)) :
    n = (s.sequence bucket + 1) % 2 ^ 64 ∧ (∀ b k, s'.get b k = s.get b k) ∧
      ∀ b, s'.sequence b = if bucket = b then n else s.sequence b := by
  unfold nextSequence at h
  simp only [bind_eq_ok_iff, pure, Except.pure, Except.ok.injEq, Prod.mk.injEq] at h
  obtain ⟨_, _, rfl, rfl⟩ := h
  refine ⟨rfl, ?_, ?_⟩
  · intro b k
    rw [get_eq_bucketOrNew, bucketOrNew_insert, get_eq_bucketOrNew]
    split
    · rename_i hb
      subst hb
      rfl
    · rfl
  · intro b
    unfold sequence
    rw [bucketOrNew_insert]
    split <;> rfl

/-- Bucket `b` is as it was: same entries, same counter. -/
structure SameBucket (s s' : Store V) (b : Bytes) : Prop where
  entries : ∀ k, s'.get b k = s.get b k
  sequence : s'.sequence b = s.sequence b

theorem SameBucket.refl (s : Store V) (b : Bytes) : SameBucket s s b := ⟨fun _ => rfl, rfl⟩

theorem sameBucket_put {s s' : Store V} {bucket key : Bytes} {val : V}
    (h : s.put bucket key val = .ok s') {b : Bytes} (hb : b ≠ bucket) : SameBucket s s' b := by
  refine ⟨?_, sequence_put h b⟩
  intro k
  rw [get_put h, if_neg fun hc => hb hc.1.symm]

theorem sameBucket_delete (s : Store V) {bucket key b : Bytes} (hb : b ≠ bucket) :
    SameBucket s (s.delete bucket key) b := by
  refine ⟨?_, sequence_delete s bucket key b⟩
  intro k
  rw [get_delete, if_neg fun hc => hb hc.1.symm]

/-! ## Scans -/

/-- A scan visits exactly the stored entries. -/
theorem mem_scan {s : Store V} {bucket k : Bytes} {v : V} :
    (k, v) ∈ s.scan bucket ↔ s.get bucket k = some v := by
  unfold scan get
  cases s.buckets[bucket]? with
  | none => simp
  | some b => exact BMap.mem_toList

/-- A scan visits its entries in strictly increasing key order. -/
theorem scan_sorted (s : Store V) (bucket : Bytes) :
    (s.scan bucket).Pairwise fun a b => Before a.1 b.1 := by
  unfold scan
  cases s.buckets[bucket]? with
  | none => exact List.Pairwise.nil
  | some b => exact BMap.toList_sorted b.entries

/-- A prefix scan visits exactly the entries whose key has the prefix. -/
theorem prefixScan_eq_filter (s : Store V) (bucket pre : Bytes) :
    s.prefixScan bucket pre = (s.scan bucket).filter fun e => pre.isPrefixOf e.1 := by
  refine takeWhile_dropWhile_eq_filter (s.scan_sorted bucket) ?_ ?_ ?_
  · intro x _ hx
    exact not_isLT_iff.mpr (not_before_of_isPrefix (List.isPrefixOf_iff_prefix.mp hx))
  · intro x y hxy hx
    rw [not_isLT_iff] at hx ⊢
    intro hy
    exact hx (hxy.trans hy)
  · intro x y hxy hx hy
    rw [not_isLT_iff] at hx
    rw [List.isPrefixOf_iff_prefix] at hy ⊢
    exact isPrefix_of_between hy hx hxy

/-! ## Stores that differ elsewhere -/

/-- Two stores with the same buckets where `P` holds; elsewhere the one holds
`rest` and the other `rest'`. What works on buckets of `P` only keeps it. -/
structure Twin (P : Bytes → Prop) (rest rest' : Bytes → Option (Bucket V)) (s s' : Store V) :
    Prop where
  inside : ∀ b, P b → s'.buckets[b]? = s.buckets[b]?
  left : ∀ b, ¬ P b → s.buckets[b]? = rest b
  right : ∀ b, ¬ P b → s'.buckets[b]? = rest' b

namespace Twin

variable {P : Bytes → Prop} {rest rest' : Bytes → Option (Bucket V)} {s s' : Store V} {b : Bytes}

theorem get (h : Twin P rest rest' s s') (hb : P b) (k : Bytes) : s'.get b k = s.get b k := by
  unfold Store.get
  rw [h.inside b hb]

theorem has (h : Twin P rest rest' s s') (hb : P b) (k : Bytes) : s'.has b k = s.has b k := by
  unfold Store.has
  rw [h.get hb]

theorem bucketOrNew (h : Twin P rest rest' s s') (hb : P b) :
    s'.bucketOrNew b = s.bucketOrNew b := by
  unfold Store.bucketOrNew
  rw [h.inside b hb]

/-- Writing the same bucket back on both sides. -/
theorem insert (h : Twin P rest rest' s s') (hb : P b) (bk : Bucket V) :
    Twin P rest rest' ⟨s.buckets.insert b bk⟩ ⟨s'.buckets.insert b bk⟩ := by
  refine ⟨?_, ?_, ?_⟩
  · intro a ha
    rw [BMap.get_insert, BMap.get_insert, h.inside a ha]
  · intro a ha
    have hne : b ≠ a := fun heq => ha (heq ▸ hb)
    rw [BMap.get_insert_ne hne]
    exact h.left a ha
  · intro a ha
    have hne : b ≠ a := fun heq => ha (heq ▸ hb)
    rw [BMap.get_insert_ne hne]
    exact h.right a ha

theorem put (h : Twin P rest rest' s s') (hb : P b) (k : Bytes) (v : V) :
    Alike (Twin P rest rest') (s.put b k v) (s'.put b k v) := by
  unfold Store.put
  rw [h.bucketOrNew hb]
  exact .step _ fun _ _ => .step _ fun _ _ => .step _ fun _ _ => .ok (h.insert hb _)

theorem delete (h : Twin P rest rest' s s') (hb : P b) (k : Bytes) :
    Twin P rest rest' (s.delete b k) (s'.delete b k) := by
  unfold Store.delete
  rw [h.inside b hb]
  cases s.buckets[b]? with
  | none => exact h
  | some bk => exact h.insert hb _

theorem nextSequence (h : Twin P rest rest' s s') (hb : P b) :
    Alike (fun r r' => Twin P rest rest' r.1 r'.1 ∧ r'.2 = r.2) (s.nextSequence b)
      (s'.nextSequence b) := by
  unfold Store.nextSequence
  rw [h.bucketOrNew hb]
  exact .step _ fun _ _ => .ok ⟨h.insert hb _, rfl⟩

theorem update (h : Twin P rest rest' s s') {fn fn' : Store V → Except ε (Store V × α)}
    (hfn : Alike (fun r r' => Twin P rest rest' r.1 r'.1 ∧ r'.2 = r.2) (fn s) (fn' s')) :
    Twin P rest rest' (s.update fn).1 (s'.update fn').1 ∧
      (s'.update fn').2 = (s.update fn).2 := by
  unfold Store.update
  cases hs : fn s with
  | error e =>
      rw [hs] at hfn
      generalize fn' s' = out at hfn
      cases hfn
      exact ⟨h, rfl⟩
  | ok r =>
      rw [hs] at hfn
      generalize fn' s' = out at hfn
      cases hfn with
      | ok hr => exact ⟨hr.1, congrArg Except.ok hr.2⟩

end Twin

/-! ## Transactions -/

/-- A failed transaction leaves the store as it was. -/
theorem update_error {s : Store V} {fn : Store V → Except ε (Store V × α)} {e : ε}
    (h : (s.update fn).2 = .error e) : (s.update fn).1 = s := by
  unfold update at h ⊢
  cases hf : fn s with
  | ok r => rw [hf] at h; cases h
  | error e' => rfl

/-- A transaction that returned a value committed the store it built. -/
theorem update_ok_iff {s s' : Store V} {fn : Store V → Except ε (Store V × α)} {a : α} :
    s.update fn = (s', .ok a) ↔ fn s = .ok (s', a) := by
  unfold update
  cases hf : fn s with
  | ok r => simp [Prod.ext_iff]
  | error e => simp

end Store

end KoraDB.Storage
