import KoraDB.Storage.Store
import Mathlib.Data.List.Sort

/-!
# Buckets by their contents

An invariant of a bucket is often a list: what was put there and has not been
deleted, in the order it was put. `Contents` says that a bucket holds such a
list. A scan is the list in the order of its keys (`Contents.scan_eq`), so a
listing that decodes a scan shows the list, decoded and in that order
(`Contents.listing`).
-/

namespace KoraDB.Storage.Store

open KoraDB.Base

variable {V α β ε : Type}

/-! ## The order of a scan -/

/-- A list in the order of its keys. -/
def byKey (key : α → Bytes) (l : List α) : List α :=
  l.insertionSort fun a b => (compare (key a) (key b)).isLE = true

theorem byKey_perm (key : α → Bytes) (l : List α) : (byKey key l).Perm l :=
  List.perm_insertionSort _ l

theorem mem_byKey {key : α → Bytes} {l : List α} {a : α} : a ∈ byKey key l ↔ a ∈ l :=
  (byKey_perm key l).mem_iff

theorem byKey_map (key : β → Bytes) (f : α → β) (l : List α) :
    byKey key (l.map f) = (byKey (fun a => key (f a)) l).map f := by
  unfold byKey
  exact (List.map_insertionSort _ _ f l fun a _ b _ => Iff.rfl).symm

theorem byKey_le (key : α → Bytes) (l : List α) :
    (byKey key l).Pairwise fun a b => (compare (key a) (key b)).isLE = true := by
  have htotal : Std.Total fun a b : α => (compare (key a) (key b)).isLE = true := by
    refine ⟨fun a b => ?_⟩
    rw [isLE_iff, isLE_iff]
    rcases before_trichotomy (key a) (key b) with hab | hab | hab
    · exact .inl (.inr hab)
    · exact .inl (.inl hab)
    · exact .inr (.inr hab)
  have htrans : IsTrans α fun a b => (compare (key a) (key b)).isLE = true :=
    ⟨fun a b c => Std.TransCmp.isLE_trans⟩
  exact List.pairwise_insertionSort _ l

/-- Distinct keys come in strictly increasing order. -/
theorem byKey_sorted {key : α → Bytes} {l : List α} (h : (l.map key).Nodup) :
    (byKey key l).Pairwise fun a b => Before (key a) (key b) := by
  have hne : (byKey key l).Pairwise fun a b => key a ≠ key b := by
    rw [← List.pairwise_map (f := key) (R := (· ≠ ·))]
    exact ((byKey_perm key l).map key).nodup_iff.mpr h
  refine (byKey_le key l).imp₂ ?_ hne
  intro a b hle hne
  exact (isLE_iff.mp hle).resolve_left hne

/-! ## Contents -/

/-- The bucket holds these entries and no others, each under a key of its own. -/
structure Contents (s : Store V) (bucket : Bytes) (entries : List (Bytes × V)) : Prop where
  keys : (entries.map Prod.fst).Nodup
  get : ∀ k v, s.get bucket k = some v ↔ (k, v) ∈ entries

namespace Contents

variable {s s' : Store V} {bucket k : Bytes} {v : V} {entries : List (Bytes × V)}

theorem empty (bucket : Bytes) : Contents (Store.empty : Store V) bucket [] where
  keys := List.nodup_nil
  get k v := by simp

theorem same (h : Contents s bucket entries) (hsame : SameBucket s s' bucket) :
    Contents s' bucket entries where
  keys := h.keys
  get k v := by rw [hsame.entries, h.get]

theorem not_mem (h : Contents s bucket entries) (hk : s.get bucket k = none) :
    k ∉ entries.map Prod.fst := by
  intro hmem
  obtain ⟨⟨k', v⟩, he, rfl⟩ := List.mem_map.mp hmem
  rw [(h.get k' v).mpr he] at hk
  cases hk

/-- An entry under a new key. -/
theorem added (h : Contents s bucket entries) (hk : s.get bucket k = none)
    (hget : ∀ k', s'.get bucket k' = if k = k' then some v else s.get bucket k') :
    Contents s' bucket (entries ++ [(k, v)]) where
  keys := by
    rw [List.map_append, List.nodup_append]
    refine ⟨h.keys, List.nodup_singleton k, ?_⟩
    intro a ha b hb hab
    have hb : b = k := List.mem_singleton.mp hb
    rw [hab, hb] at ha
    exact h.not_mem hk ha
  get k' v' := by
    rw [hget, List.mem_append, List.mem_singleton, ← h.get k' v']
    by_cases hkk : k = k'
    · rw [if_pos hkk, ← hkk, hk, Prod.mk.injEq, Option.some.injEq]
      simp [eq_comm]
    · rw [if_neg hkk, Prod.mk.injEq]
      simp [Ne.symm hkk]

/-- A key is cleared, whether it was in use or not. -/
theorem cleared (h : Contents s bucket entries)
    (hget : ∀ k', s'.get bucket k' = if k = k' then none else s.get bucket k') :
    Contents s' bucket (entries.filter fun e => e.1 != k) where
  keys := h.keys.sublist (List.filter_sublist.map _)
  get k' v' := by
    rw [hget, List.mem_filter, ← h.get k' v', bne_iff_ne]
    by_cases hkk : k = k'
    · rw [if_pos hkk]
      simp [hkk]
    · rw [if_neg hkk]
      simp [Ne.symm hkk]

/-- A scan is the contents in the order of the keys. -/
theorem scan_eq (h : Contents s bucket entries) : s.scan bucket = byKey Prod.fst entries := by
  refine BMap.keySorted_ext (scan_sorted s bucket) (byKey_sorted h.keys) ?_
  intro k v
  rw [mem_scan, h.get, mem_byKey]

/-- **Listings.** A scan that decodes what a log of entries was encoded to shows
the log in the order of the keys. -/
theorem listing {log : List α} {entry : α → Bytes × V} (h : Contents s bucket (log.map entry))
    {decode : V → Option β} {shown : α → β} (err : ε)
    (hdecode : ∀ a ∈ log, decode (entry a).2 = some (shown a)) :
    (s.scan bucket).mapM (fun e => orErr (decode e.2) err) =
      .ok ((byKey (fun a => (entry a).1) log).map shown) := by
  have hdec : ∀ a ∈ byKey (fun a => (entry a).1) log, decode (entry a).2 = some (shown a) :=
    fun a ha => hdecode a (mem_byKey.mp ha)
  rw [h.scan_eq, byKey_map, mapM_orErr err]
  · rw [List.filterMap_map, ← List.filterMap_eq_map]
    exact congrArg Except.ok (List.filterMap_congr hdec)
  · intro e he
    obtain ⟨a, ha, rfl⟩ := List.mem_map.mp he
    rw [hdec a ha]
    rfl

end Contents

end KoraDB.Storage.Store
