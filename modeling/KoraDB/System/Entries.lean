import KoraDB.Query.IndexOrder
import KoraDB.System.Ids

/-!
# Entries that two documents share

An index entry is a value, a NUL and a primary key, and a lookup reads all
entries that begin with its value and a NUL. Two pairs of a collection share an
entry in one case only: values and keys are strings, and one value goes on
behind the other with a NUL. In the same case only does a lookup find a stored
key through an entry of another value; elsewhere the candidate it cuts out of
such an entry is the key of no document.
-/

namespace KoraDB.System

open KoraDB.Base KoraDB.Proto KoraDB.Catalog KoraDB.Schema KoraDB.Engine

/-- One of the two is the other one, a NUL, and possibly more. -/
def NulApart (a b : Bytes) : Prop :=
  (∃ rest, a = b ++ Index.sep :: rest) ∨ ∃ rest, b = a ++ Index.sep :: rest

theorem NulApart.symm {a b : Bytes} (h : NulApart a b) : NulApart b a := Or.symm h

section Pairs

variable {fd : FieldDesc} {kind : Kind} {x x' : Scalar} {v v' : KeyVal} {enc enc' : Bytes}

theorem encodeValue_string (hfd : fd.kind = .string) (henc : Index.encodeValue fd x = .ok enc) :
    enc = x.toStr := by
  unfold Index.encodeValue at henc
  rw [hfd] at henc
  exact (Except.ok.inj henc).symm

/-- A shared entry of string values. -/
theorem nulApart_of_continues (hv : v.hasKind kind) (hv' : v'.hasKind kind)
    (henc : Index.encodeValue fd x = .ok enc) (henc' : Index.encodeValue fd x' = .ok enc')
    (h : Index.Continues enc v.storageKey enc' v'.storageKey) :
    fd.kind = .string ∧ kind = .string ∧ NulApart x.toStr x'.toStr := by
  obtain ⟨hfd, hkind⟩ := strings_of_continues hv hv' henc henc' h
  refine ⟨hfd, hkind, .inr ?_⟩
  obtain ⟨rest, hvalue, _⟩ := h
  rw [encodeValue_string hfd henc, encodeValue_string hfd henc'] at hvalue
  exact ⟨rest, hvalue⟩

/-- Distinct pairs share an entry in the NUL case only. -/
theorem nulApart_of_entryKey (hx : x.hasKind fd.kind = true) (hx' : x'.hasKind fd.kind = true)
    (hv : v.hasKind kind) (hv' : v'.hasKind kind) (henc : Index.encodeValue fd x = .ok enc)
    (henc' : Index.encodeValue fd x' = .ok enc') (hne : (x, v) ≠ (x', v'))
    (h : Index.entryKey enc v.storageKey = Index.entryKey enc' v'.storageKey) :
    fd.kind = .string ∧ kind = .string ∧ NulApart x.toStr x'.toStr := by
  rcases Index.entryKey_eq_iff.mp h with ⟨hvalue, hkey⟩ | hcont | hcont
  · -- one encoding and one storage key are one value and one key
    subst hvalue
    rw [Query.encodeValue_inj hx hx' henc henc', KeyVal.storageKey_inj hv hv' hkey] at hne
    exact absurd rfl hne
  · exact nulApart_of_continues hv hv' henc henc' hcont
  · obtain ⟨hfd, hkind, hapart⟩ := nulApart_of_continues hv' hv henc' henc hcont
    exact ⟨hfd, hkind, hapart.symm⟩

/-- And in every NUL case there are keys with which two pairs do. -/
theorem exists_shared_entry (hapart : NulApart x.toStr x'.toStr) (hfd : fd.kind = .string)
    (henc : Index.encodeValue fd x = .ok enc) (henc' : Index.encodeValue fd x' = .ok enc') :
    ∃ k k' : Bytes, k ≠ [] ∧ k' ≠ [] ∧ Index.entryKey enc k = Index.entryKey enc' k' := by
  rw [encodeValue_string hfd henc, encodeValue_string hfd henc']
  rcases hapart with ⟨rest, hrest⟩ | ⟨rest, hrest⟩
  · refine ⟨ascii "k", rest ++ Index.sep :: ascii "k", by decide, by simp, ?_⟩
    exact Index.entryKey_eq_iff.mpr (.inr (.inr ⟨rest, hrest, rfl⟩))
  · refine ⟨rest ++ Index.sep :: ascii "k", ascii "k", by simp, by decide, ?_⟩
    exact Index.entryKey_eq_iff.mpr (.inr (.inl ⟨rest, hrest, rfl⟩))

end Pairs

/-- A lookup by `lit` that comes upon an entry of another value cuts a candidate
out of it that is no key of the collection, the NUL case apart. -/
theorem lookup_stray {parseFloat : ParseFloat} {fs : Files} {s : Store} {cm : CollectionMeta}
    {field value : Bytes} {keys : List Bytes} {md : MessageDesc} {fd : FieldDesc} {lit : Scalar}
    {enc c : Bytes} {kind : Kind} (hmd : fs.findMessage cm.messageType = some md)
    (hfd : md.byName field = some fd) (hlit : scalarValueFromString parseFloat fd value = .ok lit)
    (henc : Index.encodeValue fd lit = .ok enc)
    (hkeys : lookupByIndex parseFloat fs s cm field value = .ok keys)
    (hkind : KeysOfKind s c kind) {x : Scalar} {v : KeyVal} {encx : Bytes}
    (hx : x.hasKind fd.kind = true) (hv : v.hasKind kind)
    (hencx : Index.encodeValue fd x = .ok encx) (hne : x ≠ lit)
    (hentry : s.has (Index.bucket cm.name field) (Index.entryKey encx v.storageKey) = true)
    (hpre : (Index.lookupPrefix enc).isPrefixOf (Index.entryKey encx v.storageKey) = true) :
    let k := Index.primaryKeyFromEntry (Index.entryKey encx v.storageKey) enc.length
    k ∈ keys ∧ (s.get (dataBucket c) k = none ∨
      fd.kind = .string ∧ kind = .string ∧ NulApart lit.toStr x.toStr) := by
  obtain ⟨k, hk⟩ := Index.isPrefixOf_entryKey_iff.mp hpre
  obtain ⟨md', fd', lit', enc', hmd', hfd', hlit', henc', _, hmem⟩ := lookupByIndex_eq_ok hkeys
  rw [hmd] at hmd'
  cases hmd'
  rw [hfd] at hfd'
  cases hfd'
  rw [hlit] at hlit'
  cases hlit'
  rw [henc] at henc'
  cases henc'
  rw [hk, Index.primaryKeyFromEntry_entryKey]
  refine ⟨(hmem k).mpr (by rw [← hk]; exact hentry), ?_⟩
  cases hget : s.get (dataBucket c) k with
  | none => exact .inl rfl
  | some b =>
      obtain ⟨u, hu, rfl⟩ := hkind k b hget
      have hlitKind := (Query.scalarValueFromString_kind hlit).2
      have hpair : (lit, u) ≠ (x, v) := fun heq => hne (Prod.mk.inj heq).1.symm
      exact .inr (nulApart_of_entryKey hlitKind hx hu hv henc hencx hpair hk.symm)

/-- **Ambiguity is the NUL case.** For every field and key kind: two distinct
pairs of a value and a key share an entry only if both are strings and one value
is the other, a NUL, and possibly more; and any two such values do share an entry
under some keys. A lookup that comes upon an entry of another value cuts a
candidate out of it that is not stored in the collection, except in that same
case. The keys of a collection have its kind in every state of a run in which
the key field keeps it. -/
theorem entry_ambiguity (fd : FieldDesc) (kind : Kind) :
    (∀ (x x' : Scalar) (v v' : KeyVal) (enc enc' : Bytes), x.hasKind fd.kind = true →
      x'.hasKind fd.kind = true → v.hasKind kind → v'.hasKind kind →
      Index.encodeValue fd x = .ok enc → Index.encodeValue fd x' = .ok enc' →
      (x, v) ≠ (x', v') →
      Index.entryKey enc v.storageKey = Index.entryKey enc' v'.storageKey →
      fd.kind = .string ∧ kind = .string ∧ NulApart x.toStr x'.toStr) ∧
    (fd.kind = .string → kind = .string → ∀ (x x' : Scalar) (enc enc' : Bytes),
      Index.encodeValue fd x = .ok enc → Index.encodeValue fd x' = .ok enc' →
      NulApart x.toStr x'.toStr → ∃ v v' : KeyVal, v.hasKind kind ∧ v'.hasKind kind ∧
        v.storageKey ≠ [] ∧ v'.storageKey ≠ [] ∧
        Index.entryKey enc v.storageKey = Index.entryKey enc' v'.storageKey) ∧
    (∀ (parseFloat : ParseFloat) (fs : Files) (s : Store) (cm : CollectionMeta)
      (field value : Bytes) (keys : List Bytes) (md : MessageDesc) (lit : Scalar)
      (enc c : Bytes), fs.findMessage cm.messageType = some md → md.byName field = some fd →
      scalarValueFromString parseFloat fd value = .ok lit → Index.encodeValue fd lit = .ok enc →
      lookupByIndex parseFloat fs s cm field value = .ok keys → KeysOfKind s c kind →
      ∀ (x : Scalar) (v : KeyVal) (encx : Bytes), x.hasKind fd.kind = true → v.hasKind kind →
      Index.encodeValue fd x = .ok encx → x ≠ lit →
      s.has (Index.bucket cm.name field) (Index.entryKey encx v.storageKey) = true →
      (Index.lookupPrefix enc).isPrefixOf (Index.entryKey encx v.storageKey) = true →
      let k := Index.primaryKeyFromEntry (Index.entryKey encx v.storageKey) enc.length
      k ∈ keys ∧ (s.get (dataBucket c) k = none ∨
        fd.kind = .string ∧ kind = .string ∧ NulApart lit.toStr x.toStr)) ∧
    ∀ (w : World) (ops : List Op) (c : Bytes), OneKeyKind w ops c kind →
      KeysOfKind (reached w ops).store c kind := by
  refine ⟨?_, ?_, ?_, ?_⟩
  · intro x x' v v' enc enc' hx hx' hv hv' henc henc' hne h
    exact nulApart_of_entryKey hx hx' hv hv' henc henc' hne h
  · intro hfd hkind x x' enc enc' henc henc' hapart
    obtain ⟨k, k', hk, hk', heq⟩ := exists_shared_entry hapart hfd henc henc'
    subst hkind
    exact ⟨.str k, .str k', trivial, trivial, hk, hk', heq⟩
  · intro parseFloat fs s cm field value keys md lit enc c hmd hfd hlit henc hkeys hkind x v encx
      hx hv hencx hne hentry hpre
    exact lookup_stray hmd hfd hlit henc hkeys hkind hx hv hencx hne hentry hpre
  · intro w ops c hkind
    exact keysOfKind_reached hkind

/-! ## A tag with a NUL -/

/-- Two items without keys of their own, tagged `a`, and `a`, a NUL and `b`. -/
def tagged : Store :=
  let plain := ascii "\x7b\"tag\":\"a\"\x7d"
  let split := ascii "\x7b\"tag\":\"a\\u0000b\"\x7d"
  let codec := tableCodec [(plain, .scalar 2 .string (.str (ascii "a")) .nil),
    (split, .scalar 2 .string (.str (ascii "a" ++ 0x00 :: ascii "b")) .nil)]
  run (Engine.step codec itemFiles) .empty
    [.createCollection (ascii "items") itemName ⟨[], [ascii "tag"]⟩,
      .insert (ascii "items") plain, .insert (ascii "items") split]

/-- Under string keys the two tags can share an entry. Under automatic ones the
lookup of `a` finds a candidate in the entry of the other tag, and no document
has it for a key. -/
theorem entry_ambiguity_tags :
    NulApart (ascii "a") (ascii "a" ++ 0x00 :: ascii "b") ∧
    let k := ascii "b" ++ 0x00 :: be64 2
    let cm : CollectionMeta := ⟨ascii "items", itemName, .auto, [], [ascii "tag"]⟩
    lookupByIndex noFloat itemFiles tagged cm (ascii "tag") (ascii "a") = .ok [be64 1, k] ∧
      tagged.get (dataBucket (ascii "items")) k = none := by
  constructor
  · exact ((entry_ambiguity tagField .string).1 (.str (ascii "a"))
      (.str (ascii "a" ++ 0x00 :: ascii "b")) (.str (ascii "b" ++ 0x00 :: ascii "k"))
      (.str (ascii "k")) _ _ rfl rfl trivial trivial rfl rfl (by decide) (by decide)).2.2
  · intro k cm
    have hrun : lookupByIndex noFloat itemFiles tagged cm (ascii "tag") (ascii "a") =
          .ok [be64 1, k] ∧
        (tagged.scan (dataBucket (ascii "items"))).map Prod.fst = [be64 1, be64 2] ∧
        tagged.has (Index.bucket (ascii "items") (ascii "tag"))
          (Index.entryKey (ascii "a" ++ 0x00 :: ascii "b") (be64 2)) = true := by
      decide +kernel
    obtain ⟨hkeys, hscan, hentry⟩ := hrun
    have hkind : KeysOfKind tagged (ascii "items") .uint64 := by
      intro k b hget
      have hmem : k ∈ [be64 1, be64 2] := by
        rw [← hscan]
        exact List.mem_map.mpr ⟨(k, b), Storage.Store.mem_scan.mpr hget, rfl⟩
      rcases List.mem_cons.mp hmem with rfl | hmem
      · exact ⟨.int 1, by simp [KeyVal.hasKind], rfl⟩
      · rw [List.mem_singleton.mp hmem]
        exact ⟨.int 2, by simp [KeyVal.hasKind], rfl⟩
    obtain ⟨_, hnone | ⟨_, hstring, _⟩⟩ := (entry_ambiguity tagField .uint64).2.2.1 noFloat
      itemFiles tagged cm (ascii "tag") (ascii "a") _ itemDesc (.str (ascii "a")) (ascii "a")
      (ascii "items") rfl rfl rfl rfl hkeys hkind
      (.str (ascii "a" ++ 0x00 :: ascii "b")) (.int 2) _ rfl (by simp [KeyVal.hasKind]) rfl
      (by decide) hentry (by decide)
    · exact ⟨hkeys, hnone⟩
    · cases hstring

end KoraDB.System
