import KoraDB.Engine.Database
import KoraDB.System.Machine

/-!
# Collections are isolated

All buckets live in one namespace, under names put together from the caller's
strings without escaping: `data:c` for the documents of `c`, `idx:c:f` for the
index of its field `f`. A collection may be called `__auth_keys__`, or `a:b`
beside a collection `a` with an index on `b`. No two of these buckets coincide
all the same: the first letters tell the sorts apart, and since a field name
is an identifier, the last colon of an index bucket ends the collection's name.
-/

namespace KoraDB.System

open KoraDB.Base KoraDB.Proto KoraDB.Catalog KoraDB.Schema KoraDB.Engine

/-- The buckets of a collection coincide with none of another collection, of
another of its fields, or with a reserved one. -/
structure BucketsApart (c : Bytes) : Prop where
  data : ∀ c', dataBucket c = dataBucket c' → c = c'
  index : ∀ (f : Ident) (c' : Bytes) (f' : Ident),
    Index.bucket c f.val = Index.bucket c' f'.val → c = c' ∧ f = f'
  sorts : ∀ (f : Ident) (c' : Bytes),
    dataBucket c ≠ Index.bucket c' f.val ∧ Index.bucket c f.val ≠ dataBucket c'
  reserved : ∀ b ∈ reservedBuckets, dataBucket c ≠ b ∧ ∀ f : Ident, Index.bucket c f.val ≠ b

theorem bucketsApart (c : Bytes) : BucketsApart c where
  data _ h := dataBucket_inj h
  index _ _ _ h := Index.bucket_inj h
  sorts f c' := ⟨(indexBucket_ne_dataBucket c' f.val c).symm, indexBucket_ne_dataBucket c f.val c'⟩
  reserved b hb := by
    have hdoc := reserved_not_doc b hb
    refine ⟨?_, ?_⟩
    · intro heq
      rw [← heq, isDocBucket_data] at hdoc
      cases hdoc
    · intro f heq
      rw [← heq, isDocBucket_index] at hdoc
      cases hdoc

/-- Whatever a document operation on a well-named collection touches is its
own. -/
theorem docCall_own {codec : Codec} {fs : Files} {s : Store} {call : Call} {c b : Bytes}
    (hname : ∀ cm, getMeta s c = .ok cm → cm.name = c) (hcall : call.target = some c)
    (hdata : b ≠ dataBucket c) (hindex : ∀ f : Ident, b ≠ Index.bucket c f.val) :
    Storage.Store.SameBucket s (Engine.step codec fs s call) b := by
  rcases @docCall_frame codec fs s call c hcall with h | ⟨cm, hcm, h⟩
  · rw [h]
    exact .refl s b
  · rw [hname cm hcm] at h
    exact h b hdata hdata hindex

/-- **Isolation.** In every reachable database, an insert, update or delete on
a collection with a valid UTF-8 name leaves the documents, the key sequence and
the indexes of every other collection as they were, and every reserved
bucket. -/
theorem collections_isolated (w : World) (ops : List Op) {c c' : Bytes}
    (hc : validString c = true) (hne : c ≠ c') {call : Call} (hcall : call.target = some c) :
    let s := (reached w ops).store
    let s' := (reached w (ops ++ [.call call])).store
    Storage.Store.SameBucket s s' (dataBucket c') ∧
      (∀ f : Ident, Storage.Store.SameBucket s s' (Index.bucket c' f.val)) ∧
      (∀ b ∈ reservedBuckets, Storage.Store.SameBucket s s' b) ∧
      BucketsApart c := by
  intro s s'
  have hname : ∀ cm, getMeta s c = .ok cm → cm.name = c := fun cm => named_run w ops c cm hc
  have hs' : s' = Engine.step w.codec (reached w ops).files s call := by
    show (reached w (ops ++ [.call call])).store = _
    rw [reached_concat]
    rfl
  have hapart := bucketsApart c
  rw [hs']
  refine ⟨?_, ?_, ?_, hapart⟩
  · exact docCall_own hname hcall (fun heq => hne (hapart.data c' heq.symm))
      fun f heq => (hapart.sorts f c').2 heq.symm
  · intro f
    exact docCall_own hname hcall (indexBucket_ne_dataBucket c' f.val c)
      fun f' heq => hne (hapart.index f' c' f heq.symm).1
  · intro b hb
    obtain ⟨hdata, hindex⟩ := hapart.reserved b hb
    exact docCall_own hname hcall hdata.symm fun f => (hindex f).symm

/-- The tickets of the desk, and a collection named like the index on their
level. -/
theorem collections_isolated_desk :
    let w : World := ⟨deskEnv, deskCodec, id⟩
    let ops : List Op := [.register {} ⟨ascii "ticket.proto", ticket1, 0⟩,
      .call (.createCollection (ascii "tickets") (ascii "desk.Ticket") ⟨[], [ascii "level"]⟩),
      .call (.createCollection (ascii "tickets:level") (ascii "desk.Ticket") ⟨[], []⟩),
      .call (.insert (ascii "tickets:level") textT1)]
    let insert : Op := .call (.insert (ascii "tickets") textT2)
    (reached w ops).store.sequence (dataBucket (ascii "tickets")) = 0 ∧
      (reached w (ops ++ [insert])).store.sequence (dataBucket (ascii "tickets")) = 1 ∧
      Storage.Store.SameBucket (reached w ops).store (reached w (ops ++ [insert])).store
        (dataBucket (ascii "tickets:level")) := by
  intro w ops insert
  refine ⟨by decide +kernel, by decide +kernel, ?_⟩
  exact (collections_isolated w ops (by decide) (by decide) rfl).1

end KoraDB.System
