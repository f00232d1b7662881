import KoraDB.Auth.Ledger
import KoraDB.Engine.Invariant
import KoraDB.Schema.History

/-!
# The program over one store

Everything that writes a KoraDB file: registrations of schemas, calls on
collections and documents, calls on API keys, and restarts, in any order. The
state is the registry, which holds the store and the descriptors the engine
resolves names in.

Each kind of operation has its own buckets, told apart by their names. A
definition of a collection with a valid UTF-8 name carries that name in every
reachable state (`named_run`), whatever else is in the store.
-/

namespace KoraDB.System

open KoraDB.Base KoraDB.Proto KoraDB.Catalog KoraDB.Schema KoraDB.Engine

/-- What the program takes from other packages: the protobuf compiler and
`protodesc`, `protojson`, and SHA-256. -/
structure World where
  env : Env
  codec : Codec
  sha256 : Bytes → Bytes

inductive Op
  | register (faults : Faults) (call : RegisterCall)
  | call (call : Call)
  | key (call : Auth.KeyCall)
  | restart

def step (w : World) (r : Registry) : Op → Registry
  | .register faults call => stepEvent w.env r (.register faults call)
  | .call call => { r with store := Engine.step w.codec r.files r.store call }
  | .key call => { r with store := Auth.step w.sha256 r.store call }
  | .restart => stepEvent w.env r .restart

/-- The registry after a sequence of operations on a new database. -/
def reached (w : World) (ops : List Op) : Registry := run (step w) Registry.initial ops

theorem reached_concat (w : World) (ops : List Op) (op : Op) :
    reached w (ops ++ [op]) = step w (reached w ops) op := run_concat ..

theorem reached_append (w : World) (ops more : List Op) :
    reached w (ops ++ more) = run (step w) (reached w ops) more := run_append ..

/-- An invariant of the program: what holds of a new store and what every
operation keeps. -/
theorem reached_kept {w : World} {P : Registry → Prop} (h0 : P Registry.initial)
    (hstep : ∀ r op, P r → P (step w r op)) (ops : List Op) : P (reached w ops) :=
  run_kept h0 fun r op _ hr => hstep r op hr

/-! ## Buckets -/

/-- The buckets with fixed names. -/
def reservedBuckets : List Bytes :=
  [collectionsBucket, schemaBucket, schemaHistoryBucket, Auth.keysBucket]

theorem reserved_not_doc : ∀ b ∈ reservedBuckets, isDocBucket b = false := by decide

/-- The buckets of collections are touched by calls on them only. -/
theorem step_sameBucket {w : World} {r : Registry} {op : Op} (hop : ∀ call, op ≠ .call call)
    {b : Bytes} (hb : isDocBucket b = true ∨ b = collectionsBucket) :
    Storage.Store.SameBucket r.store (step w r op).store b := by
  have hne : ∀ b' ∈ reservedBuckets, b' ≠ collectionsBucket → b ≠ b' := by
    intro b' hmem hother heq
    rcases hb with hb | hb
    · rw [heq, reserved_not_doc b' hmem] at hb
      cases hb
    · exact hother (heq.symm.trans hb)
  have hschema := hne schemaBucket (by decide) (by decide)
  have hhistory := hne schemaHistoryBucket (by decide) (by decide)
  cases op with
  | call call => exact absurd rfl (hop call)
  | register faults call => exact stepEvent_sameBucket w.env r _ hschema hhistory
  | restart => exact stepEvent_sameBucket w.env r _ hschema hhistory
  | key call =>
      exact Auth.step_sameBucket w.sha256 r.store call
        (hne Auth.keysBucket (by decide) (by decide))

theorem step_getMeta {w : World} {r : Registry} {op : Op} (hop : ∀ call, op ≠ .call call)
    (c : Bytes) : getMeta (step w r op).store c = getMeta r.store c :=
  getMeta_congr ((step_sameBucket hop (.inr rfl)).entries c)

/-- A document was there before the operation, or is the one it inserted. -/
theorem stored_op {w : World} {r : Registry} {op : Op} {c k : Bytes} {b : Blob}
    (hget : (step w r op).store.get (dataBucket c) k = some b) :
    (∃ b, r.store.get (dataBucket c) k = some b) ∨
      ∃ json id cm msg s₁, op = .call (.insert c json) ∧ getMeta r.store c = .ok cm ∧
        Placed r.files r.store s₁ cm msg k id ∧
        ∀ b, (step w r op).store.sequence b = s₁.sequence b := by
  by_cases hop : ∃ call, op = .call call
  · obtain ⟨call, rfl⟩ := hop
    rcases stored_step hget with h | ⟨json, id, cm, msg, s₁, rfl, h⟩
    · exact .inl h
    · exact .inr ⟨json, id, cm, msg, s₁, rfl, h⟩
  · have hsame := @step_sameBucket w r op (fun call heq => hop ⟨call, heq⟩) (dataBucket c)
      (.inl (isDocBucket_data c))
    rw [hsame.entries] at hget
    exact .inl ⟨b, hget⟩

theorem step_getMeta_kept {w : World} {r : Registry} {c : Bytes} {cm : CollectionMeta}
    (hcm : getMeta r.store c = .ok cm) (op : Op) : getMeta (step w r op).store c = .ok cm := by
  by_cases hop : ∃ call, op = .call call
  · obtain ⟨call, rfl⟩ := hop
    exact getMeta_step hcm call
  · rw [step_getMeta fun call heq => hop ⟨call, heq⟩]
    exact hcm

theorem reached_getMeta_kept {w : World} {ops : List Op} {c : Bytes} {cm : CollectionMeta}
    (hcm : getMeta (reached w ops).store c = .ok cm) (more : List Op) :
    getMeta (reached w (ops ++ more)).store c = .ok cm := by
  rw [reached_append]
  exact run_kept (P := fun r : Registry => getMeta r.store c = .ok cm) hcm
    fun r op _ hr => step_getMeta_kept hr op

/-- The bucket of keys is touched by calls on keys only. -/
theorem step_keysBucket {w : World} {r : Registry} {op : Op} (hop : ∀ call, op ≠ .key call) :
    Storage.Store.SameBucket r.store (step w r op).store Auth.keysBucket := by
  cases op with
  | key call => exact absurd rfl (hop call)
  | register faults call => exact stepEvent_sameBucket w.env r _ (by decide) (by decide)
  | restart => exact stepEvent_sameBucket w.env r _ (by decide) (by decide)
  | call call =>
      cases htarget : call.target with
      | none => exact createCall_sameBucket htarget (by decide)
      | some coll => exact docCall_sameBucket htarget (by decide)

/-- Every key of a reached database was granted by an accepted request. -/
theorem minted_reached (w : World) (ops : List Op) :
    Auth.Minted w.sha256 (reached w ops).store := by
  refine reached_kept (P := fun r => Auth.Minted w.sha256 r.store) Auth.minted_empty ?_ ops
  intro r op hr
  by_cases hop : ∃ call, op = .key call
  · obtain ⟨call, rfl⟩ := hop
    exact Auth.minted_step hr call
  · intro k b hget
    rw [(step_keysBucket fun call heq => hop ⟨call, heq⟩).entries k] at hget
    exact hr k b hget

/-! ## Definitions -/

/-- A definition stored under a valid UTF-8 name carries that name. -/
def Named (s : Store) : Prop :=
  ∀ c cm, validString c = true → getMeta s c = .ok cm → cm.name = c

theorem named_call {codec : Codec} {fs : Files} {s : Store} (hs : Named s) (call : Call) :
    Named (Engine.step codec fs s call) := by
  intro c cm hc hcm
  have heff := exec_effect codec fs s call
  generalize Engine.step codec fs s call = s' at heff hcm
  generalize (exec codec fs s call).2 = res at heff
  cases heff with
  | failed | absent _ _ _ => exact hs c cm hc hcm
  | created h =>
      rename_i name messageType opts cm'
      obtain ⟨md, hmd, rfl, hkey, hidx, _, hget, _⟩ := createCollection_eq_ok h
      by_cases hname : name = c
      · obtain ⟨b, hb, hread⟩ := getMeta_eq_ok_iff.mp hcm
        rw [hget, if_pos ⟨rfl, hname⟩] at hb
        cases hb
        rw [newMeta_unmarshal hmd hkey hidx] at hread
        rw [← Option.some.inj hread]
        show toValidUTF8 name = c
        rw [hname, toValidUTF8_eq_self hc]
      · rw [getMeta_congr ((create_frame hget).1 c hname)] at hcm
        exact hs c cm hc hcm
  | inserted _ _ _ _ _ h | replaced _ _ _ _ _ _ h | removed _ _ _ _ _ h =>
      rw [getMeta_congr (h.get_collections c)] at hcm
      exact hs c cm hc hcm

theorem named_step {w : World} {r : Registry} (hr : Named r.store) (op : Op) :
    Named (step w r op).store := by
  by_cases hop : ∃ call, op = .call call
  · obtain ⟨call, rfl⟩ := hop
    exact named_call hr call
  · intro c cm hc hcm
    rw [step_getMeta fun call heq => hop ⟨call, heq⟩] at hcm
    exact hr c cm hc hcm

theorem named_run (w : World) (ops : List Op) : Named (reached w ops).store := by
  refine reached_kept (P := fun r => Named r.store) ?_ (fun r op hr => named_step hr op) ops
  intro c cm _ hcm
  exact absurd hcm (getMeta_empty c cm)

end KoraDB.System
