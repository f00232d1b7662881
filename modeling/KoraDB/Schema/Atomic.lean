import KoraDB.Schema.Reopen

/-!
# Registration, step by step

`register` of the registry module computes a new registry or an error. Here
`Register` is written as the source has it: a program that reads and writes the
fields of a registry in place and may leave at any of its exits with whatever
it has written by then. The steps that fail for reasons outside the state (a
read or a commit of the store, an encoder) fail as the caller of the model
chooses (`Faults`); a failed `store.Update` has been rolled back.

`registerM_run` says that every failing exit lies before the first write, and
that the program computes what `register` computes.
-/

namespace KoraDB.Schema

open KoraDB.Base KoraDB.Proto KoraDB.Catalog

/-! ## The program -/

/-- The steps of one call that fail by themselves. -/
structure Faults where
  /-- `activeSources` cannot read the store. -/
  sources : Bool := false
  /-- `protoMarshal(fdset)`. -/
  encode : Bool := false
  /-- The `View` that reads the active version. -/
  view : Bool := false
  /-- `json.Marshal(rec)`. -/
  record : Bool := false
  /-- The commit of the `Update`. -/
  commit : Bool := false
  deriving DecidableEq

inductive RegisterErr
  | schema (e : SchemaErr)
  | sources
  | encode (name : Bytes)
  | view
  | record
  | commit
  deriving DecidableEq

/-- A program over a registry. It keeps what it has written when it fails. -/
abbrev RegM := EStateM RegisterErr Registry

/-- `if err != nil { return 0, err }` on the result of a call. -/
def attempt {α : Type} (x : Except SchemaErr α) : RegM α := fun r =>
  match x with
  | .ok a => .ok a r
  | .error e => .error (.schema e) r

/-- A step that fails by itself or does nothing. -/
def failIf (fault : Bool) (e : RegisterErr) : RegM Unit := fun r =>
  if fault then .error e r else .ok () r

/-- `store.Update(fn)`: the store is replaced when `fn` and the commit succeed. -/
def update (commitFails : Bool) (fn : Store → Except SchemaErr Store) : RegM Unit := fun r =>
  match fn r.store with
  | .error e => .error (.schema e) r
  | .ok store => if commitFails then .error .commit r else .ok () { r with store := store }

/-- `Register`. -/
def registerM (env : Env) (faults : Faults) (call : RegisterCall) : RegM Nat := do
  failIf faults.sources .sources
  let collected ← attempt (compileClosure env (← get).store call.name call.source)
  let fdset := topoSort collected
  failIf faults.encode (.encode call.name)
  -- under the read lock: the map is cloned, the pointer copied
  let active ← get
  let candidateProtos := BMap.overlay active.fileProtos collected
  let candidateFiles ← attempt (buildFiles env candidateProtos)
  attempt (if active.fileProtos.contains call.name then
    wrap (ensureFileCompatible active.files candidateFiles call.name) .incompatible else .ok ())
  failIf faults.view .view
  let version := nextVersion (← get).store call.name
  let record : SchemaRecord :=
    { name := call.name, source := call.source, version := version, fdset := fdset,
      digest := env.digest fdset, createdUnix := call.createdUnix }
  failIf faults.record .record
  update faults.commit fun s => persist s record
  -- under the write lock
  modify fun r => { r with fileProtos := candidateProtos }
  modify fun r => { r with files := candidateFiles }
  return version

/-! ## Where it can fail -/

/-- The outcome of the program against that of `register`: it fails in the
state it was called in, and without faults only where `register` does; or it
returns what `register` returns, in the state `register` leaves. -/
inductive Runs (env : Env) (faults : Faults) (call : RegisterCall) (r : Registry) :
    EStateM.Result RegisterErr Registry Nat → Prop
  | fault {e : RegisterErr} : faults ≠ {} → Runs env faults call r (.error e r)
  | refused {e : SchemaErr} : accept env r call.name call.source call.createdUnix = .error e →
      Runs env faults call r (.error (.schema e) r)
  | accepted {r' : Registry} {version : Nat} :
      accept env r call.name call.source call.createdUnix = .ok (r', version) →
      Runs env faults call r (.ok version r')

section Steps

variable {α : Type} {env : Env} {faults : Faults} {call : RegisterCall} {r : Registry}

/-- A failing call before the first write is a refusal. -/
theorem runs_attempt {x : Except SchemaErr α} {f : α → RegM Nat}
    (herr : ∀ e, x = .error e →
      accept env r call.name call.source call.createdUnix = .error e)
    (hok : ∀ a, x = .ok a → Runs env faults call r ((f a).run r)) :
    Runs env faults call r ((attempt x >>= f).run r) := by
  cases x with
  | error e => exact .refused (herr e rfl)
  | ok a => exact hok a rfl

theorem runs_failIf (fault : Faults → Bool) (hnone : fault {} = false) {e : RegisterErr}
    {f : Unit → RegM Nat} (hok : Runs env faults call r ((f ()).run r)) :
    Runs env faults call r ((failIf (fault faults) e >>= f).run r) := by
  cases h : fault faults with
  | false => exact hok
  | true =>
      refine .fault fun hf => ?_
      rw [hf, hnone] at h
      cases h

/-- A failing transaction has been rolled back. -/
theorem runs_update {fn : Store → Except SchemaErr Store} {f : Unit → RegM Nat}
    (herr : ∀ e, fn r.store = .error e →
      accept env r call.name call.source call.createdUnix = .error e)
    (hok : ∀ store, fn r.store = .ok store →
      Runs env faults call r ((f ()).run { r with store := store })) :
    Runs env faults call r ((update faults.commit fn >>= f).run r) := by
  simp only [bind, EStateM.bind, EStateM.run, update]
  cases hfn : fn r.store with
  | error e => exact .refused (herr e hfn)
  | ok store =>
      cases hc : faults.commit with
      | false => exact hok store hfn
      | true =>
          refine .fault fun hf => ?_
          rw [hf] at hc
          cases hc

end Steps

/-- The record a call writes. -/
def recordOf (env : Env) (s : Store) (call : RegisterCall) (collected : BMap FileProto) :
    SchemaRecord :=
  { name := call.name, source := call.source, version := nextVersion s call.name,
    fdset := topoSort collected, digest := env.digest (topoSort collected),
    createdUnix := call.createdUnix }

/-- `accept` behind the candidate's build: the compatibility check, then the
transaction. -/
theorem accept_eq {env : Env} {r : Registry} {call : RegisterCall} {collected : BMap FileProto}
    {files : Files} (hclosure : compileClosure env r.store call.name call.source = .ok collected)
    (hfiles : buildFiles env (BMap.overlay r.fileProtos collected) = .ok files) :
    accept env r call.name call.source call.createdUnix =
      ((if r.fileProtos.contains call.name then
          wrap (ensureFileCompatible r.files files call.name) SchemaErr.incompatible
        else .ok ()) >>= fun _ =>
        persist r.store (recordOf env r.store call collected) >>= fun store =>
          .ok (⟨store, BMap.overlay r.fileProtos collected, files⟩,
            nextVersion r.store call.name)) := by
  simp only [accept, hclosure, hfiles, ok_bind]
  split
  · rfl
  · rfl

theorem registerM_run (env : Env) (faults : Faults) (call : RegisterCall) (r : Registry) :
    Runs env faults call r ((registerM env faults call).run r) := by
  refine runs_failIf (·.sources) rfl ?_
  show Runs _ _ _ r ((attempt (compileClosure env r.store call.name call.source) >>= _).run r)
  refine runs_attempt ?_ fun collected hclosure => ?_
  · intro e he
    simp only [accept, he, error_bind]
  refine runs_failIf (·.encode) rfl ?_
  show Runs _ _ _ r ((attempt (buildFiles env (BMap.overlay r.fileProtos collected)) >>= _).run r)
  refine runs_attempt ?_ fun files hfiles => ?_
  · intro e he
    simp only [accept, hclosure, he, ok_bind, error_bind]
  refine runs_attempt ?_ fun _ hcompat => ?_
  · intro e he
    rw [accept_eq hclosure hfiles, he, error_bind]
  refine runs_failIf (·.view) rfl ?_
  refine runs_failIf (·.record) rfl ?_
  -- what is left is the transaction and the activation
  have haccept := accept_eq hclosure hfiles
  rw [hcompat, ok_bind] at haccept
  show Runs _ _ _ r ((update faults.commit
    (fun s => persist s (recordOf env r.store call collected)) >>= _).run r)
  refine runs_update ?_ fun store hstore => ?_
  · intro e he
    rw [haccept, he, error_bind]
  · rw [hstore, ok_bind] at haccept
    exact .accepted haccept

/-- Nothing is written by a call that fails. -/
theorem registerM_cases (env : Env) (faults : Faults) (call : RegisterCall) (r : Registry) :
    (∃ e, (registerM env faults call).run r = .error e r) ∨
      ∃ r' version collected, (registerM env faults call).run r = .ok version r' ∧
        Accepted env r r' call.name call.source call.createdUnix version collected := by
  have hrun := registerM_run env faults call r
  generalize (registerM env faults call).run r = out at hrun
  cases hrun with
  | fault _ => exact .inl ⟨_, rfl⟩
  | refused _ => exact .inl ⟨_, rfl⟩
  | accepted h =>
      obtain ⟨collected, hacc⟩ := accept_eq_ok h
      exact .inr ⟨_, _, collected, rfl, hacc⟩

/-- Without faults the program is `register`. -/
theorem registerM_eq_register (env : Env) (call : RegisterCall) (r : Registry) :
    (registerM env {} call).run r =
      match register env r call.name call.source call.createdUnix with
      | (r', .ok version) => .ok version r'
      | (r', .error e) => .error (.schema e) r' := by
  have hrun := registerM_run env {} call r
  generalize (registerM env {} call).run r = out at hrun
  unfold register
  cases hrun with
  | fault h => exact absurd rfl h
  | refused h => rw [h]
  | accepted h => rw [h]

end KoraDB.Schema
