import KoraDB.Recovery.Limits

/-!
# The name of the staging file

`os.CreateTemp` picks a random name that is not in use. The rollback path is not
in use either, nor is a new destination, so a caller who names one of them like a
staging file can meet a draw of the same name, and nothing in `Restore` looks for
it. `restore_safe` has both directions: with a staging file of its own name a
restore loses no database, whatever fails; and a restore that nothing else stands
in the way of, with a staging file of one of the two names, can be made to.
-/

namespace KoraDB.Recovery

open KoraDB.Base KoraDB.Base.Steps

/-! ## Traces of a restore -/

theorem traces_rename (fails : Bool) (src dst : Bytes) (e : Nat × RestoreErr) :
    Traces (rename fails src dst e) :=
  traces_bind traces_look fun _ => traces_bind (traces_failIf _ _) fun _ => traces_change _

theorem traces_copy (faults : Faults) (staged : Bytes) (chunks : List Bytes) (limit written : Nat) :
    Traces (copy faults staged limit written chunks) := by
  induction chunks generalizing limit written with
  | nil => exact traces_bind (traces_failIf _ _) fun _ => traces_pure _
  | cons chunk rest ih =>
      unfold copy
      split
      · exact traces_pure _
      · cases faults.write rest.length with
        | some k => exact traces_bind (traces_change _) fun _ => traces_throw _
        | none => exact traces_bind (traces_change _) fun _ => ih _ _

theorem traces_stage (v : Verifier) (faults : Faults) (stream : Stream) (options : Options)
    (staged : Bytes) : Traces (stage v faults stream options staged) :=
  traces_bind (traces_failIf _ _) fun _ => traces_bind (traces_copy _ _ _ _ _) fun _ =>
    traces_bind (traces_failIf _ _) fun _ => traces_bind (traces_failIf _ _) fun _ =>
      traces_bind (traces_failIf _ _) fun _ => traces_bind traces_look fun _ =>
        traces_bind (traces_failIf _ _) fun _ => traces_pure _

theorem traces_publish (faults : Faults) (destinationExists : Bool)
    (destination rollbackPath staged : Bytes) (n : Nat) :
    Traces (publish faults destinationExists destination rollbackPath staged n) := by
  cases destinationExists with
  | false => exact traces_bind (traces_rename _ _ _ _) fun _ => traces_pure _
  | true =>
      refine traces_bind (traces_rename _ _ _ _) fun _ => traces_bind ?_ fun _ => traces_pure _
      exact traces_recover (traces_rename _ _ _ _) fun e =>
        traces_bind (traces_rename _ _ _ _) fun _ => traces_throw e

section

variable (v : Verifier) (faults : Faults) (stream : Stream) (options : Options)
  (destinationExists : Bool) (destination rollbackPath staged : Bytes)

/-- From the creation of the staging file on. -/
theorem traces_staged : Traces
    (recover
      (do
        let bytesWritten ← stage v faults stream options staged
        publish faults destinationExists destination rollbackPath staged bytesWritten)
      fun e => do
        change (put staged none)
        throw e) :=
  traces_recover
    (traces_bind (traces_stage _ _ _ _ _) fun _ => traces_publish _ _ _ _ _ _)
    fun e => traces_bind (traces_change _) fun _ => traces_throw e

theorem traces_restoreStaged : Traces
    (restoreStaged v faults stream options destinationExists destination rollbackPath staged) :=
  traces_bind traces_look fun _ => traces_bind (traces_failIf _ _) fun _ =>
    traces_bind (traces_change _) fun _ => traces_staged _ _ _ _ _ _ _ _

end

/-! ## Restores that nothing refuses -/

/-- Nothing stands in the way of a restore but what may fail in it. -/
structure Attempted (v : Verifier) (random : Nat) (stream : Stream) (destination : Bytes)
    (options : Options) (d : Dir) : Prop where
  named : destination ≠ []
  limit : options.maxBytes < 2 ^ 63 - 1
  verified : v.verify stream.chunks.flatten = true
  fits : (stream.chunks.flatten.length : Int) ≤ options.maxBytes
  able : Restorable d (Path.clean destination) options
  free : d (stagingPath (Path.clean destination) random) = none

section

variable {v : Verifier} {faults : Faults} {random : Nat} {stream : Stream} {options : Options}
  {d : Dir} {destination rollbackPath staged : Bytes}

/-- An empty file is no snapshot. -/
theorem verified_ne_nil {whole : Bytes} (h : v.verify whole = true) : whole ≠ [] := by
  rintro rfl
  rw [v.verify_empty] at h
  cases h

theorem Attempted.positive (h : Attempted v random stream destination options d) :
    0 < options.maxBytes := by
  have hlength := List.length_pos_iff.mpr (verified_ne_nil h.verified)
  have hfits := h.fits
  omega

/-- The whole snapshot comes to be staged. -/
theorem Attempted.spec_stage (h : Attempted v random stream destination options d)
    (hspare : faults.SpareStaging) :
    Spec (fun _ => True) (fun s => s = put staged (some (.file [])) d)
      (stage v faults stream options staged)
      (fun n s => s = put staged (some (.file stream.chunks.flatten)) d ∧
        n = stream.chunks.flatten.length)
      (fun _ _ => False) := by
  have hlimit := h.limit
  have houtcome : ∀ {ε : Type} {tooLarge invalid : ε}, limitOutcome options.maxBytes
      stream.chunks.flatten.length tooLarge invalid = .ok stream.chunks.flatten.length := by
    intro ε tooLarge invalid
    rw [limitOutcome, if_neg (by omega), if_pos h.fits]
  refine spec_conseq (spec_stage_total hspare h.positive h.verified) (fun s hs => hs) ?_ ?_
  · rintro n s ⟨hs, hn⟩
    rw [houtcome] at hn
    exact ⟨hs, (Except.ok.inj hn).symm⟩
  · rintro e s ⟨_, he⟩
    rw [houtcome] at he
    cases he

theorem spec_rename_total {src dst : Bytes} {e : Nat × RestoreErr} {s₀ : Dir}
    (hsome : (s₀ src).isSome = true) :
    Spec (fun _ => True) (fun s => s = s₀) (rename false src dst e)
      (fun _ s => s = move src dst s₀) (fun _ _ => False) := by
  refine spec_look_at (spec_check ?_ fun _ => spec_change ?_)
  · intro s _ hfails
    rw [Bool.false_or, Option.isNone_iff_eq_none] at hfails
    rw [hfails] at hsome
    cases hsome
  · rintro s rfl
    exact ⟨trivial, rfl⟩

theorem isSome_of_present {e : Option Entry} (h : present e = true) : e.isSome = true := by
  cases e with
  | none => cases h
  | some e => rfl

/-- The staging file of a restore is created. -/
theorem spec_restoreStaged_created {destinationExists : Bool} {post : Nat → Dir → Prop}
    {fail : Nat × RestoreErr → Dir → Prop} {R : Nat × RestoreErr → Dir → Prop}
    (hcreate : faults.createTemp = false) (hfree : d staged = none)
    (h : Spec (fun _ => True) (fun s => s = put staged (some (.file [])) d)
      (do
        let bytesWritten ← stage v faults stream options staged
        publish faults destinationExists destination rollbackPath staged bytesWritten) post R)
    (hfail : ∀ e s, R e s → fail e (put staged none s)) :
    Spec (fun _ => True) (fun s => s = d)
      (restoreStaged v faults stream options destinationExists destination rollbackPath staged)
      post fail := by
  refine spec_look_at (spec_check ?_ fun _ => ?_)
  · intro s _ hcreated
    rw [hcreate, hfree] at hcreated
    cases hcreated
  refine spec_bind (M := fun _ s => s = put staged (some (.file [])) d) (spec_change ?_) fun _ => ?_
  · rintro s rfl
    exact ⟨trivial, rfl⟩
  refine spec_recover h fun e => ?_
  exact spec_bind (spec_change fun s hs => ⟨trivial, hfail e s hs⟩) fun _ =>
    spec_throw e fun s hs => hs

/-- Without faults a valid snapshot within the limit takes the place of a database
that is there. -/
theorem Attempted.spec_over (h : Attempted v random stream destination options d)
    {place : Bytes} (hfree : d staged = none) (hne : staged ≠ place) (hroll : staged ≠ rollbackPath)
    (hpresent : present (d place) = true) :
    Spec (fun _ => True) (fun s => s = d)
      (restoreStaged v {} stream options true place rollbackPath staged)
      (fun n _ => n = stream.chunks.flatten.length) (fun _ _ => False) := by
  refine spec_restoreStaged_created rfl hfree (R := fun _ _ => False) ?_ fun e s hs => hs
  refine spec_bind (h.spec_stage spareStaging_none) fun n => spec_given fun hn => ?_
  -- the database moves away, the snapshot moves in
  refine spec_bind (spec_rename_total ?_) fun _ => ?_
  · rw [put_other hne.symm]
    exact isSome_of_present hpresent
  · refine spec_bind (spec_recover (spec_rename_total ?_) fun e => fun w hw => hw.elim) fun _ =>
      spec_pure n fun s _ => hn
    rw [move_other hne hroll, put_self]
    rfl

/-- Without faults a restore that nothing refuses returns. -/
theorem spec_restore_returns (h : Attempted v random stream destination options d)
    (hapart : Apart d (Path.clean destination) options
      (stagingPath (Path.clean destination) random)) :
    Spec (fun _ => True) (fun s => s = d) (restore v {} random (some stream) destination options)
      (fun n _ => n = stream.chunks.flatten.length) (fun _ _ => False) := by
  refine spec_restore_of_staged spareChecks_none h.positive h.named h.able ?_
  unfold rollbackGiven
  cases hpresent : present (d (Path.clean destination)) with
  | true =>
      exact h.spec_over h.free hapart.notDestination (hapart.notRollbackPath hpresent) hpresent
  | false =>
      refine spec_restoreStaged_created rfl h.free (R := fun _ _ => False) ?_ fun e s hs => hs
      refine spec_bind (h.spec_stage spareStaging_none) fun n => spec_given fun hn => ?_
      refine spec_bind (spec_rename_total ?_) fun _ => spec_pure n fun s _ => hn
      rw [put_self]
      rfl

/-! ## Names that collide -/

/-- A staging file of the destination's name: the empty file that it starts as is
what a reader of the destination finds. -/
theorem destination_collision (h : Attempted v random stream destination options d)
    (hsame : stagingPath (Path.clean destination) random = Path.clean destination) :
    ∃ s ∈ visited ((restore v {} random (some stream) destination options).run ⟨d, []⟩),
      ¬ Intact v stream.chunks.flatten d (Path.clean destination) (Path.clean options.rollbackPath)
        (stagingPath (Path.clean destination) random) s := by
  have hfree := h.free
  rw [hsame] at hfree ⊢
  refine ⟨put (Path.clean destination) (some (.file [])) d, ?_, ?_⟩
  · rw [restore_run spareChecks_none h.positive h.named h.able, hsame]
    unfold restoreStaged
    have hcreated : (d (Path.clean destination)).isSome = false := by
      rw [hfree]
      rfl
    rw [run_look, run_check (by exact hcreated), run_change]
    exact (traces_staged _ _ _ _ _ _ _ _).mem_visited List.mem_cons_self
  · rintro ⟨hkept | ⟨hwhole, _⟩ | ⟨hpresent, _⟩, _⟩
    · rw [put_self, hfree] at hkept
      cases hkept
    · rw [put_self] at hwhole
      exact verified_ne_nil h.verified (Entry.file.inj (Option.some.inj hwhole)).symm
    · rw [hfree] at hpresent
      cases hpresent

/-- Neither the publishing rename nor the one back succeeds. -/
def bothRenamesFail : Faults := { publish := true, moveBack := true }

/-- A staging file of the rollback path's name: once both renames have failed,
removing the staging file removes the database. -/
theorem spec_rollback_collision (h : Attempted v random stream destination options d)
    {place : Bytes} (hfree : d staged = none) (hne : staged ≠ place)
    (hpresent : present (d place) = true) :
    Spec (fun _ => True) (fun s => s = d)
      (restoreStaged v bothRenamesFail stream options true place staged staged)
      (fun _ _ => False) (fun _ s => s place = none ∧ s staged = none) := by
  refine spec_restoreStaged_created (R := fun _ s => s place = none) rfl hfree ?_ ?_
  · refine spec_bind (spec_conseq (h.spec_stage ?_) (fun s hs => hs) (fun n s hs => hs.1)
      fun e s hs => hs.elim) fun n => ?_
    · constructor <;> intros <;> rfl
    refine spec_bind (spec_conseq (spec_rename_total ?_) (fun s hs => hs) (fun n s hs => hs)
      fun e s hs => hs.elim) fun _ => ?_
    · rw [put_other hne.symm]
      exact isSome_of_present hpresent
    have haway : move place staged (put staged (some (.file stream.chunks.flatten)) d) place =
        none := move_src hne.symm
    refine spec_bind (M := fun _ _ => False) (spec_recover
      (R := fun _ s => s = move place staged (put staged (some (.file stream.chunks.flatten)) d))
      (spec_look_at (spec_check (fun s hs _ => hs) fun hfails => by cases hfails)) fun e => ?_)
      fun _ => fun w hw => hw.elim
    refine spec_bind (M := fun _ _ => False) (spec_look_at (spec_check ?_ fun hfails => ?_))
      fun _ => fun w hw => hw.elim
    · rintro s rfl _
      exact haway
    · cases hfails
  · intro e s hs
    exact ⟨(put_other hne.symm).trans hs, put_self⟩

theorem rollback_collision (h : Attempted v random stream destination options d)
    (hne : stagingPath (Path.clean destination) random ≠ Path.clean destination)
    (hpresent : present (d (Path.clean destination)) = true)
    (hsame : stagingPath (Path.clean destination) random = Path.clean options.rollbackPath) :
    ∃ s ∈ visited ((restore v bothRenamesFail random (some stream) destination options).run
        ⟨d, []⟩),
      ¬ Intact v stream.chunks.flatten d (Path.clean destination) (Path.clean options.rollbackPath)
        (stagingPath (Path.clean destination) random) s := by
  have hrun := @restore_run v bothRenamesFail stream options d destination random ⟨rfl, rfl, rfl⟩
    h.positive h.named h.able []
  rw [rollbackGiven, if_pos hpresent, hpresent, ← hsame] at hrun
  rw [hrun, ← hsame]
  obtain ⟨e, s, hend, hplace, hstaged⟩ :=
    exists_ending_error [] (spec_rollback_collision h h.free hne hpresent)
  have hmem := (traces_restoreStaged v bothRenamesFail stream options true (Path.clean destination)
    (stagingPath (Path.clean destination) random)
    (stagingPath (Path.clean destination) random)).ending_mem d
  rw [hend] at hmem
  have hgone : s (Path.clean destination) ≠ d (Path.clean destination) := by
    intro hkept
    rw [← hkept, hplace] at hpresent
    cases hpresent
  refine ⟨s, (List.mem_cons.mp hmem).resolve_left fun heq => hgone (congrFun heq _), ?_⟩
  intro hintact
  rcases hintact.original hpresent with hkept | hrolled
  · exact hgone hkept
  · exact hgone (hplace.trans (hstaged.symm.trans hrolled))

end

/-- How a restore may end: one that returns has put the whole verified snapshot in
place and kept the old database; one that fails has left the directory as it was,
or, if both renames failed, the old database at the rollback path. -/
def SafeEnd (v : Verifier) (whole : Bytes) (d : Dir) (destination rollbackPath staged : Bytes) :
    EStateM.Result (Nat × RestoreErr) (Traced Dir) Nat → Prop
  | .ok n w => Restored v whole d destination rollbackPath staged w.now ∧ n = whole.length
  | .error e w => Failed d destination rollbackPath e w.now

/-- A run of `restore` that loses nothing. -/
structure Safe (v : Verifier) (whole : Bytes) (d : Dir) (destination rollbackPath staged : Bytes)
    (r : EStateM.Result (Nat × RestoreErr) (Traced Dir) Nat) : Prop where
  states : ∀ s ∈ d :: visited r, Intact v whole d destination rollbackPath staged s
  result : SafeEnd v whole d destination rollbackPath staged r

/-- **Restores.** If the staging file's name is neither the destination nor the
rollback path, a restore is safe whatever fails and wherever the process stops. If
it is one of them, in a restore that nothing else stands in the way of, then with
some failures one of its states is not intact. -/
theorem restore_safe (v : Verifier) (random : Nat) (destination : Bytes) (options : Options)
    (d : Dir) :
    let staged := stagingPath (Path.clean destination) random
    (Apart d (Path.clean destination) options staged → ∀ faults r,
      Safe v (wholeOf r) d (Path.clean destination) (Path.clean options.rollbackPath) staged
        ((restore v faults random r destination options).run ⟨d, []⟩)) ∧
    (¬ Apart d (Path.clean destination) options staged → ∀ stream,
      Attempted v random stream destination options d →
      ∃ faults, ∃ s ∈ visited ((restore v faults random (some stream) destination options).run
          ⟨d, []⟩),
        ¬ Intact v stream.chunks.flatten d (Path.clean destination)
          (Path.clean options.rollbackPath) staged s) := by
  intro staged
  refine ⟨?_, ?_⟩
  · intro hapart faults r
    have hout := spec_restore v faults random r destination options d hapart ⟨d, []⟩ rfl
    obtain ⟨new, hpast, hnew⟩ := hout.visited
    refine ⟨?_, ?_⟩
    · rw [List.forall_mem_cons, hpast]
      exact ⟨intact_of_same rfl, hnew⟩
    · cases hrun : (restore v faults random r destination options).run ⟨d, []⟩ with
      | ok n w =>
          rw [hrun] at hout
          exact hout.1
      | error e w =>
          rw [hrun] at hout
          exact hout.1
  · intro hcollide stream hattempt
    by_cases hne : staged = Path.clean destination
    · exact ⟨{}, destination_collision hattempt hne⟩
    · by_cases hroll : present (d (Path.clean destination)) = true ∧
        staged = Path.clean options.rollbackPath
      · exact ⟨bothRenamesFail, rollback_collision hattempt hne hroll.1 hroll.2⟩
      · exact absurd ⟨hne, fun hpresent hsame => hroll ⟨hpresent, hsame⟩⟩ hcollide

/-- The draw 5 gives the staging file the name of the rollback path. When the
snapshot cannot be published nor the database moved back, removing the staging
file removes the database; when nothing fails, the restore returns with the old
database in place. And in a restore to a new destination of that name, the
destination holds a part of the snapshot on the way. -/
theorem restore_name_collisions :
    let path := ascii "/.koradb-restore-5"
    stagingPath (ascii "/k.db") 5 = path ∧
    observe [ascii "/k.db", path]
        (sampleRestore { publish := true, moveBack := true } 5 path) =
      (some .publishAndRollback,
        [[some (.file [1, 2]), some (.file [])], [some (.file [1, 2]), some (.file [7])],
          [some (.file [1, 2]), some (.file [7, 7])], [none, some (.file [1, 2])],
          [none, none]]) ∧
    observe [ascii "/k.db", path] (sampleRestore {} 5 path) =
      (none,
        [[some (.file [1, 2]), some (.file [])], [some (.file [1, 2]), some (.file [7])],
          [some (.file [1, 2]), some (.file [7, 7])], [none, some (.file [1, 2])],
          [some (.file [1, 2]), none]]) ∧
    observe [path] ((restore sampleVerifier {} 5 (some sampleStream) path
        (sampleOptions false [])).run ⟨sampleDir, []⟩) =
      (none, [[some (.file [])], [some (.file [7])], [some (.file [7, 7])],
        [some (.file [7, 7])]]) := by
  decide +kernel

/-- With another draw the same double failure keeps the database, and without
failures the snapshot takes its place. -/
theorem restore_safe_sample :
    let path := ascii "/.koradb-restore-5"
    (sampleRestore { publish := true, moveBack := true } 6 path
        |> observe [ascii "/k.db", path]).1 =
        some .publishAndRollback ∧
      (observe [ascii "/k.db", path] (sampleRestore {} 6 path)).1 = none ∧
      (∀ faults, ∀ s ∈ sampleDir :: visited (sampleRestore faults 6 path),
        Intact sampleVerifier [7, 7] sampleDir (ascii "/k.db") path
          (ascii "/.koradb-restore-6") s) ∧
      ∃ faults, ∃ s ∈ visited (sampleRestore faults 5 path),
        ¬ Intact sampleVerifier [7, 7] sampleDir (ascii "/k.db") path path s := by
  intro path
  have hapart : Apart sampleDir (ascii "/k.db") (sampleOptions true path)
      (ascii "/.koradb-restore-6") := ⟨by decide +kernel, fun _ => by decide +kernel⟩
  have hable : Restorable sampleDir (ascii "/k.db") (sampleOptions true path) :=
    .inr (by decide +kernel)
  refine ⟨by decide +kernel, by decide +kernel, ?_, ?_⟩
  · intro faults
    exact ((restore_safe sampleVerifier 6 (ascii "/k.db") (sampleOptions true path)
      sampleDir).1 hapart faults (some sampleStream)).states
  · refine (restore_safe sampleVerifier 5 (ascii "/k.db") (sampleOptions true path)
      sampleDir).2 ?_ sampleStream ⟨by decide, by decide, by decide, by decide, hable,
        by decide +kernel⟩
    intro hsame
    exact hsame.notRollbackPath (by decide +kernel) (by decide +kernel)

end KoraDB.Recovery
