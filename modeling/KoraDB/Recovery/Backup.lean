import KoraDB.Recovery.Collisions

/-!
# Backups, and back (`cmdBackup`, `RestoreFile`)

`backup` writes a snapshot of an open database into a temporary file next to its
output and renames it there. Whatever fails and wherever the process stops, the
output is absent or complete and nothing else is touched (`backup_safe`).
`RestoreFile` reads such a file back through `Restore`: what it puts in place is
the database at the moment of the snapshot, whatever became of the original
since (`backup_restores`).

The format of the file is bbolt's: what `WriteTo` writes and what opening a file
finds are parameters, of which the second reads what the first writes. What a
database holds is a type of its own here, as nothing looks inside.
-/

namespace KoraDB.Recovery

open KoraDB.Base KoraDB.Base.Steps

/-- bbolt's files: the writes that make up a snapshot of a database, and the
database that a file opens with. -/
structure Bolt (σ : Type) extends Verifier where
  chunks : σ → List Bytes
  load : Bytes → Option σ
  load_chunks : ∀ s, load (chunks s).flatten = some s
  verify_chunks : ∀ s, verify (chunks s).flatten = true

/-- A snapshot as a file. -/
def Bolt.image {σ : Type} (bolt : Bolt σ) (s : σ) : Bytes := (bolt.chunks s).flatten

/-! ## `backup` -/

/-- The steps that fail. Writes are counted from the last and may fail after some
of their bytes. -/
structure BackupFaults where
  lstat : Bool := false
  createTemp : Bool := false
  chmod : Bool := false
  write : Nat → Option Nat := fun _ => none
  close : Bool := false
  rename : Bool := false
  remove : Bool := false

inductive BackupErr
  | usage
  | inspect
  | outputExists
  | createFile
  | secureFile
  | notEmbedded
  | write
  | finalize
  | publish
  deriving DecidableEq, Repr

/-- `tx.WriteTo`. -/
def writeAll (faults : BackupFaults) (path : Bytes) : List Bytes → StepM BackupErr Dir Unit
  | [] => pure ()
  | chunk :: rest =>
    match faults.write rest.length with
    | some k => do
        change (append path (chunk.take k))
        throw .write
    | none => do
        change (append path chunk)
        writeAll faults path rest

/-- The name `os.CreateTemp` makes of a random number, next to the output. -/
def backupPath (output : Bytes) (random : Nat) : Bytes :=
  Path.clean (Path.dir output ++ Path.slash :: ascii ".KoraDB-backup-" ++ formatUint random)

/-- `cmdBackup` from the temporary file on. A server has no snapshot to give. -/
def fillAndPublish (faults : BackupFaults) (snapshot : Option (List Bytes))
    (output staged : Bytes) : StepM BackupErr Dir Unit := do
  failIf faults.chmod .secureFile
  failIf snapshot.isNone .notEmbedded
  writeAll faults staged (snapshot.getD [])
  failIf faults.close .finalize
  let d ← look
  failIf (faults.rename || output == [] || (d staged).isNone) .publish
  change (move staged (Path.clean output))

/-- `cmdBackup` on a backend with this snapshot. The empty path names nothing, so
nothing is found there, and nothing can be moved there. -/
def cmdBackup (faults : BackupFaults) (random : Nat) (snapshot : Option (List Bytes)) :
    List Bytes → StepM BackupErr Dir Unit
  | [output] => do
    failIf faults.lstat .inspect
    let d ← look
    failIf (output != [] && (d (Path.clean output)).isSome) .outputExists
    failIf (faults.createTemp || (d (backupPath output random)).isSome) .createFile
    change (put (backupPath output random) (some (.file [])))
    recover (fillAndPublish faults snapshot output (backupPath output random)) fun e => do
      change (if faults.remove then id else put (backupPath output random) none)
      throw e
  | _ => throw .usage

/-! ## `RestoreFile` -/

/-- The steps that fail before `Restore`. Two paths may lead to one file through
a link, which `os.SameFile` finds. -/
structure FileFaults extends Faults where
  statSnapshot : Bool := false
  linked : Bool := false
  statDestination : Bool := false
  openSnapshot : Bool := false

inductive RestoreFileErr
  | inspectSnapshot
  | snapshotIsDirectory
  | sourceMatchesDestination
  | inspectDestination
  | openSnapshot
  | restore (e : RestoreErr)
  deriving DecidableEq, Repr

/-- What reading a path yields; links are followed. -/
def readFile : Option Entry → Bytes
  | some (.file content) => content
  | some (.link (some content)) => content
  | _ => []

/-- How a file comes in: in chunks that make up its content. -/
structure Chunking where
  split : Bytes → List Bytes
  flatten_split : ∀ b, (split b).flatten = b

/-- `RestoreFile`. -/
def restoreFile (v : Verifier) (chunking : Chunking) (faults : FileFaults) (random : Nat)
    (snapshotPath destination : Bytes) (options : Options) :
    StepM (Nat × RestoreFileErr) Dir Nat := do
  let d ← look
  let source := d (Path.clean snapshotPath)
  failIf (faults.statSnapshot || snapshotPath == [] || !present source) (0, .inspectSnapshot)
  failIf (source == some .directory) (0, .snapshotIsDirectory)
  failIf (destination != [] && present (d (Path.clean destination)) &&
    (Path.clean snapshotPath == Path.clean destination || faults.linked))
    (0, .sourceMatchesDestination)
  failIf faults.statDestination (0, .inspectDestination)
  failIf faults.openSnapshot (0, .openSnapshot)
  relabel (fun e => (e.1, .restore e.2))
    (restore v faults.toFaults random (some ⟨chunking.split (readFile source)⟩) destination options)

/-! ## The output of a backup -/

section

variable {faults : BackupFaults} {d : Dir} {staged output whole : Bytes} {random : Nat}
  {snapshot : Option (List Bytes)}

theorem spec_writeAll {I : Dir → Prop} (hI : ∀ s, Staging d staged s → I s) (chunks : List Bytes)
    (content : Bytes) :
    Spec I (fun s => s = put staged (some (.file content)) d) (writeAll faults staged chunks)
      (fun _ s => s = put staged (some (.file (content ++ chunks.flatten))) d)
      (fun _ s => Staging d staged s) := by
  induction chunks generalizing content with
  | nil => exact spec_pure () fun s hs => by simpa using hs
  | cons chunk rest ih =>
      unfold writeAll
      cases hw : faults.write rest.length with
      | some k =>
          refine spec_bind (M := fun _ s => Staging d staged s) (spec_change ?_) fun _ =>
            spec_throw _ fun s hs => hs
          rintro s rfl
          rw [append_put]
          exact ⟨hI _ ⟨_, rfl⟩, _, rfl⟩
      | none =>
          refine spec_bind (M := fun _ s => s = put staged (some (.file (content ++ chunk))) d)
            (spec_change ?_) fun _ => ?_
          · rintro s rfl
            rw [append_put]
            exact ⟨hI _ ⟨_, rfl⟩, rfl⟩
          · rw [List.flatten_cons, ← List.append_assoc]
            exact ih _

/-- How the temporary file gets to the output. -/
theorem spec_fillAndPublish {I : Dir → Prop} (hI : ∀ s, Staging d staged s → I s)
    (hfree : d staged = none)
    (hdone : output ≠ [] →
      I (put (Path.clean output) (some (.file (snapshot.getD []).flatten)) d)) :
    Spec I (fun s => s = put staged (some (.file [])) d)
      (fillAndPublish faults snapshot output staged)
      (fun _ s => (snapshot.isSome = true ∧ output ≠ []) ∧
        s = put (Path.clean output) (some (.file (snapshot.getD []).flatten)) d)
      (fun _ s => Staging d staged s) := by
  refine spec_check (fun s hs _ => ⟨_, hs⟩) fun _ => ?_
  refine spec_check (fun s hs _ => ⟨_, hs⟩) fun hsnapshot => ?_
  refine spec_bind (spec_writeAll hI (snapshot.getD []) []) fun _ => ?_
  refine spec_check (fun s hs _ => ⟨_, hs⟩) fun _ => ?_
  refine spec_look_at (spec_check (fun s hs _ => ⟨_, hs⟩) fun hpublish => spec_change ?_)
  have hnamed : output ≠ [] := by
    simp only [Bool.or_eq_false_iff, beq_eq_false_iff_ne] at hpublish
    exact hpublish.1.2
  rintro s rfl
  rw [List.nil_append, move_staged hfree]
  refine ⟨hdone hnamed, ⟨?_, hnamed⟩, rfl⟩
  cases snapshot with
  | none => cases hsnapshot
  | some chunks => rfl

/-- How a backup fails: it leaves the directory as it was, or with its temporary
file if that cannot be removed. -/
def BackupFailed (faults : BackupFaults) (d : Dir) (staged : Bytes) (s : Dir) : Prop :=
  s = d ∨ (faults.remove = true ∧ Staging d staged s)

theorem spec_cmdBackup (faults : BackupFaults) (random : Nat) (snapshot : Option (List Bytes))
    (output : Bytes) (d : Dir) {I : Dir → Prop} (hsame : I d)
    (hI : ∀ s, Staging d (backupPath output random) s → I s)
    (hdone : d (Path.clean output) = none →
      I (put (Path.clean output) (some (.file (snapshot.getD []).flatten)) d)) :
    Spec I (fun s => s = d) (cmdBackup faults random snapshot [output])
      (fun _ s => (snapshot.isSome = true ∧ output ≠ [] ∧ d (Path.clean output) = none) ∧
        s = put (Path.clean output) (some (.file (snapshot.getD []).flatten)) d)
      (fun _ s => BackupFailed faults d (backupPath output random) s) := by
  refine spec_check (fun s hs _ => .inl hs) fun _ => ?_
  refine spec_look_at (spec_check (fun s hs _ => .inl hs) fun hoverwrite => ?_)
  refine spec_check (fun s hs _ => .inl hs) fun hcreated => ?_
  have hfree : d (backupPath output random) = none := by
    simpa using (Bool.or_eq_false_iff.mp hcreated).2
  have habsent : output ≠ [] → d (Path.clean output) = none := by
    intro hnamed
    simpa [hnamed] using hoverwrite
  refine spec_bind (M := fun _ s => s = put (backupPath output random) (some (.file [])) d)
    (spec_change ?_) fun _ => ?_
  · rintro s rfl
    exact ⟨hI _ ⟨_, rfl⟩, rfl⟩
  · refine spec_recover (R := fun _ s => Staging d (backupPath output random) s) ?_ fun e => ?_
    · refine spec_conseq (spec_fillAndPublish hI hfree fun hnamed => hdone (habsent hnamed))
        (fun s hs => hs) ?_ fun e s hs => hs
      rintro _ s ⟨⟨hsnapshot, hnamed⟩, hs⟩
      exact ⟨⟨hsnapshot, hnamed, habsent hnamed⟩, hs⟩
    · refine spec_bind (M := fun _ s => BackupFailed faults d (backupPath output random) s)
        (spec_change ?_) fun _ => spec_throw e fun s hs => hs
      intro s hs
      cases hremove : faults.remove with
      | true => exact ⟨hI s hs, .inr ⟨hremove, hs⟩⟩
      | false =>
          obtain ⟨content, rfl⟩ := hs
          rw [if_neg Bool.false_ne_true, put_none_put hfree]
          exact ⟨hsame, .inl rfl⟩

/-- A state of the directory `d` in a backup: the output is as it was or, where
there was none, complete, and only the temporary file comes and goes besides. -/
structure BackupIntact (whole : Bytes) (d : Dir) (output staged : Bytes) (s : Dir) : Prop where
  place : s output = d output ∨ d output = none ∧ s output = some (.file whole)
  others : ∀ p, p ≠ output → p ≠ staged → s p = d p

/-- **Backups.** Whatever fails and wherever the process stops, if the temporary
file is not named like the output: every state of the directory is intact. A
backup that returns has added its output and nothing else; one that fails, as it
does on a server or on an output that exists, has left the directory as it was,
but for a temporary file that could not be removed. -/
theorem backup_safe (faults : BackupFaults) (random : Nat) (snapshot : Option (List Bytes))
    (output : Bytes) (d : Dir) (hne : backupPath output random ≠ Path.clean output) :
    (∀ s ∈ d :: visited ((cmdBackup faults random snapshot [output]).run ⟨d, []⟩),
      BackupIntact (snapshot.getD []).flatten d (Path.clean output) (backupPath output random) s) ∧
    match (cmdBackup faults random snapshot [output]).run ⟨d, []⟩ with
    | .ok _ w => snapshot.isSome = true ∧ d (Path.clean output) = none ∧
        w.now = put (Path.clean output) (some (.file (snapshot.getD []).flatten)) d
    | .error _ w => BackupFailed faults d (backupPath output random) w.now := by
  have hsame : BackupIntact (snapshot.getD []).flatten d (Path.clean output)
      (backupPath output random) d := ⟨.inl rfl, fun p _ _ => rfl⟩
  have hout := spec_cmdBackup faults random snapshot output d hsame ?_ ?_ ⟨d, []⟩ rfl
  · obtain ⟨new, hpast, hnew⟩ := hout.visited
    refine ⟨?_, ?_⟩
    · rw [List.forall_mem_cons, hpast]
      exact ⟨hsame, hnew⟩
    · cases hrun : (cmdBackup faults random snapshot [output]).run ⟨d, []⟩ with
      | ok u w =>
          rw [hrun] at hout
          obtain ⟨⟨hsnapshot, _, habsent⟩, hnow⟩ := hout.1
          exact ⟨hsnapshot, habsent, hnow⟩
      | error e w =>
          rw [hrun] at hout
          exact hout.1
  · rintro s ⟨content, rfl⟩
    exact ⟨.inl (put_other hne.symm), fun p _ hp => put_other hp⟩
  · intro habsent
    exact ⟨.inr ⟨habsent, put_self⟩, fun p hp _ => put_other hp⟩

/-- A backup of two writes of which the last fails halfway. -/
theorem backup_safe_sample :
    let faults : BackupFaults := { write := fun n => if n = 0 then some 1 else none }
    let r := (cmdBackup faults 5 (some [[7], [7, 7]]) [ascii "/b.db"]).run ⟨sampleDir, []⟩
    (ending r).1 = .error .write ∧
      ∀ s ∈ sampleDir :: visited r, BackupIntact [7, 7, 7] sampleDir (ascii "/b.db")
        (ascii "/.KoraDB-backup-5") s := by
  intro faults r
  refine ⟨by decide +kernel, ?_⟩
  exact (backup_safe faults 5 (some [[7], [7, 7]]) (ascii "/b.db") sampleDir (by decide +kernel)).1

/-- The output of a backup that has returned. -/
theorem backup_output {chunks : List Bytes} {d' : Dir}
    (h : ending ((cmdBackup faults random (some chunks) [output]).run ⟨d, []⟩) = (.ok (), d')) :
    output ≠ [] ∧ d' (Path.clean output) = some (.file chunks.flatten) := by
  have hspec := @spec_cmdBackup faults random (some chunks) output d (fun _ => True) trivial
    (fun _ _ => trivial) (fun _ => trivial)
  obtain ⟨⟨_, hnamed, _⟩, rfl⟩ := ending_ok hspec h
  exact ⟨hnamed, put_self⟩

end

/-! ## There and back -/

section

variable {v : Verifier} {chunking : Chunking} {d : Dir} {source destination content : Bytes}
  {options : Options} {random : Nat}

/-- What `RestoreFile` puts in place is the file it reads. -/
theorem spec_restoreFile {faults : FileFaults}
    (hsource : d (Path.clean source) = some (.file content))
    (hapart : Apart d (Path.clean destination) options
      (stagingPath (Path.clean destination) random)) :
    Spec (fun _ => True) (fun s => s = d)
      (restoreFile v chunking faults random source destination options)
      (fun n s => Restored v content d (Path.clean destination) (Path.clean options.rollbackPath)
          (stagingPath (Path.clean destination) random) s ∧ n = content.length)
      (fun _ _ => True) := by
  refine spec_look_at ?_
  refine spec_check (fun _ _ _ => trivial) fun _ => ?_
  refine spec_check (fun _ _ _ => trivial) fun _ => ?_
  refine spec_check (fun _ _ _ => trivial) fun _ => ?_
  refine spec_check (fun _ _ _ => trivial) fun _ => ?_
  refine spec_check (fun _ _ _ => trivial) fun _ => ?_
  rw [hsource]
  have hrestore := spec_restore v faults.toFaults random (some ⟨chunking.split content⟩)
    destination options d hapart
  have hread : wholeOf (some ⟨chunking.split content⟩) = content := chunking.flatten_split content
  rw [hread] at hrestore
  exact spec_relabel (spec_conseq (spec_mono hrestore fun _ _ => trivial) (fun s hs => hs)
    (fun n s hs => hs) fun _ _ _ => trivial)

/-- Without faults it returns. -/
theorem spec_restoreFile_returns (hsource : d (Path.clean source) = some (.file content))
    (hgiven : source ≠ []) (hother : Path.clean source ≠ Path.clean destination)
    (hattempt : Attempted v random ⟨chunking.split content⟩ destination options d)
    (hapart : Apart d (Path.clean destination) options
      (stagingPath (Path.clean destination) random)) :
    Spec (fun _ => True) (fun s => s = d)
      (restoreFile v chunking {} random source destination options)
      (fun n _ => n = content.length) (fun _ _ => False) := by
  refine spec_look_at ?_
  rw [hsource]
  refine spec_check (fun s _ h => by simp [hgiven, present] at h) fun _ => ?_
  refine spec_check (fun s _ h => by cases h) fun _ => ?_
  refine spec_check (fun s _ h => by simp [hother] at h) fun _ => ?_
  refine spec_check (fun s _ h => by cases h) fun _ => ?_
  refine spec_check (fun s _ h => by cases h) fun _ => ?_
  have hrestore := spec_restore_returns hattempt hapart
  rw [chunking.flatten_split] at hrestore
  exact spec_relabel hrestore

end

/-- **There and back.** Take a backup that has returned, of a database in state
`s`, a directory in which its output is still as it was, whatever became of the
rest, and a staging name apart from the destination and the rollback path. A
restore of the output that returns, whatever failed on the way, has put a file in
place that opens with `s`, and has kept the database that was there. And it does
return, if nothing fails, for a destination that is not the output and where
nothing is or whose database has a rollback path to go to, a staging name that is
free, and a limit below `2 ^ 63 - 1` that the file is within. -/
theorem backup_restores {σ : Type} (bolt : Bolt σ) (chunking : Chunking) (s : σ)
    {faults : BackupFaults} {random draw : Nat} {output destination : Bytes} {options : Options}
    {d₀ d₁ d₂ : Dir}
    (hbackup : ending ((cmdBackup faults random (some (bolt.chunks s)) [output]).run ⟨d₀, []⟩) =
      (.ok (), d₁))
    (hkept : d₂ (Path.clean output) = d₁ (Path.clean output))
    (hne : stagingPath (Path.clean destination) draw ≠ Path.clean destination)
    (hroll : stagingPath (Path.clean destination) draw ≠ Path.clean options.rollbackPath) :
    (∀ faults n d₃,
      ending ((restoreFile bolt.toVerifier chunking faults draw output destination options).run
        ⟨d₂, []⟩) = (.ok n, d₃) →
      ∃ b, d₃ (Path.clean destination) = some (.file b) ∧ bolt.load b = some s ∧
        (present (d₂ (Path.clean destination)) = true →
          d₃ (Path.clean options.rollbackPath) = d₂ (Path.clean destination))) ∧
    (destination ≠ [] → Path.clean output ≠ Path.clean destination →
      Restorable d₂ (Path.clean destination) options →
      d₂ (stagingPath (Path.clean destination) draw) = none →
      ((bolt.image s).length : Int) ≤ options.maxBytes → options.maxBytes < 2 ^ 63 - 1 →
      ∃ d₃, ending ((restoreFile bolt.toVerifier chunking {} draw output destination options).run
        ⟨d₂, []⟩) = (.ok (bolt.image s).length, d₃)) := by
  obtain ⟨hgiven, houtput⟩ := backup_output hbackup
  have hsource : d₂ (Path.clean output) = some (.file (bolt.image s)) := hkept.trans houtput
  refine ⟨?_, ?_⟩
  · intro faults n d₃ hend
    obtain ⟨hrestored, _⟩ := ending_ok (spec_restoreFile hsource ⟨hne, fun _ => hroll⟩) hend
    exact ⟨bolt.image s, hrestored.snapshot, bolt.load_chunks s, hrestored.kept⟩
  · intro hnamed hother hable hfree hle hmax
    have hread : (chunking.split (bolt.image s)).flatten = bolt.image s :=
      chunking.flatten_split _
    have hattempt : Attempted bolt.toVerifier draw ⟨chunking.split (bolt.image s)⟩ destination
        options d₂ := by
      refine ⟨hnamed, hmax, ?_, ?_, hable, hfree⟩
      · rw [hread]
        exact bolt.verify_chunks s
      · rw [hread]
        exact hle
    obtain ⟨n, d₃, hend, rfl⟩ := exists_ending [] (spec_restoreFile_returns hsource hgiven hother
      hattempt ⟨hne, fun _ => hroll⟩)
    exact ⟨d₃, hend⟩

/-- Databases that hold a bit, in files of two bytes. -/
def sampleBolt : Bolt Bool where
  verify b := b == [7, 0] || b == [7, 1]
  verify_empty := rfl
  chunks s := [[7], [if s then 1 else 0]]
  load b := if b = [7, 0] then some false else if b = [7, 1] then some true else none
  load_chunks s := by cases s <;> rfl
  verify_chunks s := by cases s <;> rfl

def sampleChunking : Chunking := ⟨fun b => [b], fun b => List.append_nil b⟩

/-- The directory after a backup of `k.db` to `b.db`. -/
def sampleBackup : Except BackupErr Unit × Dir :=
  ending ((cmdBackup {} 5 (some (sampleBolt.chunks true)) [ascii "/b.db"]).run ⟨sampleDir, []⟩)

/-- The backup is restored over the database it was taken of. -/
theorem backup_restores_sample :
    ∃ d₃ b, ending ((restoreFile sampleBolt.toVerifier sampleChunking {} 6 (ascii "/b.db")
        (ascii "/k.db") (sampleOptions true (ascii "/old.db"))).run ⟨sampleBackup.2, []⟩) =
          (.ok 2, d₃) ∧
      d₃ (ascii "/k.db") = some (.file b) ∧ sampleBolt.load b = some true := by
  have hok : sampleBackup.1 = .ok () := by decide +kernel
  have hable : Restorable sampleBackup.2 (ascii "/k.db") (sampleOptions true (ascii "/old.db")) :=
    .inr (by decide +kernel)
  obtain ⟨hwhat, hreturns⟩ := @backup_restores Bool sampleBolt sampleChunking true {} 5 6
    (ascii "/b.db") (ascii "/k.db") (sampleOptions true (ascii "/old.db")) sampleDir sampleBackup.2
    sampleBackup.2 (Prod.ext hok rfl) rfl (by decide +kernel) (by decide +kernel)
  obtain ⟨d₃, hend⟩ := hreturns (by decide) (by decide +kernel) hable (by decide +kernel)
    (by decide) (by decide)
  obtain ⟨b, hplace, hload, _⟩ := hwhat {} _ d₃ hend
  exact ⟨d₃, b, hend, hplace, hload⟩

end KoraDB.Recovery
