import KoraDB.Recovery.Safety

/-!
# Size limits of snapshots

`Restore` and `storage.ValidateSnapshot` each read one byte past the limit and
compare afterwards. Without faults both are exact below `math.MaxInt64`: a valid
snapshot passes if and only if it is no longer than the limit, and of a longer one
no more than that one byte past the limit is read. The byte past `math.MaxInt64`
does not exist: there the sum wraps around, nothing is read, and no snapshot
passes. `size_limits_exact` has both, so the limits below `math.MaxInt64` are all
that are exact.
-/

namespace KoraDB.Recovery

open KoraDB.Base KoraDB.Base.Steps

/-! ## `ValidateSnapshot` -/

inductive ValidateErr
  | sizeLimit
  | createTemporary
  | copySnapshot
  | closeTemporary
  | snapshotTooLarge
  | invalidSnapshot
  deriving DecidableEq, Repr

/-- `ValidateSnapshot`, with the temporary file that `os.CreateTemp` names. -/
def validateSnapshot (v : Verifier) (faults : Faults) (temporaryPath : Bytes) (r : Stream)
    (maxBytes : Int) : StepM (Nat × ValidateErr) Dir Nat := do
  failIf (decide (maxBytes ≤ 0)) (0, .sizeLimit)
  let d ← look
  failIf (faults.createTemp || (d temporaryPath).isSome) (0, .createTemporary)
  change (put temporaryPath (some (.file [])))
  -- `defer os.Remove(temporaryPath)`
  deferred (put temporaryPath none) do
    let limit := (wrap64 (maxBytes + 1)).toNat
    let bytesRead ← relabel (fun e => (e.1, .copySnapshot))
      (copy faults temporaryPath limit 0 r.chunks)
    failIf faults.close (bytesRead, .closeTemporary)
    failIf (decide (maxBytes < bytesRead)) (bytesRead, .snapshotTooLarge)
    let d ← look
    failIf (faults.openStaged || !v.verify (content d temporaryPath)) (bytesRead, .invalidSnapshot)
    return bytesRead

/-! ## What is read -/

/-- Nothing fails until the snapshot is staged. -/
structure Faults.SpareStaging (faults : Faults) : Prop where
  createTemp : faults.createTemp = false
  chmod : faults.chmod = false
  read : faults.read = false
  write : ∀ i, faults.write i = none
  sync : faults.sync = false
  close : faults.close = false
  openStaged : faults.openStaged = false

theorem spareStaging_none : Faults.SpareStaging {} := by
  constructor <;> intros <;> rfl

/-- The checks before the staging file find nothing in the way. -/
structure Faults.SpareChecks (faults : Faults) : Prop where
  stat : faults.stat = false
  lstat : faults.lstat = false
  online : faults.online = false

theorem spareChecks_none : Faults.SpareChecks {} := ⟨rfl, rfl, rfl⟩

/-- The copy ends with what the limit lets through. -/
theorem spec_copy_total {faults : Faults} (hspare : faults.SpareStaging) {d : Dir} {staged : Bytes}
    (chunks : List Bytes) (limit : Nat) :
    Spec (fun _ => True) (fun s => s = put staged (some (.file [])) d)
      (copy faults staged limit 0 chunks)
      (fun n s => s = put staged (some (.file (chunks.flatten.take limit))) d ∧
        n = min limit chunks.flatten.length)
      (fun _ _ => False) := by
  refine spec_conseq (spec_copy (fun _ _ => trivial) chunks limit []) (fun s hs => hs) ?_ ?_
  · rintro n s ⟨hs, hn⟩
    rw [List.nil_append] at hs hn
    exact ⟨hs, hn.trans List.length_take⟩
  · rintro e s ⟨-, -, hread | ⟨i, k, hwrite⟩⟩
    · rw [hspare.read] at hread
      cases hread
    · rw [hspare.write] at hwrite
      cases hwrite

/-- What the copy takes of the stream, where nothing fails. -/
theorem copied_eq (staged : Bytes) (limit : Nat) (chunks : List Bytes) (d : Dir) :
    ending ((copy {} staged limit 0 chunks).run ⟨put staged (some (.file [])) d, []⟩) =
      (.ok (min limit chunks.flatten.length),
        put staged (some (.file (chunks.flatten.take limit))) d) := by
  obtain ⟨n, s, hend, rfl, rfl⟩ :=
    exists_ending [] (@spec_copy_total {} spareStaging_none d staged chunks limit)
  exact hend

/-! ## Restores that can be made -/

/-- The options ask for a restore that can be made: to a place where nothing is,
or over a database that has somewhere to go. -/
def Restorable (d : Dir) (destination : Bytes) (options : Options) : Prop :=
  (present (d destination) = false ∧ options.rollbackPath = []) ∨
    (present (d destination) = true ∧ d destination ≠ some .directory ∧
      options.overwrite = true ∧ options.rollbackPath ≠ [] ∧
      Path.dir (Path.clean options.rollbackPath) = Path.dir destination ∧
      Path.clean options.rollbackPath ≠ destination ∧ d (Path.clean options.rollbackPath) = none)

/-- The rollback path as it is passed on. -/
def rollbackGiven (d : Dir) (destination : Bytes) (options : Options) : Bytes :=
  if present (d destination) then Path.clean options.rollbackPath else []

section

variable {d : Dir} {destination : Bytes} {options : Options}

theorem Restorable.notDirectory (h : Restorable d destination options) :
    d destination ≠ some .directory := by
  rcases h with ⟨habsent, _⟩ | ⟨_, hfile, _⟩
  · intro hdir
    rw [hdir] at habsent
    cases habsent
  · exact hfile

theorem Restorable.overwrites (h : Restorable d destination options) :
    (present (d destination) && !options.overwrite) = false := by
  rcases h with ⟨habsent, _⟩ | ⟨_, _, hover, _⟩
  · rw [habsent, Bool.false_and]
  · rw [hover, Bool.not_true, Bool.and_false]

theorem Restorable.validated {faults : Faults} (h : Restorable d destination options)
    (hlstat : faults.lstat = false) :
    validateRollbackPath faults d destination (present (d destination)) options =
      .ok (rollbackGiven d destination options) := by
  unfold validateRollbackPath rollbackGiven
  rcases h with ⟨habsent, hroll⟩ | ⟨hpresent, _, hover, hgiven, hdir, hother, hfree⟩
  · simp [habsent, hroll]
  · simp [hpresent, hover, hgiven, hdir, hother, hlstat, hfree]

end

/-! ## The limit -/

/-- How a call with a limit has to end on a snapshot of some length: it reports
the length, or the one byte that was too many. -/
def limited {α ε : Type} (maxBytes : Int) (length : Nat) (tooLarge : ε) (passed refused : α) :
    Except (Nat × ε) Nat × α :=
  if (length : Int) ≤ maxBytes then (.ok length, passed)
  else (.error (maxBytes.toNat + 1, tooLarge), refused)

/-- How it ends: at `math.MaxInt64` nothing is read, and what is staged is no
database. -/
def limitOutcome {ε : Type} (maxBytes : Int) (length : Nat) (tooLarge invalid : ε) :
    Except (Nat × ε) Nat :=
  if maxBytes = 2 ^ 63 - 1 then .error (0, invalid)
  else if (length : Int) ≤ maxBytes then .ok length
  else .error (maxBytes.toNat + 1, tooLarge)

/-- The directory that goes with an outcome. -/
def ended {α ε : Type} (outcome : Except ε Nat) (passed refused : α) : Except ε Nat × α :=
  (outcome, if outcome.isOk then passed else refused)

theorem ended_ok {α ε : Type} {outcome : Except ε Nat} {n : Nat} (h : outcome = .ok n)
    (passed refused : α) : (.ok n, passed) = ended outcome passed refused := by
  rw [h]
  rfl

theorem ended_error {α ε : Type} {outcome : Except ε Nat} {e : ε} (h : outcome = .error e)
    (passed refused : α) : (.error e, refused) = ended outcome passed refused := by
  rw [h]
  rfl

/-- Below `math.MaxInt64` a call ends as it has to, and there it does not. -/
theorem ended_eq_limited_iff {α ε : Type} {maxBytes : Int} (hlt : maxBytes < 2 ^ 63) {length : Nat}
    {tooLarge invalid : ε} (hne : invalid ≠ tooLarge) {passed refused : α} :
    ended (limitOutcome maxBytes length tooLarge invalid) passed refused =
        limited maxBytes length tooLarge passed refused ↔ maxBytes < 2 ^ 63 - 1 := by
  unfold limitOutcome limited
  by_cases hmax : maxBytes = 2 ^ 63 - 1
  · rw [if_pos hmax]
    refine iff_of_false (fun h => ?_) (by omega)
    split at h
    · cases congrArg Prod.fst h
    · have hsame := Except.error.inj (congrArg Prod.fst h)
      exact hne (congrArg Prod.snd hsame)
  · rw [if_neg hmax]
    refine iff_of_true ?_ (by omega)
    split <;> rfl

section

variable {v : Verifier} {faults : Faults} {stream : Stream} {options : Options} {d : Dir}
  {path : Bytes}

theorem copyLimit_eq (hpos : 0 < options.maxBytes) :
    copyLimit options =
      if options.maxBytes = 2 ^ 63 - 1 then 0 else options.maxBytes.toNat + 1 := by
  have hlt := options.maxBytes_lt
  unfold copyLimit wrap64
  split <;> omega

/-- More bytes than the limit were staged. -/
theorem outcome_tooLarge {ε : Type} {length : Nat} {tooLarge invalid : ε}
    (hpos : 0 < options.maxBytes)
    (h : options.maxBytes < ((min (copyLimit options) length : Nat) : Int)) :
    limitOutcome options.maxBytes length tooLarge invalid =
      .error (min (copyLimit options) length, tooLarge) := by
  rw [copyLimit_eq hpos] at h ⊢
  unfold limitOutcome
  split at h
  · omega
  · rename_i hmax
    rw [if_neg hmax, if_neg (by omega), if_neg hmax]
    congr 2
    omega

/-- What was staged within the limit is the whole snapshot, which passes, or, at
`math.MaxInt64`, nothing. -/
theorem outcome_staged {ε : Type} {whole : Bytes} {tooLarge invalid : ε}
    (hpos : 0 < options.maxBytes) (hv : v.verify whole = true)
    (h : ¬ options.maxBytes < ((min (copyLimit options) whole.length : Nat) : Int)) :
    if v.verify (whole.take (copyLimit options)) then
      whole.take (copyLimit options) = whole ∧
        limitOutcome options.maxBytes whole.length tooLarge invalid =
          .ok (min (copyLimit options) whole.length)
    else
      limitOutcome options.maxBytes whole.length tooLarge invalid =
        .error (min (copyLimit options) whole.length, invalid) := by
  rw [copyLimit_eq hpos] at h ⊢
  unfold limitOutcome
  by_cases hmax : options.maxBytes = 2 ^ 63 - 1
  · simp only [if_pos hmax, List.take_zero, v.verify_empty, Bool.false_eq_true, if_false,
      Nat.zero_min]
  · rw [if_neg hmax] at h
    have hle : (whole.length : Int) ≤ options.maxBytes := by omega
    have htake : whole.take (options.maxBytes.toNat + 1) = whole :=
      List.take_of_length_le (by omega)
    have hcount : min (options.maxBytes.toNat + 1) whole.length = whole.length := by omega
    simp only [if_neg hmax, if_pos hle, htake, hv, hcount, if_true, and_self]

theorem spec_stage_total (hspare : faults.SpareStaging) (hpos : 0 < options.maxBytes)
    (hv : v.verify stream.chunks.flatten = true) :
    let outcome := limitOutcome options.maxBytes stream.chunks.flatten.length
      RestoreErr.snapshotTooLarge .verifySnapshot
    Spec (fun _ => True) (fun s => s = put path (some (.file [])) d)
      (stage v faults stream options path)
      (fun n s => s = put path (some (.file stream.chunks.flatten)) d ∧ outcome = .ok n)
      (fun e s => Staging d path s ∧ outcome = .error e) := by
  intro outcome
  refine spec_check (fun s _ hchmod => ?_) fun _ => ?_
  · rw [hspare.chmod] at hchmod
    cases hchmod
  refine spec_bind (spec_conseq (spec_copy_total hspare stream.chunks _) (fun s hs => hs)
    (fun n s hs => hs) fun e s hs => hs.elim) fun n => ?_
  refine spec_given fun hn => ?_
  subst hn
  -- one byte past the limit tells a longer snapshot from one that fills it
  refine spec_check ?_ fun hsize => ?_
  · intro s hs hlarge
    exact ⟨⟨_, hs⟩, outcome_tooLarge hpos (of_decide_eq_true hlarge)⟩
  have hstaged := @outcome_staged v options _ _ RestoreErr.snapshotTooLarge .verifySnapshot
    hpos hv (of_decide_eq_false hsize)
  refine spec_check (fun s _ hsync => ?_) fun _ => ?_
  · rw [hspare.sync] at hsync
    cases hsync
  refine spec_check (fun s _ hclose => ?_) fun _ => ?_
  · rw [hspare.close] at hclose
    cases hclose
  refine spec_look_at ?_
  rw [hspare.openStaged, Bool.false_or]
  refine spec_check (fun s hs hrefused => ⟨⟨_, hs⟩, ?_⟩) fun hpassed => ?_
  · simp only [content, put_self, Bool.not_eq_true'] at hrefused
    rw [hrefused] at hstaged
    exact hstaged
  · simp only [content, put_self, Bool.not_eq_false'] at hpassed
    rw [hpassed] at hstaged
    obtain ⟨hwhole, houtcome⟩ := hstaged
    rw [hwhole]
    exact spec_pure _ fun s hs => ⟨hs, houtcome⟩

/-- The staging file takes the destination's place, also where the two names are
the same. -/
theorem move_staged {staged whole : Bytes} (hfree : d staged = none) :
    move staged path (put staged (some (.file whole)) d) = put path (some (.file whole)) d := by
  unfold move
  rw [put_self, put_none_put hfree]

theorem spec_restoreStaged_total {staged : Bytes} (hpos : 0 < options.maxBytes)
    (hv : v.verify stream.chunks.flatten = true) (hfree : d staged = none) :
    let r := ended (limitOutcome options.maxBytes stream.chunks.flatten.length
        RestoreErr.snapshotTooLarge .verifySnapshot)
      (put path (some (.file stream.chunks.flatten)) d) d
    Spec (fun _ => True) (fun s => s = d)
      (restoreStaged v {} stream options false path [] staged)
      (fun n s => (.ok n, s) = r) (fun e s => (.error e, s) = r) := by
  intro r
  refine spec_look_at (spec_check (fun s _ h => by rw [hfree] at h; cases h) fun _ => ?_)
  refine spec_bind (M := fun _ s => s = put staged (some (.file [])) d) (spec_change ?_) fun _ => ?_
  · rintro s rfl
    exact ⟨trivial, rfl⟩
  refine spec_recover (spec_bind (spec_stage_total spareStaging_none hpos hv) fun n => ?_)
    fun e => ?_
  · -- the snapshot is whole and takes the destination's place
    refine spec_given fun hn => ?_
    refine spec_bind (M := fun _ s => s = put path (some (.file stream.chunks.flatten)) d) ?_
      fun _ => spec_pure _ ?_
    · refine spec_look_at (spec_check ?_ fun _ => spec_change ?_)
      · intro s _ hmissing
        rw [put_self] at hmissing
        cases hmissing
      · rintro s rfl
        exact ⟨trivial, move_staged hfree⟩
    · rintro s rfl
      exact ended_ok hn _ _
  · -- the staging file is removed
    refine spec_bind (M := fun _ s => (.error e, s) = r) (spec_change ?_) fun _ =>
      spec_throw e fun s hs => hs
    rintro s ⟨⟨content, rfl⟩, he⟩
    rw [put_none_put hfree]
    exact ⟨trivial, ended_error he _ _⟩

/-- Where nothing refuses it, a restore comes to its staging file. -/
theorem restore_run {destination : Bytes} {random : Nat} (hspare : faults.SpareChecks)
    (hpos : 0 < options.maxBytes) (hnamed : destination ≠ [])
    (hable : Restorable d (Path.clean destination) options) (past : List Dir) :
    (restore v faults random (some stream) destination options).run ⟨d, past⟩ =
      (restoreStaged v faults stream options (present (d (Path.clean destination)))
        (Path.clean destination) (rollbackGiven d (Path.clean destination) options)
        (stagingPath (Path.clean destination) random)).run ⟨d, past⟩ := by
  unfold restore
  rw [run_check (decide_eq_false (Int.not_le.mpr hpos)), run_check (beq_false_of_ne hnamed),
    run_check hspare.stat, run_look, run_check (beq_false_of_ne hable.notDirectory),
    run_check hable.overwrites, hable.validated hspare.lstat]
  exact run_check (by rw [hspare.online, Bool.and_false]) _ _ _

theorem spec_restore_of_staged {I : Dir → Prop} {post : Nat → Dir → Prop}
    {fail : Nat × RestoreErr → Dir → Prop} {destination : Bytes} {random : Nat}
    (hspare : faults.SpareChecks) (hpos : 0 < options.maxBytes) (hnamed : destination ≠ [])
    (hable : Restorable d (Path.clean destination) options)
    (h : Spec I (fun s => s = d) (restoreStaged v faults stream options
      (present (d (Path.clean destination))) (Path.clean destination)
      (rollbackGiven d (Path.clean destination) options)
      (stagingPath (Path.clean destination) random)) post fail) :
    Spec I (fun s => s = d) (restore v faults random (some stream) destination options)
      post fail := by
  rintro ⟨_, past⟩ rfl
  rw [restore_run hspare hpos hnamed hable]
  exact h _ rfl

theorem spec_restore_total {destination : Bytes} {random : Nat} (hpos : 0 < options.maxBytes)
    (hv : v.verify stream.chunks.flatten = true) (hnamed : destination ≠ [])
    (habsent : present (d (Path.clean destination)) = false)
    (hfree : d (stagingPath (Path.clean destination) random) = none)
    (hroll : options.rollbackPath = []) :
    let r := ended (limitOutcome options.maxBytes stream.chunks.flatten.length
        RestoreErr.snapshotTooLarge .verifySnapshot)
      (put (Path.clean destination) (some (.file stream.chunks.flatten)) d) d
    Spec (fun _ => True) (fun s => s = d) (restore v {} random (some stream) destination options)
      (fun n s => (.ok n, s) = r) (fun e s => (.error e, s) = r) := by
  refine spec_restore_of_staged spareChecks_none hpos hnamed (.inl ⟨habsent, hroll⟩) ?_
  rw [rollbackGiven, habsent]
  exact spec_restoreStaged_total hpos hv hfree

theorem spec_validateSnapshot_total (hpos : 0 < options.maxBytes)
    (hv : v.verify stream.chunks.flatten = true) (hfree : d path = none) :
    let r := ended (limitOutcome options.maxBytes stream.chunks.flatten.length
      ValidateErr.snapshotTooLarge .invalidSnapshot) d d
    Spec (fun _ => True) (fun s => s = d) (validateSnapshot v {} path stream options.maxBytes)
      (fun n s => (.ok n, s) = r) (fun e s => (.error e, s) = r) := by
  intro r
  refine spec_check (fun s _ h => absurd hpos (Int.not_lt.mpr (of_decide_eq_true h))) fun _ => ?_
  refine spec_look_at (spec_check (fun s _ h => by rw [hfree] at h; cases h) fun _ => ?_)
  refine spec_bind (M := fun _ s => s = put path (some (.file [])) d) (spec_change ?_) fun _ => ?_
  · rintro s rfl
    exact ⟨trivial, rfl⟩
  refine spec_deferred (M := fun n s => (.ok n, d) = r ∧ Staging d path s)
    (R := fun e s => (.error e, d) = r ∧ Staging d path s) ?_ ?_ ?_
  · refine spec_bind (spec_relabel (spec_conseq
      (spec_copy_total spareStaging_none stream.chunks (copyLimit options))
      (fun s hs => hs) (fun n s hs => hs) fun e s hs => hs.elim)) fun n => ?_
    refine spec_given fun hn => ?_
    subst hn
    refine spec_check (fun s _ hclose => by cases hclose) fun _ => ?_
    refine spec_check ?_ fun hsize => ?_
    · intro s hs hlarge
      exact ⟨ended_error (outcome_tooLarge hpos (of_decide_eq_true hlarge)) _ _, _, hs⟩
    have hstaged := @outcome_staged v options _ _ ValidateErr.snapshotTooLarge .invalidSnapshot
      hpos hv (of_decide_eq_false hsize)
    refine spec_look_at (spec_check (fun s hs hrefused => ⟨?_, _, hs⟩) fun hpassed => ?_)
    · simp only [content, put_self, Bool.false_or, Bool.not_eq_true'] at hrefused
      rw [hrefused] at hstaged
      exact ended_error hstaged _ _
    · simp only [content, put_self, Bool.false_or, Bool.not_eq_false'] at hpassed
      rw [hpassed] at hstaged
      exact spec_pure _ fun s hs => ⟨ended_ok hstaged.2 _ _, _, hs⟩
  -- on both ways out the temporary file is removed
  · rintro n s ⟨hr, content, rfl⟩
    rw [put_none_put hfree]
    exact ⟨trivial, hr⟩
  · rintro e s ⟨hr, content, rfl⟩
    rw [put_none_put hfree]
    exact ⟨trivial, hr⟩

end

/-- **Limits.** For every positive limit and every valid snapshot, where nothing
fails, look at `Restore` to an absent destination and at `ValidateSnapshot`. Each
succeeds if and only if the snapshot is no longer than the limit, reports its
length, and, for `Restore`, has then put exactly its bytes in place and otherwise
left the directory as it was, if and only if the limit is below `math.MaxInt64`.
At `math.MaxInt64` both refuse every snapshot with no byte read. No more than one
byte past the limit is ever read. -/
theorem size_limits_exact {v : Verifier} {stream : Stream} {options : Options} {d temporary : Dir}
    {destination temporaryPath : Bytes} {random : Nat} (hpos : 0 < options.maxBytes)
    (hv : v.verify stream.chunks.flatten = true)
    (hnamed : destination ≠ []) (habsent : present (d (Path.clean destination)) = false)
    (hfree : d (stagingPath (Path.clean destination) random) = none)
    (hroll : options.rollbackPath = []) (htemporary : temporary temporaryPath = none) :
    let whole := stream.chunks.flatten
    let restored := ending ((restore v {} random (some stream) destination options).run ⟨d, []⟩)
    let validated :=
      ending ((validateSnapshot v {} temporaryPath stream options.maxBytes).run ⟨temporary, []⟩)
    (restored = limited options.maxBytes whole.length .snapshotTooLarge
        (put (Path.clean destination) (some (.file whole)) d) d ↔
      options.maxBytes < 2 ^ 63 - 1) ∧
    (validated = limited options.maxBytes whole.length .snapshotTooLarge temporary temporary ↔
      options.maxBytes < 2 ^ 63 - 1) ∧
    (options.maxBytes = 2 ^ 63 - 1 →
      restored = (.error (0, .verifySnapshot), d) ∧
        validated = (.error (0, .invalidSnapshot), temporary)) ∧
    ∀ staged, (ending ((copy {} staged (copyLimit options) 0 stream.chunks).run
        ⟨put staged (some (.file [])) d, []⟩)).1 =
      .ok (if options.maxBytes = 2 ^ 63 - 1 then 0
        else min (options.maxBytes.toNat + 1) whole.length) := by
  intro whole restored validated
  have hrestored := ending_eq (spec_restore_total hpos hv hnamed habsent hfree hroll) []
  have hvalidated := ending_eq (spec_validateSnapshot_total hpos hv htemporary) []
  refine ⟨?_, ?_, ?_, ?_⟩
  · show ending _ = _ ↔ _
    rw [hrestored]
    exact ended_eq_limited_iff options.maxBytes_lt (by decide)
  · show ending _ = _ ↔ _
    rw [hvalidated]
    exact ended_eq_limited_iff options.maxBytes_lt (by decide)
  · intro hmax
    rw [limitOutcome, if_pos hmax] at hrestored hvalidated
    exact ⟨hrestored, hvalidated⟩
  · intro staged
    rw [copied_eq, copyLimit_eq hpos]
    split
    · rw [Nat.zero_min]
    · rfl

/-- Two bytes under a limit of two and of one. -/
theorem size_limits_exact_sample :
    (ending ((restore sampleVerifier {} 6 (some sampleStream) (ascii "/n.db")
        ⟨2, false, [], by decide⟩).run ⟨sampleDir, []⟩)).1 = .ok 2 ∧
      (ending ((validateSnapshot sampleVerifier {} (ascii "/tmp/v.db") sampleStream 1).run
        ⟨sampleDir, []⟩)).1 = .error (2, .snapshotTooLarge) := by
  have hfree : sampleDir (stagingPath (Path.clean (ascii "/n.db")) 6) = none := by decide +kernel
  have htwo := @size_limits_exact sampleVerifier sampleStream ⟨2, false, [], by decide⟩ sampleDir
    sampleDir (ascii "/n.db") (ascii "/tmp/v.db") 6 (by decide) (by decide) (by decide)
    (by decide +kernel) hfree rfl (by decide +kernel)
  have hone := @size_limits_exact sampleVerifier sampleStream ⟨1, false, [], by decide⟩ sampleDir
    sampleDir (ascii "/n.db") (ascii "/tmp/v.db") 6 (by decide) (by decide) (by decide)
    (by decide +kernel) hfree rfl (by decide +kernel)
  constructor
  · rw [htwo.1.mpr (by decide)]
    rfl
  · rw [hone.2.1.mpr (by decide)]
    rfl

/-- Under a limit of `math.MaxInt64` nothing is read of a snapshot of two bytes,
and neither call takes it. -/
theorem max_limit_refuses :
    let options : Options := ⟨2 ^ 63 - 1, false, [], by decide⟩
    sampleVerifier.verify sampleStream.chunks.flatten = true ∧
      (sampleStream.chunks.flatten.length : Int) ≤ options.maxBytes ∧
      (ending ((restore sampleVerifier {} 6 (some sampleStream) (ascii "/n.db") options).run
        ⟨sampleDir, []⟩)).1 = .error (0, .verifySnapshot) ∧
      (ending ((validateSnapshot sampleVerifier {} (ascii "/tmp/v.db") sampleStream
        options.maxBytes).run ⟨sampleDir, []⟩)).1 = .error (0, .invalidSnapshot) := by
  decide +kernel

end KoraDB.Recovery
