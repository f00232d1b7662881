import KoraDB.Recovery.Restore

/-!
# A restore loses no database

At every step the destination holds what it held before, or the whole verified
snapshot, or, between the two renames of an overwrite, nothing; and an existing
database is at the destination or at the rollback path. An error leaves the
directory as it was, unless both the publishing rename and the one back have
failed.

This takes a staging file apart from the destination and the rollback path
(`Apart`). That it has to be is in `KoraDB.Recovery.Collisions`.
-/

namespace KoraDB.Recovery

open KoraDB.Base KoraDB.Base.Steps

/-! ## Entries -/

section Entries

variable {d : Dir} {p q src dst : Bytes} {e e' : Option Entry}

@[simp] theorem put_self : put p e d p = e := if_pos rfl

@[simp] theorem put_other (h : q ≠ p) : put p e d q = d q := if_neg h

theorem put_put : put p e (put p e' d) = put p e d := by
  funext q
  by_cases hq : q = p
  · rw [hq, put_self, put_self]
  · rw [put_other hq, put_other hq, put_other hq]

/-- Removing a file that was created gives back the directory. -/
theorem put_none_put (h : d p = none) : put p none (put p e d) = d := by
  rw [put_put]
  funext q
  by_cases hq : q = p
  · rw [hq, put_self, h]
  · exact put_other hq

theorem put_comm (h : p ≠ q) : put p e (put q e' d) = put q e' (put p e d) := by
  funext r
  simp only [put]
  split_ifs with hp hq
  · exact absurd (hp.symm.trans hq) h
  · rfl
  · rfl
  · rfl

@[simp] theorem move_dst : move src dst d dst = d src := put_self

theorem move_src (h : src ≠ dst) : move src dst d src = none := by
  unfold move
  rw [put_other h, put_self]

theorem move_other (hs : p ≠ src) (hd : p ≠ dst) : move src dst d p = d p := by
  unfold move
  rw [put_other hd, put_other hs]

/-- Moving a file away and back. -/
theorem move_move (h : src ≠ dst) (hfree : d dst = none) : move dst src (move src dst d) = d := by
  funext p
  by_cases hs : p = src
  · rw [hs, move_dst, move_dst]
  · by_cases hd : p = dst
    · rw [hd, move_src h.symm, hfree]
    · rw [move_other hd hs, move_other hs hd]

theorem put_move (hs : p ≠ src) (hd : p ≠ dst) :
    put p e (move src dst d) = move src dst (put p e d) := by
  unfold move
  rw [put_comm hd, put_comm hs, put_other hs.symm]

theorem append_put {content bytes : Bytes} :
    append p bytes (put p (some (.file content)) d) =
      put p (some (.file (content ++ bytes))) d := by
  unfold append
  rw [put_self]
  exact put_put

end Entries

/-! ## Staging -/

/-- The directory with a staging file in it. -/
def Staging (d : Dir) (staged : Bytes) (s : Dir) : Prop :=
  ∃ content, s = put staged (some (.file content)) d

/-- A read or a write of the copy fails. -/
def Faults.breakCopy (faults : Faults) : Prop :=
  faults.read = true ∨ ∃ i k, faults.write i = some k

/-- The copy ends with what the limit lets through, unless the reader or the
staging file fails. -/
theorem spec_copy {I : Dir → Prop} {faults : Faults} {d : Dir} {staged : Bytes}
    (hI : ∀ s, Staging d staged s → I s) (chunks : List Bytes) (limit : Nat) (content : Bytes) :
    Spec I (fun s => s = put staged (some (.file content)) d)
      (copy faults staged limit content.length chunks)
      (fun n s => s = put staged (some (.file (content ++ chunks.flatten.take limit))) d ∧
        n = (content ++ chunks.flatten.take limit).length)
      (fun e s => Staging d staged s ∧ e.2 = .stage ∧ faults.breakCopy) := by
  induction chunks generalizing limit content with
  | nil =>
      refine spec_check ?_ fun _ => ?_
      · intro s hs hread
        exact ⟨⟨content, hs⟩, rfl, .inl (Bool.and_eq_true_iff.mp hread).1⟩
      exact spec_pure _ fun s hs => by simpa using hs
  | cons chunk rest ih =>
      unfold copy
      by_cases hlimit : limit = 0
      · rw [if_pos hlimit]
        exact spec_pure _ fun s hs => by simpa [hlimit] using hs
      · rw [if_neg hlimit]
        cases hw : faults.write rest.length with
        | some k =>
            refine spec_bind (M := fun _ s => Staging d staged s) (spec_change ?_) fun _ =>
              spec_throw _ fun s hs => ⟨hs, rfl, .inr ⟨_, _, hw⟩⟩
            rintro s rfl
            rw [append_put]
            exact ⟨hI _ ⟨_, rfl⟩, _, rfl⟩
        | none =>
            refine spec_bind (M := fun _ s => s = put staged
              (some (.file (content ++ chunk.take limit))) d) (spec_change ?_) fun _ => ?_
            · rintro s rfl
              rw [append_put]
              exact ⟨hI _ ⟨_, rfl⟩, rfl⟩
            · have hlen : content.length + (chunk.take limit).length =
                  (content ++ chunk.take limit).length := List.length_append.symm
              have hleft : limit - (chunk.take limit).length = limit - chunk.length := by
                rw [List.length_take]
                omega
              rw [hlen, hleft, List.flatten_cons, List.take_append, ← List.append_assoc]
              exact ih _ _

/-- What is staged within the limit and passes verification is the whole
snapshot. A limit of `math.MaxInt64` wraps around and stages nothing, which does
not pass. -/
theorem staged_whole {v : Verifier} {options : Options} {whole : Bytes} {n : Nat}
    (hn : n = (whole.take (copyLimit options)).length) (hpos : 0 < options.maxBytes)
    (hle : (n : Int) ≤ options.maxBytes)
    (hv : v.verify (whole.take (copyLimit options)) = true) :
    whole.take (copyLimit options) = whole := by
  have hlt := options.maxBytes_lt
  by_cases hmax : options.maxBytes + 1 = 2 ^ 63
  · have hlimit : copyLimit options = 0 := by
      unfold copyLimit
      rw [hmax]
      rfl
    rw [hlimit, List.take_zero, v.verify_empty] at hv
    cases hv
  · have hlimit : (copyLimit options : Int) = options.maxBytes + 1 := by
      unfold copyLimit wrap64
      omega
    rw [List.length_take] at hn
    exact List.take_of_length_le (by omega)

theorem spec_stage {I : Dir → Prop} {v : Verifier} {faults : Faults} {stream : Stream}
    {options : Options} {d : Dir} {staged : Bytes} (hI : ∀ s, Staging d staged s → I s)
    (hpos : 0 < options.maxBytes) :
    Spec I (fun s => s = put staged (some (.file [])) d) (stage v faults stream options staged)
      (fun n s => s = put staged (some (.file stream.chunks.flatten)) d ∧
        v.verify stream.chunks.flatten = true ∧ n = stream.chunks.flatten.length)
      (fun e s => Staging d staged s ∧ e.2 ≠ .publishAndRollback) := by
  refine spec_check (fun s hs _ => ⟨⟨[], hs⟩, by simp⟩) fun _ => ?_
  refine spec_bind (spec_conseq (spec_copy hI stream.chunks (copyLimit options) [])
    (fun s hs => hs) (fun n s hs => hs) fun e s hs => ⟨hs.1, by simp [hs.2.1]⟩) fun n => ?_
  rw [List.nil_append]
  refine spec_given fun hn => ?_
  refine spec_check (fun s hs _ => ⟨⟨_, hs⟩, by simp⟩) fun hsize => ?_
  refine spec_check (fun s hs _ => ⟨⟨_, hs⟩, by simp⟩) fun _ => ?_
  refine spec_check (fun s hs _ => ⟨⟨_, hs⟩, by simp⟩) fun _ => ?_
  refine spec_look_at ?_
  refine spec_check (fun s hs _ => ⟨⟨_, hs⟩, by simp⟩) fun hverify => ?_
  have hv : v.verify (stream.chunks.flatten.take (copyLimit options)) = true := by
    simpa [content] using (Bool.or_eq_false_iff.mp hverify).2
  have hwhole := staged_whole hn hpos (by simpa using hsize) hv
  rw [hwhole] at hn hv ⊢
  exact spec_pure n fun s hs => ⟨hs, hv, hn⟩

/-- One rename from a known state. -/
theorem spec_rename {I : Dir → Prop} {fails : Bool} {src dst : Bytes} {e : Nat × RestoreErr}
    {s₀ : Dir} (hI : I (move src dst s₀)) :
    Spec I (fun s => s = s₀) (rename fails src dst e) (fun _ s => s = move src dst s₀)
      (fun e' s => s = s₀ ∧ e' = e) := by
  refine spec_look_at (spec_check (fun s hs _ => ⟨hs, rfl⟩) fun _ => spec_change ?_)
  rintro s rfl
  exact ⟨hI, rfl⟩

/-! ## What every step keeps -/

/-- The database has been moved away: the snapshot is about to take its place,
or, once the staging file is removed, could not. -/
def MovedAway (d : Dir) (destination rollbackPath staged whole : Bytes) (s : Dir) : Prop :=
  s = move destination rollbackPath (put staged (some (.file whole)) d) ∨
    s = move destination rollbackPath d

/-- A state of the directory `d` in a restore of the snapshot `whole`. -/
structure Intact (v : Verifier) (whole : Bytes) (d : Dir) (destination rollbackPath staged : Bytes)
    (s : Dir) : Prop where
  /-- The destination is as it was, or the verified snapshot, or away. -/
  place : s destination = d destination ∨
    (s destination = some (.file whole) ∧ v.verify whole = true) ∨
    (present (d destination) = true ∧ s destination = none ∧
      MovedAway d destination rollbackPath staged whole s)
  /-- A database that was there is at one of the two paths. -/
  original : present (d destination) = true →
    s destination = d destination ∨ s rollbackPath = d destination

section Publish

variable {v : Verifier} {whole : Bytes} {d : Dir} {destination rollbackPath staged : Bytes}

theorem intact_of_same {s : Dir} (h : s destination = d destination) :
    Intact v whole d destination rollbackPath staged s :=
  ⟨.inl h, fun _ => .inl h⟩

theorem intact_staging (hne : staged ≠ destination) {s : Dir} (hs : Staging d staged s) :
    Intact v whole d destination rollbackPath staged s := by
  obtain ⟨content, rfl⟩ := hs
  exact intact_of_same (put_other hne.symm)

theorem intact_movedAway (hne : staged ≠ destination) (hpath : rollbackPath ≠ destination)
    (hpresent : present (d destination) = true) {s : Dir}
    (hs : MovedAway d destination rollbackPath staged whole s) :
    Intact v whole d destination rollbackPath staged s := by
  have hplaces : s destination = none ∧ s rollbackPath = d destination := by
    rcases hs with rfl | rfl
    · rw [move_src hpath.symm, move_dst, put_other hne.symm]
      exact ⟨rfl, rfl⟩
    · rw [move_src hpath.symm, move_dst]
      exact ⟨rfl, rfl⟩
  exact ⟨.inr (.inr ⟨hpresent, hplaces.1, hs⟩), fun _ => .inr hplaces.2⟩

/-- How `restore` ends well. -/
structure Restored (v : Verifier) (whole : Bytes) (d : Dir)
    (destination rollbackPath staged : Bytes) (s : Dir) : Prop where
  snapshot : s destination = some (.file whole)
  verified : v.verify whole = true
  kept : present (d destination) = true → s rollbackPath = d destination
  noStaging : s staged = none

/-- How the renames fail: nothing has changed, or the database is left at the
rollback path. -/
def PublishFailed (d : Dir) (destination rollbackPath staged whole : Bytes) (e : Nat × RestoreErr)
    (s : Dir) : Prop :=
  (s = put staged (some (.file whole)) d ∧ e.2 ≠ .publishAndRollback) ∨
    (s = move destination rollbackPath (put staged (some (.file whole)) d) ∧
      e.2 = .publishAndRollback ∧ present (d destination) = true ∧ rollbackPath ≠ destination ∧
      staged ≠ rollbackPath)

/-- Over an existing database. -/
theorem spec_publish_over {faults : Faults} {n : Nat} (hv : v.verify whole = true)
    (hne : staged ≠ destination) (hroll : staged ≠ rollbackPath)
    (hpath : rollbackPath ≠ destination) (hfree : d rollbackPath = none)
    (hpresent : present (d destination) = true) :
    Spec (Intact v whole d destination rollbackPath staged)
      (fun s => s = put staged (some (.file whole)) d)
      (publish faults true destination rollbackPath staged n)
      (fun m s => Restored v whole d destination rollbackPath staged s ∧ m = n)
      (PublishFailed d destination rollbackPath staged whole) := by
  have haway : Intact v whole d destination rollbackPath staged
      (move destination rollbackPath (put staged (some (.file whole)) d)) :=
    intact_movedAway hne hpath hpresent (.inl rfl)
  -- the snapshot is in place
  have hdone : Restored v whole d destination rollbackPath staged (move staged destination
      (move destination rollbackPath (put staged (some (.file whole)) d))) := by
    refine ⟨?_, hv, fun _ => ?_, move_src hne⟩
    · rw [move_dst, move_other hne hroll, put_self]
    · rw [move_other hroll.symm hpath, move_dst, put_other hne.symm]
  have hplaced : Intact v whole d destination rollbackPath staged (move staged destination
      (move destination rollbackPath (put staged (some (.file whole)) d))) :=
    ⟨.inr (.inl ⟨hdone.snapshot, hv⟩), fun h => .inr (hdone.kept h)⟩
  -- the database is back in place
  have hback : move rollbackPath destination (move destination rollbackPath
      (put staged (some (.file whole)) d)) = put staged (some (.file whole)) d := by
    apply move_move hpath.symm
    rw [put_other hroll.symm, hfree]
  refine spec_bind (spec_conseq (spec_rename haway) (fun s hs => hs) (fun _ s hs => hs) ?_)
    fun _ => ?_
  · rintro e s ⟨rfl, rfl⟩
    exact .inl ⟨rfl, by simp⟩
  · refine spec_bind (spec_recover (spec_rename hplaced) fun e => ?_) fun _ =>
      spec_pure n fun s hs => ⟨hs ▸ hdone, rfl⟩
    refine spec_given fun he => ?_
    refine spec_bind (spec_conseq (spec_rename ?_) (fun s hs => hs) (fun _ s hs => hs) ?_)
      fun _ => spec_throw e fun s hs => .inl ⟨hs.trans hback, by simp [he]⟩
    · rw [hback]
      exact intact_staging hne ⟨whole, rfl⟩
    · rintro e' s ⟨rfl, rfl⟩
      exact .inr ⟨rfl, rfl, hpresent, hpath, hroll⟩

/-- Where there was no database; the rollback path plays no part. -/
theorem spec_publish_new {faults : Faults} {unused : Bytes} {n : Nat} (hv : v.verify whole = true)
    (hne : staged ≠ destination) (habsent : present (d destination) = false) :
    Spec (Intact v whole d destination rollbackPath staged)
      (fun s => s = put staged (some (.file whole)) d)
      (publish faults false destination unused staged n)
      (fun m s => Restored v whole d destination rollbackPath staged s ∧ m = n)
      (PublishFailed d destination rollbackPath staged whole) := by
  have hno : ∀ {P : Prop}, present (d destination) = true → P := by
    intro P h
    rw [habsent] at h
    cases h
  have hdone : Restored v whole d destination rollbackPath staged
      (move staged destination (put staged (some (.file whole)) d)) := by
    refine ⟨?_, hv, hno, move_src hne⟩
    rw [move_dst, put_self]
  refine spec_bind (spec_conseq (spec_rename ⟨.inr (.inl ⟨hdone.snapshot, hv⟩), hno⟩)
    (fun s hs => hs) (fun _ s hs => hs) ?_) fun _ => spec_pure n fun s hs => ⟨hs ▸ hdone, rfl⟩
  rintro e s ⟨rfl, rfl⟩
  exact .inl ⟨rfl, by simp⟩

theorem spec_publish {faults : Faults} {given : Bytes} {n : Nat} (hv : v.verify whole = true)
    (hne : staged ≠ destination)
    (hgiven : present (d destination) = true → given = rollbackPath ∧
      staged ≠ rollbackPath ∧ rollbackPath ≠ destination ∧ d rollbackPath = none) :
    Spec (Intact v whole d destination rollbackPath staged)
      (fun s => s = put staged (some (.file whole)) d)
      (publish faults (present (d destination)) destination given staged n)
      (fun m s => Restored v whole d destination rollbackPath staged s ∧ m = n)
      (PublishFailed d destination rollbackPath staged whole) := by
  cases hpresent : present (d destination) with
  | false => exact spec_publish_new hv hne hpresent
  | true =>
      obtain ⟨rfl, hroll, hpath, hfree⟩ := hgiven hpresent
      exact spec_publish_over hv hne hroll hpath hfree hpresent

/-- How `restore` fails: the directory is as it was, or, if both renames have
failed, the database is left at the rollback path. -/
def Failed (d : Dir) (destination rollbackPath : Bytes) (e : Nat × RestoreErr) (s : Dir) : Prop :=
  (s = d ∧ e.2 ≠ .publishAndRollback) ∨
    (e.2 = .publishAndRollback ∧ present (d destination) = true ∧
      s = move destination rollbackPath d)

theorem spec_restoreStaged {faults : Faults} {stream : Stream} {options : Options}
    {given : Bytes} (hpos : 0 < options.maxBytes) (hne : staged ≠ destination)
    (hgiven : present (d destination) = true → given = rollbackPath ∧
      staged ≠ rollbackPath ∧ rollbackPath ≠ destination ∧ d rollbackPath = none) :
    Spec (Intact v stream.chunks.flatten d destination rollbackPath staged) (fun s => s = d)
      (restoreStaged v faults stream options (present (d destination)) destination given staged)
      (fun n s => Restored v stream.chunks.flatten d destination rollbackPath staged s ∧
        n = stream.chunks.flatten.length)
      (Failed d destination rollbackPath) := by
  refine spec_look_at (spec_check (fun s hs _ => .inl ⟨hs, by simp⟩) fun hcreated => ?_)
  have hfree : d staged = none := by
    simpa using (Bool.or_eq_false_iff.mp hcreated).2
  refine spec_bind (M := fun _ s => s = put staged (some (.file [])) d) (spec_change ?_) fun _ => ?_
  · rintro s rfl
    exact ⟨intact_staging hne ⟨[], rfl⟩, rfl⟩
  · refine spec_recover (R := fun e s => (Staging d staged s ∧ e.2 ≠ .publishAndRollback) ∨
      PublishFailed d destination rollbackPath staged stream.chunks.flatten e s) ?_ ?_
    · refine spec_bind (spec_conseq (spec_stage (fun s hs => intact_staging hne hs) hpos)
        (fun s hs => hs) (fun _ s hs => hs) fun e s hs => .inl hs) fun n => ?_
      refine spec_given fun hstaged => ?_
      refine spec_conseq (spec_publish hstaged.1 hne hgiven) (fun s hs => hs) ?_
        fun e s hs => .inr hs
      rintro m s ⟨hs, rfl⟩
      exact ⟨hs, hstaged.2⟩
    · intro e
      refine spec_bind (M := fun _ s => Failed d destination rollbackPath e s) (spec_change ?_)
        fun _ => spec_throw e fun s hs => hs
      rintro s (⟨⟨content, rfl⟩, he⟩ | ⟨rfl, he⟩ | ⟨rfl, he, hpresent, hpath, hroll⟩)
      · rw [put_none_put hfree]
        exact ⟨intact_of_same rfl, .inl ⟨rfl, he⟩⟩
      · rw [put_none_put hfree]
        exact ⟨intact_of_same rfl, .inl ⟨rfl, he⟩⟩
      · rw [put_move hne hroll, put_none_put hfree]
        exact ⟨intact_movedAway hne hpath hpresent (.inr rfl), .inr ⟨he, hpresent, rfl⟩⟩

end Publish

/-- A rollback path that passes its check. -/
theorem validateRollbackPath_eq_ok {faults : Faults} {d : Dir} {destination path : Bytes}
    {options : Options} (hover : options.overwrite = true)
    (h : validateRollbackPath faults d destination true options = .ok path) :
    path = Path.clean options.rollbackPath ∧ path ≠ destination ∧ d path = none := by
  unfold validateRollbackPath at h
  simp only [Bool.not_true, Bool.false_eq_true, if_false, hover] at h
  split at h
  · cases h
  · split at h
    · cases h
    · split at h
      · cases h
      · rename_i hne
        split at h
        · cases h
        · split at h
          · cases h
          · rename_i hfree
            cases h
            exact ⟨rfl, hne, by simpa using hfree⟩

theorem validateRollbackPath_error {faults : Faults} {d : Dir} {destination : Bytes} {b : Bool}
    {options : Options} {e : RestoreErr}
    (h : validateRollbackPath faults d destination b options = .error e) :
    e ≠ .publishAndRollback := by
  rintro rfl
  simp only [validateRollbackPath] at h
  repeat' split at h
  all_goals cases h

/-- The staging file has a name of its own: not the destination's nor, where a
database is there, the rollback path's. -/
structure Apart (d : Dir) (destination : Bytes) (options : Options) (staged : Bytes) : Prop where
  notDestination : staged ≠ destination
  notRollbackPath : present (d destination) = true → staged ≠ Path.clean options.rollbackPath

/-- The bytes of a snapshot. -/
def wholeOf (r : Option Stream) : Bytes := (r.map fun stream => stream.chunks.flatten).getD []

theorem spec_restore (v : Verifier) (faults : Faults) (random : Nat) (r : Option Stream)
    (destination : Bytes) (options : Options) (d : Dir)
    (hapart : Apart d (Path.clean destination) options
      (stagingPath (Path.clean destination) random)) :
    Spec (Intact v (wholeOf r) d (Path.clean destination) (Path.clean options.rollbackPath)
        (stagingPath (Path.clean destination) random))
      (fun s => s = d) (restore v faults random r destination options)
      (fun n s => Restored v (wholeOf r) d (Path.clean destination)
          (Path.clean options.rollbackPath) (stagingPath (Path.clean destination) random) s ∧
        n = (wholeOf r).length)
      (Failed d (Path.clean destination) (Path.clean options.rollbackPath)) := by
  unfold restore
  cases r with
  | none => exact spec_throw _ fun s hs => .inl ⟨hs, by simp⟩
  | some stream =>
      refine spec_check (fun s hs _ => .inl ⟨hs, by simp⟩) fun hpos => ?_
      refine spec_check (fun s hs _ => .inl ⟨hs, by simp⟩) fun _ => ?_
      refine spec_check (fun s hs _ => .inl ⟨hs, by simp⟩) fun _ => ?_
      refine spec_look_at ?_
      refine spec_check (fun s hs _ => .inl ⟨hs, by simp⟩) fun _ => ?_
      refine spec_check (fun s hs _ => .inl ⟨hs, by simp⟩) fun hover => ?_
      cases hvalid : validateRollbackPath faults d (Path.clean destination)
          (present (d (Path.clean destination))) options with
      | error e => exact spec_throw _ fun s hs => .inl ⟨hs, validateRollbackPath_error hvalid⟩
      | ok given =>
          refine spec_check (fun s hs _ => .inl ⟨hs, by simp⟩) fun _ => ?_
          refine spec_restoreStaged (by simpa using hpos) hapart.notDestination ?_
          intro hpresent
          rw [hpresent] at hvalid hover
          obtain ⟨rfl, hpath, hfree⟩ :=
            validateRollbackPath_eq_ok (by simpa using hover) hvalid
          exact ⟨rfl, hapart.notRollbackPath hpresent, hpath, hfree⟩

/-! ## A sample -/

/-- A verifier that knows one snapshot. -/
def sampleVerifier : Verifier := ⟨fun b => b == [7, 7], rfl⟩

def sampleOptions (overwrite : Bool) (rollbackPath : Bytes) : Options :=
  ⟨100, overwrite, rollbackPath, by decide⟩

def sampleStream : Stream := ⟨[[7], [7]]⟩

/-- The database `k.db`, and nothing else. -/
def sampleDir : Dir := put (ascii "/k.db") (some (.file [1, 2])) fun _ => none

/-- The restore of the sample snapshot over the database. -/
def sampleRestore (faults : Faults) (random : Nat) (rollbackPath : Bytes) :
    EStateM.Result (Nat × RestoreErr) (Traced Dir) Nat :=
  (restore sampleVerifier faults random (some sampleStream) (ascii "/k.db")
    (sampleOptions true rollbackPath)).run ⟨sampleDir, []⟩

/-- The error of a restore, and the entries of some paths after every step. -/
def observe (paths : List Bytes) (r : EStateM.Result (Nat × RestoreErr) (Traced Dir) Nat) :
    Option RestoreErr × List (List (Option Entry)) :=
  (match r with
    | .ok _ _ => none
    | .error e _ => some e.2,
    (visited r).map fun s => paths.map s)

end KoraDB.Recovery
