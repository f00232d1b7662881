import KoraDB.Cli.Commands
import KoraDB.Schema.Reopen
import KoraDB.Server.Deployment

/-!
# Sessions

A session is a sequence of commands. Against a file each command is a process of
its own that opens the file, does its work and leaves; against a server the
database stays open, requests may get lost, and other clients do things in
between. `session_agrees` says that the second is no more than the first with
some commands left out: those that failed. The database becomes the same, and
every command that succeeds prints what it prints on the file.
-/

namespace KoraDB.Cli

open KoraDB.Base KoraDB.Catalog KoraDB.Schema KoraDB.Engine KoraDB.Server KoraDB.System

/-! ## Turns -/

inductive Output
  | usage
  | text (out : Bytes)
  deriving DecidableEq

/-- The end of `run`: the job is done on the backend `be` of the database `r`. -/
def perform (be : (op : Operation) → Registry × Except BackendErr op.Result) (r : Registry) :
    Except CommandErr (Option Job) → Registry × Except CommandErr Output
  | .error e => (r, .error e)
  | .ok none => (r, .ok .usage)
  | .ok (some job) =>
    ((be job.op).1, (wrap (be job.op).2 .backend).map fun res => .text (job.print res))

/-- A command with its arguments, what it finds outside the database, and what
becomes of its request if it makes one. -/
structure Turn where
  cmd : Bytes
  args : List Bytes
  process : Process
  fate : Fate

inductive SessionEvent
  | turn (turn : Turn)
  /-- What other clients of the server do. -/
  | others (ops : List Op)

variable (host : Host) (t : Terminal)

def Turn.job (turn : Turn) : Except CommandErr (Option Job) :=
  command t turn.process turn.cmd turn.args

def remoteTurn (r : Registry) (turn : Turn) : Registry × Except CommandErr Output :=
  perform (remote host turn.process turn.fate r) r (turn.job t)

/-- `run` with `openEmbedded`. -/
def embeddedTurn (s : Store) (turn : Turn) : Store × Except CommandErr Output :=
  match newRegistry host.env s with
  | .error e => (s, .error (.opening e))
  | .ok r =>
    let (r', out) := perform (embedded host turn.process r) r (turn.job t)
    (r'.store, out)

/-- The server's database after an event. -/
def remoteStep (r : Registry) : SessionEvent → Registry
  | .turn turn => (remoteTurn host t r turn).1
  | .others ops => run (System.step host.toWorld) r ops

/-- The file after an event, where the others embed the engine. -/
def embeddedStep (s : Store) : SessionEvent → Store
  | .turn turn => (embeddedTurn host t s turn).1
  | .others ops => runEmbedded host.toWorld s ops

/-- What is printed, if the command succeeds. -/
def remotePrints (r : Registry) : SessionEvent → List (Turn × Output)
  | .turn turn => (remoteTurn host t r turn).2.toOption.toList.map (turn, ·)
  | .others _ => []

def embeddedPrints (s : Store) : SessionEvent → List (Turn × Output)
  | .turn turn => (embeddedTurn host t s turn).2.toOption.toList.map (turn, ·)
  | .others _ => []

variable {host : Host} {t : Terminal} {r : Registry}

/-! ## One turn -/

/-- A turn on the server comes to nothing, or does what it does on the open
database, and if it succeeds prints the same. -/
theorem remoteTurn_cases (hversions : VersionsFit r.store) {turn : Turn}
    (hsize : ∀ job, turn.job t = .ok (some job) → job.op.SizeFits) :
    let plain := perform (embedded host turn.process r) r (turn.job t)
    ((remoteTurn host t r turn).1 = r ∧ ∃ e, (remoteTurn host t r turn).2 = .error e) ∨
      (remoteTurn host t r turn).1 = plain.1 ∧
        ((∃ e, (remoteTurn host t r turn).2 = .error e) ∨
          (remoteTurn host t r turn).2 = plain.2) := by
  intro plain
  unfold remoteTurn
  cases hjob : turn.job t with
  | error e => exact .inl ⟨rfl, e, rfl⟩
  | ok found =>
      cases found with
      | none =>
          refine .inr ⟨?_, .inr ?_⟩
          · simp only [plain, hjob, perform]
          · simp only [plain, hjob, perform]
      | some job =>
          have hfollows := remote_follows host turn.process turn.fate r hversions (hsize job hjob)
          simp only [plain, hjob, perform]
          generalize remote host turn.process turn.fate r job.op = res at hfollows
          cases hfollows with
          | stopped e => exact .inl ⟨rfl, _, rfl⟩
          | failed e => exact .inr ⟨rfl, .inl ⟨_, rfl⟩⟩
          | same h =>
              rw [h]
              exact .inr ⟨rfl, .inr rfl⟩

/-- On a file that opens as the server has it, a turn works on that database. -/
theorem embeddedTurn_of_reopens (hopen : Reopens host.env r) (turn : Turn) :
    embeddedTurn host t r.store turn =
      ((perform (embedded host turn.process r) r (turn.job t)).1.store,
        (perform (embedded host turn.process r) r (turn.job t)).2) := by
  unfold embeddedTurn
  rw [show newRegistry host.env r.store = .ok r from hopen]

/-- Each event of a session is left out, or does on the file what it does on the
server. -/
theorem session_step (hopen : Reopens host.env r) (hversions : VersionsFit r.store)
    {e : SessionEvent}
    (hsize : ∀ turn, e = .turn turn → ∀ job, turn.job t = .ok (some job) → job.op.SizeFits) :
    (remoteStep host t r e = r ∧ remotePrints host t r e = []) ∨
      (embeddedStep host t r.store e = (remoteStep host t r e).store ∧
        (remotePrints host t r e).Sublist (embeddedPrints host t r.store e)) := by
  cases e with
  | others ops =>
      right
      refine ⟨?_, List.Sublist.refl _⟩
      show runEmbedded host.toWorld r.store ops = _
      unfold runEmbedded
      rw [show newRegistry host.toWorld.env r.store = .ok r from hopen]
      rfl
  | turn turn =>
      simp only [remoteStep, embeddedStep, remotePrints, embeddedPrints,
        embeddedTurn_of_reopens hopen]
      rcases remoteTurn_cases hversions (hsize turn rfl) with
        ⟨hstate, e, he⟩ | ⟨hstate, ⟨e, he⟩ | hout⟩
      · rw [hstate, he]
        exact .inl ⟨rfl, rfl⟩
      · rw [hstate, he]
        exact .inr ⟨rfl, List.nil_sublist _⟩
      · rw [hstate, hout]
        exact .inr ⟨rfl, List.Sublist.refl _⟩

/-! ## Versions along a session -/

/-- How many operations an event may run. -/
def SessionEvent.weight : SessionEvent → Nat
  | .turn _ => 1
  | .others ops => ops.length

/-- At most `n` registrations were accepted. -/
def AcceptedAtMost (n : Nat) (s : Store) : Prop := ∃ log, Recorded s log ∧ log.length ≤ n

theorem versionsFit_of_accepted {s : Store} {n : Nat} (h : AcceptedAtMost n s)
    (hn : n + 1 < 2 ^ 31) : VersionsFit s := by
  obtain ⟨log, hlog, hlen⟩ := h
  intro k b rec hget hrec
  have hle := version_le hlog hget hrec
  omega

theorem acceptedAtMost_op {n : Nat} (h : AcceptedAtMost n r.store) (op : Op) :
    AcceptedAtMost (n + 1) (System.step host.toWorld r op).store := by
  obtain ⟨log, hlog, hlen⟩ := h
  refine ⟨_, recorded_op hlog op, ?_⟩
  have hone : (accepted host.toWorld r op).length ≤ 1 := by
    cases op with
    | register faults call => exact Option.length_toList_le
    | call _ | key _ | restart => exact Nat.zero_le 1
  rw [List.length_append]
  omega

theorem acceptedAtMost_run {n : Nat} (h : AcceptedAtMost n r.store) (ops : List Op) :
    AcceptedAtMost (n + ops.length) (run (System.step host.toWorld) r ops).store := by
  induction ops generalizing r n with
  | nil => exact h
  | cons op ops ih =>
      rw [List.length_cons, Nat.add_comm ops.length 1, ← Nat.add_assoc]
      exact ih (acceptedAtMost_op h op)

theorem handle_ops (inputs : Inputs) (m : Method) (req : m.Request) :
    ∃ ops : List Op, ops.length ≤ 1 ∧
      (handle host r inputs m req).1 = run (System.step host.toWorld) r ops := by
  rw [handle_eq_step]
  cases opOf inputs m req with
  | none => exact ⟨[], Nat.zero_le 1, rfl⟩
  | some op => exact ⟨[op], Nat.le_refl 1, rfl⟩

theorem unary_ops {α β : Type} {fate : Fate} {strings : List Bytes}
    {handled : Registry × Except Code α} {answer : α → List Bytes} {read : α → β}
    (h : ∃ ops : List Op, ops.length ≤ 1 ∧
      handled.1 = run (System.step host.toWorld) r ops) :
    ∃ ops : List Op, ops.length ≤ 1 ∧
      (unary fate r strings handled answer read).1 = run (System.step host.toWorld) r ops := by
  unfold unary
  split
  · cases fate with
    | refused code => exact ⟨[], Nat.zero_le 1, rfl⟩
    | served | lost code => exact h
  · exact ⟨[], Nat.zero_le 1, rfl⟩

/-- A turn on the server runs at most one operation of the program. -/
theorem remoteTurn_ops (turn : Turn) :
    ∃ ops : List Op, ops.length ≤ 1 ∧
      (remoteTurn host t r turn).1 = run (System.step host.toWorld) r ops := by
  have hidle : ∃ ops : List Op, ops.length ≤ 1 ∧ r = run (System.step host.toWorld) r ops :=
    ⟨[], Nat.zero_le 1, rfl⟩
  unfold remoteTurn
  cases turn.job t with
  | error e => exact hidle
  | ok found =>
      cases found with
      | none => exact hidle
      | some job =>
          obtain ⟨op, print⟩ := job
          simp only [perform]
          cases op with
          | backup _ | verify | queryPage _ _ _ _ _ _ => exact hidle
          | createKey name role expiresAtUnix =>
              simp only [remote]
              split
              · exact hidle
              · exact unary_ops (handle_ops _ _ _)
          | putSchema _ _ | listSchemas | createCollection _ _ _ _ | listCollections | insert _ _
          | get _ _ | update _ _ _ | delete _ _ | listKeys | revokeKey _ =>
              exact unary_ops (handle_ops _ _ _)

theorem acceptedAtMost_step {n : Nat} (h : AcceptedAtMost n r.store) (e : SessionEvent) :
    AcceptedAtMost (n + e.weight) (remoteStep host t r e).store := by
  cases e with
  | others ops => exact acceptedAtMost_run h ops
  | turn turn =>
      obtain ⟨ops, hlen, hops⟩ := @remoteTurn_ops host t r turn
      obtain ⟨log, hlog, hle⟩ := @acceptedAtMost_run host r n h ops
      refine ⟨log, ?_, hle.trans (Nat.add_le_add_left hlen n)⟩
      show Recorded (remoteTurn host t r turn).1.store log
      rw [hops]
      exact hlog

theorem acceptedAtMost_reached (host : Host) (setup : List Op) :
    AcceptedAtMost setup.length (reached host.toWorld setup).store := by
  have h := @acceptedAtMost_run host Registry.initial 0 ⟨[], Recorded.empty, Nat.le_refl 0⟩ setup
  rwa [Nat.zero_add] at h

/-! ## Sessions -/

theorem session_run {n : Nat} {events : List SessionEvent}
    (hopen : Always (remoteStep host t) (Reopens host.env) r events)
    (hsize : ∀ turn, .turn turn ∈ events → ∀ job, turn.job t = .ok (some job) → job.op.SizeFits)
    (haccepted : AcceptedAtMost n r.store) (hcount : n + (events.map (·.weight)).sum + 1 < 2 ^ 31) :
    ∃ done : List SessionEvent, done.Sublist events ∧
      run (embeddedStep host t) r.store done = (run (remoteStep host t) r events).store ∧
      (observed (remoteStep host t) (remotePrints host t) r events).Sublist
        (observed (embeddedStep host t) (embeddedPrints host t) r.store done) := by
  induction events generalizing r n with
  | nil => exact ⟨[], List.Sublist.refl _, rfl, List.Sublist.refl _⟩
  | cons e events ih =>
      rw [List.map_cons, List.sum_cons, ← Nat.add_assoc] at hcount
      obtain ⟨done, hsub, hstore, hprints⟩ := ih hopen.2
        (fun turn hturn => hsize turn (List.mem_cons_of_mem _ hturn))
        (acceptedAtMost_step haccepted e) hcount
      have hversions := versionsFit_of_accepted haccepted (by omega)
      rcases session_step hopen.first hversions (e := e)
        (fun turn heq => hsize turn (heq ▸ List.mem_cons_self)) with
        ⟨hstate, hnone⟩ | ⟨hfile, hsome⟩
      · -- the event is left out
        rw [hstate] at hstore hprints
        refine ⟨done, hsub.cons e, ?_, ?_⟩
        · rw [run_cons, hstate, hstore]
        · rw [observed, hnone, hstate]
          exact hprints
      · refine ⟨e :: done, hsub.cons_cons e, ?_, ?_⟩
        · rw [run_cons, run_cons, hfile, hstore]
        · rw [observed, observed, hfile]
          exact hsome.append hprints

/-- Opening reads the schemas only. -/
theorem reopens_congr {env : Env} {s : Store} (h : Reopens env r)
    (hget : ∀ k, s.get schemaBucket k = r.store.get schemaBucket k) :
    Reopens env { r with store := s } := by
  have hscan : s.scan schemaBucket = r.store.scan schemaBucket := by
    refine BMap.keySorted_ext (Storage.Store.scan_sorted _ _) (Storage.Store.scan_sorted _ _) ?_
    intro k b
    rw [Storage.Store.mem_scan, Storage.Store.mem_scan, hget]
  unfold Reopens newRegistry loadFileProtos at h ⊢
  rw [hscan]
  obtain ⟨protos, hprotos, h⟩ := bind_eq_ok_iff.mp h
  rw [hprotos, ok_bind]
  split at h
  · rename_i hempty
    rw [if_pos hempty]
    exact congrArg (fun r' : Registry => Except.ok { r' with store := s }) (Except.ok.inj h)
  · rename_i hempty
    rw [if_neg hempty]
    obtain ⟨files, hfiles, h⟩ := bind_eq_ok_iff.mp h
    rw [hfiles]
    exact congrArg (fun r' : Registry => Except.ok { r' with store := s }) (Except.ok.inj h)

def sampleTerminal : Terminal := ⟨id, fun _ => [], Time.parseRFC3339⟩

def sampleProcess : Process where
  inputs := ⟨0, {}, sampleDraw⟩
  readFile _ := none
  stdin := none
  verify _ := true
  backup _ _ := true

/-- `key create ops admin`, served. -/
def createTurn : Turn :=
  ⟨ascii "key", [ascii "create", ascii "ops", ascii "admin"], sampleProcess, .served⟩

/-- `key list`, answered in vain. -/
def listTurn : Turn := ⟨ascii "key", [ascii "list"], sampleProcess, .lost .deadlineExceeded⟩

/-- The database with the key. -/
def keyed : Registry :=
  { Registry.initial with
    store := (Auth.createKeyWithExpiry id .empty
      (keyRequest (ascii "ops") Auth.roleAdmin 0 sampleDraw)).1 }

theorem keyed_reopens (env : Env) : Reopens env keyed := by
  refine @reopens_congr Registry.initial env _ rfl fun k => ?_
  exact (Auth.step_sameBucket id .empty (.create _) (by decide)).entries k

end KoraDB.Cli
