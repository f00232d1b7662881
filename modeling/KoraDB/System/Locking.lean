import KoraDB.Base.Locks
import KoraDB.Catalog.Records

/-!
# Locks of the registry and of the storage

Each call as the sequence of its acquisitions and releases. `Register` holds
`regMu` throughout; whatever reads descriptors takes the registry's `mu` for
reading and gives it back at once; `Store.Update` holds bbolt's writer lock, and
`Store.View` shares bbolt's map of the file. A commit that outgrows the map
takes it exclusively, so it waits for the read transactions that are open and
keeps new ones waiting.

Every call takes these locks in the order `regMu`, writer, map, `mu`. The
registry's `mu` in particular is never held when another lock is taken, which is
what its comment in the source asks for.
-/

namespace KoraDB.System.Locking

open KoraDB.Base.Locks KoraDB.Catalog

inductive Lock
  | regMu
  | writer
  | map
  | mu
  deriving DecidableEq, Repr

def rank : Lock → Nat
  | .regMu => 0
  | .writer => 1
  | .map => 2
  | .mu => 3

abbrev Trace := List (Act Lock)

/-- The stages of a function up to the one after which it returns, the last or
one that failed. -/
def upTo (n : Nat) (stages : List Trace) : Trace := (stages.take n).flatten

/-! ## Storage -/

/-- `Store.View`. -/
def view (body : Trace) : Trace := shared .map body

/-- `Store.Update`; `grows` if the commit remaps the file. -/
def update (grows : Bool) (body : Trace) : Trace :=
  exclusive .writer (body ++ if grows then exclusive .map [] else [])

/-! ## Helpers -/

/-- `Registry.MessageDescriptor`, and with it `NewMessage`. -/
def messageDescriptor : Trace := shared .mu []

def parse : Trace := messageDescriptor

def decode : Trace := messageDescriptor

def encodeKey : KeyKind → Trace
  | .auto => []
  | .field => messageDescriptor

def deriveKey : KeyKind → Trace
  | .auto => []
  | .field => encodeKey .field

def idFromStorageKey : KeyKind → Trace
  | .auto => []
  | .field => messageDescriptor

def lookupByIndex : Trace := messageDescriptor

/-! ## Calls -/

/-- `Registry.Register`: the sources of the catalog, a snapshot of the
descriptors, the version, the record, and the swap. -/
def register (n : Nat) (grows : Bool) : Trace :=
  exclusive .regMu
    (upTo n [view [], shared .mu [], view [], update grows [], exclusive .mu []])

def createCollection (n : Nat) (grows : Bool) : Trace :=
  messageDescriptor ++ upTo n [update grows []]

def insert (kind : KeyKind) (n : Nat) (grows : Bool) : Trace :=
  update grows (upTo n [parse, deriveKey kind])

def updateDocument (kind : KeyKind) (n : Nat) (grows : Bool) : Trace :=
  update grows (upTo n [encodeKey kind, decode, parse, deriveKey kind])

def delete (kind : KeyKind) (n : Nat) (grows : Bool) : Trace :=
  update grows (upTo n [encodeKey kind, decode])

def get (kind : KeyKind) (n : Nat) : Trace := view (upTo n [encodeKey kind, decode])

/-- What a page does with one candidate. -/
inductive Candidate
  /-- Before the cursor, or no longer stored. -/
  | skipped
  /-- Read, and not a result. -/
  | read
  /-- Read, and appended to the page. -/
  | result

/-- A candidate from an index is fetched and decoded. -/
def seededCandidate (kind : KeyKind) : Candidate → Trace
  | .skipped => []
  | .read => decode
  | .result => decode ++ idFromStorageKey kind

/-- A scan decodes all documents with one descriptor. -/
def scannedCandidate (kind : KeyKind) : Candidate → Trace
  | .skipped | .read => []
  | .result => idFromStorageKey kind

/-- The read transaction of a page: index lookups, of which the last one
succeeds if the page is seeded, and the candidates. -/
def pageStages (kind : KeyKind) (lookups : Nat) (seeded : Bool) (candidates : List Candidate) :
    List Trace :=
  List.replicate lookups lookupByIndex ++
    if seeded then candidates.map (seededCandidate kind)
    else messageDescriptor :: candidates.map (scannedCandidate kind)

/-- `ExecutePage`: the collection, its descriptor, and the page, which ends
after `m` stages. -/
def executePage (kind : KeyKind) (n lookups : Nat) (seeded : Bool) (candidates : List Candidate)
    (m : Nat) : Trace :=
  upTo n [view [], messageDescriptor, view (upTo m (pageStages kind lookups seeded candidates))]

inductive LockCall
  | register (n : Nat) (grows : Bool)
  | createCollection (n : Nat) (grows : Bool)
  | insert (kind : KeyKind) (n : Nat) (grows : Bool)
  | update (kind : KeyKind) (n : Nat) (grows : Bool)
  | delete (kind : KeyKind) (n : Nat) (grows : Bool)
  | get (kind : KeyKind) (n : Nat)
  | executePage (kind : KeyKind) (n lookups : Nat) (seeded : Bool) (candidates : List Candidate)
      (m : Nat)

def LockCall.trace : LockCall → Trace
  | .register n grows => Locking.register n grows
  | .createCollection n grows => Locking.createCollection n grows
  | .insert kind n grows => Locking.insert kind n grows
  | .update kind n grows => updateDocument kind n grows
  | .delete kind n grows => Locking.delete kind n grows
  | .get kind n => Locking.get kind n
  | .executePage kind n lookups seeded candidates m =>
      Locking.executePage kind n lookups seeded candidates m

/-! ## The order is kept -/

section

variable {ws rs : List Lock}

theorem section_upTo (n : Nat) {stages : List Trace}
    (h : ∀ stage ∈ stages, Section rank ws rs stage) : Section rank ws rs (upTo n stages) :=
  section_flatten fun stage hstage => h stage (List.mem_of_mem_take hstage)

/-- A read of the registry, or a swap, can be made wherever `mu` itself is not
held. -/
theorem section_mu (hfree : ∀ h ∈ ws ++ rs, rank h < 3) :
    Section rank ws rs messageDescriptor ∧ Section rank ws rs (exclusive .mu []) :=
  ⟨section_shared hfree section_nil, section_exclusive hfree section_nil⟩

theorem section_keys (hfree : ∀ h ∈ ws ++ rs, rank h < 3) (kind : KeyKind) :
    Section rank ws rs (encodeKey kind) ∧ Section rank ws rs (deriveKey kind) ∧
      Section rank ws rs (idFromStorageKey kind) := by
  cases kind with
  | auto => exact ⟨section_nil, section_nil, section_nil⟩
  | field => exact ⟨(section_mu hfree).1, (section_mu hfree).1, (section_mu hfree).1⟩

theorem section_view {body : Trace} (hfree : ∀ h ∈ ws ++ rs, rank h < 2)
    (hbody : Section rank ws (.map :: rs) body) : Section rank ws rs (view body) :=
  section_shared hfree hbody

theorem section_update {body : Trace} (grows : Bool) (hfree : ∀ h ∈ ws ++ rs, rank h < 1)
    (hbody : Section rank (.writer :: ws) rs body) : Section rank ws rs (update grows body) := by
  refine section_exclusive hfree (section_append hbody ?_)
  cases grows with
  | false => exact section_nil
  | true =>
      refine section_exclusive ?_ section_nil
      intro h hh
      rcases List.mem_cons.mp hh with rfl | hh
      · decide
      · exact (hfree h hh).trans (by decide)

theorem section_page (hfree : ∀ h ∈ ws ++ rs, rank h < 3) (kind : KeyKind) (lookups : Nat)
    (seeded : Bool) (candidates : List Candidate) :
    ∀ stage ∈ pageStages kind lookups seeded candidates, Section rank ws rs stage := by
  have hmu := (section_mu hfree).1
  obtain ⟨_, _, hid⟩ := section_keys hfree kind
  intro stage hstage
  rcases List.mem_append.mp hstage with hstage | hstage
  · rw [List.eq_of_mem_replicate hstage]
    exact hmu
  · cases seeded with
    | true =>
        obtain ⟨candidate, _, rfl⟩ := List.mem_map.mp hstage
        cases candidate with
        | skipped => exact section_nil
        | read => exact hmu
        | result => exact section_append hmu hid
    | false =>
        rcases List.mem_cons.mp hstage with rfl | hstage
        · exact hmu
        · obtain ⟨candidate, _, rfl⟩ := List.mem_map.mp hstage
          cases candidate with
          | skipped | read => exact section_nil
          | result => exact hid

end

theorem trace_section (call : LockCall) : Section rank [] [] call.trace := by
  have hwriter : ∀ h ∈ [Lock.writer] ++ [], rank h < 3 := by decide
  have hmap : ∀ h ∈ [] ++ [Lock.map], rank h < 3 := by decide
  cases call with
  | register n grows =>
      refine section_exclusive (by decide) (section_upTo n ?_)
      have hview : Section rank [.regMu] [] (view []) := section_view (by decide) section_nil
      have hmu : Section rank [.regMu] [] messageDescriptor ∧
          Section rank [.regMu] [] (exclusive .mu []) := section_mu (by decide)
      have hupdate : Section rank [.regMu] [] (update grows []) :=
        section_update grows (by decide) section_nil
      simp only [List.forall_mem_cons]
      exact ⟨hview, hmu.1, hview, hupdate, hmu.2, by simp⟩
  | createCollection n grows =>
      refine section_append (section_mu (by decide)).1 (section_upTo n ?_)
      simp only [List.forall_mem_cons]
      exact ⟨section_update grows (by decide) section_nil, by simp⟩
  | insert kind n grows =>
      refine section_update grows (by decide) (section_upTo n ?_)
      obtain ⟨_, hderive, _⟩ := section_keys hwriter kind
      simp only [List.forall_mem_cons]
      exact ⟨(section_mu hwriter).1, hderive, by simp⟩
  | update kind n grows =>
      refine section_update grows (by decide) (section_upTo n ?_)
      obtain ⟨hencode, hderive, _⟩ := section_keys hwriter kind
      simp only [List.forall_mem_cons]
      exact ⟨hencode, (section_mu hwriter).1, (section_mu hwriter).1, hderive, by simp⟩
  | delete kind n grows =>
      refine section_update grows (by decide) (section_upTo n ?_)
      obtain ⟨hencode, _, _⟩ := section_keys hwriter kind
      simp only [List.forall_mem_cons]
      exact ⟨hencode, (section_mu hwriter).1, by simp⟩
  | get kind n =>
      refine section_view (by decide) (section_upTo n ?_)
      obtain ⟨hencode, _, _⟩ := section_keys hmap kind
      simp only [List.forall_mem_cons]
      exact ⟨hencode, (section_mu hmap).1, by simp⟩
  | executePage kind n lookups seeded candidates m =>
      refine section_upTo n ?_
      have hpage := section_page hmap kind lookups seeded candidates
      simp only [List.forall_mem_cons]
      exact ⟨section_view (by decide) section_nil, (section_mu (by decide)).1,
        section_view (by decide) (section_upTo m hpage), by simp⟩

/-- **No deadlock.** However calls arrive and take turns, the unfinished ones
are never all blocked, and those there are can run to their ends. -/
theorem registry_storage_deadlock_free {events : List (Event LockCall)} {ts : List (Thread Lock)}
    (h : exec LockCall.trace [] events = some ts) :
    ¬ Deadlocked ts ∧
      ∃ (schedule : List Nat) (ts' : List (Thread Lock)),
        exec LockCall.trace ts (schedule.map .act) = some ts' ∧ ∀ t ∈ ts', t.rest = [] := by
  have hord : ∀ t ∈ ts, t.Ordered rank :=
    ordered_exec (fun call => (trace_section call).ordered) (by simp) h
  exact ⟨not_deadlocked hord, completes LockCall.trace hord⟩

/-- An insert in its transaction reads descriptors, a second insert waits for
the writer lock, a registration is about to wait for it too, and a query has its
read transaction open. -/
theorem registry_storage_deadlock_free_sample :
    let events : List (Event LockCall) :=
      [.arrive (.insert .field 2 true), .arrive (.register 5 true), .arrive (.insert .auto 1 false),
        .arrive (.get .field 2)] ++
      [0, 0, 0, 1, 1, 1, 1, 1, 1, 1, 1, 3].map .act
    ∃ ts, exec LockCall.trace [] events = some ts ∧
      (ts.map fun t => (fire ts t).isSome) = [true, false, false, true] ∧ ¬ Deadlocked ts := by
  intro events
  obtain ⟨ts, hts⟩ := Option.isSome_iff_exists.mp
    (show (exec LockCall.trace [] events).isSome = true by decide)
  have hfire : (exec LockCall.trace [] events).map (fun ts => ts.map fun t => (fire ts t).isSome) =
      some [true, false, false, true] := by decide
  rw [hts, Option.map_some] at hfire
  exact ⟨ts, hts, Option.some.inj hfire, (registry_storage_deadlock_free hts).1⟩

end KoraDB.System.Locking
