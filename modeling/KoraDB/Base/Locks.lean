import Mathlib.Algebra.GroupWithZero.Nat
import Mathlib.Data.List.MinMax
import Mathlib.Tactic.Common

/-!
# Locks taken in order

Threads that acquire and release read-write locks with the rules of Go's
`sync.RWMutex`: a writer first queues up, which only one can do at a time and
which keeps new readers out, and enters when the readers inside have left. A
mutex is such a lock that only writers use.

If every thread acquires locks in the order of a rank, holding only lower ones,
then in no reachable state are all unfinished threads blocked (`not_deadlocked`),
and the threads there are can always run to their ends (`completes`). New
threads may arrive at any time.
-/

namespace KoraDB.Base.Locks

variable {L : Type} [DecidableEq L]

inductive Act (L : Type)
  /-- A writer queues up. -/
  | announce (l : L)
  /-- The queued writer enters. -/
  | lock (l : L)
  | unlock (l : L)
  | rlock (l : L)
  | runlock (l : L)
  deriving DecidableEq, Repr

/-- A thread: the locks it holds for writing, the one it is queued up for, the
locks it holds for reading, and what it still does. -/
structure Thread (L : Type) where
  writes : List L
  waits : Option L
  reads : List L
  rest : List (Act L)
  deriving DecidableEq, Repr

def Thread.start (trace : List (Act L)) : Thread L := ⟨[], none, [], trace⟩

/-- A writer is in, or queued up. -/
def claimed (ts : List (Thread L)) (l : L) : Bool :=
  ts.any fun t => decide (l ∈ t.writes) || decide (t.waits = some l)

/-- A reader is in. -/
def readBy (ts : List (Thread L)) (l : L) : Bool := ts.any fun t => decide (l ∈ t.reads)

/-- The next action of a thread among `ts`, `none` if it is blocked or has
finished. -/
def fire (ts : List (Thread L)) (t : Thread L) : Option (Thread L) :=
  match t.waits, t.rest with
  | none, .announce l :: rest =>
      if claimed ts l then none else some { t with waits := some l, rest := rest }
  | some l', .lock l :: rest =>
      if l' = l ∧ readBy ts l = false then
        some { t with writes := l :: t.writes, waits := none, rest := rest }
      else none
  | none, .unlock l :: rest => some { t with writes := t.writes.erase l, rest := rest }
  | none, .rlock l :: rest =>
      if claimed ts l then none else some { t with reads := l :: t.reads, rest := rest }
  | none, .runlock l :: rest => some { t with reads := t.reads.erase l, rest := rest }
  | _, _ => none

/-! ## Runs -/

inductive Event (C : Type)
  | arrive (call : C)
  | act (i : Nat)

def step {C : Type} (trace : C → List (Act L)) (ts : List (Thread L)) :
    Event C → Option (List (Thread L))
  | .arrive call => some (ts ++ [.start (trace call)])
  | .act i => do
      let t ← ts[i]?
      let t' ← fire ts t
      return ts.set i t'

/-- A schedule; `none` if it lets a thread act that cannot. -/
def exec {C : Type} (trace : C → List (Act L)) (ts : List (Thread L)) (events : List (Event C)) :
    Option (List (Thread L)) :=
  events.foldlM (step trace) ts

/-- Some threads have not finished, and all of these are blocked. -/
def Deadlocked (ts : List (Thread L)) : Prop :=
  (∃ t ∈ ts, t.rest ≠ []) ∧ ∀ t ∈ ts, t.rest ≠ [] → fire ts t = none

/-! ## The order -/

section Order

variable {rank : L → Nat}

/-- What a thread in this position does: it acquires locks above those it holds
and gives all of them back. -/
inductive Ordered (rank : L → Nat) : List L → Option L → List L → List (Act L) → Prop
  | done : Ordered rank [] none [] []
  | announce {ws rs : List L} {l : L} {rest : List (Act L)}
      (above : ∀ h ∈ ws ++ rs, rank h < rank l) (next : Ordered rank ws (some l) rs rest) :
      Ordered rank ws none rs (.announce l :: rest)
  | lock {ws rs : List L} {l : L} {rest : List (Act L)}
      (above : ∀ h ∈ ws ++ rs, rank h < rank l) (next : Ordered rank (l :: ws) none rs rest) :
      Ordered rank ws (some l) rs (.lock l :: rest)
  | unlock {ws rs : List L} {l : L} {rest : List (Act L)}
      (next : Ordered rank (ws.erase l) none rs rest) : Ordered rank ws none rs (.unlock l :: rest)
  | rlock {ws rs : List L} {l : L} {rest : List (Act L)}
      (above : ∀ h ∈ ws ++ rs, rank h < rank l) (next : Ordered rank ws none (l :: rs) rest) :
      Ordered rank ws none rs (.rlock l :: rest)
  | runlock {ws rs : List L} {l : L} {rest : List (Act L)}
      (next : Ordered rank ws none (rs.erase l) rest) :
      Ordered rank ws none rs (.runlock l :: rest)

def Thread.Ordered (rank : L → Nat) (t : Thread L) : Prop :=
  Locks.Ordered rank t.writes t.waits t.reads t.rest

theorem ordered_fire {ts : List (Thread L)} {t t' : Thread L} (h : t.Ordered rank)
    (hfire : fire ts t = some t') : t'.Ordered rank := by
  obtain ⟨ws, waits, rs, rest⟩ := t
  cases h with
  | done => cases hfire
  | announce above next =>
      simp only [fire] at hfire
      split at hfire
      · cases hfire
      · cases hfire
        exact next
  | lock above next =>
      simp only [fire] at hfire
      split at hfire
      · cases hfire
        exact next
      · cases hfire
  | rlock above next =>
      simp only [fire] at hfire
      split at hfire
      · cases hfire
      · cases hfire
        exact next
  | unlock next | runlock next =>
      cases hfire
      exact next

/-- The lock that a thread is about to acquire. -/
def Thread.wants (t : Thread L) : Option L :=
  match t.rest with
  | .announce l :: _ => some l
  | .lock l :: _ => some l
  | .rlock l :: _ => some l
  | _ => none

/-- A blocked thread wants a lock above those it holds, which a writer claims,
or is queued up for it and readers are inside. -/
theorem blocked_cases {ts : List (Thread L)} {t : Thread L} (h : t.Ordered rank)
    (hrest : t.rest ≠ []) (hfire : fire ts t = none) :
    ∃ l, t.wants = some l ∧ (∀ h ∈ t.writes ++ t.reads, rank h < rank l) ∧
      ((claimed ts l = true ∧ t.waits = none) ∨ (readBy ts l = true ∧ t.waits = some l)) := by
  obtain ⟨ws, waits, rs, rest⟩ := t
  cases h with
  | done => exact absurd rfl hrest
  | announce above next =>
      rename_i l rest
      refine ⟨l, rfl, above, .inl ⟨?_, rfl⟩⟩
      simpa [fire] using hfire
  | lock above next =>
      rename_i l rest
      refine ⟨l, rfl, above, .inr ⟨?_, rfl⟩⟩
      simpa [fire] using hfire
  | rlock above next =>
      rename_i l rest
      refine ⟨l, rfl, above, .inl ⟨?_, rfl⟩⟩
      simpa [fire] using hfire
  | unlock next | runlock next => cases hfire

/-- A thread that holds a lock or is queued up for one has not finished. -/
theorem Thread.Ordered.unfinished {t : Thread L} (h : t.Ordered rank) {l : L}
    (hl : l ∈ t.writes ∨ l ∈ t.reads ∨ t.waits = some l) : t.rest ≠ [] := by
  intro hrest
  obtain ⟨ws, waits, rs, rest⟩ := t
  cases h with
  | done => simp at hl
  | _ => cases hrest

/-! ## No deadlock -/

/-- In a deadlock, who holds a lock wants a higher one. -/
theorem Deadlocked.holder {ts : List (Thread L)} (hd : Deadlocked ts)
    (hord : ∀ t ∈ ts, t.Ordered rank) {t : Thread L} (ht : t ∈ ts) {l : L}
    (hl : l ∈ t.writes ∨ l ∈ t.reads) :
    t.rest ≠ [] ∧ ∃ l', t.wants = some l' ∧ rank l < rank l' := by
  have hrest : t.rest ≠ [] := by
    apply (hord t ht).unfinished (l := l)
    rcases hl with hl | hl
    · exact .inl hl
    · exact .inr (.inl hl)
  obtain ⟨l', hwants, habove, _⟩ := blocked_cases (hord t ht) hrest (hd.2 t ht hrest)
  exact ⟨hrest, l', hwants, habove l (List.mem_append.mpr hl)⟩

/-- In a deadlock, for every thread there is one that wants a higher lock. -/
theorem Deadlocked.higher {ts : List (Thread L)} (hd : Deadlocked ts)
    (hord : ∀ t ∈ ts, t.Ordered rank) {t : Thread L} (ht : t ∈ ts) (hrest : t.rest ≠ []) :
    ∃ l, t.wants = some l ∧ ∃ t' ∈ ts, t'.rest ≠ [] ∧ ∃ l', t'.wants = some l' ∧
      rank l < rank l' := by
  have hreader : ∀ l, readBy ts l = true → ∃ t' ∈ ts, t'.rest ≠ [] ∧ ∃ l', t'.wants = some l' ∧
      rank l < rank l' := by
    intro l hread
    obtain ⟨t', ht', hl⟩ := List.any_eq_true.mp hread
    exact ⟨t', ht', hd.holder hord ht' (.inr (of_decide_eq_true hl))⟩
  obtain ⟨l, hwants, _, ⟨hclaimed, _⟩ | ⟨hread, _⟩⟩ :=
    blocked_cases (hord t ht) hrest (hd.2 t ht hrest)
  · refine ⟨l, hwants, ?_⟩
    obtain ⟨t', ht', hl⟩ := List.any_eq_true.mp hclaimed
    rw [Bool.or_eq_true, decide_eq_true_iff, decide_eq_true_iff] at hl
    rcases hl with hl | hl
    · exact ⟨t', ht', hd.holder hord ht' (.inl hl)⟩
    · -- the writer in the queue is itself kept out, by a reader
      have hrest' := (hord t' ht').unfinished (.inr (.inr hl))
      obtain ⟨l', _, _, ⟨_, hnone⟩ | ⟨hread, hsome⟩⟩ :=
        blocked_cases (hord t' ht') hrest' (hd.2 t' ht' hrest')
      · rw [hl] at hnone
        cases hnone
      · rw [hl] at hsome
        cases hsome
        exact hreader l hread
  · exact ⟨l, hwants, hreader l hread⟩

/-- The rank of the lock a thread wants. -/
def Thread.level (rank : L → Nat) (t : Thread L) : Nat := (t.wants.map rank).getD 0

theorem not_deadlocked {ts : List (Thread L)} (hord : ∀ t ∈ ts, t.Ordered rank) :
    ¬ Deadlocked ts := by
  intro hd
  -- the unfinished thread that wants the highest lock waits for none
  let blocked := ts.filter fun t => decide (t.rest ≠ [])
  have hmem : ∀ t, t ∈ blocked ↔ t ∈ ts ∧ t.rest ≠ [] := by
    intro t
    simp [blocked]
  cases hmax : blocked.argmax (Thread.level rank) with
  | none =>
      obtain ⟨t, ht, hrest⟩ := hd.1
      have hin := (hmem t).mpr ⟨ht, hrest⟩
      rw [List.argmax_eq_none.mp hmax] at hin
      cases hin
  | some t =>
      obtain ⟨ht, hrest⟩ := (hmem t).mp (List.argmax_mem hmax)
      obtain ⟨l, hwants, t', ht', hrest', l', hwants', hlt⟩ := hd.higher hord ht hrest
      have hle := List.le_of_mem_argmax ((hmem t').mpr ⟨ht', hrest'⟩) hmax
      simp only [Thread.level, hwants, hwants', Option.map_some, Option.getD_some] at hle
      omega

/-! ## Runs of ordered threads -/

theorem ordered_step {C : Type} {trace : C → List (Act L)}
    (htrace : ∀ call, Locks.Ordered rank [] none [] (trace call)) {ts ts' : List (Thread L)}
    (hord : ∀ t ∈ ts, t.Ordered rank) {e : Event C} (h : step trace ts e = some ts') :
    ∀ t ∈ ts', t.Ordered rank := by
  cases e with
  | arrive call =>
      cases h
      intro t ht
      rcases List.mem_append.mp ht with ht | ht
      · exact hord t ht
      · rw [List.mem_singleton.mp ht]
        exact htrace call
  | act i =>
      simp only [step, Option.bind_eq_bind, Option.bind_eq_some_iff, Option.pure_def,
        Option.some.injEq] at h
      obtain ⟨t, hget, t', hfire, rfl⟩ := h
      intro u hu
      rcases List.mem_or_eq_of_mem_set hu with hu | rfl
      · exact hord u hu
      · exact ordered_fire (hord t (List.mem_of_getElem? hget)) hfire

theorem ordered_exec {C : Type} {trace : C → List (Act L)}
    (htrace : ∀ call, Locks.Ordered rank [] none [] (trace call)) {events : List (Event C)}
    {ts ts' : List (Thread L)} (hord : ∀ t ∈ ts, t.Ordered rank)
    (h : exec trace ts events = some ts') : ∀ t ∈ ts', t.Ordered rank := by
  induction events generalizing ts with
  | nil =>
      cases h
      exact hord
  | cons e events ih =>
      simp only [exec, List.foldlM_cons, Option.bind_eq_bind, Option.bind_eq_some_iff] at h
      obtain ⟨ts₁, hstep, hrest⟩ := h
      exact ih (ordered_step htrace hord hstep) hrest

/-- What the threads have left to do. -/
def remaining (ts : List (Thread L)) : Nat := (ts.map fun t => t.rest.length).sum

omit [DecidableEq L] in
theorem remaining_set {ts : List (Thread L)} {i : Nat} {t : Thread L} (h : ts[i]? = some t)
    (t' : Thread L) :
    remaining (ts.set i t') + t.rest.length = remaining ts + t'.rest.length := by
  induction ts generalizing i with
  | nil => cases h
  | cons u ts ih =>
      cases i with
      | zero =>
          cases h
          simp only [remaining, List.set_cons_zero, List.map_cons, List.sum_cons]
          omega
      | succ i =>
          have := ih (i := i) h
          simp only [remaining, List.set_cons_succ, List.map_cons, List.sum_cons] at this ⊢
          omega

theorem fire_rest {ts : List (Thread L)} {t t' : Thread L} (h : fire ts t = some t') :
    t.rest.length = t'.rest.length + 1 := by
  obtain ⟨ws, waits, rs, rest⟩ := t
  unfold fire at h
  split at h
  all_goals first | cases h | (split at h <;> cases h)
  all_goals simp_all

/-- The threads there are can run to their ends, whatever has happened before. -/
theorem completes {C : Type} (trace : C → List (Act L)) {ts : List (Thread L)}
    (hord : ∀ t ∈ ts, t.Ordered rank) :
    ∃ (schedule : List Nat) (ts' : List (Thread L)),
      exec trace ts (schedule.map .act) = some ts' ∧ ∀ t ∈ ts', t.rest = [] := by
  induction hn : remaining ts using Nat.strong_induction_on generalizing ts with
  | _ n ih =>
      by_cases hfinished : ∀ t ∈ ts, t.rest = []
      · exact ⟨[], ts, rfl, hfinished⟩
      · -- some unfinished thread can act, since this is no deadlock
        have hex : ∃ t ∈ ts, ∃ t', fire ts t = some t' := by
          by_contra hnone
          apply not_deadlocked hord
          refine ⟨by simpa using hfinished, ?_⟩
          intro t ht _
          rw [Option.eq_none_iff_forall_not_mem]
          intro t' hfire
          exact hnone ⟨t, ht, t', hfire⟩
        obtain ⟨t, ht, t', hfire⟩ := hex
        obtain ⟨i, hget⟩ := List.getElem?_of_mem ht
        have hstep : step trace ts (.act i) = some (ts.set i t') := by
          simp [step, hget, hfire]
        have hless : remaining (ts.set i t') < n := by
          have hset := remaining_set hget t'
          have hrest := fire_rest hfire
          omega
        have hord' : ∀ u ∈ ts.set i t', u.Ordered rank := by
          intro u hu
          rcases List.mem_or_eq_of_mem_set hu with hu | rfl
          · exact hord u hu
          · exact ordered_fire (hord t ht) hfire
        obtain ⟨schedule, ts', hexec, hdone⟩ := ih _ hless hord' rfl
        refine ⟨i :: schedule, ts', ?_, hdone⟩
        simp only [exec, List.map_cons, List.foldlM_cons, hstep]
        exact hexec

/-! ## Sections -/

/-- A part of a trace that can be run holding `ws` and `rs`, and holds the same
afterwards. -/
def Section (rank : L → Nat) (ws rs : List L) (part : List (Act L)) : Prop :=
  ∀ rest, Locks.Ordered rank ws none rs rest → Locks.Ordered rank ws none rs (part ++ rest)

/-- Holding a lock for writing. -/
def exclusive (l : L) (body : List (Act L)) : List (Act L) :=
  .announce l :: .lock l :: (body ++ [.unlock l])

/-- Holding a lock for reading. -/
def shared (l : L) (body : List (Act L)) : List (Act L) := .rlock l :: (body ++ [.runlock l])

variable {ws rs : List L} {l : L} {part part' body : List (Act L)}

theorem section_nil : Section rank ws rs [] := fun _ h => h

theorem section_append (h : Section rank ws rs part) (h' : Section rank ws rs part') :
    Section rank ws rs (part ++ part') := by
  intro rest hrest
  rw [List.append_assoc]
  exact h _ (h' rest hrest)

theorem section_flatten {parts : List (List (Act L))}
    (h : ∀ part ∈ parts, Section rank ws rs part) : Section rank ws rs parts.flatten := by
  induction parts with
  | nil => exact section_nil
  | cons part parts ih =>
      rw [List.flatten_cons]
      exact section_append (h part List.mem_cons_self)
        (ih fun part hpart => h part (List.mem_cons_of_mem _ hpart))

theorem section_exclusive (habove : ∀ h ∈ ws ++ rs, rank h < rank l)
    (hbody : Section rank (l :: ws) rs body) : Section rank ws rs (exclusive l body) := by
  intro rest hrest
  refine .announce habove (.lock habove ?_)
  show Locks.Ordered rank (l :: ws) none rs ((body ++ [.unlock l]) ++ rest)
  rw [List.append_assoc]
  apply hbody
  refine .unlock ?_
  rw [List.erase_cons_head]
  exact hrest

theorem section_shared (habove : ∀ h ∈ ws ++ rs, rank h < rank l)
    (hbody : Section rank ws (l :: rs) body) : Section rank ws rs (shared l body) := by
  intro rest hrest
  refine .rlock habove ?_
  show Locks.Ordered rank ws none (l :: rs) ((body ++ [.runlock l]) ++ rest)
  rw [List.append_assoc]
  apply hbody
  refine .runlock ?_
  rw [List.erase_cons_head]
  exact hrest

theorem Section.ordered (h : Section rank [] [] part) : Locks.Ordered rank [] none [] part := by
  have hwhole := h [] .done
  rwa [List.append_nil] at hwhole

end Order

end KoraDB.Base.Locks
