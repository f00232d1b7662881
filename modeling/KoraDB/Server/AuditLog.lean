import KoraDB.Base.JsonLines
import KoraDB.Server.Pipeline

/-!
# The audit log as text (`interceptors.go`)

`recordAudit` marshals a record and prints it, which puts it on a line of its
own. The names of callers, methods and peers come from outside, but they cannot
break out of their line or their field: in every run the lines of the log read
back as the records of the requests that have finished, one each, and a line
that is written stays (`audit_log_tells`).
-/

namespace KoraDB.Server

open KoraDB.Base KoraDB.Catalog KoraDB.System

/-- The fields of `auditRecord` under their names; `stamp` is
`Format(time.RFC3339Nano)` of a time in UTC. -/
def auditMembers (stamp : Time → Bytes) (record : AuditRecord) : List (Bytes × Bytes) :=
  [(ascii "timestamp", Json.quote (stamp record.timestamp)),
    (ascii "method", Json.quote record.method),
    (ascii "principal", Json.quote record.principal),
    (ascii "peer", Json.quote record.peer),
    (ascii "code", Json.quote record.code),
    (ascii "duration_ms", formatInt record.durationMs)]

/-- `recordAudit`, up to the print. Every field is a string or an integer, so
`json.Marshal` does not fail. -/
def recordAudit (stamp : Time → Bytes) (record : AuditRecord) : Bytes :=
  Json.writeObject (auditMembers stamp record)

/-- What `auditLogger` has written: it has no prefix and no flags, and ends every
print with a newline. -/
def auditText (stamp : Time → Bytes) (records : List AuditRecord) : Bytes :=
  unlines (records.map (recordAudit stamp))

/-- A record as a reader of the log sees it. -/
def auditObject (stamp : Time → Bytes) (record : AuditRecord) : Json.Value :=
  .object
    [(ascii "timestamp", .string (toValidUTF8 (stamp record.timestamp))),
      (ascii "method", .string (toValidUTF8 record.method)),
      (ascii "principal", .string (toValidUTF8 record.principal)),
      (ascii "peer", .string (toValidUTF8 record.peer)),
      (ascii "code", .string (toValidUTF8 record.code)),
      (ascii "duration_ms", .number (formatInt record.durationMs))]

/-! ## Lines -/

theorem recordAudit_oneLine (stamp : Time → Bytes) (record : AuditRecord) :
    newline ∉ recordAudit stamp record := by
  refine Json.writeObject_oneLine fun m hm => ?_
  simp only [auditMembers, List.mem_cons, List.not_mem_nil, or_false] at hm
  rcases hm with rfl | rfl | rfl | rfl | rfl | rfl
  · exact Json.quote_oneLine _
  · exact Json.quote_oneLine _
  · exact Json.quote_oneLine _
  · exact Json.quote_oneLine _
  · exact Json.quote_oneLine _
  · exact formatInt_oneLine _

theorem read_recordAudit (stamp : Time → Bytes) (record : AuditRecord) :
    Json.read (recordAudit stamp record) = some (auditObject stamp record) := by
  have hnames : ∀ name ∈ [ascii "timestamp", ascii "method", ascii "principal", ascii "peer",
      ascii "code", ascii "duration_ms"], toValidUTF8 name = name := by decide +kernel
  have hvalues : List.Forall₂ (fun m v => Json.ReadsAs m.2 v) (auditMembers stamp record)
      [.string (toValidUTF8 (stamp record.timestamp)), .string (toValidUTF8 record.method),
        .string (toValidUTF8 record.principal), .string (toValidUTF8 record.peer),
        .string (toValidUTF8 record.code), .number (formatInt record.durationMs)] :=
    .cons (Json.readsAs_quote _) (.cons (Json.readsAs_quote _) (.cons (Json.readsAs_quote _)
      (.cons (Json.readsAs_quote _) (.cons (Json.readsAs_quote _)
        (.cons (Json.readsAs_formatInt _) .nil)))))
  have hne : auditMembers stamp record ≠ [] := List.cons_ne_nil _ _
  rw [recordAudit, Json.read_writeObject hne hvalues]
  simp only [auditMembers, List.zipWith_cons_cons, List.zipWith_nil_right]
  simp only [List.mem_cons, List.not_mem_nil, or_false, forall_eq_or_imp, forall_eq] at hnames
  rw [hnames.1, hnames.2.1, hnames.2.2.1, hnames.2.2.2.1, hnames.2.2.2.2.1, hnames.2.2.2.2.2]
  rfl

/-- The lines of the log are its records. -/
theorem read_auditText (stamp : Time → Bytes) (records : List AuditRecord) :
    (lines (auditText stamp records)).map Json.read =
      records.map fun record => some (auditObject stamp record) := by
  have hone : ∀ l ∈ records.map (recordAudit stamp), newline ∉ l := by
    intro l hl
    obtain ⟨record, -, rfl⟩ := List.mem_map.mp hl
    exact recordAudit_oneLine stamp record
  rw [auditText, lines_unlines hone, List.map_map]
  exact List.map_congr_left fun record _ => read_recordAudit stamp record

/-! ## Runs -/

section

variable {svc : Service} {st st' : Chain} {a a' : Active} {tick : Tick}

theorem Advances.audit_grows (h : Advances svc st a tick st' a') : st.audit <+: st'.audit := by
  cases h with
  | logged _ => exact List.prefix_append _ _
  | _ => exact List.prefix_rfl

theorem audit_grows_step (e : ChainEvent) : st.audit <+: (stepChain svc st e).audit := by
  have hstep := stepChain_steps svc st e
  generalize stepChain svc st e = st' at hstep
  cases hstep with
  | idle _ => exact List.prefix_rfl
  | arrived _ => exact List.prefix_rfl
  | expired _ => exact List.prefix_rfl
  | advanced _ hadv => exact hadv.audit_grows

theorem audit_grows_run (events : List ChainEvent) :
    st.audit <+: (run (stepChain svc) st events).audit := by
  induction events generalizing st with
  | nil => exact List.prefix_rfl
  | cons e events ih => exact (audit_grows_step e).trans ih

end

/-- **The audit log tells the requests that have finished.** In every run its
lines read back, in order, as records that are those of the finished requests,
and the text only grows. -/
theorem audit_log_tells (stamp : Time → Bytes) (svc : Service) (setup : List Op) (created : Time)
    (events more : List ChainEvent) :
    let st := chainAfter svc setup created events
    let later := chainAfter svc setup created (events ++ more)
    auditText stamp st.audit <+: auditText stamp later.audit ∧
    ∃ records : List AuditRecord,
      records.Perm (st.requests.filterMap fun a => a.mark.record) ∧
      (lines (auditText stamp st.audit)).map Json.read =
        records.map fun record => some (auditObject stamp record) := by
  intro st later
  refine ⟨?_, st.audit, ?_, read_auditText stamp st.audit⟩
  · have hlater : later = run (stepChain svc) st more := run_append _ _ _ _
    obtain ⟨added, hadded⟩ : st.audit <+: later.audit := hlater ▸ audit_grows_run more
    rw [← hadded, auditText, auditText, unlines, unlines, List.map_append, List.flatMap_append]
    exact List.prefix_append _ _
  · have hrecords := (accounted_run svc setup created events).records
    rwa [List.filterMap_map] at hrecords

end KoraDB.Server
