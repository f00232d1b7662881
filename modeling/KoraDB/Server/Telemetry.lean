import KoraDB.Auth.Roles
import KoraDB.Server.Keys

/-!
# Metrics and audit records (`metrics.go`, `interceptors.go`)

What the server tells about the requests it has answered. The counters are
`uint64` values per method and code, in a map of maps, since the exposition
orders them by method and then by code. An audit record names method, caller,
peer, code and duration of one request, and nothing of its payload.
-/

namespace KoraDB.Server

open KoraDB.Base KoraDB.Catalog KoraDB.Auth

/-! ## Codes -/

/-- `codes.Code.String`. -/
def Code.string : Code → Bytes
  | .canceled => ascii "Canceled"
  | .invalidArgument => ascii "InvalidArgument"
  | .deadlineExceeded => ascii "DeadlineExceeded"
  | .notFound => ascii "NotFound"
  | .alreadyExists => ascii "AlreadyExists"
  | .permissionDenied => ascii "PermissionDenied"
  | .resourceExhausted => ascii "ResourceExhausted"
  | .failedPrecondition => ascii "FailedPrecondition"
  | .unimplemented => ascii "Unimplemented"
  | .internal => ascii "Internal"
  | .unauthenticated => ascii "Unauthenticated"

/-- `status.Code(err).String()`. -/
def statusCode {α : Type} : Except Code α → Bytes
  | .ok _ => ascii "OK"
  | .error code => code.string

/-! ## Metrics -/

/-- `metricValue`, of two `uint64`. -/
structure MetricValue where
  count : Nat
  durationNanos : Nat
  deriving DecidableEq, Repr

/-- `value.count++`, and the duration added when it is positive. -/
def MetricValue.add (v : MetricValue) (duration : Int) : MetricValue :=
  ⟨(v.count + 1) % 2 ^ 64,
    if 0 < duration then (v.durationNanos + duration.toNat) % 2 ^ 64 else v.durationNanos⟩

structure Metrics where
  inFlight : Int
  outcomes : BMap (BMap MetricValue)

namespace Metrics

/-- `NewMetrics`. -/
def new : Metrics := ⟨0, ∅⟩

/-- `begin`. -/
def begin (m : Metrics) : Metrics := { m with inFlight := m.inFlight + 1 }

/-- The value of a key; the zero value when it is not in the map. -/
def value (m : Metrics) (method code : Bytes) : MetricValue :=
  ((m.outcomes[method]?.getD ∅)[code]?).getD ⟨0, 0⟩

/-- `record` up to its lock: the gauge is atomic, and not under the lock. -/
def leave (m : Metrics) : Metrics := { m with inFlight := m.inFlight - 1 }

/-- `record` under its lock. -/
def record (m : Metrics) (method code : Bytes) (duration : Int) : Metrics :=
  { m with
    outcomes := m.outcomes.insert method ((m.outcomes[method]?.getD ∅).insert code
      ((m.value method code).add duration)) }

theorem value_new (method code : Bytes) : new.value method code = ⟨0, 0⟩ := by
  simp [value, new]

@[simp] theorem value_begin (m : Metrics) (method code : Bytes) :
    m.begin.value method code = m.value method code := rfl

@[simp] theorem value_leave (m : Metrics) (method code : Bytes) :
    m.leave.value method code = m.value method code := rfl

theorem value_record (m : Metrics) (method code method' code' : Bytes) (duration : Int) :
    (m.record method code duration).value method' code' =
      if method = method' ∧ code = code' then (m.value method code).add duration
      else m.value method' code' := by
  unfold record value
  simp only [BMap.get_insert]
  by_cases hm : method = method'
  · subst hm
    rw [if_pos rfl, Option.getD_some, BMap.get_insert]
    by_cases hc : code = code'
    · subst hc
      simp only [and_self, if_true, Option.getD_some]
    · simp only [true_and, if_neg hc]
  · rw [if_neg hm, if_neg fun h => hm h.1]

end Metrics

/-! ## Audit records -/

/-- `auditRecord`; the time is formatted when the record is written. -/
structure AuditRecord where
  timestamp : Time
  method : Bytes
  principal : Bytes
  peer : Bytes
  code : Bytes
  durationMs : Int
  deriving DecidableEq

/-- The caller as the record names it. -/
def principalName : Option Principal → Bytes
  | none => ascii "anonymous"
  | some p => p.name ++ ascii "/" ++ roleString p.role

/-- `peerAddr`. -/
def peerAddr (peer : Option Bytes) : Bytes := peer.getD (ascii "unknown")

/-- `time.Duration.Milliseconds`. -/
def milliseconds (duration : Int) : Int := duration.tdiv 1000000

end KoraDB.Server
