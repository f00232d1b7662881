import Mathlib.Tactic.Ring
import Mathlib.Tactic.NormNum

/-!
# `time.Time`

An instant is a count of seconds since 1 January of year 1 (an `int64`) and a
nanosecond within the second. Unix seconds are the same count shifted by a
constant, with the wrap-around of `int64` arithmetic on both ways.
-/

namespace KoraDB.Base

/-- The value an `int64` computation leaves of an integer. -/
def wrap64 (n : Int) : Int := (n + 2 ^ 63) % 2 ^ 64 - 2 ^ 63

structure Time where
  sec : Int
  nsec : Nat
  deriving DecidableEq, Repr

namespace Time

/-- Seconds from year 1 to 1970. -/
def unixToInternal : Int := 62135596800

/-- `time.Time.IsZero`. -/
def isZero (t : Time) : Bool := t.sec == 0 && t.nsec == 0

/-- `time.Time.Before`. -/
def before (t u : Time) : Bool :=
  decide (t.sec < u.sec) || (t.sec == u.sec && decide (t.nsec < u.nsec))

/-- `time.Time.After`. -/
def after (t u : Time) : Bool := u.before t

/-- `time.Time.Unix`. -/
def unix (t : Time) : Int := wrap64 (t.sec - unixToInternal)

/-- `time.Unix(sec, 0)`. -/
def ofUnix (sec : Int) : Time := ⟨wrap64 (sec + unixToInternal), 0⟩

/-- `time.Time.Sub`, in nanoseconds; a difference that is no `int64` saturates. -/
def sub (t u : Time) : Int :=
  max (-2 ^ 63) (min (2 ^ 63 - 1) ((t.sec - u.sec) * 10 ^ 9 + (t.nsec - u.nsec)))

end Time

end KoraDB.Base
