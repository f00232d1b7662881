import KoraDB.Base.GoTime
import KoraDB.Base.Strconv

/-!
# RFC 3339

`time.Parse(time.RFC3339, s)` on the values of RFC 3339, such as
`2006-01-02T15:04:05.999Z` and `2006-01-02T15:04:05+07:00`, and the proleptic
Gregorian calendar behind it. The few other spellings Go lets pass (an hour of
one digit, a comma before the fraction) are not read here.
-/

namespace KoraDB.Base.Time

def isLeap (year : Nat) : Bool := year % 4 == 0 && (year % 100 != 0 || year % 400 == 0)

/-- `daysIn`. -/
def daysIn (month year : Nat) : Nat :=
  if month = 2 then (if isLeap year then 29 else 28)
  else if month ∈ [4, 6, 9, 11] then 30 else 31

/-- Days from 1 January of year 1; negative in year 0. -/
def daysBeforeYear (year : Int) : Int :=
  365 * (year - 1) + (year - 1) / 4 - (year - 1) / 100 + (year - 1) / 400

def daysBeforeMonth (month year : Nat) : Nat :=
  ((List.range' 1 (month - 1)).map fun m => daysIn m year).sum

/-- `time.Date(year, month, day, hour, min, sec, nsec, time.UTC)`. -/
def date (year month day hour min sec nsec : Nat) : Time :=
  ⟨(daysBeforeYear year + daysBeforeMonth month year + (day - 1 : Nat)) * 86400 +
    (hour * 3600 + min * 60 + sec : Nat), nsec⟩

/-- A number of fixed width within bounds. -/
def parseField (s : Bytes) (lo hi : Nat) : Option Nat :=
  (parseDigits 0 s).filter fun n => decide (lo ≤ n) && decide (n ≤ hi)

/-- The bytes of a string between two positions. -/
def slice (s : Bytes) (i j : Nat) : Bytes := (s.drop i).take (j - i)

/-- The fraction of a second in nanoseconds, and what follows it. Digits past
the ninth are dropped. -/
def parseFraction (s : Bytes) : Nat × Bytes :=
  match s with
  | dot :: rest =>
    let digits := rest.takeWhile fun b => (digitValue b).isSome
    if dot = 0x2E ∧ digits ≠ [] then
      let digits' := digits.take 9
      (((parseDigits 0 digits').getD 0) * 10 ^ (9 - digits'.length), rest.drop digits.length)
    else (0, s)
  | [] => (0, s)

/-- The offset of a time zone in seconds east of UTC. -/
def parseZone (s : Bytes) : Option Int :=
  if s = ascii "Z" then some 0
  else do
    guard (s.length = 6 ∧ slice s 3 4 = ascii ":")
    let hr ← parseField (slice s 1 3) 0 23
    let mm ← parseField (slice s 4 6) 0 59
    if slice s 0 1 = ascii "+" then return ((hr * 60 + mm) * 60 : Nat)
    else if slice s 0 1 = ascii "-" then return -((hr * 60 + mm) * 60 : Nat)
    else failure

/-- `parseRFC3339`. -/
def parseRFC3339 (s : Bytes) : Option Time := do
  guard (slice s 4 5 = ascii "-" ∧ slice s 7 8 = ascii "-" ∧ slice s 10 11 = ascii "T" ∧
    slice s 13 14 = ascii ":" ∧ slice s 16 17 = ascii ":" ∧ 19 ≤ s.length)
  let year ← parseField (slice s 0 4) 0 9999
  let month ← parseField (slice s 5 7) 1 12
  let day ← parseField (slice s 8 10) 1 (daysIn month year)
  let hour ← parseField (slice s 11 13) 0 23
  let min ← parseField (slice s 14 16) 0 59
  let sec ← parseField (slice s 17 19) 0 59
  let (nsec, zone) := parseFraction (s.drop 19)
  let offset ← parseZone zone
  let t := date year month day hour min sec nsec
  return { t with sec := t.sec - offset }

example : parseRFC3339 (ascii "1970-01-01T00:00:00Z") = some ⟨unixToInternal, 0⟩ := by
  decide +kernel

example : parseRFC3339 (ascii "2000-03-01T01:30:00.25+02:00") =
    some ⟨unixToInternal + 951867000, 250000000⟩ := by
  decide +kernel

end KoraDB.Base.Time
