import KoraDB.Base.Float64
import KoraDB.Base.Samples
import KoraDB.Server.Pipeline

/-!
# What a scrape of the metrics tells (`metrics.go`)

`serveHTTP` copies the counters under the lock and loads the gauge after it, so
a scrape may see the gauge of a later state than its counters. Its text is in
the Prometheus format, and whatever the methods are called it reads back: the
gauge is the number of requests that are in flight when it is loaded, and there
is a series for each method and code of a request counted before the lock, in
order, with the number of those requests and the time they took, to the
nanosecond up to some 52 days (`scrape_reports`).
-/

namespace KoraDB.Server

open KoraDB.Base KoraDB.Base.Samples KoraDB.Catalog KoraDB.System

/-! ## The text -/

/-- The replacements of `prometheusLabel`. -/
def labelReplacements : List (UInt8 × Bytes) :=
  [(0x5C, ascii "\\\\"), (0x0A, ascii "\\n"), (0x22, ascii "\\\"")]

/-- `prometheusLabel`. All patterns of the replacer are single bytes. -/
def prometheusLabel (value : Bytes) : Bytes :=
  value.flatMap fun b => (labelReplacements.lookup b).getD [b]

/-- `%.9f` of `float64(durationNanos)/float64(time.Second)`. -/
def secondsText (nanos : Nat) : Bytes :=
  formatFixed 9 (float64 (float64 nanos / float64 (10 ^ 9 : ℕ)))

/-- The copy of the counters, sorted by method and then by code. -/
def sortedOutcomes (outcomes : BMap (BMap MetricValue)) : List ((Bytes × Bytes) × MetricValue) :=
  outcomes.toList.flatMap fun e => e.2.toList.map fun c => ((e.1, c.1), c.2)

def outcomeLabels (key : Bytes × Bytes) : Bytes :=
  ascii "method=\"" ++ prometheusLabel key.1 ++ ascii "\",code=\"" ++ prometheusLabel key.2 ++
    ascii "\""

/-- The lines of one key. -/
def outcomeLines (key : Bytes × Bytes) (value : MetricValue) :
    List Bytes :=
  [ascii "koradb_requests_total\x7b" ++ outcomeLabels key ++ ascii "\x7d " ++
      formatUint value.count,
    ascii "koradb_request_duration_seconds_sum\x7b" ++ outcomeLabels key ++ ascii "\x7d " ++
      secondsText value.durationNanos,
    ascii "koradb_request_duration_seconds_count\x7b" ++ outcomeLabels key ++ ascii "\x7d " ++
      formatUint value.count]

def gaugeHelp : List Bytes :=
  [ascii "# HELP koradb_requests_in_flight Current unary gRPC requests being handled.",
    ascii "# TYPE koradb_requests_in_flight gauge"]

def outcomeHelp : List Bytes :=
  [ascii ("# HELP koradb_requests_total Completed unary gRPC requests by method and gRPC " ++
      "code."),
    ascii "# TYPE koradb_requests_total counter",
    ascii ("# HELP koradb_request_duration_seconds Completed unary gRPC request duration by " ++
      "method and gRPC code."),
    ascii "# TYPE koradb_request_duration_seconds summary"]

/-- `serveHTTP`, with the counters as they are under the lock and the gauge as it
is loaded; nothing for `http.NotFound`. -/
def serveHTTP (outcomes : BMap (BMap MetricValue)) (inFlight : Int)
    (method path : Bytes) : Option Bytes :=
  if method ≠ ascii "GET" ∨ path ≠ ascii "/metrics" then none
  else some (unlines (gaugeHelp ++ (ascii "koradb_requests_in_flight " ++ formatInt inFlight) ::
    (outcomeHelp ++ (sortedOutcomes outcomes).flatMap fun e => outcomeLines e.1 e.2)))

/-! ## The text as samples -/

theorem prometheusLabel_eq (value : Bytes) : prometheusLabel value = escape value := by
  refine List.flatMap_congr fun b _ => ?_
  by_cases h₁ : b = backslash
  · subst h₁; decide
  by_cases h₂ : b = newline
  · subst h₂; decide
  by_cases h₃ : b = quoteMark
  · subst h₃; decide
  have hlookup : labelReplacements.lookup b = none := by
    refine List.lookup_eq_none_iff.mpr fun e he => ?_
    simp only [labelReplacements, List.mem_cons, List.not_mem_nil, or_false] at he
    rcases he with rfl | rfl | rfl
    · exact bne_iff_ne.mpr h₁
    · exact bne_iff_ne.mpr h₂
    · exact bne_iff_ne.mpr h₃
  rw [hlookup, escapeByte, if_neg h₁, if_neg h₂, if_neg h₃]
  rfl

def outcomeSample (name : Bytes) (key : Bytes × Bytes) (value : Bytes) : Sample :=
  ⟨name, [(ascii "method", key.1), (ascii "code", key.2)], value⟩

/-- The series of one key. -/
def outcomeSamples (key : Bytes × Bytes) (value : MetricValue) :
    List Sample :=
  [outcomeSample (ascii "koradb_requests_total") key (formatUint value.count),
    outcomeSample (ascii "koradb_request_duration_seconds_sum") key
      (secondsText value.durationNanos),
    outcomeSample (ascii "koradb_request_duration_seconds_count") key (formatUint value.count)]

theorem outcomeSample_write (name : Bytes) (key : Bytes × Bytes) (value : Bytes) :
    (outcomeSample name key value).write =
      name ++ ascii "\x7b" ++ outcomeLabels key ++ ascii "\x7d " ++ value := by
  have hmethod : ascii "method=\"" = ascii "method" ++ [equalsSign, quoteMark] := by decide
  have hcode : ascii "\",code=\"" =
      quoteMark :: comma :: (ascii "code" ++ [equalsSign, quoteMark]) := by decide
  have hquote : ascii "\"" = [quoteMark] := by decide
  have hopen : ascii "\x7b" = [openBrace] := by decide
  have hclose : ascii "\x7d " = [closeBrace, space] := by decide
  rw [outcomeLabels, hmethod, hcode, hquote, hopen, hclose, prometheusLabel_eq,
    prometheusLabel_eq]
  simp [outcomeSample, Sample.write, writeLabels, writeLabel]

theorem outcomeLines_eq (key : Bytes × Bytes) (value : MetricValue) :
    outcomeLines key value = (outcomeSamples key value).map Sample.write := by
  have htotal : ascii "koradb_requests_total\x7b" =
      ascii "koradb_requests_total" ++ ascii "\x7b" := by decide
  have hsum : ascii "koradb_request_duration_seconds_sum\x7b" =
      ascii "koradb_request_duration_seconds_sum" ++ ascii "\x7b" := by decide
  have hcount : ascii "koradb_request_duration_seconds_count\x7b" =
      ascii "koradb_request_duration_seconds_count" ++ ascii "\x7b" := by decide
  simp only [outcomeLines, outcomeSamples, List.map_cons, List.map_nil, outcomeSample_write,
    htotal, hsum, hcount]

/-- The names in use are plain. -/
theorem outcomeSample_wellFormed {name : Bytes} (key : Bytes × Bytes) {value : Bytes}
    (hname : plainName name = true)
    (hnamed : ∃ b rest, name = b :: rest ∧ b ≠ hash) (hvalue : newline ∉ value) :
    (outcomeSample name key value).WellFormed where
  name := hname
  named := hnamed
  labels := by
    intro l hl
    rcases List.mem_cons.mp hl with rfl | hl
    · show equalsSign ∉ ascii "method" ∧ newline ∉ ascii "method"
      decide
    · rw [List.mem_singleton.mp hl]
      show equalsSign ∉ ascii "code" ∧ newline ∉ ascii "code"
      decide
  value := hvalue

theorem secondsText_oneLine (nanos : Nat) : newline ∉ secondsText nanos :=
  fun h => absurd (mem_formatFixed h) (by decide)

theorem outcomeSamples_wellFormed (key : Bytes × Bytes)
    (value : MetricValue) : ∀ s ∈ outcomeSamples key value, s.WellFormed := by
  intro s hs
  simp only [outcomeSamples, List.mem_cons, List.not_mem_nil, or_false] at hs
  rcases hs with rfl | rfl | rfl
  · exact outcomeSample_wellFormed key (by decide) ⟨_, _, rfl, by decide⟩ (formatUint_oneLine _)
  · exact outcomeSample_wellFormed key (by decide) ⟨_, _, rfl, by decide⟩ (secondsText_oneLine _)
  · exact outcomeSample_wellFormed key (by decide) ⟨_, _, rfl, by decide⟩ (formatUint_oneLine _)

def gaugeSample (inFlight : Int) : Sample :=
  ⟨ascii "koradb_requests_in_flight", [], formatInt inFlight⟩

theorem gaugeSample_wellFormed (inFlight : Int) : (gaugeSample inFlight).WellFormed where
  name := by
    show plainName (ascii "koradb_requests_in_flight") = true
    decide
  named := ⟨_, _, rfl, by decide⟩
  labels := fun l hl => absurd hl List.not_mem_nil
  value := formatInt_oneLine inFlight

/-- The help texts. -/
theorem help_lines {help : List Bytes}
    (h : ∀ l ∈ help, l.head? = some hash ∧ newline ∉ l) :
    ∃ ls : List Line, help = ls.map Line.write ∧ (∀ l ∈ ls, l.WellFormed) ∧
      ls.filterMap Line.sample? = [] := by
  induction help with
  | nil => exact ⟨[], rfl, fun _ h => absurd h List.not_mem_nil, rfl⟩
  | cons text help ih =>
      obtain ⟨ls, rfl, hwell, hnone⟩ := ih fun l hl => h l (List.mem_cons_of_mem _ hl)
      obtain ⟨hhead, hone⟩ := h text List.mem_cons_self
      obtain ⟨rest, rfl⟩ : ∃ rest, text = hash :: rest := by
        cases text with
        | nil => cases hhead
        | cons b rest => exact ⟨rest, by rw [Option.some.inj hhead]⟩
      refine ⟨.comment rest :: ls, rfl, ?_, hnone⟩
      intro l hl
      rcases List.mem_cons.mp hl with rfl | hl
      · exact fun hmem => hone (List.mem_cons_of_mem _ hmem)
      · exact hwell l hl

theorem gaugeSample_write (inFlight : Int) :
    ascii "koradb_requests_in_flight " ++ formatInt inFlight =
      (Line.sample (gaugeSample inFlight)).write := by
  have hname : ascii "koradb_requests_in_flight " =
      ascii "koradb_requests_in_flight" ++ [space] := by decide
  rw [hname]
  simp [Line.write, gaugeSample, Sample.write, writeLabels]

/-- The series of all keys. -/
def seriesOf (outcomes : BMap (BMap MetricValue)) : List Sample :=
  (sortedOutcomes outcomes).flatMap fun e => outcomeSamples e.1 e.2

theorem seriesOf_wellFormed (outcomes : BMap (BMap MetricValue)) :
    ∀ s ∈ seriesOf outcomes, s.WellFormed := by
  intro s hs
  obtain ⟨e, -, he⟩ := List.mem_flatMap.mp hs
  exact outcomeSamples_wellFormed e.1 e.2 s he

theorem seriesOf_write (outcomes : BMap (BMap MetricValue)) :
    ((sortedOutcomes outcomes).flatMap fun e => outcomeLines e.1 e.2) =
      ((seriesOf outcomes).map Line.sample).map Line.write := by
  rw [seriesOf, List.map_map, List.map_flatMap]
  exact List.flatMap_congr fun e _ => outcomeLines_eq e.1 e.2

/-- The text reads back as the gauge and the counters. -/
theorem read_serveHTTP (outcomes : BMap (BMap MetricValue))
    (inFlight : Int) :
    (serveHTTP outcomes inFlight (ascii "GET") (ascii "/metrics")).bind readText =
      some (gaugeSample inFlight :: seriesOf outcomes) := by
  obtain ⟨gauge, hgauge, hgaugeWell, hgaugeNone⟩ :=
    @help_lines gaugeHelp (by decide +kernel)
  obtain ⟨help, hhelp, hhelpWell, hhelpNone⟩ := @help_lines outcomeHelp (by decide +kernel)
  have hwell : ∀ l ∈ gauge ++ .sample (gaugeSample inFlight) ::
      (help ++ (seriesOf outcomes).map Line.sample), l.WellFormed := by
    intro l hl
    simp only [List.mem_append, List.mem_cons, List.mem_map] at hl
    rcases hl with hl | rfl | hl | ⟨s, hs, rfl⟩
    · exact hgaugeWell l hl
    · exact gaugeSample_wellFormed inFlight
    · exact hhelpWell l hl
    · exact seriesOf_wellFormed outcomes s hs
  have hread := readText_write hwell
  -- only the samples are read
  have hkept : ((seriesOf outcomes).map Line.sample).filterMap Line.sample? =
      seriesOf outcomes := by
    rw [List.filterMap_map]
    exact List.filterMap_some
  have hsample : (Line.sample (gaugeSample inFlight)).sample? = some (gaugeSample inFlight) := rfl
  rw [List.filterMap_append, List.filterMap_cons_some hsample, List.filterMap_append, hgaugeNone,
    hhelpNone, hkept, List.nil_append, List.nil_append] at hread
  rw [serveHTTP, if_neg (by simp), Option.bind_some, hgauge, hhelp, gaugeSample_write,
    seriesOf_write, ← hread, List.map_append, List.map_cons, List.map_append]

/-! ## The keys of the counters -/

/-- Whether the counters have the key. -/
def Metrics.has (m : Metrics) (method code : Bytes) : Prop :=
  ∃ v, (m.outcomes[method]?.getD ∅)[code]? = some v

theorem Metrics.has_record (m : Metrics) (method code method' code' : Bytes) (duration : Int) :
    (m.record method code duration).has method' code' ↔
      (method = method' ∧ code = code') ∨ m.has method' code' := by
  unfold Metrics.record Metrics.has
  simp only [BMap.get_insert]
  by_cases hm : method = method'
  · subst hm
    rw [if_pos rfl, Option.getD_some, BMap.get_insert]
    by_cases hc : code = code'
    · simp [hc]
    · simp [hc]
  · simp [hm]

@[simp] theorem Metrics.has_begin (m : Metrics) (method code : Bytes) :
    m.begin.has method code ↔ m.has method code := Iff.rfl

@[simp] theorem Metrics.has_leave (m : Metrics) (method code : Bytes) :
    m.leave.has method code ↔ m.has method code := Iff.rfl

/-- The order of the keys. -/
def KeyBefore (a b : Bytes × Bytes) : Prop := Before a.1 b.1 ∨ (a.1 = b.1 ∧ Before a.2 b.2)

theorem mem_sortedOutcomes {m : Metrics} {key : Bytes × Bytes} {v : MetricValue} :
    (key, v) ∈ sortedOutcomes m.outcomes ↔ (m.outcomes[key.1]?.getD ∅)[key.2]? = some v := by
  obtain ⟨method, code⟩ := key
  simp only [sortedOutcomes, List.mem_flatMap, List.mem_map, Prod.exists, Prod.mk.injEq,
    BMap.mem_toList]
  constructor
  · rintro ⟨method', codes, hcodes, code', v', hv, ⟨rfl, rfl⟩, rfl⟩
    rw [hcodes]
    exact hv
  · intro h
    cases hcodes : m.outcomes[method]? with
    | none =>
        rw [hcodes] at h
        simp at h
    | some codes =>
        rw [hcodes] at h
        exact ⟨method, codes, hcodes, code, v, h, ⟨rfl, rfl⟩, rfl⟩

theorem value_of_mem {m : Metrics} {key : Bytes × Bytes} {v : MetricValue}
    (h : (key, v) ∈ sortedOutcomes m.outcomes) : m.value key.1 key.2 = v := by
  rw [Metrics.value, mem_sortedOutcomes.mp h]
  rfl

theorem mem_keys {m : Metrics} {key : Bytes × Bytes} :
    key ∈ (sortedOutcomes m.outcomes).map Prod.fst ↔ m.has key.1 key.2 := by
  constructor
  · intro h
    obtain ⟨⟨key', v⟩, hmem, rfl⟩ := List.mem_map.mp h
    exact ⟨v, mem_sortedOutcomes.mp hmem⟩
  · rintro ⟨v, hv⟩
    exact List.mem_map.mpr ⟨(key, v), mem_sortedOutcomes.mpr hv, rfl⟩

theorem sortedOutcomes_sorted (outcomes : BMap (BMap MetricValue)) :
    ((sortedOutcomes outcomes).map Prod.fst).Pairwise KeyBefore := by
  rw [List.pairwise_map, sortedOutcomes, List.pairwise_flatMap]
  constructor
  · rintro ⟨method, codes⟩ -
    rw [List.pairwise_map]
    exact (BMap.toList_sorted codes).imp fun h => .inr ⟨rfl, h⟩
  · refine (BMap.toList_sorted outcomes).imp fun h x hx y hy => ?_
    obtain ⟨_, -, rfl⟩ := List.mem_map.mp hx
    obtain ⟨_, -, rfl⟩ := List.mem_map.mp hy
    exact .inl h

/-- The counters have the keys of the requests that are counted. -/
def KeysCounted (m : Metrics) (marks : List Mark) : Prop :=
  ∀ method code, m.has method code ↔
    ∃ μ ∈ marks.filterMap Mark.measure, μ.method = method ∧ μ.code = code

section KeysCounted

variable {svc : Service} {st st' : Chain} {a a' : Active} {tick : Tick}

theorem KeysCounted.perm {m : Metrics} {marks marks' : List Mark} (h : KeysCounted m marks)
    (hp : marks.Perm marks') : KeysCounted m marks' := by
  intro method code
  rw [h method code]
  simp only [(hp.filterMap Mark.measure).mem_iff]

theorem keysCounted_advances {marks : List Mark} (h : KeysCounted st.metrics (a.mark :: marks))
    (hadv : Advances svc st a tick st' a') : KeysCounted st'.metrics (a'.mark :: marks) := by
  cases hadv with
  | counted hs =>
      intro method code
      have hold := h method code
      simp only [Active.mark, hs, List.filterMap_cons_none] at hold
      rw [Metrics.has_record, hold]
      simp [Active.mark, Active.measure]
  | ended hs => exact h
  | lapsed hs _ | bounded hs _ | full hs _ | acquired hs _ | denied hs _ _ | authorized hs _ _
  | unchecked hs _ | limited hs _ | ready hs _ | handled hs _ | released hs | answered hs
  | left hs | logged hs =>
      simpa [KeysCounted, Active.mark, Active.measure, hs] using h

theorem keysCounted_step {e : ChainEvent}
    (h : KeysCounted st.metrics (st.requests.map Active.mark)) :
    KeysCounted (stepChain svc st e).metrics ((stepChain svc st e).requests.map Active.mark) := by
  have hstep := stepChain_steps svc st e
  generalize stepChain svc st e = st' at hstep
  cases hstep with
  | idle _ => exact h
  | arrived henter =>
      rename_i a'
      have hmark : a'.mark = ⟨false, true, none, none⟩ := by
        obtain ⟨m, body, _, _, rfl⟩ := enter_eq_some henter
        rfl
      have hnew : KeysCounted st.metrics.begin (a'.mark :: st.requests.map Active.mark) := by
        simpa [KeysCounted, hmark] using h
      refine hnew.perm ?_
      rw [List.map_append]
      exact (List.perm_append_singleton _ _).symm
  | expired hi =>
      obtain ⟨marks, hold, hnew⟩ := marks_set hi
      exact (KeysCounted.perm h hold).perm ((mark_ctxErr _ _ ▸ hnew _).symm)
  | advanced hi hadv =>
      obtain ⟨marks, hold, hnew⟩ := marks_set hi
      exact (keysCounted_advances (KeysCounted.perm h hold) hadv).perm (hnew _).symm

theorem keysCounted_run (svc : Service) (setup : List Op) (created : Time)
    (events : List ChainEvent) :
    KeysCounted (chainAfter svc setup created events).metrics
      ((chainAfter svc setup created events).requests.map Active.mark) := by
  refine run_kept (P := fun st : Chain => KeysCounted st.metrics (st.requests.map Active.mark))
    (fun method code => ?_) fun _ _ _ h => keysCounted_step h
  simp [Chain.start, Metrics.has, Metrics.new]

end KeysCounted

/-- The text is a time in seconds. Two roundings to `float64` and one to nine
decimals leave it exact below `2 ^ 52` nanoseconds, some 52 days; beyond, it is
off by one part in `2 ^ 52` and a nanosecond at most. -/
def TellsTime (text : Bytes) (nanos : Nat) : Prop :=
  ∃ total : ℚ, readDecimal text = some total ∧
    (nanos < 2 ^ 52 → total = (nanos : ℚ) / 10 ^ 9) ∧
    |total - (nanos : ℚ) / 10 ^ 9| ≤ ((nanos : ℚ) / 2 ^ 52 + 1) / 10 ^ 9

theorem secondsText_tells {nanos : Nat} (h : nanos < 2 ^ 64) :
    TellsTime (secondsText nanos) nanos := by
  have hsecond : float64 ((10 ^ 9 : ℕ) : ℚ) = 10 ^ 9 := by
    rw [float64_natCast (by norm_num)]
    norm_num
  have hsize : (nanos : ℚ) < 2 ^ 64 := by exact_mod_cast h
  have hnanos : (0 : ℚ) ≤ nanos := Nat.cast_nonneg _
  have hquot : 0 ≤ float64 nanos / 10 ^ 9 := div_nonneg (float64_nonneg hnanos) (by norm_num)
  -- the errors of the three roundings
  obtain ⟨hlo₁, hhi₁⟩ := abs_le.mp (abs_float64_sub_le hnanos)
  obtain ⟨hlo₂, hhi₂⟩ := abs_le.mp (abs_float64_sub_le hquot)
  generalize hv : float64 (float64 nanos / 10 ^ 9) = v at hlo₂ hhi₂
  have hread : readDecimal (secondsText nanos) =
      some ((roundEven (v * 10 ^ 9) : ℚ) / 10 ^ 9) := by
    rw [secondsText, hsecond, hv]
    exact readDecimal_formatFixed (by decide) (hv ▸ float64_nonneg hquot)
  obtain ⟨hlo₃, hhi₃⟩ := abs_le.mp (abs_roundEven_sub_le (v * 10 ^ 9))
  refine ⟨_, hread, ?_, ?_⟩
  · intro hsmall
    have hsmall' : (nanos : ℚ) < 2 ^ 52 := by exact_mod_cast hsmall
    -- the first is none, and the second is less than half a nanosecond
    have hexact : float64 nanos = nanos := float64_natCast (by omega)
    rw [hexact] at hlo₂ hhi₂
    have hnear : |v * 10 ^ 9 - ((nanos : ℤ) : ℚ)| < 1 / 2 := by
      rw [Int.cast_natCast, abs_lt]
      constructor <;> linarith
    rw [roundEven_eq_of_abs_lt hnear, Int.cast_natCast]
  · rw [← sub_div, abs_div, abs_of_pos (by norm_num : (0 : ℚ) < 10 ^ 9)]
    refine div_le_div_of_nonneg_right (abs_le.mpr ?_) (by norm_num)
    constructor <;> linarith

theorem tally_durationNanos_lt (method code : Bytes) (ms : List Measure) :
    (tally method code ms).durationNanos < 2 ^ 64 := Nat.mod_lt _ (by decide)

/-- **A scrape tells what the requests did.** The counters are read in one state
of a run and the gauge in a later one. The text reads back as the number of
requests in flight in the later state, and three series for each method and code
of the requests counted in the earlier one, sorted, with their number and the
time they took, which reads back as it was counted. -/
theorem scrape_reports (svc : Service) (setup : List Op) (created : Time)
    (events more : List ChainEvent) :
    let locked := chainAfter svc setup created events
    let loaded := chainAfter svc setup created (events ++ more)
    let counted := locked.requests.filterMap fun a => a.mark.measure
    ∃ keys : List (Bytes × Bytes), keys.Pairwise KeyBefore ∧
      (∀ key, key ∈ keys ↔ ∃ μ ∈ counted, μ.method = key.1 ∧ μ.code = key.2) ∧
      (serveHTTP locked.metrics.outcomes loaded.metrics.inFlight (ascii "GET")
          (ascii "/metrics")).bind readText =
        some (gaugeSample (loaded.requests.countP fun a => a.mark.gauge) ::
          keys.flatMap fun key => outcomeSamples key (tally key.1 key.2 counted)) ∧
      ∀ key : Bytes × Bytes, TellsTime (secondsText (tally key.1 key.2 counted).durationNanos)
        (tally key.1 key.2 counted).durationNanos := by
  intro locked loaded counted
  have hcounted : (locked.requests.map Active.mark).filterMap Mark.measure = counted :=
    List.filterMap_map
  have hkeyed : KeysCounted locked.metrics (locked.requests.map Active.mark) :=
    keysCounted_run svc setup created events
  have hcounters : ∀ method code, locked.metrics.value method code = tally method code counted := by
    intro method code
    rw [← hcounted]
    exact (accounted_run svc setup created events).counters method code
  have hgauge : loaded.metrics.inFlight = loaded.requests.countP fun a => a.mark.gauge := by
    have h := (accounted_run svc setup created (events ++ more)).gauge
    rwa [List.countP_map] at h
  refine ⟨(sortedOutcomes locked.metrics.outcomes).map Prod.fst, sortedOutcomes_sorted _, ?_, ?_,
    fun key => secondsText_tells (tally_durationNanos_lt _ _ _)⟩
  · intro key
    rw [mem_keys, hkeyed key.1 key.2, hcounted]
  · rw [read_serveHTTP, seriesOf, hgauge, List.flatMap_map]
    refine congrArg (fun l => some (gaugeSample _ :: l)) (List.flatMap_congr fun e he => ?_)
    rw [← hcounters, value_of_mem he]

end KoraDB.Server
