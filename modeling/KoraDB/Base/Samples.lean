import Mathlib.Data.List.Basic
import KoraDB.Base.Strconv

/-!
# Lines, and samples in the Prometheus text format

A text is read line by line. A line that starts with `#` is a comment; any other
one is a sample, a name with labels and a value. Inside a label's value the
backslash stands in front of itself, of a quote and of an `n` for the end of a
line, so the text of a sample is one line whatever its labels are
(`escape_oneLine`) and the value is read back (`readLabelValue_escape`).
-/

namespace KoraDB.Base

def newline : UInt8 := 0x0A

/-! ## Lines -/

/-- The lines of a text; the end of a line does not belong to it. -/
def lines : Bytes → List Bytes
  | [] => []
  | b :: t =>
    if b = newline then [] :: lines t
    else ((lines t).head?.elim [b] (b :: ·)) :: (lines t).tail

/-- Every text on a line of its own. -/
def unlines (ls : List Bytes) : Bytes := ls.flatMap fun l => l ++ [newline]

theorem lines_line {l : Bytes} (h : newline ∉ l) (t : Bytes) :
    lines (l ++ newline :: t) = l :: lines t := by
  induction l with
  | nil => rw [List.nil_append, lines, if_pos rfl]
  | cons b l ih =>
      have hb : b ≠ newline := fun hb => h (hb ▸ List.mem_cons_self)
      rw [List.cons_append, lines, if_neg hb, ih fun hmem => h (List.mem_cons_of_mem _ hmem)]
      rfl

theorem lines_unlines {ls : List Bytes} (h : ∀ l ∈ ls, newline ∉ l) : lines (unlines ls) = ls := by
  induction ls with
  | nil => rfl
  | cons l ls ih =>
      have hrest : ∀ l' ∈ ls, newline ∉ l' := fun l' hl => h l' (List.mem_cons_of_mem _ hl)
      show lines ((l ++ [newline]) ++ unlines ls) = _
      rw [List.append_assoc]
      show lines (l ++ newline :: unlines ls) = _
      rw [lines_line (h l List.mem_cons_self), ih hrest]

theorem formatUint_oneLine (n : Nat) : newline ∉ formatUint n := fun h =>
  absurd (digit_of_mem_formatUint h) (by decide)

theorem formatInt_oneLine (n : Int) : newline ∉ formatInt n := by
  unfold formatInt
  split
  · intro h
    rcases List.mem_cons.mp h with hminus | hdigit
    · exact absurd hminus (by decide)
    · exact formatUint_oneLine _ hdigit
  · exact formatUint_oneLine _

namespace Samples

structure Sample where
  name : Bytes
  labels : List (Bytes × Bytes)
  value : Bytes
  deriving DecidableEq, Repr

def backslash : UInt8 := 0x5C
def quoteMark : UInt8 := 0x22
def equalsSign : UInt8 := 0x3D
def comma : UInt8 := 0x2C
def openBrace : UInt8 := 0x7B
def closeBrace : UInt8 := 0x7D
def space : UInt8 := 0x20
def hash : UInt8 := 0x23

/-! ## Reading -/

/-- The byte that a backslash and `e` stand for. -/
def unescape (e : UInt8) : Option UInt8 :=
  if e = backslash then some backslash
  else if e = 0x6E then some newline
  else if e = quoteMark then some quoteMark
  else none

/-- A label's value up to its closing quote, and what stands behind it. -/
def readLabelValue : Bytes → Option (Bytes × Bytes)
  | [] => none
  | b :: t =>
    if b = quoteMark then some ([], t)
    else if b = backslash then
      match t with
      | [] => none
      | e :: t' => (unescape e).bind fun c => (readLabelValue t').map fun p => (c :: p.1, p.2)
    else (readLabelValue t).map fun p => (b :: p.1, p.2)

/-- The text in front of the first byte that stops it, that byte, and the rest. -/
def cutAt (stops : UInt8 → Bool) : Bytes → Option (Bytes × UInt8 × Bytes)
  | [] => none
  | b :: t => if stops b then some ([], b, t) else (cutAt stops t).map fun p => (b :: p.1, p.2)

/-- The rest of a text that starts with `b`. -/
def expect (b : UInt8) : Bytes → Option Bytes
  | [] => none
  | c :: t => if c = b then some t else none

/-- The labels up to the closing brace. The fuel bounds their number. -/
def readLabels : Nat → Bytes → Option (List (Bytes × Bytes) × Bytes)
  | 0, _ => none
  | fuel + 1, s => do
    let (name, _, t) ← cutAt (· == equalsSign) s
    let (value, rest) ← readLabelValue (← expect quoteMark t)
    match rest with
    | [] => none
    | b :: rest =>
      if b = comma then (readLabels fuel rest).map fun p => ((name, value) :: p.1, p.2)
      else if b = closeBrace then some ([(name, value)], rest)
      else none

def readSample (line : Bytes) : Option Sample := do
  let (name, b, t) ← cutAt (fun b => b == openBrace || b == space) line
  if b = space then return ⟨name, [], t⟩
  else
    let (labels, rest) ← readLabels t.length t
    return ⟨name, labels, ← expect space rest⟩

def isComment (line : Bytes) : Bool := line.head? == some hash

/-- The samples of a text. -/
def readText (text : Bytes) : Option (List Sample) :=
  ((lines text).filter fun l => !isComment l).mapM readSample

/-! ## Writing -/

def escapeByte (b : UInt8) : Bytes :=
  if b = backslash then [backslash, backslash]
  else if b = newline then [backslash, 0x6E]
  else if b = quoteMark then [backslash, quoteMark]
  else [b]

def escape (s : Bytes) : Bytes := s.flatMap escapeByte

/-- A label and its value in quotes. -/
def writeLabel (name value : Bytes) : Bytes :=
  name ++ equalsSign :: quoteMark :: (escape value ++ [quoteMark])

/-- The labels in front of a blank. -/
def writeLabels : List (Bytes × Bytes) → Bytes
  | [] => []
  | label :: labels =>
    openBrace :: (writeLabel label.1 label.2 ++
      (labels.flatMap fun l => comma :: writeLabel l.1 l.2) ++ [closeBrace])

def Sample.write (s : Sample) : Bytes := s.name ++ writeLabels s.labels ++ space :: s.value

/-- A line of a text. -/
inductive Line
  | comment (text : Bytes)
  | sample (s : Sample)

def Line.write : Line → Bytes
  | .comment text => hash :: text
  | .sample s => s.write

def Line.sample? : Line → Option Sample
  | .comment _ => none
  | .sample s => some s

/-- A name that ends where the labels or the value start. -/
def plainName (name : Bytes) : Bool :=
  name.all fun b => b != openBrace && b != space && b != newline

theorem plainName_iff {name : Bytes} : plainName name = true ↔
    ∀ b ∈ name, b ≠ openBrace ∧ b ≠ space ∧ b ≠ newline := by
  simp [plainName, List.all_eq_true, and_assoc]

/-- What the names and the value of a sample must not hold. -/
structure Sample.WellFormed (s : Sample) : Prop where
  name : plainName s.name = true
  named : ∃ b rest, s.name = b :: rest ∧ b ≠ hash
  labels : ∀ l ∈ s.labels, equalsSign ∉ l.1 ∧ newline ∉ l.1
  value : newline ∉ s.value

def Line.WellFormed : Line → Prop
  | .comment text => newline ∉ text
  | .sample s => s.WellFormed

/-! ## What is written is one line -/

theorem escapeByte_oneLine (b : UInt8) : newline ∉ escapeByte b := by
  unfold escapeByte
  split_ifs with h₁ h₂ h₃
  · decide
  · decide
  · decide
  · exact fun h => h₂ (List.mem_singleton.mp h).symm

theorem escape_oneLine (s : Bytes) : newline ∉ escape s := by
  intro h
  obtain ⟨b, -, hb⟩ := List.mem_flatMap.mp h
  exact escapeByte_oneLine b hb

theorem writeLabel_oneLine {name : Bytes} (h : newline ∉ name) (value : Bytes) :
    newline ∉ writeLabel name value := by
  simp only [writeLabel, List.mem_append, List.mem_cons, List.not_mem_nil, or_false, not_or]
  exact ⟨h, by decide, by decide, escape_oneLine value, by decide⟩

theorem writeLabels_oneLine {labels : List (Bytes × Bytes)} (h : ∀ l ∈ labels, newline ∉ l.1) :
    newline ∉ writeLabels labels := by
  cases labels with
  | nil => exact List.not_mem_nil
  | cons label labels =>
      simp only [writeLabels, List.mem_append, List.mem_cons, List.mem_flatMap, List.not_mem_nil,
        or_false, not_or, not_exists, not_and]
      refine ⟨by decide, ⟨?_, fun l hl => ⟨by decide, ?_⟩⟩, by decide⟩
      · exact writeLabel_oneLine (h label List.mem_cons_self) _
      · exact writeLabel_oneLine (h l (List.mem_cons_of_mem _ hl)) _

theorem Sample.WellFormed.oneLine {s : Sample} (h : s.WellFormed) : newline ∉ s.write := by
  simp only [Sample.write, List.mem_append, List.mem_cons, not_or]
  refine ⟨⟨fun hmem => (plainName_iff.mp h.name _ hmem).2.2 rfl, ?_⟩, by decide, h.value⟩
  exact writeLabels_oneLine fun l hl => (h.labels l hl).2

theorem Line.WellFormed.oneLine {l : Line} (h : l.WellFormed) : newline ∉ l.write := by
  cases l with
  | comment text =>
      intro hmem
      rcases List.mem_cons.mp hmem with hhash | htext
      · exact absurd hhash (by decide)
      · exact h htext
  | sample s => exact Sample.WellFormed.oneLine h

/-! ## What is written is read back -/

theorem cutAt_append {stops : UInt8 → Bool} {x : Bytes} {b : UInt8} (hx : ∀ c ∈ x, stops c = false)
    (hb : stops b = true) (t : Bytes) : cutAt stops (x ++ b :: t) = some (x, b, t) := by
  induction x with
  | nil => rw [List.nil_append, cutAt, if_pos hb]
  | cons c x ih =>
      have hc : ¬ stops c = true := by simp [hx c List.mem_cons_self]
      rw [List.cons_append, cutAt, if_neg hc, ih fun d hd => hx d (List.mem_cons_of_mem _ hd)]
      rfl

theorem readLabelValue_escapeByte (b : UInt8) (t : Bytes) :
    readLabelValue (escapeByte b ++ t) = (readLabelValue t).map fun p => (b :: p.1, p.2) := by
  unfold escapeByte
  split_ifs with h₁ h₂ h₃
  · subst h₁; rfl
  · subst h₂; rfl
  · subst h₃; rfl
  · rw [List.singleton_append, readLabelValue.eq_def]
    simp only [if_neg h₃, if_neg h₁]

theorem readLabelValue_escape (s t : Bytes) :
    readLabelValue (escape s ++ quoteMark :: t) = some (s, t) := by
  induction s with
  | nil =>
      show readLabelValue (quoteMark :: t) = _
      rw [readLabelValue.eq_def]
      simp only [if_true]
  | cons b s ih =>
      show readLabelValue ((escapeByte b ++ escape s) ++ quoteMark :: t) = _
      rw [List.append_assoc, readLabelValue_escapeByte, ih]
      rfl

/-- One label, and the byte behind it. -/
theorem readLabels_label {name : Bytes} (h : equalsSign ∉ name) (value : Bytes) (fuel : Nat)
    (b : UInt8) (t : Bytes) :
    readLabels (fuel + 1) (writeLabel name value ++ b :: t) =
      if b = comma then (readLabels fuel t).map fun p => ((name, value) :: p.1, p.2)
      else if b = closeBrace then some ([(name, value)], t)
      else none := by
  have hcut : cutAt (· == equalsSign) (writeLabel name value ++ b :: t) =
      some (name, equalsSign, quoteMark :: (escape value ++ quoteMark :: b :: t)) := by
    have hsplit : writeLabel name value ++ b :: t =
        name ++ equalsSign :: (quoteMark :: (escape value ++ quoteMark :: b :: t)) := by
      simp [writeLabel]
    rw [hsplit]
    refine cutAt_append (fun c hc => ?_) rfl _
    exact beq_eq_false_iff_ne.mpr fun hce => h (hce ▸ hc)
  rw [readLabels, hcut]
  simp only [bind, Option.bind_some, expect, if_true, readLabelValue_escape]

theorem readLabels_write {label : Bytes × Bytes} {labels : List (Bytes × Bytes)}
    (h : ∀ l ∈ label :: labels, equalsSign ∉ l.1) (t : Bytes) {fuel : Nat}
    (hfuel : labels.length < fuel) :
    readLabels fuel (writeLabel label.1 label.2 ++
        (labels.flatMap fun l => comma :: writeLabel l.1 l.2) ++ closeBrace :: t) =
      some (label :: labels, t) := by
  induction labels generalizing label fuel with
  | nil =>
      obtain ⟨fuel, rfl⟩ : ∃ n, fuel = n + 1 := ⟨fuel - 1, by simp at hfuel; omega⟩
      rw [List.flatMap_nil, List.append_nil, readLabels_label (h label List.mem_cons_self)]
      rfl
  | cons l ls ih =>
      rw [List.length_cons] at hfuel
      obtain ⟨fuel, rfl⟩ : ∃ n, fuel = n + 1 := ⟨fuel - 1, by omega⟩
      have hrest : ∀ l' ∈ l :: ls, equalsSign ∉ l'.1 :=
        fun l' hl => h l' (List.mem_cons_of_mem _ hl)
      have htext : writeLabel label.1 label.2 ++
          ((l :: ls).flatMap fun l => comma :: writeLabel l.1 l.2) ++ closeBrace :: t =
          writeLabel label.1 label.2 ++ comma :: (writeLabel l.1 l.2 ++
            (ls.flatMap fun l => comma :: writeLabel l.1 l.2) ++ closeBrace :: t) := by
        simp
      rw [htext, readLabels_label (h label List.mem_cons_self), if_pos rfl,
        ih hrest (Nat.lt_of_succ_lt_succ hfuel)]
      rfl

theorem length_le_labels (labels : List (Bytes × Bytes)) :
    labels.length ≤ (labels.flatMap fun l => comma :: writeLabel l.1 l.2).length := by
  induction labels with
  | nil => exact Nat.le_refl 0
  | cons l ls ih =>
      simp only [List.flatMap_cons, List.length_cons, List.length_append]
      omega

/-- **A sample is read back.** -/
theorem Sample.WellFormed.readSample_write {s : Sample} (h : s.WellFormed) :
    readSample s.write = some s := by
  obtain ⟨name, labels, value⟩ := s
  have hstops : ∀ c ∈ name, (c == openBrace || c == space) = false := by
    intro c hc
    obtain ⟨hbrace, hspace, -⟩ := plainName_iff.mp h.name c hc
    rw [beq_eq_false_iff_ne.mpr hbrace, beq_eq_false_iff_ne.mpr hspace]
    rfl
  cases labels with
  | nil =>
      show readSample ((name ++ []) ++ space :: value) = _
      rw [List.append_nil, readSample, cutAt_append hstops rfl]
      rfl
  | cons label labels =>
      have hwrite : Sample.write ⟨name, label :: labels, value⟩ =
          name ++ openBrace :: (writeLabel label.1 label.2 ++
            (labels.flatMap fun l => comma :: writeLabel l.1 l.2) ++
              closeBrace :: space :: value) := by
        simp [Sample.write, writeLabels]
      have hlen := length_le_labels labels
      rw [hwrite, readSample, cutAt_append hstops rfl]
      simp only [bind, Option.bind_some]
      rw [if_neg (by decide), readLabels_write fun l hl => (h.labels l hl).1]
      · rfl
      · simp only [List.length_append, List.length_cons]
        omega

theorem Line.isComment_write {l : Line} (h : l.WellFormed) :
    isComment l.write = l.sample?.isNone := by
  cases l with
  | comment text => rfl
  | sample s =>
      obtain ⟨b, rest, hname, hb⟩ := Sample.WellFormed.named h
      show isComment (s.name ++ writeLabels s.labels ++ space :: s.value) = false
      rw [hname, isComment]
      exact beq_eq_false_iff_ne.mpr fun hhash => hb (Option.some.inj hhash)

/-- **A text is read back**: its samples in order, the comments left out. -/
theorem readText_write {ls : List Line} (h : ∀ l ∈ ls, l.WellFormed) :
    readText (unlines (ls.map Line.write)) = some (ls.filterMap Line.sample?) := by
  have hone : ∀ text ∈ ls.map Line.write, newline ∉ text := by
    intro text htext
    obtain ⟨l, hl, rfl⟩ := List.mem_map.mp htext
    exact (h l hl).oneLine
  rw [readText, lines_unlines hone]
  clear hone
  induction ls with
  | nil => rfl
  | cons l ls ih =>
      have hrest := ih fun l' hl => h l' (List.mem_cons_of_mem _ hl)
      have hl := h l List.mem_cons_self
      have hcomment := Line.isComment_write hl
      cases l with
      | comment text =>
          rw [List.map_cons, List.filter_cons_of_neg (by rw [hcomment]; exact Bool.false_ne_true),
            hrest]
          rfl
      | sample s =>
          have hread : readSample (Line.sample s).write = some s :=
            Sample.WellFormed.readSample_write hl
          rw [List.map_cons, List.filter_cons_of_pos (by rw [hcomment]; rfl), List.mapM_cons,
            hread, hrest]
          rfl

end Samples

end KoraDB.Base
