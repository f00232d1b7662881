import Mathlib.Logic.Unique
import KoraDB.Base.Except
import KoraDB.Proto.Descriptor

/-!
# In-place evolution: the compatibility check (`internal/schema`)

`ensureFileCompatible` walks the active version of one file and looks every
message, field and enum value up in the candidate version: messages and enums
by their name inside the file, fields and enum values by their number. New
declarations are not looked at.

`ensureMessages_kept` states what acceptance gives to a reader of the new
version who looks messages up by their full name, when the enclosing scope has
the same full name in both.
-/

namespace KoraDB.Schema

open KoraDB.Base KoraDB.Proto

/-- Why an evolution is refused, with the full name of the offending
declaration. -/
inductive CompatErr
  | activeMissing (path : Bytes)
  | candidateMissing (path : Bytes)
  | messageRemoved (name : Bytes)
  | fieldRemoved (name : Bytes) (number : Nat)
  | fieldChanged (name : Bytes) (number : Nat)
  | fieldMessageChanged (name : Bytes)
  | fieldEnumChanged (name : Bytes)
  | enumRemoved (name : Bytes)
  | enumValueChanged (name : Bytes) (number : Int)
  deriving DecidableEq

/-- `oneofName`: the empty name outside any oneof. -/
def oneofName (fd : FieldDesc) : Bytes :=
  match fd.containingOneof with
  | some oneof => oneof.val
  | none => []

/-- Some part of a field's contract differs. -/
def contractChanged (old new : FieldDesc) : Bool :=
  old.name != new.name || old.kind != new.kind || old.cardinality != new.cardinality ||
    old.hasPresence != new.hasPresence || old.isMap != new.isMap || oneofName old != oneofName new

/-- The body of the loop over fields in `ensureMessageCompatible`. -/
def ensureFieldCompatible (parent : Bytes) (new : MessageDesc) (old : FieldDesc) :
    Except CompatErr Unit := do
  let name := fullName parent old.name
  let newField ← orErr (new.byNumber old.number) (.fieldRemoved name old.number)
  reject (contractChanged old newField) (.fieldChanged name old.number)
  reject (!old.kind.isScalar && old.message != newField.message) (.fieldMessageChanged name)
  reject (old.kind == .enum && old.enum != newField.enum) (.fieldEnumChanged name)

/-- The body of the loop over values in `ensureEnumsCompatible`. A value's full
name is a sibling of its enum's. -/
def ensureValueCompatible (parent : Bytes) (new : EnumDesc) (old : EnumValue) :
    Except CompatErr Unit :=
  match new.byNumber old.number with
  | none => .error (.enumValueChanged (fullName parent old.name) old.number)
  | some v => reject (v.name != old.name) (.enumValueChanged (fullName parent old.name) old.number)

/-- `ensureEnumsCompatible`. -/
def ensureEnumsCompatible (parent : Bytes) (old new : List EnumDesc) : Except CompatErr Unit :=
  old.forM fun e => do
    let e' ← orErr (new.find? fun x => x.name == e.name) (.enumRemoved (fullName parent e.name))
    e.values.forM (ensureValueCompatible parent e')

mutual

/-- `ensureMessageCompatible`, for a message declared in `parent`. -/
def ensureMessageCompatible (parent : Bytes) : MessageDesc → MessageDesc → Except CompatErr Unit
  | .mk name fields messages enums, new => do
    fields.forM (ensureFieldCompatible (fullName parent name) new)
    ensureMessagesCompatible (fullName parent name) messages new.messages
    ensureEnumsCompatible (fullName parent name) enums new.enums

/-- `ensureMessagesCompatible`. -/
def ensureMessagesCompatible (parent : Bytes) :
    List MessageDesc → List MessageDesc → Except CompatErr Unit
  | [], _ => .ok ()
  | old :: rest, news => do
    let new ← orErr (news.find? fun m => m.name == old.name)
      (.messageRemoved (fullName parent old.name))
    ensureMessageCompatible parent old new
    ensureMessagesCompatible parent rest news

end

/-- The messages and enums of one file against those of another. -/
def ensureFileProtoCompatible (old new : FileProto) : Except CompatErr Unit := do
  ensureMessagesCompatible old.packageName old.messages new.messages
  ensureEnumsCompatible old.packageName old.enums new.enums

/-- `ensureFileCompatible`. -/
def ensureFileCompatible (current candidate : Files) (path : Bytes) : Except CompatErr Unit := do
  let oldFile ← orErr (current.findFileByPath path) (.activeMissing path)
  let newFile ← orErr (candidate.findFileByPath path) (.candidateMissing path)
  ensureFileProtoCompatible oldFile newFile

/-! ## What acceptance means -/

/-- A field keeps everything the check compares. -/
structure SameContract (old new : FieldDesc) : Prop where
  number : new.number = old.number
  name : new.name = old.name
  kind : new.kind = old.kind
  cardinality : new.cardinality = old.cardinality
  hasPresence : new.hasPresence = old.hasPresence
  isMap : new.isMap = old.isMap
  oneof : oneofName new = oneofName old
  message : old.kind.isScalar = false → new.message = old.message
  enum : old.kind = .enum → new.enum = old.enum

/-- Every field of `old` is in `new` with the same contract. -/
def FieldsKept (old new : MessageDesc) : Prop :=
  ∀ fd ∈ old.fields, ∃ fd', new.byNumber fd.number = some fd' ∧ SameContract fd fd'

/-- Every value of `old` is found in `new` by its number, under its name. -/
def ValuesKept (old new : EnumDesc) : Prop :=
  ∀ v ∈ old.values, ∃ v', new.byNumber v.number = some v' ∧ v'.name = v.name

/-- A declaration keeps what the check compares of it. -/
def SymbolKept : Symbol → Symbol → Prop
  | .message md, .message md' => FieldsKept md md'
  | .enum e, .enum e' => ValuesKept e e'
  | _, _ => False

theorem SameContract.refl (fd : FieldDesc) : SameContract fd fd :=
  ⟨rfl, rfl, rfl, rfl, rfl, rfl, rfl, fun _ => rfl, fun _ => rfl⟩

theorem contractChanged_eq_false_iff {old new : FieldDesc} :
    contractChanged old new = false ↔
      old.name = new.name ∧ old.kind = new.kind ∧ old.cardinality = new.cardinality ∧
        old.hasPresence = new.hasPresence ∧ old.isMap = new.isMap ∧
        oneofName old = oneofName new := by
  simp only [contractChanged, Bool.or_eq_false_iff, bne_eq_false_iff_eq, and_assoc]

/-- A field passes exactly when the candidate has its number with the same
contract. -/
theorem ensureField_iff {parent : Bytes} {new : MessageDesc} {old : FieldDesc} :
    ensureFieldCompatible parent new old = .ok () ↔
      ∃ fd', new.byNumber old.number = some fd' ∧ SameContract old fd' := by
  simp only [ensureFieldCompatible, bind_eq_ok_iff, orErr_eq_ok_iff, reject_eq_ok_iff,
    exists_const, contractChanged_eq_false_iff]
  constructor
  · intro h
    obtain ⟨fd', hfd', ⟨hname, hkind, hcard, hpres, hmap, hone⟩, hmsg, henum⟩ := h
    refine ⟨fd', hfd', (MessageDesc.byNumber_mem hfd').2, hname.symm, hkind.symm, hcard.symm,
      hpres.symm, hmap.symm, hone.symm, ?_, ?_⟩
    · intro hs
      rw [hs, Bool.not_false, Bool.true_and, bne_eq_false_iff_eq] at hmsg
      exact hmsg.symm
    · intro hk
      rw [hk, beq_self_eq_true, Bool.true_and, bne_eq_false_iff_eq] at henum
      exact henum.symm
  · intro h
    obtain ⟨fd', hfd', hsame⟩ := h
    refine ⟨fd', hfd', ⟨hsame.name.symm, hsame.kind.symm, hsame.cardinality.symm,
      hsame.hasPresence.symm, hsame.isMap.symm, hsame.oneof.symm⟩, ?_, ?_⟩
    · cases hs : old.kind.isScalar with
      | true => rfl
      | false => rw [hsame.message hs, bne_self_eq_false, Bool.and_false]
    · by_cases hk : old.kind = .enum
      · rw [hsame.enum hk, bne_self_eq_false, Bool.and_false]
      · rw [beq_false_of_ne hk, Bool.false_and]

theorem ensureValue_iff {parent : Bytes} {new : EnumDesc} {old : EnumValue} :
    ensureValueCompatible parent new old = .ok () ↔
      ∃ v', new.byNumber old.number = some v' ∧ v'.name = old.name := by
  unfold ensureValueCompatible
  cases new.byNumber old.number with
  | none => simp
  | some v => simp [reject_eq_ok_iff]

theorem ensureEnums_iff {parent : Bytes} {olds news : List EnumDesc} :
    ensureEnumsCompatible parent olds news = .ok () ↔
      ∀ e ∈ olds, ∃ e', news.find? (fun x => x.name == e.name) = some e' ∧ ValuesKept e e' := by
  simp only [ensureEnumsCompatible, forM_eq_ok_iff, bind_eq_ok_iff, orErr_eq_ok_iff,
    ensureValue_iff, ValuesKept]

theorem ensureMessage_iff {parent : Bytes} {old new : MessageDesc} :
    ensureMessageCompatible parent old new = .ok () ↔
      FieldsKept old new ∧
        ensureMessagesCompatible (fullName parent old.name) old.messages new.messages = .ok () ∧
        ensureEnumsCompatible (fullName parent old.name) old.enums new.enums = .ok () := by
  cases old with
  | mk name fields messages enums =>
      simp only [ensureMessageCompatible, bind_eq_ok_iff, Unique.exists_iff,
        PUnit.default_eq_unit, forM_eq_ok_iff, ensureField_iff]
      rfl

/-- A list of messages passes when each is found again by its name and
passes. -/
theorem ensureMessages_iff {parent : Bytes} {olds news : List MessageDesc} :
    ensureMessagesCompatible parent olds news = .ok () ↔
      ∀ old ∈ olds, ∃ new, news.find? (fun m => m.name == old.name) = some new ∧
        ensureMessageCompatible parent old new = .ok () := by
  induction olds with
  | nil => simp [ensureMessagesCompatible]
  | cons old rest ih =>
      simp only [ensureMessagesCompatible, bind_eq_ok_iff, orErr_eq_ok_iff, Unique.exists_iff,
        PUnit.default_eq_unit, ih, List.forall_mem_cons]
      constructor
      · intro h
        obtain ⟨new, hfind, hone, hrest⟩ := h
        exact ⟨⟨new, hfind, hone⟩, hrest⟩
      · intro h
        obtain ⟨⟨new, hfind, hone⟩, hrest⟩ := h
        exact ⟨new, hfind, hone, hrest⟩

/-- The enums declared in one scope are found again under their full names. -/
theorem ensureEnums_kept {parent : Bytes} {olds news : List EnumDesc}
    (h : ensureEnumsCompatible parent olds news = .ok ()) {e : EnumDesc} (he : e ∈ olds) :
    ∃ e' ∈ news, fullName parent e'.name = fullName parent e.name ∧ ValuesKept e e' := by
  obtain ⟨e', hfind, hkept⟩ := ensureEnums_iff.mp h e he
  have hname : e'.name = e.name := by simpa using List.find?_some hfind
  exact ⟨e', List.mem_of_find?_eq_some hfind, by rw [hname], hkept⟩

mutual

/-- An accepted message: every declaration in it, itself included, is found
again under its full name and keeps what the check compares. -/
theorem ensureMessage_kept {parent : Bytes} {old new : MessageDesc} (hname : new.name = old.name)
    (h : ensureMessageCompatible parent old new = .ok ()) {n : Bytes} {sym : Symbol}
    (hmem : (n, sym) ∈ MessageDesc.symbols parent old) :
    ∃ sym', (n, sym') ∈ MessageDesc.symbols parent new ∧ SymbolKept sym sym' := by
  match old, new with
  | .mk name fields messages enums, .mk name' fields' messages' enums' =>
    have hname' : name' = name := hname
    subst hname'
    obtain ⟨hfields, hmsgs, henums⟩ := ensureMessage_iff.mp h
    simp only [MessageDesc.symbols, List.mem_cons, List.mem_append, List.mem_map,
      Prod.mk.injEq] at hmem ⊢
    rcases hmem with ⟨rfl, rfl⟩ | hmem | ⟨e, he, rfl, rfl⟩
    · exact ⟨_, .inl ⟨rfl, rfl⟩, hfields⟩
    · obtain ⟨sym', hsym', hkept⟩ := ensureMessages_kept hmsgs hmem
      exact ⟨sym', .inr (.inl hsym'), hkept⟩
    · obtain ⟨e', he', hfull, hkept⟩ := ensureEnums_kept henums he
      exact ⟨.enum e', .inr (.inr ⟨e', he', hfull, rfl⟩), hkept⟩

/-- An accepted list of messages, likewise. -/
theorem ensureMessages_kept {parent : Bytes} {olds news : List MessageDesc}
    (h : ensureMessagesCompatible parent olds news = .ok ()) {n : Bytes} {sym : Symbol}
    (hmem : (n, sym) ∈ MessageDesc.symbolsAll parent olds) :
    ∃ sym', (n, sym') ∈ MessageDesc.symbolsAll parent news ∧ SymbolKept sym sym' := by
  match olds with
  | [] => exact absurd hmem (by simp [MessageDesc.symbolsAll])
  | old :: rest =>
    simp only [ensureMessagesCompatible, bind_eq_ok_iff, orErr_eq_ok_iff] at h
    obtain ⟨new, hfind, _, hone, hrest⟩ := h
    simp only [MessageDesc.symbolsAll, List.mem_append] at hmem
    rcases hmem with hmem | hmem
    · have hname : new.name = old.name := by simpa using List.find?_some hfind
      obtain ⟨sym', hsym', hkept⟩ := ensureMessage_kept hname hone hmem
      exact ⟨sym', mem_symbolsAll.mpr ⟨new, List.mem_of_find?_eq_some hfind, hsym'⟩, hkept⟩
    · exact ensureMessages_kept hrest hmem

end

end KoraDB.Schema
