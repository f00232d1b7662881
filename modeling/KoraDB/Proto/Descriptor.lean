import KoraDB.Base.Lists
import KoraDB.Proto.Value

/-!
# Descriptors

What the compiler produces and `protodesc`/`protoregistry` serve: files of
nested messages and enums. A `FileProto` is both the serialized form
(`descriptorpb.FileDescriptorProto`, type references already resolved to full
names) and the descriptor built from it; `protodesc.NewFiles` checks a set of
them and indexes it.

`Files` is the result of a successful check and carries what the check
guarantees: paths and full names are unique, a message's field names and
numbers are unique, and every message-typed field refers to a message of the
set. What else `protodesc` validates is a parameter of `newFiles`.
-/

namespace KoraDB.Proto

open KoraDB.Base

/-- `protoreflect.FieldDescriptor`. `message` and `enum` are the full names of
the referenced types, empty when the kind refers to none; `default` is what
`Message.Get` returns for an unset scalar. -/
structure FieldDesc where
  name : Ident
  number : Nat
  kind : Kind
  cardinality : Cardinality
  hasPresence : Bool
  isMap : Bool
  containingOneof : Option Ident
  message : Bytes
  enum : Bytes
  default : Scalar
  default_ok : kind.isScalar = true → default.hasKind kind = true
  deriving DecidableEq

/-- `FieldDescriptor.IsList`. -/
def FieldDesc.isList (fd : FieldDesc) : Bool :=
  fd.cardinality == .repeated && !fd.isMap

/-- A field as proto3 declares it: singular, without presence, with the zero
value as its default. -/
def plainField (name : Ident) (number : Nat) (kind : Kind) (message : Bytes) : FieldDesc where
  name := name
  number := number
  kind := kind
  cardinality := .optional
  hasPresence := !kind.isScalar
  isMap := false
  containingOneof := none
  message := message
  enum := []
  default := kind.zero
  default_ok := kind.zero_hasKind

/-! Two parts that samples of several modules share. -/

def shopPackage : Ident := ⟨ascii "shop", by decide⟩

def tagField : FieldDesc := plainField ⟨ascii "tag", by decide⟩ 2 .string []

/-- A singular scalar field as proto2 declares it: with presence, optional or
required, and with a default of its own. -/
def proto2Field (name : Ident) (number : Nat) (kind : Kind) (cardinality : Cardinality)
    (default : Scalar) (ok : default.hasKind kind = true) : FieldDesc where
  name := name
  number := number
  kind := kind
  cardinality := cardinality
  hasPresence := true
  isMap := false
  containingOneof := none
  message := []
  enum := []
  default := default
  default_ok _ := ok

/-- `protoreflect.EnumValueDescriptor`. -/
structure EnumValue where
  name : Ident
  number : Int
  deriving DecidableEq

/-- `protoreflect.EnumDescriptor`. -/
structure EnumDesc where
  name : Ident
  values : List EnumValue
  deriving DecidableEq

/-- `EnumValueDescriptors.ByNumber`: the first declared value with that
number. -/
def EnumDesc.byNumber (e : EnumDesc) (n : Int) : Option EnumValue :=
  e.values.find? fun v => v.number == n

/-- `protoreflect.MessageDescriptor`. The nested messages include the entry
types of map fields and the types of groups. -/
inductive MessageDesc where
  | mk (name : Ident) (fields : List FieldDesc) (messages : List MessageDesc)
      (enums : List EnumDesc)

namespace MessageDesc

def name : MessageDesc → Ident
  | mk n _ _ _ => n

def fields : MessageDesc → List FieldDesc
  | mk _ fs _ _ => fs

def messages : MessageDesc → List MessageDesc
  | mk _ _ ms _ => ms

def enums : MessageDesc → List EnumDesc
  | mk _ _ _ es => es

/-- `Fields().ByNumber`. -/
def byNumber (md : MessageDesc) (n : Nat) : Option FieldDesc :=
  md.fields.find? fun fd => fd.number == n

/-- `Fields().ByName`, on a string: `protoreflect.Name(s)` is unchecked. -/
def byName (md : MessageDesc) (s : Bytes) : Option FieldDesc :=
  md.fields.find? fun fd => fd.name.val == s

theorem byNumber_mem {md : MessageDesc} {n : Nat} {fd : FieldDesc}
    (h : md.byNumber n = some fd) : fd ∈ md.fields ∧ fd.number = n := by
  refine ⟨List.mem_of_find?_eq_some h, ?_⟩
  simpa using List.find?_some h

theorem byName_mem {md : MessageDesc} {s : Bytes} {fd : FieldDesc}
    (h : md.byName s = some fd) : fd ∈ md.fields ∧ fd.name.val = s := by
  refine ⟨List.mem_of_find?_eq_some h, ?_⟩
  simpa using List.find?_some h

end MessageDesc

/-- What a full name can stand for. Fields, enum values and services have full
names too; none of them is a message and no modelled function looks one up. -/
inductive Symbol
  | message (md : MessageDesc)
  | enum (ed : EnumDesc)

mutual

/-- The declarations inside a message declared in `parent`, itself included,
with their full names. -/
def MessageDesc.symbols (parent : Bytes) : MessageDesc → List (Bytes × Symbol)
  | .mk name fields messages enums =>
    (fullName parent name, .message (.mk name fields messages enums)) ::
      (MessageDesc.symbolsAll (fullName parent name) messages ++
        enums.map fun e => (fullName (fullName parent name) e.name, .enum e))

/-- The declarations inside a list of messages. -/
def MessageDesc.symbolsAll (parent : Bytes) : List MessageDesc → List (Bytes × Symbol)
  | [] => []
  | m :: ms => MessageDesc.symbols parent m ++ MessageDesc.symbolsAll parent ms

end

theorem mem_symbolsAll {parent : Bytes} {ms : List MessageDesc} {e : Bytes × Symbol} :
    e ∈ MessageDesc.symbolsAll parent ms ↔ ∃ m ∈ ms, e ∈ MessageDesc.symbols parent m := by
  induction ms with
  | nil => simp [MessageDesc.symbolsAll]
  | cons m ms ih => simp [MessageDesc.symbolsAll, ih]

/-- `descriptorpb.FileDescriptorProto`. -/
structure FileProto where
  path : Bytes
  package : List Ident
  dependency : List Bytes
  messages : List MessageDesc
  enums : List EnumDesc

namespace FileProto

/-- The package as a string. -/
def packageName (f : FileProto) : Bytes := f.package.foldl fullName []

/-- Every message and enum of a file with its full name. -/
def symbols (f : FileProto) : List (Bytes × Symbol) :=
  MessageDesc.symbolsAll f.packageName f.messages ++
    f.enums.map fun e => (fullName f.packageName e.name, .enum e)

end FileProto

/-- The messages among a list of declarations. -/
def messagesOf (symbols : List (Bytes × Symbol)) : List (Bytes × MessageDesc) :=
  symbols.filterMap fun e =>
    match e.2 with
    | .message md => some (e.1, md)
    | .enum _ => none

theorem mem_messagesOf {symbols : List (Bytes × Symbol)} {n : Bytes} {md : MessageDesc} :
    (n, md) ∈ messagesOf symbols ↔ (n, Symbol.message md) ∈ symbols := by
  unfold messagesOf
  rw [List.mem_filterMap]
  constructor
  · intro h
    obtain ⟨⟨n', sym⟩, hmem, hsym⟩ := h
    cases sym with
    | message md' =>
        simp only [Option.some.injEq, Prod.mk.injEq] at hsym
        rw [← hsym.1, ← hsym.2]
        exact hmem
    | enum ed => exact absurd hsym (by simp)
  · intro h
    exact ⟨(n, .message md), h, rfl⟩

/-! ## Descriptor sets -/

/-- Every message and enum of a set of files with its full name. -/
def symbolsOf (files : List FileProto) : List (Bytes × Symbol) :=
  files.flatMap FileProto.symbols

mutual

theorem symbols_ascii {parent : Bytes} (h : ∀ b ∈ parent, b < 0x80) {m : MessageDesc}
    {e : Bytes × Symbol} (he : e ∈ MessageDesc.symbols parent m) : ∀ b ∈ e.1, b < 0x80 := by
  match m with
  | .mk name fields messages enums =>
    have hname := fullName_ascii h name
    simp only [MessageDesc.symbols, List.mem_cons, List.mem_append, List.mem_map] at he
    rcases he with rfl | he | ⟨ed, _, rfl⟩
    · exact hname
    · exact symbolsAll_ascii hname he
    · exact fullName_ascii hname ed.name

theorem symbolsAll_ascii {parent : Bytes} (h : ∀ b ∈ parent, b < 0x80) {ms : List MessageDesc}
    {e : Bytes × Symbol} (he : e ∈ MessageDesc.symbolsAll parent ms) : ∀ b ∈ e.1, b < 0x80 := by
  match ms with
  | [] => exact absurd he (by simp [MessageDesc.symbolsAll])
  | m :: ms =>
    simp only [MessageDesc.symbolsAll, List.mem_append] at he
    rcases he with he | he
    · exact symbols_ascii h he
    · exact symbolsAll_ascii h he

end

theorem FileProto.packageName_ascii (f : FileProto) : ∀ b ∈ f.packageName, b < 0x80 := by
  have key : ∀ (is : List Ident) (p : Bytes), (∀ b ∈ p, b < 0x80) →
      ∀ b ∈ is.foldl fullName p, b < 0x80 := by
    intro is
    induction is with
    | nil => intro p hp; exact hp
    | cons i is ih => intro p hp; exact ih _ (fullName_ascii hp i)
  exact key f.package [] (fun b hb => absurd hb List.not_mem_nil)

/-- Full names are ASCII. -/
theorem symbolsOf_ascii {files : List FileProto} {e : Bytes × Symbol} (he : e ∈ symbolsOf files) :
    ∀ b ∈ e.1, b < 0x80 := by
  obtain ⟨f, _, he⟩ := List.mem_flatMap.mp he
  simp only [FileProto.symbols, List.mem_append, List.mem_map] at he
  rcases he with he | ⟨ed, _, rfl⟩
  · exact symbolsAll_ascii f.packageName_ascii he
  · exact fullName_ascii f.packageName_ascii ed.name

/-- Field names and numbers are unique within a message. -/
def fieldsOk (md : MessageDesc) : Bool :=
  decide (md.fields.map (·.name)).Nodup && decide (md.fields.map (·.number)).Nodup

/-- Every message-typed field refers to a message declared in the set. -/
def refsOk (declared : List Bytes) (md : MessageDesc) : Bool :=
  md.fields.all fun fd => fd.kind.isScalar || declared.contains fd.message

/-- The part of `protodesc.NewFiles`' validation the rest of the program
relies on. -/
def wellFormed (files : List FileProto) : Bool :=
  decide (files.map (·.path)).Nodup &&
  decide ((symbolsOf files).map (·.1)).Nodup &&
  (messagesOf (symbolsOf files)).all fun e =>
    fieldsOk e.2 && refsOk ((messagesOf (symbolsOf files)).map (·.1)) e.2

/-- `protoregistry.Files`: a validated set of files. -/
structure Files where
  files : List FileProto
  ok : wellFormed files = true

namespace Files

/-- `new(protoregistry.Files)`. -/
def empty : Files := ⟨[], by decide⟩

theorem ext {fs gs : Files} (h : fs.files = gs.files) : fs = gs := by
  cases fs
  cases gs
  cases h
  rfl

/-- `FindFileByPath`. -/
def findFileByPath (fs : Files) (path : Bytes) : Option FileProto :=
  fs.files.find? fun f => f.path == path

/-- `FindDescriptorByName`. -/
def findDescriptorByName (fs : Files) (name : Bytes) : Option Symbol :=
  ((symbolsOf fs.files).find? fun e => e.1 == name).map (·.2)

/-- The message of a full name, if it is one. -/
def findMessage (fs : Files) (name : Bytes) : Option MessageDesc :=
  match fs.findDescriptorByName name with
  | some (.message md) => some md
  | _ => none

theorem paths_nodup (fs : Files) : (fs.files.map (·.path)).Nodup := by
  have h := fs.ok
  simp only [wellFormed, Bool.and_eq_true, decide_eq_true_eq] at h
  exact h.1.1

theorem names_nodup (fs : Files) : ((symbolsOf fs.files).map (·.1)).Nodup := by
  have h := fs.ok
  simp only [wellFormed, Bool.and_eq_true, decide_eq_true_eq] at h
  exact h.1.2

/-- A file is found under its path. -/
theorem findFileByPath_eq_some {fs : Files} {f : FileProto} {path : Bytes} :
    fs.findFileByPath path = some f ↔ f ∈ fs.files ∧ f.path = path :=
  find_key_eq_some fs.paths_nodup

/-- A declaration is found under its full name. -/
theorem findDescriptorByName_eq_some {fs : Files} {name : Bytes} {sym : Symbol} :
    fs.findDescriptorByName name = some sym ↔ (name, sym) ∈ symbolsOf fs.files := by
  unfold findDescriptorByName
  rw [Option.map_eq_some_iff]
  constructor
  · intro h
    obtain ⟨e, he, hsym⟩ := h
    obtain ⟨hmem, hname⟩ := (find_key_eq_some fs.names_nodup).mp he
    rw [← hname, ← hsym]
    exact hmem
  · intro h
    exact ⟨(name, sym), (find_key_eq_some fs.names_nodup).mpr ⟨h, rfl⟩, rfl⟩

/-- A message is found under its full name. -/
theorem findMessage_eq_some {fs : Files} {name : Bytes} {md : MessageDesc} :
    fs.findMessage name = some md ↔ (name, Symbol.message md) ∈ symbolsOf fs.files := by
  rw [← findDescriptorByName_eq_some]
  unfold findMessage
  cases fs.findDescriptorByName name with
  | none => simp
  | some sym => cases sym <;> simp

/-- What the validation guarantees of every message of the set. -/
theorem message_ok {fs : Files} {name : Bytes} {md : MessageDesc}
    (h : fs.findMessage name = some md) :
    (md.fields.map (·.name)).Nodup ∧ (md.fields.map (·.number)).Nodup ∧
      ∀ fd ∈ md.fields, fd.kind.isScalar = false → ∃ sub, fs.findMessage fd.message = some sub := by
  have hmem := mem_messagesOf.mpr (findMessage_eq_some.mp h)
  have hok := fs.ok
  simp only [wellFormed, Bool.and_eq_true, List.all_eq_true] at hok
  have hmsg := hok.2 _ hmem
  simp only [fieldsOk, refsOk, Bool.and_eq_true, decide_eq_true_eq, List.all_eq_true,
    Bool.or_eq_true, List.contains_iff_mem] at hmsg
  refine ⟨hmsg.1.1, hmsg.1.2, fun fd hfd hkind => ?_⟩
  rcases hmsg.2 fd hfd with hs | hdecl
  · rw [hkind] at hs
    exact absurd hs (by simp)
  · obtain ⟨⟨n, sub⟩, hsub, hn⟩ := List.mem_map.mp hdecl
    refine ⟨sub, findMessage_eq_some.mpr ?_⟩
    rw [← hn]
    exact mem_messagesOf.mp hsub

/-- Within a message of the set, a field is found under its number. -/
theorem byNumber_eq_some {fs : Files} {name : Bytes} {md : MessageDesc}
    (h : fs.findMessage name = some md) {fd : FieldDesc} (hfd : fd ∈ md.fields) :
    md.byNumber fd.number = some fd :=
  (find_key_eq_some (message_ok h).2.1).mpr ⟨hfd, rfl⟩

/-- Within a message of the set, a field is found under its name. -/
theorem byName_eq_some {fs : Files} {name : Bytes} {md : MessageDesc}
    (h : fs.findMessage name = some md) {fd : FieldDesc} (hfd : fd ∈ md.fields) :
    md.byName fd.name.val = some fd := by
  have hn : (md.fields.map fun fd => fd.name.val).Nodup := by
    have := (message_ok h).1.map Ident.val_injective
    rwa [List.map_map] at this
  exact (find_key_eq_some hn).mpr ⟨hfd, rfl⟩

end Files

/-- `protodesc.NewFiles`. `check` stands for the rest of its validation
(imports, reserved ranges, enum values, JSON names and so on). -/
def newFiles (check : List FileProto → Bool) (files : List FileProto) : Option Files :=
  if h : wellFormed files = true then
    if check files then some ⟨files, h⟩ else none
  else none

/-- The files of a built set are the ones it was built from. -/
theorem newFiles_files {check : List FileProto → Bool} {files : List FileProto} {fs : Files}
    (h : newFiles check files = some fs) : fs.files = files := by
  unfold newFiles at h
  split at h
  · split at h
    · rw [← Option.some.inj h]
    · exact absurd h (by simp)
  · exact absurd h (by simp)

end KoraDB.Proto
