import Mathlib.Data.List.Chain
import KoraDB.Schema.Compat

/-!
# Chains of versions

`Register` compares a candidate with the active version only, while documents
of every earlier version stay on disk. The check composes: each of its lookups
goes from a declaration of the old version to one of the new by the same name
or number, and everything it compares is an equality. A version accepted
against its predecessor is therefore accepted against every version before it.

`ensureFileCompatible` is not reflexive, so composing is all there is: an enum
with aliases is refused by itself, since a number is looked up as the first
value that has it.
-/

namespace KoraDB.Schema

open KoraDB.Base KoraDB.Proto

theorem SameContract.trans {a b c : FieldDesc} (hab : SameContract a b)
    (hbc : SameContract b c) : SameContract a c where
  number := hbc.number.trans hab.number
  name := hbc.name.trans hab.name
  kind := hbc.kind.trans hab.kind
  cardinality := hbc.cardinality.trans hab.cardinality
  hasPresence := hbc.hasPresence.trans hab.hasPresence
  isMap := hbc.isMap.trans hab.isMap
  oneof := hbc.oneof.trans hab.oneof
  message hs := (hbc.message (by rw [hab.kind]; exact hs)).trans (hab.message hs)
  enum hk := (hbc.enum (by rw [hab.kind]; exact hk)).trans (hab.enum hk)

theorem FieldsKept.trans {a b c : MessageDesc} (hab : FieldsKept a b) (hbc : FieldsKept b c) :
    FieldsKept a c :=
  find_key_trans (fun _ _ _ _ h h' => h.trans h') hab hbc

/-- The value found in `b` is one of `b`'s, so `c` has it too; that `b` may
list other values with the same number behind it does not matter. -/
theorem ValuesKept.trans {a b c : EnumDesc} (hab : ValuesKept a b) (hbc : ValuesKept b c) :
    ValuesKept a c := by
  have hname : ∀ v ∈ a.values, ∀ v' v'' : EnumValue, v'.name = v.name → v''.name = v'.name →
      v''.name = v.name := fun _ _ _ _ h h' => h'.trans h
  exact find_key_trans hname hab hbc

theorem ensureEnums_trans {p q : Bytes} (r : Bytes) {as bs cs : List EnumDesc}
    (hab : ensureEnumsCompatible p as bs = .ok ()) (hbc : ensureEnumsCompatible q bs cs = .ok ()) :
    ensureEnumsCompatible r as cs = .ok () := by
  rw [ensureEnums_iff] at hab hbc ⊢
  exact find_key_trans (fun _ _ _ _ h h' => h.trans h') hab hbc

/-- Acceptance composes, whatever the scopes the messages stand in: those only
name the offending declaration in an error. -/
theorem ensureMessage_trans {p q : Bytes} (r : Bytes) {a b c : MessageDesc}
    (hab : ensureMessageCompatible p a b = .ok ()) (hbc : ensureMessageCompatible q b c = .ok ()) :
    ensureMessageCompatible r a c = .ok () := by
  match a with
  | .mk name fields messages enums =>
    obtain ⟨hfields, hmsgs, henums⟩ := ensureMessage_iff.mp hab
    obtain ⟨hfields', hmsgs', henums'⟩ := ensureMessage_iff.mp hbc
    refine ensureMessage_iff.mpr ⟨hfields.trans hfields', ?_, ensureEnums_trans _ henums henums'⟩
    rw [ensureMessages_iff] at hmsgs hmsgs' ⊢
    refine find_key_trans ?_ hmsgs hmsgs'
    intro m hm m' m'' h h'
    have hmem : m ∈ messages := hm
    exact ensureMessage_trans _ h h'
termination_by sizeOf a
decreasing_by
  -- a nested message is smaller than the one it is declared in
  have := List.sizeOf_lt_of_mem hmem
  simp only [MessageDesc.mk.sizeOf_spec]
  omega

theorem ensureMessages_trans {p q : Bytes} (r : Bytes) {as bs cs : List MessageDesc}
    (hab : ensureMessagesCompatible p as bs = .ok ())
    (hbc : ensureMessagesCompatible q bs cs = .ok ()) :
    ensureMessagesCompatible r as cs = .ok () := by
  rw [ensureMessages_iff] at hab hbc ⊢
  refine find_key_trans ?_ hab hbc
  intro a _ b c h h'
  exact ensureMessage_trans r h h'

/-- The candidate of a path is accepted as an evolution of the active file. -/
def Accepts (path : Bytes) (current candidate : Files) : Prop :=
  ensureFileCompatible current candidate path = .ok ()

theorem accepts_iff {path : Bytes} {current candidate : Files} :
    Accepts path current candidate ↔
      ∃ old new, current.findFileByPath path = some old ∧
        candidate.findFileByPath path = some new ∧
        ensureMessagesCompatible old.packageName old.messages new.messages = .ok () ∧
        ensureEnumsCompatible old.packageName old.enums new.enums = .ok () := by
  simp only [Accepts, ensureFileCompatible, ensureFileProtoCompatible, bind_eq_ok_iff,
    orErr_eq_ok_iff, Unique.exists_iff, PUnit.default_eq_unit]
  constructor
  · intro h
    obtain ⟨old, hold, new, hnew, hmsgs, henums⟩ := h
    exact ⟨old, new, hold, hnew, hmsgs, henums⟩
  · intro h
    obtain ⟨old, new, hold, hnew, hmsgs, henums⟩ := h
    exact ⟨old, hold, new, hnew, hmsgs, henums⟩

theorem Accepts.trans {path : Bytes} {a b c : Files} (hab : Accepts path a b)
    (hbc : Accepts path b c) : Accepts path a c := by
  obtain ⟨fa, fb, hfa, hfb, hmsgs, henums⟩ := accepts_iff.mp hab
  obtain ⟨fb', fc, hfb', hfc, hmsgs', henums'⟩ := accepts_iff.mp hbc
  rw [hfb] at hfb'
  cases hfb'
  exact accepts_iff.mpr ⟨fa, fc, hfa, hfc, ensureMessages_trans _ hmsgs hmsgs',
    ensureEnums_trans _ henums henums'⟩

instance (path : Bytes) : Trans (Accepts path) (Accepts path) (Accepts path) :=
  ⟨Accepts.trans⟩

/-! ## What is left of an old version -/

/-- The messages and enums of a file, nested ones included, with the full names
they have when the file stands in `package`. The entry types of map fields are
among them. -/
def declaredIn (package : Bytes) (f : FileProto) : List (Bytes × Symbol) :=
  MessageDesc.symbolsAll package f.messages ++
    f.enums.map fun e => (fullName package e.name, .enum e)

/-- Every declaration of the old file stands at its place in the new one: each
message with its fields and their contracts, each enum with its values. -/
def Survives (path : Bytes) (current candidate : Files) : Prop :=
  ∃ old new, current.findFileByPath path = some old ∧ candidate.findFileByPath path = some new ∧
    ∀ n sym, (n, sym) ∈ declaredIn old.packageName old →
      ∃ sym', (n, sym') ∈ declaredIn old.packageName new ∧ SymbolKept sym sym'

theorem Accepts.survives {path : Bytes} {current candidate : Files}
    (h : Accepts path current candidate) : Survives path current candidate := by
  obtain ⟨old, new, hold, hnew, hmsgs, henums⟩ := accepts_iff.mp h
  refine ⟨old, new, hold, hnew, ?_⟩
  intro n sym hsym
  unfold declaredIn at hsym ⊢
  rcases List.mem_append.mp hsym with hsym | hsym
  · obtain ⟨sym', hsym', hkept⟩ := ensureMessages_kept hmsgs hsym
    exact ⟨sym', List.mem_append_left _ hsym', hkept⟩
  · obtain ⟨e, he, heq⟩ := List.mem_map.mp hsym
    cases heq
    obtain ⟨e', he', hfull, hkept⟩ := ensureEnums_kept henums he
    refine ⟨.enum e', List.mem_append_right _ (List.mem_map.mpr ⟨e', he', ?_⟩), hkept⟩
    rw [hfull]

/-- **Compatibility composes.** Acceptance of a path is transitive. In a
sequence of versions each accepted against its predecessor, every version is
accepted as a direct evolution of every earlier one, and everything declared
in the earlier one survives in it. -/
theorem compatible_chain (path : Bytes) :
    (∀ a b c : Files, ensureFileCompatible a b path = .ok () →
      ensureFileCompatible b c path = .ok () → ensureFileCompatible a c path = .ok ()) ∧
    ∀ versions : List Files,
      versions.IsChain (fun old new => ensureFileCompatible old new path = .ok ()) →
      versions.Pairwise fun old new =>
        ensureFileCompatible old new path = .ok () ∧ Survives path old new := by
  refine ⟨fun a b c hab hbc => Accepts.trans hab hbc, ?_⟩
  intro versions hchain
  have hall : versions.Pairwise (Accepts path) := List.IsChain.pairwise hchain
  exact hall.imp fun h => ⟨h, h.survives⟩

/-! Three versions of a file: a field is added, then a value of a nested enum. -/

def shirtFile (fields : List FieldDesc) (sizes : List EnumValue) : FileProto :=
  ⟨ascii "shirt.proto", [shopPackage], [],
    [.mk ⟨ascii "Shirt", by decide⟩ fields [] [⟨⟨ascii "Size", by decide⟩, sizes⟩]], []⟩

def sizeField : FieldDesc :=
  { plainField ⟨ascii "size", by decide⟩ 1 .enum [] with enum := ascii "shop.Shirt.Size" }

def hueField : FieldDesc := plainField ⟨ascii "hue", by decide⟩ 2 .string []

def smallSize : EnumValue := ⟨⟨ascii "SMALL", by decide⟩, 0⟩

def largeSize : EnumValue := ⟨⟨ascii "LARGE", by decide⟩, 1⟩

def shirts : List Files :=
  [⟨[shirtFile [sizeField] [smallSize]], by decide⟩,
    ⟨[shirtFile [hueField, sizeField] [smallSize]], by decide⟩,
    ⟨[shirtFile [hueField, sizeField] [largeSize, smallSize]], by decide⟩]

theorem compatible_chain_shirts :
    shirts.Pairwise fun old new =>
      ensureFileCompatible old new (ascii "shirt.proto") = .ok () ∧
        Survives (ascii "shirt.proto") old new := by
  refine (compatible_chain (ascii "shirt.proto")).2 shirts ?_
  unfold shirts
  rw [List.isChain_cons_cons, List.isChain_cons_cons]
  exact ⟨by rfl, by rfl, List.isChain_singleton _⟩

end KoraDB.Schema
