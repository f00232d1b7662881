import KoraDB.Base.Except
import KoraDB.Proto.Descriptor

/-!
# Documents

A stored document is protobuf wire data: a sequence of records, each with a
field number and either a scalar or an embedded message. Decoding matches a
record with a field by number and kind, keeps every other record as unknown,
and fails when a required field of the descriptor — or of the descriptor of an
embedded message — has no record.

The byte syntax of the wire format is not modelled. A `Wire` is the record
sequence those bytes denote, so `proto.Marshal` and `proto.Unmarshal` undo each
other by construction; what depends on the descriptor is kept.
-/

namespace KoraDB.Proto

open KoraDB.Base

/-- The records of a wire document, in order. -/
inductive Wire where
  | nil
  | scalar (number : Nat) (kind : Kind) (value : Scalar) (rest : Wire)
  | sub (number : Nat) (kind : Kind) (body : Wire) (rest : Wire)
  deriving DecidableEq

/-- The field numbers and kinds of the records, embedded messages not
entered. -/
def Wire.tags : Wire → List (Nat × Kind)
  | .nil => []
  | .scalar n k _ rest => (n, k) :: rest.tags
  | .sub n k _ rest => (n, k) :: rest.tags

/-- The last scalar recorded for a field, if any. -/
def Wire.last (n : Nat) (k : Kind) : Wire → Option Scalar
  | .nil => none
  | .scalar n' k' v rest => (rest.last n k).or (if n' = n ∧ k' = k then some v else none)
  | .sub _ _ _ rest => rest.last n k

/-- Every required field of `md` has a record. -/
def requiredSet (md : MessageDesc) (w : Wire) : Bool :=
  md.fields.all fun fd => fd.cardinality != .required || w.tags.contains (fd.number, fd.kind)

/-- The field a record belongs to: same number, same kind. -/
def MessageDesc.fieldOf (md : MessageDesc) (n : Nat) (k : Kind) : Option FieldDesc :=
  (md.byNumber n).filter fun fd => fd.kind == k

/-- The descriptor a record's embedded message is decoded under, `none` for a
record that is no known message field. -/
def subDesc (fs : Files) (md : MessageDesc) (n : Nat) (k : Kind) : Option MessageDesc :=
  (md.fieldOf n k).bind fun fd => fs.findMessage fd.message

/-- Every embedded message of a known field has its required fields set. -/
def subsInitialized (fs : Files) : MessageDesc → Wire → Bool
  | _, .nil => true
  | md, .scalar _ _ _ rest => subsInitialized fs md rest
  | md, .sub n k body rest =>
    (match subDesc fs md n k with
      | some sub => requiredSet sub body && subsInitialized fs sub body
      | none => true) && subsInitialized fs md rest

/-- `proto.CheckInitialized` on the decoded document. -/
def initialized (fs : Files) (md : MessageDesc) (w : Wire) : Bool :=
  requiredSet md w && subsInitialized fs md w

/-- The records that decode to set fields, at every depth; what is dropped is
what the message keeps as unknown. -/
def known (fs : Files) : MessageDesc → Wire → Wire
  | _, .nil => .nil
  | md, .scalar n k v rest =>
    match md.fieldOf n k with
    | some _ => .scalar n k v (known fs md rest)
    | none => known fs md rest
  | md, .sub n k body rest =>
    match subDesc fs md n k with
    | some sub => .sub n k (known fs sub body) (known fs md rest)
    | none => known fs md rest

/-- A message every record of which is a field of its descriptor, with a value
of that field's kind. -/
def fits (fs : Files) : MessageDesc → Wire → Bool
  | _, .nil => true
  | md, .scalar n k v rest =>
    (md.fieldOf n k).isSome && k.isScalar && v.hasKind k && fits fs md rest
  | md, .sub n k body rest =>
    !k.isScalar && (match subDesc fs md n k with
      | some sub => fits fs sub body
      | none => false) && fits fs md rest

/-- A `dynamicpb.Message`: its descriptor and its contents. -/
structure Msg where
  descriptor : MessageDesc
  recs : Wire

/-- `Message.Get` on a singular scalar field: the recorded value, or the
descriptor's default. -/
def Msg.get (msg : Msg) (fd : FieldDesc) : Scalar :=
  (msg.recs.last fd.number fd.kind).getD fd.default

/-- `proto.Marshal`. It fails on a message whose required fields are not set. -/
def marshal (fs : Files) (msg : Msg) : Option Wire :=
  if initialized fs msg.descriptor msg.recs then some msg.recs else none

/-- `proto.Unmarshal` into a new message of `md`. -/
def unmarshal (fs : Files) (md : MessageDesc) (w : Wire) : Option Msg :=
  if initialized fs md w then some ⟨md, w⟩ else none

theorem unmarshal_eq_some {fs : Files} {md : MessageDesc} {w : Wire} {msg : Msg} :
    unmarshal fs md w = some msg ↔ initialized fs md w = true ∧ msg = ⟨md, w⟩ := by
  unfold unmarshal
  split
  · rename_i h
    simp [h, eq_comm]
  · rename_i h
    simp [h]

theorem marshal_eq_some {fs : Files} {msg : Msg} {w : Wire} :
    marshal fs msg = some w ↔ initialized fs msg.descriptor msg.recs = true ∧ w = msg.recs := by
  unfold marshal
  split
  · rename_i h
    simp [h, eq_comm]
  · rename_i h
    simp [h]

/-- Decoding undoes encoding under one descriptor. -/
theorem unmarshal_marshal {fs : Files} {msg : Msg} {w : Wire} (h : marshal fs msg = some w) :
    unmarshal fs msg.descriptor w = some msg := by
  obtain ⟨hinit, rfl⟩ := marshal_eq_some.mp h
  exact unmarshal_eq_some.mpr ⟨hinit, rfl⟩

/-- A fitting document has no unknown records. -/
theorem known_of_fits {fs : Files} {md : MessageDesc} {w : Wire} (h : fits fs md w = true) :
    known fs md w = w := by
  induction w generalizing md with
  | nil => rfl
  | scalar n k v rest ih =>
      simp only [fits, Bool.and_eq_true, Option.isSome_iff_exists] at h
      obtain ⟨⟨⟨⟨fd, hfd⟩, _⟩, _⟩, hrest⟩ := h
      simp only [known, hfd, ih hrest]
  | sub n k body rest ihb ihr =>
      simp only [fits, Bool.and_eq_true] at h
      cases hs : subDesc fs md n k with
      | none => rw [hs] at h; exact absurd h.1.2 (by simp)
      | some sub =>
          rw [hs] at h
          simp only [known, hs, ihb h.1.2, ihr h.2]

/-- Every scalar record holds a value of its kind, embedded messages not entered.
A Go message is so by construction, whatever its descriptor. -/
def Wire.kinded : Wire → Bool
  | .nil => true
  | .scalar _ k v rest => v.hasKind k && rest.kinded
  | .sub _ _ _ rest => rest.kinded

theorem kinded_of_fits {fs : Files} {md : MessageDesc} {w : Wire} (h : fits fs md w = true) :
    w.kinded = true := by
  induction w with
  | nil => rfl
  | scalar n k v rest ih =>
      simp only [fits, Bool.and_eq_true] at h
      rw [Wire.kinded, h.1.2, ih h.2]
      rfl
  | sub n k body rest _ ihr =>
      simp only [fits, Bool.and_eq_true] at h
      exact ihr h.2

/-- A recorded value has the kind it is read under. -/
theorem Wire.last_hasKind {w : Wire} (h : w.kinded = true) {n : Nat} {k : Kind} {v : Scalar}
    (hv : w.last n k = some v) : v.hasKind k = true := by
  induction w with
  | nil => exact absurd hv (by simp [Wire.last])
  | scalar n' k' v' rest ih =>
      simp only [Wire.kinded, Bool.and_eq_true] at h
      simp only [Wire.last, Option.or_eq_some_iff] at hv
      rcases hv with hv | ⟨_, hv⟩
      · exact ih h.2 hv
      · split at hv
        · rename_i heq
          rw [← Option.some.inj hv, ← heq.2]
          exact h.1
        · exact absurd hv (by simp)
  | sub n' k' body rest _ ihr => exact ihr h hv

/-- A scalar field of a message always reads as a value of its kind, set or
not. -/
theorem Msg.get_hasKind {msg : Msg} (h : msg.recs.kinded = true) {fd : FieldDesc}
    (hs : fd.kind.isScalar = true) : (msg.get fd).hasKind fd.kind = true := by
  unfold Msg.get
  cases hv : msg.recs.last fd.number fd.kind with
  | none => exact fd.default_ok hs
  | some v => exact Wire.last_hasKind h hv

theorem get_hasKind {fs : Files} {msg : Msg} (h : fits fs msg.descriptor msg.recs = true)
    {fd : FieldDesc} (hs : fd.kind.isScalar = true) : (msg.get fd).hasKind fd.kind = true :=
  Msg.get_hasKind (kinded_of_fits h) hs

end KoraDB.Proto
