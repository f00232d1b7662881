import KoraDB.Engine.IndexExact

/-!
# Typed literals and index lookups

A query literal is text, typed against the field it is compared with. An
equality on an indexed field is answered by the entries that begin with the
literal's encoding; what they say about the data is `Covered`: every document
has its entry. The entries may say more, since the query layer checks each
candidate again.
-/

namespace KoraDB.Engine

open KoraDB.Base KoraDB.Proto KoraDB.Catalog KoraDB.Schema

/-! ## Literals -/

/-- `strconv.ParseFloat(s, bits)`, which is not modelled. -/
abbrev ParseFloat := Nat → Bytes → Option GoFloat

/-- Enough where no field is a float. -/
def noFloat : ParseFloat := fun _ _ => none

/-- `scalarValueFromString`. -/
def scalarValueFromString (parseFloat : ParseFloat) (fd : FieldDesc) (s : Bytes) :
    Except EngineErr Scalar :=
  match fd.kind with
  | .string => .ok (.str s)
  | .bool => orErr ((parseBool s).map .bool) (.badLiteral s (ascii "bool"))
  | .int32 | .sint32 | .sfixed32 =>
    orErr ((parseInt 32 s).map .int) (.badLiteral s (ascii "int32"))
  | .int64 | .sint64 | .sfixed64 =>
    orErr ((parseInt 64 s).map .int) (.badLiteral s (ascii "int64"))
  | .uint32 | .fixed32 => orErr ((parseUint 32 s).map .uint) (.badLiteral s (ascii "uint32"))
  | .uint64 | .fixed64 => orErr ((parseUint 64 s).map .uint) (.badLiteral s (ascii "uint64"))
  | .float => orErr ((parseFloat 32 s).map .float) (.badLiteral s (ascii "float"))
  | .double => orErr ((parseFloat 64 s).map .float) (.badLiteral s (ascii "double"))
  | kind => .error (.notComparable kind)

/-- Go's `<` on floats: false whenever one side is not a number. -/
def floatLt : GoFloat → GoFloat → Bool
  | .nan, _ | _, .nan => false
  | .negInf, .negInf => false
  | .negInf, _ => true
  | _, .negInf => false
  | .fin p, .fin q => decide (p < q)
  | .fin _, .posInf => true
  | .posInf, _ => false

/-- `cmpFloat64`. -/
def cmpFloat64 (a b : GoFloat) : Ordering :=
  if floatLt a b then .lt else if floatLt b a then .gt else .eq

/-- `CompareValues`. -/
def compareValues (fd : FieldDesc) (a b : Scalar) : Ordering :=
  match fd.kind with
  | .string => compare a.toStr b.toStr
  | .bool => compare a.toBool.toNat b.toBool.toNat
  | .int32 | .sint32 | .sfixed32 | .int64 | .sint64 | .sfixed64 => compare a.toInt b.toInt
  | .uint32 | .fixed32 | .uint64 | .fixed64 => compare a.toUint b.toUint
  | .float | .double => cmpFloat64 a.toFloat b.toFloat
  | _ => .eq

/-- Values that compare equal are encoded alike. -/
theorem encodeValue_of_compare_eq {fd : FieldDesc} {a b : Scalar}
    (h : compareValues fd a b = .eq) : Index.encodeValue fd a = Index.encodeValue fd b := by
  unfold compareValues at h
  unfold Index.encodeValue
  cases hk : fd.kind <;> rw [hk] at h <;>
    simp only [Std.LawfulEqCmp.compare_eq_iff_eq] at h <;> first | rfl | simp only [h]
  case bool =>
    have hbool : a.toBool = b.toBool := by
      cases ha : a.toBool <;> cases hb : b.toBool <;> rw [ha, hb] at h <;> first | rfl | cases h
    rw [hbool]

/-! ## Lookups -/

/-- `CollectionMeta.HasIndex`. -/
def hasIndex (cm : CollectionMeta) (field : Bytes) : Bool := cm.indexes.contains field

theorem hasIndex_iff {cm : CollectionMeta} {field : Bytes} :
    hasIndex cm field = true ↔ field ∈ cm.indexes :=
  List.contains_iff_mem

/-- `LookupByIndex`. -/
def lookupByIndex (parseFloat : ParseFloat) (fs : Files) (s : Store) (cm : CollectionMeta)
    (field value : Bytes) : Except EngineErr (List Bytes) := do
  let md ← wrap (messageDescriptor fs cm.messageType) .schema
  let fd ← orErr (md.byName field) (.fieldMissing field)
  let pv ← scalarValueFromString parseFloat fd value
  let enc ← wrap (Index.encodeValue fd pv) .index
  return (s.prefixScan (Index.bucket cm.name field) (Index.lookupPrefix enc)).map
    fun e => Index.primaryKeyFromEntry e.1 enc.length

/-- A lookup finds the keys of the entries of the literal's encoding. -/
theorem lookupByIndex_eq_ok {parseFloat : ParseFloat} {fs : Files} {s : Store}
    {cm : CollectionMeta} {field value : Bytes} {keys : List Bytes}
    (h : lookupByIndex parseFloat fs s cm field value = .ok keys) :
    ∃ md fd lit enc, fs.findMessage cm.messageType = some md ∧ md.byName field = some fd ∧
      scalarValueFromString parseFloat fd value = .ok lit ∧ Index.encodeValue fd lit = .ok enc ∧
      keys.Nodup ∧
      ∀ k, k ∈ keys ↔ s.has (Index.bucket cm.name field) (Index.entryKey enc k) = true := by
  simp only [lookupByIndex, bind_eq_ok_iff, wrap_eq_ok_iff, orErr_eq_ok_iff,
    messageDescriptor_eq_ok_iff, pure, Except.pure, Except.ok.injEq] at h
  obtain ⟨md, hmd, fd, hfd, lit, hlit, enc, henc, rfl⟩ := h
  refine ⟨md, fd, lit, enc, hmd, hfd, hlit, henc, ?_, ?_⟩
  · rw [Storage.Store.prefixScan_eq_filter, List.nodup_iff_pairwise_ne, List.pairwise_map]
    refine ((s.scan_sorted _).filter _).imp_of_mem ?_
    intro e e' he he' hlt hsame
    -- two entries of one value and one primary key are one entry
    obtain ⟨k, hk⟩ := Index.isPrefixOf_entryKey_iff.mp (List.mem_filter.mp he).2
    obtain ⟨k', hk'⟩ := Index.isPrefixOf_entryKey_iff.mp (List.mem_filter.mp he').2
    rw [hk, hk', Index.primaryKeyFromEntry_entryKey, Index.primaryKeyFromEntry_entryKey] at hsame
    exact hlt.ne (by rw [hk, hk', hsame])
  intro k
  rw [Storage.Store.prefixScan_eq_filter, List.mem_map]
  unfold Storage.Store.has
  constructor
  · intro hk
    obtain ⟨⟨e, v⟩, hmem, rfl⟩ := hk
    obtain ⟨hscan, hpre⟩ := List.mem_filter.mp hmem
    obtain ⟨k, rfl⟩ := Index.isPrefixOf_entryKey_iff.mp hpre
    show (s.get _ (Index.entryKey enc (Index.primaryKeyFromEntry (Index.entryKey enc k) _))).isSome
    rw [Index.primaryKeyFromEntry_entryKey, Storage.Store.mem_scan.mp hscan]
    rfl
  · intro hk
    obtain ⟨v, hv⟩ := Option.isSome_iff_exists.mp hk
    refine ⟨(Index.entryKey enc k, v), List.mem_filter.mpr ⟨Storage.Store.mem_scan.mpr hv, ?_⟩,
      Index.primaryKeyFromEntry_entryKey enc k⟩
    exact Index.isPrefixOf_entryKey_iff.mpr ⟨k, rfl⟩

/-! ## Every document has its entry -/

/-- Every document a query of the collection reads has its entry in the index
on `f`. -/
def EntriesCover (fs : Files) (s : Store) (cm : CollectionMeta) (f : Bytes) : Prop :=
  ∀ k b msg fd enc, s.get (dataBucket cm.name) k = some b → decode fs cm b = .ok msg →
    msg.descriptor.byName f = some fd → Index.encodeValue fd (msg.get fd) = .ok enc →
    s.has (Index.bucket cm.name f) (Index.entryKey enc k) = true

/-- `EntriesCover`, for the collection of a name, if it is indexed by `f`. -/
def Covered (fs : Files) (c f : Bytes) (s : Store) : Prop :=
  ∀ cm, getMeta s c = .ok cm → f ∈ cm.indexes → EntriesCover fs s cm f

/-- `NulFree`, if the collection is indexed by `f`. -/
def IndexNulFree (fs : Files) (c f : Bytes) (s : Store) : Prop :=
  ∀ cm, getMeta s c = .ok cm → f ∈ cm.indexes → NulFree fs c f s

def indexNulFree (fs : Files) (c : Bytes) (s : Store) : Bool :=
  match getMeta s c with
  | .error _ => true
  | .ok cm => cm.indexes.all fun f => nulFree fs c f s

theorem indexNulFree_of_check {fs : Files} {c : Bytes} {s : Store} (h : indexNulFree fs c s = true)
    (f : Bytes) : IndexNulFree fs c f s := by
  intro cm hcm hf
  unfold indexNulFree at h
  rw [hcm] at h
  exact nulFree_of_check (List.all_eq_true.mp h f hf)

/-- A covered document is found by a lookup of its value. -/
theorem mem_lookup {parseFloat : ParseFloat} {fs : Files} {s : Store} {cm : CollectionMeta}
    {f : Bytes} (hcov : EntriesCover fs s cm f) {value : Bytes} {keys : List Bytes}
    (hl : lookupByIndex parseFloat fs s cm f value = .ok keys) {k : Bytes} {b : Blob} {msg : Msg}
    {fd : FieldDesc} {lit : Scalar} (hb : s.get (dataBucket cm.name) k = some b)
    (hdec : decode fs cm b = .ok msg) (hfd : msg.descriptor.byName f = some fd)
    (hlit : scalarValueFromString parseFloat fd value = .ok lit)
    (heq : compareValues fd (msg.get fd) lit = .eq) : k ∈ keys := by
  obtain ⟨md, fd', lit', enc, hmd, hfd', hlit', henc, _, hmem⟩ := lookupByIndex_eq_ok hl
  obtain ⟨w, _, _, rfl⟩ := (decode_eq_ok_iff hmd).mp hdec
  have hfield : md.byName f = some fd := hfd
  rw [hfield] at hfd'
  cases hfd'
  rw [hlit] at hlit'
  cases hlit'
  rw [hmem]
  refine hcov k b ⟨md, w⟩ fd enc hb hdec hfd ?_
  rw [encodeValue_of_compare_eq heq]
  exact henc

theorem IndexExact.covered {fs : Files} {c f : Bytes} {s : Store} (hs : Sound fs s)
    (h : IndexExact fs c f s) : Covered fs c f s := by
  intro cm hcm hf k b msg fd enc hget hdec hfd henc
  rw [hs.name c cm hcm] at hget ⊢
  exact (h cm hcm hf _).mpr ⟨k, b, msg, fd, enc, hget, hdec, hfd, henc, rfl⟩

theorem covered_empty (fs : Files) (c f : Bytes) : Covered fs c f Storage.Store.empty :=
  fun cm hcm => absurd hcm (getMeta_empty c cm)

/-- A rewrite keeps the documents covered. Unlike exactness this holds also
when the new document overwrites another one, whose entries then stay
behind. -/
theorem covered_rewrote {fs : Files} {s s' : Store} {coll key : Bytes} {cm : CollectionMeta}
    {md : MessageDesc} {old new : Option Msg} (hs : Sound fs s)
    (h : Rewrote fs s s' coll key cm md old new) {c f : Bytes} (hnul : IndexNulFree fs c f s)
    (hcov : Covered fs c f s) : Covered fs c f s' := by
  intro cm' hcm' hf k b msg fd enc hget hdec hfd henc
  rw [getMeta_congr (h.rewrites.get_collections c)] at hcm'
  have hname := hs.name c cm' hcm'
  rw [hname] at hget ⊢
  obtain ⟨md', hb'⟩ := hs.bound hcm'
  obtain ⟨w, rfl, _, rfl⟩ := (decode_eq_ok_iff hb'.message).mp hdec
  have hfield := (MessageDesc.byName_mem hfd).2
  have hcollname := hs.name _ _ h.collection
  by_cases hc : coll = c
  · subst hc
    rw [h.collection] at hcm'
    cases hcm'
    cases hb'.unique h.bound
    unfold Storage.Store.has
    rw [index_rewrote hs h hf hfd]
    -- the document is the new one, or it was covered before
    rcases (storedEntry_rewrote h _).mp ⟨k, w, enc, hget, henc, rfl⟩ with hnew | hother
    · exact .inl hnew
    · refine .inr ⟨?_, hother.not_entryOf hs (hnul cm h.collection hf) h hfd⟩
      obtain ⟨k', w', enc', _, hget', henc', he⟩ := hother
      obtain ⟨⟨_, hw, hinit, _⟩, _⟩ := hs.docs coll cm md h.collection h.bound k' _ hget'
      cases hw
      have hbefore := hcov cm h.collection hf k' _ ⟨md, w'⟩ fd enc' (by rw [hname]; exact hget')
        ((decode_eq_ok_iff h.bound.message).mpr ⟨w', rfl, hinit, rfl⟩) hfd henc'
      rw [hname, ← he] at hbefore
      exact hbefore
  · rw [h.rewrites.get_data fun hh => hc hh.1] at hget
    have hbefore := hcov cm' hcm' hf k _ ⟨md', w⟩ fd enc (by rw [hname]; exact hget) hdec hfd henc
    rw [hname] at hbefore
    unfold Storage.Store.has at hbefore ⊢
    rw [← hfield] at hbefore ⊢
    rw [h.rewrites.get_index (by rw [hcollname]; exact hc)]
    exact hbefore

theorem covered_step {codec : Codec} {fs : Files} {s : Store} (hs : Sound fs s) {call : Call}
    (hname : call.NameValid) {c f : Bytes} (hnul : IndexNulFree fs c f s)
    (hcov : Covered fs c f s) : Covered fs c f (step codec fs s call) := by
  have hs' : Sound fs (step codec fs s call) := sound_step hs hname
  have heff := exec_effect codec fs s call
  generalize step codec fs s call = s' at hs' heff
  generalize (exec codec fs s call).2 = res at heff
  cases heff with
  | failed | absent _ _ _ => exact hcov
  | created h =>
      rename_i name messageType opts cm
      obtain ⟨_, _, _, _, _, hfree, hget, _⟩ := createCollection_eq_ok h
      obtain ⟨hcoll, hdata, hindex⟩ := create_frame hget
      intro cm' hcm' hf k b msg fd enc hb hdec hfd henc
      rw [hdata] at hb
      unfold Storage.Store.has
      rw [hindex]
      by_cases hc : name = c
      · rw [hs'.name c cm' hcm', ← hc, hs.vacant name hfree k] at hb
        cases hb
      · rw [getMeta_congr (hcoll c hc)] at hcm'
        exact hcov cm' hcm' hf k b msg fd enc hb hdec hfd henc
  | inserted hcm hmsg hplaced _ _ hrw =>
      obtain ⟨md, h⟩ := rewrote_inserted hs.bindings hcm hmsg hplaced hrw
      exact covered_rewrote hs h hnul hcov
  | replaced hcm hkey hget hold hmsg _ hrw =>
      obtain ⟨md, h⟩ := rewrote_replaced hs.bindings hcm hkey hget hold hmsg hrw
      exact covered_rewrote hs h hnul hcov
  | removed hcm hkey hget hold _ hrw =>
      obtain ⟨md, h⟩ := rewrote_removed hs.bindings hcm hkey hget hold hrw
      exact covered_rewrote hs h hnul hcov

/-- Every document stays covered in a run without NUL bytes. -/
theorem covered_run {codec : Codec} {fs : Files} {calls : List Call} {s : Store} (hs : Sound fs s)
    (hnames : ∀ call ∈ calls, call.NameValid) {c f : Bytes}
    (hnul : Always (step codec fs) (IndexNulFree fs c f) s calls) (hcov : Covered fs c f s) :
    Covered fs c f (run (step codec fs) s calls) := by
  induction calls generalizing s with
  | nil => exact hcov
  | cons call calls ih =>
      exact ih (sound_step hs (hnames call List.mem_cons_self))
        (fun x hx => hnames x (List.mem_cons_of_mem _ hx)) hnul.2
        (covered_step hs (hnames call List.mem_cons_self) hnul.1 hcov)

end KoraDB.Engine
