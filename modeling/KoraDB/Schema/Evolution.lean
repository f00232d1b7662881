import KoraDB.Proto.Message
import KoraDB.Schema.Reopen

/-!
# What an accepted registration keeps

`Evolves fs fs'`: every message of `fs` is found in `fs'` under the same full
name, with all its fields. `Register` checks this for the file it registers,
by names relative to the file. Two things are not checked: that the file keeps
its package, and anything about the other files of the recompiled import
closure. `keepsNames` is the condition on a registration that closes both
gaps; under it an accepted registration is an evolution.

Documents are carried along an evolution as long as no message requires a
field it did not have (`keepsRequired`): a document that was complete stays
complete, and every record is still a record of a known field.
-/

namespace KoraDB.Schema

open KoraDB.Base KoraDB.Proto

/-- Every message of `fs` is one of `fs'`, with its fields. -/
def Evolves (fs fs' : Files) : Prop :=
  ∀ n md, fs.findMessage n = some md → ∃ md', fs'.findMessage n = some md' ∧ FieldsKept md md'

theorem FieldsKept.refl {fs : Files} {n : Bytes} {md : MessageDesc}
    (h : fs.findMessage n = some md) : FieldsKept md md :=
  fun fd hfd => ⟨fd, Files.byNumber_eq_some h hfd, SameContract.refl fd⟩

theorem Evolves.refl (fs : Files) : Evolves fs fs :=
  fun _ md h => ⟨md, h, FieldsKept.refl h⟩

/-! ## Conditions on a registration -/

/-- The files of the new closure that have an active version, with it. -/
def replacements (r : Registry) (collected : BMap FileProto) : List (FileProto × FileProto) :=
  collected.toList.filterMap fun e => (r.fileProtos[e.1]?).map fun old => (old, e.2)

/-- A check of every file a registration is about to replace. -/
def eachReplacement (env : Env) (r : Registry) (call : RegisterCall)
    (ok : FileProto → FileProto → Bool) : Bool :=
  match compileClosure env r.store call.name call.source with
  | .error _ => true
  | .ok collected => (replacements r collected).all fun e => ok e.1 e.2

/-- Every replaced file keeps its package, and those that `Register` does not
look at would pass its check too. -/
def keepsNames (env : Env) (r : Registry) (call : RegisterCall) : Bool :=
  eachReplacement env r call fun old new =>
    decide (new.package = old.package) &&
      (old.path == call.name || decide (ensureFileProtoCompatible old new = .ok ()))

/-- No message of a file requires a field its active version lacks. -/
def requiresNothingNew (fs : Files) (new : FileProto) : Bool :=
  (messagesOf new.symbols).all fun e => match fs.findMessage e.1 with
    | none => true
    | some md => e.2.fields.all fun fd =>
      fd.cardinality != .required || (md.byNumber fd.number).isSome

/-- `requiresNothingNew`, for every replaced file. -/
def keepsRequired (env : Env) (r : Registry) (call : RegisterCall) : Bool :=
  eachReplacement env r call fun _ new => requiresNothingNew r.files new

theorem mem_replacements {r : Registry} {collected : BMap FileProto} {old new : FileProto} :
    (old, new) ∈ replacements r collected ↔
      ∃ p : Bytes, r.fileProtos[p]? = some old ∧ collected[p]? = some new := by
  unfold replacements
  rw [List.mem_filterMap]
  constructor
  · intro h
    obtain ⟨⟨p, f⟩, hmem, hmap⟩ := h
    obtain ⟨g, hg, heq⟩ := Option.map_eq_some_iff.mp hmap
    cases heq
    exact ⟨p, hg, BMap.mem_toList.mp hmem⟩
  · intro h
    obtain ⟨p, hold, hnew⟩ := h
    exact ⟨(p, new), BMap.mem_toList.mpr hnew, by simp [hold]⟩

/-- A check of every replacement is one of each. -/
theorem eachReplacement_spec {env : Env} {r : Registry} {call : RegisterCall}
    {ok : FileProto → FileProto → Bool} (h : eachReplacement env r call ok = true)
    {collected : BMap FileProto}
    (hc : compileClosure env r.store call.name call.source = .ok collected)
    {old new : FileProto} (hmem : (old, new) ∈ replacements r collected) : ok old new = true := by
  unfold eachReplacement at h
  rw [hc] at h
  exact List.all_eq_true.mp h _ hmem

/-! ## Names -/

theorem mem_buildFiles {env : Env} {m : BMap FileProto} {fs : Files}
    (h : buildFiles env m = .ok fs) {f : FileProto} :
    f ∈ fs.files ↔ ∃ p : Bytes, m[p]? = some f := by
  rw [newFiles_files (orErr_eq_ok_iff.mp h)]
  exact mem_topoSort

/-- The resolvable files of a consistent registry are those it holds. -/
theorem Consistent.mem_files {env : Env} {r : Registry} (hr : Consistent env r) {f : FileProto} :
    f ∈ r.files.files ↔ ∃ p : Bytes, r.fileProtos[p]? = some f := by
  have hbuilt := hr.built
  by_cases hempty : r.fileProtos.isEmpty = true
  · rw [if_pos hempty] at hbuilt
    rw [← Except.ok.inj hbuilt]
    refine ⟨fun h => absurd h List.not_mem_nil, ?_⟩
    intro h
    obtain ⟨p, hp⟩ := h
    rw [Std.ExtTreeMap.isEmpty_iff.mp hempty] at hp
    simp at hp
  · rw [if_neg hempty] at hbuilt
    exact mem_buildFiles hbuilt

theorem findMessage_of_file {fs : Files} {f : FileProto} (hf : f ∈ fs.files) {n : Bytes}
    {md : MessageDesc} (h : (n, Symbol.message md) ∈ f.symbols) : fs.findMessage n = some md :=
  Files.findMessage_eq_some.mpr (List.mem_flatMap.mpr ⟨f, hf, h⟩)

/-- A file that passes the check and keeps its package keeps its messages. -/
theorem file_kept {old new : FileProto} (hpkg : new.package = old.package)
    (hc : ensureFileProtoCompatible old new = .ok ()) {n : Bytes} {md : MessageDesc}
    (h : (n, Symbol.message md) ∈ old.symbols) :
    ∃ md', (n, Symbol.message md') ∈ new.symbols ∧ FieldsKept md md' := by
  simp only [ensureFileProtoCompatible, bind_eq_ok_iff] at hc
  obtain ⟨_, hmsgs, _⟩ := hc
  have hname : new.packageName = old.packageName := by
    unfold FileProto.packageName
    rw [hpkg]
  simp only [FileProto.symbols, List.mem_append, List.mem_map, Prod.mk.injEq, reduceCtorEq,
    and_false, exists_false, or_false] at h
  obtain ⟨sym, hsym, hkept⟩ := ensureMessages_kept hmsgs h
  cases sym with
  | enum e => exact absurd hkept id
  | message md' =>
      refine ⟨md', List.mem_append_left _ ?_, hkept⟩
      rw [hname]
      exact hsym

/-- What `keepsNames` adds to the check `Register` makes: every replaced file
passes it. -/
theorem replaced_kept {env : Env} {r r' : Registry} {call : RegisterCall} {version : Nat}
    {collected : BMap FileProto} (hr : Consistent env r)
    (hacc : Accepted env r r' call.name call.source call.createdUnix version collected)
    (hk : keepsNames env r call = true) {old new : FileProto}
    (hmem : (old, new) ∈ replacements r collected) :
    new.package = old.package ∧ ensureFileProtoCompatible old new = .ok () := by
  have hok := eachReplacement_spec hk hacc.closure hmem
  simp only [Bool.and_eq_true, Bool.or_eq_true, decide_eq_true_eq, beq_iff_eq] at hok
  obtain ⟨hpkg, hpath | hcompat⟩ := hok
  · -- the registered file itself: its check is part of acceptance
    obtain ⟨p, hold, hnew⟩ := mem_replacements.mp hmem
    have hp : old.path = p := hr.keyed p old hold
    have hactive : r.fileProtos.contains call.name = true := by
      rw [← hpath, hp, Std.ExtTreeMap.contains_eq_isSome_getElem?, hold]
      rfl
    have hcheck := hacc.compatible hactive
    simp only [ensureFileCompatible, bind_eq_ok_iff, orErr_eq_ok_iff] at hcheck
    obtain ⟨old', hold', new', hnew', hcompat⟩ := hcheck
    have hmemold : old ∈ r.files.files := hr.mem_files.mpr ⟨p, hold⟩
    have hmemnew : new ∈ r'.files.files := by
      refine (mem_buildFiles hacc.files).mpr ⟨p, ?_⟩
      rw [hacc.fileProtos, BMap.get_overlay, hnew]
      rfl
    have hnewpath : new.path = call.name := by
      rw [keyed_closure hacc.closure p new hnew, ← hp, hpath]
    rw [Files.findFileByPath_eq_some.mpr ⟨hmemold, hpath⟩] at hold'
    rw [Files.findFileByPath_eq_some.mpr ⟨hmemnew, hnewpath⟩] at hnew'
    cases hold'
    cases hnew'
    exact ⟨hpkg, hcompat⟩
  · exact ⟨hpkg, hcompat⟩

/-- Where a message is after an accepted registration: in a file that was not
replaced, or in the new version of its file. -/
theorem message_after {env : Env} {r r' : Registry} {call : RegisterCall} {version : Nat}
    {collected : BMap FileProto} (hr : Consistent env r)
    (hacc : Accepted env r r' call.name call.source call.createdUnix version collected)
    (hk : keepsNames env r call = true) {n : Bytes} {md : MessageDesc}
    (h : r.files.findMessage n = some md) :
    r'.files.findMessage n = some md ∨
      ∃ old new md', (old, new) ∈ replacements r collected ∧
        (n, Symbol.message md') ∈ new.symbols ∧ r'.files.findMessage n = some md' ∧
        FieldsKept md md' := by
  obtain ⟨old, hold, hmem⟩ := List.mem_flatMap.mp (Files.findMessage_eq_some.mp h)
  obtain ⟨p, hp⟩ := hr.mem_files.mp hold
  have hafter : ∀ {f : FileProto}, (collected[p]?).or r.fileProtos[p]? = some f →
      f ∈ r'.files.files := by
    intro f hf
    refine (mem_buildFiles hacc.files).mpr ⟨p, ?_⟩
    rw [hacc.fileProtos, BMap.get_overlay]
    exact hf
  cases hc : collected[p]? with
  | none =>
      have hstays : old ∈ r'.files.files := hafter (by rw [hc, hp]; rfl)
      exact .inl (findMessage_of_file hstays hmem)
  | some new =>
      have hrep : (old, new) ∈ replacements r collected := mem_replacements.mpr ⟨p, hp, hc⟩
      obtain ⟨hpkg, hcompat⟩ := replaced_kept hr hacc hk hrep
      obtain ⟨md', hmd', hkept⟩ := file_kept hpkg hcompat hmem
      have hnew : new ∈ r'.files.files := hafter (by rw [hc]; rfl)
      exact .inr ⟨old, new, md', hrep, hmd', findMessage_of_file hnew hmd', hkept⟩

/-- A registration under `keepsNames`, accepted or not, is an evolution. -/
theorem evolves_register {env : Env} {r : Registry} (hr : Consistent env r) {call : RegisterCall}
    (hk : keepsNames env r call = true) : Evolves r.files (stepRegister env r call).files := by
  unfold stepRegister
  rcases register_cases env r call.name call.source call.createdUnix with
    ⟨e, he⟩ | ⟨r', version, collected, he, hacc⟩
  · rw [he]
    exact Evolves.refl r.files
  · rw [he]
    intro n md h
    rcases message_after hr hacc hk h with hsame | ⟨_, _, md', _, _, hmd', hkept⟩
    · exact ⟨md, hsame, FieldsKept.refl h⟩
    · exact ⟨md', hmd', hkept⟩

/-- No message of `fs'` requires a field its version in `fs` lacks. -/
def NoNewRequired (fs fs' : Files) : Prop :=
  ∀ n md md', fs.findMessage n = some md → fs'.findMessage n = some md' →
    ∀ fd' ∈ md'.fields, fd'.cardinality = .required → ∃ fd ∈ md.fields, fd.number = fd'.number

theorem NoNewRequired.refl (fs : Files) : NoNewRequired fs fs := by
  intro n md md' h h' fd hfd _
  rw [h] at h'
  cases h'
  exact ⟨fd, hfd, rfl⟩

theorem noNewRequired_register {env : Env} {r : Registry} (hr : Consistent env r)
    {call : RegisterCall} (hk : keepsNames env r call = true)
    (hreq : keepsRequired env r call = true) :
    NoNewRequired r.files (stepRegister env r call).files := by
  unfold stepRegister
  rcases register_cases env r call.name call.source call.createdUnix with
    ⟨e, he⟩ | ⟨r', version, collected, he, hacc⟩
  · rw [he]
    exact NoNewRequired.refl r.files
  · rw [he]
    intro n md md' h h' fd' hfd' hcard
    rcases message_after hr hacc hk h with hsame | ⟨old, new, md'', hrep, hmem, hmd'', _⟩
    · rw [hsame] at h'
      cases h'
      exact ⟨fd', hfd', rfl⟩
    · rw [hmd''] at h'
      cases h'
      have hok := eachReplacement_spec hreq hacc.closure hrep
      have hmsg := List.all_eq_true.mp hok (n, md') (mem_messagesOf.mpr hmem)
      rw [h] at hmsg
      have hfield := List.all_eq_true.mp hmsg fd' hfd'
      rw [hcard] at hfield
      obtain ⟨fd, hfd⟩ := Option.isSome_iff_exists.mp hfield
      exact ⟨fd, MessageDesc.byNumber_mem hfd⟩

/-! ## Documents -/

section Documents

variable {fs fs' : Files}

theorem fieldOf_kept {md md' : MessageDesc} (hkept : FieldsKept md md') {n : Nat} {k : Kind}
    {fd : FieldDesc} (h : md.fieldOf n k = some fd) :
    ∃ fd', md'.fieldOf n k = some fd' ∧ SameContract fd fd' := by
  obtain ⟨hnum, hkind⟩ := Option.filter_eq_some_iff.mp h
  obtain ⟨hmem, rfl⟩ := MessageDesc.byNumber_mem hnum
  obtain ⟨fd', hfd', hsame⟩ := hkept fd hmem
  refine ⟨fd', Option.filter_eq_some_iff.mpr ⟨hfd', ?_⟩, hsame⟩
  rw [hsame.kind]
  exact hkind

/-- The descriptor of an embedded message is carried along. -/
theorem subDesc_kept (he : Evolves fs fs') {md md' : MessageDesc} (hkept : FieldsKept md md')
    {n : Nat} {k : Kind} (hk : k.isScalar = false) {sub : MessageDesc}
    (h : subDesc fs md n k = some sub) :
    ∃ name sub', subDesc fs' md' n k = some sub' ∧ fs.findMessage name = some sub ∧
      fs'.findMessage name = some sub' ∧ FieldsKept sub sub' := by
  obtain ⟨fd, hfd, hsub⟩ := Option.bind_eq_some_iff.mp h
  obtain ⟨fd', hfd', hsame⟩ := fieldOf_kept hkept hfd
  have hkind : fd.kind.isScalar = false := by
    have hfk := (Option.filter_eq_some_iff.mp hfd).2
    rw [beq_iff_eq] at hfk
    rw [hfk]
    exact hk
  obtain ⟨sub', hsub', hsubkept⟩ := he _ sub hsub
  refine ⟨fd.message, sub', ?_, hsub, hsub', hsubkept⟩
  refine Option.bind_eq_some_iff.mpr ⟨fd', hfd', ?_⟩
  rw [hsame.message hkind]
  exact hsub'

/-- A document of the old descriptor is one of the new. -/
theorem fits_evolves (he : Evolves fs fs') {md md' : MessageDesc} (hkept : FieldsKept md md')
    {w : Wire} (h : fits fs md w = true) : fits fs' md' w = true := by
  induction w generalizing md md' with
  | nil => rfl
  | scalar n k v rest ih =>
      simp only [fits, Bool.and_eq_true, Option.isSome_iff_exists] at h ⊢
      obtain ⟨⟨⟨⟨fd, hfd⟩, hk⟩, hv⟩, hrest⟩ := h
      obtain ⟨fd', hfd', _⟩ := fieldOf_kept hkept hfd
      exact ⟨⟨⟨⟨fd', hfd'⟩, hk⟩, hv⟩, ih hkept hrest⟩
  | sub n k body rest ihb ihr =>
      simp only [fits, Bool.and_eq_true, Bool.not_eq_true'] at h ⊢
      obtain ⟨⟨hk, hbody⟩, hrest⟩ := h
      refine ⟨⟨hk, ?_⟩, ihr hkept hrest⟩
      cases hs : subDesc fs md n k with
      | none =>
          rw [hs] at hbody
          cases hbody
      | some sub =>
          rw [hs] at hbody
          obtain ⟨_, sub', hsub', _, _, hsubkept⟩ := subDesc_kept he hkept hk hs
          rw [hsub']
          exact ihb hsubkept hbody

theorem requiredSet_evolves (hreq : NoNewRequired fs fs') {n : Bytes} {md md' : MessageDesc}
    (hmd : fs.findMessage n = some md) (hmd' : fs'.findMessage n = some md')
    (hkept : FieldsKept md md') {w : Wire} (h : requiredSet md w = true) :
    requiredSet md' w = true := by
  unfold requiredSet at h ⊢
  rw [List.all_eq_true] at h ⊢
  intro fd' hfd'
  by_cases hcard : fd'.cardinality = .required
  · -- a field that is required now was required before, under its number
    obtain ⟨fd, hfd, hnum⟩ := hreq n md md' hmd hmd' fd' hfd' hcard
    obtain ⟨fd'', hfd'', hsame⟩ := hkept fd hfd
    rw [hnum, Files.byNumber_eq_some hmd' hfd'] at hfd''
    cases hfd''
    have hold := h fd hfd
    rw [← hsame.cardinality, hcard, hnum, ← hsame.kind] at hold
    rw [hcard]
    exact hold
  · simp [hcard]

theorem subsInitialized_evolves (he : Evolves fs fs') (hreq : NoNewRequired fs fs')
    {md md' : MessageDesc} (hkept : FieldsKept md md') {w : Wire} (hfits : fits fs md w = true)
    (h : subsInitialized fs md w = true) : subsInitialized fs' md' w = true := by
  induction w generalizing md md' with
  | nil => rfl
  | scalar n k v rest ih =>
      simp only [fits, Bool.and_eq_true] at hfits
      exact ih hkept hfits.2 h
  | sub n k body rest ihb ihr =>
      simp only [fits, subsInitialized, Bool.and_eq_true, Bool.not_eq_true'] at hfits h ⊢
      obtain ⟨⟨hk, hbody⟩, hrest⟩ := hfits
      refine ⟨?_, ihr hkept hrest h.2⟩
      cases hs : subDesc fs md n k with
      | none =>
          rw [hs] at hbody
          cases hbody
      | some sub =>
          rw [hs] at hbody
          have hinit := h.1
          rw [hs] at hinit
          obtain ⟨_, sub', hsub', hmd, hmd', hsubkept⟩ := subDesc_kept he hkept hk hs
          rw [hsub']
          obtain ⟨hset, hsubs⟩ := Bool.and_eq_true_iff.mp hinit
          exact Bool.and_eq_true_iff.mpr
            ⟨requiredSet_evolves hreq hmd hmd' hsubkept hset, ihb hsubkept hbody hsubs⟩

/-- A complete document stays complete. -/
theorem initialized_evolves (he : Evolves fs fs') (hreq : NoNewRequired fs fs') {n : Bytes}
    {md md' : MessageDesc} (hmd : fs.findMessage n = some md)
    (hmd' : fs'.findMessage n = some md') (hkept : FieldsKept md md') {w : Wire}
    (hfits : fits fs md w = true) (h : initialized fs md w = true) :
    initialized fs' md' w = true := by
  obtain ⟨hset, hsubs⟩ := Bool.and_eq_true_iff.mp h
  exact Bool.and_eq_true_iff.mpr ⟨requiredSet_evolves hreq hmd hmd' hkept hset,
    subsInitialized_evolves he hreq hkept hfits hsubs⟩

end Documents

end KoraDB.Schema
