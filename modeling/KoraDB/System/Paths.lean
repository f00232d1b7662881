import KoraDB.Query.Exact
import KoraDB.System.Ids
import KoraDB.System.Tokens
import Mathlib.Data.List.Induction

/-!
# The write path and the read path

`Insert`, `Update` and `Delete` write to the bucket of the caller's name. Scans,
sequences and indexes use the name in the stored definition, which has been
through JSON. The two names are the same exactly for valid UTF-8, and then a
query of a collection lists what `Get` returns, and nothing that was not written
to that collection.

A query reads every document of its collection, so it only answers where all of
them can be read; while the descriptors stay the same, they can.
-/

namespace KoraDB.System

open KoraDB.Base KoraDB.Proto KoraDB.Catalog KoraDB.Schema KoraDB.Engine

/-! ## Where documents come from -/

/-- The document `b` under the key `k` of a collection: the key is that of an
accepted insert into the collection, and the document was read by an insert into
it or an update of it. -/
structure Origin (w : World) (ops : List Op) (c k : Bytes) (b : Blob) : Prop where
  inserted : ∃ before json after id cm, ops = before ++ .call (.insert c json) :: after ∧
    (exec w.codec (reached w before).files (reached w before).store (.insert c json)).2 = .ok id ∧
    getMeta (reached w before).store c = .ok cm ∧
    encodeKey (reached w before).files cm id = .ok k
  written : ∃ before call after cm json msg, ops = before ++ .call call :: after ∧
    (call = .insert c json ∨ ∃ id, call = .update c id json) ∧
    getMeta (reached w before).store c = .ok cm ∧
    parse w.codec (reached w before).files cm json = .ok msg ∧ b = .document msg.recs

theorem Origin.more {w : World} {ops : List Op} {c k : Bytes} {b : Blob} (h : Origin w ops c k b)
    (more : List Op) : Origin w (ops ++ more) c k b := by
  obtain ⟨⟨before, json, after, id, cm, rfl, hins⟩, ⟨before', call, after', cm', json', msg, hops,
    hwritten⟩⟩ := h
  refine ⟨⟨before, json, after ++ more, id, cm, by simp, hins⟩, ⟨before', call, after' ++ more, cm',
    json', msg, ?_, hwritten⟩⟩
  rw [hops]
  simp

/-- In every reachable database every document was written to the collection it
is in. -/
theorem origin_reached {w : World} {ops : List Op} {c k : Bytes} {b : Blob}
    (hget : (reached w ops).store.get (dataBucket c) k = some b) : Origin w ops c k b := by
  induction ops using List.reverseRecOn generalizing b with
  | nil =>
      rw [show (reached w []).store.get (dataBucket c) k = none from
        Storage.Store.get_empty _ _] at hget
      cases hget
  | append_singleton ops op ih =>
      rw [reached_concat] at hget
      by_cases hop : ∃ call, op = .call call
      · obtain ⟨call, rfl⟩ := hop
        rcases written_step hget with hbefore | ⟨cm, json, msg, hcm, hmsg, hb, hcall⟩
        · exact (ih hbefore).more _
        · -- an insert is both origins; an update keeps the insert of its key
          rcases hcall with ⟨rfl, id, hres, hkey⟩ | ⟨id, old, rfl, hold⟩
          · exact ⟨⟨ops, json, [], id, cm, rfl, hres, hcm, hkey⟩,
              ⟨ops, _, [], cm, json, msg, rfl, .inl rfl, hcm, hmsg, hb⟩⟩
          · exact ⟨((ih hold).more _).inserted,
              ⟨ops, _, [], cm, json, msg, rfl, .inr ⟨id, rfl⟩, hcm, hmsg, hb⟩⟩
      · have hsame := step_sameBucket (w := w) (r := reached w ops)
          (fun call heq => hop ⟨call, heq⟩) (.inl (isDocBucket_data c))
        rw [hsame.entries] at hget
        exact (ih hget).more _

/-! ## Reading them -/

/-- Every document of the collection is stored under the key of some id, and
decodes and renders. -/
def Readable (w : World) (r : Registry) (c : Bytes) (cm : CollectionMeta) : Prop :=
  ∀ k b, r.store.get (dataBucket c) k = some b →
    ∃ id msg json, encodeKey r.files cm id = .ok k ∧ decode r.files cm b = .ok msg ∧
      renderMessage w.codec r.files msg = .ok json

section

variable {w : World} {r : Registry} {ops : List Op} {c : Bytes} {cm : CollectionMeta}

/-- Where every document can be read, a query of all of them answers. -/
theorem answers_of_readable (hc : validString c = true)
    (hcm : getMeta (reached w ops).store c = .ok cm) (hread : Readable w (reached w ops) c cm)
    {md : MessageDesc} (hmd : (reached w ops).files.findMessage cm.messageType = some md)
    (lib : Query.Lib) :
    ∃ hash, Query.Answers lib w.codec (reached w ops).files (reached w ops).store c cm md .nil
      hash := by
  obtain ⟨hash, hhash⟩ := Query.filterHash_known lib (show Query.Filter.nil.known = true from rfl)
  refine ⟨hash, ⟨hcm, hmd, hc, hhash, ?_, ?_⟩, named_run w ops c cm hc hcm, ?_⟩
  · rintro k b hget rfl
    rw [keyed_reached] at hget
    cases hget
  · rintro ⟨k, b⟩ he
    have hget := Storage.Store.mem_scan.mp he
    obtain ⟨id, msg, json, hkey, hdec, hrender⟩ := hread k b hget
    obtain ⟨id', hid', _⟩ := idFromStorageKey_of_encodeKey hkey
    have hmsg : msg.descriptor = md := by
      obtain ⟨_, _, _, rfl⟩ := (decode_eq_ok_iff hmd).mp hdec
      rfl
    exact ⟨msg, true, hdec, rfl, hmsg, ⟨json, hrender⟩, ⟨id', hid'⟩⟩
  · -- a query without a filter has no seed
    intro n after keys hkeys
    cases hkeys

/-- What `Get` returns is among the results of that query. -/
theorem get_listed (hc : validString c = true) (hcm : getMeta (reached w ops).store c = .ok cm)
    (hread : Readable w (reached w ops) c cm) (lib : Query.Lib) {id json : Bytes}
    (hget : get w.codec (reached w ops).files (reached w ops).store c id = .ok json) :
    ∃ results, Query.Lists lib w.codec (reached w ops).files (reached w ops).store c .nil results ∧
      ∃ id', ⟨id', json⟩ ∈ results ∧
        encodeKey (reached w ops).files cm id' = encodeKey (reached w ops).files cm id := by
  obtain ⟨k, b, msg, hkey, hb, hdec, hrender⟩ := get_eq_ok hcm hget
  have hmd : ∃ md, (reached w ops).files.findMessage cm.messageType = some md := by
    simp only [decode, bind_eq_ok_iff, wrap_eq_ok_iff, messageDescriptor_eq_ok_iff] at hdec
    obtain ⟨md, hmd, _⟩ := hdec
    exact ⟨md, hmd⟩
  obtain ⟨md, hmd⟩ := hmd
  obtain ⟨hash, hans⟩ := answers_of_readable hc hcm hread hmd lib
  have hmatch : (k, msg) ∈ Query.matching lib.parseFloat (reached w ops).files
      (reached w ops).store c cm .nil :=
    Query.mem_satisfying.mpr ⟨b, Storage.Store.mem_scan.mpr hb, hdec, rfl⟩
  have hrow := hans.isResult_rowOf hmatch
  refine ⟨_, hans.lists, (Query.rowOf w.codec (reached w ops).files cm (k, msg)).id, ?_, ?_⟩
  · have hmem := List.mem_map_of_mem (f := Query.Row.result)
      (List.mem_map_of_mem (f := Query.rowOf w.codec (reached w ops).files cm) hmatch)
    have htext := hrow.2
    rw [hrender] at htext
    rw [Except.ok.inj htext]
    exact hmem
  · obtain ⟨kind, v, hkind, hv, rfl⟩ := encodeKey_iff.mp hkey
    rw [hkey]
    exact encodeKey_of_idFromStorageKey hkind (KeyVal.denote_hasKind hv) hrow.1

/-- The results of any query are documents of the collection, written to it. -/
theorem listed_origin (hc : validString c = true) (hcm : getMeta (reached w ops).store c = .ok cm)
    {lib : Query.Lib} {filter : Query.Filter} {pageSize : Int} {token : Query.PageToken}
    {page : Query.Page}
    (hpage : Query.executePage lib w.codec (reached w ops).files (reached w ops).store c filter
      pageSize token = .ok page) {res : Query.Result} (hres : res ∈ page.results) :
    ∃ k b msg, (reached w ops).store.get (dataBucket c) k = some b ∧
      idFromStorageKey (reached w ops).files cm k = .ok res.id ∧
      decode (reached w ops).files cm b = .ok msg ∧
      renderMessage w.codec (reached w ops).files msg = .ok res.json ∧ Origin w ops c k b := by
  obtain ⟨⟨rows, next⟩, hrows, rfl⟩ := map_eq_ok_iff.mp hpage
  obtain ⟨row, hrow, rfl⟩ := List.mem_map.mp hres
  obtain ⟨_, _, cm', md, _, _, hcm', _, hshows, _⟩ := Query.executeRows_shows hrows
  rw [hcm] at hcm'
  cases hcm'
  obtain ⟨b, msg, hget, hdec, _, hrender⟩ := (hshows row hrow).document
  simp only [named_run w ops c cm hc hcm] at hget
  exact ⟨row.key, b, msg, hget, (hshows row hrow).id, hdec, hrender, origin_reached hget⟩

end

/-! ## Fixed descriptors -/

def Op.isCall : Op → Bool
  | .call _ => true
  | _ => false

/-- The operation leaves the descriptors as they are. -/
def Op.keepsFiles : Op → Bool
  | .call _ | .key _ => true
  | _ => false

/-- The schemas come first, and stay. -/
def DescriptorsFixed (ops : List Op) : Prop :=
  ∃ setup rest, ops = setup ++ rest ∧ (∀ op ∈ setup, op.isCall = false) ∧
    ∀ op ∈ rest, op.keepsFiles = true

section

variable {w : World} {ops : List Op} {c : Bytes} {cm : CollectionMeta}

/-- Before the first call there are no collections and no documents. -/
theorem setup_empty (h : ∀ op ∈ ops, op.isCall = false) {b : Bytes}
    (hb : isDocBucket b = true ∨ b = collectionsBucket) (k : Bytes) :
    (reached w ops).store.get b k = none := by
  refine run_kept (P := fun r : Registry => r.store.get b k = none)
    (Storage.Store.get_empty _ _) ?_
  intro r op hop hr
  have hno : ∀ call, op ≠ .call call := by
    rintro call rfl
    cases h _ hop
  rw [(step_sameBucket hno hb).entries]
  exact hr

/-- Every document has the type of its collection and was read under it. -/
def Filed (codec : Codec) (r : Registry) : Prop :=
  Typed r.files r.store ∧ Parsed codec r.files r.store

theorem filed_of_empty {codec : Codec} {r : Registry}
    (h : ∀ b, isDocBucket b = true ∨ b = collectionsBucket → ∀ k, r.store.get b k = none) :
    Filed codec r := by
  have hdata : ∀ c k, r.store.get (dataBucket c) k = none :=
    fun c => h _ (.inl (isDocBucket_data c))
  refine ⟨⟨?_, ?_, fun c _ => hdata c⟩, ?_⟩
  · intro c b hb
    rw [h _ (.inr rfl)] at hb
    cases hb
  · intro c cm md _ _ k b hb
    rw [hdata] at hb
    cases hb
  · intro c k b hb
    rw [hdata] at hb
    cases hb

theorem filed_step {r : Registry} (hr : Filed w.codec r) {op : Op} (hop : op.keepsFiles = true) :
    Filed w.codec (step w r op) := by
  obtain ⟨htyped, hparsed⟩ := hr
  cases op with
  | register _ _ | restart => cases hop
  | call call => exact ⟨typed_step htyped call, parsed_step hparsed call⟩
  | key call =>
      -- a call on API keys writes none of the buckets that are looked at
      have hno : ∀ call', Op.key call ≠ .call call' := nofun
      have hmeta := step_getMeta (w := w) (r := r) hno
      have hcoll := (step_sameBucket (w := w) (r := r) hno (.inr rfl)).entries
      have hdata := fun c =>
        (step_sameBucket (w := w) (r := r) hno (.inl (isDocBucket_data c))).entries
      refine ⟨⟨?_, ?_, ?_⟩, ?_⟩
      · intro c b hb
        rw [hcoll] at hb
        exact htyped.bindings c b hb
      · intro c cm md hcm hbound k b hb
        rw [hmeta] at hcm
        rw [hdata] at hb
        exact htyped.docs c cm md hcm hbound k b hb
      · intro c hvac k
        rw [hcoll] at hvac
        rw [hdata]
        exact htyped.vacant c hvac k
      · intro c k b hb
        rw [hdata] at hb
        obtain ⟨cm, json, msg, hcm, hrest⟩ := hparsed c k b hb
        exact ⟨cm, json, msg, (hmeta c).trans hcm, hrest⟩

theorem filed_reached (h : DescriptorsFixed ops) : Filed w.codec (reached w ops) := by
  obtain ⟨setup, rest, rfl, hsetup, hrest⟩ := h
  rw [reached_append]
  apply run_kept (filed_of_empty fun b hb k => setup_empty hsetup hb k)
  intro r op hop hr
  exact filed_step hr (hrest op hop)

/-- While the descriptors stay the same, every document can be read. -/
theorem readable_of_fixed (hrender : w.codec.Renders) (hfixed : DescriptorsFixed ops)
    (hcm : getMeta (reached w ops).store c = .ok cm) : Readable w (reached w ops) c cm := by
  intro k b hget
  obtain ⟨htyped, hparsed⟩ := @filed_reached w ops hfixed
  obtain ⟨md, hbound⟩ := htyped.bound hcm
  obtain ⟨⟨recs, rfl, hinit, _⟩, ⟨kind, v, hkind, hv, rfl⟩⟩ :=
    htyped.docs c cm md hcm hbound k b hget
  have hdec : decode (reached w ops).files cm (.document recs) = .ok ⟨md, recs⟩ :=
    (decode_eq_ok_iff hbound.message).mpr ⟨recs, rfl, hinit, rfl⟩
  obtain ⟨json, hjson⟩ := hparsed.renders hrender hcm hget hdec
  have hkey : encodeKey (reached w ops).files cm v.text = .ok v.storageKey :=
    encodeKey_iff.mpr ⟨kind, v, (keyKindIn_eq hbound.message).trans hkind,
      KeyVal.denote_text hv, rfl⟩
  exact ⟨v.text, _, json, hkey, hdec, hjson⟩

end

/-! ## The two paths -/

/-- An accepted definition reads back under the name after a JSON round trip. -/
theorem created_getMeta {w : World} {before after : List Op} {c messageType : Bytes}
    {opts : CollectionOptions} {cm₀ : CollectionMeta}
    (h : (createCollection (reached w before).files (reached w before).store c messageType
      opts).2 = .ok cm₀) :
    ∃ cm, getMeta (reached w (before ++ .call (.createCollection c messageType opts) ::
      after)).store c = .ok cm ∧ cm.name = toValidUTF8 c := by
  obtain ⟨md, hmd, rfl, hkey, hidx, _, hget, _⟩ := createCollection_eq_ok (Prod.ext rfl h)
  refine ⟨{ newMeta c messageType opts with name := toValidUTF8 c }, ?_, rfl⟩
  rw [List.append_cons]
  apply reached_getMeta_kept
  rw [reached_concat]
  refine getMeta_eq_ok_iff.mpr ⟨_, ?_, newMeta_unmarshal hmd hkey hidx⟩
  exact (hget _ _).trans (if_pos ⟨rfl, rfl⟩)

/-- **The paths agree.** A collection that was created under a valid UTF-8 name
reads back under that name in every later state, so reads and writes use the
same buckets. Where every document of the collection decodes and renders, a
query without a filter lists each of them with the text that `Get` returns,
under an id for the same key; and that is so while the descriptors stay the
same. Every result of every query is a document of the collection that was
written to it. -/
theorem paths_agree (w : World) (before after : List Op) {c messageType : Bytes}
    {opts : CollectionOptions} {cm₀ : CollectionMeta} (hc : validString c = true)
    (hcreate : (createCollection (reached w before).files (reached w before).store c messageType
      opts).2 = .ok cm₀) :
    let ops := before ++ .call (.createCollection c messageType opts) :: after
    let r := reached w ops
    ∃ cm, getMeta r.store c = .ok cm ∧ cm.name = c ∧
      (Readable w r c cm → ∀ (lib : Query.Lib) (id json : Bytes),
        get w.codec r.files r.store c id = .ok json →
        ∃ results, Query.Lists lib w.codec r.files r.store c .nil results ∧
          ∃ id', ⟨id', json⟩ ∈ results ∧ encodeKey r.files cm id' = encodeKey r.files cm id) ∧
      (w.codec.Renders → DescriptorsFixed ops → Readable w r c cm) ∧
      ∀ (lib : Query.Lib) (filter : Query.Filter) (pageSize : Int) (token : Query.PageToken)
        (page : Query.Page),
        Query.executePage lib w.codec r.files r.store c filter pageSize token = .ok page →
        ∀ res ∈ page.results, ∃ k b msg, r.store.get (dataBucket c) k = some b ∧
          idFromStorageKey r.files cm k = .ok res.id ∧ decode r.files cm b = .ok msg ∧
          renderMessage w.codec r.files msg = .ok res.json ∧ Origin w ops c k b := by
  intro ops r
  obtain ⟨cm, hcm, _⟩ := @created_getMeta w before after c messageType opts cm₀ hcreate
  refine ⟨cm, hcm, named_run w ops c cm hc hcm, ?_, ?_, ?_⟩
  · intro hread lib id json hget
    exact get_listed hc hcm hread lib hget
  · intro hrender hfixed
    exact readable_of_fixed hrender hfixed hcm
  · intro lib filter pageSize token page hpage res hres
    exact listed_origin hc hcm hpage hres

/-- A ticket, beside a collection with a name that is not valid UTF-8: it is on
the list of the tickets. -/
theorem paths_agree_desk :
    let w : World := ⟨deskEnv, deskCodec, id⟩
    let ops : List Op := [.register {} ⟨ascii "ticket.proto", ticket1, 0⟩,
      .call (.createCollection (ascii "tickets") (ascii "desk.Ticket") ⟨ascii "id", []⟩),
      .call (.createCollection [0xFF] (ascii "desk.Ticket") ⟨[], []⟩),
      .call (.insert (ascii "tickets") textT1), .call (.insert [0xFF] textT2)]
    ∃ results, Query.Lists ⟨noFloat, id⟩ w.codec (reached w ops).files (reached w ops).store
        (ascii "tickets") .nil results ∧ ∃ id', ⟨id', textT1⟩ ∈ results := by
  intro w ops
  have hcreate : ((createCollection (reached w (ops.take 1)).files (reached w (ops.take 1)).store
      (ascii "tickets") (ascii "desk.Ticket") ⟨ascii "id", []⟩).2).map CollectionMeta.name =
      .ok (ascii "tickets") := by decide +kernel
  obtain ⟨cm₀, hok, _⟩ := map_eq_ok_iff.mp hcreate
  obtain ⟨cm, _, _, hlists, hfixed, _⟩ := paths_agree w (ops.take 1) (ops.drop 2) (by decide) hok
  have hread := hfixed (tableCodec_renders _) ⟨ops.take 1, ops.drop 1, rfl, by decide, by decide⟩
  obtain ⟨results, hall, id', hmem, _⟩ :=
    hlists hread ⟨noFloat, id⟩ (ascii "t1") textT1 (by decide +kernel)
  exact ⟨results, hall, id', hmem⟩

/-- A collection whose name is the byte `0xFF` reads back as U+FFFD. Its ticket
is returned by `Get` and listed by no query; and once there is a collection of
the other name, the tickets of that one are listed instead. -/
theorem stray_name_paths :
    let w : World := ⟨deskEnv, deskCodec, id⟩
    let lib : Query.Lib := ⟨noFloat, id⟩
    let stray : Bytes := [0xFF]
    let twin := toValidUTF8 stray
    let ops : List Op := [.register {} ⟨ascii "ticket.proto", ticket1, 0⟩,
      .call (.createCollection stray (ascii "desk.Ticket") ⟨[], []⟩),
      .call (.insert stray textT1)]
    let more : List Op := [.call (.createCollection twin (ascii "desk.Ticket") ⟨[], []⟩),
      .call (.insert twin textT2)]
    let all (ops : List Op) := Query.executeWithLimit lib w.codec (reached w ops).files
      (reached w ops).store stray .nil 10
    (getMeta (reached w ops).store stray).map CollectionMeta.name = .ok twin ∧ stray ≠ twin ∧
      get w.codec (reached w ops).files (reached w ops).store stray (ascii "1") =
        .ok textT1 ∧
      all ops = .ok [] ∧
      all (ops ++ more) = .ok [⟨ascii "2", textT2⟩] := by
  decide +kernel

end KoraDB.System
