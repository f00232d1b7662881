import KoraDB.Engine.Ids
import KoraDB.Engine.Refinement
import KoraDB.Query.Rows
import KoraDB.System.Isolation

/-!
# Ids of a running database

An id that `Insert` returns or a query prints addresses the document it stands
for. This takes two things of a run. The collection's name is valid UTF-8: under
another name a query prints the ids of a bucket that `Get` never reads. And the
key field has kept its kind, so that stored keys are still read the way they
were written; `OneKeyKind` says so of every state, and automatic keys always
have it.
-/

namespace KoraDB.System

open KoraDB.Base KoraDB.Proto KoraDB.Catalog KoraDB.Schema KoraDB.Engine

/-- In every state of the run in which the collection exists, its keys have
this kind. -/
def OneKeyKind (w : World) (ops : List Op) (c : Bytes) (kind : Kind) : Prop :=
  Always (step w) (fun r => ∀ cm, getMeta r.store c = .ok cm → keyKindIn r.files cm = some kind)
    Registry.initial ops

/-- The storage keys of the collection encode values of the kind. -/
def KeysOfKind (s : Store) (c : Bytes) (kind : Kind) : Prop :=
  ∀ k b, s.get (dataBucket c) k = some b → ∃ v : KeyVal, v.hasKind kind ∧ k = v.storageKey

theorem OneKeyKind.now {w : World} {before after : List Op} {c : Bytes} {kind : Kind}
    (h : OneKeyKind w (before ++ after) c kind) {cm : CollectionMeta}
    (hcm : getMeta (reached w before).store c = .ok cm) :
    keyKindIn (reached w before).files cm = some kind :=
  (always_append.mp h).1.last cm hcm

theorem keysOfKind_reached {w : World} {ops : List Op} {c : Bytes} {kind : Kind}
    (h : OneKeyKind w ops c kind) : KeysOfKind (reached w ops).store c kind := by
  refine h.kept (Q := fun r => KeysOfKind r.store c kind) ?_ ?_
  · intro k b hget
    rw [show Registry.initial.store.get (dataBucket c) k = none from
      Storage.Store.get_empty _ _] at hget
    cases hget
  · intro r op hkind hr k b hget
    -- a new key was encoded by the descriptors of its time, and those give the kind
    rcases stored_op hget with ⟨b, hbefore⟩ | ⟨_, _, cm, _, _, _, hcm, hplaced, _⟩
    · exact hr k b hbefore
    · obtain ⟨kind', v, hkind', hv, rfl⟩ := encodeKey_iff.mp hplaced.encodeKey_eq
      rw [hkind cm hcm] at hkind'
      cases hkind'
      exact ⟨v, KeyVal.denote_hasKind hv, rfl⟩

/-- An id that was accepted for a key at one time is accepted for it at the
end. -/
theorem encodeKey_kept {w : World} {before after : List Op} {c : Bytes} {kind : Kind}
    (h : OneKeyKind w (before ++ after) c kind) {cm₀ cm : CollectionMeta}
    (hcm₀ : getMeta (reached w before).store c = .ok cm₀)
    (hcm : getMeta (reached w (before ++ after)).store c = .ok cm) {id k : Bytes}
    (hkey : encodeKey (reached w before).files cm₀ id = .ok k) :
    encodeKey (reached w (before ++ after)).files cm id = .ok k := by
  obtain ⟨kind', v, hkind', hv, rfl⟩ := encodeKey_iff.mp hkey
  rw [h.now hcm₀] at hkind'
  cases hkind'
  exact encodeKey_iff.mpr ⟨kind, v, h.last cm hcm, hv, rfl⟩

/-! ## One collection -/

/-- What the ids of a collection stand for at the end of a run. -/
structure IdsAddress (w : World) (ops : List Op) (c : Bytes) (cm : CollectionMeta) : Prop where
  /-- Every key that a query reads has an id. -/
  rendered : ∀ k b, (reached w ops).store.get (dataBucket cm.name) k = some b →
    ∃ id, idFromStorageKey (reached w ops).files cm k = .ok id
  /-- The id of a row addresses the document under the row's key, and `Get`
  returns the row's text for it. -/
  queried : ∀ (lib : Query.Lib) (filter : Query.Filter) (pageSize : Int)
    (token next : Query.PageToken) (rows : List Query.Row),
    Query.executeRows lib w.codec (reached w ops).files (reached w ops).store
      (fun cm => Query.indexSeed lib (reached w ops).files (reached w ops).store cm filter)
      c filter pageSize token = .ok (rows, next) → ∀ row ∈ rows,
    Addresses w.codec (reached w ops).files (reached w ops).store c cm row.id row.key ∧
      get w.codec (reached w ops).files (reached w ops).store c row.id = .ok row.json
  /-- The id that an insert of the run has returned addresses the key under
  which that insert stored its document. -/
  inserted : ∀ before json after id, ops = before ++ .call (.insert c json) :: after →
    (exec w.codec (reached w before).files (reached w before).store (.insert c json)).2 = .ok id →
    ∃ k cm₀ msg, getMeta (reached w before).store c = .ok cm₀ ∧
      parse w.codec (reached w before).files cm₀ json = .ok msg ∧
      (reached w (before ++ [.call (.insert c json)])).store.get (dataBucket c) k =
        some (.document msg.recs) ∧
      Addresses w.codec (reached w ops).files (reached w ops).store c cm id k

section

variable {w : World} {ops : List Op} {c : Bytes} {kind : Kind} {cm : CollectionMeta}

theorem queried_addresses (hname : cm.name = c) (hkind : OneKeyKind w ops c kind)
    (hcm : getMeta (reached w ops).store c = .ok cm) {lib : Query.Lib} {md : MessageDesc}
    {filter : Query.Filter} {pageSize : Int} {after : Bytes} {row : Query.Row}
    (hrow : Query.Shows lib w.codec (reached w ops).files (reached w ops).store
      ⟨cm, md, filter, pageSize, after⟩ row) :
    Addresses w.codec (reached w ops).files (reached w ops).store c cm row.id row.key ∧
      get w.codec (reached w ops).files (reached w ops).store c row.id = .ok row.json := by
  obtain ⟨b, msg, hget, hdec, _, hrender⟩ := hrow.document
  have hid := hrow.id
  -- the query has read the bucket of `cm.name`, and `Get` will read that of `c`
  simp only [hname] at hget
  obtain ⟨v, hv, hkey⟩ := keysOfKind_reached hkind row.key b hget
  have haddr : Addresses w.codec (reached w ops).files (reached w ops).store c cm
      row.id row.key := by
    apply addresses_of_encodeKey hcm
    rw [hkey] at hid ⊢
    exact encodeKey_of_idFromStorageKey (hkind.last cm hcm) hv hid
  refine ⟨haddr, ?_⟩
  rw [haddr.get b hget]
  show (decode _ cm b >>= _) = _
  rw [hdec]
  exact hrender

theorem idsAddress_reached (hc : validString c = true) (hkind : OneKeyKind w ops c kind)
    (hcm : getMeta (reached w ops).store c = .ok cm) : IdsAddress w ops c cm := by
  have hname : cm.name = c := named_run w ops c cm hc hcm
  refine ⟨?_, ?_, ?_⟩
  · intro k b hget
    rw [hname] at hget
    obtain ⟨v, hv, rfl⟩ := keysOfKind_reached hkind k b hget
    exact ⟨v.text, idFromStorageKey_storageKey (hkind.last cm hcm) hv⟩
  · intro lib filter pageSize token next rows hpage row hrow
    obtain ⟨_, _, cm', md, _, _, hcm', _, hrows, _⟩ := Query.executeRows_shows hpage
    rw [hcm] at hcm'
    cases hcm'
    exact queried_addresses hname hkind hcm (hrows row hrow)
  · rintro before json after id rfl hres
    obtain ⟨cm₀, msg, s₁, k, hcm₀, hmsg, hplaced, _, hrw, _⟩ :=
      insert_eq_ok (Prod.ext rfl hres)
    refine ⟨k, cm₀, msg, hcm₀, hmsg, ?_, ?_⟩
    · rw [reached_concat]
      exact hrw.doc
    · exact addresses_of_encodeKey hcm (encodeKey_kept hkind hcm₀ hcm hplaced.encodeKey_eq)

end

/-- **Ids round-trip.** For every value of a supported kind, its printed id is
accepted, the storage key prints back as that id, and no other value has that
key; likewise for automatic keys. For every accepted id the id printed for its
key is accepted for the same key. And in every run, the ids of a collection with
a valid UTF-8 name whose keys have kept their kind address their documents. -/
theorem ids_round_trip (w : World) (ops : List Op) (c : Bytes) :
    (∀ (fs : Files) (cm : CollectionMeta) (fd : FieldDesc) (v : Scalar), cm.keyKind = .field →
      keyFieldOf fs cm = .ok fd → primaryKeyKindSupported fd.kind = true →
      v.hasKind fd.kind = true →
      ∃ id k, idStringFromValue fd v = .ok id ∧ encodeKey fs cm id = .ok k ∧
        idFromStorageKey fs cm k = .ok id ∧
        ∀ v' id', v'.hasKind fd.kind = true → idStringFromValue fd v' = .ok id' →
          encodeKey fs cm id' = .ok k → v' = v) ∧
    (∀ (fs : Files) (cm : CollectionMeta) (n : Nat), cm.keyKind = .auto → n < 2 ^ 64 →
      ∃ k, encodeKey fs cm (formatUint n) = .ok k ∧
        idFromStorageKey fs cm k = .ok (formatUint n) ∧
        ∀ n', n' < 2 ^ 64 → encodeKey fs cm (formatUint n') = .ok k → n' = n) ∧
    (∀ (fs : Files) (cm : CollectionMeta) (id k : Bytes), encodeKey fs cm id = .ok k →
      ∃ id', idFromStorageKey fs cm k = .ok id' ∧ encodeKey fs cm id' = .ok k) ∧
    ∀ (kind : Kind) (cm : CollectionMeta), validString c = true → OneKeyKind w ops c kind →
      getMeta (reached w ops).store c = .ok cm → IdsAddress w ops c cm := by
  refine ⟨?_, ?_, ?_, ?_⟩
  · intro fs cm fd v hfield hfd hsup hv
    exact fieldId_roundTrip hfield hfd hsup hv
  · intro fs cm n hauto hn
    exact autoId_roundTrip hauto hn
  · intro fs cm id k hkey
    exact idFromStorageKey_of_encodeKey hkey
  · intro kind cm hc hkind hcm
    exact idsAddress_reached hc hkind hcm

/-! ## The desk -/

/-- A state that keeps the kind. -/
def keyKindCheck (c : Bytes) (kind : Kind) (r : Registry) : Bool :=
  match getMeta r.store c with
  | .error _ => true
  | .ok cm => keyKindIn r.files cm == some kind

theorem keyKind_of_check {c : Bytes} {kind : Kind} {r : Registry}
    (h : keyKindCheck c kind r = true) (cm : CollectionMeta) (hcm : getMeta r.store c = .ok cm) :
    keyKindIn r.files cm = some kind := by
  unfold keyKindCheck at h
  rw [hcm] at h
  exact eq_of_beq h

/-- The tickets by their id: the id that the second insert returned addresses
its ticket after a restart, and every key has an id. -/
theorem ids_round_trip_desk :
    let w : World := ⟨deskEnv, deskCodec, id⟩
    let c := ascii "tickets"
    let ops : List Op := [.register {} ⟨ascii "ticket.proto", ticket1, 0⟩,
      .call (.createCollection c (ascii "desk.Ticket") ⟨ascii "id", [ascii "level"]⟩),
      .call (.insert c textT1), .call (.insert c textT2), .restart]
    ∃ cm k, getMeta (reached w ops).store c = .ok cm ∧
      Addresses w.codec (reached w ops).files (reached w ops).store c cm (ascii "t2") k ∧
      ∀ k b, (reached w ops).store.get (dataBucket cm.name) k = some b →
        ∃ id, idFromStorageKey (reached w ops).files cm k = .ok id := by
  intro w c ops
  have hcm : getMeta (reached w ops).store c =
      .ok ⟨c, ascii "desk.Ticket", .field, ascii "id", [ascii "level"]⟩ := by decide +kernel
  have hkind : OneKeyKind w ops c .string := by
    refine ⟨?_, ?_, ?_, ?_, ?_, ?_⟩
    all_goals exact keyKind_of_check (by decide +kernel)
  have hall := (ids_round_trip w ops c).2.2.2 .string _ (by decide) hkind hcm
  obtain ⟨k, _, _, _, _, _, haddr⟩ := hall.inserted (ops.take 3) textT2 [.restart]
    (ascii "t2") rfl (by decide +kernel)
  exact ⟨_, k, hcm, haddr, hall.rendered⟩

/-- A collection whose name is the byte `0xFF`, beside one named U+FFFD, which
is that byte after a JSON round trip. A query of the first prints the id of a
ticket of the second, for which `Get` finds nothing. Where the second is keyed by
a string, printing its key as a number fails the query. -/
theorem stray_name_ids :
    let w : World := ⟨deskEnv, deskCodec, id⟩
    let lib : Query.Lib := ⟨noFloat, id⟩
    let stray : Bytes := [0xFF]
    let twin := toValidUTF8 stray
    let ops (keyField : Bytes) : List Op := [.register {} ⟨ascii "ticket.proto", ticket1, 0⟩,
      .call (.createCollection stray (ascii "desk.Ticket") ⟨[], []⟩),
      .call (.createCollection twin (ascii "desk.Ticket") ⟨keyField, []⟩),
      .call (.insert twin textT1)]
    let page (ops : List Op) := Query.executePage lib w.codec (reached w ops).files
      (reached w ops).store stray .nil 10 .empty
    page (ops []) = .ok ⟨[⟨ascii "1", textT1⟩], .empty⟩ ∧
      get w.codec (reached w (ops [])).files (reached w (ops [])).store stray (ascii "1") =
        .error (.documentNotFound stray (ascii "1")) ∧
      page (ops (ascii "id")) = .error (.engine (.invalidKeyLength 2)) := by
  decide +kernel

end KoraDB.System
