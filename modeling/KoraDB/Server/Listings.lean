import KoraDB.Server.Authority
import KoraDB.Storage.Contents
import KoraDB.System.Keys

/-!
# What the listings list

`ListSchemas`, `ListCollections` and `ListKeys` scan a bucket and decode what
they find. Over every run of the program, whatever else it does, they show what
the run has done:

* each accepted schema name with the number of its accepted registrations, and
  each collection that was created, once and as it was asked for
  (`catalog_listed`);
* the keys that were granted and not revoked since. The list of these requests
  is a machine of its own, the `Roster`, which tells also who gets in, which
  revocation is refused and whether there is an administrator
  (`keys_follow_roster`).
-/

namespace KoraDB.Server

open KoraDB.Base KoraDB.Catalog KoraDB.Schema KoraDB.Engine KoraDB.System KoraDB.Storage.Store

variable {w : World} {r : Registry} {ops : List Op}

/-! ## Schemas -/

/-- The registration that an operation has accepted. -/
def accepted (w : World) (r : Registry) : Op → List Acceptance
  | .register faults call => (acceptance w.env r (.register faults call)).toList
  | .call _ | .key _ | .restart => []

/-- What a run accepts, in order. -/
def acceptedIn (w : World) (ops : List Op) : List Acceptance :=
  observed (step w) (accepted w) Registry.initial ops

theorem schemaBuckets_step {op : Op} (hop : ∀ faults call, op ≠ .register faults call) {b : Bytes}
    (hb : b = schemaBucket ∨ b = schemaHistoryBucket) :
    ∀ k, (step w r op).store.get b k = r.store.get b k := by
  cases op with
  | register faults call => exact absurd rfl (hop faults call)
  | restart =>
      show ∀ k, (stepEvent w.env r .restart).store.get b k = _
      rw [restart_store]
      exact fun k => rfl
  | key call =>
      refine (Auth.step_sameBucket w.sha256 r.store call ?_).entries
      rcases hb with rfl | rfl <;> decide
  | call call =>
      have hdoc : isDocBucket b = false := by rcases hb with rfl | rfl <;> decide
      have hcoll : b ≠ collectionsBucket := by rcases hb with rfl | rfl <;> decide
      cases htarget : call.target with
      | none => exact (createCall_sameBucket htarget hcoll).entries
      | some coll => exact (docCall_sameBucket htarget hdoc).entries

theorem recorded_op {log : List Acceptance} (h : Recorded r.store log) (op : Op) :
    Recorded (step w r op).store (log ++ accepted w r op) := by
  by_cases hop : ∃ faults call, op = .register faults call
  · obtain ⟨faults, call, rfl⟩ := hop
    exact recorded_step h (.register faults call)
  · have hne : ∀ faults call, op ≠ .register faults call :=
      fun faults call heq => hop ⟨faults, call, heq⟩
    have hlog : log ++ accepted w r op = log := by
      cases op with
      | register faults call => exact absurd rfl (hne faults call)
      | call _ | key _ | restart => exact List.append_nil log
    rw [hlog]
    refine ⟨h.versions, h.record, h.keys, ?_, ?_⟩
    · intro k b
      rw [schemaBuckets_step hne (.inr rfl), h.history]
    · intro name
      rw [schemaBuckets_step hne (.inl rfl), h.active]

theorem recorded_reached (w : World) (ops : List Op) :
    Recorded (reached w ops).store (acceptedIn w ops) := by
  induction ops using List.reverseRecOn with
  | nil => exact Recorded.empty
  | append_singleton ops op ih =>
      rw [reached_concat, acceptedIn, observed_concat]
      exact recorded_op ih op

/-- The names that were accepted. -/
def namesOf (log : List Acceptance) : List Bytes := (log.map (·.name)).dedup

theorem mem_namesOf {log : List Acceptance} {name : Bytes} :
    name ∈ namesOf log ↔ ∃ a, (ofName name log).getLast? = some a := by
  rw [namesOf, List.mem_dedup, List.mem_map]
  constructor
  · rintro ⟨a, ha, rfl⟩
    have hne : ofName a.name log ≠ [] := List.ne_nil_of_mem (mem_ofName.mpr ⟨ha, rfl⟩)
    exact ⟨_, List.getLast?_eq_some_getLast hne⟩
  · rintro ⟨a, ha⟩
    exact ⟨a, mem_ofName.mp (List.mem_of_getLast? ha)⟩

/-- The active record of an accepted name, as it is stored and as it is read. -/
def activeBlob (log : List Acceptance) (name : Bytes) : Blob :=
  ((ofName name log).getLast?.bind (·.active)).getD .empty

def activeRecord (log : List Acceptance) (name : Bytes) : SchemaRecord :=
  (SchemaRecord.unmarshal (activeBlob log name)).getD ⟨[], [], 0, [], [], 0⟩

/-- It is the last acceptance's. -/
theorem active_record {s : Store} {log : List Acceptance} (h : Recorded s log) {name : Bytes}
    (hname : name ∈ namesOf log) :
    s.get schemaBucket name = some (activeBlob log name) ∧
      SchemaRecord.unmarshal (activeBlob log name) = some (activeRecord log name) ∧
      (activeRecord log name).name = toValidUTF8 name ∧
      (activeRecord log name).version = (ofName name log).length := by
  obtain ⟨a, ha⟩ := mem_namesOf.mp hname
  obtain ⟨rec, hactive, hrec, hversion⟩ :=
    h.record a (mem_ofName.mp (List.mem_of_getLast? ha)).1
  have hblob : activeBlob log name = rec.marshal := by
    rw [activeBlob, ha, Option.bind_some, hactive, Option.getD_some]
  rw [activeRecord, hblob]
  refine ⟨?_, rfl, ?_, ?_⟩
  · rw [h.active, ha, Option.bind_some, hactive]
  · show toValidUTF8 rec.name = _
    rw [hrec, (mem_ofName.mp (List.mem_of_getLast? ha)).2]
  · show rec.version = _
    rw [hversion, h.last_version ha]

theorem schemas_contents {s : Store} {log : List Acceptance} (h : Recorded s log) :
    Contents s schemaBucket ((namesOf log).map fun name => (name, activeBlob log name)) where
  keys := by
    rw [List.map_map]
    show ((namesOf log).map id).Nodup
    rw [List.map_id]
    exact List.nodup_dedup _
  get k v := by
    simp only [List.mem_map, Prod.mk.injEq]
    constructor
    · intro hget
      have hname : k ∈ namesOf log := by
        rw [h.active] at hget
        obtain ⟨a, ha, _⟩ := Option.bind_eq_some_iff.mp hget
        exact mem_namesOf.mpr ⟨a, ha⟩
      rw [(active_record h hname).1] at hget
      exact ⟨k, hname, rfl, Option.some.inj hget⟩
    · rintro ⟨name, hname, rfl, rfl⟩
      exact (active_record h hname).1

/-- No version is above the number of registrations that were asked for. -/
theorem version_le {s : Store} {log : List Acceptance} (h : Recorded s log) {k : Bytes} {b : Blob}
    {rec : SchemaRecord} (hget : s.get schemaBucket k = some b)
    (hrec : SchemaRecord.unmarshal b = some rec) : rec.version ≤ log.length := by
  obtain ⟨name, hname, heq⟩ := List.mem_map.mp (((schemas_contents h).get k b).mp hget)
  obtain ⟨rfl, rfl⟩ := Prod.mk.inj heq
  obtain ⟨_, hread, _, hversion⟩ := active_record h hname
  rw [hrec] at hread
  rw [Option.some.inj hread, hversion]
  exact List.length_filter_le _ _

/-! ## Collections -/

/-- The collection that an operation creates, under the name it was asked for. -/
def created (r : Registry) : Op → List (Bytes × CollectionMeta)
  | .call (.createCollection name messageType opts) =>
    ((Engine.createCollection r.files r.store name messageType opts).2.toOption.map
      (name, ·)).toList
  | .call (.insert _ _) | .call (.update _ _ _) | .call (.delete _ _) | .register _ _ | .key _
  | .restart => []

/-- What a run creates, in order. -/
def createdIn (w : World) (ops : List Op) : List (Bytes × CollectionMeta) :=
  observed (step w) created Registry.initial ops

/-- A collection in a listing: JSON keeps what is valid UTF-8 of its name. -/
def listed (e : Bytes × CollectionMeta) : CollectionMeta := { e.2 with name := toValidUTF8 e.1 }

/-- The store holds the collections of the log, and each reads as it is
listed. -/
structure Collected (s : Store) (log : List (Bytes × CollectionMeta)) : Prop where
  contents : Contents s collectionsBucket (log.map fun e => (e.1, e.2.marshal))
  reads : ∀ e ∈ log, CollectionMeta.unmarshal e.2.marshal = some (listed e)

theorem collected_call {codec : Codec} {log : List (Bytes × CollectionMeta)}
    (h : Collected r.store log) (call : Call) :
    Collected (Engine.step codec r.files r.store call) (log ++ created r (.call call)) := by
  cases call with
  | createCollection name messageType opts =>
      cases hres : Engine.createCollection r.files r.store name messageType opts with
      | mk s' res =>
          have hstep : Engine.step codec r.files r.store (.createCollection name messageType opts) =
              s' := congrArg Prod.fst hres
          rw [hstep, created, hres]
          cases res with
          | error e =>
              have hs : s' = r.store := by
                have hsame := Storage.Store.update_error (congrArg Prod.snd hres)
                exact (congrArg Prod.fst hres).symm.trans hsame
              rw [hs]
              exact (List.append_nil log).symm ▸ h
          | ok cm =>
              obtain ⟨md, hmd, rfl, hkey, hidx, hnew, hget, _⟩ := createCollection_eq_ok hres
              refine ⟨?_, ?_⟩
              · rw [List.map_append]
                refine h.contents.added hnew fun k => ?_
                rw [hget]
                simp only [true_and]
              · intro e he
                rcases List.mem_append.mp he with he | he
                · exact h.reads e he
                · rw [List.mem_singleton.mp he]
                  exact newMeta_unmarshal hmd hkey hidx
  | insert coll json | update coll id json | delete coll id =>
      refine ⟨?_, ?_⟩
      · rw [created, List.append_nil]
        refine h.contents.same (docCall_sameBucket rfl ?_)
        decide
      · rw [created, List.append_nil]
        exact h.reads

theorem collected_op {log : List (Bytes × CollectionMeta)} (h : Collected r.store log) (op : Op) :
    Collected (step w r op).store (log ++ created r op) := by
  by_cases hop : ∃ call, op = .call call
  · obtain ⟨call, rfl⟩ := hop
    exact collected_call h call
  · have hlog : log ++ created r op = log := by
      cases op with
      | call call => exact absurd ⟨call, rfl⟩ hop
      | register _ _ | key _ | restart => exact List.append_nil log
    rw [hlog]
    refine ⟨h.contents.same ?_, h.reads⟩
    exact step_sameBucket (fun call heq => hop ⟨call, heq⟩) (.inr rfl)

theorem collected_reached (w : World) (ops : List Op) :
    Collected (reached w ops).store (createdIn w ops) := by
  induction ops using List.reverseRecOn with
  | nil => exact ⟨Contents.empty _, fun e he => absurd he List.not_mem_nil⟩
  | append_singleton ops op ih =>
      rw [reached_concat, createdIn, observed_concat]
      exact collected_op ih op

/-! ## Both -/

/-- **The catalog as it is listed.** After every run of the program
`ListSchemas` shows each accepted name once, with the number of its accepted
registrations as an `int32` and in the order of the names, and `ListCollections` shows each
collection that was created, as it was asked for, in the order of the names; no
name was created twice. -/
theorem catalog_listed (w : World) (ops : List Op) :
    let s := (reached w ops).store
    let log := acceptedIn w ops
    (∃ rows, listSchemas s = .ok rows ∧
      rows.Perm ((namesOf log).map fun name =>
        ⟨toValidUTF8 name, toInt32 (ofName name log).length⟩) ∧
      rows.Pairwise fun a b => (compare a.name b.name).isLE = true) ∧
    listCollections s = .ok ((byKey Prod.fst (createdIn w ops)).map listed) ∧
    ((createdIn w ops).map Prod.fst).Nodup := by
  intro s log
  have hrec : Recorded s log := recorded_reached w ops
  have hcoll : Collected s (createdIn w ops) := collected_reached w ops
  refine ⟨?_, ?_, ?_⟩
  · have hscan := (schemas_contents hrec).listing SchemaErr.corruptRecord
      fun name hname => (active_record hrec hname).2.1
    rw [listSchemas, Schema.listSchemas, hscan]
    refine ⟨_, rfl, ?_, ?_⟩
    · refine (((byKey_perm _ _).trans ((byKey_perm _ _).map _)).map _).trans ?_
      rw [List.map_map]
      refine List.Perm.of_eq (List.map_congr_left fun name hname => ?_)
      obtain ⟨_, _, hname, hversion⟩ := active_record hrec hname
      simp only [Function.comp, hname, hversion]
    · rw [List.pairwise_map]
      exact byKey_le SchemaRecord.name _
  · rw [listCollections, Engine.listCollections, hcoll.contents.listing _ hcoll.reads]
    rfl
  · have hkeys := hcoll.contents.keys
    rwa [List.map_map] at hkeys

/-! ## Keys -/

/-- The requests that were granted and whose keys were not revoked since, oldest
first. -/
abbrev Roster := List Auth.KeyRequest

/-- The key is the only one of an administrator. -/
def Roster.lastAdmin (roster : Roster) (id : Bytes) : Bool :=
  (roster.any fun q => q.keyID == id && q.role == Auth.roleAdmin) &&
    roster.all fun q => q.role != Auth.roleAdmin || q.keyID == id

def Roster.step (roster : Roster) : Op → Roster
  | .key (.create q) => if (Auth.checkRequest q).toOption.isSome then roster ++ [q] else roster
  | .key (.revoke id) =>
    if roster.lastAdmin id then roster else roster.filter fun q => q.keyID != id
  | .register _ _ | .call _ | .restart => roster

/-- The roster after a sequence of operations on a new database. -/
def rosterOf (ops : List Op) : Roster := run Roster.step [] ops

/-- The store holds the records of the roster. -/
structure Enrolled (sha256 : Bytes → Bytes) (s : Store) (roster : Roster) : Prop where
  contents : Contents s Auth.keysBucket
    (roster.map fun q => (q.keyID, (q.record sha256).marshal))
  granted : ∀ q ∈ roster, Auth.checkRequest q = .ok ()

namespace Enrolled

variable {sha256 : Bytes → Bytes} {s : Store} {roster : Roster} {k id : Bytes}

theorem get_iff (h : Enrolled sha256 s roster) {b : Blob} :
    s.get Auth.keysBucket k = some b ↔
      ∃ q ∈ roster, q.keyID = k ∧ (q.record sha256).marshal = b := by
  rw [h.contents.get]
  simp only [List.mem_map, Prod.mk.injEq]

theorem minted (h : Enrolled sha256 s roster) : Auth.Minted sha256 s := by
  intro k b hget
  obtain ⟨q, hq, rfl, rfl⟩ := h.get_iff.mp hget
  exact ⟨q, h.granted q hq, rfl, rfl⟩

theorem stored_iff (h : Enrolled sha256 s roster) {rec : KeyRecord} :
    Auth.Stored s k rec ↔ ∃ q ∈ roster, q.keyID = k ∧ q.record sha256 = rec := by
  constructor
  · rintro ⟨b, hget, hrec⟩
    obtain ⟨q, hq, hk, rfl⟩ := h.get_iff.mp hget
    rw [Auth.unmarshal_record (h.granted q hq)] at hrec
    exact ⟨q, hq, hk, Option.some.inj hrec⟩
  · rintro ⟨q, hq, hk, rfl⟩
    exact ⟨_, h.get_iff.mpr ⟨q, hq, hk, rfl⟩, Auth.unmarshal_record (h.granted q hq)⟩

theorem onlyAdmin_iff (h : Enrolled sha256 s roster) :
    Auth.OnlyAdmin s id ↔ roster.lastAdmin id = true := by
  unfold Auth.OnlyAdmin Roster.lastAdmin
  rw [Bool.and_eq_true, List.any_eq_true, List.all_eq_true]
  simp only [h.stored_iff, Bool.and_eq_true, Bool.or_eq_true, beq_iff_eq, bne_iff_ne]
  constructor
  · rintro ⟨⟨_, ⟨q, hq, hid, rfl⟩, hadmin⟩, honly⟩
    refine ⟨⟨q, hq, hid, hadmin⟩, fun q' hq' => ?_⟩
    by_cases hrole : q'.role = Auth.roleAdmin
    · exact .inr (honly _ _ ⟨q', hq', rfl, rfl⟩ hrole)
    · exact .inl hrole
  · rintro ⟨⟨q, hq, hid, hadmin⟩, honly⟩
    refine ⟨⟨_, ⟨q, hq, hid, rfl⟩, hadmin⟩, ?_⟩
    rintro _ _ ⟨q', hq', rfl, rfl⟩ hrole
    exact (honly q' hq').resolve_left fun hne => hne hrole

/-- A revocation is refused for the only administrator, and for nobody else. -/
theorem revoke_result (h : Enrolled sha256 s roster) (id : Bytes) :
    (Auth.revoke s id).2 = if roster.lastAdmin id then .error .lastAdmin else .ok () := by
  cases hget : s.get Auth.keysBucket id with
  | none =>
      have hnot : ¬ roster.lastAdmin id = true := by
        intro hlast
        obtain ⟨⟨rec, ⟨b, hb, _⟩, _⟩, _⟩ := h.onlyAdmin_iff.mpr hlast
        rw [hget] at hb
        cases hb
      rw [if_neg hnot, Auth.revoke_absent hget]
  | some b =>
      obtain ⟨rec, hstored⟩ := h.minted.stored_of_get hget
      rcases Auth.revoke_stored h.minted hstored with ⟨honly, hres⟩ | ⟨hnot, hres⟩
      · rw [if_pos (h.onlyAdmin_iff.mp honly), hres]
      · rw [if_neg (mt h.onlyAdmin_iff.mpr hnot), hres]

theorem step_revoke (h : Enrolled sha256 s roster) (id : Bytes) :
    Enrolled sha256 (Auth.revoke s id).1 (roster.step (.key (.revoke id))) := by
  have hget := Auth.get_revoke h.minted id Auth.keysBucket
  rw [h.revoke_result id] at hget
  simp only [true_and] at hget
  by_cases hlast : roster.lastAdmin id = true
  · rw [Roster.step, if_pos hlast]
    rw [if_pos hlast] at hget
    refine ⟨⟨h.contents.keys, fun k b => ?_⟩, h.granted⟩
    rw [hget, if_neg (by simp), h.contents.get]
  · rw [Roster.step, if_neg hlast]
    rw [if_neg hlast] at hget
    refine ⟨?_, fun q hq => h.granted q (List.mem_of_mem_filter hq)⟩
    have hcleared := @Contents.cleared _ _ (Auth.revoke s id).1 _ id _ h.contents fun k => by
      rw [hget]
      simp only [true_and]
    rw [List.filter_map] at hcleared
    exact hcleared

theorem step_create (h : Enrolled sha256 s roster) {q : Auth.KeyRequest}
    (hnew : Auth.checkRequest q = .ok () → s.get Auth.keysBucket q.keyID = none) :
    Enrolled sha256 (Auth.createKeyWithExpiry sha256 s q).1 (roster.step (.key (.create q))) := by
  cases hc : Auth.checkRequest q with
  | error e =>
      rw [Auth.create_of_check_error hc, Roster.step, hc]
      exact h
  | ok u =>
      have hget := @Auth.get_create sha256 s q hc Auth.keysBucket
      rw [Roster.step, hc]
      refine ⟨?_, ?_⟩
      · show Contents _ _ ((roster ++ [q]).map _)
        rw [List.map_append]
        refine h.contents.added (hnew hc) fun k => ?_
        rw [hget]
        simp only [true_and]
      · intro q' hq'
        rcases List.mem_append.mp hq' with hq' | hq'
        · exact h.granted q' hq'
        · rw [List.mem_singleton.mp hq']
          exact hc

end Enrolled

/-- A step adds to the roster what it draws. -/
theorem mem_roster_step {roster : Roster} {op : Op} {q : Auth.KeyRequest}
    (hq : q ∈ roster.step op) : q ∈ roster ∨ q.keyID ∈ op.draws := by
  cases op with
  | register _ _ | call _ | restart => exact .inl hq
  | key call =>
      cases call with
      | create q' =>
          cases hc : Auth.checkRequest q' with
          | error e =>
              rw [Roster.step, hc] at hq
              exact .inl hq
          | ok u =>
              rw [Roster.step, hc] at hq
              rcases List.mem_append.mp hq with hq | hq
              · exact .inl hq
              · rw [List.mem_singleton.mp hq, Op.draws, Auth.drawnID_create hc]
                exact .inr List.mem_cons_self
      | revoke id =>
          rw [Roster.step] at hq
          split at hq
          · exact .inl hq
          · exact .inl (List.mem_of_mem_filter hq)

theorem draws_concat (ops : List Op) (op : Op) : draws (ops ++ [op]) = draws ops ++ op.draws := by
  rw [draws, draws, List.flatMap_append, List.flatMap_singleton]

theorem roster_drawn {q : Auth.KeyRequest} (hq : q ∈ rosterOf ops) : q.keyID ∈ draws ops := by
  induction ops using List.reverseRecOn with
  | nil => exact absurd hq List.not_mem_nil
  | append_singleton ops op ih =>
      rw [rosterOf, run_concat] at hq
      rw [draws_concat, List.mem_append]
      exact (mem_roster_step hq).imp ih id

theorem enrolled_reached (hdistinct : (draws ops).Nodup) :
    Enrolled w.sha256 (reached w ops).store (rosterOf ops) := by
  induction ops using List.reverseRecOn with
  | nil => exact ⟨Contents.empty _, fun q hq => absurd hq List.not_mem_nil⟩
  | append_singleton ops op ih =>
      rw [draws_concat] at hdistinct
      have h := ih (List.Nodup.of_append_left hdistinct)
      rw [reached_concat, rosterOf, run_concat]
      cases op with
      | register faults call | call call | restart =>
          exact ⟨h.contents.same (step_keysBucket (by simp)), h.granted⟩
      | key call =>
          cases call with
          | revoke id => exact h.step_revoke id
          | create q =>
              refine h.step_create fun hc => ?_
              rw [Option.eq_none_iff_forall_ne_some]
              intro b hb
              -- what is stored under the new id was drawn before
              obtain ⟨q', hq', hid, _⟩ := h.get_iff.mp hb
              refine List.disjoint_of_nodup_append hdistinct (roster_drawn hq') ?_
              rw [hid, Op.draws, Auth.drawnID_create hc]
              exact List.mem_cons_self

/-- A key in a listing. -/
def keyInfo (q : Auth.KeyRequest) : KeyInfo :=
  ⟨q.keyID, q.name, toPBRole q.role, q.createdAt.unix, q.expiresUnix⟩

/-- **The keys follow the roster.** After every run of the program whose draws
of key ids are distinct, the roster tells what `ListKeys` shows, which
revocation is refused, whether `HasAdminKey` finds an administrator, and whose
token is accepted: one with the id of a key of the roster and a secret of its
hash, as long as the key has not expired. -/
theorem keys_follow_roster (w : World) (ops : List Op) (hdistinct : (draws ops).Nodup) :
    let s := (reached w ops).store
    let roster := rosterOf ops
    listKeys s = .ok ((byKey Auth.KeyRequest.keyID roster).map keyInfo) ∧
    (∀ id, (Auth.revoke s id).2 = if roster.lastAdmin id then .error .lastAdmin else .ok ()) ∧
    Auth.hasAdminKey s = .ok (roster.any fun q => q.role == Auth.roleAdmin) ∧
    ∀ token now p, Auth.authenticateAt w.sha256 s token now = .ok p ↔
      ∃ q ∈ roster, ∃ secret, Auth.parseToken token = .ok (q.keyID, secret) ∧
        Auth.hashSecret w.sha256 secret = Auth.hashSecret w.sha256 q.secret ∧
        Auth.unexpired (q.record w.sha256) now = true ∧ p = q.principal := by
  intro s roster
  have h : Enrolled w.sha256 s roster := enrolled_reached hdistinct
  refine ⟨?_, h.revoke_result, ?_, ?_⟩
  · have hscan := h.contents.listing Auth.AuthErr.corruptRecord
      fun q hq => Auth.unmarshal_record (h.granted q hq)
    rw [listKeys, Auth.list, Auth.scanKeys, hscan, ok_bind]
    show Except.ok _ = Except.ok _
    rw [List.map_map, List.map_map]
    rfl
  · rw [h.minted.hasAdminKey, Except.ok.injEq, Bool.eq_iff_iff, Auth.any_isAdminEntry_iff,
      List.any_eq_true]
    simp only [Auth.AdminRecord, h.stored_iff, beq_iff_eq]
    constructor
    · rintro ⟨_, _, ⟨q, hq, rfl, rfl⟩, hrole⟩
      exact ⟨q, hq, hrole⟩
    · rintro ⟨q, hq, hrole⟩
      exact ⟨_, _, ⟨q, hq, rfl, rfl⟩, hrole⟩
  · intro token now p
    rw [Auth.authenticateAt_eq_ok_iff]
    constructor
    · rintro ⟨_, secret, _, hparse, hstored, hhash, hexp, rfl⟩
      obtain ⟨q, hq, rfl, rfl⟩ := h.stored_iff.mp hstored
      exact ⟨q, hq, secret, hparse, hhash, hexp, rfl⟩
    · rintro ⟨q, hq, secret, hparse, hhash, hexp, rfl⟩
      exact ⟨_, secret, _, hparse, h.stored_iff.mpr ⟨q, hq, rfl, rfl⟩, hhash, hexp, rfl⟩

/-- The desk once its writer is revoked: the root is listed alone, and cannot be
revoked. -/
theorem keys_follow_roster_desk :
    let ops := deskSetup ++ [.key (.revoke deskWriter.keyID)]
    let s := (reached deskHost.toWorld ops).store
    (draws ops).Nodup ∧ listKeys s = .ok [keyInfo deskRoot] ∧
      (Auth.revoke s deskRoot.keyID).2 = .error .lastAdmin := by
  intro ops s
  have hdistinct : (draws ops).Nodup := by decide +kernel
  obtain ⟨hlist, hrevoke, _⟩ := keys_follow_roster deskHost.toWorld ops hdistinct
  have hrows : (byKey Auth.KeyRequest.keyID (rosterOf ops)).map keyInfo = [keyInfo deskRoot] := by
    decide +kernel
  have hlast : (rosterOf ops).lastAdmin deskRoot.keyID = true := by decide +kernel
  refine ⟨hdistinct, ?_, ?_⟩
  · rw [hlist, hrows]
  · rw [hrevoke, if_pos hlast]

end KoraDB.Server
