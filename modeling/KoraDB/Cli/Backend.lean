import KoraDB.Cli.Key
import KoraDB.Cli.Query
import KoraDB.Server.Fates
import KoraDB.Server.Listings

/-!
# The two backends (`cmd/KoraDB/backend.go`)

The commands are written against the interface `backend`. One implementation
works on an open database, the other is a client of a server. The client turns
each call into a unary request, and there is a lot it does not get right by
itself: strings have to be valid UTF-8, versions and page sizes go through an
`int32`, roles are read by another function, some calls are not offered at all,
and a request may be refused before it reaches its handler or its answer may be
lost behind it.

What a call on a server comes to is one of three things (`Follows`): nothing
happens and it fails; the database becomes what the call on the open database
makes of it, and it fails all the same; or that, and it returns the same
(`remote_follows`).
-/

namespace KoraDB.Cli

open KoraDB.Base KoraDB.Catalog KoraDB.Schema KoraDB.Engine KoraDB.Server KoraDB.System

/-! ## The interface -/

inductive BackendErr
  | register (e : RegisterErr)
  | schema (e : SchemaErr)
  | engine (e : EngineErr)
  | auth (e : Auth.AuthErr)
  | key (e : CliErr)
  | query (e : QueryCmdErr)
  | verify
  | backup
  | embeddedOnly (text : Bytes)
  | rpc (code : Code)
  deriving DecidableEq

structure SchemaRow where
  name : Bytes
  version : Int
  deriving DecidableEq

structure CollRow where
  name : Bytes
  messageType : Bytes
  keyKind : Bytes
  indexes : List Bytes
  deriving DecidableEq

structure KeyRow where
  keyID : Bytes
  name : Bytes
  role : Bytes
  createdUnix : Int
  expiresUnix : Int
  deriving DecidableEq

/-- A call of the interface. -/
inductive Operation
  | putSchema (name source : Bytes)
  | listSchemas
  | createCollection (name msgType keyField : Bytes) (indexes : List Bytes)
  | listCollections
  | insert (coll json : Bytes)
  | get (coll id : Bytes)
  | update (coll id json : Bytes)
  | delete (coll id : Bytes)
  | backup (output : Bytes)
  | verify
  | queryPage (coll field : Bytes) (op : Query.Op) (value : Bytes) (pageSize : Int)
      (pageToken : Bytes)
  | createKey (name role : Bytes) (expiresAtUnix : Int)
  | listKeys
  | revokeKey (keyID : Bytes)

/-- What a call returns besides its error. -/
def Operation.Result : Operation → Type
  | .putSchema _ _ => Int
  | .listSchemas => List SchemaRow
  | .listCollections => List CollRow
  | .insert _ _ | .get _ _ => Bytes
  | .queryPage _ _ _ _ _ _ => TextPage
  | .createKey _ _ _ => CreateKeyResponse
  | .listKeys => List KeyRow
  | .createCollection _ _ _ _ | .update _ _ _ | .delete _ _ | .backup _ | .verify
  | .revokeKey _ => Unit

/-- What a command finds outside the database. `verify` is `tx.Check` of bbolt,
and `backup` says whether a backup to a path succeeds (`Recovery.cmdBackup`). -/
structure Process where
  inputs : Inputs
  readFile : Bytes → Option Bytes
  stdin : Option Bytes
  verify : Store → Bool
  backup : Store → Bytes → Bool

/-! ## The open database -/

/-- `Registry.ListSchemas`, in the order of its `sort.Slice`. -/
def sortedSchemas (s : Store) : Except SchemaErr (List SchemaRecord) :=
  (Schema.listSchemas s).map (Storage.Store.byKey SchemaRecord.name)

/-- `string(c.KeyKind)`. -/
def keyKindText : KeyKind → Bytes
  | .auto => ascii "auto"
  | .field => ascii "field"

def collRow (cm : CollectionMeta) : CollRow :=
  ⟨cm.name, cm.messageType, keyKindText cm.keyKind, cm.indexes⟩

/-- `embeddedBackend.PutSchema`. -/
def embeddedPutSchema (env : Env) (r : Registry) (name source : Bytes) (inputs : Inputs) :
    Registry × Except BackendErr Int :=
  match (registerM env inputs.faults ⟨name, source, inputs.createdUnix⟩).run r with
  | .ok version r' => (r', .ok version)
  | .error e r' => (r', .error (.register e))

/-- `embeddedBackend`. -/
def embedded (host : Host) (p : Process) (r : Registry) :
    (op : Operation) → Registry × Except BackendErr op.Result
  | .putSchema name source => embeddedPutSchema host.env r name source p.inputs
  | .listSchemas =>
    (r, (wrap (sortedSchemas r.store) .schema).map fun recs =>
      recs.map fun rec => SchemaRow.mk rec.name rec.version)
  | .createCollection name msgType keyField indexes =>
    let (s, res) := Engine.createCollection r.files r.store name msgType ⟨keyField, indexes⟩
    onStore r (s, (wrap res .engine).map fun _ => ())
  | .listCollections =>
    (r, (wrap (Engine.listCollections r.store) .engine).map fun cms => cms.map collRow)
  | .insert coll json =>
    let (s, res) := Engine.insert host.codec r.files r.store coll json
    onStore r (s, wrap res .engine)
  | .get coll id => (r, wrap (Engine.get host.codec r.files r.store coll id) .engine)
  | .update coll id json =>
    let (s, res) := Engine.update host.codec r.files r.store coll id json
    onStore r (s, wrap res .engine)
  | .delete coll id =>
    let (s, res) := Engine.delete r.files r.store coll id
    onStore r (s, wrap res .engine)
  | .backup output => (r, if p.backup r.store output then .ok () else .error .backup)
  | .verify => (r, if p.verify r.store then .ok () else .error .verify)
  | .queryPage coll field op value pageSize pageToken =>
    (r, wrap (embeddedQueryPage ⟨host.parseFloat, host.sha256⟩ host.codec r.files r.store coll
      field op value pageSize pageToken) .query)
  | .createKey name role expiresAtUnix =>
    let (s, res) := embeddedCreateKey host.sha256 r.store name role expiresAtUnix p.inputs.draw
    onStore r (s, wrap res .key)
  | .listKeys =>
    (r, (wrap (Auth.list r.store) .auth).map fun recs => recs.map fun rec =>
      KeyRow.mk rec.keyID rec.name (Auth.roleString rec.role) rec.createdUnix rec.expiresUnix)
  | .revokeKey keyID =>
    let (s, res) := Auth.revoke r.store keyID
    onStore r (s, wrap res .auth)

/-! ## The client of a server -/

/-- A unary call, where `handled` is what its handler does. gRPC encodes no
message with a string that is not valid UTF-8, on either side. -/
def unary {α β : Type} (fate : Fate) (r : Registry) (strings : List Bytes)
    (handled : Registry × Except Code α) (answer : α → List Bytes) (read : α → β) :
    Registry × Except BackendErr β :=
  if validStrings strings then
    let (r', res) := fate.outcome r handled
    (r', do
      let resp ← wrap res .rpc
      reject (!validStrings (answer resp)) (.rpc .internal)
      return read resp)
  else (r, .error (.rpc .internal))

/-- The code a query fails with before or behind its handler, which changes
nothing. -/
def codeOf : Fate → Option Code
  | .refused code | .lost code => some code
  | .served => none

/-- `roleFromWire`. -/
def roleFromWire (r : Int) : Bytes :=
  if r = pbReadOnly then ascii "readonly"
  else if r = pbReadWrite then ascii "readwrite"
  else if r = pbAdmin then ascii "admin"
  else ascii "none"

/-- `remoteBackend`, on a server with the database `r`. -/
def remote (host : Host) (p : Process) (fate : Fate) (r : Registry) :
    (op : Operation) → Registry × Except BackendErr op.Result
  | .putSchema name source =>
    unary fate r [name, source] (handle host r p.inputs .putSchema ⟨name, source⟩)
      (fun _ => []) fun version => version
  | .listSchemas =>
    unary fate r [] (handle host r p.inputs .listSchemas ()) (fun infos => infos.map (·.name))
      fun infos => infos.map fun info => SchemaRow.mk info.name info.version
  | .createCollection name msgType keyField indexes =>
    unary fate r (name :: msgType :: keyField :: indexes)
      (handle host r p.inputs .createCollection ⟨name, msgType, keyField, indexes⟩)
      (fun _ => []) fun _ => ()
  | .listCollections =>
    unary fate r [] (handle host r p.inputs .listCollections ())
      (fun cms => cms.flatMap fun cm => cm.name :: cm.messageType :: cm.keyField :: cm.indexes)
      fun cms => cms.map collRow
  | .insert coll json =>
    unary fate r [coll, json] (handle host r p.inputs .insert ⟨coll, json⟩) (fun id => [id])
      fun id => id
  | .get coll id =>
    unary fate r [coll, id] (handle host r p.inputs .get ⟨coll, id⟩) (fun json => [json])
      fun json => json
  | .update coll id json =>
    unary fate r [coll, id, json] (handle host r p.inputs .update ⟨coll, id, json⟩)
      (fun _ => []) fun _ => ()
  | .delete coll id =>
    unary fate r [coll, id] (handle host r p.inputs .delete ⟨coll, id⟩) (fun _ => []) fun _ => ()
  | .backup _ =>
    (r, .error (.embeddedOnly (ascii ("backup is available only for an embedded database; " ++
      "remote backup operations are not implemented"))))
  | .verify =>
    (r, .error (.embeddedOnly (ascii ("verify is available only for an embedded database; " ++
      "remote verification operations are not implemented"))))
  | .queryPage coll field op value pageSize pageToken =>
    (r, wrap (remoteQueryPage ⟨host.parseFloat, host.sha256⟩ host.codec r.files r.store
      (codeOf fate) coll field op value pageSize pageToken) .query)
  | .createKey name role expiresAtUnix =>
    match roleToWire role with
    | none => (r, .error (.key (.unknownRole role)))
    | some wireRole =>
      unary fate r [name] (handle host r p.inputs .createKey ⟨name, wireRole, expiresAtUnix⟩)
        (fun resp => [resp.keyID, resp.token]) fun resp => resp
  | .listKeys =>
    unary fate r [] (handle host r p.inputs .listKeys ())
      (fun infos => infos.flatMap fun info => [info.keyID, info.name])
      fun infos => infos.map fun info => KeyRow.mk info.keyID info.name (roleFromWire info.role)
        info.createdAtUnix info.expiresAtUnix
  | .revokeKey keyID =>
    unary fate r [keyID] (handle host r p.inputs .revokeKey ⟨keyID⟩) (fun _ => []) fun _ => ()

/-! ## Agreement -/

/-- What a call on a server may come to, beside the call on the open database. -/
inductive Follows {α : Type} (r : Registry) (plain : Registry × Except BackendErr α) :
    Registry × Except BackendErr α → Prop
  /-- Nothing happens. -/
  | stopped (e : BackendErr) : Follows r plain (r, .error e)
  /-- It takes effect, but fails. -/
  | failed (e : BackendErr) : Follows r plain (plain.1, .error e)
  | same {a : α} (h : plain.2 = .ok a) : Follows r plain (plain.1, .ok a)

variable {host : Host} {p : Process} {fate : Fate} {r : Registry}

/-- A unary call follows the open database when its handler does what the open
database does, and what it answers reads as what that returns. -/
theorem follows_unary {α β : Type} {plain : Registry × Except BackendErr β} {strings : List Bytes}
    {handled : Registry × Except Code α} {answer : α → List Bytes} {read : α → β}
    (hstate : handled.1 = plain.1) (hresult : ∀ a, handled.2 = .ok a → plain.2 = .ok (read a)) :
    Follows r plain (unary fate r strings handled answer read) := by
  unfold unary
  by_cases hvalid : validStrings strings = true
  · rw [if_pos hvalid]
    cases fate with
    | refused code => exact .stopped _
    | lost code =>
        simp only [Fate.outcome, hstate]
        exact .failed _
    | served =>
        simp only [Fate.outcome, hstate]
        cases hres : handled.2 with
        | error code => exact .failed _
        | ok a =>
            simp only [wrap_ok, ok_bind]
            cases validStrings (answer a) with
            | false => exact .failed _
            | true => exact .same (hresult a hres)
  · rw [if_neg hvalid]
    exact .stopped _

/-- A version that fits arrives as it is. -/
theorem toInt32_eq {n : Nat} (h : n < 2 ^ 31) : toInt32 n = n := by
  unfold toInt32
  rw [BitVec.toInt_eq_toNat_of_lt]
  · rw [BitVec.toNat_ofNat, Nat.mod_eq_of_lt (by omega)]
  · rw [BitVec.toNat_ofNat, Nat.mod_eq_of_lt (by omega)]
    omega

/-- The names of roles survive the wire. -/
theorem roleFromWire_toPBRole (role : Int) :
    roleFromWire (toPBRole role) = Auth.roleString role := by
  unfold toPBRole Auth.roleString
  split
  · rfl
  · split
    · rfl
    · split <;> rfl

/-- A role that the client sends is the one the open database reads. -/
theorem parseRole_of_roleToWire {role : Bytes} {wireRole : Int}
    (h : roleToWire role = some wireRole) :
    ∃ r, fromPBRole wireRole = .ok r ∧ Auth.parseRole role = some r := by
  unfold roleToWire at h
  split at h
  · cases h
    rename_i hrole
    refine ⟨Auth.roleReadOnly, by decide, ?_⟩
    rcases hrole with rfl | rfl <;> decide +kernel
  · split at h
    · cases h
      rename_i hrole
      refine ⟨Auth.roleReadWrite, by decide, ?_⟩
      rcases hrole with rfl | rfl <;> decide +kernel
    · split at h
      · cases h
        rename_i hrole
        refine ⟨Auth.roleAdmin, by decide, ?_⟩
        rw [hrole]
        decide +kernel
      · cases h

/-- A page size reaches the server as itself, or as one that it refuses. -/
def Operation.SizeFits : Operation → Prop
  | .queryPage _ _ _ _ pageSize _ => SizeArrives pageSize
  | _ => True

/-- All versions fit into an `int32`, the next one too. -/
def VersionsFit (s : Store) : Prop :=
  ∀ k b rec, s.get schemaBucket k = some b → SchemaRecord.unmarshal b = some rec →
    rec.version + 1 < 2 ^ 31

theorem nextVersion_lt {s : Store} (h : VersionsFit s) (name : Bytes) :
    nextVersion s name < 2 ^ 31 := by
  unfold nextVersion
  split
  · rename_i prev hprev
    obtain ⟨b, hget, hrec⟩ := Option.bind_eq_some_iff.mp hprev
    exact h name b prev hget hrec
  · decide

theorem handle_putSchema (inputs : Inputs) (name source : Bytes) (hfits : VersionsFit r.store) :
    let handled := handle host r inputs .putSchema ⟨name, source⟩
    let plain := embeddedPutSchema host.env r name source inputs
    handled.1 = plain.1 ∧ ∀ version, handled.2 = .ok version → plain.2 = .ok version := by
  simp only [handle, putSchema, embeddedPutSchema]
  rcases registerM_cases host.env inputs.faults ⟨name, source, inputs.createdUnix⟩ r with
    ⟨e, he⟩ | ⟨r', version, collected, he, hacc⟩
  · rw [he]
    refine ⟨rfl, fun v hv => ?_⟩
    cases hv
  · rw [he]
    refine ⟨rfl, fun v hv => ?_⟩
    rw [← Except.ok.inj hv, hacc.version_eq, toInt32_eq (nextVersion_lt hfits name)]

theorem listSchemas_eq_ok (hfits : VersionsFit r.store) {infos : List Server.SchemaInfo}
    (h : Server.listSchemas r.store = .ok infos) :
    (wrap (sortedSchemas r.store) BackendErr.schema).map
        (fun recs => recs.map fun rec => SchemaRow.mk rec.name rec.version) =
      .ok (infos.map fun info => SchemaRow.mk info.name info.version) := by
  simp only [Server.listSchemas, bind_eq_ok_iff, wrap_eq_ok_iff, pure, Except.pure,
    Except.ok.injEq] at h
  obtain ⟨recs, hrecs, rfl⟩ := h
  rw [sortedSchemas, hrecs]
  refine congrArg Except.ok ?_
  rw [List.map_map]
  refine List.map_congr_left fun rec hrec => ?_
  -- each row was decoded from a stored record
  obtain ⟨⟨k, b⟩, hmem, hread⟩ := exists_of_mem_mapM hrecs (Storage.Store.mem_byKey.mp hrec)
  have hversion := hfits k b rec (Storage.Store.mem_scan.mp hmem) (orErr_eq_ok_iff.mp hread)
  simp only [Function.comp, toInt32_eq (Nat.lt_of_succ_lt hversion)]

theorem handle_createKey (inputs : Inputs) (name role : Bytes) (expiresAtUnix : Int)
    {wireRole : Int} (hwire : roleToWire role = some wireRole) :
    let handled := handle host r inputs .createKey ⟨name, wireRole, expiresAtUnix⟩
    let plain := embeddedCreateKey host.sha256 r.store name role expiresAtUnix inputs.draw
    handled.1 = { r with store := plain.1 } ∧
      ∀ resp, handled.2 = .ok resp → plain.2 = .ok resp := by
  obtain ⟨role', hfrom, hparse⟩ := parseRole_of_roleToWire hwire
  simp only [handle, onStore, createKey, embeddedCreateKey, hfrom, hparse]
  cases Auth.createKeyWithExpiry host.sha256 r.store
      (keyRequest name role' expiresAtUnix inputs.draw) with
  | mk s res =>
      cases res with
      | error e =>
          refine ⟨rfl, fun resp h => ?_⟩
          cases h
      | ok granted => exact ⟨rfl, fun resp h => congrArg Except.ok (Except.ok.inj h)⟩

theorem listKeys_eq_ok {infos : List KeyInfo} (h : Server.listKeys r.store = .ok infos) :
    (wrap (Auth.list r.store) BackendErr.auth).map (fun recs => recs.map fun rec =>
        KeyRow.mk rec.keyID rec.name (Auth.roleString rec.role) rec.createdUnix rec.expiresUnix) =
      .ok (infos.map fun info => KeyRow.mk info.keyID info.name (roleFromWire info.role)
        info.createdAtUnix info.expiresAtUnix) := by
  unfold Server.listKeys at h
  cases hlist : Auth.list r.store with
  | error e =>
      rw [hlist] at h
      cases h
  | ok recs =>
      rw [hlist] at h
      cases h
      refine congrArg Except.ok ?_
      rw [List.map_map]
      refine List.map_congr_left fun rec _ => ?_
      simp only [Function.comp, roleFromWire_toPBRole]

theorem revokeKey_eq_ok {keyID : Bytes} {u : Unit}
    (h : (Server.revokeKey r.store keyID).2 = .ok u) :
    (Auth.revoke r.store keyID).2 = .ok () := by
  unfold Server.revokeKey at h
  split at h
  · rename_i hres
    rw [hres]
  · cases h
  · cases h

/-- **The backends agree.** A call on a server stops short, or does to the
database what it does to an open one and then fails or returns the same, as long
as its numbers fit into the wire's. -/
theorem remote_follows (host : Host) (p : Process) (fate : Fate) (r : Registry) {op : Operation}
    (hversions : VersionsFit r.store) (hsize : op.SizeFits) :
    Follows r (embedded host p r op) (remote host p fate r op) := by
  cases op with
  | putSchema name source =>
      obtain ⟨hstate, hresult⟩ := @handle_putSchema host r p.inputs name source hversions
      exact follows_unary hstate hresult
  | listSchemas => exact follows_unary rfl fun infos h => listSchemas_eq_ok hversions h
  | createCollection name msgType keyField indexes =>
      refine follows_unary rfl fun u h => ?_
      obtain ⟨cm, hcm, _⟩ := map_eq_ok_iff.mp h
      exact map_eq_ok_iff.mpr ⟨cm, rewrap hcm _, rfl⟩
  | listCollections =>
      refine follows_unary rfl fun cms h => ?_
      exact map_eq_ok_iff.mpr ⟨cms, rewrap h _, rfl⟩
  | insert coll json => exact follows_unary rfl fun id h => rewrap h _
  | get coll id => exact follows_unary rfl fun json h => rewrap h _
  | update coll id json => exact follows_unary rfl fun u h => rewrap h _
  | delete coll id => exact follows_unary rfl fun u h => rewrap h _
  | backup output => exact .stopped _
  | verify => exact .stopped _
  | queryPage coll field op value pageSize pageToken =>
      simp only [remote]
      cases hpage : remoteQueryPage ⟨host.parseFloat, host.sha256⟩ host.codec r.files r.store
          (codeOf fate) coll field op value pageSize pageToken with
      | error e => exact .stopped _
      | ok page =>
          exact Follows.same (wrap_eq_ok_iff.mpr (remoteQueryPage_eq_ok hsize hpage))
  | createKey name role expiresAtUnix =>
      cases hwire : roleToWire role with
      | none =>
          simp only [remote, hwire]
          exact .stopped _
      | some wireRole =>
          obtain ⟨hstate, hresult⟩ :=
            @handle_createKey host r p.inputs name role expiresAtUnix wireRole hwire
          simp only [remote, hwire]
          exact follows_unary hstate fun resp h => wrap_eq_ok_iff.mpr (hresult resp h)
  | listKeys => exact follows_unary rfl fun infos h => listKeys_eq_ok h
  | revokeKey keyID =>
      refine follows_unary ?_ fun u h => wrap_eq_ok_iff.mpr (revokeKey_eq_ok h)
      exact congrArg (fun s => { r with store := s }) (revokeKey_store r.store keyID)

end KoraDB.Cli
