import KoraDB.Query.Exact
import KoraDB.Server.Keys
import KoraDB.System.Machine

/-!
# The service (`internal/server/server.go`)

The handlers of the gRPC service adapt requests to calls of the engine, the
query executor, the registry and the key store. The wire contract's messages
are given by their fields, and `toStatus` keeps the code of an answer and not
its text. A handler takes what it reads from the clock, from `crypto/rand` and
from a failing disk as an argument.

Each handler runs at most one operation of the program (`handle_eq_step`), so
what is known of the runs of the program holds of a server.
-/

namespace KoraDB.Server

open KoraDB.Base KoraDB.Proto KoraDB.Catalog KoraDB.Schema KoraDB.Engine KoraDB.System

/-! ## Filters -/

/-- `pb.Cmp`. -/
structure PbCmp where
  field : Bytes
  op : Int
  value : Bytes

/-- `pb.Filter`: `absent` is a nil pointer, `unset` a filter without a node,
and a nil group has no members. -/
inductive PbFilter where
  | absent
  | unset
  | cmp (c : Option PbCmp)
  | andGroup (filters : List PbFilter)
  | orGroup (filters : List PbFilter)

/-- Why a filter is not converted. -/
inductive FilterErr
  | depth
  | comparisonRequired
  | predicates
  | unspecifiedOperator
  | emptyAnd
  | emptyOr
  | emptyMember
  | nodeRequired
  deriving DecidableEq, Repr

def maxFilterDepth : Nat := 32
def maxFilterPredicates : Int := 64

/-- `toOp`. -/
def toOp (op : Int) : Except FilterErr Query.Op :=
  if op = 1 then .ok Query.Op.eq
  else if op = 2 then .ok Query.Op.ne
  else if op = 3 then .ok Query.Op.gt
  else if op = 4 then .ok Query.Op.gte
  else if op = 5 then .ok Query.Op.lt
  else if op = 6 then .ok Query.Op.lte
  else .error .unspecifiedOperator

mutual

/-- `toFilterWithLimits`; the second result is what is left of the budget. -/
def toFilterWithLimits (depth : Nat) (budget : Int) :
    PbFilter → Except FilterErr (Query.Filter × Int)
  | .absent => .ok (.nil, budget)
  | .cmp c => do
    reject (decide (maxFilterDepth < depth)) .depth
    let c ← orErr c .comparisonRequired
    reject (decide (budget - 1 < 0)) .predicates
    let op ← toOp c.op
    return (.cmp ⟨c.field, op, c.value⟩, budget - 1)
  | .andGroup filters => do
    reject (decide (maxFilterDepth < depth)) .depth
    reject filters.isEmpty .emptyAnd
    let (subs, budget) ← toFiltersWithLimits (depth + 1) budget filters
    return (.and subs, budget)
  | .orGroup filters => do
    reject (decide (maxFilterDepth < depth)) .depth
    reject filters.isEmpty .emptyOr
    let (subs, budget) ← toFiltersWithLimits (depth + 1) budget filters
    return (.or subs, budget)
  | .unset => do
    reject (decide (maxFilterDepth < depth)) .depth
    .error .nodeRequired

/-- `toFiltersWithLimits`. -/
def toFiltersWithLimits (depth : Nat) (budget : Int) :
    List PbFilter → Except FilterErr (List Query.Filter × Int)
  | [] => .ok ([], budget)
  | .absent :: _ => .error .emptyMember
  | f :: rest => do
    let (q, budget) ← toFilterWithLimits depth budget f
    let (qs, budget) ← toFiltersWithLimits depth budget rest
    return (q :: qs, budget)

end

/-- `toFilter`. -/
def toFilter (f : PbFilter) : Except FilterErr Query.Filter := do
  let (q, _) ← toFilterWithLimits 1 maxFilterPredicates f
  return q

/-! ### The walk, case by case -/

section Walk

variable {depth : Nat} {budget left : Int} {filters : List PbFilter} {q : Query.Filter}

theorem toFilterWithLimits_cmp_iff {c : Option PbCmp} :
    toFilterWithLimits depth budget (.cmp c) = .ok (q, left) ↔
      depth ≤ maxFilterDepth ∧ 0 ≤ budget - 1 ∧ left = budget - 1 ∧
        ∃ c' op, c = some c' ∧ toOp c'.op = .ok op ∧ q = .cmp ⟨c'.field, op, c'.value⟩ := by
  rw [toFilterWithLimits]
  simp only [bind_eq_ok_iff, reject_eq_ok_iff, orErr_eq_ok_iff, decide_eq_false_iff_not, Nat.not_lt,
    Int.not_lt, pure, Except.pure, Except.ok.injEq, Prod.mk.injEq]
  constructor
  · rintro ⟨_, hdepth, c', hc, _, hbudget, op, hop, hq, hleft⟩
    exact ⟨hdepth, hbudget, hleft.symm, c', op, hc, hop, hq.symm⟩
  · rintro ⟨hdepth, hbudget, hleft, c', op, hc, hop, hq⟩
    exact ⟨(), hdepth, c', hc, (), hbudget, op, hop, hq.symm, hleft.symm⟩

theorem toFilterWithLimits_andGroup_iff :
    toFilterWithLimits depth budget (.andGroup filters) = .ok (q, left) ↔
      depth ≤ maxFilterDepth ∧ filters.isEmpty = false ∧ ∃ subs,
        toFiltersWithLimits (depth + 1) budget filters = .ok (subs, left) ∧ q = .and subs := by
  rw [toFilterWithLimits]
  simp only [bind_eq_ok_iff, Prod.exists, reject_eq_ok_iff, decide_eq_false_iff_not, Nat.not_lt,
    pure, Except.pure, Except.ok.injEq, Prod.mk.injEq]
  constructor
  · rintro ⟨_, hdepth, _, hempty, subs, _, hsubs, hq, rfl⟩
    exact ⟨hdepth, hempty, subs, hsubs, hq.symm⟩
  · rintro ⟨hdepth, hempty, subs, hsubs, hq⟩
    exact ⟨(), hdepth, (), hempty, subs, left, hsubs, hq.symm, rfl⟩

theorem toFilterWithLimits_orGroup_iff :
    toFilterWithLimits depth budget (.orGroup filters) = .ok (q, left) ↔
      depth ≤ maxFilterDepth ∧ filters.isEmpty = false ∧ ∃ subs,
        toFiltersWithLimits (depth + 1) budget filters = .ok (subs, left) ∧ q = .or subs := by
  rw [toFilterWithLimits]
  simp only [bind_eq_ok_iff, Prod.exists, reject_eq_ok_iff, decide_eq_false_iff_not, Nat.not_lt,
    pure, Except.pure, Except.ok.injEq, Prod.mk.injEq]
  constructor
  · rintro ⟨_, hdepth, _, hempty, subs, _, hsubs, hq, rfl⟩
    exact ⟨hdepth, hempty, subs, hsubs, hq.symm⟩
  · rintro ⟨hdepth, hempty, subs, hsubs, hq⟩
    exact ⟨(), hdepth, (), hempty, subs, left, hsubs, hq.symm, rfl⟩

theorem not_toFilterWithLimits_unset : toFilterWithLimits depth budget .unset ≠ .ok (q, left) := by
  intro h
  rw [toFilterWithLimits] at h
  obtain ⟨_, _, h⟩ := bind_eq_ok_iff.mp h
  cases h

theorem toFiltersWithLimits_cons_iff {f : PbFilter} {qs : List Query.Filter} :
    toFiltersWithLimits depth budget (f :: filters) = .ok (qs, left) ↔
      f ≠ .absent ∧ ∃ q mid qs', toFilterWithLimits depth budget f = .ok (q, mid) ∧
        toFiltersWithLimits depth mid filters = .ok (qs', left) ∧ qs = q :: qs' := by
  by_cases habsent : f = .absent
  · rw [habsent, toFiltersWithLimits]
    simp
  · rw [toFiltersWithLimits]
    · simp only [bind_eq_ok_iff, Prod.exists, pure, Except.pure, Except.ok.injEq, Prod.mk.injEq]
      constructor
      · rintro ⟨q, mid, hq, qs', _, hqs, hcons, rfl⟩
        exact ⟨habsent, q, mid, qs', hq, hqs, hcons.symm⟩
      · rintro ⟨_, q, mid, qs', hq, hqs, hcons⟩
        exact ⟨q, mid, hq, qs', left, hqs, hcons.symm, rfl⟩
    · exact habsent

end Walk

/-! ## Codes -/

/-- `toStatus` on an error of the engine. -/
def toStatus (e : EngineErr) : Code :=
  if e.isNotFound then .notFound
  else if e = .collectionExists ∨ e.isDuplicateKey then .alreadyExists
  else .invalidArgument

/-- `toStatus` on an error of a page. -/
def toStatusQuery : Query.QueryErr → Code
  | .engine e => toStatus e
  | _ => .invalidArgument

/-- `toStatus` on an error of a query with a limit. -/
def toStatusLimit : Query.LimitErr → Code
  | .query e => toStatusQuery e
  | .resultLimit _ => .resourceExhausted

/-! ## Methods -/

/-- The unary methods of the two services. -/
inductive Method
  | putSchema | listSchemas | createCollection | listCollections
  | insert | get | update | delete | query
  | createKey | listKeys | revokeKey
  | healthCheck | healthList
  deriving DecidableEq, Repr

/-- The name the generated code gives to the interceptor. -/
def Method.fullName : Method → Bytes
  | .putSchema => ascii "/yuvanolabs.koradb.v1.KoraDB/PutSchema"
  | .listSchemas => ascii "/yuvanolabs.koradb.v1.KoraDB/ListSchemas"
  | .createCollection => ascii "/yuvanolabs.koradb.v1.KoraDB/CreateCollection"
  | .listCollections => ascii "/yuvanolabs.koradb.v1.KoraDB/ListCollections"
  | .insert => ascii "/yuvanolabs.koradb.v1.KoraDB/Insert"
  | .get => ascii "/yuvanolabs.koradb.v1.KoraDB/Get"
  | .update => ascii "/yuvanolabs.koradb.v1.KoraDB/Update"
  | .delete => ascii "/yuvanolabs.koradb.v1.KoraDB/Delete"
  | .query => ascii "/yuvanolabs.koradb.v1.KoraDB/Query"
  | .createKey => ascii "/yuvanolabs.koradb.v1.KoraDB/CreateKey"
  | .listKeys => ascii "/yuvanolabs.koradb.v1.KoraDB/ListKeys"
  | .revokeKey => ascii "/yuvanolabs.koradb.v1.KoraDB/RevokeKey"
  | .healthCheck => ascii "/grpc.health.v1.Health/Check"
  | .healthList => ascii "/grpc.health.v1.Health/List"

structure PutSchemaRequest where
  name : Bytes
  protoSource : Bytes

structure CreateCollectionRequest where
  name : Bytes
  messageType : Bytes
  keyField : Bytes
  indexes : List Bytes

structure InsertRequest where
  collection : Bytes
  json : Bytes

structure GetRequest where
  collection : Bytes
  id : Bytes

structure UpdateRequest where
  collection : Bytes
  id : Bytes
  json : Bytes

structure DeleteRequest where
  collection : Bytes
  id : Bytes

structure QueryRequest where
  collection : Bytes
  filter : PbFilter
  pageSize : Int
  pageToken : Query.PageToken

structure RevokeKeyRequest where
  keyID : Bytes

structure HealthCheckRequest where
  service : Bytes

def Method.Request : Method → Type
  | .putSchema => PutSchemaRequest
  | .createCollection => CreateCollectionRequest
  | .insert => InsertRequest
  | .get => GetRequest
  | .update => UpdateRequest
  | .delete => DeleteRequest
  | .query => QueryRequest
  | .createKey => CreateKeyRequest
  | .revokeKey => RevokeKeyRequest
  | .healthCheck => HealthCheckRequest
  | .listSchemas | .listCollections | .listKeys | .healthList => Unit

/-- `pb.SchemaInfo`. -/
structure SchemaInfo where
  name : Bytes
  version : Int
  deriving DecidableEq, Repr

/-- `healthpb.HealthCheckResponse_ServingStatus`: `SERVING`, or another value of
the enumeration. -/
inductive ServingStatus
  | serving
  | other (value : Int)
  deriving DecidableEq, Repr

def Method.Response : Method → Type
  | .putSchema => Int
  | .listSchemas => List SchemaInfo
  | .listCollections => List CollectionMeta
  | .insert | .get => Bytes
  | .query => Query.Page
  | .createKey => CreateKeyResponse
  | .listKeys => List KeyInfo
  | .healthCheck => ServingStatus
  | .healthList => List (Bytes × ServingStatus)
  | .createCollection | .update | .delete | .revokeKey => Unit

/-- gRPC's health server: what its methods answer when these statuses of
services have been set. -/
structure HealthServer where
  check : List (Bytes × ServingStatus) → HealthCheckRequest → Except Code ServingStatus
  list : List (Bytes × ServingStatus) → Except Code (List (Bytes × ServingStatus))

/-- What the server takes from other packages besides the program's. -/
structure Host extends World where
  parseFloat : ParseFloat
  health : HealthServer

/-- What the handlers read from outside: the clock and the failures of a
registration, and the draws of a key creation. -/
structure Inputs where
  createdUnix : Int
  faults : Faults
  draw : Draw

/-! ## Handlers -/

/-- The conversion to `int32`. -/
def toInt32 (n : Nat) : Int := (BitVec.ofNat 32 n).toInt

/-- `Server.PutSchema`. -/
def putSchema (env : Env) (r : Registry) (req : PutSchemaRequest) (inputs : Inputs) :
    Registry × Except Code Int :=
  match (registerM env inputs.faults ⟨req.name, req.protoSource, inputs.createdUnix⟩).run r with
  | .ok version r' => (r', .ok (toInt32 version))
  | .error _ r' => (r', .error .invalidArgument)

/-- `Server.ListSchemas`: `sort.Slice` by name. -/
def listSchemas (s : Store) : Except Code (List SchemaInfo) := do
  let recs ← wrap (Schema.listSchemas s) fun _ => Code.invalidArgument
  return (recs.insertionSort fun a b => (compare a.name b.name).isLE = true).map fun rec =>
    ⟨rec.name, toInt32 rec.version⟩

/-- `Server.CreateCollection`. -/
def createCollection (fs : Files) (s : Store) (req : CreateCollectionRequest) :
    Store × Except Code Unit :=
  let (s, res) := Engine.createCollection fs s req.name req.messageType ⟨req.keyField, req.indexes⟩
  (s, (wrap res toStatus).map fun _ => ())

/-- `Server.ListCollections`. -/
def listCollections (s : Store) : Except Code (List CollectionMeta) :=
  wrap (Engine.listCollections s) toStatus

/-- `Server.Insert`. -/
def insert (codec : Codec) (fs : Files) (s : Store) (req : InsertRequest) :
    Store × Except Code Bytes :=
  let (s, res) := Engine.insert codec fs s req.collection req.json
  (s, wrap res toStatus)

/-- `Server.Get`. -/
def get (codec : Codec) (fs : Files) (s : Store) (req : GetRequest) : Except Code Bytes :=
  wrap (Engine.get codec fs s req.collection req.id) toStatus

/-- `Server.Update`. -/
def update (codec : Codec) (fs : Files) (s : Store) (req : UpdateRequest) :
    Store × Except Code Unit :=
  let (s, res) := Engine.update codec fs s req.collection req.id req.json
  (s, wrap res toStatus)

/-- `Server.Delete`. -/
def delete (fs : Files) (s : Store) (req : DeleteRequest) : Store × Except Code Unit :=
  let (s, res) := Engine.delete fs s req.collection req.id
  (s, wrap res toStatus)

/-- `query.DefaultResultLimit`. -/
def defaultResultLimit : Int := 1000

/-- `Server.Query`. -/
def query (lib : Query.Lib) (codec : Codec) (fs : Files) (s : Store) (req : QueryRequest) :
    Except Code Query.Page := do
  let filter ← wrap (toFilter req.filter) fun _ => .invalidArgument
  reject (decide (req.pageSize < 0) || decide (defaultResultLimit < req.pageSize)) .invalidArgument
  if req.pageSize = 0 then
    let results ← wrap (Query.executeWithLimit lib codec fs s req.collection filter
      defaultResultLimit) toStatusLimit
    return ⟨results, .empty⟩
  else
    wrap (Query.executePage lib codec fs s req.collection filter req.pageSize req.pageToken)
      toStatusQuery

/-- The status that `RegisterHealthService` sets: the process as a whole is
serving. -/
def registeredStatuses : List (Bytes × ServingStatus) := [([], .serving)]

/-- The registry with the store a call on it left. -/
def onStore {α : Type} (r : Registry) (res : Store × α) : Registry × α :=
  ({ r with store := res.1 }, res.2)

/-- The handler of a method. -/
def handle (host : Host) (r : Registry) (inputs : Inputs) :
    (m : Method) → m.Request → Registry × Except Code m.Response
  | .putSchema, req => putSchema host.env r req inputs
  | .listSchemas, _ => (r, listSchemas r.store)
  | .createCollection, req => onStore r (createCollection r.files r.store req)
  | .listCollections, _ => (r, listCollections r.store)
  | .insert, req => onStore r (insert host.codec r.files r.store req)
  | .get, req => (r, get host.codec r.files r.store req)
  | .update, req => onStore r (update host.codec r.files r.store req)
  | .delete, req => onStore r (delete r.files r.store req)
  | .query, req => (r, query ⟨host.parseFloat, host.sha256⟩ host.codec r.files r.store req)
  | .createKey, req => onStore r (createKey host.sha256 r.store req inputs.draw)
  | .listKeys, _ => (r, listKeys r.store)
  | .revokeKey, req => onStore r (revokeKey r.store req.keyID)
  | .healthCheck, req => (r, host.health.check registeredStatuses req)
  | .healthList, _ => (r, host.health.list registeredStatuses)

/-! ## The operation of a handler -/

/-- The operation of the program that a handler runs, if any. -/
def opOf (inputs : Inputs) : (m : Method) → m.Request → Option System.Op
  | .putSchema, req =>
    some (.register inputs.faults ⟨req.name, req.protoSource, inputs.createdUnix⟩)
  | .createCollection, req =>
    some (.call (.createCollection req.name req.messageType ⟨req.keyField, req.indexes⟩))
  | .insert, req => some (.call (.insert req.collection req.json))
  | .update, req => some (.call (.update req.collection req.id req.json))
  | .delete, req => some (.call (.delete req.collection req.id))
  | .createKey, req =>
    match fromPBRole req.role with
    | .error _ => none
    | .ok role => some (.key (.create (keyRequest req.name role req.expiresAtUnix inputs.draw)))
  | .revokeKey, req => some (.key (.revoke req.keyID))
  | .listSchemas, _ | .listCollections, _ | .get, _ | .query, _ | .listKeys, _
  | .healthCheck, _ | .healthList, _ => none

theorem createKey_store (sha256 : Bytes → Bytes) (s : Store) (req : CreateKeyRequest)
    (draw : Draw) {role : Int} (hrole : fromPBRole req.role = .ok role) :
    (createKey sha256 s req draw).1 =
      (Auth.createKeyWithExpiry sha256 s (keyRequest req.name role req.expiresAtUnix draw)).1 := by
  unfold createKey
  rw [hrole]
  cases hres : Auth.createKeyWithExpiry sha256 s (keyRequest req.name role req.expiresAtUnix draw)
    with
  | mk s' res =>
      cases res with
      | error e => simp only [hres]
      | ok granted => simp only [hres]

theorem revokeKey_store (s : Store) (keyID : Bytes) :
    (revokeKey s keyID).1 = (Auth.revoke s keyID).1 := by
  unfold revokeKey
  cases hres : Auth.revoke s keyID with
  | mk s' res =>
      cases res with
      | ok u => rfl
      | error e => cases e <;> rfl

/-- A handler runs its operation, or leaves the database as it is. -/
theorem handle_eq_step (host : Host) (r : Registry) (inputs : Inputs) (m : Method)
    (req : m.Request) :
    (handle host r inputs m req).1 =
      match opOf inputs m req with
      | none => r
      | some op => System.step host.toWorld r op := by
  cases m with
  | listSchemas | listCollections | get | query | listKeys | healthCheck | healthList => rfl
  | createCollection | insert | update | delete => rfl
  | putSchema =>
      simp only [handle, opOf, putSchema, System.step, stepEvent]
      split <;> simp_all
  | createKey =>
      cases hrole : fromPBRole req.role with
      | error e =>
          have hstore : (createKey host.sha256 r.store req inputs.draw).1 = r.store := by
            unfold createKey
            rw [hrole]
          show { r with store := (createKey host.sha256 r.store req inputs.draw).1 } = _
          rw [hstore]
          simp only [opOf, hrole]
      | ok role =>
          show { r with store := (createKey host.sha256 r.store req inputs.draw).1 } = _
          rw [createKey_store host.sha256 r.store req inputs.draw hrole]
          simp only [opOf, hrole]
          rfl
  | revokeKey =>
      show { r with store := (revokeKey r.store req.keyID).1 } = _
      rw [revokeKey_store]
      rfl

/-- The handlers that only read. -/
def Method.readsOnly : Method → Bool
  | .get | .query | .listSchemas | .listCollections | .listKeys | .healthCheck | .healthList => true
  | _ => false

theorem handle_readsOnly (host : Host) (r : Registry) (inputs : Inputs) {m : Method}
    (h : m.readsOnly = true) (req : m.Request) : (handle host r inputs m req).1 = r := by
  cases m with
  | listSchemas | listCollections | get | query | listKeys | healthCheck | healthList => rfl
  | putSchema | createCollection | insert | update | delete | createKey | revokeKey => cases h

end KoraDB.Server
