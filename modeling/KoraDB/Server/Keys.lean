import KoraDB.Auth.Expiry

/-!
# Key management over gRPC (`internal/server/keys.go`)

Wire enumerations are open in proto3: a role is any number, and those without a
name are refused.
-/

namespace KoraDB.Server

open KoraDB.Base KoraDB.Catalog KoraDB.Auth

/-- The `codes.Code` values the server answers with. -/
inductive Code
  | canceled
  | invalidArgument
  | deadlineExceeded
  | notFound
  | alreadyExists
  | permissionDenied
  | resourceExhausted
  | failedPrecondition
  | unimplemented
  | internal
  | unauthenticated
  deriving DecidableEq, Repr

/-- The values of `pb.Role`. -/
def pbUnspecified : Int := 0
def pbReadOnly : Int := 1
def pbReadWrite : Int := 2
def pbAdmin : Int := 3

/-- `fromPBRole`. -/
def fromPBRole (r : Int) : Except Code Int :=
  if r = pbReadOnly then .ok roleReadOnly
  else if r = pbReadWrite then .ok roleReadWrite
  else if r = pbAdmin then .ok roleAdmin
  else .error .invalidArgument

/-- `toPBRole`. -/
def toPBRole (r : Int) : Int :=
  if r = roleReadOnly then pbReadOnly
  else if r = roleReadWrite then pbReadWrite
  else if r = roleAdmin then pbAdmin
  else pbUnspecified

structure CreateKeyRequest where
  name : Bytes
  role : Int
  expiresAtUnix : Int

structure CreateKeyResponse where
  keyID : Bytes
  token : Bytes
  deriving DecidableEq, Repr

/-- What a creation takes from the clock, read twice, and from `crypto/rand`. -/
structure Draw where
  now : Time
  createdAt : Time
  rand : Entropy

/-- The call of `CreateKeyWithExpiry` that a creation comes to. -/
def keyRequest (name : Bytes) (role expiresAtUnix : Int) (draw : Draw) : KeyRequest where
  name := name
  role := role
  expiresAt := requestedExpiry expiresAtUnix
  now := draw.now
  createdAt := draw.createdAt
  rand := draw.rand

/-- `Server.CreateKey`. -/
def createKey (sha256 : Bytes → Bytes) (s : Store) (req : CreateKeyRequest) (draw : Draw) :
    Store × Except Code CreateKeyResponse :=
  match fromPBRole req.role with
  | .error e => (s, .error e)
  | .ok role =>
    match createKeyWithExpiry sha256 s (keyRequest req.name role req.expiresAtUnix draw) with
    | (s', .error _) => (s', .error .invalidArgument)
    | (s', .ok (token, keyID)) => (s', .ok ⟨keyID, token⟩)

structure KeyInfo where
  keyID : Bytes
  name : Bytes
  role : Int
  createdAtUnix : Int
  expiresAtUnix : Int
  deriving DecidableEq, Repr

/-- `Server.ListKeys`. -/
def listKeys (s : Store) : Except Code (List KeyInfo) :=
  match list s with
  | .error _ => .error .internal
  | .ok recs => .ok (recs.map fun r =>
      ⟨r.keyID, r.name, toPBRole r.role, r.createdUnix, r.expiresUnix⟩)

/-- `Server.RevokeKey`. -/
def revokeKey (s : Store) (keyID : Bytes) : Store × Except Code Unit :=
  match revoke s keyID with
  | (s', .ok ()) => (s', .ok ())
  | (s', .error .lastAdmin) => (s', .error .failedPrecondition)
  | (s', .error _) => (s', .error .internal)

variable {sha256 : Bytes → Bytes} {s : Store} {req : CreateKeyRequest} {draw : Draw}

/-- A successful creation is a granted request for the named role. -/
theorem createKey_eq_ok {s' : Store} {resp : CreateKeyResponse}
    (h : createKey sha256 s req draw = (s', .ok resp)) :
    ∃ role, fromPBRole req.role = .ok role ∧
      let q := keyRequest req.name role req.expiresAtUnix draw
      checkRequest q = .ok () ∧ s' = (createKeyWithExpiry sha256 s q).1 ∧
        resp = ⟨q.keyID, q.token⟩ := by
  unfold createKey at h
  cases hrole : fromPBRole req.role with
  | error e =>
      rw [hrole] at h
      cases h
  | ok role =>
      rw [hrole] at h
      refine ⟨role, rfl, ?_⟩
      intro q
      cases hres : createKeyWithExpiry sha256 s q with
      | mk s₁ res =>
          cases res with
          | error e =>
              simp only [q, hres] at h
              cases h
          | ok granted =>
              obtain ⟨token, id⟩ := granted
              simp only [q, hres] at h
              cases h
              obtain ⟨hcheck, rfl, rfl⟩ := create_result_iff.mp (congrArg Prod.snd hres)
              exact ⟨hcheck, rfl, rfl⟩

end KoraDB.Server
