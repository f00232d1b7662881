import KoraDB.Auth.Ledger
import KoraDB.Auth.Roles
import KoraDB.Server.Keys

/-!
# Authentication of requests (`internal/server/interceptors.go`)

`AuthInterceptor` runs before every handler. It lets a request pass on the
public health method, or with a bearer token of a live key whose role suffices
for the method; the principal then goes with the request.
-/

namespace KoraDB.Server

open KoraDB.Base KoraDB.Catalog KoraDB.Auth

/-- The metadata of a request, by lower-case key, if it has any. -/
abbrev Metadata := Option (BMap (List Bytes))

/-- Why `bearerToken` finds no token. -/
inductive BearerErr
  | noMetadata
  | noAuthorization
  | malformedAuthorization
  deriving DecidableEq, Repr

/-- `bearerToken`. -/
def bearerToken (md : Metadata) : Except BearerErr Bytes := do
  let md ← orErr md .noMetadata
  match md[ascii "authorization"]?.getD [] with
  | [val] =>
    let v := trimSpace val
    reject (!(ascii "Bearer ").isPrefixOf v) .malformedAuthorization
    let token := trimSpace (v.drop (ascii "Bearer ").length)
    reject (token == []) .malformedAuthorization
    return token
  | _ => .error .noAuthorization

/-- `healthCheckMethod`. -/
def healthCheckMethod : Bytes := ascii "/grpc.health.v1.Health/Check"

/-- `isPublicHealthMethod`. -/
def isPublicHealthMethod (fullMethod : Bytes) : Bool := fullMethod == healthCheckMethod

/-- `AuthInterceptor`: the principal the handler runs for, none on the public
health method, or the code of the refusal. -/
def authInterceptor (sha256 : Bytes → Bytes) (s : Store) (now : Time) (fullMethod : Bytes)
    (md : Metadata) : Except Code (Option Principal) :=
  if isPublicHealthMethod fullMethod then .ok none
  else do
    let token ← wrap (bearerToken md) fun _ => .unauthenticated
    let principal ← wrap (authenticateAt sha256 s token now) fun _ => .unauthenticated
    reject (!can (some principal) fullMethod) .permissionDenied
    return some principal

/-- A stored key that is live at `now` and whose secret the token carries. -/
def LiveKey (sha256 : Bytes → Bytes) (s : Store) (now : Time) (token : Bytes) (rec : KeyRecord) :
    Prop :=
  ∃ keyID secret, parseToken token = .ok (keyID, secret) ∧ Stored s keyID rec ∧
    hashSecret sha256 secret = rec.secretSHA256 ∧ unexpired rec now = true

variable {sha256 : Bytes → Bytes} {s : Store} {now : Time} {fullMethod : Bytes} {md : Metadata}

/-- A request passes on the public method, or with the token of a live key
whose role suffices. -/
theorem authInterceptor_eq_ok {p : Option Principal}
    (h : authInterceptor sha256 s now fullMethod md = .ok p) :
    isPublicHealthMethod fullMethod = true ∨
      ∃ token rec need, bearerToken md = .ok token ∧ LiveKey sha256 s now token rec ∧
        requiredRole fullMethod = some need ∧ need ≤ rec.role := by
  unfold authInterceptor at h
  by_cases hhealth : isPublicHealthMethod fullMethod = true
  · exact .inl hhealth
  · rw [if_neg hhealth] at h
    simp only [bind_eq_ok_iff, wrap_eq_ok_iff, reject_eq_ok_iff, Bool.not_eq_false'] at h
    obtain ⟨token, htoken, principal, hauth, _, hcan, _⟩ := h
    obtain ⟨keyID, secret, rec, hparse, hstored, hhash, hlive, rfl⟩ :=
      authenticateAt_eq_ok_iff.mp hauth
    obtain ⟨need, hneed, hrole⟩ := can_eq_true_iff.mp hcan
    exact .inr ⟨token, rec, need, htoken, ⟨keyID, secret, hparse, hstored, hhash, hlive⟩, hneed,
      hrole⟩

/-- In a minted store no role is above admin. -/
theorem LiveKey.role_le {token : Bytes} {rec : KeyRecord} (hm : Minted sha256 s)
    (h : LiveKey sha256 s now token rec) : rec.role ≤ roleAdmin := by
  obtain ⟨_, _, _, hstored, _⟩ := h
  obtain ⟨q, hq, _, rfl⟩ := hm.stored hstored
  simp only [checkRequest, bind_eq_ok_iff, reject_eq_ok_iff, Bool.or_eq_false_iff,
    decide_eq_false_iff_not, Int.not_lt] at hq
  obtain ⟨_, ⟨_, hle⟩, _⟩ := hq
  exact hle

end KoraDB.Server
