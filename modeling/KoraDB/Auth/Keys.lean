import KoraDB.Base.GoTime
import KoraDB.Base.Strconv
import KoraDB.Catalog.Records

/-!
# API keys (`internal/auth`)

A key is a random id and a random secret, handed out once as the token
`kdb_<id hex>_<secret hex>`; the store keeps the SHA-256 of the secret's hex
form. SHA-256 is the parameter `sha256`; randomness and the clock are arguments
of the calls that read them.
-/

namespace KoraDB.Auth

open KoraDB.Base KoraDB.Catalog

inductive AuthErr
  | invalidToken
  | lastAdmin
  | invalidRole (role : Int)
  | nameNotUtf8
  | nameEmpty
  | nameTooLong
  | nameControl
  | expiryInPast
  | corruptRecord
  | storage (e : Storage.StoreErr)
  deriving DecidableEq, Repr

/-- `keysBucket`. -/
def keysBucket : Bytes := ascii "__auth_keys__"

/-! ## Roles -/

def roleReadOnly : Int := 1
def roleReadWrite : Int := 2
def roleAdmin : Int := 3

/-- `auth.Principal`. -/
structure Principal where
  keyID : Bytes
  name : Bytes
  role : Int
  deriving DecidableEq, Repr

/-! ## Tokens -/

/-- `hex.EncodeToString`. -/
def hexEncode (b : Bytes) : Bytes :=
  b.flatMap fun x => [hexDigit (x.toNat / 16), hexDigit (x.toNat % 16)]

/-- The digits `hex.DecodeString` accepts, of either case. -/
def isHexDigit (b : UInt8) : Bool :=
  (48 ≤ b && b ≤ 57) || (97 ≤ b && b ≤ 102) || (65 ≤ b && b ≤ 70)

/-- `hex.DecodeString` succeeds. -/
def isHex (s : Bytes) : Bool := s.all isHexDigit && s.length % 2 == 0

/-- `hashSecret`. -/
def hashSecret (sha256 : Bytes → Bytes) (secret : Bytes) : Bytes := hexEncode (sha256 secret)

def tokenPrefix : Bytes := ascii "kdb_"

/-- The separator between the two halves of a token. -/
def underscore : UInt8 := 0x5F

def tokenOf (keyID secret : Bytes) : Bytes := tokenPrefix ++ keyID ++ underscore :: secret

/-- `parseToken`. -/
def parseToken (token : Bytes) : Except AuthErr (Bytes × Bytes) :=
  if tokenPrefix.isPrefixOf token then
    match (token.drop tokenPrefix.length).splitOn underscore with
    | [keyID, secret] =>
      if keyID.length == 16 && secret.length == 64 && isHex keyID && isHex secret then
        .ok (keyID, secret)
      else .error .invalidToken
    | _ => .error .invalidToken
  else .error .invalidToken

/-! ## Names -/

/-- `unicode.IsSpace`. -/
def isSpaceRune (r : Nat) : Bool :=
  (9 ≤ r && r ≤ 13) || r == 0x20 || r == 0x85 || r == 0xA0 || r == 0x1680 ||
    (0x2000 ≤ r && r ≤ 0x200A) || r == 0x2028 || r == 0x2029 || r == 0x202F || r == 0x205F ||
    r == 0x3000

/-- `unicode.IsControl`. -/
def isControlRune (r : Nat) : Bool := r < 0x20 || (0x7F ≤ r && r ≤ 0x9F)

/-- `validatePrincipalName`. A string trims to nothing when all its runes are
spaces. -/
def validatePrincipalName (name : Bytes) : Except AuthErr Unit := do
  reject (!validString name) .nameNotUtf8
  reject ((runes name).all fun r => r.any isSpaceRune) .nameEmpty
  reject (decide (128 < name.length)) .nameTooLong
  reject ((runes name).any fun r => r.any isControlRune) .nameControl

/-! ## Operations -/

/-- What `crypto/rand` delivers to one `CreateKeyWithExpiry`. -/
structure Entropy where
  keyID : Vector UInt8 8
  secret : Vector UInt8 32

/-- The arguments of one `CreateKeyWithExpiry` call, and its two readings of
the clock. -/
structure KeyRequest where
  name : Bytes
  role : Int
  expiresAt : Time
  now : Time
  createdAt : Time
  rand : Entropy

namespace KeyRequest

def keyID (q : KeyRequest) : Bytes := hexEncode q.rand.keyID.toList

def secret (q : KeyRequest) : Bytes := hexEncode q.rand.secret.toList

def token (q : KeyRequest) : Bytes := tokenOf q.keyID q.secret

/-- The stored expiry: Unix seconds, zero for none. -/
def expiresUnix (q : KeyRequest) : Int := if q.expiresAt.isZero then 0 else q.expiresAt.unix

def record (sha256 : Bytes → Bytes) (q : KeyRequest) : KeyRecord where
  keyID := q.keyID
  name := q.name
  role := q.role
  secretSHA256 := hashSecret sha256 q.secret
  createdUnix := q.createdAt.unix
  expiresUnix := q.expiresUnix

def principal (q : KeyRequest) : Principal := ⟨q.keyID, q.name, q.role⟩

end KeyRequest

/-- The checks `CreateKeyWithExpiry` makes before it draws randomness. -/
def checkRequest (q : KeyRequest) : Except AuthErr Unit := do
  reject (decide (q.role < roleReadOnly) || decide (roleAdmin < q.role)) (.invalidRole q.role)
  validatePrincipalName q.name
  reject (!q.expiresAt.isZero && !q.expiresAt.after q.now) .expiryInPast

/-- `CreateKeyWithExpiry`; the result is the token and the key id. -/
def createKeyWithExpiry (sha256 : Bytes → Bytes) (s : Store) (q : KeyRequest) :
    Store × Except AuthErr (Bytes × Bytes) :=
  match checkRequest q with
  | .error e => (s, .error e)
  | .ok () => s.update fun tx => do
    let tx ← wrap (tx.put keysBucket q.keyID (q.record sha256).marshal) .storage
    return (tx, (q.token, q.keyID))

/-- A record has not expired at `now`: no expiry, or one strictly later. -/
def unexpired (rec : KeyRecord) (now : Time) : Bool :=
  rec.expiresUnix == 0 || now.before (.ofUnix rec.expiresUnix)

/-- `authenticateAt`. -/
def authenticateAt (sha256 : Bytes → Bytes) (s : Store) (token : Bytes) (now : Time) :
    Except AuthErr Principal := do
  let (keyID, secret) ← parseToken token
  let b ← orErr (s.get keysBucket keyID) .invalidToken
  let rec ← orErr (KeyRecord.unmarshal b) .corruptRecord
  reject (hashSecret sha256 secret != rec.secretSHA256) .invalidToken
  reject (rec.expiresUnix != 0 && !now.before (.ofUnix rec.expiresUnix)) .invalidToken
  return ⟨rec.keyID, rec.name, rec.role⟩

/-- The records a scan of the key bucket decodes; an undecodable one stops the
scan. -/
def scanKeys (s : Store) : Except AuthErr (List KeyRecord) :=
  (s.scan keysBucket).mapM fun e => orErr (KeyRecord.unmarshal e.2) .corruptRecord

/-- `Revoke`. -/
def revoke (s : Store) (keyID : Bytes) : Store × Except AuthErr Unit :=
  s.update fun tx =>
    match tx.get keysBucket keyID with
    | none => .ok (tx, ())
    | some b => do
      let target ← orErr (KeyRecord.unmarshal b) .corruptRecord
      if target.role = roleAdmin then
        let recs ← scanKeys tx
        let admins := (recs.filter fun rec => rec.role == roleAdmin).length
        reject (decide (admins ≤ 1)) .lastAdmin
        return (tx.delete keysBucket keyID, ())
      else
        return (tx.delete keysBucket keyID, ())

/-- `List`. -/
def list (s : Store) : Except AuthErr (List KeyRecord) := do
  let recs ← scanKeys s
  return recs.map fun rec => { rec with secretSHA256 := [] }

/-! ## The key store as a machine -/

inductive KeyCall
  | create (q : KeyRequest)
  | revoke (keyID : Bytes)

/-- One call; a failing call leaves the store as it was. -/
def step (sha256 : Bytes → Bytes) (s : Store) : KeyCall → Store
  | .create q => (createKeyWithExpiry sha256 s q).1
  | .revoke keyID => (revoke s keyID).1

end KoraDB.Auth
