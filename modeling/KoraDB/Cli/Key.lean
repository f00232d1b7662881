import KoraDB.Auth.Lockout
import KoraDB.Auth.Roles
import KoraDB.Base.Rfc3339
import KoraDB.Server.Keys

/-!
# `key create` (`cmd/KoraDB`)

The command line reads an expiry as an RFC 3339 value and hands it to a backend
in Unix seconds: to the embedded database, or to a server. `time.Parse` is the
parameter `parse`.

An expiry in the first second of 1970 becomes the zero that means no expiry, on
the way to the backend; one in the first second of year 1 becomes the zero time
there. Both make keys that never expire, and the second can be asked for over
gRPC as well.
-/

namespace KoraDB.Cli

open KoraDB.Base KoraDB.Catalog KoraDB.Auth KoraDB.Server

inductive CliErr
  | usage
  | unknownFlag (arg : Bytes)
  | expiresAt (arg : Bytes)
  | unknownRole (role : Bytes)
  | auth (e : AuthErr)
  | rpc (code : Code)
  deriving DecidableEq, Repr

inductive Backend
  | embedded
  | remote

/-- `roleToWire`. -/
def roleToWire (role : Bytes) : Option Int :=
  if role = ascii "readonly" ∨ role = ascii "ro" then some pbReadOnly
  else if role = ascii "readwrite" ∨ role = ascii "rw" then some pbReadWrite
  else if role = ascii "admin" then some pbAdmin
  else none

/-- `embeddedBackend.CreateKey`. -/
def embeddedCreateKey (sha256 : Bytes → Bytes) (s : Store) (name role : Bytes)
    (expiresAtUnix : Int) (draw : Draw) : Store × Except CliErr CreateKeyResponse :=
  match parseRole role with
  | none => (s, .error (.unknownRole role))
  | some r =>
    match createKeyWithExpiry sha256 s (keyRequest name r expiresAtUnix draw) with
    | (s', .error e) => (s', .error (.auth e))
    | (s', .ok (token, keyID)) => (s', .ok ⟨keyID, token⟩)

/-- `remoteBackend.CreateKey`, on a server that lets the caller through. -/
def remoteCreateKey (sha256 : Bytes → Bytes) (s : Store) (name role : Bytes)
    (expiresAtUnix : Int) (draw : Draw) : Store × Except CliErr CreateKeyResponse :=
  match roleToWire role with
  | none => (s, .error (.unknownRole role))
  | some wireRole =>
    match createKey sha256 s ⟨name, wireRole, expiresAtUnix⟩ draw with
    | (s', .error code) => (s', .error (.rpc code))
    | (s', .ok resp) => (s', .ok resp)

def Backend.createKey (sha256 : Bytes → Bytes) : Backend → Store → Bytes → Bytes → Int → Draw →
    Store × Except CliErr CreateKeyResponse
  | .embedded => embeddedCreateKey sha256
  | .remote => remoteCreateKey sha256

def expiresAtFlag : Bytes := ascii "--expires-at="

/-- One flag of `key create`, in Unix seconds. -/
def parseExpiresAt (parse : Bytes → Option Time) (arg : Bytes) : Except CliErr Int :=
  if expiresAtFlag.isPrefixOf arg then
    match parse (arg.drop expiresAtFlag.length) with
    | none => .error (.expiresAt arg)
    | some expiresAt => .ok expiresAt.unix
  else .error (.unknownFlag arg)

/-- The flags of `key create`: the last one counts, and without one there is no
expiry. -/
def parseFlags (parse : Bytes → Option Time) (flags : List Bytes) : Except CliErr Int :=
  flags.foldlM (fun _ arg => parseExpiresAt parse arg) 0

/-- The arguments that follow `create`: the name, the role and the expiry. -/
def parseKeyCreate (parse : Bytes → Option Time) : List Bytes → Except CliErr (Bytes × Bytes × Int)
  | name :: role :: flags => (parseFlags parse flags).map fun expiresAtUnix =>
      (name, role, expiresAtUnix)
  | _ => .error .usage

/-- `cmdKey` with the arguments that follow `create`. -/
def cmdKeyCreate (parse : Bytes → Option Time) (sha256 : Bytes → Bytes) (backend : Backend)
    (s : Store) (draw : Draw) (args : List Bytes) : Store × Except CliErr CreateKeyResponse :=
  match parseKeyCreate parse args with
  | .error e => (s, .error e)
  | .ok (name, role, expiresAtUnix) => backend.createKey sha256 s name role expiresAtUnix draw

section

variable {parse : Bytes → Option Time} {sha256 : Bytes → Bytes} {s s' : Store} {draw : Draw}

theorem parseFlags_last {flags : List Bytes} {v : Bytes} {e : Time} (hv : parse v = some e)
    {u : Int} (h : parseFlags parse (flags ++ [expiresAtFlag ++ v]) = .ok u) : u = e.unix := by
  have hflag : parseExpiresAt parse (expiresAtFlag ++ v) = .ok e.unix := by
    unfold parseExpiresAt
    rw [if_pos (List.isPrefixOf_iff_prefix.mpr (List.prefix_append _ _)), List.drop_left, hv]
  unfold parseFlags at h
  rw [List.foldlM_append] at h
  obtain ⟨u₀, _, h⟩ := bind_eq_ok_iff.mp h
  simp only [List.foldlM_cons, List.foldlM_nil, hflag, ok_bind] at h
  exact (Except.ok.inj h).symm

/-- Whichever backend: a successful creation is a granted request for some
role. -/
theorem backend_granted {backend : Backend} {name role : Bytes} {u : Int}
    {resp : CreateKeyResponse}
    (h : backend.createKey sha256 s name role u draw = (s', .ok resp)) :
    ∃ r, let q := keyRequest name r u draw
      checkRequest q = .ok () ∧ s' = (createKeyWithExpiry sha256 s q).1 ∧
        resp = ⟨q.keyID, q.token⟩ := by
  cases backend with
  | embedded =>
      simp only [Backend.createKey, embeddedCreateKey] at h
      split at h
      · cases h
      · rename_i r _
        split at h
        · cases h
        · rename_i s₁ token keyID hres
          cases h
          obtain ⟨hcheck, rfl, rfl⟩ := create_result_iff.mp (congrArg Prod.snd hres)
          exact ⟨r, hcheck, (congrArg Prod.fst hres).symm, rfl⟩
  | remote =>
      simp only [Backend.createKey, remoteCreateKey] at h
      split at h
      · cases h
      · split at h
        · cases h
        · rename_i hres
          cases h
          obtain ⟨r, _, hgranted⟩ := Server.createKey_eq_ok hres
          exact ⟨r, hgranted⟩

/-- **Requested expiries.** A key made with an expiry, on the command line or
over gRPC, is honoured unless the seconds of the expiry are one of the
sentinels: those of 1970, which only the command line can ask for, and those of
year 1. Then it never expires. -/
theorem expiry_honoured_iff (sha256 : Bytes → Bytes) (s : Store) (draw : Draw) :
    (∀ (parse : Bytes → Option Time) (backend : Backend) (name role : Bytes)
        (flags : List Bytes) (v : Bytes) (e : Time) (s' : Store) (resp : CreateKeyResponse),
      parse v = some e → e.InRange →
      cmdKeyCreate parse sha256 backend s draw
        (name :: role :: flags ++ [expiresAtFlag ++ v]) = (s', .ok resp) →
      (Honoured sha256 e draw.now s' resp.token resp.keyID ↔
        e.unix ≠ 0 ∧ e.unix ≠ Time.zeroUnix)) ∧
    (∀ (req : CreateKeyRequest) (s' : Store) (resp : CreateKeyResponse),
      -2 ^ 63 ≤ req.expiresAtUnix → req.expiresAtUnix < 2 ^ 63 → req.expiresAtUnix ≠ 0 →
      createKey sha256 s req draw = (s', .ok resp) →
      (Honoured sha256 ⟨req.expiresAtUnix + Time.unixToInternal, 0⟩ draw.now s'
          resp.token resp.keyID ↔
        req.expiresAtUnix ≠ Time.zeroUnix)) := by
  refine ⟨?_, ?_⟩
  · intro parse backend name role flags v e s' resp hv hrange h
    obtain ⟨hlo, hhi⟩ := Time.unix_range e
    unfold cmdKeyCreate at h
    split at h
    · cases h
    · rename_i hargs
      obtain ⟨u, hflags, heq⟩ := map_eq_ok_iff.mp hargs
      cases heq
      cases parseFlags_last hv hflags
      obtain ⟨r, hcheck, rfl, rfl⟩ := backend_granted h
      -- the seconds go both ways unchanged, the fraction is dropped
      have he : e.before (.ofUnix e.unix) = false := by
        rw [Time.ofUnix_unix hrange, Time.before_eq_false_iff]
        exact .inr ⟨rfl, Nat.zero_le _⟩
      exact (honoured_iff hlo hhi he rfl hcheck).trans not_or
  · intro req s' resp hlo hhi hne h
    obtain ⟨r, _, hcheck, rfl, rfl⟩ := Server.createKey_eq_ok h
    -- seconds past the range of a time wrap around to earlier ones
    have he : Time.before ⟨req.expiresAtUnix + Time.unixToInternal, 0⟩
        (.ofUnix req.expiresAtUnix) = false := by
      have hwrap : wrap64 (req.expiresAtUnix + Time.unixToInternal) ≤
          req.expiresAtUnix + Time.unixToInternal := by
        apply wrap64_le
        unfold Time.unixToInternal
        omega
      rw [Time.before_eq_false_iff]
      simp only [Time.ofUnix]
      omega
    refine (honoured_iff hlo hhi he rfl hcheck).trans ?_
    unfold IsSentinel
    omega

end

/-! ## Keys that never expire -/

/-- A creation in 2026. -/
def sampleDraw : Draw where
  now := .ofUnix 1780000000
  createdAt := .ofUnix 1780000000
  rand := ⟨Vector.replicate 8 1, Vector.replicate 32 2⟩

/-- The outcome of `key create ops readwrite --expires-at=v`. -/
def createOps (v : Bytes) : Store × Except CliErr CreateKeyResponse :=
  cmdKeyCreate Time.parseRFC3339 sampleSha256 .embedded .empty sampleDraw
    [ascii "ops", ascii "readwrite", expiresAtFlag ++ v]

/-- A token that gets in at a time from `e` on. -/
theorem not_honoured {sha256 : Bytes → Bytes} {e now t : Time} {s : Store}
    {resp : CreateKeyResponse} {p : Principal} (ht : t.before e = false)
    (h : authenticateAt sha256 s resp.token t = .ok p) :
    ¬ Honoured sha256 e now s resp.token resp.keyID :=
  fun hhon => hhon.2 [] (by simp) t ht p h

/-- Three requests made in 2026 for expiries long past. They are granted, and
the keys let their tokens in at the end of 9999. -/
theorem expiry_sentinels_never_expire :
    let late : Time := .ofUnix 253402300799
    let resp : CreateKeyResponse := ⟨hexEncode (List.replicate 8 1),
      tokenOf (hexEncode (List.replicate 8 1)) (hexEncode (List.replicate 32 2))⟩
    let atZero := createOps (ascii "1970-01-01T00:00:00Z")
    let atYearOne := createOps (ascii "0001-01-01T00:00:00Z")
    let overRPC := createKey sampleSha256 .empty ⟨ascii "ops", pbReadWrite, -62135596800⟩ sampleDraw
    (atZero.2 = .ok resp ∧
      (authenticateAt sampleSha256 atZero.1 resp.token late).isOk = true ∧
      ¬ Honoured sampleSha256 (.ofUnix 0) sampleDraw.now atZero.1 resp.token resp.keyID) ∧
    (atYearOne.2 = .ok resp ∧
      (authenticateAt sampleSha256 atYearOne.1 resp.token late).isOk = true ∧
      ¬ Honoured sampleSha256 ⟨0, 0⟩ sampleDraw.now atYearOne.1 resp.token resp.keyID) ∧
    (overRPC.2 = .ok resp ∧
      (authenticateAt sampleSha256 overRPC.1 resp.token late).isOk = true ∧
      ¬ Honoured sampleSha256 ⟨0, 0⟩ sampleDraw.now overRPC.1 resp.token resp.keyID) := by
  intro late resp atZero atYearOne overRPC
  let p : Principal := ⟨resp.keyID, ascii "ops", roleReadWrite⟩
  have hzero : authenticateAt sampleSha256 atZero.1 resp.token late = .ok p := by decide +kernel
  have hyear : authenticateAt sampleSha256 atYearOne.1 resp.token late = .ok p := by
    decide +kernel
  have hrpc : authenticateAt sampleSha256 overRPC.1 resp.token late = .ok p := by decide +kernel
  refine ⟨⟨by decide +kernel, ?_, not_honoured (by decide) hzero⟩,
    ⟨by decide +kernel, ?_, not_honoured (by decide) hyear⟩,
    ⟨by decide +kernel, ?_, not_honoured (by decide) hrpc⟩⟩
  · rw [hzero]
    rfl
  · rw [hyear]
    rfl
  · rw [hrpc]
    rfl

/-- An expiry at the end of 2026 is honoured. -/
theorem expiry_honoured_sample :
    let created := createOps (ascii "2026-12-31T00:00:00Z")
    ∃ resp, created.2 = .ok resp ∧
      Honoured sampleSha256 (.ofUnix 1798675200) sampleDraw.now created.1 resp.token
        resp.keyID := by
  intro created
  refine ⟨⟨hexEncode (List.replicate 8 1),
    tokenOf (hexEncode (List.replicate 8 1)) (hexEncode (List.replicate 32 2))⟩,
    by decide +kernel, ?_⟩
  exact ((expiry_honoured_iff sampleSha256 .empty sampleDraw).1 Time.parseRFC3339 .embedded
    (ascii "ops") (ascii "readwrite") [] (ascii "2026-12-31T00:00:00Z") (.ofUnix 1798675200)
    created.1 _ (by decide +kernel) (by unfold Time.InRange; decide)
    (Prod.ext rfl (by decide +kernel))).mpr (by decide)

end KoraDB.Cli
