import KoraDB.Auth.Bootstrap
import KoraDB.Server.Pipeline

/-!
# The commands of `KoraDB-server` (`cmd/KoraDB-server`)

`serve` checks its flags, opens the database and refuses to go on without TLS
and an administrator's key, unless it is told to serve insecurely; then it
listens on a loopback address only. `bootstrap` makes the first key. The parsing
of command lines, addresses and certificates is Go's: the flags are given with
their defaults, `net.SplitHostPort` and `net.ParseIP` are parameters, and a start
meets certificates that load or not and addresses that are free or not.
-/

namespace KoraDB.Server

open KoraDB.Base KoraDB.Catalog KoraDB.Schema KoraDB.Engine KoraDB.System

/-! ## Addresses -/

/-- `net.SplitHostPort`, up to the port, and `net.ParseIP`. -/
structure Net where
  splitHostPort : Bytes → Option Bytes
  parseIP : Bytes → Option Bytes

/-- `net.IP.To4`: an address of four bytes, or one mapped into sixteen. -/
def to4 (ip : Bytes) : Option Bytes :=
  if ip.length = 4 then some ip
  else if ip.length = 16 ∧ ip.take 12 = List.replicate 10 0 ++ [0xff, 0xff] then some (ip.drop 12)
  else none

/-- `net.IPv6loopback`. -/
def ipv6Loopback : Bytes := List.replicate 15 0 ++ [1]

/-- `net.IP.IsLoopback`. -/
def isLoopback (ip : Bytes) : Bool :=
  match to4 ip with
  | some ip4 => ip4.head? == some 127
  | none => ip == ipv6Loopback

example : isLoopback (List.replicate 10 0 ++ [0xff, 0xff, 127, 0, 0, 1]) = true := by decide

inductive AddressErr
  | notExplicit
  | notLoopback
  deriving DecidableEq, Repr

/-- `requireLoopbackAddress`. -/
def requireLoopbackAddress (net : Net) (addr : Bytes) : Except AddressErr Unit := do
  let host ← orErr (net.splitHostPort addr) .notExplicit
  reject (!(net.parseIP host).any isLoopback) .notLoopback

/-- The address names a loopback interface by its number. -/
def LoopbackAddress (net : Net) (addr : Bytes) : Prop :=
  ∃ host ip, net.splitHostPort addr = some host ∧ net.parseIP host = some ip ∧
    isLoopback ip = true

/-! ## `serve` -/

/-- The flags of `serve` and their defaults; a duration is in nanoseconds. -/
structure ServeFlags where
  addr : Bytes := ascii ":50051"
  tlsCert : Bytes := []
  tlsKey : Bytes := []
  clientCA : Bytes := []
  metricsAddr : Bytes := ascii "127.0.0.1:9090"
  maxRequestDuration : Int := 30 * 10 ^ 9
  maxConcurrentRequests : Int := 128
  maxRequestsPerSecond : Int := 200
  requestRateBurst : Int := 400
  insecure : Bool := false
  deriving DecidableEq

/-- What a start meets outside: whether the metrics address is free, whether
`serverTLS` can load the certificates, whether the address is free, and the
clock. -/
structure Surroundings where
  metricsFree : Bool
  loadsTLS : Bytes → Bytes → Bytes → Bool
  free : Bool
  now : Time

inductive StartErr
  | maxRequestDuration
  | maxConcurrentRequests
  | maxRequestsPerSecond
  | requestRateBurst
  | metricsAddr (e : AddressErr)
  | addr (e : AddressErr)
  | openDatabase (e : SchemaErr)
  | metricsListen
  | noTLS
  | tls
  | keys (e : Auth.AuthErr)
  | noAdmin
  | listen

/-- What a server runs on, apart from its flags. -/
structure Installation where
  host : Host
  transport : Transport
  net : Net

/-- The interceptors of a server with these flags. -/
def ServeFlags.service (inst : Installation) (flags : ServeFlags) : Service where
  host := inst.host
  transport := inst.transport
  maxRequestDuration := flags.maxRequestDuration
  maxConcurrentRequests := flags.maxConcurrentRequests
  requestsPerSecond := flags.maxRequestsPerSecond
  burst := flags.requestRateBurst
  secure := !flags.insecure

/-- The checks of `runServe` before it opens the database. -/
def checkFlags (net : Net) (flags : ServeFlags) : Except StartErr Unit := do
  reject (decide (flags.maxRequestDuration ≤ 0)) .maxRequestDuration
  reject (decide (flags.maxConcurrentRequests ≤ 0)) .maxConcurrentRequests
  reject (decide (flags.maxRequestsPerSecond < 0)) .maxRequestsPerSecond
  reject (decide (flags.requestRateBurst ≤ 0)) .requestRateBurst
  onlyIf (flags.metricsAddr != [])
    (wrap (requireLoopbackAddress net flags.metricsAddr) .metricsAddr)
  onlyIf flags.insecure (wrap (requireLoopbackAddress net flags.addr) .addr)

/-- What `runServe` asks for unless it serves insecurely: TLS, and an
administrator's key. -/
def checkSecurity (around : Surroundings) (flags : ServeFlags) (s : Store) :
    Except StartErr Unit := do
  reject (flags.tlsCert == [] || flags.tlsKey == []) .noTLS
  reject (!around.loadsTLS flags.tlsCert flags.tlsKey flags.clientCA) .tls
  let has ← wrap (Auth.hasAdminKey s) .keys
  reject (!has) .noAdmin

/-- A chain that no request has come to. -/
def Chain.opened (svc : Service) (r : Registry) (now : Time) : Chain :=
  ⟨r, 0, newTokenBucket svc.requestsPerSecond svc.burst now, .new, [], []⟩

/-- `runServe`, up to the first request. -/
def runServe (inst : Installation) (around : Surroundings) (flags : ServeFlags) (s : Store) :
    Except StartErr Chain := do
  checkFlags inst.net flags
  let r ← wrap (newRegistry inst.host.env s) .openDatabase
  onlyIf (flags.metricsAddr != []) (reject (!around.metricsFree) .metricsListen)
  onlyIf (!flags.insecure) (checkSecurity around flags r.store)
  reject (!around.free) .listen
  return .opened (flags.service inst) r around.now

/-! ## `bootstrap` -/

structure BootstrapFlags where
  name : Bytes := ascii "admin"
  role : Bytes := ascii "admin"

inductive BootstrapErr
  | unknownRole (role : Bytes)
  | notAdmin
  | openDatabase (e : SchemaErr)
  | auth (e : Auth.AuthErr)

/-- `runBootstrap`: the token and the key id it prints. -/
def runBootstrap (host : Host) (flags : BootstrapFlags) (draw : Draw) (s : Store) :
    Store × Except BootstrapErr (Bytes × Bytes) :=
  match Auth.parseRole flags.role with
  | none => (s, .error (.unknownRole flags.role))
  | some role =>
    if role ≠ Auth.roleAdmin then (s, .error .notAdmin)
    else
      match newRegistry host.env s with
      | .error e => (s, .error (.openDatabase e))
      | .ok r =>
        let created := Auth.createKey host.sha256 r.store flags.name role draw.now draw.createdAt
          draw.rand
        (created.1, wrap created.2 .auth)

/-! ## When they succeed -/

section

variable {inst : Installation} {around : Surroundings} {flags : ServeFlags} {s : Store}

theorem requireLoopbackAddress_eq_ok_iff {net : Net} {addr : Bytes} {u : Unit} :
    requireLoopbackAddress net addr = .ok u ↔ LoopbackAddress net addr := by
  simp only [requireLoopbackAddress, LoopbackAddress, bind_eq_ok_iff, orErr_eq_ok_iff,
    reject_eq_ok_iff, Bool.not_eq_false', Option.any_eq_true_iff_get]
  constructor
  · rintro ⟨host, hhost, h⟩
    obtain ⟨hsome, hloop⟩ := h
    exact ⟨host, _, hhost, (Option.some_get hsome).symm, hloop⟩
  · rintro ⟨host, ip, hhost, hip, hloop⟩
    refine ⟨host, hhost, by rw [hip]; rfl, ?_⟩
    simpa only [hip, Option.get_some] using hloop

/-- The flags pass `checkFlags`. -/
structure ServeFlags.Valid (net : Net) (flags : ServeFlags) : Prop where
  duration : 0 < flags.maxRequestDuration
  concurrency : 0 < flags.maxConcurrentRequests
  rate : 0 ≤ flags.maxRequestsPerSecond
  burst : 0 < flags.requestRateBurst
  metrics : flags.metricsAddr = [] ∨ LoopbackAddress net flags.metricsAddr
  loopback : flags.insecure = true → LoopbackAddress net flags.addr

theorem checkFlags_eq_ok_iff {net : Net} {u : Unit} :
    checkFlags net flags = .ok u ↔ flags.Valid net := by
  simp only [checkFlags, bind_eq_ok_iff, reject_eq_ok_iff, onlyIf_eq_ok_iff, wrap_eq_ok_iff,
    requireLoopbackAddress_eq_ok_iff, decide_eq_false_iff_not, Int.not_le, Int.not_lt,
    bne_iff_ne, exists_const]
  constructor
  · rintro ⟨hduration, hconcurrency, hrate, hburst, hmetrics, hloopback⟩
    exact ⟨hduration, hconcurrency, hrate, hburst, or_iff_not_imp_left.mpr hmetrics, hloopback⟩
  · intro h
    exact ⟨h.duration, h.concurrency, h.rate, h.burst, or_iff_not_imp_left.mp h.metrics,
      h.loopback⟩

/-- What the operator has to see to, apart from the keys. -/
structure Startable (inst : Installation) (around : Surroundings) (flags : ServeFlags)
    (s : Store) : Prop where
  valid : flags.Valid inst.net
  opens : ∃ r, newRegistry inst.host.env s = .ok r
  metrics : flags.metricsAddr = [] ∨ around.metricsFree = true
  tls : flags.insecure = false → flags.tlsCert ≠ [] ∧ flags.tlsKey ≠ [] ∧
    around.loadsTLS flags.tlsCert flags.tlsKey flags.clientCA = true
  free : around.free = true

theorem checkSecurity_eq_ok_iff {u : Unit} :
    checkSecurity around flags s = .ok u ↔
      (flags.tlsCert ≠ [] ∧ flags.tlsKey ≠ [] ∧
        around.loadsTLS flags.tlsCert flags.tlsKey flags.clientCA = true) ∧
      Auth.hasAdminKey s = .ok true := by
  simp only [checkSecurity, bind_eq_ok_iff, reject_eq_ok_iff, wrap_eq_ok_iff, exists_const,
    Bool.or_eq_false_iff, beq_eq_false_iff_ne, Bool.not_eq_false', exists_eq_right, and_assoc]

/-- A start succeeds when everything outside is in order and, unless it is an
insecure one, an administrator has a key. -/
theorem runServe_eq_ok_iff {chain : Chain} :
    runServe inst around flags s = .ok chain ↔
      Startable inst around flags s ∧
      (flags.insecure = false → Auth.hasAdminKey s = .ok true) ∧
      ∃ r, newRegistry inst.host.env s = .ok r ∧
        chain = .opened (flags.service inst) r around.now := by
  simp only [runServe, bind_eq_ok_iff, checkFlags_eq_ok_iff, wrap_eq_ok_iff, onlyIf_eq_ok_iff,
    reject_eq_ok_iff, checkSecurity_eq_ok_iff, exists_const, bne_iff_ne, Bool.not_eq_false',
    Bool.not_eq_true', pure, Except.pure, Except.ok.injEq]
  constructor
  · rintro ⟨hflags, r, hr, hmetrics, hsecurity, hfree, rfl⟩
    rw [newRegistry_store hr] at hsecurity
    exact ⟨⟨hflags, ⟨r, hr⟩, or_iff_not_imp_left.mpr hmetrics, fun h => (hsecurity h).1, hfree⟩,
      fun h => (hsecurity h).2, r, hr, rfl⟩
  · rintro ⟨hstart, hadmin, r, hr, rfl⟩
    refine ⟨hstart.valid, r, hr, or_iff_not_imp_left.mp hstart.metrics, ?_, hstart.free, rfl⟩
    rw [newRegistry_store hr]
    exact fun h => ⟨hstart.tls h, hadmin h⟩

/-- The request for the key of a bootstrap. -/
def bootstrapRequest (flags : BootstrapFlags) (draw : Draw) : Auth.KeyRequest :=
  keyRequest flags.name Auth.roleAdmin 0 draw

/-- A bootstrap that gets as far as the database. -/
def Bootstraps (host : Host) (flags : BootstrapFlags) (s : Store) : Prop :=
  Auth.parseRole flags.role = some Auth.roleAdmin ∧ ∃ r, newRegistry host.env s = .ok r

/-- A bootstrap asks for an administrator's key, or changes nothing. -/
theorem runBootstrap_cases (host : Host) (flags : BootstrapFlags) (draw : Draw) (s : Store) :
    (Bootstraps host flags s ∧ runBootstrap host flags draw s =
      ((Auth.createKeyWithExpiry host.sha256 s (bootstrapRequest flags draw)).1,
        wrap (Auth.createKeyWithExpiry host.sha256 s (bootstrapRequest flags draw)).2 .auth)) ∨
    (¬ Bootstraps host flags s ∧ ∃ e, runBootstrap host flags draw s = (s, .error e)) := by
  unfold runBootstrap Bootstraps
  cases hrole : Auth.parseRole flags.role with
  | none => exact .inr ⟨by simp, _, rfl⟩
  | some role =>
      by_cases hadmin : role = Auth.roleAdmin
      · subst hadmin
        cases hopen : newRegistry host.env s with
        | error e => exact .inr ⟨by simp, .openDatabase e, by simp⟩
        | ok r =>
            left
            refine ⟨⟨rfl, r, rfl⟩, ?_⟩
            simp only [ne_eq, not_true_eq_false, if_false, newRegistry_store hopen]
            rfl
      · exact .inr ⟨by simp [hadmin], .notAdmin, by simp [hadmin]⟩

end

end KoraDB.Server
