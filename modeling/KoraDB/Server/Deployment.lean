import KoraDB.Server.Mediation
import KoraDB.Server.Startup
import KoraDB.System.Keys

/-!
# A database file and the processes that open it

One file, opened by one process at a time: bbolt locks it, so a bootstrap or a
program that embeds the engine gets nothing done while a server runs, and a
second server does not start. Processes come in any order and stop at any
moment; what they leave is the file. A history is a sequence of such processes
and, while a server runs, of the events of its interceptor chain.

For the API keys this gives, over every history:

* a server that serves is guarded: by valid flags, and by TLS and a stored
  administrator or by a loopback address (`serving_fail_closed`);
* a bootstrap lasts: its token works until its key is revoked, and whatever is
  revoked, a secured server can start again (`bootstrap_lasts`);
* no key comes from nowhere: through administrators' grants every key goes back
  to someone with access to the file or to an insecure server
  (`keys_descend`).
-/

namespace KoraDB.Server

open KoraDB.Base KoraDB.Catalog KoraDB.Schema KoraDB.Engine KoraDB.System

/-! ## Histories -/

inductive Site
  /-- The file, opened by nobody. -/
  | stopped (s : Store)
  /-- A server has it open. -/
  | serving (flags : ServeFlags) (chain : Chain)

def Site.store : Site → Store
  | .stopped s => s
  | .serving _ chain => chain.registry.store

inductive SiteEvent
  | bootstrap (flags : BootstrapFlags) (draw : Draw)
  /-- A program that embeds the engine: it opens the file, runs some operations
  and closes it. -/
  | embedded (ops : List Op)
  | serve (flags : ServeFlags) (around : Surroundings)
  | request (e : ChainEvent)
  /-- The server ends, of itself or not. -/
  | stop

/-- The file after a program that embeds the engine. -/
def runEmbedded (w : World) (s : Store) (ops : List Op) : Store :=
  match newRegistry w.env s with
  | .error _ => s
  | .ok r => (run (step w) r ops).store

/-- A process that finds the file locked leaves it alone. -/
def stepSite (inst : Installation) : Site → SiteEvent → Site
  | .stopped s, .bootstrap flags draw => .stopped (runBootstrap inst.host flags draw s).1
  | .stopped s, .embedded ops => .stopped (runEmbedded inst.host.toWorld s ops)
  | .stopped s, .serve flags around =>
    match runServe inst around flags s with
    | .error _ => .stopped s
    | .ok chain => .serving flags chain
  | .serving flags chain, .request e => .serving flags (stepChain (flags.service inst) chain e)
  | .serving _ chain, .stop => .stopped chain.registry.store
  | site, _ => site

/-- A new file after a history. -/
def siteAfter (inst : Installation) (history : List SiteEvent) : Site :=
  run (stepSite inst) (.stopped .empty) history

variable {inst : Installation} {site : Site} {history : List SiteEvent} {flags : ServeFlags}
  {chain : Chain} {k : Bytes} {past : List Bytes}

theorem siteAfter_concat (e : SiteEvent) :
    siteAfter inst (history ++ [e]) = stepSite inst (siteAfter inst history) e := run_concat ..

/-- A site serves because it did, with these flags, or because it starts. -/
theorem serving_of_step {e : SiteEvent} (h : stepSite inst site e = .serving flags chain) :
    (∃ around s, site = .stopped s ∧ e = .serve flags around ∧
      runServe inst around flags s = .ok chain) ∨
    ∃ chain₀, site = .serving flags chain₀ ∧
      (chain = chain₀ ∨ ∃ e', e = .request e' ∧
        chain = stepChain (flags.service inst) chain₀ e') := by
  cases site with
  | stopped s =>
      cases e with
      | serve flags' around =>
          cases hrun : runServe inst around flags' s with
          | error err =>
              simp only [stepSite, hrun] at h
              cases h
          | ok chain' =>
              simp only [stepSite, hrun] at h
              cases h
              exact .inl ⟨around, s, rfl, rfl, hrun⟩
      | bootstrap _ _ | embedded _ | request _ | stop => cases h
  | serving flags' chain₀ =>
      cases e with
      | request e' =>
          cases h
          exact .inr ⟨chain₀, rfl, .inr ⟨e', rfl, rfl⟩⟩
      | stop => cases h
      | bootstrap _ _ | embedded _ | serve _ _ =>
          obtain ⟨rfl, rfl⟩ := Site.serving.inj h
          exact .inr ⟨_, rfl, .inl rfl⟩

/-! ## The operations of an event -/

/-- The operation of the handler that an event of the chain runs. -/
def chainOps (chain : Chain) : ChainEvent → List Op
  | .advance i tick =>
    match chain.requests[i]? with
    | none => []
    | some a =>
      if a.stage.isReady then
        (opOfContext tick.inputs (a.readings tick) tick.givesUp a.incoming.method
          a.incoming.request).toList
      else []
  | _ => []

/-- The operations of the program that an event runs on the file. -/
def Site.ops (inst : Installation) : Site → SiteEvent → List Op
  | .stopped s, .bootstrap flags draw =>
    if Auth.parseRole flags.role = some Auth.roleAdmin ∧
        (newRegistry inst.host.env s).toOption.isSome then
      [.key (.create (bootstrapRequest flags draw))]
    else []
  | .stopped s, .embedded ops => if (newRegistry inst.host.env s).toOption.isSome then ops else []
  | .serving _ chain, .request e => chainOps chain e
  | _, _ => []

theorem stage_ready {s : Stage} (h : s.isReady = true) : s = .ready := by
  cases s <;> first | rfl | cases h

theorem mem_chainOps {e : ChainEvent} {op : Op} (h : op ∈ chainOps chain e) :
    ∃ i tick a, e = .advance i tick ∧ chain.requests[i]? = some a ∧ a.stage = .ready ∧
      opOfContext tick.inputs (a.readings tick) tick.givesUp a.incoming.method
        a.incoming.request = some op := by
  cases e with
  | arrive _ _ _ _ | expire _ _ => exact absurd h List.not_mem_nil
  | advance i tick =>
      simp only [chainOps] at h
      cases ha : chain.requests[i]? with
      | none =>
          rw [ha] at h
          exact absurd h List.not_mem_nil
      | some a =>
          simp only [ha] at h
          by_cases hready : a.stage.isReady = true
          · rw [if_pos hready, Option.mem_toList] at h
            exact ⟨i, tick, a, rfl, ha, stage_ready hready, h⟩
          · rw [if_neg hready] at h
            exact absurd h List.not_mem_nil

/-- Of the events of a chain only the runs of handlers touch the database. -/
theorem stepChain_registry (svc : Service) (chain : Chain) (e : ChainEvent) :
    (stepChain svc chain e).registry =
      run (step svc.host.toWorld) chain.registry (chainOps chain e) := by
  cases e with
  | arrive req peer deadline now =>
      simp only [stepChain]
      split <;> rfl
  | expire i e =>
      simp only [stepChain]
      split <;> rfl
  | advance i tick =>
      cases hi : chain.requests[i]? with
      | none => simp only [stepChain, chainOps, hi, run_nil]
      | some a =>
          have hadv := advance_advances svc chain a tick
          simp only [stepChain, chainOps, hi]
          show (advance svc chain a tick).1.registry = _
          generalize (advance svc chain a tick).1 = chain' at hadv
          generalize (advance svc chain a tick).2 = a' at hadv
          cases hadv with
          | handled hs h =>
              rw [hs, Stage.isReady, if_pos rfl, ← handleContext_registry, h]
          | lapsed hs _ | bounded hs _ | full hs _ | acquired hs _ | denied hs _ _
          | authorized hs _ _ | unchecked hs _ | limited hs _ | ready hs _ | released hs
          | answered hs | left hs | counted hs | logged hs | ended hs =>
              rw [hs]
              rfl

/-- A history is a run of the program: each of its events runs its operations on
a registry of the file. -/
theorem stepSite_store (inst : Installation) (site : Site) (e : SiteEvent) :
    ∃ r : Registry, r.store = site.store ∧
      (stepSite inst site e).store =
        (run (step inst.host.toWorld) r (site.ops inst e)).store := by
  have hidle : ∀ s : Store, ∃ r : Registry, r.store = s ∧
      s = (run (step inst.host.toWorld) r []).store :=
    fun s => ⟨{ Registry.initial with store := s }, rfl, rfl⟩
  cases site with
  | stopped s =>
      cases e with
      | bootstrap flags draw =>
          simp only [stepSite, Site.store, Site.ops]
          rcases runBootstrap_cases inst.host flags draw s with
            ⟨⟨hrole, r, hr⟩, heq⟩ | ⟨hnot, e, heq⟩
          · refine ⟨r, newRegistry_store hr, ?_⟩
            rw [heq, if_pos ⟨hrole, by rw [hr]; rfl⟩, run_cons, run_nil, System.step,
              newRegistry_store hr]
            rfl
          · rw [heq, if_neg]
            · exact hidle s
            · rintro ⟨hrole, hopens⟩
              exact hnot ⟨hrole, exists_of_isSome hopens⟩
      | embedded ops =>
          simp only [stepSite, Site.store, Site.ops, runEmbedded]
          cases hr : newRegistry inst.host.env s with
          | error e => exact hidle s
          | ok r => exact ⟨r, newRegistry_store hr, rfl⟩
      | serve flags around =>
          simp only [stepSite, Site.store, Site.ops]
          cases hrun : runServe inst around flags s with
          | error e => exact hidle s
          | ok chain =>
              obtain ⟨_, _, r, hr, rfl⟩ := runServe_eq_ok_iff.mp hrun
              exact ⟨r, newRegistry_store hr, rfl⟩
      | request _ | stop => exact hidle s
  | serving flags chain =>
      cases e with
      | request e =>
          refine ⟨chain.registry, rfl, ?_⟩
          simp only [stepSite, Site.store, Site.ops, stepChain_registry]
          rfl
      | bootstrap _ _ | embedded _ | serve _ _ | stop => exact hidle _

/-! ## Draws along a history -/

/-- The key ids drawn in a history, in order. -/
def drawnIn (inst : Installation) (history : List SiteEvent) : List Bytes :=
  observed (stepSite inst) (fun site e => draws (site.ops inst e)) (.stopped .empty) history

theorem drawnIn_concat (e : SiteEvent) :
    drawnIn inst (history ++ [e]) =
      drawnIn inst history ++ draws ((siteAfter inst history).ops inst e) := observed_concat ..

theorem site_keysKnown (inst : Installation) (history : List SiteEvent) :
    KeysKnown inst.host.sha256 (drawnIn inst history) (siteAfter inst history).store := by
  induction history using List.reverseRecOn with
  | nil => exact keysKnown_empty _
  | append_singleton history e ih =>
      obtain ⟨r, hr, hstore⟩ := stepSite_store inst (siteAfter inst history) e
      rw [← hr] at ih
      rw [siteAfter_concat, drawnIn_concat, hstore]
      exact keysKnown_run ih _

/-- What operations with new draws keep, histories with distinct draws keep. -/
theorem site_kept {P : List Bytes → Store → Prop} (hP : FreshlyKept inst.host.toWorld P)
    {before after : List SiteEvent} (hdistinct : (drawnIn inst (before ++ after)).Nodup)
    (h0 : P (drawnIn inst before) (siteAfter inst before).store) :
    P (drawnIn inst (before ++ after)) (siteAfter inst (before ++ after)).store := by
  induction after using List.reverseRecOn with
  | nil =>
      rw [List.append_nil]
      exact h0
  | append_singleton after e ih =>
      rw [← List.append_assoc, drawnIn_concat] at hdistinct ⊢
      have hkept := ih (List.Nodup.of_append_left hdistinct)
      have hknown := site_keysKnown inst (before ++ after)
      obtain ⟨r, hr, hstore⟩ := stepSite_store inst (siteAfter inst (before ++ after)) e
      rw [← hr] at hkept hknown
      rw [siteAfter_concat, hstore]
      exact hP.run hknown hdistinct hkept

/-! ## A server that serves -/

/-- While a secured server runs, an administrator's record is stored. -/
theorem serving_adminRecord (hdistinct : (drawnIn inst history).Nodup)
    (h : siteAfter inst history = .serving flags chain) (hsecure : flags.insecure = false) :
    Auth.AdminRecord chain.registry.store := by
  induction history using List.reverseRecOn generalizing chain with
  | nil => cases h
  | append_singleton history e ih =>
      have hbefore : (drawnIn inst history).Nodup := by
        rw [drawnIn_concat] at hdistinct
        exact List.Nodup.of_append_left hdistinct
      have hstep : stepSite inst (siteAfter inst history) e = .serving flags chain := by
        rw [← siteAfter_concat, h]
      rcases serving_of_step hstep with ⟨around, s, hs, rfl, hrun⟩ | ⟨chain₀, hs, _⟩
      · -- it has just started, and has looked
        obtain ⟨_, hadmin, r, hr, rfl⟩ := runServe_eq_ok_iff.mp hrun
        have hm := (site_keysKnown inst history).minted
        rw [hs] at hm
        have := (hm.hasAdminKey_iff).mp (hadmin hsecure)
        show Auth.AdminRecord r.store
        rwa [newRegistry_store hr]
      · have hkept := site_kept (adminRecord_kept inst.host.toWorld) hdistinct
          (by rw [hs]; exact ih hbefore hs)
        rw [h] at hkept
        exact hkept

theorem serving_valid (h : siteAfter inst history = .serving flags chain) :
    flags.Valid inst.net ∧
      (flags.insecure = false → flags.tlsCert ≠ [] ∧ flags.tlsKey ≠ []) := by
  induction history using List.reverseRecOn generalizing chain with
  | nil => cases h
  | append_singleton history e ih =>
      rw [siteAfter_concat] at h
      rcases serving_of_step h with ⟨around, s, hs, rfl, hrun⟩ | ⟨chain₀, hs, _⟩
      · have hstart := (runServe_eq_ok_iff.mp hrun).1
        exact ⟨hstart.valid, fun hsecure => ⟨(hstart.tls hsecure).1, (hstart.tls hsecure).2.1⟩⟩
      · exact ih hs

/-- **Fail closed.** Whatever processes had the file before and whatever the
requests do: a server that serves has a positive duration, concurrency and burst
and a rate that is not negative, and its metrics on a loopback address or off;
and it checks keys, behind TLS, with an administrator's key in the store at every
moment, or it does not and listens on a loopback address. -/
theorem serving_fail_closed (hdistinct : (drawnIn inst history).Nodup)
    (h : siteAfter inst history = .serving flags chain) :
    (0 < (flags.service inst).maxRequestDuration ∧ 0 < (flags.service inst).maxConcurrentRequests ∧
      0 ≤ (flags.service inst).requestsPerSecond ∧ 0 < (flags.service inst).burst) ∧
    (flags.metricsAddr = [] ∨ LoopbackAddress inst.net flags.metricsAddr) ∧
    (((flags.service inst).secure = true ∧ flags.tlsCert ≠ [] ∧ flags.tlsKey ≠ [] ∧
        Auth.hasAdminKey chain.registry.store = .ok true) ∨
      ((flags.service inst).secure = false ∧ LoopbackAddress inst.net flags.addr)) := by
  obtain ⟨hvalid, htls⟩ := serving_valid h
  refine ⟨⟨hvalid.duration, hvalid.concurrency, hvalid.rate, hvalid.burst⟩, hvalid.metrics, ?_⟩
  have hm := (site_keysKnown inst history).minted
  rw [h] at hm
  cases hmode : flags.insecure with
  | true => exact .inr ⟨by rw [ServeFlags.service, hmode]; rfl, hvalid.loopback hmode⟩
  | false =>
      obtain ⟨hcert, hkey⟩ := htls hmode
      refine .inl ⟨by rw [ServeFlags.service, hmode]; rfl, hcert, hkey, ?_⟩
      exact hm.hasAdminKey_iff.mpr (serving_adminRecord hdistinct h hmode)

/-! ### A desk from its first key on -/

/-- The default metrics address and nothing else. -/
def deskNet : Net where
  splitHostPort addr := if addr = ascii "127.0.0.1:9090" then some (ascii "127.0.0.1") else none
  parseIP host := if host = ascii "127.0.0.1" then some [127, 0, 0, 1] else none

/-- Creations of writers' keys and revocations, with the name or the key id for a
body. -/
def deskKeyTransport : Transport where
  route path := [Method.createKey, Method.revokeKey].find? fun m => m.fullName == path
  unmarshal
    | .createKey, body => some ⟨body, pbReadWrite, 0⟩
    | .revokeKey, body => some ⟨body⟩
    | _, _ => none

def deskInstallation : Installation := ⟨deskHost, deskKeyTransport, deskNet⟩

def deskFlags : ServeFlags := { tlsCert := ascii "server.crt", tlsKey := ascii "server.key" }

def deskAround : Surroundings := ⟨true, fun _ _ _ => true, true, deskCreated⟩

def deskDraw (rand : Auth.Entropy) : Draw := ⟨deskCreated, deskCreated, rand⟩

def deskBoot : SiteEvent := .bootstrap {} (deskDraw deskRoot.rand)

/-- A server starts, and a writer's key is made for the administrator. -/
def deskSession : List SiteEvent :=
  [.serve deskFlags deskAround,
    .request (.arrive ⟨Method.createKey.fullName, bearing deskRoot, ascii "writer"⟩ none none
      deskCreated)] ++
  List.replicate 5 (.request (.advance 0
    ⟨deskCreated, deskCreated, ⟨0, {}, deskDraw deskWriter.rand⟩, none, false⟩))

def Site.servedFlags : Site → Option ServeFlags
  | .stopped _ => none
  | .serving flags _ => some flags

theorem Site.serving_of_flags (h : site.servedFlags = some flags) :
    ∃ chain, site = .serving flags chain := by
  cases site with
  | stopped s => cases h
  | serving flags' chain =>
      cases h
      exact ⟨chain, rfl⟩

theorem serving_fail_closed_desk :
    ∃ chain, siteAfter deskInstallation (deskBoot :: deskSession) = .serving deskFlags chain ∧
      Auth.hasAdminKey chain.registry.store = .ok true := by
  have hruns : (siteAfter deskInstallation (deskBoot :: deskSession)).servedFlags = some deskFlags ∧
      (drawnIn deskInstallation (deskBoot :: deskSession)).Nodup := by
    decide +kernel
  obtain ⟨hflags, hdistinct⟩ := hruns
  obtain ⟨chain, hserving⟩ := Site.serving_of_flags hflags
  rcases (serving_fail_closed hdistinct hserving).2.2 with ⟨_, _, _, hadmin⟩ | ⟨hoff, _⟩
  · exact ⟨chain, hserving, hadmin⟩
  · cases hoff

/-! ## Bootstraps -/

/-- A bootstrap that prints a token has stored an administrator's record without
expiry. -/
theorem runBootstrap_eq_ok {host : Host} {flags : BootstrapFlags} {draw : Draw} {s s' : Store}
    {token keyID : Bytes} (h : runBootstrap host flags draw s = (s', .ok (token, keyID))) :
    Auth.parseRole flags.role = some Auth.roleAdmin ∧
      (newRegistry host.env s).toOption.isSome = true ∧
      Auth.checkRequest (bootstrapRequest flags draw) = .ok () ∧
      token = (bootstrapRequest flags draw).token ∧ keyID = (bootstrapRequest flags draw).keyID ∧
      s' = (Auth.createKeyWithExpiry host.sha256 s (bootstrapRequest flags draw)).1 := by
  rcases runBootstrap_cases host flags draw s with ⟨⟨hrole, r, hr⟩, heq⟩ | ⟨_, e, heq⟩
  · rw [h] at heq
    have hgranted := (congrArg Prod.snd heq).symm
    rw [wrap_eq_ok_iff, Auth.create_result_iff] at hgranted
    obtain ⟨hcheck, htoken, hid⟩ := hgranted
    exact ⟨hrole, by rw [hr]; rfl, hcheck, htoken, hid, congrArg Prod.fst heq⟩
  · rw [h] at heq
    cases heq

/-- The file right after a bootstrap holds the record of the key it has drawn. -/
theorem bootstrap_stored {before : List SiteEvent} {boot : BootstrapFlags} {draw : Draw}
    {s₀ s₁ : Store} {token keyID : Bytes} (hstopped : siteAfter inst before = .stopped s₀)
    (hboot : runBootstrap inst.host boot draw s₀ = (s₁, .ok (token, keyID))) :
    let q := bootstrapRequest boot draw
    drawnIn inst (before ++ [.bootstrap boot draw]) = drawnIn inst before ++ [q.keyID] ∧
      (siteAfter inst (before ++ [.bootstrap boot draw])).store.get Auth.keysBucket q.keyID =
        some (q.record inst.host.sha256).marshal := by
  obtain ⟨hrole, hopens, hcheck, rfl, rfl, rfl⟩ := runBootstrap_eq_ok hboot
  constructor
  · rw [drawnIn_concat, hstopped]
    simp only [Site.ops, if_pos (And.intro hrole hopens), draws, List.flatMap_cons,
      List.flatMap_nil, Op.draws, Auth.drawnID_create hcheck, Option.toList, List.append_nil]
  · have hdone : (siteAfter inst (before ++ [.bootstrap boot draw])).store =
        (Auth.createKeyWithExpiry inst.host.sha256 s₀ (bootstrapRequest boot draw)).1 := by
      rw [siteAfter_concat, hstopped]
      simp only [stepSite, Site.store, hboot]
    rw [hdone, Auth.get_create hcheck, if_pos ⟨rfl, rfl⟩]

/-- **A bootstrap lasts.** After a bootstrap, whatever processes open the file
later and whatever their requests do: its token authenticates, at any time, as
long as its key is in the store; and whichever keys are revoked, an
administrator's key stays, so a start of the server takes nothing but valid
flags, certificates, free addresses and a database that opens. -/
theorem bootstrap_lasts {before after : List SiteEvent} {boot : BootstrapFlags} {draw : Draw}
    {s₀ s₁ : Store} {token keyID : Bytes} (hstopped : siteAfter inst before = .stopped s₀)
    (hboot : runBootstrap inst.host boot draw s₀ = (s₁, .ok (token, keyID)))
    (hdistinct : (drawnIn inst (before ++ .bootstrap boot draw :: after)).Nodup) :
    let s := (siteAfter inst (before ++ .bootstrap boot draw :: after)).store
    (s.get Auth.keysBucket keyID = none ∨
      ∀ now, Auth.authenticateAt inst.host.sha256 s token now =
        .ok ⟨keyID, boot.name, Auth.roleAdmin⟩) ∧
    Auth.hasAdminKey s = .ok true ∧
    ∀ around flags, (∃ chain, runServe inst around flags s = .ok chain) ↔
      Startable inst around flags s := by
  intro s
  obtain ⟨hdrawn, hget⟩ := bootstrap_stored hstopped hboot
  obtain ⟨-, -, hcheck, rfl, rfl, -⟩ := runBootstrap_eq_ok hboot
  have hsplit : before ++ SiteEvent.bootstrap boot draw :: after =
      (before ++ [.bootstrap boot draw]) ++ after := by simp
  have hadmin : Auth.AdminRecord s := by
    show Auth.AdminRecord (siteAfter inst _).store
    rw [hsplit] at hdistinct ⊢
    refine site_kept (adminRecord_kept inst.host.toWorld) hdistinct ?_
    exact ⟨_, _, ⟨_, hget, Auth.unmarshal_record hcheck⟩, rfl⟩
  have honly : OnlyRecord (bootstrapRequest boot draw).keyID
      ((bootstrapRequest boot draw).record inst.host.sha256).marshal
      (drawnIn inst (before ++ .bootstrap boot draw :: after)) s := by
    show OnlyRecord _ _ _ (siteAfter inst _).store
    rw [hsplit] at hdistinct ⊢
    refine site_kept (onlyRecord_kept inst.host.toWorld _ _) hdistinct ⟨?_, ?_⟩
    · rw [hdrawn]
      exact List.mem_append_right _ List.mem_cons_self
    · intro b hb
      rw [hget] at hb
      exact (Option.some.inj hb).symm
  have hknown := site_keysKnown inst (before ++ .bootstrap boot draw :: after)
  have hhas := hknown.minted.hasAdminKey_iff.mpr hadmin
  refine ⟨?_, hhas, ?_⟩
  · cases hb : s.get Auth.keysBucket (bootstrapRequest boot draw).keyID with
    | none => exact .inl rfl
    | some b =>
        right
        intro now
        cases honly.2 b hb
        refine Auth.authenticateAt_eq_ok_iff.mpr ⟨_, _, _, Auth.parseToken_token _,
          ⟨_, hb, Auth.unmarshal_record hcheck⟩, rfl, ?_, rfl⟩
        rfl
  · intro around flags
    constructor
    · rintro ⟨chain, hrun⟩
      exact (runServe_eq_ok_iff.mp hrun).1
    · intro hstart
      obtain ⟨r, hr⟩ := hstart.opens
      exact ⟨_, runServe_eq_ok_iff.mpr ⟨hstart, fun _ => hhas, r, hr, rfl⟩⟩

/-- The desk's server, killed after the session, starts again. -/
theorem bootstrap_lasts_desk :
    ∃ chain, runServe deskInstallation deskAround deskFlags
      (siteAfter deskInstallation (deskBoot :: (deskSession ++ [.stop]))).store = .ok chain := by
  have hruns : (drawnIn deskInstallation (deskBoot :: (deskSession ++ [.stop]))).Nodup ∧
      (newRegistry deskHost.env
        (siteAfter deskInstallation (deskBoot :: (deskSession ++ [.stop]))).store).toOption.isSome ∧
      ((runBootstrap deskHost {} (deskDraw deskRoot.rand) .empty).2.toOption.isSome) := by
    decide +kernel
  obtain ⟨hdistinct, hopens, hgranted⟩ := hruns
  cases hboot : runBootstrap deskHost {} (deskDraw deskRoot.rand) .empty with
  | mk s₁ res =>
      rw [hboot] at hgranted
      cases res with
      | error e => cases hgranted
      | ok granted =>
          obtain ⟨token, keyID⟩ := granted
          have hstopped : siteAfter deskInstallation [] = .stopped .empty := rfl
          refine ((bootstrap_lasts hstopped hboot hdistinct).2.2 _ _).mpr ?_
          exact
            { valid := ⟨by decide, by decide, by decide, by decide,
                .inr ⟨ascii "127.0.0.1", [127, 0, 0, 1], by decide, by decide, by decide⟩, nofun⟩
              opens := exists_of_isSome hopens
              metrics := .inr rfl
              tls := fun _ => ⟨by decide, by decide, rfl⟩
              free := rfl }

/-! ## Where keys come from -/

/-- The event is run by someone with access to the file, or by a server that
lets anyone in. -/
def Site.Operator : Site → SiteEvent → Prop
  | .stopped _, .bootstrap _ _ => True
  | .stopped _, .embedded _ => True
  | .serving flags _, .request _ => flags.insecure = true
  | _, _ => False

/-- Request `i` of a secured server stands before the check, and the check, with
the store and the clock of this step, accepts it: it comes with the token of an
administrator's key that is live in the store then. -/
structure AdminChecked (inst : Installation) (history : List SiteEvent) (flags : ServeFlags)
    (i : Nat) (tick : Tick) (inc : Incoming) (rec : KeyRecord) : Prop where
  secured : flags.insecure = false
  standing : ∃ chain a, siteAfter inst history = .serving flags chain ∧
    chain.requests[i]? = some a ∧ a.incoming = inc ∧ a.stage = .holding
  accepted : ∃ p, authInterceptor inst.host.sha256 (siteAfter inst history).store tick.now
    inc.method.fullName inc.metadata = .ok p
  live : ∃ token, bearerToken inc.metadata = .ok token ∧
    LiveKey inst.host.sha256 (siteAfter inst history).store tick.now token rec
  admin : rec.role = Auth.roleAdmin

/-- A key of a history goes back to an operator: an operator has made it, or it
was made for a request that the same server had checked, by an earlier step,
against the live key of an administrator, which itself goes back to an operator. -/
inductive Descends (inst : Installation) : List SiteEvent → Bytes → Prop
  | operator {before after : List SiteEvent} {e : SiteEvent} {k : Bytes}
      (hop : (siteAfter inst before).Operator e)
      (hk : k ∈ draws ((siteAfter inst before).ops inst e)) :
      Descends inst (before ++ e :: after) k
  | granted {earlier later after : List SiteEvent} {i : Nat} {checked tick : Tick}
      {flags : ServeFlags} {chain : Chain} {a : Active} {rec : KeyRecord} {k : Bytes}
      (hcheck : AdminChecked inst earlier flags i checked a.incoming rec)
      (hparent : Descends inst earlier rec.keyID) (hstays : SiteEvent.stop ∉ later)
      (hsite : siteAfter inst (earlier ++ .request (.advance i checked) :: later) =
        .serving flags chain)
      (ha : chain.requests[i]? = some a) (hk : k ∈ draws (chainOps chain (.advance i tick))) :
      Descends inst
        (earlier ++ .request (.advance i checked) :: later ++
          .request (.advance i tick) :: after) k

theorem Descends.later (h : Descends inst history k) (more : List SiteEvent) :
    Descends inst (history ++ more) k := by
  cases h with
  | operator hop hk =>
      rw [List.append_assoc, List.cons_append]
      exact .operator hop hk
  | granted hcheck hparent hstays hsite ha hk =>
      rw [List.append_assoc, List.cons_append]
      exact .granted hcheck hparent hstays hsite ha hk

/-- Request `i` of the running server was checked against an administrator's key
that goes back to an operator. -/
def Vouched (inst : Installation) (history : List SiteEvent) (flags : ServeFlags) (i : Nat)
    (inc : Incoming) : Prop :=
  ∃ earlier tick later rec, history = earlier ++ .request (.advance i tick) :: later ∧
    SiteEvent.stop ∉ later ∧ AdminChecked inst earlier flags i tick inc rec ∧
    Descends inst earlier rec.keyID

theorem Vouched.concat {i : Nat} {inc : Incoming} (h : Vouched inst history flags i inc)
    {e : SiteEvent} (he : e ≠ .stop) : Vouched inst (history ++ [e]) flags i inc := by
  obtain ⟨earlier, tick, later, record, rfl, hstays, hrest⟩ := h
  refine ⟨earlier, tick, later ++ [e], record, by simp, ?_, hrest⟩
  rw [List.mem_append, List.mem_singleton, not_or]
  exact ⟨hstays, he.symm⟩

/-- The request is between its check and its handler. -/
def Stage.Passed (s : Stage) : Prop := s = .authorized ∨ s = .ready

/-- In a secured server, who is past the check of a method for administrators is
vouched for. -/
def AllVouched (inst : Installation) (history : List SiteEvent) : Prop :=
  ∀ flags chain, siteAfter inst history = .serving flags chain → flags.insecure = false →
    ∀ i a, chain.requests[i]? = some a → a.stage.Passed →
      a.incoming.method.minRole = some Auth.roleAdmin → Vouched inst history flags i a.incoming

def AllDescend (inst : Installation) (history : List SiteEvent) : Prop :=
  ∀ k b, (siteAfter inst history).store.get Auth.keysBucket k = some b → Descends inst history k

/-- The check vouches for a request, with what the file holds then. -/
theorem vouched_of_check {i : Nat} {tick : Tick} {a : Active} {p : Option Auth.Principal}
    (hall : AllDescend inst history) (hsecure : flags.insecure = false)
    (hsite : siteAfter inst history = .serving flags chain) (ha : chain.requests[i]? = some a)
    (hs : a.stage = .holding) (hneed : a.incoming.method.minRole = some Auth.roleAdmin)
    (h : authInterceptor inst.host.sha256 (siteAfter inst history).store tick.now
      a.incoming.method.fullName a.incoming.metadata = .ok p) :
    Vouched inst (history ++ [.request (.advance i tick)]) flags i a.incoming := by
  have hm := (site_keysKnown inst history).minted
  rcases authInterceptor_eq_ok h with hhealth | ⟨token, record, need, htoken, hlive, hreq, hle⟩
  · rw [isPublicHealthMethod_fullName hhealth] at hneed
    cases hneed
  · rw [requiredRole_fullName, hneed] at hreq
    cases hreq
    have hrole : record.role = Auth.roleAdmin := Int.le_antisymm (hlive.role_le hm) hle
    refine ⟨history, tick, [], record, rfl, List.not_mem_nil,
      ⟨hsecure, ⟨chain, a, hsite, ha, rfl, hs⟩, ⟨p, h⟩, ⟨token, htoken, hlive⟩, hrole⟩, ?_⟩
    obtain ⟨id, _, _, hstored, _⟩ := hlive
    obtain ⟨q, _, rfl, rfl⟩ := hm.stored hstored
    obtain ⟨b, hb, _⟩ := hstored
    exact hall _ b hb

/-- A step of a request past the check was one before it, or is the check. -/
theorem Advances.passed {svc : Service} {st st' : Chain} {a a' : Active} {tick : Tick}
    (h : Advances svc st a tick st' a') (hpassed : a'.stage.Passed) :
    a.stage.Passed ∨ svc.secure = false ∨
      (a.stage = .holding ∧ ∃ p, authInterceptor svc.host.sha256 st.registry.store tick.now
        a.incoming.method.fullName a.incoming.metadata = .ok p) := by
  cases h with
  | authorized hs _ h => exact .inr (.inr ⟨hs, _, h⟩)
  | unchecked _ hoff => exact .inr (.inl hoff)
  | ready hs _ => exact .inl (.inl hs)
  | ended _ => exact .inl hpassed
  | lapsed _ _ | bounded _ _ | full _ _ | acquired _ _ | denied _ _ _ | limited _ _ | handled _ _
  | released _ | answered _ | left _ | counted _ | logged _ =>
      rcases hpassed with hs | hs <;> cases hs

/-- A server that goes on serving has not been stopped. -/
theorem ne_stop_of_serving {e : SiteEvent} {chain₀ : Chain}
    (h : stepSite inst (.serving flags chain₀) e = .serving flags chain) : e ≠ .stop := by
  rintro rfl
  cases h

theorem allVouched_step (hall : AllDescend inst history) (hvouched : AllVouched inst history)
    (e : SiteEvent) : AllVouched inst (history ++ [e]) := by
  intro flags chain h hsecure i a ha hpassed hneed
  rw [siteAfter_concat] at h
  rcases serving_of_step h with ⟨around, s, _, rfl, hrun⟩ | ⟨chain₀, hs, hnext⟩
  · obtain ⟨_, _, r, _, rfl⟩ := runServe_eq_ok_iff.mp hrun
    cases ha
  · rw [hs] at h
    have hgoes := ne_stop_of_serving h
    have hold := hvouched flags chain₀ hs hsecure i
    rcases hnext with rfl | ⟨e', rfl, rfl⟩
    · exact (hold a ha hpassed hneed).concat hgoes
    · rcases request_origin ha with
        hnew | ⟨a₀, ha₀, ⟨ctxErr, rfl⟩ | ⟨tick, st', rfl, hadv, _⟩⟩
      · -- the request has just come in, so it is before the check
        rw [hnew] at hpassed
        rcases hpassed with hs | hs <;> cases hs
      · exact (hold a₀ ha₀ hpassed hneed).concat hgoes
      · rw [hadv.incoming] at hneed ⊢
        rcases hadv.passed hpassed with hb | hoff | ⟨hholding, p, hp⟩
        · exact (hold a₀ ha₀ hb hneed).concat hgoes
        · rw [ServeFlags.service, hsecure] at hoff
          cases hoff
        · have hstore : chain₀.registry.store = (siteAfter inst history).store := by
            rw [hs]
            rfl
          rw [hstore] at hp
          exact vouched_of_check hall hsecure hs ha₀ hholding hneed hp

theorem opRole_of_draws {op : Op} (h : k ∈ op.draws) : opRole op = Auth.roleAdmin := by
  cases op with
  | key call => rfl
  | register _ _ | call _ | restart => exact absurd h List.not_mem_nil

theorem opOf_of_context {inputs : Inputs} {ctx : Readings Query.CtxErr} {givesUp : Bool}
    {m : Method} {req : m.Request} {op : Op} (h : opOfContext inputs ctx givesUp m req = some op) :
    opOf inputs m req = some op := by
  cases m with
  | putSchema =>
      simp only [opOfContext] at h
      split at h
      · cases h
      · exact h
  | listSchemas | createCollection | listCollections | insert | get | update | delete | query
  | createKey | listKeys | revokeKey | healthCheck | healthList => exact h

/-- A key that an event draws goes back to an operator. -/
theorem descends_of_draw (hvouched : AllVouched inst history) {e : SiteEvent}
    (hk : k ∈ draws ((siteAfter inst history).ops inst e)) :
    Descends inst (history ++ [e]) k := by
  by_cases hop : (siteAfter inst history).Operator e
  · exact .operator hop hk
  · cases hs : siteAfter inst history with
    | stopped s =>
        rw [hs] at hop hk
        cases e with
        | bootstrap _ _ | embedded _ => exact absurd trivial hop
        | serve _ _ | request _ | stop => exact absurd hk List.not_mem_nil
    | serving flags chain =>
        rw [hs] at hop hk
        cases e with
        | bootstrap _ _ | embedded _ | serve _ _ | stop => exact absurd hk List.not_mem_nil
        | request e =>
            have hsecure : flags.insecure = false := Bool.not_eq_true _ ▸ hop
            obtain ⟨op, hmem, hdraw⟩ := List.mem_flatMap.mp hk
            obtain ⟨i, tick, a, rfl, ha, hready, hopof⟩ := mem_chainOps hmem
            have hneed := minRole_of_op (opOf_of_context hopof)
            rw [opRole_of_draws hdraw] at hneed
            obtain ⟨earlier, checked, later, record, rfl, hstays, hcheck, hparent⟩ :=
              hvouched flags chain hs hsecure i a ha (.inr hready) hneed
            exact .granted hcheck hparent hstays hs ha hk

theorem all_descend (inst : Installation) (history : List SiteEvent) :
    AllDescend inst history ∧ AllVouched inst history := by
  induction history using List.reverseRecOn with
  | nil =>
      refine ⟨fun k b h => ?_, fun flags chain h => ?_⟩
      · have hempty : (Storage.Store.empty : Store).get Auth.keysBucket k = some b := h
        rw [Storage.Store.get_empty] at hempty
        cases hempty
      · cases h
  | append_singleton history e ih =>
      refine ⟨fun k b h => ?_, allVouched_step ih.1 ih.2 e⟩
      obtain ⟨r, hr, hstore⟩ := stepSite_store inst (siteAfter inst history) e
      have hm := (site_keysKnown inst history).minted
      rw [← hr] at hm
      rw [siteAfter_concat, hstore] at h
      rcases get_key_run hm h with ⟨b', hb'⟩ | hdrawn
      · rw [hr] at hb'
        exact (ih.1 k b' hb').later [e]
      · exact descends_of_draw ih.2 hdrawn

/-- **No key from nowhere.** In every history, every key the file holds goes back
to an operator, through requests of administrators whose keys were live in the
store at the step that checked them. -/
theorem keys_descend {rec : KeyRecord}
    (h : Auth.Stored (siteAfter inst history).store k rec) : Descends inst history k := by
  obtain ⟨b, hb, _⟩ := h
  exact (all_descend inst history).1 k b hb

/-- The writer's key goes back to the bootstrap. -/
theorem keys_descend_desk :
    Descends deskInstallation (deskBoot :: deskSession) deskWriter.keyID := by
  have hstored : (((siteAfter deskInstallation (deskBoot :: deskSession)).store.get Auth.keysBucket
      deskWriter.keyID).bind KeyRecord.unmarshal).isSome = true := by
    decide +kernel
  obtain ⟨record, hrecord⟩ := Option.isSome_iff_exists.mp hstored
  exact keys_descend (Option.bind_eq_some_iff.mp hrecord)

end KoraDB.Server
