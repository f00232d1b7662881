import KoraDB.Cli.Commands

/-!
# The arguments (`run`, `openBackend` and `clientTLS` of `cmd/KoraDB/main.go`)

Global flags may stand anywhere on a command line, with their value behind `=`
or in the next argument. `run` takes them out in one pass and the rest is the
command. `Item` is the grammar of such lines, and `plan_exact` says that the
pass reads exactly this grammar, and where the command goes then: a token is
never sent without TLS.
-/

namespace KoraDB.Cli

open KoraDB.Base

/-! ## The pass -/

/-- The global flags that take a value. -/
inductive ValueFlag
  | db | server | token | tlsCA | tlsServerName
  deriving DecidableEq, Repr

def ValueFlag.text : ValueFlag → Bytes
  | .db => ascii "--db"
  | .server => ascii "--server"
  | .token => ascii "--token"
  | .tlsCA => ascii "--tls-ca"
  | .tlsServerName => ascii "--tls-server-name"

/-- The order of the cases of `run`. -/
def ValueFlag.all : List ValueFlag := [.db, .server, .token, .tlsCA, .tlsServerName]

def skipVerifyFlag : Bytes := ascii "--tls-skip-verify"

/-- The variables of `run`, with their first values. -/
structure Globals where
  dbPath : Bytes := ascii "KoraDB.db"
  serverAddr : Bytes := []
  token : Bytes
  tlsCA : Bytes := []
  tlsServerName : Bytes := []
  tlsSkipVerify : Bool := false
  rest : List Bytes := []

def Globals.set (g : Globals) (value : Bytes) : ValueFlag → Globals
  | .db => { g with dbPath := value }
  | .server => { g with serverAddr := value }
  | .token => { g with token := value }
  | .tlsCA => { g with tlsCA := value }
  | .tlsServerName => { g with tlsServerName := value }

/-- What an argument is to the `switch` of `run`. -/
inductive Reading
  | assigned (flag : ValueFlag) (value : Bytes)
  | awaiting (flag : ValueFlag)
  | skipVerify
  | word
  deriving DecidableEq

def readArg (a : Bytes) : Reading :=
  match ValueFlag.all.find? fun flag => (flag.text ++ [0x3D]).isPrefixOf a || a == flag.text with
  | some flag =>
    if a = flag.text then .awaiting flag else .assigned flag (a.drop (flag.text.length + 1))
  | none => if a = skipVerifyFlag then .skipVerify else .word

/-- The loop of `run`. -/
def parseGlobals : Globals → List Bytes → Except CommandErr Globals
  | g, [] => .ok g
  | g, a :: args =>
    match readArg a with
    | .assigned flag value => parseGlobals (g.set value flag) args
    | .awaiting flag =>
      match args with
      | [] => .error (.needsValue a)
      | value :: args => parseGlobals (g.set value flag) args
    | .skipVerify => parseGlobals { g with tlsSkipVerify := true } args
    | .word => parseGlobals { g with rest := g.rest ++ [a] } args

/-! ## Where a command goes -/

structure TlsConfig where
  serverName : Bytes
  insecureSkipVerify : Bool
  rootCAs : Option Bytes
  deriving DecidableEq

/-- `clientTLS`; `hasCerts` is `AppendCertsFromPEM`. -/
def clientTLS (p : Process) (hasCerts : Bytes → Bool) (g : Globals) :
    Except CommandErr (Option TlsConfig) :=
  if g.tlsCA = [] ∧ g.tlsServerName = [] ∧ g.tlsSkipVerify = false then .ok none
  else if g.tlsCA = [] then .ok (some ⟨g.tlsServerName, g.tlsSkipVerify, none⟩)
  else do
    let caPEM ← orErr (p.readFile g.tlsCA) (.tlsCA g.tlsCA)
    reject (!hasCerts caPEM) (.noCertificates g.tlsCA)
    return some ⟨g.tlsServerName, g.tlsSkipVerify, some caPEM⟩

/-- The backend that `openBackend` opens. -/
inductive Target
  | embedded (path : Bytes)
  | remote (addr token : Bytes) (tls : Option TlsConfig)
  deriving DecidableEq

/-- `openBackend`. -/
def openBackend (g : Globals) (tls : Option TlsConfig) : Except CommandErr Target :=
  if g.serverAddr = [] then .ok (.embedded g.dbPath)
  else do
    reject (g.token != [] && tls.isNone) .plaintextToken
    return .remote g.serverAddr g.token tls

/-- What a command line comes to. -/
inductive Plan
  | usage
  | version
  | on (target : Target) (cmd : Bytes) (args : List Bytes)
  deriving DecidableEq

/-- `run` behind its loop, up to its `switch`. -/
def planOf (p : Process) (hasCerts : Bytes → Bool) (g : Globals) : Except CommandErr Plan :=
  match g.rest with
  | [] => .ok .usage
  | cmd :: words =>
    if cmd = ascii "version" then
      if words = [] then .ok .version else .error (.usage (ascii "usage: version"))
    else do
      let tls ← clientTLS p hasCerts g
      let target ← openBackend g tls
      return .on target cmd words

/-- `run` up to its `switch`, with the token of the environment. -/
def plan (p : Process) (hasCerts : Bytes → Bool) (envToken : Bytes) (args : List Bytes) :
    Except CommandErr Plan := do
  let g ← parseGlobals { token := envToken } args
  planOf p hasCerts g

theorem openBackend_eq_ok_iff {g : Globals} {tls : Option TlsConfig} {target : Target} :
    openBackend g tls = .ok target ↔
      g.serverAddr = [] ∧ target = .embedded g.dbPath ∨
        g.serverAddr ≠ [] ∧ target = .remote g.serverAddr g.token tls ∧
          (g.token ≠ [] → tls ≠ none) := by
  unfold openBackend
  by_cases hserver : g.serverAddr = []
  · rw [if_pos hserver, Except.ok.injEq]
    simp [hserver, eq_comm]
  · rw [if_neg hserver]
    simp only [bind_eq_ok_iff, reject_eq_ok_iff, Bool.and_eq_false_imp, bne_iff_ne,
      Option.isNone_eq_false_iff, pure, Except.pure, Except.ok.injEq]
    constructor
    · rintro ⟨_, hguard, rfl⟩
      exact .inr ⟨hserver, rfl, fun hne => Option.isSome_iff_ne_none.mp (hguard hne)⟩
    · rintro (⟨hnone, _⟩ | ⟨_, rfl, hguard⟩)
      · exact absurd hnone hserver
      · exact ⟨(), fun hne => Option.isSome_iff_ne_none.mpr (hguard hne), rfl⟩

/-- A command goes on when it is there, is not `version`, and its backend
opens. -/
theorem planOf_eq_on_iff {p : Process} {hasCerts : Bytes → Bool} {g : Globals} {target : Target}
    {cmd : Bytes} {words : List Bytes} :
    planOf p hasCerts g = .ok (.on target cmd words) ↔
      g.rest = cmd :: words ∧ cmd ≠ ascii "version" ∧
        ∃ tls, clientTLS p hasCerts g = .ok tls ∧ openBackend g tls = .ok target := by
  unfold planOf
  cases hrest : g.rest with
  | nil => simp
  | cons cmd' words' =>
      by_cases hversion : cmd' = ascii "version"
      · simp only [if_pos hversion]
        constructor
        · intro h
          split at h <;> cases h
        · rintro ⟨heq, hne, _⟩
          exact absurd ((List.cons.inj heq).1 ▸ hversion) hne
      · simp only [if_neg hversion, bind_eq_ok_iff, pure, Except.pure, Except.ok.injEq,
          Plan.on.injEq]
        constructor
        · rintro ⟨tls, htls, target', htarget, rfl, rfl, rfl⟩
          exact ⟨rfl, hversion, tls, htls, htarget⟩
        · rintro ⟨heq, _, tls, htls, htarget⟩
          obtain ⟨rfl, rfl⟩ := List.cons.inj heq
          exact ⟨tls, htls, target, htarget, rfl, rfl, rfl⟩

/-! ## The grammar -/

inductive Item
  | assigned (flag : ValueFlag) (value : Bytes)
  | spaced (flag : ValueFlag) (value : Bytes)
  | skipVerify
  | word (w : Bytes)

def Item.args : Item → List Bytes
  | .assigned flag value => [flag.text ++ 0x3D :: value]
  | .spaced flag value => [flag.text, value]
  | .skipVerify => [skipVerifyFlag]
  | .word w => [w]

/-- A word is no flag. -/
def Item.Plain : Item → Prop
  | .word w => readArg w = .word
  | .assigned _ _ | .spaced _ _ | .skipVerify => True

/-- What an item sets. -/
def Globals.take (g : Globals) : Item → Globals
  | .assigned flag value | .spaced flag value => g.set value flag
  | .skipVerify => { g with tlsSkipVerify := true }
  | .word w => { g with rest := g.rest ++ [w] }

theorem readArg_assigned (flag : ValueFlag) (value : Bytes) :
    readArg (flag.text ++ 0x3D :: value) = .assigned flag value := by
  cases flag <;> rfl

theorem readArg_text (flag : ValueFlag) : readArg flag.text = .awaiting flag := by
  cases flag <;> rfl

theorem readArg_skipVerify : readArg skipVerifyFlag = .skipVerify := rfl

/-- An argument is a flag with its value, a flag that awaits one, the flag
without a value, or a word. -/
theorem readArg_cases (a : Bytes) :
    (∃ (flag : ValueFlag) (value : Bytes), a = flag.text ++ 0x3D :: value) ∨
      (∃ flag : ValueFlag, a = flag.text) ∨ a = skipVerifyFlag ∨ readArg a = .word := by
  unfold readArg
  split
  · rename_i flag hfind
    have hmatch := List.find?_some hfind
    rw [Bool.or_eq_true, List.isPrefixOf_iff_prefix, beq_iff_eq] at hmatch
    rcases hmatch with ⟨value, hvalue⟩ | htext
    · rw [List.append_assoc] at hvalue
      exact .inl ⟨flag, value, hvalue.symm⟩
    · exact .inr (.inl ⟨flag, htext⟩)
  · by_cases hskip : a = skipVerifyFlag
    · exact .inr (.inr (.inl hskip))
    · rw [if_neg hskip]
      exact .inr (.inr (.inr rfl))

/-- The pass takes one item after the other. -/
theorem parseGlobals_items {items : List Item} (hplain : ∀ i ∈ items, i.Plain) (g : Globals)
    (tail : List Bytes) :
    parseGlobals g (items.flatMap Item.args ++ tail) =
      parseGlobals (items.foldl Globals.take g) tail := by
  induction items generalizing g with
  | nil => rfl
  | cons i items ih =>
      rw [List.flatMap_cons, List.append_assoc, List.foldl_cons,
        ← ih fun j hj => hplain j (List.mem_cons_of_mem _ hj)]
      have hi := hplain i List.mem_cons_self
      cases i with
      | assigned flag value =>
          simp only [Item.args, List.singleton_append, parseGlobals, readArg_assigned, Globals.take]
      | spaced flag value =>
          simp only [Item.args, List.cons_append, List.nil_append, parseGlobals, readArg_text,
            Globals.take]
      | skipVerify =>
          simp only [Item.args, List.singleton_append, parseGlobals, readArg_skipVerify,
            Globals.take]
      | word w =>
          have hw : readArg w = .word := hi
          simp only [Item.args, List.singleton_append, parseGlobals, hw, Globals.take]

/-- Every line is a sequence of items, up to a last flag without its value. -/
theorem exists_items (args : List Bytes) :
    ∃ items : List Item, (∀ i ∈ items, i.Plain) ∧
      (args = items.flatMap Item.args ∨
        ∃ flag : ValueFlag, args = items.flatMap Item.args ++ [flag.text]) := by
  induction hlen : args.length using Nat.strong_induction_on generalizing args with
  | _ n ih =>
      cases args with
      | nil => exact ⟨[], fun i hi => absurd hi List.not_mem_nil, .inl rfl⟩
      | cons a args =>
          -- an item in front of what the rest is
          have hcons : ∀ (item : Item) (tail : List Bytes), item.Plain →
              a :: args = item.args ++ tail → tail.length < n →
              ∃ items : List Item, (∀ i ∈ items, i.Plain) ∧
                (a :: args = items.flatMap Item.args ∨
                  ∃ flag : ValueFlag, a :: args = items.flatMap Item.args ++ [flag.text]) := by
            intro item tail hplain hargs hlt
            obtain ⟨items, hitems, hrest⟩ := ih _ hlt tail rfl
            refine ⟨item :: items, List.forall_mem_cons.mpr ⟨hplain, hitems⟩, ?_⟩
            rw [hargs, List.flatMap_cons]
            rcases hrest with hrest | ⟨flag, hrest⟩
            · exact .inl (congrArg _ hrest)
            · right
              refine ⟨flag, ?_⟩
              rw [hrest, List.append_assoc]
          have hlt : args.length < n := by
            rw [← hlen]
            exact Nat.lt_succ_self _
          rcases readArg_cases a with ⟨flag, value, rfl⟩ | ⟨flag, rfl⟩ | rfl | hword
          · exact hcons (.assigned flag value) args trivial rfl hlt
          · cases args with
            | nil => exact ⟨[], fun i hi => absurd hi List.not_mem_nil, .inr ⟨flag, rfl⟩⟩
            | cons value args =>
                refine hcons (.spaced flag value) args trivial rfl ?_
                rw [List.length_cons] at hlt
                omega
          · exact hcons .skipVerify args trivial rfl hlt
          · exact hcons (.word a) args hword rfl hlt

/-! ## What the items set -/

/-- The value an item gives to a flag. -/
def Item.valueFor (flag : ValueFlag) : Item → Option Bytes
  | .assigned flag' value | .spaced flag' value => if flag = flag' then some value else none
  | .skipVerify | .word _ => none

def Item.word? : Item → Option Bytes
  | .word w => some w
  | .assigned _ _ | .spaced _ _ | .skipVerify => none

def Item.skips : Item → Bool
  | .skipVerify => true
  | .assigned _ _ | .spaced _ _ | .word _ => false

/-- The last value counts. -/
def valueOf (flag : ValueFlag) (first : Bytes) (items : List Item) : Bytes :=
  (items.filterMap (Item.valueFor flag)).getLast?.getD first

def globalsOf (envToken : Bytes) (items : List Item) : Globals where
  dbPath := valueOf .db (ascii "KoraDB.db") items
  serverAddr := valueOf .server [] items
  token := valueOf .token envToken items
  tlsCA := valueOf .tlsCA [] items
  tlsServerName := valueOf .tlsServerName [] items
  tlsSkipVerify := items.any Item.skips
  rest := items.filterMap Item.word?

theorem valueOf_concat (flag : ValueFlag) (first : Bytes) (items : List Item) (i : Item) :
    valueOf flag first (items ++ [i]) = (i.valueFor flag).getD (valueOf flag first items) := by
  unfold valueOf
  rw [List.filterMap_append]
  cases hi : i.valueFor flag with
  | none => rw [List.filterMap_cons_none hi, List.filterMap_nil, List.append_nil, Option.getD_none]
  | some value =>
      rw [List.filterMap_cons_some hi, List.filterMap_nil, List.getLast?_concat, Option.getD_some,
        Option.getD_some]

theorem foldl_take (envToken : Bytes) (items : List Item) :
    items.foldl Globals.take { token := envToken } = globalsOf envToken items := by
  induction items using List.reverseRecOn with
  | nil => rfl
  | append_singleton items i ih =>
      rw [List.foldl_append, ih]
      simp only [globalsOf, valueOf_concat, List.any_append, List.filterMap_append]
      cases i with
      | assigned flag value | spaced flag value =>
          cases flag <;> simp [Globals.take, Globals.set, Item.valueFor, Item.skips, Item.word?]
      | skipVerify | word w => simp [Globals.take, Item.valueFor, Item.skips, Item.word?]

/-- **Command lines.** Every line is a sequence of items, and `run` takes it so,
unless it ends in a flag without its value, which is refused. A command then is
what is left of the words, in their order; the last value of each flag counts,
wherever it stands. `version` and a line without words go to no backend; any
other command goes to the file without a server and to the server with one,
where a token never goes without TLS. -/
theorem plan_exact (p : Process) (hasCerts : Bytes → Bool) (envToken : Bytes)
    (args : List Bytes) :
    ∃ items : List Item, (∀ i ∈ items, i.Plain) ∧
      ((∃ flag : ValueFlag, args = items.flatMap Item.args ++ [flag.text] ∧
          plan p hasCerts envToken args = .error (.needsValue flag.text)) ∨
        args = items.flatMap Item.args ∧
          ∀ target cmd words, plan p hasCerts envToken args = .ok (.on target cmd words) ↔
            items.filterMap Item.word? = cmd :: words ∧ cmd ≠ ascii "version" ∧
            ∃ tls, clientTLS p hasCerts (globalsOf envToken items) = .ok tls ∧
              let server := valueOf .server [] items
              let token := valueOf .token envToken items
              (server = [] ∧ target = .embedded (valueOf .db (ascii "KoraDB.db") items) ∨
                server ≠ [] ∧ target = .remote server token tls ∧
                  (token ≠ [] → tls ≠ none))) := by
  obtain ⟨items, hplain, hargs⟩ := exists_items args
  refine ⟨items, hplain, ?_⟩
  rcases hargs with rfl | ⟨flag, rfl⟩
  · right
    have hparse := parseGlobals_items hplain { token := envToken } []
    rw [List.append_nil, foldl_take, parseGlobals] at hparse
    refine ⟨rfl, fun target cmd words => ?_⟩
    rw [plan, hparse, ok_bind, planOf_eq_on_iff]
    simp only [openBackend_eq_ok_iff]
    rfl
  · refine .inl ⟨flag, rfl, ?_⟩
    rw [plan, parseGlobals_items hplain, parseGlobals, readArg_text]
    rfl

end KoraDB.Cli
