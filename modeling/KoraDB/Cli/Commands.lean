import KoraDB.Cli.Backend

/-!
# The commands (`cmd/KoraDB/main.go`)

A command checks its arguments, makes one call of the backend and prints what it
returned. A `Job` is such a call with its printing; `command` finds the job of a
command line.
-/

namespace KoraDB.Cli

open KoraDB.Base KoraDB.Catalog KoraDB.Schema KoraDB.Engine KoraDB.Server KoraDB.System

/-- What the commands take from other packages: `%q`, and RFC 3339 as `time`
writes and reads it. -/
structure Terminal where
  quote : Bytes → Bytes
  formatTime : Int → Bytes
  parseTime : Bytes → Option Time

inductive CommandErr
  | usage (text : Bytes)
  | needsValue (flag : Bytes)
  | unknownCommand (command : Bytes)
  | unknownSubcommand (command sub : Bytes)
  | unknownFlag (command flag : Bytes)
  | readFile (path : Bytes)
  | stdin
  | tlsCA (path : Bytes)
  | noCertificates (path : Bytes)
  | plaintextToken
  | opening (e : SchemaErr)
  | key (e : CliErr)
  | query (e : QueryCmdErr)
  | backend (e : BackendErr)
  deriving DecidableEq

/-- A call of the backend, and what is printed of its result. -/
structure Job where
  op : Operation
  print : op.Result → Bytes

variable (t : Terminal) (p : Process)

/-- `cmdSchema`. -/
def cmdSchema : List Bytes → Except CommandErr Job
  | [] => .error (.usage (ascii "schema: expected `add` or `list`"))
  | sub :: args =>
    if sub = ascii "add" then
      match args with
      | [name, path] => do
        let src ← orErr (p.readFile path) (.readFile path)
        return ⟨.putSchema name src, fun (v : Int) => ascii "registered schema " ++ t.quote name ++
          ascii " (version " ++ formatInt v ++ ascii ")\n"⟩
      | _ => .error (.usage (ascii "usage: schema add <name> <file.proto>"))
    else if sub = ascii "list" then
      .ok ⟨.listSchemas, fun (rows : List SchemaRow) => rows.flatMap fun s =>
        s.name ++ ascii "\tv" ++ formatInt s.version ++ ascii "\n"⟩
    else .error (.unknownSubcommand (ascii "schema") sub)

def keyFieldFlag : Bytes := ascii "--key-field="
def indexFlag : Bytes := ascii "--index="

/-- One flag of `collection create`, onto the key field and the indexes so
far. -/
def parseCollectionFlag (acc : Bytes × List Bytes) (a : Bytes) :
    Except CommandErr (Bytes × List Bytes) :=
  if keyFieldFlag.isPrefixOf a then .ok (a.drop keyFieldFlag.length, acc.2)
  else if indexFlag.isPrefixOf a then .ok (acc.1, (a.drop indexFlag.length).splitOn 0x2C)
  else .error (.unknownFlag (ascii "collection create") a)

/-- A row of `collection list`. -/
def printCollection (c : CollRow) : Bytes :=
  c.name ++ ascii "\ttype=" ++ c.messageType ++ ascii " key=" ++ c.keyKind ++
    (if c.indexes = [] then [] else ascii " indexes=" ++ [0x2C].intercalate c.indexes) ++
    ascii "\n"

/-- `cmdCollection`. -/
def cmdCollection : List Bytes → Except CommandErr Job
  | [] => .error (.usage (ascii "collection: expected `create` or `list`"))
  | sub :: args =>
    if sub = ascii "create" then
      match args with
      | name :: msgType :: flags => do
        let (keyField, indexes) ← flags.foldlM parseCollectionFlag ([], [])
        return ⟨.createCollection name msgType keyField indexes, fun _ =>
          ascii "created collection " ++ t.quote name ++ ascii " (type " ++ msgType ++
            ascii ")\n"⟩
      | _ => .error (.usage (ascii ("usage: collection create <name> <messageType> " ++
          "[--key-field=F] [--index=F1,F2]")))
    else if sub = ascii "list" then
      .ok ⟨.listCollections, fun (rows : List CollRow) => rows.flatMap printCollection⟩
    else .error (.unknownSubcommand (ascii "collection") sub)

/-- A document as it is given, or the standard input for `-`. -/
def document (doc : Bytes) : Except CommandErr Bytes :=
  if doc = ascii "-" then orErr p.stdin .stdin else .ok doc

/-- `cmdInsert`. -/
def cmdInsert : List Bytes → Except CommandErr Job
  | [coll, doc] => do
    let doc ← document p doc
    return ⟨.insert coll doc, fun (id : Bytes) => ascii "inserted id=" ++ id ++ ascii "\n"⟩
  | _ =>
    .error (.usage (ascii "usage: insert <collection> <json>  (use - to read JSON from stdin)"))

/-- `cmdGet`. -/
def cmdGet : List Bytes → Except CommandErr Job
  | [coll, id] => .ok ⟨.get coll id, fun (json : Bytes) => json ++ ascii "\n"⟩
  | _ => .error (.usage (ascii "usage: get <collection> <id>"))

/-- `cmdUpdate`. -/
def cmdUpdate : List Bytes → Except CommandErr Job
  | [coll, id, doc] => do
    let doc ← document p doc
    return ⟨.update coll id doc, fun _ => ascii "updated\n"⟩
  | _ => .error (.usage (ascii ("usage: update <collection> <id> <json>  " ++
      "(use - to read JSON from stdin)")))

/-- `cmdDelete`. -/
def cmdDelete : List Bytes → Except CommandErr Job
  | [coll, id] => .ok ⟨.delete coll id, fun _ => ascii "deleted\n"⟩
  | _ => .error (.usage (ascii "usage: delete <collection> <id>"))

/-- `cmdBackup`; its work on the file system is in `Recovery.cmdBackup`. -/
def cmdBackup : List Bytes → Except CommandErr Job
  | [output] => .ok ⟨.backup output, fun _ => ascii "backup written to " ++ output ++ ascii "\n"⟩
  | _ => .error (.usage (ascii "usage: backup <output.db>"))

/-- `cmdVerify`. -/
def cmdVerify : List Bytes → Except CommandErr Job
  | [] => .ok ⟨.verify, fun _ => ascii "storage integrity verified\n"⟩
  | _ => .error (.usage (ascii "usage: verify"))

/-- What `cmdQuery` prints. -/
def printPage (page : TextPage) : Bytes :=
  formatUint page.results.length ++ ascii " result(s):\n" ++
    (page.results.flatMap fun r => ascii "  [" ++ r.id ++ ascii "] " ++ r.json ++ ascii "\n") ++
    if page.nextPageToken = [] then []
    else ascii "next_page_token=" ++ page.nextPageToken ++ ascii "\n"

/-- The call of `cmdQuery`, which `Cli.cmdQuery` has with its result. -/
def queryJob (args : List Bytes) : Except CommandErr Job := do
  let q ← wrap (parseQuery args) .query
  return ⟨.queryPage q.coll q.field q.op q.value q.pageSize q.pageToken, printPage⟩

/-- A row of `key list`. -/
def printKey (k : KeyRow) : Bytes :=
  k.keyID ++ ascii "\t" ++ k.role ++ ascii "\texpires=" ++
    (if k.expiresUnix = 0 then ascii "never" else t.formatTime k.expiresUnix) ++ ascii "\t" ++
    k.name ++ ascii "\n"

/-- The error of `key create`. -/
def keyCreateErr : CliErr → CommandErr
  | .usage => .usage (ascii ("usage: key create <name> <role> [--expires-at=RFC3339]   " ++
      "(role: readonly|readwrite|admin)"))
  | e => .key e

/-- `cmdKey`. -/
def cmdKey : List Bytes → Except CommandErr Job
  | [] => .error (.usage (ascii "key: expected `create`, `list`, or `revoke`"))
  | sub :: args =>
    if sub = ascii "create" then do
      let (name, role, expiresAtUnix) ← wrap (parseKeyCreate t.parseTime args) keyCreateErr
      return ⟨.createKey name role expiresAtUnix, fun (resp : CreateKeyResponse) =>
        ascii "created key id=" ++ resp.keyID ++ ascii "\n\n  " ++ resp.token ++
          ascii "\n\nShown once " ++ [0xE2, 0x80, 0x94] ++ ascii " store it securely.\n"⟩
    else if sub = ascii "list" then
      .ok ⟨.listKeys, fun (rows : List KeyRow) => rows.flatMap (printKey t)⟩
    else if sub = ascii "revoke" then
      match args with
      | [keyID] => .ok ⟨.revokeKey keyID, fun _ => ascii "revoked\n"⟩
      | _ => .error (.usage (ascii "usage: key revoke <key-id>"))
    else .error (.unknownSubcommand (ascii "key") sub)

/-- The `switch` of `run`: the job of a command, or none when it prints the
usage. -/
def command (cmd : Bytes) (args : List Bytes) : Except CommandErr (Option Job) :=
  if cmd = ascii "schema" then (cmdSchema t p args).map some
  else if cmd = ascii "collection" then (cmdCollection t args).map some
  else if cmd = ascii "insert" then (cmdInsert p args).map some
  else if cmd = ascii "get" then (cmdGet args).map some
  else if cmd = ascii "update" then (cmdUpdate p args).map some
  else if cmd = ascii "delete" then (cmdDelete args).map some
  else if cmd = ascii "backup" then (cmdBackup args).map some
  else if cmd = ascii "verify" then (cmdVerify args).map some
  else if cmd = ascii "query" then (queryJob args).map some
  else if cmd = ascii "key" then (cmdKey t args).map some
  else if cmd = ascii "help" ∨ cmd = ascii "-h" ∨ cmd = ascii "--help" then .ok none
  else .error (.unknownCommand cmd)

end KoraDB.Cli
