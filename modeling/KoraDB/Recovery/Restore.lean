import KoraDB.Base.GoTime
import KoraDB.Base.Path
import KoraDB.Base.Steps
import KoraDB.Base.Strconv

/-!
# Restoring a snapshot (`internal/recovery`)

`Restore` as a program over a directory. It copies the snapshot into a staging
file, verifies it there, and publishes it by renames: an existing database first
moves to the rollback path, and back again if the snapshot cannot take its
place. Each change of the directory is a step, after which the process may stop;
`Faults` chooses the steps that fail.
-/

namespace KoraDB.Recovery

open KoraDB.Base KoraDB.Base.Steps

/-! ## The directory -/

/-- What a path names. A symbolic link is given by the bytes of the file it
leads to, `none` if it leads nowhere. -/
inductive Entry
  | file (content : Bytes)
  | directory
  | link (content : Option Bytes)
  deriving DecidableEq, Repr

/-- The entries by cleaned path. -/
abbrev Dir := Bytes → Option Entry

/-- `os.Stat` finds something; it follows links. -/
def present : Option Entry → Bool
  | some (.file _) => true
  | some .directory => true
  | some (.link content) => content.isSome
  | none => false

def put (path : Bytes) (e : Option Entry) (d : Dir) : Dir := fun p => if p = path then e else d p

/-- `os.Rename` moves the entry itself and replaces what was there. -/
def move (src dst : Bytes) (d : Dir) : Dir := put dst (d src) (put src none d)

/-- Bytes written to the end of an open file. -/
def append (path bytes : Bytes) (d : Dir) : Dir :=
  match d path with
  | some (.file content) => put path (some (.file (content ++ bytes))) d
  | _ => d

/-! ## Calls -/

/-- `recovery.Options`; the limit is an `int64`. -/
structure Options where
  maxBytes : Int
  overwrite : Bool
  rollbackPath : Bytes
  maxBytes_lt : maxBytes < 2 ^ 63

/-- A snapshot as its reader delivers it. -/
structure Stream where
  chunks : List Bytes

/-- `bolt.Open` with a check of all pages accepts a file. It cannot open an empty
file for reading only. -/
structure Verifier where
  verify : Bytes → Bool
  verify_empty : verify [] = false

/-- The steps that fail. A write may fail after some of its bytes; writes are
counted from the last. -/
structure Faults where
  stat : Bool := false
  lstat : Bool := false
  online : Bool := false
  createTemp : Bool := false
  chmod : Bool := false
  read : Bool := false
  write : Nat → Option Nat := fun _ => none
  sync : Bool := false
  close : Bool := false
  openStaged : Bool := false
  moveAway : Bool := false
  publish : Bool := false
  moveBack : Bool := false

inductive RestoreErr
  | readerNil
  | sizeLimit
  | destinationRequired
  | inspectDestination
  | destinationIsDirectory
  | destinationExists
  | rollbackNotNeeded
  | rollbackPathRequired
  | rollbackDirectory
  | rollbackIsDestination
  | rollbackPathExists
  | inspectRollback
  | openDestination
  | createStaging
  | secureStaging
  | stage
  | snapshotTooLarge
  | syncStaging
  | closeStaging
  | verifySnapshot
  | moveToRollback
  | publish
  | publishAndRollback
  deriving DecidableEq, Repr

/-- Errors come with the count of bytes written. -/
abbrev RestoreM := StepM (Nat × RestoreErr) Dir

/-! ## `Restore` -/

/-- `validateRollbackPath`. -/
def validateRollbackPath (faults : Faults) (d : Dir) (destination : Bytes)
    (destinationExists : Bool) (options : Options) : Except RestoreErr Bytes :=
  if !destinationExists then
    if options.rollbackPath ≠ [] then .error .rollbackNotNeeded else .ok []
  else if !options.overwrite then .ok []
  else if options.rollbackPath = [] then .error .rollbackPathRequired
  else
    let rollbackPath := Path.clean options.rollbackPath
    if Path.dir rollbackPath ≠ Path.dir destination then .error .rollbackDirectory
    else if rollbackPath = destination then .error .rollbackIsDestination
    else if faults.lstat then .error .inspectRollback
    else if (d rollbackPath).isSome then .error .rollbackPathExists
    else .ok rollbackPath

/-- `os.Rename`. -/
def rename (fails : Bool) (src dst : Bytes) (e : Nat × RestoreErr) : RestoreM Unit := do
  let d ← look
  failIf (fails || (d src).isNone) e
  change (move src dst)

/-- `io.Copy` of a limited reader into the staging file. -/
def copy (faults : Faults) (staged : Bytes) : Nat → Nat → List Bytes → RestoreM Nat
  | limit, written, [] => do
      failIf (faults.read && limit != 0) (written, .stage)
      return written
  | limit, written, chunk :: rest =>
      if limit = 0 then pure written
      else
        let part := chunk.take limit
        match faults.write rest.length with
        | some k => do
            change (append staged (part.take k))
            throw (written + (part.take k).length, .stage)
        | none => do
            change (append staged part)
            copy faults staged (limit - part.length) (written + part.length) rest

/-- The number of bytes the staging file may take, in `int64` arithmetic. -/
def copyLimit (options : Options) : Nat := (wrap64 (options.maxBytes + 1)).toNat

def content (d : Dir) (path : Bytes) : Bytes :=
  match d path with
  | some (.file content) => content
  | _ => []

/-- Fill the staging file and check it. -/
def stage (v : Verifier) (faults : Faults) (stream : Stream) (options : Options) (staged : Bytes) :
    RestoreM Nat := do
  failIf faults.chmod (0, .secureStaging)
  let bytesWritten ← copy faults staged (copyLimit options) 0 stream.chunks
  failIf (decide (options.maxBytes < bytesWritten)) (bytesWritten, .snapshotTooLarge)
  failIf faults.sync (bytesWritten, .syncStaging)
  failIf faults.close (bytesWritten, .closeStaging)
  let d ← look
  failIf (faults.openStaged || !v.verify (content d staged)) (bytesWritten, .verifySnapshot)
  return bytesWritten

/-- The renames. -/
def publish (faults : Faults) (destinationExists : Bool) (destination rollbackPath staged : Bytes)
    (bytesWritten : Nat) : RestoreM Nat := do
  if destinationExists then
    rename faults.moveAway destination rollbackPath (bytesWritten, .moveToRollback)
    recover (rename faults.publish staged destination (bytesWritten, .publish)) fun e => do
      rename faults.moveBack rollbackPath destination (bytesWritten, .publishAndRollback)
      throw e
    return bytesWritten
  else
    rename faults.publish staged destination (bytesWritten, .publish)
    return bytesWritten

/-- The name `os.CreateTemp` makes of a random number, next to the destination. -/
def stagingPath (destination : Bytes) (random : Nat) : Bytes :=
  Path.clean (Path.dir destination ++ Path.slash :: ascii ".koradb-restore-" ++ formatUint random)

/-- What follows the checks: an error removes the staging file. -/
def restoreStaged (v : Verifier) (faults : Faults) (stream : Stream) (options : Options)
    (destinationExists : Bool) (destination rollbackPath staged : Bytes) : RestoreM Nat := do
  let d ← look
  failIf (faults.createTemp || (d staged).isSome) (0, .createStaging)
  change (put staged (some (.file [])))
  recover
    (do
      let bytesWritten ← stage v faults stream options staged
      publish faults destinationExists destination rollbackPath staged bytesWritten)
    fun e => do
      change (put staged none)
      throw e

/-- `Restore`. -/
def restore (v : Verifier) (faults : Faults) (random : Nat) (r : Option Stream)
    (destination : Bytes) (options : Options) : RestoreM Nat := do
  match r with
  | none => throw (0, .readerNil)
  | some stream =>
    failIf (decide (options.maxBytes ≤ 0)) (0, .sizeLimit)
    failIf (destination == []) (0, .destinationRequired)
    let destination := Path.clean destination
    failIf faults.stat (0, .inspectDestination)
    let d ← look
    let destinationExists := present (d destination)
    failIf (d destination == some .directory) (0, .destinationIsDirectory)
    failIf (destinationExists && !options.overwrite) (0, .destinationExists)
    match validateRollbackPath faults d destination destinationExists options with
    | .error e => throw (0, e)
    | .ok rollbackPath =>
      failIf (destinationExists && faults.online) (0, .openDestination)
      restoreStaged v faults stream options destinationExists destination rollbackPath
        (stagingPath destination random)

end KoraDB.Recovery
