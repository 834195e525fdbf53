import EditOverlay.Command.Session
import Std.Time.Zoned

/-! # The command in the file system

Reads what the input's path leads to, runs the session and carries out what it writes. -/

namespace EditOverlay.Command

/-- The wording of what the system refuses. -/
def systemText : IO.Error → String
  | .permissionDenied _ code details => s!"{details} (os error {code})"
  | .resourceBusy code details => s!"{details} (os error {code})"
  | .unsupportedOperation code details => s!"{details} (os error {code})"
  | .hardwareFault code details => s!"{details} (os error {code})"
  | .otherError code details => s!"{details} (os error {code})"
  | e => e.toString

/-- The reason for which the system refuses an act, if it does. -/
def refusal {α : Type} (act : IO α) : IO (Option String) := do
  match ← act.toBaseIO with
  | .ok _ => return none
  | .error e => return some (systemText e)

/-- The reasons not to open what is at a path in the given way. The other ways are not tried. -/
def readGuard (path : String) (access : Access) : IO Guard := do
  match access with
  | .readOnly => return ⟨← refusal (IO.FS.Handle.mk path .read), none, none⟩
  | .readWrite => return ⟨none, ← refusal (IO.FS.Handle.mk path .readWrite), none⟩

/-- What a path leads to, for whoever opens it in the given way. -/
def readEntry (path : String) (access : Access) : IO Entry := do
  match ← (System.mkFilePath [path]).metadata.toBaseIO with
  | .error (.noFileOrDirectory ..) => return .absent .noEntry
  | .error (.inappropriateType ..) => return .absent .notFolder
  | .error (.invalidArgument ..) => return .absent .tooLong
  | .error e => return .absent (.closed (systemText e))
  | .ok data =>
    match data.type with
    | .dir => return .folder (← readGuard path .readOnly)
    | .file =>
      let guard ← readGuard path access
      match guard.reason access with
      | none => return .file guard (← IO.FS.readBinFile path).toList
      | some _ => return .file guard []
    | _ => return .device (← readGuard path access)

/-- The local time. -/
def now : IO Timestamp := do
  let t ← Std.Time.PlainDateTime.now
  let date := t.date
  let time := t.time
  return ⟨date.year.toInt.toNat, date.month.val.toNat, date.day.val.toNat,
    time.hour.val.toNat, time.minute.val.toNat, time.second.val.toNat⟩

/-- Writes the bytes of a file. -/
def writeFile (path : String) (bytes : List UInt8) : IO Unit :=
  IO.FS.writeBinFile path ⟨bytes.toArray⟩

/-- Copies a file with the given bytes to its backup. -/
def copyFile (time : Timestamp) (path : String) (bytes : List UInt8) :
    IO (Except EditError Unit) := do
  return heed (← refusal (writeFile (Directory.backupPath time path) bytes))

/-- The session on the file at a path, carried out. The copy is made before anything is written, and
if it fails, the session ends as it does then. -/
def carryOut (o : Options) (input : Entry) (time : Timestamp) : IO Outcome := do
  let planned := Session.run o input (.ok ())
  let outcome ← match planned.backup, input with
    | true, .file _ old => do pure (Session.run o input (← copyFile time o.input old))
    | _, _ => pure planned
  outcome.written.forM (writeFile o.input)
  return outcome

/-- The outcome of the command, carried out. -/
def perform (args : List String) : IO Outcome := do
  match Options.ofArguments args with
  | .error halt => return halt.outcome
  | .ok o =>
    let input ← readEntry o.input (if o.commit then .readWrite else .readOnly)
    carryOut o input (← now)

end EditOverlay.Command

def main (args : List String) : IO UInt32 := do
  let outcome ← EditOverlay.Command.perform args
  IO.print outcome.stdout
  IO.eprint outcome.stderr
  return UInt32.ofNat outcome.exit
