import EditOverlay.Store.File
import EditOverlay.Timestamp

/-! # Directories

A tree of files and folders, in which paths are followed from its root. A path leads through folders
only. It may leave the tree, upwards or to the top: the folders around the tree are there, and of
what else is in them only what was written is known. What the system refuses, for whatever reason,
is written down in the tree as well.

* `resolve`, `entry`: where a path leads, and to what.
* `put`, `tryPut`, `write`, `create`: a file written, at a place, where the system lets it be
  written, at a path, and in folders made for it.
* `backUp`: a file copied to a name of its own beside it. -/

namespace EditOverlay

/-- The shortest way from the root to a place: any number of `..` and then names, or the top and
then names. The top is written as a slash, which no name is. -/
abbrev Place := List String

/-- What the system may refuse at a place. -/
inductive Act where
  /-- To go on from a folder. -/
  | enter
  /-- To make a file in a folder. -/
  | add
  /-- To open something to be read. -/
  | read
  /-- To open something to be both read and written. -/
  | update
  /-- To open something to be written anew. -/
  | write
  deriving DecidableEq, Repr

/-- A tree of files. A folder is there if it was made, or if a file is in it. -/
structure Directory where
  files : List (Place × List UInt8)
  folders : List Place
  /-- Where there is neither a file nor a folder, but something that can be opened. -/
  devices : List Place := []
  /-- What the system refuses, and its reasons. -/
  refusals : List ((Place × Act) × String) := []
  deriving DecidableEq, Repr

namespace Directory

/-- The tree without files. -/
def empty : Directory := { files := [], folders := [] }

/-! ### Places -/

/-- The top of all trees. -/
def top : Place := ["/"]

/-- Whether a place is the root or a folder around it. -/
def isAround (place : Place) : Bool := place = top || place.all (· = "..")

/-- Whether a place is in the tree. -/
def isInside (place : Place) : Bool :=
  match place with
  | name :: _ => name != ".." && name != "/"
  | [] => true

/-- The folder around a place. The top has none but itself. -/
def above (place : Place) : Place :=
  if place = top then top else if isAround place then place ++ [".."] else place.dropLast

/-- Whether a name stays in its folder. -/
def isIdle (name : String) : Bool := name = "" || name = "."

/-- The place one name further. -/
def next (here : Place) (name : String) : Place :=
  if isIdle name then here else if name = ".." then above here else here ++ [name]

/-- The bytes of the file at a place. -/
def bytesAt? (d : Directory) (place : Place) : Option (List UInt8) := d.files.lookup place

/-- Whether a folder is at a place. -/
def isFolder (d : Directory) (place : Place) : Bool :=
  isAround place || d.folders.contains place ||
    d.files.any fun (p, _) => place.isPrefixOf p && place != p

/-- The reason for which the system refuses an act at a place, if it does. -/
def refusal? (d : Directory) (place : Place) (act : Act) : Option String :=
  d.refusals.lookup (place, act)

/-- What the system refuses to whoever opens what is at a place. -/
def guardAt (d : Directory) (place : Place) : Guard :=
  ⟨d.refusal? place .read, d.refusal? place .update, d.refusal? place .write⟩

/-- What is at a place. -/
def entryAt (d : Directory) (place : Place) : Entry :=
  match d.bytesAt? place with
  | some bytes => .file (d.guardAt place) bytes
  | none =>
    if d.isFolder place then .folder (d.guardAt place)
    else if place ∈ d.devices then .device (d.guardAt place)
    else .absent .noEntry

/-! ### Paths -/

/-- The names in a path, with an empty one before a slash at the start and behind one at the end. -/
def names (path : String) : List String := (path.toList.splitOn '/').map String.ofList

/-- Where a path starts, and the names on it: a slash in front starts at the top. -/
def way (path : String) : Place × List String :=
  match names path with
  | "" :: n :: ns => (top, n :: ns)
  | ns => ([], ns)

/-- The most bytes that a name has. -/
def nameLimit : Nat := 255

/-- The most bytes that a path has. -/
def pathLimit : Nat := 4095

/-- Refuses what is no path. -/
def checkPath (path : String) : Except Absence Unit :=
  if path.contains '\x00' then .error .badPath
  else if path.isEmpty then .error .noEntry
  else if pathLimit < path.utf8ByteSize then .error .tooLong
  else .ok ()

/-- Refuses what is too long for a name. -/
def checkName (name : String) : Except Absence Unit :=
  if nameLimit < name.utf8ByteSize then .error .tooLong else .ok ()

/-- Refuses to go on from a folder that the system keeps closed. -/
def checkEnter (d : Directory) (here : Place) : Except Absence Unit :=
  match d.refusal? here .enter with
  | none => .ok ()
  | some reason => .error (.closed reason)

/-- Goes one name further, which is possible from a folder only. -/
def step (d : Directory) (here : Place) (name : String) : Except Absence Place :=
  match d.entryAt here with
  | .absent why => .error why
  | .folder _ => do
    d.checkEnter here
    checkName name
    return next here name
  | .file _ _ => .error .notFolder
  | .device _ => .error .notFolder

/-- The place that a path leads to, whether or not anything is there. -/
def resolve (d : Directory) (path : String) : Except Absence Place := do
  checkPath path
  let (start, ns) := way path
  ns.foldlM d.step start

/-- What a path leads to. -/
def entry (d : Directory) (path : String) : Entry :=
  match d.resolve path with
  | .ok place => d.entryAt place
  | .error why => .absent why

/-- The file that a path leads to, with its place. -/
def find? (d : Directory) (path : String) : Option (Place × List UInt8) :=
  match d.resolve path with
  | .ok place => (d.bytesAt? place).map fun bytes => (place, bytes)
  | .error _ => none

/-! ### Writing -/

/-- Writes a file, new or in place of the one before. -/
def put (d : Directory) (place : Place) (bytes : List UInt8) : Directory :=
  if (d.bytesAt? place).isSome then
    { d with files := d.files.map fun (p, old) => if p = place then (p, bytes) else (p, old) }
  else { d with files := d.files ++ [(place, bytes)] }

/-- Writes at a place, if there is a file to be written or room for a new one, and the system does
not refuse. What is written to a device is gone. -/
def tryPut (d : Directory) (place : Place) (bytes : List UInt8) : Except EditError Directory :=
  match d.entryAt place with
  | .absent _ => do
    heed (d.refusal? (above place) .add)
    return d.put place bytes
  | .folder _ => .error FileStore.folderError
  | .file guard _ => do
    heed guard.writing
    return d.put place bytes
  | .device guard => do
    heed guard.writing
    return d

/-- Writes the file at a path. Only the last name may be new, and a path with a slash at its end is
one of a folder, whatever its last name. -/
def write (d : Directory) (path : String) (bytes : List UInt8) : Except EditError Directory := do
  (checkPath path).mapError Absence.error
  let (start, ns) := way path
  let kept := (ns.reverse.dropWhile (· = "")).reverse
  let followed := if kept.length < ns.length then kept.dropLast ++ [""] else kept
  let place ← (followed.foldlM d.step start).mapError Absence.error
  d.tryPut place bytes

/-- Makes a folder, if it is not there. -/
def makeFolder (d : Directory) (place : Place) : Directory :=
  if d.isFolder place then d else { d with folders := d.folders ++ [place] }

/-- Writes the file at a path, in folders made for it. -/
def create (d : Directory) (path : String) (bytes : List UInt8) : Directory :=
  let (start, ns) := way path
  let (made, folder) := ns.dropLast.foldl (fun (d, here) name =>
    let here := next here name
    (d.makeFolder here, here)) (d, start)
  made.put (next folder (ns.getLastD "")) bytes

/-! ### Backups -/

/-- The name of the backup of a file. -/
def backupName (time : Timestamp) (name : String) : String := name ++ "." ++ time.text ++ ".bak"

/-- The path to the backup of the file at a path: the last name changes, and what stands idle before
it goes, except at the start. -/
def backupPath (time : Timestamp) (path : String) : String :=
  let ns := names path
  let parents := match ns.dropLast with
    | [] => []
    | first :: rest => first :: (rest.reverse.dropWhile isIdle).reverse
  "/".intercalate (parents ++ [backupName time (ns.getLastD "")])

/-- The place of the backup of the file at a place: in the same folder. -/
def backupPlace (time : Timestamp) (place : Place) : Place :=
  place.dropLast ++ [backupName time (place.getLastD "")]

/-- The refusal to copy what is no file. -/
def noFile (path : String) : EditError := .storage ("原文件不存在: " ++ Text.quote path)

/-- Refuses a backup whose path or name is too long. -/
def checkBackup (time : Timestamp) (path : String) : Except EditError Unit := do
  (checkPath (backupPath time path)).mapError Absence.error
  (checkName (backupName time ((names path).getLastD ""))).mapError Absence.error

/-- Copies the file at a path to its backup. Gives the path to the copy. -/
def backUp (d : Directory) (time : Timestamp) (path : String) :
    Except EditError (String × Directory) :=
  match d.find? path with
  | none => .error (noFile path)
  | some (place, bytes) => do
    heed (d.refusal? place .read)
    checkBackup time path
    let copied ← d.tryPut (backupPlace time place) bytes
    return (backupPath time path, copied)

end Directory
end EditOverlay
