import EditOverlay.Codec
import EditOverlay.Overwrite
import EditOverlay.Store
import EditOverlay.Text.Quoted

/-! # Stores in files

An open file, read and written through the byte codec. Bytes at the end that make no whole element
cannot be addressed. A file keeps its length while it is open.

A path leads to an `Entry`. Whether that can be opened is for the system to say, which gives the
reason if it refuses (`Guard`). -/

namespace EditOverlay

/-- Why a path leads to nothing. -/
inductive Absence where
  /-- A name on the way is not there. -/
  | noEntry
  /-- The path goes on behind a file. -/
  | notFolder
  /-- A character in the path is in no name. -/
  | badPath
  /-- The path, or a name in it, has too many bytes. -/
  | tooLong
  /-- A folder on the way is closed, for the reason that the system gives. -/
  | closed (reason : String)
  deriving DecidableEq, Repr

/-- The wording for a path that leads to nothing. -/
def Absence.message : Absence → String
  | noEntry => "No such file or directory (os error 2)"
  | notFolder => "Not a directory (os error 20)"
  | badPath => "file name contained an unexpected NUL byte"
  | tooLong => "File name too long (os error 36)"
  | closed reason => reason

/-- The refusal to open what is not there. -/
def Absence.error (why : Absence) : EditError := .storage why.message

/-- How a file is opened. -/
inductive Access where
  | readOnly
  | readWrite
  deriving DecidableEq, Repr

/-- Goes on, unless the system has a reason to refuse. -/
def heed (reason : Option String) : Except EditError Unit :=
  match reason with
  | none => .ok ()
  | some reason => .error (.storage reason)

/-- The reasons of the system, if it has any, not to open something or not to map what is in it. -/
structure Guard where
  /-- Why it may not be read. -/
  reading : Option String
  /-- Why it may not be both read and written. -/
  updating : Option String
  /-- Why it may not be written anew. -/
  writing : Option String
  deriving DecidableEq, Repr

/-- The reason not to open something in the given way. -/
def Guard.reason (g : Guard) : Access → Option String
  | .readOnly => g.reading
  | .readWrite => g.updating

/-- What a path leads to. -/
inductive Entry where
  | absent (why : Absence)
  | folder (guard : Guard)
  | file (guard : Guard) (bytes : List UInt8)
  /-- Neither a folder nor a file, but something that can be opened. It has no size, and so no bytes
  that could be addressed. -/
  | device (guard : Guard)
  deriving DecidableEq, Repr

/-- The refusal to write to a folder. -/
def FileStore.folderError : EditError := .storage "Is a directory (os error 21)"

/-- The bytes that can be addressed in what is opened. Folders cannot be opened in either way, for
different reasons. -/
def Entry.openedBytes (access : Access) : Entry → Except EditError (List UInt8)
  | .absent why => .error why.error
  | .folder guard =>
    match access with
    | .readOnly => do
      heed guard.reading
      .error (.storage "No such device (os error 19)")
    | .readWrite => .error FileStore.folderError
  | .file guard bytes => do
    heed (guard.reason access)
    return bytes
  | .device guard => do
    heed (guard.reason access)
    return []

/-- An open file with the bytes it now has. -/
structure FileStore where
  path : String
  width : Width
  access : Access
  bytes : List UInt8
  deriving DecidableEq, Repr

namespace FileStore

/-- The number of whole elements. -/
def length (f : FileStore) : Nat := f.bytes.length / f.width.byteCount

/-- Opens what a path leads to. -/
def ofEntry (path : String) (width : Width) (access : Access) (entry : Entry) :
    Except EditError FileStore :=
  (entry.openedBytes access).map fun bytes => ⟨path, width, access, bytes⟩

/-- The state of an open file in one line. -/
def describe (f : FileStore) : String :=
  let path := Text.quote f.path
  let width := f.width.name
  let length := f.length
  let writable := f.access == .readWrite
  s!"FileBlob \x7b path: {path}, width: {width}, len: {length}, writable: {writable} \x7d"

def read (f : FileStore) (offset count : Nat) : Except EditError (List Nat) := do
  let _ ← checkRange offset count f.length
  let size := f.width.byteCount
  Codec.decode f.width ((f.bytes.drop (offset * size)).take (count * size)) count

/-- The file with `values` written at `offset`, unless they are refused. -/
def tryWrite (f : FileStore) (offset : Nat) (values : List Nat) : Except EditError FileStore :=
  match f.access with
  | .readOnly => .error (.writeFailed offset "文件以只读方式打开")
  | .readWrite => do
    let _ ← checkRange offset values.length f.length
    f.width.checkAll values
    let bytes := Codec.encode f.width values
    return { f with bytes := overwrite f.bytes (offset * f.width.byteCount) bytes }

def write (f : FileStore) (offset : Nat) (values : List Nat) : FileStore × Except EditError Unit :=
  match f.tryWrite offset values with
  | .ok f' => (f', .ok ())
  | .error e => (f, .error e)

instance : Store FileStore where
  width := width
  length := length
  read := read
  write := write

end FileStore
end EditOverlay
