import EditOverlay.Directory

/-! # Files opened in a directory

A file may be opened several times, in different widths. Its openings share its bytes: what is
written through one is read through all. An opening covers as many bytes as the file had when it was
opened. If the file is replaced by a shorter one after that, there are zeros behind its end, and
what is written there is lost.

An open file works on bytes of its own. So before it is used it is brought up to date (`refresh`),
and behind a write its bytes go to the directory (`save`). -/

namespace EditOverlay.Directory

/-- Opens the file at a path. -/
def openFile (d : Directory) (path : String) (width : Width) (access : Access) :
    Except EditError FileStore :=
  FileStore.ofEntry path width access (d.entry path)

/-- The first `size` bytes of a file, with zeros behind its end. -/
def cover (bytes : List UInt8) (size : Nat) : List UInt8 :=
  bytes.take size ++ List.replicate (size - bytes.length) 0

/-- The open file with the bytes that it covers now. -/
def refresh (d : Directory) (f : FileStore) : FileStore :=
  match d.find? f.path with
  | some (_, bytes) => { f with bytes := cover bytes f.bytes.length }
  | none => f

/-- The directory with the bytes of an open file. The file keeps its length. -/
def save (d : Directory) (f : FileStore) : Directory :=
  match d.find? f.path with
  | some (place, bytes) => d.put place (overwrite bytes 0 (f.bytes.take bytes.length))
  | none => d

/-- The bytes that the file of an opening has now, covered or not. -/
def contents (d : Directory) (f : FileStore) : List UInt8 :=
  match d.find? f.path with
  | some (_, bytes) => bytes
  | none => f.bytes

end EditOverlay.Directory
