import EditOverlay.Overwrite
import EditOverlay.Store

/-! # Stores in memory

A list of elements. A write outside the list, or of a value that does not fit, is refused and
changes nothing. -/

namespace EditOverlay

/-- Elements in memory. -/
structure MemoryStore where
  width : Width
  elements : List Nat
  deriving DecidableEq, Repr

namespace MemoryStore

/-- The store with the given elements, which have to fit the width. -/
def ofList (width : Width) (elements : List Nat) : Except EditError MemoryStore := do
  width.checkAll elements
  return ⟨width, elements⟩

/-- The store with `length` zeros. -/
def zeroed (width : Width) (length : Nat) : MemoryStore := ⟨width, List.replicate length 0⟩

/-- The store whose elements are bytes. -/
def ofBytes (bytes : List UInt8) : MemoryStore := ⟨.w8, bytes.map UInt8.toNat⟩

def read (s : MemoryStore) (offset count : Nat) : Except EditError (List Nat) := do
  let stop ← checkRange offset count s.elements.length
  return (s.elements.take stop).drop offset

/-- The store with `values` written at `offset`, unless they are refused. -/
def tryWrite (s : MemoryStore) (offset : Nat) (values : List Nat) :
    Except EditError MemoryStore := do
  let _ ← checkRange offset values.length s.elements.length
  s.width.checkAll values
  return { s with elements := overwrite s.elements offset values }

def write (s : MemoryStore) (offset : Nat) (values : List Nat) :
    MemoryStore × Except EditError Unit :=
  match s.tryWrite offset values with
  | .ok s' => (s', .ok ())
  | .error e => (s, .error e)

instance : Store MemoryStore where
  width := width
  length s := s.elements.length
  read := read
  write := write

theorem exact (s : MemoryStore) : Store.Exact s s.elements where
  length_eq := rfl
  read_eq offset count := by
    cases h : checkRange offset count s.elements.length <;>
      simp [Store.read, read, h, bind, Except.bind, pure, Except.pure, Except.map]

end MemoryStore
end EditOverlay
