import EditOverlay.Width

/-! # Elements as bytes

An element of `k` bytes is stored with its lowest byte first. Values are written without a check:
what does not fit is cut off (`Codec.digits` writes `k` digits to the base 256).

Whole lists are written by `encode` and read by `decode`. Streams with elements of several widths
are read through a `Cursor` and written into a `Buffer` of fixed capacity. -/

namespace EditOverlay.Codec

/-- The lowest `k` digits of a number to the base 256, the lowest first. -/
def digits : Nat → Nat → List UInt8
  | 0, _ => []
  | k + 1, value => UInt8.ofNat value :: digits k (value / 256)

/-- The number with the given digits to the base 256, the lowest first. -/
def number : List UInt8 → Nat
  | [] => 0
  | b :: bs => b.toNat + 256 * number bs

/-- The bytes of one element. -/
def encodeElement (w : Width) (value : Nat) : List UInt8 := digits w.byteCount value

/-- The bytes of a list of elements. -/
def encode (w : Width) (values : List Nat) : List UInt8 := values.flatMap (encodeElement w)

/-- The refusal to read an element behind the end of the bytes. -/
def shortInput : EditError := .storage "failed to fill whole buffer"

/-- The refusal to write an element into a buffer without room for it. -/
def fullBuffer : EditError := .storage "failed to write whole buffer"

/-- The first `count` elements of the bytes; further bytes are ignored. -/
def decode (w : Width) (bytes : List UInt8) : Nat → Except EditError (List Nat)
  | 0 => .ok []
  | count + 1 =>
    let element := bytes.take w.byteCount
    if element.length < w.byteCount then .error shortInput
    else do
      let rest ← decode w (bytes.drop w.byteCount) count
      return number element :: rest

/-! ### Streams -/

/-- A place in a list of bytes from which elements are read. -/
structure Cursor where
  bytes : List UInt8
  pos : Nat
  deriving DecidableEq, Repr

/-- Reads one element and moves behind it. -/
def Cursor.next (c : Cursor) (w : Width) : Except EditError (Nat × Cursor) :=
  let element := (c.bytes.drop c.pos).take w.byteCount
  if element.length < w.byteCount then .error shortInput
  else .ok (number element, ⟨c.bytes, c.pos + w.byteCount⟩)

/-- Reads elements of the given widths, with the positions behind them, up to the first failure. -/
def Cursor.readAll (c : Cursor) : List Width → List (Nat × Nat) × Option EditError
  | [] => ([], none)
  | w :: ws =>
    match c.next w with
    | .error e => ([], some e)
    | .ok (value, c') =>
      let (values, failure) := c'.readAll ws
      ((value, c'.pos) :: values, failure)

/-- A buffer that takes at most `capacity` bytes. -/
structure Buffer where
  capacity : Nat
  bytes : List UInt8
  deriving DecidableEq, Repr

/-- The buffer without contents. -/
def Buffer.empty (capacity : Nat) : Buffer := ⟨capacity, []⟩

/-- Appends one element. -/
def Buffer.put (b : Buffer) (w : Width) (value : Nat) : Except EditError Buffer :=
  if b.capacity < b.bytes.length + w.byteCount then .error fullBuffer
  else .ok { b with bytes := b.bytes ++ encodeElement w value }

/-- Appends elements up to the first failure. -/
def Buffer.putAll (b : Buffer) : List (Width × Nat) → Except EditError Buffer
  | [] => .ok b
  | (w, value) :: items => do (← b.put w value).putAll items

@[simp] theorem length_digits (k value : Nat) : (digits k value).length = k := by
  induction k generalizing value with
  | zero => rfl
  | succ k ih => simp [digits, ih]

@[simp] theorem length_encodeElement (w : Width) (value : Nat) :
    (encodeElement w value).length = w.byteCount := length_digits _ _

theorem length_encode (w : Width) (values : List Nat) :
    (encode w values).length = values.length * w.byteCount := by
  induction values with
  | nil => simp [encode]
  | cons v vs ih =>
    simp only [encode, List.flatMap_cons, List.length_append, length_encodeElement,
      List.length_cons] at ih ⊢
    rw [ih, Nat.succ_mul]
    omega

end EditOverlay.Codec
