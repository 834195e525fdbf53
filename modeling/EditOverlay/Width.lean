import EditOverlay.Error

/-! # Element widths

The elements of a store all have one width: eight, sixteen, thirty-two or sixty-four bits. -/

namespace EditOverlay

/-- The width of an element. -/
inductive Width where
  | w8
  | w16
  | w32
  | w64
  deriving DecidableEq, Repr

namespace Width

/-- All widths, in ascending order. -/
def all : List Width := [w8, w16, w32, w64]

def bits : Width → Nat
  | w8 => 8
  | w16 => 16
  | w32 => 32
  | w64 => 64

/-- The bytes that an element takes. -/
def byteCount (w : Width) : Nat := w.bits / 8

/-- The largest value of an element: all its bits are ones. -/
def maxValue : Width → Nat
  | w8 => 0xff
  | w16 => 0xffff
  | w32 => 0xffffffff
  | w64 => 0xffffffffffffffff

/-- The hexadecimal digits of the largest value. -/
def hexDigits (w : Width) : Nat := 2 * w.byteCount

/-- The width for a reader of a message, as in `8-bit`. -/
def label (w : Width) : String := s!"{w.bits}-bit"

/-- The symbol of the width, as in `W8`. -/
def name (w : Width) : String := s!"W{w.bits}"

/-- The width with a number of bits. -/
def ofBits (bits : Nat) : Except EditError Width :=
  match all.find? (·.bits = bits) with
  | some w => .ok w
  | none => .error (.unsupportedWidth bits)

/-- The width with a symbol. -/
def ofName? (name : String) : Option Width := all.find? (·.name = name)

/-- Whether a value fits into an element. -/
def Fits (w : Width) (value : Nat) : Prop := value ≤ w.maxValue

instance (w : Width) : DecidablePred w.Fits := fun value =>
  inferInstanceAs (Decidable (value ≤ w.maxValue))

/-- Refuses a value that does not fit. -/
def check (w : Width) (value : Nat) : Except EditError Unit :=
  if w.Fits value then .ok () else .error (.valueTooWide value w.bits)

/-- Refuses the first value that does not fit. -/
def checkAll (w : Width) : List Nat → Except EditError Unit
  | [] => .ok ()
  | v :: vs => do w.check v; w.checkAll vs

/-- Refuses another width. -/
def ensureSame (expected actual : Width) : Except EditError Unit :=
  if expected = actual then .ok () else .error (.widthMismatch expected.bits actual.bits)

theorem bits_eq (w : Width) : w.bits = 8 * w.byteCount := by cases w <;> rfl

theorem byteCount_pos (w : Width) : 0 < w.byteCount := by cases w <;> decide

theorem bits_injective {v w : Width} (h : v.bits = w.bits) : v = w := by
  cases v <;> cases w <;> simp_all [bits]

theorem ofBits_eq_ok_iff {bits : Nat} {w : Width} : ofBits bits = .ok w ↔ w.bits = bits := by
  unfold ofBits
  constructor
  · intro h
    cases hfind : all.find? (·.bits = bits) with
    | none =>
      rw [hfind] at h
      cases h
    | some w' =>
      rw [hfind] at h
      cases h
      simpa using List.find?_some hfind
  · rintro rfl
    cases w <;> rfl

theorem ensureSame_eq_ok_iff {v w : Width} : ensureSame v w = .ok () ↔ v = w := by
  unfold ensureSame
  split <;> simp_all

theorem check_eq_ok_iff {w : Width} {value : Nat} : w.check value = .ok () ↔ w.Fits value := by
  unfold check
  split <;> simp_all

theorem checkAll_eq_ok_iff {w : Width} {values : List Nat} :
    w.checkAll values = .ok () ↔ ∀ v ∈ values, w.Fits v := by
  induction values with
  | nil => simp [checkAll]
  | cons v vs ih =>
    rw [List.forall_mem_cons, ← ih, ← check_eq_ok_iff, checkAll]
    cases w.check v <;> simp [bind, Except.bind]

end Width
end EditOverlay
