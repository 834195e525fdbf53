/-! # Machine words

Positions and counts are kept in words of sixty-four bits. A sum or a product that is too large, a
difference below zero and a slice that does not lie within its list have no value here, so a
computation that has one has gone wrong nowhere on its way. -/

namespace EditOverlay.Word

/-- The largest word. -/
def max : Nat := 0xffffffffffffffff

/-- A sum that has to be a word. -/
def add? (a b : Nat) : Option Nat := if a + b ≤ max then some (a + b) else none

/-- A difference that must not be below zero. -/
def sub? (a b : Nat) : Option Nat := if b ≤ a then some (a - b) else none

/-- A product that has to be a word. -/
def mul? (a b : Nat) : Option Nat := if a * b ≤ max then some (a * b) else none

/-- A sum, or the largest word if it is too large. -/
def addSaturating (a b : Nat) : Nat := min (a + b) max

/-- The elements from the index `lo` up to the index `hi`, both of which have to be in order and
within the list. -/
def slice? {α : Type} (xs : List α) (lo hi : Nat) : Option (List α) :=
  if lo ≤ hi ∧ hi ≤ xs.length then some ((xs.take hi).drop lo) else none

variable {a b lo hi : Nat}

theorem add?_of_le (h : a + b ≤ max) : add? a b = some (a + b) := if_pos h

theorem sub?_of_le (h : b ≤ a) : sub? a b = some (a - b) := if_pos h

theorem mul?_of_le (h : a * b ≤ max) : mul? a b = some (a * b) := if_pos h

theorem slice?_of_le {α : Type} {xs : List α} (hlo : lo ≤ hi) (hhi : hi ≤ xs.length) :
    slice? xs lo hi = some ((xs.take hi).drop lo) := if_pos ⟨hlo, hhi⟩

theorem le_addSaturating (h : a ≤ max) : a ≤ addSaturating a b := by
  unfold addSaturating
  omega

end EditOverlay.Word
