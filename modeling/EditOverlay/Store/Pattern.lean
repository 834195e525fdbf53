import EditOverlay.Store

/-! # Stores without memory

A store of any length whose element at `p` is `p % modulus`. Writes are logged and change nothing
that is read, so a store can be longer than memory. With a modulus above the width, elements are
read that do not fit it. -/

namespace EditOverlay

/-- A periodic store with a log of the writes. -/
structure PatternStore where
  width : Width
  length : Nat
  modulus : Nat
  /-- The writes, the latest first. -/
  log : List (Nat × List Nat)
  deriving DecidableEq, Repr

namespace PatternStore

def read (s : PatternStore) (offset count : Nat) : Except EditError (List Nat) := do
  let _ ← checkRange offset count s.length
  return (List.range count).map fun i => (offset + i) % s.modulus

def write (s : PatternStore) (offset : Nat) (values : List Nat) :
    PatternStore × Except EditError Unit :=
  ({ s with log := (offset, values) :: s.log }, .ok ())

instance : Store PatternStore where
  width := width
  length := length
  read := read
  write := write

/-- The elements of the store. -/
def elements (s : PatternStore) : List Nat := (List.range s.length).map (· % s.modulus)

theorem exact (s : PatternStore) : Store.Exact s s.elements where
  length_eq := by
    rw [elements, List.length_map, List.length_range]
    rfl
  read_eq offset count := by
    have hlength : s.elements.length = s.length := by
      rw [elements, List.length_map, List.length_range]
    change s.read offset count = _
    unfold read
    rw [hlength]
    cases h : checkRange offset count s.length with
    | error e => rfl
    | ok stop =>
      obtain ⟨hrange, rfl⟩ := checkRange_eq_ok_iff.mp h
      refine congrArg Except.ok (List.ext_getElem? fun i => ?_)
      rw [List.getElem?_drop, elements, List.getElem?_map, ← List.map_take, List.getElem?_map,
        List.take_range, Nat.min_eq_left hrange]
      by_cases hi : i < count
      · rw [List.getElem?_range hi, List.getElem?_range (by omega)]
        rfl
      · rw [List.getElem?_eq_none (by rw [List.length_range]; omega),
          List.getElem?_eq_none (by rw [List.length_range]; omega)]
        rfl

theorem fits_of_mem_elements {s : PatternStore} (hmodulus : 0 < s.modulus)
    (h : s.modulus ≤ s.width.maxValue + 1) : ∀ v ∈ s.elements, s.width.Fits v := by
  intro v hv
  obtain ⟨p, -, rfl⟩ := List.mem_map.mp hv
  have := Nat.mod_lt p hmodulus
  unfold Width.Fits
  omega

end PatternStore
end EditOverlay
