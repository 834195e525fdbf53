import EditOverlay.Proofs.Text.Numeral

/-! # Text: numbers of any size

Dumps show numbers without a sign, with capitals for digits, and with no limit for their size.
`number?` reads such texts: those that spell a number without small letters, and no others
(`number?_eq_some_iff`). So numbers that are written in either radix are read back
(`number?_hexPadded`, `number?_decimal`). A number that fits a given number of digits takes just
these (`length_hexPadded`). -/

namespace EditOverlay.Numeral

/-- The value of a digit of the radix that is no small letter. -/
def capital? (radix : Nat) (c : Char) : Option Nat := if c.isLower then none else digit? radix c

/-- The number that digits make after a first part with the value `value`. -/
def digits? (radix value : Nat) (cs : List Char) : Option Nat :=
  cs.foldlM (fun value c => (capital? radix c).map (radix * value + ·)) value

/-- Reads a number: digits of the radix, none of them a small letter. -/
def number? (radix : Nat) (cs : List Char) : Option Nat :=
  if cs = [] then none else digits? radix 0 cs

variable {radix n : Nat} {cs : List Char} {c : Char}

theorem capital?_eq_some_iff (hradix : radix ≤ 16) {d : Nat} :
    capital? radix c = some d ↔ Denotes radix c d ∧ c.isLower = false := by
  unfold capital?
  split_ifs with hlower
  · simp [hlower]
  · simp [hlower, digit?_eq_some_iff hradix]

/-- **Digits are read as they are spelled.** The induction takes off the last digit. -/
theorem digits?_eq_some_iff (hradix : radix ≤ 16) :
    digits? radix 0 cs = some n ↔ Spells radix cs n ∧ ∀ c ∈ cs, c.isLower = false := by
  induction cs using List.reverseRecOn generalizing n with
  | nil =>
    have hzero : digits? radix 0 [] = some 0 := rfl
    rw [hzero, Option.some.injEq]
    refine ⟨fun h => ⟨h ▸ spells_nil, by simp⟩, fun h => ?_⟩
    exact spells_nil.unique hradix h.1
  | append_singleton cs c ih =>
    have hlast : digits? radix 0 (cs ++ [c]) =
        (digits? radix 0 cs).bind fun m => (capital? radix c).map (radix * m + ·) := by
      simp [digits?]
    simp only [hlast, Option.bind_eq_some_iff, Option.map_eq_some_iff, ih,
      capital?_eq_some_iff hradix, spells_append_singleton_iff, List.forall_mem_append,
      List.forall_mem_singleton]
    constructor
    · rintro ⟨m, ⟨hm, hcs⟩, d, ⟨hd, hc⟩, rfl⟩
      exact ⟨⟨m, d, hm, hd, rfl⟩, hcs, hc⟩
    · rintro ⟨⟨m, d, hm, hd, rfl⟩, hcs, hc⟩
      exact ⟨m, ⟨hm, hcs⟩, d, ⟨hd, hc⟩, rfl⟩

/-- **Exactly the texts that spell a number in capitals are read.** -/
theorem number?_eq_some_iff (hradix : radix ≤ 16) :
    number? radix cs = some n ↔ cs ≠ [] ∧ Spells radix cs n ∧ ∀ c ∈ cs, c.isLower = false := by
  unfold number?
  split_ifs with hnil
  · simp [hnil]
  · rw [digits?_eq_some_iff hradix]
    simp [hnil]

/-! ### Written numbers -/

theorem isLower_toUpper_digitChar {d : Nat} (h : d < 16) :
    (Nat.digitChar d).toUpper.isLower = false := by
  interval_cases d <;> rfl

theorem isLower_digitChar {d : Nat} (h : d < 10) : (Nat.digitChar d).isLower = false := by
  interval_cases d <;> rfl

/-- **A hexadecimal number in capitals is read back,** with however many zeros before it. -/
theorem number?_hexPadded (width n : Nat) : number? 16 (hexPadded width n) = some n := by
  have hrenders := renders_hexPadded width n
  refine (number?_eq_some_iff (by decide)).mpr
    ⟨hrenders.ne_nil, hrenders.spells (by decide), fun c hc => ?_⟩
  rcases List.mem_append.mp hc with hzero | hcapital
  · rw [List.eq_of_mem_replicate hzero]
    rfl
  · obtain ⟨digit, hdigit, rfl⟩ := List.mem_map.mp hcapital
    obtain ⟨d, hd, rfl⟩ := exists_of_mem_toDigits (by decide) hdigit
    exact isLower_toUpper_digitChar hd

theorem renders_decimal (n : Nat) : Renders 10 (decimal n) n :=
  renders_toDigits (by decide) (by decide) 0 n

theorem number?_decimal (n : Nat) : number? 10 (decimal n) = some n := by
  have hrenders := renders_decimal n
  refine (number?_eq_some_iff (by decide)).mpr
    ⟨hrenders.ne_nil, hrenders.spells (by decide), fun c hc => ?_⟩
  obtain ⟨d, hd, rfl⟩ := exists_of_mem_toDigits (by decide) hc
  exact isLower_digitChar hd

theorem length_hexPadded {width : Nat} (hwidth : 0 < width) (h : n < 16 ^ width) :
    (hexPadded width n).length = width := by
  have hlength : (hex n).length ≤ width := Nat.toDigits_length 16 n width hwidth h
  rw [hexPadded, pad, List.length_append, List.length_replicate, List.length_map]
  omega

end EditOverlay.Numeral
