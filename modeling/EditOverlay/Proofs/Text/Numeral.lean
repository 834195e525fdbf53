import EditOverlay.Proofs.Text.Trim
import EditOverlay.Text.Numeral
import Mathlib.Data.List.Forall2
import Mathlib.Data.List.Induction
import Mathlib.Data.Nat.Digits.Defs
import Mathlib.Tactic.IntervalCases

/-! # Text: which texts are numerals

The grammar of numerals, apart from the reader. `Spells radix cs n` says that the characters are
digits of the radix, of either case, and that they make the number `n`; `IsNumeral` adds the sign
that may stand before them, and the limit. `Fails` says what is wrong with every other text: that it
is empty; that it starts with digits for a number from the limit on, whatever comes then; or, if it
does not, that some character is out of place. So every text is of exactly one kind, and the reader
finds which (`read_eq_ok_iff`, `read_eq_error_iff`). -/

namespace EditOverlay.Numeral

/-! ### Digits -/

/-- The character is the digit of the radix with the value `d`, in small letters or capitals. -/
def Denotes (radix : Nat) (c : Char) (d : Nat) : Prop := d < radix ∧ c.toLower = Nat.digitChar d

theorem toNat_digitChar {d : Nat} (h : d < 16) :
    (Nat.digitChar d).toNat = if d < 10 then 48 + d else 87 + d := by
  interval_cases d <;> rfl

theorem toLower_digitChar {d : Nat} (h : d < 16) :
    (Nat.digitChar d).toLower = Nat.digitChar d := by
  interval_cases d <;> rfl

theorem toLower_toUpper_digitChar {d : Nat} (h : d < 16) :
    (Nat.digitChar d).toUpper.toLower = Nat.digitChar d := by
  interval_cases d <;> rfl

theorem toNat_toLower (c : Char) :
    c.toLower.toNat = if 65 ≤ c.toNat ∧ c.toNat ≤ 90 then c.toNat + 32 else c.toNat := by
  have hupper : c.val ≥ 'A'.val ∧ c.val ≤ 'Z'.val ↔ 65 ≤ c.toNat ∧ c.toNat ≤ 90 := Iff.rfl
  by_cases h : c.val ≥ 'A'.val ∧ c.val ≤ 'Z'.val
  · have hlower : c.toLower.toNat = (c.val + ('a'.val - 'A'.val)).toNat :=
      congrArg Char.toNat (dif_pos h)
    have hsum : (c.val + ('a'.val - 'A'.val)).toNat = (c.toNat + 32) % 2 ^ 32 := rfl
    rw [hupper] at h
    rw [if_pos h, hlower, hsum]
    omega
  · have hsame : c.toLower = c := dif_neg h
    rw [if_neg (mt hupper.mpr h), hsame]

theorem digitValue?_eq_some_iff {c : Char} {d : Nat} :
    digitValue? c = some d ↔ d < 16 ∧ c.toLower = Nat.digitChar d := by
  have hle : ∀ a b : Char, a ≤ b ↔ a.toNat ≤ b.toNat := fun a b => Iff.rfl
  have hlower := toNat_toLower c
  simp only [digitValue?, hle, ← Char.toNat_inj (c := c.toLower), Char.reduceToNat]
  constructor
  · intro h
    have hd : d < 16 := by
      split_ifs at h <;> simp at h <;> omega
    refine ⟨hd, ?_⟩
    rw [toNat_digitChar hd]
    split_ifs at h hlower ⊢ <;> simp at * <;> omega
  · rintro ⟨hd, h⟩
    rw [toNat_digitChar hd] at h
    split_ifs at h hlower ⊢ <;> simp at * <;> omega

theorem digit?_eq_some_iff {radix : Nat} (hradix : radix ≤ 16) {c : Char} {d : Nat} :
    digit? radix c = some d ↔ Denotes radix c d := by
  rw [digit?, Option.filter_eq_some_iff, digitValue?_eq_some_iff, Denotes]
  grind

theorem Denotes.unique {radix : Nat} (hradix : radix ≤ 16) {c : Char} {d d' : Nat}
    (h : Denotes radix c d) (h' : Denotes radix c d') : d = d' := by
  rw [← digit?_eq_some_iff hradix] at h h'
  exact Option.some.inj (h.symm.trans h')

/-! ### Numbers -/

/-- The characters are digits of the radix, the lowest at the end, and `n` is the number they
make. -/
def Spells (radix : Nat) (cs : List Char) (n : Nat) : Prop :=
  ∃ ds, List.Forall₂ (Denotes radix) cs.reverse ds ∧ Nat.ofDigits radix ds = n

variable {radix : Nat} {cs more : List Char} {c : Char} {n m : Nat}

theorem spells_nil : Spells radix [] 0 := ⟨[], .nil, rfl⟩

theorem spells_append_singleton_iff : Spells radix (cs ++ [c]) n ↔
    ∃ m d, Spells radix cs m ∧ Denotes radix c d ∧ n = radix * m + d := by
  simp only [Spells, List.reverse_append, List.reverse_singleton, List.singleton_append,
    List.forall₂_cons_left_iff]
  constructor
  · rintro ⟨_, ⟨d, ds, hd, hds, rfl⟩, rfl⟩
    exact ⟨_, d, ⟨ds, hds, rfl⟩, hd, by rw [Nat.ofDigits_cons, Nat.add_comm]⟩
  · rintro ⟨_, d, ⟨ds, hds, rfl⟩, hd, rfl⟩
    exact ⟨d :: ds, ⟨d, ds, hd, hds, rfl⟩, by rw [Nat.ofDigits_cons, Nat.add_comm]⟩

theorem Spells.unique (hradix : radix ≤ 16) (h : Spells radix cs n) (h' : Spells radix cs m) :
    n = m := by
  obtain ⟨ds, hds, rfl⟩ := h
  obtain ⟨ds', hds', rfl⟩ := h'
  have hunique : Relator.RightUnique (Denotes radix) := fun _ _ _ h h' => h.unique hradix h'
  rw [List.right_unique_forall₂' hunique hds hds']

theorem Spells.exists_of_append (h : Spells radix (cs ++ more) n) :
    ∃ m ≤ n, Spells radix cs m := by
  induction more using List.reverseRecOn generalizing n with
  | nil => exact ⟨n, Nat.le_refl n, by simpa using h⟩
  | append_singleton more c ih =>
    rw [← List.append_assoc] at h
    obtain ⟨m, d, hm, hd, rfl⟩ := spells_append_singleton_iff.mp h
    obtain ⟨l, hl, hspells⟩ := ih hm
    have hgrow : m ≤ radix * m := Nat.le_mul_of_pos_left m (by have := hd.1; omega)
    exact ⟨l, by omega, hspells⟩

theorem Spells.exists_of_mem (h : Spells radix cs n) (hc : c ∈ cs) : ∃ d, Denotes radix c d := by
  obtain ⟨before, behind, rfl⟩ := List.append_of_mem hc
  rw [List.append_cons] at h
  obtain ⟨_, -, hpart⟩ := h.exists_of_append
  obtain ⟨_, d, -, hd, -⟩ := spells_append_singleton_iff.mp hpart
  exact ⟨d, hd⟩

/-- Some digits at the start make a number from the limit on. -/
def Overflows (radix : Nat) (cs : List Char) : Prop :=
  ∃ digits n, digits <+: cs ∧ Spells radix digits n ∧ 2 ^ 64 ≤ n

theorem Spells.not_overflows (hradix : radix ≤ 16) (h : Spells radix cs n) (hn : n < 2 ^ 64) :
    ¬ Overflows radix cs := by
  rintro ⟨digits, m, ⟨more, rfl⟩, hm, hlimit⟩
  obtain ⟨l, hl, hspells⟩ := h.exists_of_append
  have := hm.unique hradix hspells
  omega

/-! ### The reader of digits -/

/-- What reading digits gives, if it is as the text demands. -/
def DigitsRead (radix : Nat) (cs : List Char) : Except Defect Nat → Prop
  | .ok n => Spells radix cs n ∧ n < 2 ^ 64
  | .error .empty => False
  | .error .tooLarge => Overflows radix cs
  | .error .invalidDigit => (¬ ∃ n, Spells radix cs n) ∧ ¬ Overflows radix cs

/-- **Digits are read as they are spelled.** The induction is on the digits to come; those already
read make the value carried along. -/
theorem digitsRead_readDigits (hradix : radix ≤ 16) {done : List Char} {value : Nat}
    (hdone : Spells radix done value) (hvalue : value < 2 ^ 64) (cs : List Char) :
    DigitsRead radix (done ++ cs) (readDigits radix value cs) := by
  induction cs generalizing done value with
  | nil => simpa [readDigits, DigitsRead] using ⟨hdone, hvalue⟩
  | cons c cs ih =>
    rw [readDigits, List.append_cons]
    cases hc : digit? radix c with
    | none =>
      have hnot : ¬ ∃ d, Denotes radix c d := by
        rintro ⟨d, hd⟩
        rw [← digit?_eq_some_iff hradix, hc] at hd
        cases hd
      refine ⟨fun ⟨n, hn⟩ => hnot (hn.exists_of_mem (by simp)), ?_⟩
      -- a part at the start is one of what was read, or has this character in it
      rintro ⟨digits, n, hstart, hn, hlimit⟩
      rcases List.prefix_or_prefix_of_prefix hstart (List.prefix_append (done ++ [c]) cs) with
        hpart | hpart
      · rcases List.prefix_concat_iff.mp hpart with rfl | hpart
        · exact hnot (hn.exists_of_mem (by simp))
        · exact hdone.not_overflows hradix hvalue ⟨digits, n, hpart, hn, hlimit⟩
      · exact hnot (hn.exists_of_mem (hpart.subset (by simp)))
    | some d =>
      have hspells : Spells radix (done ++ [c]) (radix * value + d) :=
        spells_append_singleton_iff.mpr ⟨value, d, hdone, (digit?_eq_some_iff hradix).mp hc, rfl⟩
      by_cases hlimit : radix * value + d < limit
      · simp only [hlimit, if_true]
        exact ih hspells hlimit
      · simp only [hlimit, if_false]
        exact ⟨_, _, List.prefix_append _ _, hspells, Nat.le_of_not_lt hlimit⟩

/-! ### Numerals -/

/-- The text behind the sign that may stand at its start. -/
def dropPlus : List Char → List Char
  | '+' :: cs => cs
  | cs => cs

/-- **The texts of numerals:** a sign or none, then digits for a number below the limit. -/
def IsNumeral (radix : Nat) (cs : List Char) (n : Nat) : Prop :=
  dropPlus cs ≠ [] ∧ Spells radix (dropPlus cs) n ∧ n < 2 ^ 64

/-- **What is wrong with every other text.** -/
def Fails (radix : Nat) (cs : List Char) : Defect → Prop
  | .empty => cs = []
  | .tooLarge => Overflows radix (dropPlus cs)
  | .invalidDigit =>
    cs ≠ [] ∧ ¬ Overflows radix (dropPlus cs) ∧ ¬ ∃ n, IsNumeral radix cs n

theorem not_overflows_nil : ¬ Overflows radix [] := by
  rintro ⟨digits, n, hstart, hn, hlimit⟩
  obtain rfl := List.prefix_nil.mp hstart
  obtain ⟨ds, hds, rfl⟩ := hn
  obtain rfl := List.forall₂_nil_left_iff.mp hds
  simp at hlimit

theorem Fails.unique {d d' : Defect} (h : Fails radix cs d) (h' : Fails radix cs d') : d = d' := by
  have hempty : cs = [] → ¬ Overflows radix (dropPlus cs) := by
    rintro rfl
    exact not_overflows_nil
  cases d <;> cases d' <;> simp_all [Fails]

theorem IsNumeral.not_fails (hradix : radix ≤ 16) (h : IsNumeral radix cs n) (d : Defect) :
    ¬ Fails radix cs d := by
  obtain ⟨hne, hspells, hlimit⟩ := h
  cases d with
  | empty => rintro rfl; exact hne rfl
  | invalidDigit => exact fun hfails => hfails.2.2 ⟨n, hne, hspells, hlimit⟩
  | tooLarge => exact hspells.not_overflows hradix hlimit

theorem read_eq (radix : Nat) (cs : List Char) : read radix cs =
    if cs = [] then .error .empty
    else if dropPlus cs = [] then .error .invalidDigit
    else readDigits radix 0 (dropPlus cs) := by
  cases cs with
  | nil => rfl
  | cons c cs =>
    by_cases hc : c = '+'
    · subst hc
      cases cs <;> rfl
    · simp [read, dropPlus, hc]

/-- What reading a numeral gives, if it is as the text demands. -/
def NumeralRead (radix : Nat) (cs : List Char) : Except Defect Nat → Prop
  | .ok n => IsNumeral radix cs n
  | .error d => Fails radix cs d

theorem numeralRead_read (hradix : radix ≤ 16) (cs : List Char) :
    NumeralRead radix cs (read radix cs) := by
  rw [read_eq]
  split_ifs with hempty hplus
  · exact hempty
  · refine ⟨hempty, by rw [hplus]; exact not_overflows_nil, fun ⟨n, hn⟩ => hn.1 hplus⟩
  · have h := digitsRead_readDigits hradix spells_nil (by decide) (dropPlus cs)
    rw [List.nil_append] at h
    cases hread : readDigits radix 0 (dropPlus cs) with
    | ok n =>
      rw [hread] at h
      exact ⟨hplus, h⟩
    | error d =>
      rw [hread] at h
      cases d with
      | empty => exact h.elim
      | invalidDigit => exact ⟨hempty, h.2, fun ⟨n, hn⟩ => h.1 ⟨n, hn.2.1⟩⟩
      | tooLarge => exact h

theorem read_eq_ok_iff (hradix : radix ≤ 16) : read radix cs = .ok n ↔ IsNumeral radix cs n := by
  have hread := numeralRead_read hradix cs
  constructor
  · intro h
    rwa [h] at hread
  · intro h
    cases hresult : read radix cs with
    | ok m =>
      rw [hresult] at hread
      rw [h.2.1.unique hradix hread.2.1]
    | error d =>
      rw [hresult] at hread
      exact absurd hread (h.not_fails hradix d)

/-- **Every other text is refused for its defect.** -/
theorem read_eq_error_iff (hradix : radix ≤ 16) {d : Defect} :
    read radix cs = .error d ↔ Fails radix cs d := by
  have hread := numeralRead_read hradix cs
  constructor
  · intro h
    rwa [h] at hread
  · intro h
    cases hresult : read radix cs with
    | ok n =>
      rw [hresult] at hread
      exact absurd h (hread.not_fails hradix d)
    | error d' =>
      rw [hresult] at hread
      rw [hread.unique h]

/-! ### Written numbers -/

/-- The text is the number as it is written, behind any zeros, in small letters or capitals. -/
def Renders (radix : Nat) (cs : List Char) (n : Nat) : Prop :=
  ∃ zeros digits, cs = List.replicate zeros '0' ++ digits ∧
    digits.map Char.toLower = Nat.toDigits radix n

theorem spells_of_map_toLower (hradix : 1 < radix)
    (h : cs.map Char.toLower = Nat.toDigits radix n) : Spells radix cs n := by
  induction n using Nat.strongRecOn generalizing cs with
  | ind n ih =>
    rw [Nat.toDigits_eq_if hradix] at h
    split_ifs at h with hn
    · obtain ⟨c, rfl, hc⟩ := List.map_eq_singleton_iff.mp h
      simpa using spells_append_singleton_iff.mpr ⟨0, n, spells_nil, ⟨hn, hc⟩, by omega⟩
    · obtain ⟨high, low, rfl, hhigh, hlow⟩ := List.map_eq_append_iff.mp h
      obtain ⟨c, rfl, hc⟩ := List.map_eq_singleton_iff.mp hlow
      have hsmaller : n / radix < n := Nat.div_lt_self (by omega) hradix
      exact spells_append_singleton_iff.mpr ⟨n / radix, n % radix, ih _ hsmaller hhigh,
        ⟨Nat.mod_lt n (by omega), hc⟩, (Nat.div_add_mod n radix).symm⟩

theorem Spells.zero_cons (hradix : 0 < radix) (h : Spells radix cs n) :
    Spells radix ('0' :: cs) n := by
  obtain ⟨ds, hds, rfl⟩ := h
  refine ⟨ds ++ [0], ?_, Nat.ofDigits_append_zero ds⟩
  rw [List.reverse_cons]
  exact List.rel_append hds (.cons ⟨hradix, rfl⟩ .nil)

theorem Renders.spells (hradix : 1 < radix) (h : Renders radix cs n) : Spells radix cs n := by
  obtain ⟨zeros, digits, rfl, hdigits⟩ := h
  induction zeros with
  | zero => exact spells_of_map_toLower hradix hdigits
  | succ zeros ih => exact ih.zero_cons (by omega)

theorem exists_of_mem_toDigits (hradix : 1 < radix) (h : c ∈ Nat.toDigits radix n) :
    ∃ d < radix, c = Nat.digitChar d := by
  induction n using Nat.strongRecOn with
  | ind n ih =>
    rw [Nat.toDigits_eq_if hradix] at h
    split_ifs at h with hn
    · exact ⟨n, hn, List.mem_singleton.mp h⟩
    · rcases List.mem_append.mp h with h | h
      · exact ih _ (Nat.div_lt_self (by omega) hradix) h
      · exact ⟨n % radix, Nat.mod_lt n (by omega), List.mem_singleton.mp h⟩

theorem renders_toDigits (hradix : 1 < radix) (hradix' : radix ≤ 16) (zeros n : Nat) :
    Renders radix (List.replicate zeros '0' ++ Nat.toDigits radix n) n := by
  refine ⟨zeros, _, rfl, ?_⟩
  have hsmall : ∀ c ∈ Nat.toDigits radix n, c.toLower = c := by
    intro c hc
    obtain ⟨d, hd, rfl⟩ := exists_of_mem_toDigits hradix hc
    exact toLower_digitChar (by omega)
  rw [List.map_congr_left hsmall, List.map_id']

theorem renders_hexPadded (width n : Nat) : Renders 16 (hexPadded width n) n := by
  refine ⟨_, _, rfl, ?_⟩
  have hsmall : ∀ c ∈ hex n, (Char.toLower ∘ Char.toUpper) c = c := by
    intro c hc
    obtain ⟨d, hd, rfl⟩ := exists_of_mem_toDigits (by decide) hc
    exact toLower_toUpper_digitChar hd
  rw [List.map_map, List.map_congr_left hsmall, List.map_id', hex]

theorem Renders.ne_nil (h : Renders radix cs n) : cs ≠ [] := by
  obtain ⟨zeros, digits, rfl, hdigits⟩ := h
  rintro hnil
  obtain rfl := (List.append_eq_nil_iff.mp hnil).2
  exact Nat.toDigits_ne_nil hdigits.symm

theorem Denotes.isAlphanum (hradix : radix ≤ 16) {d : Nat} (h : Denotes radix c d) :
    c.isAlphanum = true := by
  obtain ⟨hd, hc⟩ := h
  have hsame := congrArg Char.toNat hc
  rw [toNat_toLower, toNat_digitChar (by omega)] at hsame
  rw [Text.isAlphanum_iff]
  split_ifs at hsame <;> omega

theorem Renders.isAlphanum (hradix : 1 < radix) (hradix' : radix ≤ 16) (h : Renders radix cs n) :
    ∀ c ∈ cs, c.isAlphanum = true := by
  intro c hc
  obtain ⟨d, hd⟩ := (h.spells hradix).exists_of_mem hc
  exact hd.isAlphanum hradix'

theorem dropPlus_eq_self (h : '+' ∉ cs) : dropPlus cs = cs := by
  cases cs with
  | nil => rfl
  | cons c cs =>
    rw [dropPlus]
    rintro rest heq
    simp [heq] at h

/-- **A written number is a numeral.** -/
theorem Renders.isNumeral (hradix : 1 < radix) (hradix' : radix ≤ 16) (h : Renders radix cs n)
    (hn : n < 2 ^ 64) : IsNumeral radix cs n := by
  have hplus : '+' ∉ cs := fun hmem => by
    have hletter := h.isAlphanum hradix hradix' _ hmem
    simp at hletter
  rw [IsNumeral, dropPlus_eq_self hplus]
  exact ⟨h.ne_nil, h.spells hradix, hn⟩

end EditOverlay.Numeral
