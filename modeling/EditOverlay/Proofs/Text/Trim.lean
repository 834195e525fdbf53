import EditOverlay.Text.Blank
import Mathlib.Data.List.DropRight

/-! # Text: what is left without blanks

`Trims text core` says that a text is `core` with blanks around it, as many as there are. Every text
has one such core, and `trim` finds it (`trim_eq_iff`). Letters and digits are no blanks, so that a
text of them is found whatever blanks stand around it (`trims_of_alphanum`). -/

namespace EditOverlay.Text

/-- The text consists of blanks. -/
def Blank (cs : List Char) : Prop := ∀ c ∈ cs, isBlank c = true

instance : DecidablePred Blank := fun cs =>
  decidable_of_iff (cs.all isBlank = true) List.all_eq_true

/-- The text is `core` with blanks before and behind it, and `core` has none at its ends. -/
def Trims (text core : List Char) : Prop :=
  ∃ before behind, text = before ++ core ++ behind ∧ Blank before ∧ Blank behind ∧
    (∀ c ∈ core.head?, isBlank c = false) ∧ ∀ c ∈ core.getLast?, isBlank c = false

variable {text core before behind : List Char}

theorem blank_nil : Blank [] := fun _ h => by simp at h

theorem Blank.append (h : Blank before) (h' : Blank behind) : Blank (before ++ behind) :=
  fun c hc => (List.mem_append.mp hc).elim (h c) (h' c)

theorem trims_trim (text : List Char) : Trims text (trim text) := by
  -- the blanks at the start, the core and the blanks at the end
  have hsplit : text = text.takeWhile isBlank ++ trim text ++
      (text.dropWhile isBlank).rtakeWhile isBlank := by
    have hend : trim text ++ (text.dropWhile isBlank).rtakeWhile isBlank =
        text.dropWhile isBlank := List.rdropWhile_append_rtakeWhile
    rw [List.append_assoc, hend, List.takeWhile_append_dropWhile]
  refine ⟨_, _, hsplit, fun c hc => List.mem_takeWhile_imp hc,
    fun c hc => List.mem_rtakeWhile_imp hc, fun c hc => ?_, fun c hc => ?_⟩
  · obtain ⟨rest, hrest⟩ : trim text <+: text.dropWhile isBlank := List.rdropWhile_prefix isBlank _
    have hfirst := List.head?_dropWhile_not isBlank text
    rw [← hrest, List.head?_append, Option.mem_def.mp hc] at hfirst
    exact hfirst
  · obtain ⟨hne, rfl⟩ := List.mem_getLast?_eq_getLast hc
    exact eq_false_of_ne_true (List.rdropWhile_last_not isBlank _ hne)

theorem trimEnd_append (h : Blank behind) (cs : List Char) :
    trimEnd (cs ++ behind) = trimEnd cs := by
  have hreverse : ∀ c ∈ behind.reverse, isBlank c = true := fun c hc => h c (List.mem_reverse.mp hc)
  rw [trimEnd, trimEnd, List.reverse_append, List.dropWhile_append_of_pos hreverse]

theorem trimEnd_eq_self (h : ∀ c ∈ core.getLast?, isBlank c = false) : trimEnd core = core := by
  refine List.rdropWhile_eq_self_iff.mpr fun hne => ?_
  simp [h _ (List.getLast?_eq_getLast_of_ne_nil hne)]

/-- **The core of a text is what is left without the blanks at its ends.** -/
theorem trim_eq_iff : trim text = core ↔ Trims text core := by
  refine ⟨fun h => h ▸ trims_trim text, ?_⟩
  rintro ⟨before, behind, rfl, hbefore, hbehind, hfirst, hlast⟩
  rw [trim, List.append_assoc, List.dropWhile_append_of_pos hbefore]
  cases core with
  | nil =>
    rw [List.nil_append, List.dropWhile_eq_nil_iff.mpr hbehind]
    rfl
  | cons c cs =>
    rw [List.cons_append, List.dropWhile_cons_of_neg (by simp [hfirst c rfl]), ← List.cons_append,
      trimEnd_append hbehind, trimEnd_eq_self hlast]

theorem Trims.unique {core' : List Char} (h : Trims text core) (h' : Trims text core') :
    core = core' :=
  (trim_eq_iff.mpr h).symm.trans (trim_eq_iff.mpr h')

theorem trims_nil_iff : Trims text [] ↔ Blank text := by
  constructor
  · rintro ⟨before, behind, rfl, hbefore, hbehind, -, -⟩
    simpa using hbefore.append hbehind
  · exact fun h => ⟨text, [], by simp, h, blank_nil, by simp, by simp⟩

theorem Trims.eq_nil (hcore : Trims text core) (h : Blank text) : core = [] :=
  hcore.unique (trims_nil_iff.mpr h)

/-! ### Letters and digits -/

theorem isAlphanum_iff {c : Char} : c.isAlphanum = true ↔ 48 ≤ c.toNat ∧ c.toNat ≤ 57 ∨
    65 ≤ c.toNat ∧ c.toNat ≤ 90 ∨ 97 ≤ c.toNat ∧ c.toNat ≤ 122 := by
  have hle : ∀ a b : UInt32, a ≤ b ↔ a.toNat ≤ b.toNat := fun a b => Iff.rfl
  have hranges : c.isAlphanum = (decide (c.val ≥ 'A'.val ∧ c.val ≤ 'Z'.val) ||
      (c.val ≥ 'a'.val && c.val ≤ 'z'.val) || (c.val ≥ '0'.val && c.val ≤ '9'.val)) := rfl
  simp [hranges, hle]
  omega

theorem isBlank_eq_false {c : Char} (h : c.isAlphanum = true) : isBlank c = false := by
  have := isAlphanum_iff.mp h
  simp [isBlank, blankRanges]
  omega

theorem trims_of_alphanum (hbefore : Blank before) (hbehind : Blank behind)
    (h : ∀ c ∈ core, c.isAlphanum = true) : Trims (before ++ core ++ behind) core :=
  ⟨before, behind, rfl, hbefore, hbehind,
    fun c hc => isBlank_eq_false (h c (List.mem_of_mem_head? hc)),
    fun c hc => isBlank_eq_false (h c (List.mem_of_mem_getLast? hc))⟩

theorem Trims.notMem {c : Char} (h : Trims text core) (hcore : ∀ c ∈ core, c.isAlphanum = true)
    (hblank : isBlank c = false) (hletter : c.isAlphanum = false) : c ∉ text := by
  obtain ⟨before, behind, rfl, hbefore, hbehind, -, -⟩ := h
  intro hc
  rcases List.mem_append.mp hc with hc | hc
  · rcases List.mem_append.mp hc with hc | hc
    · simp [hbefore c hc] at hblank
    · simp [hcore c hc] at hletter
  · simp [hbehind c hc] at hblank

end EditOverlay.Text
