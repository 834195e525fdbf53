import EditOverlay.Proofs.Command.Position

/-! # Lists of values as texts

A text is cut into the pieces between its commas (`Pieces`), and the pieces list values if each of
them is a value with blanks around it, or blank (`Lists`). Exactly the lists of values are read, and
every other list is refused for the first piece that is no value (`readPieces_eq_ok_iff`,
`readPieces_eq_error_iff`). Values that are written in hexadecimal, with or without a mark, are such
a list (`Lists.values_of_written`). -/

namespace EditOverlay.Command

open Numeral (Renders IsNumeral Fails)
open Text (Blank Trims)

/-! ### Pieces -/

/-- The texts between separators. -/
def Pieces (sep : Char) (text : List Char) (pieces : List (List Char)) : Prop :=
  pieces ≠ [] ∧ (∀ piece ∈ pieces, sep ∉ piece) ∧ text = [sep].intercalate pieces

theorem notMem_of_mem_splitOn {sep : Char} {text piece : List Char}
    (h : piece ∈ text.splitOn sep) : sep ∉ piece := by
  induction text generalizing piece with
  | nil =>
    rw [List.splitOn_nil, List.mem_singleton] at h
    simp [h]
  | cons c text ih =>
    obtain ⟨first, others, hsplit⟩ := List.exists_cons_of_ne_nil (List.splitOn_ne_nil sep text)
    rw [List.splitOn_cons_eq_if_modifyHead, hsplit] at h
    rw [hsplit] at ih
    split_ifs at h with hc
    · rcases List.mem_cons.mp h with rfl | h
      · simp
      · exact ih h
    · rcases List.mem_cons.mp h with rfl | h
      · have hne : sep ≠ c := fun heq => hc (by simp [heq])
        simp [hne, ih (List.mem_cons_self)]
      · exact ih (List.mem_cons_of_mem _ h)

theorem pieces_iff {sep : Char} {text : List Char} {pieces : List (List Char)} :
    Pieces sep text pieces ↔ text.splitOn sep = pieces := by
  constructor
  · rintro ⟨hne, hnot, rfl⟩
    exact List.splitOn_intercalate sep hnot hne
  · rintro rfl
    exact ⟨List.splitOn_ne_nil sep text, fun piece => notMem_of_mem_splitOn,
      (List.intercalate_splitOn sep).symm⟩

theorem pieces_splitOn (sep : Char) (text : List Char) : Pieces sep text (text.splitOn sep) :=
  pieces_iff.mpr rfl

/-! ### Values -/

/-- The mark before the digits of a value, and the digits. -/
inductive ValueMark : List Char → List Char → Prop
  | small (cs : List Char) : ValueMark ('0' :: 'x' :: cs) cs
  | none {cs : List Char} (hsmall : ¬ ['0', 'x'] <+: cs) : ValueMark cs cs

/-- **The texts of values:** a mark or none, and a hexadecimal numeral. -/
def IsValue (core : List Char) (v : Nat) : Prop :=
  ∃ digits, ValueMark core digits ∧ IsNumeral 16 digits v

/-- **The pieces list the values:** each piece is an item with blanks around it, or blank. -/
inductive Lists (Item : List Char → Nat → Prop) : List (List Char) → List Nat → Prop
  | nil : Lists Item [] []
  | blank {piece pieces values} : Blank piece → Lists Item pieces values →
    Lists Item (piece :: pieces) values
  | item {piece core v pieces values} : Trims piece core → Item core v →
    Lists Item pieces values → Lists Item (piece :: pieces) (v :: values)

/-- Some piece is neither a value nor blank, and `e` is what is wrong with the first one. -/
inductive FirstBad : List (List Char) → SpecDefect → Prop
  | here {piece core digits d pieces} : Trims piece core → core ≠ [] → ValueMark core digits →
    Fails 16 digits d → FirstBad (piece :: pieces) (.value digits d)
  | blank {piece pieces e} : Blank piece → FirstBad pieces e → FirstBad (piece :: pieces) e
  | item {piece core v pieces e} : Trims piece core → IsValue core v → FirstBad pieces e →
    FirstBad (piece :: pieces) e

variable {core digits text piece : List Char} {pieces : List (List Char)} {values : List Nat}
  {pos v : Nat} {e : SpecDefect}

theorem valueMark_iff : ValueMark core digits ↔ dropMark core = digits := by
  constructor
  · intro h
    cases h with
    | small => rfl
    | none hsmall =>
      unfold dropMark
      split
      · exact absurd ⟨_, rfl⟩ hsmall
      · rfl
  · rintro rfl
    unfold dropMark
    split
    · exact .small _
    · rename_i hsmall
      refine .none ?_
      rintro ⟨rest, rfl⟩
      exact hsmall rest rfl

theorem readValue_eq_ok_iff : readValue core = .ok v ↔ IsValue core v := by
  simp [readValue, mapError_eq_ok, Numeral.read_eq_ok_iff, IsValue, valueMark_iff]

theorem readValue_eq_error_iff : readValue core = .error e ↔
    ∃ digits d, ValueMark core digits ∧ Fails 16 digits d ∧ e = .value digits d := by
  simp [readValue, mapError_eq_error, Numeral.read_eq_error_iff, valueMark_iff]

theorem IsValue.ne_nil (h : IsValue core v) : core ≠ [] := by
  obtain ⟨digits, hmark, hne, -⟩ := h
  rintro rfl
  obtain rfl := valueMark_iff.mp hmark
  exact hne rfl

/-! ### Lists of values -/

theorem lists_nil_iff {Item : List Char → Nat → Prop} :
    Lists Item pieces [] ↔ ∀ piece ∈ pieces, Blank piece := by
  induction pieces with
  | nil => simpa using .nil
  | cons piece pieces ih =>
    rw [List.forall_mem_cons, ← ih]
    constructor
    · intro h
      cases h with
      | blank hblank hlists => exact ⟨hblank, hlists⟩
    · exact fun h => .blank h.1 h.2

/-- The values of the pieces, in their order. -/
def readPieces (pieces : List (List Char)) : Except SpecDefect (List Nat) :=
  ((pieces.map Text.trim).filter (!·.isEmpty)).mapM readValue

theorem readValues_eq (h : Pieces ',' text pieces) : readValues text = readPieces pieces := by
  rw [readValues, items, pieces_iff.mp h, readPieces]

theorem readPieces_cons_blank (h : Blank piece) (pieces : List (List Char)) :
    readPieces (piece :: pieces) = readPieces pieces := by
  have htrim : Text.trim piece = [] := Text.trim_eq_iff.mpr (Text.trims_nil_iff.mpr h)
  simp [readPieces, htrim]

theorem readPieces_cons_item (hcore : Trims piece core) (hne : core ≠ [])
    (pieces : List (List Char)) : readPieces (piece :: pieces) = do
      let v ← readValue core
      let values ← readPieces pieces
      return v :: values := by
  have htrim : Text.trim piece = core := Text.trim_eq_iff.mpr hcore
  rw [readPieces, List.map_cons, htrim, List.filter_cons_of_pos (by simpa using hne),
    List.mapM_cons]
  rfl

theorem blank_or_exists_trims (piece : List Char) :
    Blank piece ∨ ∃ core, Trims piece core ∧ core ≠ [] := by
  have htrim := Text.trims_trim piece
  by_cases h : Text.trim piece = []
  · exact .inl (Text.trims_nil_iff.mp (h ▸ htrim))
  · exact .inr ⟨_, htrim, h⟩

theorem lists_cons_blank_iff (h : Blank piece) :
    Lists IsValue (piece :: pieces) values ↔ Lists IsValue pieces values := by
  constructor
  · intro hlists
    cases hlists with
    | blank _ hlists => exact hlists
    | item hcore hvalue _ =>
      exact absurd (hcore.eq_nil h) hvalue.ne_nil
  · exact .blank h

theorem lists_cons_item_iff (hcore : Trims piece core) (hne : core ≠ []) :
    Lists IsValue (piece :: pieces) values ↔
      ∃ v values', IsValue core v ∧ Lists IsValue pieces values' ∧ values = v :: values' := by
  constructor
  · intro hlists
    cases hlists with
    | blank h _ => exact absurd (hcore.eq_nil h) hne
    | item hcore' hvalue hlists =>
      obtain rfl := hcore.unique hcore'
      exact ⟨_, _, hvalue, hlists, rfl⟩
  · rintro ⟨v, values', hvalue, hlists, rfl⟩
    exact .item hcore hvalue hlists

theorem readPieces_eq_ok_iff : readPieces pieces = .ok values ↔ Lists IsValue pieces values := by
  induction pieces generalizing values with
  | nil =>
    constructor
    · rintro ⟨⟩
      exact .nil
    · intro h
      cases h
      rfl
  | cons piece pieces ih =>
    rcases blank_or_exists_trims piece with hblank | ⟨core, hcore, hne⟩
    · rw [readPieces_cons_blank hblank, ih, lists_cons_blank_iff hblank]
    · simp only [readPieces_cons_item hcore hne, lists_cons_item_iff hcore hne, bind_eq_ok,
        readValue_eq_ok_iff, ih]
      constructor
      · rintro ⟨v, hvalue, values', hlists, hvalues⟩
        cases hvalues
        exact ⟨v, values', hvalue, hlists, rfl⟩
      · rintro ⟨v, values', hvalue, hlists, rfl⟩
        exact ⟨v, hvalue, values', hlists, rfl⟩

theorem readPieces_eq_error_iff : readPieces pieces = .error e ↔ FirstBad pieces e := by
  induction pieces with
  | nil =>
    constructor
    · rintro ⟨⟩
    · intro h
      cases h
  | cons piece pieces ih =>
    rcases blank_or_exists_trims piece with hblank | ⟨core, hcore, hne⟩
    · rw [readPieces_cons_blank hblank, ih]
      constructor
      · exact .blank hblank
      · intro h
        cases h with
        | here hcore hne _ _ =>
          exact absurd (hcore.eq_nil hblank) hne
        | blank _ h => exact h
        | item _ _ h => exact h
    · rw [readPieces_cons_item hcore hne, bind_eq_error]
      constructor
      · rintro (h | ⟨v, hvalue, h⟩)
        · obtain ⟨digits, d, hmark, hd, rfl⟩ := readValue_eq_error_iff.mp h
          exact .here hcore hne hmark hd
        · rcases bind_eq_error.mp h with h | ⟨_, -, h⟩
          · exact .item hcore (readValue_eq_ok_iff.mp hvalue) (ih.mp h)
          · cases h
      · intro h
        cases h with
        | here hcore' _ hmark hd =>
          obtain rfl := hcore.unique hcore'
          exact .inl (readValue_eq_error_iff.mpr ⟨_, _, hmark, hd, rfl⟩)
        | blank hblank _ => exact absurd (hcore.eq_nil hblank) hne
        | item hcore' hvalue h =>
          obtain rfl := hcore.unique hcore'
          exact .inr ⟨_, readValue_eq_ok_iff.mpr hvalue, bind_eq_error.mpr (.inl (ih.mpr h))⟩

/-! ### Written values -/

/-- The text is the value as it is written: in hexadecimal, behind a mark or without one. -/
def ValueText (cs : List Char) (v : Nat) : Prop :=
  ∃ mark digits, (mark = [] ∨ mark = ['0', 'x']) ∧ Renders 16 digits v ∧ cs = mark ++ digits

theorem ValueText.isAlphanum (h : ValueText core v) : ∀ c ∈ core, c.isAlphanum = true := by
  obtain ⟨mark, digits, hmark, hdigits, rfl⟩ := h
  have hletters := hdigits.isAlphanum (by decide) (by decide)
  rcases hmark with rfl | rfl
  · simpa using hletters
  · simpa using hletters

theorem ValueText.isValue (h : ValueText core v) (hv : v < 2 ^ 64) : IsValue core v := by
  obtain ⟨mark, digits, rfl | rfl, hdigits, rfl⟩ := h
  · refine ⟨_, .none ?_, hdigits.isNumeral (by decide) (by decide) hv⟩
    -- the letter of a mark is no digit
    rintro ⟨rest, rfl⟩
    obtain ⟨d, -, hd⟩ := (hdigits.spells (by decide)).exists_of_mem (c := 'x') (by simp)
    exact Nat.digitChar_ne 'x' (by decide) hd.symm
  · exact ⟨digits, .small digits, hdigits.isNumeral (by decide) (by decide) hv⟩

/-- **Written values are values,** if they are below the limit. -/
theorem Lists.values_of_written (h : Lists ValueText pieces values)
    (hlimit : ∀ v ∈ values, v < 2 ^ 64) : Lists IsValue pieces values := by
  induction h with
  | nil => exact .nil
  | blank hblank _ ih => exact .blank hblank (ih hlimit)
  | item hcore htext _ ih =>
    rw [List.forall_mem_cons] at hlimit
    exact .item hcore (htext.isValue hlimit.1) (ih hlimit.2)

theorem Lists.notMem_of_written (h : Lists ValueText pieces values) :
    ∀ piece ∈ pieces, ',' ∉ piece := by
  induction h with
  | nil => simp
  | blank hblank _ ih =>
    refine List.forall_mem_cons.mpr ⟨fun hmem => ?_, ih⟩
    have hcomma := hblank ',' hmem
    revert hcomma
    decide
  | item hcore htext _ ih =>
    exact List.forall_mem_cons.mpr ⟨hcore.notMem htext.isAlphanum (by decide) (by decide), ih⟩

theorem Lists.pieces_of_written (h : Lists ValueText pieces values) (hne : values ≠ []) :
    Pieces ',' ([','].intercalate pieces) pieces := by
  refine ⟨?_, h.notMem_of_written, rfl⟩
  rintro rfl
  cases h
  exact hne rfl

end EditOverlay.Command
