import EditOverlay.Proofs.Command.Values

/-! # Edits and windows as texts

The grammar of edits and windows. Both are cut in two at their first separator (`FirstCut`): an edit
into a position and a list of values, a window into two positions. Exactly the texts of edits and
windows are read; every other text is refused for what is wrong with it first (`EditDefect`,
`WindowDefect`); and what is written is read back (`readEdit_of_written`,
`readWindow_of_written`). -/

namespace EditOverlay.Command

open Text (Blank Trims)

/-- The two sides of the first separator. -/
def FirstCut (sep : Char) (spec before behind : List Char) : Prop :=
  spec = before ++ sep :: behind ∧ sep ∉ before

/-- **What is wrong with a text that is no edit.** Each defect stands for texts that are without the
ones before it. -/
inductive EditDefect (spec : List Char) : SpecDefect → Prop
  | noEquals : '=' ∉ spec → EditDefect spec (.noEquals spec)
  | position {before behind e} : FirstCut '=' spec before behind → readPosition before = .error e →
    EditDefect spec e
  | value {before behind pos pieces e} : FirstCut '=' spec before behind →
    readPosition before = .ok pos → Pieces ',' behind pieces → FirstBad pieces e →
    EditDefect spec e
  | noValues {before behind pos pieces} : FirstCut '=' spec before behind →
    readPosition before = .ok pos → Pieces ',' behind pieces → (∀ piece ∈ pieces, Blank piece) →
    EditDefect spec (.noValues spec)

/-- **What is wrong with a text that is no window.** -/
inductive WindowDefect (spec : List Char) : SpecDefect → Prop
  | noColon : ':' ∉ spec → WindowDefect spec (.noColon spec)
  | position {before behind e} : FirstCut ':' spec before behind → readPosition before = .error e →
    WindowDefect spec e
  | length {before behind pos e} : FirstCut ':' spec before behind →
    readPosition before = .ok pos → readPosition behind = .error e → WindowDefect spec e

variable {sep : Char} {spec before behind core core' : List Char} {pieces : List (List Char)}
  {values : List Nat} {pos length : Nat} {e : SpecDefect}

/-! ### Cutting at a separator -/

theorem firstCut_iff : FirstCut sep spec before behind ↔
    Text.cut? sep spec = some (before, behind) :=
  Text.cut?_eq_some_iff.symm

theorem notMem_or_exists_firstCut (sep : Char) (spec : List Char) :
    sep ∉ spec ∨ ∃ before behind, FirstCut sep spec before behind := by
  cases h : Text.cut? sep spec with
  | none => exact .inl (Text.cut?_eq_none_iff.mp h)
  | some parts => exact .inr ⟨parts.1, parts.2, firstCut_iff.mpr h⟩

/-! ### Edits -/

theorem readEdit_of_notMem (h : '=' ∉ spec) : readEdit spec = .error (.noEquals spec) := by
  rw [readEdit, Text.cut?_eq_none_iff.mpr h]

theorem readEdit_of_firstCut (hcut : FirstCut '=' spec before behind)
    (hpieces : Pieces ',' behind pieces) : readEdit spec =
      readPosition before >>= fun pos => readPieces pieces >>= fun values =>
        if values = [] then .error (.noValues spec) else .ok (pos, values) := by
  simp only [readEdit, firstCut_iff.mp hcut, readValues_eq hpieces, List.isEmpty_iff]
  rfl

theorem readEdit_eq_ok_iff : readEdit spec = .ok (pos, values) ↔ ∃ before behind pieces,
    FirstCut '=' spec before behind ∧ readPosition before = .ok pos ∧ Pieces ',' behind pieces ∧
      Lists IsValue pieces values ∧ values ≠ [] := by
  constructor
  · intro h
    rcases notMem_or_exists_firstCut '=' spec with hnot | ⟨before, behind, hcut⟩
    · rw [readEdit_of_notMem hnot] at h
      cases h
    · have hpieces := pieces_splitOn ',' behind
      rw [readEdit_of_firstCut hcut hpieces] at h
      obtain ⟨pos', hpos, h⟩ := bind_eq_ok.mp h
      obtain ⟨values', hvalues, h⟩ := bind_eq_ok.mp h
      split_ifs at h with hne
      cases h
      exact ⟨before, behind, _, hcut, hpos, hpieces, readPieces_eq_ok_iff.mp hvalues, hne⟩
  · rintro ⟨before, behind, pieces, hcut, hpos, hpieces, hvalues, hne⟩
    rw [readEdit_of_firstCut hcut hpieces, hpos, readPieces_eq_ok_iff.mpr hvalues, bind_ok, bind_ok,
      if_neg hne]

theorem readEdit_eq_error_iff : readEdit spec = .error e ↔ EditDefect spec e := by
  constructor
  · intro h
    rcases notMem_or_exists_firstCut '=' spec with hnot | ⟨before, behind, hcut⟩
    · rw [readEdit_of_notMem hnot] at h
      cases h
      exact .noEquals hnot
    · have hpieces := pieces_splitOn ',' behind
      rw [readEdit_of_firstCut hcut hpieces] at h
      rcases bind_eq_error.mp h with hpos | ⟨pos, hpos, h⟩
      · exact .position hcut hpos
      · rcases bind_eq_error.mp h with hbad | ⟨values, hvalues, h⟩
        · exact .value hcut hpos hpieces (readPieces_eq_error_iff.mp hbad)
        · split_ifs at h with hnil
          cases h
          rw [hnil, readPieces_eq_ok_iff] at hvalues
          exact .noValues hcut hpos hpieces (lists_nil_iff.mp hvalues)
  · intro h
    cases h with
    | noEquals hnot => exact readEdit_of_notMem hnot
    | position hcut hpos =>
      rw [readEdit_of_firstCut hcut (pieces_splitOn ',' _), hpos, bind_error]
    | value hcut hpos hpieces hbad =>
      rw [readEdit_of_firstCut hcut hpieces, hpos, readPieces_eq_error_iff.mpr hbad, bind_ok,
        bind_error]
    | noValues hcut hpos hpieces hblank =>
      have hvalues := readPieces_eq_ok_iff.mpr (lists_nil_iff.mpr hblank)
      rw [readEdit_of_firstCut hcut hpieces, hpos, hvalues, bind_ok, bind_ok, if_pos rfl]

theorem readEdit_of_written (hcore : Trims before core) (hpos : PositionText core pos)
    (hlists : Lists ValueText pieces values) (hne : values ≠ []) (hlimit : pos < 2 ^ 64)
    (hvalues : ∀ v ∈ values, v < 2 ^ 64) :
    readEdit (before ++ '=' :: [','].intercalate pieces) = .ok (pos, values) := by
  have hequals : '=' ∉ before := hcore.notMem hpos.isAlphanum (by decide) (by decide)
  exact readEdit_eq_ok_iff.mpr ⟨before, _, pieces, ⟨rfl, hequals⟩,
    readPosition_of_written hcore hpos hlimit, hlists.pieces_of_written hne,
    hlists.values_of_written hvalues, hne⟩

/-! ### Windows -/

theorem readWindow_of_notMem (h : ':' ∉ spec) : readWindow spec = .error (.noColon spec) := by
  rw [readWindow, Text.cut?_eq_none_iff.mpr h]

theorem readWindow_of_firstCut (hcut : FirstCut ':' spec before behind) : readWindow spec =
    readPosition before >>= fun pos => readPosition behind >>= fun length => .ok (pos, length) := by
  rw [readWindow, firstCut_iff.mp hcut]
  rfl

theorem readWindow_eq_ok_iff : readWindow spec = .ok (pos, length) ↔ ∃ before behind,
    FirstCut ':' spec before behind ∧ readPosition before = .ok pos ∧
      readPosition behind = .ok length := by
  constructor
  · intro h
    rcases notMem_or_exists_firstCut ':' spec with hnot | ⟨before, behind, hcut⟩
    · rw [readWindow_of_notMem hnot] at h
      cases h
    · rw [readWindow_of_firstCut hcut] at h
      obtain ⟨pos', hpos, h⟩ := bind_eq_ok.mp h
      obtain ⟨length', hlength, h⟩ := bind_eq_ok.mp h
      cases h
      exact ⟨before, behind, hcut, hpos, hlength⟩
  · rintro ⟨before, behind, hcut, hpos, hlength⟩
    rw [readWindow_of_firstCut hcut, hpos, hlength, bind_ok, bind_ok]

theorem readWindow_eq_error_iff : readWindow spec = .error e ↔ WindowDefect spec e := by
  constructor
  · intro h
    rcases notMem_or_exists_firstCut ':' spec with hnot | ⟨before, behind, hcut⟩
    · rw [readWindow_of_notMem hnot] at h
      cases h
      exact .noColon hnot
    · rw [readWindow_of_firstCut hcut] at h
      rcases bind_eq_error.mp h with hpos | ⟨pos, hpos, h⟩
      · exact .position hcut hpos
      · rcases bind_eq_error.mp h with hlength | ⟨length, -, h⟩
        · exact .length hcut hpos hlength
        · cases h
  · intro h
    cases h with
    | noColon hnot => exact readWindow_of_notMem hnot
    | position hcut hpos => rw [readWindow_of_firstCut hcut, hpos, bind_error]
    | length hcut hpos hlength =>
      rw [readWindow_of_firstCut hcut, hpos, hlength, bind_ok, bind_error]

theorem readWindow_of_written (hcore : Trims before core) (hpos : PositionText core pos)
    (hcore' : Trims behind core') (hlength : PositionText core' length) (hlimit : pos < 2 ^ 64)
    (hlimit' : length < 2 ^ 64) : readWindow (before ++ ':' :: behind) = .ok (pos, length) := by
  have hcolon : ':' ∉ before := hcore.notMem hpos.isAlphanum (by decide) (by decide)
  exact readWindow_eq_ok_iff.mpr ⟨before, behind, ⟨rfl, hcolon⟩,
    readPosition_of_written hcore hpos hlimit, readPosition_of_written hcore' hlength hlimit'⟩

/-- **Exactly the texts of edits and windows are read, and what is written is read back.** An edit
is a position and, behind the first equals sign, some values, with commas, blanks and blank items
between them; a window is two positions with a colon between them. Every other text is refused for
the first defect from the left, and an edit without values for that at last. A position may be
written in decimal or hexadecimal, a value in hexadecimal with a mark or without one, in letters of
any case, with any zeros before and any blanks around it. -/
theorem edit_and_window_grammar :
    (∀ spec pos values, readEdit spec = .ok (pos, values) ↔ ∃ before behind pieces,
      FirstCut '=' spec before behind ∧ readPosition before = .ok pos ∧
        Pieces ',' behind pieces ∧ Lists IsValue pieces values ∧ values ≠ []) ∧
    (∀ spec e, readEdit spec = .error e ↔ EditDefect spec e) ∧
    (∀ pos < 2 ^ 64, ∀ values ≠ [], (∀ v ∈ values, v < 2 ^ 64) → ∀ before core pieces,
      Trims before core → PositionText core pos → Lists ValueText pieces values →
        readEdit (before ++ '=' :: [','].intercalate pieces) = .ok (pos, values)) ∧
    (∀ spec pos length, readWindow spec = .ok (pos, length) ↔ ∃ before behind,
      FirstCut ':' spec before behind ∧ readPosition before = .ok pos ∧
        readPosition behind = .ok length) ∧
    (∀ spec e, readWindow spec = .error e ↔ WindowDefect spec e) ∧
    ∀ pos < 2 ^ 64, ∀ length < 2 ^ 64, ∀ before core behind core', Trims before core →
      PositionText core pos → Trims behind core' → PositionText core' length →
        readWindow (before ++ ':' :: behind) = .ok (pos, length) := by
  refine ⟨fun spec pos values => readEdit_eq_ok_iff, fun spec e => readEdit_eq_error_iff, ?_,
    fun spec pos length => readWindow_eq_ok_iff, fun spec e => readWindow_eq_error_iff, ?_⟩
  · intro pos hpos values hne hvalues before core pieces hcore htext hlists
    exact readEdit_of_written hcore htext hlists hne hpos hvalues
  · intro pos hpos length hlength before core behind core' hcore htext hcore' htext'
    exact readWindow_of_written hcore htext hcore' htext' hpos hlength

/-- A capital mark, a blank before a value, an item without one, and a zero behind a mark. -/
theorem edit_and_window_grammar_blank_items :
    readEdit ("0X10= dE,,0x0Ad".toList) = .ok (16, [0xde, 0xad]) ∧
      readWindow ("16 :0X10".toList) = .ok (16, 16) := by
  have hcore : Trims ['0', 'X', '1', '0'] ['0', 'X', '1', '0'] := Text.trim_eq_iff.mp (by decide)
  have hpos : PositionText ['0', 'X', '1', '0'] 16 :=
    .inr ⟨'X', ['1', '0'], .inr rfl, ⟨0, ['1', '0'], rfl, by decide⟩, rfl⟩
  have hcore' : Trims ['1', '6', ' '] ['1', '6'] := Text.trim_eq_iff.mp (by decide)
  have hdecimal : PositionText ['1', '6'] 16 := .inl ⟨0, ['1', '6'], rfl, by decide⟩
  have hfirst : ValueText ['d', 'E'] 0xde :=
    ⟨[], ['d', 'E'], .inl rfl, ⟨0, ['d', 'E'], rfl, by decide⟩, rfl⟩
  have hsecond : ValueText ['0', 'x', '0', 'A', 'd'] 0xad :=
    ⟨['0', 'x'], ['0', 'A', 'd'], .inr rfl, ⟨1, ['A', 'd'], rfl, by decide⟩, rfl⟩
  have hlists : Lists ValueText [[' ', 'd', 'E'], [], ['0', 'x', '0', 'A', 'd']] [0xde, 0xad] :=
    .item (Text.trim_eq_iff.mp (by decide)) hfirst <| .blank (by decide) <|
      .item (Text.trim_eq_iff.mp (by decide)) hsecond .nil
  obtain ⟨-, -, hedit, -, -, hwindow⟩ := edit_and_window_grammar
  exact ⟨hedit 16 (by decide) _ (by decide) (by decide) _ _ _ hcore hpos hlists,
    hwindow 16 (by decide) 16 (by decide) _ _ _ _ hcore' hdecimal hcore hpos⟩

end EditOverlay.Command
