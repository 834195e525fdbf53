import EditOverlay.Proofs.Dump.Rows
import EditOverlay.Proofs.Dump.Writer
import EditOverlay.Proofs.Editor.Script
import EditOverlay.Store.Pattern

/-! # Dumps: views

After any script over stores that are exact and whose elements fit, the dump of a view is refused
exactly if it starts behind the end of the store; any other can be read back, wherever it starts
(`view_read_back`). Each value has its digits and no more, since no operation brings in a value that
does not fit. -/

namespace EditOverlay.Dump

open Editor RunList

variable {σ : Type} [Store σ] {w : Width}

theorem lt_of_fits {value : Nat} (h : w.Fits value) : value < 16 ^ w.hexDigits := by
  have hbound : w.maxValue < 16 ^ w.hexDigits := by cases w <;> decide
  exact Nat.lt_of_le_of_lt h hbound

theorem hexDigits_eq (w : Width) : w.hexDigits = w.bits / 4 := by cases w <;> rfl

/-- **Dumps of views are read back.** After any script, over stores of one width whose reads are
exact and whose elements fit, the dump of `count` values from `offset` on is refused exactly if
`offset` is behind the end of the store, and then nothing is written. Any other writes its text; and
a reader that takes the number before the colon for the address of a line, and cuts what is behind
it into groups of a mark and a quarter of the bits in digits, gets from the text: lines of sixteen
values, the last one aside, with the addresses `offset + 16 * i`, and in all lines together the
values of the view, marked where they are changed. -/
theorem view_read_back (s : σ) (limit : Nat) {steps : List (Step σ)}
    (hstore : ∀ i, Store.Fitting (Store.width s) ((withLimit s limit).play (steps.take i)).store)
    (offset count : Nat) :
    let e := (withLimit s limit).play steps
    let length := Store.length e.store
    (view e offset count = .error (.outOfRange offset length) ↔ length < offset) ∧
      (length < offset →
        ∀ out, (writeView e offset count).runOn out = (.error (.outOfRange offset length), out)) ∧
      (offset ≤ length → ∃ values text rows,
        e.view offset count = .ok values ∧ values.length = min count (length - offset) ∧
        view e offset count = .ok text ∧
        (∀ out, (writeView e offset count).runOn out = (.ok (), out ++ text.toList)) ∧
        read? ((Store.width s).bits / 4) text.toList = some rows ∧
        rows.length = (values.length + 15) / 16 ∧
        (∀ i row, rows[i]? = some row → row.address = offset + 16 * i ∧
          (i + 1 < rows.length → row.cells.length = 16)) ∧
        rows.flatMap Row.cells = cells e.overlay.isChanged offset values) := by
  intro e length
  obtain ⟨hsound, -⟩ := sound_play (Overlay.sound_withLimit (Store.width s).Fits _ _ limit)
    (fun _ hv => hv) fun i => (hstore i).readsWithin
  have hlast := hstore steps.length
  rw [List.take_length] at hlast
  obtain ⟨contents, hexact, hfits⟩ := hlast.exact
  have hview : e.view offset count = _ := view_eq_of_exact hsound.canonical hexact offset count
  have hlength : length = contents.length := hexact.length_eq
  rw [← hlength] at hview
  by_cases hoffset : length < offset
  · have herror : view e offset count = .error (.outOfRange offset length) := by
      unfold view
      rw [hview, if_pos hoffset, bind_error]
    refine ⟨iff_of_true herror hoffset, fun _ out => ?_, fun hle => absurd hoffset (by omega)⟩
    rw [run_writeView, herror]
  · rw [if_neg hoffset] at hview
    generalize hvalues :
      ((e.overlay.runs.overlaid contents).drop offset).take count = values at hview
    have htext : view e offset count = .ok (unlines
        ((lines (Store.width s) e.overlay.isChanged offset values).map String.ofList)) := by
      unfold view
      rw [hview, hlast.width_eq]
      rfl
    have hcount : values.length = min count (length - offset) := by
      rw [← hvalues, List.length_take, List.length_drop, length_overlaid, hlength]
    have hdigits : ∀ v ∈ values, v < 16 ^ (Store.width s).hexDigits := by
      intro v hv
      rw [← hvalues] at hv
      exact lt_of_fits (forall_mem_overlaid hsound.runs_within hfits v
        (List.mem_of_mem_drop (List.mem_of_mem_take hv)))
    refine ⟨⟨fun herror => ?_, fun hlt => absurd hlt hoffset⟩, fun hlt => absurd hlt hoffset,
      fun _ => ⟨values, _, table e.overlay.isChanged offset values, hview, hcount, htext,
        fun out => ?_, ?_, length_table _ _ _, fun i row => row_of_getElem?_table,
        flatMap_cells_table _ _ _⟩⟩
    · rw [htext] at herror
      cases herror
    · rw [run_writeView, htext]
    · rw [← hexDigits_eq]
      exact read?_unlines hdigits

/-- The last twenty elements of the longest store there is, with a change that has been taken back
and one that has not: the addresses have sixteen digits. -/
theorem view_read_back_last_words :
    let s : PatternStore := ⟨.w8, Word.max, 256, []⟩
    let steps : List (Step PatternStore) := [.call (.change (Word.max - 3) [0xab] true),
      .call (.change (Word.max - 18) [7] true), .call .undo]
    let e := (withLimit s 5).play steps
    let offset := Word.max - 20
    (∀ i, Store.Fitting .w8 ((withLimit s 5).play (steps.take i)).store) ∧
      e.overlay.runs = [⟨Word.max - 18, [0xed]⟩, ⟨Word.max - 3, [0xab]⟩] ∧
      view e offset 100 = .ok (
        "FFFFFFFFFFFFFFEB: EB EC*ED EE EF F0 F1 F2 F3 F4 F5 F6 F7 F8 F9 FA\n" ++
        "FFFFFFFFFFFFFFFB: FB*AB FD FE\n") ∧
      ∃ values text rows, e.view offset 100 = .ok values ∧ values.length = 20 ∧
        view e offset 100 = .ok text ∧ read? 2 text.toList = some rows ∧ rows.length = 2 ∧
        rows.flatMap Row.cells = cells e.overlay.isChanged offset values := by
  intro s steps e offset
  have hstore : ∀ i, ((withLimit s 5).play (steps.take i)).store = s := by
    intro i
    rcases i with _ | _ | _ | i
    · rfl
    · rfl
    · rfl
    · rw [List.take_of_length_le (by simp [steps])]
      rfl
  have hfitting : ∀ i, Store.Fitting .w8 ((withLimit s 5).play (steps.take i)).store := by
    intro i
    rw [hstore i]
    exact ⟨rfl, _, s.exact, PatternStore.fits_of_mem_elements (by decide) (by decide)⟩
  obtain ⟨-, -, hinside⟩ := view_read_back s 5 hfitting offset 100
  obtain ⟨values, text, rows, hview, hcount, htext, -, hread, hrows, -, hcells⟩ :=
    hinside (by decide)
  rw [show min 100 (Store.length e.store - offset) = 20 by decide] at hcount
  rw [hcount] at hrows
  rw [show (Store.width s).bits / 4 = 2 by decide] at hread
  exact ⟨hfitting, by decide, by decide, values, text, rows, hview, hcount, htext, hread, hrows,
    hcells⟩

end EditOverlay.Dump
