import EditOverlay.Command.Session
import EditOverlay.Proofs.Command.Spec
import EditOverlay.Proofs.Editor.Dump
import EditOverlay.Proofs.Editor.Files
import EditOverlay.Proofs.Store.Entry

/-! # Sessions of the command: what is prepared

Before a session shows or writes anything it opens the input, makes the edits and takes some back.
It gets that far if and only if the input can be opened and the options can be followed on its bytes
(`Feasible`): the width, each edit and the window of the dump are valid for them
(`Session.exists_feasible`, `Session.exists_prepared`).

`Prepared` is all that is known of the editor then. -/

namespace EditOverlay.Command

/-- How the input is opened. -/
def Options.access (o : Options) : Access := if o.commit then .readWrite else .readOnly

/-- The edits that are not taken back: the first ones. The limit of the undo stack bounds how many
can be. -/
def Options.kept (o : Options) (edits : List Run) : List Run :=
  edits.take (edits.length - min o.undo (min o.undoLimit edits.length))

/-- The texts are read as the edits, in their order. -/
def ReadAs (specs : List String) (edits : List Run) : Prop :=
  List.Forall₂ (fun spec r => readEdit spec.toList = .ok (r.start, r.values)) specs edits

/-- The window of the dump, if one is asked for, starts within the elements or right behind them. -/
def Options.WindowWithin (o : Options) (length : Nat) : Prop :=
  ∀ spec, o.dump = some spec →
    ∃ pos count, readWindow spec.toList = .ok (pos, count) ∧ pos ≤ length

/-- The options can be followed on the bytes of a file: the width is one of elements, the edits can
be read and are valid for the elements of the file, and so is the window of the dump. -/
structure Feasible (o : Options) (bytes : List UInt8) (w : Width) (edits : List Run) : Prop where
  width_eq : w.bits = o.width
  read : ReadAs o.sets edits
  within : ∀ r ∈ edits, r.Within w.Fits (bytes.length / w.byteCount)
  window : o.WindowWithin (bytes.length / w.byteCount)

/-! ### Edits -/

theorem values_ne_nil_of_readEdit {spec : List Char} {pos : Nat} {values : List Nat}
    (h : readEdit spec = .ok (pos, values)) : values ≠ [] := by
  obtain ⟨_, _, _, -, -, -, -, hne⟩ := readEdit_eq_ok_iff.mp h
  exact hne

theorem ReadAs.values_ne_nil {specs : List String} {edits : List Run} (h : ReadAs specs edits) :
    ∀ r ∈ edits, r.values ≠ [] := by
  induction h with
  | nil => exact fun r hr => (List.not_mem_nil hr).elim
  | cons hread _ ih => exact List.forall_mem_cons.mpr ⟨values_ne_nil_of_readEdit hread, ih⟩

theorem ReadAs.eq_nil_iff {specs : List String} {edits : List Run} (h : ReadAs specs edits) :
    edits = [] ↔ specs = [] := by
  cases h <;> simp

theorem Feasible.eq_nil_of_nil {o : Options} {w : Width} {edits : List Run}
    (h : Feasible o [] w edits) : edits = [] := by
  by_contra hne
  obtain ⟨r, hr⟩ := List.exists_mem_of_ne_nil _ hne
  have hlength := List.length_pos_iff.mpr (h.read.values_ne_nil r hr)
  have hstop : r.stop ≤ 0 := (h.within r hr).1.trans (Nat.zero_div _).le
  unfold Run.stop Run.length at hstop
  omega

namespace Session

variable {o : Options} {input : Entry} {e e' : Editor FileStore} {specs : List String}

theorem edit_eq_ok_iff {spec : String} :
    edit e spec = .ok e' ↔ ∃ r : Run, readEdit spec.toList = .ok (r.start, r.values) ∧
      e.change r.start r.values = .ok e' := by
  unfold edit
  rw [bind_eq_ok]
  constructor
  · rintro ⟨⟨pos, values⟩, hread, hchange⟩
    exact ⟨⟨pos, values⟩, mapError_eq_ok.mp hread, mapError_eq_ok.mp hchange⟩
  · rintro ⟨⟨pos, values⟩, hread, hchange⟩
    exact ⟨(pos, values), mapError_eq_ok.mpr hread, mapError_eq_ok.mpr hchange⟩

theorem foldlM_edit_eq_ok_iff :
    specs.foldlM edit e = .ok e' ↔ ∃ edits, ReadAs specs edits ∧ e.changeAll edits = .ok e' := by
  induction specs generalizing e with
  | nil =>
    constructor
    · intro h
      cases h
      exact ⟨[], .nil, rfl⟩
    · rintro ⟨edits, hread, h⟩
      cases hread
      cases h
      rfl
  | cons spec specs ih =>
    rw [List.foldlM_cons, bind_eq_ok]
    constructor
    · rintro ⟨next, hedit, hothers⟩
      obtain ⟨r, hread, hchange⟩ := edit_eq_ok_iff.mp hedit
      obtain ⟨edits, hrest, hall⟩ := ih.mp hothers
      refine ⟨r :: edits, .cons hread hrest, ?_⟩
      exact Editor.changeAll_cons_eq_ok_iff.mpr ⟨next, hchange, hall⟩
    · rintro ⟨edits, hedits, hall⟩
      cases hedits with
      | cons hread hrest =>
        obtain ⟨next, hchange, hall⟩ := Editor.changeAll_cons_eq_ok_iff.mp hall
        exact ⟨next, edit_eq_ok_iff.mpr ⟨_, hread, hchange⟩, ih.mpr ⟨_, hrest, hall⟩⟩

/-! ### Opening -/

theorem checkOptions_eq_ok_iff : checkOptions o input = .ok () ↔
    (∀ why, input ≠ .absent why) ∧ (o.backup = true → o.commit = true) := by
  unfold checkOptions
  cases input <;> cases o.backup <;> cases o.commit <;> simp

theorem openInput_eq_ok_iff :
    openInput o input = .ok e ↔ ∃ bytes w, input.openedBytes o.access = .ok bytes ∧
      (o.backup = true → o.commit = true) ∧ w.bits = o.width ∧
      e = Editor.withLimit ⟨o.input, w, o.access, bytes⟩ o.undoLimit := by
  unfold openInput
  rw [bind_eq_ok]
  constructor
  · rintro ⟨u, hcheck, h⟩
    obtain ⟨w, hwidth, h⟩ := bind_eq_ok.mp h
    obtain ⟨file, hfile, h⟩ := bind_eq_ok.mp h
    cases h
    have hopened : FileStore.ofEntry o.input w o.access input = .ok file := mapError_eq_ok.mp hfile
    obtain ⟨bytes, hbytes, rfl⟩ := map_eq_ok.mp hopened
    exact ⟨bytes, w, hbytes, (checkOptions_eq_ok_iff.mp hcheck).2,
      Width.ofBits_eq_ok_iff.mp (mapError_eq_ok.mp hwidth), rfl⟩
  · rintro ⟨bytes, w, hbytes, hbackup, hwidth, rfl⟩
    have hthere : ∀ why, input ≠ .absent why := by
      rintro why rfl
      cases hbytes
    have hopened : FileStore.ofEntry o.input w o.access input =
        .ok ⟨o.input, w, o.access, bytes⟩ := map_eq_ok.mpr ⟨bytes, hbytes, rfl⟩
    refine ⟨(), checkOptions_eq_ok_iff.mpr ⟨hthere, hbackup⟩, ?_⟩
    refine bind_eq_ok.mpr ⟨w, mapError_eq_ok.mpr (Width.ofBits_eq_ok_iff.mpr hwidth), ?_⟩
    exact bind_eq_ok.mpr ⟨_, mapError_eq_ok.mpr hopened, rfl⟩

/-! ### Preparing -/

/-- The editor of a session that has opened a file, made the edits and taken some back. -/
structure Prepared (o : Options) (bytes : List UInt8) (w : Width) (edits : List Run)
    (e : Editor FileStore) : Prop where
  read : ReadAs o.sets edits
  sound : e.Sound (fun _ => True) FileStore.elements
  store_eq : e.store = ⟨o.input, w, o.access, bytes⟩
  shown_eq : e.shown FileStore.elements = overwriteAll (Codec.elements w bytes) (o.kept edits)
  positions_eq : e.overlay.runs.positions = RunList.positions edits
  saved : o.commit = true → e.save.2 = .ok
      ⟨blockCount (RunList.positions edits), (RunList.positions edits).card⟩ ∧
    e.save.1.store.bytes = Codec.patch w bytes (o.kept edits)

theorem prepare_eq_ok_iff :
    prepare o input = .ok e ↔ ∃ bytes w edits edited, input.openedBytes o.access = .ok bytes ∧
      (o.backup = true → o.commit = true) ∧ w.bits = o.width ∧
      ReadAs o.sets edits ∧
      (Editor.withLimit ⟨o.input, w, o.access, bytes⟩ o.undoLimit).changeAll edits = .ok edited ∧
      e = edited.undoMany o.undo := by
  unfold prepare
  rw [bind_eq_ok]
  constructor
  · rintro ⟨opened, hopen, h⟩
    obtain ⟨edited, hedits, h⟩ := bind_eq_ok.mp h
    cases h
    obtain ⟨bytes, w, hbytes, hbackup, hwidth, rfl⟩ := openInput_eq_ok_iff.mp hopen
    obtain ⟨edits, hread, hall⟩ := foldlM_edit_eq_ok_iff.mp hedits
    exact ⟨bytes, w, edits, edited, hbytes, hbackup, hwidth, hread, hall, rfl⟩
  · rintro ⟨bytes, w, edits, edited, hbytes, hbackup, hwidth, hread, hall, rfl⟩
    refine ⟨_, openInput_eq_ok_iff.mpr ⟨bytes, w, hbytes, hbackup, hwidth, rfl⟩, ?_⟩
    rw [foldlM_edit_eq_ok_iff.mpr ⟨edits, hread, hall⟩]
    rfl

theorem prepared_undoMany {bytes : List UInt8} {w : Width} {edits : List Run}
    (hread : ReadAs o.sets edits)
    (hall : (Editor.withLimit ⟨o.input, w, o.access, bytes⟩ o.undoLimit).changeAll edits = .ok e) :
    Prepared o bytes w edits (e.undoMany o.undo) := by
  have hne := hread.values_ne_nil
  obtain ⟨hsound, hstore, hshown, hpositions⟩ :=
    Editor.undoMany_changeAll FileStore.lawful trivial hne hall o.undo
  refine ⟨hread, hsound, hstore, hshown, hpositions, fun hcommit => ?_⟩
  have haccess : o.access = .readWrite := by rw [Options.access, if_pos hcommit]
  obtain ⟨hresult, hsaved⟩ := Editor.save_undoMany (f := ⟨o.input, w, o.access, bytes⟩) haccess hne
    hall o.undo
  refine ⟨hresult, ?_⟩
  rw [hsaved]
  rfl

/-! ### The window of the dump -/

namespace Prepared

variable {bytes : List UInt8} {w : Width} {edits : List Run}

theorem length_eq (h : Prepared o bytes w edits e) :
    e.overlay.length = bytes.length / w.byteCount := by
  rw [h.sound.length_eq, ← FileStore.length_eq_length_elements, h.store_eq]
  rfl

theorem width_eq (h : Prepared o bytes w edits e) : e.overlay.width = w := by
  rw [← h.sound.width_eq, h.store_eq]
  rfl

theorem dumpText_eq (h : Prepared o bytes w edits e) {spec : String} {pos count : Nat}
    (hspec : o.dump = some spec) (hwindow : readWindow spec.toList = .ok (pos, count)) :
    dumpText o e =
      if bytes.length / w.byteCount < pos then
        .error (.ofError (.outOfRange pos (bytes.length / w.byteCount)))
      else .ok (Dump.unlines ((Dump.lines w e.overlay.isChanged pos
        (((overwriteAll (Codec.elements w bytes) (o.kept edits)).drop pos).take count)).map
          String.ofList)) := by
  have hdump : dumpText o e = (Dump.view e pos count).mapError Failure.ofError := by
    unfold dumpText
    rw [hspec]
    simp only [hwindow]
    rfl
  rw [hdump, Dump.view_eq FileStore.lawful h.sound, h.length_eq, h.shown_eq, h.width_eq]
  split_ifs <;> rfl

theorem exists_dumpText_iff (h : Prepared o bytes w edits e) :
    (∃ dump, dumpText o e = .ok dump) ↔ o.WindowWithin (bytes.length / w.byteCount) := by
  unfold Options.WindowWithin
  cases hspec : o.dump with
  | none =>
    refine ⟨fun _ spec hnone => ?_, fun _ => ⟨"", ?_⟩⟩
    · cases hnone
    · rw [dumpText, hspec]
  | some spec =>
    simp only [Option.some.injEq, forall_eq']
    cases hwindow : readWindow spec.toList with
    | error defect =>
      have hdump : dumpText o e = .error defect.failure := by
        unfold dumpText
        rw [hspec]
        simp only [hwindow]
        rfl
      rw [hdump]
      constructor
      · rintro ⟨dump, hok⟩
        cases hok
      · rintro ⟨pos, count, hok, -⟩
        cases hok
    | ok window =>
      obtain ⟨pos, count⟩ := window
      rw [h.dumpText_eq hspec hwindow]
      split_ifs with hpos
      · constructor
        · rintro ⟨dump, hok⟩
          cases hok
        · rintro ⟨pos', count', hok, hle⟩
          cases hok
          omega
      · exact ⟨fun _ => ⟨pos, count, rfl, by omega⟩, fun _ => ⟨_, rfl⟩⟩

theorem hasChanges_iff (h : Prepared o bytes w edits e) :
    e.overlay.hasChanges = true ↔ edits ≠ [] := by
  have hruns : e.overlay.runs = [] ↔ edits = [] := by
    rw [← RunList.positions_eq_empty_iff h.sound.overlay.canonical.nonempty, h.positions_eq,
      RunList.positions_eq_empty_iff h.read.values_ne_nil]
  rw [Overlay.hasChanges, Bool.not_eq_true', List.isEmpty_eq_false_iff, ne_eq, hruns]

end Prepared

/-! ### Options that can be followed -/

variable {bytes : List UInt8} {w : Width} {edits : List Run}

/-- **A session shows something only if** the input can be opened and its options can be
followed. -/
theorem exists_feasible {dump : String} (hprepare : prepare o input = .ok e)
    (hdump : dumpText o e = .ok dump) : ∃ bytes w edits, input.openedBytes o.access = .ok bytes ∧
      (o.backup = true → o.commit = true) ∧ Feasible o bytes w edits ∧
      Prepared o bytes w edits e := by
  obtain ⟨bytes, w, edits, edited, hbytes, hbackup, hwidth, hread, hall, rfl⟩ :=
    prepare_eq_ok_iff.mp hprepare
  have hprepared := prepared_undoMany hread hall
  have hvalid := ((Editor.sound_file _ _).exists_changeAll_iff FileStore.lawful).mp ⟨edited, hall⟩
  have hwindow := hprepared.exists_dumpText_iff.mp ⟨dump, hdump⟩
  exact ⟨bytes, w, edits, hbytes, hbackup, ⟨hwidth, hread, hvalid, hwindow⟩, hprepared⟩

/-- **A session whose options can be followed** shows something. -/
theorem exists_prepared (hbytes : input.openedBytes o.access = .ok bytes)
    (h : Feasible o bytes w edits) (hbackup : o.backup = true → o.commit = true) :
    ∃ e dump, prepare o input = .ok e ∧ dumpText o e = .ok dump ∧ Prepared o bytes w edits e := by
  obtain ⟨edited, hall⟩ := ((Editor.sound_file ⟨o.input, w, o.access, bytes⟩
    o.undoLimit).exists_changeAll_iff FileStore.lawful).mpr h.within
  have hprepared := prepared_undoMany h.read hall
  obtain ⟨dump, hdump⟩ := hprepared.exists_dumpText_iff.mpr h.window
  have hprepare := prepare_eq_ok_iff.mpr
    ⟨bytes, w, edits, edited, hbytes, hbackup, h.width_eq, h.read, hall, rfl⟩
  exact ⟨_, dump, hprepare, hdump, hprepared⟩

end Session
end EditOverlay.Command
