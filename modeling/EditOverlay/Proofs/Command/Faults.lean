import EditOverlay.Proofs.Command.Prepare
import EditOverlay.Proofs.Overlay.Change
import EditOverlay.Proofs.Store.Mapping

/-! # Sessions of the command: faults of the input

An open file refuses a read only for its range, and a file that may be written refuses a write only
for its range or for a value. So an editor of a file refuses a change for the caller's fault only
(`Editor.isContractViolation_of_change`); of the two reports that a session has for a refused edit,
the one on a fault of the storage is never made (`Session.foldlM_edit_eq_error`); and a save of a
file that may be written succeeds. `Session.calls_edits_and_saves_of_file` puts this together with
what holds of the mapping of the file. -/

namespace EditOverlay

/-! ### Whose fault it is -/

theorem checkRange_eq_error {pos count length : Nat} {e : EditError}
    (h : checkRange pos count length = .error e) : e = .rangeOverflow pos count length := by
  unfold checkRange at h
  split_ifs at h
  exact (Except.error.inj h).symm

theorem Width.isContractViolation_of_checkAll {w : Width} {values : List Nat} {e : EditError}
    (h : w.checkAll values = .error e) : e.isContractViolation = true := by
  rw [checkAll_eq_refuse, refuse_eq_error_iff] at h
  obtain ⟨v, -, rfl⟩ := List.mem_map.mp (List.mem_of_head? h)
  rfl

theorem isContractViolation_of_checkWrite {w : Width} {length offset : Nat} {values : List Nat}
    {e : EditError} (h : checkWrite w length offset values = .error e) :
    e.isContractViolation = true := by
  unfold checkWrite at h
  rcases bind_eq_error.mp h with hrange | ⟨stop, -, hfits⟩
  · rw [checkRange_eq_error hrange]
    rfl
  · exact Width.isContractViolation_of_checkAll hfits

namespace FileStore

variable {f : FileStore} {offset count : Nat} {values : List Nat} {e : EditError}

theorem read_eq_error (h : Store.read f offset count = .error e) :
    e = .rangeOverflow offset count f.length := by
  rw [f.exact.read_eq, ← length_eq_length_elements] at h
  cases hchecked : checkRange offset count f.length with
  | error e' =>
    rw [hchecked] at h
    cases h
    exact checkRange_eq_error hchecked
  | ok stop =>
    rw [hchecked] at h
    cases h

theorem write_eq_error_cases {f' : FileStore} (h : Store.write f offset values = (f', .error e)) :
    e.isContractViolation = true ∨
      f.access = .readOnly ∧ e = .writeFailed offset "文件以只读方式打开" := by
  rw [write_eq_settle] at h
  cases haccess : f.access with
  | readOnly =>
    rw [tryWrite, haccess] at h
    cases h
    exact Or.inr ⟨rfl, rfl⟩
  | readWrite =>
    rw [tryWrite_of_readWrite haccess] at h
    cases hcheck : checkWrite f.width f.length offset values with
    | error e' =>
      rw [hcheck] at h
      cases h
      exact Or.inl (isContractViolation_of_checkWrite hcheck)
    | ok u =>
      rw [hcheck] at h
      cases h

theorem access_call (f : FileStore) (c : Store.Call) : (Store.call f c).1.access = f.access := by
  cases c with
  | read offset count => rfl
  | write offset values =>
    rcases hwrite : Store.write f offset values with ⟨f', e | u⟩
    · simp only [Store.call, hwrite, write_eq_error hwrite]
    · obtain ⟨-, -, -, rfl⟩ := write_eq_ok hwrite
      simp only [Store.call, hwrite]

theorem call_eq_error_cases {c : Store.Call} (h : (Store.call f c).2 = .error e) :
    e.isContractViolation = true ∨
      f.access = .readOnly ∧ ∃ offset, e = .writeFailed offset "文件以只读方式打开" := by
  cases c with
  | read offset count =>
    rw [read_eq_error h]
    exact Or.inl rfl
  | write offset values =>
    rcases hwrite : Store.write f offset values with ⟨f', e' | u⟩
    · simp only [Store.call, hwrite] at h
      cases h
      rcases write_eq_error_cases hwrite with hviolation | ⟨haccess, rfl⟩
      · exact Or.inl hviolation
      · exact Or.inr ⟨haccess, offset, rfl⟩
    · simp only [Store.call, hwrite] at h
      cases h

/-- **Through all calls a file refuses nothing but what the caller is to blame for,** and writes to
a file that may only be read. -/
theorem error_mem_answers {calls : List Store.Call} (h : .error e ∈ Store.answers f calls) :
    e.isContractViolation = true ∨
      f.access = .readOnly ∧ ∃ offset, e = .writeFailed offset "文件以只读方式打开" := by
  induction calls generalizing f with
  | nil => cases h
  | cons c calls ih =>
    rcases List.mem_cons.mp h with hfirst | hothers
    · exact call_eq_error_cases hfirst.symm
    · rw [← access_call f c]
      exact ih hothers

end FileStore

theorem Overlay.isContractViolation_of_change {σ : Type} [Store σ] {o : Overlay} {s : σ} {pos : Nat}
    {values : List Nat} {record : Bool} {e : EditError}
    (hreads : ∀ offset count e, Store.read s offset count = .error e → e.isContractViolation = true)
    (h : o.change s pos values record = .error e) : e.isContractViolation = true := by
  have hmem := List.mem_of_head? (change_eq_error_iff.mp h)
  simp only [changeObjections, blockObjections, Width.widthObjections, List.mem_append,
    List.mem_ite_nil_left, List.mem_ite_nil_right, List.mem_singleton] at hmem
  rcases hmem with ⟨-, rfl⟩ | (⟨-, rfl⟩ | ⟨-, rfl⟩ | hvalue) | ⟨-, hread⟩
  · rfl
  · rfl
  · rfl
  · obtain ⟨v, -, rfl⟩ := List.mem_map.mp hvalue
    rfl
  · unfold readObjections at hread
    cases hgiven : Store.read s pos values.length with
    | error e' =>
      rw [hgiven, List.mem_singleton] at hread
      rw [hread]
      exact hreads _ _ e' hgiven
    | ok elements =>
      rw [hgiven] at hread
      cases hread

namespace Editor

variable {f : FileStore} {e : Editor FileStore}

theorem isContractViolation_of_change {pos : Nat} {values : List Nat} {err : EditError}
    (h : e.change pos values = .error err) : err.isContractViolation = true := by
  unfold change at h
  rcases bind_eq_error.mp h with hchange | ⟨o, -, hdone⟩
  · refine Overlay.isContractViolation_of_change (fun offset count e' hread => ?_) hchange
    rw [FileStore.read_eq_error hread]
    rfl
  · cases hdone

theorem sound_after_file (h : Sound (fun _ => True) FileStore.elements e)
    (haccess : e.store.access = .readWrite) (ops : List Operation) :
    Sound (fun _ => True) FileStore.elements (e.after ops) ∧
      (e.after ops).store.access = .readWrite := by
  induction ops generalizing e with
  | nil => exact ⟨h, haccess⟩
  | cons op ops ih =>
    refine ih (h.run FileStore.lawful op) ?_
    by_cases hsave : op = .save
    · obtain ⟨-, hstore, -⟩ := h.save_file haccess
      rw [hsave]
      exact (congrArg FileStore.access hstore).trans haccess
    · rw [store_run e hsave]
      exact haccess

end Editor

/-! ### Edits of a session -/

theorem foldlM_eq_error {ε α β : Type} {f : β → α → Except ε β} {b : β} {xs : List α} {e : ε}
    (h : xs.foldlM f b = .error e) :
    ∃ before x behind b', xs = before ++ x :: behind ∧ before.foldlM f b = .ok b' ∧
      f b' x = .error e := by
  induction xs generalizing b with
  | nil => cases h
  | cons x xs ih =>
    rw [List.foldlM_cons] at h
    rcases bind_eq_error.mp h with hfirst | ⟨next, hfirst, hothers⟩
    · exact ⟨[], x, xs, b, rfl, rfl, hfirst⟩
    · obtain ⟨before, y, behind, b', rfl, hbefore, hfails⟩ := ih hothers
      refine ⟨x :: before, y, behind, b', rfl, ?_, hfails⟩
      rw [List.foldlM_cons, hfirst]
      exact hbefore

namespace Command.Session

variable {e e' : Editor FileStore} {specs : List String}

/-- **An edit is refused for its text, or for what it asks for:** no edit fails for a fault of the
storage. -/
theorem edit_eq_error {spec : String} {failure : Failure} (h : edit e spec = .error failure) :
    (∃ d, readEdit spec.toList = .error d ∧ failure = d.failure) ∨
      ∃ pos values err, readEdit spec.toList = .ok (pos, values) ∧
        e.change pos values = .error err ∧ err.isContractViolation = true ∧
        failure = editFailure spec e.store.length err := by
  unfold edit at h
  rcases bind_eq_error.mp h with hread | ⟨⟨pos, values⟩, hread, hchange⟩
  · exact Or.inl (mapError_eq_error.mp hread)
  · obtain ⟨err, hrefused, hfailure⟩ := mapError_eq_error.mp hchange
    exact Or.inr ⟨pos, values, err, mapError_eq_ok.mp hread, hrefused,
      Editor.isContractViolation_of_change hrefused, hfailure⟩

theorem edit_of_refused {spec : String} {pos : Nat} {values : List Nat} {err : EditError}
    (hread : readEdit spec.toList = .ok (pos, values))
    (hchange : e.change pos values = .error err) :
    edit e spec = .error (editFailure spec e.store.length err) := by
  unfold edit
  rw [hread]
  change (e.change pos values).mapError _ = _
  rw [hchange]
  rfl

theorem causes_editFailure_iff {spec : String} {length : Nat} {err : EditError} :
    (editFailure spec length err).causes = [] ↔ err.isContractViolation = true := by
  cases err <;> simp [editFailure, EditError.isContractViolation, Failure.plain, Failure.because,
    Failure.causesOf]

theorem store_of_foldlM_edit (h : specs.foldlM edit e = .ok e') : e'.store = e.store := by
  induction specs generalizing e with
  | nil =>
    cases h
    rfl
  | cons spec specs ih =>
    rw [List.foldlM_cons] at h
    obtain ⟨next, hedit, hothers⟩ := bind_eq_ok.mp h
    obtain ⟨r, -, hchange⟩ := edit_eq_ok_iff.mp hedit
    obtain ⟨o, -, rfl⟩ := Editor.change_eq_ok_iff.mp hchange
    rw [ih hothers]

/-- **Edits of a file fail for their own sake.** The first one that fails cannot be read, or it asks
for what is not there; and then the report names no cause. -/
theorem foldlM_edit_eq_error {f : FileStore} {limit : Nat} {failure : Failure}
    (h : specs.foldlM edit (Editor.withLimit f limit) = .error failure) :
    ∃ before spec behind e, specs = before ++ spec :: behind ∧
      before.foldlM edit (Editor.withLimit f limit) = .ok e ∧
      ((∃ d, readEdit spec.toList = .error d ∧ failure = d.failure) ∨
        ∃ pos values err, readEdit spec.toList = .ok (pos, values) ∧
          e.change pos values = .error err ∧ err.isContractViolation = true ∧
          failure = editFailure spec f.length err ∧ failure.causes = []) := by
  obtain ⟨before, spec, behind, e, hspecs, hbefore, hedit⟩ := foldlM_eq_error h
  refine ⟨before, spec, behind, e, hspecs, hbefore, ?_⟩
  have hstore : e.store = f := store_of_foldlM_edit hbefore
  rcases edit_eq_error hedit with hread | ⟨pos, values, err, hread, hchange, hviolation, hfailure⟩
  · exact Or.inl hread
  · rw [hstore] at hfailure
    have hcauses : failure.causes = [] := by
      rw [hfailure]
      exact causes_editFailure_iff.mpr hviolation
    exact Or.inr ⟨pos, values, err, hread, hchange, hviolation, hfailure, hcauses⟩

/-! ### All together -/

/-- **Calls of a mapped file never go wrong, what they and edits refuse is the caller's fault, and
saves succeed.** Let a file be opened in any way, with any bytes whose number is a word. Through all
calls of it the positions of bytes are words, the slices are inside the mapped bytes, elements can
be decoded, and the mapping to write to is there. A call is refused for the caller's fault, unless
it is a write and the file may only be read. So whatever edits a session makes of it, a further
change is refused for the caller's fault only; and if an edit fails, its text cannot be read, or it
asks for what is not there, and no fault of the storage is reported. If the file may be written,
then a save succeeds after any changes, undos, saves and clears, and writes all runs. -/
theorem calls_edits_and_saves_of_file (path : String) (w : Width) (access : Access)
    {bytes : List UInt8} (h : bytes.length ≤ Word.max) (limit : Nat) :
    let f : FileStore := ⟨path, w, access, bytes⟩
    (∀ calls, (MappedFile.ofFile f).answers? calls = some (Store.answers f calls)) ∧
      (∀ calls, ∀ err, .error err ∈ Store.answers f calls → err.isContractViolation = true ∨
        access = .readOnly ∧ ∃ offset, err = .writeFailed offset "文件以只读方式打开") ∧
      (∀ (specs : List String) (e : Editor FileStore),
        specs.foldlM edit (Editor.withLimit f limit) = .ok e →
          ∀ pos values err, e.change pos values = .error err → err.isContractViolation = true) ∧
      (∀ (specs : List String) failure,
        specs.foldlM edit (Editor.withLimit f limit) = .error failure →
        ∃ before spec behind e, specs = before ++ spec :: behind ∧
          before.foldlM edit (Editor.withLimit f limit) = .ok e ∧
          ((∃ d, readEdit spec.toList = .error d ∧ failure = d.failure) ∨
            ∃ pos values err, readEdit spec.toList = .ok (pos, values) ∧
              e.change pos values = .error err ∧ err.isContractViolation = true ∧
              failure = editFailure spec f.length err ∧ failure.causes = [])) ∧
      (access = .readWrite → ∀ ops : List Editor.Operation,
        let e := (Editor.withLimit f limit).after ops
        e.save.2 = .ok ⟨e.overlay.runs.length, (e.overlay.runs.map Run.length).sum⟩) := by
  intro f
  refine ⟨MappedFile.answers?_eq h, ?_, ?_, ?_, ?_⟩
  · exact fun calls err => FileStore.error_mem_answers
  · exact fun specs e _ pos values err => Editor.isContractViolation_of_change
  · exact fun specs failure => foldlM_edit_eq_error
  · intro haccess ops e
    have hopened := Editor.sound_file f limit
    obtain ⟨hsound, hkept⟩ := Editor.sound_after_file hopened haccess ops
    exact (hsound.save_file hkept).1

/-- The same for a file of one element and a byte that makes none: calls inside and outside, two
edits of which the second is behind the end, and a save after an undo. -/
theorem calls_edits_and_saves_of_odd_file :
    let f : FileStore := ⟨"in.bin", .w16, .readWrite, [1, 0, 2]⟩
    let calls : List Store.Call := [.read 0 1, .write 0 [0x305], .read 0 1, .read 1 0, .read 0 2,
      .write 1 [4], .write 0 [0x10000]]
    let refused := editFailure "1=6" f.length (.rangeOverflow 1 1 1)
    f.bytes.length ≤ Word.max ∧
      (MappedFile.ofFile f).answers? calls = some [.ok [1], .ok [], .ok [0x305], .ok [],
        .error (.rangeOverflow 0 2 1), .error (.rangeOverflow 1 1 1),
        .error (.valueTooWide 0x10000 16)] ∧
      ["0=5", "1=6"].foldlM edit (Editor.withLimit f 3) = .error refused ∧
      (∃ spec ∈ ["0=5", "1=6"], ∃ pos values err, readEdit spec.toList = .ok (pos, values) ∧
        err.isContractViolation = true ∧ refused = editFailure spec f.length err) ∧
      ((Editor.withLimit f 3).after [.change 0 [5], .change 0 [6], .undo]).save.2 = .ok ⟨1, 1⟩ := by
  intro f calls refused
  have hbytes : f.bytes.length ≤ Word.max := by decide
  have hfirst : readEdit "0=5".toList = .ok (0, [5]) := by decide
  have hsecond : readEdit "1=6".toList = .ok (1, [6]) := by decide
  -- the editor between the two edits
  let between : Editor FileStore := ⟨f, .w16, 1, [⟨0, [5]⟩], [⟨0, [1]⟩], 3, 0⟩
  have hchanged : edit (Editor.withLimit f 3) "0=5" = .ok between :=
    edit_eq_ok_iff.mpr ⟨⟨0, [5]⟩, hfirst, Editor.change_eq_ok_iff.mpr ⟨_, by decide, rfl⟩⟩
  have hbehind : between.change 1 [6] = .error (.rangeOverflow 1 1 1) := by
    have hoverlay : between.overlay.change f 1 [6] true = .error (.rangeOverflow 1 1 1) := by decide
    rw [Editor.change, hoverlay, bind_error]
  have hrefused : ["0=5", "1=6"].foldlM edit (Editor.withLimit f 3) = .error refused := by
    have hedit : edit between "1=6" = .error refused := edit_of_refused hsecond hbehind
    rw [List.foldlM_cons, hchanged, bind_ok, List.foldlM_cons, hedit, bind_error]
  obtain ⟨hcalls, -, -, hedits, hsave⟩ :=
    calls_edits_and_saves_of_file "in.bin" .w16 .readWrite hbytes 3
  refine ⟨hbytes, (hcalls calls).trans (by decide), hrefused, ?_, (hsave rfl _).trans (by decide)⟩
  obtain ⟨before, spec, behind, e, hspecs, -, hcases⟩ := hedits _ _ hrefused
  have hmem : spec ∈ ["0=5", "1=6"] := by
    rw [hspecs]
    simp
  rcases hcases with ⟨d, hread, -⟩ | ⟨pos, values, err, hread, -, hviolation, hreport, -⟩
  · -- both texts can be read
    rcases List.mem_pair.mp hmem with rfl | rfl
    · rw [hfirst] at hread
      cases hread
    · rw [hsecond] at hread
      cases hread
  · exact ⟨spec, hmem, pos, values, err, hread, hviolation, hreport⟩

end Command.Session
end EditOverlay
