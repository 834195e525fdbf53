import EditOverlay.Proofs.Command.Commit

/-! # The command: previews

A run that is not told to commit is a preview of the run with the same arguments and `--commit`. It
opens the file in another way, so it may succeed where the commit does not
(`commit_refused_after_preview`). Where the system treats both ways alike, nothing that is shown
depends on the way (`Session.prepare_commit`), and what is dumped is what is in the file after the
commit, but for the marks (`preview_of_commit`). -/

namespace EditOverlay.Command

/-- The outputs are the same but for a last line on the commit, which either may lack. -/
def AgreeToLastLine (preview committed : String) : Prop :=
  ∃ common m m', preview = common ++ m ∧ committed = common ++ m' ∧
    (m = "" ∨ m = "未指定 --commit，修改未写入文件\n") ∧
    (m' = "" ∨ m' = "没有需要提交的修改\n" ∨ ∃ report, m' = Session.reportText report ++ "\n")

/-- The outputs start with `count` lines that are the same but for the stars in the first one: where
these are, the second one has blanks. -/
def AgreeToMarks (count : Nat) (preview again : String) : Prop :=
  ∃ (lines : List (List Char)) (rest rest' : String), lines.length = count ∧
    (∀ line ∈ lines, '\n' ∉ line) ∧
    preview = Dump.unlines (lines.map String.ofList) ++ rest ∧
    again = Dump.unlines ((lines.map (List.map Dump.unmark)).map String.ofList) ++ rest'

/-! ### Arguments with one more switch -/

namespace Draft

/-- The draft with the switch for a commit, which was met before all others. -/
def withCommit (d : Draft) : Draft := { d with switches := d.switches ++ [.commit] }

variable {d d' : Draft} {args : List String}

theorem add_withCommit (d : Draft) (flag : ValueFlag) (value : String) :
    d.withCommit.add flag value = (d.add flag value).map withCommit := by
  obtain ⟨input, width, undoLimit, sets, undo, dump, switches⟩ := d
  cases flag with
  | input =>
    unfold add
    split_ifs with hempty
    · rfl
    · cases input <;> rfl
  | width =>
    unfold add
    cases readBits value with
    | error halt => rfl
    | ok n => cases width <;> rfl
  | undoLimit =>
    unfold add
    cases readCount value with
    | error halt => rfl
    | ok n => cases undoLimit <;> rfl
  | set => rfl
  | undo =>
    unfold add
    cases readCount value with
    | error halt => rfl
    | ok n => cases undo <;> rfl
  | dump => cases dump <;> rfl

theorem switches_add {flag : ValueFlag} {value : String} (h : d.add flag value = .ok d') :
    d'.switches = d.switches := by
  unfold add at h
  cases flag with
  | input =>
    simp only at h
    split_ifs at h with hempty
    · cases h
    · obtain ⟨place, -, h⟩ := map_eq_ok.mp h
      rw [← h]
  | width =>
    obtain ⟨n, -, h⟩ := bind_eq_ok.mp h
    obtain ⟨place, -, h⟩ := map_eq_ok.mp h
    rw [← h]
  | undoLimit =>
    obtain ⟨n, -, h⟩ := bind_eq_ok.mp h
    obtain ⟨place, -, h⟩ := map_eq_ok.mp h
    rw [← h]
  | set =>
    cases h
    rfl
  | undo =>
    obtain ⟨n, -, h⟩ := bind_eq_ok.mp h
    obtain ⟨place, -, h⟩ := map_eq_ok.mp h
    rw [← h]
  | dump =>
    obtain ⟨place, -, h⟩ := map_eq_ok.mp h
    rw [← h]

theorem add_eq_ok {flag : ValueFlag} {value : String} (h : d.add flag value = .ok d')
    (hcommit : .commit ∉ d'.switches) :
    .commit ∉ d.switches ∧ d.withCommit.add flag value = .ok d'.withCommit := by
  refine ⟨?_, by rw [add_withCommit, h]; rfl⟩
  rwa [switches_add h] at hcommit

theorem addSwitch_eq_ok {sw : Switch} (h : d.addSwitch sw = .ok d')
    (hcommit : .commit ∉ d'.switches) :
    .commit ∉ d.switches ∧ d.withCommit.addSwitch sw = .ok d'.withCommit := by
  unfold addSwitch at h ⊢
  split_ifs at h with hmet
  cases h
  simp only [List.mem_cons, not_or] at hcommit
  have hnew : sw ∉ d.withCommit.switches := by
    simp only [withCommit, List.mem_append, List.mem_singleton, not_or]
    exact ⟨hmet, Ne.symm hcommit.1⟩
  rw [if_neg hnew]
  exact ⟨hcommit.2, rfl⟩

theorem addAll_withCommit (h : d.addAll args = .ok d') (hcommit : .commit ∉ d'.switches) :
    .commit ∉ d.switches ∧ d.withCommit.addAll args = .ok d'.withCommit := by
  fun_induction Draft.addAll d args with
  | case1 d =>
    cases h
    exact ⟨hcommit, rfl⟩
  | case2 d arg flag value harg =>
    rw [addAll, harg]
    exact add_eq_ok h hcommit
  | case4 d arg sw harg =>
    rw [addAll, harg]
    exact addSwitch_eq_ok h hcommit
  | case6 d arg harg =>
    cases h
    rw [addAll, harg]
    exact ⟨hcommit, rfl⟩
  | case8 d arg next rest flag value harg ih =>
    obtain ⟨d1, hadd, hrest⟩ := bind_eq_ok.mp h
    obtain ⟨hcommit1, hall⟩ := ih d1 hrest
    obtain ⟨hcommit0, hadd'⟩ := add_eq_ok hadd hcommit1
    rw [addAll, harg]
    exact ⟨hcommit0, bind_eq_ok.mpr ⟨_, hadd', hall⟩⟩
  | case9 d arg next rest flag harg hword ih =>
    obtain ⟨d1, hadd, hrest⟩ := bind_eq_ok.mp h
    obtain ⟨hcommit1, hall⟩ := ih d1 hrest
    obtain ⟨hcommit0, hadd'⟩ := add_eq_ok hadd hcommit1
    rw [addAll, harg]
    simp only [hword, if_true]
    exact ⟨hcommit0, bind_eq_ok.mpr ⟨_, hadd', hall⟩⟩
  | case11 d arg next rest sw harg ih =>
    obtain ⟨d1, hadd, hrest⟩ := bind_eq_ok.mp h
    obtain ⟨hcommit1, hall⟩ := ih d1 hrest
    obtain ⟨hcommit0, hadd'⟩ := addSwitch_eq_ok hadd hcommit1
    rw [addAll, harg]
    exact ⟨hcommit0, bind_eq_ok.mpr ⟨_, hadd', hall⟩⟩
  | _ => cases h

theorem finish_withCommit {o : Options} (h : d.finish = .ok o) :
    d.withCommit.finish = .ok { o with commit := true } := by
  unfold finish at h ⊢
  cases hinput : d.input with
  | none =>
    rw [hinput] at h
    cases h
  | some input =>
    rw [hinput] at h
    cases h
    simp [withCommit, hinput]

theorem commit_notMem_of_finish {o : Options} (h : d.finish = .ok o) (hcommit : o.commit = false) :
    .commit ∉ d.switches := by
  unfold finish at h
  cases hinput : d.input with
  | none =>
    rw [hinput] at h
    cases h
  | some input =>
    rw [hinput] at h
    cases h
    exact of_decide_eq_false hcommit

end Draft

/-- **The same arguments and a switch for a commit** are read as the same options with a commit. -/
theorem ofArguments_commit_cons {args : List String} {o : Options}
    (h : Options.ofArguments args = .ok o) (hcommit : o.commit = false) :
    Options.ofArguments ("--commit" :: args) = .ok { o with commit := true } := by
  obtain ⟨d, hall, hfinish⟩ := bind_eq_ok.mp h
  obtain ⟨-, hall'⟩ := Draft.addAll_withCommit hall (Draft.commit_notMem_of_finish hfinish hcommit)
  have hswitch : Argument.ofString "--commit" = .switch .commit := by decide
  have hfirst : Draft.blank.addAll ("--commit" :: args) = Draft.blank.withCommit.addAll args := by
    cases args with
    | nil => cases h
    | cons next rest =>
      rw [Draft.addAll, hswitch]
      rfl
  rw [Options.ofArguments, hfirst, hall']
  exact Draft.finish_withCommit hfinish

/-! ### Files opened in another way -/

/-- The editor with its file opened in another way. -/
def reopened (access : Access) (e : Editor FileStore) : Editor FileStore :=
  { e with store := { e.store with access := access } }

theorem change_reopened (access : Access) (e : Editor FileStore) (pos : Nat) (values : List Nat) :
    (reopened access e).change pos values = (e.change pos values).map (reopened access) := by
  unfold Editor.change
  have hsame : (reopened access e).overlay.change (reopened access e).store pos values true =
      e.overlay.change e.store pos values true := rfl
  rw [hsame]
  cases e.overlay.change e.store pos values true <;> rfl

theorem undoMany_reopened (access : Access) (e : Editor FileStore) (count : Nat) :
    (reopened access e).undoMany count = reopened access (e.undoMany count) := by
  induction count generalizing e with
  | zero => rfl
  | succ count ih =>
    rw [Editor.undoMany, Editor.undoMany]
    split_ifs with hundo hundo' hundo'
    · exact ih e.undo.2
    · exact absurd hundo hundo'
    · exact absurd hundo' hundo
    · rfl

namespace Session

variable {o : Options} {input : Entry} {e : Editor FileStore} {copying : Except EditError Unit}

theorem edit_reopened (access : Access) (e : Editor FileStore) (spec : String) :
    edit (reopened access e) spec = (edit e spec).map (reopened access) := by
  unfold edit
  cases readEdit spec.toList with
  | error defect => rfl
  | ok block =>
    obtain ⟨pos, values⟩ := block
    change ((reopened access e).change pos values).mapError _ =
      ((e.change pos values).mapError _).map _
    rw [change_reopened]
    cases e.change pos values <;> rfl

theorem foldlM_edit_reopened (access : Access) (e : Editor FileStore) (specs : List String) :
    specs.foldlM edit (reopened access e) = (specs.foldlM edit e).map (reopened access) := by
  induction specs generalizing e with
  | nil => rfl
  | cons spec specs ih =>
    rw [List.foldlM_cons, List.foldlM_cons, edit_reopened]
    cases edit e spec with
    | error f => rfl
    | ok next => exact ih next

theorem prepare_commit (hcommit : o.commit = false) (hbackup : o.backup = false)
    (hinput : input.OpensAlike) :
    prepare { o with commit := true } input = (prepare o input).map (reopened .readWrite) := by
  have hcheck : checkOptions { o with commit := true } input = checkOptions o input := by
    unfold checkOptions
    rw [hbackup]
    cases input <;> rfl
  have hopen : openInput { o with commit := true } input =
      (openInput o input).map (reopened .readWrite) := by
    unfold openInput FileStore.ofEntry
    rw [hcheck]
    simp only [hcommit, if_true, Bool.false_eq_true, if_false,
      hinput.openedBytes_eq .readWrite .readOnly]
    cases checkOptions o input with
    | error f => rfl
    | ok u =>
      cases Width.ofBits o.width with
      | error err => rfl
      | ok w => cases input.openedBytes .readOnly <;> rfl
  unfold prepare
  rw [hopen]
  cases openInput o input with
  | error f => rfl
  | ok opened =>
    change (o.sets.foldlM edit (reopened .readWrite opened) >>= fun edited => _) = _
    rw [foldlM_edit_reopened]
    cases hedits : o.sets.foldlM edit opened with
    | error f =>
      change _ = Except.map _ (o.sets.foldlM edit opened >>= fun edited => _)
      rw [hedits]
      rfl
    | ok edited =>
      change _ = Except.map _ (o.sets.foldlM edit opened >>= fun edited => _)
      rw [hedits]
      exact congrArg Except.ok (undoMany_reopened .readWrite edited o.undo)

/-! ### The two runs -/

theorem dumpText_reopened (o : Options) (access : Access) (e : Editor FileStore) :
    dumpText { o with commit := true } (reopened access e) = dumpText o e := rfl

theorem summaryText_reopened (o : Options) (access : Access) (e : Editor FileStore) :
    summaryText { o with commit := true } (reopened access e) = summaryText o e := rfl

theorem prepared_or_failed (hcommit : o.commit = false) (hbackup : o.backup = false)
    (hinput : input.OpensAlike) (copying copying' : Except EditError Unit) :
    (∃ e dump, prepare o input = .ok e ∧ dumpText o e = .ok dump) ∨
      ∃ f, run o input copying = .failed "" f ∧
        run { o with commit := true } input copying' = .failed "" f := by
  have hprepare' := prepare_commit hcommit hbackup hinput
  unfold run
  rw [hprepare']
  cases hprepare : prepare o input with
  | error f => exact Or.inr ⟨f, rfl, rfl⟩
  | ok e =>
    simp only [Except.map, dumpText_reopened]
    cases hdump : dumpText o e with
    | error f => exact Or.inr ⟨f, rfl, rfl⟩
    | ok dump => exact Or.inl ⟨e, dump, rfl, hdump⟩

theorem note_eq_or (o : Options) (text : String) :
    note o text = "" ∨ note o text = text ++ "\n" := by
  unfold note
  split_ifs
  · exact Or.inl rfl
  · exact Or.inr rfl

/-- **A preview and the commit** end alike, and show the same up to the last line. -/
theorem run_commit (hcommit : o.commit = false) (hbackup : o.backup = false)
    (hinput : input.OpensAlike) (copying copying' : Except EditError Unit) :
    let preview := run o input copying
    let committed := run { o with commit := true } input copying'
    committed.exit = preview.exit ∧ committed.stderr = preview.stderr ∧
      AgreeToLastLine preview.stdout committed.stdout := by
  intro preview committed
  rcases prepared_or_failed hcommit hbackup hinput copying copying' with
    ⟨e, dump, hprepare, hdump⟩ | ⟨f, hm, hm'⟩
  · have hprepare' := prepare_commit hcommit hbackup hinput
    rw [hprepare] at hprepare'
    have hdump' := (dumpText_reopened o .readWrite e).trans hdump
    have hpreview : preview = _ := run_of_prepared hprepare hdump copying
    have hcommitted : committed = _ := run_of_prepared hprepare' hdump' copying'
    rw [hcommit, if_neg Bool.false_ne_true] at hpreview
    rw [if_pos rfl, summaryText_reopened] at hcommitted
    have hshown : ∃ m, preview = .done (dump ++ summaryText o e ++ m) ∧
        (m = "" ∨ m = "未指定 --commit，修改未写入文件\n") := by
      rw [hpreview]
      split_ifs
      · exact ⟨_, rfl, note_eq_or o _⟩
      · exact ⟨"", by rw [String.append_empty], Or.inl rfl⟩
    obtain ⟨m, hm, hline⟩ := hshown
    -- with no backup to make, the commit can only succeed
    obtain ⟨bytes, w, edits, -, -, -, hprepared⟩ := exists_feasible hprepare' hdump'
    have hcheck : checkBackup { o with commit := true } copying' = .ok () :=
      checkBackup_of_no_backup hbackup
    rw [hm]
    rcases hprepared.commitsTo rfl copying' (dump ++ summaryText o e) with
      ⟨-, hrun⟩ | ⟨-, err, herror, -⟩ | ⟨-, -, hrun⟩
    · rw [hcommitted, hrun]
      refine ⟨rfl, rfl, _, m, _, rfl, rfl, hline, ?_⟩
      exact (note_eq_or _ _).imp_right Or.inl
    · rw [hcheck] at herror
      cases herror
    · rw [hcommitted, hrun]
      refine ⟨rfl, rfl, _, m, _, rfl, rfl, hline, ?_⟩
      exact (note_eq_or _ _).imp_right fun hreport => Or.inr ⟨_, hreport⟩
  · have hpreview : preview = .failed "" f := hm
    have hcommitted : committed = .failed "" f := hm'
    rw [hpreview, hcommitted]
    exact ⟨rfl, rfl, "", "", "", rfl, rfl, Or.inl rfl, Or.inl rfl⟩

theorem exit_preview_eq_zero {bytes : List UInt8} {w : Width} {edits : List Run}
    (hcommit : o.commit = false) (hbackup : o.backup = false)
    (hbytes : input.openedBytes o.access = .ok bytes) (h : Feasible o bytes w edits)
    (copying : Except EditError Unit) : (run o input copying).exit = 0 := by
  obtain ⟨e, dump, hprepare, hdump, -⟩ :=
    exists_prepared hbytes h fun hasked => absurd (hbackup.symm.trans hasked) Bool.false_ne_true
  rw [run_of_prepared hprepare hdump copying, hcommit, if_neg Bool.false_ne_true]
  split_ifs <;> rfl

/-! ### Dumps -/

variable {bytes : List UInt8} {w : Width} {edits : List Run} {spec : String} {pos count : Nat}

theorem Prepared.eq_of_dumpText {dump : String} (h : Prepared o bytes w edits e)
    (hspec : o.dump = some spec) (hwindow : readWindow spec.toList = .ok (pos, count))
    (hdump : dumpText o e = .ok dump) :
    dump = Dump.unlines ((Dump.lines w e.overlay.isChanged pos
      (((overwriteAll (Codec.elements w bytes) (o.kept edits)).drop pos).take count)).map
        String.ofList) := by
  rw [h.dumpText_eq hspec hwindow] at hdump
  split_ifs at hdump
  exact (Except.ok.inj hdump).symm

/-- **A session without edits** succeeds, and dumps the elements of the file without a mark. -/
theorem run_of_sets_eq_nil (hbytes : input.openedBytes o.access = .ok bytes)
    (h : Feasible o bytes w []) (hbackup : o.backup = true → o.commit = true)
    (hspec : o.dump = some spec) (hwindow : readWindow spec.toList = .ok (pos, count))
    (copying : Except EditError Unit) :
    (run o input copying).exit = 0 ∧ ∃ rest, (run o input copying).stdout =
      Dump.unlines ((Dump.lines w (fun _ => false) pos
        (((Codec.elements w bytes).drop pos).take count)).map String.ofList) ++ rest := by
  obtain ⟨e, dump, hprepare, hdump, hprepared⟩ := exists_prepared hbytes h hbackup
  have hnone : ¬ e.overlay.hasChanges = true := fun hchanges =>
    hprepared.hasChanges_iff.mp hchanges rfl
  have hruns : e.overlay.runs = [] := by simpa [Overlay.hasChanges] using hnone
  have hmarks : e.overlay.isChanged = fun _ => false := by
    funext p
    rw [Overlay.isChanged, hruns]
    rfl
  have hrun : ∃ rest, run o input copying = .done (dump ++ rest) := by
    rw [run_of_prepared hprepare hdump copying, if_neg hnone]
    split_ifs with hcommit
    · rcases hprepared.commitsTo hcommit copying (dump ++ summaryText o e) with
        ⟨-, hdone⟩ | ⟨hne, -⟩ | ⟨hne, -⟩
      · exact ⟨_, by rw [hdone, String.append_assoc]⟩
      · exact absurd rfl hne
      · exact absurd rfl hne
    · exact ⟨_, rfl⟩
  obtain ⟨rest, hrest⟩ := hrun
  have hlines := hprepared.eq_of_dumpText hspec hwindow hdump
  rw [hmarks, Options.kept, List.take_nil] at hlines
  rw [hrest, hlines]
  exact ⟨rfl, rest, rfl⟩

/-- **What a commit without a backup leaves** in the file. -/
theorem find?_after_commit (hbytes : input.openedBytes .readWrite = .ok bytes)
    (h : Feasible o bytes w edits) (hbackup : o.backup = false) (copying : Except EditError Unit)
    (time : Timestamp) {d : Directory} {place : Place}
    (hfind : d.find? o.input = some (place, bytes)) :
    let d' := (run { o with commit := true } input copying).applyTo time o.input d
    d'.find? o.input = some (place, Codec.patch w bytes (o.kept edits)) ∧
      d'.guardAt place = d.guardAt place := by
  intro d'
  have hfeasible : Feasible { o with commit := true } bytes w edits :=
    ⟨h.width_eq, h.read, h.within, h.window⟩
  have hbytes' : input.openedBytes (Options.access { o with commit := true }) = .ok bytes := hbytes
  have hcheck : checkBackup { o with commit := true } copying = .ok () :=
    checkBackup_of_no_backup hbackup
  obtain ⟨stdout, -, ⟨rfl, hrun⟩ | ⟨-, err, herror, -⟩ | ⟨-, -, hrun⟩⟩ :=
    exists_commitsTo hbytes' hfeasible rfl copying
  · have hsame : d' = d := Outcome.applyTo_of_written_eq_none (congrArg Outcome.written hrun) _ _ _
    rw [hsame, hfind, Options.kept, List.take_nil, Codec.patch_nil]
    exact ⟨rfl, rfl⟩
  · rw [hcheck] at herror
    cases herror
  · have hkeep : (run { o with commit := true } input copying).backup = false :=
      (congrArg Outcome.backup hrun).trans hbackup
    obtain ⟨kept, happly, hkept, -⟩ := Outcome.exists_applyTo_eq time hfind
      (congrArg Outcome.written hrun) fun hcopy => by rw [hkeep] at hcopy; cases hcopy
    have hput : d' = d.put place _ := hkept hkeep ▸ happly
    rw [hput]
    exact ⟨Directory.find?_put hfind _, Directory.guardAt_congr (Directory.refusals_put _ _ _) _⟩

/-- **A dump of the stored edits** has the lines of the dump before they were stored, without the
stars. -/
theorem agreeToMarks_after_commit {dump : String} (h : Feasible o bytes w edits)
    (hprepare : prepare o input = .ok e) (hdump : dumpText o e = .ok dump)
    (hprepared : Prepared o bytes w edits e) (hcommit : o.commit = false)
    (hspec : o.dump = some spec) (hwindow : readWindow spec.toList = .ok (pos, count))
    {o' : Options} {input' : Entry} (hwidth : o'.width = o.width) (hsame : o'.dump = o.dump)
    (hsets : o'.sets = []) (hbackup : o'.backup = true → o'.commit = true)
    (hbytes' : input'.openedBytes o'.access = .ok (Codec.patch w bytes (o.kept edits)))
    (copying copying' : Except EditError Unit) :
    let again := run o' input' copying'
    again.exit = 0 ∧ AgreeToMarks ((min count (bytes.length / w.byteCount - pos) + 15) / 16)
      (run o input copying).stdout again.stdout := by
  intro again
  have hkept : ∀ r ∈ o.kept edits, r.Within w.Fits (bytes.length / w.byteCount) := fun r hr =>
    h.within r (List.mem_of_mem_take hr)
  obtain ⟨helements, -, hlength⟩ := Codec.patch_of_within hkept
  have hagain : Feasible o' (Codec.patch w bytes (o.kept edits)) w [] := by
    refine ⟨h.width_eq.trans hwidth.symm, ?_, fun _ hr => (List.not_mem_nil hr).elim, ?_⟩
    · rw [hsets]
      exact .nil
    · unfold Options.WindowWithin
      rw [hsame, hlength]
      exact h.window
  obtain ⟨hok, rest', hout⟩ :=
    run_of_sets_eq_nil hbytes' hagain hbackup (hsame.trans hspec) hwindow copying'
  let values := ((overwriteAll (Codec.elements w bytes) (o.kept edits)).drop pos).take count
  have hvalues : values.length = min count (bytes.length / w.byteCount - pos) := by
    rw [List.length_take, List.length_drop, ← hprepared.shown_eq, hprepared.sound.length_shown,
      hprepared.length_eq]
  have hlines := hprepared.eq_of_dumpText hspec hwindow hdump
  obtain ⟨rest, hrest⟩ : ∃ rest, run o input copying = .done (dump ++ rest) := by
    rw [run_of_prepared hprepare hdump copying, hcommit, if_neg Bool.false_ne_true]
    split_ifs
    · exact ⟨_, by rw [String.append_assoc]⟩
    · exact ⟨_, rfl⟩
  refine ⟨hok, Dump.lines w e.overlay.isChanged pos values, rest, rest', ?_,
    fun line hline => Dump.newline_notMem_of_mem_lines hline, ?_, ?_⟩
  · rw [Dump.length_lines, hvalues]
  · rw [hrest, hlines]
    rfl
  · rw [Dump.map_unmark_lines, hout, helements]

end Session

/-- **A preview shows what a commit will store.** Take options without a commit and a backup, for an
input that is not there, or a file which the system lets be opened to be read and written as well as
to be read, or refuses in both ways for the same reason. With `--commit` in front of the arguments
come the same options with a commit; and whatever the arguments for those options are, the two runs
have the same exit and the same error, and the same output up to a last line on the commit.

If the preview succeeds and dumps a window, then a run on the committed file with the same width,
input and window, and without edits, succeeds as well; and both start with the lines of the dump,
which are the same but for the stars of the preview, for which there are blanks then. -/
theorem preview_of_commit {args : List String} {o : Options}
    (hargs : Options.ofArguments args = .ok o) (hcommit : o.commit = false)
    (hbackup : o.backup = false) (d : Directory)
    (hinput : (∃ why, d.entry o.input = .absent why) ∨ ∃ guard bytes,
      d.entry o.input = .file guard bytes ∧ guard.reading = guard.updating)
    (time time' : Timestamp) :
    Options.ofArguments ("--commit" :: args) = .ok { o with commit := true } ∧
    ∀ args', Options.ofArguments args' = .ok { o with commit := true } →
      let preview := runIn time d args
      let committed := runIn time' d args'
      committed.1.exit = preview.1.exit ∧ committed.1.stderr = preview.1.stderr ∧
      AgreeToLastLine preview.1.stdout committed.1.stdout ∧
      (preview.1.exit = 0 → ∀ spec, o.dump = some spec →
        ∃ place bytes, ∃ w : Width, ∃ pos count, d.find? o.input = some (place, bytes) ∧
          w.bits = o.width ∧ readWindow spec.toList = .ok (pos, count) ∧
          ∀ args'' o' time'', Options.ofArguments args'' = .ok o' → o'.width = o.width →
            o'.input = o.input → o'.dump = o.dump → o'.sets = [] →
            (o'.backup = true → o'.commit = true) →
            let again := runIn time'' committed.2 args''
            let shown := min count (bytes.length / w.byteCount - pos)
            again.1.exit = 0 ∧
              AgreeToMarks ((shown + 15) / 16) preview.1.stdout again.1.stdout) := by
  have halike : (d.entry o.input).OpensAlike := hinput
  refine ⟨ofArguments_commit_cons hargs hcommit, fun args' hargs' => ?_⟩
  intro preview committed
  have hpreview : preview = _ := runIn_eq hargs time d
  have hcommitted : committed = _ := runIn_eq hargs' time' d
  rw [hpreview, hcommitted]
  obtain ⟨hexit, hstderr, hstdout⟩ := Session.run_commit hcommit hbackup halike
    (copyingIn time d o.input) (copyingIn time' d o.input)
  refine ⟨hexit, hstderr, hstdout, fun hzero spec hspec => ?_⟩
  -- the preview has shown something, so the options can be followed on a file
  rcases Session.prepared_or_failed hcommit hbackup halike (copyingIn time d o.input)
    (copyingIn time' d o.input) with ⟨e, dump, hprepare, hdump⟩ | ⟨f, hfailed, -⟩
  · obtain ⟨bytes, w, edits, hbytes, -, hfeasible, hprepared⟩ :=
      Session.exists_feasible hprepare hdump
    obtain ⟨guard, hentry, hopen⟩ := halike.eq_file hbytes
    obtain ⟨place, rfl, hfind⟩ := Directory.entry_eq_file_iff.mp hentry
    obtain ⟨pos, count, hwindow, -⟩ := hfeasible.window spec hspec
    refine ⟨place, bytes, w, pos, count, hfind, hfeasible.width_eq, hwindow, ?_⟩
    intro args'' o' time'' hargs'' hwidth hsame hdump' hsets hbackup' again shown
    obtain ⟨hafter, hguard⟩ := Session.find?_after_commit
      ((Directory.holds_of_find? hfind).openedBytes_eq (hopen .readWrite)) hfeasible hbackup
      (copyingIn time' d o.input) time' hfind
    have hagain : again = _ := runIn_eq hargs'' time'' _
    rw [hagain]
    refine Session.agreeToMarks_after_commit hfeasible hprepare hdump hprepared hcommit hspec
      hwindow hwidth hdump' hsets hbackup' ?_ _ _
    rw [hsame]
    exact (Directory.holds_of_find? hafter).openedBytes_eq (hguard ▸ hopen _)
  · rw [hfailed] at hzero
    cases hzero

/-- A preview of an edit of which one line is dumped, the commit, and a dump of what is stored. -/
theorem preview_of_commit_one_line :
    let time : Timestamp := ⟨2024, 1, 31, 23, 59, 8⟩
    let d : Directory := { files := [(["a.bin"], [1, 2, 3])], folders := [] }
    let args := ["-i", "a.bin", "--set", "0=9", "--dump", "0:3"]
    let preview := runIn time d args
    let committed := runIn time d ("--commit" :: args)
    let again := runIn time committed.2 ["-i", "a.bin", "--dump", "0:3"]
    preview.1.exit = 0 ∧ committed.1.exit = 0 ∧ again.1.exit = 0 ∧
      AgreeToLastLine preview.1.stdout committed.1.stdout ∧
      AgreeToMarks 1 preview.1.stdout again.1.stdout := by
  intro time d args preview committed again
  let o : Options := ⟨"a.bin", 8, 100, ["0=9"], 0, some "0:3", false, false, false, false⟩
  have hargs : Options.ofArguments args = .ok o := by decide
  have hplain : Directory.Plain "a.bin" := by decide
  have hfind : d.find? "a.bin" = some (["a.bin"], [1, 2, 3]) :=
    hplain.find?_eq ⟨by decide, by decide⟩ (by decide)
  have hentry : d.entry o.input = .file ⟨none, none, none⟩ [1, 2, 3] :=
    Directory.entry_of_find? hfind
  obtain ⟨hargs', hboth⟩ :=
    preview_of_commit hargs rfl rfl d (Or.inr ⟨_, _, hentry, rfl⟩) time time
  obtain ⟨hexit, -, hstdout, hdump⟩ := hboth _ hargs'
  have hwindow : readWindow "0:3".toList = .ok (0, 3) := by decide
  have hfeasible : Feasible { o with commit := true } [1, 2, 3] .w8 [⟨0, [9]⟩] := by
    refine ⟨rfl, .cons (by decide) .nil, by decide, fun spec hspec => ?_⟩
    cases hspec
    exact ⟨0, 3, hwindow, by decide⟩
  have hcommitted : committed.1.exit = 0 :=
    (exit_eq_zero_iff hargs' rfl time d).mpr ⟨_, _, _, _, Or.inl hentry, rfl, hfeasible,
      fun hbackup => by cases hbackup⟩
  have hpreview : preview.1.exit = 0 := hexit.symm.trans hcommitted
  obtain ⟨place, bytes, w, pos, count, hfind', hbits, hwindow', hagain⟩ := hdump hpreview _ rfl
  cases hfind.symm.trans hfind'
  cases hwindow.symm.trans hwindow'
  have hwidth : w = .w8 := Width.bits_injective hbits
  have hargs'' : Options.ofArguments ["-i", "a.bin", "--dump", "0:3"] =
      .ok { o with sets := [] } := by decide
  obtain ⟨hok, hmarks⟩ := hagain _ _ time hargs'' rfl rfl rfl rfl fun h => by cases h
  rw [hwidth] at hmarks
  exact ⟨hpreview, hcommitted, hok, hstdout, hmarks⟩

/-- **A commit may be refused though its preview succeeds:** where the file may be read and not
written, and where `--commit` comes behind the mark that ends the flags. -/
theorem commit_refused_after_preview :
    let time : Timestamp := ⟨2024, 1, 31, 23, 59, 8⟩
    let args := ["-i", "a.bin", "--set", "0=9"]
    let kept : Directory :=
      { files := [(["a.bin"], [1, 2])], folders := []
        refusals := [((["a.bin"], .update), "Permission denied (os error 13)")] }
    let free : Directory := { files := [(["a.bin"], [1, 2])], folders := [] }
    (∃ o, Options.ofArguments args = .ok o ∧ o.commit = false ∧ o.backup = false ∧
      kept.find? o.input = some (["a.bin"], [1, 2]) ∧ (runIn time kept args).1.exit = 0 ∧
      (runIn time kept (args ++ ["--commit"])).1.exit ≠ 0) ∧
    ∃ o, Options.ofArguments (args ++ ["--"]) = .ok o ∧ o.commit = false ∧ o.backup = false ∧
      free.find? o.input = some (["a.bin"], [1, 2]) ∧
      (runIn time free (args ++ ["--"])).1.exit = 0 ∧
      (runIn time free (args ++ ["--"] ++ ["--commit"])).1.exit = 2 := by
  intro time args kept free
  let o : Options := ⟨"a.bin", 8, 100, ["0=9"], 0, none, false, false, false, false⟩
  have hargs : Options.ofArguments args = .ok o := by decide
  have hmarked : Options.ofArguments (args ++ ["--"]) = .ok o := by decide
  have hcommitted : Options.ofArguments (args ++ ["--commit"]) = .ok { o with commit := true } := by
    decide
  have hplain : Directory.Plain "a.bin" := by decide
  have hkept : kept.find? o.input = some (["a.bin"], [1, 2]) :=
    hplain.find?_eq ⟨by decide, by decide⟩ (by decide)
  have hfree : free.find? o.input = some (["a.bin"], [1, 2]) :=
    hplain.find?_eq ⟨by decide, by decide⟩ (by decide)
  have hfeasible : Feasible o [1, 2] .w8 [⟨0, [9]⟩] :=
    ⟨rfl, .cons (by decide) .nil, by decide, fun _ hdump => by cases hdump⟩
  have hpreview : ∀ d : Directory, d.find? o.input = some (["a.bin"], [1, 2]) →
      (d.guardAt ["a.bin"]).reading = none → ∀ args', Options.ofArguments args' = .ok o →
      (runIn time d args').1.exit = 0 := by
    intro d hfind hread args' hargs'
    have hopened : (d.entry o.input).openedBytes o.access = .ok [1, 2] :=
      (Directory.holds_of_find? hfind).openedBytes_eq hread
    rw [runIn_eq hargs']
    exact Session.exit_preview_eq_zero rfl rfl hopened hfeasible _
  refine ⟨⟨o, hargs, rfl, rfl, hkept, hpreview kept hkept (by decide) args hargs, ?_⟩,
    o, hmarked, rfl, rfl, hfree, hpreview free hfree (by decide) _ hmarked, ?_⟩
  · exact exit_ne_zero_of_updating hcommitted rfl hkept (by decide)
  · have hhalt : Options.ofArguments (args ++ ["--"] ++ ["--commit"]) = .error .usage := by decide
    rw [runIn, hhalt]
    rfl

end EditOverlay.Command
