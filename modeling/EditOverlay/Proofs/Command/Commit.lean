import EditOverlay.Proofs.Command.Prepare
import EditOverlay.Proofs.Directory.Paths

/-! # The command: what a commit leaves

A session that is to commit ends in one of four ways (`Session.feasible_or_failed`,
`Session.exists_commitsTo`): it gives up before it shows anything, it has nothing to commit, it
cannot make the backup, or it writes the file. A write that has begun never fails.

`runIn_commit` says when the command succeeds and what is in the file then. -/

namespace EditOverlay.Command

namespace Session

variable {o : Options} {input : Entry} {bytes : List UInt8} {w : Width} {edits : List Run}
  {e : Editor FileStore} {copying : Except EditError Unit}

/-! ### How a session ends -/

theorem feasible_or_failed (o : Options) (input : Entry) (copying : Except EditError Unit) :
    (∃ bytes w edits, input.openedBytes o.access = .ok bytes ∧ Feasible o bytes w edits) ∨
      ∃ f, run o input copying = .failed "" f := by
  unfold run
  cases hprepare : prepare o input with
  | error f => exact Or.inr ⟨f, rfl⟩
  | ok e =>
    simp only
    cases hdump : dumpText o e with
    | error f => exact Or.inr ⟨f, rfl⟩
    | ok dump =>
      obtain ⟨bytes, w, edits, hbytes, -, hfeasible, -⟩ := exists_feasible hprepare hdump
      exact Or.inl ⟨bytes, w, edits, hbytes, hfeasible⟩

theorem run_of_prepared {dump : String} (hprepare : prepare o input = .ok e)
    (hdump : dumpText o e = .ok dump) (copying : Except EditError Unit) :
    run o input copying =
      if o.commit then commit o e copying (dump ++ summaryText o e)
      else if e.overlay.hasChanges then
        .done (dump ++ summaryText o e ++ note o "未指定 --commit，修改未写入文件")
      else .done (dump ++ summaryText o e) := by
  unfold run
  rw [hprepare]
  simp only [hdump]

theorem exists_summaryText_eq (hquiet : o.quiet = false) (e : Editor FileStore) :
    ∃ before, summaryText o e = before ++ "\n" := by
  unfold summaryText
  split_ifs with hjson hquiet'
  · exact ⟨_, rfl⟩
  · rw [hquiet] at hquiet'
    cases hquiet'
  · obtain ⟨before, hbefore⟩ := Dump.exists_unlines_eq (List.cons_ne_nil _ _ : _ ≠ [])
    rw [show Dump.runs e = before ++ "\n" from hbefore, ← String.append_assoc]
    exact ⟨_, rfl⟩

/-- What comes of the commit of edits to some bytes, after some output: there is nothing to commit,
or the backup fails, or the edits that are left are written. -/
def CommitsTo (o : Options) (copying : Except EditError Unit) (bytes : List UInt8) (w : Width)
    (edits : List Run) (stdout : String) (outcome : Outcome) : Prop :=
  edits = [] ∧ outcome = .done (stdout ++ note o "没有需要提交的修改") ∨
  edits ≠ [] ∧ (∃ err, checkBackup o copying = .error err ∧
    outcome = .failed stdout (.ofError err)) ∨
  edits ≠ [] ∧ checkBackup o copying = .ok () ∧ outcome =
    { Outcome.done (stdout ++ note o (reportText
        ⟨blockCount (RunList.positions edits), (RunList.positions edits).card⟩)) with
      backup := o.backup
      written := some (Codec.patch w bytes (o.kept edits)) }

theorem Prepared.commitsTo (h : Prepared o bytes w edits e) (hcommit : o.commit = true)
    (copying : Except EditError Unit) (stdout : String) :
    CommitsTo o copying bytes w edits stdout (commit o e copying stdout) := by
  have hchanges := h.hasChanges_iff
  unfold commit
  by_cases hedits : edits = []
  · have hnone : e.overlay.hasChanges = false := by
      rw [← Bool.not_eq_true, hchanges, not_not]
      exact hedits
    rw [hnone]
    exact Or.inl ⟨hedits, rfl⟩
  · rw [hchanges.mpr hedits]
    cases hcheck : checkBackup o copying with
    | error err => exact Or.inr (Or.inl ⟨hedits, err, hcheck, rfl⟩)
    | ok u =>
      obtain ⟨hresult, hbytes⟩ := h.saved hcommit
      refine Or.inr (Or.inr ⟨hedits, hcheck, ?_⟩)
      have hsave : e.save = (e.save.1, .ok _) := Prod.ext rfl hresult
      rw [← hbytes]
      simp only [Bool.not_true, Bool.false_eq_true, if_false]
      rw [hsave]

/-- **All that a committing session can do** on an input for which its options can be followed. -/
theorem exists_commitsTo (hbytes : input.openedBytes o.access = .ok bytes)
    (h : Feasible o bytes w edits) (hcommit : o.commit = true) (copying : Except EditError Unit) :
    ∃ stdout, (o.quiet = false → ∃ before, stdout = before ++ "\n") ∧
      CommitsTo o copying bytes w edits stdout (run o input copying) := by
  obtain ⟨e, dump, hprepare, hdump, hprepared⟩ := exists_prepared hbytes h fun _ => hcommit
  have hrun := run_of_prepared hprepare hdump copying
  rw [if_pos hcommit] at hrun
  refine ⟨dump ++ summaryText o e, fun hquiet => ?_, ?_⟩
  · obtain ⟨before, hbefore⟩ := exists_summaryText_eq hquiet e
    exact ⟨dump ++ before, by rw [hbefore, String.append_assoc]⟩
  · rw [hrun]
    exact hprepared.commitsTo hcommit copying _

theorem checkBackup_eq_ok_iff :
    checkBackup o copying = .ok () ↔ (o.backup = true → copying = .ok ()) := by
  unfold checkBackup
  split_ifs with hbackup
  · exact ⟨fun h _ => h, fun h => h hbackup⟩
  · exact ⟨fun _ h => absurd h hbackup, fun _ => rfl⟩

theorem checkBackup_of_no_backup (hbackup : o.backup = false) : checkBackup o copying = .ok () :=
  checkBackup_eq_ok_iff.mpr fun h => absurd (hbackup.symm.trans h) Bool.false_ne_true

end Session

/-! ### What is carried out -/

namespace Outcome

variable {outcome : Outcome} {d : Directory} {place : Place} {path : String}

theorem applyTo_of_written_eq_none (h : outcome.written = none) (time : Timestamp) (path : String)
    (d : Directory) : outcome.applyTo time path d = d := by
  unfold applyTo
  rw [h]
  cases d.find? path <;> rfl

theorem exists_applyTo_eq (time : Timestamp) {bytes bytes' : List UInt8}
    (hfind : d.find? path = some (place, bytes)) (hwritten : outcome.written = some bytes')
    (hbackup : outcome.backup = true → ∃ copy, d.backUp time path = .ok copy) :
    ∃ kept, outcome.applyTo time path d = kept.put place bytes' ∧
      (outcome.backup = false → kept = d) ∧
      (outcome.backup = true → ∃ copyPath, d.backUp time path = .ok (copyPath, kept)) := by
  unfold applyTo
  rw [hfind, hwritten]
  cases hcopy : outcome.backup with
  | false =>
    refine ⟨d, rfl, fun _ => rfl, fun h => ?_⟩
    cases h
  | true =>
    obtain ⟨⟨copyPath, kept⟩, hkept⟩ := hbackup hcopy
    rw [hkept]
    refine ⟨kept, rfl, fun h => ?_, fun _ => ⟨copyPath, rfl⟩⟩
    cases h

end Outcome

/-- The copy of the input, if it is made, as the session sees it. -/
def copyingIn (time : Timestamp) (d : Directory) (path : String) : Except EditError Unit :=
  (d.backUp time path).map fun _ => ()

theorem copyingIn_eq_ok_iff {time : Timestamp} {d : Directory} {path : String} :
    copyingIn time d path = .ok () ↔ ∃ copy, d.backUp time path = .ok copy := by
  rw [copyingIn, map_eq_ok]
  simp

theorem runIn_eq {args : List String} {o : Options} (hargs : Options.ofArguments args = .ok o)
    (time : Timestamp) (d : Directory) : runIn time d args =
      (Session.run o (d.entry o.input) (copyingIn time d o.input),
        (Session.run o (d.entry o.input) (copyingIn time d o.input)).applyTo time o.input d) := by
  unfold runIn
  rw [hargs]
  rfl

theorem exists_takesBackup {d : Directory} {time : Timestamp} {path : String} {guard : Guard}
    {bytes : List UInt8} (hholds : (d.entry path).Holds guard bytes)
    (hcopying : copyingIn time d path = .ok ()) :
    ∃ place, d.find? path = some (place, bytes) ∧ d.TakesBackup time path place := by
  obtain ⟨copy, hcopy⟩ := copyingIn_eq_ok_iff.mp hcopying
  obtain ⟨place, old, hfind⟩ := Directory.exists_find?_of_backUp hcopy
  have htakes := (Directory.exists_backUp_iff hfind).mp ⟨copy, hcopy⟩
  obtain ⟨-, rfl⟩ := hholds.unique (Directory.holds_of_find? hfind)
  exact ⟨place, hfind, htakes⟩

theorem exit_eq_zero_iff {args : List String} {o : Options}
    (hargs : Options.ofArguments args = .ok o) (hcommit : o.commit = true) (time : Timestamp)
    (d : Directory) : (runIn time d args).1.exit = 0 ↔
      ∃ guard bytes w edits, (d.entry o.input).Holds guard bytes ∧ guard.updating = none ∧
        Feasible o bytes w edits ∧
        (o.backup = true → edits ≠ [] → ∃ place, d.find? o.input = some (place, bytes) ∧
          d.TakesBackup time o.input place) := by
  have haccess : o.access = .readWrite := by rw [Options.access, if_pos hcommit]
  rw [runIn_eq hargs]
  constructor
  · intro hexit
    rcases Session.feasible_or_failed o (d.entry o.input) (copyingIn time d o.input) with
      ⟨bytes, w, edits, hbytes, hfeasible⟩ | ⟨f, hrun⟩
    · obtain ⟨guard, hholds, hopen⟩ := Entry.openedBytes_eq_ok_iff.mp hbytes
      rw [haccess] at hopen
      refine ⟨guard, bytes, w, edits, hholds, hopen, hfeasible,
        fun hbackup hne => exists_takesBackup hholds ?_⟩
      obtain ⟨stdout, -, ⟨hnil, -⟩ | ⟨-, err, -, hrun⟩ | ⟨-, hcopying, -⟩⟩ :=
        Session.exists_commitsTo hbytes hfeasible hcommit (copyingIn time d o.input)
      · exact absurd hnil hne
      · rw [hrun] at hexit
        cases hexit
      · exact Session.checkBackup_eq_ok_iff.mp hcopying hbackup
    · rw [hrun] at hexit
      cases hexit
  · rintro ⟨guard, bytes, w, edits, hholds, hopen, hfeasible, hbackup⟩
    have hbytes : (d.entry o.input).openedBytes o.access = .ok bytes :=
      hholds.openedBytes_eq (haccess ▸ hopen)
    obtain ⟨stdout, -, ⟨-, hrun⟩ | ⟨hne, err, hcheck, -⟩ | ⟨-, -, hrun⟩⟩ :=
      Session.exists_commitsTo hbytes hfeasible hcommit (copyingIn time d o.input)
    · rw [hrun]
      rfl
    · have hcopying : Session.checkBackup o (copyingIn time d o.input) = .ok () := by
        refine Session.checkBackup_eq_ok_iff.mpr fun hasked => copyingIn_eq_ok_iff.mpr ?_
        obtain ⟨place, hfind, htakes⟩ := hbackup hasked hne
        exact (Directory.exists_backUp_iff hfind).mpr htakes
      rw [hcopying] at hcheck
      cases hcheck
    · rw [hrun]
      rfl

/-- **What a committing run does.** Let the arguments ask for a commit. The command succeeds if and
only if the input can be opened to be read and written, as a file or as a device, of which no bytes
can be addressed; the options can be followed on its bytes; and, where a backup is asked for and
there are edits, the input is a file of which the tree takes a backup. Then the file has the bytes
that it had with the first edits over them, all but the last `min u (min l n)` of the `n` edits for
`u` undos and the limit `l` of the undo stack; its length and the bytes behind the last whole
element are as before; and unless the run is quiet, the last line reports the positions of all edits
and the blocks that these make, or that there is nothing to commit. -/
theorem runIn_commit {args : List String} {o : Options}
    (hargs : Options.ofArguments args = .ok o) (hcommit : o.commit = true) (time : Timestamp)
    (d : Directory) :
    let r := runIn time d args
    (r.1.exit = 0 ↔ ∃ guard bytes w edits, (d.entry o.input).Holds guard bytes ∧
      guard.updating = none ∧ Feasible o bytes w edits ∧
      (o.backup = true → edits ≠ [] → ∃ place, d.find? o.input = some (place, bytes) ∧
        d.TakesBackup time o.input place)) ∧
    ∀ guard bytes w edits, (d.entry o.input).Holds guard bytes → Feasible o bytes w edits →
      r.1.exit = 0 →
      let bytes' := Codec.patch w bytes
        (edits.take (edits.length - min o.undo (min o.undoLimit edits.length)))
      let whole := bytes.length - bytes.length % w.byteCount
      (∀ place, d.find? o.input = some (place, bytes) → r.2.bytesAt? place = some bytes') ∧
      bytes'.length = bytes.length ∧ bytes'.drop whole = bytes.drop whole ∧
      (o.quiet = false → ∃ before, r.1.stdout = before ++ "\n" ++
        (if edits = [] then "没有需要提交的修改"
          else Session.reportText
            ⟨blockCount (RunList.positions edits), (RunList.positions edits).card⟩) ++ "\n") := by
  intro r
  refine ⟨exit_eq_zero_iff hargs hcommit time d,
    fun guard bytes w edits hholds hfeasible hexit => ?_⟩
  intro bytes' whole
  have hr : r = _ := runIn_eq hargs time d
  have hbytes : (d.entry o.input).openedBytes o.access = .ok bytes := by
    obtain ⟨_, _, _, _, hholds', hopen, -⟩ := (exit_eq_zero_iff hargs hcommit time d).mp hexit
    obtain ⟨rfl, -⟩ := hholds.unique hholds'
    rw [Options.access, if_pos hcommit]
    exact hholds.openedBytes_eq hopen
  have hkept : ∀ e ∈ o.kept edits, e.Within w.Fits (bytes.length / w.byteCount) := fun e he =>
    hfeasible.within e (List.mem_of_mem_take he)
  obtain ⟨-, hrest, hlength⟩ := Codec.patch_of_within hkept
  have hwhole : bytes'.drop whole = bytes.drop whole := by
    unfold Codec.rest at hrest
    rwa [hlength] at hrest
  obtain ⟨stdout, hstdout, hcases⟩ :=
    Session.exists_commitsTo hbytes hfeasible hcommit (copyingIn time d o.input)
  have hline : ∀ line, o.quiet = false →
      ∃ before, stdout ++ Session.note o line = before ++ "\n" ++ line ++ "\n" := by
    intro line hquiet
    obtain ⟨before, rfl⟩ := hstdout hquiet
    refine ⟨before, ?_⟩
    rw [Session.note, hquiet, if_neg Bool.false_ne_true, ← String.append_assoc]
  rcases hcases with ⟨hnil, hrun⟩ | ⟨-, err, -, hrun⟩ | ⟨hne, hcopying, hrun⟩
  · rw [hrun] at hr
    rw [hr, if_pos hnil]
    refine ⟨fun place hfind => ?_, hlength, hwhole, hline _⟩
    have hsame : bytes' = bytes := by
      simp only [bytes', hnil, List.take_nil, Codec.patch_nil]
    rw [Outcome.applyTo_of_written_eq_none rfl, hsame]
    exact (Directory.find?_eq_some_iff.mp hfind).2
  · rw [hr, hrun] at hexit
    cases hexit
  · have hwritten : (Session.run o (d.entry o.input) (copyingIn time d o.input)).written =
        some bytes' := congrArg Outcome.written hrun
    have hbackup : (Session.run o (d.entry o.input) (copyingIn time d o.input)).backup =
        o.backup := congrArg Outcome.backup hrun
    refine ⟨fun place hfind => ?_, hlength, hwhole, ?_⟩
    · obtain ⟨kept, happly, -⟩ := Outcome.exists_applyTo_eq time hfind hwritten fun hcopy =>
        copyingIn_eq_ok_iff.mp (Session.checkBackup_eq_ok_iff.mp hcopying (hbackup ▸ hcopy))
      rw [hr, happly]
      exact Directory.bytesAt?_put_self kept place bytes'
    · rw [hr, hrun, if_neg hne]
      exact hline _

/-- Two edits of elements of two bytes, of which one is taken back. The byte behind the elements
stays, and the report counts both. -/
theorem runIn_commit_undone :
    let d : Directory := { files := [(["a.bin"], [9, 9, 9, 9, 5])], folders := [] }
    let args := ["-i", "a.bin", "-w", "16", "--set", "0=1,2", "--set", "1=ff", "--undo", "1",
      "--commit"]
    let r := runIn ⟨2024, 1, 31, 23, 59, 8⟩ d args
    r.1.exit = 0 ∧ r.2.bytesAt? ["a.bin"] = some [1, 0, 2, 0, 5] ∧
      ∃ before, r.1.stdout = before ++ "\n" ++ "已提交 1 个区段，共 2 个元素" ++ "\n" := by
  intro d args r
  let o : Options := ⟨"a.bin", 16, 100, ["0=1,2", "1=ff"], 1, none, true, false, false, false⟩
  have hargs : Options.ofArguments args = .ok o := by decide
  have hplain : Directory.Plain "a.bin" := by decide
  have hfind : d.find? o.input = some (["a.bin"], [9, 9, 9, 9, 5]) :=
    hplain.find?_eq ⟨by decide, by decide⟩ (by decide)
  have hholds : (d.entry o.input).Holds ⟨none, none, none⟩ [9, 9, 9, 9, 5] :=
    Directory.holds_of_find? hfind
  have hread : ReadAs o.sets [⟨0, [1, 2]⟩, ⟨1, [255]⟩] :=
    .cons (by decide) (.cons (by decide) .nil)
  have hfeasible : Feasible o [9, 9, 9, 9, 5] .w16 [⟨0, [1, 2]⟩, ⟨1, [255]⟩] :=
    ⟨rfl, hread, by decide, fun _ hdump => by cases hdump⟩
  obtain ⟨hexit, hfile⟩ := runIn_commit hargs rfl ⟨2024, 1, 31, 23, 59, 8⟩ d
  have hzero : r.1.exit = 0 :=
    hexit.mpr ⟨_, _, _, _, hholds, rfl, hfeasible, fun hbackup => by cases hbackup⟩
  obtain ⟨hbytes, -, -, hline⟩ := hfile _ _ _ _ hholds hfeasible hzero
  obtain ⟨before, hbefore⟩ := hline rfl
  have hcount : blockCount (RunList.positions [⟨0, [1, 2]⟩, ⟨1, [255]⟩]) = 1 ∧
      (RunList.positions [⟨0, [1, 2]⟩, ⟨1, [255]⟩]).card = 2 := by decide
  rw [if_neg (List.cons_ne_nil _ _), hcount.1, hcount.2] at hbefore
  exact ⟨hzero, (hbytes _ hfind).trans (by decide), before, hbefore⟩

/-! ### What the options do not decide -/

section Refused

variable {args : List String} {o : Options} {time : Timestamp} {d : Directory} {place : Place}
  {bytes : List UInt8} {w : Width} {edits : List Run}

theorem exit_ne_zero_of_updating (hargs : Options.ofArguments args = .ok o)
    (hcommit : o.commit = true) (hfind : d.find? o.input = some (place, bytes))
    (hupdating : (d.guardAt place).updating ≠ none) : (runIn time d args).1.exit ≠ 0 := by
  intro hexit
  obtain ⟨guard, _, _, _, hholds, hopen, -⟩ := (exit_eq_zero_iff hargs hcommit time d).mp hexit
  obtain ⟨rfl, -⟩ := hholds.unique (Directory.holds_of_find? hfind)
  exact hupdating hopen

theorem exit_ne_zero_of_backup (hargs : Options.ofArguments args = .ok o)
    (hcommit : o.commit = true) (hbackup : o.backup = true) (hsets : o.sets ≠ [])
    (hfind : d.find? o.input = some (place, bytes))
    (hrefused : ¬ d.TakesBackup time o.input place) : (runIn time d args).1.exit ≠ 0 := by
  intro hexit
  obtain ⟨_, _, _, edits, -, -, hfeasible, htaken⟩ :=
    (exit_eq_zero_iff hargs hcommit time d).mp hexit
  obtain ⟨place', hfind', htakes⟩ := htaken hbackup (mt hfeasible.read.eq_nil_iff.mp hsets)
  obtain ⟨rfl, -⟩ := Prod.mk.inj (Option.some.inj (hfind.symm.trans hfind'))
  exact hrefused htakes

/-- The command succeeds if and only if the input is a file for which the options can be
followed. -/
def SucceedsByOptions (time : Timestamp) (d : Directory) (args : List String) : Prop :=
  ∀ o, Options.ofArguments args = .ok o → o.commit = true → ((runIn time d args).1.exit = 0 ↔
    ∃ place bytes w edits, d.find? o.input = some (place, bytes) ∧ Feasible o bytes w edits)

theorem not_succeedsByOptions (hargs : Options.ofArguments args = .ok o) (hcommit : o.commit = true)
    (hfind : d.find? o.input = some (place, bytes)) (hfeasible : Feasible o bytes w edits)
    (hexit : (runIn time d args).1.exit ≠ 0) : ¬ SucceedsByOptions time d args := fun hclaimed =>
  hexit ((hclaimed o hargs hcommit).mpr ⟨place, bytes, w, edits, hfind, hfeasible⟩)

end Refused

theorem utf8ByteSize_replicate (k : Nat) :
    (String.ofList (List.replicate k 'n')).utf8ByteSize = k := by
  induction k with
  | zero => rfl
  | succ k ih =>
    have hchar : 'n'.utf8Size = 1 := by decide
    rw [List.replicate_succ, String.ofList_cons, String.utf8ByteSize_append,
      String.utf8ByteSize_singleton, ih, hchar, Nat.add_comm]

theorem plain_replicate {k : Nat} (hpos : 2 < k) (hshort : k ≤ Directory.nameLimit) :
    Directory.Plain (String.ofList (List.replicate k 'n')) := by
  have hchar : ∀ c ≠ 'n', c ∉ (String.ofList (List.replicate k 'n')).toList := by
    intro c hc hmem
    rw [String.toList_ofList] at hmem
    exact hc (List.eq_of_mem_replicate hmem)
  have hsize := utf8ByteSize_replicate k
  have hname : ∀ name : String, name.utf8ByteSize ≤ 2 →
      String.ofList (List.replicate k 'n') ≠ name := by
    rintro name hle rfl
    omega
  refine ⟨hchar '/' (by decide), hchar '\x00' (by decide), ?_, hname ".." (by decide), by omega⟩
  simp [Directory.isIdle, hname "" (by decide), hname "." (by decide)]

/-- With a name of 252 bytes the file is there and the edit is valid, and yet the command fails. -/
theorem not_succeedsByOptions_of_long_name (time : Timestamp) :
    let name := String.ofList (List.replicate 252 'n')
    let d : Directory := { files := [([name], [1, 2, 3, 4])], folders := [] }
    ¬ SucceedsByOptions time d ["-i", name, "--set", "1=ff", "--commit", "--backup"] := by
  intro name d
  have hplain : Directory.Plain name := plain_replicate (by decide) (by decide)
  have hword : Argument.ofString name = .word := by
    rw [Argument.ofString, String.toList_ofList]
    rfl
  have hempty : name ≠ "" := by
    intro h
    have hsize := utf8ByteSize_replicate 252
    rw [show String.ofList (List.replicate 252 'n') = "" from h] at hsize
    cases hsize
  let o : Options := ⟨name, 8, 100, ["1=ff"], 0, none, true, true, false, false⟩
  have hargs :
      Options.ofArguments ["-i", name, "--set", "1=ff", "--commit", "--backup"] = .ok o := by
    have hflag : Argument.ofString "-i" = .valueFlag .input none := by decide
    rw [Options.ofArguments, Draft.addAll, hflag]
    simp only [hword, if_pos, Draft.add, hempty, if_false]
    rfl
  have hfind : d.find? o.input = some ([name], [1, 2, 3, 4]) := by
    refine hplain.find?_eq ⟨?_, rfl⟩ ?_
    · simp [Directory.bytesAt?, d]
    · simp [Directory.bytesAt?, d]
  have hfeasible : Feasible o [1, 2, 3, 4] .w8 [⟨1, [255]⟩] :=
    ⟨rfl, .cons (by decide) .nil, by decide, fun _ hdump => by cases hdump⟩
  refine not_succeedsByOptions hargs rfl hfind hfeasible ?_
  refine exit_ne_zero_of_backup hargs rfl rfl (List.cons_ne_nil _ _) hfind fun htakes => ?_
  have hlimit := Directory.checkName_eq_ok_iff.mp htakes.name_ok
  rw [show o.input = name from rfl, hplain.names_eq,
    show [name].getLastD "" = name from rfl, Directory.backupName, String.utf8ByteSize_append,
    String.utf8ByteSize_append, String.utf8ByteSize_append, utf8ByteSize_replicate] at hlimit
  have hdot : ".".utf8ByteSize = 1 := by decide
  have hending : ".bak".utf8ByteSize = 4 := by decide
  unfold Directory.nameLimit at hlimit
  omega

/-- **More than the options decides.** A commit fails, although the input is a file for which the
options can be followed, where the name of the backup is too long, where a folder has this name,
where no file may be added to the folder, and where the input may not be written. And it succeeds,
with nothing to do, on a device, which is no file. -/
theorem options_do_not_decide :
    (let name := String.ofList (List.replicate 252 'n')
     let d : Directory := { files := [([name], [1, 2, 3, 4])], folders := [] }
     ∀ time, ¬ SucceedsByOptions time d ["-i", name, "--set", "1=ff", "--commit", "--backup"]) ∧
    let time : Timestamp := ⟨2024, 1, 31, 23, 59, 8⟩
    let files : List (Place × List UInt8) := [(["a.bin"], [1, 2])]
    let denied := "Permission denied (os error 13)"
    let args := ["-i", "a.bin", "--set", "0=9", "--commit"]
    let taken : Directory := { files := files, folders := [["a.bin.2024-01-31-23-59-08.bak"]] }
    let full : Directory := { files := files, folders := [], refusals := [(([], .add), denied)] }
    let kept : Directory :=
      { files := files, folders := []
        refusals := [((["a.bin"], .update), denied), ((["a.bin"], .write), denied)] }
    let device : Directory := { files := [], folders := [], devices := [["null"]] }
    ¬ SucceedsByOptions time taken (args ++ ["--backup"]) ∧
    ¬ SucceedsByOptions time full (args ++ ["--backup"]) ∧
    ¬ SucceedsByOptions time kept args ∧
    ¬ SucceedsByOptions time device ["-i", "null", "--commit"] := by
  refine ⟨not_succeedsByOptions_of_long_name, ?_⟩
  intro time files denied args taken full kept device
  let o : Options := ⟨"a.bin", 8, 100, ["0=9"], 0, none, true, false, false, false⟩
  have hargs : Options.ofArguments args = .ok o := by decide
  have hargs' : Options.ofArguments (args ++ ["--backup"]) = .ok { o with backup := true } := by
    decide
  have hread : ReadAs o.sets [⟨0, [9]⟩] := .cons (by decide) .nil
  have hplain : Directory.Plain "a.bin" := by decide
  have hfind : ∀ d : Directory, d.RootOpen → d.bytesAt? ["a.bin"] = some [1, 2] →
      d.find? "a.bin" = some (["a.bin"], [1, 2]) := fun d => hplain.find?_eq
  have hplace : Directory.backupPlace time ["a.bin"] = ["a.bin.2024-01-31-23-59-08.bak"] := by
    decide
  -- the place of the backup cannot be written
  have hbackup : ∀ d : Directory, d.find? "a.bin" = some (["a.bin"], [1, 2]) →
      ¬ d.Writable ["a.bin.2024-01-31-23-59-08.bak"] →
      ¬ SucceedsByOptions time d (args ++ ["--backup"]) := by
    intro d hfind hwritable
    have hfeasible : Feasible { o with backup := true } [1, 2] .w8 [⟨0, [9]⟩] :=
      ⟨rfl, hread, by decide, fun _ hdump => by cases hdump⟩
    refine not_succeedsByOptions hargs' rfl hfind hfeasible ?_
    exact exit_ne_zero_of_backup hargs' rfl rfl (List.cons_ne_nil _ _) hfind fun htakes =>
      hwritable (hplace ▸ htakes.writable)
  refine ⟨hbackup taken (hfind _ ⟨by decide, by decide⟩ (by decide)) ?_,
    hbackup full (hfind _ ⟨by decide, by decide⟩ (by decide)) ?_, ?_, ?_⟩
  · have hfolder : taken.entryAt ["a.bin.2024-01-31-23-59-08.bak"] =
        .folder ⟨none, none, none⟩ := by decide
    rw [Directory.Writable, hfolder]
    exact id
  · have hfree : full.entryAt ["a.bin.2024-01-31-23-59-08.bak"] = .absent .noEntry := by decide
    rw [Directory.Writable, hfree]
    decide
  · have hfind' : kept.find? o.input = _ := hfind _ ⟨by decide, by decide⟩ (by decide)
    have hfeasible : Feasible o [1, 2] .w8 [⟨0, [9]⟩] :=
      ⟨rfl, hread, by decide, fun _ hdump => by cases hdump⟩
    refine not_succeedsByOptions hargs rfl hfind' hfeasible ?_
    exact exit_ne_zero_of_updating hargs rfl hfind' (by decide)
  · let o' : Options := ⟨"null", 8, 100, [], 0, none, true, false, false, false⟩
    have hargs'' : Options.ofArguments ["-i", "null", "--commit"] = .ok o' := by decide
    have hnull : Directory.Plain "null" := by decide
    have hentry : device.entry "null" = .device ⟨none, none, none⟩ := by
      rw [Directory.entry, hnull.resolve_eq ⟨by decide, by decide⟩]
      decide
    intro hclaimed
    have hexit := (exit_eq_zero_iff hargs'' rfl time device).mpr ⟨_, [], .w8, [],
      Or.inr ⟨hentry, rfl⟩, rfl, ⟨rfl, .nil, by decide, fun _ hdump => by cases hdump⟩,
      fun hmake => by cases hmake⟩
    obtain ⟨place, bytes, w, edits, hfound, -⟩ := (hclaimed o' hargs'' rfl).mp hexit
    have hfile := Directory.entry_of_find? hfound
    rw [show device.entry o'.input = _ from hentry] at hfile
    cases hfile

end EditOverlay.Command
