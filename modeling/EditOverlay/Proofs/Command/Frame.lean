import EditOverlay.Proofs.Command.Commit

/-! # The command: which files change

The command writes when it commits, and then it succeeds (`Session.run_of_written`). So whatever
else is asked for, a run that fails, that is not told to commit or that has no edits leaves all
files as they are; any other run changes the input and adds its backup if that is asked for
(`runIn_files`). -/

namespace EditOverlay.Command

namespace Session

variable {o : Options} {input : Entry} {copying : Except EditError Unit}

theorem written_eq_none (hcommit : o.commit = false) (input : Entry)
    (copying : Except EditError Unit) : (run o input copying).written = none := by
  unfold run
  cases prepare o input with
  | error f => rfl
  | ok e =>
    simp only
    cases dumpText o e with
    | error f => rfl
    | ok dump =>
      simp only [hcommit, Bool.false_eq_true, if_false]
      split_ifs <;> rfl

/-- **A session that writes** was told to commit, has edits, and succeeds. -/
theorem run_of_written {bytes' : List UInt8} (h : (run o input copying).written = some bytes') :
    o.commit = true ∧ o.sets ≠ [] ∧ (run o input copying).exit = 0 ∧
      (run o input copying).backup = o.backup ∧ checkBackup o copying = .ok () := by
  cases hcommit : o.commit with
  | false =>
    rw [written_eq_none hcommit] at h
    cases h
  | true =>
    rcases feasible_or_failed o input copying with ⟨bytes, w, edits, hbytes, hfeasible⟩ | ⟨f, hrun⟩
    · obtain ⟨stdout, -, ⟨-, hrun⟩ | ⟨-, err, -, hrun⟩ | ⟨hne, hcheck, hrun⟩⟩ :=
        exists_commitsTo hbytes hfeasible hcommit copying
      · rw [hrun] at h
        cases h
      · rw [hrun] at h
        cases h
      · rw [hrun]
        exact ⟨rfl, mt hfeasible.read.eq_nil_iff.mpr hne, rfl, rfl, hcheck⟩
    · rw [hrun] at h
      cases h

theorem exists_written (hcommit : o.commit = true) (hsets : o.sets ≠ [])
    (hexit : (run o input copying).exit = 0) :
    ∃ guard bytes bytes', input = .file guard bytes ∧
      (run o input copying).written = some bytes' := by
  rcases feasible_or_failed o input copying with ⟨bytes, w, edits, hbytes, hfeasible⟩ | ⟨f, hrun⟩
  · obtain ⟨stdout, -, ⟨hnil, -⟩ | ⟨-, err, -, hrun⟩ | ⟨hne, -, hrun⟩⟩ :=
      exists_commitsTo hbytes hfeasible hcommit copying
    · exact absurd (hfeasible.read.eq_nil_iff.mp hnil) hsets
    · rw [hrun] at hexit
      cases hexit
    · obtain ⟨guard, hfile | ⟨-, rfl⟩, -⟩ := Entry.openedBytes_eq_ok_iff.mp hbytes
      · exact ⟨guard, bytes, _, hfile, by rw [hrun]⟩
      · exact absurd hfeasible.eq_nil_of_nil hne
  · rw [hrun] at hexit
    cases hexit

end Session

/-- **The command changes files only when it succeeds in committing.** Whatever the directory and
the arguments: if the run fails, or no options come out of the arguments (as when the version or
help is asked for), or the options do not ask for a commit, or they have no edit, then all is left
as it was.

Otherwise the input is a file. Suppose that its backup, if one is asked for, has a name that is not
taken. Then every other file is as it was, and no file is gone; a file is new if and only if it is
the backup and a backup is asked for; and the backup is in the folder of the input, has its name
with the time and an ending behind it, and holds the bytes that the input had. -/
theorem runIn_files (time : Timestamp) (d : Directory) (args : List String) :
    let r := runIn time d args
    (r.1.exit ≠ 0 ∨
        (∀ o, Options.ofArguments args = .ok o → o.commit = false ∨ o.sets = []) → r.2 = d) ∧
    ∀ o, Options.ofArguments args = .ok o → o.commit = true → o.sets ≠ [] → r.1.exit = 0 →
      ∃ folder name bytes, d.find? o.input = some (folder ++ [name], bytes) ∧
        let input := folder ++ [name]
        let backup := folder ++ [name ++ "." ++ time.text ++ ".bak"]
        ((o.backup = true → d.entryAt backup = .absent .noEntry) →
          (∀ q, q ≠ input → d.bytesAt? q ≠ none → r.2.bytesAt? q = d.bytesAt? q) ∧
          (∀ q, d.bytesAt? q ≠ none → r.2.bytesAt? q ≠ none) ∧
          (∀ q, d.bytesAt? q = none ∧ r.2.bytesAt? q ≠ none ↔ o.backup = true ∧ q = backup) ∧
          (o.backup = true → r.2.bytesAt? backup = some bytes) ∧
          r.2.folders = d.folders) := by
  intro r
  refine ⟨fun hnone => ?_, fun o hargs hcommit hsets hexit => ?_⟩
  · cases hargs : Options.ofArguments args with
    | error halt =>
      simp only [r, runIn, hargs]
    | ok o =>
      have hr : r = _ := runIn_eq hargs time d
      rw [hr] at hnone ⊢
      refine Outcome.applyTo_of_written_eq_none (Option.eq_none_iff_forall_ne_some.mpr ?_) _ _ _
      intro bytes' hwritten
      obtain ⟨hcommit, hsets, hexit, -⟩ := Session.run_of_written hwritten
      rcases hnone with hfailed | hnothing
      · exact hfailed hexit
      · rcases hnothing o hargs with hnot | hnil
        · rw [hcommit] at hnot
          cases hnot
        · exact hsets hnil
  · have hr : r = _ := runIn_eq hargs time d
    rw [hr] at hexit ⊢
    obtain ⟨guard, bytes, bytes', hentry, hwritten⟩ := Session.exists_written hcommit hsets hexit
    obtain ⟨place, -, hfind⟩ := Directory.entry_eq_file_iff.mp hentry
    obtain ⟨folder, name, rfl⟩ := Directory.exists_folder_of_find? hfind
    refine ⟨folder, name, bytes, hfind, ?_⟩
    intro input backup hfree
    obtain ⟨-, -, -, hbackup, hcheck⟩ := Session.run_of_written hwritten
    obtain ⟨kept, happly, hsame, hcopied⟩ := Outcome.exists_applyTo_eq time hfind hwritten fun h =>
      copyingIn_eq_ok_iff.mp (Session.checkBackup_eq_ok_iff.mp hcheck (hbackup ▸ h))
    rw [hbackup] at hsame hcopied
    -- a copy to a place that is free is a new file
    have hkept : kept = if o.backup then d.put backup bytes else d := by
      cases hasked : o.backup with
      | false => exact hsame hasked
      | true =>
        obtain ⟨copyPath, hcopy⟩ := hcopied hasked
        obtain ⟨-, -, -, hput⟩ := (Directory.backUp_eq_ok_iff hfind).mp hcopy
        rw [Directory.backupPlace_append] at hput
        exact Directory.eq_put_of_tryPut hput (hfree hasked)
    rw [happly, hkept]
    exact Directory.files_of_written (Directory.find?_eq_some_iff.mp hfind).2
      (fun h => Directory.bytesAt?_of_entryAt_eq_absent (hfree h)) bytes'

/-- A run that changes a file of two and makes its backup, and the same run with a width that
elements do not have. -/
theorem runIn_files_backup :
    let time : Timestamp := ⟨2024, 1, 31, 23, 59, 8⟩
    let d : Directory := { files := [(["a.bin"], [1, 2]), (["b.bin"], [7])], folders := [] }
    let args := ["-i", "a.bin", "--set", "0=9", "--commit", "--backup"]
    let r := runIn time d args
    r.1.exit = 0 ∧ r.2.bytesAt? ["b.bin"] = some [7] ∧
      r.2.bytesAt? ["a.bin.2024-01-31-23-59-08.bak"] = some [1, 2] ∧
      (runIn time d (args ++ ["-w", "9"])).2 = d := by
  intro time d args r
  let o : Options := ⟨"a.bin", 8, 100, ["0=9"], 0, none, true, true, false, false⟩
  have hargs : Options.ofArguments args = .ok o := by decide
  have hplain : Directory.Plain "a.bin" := by decide
  have hfind : d.find? "a.bin" = some (["a.bin"], [1, 2]) :=
    hplain.find?_eq ⟨by decide, by decide⟩ (by decide)
  have hfeasible : Feasible o [1, 2] .w8 [⟨0, [9]⟩] :=
    ⟨rfl, .cons (by decide) .nil, by decide, fun _ hdump => by cases hdump⟩
  have hcopyPath : Directory.backupPath time "a.bin" = "a.bin.2024-01-31-23-59-08.bak" := by
    decide
  have htakes : d.TakesBackup time "a.bin" ["a.bin"] := by
    refine ⟨by decide, ?_, by decide, ?_⟩
    · rw [hcopyPath]
      exact Directory.checkPath_eq_ok (by decide) (by decide) (by decide)
    · have hfree : d.entryAt (Directory.backupPlace time ["a.bin"]) = .absent .noEntry := by decide
      rw [Directory.Writable, hfree]
      decide
  have hexit : r.1.exit = 0 := (exit_eq_zero_iff hargs rfl time d).mpr
    ⟨_, _, _, _, Directory.holds_of_find? hfind, by decide, hfeasible,
      fun _ _ => ⟨_, hfind, htakes⟩⟩
  obtain ⟨folder, name, bytes, hfind', hfiles⟩ :=
    (runIn_files time d args).2 o hargs rfl (List.cons_ne_nil _ _) hexit
  obtain ⟨hplace, rfl⟩ := Prod.mk.inj (Option.some.inj (hfind.symm.trans hfind'))
  have hplace' : [] ++ ["a.bin"] = folder ++ [name] := hplace
  obtain ⟨rfl, hname⟩ := List.append_inj' hplace' rfl
  obtain rfl : "a.bin" = name := List.head_eq_of_cons_eq hname
  obtain ⟨hothers, -, -, hbackup, -⟩ := hfiles fun _ => by decide
  have hfailed : (runIn time d (args ++ ["-w", "9"])).1.exit ≠ 0 := by
    have hwidth : Options.ofArguments (args ++ ["-w", "9"]) = .ok { o with width := 9 } := by decide
    intro hzero
    obtain ⟨_, bytes, w, edits, -, -, hwide, -⟩ := (exit_eq_zero_iff hwidth rfl time d).mp hzero
    have hbits : w.bits = 9 := hwide.width_eq
    cases w <;> exact absurd hbits (by decide)
  have hcopy : ([] : Place) ++ ["a.bin" ++ "." ++ time.text ++ ".bak"] =
      ["a.bin.2024-01-31-23-59-08.bak"] := by decide
  have hcopied := hbackup rfl
  rw [hcopy] at hcopied
  have hother : r.2.bytesAt? ["b.bin"] = d.bytesAt? ["b.bin"] :=
    hothers ["b.bin"] (by decide) (by decide)
  exact ⟨hexit, hother.trans (by decide), hcopied, (runIn_files time d _).1 (Or.inl hfailed)⟩

/-- **A request for the version makes no backup.** The command succeeds, a commit, an edit and a
backup are asked for, and yet no file is new. -/
theorem version_request_makes_no_backup :
    let d : Directory := { files := [(["a.bin"], [1, 2])], folders := [] }
    let args := ["-i", "a.bin", "--set", "0=9", "--commit", "--backup", "--version"]
    let r := runIn ⟨2024, 1, 31, 23, 59, 8⟩ d args
    r.1.exit = 0 ∧ "--commit" ∈ args ∧ "--set" ∈ args ∧ "--backup" ∈ args ∧
      d.find? "a.bin" = some (["a.bin"], [1, 2]) ∧
      ∀ q, d.bytesAt? q = none → r.2.bytesAt? q = none := by
  intro d args r
  have hversion : Options.ofArguments args = .error .version := by decide
  have hr : r = (Halt.outcome .version, d) := by
    simp only [r, runIn, hversion]
  have hplain : Directory.Plain "a.bin" := by decide
  rw [hr]
  exact ⟨rfl, by decide, by decide, by decide,
    hplain.find?_eq ⟨by decide, by decide⟩ (by decide), fun q hq => hq⟩

end EditOverlay.Command
