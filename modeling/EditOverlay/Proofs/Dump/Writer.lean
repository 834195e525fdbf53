import EditOverlay.Proofs.Text.Lines

/-! # Dumps: writing piece by piece

A dump of values as a program that writes to an output while it goes over the values. The only step
that can fail comes before the first piece, so a dump that fails has written nothing; one that does
not has written the text of the dump (`run_writeView`). -/

namespace EditOverlay.Dump

variable {α : Type}

/-- A program that writes text and may fail. What it has written before it fails stays written. -/
abbrev Writer (α : Type) := ExceptT EditError (StateM (List Char)) α

/-- Writes a piece of text. -/
def put (piece : List Char) : Writer Unit := modify (· ++ piece)

/-- What comes of a program, and the text that stands in the output after it. -/
def Writer.runOn (program : Writer α) (out : List Char) : Except EditError α × List Char :=
  program.run.run out

theorem runOn_ofExcept_bind (x : Except EditError α) (f : α → Writer Unit) (out : List Char) :
    Writer.runOn (MonadExcept.ofExcept x >>= f) out =
      match x with
      | .ok a => (f a).runOn out
      | .error e => (.error e, out) := by
  cases x <;> rfl

/-- The program succeeds, and writes the text. -/
def Writes (program : Writer Unit) (text : List Char) : Prop :=
  ∀ out, program.runOn out = (.ok (), out ++ text)

theorem writes_put (piece : List Char) : Writes (put piece) piece := fun _ => rfl

theorem Writes.bind {p q : Writer Unit} {s t : List Char} (hp : Writes p s) (hq : Writes q t) :
    Writes (p >>= fun _ => q) (s ++ t) := by
  intro out
  have hrun : (p >>= fun _ => q).runOn out =
      match p.runOn out with
      | (.ok _, out') => q.runOn out'
      | (.error e, out') => (.error e, out') := by
    change ((ExceptT.run (p >>= fun _ => q)).run out) = _
    simp only [ExceptT.run_bind, StateT.run_bind, Writer.runOn]
    rcases p.run.run out with ⟨e | u, out'⟩ <;> rfl
  rw [hrun, hp out]
  simp only [hq (out ++ s), List.append_assoc]

theorem Writes.forM {xs : List α} {f : α → Writer Unit} {text : α → List Char}
    (h : ∀ x ∈ xs, Writes (f x) (text x)) : Writes (xs.forM f) (xs.flatMap text) := by
  induction xs with
  | nil =>
    intro out
    rw [List.flatMap_nil, List.append_nil]
    rfl
  | cons x xs ih =>
    rw [List.forall_mem_cons] at h
    exact h.1.bind (ih h.2)

/-- Writes a line: its address, then value after value, then a newline. -/
def writeLine (w : Width) (changed : Nat → Bool) (start : Nat) (values : List Nat) :
    Writer Unit := do
  put (position start ++ [':'])
  values.zipIdx.forM fun (value, i) => put (cell w (changed (start + i)) value)
  put ['\n']

theorem writes_line (w : Width) (changed : Nat → Bool) (start : Nat) (values : List Nat) :
    Writes (writeLine w changed start values) (line w changed start values ++ ['\n']) := by
  have hvalues : Writes
      (values.zipIdx.forM fun (value, i) => put (cell w (changed (start + i)) value))
      (values.zipIdx.flatMap fun (value, i) => cell w (changed (start + i)) value) :=
    Writes.forM fun _ _ => writes_put _
  have hline := (writes_put (position start ++ [':'])).bind (hvalues.bind (writes_put ['\n']))
  rwa [← List.append_assoc, List.append_assoc (position start)] at hline

variable {σ : Type} [Store σ]

/-- Writes the dump of the values from `offset` on. -/
def writeView (e : Editor σ) (offset count : Nat) : Writer Unit := do
  let values ← MonadExcept.ofExcept (e.view offset count)
  (rows values).zipIdx.forM fun (row, i) =>
    writeLine (Store.width e.store) e.overlay.isChanged (offset + perLine * i) row

/-- **A dump that fails has written nothing,** and any other has written its text. -/
theorem run_writeView (e : Editor σ) (offset count : Nat) (out : List Char) :
    (writeView e offset count).runOn out =
      match view e offset count with
      | .ok text => (.ok (), out ++ text.toList)
      | .error err => (.error err, out) := by
  unfold writeView view
  cases e.view offset count with
  | error err => rfl
  | ok values =>
    have htext : (unlines ((lines (Store.width e.store) e.overlay.isChanged offset values).map
        String.ofList)).toList = (rows values).zipIdx.flatMap fun (row, i) =>
          line (Store.width e.store) e.overlay.isChanged (offset + perLine * i) row ++ ['\n'] := by
      rw [toList_unlines, Text.ended, lines]
      simp [List.flatMap_map]
    have hwrites : Writes ((rows values).zipIdx.forM fun (row, i) =>
        writeLine (Store.width e.store) e.overlay.isChanged (offset + perLine * i) row)
        ((rows values).zipIdx.flatMap fun (row, i) =>
          line (Store.width e.store) e.overlay.isChanged (offset + perLine * i) row ++ ['\n']) :=
      Writes.forM fun _ _ => writes_line _ _ _ _
    rw [runOn_ofExcept_bind]
    change Writer.runOn _ out = (Except.ok (), out ++ (unlines _).toList)
    rw [htext]
    exact hwrites out

end EditOverlay.Dump
