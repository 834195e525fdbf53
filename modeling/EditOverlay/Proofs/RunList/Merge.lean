import EditOverlay.Proofs.RunList.Scan

/-! # Lists of runs: writes in machine words

A block is written without going through all runs. Those that it meets or touches stand next to each
other: one that starts before the block and reaches it, which can only be the last run that starts
before it, and those that start within it or right behind. Of the first of them the values before
the block are kept, of the last one the values behind it; the others go, and one run is put in their
place. `merge?` computes this with sums, differences and slices that can go wrong.

* `Canonical.exists_parted`: a canonical list falls into the runs before a block, those that it
  meets or touches, and those behind it.
* `write_of_touched`: what absorbing the touched runs one after the other makes of them.
* `Canonical.merge?_eq`: where all runs and the block end within a word nothing goes wrong, and the
  result is that of the write. -/

namespace EditOverlay

/-- The values of a run before a position, computed in words. -/
def Run.before? (r : Run) (p : Nat) : Option (List Nat) :=
  if r.start < p then do Word.slice? r.values 0 (← Word.sub? p r.start) else some []

/-- The values of a run from a position on, computed in words. -/
def Run.from? (r : Run) (p : Nat) : Option (List Nat) := do
  let stop ← Word.add? r.start r.length
  if p < stop then Word.slice? r.values (← Word.sub? p r.start) r.length else some []

namespace RunList

/-- The run that starts before a position and reaches it: it can only be the last one that starts
before it. -/
def reaching? (runs : RunList) (p : Nat) : Option (Option Run) :=
  match (runs.filter (·.start < p)).getLast? with
  | none => some none
  | some r => do
    let stop ← Word.add? r.start r.length
    return if p ≤ stop then some r else none

/-- The runs that start inside `[lo, hi]`, an interval that has to be in order. -/
def startingUpTo? (runs : RunList) (lo hi : Nat) : Option RunList :=
  if lo ≤ hi then some (runs.filter fun r => lo ≤ r.start ∧ r.start ≤ hi) else none

/-- The list with a run at its place, instead of one with the same start. -/
def insertRun (runs : RunList) (r : Run) : RunList :=
  runs.filter (·.start < r.start) ++ r :: runs.filter (r.start < ·.start)

/-- Writes a block of values at `pos`, in words. -/
def merge? (runs : RunList) (pos : Nat) (values : List Nat) : Option RunList := do
  let stop ← Word.add? pos values.length
  let reaching ← runs.reaching? pos
  let starting ← runs.startingUpTo? pos stop
  let touched := reaching.toList ++ starting
  match touched.head?, touched.getLast? with
  | some first, some last =>
    let before ← first.before? pos
    let behind ← last.from? stop
    let others := runs.filter (·.start ∉ touched.map Run.start)
    return insertRun others ⟨min first.start pos, before ++ values ++ behind⟩
  | _, _ => return runs.insertRun ⟨pos, values⟩

end RunList

theorem Run.before?_eq {r : Run} {p : Nat} (h : p ≤ r.stop) :
    r.before? p = some (r.values.take (p - r.start)) := by
  unfold before?
  split_ifs with hlt
  · have hlength : p - r.start ≤ r.values.length := by
      unfold stop length at h
      omega
    rw [Word.sub?_of_le hlt.le]
    exact Word.slice?_of_le (Nat.zero_le _) hlength
  · rw [Nat.sub_eq_zero_of_le (by omega), List.take_zero]

theorem Run.from?_eq {r : Run} {p : Nat} (h : r.start ≤ p) (hw : r.stop ≤ Word.max) :
    r.from? p = some (r.values.drop (p - r.start)) := by
  have hadd : Word.add? r.start r.length = some r.stop := Word.add?_of_le hw
  unfold from?
  rw [hadd]
  change (if p < r.stop then _ else _) = _
  split_ifs with hlt
  · have hlength : p - r.start ≤ r.length := by
      unfold stop at hlt
      omega
    rw [Word.sub?_of_le h]
    change Word.slice? _ _ _ = _
    rw [Word.slice?_of_le hlength (le_refl _), length, List.take_length]
  · rw [List.drop_eq_nil_of_le]
    unfold stop length at hlt
    omega

namespace RunList

variable {runs before touched behind : RunList} {pos stop : Nat} {values : List Nat} {r first : Run}

/-! ### The runs that a block touches -/

/-- Runs before the block from `pos` up to `stop`, runs that it meets or touches, and runs behind
it. -/
structure Parted (pos stop : Nat) (before touched behind : RunList) : Prop where
  before_lt : ∀ r ∈ before, r.stop < pos
  touches : ∀ r ∈ touched, pos ≤ r.stop ∧ r.start ≤ stop
  lt_behind : ∀ r ∈ behind, stop < r.start

/-- **A canonical list falls into three parts** with respect to a block. -/
theorem Canonical.exists_parted (h : Canonical runs) (pos stop : Nat) :
    ∃ before touched behind, runs = before ++ touched ++ behind ∧
      Parted pos stop before touched behind := by
  induction runs with
  | nil => exact ⟨[], [], [], rfl, by simp, by simp, by simp⟩
  | cons r rest ih =>
    obtain ⟨before, touched, behind, rfl, hparts⟩ := ih h.tail
    by_cases hbefore : r.stop < pos
    · exact ⟨r :: before, touched, behind, rfl,
        List.forall_mem_cons.mpr ⟨hbefore, hparts.before_lt⟩, hparts.touches, hparts.lt_behind⟩
    by_cases hbehind : stop < r.start
    · refine ⟨[], [], r :: (before ++ touched ++ behind), rfl, by simp, by simp, fun s hs => ?_⟩
      rcases List.mem_cons.mp hs with rfl | hs
      · exact hbehind
      · have := h.stop_lt s hs
        have := r.start_le_stop
        omega
    · -- what follows a run that reaches the block stops behind the start of the block
      have hnil : before = [] := by
        refine List.eq_nil_iff_forall_not_mem.mpr fun s hs => ?_
        have := h.stop_lt s (by simp [hs])
        have := hparts.before_lt s hs
        have := s.start_le_stop
        omega
      subst hnil
      exact ⟨[], r :: touched, behind, rfl, by simp,
        List.forall_mem_cons.mpr ⟨⟨by omega, by omega⟩, hparts.touches⟩, hparts.lt_behind⟩

/-! ### What a write makes of the parts -/

theorem write_append (h : ∀ r ∈ before, r.stop < pos) (rest : RunList) :
    write pos values (before ++ rest) = before ++ rest.write pos values := by
  induction before with
  | nil => rfl
  | cons r before ih =>
    obtain ⟨hr, hbefore⟩ := List.forall_mem_cons.mp h
    rw [List.cons_append, write, if_pos hr, ih hbefore]
    rfl

theorem stop_absorb (hreaches : pos ≤ r.stop) (hstarts : r.start ≤ pos + values.length) :
    (r.absorb pos values).stop = max (pos + values.length) r.stop := by
  have hstop : r.stop = r.start + r.values.length := rfl
  simp only [Run.absorb, Run.stop, Run.length, List.length_append, List.length_take,
    List.length_drop]
  omega

/-- **The touched runs become one run with the block:** what the first one has before it is kept,
and what the last one has behind it. -/
theorem write_of_touched {others : RunList} {last : Run}
    (h : Canonical (first :: others ++ behind))
    (htouches : ∀ r ∈ first :: others, pos ≤ r.stop ∧ r.start ≤ pos + values.length)
    (hbehind : ∀ r ∈ behind, pos + values.length < r.start)
    (hlast : (first :: others).getLast? = some last) :
    write pos values (first :: others ++ behind) =
      ⟨min first.start pos, first.values.take (pos - first.start) ++ values ++
        last.values.drop (pos + values.length - last.start)⟩ :: behind := by
  induction others generalizing first pos values with
  | nil =>
    obtain ⟨hreaches, hstarts⟩ := htouches first List.mem_cons_self
    obtain rfl : first = last := by simpa using hlast
    have hstop : (first.absorb pos values).start + (first.absorb pos values).values.length =
        max (pos + values.length) first.stop := stop_absorb hreaches hstarts
    rw [List.cons_append, write, if_neg (by omega), if_neg (by omega), List.nil_append,
      write_eq_cons, Run.absorb, Nat.min_comm]
    intro r hr
    have := hbehind r hr
    have := h.stop_lt r hr
    omega
  | cons second others ih =>
    obtain ⟨⟨hreaches, hstarts⟩, hothers⟩ := List.forall_mem_cons.mp htouches
    have hapart : first.stop < second.start := h.stop_lt second (by simp)
    have hstop : (first.absorb pos values).start + (first.absorb pos values).values.length =
        max (pos + values.length) first.stop := stop_absorb hreaches hstarts
    have hsecond := (hothers second List.mem_cons_self).2
    have hend : (first.absorb pos values).start + (first.absorb pos values).values.length =
        pos + values.length := by omega
    have hstart : (first.absorb pos values).start = min first.start pos := Nat.min_comm _ _
    have hreached : ∀ r ∈ second :: others, (first.absorb pos values).start ≤ r.stop ∧
        r.start ≤ (first.absorb pos values).start + (first.absorb pos values).values.length := by
      intro r hr
      have := hothers r hr
      omega
    have hrest := ih h.tail hreached (by rwa [hend]) (by rwa [List.getLast?_cons_cons] at hlast)
    rw [List.cons_append, write, if_neg (by omega), if_neg (by omega)]
    refine hrest.trans ?_
    -- the second run starts behind the first one, so the block covers what the first one has left
    have hlength : first.stop = first.start + first.values.length := rfl
    rw [hend, hstart, Nat.min_eq_right (by omega), Nat.sub_eq_zero_of_le (by omega), List.take_zero,
      List.nil_append, Run.absorb, List.drop_eq_nil_of_le (by omega), List.append_nil]

/-! ### Finding the touched runs -/

theorem Canonical.le_start_of_touched {others : RunList} (h : Canonical (first :: others))
    (hreaches : pos ≤ first.stop) : ∀ r ∈ others, pos ≤ r.start := by
  intro r hr
  have := h.stop_lt r hr
  omega

theorem Parted.start_lt (h : Parted pos stop before touched behind) (hr : r ∈ before) :
    r.start < pos := r.start_le_stop.trans_lt (h.before_lt r hr)

theorem Parted.filter_start_lt (h : Parted pos stop before touched behind) (hle : pos ≤ stop) :
    (before ++ touched ++ behind).filter (·.start < pos) =
      before ++ touched.filter (·.start < pos) := by
  have hbefore : before.filter (·.start < pos) = before :=
    List.filter_eq_self.mpr fun r hr => decide_eq_true (h.start_lt hr)
  have hbehind : behind.filter (·.start < pos) = [] :=
    List.filter_eq_nil_iff.mpr fun r hr => by simpa using hle.trans (h.lt_behind r hr).le
  rw [List.filter_append, List.filter_append, hbefore, hbehind, List.append_nil]

theorem Parted.filter_start_within (h : Parted pos stop before touched behind) :
    (before ++ touched ++ behind).filter (fun r => pos ≤ r.start ∧ r.start ≤ stop) =
      touched.filter (pos ≤ ·.start) := by
  have hbefore : before.filter (fun r => pos ≤ r.start ∧ r.start ≤ stop) = [] := by
    refine List.filter_eq_nil_iff.mpr fun r hr hwithin => ?_
    exact (h.start_lt hr).not_ge (of_decide_eq_true hwithin).1
  have hbehind : behind.filter (fun r => pos ≤ r.start ∧ r.start ≤ stop) = [] := by
    refine List.filter_eq_nil_iff.mpr fun r hr hwithin => ?_
    exact (h.lt_behind r hr).not_ge (of_decide_eq_true hwithin).2
  have htouched : touched.filter (fun r => pos ≤ r.start ∧ r.start ≤ stop) =
      touched.filter (pos ≤ ·.start) := by
    refine List.filter_congr fun r hr => ?_
    rw [decide_eq_decide]
    exact and_iff_left (h.touches r hr).2
  rw [List.filter_append, List.filter_append, hbefore, hbehind, htouched, List.append_nil,
    List.nil_append]

/-- Of all runs that start before the block only a touched one reaches it. -/
theorem Parted.reaching?_eq (h : Parted pos stop before touched behind) (hle : pos ≤ stop)
    (hw : ∀ r ∈ before ++ touched ++ behind, r.stop ≤ Word.max) :
    reaching? (before ++ touched ++ behind) pos =
      some (touched.filter (·.start < pos)).getLast? := by
  have hadd : ∀ r ∈ before ++ touched, Word.add? r.start r.length = some r.stop := fun r hr =>
    Word.add?_of_le (hw r (List.mem_append_left _ hr))
  unfold reaching?
  rw [h.filter_start_lt hle, List.getLast?_append]
  cases htouched : (touched.filter (·.start < pos)).getLast? with
  | some r =>
    have hr := (List.mem_filter.mp (List.mem_of_getLast? htouched)).1
    have hreaches := (h.touches r hr).1
    simp only [Option.some_or, hadd r (List.mem_append_right _ hr), Option.bind_eq_bind,
      Option.bind_some, Option.pure_def]
    rw [if_pos hreaches]
  | none =>
    rw [Option.none_or]
    cases hbefore : before.getLast? with
    | none => rfl
    | some r =>
      have hr := List.mem_of_getLast? hbefore
      have hlt := h.before_lt r hr
      simp only [hadd r (List.mem_append_left _ hr), Option.bind_eq_bind, Option.bind_some,
        Option.pure_def]
      rw [if_neg (by omega)]

theorem Canonical.touched_eq (h : Canonical touched) (hreaches : ∀ r ∈ touched, pos ≤ r.stop) :
    (touched.filter (·.start < pos)).getLast?.toList ++ touched.filter (pos ≤ ·.start) =
      touched := by
  cases touched with
  | nil => rfl
  | cons first others =>
    have hothers := h.le_start_of_touched (hreaches first List.mem_cons_self)
    have hnone : others.filter (·.start < pos) = [] :=
      List.filter_eq_nil_iff.mpr fun r hr => by simpa using hothers r hr
    have hall : others.filter (pos ≤ ·.start) = others :=
      List.filter_eq_self.mpr fun r hr => decide_eq_true (hothers r hr)
    by_cases hstart : first.start < pos
    · rw [List.filter_cons_of_pos (by simpa using hstart), List.filter_cons_of_neg (by simpa using
        hstart), hnone, hall]
      rfl
    · rw [List.filter_cons_of_neg (by simpa using hstart), List.filter_cons_of_pos (by simpa using
        hstart), hnone, hall]
      rfl

/-! ### Putting a run in the place of others -/

theorem insertRun_append (hbefore : ∀ s ∈ before, s.start < r.start)
    (hbehind : ∀ s ∈ behind, r.start < s.start) :
    insertRun (before ++ behind) r = before ++ r :: behind := by
  have h1 : before.filter (·.start < r.start) = before :=
    List.filter_eq_self.mpr fun s hs => decide_eq_true (hbefore s hs)
  have h2 : before.filter (r.start < ·.start) = [] :=
    List.filter_eq_nil_iff.mpr fun s hs => by simpa using (hbefore s hs).le
  have h3 : behind.filter (·.start < r.start) = [] :=
    List.filter_eq_nil_iff.mpr fun s hs => by simpa using (hbehind s hs).le
  have h4 : behind.filter (r.start < ·.start) = behind :=
    List.filter_eq_self.mpr fun s hs => decide_eq_true (hbehind s hs)
  rw [insertRun, List.filter_append, List.filter_append, h1, h2, h3, h4, List.append_nil,
    List.nil_append]

/-- Runs have different starts, so taking out the starts of some takes out just these. -/
theorem Canonical.filter_start_notMem (h : Canonical (before ++ touched ++ behind)) :
    (before ++ touched ++ behind).filter (·.start ∉ touched.map Run.start) = before ++ behind := by
  obtain ⟨hfront, -, hrear⟩ := List.pairwise_append.mp h.apart
  obtain ⟨-, -, hmiddle⟩ := List.pairwise_append.mp hfront
  have hbefore : before.filter (·.start ∉ touched.map Run.start) = before := by
    refine List.filter_eq_self.mpr fun r hr => decide_eq_true fun hmem => ?_
    obtain ⟨s, hs, hstart⟩ := List.mem_map.mp hmem
    have := hmiddle r hr s hs
    have := r.start_le_stop
    omega
  have htouched : touched.filter (·.start ∉ touched.map Run.start) = [] :=
    List.filter_eq_nil_iff.mpr fun r hr => by simpa using ⟨r, hr, rfl⟩
  have hbehind : behind.filter (·.start ∉ touched.map Run.start) = behind := by
    refine List.filter_eq_self.mpr fun r hr => decide_eq_true fun hmem => ?_
    obtain ⟨s, hs, hstart⟩ := List.mem_map.mp hmem
    have := hrear s (List.mem_append_right _ hs) r hr
    have := s.start_le_stop
    omega
  rw [List.filter_append, List.filter_append, hbefore, htouched, hbehind, List.append_nil]

/-- **A write goes wrong nowhere,** and computed in words it is the same. -/
theorem Canonical.merge?_eq (h : Canonical runs) (hw : ∀ r ∈ runs, r.stop ≤ Word.max)
    (hblock : pos + values.length ≤ Word.max) :
    runs.merge? pos values = some (runs.write pos values) := by
  obtain ⟨before, touched, behind, rfl, hparts⟩ := h.exists_parted pos (pos + values.length)
  have hle : pos ≤ pos + values.length := Nat.le_add_right _ _
  have htouched : Canonical touched := by
    have hdrop := (h.take (before ++ touched).length).drop before.length
    rwa [List.take_left, List.drop_left] at hdrop
  have hstarting : startingUpTo? (before ++ touched ++ behind) pos (pos + values.length) =
      some (touched.filter (pos ≤ ·.start)) := by
    rw [startingUpTo?, if_pos hle, hparts.filter_start_within]
  have hwrite : RunList.write pos values (before ++ touched ++ behind) =
      before ++ RunList.write pos values (touched ++ behind) := by
    rw [List.append_assoc, write_append hparts.before_lt]
  rw [hwrite]
  unfold merge?
  simp only [Word.add?_of_le hblock, hparts.reaching?_eq hle hw, hstarting, Option.bind_eq_bind,
    Option.bind_some, htouched.touched_eq fun r hr => (hparts.touches r hr).1]
  cases touched with
  | nil =>
    rw [List.append_nil, List.nil_append, write_eq_cons hparts.lt_behind]
    exact congrArg some (insertRun_append (fun s hs => hparts.start_lt hs) fun s hs =>
      hle.trans_lt (hparts.lt_behind s hs))
  | cons first others =>
    obtain ⟨last, hlast⟩ := Option.isSome_iff_exists.mp
      (List.getLast?_isSome.mpr (List.cons_ne_nil first others))
    have hmem : last ∈ first :: others := List.mem_of_getLast? hlast
    have hfirst := hparts.touches first List.mem_cons_self
    have hbefore : first.before? pos = some (first.values.take (pos - first.start)) :=
      Run.before?_eq hfirst.1
    have hfrom : last.from? (pos + values.length) =
        some (last.values.drop (pos + values.length - last.start)) :=
      Run.from?_eq (hparts.touches last hmem).2
        (hw last (List.mem_append_left _ (List.mem_append_right _ hmem)))
    have hcanonical : Canonical (first :: others ++ behind) := by
      have hdrop := h.drop before.length
      rwa [List.append_assoc, List.drop_left] at hdrop
    obtain ⟨hfront, -, -⟩ := List.pairwise_append.mp h.apart
    obtain ⟨-, -, hmiddle⟩ := List.pairwise_append.mp hfront
    simp only [List.head?_cons, hlast, hbefore, hfrom, Option.bind_some, Option.pure_def]
    rw [h.filter_start_notMem, write_of_touched hcanonical hparts.touches hparts.lt_behind hlast]
    refine congrArg some (insertRun_append (fun s hs => ?_) fun s hs => ?_)
    · have := hparts.before_lt s hs
      have := hmiddle s hs first List.mem_cons_self
      have := s.start_le_stop
      simp only
      omega
    · have := hparts.lt_behind s hs
      simp only
      omega

end RunList
end EditOverlay
