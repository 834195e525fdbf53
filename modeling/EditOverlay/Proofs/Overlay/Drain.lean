import EditOverlay.Proofs.Overlay.Order
import EditOverlay.Proofs.RunList.Scan

/-! # Overlays: runs that are taken out and put back

Taken out one by one, the runs come in ascending order, each once (`popMany_eq`, `drain_eq`). Put
back in any order they are the runs that they were: at each position only one of them gives a value
(`Canonical.foldl_valueAt?_perm`), so the order does not matter for the values, and the values
determine the runs (`drain_and_requeue`). -/

namespace EditOverlay

namespace RunList

variable {runs runs' : RunList}

/-- Runs of a canonical list that are laid over a value one after the other: the last one that gives
a value counts, and there is only one. -/
theorem Canonical.foldl_valueAt? (h : Canonical runs) (p : Nat) (v : Option Nat) :
    runs.foldl (fun v r => (r.valueAt? p).or v) v = (runs.valueAt? p).or v := by
  induction runs generalizing v with
  | nil => rfl
  | cons r rest ih => rw [List.foldl_cons, ih h.tail, h.valueAt?_cons, Option.or_assoc]

/-- **The order does not matter,** since only one run gives a value. -/
theorem Canonical.foldl_valueAt?_perm (h : Canonical runs) (hperm : runs'.Perm runs) (p : Nat)
    (v : Option Nat) :
    runs'.foldl (fun v r => (r.valueAt? p).or v) v = (runs.valueAt? p).or v := by
  rw [← h.foldl_valueAt?]
  refine hperm.foldl_eq' (fun r hr s hs w => ?_) v
  have hstart := r.start_le_stop
  have hstart' := s.start_le_stop
  rcases h.eq_or_apart (hperm.mem_iff.mp hr) (hperm.mem_iff.mp hs) with rfl | hapart
  · rfl
  · have hnone : r.valueAt? p = none ∨ s.valueAt? p = none := by
      rw [Run.valueAt?_eq_none_iff, Run.valueAt?_eq_none_iff]
      omega
    rcases hnone with hr | hs
    · rw [hr, Option.none_or, Option.none_or]
    · rw [hs, Option.none_or, Option.none_or]

end RunList

namespace Overlay

open RunList

variable {Q : Nat → Prop} {o o' : Overlay} {r : Run} {runs : RunList}

/-! ### Taking out -/

/-- Takes out the first runs one by one, as many as there are up to `count`. Gives them in the order
in which they come, and the overlay without them. -/
def popMany (o : Overlay) : Nat → RunList × Overlay
  | 0 => ([], o)
  | count + 1 =>
    match o.popFirst? with
    | none => ([], o)
    | some (r, o') =>
      let (runs, last) := o'.popMany count
      (r :: runs, last)

theorem popFirst_eq_some_iff :
    o.popFirst? = some (r, o') ↔ ∃ rest, o.runs = r :: rest ∧ o' = { o with runs := rest } := by
  unfold popFirst?
  cases o.runs with
  | nil => exact ⟨fun h => (Option.some_ne_none _ h.symm).elim, fun ⟨_, h, _⟩ => by cases h⟩
  | cons s rest =>
    constructor
    · intro h
      cases h
      exact ⟨rest, rfl, rfl⟩
    · rintro ⟨rest', h, rfl⟩
      cases h
      rfl

theorem length_runs_of_popFirst (h : o.popFirst? = some (r, o')) :
    o'.runs.length < o.runs.length := by
  obtain ⟨rest, hruns, rfl⟩ := popFirst_eq_some_iff.mp h
  rw [hruns, List.length_cons]
  exact Nat.lt_succ_self _

/-- Takes out runs until there is none. -/
def drain (o : Overlay) : RunList × Overlay :=
  match _ : o.popFirst? with
  | none => ([], o)
  | some (r, o') =>
    let (runs, last) := o'.drain
    (r :: runs, last)
termination_by o.runs.length
decreasing_by exact length_runs_of_popFirst ‹_›

theorem popMany_eq (o : Overlay) (count : Nat) :
    o.popMany count = (o.runs.take count, { o with runs := o.runs.drop count }) := by
  induction count generalizing o with
  | zero => rfl
  | succ count ih =>
    rw [popMany]
    obtain ⟨hruns, hpop⟩ | ⟨r, rest, hruns, hpop⟩ := o.popFirst_cases
    · rw [hpop, hruns, List.take_nil, List.drop_nil, ← hruns]
    · rw [hpop]
      simp only [ih, hruns, List.take_succ_cons, List.drop_succ_cons]

theorem drain_eq (o : Overlay) : o.drain = (o.runs, { o with runs := [] }) := by
  rw [drain]
  split
  · rename_i hpop
    obtain ⟨hruns, -⟩ | ⟨r, rest, -, hsome⟩ := o.popFirst_cases
    · rw [hruns, ← hruns]
    · rw [hsome] at hpop
      cases hpop
  · rename_i r o' hpop
    have hlt := length_runs_of_popFirst hpop
    obtain ⟨rest, hruns, rfl⟩ := popFirst_eq_some_iff.mp hpop
    rw [drain_eq { o with runs := rest }, hruns]
termination_by o.runs.length

/-! ### Putting back -/

/-- Puts runs back one by one, all of which have to be accepted. -/
def requeueAll (o : Overlay) (runs : RunList) : Except EditError Overlay :=
  runs.foldlM (fun o r => o.requeue r.start r.values) o

/-- The overlay with runs written into it one by one. -/
def mergeAll (o : Overlay) (runs : RunList) : Overlay :=
  runs.foldl (fun o r => o.merge r.start r.values) o

theorem requeueAll_eq_ok (h : ∀ r ∈ runs, r.Within o.width.Fits o.length) :
    o.requeueAll runs = .ok (o.mergeAll runs) := by
  induction runs generalizing o with
  | nil => rfl
  | cons r rest ih =>
    obtain ⟨hr, hrest⟩ := List.forall_mem_cons.mp h
    have haccepted : o.requeue r.start r.values = .ok (o.merge r.start r.values) :=
      requeue_eq_ok_iff.mpr ⟨hr, rfl⟩
    rw [requeueAll, List.foldlM_cons, haccepted, bind_ok]
    exact ih (o := o.merge r.start r.values) (by rwa [merge_width, merge_length])

theorem mergeAll_eq (o : Overlay) (runs : RunList) :
    o.mergeAll runs = { o with runs := (o.mergeAll runs).runs } := by
  induction runs generalizing o with
  | nil => rfl
  | cons r rest ih =>
    have hmerge :
        o.merge r.start r.values = { o with runs := (o.merge r.start r.values).runs } := by
      unfold merge
      split_ifs <;> rfl
    have hrest := ih (o.merge r.start r.values)
    rw [hmerge] at hrest
    rw [mergeAll, List.foldl_cons, hmerge]
    exact hrest

theorem canonical_mergeAll (h : Canonical o.runs) (runs : RunList) :
    Canonical (o.mergeAll runs).runs := by
  induction runs generalizing o with
  | nil => exact h
  | cons r rest ih => exact ih (canonical_merge h r.start r.values)

theorem valueAt?_mergeAll (o : Overlay) (runs : RunList) (p : Nat) :
    (o.mergeAll runs).runs.valueAt? p =
      runs.foldl (fun v r => (r.valueAt? p).or v) (o.runs.valueAt? p) := by
  induction runs generalizing o with
  | nil => rfl
  | cons r rest ih =>
    rw [List.foldl_cons, ← valueAt?_merge o r.start r.values p]
    exact ih (o.merge r.start r.values)

/-- **Runs that were in front go back in any order.** None of them fuses with another one, or with
those that were left. -/
theorem runs_mergeAll_of_perm {first : RunList} (h : Canonical (first ++ o.runs))
    (hperm : runs.Perm first) : (o.mergeAll runs).runs = first ++ o.runs := by
  have hrest : Canonical o.runs := by
    have hdrop := h.drop first.length
    rwa [List.drop_left] at hdrop
  have hfirst : Canonical first := by
    have htake := h.take first.length
    rwa [List.take_left] at htake
  refine (canonical_mergeAll hrest runs).ext h fun p => ?_
  rw [valueAt?_mergeAll, hfirst.foldl_valueAt?_perm hperm, valueAt?_append]

/-- **Taking out and putting back are inverse, in any order.** The stores that were read may have
failed, but have given no more elements than asked for, and values that fit. Of the runs any number
can be taken out: they come in strictly ascending order, each once, and before all that are left;
and if they are put back, in whichever order, each is accepted and the overlay is as it was. Taken
out until there is none, they are all the runs, and put back in any order into an overlay without
changes, of the same width and length, they are these runs again. -/
theorem drain_and_requeue (h : Reachable o.width.Fits o) :
    (∀ count ≤ o.runs.length,
      let popped := o.popMany count
      popped.1.length = count ∧ popped.1 ++ popped.2.runs = o.runs ∧
        popped.1.Pairwise (fun r s => r.start < s.start) ∧
        (∀ r ∈ popped.1, ∀ s ∈ popped.2.runs, r.start < s.start) ∧
        ∀ runs : RunList, runs.Perm popped.1 → popped.2.requeueAll runs = .ok o) ∧
      o.drain.1.length = o.runs.length ∧ o.drain.1 = o.runs ∧ o.drain.2.hasChanges = false ∧
      ∀ (limit : Nat) (runs : RunList), runs.Perm o.drain.1 →
        ∃ o', (withLimit o.width o.length limit).requeueAll runs = .ok o' ∧ o'.runs = o.runs := by
  have hs : Sound o.width.Fits o := h.sound fun _ hv => hv
  have hascending : o.runs.Pairwise fun r s => r.start < s.start :=
    hs.canonical.apart.imp fun {r s} hrs => r.start_le_stop.trans_lt hrs
  refine ⟨fun count hcount => ?_, ?_⟩
  · rw [popMany_eq]
    have hsplit : o.runs.take count ++ o.runs.drop count = o.runs := List.take_append_drop _ _
    rw [← hsplit, List.pairwise_append] at hascending
    obtain ⟨hpopped, -, hbefore⟩ := hascending
    refine ⟨List.length_take_of_le hcount, hsplit, hpopped, hbefore, fun runs hperm => ?_⟩
    have hvalid : ∀ r ∈ runs, r.Within o.width.Fits o.length := fun r hr =>
      hs.runs_within r (List.mem_of_mem_take (hperm.mem_iff.mp hr))
    rw [requeueAll_eq_ok (o := { o with runs := o.runs.drop count }) hvalid]
    rw [mergeAll_eq, runs_mergeAll_of_perm (by rw [hsplit]; exact hs.canonical) hperm, hsplit]
  · rw [drain_eq]
    refine ⟨rfl, rfl, rfl, fun limit runs hperm => ?_⟩
    have hvalid : ∀ r ∈ runs, r.Within o.width.Fits o.length := fun r hr =>
      hs.runs_within r (hperm.mem_iff.mp hr)
    refine ⟨_, requeueAll_eq_ok (o := withLimit o.width o.length limit) hvalid, ?_⟩
    have hempty : o.runs ++ (withLimit o.width o.length limit).runs = o.runs := List.append_nil _
    rw [runs_mergeAll_of_perm (by rw [hempty]; exact hs.canonical) hperm, hempty]

/-- The same for three runs with one element between the first two. They are put back from the
last to the first, and into an overlay that records nothing in yet another order. -/
theorem drain_and_requeue_shuffled :
    let o : Overlay := ⟨.w8, 12, [⟨2, [1]⟩, ⟨4, [5, 5]⟩, ⟨9, [7]⟩],
      { entries := [⟨9, [0]⟩], limit := 1, dropped := 2 }⟩
    Reachable o.width.Fits o ∧ (o.popMany 2).1 = [⟨2, [1]⟩, ⟨4, [5, 5]⟩] ∧
      (o.popMany 2).2.requeueAll [⟨4, [5, 5]⟩, ⟨2, [1]⟩] = .ok o ∧
      o.drain.1 = o.runs ∧ o.drain.2.hasChanges = false ∧
      ∃ o', (withLimit .w8 12 0).requeueAll [⟨4, [5, 5]⟩, ⟨9, [7]⟩, ⟨2, [1]⟩] = .ok o' ∧
        o'.runs = o.runs := by
  intro o
  let s : MemoryStore := MemoryStore.zeroed .w8 12
  have hs : Store.ReadsWithin Width.w8.Fits s := s.exact.readsWithin (by decide)
  have hreach : Reachable o.width.Fits o := by
    refine ⟨.w8, 12, 1, [.change s 4 [5, 5] true, .change s 2 [1] true, .change s 9 [7] true], ?_,
      by decide⟩
    simp only [List.forall_mem_cons]
    exact ⟨hs, hs, hs, by simp⟩
  obtain ⟨hpop, -, hdrained, hempty, hrequeue⟩ := drain_and_requeue hreach
  obtain ⟨-, -, -, -, hback⟩ := hpop 2 (by decide)
  refine ⟨hreach, by decide, hback _ (by decide), hdrained, hempty, hrequeue 0 _ ?_⟩
  rw [hdrained]
  decide

end Overlay
end EditOverlay
