import EditOverlay.History
import Mathlib.Tactic.SplitIfs

/-! # The undo stack is the end of an unlimited one

A stack with a limit holds the newest entries of a stack without one. `shed` is what a push does at
the front: entries are taken off one by one, as long as there are too many (`oldestFirst_push`,
`dropped_push`). `Unlimited` keeps all entries, and next to them those that were shed; then the
entries are at every time those shed and behind them those of the stack with the limit
(`refines_unlimited`). -/

namespace EditOverlay.History

/-! ### Shedding -/

/-- Takes entries off the front as long as there are more than `limit`. Gives those taken off, and
those that are left. -/
def shed (limit : Nat) : List UndoEntry → List UndoEntry × List UndoEntry
  | [] => ([], [])
  | e :: rest =>
    if limit < (e :: rest).length then
      let (gone, left) := shed limit rest
      (e :: gone, left)
    else ([], e :: rest)

theorem shed_eq (limit : Nat) (entries : List UndoEntry) : shed limit entries =
    (entries.take (entries.length - limit), entries.drop (entries.length - limit)) := by
  induction entries with
  | nil => rw [shed, List.take_nil, List.drop_nil]
  | cons e rest ih =>
    rw [shed, ih]
    split_ifs with hlimit
    · have hcount : (e :: rest).length - limit = rest.length - limit + 1 := by
        rw [List.length_cons] at hlimit ⊢
        omega
      rw [hcount, List.take_succ_cons, List.drop_succ_cons]
    · have hcount : (e :: rest).length - limit = 0 := by omega
      rw [hcount, List.take_zero, List.drop_zero]

theorem shed_append (limit : Nat) (entries : List UndoEntry) :
    (shed limit entries).1 ++ (shed limit entries).2 = entries := by
  rw [shed_eq, List.take_append_drop]

theorem length_oldestFirst_append (h : History) (e : UndoEntry) :
    (h.oldestFirst ++ [e]).length = (e :: h.entries).length := by
  rw [oldestFirst, List.length_append, List.length_reverse, List.length_singleton, List.length_cons]

/-- **A push puts the entry at the end** and sheds at the front. -/
theorem oldestFirst_push (h : History) (e : UndoEntry) :
    (h.push e).oldestFirst = (shed h.limit (h.oldestFirst ++ [e])).2 := by
  rw [shed_eq, length_oldestFirst_append, oldestFirst, oldestFirst, ← List.reverse_cons]
  exact List.reverse_take

theorem dropped_push (h : History) (e : UndoEntry) :
    (h.push e).dropped = h.dropped + (shed h.limit (h.oldestFirst ++ [e])).1.length := by
  rw [shed_eq, List.length_take, length_oldestFirst_append, Nat.min_eq_left (Nat.sub_le _ _)]
  rfl

/-! ### Operations as data -/

/-- A call that may change a stack. -/
inductive Operation where
  | push (e : UndoEntry)
  | pop
  | clear
  deriving DecidableEq, Repr

/-- The stack after an operation, and the entry that the operation gives, if any. -/
def call (h : History) : Operation → History × Option UndoEntry
  | .push e => (h.push e, none)
  | .pop =>
    match h.pop? with
    | some (e, h') => (h', some e)
    | none => (h, none)
  | .clear => (h.clear, none)

/-- The stack after operations, in their order. -/
def after (h : History) (ops : List Operation) : History := ops.foldl (fun h op => (h.call op).1) h

theorem limit_call (h : History) (op : Operation) : (h.call op).1.limit = h.limit := by
  cases op with
  | push e => rfl
  | pop =>
    unfold call pop?
    cases h.entries <;> rfl
  | clear => rfl

theorem call_pop (h : History) : (h.call .pop).2 = h.oldestFirst.getLast? ∧
    (h.call .pop).1.oldestFirst = h.oldestFirst.dropLast ∧
      (h.call .pop).1.dropped = h.dropped := by
  unfold call pop? oldestFirst
  cases hentries : h.entries with
  | nil => simp [hentries]
  | cons e rest => simp

/-! ### Without a limit -/

/-- All entries that were pushed and not popped since the last `clear`, whatever the limit of a
stack beside. -/
structure Unlimited where
  /-- The entries, the oldest first. -/
  entries : List UndoEntry
  /-- The entries that the stack beside has shed, in the order in which they were pushed. -/
  discarded : List UndoEntry
  deriving DecidableEq, Repr

namespace Unlimited

/-- The entries after an operation of the stack `h`. A pop takes the last one if it gives `h`
one. -/
def step (u : Unlimited) (h : History) : Operation → Unlimited
  | .push e => ⟨u.entries ++ [e], u.discarded ++ (shed h.limit (h.oldestFirst ++ [e])).1⟩
  | .pop => if (h.call .pop).2.isSome then { u with entries := u.entries.dropLast } else u
  | .clear => ⟨[], []⟩

/-- A stack and all entries beside it after operations, in their order. -/
def follow (u : Unlimited) (h : History) : List Operation → History × Unlimited
  | [] => (h, u)
  | op :: ops => (u.step h op).follow (h.call op).1 ops

theorem follow_fst (u : Unlimited) (h : History) (ops : List Operation) :
    (u.follow h ops).1 = h.after ops := by
  induction ops generalizing u h with
  | nil => rfl
  | cons op ops ih => exact ih (u.step h op) (h.call op).1

/-- The stack holds the entries that were not shed, and counts those that were. -/
structure CutTo (u : Unlimited) (h : History) : Prop where
  entries_eq : u.entries = u.discarded ++ h.oldestFirst
  dropped_eq : u.discarded.length = h.dropped
  depth_le : h.depth ≤ h.limit

namespace CutTo

variable {u : Unlimited} {h : History}

theorem push (hcut : CutTo u h) (e : UndoEntry) : CutTo (u.step h (.push e)) (h.push e) := by
  refine ⟨?_, ?_, h.depth_push_le e⟩
  · rw [step, hcut.entries_eq, oldestFirst_push, List.append_assoc, List.append_assoc, shed_append]
  · rw [step, List.length_append, hcut.dropped_eq, dropped_push]

theorem pop (hcut : CutTo u h) : CutTo (u.step h .pop) (h.call .pop).1 := by
  obtain ⟨hgiven, hleft, hdropped⟩ := h.call_pop
  have hdepth : (h.call .pop).1.depth ≤ h.depth := by
    have hlength := congrArg List.length hleft
    rw [List.length_dropLast, oldestFirst, oldestFirst, List.length_reverse,
      List.length_reverse] at hlength
    unfold depth
    omega
  refine ⟨?_, ?_, ?_⟩
  · rw [step, hgiven, hleft]
    split_ifs with hsome
    · have hne : h.oldestFirst ≠ [] := fun hnil => by
        rw [hnil] at hsome
        cases hsome
      rw [hcut.entries_eq, List.dropLast_append_of_ne_nil hne]
    · have hnil : h.oldestFirst = [] := by
        rwa [Option.not_isSome_iff_eq_none, List.getLast?_eq_none_iff] at hsome
      rw [hcut.entries_eq, hnil, List.dropLast_nil]
  · rw [step, hdropped, ← hcut.dropped_eq]
    split_ifs <;> rfl
  · rw [limit_call]
    exact Nat.le_trans hdepth hcut.depth_le

theorem step (hcut : CutTo u h) (op : Operation) : CutTo (u.step h op) (h.call op).1 := by
  cases op with
  | push e => exact hcut.push e
  | pop => exact hcut.pop
  | clear => exact ⟨rfl, rfl, Nat.zero_le _⟩

theorem follow (hcut : CutTo u h) (ops : List Operation) :
    CutTo (u.follow h ops).2 (u.follow h ops).1 ∧ (u.follow h ops).1.limit = h.limit := by
  induction ops generalizing u h with
  | nil => exact ⟨hcut, rfl⟩
  | cons op ops ih =>
    obtain ⟨hlast, hlimit⟩ := ih (hcut.step op)
    exact ⟨hlast, hlimit.trans (limit_call h op)⟩

end CutTo
end Unlimited

/-- **The undo stack is an unlimited one with its oldest part cut off and counted.** Whatever the
limit and the operations, there are never more entries than the limit allows; all entries are those
discarded, in the order in which they were pushed, and behind them those on the stack; as many as
discarded are counted as dropped; and a pop gives the last of all entries, unless the stack is
empty. A further push sheds at the front what is too much, and counts it. -/
theorem refines_unlimited (limit : Nat) (ops : List Operation) :
    let final := Unlimited.follow ⟨[], []⟩ (empty limit) ops
    final.1 = (empty limit).after ops ∧ final.1.limit = limit ∧ final.1.depth ≤ limit ∧
      final.2.entries = final.2.discarded ++ final.1.oldestFirst ∧
      final.2.discarded.length = final.1.dropped ∧
      ((final.1.call .pop).2 =
        if final.1.oldestFirst = [] then none else final.2.entries.getLast?) ∧
      ∀ e, (final.1.push e).oldestFirst = (shed limit (final.1.oldestFirst ++ [e])).2 ∧
        (final.1.push e).dropped =
          final.1.dropped + (shed limit (final.1.oldestFirst ++ [e])).1.length := by
  intro final
  have hstart : Unlimited.CutTo ⟨[], []⟩ (empty limit) := ⟨rfl, rfl, Nat.zero_le _⟩
  obtain ⟨hcut, hlimit⟩ : Unlimited.CutTo final.2 final.1 ∧ final.1.limit = limit :=
    hstart.follow ops
  refine ⟨Unlimited.follow_fst _ _ ops, hlimit, hlimit ▸ hcut.depth_le, hcut.entries_eq,
    hcut.dropped_eq, ?_, fun e => ?_⟩
  · rw [final.1.call_pop.1, hcut.entries_eq]
    split_ifs with hempty
    · rw [hempty, List.getLast?_nil]
    · rw [List.getLast?_append, Option.or_of_isSome (List.getLast?_isSome.mpr hempty)]
  · rw [← hlimit]
    exact ⟨final.1.oldestFirst_push e, final.1.dropped_push e⟩

end EditOverlay.History
