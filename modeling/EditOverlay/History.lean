/-! # The undo stack

The stack keeps what a range held before it was changed. It holds at most `limit` entries: a push
beyond that drops the oldest entry, and the number of dropped entries is kept. -/

namespace EditOverlay

/-- What the elements from `position` on held before a change. -/
structure UndoEntry where
  position : Nat
  previous : List Nat
  deriving DecidableEq, Repr

/-- A stack of undo entries with a limit. -/
structure History where
  /-- The entries, the newest first. -/
  entries : List UndoEntry
  /-- The number of entries that are kept. -/
  limit : Nat
  /-- The number of entries dropped since the last `clear`. -/
  dropped : Nat
  deriving DecidableEq, Repr

namespace History

/-- The limit of a stack for which none is given. -/
def defaultLimit : Nat := 100

/-- The stack without entries. -/
def empty (limit : Nat) : History := ⟨[], limit, 0⟩

/-- Puts an entry on the stack and drops the oldest entries beyond the limit. -/
def push (h : History) (e : UndoEntry) : History :=
  let entries := e :: h.entries
  { h with
    entries := entries.take h.limit
    dropped := h.dropped + (entries.length - h.limit) }

/-- Takes the newest entry off the stack. -/
def pop? (h : History) : Option (UndoEntry × History) :=
  match h.entries with
  | [] => none
  | e :: rest => some (e, { h with entries := rest })

/-- The stack with the same limit and nothing in it. -/
def clear (h : History) : History := empty h.limit

/-- The number of entries. -/
def depth (h : History) : Nat := h.entries.length

/-- The entries, the oldest first. -/
def oldestFirst (h : History) : List UndoEntry := h.entries.reverse

theorem depth_push_le (h : History) (e : UndoEntry) : (h.push e).depth ≤ h.limit := by
  simp only [push, depth, List.length_take]
  omega

end History
end EditOverlay
