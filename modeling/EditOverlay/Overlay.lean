import EditOverlay.History
import EditOverlay.RunList
import EditOverlay.Store

/-! # Overlays

An overlay records changes to a store without touching it: the runs of new values and the stack of
what they replaced. The store is given with each operation that needs it.

Changes are checked before anything is done, so a refused change has no effect (`change` gives an
overlay only if it succeeds). A commit writes the runs in ascending order; the first one that cannot
be written goes back, and the later ones stay. -/

namespace EditOverlay

/-- Changes to a store of `length` elements. -/
structure Overlay where
  width : Width
  length : Nat
  runs : RunList
  history : History
  deriving DecidableEq, Repr

/-- What a commit has written. -/
structure SaveReport where
  runs : Nat
  elements : Nat
  deriving DecidableEq, Repr

/-- What is left after a commit, and how it went. -/
structure Commit (σ : Type) where
  overlay : Overlay
  store : σ
  result : Except EditError SaveReport

namespace Overlay

variable {σ : Type} [Store σ]

/-! ### Overlays without changes -/

/-- The overlay without changes, with a limit for the undo stack. -/
def withLimit (width : Width) (length limit : Nat) : Overlay :=
  ⟨width, length, [], History.empty limit⟩

/-- The overlay without changes, with the default limit. -/
def empty (width : Width) (length : Nat) : Overlay := withLimit width length History.defaultLimit

/-- The overlay without changes for a store. -/
def ofStore (store : σ) : Overlay := empty (Store.width store) (Store.length store)

/-- The overlay without its changes and their history. -/
def clear (o : Overlay) : Overlay := { o with runs := [], history := o.history.clear }

/-! ### Reading -/

/-- Whether a position has a new value. -/
def isChanged (o : Overlay) (p : Nat) : Bool := (o.runs.valueAt? p).isSome

/-- The value at a position: the new one if there is one, else the store's. -/
def value (o : Overlay) (store : σ) (p : Nat) : Except EditError Nat :=
  if o.length ≤ p then .error (.outOfRange p o.length)
  else match o.runs.valueAt? p with
    | some v => .ok v
    | none => do
      o.width.ensureSame (Store.width store)
      match ← Store.read store p 1 with
      | v :: _ => return v
      | [] => throw (.outOfRange p (Store.length store))

/-- Lays the changes over elements read from `offset` on. -/
def apply (o : Overlay) (target : List Nat) (offset : Nat) (limit : Option Nat) : List Nat :=
  o.runs.apply target offset (limit.getD target.length)

/-- The values in a range: the store's, with the changes laid over them. -/
def values (o : Overlay) (store : σ) (offset count : Nat) : Except EditError (List Nat) := do
  let _ ← checkRange offset count o.length
  o.width.ensureSame (Store.width store)
  let elements ← Store.read store offset count
  return o.apply elements offset none

/-- The changes in the range of `count` elements from `offset` on. -/
def changesIn (o : Overlay) (offset count : Nat) : RunList := o.runs.window offset (offset + count)

def hasChanges (o : Overlay) : Bool := !o.runs.isEmpty

def hasUndo (o : Overlay) : Bool := !o.history.entries.isEmpty

/-- The number of changed positions. -/
def changedCount (o : Overlay) : Nat := o.runs.count

/-! ### Changing -/

/-- Refuses a block outside the elements or with a value that does not fit. -/
def validate (o : Overlay) (pos : Nat) (values : List Nat) : Except EditError Unit :=
  if o.length < pos then .error (.outOfRange pos o.length)
  else do
    let _ ← checkRange pos values.length o.length
    o.width.checkAll values

/-- The overlay with a block of values written into its runs; an empty block leaves no run. -/
def merge (o : Overlay) (pos : Nat) (values : List Nat) : Overlay :=
  if values.isEmpty then o else { o with runs := o.runs.write pos values }

/-- Changes the elements from `pos` on to `values`. With `record`, the values that they had go on
the undo stack. -/
def change (o : Overlay) (store : σ) (pos : Nat) (values : List Nat) (record : Bool) :
    Except EditError Overlay := do
  o.width.ensureSame (Store.width store)
  o.validate pos values
  if values.isEmpty then return o
  if record then
    let previous ← o.values store pos values.length
    return { o with history := o.history.push ⟨pos, previous⟩ }.merge pos values
  else return o.merge pos values

/-- Takes back the newest recorded change. Gives its position, or zero if there is none. -/
def undo (o : Overlay) : Nat × Overlay :=
  match o.history.pop? with
  | none => (0, o)
  | some (e, rest) => (e.position, { o with history := rest }.merge e.position e.previous)

/-! ### Committing -/

/-- Takes the first run out. -/
def popFirst? (o : Overlay) : Option (Run × Overlay) :=
  match o.runs with
  | [] => none
  | r :: rest => some (r, { o with runs := rest })

/-- Puts a run back that could not be written. Nothing is recorded. -/
def requeue (o : Overlay) (pos : Nat) (values : List Nat) : Except EditError Overlay := do
  o.validate pos values
  return o.merge pos values

/-- Writes runs one by one, with those behind them still in the overlay. -/
def commitRuns (o : Overlay) (store : σ) (written : SaveReport) : RunList → Commit σ
  | [] => ⟨{ o with runs := [] }, store, .ok written⟩
  | r :: rest =>
    match Store.write store r.start r.values with
    | (store', .ok ()) => commitRuns o store' ⟨written.runs + 1, written.elements + r.length⟩ rest
    | (store', .error e) =>
      match { o with runs := rest }.requeue r.start r.values with
      | .ok o' => ⟨o', store', .error e⟩
      | .error e' => ⟨{ o with runs := rest }, store', .error e'⟩

/-- Writes all changes to the store, up to the first failure. -/
def commit (o : Overlay) (store : σ) : Commit σ :=
  match o.width.ensureSame (Store.width store) with
  | .error e => ⟨o, store, .error e⟩
  | .ok () => o.commitRuns store ⟨0, 0⟩ o.runs

end Overlay
end EditOverlay
