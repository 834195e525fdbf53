import EditOverlay.Overlay

/-! # Editors

An editor is a store together with an overlay over it. Every change is recorded; only `save` writes
to the store. -/

namespace EditOverlay

/-- A store under edit. -/
structure Editor (σ : Type) where
  store : σ
  overlay : Overlay

namespace Editor

variable {σ : Type} [Store σ]

/-- An editor without changes, with a limit for the undo stack. -/
def withLimit (store : σ) (limit : Nat) : Editor σ :=
  ⟨store, Overlay.withLimit (Store.width store) (Store.length store) limit⟩

/-- An editor without changes, with the default limit. -/
def ofStore (store : σ) : Editor σ := withLimit store History.defaultLimit

/-- The value at a position. -/
def value (e : Editor σ) (p : Nat) : Except EditError Nat := e.overlay.value e.store p

/-- The values in a range. -/
def values (e : Editor σ) (offset count : Nat) : Except EditError (List Nat) :=
  e.overlay.values e.store offset count

/-- The values from `offset` on for display: what lies behind the end of the store is left out. -/
def view (e : Editor σ) (offset count : Nat) : Except EditError (List Nat) :=
  let length := Store.length e.store
  if length < offset then .error (.outOfRange offset length)
  else do
    let elements ← Store.read e.store offset (min count (length - offset))
    return e.overlay.apply elements offset none

/-- Changes the elements from `pos` on and records what they were. -/
def change (e : Editor σ) (pos : Nat) (values : List Nat) : Except EditError (Editor σ) := do
  return { e with overlay := ← e.overlay.change e.store pos values true }

/-- Takes back the newest change. Gives its position, or zero if there is none. -/
def undo (e : Editor σ) : Nat × Editor σ :=
  let (position, overlay) := e.overlay.undo
  (position, { e with overlay := overlay })

/-- Takes back the newest changes, as many as there are up to `count`. -/
def undoMany (e : Editor σ) : Nat → Editor σ
  | 0 => e
  | count + 1 => if e.overlay.hasUndo then e.undo.2.undoMany count else e

/-- Drops all changes and their history. -/
def revert (e : Editor σ) : Editor σ := { e with overlay := e.overlay.clear }

/-- Writes the changes to the store. -/
def save (e : Editor σ) : Editor σ × Except EditError SaveReport :=
  let c := e.overlay.commit e.store
  (⟨c.store, c.overlay⟩, c.result)

/-- The state in one line. -/
def describe (e : Editor σ) : String :=
  let state := if e.overlay.hasChanges then "已修改" else "未修改"
  let length := Store.length e.store
  let width := (Store.width e.store).label
  let runs := e.overlay.runs.length
  let depth := e.overlay.history.depth
  s!"数据块: {length} 个元素 ({width}), 修改状态: {state}, 区段数: {runs}, 可撤销: {depth}"

end Editor
end EditOverlay
