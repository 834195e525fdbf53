import EditOverlay.Range
import EditOverlay.Width

/-! # Stores

A store holds the elements that are edited. An overlay reads from a store and writes to it, and
keeps nothing of it; so a store is a class, and an operation may be called with any store.

`Store.Exact` is what an overlay needs to show the elements of a store faithfully: reads inside the
store succeed with the elements asked for. -/

namespace EditOverlay

/-- What can be read from and written to. A failed write gives a store, too, since it may have
changed it. -/
class Store (σ : Type) where
  /-- The width of all elements. -/
  width : σ → Width
  /-- The number of elements. -/
  length : σ → Nat
  /-- The given number of elements from an offset on. -/
  read : σ → Nat → Nat → Except EditError (List Nat)
  /-- Writes elements from an offset on. -/
  write : σ → Nat → List Nat → σ × Except EditError Unit

namespace Store

variable {σ : Type} [Store σ]

/-- The store holds the elements `contents`, and reads them exactly. -/
structure Exact (s : σ) (contents : List Nat) : Prop where
  length_eq : length s = contents.length
  read_eq : ∀ offset count, read s offset count =
    (checkRange offset count contents.length).map fun stop =>
      (contents.take stop).drop offset

end Store
end EditOverlay
