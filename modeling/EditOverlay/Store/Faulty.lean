import EditOverlay.Store

/-! # Stores with faults

A store in which chosen reads and writes fail, and reads may come out short. With it the behaviour
of an overlay under faults is stated on concrete runs. -/

namespace EditOverlay

/-- Which operations go wrong. -/
structure FaultPlan where
  /-- Offsets at which reads fail. -/
  readsAt : List Nat
  /-- Offsets at which writes fail. -/
  writesAt : List Nat
  /-- The number of elements that a read gives at most, if it is bounded. -/
  readCap : Option Nat
  deriving DecidableEq, Repr

/-- The plan in which nothing goes wrong. -/
def FaultPlan.none : FaultPlan := ⟨[], [], .none⟩

/-- A store with a plan of faults. -/
structure Faulty (σ : Type) where
  store : σ
  plan : FaultPlan

namespace Faulty

variable {σ : Type} [Store σ]

def read (f : Faulty σ) (offset count : Nat) : Except EditError (List Nat) :=
  if offset ∈ f.plan.readsAt then .error (.storage "read fault")
  else (Store.read f.store offset count).map fun elements =>
    match f.plan.readCap with
    | some cap => elements.take cap
    | none => elements

/-- A write that fails leaves the store unchanged. -/
def write (f : Faulty σ) (offset : Nat) (values : List Nat) : Faulty σ × Except EditError Unit :=
  if offset ∈ f.plan.writesAt then (f, .error (.writeFailed offset "write fault"))
  else
    let (store, result) := Store.write f.store offset values
    ({ f with store := store }, result)

instance : Store (Faulty σ) where
  width f := Store.width f.store
  length f := Store.length f.store
  read := read
  write := write

end Faulty
end EditOverlay
