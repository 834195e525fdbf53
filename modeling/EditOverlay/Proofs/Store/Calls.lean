import EditOverlay.Store

/-! # Stores: calls and answers

A `Call` is one use of a store, and `Store.answers` are the answers to calls that are made one after
the other. Two stores of different kinds are the same for their callers if all answers are; this
follows from a relation between their states that every call keeps
(`Store.answers_eq_of_step`). -/

namespace EditOverlay.Store

/-- A use of a store, with its arguments. -/
inductive Call where
  | read (offset count : Nat)
  | write (offset : Nat) (values : List Nat)
  deriving DecidableEq, Repr

variable {σ τ : Type} [Store σ] [Store τ]

/-- The store after a call, and its answer: the elements read, or none for a write that succeeds. -/
def call (s : σ) : Call → σ × Except EditError (List Nat)
  | .read offset count => (s, read s offset count)
  | .write offset values =>
    let (s', result) := write s offset values
    (s', result.map fun _ => [])

/-- The store after calls, in their order. -/
def after (s : σ) (calls : List Call) : σ := calls.foldl (fun s c => (call s c).1) s

/-- The answers to calls, in their order. -/
def answers (s : σ) : List Call → List (Except EditError (List Nat))
  | [] => []
  | c :: calls => (call s c).2 :: answers (call s c).1 calls

/-- The answer of a store that is read like `s` and refuses every write. -/
def readOnlyAnswer (s : σ) (reason : String) : Call → Except EditError (List Nat)
  | .read offset count => read s offset count
  | .write offset _ => .error (.writeFailed offset reason)

theorem after_cons (s : σ) (c : Call) (calls : List Call) :
    after s (c :: calls) = after (call s c).1 calls := rfl

/-- **Related states give the same answers,** if every call gives the same and keeps the
relation. -/
theorem answers_eq_of_step {R : σ → τ → Prop}
    (step : ∀ {s t} c, R s t → (call s c).2 = (call t c).2 ∧ R (call s c).1 (call t c).1)
    {s : σ} {t : τ} (h : R s t) (calls : List Call) :
    answers s calls = answers t calls ∧ R (after s calls) (after t calls) := by
  induction calls generalizing s t with
  | nil => exact ⟨rfl, h⟩
  | cons c calls ih =>
    obtain ⟨hanswer, hnext⟩ := step c h
    obtain ⟨hanswers, hlast⟩ := ih hnext
    refine ⟨?_, hlast⟩
    rw [answers, answers, hanswer, hanswers]

end EditOverlay.Store
