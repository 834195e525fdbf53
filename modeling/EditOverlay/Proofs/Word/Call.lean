import EditOverlay.Proofs.Word
import EditOverlay.Range

/-! # Calls in machine words

A call may be refused, and it computes in words, so that it may go wrong as well: `Call.Gives` says
that it goes wrong nowhere and what comes of it. A call made of others goes wrong nowhere if none of
them does (`Gives.bind`), and what is not refused may be taken for granted in what follows. -/

namespace EditOverlay.Word

/-- A computation in words that may be refused. It has no value at all where it goes wrong. -/
abbrev Call (α : Type) := ExceptT EditError Option α

/-- The end of a range inside `length` elements, with a sum that may be too large for a word. -/
def checkRange (pos count length : Nat) : Except EditError Nat :=
  match add? pos count with
  | some stop => if stop ≤ length then .ok stop else .error (.rangeOverflow pos count length)
  | none => .error (.rangeOverflow pos count length)

/-- A sum that is too large for a word is too large for the elements. -/
theorem checkRange_eq {length : Nat} (h : length ≤ max) (pos count : Nat) :
    checkRange pos count length = EditOverlay.checkRange pos count length := by
  unfold checkRange EditOverlay.checkRange add?
  by_cases hsum : pos + count ≤ max
  · rw [if_pos hsum]
  · rw [if_neg hsum, if_neg (by omega)]

namespace Call

variable {α β : Type} {a : Except EditError α} {b : Except EditError β}

/-- The call goes wrong nowhere, and this is what it gives. -/
def Gives (x : Call α) (a : Except EditError α) : Prop := x.run = some a

theorem gives_pure (v : α) : Gives (pure v) (.ok v) := rfl

theorem gives_throw (e : EditError) : Gives (throw e : Call α) (.error e) := rfl

theorem gives_checked (a : Except EditError α) : Gives (liftM a) a := rfl

theorem gives_word {x : Option α} {v : α} (h : x = some v) : Gives (liftM x) (.ok v) := by
  rw [h]
  rfl

/-- **Calls one after the other:** the second has to be looked at only if the first gives a
value. -/
theorem Gives.bind {x : Call α} {f : α → Call β} {g : α → Except EditError β} (hx : Gives x a)
    (hf : ∀ v, a = .ok v → Gives (f v) (g v)) : Gives (x >>= f) (a >>= g) := by
  have hrun : (x >>= f).run = x.run >>= ExceptT.bindCont f := rfl
  unfold Gives at hx
  unfold Gives
  rw [hrun, hx]
  cases a with
  | error e => rfl
  | ok v => exact hf v rfl

theorem Gives.word_bind {x : Option α} {v : α} {f : α → Call β} (hx : x = some v)
    (hf : Gives (f v) b) : Gives (liftM x >>= f) b := by
  rw [hx]
  exact hf

end Call
end EditOverlay.Word
