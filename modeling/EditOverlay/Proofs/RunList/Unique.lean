import EditOverlay.Proofs.RunList.Shape

/-! # Lists of runs: one list for each map

A canonical list is determined by the values that it gives (`Canonical.ext`). Its first run starts
at the first position with a value and stops where there is none, so two canonical lists that give
the same values begin with the same run (`Canonical.head_eq`), and behind it they give the same
again. -/

namespace EditOverlay

theorem Run.getElem?_values (r : Run) (i : Nat) : r.values[i]? = r.valueAt? (r.start + i) := by
  rw [valueAt?, if_pos (by omega), Nat.add_sub_cancel_left]

namespace RunList

variable {r r' : Run} {rest rest' runs runs' : RunList}

theorem Canonical.valueAt?_cons_of_le {p : Nat} (h : Canonical (r :: rest)) (hp : p ≤ r.stop) :
    valueAt? (r :: rest) p = r.valueAt? p := by
  rw [RunList.valueAt?_cons, h.valueAt?_tail hp, Option.or_none]

theorem Canonical.start_lt_stop (h : Canonical (r :: rest)) : r.start < r.stop :=
  Run.start_lt_stop (h.nonempty r List.mem_cons_self)

theorem Canonical.isSome_start (h : Canonical (r :: rest)) :
    (valueAt? (r :: rest) r.start).isSome := by
  have hstart := h.start_lt_stop
  rw [h.valueAt?_cons_of_le hstart.le]
  exact Run.isSome_valueAt? (le_refl _) hstart

theorem Canonical.start_le {p : Nat} (h : Canonical (r :: rest))
    (hp : (valueAt? (r :: rest) p).isSome) : r.start ≤ p := by
  by_contra hlt
  have hstart := h.start_lt_stop
  have hnone : r.valueAt? p = none := Run.valueAt?_eq_none_iff.mpr (Or.inl (by omega))
  rw [h.valueAt?_cons_of_le (by omega), hnone] at hp
  cases hp

section SameValues

variable (h : Canonical (r :: rest)) (h' : Canonical (r' :: rest'))
  (heq : ∀ p, valueAt? (r :: rest) p = valueAt? (r' :: rest') p)
include h h' heq

theorem Canonical.start_le_start : r.start ≤ r'.start := by
  refine h.start_le ?_
  rw [heq]
  exact h'.isSome_start

theorem Canonical.stop_le_stop : r.stop ≤ r'.stop := by
  have hstart := h.start_le_start h' heq
  by_contra hlt
  -- at the end of the shorter run only the other list gives a value
  have hsome : (r.valueAt? r'.stop).isSome :=
    Run.isSome_valueAt? (hstart.trans r'.start_le_stop) (by omega)
  have hnone : r'.valueAt? r'.stop = none := Run.valueAt?_eq_none_iff.mpr (Or.inr (le_refl _))
  have hend := heq r'.stop
  rw [h.valueAt?_cons_of_le (by omega), h'.valueAt?_cons_of_le (le_refl _), hnone] at hend
  rw [hend] at hsome
  cases hsome

/-- **Canonical lists with the same values begin with the same run.** -/
theorem Canonical.head_eq : r = r' := by
  have hsymm : ∀ p, valueAt? (r' :: rest') p = valueAt? (r :: rest) p := fun p => (heq p).symm
  have hstart : r.start = r'.start :=
    le_antisymm (h.start_le_start h' heq) (h'.start_le_start h hsymm)
  have hstop : r.stop = r'.stop := le_antisymm (h.stop_le_stop h' heq) (h'.stop_le_stop h hsymm)
  have hvalues : r.values = r'.values := by
    refine List.ext_getElem? fun i => ?_
    rw [r.getElem?_values, r'.getElem?_values, ← hstart]
    by_cases hi : r.start + i ≤ r.stop
    · rw [← h.valueAt?_cons_of_le hi, heq, h'.valueAt?_cons_of_le (by omega)]
    · rw [Run.valueAt?_eq_none_iff.mpr (Or.inr (by omega)),
        Run.valueAt?_eq_none_iff.mpr (Or.inr (by omega))]
  cases r
  cases r'
  simp_all

theorem Canonical.valueAt?_tail_eq (p : Nat) : valueAt? rest p = valueAt? rest' p := by
  have hhead := h.head_eq h' heq
  subst hhead
  by_cases hp : p ≤ r.stop
  · rw [h.valueAt?_tail hp, h'.valueAt?_tail hp]
  · have hnone : r.valueAt? p = none := Run.valueAt?_eq_none_iff.mpr (Or.inr (by omega))
    have hp' := heq p
    rwa [RunList.valueAt?_cons, RunList.valueAt?_cons, hnone, Option.none_or, Option.none_or] at hp'

end SameValues

/-- **A canonical list is determined by the values that it gives.** -/
theorem Canonical.ext (h : Canonical runs) (h' : Canonical runs')
    (heq : ∀ p, runs.valueAt? p = runs'.valueAt? p) : runs = runs' := by
  induction runs generalizing runs' with
  | nil =>
    cases runs' with
    | nil => rfl
    | cons r' rest' =>
      have hsome := h'.isSome_start
      rw [← heq] at hsome
      cases hsome
  | cons r rest ih =>
    cases runs' with
    | nil =>
      have hsome := h.isSome_start
      rw [heq] at hsome
      cases hsome
    | cons r' rest' =>
      have hrest := ih h.tail h'.tail (h.valueAt?_tail_eq h' heq)
      rw [h.head_eq h' heq, hrest]

end RunList
end EditOverlay
