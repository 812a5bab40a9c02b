import Mathlib.Data.Fintype.Card
import Mathlib.Algebra.Order.BigOperators.Group.Finset

/-!
# Interleavings

Parties that take turns, as a transition function on a state that they share.

* `ReachableBy`: the states of the runs whose steps all meet a condition;
  **`ReachableBy.invariant`**.
* `countWhere`: how many parties are at a place of some kind; `countWhere_update`: what one of them
  changes when it moves.
-/

namespace Interleaving

/-! ## Runs -/

section Runs

variable {State Act : Type} {step : State → Act → Option State} {ok : State → Act → State → Prop}
  {start s s' : State}

/-- The states that are reached by steps that all meet `ok`. -/
inductive ReachableBy (step : State → Act → Option State) (ok : State → Act → State → Prop)
    (start : State) : State → Prop
  | start : ReachableBy step ok start start
  | step {s s' : State} {a : Act} : ReachableBy step ok start s → step s a = some s' →
      ok s a s' → ReachableBy step ok start s'

/-- What holds at the start and is kept by each step holds along a run. -/
theorem ReachableBy.invariant (inv : State → Prop) (h₀ : inv start)
    (hstep : ∀ s a s', inv s → step s a = some s' → ok s a s' → inv s')
    (h : ReachableBy step ok start s) : inv s := by
  induction h with
  | start => exact h₀
  | step _ hs hok ih => exact hstep _ _ _ ih hs hok

end Runs

/-! ## Counting parties -/

section Counting

variable {ι Place : Type} [Fintype ι] {kind : Place → Bool} {f : ι → Place}

/-- How many parties are at a place of a kind. -/
def countWhere (kind : Place → Bool) (f : ι → Place) : ℕ := ∑ i, (kind (f i)).toNat

theorem countWhere_pos_iff : 0 < countWhere kind f ↔ ∃ i, kind (f i) = true := by
  unfold countWhere
  rw [Finset.sum_pos_iff]
  simp [Nat.pos_iff_ne_zero]

theorem countWhere_update [DecidableEq ι] (kind : Place → Bool) (f : ι → Place) (i : ι)
    (q : Place) :
    countWhere kind (Function.update f i q) + (kind (f i)).toNat =
      countWhere kind f + (kind q).toNat := by
  have hne : ∀ j ∈ Finset.univ.erase i, (kind (Function.update f i q j)).toNat =
      (kind (f j)).toNat := by
    intro j hj
    rw [Function.update_of_ne (Finset.ne_of_mem_erase hj)]
  unfold countWhere
  rw [← Finset.add_sum_erase _ _ (Finset.mem_univ i), ← Finset.add_sum_erase _ (fun j =>
    (kind (f j)).toNat) (Finset.mem_univ i), Finset.sum_congr rfl hne, Function.update_self]
  omega

/-- A party that moves between places of one kind does not change the number. -/
theorem countWhere_update_same [DecidableEq ι] {i : ι} {q : Place} (h : kind q = kind (f i)) :
    countWhere kind (Function.update f i q) = countWhere kind f := by
  have hu := countWhere_update kind f i q
  rw [h] at hu
  exact Nat.add_right_cancel hu

end Counting

end Interleaving
