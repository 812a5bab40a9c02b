import Mathlib.Data.List.Basic
import Mathlib.Tactic.Common

/-!
# Prefixes with a number of counted elements

* `upTo p k xs`: the shortest prefix of `xs` with `k` elements that satisfy `p`, or all of `xs`.
* `isPrefix_upTo`, `upTo_append`: a prefix that more elements behind it do not change.
* **`filter_upTo`**: what it counts are the first `k`.
-/

namespace CountedPrefix

variable {α : Type} (p : α → Bool)

/-- The shortest prefix with `k` elements that satisfy `p`. -/
def upTo : ℕ → List α → List α
  | 0, _ => []
  | _ + 1, [] => []
  | k + 1, x :: xs => x :: if p x then upTo k xs else upTo (k + 1) xs

variable {p} {k : ℕ} {x : α} {xs : List α}

@[simp] theorem upTo_zero (xs : List α) : upTo p 0 xs = [] := by
  cases xs <;> rfl

theorem upTo_cons_of_pos (h : p x = true) : upTo p (k + 1) (x :: xs) = x :: upTo p k xs := by
  rw [upTo, if_pos h]

theorem upTo_cons_of_neg (h : p x = false) (hk : 0 < k) :
    upTo p k (x :: xs) = x :: upTo p k xs := by
  obtain ⟨k, rfl⟩ := Nat.exists_eq_succ_of_ne_zero (Nat.ne_of_gt hk)
  rw [upTo, if_neg (by simp [h])]

theorem isPrefix_upTo (k : ℕ) (xs : List α) : upTo p k xs <+: xs := by
  induction xs generalizing k with
  | nil => cases k <;> exact List.prefix_rfl
  | cons x xs ih =>
    cases k with
    | zero => exact List.nil_prefix
    | succ k =>
      rw [upTo, List.prefix_cons_inj]
      split_ifs
      · exact ih k
      · exact ih (k + 1)

/-- **The counted elements are the first `k`.** -/
theorem filter_upTo (k : ℕ) (xs : List α) : (upTo p k xs).filter p = (xs.filter p).take k := by
  induction xs generalizing k with
  | nil => cases k <;> simp [upTo]
  | cons x xs ih =>
    cases k with
    | zero => simp
    | succ k =>
      rw [upTo]
      cases h : p x with
      | true => simp [h, ih]
      | false => simp [h, ih]

theorem upTo_append (h : k ≤ (xs.filter p).length) (ys : List α) :
    upTo p k (xs ++ ys) = upTo p k xs := by
  induction xs generalizing k with
  | nil =>
    obtain rfl : k = 0 := Nat.le_zero.mp h
    simp
  | cons x xs ih =>
    cases k with
    | zero => simp
    | succ k =>
      rw [List.cons_append, upTo, upTo]
      cases hx : p x with
      | true =>
        rw [List.filter_cons_of_pos hx, List.length_cons] at h
        rw [if_pos rfl, if_pos rfl, ih (Nat.le_of_succ_le_succ h)]
      | false =>
        rw [List.filter_cons_of_neg (by simp [hx])] at h
        rw [if_neg Bool.false_ne_true, if_neg Bool.false_ne_true, ih h]

end CountedPrefix
