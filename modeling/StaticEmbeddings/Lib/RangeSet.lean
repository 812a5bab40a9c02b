import Mathlib.Data.List.Sort
import Mathlib.Tactic.Common

/-!
# Sets of numbers as ranges

A set that is added in ascending order becomes a list of maximal ranges.

* `add`: one number; `ofPred`: the numbers below a bound that satisfy a predicate.
* `Ascending`: ranges in order, apart from each other; `Ascending.add`.
* **`mem_ofPred`**, `ofPred_maximal`: what the ranges contain, and where they end.
-/

namespace RangeSet

/-- A number is in one of the ranges. -/
def Mem (ranges : List (ℕ × ℕ)) (c : ℕ) : Prop := ∃ r ∈ ranges, r.1 ≤ c ∧ c ≤ r.2

/-- The last range grows by its successor; other numbers open a range. -/
def add (ranges : List (ℕ × ℕ)) (c : ℕ) : List (ℕ × ℕ) :=
  match ranges.getLast? with
  | some (lo, hi) => if hi + 1 = c then ranges.dropLast ++ [(lo, c)] else ranges ++ [(c, c)]
  | none => [(c, c)]

/-- The ranges of the numbers below `n` that satisfy `p`. -/
def ofPred (p : ℕ → Bool) (n : ℕ) : List (ℕ × ℕ) :=
  (List.range n).foldl (fun ranges c => if p c then add ranges c else ranges) []

/-- Ranges of numbers below `n`, with a gap between each two. -/
structure Ascending (n : ℕ) (ranges : List (ℕ × ℕ)) : Prop where
  le : ∀ r ∈ ranges, r.1 ≤ r.2
  lt : ∀ r ∈ ranges, r.2 < n
  apart : ranges.Pairwise fun a b => a.2 + 1 < b.1

variable {ranges : List (ℕ × ℕ)} {n c x : ℕ} {p : ℕ → Bool}

theorem Ascending.nil : Ascending n [] := ⟨by simp, by simp, .nil⟩

theorem Ascending.mono {m : ℕ} (h : Ascending n ranges) (hnm : n ≤ m) : Ascending m ranges :=
  ⟨h.le, fun r hr => (h.lt r hr).trans_le hnm, h.apart⟩

theorem add_cases (ranges : List (ℕ × ℕ)) (c : ℕ) :
    (∃ init lo hi, ranges = init ++ [(lo, hi)] ∧ hi + 1 = c ∧ add ranges c = init ++ [(lo, c)]) ∨
      (add ranges c = ranges ++ [(c, c)] ∧
        ∀ init lo hi, ranges = init ++ [(lo, hi)] → hi + 1 ≠ c) := by
  cases h : ranges.getLast? with
  | none =>
    rw [List.getLast?_eq_none_iff] at h
    subst h
    exact .inr ⟨rfl, fun init lo hi h => by simp at h⟩
  | some r =>
    obtain ⟨lo, hi⟩ := r
    obtain ⟨init, rfl⟩ := List.getLast?_eq_some_iff.mp h
    unfold add
    rw [h]
    dsimp only
    by_cases hc : hi + 1 = c
    · rw [if_pos hc, List.dropLast_concat]
      exact .inl ⟨init, lo, hi, rfl, hc, rfl⟩
    · rw [if_neg hc]
      refine .inr ⟨rfl, fun init' lo' hi' h' => ?_⟩
      have hl := (List.append_inj_right' h' rfl)
      cases hl
      exact hc

theorem Ascending.add (h : Ascending n ranges) (hc : n ≤ c) : Ascending (c + 1) (add ranges c) := by
  rcases add_cases ranges c with ⟨init, lo, hi, rfl, hhi, hadd⟩ | ⟨hadd, hlast⟩
  · rw [hadd]
    have hlo := h.le (lo, hi) (by simp)
    obtain ⟨hinit, -, hbefore⟩ := List.pairwise_append.mp h.apart
    dsimp only at hlo
    constructor
    · intro r hr
      rcases List.mem_append.mp hr with hr | hr
      · exact h.le r (List.mem_append_left _ hr)
      · rw [List.mem_singleton] at hr
        subst hr
        dsimp only
        omega
    · intro r hr
      rcases List.mem_append.mp hr with hr | hr
      · have := h.lt r (List.mem_append_left _ hr)
        omega
      · rw [List.mem_singleton] at hr
        subst hr
        exact Nat.lt_succ_self c
    · refine List.pairwise_append.mpr ⟨hinit, List.pairwise_singleton _ _, fun a ha b hb => ?_⟩
      rw [List.mem_singleton] at hb
      subst hb
      exact hbefore a ha (lo, hi) List.mem_cons_self
  · rw [hadd]
    constructor
    · intro r hr
      rcases List.mem_append.mp hr with hr | hr
      · exact h.le r hr
      · rw [List.mem_singleton] at hr
        rw [hr]
    · intro r hr
      rcases List.mem_append.mp hr with hr | hr
      · have := h.lt r hr
        omega
      · rw [List.mem_singleton] at hr
        rw [hr]
        exact Nat.lt_succ_self c
    · refine List.pairwise_append.mpr ⟨h.apart, List.pairwise_singleton _ _, fun a ha b hb => ?_⟩
      rw [List.mem_singleton] at hb
      subst hb
      change a.2 + 1 < c
      -- a range that ends just before `c` is the last one
      have hlt := h.lt a ha
      obtain ⟨init, last, rfl⟩ : ∃ init last, ranges = init ++ [last] :=
        ⟨ranges.dropLast, ranges.getLast (List.ne_nil_of_mem ha),
          (List.dropLast_concat_getLast _).symm⟩
      have hne := hlast init last.1 last.2 rfl
      rcases List.mem_append.mp ha with hin | hin
      · have hgap := (List.pairwise_append.mp h.apart).2.2 a hin last List.mem_cons_self
        have hll := h.le last (by simp)
        have hln := h.lt last (by simp)
        omega
      · rw [List.mem_singleton] at hin
        subst hin
        omega

theorem mem_append {l : List (ℕ × ℕ)} {r : ℕ × ℕ} :
    Mem (l ++ [r]) x ↔ Mem l x ∨ (r.1 ≤ x ∧ x ≤ r.2) := by
  unfold Mem
  simp [or_and_right, exists_or]

theorem mem_add (h : Ascending n ranges) : Mem (add ranges c) x ↔ Mem ranges x ∨ x = c := by
  rcases add_cases ranges c with ⟨init, lo, hi, rfl, hhi, hadd⟩ | ⟨hadd, -⟩
  · have hlo := h.le (lo, hi) (by simp)
    rw [hadd, mem_append, mem_append, or_assoc]
    dsimp only at hlo ⊢
    exact or_congr Iff.rfl (by omega)
  · rw [hadd, mem_append]
    dsimp only
    exact or_congr Iff.rfl (by omega)

theorem ofPred_succ (p : ℕ → Bool) (n : ℕ) :
    ofPred p (n + 1) = if p n then add (ofPred p n) n else ofPred p n := by
  unfold ofPred
  rw [List.range_succ, List.foldl_append, List.foldl_cons, List.foldl_nil]

theorem ascending_ofPred (p : ℕ → Bool) (n : ℕ) : Ascending n (ofPred p n) := by
  induction n with
  | zero => exact .nil
  | succ n ih =>
    rw [ofPred_succ]
    split_ifs
    · exact ih.add le_rfl
    · exact ih.mono (Nat.le_succ n)

theorem length_ofPred_le (p : ℕ → Bool) (n : ℕ) : (ofPred p n).length ≤ n := by
  induction n with
  | zero => exact le_rfl
  | succ n ih =>
    rw [ofPred_succ]
    split_ifs
    · rcases add_cases (ofPred p n) n with ⟨init, lo, hi, h, -, hadd⟩ | ⟨hadd, -⟩
      · rw [h] at ih
        rw [hadd]
        rw [List.length_append] at ih ⊢
        exact ih.trans (Nat.le_succ n)
      · rw [hadd, List.length_append]
        exact Nat.succ_le_succ ih
    · exact ih.trans (Nat.le_succ n)

/-- **The ranges contain the numbers that satisfy the predicate.** -/
theorem mem_ofPred : Mem (ofPred p n) x ↔ x < n ∧ p x = true := by
  induction n with
  | zero =>
    refine ⟨?_, fun h => absurd h.1 (Nat.not_lt_zero x)⟩
    rintro ⟨r, hr, -⟩
    cases hr
  | succ n ih =>
    rw [ofPred_succ]
    have hsplit : x < n + 1 ∧ p x = true ↔ (x < n ∧ p x = true) ∨ (x = n ∧ p n = true) := by
      constructor
      · rintro ⟨hx, hp⟩
        rcases Nat.lt_succ_iff_lt_or_eq.mp hx with hx | rfl
        · exact .inl ⟨hx, hp⟩
        · exact .inr ⟨rfl, hp⟩
      · rintro (⟨hx, hp⟩ | ⟨rfl, hp⟩)
        · exact ⟨hx.trans (Nat.lt_succ_self n), hp⟩
        · exact ⟨Nat.lt_succ_self _, hp⟩
    rw [hsplit]
    split_ifs with hp
    · rw [mem_add (ascending_ofPred p n), ih]
      simp [hp]
    · rw [ih]
      simp [hp]

theorem ofPred_maximal {r : ℕ × ℕ} (hr : r ∈ ofPred p n) (hn : r.2 + 1 < n) : p (r.2 + 1) = false := by
  have hasc := ascending_ofPred p n
  rw [Bool.eq_false_iff]
  intro hp
  obtain ⟨r', hr', hlo, hhi⟩ := mem_ofPred.mpr ⟨hn, hp⟩
  have hle := hasc.le r hr
  obtain ⟨i, hi, hir⟩ := List.mem_iff_getElem.mp hr
  obtain ⟨j, hj, hjr⟩ := List.mem_iff_getElem.mp hr'
  have hs := List.pairwise_iff_getElem.mp hasc.apart
  rcases Nat.lt_trichotomy i j with hij | hij | hij
  · have hgap := hs i j hi hj hij
    rw [hir, hjr] at hgap
    omega
  · subst hij
    rw [hir] at hjr
    subst hjr
    omega
  · have hgap := hs j i hj hi hij
    rw [hir, hjr] at hgap
    omega

theorem ofPred_last {r : ℕ × ℕ} (hr : r ∈ ofPred p n) : p r.2 = true :=
  (mem_ofPred.mp ⟨r, hr, (ascending_ofPred p n).le r hr, le_rfl⟩).2

end RangeSet
