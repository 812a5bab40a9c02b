import Mathlib.Tactic

/-!
# Rounding to a grid

A grid of natural numbers `g 0 < g 1 < … < g n`, and rounding to the nearest of them with ties
upwards.

* `RoundsTo`: between the midpoints below and above a grid point.
* **`RoundsTo.nearest`**: no other grid point is nearer, and none as near is larger.
* `RoundsTo.mono`, `RoundsTo.exact`.
* **`RoundsTo.segment`**: rounding within an evenly spaced stretch of the grid.
-/

namespace GridRounding

variable {g : ℕ → ℕ} {n : ℕ}

/-- The grid increases up to `n`. -/
def Increasing (g : ℕ → ℕ) (n : ℕ) : Prop := ∀ i < n, g i < g (i + 1)

theorem Increasing.lt (h : Increasing g n) {i j : ℕ} (hij : i < j) (hj : j ≤ n) : g i < g j := by
  induction j with
  | zero => exact absurd hij (Nat.not_lt_zero i)
  | succ j ih =>
    have hstep := h j (by omega)
    obtain hlt | rfl := Nat.lt_succ_iff_lt_or_eq.mp hij
    · exact (ih hlt (by omega)).trans hstep
    · exact hstep

theorem Increasing.le (h : Increasing g n) {i j : ℕ} (hij : i ≤ j) (hj : j ≤ n) : g i ≤ g j := by
  obtain rfl | hlt := hij.eq_or_lt
  · exact le_rfl
  · exact (h.lt hlt hj).le

/-- `v` lies above or on the midpoint below grid point `i`, and below the midpoint above it. -/
structure RoundsTo (g : ℕ → ℕ) (n v i : ℕ) : Prop where
  le : i ≤ n
  lower : i = 0 ∨ g (i - 1) + g i ≤ 2 * v
  upper : i = n ∨ 2 * v < g i + g (i + 1)

theorem RoundsTo.mono (h : Increasing g n) {v w i j : ℕ} (hi : RoundsTo g n v i)
    (hj : RoundsTo g n w j) (hvw : v ≤ w) : i ≤ j := by
  by_contra hlt
  rw [not_le] at hlt
  have h₁ := hi.lower.resolve_left (by omega)
  have h₂ := hj.upper.resolve_left (by have := hi.le; omega)
  have h₃ := h.le (show j ≤ i - 1 by omega) (by have := hi.le; omega)
  have h₄ := h.le (show j + 1 ≤ i by omega) hi.le
  omega

theorem RoundsTo.unique (h : Increasing g n) {v i j : ℕ} (hi : RoundsTo g n v i)
    (hj : RoundsTo g n v j) : i = j :=
  le_antisymm (hi.mono h hj le_rfl) (hj.mono h hi le_rfl)

theorem RoundsTo.exact (h : Increasing g n) {i : ℕ} (hi : i ≤ n) : RoundsTo g n (g i) i where
  le := hi
  lower := by
    obtain rfl | hpos := Nat.eq_zero_or_pos i
    · exact .inl rfl
    · have := h.le (Nat.sub_le i 1) hi
      exact .inr (by omega)
  upper := by
    obtain rfl | hlt := hi.eq_or_lt
    · exact .inl rfl
    · have := h i hlt
      exact .inr (by omega)

/-- **The grid point is a nearest one, and the largest of those.** -/
theorem RoundsTo.nearest (h : Increasing g n) {v i : ℕ} (hi : RoundsTo g n v i) {j : ℕ}
    (hj : j ≤ n) : |(v : ℤ) - g i| ≤ |(v : ℤ) - g j| ∧
      (|(v : ℤ) - g i| = |(v : ℤ) - g j| → g j ≤ g i) := by
  obtain hlt | rfl | hgt := lt_trichotomy j i
  · have h₁ := hi.lower.resolve_left (by omega)
    have h₂ := h.le (show j ≤ i - 1 by omega) (by have := hi.le; omega)
    have h₃ := h.lt hlt hi.le
    refine ⟨?_, fun _ => h₃.le⟩
    rw [abs_of_nonneg (show (0 : ℤ) ≤ v - g j by omega), abs_le]
    omega
  · exact ⟨le_rfl, fun _ => le_rfl⟩
  · have h₁ := hi.upper.resolve_left (by omega)
    have h₂ := h.le (show i + 1 ≤ j by omega) hj
    have h₃ := h.lt hgt hj
    have hn : |(v : ℤ) - g i| < |(v : ℤ) - g j| := by
      rw [abs_of_nonpos (show (v : ℤ) - g j ≤ 0 by omega), abs_lt]
      omega
    exact ⟨hn.le, fun he => absurd he hn.ne⟩

/-- **Rounding within an evenly spaced stretch.** The grid points `base, …, base + N` are
`c u, …, (c + N) u`, and `h` is the rounded number of steps. -/
theorem RoundsTo.segment (hg : Increasing g n) {base N c u v h : ℕ} (hN : base + N ≤ n)
    (hu : ∀ j ≤ N, g (base + j) = (c + j) * u) (hlo : c * u ≤ v) (hhi : v < (c + N) * u)
    (h₁ : 2 * ((c + h) * u) ≤ 2 * v + u) (h₂ : 2 * v + u < 2 * ((c + h + 1) * u)) :
    RoundsTo g n v (base + h) := by
  have hle : h ≤ N := by
    by_contra hlt
    have : (c + N + 1) * u ≤ (c + h) * u := Nat.mul_le_mul_right u (by omega)
    rw [add_one_mul] at this
    omega
  refine ⟨by omega, ?_, ?_⟩
  · right
    cases h with
    | zero =>
      have hb := hu 0 (Nat.zero_le N)
      have hprev := hg.le (Nat.sub_le base 1) (show base ≤ n by omega)
      rw [add_zero, add_zero] at *
      omega
    | succ h =>
      have e₁ := hu h (by omega)
      have e₂ := hu (h + 1) hle
      rw [← add_assoc c, add_one_mul] at e₂ h₁
      rw [show base + (h + 1) - 1 = base + h by omega, e₁, e₂]
      omega
  · obtain heq | hlt := hle.eq_or_lt
    · subst heq
      obtain he | hlt := hN.eq_or_lt
      · exact .inl he
      · have := hu h le_rfl
        have := hg (base + h) hlt
        right
        omega
    · have e₁ := hu h hle
      have e₂ := hu (h + 1) hlt
      rw [← add_assoc, ← add_assoc c, add_one_mul] at e₂
      rw [add_one_mul] at h₂
      right
      rw [e₁, e₂]
      omega

end GridRounding
