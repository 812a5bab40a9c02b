import Mathlib.Algebra.BigOperators.Fin
import Mathlib.Algebra.BigOperators.Intervals
import Mathlib.Tactic.Ring

/-!
# Loops in strides

The loop `for (; j + (k - 1) < dim; j += k)` over an index of `w` bits, and sums collected in lanes.

* `loop`: at most `fuel` rounds.
* **`loop_spec`**: the loop ends at the last multiple of `k`, and what its body keeps holds there;
  `bind_loop` and `bind_loop_one` are the rules for a loop and what follows it.
* `sum_lanes`: the next `n` summands, one in each lane.
* `Memory`: cells with a log of the stores; `mapLoop_step`: storing new values from left to right.
-/

open Finset

namespace StridedLoop

universe u

variable {σ R : Type*}

/-! ## The loop -/

/-- `for (; j + (k - 1) < dim; j += k) body`, with sums modulo `2 ^ w`. -/
def loop (w k dim : ℕ) (body : ℕ → σ → σ) : ℕ → ℕ → σ → Option (ℕ × σ)
  | 0, _, _ => none
  | fuel + 1, j, s =>
    if (j + (k - 1)) % 2 ^ w < dim then loop w k dim body fuel ((j + k) % 2 ^ w) (body j s)
    else some (j, s)

/-- The rounds a loop up to `dim` can need. -/
abbrev rounds (dim : ℕ) : ℕ := dim + 1

theorem add_le_of_dvd {w k j : ℕ} (hk : k ∣ 2 ^ w) (hj : k ∣ j) (hlt : j < 2 ^ w) :
    j + k ≤ 2 ^ w := by
  obtain ⟨a, ha⟩ := hk
  obtain ⟨b, rfl⟩ := hj
  rw [ha] at hlt ⊢
  calc k * b + k = k * (b + 1) := by ring
    _ ≤ k * a := Nat.mul_le_mul_left k (lt_of_mul_lt_mul_left hlt (Nat.zero_le k))

/-- **The loop rule.** -/
theorem loop_spec {w k dim : ℕ} {body : ℕ → σ → σ} {inv : ℕ → σ → Prop} (hk : 0 < k)
    (hkw : k ∣ 2 ^ w) (hdim : dim < 2 ^ w)
    (hstep : ∀ j s, j + k ≤ dim → inv j s → inv (j + k) (body j s)) {fuel j : ℕ} {s : σ}
    (hj : k ∣ j) (hle : j ≤ dim) (hfuel : dim < fuel + j) (h : inv j s) :
    ∃ j' s', loop w k dim body fuel j s = some (j', s') ∧ k ∣ j' ∧ j' ≤ dim ∧ dim < j' + k ∧
      inv j' s' := by
  induction fuel generalizing j s with
  | zero => omega
  | succ fuel ih =>
    have hroom := add_le_of_dvd hkw hj (hle.trans_lt hdim)
    have hmod : (j + (k - 1)) % 2 ^ w = j + (k - 1) := Nat.mod_eq_of_lt (by omega)
    unfold loop
    rw [hmod]
    by_cases hlt : j + (k - 1) < dim
    · rw [if_pos hlt, Nat.mod_eq_of_lt (show j + k < 2 ^ w by omega)]
      exact ih (dvd_add hj dvd_rfl) (by omega) (by omega) (hstep j s (by omega) h)
    · rw [if_neg hlt]
      exact ⟨j, s, rfl, hj, hle, by omega, h⟩

section

variable {σ β : Type u} {w k dim j : ℕ} {body : ℕ → σ → σ} {s : σ} {f : ℕ × σ → Option β} {r : β}

theorem bind_loop (inv : ℕ → σ → Prop) (hk : 0 < k) (hkw : k ∣ 2 ^ w) (hdim : dim < 2 ^ w)
    (hj : k ∣ j) (hle : j ≤ dim) (h : inv j s)
    (hstep : ∀ j s, j + k ≤ dim → inv j s → inv (j + k) (body j s))
    (hnext : ∀ j s, k ∣ j → j ≤ dim → inv j s → f (j, s) = some r) :
    (loop w k dim body (rounds dim) j s >>= f) = some r := by
  obtain ⟨j', s', heq, hdvd, hle', -, hinv⟩ :=
    loop_spec hk hkw hdim hstep hj hle (show dim < dim + 1 + j by omega) h
  rw [heq]
  exact hnext j' s' hdvd hle' hinv

theorem bind_loop_one (inv : ℕ → σ → Prop) (hdim : dim < 2 ^ w) (hle : j ≤ dim) (h : inv j s)
    (hstep : ∀ j s, j < dim → inv j s → inv (j + 1) (body j s))
    (hnext : ∀ s, inv dim s → f (dim, s) = some r) :
    (loop w 1 dim body (rounds dim) j s >>= f) = some r := by
  obtain ⟨j', s', heq, -, h₁, h₂, hinv⟩ := loop_spec Nat.one_pos (one_dvd _) hdim
    (fun j s hj => hstep j s hj) (one_dvd j) hle (show dim < dim + 1 + j by omega) h
  obtain rfl : j' = dim := by omega
  rw [heq]
  exact hnext s' hinv

end

/-! ## Lanes -/

/-- The `n` components from `j` on. -/
def load (n : ℕ) (p : ℕ → R) (j : ℕ) : Fin n → R := fun i => p (j + i)

theorem load_mul [Mul R] (n : ℕ) (p q : ℕ → R) (j : ℕ) :
    load n p j * load n q j = load n (fun i => p i * q i) j := rfl

theorem sum_lanes [AddCommMonoid R] (f : ℕ → R) (j n : ℕ) :
    ∑ i ∈ range j, f i + ∑ i, load n f j i = ∑ i ∈ range (j + n), f i := by
  unfold load
  rw [sum_range_add, Fin.sum_univ_eq_sum_range (fun i => f (j + i))]

/-! ## Stores -/

/-- Cells, and the addresses stored to so far. -/
structure Memory (R : Type*) where
  cells : ℕ → R
  writes : List ℕ

/-- Stores `n` components from address `p` on. -/
def Memory.store {n : ℕ} (m : Memory R) (p : ℕ) (v : Fin n → R) : Memory R where
  cells a := if h : p ≤ a ∧ a - p < n then v ⟨a - p, h.2⟩ else m.cells a
  writes := m.writes ++ (List.range n).map (p + ·)

theorem Memory.store_cells_of_mem {n : ℕ} (m : Memory R) (p : ℕ) (v : Fin n → R) (i : Fin n) :
    (m.store p v).cells (p + i) = v i := by
  refine (dif_pos ⟨Nat.le_add_right p i, by omega⟩).trans (congrArg v (Fin.ext ?_))
  exact Nat.add_sub_cancel_left p i

theorem Memory.store_cells_of_not_mem {n : ℕ} (m : Memory R) (p : ℕ) (v : Fin n → R) {a : ℕ}
    (h : a < p ∨ p + n ≤ a) : (m.store p v).cells a = m.cells a :=
  dif_neg (by omega)

variable {out dim : ℕ} {val : (ℕ → R) → ℕ → R} {m₀ m : Memory R}

/-- The first `j` cells from `out` on hold their new values, and nothing else was stored to. -/
structure Mapped (out : ℕ) (val : (ℕ → R) → ℕ → R) (m₀ : Memory R) (j : ℕ) (m : Memory R) :
    Prop where
  new : ∀ i < j, m.cells (out + i) = val m₀.cells i
  old : ∀ a, a < out ∨ out + j ≤ a → m.cells a = m₀.cells a
  writes : m.writes = m₀.writes ++ (List.range j).map (out + ·)

theorem mapped_zero (out : ℕ) (val : (ℕ → R) → ℕ → R) (m₀ : Memory R) : Mapped out val m₀ 0 m₀ where
  new _ hi := absurd hi (Nat.not_lt_zero _)
  old _ _ := rfl
  writes := (List.append_nil _).symm

/-- A new value does not depend on the cells already stored to. -/
def Independent (out dim : ℕ) (val : (ℕ → R) → ℕ → R) : Prop :=
  ∀ j < dim, ∀ c c' : ℕ → R, (∀ a, a < out ∨ out + j ≤ a → c a = c' a) → val c j = val c' j

/-- **A store of the next `n` new values.** -/
theorem mapLoop_step (hval : Independent out dim val) {j n : ℕ} (hle : j + n ≤ dim)
    (h : Mapped out val m₀ j m) :
    Mapped out val m₀ (j + n) (m.store (out + j) (load n (val m.cells) j)) where
  new i hi := by
    by_cases hlt : i < j
    · rw [m.store_cells_of_not_mem _ _ (by omega), h.new i hlt]
    · obtain ⟨i, rfl⟩ := Nat.exists_eq_add_of_le (not_lt.mp hlt)
      rw [← Nat.add_assoc]
      refine (m.store_cells_of_mem _ _ ⟨i, by omega⟩).trans ?_
      exact hval (j + i) (by omega) _ _ fun a ha => h.old a (by omega)
  old a ha := by
    rw [m.store_cells_of_not_mem _ _ (by omega), h.old a (by omega)]
  writes := by
    simp only [Memory.store]
    rw [h.writes, List.append_assoc, List.range_add, List.map_append, List.map_map]
    congr 3
    funext i
    exact Nat.add_assoc out j i

end StridedLoop
