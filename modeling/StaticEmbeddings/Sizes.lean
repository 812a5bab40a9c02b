import StaticEmbeddings.Status

/-!
# Sizes

The checked arithmetic on `size_t` of `se_internal.h`, with 64 bits.

* `seCheckedAddSize`, `seCheckedMulSize`, `seArrayBytes`, `seSizeFitsLong`.
* `seNextCapacity`; **`seNextCapacity_spec`**: it ends, without overflow.
-/

namespace StaticEmbeddings

/-- `SE_SIZE_MAX`. -/
abbrev seSizeMax : ℕ := 2 ^ 64 - 1

/-- `LONG_MAX`. -/
abbrev longMax : ℕ := 2 ^ 63 - 1

/-- `se_checked_add_size`. -/
def seCheckedAddSize (a b : ℕ) : Option ℕ := if a > seSizeMax - b then none else some (a + b)

/-- `se_checked_mul_size`. -/
def seCheckedMulSize (a b : ℕ) : Option ℕ :=
  if a ≠ 0 ∧ b > seSizeMax / a then none else some (a * b)

/-- `se_array_bytes`. -/
def seArrayBytes (count elemSize : ℕ) : Option ℕ := seCheckedMulSize count elemSize

/-- `se_size_fits_long`. -/
def seSizeFitsLong (n : ℕ) : Bool := n ≤ longMax

/-- `while (next < need) …` of `se_next_capacity`, on a `size_t`. -/
def nextCapacityLoop (need next : ℕ) (hpos : 0 < next) : Option ℕ :=
  if next < need then
    if h : next > seSizeMax / 2 then none
    else nextCapacityLoop need (next * 2 % 2 ^ 64) (by unfold seSizeMax at h; omega)
  else some next
termination_by need - next
decreasing_by
  unfold seSizeMax at h
  omega

/-- `se_next_capacity`. -/
def seNextCapacity (current need minCapacity : ℕ) : Option ℕ :=
  let next := if current ≠ 0 then current else minCapacity
  if h : next = 0 then nextCapacityLoop need 1 Nat.one_pos
  else nextCapacityLoop need next (Nat.pos_of_ne_zero h)

theorem seCheckedMulSize_eq (a b : ℕ) :
    seCheckedMulSize a b = if a * b ≤ seSizeMax then some (a * b) else none := by
  unfold seCheckedMulSize
  obtain rfl | ha := Nat.eq_zero_or_pos a
  · simp
  · have hiff : (a ≠ 0 ∧ b > seSizeMax / a) ↔ ¬ a * b ≤ seSizeMax := by
      rw [gt_iff_lt, Nat.div_lt_iff_lt_mul ha, not_le, Nat.mul_comm b]
      exact and_iff_right ha.ne'
    simp only [hiff, ite_not]

theorem nextCapacityLoop_spec {need next n : ℕ} {hpos : 0 < next} (hmax : next ≤ seSizeMax)
    (h : nextCapacityLoop need next hpos = some n) : need ≤ n ∧ next ≤ n ∧ n ≤ seSizeMax := by
  rw [nextCapacityLoop] at h
  split_ifs at h with hlt hover
  · have hmod : next * 2 % 2 ^ 64 = next * 2 := Nat.mod_eq_of_lt (by unfold seSizeMax at hover; omega)
    have ih := nextCapacityLoop_spec (by omega) h
    rw [hmod] at ih
    exact ⟨ih.1, by omega, ih.2.2⟩
  · cases h
    exact ⟨not_lt.mp hlt, le_rfl, hmax⟩
termination_by need - next
decreasing_by
  unfold seSizeMax at hover
  omega

/-- **A new capacity is enough and does not overflow.** -/
theorem seNextCapacity_spec {current need minCapacity n : ℕ} (hcurrent : current ≤ seSizeMax)
    (hmin : minCapacity ≤ seSizeMax) (h : seNextCapacity current need minCapacity = some n) :
    need ≤ n ∧ 0 < n ∧ current ≤ n ∧ n ≤ seSizeMax := by
  unfold seNextCapacity at h
  simp only at h
  split_ifs at h with h₁ h₂ <;>
  · obtain ⟨hneed, hle, hmax⟩ := nextCapacityLoop_spec (by unfold seSizeMax at *; omega) h
    exact ⟨hneed, by omega, by omega, hmax⟩

end StaticEmbeddings
