import Mathlib.Tactic

/-!
# Rows out of a stream of chunks

A stream arrives in chunks of any size and is cut into rows of a fixed width; what a chunk leaves
over is carried to the next.

* `rows`: the whole rows of a buffer.
* `carry`: the blocks of whole rows that come out of the chunks, and the remainder.
* **`rows_carry`**, `carry_nil_iff`: the rows do not depend on the chunks.
-/

namespace Chunking

variable {α : Type} {w : ℕ}

/-- The whole rows of width `w` in a buffer. -/
def rows (w : ℕ) (data : List α) : List (List α) :=
  (List.range (data.length / w)).map fun r => (data.drop (r * w)).take w

/-- The blocks of whole rows that the chunks give after a remainder, and the last remainder. -/
def carry (w : ℕ) : List α → List (List α) → List (List α) × List α
  | remainder, [] => ([], remainder)
  | remainder, chunk :: rest =>
    let data := remainder ++ chunk
    let whole := data.length / w * w
    let r := carry w (data.drop whole) rest
    (data.take whole :: r.1, r.2)

@[simp] theorem rows_nil : rows w ([] : List α) = [] := by
  simp [rows]

theorem length_rows (data : List α) : (rows w data).length = data.length / w := by
  simp [rows]

theorem length_of_mem_rows {data row : List α} (h : row ∈ rows w data) : row.length = w := by
  obtain ⟨r, hr, rfl⟩ := List.mem_map.mp h
  have hle : (r + 1) * w ≤ data.length :=
    le_trans (Nat.mul_le_mul_right w (List.mem_range.mp hr)) (Nat.div_mul_le_self _ _)
  rw [List.length_take, List.length_drop, Nat.min_eq_left]
  rw [Nat.add_mul, Nat.one_mul] at hle
  omega

theorem rows_append (hw : 0 < w) {a : List α} (h : w ∣ a.length) (b : List α) :
    rows w (a ++ b) = rows w a ++ rows w b := by
  obtain ⟨k, hk⟩ := h
  have hdiv : a.length / w = k := by rw [hk, Nat.mul_div_cancel_left _ hw]
  have hsum : (a ++ b).length / w = k + b.length / w := by
    rw [List.length_append, hk, Nat.mul_add_div hw]
  unfold rows
  rw [hsum, hdiv, List.range_add, List.map_append, List.map_map]
  congr 1
  · apply List.map_congr_left
    intro r hr
    have hle : (r + 1) * w ≤ a.length := by
      rw [hk, Nat.mul_comm w]
      exact Nat.mul_le_mul_right w (List.mem_range.mp hr)
    rw [Nat.add_mul, Nat.one_mul] at hle
    rw [List.drop_append_of_le_length (by omega), List.take_append_of_le_length]
    rw [List.length_drop]
    omega
  · apply List.map_congr_left
    intro r _
    have hdrop : (k + r) * w = a.length + r * w := by rw [hk, Nat.add_mul, Nat.mul_comm k]
    simp only [Function.comp_apply]
    rw [hdrop, ← List.drop_drop, List.drop_left]

theorem rows_take (hw : 0 < w) (data : List α) :
    rows w (data.take (data.length / w * w)) = rows w data := by
  have hlen : (data.take (data.length / w * w)).length = data.length / w * w := by
    rw [List.length_take, Nat.min_eq_left (Nat.div_mul_le_self _ _)]
  have hrest : rows w (data.drop (data.length / w * w)) = [] := by
    rw [← List.length_eq_zero_iff, length_rows, List.length_drop, Nat.div_eq_zero_iff]
    right
    have := Nat.div_add_mod' data.length w
    have := Nat.mod_lt data.length hw
    omega
  have happ := rows_append hw (Dvd.intro_left _ hlen.symm) (data.drop (data.length / w * w))
  rw [List.take_append_drop, hrest, List.append_nil] at happ
  exact happ.symm

theorem rows_flatten (hw : 0 < w) {xs : List (List α)} (h : ∀ x ∈ xs, x.length = w) :
    rows w xs.flatten = xs := by
  induction xs with
  | nil => simp
  | cons x xs ih =>
    have hx : x.length = w := h x (by simp)
    have hone : rows w x = [x] := by simp [rows, hx, Nat.div_self hw]
    rw [List.flatten_cons, rows_append hw (by rw [hx]), hone, ih fun y hy => h y (by simp [hy])]
    rfl

theorem flatten_rows {w : ℕ} (hw : 0 < w) {data : List α} (h : w ∣ data.length) :
    (rows w data).flatten = data := by
  obtain ⟨k, hk⟩ := h
  induction k generalizing data with
  | zero =>
    rw [List.eq_nil_of_length_eq_zero hk, rows_nil]
    rfl
  | succ k ih =>
    rw [Nat.mul_succ] at hk
    have htake : (data.take w).length = w := by
      rw [List.length_take]
      omega
    have hdrop : (data.drop w).length = w * k := by
      rw [List.length_drop]
      omega
    have hone : rows w (data.take w) = [data.take w] := by
      simp [rows, Nat.div_self hw, htake, List.take_take]
    have happ := @rows_append _ _ hw (data.take w) (by rw [htake]) (data.drop w)
    rw [List.take_append_drop] at happ
    rw [happ, hone, List.flatten_append, ih hdrop, List.flatten_singleton, List.take_append_drop]

/-! ## The carry -/

theorem length_drop_lt (hw : 0 < w) (data : List α) :
    (data.drop (data.length / w * w)).length < w := by
  have := Nat.div_add_mod' data.length w
  have := Nat.mod_lt data.length hw
  rw [List.length_drop]
  omega

/-- The rows of a chunk after its remainder, and those of what follows. -/
theorem rows_append_flatten_cons (hw : 0 < w) (remainder chunk : List α) (rest : List (List α)) :
    rows w (remainder ++ (chunk :: rest).flatten) =
      rows w (remainder ++ chunk) ++
        rows w ((remainder ++ chunk).drop ((remainder ++ chunk).length / w * w) ++ rest.flatten) := by
  have hlen : ((remainder ++ chunk).take ((remainder ++ chunk).length / w * w)).length =
      (remainder ++ chunk).length / w * w := by
    rw [List.length_take, Nat.min_eq_left (Nat.div_mul_le_self _ _)]
  have happ := rows_append hw (Dvd.intro_left _ hlen.symm)
    ((remainder ++ chunk).drop ((remainder ++ chunk).length / w * w) ++ rest.flatten)
  rw [← List.append_assoc, List.take_append_drop, rows_take hw, List.append_assoc] at happ
  exact happ

/-- **The rows of the blocks are the rows of the stream.** -/
theorem rows_carry (hw : 0 < w) {remainder : List α} (hr : remainder.length < w)
    (chunks : List (List α)) :
    (carry w remainder chunks).1.flatMap (rows w) = rows w (remainder ++ chunks.flatten) := by
  induction chunks generalizing remainder with
  | nil =>
    have hzero : remainder.length / w = 0 := Nat.div_eq_of_lt hr
    simp [carry, rows, hzero]
  | cons chunk rest ih =>
    rw [rows_append_flatten_cons hw, carry, List.flatMap_cons, rows_take hw,
      ih (length_drop_lt hw _)]

theorem remainder_eq_nil_iff (hw : 0 < w) {remainder : List α} (hr : remainder.length < w)
    (chunks : List (List α)) :
    (carry w remainder chunks).2 = [] ↔ w ∣ remainder.length + chunks.flatten.length := by
  induction chunks generalizing remainder with
  | nil =>
    rw [carry, List.flatten_nil, List.length_nil, Nat.add_zero]
    constructor
    · rintro rfl
      simp
    · intro h
      exact List.length_eq_zero_iff.mp (Nat.eq_zero_of_dvd_of_lt h hr)
  | cons chunk rest ih =>
    rw [carry, ih (length_drop_lt hw _), List.length_drop, List.flatten_cons, List.length_append,
      List.length_append]
    have hle := Nat.div_mul_le_self (remainder.length + chunk.length) w
    have hsum : remainder.length + (chunk.length + rest.flatten.length) =
        (remainder.length + chunk.length) / w * w + (remainder.length + chunk.length -
          (remainder.length + chunk.length) / w * w + rest.flatten.length) := by
      omega
    rw [hsum, Nat.dvd_add_right (Nat.dvd_mul_left _ _)]

theorem carry_nil_iff (hw : 0 < w) (chunks : List (List α)) :
    (carry w [] chunks).2 = [] ↔ w ∣ chunks.flatten.length := by
  have h := @remainder_eq_nil_iff _ _ hw [] hw chunks
  rwa [List.length_nil, Nat.zero_add] at h

end Chunking
