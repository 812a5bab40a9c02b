import Mathlib.Order.Compare
import Mathlib.Tactic

/-!
# Binary search over checked reads

A search asks `cmp i` where the target lies relative to entry `i`; `cmp i = none` is a read outside
the table.

* `search?`: the three-way search; `isSome_search?`, `cmp_of_search?`, **`search?_eq_some_of_mem`**.
* `lowerBound?`: the first entry not below the target; **`lowerBound?_spec`**.
-/

namespace SortedSearch

/-- The three-way search of `[lo, hi)`, for at most `fuel` rounds. -/
def search? (cmp : ℕ → Option Ordering) : ℕ → ℕ → ℕ → Option (Option ℕ)
  | 0, _, _ => some none
  | fuel + 1, lo, hi =>
    if lo < hi then
      match cmp (lo + (hi - lo) / 2) with
      | none => none
      | some .lt => search? cmp fuel lo (lo + (hi - lo) / 2)
      | some .gt => search? cmp fuel (lo + (hi - lo) / 2 + 1) hi
      | some .eq => some (some (lo + (hi - lo) / 2))
    else some none

/-- The first index of `[lo, hi)` whose entry is not below the target, or `hi`. -/
def lowerBound? (below : ℕ → Option Bool) : ℕ → ℕ → ℕ → Option ℕ
  | 0, lo, _ => some lo
  | fuel + 1, lo, hi =>
    if lo < hi then
      match below (lo + (hi - lo) / 2) with
      | none => none
      | some true => lowerBound? below fuel (lo + (hi - lo) / 2 + 1) hi
      | some false => lowerBound? below fuel lo (lo + (hi - lo) / 2)
    else some lo

variable {cmp : ℕ → Option Ordering} {below : ℕ → Option Bool}

/-- Every read of a search is an entry below `hi`. -/
theorem isSome_search? {n hi : ℕ} (h : ∀ i < n, (cmp i).isSome) (hn : hi ≤ n) (fuel lo : ℕ) :
    (search? cmp fuel lo hi).isSome := by
  induction fuel generalizing lo hi with
  | zero => rfl
  | succ fuel ih =>
    rw [search?]
    split_ifs with hlt
    · have hm := h (lo + (hi - lo) / 2) (by omega)
      rcases hc : cmp (lo + (hi - lo) / 2) with _ | (_ | _ | _)
      · rw [hc] at hm
        simp at hm
      · exact ih (by omega) lo
      · rfl
      · exact ih hn _
    · rfl

theorem cmp_of_search? {fuel lo hi i : ℕ} (h : search? cmp fuel lo hi = some (some i)) :
    lo ≤ i ∧ i < hi ∧ cmp i = some .eq := by
  induction fuel generalizing lo hi with
  | zero => simp [search?] at h
  | succ fuel ih =>
    rw [search?] at h
    split_ifs at h with hlt
    · rcases hc : cmp (lo + (hi - lo) / 2) with _ | (_ | _ | _)
      · simp [hc] at h
      · simp only [hc] at h
        obtain ⟨h₁, h₂, h₃⟩ := ih h
        exact ⟨by omega, by omega, h₃⟩
      · simp only [hc, Option.some.injEq] at h
        subst h
        exact ⟨by omega, by omega, hc⟩
      · simp only [hc] at h
        obtain ⟨h₁, h₂, h₃⟩ := ih h
        exact ⟨by omega, by omega, h₃⟩
    · simp at h

/-- **A sorted table is searched completely.** Entries before the hit are passed upwards, entries
after it downwards. -/
theorem search?_eq_some_of_mem {fuel lo hi i : ℕ} (hf : hi - lo ≤ fuel) (hlo : lo ≤ i) (hi' : i < hi)
    (heq : cmp i = some .eq) (hlt : ∀ j, lo ≤ j → j < i → cmp j = some .gt)
    (hgt : ∀ j, i < j → j < hi → cmp j = some .lt) :
    search? cmp fuel lo hi = some (some i) := by
  induction fuel generalizing lo hi with
  | zero => omega
  | succ fuel ih =>
    rw [search?, if_pos (by omega)]
    rcases Nat.lt_trichotomy (lo + (hi - lo) / 2) i with hm | hm | hm
    · rw [hlt _ (by omega) hm]
      exact ih (by omega) (by omega) hi' (fun j hj hji => hlt j (by omega) hji) hgt
    · rw [hm, heq]
    · rw [hgt _ hm (by omega)]
      exact ih (by omega) hlo hm hlt fun j hj hjh => hgt j hj (by omega)

theorem search?_eq_none {n hi : ℕ} (h : ∀ i < n, (cmp i).isSome) (hn : hi ≤ n) {fuel lo : ℕ}
    (hne : ∀ i, lo ≤ i → i < hi → cmp i ≠ some .eq) : search? cmp fuel lo hi = some none := by
  obtain ⟨r, hr⟩ := Option.isSome_iff_exists.mp (isSome_search? h hn fuel lo)
  cases r with
  | none => exact hr
  | some i =>
    obtain ⟨h₁, h₂, h₃⟩ := cmp_of_search? hr
    exact absurd h₃ (hne i h₁ h₂)

/-- **The lower bound** splits `[lo, hi)` into the entries below the target and the others. -/
theorem lowerBound?_spec {n fuel lo hi : ℕ} (h : ∀ i < n, (below i).isSome) (hn : hi ≤ n)
    (hf : hi - lo ≤ fuel) (hle : lo ≤ hi)
    (mono : ∀ i j, lo ≤ i → i ≤ j → j < hi → below j = some true → below i = some true) :
    ∃ k, lowerBound? below fuel lo hi = some k ∧ lo ≤ k ∧ k ≤ hi ∧
      (∀ i, lo ≤ i → i < k → below i = some true) ∧ (k < hi → below k = some false) := by
  induction fuel generalizing lo hi with
  | zero => exact ⟨lo, rfl, le_rfl, hle, fun i _ _ => by omega, fun _ => by omega⟩
  | succ fuel ih =>
    rw [lowerBound?]
    split_ifs with hlt
    · obtain ⟨b, hb⟩ := Option.isSome_iff_exists.mp (h (lo + (hi - lo) / 2) (by omega))
      cases b with
      | true =>
        simp only [hb]
        obtain ⟨k, hk, h₁, h₂, h₃, h₄⟩ := @ih (lo + (hi - lo) / 2 + 1) hi hn (by omega) (by omega)
          fun i j hil hij hj hb => mono i j (by omega) hij hj hb
        refine ⟨k, hk, by omega, h₂, fun i hil hik => ?_, h₄⟩
        by_cases him : i ≤ lo + (hi - lo) / 2
        · exact mono _ _ hil him (by omega) hb
        · exact h₃ i (by omega) hik
      | false =>
        simp only [hb]
        obtain ⟨k, hk, h₁, h₂, h₃, h₄⟩ := @ih lo (lo + (hi - lo) / 2) (by omega) (by omega)
          (by omega) fun i j hil hij hj hb => mono i j hil hij (by omega) hb
        refine ⟨k, hk, h₁, by omega, h₃, fun hkh => ?_⟩
        by_cases hkm : k < lo + (hi - lo) / 2
        · exact h₄ hkm
        · rwa [show k = lo + (hi - lo) / 2 by omega]
    · exact ⟨lo, rfl, le_rfl, hle, fun i _ _ => by omega, fun _ => by omega⟩

end SortedSearch
