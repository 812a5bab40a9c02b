import Mathlib.Data.List.Nodup
import Mathlib.Data.List.Perm.Subperm
import Mathlib.Data.List.ReduceOption
import Mathlib.Tactic.Common

/-!
# Lists from their numbered entries

Entries with numbers are put into empty places, in any order.

* `fill`: the places after the entries; `getElem?_fill`.
* **`fill_replicate`**: distinct numbers below their count leave no place empty, and the entries are
  those of a list with its positions.
* `fill_of_perm`: the entries of a list in any order give the list back.
-/

namespace Numbering

variable {α : Type}

/-- The places after every entry has been put at its number. -/
def fill (slots : List (Option α)) (placed : List (α × ℕ)) : List (Option α) :=
  placed.foldl (fun s p => s.set p.2 (some p.1)) slots

@[simp] theorem fill_nil (slots : List (Option α)) : fill slots [] = slots := rfl

theorem fill_cons (slots : List (Option α)) (p : α × ℕ) (placed : List (α × ℕ)) :
    fill slots (p :: placed) = fill (slots.set p.2 (some p.1)) placed := rfl

@[simp] theorem length_fill (slots : List (Option α)) (placed : List (α × ℕ)) :
    (fill slots placed).length = slots.length := by
  induction placed generalizing slots with
  | nil => rfl
  | cons p placed ih => rw [fill_cons, ih, List.length_set]

theorem getElem?_fill {slots : List (Option α)} {placed : List (α × ℕ)}
    (hn : (placed.map Prod.snd).Nodup) (hlt : ∀ p ∈ placed, p.2 < slots.length) (i : ℕ) (a : α) :
    (fill slots placed)[i]? = some (some a) ↔
      (a, i) ∈ placed ∨ (slots[i]? = some (some a) ∧ i ∉ placed.map Prod.snd) := by
  induction placed generalizing slots with
  | nil => simp
  | cons p placed ih =>
    rw [List.map_cons, List.nodup_cons] at hn
    have hp : p.2 < slots.length := hlt p List.mem_cons_self
    have hrest : ∀ q ∈ placed, q.2 < (slots.set p.2 (some p.1)).length := by
      intro q hq
      rw [List.length_set]
      exact hlt q (List.mem_cons_of_mem p hq)
    rw [fill_cons, ih hn.2 hrest, List.mem_cons, List.map_cons, List.mem_cons, not_or]
    by_cases hi : i = p.2
    · subst hi
      have hnot : (a, p.2) ∉ placed := fun h => hn.1 (List.mem_map.mpr ⟨_, h, rfl⟩)
      rw [List.getElem?_set_self hp]
      simp only [hnot, hn.1, Option.some.injEq, not_false_eq_true, and_true, false_or, or_false,
        not_true_eq_false, and_false]
      constructor
      · intro h
        exact Prod.ext h.symm rfl
      · intro h
        exact (congrArg Prod.fst h).symm
    · have hne : (a, i) ≠ p := fun h => hi (congrArg Prod.snd h)
      rw [List.getElem?_set_ne (Ne.symm hi)]
      simp only [hne, false_or, hi, not_false_eq_true, true_and]

theorem numbers_perm {numbers : List ℕ} (hn : numbers.Nodup) (hlt : ∀ i ∈ numbers, i < numbers.length) :
    numbers.Perm (List.range numbers.length) := by
  refine (hn.subperm fun i hi => ?_).perm_of_length_le ?_
  · exact List.mem_range.mpr (hlt i hi)
  · simp

theorem mem_zipIdx {xs : List α} {a : α} {i : ℕ} : (a, i) ∈ xs.zipIdx ↔ xs[i]? = some a :=
  List.mem_zipIdx_iff_getElem?

theorem fill_of_perm {placed : List (α × ℕ)} {xs : List α} (h : placed.Perm xs.zipIdx) :
    fill (List.replicate placed.length none) placed = xs.map some := by
  have hlen : placed.length = xs.length := by rw [h.length_eq, List.length_zipIdx]
  have hn : (placed.map Prod.snd).Nodup := by
    rw [(h.map Prod.snd).nodup_iff, List.zipIdx_map_snd]
    exact List.nodup_range'
  have hlt : ∀ p ∈ placed, p.2 < (List.replicate placed.length (none : Option α)).length := by
    rintro ⟨a, i⟩ hp
    rw [List.length_replicate, hlen]
    exact (List.getElem?_eq_some_iff.mp (mem_zipIdx.mp (h.mem_iff.mp hp))).1
  refine List.ext_getElem? fun i => ?_
  by_cases hi : i < xs.length
  · rw [List.getElem?_map, List.getElem?_eq_getElem hi]
    refine (getElem?_fill hn hlt i _).mpr (.inl ?_)
    exact h.mem_iff.mpr (mem_zipIdx.mpr (List.getElem?_eq_getElem hi))
  · rw [List.getElem?_eq_none (by simp; omega), List.getElem?_eq_none (by simp; omega)]

/-- **Distinct numbers below their count** leave no place empty. -/
theorem fill_replicate {placed : List (α × ℕ)} (hn : (placed.map Prod.snd).Nodup)
    (hlt : ∀ p ∈ placed, p.2 < placed.length) : ∃ xs : List α, placed.Perm xs.zipIdx := by
  set slots := fill (List.replicate placed.length none) placed with hs
  have hbound : ∀ p ∈ placed, p.2 < (List.replicate placed.length (none : Option α)).length := by
    intro p hp
    rw [List.length_replicate]
    exact hlt p hp
  have hget : ∀ i a, slots[i]? = some (some a) ↔ (a, i) ∈ placed := by
    intro i a
    rw [hs, getElem?_fill hn hbound, List.getElem?_replicate]
    simp
  have hall : ∀ i < placed.length, ∃ a, (a, i) ∈ placed := by
    intro i hi
    have hnum := numbers_perm hn fun j hj => by
      obtain ⟨p, hp, rfl⟩ := List.mem_map.mp hj
      rw [List.length_map]
      exact hlt p hp
    rw [List.length_map] at hnum
    obtain ⟨⟨a, j⟩, hp, rfl⟩ := List.mem_map.mp (hnum.mem_iff.mpr (List.mem_range.mpr hi))
    exact ⟨a, hp⟩
  have hfull : ∀ x ∈ slots, x.isSome := by
    intro x hx
    obtain ⟨i, hi, rfl⟩ := List.mem_iff_getElem.mp hx
    obtain ⟨a, ha⟩ := hall i (by simpa [hs] using hi)
    have := (hget i a).mpr ha
    rw [List.getElem?_eq_getElem hi, Option.some.injEq] at this
    rw [this]
    rfl
  refine ⟨slots.reduceOption, ?_⟩
  have hmap : slots.reduceOption.map some = slots := by
    clear_value slots
    clear hs hget
    induction slots with
    | nil => rfl
    | cons x slots ih =>
      obtain ⟨a, rfl⟩ := Option.isSome_iff_exists.mp (hfull x List.mem_cons_self)
      rw [List.reduceOption_cons_of_some, List.map_cons,
        ih fun y hy => hfull y (List.mem_cons_of_mem _ hy)]
  refine (List.perm_ext_iff_of_nodup (hn.of_map _) ?_).mpr ?_
  · refine List.Nodup.of_map Prod.snd ?_
    rw [List.zipIdx_map_snd]
    exact List.nodup_range'
  · rintro ⟨a, i⟩
    rw [mem_zipIdx, ← hget i a]
    conv_lhs => rw [← hmap]
    rw [List.getElem?_map]
    simp

end Numbering
