import Mathlib.Logic.Function.Basic
import Mathlib.Tactic.Common

/-!
# Ownership of heap blocks

A heap gives addresses sizes; every owner holds at most one block.

* `Owned`: what is held is live, and no block has two owners.
* `Owned.free`, `Owned.alloc`, `Owned.realloc`: the allocator keeps this.
-/

namespace Ownership

variable {o : Type} [DecidableEq o]

/-- The live blocks: the size at each address. -/
abbrev Blocks := ℕ → Option ℕ

/-- The address and the size of what each owner holds. -/
abbrev Holdings (o : Type) := o → Option (ℕ × ℕ)

/-- What is held is live, and nothing is held twice. -/
structure Owned (blocks : Blocks) (held : Holdings o) : Prop where
  live : ∀ i p n, held i = some (p, n) → blocks p = some n
  apart : ∀ i j p n n', held i = some (p, n) → held j = some (p, n') → i = j

variable {blocks : Blocks} {held : Holdings o} {i : o} {p q n m : ℕ}

theorem Owned.free (h : Owned blocks held) (hi : held i = some (p, n)) :
    Owned (Function.update blocks p none) (Function.update held i none) := by
  constructor
  · intro j q m hj
    by_cases hji : j = i
    · rw [hji, Function.update_self] at hj
      cases hj
    · rw [Function.update_of_ne hji] at hj
      have hqp : q ≠ p := by
        rintro rfl
        exact hji (h.apart j i q m n hj hi)
      rw [Function.update_of_ne hqp]
      exact h.live j q m hj
  · intro j k q m m' hj hk
    have hne : ∀ l x, Function.update held i none l = some x → held l = some x := by
      intro l x hl
      by_cases hli : l = i
      · rw [hli, Function.update_self] at hl
        cases hl
      · rwa [Function.update_of_ne hli] at hl
    exact h.apart j k q m m' (hne _ _ hj) (hne _ _ hk)

theorem Owned.alloc (h : Owned blocks held) (hp : blocks p = none) :
    Owned (Function.update blocks p (some n)) (Function.update held i (some (p, n))) := by
  have hfresh : ∀ j q m, held j = some (q, m) → q ≠ p := by
    rintro j q m hj rfl
    rw [h.live j q m hj] at hp
    cases hp
  constructor
  · intro j q m hj
    by_cases hji : j = i
    · rw [hji, Function.update_self] at hj
      cases hj
      rw [Function.update_self]
    · rw [Function.update_of_ne hji] at hj
      rw [Function.update_of_ne (hfresh j q m hj)]
      exact h.live j q m hj
  · intro j k q m m' hj hk
    by_cases hji : j = i
    · by_cases hki : k = i
      · rw [hji, hki]
      · rw [hji, Function.update_self] at hj
        cases hj
        rw [Function.update_of_ne hki] at hk
        exact absurd rfl (hfresh k _ _ hk)
    · rw [Function.update_of_ne hji] at hj
      by_cases hki : k = i
      · rw [hki, Function.update_self] at hk
        cases hk
        exact absurd rfl (hfresh j _ _ hj)
      · rw [Function.update_of_ne hki] at hk
        exact h.apart j k q m m' hj hk

theorem Owned.realloc (h : Owned blocks held) (hi : held i = some (p, m))
    (hq : Function.update blocks p none q = none) :
    Owned (Function.update (Function.update blocks p none) q (some n))
      (Function.update held i (some (q, n))) := by
  have hfree := h.free hi
  have halloc := hfree.alloc (i := i) (n := n) hq
  rwa [Function.update_idem] at halloc

end Ownership
