import Mathlib.Data.List.Nodup
import Mathlib.Order.Nat

/-!
# Prefix trees

Trees of words given by a child relation and by the values of their nodes.

* `mem_of_lookup`, `lookup_of_mem`, `find?_of_perm`: association lists with distinct keys.
* `walk`, `find`: the node and the value of a word.
* `longest`: the match of a walk that remembers the last value; `longestKey`: the longest prefix with
  a value. **`longest_eq`**: they agree.
* `longestKey_congr`, `longestKey_take`: other keys, and a window on the input.
* `Grows`, `Grows.find_eq`: new nodes without values change no word.
* `find_update`: a value at the node of one word changes that word only.
-/

namespace PrefixTree

variable {ν α ι : Type*}

/-! ## Association lists -/

section

variable {κ β : Type*} [BEq κ] [LawfulBEq κ] {l l' : List (κ × β)} {a : κ} {b : β}

theorem mem_of_lookup (h : l.lookup a = some b) : (a, b) ∈ l := by
  obtain ⟨l₁, l₂, rfl, -⟩ := List.lookup_eq_some_iff.mp h
  exact List.mem_append_right l₁ List.mem_cons_self

theorem lookup_of_mem (hd : (l.map Prod.fst).Nodup) (h : (a, b) ∈ l) : l.lookup a = some b := by
  obtain ⟨l₁, l₂, rfl⟩ := List.append_of_mem h
  refine List.lookup_eq_some_iff.mpr ⟨l₁, l₂, rfl, fun p hp => ?_⟩
  rw [List.map_append, List.map_cons] at hd
  rw [bne_iff_ne]
  intro he
  exact (List.disjoint_of_nodup_append hd) (List.mem_map_of_mem hp)
    (List.mem_cons.mpr (.inl he.symm))

theorem find?_of_perm (hd : (l.map Prod.fst).Nodup) (hp : l'.Perm l) (a : κ) :
    l'.find? (fun p => p.1 == a) = (l.lookup a).map fun b => (a, b) := by
  cases h : l'.find? (fun p => p.1 == a) with
  | none =>
    cases hl : l.lookup a with
    | none => rfl
    | some b =>
      have := List.find?_eq_none.mp h (a, b) (hp.mem_iff.mpr (mem_of_lookup hl))
      exact absurd (beq_self_eq_true a) this
  | some p =>
    obtain ⟨a', b⟩ := p
    have hbeq : (a' == a) = true := @List.find?_some _ (fun p : κ × β => p.1 == a) _ _ h
    obtain rfl : a' = a := eq_of_beq hbeq
    rw [lookup_of_mem hd (hp.mem_iff.mp (List.mem_of_find?_eq_some h))]
    rfl

end

/-! ## Words -/

section

variable (child : ν → α → Option ν) (value : ν → Option ι)

/-- The node a word leads to. -/
def walk : ν → List α → Option ν
  | n, [] => some n
  | n, a :: w => (child n a).bind fun c => walk c w

/-- The value of a word. -/
def find (n : ν) (w : List α) : Option ι := (walk child n w).bind value

/-- The longest match from a node on: its value and its length. -/
def longest : ν → List α → Option (ι × ℕ)
  | _, [] => none
  | n, a :: w =>
    match child n a with
    | none => none
    | some c =>
      match longest c w with
      | some (v, len) => some (v, len + 1)
      | none => (value c).map fun v => (v, 1)

end

/-- The longest nonempty prefix of at most `k` letters with a value. -/
def longestUpTo (find : List α → Option ι) (input : List α) : ℕ → Option (ι × ℕ)
  | 0 => none
  | k + 1 =>
    match find (input.take (k + 1)) with
    | some v => some (v, k + 1)
    | none => longestUpTo find input k

/-- The longest nonempty prefix with a value. -/
def longestKey (find : List α → Option ι) (input : List α) : Option (ι × ℕ) :=
  longestUpTo find input input.length

section

variable {f : List α → Option ι} {input : List α} {k : ℕ}

theorem longestUpTo_eq_none_iff :
    longestUpTo f input k = none ↔ ∀ j, 0 < j → j ≤ k → f (input.take j) = none := by
  induction k with
  | zero => exact ⟨fun _ j h₁ h₂ => by omega, fun _ => rfl⟩
  | succ k ih =>
    unfold longestUpTo
    constructor
    · intro h j h₁ h₂
      cases hf : f (input.take (k + 1)) with
      | some v => rw [hf] at h; cases h
      | none =>
        rw [hf] at h
        obtain hle | rfl := Nat.le_or_eq_of_le_succ h₂
        · exact ih.mp h j h₁ hle
        · exact hf
    · intro h
      rw [h (k + 1) (Nat.succ_pos k) le_rfl]
      exact ih.mpr fun j h₁ h₂ => h j h₁ (h₂.trans (Nat.le_succ k))

theorem longestUpTo_eq_some_iff {v : ι} {len : ℕ} : longestUpTo f input k = some (v, len) ↔
    0 < len ∧ len ≤ k ∧ f (input.take len) = some v ∧
      ∀ j, len < j → j ≤ k → f (input.take j) = none := by
  induction k with
  | zero => exact ⟨nofun, fun h => by omega⟩
  | succ k ih =>
    unfold longestUpTo
    cases hf : f (input.take (k + 1)) with
    | some v' =>
      constructor
      · intro h
        cases h
        exact ⟨Nat.succ_pos k, le_rfl, hf, fun j h₁ h₂ => by omega⟩
      · rintro ⟨-, h₂, h₃, h₄⟩
        obtain hle | rfl := Nat.le_or_eq_of_le_succ h₂
        · have := h₄ (k + 1) (Nat.lt_succ_of_le hle) le_rfl
          rw [hf] at this
          cases this
        · rw [hf] at h₃
          cases h₃
          rfl
    | none =>
      refine ih.trans ⟨fun ⟨h₁, h₂, h₃, h₄⟩ => ⟨h₁, h₂.trans (Nat.le_succ k), h₃, fun j h₅ h₆ => ?_⟩,
        fun ⟨h₁, h₂, h₃, h₄⟩ => ⟨h₁, ?_, h₃, fun j h₅ h₆ => h₄ j h₅ (h₆.trans (Nat.le_succ k))⟩⟩
      · obtain hle | rfl := Nat.le_or_eq_of_le_succ h₆
        · exact h₄ j h₅ hle
        · exact hf
      · obtain hle | rfl := Nat.le_or_eq_of_le_succ h₂
        · exact hle
        · rw [hf] at h₃
          cases h₃

theorem longestKey_eq_none_iff :
    longestKey f input = none ↔ ∀ j, 0 < j → j ≤ input.length → f (input.take j) = none :=
  longestUpTo_eq_none_iff

theorem longestKey_eq_some_iff {v : ι} {len : ℕ} : longestKey f input = some (v, len) ↔
    0 < len ∧ len ≤ input.length ∧ f (input.take len) = some v ∧
      ∀ j, len < j → j ≤ input.length → f (input.take j) = none :=
  longestUpTo_eq_some_iff

theorem longestKey_congr {g : List α → Option ι}
    (h : ∀ j, 0 < j → j ≤ input.length → f (input.take j) = g (input.take j)) :
    longestKey f input = longestKey g input := by
  cases hg : longestKey g input with
  | none =>
    refine longestKey_eq_none_iff.mpr fun j h₁ h₂ => ?_
    rw [h j h₁ h₂, longestKey_eq_none_iff.mp hg j h₁ h₂]
  | some r =>
    obtain ⟨h₁, h₂, h₃, h₄⟩ := longestKey_eq_some_iff.mp hg
    refine longestKey_eq_some_iff.mpr ⟨h₁, h₂, by rw [h _ h₁ h₂, h₃], fun j h₅ h₆ => ?_⟩
    rw [h j (Nat.zero_lt_of_lt h₅) h₆, h₄ j h₅ h₆]

/-- **A window that no key exceeds hides no key.** -/
theorem longestKey_take (h : ∀ j, k < j → j ≤ input.length → f (input.take j) = none) :
    longestKey f (input.take k) = longestKey f input := by
  have htake : ∀ j ≤ k, (input.take k).take j = input.take j := fun j hj => by
    rw [List.take_take, Nat.min_eq_left hj]
  cases hw : longestKey f (input.take k) with
  | none =>
    refine (longestKey_eq_none_iff.mpr fun j h₁ h₂ => ?_).symm
    obtain hle | hlt := le_or_gt j k
    · rw [← htake j hle]
      refine longestKey_eq_none_iff.mp hw j h₁ ?_
      rw [List.length_take]
      exact le_min hle h₂
    · exact h j hlt h₂
  | some r =>
    obtain ⟨h₁, h₂, h₃, h₄⟩ := longestKey_eq_some_iff.mp hw
    rw [List.length_take, Nat.le_min] at h₂
    rw [htake _ h₂.1] at h₃
    refine (longestKey_eq_some_iff.mpr ⟨h₁, h₂.2, h₃, fun j h₅ h₆ => ?_⟩).symm
    obtain hle | hlt := le_or_gt j k
    · rw [← htake j hle]
      refine h₄ j h₅ ?_
      rw [List.length_take]
      exact le_min hle h₆
    · exact h j hlt h₆

end

section

variable {child : ν → α → Option ν} {value : ν → Option ι} {n : ν}

@[simp] theorem find_nil : find child value n [] = value n := rfl

theorem find_cons (a : α) (w : List α) :
    find child value n (a :: w) = (child n a).bind fun c => find child value c w := by
  show ((child n a).bind fun c => walk child c w).bind value = _
  rw [Option.bind_assoc]
  rfl

theorem longestUpTo_cons {a : α} {c : ν} (hc : child n a = some c) (w : List α) (k : ℕ) :
    longestUpTo (find child value n) (a :: w) (k + 1) =
      match longestUpTo (find child value c) w k with
      | some (v, len) => some (v, len + 1)
      | none => (value c).map fun v => (v, 1) := by
  have hfind : ∀ w', find child value n (a :: w') = find child value c w' := by
    intro w'
    rw [find_cons, hc]
    rfl
  induction k with
  | zero =>
    simp only [longestUpTo, List.take_succ_cons, hfind, List.take_zero, find_nil]
    cases value c <;> rfl
  | succ k ih =>
    unfold longestUpTo
    rw [List.take_succ_cons, hfind, ih]
    cases find child value c (w.take (k + 1)) <;> rfl

/-- **The walk finds the longest prefix.** -/
theorem longest_eq (n : ν) (input : List α) :
    longest child value n input = longestKey (find child value n) input := by
  unfold longestKey
  induction input generalizing n with
  | nil => rfl
  | cons a w ih =>
    unfold longest
    cases hc : child n a with
    | none =>
      refine (longestUpTo_eq_none_iff.mpr fun j h _ => ?_).symm
      obtain ⟨j, rfl⟩ := Nat.exists_eq_succ_of_ne_zero h.ne'
      rw [List.take_succ_cons, find_cons, hc]
      rfl
    | some c =>
      rw [List.length_cons, longestUpTo_cons hc, ← ih]

end

/-! ## Changes -/

section

variable {child child' : ν → α → Option ν} {value value' : ν → Option ι} {old : ν → Prop} {n : ν}

/-- A tree grows by new nodes without values. -/
structure Grows (child child' : ν → α → Option ν) (value value' : ν → Option ι) (old : ν → Prop) :
    Prop where
  keep : ∀ {n a c}, child n a = some c → child' n a = some c
  new : ∀ {n a c}, child' n a = some c → child n a = some c ∨ ¬ old c
  closed : ∀ {n a c}, child n a = some c → old n ∧ old c
  value : ∀ {n}, old n → value' n = value n
  fresh : ∀ {n}, ¬ old n → value' n = none

theorem Grows.find_of_not (h : Grows child child' value value' old) (hn : ¬ old n) (w : List α) :
    find child' value' n w = none := by
  induction w generalizing n with
  | nil => exact h.fresh hn
  | cons a w ih =>
    rw [find_cons]
    cases hc : child' n a with
    | none => rfl
    | some c =>
      obtain hold | hnew := h.new hc
      · exact absurd (h.closed hold).1 hn
      · exact ih hnew

/-- **No word changes.** -/
theorem Grows.find_eq (h : Grows child child' value value' old) (hn : old n) (w : List α) :
    find child' value' n w = find child value n w := by
  induction w generalizing n with
  | nil => exact h.value hn
  | cons a w ih =>
    rw [find_cons, find_cons]
    cases hc : child n a with
    | some c =>
      rw [h.keep hc]
      exact ih (h.closed hc).2
    | none =>
      cases hc' : child' n a with
      | none => rfl
      | some c =>
        obtain hold | hnew := h.new hc'
        · rw [hc] at hold
          cases hold
        · exact h.find_of_not hnew w

theorem label_of_walk {label : ν → List α}
    (h : ∀ {n a c}, child n a = some c → label c = label n ++ [a]) {w : List α} {m : ν}
    (hw : walk child n w = some m) : label m = label n ++ w := by
  induction w generalizing n with
  | nil =>
    cases hw
    exact (List.append_nil _).symm
  | cons a w ih =>
    obtain ⟨c, hc, hw⟩ := Option.bind_eq_some_iff.mp hw
    rw [ih hw, h hc, List.append_assoc, List.singleton_append]

/-- **A value at the node of one word.** -/
theorem find_update [DecidableEq α] {label : ν → List α}
    (h : ∀ {n a c}, child n a = some c → label c = label n ++ [a]) {m : ν} {w₀ : List α}
    (hm : walk child n w₀ = some m) (hv : ∀ k, k ≠ m → value' k = value k) (w : List α) :
    find child value' n w = if w = w₀ then value' m else find child value n w := by
  unfold find
  split_ifs with he
  · rw [he, hm]
    rfl
  · cases hw : walk child n w with
    | none => rfl
    | some k =>
      refine hv k fun hk => he ?_
      rw [hk] at hw
      exact List.append_cancel_left ((label_of_walk h hw).symm.trans (label_of_walk h hm))

end

end PrefixTree
