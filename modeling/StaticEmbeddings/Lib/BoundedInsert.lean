import Mathlib.Data.List.Sort
import Mathlib.Tactic

/-!
# Insertion into a full sorted buffer

* `sift`: move entries that give way up by one place and write the new one into the hole;
  `sift_append`.
* **`sift_take`**: with a buffer that holds the first `k` entries of a list, insertion from the last
  place on gives the first `k` entries of the longer list.
* **`eq_insertionSort`**: a sorted permutation is the sorted list.
-/

namespace BoundedInsert

variable {β : Type} {gives : β → Bool} {x : β}

/-- From place `pos` downwards: an entry that gives way to `x` moves up, `x` goes into the hole. -/
def sift (gives : β → Bool) (x : β) : ℕ → List β → List β
  | 0, l => l.set 0 x
  | pos + 1, l =>
    match l[pos]? with
    | some e => if gives e then sift gives x pos (l.set (pos + 1) e) else l.set (pos + 1) x
    | none => l.set (pos + 1) x

/-- The entries that give way move up over `y`, and `x` goes before them. -/
theorem sift_append {a : List β} (ha : ∀ e ∈ a, gives e = false) (b : List β)
    (hb : ∀ e ∈ b, gives e = true) (y : β) (rest : List β) :
    sift gives x (a.length + b.length) (a ++ b ++ y :: rest) = a ++ x :: b ++ rest := by
  induction b using List.reverseRecOn generalizing y rest with
  | nil =>
    rw [List.append_nil, List.length_nil, Nat.add_zero]
    cases a using List.reverseRecOn with
    | nil => rfl
    | append_singleton a e =>
      have he : (a ++ [e] ++ y :: rest)[a.length]? = some e := by simp
      rw [List.length_append, List.length_singleton, sift, he]
      dsimp only
      rw [if_neg (by simp [ha e (by simp)])]
      simp
  | append_singleton b e ih =>
    have hlen : a.length + (b ++ [e]).length = a.length + b.length + 1 := by simp; omega
    have he : (a ++ (b ++ [e]) ++ y :: rest)[a.length + b.length]? = some e := by
      have : a ++ (b ++ [e]) ++ y :: rest = (a ++ b) ++ e :: y :: rest := by simp
      rw [this, List.getElem?_append_right (by simp)]
      simp
    have hset : (a ++ (b ++ [e]) ++ y :: rest).set (a.length + b.length + 1) e =
        a ++ b ++ e :: e :: rest := by
      have : a ++ (b ++ [e]) ++ y :: rest = (a ++ b ++ [e]) ++ y :: rest := by simp
      rw [this, List.set_append_right _ _ (by simp; omega)]
      simp [Nat.add_assoc]
    rw [hlen, sift, he]
    dsimp only
    rw [if_pos (hb e (by simp)), hset, ih (fun d hd => hb d (by simp [hd]))]
    simp

/-- **Insertion into the buffer of the first `k` entries**, where `gives` holds from some place of
the list on. -/
theorem sift_take {a b : List β} (ha : ∀ e ∈ a, gives e = false) (hb : ∀ e ∈ b, gives e = true)
    {k : ℕ} (hk : k < (a ++ b).length) {e : β} (he : (a ++ b)[k]? = some e) :
    (if gives e then sift gives x k ((a ++ b).take (k + 1)) else (a ++ b).take (k + 1)) =
      (a ++ x :: b).take (k + 1) := by
  by_cases hka : k < a.length
  · have hmem : e ∈ a := by
      rw [List.getElem?_append_left hka] at he
      exact List.mem_of_getElem? he
    rw [if_neg (by simp [ha e hmem]), List.take_append_of_le_length hka,
      List.take_append_of_le_length hka]
  · rw [not_lt] at hka
    rw [List.getElem?_append_right hka] at he
    have hmem : e ∈ b := List.mem_of_getElem? he
    have hkb : k - a.length < b.length := by
      rw [List.length_append] at hk
      omega
    have htake : (a ++ b).take (k + 1) = a ++ b.take (k - a.length) ++ e :: [] := by
      rw [List.take_append, List.take_of_length_le (by omega), show k + 1 - a.length =
        k - a.length + 1 by omega, List.take_add_one, he, List.append_assoc]
      rfl
    have hlen : a.length + (b.take (k - a.length)).length = k := by
      rw [List.length_take]
      omega
    rw [if_pos (hb e hmem), htake]
    have hs := sift_append (x := x) ha (b.take (k - a.length))
      (fun d hd => hb d (List.mem_of_mem_take hd)) e []
    rw [hlen] at hs
    rw [hs, List.append_nil, List.take_append, List.take_of_length_le (show a.length ≤ k + 1 by omega),
      show k + 1 - a.length = k - a.length + 1 by omega, List.take_succ_cons]

/-- **A sorted permutation is the sorted list.** -/
theorem eq_insertionSort {r : β → β → Prop} [DecidableRel r] [IsTrans β r] [Std.Total r]
    [Std.Antisymm r] {l l' : List β} (hs : l'.Pairwise r) (hp : l'.Perm l) :
    l' = l.insertionSort r :=
  (hp.trans (List.perm_insertionSort r l).symm).eq_of_pairwise'
    hs (List.pairwise_insertionSort r l)

end BoundedInsert
