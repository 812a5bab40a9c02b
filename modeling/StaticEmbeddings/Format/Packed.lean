import StaticEmbeddings.Format.Accepted

/-!
# Reading packed bytes back

* `Holds`: a file holds some bytes at an offset.
* `Holds.readU32`, **`Holds.recordsAt_map`**: words and arrays of records read back.
-/

namespace StaticEmbeddings

open LittleEndian

/-- The file holds `bytes` from `off` on. -/
def Holds (base : Bytes) (off : ℕ) (bytes : Bytes) : Prop := slice base off bytes.length = bytes

theorem holds_self (bytes : Bytes) : Holds bytes 0 bytes := List.take_length

section

variable {base a b : Bytes} {off : ℕ}

theorem Holds.append (h : Holds base off (a ++ b)) :
    Holds base off a ∧ Holds base (off + a.length) b := by
  unfold Holds slice at *
  rw [List.length_append, List.take_add, List.drop_drop] at h
  have hlen := congrArg List.length h
  simp only [List.length_append, List.length_take, List.length_drop] at hlen
  refine List.append_inj h ?_
  rw [List.length_take, List.length_drop]
  omega

theorem Holds.readU32_mod {v : ℕ} (h : Holds base off (le32 v)) : readU32 base off = v % 2 ^ 32 := by
  have hs : u32? (slice base off 4) 0 = u32? base (off + 0) := u32?_slice le_rfl
  rw [show slice base off 4 = le32 v from h, u32?_le32] at hs
  rw [StaticEmbeddings.readU32, ← Nat.add_zero off, ← hs]
  rfl

theorem Holds.readU32 {v : ℕ} (h : Holds base off (le32 v)) (hv : v < 2 ^ 32) :
    readU32 base off = v := by
  rw [h.readU32_mod, Nat.mod_eq_of_lt hv]

theorem Holds.readU64 {v : ℕ} (h : Holds base off (le64 v)) (hv : v < 2 ^ 64) :
    readU64 base off = v := by
  have hs : u64? (slice base off 8) 0 = u64? base (off + 0) := u64?_slice le_rfl
  rw [show slice base off 8 = le64 v from h, u64?_le64, Nat.mod_eq_of_lt hv] at hs
  rw [StaticEmbeddings.readU64, ← Nat.add_zero off, ← hs]
  rfl

/-- **An array of packed values.** -/
theorem Holds.recordsAt_map {α β : Type} {size : ℕ} {read : Bytes → ℕ → α} {f : β → Bytes}
    {g : β → α} {xs : List β} (hf : ∀ x, (f x).length = size)
    (hread : ∀ x ∈ xs, ∀ o, Holds base o (f x) → read base o = g x)
    (h : Holds base off (xs.flatMap f)) : recordsAt size read base off xs.length = xs.map g := by
  induction xs generalizing off with
  | nil => rfl
  | cons x xs ih =>
    rw [List.flatMap_cons] at h
    have htail := ih (fun y hy => hread y (List.mem_cons_of_mem x hy)) h.append.2
    rw [hf] at htail
    unfold StaticEmbeddings.recordsAt at htail ⊢
    rw [List.length_cons, List.range_succ_eq_map, List.map_cons, List.map_map, Nat.mul_zero,
      Nat.add_zero, hread x List.mem_cons_self off h.append.1]
    refine congrArg (g x :: ·) (Eq.trans (List.map_congr_left fun i _ => ?_) htail)
    rw [Function.comp_apply, Nat.mul_succ, Nat.add_assoc, Nat.add_comm size]

theorem Holds.recordsAt {α : Type} {size : ℕ} {read : Bytes → ℕ → α} {f : α → Bytes} {xs : List α}
    (hf : ∀ x, (f x).length = size) (hread : ∀ x ∈ xs, ∀ o, Holds base o (f x) → read base o = x)
    (h : Holds base off (xs.flatMap f)) : recordsAt size read base off xs.length = xs :=
  (h.recordsAt_map hf hread).trans (List.map_id' xs)

end

end StaticEmbeddings
