import Mathlib.Data.Nat.Bitwise
import Mathlib.Tactic

/-!
# Little-endian byte strings

* `le32`, `le64`: the bytes of a word, high bits dropped; `u32?`, `u64?`: reads that fail outside
  the byte string.
* Reads of concatenations and slices (`u32?_append_right`, `u32?_take`, `u32?_drop`), and the length
  of packed record arrays (`length_flatMap_const`).
* `patch`: overwrite part of a byte string; **`slice_foldl_patch`** reads one of several disjoint
  patches back.
-/

namespace LittleEndian

/-- Byte strings. -/
abbrev Bytes := List UInt8

/-- The word with little-endian bytes `b₀ … b₃`. -/
def word32 (b₀ b₁ b₂ b₃ : UInt8) : ℕ :=
  b₀.toNat ||| b₁.toNat <<< 8 ||| b₂.toNat <<< 16 ||| b₃.toNat <<< 24

/-- The four bytes of `v`, modulo `2 ^ 32`. -/
def le32 (v : ℕ) : Bytes :=
  [UInt8.ofNat v, UInt8.ofNat (v >>> 8), UInt8.ofNat (v >>> 16), UInt8.ofNat (v >>> 24)]

/-- The eight bytes of `v`, modulo `2 ^ 64`. -/
def le64 (v : ℕ) : Bytes := le32 (v % 2 ^ 32) ++ le32 (v >>> 32)

/-- The word at offset `i`, if all of it lies inside `bs`. -/
def u32? (bs : Bytes) (i : ℕ) : Option ℕ :=
  match bs.drop i with
  | b₀ :: b₁ :: b₂ :: b₃ :: _ => some (word32 b₀ b₁ b₂ b₃)
  | _ => none

/-- The double word at offset `i`, if all of it lies inside `bs`. -/
def u64? (bs : Bytes) (i : ℕ) : Option ℕ := do
  let lo ← u32? bs i
  let hi ← u32? bs (i + 4)
  return lo ||| hi <<< 32

theorem word32_eq (b₀ b₁ b₂ b₃ : UInt8) :
    word32 b₀ b₁ b₂ b₃ =
      b₀.toNat + 2 ^ 8 * b₁.toNat + 2 ^ 16 * b₂.toNat + 2 ^ 24 * b₃.toNat := by
  have h₀ := b₀.toNat_lt
  have h₁ := b₁.toNat_lt
  have h₂ := b₂.toNat_lt
  unfold word32
  rw [Nat.lor_comm b₀.toNat, ← Nat.shiftLeft_add_eq_or_of_lt (by omega), Nat.lor_comm _ (_ <<< 16),
    ← Nat.shiftLeft_add_eq_or_of_lt (by simp only [Nat.shiftLeft_eq]; omega),
    Nat.lor_comm _ (_ <<< 24),
    ← Nat.shiftLeft_add_eq_or_of_lt (by simp only [Nat.shiftLeft_eq]; omega)]
  simp only [Nat.shiftLeft_eq]
  ring

theorem word32_lt (b₀ b₁ b₂ b₃ : UInt8) : word32 b₀ b₁ b₂ b₃ < 2 ^ 32 := by
  have h₀ := b₀.toNat_lt
  have h₁ := b₁.toNat_lt
  have h₂ := b₂.toNat_lt
  have h₃ := b₃.toNat_lt
  rw [word32_eq]
  omega

theorem le32_word32 (b₀ b₁ b₂ b₃ : UInt8) : le32 (word32 b₀ b₁ b₂ b₃) = [b₀, b₁, b₂, b₃] := by
  have h₀ := b₀.toNat_lt
  have h₁ := b₁.toNat_lt
  have h₂ := b₂.toNat_lt
  have h₃ := b₃.toNat_lt
  have hbyte : ∀ {n : ℕ} {b : UInt8}, n % 2 ^ 8 = b.toNat → UInt8.ofNat n = b := by
    intro n b h
    apply UInt8.toNat_inj.mp
    rwa [UInt8.toNat_ofNat']
  rw [word32_eq, le32]
  simp only [Nat.shiftRight_eq_div_pow]
  rw [hbyte (b := b₀) (by omega), hbyte (b := b₁) (by omega), hbyte (b := b₂) (by omega),
    hbyte (b := b₃) (by omega)]

@[simp] theorem length_le32 (v : ℕ) : (le32 v).length = 4 := rfl

@[simp] theorem length_le64 (v : ℕ) : (le64 v).length = 8 := rfl

theorem u32?_eq_some_iff {bs : Bytes} {i v : ℕ} :
    u32? bs i = some v ↔
      ∃ b₀ b₁ b₂ b₃ r, bs.drop i = b₀ :: b₁ :: b₂ :: b₃ :: r ∧ word32 b₀ b₁ b₂ b₃ = v := by
  unfold u32?
  constructor
  · split
    · rename_i b₀ b₁ b₂ b₃ r h
      intro hv
      exact ⟨b₀, b₁, b₂, b₃, r, h, by simpa using hv⟩
    · simp
  · rintro ⟨b₀, b₁, b₂, b₃, r, h, rfl⟩
    rw [h]

theorem isSome_u32? {bs : Bytes} {i : ℕ} : (u32? bs i).isSome ↔ i + 4 ≤ bs.length := by
  have hl : (bs.drop i).length = bs.length - i := List.length_drop
  unfold u32?
  split
  · rename_i h
    rw [h] at hl
    simp only [List.length_cons] at hl
    simp only [Option.isSome_some, true_iff]
    omega
  · rename_i h
    simp only [Option.isSome_none, Bool.false_eq_true, false_iff, not_le]
    rcases hd : bs.drop i with _ | ⟨a, _ | ⟨b, _ | ⟨c, _ | ⟨d, r⟩⟩⟩⟩
    case cons.cons.cons.cons => exact absurd hd (h a b c d r)
    all_goals rw [hd] at hl; simp only [List.length_cons, List.length_nil] at hl; omega

theorem u32?_lt {bs : Bytes} {i v : ℕ} (h : u32? bs i = some v) : v < 2 ^ 32 := by
  obtain ⟨b₀, b₁, b₂, b₃, r, -, rfl⟩ := u32?_eq_some_iff.mp h
  exact word32_lt _ _ _ _

theorem u32?_drop (bs : Bytes) (k i : ℕ) : u32? (bs.drop k) i = u32? bs (k + i) := by
  simp only [u32?, List.drop_drop]

theorem u32?_append_right (a b : Bytes) (i : ℕ) : u32? (a ++ b) (a.length + i) = u32? b i := by
  rw [← u32?_drop, List.drop_left]

theorem u32?_append_left {a : Bytes} {i : ℕ} (h : i + 4 ≤ a.length) (b : Bytes) :
    u32? (a ++ b) i = u32? a i := by
  obtain ⟨v, hv⟩ := Option.isSome_iff_exists.mp (isSome_u32?.mpr h)
  obtain ⟨b₀, b₁, b₂, b₃, r, hr, hw⟩ := u32?_eq_some_iff.mp hv
  rw [hv, u32?_eq_some_iff]
  refine ⟨b₀, b₁, b₂, b₃, r ++ b, ?_, hw⟩
  rw [List.drop_append_of_le_length (by omega), hr]
  simp

theorem u32?_take {bs : Bytes} {i n : ℕ} (h : i + 4 ≤ n) : u32? (bs.take n) i = u32? bs i := by
  by_cases hb : i + 4 ≤ bs.length
  · conv_rhs => rw [← List.take_append_drop n bs]
    rw [u32?_append_left]
    rw [List.length_take]
    omega
  · have h₁ : u32? bs i = none := by
      rw [← Option.not_isSome_iff_eq_none, isSome_u32?]
      exact hb
    have h₂ : u32? (bs.take n) i = none := by
      rw [← Option.not_isSome_iff_eq_none, isSome_u32?, List.length_take]
      omega
    rw [h₁, h₂]

@[simp] theorem u32?_le32 (v : ℕ) : u32? (le32 v) 0 = some (v % 2 ^ 32) := by
  simp only [u32?, le32, List.drop_zero, word32_eq, Option.some.injEq, UInt8.toNat_ofNat',
    Nat.shiftRight_eq_div_pow]
  omega

theorem u32?_le32_append (v : ℕ) (b : Bytes) : u32? (le32 v ++ b) 0 = some (v % 2 ^ 32) := by
  rw [u32?_append_left (by simp), u32?_le32]

theorem lor_shiftLeft_32 {a b : ℕ} (h : a < 2 ^ 32) : a ||| b <<< 32 = a + 2 ^ 32 * b := by
  rw [Nat.lor_comm, ← Nat.shiftLeft_add_eq_or_of_lt h, Nat.shiftLeft_eq]
  ring

@[simp] theorem u64?_le64 (v : ℕ) : u64? (le64 v) 0 = some (v % 2 ^ 64) := by
  have h₁ : u32? (le64 v) 0 = some (v % 2 ^ 32) := by
    rw [le64, u32?_le32_append, Nat.mod_mod]
  have h₂ : u32? (le64 v) (0 + 4) = some (v >>> 32 % 2 ^ 32) := by
    rw [le64, show 0 + 4 = (le32 (v % 2 ^ 32)).length + 0 from rfl, u32?_append_right, u32?_le32]
  simp only [u64?, h₁, h₂, Option.bind_eq_bind, Option.bind_some, Option.pure_def,
    Option.some.injEq]
  rw [lor_shiftLeft_32 (Nat.mod_lt _ (by norm_num)), Nat.shiftRight_eq_div_pow]
  omega

/-! ## Packed records -/

section Records

variable {α : Type*} {f : α → Bytes} {n : ℕ}

theorem length_flatMap_const (hf : ∀ x, (f x).length = n) (xs : List α) :
    (xs.flatMap f).length = n * xs.length := by
  induction xs with
  | nil => simp
  | cons x xs ih => rw [List.flatMap_cons, List.length_append, hf, ih, List.length_cons]; ring

end Records

/-! ## Patches -/

/-- Overwrite the bytes of `bs` from `off` on with `p`. -/
def patch (bs : Bytes) (off : ℕ) (p : Bytes) : Bytes :=
  bs.take off ++ p ++ bs.drop (off + p.length)

theorem length_patch {bs p : Bytes} {off : ℕ} (h : off + p.length ≤ bs.length) :
    (patch bs off p).length = bs.length := by
  simp only [patch, List.length_append, List.length_take, List.length_drop]
  omega

theorem getElem?_patch {bs p : Bytes} {off : ℕ} (h : off + p.length ≤ bs.length) (i : ℕ) :
    (patch bs off p)[i]? = if off ≤ i ∧ i < off + p.length then p[i - off]? else bs[i]? := by
  have hl : (bs.take off).length = off := by rw [List.length_take]; omega
  rw [patch, List.append_assoc]
  by_cases h₁ : i < off
  · rw [List.getElem?_append_left (by omega), if_neg (by omega), List.getElem?_take_of_lt h₁]
  · rw [List.getElem?_append_right (by omega), hl]
    by_cases h₂ : i < off + p.length
    · rw [List.getElem?_append_left (by omega), if_pos (by omega)]
    · rw [List.getElem?_append_right (by omega), if_neg (by omega), List.getElem?_drop]
      congr 1
      omega

/-- The `n` bytes of `bs` from `off` on. -/
def slice (bs : Bytes) (off n : ℕ) : Bytes := (bs.drop off).take n

theorem length_slice {bs : Bytes} {off n : ℕ} (h : off + n ≤ bs.length) :
    (slice bs off n).length = n := by
  rw [slice, List.length_take, List.length_drop]
  omega

/-- The same, failing where the bytes do not lie inside `bs`. -/
def slice? (bs : Bytes) (off n : ℕ) : Option Bytes :=
  if off + n ≤ bs.length then some (slice bs off n) else none

theorem slice?_of_le {bs : Bytes} {off n : ℕ} (h : off + n ≤ bs.length) :
    slice? bs off n = some (slice bs off n) := if_pos h

theorem u32?_slice {bs : Bytes} {off n i : ℕ} (h : i + 4 ≤ n) :
    u32? (slice bs off n) i = u32? bs (off + i) := by
  rw [slice, u32?_take h, u32?_drop]

theorem u64?_slice {bs : Bytes} {off n i : ℕ} (h : i + 8 ≤ n) :
    u64? (slice bs off n) i = u64? bs (off + i) := by
  simp only [u64?, u32?_slice (show i + 4 ≤ n by omega), u32?_slice (show i + 4 + 4 ≤ n by omega),
    Nat.add_assoc]

theorem slice_congr {bs bs' : Bytes} {off n : ℕ}
    (h : ∀ i, off ≤ i → i < off + n → bs[i]? = bs'[i]?) : slice bs off n = slice bs' off n := by
  apply List.ext_getElem?
  intro i
  simp only [slice, List.getElem?_take, List.getElem?_drop]
  split_ifs with hi
  · exact h _ (by omega) (by omega)
  · rfl

theorem slice_patch {bs p : Bytes} {off : ℕ} (h : off + p.length ≤ bs.length) :
    slice (patch bs off p) off p.length = p := by
  apply List.ext_getElem?
  intro i
  simp only [slice, List.getElem?_take, List.getElem?_drop, getElem?_patch h]
  split_ifs with h₁ h₂
  · congr 1
    omega
  · omega
  · rw [List.getElem?_eq_none (by omega)]

theorem slice_patch_of_disjoint {bs p : Bytes} {off o n : ℕ} (h : off + p.length ≤ bs.length)
    (hd : o + n ≤ off ∨ off + p.length ≤ o) : slice (patch bs off p) o n = slice bs o n :=
  slice_congr fun i _ _ => by rw [getElem?_patch h, if_neg (by omega)]

/-- Two patches touch no common byte. -/
def Apart (a b : ℕ × Bytes) : Prop := a.1 + a.2.length ≤ b.1 ∨ b.1 + b.2.length ≤ a.1

theorem length_foldl_patch (ps : List (ℕ × Bytes)) (bs : Bytes)
    (h : ∀ q ∈ ps, q.1 + q.2.length ≤ bs.length) :
    (ps.foldl (fun b q => patch b q.1 q.2) bs).length = bs.length := by
  induction ps generalizing bs with
  | nil => rfl
  | cons q ps ih =>
    have hq := length_patch (h q List.mem_cons_self)
    rw [List.foldl_cons, ih _ fun r hr => by rw [hq]; exact h r (List.mem_cons_of_mem _ hr), hq]

theorem slice_foldl_patch_of_disjoint (ps : List (ℕ × Bytes)) (bs : Bytes) {o n : ℕ}
    (h : ∀ q ∈ ps, q.1 + q.2.length ≤ bs.length)
    (hd : ∀ q ∈ ps, o + n ≤ q.1 ∨ q.1 + q.2.length ≤ o) :
    slice (ps.foldl (fun b q => patch b q.1 q.2) bs) o n = slice bs o n := by
  induction ps generalizing bs with
  | nil => rfl
  | cons q ps ih =>
    have hq := length_patch (h q List.mem_cons_self)
    rw [List.foldl_cons, ih _ (fun r hr => by rw [hq]; exact h r (List.mem_cons_of_mem _ hr))
      fun r hr => hd r (List.mem_cons_of_mem _ hr),
      slice_patch_of_disjoint (h q List.mem_cons_self) (hd q List.mem_cons_self)]

/-- **Disjoint patches are all readable afterwards.** -/
theorem slice_foldl_patch (ps : List (ℕ × Bytes)) (bs : Bytes)
    (h : ∀ q ∈ ps, q.1 + q.2.length ≤ bs.length) (hd : ps.Pairwise Apart) {q : ℕ × Bytes}
    (hq : q ∈ ps) : slice (ps.foldl (fun b q => patch b q.1 q.2) bs) q.1 q.2.length = q.2 := by
  induction ps generalizing bs with
  | nil => simp at hq
  | cons r ps ih =>
    have hr := h r List.mem_cons_self
    have hl : ∀ q ∈ ps, q.1 + q.2.length ≤ (patch bs r.1 r.2).length := fun q hq => by
      rw [length_patch hr]; exact h q (List.mem_cons_of_mem _ hq)
    rw [List.pairwise_cons] at hd
    rw [List.foldl_cons]
    rcases List.mem_cons.mp hq with rfl | hq
    · rw [slice_foldl_patch_of_disjoint _ _ hl fun s hs => hd.1 s hs, slice_patch hr]
    · exact ih _ hl hd.2 hq

end LittleEndian
