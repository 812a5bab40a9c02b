import Mathlib.Data.List.GetD
import StaticEmbeddings.Lib.StridedLoop

/-!
# Encoding loops over one memory

A loop reads `r` bytes at `src + r * i` and stores `w` bytes at `dst + w * i`; the two ranges may
overlap.

* `Traced`: bytes, and the accesses so far in order.
* `encodeLoop`: the loop.
* `Safe`: what a round reads was not stored to by the rounds before; `safe_inPlace`: so it is where
  `dst = src` and `w ≤ r`.
* **`encodeLoop_spec`**: then the loop encodes the original bytes, and `log_ordered`: no byte is
  stored to before it is read.
-/

open StridedLoop

namespace InPlace

/-- An access to a byte. -/
inductive Access
  | load (address : ℕ)
  | store (address : ℕ)
  deriving DecidableEq, Repr

/-- Bytes, and the accesses so far. -/
structure Traced where
  cells : ℕ → UInt8
  log : List Access

/-- The `n` bytes from `p` on. -/
def Traced.bytesAt (m : Traced) (p n : ℕ) : List UInt8 := (List.range n).map fun k => m.cells (p + k)

/-- Reads `n` bytes from `p` on. -/
def Traced.load (m : Traced) (p n : ℕ) : List UInt8 × Traced :=
  (m.bytesAt p n, { m with log := m.log ++ (List.range n).map fun k => .load (p + k) })

/-- Stores one byte. -/
def Traced.store (m : Traced) (p : ℕ) (byte : UInt8) : Traced where
  cells := Function.update m.cells p byte
  log := m.log ++ [.store p]

/-- Stores bytes from `p` on. -/
def Traced.stores (m : Traced) : ℕ → List UInt8 → Traced
  | _, [] => m
  | p, byte :: bytes => (m.store p byte).stores (p + 1) bytes

/-- One round. -/
def encodeRound (f : List UInt8 → List UInt8) (r w dst src i : ℕ) (m : Traced) : Traced :=
  let (bytes, m) := m.load (src + r * i) r
  m.stores (dst + w * i) (f bytes)

/-- The loop, over an index of 64 bits. -/
def encodeLoop (f : List UInt8 → List UInt8) (r w dst src count : ℕ) (m : Traced) :
    Option Traced := do
  let (_, m) ← loop 64 1 count (encodeRound f r w dst src) (rounds count) 0 m
  return m

theorem cells_stores (bytes : List UInt8) (m : Traced) (p a : ℕ) :
    (m.stores p bytes).cells a =
      if p ≤ a ∧ a < p + bytes.length then bytes.getD (a - p) 0 else m.cells a := by
  induction bytes generalizing m p with
  | nil =>
    rw [Traced.stores, if_neg (by simp)]
  | cons byte bytes ih =>
    rw [Traced.stores, ih, List.length_cons]
    by_cases ha : a = p
    · subst ha
      rw [if_neg (by omega), if_pos (by omega), Nat.sub_self]
      simp [Traced.store]
    · have hstore : (m.store p byte).cells a = m.cells a := Function.update_of_ne ha _ _
      by_cases hin : p + 1 ≤ a ∧ a < p + 1 + bytes.length
      · rw [if_pos hin, if_pos (by omega), show a - p = a - (p + 1) + 1 by omega,
          List.getD_cons_succ]
      · rw [if_neg hin, if_neg (by omega), hstore]

theorem log_stores (bytes : List UInt8) (m : Traced) (p : ℕ) :
    (m.stores p bytes).log =
      m.log ++ (List.range bytes.length).map fun k => Access.store (p + k) := by
  induction bytes generalizing m p with
  | nil => simp [Traced.stores]
  | cons byte bytes ih =>
    rw [Traced.stores, ih, List.length_cons, List.range_succ_eq_map, List.map_cons, List.map_map]
    simp [Traced.store, Function.comp_def, Nat.add_assoc, Nat.add_comm 1]

section

variable {f : List UInt8 → List UInt8} {r w dst src count : ℕ} {m₀ m : Traced}

/-- The rounds before `i` have not stored to what round `i` reads. -/
def Safe (r w dst src count : ℕ) : Prop :=
  ∀ i < count, ∀ k < r, src + r * i + k < dst ∨ dst + w * i ≤ src + r * i + k

theorem safe_inPlace (h : w ≤ r) (p count : ℕ) : Safe r w p p count := by
  intro i _ k _
  have := Nat.mul_le_mul_right i h
  omega

theorem safe_apart (h : dst + w * count ≤ src ∨ src + r * count ≤ dst) :
    Safe r w dst src count := by
  intro i hi k hk
  have hw : w * (i + 1) ≤ w * count := Nat.mul_le_mul_left w hi
  have hr : r * (i + 1) ≤ r * count := Nat.mul_le_mul_left r hi
  rw [Nat.mul_succ] at hw hr
  omega

/-- The accesses of round `i`. -/
def roundLog (r w dst src i : ℕ) : List Access :=
  (List.range r).map (fun k => .load (src + r * i + k)) ++
    (List.range w).map fun k => .store (dst + w * i + k)

/-- The first `i` elements are encoded, and the rest of the memory is as it was. -/
structure Encoded (f : List UInt8 → List UInt8) (r w dst src : ℕ) (m₀ : Traced) (i : ℕ)
    (m : Traced) : Prop where
  new : ∀ j < i, m.bytesAt (dst + w * j) w = f (m₀.bytesAt (src + r * j) r)
  old : ∀ a, a < dst ∨ dst + w * i ≤ a → m.cells a = m₀.cells a
  log : m.log = m₀.log ++ (List.range i).flatMap (roundLog r w dst src)

theorem bytesAt_congr {m m' : Traced} {p n : ℕ} (h : ∀ k < n, m.cells (p + k) = m'.cells (p + k)) :
    m.bytesAt p n = m'.bytesAt p n :=
  List.map_congr_left fun k hk => h k (List.mem_range.mp hk)

/-- **One round.** -/
theorem encodeRound_spec (hf : ∀ bytes, (f bytes).length = w) (hsafe : Safe r w dst src count)
    {i : ℕ} (hi : i < count) (h : Encoded f r w dst src m₀ i m) :
    Encoded f r w dst src m₀ (i + 1) (encodeRound f r w dst src i m) := by
  have hread : m.bytesAt (src + r * i) r = m₀.bytesAt (src + r * i) r :=
    bytesAt_congr fun k hk => h.old _ (hsafe i hi k hk)
  have hcells : ∀ a, (encodeRound f r w dst src i m).cells a =
      if dst + w * i ≤ a ∧ a < dst + w * i + w then
        (f (m₀.bytesAt (src + r * i) r)).getD (a - (dst + w * i)) 0
      else m.cells a := by
    intro a
    rw [encodeRound]
    simp only [Traced.load, cells_stores, hf, hread]
  constructor
  · intro j hj
    by_cases hlt : j < i
    · rw [← h.new j hlt]
      apply bytesAt_congr
      intro k hk
      have hle : w * (j + 1) ≤ w * i := Nat.mul_le_mul_left w hlt
      rw [Nat.mul_succ] at hle
      rw [hcells, if_neg (by omega)]
    · obtain rfl : j = i := by omega
      apply List.ext_getElem
      · simp [Traced.bytesAt, hf]
      · intro k h₁ h₂
        have hk : k < w := by rwa [hf] at h₂
        simp only [Traced.bytesAt, List.getElem_map, List.getElem_range]
        rw [hcells, if_pos (by omega), Nat.add_sub_cancel_left, List.getD_eq_getElem _ _ h₂]
        rfl
  · intro a ha
    rw [Nat.mul_succ] at ha
    rw [hcells, if_neg (by omega)]
    exact h.old a (by omega)
  · rw [List.range_succ, List.flatMap_append, ← List.append_assoc, ← h.log]
    simp only [encodeRound, Traced.load, log_stores, hf, List.flatMap_cons, List.flatMap_nil,
      List.append_nil, roundLog, List.append_assoc]

/-- **The loop encodes the original bytes.** -/
theorem encodeLoop_spec (hf : ∀ bytes, (f bytes).length = w) (hsafe : Safe r w dst src count)
    (hcount : count < 2 ^ 64) (m₀ : Traced) :
    ∃ m, encodeLoop f r w dst src count m₀ = some m ∧ Encoded f r w dst src m₀ count m := by
  have hzero : Encoded f r w dst src m₀ 0 m₀ :=
    ⟨fun j hj => absurd hj (Nat.not_lt_zero j), fun a _ => rfl, by simp⟩
  obtain ⟨i, m, heq, -, h₁, h₂, hinv⟩ := loop_spec Nat.one_pos (one_dvd (2 ^ 64)) hcount
    (fun i m hi h => encodeRound_spec hf hsafe hi h) (one_dvd 0) (Nat.zero_le count)
    (show count < count + 1 + 0 by omega) hzero
  obtain rfl : i = count := by omega
  exact ⟨m, by rw [encodeLoop, show rounds i = i + 1 from rfl, heq]; rfl, hinv⟩

theorem bytesAt_add (m : Traced) (p a b : ℕ) :
    m.bytesAt p (a + b) = m.bytesAt p a ++ m.bytesAt (p + a) b := by
  simp [Traced.bytesAt, List.range_add, Function.comp_def, Nat.add_assoc]

theorem Encoded.bytesAt {i : ℕ} (h : Encoded f r w dst src m₀ i m) :
    m.bytesAt dst (w * i) = (List.range i).flatMap fun j => f (m₀.bytesAt (src + r * j) r) := by
  have hall : ∀ k ≤ i, m.bytesAt dst (w * k) =
      (List.range k).flatMap fun j => f (m₀.bytesAt (src + r * j) r) := by
    intro k
    induction k with
    | zero => intro _; rfl
    | succ k ih =>
      intro hk
      rw [Nat.mul_succ, bytesAt_add, ih (by omega), h.new k hk, List.range_succ]
      simp
  exact hall i le_rfl

/-- Nothing is read after it was stored to. -/
def Ordered (log : List Access) : Prop :=
  log.Pairwise fun x y => ∀ a, x = .store a → y ≠ .load a

theorem exists_store_of_mem {i : ℕ} {a : ℕ} (h : Access.store a ∈ roundLog r w dst src i) :
    ∃ k < w, a = dst + w * i + k := by
  simp only [roundLog, List.mem_append, List.mem_map, List.mem_range, reduceCtorEq, and_false,
    exists_false, false_or, Access.store.injEq] at h
  obtain ⟨k, hk, rfl⟩ := h
  exact ⟨k, hk, rfl⟩

theorem exists_load_of_mem {i : ℕ} {a : ℕ} (h : Access.load a ∈ roundLog r w dst src i) :
    ∃ k < r, a = src + r * i + k := by
  simp only [roundLog, List.mem_append, List.mem_map, List.mem_range, reduceCtorEq, and_false,
    exists_false, or_false, Access.load.injEq] at h
  obtain ⟨k, hk, rfl⟩ := h
  exact ⟨k, hk, rfl⟩

/-- **No byte is stored to before it is read.** -/
theorem log_ordered (hsafe : Safe r w dst src count) :
    Ordered ((List.range count).flatMap (roundLog r w dst src)) := by
  unfold Ordered
  rw [List.pairwise_flatMap]
  constructor
  · intro i _
    rw [roundLog, List.pairwise_append]
    refine ⟨?_, ?_, ?_⟩
    · exact List.pairwise_map.mpr (List.pairwise_of_forall (by simp))
    · exact List.pairwise_map.mpr (List.pairwise_of_forall (by simp))
    · intro x hx y _ a hxa
      simp [hxa] at hx
  · apply List.Pairwise.imp_of_mem _ List.pairwise_lt_range
    intro i j _ hj hij x hx y hy a hxa hya
    subst hxa hya
    obtain ⟨k, hk, rfl⟩ := exists_store_of_mem hx
    obtain ⟨l, hl, hkl⟩ := exists_load_of_mem hy
    have hle : w * (i + 1) ≤ w * j := Nat.mul_le_mul_left w hij
    rw [Nat.mul_succ] at hle
    have := hsafe j (List.mem_range.mp hj) l hl
    omega

end

end InPlace
