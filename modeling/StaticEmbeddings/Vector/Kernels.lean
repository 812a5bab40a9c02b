import Mathlib.Tactic.LinearCombination
import StaticEmbeddings.Lib.StridedLoop
import StaticEmbeddings.Vector.Half

/-!
# The numeric kernels

The dot products of `se_topk.c` and `se_f16.c` and the vector loops of `se_embed.c` over a
commutative ring, one variant for each instruction set.

* `seDotProductF32`, `seDotAndRowSqF32`, `seDotProductF16`, `seDotAndRowSqF16`, `sumSqD`.
* `addRow`, `scaleCopy`: on a memory with a log of its stores.
* `Acc4.step_sum`, `laneStep_sum`: what one round adds.
* **`kernels_visit_once`**.
-/

open Finset StridedLoop

namespace StaticEmbeddings

/-! ## Instruction sets -/

/-- The instruction sets that `se_topk.c` and `se_embed.c` are compiled for. -/
inductive F32Backend
  | scalar
  | sse
  | neon (aarch64 : Bool)
  deriving DecidableEq, Repr

/-- `se_f16_backend_t`. -/
inductive F16Backend
  | lut
  | f16c
  | neonFp16
  deriving DecidableEq, Repr

variable {R : Type*} [CommRing R]

/-! ## Registers -/

/-- `vaddvq_f32`. -/
def vaddvq (v : Fin 4 → R) : R := (v 0 + v 1) + (v 2 + v 3)

/-- `vadd_f32` of the two halves, then `vpadd_f32`. -/
def vpaddHalves (v : Fin 4 → R) : R := (v 0 + v 2) + (v 1 + v 3)

/-- `(tmp[0] + tmp[1]) + (tmp[2] + tmp[3])` after a store. -/
def storedSum (v : Fin 4 → R) : R := (v 0 + v 1) + (v 2 + v 3)

/-- Lanes `0` to `3` of a register of eight. -/
def lowHalf {α : Type*} (v : Fin 8 → α) : Fin 4 → α := fun i => v ⟨i, by omega⟩

/-- Lanes `4` to `7` of a register of eight. -/
def highHalf {α : Type*} (v : Fin 8 → α) : Fin 4 → α := fun i => v ⟨4 + i, by omega⟩

/-- `hsum256_f16c`. -/
def hsum256 (v : Fin 8 → R) : R := storedSum (lowHalf v + highHalf v)

/-- Four accumulators of four lanes. -/
structure Acc4 (R : Type*) where
  a0 : Fin 4 → R
  a1 : Fin 4 → R
  a2 : Fin 4 → R
  a3 : Fin 4 → R

/-- All accumulators zero. -/
def Acc4.zero : Acc4 R := ⟨0, 0, 0, 0⟩

/-- The four multiply-adds of a round. -/
def Acc4.mla (a : Acc4 R) (x0 x1 x2 x3 y0 y1 y2 y3 : Fin 4 → R) : Acc4 R :=
  ⟨a.a0 + x0 * y0, a.a1 + x1 * y1, a.a2 + x2 * y2, a.a3 + x3 * y3⟩

/-- `(a0 + a1) + (a2 + a3)`. -/
def Acc4.sumv (a : Acc4 R) : Fin 4 → R := (a.a0 + a.a1) + (a.a2 + a.a3)

/-! ## Products of floats -/

/-- A round of sixteen products. -/
def mla16 (q row : ℕ → R) (j : ℕ) (a : Acc4 R) : Acc4 R :=
  a.mla (load 4 q j) (load 4 q (j + 4)) (load 4 q (j + 8)) (load 4 q (j + 12))
    (load 4 row j) (load 4 row (j + 4)) (load 4 row (j + 8)) (load 4 row (j + 12))

/-- The horizontal sum of `se_topk.c`. -/
def horizontalSum (b : F32Backend) (v : Fin 4 → R) : R :=
  match b with
  | .scalar => storedSum v
  | .sse => storedSum v
  | .neon true => vaddvq v
  | .neon false => vpaddHalves v

/-- `for (; j < dim; j++) dot += q[j] * row[j]`. -/
def dotTail (q row : ℕ → R) (dim j : ℕ) (dot : R) : Option R := do
  let (_, dot) ← loop 64 1 dim (fun j dot => dot + q j * row j) (rounds dim) j dot
  return dot

/-- `se_dot_product_f32`; the eight scalar accumulators are the lanes of one vector. -/
def seDotProductF32 (b : F32Backend) (q row : ℕ → R) (dim : ℕ) : Option R := do
  match b with
  | .scalar =>
    let (j, s) ← loop 64 8 dim (fun j s => s + load 8 q j * load 8 row j) (rounds dim) 0 0
    dotTail q row dim j ((s 0 + s 1) + (s 2 + s 3) + (s 4 + s 5) + (s 6 + s 7))
  | b =>
    let (j, a) ← loop 64 16 dim (mla16 q row) (rounds dim) 0 Acc4.zero
    dotTail q row dim j (horizontalSum b a.sumv)

/-- `for (; j < dim; j++) { r = row[j]; dot += q[j] * r; row_sq += r * r; }`. -/
def dotSqTail (q row : ℕ → R) (dim j : ℕ) (dot rowSq : R) : Option (R × R) := do
  let (_, s) ← loop 64 1 dim
    (fun j s => let r := row j; (s.1 + q j * r, s.2 + r * r)) (rounds dim) j (dot, rowSq)
  return s

/-- `se_dot_and_row_sq_f32`. -/
def seDotAndRowSqF32 (b : F32Backend) (q row : ℕ → R) (dim : ℕ) : Option (R × R) := do
  match b with
  | .scalar =>
    let (j, d, s) ← loop 64 4 dim
      (fun j s => (s.1 + load 4 q j * load 4 row j, s.2 + load 4 row j * load 4 row j))
      (rounds dim) 0 (0, 0)
    dotSqTail q row dim j ((d 0 + d 1) + (d 2 + d 3)) ((s 0 + s 1) + (s 2 + s 3))
  | b =>
    let (j, d, s) ← loop 64 16 dim (fun j s => (mla16 q row j s.1, mla16 row row j s.2))
      (rounds dim) 0 (Acc4.zero, Acc4.zero)
    dotSqTail q row dim j (horizontalSum b d.sumv) (horizontalSum b s.sumv)

/-! ## Products with halves -/

/-- `read_u16le`. -/
def readU16le (src : ℕ → UInt8) (p : ℕ) : ℕ := (src p).toNat ||| (src (p + 1)).toNat <<< 8

/-- `n` little-endian words from byte `p` on. -/
def loadU16 (n : ℕ) (src : ℕ → UInt8) (p : ℕ) : Fin n → ℕ := fun i => readU16le src (p + 2 * i)

/-- `se_f16_lut` after `init_f16_lut`, where `real` is the value of a float's bits. -/
def seF16Lut (real : ℕ → R) (i : ℕ) : R := if i ≤ 0xFFFF then real (seF16BitsToFloat i) else 0

/-- `dot_product_f16_lut`. -/
def dotProductF16Lut (real : ℕ → R) (q : ℕ → R) (row : ℕ → UInt8) (dim : ℕ) : Option R := do
  let half := fun j => seF16Lut real (readU16le row (j * 2))
  let (j, s) ← loop 64 4 dim (fun j s => s + load 4 q j * load 4 half j) (rounds dim) 0 0
  dotTail q half dim j ((s 0 + s 1) + (s 2 + s 3))

/-- `dot_and_row_sq_f16_lut`. -/
def dotAndRowSqF16Lut (real : ℕ → R) (q : ℕ → R) (row : ℕ → UInt8) (dim : ℕ) :
    Option (R × R) := do
  let half := fun j => seF16Lut real (readU16le row (j * 2))
  let (j, d, s) ← loop 64 4 dim
    (fun j s => (s.1 + load 4 q j * load 4 half j, s.2 + load 4 half j * load 4 half j))
    (rounds dim) 0 (0, 0)
  dotSqTail q half dim j ((d 0 + d 1) + (d 2 + d 3)) ((s 0 + s 1) + (s 2 + s 3))

section

variable (cvt real : ℕ → R)

/-- The round of sixteen of `dot_product_f16_neon`; `cvt` is the conversion instruction. -/
def neonRound16 (q : ℕ → R) (row : ℕ → UInt8) (j : ℕ) (a : Acc4 R) : Acc4 R :=
  let h0 := loadU16 8 row (j * 2)
  let h1 := loadU16 8 row ((j + 8) * 2)
  a.mla (load 4 q j) (load 4 q (j + 4)) (load 4 q (j + 8)) (load 4 q (j + 12))
    (cvt ∘ lowHalf h0) (cvt ∘ highHalf h0) (cvt ∘ lowHalf h1) (cvt ∘ highHalf h1)

/-- The row's squares of that round. -/
def neonSquares16 (row : ℕ → UInt8) (j : ℕ) (a : Acc4 R) : Acc4 R :=
  let h0 := loadU16 8 row (j * 2)
  let h1 := loadU16 8 row ((j + 8) * 2)
  a.mla (cvt ∘ lowHalf h0) (cvt ∘ highHalf h0) (cvt ∘ lowHalf h1) (cvt ∘ highHalf h1)
    (cvt ∘ lowHalf h0) (cvt ∘ highHalf h0) (cvt ∘ lowHalf h1) (cvt ∘ highHalf h1)

/-- The round of eight, on the first two accumulators. -/
def neonRound8 (q : ℕ → R) (row : ℕ → UInt8) (j : ℕ) (a : Acc4 R) : Acc4 R :=
  let h0 := loadU16 4 row (j * 2)
  let h1 := loadU16 4 row ((j + 4) * 2)
  { a with
    a0 := a.a0 + load 4 q j * (cvt ∘ h0)
    a1 := a.a1 + load 4 q (j + 4) * (cvt ∘ h1) }

/-- The row's squares of that round. -/
def neonSquares8 (row : ℕ → UInt8) (j : ℕ) (a : Acc4 R) : Acc4 R :=
  let h0 := loadU16 4 row (j * 2)
  let h1 := loadU16 4 row ((j + 4) * 2)
  { a with
    a0 := a.a0 + (cvt ∘ h0) * (cvt ∘ h0)
    a1 := a.a1 + (cvt ∘ h1) * (cvt ∘ h1) }

/-- `se_f16_bits_to_float(read_u16le(row + j * 2))`. -/
def halfAt (row : ℕ → UInt8) (j : ℕ) : R := real (seF16BitsToFloat (readU16le row (j * 2)))

/-- `dot_product_f16_neon`. -/
def dotProductF16Neon (q : ℕ → R) (row : ℕ → UInt8) (dim : ℕ) : Option R := do
  let (j, a) ← loop 64 16 dim (neonRound16 cvt q row) (rounds dim) 0 Acc4.zero
  let (j, a) ← loop 64 8 dim (neonRound8 cvt q row) (rounds dim) j a
  dotTail q (halfAt real row) dim j (vaddvq a.sumv)

/-- `dot_and_row_sq_f16_neon`. -/
def dotAndRowSqF16Neon (q : ℕ → R) (row : ℕ → UInt8) (dim : ℕ) : Option (R × R) := do
  let (j, s) ← loop 64 16 dim
    (fun j s => (neonRound16 cvt q row j s.1, neonSquares16 cvt row j s.2))
    (rounds dim) 0 (Acc4.zero, Acc4.zero)
  let (j, d, s) ← loop 64 8 dim
    (fun j s => (neonRound8 cvt q row j s.1, neonSquares8 cvt row j s.2)) (rounds dim) j s
  dotSqTail q (halfAt real row) dim j (vaddvq d.sumv) (vaddvq s.sumv)

/-- Eight halves, converted. -/
def cvtph (row : ℕ → UInt8) (p : ℕ) : Fin 8 → R := cvt ∘ loadU16 8 row p

/-- `dot_product_f16_f16c`. -/
def dotProductF16F16c (q : ℕ → R) (row : ℕ → UInt8) (dim : ℕ) : Option R := do
  let (j, a0, a1) ← loop 64 16 dim
    (fun j s => (s.1 + load 8 q j * cvtph cvt row (j * 2),
      s.2 + load 8 q (j + 8) * cvtph cvt row ((j + 8) * 2))) (rounds dim) 0 (0, 0)
  let (j, dot) ← loop 64 8 dim
    (fun j dot => dot + hsum256 (load 8 q j * cvtph cvt row (j * 2)))
    (rounds dim) j (hsum256 (a0 + a1))
  dotTail q (halfAt real row) dim j dot

/-- `dot_and_row_sq_f16_f16c`. -/
def dotAndRowSqF16F16c (q : ℕ → R) (row : ℕ → UInt8) (dim : ℕ) : Option (R × R) := do
  let (j, (d0, d1), s0, s1) ← loop 64 16 dim
    (fun j s =>
      let r0 := cvtph cvt row (j * 2)
      let r1 := cvtph cvt row ((j + 8) * 2)
      ((s.1.1 + load 8 q j * r0, s.1.2 + load 8 q (j + 8) * r1),
        (s.2.1 + r0 * r0, s.2.2 + r1 * r1))) (rounds dim) 0 ((0, 0), (0, 0))
  let (j, dot, rowSq) ← loop 64 8 dim
    (fun j s =>
      let r := cvtph cvt row (j * 2)
      (s.1 + hsum256 (load 8 q j * r), s.2 + hsum256 (r * r)))
    (rounds dim) j (hsum256 (d0 + d1), hsum256 (s0 + s1))
  dotSqTail q (halfAt real row) dim j dot rowSq

/-- `se_dot_product_f16`. -/
def seDotProductF16 (b : F16Backend) (q : ℕ → R) (row : ℕ → UInt8) (dim : ℕ) : Option R :=
  match b with
  | .neonFp16 => dotProductF16Neon cvt real q row dim
  | .f16c => dotProductF16F16c cvt real q row dim
  | .lut => dotProductF16Lut real q row dim

/-- `se_dot_and_row_sq_f16`. -/
def seDotAndRowSqF16 (b : F16Backend) (q : ℕ → R) (row : ℕ → UInt8) (dim : ℕ) : Option (R × R) :=
  match b with
  | .neonFp16 => dotAndRowSqF16Neon cvt real q row dim
  | .f16c => dotAndRowSqF16F16c cvt real q row dim
  | .lut => dotAndRowSqF16Lut real q row dim

end

/-! ## The vector loops -/

/-- The vector part of `sum_sq_d`, with an index of `uint32_t`. -/
def sumSqBlocks (b : F32Backend) (vec : ℕ → R) (dim : ℕ) : Option (ℕ × R) := do
  match b with
  | .neon true =>
    let (j, s0, s1) ← loop 32 8 dim
      (fun j s =>
        let a := load 4 vec j
        let b := load 4 vec (j + 4)
        let a0 : Fin 2 → R := ![a 0, a 1]
        let a1 : Fin 2 → R := ![a 2, a 3]
        let b0 : Fin 2 → R := ![b 0, b 1]
        let b1 : Fin 2 → R := ![b 2, b 3]
        (s.1 + a0 * a0 + b0 * b0, s.2 + a1 * a1 + b1 * b1)) (rounds dim) 0 (0, 0)
    return (j, (s0 + s1) 0 + (s0 + s1) 1)
  | .sse =>
    let (j, s0, s1) ← loop 32 4 dim
      (fun j s =>
        let v := load 4 vec j
        let lo : Fin 2 → R := ![v 0, v 1]
        let hi : Fin 2 → R := ![v 2, v 3]
        (s.1 + lo * lo, s.2 + hi * hi)) (rounds dim) 0 (0, 0)
    return (j, (s0 + s1) 0 + (s0 + s1) 1)
  | _ => return (0, 0)

/-- `sum_sq_d`. -/
def sumSqD (b : F32Backend) (vec : ℕ → R) (dim : ℕ) : Option R := do
  let (j, sum) ← sumSqBlocks b vec dim
  let (_, sum) ← loop 32 1 dim (fun j sum => sum + vec j * vec j) (rounds dim) j sum
  return sum

/-- The values `add_row` stores, from the addresses of its arguments. -/
def addedRow (acc row : ℕ) (c : ℕ → R) (j : ℕ) : R := c (acc + j) + c (row + j)

/-- The values `scale_copy` stores. -/
def scaledCopy (acc : ℕ) (inv : R) (c : ℕ → R) (j : ℕ) : R := c (acc + j) * inv

/-- Loads, computes and stores four components. -/
def store4 (out : ℕ) (val : (ℕ → R) → ℕ → R) (j : ℕ) (m : Memory R) : Memory R :=
  m.store (out + j) (load 4 (val m.cells) j)

/-- The four vector stores of a round. -/
def storeRound (out : ℕ) (val : (ℕ → R) → ℕ → R) (j : ℕ) (m : Memory R) : Memory R :=
  let m := store4 out val j m
  let m := store4 out val (j + 4) m
  let m := store4 out val (j + 8) m
  store4 out val (j + 12) m

/-- The vector part of `add_row` and `scale_copy`. -/
def mapBlocks (b : F32Backend) (out : ℕ) (val : (ℕ → R) → ℕ → R) (dim : ℕ) (m : Memory R) :
    Option (ℕ × Memory R) :=
  match b with
  | .scalar => some (0, m)
  | _ => loop 32 16 dim (storeRound out val) (rounds dim) 0 m

/-- The loops of `add_row` and `scale_copy`. -/
def mapRow (b : F32Backend) (out : ℕ) (val : (ℕ → R) → ℕ → R) (dim : ℕ) (m : Memory R) :
    Option (Memory R) := do
  let (j, m) ← mapBlocks b out val dim m
  let (_, m) ← loop 32 1 dim
    (fun j m => m.store (out + j) (load 1 (val m.cells) j)) (rounds dim) j m
  return m

/-- `add_row`. -/
def addRow (b : F32Backend) (acc row dim : ℕ) (m : Memory R) : Option (Memory R) :=
  mapRow b acc (addedRow acc row) dim m

/-- `scale_copy`. -/
def scaleCopy (b : F32Backend) (out acc dim : ℕ) (inv : R) (m : Memory R) : Option (Memory R) :=
  mapRow b out (scaledCopy acc inv) dim m

/-! ## Horizontal sums -/

theorem vaddvq_eq (v : Fin 4 → R) : vaddvq v = ∑ i, v i := by
  rw [vaddvq, Fin.sum_univ_four]
  ring

theorem horizontalSum_eq (b : F32Backend) (v : Fin 4 → R) : horizontalSum b v = ∑ i, v i := by
  unfold horizontalSum storedSum vaddvq vpaddHalves
  rw [Fin.sum_univ_four]
  split <;> ring

theorem hsum256_eq (v : Fin 8 → R) : hsum256 v = ∑ i, v i := by
  rw [hsum256, storedSum, Fin.sum_univ_eight]
  show (v 0 + v 4 + (v 1 + v 5) + (v 2 + v 6 + (v 3 + v 7))) = _
  ring

/-- What the four accumulators hold together. -/
def Acc4.total (a : Acc4 R) : R := ∑ i, a.a0 i + ∑ i, a.a1 i + (∑ i, a.a2 i + ∑ i, a.a3 i)

theorem Acc4.sum_sumv (a : Acc4 R) : ∑ i, a.sumv i = a.total := by
  simp only [Acc4.sumv, Acc4.total, Pi.add_apply, sum_add_distrib]

theorem Acc4.total_zero : (Acc4.zero : Acc4 R).total = 0 := by
  simp only [Acc4.total, Acc4.zero, Pi.zero_apply, sum_const_zero, add_zero]

/-! ## One round -/

section

variable {f : ℕ → R} {j : ℕ}

theorem laneStep_sum {n : ℕ} {s x y : Fin n → R} (h : ∑ i, s i = ∑ i ∈ range j, f i)
    (hxy : x * y = load n f j) : ∑ i, (s + x * y) i = ∑ i ∈ range (j + n), f i := by
  rw [← sum_lanes, ← h, hxy, ← sum_add_distrib]
  rfl

theorem Acc4.step_sum {a : Acc4 R} {x0 x1 x2 x3 y0 y1 y2 y3 : Fin 4 → R}
    (h : a.total = ∑ i ∈ range j, f i) (h0 : x0 * y0 = load 4 f j)
    (h1 : x1 * y1 = load 4 f (j + 4)) (h2 : x2 * y2 = load 4 f (j + 8))
    (h3 : x3 * y3 = load 4 f (j + 12)) :
    (a.mla x0 x1 x2 x3 y0 y1 y2 y3).total = ∑ i ∈ range (j + 16), f i := by
  have e0 := sum_lanes f j 4
  have e1 := sum_lanes f (j + 4) 4
  have e2 := sum_lanes f (j + 8) 4
  have e3 := sum_lanes f (j + 12) 4
  unfold Acc4.total at h ⊢
  simp only [Acc4.mla, h0, h1, h2, h3, Pi.add_apply, sum_add_distrib]
  linear_combination h + e0 + e1 + e2 + e3

theorem eightStep_sum {a : Acc4 R} {x0 x1 : Fin 4 → R}
    (h : a.total = ∑ i ∈ range j, f i) (h0 : x0 = load 4 f j) (h1 : x1 = load 4 f (j + 4)) :
    Acc4.total { a with a0 := a.a0 + x0, a1 := a.a1 + x1 } = ∑ i ∈ range (j + 8), f i := by
  have e0 := sum_lanes f j 4
  have e1 := sum_lanes f (j + 4) 4
  unfold Acc4.total at h ⊢
  simp only [h0, h1, Pi.add_apply, sum_add_distrib]
  linear_combination h + e0 + e1

theorem twoStep_sum {s : (Fin 8 → R) × (Fin 8 → R)} {x0 x1 : Fin 8 → R}
    (h : ∑ i, (s.1 + s.2) i = ∑ i ∈ range j, f i) (h0 : x0 = load 8 f j)
    (h1 : x1 = load 8 f (j + 8)) :
    ∑ i, ((s.1 + x0) + (s.2 + x1)) i = ∑ i ∈ range (j + 16), f i := by
  have e0 := sum_lanes f j 8
  have e1 := sum_lanes f (j + 8) 8
  simp only [h0, h1, Pi.add_apply, sum_add_distrib] at h ⊢
  linear_combination h + e0 + e1

theorem mla16_sum {q row : ℕ → R} {a : Acc4 R} (h : a.total = ∑ i ∈ range j, q i * row i) :
    (mla16 q row j a).total = ∑ i ∈ range (j + 16), q i * row i :=
  Acc4.step_sum h (load_mul 4 q row j) (load_mul 4 q row (j + 4)) (load_mul 4 q row (j + 8))
    (load_mul 4 q row (j + 12))

end

/-! ## Tails -/

section

variable {q row : ℕ → R} {dim j : ℕ}

theorem dotTail_eq (hdim : dim < 2 ^ 64) (hle : j ≤ dim) {dot : R}
    (h : dot = ∑ i ∈ range j, q i * row i) :
    dotTail q row dim j dot = some (∑ i ∈ range dim, q i * row i) := by
  refine bind_loop_one (fun j dot => dot = ∑ i ∈ range j, q i * row i) hdim hle h ?_ ?_
  · intro j s _ hs
    rw [sum_range_succ, hs]
  · intro s hs
    rw [← hs]
    rfl

theorem dotSqTail_eq (hdim : dim < 2 ^ 64) (hle : j ≤ dim) {dot rowSq : R}
    (h₁ : dot = ∑ i ∈ range j, q i * row i) (h₂ : rowSq = ∑ i ∈ range j, row i * row i) :
    dotSqTail q row dim j dot rowSq =
      some (∑ i ∈ range dim, q i * row i, ∑ i ∈ range dim, row i * row i) := by
  refine bind_loop_one (fun j s => s.1 = ∑ i ∈ range j, q i * row i ∧
    s.2 = ∑ i ∈ range j, row i * row i) hdim hle ⟨h₁, h₂⟩ ?_ ?_
  · rintro j s - ⟨hs₁, hs₂⟩
    rw [sum_range_succ, sum_range_succ, ← hs₁, ← hs₂]
    exact ⟨rfl, rfl⟩
  · rintro s ⟨hs₁, hs₂⟩
    rw [← hs₁, ← hs₂]
    rfl

/-! ## Products of floats -/

theorem seDotProductF32_eq (b : F32Backend) (q row : ℕ → R) (hdim : dim < 2 ^ 64) :
    seDotProductF32 b q row dim = some (∑ i ∈ range dim, q i * row i) := by
  have hvector : ∀ b : F32Backend, (do
      let (j, a) ← loop 64 16 dim (mla16 q row) (rounds dim) 0 Acc4.zero
      dotTail q row dim j (horizontalSum b a.sumv)) = some (∑ i ∈ range dim, q i * row i) := by
    intro b
    refine bind_loop (fun j a => a.total = ∑ i ∈ range j, q i * row i) (by norm_num) (by norm_num)
      hdim (dvd_zero 16) (Nat.zero_le dim) Acc4.total_zero (fun j a _ h => mla16_sum h) ?_
    intro j a _ hle h
    exact dotTail_eq hdim hle (by rw [horizontalSum_eq, a.sum_sumv, h])
  cases b with
  | scalar =>
    refine bind_loop (fun j s => ∑ i, s i = ∑ i ∈ range j, q i * row i) (by norm_num)
      (by norm_num) hdim (dvd_zero 8) (Nat.zero_le dim) sum_const_zero
      (fun j s _ h => laneStep_sum h (load_mul 8 q row j)) ?_
    intro j s _ hle h
    refine dotTail_eq hdim hle ?_
    rw [← h, Fin.sum_univ_eight]
    ring
  | sse => exact hvector .sse
  | neon aarch64 => exact hvector (.neon aarch64)

/-- What both collecting loops keep: dot product and squares up to `j`. -/
def DotSq {α β : Type*} (total₁ : α → R) (total₂ : β → R) (q row : ℕ → R) (j : ℕ) (s : α × β) :
    Prop :=
  total₁ s.1 = ∑ i ∈ range j, q i * row i ∧ total₂ s.2 = ∑ i ∈ range j, row i * row i

theorem sum_four {s : Fin 4 → R} {x : R} (h : ∑ i, s i = x) : (s 0 + s 1) + (s 2 + s 3) = x := by
  rw [← h, Fin.sum_univ_four]
  ring

theorem seDotAndRowSqF32_eq (b : F32Backend) (q row : ℕ → R) (hdim : dim < 2 ^ 64) :
    seDotAndRowSqF32 b q row dim =
      some (∑ i ∈ range dim, q i * row i, ∑ i ∈ range dim, row i * row i) := by
  have hvector : ∀ b : F32Backend, (do
      let (j, d, s) ← loop 64 16 dim (fun j s => (mla16 q row j s.1, mla16 row row j s.2))
        (rounds dim) 0 (Acc4.zero, Acc4.zero)
      dotSqTail q row dim j (horizontalSum b d.sumv) (horizontalSum b s.sumv)) =
      some (∑ i ∈ range dim, q i * row i, ∑ i ∈ range dim, row i * row i) := by
    intro b
    refine bind_loop (DotSq Acc4.total Acc4.total q row) (by norm_num) (by norm_num) hdim
      (dvd_zero 16) (Nat.zero_le dim) ⟨Acc4.total_zero, Acc4.total_zero⟩
      (fun j s _ h => ⟨mla16_sum h.1, mla16_sum h.2⟩) ?_
    rintro j ⟨d, s⟩ - hle ⟨h₁, h₂⟩
    refine dotSqTail_eq hdim hle ?_ ?_
    · rw [horizontalSum_eq, d.sum_sumv]
      exact h₁
    · rw [horizontalSum_eq, s.sum_sumv]
      exact h₂
  cases b with
  | scalar =>
    refine bind_loop (DotSq (fun s => ∑ i, s i) (fun s => ∑ i, s i) q row) (by norm_num)
      (by norm_num) hdim (dvd_zero 4) (Nat.zero_le dim) ⟨sum_const_zero, sum_const_zero⟩
      (fun j s _ h => ⟨laneStep_sum h.1 (load_mul 4 q row j),
        laneStep_sum h.2 (load_mul 4 row row j)⟩) ?_
    rintro j ⟨d, s⟩ - hle ⟨h₁, h₂⟩
    exact dotSqTail_eq hdim hle (sum_four h₁) (sum_four h₂)
  | sse => exact hvector .sse
  | neon aarch64 => exact hvector (.neon aarch64)

end

/-! ## Products with halves -/

theorem readU16le_lt (src : ℕ → UInt8) (p : ℕ) : readU16le src p < 2 ^ 16 := by
  have h₁ := (src p).toNat_lt
  have h₂ := (src (p + 1)).toNat_lt
  rw [readU16le, Nat.or_comm, Nat.shiftLeft_eq, mul_two_pow_or _ h₁]
  omega

theorem seF16Lut_eq (real : ℕ → R) (row : ℕ → UInt8) :
    (fun j => seF16Lut real (readU16le row (j * 2))) = halfAt real row := by
  funext j
  have := readU16le_lt row (j * 2)
  exact if_pos (by omega)

section

variable {cvt real : ℕ → R} {q : ℕ → R} {row : ℕ → UInt8} {dim j : ℕ}

section

omit [CommRing R]

theorem cvt_eq_load {n : ℕ} (hcvt : ∀ h < 2 ^ 16, cvt h = real (seF16BitsToFloat h))
    (p : Fin n → ℕ) (hp : ∀ i, p i = (j + i) * 2) :
    (cvt ∘ fun i => readU16le row (p i)) = load n (halfAt real row) j := by
  funext i
  rw [Function.comp_apply, hcvt _ (readU16le_lt row _), hp]
  rfl

variable (hcvt : ∀ h < 2 ^ 16, cvt h = real (seF16BitsToFloat h))
include hcvt

theorem cvt_loadU16 (n : ℕ) (row : ℕ → UInt8) (j : ℕ) :
    cvt ∘ loadU16 n row (j * 2) = load n (halfAt real row) j :=
  cvt_eq_load hcvt _ fun i => by ring

theorem cvt_lowHalf (row : ℕ → UInt8) (j : ℕ) :
    cvt ∘ lowHalf (loadU16 8 row (j * 2)) = load 4 (halfAt real row) j :=
  cvt_eq_load hcvt _ fun i => by ring

theorem cvt_highHalf (row : ℕ → UInt8) (j : ℕ) :
    cvt ∘ highHalf (loadU16 8 row (j * 2)) = load 4 (halfAt real row) (j + 4) :=
  cvt_eq_load hcvt _ fun i => by ring

theorem cvtph_eq (row : ℕ → UInt8) (j : ℕ) :
    cvtph cvt row (j * 2) = load 8 (halfAt real row) j := cvt_loadU16 hcvt 8 row j

end

section

variable (hcvt : ∀ h < 2 ^ 16, cvt h = real (seF16BitsToFloat h))
include hcvt

theorem neonRound16_sum {a : Acc4 R} (h : a.total = ∑ i ∈ range j, q i * halfAt real row i) :
    (neonRound16 cvt q row j a).total = ∑ i ∈ range (j + 16), q i * halfAt real row i := by
  refine Acc4.step_sum h ?_ ?_ ?_ ?_
  · rw [cvt_lowHalf hcvt, load_mul]
  · rw [cvt_highHalf hcvt, load_mul]
  · rw [cvt_lowHalf hcvt, load_mul]
  · rw [cvt_highHalf hcvt, load_mul]

theorem neonSquares16_sum {a : Acc4 R}
    (h : a.total = ∑ i ∈ range j, halfAt real row i * halfAt real row i) :
    (neonSquares16 cvt row j a).total =
      ∑ i ∈ range (j + 16), halfAt real row i * halfAt real row i := by
  refine Acc4.step_sum h ?_ ?_ ?_ ?_
  · rw [cvt_lowHalf hcvt, load_mul]
  · rw [cvt_highHalf hcvt, load_mul]
  · rw [cvt_lowHalf hcvt, load_mul]
  · rw [cvt_highHalf hcvt, load_mul]

theorem neonRound8_sum {a : Acc4 R} (h : a.total = ∑ i ∈ range j, q i * halfAt real row i) :
    (neonRound8 cvt q row j a).total = ∑ i ∈ range (j + 8), q i * halfAt real row i := by
  refine eightStep_sum h ?_ ?_
  · rw [cvt_loadU16 hcvt, load_mul]
  · rw [cvt_loadU16 hcvt, load_mul]

theorem neonSquares8_sum {a : Acc4 R}
    (h : a.total = ∑ i ∈ range j, halfAt real row i * halfAt real row i) :
    (neonSquares8 cvt row j a).total =
      ∑ i ∈ range (j + 8), halfAt real row i * halfAt real row i := by
  refine eightStep_sum h ?_ ?_
  · rw [cvt_loadU16 hcvt, load_mul]
  · rw [cvt_loadU16 hcvt, load_mul]

theorem dotProductF16Neon_eq (hdim : dim < 2 ^ 64) : dotProductF16Neon cvt real q row dim =
    some (∑ i ∈ range dim, q i * halfAt real row i) := by
  refine bind_loop (fun j a => a.total = ∑ i ∈ range j, q i * halfAt real row i) (by norm_num)
    (by norm_num) hdim (dvd_zero 16) (Nat.zero_le dim) Acc4.total_zero
    (fun j a _ h => neonRound16_sum hcvt h) ?_
  intro j a hdvd hle h
  -- A multiple of sixteen is one of eight.
  refine bind_loop (fun j a => a.total = ∑ i ∈ range j, q i * halfAt real row i) (by norm_num)
    (by norm_num) hdim (dvd_trans (by norm_num) hdvd) hle h
    (fun j a _ h => neonRound8_sum hcvt h) ?_
  intro j a _ hle h
  exact dotTail_eq hdim hle (by rw [vaddvq_eq, a.sum_sumv, h])

theorem dotAndRowSqF16Neon_eq (hdim : dim < 2 ^ 64) : dotAndRowSqF16Neon cvt real q row dim =
    some (∑ i ∈ range dim, q i * halfAt real row i,
      ∑ i ∈ range dim, halfAt real row i * halfAt real row i) := by
  refine bind_loop (DotSq Acc4.total Acc4.total q (halfAt real row)) (by norm_num) (by norm_num)
    hdim (dvd_zero 16) (Nat.zero_le dim) ⟨Acc4.total_zero, Acc4.total_zero⟩
    (fun j s _ h => ⟨neonRound16_sum hcvt h.1, neonSquares16_sum hcvt h.2⟩) ?_
  intro j s hdvd hle h
  refine bind_loop (DotSq Acc4.total Acc4.total q (halfAt real row)) (by norm_num) (by norm_num)
    hdim (dvd_trans (by norm_num) hdvd) hle h
    (fun j s _ h => ⟨neonRound8_sum hcvt h.1, neonSquares8_sum hcvt h.2⟩) ?_
  rintro j ⟨d, s⟩ - hle ⟨h₁, h₂⟩
  refine dotSqTail_eq hdim hle ?_ ?_
  · rw [vaddvq_eq, d.sum_sumv]
    exact h₁
  · rw [vaddvq_eq, s.sum_sumv]
    exact h₂

theorem dotProductF16F16c_eq (hdim : dim < 2 ^ 64) : dotProductF16F16c cvt real q row dim =
    some (∑ i ∈ range dim, q i * halfAt real row i) := by
  refine bind_loop (fun j s => ∑ i, (s.1 + s.2) i = ∑ i ∈ range j, q i * halfAt real row i)
    (by norm_num) (by norm_num) hdim (dvd_zero 16) (Nat.zero_le dim) ?_ ?_ ?_
  · rw [add_zero]
    exact sum_const_zero
  · intro j s _ h
    exact twoStep_sum h (by rw [cvtph_eq hcvt, load_mul]) (by rw [cvtph_eq hcvt, load_mul])
  rintro j ⟨a0, a1⟩ hdvd hle h
  refine bind_loop (fun j dot => dot = ∑ i ∈ range j, q i * halfAt real row i) (by norm_num)
    (by norm_num) hdim (dvd_trans (by norm_num) hdvd) hle ((hsum256_eq _).trans h) ?_ ?_
  · intro j dot _ h
    rw [cvtph_eq hcvt, load_mul, hsum256_eq, h, sum_lanes]
  · intro j dot _ hle h
    exact dotTail_eq hdim hle h

theorem dotAndRowSqF16F16c_eq (hdim : dim < 2 ^ 64) : dotAndRowSqF16F16c cvt real q row dim =
    some (∑ i ∈ range dim, q i * halfAt real row i,
      ∑ i ∈ range dim, halfAt real row i * halfAt real row i) := by
  refine bind_loop (DotSq (fun s : (Fin 8 → R) × (Fin 8 → R) => ∑ i, (s.1 + s.2) i)
    (fun s : (Fin 8 → R) × (Fin 8 → R) => ∑ i, (s.1 + s.2) i) q (halfAt real row)) (by norm_num)
    (by norm_num) hdim (dvd_zero 16) (Nat.zero_le dim) ?_ ?_ ?_
  · have hzero : ∑ i, ((0 : Fin 8 → R) + 0) i = 0 := by
      rw [add_zero]
      exact sum_const_zero
    exact ⟨hzero, hzero⟩
  · rintro j s - ⟨h₁, h₂⟩
    exact ⟨twoStep_sum h₁ (by rw [cvtph_eq hcvt, load_mul]) (by rw [cvtph_eq hcvt, load_mul]),
      twoStep_sum h₂ (by rw [cvtph_eq hcvt, load_mul]) (by rw [cvtph_eq hcvt, load_mul])⟩
  rintro j ⟨⟨d0, d1⟩, s0, s1⟩ hdvd hle ⟨h₁, h₂⟩
  refine bind_loop (DotSq id id q (halfAt real row)) (by norm_num) (by norm_num) hdim
    (dvd_trans (by norm_num) hdvd) hle ⟨(hsum256_eq _).trans h₁, (hsum256_eq _).trans h₂⟩ ?_ ?_
  · rintro j ⟨dot, rowSq⟩ - ⟨h₁, h₂⟩
    constructor
    · show dot + _ = _
      rw [cvtph_eq hcvt, load_mul, hsum256_eq, show dot = _ from h₁, sum_lanes]
    · show rowSq + _ = _
      rw [cvtph_eq hcvt, load_mul, hsum256_eq, show rowSq = _ from h₂, sum_lanes]
  · rintro j ⟨dot, rowSq⟩ - hle ⟨h₁, h₂⟩
    exact dotSqTail_eq hdim hle h₁ h₂

end

theorem dotProductF16Lut_eq (hdim : dim < 2 ^ 64) : dotProductF16Lut real q row dim =
    some (∑ i ∈ range dim, q i * halfAt real row i) := by
  unfold dotProductF16Lut
  simp only [seF16Lut_eq]
  refine bind_loop (fun j s => ∑ i, s i = ∑ i ∈ range j, q i * halfAt real row i) (by norm_num)
    (by norm_num) hdim (dvd_zero 4) (Nat.zero_le dim) sum_const_zero
    (fun j s _ h => laneStep_sum h (load_mul 4 q _ j)) ?_
  intro j s _ hle h
  exact dotTail_eq hdim hle (sum_four h)

theorem dotAndRowSqF16Lut_eq (hdim : dim < 2 ^ 64) : dotAndRowSqF16Lut real q row dim =
    some (∑ i ∈ range dim, q i * halfAt real row i,
      ∑ i ∈ range dim, halfAt real row i * halfAt real row i) := by
  unfold dotAndRowSqF16Lut
  simp only [seF16Lut_eq]
  refine bind_loop (DotSq (fun s => ∑ i, s i) (fun s => ∑ i, s i) q (halfAt real row))
    (by norm_num) (by norm_num) hdim (dvd_zero 4) (Nat.zero_le dim)
    ⟨sum_const_zero, sum_const_zero⟩
    (fun j s _ h => ⟨laneStep_sum h.1 (load_mul 4 q _ j), laneStep_sum h.2 (load_mul 4 _ _ j)⟩) ?_
  rintro j ⟨d, s⟩ - hle ⟨h₁, h₂⟩
  exact dotSqTail_eq hdim hle (sum_four h₁) (sum_four h₂)

end

/-! ## The vector loops -/

section

variable {vec : ℕ → R} {dim : ℕ}

theorem pairStep_sum {f : ℕ → R} {j : ℕ} {s0 s1 : Fin 2 → R} {v : Fin 4 → R} (hv : v = load 4 f j)
    (h : ∑ i, (s0 + s1) i = ∑ i ∈ range j, f i * f i) :
    ∑ i, ((s0 + ![v 0, v 1] * ![v 0, v 1]) + (s1 + ![v 2, v 3] * ![v 2, v 3])) i =
      ∑ i ∈ range (j + 4), f i * f i := by
  have e := sum_lanes (fun i => f i * f i) j 4
  rw [Fin.sum_univ_four] at e
  rw [Fin.sum_univ_two] at h ⊢
  rw [← e, ← h, hv]
  simp only [load, Pi.add_apply, Pi.mul_apply, Matrix.cons_val_zero, Matrix.cons_val_one]
  ring

theorem sumSqTail_eq (hdim : dim < 2 ^ 32) {j : ℕ} (hle : j ≤ dim) {sum : R}
    (h : sum = ∑ i ∈ range j, vec i * vec i) :
    (do let (_, sum) ← loop 32 1 dim (fun j sum => sum + vec j * vec j) (rounds dim) j sum
        return sum) = some (∑ i ∈ range dim, vec i * vec i) := by
  refine bind_loop_one (fun j sum => sum = ∑ i ∈ range j, vec i * vec i) hdim hle h ?_ ?_
  · intro j s _ hs
    rw [sum_range_succ, hs]
  · intro s hs
    rw [← hs]
    rfl

theorem sumSqD_eq (b : F32Backend) (vec : ℕ → R) (hdim : dim < 2 ^ 32) :
    sumSqD b vec dim = some (∑ i ∈ range dim, vec i * vec i) := by
  have hzero : ∑ i, ((0 : Fin 2 → R) + 0) i = 0 := by
    rw [add_zero]
    exact sum_const_zero
  unfold sumSqD sumSqBlocks
  match b with
  | .scalar => exact sumSqTail_eq hdim (Nat.zero_le dim) rfl
  | .neon false => exact sumSqTail_eq hdim (Nat.zero_le dim) rfl
  | .sse =>
    rw [bind_assoc]
    refine bind_loop (fun j s => ∑ i, (s.1 + s.2) i = ∑ i ∈ range j, vec i * vec i) (by norm_num)
      (by norm_num) hdim (dvd_zero 4) (Nat.zero_le dim) hzero
      (fun j s _ h => pairStep_sum rfl h) ?_
    intro j s _ hle h
    exact sumSqTail_eq hdim hle ((Fin.sum_univ_two _).symm.trans h)
  | .neon true =>
    rw [bind_assoc]
    refine bind_loop (fun j s => ∑ i, (s.1 + s.2) i = ∑ i ∈ range j, vec i * vec i) (by norm_num)
      (by norm_num) hdim (dvd_zero 8) (Nat.zero_le dim) hzero
      (fun j s _ h => pairStep_sum rfl (pairStep_sum rfl h)) ?_
    intro j s _ hle h
    exact sumSqTail_eq hdim hle ((Fin.sum_univ_two _).symm.trans h)

end

section

variable {out dim : ℕ} {val : (ℕ → R) → ℕ → R}

omit [CommRing R]

theorem storeRound_mapped (hval : Independent out dim val) {m₀ m : Memory R} {j : ℕ}
    (hle : j + 16 ≤ dim) (h : Mapped out val m₀ j m) :
    Mapped out val m₀ (j + 16) (storeRound out val j m) := by
  have h₁ := mapLoop_step hval (show j + 4 ≤ dim by omega) h
  have h₂ := mapLoop_step hval (show j + 4 + 4 ≤ dim by omega) h₁
  have h₃ := mapLoop_step hval (show j + 4 + 4 + 4 ≤ dim by omega) h₂
  exact mapLoop_step hval (show j + 4 + 4 + 4 + 4 ≤ dim by omega) h₃

/-- **Every component is stored once, from left to right.** -/
theorem mapRow_eq (b : F32Backend) (hval : Independent out dim val) (hdim : dim < 2 ^ 32)
    (m : Memory R) : ∃ m', mapRow b out val dim m = some m' ∧ Mapped out val m dim m' := by
  have htail : ∀ j ≤ dim, ∀ m₁, Mapped out val m j m₁ → ∃ m', (do
      let (_, m) ← loop 32 1 dim (fun j m => m.store (out + j) (load 1 (val m.cells) j))
        (rounds dim) j m₁
      return m) = some m' ∧ Mapped out val m dim m' := by
    intro j hle m₁ h
    obtain ⟨j', m', heq, -, h₁, h₂, hinv⟩ := loop_spec Nat.one_pos (one_dvd (2 ^ 32)) hdim
      (fun j m₂ hj h => mapLoop_step hval hj h) (one_dvd j) hle (show dim < dim + 1 + j by omega) h
    obtain rfl : j' = dim := by omega
    exact ⟨m', by rw [show rounds j' = j' + 1 from rfl, heq]; rfl, hinv⟩
  have hvector : ∃ m', (loop 32 16 dim (storeRound out val) (rounds dim) 0 m >>= fun r => do
      let (_, m) ← loop 32 1 dim (fun j m => m.store (out + j) (load 1 (val m.cells) j))
        (rounds dim) r.1 r.2
      return m) = some m' ∧ Mapped out val m dim m' := by
    obtain ⟨j, m₁, heq, -, hle, -, hinv⟩ := loop_spec (show 0 < 16 by norm_num)
      (show 16 ∣ 2 ^ 32 by norm_num) hdim (fun j m₁ hj h => storeRound_mapped hval hj h)
      (dvd_zero 16) (Nat.zero_le dim) (show dim < dim + 1 + 0 by omega) (mapped_zero out val m)
    rw [show rounds dim = dim + 1 from rfl, heq]
    exact htail j hle m₁ hinv
  cases b with
  | scalar => exact htail 0 (Nat.zero_le dim) m (mapped_zero out val m)
  | sse => exact hvector
  | neon aarch64 => exact hvector

end

/-- Two arrays of `dim` components are one array or do not overlap. -/
def SameOrApart (p p' dim : ℕ) : Prop := p = p' ∨ p + dim ≤ p' ∨ p' + dim ≤ p

theorem independent_addedRow {acc row dim : ℕ} (h : SameOrApart acc row dim) :
    Independent acc dim (addedRow (R := R) acc row) := by
  intro j hj c c' hc
  unfold SameOrApart at h
  rw [addedRow, addedRow, hc (acc + j) (by omega), hc (row + j) (by omega)]

theorem independent_scaledCopy {out acc dim : ℕ} (h : SameOrApart out acc dim) (inv : R) :
    Independent out dim (scaledCopy acc inv) := by
  intro j hj c c' hc
  unfold SameOrApart at h
  rw [scaledCopy, scaledCopy, hc (acc + j) (by omega)]

/-! ## Every kernel -/

/-- **Every kernel visits each component once**: on every instruction set the products and squares
are the plain sums, where `cvt` is the conversion instruction for halves, and the vector loops store
each component once with its new value. -/
theorem kernels_visit_once (cvt real : ℕ → R)
    (hcvt : ∀ h < 2 ^ 16, cvt h = real (seF16BitsToFloat h)) :
    (∀ (b : F32Backend) (q row : ℕ → R), ∀ dim < 2 ^ 64,
      seDotProductF32 b q row dim = some (∑ i ∈ range dim, q i * row i) ∧
      seDotAndRowSqF32 b q row dim =
        some (∑ i ∈ range dim, q i * row i, ∑ i ∈ range dim, row i ^ 2)) ∧
    (∀ (b : F16Backend) (q : ℕ → R) (row : ℕ → UInt8), ∀ dim < 2 ^ 64,
      seDotProductF16 cvt real b q row dim = some (∑ i ∈ range dim, q i * halfAt real row i) ∧
      seDotAndRowSqF16 cvt real b q row dim =
        some (∑ i ∈ range dim, q i * halfAt real row i, ∑ i ∈ range dim, halfAt real row i ^ 2)) ∧
    (∀ (b : F32Backend) (vec : ℕ → R), ∀ dim < 2 ^ 32,
      sumSqD b vec dim = some (∑ i ∈ range dim, vec i ^ 2)) ∧
    (∀ (b : F32Backend) (acc row : ℕ) (m : Memory R), ∀ dim < 2 ^ 32, SameOrApart acc row dim →
      ∃ m', addRow b acc row dim m = some m' ∧ Mapped acc (addedRow acc row) m dim m') ∧
    ∀ (b : F32Backend) (out acc : ℕ) (inv : R) (m : Memory R), ∀ dim < 2 ^ 32,
      SameOrApart out acc dim → ∃ m', scaleCopy b out acc dim inv m = some m' ∧
        Mapped out (scaledCopy acc inv) m dim m' := by
  simp only [sq]
  refine ⟨fun b q row dim hdim => ⟨seDotProductF32_eq b q row hdim, seDotAndRowSqF32_eq b q row hdim⟩,
    fun b q row dim hdim => ?_, fun b vec dim hdim => sumSqD_eq b vec hdim,
    fun b acc row m dim hdim h => mapRow_eq b (independent_addedRow h) hdim m,
    fun b out acc inv m dim hdim h => mapRow_eq b (independent_scaledCopy h inv) hdim m⟩
  cases b with
  | lut => exact ⟨dotProductF16Lut_eq hdim, dotAndRowSqF16Lut_eq hdim⟩
  | f16c => exact ⟨dotProductF16F16c_eq hcvt hdim, dotAndRowSqF16F16c_eq hcvt hdim⟩
  | neonFp16 => exact ⟨dotProductF16Neon_eq hcvt hdim, dotAndRowSqF16Neon_eq hcvt hdim⟩

/-- Twenty-seven components on three instruction sets, with halves valued by their magnitude. -/
theorem kernels_visit_once_sample :
    seDotProductF32 .sse (fun i => (i : ℤ)) (fun i => i + 1) 27 =
      some (∑ i ∈ range 27, (i : ℤ) * (i + 1)) ∧
    seDotProductF16 (fun h => (floatKey (seF16BitsToFloat h))) floatKey .neonFp16
        (fun i => (i : ℤ)) (fun i => UInt8.ofNat i) 27 =
      some (∑ i ∈ range 27, (i : ℤ) * halfAt floatKey (fun i => UInt8.ofNat i) i) ∧
    sumSqD (.neon true) (fun i => (i : ℤ)) 27 = some (∑ i ∈ range 27, (i : ℤ) ^ 2) := by
  have h := kernels_visit_once (fun h => floatKey (seF16BitsToFloat h)) floatKey fun _ _ => rfl
  exact ⟨(h.1 .sse _ _ 27 (by norm_num)).1, (h.2.1 .neonFp16 _ _ 27 (by norm_num)).1,
    h.2.2.1 (.neon true) _ 27 (by norm_num)⟩

end StaticEmbeddings
