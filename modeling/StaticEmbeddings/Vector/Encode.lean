import StaticEmbeddings.Lib.InPlace
import StaticEmbeddings.Lib.LittleEndian
import StaticEmbeddings.Sizes
import StaticEmbeddings.Vector.Half

/-!
# Halves in place

`se_encode_f16_from_floats` of `se_f16.c` and `binary_string_from_floats` of `static_embeddings.c`.

* `seEncodeF16FromFloats`, `binaryStringFromFloats`.
* `encodeF16_eq`: the loop is an encoding loop of `InPlace`.
* **`half_encoding_in_place`**: over the floats themselves it gives what it gives elsewhere.
-/

namespace StaticEmbeddings

open LittleEndian StridedLoop InPlace

/-- The bits of the float with these four bytes. -/
def floatBits : Bytes → ℕ
  | [b₀, b₁, b₂, b₃] => word32 b₀ b₁ b₂ b₃
  | _ => 0

/-- `write_u16le`. -/
def writeU16le (dst v : ℕ) (m : Traced) : Traced :=
  (m.store dst (UInt8.ofNat (v &&& 0xFF))).store (dst + 1) (UInt8.ofNat (v >>> 8))

/-- `se_encode_f16_from_floats`. -/
def seEncodeF16FromFloats (dst src count : ℕ) (m : Traced) : Option Traced := do
  let (_, m) ← loop 64 1 count (fun i m =>
    let (value, m) := m.load (src + i * 4) 4
    writeU16le (dst + i * 2) (seFloatToF16Bits (floatBits value)) m) (rounds count) 0 m
  return m

/-- `se_vector_format_t`. -/
inductive SeVectorFormat
  | f32 | f16
  deriving DecidableEq, Repr

/-- `se_vector_format_element_bytes`. -/
def SeVectorFormat.elementBytes : SeVectorFormat → ℕ
  | f32 => 4
  | f16 => 2

/-- `binary_string_from_floats`: the bytes of the string, or the message of the exception. -/
def binaryStringFromFloats (ptr count : ℕ) (format : SeVectorFormat) (m : Traced) :
    Option (Except String Bytes) :=
  match seCheckedMulSize count format.elementBytes with
  | none => some (.error "embedding output is too large")
  | some bytes =>
    if ¬ seSizeFitsLong bytes then some (.error "embedding output is too large")
    else match format with
      | .f32 => some (.ok (m.bytesAt ptr bytes))
      | .f16 => (seEncodeF16FromFloats ptr ptr count m).map fun m => .ok (m.bytesAt ptr bytes)

/-- The bits of float `i` at `p`. -/
def floatAt (m : Traced) (p i : ℕ) : ℕ := floatBits (m.bytesAt (p + 4 * i) 4)

/-- The two bytes of a half. -/
def halfBytes (half : ℕ) : Bytes := [UInt8.ofNat (half &&& 0xFF), UInt8.ofNat (half >>> 8)]

/-- The encoding of one element. -/
def encodeHalf (value : Bytes) : Bytes := halfBytes (seFloatToF16Bits (floatBits value))

theorem encodeF16_eq (dst src count : ℕ) (m : Traced) :
    seEncodeF16FromFloats dst src count m = encodeLoop encodeHalf 4 2 dst src count m := by
  have hbody : (fun i (m : Traced) =>
      let (value, m) := m.load (src + i * 4) 4
      writeU16le (dst + i * 2) (seFloatToF16Bits (floatBits value)) m) =
      encodeRound encodeHalf 4 2 dst src := by
    funext i m
    rw [Nat.mul_comm i 4, Nat.mul_comm i 2]
    rfl
  rw [seEncodeF16FromFloats, hbody]
  rfl

/-- **Halves in place**: the loop ends; the first `2 * count` bytes are the encodings of the original
floats in order, as in a separate buffer; nothing is stored to before it is read; and the string is
made of these bytes. -/
theorem half_encoding_in_place (p count : ℕ) (hcount : count < 2 ^ 64) (m₀ : Traced) :
    (∃ m, seEncodeF16FromFloats p p count m₀ = some m ∧
      m.bytesAt p (2 * count) =
        (List.range count).flatMap (fun i => halfBytes (seFloatToF16Bits (floatAt m₀ p i))) ∧
      (∀ dst, dst + 2 * count ≤ p ∨ p + 4 * count ≤ dst →
        ∃ m', seEncodeF16FromFloats dst p count m₀ = some m' ∧
          m'.bytesAt dst (2 * count) = m.bytesAt p (2 * count)) ∧
      ∃ log, m.log = m₀.log ++ log ∧ Ordered log) ∧
    binaryStringFromFloats p count .f16 m₀ =
      some (if 2 * count ≤ longMax then
        .ok ((List.range count).flatMap fun i => halfBytes (seFloatToF16Bits (floatAt m₀ p i)))
      else .error "embedding output is too large") := by
  have hlen : ∀ value, (encodeHalf value).length = 2 := fun _ => rfl
  have hsafe := safe_inPlace (show 2 ≤ 4 by decide) p count
  obtain ⟨m, hm, henc⟩ := encodeLoop_spec hlen hsafe hcount m₀
  rw [← encodeF16_eq] at hm
  have hbytes : m.bytesAt p (2 * count) =
      (List.range count).flatMap fun i => halfBytes (seFloatToF16Bits (floatAt m₀ p i)) :=
    henc.bytesAt
  refine ⟨⟨m, hm, hbytes, ?_, _, henc.log, log_ordered hsafe⟩, ?_⟩
  · intro dst hapart
    obtain ⟨m', hm', henc'⟩ := encodeLoop_spec hlen (safe_apart hapart) hcount m₀
    rw [← encodeF16_eq] at hm'
    exact ⟨m', hm', henc'.bytesAt.trans henc.bytesAt.symm⟩
  · rw [binaryStringFromFloats, SeVectorFormat.elementBytes, seCheckedMulSize_eq, Nat.mul_comm]
    by_cases hfit : 2 * count ≤ longMax
    · have hmax : 2 * count ≤ seSizeMax := le_trans hfit (by decide)
      rw [if_pos hmax, if_pos hfit]
      simp only [seSizeFitsLong, hfit, decide_true, not_true_eq_false, if_false, hm,
        Option.map_some, hbytes]
    · rw [if_neg hfit]
      by_cases hmax : 2 * count ≤ seSizeMax
      · rw [if_pos hmax]
        simp only [seSizeFitsLong, hfit, decide_false, Bool.false_eq_true, not_false_eq_true,
          if_true]
      · rw [if_neg hmax]

/-- Two floats, `1` and `-2`. -/
theorem half_encoding_in_place_sample :
    ∃ m, seEncodeF16FromFloats 0 0 2
        ⟨fun a => [0, 0, 0x80, 0x3F, 0, 0, 0, 0xC0].getD a 0, []⟩ = some m ∧
      m.bytesAt 0 4 = [0x00, 0x3C, 0x00, 0xC0] := by
  obtain ⟨⟨m, hm, hbytes, -⟩, -⟩ := half_encoding_in_place 0 2 (by norm_num)
    ⟨fun a => [0, 0, 0x80, 0x3F, 0, 0, 0, 0xC0].getD a 0, []⟩
  exact ⟨m, hm, hbytes.trans (by decide +kernel)⟩

end StaticEmbeddings
