import Mathlib.Data.Nat.Bitwise
import StaticEmbeddings.Lib.GridRounding

/-!
# Half-precision numbers

`se_float_to_f16_bits` and `se_f16_bits_to_float` of `se_f16.c` on bit patterns, and the exact values
of the patterns as integers.

* `seFloatToF16Bits`, `seF16BitsToFloat`.
* `floatMagnitude`: the value of a binary32 pattern without its sign, in units of `2⁻¹⁴⁹`;
  `floatKey`: with its sign.
* `halfGrid`: the binary16 values in units of `2⁻²⁴`; `floatMagnitude_decode`.
* **`roundsTo_encode`**: encoding rounds to that grid.
* `halfRounded_encode`, `encode_infinity`, `encode_nan`, `encode_mono`, `encode_decode`, and together
  **`half_encoding_rounds`**.
-/

namespace StaticEmbeddings

/-! ## The conversions -/

/-- `se_float_to_f16_bits`, from the bits of the float. -/
def seFloatToF16Bits (bits : ℕ) : ℕ :=
  let sign := bits >>> 16 &&& 0x8000
  let exp := bits >>> 23 &&& 0xFF
  let mant := bits &&& 0x7FFFFF
  if exp = 0xFF then
    if mant = 0 then (sign ||| 0x7C00) % 2 ^ 16
    else
      let mant := mant >>> 13
      (sign ||| 0x7C00 ||| mant ||| (if mant = 0 then 1 else 0)) % 2 ^ 16
  else
    let halfExp : ℤ := exp - 127 + 15
    if halfExp ≥ 31 then (sign ||| 0x7C00) % 2 ^ 16
    else if halfExp ≤ 0 then
      if halfExp < -10 then sign % 2 ^ 16
      else
        let mant := mant ||| 0x800000
        let shift := (14 - halfExp).toNat
        let rounded := (mant + 1 <<< (shift - 1)) >>> shift
        (sign ||| rounded) % 2 ^ 16
    else
      let mant := mant + 0x1000
      if mant &&& 0x800000 ≠ 0 then
        let halfExp := halfExp + 1
        if halfExp ≥ 31 then (sign ||| 0x7C00) % 2 ^ 16
        else (sign ||| halfExp.toNat <<< 10 ||| 0 >>> 13) % 2 ^ 16
      else (sign ||| halfExp.toNat <<< 10 ||| mant >>> 13) % 2 ^ 16

/-- `while ((mant & 0x0400u) == 0) { mant <<= 1; exp--; }`, which ends within ten rounds. -/
def halfNormalize : ℕ → ℕ → ℕ → ℕ × ℕ
  | 0, mant, exp => (mant, exp)
  | fuel + 1, mant, exp =>
    if mant &&& 0x400 = 0 then halfNormalize fuel (mant <<< 1) ((exp + 2 ^ 32 - 1) % 2 ^ 32)
    else (mant, exp)

/-- `se_f16_bits_to_float`, the bits of the float. -/
def seF16BitsToFloat (half : ℕ) : ℕ :=
  let sign := (half &&& 0x8000) <<< 16
  let exp := half >>> 10 &&& 0x1F
  let mant := half &&& 0x3FF
  if exp = 0 then
    if mant = 0 then sign
    else
      let r := halfNormalize 10 mant 1
      let mant := r.1 &&& 0x3FF
      sign ||| ((r.2 + (127 - 15)) % 2 ^ 32) <<< 23 ||| mant <<< 13
  else if exp = 31 then sign ||| 0x7F800000 ||| mant <<< 13
  else sign ||| (exp + (127 - 15)) <<< 23 ||| mant <<< 13

/-! ## Values -/

/-- The magnitude of a binary32 pattern in units of `2⁻¹⁴⁹`; that of an infinity is larger than all
others. -/
def floatMagnitude (bits : ℕ) : ℕ :=
  let exp := bits / 2 ^ 23 % 2 ^ 8
  let mant := bits % 2 ^ 23
  if exp = 0 then mant else (2 ^ 23 + mant) * 2 ^ (exp - 1)

/-- The sign bit of a binary32 pattern. -/
def floatSign (bits : ℕ) : ℕ := bits / 2 ^ 31 % 2

/-- The value of a binary32 pattern in units of `2⁻¹⁴⁹`. -/
def floatKey (bits : ℕ) : ℤ :=
  if floatSign bits = 1 then -(floatMagnitude bits : ℤ) else floatMagnitude bits

/-- NaN of binary32. -/
def FloatIsNan (bits : ℕ) : Prop := bits / 2 ^ 23 % 2 ^ 8 = 255 ∧ bits % 2 ^ 23 ≠ 0

/-- NaN of binary16. -/
def HalfIsNan (half : ℕ) : Prop := half / 2 ^ 10 % 2 ^ 5 = 31 ∧ half % 2 ^ 10 ≠ 0

instance : DecidablePred FloatIsNan := fun _ => by unfold FloatIsNan; infer_instance

instance : DecidablePred HalfIsNan := fun _ => by unfold HalfIsNan; infer_instance

/-- The first magnitude that rounds to infinity, `65520`. -/
abbrev overflowMagnitude : ℕ := 65520 * 2 ^ 149

/-- The value of the binary16 pattern `half < 2¹⁵` in units of `2⁻²⁴`, with `65536` for the pattern
of infinity. -/
def halfGrid (half : ℕ) : ℕ :=
  if half / 2 ^ 10 = 0 then half else (2 ^ 10 + half % 2 ^ 10) * 2 ^ (half / 2 ^ 10 - 1)

/-! ## Bits -/

theorem and_two_pow_eq (n i : ℕ) : n &&& 2 ^ i = n / 2 ^ i % 2 * 2 ^ i := by
  rw [Nat.and_two_pow, Nat.toNat_testBit]

theorem mul_two_pow_or {k x : ℕ} (a : ℕ) (h : x < 2 ^ k) : a * 2 ^ k ||| x = a * 2 ^ k + x := by
  rw [← Nat.shiftLeft_eq, Nat.shiftLeft_add_eq_or_of_lt h]

/-- The arithmetic of the rounding branches on exponent and mantissa. -/
def halfRound (exp mant : ℕ) : ℕ :=
  if 143 ≤ exp then 0x7C00
  else if exp ≤ 101 then 0
  else if exp ≤ 112 then (2 ^ 23 + mant + 2 ^ (125 - exp)) / 2 ^ (126 - exp)
  else (exp - 112) * 2 ^ 10 + (mant + 2 ^ 12) / 2 ^ 13

section

variable {bits : ℕ}

theorem sign_bits (bits : ℕ) : bits >>> 16 &&& 0x8000 = floatSign bits * 2 ^ 15 := by
  rw [show (0x8000 : ℕ) = 2 ^ 15 from rfl, and_two_pow_eq, Nat.shiftRight_eq_div_pow, floatSign]
  omega

theorem exp_bits (bits : ℕ) : bits >>> 23 &&& 0xFF = bits / 2 ^ 23 % 2 ^ 8 := by
  rw [show (0xFF : ℕ) = 2 ^ 8 - 1 from rfl, Nat.and_two_pow_sub_one_eq_mod,
    Nat.shiftRight_eq_div_pow]

theorem mant_bits (bits : ℕ) : bits &&& 0x7FFFFF = bits % 2 ^ 23 := by
  rw [show (0x7FFFFF : ℕ) = 2 ^ 23 - 1 from rfl, Nat.and_two_pow_sub_one_eq_mod]

theorem floatSign_lt (bits : ℕ) : floatSign bits < 2 := Nat.mod_lt _ (by norm_num)

theorem sign_or (bits : ℕ) {x : ℕ} (h : x < 2 ^ 15) :
    (floatSign bits * 2 ^ 15 ||| x) % 2 ^ 16 = floatSign bits * 2 ^ 15 + x := by
  rw [mul_two_pow_or _ h]
  have := floatSign_lt bits
  omega

theorem halfRound_subnormal_le {exp mant : ℕ} (h₁ : 101 < exp) (h₂ : exp ≤ 112)
    (hm : mant < 2 ^ 23) : (2 ^ 23 + mant + 2 ^ (125 - exp)) / 2 ^ (126 - exp) ≤ 2 ^ 10 := by
  have hp : 2 ^ (126 - exp) = 2 * 2 ^ (125 - exp) := by
    rw [← pow_succ', show 125 - exp + 1 = 126 - exp by omega]
  have hle : 2 ^ 13 ≤ 2 ^ (125 - exp) := Nat.pow_le_pow_right (by norm_num) (by omega)
  rw [hp]
  refine Nat.le_of_lt_succ (Nat.div_lt_of_lt_mul ?_)
  have : 2 ^ 13 * 2 ^ 10 ≤ 2 ^ (125 - exp) * 2 ^ 10 := Nat.mul_le_mul_right _ hle
  omega

theorem halfRound_le (exp : ℕ) {mant : ℕ} (hm : mant < 2 ^ 23) : halfRound exp mant ≤ 0x7C00 := by
  unfold halfRound
  split_ifs with h₁ h₂ h₃
  · exact le_rfl
  · exact Nat.zero_le _
  · have := halfRound_subnormal_le (by omega) h₃ hm
    omega
  · omega

/-- **The encoder keeps the sign and rounds the magnitude.** -/
theorem seFloatToF16Bits_eq (hn : ¬ FloatIsNan bits) : seFloatToF16Bits bits =
    floatSign bits * 2 ^ 15 + halfRound (bits / 2 ^ 23 % 2 ^ 8) (bits % 2 ^ 23) := by
  have hm : bits % 2 ^ 23 < 2 ^ 23 := Nat.mod_lt _ (by norm_num)
  have he : bits / 2 ^ 23 % 2 ^ 8 < 2 ^ 8 := Nat.mod_lt _ (by norm_num)
  unfold FloatIsNan at hn
  have hround := halfRound_le (bits / 2 ^ 23 % 2 ^ 8) hm
  unfold seFloatToF16Bits
  simp only [sign_bits, exp_bits, mant_bits]
  revert hn hround
  generalize bits / 2 ^ 23 % 2 ^ 8 = exp at he ⊢
  generalize bits % 2 ^ 23 = mant at hm ⊢
  intro hn hround
  by_cases h255 : exp = 0xFF
  · have hm0 : mant = 0 := by tauto
    rw [if_pos h255, if_pos hm0, sign_or _ (by norm_num), halfRound, if_pos (by omega)]
  rw [if_neg h255]
  by_cases h143 : 143 ≤ exp
  · rw [if_pos (by omega), sign_or _ (by norm_num), halfRound, if_pos h143]
  rw [if_neg (by omega)]
  by_cases h112 : exp ≤ 112
  · rw [if_pos (by omega)]
    by_cases h101 : exp ≤ 101
    · have := floatSign_lt bits
      rw [if_pos (by omega), halfRound, if_neg h143, if_pos h101]
      omega
    · have hshift : (14 - ((exp : ℤ) - 127 + 15)).toNat = 126 - exp := by omega
      have hmant : mant ||| 0x800000 = 2 ^ 23 + mant := by
        rw [Nat.or_comm, show (0x800000 : ℕ) = 1 * 2 ^ 23 from rfl, mul_two_pow_or 1 hm, one_mul]
      rw [if_neg (by omega), hshift, hmant, Nat.shiftRight_eq_div_pow, Nat.shiftLeft_eq, one_mul,
        show 126 - exp - 1 = 125 - exp by omega]
      have hle := halfRound_subnormal_le (by omega) h112 hm
      rw [sign_or _ (by omega), halfRound, if_neg h143, if_neg h101, if_pos h112]
  · rw [if_neg (by omega)]
    have hr : halfRound exp mant = (exp - 112) * 2 ^ 10 + (mant + 2 ^ 12) / 2 ^ 13 := by
      rw [halfRound, if_neg h143, if_neg (by omega), if_neg h112]
    have hbit : mant + 0x1000 &&& 0x800000 ≠ 0 ↔ 2 ^ 23 ≤ mant + 2 ^ 12 := by
      rw [show (0x800000 : ℕ) = 2 ^ 23 from rfl, and_two_pow_eq]
      omega
    by_cases hc : 2 ^ 23 ≤ mant + 2 ^ 12
    · rw [if_pos (hbit.mpr hc)]
      have hq : (mant + 2 ^ 12) / 2 ^ 13 = 2 ^ 10 := by omega
      by_cases h142 : (exp : ℤ) - 127 + 15 + 1 ≥ 31
      · rw [if_pos h142, sign_or _ (by norm_num), hr, hq]
        omega
      · have ht : ((exp : ℤ) - 127 + 15 + 1).toNat = exp - 111 := by omega
        rw [if_neg h142, ht, Nat.zero_shiftRight, Nat.or_zero, Nat.shiftLeft_eq,
          sign_or _ (by omega), hr, hq]
        omega
    · rw [if_neg (fun h => hc (hbit.mp h))]
      have ht : ((exp : ℤ) - 127 + 15).toNat = exp - 112 := by omega
      rw [ht, Nat.shiftRight_eq_div_pow, Nat.shiftLeft_eq, Nat.or_assoc,
        mul_two_pow_or _ (show (mant + 0x1000) / 2 ^ 13 < 2 ^ 10 by omega), sign_or _ (by omega), hr,
        show (0x1000 : ℕ) = 2 ^ 12 from rfl]

end

/-! ## The grid of the halves -/

theorem halfGrid_subnormal {f : ℕ} (hf : f ≤ 2 ^ 10) : halfGrid f = f := by
  unfold halfGrid
  obtain rfl | hlt := hf.eq_or_lt
  · decide
  · rw [if_pos (Nat.div_eq_of_lt hlt)]

theorem halfGrid_normal (e : ℕ) {f : ℕ} (hf : f ≤ 2 ^ 10) :
    halfGrid ((e + 1) * 2 ^ 10 + f) = (2 ^ 10 + f) * 2 ^ e := by
  unfold halfGrid
  obtain rfl | hlt := hf.eq_or_lt
  · rw [if_neg (by omega), show ((e + 1) * 2 ^ 10 + 2 ^ 10) % 2 ^ 10 = 0 by omega,
      show ((e + 1) * 2 ^ 10 + 2 ^ 10) / 2 ^ 10 - 1 = e + 1 by omega, pow_succ]
    ring
  · rw [if_neg (by omega), show ((e + 1) * 2 ^ 10 + f) % 2 ^ 10 = f by omega,
      show ((e + 1) * 2 ^ 10 + f) / 2 ^ 10 - 1 = e by omega]

theorem halfGrid_lt (i : ℕ) : halfGrid i < halfGrid (i + 1) := by
  by_cases h : i < 2 ^ 10
  · rw [halfGrid_subnormal h.le, halfGrid_subnormal h]
    exact Nat.lt_succ_self i
  · obtain ⟨e, f, hf, rfl⟩ : ∃ e f, f < 2 ^ 10 ∧ i = (e + 1) * 2 ^ 10 + f :=
      ⟨i / 2 ^ 10 - 1, i % 2 ^ 10, Nat.mod_lt _ (by norm_num), by omega⟩
    rw [halfGrid_normal e hf.le, add_assoc, halfGrid_normal e hf]
    exact Nat.mul_lt_mul_of_pos_right (by omega) (Nat.two_pow_pos e)

/-- The finite halves and infinity in the units of `floatMagnitude`. -/
def floatGrid (i : ℕ) : ℕ := halfGrid i * 2 ^ 125

theorem floatGrid_increasing : GridRounding.Increasing floatGrid 0x7C00 := fun i _ =>
  Nat.mul_lt_mul_of_pos_right (halfGrid_lt i) (Nat.two_pow_pos 125)

section

variable {exp mant : ℕ}

/-- The magnitude from exponent and mantissa. -/
abbrev magnitudeOf (exp mant : ℕ) : ℕ :=
  if exp = 0 then mant else (2 ^ 23 + mant) * 2 ^ (exp - 1)

theorem roundsTo_zero (hm : mant < 2 ^ 23) (he : exp ≤ 101) :
    GridRounding.RoundsTo floatGrid 0x7C00 (magnitudeOf exp mant) 0 := by
  refine ⟨Nat.zero_le _, .inl rfl, .inr ?_⟩
  have hlt : magnitudeOf exp mant < 2 ^ 24 * 2 ^ 100 := by
    unfold magnitudeOf
    split_ifs with h
    · omega
    · exact Nat.mul_lt_mul_of_lt_of_le (by omega)
        (Nat.pow_le_pow_right (by norm_num) (by omega)) (by norm_num)
  have hg : floatGrid 0 + floatGrid (0 + 1) = 2 ^ 125 := by
    simp only [floatGrid, halfGrid]
    norm_num
  rw [hg]
  omega

theorem roundsTo_subnormal (hm : mant < 2 ^ 23) (h₁ : 101 < exp) (h₂ : exp ≤ 112) :
    GridRounding.RoundsTo floatGrid 0x7C00 (magnitudeOf exp mant)
      ((2 ^ 23 + mant + 2 ^ (125 - exp)) / 2 ^ (126 - exp)) := by
  have hs : 2 ^ (126 - exp) = 2 * 2 ^ (125 - exp) := by
    rw [← pow_succ', show 125 - exp + 1 = 126 - exp by omega]
  have hu : 2 ^ 125 = 2 ^ (126 - exp) * 2 ^ (exp - 1) := by
    rw [← pow_add, show 126 - exp + (exp - 1) = 125 by omega]
  have hbig : 2 ^ 14 ≤ 2 ^ (126 - exp) := Nat.pow_le_pow_right (by norm_num) (by omega)
  have hmag : magnitudeOf exp mant = (2 ^ 23 + mant) * 2 ^ (exp - 1) := if_neg (by omega)
  have hpos := Nat.two_pow_pos (exp - 1)
  have hq := Nat.div_add_mod (2 ^ 23 + mant + 2 ^ (125 - exp)) (2 ^ (126 - exp))
  have hr := Nat.mod_lt (2 ^ 23 + mant + 2 ^ (125 - exp)) (Nat.two_pow_pos (126 - exp))
  rw [← Nat.zero_add (_ / _)]
  generalize (2 ^ 23 + mant + 2 ^ (125 - exp)) / 2 ^ (126 - exp) = h at *
  generalize (2 ^ 23 + mant + 2 ^ (125 - exp)) % 2 ^ (126 - exp) = r at *
  refine GridRounding.RoundsTo.segment (N := 2 ^ 10) (c := 0) (u := 2 ^ 125) floatGrid_increasing
    (by norm_num) (fun j hj => ?_) ?_ ?_ ?_ ?_
  · rw [floatGrid, zero_add, halfGrid_subnormal hj]
  · rw [zero_mul]
    exact Nat.zero_le _
  · rw [hmag, hu, zero_add, ← mul_assoc]
    exact Nat.mul_lt_mul_of_pos_right (by omega) hpos
  · rw [hmag, hu, zero_add]
    have : 2 * (h * 2 ^ (126 - exp)) ≤ 2 * (2 ^ 23 + mant) + 2 ^ (126 - exp) := by
      rw [mul_comm h]
      omega
    calc 2 * (h * (2 ^ (126 - exp) * 2 ^ (exp - 1)))
        = 2 * (h * 2 ^ (126 - exp)) * 2 ^ (exp - 1) := by ring
      _ ≤ (2 * (2 ^ 23 + mant) + 2 ^ (126 - exp)) * 2 ^ (exp - 1) := Nat.mul_le_mul_right _ this
      _ = _ := by ring
  · rw [hmag, hu, zero_add]
    have : 2 * (2 ^ 23 + mant) + 2 ^ (126 - exp) < 2 * ((h + 1) * 2 ^ (126 - exp)) := by
      rw [add_one_mul, mul_comm h]
      omega
    calc 2 * ((2 ^ 23 + mant) * 2 ^ (exp - 1)) + 2 ^ (126 - exp) * 2 ^ (exp - 1)
        = (2 * (2 ^ 23 + mant) + 2 ^ (126 - exp)) * 2 ^ (exp - 1) := by ring
      _ < 2 * ((h + 1) * 2 ^ (126 - exp)) * 2 ^ (exp - 1) := Nat.mul_lt_mul_of_pos_right this hpos
      _ = _ := by ring

theorem roundsTo_normal (hm : mant < 2 ^ 23) (h₁ : 112 < exp) (h₂ : exp ≤ 142) :
    GridRounding.RoundsTo floatGrid 0x7C00 (magnitudeOf exp mant)
      ((exp - 112) * 2 ^ 10 + (mant + 2 ^ 12) / 2 ^ 13) := by
  obtain ⟨k, rfl⟩ : ∃ k, exp = k + 113 := ⟨exp - 113, by omega⟩
  have hu : 2 ^ k * 2 ^ 125 = 2 ^ 13 * 2 ^ (k + 112) := by
    rw [← pow_add, ← pow_add, show 13 + (k + 112) = k + 125 by omega]
  have hmag : magnitudeOf (k + 113) mant = (2 ^ 23 + mant) * 2 ^ (k + 112) := if_neg (by omega)
  have hpos := Nat.two_pow_pos (k + 112)
  rw [show k + 113 - 112 = k + 1 by omega]
  generalize hh : (mant + 2 ^ 12) / 2 ^ 13 = h
  refine GridRounding.RoundsTo.segment (N := 2 ^ 10) (c := 2 ^ 10) (u := 2 ^ k * 2 ^ 125)
    floatGrid_increasing (by omega) (fun j hj => ?_) ?_ ?_ ?_ ?_
  · rw [floatGrid, halfGrid_normal k hj, mul_assoc]
  · rw [hmag, hu, ← mul_assoc]
    exact Nat.mul_le_mul_right _ (by omega)
  · rw [hmag, hu, ← mul_assoc]
    exact Nat.mul_lt_mul_of_pos_right (by omega) hpos
  · rw [hmag, hu]
    have : 2 * ((2 ^ 10 + h) * 2 ^ 13) ≤ 2 * (2 ^ 23 + mant) + 2 ^ 13 := by omega
    calc 2 * ((2 ^ 10 + h) * (2 ^ 13 * 2 ^ (k + 112)))
        = 2 * ((2 ^ 10 + h) * 2 ^ 13) * 2 ^ (k + 112) := by ring
      _ ≤ (2 * (2 ^ 23 + mant) + 2 ^ 13) * 2 ^ (k + 112) := Nat.mul_le_mul_right _ this
      _ = _ := by ring
  · rw [hmag, hu]
    have : 2 * (2 ^ 23 + mant) + 2 ^ 13 < 2 * ((2 ^ 10 + h + 1) * 2 ^ 13) := by omega
    calc 2 * ((2 ^ 23 + mant) * 2 ^ (k + 112)) + 2 ^ 13 * 2 ^ (k + 112)
        = (2 * (2 ^ 23 + mant) + 2 ^ 13) * 2 ^ (k + 112) := by ring
      _ < 2 * ((2 ^ 10 + h + 1) * 2 ^ 13) * 2 ^ (k + 112) := Nat.mul_lt_mul_of_pos_right this hpos
      _ = _ := by ring

/-- Infinity counts as `65536`, so that the midpoint below it is `65520`. -/
theorem floatGrid_infinity : floatGrid (0x7C00 - 1) + floatGrid 0x7C00 = 2 * overflowMagnitude := by
  decide

theorem roundsTo_infinity (he : 143 ≤ exp) :
    GridRounding.RoundsTo floatGrid 0x7C00 (magnitudeOf exp mant) 0x7C00 := by
  refine ⟨le_refl _, .inr ?_, .inl (Eq.refl _)⟩
  have hge : 2 ^ 23 * 2 ^ 142 ≤ magnitudeOf exp mant := by
    rw [magnitudeOf, if_neg (by omega)]
    exact Nat.mul_le_mul (by omega) (Nat.pow_le_pow_right (by norm_num) (by omega))
  rw [floatGrid_infinity]
  exact Nat.mul_le_mul_left 2 (le_trans (by norm_num) hge)

/-- **Encoding rounds the magnitude to the grid.** -/
theorem roundsTo_encode (exp : ℕ) (hm : mant < 2 ^ 23) :
    GridRounding.RoundsTo floatGrid 0x7C00 (magnitudeOf exp mant) (halfRound exp mant) := by
  unfold halfRound
  split_ifs with h₁ h₂ h₃
  · exact roundsTo_infinity h₁
  · exact roundsTo_zero hm h₂
  · exact roundsTo_subnormal hm (by omega) h₃
  · exact roundsTo_normal hm (by omega) (by omega)

end

/-! ## Decoding -/

/-- The normalisation loop shifts by `j` and counts them off the exponent. -/
theorem halfNormalize_eq {fuel mant exp : ℕ} (h₀ : 2 ^ 10 ≤ mant * 2 ^ fuel) (h₁ : mant < 2 ^ 11)
    (he : exp < 2 ^ 32) : ∃ j ≤ fuel, (halfNormalize fuel mant exp).1 = mant * 2 ^ j ∧
      2 ^ 10 ≤ mant * 2 ^ j ∧ mant * 2 ^ j < 2 ^ 11 ∧
      ((halfNormalize fuel mant exp).2 + j) % 2 ^ 32 = exp := by
  induction fuel generalizing mant exp with
  | zero =>
    rw [pow_zero, mul_one] at h₀
    exact ⟨0, le_rfl, (mul_one mant).symm, by omega, by omega, Nat.mod_eq_of_lt he⟩
  | succ fuel ih =>
    unfold halfNormalize
    have hbit : mant &&& 0x400 = 0 ↔ mant < 2 ^ 10 := by
      rw [show (0x400 : ℕ) = 2 ^ 10 from rfl, and_two_pow_eq]
      omega
    by_cases h : mant < 2 ^ 10
    · rw [if_pos (hbit.mpr h), Nat.shiftLeft_eq, pow_one]
      rw [pow_succ' 2 fuel, ← mul_assoc] at h₀
      obtain ⟨j, hj, e₁, hlo, hhi, e₂⟩ := ih h₀ (show mant * 2 < 2 ^ 11 by omega)
        (show (exp + 2 ^ 32 - 1) % 2 ^ 32 < 2 ^ 32 from Nat.mod_lt _ (by norm_num))
      have hpow : mant * 2 ^ (j + 1) = mant * 2 * 2 ^ j := by rw [pow_succ', ← mul_assoc]
      rw [← hpow] at e₁ hlo hhi
      exact ⟨j + 1, by omega, e₁, hlo, hhi, by omega⟩
    · rw [if_neg (fun h' => h (hbit.mp h'))]
      exact ⟨0, Nat.zero_le _, (mul_one mant).symm, by omega, by omega, Nat.mod_eq_of_lt he⟩

theorem half_sign (half : ℕ) : (half &&& 0x8000) <<< 16 = half / 2 ^ 15 % 2 * 2 ^ 31 := by
  rw [show (0x8000 : ℕ) = 2 ^ 15 from rfl, and_two_pow_eq, Nat.shiftLeft_eq]
  omega

theorem half_exp (half : ℕ) : half >>> 10 &&& 0x1F = half / 2 ^ 10 % 2 ^ 5 := by
  rw [show (0x1F : ℕ) = 2 ^ 5 - 1 from rfl, Nat.and_two_pow_sub_one_eq_mod,
    Nat.shiftRight_eq_div_pow]

theorem half_mant (half : ℕ) : half &&& 0x3FF = half % 2 ^ 10 := by
  rw [show (0x3FF : ℕ) = 2 ^ 10 - 1 from rfl, Nat.and_two_pow_sub_one_eq_mod]

theorem float_or {s e f : ℕ} (he : e < 2 ^ 8) (hf : f < 2 ^ 10) :
    s * 2 ^ 31 ||| e <<< 23 ||| f <<< 13 = s * 2 ^ 31 + e * 2 ^ 23 + f * 2 ^ 13 := by
  rw [Nat.shiftLeft_eq, Nat.shiftLeft_eq, Nat.or_assoc, mul_two_pow_or e (by omega),
    mul_two_pow_or s (by omega), add_assoc]

/-- **What the decoder returns**: the sign, and an exponent and a mantissa of the same value. -/
theorem seF16BitsToFloat_eq (half : ℕ) : ∃ e f, e < 2 ^ 8 ∧ f < 2 ^ 23 ∧
    seF16BitsToFloat half = half / 2 ^ 15 % 2 * 2 ^ 31 + e * 2 ^ 23 + f ∧
    (half % 2 ^ 15 < 0x7C00 → e ≠ 255 ∧ magnitudeOf e f = floatGrid (half % 2 ^ 15)) ∧
    (0x7C00 ≤ half % 2 ^ 15 → e = 255 ∧ f = half % 2 ^ 10 * 2 ^ 13) := by
  have hm : half % 2 ^ 10 < 2 ^ 10 := Nat.mod_lt _ (by norm_num)
  have hx : half / 2 ^ 10 % 2 ^ 5 < 2 ^ 5 := Nat.mod_lt _ (by norm_num)
  have hsplit : half % 2 ^ 15 = half / 2 ^ 10 % 2 ^ 5 * 2 ^ 10 + half % 2 ^ 10 := by omega
  unfold seF16BitsToFloat
  simp only [half_sign, half_exp, half_mant]
  rw [hsplit]
  generalize half / 2 ^ 10 % 2 ^ 5 = exp at hx ⊢
  generalize half % 2 ^ 10 = mant at hm ⊢
  generalize half / 2 ^ 15 % 2 = s
  by_cases h0 : exp = 0
  · subst h0
    rw [if_pos rfl, Nat.zero_mul, Nat.zero_add]
    by_cases hm0 : mant = 0
    · subst hm0
      rw [if_pos rfl]
      exact ⟨0, 0, by norm_num, by norm_num, by omega, fun _ => ⟨by norm_num, by decide⟩,
        fun h => by omega⟩
    · rw [if_neg hm0]
      obtain ⟨j, hj, e₁, hlo, hhi, e₂⟩ := @halfNormalize_eq 10 mant 1 (by omega) (by omega)
        (by norm_num)
      rw [e₁, show (127 - 15 : ℕ) = 112 from rfl,
        show ((halfNormalize 10 mant 1).2 + 112) % 2 ^ 32 = 113 - j by omega,
        float_or (by omega) (Nat.mod_lt _ (by norm_num))]
      refine ⟨113 - j, mant * 2 ^ j % 2 ^ 10 * 2 ^ 13, by omega, by omega, rfl, fun _ => ?_,
        fun h => by omega⟩
      have hval : 2 ^ 23 + mant * 2 ^ j % 2 ^ 10 * 2 ^ 13 = mant * 2 ^ j * 2 ^ 13 := by omega
      refine ⟨by omega, ?_⟩
      rw [magnitudeOf, if_neg (by omega), hval, floatGrid, halfGrid_subnormal hm.le, mul_assoc,
        mul_assoc, ← pow_add, ← pow_add, show j + (13 + (113 - j - 1)) = 125 by omega]
  rw [if_neg h0]
  by_cases h31 : exp = 31
  · subst h31
    rw [if_pos rfl, show (0x7F800000 : ℕ) = 255 <<< 23 from rfl, float_or (by norm_num) hm]
    exact ⟨255, mant * 2 ^ 13, by norm_num, by omega, rfl, fun h => by omega,
      fun _ => ⟨rfl, rfl⟩⟩
  · rw [if_neg h31, show (127 - 15 : ℕ) = 112 from rfl, float_or (by omega) hm]
    refine ⟨exp + 112, mant * 2 ^ 13, by omega, by omega, rfl, fun _ => ⟨by omega, ?_⟩,
      fun h => by omega⟩
    obtain ⟨k, rfl⟩ : ∃ k, exp = k + 1 := ⟨exp - 1, by omega⟩
    rw [magnitudeOf, if_neg (by omega), floatGrid, halfGrid_normal k hm.le,
      show 2 ^ 23 + mant * 2 ^ 13 = (2 ^ 10 + mant) * 2 ^ 13 by ring, mul_assoc, mul_assoc,
      ← pow_add, ← pow_add, show 13 + (k + 1 + 112 - 1) = k + 125 by omega]

theorem floatMagnitude_eq (bits : ℕ) :
    floatMagnitude bits = magnitudeOf (bits / 2 ^ 23 % 2 ^ 8) (bits % 2 ^ 23) := rfl

theorem floatSign_decode (half : ℕ) : floatSign (seF16BitsToFloat half) = half / 2 ^ 15 % 2 := by
  obtain ⟨e, f, he, hf, heq, -, -⟩ := seF16BitsToFloat_eq half
  rw [heq, floatSign]
  omega

theorem floatMagnitude_decode {half : ℕ} (h : half % 2 ^ 15 < 0x7C00) :
    floatMagnitude (seF16BitsToFloat half) = floatGrid (half % 2 ^ 15) := by
  obtain ⟨e, f, he, hf, heq, hfin, -⟩ := seF16BitsToFloat_eq half
  rw [floatMagnitude_eq, heq, ← (hfin h).2]
  congr 1 <;> omega

theorem floatMagnitude_decode_infinity {half : ℕ} (h : half % 2 ^ 15 = 0x7C00) :
    floatMagnitude (seF16BitsToFloat half) = 2 ^ 23 * 2 ^ 254 := by
  obtain ⟨e, f, he, hf, heq, -, hinf⟩ := seF16BitsToFloat_eq half
  obtain ⟨rfl, hf0⟩ := hinf h.ge
  rw [floatMagnitude_eq, heq,
    show (half / 2 ^ 15 % 2 * 2 ^ 31 + 255 * 2 ^ 23 + f) / 2 ^ 23 % 2 ^ 8 = 255 by omega,
    show (half / 2 ^ 15 % 2 * 2 ^ 31 + 255 * 2 ^ 23 + f) % 2 ^ 23 = 0 by omega]
  exact if_neg (by norm_num)

theorem floatMagnitude_decode_mono {h₁ h₂ : ℕ} (hle : h₁ % 2 ^ 15 ≤ h₂ % 2 ^ 15)
    (h : h₂ % 2 ^ 15 ≤ 0x7C00) :
    floatMagnitude (seF16BitsToFloat h₁) ≤ floatMagnitude (seF16BitsToFloat h₂) := by
  obtain heq | hlt := h.eq_or_lt
  · rw [floatMagnitude_decode_infinity heq]
    obtain heq' | hlt' := (hle.trans h).eq_or_lt
    · rw [floatMagnitude_decode_infinity heq']
    · rw [floatMagnitude_decode hlt']
      have hg := floatGrid_increasing.le (show h₁ % 2 ^ 15 ≤ 0x7C00 - 1 by omega)
        (Nat.sub_le 0x7C00 1)
      have hsum := floatGrid_infinity
      have hbig : 2 * overflowMagnitude ≤ 2 ^ 23 * 2 ^ 254 := by norm_num
      generalize floatGrid 0x7C00 = x at hsum
      generalize floatGrid (0x7C00 - 1) = y at hsum hg
      omega
  · rw [floatMagnitude_decode hlt, floatMagnitude_decode (hle.trans_lt hlt)]
    exact floatGrid_increasing.le hle h

/-! ## Encoding -/

/-- The encoded pattern without its sign. -/
abbrev encodedMagnitude (bits : ℕ) : ℕ := halfRound (bits / 2 ^ 23 % 2 ^ 8) (bits % 2 ^ 23)

theorem encodedMagnitude_le (bits : ℕ) : encodedMagnitude bits ≤ 0x7C00 :=
  halfRound_le _ (Nat.mod_lt _ (by norm_num))

theorem roundsTo_encodedMagnitude (bits : ℕ) :
    GridRounding.RoundsTo floatGrid 0x7C00 (floatMagnitude bits) (encodedMagnitude bits) :=
  roundsTo_encode _ (Nat.mod_lt _ (by norm_num))

theorem encode_mod {bits : ℕ} (hn : ¬ FloatIsNan bits) :
    seFloatToF16Bits bits % 2 ^ 15 = encodedMagnitude bits := by
  have := encodedMagnitude_le bits
  rw [seFloatToF16Bits_eq hn]
  unfold encodedMagnitude at *
  omega

theorem encode_div {bits : ℕ} (hn : ¬ FloatIsNan bits) :
    seFloatToF16Bits bits / 2 ^ 15 = floatSign bits := by
  have := encodedMagnitude_le bits
  rw [seFloatToF16Bits_eq hn]
  unfold encodedMagnitude at *
  omega

theorem encodedMagnitude_lt_iff (bits : ℕ) :
    encodedMagnitude bits < 0x7C00 ↔ floatMagnitude bits < overflowMagnitude := by
  have hr := roundsTo_encodedMagnitude bits
  have hsum := floatGrid_infinity
  constructor
  · intro h
    have hup := hr.upper.resolve_left h.ne
    have h₁ := floatGrid_increasing.le (show encodedMagnitude bits ≤ 0x7C00 - 1 by omega)
      (Nat.sub_le _ _)
    have h₂ := floatGrid_increasing.le (show encodedMagnitude bits + 1 ≤ 0x7C00 by omega) le_rfl
    generalize floatGrid 0x7C00 = x at *
    generalize floatGrid (0x7C00 - 1) = y at *
    omega
  · intro h
    refine lt_of_le_of_ne (encodedMagnitude_le bits) fun heq => ?_
    have hlow := hr.lower.resolve_left (by omega)
    rw [heq, hsum] at hlow
    omega

theorem not_floatIsNan_of_lt {bits : ℕ} (h : floatMagnitude bits < overflowMagnitude) :
    ¬ FloatIsNan bits := by
  intro hn
  refine absurd h (not_lt.mpr ?_)
  rw [floatMagnitude_eq, hn.1, magnitudeOf, if_neg (by norm_num)]
  have : 2 ^ 23 * 2 ^ (255 - 1) ≤ (2 ^ 23 + bits % 2 ^ 23) * 2 ^ (255 - 1) :=
    Nat.mul_le_mul_right _ (Nat.le_add_right _ _)
  exact le_trans (by norm_num) this

theorem abs_floatKey_sub_of_eq {a b : ℕ} (h : floatSign a = floatSign b) :
    |floatKey a - floatKey b| = |(floatMagnitude a : ℤ) - floatMagnitude b| := by
  unfold floatKey
  rw [h]
  split_ifs
  · rw [neg_sub_neg, abs_sub_comm]
  · rfl

theorem abs_floatKey_sub_of_ne {a b : ℕ} (h : floatSign a ≠ floatSign b) :
    |floatKey a - floatKey b| = floatMagnitude a + floatMagnitude b := by
  have ha := floatSign_lt a
  have hb := floatSign_lt b
  unfold floatKey
  by_cases h₁ : floatSign a = 1
  · rw [if_pos h₁, if_neg (by omega), abs_of_nonpos (by omega)]
    ring
  · rw [if_neg h₁, if_pos (by omega), abs_of_nonneg (by omega)]
    ring

/-- `half` is what `bits` rounds to: a finite half of the same sign, nearest among all finite halves,
and of the largest magnitude among those as near. -/
structure HalfRounded (bits half : ℕ) : Prop where
  bound : half < 2 ^ 16
  finite : half / 2 ^ 10 % 2 ^ 5 ≠ 31
  sign : half / 2 ^ 15 = floatSign bits
  nearest : ∀ h < 2 ^ 16, h / 2 ^ 10 % 2 ^ 5 ≠ 31 →
    |floatKey bits - floatKey (seF16BitsToFloat half)| ≤
      |floatKey bits - floatKey (seF16BitsToFloat h)|
  ties : ∀ h < 2 ^ 16, h / 2 ^ 10 % 2 ^ 5 ≠ 31 →
    |floatKey bits - floatKey (seF16BitsToFloat half)| =
      |floatKey bits - floatKey (seF16BitsToFloat h)| →
    floatMagnitude (seF16BitsToFloat h) ≤ floatMagnitude (seF16BitsToFloat half)

theorem halfRounded_encode {bits : ℕ} (h : floatMagnitude bits < overflowMagnitude) :
    HalfRounded bits (seFloatToF16Bits bits) := by
  have hn := not_floatIsNan_of_lt h
  have hlt := (encodedMagnitude_lt_iff bits).mpr h
  have hmod := encode_mod hn
  have hdiv := encode_div hn
  have hs := floatSign_lt bits
  have hr := roundsTo_encodedMagnitude bits
  have hmag : floatMagnitude (seF16BitsToFloat (seFloatToF16Bits bits)) =
      floatGrid (encodedMagnitude bits) := by
    rw [floatMagnitude_decode (by rwa [hmod]), hmod]
  have hsign : floatSign bits = floatSign (seF16BitsToFloat (seFloatToF16Bits bits)) := by
    rw [floatSign_decode, hdiv, Nat.mod_eq_of_lt hs]
  -- A half of the other sign is no nearer than zero.
  have hkey : ∀ half, half / 2 ^ 10 % 2 ^ 5 ≠ 31 →
      |floatKey bits - floatKey (seF16BitsToFloat (seFloatToF16Bits bits))| ≤
        |floatKey bits - floatKey (seF16BitsToFloat half)| ∧
      (|floatKey bits - floatKey (seF16BitsToFloat (seFloatToF16Bits bits))| =
        |floatKey bits - floatKey (seF16BitsToFloat half)| →
        floatMagnitude (seF16BitsToFloat half) ≤
          floatMagnitude (seF16BitsToFloat (seFloatToF16Bits bits))) := by
    intro half hfin
    have hhalf : half % 2 ^ 15 < 0x7C00 := by omega
    rw [abs_floatKey_sub_of_eq hsign, hmag]
    by_cases hsame : floatSign bits = floatSign (seF16BitsToFloat half)
    · rw [abs_floatKey_sub_of_eq hsame, floatMagnitude_decode hhalf]
      have := hr.nearest floatGrid_increasing hhalf.le
      exact ⟨this.1, fun he => this.2 he⟩
    · rw [abs_floatKey_sub_of_ne hsame]
      have hzero := (hr.nearest floatGrid_increasing (Nat.zero_le _)).1
      rw [show floatGrid 0 = 0 by decide, Nat.cast_zero, sub_zero, Nat.abs_cast] at hzero
      have hx := Int.natCast_nonneg (floatMagnitude (seF16BitsToFloat half))
      have hg := Int.natCast_nonneg (floatGrid (encodedMagnitude bits))
      refine ⟨by linarith only [hzero, hx], fun he => ?_⟩
      exact_mod_cast show (floatMagnitude (seF16BitsToFloat half) : ℤ) ≤
        floatGrid (encodedMagnitude bits) by linarith only [hzero, hg, he]
  exact ⟨by omega, by omega, hdiv, fun half _ hfin => (hkey half hfin).1,
    fun half _ hfin => (hkey half hfin).2⟩

theorem encode_infinity {bits : ℕ} (hn : ¬ FloatIsNan bits)
    (h : overflowMagnitude ≤ floatMagnitude bits) :
    seFloatToF16Bits bits = floatSign bits * 2 ^ 15 + 0x7C00 := by
  have hle := encodedMagnitude_le bits
  have hge := not_lt.mp (fun hlt => absurd ((encodedMagnitude_lt_iff bits).mp hlt) (not_lt.mpr h))
  rw [seFloatToF16Bits_eq hn]
  unfold encodedMagnitude at *
  omega

theorem encode_nan {bits : ℕ} (hn : FloatIsNan bits) : HalfIsNan (seFloatToF16Bits bits) := by
  obtain ⟨hexp, hmant⟩ := hn
  have hm : bits % 2 ^ 23 / 2 ^ 13 < 2 ^ 10 := by omega
  unfold seFloatToF16Bits
  simp only [sign_bits, exp_bits, mant_bits]
  rw [if_pos hexp, if_neg hmant, Nat.shiftRight_eq_div_pow, Nat.or_assoc, Nat.or_assoc]
  generalize bits % 2 ^ 23 / 2 ^ 13 = m at hm ⊢
  have hor : (m ||| if m = 0 then 1 else 0) = if m = 0 then 1 else m := by
    split_ifs with h
    · rw [h, Nat.zero_or]
    · exact Nat.or_zero m
  have hlt : (if m = 0 then 1 else m) < 2 ^ 10 := by split_ifs <;> omega
  have hne : (if m = 0 then 1 else m) ≠ 0 := by split_ifs <;> omega
  rw [hor]
  generalize (if m = 0 then 1 else m) = x at hlt hne ⊢
  rw [show (0x7C00 : ℕ) = 31 * 2 ^ 10 from rfl, mul_two_pow_or 31 hlt, sign_or _ (by omega)]
  exact ⟨by omega, by omega⟩

theorem encode_mono {a b : ℕ} (ha : ¬ FloatIsNan a) (hb : ¬ FloatIsNan b)
    (hab : floatKey a ≤ floatKey b) : floatKey (seF16BitsToFloat (seFloatToF16Bits a)) ≤
      floatKey (seF16BitsToFloat (seFloatToF16Bits b)) := by
  have hmono : ∀ {x y : ℕ}, ¬ FloatIsNan x → ¬ FloatIsNan y → floatMagnitude x ≤ floatMagnitude y →
      floatMagnitude (seF16BitsToFloat (seFloatToF16Bits x)) ≤
        floatMagnitude (seF16BitsToFloat (seFloatToF16Bits y)) := by
    intro x y hx hy hxy
    apply floatMagnitude_decode_mono
    · rw [encode_mod hx, encode_mod hy]
      exact (roundsTo_encodedMagnitude x).mono floatGrid_increasing (roundsTo_encodedMagnitude y) hxy
    · rw [encode_mod hy]
      exact encodedMagnitude_le y
  have hsign : ∀ {x : ℕ}, ¬ FloatIsNan x →
      floatSign (seF16BitsToFloat (seFloatToF16Bits x)) = floatSign x := by
    intro x hx
    rw [floatSign_decode, encode_div hx, Nat.mod_eq_of_lt (floatSign_lt x)]
  have hsa := floatSign_lt a
  have hsb := floatSign_lt b
  unfold floatKey at hab ⊢
  rw [hsign ha, hsign hb]
  split_ifs at hab ⊢ with h₁ h₂ h₂
  · have := hmono hb ha (by omega)
    omega
  · omega
  · have h₃ := hmono ha hb (by omega)
    have h₄ := hmono hb ha (by omega)
    have hz := (roundsTo_encodedMagnitude b).mono floatGrid_increasing
      (GridRounding.RoundsTo.exact floatGrid_increasing (Nat.zero_le _))
      (show floatMagnitude b ≤ floatGrid 0 by omega)
    have h₅ := @floatMagnitude_decode (seFloatToF16Bits b) (by rw [encode_mod hb]; omega)
    rw [encode_mod hb, Nat.le_zero.mp hz, show floatGrid 0 = 0 by decide] at h₅
    omega
  · have := hmono ha hb (by omega)
    omega

theorem encode_decode {half : ℕ} (hh : half < 2 ^ 16) (hn : ¬ HalfIsNan half) :
    seFloatToF16Bits (seF16BitsToFloat half) = half := by
  obtain ⟨e, f, he, hf, heq, hfin, hinf⟩ := seF16BitsToFloat_eq half
  have hexp : seF16BitsToFloat half / 2 ^ 23 % 2 ^ 8 = e := by omega
  have hmant : seF16BitsToFloat half % 2 ^ 23 = f := by omega
  unfold HalfIsNan at hn
  have hnan : ¬ FloatIsNan (seF16BitsToFloat half) := by
    rintro ⟨h₁, h₂⟩
    rw [hexp] at h₁
    rw [hmant] at h₂
    have hge := not_lt.mp (fun h => (hfin h).1 h₁)
    have := hinf hge
    omega
  have hround : halfRound e f = half % 2 ^ 15 := by
    by_cases h : half % 2 ^ 15 < 0x7C00
    · have h₁ := roundsTo_encode e hf
      rw [(hfin h).2] at h₁
      exact h₁.unique floatGrid_increasing (GridRounding.RoundsTo.exact floatGrid_increasing h.le)
    · rw [(hinf (not_lt.mp h)).1, halfRound, if_pos (by norm_num)]
      omega
  rw [seFloatToF16Bits_eq hnan, hexp, hmant, hround, floatSign_decode]
  omega

/-- **Half-precision encoding is correctly rounded**: to a nearest half of the same sign with ties
away from zero below `65520`, to infinity from there on, and NaN to NaN; it is monotone and inverts
decoding. -/
theorem half_encoding_rounds :
    (∀ bits < 2 ^ 32, floatMagnitude bits < overflowMagnitude →
      HalfRounded bits (seFloatToF16Bits bits)) ∧
    (∀ bits < 2 ^ 32, ¬ FloatIsNan bits → overflowMagnitude ≤ floatMagnitude bits →
      seFloatToF16Bits bits = floatSign bits * 2 ^ 15 + 0x7C00) ∧
    (∀ bits < 2 ^ 32, FloatIsNan bits → HalfIsNan (seFloatToF16Bits bits)) ∧
    (∀ a < 2 ^ 32, ∀ b < 2 ^ 32, ¬ FloatIsNan a → ¬ FloatIsNan b → floatKey a ≤ floatKey b →
      floatKey (seF16BitsToFloat (seFloatToF16Bits a)) ≤
        floatKey (seF16BitsToFloat (seFloatToF16Bits b))) ∧
    ∀ half < 2 ^ 16, ¬ HalfIsNan half → seFloatToF16Bits (seF16BitsToFloat half) = half :=
  ⟨fun _ _ h => halfRounded_encode h, fun _ _ hn h => encode_infinity hn h,
    fun _ _ hn => encode_nan hn, fun _ _ _ _ ha hb h => encode_mono ha hb h,
    fun _ hh hn => encode_decode hh hn⟩

/-- `1 + 2⁻¹¹` is halfway and rounds up, `65520` overflows, the smallest float underflows. -/
example : seFloatToF16Bits 0x3F801000 = 0x3C01 ∧ seFloatToF16Bits 0xC77FF000 = 0xFC00 ∧
    seFloatToF16Bits 1 = 0 := by decide

end StaticEmbeddings
