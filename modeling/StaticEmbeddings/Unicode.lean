import StaticEmbeddings.Lib.LittleEndian
import StaticEmbeddings.Lib.Utf8
import StaticEmbeddings.Status

/-!
# UTF-8 and character classes of the runtime

The parts of `se_unicode.c`, `se_tokenizer.c` and `se_internal.h` that do not depend on a model.

* `decodeOne`: one code point from an index of the input; **`decodeOne_eq`**: it is `Utf8.decode?`.
* `seUtf8Encode`; **`seUtf8Encode_eq`**.
* `seIsCjk`, `seIsAsciiWhitespace`, `seIsAsciiPunct`, `seAsciiClass`.
-/

namespace StaticEmbeddings

open LittleEndian

/-- The code point bits of a lead byte `b₀ ≥ 0x80` and the number of continuation bytes. -/
def leadByte (b₀ : ℕ) : Option (ℕ × ℕ) :=
  if b₀ &&& 0xE0 = 0xC0 then some (b₀ &&& 0x1F, 1)
  else if b₀ &&& 0xF0 = 0xE0 then some (b₀ &&& 0x0F, 2)
  else if b₀ &&& 0xF8 = 0xF0 then some (b₀ &&& 0x07, 3)
  else none

/-- The loop over the continuation bytes. -/
def continuationBytes : List UInt8 → ℕ → Option ℕ
  | [], cp => some cp
  | b :: bs, cp =>
    if b.toNat &&& 0xC0 = 0x80 then continuationBytes bs (cp <<< 6 ||| b.toNat &&& 0x3F) else none

/-- `decode_one`: the code point at index `i` and the index after it. -/
def decodeOne (src : Bytes) (i : ℕ) : Option (ℕ × ℕ) :=
  match src[i]? with
  | none => none
  | some b₀ =>
    if b₀.toNat < 0x80 then some (b₀.toNat, i + 1)
    else
      match leadByte b₀.toNat with
      | none => none
      | some (cp, need) =>
        if i + need ≥ src.length then none
        else
          match continuationBytes (slice src (i + 1) need) cp with
          | none => none
          | some cp =>
            if (need = 1 ∧ cp < 0x80) ∨ (need = 2 ∧ cp < 0x800) ∨ (need = 3 ∧ cp < 0x10000) then
              none
            else if cp > 0x10FFFF ∨ (cp ≥ 0xD800 ∧ cp ≤ 0xDFFF) then none
            else some (cp, i + need + 1)

/-- `se_utf8_encode`. -/
def seUtf8Encode (cp : ℕ) : Bytes :=
  if cp < 0x80 then [UInt8.ofNat cp]
  else if cp < 0x800 then
    [UInt8.ofNat (0xC0 ||| cp >>> 6), UInt8.ofNat (0x80 ||| cp &&& 0x3F)]
  else if cp < 0x10000 then
    [UInt8.ofNat (0xE0 ||| cp >>> 12), UInt8.ofNat (0x80 ||| cp >>> 6 &&& 0x3F),
      UInt8.ofNat (0x80 ||| cp &&& 0x3F)]
  else
    [UInt8.ofNat (0xF0 ||| cp >>> 18), UInt8.ofNat (0x80 ||| cp >>> 12 &&& 0x3F),
      UInt8.ofNat (0x80 ||| cp >>> 6 &&& 0x3F), UInt8.ofNat (0x80 ||| cp &&& 0x3F)]

/-- `se_is_cjk`. -/
def seIsCjk (cp : ℕ) : Bool :=
  (cp ≥ 0x4E00 && cp ≤ 0x9FFF) || (cp ≥ 0x3400 && cp ≤ 0x4DBF) ||
  (cp ≥ 0x20000 && cp ≤ 0x2A6DF) || (cp ≥ 0x2A700 && cp ≤ 0x2B73F) ||
  (cp ≥ 0x2B740 && cp ≤ 0x2B81F) || (cp ≥ 0x2B920 && cp ≤ 0x2CEAF) ||
  (cp ≥ 0xF900 && cp ≤ 0xFAFF) || (cp ≥ 0x2F800 && cp ≤ 0x2FA1F)

/-- `se_is_ascii_punct`. -/
def seIsAsciiPunct (cp : ℕ) : Bool :=
  (cp ≥ 33 && cp ≤ 47) || (cp ≥ 58 && cp ≤ 64) || (cp ≥ 91 && cp ≤ 96) || (cp ≥ 123 && cp ≤ 126)

/-- `se_is_ascii_whitespace`. -/
def seIsAsciiWhitespace (cp : ℕ) : Bool := cp == 0x20 || cp == 0x09 || cp == 0x0A || cp == 0x0D

/-- `se_ascii_class_t`. -/
inductive SeAsciiClass
  | drop | space | punct | word
  deriving DecidableEq, Repr

/-- `SE_ASCII_CLASS`. -/
def seAsciiClassTable : List ℕ :=
  [0, 0, 0, 0, 0, 0, 0, 0, 0, 1, 1, 0, 0, 1, 0, 0, 0, 0, 0, 0, 0, 0, 0, 0, 0, 0, 0, 0, 0, 0, 0, 0,
   1, 2, 2, 2, 2, 2, 2, 2, 2, 2, 2, 2, 2, 2, 2, 2, 3, 3, 3, 3, 3, 3, 3, 3, 3, 3, 2, 2, 2, 2, 2, 2,
   2, 3, 3, 3, 3, 3, 3, 3, 3, 3, 3, 3, 3, 3, 3, 3, 3, 3, 3, 3, 3, 3, 3, 3, 3, 3, 3, 2, 2, 2, 2, 2,
   2, 3, 3, 3, 3, 3, 3, 3, 3, 3, 3, 3, 3, 3, 3, 3, 3, 3, 3, 3, 3, 3, 3, 3, 3, 3, 3, 2, 2, 2, 2, 0]

/-- `ascii_class`. -/
def asciiClass (byte : ℕ) : SeAsciiClass :=
  match seAsciiClassTable[byte]? with
  | some 1 => .space
  | some 2 => .punct
  | some 3 => .word
  | _ => .drop

/-! ## Decoding -/

theorem leadByte_eq (b₀ : ℕ) (h : b₀ < 256) : leadByte b₀ =
    if 0xC0 ≤ b₀ ∧ b₀ < 0xE0 then some (b₀ % 32, 1)
    else if 0xE0 ≤ b₀ ∧ b₀ < 0xF0 then some (b₀ % 16, 2)
    else if 0xF0 ≤ b₀ ∧ b₀ < 0xF8 then some (b₀ % 8, 3) else none := by
  revert b₀
  decide +kernel

theorem and_c0_eq_80_iff (b : UInt8) : b.toNat &&& 0xC0 = 0x80 ↔ Utf8.IsCont b := by
  have h : ∀ n < 256, n &&& 0xC0 = 0x80 ↔ 0x80 ≤ n ∧ n < 0xC0 := by decide +kernel
  exact h _ b.toNat_lt

theorem shiftLeft_or_and_3f (cp b : ℕ) : cp <<< 6 ||| b &&& 0x3F = cp * 64 + b % 64 := by
  rw [show (0x3F : ℕ) = 2 ^ 6 - 1 from rfl, Nat.and_two_pow_sub_one_eq_mod,
    ← Nat.shiftLeft_add_eq_or_of_lt (Nat.mod_lt _ (by norm_num)), Nat.shiftLeft_eq]

@[simp] theorem continuationBytes_nil (cp : ℕ) : continuationBytes [] cp = some cp := rfl

theorem continuationBytes_cons (b : UInt8) (bs : List UInt8) (cp : ℕ) :
    continuationBytes (b :: bs) cp =
      if Utf8.IsCont b then continuationBytes bs (cp * 64 + b.toNat % 64) else none := by
  simp only [continuationBytes, and_c0_eq_80_iff, shiftLeft_or_and_3f]

/-- **`decode_one` is the UTF-8 decoder**, on the bytes from the index on. -/
theorem decodeOne_eq (src : Bytes) (i : ℕ) : decodeOne src i =
    (Utf8.decode? (src.drop i)).map fun p => (p.1, src.length - p.2.length) := by
  rcases hd : src.drop i with _ | ⟨b₀, r⟩
  · have hi : src[i]? = none := List.getElem?_eq_none (List.drop_eq_nil_iff.mp hd)
    simp only [decodeOne, hi, Utf8.decode?, Option.map_none]
  have hi : src[i]? = some b₀ := by
    rw [← Nat.add_zero i, ← List.getElem?_drop, hd]
    rfl
  have hr : src.drop (i + 1) = r := by rw [← List.drop_drop, hd]; rfl
  have hl : src.length = i + 1 + r.length := by
    have h₁ : (src.drop i).length = src.length - i := List.length_drop
    have h₂ := (List.getElem?_eq_some_iff.mp hi).1
    rw [hd, List.length_cons] at h₁
    omega
  simp only [decodeOne, hi, slice, hr, leadByte_eq _ b₀.toNat_lt, Utf8.decode?]
  have hb := b₀.toNat_lt
  by_cases h₁ : b₀.toNat < 0x80
  · rw [if_pos h₁, if_pos h₁]
    simp only [Option.map_some, Option.some.injEq, Prod.mk.injEq, true_and]
    omega
  rw [if_neg h₁, if_neg h₁]
  by_cases h₂ : b₀.toNat < 0xC0
  · rw [if_neg (by omega), if_neg (by omega), if_neg (by omega), if_pos h₂]
    rfl
  rw [if_neg h₂]
  by_cases h₃ : b₀.toNat < 0xE0
  · rw [if_pos (by omega), if_pos h₃]
    rcases r with _ | ⟨b₁, r⟩
    · simp only [hl, List.length_nil, Nat.add_zero, ge_iff_le, le_refl, if_true, Option.map_none]
    simp only [List.length_cons] at hl
    simp only [if_neg (show ¬ i + 1 ≥ src.length by omega), List.take_succ_cons, List.take_zero,
      continuationBytes_cons, continuationBytes_nil]
    by_cases hc : Utf8.IsCont b₁
    · simp only [hc, if_true, true_and]
      by_cases hg : 0x80 ≤ b₀.toNat % 32 * 64 + b₁.toNat % 64
      · rw [if_neg (by omega), if_neg (by omega), if_pos hg, Option.map_some, hl]
        congr 2
        dsimp only
        omega
      · rw [if_pos (by omega), if_neg hg, Option.map_none]
    · simp only [hc, false_and, if_false, Option.map_none]
  rw [if_neg (by omega), if_neg h₃]
  by_cases h₄ : b₀.toNat < 0xF0
  · rw [if_pos (by omega), if_pos h₄]
    rcases r with _ | ⟨b₁, _ | ⟨b₂, r⟩⟩
    · simp only [hl, List.length_nil, ge_iff_le, show i + 1 + 0 ≤ i + 2 by omega, if_true,
        Option.map_none]
    · simp only [hl, List.length_cons, List.length_nil, ge_iff_le,
        show i + 1 + (0 + 1) ≤ i + 2 by omega, if_true, Option.map_none]
    simp only [List.length_cons] at hl
    simp only [if_neg (show ¬ i + 2 ≥ src.length by omega), List.take_succ_cons, List.take_zero,
      continuationBytes_cons, continuationBytes_nil]
    have e : (b₀.toNat % 16 * 64 + b₁.toNat % 64) * 64 + b₂.toNat % 64 =
      b₀.toNat % 16 * 4096 + b₁.toNat % 64 * 64 + b₂.toNat % 64 := by ring
    by_cases hc : Utf8.IsCont b₁ ∧ Utf8.IsCont b₂
    · simp only [hc.1, hc.2, if_true, true_and, e]
      by_cases hg : 0x800 ≤ b₀.toNat % 16 * 4096 + b₁.toNat % 64 * 64 + b₂.toNat % 64 ∧
          Utf8.Scalar (b₀.toNat % 16 * 4096 + b₁.toNat % 64 * 64 + b₂.toNat % 64)
      · rw [if_pos hg, Option.map_some, hl]
        simp only [Utf8.Scalar] at hg
        rw [if_neg (by omega), if_neg (by omega)]
        congr 2
        dsimp only
        omega
      · rw [if_neg hg, Option.map_none]
        simp only [Utf8.Scalar] at hg
        split_ifs
        · rfl
        · rfl
        · omega
    · by_cases hc₁ : Utf8.IsCont b₁
      · have hc₂ : ¬ Utf8.IsCont b₂ := fun h => hc ⟨hc₁, h⟩
        simp only [hc₁, hc₂, if_true, if_false, true_and, false_and, Option.map_none]
      · simp only [hc₁, if_false, false_and, Option.map_none]
  rw [if_neg (by omega), if_neg h₄]
  by_cases h₅ : b₀.toNat < 0xF8
  · rw [if_pos (by omega), if_pos h₅]
    rcases r with _ | ⟨b₁, _ | ⟨b₂, _ | ⟨b₃, r⟩⟩⟩
    · simp only [hl, List.length_nil, ge_iff_le, show i + 1 + 0 ≤ i + 3 by omega, if_true,
        Option.map_none]
    · simp only [hl, List.length_cons, List.length_nil, ge_iff_le,
        show i + 1 + (0 + 1) ≤ i + 3 by omega, if_true, Option.map_none]
    · simp only [hl, List.length_cons, List.length_nil, ge_iff_le,
        show i + 1 + (0 + 1 + 1) ≤ i + 3 by omega, if_true, Option.map_none]
    simp only [List.length_cons] at hl
    simp only [if_neg (show ¬ i + 3 ≥ src.length by omega), List.take_succ_cons, List.take_zero,
      continuationBytes_cons, continuationBytes_nil]
    have e : ((b₀.toNat % 8 * 64 + b₁.toNat % 64) * 64 + b₂.toNat % 64) * 64 + b₃.toNat % 64 =
      b₀.toNat % 8 * 262144 + b₁.toNat % 64 * 4096 + b₂.toNat % 64 * 64 + b₃.toNat % 64 := by ring
    by_cases hc : Utf8.IsCont b₁ ∧ Utf8.IsCont b₂ ∧ Utf8.IsCont b₃
    · simp only [hc.1, hc.2.1, hc.2.2, if_true, true_and, e]
      by_cases hg : 0x10000 ≤ b₀.toNat % 8 * 262144 + b₁.toNat % 64 * 4096 + b₂.toNat % 64 * 64 +
          b₃.toNat % 64 ∧ b₀.toNat % 8 * 262144 + b₁.toNat % 64 * 4096 + b₂.toNat % 64 * 64 +
          b₃.toNat % 64 ≤ 0x10FFFF
      · rw [if_neg (by omega), if_neg (by omega), if_pos hg, Option.map_some, hl]
        congr 2
        dsimp only
        omega
      · rw [if_neg hg, Option.map_none]
        split_ifs
        · rfl
        · rfl
        · omega
    · by_cases hc₁ : Utf8.IsCont b₁
      · by_cases hc₂ : Utf8.IsCont b₂
        · have hc₃ : ¬ Utf8.IsCont b₃ := fun h => hc ⟨hc₁, hc₂, h⟩
          simp only [hc₁, hc₂, hc₃, if_true, if_false, true_and, false_and, Option.map_none]
        · simp only [hc₁, hc₂, if_true, if_false, true_and, false_and, Option.map_none]
      · simp only [hc₁, if_false, false_and, Option.map_none]
  · rw [if_neg (by omega), if_neg h₅]
    rfl

theorem decodeOne_eq_some_iff {src : Bytes} {i cp j : ℕ} : decodeOne src i = some (cp, j) ↔
    ∃ r, Utf8.Scalar cp ∧ src.drop i = Utf8.encode cp ++ r ∧ j = i + (Utf8.encode cp).length := by
  have hl : ∀ r, src.drop i = Utf8.encode cp ++ r →
      src.length - r.length = i + (Utf8.encode cp).length := fun r hr => by
    have h₁ := congrArg List.length hr
    have h₂ := Utf8.length_encode_pos cp
    rw [List.length_drop, List.length_append] at h₁
    omega
  rw [decodeOne_eq, Option.map_eq_some_iff]
  constructor
  · rintro ⟨⟨c, r⟩, hd, he⟩
    obtain ⟨rfl, rfl⟩ := Prod.mk.inj he
    obtain ⟨hs, hr⟩ := Utf8.decode?_eq_some_iff.mp hd
    exact ⟨r, hs, hr, hl r hr⟩
  · rintro ⟨r, hs, hr, rfl⟩
    exact ⟨(cp, r), Utf8.decode?_eq_some_iff.mpr ⟨hs, hr⟩, by rw [hl r hr]⟩

theorem decodeOne_lt {src : Bytes} {i cp j : ℕ} (h : decodeOne src i = some (cp, j)) : i < j := by
  obtain ⟨r, -, -, rfl⟩ := decodeOne_eq_some_iff.mp h
  have := Utf8.length_encode_pos cp
  omega

theorem decodeOne_le {src : Bytes} {i cp j : ℕ} (h : decodeOne src i = some (cp, j)) :
    j ≤ src.length := by
  obtain ⟨r, -, hr, rfl⟩ := decodeOne_eq_some_iff.mp h
  have h₁ := congrArg List.length hr
  have h₂ := Utf8.length_encode_pos cp
  rw [List.length_drop, List.length_append] at h₁
  omega

theorem decodeOne_bytes {src : Bytes} {i cp j : ℕ} (h : decodeOne src i = some (cp, j)) :
    (∃ b, src[i]? = some b ∧ ¬ Utf8.IsCont b) ∧
      ∀ k, i < k → k < j → ∃ b, src[k]? = some b ∧ Utf8.IsCont b := by
  obtain ⟨r, hs, hr, rfl⟩ := decodeOne_eq_some_iff.mp h
  obtain ⟨b, t, ht, hb, hcont, -⟩ := Utf8.encode_eq_cons hs
  have hget : ∀ k, src[i + k]? = (b :: (t ++ r))[k]? := fun k => by
    rw [← List.getElem?_drop, hr, ht, List.cons_append]
  refine ⟨⟨b, hget 0, hb⟩, fun k hik hkj => ?_⟩
  rw [ht, List.length_cons] at hkj
  obtain ⟨n, rfl⟩ : ∃ n, k = i + (n + 1) := ⟨k - i - 1, by omega⟩
  have hn : n < t.length := by omega
  refine ⟨t[n], ?_, hcont _ (List.getElem_mem hn)⟩
  rw [hget, List.getElem?_cons_succ, List.getElem?_append_left hn, List.getElem?_eq_getElem hn]

theorem decodeOne_disjoint {src : Bytes} {i cp j i' cp' j' : ℕ} (h : decodeOne src i = some (cp, j))
    (h' : decodeOne src i' = some (cp', j')) (hlt : i < i') : j ≤ i' := by
  by_contra hge
  obtain ⟨b, hb, hcont⟩ := (decodeOne_bytes h).2 i' hlt (not_le.1 hge)
  obtain ⟨b', hb', hlead⟩ := (decodeOne_bytes h').1
  rw [hb] at hb'
  cases hb'
  exact hlead hcont

/-- **`se_utf8_encode` is UTF-8** on every value of at most 21 bits. -/
theorem seUtf8Encode_eq {cp : ℕ} (h : cp < 2 ^ 21) : seUtf8Encode cp = Utf8.encode cp := by
  have hm : ∀ n, n &&& 0x3F = n % 64 := fun n => Nat.and_two_pow_sub_one_eq_mod n 6
  have h80 : ∀ n, 0x80 ||| n % 64 = 0x80 + n % 64 := fun n =>
    (Nat.shiftLeft_add_eq_or_of_lt (Nat.mod_lt n (by norm_num : 0 < 2 ^ 6)) 2).symm
  unfold seUtf8Encode Utf8.encode
  simp only [hm, Nat.shiftRight_eq_div_pow, h80]
  split_ifs with h₁ h₂ h₃
  · rfl
  · rw [show 0xC0 ||| cp / 2 ^ 6 = 0xC0 + cp / 64 from
      (Nat.shiftLeft_add_eq_or_of_lt (show cp / 64 < 2 ^ 6 by omega) 3).symm]
  · rw [show 0xE0 ||| cp / 2 ^ 12 = 0xE0 + cp / 4096 from
      (Nat.shiftLeft_add_eq_or_of_lt (show cp / 4096 < 2 ^ 5 by omega) 7).symm]
  · rw [show 0xF0 ||| cp / 2 ^ 18 = 0xF0 + cp / 262144 from
      (Nat.shiftLeft_add_eq_or_of_lt (show cp / 262144 < 2 ^ 4 by omega) 15).symm]

/-! ## ASCII classes -/

/-- **The class table agrees with the predicates** of the generic path, U+007F included. -/
theorem asciiClass_eq {b : ℕ} (h : b < 0x80) : asciiClass b =
    if (b < 0x20 ∨ b = 0x7F) ∧ b ≠ 0x09 ∧ b ≠ 0x0A ∧ b ≠ 0x0D then .drop
    else if seIsAsciiWhitespace b then .space
    else if seIsAsciiPunct b then .punct else .word := by
  revert b
  decide +kernel

theorem seIsCjk_ge {cp : ℕ} (h : seIsCjk cp = true) : 0x3400 ≤ cp := by
  simp only [seIsCjk, ge_iff_le, Bool.or_eq_true, Bool.and_eq_true, decide_eq_true_eq] at h
  omega

end StaticEmbeddings
