import StaticEmbeddings.Tokenizer.Cancel
import StaticEmbeddings.Tokenizer.Unbounded

/-!
# The language of the decoders

* `decodeRun`: `decode_one` again and again from an offset; `decodeRun_eq_some_iff`.
* `seUtf8Decode`: the second decoder, of `se_unicode.c`; `seUtf8Decode_eq_true_iff`.
* `feeds_ok_iff`: what `se_tokenize` takes for well formed.
* **`decoders_exact`**: all of them accept the concatenations of `se_utf8_encode` of scalar values.
-/

namespace StaticEmbeddings

open LittleEndian

/-- `decode_one` from index `i` on until the end; `none` where it fails. -/
def decodeRun (src : Bytes) (i : ℕ) : Option (List ℕ) :=
  if i < src.length then
    match _hd : decodeOne src i with
    | none => none
    | some (cp, j) => (decodeRun src j).map (cp :: ·)
  else some []
termination_by src.length - i
decreasing_by
  have := decodeOne_lt _hd
  omega

/-- The loop of `se_utf8_decode` from index `i` on: what is in `out` and `*ok` at the return. -/
def seUtf8DecodeLoop (src : Bytes) (outCap i : ℕ) (out : List ℕ) : List ℕ × Bool :=
  match _hb : src[i]? with
  | none => (out, true)
  | some b₀ =>
    if out.length ≥ outCap then (out, false)
    else
      match if b₀.toNat < 0x80 then some (b₀.toNat, 0) else leadByte b₀.toNat with
      | none => (out, false)
      | some (cp, need) =>
        if i + need ≥ src.length ∧ need > 0 then (out, false)
        else
          match continuationBytes (slice src (i + 1) need) cp with
          | none => (out, false)
          | some cp =>
            if (need = 1 ∧ cp < 0x80) ∨ (need = 2 ∧ cp < 0x800) ∨ (need = 3 ∧ cp < 0x10000) then
              (out, false)
            else if cp > 0x10FFFF ∨ (cp ≥ 0xD800 ∧ cp ≤ 0xDFFF) then (out, false)
            else seUtf8DecodeLoop src outCap (i + need + 1) (out ++ [cp])
termination_by src.length - i
decreasing_by
  have := (List.getElem?_eq_some_iff.mp _hb).1
  omega

/-- `se_utf8_decode`. -/
def seUtf8Decode (src : Bytes) (outCap : ℕ) : List ℕ × Bool := seUtf8DecodeLoop src outCap 0 []

/-- The concatenations of `se_utf8_encode` of Unicode scalar values. -/
def EncodedText (src : Bytes) (cps : List ℕ) : Prop :=
  (∀ c ∈ cps, Utf8.Scalar c) ∧ src = cps.flatMap seUtf8Encode

section

variable {src : Bytes} {cps : List ℕ} {i : ℕ}

theorem flatMap_seUtf8Encode (h : ∀ c ∈ cps, Utf8.Scalar c) :
    cps.flatMap seUtf8Encode = Utf8.encodeAll cps := by
  refine List.flatMap_congr fun c hc => seUtf8Encode_eq ?_
  have := h c hc
  unfold Utf8.Scalar at this
  omega

theorem encodedText_iff : EncodedText src cps ↔
    (∀ c ∈ cps, Utf8.Scalar c) ∧ src = Utf8.encodeAll cps :=
  and_congr_right fun h => by rw [flatMap_seUtf8Encode h]

theorem exists_encodedText_iff : (∃ cps, EncodedText src cps) ↔ Utf8.WellFormed src :=
  exists_congr fun _ => encodedText_iff

/-! ## `decode_one`, repeated -/

theorem decodeRun_of_some {cp j : ℕ} (h : decodeOne src i = some (cp, j)) :
    decodeRun src i = (decodeRun src j).map (cp :: ·) := by
  have hi : i < src.length := (decodeOne_lt h).trans_le (decodeOne_le h)
  rw [decodeRun, if_pos hi]
  split
  · rename_i h'
    cases h.symm.trans h'
  · rename_i h'
    cases h.symm.trans h'
    rfl

theorem decodeRun_of_none (h : decodeOne src i = none) (hi : i < src.length) :
    decodeRun src i = none := by
  rw [decodeRun, if_pos hi]
  split
  · rfl
  · rename_i h'
    cases h.symm.trans h'

theorem decodeRun_end (h : src.length ≤ i) : decodeRun src i = some [] := by
  rw [decodeRun, if_neg (not_lt.mpr h)]

theorem decodeRun_eq (src : Bytes) (i : ℕ) (cps : List ℕ) : decodeRun src i = some cps ↔
    (∀ c ∈ cps, Utf8.Scalar c) ∧ src.drop i = Utf8.encodeAll cps := by
  fun_induction decodeRun src i generalizing cps with
  | case1 i hi hd =>
    refine ⟨nofun, fun ⟨hs, he⟩ => ?_⟩
    rw [decodeOne_eq, Option.map_eq_none_iff] at hd
    refine absurd ⟨cps, hs, he⟩ (Utf8.not_wellFormed_of_decode? ?_ hd)
    rw [ne_eq, List.drop_eq_nil_iff]
    omega
  | case2 i hi cp j hd ih =>
    obtain ⟨r, hs, hr, rfl⟩ := decodeOne_eq_some_iff.mp hd
    have hj : src.drop (i + (Utf8.encode cp).length) = r := by
      rw [← List.drop_drop, hr, List.drop_left]
    rw [Option.map_eq_some_iff]
    constructor
    · rintro ⟨cps', h', rfl⟩
      obtain ⟨hs', hr'⟩ := (ih cps').mp h'
      refine ⟨List.forall_mem_cons.mpr ⟨hs, hs'⟩, ?_⟩
      rw [hr, Utf8.encodeAll_cons, ← hr', hj]
    · rintro ⟨hall, he⟩
      cases cps with
      | nil =>
        rw [hr] at he
        exact absurd (List.append_eq_nil_iff.mp he).1 (Utf8.encode_ne_nil cp)
      | cons c cps =>
        rw [List.forall_mem_cons] at hall
        rw [hr, Utf8.encodeAll_cons] at he
        obtain ⟨rfl, he'⟩ := Utf8.encode_append_inj hs hall.1 he
        exact ⟨cps, (ih cps).mpr ⟨hall.2, hj.trans he'⟩, rfl⟩
  | case3 i hi =>
    rw [List.drop_eq_nil_of_le (not_lt.mp hi)]
    constructor
    · intro h
      cases h
      exact ⟨fun _ hc => absurd hc List.not_mem_nil, rfl⟩
    · rintro ⟨-, he⟩
      cases cps with
      | nil => rfl
      | cons c cps => exact absurd (List.append_eq_nil_iff.mp he.symm).1 (Utf8.encode_ne_nil c)

theorem decodeRun_eq_some_iff : decodeRun src 0 = some cps ↔ EncodedText src cps := by
  rw [decodeRun_eq, List.drop_zero, encodedText_iff]

/-! ## `se_utf8_decode` -/

theorem seUtf8DecodeLoop_end (hi : src.length ≤ i) (outCap : ℕ) (out : List ℕ) :
    seUtf8DecodeLoop src outCap i out = (out, true) := by
  have hb : src[i]? = none := List.getElem?_eq_none hi
  rw [seUtf8DecodeLoop]
  split
  · rfl
  · rename_i h'
    cases hb.symm.trans h'

theorem seUtf8DecodeLoop_step (hi : i < src.length) (outCap : ℕ) (out : List ℕ) :
    seUtf8DecodeLoop src outCap i out =
      if out.length ≥ outCap then (out, false)
      else
        match decodeOne src i with
        | none => (out, false)
        | some (cp, j) => seUtf8DecodeLoop src outCap j (out ++ [cp]) := by
  have hb : src[i]? = some src[i] := List.getElem?_eq_getElem hi
  rw [seUtf8DecodeLoop]
  split
  · rename_i h'
    cases hb.symm.trans h'
  rename_i b₀ h'
  by_cases hc : out.length ≥ outCap
  · rw [if_pos hc, if_pos hc]
  rw [if_neg hc, if_neg hc, decodeOne, h']
  dsimp only
  by_cases ha : b₀.toNat < 0x80
  · rw [if_pos ha, if_pos ha]
    dsimp only
    have hv : ¬ (b₀.toNat > 0x10FFFF ∨ (b₀.toNat ≥ 0xD800 ∧ b₀.toNat ≤ 0xDFFF)) := by omega
    rw [if_neg (by omega), slice, List.take_zero, continuationBytes_nil]
    dsimp only
    rw [if_neg (by omega), if_neg hv, Nat.add_zero]
  rw [if_neg ha, if_neg ha]
  cases hl : leadByte b₀.toNat with
  | none => rfl
  | some q =>
    obtain ⟨cp, need⟩ := q
    have hn : 0 < need := by
      unfold leadByte at hl
      split_ifs at hl <;> cases hl <;> omega
    dsimp only
    by_cases hs : i + need ≥ src.length
    · rw [if_pos ⟨hs, hn⟩, if_pos hs]
    rw [if_neg (fun h => hs h.1), if_neg hs]
    cases continuationBytes (slice src (i + 1) need) cp with
    | none => rfl
    | some cp =>
      dsimp only
      split_ifs
      · rfl
      · rfl
      · rfl

/-- **`se_utf8_decode` is the repeated `decode_one`**, where there is room for every code point. -/
theorem seUtf8DecodeLoop_eq_true_iff {outCap : ℕ} {out out' : List ℕ} (ho : out.length ≤ outCap) :
    seUtf8DecodeLoop src outCap i out = (out', true) ↔
      ∃ cps, decodeRun src i = some cps ∧ out' = out ++ cps ∧ out'.length ≤ outCap := by
  induction hn : src.length - i using Nat.strong_induction_on generalizing i out with
  | _ n ih =>
    by_cases hi : i < src.length
    swap
    · rw [decodeRun_end (not_lt.mp hi), seUtf8DecodeLoop_end (not_lt.mp hi)]
      constructor
      · rintro ⟨⟩
        exact ⟨[], rfl, (List.append_nil _).symm, ho⟩
      · rintro ⟨_, ⟨⟩, rfl, -⟩
        rw [List.append_nil]
    rw [seUtf8DecodeLoop_step hi]
    cases hd : decodeOne src i with
    | none =>
      rw [decodeRun_of_none hd hi]
      refine iff_of_false (fun h => ?_) fun ⟨_, h, _⟩ => by cases h
      split_ifs at h <;> cases h
    | some q =>
      obtain ⟨cp, j⟩ := q
      rw [decodeRun_of_some hd]
      by_cases hfull : out.length ≥ outCap
      · rw [if_pos hfull]
        refine iff_of_false (fun h => by cases h) ?_
        rintro ⟨_, h, rfl, hle⟩
        obtain ⟨cps, -, rfl⟩ := Option.map_eq_some_iff.mp h
        rw [List.length_append, List.length_cons] at hle
        omega
      · have hlt := decodeOne_lt hd
        have hlen : (out ++ [cp]).length ≤ outCap := by
          rw [List.length_append, List.length_singleton]
          omega
        rw [if_neg hfull]
        dsimp only
        rw [ih (src.length - j) (by omega) hlen rfl]
        constructor
        · rintro ⟨cps, hcps, rfl, hle⟩
          rw [List.append_assoc] at hle ⊢
          exact ⟨cp :: cps, by rw [hcps, Option.map_some], rfl, hle⟩
        · rintro ⟨_, h, rfl, hle⟩
          obtain ⟨cps, hcps, rfl⟩ := Option.map_eq_some_iff.mp h
          exact ⟨cps, hcps, by rw [List.append_assoc, List.singleton_append], hle⟩

theorem seUtf8Decode_eq_true_iff {outCap : ℕ} :
    seUtf8Decode src outCap = (cps, true) ↔ EncodedText src cps ∧ cps.length ≤ outCap := by
  unfold seUtf8Decode
  rw [seUtf8DecodeLoop_eq_true_iff (Nat.zero_le outCap)]
  constructor
  · rintro ⟨cps', h, rfl, hle⟩
    exact ⟨decodeRun_eq_some_iff.mp h, hle⟩
  · rintro ⟨h, hle⟩
    exact ⟨cps, decodeRun_eq_some_iff.mpr h, rfl, hle⟩

theorem EncodedText.length_le (h : EncodedText src cps) : cps.length ≤ src.length := by
  rw [(encodedText_iff.mp h).2]
  exact Utf8.length_le_length_encodeAll cps

/-! ## `se_tokenize` -/

variable {m : SeModel}

/-- **What the tokenizer takes for well formed**: literals are ASCII. -/
theorem feeds_ok_iff (m : SeModel) (bs : Bytes) : (feeds m bs).2 = true ↔ Utf8.WellFormed bs := by
  have hascii : ∀ t ∈ seAddedTokens, ∀ b ∈ t.1, b.toNat < 0x80 := by decide +kernel
  fun_induction feeds m bs with
  | case1 => exact iff_of_true rfl Utf8.wellFormed_nil
  | case2 bs hb id len hl ih =>
    obtain ⟨t, ht, ⟨r, rfl⟩, rfl⟩ := exists_enabled_of_literalAt hl
    refine ih.trans ?_
    rw [List.drop_left, Utf8.wellFormed_ascii_append (hascii t ht.1)]
  | case3 bs hb hl hd => exact iff_of_false Bool.false_ne_true (Utf8.not_wellFormed_of_decode? hb hd)
  | case4 bs hb hl cp r hd ih => exact ih.trans (Utf8.wellFormed_of_decode? hd).symm

theorem unboundedIds_invalid (hm : ModelOk m) {limitMode : SeTokenLimit} {input : Bytes}
    {e : SeError} (h : unboundedIds m limitMode input = .error e)
    (he : e.status = .errInvalidUtf8) : ¬ Utf8.WellFormed input := by
  intro hw
  rw [unboundedIds_eq hm] at h
  have hok : (items m input).2 = true := (items_snd m input).trans ((feeds_ok_iff m input).mpr hw)
  unfold runItems at h
  cases hr : runItemList (unbounded m limitMode) {} (items m input).1 with
  | error e' =>
    rw [hr] at h
    cases h
    rcases runItemList_status hr with hs | hs <;> cases he.symm.trans hs
  | ok o =>
    rw [hr] at h
    simp only [hok, Bool.or_true] at h
    have h : (tokenResult (.ok o)).2 = .error e := h
    rw [tokenResult] at h
    split_ifs at h
    cases h
    cases he

theorem unboundedIds_of_malformed (hm : ModelOk m) {limitMode : SeTokenLimit} {input : Bytes}
    (h : ¬ Utf8.WellFormed input) : ∃ e, unboundedIds m limitMode input = .error e := by
  cases hr : unboundedIds m limitMode input with
  | error e => exact ⟨e, rfl⟩
  | ok ids =>
    have hok := ((unboundedIds_eq_ok_iff hm).mp hr).1
    exact absurd ((feeds_ok_iff m input).mp ((items_snd m input).symm.trans hok)) h

end

/-- **The decoders accept exactly UTF-8.** Repeated `decode_one`, `se_utf8_decode` with room for the
code points and, unless it fails otherwise, an unlimited `se_tokenize` accept the concatenations of
`se_utf8_encode` of scalar values, and the decoders read those back. -/
theorem decoders_exact (src : Bytes) :
    (∀ cps, decodeRun src 0 = some cps ↔ EncodedText src cps) ∧
    (∀ outCap,
      (∀ cps, seUtf8Decode src outCap = (cps, true) ↔ EncodedText src cps ∧ cps.length ≤ outCap) ∧
      (src.length ≤ outCap →
        ((seUtf8Decode src outCap).2 = true ↔ ∃ cps, EncodedText src cps))) ∧
    ∀ file m, validate file = .ok m → ∀ limitMode cancelled,
      (∀ e, (seTokenize m src 0 limitMode cancelled).2 = .error e → e.status = .errInvalidUtf8) →
      ((∃ e, (seTokenize m src 0 limitMode cancelled).2 = .error e ∧ e.status = .errInvalidUtf8) ↔
        ¬ ∃ cps, EncodedText src cps) := by
  refine ⟨fun cps => decodeRun_eq_some_iff,
    fun outCap => ⟨fun cps => seUtf8Decode_eq_true_iff, fun hcap => ?_⟩, ?_⟩
  · constructor
    · intro h
      exact ⟨(seUtf8Decode src outCap).1, (seUtf8Decode_eq_true_iff.mp (Prod.ext rfl h)).1⟩
    · rintro ⟨cps, h⟩
      exact congrArg Prod.snd (seUtf8Decode_eq_true_iff.mpr ⟨h, h.length_le.trans hcap⟩)
  · intro file m hv limitMode cancelled hother
    have hm := modelOk_of_validate hv
    have hu : (seTokenize m src 0 limitMode cancelled).2 = unboundedIds m limitMode src := by
      rw [unboundedIds, seTokenize_uncancelled fun hc => ?_]
      exact SeStatus.noConfusion (hother _ hc)
    rw [hu] at hother ⊢
    rw [exists_encodedText_iff]
    constructor
    · rintro ⟨e, he, hs⟩
      exact unboundedIds_invalid hm he hs
    · intro h
      obtain ⟨e, he⟩ := unboundedIds_of_malformed hm h
      exact ⟨e, he, hother e he⟩

/-- A stray continuation byte is refused by all of them, U+0080 is read into one slot. -/
theorem decoders_exact_sample : (¬ ∃ cps, EncodedText [0x61, 0x80] cps) ∧
    seUtf8Decode [0xC2, 0x80] 1 = ([0x80], true) := by
  have hr : (seTokenize sampleModel [0x61, 0x80] 0 .raw neverCancelled).2 = .error invalidUtf8 := by
    decide +kernel
  refine ⟨((decoders_exact [0x61, 0x80]).2.2 sampleFile sampleModel validate_sampleFile .raw
    neverCancelled fun e he => ?_).mp ⟨_, hr, rfl⟩, ?_⟩
  · cases hr.symm.trans he
    rfl
  · refine (((decoders_exact [0xC2, 0x80]).2.1 1).1 [0x80]).mpr ⟨⟨?_, by decide⟩, le_rfl⟩
    simp [Utf8.Scalar]

end StaticEmbeddings
