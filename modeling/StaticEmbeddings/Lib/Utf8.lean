import Mathlib.Tactic

/-!
# UTF-8

* `Scalar`, `encode`, `encodeAll`: Unicode scalar values and their UTF-8 bytes; `WellFormed`.
* `decode?`: one scalar value off the front of a byte string; **`decode?_eq_some_iff`**: it accepts
  exactly the encodings.
* `decodeAll`: the scalar values of a byte string; **`decodeAll_encodeAll`**.
* Lead and continuation bytes: `IsCont`, `encode_eq_cons`.
* `wellFormed_append`, **`wellFormed_of_append_encode`**: parts of well-formed strings.
* `Cut a b`: decoding in `a ++ b` never straddles the end of `a`; **`cut_of_head`**,
  **`cut_of_last`**.
-/

namespace Utf8

/-- Unicode scalar values. -/
def Scalar (cp : ℕ) : Prop := cp < 0xD800 ∨ (0xDFFF < cp ∧ cp ≤ 0x10FFFF)

instance : DecidablePred Scalar := fun _ => by unfold Scalar; infer_instance

/-- The UTF-8 bytes of a code point. -/
def encode (cp : ℕ) : List UInt8 :=
  if cp < 0x80 then [UInt8.ofNat cp]
  else if cp < 0x800 then [UInt8.ofNat (0xC0 + cp / 64), UInt8.ofNat (0x80 + cp % 64)]
  else if cp < 0x10000 then
    [UInt8.ofNat (0xE0 + cp / 4096), UInt8.ofNat (0x80 + cp / 64 % 64),
      UInt8.ofNat (0x80 + cp % 64)]
  else
    [UInt8.ofNat (0xF0 + cp / 262144), UInt8.ofNat (0x80 + cp / 4096 % 64),
      UInt8.ofNat (0x80 + cp / 64 % 64), UInt8.ofNat (0x80 + cp % 64)]

/-- The UTF-8 bytes of a text. -/
def encodeAll (cps : List ℕ) : List UInt8 := cps.flatMap encode

/-- The concatenations of encodings of scalar values. -/
def WellFormed (bs : List UInt8) : Prop := ∃ cps, (∀ c ∈ cps, Scalar c) ∧ bs = encodeAll cps

/-- Continuation bytes `10xxxxxx`. -/
def IsCont (b : UInt8) : Prop := 0x80 ≤ b.toNat ∧ b.toNat < 0xC0

instance : DecidablePred IsCont := fun _ => by unfold IsCont; infer_instance

/-- One scalar value off the front of a byte string. -/
def decode? : List UInt8 → Option (ℕ × List UInt8)
  | [] => none
  | b₀ :: r =>
    if b₀.toNat < 0x80 then some (b₀.toNat, r)
    else if b₀.toNat < 0xC0 then none
    else if b₀.toNat < 0xE0 then
      match r with
      | b₁ :: r =>
        let cp := b₀.toNat % 32 * 64 + b₁.toNat % 64
        if IsCont b₁ ∧ 0x80 ≤ cp then some (cp, r) else none
      | _ => none
    else if b₀.toNat < 0xF0 then
      match r with
      | b₁ :: b₂ :: r =>
        let cp := b₀.toNat % 16 * 4096 + b₁.toNat % 64 * 64 + b₂.toNat % 64
        if IsCont b₁ ∧ IsCont b₂ ∧ 0x800 ≤ cp ∧ Scalar cp then some (cp, r) else none
      | _ => none
    else if b₀.toNat < 0xF8 then
      match r with
      | b₁ :: b₂ :: b₃ :: r =>
        let cp := b₀.toNat % 8 * 262144 + b₁.toNat % 64 * 4096 + b₂.toNat % 64 * 64 +
          b₃.toNat % 64
        if IsCont b₁ ∧ IsCont b₂ ∧ IsCont b₃ ∧ 0x10000 ≤ cp ∧ cp ≤ 0x10FFFF then some (cp, r)
        else none
      | _ => none
    else none

theorem toNat_ofNat_of_lt (n : ℕ) (h : n < 256) : (UInt8.ofNat n).toNat = n := by
  rw [UInt8.toNat_ofNat', Nat.mod_eq_of_lt (by simpa using h)]

theorem ofNat_eq_of_toNat {b : UInt8} {n : ℕ} (h : b.toNat = n) : UInt8.ofNat n = b := by
  rw [← h, UInt8.ofNat_toNat]

theorem decode?_encode {cp : ℕ} (h : Scalar cp) (r : List UInt8) :
    decode? (encode cp ++ r) = some (cp, r) := by
  unfold Scalar at h
  unfold encode
  split_ifs with h₁ h₂ h₃
  · have e := toNat_ofNat_of_lt cp (by omega)
    simp only [List.cons_append, List.nil_append, decode?, e, if_pos h₁]
  · have e₀ := toNat_ofNat_of_lt (0xC0 + cp / 64) (by omega)
    have e₁ := toNat_ofNat_of_lt (0x80 + cp % 64) (by omega)
    simp only [List.cons_append, List.nil_append, decode?, e₀, e₁, IsCont]
    rw [if_neg (by omega), if_neg (by omega), if_pos (by omega), if_pos (by omega)]
    congr 2
    omega
  · have e₀ := toNat_ofNat_of_lt (0xE0 + cp / 4096) (by omega)
    have e₁ := toNat_ofNat_of_lt (0x80 + cp / 64 % 64) (by omega)
    have e₂ := toNat_ofNat_of_lt (0x80 + cp % 64) (by omega)
    have ec : (0xE0 + cp / 4096) % 16 * 4096 + (0x80 + cp / 64 % 64) % 64 * 64 +
        (0x80 + cp % 64) % 64 = cp := by omega
    simp only [List.cons_append, List.nil_append, decode?, e₀, e₁, e₂, IsCont, ec]
    rw [if_neg (by omega), if_neg (by omega), if_neg (by omega), if_pos (by omega),
      if_pos ⟨by omega, by omega, by omega, h⟩]
  · have e₀ := toNat_ofNat_of_lt (0xF0 + cp / 262144) (by omega)
    have e₁ := toNat_ofNat_of_lt (0x80 + cp / 4096 % 64) (by omega)
    have e₂ := toNat_ofNat_of_lt (0x80 + cp / 64 % 64) (by omega)
    have e₃ := toNat_ofNat_of_lt (0x80 + cp % 64) (by omega)
    have ec : (0xF0 + cp / 262144) % 8 * 262144 + (0x80 + cp / 4096 % 64) % 64 * 4096 +
        (0x80 + cp / 64 % 64) % 64 * 64 + (0x80 + cp % 64) % 64 = cp := by omega
    simp only [List.cons_append, List.nil_append, decode?, e₀, e₁, e₂, e₃, IsCont, ec]
    rw [if_neg (by omega), if_neg (by omega), if_neg (by omega), if_neg (by omega),
      if_pos (by omega), if_pos ⟨by omega, by omega, by omega, by omega, by omega⟩]

theorem eq_encode_of_decode? {bs r : List UInt8} {cp : ℕ} (h : decode? bs = some (cp, r)) :
    Scalar cp ∧ bs = encode cp ++ r := by
  unfold Scalar
  rcases bs with _ | ⟨b₀, r₀⟩
  · simp [decode?] at h
  simp only [decode?] at h
  have hb := b₀.toNat_lt
  split_ifs at h with h₁ h₂ h₃ h₄ h₅
  · obtain ⟨rfl, rfl⟩ := Prod.mk.inj (Option.some.inj h)
    refine ⟨by omega, ?_⟩
    rw [encode, if_pos h₁, UInt8.ofNat_toNat]
    rfl
  · rcases r₀ with _ | ⟨b₁, r₁⟩
    · simp at h
    simp only [Option.ite_none_right_eq_some, Option.some.injEq, Prod.mk.injEq] at h
    obtain ⟨hc, hcp, rfl⟩ := h
    simp only [IsCont] at hc
    have e₀ : UInt8.ofNat (0xC0 + cp / 64) = b₀ := ofNat_eq_of_toNat (by omega)
    have e₁ : UInt8.ofNat (0x80 + cp % 64) = b₁ := ofNat_eq_of_toNat (by omega)
    refine ⟨by omega, ?_⟩
    rw [encode, if_neg (by omega), if_pos (by omega), e₀, e₁]
    rfl
  · rcases r₀ with _ | ⟨b₁, _ | ⟨b₂, r₁⟩⟩
    · simp at h
    · simp at h
    simp only [Option.ite_none_right_eq_some, Option.some.injEq, Prod.mk.injEq] at h
    obtain ⟨hc, hcp, rfl⟩ := h
    simp only [IsCont, Scalar] at hc
    rw [hcp] at hc
    have e₀ : UInt8.ofNat (0xE0 + cp / 4096) = b₀ := ofNat_eq_of_toNat (by omega)
    have e₁ : UInt8.ofNat (0x80 + cp / 64 % 64) = b₁ := ofNat_eq_of_toNat (by omega)
    have e₂ : UInt8.ofNat (0x80 + cp % 64) = b₂ := ofNat_eq_of_toNat (by omega)
    refine ⟨hc.2.2.2, ?_⟩
    rw [encode, if_neg (by omega), if_neg (by omega), if_pos (by omega), e₀, e₁, e₂]
    rfl
  · rcases r₀ with _ | ⟨b₁, _ | ⟨b₂, _ | ⟨b₃, r₁⟩⟩⟩
    · simp at h
    · simp at h
    · simp at h
    simp only [Option.ite_none_right_eq_some, Option.some.injEq, Prod.mk.injEq] at h
    obtain ⟨hc, hcp, rfl⟩ := h
    simp only [IsCont] at hc
    rw [hcp] at hc
    have e₀ : UInt8.ofNat (0xF0 + cp / 262144) = b₀ := ofNat_eq_of_toNat (by omega)
    have e₁ : UInt8.ofNat (0x80 + cp / 4096 % 64) = b₁ := ofNat_eq_of_toNat (by omega)
    have e₂ : UInt8.ofNat (0x80 + cp / 64 % 64) = b₂ := ofNat_eq_of_toNat (by omega)
    have e₃ : UInt8.ofNat (0x80 + cp % 64) = b₃ := ofNat_eq_of_toNat (by omega)
    refine ⟨by omega, ?_⟩
    rw [encode, if_neg (by omega), if_neg (by omega), if_neg (by omega), e₀, e₁, e₂, e₃]
    rfl

/-- **Decoding accepts exactly the encodings of scalar values.** -/
theorem decode?_eq_some_iff {bs r : List UInt8} {cp : ℕ} :
    decode? bs = some (cp, r) ↔ Scalar cp ∧ bs = encode cp ++ r :=
  ⟨eq_encode_of_decode?, fun ⟨h, e⟩ => by rw [e, decode?_encode h]⟩

theorem decode?_ascii {b : UInt8} (h : b.toNat < 0x80) (r : List UInt8) :
    decode? (b :: r) = some (b.toNat, r) := by
  unfold decode?
  exact if_pos h

theorem encode_append_inj {a b : ℕ} (ha : Scalar a) (hb : Scalar b) {r s : List UInt8}
    (h : encode a ++ r = encode b ++ s) : a = b ∧ r = s := by
  have h₁ := decode?_encode ha r
  rw [h, decode?_encode hb s] at h₁
  have h₂ := Prod.mk.inj (Option.some.inj h₁)
  exact ⟨h₂.1.symm, h₂.2.symm⟩

theorem encode_ne_nil (cp : ℕ) : encode cp ≠ [] := by
  unfold encode
  split_ifs <;> simp

theorem length_encode_pos (cp : ℕ) : 0 < (encode cp).length :=
  List.length_pos_iff.mpr (encode_ne_nil cp)

theorem encode_ascii {cp : ℕ} (h : cp < 0x80) : encode cp = [UInt8.ofNat cp] := if_pos h

theorem encode_eq_cons {cp : ℕ} (h : Scalar cp) :
    ∃ b t, encode cp = b :: t ∧ ¬ IsCont b ∧ (∀ c ∈ t, IsCont c) ∧
      (b.toNat < 0x80 ↔ cp < 0x80) := by
  unfold Scalar at h
  unfold encode
  split_ifs with h₁ h₂ h₃
  · have e := toNat_ofNat_of_lt cp (by omega)
    exact ⟨_, _, rfl, by rw [IsCont, e]; omega, by simp, by rw [e]⟩
  · have e₀ := toNat_ofNat_of_lt (0xC0 + cp / 64) (by omega)
    have e₁ := toNat_ofNat_of_lt (0x80 + cp % 64) (by omega)
    refine ⟨_, _, rfl, by rw [IsCont, e₀]; omega, ?_, by rw [e₀]; omega⟩
    simp only [List.mem_singleton, forall_eq, IsCont, e₁]
    omega
  · have e₀ := toNat_ofNat_of_lt (0xE0 + cp / 4096) (by omega)
    have e₁ := toNat_ofNat_of_lt (0x80 + cp / 64 % 64) (by omega)
    have e₂ := toNat_ofNat_of_lt (0x80 + cp % 64) (by omega)
    refine ⟨_, _, rfl, by rw [IsCont, e₀]; omega, ?_, by rw [e₀]; omega⟩
    simp only [List.mem_cons, List.not_mem_nil, or_false, forall_eq_or_imp, forall_eq, IsCont, e₁,
      e₂]
    omega
  · have e₀ := toNat_ofNat_of_lt (0xF0 + cp / 262144) (by omega)
    have e₁ := toNat_ofNat_of_lt (0x80 + cp / 4096 % 64) (by omega)
    have e₂ := toNat_ofNat_of_lt (0x80 + cp / 64 % 64) (by omega)
    have e₃ := toNat_ofNat_of_lt (0x80 + cp % 64) (by omega)
    refine ⟨_, _, rfl, by rw [IsCont, e₀]; omega, ?_, by rw [e₀]; omega⟩
    simp only [List.mem_cons, List.not_mem_nil, or_false, forall_eq_or_imp, forall_eq, IsCont, e₁,
      e₂, e₃]
    omega

/-! ## Texts -/

@[simp] theorem encodeAll_nil : encodeAll [] = [] := rfl

@[simp] theorem encodeAll_cons (c : ℕ) (cs : List ℕ) :
    encodeAll (c :: cs) = encode c ++ encodeAll cs := rfl

@[simp] theorem encodeAll_append (a b : List ℕ) :
    encodeAll (a ++ b) = encodeAll a ++ encodeAll b := List.flatMap_append

theorem length_le_length_encodeAll (cs : List ℕ) : cs.length ≤ (encodeAll cs).length := by
  induction cs with
  | nil => simp
  | cons c cs ih =>
    have := length_encode_pos c
    rw [encodeAll_cons, List.length_append, List.length_cons]
    omega

theorem decode?_length {bs r : List UInt8} {cp : ℕ} (h : decode? bs = some (cp, r)) :
    r.length < bs.length := by
  obtain ⟨-, rfl⟩ := eq_encode_of_decode? h
  have := length_encode_pos cp
  rw [List.length_append]
  omega

/-- The scalar values of a byte string, up to the first malformed byte. -/
def decodeAll (bs : List UInt8) : List ℕ :=
  match _h : decode? bs with
  | some (cp, r) => cp :: decodeAll r
  | none => []
termination_by bs.length
decreasing_by exact decode?_length _h

theorem decodeAll_of_some {bs r : List UInt8} {cp : ℕ} (h : decode? bs = some (cp, r)) :
    decodeAll bs = cp :: decodeAll r := by
  rw [decodeAll]
  split
  · rename_i h'
    rw [h] at h'
    obtain ⟨rfl, rfl⟩ := Prod.mk.inj (Option.some.inj h')
    rfl
  · rename_i h'
    rw [h] at h'
    exact absurd h' (by simp)

/-- **A text is recovered from its bytes.** -/
theorem decodeAll_encodeAll {cps : List ℕ} (h : ∀ c ∈ cps, Scalar c) :
    decodeAll (encodeAll cps) = cps := by
  induction cps with
  | nil => rw [encodeAll_nil, decodeAll]; rfl
  | cons c cs ih =>
    rw [encodeAll_cons, decodeAll_of_some (decode?_encode (h c List.mem_cons_self) _),
      ih fun d hd => h d (List.mem_cons_of_mem _ hd)]

theorem encodeAll_injOn {a b : List ℕ} (ha : ∀ c ∈ a, Scalar c) (hb : ∀ c ∈ b, Scalar c)
    (h : encodeAll a = encodeAll b) : a = b := by
  rw [← decodeAll_encodeAll ha, h, decodeAll_encodeAll hb]

/-- **A prefix of bytes that is itself a text is a prefix of the text.** -/
theorem prefix_of_encodeAll_prefix {a b : List ℕ} (ha : ∀ c ∈ a, Scalar c)
    (hb : ∀ c ∈ b, Scalar c) (h : encodeAll a <+: encodeAll b) : a <+: b := by
  induction a generalizing b with
  | nil => exact List.nil_prefix
  | cons x a ih =>
    obtain ⟨r, hr⟩ := h
    cases b with
    | nil =>
      rw [encodeAll_cons, encodeAll_nil] at hr
      exact absurd (List.append_eq_nil_iff.mp (List.append_eq_nil_iff.mp hr).1).1 (encode_ne_nil x)
    | cons y b =>
      rw [encodeAll_cons, encodeAll_cons, List.append_assoc] at hr
      obtain ⟨rfl, hr'⟩ := encode_append_inj (ha x List.mem_cons_self) (hb y List.mem_cons_self) hr
      rw [List.cons_prefix_cons]
      exact ⟨rfl, ih (fun c hc => ha c (List.mem_cons_of_mem _ hc))
        (fun c hc => hb c (List.mem_cons_of_mem _ hc)) ⟨r, hr'⟩⟩

/-! ## Cuts -/

theorem isCont_of_encode_eq_append {cp : ℕ} (h : Scalar cp) {x y : List UInt8}
    (he : encode cp = x ++ y) (hx : x ≠ []) : ∀ b ∈ y, IsCont b := by
  obtain ⟨b₀, t, ht, -, hc, -⟩ := encode_eq_cons h
  intro b hb
  cases x with
  | nil => exact absurd rfl hx
  | cons a x =>
    rw [ht, List.cons_append] at he
    exact hc b ((List.cons.inj he).2 ▸ List.mem_append_right x hb)

theorem not_isCont_of_encode_eq_cons {cp : ℕ} (h : Scalar cp) {b : UInt8} {t : List UInt8}
    (he : encode cp = b :: t) : ¬ IsCont b := by
  obtain ⟨b₀, t₀, ht, hb, -⟩ := encode_eq_cons h
  rw [he] at ht
  exact (List.cons.inj ht).1 ▸ hb

theorem decode?_append {bs r : List UInt8} {cp : ℕ} (h : decode? bs = some (cp, r))
    (y : List UInt8) : decode? (bs ++ y) = some (cp, r ++ y) := by
  obtain ⟨hs, rfl⟩ := eq_encode_of_decode? h
  rw [List.append_assoc, decode?_encode hs]

theorem decode?_of_isCont {b : UInt8} (h : IsCont b) (r : List UInt8) : decode? (b :: r) = none := by
  cases hd : decode? (b :: r) with
  | none => rfl
  | some p =>
    obtain ⟨hs, he⟩ := eq_encode_of_decode? (show decode? (b :: r) = some (p.1, p.2) from hd)
    obtain ⟨b₀, t, ht, hb, -⟩ := encode_eq_cons hs
    rw [ht, List.cons_append] at he
    exact absurd ((List.cons.inj he).1 ▸ h) hb

/-- Decoding a scalar value before the cut between `a` and `b` does not look behind it. -/
def Cut (a b : List UInt8) : Prop :=
  ∀ s, s <:+ a → s ≠ [] → decode? (s ++ b) = (decode? s).map fun p => (p.1, p.2 ++ b)

theorem Cut.suffix {a a' b : List UInt8} (h : Cut a b) (ha : a' <:+ a) : Cut a' b :=
  fun s hs => h s (hs.trans ha)

/-- What straddles a cut is an encoding that begins before it and ends behind it. -/
theorem cut_of_not_straddled {a b : List UInt8}
    (h : ∀ s t cp, s <:+ a → s ≠ [] → Scalar cp → encode cp = s ++ t → t ≠ [] → t <+: b → False) :
    Cut a b := by
  intro s hs hn
  cases hd : decode? s with
  | some p => exact decode?_append hd b
  | none =>
    cases hb : decode? (s ++ b) with
    | none => rfl
    | some p =>
      obtain ⟨hp, he⟩ := eq_encode_of_decode? (show decode? (s ++ b) = some (p.1, p.2) from hb)
      obtain ⟨t, ht, hr⟩ | ⟨t, ht, -⟩ := List.append_eq_append_iff.mp he
      · refine (h s t p.1 hs hn hp ht (fun ht₀ => ?_) ⟨p.2, hr.symm⟩).elim
        rw [ht₀, List.append_nil] at ht
        rw [← ht, ← List.append_nil (encode p.1), decode?_encode hp] at hd
        cases hd
      · rw [ht, decode?_encode hp] at hd
        cases hd

theorem cut_of_head {b : UInt8} (h : ¬ IsCont b) (a r : List UInt8) : Cut a (b :: r) := by
  refine cut_of_not_straddled fun s t cp _ hn hcp he ht hp => ?_
  cases t with
  | nil => exact ht rfl
  | cons b' t =>
    obtain rfl := (List.cons_prefix_cons.mp hp).1
    exact h (isCont_of_encode_eq_append hcp he hn _ List.mem_cons_self)

theorem cut_of_last {cp : ℕ} (h : Scalar cp) (a b : List UInt8) : Cut (a ++ encode cp) b := by
  refine cut_of_not_straddled fun s t c hs hn hc he ht _ => ?_
  obtain ⟨b₀, t₀, hb₀, hlead, -⟩ := encode_eq_cons h
  obtain ⟨x, hx⟩ := hs
  obtain ⟨y, hy, hs⟩ | ⟨y, hy, hs⟩ := List.append_eq_append_iff.mp hx
  · -- the encoding that straddles begins with or before the last one
    rw [hs, List.append_assoc] at he
    cases y with
    | nil =>
      rw [List.nil_append, ← List.append_nil (encode c)] at he
      exact ht (encode_append_inj hc h he).2.symm
    | cons b' y =>
      refine hlead (isCont_of_encode_eq_append hc he (List.cons_ne_nil _ _) b₀ ?_)
      rw [hb₀]
      exact List.mem_cons_self
  · -- it begins inside the last one
    cases y with
    | nil =>
      rw [List.nil_append] at hs
      rw [← hs, ← List.append_nil (encode c)] at he
      exact ht (encode_append_inj hc h he).2.symm
    | cons b' y =>
      cases s with
      | nil => exact hn rfl
      | cons d s =>
        exact not_isCont_of_encode_eq_cons hc he
          (isCont_of_encode_eq_append h hs (List.cons_ne_nil _ _) d List.mem_cons_self)

/-! ## Well-formed strings -/

theorem wellFormed_nil : WellFormed [] := ⟨[], fun _ hc => absurd hc List.not_mem_nil, rfl⟩

theorem wellFormed_encode_append {cp : ℕ} (h : Scalar cp) {r : List UInt8} :
    WellFormed (encode cp ++ r) ↔ WellFormed r := by
  constructor
  · rintro ⟨cps, hcps, he⟩
    cases cps with
    | nil => exact absurd (List.append_eq_nil_iff.mp he).1 (encode_ne_nil cp)
    | cons c cps =>
      rw [List.forall_mem_cons] at hcps
      obtain ⟨-, rfl⟩ := encode_append_inj h hcps.1 he
      exact ⟨cps, hcps.2, rfl⟩
  · rintro ⟨cps, hcps, rfl⟩
    exact ⟨cp :: cps, List.forall_mem_cons.mpr ⟨h, hcps⟩, rfl⟩

theorem wellFormed_of_decode? {bs r : List UInt8} {cp : ℕ} (h : decode? bs = some (cp, r)) :
    WellFormed bs ↔ WellFormed r := by
  obtain ⟨hs, rfl⟩ := eq_encode_of_decode? h
  exact wellFormed_encode_append hs

theorem not_wellFormed_of_decode? {bs : List UInt8} (hn : bs ≠ []) (h : decode? bs = none) :
    ¬ WellFormed bs := by
  rintro ⟨cps, hcps, rfl⟩
  cases cps with
  | nil => exact hn rfl
  | cons c cps =>
    rw [encodeAll_cons, decode?_encode (hcps c List.mem_cons_self)] at h
    cases h

theorem wellFormed_ascii_append {t : List UInt8} (h : ∀ b ∈ t, b.toNat < 0x80) (r : List UInt8) :
    WellFormed (t ++ r) ↔ WellFormed r := by
  induction t with
  | nil => rfl
  | cons b t ih =>
    rw [List.forall_mem_cons] at h
    rw [List.cons_append, wellFormed_of_decode? (decode?_ascii h.1 _), ih h.2]

theorem wellFormed_append {a b : List UInt8} (ha : WellFormed a) :
    WellFormed (a ++ b) ↔ WellFormed b := by
  obtain ⟨cps, hcps, rfl⟩ := ha
  induction cps with
  | nil => rfl
  | cons c cps ih =>
    rw [List.forall_mem_cons] at hcps
    rw [encodeAll_cons, List.append_assoc, wellFormed_encode_append hcps.1, ih hcps.2]

/-- **What stands before an encoding in a well-formed string is well formed.** -/
theorem wellFormed_of_append_encode {a r : List UInt8} {cp : ℕ} (h : Scalar cp)
    (hw : WellFormed (a ++ (encode cp ++ r))) : WellFormed a := by
  obtain ⟨b₀, t₀, hb₀, hlead, -⟩ := encode_eq_cons h
  obtain ⟨cps, hcps, he⟩ := hw
  induction cps generalizing a with
  | nil =>
    exact absurd (List.append_eq_nil_iff.mp (List.append_eq_nil_iff.mp he).2).1 (encode_ne_nil cp)
  | cons c cps ih =>
    rw [List.forall_mem_cons] at hcps
    rw [encodeAll_cons] at he
    obtain ⟨t, ht, hr⟩ | ⟨t, rfl, hr⟩ := List.append_eq_append_iff.mp he
    · -- the cut lies in or at the end of the first encoding
      cases a with
      | nil => exact wellFormed_nil
      | cons a₀ a =>
        cases t with
        | nil =>
          rw [List.append_nil] at ht
          rw [← ht, ← List.append_nil (encode c), wellFormed_encode_append hcps.1]
          exact wellFormed_nil
        | cons d t =>
          rw [hb₀, List.cons_append, List.cons_append] at hr
          obtain rfl := (List.cons.inj hr).1
          exact absurd (isCont_of_encode_eq_append hcps.1 ht (List.cons_ne_nil _ _) _
            List.mem_cons_self) hlead
    · exact (wellFormed_encode_append hcps.1).mpr (ih hcps.2 hr.symm)

end Utf8
