import StaticEmbeddings.Tokenizer.Machine

/-!
# The prefix boundary

`se_prefix_boundary_len` of `se_tokenizer.c`: the length of a leading slice that ends near `target`
at a place where, on the raw code points, a word cannot go on.

* `normalizationStable`, `cpIsCjkSegment`, `boundarySplitsAddedToken`: what the scan asks.
* `boundaryScan`, `sePrefixBoundaryLen`: the scan.
* `isSeparator`; **`sePrefixBoundaryLen_spec`**: a proper boundary lies at a separator.
* `BoundaryAt.take`, `BoundaryAt.le_sePrefixBoundaryLen`: it stays one in a longer slice, and a scan
  from further on does not end before it.
-/

namespace StaticEmbeddings

open LittleEndian

/-- `normalization_stable`. -/
def normalizationStable (m : SeModel) (cp : ℕ) : Bool :=
  if cp < 0x80 then true
  else if m.doLowerCase ≠ 0 ∧ (lowerEntry m cp).isSome then false
  else if m.stripAccents ≠ 0 ∧ ((nfdEntry m cp).isSome ∨ isMn m cp) then false
  else true

/-- `cp_is_cjk_segment`. -/
def cpIsCjkSegment (m : SeModel) (cp : ℕ) : Bool :=
  m.handleChineseChars ≠ 0 && cp ≥ 0x3400 && seIsCjk cp

/-- `boundary_splits_added_token`. -/
def boundarySplitsAddedToken (m : SeModel) (input : Bytes) (boundary : ℕ) : Bool :=
  if m.addedTokenMask = 0 ∨ boundary = 0 ∨ boundary ≥ input.length then false
  else
    seAddedTokens.any fun t =>
      m.addedTokenMask &&& t.2 ≠ 0 &&
        (List.range' 1 (t.1.length - 1)).any fun back =>
          let start := boundary - back
          back ≤ boundary && start + t.1.length ≤ input.length && input[start]? == some 0x5B &&
            slice input start t.1.length == t.1

/-- `(input[pos] & 0xC0) == 0x80`. -/
def isContAt (input : Bytes) (pos : ℕ) : Bool :=
  match input[pos]? with
  | some b => b.toNat &&& 0xC0 = 0x80
  | none => false

/-- `while (pos > floor && (input[pos] & 0xC0) == 0x80) pos--;` -/
def backToLead (input : Bytes) (floor : ℕ) : ℕ → ℕ
  | 0 => 0
  | pos + 1 =>
    if pos + 1 > floor ∧ isContAt input (pos + 1) then backToLead input floor pos else pos + 1

theorem backToLead_le (input : Bytes) (floor pos : ℕ) : backToLead input floor pos ≤ pos := by
  induction pos with
  | zero => exact le_rfl
  | succ pos ih =>
    rw [backToLead]
    split_ifs
    · exact ih.trans (Nat.le_succ _)
    · exact le_rfl

/-- The scan of `se_prefix_boundary_len`. -/
def boundaryScan (m : SeModel) (input : Bytes) (target floor pos : ℕ) : ℕ :=
  if _h : pos > floor then
    let lead := backToLead input floor (pos - 1)
    if isContAt input lead then 0
    else
      match decodeOne input lead with
      | none => 0
      | some (cp, after) =>
        if normalizationStable m cp = false then boundaryScan m input target floor lead
        else if cpIsCjkSegment m cp then
          if after ≤ target ∧ boundarySplitsAddedToken m input after = false then after
          else if lead > 0 ∧ boundarySplitsAddedToken m input lead = false then lead
          else boundaryScan m input target floor lead
        else if (isWhitespace m cp ∨ isPunct m cp) ∧ after ≤ target ∧
            boundarySplitsAddedToken m input after = false then after
        else boundaryScan m input target floor lead
  else 0
termination_by pos
decreasing_by
  all_goals
    have := backToLead_le input floor (pos - 1)
    omega

/-- `se_prefix_boundary_len`. -/
def sePrefixBoundaryLen (m : SeModel) (input : Bytes) (target backscan : ℕ) : ℕ :=
  if target ≥ input.length then input.length
  else if target = 0 then 0
  else boundaryScan m input target (if target > backscan then target - backscan else 0) target

/-! ## Where the boundary lies -/

/-- The code points that the scan cuts at. -/
def isSeparator (m : SeModel) (cp : ℕ) : Bool :=
  normalizationStable m cp && (cpIsCjkSegment m cp || isWhitespace m cp || isPunct m cp)

/-- A boundary at a separator: behind it, or before it if it is a segment of its own. -/
structure BoundaryAt (m : SeModel) (input : Bytes) (r cp lead after : ℕ) : Prop where
  decode : decodeOne input lead = some (cp, after)
  separator : isSeparator m cp = true
  place : r = after ∨ r = lead ∧ cpIsCjkSegment m cp = true
  whole : boundarySplitsAddedToken m input r = false

theorem boundaryScan_spec {m : SeModel} {input : Bytes} {target floor pos : ℕ} (hp : pos ≤ target)
    (h : boundaryScan m input target floor pos ≠ 0) :
    boundaryScan m input target floor pos ≤ target ∧ ∃ cp lead after,
      BoundaryAt m input (boundaryScan m input target floor pos) cp lead after := by
  induction pos using Nat.strong_induction_on with
  | _ pos ih =>
    rw [boundaryScan] at h ⊢
    by_cases hpos : pos > floor
    swap
    · rw [dif_neg hpos] at h
      exact absurd rfl h
    rw [dif_pos hpos] at h ⊢
    have hlead := backToLead_le input floor (pos - 1)
    revert h
    generalize backToLead input floor (pos - 1) = lead at hlead ⊢
    intro h
    dsimp only at h ⊢
    by_cases hc : isContAt input lead = true
    · rw [if_pos hc] at h
      exact absurd rfl h
    rw [if_neg hc] at h ⊢
    have next := ih lead (by omega) (by omega)
    cases hd : decodeOne input lead with
    | none =>
      rw [hd] at h
      exact absurd rfl h
    | some q =>
      obtain ⟨cp, after⟩ := q
      rw [hd] at h
      dsimp only at h ⊢
      by_cases hs : normalizationStable m cp = false
      · rw [if_pos hs] at h ⊢
        exact next h
      rw [if_neg hs] at h ⊢
      rw [Bool.not_eq_false] at hs
      by_cases hj : cpIsCjkSegment m cp = true
      · have hsep : isSeparator m cp = true := by rw [isSeparator, hs, hj]; rfl
        rw [if_pos hj] at h ⊢
        split_ifs at h ⊢ with h₁ h₂
        · exact ⟨h₁.1, cp, lead, after, hd, hsep, .inl rfl, h₁.2⟩
        · exact ⟨by omega, cp, lead, after, hd, hsep, .inr ⟨rfl, hj⟩, h₂.2⟩
        · exact next h
      · rw [if_neg hj] at h ⊢
        split_ifs at h ⊢ with h₁
        · have hsep : isSeparator m cp = true := by
            rw [isSeparator, hs, Bool.true_and, Bool.or_assoc]
            exact Bool.or_eq_true_iff.mpr (.inr (Bool.or_eq_true_iff.mpr h₁.1))
          exact ⟨h₁.2.1, cp, lead, after, hd, hsep, .inl rfl, h₁.2.2⟩
        · exact next h

theorem sePrefixBoundaryLen_le (m : SeModel) (input : Bytes) (target backscan : ℕ) :
    sePrefixBoundaryLen m input target backscan ≤ input.length := by
  unfold sePrefixBoundaryLen
  split_ifs with h₁ h₂
  · exact le_rfl
  · exact Nat.zero_le _
  · by_cases h : boundaryScan m input target (target - backscan) target = 0
    · rw [h]
      exact Nat.zero_le _
    · exact (boundaryScan_spec le_rfl h).1.trans (not_le.1 h₁).le
  · by_cases h : boundaryScan m input target 0 target = 0
    · rw [h]
      exact Nat.zero_le _
    · exact (boundaryScan_spec le_rfl h).1.trans (not_le.1 h₁).le

/-- **A boundary inside the input lies at a separator**, at most `target` bytes in. -/
theorem sePrefixBoundaryLen_spec {m : SeModel} {input : Bytes} {target backscan : ℕ}
    (h₀ : 0 < sePrefixBoundaryLen m input target backscan)
    (hl : sePrefixBoundaryLen m input target backscan < input.length) :
    sePrefixBoundaryLen m input target backscan ≤ target ∧ ∃ cp lead after,
      BoundaryAt m input (sePrefixBoundaryLen m input target backscan) cp lead after := by
  unfold sePrefixBoundaryLen at h₀ hl ⊢
  by_cases h₁ : target ≥ input.length
  · rw [if_pos h₁] at hl
    exact absurd hl (lt_irrefl _)
  rw [if_neg h₁] at h₀ ⊢
  by_cases h₂ : target = 0
  · rw [if_pos h₂] at h₀
    exact absurd h₀ (lt_irrefl _)
  rw [if_neg h₂] at h₀ ⊢
  exact boundaryScan_spec le_rfl h₀.ne'

/-! ## Longer slices -/

section

variable {m : SeModel} {input : Bytes} {r c lead after target floor pos : ℕ}

theorem isContAt_of_decodeOne (h : decodeOne input lead = some (c, after)) :
    isContAt input lead = false := by
  obtain ⟨⟨b, hb, hlead⟩, -⟩ := decodeOne_bytes h
  rw [isContAt, hb]
  simpa [and_c0_eq_80_iff] using hlead

theorem le_backToLead (h : isContAt input lead = false) (hle : lead ≤ pos) :
    lead ≤ backToLead input floor pos := by
  induction pos with
  | zero => exact hle
  | succ pos ih =>
    rw [backToLead]
    split_ifs with hback
    · refine ih (Nat.le_of_lt_succ (hle.lt_of_ne ?_))
      rintro rfl
      rw [h] at hback
      exact Bool.false_ne_true hback.2
    · exact hle

/-- **A scan that starts behind a boundary's separator does not end before the boundary.** -/
theorem BoundaryAt.le_boundaryScan (h : BoundaryAt m input r c lead after) (hpos : lead < pos)
    (hr : r ≤ target) : boundaryScan m input target floor pos = 0 ∨
      r ≤ boundaryScan m input target floor pos := by
  induction pos using Nat.strong_induction_on with
  | _ pos ih =>
    rw [boundaryScan]
    by_cases hfloor : pos > floor
    swap
    · exact .inl (dif_neg hfloor)
    rw [dif_pos hfloor]
    have hle := backToLead_le input floor (pos - 1)
    have hge : lead ≤ backToLead input floor (pos - 1) :=
      le_backToLead (isContAt_of_decodeOne h.decode) (by omega)
    generalize backToLead input floor (pos - 1) = lead' at hle hge ⊢
    dsimp only
    by_cases hcont : isContAt input lead' = true
    · exact .inl (if_pos hcont)
    rw [if_neg hcont]
    cases hdecode : decodeOne input lead' with
    | none => exact .inl rfl
    | some q =>
      obtain ⟨c', after'⟩ := q
      dsimp only
      have hafter := decodeOne_lt hdecode
      rcases hge.eq_or_lt with rfl | hlt
      · -- the separator itself
        obtain ⟨rfl, rfl⟩ := Prod.mk.inj (Option.some.inj (h.decode.symm.trans hdecode))
        have hsep := h.separator
        have hwhole := h.whole
        rw [isSeparator, Bool.and_eq_true, Bool.or_assoc, Bool.or_eq_true] at hsep
        rw [if_neg (by rw [hsep.1]; exact Bool.false_ne_true.symm)]
        obtain rfl | ⟨rfl, hcjk⟩ := h.place
        · by_cases hj : cpIsCjkSegment m c = true
          · rw [if_pos hj, if_pos ⟨hr, hwhole⟩]
            exact .inr le_rfl
          · rw [if_neg hj, if_pos ⟨by simpa [hj] using hsep.2, hr, hwhole⟩]
            exact .inr le_rfl
        · rw [if_pos hcjk]
          rcases Nat.eq_zero_or_pos r with rfl | hr₀
          · exact .inr (Nat.zero_le _)
          · split_ifs with h₁ h₂
            · exact .inr hafter.le
            · exact .inr le_rfl
            · exact absurd ⟨hr₀, hwhole⟩ h₂
      · -- a code point behind it
        have hle' : r ≤ lead' := by
          have := decodeOne_disjoint h.decode hdecode hlt
          have := decodeOne_lt h.decode
          have := h.place
          omega
        have next := ih lead' (by omega) hlt
        split_ifs <;> first | exact next | (right; omega)

theorem BoundaryAt.le_sePrefixBoundaryLen (h : BoundaryAt m input r c lead after)
    (hlead : lead < target) (hr : r ≤ target) (hin : r ≤ input.length) {backscan : ℕ}
    (h₀ : sePrefixBoundaryLen m input target backscan ≠ 0) :
    r ≤ sePrefixBoundaryLen m input target backscan := by
  unfold sePrefixBoundaryLen at h₀ ⊢
  split_ifs at h₀ ⊢ with h₁ h₂ h₃
  · exact hin
  · exact absurd rfl h₀
  · exact (h.le_boundaryScan hlead hr).resolve_left h₀
  · exact (h.le_boundaryScan hlead hr).resolve_left h₀

theorem BoundaryAt.after_le (h : BoundaryAt m input r c lead after) {r' c' lead' after' : ℕ}
    (h' : BoundaryAt m input r' c' lead' after') (hlt : r < r') : after ≤ r' := by
  have hpos := decodeOne_lt h.decode
  have hpos' := decodeOne_lt h'.decode
  have hplace := h.place
  have hplace' := h'.place
  rcases lt_trichotomy lead lead' with hl | rfl | hl
  · have := decodeOne_disjoint h.decode h'.decode hl
    omega
  · obtain ⟨-, rfl⟩ := Prod.mk.inj (Option.some.inj (h.decode.symm.trans h'.decode))
    omega
  · have := decodeOne_disjoint h'.decode h.decode hl
    omega

theorem boundarySplitsAddedToken_take {n : ℕ} (hlt : r < n) (hn : n ≤ input.length)
    (h : boundarySplitsAddedToken m input r = false) :
    boundarySplitsAddedToken m (input.take n) r = false := by
  have hlen : (input.take n).length = n := List.length_take_of_le hn
  unfold boundarySplitsAddedToken at h ⊢
  by_cases hout : m.addedTokenMask = 0 ∨ r = 0
  · rw [if_pos (by omega)]
  rw [if_neg (by omega)] at h ⊢
  refine List.any_eq_false.mpr fun t ht => ?_
  have ht' := List.any_eq_false.mp h t ht
  simp only [Bool.and_eq_true, not_and, Bool.not_eq_true] at ht' ⊢
  refine fun hmask => List.any_eq_false.mpr fun back hback => ?_
  have hb := List.any_eq_false.mp (ht' hmask) back hback
  simp only [Bool.and_eq_true, decide_eq_true_eq, beq_iff_eq, not_and] at hb ⊢
  intro ⟨⟨hle, hin⟩, hhead⟩ hslice
  rw [hlen] at hin
  rw [List.getElem?_take_of_lt (by omega)] at hhead
  have hsame : slice (input.take n) (r - back) t.1.length = slice input (r - back) t.1.length := by
    rw [slice, slice, List.drop_take, List.take_take, min_eq_left (by omega)]
  exact hb ⟨⟨hle, by omega⟩, hhead⟩ (hsame ▸ hslice)

theorem BoundaryAt.take (h : BoundaryAt m input r c lead after) {n : ℕ} (hlt : r < n)
    (hafter : after ≤ n) (hn : n ≤ input.length) : BoundaryAt m (input.take n) r c lead after where
  decode := by
    obtain ⟨rest, hs, hdrop, hlen⟩ := decodeOne_eq_some_iff.mp h.decode
    refine decodeOne_eq_some_iff.mpr ⟨rest.take (n - after), hs, ?_, hlen⟩
    rw [List.drop_take, hdrop, List.take_append, List.take_of_length_le (by omega)]
    congr 2
    omega
  separator := h.separator
  place := h.place
  whole := boundarySplitsAddedToken_take hlt hn h.whole

end

end StaticEmbeddings
