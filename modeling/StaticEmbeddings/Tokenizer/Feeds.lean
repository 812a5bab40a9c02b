import StaticEmbeddings.Tokenizer.Normalize

/-!
# The input as a stream of feeds

`se_tokenize` feeds code points to `feed_token_cp` and ids to `append_direct_id`. Which ones, and
whether the input ends well formed, does not depend on what was emitted before.

* `literalAt`, `feeds`: the feeds of a byte string; `feeds_literal`, `feeds_decode`,
  `feeds_invalid`.
* `feedEvent`, `performFeeds`: what the tokenizer does with them.
* **`tokenizeLoop_eq`**: the loop of `se_tokenize` performs the feeds of its input.
-/

namespace StaticEmbeddings

open LittleEndian

/-- What reaches `feed_token_cp` or `append_direct_id`. -/
inductive Feed
  | cp (c : ℕ) | added (id : ℕ)
  deriving DecidableEq, Repr

/-- The failure of `decode_one` in `se_tokenize`. -/
def invalidUtf8 : SeError := ⟨.errInvalidUtf8, "input is not valid UTF-8"⟩

/-- The added-token literal at the front of a byte string. -/
def literalAt (m : SeModel) (bs : Bytes) : Option (ℕ × ℕ) := matchAddedToken m bs 0

theorem matchAddedToken_eq (m : SeModel) (input : Bytes) (pos : ℕ) :
    matchAddedToken m input pos = literalAt m (input.drop pos) := by
  simp only [literalAt, matchAddedToken, slice, List.getElem?_drop, List.length_drop,
    List.drop_zero, Nat.sub_zero, Nat.add_zero]
  rfl

theorem literalAt_pos {m : SeModel} {bs : Bytes} {id len : ℕ}
    (h : literalAt m bs = some (id, len)) : 0 < len := matchAddedToken_pos h

/-- The feeds of a byte string up to the first malformed byte, and whether there is none. -/
def feeds (m : SeModel) (bs : Bytes) : List Feed × Bool :=
  if _hb : bs = [] then ([], true)
  else
    match _hm : literalAt m bs with
    | some (id, len) => (.added id :: (feeds m (bs.drop len)).1, (feeds m (bs.drop len)).2)
    | none =>
      match _hd : Utf8.decode? bs with
      | none => ([], false)
      | some (cp, r) => ((cleanedCps m cp).map .cp ++ (feeds m r).1, (feeds m r).2)
termination_by bs.length
decreasing_by
  · have := literalAt_pos _hm
    have := List.length_pos_iff.mpr _hb
    rw [List.length_drop]
    omega
  · exact Utf8.decode?_length _hd

section

variable {m : SeModel} {bs r : Bytes} {cp id len : ℕ}

@[simp] theorem feeds_nil : feeds m [] = ([], true) := by
  rw [feeds, dif_pos rfl]

theorem literalAt_nil : literalAt m [] = none := by
  simp [literalAt, matchAddedToken]

theorem feeds_literal (h : literalAt m bs = some (id, len)) :
    feeds m bs = (.added id :: (feeds m (bs.drop len)).1, (feeds m (bs.drop len)).2) := by
  have hb : bs ≠ [] := by
    rintro rfl
    rw [literalAt_nil] at h
    cases h
  rw [feeds, dif_neg hb]
  split
  · rename_i h'
    rw [h] at h'
    cases h'
    rfl
  · rename_i h'
    rw [h] at h'
    cases h'

theorem feeds_decode (hl : literalAt m bs = none) (h : Utf8.decode? bs = some (cp, r)) :
    feeds m bs = ((cleanedCps m cp).map .cp ++ (feeds m r).1, (feeds m r).2) := by
  have hb : bs ≠ [] := by
    rintro rfl
    cases h
  rw [feeds, dif_neg hb]
  split
  · rename_i h'
    rw [hl] at h'
    cases h'
  · split
    · rename_i h'
      rw [h] at h'
      cases h'
    · rename_i h'
      rw [h] at h'
      cases h'
      rfl

theorem feeds_invalid (hb : bs ≠ []) (hl : literalAt m bs = none) (h : Utf8.decode? bs = none) :
    feeds m bs = ([], false) := by
  rw [feeds, dif_neg hb]
  split
  · rename_i h'
    rw [hl] at h'
    cases h'
  · split
    · rfl
    · rename_i h'
      rw [h] at h'
      cases h'

end

/-! ## Performing feeds -/

/-- One feed. -/
def feedEvent (p : TokenParams) (st : TokenState) : Feed → Except SeError TokenState
  | .cp c => feedTokenCp p st c
  | .added id => do
    let st ← flushSegment p st
    if st.truncated then return st else appendDirectId p st id

/-- The feeds of an input, until the cap, and the failure where the input is malformed. -/
def performFeeds (p : TokenParams) (st : TokenState) (r : List Feed × Bool) :
    Except SeError TokenState := do
  let st ← StopFold.run halted (feedEvent p) st r.1
  if st.truncated || r.2 then return st else .error invalidUtf8

section

variable {p : TokenParams} {st : TokenState}

theorem performFeeds_of_halted (h : st.truncated = true) (r : List Feed × Bool) :
    performFeeds p st r = .ok st := by
  have hr := @StopFold.run_of_stop _ _ _ halted (feedEvent p) st h r.1
  rw [performFeeds, hr]
  show (if (st.truncated || r.2) = true then _ else _) = _
  rw [h]
  rfl

theorem performFeeds_append (es fs : List Feed) (ok : Bool) :
    performFeeds p st (es ++ fs, ok) =
      StopFold.run halted (feedEvent p) st es >>= fun st' => performFeeds p st' (fs, ok) := by
  simp only [performFeeds, StopFold.run_append, bind_assoc]

theorem performFeeds_cons (h : halted st = false) (e : Feed) (fs : List Feed) (ok : Bool) :
    performFeeds p st (e :: fs, ok) = feedEvent p st e >>= fun st' => performFeeds p st' (fs, ok) := by
  rw [← List.singleton_append, performFeeds_append, StopFold.run_singleton h]

theorem run_feedEvent_cp (cps : List ℕ) :
    StopFold.run halted (feedEvent p) st (cps.map .cp) =
      StopFold.run halted (feedTokenCp p) st cps := by
  induction cps generalizing st with
  | nil => rfl
  | cons c cps ih =>
    simp only [List.map_cons, StopFold.run]
    split_ifs
    · rfl
    · exact bind_congr fun st' => ih

end

/-! ## The loops -/

section

variable {p : TokenParams} {input : Bytes} {i j n : ℕ} {st st' : TokenState}

theorem drop_eq_cons_of_getElem? {b : UInt8} (h : input[i]? = some b) :
    input.drop i = b :: input.drop (i + 1) := by
  obtain ⟨hi, rfl⟩ := List.getElem?_eq_some_iff.mp h
  exact List.drop_eq_getElem_cons hi

theorem feeds_ascii {m : SeModel} {b : UInt8} (hb : input[i]? = some b) (hlt : b.toNat < 0x80)
    (hl : matchAddedToken m input i = none) :
    feeds m (input.drop i) =
      ((cleanedCps m b.toNat).map .cp ++ (feeds m (input.drop (i + 1))).1,
        (feeds m (input.drop (i + 1))).2) := by
  rw [matchAddedToken_eq] at hl
  refine feeds_decode hl ?_
  rw [drop_eq_cons_of_getElem? hb, Utf8.decode?_ascii hlt]

theorem feedTokenCp_word {b : ℕ} (hb : b < 0x80) (hcls : asciiClass b = .word) :
    feedTokenCp p st (asciiLower p.model b) =
      .ok { st with segment := st.segment ++ [asciiLower p.model b] } := by
  have hl : asciiLower p.model b < 0x80 ∧ seIsAsciiWhitespace (asciiLower p.model b) = false ∧
      seIsAsciiPunct (asciiLower p.model b) = false := by
    have h₀ : ∀ b < 0x80, asciiClass b = .word →
        seIsAsciiWhitespace b = false ∧ seIsAsciiPunct b = false := by decide +kernel
    have h₁ : ∀ b < 0x5B, 0x41 ≤ b → seIsAsciiWhitespace (b + 32) = false ∧
        seIsAsciiPunct (b + 32) = false := by decide +kernel
    unfold asciiLower
    split_ifs with h
    · exact ⟨by omega, h₁ b (by omega) h.2.1⟩
    · exact ⟨hb, h₀ b hb hcls⟩
  have hw : isWhitespace p.model (asciiLower p.model b) = false := by
    rw [isWhitespace, isWhitespace?, if_pos hl.1, hl.2.1]
    rfl
  have hp : isPunct p.model (asciiLower p.model b) = false := by
    rw [isPunct, isPunct?, if_pos hl.1, hl.2.2]
    rfl
  rw [feedTokenCp, if_neg (by simp [hw]), if_neg (by simp [hp]), appendSegmentCp,
    if_neg (by omega)]

theorem feedTokenCp_space : feedTokenCp p st 0x20 = flushSegment p st := if_pos rfl

theorem feedTokenCp_punct {b : ℕ} (hb : b < 0x80) (hcls : asciiClass b = .punct) :
    feedTokenCp p st (asciiLower p.model b) = flushSegment p st >>= fun st =>
      if st.truncated then pure st else appendWordpiece p st [b] := by
  have h₀ : ∀ b < 0x80, asciiClass b = .punct → ¬ (0x41 ≤ b ∧ b ≤ 0x5A) ∧
      seIsAsciiWhitespace b = false ∧ seIsAsciiPunct b = true := by decide +kernel
  obtain ⟨hu, hw, hp⟩ := h₀ b hb hcls
  have hl : asciiLower p.model b = b := if_neg (by tauto)
  have hw' : isWhitespace p.model b = false := by rw [isWhitespace, isWhitespace?, if_pos hb, hw]; rfl
  have hp' : isPunct p.model b = true := by rw [isPunct, isPunct?, if_pos hb, hp]; rfl
  rw [hl, feedTokenCp, if_neg (by simp [hw']), if_pos hp']

/-- The fast path performs the feeds it passes over. -/
theorem tokenizeAsciiRun_eq (hm : p.model.cleanText = 1) (hc : p.cancelled = neverCancelled)
    (hs : halted st = false) :
    (tokenizeAsciiRun p input n i st >>= fun r =>
        performFeeds p r.1 (feeds p.model (input.drop r.2))) =
      performFeeds p st (feeds p.model (input.drop i)) := by
  -- a branch that stops leaves the remaining feeds undone
  have stopped : ∀ {st : TokenState} (k : ℕ) (r : List Feed × Bool), st.truncated = true →
      (pure (st, k) >>= fun r : TokenState × ℕ => performFeeds p r.1 (feeds p.model (input.drop r.2)))
        = performFeeds p st r := fun k r h => by
    rw [performFeeds_of_halted h]
    exact performFeeds_of_halted h _
  fun_induction tokenizeAsciiRun p input n i st with
  | case1 n i st hb => rfl
  | case2 n i st b hb hge => rfl
  | case3 n i st b hb hlt id len hl ih =>
    rw [matchAddedToken_eq] at hl
    rw [feeds_literal hl, performFeeds_cons hs, feedEvent, bind_assoc, bind_assoc]
    refine bind_congr fun st₁ => ?_
    split_ifs with h₁
    · exact stopped _ _ h₁
    rw [bind_assoc]
    refine bind_congr fun st₂ => ?_
    rw [List.drop_drop]
    split_ifs with h₂
    · exact stopped _ _ h₂
    · exact ih st₂ (by simpa [halted] using h₂)
  | case4 n i st b hb hlt hl hcan =>
    rw [hc] at hcan
    exact absurd hcan.2 (by simp [neverCancelled])
  | case5 n i st b hb hlt hl hcan next hcls cp ih =>
    rw [feeds_ascii hb (by omega) hl, cleanedCps_ascii hm (by omega), hcls, List.map_singleton,
      List.singleton_append, performFeeds_cons hs, feedEvent, feedTokenCp_word (by omega) hcls]
    exact ih hs
  | case6 n i st b hb hlt hl hcan next hcls ih =>
    rw [feeds_ascii hb (by omega) hl, cleanedCps_ascii hm (by omega), hcls]
    exact ih hs
  | case7 n i st b hb hlt hl hcan next hcls ih =>
    rw [feeds_ascii hb (by omega) hl, cleanedCps_ascii hm (by omega), hcls, List.map_singleton,
      List.singleton_append, performFeeds_cons hs, feedEvent, feedTokenCp_space, bind_assoc]
    refine bind_congr fun st₁ => ?_
    split_ifs with h₁
    · exact stopped _ _ h₁
    · exact ih st₁ (by simpa [halted] using h₁)
  | case8 n i st b hb hlt hl hcan next hcls ih =>
    rw [feeds_ascii hb (by omega) hl, cleanedCps_ascii hm (by omega), hcls, List.map_singleton,
      List.singleton_append, performFeeds_cons hs, feedEvent, feedTokenCp_punct (by omega) hcls,
      bind_assoc, bind_assoc]
    refine bind_congr fun st₁ => ?_
    split_ifs with h₁
    · exact stopped _ _ h₁
    rw [bind_assoc]
    refine bind_congr fun st₂ => ?_
    split_ifs with h₂
    · exact stopped _ _ h₂
    · exact ih st₂ (by simpa [halted] using h₂)

theorem literalAt_of_ge {m : SeModel} {bs : Bytes} (h : ∀ b, bs[0]? = some b → 0x80 ≤ b.toNat) :
    literalAt m bs = none := by
  unfold literalAt matchAddedToken
  refine if_pos (Or.inr fun hb => ?_)
  exact absurd (h _ hb) (by decide)

theorem performFeeds_decodeOne (hs : halted st = false)
    (hb : ∀ b, input[i]? = some b → 0x80 ≤ b.toNat) (hi : i < input.length) :
    performFeeds p st (feeds p.model (input.drop i)) =
      match decodeOne input i with
      | none => .error invalidUtf8
      | some (cp, k) => emitCleaned p st cp >>= fun st =>
          performFeeds p st (feeds p.model (input.drop k)) := by
  have hl : literalAt p.model (input.drop i) = none :=
    literalAt_of_ge fun b h => hb b (by simpa [List.getElem?_drop] using h)
  rcases hd : decodeOne input i with _ | ⟨cp, k⟩
  · rw [decodeOne_eq, Option.map_eq_none_iff] at hd
    rw [feeds_invalid (by simpa using hi) hl hd]
    show (if (st.truncated || false) = true then _ else _) = _
    rw [show st.truncated = false from hs]
    rfl
  · obtain ⟨r, hcp, hr, hk⟩ := decodeOne_eq_some_iff.mp hd
    have hk' : input.drop k = r := by rw [hk, ← List.drop_drop, hr, List.drop_left]
    rw [feeds_decode hl (Utf8.decode?_eq_some_iff.mpr ⟨hcp, hr⟩), performFeeds_append,
      run_feedEvent_cp, ← emitCleaned_eq hs, ← hk']

/-- **The loop of `se_tokenize` performs the feeds of its input.** -/
theorem tokenizeLoop_eq (hm : p.model.cleanText = 1) (hc : p.cancelled = neverCancelled)
    (hs : halted st = false) (iterations : ℕ) :
    tokenizeLoop p input iterations i st = performFeeds p st (feeds p.model (input.drop i)) := by
  -- the fast path, where it is taken, performs the feeds it passes over
  have fast : ∀ {i : ℕ} {b : UInt8} {st : TokenState} {r : Except SeError (TokenState × ℕ)},
      halted st = false → input[i]? = some b →
      (if _ : b.toNat < 0x80 then tokenizeAsciiRun p input (i + seAsciiCancelStride) i st
        else .ok (st, i)) = r →
      (r >>= fun r => performFeeds p r.1 (feeds p.model (input.drop r.2))) =
        performFeeds p st (feeds p.model (input.drop i)) ∧
      ∀ st' j, r = .ok (st', j) → st'.truncated = false →
        ∀ b, input[j]? = some b → 0x80 ≤ b.toNat := by
    rintro i b st r hs hb rfl
    split_ifs with hlt
    · exact ⟨tokenizeAsciiRun_eq hm hc hs, fun st' j h => (tokenizeAsciiRun_spec h).2⟩
    · refine ⟨rfl, fun st' j h _ c hc => ?_⟩
      cases h
      rw [hb] at hc
      cases hc
      omega
  fun_induction tokenizeLoop p input iterations i st with
  | case1 it i st hb =>
    rw [List.drop_eq_nil_of_le (List.getElem?_eq_none_iff.mp hb), feeds_nil]
    simp [performFeeds]
  | case2 it i st b hb hcan =>
    rw [hc] at hcan
    exact absurd hcan.2 (by simp [neverCancelled])
  | case3 it i st b hb hcan e hr => exact (fast hs hb hr).1
  | case4 it i st b hb hcan st' j hr hend =>
    rw [← (fast hs hb hr).1]
    show _ = performFeeds p st' (feeds p.model (input.drop j))
    rcases hend with h | h
    · exact (performFeeds_of_halted h _).symm
    · rw [List.drop_eq_nil_of_le h, feeds_nil]
      simp [performFeeds]
  | case5 it i st b hb hcan st' j hr hend hd =>
    obtain ⟨hst', hj⟩ := not_or.mp hend
    have hst' : halted st' = false := by simpa [halted] using hst'
    obtain ⟨h₁, h₂⟩ := fast hs hb hr
    rw [← h₁]
    show _ = performFeeds p st' (feeds p.model (input.drop j))
    rw [performFeeds_decodeOne hst' (h₂ st' j rfl hst') (by omega), hd]
    rfl
  | case6 it i st b hb hcan st' j hr hend cp k hd ih =>
    obtain ⟨hst', hj⟩ := not_or.mp hend
    have hst' : halted st' = false := by simpa [halted] using hst'
    obtain ⟨h₁, h₂⟩ := fast hs hb hr
    rw [← h₁]
    show _ = performFeeds p st' (feeds p.model (input.drop j))
    rw [performFeeds_decodeOne hst' (h₂ st' j rfl hst') (by omega), hd]
    refine bind_congr fun st₂ => ?_
    split_ifs with h
    · exact (performFeeds_of_halted h _).symm
    · exact ih st₂ (by simpa [halted] using h)

end

end StaticEmbeddings
