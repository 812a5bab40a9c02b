import StaticEmbeddings.Lib.Transducer
import StaticEmbeddings.Tokenizer.Machine

/-!
# Normalization, code point by code point

What `emit_cleaned` feeds to `feed_token_cp` depends on the code point alone.

* `loweredCps`, `strippedCps`, `cleanedCps`: the code points fed.
* **`emitCleaned_eq`**: `emit_cleaned` feeds `cleanedCps`, one after the other until the cap.
* ASCII: `cleanedCps_ascii`.
-/

namespace StaticEmbeddings

/-- The cap was reached. -/
def halted (st : TokenState) : Bool := st.truncated

/-- The code points that `emit_lowered` feeds. -/
def loweredCps (m : SeModel) (cp : ℕ) : List ℕ :=
  if m.doLowerCase ≠ 0 then
    if 0x41 ≤ cp ∧ cp ≤ 0x5A then [cp + 32]
    else if cp ≥ 0x80 then
      match lowerEntry m cp with
      | some e => e.out.take e.len
      | none => [cp]
    else [cp]
  else [cp]

/-- The code points that `emit_stripped` feeds. -/
def strippedCps (m : SeModel) (cp : ℕ) : List ℕ :=
  if m.stripAccents = 0 ∨ cp < 0x80 then loweredCps m cp
  else
    match nfdEntry m cp with
    | none => if isMn m cp then [] else loweredCps m cp
    | some e => (e.out.take e.len).flatMap fun d => if isMn m d then [] else loweredCps m d

/-- The code points that `emit_cleaned` feeds. -/
def cleanedCps (m : SeModel) (cp : ℕ) : List ℕ :=
  if m.cleanText ≠ 0 ∧ (cp = 0 ∨ cp = 0xFFFD ∨ isControl m cp) then []
  else
    let cp := if m.cleanText ≠ 0 ∧ isWhitespace m cp then 0x20 else cp
    if m.handleChineseChars ≠ 0 ∧ cp ≥ 0x3400 ∧ seIsCjk cp then
      strippedCps m 0x20 ++ strippedCps m cp ++ strippedCps m 0x20
    else strippedCps m cp

section

variable {p : TokenParams} {st : TokenState}

theorem run_append_eq (f : TokenState → ℕ → Except SeError TokenState) (as bs : List ℕ) :
    StopFold.run halted f st (as ++ bs) = StopFold.run halted f st as >>= fun st' =>
      if st'.truncated then pure st' else StopFold.run halted f st' bs := by
  rw [StopFold.run_append]
  refine bind_congr fun st' => ?_
  by_cases hs : halted st' = true
  · rw [StopFold.run_of_stop hs, if_pos (show st'.truncated = true from hs)]
    rfl
  · rw [if_neg (show ¬ st'.truncated = true from hs)]

theorem forEachCp_eq {f : TokenState → ℕ → Except SeError TokenState} (h : halted st = false)
    (cps : List ℕ) : forEachCp f st cps = StopFold.run halted f st cps := by
  induction cps generalizing st with
  | nil => rfl
  | cons c cps ih =>
    rw [← List.singleton_append, run_append_eq, StopFold.run_singleton h, List.singleton_append,
      forEachCp]
    refine bind_congr fun st' => ?_
    by_cases hs : st'.truncated = true
    · rw [if_pos hs, if_pos hs]
    · rw [if_neg hs, if_neg hs, ih (by simpa [halted] using hs)]

theorem emitLowered_eq (h : halted st = false) (cp : ℕ) :
    emitLowered p st cp = StopFold.run halted (feedTokenCp p) st (loweredCps p.model cp) := by
  have single : ∀ c, feedTokenCp p st c = StopFold.run halted (feedTokenCp p) st [c] :=
    fun c => (StopFold.run_singleton h c).symm
  unfold emitLowered loweredCps
  split_ifs
  · exact single _
  · rcases lowerEntry p.model cp with _ | e
    · exact single _
    · exact forEachCp_eq h _
  · exact single _
  · exact single _

theorem emitStripped_eq (h : halted st = false) (cp : ℕ) :
    emitStripped p st cp = StopFold.run halted (feedTokenCp p) st (strippedCps p.model cp) := by
  unfold emitStripped strippedCps
  by_cases h₁ : p.model.stripAccents = 0 ∨ cp < 0x80
  · rw [if_pos h₁, if_pos h₁]
    exact emitLowered_eq h cp
  rw [if_neg h₁, if_neg h₁]
  rcases nfdEntry p.model cp with _ | e
  · dsimp only
    split_ifs
    · rfl
    · exact emitLowered_eq h cp
  · dsimp only
    rw [forEachCp_eq h]
    refine StopFold.run_flatMap (fun s d hs => ?_) st _
    split_ifs
    · rfl
    · exact emitLowered_eq hs d

/-- **`emit_cleaned` feeds `cleanedCps`.** -/
theorem emitCleaned_eq (h : halted st = false) (cp : ℕ) :
    emitCleaned p st cp = StopFold.run halted (feedTokenCp p) st (cleanedCps p.model cp) := by
  unfold emitCleaned cleanedCps
  dsimp only
  by_cases h₁ : p.model.cleanText ≠ 0 ∧ (cp = 0 ∨ cp = 0xFFFD ∨ isControl p.model cp = true)
  · rw [if_pos h₁, if_pos h₁]
    rfl
  rw [if_neg h₁, if_neg h₁]
  generalize (if p.model.cleanText ≠ 0 ∧ isWhitespace p.model cp = true then 0x20 else cp) = c
  split_ifs with h₂
  · rw [List.append_assoc, run_append_eq, ← emitStripped_eq h]
    refine bind_congr fun st₁ => ?_
    split_ifs with h₃
    · rfl
    · have h₃ : halted st₁ = false := by simpa [halted] using h₃
      rw [run_append_eq, ← emitStripped_eq h₃]
      refine bind_congr fun st₂ => ?_
      split_ifs with h₄
      · rfl
      · exact emitStripped_eq (by simpa [halted] using h₄) _
  · exact emitStripped_eq h c

end

/-! ## ASCII -/

/-- What an ASCII byte becomes in a word. -/
def asciiLower (m : SeModel) (b : ℕ) : ℕ :=
  if m.doLowerCase ≠ 0 ∧ 0x41 ≤ b ∧ b ≤ 0x5A then b + 32 else b

theorem strippedCps_ascii (m : SeModel) {b : ℕ} (h : b < 0x80) :
    strippedCps m b = [asciiLower m b] := by
  unfold strippedCps loweredCps asciiLower
  rw [if_pos (Or.inr h), if_neg (show ¬ b ≥ 0x80 by omega)]
  split_ifs <;> first | rfl | (exfalso; tauto)

theorem cleanedCps_ascii {m : SeModel} (hm : m.cleanText = 1) {b : ℕ} (h : b < 0x80) :
    cleanedCps m b =
      match asciiClass b with
      | .drop => []
      | .space => [0x20]
      | _ => [asciiLower m b] := by
  have hc : isControl m b = ((b < 0x20 || b == 0x7F) && b != 0x09 && b != 0x0A && b != 0x0D) := by
    simp only [isControl, isControl?, if_pos h, Option.getD_some]
  have hw : isWhitespace m b = seIsAsciiWhitespace b := by
    simp only [isWhitespace, isWhitespace?, if_pos h, Option.getD_some]
  have h20 : strippedCps m 0x20 = [0x20] := by
    rw [strippedCps_ascii m (by norm_num), asciiLower, if_neg (by omega)]
  unfold cleanedCps
  rw [asciiClass_eq h]
  simp only [hm, hc, hw, ne_eq, one_ne_zero, not_false_eq_true, true_and, Bool.and_eq_true,
    Bool.or_eq_true, decide_eq_true_eq, beq_iff_eq, bne_iff_ne]
  by_cases h₁ : (b < 0x20 ∨ b = 0x7F) ∧ b ≠ 0x09 ∧ b ≠ 0x0A ∧ b ≠ 0x0D
  · rw [if_pos (by tauto), if_pos h₁]
  rw [if_neg (by omega), if_neg h₁]
  by_cases h₂ : seIsAsciiWhitespace b = true
  · rw [if_pos h₂, if_pos h₂, if_neg (by omega), h20]
  rw [if_neg h₂, if_neg h₂, if_neg (by omega), strippedCps_ascii m h]
  split_ifs <;> rfl

end StaticEmbeddings
