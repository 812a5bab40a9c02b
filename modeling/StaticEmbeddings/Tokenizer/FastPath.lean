import StaticEmbeddings.Format.Accepted
import StaticEmbeddings.Tokenizer.Segments

/-!
# The ASCII fast path

* `genericLoop`, `seTokenizeGeneric`: the tokenizer without `tokenize_ascii_run`, where every ASCII
  byte outside a literal goes through `emit_cleaned`.
* `genericLoop_eq`: it performs the feeds of its input, as `tokenizeLoop` does.
* **`seTokenize_eq_generic`**: on an accepted model the two tokenizers agree, and `known_ascii` is
  set for ASCII words only.
-/

namespace StaticEmbeddings

open LittleEndian

/-- The loop of `se_tokenize` where `tokenize_ascii_run` is replaced: a literal is taken as there,
and any other ASCII byte is pushed through `emit_cleaned`. -/
def genericLoop (p : TokenParams) (input : Bytes) (i : ℕ) (st : TokenState) :
    Except SeError TokenState :=
  match _hb : input[i]? with
  | none => .ok st
  | some b =>
    if b.toNat < 0x80 then
      match _hm : matchAddedToken p.model input i with
      | some (addedId, addedLen) => do
        let st ← flushSegment p st
        if st.truncated then return st else
          let st ← appendDirectId p st addedId
          if st.truncated then return st else genericLoop p input (i + addedLen) st
      | none => do
        let st ← emitCleaned p st b.toNat
        if st.truncated then return st else genericLoop p input (i + 1) st
    else
      match _hd : decodeOne input i with
      | none => .error ⟨.errInvalidUtf8, "input is not valid UTF-8"⟩
      | some (cp, k) => do
        let st ← emitCleaned p st cp
        if st.truncated then return st else genericLoop p input k st
termination_by input.length - i
decreasing_by
  all_goals have hi := (List.getElem?_eq_some_iff.mp _hb).1
  · have := matchAddedToken_pos _hm
    omega
  · omega
  · have := decodeOne_lt _hd
    omega

/-- `se_tokenize` without the fast path. -/
def seTokenizeGeneric (m : SeModel) (input : Bytes) (maxTokens : ℕ) (limitMode : SeTokenLimit) :
    SeTokenStats × Except SeError (List ℕ) :=
  let p : TokenParams := ⟨m, maxTokens, limitMode, neverCancelled, wordpiece m⟩
  tokenResult (genericLoop p input 0 {} >>= finalFlush p)

section

variable {p : TokenParams} {input : Bytes} {i : ℕ} {st : TokenState}

/-- **The generic loop performs the feeds of its input.** -/
theorem genericLoop_eq (hs : halted st = false) :
    genericLoop p input i st = performFeeds p st (feeds p.model (input.drop i)) := by
  -- what follows a step that reached the cap is not performed
  have next : ∀ {st : TokenState} {k : ℕ},
      (halted st = false → genericLoop p input k st =
        performFeeds p st (feeds p.model (input.drop k))) →
      (if st.truncated then pure st else genericLoop p input k st) =
        performFeeds p st (feeds p.model (input.drop k)) := fun {st k} ih => by
    split_ifs with h
    · exact (performFeeds_of_halted h _).symm
    · exact ih (by simpa [halted] using h)
  fun_induction genericLoop p input i st with
  | case1 i st hb =>
    rw [List.drop_eq_nil_of_le (List.getElem?_eq_none_iff.mp hb), feeds_nil]
    simp [performFeeds]
  | case2 i st b hb hlt id len hl ih =>
    rw [matchAddedToken_eq] at hl
    rw [feeds_literal hl, performFeeds_cons hs, feedEvent, bind_assoc, List.drop_drop]
    refine bind_congr fun st₁ => ?_
    split_ifs with h₁
    · exact (performFeeds_of_halted h₁ _).symm
    · exact bind_congr fun st₂ => next (ih st₂)
  | case3 i st b hb hlt hl ih =>
    rw [feeds_ascii hb hlt hl, performFeeds_append, run_feedEvent_cp, ← emitCleaned_eq hs]
    exact bind_congr fun st₁ => next (ih st₁)
  | case4 i st b hb hge hd =>
    rw [performFeeds_decodeOne hs (fun c hc => by rw [hb] at hc; cases hc; omega)
      (List.getElem?_eq_some_iff.mp hb).1, hd]
    rfl
  | case5 i st b hb hge cp k hd ih =>
    rw [performFeeds_decodeOne hs (fun c hc => by rw [hb] at hc; cases hc; omega)
      (List.getElem?_eq_some_iff.mp hb).1, hd]
    exact bind_congr fun st₁ => next (ih st₁)

/-- A run does not depend on what `wordpiece` does on words that are not ASCII when `known_ascii` is
set. -/
theorem runItemList_guarded {m : SeModel} {maxTokens : ℕ} {limitMode : SeTokenLimit}
    {wp bad : WordpieceFn} (o : TokenIds) (its : List Item) :
    runItemList ⟨m, maxTokens, limitMode, neverCancelled, fun word ids nUnk known =>
        if known = true ∧ ∃ c ∈ word, 0x80 ≤ c then bad word ids nUnk known
        else wp word ids nUnk known⟩ o its =
      runItemList ⟨m, maxTokens, limitMode, neverCancelled, wp⟩ o its := by
  have step : ∀ o it, runItem ⟨m, maxTokens, limitMode, neverCancelled, fun word ids nUnk known =>
        if known = true ∧ ∃ c ∈ word, 0x80 ≤ c then bad word ids nUnk known
        else wp word ids nUnk known⟩ o it =
      runItem ⟨m, maxTokens, limitMode, neverCancelled, wp⟩ o it := fun o it => by
    rcases it with w | id
    · have hw : ¬ (w.all (· < 0x80) = true ∧ ∃ c ∈ w, 0x80 ≤ c) := by
        rintro ⟨h, c, hc, hge⟩
        have := List.all_eq_true.mp h c hc
        simp only [decide_eq_true_eq] at this
        omega
      simp only [runItem, if_neg hw]
      rfl
    · rfl
  rw [runItemList, runItemList, funext fun o => funext fun it => step o it]

end

/-- **The fast path is exact.** On a model the loader accepts, `se_tokenize` gives what the
tokenizer without the fast path gives, and a run with another `wordpiece` on words that are not
ASCII but passed with `known_ascii` is the same run: there are no such calls. -/
theorem seTokenize_eq_generic {file : Bytes} {m : SeModel} (h : validate file = .ok m)
    (input : Bytes) (maxTokens : ℕ) (limitMode : SeTokenLimit) :
    seTokenize m input maxTokens limitMode neverCancelled =
        seTokenizeGeneric m input maxTokens limitMode ∧
      ∀ bad : WordpieceFn, seTokenizeWith
          ⟨m, maxTokens, limitMode, neverCancelled, fun word ids nUnk known =>
            if known = true ∧ ∃ c ∈ word, 0x80 ≤ c then bad word ids nUnk known
            else wordpiece m word ids nUnk known⟩ input =
        seTokenize m input maxTokens limitMode neverCancelled := by
  have hm : m.cleanText = 1 := (modelOk_of_validate h).fields.cleanText
  refine ⟨?_, fun bad => ?_⟩
  · rw [seTokenize, seTokenizeWith, tokenizeLoop_eq hm rfl rfl, seTokenizeGeneric,
      genericLoop_eq rfl]
  · rw [seTokenize, seTokenizeWith_eq hm rfl, seTokenizeWith_eq hm rfl, runItems, runItems,
      runItemList_guarded]

/-- The fast path on a text of the small model, and a text that mixes both paths. -/
theorem seTokenize_eq_generic_sample : validate sampleFile = .ok sampleModel ∧
    seTokenize sampleModel [0x61, 0xC2, 0xA0, 0x42, 0x2E] 3 .usable neverCancelled =
      seTokenizeGeneric sampleModel [0x61, 0xC2, 0xA0, 0x42, 0x2E] 3 .usable :=
  ⟨validate_sampleFile, (seTokenize_eq_generic validate_sampleFile _ 3 .usable).1⟩

end StaticEmbeddings
