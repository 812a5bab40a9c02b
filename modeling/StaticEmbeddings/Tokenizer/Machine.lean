import StaticEmbeddings.Tokenizer.Wordpiece

/-!
# The tokenizer

`se_tokenize` of `se_tokenizer.c` with the functions it is made of, in the order of the source.

* `TokenParams`, `TokenState`: `token_state_t`; `*stop` is set exactly where `stats->truncated` is,
  so the state has the one flag `truncated`.
* `capAfterAppend`, `appendWordpiece`, `flushSegment`, `feedTokenCp`, `emitCleaned`.
* `tokenizeAsciiRun`, `tokenizeLoop`, **`seTokenize`**.
-/

namespace StaticEmbeddings

open LittleEndian

/-! ## State -/

/-- `se_token_limit_t`. -/
inductive SeTokenLimit
  | raw | usable
  deriving DecidableEq, Repr

/-- The places where a native loop reads the cancel flag, with the loop's index there. -/
inductive CancelPoll
  | tokenize (i : ℕ) | asciiRun (i : ℕ) | pool (i : ℕ)
  deriving DecidableEq, Repr

/-- A flag that is never set. -/
def neverCancelled : CancelPoll → Bool := fun _ => false

/-- The type of `wordpiece` for one model: word, ids so far, `n_unk`, `known_ascii`. -/
abbrev WordpieceFn : Type :=
  List ℕ → List ℕ → ℕ → Bool → Except WordpieceFailure (List ℕ × ℕ)

/-- The constant part of `token_state_t`. `cancelled` is what the flag holds at each poll;
`wordpiece` is the function called under that name, so that the calls of a run can be spoken of. -/
structure TokenParams where
  model : SeModel
  maxTokens : ℕ
  limitMode : SeTokenLimit
  cancelled : CancelPoll → Bool
  wordpiece : WordpieceFn

/-- What a run has emitted: the ids in the scratch buffer, `n_unk` and the flag. -/
structure TokenIds where
  ids : List ℕ := []
  nUnk : ℕ := 0
  truncated : Bool := false
  deriving DecidableEq, Repr

/-- The changing part of `token_state_t`, with the open segment. -/
structure TokenState extends TokenIds where
  segment : List ℕ := []
  segmentAscii : Bool := true
  deriving DecidableEq, Repr

/-- `se_token_stats_t`. -/
structure SeTokenStats where
  tokenCount : ℕ := 0
  unkCount : ℕ := 0
  truncated : Bool := false
  deriving DecidableEq, Repr

/-- `oom`. -/
def oom {α : Type} (place : String) : Except SeError α :=
  .error ⟨.errOom, s!"out of memory while {place}"⟩

/-- Subtraction of `size_t`. -/
def subSize (a b : ℕ) : ℕ := (a + 2 ^ 64 - b) % 2 ^ 64

/-! ## The cap -/

/-- `limited_token_count`. -/
def limitedTokenCount (p : TokenParams) (o : TokenIds) : ℕ :=
  if p.limitMode = .usable ∧ p.model.unkPolicy = unkDrop then subSize o.ids.length o.nUnk
  else o.ids.length

/-- The scan of `cap_after_append` for the cut behind usable id number `max`: `keep` and
`kept_unk`. -/
def usableCut (unkId max : ℕ) : ℕ → ℕ → ℕ → List ℕ → ℕ × ℕ
  | _, _, keptUnk, [] => (0, keptUnk)
  | k, usable, keptUnk, id :: ids =>
    if id = unkId then usableCut unkId max (k + 1) usable (keptUnk + 1) ids
    else if usable + 1 = max then (k + 1, keptUnk)
    else usableCut unkId max (k + 1) (usable + 1) keptUnk ids

/-- `cap_after_append`. -/
def capAfterAppend (p : TokenParams) (o : TokenIds) : TokenIds :=
  if p.maxTokens = 0 ∨ limitedTokenCount p o ≤ p.maxTokens then o
  else if p.limitMode = .raw ∨ p.model.unkPolicy ≠ unkDrop then
    let droppedUnk := (o.ids.drop p.maxTokens).count p.model.unkId
    ⟨o.ids.take p.maxTokens, subSize o.nUnk droppedUnk, true⟩
  else
    let cut := usableCut p.model.unkId p.maxTokens 0 0 0 o.ids
    ⟨o.ids.take cut.1, cut.2, true⟩

/-! ## Segments -/

/-- Ids appended to the output, and `cap_after_append`. -/
def TokenState.append (p : TokenParams) (st : TokenState) (ids : List ℕ) (nUnk : ℕ) : TokenState :=
  { st with toTokenIds := capAfterAppend p { st.toTokenIds with ids := ids, nUnk := nUnk } }

/-- `append_direct_id`. -/
def appendDirectId (p : TokenParams) (st : TokenState) (id : ℕ) : Except SeError TokenState :=
  match pushId st.ids id with
  | none => oom "adding a special token"
  | some ids => .ok (st.append p ids (if id = p.model.unkId then st.nUnk + 1 else st.nUnk))

/-- The argument `known_ascii` that `append_wordpiece` passes for a word. -/
def knownAscii (st : TokenState) : List ℕ → Bool
  | [c] => c < 0x80
  | _ => st.segmentAscii

/-- `append_wordpiece`. -/
def appendWordpiece (p : TokenParams) (st : TokenState) (word : List ℕ) :
    Except SeError TokenState :=
  match p.wordpiece word st.ids st.nUnk (knownAscii st word) with
  | .error .oom => oom "tokenizing"
  | .error .invalid => .error ⟨.errInternal, "invalid WordPiece byte boundary"⟩
  | .ok (ids, nUnk) => .ok (st.append p ids nUnk)

/-- `flush_segment`. -/
def flushSegment (p : TokenParams) (st : TokenState) : Except SeError TokenState :=
  if st.segment = [] then .ok st
  else do
    let st ← appendWordpiece p st st.segment
    return { st with segment := [], segmentAscii := true }

/-- `append_segment_cp`. -/
def appendSegmentCp (st : TokenState) (cp : ℕ) : TokenState :=
  { st with
    segment := st.segment ++ [cp]
    segmentAscii := if cp ≥ 0x80 then false else st.segmentAscii }

/-- `feed_token_cp`. -/
def feedTokenCp (p : TokenParams) (st : TokenState) (cp : ℕ) : Except SeError TokenState :=
  if isWhitespace p.model cp then flushSegment p st
  else if isPunct p.model cp then do
    let st ← flushSegment p st
    if st.truncated then return st else appendWordpiece p st [cp]
  else .ok (appendSegmentCp st cp)

/-! ## Normalization -/

/-- A loop over code points that ends where the cap is reached. -/
def forEachCp (f : TokenState → ℕ → Except SeError TokenState) :
    TokenState → List ℕ → Except SeError TokenState
  | st, [] => .ok st
  | st, cp :: cps => do
    let st ← f st cp
    if st.truncated then return st else forEachCp f st cps

/-- `emit_lowered`. -/
def emitLowered (p : TokenParams) (st : TokenState) (cp : ℕ) : Except SeError TokenState :=
  if p.model.doLowerCase ≠ 0 then
    if 0x41 ≤ cp ∧ cp ≤ 0x5A then feedTokenCp p st (cp + 32)
    else if cp ≥ 0x80 then
      match lowerEntry p.model cp with
      | some e => forEachCp (feedTokenCp p) st (e.out.take e.len)
      | none => feedTokenCp p st cp
    else feedTokenCp p st cp
  else feedTokenCp p st cp

/-- `emit_stripped`. -/
def emitStripped (p : TokenParams) (st : TokenState) (cp : ℕ) : Except SeError TokenState :=
  if p.model.stripAccents = 0 ∨ cp < 0x80 then emitLowered p st cp
  else
    match nfdEntry p.model cp with
    | none => if isMn p.model cp then .ok st else emitLowered p st cp
    | some e =>
      forEachCp (fun st d => if isMn p.model d then .ok st else emitLowered p st d) st
        (e.out.take e.len)

/-- `emit_cleaned`. -/
def emitCleaned (p : TokenParams) (st : TokenState) (cp : ℕ) : Except SeError TokenState :=
  let m := p.model
  if m.cleanText ≠ 0 ∧ (cp = 0 ∨ cp = 0xFFFD ∨ isControl m cp) then .ok st
  else
    let cp := if m.cleanText ≠ 0 ∧ isWhitespace m cp then 0x20 else cp
    if m.handleChineseChars ≠ 0 ∧ cp ≥ 0x3400 ∧ seIsCjk cp then do
      let st ← emitStripped p st 0x20
      if st.truncated then return st else
        let st ← emitStripped p st cp
        if st.truncated then return st else emitStripped p st 0x20
    else emitStripped p st cp

/-! ## Added tokens -/

/-- `SE_ADDED_TOKENS`: text and mask bit. -/
def seAddedTokens : List (Bytes × ℕ) :=
  [(textMask, addedMask), (textPad, addedPad), (textUnk, addedUnk), (textCls, addedCls),
    (textSep, addedSep)]

/-- `added_token_id`. -/
def addedTokenId (m : SeModel) (bit : ℕ) : ℕ :=
  if bit = addedPad then m.padId
  else if bit = addedUnk then m.unkId
  else if bit = addedCls then m.clsId
  else if bit = addedSep then m.sepId
  else if bit = addedMask then m.maskId
  else slotEmpty

/-- `match_added_token`: the id and the length of the literal at index `pos`. -/
def matchAddedToken (m : SeModel) (input : Bytes) (pos : ℕ) : Option (ℕ × ℕ) :=
  if m.addedTokenMask = 0 ∨ input[pos]? ≠ some 0x5B then none
  else
    (seAddedTokens.find? fun t =>
      m.addedTokenMask &&& t.2 ≠ 0 ∧ t.1.length ≤ input.length - pos ∧
        slice input pos t.1.length = t.1).map fun t => (addedTokenId m t.2, t.1.length)

theorem matchAddedToken_pos {m : SeModel} {input : Bytes} {pos id len : ℕ}
    (h : matchAddedToken m input pos = some (id, len)) : 0 < len := by
  unfold matchAddedToken at h
  split_ifs at h
  obtain ⟨t, ht, he⟩ := Option.map_eq_some_iff.mp h
  have hm := List.mem_of_find?_eq_some ht
  have hlen : ∀ t ∈ seAddedTokens, 0 < t.1.length := by decide
  exact (Prod.mk.inj he).2 ▸ hlen t hm

/-! ## The loops -/

/-- `SE_ASCII_CANCEL_STRIDE`. -/
abbrev seAsciiCancelStride : ℕ := 0x3FF + 1

/-- The failure of a cancelled run. -/
def cancelledError : SeError := ⟨.errInternal, "operation cancelled"⟩

/-- `tokenize_ascii_run`: the state and the index where the run ends. -/
def tokenizeAsciiRun (p : TokenParams) (input : Bytes) (nextCancelCheck i : ℕ) (st : TokenState) :
    Except SeError (TokenState × ℕ) :=
  match _hb : input[i]? with
  | none => .ok (st, i)
  | some b =>
    if b.toNat ≥ 0x80 then .ok (st, i)
    else
      match _hm : matchAddedToken p.model input i with
      | some (addedId, addedLen) => do
        let st ← flushSegment p st
        if st.truncated then return (st, i) else
          let st ← appendDirectId p st addedId
          if st.truncated then return (st, i + addedLen) else
            tokenizeAsciiRun p input nextCancelCheck (i + addedLen) st
      | none =>
        if i ≥ nextCancelCheck ∧ p.cancelled (.asciiRun i) then .error cancelledError
        else
          let next := if i ≥ nextCancelCheck then i + seAsciiCancelStride else nextCancelCheck
          match asciiClass b.toNat with
          | .word =>
            let cp :=
              if p.model.doLowerCase ≠ 0 ∧ 0x41 ≤ b.toNat ∧ b.toNat ≤ 0x5A then b.toNat + 32
              else b.toNat
            tokenizeAsciiRun p input next (i + 1) { st with segment := st.segment ++ [cp] }
          | .drop => tokenizeAsciiRun p input next (i + 1) st
          | .space => do
            let st ← flushSegment p st
            if st.truncated then return (st, i) else tokenizeAsciiRun p input next (i + 1) st
          | .punct => do
            let st ← flushSegment p st
            if st.truncated then return (st, i) else
              let st ← appendWordpiece p st [b.toNat]
              if st.truncated then return (st, i + 1) else
                tokenizeAsciiRun p input next (i + 1) st
termination_by input.length - i
decreasing_by
  all_goals have hi := (List.getElem?_eq_some_iff.mp _hb).1
  · have := matchAddedToken_pos _hm
    omega
  all_goals omega

/-- A run only goes forwards, and unless it reaches the cap it ends at the end of the input or at a
byte that is not ASCII. -/
theorem tokenizeAsciiRun_spec {p : TokenParams} {input : Bytes} {n i j : ℕ} {st st' : TokenState}
    (h : tokenizeAsciiRun p input n i st = .ok (st', j)) :
    i ≤ j ∧ (st'.truncated = false → ∀ b, input[j]? = some b → 0x80 ≤ b.toNat) := by
  have stop : ∀ {a b : TokenState × ℕ}, (pure a : Except SeError _) = .ok b → a = b :=
    fun h => Except.ok.inj h
  fun_induction tokenizeAsciiRun p input n i st with
  | case1 n i st hb =>
    cases h
    exact ⟨le_rfl, fun _ c hc => by rw [hb] at hc; cases hc⟩
  | case2 n i st b hb hge =>
    cases h
    exact ⟨le_rfl, fun _ c hc => by rw [hb] at hc; cases hc; exact hge⟩
  | case3 n i st b hb hlt id len hm ih =>
    obtain ⟨st₁, -, h⟩ := bind_eq_ok.mp h
    split_ifs at h with h₁
    · cases stop h
      exact ⟨le_rfl, fun hs => by simp [hs] at h₁⟩
    obtain ⟨st₂, -, h⟩ := bind_eq_ok.mp h
    split_ifs at h with h₂
    · cases stop h
      exact ⟨Nat.le_add_right _ _, fun hs => by simp [hs] at h₂⟩
    · exact (ih st₂ h).imp_left (Nat.le_add_right _ _).trans
  | case4 => cases h
  | case5 n i st b hb hlt hm hc next hcls cp ih => exact (ih h).imp_left (Nat.le_succ _).trans
  | case6 n i st b hb hlt hm hc next hcls ih => exact (ih h).imp_left (Nat.le_succ _).trans
  | case7 n i st b hb hlt hm hc next hcls ih =>
    obtain ⟨st₁, -, h⟩ := bind_eq_ok.mp h
    split_ifs at h with h₁
    · cases stop h
      exact ⟨le_rfl, fun hs => by simp [hs] at h₁⟩
    · exact (ih st₁ h).imp_left (Nat.le_succ _).trans
  | case8 n i st b hb hlt hm hc next hcls ih =>
    obtain ⟨st₁, -, h⟩ := bind_eq_ok.mp h
    split_ifs at h with h₁
    · cases stop h
      exact ⟨le_rfl, fun hs => by simp [hs] at h₁⟩
    obtain ⟨st₂, -, h⟩ := bind_eq_ok.mp h
    split_ifs at h with h₂
    · cases stop h
      exact ⟨Nat.le_succ _, fun hs => by simp [hs] at h₂⟩
    · exact (ih st₂ h).imp_left (Nat.le_succ _).trans

/-- The loop of `se_tokenize`. -/
def tokenizeLoop (p : TokenParams) (input : Bytes) (iterations i : ℕ) (st : TokenState) :
    Except SeError TokenState :=
  match _hb : input[i]? with
  | none => .ok st
  | some b =>
    if iterations &&& 0x3FF = 0 ∧ p.cancelled (.tokenize i) then .error cancelledError
    else
      match _hr : if b.toNat < 0x80 then tokenizeAsciiRun p input (i + seAsciiCancelStride) i st
          else .ok (st, i) with
      | .error e => .error e
      | .ok (st, j) =>
        if st.truncated ∨ j ≥ input.length then .ok st
        else
          match _hd : decodeOne input j with
          | none => .error ⟨.errInvalidUtf8, "input is not valid UTF-8"⟩
          | some (cp, k) => do
            let st ← emitCleaned p st cp
            if st.truncated then return st else tokenizeLoop p input (iterations + 1) k st
termination_by input.length - i
decreasing_by
  have hi := (List.getElem?_eq_some_iff.mp _hb).1
  have hk := decodeOne_lt _hd
  have hj : i ≤ j := by
    split_ifs at _hr
    · exact (tokenizeAsciiRun_spec _hr).1
    · cases _hr
      exact le_rfl
  omega

/-- What a finished run leaves: the statistics, zero where it failed before the end, and the ids. -/
def tokenResult : Except SeError TokenIds → SeTokenStats × Except SeError (List ℕ)
  | .error e => ({}, .error e)
  | .ok o =>
    if o.ids.length > uint32Max ∨ o.nUnk > uint32Max then
      ({ truncated := o.truncated }, .error ⟨.errOom, "input produced too many tokens"⟩)
    else (⟨o.ids.length, o.nUnk, o.truncated⟩, .ok o.ids)

/-- The last flush of `se_tokenize`, unless the cap was reached. -/
def finalFlush (p : TokenParams) (st : TokenState) : Except SeError TokenIds := do
  let st ← if st.truncated then pure st else flushSegment p st
  return st.toTokenIds

/-- `se_tokenize` with its parameters bundled. -/
def seTokenizeWith (p : TokenParams) (input : Bytes) : SeTokenStats × Except SeError (List ℕ) :=
  tokenResult (tokenizeLoop p input 0 0 {} >>= finalFlush p)

/-- `se_tokenize`. -/
def seTokenize (m : SeModel) (input : Bytes) (maxTokens : ℕ) (limitMode : SeTokenLimit)
    (cancelled : CancelPoll → Bool) : SeTokenStats × Except SeError (List ℕ) :=
  seTokenizeWith ⟨m, maxTokens, limitMode, cancelled, wordpiece m⟩ input

end StaticEmbeddings
