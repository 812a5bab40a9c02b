import StaticEmbeddings.Format.Readers
import StaticEmbeddings.Tokenizer.Wordpiece

/-!
# The pieces of a word

What `wordpiece` appends for a word, apart from the ids that are already there.

* `Buffers`: the invariant of `bytes` and `cps2`.
* `pieceWalk`, `wordPieces`: the ids found for a word and how the search ends; `emitPieces`: what is
  done with them.
* **`wordpiece?_eq`**: on a well-formed model `wordpiece` reads inside its buffers and emits the
  pieces of the word.
-/

namespace StaticEmbeddings

open LittleEndian

/-! ## Buffers -/

/-- The invariant of the buffers of a word of `n` code points: `cps2` holds `n + 1` ascending
offsets, the last of them the end of `bytes`. -/
structure Buffers (n : ℕ) (bytes : Bytes) (cps2 : List ℕ) : Prop where
  length : cps2.length = n + 1
  mono : cps2.Pairwise (· ≤ ·)
  last : cps2[n]? = some bytes.length

/-- The offset of every code point of a word and the end of the last one, from `off` on. -/
def cpOffsets : ℕ → List ℕ → List ℕ
  | off, [] => [off]
  | off, cp :: word => off :: cpOffsets (off + (seUtf8Encode cp).length) word

/-- The UTF-8 bytes of a word. -/
def wordBytes (word : List ℕ) : Bytes := word.flatMap seUtf8Encode

theorem length_seUtf8Encode_le (cp : ℕ) : (seUtf8Encode cp).length ≤ 4 := by
  unfold seUtf8Encode
  split_ifs <;> simp

theorem length_seUtf8Encode_pos (cp : ℕ) : 0 < (seUtf8Encode cp).length := by
  unfold seUtf8Encode
  split_ifs <;> simp

theorem wordBytes_cons (cp : ℕ) (word : List ℕ) :
    wordBytes (cp :: word) = seUtf8Encode cp ++ wordBytes word := List.flatMap_cons

theorem length_wordBytes_le (word : List ℕ) : (wordBytes word).length ≤ 4 * word.length := by
  induction word with
  | nil => exact le_rfl
  | cons cp word ih =>
    have := length_seUtf8Encode_le cp
    rw [wordBytes_cons, List.length_append, List.length_cons]
    omega

@[simp] theorem length_cpOffsets (off : ℕ) (word : List ℕ) :
    (cpOffsets off word).length = word.length + 1 := by
  induction word generalizing off with
  | nil => rfl
  | cons cp word ih => rw [cpOffsets, List.length_cons, ih, List.length_cons]

theorem le_of_mem_cpOffsets {off o : ℕ} {word : List ℕ} (h : o ∈ cpOffsets off word) : off ≤ o := by
  induction word generalizing off with
  | nil => exact (List.mem_singleton.mp h).ge
  | cons cp word ih =>
    rcases List.mem_cons.mp h with rfl | h
    · exact le_rfl
    · exact (Nat.le_add_right _ _).trans (ih h)

theorem cpOffsets_sorted (off : ℕ) (word : List ℕ) : (cpOffsets off word).Pairwise (· < ·) := by
  induction word generalizing off with
  | nil => exact List.pairwise_singleton _ _
  | cons cp word ih =>
    have := length_seUtf8Encode_pos cp
    refine List.pairwise_cons.mpr ⟨fun o ho => ?_, ih _⟩
    have := le_of_mem_cpOffsets ho
    omega

theorem getElem?_cpOffsets (off : ℕ) {word : List ℕ} {k : ℕ} (hk : k ≤ word.length) :
    (cpOffsets off word)[k]? = some (off + (wordBytes (word.take k)).length) := by
  induction word generalizing off k with
  | nil =>
    obtain rfl : k = 0 := Nat.le_zero.mp hk
    rfl
  | cons cp word ih =>
    cases k with
    | zero => rfl
    | succ k =>
      rw [cpOffsets, List.getElem?_cons_succ, ih _ (Nat.le_of_succ_le_succ hk), List.take_succ_cons,
        wordBytes_cons, List.length_append, Nat.add_assoc]

theorem encodeWord_eq {word : List ℕ} {bytes : Bytes} {cps2 : List ℕ} {r : Bytes × List ℕ}
    (h : encodeWord word bytes cps2 = some r) :
    r = (bytes ++ wordBytes word, cps2 ++ cpOffsets bytes.length word) := by
  induction word generalizing bytes cps2 with
  | nil =>
    rw [encodeWord] at h
    split_ifs at h
    cases h
    simp [wordBytes, cpOffsets]
  | cons cp word ih =>
    rw [encodeWord] at h
    split_ifs at h
    rw [ih h, wordBytes_cons, cpOffsets, List.length_append, List.append_assoc, List.append_assoc]
    rfl

theorem buffers_wordBytes (word : List ℕ) :
    Buffers word.length (wordBytes word) (cpOffsets 0 word) where
  length := length_cpOffsets 0 word
  mono := (cpOffsets_sorted 0 word).imp le_of_lt
  last := by rw [getElem?_cpOffsets 0 le_rfl, List.take_length, Nat.zero_add]

theorem buffers_ascii (word : List ℕ) :
    Buffers word.length (word.map UInt8.ofNat) (List.range (word.length + 1)) where
  length := List.length_range
  mono := List.pairwise_le_range
  last := by rw [List.getElem?_range (Nat.lt_succ_self _), List.length_map]

/-- An ASCII word has the same buffers either way. -/
theorem wordBytes_ascii {word : List ℕ} (h : ∀ c ∈ word, c < 0x80) (off : ℕ) :
    wordBytes word = word.map UInt8.ofNat ∧
      cpOffsets off word = List.range' off (word.length + 1) := by
  induction word generalizing off with
  | nil => exact ⟨rfl, rfl⟩
  | cons c word ih =>
    rw [List.forall_mem_cons] at h
    have hc : seUtf8Encode c = [UInt8.ofNat c] := if_pos h.1
    obtain ⟨h₁, h₂⟩ := ih h.2 (off + 1)
    constructor
    · rw [wordBytes_cons, hc, h₁]
      rfl
    · rw [cpOffsets, hc, List.length_singleton, h₂]
      rfl

/-- **The buffers that `wordpiece` fills hold every index it uses**: at most four bytes and one
offset for each code point, and one more offset. -/
theorem wordBuffers_spec {word : List ℕ} {ascii : Bool} {bytes : Bytes} {cps2 : List ℕ}
    (h : wordBuffers word ascii = some (bytes, cps2)) :
    Buffers word.length bytes cps2 ∧ bytes.length ≤ 4 * word.length := by
  unfold wordBuffers at h
  split_ifs at h
  · cases h
    exact ⟨buffers_ascii word, by rw [List.length_map]; omega⟩
  · cases encodeWord_eq h
    exact ⟨buffers_wordBytes word, length_wordBytes_le word⟩

/-! ## The walk -/

/-- How the search for the pieces of a word ends. -/
inductive WalkEnd
  | done | missing | invalid | overflow
  deriving DecidableEq, Repr

/-- The code point boundary that the loop over `end` stops at. -/
def pieceEnd (cps2 : List ℕ) (target maxEnd start : ℕ) : ℕ :=
  ((List.range' (start + 1) (maxEnd - start)).find? fun e => target ≤ cps2.getD e 0).getD
    (maxEnd + 1)

theorem lt_pieceEnd {cps2 : List ℕ} {target maxEnd start : ℕ} (h : start ≤ maxEnd) :
    start < pieceEnd cps2 target maxEnd start := by
  unfold pieceEnd
  rcases hf : (List.range' (start + 1) (maxEnd - start)).find? fun e => target ≤ cps2.getD e 0
    with _ | e
  · exact Nat.lt_succ_of_le h
  · have := List.mem_range'_1.mp (List.mem_of_find?_eq_some hf)
    exact this.1

theorem pieceEnd?_eq {cps2 : List ℕ} {target maxEnd fuel e : ℕ} (hm : maxEnd < cps2.length)
    (he : e + fuel = maxEnd + 1) : pieceEnd? cps2 target maxEnd fuel e =
      some (((List.range' e fuel).find? fun e => target ≤ cps2.getD e 0).getD (maxEnd + 1)) := by
  induction fuel generalizing e with
  | zero =>
    rw [pieceEnd?, ← he]
    rfl
  | succ fuel ih =>
    rw [pieceEnd?, if_pos (by omega), List.range'_succ, List.find?_cons,
      List.getElem?_eq_getElem (by omega), List.getD_eq_getElem _ _ (by omega)]
    simp only [Option.bind_eq_bind, Option.bind_some]
    split_ifs with hlt
    · rw [ih (by omega), decide_eq_false (by omega)]
    · rw [decide_eq_true (by omega)]
      rfl

/-- The trie that the piece at code point `start` is searched in. -/
def pieceTrie (m : SeModel) (start : ℕ) : SeTrie := if start > 0 then m.contTrie else m.rootTrie

/-- The last code point boundary that the piece at `start` may end at. -/
def pieceMax (m : SeModel) (wordLen start : ℕ) : ℕ := min (start + m.maxTokenChars) wordLen

/-- The longest match at code point `start`: its token and the offset where it ends. -/
def pieceMatch (m : SeModel) (bytes : Bytes) (cps2 : List ℕ) (wordLen start : ℕ) :
    Option (ℕ × ℕ) :=
  let off := cps2.getD start 0
  ((pieceTrie m start).longest 0
    (slice bytes off (cps2.getD (pieceMax m wordLen start) 0 - off))).map fun r => (r.1, off + r.2)

/-- The pieces of a word from code point `start` on. -/
def pieceWalk (m : SeModel) (bytes : Bytes) (cps2 : List ℕ) (wordLen start : ℕ) :
    List ℕ × WalkEnd :=
  if _h : start < wordLen then
    match pieceMatch m bytes cps2 wordLen start with
    | none => ([], .missing)
    | some (id, target) =>
      let e := pieceEnd cps2 target (pieceMax m wordLen start) start
      if e > pieceMax m wordLen start ∨ cps2.getD e 0 ≠ target then ([], .invalid)
      else (id :: (pieceWalk m bytes cps2 wordLen e).1, (pieceWalk m bytes cps2 wordLen e).2)
  else ([], .done)
termination_by wordLen - start
decreasing_by
  all_goals
    have := @lt_pieceEnd cps2 target (pieceMax m wordLen start) start (by unfold pieceMax; omega)
    omega

/-- The pieces of a word. -/
def wordPieces (m : SeModel) (word : List ℕ) (knownAscii : Bool) : List ℕ × WalkEnd :=
  if word.length = 0 then ([], .done)
  else if word.length > m.maxInputCharsPerWord then ([], .missing)
  else
    match wordBuffers word (knownAscii || word.all (· < 0x80)) with
    | none => ([], .overflow)
    | some (bytes, cps2) =>
      match if word.length ≤ m.maxTokenChars then seVocabLookup m bytes else none with
      | some id => ([id], .done)
      | none => pieceWalk m bytes cps2 word.length 0

/-- What `wordpiece` does with the pieces: the ids before them stay, and a word with a missing
piece becomes one `[UNK]`. -/
def emitPieces (m : SeModel) (ids : List ℕ) (nUnk : ℕ) (r : List ℕ × WalkEnd) :
    Except WordpieceFailure (List ℕ × ℕ) :=
  if r.1 ≠ [] ∧ ids.length + r.1.length > uint32Max then .error .oom
  else
    match r.2 with
    | .done => .ok (ids ++ r.1, nUnk)
    | .missing => pushUnk m ids nUnk
    | .invalid => .error .invalid
    | .overflow => .error .oom

section

variable {m : SeModel} {ids : List ℕ} {nUnk : ℕ}

theorem pushId_eq (ids : List ℕ) (id : ℕ) :
    pushId ids id = if ids.length + 1 > uint32Max then none else some (ids ++ [id]) := by
  unfold pushId
  split_ifs <;> first | rfl | omega

theorem Buffers.getElem? {n : ℕ} {bytes : Bytes} {cps2 : List ℕ} (hb : Buffers n bytes cps2) {i : ℕ}
    (hi : i ≤ n) : cps2[i]? = some (cps2.getD i 0) := by
  have hlt : i < cps2.length := by
    rw [hb.length]
    omega
  rw [List.getElem?_eq_getElem hlt, List.getD_eq_getElem _ _ hlt]

theorem Buffers.getD_le {n : ℕ} {bytes : Bytes} {cps2 : List ℕ} (hb : Buffers n bytes cps2)
    {i j : ℕ} (hij : i ≤ j) (hj : j ≤ n) : cps2.getD i 0 ≤ cps2.getD j 0 := by
  have hl := hb.length
  rcases Nat.lt_or_eq_of_le hij with hij | rfl
  · rw [List.getD_eq_getElem _ _ (by omega), List.getD_eq_getElem _ _ (by omega)]
    exact List.pairwise_iff_getElem.mp hb.mono i j _ _ hij
  · exact le_rfl

theorem Buffers.getD_last {n : ℕ} {bytes : Bytes} {cps2 : List ℕ} (hb : Buffers n bytes cps2) :
    cps2.getD n 0 = bytes.length :=
  Option.some.inj ((hb.getElem? le_rfl).symm.trans hb.last)

theorem wordpieceLoop?_step (h : ModelOk m) {bytes : Bytes} {cps2 : List ℕ} {wordLen : ℕ}
    (hb : Buffers wordLen bytes cps2) {start : ℕ} (hlt : start < wordLen) (before : ℕ) :
    wordpieceLoop? m bytes cps2 wordLen nUnk before start ids =
      match pieceMatch m bytes cps2 wordLen start with
      | none => some (pushUnk m (ids.take before) nUnk)
      | some (id, target) =>
        let e := pieceEnd cps2 target (pieceMax m wordLen start) start
        if e > pieceMax m wordLen start ∨ cps2.getD e 0 ≠ target then some (.error .invalid)
        else
          match pushId ids id with
          | none => some (.error .oom)
          | some ids => wordpieceLoop? m bytes cps2 wordLen nUnk before e ids := by
  have hmax : pieceMax m wordLen start ≤ wordLen := Nat.min_le_right _ _
  have hstart : start ≤ pieceMax m wordLen start := by
    unfold pieceMax
    omega
  have hoff := hb.getD_le hstart hmax
  have hend := (hb.getD_le hmax le_rfl).trans hb.getD_last.le
  have htrie : ∀ input, seTrieLongestMatch? (if start > 0 then m.contTrie else m.rootTrie) input =
      some ((pieceTrie m start).longest 0 input) := fun input => by
    unfold pieceTrie
    split_ifs
    · exact seTrieLongestMatch?_eq h.cont h.vocabSize_lt.le h.cont_pos input
    · exact seTrieLongestMatch?_eq h.root h.vocabSize_lt.le h.root_pos input
  rw [wordpieceLoop?, if_pos hlt, pieceMatch]
  dsimp only
  rw [show min (start + m.maxTokenChars) wordLen = pieceMax m wordLen start from rfl,
    hb.getElem? hlt.le, hb.getElem? hmax]
  dsimp only
  rw [slice?_of_le (by omega)]
  dsimp only
  rw [htrie]
  rcases (pieceTrie m start).longest 0 (slice bytes (cps2.getD start 0)
    (cps2.getD (pieceMax m wordLen start) 0 - cps2.getD start 0)) with _ | ⟨id, len⟩
  · rfl
  have hpe := @pieceEnd?_eq cps2 (cps2.getD start 0 + len) (pieceMax m wordLen start)
    (pieceMax m wordLen start - start) (start + 1) (by rw [hb.length]; omega) (by omega)
  dsimp only [Option.map_some]
  split
  · rename_i hn
    rw [hpe] at hn
    cases hn
  rename_i e he
  rw [hpe] at he
  cases Option.some.inj he
  rw [← pieceEnd]
  by_cases hgt : pieceEnd cps2 (cps2.getD start 0 + len) (pieceMax m wordLen start) start >
      pieceMax m wordLen start
  · rw [if_pos hgt, if_pos (.inl hgt)]
  rw [if_neg hgt, hb.getElem? (by omega)]
  dsimp only
  by_cases hne : cps2.getD (pieceEnd cps2 (cps2.getD start 0 + len) (pieceMax m wordLen start)
      start) 0 ≠ cps2.getD start 0 + len
  · rw [if_pos hne, if_pos (.inr hne)]
  · refine (if_neg hne).trans (Eq.trans ?_ (if_neg (not_or.mpr ⟨hgt, hne⟩)).symm)
    cases pushId ids id with
    | none => rfl
    | some ids => rfl

/-- The greedy loop emits the pieces of the word, after those found before. -/
theorem wordpieceLoop?_eq (h : ModelOk m) {bytes : Bytes} {cps2 : List ℕ} {wordLen : ℕ}
    (hb : Buffers wordLen bytes cps2) (start : ℕ) (l : List ℕ)
    (hl : ¬ (l ≠ [] ∧ ids.length + l.length > uint32Max)) :
    wordpieceLoop? m bytes cps2 wordLen nUnk ids.length start (ids ++ l) =
      some (emitPieces m ids nUnk (l ++ (pieceWalk m bytes cps2 wordLen start).1,
        (pieceWalk m bytes cps2 wordLen start).2)) := by
  fun_induction pieceWalk m bytes cps2 wordLen start generalizing l with
  | case1 start hlt hnone =>
    rw [wordpieceLoop?_step h hb hlt, hnone]
    simp only [List.take_left, List.append_nil, emitPieces, if_neg hl]
  | case2 start hlt id target hsome e hbad =>
    rw [wordpieceLoop?_step h hb hlt, hsome]
    simp only [List.append_nil, emitPieces, if_neg hl]
    rw [if_pos hbad]
  | case3 start hlt id target hsome e hbad ih =>
    rw [wordpieceLoop?_step h hb hlt, hsome]
    dsimp only
    rw [if_neg hbad, pushId_eq, List.length_append]
    split_ifs with hoom
    · have hlen : ids.length + (l ++ id :: (pieceWalk m bytes cps2 wordLen e).1).length >
          uint32Max := by
        simp only [List.length_append, List.length_cons]
        omega
      rw [emitPieces, if_pos ⟨by simp, hlen⟩]
    · have hl' : ¬ (l ++ [id] ≠ [] ∧ ids.length + (l ++ [id]).length > uint32Max) := by
        rw [List.length_append, List.length_singleton]
        omega
      simpa only [List.append_assoc, List.singleton_append] using ih (l ++ [id]) hl'
  | case4 start hge =>
    rw [wordpieceLoop?, if_neg hge]
    simp only [List.append_nil, emitPieces, if_neg hl]

/-- **`wordpiece` emits the pieces of the word**, and every index it uses is inside its buffers, the
hash table and the tries. -/
theorem wordpiece?_eq (h : ModelOk m) (word : List ℕ) (knownAscii : Bool) :
    wordpiece? m word ids nUnk knownAscii =
      some (emitPieces m ids nUnk (wordPieces m word knownAscii)) := by
  have hnil : ¬ (([] : List ℕ) ≠ [] ∧ ids.length + ([] : List ℕ).length > uint32Max) :=
    fun hn => hn.1 rfl
  unfold wordpiece? wordPieces
  by_cases h0 : word.length = 0
  · rw [if_pos h0, if_pos h0]
    simp only [emitPieces, if_neg hnil, List.append_nil]
  rw [if_neg h0, if_neg h0]
  by_cases hlong : word.length > m.maxInputCharsPerWord
  · rw [if_pos hlong, if_pos hlong]
    simp only [emitPieces, if_neg hnil]
  rw [if_neg hlong, if_neg hlong]
  rcases hb : wordBuffers word (knownAscii || word.all (· < 0x80)) with _ | ⟨bytes, cps2⟩
  · simp only [emitPieces, if_neg hnil]
  obtain ⟨hb, -⟩ := wordBuffers_spec hb
  have hloop := @wordpieceLoop?_eq m ids nUnk h bytes cps2 word.length hb 0 [] hnil
  rw [List.append_nil, List.nil_append] at hloop
  dsimp only
  split_ifs with hle
  · rw [seVocabLookup?_eq h]
    rcases seVocabLookup m bytes with _ | id
    · exact hloop
    · simp only [pushId_eq, emitPieces, List.length_singleton, ne_eq, List.cons_ne_nil,
        not_false_eq_true, true_and]
      split_ifs <;> rfl
  · exact hloop

theorem wordpiece_eq (h : ModelOk m) (word : List ℕ) (knownAscii : Bool) :
    wordpiece m word ids nUnk knownAscii = emitPieces m ids nUnk (wordPieces m word knownAscii) := by
  rw [wordpiece, wordpiece?_eq h word, Option.getD_some]

theorem pieceMatch_lt (h : ModelOk m) {bytes : Bytes} {cps2 : List ℕ} {wordLen start id target : ℕ}
    (hm : pieceMatch m bytes cps2 wordLen start = some (id, target)) : id < m.vocabSize := by
  obtain ⟨⟨id', len⟩, hl, he⟩ := Option.map_eq_some_iff.mp hm
  cases he
  unfold pieceTrie at hl
  split_ifs at hl
  · exact (longest_lt h.cont hl).1
  · exact (longest_lt h.root hl).1

/-- **Every piece is a token of the vocabulary.** -/
theorem wordPieces_lt (h : ModelOk m) (word : List ℕ) (knownAscii : Bool) :
    ∀ id ∈ (wordPieces m word knownAscii).1, id < m.vocabSize := by
  have walk : ∀ (bytes : Bytes) (cps2 : List ℕ) (wordLen start : ℕ),
      ∀ id ∈ (pieceWalk m bytes cps2 wordLen start).1, id < m.vocabSize := by
    intro bytes cps2 wordLen start
    fun_induction pieceWalk m bytes cps2 wordLen start with
    | case1 | case2 | case4 => exact fun id hid => (List.not_mem_nil hid).elim
    | case3 start hlt id target hm e hbad ih =>
      exact List.forall_mem_cons.mpr ⟨pieceMatch_lt h hm, ih⟩
  unfold wordPieces
  by_cases h0 : word.length = 0
  · rw [if_pos h0]
    exact fun id hid => (List.not_mem_nil hid).elim
  rw [if_neg h0]
  by_cases hlong : word.length > m.maxInputCharsPerWord
  · rw [if_pos hlong]
    exact fun id hid => (List.not_mem_nil hid).elim
  rw [if_neg hlong]
  rcases wordBuffers word (knownAscii || word.all (· < 0x80)) with _ | ⟨bytes, cps2⟩
  · exact fun id hid => (List.not_mem_nil hid).elim
  dsimp only
  rcases hx : (if word.length ≤ m.maxTokenChars then seVocabLookup m bytes else none) with _ | id
  · exact walk bytes cps2 word.length 0
  · split_ifs at hx
    exact fun id' hid => List.mem_singleton.mp hid ▸ seVocabLookup_lt h hx

end

end StaticEmbeddings
