import StaticEmbeddings.Convert.Vocabulary
import StaticEmbeddings.Tokenizer.Pieces

/-!
# Greedy segmentation

`wordpiece` on a vocabulary that the converter has compiled.

* `longestPiece`, `greedy`: longest match first over code points; `PreTokenized`: the words.
* `longestKey_wordBytes`: longest matches of bytes are longest matches of code points.
* `pieceMatch_eq`, `pieceWalk_eq`: the walk over the tries segments greedily.
* `Misread`: a 32-bit slot that reads as another string than its token.
* **`wordpiece_greedy`**.
-/

namespace StaticEmbeddings

open LittleEndian PrefixTree

/-! ## The segmentation -/

/-- The id of a piece: of a token at the start of a word, of a continuation behind it. -/
def pieceId (tokens : List Bytes) (first : Bool) (chars : List ℕ) : Option ℕ :=
  tokens.idxOf? (if first then wordBytes chars else continuingSubwordPrefix ++ wordBytes chars)

/-- The longest piece at the start of `chars`: its id and its number of code points. -/
def longestPiece (tokens : List Bytes) (first : Bool) (chars : List ℕ) : Option (ℕ × ℕ) :=
  longestKey (pieceId tokens first) chars

/-- The pieces found one after the other, and whether they are all of `chars`. -/
def greedy (tokens : List Bytes) (first : Bool) (chars : List ℕ) : List ℕ × Bool :=
  if _h : chars = [] then ([], true)
  else
    match _hp : longestPiece tokens first chars with
    | none => ([], false)
    | some (id, len) =>
      (id :: (greedy tokens false (chars.drop len)).1, (greedy tokens false (chars.drop len)).2)
termination_by chars.length
decreasing_by
  all_goals
    have := (longestKey_eq_some_iff.mp _hp).1
    have := List.length_pos_iff.mpr _h
    rw [List.length_drop]
    omega

section

variable {tokens : List Bytes} {first : Bool} {chars : List ℕ}

theorem greedy_nil : greedy tokens first [] = ([], true) := by
  rw [greedy, dif_pos rfl]

theorem greedy_of_none (hne : chars ≠ []) (h : longestPiece tokens first chars = none) :
    greedy tokens first chars = ([], false) := by
  rw [greedy, dif_neg hne]
  split
  · rfl
  · rename_i hs
    rw [h] at hs
    cases hs

theorem greedy_of_some (hne : chars ≠ []) {id len : ℕ}
    (h : longestPiece tokens first chars = some (id, len)) : greedy tokens first chars =
      (id :: (greedy tokens false (chars.drop len)).1, (greedy tokens false (chars.drop len)).2) := by
  rw [greedy, dif_neg hne]
  split
  · rename_i hs
    rw [h] at hs
    cases hs
  · rename_i hs
    rw [h] at hs
    cases hs
    rfl

end

/-- The words that the pre-tokenizer passes: one code point, or none that is whitespace or
punctuation. -/
structure PreTokenized (m : SeModel) (word : List ℕ) : Prop where
  scalar : ∀ c ∈ word, Utf8.Scalar c
  shape : (∃ c, word = [c]) ∨
    (word ≠ [] ∧ ∀ c ∈ word, isWhitespace m c = false ∧ isPunct m c = false)

/-! ## Bytes and code points -/

section

variable {ι : Type} {f : Bytes → Option ι} {chars : List ℕ}

theorem wordBytes_eq_encodeAll (h : ∀ c ∈ chars, Utf8.Scalar c) :
    wordBytes chars = Utf8.encodeAll chars := by
  refine List.flatMap_congr fun c hc => seUtf8Encode_eq ?_
  have := h c hc
  unfold Utf8.Scalar at this
  omega

theorem wordBytes_append (a b : List ℕ) : wordBytes (a ++ b) = wordBytes a ++ wordBytes b :=
  List.flatMap_append

theorem length_wordBytes_take_lt {j k : ℕ} (hjk : j < k) (hk : k ≤ chars.length) :
    (wordBytes (chars.take j)).length < (wordBytes (chars.take k)).length := by
  have hsplit : chars.take k = chars.take j ++ (chars.drop j).take (k - j) := by
    rw [← List.take_add, Nat.add_sub_cancel' hjk.le]
  have hpos : (chars.drop j).take (k - j) ≠ [] := by
    rw [Ne, ← List.length_eq_zero_iff, List.length_take, List.length_drop]
    omega
  rw [hsplit, wordBytes_append, List.length_append]
  cases hrest : (chars.drop j).take (k - j) with
  | nil => exact absurd hrest hpos
  | cons c rest =>
    have := length_seUtf8Encode_pos c
    rw [wordBytes_cons, List.length_append]
    omega

theorem exists_take_of_wellFormed (h : ∀ c ∈ chars, Utf8.Scalar c) {j : ℕ}
    (hj : j ≤ (wordBytes chars).length) (hw : Utf8.WellFormed ((wordBytes chars).take j)) :
    ∃ k ≤ chars.length, (wordBytes chars).take j = wordBytes (chars.take k) ∧
      j = (wordBytes (chars.take k)).length := by
  obtain ⟨cps, hcps, he⟩ := hw
  have hpre : cps <+: chars := by
    refine Utf8.prefix_of_encodeAll_prefix hcps h ?_
    rw [← he, ← wordBytes_eq_encodeAll h]
    exact List.take_prefix _ _
  have hk := List.prefix_iff_eq_take.mp hpre
  have htake : (wordBytes chars).take j = wordBytes (chars.take cps.length) := by
    rw [he, ← hk, wordBytes_eq_encodeAll hcps]
  refine ⟨cps.length, hpre.length_le, htake, ?_⟩
  rw [← htake, List.length_take, Nat.min_eq_left hj]

/-- **Longest matches of bytes are longest matches of code points**, if all keys are UTF-8. -/
theorem longestKey_wordBytes (hf : ∀ w v, f w = some v → Utf8.WellFormed w)
    (h : ∀ c ∈ chars, Utf8.Scalar c) :
    longestKey f (wordBytes chars) = (longestKey (fun cs => f (wordBytes cs)) chars).map
      fun r => (r.1, (wordBytes (chars.take r.2)).length) := by
  have htake : ∀ k, (wordBytes chars).take (wordBytes (chars.take k)).length =
      wordBytes (chars.take k) := fun k => by
    conv_lhs => rw [← List.take_append_drop k chars, wordBytes_append]
    rw [List.take_append_drop, List.take_left]
  have hlen : ∀ k, (wordBytes (chars.take k)).length ≤ (wordBytes chars).length := fun k => by
    have := congrArg List.length (htake k)
    rw [List.length_take] at this
    omega
  cases hc : longestKey (fun cs => f (wordBytes cs)) chars with
  | none =>
    refine longestKey_eq_none_iff.mpr fun j hj hle => ?_
    rw [Option.eq_none_iff_forall_ne_some]
    intro v hv
    obtain ⟨k, hk, he, hjk⟩ := exists_take_of_wellFormed h hle (hf _ v hv)
    have hpos : 0 < k := by
      rw [Nat.pos_iff_ne_zero]
      rintro rfl
      rw [hjk] at hj
      exact lt_irrefl 0 hj
    have := longestKey_eq_none_iff.mp hc k hpos hk
    rw [he, this] at hv
    cases hv
  | some r =>
    obtain ⟨v, k⟩ := r
    obtain ⟨hpos, hk, hv, hnone⟩ := longestKey_eq_some_iff.mp hc
    have hlt := @length_wordBytes_take_lt chars 0 k hpos hk
    refine longestKey_eq_some_iff.mpr ⟨Nat.zero_lt_of_lt hlt, hlen k, ?_, fun j hj hle => ?_⟩
    · rw [htake]
      exact hv
    · rw [Option.eq_none_iff_forall_ne_some]
      intro v' hv'
      obtain ⟨k', hk', he, hjk⟩ := exists_take_of_wellFormed h hle (hf _ v' hv')
      have hkk : k < k' := by
        by_contra hge
        obtain hlt' | rfl := lt_or_eq_of_le (not_lt.mp hge)
        · have := length_wordBytes_take_lt hlt' hk
          simp only at hj
          omega
        · simp only at hj
          omega
      have := hnone k' hkk hk'
      rw [he, this] at hv'
      cases hv'

end

/-! ## Keys -/

section

variable {tokens : List Bytes} {m : SeModel} {word : List ℕ} {start : ℕ}

theorem not_prefix_of_preTokenized (hw : PreTokenized m word) (j : ℕ) :
    ¬ continuingSubwordPrefix <+: wordBytes (word.take j) := by
  intro hpre
  have hscalar : ∀ c ∈ word.take j, Utf8.Scalar c := fun c hc => hw.scalar c (List.mem_of_mem_take hc)
  rw [wordBytes_eq_encodeAll hscalar,
    show continuingSubwordPrefix = Utf8.encodeAll [0x23, 0x23] by decide] at hpre
  have hchars := (Utf8.prefix_of_encodeAll_prefix (by decide) hscalar hpre).trans
    (List.take_prefix j word)
  obtain ⟨c, rfl⟩ | ⟨-, hword⟩ := hw.shape
  · have := hchars.length_le
    simp only [List.length_cons, List.length_nil] at this
    omega
  · obtain ⟨-, hpunct⟩ := hword 0x23 (hchars.subset List.mem_cons_self)
    rw [show isPunct m 0x23 = true from rfl] at hpunct
    cases hpunct

/-- **The root trie holds the first pieces.** -/
theorem rootKeys_eq (hd : tokens.Nodup) (hw : PreTokenized m word) {j : ℕ} (h0 : 0 < j)
    (hj : j ≤ word.length) :
    (WordPieceTrie.rootKeys continuingSubwordPrefix 0 tokens).lookup (wordBytes (word.take j)) =
      pieceId tokens true (word.take j) := by
  have hne : wordBytes (word.take j) ≠ [] := by
    have := length_wordBytes_take_lt h0 hj
    exact List.length_pos_iff.mp (Nat.zero_lt_of_lt this)
  have hcont : WordPieceTrie.isContinuation (wordBytes (word.take j)) continuingSubwordPrefix =
      false := by
    rw [Bool.eq_false_iff, Ne, WordPieceTrie.isContinuation_iff]
    rintro ⟨-, body, -, he⟩
    exact not_prefix_of_preTokenized hw j ⟨body, he.symm⟩
  rw [WordPieceTrie.lookup_rootKeys hd, if_pos ⟨hne, hcont⟩]
  rfl

/-- **The continuation trie holds the others.** -/
theorem contKeys_eq (hd : tokens.Nodup) {chars : List ℕ} {j : ℕ} (h0 : 0 < j)
    (hj : j ≤ chars.length) :
    (WordPieceTrie.contKeys continuingSubwordPrefix 0 tokens).lookup (wordBytes (chars.take j)) =
      pieceId tokens false (chars.take j) := by
  have hne : wordBytes (chars.take j) ≠ [] := by
    have := length_wordBytes_take_lt h0 hj
    exact List.length_pos_iff.mp (Nat.zero_lt_of_lt this)
  rw [WordPieceTrie.lookup_contKeys hd, if_pos ⟨hne, by decide⟩]
  rfl

theorem wellFormed_of_lookup (hutf8 : ∀ t ∈ tokens, Utf8.WellFormed t)
    (w : Bytes) (i : ℕ) :
    ((WordPieceTrie.rootKeys continuingSubwordPrefix 0 tokens).lookup w = some i →
      Utf8.WellFormed w) ∧
    ((WordPieceTrie.contKeys continuingSubwordPrefix 0 tokens).lookup w = some i →
      Utf8.WellFormed w) := by
  constructor
  · intro h
    exact hutf8 w (List.mem_of_getElem? (WordPieceTrie.mem_rootKeys.mp (mem_of_lookup h)).1)
  · intro h
    have hmem := List.mem_of_getElem? (WordPieceTrie.mem_contKeys.mp (mem_of_lookup h)).1
    exact (Utf8.wellFormed_ascii_append (by decide +kernel) w).mp (hutf8 _ hmem)

theorem charCount_wordBytes {chars : List ℕ} (h : ∀ c ∈ chars, Utf8.Scalar c) :
    charCount (wordBytes chars) = chars.length := by
  rw [charCount, wordBytes_eq_encodeAll h]
  induction chars with
  | nil => rfl
  | cons c chars ih =>
    obtain ⟨hc, hchars⟩ := List.forall_mem_cons.mp h
    obtain ⟨b, t, he, hb, ht, -⟩ := Utf8.encode_eq_cons hc
    have htail : t.countP (fun b => ¬ Utf8.IsCont b) = 0 :=
      List.countP_eq_zero.mpr fun b hb => by simpa using ht b hb
    rw [Utf8.encodeAll_cons, he, List.countP_append, List.countP_cons_of_pos (by simpa using hb),
      htail, ih hchars, List.length_cons, Nat.zero_add, Nat.add_comm]

/-- **No piece is longer than `max_token_chars`.** -/
theorem length_le_of_pieceId (hw : PreTokenized m word) {j : ℕ} {i : ℕ}
    (h : pieceId tokens (start == 0) ((word.drop start).take j) = some i) :
    ((word.drop start).take j).length ≤ maxTokenChars tokens continuingSubwordPrefix := by
  have hscalar : ∀ c ∈ (word.drop start).take j, Utf8.Scalar c := fun c hc =>
    hw.scalar c (List.mem_of_mem_drop (List.mem_of_mem_take hc))
  have hmem := mem_of_idxOf? h
  have hle := @charCount_le_maxTokenChars _ continuingSubwordPrefix _ hmem
  refine le_trans (le_of_eq ?_) hle
  unfold tokenBody
  by_cases hs : start = 0
  · subst hs
    have hnot := not_prefix_of_preTokenized hw j
    rw [← List.isPrefixOf_iff_prefix, Bool.not_eq_true] at hnot
    simp only [List.drop_zero, beq_self_eq_true, if_true] at hscalar ⊢
    rw [hnot, if_neg Bool.false_ne_true, charCount_wordBytes hscalar]
  · rw [beq_false_of_ne hs, if_neg Bool.false_ne_true,
      if_pos (List.isPrefixOf_iff_prefix.mpr (List.prefix_append _ _)), List.drop_left,
      charCount_wordBytes hscalar]

/-! ## The walk -/

theorem getD_cpOffsets {k : ℕ} (hk : k ≤ word.length) :
    (cpOffsets 0 word).getD k 0 = (wordBytes (word.take k)).length := by
  rw [List.getD_eq_getElem?_getD, getElem?_cpOffsets 0 hk, Nat.zero_add, Option.getD_some]

theorem slice_wordBytes {i j : ℕ} (hij : i ≤ j) :
    slice (wordBytes word) (wordBytes (word.take i)).length
        ((wordBytes (word.take j)).length - (wordBytes (word.take i)).length) =
      wordBytes ((word.drop i).take (j - i)) := by
  have hj : word.take j = word.take i ++ (word.drop i).take (j - i) := by
    rw [← List.take_add, Nat.add_sub_cancel' hij]
  have hword : wordBytes word = wordBytes (word.take i) ++
      (wordBytes ((word.drop i).take (j - i)) ++ wordBytes (word.drop j)) := by
    rw [← List.append_assoc, ← wordBytes_append, ← hj, ← wordBytes_append, List.take_append_drop]
  rw [slice, hword, List.drop_left, hj, wordBytes_append, List.length_append, Nat.add_sub_cancel_left,
    List.take_left]

theorem pieceEnd_eq {e maxEnd : ℕ} (hs : start < e) (he : e ≤ maxEnd) (hm : maxEnd ≤ word.length) :
    pieceEnd (cpOffsets 0 word) (wordBytes (word.take e)).length maxEnd start = e := by
  have hfind : (List.range' (start + 1) (maxEnd - start)).find?
      (fun k => (wordBytes (word.take e)).length ≤ (cpOffsets 0 word).getD k 0) = some e := by
    refine List.find?_range'_eq_some.mpr ⟨?_, List.mem_range'_1.mpr ⟨hs, by omega⟩,
      fun k hk hlt => ?_⟩
    · rw [decide_eq_true_eq, getD_cpOffsets (he.trans hm)]
    · rw [getD_cpOffsets (by omega), Bool.not_eq_true', decide_eq_false_iff_not, not_le]
      exact length_wordBytes_take_lt hlt (he.trans hm)
  rw [pieceEnd, hfind]
  rfl

theorem le_pieceMax (hc : Compiled tokens m) (hw : PreTokenized m word)
    (hlen : word.length ≤ m.maxInputCharsPerWord) {j i : ℕ} (hj : start + j ≤ word.length)
    (h : pieceId tokens (start == 0) ((word.drop start).take j) = some i) :
    start + j ≤ pieceMax m word.length start := by
  have hle := length_le_of_pieceId hw h
  rw [List.length_take, List.length_drop, Nat.min_eq_left (by omega)] at hle
  unfold pieceMax
  obtain hmax | hmax := hc.maxTokenChars
  · omega
  · omega

/-- **The match of the walk is the longest piece.** -/
theorem pieceMatch_eq (hc : Compiled tokens m) (hutf8 : ∀ t ∈ tokens, Utf8.WellFormed t)
    (hw : PreTokenized m word) (hlen : word.length ≤ m.maxInputCharsPerWord)
    (hlt : start < word.length) :
    pieceMatch m (wordBytes word) (cpOffsets 0 word) word.length start =
      (longestPiece tokens (start == 0) (word.drop start)).map fun r =>
        (r.1, (wordBytes (word.take (start + r.2))).length) := by
  have hmax : pieceMax m word.length start ≤ word.length := Nat.min_le_right _ _
  have hpos : start ≤ pieceMax m word.length start := by
    unfold pieceMax
    omega
  set window := (word.drop start).take (pieceMax m word.length start - start) with hwindow
  have hscalar : ∀ c ∈ window, Utf8.Scalar c := fun c h =>
    hw.scalar c (List.mem_of_mem_drop (List.mem_of_mem_take h))
  have htake : ∀ j ≤ window.length, window.take j = (word.drop start).take j := by
    intro j hj
    rw [hwindow, List.length_take] at hj
    rw [hwindow, List.take_take, Nat.min_eq_left (by omega)]
  -- the trie of this position, over code points
  have hkeys : (pieceTrie m start).longest 0 (wordBytes window) =
      (longestKey (pieceId tokens (start == 0)) window).map fun r =>
        (r.1, (wordBytes (window.take r.2)).length) := by
    by_cases hs : start = 0
    · subst hs
      rw [pieceTrie, if_neg (lt_irrefl 0), hc.root,
        longestKey_wordBytes (fun w i => (wellFormed_of_lookup hutf8 w i).1) hscalar]
      congr 1
      refine longestKey_congr fun j h0 hj => ?_
      have hj' := hj
      rw [hwindow, List.length_take, List.length_drop] at hj'
      rw [htake j hj, List.drop_zero]
      exact rootKeys_eq hc.nodup hw h0 (by omega)
    · rw [pieceTrie, if_pos (Nat.pos_of_ne_zero hs), hc.cont,
        longestKey_wordBytes (fun w i => (wellFormed_of_lookup hutf8 w i).2) hscalar,
        beq_false_of_ne hs]
      congr 1
      exact longestKey_congr fun j h0 hj => contKeys_eq hc.nodup h0 hj
  have hfull : longestKey (pieceId tokens (start == 0)) window =
      longestPiece tokens (start == 0) (word.drop start) := by
    refine longestKey_take fun j hgt hj => ?_
    rw [Option.eq_none_iff_forall_ne_some]
    intro i hi
    rw [List.length_drop] at hj
    have := le_pieceMax hc hw hlen (by omega) hi
    omega
  unfold pieceMatch
  rw [getD_cpOffsets hlt.le, getD_cpOffsets hmax]
  dsimp only
  rw [slice_wordBytes hpos, ← hwindow, hkeys, ← hfull]
  cases hr : longestKey (pieceId tokens (start == 0)) window with
  | none => rfl
  | some r =>
    obtain ⟨-, hle, -, -⟩ := longestKey_eq_some_iff.mp hr
    simp only [Option.map_some]
    rw [htake r.2 hle, List.take_add, wordBytes_append, List.length_append]

/-- **The walk over the tries segments greedily.** -/
theorem pieceWalk_eq (hc : Compiled tokens m) (hutf8 : ∀ t ∈ tokens, Utf8.WellFormed t)
    (hw : PreTokenized m word) (hlen : word.length ≤ m.maxInputCharsPerWord) (start : ℕ) :
    pieceWalk m (wordBytes word) (cpOffsets 0 word) word.length start =
      ((greedy tokens (start == 0) (word.drop start)).1,
        if (greedy tokens (start == 0) (word.drop start)).2 then .done else .missing) := by
  generalize hn : word.length - start = n
  induction n using Nat.strong_induction_on generalizing start with
  | _ n ih =>
    rw [pieceWalk]
    by_cases hlt : start < word.length
    · have hne : word.drop start ≠ [] := by
        rw [Ne, List.drop_eq_nil_iff]
        omega
      rw [dif_pos hlt, pieceMatch_eq hc hutf8 hw hlen hlt]
      cases hp : longestPiece tokens (start == 0) (word.drop start) with
      | none =>
        rw [greedy_of_none hne hp]
        rfl
      | some r =>
        obtain ⟨id, len⟩ := r
        obtain ⟨hpos, hle, hid, -⟩ := longestKey_eq_some_iff.mp hp
        rw [List.length_drop] at hle
        have hmax := le_pieceMax hc hw hlen (by omega) hid
        have hend := pieceEnd_eq (Nat.lt_add_of_pos_right hpos) hmax (Nat.min_le_right _ _)
        have hfirst : (start + len == 0) = false := beq_false_of_ne (by omega)
        have hrec := ih (word.length - (start + len)) (by omega) (start + len) rfl
        rw [hfirst] at hrec
        rw [greedy_of_some hne hp]
        simp only [Option.map_some, hend]
        rw [if_neg, hrec, List.drop_drop]
        rw [getD_cpOffsets (by omega)]
        exact not_or.mpr ⟨not_lt.mpr hmax, not_not.mpr rfl⟩
    · rw [dif_neg hlt, List.drop_eq_nil_iff.mpr (not_lt.mp hlt), greedy_nil]
      rfl

/-! ## The whole word -/

/-- The pieces of a word, none of one that is too long, and whether they are all of it. -/
def segmentation (tokens : List Bytes) (m : SeModel) (word : List ℕ) : List ℕ × Bool :=
  if word.length ≤ m.maxInputCharsPerWord then greedy tokens true word else ([], false)

/-- More bytes or more ids than `wordpiece` can count. -/
def OutOfRoom (tokens : List Bytes) (m : SeModel) (word ids : List ℕ) : Prop :=
  (word.length ≤ m.maxInputCharsPerWord ∧ uint32Max < (wordBytes word).length) ∨
    uint32Max < ids.length + max 1 (segmentation tokens m word).1.length

instance (tokens : List Bytes) (m : SeModel) (word ids : List ℕ) :
    Decidable (OutOfRoom tokens m word ids) := by
  unfold OutOfRoom
  infer_instance

/-- The ids and the count of `[UNK]` behind a word: its pieces, or one `[UNK]`. -/
def appended (tokens : List Bytes) (m : SeModel) (word ids : List ℕ) (nUnk : ℕ) : List ℕ × ℕ :=
  if (segmentation tokens m word).2 then (ids ++ (segmentation tokens m word).1, nUnk)
  else (ids ++ [m.unkId], nUnk + 1)

/-- `wordpiece` appends the greedy segmentation of a word or one `[UNK]`, and so does its trie walk
without the lookup of the whole word. -/
def SegmentsGreedily (tokens : List Bytes) (m : SeModel) (word : List ℕ) : Prop :=
  ∀ ids nUnk knownAscii, (knownAscii = true → ∀ c ∈ word, c < 0x80) →
    wordpiece? m word ids nUnk knownAscii =
      some (if OutOfRoom tokens m word ids then .error .oom
        else .ok (appended tokens m word ids nUnk)) ∧
    ∀ bytes cps2, word.length ≤ m.maxInputCharsPerWord →
      wordBuffers word (knownAscii || word.all (· < 0x80)) = some (bytes, cps2) →
      wordpiece? m word ids nUnk knownAscii =
        wordpieceLoop? m bytes cps2 word.length nUnk ids.length 0 ids

/-- The first token whose slot in the file reads as `bytes` is another string. -/
def Misread (tokens : List Bytes) (bytes : Bytes) : Prop :=
  ∃ i token, tokens[i]? = some token ∧ token ≠ bytes ∧
    HashTable.hasKey tokens.flatten bytes (HashTable.slotOf tokens i) = true ∧
    ∀ j < i, HashTable.hasKey tokens.flatten bytes (HashTable.slotOf tokens j) = false

theorem misread_iff {bytes : Bytes} : Misread tokens bytes ↔
    ∃ i, HashTable.firstStored tokens bytes = some i ∧ tokens[i]? ≠ some bytes := by
  simp only [HashTable.firstStored, List.find?_range_eq_some, List.mem_range, Bool.not_eq_true']
  constructor
  · rintro ⟨i, token, hi, hne, hkey, hfirst⟩
    refine ⟨i, ⟨hkey, (List.getElem?_eq_some_iff.mp hi).1, hfirst⟩, ?_⟩
    rw [hi]
    exact fun h => hne (Option.some.inj h)
  · rintro ⟨i, ⟨hkey, hi, hfirst⟩, hne⟩
    refine ⟨i, tokens[i], List.getElem?_eq_getElem hi, fun h => hne ?_, hkey, hfirst⟩
    rw [List.getElem?_eq_getElem hi, h]

/-- **A vocabulary of less than `2 ^ 32` bytes is never misread.** -/
theorem not_misread (hc : Compiled tokens m) (hbytes : tokens.flatten.length < 2 ^ 32)
    (bytes : Bytes) : ¬ Misread tokens bytes := by
  rintro ⟨i, token, hi, hne, hkey, -⟩
  obtain ⟨hlt, rfl⟩ := List.getElem?_eq_some_iff.mp hi
  have hcount : tokens.length < slotEmpty := hc.vocabSize ▸ hc.ok.vocabSize_lt
  have hfits : HashTable.Fits tokens 1 := ⟨hc.nodup, hcount, 0, rfl⟩
  exact hne ((HashTable.hasKey_iff hfits hbytes hlt).mp hkey)

theorem encodeWord_eq_none_iff {cps : List ℕ} {bytes : Bytes} {cps2 : List ℕ} :
    encodeWord cps bytes cps2 = none ↔ uint32Max < bytes.length + (wordBytes cps).length := by
  induction cps generalizing bytes cps2 with
  | nil =>
    unfold encodeWord
    simp only [wordBytes, List.flatMap_nil, List.length_nil, Nat.add_zero]
    split_ifs with h
    · exact iff_of_true rfl h
    · exact iff_of_false not_false h
  | cons cp cps ih =>
    unfold encodeWord
    rw [wordBytes_cons, List.length_append]
    split_ifs with h
    · exact iff_of_true rfl (by omega)
    · rw [ih, List.length_append, Nat.add_assoc]

theorem wordBuffers_eq {knownAscii : Bool} (hka : knownAscii = true → ∀ c ∈ word, c < 0x80)
    (hlen : word.length ≤ uint32Max) :
    wordBuffers word (knownAscii || word.all (· < 0x80)) =
      if uint32Max < (wordBytes word).length then none
      else some (wordBytes word, cpOffsets 0 word) := by
  unfold wordBuffers
  by_cases hascii : ∀ c ∈ word, c < 0x80
  · obtain ⟨hb, ho⟩ := wordBytes_ascii hascii 0
    have hall : (knownAscii || word.all (· < 0x80)) = true := by
      rw [Bool.or_eq_true, List.all_eq_true]
      exact .inr fun c hc => decide_eq_true (hascii c hc)
    rw [if_pos hall, if_neg, hb, ho, List.range_eq_range']
    rw [hb, List.length_map]
    omega
  · have hall : (knownAscii || word.all (· < 0x80)) = false := by
      rw [Bool.or_eq_false_iff]
      refine ⟨Bool.eq_false_iff.mpr fun h => hascii (hka h), Bool.eq_false_iff.mpr fun h => ?_⟩
      exact hascii fun c hc => of_decide_eq_true (List.all_eq_true.mp h c hc)
    rw [hall, if_neg Bool.false_ne_true]
    have hnone := @encodeWord_eq_none_iff word [] []
    rw [List.length_nil, Nat.zero_add] at hnone
    split_ifs with hbig
    · exact hnone.mpr hbig
    · cases he : encodeWord word [] [] with
      | none => exact absurd (hnone.mp he) hbig
      | some r =>
        rw [encodeWord_eq he]
        rfl

theorem greedy_ne_nil {first : Bool} {chars : List ℕ} (hne : chars ≠ [])
    (h : (greedy tokens first chars).2 = true) : (greedy tokens first chars).1 ≠ [] := by
  cases hp : longestPiece tokens first chars with
  | none =>
    rw [greedy_of_none hne hp] at h
    cases h
  | some r =>
    rw [greedy_of_some hne hp]
    exact List.cons_ne_nil _ _

theorem emitPieces_segmentation {pieces ids : List ℕ} {complete : Bool} {nUnk : ℕ}
    (h : complete = true → pieces ≠ []) :
    emitPieces m ids nUnk (pieces, if complete then .done else .missing) =
      if uint32Max < ids.length + max 1 pieces.length then .error .oom
      else .ok (if complete then (ids ++ pieces, nUnk) else (ids ++ [m.unkId], nUnk + 1)) := by
  have hlen := @List.length_pos_iff _ pieces
  have hunk : ids.length + 1 ≤ uint32Max → pushUnk m ids nUnk = .ok (ids ++ [m.unkId], nUnk + 1) := by
    intro hle
    rw [pushUnk, pushId_eq, if_neg (by omega)]
  unfold emitPieces
  simp only
  by_cases hp : pieces = []
  · subst hp
    have hc : complete = false := Bool.eq_false_iff.mpr fun hc => h hc rfl
    subst hc
    rw [if_neg fun hn => hn.1 rfl]
    simp only [List.length_nil, Nat.max_eq_left (Nat.zero_le 1), Bool.false_eq_true, if_false]
    split_ifs with hbig
    · rw [pushUnk, pushId_eq, if_pos hbig]
    · exact hunk (not_lt.mp hbig)
  · have hpos := hlen.mpr hp
    rw [Nat.max_eq_right hpos]
    by_cases hbig : uint32Max < ids.length + pieces.length
    · rw [if_pos ⟨hp, hbig⟩, if_pos hbig]
    · rw [if_neg fun hn => hbig hn.2, if_neg hbig]
      cases complete with
      | true => rfl
      | false => exact hunk (by omega)

theorem greedy_of_token (hne : word ≠ []) {i : ℕ} (h : tokens.idxOf? (wordBytes word) = some i) :
    greedy tokens true word = ([i], true) := by
  have hp : longestPiece tokens true word = some (i, word.length) := by
    refine longestKey_eq_some_iff.mpr ⟨List.length_pos_iff.mpr hne, le_rfl, ?_,
      fun j h₁ h₂ => absurd h₂ (not_le.mpr h₁)⟩
    rw [List.take_length]
    exact h
  rw [greedy_of_some hne hp, List.drop_length, greedy_nil]

theorem token_of_greedy (hne : word ≠ []) {i : ℕ} (h : greedy tokens true word = ([i], true)) :
    tokens.idxOf? (wordBytes word) = some i := by
  cases hp : longestPiece tokens true word with
  | none =>
    rw [greedy_of_none hne hp] at h
    cases h
  | some r =>
    obtain ⟨id, len⟩ := r
    obtain ⟨-, hle, hid, -⟩ := longestKey_eq_some_iff.mp hp
    rw [greedy_of_some hne hp, Prod.mk.injEq, List.cons.injEq] at h
    obtain ⟨⟨rfl, hrest⟩, hdone⟩ := h
    have hlen : word.drop len = [] := by
      by_contra hdrop
      exact greedy_ne_nil hdrop hdone hrest
    rw [List.drop_eq_nil_iff] at hlen
    rw [List.take_of_length_le hlen] at hid
    exact hid

theorem PreTokenized.ne_nil (hw : PreTokenized m word) : word ≠ [] := by
  obtain ⟨c, rfl⟩ | ⟨hne, -⟩ := hw.shape
  · exact List.cons_ne_nil _ _
  · exact hne

theorem pieceWalk_zero (hc : Compiled tokens m) (hutf8 : ∀ t ∈ tokens, Utf8.WellFormed t)
    (hw : PreTokenized m word) (hlen : word.length ≤ m.maxInputCharsPerWord) :
    pieceWalk m (wordBytes word) (cpOffsets 0 word) word.length 0 =
      ((segmentation tokens m word).1,
        if (segmentation tokens m word).2 then .done else .missing) := by
  rw [pieceWalk_eq hc hutf8 hw hlen, segmentation, if_pos hlen, List.drop_zero, beq_self_eq_true]

/-- **The pieces of a word whose lookup finds nothing else than its token.** -/
theorem wordPieces_eq (hc : Compiled tokens m) (hutf8 : ∀ t ∈ tokens, Utf8.WellFormed t)
    (hw : PreTokenized m word) (hread : ¬ (word.length ≤ m.maxTokenChars ∧
      Misread tokens (wordBytes word))) {knownAscii : Bool}
    (hka : knownAscii = true → ∀ c ∈ word, c < 0x80) :
    wordPieces m word knownAscii =
      if word.length ≤ m.maxInputCharsPerWord ∧ uint32Max < (wordBytes word).length
        then ([], .overflow)
      else ((segmentation tokens m word).1,
        if (segmentation tokens m word).2 then .done else .missing) := by
  have hne := hw.ne_nil
  unfold wordPieces
  rw [if_neg (List.length_pos_iff.mpr hne).ne']
  by_cases hlong : word.length > m.maxInputCharsPerWord
  · rw [if_pos hlong, if_neg fun h => absurd h.1 (not_le.mpr hlong), segmentation,
      if_neg (not_le.mpr hlong)]
    rfl
  have hlen := not_lt.mp hlong
  rw [if_neg hlong, wordBuffers_eq hka (hlen.trans hc.maxInput_le)]
  by_cases hbig : uint32Max < (wordBytes word).length
  · rw [if_pos hbig, if_pos ⟨hlen, hbig⟩]
  rw [if_neg hbig, if_neg fun h => hbig h.2]
  simp only [seVocabLookup, hc.lookup, Option.getD_some]
  by_cases hchars : word.length ≤ m.maxTokenChars
  · rw [if_pos hchars]
    cases hfirst : HashTable.firstStored tokens (wordBytes word) with
    | none => exact pieceWalk_zero hc hutf8 hw hlen
    | some i =>
      have hi : tokens[i]? = some (wordBytes word) := by
        by_contra hi
        exact hread ⟨hchars, misread_iff.mpr ⟨i, hfirst, hi⟩⟩
      rw [segmentation, if_pos hlen, greedy_of_token hne ((idxOf?_eq_some_iff hc.nodup).mpr hi)]
      rfl
  · rw [if_neg hchars]
    exact pieceWalk_zero hc hutf8 hw hlen

/-- **Greedy segmentation, unless the lookup of the word is misread.** -/
theorem segmentsGreedily_of_read (hc : Compiled tokens m) (hutf8 : ∀ t ∈ tokens, Utf8.WellFormed t)
    (hw : PreTokenized m word)
    (hread : ¬ (word.length ≤ m.maxTokenChars ∧ Misread tokens (wordBytes word))) :
    SegmentsGreedily tokens m word := by
  have hdone : (segmentation tokens m word).2 = true → (segmentation tokens m word).1 ≠ [] := by
    unfold segmentation
    split_ifs
    · exact greedy_ne_nil hw.ne_nil
    · exact nofun
  intro ids nUnk knownAscii hka
  rw [wordpiece?_eq hc.ok, wordPieces_eq hc hutf8 hw hread hka]
  constructor
  · congr 1
    by_cases hover : word.length ≤ m.maxInputCharsPerWord ∧ uint32Max < (wordBytes word).length
    · rw [if_pos hover, if_pos (.inl hover), emitPieces, if_neg fun h => h.1 rfl]
    · rw [if_neg hover, emitPieces_segmentation hdone]
      refine if_congr ?_ rfl rfl
      exact ⟨.inr, fun h => h.resolve_left hover⟩
  · intro bytes cps2 hlen hb
    obtain ⟨hbuf, -⟩ := wordBuffers_spec hb
    rw [wordBuffers_eq hka (hlen.trans hc.maxInput_le)] at hb
    split_ifs at hb with hbig
    cases hb
    have hnil : ¬ (([] : List ℕ) ≠ [] ∧ ids.length + ([] : List ℕ).length > uint32Max) :=
      fun h => h.1 rfl
    have hloop := @wordpieceLoop?_eq m ids nUnk hc.ok _ _ _ hbuf 0 [] hnil
    rw [List.append_nil, List.nil_append, pieceWalk_zero hc hutf8 hw hlen] at hloop
    rw [hloop, if_neg fun h => hbig h.2]

/-- **A misread word is not segmented.** -/
theorem not_segmentsGreedily (hc : Compiled tokens m) (hw : PreTokenized m word)
    (hchars : word.length ≤ m.maxTokenChars) (hread : Misread tokens (wordBytes word)) :
    ¬ SegmentsGreedily tokens m word := by
  intro h
  obtain ⟨i, hfirst, hi⟩ := misread_iff.mp hread
  have hne := hw.ne_nil
  have hlen := hchars.trans hc.ok.maxTokenChars_le
  have hsmall : ¬ uint32Max < (wordBytes word).length := by
    obtain ⟨_, _, _, _, hkey, -⟩ := hread
    obtain ⟨-, hl, -⟩ := of_decide_eq_true hkey
    rw [← hl]
    exact not_lt.mpr (Nat.le_pred_of_lt (Nat.mod_lt _ (Nat.two_pow_pos 32)))
  -- what the code does
  have hcode : wordpiece? m word [] 0 false = some (.ok ([i], 0)) := by
    have hbuf := @wordBuffers_eq word false nofun (hlen.trans hc.maxInput_le)
    rw [if_neg hsmall] at hbuf
    rw [wordpiece?_eq hc.ok, wordPieces, if_neg (List.length_pos_iff.mpr hne).ne',
      if_neg (not_lt.mpr hlen), hbuf]
    simp only [if_pos hchars, seVocabLookup, hc.lookup, Option.getD_some, hfirst]
    rfl
  obtain ⟨hspec, -⟩ := h [] 0 false nofun
  rw [hcode, Option.some.injEq] at hspec
  split_ifs at hspec with hroom
  rw [Except.ok.injEq, appended] at hspec
  split_ifs at hspec with hdone
  · have hseg : segmentation tokens m word = ([i], true) :=
      Prod.ext (Prod.mk.inj hspec).1.symm hdone
    rw [segmentation, if_pos hlen] at hseg
    exact hi ((idxOf?_eq_some_iff hc.nodup).mp (token_of_greedy hne hseg))
  · exact absurd (Prod.mk.inj hspec).2 (by decide)

end

/-! ## Written vocabularies -/

/-- **WordPiece on a written vocabulary.** On every word of the pre-tokenizer `wordpiece` appends the
greedy segmentation or one `[UNK]`, with or without the lookup of the whole word, exactly if the slot
of no other token reads as the word; and none does in a vocabulary of less than `2 ^ 32` bytes. -/
theorem wordpiece_greedy {sha256 : Bytes → Bytes} {profile fmt : FormatMeta} {tokens : List Bytes}
    {matrix : Payload} {normTables provenance file : Bytes} {m : SeModel} {word : List ℕ}
    (hsha : ∀ bytes, (sha256 bytes).length = checksumSize) (hmatrix : matrix.Honest)
    (hd : tokens.Nodup) (hutf8 : ∀ t ∈ tokens, Utf8.WellFormed t)
    (hmeta : runtimeMeta profile tokens = some fmt)
    (hwrite : writerCall sha256 fmt tokens matrix normTables provenance = .ok file)
    (hload : validate file = .ok m) (hword : PreTokenized m word) :
    (SegmentsGreedily tokens m word ↔
      ¬ (word.length ≤ m.maxTokenChars ∧ Misread tokens (wordBytes word))) ∧
    (tokens.flatten.length < 2 ^ 32 → ¬ Misread tokens (wordBytes word)) := by
  obtain ⟨hpre, hchars⟩ := runtimeMeta_spec hmeta
  obtain ⟨hash, tries, chunks, hhash, htries, -, -, -, hw⟩ :=
    written_of_writerCall hsha hmatrix hwrite
  rw [hpre] at htries
  have hc := compiled_of_written hd hhash htries hchars hw hload
  refine ⟨⟨fun h hread => ?_, segmentsGreedily_of_read hc hutf8 hword⟩,
    fun hbytes => not_misread hc hbytes _⟩
  exact not_segmentsGreedily hc hword hread.1 hread.2 h

/-- `aa` is `a` and `##a`. -/
theorem wordpiece_greedy_sample : SegmentsGreedily sampleTokens sampleModel [0x61, 0x61] ∧
    wordpiece? sampleModel [0x61, 0x61] [] 0 true = some (.ok ([1, 3], 0)) := by
  have hscalar : ∀ c ∈ [0x61, 0x61], Utf8.Scalar c := by decide
  have hutf8 : ∀ t ∈ sampleTokens, Utf8.WellFormed t := by
    intro t ht
    rw [← List.append_nil t, Utf8.wellFormed_ascii_append]
    · exact Utf8.wellFormed_nil
    · revert t
      decide +kernel
  obtain ⟨hiff, hbytes⟩ := @wordpiece_greedy _ sampleFormat sampleFormat sampleTokens _ _ _ _ _
    [0x61, 0x61] (fun _ => List.length_replicate) (honest_ofString _) (by decide) hutf8 (by decide)
    writerCall_sampleFile validate_sampleFile ⟨hscalar, .inr (by decide)⟩
  exact ⟨hiff.mpr fun h => hbytes (by decide) h.2, by decide +kernel⟩

end StaticEmbeddings
