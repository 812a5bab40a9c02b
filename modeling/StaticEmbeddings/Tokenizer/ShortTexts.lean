import StaticEmbeddings.Tokenizer.Safety
import StaticEmbeddings.Tokenizer.Unbounded

/-!
# Short texts

How many ids a text can have, and when there is room for them.

* `length_cleanedCps_le`, `length_feeds_le`: a byte feeds at most 24 code points.
* `Item.room`: the ids and the bytes that an item may need; `sum_room_items_le`.
* **`not_isOom_of_short`**: a text of up to `2 ^ 24` bytes does not fail for want of memory.
-/

namespace StaticEmbeddings

open LittleEndian

variable {m : SeModel}

/-! ## Feeds -/

theorem length_take_entry_le (hm : ModelOk m) {cp : ℕ} {e : SeMapEntry}
    (h : lowerEntry m cp = some e ∨ nfdEntry m cp = some e) : (e.out.take e.len).length ≤ 4 := by
  have hsome : ∀ {o : Option (Option SeMapEntry)}, o.getD none = some e → o = some (some e) := by
    intro o ho
    cases o with
    | none => cases ho
    | some o => exact congrArg some ho
  exact (List.length_take_le _ _).trans
    ((readersSafe_of_modelOk hm).outputs cp e (h.imp hsome hsome))

theorem length_loweredCps_le (hm : ModelOk m) (cp : ℕ) : (loweredCps m cp).length ≤ 4 := by
  have hone : 1 ≤ 4 := by decide
  unfold loweredCps
  split_ifs
  · exact hone
  · cases he : lowerEntry m cp with
    | none => exact hone
    | some e => exact length_take_entry_le hm (.inl he)
  · exact hone
  · exact hone

theorem length_strippedCps_le (hm : ModelOk m) (cp : ℕ) : (strippedCps m cp).length ≤ 16 := by
  have hlow := fun cp => length_loweredCps_le hm cp
  unfold strippedCps
  by_cases hplain : m.stripAccents = 0 ∨ cp < 0x80
  · rw [if_pos hplain]
    exact (hlow cp).trans (by decide)
  · rw [if_neg hplain]
    cases he : nfdEntry m cp with
    | none =>
      dsimp only
      split_ifs
      · exact Nat.zero_le _
      · exact (hlow cp).trans (by decide)
    | some e =>
      have htake := length_take_entry_le hm (.inr he)
      have hflat : ∀ cps : List ℕ, (cps.flatMap fun d =>
          if isMn m d = true then [] else loweredCps m d).length ≤ 4 * cps.length := by
        intro cps
        induction cps with
        | nil => exact le_rfl
        | cons d cps ih =>
          have hd : (if isMn m d = true then [] else loweredCps m d).length ≤ 4 := by
            split_ifs
            · exact Nat.zero_le _
            · exact hlow d
          rw [List.flatMap_cons, List.length_append, List.length_cons]
          omega
      have := hflat (e.out.take e.len)
      dsimp only
      omega

theorem length_cleanedCps_le (hm : ModelOk m) (cp : ℕ) : (cleanedCps m cp).length ≤ 24 := by
  have hstripped := fun cp => length_strippedCps_le hm cp
  have hblank : (strippedCps m 0x20).length ≤ 4 := by
    unfold strippedCps
    rw [if_pos (.inr (by decide))]
    exact length_loweredCps_le hm 0x20
  unfold cleanedCps
  by_cases hclean : m.cleanText ≠ 0 ∧ (cp = 0 ∨ cp = 0xFFFD ∨ isControl m cp = true)
  · rw [if_pos hclean]
    exact Nat.zero_le _
  rw [if_neg hclean]
  generalize (if m.cleanText ≠ 0 ∧ isWhitespace m cp = true then 0x20 else cp) = c
  dsimp only
  have hc := hstripped c
  split_ifs
  · simp only [List.length_append]
    omega
  · omega

theorem length_feeds_le (hm : ModelOk m) (bs : Bytes) : (feeds m bs).1.length ≤ 24 * bs.length := by
  induction hn : bs.length using Nat.strong_induction_on generalizing bs with
  | _ n ih =>
    by_cases hb : bs = []
    · rw [hb, feeds_nil]
      exact Nat.zero_le _
    have hpos := List.length_pos_iff.mpr hb
    cases hl : literalAt m bs with
    | some r =>
      obtain ⟨id, len⟩ := r
      have hlen := literalAt_pos hl
      have hdrop : (bs.drop len).length = bs.length - len := List.length_drop
      have hrest := ih (bs.drop len).length (by omega) (bs.drop len) rfl
      rw [feeds_literal hl, List.length_cons]
      omega
    | none =>
      cases hd : Utf8.decode? bs with
      | none =>
        rw [feeds_invalid hb hl hd]
        exact Nat.zero_le _
      | some r =>
        obtain ⟨cp, rest⟩ := r
        have hlt := Utf8.decode?_length hd
        have hrest := ih rest.length (by omega) rest rfl
        have hcp := length_cleanedCps_le hm cp
        rw [feeds_decode hl hd, List.length_append, List.length_map]
        omega

/-! ## Items -/

/-- The ids, or the bytes, that an item may need. -/
def Item.room : Item → ℕ
  | .word w => 4 * w.length + 1
  | .direct _ => 1

@[simp] theorem Item.room_word (w : List ℕ) : (Item.word w).room = 4 * w.length + 1 := rfl

@[simp] theorem Item.room_direct (id : ℕ) : (Item.direct id).room = 1 := rfl

/-- The room of the words that a flush appends. -/
def segmentRoom (segment : List ℕ) : ℕ := ((flushItems segment).map Item.room).sum

theorem segmentRoom_append (segment : List ℕ) (c : ℕ) :
    segmentRoom (segment ++ [c]) ≤ segmentRoom segment + 5 := by
  unfold segmentRoom flushItems
  rw [if_neg (List.append_ne_nil_of_right_ne_nil segment (List.cons_ne_nil c []))]
  split_ifs with hs
  · rw [hs]
    exact le_rfl
  · simp only [List.map_cons, List.map_nil, List.sum_cons, List.sum_nil, Item.room_word,
      List.length_append, List.length_singleton]
    omega

theorem segmenter_room (segment : List ℕ) (f : Feed) :
    (((segmenter m).step segment f).1.map Item.room).sum +
      segmentRoom ((segmenter m).step segment f).2 ≤ segmentRoom segment + 5 := by
  have hnil : segmentRoom [] = 0 := rfl
  cases f with
  | cp c =>
    simp only [segmenter]
    split_ifs
    · rw [hnil]
      exact Nat.le_add_right _ _
    · simp only [List.map_append, List.sum_append, List.map_cons, List.map_nil, List.sum_cons,
        List.sum_nil, hnil]
      exact le_rfl
    · rw [List.map_nil, List.sum_nil, Nat.zero_add]
      exact segmentRoom_append segment c
  | added id =>
    simp only [segmenter, List.map_append, List.sum_append, List.map_cons, List.map_nil,
      List.sum_cons, List.sum_nil, hnil, Item.room_direct]
    exact Nat.add_le_add_left (by decide : 1 ≤ 5) _

theorem sum_room_items_le (hm : ModelOk m) (bs : Bytes) :
    ((items m bs).1.map Item.room).sum ≤ 120 * bs.length := by
  have hfeeds := length_feeds_le hm bs
  have hrun := (segmenter m).sum_run_le Item.room segmentRoom segmenter_room [] (feeds m bs).1
  have hnil : segmentRoom [] = 0 := rfl
  rw [hnil] at hrun
  unfold items
  split_ifs
  · have hout : (((segmenter m).out (feeds m bs).1).map Item.room).sum =
        (((segmenter m).run [] (feeds m bs).1).1.map Item.room).sum +
          segmentRoom ((segmenter m).run [] (feeds m bs).1).2 := by
      rw [Transducer.out, List.map_append, List.sum_append]
      rfl
    rw [hout]
    omega
  · dsimp only
    omega

/-! ## Words -/

theorem length_pieceWalk_le (bytes : Bytes) (cps2 : List ℕ) (wordLen start : ℕ) :
    (pieceWalk m bytes cps2 wordLen start).1.length ≤ wordLen - start := by
  fun_induction pieceWalk m bytes cps2 wordLen start with
  | case1 | case2 | case4 => exact Nat.zero_le _
  | case3 start hlt id target hm e hbad ih =>
    have hend : start < e := lt_pieceEnd (by unfold pieceMax; omega)
    rw [List.length_cons]
    omega

theorem pieceWalk_ne_overflow (bytes : Bytes) (cps2 : List ℕ) (wordLen start : ℕ) :
    (pieceWalk m bytes cps2 wordLen start).2 ≠ .overflow := by
  fun_induction pieceWalk m bytes cps2 wordLen start with
  | case1 | case2 | case4 => exact WalkEnd.noConfusion
  | case3 start hlt id target hm e hbad ih => exact ih

theorem encodeWord_ne_none {word : List ℕ} {bytes : Bytes} {cps2 : List ℕ}
    (h : bytes.length + 4 * word.length ≤ uint32Max) : encodeWord word bytes cps2 ≠ none := by
  induction word generalizing bytes cps2 with
  | nil =>
    rw [encodeWord, if_neg (by omega)]
    exact Option.some_ne_none _
  | cons cp word ih =>
    rw [List.length_cons] at h
    have hcp := length_seUtf8Encode_le cp
    rw [encodeWord, if_neg (by omega)]
    refine ih ?_
    rw [List.length_append]
    omega

/-- The pieces of a word are at most its code points, and a short word fits into its buffers. -/
theorem wordPieces_short {word : List ℕ} (h : 4 * word.length ≤ uint32Max) (knownAscii : Bool) :
    (wordPieces m word knownAscii).1.length ≤ word.length ∧
      (wordPieces m word knownAscii).2 ≠ .overflow := by
  unfold wordPieces
  by_cases h0 : word.length = 0
  · rw [if_pos h0]
    exact ⟨Nat.zero_le _, WalkEnd.noConfusion⟩
  rw [if_neg h0]
  by_cases hlong : word.length > m.maxInputCharsPerWord
  · rw [if_pos hlong]
    exact ⟨Nat.zero_le _, WalkEnd.noConfusion⟩
  rw [if_neg hlong]
  cases hb : wordBuffers word (knownAscii || word.all (· < 0x80)) with
  | none =>
    unfold wordBuffers at hb
    split_ifs at hb
    exact absurd hb (encodeWord_ne_none (by rwa [List.length_nil, Nat.zero_add]))
  | some buffers =>
    obtain ⟨bytes, cps2⟩ := buffers
    dsimp only
    cases if word.length ≤ m.maxTokenChars then seVocabLookup m bytes else none with
    | none => exact ⟨length_pieceWalk_le bytes cps2 word.length 0, pieceWalk_ne_overflow _ _ _ _⟩
    | some id => exact ⟨Nat.pos_of_ne_zero h0, WalkEnd.noConfusion⟩

/-! ## Runs -/

section

variable {p : TokenParams} {o : TokenIds} {its : List Item} {r : Except SeError TokenIds}

/-- A run that finds room: it adds at most `room` ids, and does not fail for want of memory. -/
structure Roomy (o : TokenIds) (room : ℕ) (r : Except SeError TokenIds) : Prop where
  noOom : ¬ IsOom r
  ids : ∀ o', r = .ok o' → o'.ids.length ≤ o.ids.length + room
  nUnk : ∀ o', r = .ok o' → o'.nUnk ≤ o.nUnk + room

theorem Roomy.ok {o' : TokenIds} {room : ℕ} (hi : o'.ids.length ≤ o.ids.length + room)
    (hn : o'.nUnk ≤ o.nUnk + room) : Roomy o room (.ok o') where
  noOom := not_isOom_ok _
  ids := fun _ he => Except.ok.inj he ▸ hi
  nUnk := fun _ he => Except.ok.inj he ▸ hn

theorem Roomy.error {e : SeError} {room : ℕ} (h : e.status ≠ .errOom) : Roomy o room (.error e) where
  noOom := by
    rintro ⟨e', he, hs⟩
    obtain rfl := Except.error.inj he
    exact h hs
  ids := fun _ he => by cases he
  nUnk := fun _ he => by cases he

theorem runItem_roomy (hm : ModelOk m) (h : p.maxTokens = 0) (hw : p.wordpiece = wordpiece m)
    {it : Item} (hroom : o.ids.length + it.room ≤ uint32Max) : Roomy o it.room (runItem p o it) := by
  cases it with
  | word w =>
    have hspec := @wordPieces_short m w
    rw [Item.room_word] at hroom
    obtain ⟨hlen, hover⟩ := hspec (by omega) (w.all (· < 0x80))
    simp only [runItem, hw, wordpiece_eq hm, capAfterAppend_unbounded h]
    unfold emitPieces
    rw [if_neg (by omega)]
    cases hend : (wordPieces m w (w.all (· < 0x80))).2 with
    | done =>
      refine .ok ?_ (Nat.le_add_right _ _)
      rw [List.length_append, Item.room_word]
      omega
    | missing =>
      simp only [pushUnk, pushId_eq]
      rw [if_neg (by omega)]
      refine .ok ?_ ?_
      · rw [List.length_append, Item.room_word, List.length_singleton]
        omega
      · rw [Item.room_word]
        dsimp only
        omega
    | invalid => exact .error SeStatus.noConfusion
    | overflow => exact absurd hend hover
  | direct id =>
    rw [Item.room_direct] at hroom
    simp only [runItem, pushId_eq, capAfterAppend_unbounded h]
    rw [if_neg (by omega)]
    refine .ok ?_ ?_
    · rw [List.length_append, List.length_singleton]
      exact le_rfl
    · rw [Item.room_direct]
      dsimp only
      split_ifs
      · exact le_rfl
      · exact Nat.le_succ _

theorem runItemList_roomy (hm : ModelOk m) (h : p.maxTokens = 0) (hw : p.wordpiece = wordpiece m)
    (ho : o.truncated = false) (hroom : o.ids.length + (its.map Item.room).sum ≤ uint32Max) :
    Roomy o (its.map Item.room).sum (runItemList p o its) := by
  induction its generalizing o with
  | nil => exact .ok le_rfl le_rfl
  | cons it its ih =>
    rw [List.map_cons, List.sum_cons] at hroom ⊢
    have hit : Roomy o it.room (runItem p o it) := runItem_roomy hm h hw (by omega)
    rw [runItemList_cons ho]
    cases hr : runItem p o it with
    | error e => exact .error fun hs => hit.noOom ⟨e, hr, hs⟩
    | ok o₁ =>
      have hids := hit.ids o₁ hr
      have hunk := hit.nUnk o₁ hr
      have hrest := ih ((runItem_untruncated h hr).trans ho) (by omega)
      refine ⟨hrest.noOom, fun o' he => ?_, fun o' he => ?_⟩
      · have := hrest.ids o' he
        omega
      · have := hrest.nUnk o' he
        omega

/-- **A short text does not fail for want of memory**, whatever it is. -/
theorem not_isOom_of_short (hm : ModelOk m) (limitMode : SeTokenLimit) {input : Bytes}
    (h : input.length ≤ 2 ^ 24) : ¬ IsOom (unboundedIds m limitMode input) := by
  have hsum := sum_room_items_le hm input
  have hroom : 0 + ((items m input).1.map Item.room).sum ≤ uint32Max := by
    unfold uint32Max
    omega
  have hrun := @runItemList_roomy m (unbounded m limitMode) {} (items m input).1 hm rfl rfl rfl hroom
  rw [unboundedIds_eq hm]
  rintro ⟨e, he, hs⟩
  unfold runItems at he
  cases hr : runItemList (unbounded m limitMode) {} (items m input).1 with
  | error e' =>
    rw [hr] at he
    cases he
    exact hrun.noOom ⟨e, hr, hs⟩
  | ok o =>
    have hids : o.ids.length ≤ 0 + _ := hrun.ids o hr
    have hunk : o.nUnk ≤ 0 + _ := hrun.nUnk o hr
    rw [hr] at he
    change (tokenResult (if (o.truncated || (items m input).2) = true then .ok o
      else .error invalidUtf8)).2 = .error e at he
    split_ifs at he
    · rw [tokenResult, if_neg (by omega)] at he
      cases he
    · cases he
      cases hs

end

end StaticEmbeddings
