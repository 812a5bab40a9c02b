import StaticEmbeddings.Convert.Conversion
import StaticEmbeddings.Reference.Normalization
import StaticEmbeddings.Runtime.Truncation
import StaticEmbeddings.Tokenizer.Acceptance

/-!
# The runtime and the reference

A loaded model that has what the reference has returns the ids of the reference.

* `wordpieceLoop_eq`, `wordpiece_eq`: the pieces of a word.
* `runItemList_ids`: a run over items keeps the first ids.
* `literalAt_before`, `literalAt_of_added`: where the next literal is.
* `Reads`, `reads_plain`; **`addedTokensLoop_eq`**: the items of a text read as the ids of the
  reference.
* **`seTokenize_all`**, **`seTokenize_embedIds`**: the ids of `se_tokenize` and those that are pooled.
-/

namespace StaticEmbeddings

open LittleEndian PrefixTree

namespace Reference

/-! ## Pieces -/

section Pieces

variable {r : Reference} {chars : List ℕ} {start : ℕ}

theorem vocab_eq (hd : r.tokens.Nodup) (piece : Bytes) : r.vocab piece = r.tokens.idxOf? piece := by
  have hkeys : (r.tokens.zipIdx.reverse.map Prod.fst).Nodup := by
    rw [List.map_reverse, List.zipIdx_map_fst, List.nodup_reverse]
    exact hd
  apply Option.ext
  intro i
  rw [idxOf?_eq_some_iff hd]
  constructor
  · intro h
    exact List.mem_zipIdx_iff_getElem?.mp (List.mem_reverse.mp (mem_of_lookup h))
  · intro h
    exact lookup_of_mem hkeys (List.mem_reverse.mpr (List.mem_zipIdx_iff_getElem?.mpr h))

theorem vocab_pieceText (hd : r.tokens.Nodup) (hc : ∀ c ∈ chars, Utf8.Scalar c) (start k : ℕ) :
    r.vocab (pieceText chars start (start + k)) =
      pieceId r.tokens (start == 0) ((chars.drop start).take k) := by
  have htake : (chars.take (start + k)).drop start = (chars.drop start).take k := by
    rw [List.drop_take, Nat.add_sub_cancel_left]
  have hscalar : ∀ c ∈ (chars.drop start).take k, Utf8.Scalar c := fun c h =>
    hc c (List.mem_of_mem_drop (List.mem_of_mem_take h))
  rw [vocab_eq hd, pieceText, htake, ← wordBytes_eq_encodeAll hscalar, pieceId]
  by_cases hs : start = 0
  · rw [hs]
    rfl
  · rw [if_pos (Nat.pos_of_ne_zero hs), beq_false_of_ne hs]
    rfl

theorem longestPieceTo_eq (hd : r.tokens.Nodup) (hc : ∀ c ∈ chars, Utf8.Scalar c) (start k : ℕ) :
    longestPieceTo r chars start (start + k) =
      (longestUpTo (pieceId r.tokens (start == 0)) (chars.drop start) k).map fun x =>
        (x.1, start + x.2) := by
  induction k with
  | zero =>
    cases start with
    | zero => rfl
    | succ n => exact if_neg (lt_irrefl _)
  | succ k ih =>
    have hpiece := vocab_pieceText hd hc start (k + 1)
    rw [← Nat.add_assoc] at hpiece ⊢
    rw [longestPieceTo, if_pos (by omega), hpiece, longestUpTo]
    cases pieceId r.tokens (start == 0) ((chars.drop start).take (k + 1)) with
    | none => exact ih
    | some id => rfl

theorem longestPiece_eq (hd : r.tokens.Nodup) (hc : ∀ c ∈ chars, Utf8.Scalar c)
    (hs : start ≤ chars.length) : longestPiece r chars start =
      (StaticEmbeddings.longestPiece r.tokens (start == 0) (chars.drop start)).map fun x =>
        (x.1, start + x.2) := by
  have h := longestPieceTo_eq hd hc start (chars.length - start)
  rw [Nat.add_sub_cancel' hs] at h
  rw [longestPiece, h, StaticEmbeddings.longestPiece, longestKey, List.length_drop]

/-- **The loop of `wordpiece` segments greedily.** -/
theorem wordpieceLoop_eq (hd : r.tokens.Nodup) (hc : ∀ c ∈ chars, Utf8.Scalar c) (ids : List ℕ)
    (start : ℕ) : wordpieceLoop r chars ids start =
      if (greedy r.tokens (start == 0) (chars.drop start)).2 then
        ids ++ (greedy r.tokens (start == 0) (chars.drop start)).1
      else [r.unkId] := by
  generalize hn : chars.length - start = n
  induction n using Nat.strong_induction_on generalizing ids start with
  | _ n ih =>
    rw [wordpieceLoop]
    by_cases hlt : start < chars.length
    · have hne : chars.drop start ≠ [] := by
        rw [Ne, List.drop_eq_nil_iff]
        omega
      rw [if_pos hlt]
      split
      · rename_i hnone
        rw [longestPiece_eq hd hc hlt.le, Option.map_eq_none_iff] at hnone
        rw [greedy_of_none hne hnone]
        rfl
      · rename_i found finish hsome
        rw [longestPiece_eq hd hc hlt.le, Option.map_eq_some_iff] at hsome
        obtain ⟨⟨id, len⟩, hp, he⟩ := hsome
        obtain ⟨rfl, rfl⟩ := Prod.mk.inj he
        have hpos : 0 < len := (longestKey_eq_some_iff.mp hp).1
        have hfirst : (start + len == 0) = false := beq_false_of_ne (by omega)
        rw [ih (chars.length - (start + len)) (by omega) _ _ rfl, greedy_of_some hne hp, hfirst,
          List.drop_drop]
        split_ifs
        · rw [List.append_assoc, List.singleton_append]
        · rfl
    · rw [if_neg hlt, List.drop_eq_nil_iff.mpr (not_lt.mp hlt), greedy_nil, if_pos rfl,
        List.append_nil]

end Pieces

/-! ## Items -/

section Items

variable {db : UnicodeDatabase} {r : Reference} {m : SeModel} {p : TokenParams} {o o' : TokenIds}
  {it : Item} {its : List Item}

/-- **The pieces of a word.** -/
theorem wordpiece_eq (h : Agrees db r m) {word : List ℕ} (hc : ∀ c ∈ word, Utf8.Scalar c) :
    r.wordpiece word = if (segmentation r.tokens m word).2 then (segmentation r.tokens m word).1
      else [r.unkId] := by
  unfold wordpiece segmentation
  rw [h.maxInputCharsPerWord]
  by_cases hlen : word.length ≤ r.options.maxInputCharsPerWord
  · rw [if_neg (not_lt.mpr hlen), if_pos hlen, wordpieceLoop_eq h.compiled.nodup hc]
    rfl
  · rw [if_pos (not_le.mp hlen), if_neg hlen]
    rfl

/-- The ids of an item. -/
def itemIds (r : Reference) : Item → List ℕ
  | .word w => r.wordpiece w
  | .direct id => [id]

/-- The item is a word of the pre-tokenizer, or no word. -/
def Wordly (m : SeModel) : Item → Prop
  | .word w => PreTokenized m w
  | .direct _ => True

theorem wordpiece_of_preTokenized (h : Agrees db r m) {word : List ℕ} (hw : PreTokenized m word)
    (ids : List ℕ) (nUnk : ℕ) : StaticEmbeddings.wordpiece m word ids nUnk (word.all (· < 0x80)) =
      if OutOfRoom r.tokens m word ids then .error .oom
      else .ok (appended r.tokens m word ids nUnk) := by
  have hread := not_misread h.compiled h.small (wordBytes word)
  have hspec := segmentsGreedily_of_read h.compiled h.utf8 hw fun hr => hread hr.2
  obtain ⟨heq, -⟩ := hspec ids nUnk (word.all (· < 0x80)) fun hall c hc =>
    of_decide_eq_true (List.all_eq_true.mp hall c hc)
  rw [StaticEmbeddings.wordpiece, heq, Option.getD_some]

/-- **An item appends the ids of the reference**, and then the cap, unless it is out of memory. -/
theorem runItem_ids (h : Agrees db r m) (hw : p.wordpiece = StaticEmbeddings.wordpiece m)
    (hit : Wordly m it) (o : TokenIds) : IsOom (runItem p o it) ∨
      ∃ nUnk, runItem p o it = .ok (capAfterAppend p ⟨o.ids ++ r.itemIds it, nUnk, o.truncated⟩) := by
  cases it with
  | word w =>
    simp only [runItem, hw, wordpiece_of_preTokenized h hit]
    by_cases hroom : OutOfRoom r.tokens m w o.ids
    · rw [if_pos hroom]
      exact .inl ⟨_, rfl, rfl⟩
    · rw [if_neg hroom]
      have hids : (appended r.tokens m w o.ids o.nUnk).1 = o.ids ++ r.itemIds (.word w) := by
        rw [itemIds, wordpiece_eq h hit.scalar, ← h.unkId]
        unfold appended
        split_ifs
        · rfl
        · rfl
      rw [← hids]
      exact .inr ⟨(appended r.tokens m w o.ids o.nUnk).2, rfl⟩
  | direct id =>
    simp only [runItem, pushId_eq]
    by_cases hbig : o.ids.length + 1 > uint32Max
    · rw [if_pos hbig]
      exact .inl ⟨_, rfl, rfl⟩
    · rw [if_neg hbig]
      exact .inr ⟨_, rfl⟩

/-- More ids than the limit. -/
def Over (maxTokens : ℕ) (ids : List ℕ) : Prop := 0 < maxTokens ∧ ids.length > maxTokens

theorem firstTokens_of_over {maxTokens : ℕ} {ids : List ℕ} (h : Over maxTokens ids) :
    firstTokens maxTokens ids = ids.take maxTokens := if_pos h

theorem firstTokens_of_not_over {maxTokens : ℕ} {ids : List ℕ} (h : ¬ Over maxTokens ids) :
    firstTokens maxTokens ids = ids := if_neg h

theorem firstTokens_append {maxTokens : ℕ} {ids : List ℕ} (h : Over maxTokens ids) (rest : List ℕ) :
    firstTokens maxTokens (ids ++ rest) = firstTokens maxTokens ids := by
  have hover : Over maxTokens (ids ++ rest) := by
    refine ⟨h.1, ?_⟩
    rw [List.length_append]
    exact Nat.lt_add_right _ h.2
  rw [firstTokens_of_over hover, firstTokens_of_over h, List.take_append_of_le_length h.2.le]

/-- The ids are limited by their number, or not at all. -/
abbrev CountsAll (p : TokenParams) : Prop := p.limitMode = .raw ∨ p.maxTokens = 0

theorem capAfterAppend_all (hall : CountsAll p) (ht : o.truncated = false) :
    (capAfterAppend p o).ids = firstTokens p.maxTokens o.ids ∧
      ((capAfterAppend p o).truncated = true ↔ Over p.maxTokens o.ids) := by
  by_cases hzero : p.maxTokens = 0
  · have hover : ¬ Over p.maxTokens o.ids := fun h => h.1.ne' hzero
    rw [capAfterAppend_unbounded hzero, firstTokens_of_not_over hover, ht]
    exact ⟨rfl, iff_of_false Bool.false_ne_true hover⟩
  · have hraw := hall.resolve_right hzero
    have hlimited : limitedTokenCount p o = o.ids.length := by
      rw [limitedTokenCount, if_neg]
      rw [hraw]
      exact fun h => SeTokenLimit.noConfusion h.1
    unfold capAfterAppend
    rw [hlimited]
    by_cases hover : Over p.maxTokens o.ids
    · have hlt := hover.2
      rw [if_neg (by omega), if_pos (.inl hraw), firstTokens_of_over hover]
      exact ⟨rfl, iff_of_true rfl hover⟩
    · have hle : o.ids.length ≤ p.maxTokens := by
        by_contra hlt
        exact hover ⟨Nat.pos_of_ne_zero hzero, not_le.mp hlt⟩
      rw [if_pos (.inr hle), firstTokens_of_not_over hover, ht]
      exact ⟨rfl, iff_of_false Bool.false_ne_true hover⟩

/-- **A run over items keeps the first ids**, unless it is out of memory. -/
theorem runItemList_ids (h : Agrees db r m) (hw : p.wordpiece = StaticEmbeddings.wordpiece m)
    (hall : CountsAll p) (hits : ∀ it ∈ its, Wordly m it) (ht : o.truncated = false)
    (hover : ¬ Over p.maxTokens o.ids) : IsOom (runItemList p o its) ∨
      ∃ o', runItemList p o its = .ok o' ∧
        o'.ids = firstTokens p.maxTokens (o.ids ++ its.flatMap r.itemIds) := by
  induction its generalizing o with
  | nil =>
    refine .inr ⟨o, rfl, ?_⟩
    rw [List.flatMap_nil, List.append_nil, firstTokens_of_not_over hover]
  | cons it its ih =>
    rw [List.forall_mem_cons] at hits
    rw [runItemList_cons ht, List.flatMap_cons, ← List.append_assoc]
    obtain ⟨e, he, hs⟩ | ⟨nUnk, hit⟩ := runItem_ids h hw hits.1 o
    · rw [he]
      exact .inl ⟨e, rfl, hs⟩
    · rw [hit]
      have hcap := @capAfterAppend_all p ⟨o.ids ++ r.itemIds it, nUnk, o.truncated⟩ hall ht
      obtain ⟨hids, htrunc⟩ := hcap
      -- the first item over the limit is the last one
      by_cases hov : Over p.maxTokens (o.ids ++ r.itemIds it)
      · refine .inr ⟨_, runItemList_of_truncated (htrunc.mpr hov) its, ?_⟩
        rw [hids, firstTokens_append hov]
      · have hfirst : firstTokens p.maxTokens (o.ids ++ r.itemIds it) = o.ids ++ r.itemIds it :=
          firstTokens_of_not_over hov
        have hrest := ih hits.2 (Bool.eq_false_iff.mpr fun hc => hov (htrunc.mp hc))
          (by rwa [hids, hfirst])
        rw [hids, hfirst] at hrest
        exact hrest

end Items

/-! ## Literals -/

section Literals

variable {db : UnicodeDatabase} {r : Reference} {m : SeModel} {text : Bytes} {cursor : ℕ}

theorem min?_le {as : List Match} {a : Match} (h : Match.min? as = some a) :
    ∀ b ∈ as, a.1 ≤ b.1 := by
  have hlt : ∀ b c : Match, Match.lt b c = true → b.1 ≤ c.1 := by
    intro b c h
    simp only [Match.lt, Bool.or_eq_true, decide_eq_true_eq, Bool.and_eq_true, beq_iff_eq] at h
    omega
  have hnlt : ∀ b c : Match, ¬ Match.lt b c = true → c.1 ≤ b.1 := by
    intro b c h
    simp only [Match.lt, Bool.or_eq_true, decide_eq_true_eq, not_or] at h
    omega
  have hfold : ∀ (as : List Match) (a : Match),
      (as.foldl (fun best b => if Match.lt b best then b else best) a).1 ≤ a.1 ∧
        ∀ b ∈ as, (as.foldl (fun best b => if Match.lt b best then b else best) a).1 ≤ b.1 := by
    intro as
    induction as with
    | nil => exact fun a => ⟨le_rfl, fun b hb => absurd hb List.not_mem_nil⟩
    | cons c as ih =>
      intro a
      rw [List.foldl_cons, List.forall_mem_cons]
      split_ifs with hc
      · obtain ⟨h₁, h₂⟩ := ih c
        exact ⟨h₁.trans (hlt c a hc), h₁, h₂⟩
      · obtain ⟨h₁, h₂⟩ := ih a
        exact ⟨h₁, h₁.trans (hnlt c a hc), h₂⟩
  cases as with
  | nil => cases h
  | cons c as =>
    obtain rfl := Option.some.inj h
    obtain ⟨h₁, h₂⟩ := hfold as c
    rw [List.forall_mem_cons]
    exact ⟨h₁, h₂⟩

theorem isPrefix_of_indexFrom {literal : Bytes} {index : ℕ}
    (h : indexFrom text literal cursor = some index) : literal <+: text.drop index := by
  have := List.find?_some h
  exact List.isPrefixOf_iff_prefix.mp this

theorem indexFrom_le {literal : Bytes} {j : ℕ} (hj : cursor ≤ j) (hlt : j ≤ text.length)
    (hp : literal <+: text.drop j) : ∃ i ≤ j, indexFrom text literal cursor = some i := by
  have hmem : j ∈ List.range' cursor (text.length + 1 - cursor) :=
    List.mem_range'_1.mpr ⟨hj, by omega⟩
  cases hf : indexFrom text literal cursor with
  | none =>
    have := List.find?_eq_none.mp hf j hmem
    exact absurd (List.isPrefixOf_iff_prefix.mpr hp) this
  | some i =>
    refine ⟨i, ?_, rfl⟩
    obtain ⟨-, -, hfirst⟩ := List.find?_range'_eq_some.mp hf
    by_contra hgt
    have := hfirst j hj (not_le.mp hgt)
    rw [List.isPrefixOf_iff_prefix.mpr hp] at this
    cases this

theorem literalAt_before (h : Agrees db r m) {j : ℕ} (hj : cursor ≤ j) (hlt : j ≤ text.length)
    (hbefore : ∀ index literal id, r.nextMatch text cursor = some (index, literal, id) → j < index) :
    literalAt m (text.drop j) = none := by
  rw [literalAt_eq_none_iff]
  intro t ht hp
  have hadded := (h.added t.1 (addedTokenId m t.2)).mpr ⟨t, ht.1, ht.2, rfl, rfl⟩
  obtain ⟨i, hi, hindex⟩ := indexFrom_le hj hlt hp
  have hmem : (i, t.1, addedTokenId m t.2) ∈ r.options.addedTokens.filterMap fun t =>
      (indexFrom text t.1 cursor).map fun i => (i, t) := by
    refine List.mem_filterMap.mpr ⟨_, hadded, ?_⟩
    rw [hindex]
    rfl
  cases hmin : r.nextMatch text cursor with
  | none =>
    rw [nextMatch] at hmin
    cases has : r.options.addedTokens.filterMap fun t =>
        (indexFrom text t.1 cursor).map fun i => (i, t) with
    | nil =>
      rw [has] at hmem
      exact List.not_mem_nil hmem
    | cons a as =>
      rw [has] at hmin
      cases hmin
  | some x =>
    obtain ⟨index, literal, id⟩ := x
    have := min?_le hmin _ hmem
    have := hbefore index literal id hmin
    dsimp only at *
    omega

theorem literalAt_of_added (h : Agrees db r m) {literal bs : Bytes} {id : ℕ}
    (hmem : (literal, id) ∈ r.options.addedTokens) (hp : literal <+: bs) :
    literalAt m bs = some (id, literal.length) := by
  have hunique : ∀ t ∈ seAddedTokens, ∀ u ∈ seAddedTokens, t.1 <+: u.1 → t = u := by decide +kernel
  obtain ⟨t, ht, hbit, rfl, rfl⟩ := (h.added _ _).mp hmem
  rw [literalAt_eq]
  cases hf : seAddedTokens.find? fun t => m.addedTokenMask &&& t.2 ≠ 0 ∧ t.1 <+: bs with
  | none =>
    have := List.find?_eq_none.mp hf t ht
    exact absurd (decide_eq_true ⟨hbit, hp⟩) this
  | some u =>
    have hu := List.mem_of_find?_eq_some hf
    have hpred := List.find?_some hf
    obtain ⟨-, hup⟩ := of_decide_eq_true hpred
    have htu : t = u := by
      obtain hpre | hpre := List.prefix_or_prefix_of_prefix hp hup
      · exact hunique t ht u hu hpre
      · exact (hunique u hu t ht hpre).symm
    rw [htu]
    rfl

theorem ascii_of_added (h : Agrees db r m) {literal : Bytes} {id : ℕ}
    (hmem : (literal, id) ∈ r.options.addedTokens) :
    (∀ b ∈ literal, b.toNat < 0x80) ∧ ∃ rest, literal = 0x5B :: rest := by
  have hall : ∀ t ∈ seAddedTokens, (∀ b ∈ t.1, b.toNat < 0x80) ∧ t.1 = 0x5B :: t.1.tail := by
    decide +kernel
  obtain ⟨t, ht, -, rfl, -⟩ := (h.added _ _).mp hmem
  exact ⟨(hall t ht).1, _, (hall t ht).2⟩

end Literals

/-! ## Texts -/

section Texts

variable {db : UnicodeDatabase} {r : Reference} {m : SeModel} {cps ids : List ℕ} {rest text : Bytes}
  {cursor maxTokens : ℕ}

theorem feeds_plain (hs : db.Standard) (h : Agrees db r m) (hc : ∀ c ∈ cps, Utf8.Scalar c)
    (hl : ∀ j < (Utf8.encodeAll cps).length,
      literalAt m ((Utf8.encodeAll cps ++ rest).drop j) = none) :
    feeds m (Utf8.encodeAll cps ++ rest) =
      ((normalizeChars db r cps).map .cp ++ (feeds m rest).1, (feeds m rest).2) := by
  induction cps with
  | nil =>
    rw [normalizeChars_nil]
    rfl
  | cons c cps ih =>
    rw [List.forall_mem_cons] at hc
    have hpos := Utf8.length_encode_pos c
    rw [Utf8.encodeAll_cons, List.append_assoc] at *
    rw [List.length_append] at hl
    have hfirst := hl 0 (by omega)
    rw [List.drop_zero] at hfirst
    have hrest : ∀ j < (Utf8.encodeAll cps).length,
        literalAt m ((Utf8.encodeAll cps ++ rest).drop j) = none := by
      intro j hj
      have := hl ((Utf8.encode c).length + j) (by omega)
      rwa [← List.drop_drop, List.drop_left] at this
    rw [feeds_decode hfirst (Utf8.decode?_encode hc.1 _), ih hc.2 hrest, ← List.append_assoc,
      ← List.map_append, cleanedCps_eq hs h (scalar_iff_valid.mp hc.1), ← normalizeChars_append]
    rfl

/-- The items are words or ids that make up `ids`. -/
structure Reads (r : Reference) (m : SeModel) (its : List Item) (ids : List ℕ) : Prop where
  ids : its.flatMap r.itemIds = ids
  wordly : ∀ it ∈ its, Wordly m it

theorem Reads.append {as bs : List Item} {xs ys : List ℕ} (ha : Reads r m as xs)
    (hb : Reads r m bs ys) : Reads r m (as ++ bs) (xs ++ ys) where
  ids := by rw [List.flatMap_append, ha.ids, hb.ids]
  wordly := List.forall_mem_append.mpr ⟨ha.wordly, hb.wordly⟩

theorem Reads.direct (r : Reference) (m : SeModel) (id : ℕ) : Reads r m [.direct id] [id] where
  ids := rfl
  wordly := List.forall_mem_singleton.mpr trivial

/-- **Plain text**: the words of the runtime are those of the reference. -/
theorem reads_plain (hs : db.Standard) (h : Agrees db r m) (hc : ∀ c ∈ cps, Utf8.Scalar c) :
    Reads r m ((segmenter m).out ((normalizeChars db r cps).map .cp))
      (tokenizePlain db r (Utf8.encodeAll cps)) := by
  have hclean : ∀ c ∈ normalizeChars db r cps, Clean db c := by
    intro c hmem
    rw [normalizeChars_eq] at hmem
    obtain ⟨d, hd, hmem⟩ := List.mem_flatMap.mp hmem
    exact clean_normalizeChars hs h.cleanText (scalar_iff_valid.mp (hc d hd)) c hmem
  rw [segmenter_out hs h hclean]
  constructor
  · rw [List.flatMap_map, tokenizePlain, normalizeText, Utf8.decodeAll_encodeAll hc]
    split_ifs with hnil
    · have hcps : cps = [] := by
        cases cps with
        | nil => rfl
        | cons c cps =>
          rw [Utf8.encodeAll_cons, List.append_eq_nil_iff] at hnil
          exact absurd hnil.1 (Utf8.encode_ne_nil c)
      rw [hcps, normalizeChars_nil]
      rfl
    · rfl
  · intro it hit
    obtain ⟨word, hword, rfl⟩ := List.mem_map.mp hit
    obtain ⟨hmem, hshape⟩ := preTokenized_of_mem hs h hclean hword
    exact ⟨fun c hcw => scalar_iff_valid.mpr (hmem c hcw).1, hshape⟩

theorem reads_end (hs : db.Standard) (h : Agrees db r m) (hw : Utf8.WellFormed (text.drop cursor))
    (hlt : cursor ≤ text.length) (hnone : r.nextMatch text cursor = none) :
    Reads r m ((segmenter m).out (feeds m (text.drop cursor)).1)
      (tokenizePlain db r (text.drop cursor)) := by
  obtain ⟨cps, hc, he⟩ := hw
  have hlen := congrArg List.length he
  rw [List.length_drop] at hlen
  have hfeeds := @feeds_plain db r m cps [] hs h hc (by
    intro j hj
    rw [List.append_nil, ← he, List.drop_drop]
    refine literalAt_before h (Nat.le_add_right cursor j) (by omega) fun index literal id hsome => ?_
    rw [hnone] at hsome
    cases hsome)
  rw [List.append_nil] at hfeeds
  rw [he, hfeeds, feeds_nil, List.append_nil]
  exact reads_plain hs h hc

theorem reads_match (hs : db.Standard) (h : Agrees db r m) (hw : Utf8.WellFormed (text.drop cursor))
    {index id : ℕ} {literal : Bytes} (hsome : r.nextMatch text cursor = some (index, literal, id)) :
    Utf8.WellFormed (text.drop (index + literal.length)) ∧ ∀ more,
      Reads r m ((segmenter m).out (feeds m (text.drop (index + literal.length))).1) more →
      Reads r m ((segmenter m).out (feeds m (text.drop cursor)).1)
        (tokenizePlain db r (slice text cursor (index - cursor)) ++ ([id] ++ more)) := by
  obtain ⟨hadded, hindex, hle, hbound⟩ := nextMatch_spec hsome
  obtain ⟨after, hafter⟩ := isPrefix_of_indexFrom hindex
  obtain ⟨hascii, tail, hbracket⟩ := ascii_of_added h hadded
  have hnext : text.drop (index + literal.length) = after := by
    rw [← List.drop_drop, ← hafter, List.drop_left]
  have hsplit : text.drop cursor = slice text cursor (index - cursor) ++ text.drop index := by
    have := List.take_append_drop (index - cursor) (text.drop cursor)
    rw [List.drop_drop, Nat.add_sub_cancel' hle] at this
    exact this.symm
  -- the bracket of the literal ends the text before it, which is well formed then
  rw [hsplit] at hw
  have hbefore : Utf8.WellFormed (slice text cursor (index - cursor)) := by
    refine @Utf8.wellFormed_of_append_encode _ (tail ++ after) 0x5B (by decide) ?_
    rwa [← hafter, hbracket] at hw
  rw [Utf8.wellFormed_append hbefore, ← hafter, Utf8.wellFormed_ascii_append hascii, ← hnext] at hw
  refine ⟨hw, fun more hmore => ?_⟩
  obtain ⟨cps, hc, he⟩ := hbefore
  have hlen : (Utf8.encodeAll cps).length = index - cursor := by
    rw [← he, length_slice]
    omega
  have hlit := literalAt_of_added h hadded ⟨after, hafter⟩
  have hfeeds := @feeds_plain db r m cps (text.drop index) hs h hc (by
    intro j hj
    rw [← he, ← hsplit, List.drop_drop]
    refine literalAt_before h (Nat.le_add_right cursor j) (by omega) fun i l d hd => ?_
    rw [hsome] at hd
    obtain ⟨rfl, -⟩ := Prod.mk.inj (Option.some.inj hd)
    omega)
  rw [hsplit, he, hfeeds, feeds_literal hlit, List.drop_drop,
    Transducer.out_append_cons (segmenter_resets_added id), List.append_assoc]
  exact (reads_plain hs h hc).append ((Reads.direct r m id).append hmore)

/-- **The loop of `tokenize_with_added_tokens`** reads the items of the text from the cursor on. -/
theorem addedTokensLoop_eq (hs : db.Standard) (h : Agrees db r m)
    (hw : Utf8.WellFormed (text.drop cursor)) (ids : List ℕ) :
    ∃ more, addedTokensLoop db r text ids cursor = ids ++ more ∧
      Reads r m ((segmenter m).out (feeds m (text.drop cursor)).1) more := by
  generalize hn : text.length - cursor = n
  induction n using Nat.strong_induction_on generalizing ids cursor with
  | _ n ih =>
    rw [addedTokensLoop]
    by_cases hlt : cursor < text.length
    · rw [if_pos hlt]
      split
      · rename_i hnone
        have hslice : slice text cursor (text.length - cursor) = text.drop cursor := by
          rw [slice, ← List.length_drop, List.take_length]
        rw [hslice]
        exact ⟨_, rfl, reads_end hs h hw hlt.le hnone⟩
      · rename_i index literal id hsome
        obtain ⟨hadded, -, hle, -⟩ := nextMatch_spec hsome
        obtain ⟨hnext, hreads⟩ := reads_match hs h hw hsome
        have hpos : 0 < literal.length := List.length_pos_iff.mpr (r.literal_ne _ hadded)
        have hids : (if index > cursor then
            ids ++ tokenizePlain db r (slice text cursor (index - cursor)) else ids) =
            ids ++ tokenizePlain db r (slice text cursor (index - cursor)) := by
          split_ifs with hgt
          · rfl
          · rw [Nat.sub_eq_zero_of_le (not_lt.mp hgt), tokenizePlain, if_pos (by simp [slice]),
              List.append_nil]
        obtain ⟨more, hmore, hrest⟩ := ih (text.length - (index + literal.length)) (by omega) hnext
          (ids ++ tokenizePlain db r (slice text cursor (index - cursor)) ++ [id]) rfl
        refine ⟨_, ?_, hreads more hrest⟩
        dsimp only
        rw [hids, hmore]
        simp only [List.append_assoc]
    · rw [if_neg hlt, List.drop_eq_nil_iff.mpr (not_lt.mp hlt), feeds_nil]
      exact ⟨[], (List.append_nil ids).symm, rfl, fun it hit => absurd hit List.not_mem_nil⟩

/-- **The ids of the reference are those of the items of the text.** -/
theorem reads_items (hs : db.Standard) (h : Agrees db r m) (hw : Utf8.WellFormed text) :
    (items m text).2 = true ∧ Reads r m (items m text).1 (tokenizeWithAddedTokens db r text) := by
  have hok := (feeds_ok_iff m text).mpr hw
  have hitems : items m text = ((segmenter m).out (feeds m text).1, true) := if_pos hok
  rw [hitems]
  refine ⟨rfl, ?_⟩
  unfold tokenizeWithAddedTokens
  split_ifs with hnone
  · refine @reads_end db r m text 0 hs h hw (Nat.zero_le _) ?_
    rw [nextMatch, hnone]
    rfl
  · obtain ⟨more, hmore, hreads⟩ := @addedTokensLoop_eq db r m text 0 hs h hw []
    rw [hmore]
    exact hreads

/-! ## Ids -/

/-- **`se_tokenize` returns the ids of the reference**, unless it fails for want of memory. -/
theorem seTokenize_all (hs : db.Standard) (h : Agrees db r m) (hw : Utf8.WellFormed text)
    {limitMode : SeTokenLimit} (hall : limitMode = .raw ∨ maxTokens = 0) :
    IsOom (seTokenize m text maxTokens limitMode neverCancelled).2 ∨
      (seTokenize m text maxTokens limitMode neverCancelled).2 =
        .ok (tokenize db r text maxTokens) := by
  obtain ⟨hok, hreads⟩ := reads_items hs h hw
  unfold seTokenize
  rw [seTokenizeWith_eq h.compiled.ok.fields.cleanText rfl]
  unfold runItems
  dsimp only
  rw [hok]
  obtain ⟨e, he, hstatus⟩ | ⟨o, ho, hids⟩ := @runItemList_ids db r m
    ⟨m, maxTokens, limitMode, neverCancelled, StaticEmbeddings.wordpiece m⟩ {} (items m text).1 h rfl
    hall hreads.wordly rfl (fun hover => absurd hover.2 (Nat.not_lt_zero _))
  · rw [he]
    exact .inl ⟨e, rfl, hstatus⟩
  · rw [hreads.ids] at hids
    rw [ho]
    show IsOom (tokenResult (if (o.truncated || true) = true then _ else _)).2 ∨
      (tokenResult (if (o.truncated || true) = true then _ else _)).2 = _
    rw [Bool.or_true, if_pos rfl]
    change IsOom (tokenResult (.ok o)).2 ∨ (tokenResult (.ok o)).2 = _
    rw [tokenResult]
    split_ifs
    · exact .inl ⟨_, rfl, rfl⟩
    · exact .inr (congrArg Except.ok hids)

theorem firstTokens_eq (maxTokens : ℕ) (ids : List ℕ) :
    firstTokens maxTokens ids = limitTo maxTokens ids := by
  unfold firstTokens limitTo
  by_cases hzero : maxTokens = 0
  · rw [if_pos hzero, if_neg fun h => h.1.ne' hzero]
  · rw [if_neg hzero]
    split_ifs with h
    · rfl
    · refine (List.take_of_length_le (not_lt.mp fun hlt => h ⟨Nat.pos_of_ne_zero hzero, hlt⟩)).symm

theorem applyUnkPolicy_eq (h : Agrees db r m)
    (hpolicy : m.unkPolicy = unkInclude ∨ m.unkPolicy = unkDrop) (ids : List ℕ) :
    r.applyUnkPolicy ids = .ok (if m.unkPolicy = unkDrop then ids.filter (isUsable m) else ids) := by
  have husable : ids.filter (isUsable m) = ids.filter fun id => !(id == r.unkId) := by
    apply List.filter_congr
    intro id _
    rw [isUsable, h.unkId]
    by_cases he : id = r.unkId
    · simp [he]
    · simp [he]
  unfold applyUnkPolicy
  rw [← h.unkPolicy, husable]
  obtain hp | hp := hpolicy
  · have hne : m.unkPolicy ≠ unkDrop := by
      rw [hp]
      decide
    rw [if_neg hne, if_neg hne, if_pos hp]
  · rw [if_pos hp, if_pos hp]

theorem embedIds_eq (h : Agrees db r m) (hpolicy : m.unkPolicy = unkInclude ∨ m.unkPolicy = unkDrop) :
    embedIds db r text maxTokens =
      .ok (policyIds m maxTokens (tokenizeWithAddedTokens db r text)) := by
  have hzero : ∀ ids : List ℕ, limitTo 0 ids = ids := fun ids => if_pos rfl
  unfold embedIds policyIds seEmbedLimitMode tokenize
  rw [← h.truncation, applyUnkPolicy_eq h hpolicy, applyUnkPolicy_eq h hpolicy, firstTokens_eq,
    firstTokens_eq, hzero]
  by_cases hdrop : m.unkPolicy = unkDrop
  · simp only [if_pos hdrop]
    by_cases htruncation : m.truncationPolicy = truncateRawIds
    · rw [if_pos htruncation, if_pos htruncation]
    · rw [if_neg htruncation, if_neg htruncation]
      exact congrArg Except.ok (firstTokens_eq _ _)
  · simp only [if_neg hdrop]
    by_cases htruncation : m.truncationPolicy = truncateRawIds
    · rw [if_pos htruncation]
    · rw [if_neg htruncation]
      exact congrArg Except.ok (firstTokens_eq _ _)

/-- **`se_embed` pools the ids of the reference**, unless it fails for want of memory. -/
theorem seTokenize_embedIds (hs : db.Standard) (h : Agrees db r m) (hu : UnkApart m)
    (hpolicy : m.unkPolicy = unkInclude ∨ m.unkPolicy = unkDrop) (hw : Utf8.WellFormed text)
    (maxTokens : ℕ) : IsOom (unboundedIds m (seEmbedLimitMode m) text) ∨
      ∃ stats kept, seTokenize m text maxTokens (seEmbedLimitMode m) neverCancelled =
        (stats, .ok kept) ∧ embedIds db r text maxTokens = .ok (pooledIds m kept) := by
  obtain hoom | hids := @seTokenize_all db r m text 0 hs h hw (seEmbedLimitMode m) (.inr rfl)
  · exact .inl hoom
  · rw [tokenize, firstTokens_eq, limitTo, if_pos rfl] at hids
    refine .inr ⟨_, _, seTokenize_keptIds h.compiled.ok hu hids, ?_⟩
    rw [embedIds_eq h hpolicy, pooledIds_keptIds]

end Texts

end Reference

end StaticEmbeddings
