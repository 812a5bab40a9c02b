import StaticEmbeddings.Tokenizer.Acceptance

/-!
# The law of cuts

A text may be cut at a prefix boundary unless the boundary lies at a separator that the tokenizer
drops.

* `DroppedSeparator`; `cleanedCps_separator`, `cleanedCps_cjk`: what the other separators feed.
* `LegalCut`, `CutLaw`: the ids of a text are those of its two parts.
* `BoundaryAt.cut`: a boundary at any separator; **`itemsCut_of_boundaryAt`**, `legalCut_of_kept`: at
  one that is kept.
* `not_cutLaw_of_dropped`: a text that is cut wrongly.
* **`prefix_boundary_law`**: for which alphabets the law holds; `prefix_boundary_next_line`: not for
  all.
-/

namespace StaticEmbeddings

open LittleEndian

/-- A code point that the scan cuts at and `emit_cleaned` drops. -/
def DroppedSeparator (m : SeModel) (c : ℕ) : Prop :=
  isSeparator m c = true ∧ (c = 0 ∨ c = 0xFFFD ∨ isControl m c = true)

/-- The cut after `r` bytes: not behind `target`, between two code points, and the ids of the whole
are those of the parts; together the parts may have too many. -/
structure LegalCut (m : SeModel) (input : Bytes) (target r : ℕ) : Prop where
  le : r ≤ target
  left : Utf8.WellFormed (input.take r)
  right : Utf8.WellFormed (input.drop r)
  split : ∀ limitMode ids, unboundedIds m limitMode input = .ok ids →
    ∃ x y, unboundedIds m limitMode (input.take r) = .ok x ∧
      unboundedIds m limitMode (input.drop r) = .ok y ∧ ids = x ++ y
  join : ∀ limitMode x y, unboundedIds m limitMode (input.take r) = .ok x →
    unboundedIds m limitMode (input.drop r) = .ok y →
    unboundedIds m limitMode input = .ok (x ++ y) ∨ IsOom (unboundedIds m limitMode input)

/-- Every boundary inside the input is a legal cut. -/
def CutLaw (m : SeModel) (input : Bytes) : Prop := ∀ target backscan,
  0 < sePrefixBoundaryLen m input target backscan →
  sePrefixBoundaryLen m input target backscan < input.length →
    LegalCut m input target (sePrefixBoundaryLen m input target backscan)

/-- A text of code points of `A`. -/
def TextOver (A : Set ℕ) (text : Bytes) : Prop :=
  ∃ cps, (∀ c ∈ cps, Utf8.Scalar c ∧ c ∈ A) ∧ text = Utf8.encodeAll cps

section

variable {m : SeModel} {input : Bytes} {c r lead after : ℕ}

/-! ## Separators -/

theorem isWhitespace_ascii (h : c < 0x80) : isWhitespace m c = seIsAsciiWhitespace c := by
  rw [isWhitespace, isWhitespace?, if_pos h, Option.getD_some]

theorem isPunct_ascii (h : c < 0x80) : isPunct m c = seIsAsciiPunct c := by
  rw [isPunct, isPunct?, if_pos h, Option.getD_some]

theorem resets_space : (segmenter m).Resets (.cp 0x20) :=
  segmenter_resets_whitespace (isWhitespace_ascii (by decide))

theorem strippedCps_space : strippedCps m 0x20 = [0x20] := by
  rw [strippedCps_ascii m (by decide), asciiLower, if_neg (by omega)]

theorem cleanedCps_kept (hm : m.cleanText = 1)
    (hc : ¬ (c = 0 ∨ c = 0xFFFD ∨ isControl m c = true)) : cleanedCps m c =
      if isWhitespace m c then [0x20]
      else if cpIsCjkSegment m c then 0x20 :: (strippedCps m c ++ [0x20]) else strippedCps m c := by
  have hclean : m.cleanText ≠ 0 := by omega
  have hcjk : (m.handleChineseChars ≠ 0 ∧ c ≥ 0x3400 ∧ seIsCjk c) ↔ cpIsCjkSegment m c = true := by
    simp [cpIsCjkSegment, and_assoc]
  unfold cleanedCps
  rw [if_neg fun h => hc h.2]
  simp only [hclean, ne_eq, not_false_eq_true, true_and]
  by_cases hw : isWhitespace m c = true
  · simp [hw, strippedCps_space]
  · simp only [hw, if_false, Bool.false_eq_true]
    by_cases hj : cpIsCjkSegment m c = true
    · rw [if_pos (hcjk.mpr hj), if_pos hj, strippedCps_space]
      rfl
    · rw [if_neg (mt hcjk.mp hj), if_neg hj]

theorem loweredCps_of_none (hc : ¬ c < 0x80) (h : m.doLowerCase ≠ 0 → lowerEntry m c = none) :
    loweredCps m c = [c] := by
  unfold loweredCps
  by_cases hd : m.doLowerCase ≠ 0
  · rw [if_pos hd, if_neg (by omega), if_pos (by omega), h hd]
  · rw [if_neg hd]

theorem strippedCps_stable (hs : normalizationStable m c = true) (hc : ¬ c < 0x80) :
    strippedCps m c = [c] := by
  unfold normalizationStable at hs
  rw [if_neg hc] at hs
  split_ifs at hs with hlow hstrip
  have hlower : loweredCps m c = [c] := loweredCps_of_none hc fun hd => by
    simpa using fun h => hlow ⟨hd, h⟩
  unfold strippedCps
  by_cases hstr : m.stripAccents = 0
  · rw [if_pos (.inl hstr), hlower]
  · have hnfd : nfdEntry m c = none := by simpa using fun h => hstrip ⟨hstr, .inl h⟩
    have hmn : isMn m c = false := by simpa using fun h => hstrip ⟨hstr, .inr h⟩
    rw [if_neg (by simp [hstr, hc]), hnfd]
    simp only [hmn, Bool.false_eq_true, if_false, hlower]

theorem cleanedCps_separator (hm : m.cleanText = 1) (hs : isSeparator m c = true)
    (hc : ¬ DroppedSeparator m c) :
    ∃ cps d, cleanedCps m c = cps ++ [d] ∧ (segmenter m).Resets (.cp d) := by
  rw [cleanedCps_kept hm fun h => hc ⟨hs, h⟩]
  by_cases hw : isWhitespace m c = true
  · exact ⟨[], 0x20, by rw [if_pos hw]; rfl, resets_space⟩
  rw [if_neg hw]
  by_cases hj : cpIsCjkSegment m c = true
  · exact ⟨0x20 :: strippedCps m c, 0x20, by rw [if_pos hj]; rfl, resets_space⟩
  rw [if_neg hj]
  simp only [isSeparator, Bool.and_eq_true, Bool.or_eq_true, hj, hw, Bool.false_eq_true,
    false_or] at hs
  by_cases hascii : c < 0x80
  · refine ⟨[], c, ?_, segmenter_resets_punct hs.2⟩
    have hnot : ∀ b < 0x80, seIsAsciiPunct b = true → ¬ (0x41 ≤ b ∧ b ≤ 0x5A) := by decide
    rw [isPunct_ascii hascii] at hs
    rw [strippedCps_ascii m hascii, asciiLower, if_neg fun h => hnot c hascii hs.2 h.2]
    rfl
  · exact ⟨[], c, strippedCps_stable hs.1 hascii, segmenter_resets_punct hs.2⟩

/-- A CJK segment that is kept begins with a space. -/
theorem cleanedCps_cjk (hm : m.cleanText = 1) (hs : isSeparator m c = true)
    (hj : cpIsCjkSegment m c = true) (hc : ¬ DroppedSeparator m c) :
    ∃ cps, cleanedCps m c = 0x20 :: cps := by
  rw [cleanedCps_kept hm fun h => hc ⟨hs, h⟩]
  by_cases hw : isWhitespace m c = true
  · exact ⟨[], if_pos hw⟩
  · exact ⟨strippedCps m c ++ [0x20], by rw [if_neg hw, if_pos hj]⟩

/-! ## Cuts at a separator -/

theorem take_separator (h : decodeOne input lead = some (c, after)) (hr : r = after) :
    input.take r = input.take lead ++ Utf8.encode c := by
  obtain ⟨rest, -, hdrop, hafter⟩ := decodeOne_eq_some_iff.mp h
  have hlead : (input.take lead).length = lead :=
    List.length_take_of_le ((decodeOne_lt h).le.trans (decodeOne_le h))
  have hinput : input = input.take lead ++ Utf8.encode c ++ rest := by
    rw [List.append_assoc, ← hdrop, List.take_append_drop]
  conv_lhs => rw [hinput]
  exact List.take_left' (by rw [List.length_append, hlead, hr, hafter])

/-- Neither a literal nor a code point straddles a boundary, whatever lies there. -/
theorem BoundaryAt.cut (h : BoundaryAt m input r c lead after) (h₀ : 0 < r) (hr : r < input.length) :
    LiteralCut m (input.take r) (input.drop r) ∧ Utf8.Cut (input.take r) (input.drop r) := by
  obtain ⟨rest, hcp, hdrop, hafter⟩ := decodeOne_eq_some_iff.mp h.decode
  have hlength : (input.take r).length = r := List.length_take_of_le hr.le
  have hleft : input.take r ≠ [] := List.ne_nil_of_length_pos (by rwa [hlength])
  have hright : input.drop r ≠ [] := fun hnil => not_le.2 hr (List.drop_eq_nil_iff.mp hnil)
  refine ⟨literalCut_of_boundary hleft hright ?_, ?_⟩
  · rw [List.take_append_drop, hlength]
    exact h.whole
  · obtain hplace | ⟨hplace, -⟩ := h.place
    · rw [take_separator h.decode hplace]
      exact Utf8.cut_of_last hcp _ _
    · obtain ⟨b, t, hbt, hcont, -⟩ := Utf8.encode_eq_cons hcp
      rw [hplace, hdrop, hbt, List.cons_append]
      exact Utf8.cut_of_head hcont _ _

/-- **A boundary at a separator that is kept**: the items fall apart there. -/
theorem itemsCut_of_boundaryAt (hm : m.cleanText = 1) (h : BoundaryAt m input r c lead after)
    (hc : ¬ DroppedSeparator m c) (h₀ : 0 < r) (hr : r < input.length) :
    ItemsCut m (input.take r) (input.drop r) := by
  obtain ⟨rest, hcp, hdrop, hafter⟩ := decodeOne_eq_some_iff.mp h.decode
  obtain ⟨hliteral, hcut⟩ := h.cut h₀ hr
  obtain hplace | ⟨hplace, hcjk⟩ := h.place
  · -- behind the separator
    have htake := take_separator h.decode hplace
    obtain ⟨cps, d, hcleaned, hreset⟩ := cleanedCps_separator hm h.separator hc
    by_cases hok : (feeds m (input.take r)).2 = true
    · have hend : EndsWith (input.take r) c := ⟨hcp, by rw [htake]; exact List.suffix_append _ _⟩
      obtain ⟨fs, hfeeds | ⟨id, hfeeds⟩⟩ := feeds_last hend hok
      · refine itemsCut_of_last hliteral hcut (fun _ => ⟨fs ++ cps.map .cp, ?_⟩) hreset
        rw [hfeeds, hcleaned, List.map_append, List.append_assoc]
        rfl
      · exact itemsCut_of_last hliteral hcut (fun _ => ⟨fs, hfeeds⟩) (segmenter_resets_added id)
    · exact itemsCut_of_last hliteral hcut (fun hok' => absurd hok' hok) hreset
  · -- before a CJK character
    have hb : input.drop r = Utf8.encode c ++ rest := by rw [hplace, hdrop]
    obtain ⟨b, t, hbt, -, -, hascii⟩ := Utf8.encode_eq_cons hcp
    have hge : 0x80 ≤ b.toNat := by
      have hcjk' : 0x3400 ≤ c := by
        simp only [cpIsCjkSegment, ge_iff_le, Bool.and_eq_true, decide_eq_true_eq] at hcjk
        exact hcjk.1.2
      rw [← not_lt, hascii]
      omega
    have hhead : ∀ d, (Utf8.encode c ++ rest)[0]? = some d → 0x80 ≤ d.toNat := by
      intro d hd
      rw [hbt, List.cons_append, List.getElem?_cons_zero, Option.some.injEq] at hd
      exact hd ▸ hge
    obtain ⟨cps, hcleaned⟩ := cleanedCps_cjk hm h.separator hcjk hc
    have hfeeds : (feeds m (input.drop r)).1 = .cp 0x20 :: (cps.map .cp ++ (feeds m rest).1) := by
      rw [hb, feeds_decode (literalAt_of_ge hhead) (Utf8.decode?_encode hcp rest), hcleaned]
      rfl
    exact itemsCut_of_head hliteral hcut hfeeds resets_space

theorem wellFormed_of_decodeOne (hw : Utf8.WellFormed input)
    (h : decodeOne input lead = some (c, after)) : ∃ xs ys, (∀ d ∈ xs ++ c :: ys, Utf8.Scalar d) ∧
      input.take lead = Utf8.encodeAll xs ∧ input.drop lead = Utf8.encode c ++ Utf8.encodeAll ys ∧
      input = Utf8.encodeAll (xs ++ c :: ys) ∧ after = lead + (Utf8.encode c).length := by
  obtain ⟨rest, hcp, hdrop, hafter⟩ := decodeOne_eq_some_iff.mp h
  have hinput : input = input.take lead ++ (Utf8.encode c ++ rest) := by
    rw [← hdrop, List.take_append_drop]
  rw [hinput] at hw
  have hleft := Utf8.wellFormed_of_append_encode hcp hw
  have hright := (Utf8.wellFormed_encode_append hcp).mp ((Utf8.wellFormed_append hleft).mp hw)
  obtain ⟨xs, hxs, htake⟩ := hleft
  obtain ⟨ys, hys, rfl⟩ := hright
  refine ⟨xs, ys, ?_, htake, hdrop, ?_, hafter⟩
  · intro d hd
    rw [List.mem_append, List.mem_cons] at hd
    obtain hd | rfl | hd := hd
    · exact hxs d hd
    · exact hcp
    · exact hys d hd
  · rw [Utf8.encodeAll_append, Utf8.encodeAll_cons, ← htake]
    exact hinput

/-- **A boundary at a separator that is kept is a legal cut.** -/
theorem legalCut_of_kept (hm : ModelOk m) (hw : Utf8.WellFormed input) {target : ℕ}
    (h : BoundaryAt m input r c lead after) (hc : ¬ DroppedSeparator m c) (h₀ : 0 < r)
    (hr : r < input.length) (hle : r ≤ target) : LegalCut m input target r := by
  have hcut := itemsCut_of_boundaryAt hm.fields.cleanText h hc h₀ hr
  have hpart : input.take r ++ input.drop r = input := List.take_append_drop r input
  obtain ⟨xs, ys, hscalar, htake, hdrop, hinput, hafter⟩ := wellFormed_of_decodeOne hw h.decode
  have hlead : (Utf8.encodeAll xs).length = lead := by
    have := decodeOne_le h.decode
    have := decodeOne_lt h.decode
    rw [← htake]
    exact List.length_take_of_le (by omega)
  have hsides : ∃ us vs, us ++ vs = xs ++ c :: ys ∧ (Utf8.encodeAll us).length = r := by
    obtain hplace | ⟨hplace, -⟩ := h.place
    · refine ⟨xs ++ [c], ys, List.append_cons xs c ys ▸ rfl, ?_⟩
      rw [Utf8.encodeAll_append, List.length_append, hlead, hplace, hafter]
      simp
    · exact ⟨xs, c :: ys, rfl, hlead.trans hplace.symm⟩
  obtain ⟨us, vs, hsplit, hlength⟩ := hsides
  rw [← hsplit] at hinput hscalar
  rw [Utf8.encodeAll_append] at hinput
  refine ⟨hle, ⟨us, fun d hd => hscalar d (List.mem_append_left vs hd), ?_⟩,
    ⟨vs, fun d hd => hscalar d (List.mem_append_right us hd), ?_⟩, ?_, ?_⟩
  · rw [hinput, List.take_left' hlength]
  · rw [hinput, List.drop_left' hlength]
  · intro limitMode ids hids
    rw [← hpart] at hids
    exact unbounded_ok_append hm hcut hids
  · intro limitMode x y hx hy
    have hjoin := unbounded_append hm hcut hx hy
    rwa [hpart] at hjoin

/-! ## A cut behind a dropped separator -/

theorem feeds_encodeAll {cps : List ℕ} (h : ∀ d ∈ cps, Utf8.Scalar d ∧ d ≠ 0x5B) :
    feeds m (Utf8.encodeAll cps) = ((cps.flatMap (cleanedCps m)).map .cp, true) := by
  induction cps with
  | nil => exact feeds_nil
  | cons d cps ih =>
    rw [List.forall_mem_cons] at h
    obtain ⟨b, t, hbt, -, -, hascii⟩ := Utf8.encode_eq_cons h.1.1
    have hliteral : literalAt m (Utf8.encodeAll (d :: cps)) = none := by
      rw [literalAt_eq_none_iff]
      intro l hl hpre
      have hhead := hl.head hpre
      rw [Utf8.encodeAll_cons, hbt, List.cons_append, List.getElem?_cons_zero,
        Option.some.injEq] at hhead
      have hd : d < 0x80 := hascii.mp (by rw [hhead]; decide)
      have hb : b = UInt8.ofNat d := by
        have := Utf8.encode_ascii hd
        rw [hbt] at this
        exact (List.cons.inj this).1
      have hval := congrArg UInt8.toNat (hb.symm.trans hhead)
      rw [Utf8.toNat_ofNat_of_lt d (by omega)] at hval
      exact h.1.2 hval
    rw [Utf8.encodeAll_cons] at hliteral ⊢
    rw [feeds_decode hliteral (Utf8.decode?_encode h.1.1 _), ih h.2, List.flatMap_cons,
      List.map_append]

theorem segmenter_run_word {w : List ℕ}
    (h : ∀ d ∈ w, isWhitespace m d = false ∧ isPunct m d = false) (segment : List ℕ) :
    (segmenter m).run segment (w.map .cp) = ([], segment ++ w) := by
  induction w generalizing segment with
  | nil => rw [List.append_nil, List.map_nil, Transducer.run_nil]
  | cons d w ih =>
    rw [List.forall_mem_cons] at h
    have hstep : (segmenter m).step segment (.cp d) = ([], segment ++ [d]) := by
      simp [segmenter, h.1.1, h.1.2]
    rw [List.map_cons, Transducer.run_cons, hstep, ih h.2, List.append_assoc]
    rfl

theorem items_word {cps w : List ℕ} (h : ∀ d ∈ cps, Utf8.Scalar d ∧ d ≠ 0x5B)
    (hw : cps.flatMap (cleanedCps m) = w) (hne : w ≠ [])
    (hword : ∀ d ∈ w, isWhitespace m d = false ∧ isPunct m d = false) :
    items m (Utf8.encodeAll cps) = ([.word w], true) := by
  unfold items
  rw [feeds_encodeAll h, hw, if_pos rfl, Transducer.out,
    show (segmenter m).init = [] from rfl, segmenter_run_word hword]
  simp [segmenter, flushItems, hne]

theorem wordPieces_ne_nil {w : List ℕ} (hne : w ≠ []) (known : Bool)
    (h : (wordPieces m w known).2 = .done) : (wordPieces m w known).1 ≠ [] := by
  have hlen : w.length ≠ 0 := by simpa using hne
  unfold wordPieces at h ⊢
  rw [if_neg hlen] at h ⊢
  by_cases hlong : w.length > m.maxInputCharsPerWord
  · rw [if_pos hlong] at h
    cases h
  rw [if_neg hlong] at h ⊢
  cases hbuf : wordBuffers w (known || w.all (· < 0x80)) with
  | none =>
    rw [hbuf] at h
    cases h
  | some buffers =>
    obtain ⟨bytes, cps2⟩ := buffers
    rw [hbuf] at h
    dsimp only at h ⊢
    cases hlook : if w.length ≤ m.maxTokenChars then seVocabLookup m bytes else none with
    | some id => exact List.cons_ne_nil id []
    | none =>
      rw [hlook] at h
      dsimp only at h ⊢
      rw [pieceWalk, dif_pos (Nat.pos_of_ne_zero hlen)] at h ⊢
      cases hmatch : pieceMatch m bytes cps2 w.length 0 with
      | none =>
        rw [hmatch] at h
        cases h
      | some found =>
        rw [hmatch] at h
        dsimp only at h ⊢
        split_ifs at h ⊢
        exact List.cons_ne_nil _ _

theorem unboundedIds_word_ne_nil (hm : ModelOk m) {limitMode : SeTokenLimit} {w ids : List ℕ}
    (hitems : items m input = ([.word w], true)) (hne : w ≠ [])
    (h : unboundedIds m limitMode input = .ok ids) : ids ≠ [] := by
  obtain ⟨-, o, hr, -, -, rfl⟩ := (unboundedIds_eq_ok_iff hm).mp h
  rw [hitems, runItemList_singleton rfl] at hr
  simp only [runItem, show (unbounded m limitMode).wordpiece = wordpiece m from rfl,
    wordpiece_eq hm, capAfterAppend_unbounded (show (unbounded m limitMode).maxTokens = 0 from rfl)]
    at hr
  cases hemit : emitPieces m [] 0 (wordPieces m w (w.all (· < 0x80))) with
  | error e =>
    rw [hemit] at hr
    cases e <;> cases hr
  | ok r =>
    rw [hemit] at hr
    cases hr
    unfold emitPieces at hemit
    split_ifs at hemit
    cases hend : (wordPieces m w (w.all (· < 0x80))).2 with
    | done =>
      rw [hend] at hemit
      cases hemit
      simpa using wordPieces_ne_nil hne _ hend
    | missing =>
      rw [hend] at hemit
      simp only [pushUnk, pushId] at hemit
      split_ifs at hemit
      cases hemit
      exact List.cons_ne_nil _ _
    | invalid =>
      rw [hend] at hemit
      cases hemit
    | overflow =>
      rw [hend] at hemit
      cases hemit

theorem unboundedIds_long (hm : ModelOk m) (limitMode : SeTokenLimit) {w : List ℕ}
    (hitems : items m input = ([.word w], true)) (hlong : w.length > m.maxInputCharsPerWord) :
    unboundedIds m limitMode input = .ok [m.unkId] := by
  have hlen : w.length ≠ 0 := by omega
  have hpieces : wordPieces m w (w.all (· < 0x80)) = ([], .missing) := by
    rw [wordPieces, if_neg hlen, if_pos hlong]
  refine (unboundedIds_eq_ok_iff hm).mpr ⟨by rw [hitems], ⟨[m.unkId], 1, false⟩, ?_, by simp,
    by simp, rfl⟩
  rw [hitems, runItemList_singleton rfl]
  simp only [runItem, show (unbounded m limitMode).wordpiece = wordpiece m from rfl,
    wordpiece_eq hm, capAfterAppend_unbounded (show (unbounded m limitMode).maxTokens = 0 from rfl),
    hpieces]
  rfl

theorem DroppedSeparator.ge (h : DroppedSeparator m c) : 0x80 ≤ c := by
  by_contra hlt
  have hascii : c < 0x80 := by omega
  have hall : ∀ b < 0x80, (seIsAsciiWhitespace b || seIsAsciiPunct b) = true →
      ¬ (b = 0 ∨ b = 0xFFFD ∨ ((b < 0x20 || b == 0x7F) && b != 0x09 && b != 0x0A && b != 0x0D) =
        true) := by decide
  obtain ⟨hsep, hdrop⟩ := h
  have hcjk : cpIsCjkSegment m c = false := by
    rw [Bool.eq_false_iff]
    intro hj
    simp only [cpIsCjkSegment, ge_iff_le, Bool.and_eq_true, decide_eq_true_eq] at hj
    omega
  rw [isSeparator, hcjk, Bool.false_or, isWhitespace_ascii hascii, isPunct_ascii hascii,
    Bool.and_eq_true] at hsep
  rw [isControl, isControl?, if_pos hascii, Option.getD_some] at hdrop
  exact hall c hascii hsep.2 hdrop

theorem backToLead_encode {x z : Bytes} (hcp : Utf8.Scalar c) {k : ℕ}
    (hk : k < (Utf8.encode c).length) :
    backToLead (x ++ (Utf8.encode c ++ z)) 0 (x.length + k) = x.length := by
  obtain ⟨b, t, hbt, hlead, hcont, -⟩ := Utf8.encode_eq_cons hcp
  have hget : ∀ j, (x ++ (Utf8.encode c ++ z))[x.length + j]? = (b :: (t ++ z))[j]? := by
    intro j
    rw [List.getElem?_append_right (Nat.le_add_right _ _), Nat.add_sub_cancel_left, hbt]
    rfl
  induction k with
  | zero =>
    have hnot : isContAt (x ++ (Utf8.encode c ++ z)) x.length = false := by
      rw [isContAt, show x.length = x.length + 0 from rfl, hget]
      simpa [and_c0_eq_80_iff] using hlead
    rw [Nat.add_zero]
    cases hx : x.length with
    | zero => rfl
    | succ n =>
      rw [hx] at hnot
      rw [backToLead, if_neg fun h => by rw [hnot] at h; exact Bool.false_ne_true h.2]
  | succ k ih =>
    rw [hbt, List.length_cons] at hk
    have hyes : isContAt (x ++ (Utf8.encode c ++ z)) (x.length + k + 1) = true := by
      rw [isContAt, Nat.add_assoc, hget, List.getElem?_cons_succ,
        List.getElem?_append_left (by omega), List.getElem?_eq_getElem (by omega)]
      simpa [and_c0_eq_80_iff] using hcont _ (List.getElem_mem _)
    rw [← Nat.add_assoc, backToLead, if_pos ⟨by omega, hyes⟩]
    exact ih (by rw [hbt, List.length_cons]; omega)

theorem boundarySplitsAddedToken_of_notMem (h : (0x5B : UInt8) ∉ input) (boundary : ℕ) :
    boundarySplitsAddedToken m input boundary = false := by
  unfold boundarySplitsAddedToken
  split_ifs
  · rfl
  · have hno : ∀ i : ℕ, input[i]? ≠ some (0x5B : UInt8) := fun i hi =>
      h (List.mem_iff_getElem?.mpr ⟨i, hi⟩)
    simp [hno]

theorem sePrefixBoundaryLen_encode {x z : Bytes} {backscan : ℕ} (hcp : Utf8.Scalar c)
    (hsep : isSeparator m c = true) (hz : z ≠ [])
    (hback : x.length + (Utf8.encode c).length ≤ backscan)
    (hbracket : (0x5B : UInt8) ∉ x ++ (Utf8.encode c ++ z)) :
    sePrefixBoundaryLen m (x ++ (Utf8.encode c ++ z)) (x.length + (Utf8.encode c).length)
      backscan = x.length + (Utf8.encode c).length := by
  have hpos := Utf8.length_encode_pos c
  have hzpos := List.length_pos_iff.mpr hz
  have hlead : backToLead (x ++ (Utf8.encode c ++ z)) 0 (x.length + (Utf8.encode c).length - 1) =
      x.length := by
    rw [Nat.add_sub_assoc hpos]
    exact backToLead_encode hcp (by omega)
  have hdec : decodeOne (x ++ (Utf8.encode c ++ z)) x.length =
      some (c, x.length + (Utf8.encode c).length) :=
    decodeOne_eq_some_iff.mpr ⟨z, hcp, List.drop_left, rfl⟩
  have hcont : isContAt (x ++ (Utf8.encode c ++ z)) x.length = false := by
    obtain ⟨b, t, hbt, hb, -⟩ := Utf8.encode_eq_cons hcp
    rw [isContAt, List.getElem?_append_right le_rfl, Nat.sub_self, hbt]
    simpa [and_c0_eq_80_iff] using hb
  simp only [isSeparator, Bool.and_eq_true] at hsep
  have hwhole := boundarySplitsAddedToken_of_notMem (m := m) hbracket
    (x.length + (Utf8.encode c).length)
  unfold sePrefixBoundaryLen
  rw [if_neg (by simp only [List.length_append]; omega), if_neg (by omega),
    if_neg (not_lt.2 hback), boundaryScan, dif_pos (by omega), hlead]
  dsimp only
  rw [if_neg (by rw [hcont]; exact Bool.false_ne_true), hdec]
  dsimp only
  rw [if_neg (by simp [hsep.1])]
  by_cases hj : cpIsCjkSegment m c = true
  · rw [if_pos hj, if_pos ⟨le_rfl, hwhole⟩]
  · have hclass : isWhitespace m c = true ∨ isPunct m c = true := by
      have := hsep.2
      simpa [hj] using this
    rw [if_neg hj, if_pos ⟨hclass, le_rfl, hwhole⟩]

theorem bracket_notMem_encodeAll {cps : List ℕ} (h : ∀ d ∈ cps, Utf8.Scalar d ∧ d ≠ 0x5B) :
    (0x5B : UInt8) ∉ Utf8.encodeAll cps := by
  intro hmem
  obtain ⟨d, hd, hmem⟩ := List.mem_flatMap.mp hmem
  obtain ⟨hcp, hne⟩ := h d hd
  obtain ⟨b, t, hbt, -, hcont, hascii⟩ := Utf8.encode_eq_cons hcp
  rw [hbt, List.mem_cons] at hmem
  obtain hb | ht := hmem
  · have hlt : d < 0x80 := hascii.mp (by rw [← hb]; decide)
    rw [Utf8.encode_ascii hlt, ← hb] at hbt
    have hval := congrArg UInt8.toNat (List.cons.inj hbt).1
    rw [Utf8.toNat_ofNat_of_lt d (by omega)] at hval
    exact hne hval
  · exact absurd (hcont _ ht).1 (by decide)

theorem cleanedCps_letter (hm : m.cleanText = 1) : cleanedCps m 0x61 = [0x61] := by
  rw [cleanedCps_ascii hm (by decide)]
  exact congrArg (fun b => [b]) (if_neg (by omega))

theorem cleanedCps_dropped (hm : m.cleanText = 1) (hc : DroppedSeparator m c) :
    cleanedCps m c = [] := by
  rw [cleanedCps, if_pos ⟨by omega, hc.2⟩]

theorem flatMap_cleanedCps_letters (hm : m.cleanText = 1) (n : ℕ) :
    (List.replicate n 0x61).flatMap (cleanedCps m) = List.replicate n 0x61 := by
  induction n with
  | zero => rfl
  | succ n ih => rw [List.replicate_succ, List.flatMap_cons, ih, cleanedCps_letter hm]; rfl

/-- A word of the longest length, the code point `c`, one more letter. -/
def droppedText (m : SeModel) (c : ℕ) : List ℕ :=
  List.replicate m.maxInputCharsPerWord 0x61 ++ [c, 0x61]

theorem mem_droppedText {d : ℕ} (hd : d ∈ droppedText m c) : d = 0x61 ∨ d = c := by
  rw [droppedText, List.mem_append, List.mem_cons, List.mem_singleton] at hd
  obtain hd | hd | hd := hd
  · exact .inl (List.eq_of_mem_replicate hd)
  · exact .inr hd
  · exact .inl hd

theorem droppedText_scalar (hcp : Utf8.Scalar c) (hc : DroppedSeparator m c) {d : ℕ}
    (hd : d ∈ droppedText m c) : Utf8.Scalar d ∧ d ≠ 0x5B := by
  obtain rfl | rfl := mem_droppedText hd
  · exact ⟨.inl (by decide), by decide⟩
  · exact ⟨hcp, by have := hc.ge; omega⟩

/-- A text of `n` letters, however many code points are dropped. -/
theorem items_letters {cps : List ℕ} {n : ℕ} (h : ∀ d ∈ cps, Utf8.Scalar d ∧ d ≠ 0x5B)
    (hw : cps.flatMap (cleanedCps m) = List.replicate n 0x61) (hn : n ≠ 0) :
    items m (Utf8.encodeAll cps) = ([.word (List.replicate n 0x61)], true) := by
  refine items_word h hw (by simpa using hn) fun d hd => ?_
  rw [List.eq_of_mem_replicate hd]
  exact ⟨isWhitespace_ascii (by decide), isPunct_ascii (by decide)⟩

/-- **A text that is cut wrongly.** As a whole it is one word that is too long. -/
theorem not_cutLaw_of_dropped (hm : ModelOk m) (hcp : Utf8.Scalar c) (hc : DroppedSeparator m c) :
    ¬ CutLaw m (Utf8.encodeAll (droppedText m c)) := by
  intro hlaw
  have hclean := hm.fields.cleanText
  have hpos := hm.maxInput_pos
  have hscalar := fun d => @droppedText_scalar m c hcp hc d
  set x := Utf8.encodeAll (List.replicate m.maxInputCharsPerWord 0x61)
  set r := x.length + (Utf8.encode c).length with hr
  have hsplit : Utf8.encodeAll (droppedText m c) =
      x ++ (Utf8.encode c ++ Utf8.encodeAll [0x61]) := by
    rw [droppedText, Utf8.encodeAll_append, Utf8.encodeAll_cons]
  have hlength : (x ++ Utf8.encode c).length = r := List.length_append
  have hbound : sePrefixBoundaryLen m (Utf8.encodeAll (droppedText m c)) r r = r := by
    rw [hsplit]
    refine sePrefixBoundaryLen_encode hcp hc.1 (by simp [Utf8.encode_ne_nil]) le_rfl ?_
    rw [← hsplit]
    exact bracket_notMem_encodeAll hscalar
  have hwhole : items m (Utf8.encodeAll (droppedText m c)) =
      ([.word (List.replicate (m.maxInputCharsPerWord + 1) 0x61)], true) := by
    refine items_letters hscalar ?_ (Nat.succ_ne_zero _)
    rw [droppedText, List.flatMap_append, flatMap_cleanedCps_letters hclean, List.flatMap_cons,
      cleanedCps_dropped hclean hc, List.flatMap_singleton, cleanedCps_letter hclean,
      List.nil_append, List.replicate_succ']
  have hleft : items m (Utf8.encodeAll (List.replicate m.maxInputCharsPerWord 0x61 ++ [c])) =
      ([.word (List.replicate m.maxInputCharsPerWord 0x61)], true) := by
    refine items_letters (fun d hd => hscalar d ?_) ?_ hpos.ne'
    · rw [droppedText, List.append_cons]
      exact List.mem_append_left _ hd
    · rw [List.flatMap_append, flatMap_cleanedCps_letters hclean, List.flatMap_singleton,
        cleanedCps_dropped hclean hc, List.append_nil]
  have hright : items m (Utf8.encodeAll [0x61]) = ([.word (List.replicate 1 0x61)], true) :=
    items_letters (fun d hd => hscalar d (by rw [List.mem_singleton.mp hd]; simp [droppedText]))
      (flatMap_cleanedCps_letters hclean 1) one_ne_zero
  have htake : (Utf8.encodeAll (droppedText m c)).take r =
      Utf8.encodeAll (List.replicate m.maxInputCharsPerWord 0x61 ++ [c]) := by
    rw [hsplit, ← List.append_assoc, List.take_left' hlength, Utf8.encodeAll_append,
      Utf8.encodeAll_cons, Utf8.encodeAll_nil, List.append_nil]
  have hdrop : (Utf8.encodeAll (droppedText m c)).drop r = Utf8.encodeAll [0x61] := by
    rw [hsplit, ← List.append_assoc, List.drop_left' hlength]
  have hinside : r < (Utf8.encodeAll (droppedText m c)).length := by
    rw [hsplit, ← List.append_assoc, List.length_append, hlength]
    exact Nat.lt_add_of_pos_right (by decide)
  -- one id for the whole, at least one for each part
  have hids := unboundedIds_long hm .raw hwhole (by rw [List.length_replicate]; omega)
  have hcut := hlaw r r
  rw [hbound] at hcut
  obtain ⟨ids, ids', hl, hr', hsum⟩ := (hcut (by
    have := Utf8.length_encode_pos c
    omega) hinside).split .raw _ hids
  rw [htake] at hl
  rw [hdrop] at hr'
  have hl₀ := List.length_pos_iff.mpr
    (unboundedIds_word_ne_nil hm hleft (by simpa using hpos.ne') hl)
  have hr₀ := List.length_pos_iff.mpr (unboundedIds_word_ne_nil hm hright (by simp) hr')
  have hlen := congrArg List.length hsum
  rw [List.length_singleton, List.length_append] at hlen
  omega

end

/-- **For which alphabets the law of cuts holds.** -/
theorem prefix_boundary_law {file : Bytes} {m : SeModel} (h : validate file = .ok m) (A : Set ℕ) :
    (∀ text, TextOver (insert 0x61 A) text → CutLaw m text) ↔
      ∀ c ∈ A, Utf8.Scalar c → ¬ DroppedSeparator m c := by
  have hm := modelOk_of_validate h
  constructor
  · intro hlaw c hc hcp hdropped
    refine not_cutLaw_of_dropped hm hcp hdropped (hlaw _ ⟨droppedText m c, fun d hd => ?_, rfl⟩)
    refine ⟨(droppedText_scalar hcp hdropped hd).1, ?_⟩
    obtain rfl | rfl := mem_droppedText hd
    · exact Set.mem_insert _ A
    · exact Set.mem_insert_of_mem _ hc
  · rintro hkept text ⟨cps, hcps, rfl⟩ target backscan h₀ hr
    obtain ⟨hle, c, lead, after, hat⟩ := sePrefixBoundaryLen_spec h₀ hr
    have hw : Utf8.WellFormed (Utf8.encodeAll cps) := ⟨cps, fun d hd => (hcps d hd).1, rfl⟩
    have hmem : c ∈ cps := by
      obtain ⟨xs, ys, hscalar, -, -, heq, -⟩ := wellFormed_of_decodeOne hw hat.decode
      rw [Utf8.encodeAll_injOn (fun d hd => (hcps d hd).1) hscalar heq]
      simp
    refine legalCut_of_kept hm hw hat (fun hdropped => ?_) h₀ hr hle
    obtain rfl | hc := (hcps c hmem).2
    · exact absurd hdropped.ge (by decide)
    · exact hkept c hc (hcps c hmem).1 hdropped

/-- The law holds for texts of ASCII letters and spaces, and fails with U+0085. -/
theorem prefix_boundary_law_sample :
    (∀ text, TextOver (insert 0x61 {0x62, 0x20}) text → CutLaw sampleModel text) ∧
      ¬ ∀ text, TextOver (insert 0x61 {0x85}) text → CutLaw sampleModel text := by
  constructor
  · refine (prefix_boundary_law validate_sampleFile {0x62, 0x20}).mpr fun c hc _ hdropped => ?_
    have hge := hdropped.ge
    obtain rfl | rfl := hc
    · exact absurd hge (by decide)
    · exact absurd hge (by decide)
  · have hdropped : isSeparator sampleModel 0x85 = true ∧ isControl sampleModel 0x85 = true := by
      decide +kernel
    intro hlaw
    exact (prefix_boundary_law validate_sampleFile {0x85}).mp hlaw 0x85 rfl (.inl (by decide))
      ⟨hdropped.1, .inr (.inr hdropped.2)⟩

/-- U+0085 is a control character and whitespace: the text is one word, its parts are two. -/
theorem prefix_boundary_next_line :
    validate sampleFile = .ok sampleModel ∧ Utf8.WellFormed [0x61, 0xC2, 0x85, 0x62] ∧
      ¬ CutLaw sampleModel [0x61, 0xC2, 0x85, 0x62] := by
  refine ⟨validate_sampleFile, ⟨[0x61, 0x85, 0x62], by simp [Utf8.Scalar], by decide⟩, ?_⟩
  intro hlaw
  obtain ⟨hbound, hids, hleft, hright⟩ :
      sePrefixBoundaryLen sampleModel [0x61, 0xC2, 0x85, 0x62] 3 3 = 3 ∧
      unboundedIds sampleModel .raw [0x61, 0xC2, 0x85, 0x62] = .ok [0] ∧
      unboundedIds sampleModel .raw [0x61, 0xC2, 0x85] = .ok [1] ∧
      unboundedIds sampleModel .raw [0x62] = .ok [2] := by
    decide +kernel
  have hcut := hlaw 3 3
  rw [hbound] at hcut
  obtain ⟨x, y, hx, hy, hsum⟩ := (hcut (by decide) (by decide)).split .raw _ hids
  cases hleft.symm.trans hx
  cases hright.symm.trans hy
  cases hsum

end StaticEmbeddings
