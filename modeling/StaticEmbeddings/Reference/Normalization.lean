import StaticEmbeddings.Convert.Vocabulary
import StaticEmbeddings.Reference.Oracle
import StaticEmbeddings.Tokenizer.Segments

/-!
# Normalization and words of the reference

The runtime normalizes one code point at a time and splits while it goes; the reference does both in
passes.

* `UnicodeDatabase.Standard`: what is assumed of the Unicode data.
* `Reference.Agrees`: a loaded model has the vocabulary, the options and the Unicode data of a
  reference.
* **`cleanedCps_eq`**: the runtime feeds the normalized code point.
* **`segmenter_out`**: what is fed is split into the words of the reference.
-/

namespace StaticEmbeddings

open LittleEndian UnicodeTables

/-! ## Assumptions -/

namespace UnicodeDatabase

/-- Whitespace of any kind. -/
def Blank (db : UnicodeDatabase) (cp : ℕ) : Prop :=
  Reference.isSplitSpace cp = true ∨ db.isWhitespace cp = true

/-- The mappings fit into the tables, ASCII is standard, and no mapping makes whitespace of something
else. -/
structure Standard (db : UnicodeDatabase) : Prop where
  downcase : MappingFits db.downcase
  nfd : MappingFits db.nfd
  privateUse : db.isControl 0xE000 = true
  downcase_ascii : ∀ cp < 0x80, db.downcase cp = [if 0x41 ≤ cp ∧ cp ≤ 0x5A then cp + 32 else cp]
  nfd_ascii : ∀ cp < 0x80, db.nfd cp = [cp]
  mn_ascii : ∀ cp < 0x80, db.isMn cp = false
  control_ascii : ∀ cp < 0x80, db.isControl cp = (cp < 0x20 || cp == 0x7F)
  whitespace_ascii : ∀ cp < 0x80, db.isWhitespace cp = true → cp = 0x20
  punct_ascii : ∀ cp < 0x80, db.isPunct cp = true → Reference.cover Reference.asciiPunct cp = true
  downcase_blank : ∀ cp, validUnicodeCodepoint cp → ¬ db.Blank cp → ∀ c ∈ db.downcase cp, ¬ db.Blank c
  nfd_blank : ∀ cp, validUnicodeCodepoint cp → ¬ db.Blank cp → ∀ c ∈ db.nfd cp, ¬ db.Blank c

end UnicodeDatabase

/-- A loaded model has what the reference has. -/
structure Reference.Agrees (db : UnicodeDatabase) (r : Reference) (m : SeModel) : Prop where
  compiled : Compiled r.tokens m
  utf8 : ∀ t ∈ r.tokens, Utf8.WellFormed t
  small : r.tokens.flatten.length < 2 ^ 32
  unicode : ∀ cp, validUnicodeCodepoint cp → LooksUp m db cp
  lowercase : m.doLowerCase ≠ 0 ↔ r.options.lowercase = true
  stripAccents : m.stripAccents ≠ 0 ↔ r.options.stripAccents = true
  cleanText : r.options.cleanText = true
  handleChineseChars : m.handleChineseChars ≠ 0 ↔ r.options.handleChineseChars = true
  maxInputCharsPerWord : m.maxInputCharsPerWord = r.options.maxInputCharsPerWord
  unkId : m.unkId = r.unkId
  unkPolicy : m.unkPolicy = r.options.unkPolicy
  truncation : m.truncationPolicy = r.options.truncation
  added : ∀ literal id, (literal, id) ∈ r.options.addedTokens ↔
    ∃ t ∈ seAddedTokens, m.addedTokenMask &&& t.2 ≠ 0 ∧ t.1 = literal ∧ addedTokenId m t.2 = id

namespace Reference

variable {db : UnicodeDatabase} {r : Reference} {m : SeModel} {cp : ℕ}

theorem scalar_iff_valid : Utf8.Scalar cp ↔ validUnicodeCodepoint cp := by
  unfold Utf8.Scalar validUnicodeCodepoint
  omega

/-! ## Passes -/

theorem normalizeChars_append (a b : List ℕ) :
    normalizeChars db r (a ++ b) = normalizeChars db r a ++ normalizeChars db r b := by
  unfold normalizeChars cleanChars splitChinese stripAccents lowercase
  cases r.options.cleanText <;> cases r.options.handleChineseChars <;>
    cases r.options.stripAccents <;> cases r.options.lowercase <;>
    simp only [Bool.false_eq_true, if_true, if_false, List.filterMap_append, List.flatMap_append,
      List.filter_append]

theorem normalizeChars_nil : normalizeChars db r [] = [] := by
  unfold normalizeChars cleanChars splitChinese stripAccents lowercase
  cases r.options.cleanText <;> cases r.options.handleChineseChars <;>
    cases r.options.stripAccents <;> cases r.options.lowercase <;> rfl

/-- **The passes go over one code point after the other.** -/
theorem normalizeChars_eq (chars : List ℕ) :
    normalizeChars db r chars = chars.flatMap fun c => normalizeChars db r [c] := by
  induction chars with
  | nil => exact normalizeChars_nil
  | cons c chars ih =>
    rw [← List.singleton_append, normalizeChars_append, ih, List.singleton_append, List.flatMap_cons]

/-! ## Mappings -/

theorem take_toEntry {out : List ℕ} (h : out.length ≤ 4) (cp : ℕ) :
    (toEntry (cp, out)).out.take (toEntry (cp, out)).len = out := by
  simp only [toEntry]
  rw [List.take_take, Nat.min_eq_left h, List.take_left]

theorem assigned_eq {f : ℕ → List ℕ} (hf : MappingFits f) (hcp : validUnicodeCodepoint cp) :
    (match assigned f cp with
      | some e => e.out.take e.len
      | none => [cp]) = f cp := by
  unfold assigned
  split_ifs with h
  · exact h.symm
  · exact take_toEntry (hf.length_le cp hcp) cp

/-- A code point in lower case, if that is asked for. -/
def lowered (db : UnicodeDatabase) (r : Reference) (cp : ℕ) : List ℕ :=
  if r.options.lowercase then db.downcase cp else [cp]

theorem loweredCps_eq (hs : db.Standard) (h : Agrees db r m) (hcp : validUnicodeCodepoint cp) :
    loweredCps m cp = lowered db r cp := by
  unfold loweredCps lowered
  by_cases hl : m.doLowerCase ≠ 0
  · rw [if_pos hl, if_pos (h.lowercase.mp hl)]
    by_cases hlow : cp < 0x80
    · rw [hs.downcase_ascii cp hlow, if_neg (not_le.mpr hlow)]
      split_ifs
      · rfl
      · rfl
    · rw [if_neg (fun hu => hlow (by omega)), if_pos (not_lt.mp hlow), lowerEntry,
        (h.unicode cp hcp).lower, Option.getD_some]
      exact assigned_eq hs.downcase hcp
  · rw [if_neg hl, if_neg (fun hr => hl (h.lowercase.mpr hr))]

/-- A code point without accents, if that is asked for. -/
def stripped (db : UnicodeDatabase) (r : Reference) (cp : ℕ) : List ℕ :=
  if r.options.stripAccents then (db.nfd cp).filter fun ch => !db.isMn ch else [cp]

theorem strippedCps_eq (hs : db.Standard) (h : Agrees db r m) (hcp : validUnicodeCodepoint cp) :
    strippedCps m cp = (stripped db r cp).flatMap (lowered db r) := by
  have hmn : ∀ d, validUnicodeCodepoint d → isMn m d = db.isMn d := by
    intro d hd
    rw [StaticEmbeddings.isMn, (h.unicode d hd).mn, Option.getD_some]
  unfold strippedCps stripped
  by_cases hst : m.stripAccents = 0
  · have hr : ¬ r.options.stripAccents = true := fun hr => h.stripAccents.mpr hr hst
    rw [if_pos (.inl hst), if_neg hr, List.flatMap_singleton, loweredCps_eq hs h hcp]
  · rw [if_pos (h.stripAccents.mp hst)]
    by_cases hlow : cp < 0x80
    · rw [if_pos (.inr hlow), hs.nfd_ascii cp hlow, List.filter_cons_of_pos, List.filter_nil,
        List.flatMap_singleton, loweredCps_eq hs h hcp]
      rw [hs.mn_ascii cp hlow]
      rfl
    · rw [if_neg (not_or.mpr ⟨hst, hlow⟩), nfdEntry, (h.unicode cp hcp).nfd, Option.getD_some]
      have hmap := assigned_eq hs.nfd hcp
      have hscalar := hs.nfd.scalar cp hcp
      -- one code point of a decomposition
      have hone : ∀ l : List ℕ, (∀ d ∈ l, validUnicodeCodepoint d) →
          (l.flatMap fun d => if isMn m d then [] else loweredCps m d) =
            (l.filter fun ch => !db.isMn ch).flatMap (lowered db r) := by
        intro l hl
        induction l with
        | nil => rfl
        | cons d l ih =>
          rw [List.forall_mem_cons] at hl
          rw [List.flatMap_cons, ih hl.2, hmn d hl.1]
          cases hd : db.isMn d with
          | true => rw [if_pos rfl, List.filter_cons_of_neg (by simp [hd]), List.nil_append]
          | false =>
            rw [if_neg Bool.false_ne_true, List.filter_cons_of_pos (by simp [hd]), List.flatMap_cons,
              loweredCps_eq hs h hl.1]
      cases he : assigned db.nfd cp with
      | none =>
        rw [he] at hmap
        have := hone [cp] fun d hd => by rwa [List.mem_singleton.mp hd]
        rw [List.flatMap_singleton] at this
        rw [← hmap]
        exact this
      | some e =>
        rw [he] at hmap
        rw [← hmap] at hscalar ⊢
        exact hone _ hscalar

/-! ## Classes -/

/-- A code point of the normalized text. -/
def Clean (db : UnicodeDatabase) (cp : ℕ) : Prop :=
  validUnicodeCodepoint cp ∧ (cp = 0x20 ∨ ¬ db.Blank cp)

theorem clean_space : Clean db 0x20 := ⟨by decide, .inl rfl⟩

theorem contains_asciiSpaces : asciiSpaces.contains cp = true ↔
    cp = 0x20 ∨ cp = 0x09 ∨ cp = 0x0A ∨ cp = 0x0D := by
  simp [asciiSpaces]

theorem contains_asciiSpaces_of_ge (h : ¬ cp < 0x80) : asciiSpaces.contains cp = false := by
  rw [Bool.eq_false_iff, Ne, contains_asciiSpaces]
  omega

theorem isSplitSpace_iff : isSplitSpace cp = true ↔ cp = 0x20 ∨ (0x09 ≤ cp ∧ cp ≤ 0x0D) := by
  simp [isSplitSpace]

theorem isControl_eq (hs : db.Standard) (h : Agrees db r m) (hcp : validUnicodeCodepoint cp) :
    StaticEmbeddings.isControl m cp = isControl db cp := by
  unfold isControl
  by_cases hlow : cp < 0x80
  · rw [StaticEmbeddings.isControl, isControl?, if_pos hlow, Option.getD_some,
      hs.control_ascii cp hlow, Bool.eq_iff_iff]
    simp only [asciiSpaces, List.contains_cons, List.contains_nil, Bool.or_false, Bool.and_eq_true,
      Bool.or_eq_true, decide_eq_true_eq, beq_iff_eq, bne_iff_ne, Bool.not_eq_true',
      Bool.or_eq_false_iff, beq_eq_false_iff_ne]
    omega
  · rw [StaticEmbeddings.isControl, (h.unicode cp hcp).control (not_lt.mp hlow), Option.getD_some,
      contains_asciiSpaces_of_ge hlow, Bool.not_false, Bool.true_and]

theorem isWhitespace_eq (hs : db.Standard) (h : Agrees db r m) (hcp : validUnicodeCodepoint cp) :
    StaticEmbeddings.isWhitespace m cp = isWhitespace db cp := by
  unfold isWhitespace
  by_cases hlow : cp < 0x80
  · have hdb : db.isWhitespace cp = true → cp = 0x20 := hs.whitespace_ascii cp hlow
    rw [StaticEmbeddings.isWhitespace, isWhitespace?, if_pos hlow, Option.getD_some,
      Bool.eq_iff_iff]
    simp only [seIsAsciiWhitespace, asciiSpaces, List.contains_cons, List.contains_nil, Bool.or_false,
      Bool.or_eq_true, beq_iff_eq]
    tauto
  · rw [StaticEmbeddings.isWhitespace, (h.unicode cp hcp).whitespace (not_lt.mp hlow),
      Option.getD_some, contains_asciiSpaces_of_ge hlow, Bool.false_or]

theorem cover_cjkRanges (cp : ℕ) : cover cjkRanges cp = seIsCjk cp := by
  simp only [cover, cjkRanges, List.any_cons, List.any_nil, Bool.or_false, seIsCjk, ge_iff_le,
    Bool.or_assoc]

theorem cover_asciiPunct (cp : ℕ) : cover asciiPunct cp = seIsAsciiPunct cp := by
  simp only [cover, asciiPunct, List.any_cons, List.any_nil, Bool.or_false, seIsAsciiPunct, ge_iff_le,
    Bool.or_assoc]

theorem isPunct_eq (hs : db.Standard) (h : Agrees db r m) (hcp : validUnicodeCodepoint cp) :
    isPunct m cp = isPunctuation db cp := by
  unfold isPunctuation
  by_cases hlow : cp < 0x80
  · have hdb := hs.punct_ascii cp hlow
    rw [isPunct, isPunct?, if_pos hlow, Option.getD_some, Bool.eq_iff_iff, Bool.or_eq_true,
      ← cover_asciiPunct]
    tauto
  · have hno : cover asciiPunct cp = false := by
      rw [cover_asciiPunct, Bool.eq_false_iff]
      simp only [seIsAsciiPunct, ge_iff_le, ne_eq, Bool.or_eq_true, Bool.and_eq_true,
        decide_eq_true_eq]
      omega
    rw [isPunct, (h.unicode cp hcp).punct (not_lt.mp hlow), Option.getD_some, hno, Bool.false_or]

theorem isWhitespace_of_clean (hs : db.Standard) (h : Agrees db r m) (hcp : Clean db cp) :
    StaticEmbeddings.isWhitespace m cp = isSplitSpace cp := by
  rw [isWhitespace_eq hs h hcp.1]
  obtain rfl | hblank := hcp.2
  · rfl
  · obtain ⟨hsplit, hdb⟩ := not_or.mp hblank
    have hspace : asciiSpaces.contains cp = false := by
      rw [Bool.eq_false_iff, Ne, contains_asciiSpaces]
      rw [isSplitSpace_iff] at hsplit
      omega
    rw [Bool.not_eq_true] at hsplit hdb
    rw [hsplit, isWhitespace, hspace, hdb]
    rfl

/-! ## One code point -/

theorem clean_of_mapping {f : ℕ → List ℕ} (hf : MappingFits f) (hascii : f 0x20 = [0x20])
    (hblank : ∀ cp, validUnicodeCodepoint cp → ¬ db.Blank cp → ∀ c ∈ f cp, ¬ db.Blank c)
    (hcp : Clean db cp) : ∀ c ∈ f cp, Clean db c := by
  intro c hc
  obtain rfl | hne := hcp.2
  · rw [hascii, List.mem_singleton] at hc
    rw [hc]
    exact clean_space
  · exact ⟨hf.scalar cp hcp.1 c hc, .inr (hblank cp hcp.1 hne c hc)⟩

theorem clean_lowered (hs : db.Standard) (hcp : Clean db cp) : ∀ c ∈ lowered db r cp, Clean db c := by
  intro c hc
  unfold lowered at hc
  split_ifs at hc
  · exact clean_of_mapping hs.downcase (hs.downcase_ascii 0x20 (by decide)) hs.downcase_blank hcp c hc
  · rwa [List.mem_singleton.mp hc]

theorem clean_stripped (hs : db.Standard) (hcp : Clean db cp) : ∀ c ∈ stripped db r cp, Clean db c := by
  intro c hc
  unfold stripped at hc
  split_ifs at hc
  · exact clean_of_mapping hs.nfd (hs.nfd_ascii 0x20 (by decide)) hs.nfd_blank hcp c
      (List.mem_of_mem_filter hc)
  · rwa [List.mem_singleton.mp hc]

/-- The space around ideographs, if that is asked for. -/
def spaced (r : Reference) (cp : ℕ) : List ℕ :=
  if r.options.handleChineseChars = true ∧ seIsCjk cp = true then [0x20, cp, 0x20] else [cp]

theorem clean_spaced (hcp : Clean db cp) : ∀ c ∈ spaced r cp, Clean db c := by
  intro c hc
  unfold spaced at hc
  split_ifs at hc
  · simp only [List.mem_cons, List.not_mem_nil, or_false] at hc
    rcases hc with rfl | rfl | rfl
    · exact clean_space
    · exact hcp
    · exact clean_space
  · rwa [List.mem_singleton.mp hc]

theorem cleanChars_singleton (db : UnicodeDatabase) (cp : ℕ) : cleanChars db [cp] =
    if cp = 0 ∨ cp = 0xFFFD ∨ isControl db cp = true then []
    else [if isWhitespace db cp then 0x20 else cp] := by
  unfold cleanChars
  rw [List.filterMap_cons, List.filterMap_nil]
  split_ifs <;> rfl

theorem clean_cleaned (hs : db.Standard) (hcp : validUnicodeCodepoint cp) :
    ∀ c ∈ cleanChars db [cp], Clean db c := by
  intro c hc
  rw [cleanChars_singleton] at hc
  split_ifs at hc with hdrop hw
  · exact absurd hc List.not_mem_nil
  · rw [List.mem_singleton.mp hc]
    exact clean_space
  · rw [List.mem_singleton.mp hc]
    refine ⟨hcp, .inr fun hblank => ?_⟩
    unfold isWhitespace at hw
    rw [Bool.or_eq_true, not_or] at hw
    obtain hsplit | hdb := hblank
    · -- the whitespace that `clean_chars` leaves is control
      refine hdrop (.inr (.inr ?_))
      rw [isSplitSpace_iff] at hsplit
      have hspace := hw.1
      rw [contains_asciiSpaces] at hspace
      rw [isControl, Bool.eq_false_iff.mpr hw.1, hs.control_ascii cp (by omega), Bool.not_false,
        Bool.true_and, Bool.or_eq_true, decide_eq_true_eq, beq_iff_eq]
      omega
    · exact hw.2 hdb

theorem normalizeChars_singleton (hc : r.options.cleanText = true) (cp : ℕ) :
    normalizeChars db r [cp] = (((cleanChars db [cp]).flatMap (spaced r)).flatMap
      (stripped db r)).flatMap (lowered db r) := by
  have hspaced : ∀ chars : List ℕ, (if r.options.handleChineseChars then splitChinese chars else chars) =
      chars.flatMap (spaced r) := by
    intro chars
    unfold splitChinese spaced
    cases r.options.handleChineseChars
    · simp
    · simp [cover_cjkRanges]
  have hstripped : ∀ chars : List ℕ, (if r.options.stripAccents then stripAccents db chars else chars) =
      chars.flatMap (stripped db r) := by
    intro chars
    unfold stripAccents stripped
    cases r.options.stripAccents
    · simp
    · simp [List.filter_flatMap]
  have hlowered : ∀ chars : List ℕ, (if r.options.lowercase then lowercase db chars else chars) =
      chars.flatMap (lowered db r) := by
    intro chars
    unfold lowercase lowered
    cases r.options.lowercase
    · simp
    · simp
  unfold normalizeChars
  dsimp only
  rw [if_pos hc, hspaced, hstripped, hlowered]

/-- **The runtime feeds the normalized code point.** -/
theorem cleanedCps_eq (hs : db.Standard) (h : Agrees db r m) (hcp : validUnicodeCodepoint cp) :
    cleanedCps m cp = normalizeChars db r [cp] := by
  have hm : m.cleanText ≠ 0 := by
    rw [h.compiled.ok.fields.cleanText]
    exact one_ne_zero
  have hspace : strippedCps m 0x20 = (stripped db r 0x20).flatMap (lowered db r) :=
    strippedCps_eq hs h (by decide)
  rw [normalizeChars_singleton h.cleanText, cleanChars_singleton]
  unfold cleanedCps
  rw [isControl_eq hs h hcp, isWhitespace_eq hs h hcp]
  simp only [hm, ne_eq, not_false_eq_true, true_and]
  by_cases hdrop : cp = 0 ∨ cp = 0xFFFD ∨ isControl db cp = true
  · rw [if_pos hdrop, if_pos hdrop]
    rfl
  · rw [if_neg hdrop, if_neg hdrop]
    have hvalid : validUnicodeCodepoint (if isWhitespace db cp = true then 0x20 else cp) := by
      split_ifs
      · decide
      · exact hcp
    generalize (if isWhitespace db cp = true then 0x20 else cp) = c at hvalid ⊢
    rw [List.flatMap_singleton, spaced]
    by_cases hcjk : r.options.handleChineseChars = true ∧ seIsCjk c = true
    · rw [if_pos ⟨h.handleChineseChars.mpr hcjk.1, seIsCjk_ge hcjk.2, hcjk.2⟩, if_pos hcjk, hspace,
        strippedCps_eq hs h hvalid]
      simp only [List.flatMap_cons, List.flatMap_nil, List.flatMap_append, List.append_nil,
        List.append_assoc]
    · rw [if_neg fun hc => hcjk ⟨h.handleChineseChars.mp hc.1, hc.2.2⟩, if_neg hcjk,
        List.flatMap_singleton, strippedCps_eq hs h hvalid]

theorem clean_normalizeChars (hs : db.Standard) (hc : r.options.cleanText = true)
    (hcp : validUnicodeCodepoint cp) : ∀ c ∈ normalizeChars db r [cp], Clean db c := by
  intro c hmem
  rw [normalizeChars_singleton hc] at hmem
  obtain ⟨d, hd, hmem⟩ := List.mem_flatMap.mp hmem
  obtain ⟨e, he, hd⟩ := List.mem_flatMap.mp hd
  obtain ⟨f, hf, he⟩ := List.mem_flatMap.mp he
  exact clean_lowered hs (clean_stripped hs (clean_spaced (clean_cleaned hs hcp f hf) e he) d hd) c
    hmem

/-! ## Words -/

theorem flushItems_eq (segment : List ℕ) :
    flushItems segment = (Splitting.flush segment).map Item.word := by
  cases segment with
  | nil => rfl
  | cons c segment => rfl

/-- The runtime's segmenter is a scanner. -/
theorem segmenter_run_eq (m : SeModel) (segment cps : List ℕ) :
    (segmenter m).run segment (cps.map .cp) =
      (((Splitting.scanner (StaticEmbeddings.isWhitespace m) (isPunct m)).run segment cps).1.map .word,
        ((Splitting.scanner (StaticEmbeddings.isWhitespace m) (isPunct m)).run segment cps).2) := by
  induction cps generalizing segment with
  | nil => rfl
  | cons c cps ih =>
    have hstep : (segmenter m).step segment (.cp c) =
        (((Splitting.scanner (StaticEmbeddings.isWhitespace m) (isPunct m)).step segment c).1.map .word,
          ((Splitting.scanner (StaticEmbeddings.isWhitespace m) (isPunct m)).step segment c).2) := by
      simp only [segmenter, Splitting.scanner, flushItems_eq]
      split_ifs
      · rfl
      · dsimp only
        rw [List.map_append]
        rfl
      · rfl
    rw [List.map_cons, Transducer.run_cons, Transducer.run_cons, hstep]
    dsimp only
    rw [ih, List.map_append]

/-- **Clean text is split into the words of the reference.** -/
theorem segmenter_out (hs : db.Standard) (h : Agrees db r m) {cps : List ℕ}
    (hcps : ∀ c ∈ cps, Clean db c) :
    (segmenter m).out (cps.map .cp) = (preTokenize db cps).map .word := by
  have hscan := @Splitting.scanner_out ℕ (StaticEmbeddings.isWhitespace m) (isPunct m) cps
  have hcongr := @Splitting.flatMap_isolate_fields_congr ℕ (StaticEmbeddings.isWhitespace m) (isPunct m)
    cps isSplitSpace (isPunctuation db) fun c hc =>
      ⟨isWhitespace_of_clean hs h (hcps c hc), isPunct_eq hs h (hcps c hc).1⟩
  have hwords : preTokenize db cps =
      (Splitting.scanner (StaticEmbeddings.isWhitespace m) (isPunct m)).out cps := by
    rw [hscan, hcongr]
    rfl
  rw [hwords, Transducer.out, Transducer.out, List.map_append,
    show (segmenter m).init = [] from rfl, segmenter_run_eq]
  exact congrArg _ (flushItems_eq _)

/-- **The words of the reference are words of the pre-tokenizer.** -/
theorem preTokenized_of_mem (hs : db.Standard) (h : Agrees db r m) {cps : List ℕ}
    (hcps : ∀ c ∈ cps, Clean db c) {word : List ℕ} (hw : word ∈ preTokenize db cps) :
    (∀ c ∈ word, Clean db c) ∧ ((∃ c, word = [c]) ∨ (word ≠ [] ∧ ∀ c ∈ word,
      StaticEmbeddings.isWhitespace m c = false ∧ isPunct m c = false)) := by
  obtain ⟨hfield, hmem⟩ := Splitting.field_of_mem hcps hw
  refine ⟨hmem, hfield.imp_right fun hf => ⟨hf.1, fun c hc => ?_⟩⟩
  rw [isWhitespace_of_clean hs h (hmem c hc), isPunct_eq hs h (hmem c hc).1]
  exact hf.2 c hc

end Reference

end StaticEmbeddings
