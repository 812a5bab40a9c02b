import StaticEmbeddings.Embed
import StaticEmbeddings.Tokenizer.Cancel
import StaticEmbeddings.Tokenizer.Pieces
import StaticEmbeddings.Tokenizer.Segments

/-!
# Safety of an accepted file

* `SectionsHold`: every table of the model lies inside its section, every section inside the file.
* `ReadersSafe`: every reader, on any argument, stays inside its tables and buffers.
* `seTokenize_lt`: every id that `se_tokenize` emits is a row of the embedding matrix.
* **`validate_safe`**: all of this holds for every accepted file.
-/

namespace StaticEmbeddings

open LittleEndian

/-! ## Sections -/

/-- The tables of a model lie inside the sections of its file. -/
structure SectionsHold (base : Bytes) (m : SeModel) : Prop where
  inside : ∀ s ∈ (readSections base).toList, s.off + s.size ≤ base.length
  strings : m.vocabStrings.length = (readSections base).vocabStrings.size
  hash : m.vocabHash.length * 16 = (readSections base).vocabHash.size
  embeddings : m.embeddings.length = (readSections base).embeddings.size
  root : 16 + m.rootTrie.nodes.length * 16 + m.rootTrie.edges.length * 8 =
    (readSections base).rootTrie.size
  cont : 16 + m.contTrie.nodes.length * 16 + m.contTrie.edges.length * 8 =
    (readSections base).contTrie.size
  norm : m.norm = noNormTables ∨
    32 + (m.norm.lower.length + m.norm.nfd.length) * 24 + (m.norm.mn.length +
      m.norm.punct.length + m.norm.control.length + m.norm.whitespace.length) * 8 =
        (readSections base).norm.size

theorem sectionOk_inside {s : Section} {fileSize elemSize : ℕ} (h : sectionOk s fileSize elemSize) :
    s.off + s.size ≤ fileSize := by
  rcases h with h | ⟨-, -, h₁, h₂, -⟩
  · unfold sectionPresent at h
    omega
  · omega

theorem sectionsHold_of_validate {base : Bytes} {m : SeModel} (h : validate base = .ok m) :
    SectionsHold base m := by
  obtain ⟨hf, root, cont, norm, hroot, hcont, hnorm, rfl⟩ := validate_eq_ok_iff.mp h
  obtain ⟨hr, -, -, er⟩ := parseTrie_eq_ok_iff.mp hroot
  obtain ⟨hc, -, -, ec⟩ := parseTrie_eq_ok_iff.mp hcont
  obtain ⟨-, hn⟩ := parseNormTables_eq_ok_iff.mp hnorm
  obtain ⟨h₁, h₂, h₃, h₄, h₅, h₆, h₇⟩ := hf.sections
  refine ⟨?_, Section.length_bytes h₁, ?_, Section.length_bytes h₃, ?_, ?_, ?_⟩
  · simp only [Sections.toList, List.forall_mem_cons, List.not_mem_nil, false_imp_iff,
      implies_true, and_true]
    exact ⟨sectionOk_inside h₁, sectionOk_inside h₂, sectionOk_inside h₃, sectionOk_inside h₄,
      sectionOk_inside h₅, sectionOk_inside h₆, sectionOk_inside h₇⟩
  · rw [hf.hashSize, vocabModelAt, length_recordsAt]
    rfl
  · rw [hr, er, length_recordsAt, length_recordsAt]
  · rw [hc, ec, length_recordsAt, length_recordsAt]
  · rcases hn with ⟨-, rfl⟩ | ⟨hs, rfl⟩
    · exact .inl rfl
    · refine .inr ?_
      rw [hs]
      simp only [normTablesAt, prepareNormFastTables, length_recordsAt]
      rfl

/-! ## Readers -/

/-- Every reader stays inside its tables and buffers, whatever it is asked. -/
structure ReadersSafe (m : SeModel) : Prop where
  lookup : ∀ pre bytes, (seVocabLookupPiece? m pre bytes).isSome
  root : ∀ bytes, (seTrieLongestMatch? m.rootTrie bytes).isSome
  cont : ∀ bytes, (seTrieLongestMatch? m.contTrie bytes).isSome
  whitespace : ∀ cp, (isWhitespace? m cp).isSome
  control : ∀ cp, (isControl? m cp).isSome
  punct : ∀ cp, (isPunct? m cp).isSome
  mn : ∀ cp, (isMn? m cp).isSome
  lower : ∀ cp, (lowerEntryOf? m cp).isSome
  nfd : ∀ cp, (nfdEntryOf? m cp).isSome
  /-- The outputs of an entry that are read are inside its four. -/
  outputs : ∀ cp e, lowerEntryOf? m cp = some (some e) ∨ nfdEntryOf? m cp = some (some e) → e.len ≤ 4
  wordpiece : ∀ word ids nUnk knownAscii, (wordpiece? m word ids nUnk knownAscii).isSome
  buffers : ∀ word ascii bytes cps2, wordBuffers word ascii = some (bytes, cps2) →
    bytes.length ≤ word.length * 4 + 4 ∧ cps2.length = word.length + 1
  rows : ∀ {Acc Vec : Type} (K : Kernel Acc Vec) cancelled ids,
    (embedIdsCore? K m cancelled ids).isSome

section

variable {m : SeModel}

theorem lowerEntryOf?_eq (h : ModelOk m) (cp : ℕ) :
    lowerEntryOf? m cp = some (entryOf m.norm.lower cp) := by
  rw [lowerEntryOf?, h.norm.fast]
  exact tableEntryOf?_eq h.norm.lower

theorem nfdEntryOf?_eq (h : ModelOk m) (cp : ℕ) : nfdEntryOf? m cp = some (entryOf m.norm.nfd cp) := by
  rw [nfdEntryOf?, h.norm.fast]
  exact tableEntryOf?_eq h.norm.nfd

theorem isMn?_eq (h : ModelOk m) (cp : ℕ) : isMn? m cp = some (inRanges m.norm.mn cp) := by
  rw [isMn?, h.norm.fast]
  exact tableContains?_eq h.norm.mn

theorem isWhitespace?_eq (h : ModelOk m) (cp : ℕ) : isWhitespace? m cp =
    some (if cp < 0x80 then seIsAsciiWhitespace cp else inRanges m.norm.whitespace cp) := by
  rw [isWhitespace?]
  split_ifs
  · rfl
  · rw [h.norm.fast]
    exact tableContains?_eq h.norm.whitespace

theorem isControl?_eq (h : ModelOk m) (cp : ℕ) : isControl? m cp =
    some (if cp < 0x80 then (cp < 0x20 || cp == 0x7F) && cp != 0x09 && cp != 0x0A && cp != 0x0D
      else inRanges m.norm.control cp) := by
  rw [isControl?]
  split_ifs
  · rfl
  · rw [h.norm.fast]
    exact tableContains?_eq h.norm.control

theorem isPunct?_eq (h : ModelOk m) (cp : ℕ) : isPunct? m cp =
    some (if cp < 0x80 then seIsAsciiPunct cp else inRanges m.norm.punct cp) := by
  rw [isPunct?]
  split_ifs
  · rfl
  · rw [h.norm.fast]
    exact tableContains?_eq h.norm.punct

theorem isSome_poolLoop? (h : ModelOk m) {Acc Vec : Type} (K : Kernel Acc Vec)
    (cancelled : CancelPoll → Bool) (i : ℕ) (ids : List ℕ) (acc : Acc) (used : ℕ) :
    (poolLoop? K m cancelled i ids acc used).isSome := by
  induction ids generalizing i acc used with
  | nil => rfl
  | cons id ids ih =>
    rw [poolLoop?]
    split_ifs with hc hr hu
    · rfl
    · rfl
    · exact ih (i + 1) acc used
    · have hrow : id * m.dim * 4 + m.dim * 4 ≤ m.embeddings.length := by
        rw [h.embeddings_length]
        calc id * m.dim * 4 + m.dim * 4 = (id + 1) * (m.dim * 4) := by ring
          _ ≤ m.vocabSize * (m.dim * 4) := Nat.mul_le_mul_right _ (by omega)
          _ = m.vocabSize * m.dim * 4 := by ring
      rw [slice?_of_le hrow]
      exact ih (i + 1) _ (used + 1)

theorem isSome_embedIdsCore? (h : ModelOk m) {Acc Vec : Type} (K : Kernel Acc Vec)
    (cancelled : CancelPoll → Bool) (ids : List ℕ) :
    (embedIdsCore? K m cancelled ids).isSome := by
  obtain ⟨r, hr⟩ := Option.isSome_iff_exists.mp
    (isSome_poolLoop? h K cancelled 0 ids K.zeroAcc 0)
  rw [embedIdsCore?, hr]
  rcases r with e | ⟨acc, used⟩
  · rfl
  · dsimp only
    split_ifs <;> rfl

theorem readersSafe_of_modelOk (h : ModelOk m) : ReadersSafe m where
  lookup pre bytes := by
    obtain ⟨r, hr, -⟩ := seVocabLookupPiece?_spec h pre bytes
    rw [hr]
    rfl
  root bytes := by
    rw [seTrieLongestMatch?_eq h.root h.vocabSize_lt.le h.root_pos]
    rfl
  cont bytes := by
    rw [seTrieLongestMatch?_eq h.cont h.vocabSize_lt.le h.cont_pos]
    rfl
  whitespace cp := by
    rw [isWhitespace?_eq h]
    rfl
  control cp := by
    rw [isControl?_eq h]
    rfl
  punct cp := by
    rw [isPunct?_eq h]
    rfl
  mn cp := by
    rw [isMn?_eq h]
    rfl
  lower cp := by
    rw [lowerEntryOf?_eq h]
    rfl
  nfd cp := by
    rw [nfdEntryOf?_eq h]
    rfl
  outputs cp e he := by
    rw [lowerEntryOf?_eq h, nfdEntryOf?_eq h, Option.some.injEq, Option.some.injEq] at he
    rcases he with he | he
    · exact h.norm.lower.len_le e (List.mem_of_find?_eq_some he)
    · exact h.norm.nfd.len_le e (List.mem_of_find?_eq_some he)
  wordpiece word ids nUnk knownAscii := by
    rw [wordpiece?_eq h]
    rfl
  buffers word ascii bytes cps2 hb := by
    obtain ⟨hb, hl⟩ := wordBuffers_spec hb
    exact ⟨by omega, hb.length⟩
  rows K cancelled ids := isSome_embedIdsCore? h K cancelled ids

end

/-! ## Ids -/

section

variable {m : SeModel}

theorem recorded_of_mem_seAddedTokens {t : Bytes × ℕ} (ht : t ∈ seAddedTokens) :
    ∃ name, (t.2, name, t.1, addedTokenId m t.2) ∈ recordedAddedTokens m.toSeMeta := by
  simp only [seAddedTokens, List.mem_cons, List.not_mem_nil, or_false] at ht
  rcases ht with rfl | rfl | rfl | rfl | rfl
  · exact ⟨"[MASK]", by simp [recordedAddedTokens, show addedTokenId m addedMask = m.maskId from rfl]⟩
  · exact ⟨"[PAD]", .head _⟩
  · exact ⟨"[UNK]", by simp [recordedAddedTokens, show addedTokenId m addedUnk = m.unkId from rfl]⟩
  · exact ⟨"[CLS]", by simp [recordedAddedTokens, show addedTokenId m addedCls = m.clsId from rfl]⟩
  · exact ⟨"[SEP]", by simp [recordedAddedTokens, show addedTokenId m addedSep = m.sepId from rfl]⟩

theorem literalAt_lt (h : ModelOk m) {bs : Bytes} {id len : ℕ}
    (hl : literalAt m bs = some (id, len)) : id < m.vocabSize := by
  unfold literalAt matchAddedToken at hl
  split_ifs at hl
  obtain ⟨t, ht, he⟩ := Option.map_eq_some_iff.mp hl
  cases he
  obtain ⟨name, hm⟩ := recorded_of_mem_seAddedTokens (List.mem_of_find?_eq_some ht)
  have hp := List.find?_some ht
  simp only [decide_eq_true_eq] at hp
  exact (h.vocab.added _ hm hp.1).1

theorem added_lt_of_mem_feeds (h : ModelOk m) {bs : Bytes} {id : ℕ}
    (hid : .added id ∈ (feeds m bs).1) : id < m.vocabSize := by
  fun_induction feeds m bs with
  | case1 => exact (List.not_mem_nil hid).elim
  | case2 bs hb id' len hl ih =>
    rcases List.mem_cons.mp hid with he | hid
    · cases he
      exact literalAt_lt h hl
    · exact ih hid
  | case3 => exact (List.not_mem_nil hid).elim
  | case4 bs hb hl cp r hd ih =>
    rcases List.mem_append.mp hid with hid | hid
    · obtain ⟨c, -, hc⟩ := List.mem_map.mp hid
      cases hc
    · exact ih hid

theorem forall_mem_items {P : Item → Prop} {bs : Bytes} (hw : ∀ w, P (.word w))
    (hd : ∀ id, .added id ∈ (feeds m bs).1 → P (.direct id)) : ∀ it ∈ (items m bs).1, P it := by
  have hflush : ∀ seg, ∀ it ∈ flushItems seg, P it := fun seg it hit => by
    unfold flushItems at hit
    split_ifs at hit
    · exact (List.not_mem_nil hit).elim
    · exact List.mem_singleton.mp hit ▸ hw seg
  have hrun : ∀ it ∈ ((segmenter m).run [] (feeds m bs).1).1, P it := by
    refine Transducer.forall_mem_run (segmenter m) (fun e he seg it hit => ?_) []
    rcases e with c | id
    · simp only [segmenter] at hit
      split_ifs at hit
      · exact hflush seg it hit
      · rcases List.mem_append.mp hit with hit | hit
        · exact hflush seg it hit
        · exact List.mem_singleton.mp hit ▸ hw [c]
      · exact (List.not_mem_nil hit).elim
    · rcases List.mem_append.mp hit with hit | hit
      · exact hflush seg it hit
      · exact List.mem_singleton.mp hit ▸ hd id he
  unfold items
  split_ifs
  · intro it hit
    rcases List.mem_append.mp hit with hit | hit
    · exact hrun it hit
    · exact hflush _ it hit
  · exact hrun

theorem capAfterAppend_ids_subset (p : TokenParams) (o : TokenIds) :
    (capAfterAppend p o).ids ⊆ o.ids := by
  unfold capAfterAppend
  split_ifs
  · exact List.Subset.refl _
  · exact List.take_subset _ _
  · exact List.take_subset _ _

theorem runItem_lt (h : ModelOk m) {p : TokenParams} (hw : p.wordpiece = wordpiece m)
    {o o' : TokenIds} {it : Item} (hit : ∀ id, it = .direct id → id < m.vocabSize) (ho : ∀ id ∈ o.ids, id < m.vocabSize)
    (hr : runItem p o it = .ok o') : ∀ id ∈ o'.ids, id < m.vocabSize := by
  have append : ∀ {ids : List ℕ}, (∀ id ∈ ids, id < m.vocabSize) →
      ∀ id ∈ o.ids ++ ids, id < m.vocabSize := fun {ids} hids id hid =>
    (List.mem_append.mp hid).elim (ho id) (hids id)
  have push : ∀ {ids : List ℕ} {id : ℕ}, pushId o.ids id = some ids → id < m.vocabSize →
      ∀ id ∈ ids, id < m.vocabSize := fun {ids id} hp hlt => by
    unfold pushId at hp
    split_ifs at hp
    cases hp
    exact append fun id' hid' => List.mem_singleton.mp hid' ▸ hlt
  rcases it with w | id
  · simp only [runItem, hw, wordpiece_eq h] at hr
    rcases hx : emitPieces m o.ids o.nUnk (wordPieces m w (w.all (· < 0x80))) with
      (_ | _) | ⟨ids, nUnk⟩
    · simp [hx, oom] at hr
    · simp [hx] at hr
    · simp only [hx, Except.ok.injEq] at hr
      subst hr
      refine fun id hid => ?_
      have hid := capAfterAppend_ids_subset p _ hid
      unfold emitPieces pushUnk at hx
      split_ifs at hx
      split at hx
      · cases hx
        exact append (wordPieces_lt h w _) id hid
      · split at hx
        · cases hx
        · rename_i ids' hp
          cases hx
          exact push hp h.fields.unkId id hid
      · cases hx
      · cases hx
  · simp only [runItem] at hr
    rcases hx : pushId o.ids id with _ | ids
    · simp [hx, oom] at hr
    · simp only [hx, Except.ok.injEq] at hr
      subst hr
      exact fun id' hid' => push hx (hit id rfl) id' (capAfterAppend_ids_subset p _ hid')

/-- **Every id that `se_tokenize` emits is in the vocabulary.** -/
theorem seTokenize_lt (h : ModelOk m) {input : Bytes} {maxTokens : ℕ} {limitMode : SeTokenLimit}
    {cancelled : CancelPoll → Bool} {stats : SeTokenStats} {ids : List ℕ}
    (hr : seTokenize m input maxTokens limitMode cancelled = (stats, .ok ids)) :
    ∀ id ∈ ids, id < m.vocabSize := by
  have hr := seTokenize_uncancelled_of_ok hr
  rw [seTokenize, seTokenizeWith_eq h.fields.cleanText rfl, tokenResult_eq_ok_iff] at hr
  obtain ⟨o, ho, -, -, -, rfl⟩ := hr
  have hdirect : ∀ it ∈ (items m input).1, ∀ id, it = .direct id → id < m.vocabSize := by
    refine forall_mem_items (fun w id he => Item.noConfusion he) fun id hid id' he => ?_
    cases he
    exact added_lt_of_mem_feeds h hid
  exact StopFold.run_invariant (fun it hit _ _ hI hs => runItem_lt h rfl (hdirect it hit) hI hs)
    (fun id hid => (List.not_mem_nil hid).elim) (runItems_eq_ok_iff.mp ho).1

theorem poolLoop?_status {Acc Vec : Type} (K : Kernel Acc Vec) {cancelled : CancelPoll → Bool}
    {ids : List ℕ} (hids : ∀ id ∈ ids, id < m.vocabSize) {i : ℕ} {acc : Acc} {used : ℕ}
    {e : SeError} (he : poolLoop? K m cancelled i ids acc used = some (.error e)) :
    e.status ≠ .errInvalidFormat := by
  induction ids generalizing i acc used with
  | nil => cases he
  | cons id ids ih =>
    rw [List.forall_mem_cons] at hids
    rw [poolLoop?, if_neg (not_le.mpr hids.1)] at he
    split_ifs at he
    · cases he
      exact fun h => by cases h
    · exact ih hids.2 he
    · split at he
      · cases he
      · exact ih hids.2 he

theorem embedIdsCore_status (h : ModelOk m) {Acc Vec : Type} (K : Kernel Acc Vec)
    {cancelled : CancelPoll → Bool} {ids : List ℕ} (hids : ∀ id ∈ ids, id < m.vocabSize)
    {e : SeError} (he : embedIdsCore K m cancelled ids = .error e) :
    e.status ≠ .errInvalidFormat := by
  obtain ⟨r, hr⟩ := Option.isSome_iff_exists.mp (isSome_embedIdsCore? h K cancelled ids)
  rw [embedIdsCore, hr, Option.getD_some] at he
  subst he
  rw [embedIdsCore?] at hr
  rcases hp : poolLoop? K m cancelled 0 ids K.zeroAcc 0 with _ | (e' | ⟨acc, used⟩)
  · simp [hp] at hr
  · simp only [hp, Option.some.injEq, Except.error.injEq] at hr
    exact hr ▸ poolLoop?_status K hids hp
  · simp only [hp] at hr
    split_ifs at hr <;> cases hr
    exact fun h => by cases h

end

/-- **What the loader accepts is safe to run.** The tables lie in their sections, every reader stays
inside its tables for every argument (cyclic, shared or inconsistent tries included), and a run of
`se_tokenize`, which always ends, emits ids of the vocabulary only, so that pooling them reports no
id out of range. -/
theorem validate_safe {file : Bytes} {m : SeModel} (h : validate file = .ok m) :
    SectionsHold file m ∧ ReadersSafe m ∧
      ∀ (input : Bytes) (maxTokens : ℕ) (limitMode : SeTokenLimit) (cancelled : CancelPoll → Bool)
        (stats : SeTokenStats) (ids : List ℕ),
        seTokenize m input maxTokens limitMode cancelled = (stats, .ok ids) →
          (∀ id ∈ ids, id < m.vocabSize) ∧
          ∀ {Acc Vec : Type} (K : Kernel Acc Vec) (cancelled : CancelPoll → Bool) (e : SeError),
            embedIdsCore K m cancelled ids = .error e → e.status ≠ .errInvalidFormat := by
  have hm := modelOk_of_validate h
  refine ⟨sectionsHold_of_validate h, readersSafe_of_modelOk hm, ?_⟩
  intro input maxTokens limitMode cancelled stats ids hr
  have hlt := seTokenize_lt hm hr
  exact ⟨hlt, fun K _ _ he => embedIdsCore_status hm K hlt he⟩

/-- The small file is safe to run. -/
theorem validate_safe_sample : ReadersSafe sampleModel ∧
    ∀ stats ids, seTokenize sampleModel [0x62, 0x61, 0x20, 0x7A] 0 .raw neverCancelled =
      (stats, .ok ids) → ∀ id ∈ ids, id < sampleModel.vocabSize :=
  ⟨(validate_safe validate_sampleFile).2.1, fun _ _ h =>
    ((validate_safe validate_sampleFile).2.2 _ 0 .raw neverCancelled _ _ h).1⟩

end StaticEmbeddings
