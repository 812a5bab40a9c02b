import StaticEmbeddings.Convert.PackedHash
import StaticEmbeddings.Convert.PackedTrie
import StaticEmbeddings.Convert.Written

/-!
# Compiled vocabularies

`lib/static_embeddings/bert_wordpiece.rb` and the vocabulary part of a file that the converter has
written.

* `maxTokenChars`, `runtimeMeta`: the header fields that come from the vocabulary.
* `WordPieceTrie.build_spec`: the keys of the two tries.
* `Compiled`: what the runtime has of a vocabulary; **`compiled_of_written`**.
-/

namespace StaticEmbeddings

open LittleEndian PrefixTree

/-! ## `BertWordPiece` -/

/-- `continuing_subword_prefix`, `"##"`. -/
def continuingSubwordPrefix : Bytes := [0x23, 0x23]

/-- The body of a token: without the prefix if it starts with it. -/
def tokenBody (subword token : Bytes) : Bytes :=
  if subword.isPrefixOf token then token.drop subword.length else token

/-- `each_char.count` of a valid string: every character has one byte that continues none. -/
def charCount (bytes : Bytes) : ℕ := bytes.countP fun b => ¬ Utf8.IsCont b

/-- `max_token_chars`. -/
def maxTokenChars (tokens : List Bytes) (subword : Bytes) : ℕ :=
  tokens.foldl (fun maximum token => max maximum (charCount (tokenBody subword token))) 1

/-- `token_id`; without a fallback a missing token raises. -/
def tokenId (tokens : List Bytes) (token : Bytes) (fallback : Option ℕ) : Option ℕ :=
  (tokens.idxOf? token).or fallback

/-- `runtime_meta`: the fields of the profile and those of the vocabulary. -/
def runtimeMeta (profile : FormatMeta) (tokens : List Bytes) : Option FormatMeta := do
  let padId ← tokenId tokens textPad (some 0)
  let unkId ← tokenId tokens textUnk none
  let clsId ← tokenId tokens textCls (some 0)
  let sepId ← tokenId tokens textSep (some 0)
  let maskId ← tokenId tokens textMask (some 0)
  return { profile with
    maxTokenChars := maxTokenChars tokens continuingSubwordPrefix
    subwordPrefix := continuingSubwordPrefix
    padId := padId, unkId := unkId, clsId := clsId, sepId := sepId, maskId := maskId }

theorem runtimeMeta_spec {profile fmt : FormatMeta} {tokens : List Bytes}
    (h : runtimeMeta profile tokens = some fmt) :
    fmt.subwordPrefix = continuingSubwordPrefix ∧
      fmt.maxTokenChars = maxTokenChars tokens continuingSubwordPrefix := by
  simp only [runtimeMeta, Option.bind_eq_bind, Option.bind_eq_some_iff] at h
  obtain ⟨_, -, _, -, _, -, _, -, _, -, ⟨⟩⟩ := h
  exact ⟨rfl, rfl⟩

theorem le_foldl_max {α : Type} (f : α → ℕ) (xs : List α) (k : ℕ) :
    k ≤ xs.foldl (fun a x => max a (f x)) k ∧
      ∀ x ∈ xs, f x ≤ xs.foldl (fun a x => max a (f x)) k := by
  induction xs generalizing k with
  | nil => exact ⟨le_rfl, fun _ h => absurd h List.not_mem_nil⟩
  | cons x xs ih =>
    obtain ⟨h₁, h₂⟩ := ih (max k (f x))
    exact ⟨(le_max_left _ _).trans h₁, List.forall_mem_cons.mpr ⟨(le_max_right _ _).trans h₁, h₂⟩⟩

theorem charCount_le_maxTokenChars {tokens : List Bytes} {subword token : Bytes} (h : token ∈ tokens) :
    charCount (tokenBody subword token) ≤ maxTokenChars tokens subword :=
  (le_foldl_max (fun token => charCount (tokenBody subword token)) tokens 1).2 token h

theorem idxOf?_eq_some_iff {α : Type} [BEq α] [LawfulBEq α] {tokens : List α} (hd : tokens.Nodup)
    {token : α} {i : ℕ} : tokens.idxOf? token = some i ↔ tokens[i]? = some token := by
  rw [List.idxOf?_eq_some_iff]
  constructor
  · rintro ⟨hi, he, -⟩
    rw [List.getElem?_eq_getElem hi, he]
  · intro h
    obtain ⟨hi, rfl⟩ := List.getElem?_eq_some_iff.mp h
    exact ⟨hi, rfl, fun j hj he => hj.ne ((List.Nodup.getElem_inj_iff hd).mp he)⟩

theorem mem_of_idxOf? {tokens : List Bytes} {token : Bytes} {i : ℕ}
    (h : tokens.idxOf? token = some i) : token ∈ tokens := by
  obtain ⟨hi, rfl, -⟩ := List.idxOf?_eq_some_iff.mp h
  exact List.getElem_mem hi

/-! ## The keys of the tries -/

namespace WordPieceTrie

variable {subword : Bytes} {tokens : List Bytes}

/-- What goes into the root trie, with ids from `id` on. -/
def rootKeys (subword : Bytes) (id : ℕ) (tokens : List Bytes) : List (Bytes × ℕ) :=
  (tokens.zipIdx id).filter fun p => p.1 ≠ [] ∧ isContinuation p.1 subword = false

/-- What goes into the continuation trie. -/
def contKeys (subword : Bytes) (id : ℕ) (tokens : List Bytes) : List (Bytes × ℕ) :=
  ((tokens.zipIdx id).filter fun p => isContinuation p.1 subword).map fun p =>
    (p.1.drop subword.length, p.2)

theorem isContinuation_iff {bytes : Bytes} : isContinuation bytes subword = true ↔
    subword ≠ [] ∧ ∃ body, body ≠ [] ∧ bytes = subword ++ body := by
  unfold isContinuation
  simp only [Bool.and_eq_true, Bool.not_eq_true', List.isEmpty_eq_false_iff, decide_eq_true_eq,
    List.isPrefixOf_iff_prefix, and_assoc]
  refine and_congr_right fun _ => ⟨?_, ?_⟩
  · rintro ⟨⟨body, rfl⟩, hlen⟩
    refine ⟨body, fun h => ?_, rfl⟩
    rw [h, List.append_nil] at hlen
    exact lt_irrefl _ hlen
  · rintro ⟨body, hb, rfl⟩
    refine ⟨⟨body, rfl⟩, ?_⟩
    have := List.length_pos_iff.mpr hb
    rw [List.length_append]
    omega

/-- **`build` inserts the keys of each trie in order.** -/
theorem buildLoop_eq_ok_iff {id : ℕ} {root cont root' cont' : Trie} :
    buildLoop subword id tokens (root, cont) = .ok (root', cont') ↔
      Trie.insertAll (rootKeys subword id tokens) root = .ok root' ∧
        Trie.insertAll (contKeys subword id tokens) cont = .ok cont' := by
  induction tokens generalizing id root cont with
  | nil =>
    constructor
    · rintro ⟨⟩
      exact ⟨rfl, rfl⟩
    · rintro ⟨⟨⟩, ⟨⟩⟩
      rfl
  | cons bytes rest ih =>
    unfold rootKeys contKeys at ih ⊢
    rw [buildLoop, List.zipIdx_cons, List.filter_cons, List.filter_cons]
    cases hc : isContinuation bytes subword with
    | true =>
      rw [if_pos rfl, if_neg (by simp), if_pos rfl, List.map_cons, Trie.insertAll]
      simp only [bind_eq_ok, ih]
      constructor
      · rintro ⟨t, h₁, h₂, h₃⟩
        exact ⟨h₂, t, h₁, h₃⟩
      · rintro ⟨h₂, t, h₁, h₃⟩
        exact ⟨t, h₁, h₂, h₃⟩
    | false =>
      rw [if_neg Bool.false_ne_true, if_neg Bool.false_ne_true]
      simp only [bind_eq_ok, ih]
      by_cases hb : bytes = []
      · rw [if_neg (by simp [hb]), hb, Trie.insert, if_pos rfl]
        constructor
        · rintro ⟨t, ⟨⟩, h₁, h₂⟩
          exact ⟨h₁, h₂⟩
        · rintro ⟨h₁, h₂⟩
          exact ⟨root, rfl, h₁, h₂⟩
      · rw [if_pos (by simp [hb]), Trie.insertAll]
        simp only [bind_eq_ok]
        constructor
        · rintro ⟨t, h₁, h₂, h₃⟩
          exact ⟨⟨t, h₁, h₂⟩, h₃⟩
        · rintro ⟨⟨t, h₁, h₂⟩, h₃⟩
          exact ⟨t, h₁, h₂, h₃⟩

theorem mem_rootKeys {w : Bytes} {i : ℕ} : (w, i) ∈ rootKeys subword 0 tokens ↔
    tokens[i]? = some w ∧ w ≠ [] ∧ isContinuation w subword = false := by
  rw [rootKeys, List.mem_filter, List.mem_zipIdx_iff_getElem?, decide_eq_true_eq]

theorem mem_contKeys {w : Bytes} {i : ℕ} : (w, i) ∈ contKeys subword 0 tokens ↔
    tokens[i]? = some (subword ++ w) ∧ w ≠ [] ∧ subword ≠ [] := by
  simp only [contKeys, List.mem_map, List.mem_filter, List.mem_zipIdx_iff_getElem?,
    isContinuation_iff, Prod.exists, Prod.mk.injEq]
  constructor
  · rintro ⟨token, j, ⟨hj, hs, body, hb, rfl⟩, hd, rfl⟩
    rw [List.drop_left] at hd
    exact ⟨hd ▸ hj, hd ▸ hb, hs⟩
  · rintro ⟨hi, hw, hs⟩
    exact ⟨_, i, ⟨hi, hs, w, hw, rfl⟩, List.drop_left, rfl⟩

theorem nodup_keys (hd : tokens.Nodup) : ((rootKeys subword 0 tokens).map Prod.fst).Nodup ∧
    ((contKeys subword 0 tokens).map Prod.fst).Nodup := by
  have hidx : (tokens.zipIdx 0).Nodup := by
    refine List.Nodup.of_map Prod.fst ?_
    rwa [List.zipIdx_map_fst]
  have hcont : (contKeys subword 0 tokens).Nodup := by
    refine (hidx.filter _).map_on ?_
    rintro ⟨a, i⟩ ha ⟨b, j⟩ hb he
    obtain ⟨-, ha⟩ := List.mem_filter.mp ha
    obtain ⟨-, hb⟩ := List.mem_filter.mp hb
    obtain ⟨-, va, -, rfl⟩ := isContinuation_iff.mp ha
    obtain ⟨-, vb, -, rfl⟩ := isContinuation_iff.mp hb
    simp only [List.drop_left, Prod.mk.injEq] at he
    rw [he.1, he.2]
  constructor
  · refine List.Nodup.map_on ?_ (hidx.filter _)
    rintro ⟨a, i⟩ ha ⟨b, j⟩ hb (rfl : a = b)
    rw [(idxOf?_eq_some_iff hd).mpr (mem_rootKeys.mp ha).1 |>.symm.trans
      ((idxOf?_eq_some_iff hd).mpr (mem_rootKeys.mp hb).1) |> Option.some.inj]
  · refine List.Nodup.map_on ?_ hcont
    rintro ⟨a, i⟩ ha ⟨b, j⟩ hb (rfl : a = b)
    rw [(idxOf?_eq_some_iff hd).mpr (mem_contKeys.mp ha).1 |>.symm.trans
      ((idxOf?_eq_some_iff hd).mpr (mem_contKeys.mp hb).1) |> Option.some.inj]

theorem lookup_rootKeys (hd : tokens.Nodup) (w : Bytes) : (rootKeys subword 0 tokens).lookup w =
    if w ≠ [] ∧ isContinuation w subword = false then tokens.idxOf? w else none := by
  ext i
  have hmem : (rootKeys subword 0 tokens).lookup w = some i ↔ (w, i) ∈ rootKeys subword 0 tokens :=
    ⟨mem_of_lookup, lookup_of_mem (nodup_keys hd).1⟩
  rw [hmem, mem_rootKeys]
  split_ifs with h
  · rw [idxOf?_eq_some_iff hd]
    exact ⟨fun h' => h'.1, fun h' => ⟨h', h⟩⟩
  · exact ⟨fun h' => absurd h'.2 h, nofun⟩

theorem lookup_contKeys (hd : tokens.Nodup) (w : Bytes) : (contKeys subword 0 tokens).lookup w =
    if w ≠ [] ∧ subword ≠ [] then tokens.idxOf? (subword ++ w) else none := by
  ext i
  have hmem : (contKeys subword 0 tokens).lookup w = some i ↔ (w, i) ∈ contKeys subword 0 tokens :=
    ⟨mem_of_lookup, lookup_of_mem (nodup_keys hd).2⟩
  rw [hmem, mem_contKeys]
  split_ifs with h
  · rw [idxOf?_eq_some_iff hd]
    exact ⟨fun h' => h'.1, fun h' => ⟨h', h⟩⟩
  · exact ⟨fun h' => absurd h'.2 h, nofun⟩

/-- **The two tries hold their keys.** -/
theorem build_spec (hd : tokens.Nodup) {vocabSize : ℕ} (hv : vocabSize ≤ slotEmpty)
    (hlen : tokens.length ≤ vocabSize) :
    ∃ root cont label₁ label₂, build tokens subword = .ok (root, cont) ∧
      Trie.Wf vocabSize root label₁ ∧ Trie.Wf vocabSize cont label₂ ∧
      (∀ w, root.find w = (rootKeys subword 0 tokens).lookup w) ∧
      ∀ w, cont.find w = (contKeys subword 0 tokens).lookup w := by
  obtain ⟨hnodup₁, hnodup₂⟩ := @nodup_keys subword tokens hd
  have hlt : ∀ {i : ℕ} {token : Bytes}, tokens[i]? = some token → i < vocabSize := fun h =>
    (List.getElem?_eq_some_iff.mp h).1.trans_le hlen
  obtain ⟨root, label₁, hroot, hwf₁, hfind₁⟩ := Trie.insertAll_spec (Trie.wf_empty vocabSize) hv
    hnodup₁ fun p hp => by
      obtain ⟨hi, hne, -⟩ := mem_rootKeys.mp hp
      exact ⟨hne, hlt hi, Trie.find_empty p.1⟩
  obtain ⟨cont, label₂, hcont, hwf₂, hfind₂⟩ := Trie.insertAll_spec (Trie.wf_empty vocabSize) hv
    hnodup₂ fun p hp => by
      obtain ⟨hi, hne, -⟩ := mem_contKeys.mp hp
      exact ⟨hne, hlt hi, Trie.find_empty p.1⟩
  refine ⟨root, cont, label₁, label₂, buildLoop_eq_ok_iff.mpr ⟨hroot, hcont⟩, hwf₁, hwf₂,
    fun w => ?_, fun w => ?_⟩
  · rw [hfind₁, Trie.find_empty, Option.or_none]
  · rw [hfind₂, Trie.find_empty, Option.or_none]

end WordPieceTrie

/-! ## The vocabulary of a loaded file -/

namespace HashTable

theorem build_eq_ok {tokens : List Bytes} (hd : tokens.Nodup) {b : Built}
    (hb : build tokens = .ok b) (hsize : tokens.length ≤ b.size) :
    (∃ k, b.size = 2 ^ k) ∧ ∃ st, TableInv tokens b.size tokens.length st ∧
      b = ⟨b.size, tokens.flatten, pack st.slots, st.maxProbe⟩ := by
  have hpos : 0 < sizeFor tokens.length := by
    unfold sizeFor
    split_ifs <;> omega
  obtain ⟨k, hk, -, -⟩ := nextPowerOfTwo_spec hpos
  obtain ⟨st, hst, he⟩ := bind_eq_ok.mp hb
  cases he
  obtain ⟨st', hloop, hinv⟩ := buildLoop_spec hk hd hsize (Nat.zero_le _)
    (tableInv_zero tokens _)
  rw [List.drop_zero, hst] at hloop
  cases hloop
  refine ⟨⟨k, hk⟩, st, hinv, ?_⟩
  rw [hinv.strings, List.take_length]

end HashTable

/-- What the runtime has of a vocabulary that was compiled. -/
structure Compiled (tokens : List Bytes) (m : SeModel) : Prop where
  ok : ModelOk m
  nodup : tokens.Nodup
  vocabSize : m.vocabSize = tokens.length
  lookup : ∀ bytes, seVocabLookup? m bytes = some (HashTable.firstStored tokens bytes)
  root : ∀ input, m.rootTrie.longest 0 input = longestKey
    (fun w => (WordPieceTrie.rootKeys continuingSubwordPrefix 0 tokens).lookup w) input
  cont : ∀ input, m.contTrie.longest 0 input = longestKey
    (fun w => (WordPieceTrie.contKeys continuingSubwordPrefix 0 tokens).lookup w) input
  maxInput_le : m.maxInputCharsPerWord ≤ uint32Max
  maxTokenChars : m.maxTokenChars = maxTokenChars tokens continuingSubwordPrefix ∨
    m.maxTokenChars = m.maxInputCharsPerWord

theorem Section.HoldsAt.bytes_eq {s : Section} {file bytes : Bytes} (h : s.HoldsAt file bytes) :
    s.bytes file = bytes := by
  rw [Section.bytes, h.size]
  exact h.holds

theorem longest_of_parseTrie {t : Trie} {vocabSize : ℕ} {label : ℕ → Bytes}
    (h : t.Wf vocabSize label) (hv : vocabSize ≤ slotEmpty) {file : Bytes} {sec : Section}
    (hsec : sec.HoldsAt file t.pack) {name : String} {s : SeTrie}
    (hp : parseTrie file sec vocabSize name = .ok s) (input : Bytes) :
    s.longest 0 input = longestKey t.find input := by
  obtain ⟨hnodes, hedges⟩ := Trie.fits_of_parseTrie hsec.size hsec.holds hp
  rw [Trie.parseTrie_pack h hv hnodes hedges hsec.size hsec.holds name] at hp
  cases hp
  exact Trie.longest_packed h (Nat.le_pred_of_lt hnodes) input

section

variable {tokens : List Bytes} {fmt : FormatMeta} {hash : HashTable.Built} {tries : Trie × Trie}
  {matrix normTables provenance file : Bytes}

theorem metaAt_written {fields : SeMeta} {parts : Contents} (hw : Written fields parts file) :
    metaAt file = clampMeta fields := by
  rw [metaAt, hw.fields]

/-- **The vocabulary that the loader reads from a written file.** -/
theorem vocab_of_written (hd : tokens.Nodup) (hhash : HashTable.build tokens = .ok hash)
    (hload : tokens.length < hash.size)
    (hw : Written (writtenMeta fmt tokens.length hash.size hash.maxProbe)
      (contentsOf hash tries matrix normTables provenance) file) :
    (∃ k, hash.size = 2 ^ k) ∧ ∃ st, HashTable.TableInv tokens hash.size tokens.length st ∧
      (vocabModelAt file).vocabHash = HashTable.packedSlots st.slots ∧
      (vocabModelAt file).vocabStrings = tokens.flatten ∧ hash.maxProbe = st.maxProbe := by
  obtain ⟨hpow, st, hinv, hhash⟩ := HashTable.build_eq_ok hd hhash hload.le
  have hstrings := hw.vocabStrings.bytes_eq
  have hblob := hw.vocabHash.holds
  simp only [contentsOf] at hstrings hblob
  rw [hhash] at hstrings hblob
  refine ⟨hpow, st, hinv, ?_, hstrings, by rw [hhash]⟩
  have hsize : (metaAt file).hashTableSize = st.slots.length := by
    rw [metaAt_written hw, hinv.length]
    rfl
  show recordsAt 16 SeVocabSlot.read file _ (metaAt file).hashTableSize = _
  rw [hsize]
  exact HashTable.recordsAt_pack hblob

theorem lookup_of_written (hd : tokens.Nodup) (hhash : HashTable.build tokens = .ok hash)
    (hload : tokens.length < hash.size) (hcount : tokens.length < slotEmpty)
    (hw : Written (writtenMeta fmt tokens.length hash.size hash.maxProbe)
      (contentsOf hash tries matrix normTables provenance) file) {m : SeModel}
    (hm : m.toSeMeta = metaAt file) (hslots : m.vocabHash = (vocabModelAt file).vocabHash)
    (hstrings : m.vocabStrings = (vocabModelAt file).vocabStrings) (bytes : Bytes) :
    seVocabLookup? m bytes = some (HashTable.firstStored tokens bytes) := by
  obtain ⟨hpow, st, hinv, hslots', hstrings', hprobe⟩ := vocab_of_written hd hhash hload hw
  rw [metaAt_written hw] at hm
  refine HashTable.seVocabLookup?_built hinv ⟨hd, hcount, hpow⟩ (hslots.trans hslots')
    (hstrings.trans hstrings') ?_ ?_ ?_ bytes
  · rw [hm]
    rfl
  · rw [hm]
    rfl
  · rw [hm, ← hprobe]
    rfl

/-- **A written file that is accepted has the vocabulary it was written with.** -/
theorem compiled_of_written {m : SeModel} (hd : tokens.Nodup)
    (hhash : HashTable.build tokens = .ok hash)
    (htries : WordPieceTrie.build tokens continuingSubwordPrefix = .ok tries)
    (hchars : fmt.maxTokenChars = maxTokenChars tokens continuingSubwordPrefix)
    (hw : Written (writtenMeta fmt tokens.length hash.size hash.maxProbe)
      (contentsOf hash tries matrix normTables provenance) file)
    (hv : validate file = .ok m) : Compiled tokens m := by
  have hok := modelOk_of_validate hv
  obtain ⟨-, root, cont, norm, hroot, hcont, -, rfl⟩ := validate_eq_ok_iff.mp hv
  have hmeta := metaAt_written hw
  have hvocab : (metaAt file).vocabSize = tokens.length := by rw [hmeta]; rfl
  have hsize : (metaAt file).hashTableSize = hash.size := by rw [hmeta]; rfl
  have hcount : tokens.length < slotEmpty := hvocab ▸ hok.vocabSize_lt
  have hload : tokens.length < hash.size := by
    have := hok.fields.load.1
    rw [← hvocab, ← hsize]
    exact this
  obtain ⟨root', cont', label₁, label₂, hbuild, hwf₁, hwf₂, hfind₁, hfind₂⟩ :=
    @WordPieceTrie.build_spec continuingSubwordPrefix tokens hd _ hcount.le le_rfl
  rw [htries] at hbuild
  cases hbuild
  rw [hw.fields] at hroot hcont
  refine ⟨hok, hd, hvocab, lookup_of_written hd hhash hload hcount hw rfl rfl rfl,
    fun input => ?_, fun input => ?_, ?_, ?_⟩
  · rw [← funext hfind₁]
    exact longest_of_parseTrie hwf₁ hcount.le hw.rootTrie hroot input
  · rw [← funext hfind₂]
    exact longest_of_parseTrie hwf₂ hcount.le hw.contTrie hcont input
  · have hlt := readU32_lt file 80
    show (if readU32 file 80 = 0 then 100 else readU32 file 80) ≤ uint32Max
    unfold uint32Max
    split_ifs <;> omega
  · show (metaAt file).maxTokenChars = _ ∨ (metaAt file).maxTokenChars =
      (metaAt file).maxInputCharsPerWord
    rw [hmeta, ← hchars]
    exact (ite_eq_or_eq _ _ _).symm

end

end StaticEmbeddings
