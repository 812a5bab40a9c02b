import StaticEmbeddings.Tokenizer.Greedy
import StaticEmbeddings.Tokenizer.Segments

/-!
# Pieces and `[UNK]`

`[UNK]` is a token, but no word of a text has it as one of its pieces.

* `TokenShape`: the words of a text; **`shape_of_mem_items`**.
* `UnkApart`: the tries and the hash table have `[UNK]` under no other string;
  **`unkApart_of_compiled`**.
* **`unk_not_mem_wordPieces`**: an id that is `[UNK]` stands for a word without pieces.
* `compiled_of_writerCall`: a written file.
-/

namespace StaticEmbeddings

open LittleEndian PrefixTree

/-! ## The words of a text -/

/-- A word of the pre-tokenizer, whatever its code points. -/
def TokenShape (m : SeModel) (word : List ℕ) : Prop :=
  (∃ c, word = [c]) ∨ (word ≠ [] ∧ ∀ c ∈ word, isPunct m c = false)

section

variable {m : SeModel}

theorem shape_flushItems {segment : List ℕ} (h : ∀ c ∈ segment, isPunct m c = false) :
    ∀ w, .word w ∈ flushItems segment → TokenShape m w := by
  intro w hw
  unfold flushItems at hw
  split_ifs at hw with hs
  · exact absurd hw List.not_mem_nil
  · obtain rfl := Item.word.inj (List.mem_singleton.mp hw)
    exact .inr ⟨hs, h⟩

theorem shape_step {segment : List ℕ} (h : ∀ c ∈ segment, isPunct m c = false) (e : Feed) :
    (∀ w, .word w ∈ ((segmenter m).step segment e).1 → TokenShape m w) ∧
      ∀ c ∈ ((segmenter m).step segment e).2, isPunct m c = false := by
  have hnil : ∀ c ∈ ([] : List ℕ), isPunct m c = false := fun c hc => absurd hc List.not_mem_nil
  cases e with
  | cp c =>
    simp only [segmenter]
    split_ifs with hws hp
    · exact ⟨shape_flushItems h, hnil⟩
    · refine ⟨fun w hw => ?_, hnil⟩
      rcases List.mem_append.mp hw with hw | hw
      · exact shape_flushItems h w hw
      · exact .inl ⟨c, Item.word.inj (List.mem_singleton.mp hw)⟩
    · refine ⟨fun w hw => absurd hw List.not_mem_nil, fun d hd => ?_⟩
      rcases List.mem_append.mp hd with hd | hd
      · exact h d hd
      · rw [List.mem_singleton.mp hd]
        exact Bool.eq_false_iff.mpr hp
  | added id =>
    refine ⟨fun w hw => ?_, hnil⟩
    rcases List.mem_append.mp hw with hw | hw
    · exact shape_flushItems h w hw
    · cases List.mem_singleton.mp hw

theorem shape_run {segment : List ℕ} (h : ∀ c ∈ segment, isPunct m c = false) (fs : List Feed) :
    (∀ w, .word w ∈ ((segmenter m).run segment fs).1 → TokenShape m w) ∧
      ∀ c ∈ ((segmenter m).run segment fs).2, isPunct m c = false := by
  induction fs generalizing segment with
  | nil => exact ⟨fun w hw => absurd hw List.not_mem_nil, h⟩
  | cons e fs ih =>
    obtain ⟨hstep, hseg⟩ := shape_step h e
    obtain ⟨hrun, hend⟩ := ih hseg
    rw [Transducer.run_cons]
    refine ⟨fun w hw => ?_, hend⟩
    rcases List.mem_append.mp hw with hw | hw
    · exact hstep w hw
    · exact hrun w hw

/-- **The words of a text.** -/
theorem shape_of_mem_items {bs : Bytes} {w : List ℕ} (h : .word w ∈ (items m bs).1) :
    TokenShape m w := by
  have hnil : ∀ c ∈ ([] : List ℕ), isPunct m c = false := fun c hc => absurd hc List.not_mem_nil
  obtain ⟨hrun, hend⟩ := shape_run hnil (feeds m bs).1
  unfold items at h
  split_ifs at h
  · rcases List.mem_append.mp h with h | h
    · exact hrun w h
    · exact shape_flushItems hend w h
  · exact hrun w h

/-! ## No piece is `[UNK]` -/

theorem head_seUtf8Encode {c : ℕ} (h : (seUtf8Encode c).head? = some 0x5B) : c = 0x5B := by
  have hlead : ∀ {a b : ℕ}, 128 ≤ a → a < 256 → (UInt8.ofNat (a ||| b) : UInt8) ≠ 0x5B := by
    intro a b ha ha' he
    have hnat : a ||| b % 256 = 0x5B := by
      have := congrArg UInt8.toNat he
      simpa [Nat.mod_eq_of_lt ha'] using this
    have htest := congrArg (fun n => n.testBit 7) hnat
    have h7 : a.testBit 7 = true := by
      rw [Nat.testBit_eq_decide_div_mod_eq]
      exact decide_eq_true (by omega)
    simp only [Nat.testBit_or, h7, Bool.true_or] at htest
    revert htest
    decide
  unfold seUtf8Encode at h
  split_ifs at h with h₁ h₂ h₃
  · have := congrArg UInt8.toNat (Option.some.inj h)
    rw [UInt8.toNat_ofNat_of_lt' (h₁.trans (by decide))] at this
    exact this
  · exact absurd (Option.some.inj h) (hlead (by norm_num) (by norm_num))
  · exact absurd (Option.some.inj h) (hlead (by norm_num) (by norm_num))
  · exact absurd (Option.some.inj h) (hlead (by norm_num) (by norm_num))

theorem not_prefix_of_shape {word : List ℕ} (h : TokenShape m word) :
    ¬ textUnk <+: wordBytes word := by
  intro hpre
  cases word with
  | nil =>
    have := hpre.length_le
    revert this
    decide
  | cons c rest =>
    have hhead : (seUtf8Encode c).head? = some 0x5B := by
      obtain ⟨suffix, hs⟩ := hpre
      rw [wordBytes_cons] at hs
      have hne := length_seUtf8Encode_pos c
      cases he : seUtf8Encode c with
      | nil =>
        rw [he] at hne
        exact absurd hne (lt_irrefl 0)
      | cons b bs =>
        rw [he] at hs
        exact congrArg some (List.cons.inj hs).1.symm
    obtain rfl := head_seUtf8Encode hhead
    obtain ⟨d, hd⟩ | ⟨-, hp⟩ := h
    · obtain ⟨-, rfl⟩ := List.cons.inj hd
      have := hpre.length_le
      revert this
      decide
    · have := hp 0x5B List.mem_cons_self
      rw [show isPunct m 0x5B = true from rfl] at this
      cases this

/-- The tries and the hash table have `[UNK]` under no other string. -/
structure UnkApart (m : SeModel) : Prop where
  lookup : ∀ bytes, seVocabLookup m bytes = some m.unkId → bytes = textUnk
  root : ∀ input len, m.rootTrie.longest 0 input = some (m.unkId, len) → textUnk <+: input
  cont : ∀ input len, m.contTrie.longest 0 input ≠ some (m.unkId, len)

theorem unk_not_mem_pieceWalk (hu : UnkApart m) {bytes : Bytes} {cps2 : List ℕ} {wordLen : ℕ}
    (h0 : cps2.getD 0 0 = 0) (hpre : ¬ textUnk <+: bytes)
    (start : ℕ) : m.unkId ∉ (pieceWalk m bytes cps2 wordLen start).1 := by
  fun_induction pieceWalk m bytes cps2 wordLen start with
  | case1 | case2 | case4 => exact List.not_mem_nil
  | case3 start hlt id target hm e hbad ih =>
    rw [List.mem_cons, not_or]
    refine ⟨?_, ih⟩
    rintro rfl
    obtain ⟨⟨id, len⟩, hl, he⟩ := Option.map_eq_some_iff.mp hm
    obtain ⟨rfl, -⟩ := Prod.mk.inj he
    unfold pieceTrie at hl
    split_ifs at hl with hs
    · exact hu.cont _ _ hl
    · obtain rfl : start = 0 := Nat.eq_zero_of_not_pos hs
      refine hpre ((hu.root _ _ hl).trans ?_)
      rw [h0, slice, List.drop_zero]
      exact List.take_prefix _ _

/-- **No piece of a word is `[UNK]`.** -/
theorem unk_not_mem_wordPieces (hu : UnkApart m) {word : List ℕ} (hw : TokenShape m word)
    {knownAscii : Bool} (hka : knownAscii = true → ∀ c ∈ word, c < 0x80) :
    m.unkId ∉ (wordPieces m word knownAscii).1 := by
  have hpre := not_prefix_of_shape hw
  unfold wordPieces
  by_cases h0 : word.length = 0
  · rw [if_pos h0]
    exact List.not_mem_nil
  rw [if_neg h0]
  by_cases hlong : word.length > m.maxInputCharsPerWord
  · rw [if_pos hlong]
    exact List.not_mem_nil
  rw [if_neg hlong]
  cases hbuf : wordBuffers word (knownAscii || word.all (· < 0x80)) with
  | none => exact List.not_mem_nil
  | some r =>
    obtain ⟨bytes, cps2⟩ := r
    obtain ⟨rfl, hzero⟩ : bytes = wordBytes word ∧ cps2.getD 0 0 = 0 := by
      unfold wordBuffers at hbuf
      split_ifs at hbuf with hascii
      · have hall : ∀ c ∈ word, c < 0x80 := by
          rw [Bool.or_eq_true, List.all_eq_true] at hascii
          rcases hascii with hascii | hascii
          · exact hka hascii
          · exact fun c hc => of_decide_eq_true (hascii c hc)
        cases hbuf
        refine ⟨(wordBytes_ascii hall 0).1.symm, ?_⟩
        rw [List.getD_eq_getElem?_getD, List.getElem?_range (Nat.succ_pos _), Option.getD_some]
      · cases encodeWord_eq hbuf
        refine ⟨rfl, ?_⟩
        cases word <;> rfl
    dsimp only
    cases hx : (if word.length ≤ m.maxTokenChars then seVocabLookup m (wordBytes word) else none) with
    | none => exact unk_not_mem_pieceWalk hu hzero hpre 0
    | some id =>
      split_ifs at hx
      rw [List.mem_singleton]
      rintro rfl
      exact hpre (hu.lookup _ hx ▸ List.prefix_rfl)

end

/-- **A compiled vocabulary that was loaded** has `[UNK]` under no other string, read back from a
32-bit slot or not. -/
theorem unkApart_of_compiled {tokens : List Bytes} {m : SeModel} (hc : Compiled tokens m)
    (hunk : tokens.idxOf? textUnk = some m.unkId) : UnkApart m := by
  have hat : tokens[m.unkId]? = some textUnk := (idxOf?_eq_some_iff hc.nodup).mp hunk
  have hkey : ∀ bytes, seVocabLookup m bytes = some m.unkId →
      HashTable.hasKey tokens.flatten bytes (HashTable.slotOf tokens m.unkId) = true := by
    intro bytes h
    rw [seVocabLookup, hc.lookup, Option.getD_some, HashTable.firstStored] at h
    exact (List.find?_range_eq_some.mp h).1
  constructor
  · intro bytes h
    obtain ⟨-, hlen, hslice⟩ := of_decide_eq_true (hkey bytes h)
    obtain ⟨-, hlen', hslice'⟩ := of_decide_eq_true (hkey textUnk hc.ok.vocab.unk)
    rw [← hslice, ← hslice', ← hlen, ← hlen']
  · intro input len h
    rw [hc.root] at h
    obtain ⟨-, -, hlookup, -⟩ := longestKey_eq_some_iff.mp h
    have htoken := (WordPieceTrie.mem_rootKeys.mp (mem_of_lookup hlookup)).1
    rw [hat, Option.some.injEq] at htoken
    rw [htoken]
    exact List.take_prefix _ _
  · intro input len h
    rw [hc.cont] at h
    obtain ⟨-, -, hlookup, -⟩ := longestKey_eq_some_iff.mp h
    have htoken := (WordPieceTrie.mem_contKeys.mp (mem_of_lookup hlookup)).1
    rw [hat, Option.some.injEq] at htoken
    have hhead := congrArg List.head? htoken
    rw [List.head?_append_of_ne_nil _ (by decide)] at hhead
    exact absurd hhead (by decide)

theorem runtimeMeta_unkId {profile fmt : FormatMeta} {tokens : List Bytes}
    (h : runtimeMeta profile tokens = some fmt) : tokens.idxOf? textUnk = some fmt.unkId := by
  simp only [runtimeMeta, Option.bind_eq_bind, Option.bind_eq_some_iff] at h
  obtain ⟨_, -, unkId, hunk, _, -, _, -, _, -, ⟨⟩⟩ := h
  rwa [tokenId, Option.or_none] at hunk

/-- **A written file that is accepted** has the vocabulary that was compiled, and `[UNK]` apart. -/
theorem compiled_of_writerCall {sha256 : Bytes → Bytes} {profile fmt : FormatMeta}
    {tokens : List Bytes} {matrix : Payload} {normTables provenance file : Bytes} {m : SeModel}
    (hsha : ∀ bytes, (sha256 bytes).length = checksumSize) (hmatrix : matrix.Honest)
    (hd : tokens.Nodup) (hmeta : runtimeMeta profile tokens = some fmt)
    (hwrite : writerCall sha256 fmt tokens matrix normTables provenance = .ok file)
    (hload : validate file = .ok m) : Compiled tokens m ∧ UnkApart m := by
  obtain ⟨hpre, hchars⟩ := runtimeMeta_spec hmeta
  obtain ⟨hash, tries, chunks, hhash, htries, -, -, -, hw⟩ :=
    written_of_writerCall hsha hmatrix hwrite
  rw [hpre] at htries
  have hc := compiled_of_written hd hhash htries hchars hw hload
  have hunk : m.unkId = fmt.unkId := by
    obtain ⟨-, _, _, _, -, -, -, rfl⟩ := validate_eq_ok_iff.mp hload
    show (metaAt file).unkId = _
    rw [metaAt_written hw]
    rfl
  refine ⟨hc, unkApart_of_compiled hc ?_⟩
  rw [hunk]
  exact runtimeMeta_unkId hmeta

end StaticEmbeddings
