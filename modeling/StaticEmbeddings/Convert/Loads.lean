import StaticEmbeddings.Convert.UnicodeTables
import StaticEmbeddings.Convert.Verifier
import StaticEmbeddings.Tokenizer.UnkPieces

/-!
# Converted files load

The writer and the loader state one format twice. A file that was written for a canonical model is
accepted exactly where the limits of the loader allow it, and is read back unchanged.

* `WordPieceTrie.build_fits`: a trie has at most a node for each byte of the tokens.
* `exists_writerCall`: the writer succeeds.
* `Canonical`: what the importers promise of a model; `Loadable`: the limits of the loader.
* `frontOk_of_written`: header, sections and vocabulary are accepted.
* **`written_loads`**: the loader accepts it within its limits, and has what was written.
-/

namespace StaticEmbeddings

open LittleEndian PrefixTree

/-! ## Sizes of tries -/

namespace Trie

variable {t t' : Trie}

/-- The edges of all nodes. -/
def edgeCount (t : Trie) : ℕ := (t.map fun n => n.children.length).sum

theorem length_edges_packed (t : Trie) : (packed t).edges.length = t.edgeCount := by
  rw [edges_packed, List.length_flatMap]
  exact congrArg List.sum (List.map_congr_left fun n _ => length_nodeEdges n)

theorem edgeCount_modify_le (t : Trie) (node : ℕ) (entry : ℕ × ℕ) :
    (edgeCount (t.modify node fun n => { n with children := n.children ++ [entry] })) ≤
      t.edgeCount + 1 := by
  unfold edgeCount
  induction t generalizing node with
  | nil => cases node <;> exact Nat.zero_le _
  | cons n t ih =>
    cases node with
    | zero =>
      rw [List.modify_zero_cons, List.map_cons, List.map_cons, List.sum_cons, List.sum_cons,
        List.length_append, List.length_singleton]
      omega
    | succ node =>
      have := ih node
      rw [List.modify_succ_cons, List.map_cons, List.map_cons, List.sum_cons, List.sum_cons]
      omega

theorem edgeCount_setTerminal (t : Trie) (node id : ℕ) :
    edgeCount (t.setTerminal node id) = t.edgeCount := by
  unfold edgeCount setTerminal
  induction t generalizing node with
  | nil => cases node <;> rfl
  | cons n t ih =>
    cases node with
    | zero => rfl
    | succ node => rw [List.modify_succ_cons, List.map_cons, List.map_cons, List.sum_cons,
        List.sum_cons, ih node]

/-- Every node but the root has an edge to it, and no other edges. -/
def Treelike (t : Trie) : Prop := t.edgeCount < t.length

theorem treelike_empty : Treelike empty := Nat.one_pos

theorem treelike_appendNode (h : t.Treelike) (node byte : ℕ) : (t.appendNode node byte).Treelike := by
  have hle := edgeCount_modify_le t node (byte, t.length)
  unfold Treelike at h ⊢
  rw [length_appendNode, appendNode]
  unfold edgeCount at hle h ⊢
  rw [List.map_append, List.sum_append]
  simp only [List.map_cons, List.map_nil, List.sum_cons, List.sum_nil, List.length_nil]
  omega

theorem path_size (h : t.Treelike) (node : ℕ) (bytes : Bytes) :
    (t.path node bytes).1.Treelike ∧ (t.path node bytes).1.length ≤ t.length + bytes.length := by
  induction bytes generalizing t node with
  | nil => exact ⟨h, le_rfl⟩
  | cons b bytes ih =>
    rw [path]
    split
    · rename_i next _
      obtain ⟨ht, hl⟩ := ih h next
      exact ⟨ht, hl.trans (Nat.add_le_add_left (Nat.le_succ _) _)⟩
    · obtain ⟨ht, hl⟩ := ih (treelike_appendNode h node b.toNat) t.length
      rw [length_appendNode] at hl
      exact ⟨ht, hl.trans (by rw [List.length_cons]; omega)⟩

theorem insert_size (h : t.Treelike) {bytes : Bytes} {id : ℕ} (hi : t.insert bytes id = .ok t') :
    t'.Treelike ∧ t'.length ≤ t.length + bytes.length := by
  unfold insert at hi
  by_cases hb : bytes = []
  · rw [if_pos hb] at hi
    cases hi
    exact ⟨h, Nat.le_add_right _ _⟩
  · obtain ⟨ht, hl⟩ := path_size h 0 bytes
    rw [if_neg hb] at hi
    dsimp only at hi
    split_ifs at hi
    cases hi
    refine ⟨?_, by rwa [List.length_modify]⟩
    unfold Treelike at ht ⊢
    rw [List.length_modify]
    exact (edgeCount_setTerminal _ _ _).le.trans_lt ht

end Trie

namespace WordPieceTrie

variable {subword : Bytes} {tokens : List Bytes} {root cont root' cont' : Trie}

theorem buildLoop_size (hr : root.Treelike) (hc : cont.Treelike) {id : ℕ}
    (h : buildLoop subword id tokens (root, cont) = .ok (root', cont')) :
    root'.Treelike ∧ cont'.Treelike ∧
      root'.length ≤ root.length + tokens.flatten.length ∧
      cont'.length ≤ cont.length + tokens.flatten.length := by
  induction tokens generalizing id root cont with
  | nil =>
    cases h
    exact ⟨hr, hc, le_rfl, le_rfl⟩
  | cons bytes tokens ih =>
    rw [List.flatten_cons, List.length_append]
    rw [buildLoop] at h
    split_ifs at h
    · obtain ⟨cont₁, hins, h⟩ := bind_eq_ok.mp h
      obtain ⟨hc₁, hl₁⟩ := Trie.insert_size hc hins
      obtain ⟨h₁, h₂, h₃, h₄⟩ := ih hr hc₁ h
      rw [List.length_drop] at hl₁
      exact ⟨h₁, h₂, by omega, by omega⟩
    · obtain ⟨root₁, hins, h⟩ := bind_eq_ok.mp h
      obtain ⟨hr₁, hl₁⟩ := Trie.insert_size hr hins
      obtain ⟨h₁, h₂, h₃, h₄⟩ := ih hr₁ hc h
      exact ⟨h₁, h₂, by omega, by omega⟩

/-- A trie whose counts fit into 32 bits. -/
def Fits (t : Trie) : Prop := t.length < 2 ^ 32 ∧ (Trie.packed t).edges.length < 2 ^ 32

/-- **Tokens of fewer than `2 ^ 32 - 1` bytes in total make small tries.** -/
theorem build_fits {tries : Trie × Trie} (h : build tokens subword = .ok tries)
    (hbytes : tokens.flatten.length + 1 < 2 ^ 32) : Fits tries.1 ∧ Fits tries.2 := by
  obtain ⟨root, cont⟩ := tries
  obtain ⟨hr, hc, hlr, hlc⟩ := buildLoop_size Trie.treelike_empty Trie.treelike_empty h
  have hone : Trie.empty.length = 1 := rfl
  unfold Trie.Treelike at hr hc
  unfold Fits
  rw [Trie.length_edges_packed, Trie.length_edges_packed]
  dsimp only
  exact ⟨⟨by omega, by omega⟩, ⟨by omega, by omega⟩⟩

end WordPieceTrie

/-! ## Files that are written -/

theorem layout_le (payloads : List Payload) (offset : ℕ) :
    ∀ sec ∈ (layout offset payloads).1,
      sec.1 + sec.2 ≤ offset + (payloads.map fun p => 63 + p.bytesize).sum := by
  induction payloads generalizing offset with
  | nil => exact fun sec h => absurd h List.not_mem_nil
  | cons payload rest ih =>
    have hpad : aligned offset ≤ offset + 63 := by
      unfold aligned alignment
      omega
    rw [layout_cons, List.map_cons, List.sum_cons]
    refine List.forall_mem_cons.mpr ⟨?_, fun sec hsec => ?_⟩
    · dsimp only
      omega
    · have := ih (aligned offset + payload.bytesize) sec hsec
      omega

theorem writePayloads_ok {payloads : List Payload} (h : ∀ p ∈ payloads, ∃ cs, p.chunks = .ok cs)
    (offset start : ℕ) : ∃ rest, writePayloads offset (layout start payloads).1 payloads = .ok rest := by
  induction payloads generalizing offset start with
  | nil => exact ⟨[], rfl⟩
  | cons payload payloads ih =>
    obtain ⟨cs, hcs⟩ := h payload List.mem_cons_self
    obtain ⟨rest, hrest⟩ := ih (fun p hp => h p (List.mem_cons_of_mem _ hp))
      (aligned start + payload.bytesize) (aligned start + payload.bytesize)
    rw [layout_cons, writePayloads]
    exact ⟨_, bind_eq_ok.mpr ⟨cs, hcs, bind_eq_ok.mpr ⟨rest, hrest, rfl⟩⟩⟩

/-- **The writer succeeds** where the header fields fit and the payload can be read. -/
theorem exists_writerCall {sha256 : Bytes → Bytes} {fmt : FormatMeta} {tokens : List Bytes}
    {hash : HashTable.Built} {tries : Trie × Trie} {matrix : Payload} {chunks : List Bytes}
    {normTables provenance : Bytes} (hhash : HashTable.build tokens = .ok hash)
    (htries : WordPieceTrie.build tokens fmt.subwordPrefix = .ok tries)
    (hchunks : matrix.chunks = .ok chunks) (hsub : fmt.subwordPrefix.length ≤ 8)
    (hfields : ∀ f ∈ headerFields fmt tokens.length hash.size hash.maxProbe, f.2 ≤ uint32Max)
    (hsize : headerSize + ((payloadsOf hash tries matrix normTables provenance).map fun p =>
      63 + p.bytesize).sum ≤ 2 ^ 64 - 1) :
    ∃ file, writerCall sha256 fmt tokens matrix normTables provenance = .ok file := by
  have hpayloads : ∀ p ∈ payloadsOf hash tries matrix normTables provenance,
      ∃ cs, p.chunks = .ok cs := by
    simp only [payloadsOf, List.forall_mem_cons]
    exact ⟨⟨_, rfl⟩, ⟨_, rfl⟩, ⟨chunks, hchunks⟩, ⟨_, rfl⟩, ⟨_, rfl⟩, ⟨_, rfl⟩, ⟨_, rfl⟩,
      fun p hp => absurd hp List.not_mem_nil⟩
  obtain ⟨rest, hrest⟩ := writePayloads_ok hpayloads headerSize headerSize
  refine ⟨_, writerCall_eq_ok_iff.mpr ⟨hash, tries, hhash, htries, _, rfl, ⟨hfields, hsub, ?_⟩, rest,
    hrest, _, rfl, rfl⟩⟩
  intro f hf
  have := layout_le _ headerSize f.2 (List.of_mem_zip hf).2
  omega

/-! ## Canonical models -/

/-- What the importers promise of the vocabulary and the header fields. -/
structure Canonical (fmt : FormatMeta) (tokens : List Bytes) : Prop where
  nodup : tokens.Nodup
  unk : tokens.idxOf? textUnk = some fmt.unkId
  subword : fmt.subwordPrefix = continuingSubwordPrefix
  dim : 0 < fmt.dim
  normalization : fmt.normalizationType = 0 ∨ fmt.normalizationType = 1
  truncation : fmt.truncationPolicy = truncateUsableIds ∨ fmt.truncationPolicy = truncateRawIds
  specials : fmt.addSpecialTokens = false
  unkPolicy : fmt.unkPolicy = unkInclude ∨ fmt.unkPolicy = unkDrop
  emptyPolicy : fmt.emptyPolicy = emptyZeroVector ∨ fmt.emptyPolicy = emptyRaise
  cleanText : fmt.cleanText = true
  mask : fmt.addedTokenMask < 32
  added : ∀ t ∈ recordedAddedTokens (writtenMeta fmt 0 0 0), fmt.addedTokenMask &&& t.1 ≠ 0 →
    tokens[t.2.2.2]? = some t.2.2.1

/-- The limits of the loader that the converter does not check. -/
structure Loadable (fmt : FormatMeta) (tokens : List Bytes) (tries : Trie × Trie) : Prop where
  dim : fmt.dim ≤ 2 ^ 20
  unk : HashTable.firstStored tokens textUnk = some fmt.unkId
  added : ∀ t ∈ recordedAddedTokens (writtenMeta fmt 0 0 0), fmt.addedTokenMask &&& t.1 ≠ 0 →
    HashTable.firstStored tokens t.2.2.1 = some t.2.2.2
  root : WordPieceTrie.Fits tries.1
  cont : WordPieceTrie.Fits tries.2

section

variable {fmt : FormatMeta} {tokens : List Bytes} {hash : HashTable.Built} {tries : Trie × Trie}
  {matrix normTables provenance file : Bytes}

theorem Canonical.pos (hc : Canonical fmt tokens) : 0 < tokens.length :=
  List.length_pos_of_mem (mem_of_idxOf? hc.unk)

theorem load_of_build (hpos : 0 < tokens.length) (hlt : tokens.length < 2 ^ 32)
    (hb : HashTable.build tokens = .ok hash) :
    tokens.length < hash.size ∧ tokens.length * 100 ≤ hash.size * 70 := by
  obtain ⟨hload, -⟩ := sizeFor_spec hpos hlt
  obtain ⟨k, hk, hge, -⟩ := nextPowerOfTwo_spec (show 0 < sizeFor tokens.length by omega)
  obtain ⟨st, -, he⟩ := bind_eq_ok.mp hb
  have hsize : hash.size = 2 ^ k := by rw [← Except.ok.inj he, ← hk]
  exact ⟨by omega, by omega⟩

/-- **Enough room for the slots**: tokens of fewer than `2 ^ 32 - 1` bytes in total are loadable. -/
theorem loadable_of_small (hc : Canonical fmt tokens) {size : ℕ} (hf : HashTable.Fits tokens size)
    (htries : WordPieceTrie.build tokens fmt.subwordPrefix = .ok tries) (hdim : fmt.dim ≤ 2 ^ 20)
    (hbytes : tokens.flatten.length + 1 < 2 ^ 32) : Loadable fmt tokens tries := by
  have hstored : ∀ {bytes : Bytes} {i : ℕ}, tokens[i]? = some bytes →
      HashTable.firstStored tokens bytes = some i := by
    intro bytes i h
    obtain ⟨hi, rfl⟩ := List.getElem?_eq_some_iff.mp h
    exact HashTable.firstStored_getElem hf (by omega) hi
  obtain ⟨hroot, hcont⟩ := WordPieceTrie.build_fits htries hbytes
  exact ⟨hdim, hstored ((idxOf?_eq_some_iff hc.nodup).mp hc.unk),
    fun t ht hm => hstored (hc.added t ht hm), hroot, hcont⟩

/-! ## The checks of the loader -/

theorem metaOk_writtenMeta (hc : Canonical fmt tokens) (hdim : fmt.dim ≤ 2 ^ 20)
    (hload : tokens.length < hash.size ∧ tokens.length * 100 ≤ hash.size * 70)
    (hpow : ∃ k, hash.size = 2 ^ k) (hprobe : 0 < hash.maxProbe ∧ hash.maxProbe ≤ hash.size) :
    MetaOk (writtenMeta fmt tokens.length hash.size hash.maxProbe) := by
  have hbit : ∀ b : Bool, (if b then 1 else 0 : ℕ) ≤ 1 := by decide
  have hmask : ∀ n : Fin 32, (n : ℕ) &&& (uint32Max - addedTokenMaskAll) = 0 := by decide
  have hunk : fmt.unkId < tokens.length := by
    have hget := (idxOf?_eq_some_iff hc.nodup).mp hc.unk
    exact (List.getElem?_eq_some_iff.mp hget).1
  obtain ⟨k, hk⟩ := hpow
  exact {
    tokenizerType := rfl
    embeddingDtype := rfl
    poolingType := rfl
    normalizationType := hc.normalization
    truncationPolicy := hc.truncation
    addSpecialTokens := by rw [writtenMeta, hc.specials]; rfl
    unkPolicy := hc.unkPolicy
    addedTokenMask := hmask ⟨_, hc.mask⟩
    emptyPolicy := hc.emptyPolicy
    flags := ⟨hbit _, hbit _, hbit _⟩
    cleanText := by rw [writtenMeta, hc.cleanText]; rfl
    dim := ⟨hc.dim, hdim⟩
    vocabSize := hc.pos
    hashTableSize := by
      refine ⟨Nat.zero_lt_of_lt hload.1, ?_⟩
      show hash.size &&& (hash.size - 1) = 0
      rw [HashTable.and_mask hk, Nat.mod_self]
    load := hload
    maxProbe := hprobe
    subwordPrefixLen := by
      show fmt.subwordPrefix.length ≤ 8
      rw [hc.subword]
      decide
    unkId := hunk }

theorem Section.HoldsAt.ok {s : Section} {bytes : Bytes} (h : s.HoldsAt file bytes) {elemSize : ℕ}
    (he : elemSize = 0 ∨ bytes.length % elemSize = 0) : sectionOk s file.length elemSize := by
  have hoff := h.off
  have hinside := h.inside
  unfold headerSize at hoff
  refine .inr ⟨hoff, h.aligned, by omega, by omega, ?_⟩
  rwa [h.size]

theorem sectionsOverlap_of_le {a b : Section} (h : a.off + a.size ≤ b.off) :
    sectionsOverlap a b = false := by
  unfold sectionsOverlap
  rw [Bool.and_eq_false_iff]
  exact .inr (decide_eq_false (not_lt.mpr h))

theorem sectionsOk_of_written {fields : SeMeta} {parts : Contents} (hw : Written fields parts file)
    (hhash : parts.hash.length % 16 = 0) (hmatrix : parts.matrix.length % 4 = 0) :
    (readSections file).Ok file.length ∧
      (readSections file).toList.Pairwise fun a b => sectionsOverlap a b = false :=
  ⟨⟨hw.vocabStrings.ok (.inl rfl), hw.vocabHash.ok (.inr hhash), hw.embeddings.ok (.inr hmatrix),
    hw.norm.ok (.inl rfl), hw.provenance.ok (.inl rfl), hw.rootTrie.ok (.inl rfl),
    hw.contTrie.ok (.inl rfl)⟩, hw.apart.imp sectionsOverlap_of_le⟩

/-- **Header, sections and vocabulary are accepted** where the lookups find the literals. -/
theorem frontOk_of_written (hc : Canonical fmt tokens) (hdim : fmt.dim ≤ 2 ^ 20)
    (hhash : HashTable.build tokens = .ok hash) (hsize : hash.size ≤ uint32Max)
    (hload : tokens.length < hash.size ∧ tokens.length * 100 ≤ hash.size * 70)
    (hrows : matrix.length = tokens.length * fmt.dim * 4)
    (hw : Written (writtenMeta fmt tokens.length hash.size hash.maxProbe)
      (contentsOf hash tries matrix normTables provenance) file)
    (hunk : HashTable.firstStored tokens textUnk = some fmt.unkId)
    (hadded : ∀ t ∈ recordedAddedTokens (writtenMeta fmt 0 0 0), fmt.addedTokenMask &&& t.1 ≠ 0 →
      HashTable.firstStored tokens t.2.2.1 = some t.2.2.2) : FrontOk file := by
  obtain ⟨hpow, st, hinv, hslots, hstrings, hprobe⟩ := vocab_of_written hc.nodup hhash hload.1 hw
  have hcount : tokens.length < slotEmpty := hload.1.trans_le hsize
  have hfits : HashTable.Fits tokens hash.size := ⟨hc.nodup, hcount, hpow⟩
  have hmeta := metaAt_written hw
  have hblob : hash.blob.length = hash.size * 16 := by
    obtain ⟨-, st', hinv', he⟩ := HashTable.build_eq_ok hc.nodup hhash hload.1.le
    rw [he, HashTable.pack, length_flatMap_const fun s => HashTable.length_packSlot _, hinv'.length,
      Nat.mul_comm]
  have hlookup : ∀ bytes, seVocabLookup (vocabModelAt file) bytes =
      HashTable.firstStored tokens bytes := by
    intro bytes
    rw [seVocabLookup, lookup_of_written hc.nodup hhash hload.1 hcount hw rfl rfl rfl,
      Option.getD_some]
  obtain ⟨hok, hfilled⟩ := HashTable.checkVocabSlots_built hinv hfits
  have hprobes := HashTable.probesOk_built hinv hfits
  obtain ⟨hsections, hapart⟩ := sectionsOk_of_written hw (by
      show hash.blob.length % 16 = 0
      rw [hblob, Nat.mul_mod_left]) (by
      show matrix.length % 4 = 0
      rw [hrows, Nat.mul_mod_left])
  have hvocab : (vocabModelAt file).vocabSize = tokens.length := by
    show (metaAt file).vocabSize = _
    rw [hmeta]
    rfl
  exact {
    length := hw.length
    magic := hw.magic
    version := hw.version
    headerSize := hw.headerSize
    fields := by
      rw [hw.fields]
      refine metaOk_writtenMeta hc hdim hload hpow ?_
      rw [hprobe]
      exact ⟨hinv.maxProbe_pos hc.pos, hinv.maxProbe_le⟩
    sections := hsections
    apart := hapart
    hashSize := by
      rw [hw.vocabHash.size, hw.fields]
      exact hblob
    embeddingsSize := by
      rw [hw.embeddings.size, hw.fields]
      exact hrows
    vocab := {
      slots := by
        rw [hvocab, hslots, hstrings]
        exact hok
      filled := by
        rw [hvocab, hslots]
        exact hfilled
      unk := by
        rw [hlookup, hunk]
        show some fmt.unkId = some (metaAt file).unkId
        rw [hmeta]
        rfl
      added := by
        intro t ht hmask
        change t ∈ recordedAddedTokens (metaAt file) at ht
        change (metaAt file).addedTokenMask &&& t.1 ≠ 0 at hmask
        rw [hmeta] at ht hmask
        rw [hvocab, hlookup]
        exact ⟨(List.getElem?_eq_some_iff.mp (hc.added t ht hmask)).1, hadded t ht hmask⟩ }
    probes := by
      rw [hslots, hw.fields]
      show ProbesOk (hash.size - 1) hash.maxProbe 0 _
      rw [hprobe]
      exact hprobes }

end

/-! ## What is read back -/

/-- The model has what was written. -/
structure ReadBack (fmt : FormatMeta) (tokens : List Bytes) (hash : HashTable.Built)
    (tries : Trie × Trie) (matrix : Bytes) (t : UnicodeTables) (provenance : Bytes) (m : SeModel) :
    Prop where
  fields : m.toSeMeta = clampMeta (writtenMeta fmt tokens.length hash.size hash.maxProbe)
  strings : m.vocabStrings = tokens.flatten
  hash : m.vocabHash = recordsAt 16 SeVocabSlot.read hash.blob 0 hash.size
  lookup : ∀ bytes, seVocabLookup m bytes = HashTable.firstStored tokens bytes
  embeddings : m.embeddings = matrix
  norm : m.norm = t.toNormTables
  provenance : m.provenance = if provenance = [] then none else some provenance
  root : m.rootTrie = Trie.packed tries.1
  cont : m.contTrie = Trie.packed tries.2

section

variable {fmt : FormatMeta} {tokens : List Bytes} {hash : HashTable.Built} {tries : Trie × Trie}
  {matrix normTables provenance file : Bytes} {t : UnicodeTables}

theorem parseNormTables_written {fields : SeMeta} {parts : Contents} (hw : Written fields parts file)
    (hparts : parts.norm = t.pack) (hpack : t.Packable) (hnorm : NormTablesOk t.toNormTables) :
    parseNormTables file (readSections file).norm = .ok t.toNormTables := by
  have hholds := hw.norm.holds
  rw [hparts] at hholds
  obtain ⟨hat, hsize⟩ := UnicodeTables.normTablesAt_pack hpack hholds
  refine parseNormTables_eq_ok_iff.mpr ⟨hnorm, .inr ⟨?_, hat.symm⟩⟩
  rw [hsize, hw.norm.size, hparts]

/-- **What the loader has of a written file**, if it accepts it. -/
theorem readBack_of_written {m : SeModel} (hc : Canonical fmt tokens)
    (hhash : HashTable.build tokens = .ok hash)
    (htries : WordPieceTrie.build tokens fmt.subwordPrefix = .ok tries)
    (hload : tokens.length < hash.size) (hcount : tokens.length < slotEmpty)
    (hpack : t.Packable) (hnorm : NormTablesOk t.toNormTables)
    (hw : Written (writtenMeta fmt tokens.length hash.size hash.maxProbe)
      (contentsOf hash tries matrix t.pack provenance) file) (hm : validate file = .ok m) :
    ReadBack fmt tokens hash tries matrix t provenance m ∧ WordPieceTrie.Fits tries.1 ∧
      WordPieceTrie.Fits tries.2 := by
  obtain ⟨-, root, cont, norm, hroot, hcont, hnorm', rfl⟩ := validate_eq_ok_iff.mp hm
  have hstrings : hash.strings = tokens.flatten := by
    obtain ⟨-, st, -, he⟩ := HashTable.build_eq_ok hc.nodup hhash hload.le
    exact congrArg HashTable.Built.strings he
  obtain ⟨root', cont', label₁, label₂, hbuild, hwf₁, hwf₂, -, -⟩ :=
    @WordPieceTrie.build_spec fmt.subwordPrefix tokens hc.nodup _ hcount.le le_rfl
  rw [htries] at hbuild
  cases hbuild
  have hfits₁ := Trie.fits_of_parseTrie hw.rootTrie.size hw.rootTrie.holds hroot
  have hfits₂ := Trie.fits_of_parseTrie hw.contTrie.size hw.contTrie.holds hcont
  rw [hw.fields] at hroot hcont
  rw [parseNormTables_written hw rfl hpack hnorm] at hnorm'
  have hpacked₁ := Trie.parseTrie_pack hwf₁ hcount.le hfits₁.1 hfits₁.2 hw.rootTrie.size
    hw.rootTrie.holds "root"
  have hpacked₂ := Trie.parseTrie_pack hwf₂ hcount.le hfits₂.1 hfits₂.2 hw.contTrie.size
    hw.contTrie.holds "continuation"
  have hrecords : (vocabModelAt file).vocabHash =
      recordsAt 16 SeVocabSlot.read hash.blob 0 hash.size := by
    obtain ⟨-, st, hinv, he⟩ := HashTable.build_eq_ok hc.nodup hhash hload.le
    have hholds : Holds file _ hash.blob := hw.vocabHash.holds
    have hblob : hash.blob = HashTable.pack st.slots := congrArg HashTable.Built.blob he
    have hsize : (metaAt file).hashTableSize = st.slots.length := by
      rw [metaAt_written hw, hinv.length]
      rfl
    show recordsAt 16 SeVocabSlot.read file _ (metaAt file).hashTableSize = _
    rw [hblob] at hholds ⊢
    rw [hsize, HashTable.recordsAt_pack hholds, ← hinv.length,
      HashTable.recordsAt_pack (holds_self _)]
  refine ⟨?_, hfits₁, hfits₂⟩
  constructor
  · exact metaAt_written hw
  · exact hw.vocabStrings.bytes_eq.trans hstrings
  · exact hrecords
  · intro bytes
    refine (congrArg (Option.getD · none)
      (lookup_of_written hc.nodup hhash hload hcount hw ?_ ?_ ?_ bytes)).trans (Option.getD_some ..)
    · rfl
    · rfl
    · rfl
  · exact hw.embeddings.bytes_eq
  · exact (Except.ok.inj hnorm').symm
  · show (if (readSections file).provenance.size = 0 then none else _) = _
    rw [hw.provenance.bytes_eq, hw.provenance.size]
    exact if_congr List.length_eq_zero_iff rfl rfl
  · exact (Except.ok.inj (hpacked₁.symm.trans hroot)).symm
  · exact (Except.ok.inj (hpacked₂.symm.trans hcont)).symm

/-- **A written file**: the loader accepts it within its limits, which small tokens keep, and has what
was written. -/
theorem written_loads {sha256 : Bytes → Bytes} {payload : Payload}
    (hsha : ∀ bytes, (sha256 bytes).length = checksumSize) (hmatrix : payload.Honest)
    (hc : Canonical fmt tokens) (hrows : payload.bytesize = tokens.length * fmt.dim * 4)
    (hpack : t.Packable) (hnorm : NormTablesOk t.toNormTables)
    (hwrite : writerCall sha256 fmt tokens payload t.pack provenance = .ok file) :
    ∃ hash tries chunks, HashTable.build tokens = .ok hash ∧
      WordPieceTrie.build tokens fmt.subwordPrefix = .ok tries ∧ payload.chunks = .ok chunks ∧
      ((∃ m, validate file = .ok m) ↔ Loadable fmt tokens tries) ∧
      (fmt.dim ≤ 2 ^ 20 → tokens.flatten.length + 1 < 2 ^ 32 → Loadable fmt tokens tries) ∧
      ∀ m, validate file = .ok m → ReadBack fmt tokens hash tries chunks.flatten t provenance m := by
  obtain ⟨hash, tries, chunks, hhash, htries, hchunks, -, hfields, hw⟩ :=
    written_of_writerCall hsha hmatrix hwrite
  simp only [headerFields, List.forall_mem_cons] at hfields
  obtain ⟨-, -, -, -, -, -, -, -, -, -, -, -, -, -, -, -, -, -, -, -, -, -, -, -, hvocab, hsize, -⟩ :=
    hfields
  have hload := load_of_build hc.pos (Nat.lt_succ_of_le hvocab) hhash
  have hcount : tokens.length < slotEmpty := hload.1.trans_le hsize
  have hpow := (HashTable.build_eq_ok hc.nodup hhash hload.1.le).1
  have hbytes : chunks.flatten.length = tokens.length * fmt.dim * 4 :=
    (hmatrix chunks hchunks).trans hrows
  have hback := fun m hm =>
    @readBack_of_written fmt tokens hash tries _ provenance file t m hc hhash htries hload.1 hcount
      hpack hnorm hw hm
  refine ⟨hash, tries, chunks, hhash, htries, hchunks, ⟨?_, fun hl => ?_⟩,
    fun hdim hsmall => loadable_of_small hc ⟨hc.nodup, hcount, hpow⟩ htries hdim hsmall,
    fun m hm => (hback m hm).1⟩
  · rintro ⟨m, hm⟩
    obtain ⟨hread, hroot, hcont⟩ := hback m hm
    have hok := (modelOk_of_validate hm)
    have hvocabOk : VocabHashOk m := hok.vocab
    have hdim := hok.fields.dim.2
    have hunk := hvocabOk.unk
    have hadded := hvocabOk.added
    unfold AddedTokensOk at hadded
    rw [hread.lookup, hread.fields] at hunk
    rw [hread.fields] at hdim hadded
    refine ⟨hdim, hunk, fun u hu hmask => ?_, hroot, hcont⟩
    have := (hadded u hu hmask).2
    rwa [hread.lookup] at this
  · obtain ⟨root', cont', label₁, label₂, hbuild, hwf₁, hwf₂, -, -⟩ :=
      @WordPieceTrie.build_spec fmt.subwordPrefix tokens hc.nodup _ hcount.le le_rfl
    rw [htries] at hbuild
    cases hbuild
    have hfront := frontOk_of_written hc hl.dim hhash hsize hload hbytes hw hl.unk hl.added
    refine ⟨_, validate_eq_ok_iff.mpr ⟨hfront, Trie.packed root', Trie.packed cont', _, ?_, ?_,
      parseNormTables_written hw rfl hpack hnorm, rfl⟩⟩
    · rw [hw.fields]
      exact Trie.parseTrie_pack hwf₁ hcount.le hl.root.1 hl.root.2 hw.rootTrie.size
        hw.rootTrie.holds "root"
    · rw [hw.fields]
      exact Trie.parseTrie_pack hwf₂ hcount.le hl.cont.1 hl.cont.2 hw.contTrie.size
        hw.contTrie.holds "continuation"

end

end StaticEmbeddings
