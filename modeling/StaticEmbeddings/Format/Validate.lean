import StaticEmbeddings.Format.Model

/-!
# The loader

`validate` of `se_format.c`, check by check in the order of the source, on a little-endian host.

* `Section`, `sectionOk`, `validateNoOverlaps`.
* `parseTrie`, `parseNormTables`, `validateVocabHash`, `validateHashProbeLimits`.
* `readMeta`, `checkMeta`, **`validate`**: the model of an accepted file.
-/

namespace StaticEmbeddings

open LittleEndian

/-- `read_u32`. -/
def readU32 (base : Bytes) (off : ℕ) : ℕ := (u32? base off).getD 0

/-- `read_u64`. -/
def readU64 (base : Bytes) (off : ℕ) : ℕ := (u64? base off).getD 0

theorem readU32_lt (base : Bytes) (off : ℕ) : readU32 base off < 2 ^ 32 := by
  unfold readU32
  rcases h : u32? base off with _ | v
  · norm_num
  · exact u32?_lt h

/-- `count` records of `size` bytes from `off` on, as a C array of that record type. -/
def recordsAt {α : Type} (size : ℕ) (read : Bytes → ℕ → α) (base : Bytes) (off count : ℕ) :
    List α :=
  (List.range count).map fun i => read base (off + size * i)

/-- A `se_vocab_slot_t` at an address. -/
def SeVocabSlot.read (base : Bytes) (off : ℕ) : SeVocabSlot where
  hash := readU32 base off
  strOff := readU32 base (off + 4)
  strLen := readU32 base (off + 8)
  tokenId := readU32 base (off + 12)

/-- A `se_trie_node_t` at an address. -/
def SeTrieNode.read (base : Bytes) (off : ℕ) : SeTrieNode where
  edgeStart := readU32 base off
  edgeCount := readU32 base (off + 4)
  tokenId := readU32 base (off + 8)
  reserved := readU32 base (off + 12)

/-- A `se_trie_edge_t` at an address. -/
def SeTrieEdge.read (base : Bytes) (off : ℕ) : SeTrieEdge where
  byte := readU32 base off
  child := readU32 base (off + 4)

/-- A `se_map_entry_t` at an address. -/
def SeMapEntry.read (base : Bytes) (off : ℕ) : SeMapEntry where
  cp := readU32 base off
  len := readU32 base (off + 4)
  out := [readU32 base (off + 8), readU32 base (off + 12), readU32 base (off + 16),
    readU32 base (off + 20)]

/-- A `se_range_t` at an address. -/
def SeRange.read (base : Bytes) (off : ℕ) : SeRange where
  lo := readU32 base off
  hi := readU32 base (off + 4)

/-- `se_error_set(err, SE_ERR_INVALID_FORMAT, …)` under a guard. -/
abbrev failFormat (bad : Prop) [Decidable bad] (message : String) : Except SeError Unit :=
  failIf bad .errInvalidFormat message

/-! ## Sections -/

/-- `struct section`. -/
structure Section where
  off : ℕ
  size : ℕ
  name : String
  deriving DecidableEq, Repr

/-- `section_present`. -/
def sectionPresent (s : Section) : Prop := s.off ≠ 0 ∨ s.size ≠ 0

instance : DecidablePred sectionPresent := fun _ => by unfold sectionPresent; infer_instance

/-- `section_ok`. -/
def sectionOk (s : Section) (fileSize elemSize : ℕ) : Prop :=
  ¬ sectionPresent s ∨ (320 ≤ s.off ∧ s.off % 64 = 0 ∧ s.size ≤ fileSize ∧
    s.off ≤ fileSize - s.size ∧ (elemSize = 0 ∨ s.size % elemSize = 0))

instance (s : Section) (fileSize elemSize : ℕ) : Decidable (sectionOk s fileSize elemSize) := by
  unfold sectionOk; infer_instance

/-- `read_section`. -/
def readSection (base : Bytes) (off : ℕ) (name : String) : Section where
  off := readU64 base off
  size := readU64 base (off + 8)
  name := name

/-- `sections_overlap`. -/
def sectionsOverlap (a b : Section) : Bool :=
  sectionPresent a && sectionPresent b && a.off < b.off + b.size && b.off < a.off + a.size

/-- `validate_no_overlaps`. -/
def validateNoOverlaps : List Section → Except SeError Unit
  | [] => .ok ()
  | s :: rest =>
    match rest.find? (sectionsOverlap s) with
    | some t => .error ⟨.errInvalidFormat, s!"sections {s.name} and {t.name} overlap"⟩
    | none => validateNoOverlaps rest

/-! ## Tries -/

/-- The edge loop of `parse_trie` over the edges of one node. -/
def checkTrieEdges (nodeCount : ℕ) (name : String) : Option ℕ → List SeTrieEdge →
    Except SeError Unit
  | _, [] => .ok ()
  | prev, edge :: rest => do
    failFormat (edge.byte > 255 ∨ edge.child ≥ nodeCount) s!"{name} trie edge out of range"
    failFormat (∃ p ∈ prev, edge.byte ≤ p) s!"{name} trie edges are not strictly sorted"
    checkTrieEdges nodeCount name (some edge.byte) rest

/-- The node loop of `parse_trie`, from node `i` on. -/
def checkTrieNodes (nodeCount vocabSize : ℕ) (edges : List SeTrieEdge) (name : String) :
    ℕ → List SeTrieNode → Except SeError Unit
  | _, [] => .ok ()
  | i, node :: rest => do
    failFormat (node.tokenId ≠ slotEmpty ∧ node.tokenId ≥ vocabSize)
      s!"{name} trie node {i} has token id out of range"
    failFormat (node.edgeStart > edges.length ∨ node.edgeCount > edges.length - node.edgeStart)
      s!"{name} trie node {i} edges out of range"
    checkTrieEdges nodeCount name none ((edges.drop node.edgeStart).take node.edgeCount)
    checkTrieNodes nodeCount vocabSize edges name (i + 1) rest

/-- `parse_trie`. -/
def parseTrie (base : Bytes) (sec : Section) (vocabSize : ℕ) (name : String) :
    Except SeError SeTrie := do
  failFormat (sec.size < 16) s!"{name} trie section too small"
  let nodeCount := readU32 base sec.off
  let edgeCount := readU32 base (sec.off + 4)
  failFormat (nodeCount = 0) s!"{name} trie has no root node"
  failFormat (16 + nodeCount * 16 + edgeCount * 8 ≠ sec.size) s!"{name} trie size mismatch"
  let nodes := recordsAt 16 SeTrieNode.read base (sec.off + 16) nodeCount
  let edges := recordsAt 8 SeTrieEdge.read base (sec.off + 16 + nodeCount * 16) edgeCount
  checkTrieNodes nodeCount vocabSize edges name 0 nodes
  return ⟨nodes, edges⟩

/-! ## Normalization tables -/

/-- `valid_unicode_codepoint`. -/
def validUnicodeCodepoint (cp : ℕ) : Prop := cp ≤ 0x10FFFF ∧ ¬ (cp ≥ 0xD800 ∧ cp ≤ 0xDFFF)

instance : DecidablePred validUnicodeCodepoint := fun _ => by
  unfold validUnicodeCodepoint; infer_instance

/-- The loop of `validate_norm_map` over the outputs of entry `i`, from output `k` on. -/
def checkMapOutputs (name : String) (i : ℕ) : ℕ → List ℕ → Except SeError Unit
  | _, [] => .ok ()
  | k, c :: rest => do
    failFormat (¬ validUnicodeCodepoint c)
      s!"{name} map entry {i} output {k} is not a valid codepoint"
    checkMapOutputs name i (k + 1) rest

/-- `validate_norm_map`, from entry `i` on. -/
def validateNormMap (name : String) : ℕ → Option ℕ → List SeMapEntry → Except SeError Unit
  | _, _, [] => .ok ()
  | i, prev, entry :: rest => do
    failFormat (entry.len > 4) s!"{name} map entry {i} has len {entry.len}"
    failFormat (¬ validUnicodeCodepoint entry.cp) s!"{name} map entry {i} has invalid codepoint"
    checkMapOutputs name i 0 (entry.out.take entry.len)
    failFormat (∃ p ∈ prev, entry.cp ≤ p) s!"{name} map is not strictly sorted"
    validateNormMap name (i + 1) (some entry.cp) rest

/-- `validate_norm_ranges`, from range `i` on. -/
def validateNormRanges (name : String) : ℕ → Option ℕ → List SeRange → Except SeError Unit
  | _, _, [] => .ok ()
  | i, prev, range :: rest => do
    failFormat (¬ validUnicodeCodepoint range.hi) s!"{name} range {i} exceeds the Unicode range"
    failFormat (range.lo > range.hi) s!"{name} range {i} is inverted"
    failFormat (∃ p ∈ prev, range.lo ≤ p) s!"{name} ranges overlap or are unsorted"
    validateNormRanges name (i + 1) (some range.hi) rest

/-- `fill_map256`. -/
def fillMap256 (entries : List SeMapEntry) : List (Option SeMapEntry) :=
  entries.foldl (fun out e => if e.cp < 256 then out.set e.cp (some e) else out)
    (List.replicate 256 none)

/-- `fill_range256`. -/
def fillRange256 (ranges : List SeRange) : List Bool :=
  ranges.foldl (fun out r =>
      if r.lo > 255 then out
      else (List.range' r.lo (min r.hi 255 + 1 - r.lo)).foldl (fun out cp => out.set cp true) out)
    (List.replicate 256 false)

/-- `prepare_norm_fast_tables`. -/
def prepareNormFastTables (lower nfd : List SeMapEntry)
    (mn punct control whitespace : List SeRange) : SeNormTables where
  lower := lower
  nfd := nfd
  mn := mn
  punct := punct
  control := control
  whitespace := whitespace
  lower256 := fillMap256 lower
  nfd256 := fillMap256 nfd
  mn256 := fillRange256 mn
  punct256 := fillRange256 punct
  control256 := fillRange256 control
  whitespace256 := fillRange256 whitespace

/-- `parse_norm_tables`; an empty section leaves every table empty. -/
def parseNormTables (base : Bytes) (sec : Section) : Except SeError SeNormTables := do
  if sec.size = 0 then return prepareNormFastTables [] [] [] [] [] []
  failFormat (sec.size < 32) "norm tables section too small"
  let nLower := readU32 base sec.off
  let nNfd := readU32 base (sec.off + 4)
  let nMn := readU32 base (sec.off + 8)
  let nPunct := readU32 base (sec.off + 12)
  let nControl := readU32 base (sec.off + 16)
  let nWs := readU32 base (sec.off + 20)
  let mapCount := nLower + nNfd
  let rangeCount := nMn + nPunct + nControl + nWs
  failFormat (mapCount > (2 ^ 64 - 1 - 32) / 24 ∨ rangeCount > (2 ^ 64 - 1 - 32) / 8)
    "norm tables size overflow"
  let need := 32 + mapCount * 24 + rangeCount * 8
  failFormat (need ≠ sec.size) s!"norm tables size mismatch (need {need}, have {sec.size})"
  let lower := recordsAt 24 SeMapEntry.read base (sec.off + 32) nLower
  let cursor := sec.off + 32 + nLower * 24
  let nfd := recordsAt 24 SeMapEntry.read base cursor nNfd
  let cursor := cursor + nNfd * 24
  let mn := recordsAt 8 SeRange.read base cursor nMn
  let cursor := cursor + nMn * 8
  let punct := recordsAt 8 SeRange.read base cursor nPunct
  let cursor := cursor + nPunct * 8
  let control := recordsAt 8 SeRange.read base cursor nControl
  let cursor := cursor + nControl * 8
  let whitespace := recordsAt 8 SeRange.read base cursor nWs
  validateNormMap "lower" 0 none lower
  validateNormMap "nfd" 0 none nfd
  validateNormRanges "mn" 0 none mn
  validateNormRanges "punct" 0 none punct
  validateNormRanges "control" 0 none control
  validateNormRanges "whitespace" 0 none whitespace
  return prepareNormFastTables lower nfd mn punct control whitespace

/-! ## Vocabulary hash -/

/-- The slot loop of `validate_vocab_hash`, from slot `i` on: the ids marked in the bit set. -/
def checkVocabSlots (vocabSize stringsSize : ℕ) : ℕ → List ℕ → List SeVocabSlot →
    Except SeError (List ℕ)
  | _, seen, [] => .ok seen
  | i, seen, slot :: rest => do
    if slot.tokenId = slotEmpty then checkVocabSlots vocabSize stringsSize (i + 1) seen rest
    else do
      failFormat (slot.tokenId ≥ vocabSize) s!"slot {i} has token id out of range"
      failFormat (slot.strOff + slot.strLen > stringsSize)
        s!"slot {i} points outside the string blob"
      failFormat (slot.tokenId ∈ seen)
        s!"token id {slot.tokenId} appears more than once in hash table"
      checkVocabSlots vocabSize stringsSize (i + 1) (slot.tokenId :: seen) rest

/-- The loop of `validate_vocab_hash` over the recorded added tokens. -/
def checkAddedTokens (m : SeModel) : List (ℕ × String × Bytes × ℕ) → Except SeError Unit
  | [] => .ok ()
  | (bit, name, text, id) :: rest => do
    failFormat (m.addedTokenMask &&& bit ≠ 0 ∧
        (id ≥ m.vocabSize ∨ seVocabLookup m text ≠ some id))
      s!"added token {name} is not reachable at its recorded id"
    checkAddedTokens m rest

/-- The table of added tokens with their recorded ids. -/
def recordedAddedTokens (m : SeMeta) : List (ℕ × String × Bytes × ℕ) :=
  [(addedPad, "[PAD]", textPad, m.padId), (addedUnk, "[UNK]", textUnk, m.unkId),
    (addedCls, "[CLS]", textCls, m.clsId), (addedSep, "[SEP]", textSep, m.sepId),
    (addedMask, "[MASK]", textMask, m.maskId)]

/-- `validate_vocab_hash`. -/
def validateVocabHash (m : SeModel) : Except SeError Unit := do
  let seen ← checkVocabSlots m.vocabSize m.vocabStrings.length 0 [] m.vocabHash
  failFormat (seen.length ≠ m.vocabSize)
    s!"hash table has {seen.length} filled slots, expected {m.vocabSize}"
  failFormat (seVocabLookup m textUnk ≠ some m.unkId)
    "[UNK] is not reachable through the vocabulary hash"
  checkAddedTokens m (recordedAddedTokens m.toSeMeta)

/-- The probe walk of `validate_hash_probe_limits` from `pos` to slot `i`. -/
def probesWithin (mask i maxProbe : ℕ) : ℕ → ℕ → ℕ → Bool
  | 0, _, _ => false
  | fuel + 1, pos, probes =>
    if pos = i then true
    else if probes + 1 > maxProbe then false
    else probesWithin mask i maxProbe fuel ((pos + 1) &&& mask) (probes + 1)

/-- `validate_hash_probe_limits`, from slot `i` on. -/
def checkProbeLimits (mask maxProbe : ℕ) : ℕ → List SeVocabSlot → Except SeError Unit
  | _, [] => .ok ()
  | i, slot :: rest => do
    failFormat (slot.tokenId ≠ slotEmpty ∧
        probesWithin mask i maxProbe maxProbe (slot.hash &&& mask) 1 = false)
      s!"slot {i} exceeds recorded max probe"
    checkProbeLimits mask maxProbe (i + 1) rest

/-- `validate_hash_probe_limits`. -/
def validateHashProbeLimits (m : SeModel) : Except SeError Unit :=
  if m.maxProbe = 0 then .ok ()
  else checkProbeLimits (m.hashTableSize - 1) m.maxProbe 0 m.vocabHash

/-! ## The header -/

/-- The header fields as read. -/
def readMeta (base : Bytes) : SeMeta where
  dim := readU32 base 20
  vocabSize := readU32 base 24
  tokenizerType := readU32 base 28
  embeddingDtype := readU32 base 32
  poolingType := readU32 base 36
  normalizationType := readU32 base 40
  maxTokensDefault := readU32 base 44
  truncationPolicy := readU32 base 48
  addSpecialTokens := readU32 base 52
  unkPolicy := readU32 base 56
  emptyPolicy := readU32 base 60
  doLowerCase := readU32 base 64
  stripAccents := readU32 base 68
  handleChineseChars := readU32 base 72
  cleanText := readU32 base 76
  maxInputCharsPerWord := readU32 base 80
  maxTokenChars := readU32 base 124
  maxProbe := readU32 base 304
  addedTokenMask := readU32 base 308
  padId := readU32 base 84
  unkId := readU32 base 88
  clsId := readU32 base 92
  sepId := readU32 base 96
  maskId := readU32 base 100
  hashTableSize := readU32 base 104
  hashSeed := readU32 base 108
  subwordPrefixLen := readU32 base 112
  subwordPrefix := slice base 116 8

/-- `0x%x`. -/
def hexString (n : ℕ) : String := "0x" ++ String.ofList (Nat.toDigits 16 n)

/-- The field checks of `validate`. -/
def checkMeta (m : SeMeta) : Except SeError Unit := do
  failIf (m.tokenizerType ≠ 1) .errUnsupportedTokenizer
    s!"tokenizer profile {m.tokenizerType} is not supported"
  failFormat (m.embeddingDtype ≠ 1) s!"embedding dtype {m.embeddingDtype} is not supported"
  failFormat (m.poolingType ≠ 1) s!"pooling type {m.poolingType} is not supported"
  failFormat (m.normalizationType ≠ 0 ∧ m.normalizationType ≠ 1)
    s!"normalization type {m.normalizationType} is not supported"
  failFormat (m.truncationPolicy ≠ truncateUsableIds ∧ m.truncationPolicy ≠ truncateRawIds)
    s!"truncation policy {m.truncationPolicy} is not supported"
  failFormat (m.addSpecialTokens ≠ 0) "runtime does not add special tokens"
  failFormat (m.unkPolicy ≠ unkInclude ∧ m.unkPolicy ≠ unkDrop)
    s!"unknown UNK policy {m.unkPolicy}"
  failFormat (m.addedTokenMask &&& (uint32Max - addedTokenMaskAll) ≠ 0)
    ("unknown added-token mask bits " ++
      hexString (m.addedTokenMask &&& (uint32Max - addedTokenMaskAll)))
  failFormat (m.emptyPolicy ≠ emptyZeroVector ∧ m.emptyPolicy ≠ emptyRaise)
    s!"unknown empty-input policy {m.emptyPolicy}"
  failFormat (m.doLowerCase > 1 ∨ m.stripAccents > 1 ∨ m.handleChineseChars > 1 ∨ m.cleanText > 1)
    "normalizer flags must be 0 or 1"
  failFormat (m.dim = 0 ∨ m.dim > 2 ^ 20) s!"implausible dim {m.dim}"
  failFormat (m.vocabSize = 0) "empty vocabulary"
  failFormat (m.hashTableSize = 0 ∨ m.hashTableSize &&& (m.hashTableSize - 1) ≠ 0)
    s!"hash table size {m.hashTableSize} is not a power of two"
  failFormat (m.hashTableSize ≤ m.vocabSize ∨ m.vocabSize * 100 > m.hashTableSize * 70)
    "hash table load factor exceeds the supported 0.70 maximum"
  failFormat (m.maxProbe = 0 ∨ m.maxProbe > m.hashTableSize)
    s!"invalid recorded max probe {m.maxProbe}"
  failFormat (m.subwordPrefixLen > 8) "subword prefix too long"
  failFormat (m.unkId ≥ m.vocabSize) "unk id out of range"
  failFormat (m.cleanText ≠ 1) "BERT_WORDPIECE_V1 requires clean_text=true"

/-- The fields the loader replaces: a zero or too large character limit. -/
def clampMeta (m : SeMeta) : SeMeta :=
  let maxInput := if m.maxInputCharsPerWord = 0 then 100 else m.maxInputCharsPerWord
  { m with
    maxInputCharsPerWord := maxInput
    maxTokenChars :=
      if m.maxTokenChars = 0 ∨ m.maxTokenChars > maxInput then maxInput else m.maxTokenChars }

/-! ## The loader -/

/-- `SE_MAGIC`, `"SEMBv1\0\0"`. -/
def seMagic : Bytes := [0x53, 0x45, 0x4D, 0x42, 0x76, 0x31, 0, 0]

/-- The seven sections of the header, in the order of the source. -/
structure Sections where
  vocabStrings : Section
  vocabHash : Section
  embeddings : Section
  norm : Section
  provenance : Section
  rootTrie : Section
  contTrie : Section

/-- The section table of a header. -/
def readSections (base : Bytes) : Sections where
  vocabStrings := readSection base 128 "vocab_strings"
  vocabHash := readSection base 144 "vocab_hash"
  embeddings := readSection base 160 "embeddings"
  norm := readSection base 176 "norm_tables"
  provenance := readSection base 192 "provenance"
  rootTrie := readSection base 208 "root_trie"
  contTrie := readSection base 224 "continuation_trie"

/-- The array of all sections. -/
def Sections.toList (s : Sections) : List Section :=
  [s.vocabStrings, s.vocabHash, s.embeddings, s.norm, s.provenance, s.rootTrie, s.contTrie]

/-- The bounds and alignment check of all sections. -/
def Sections.Ok (s : Sections) (fileSize : ℕ) : Prop :=
  sectionOk s.vocabStrings fileSize 0 ∧ sectionOk s.vocabHash fileSize 16 ∧
  sectionOk s.embeddings fileSize 4 ∧ sectionOk s.norm fileSize 0 ∧
  sectionOk s.provenance fileSize 0 ∧ sectionOk s.rootTrie fileSize 0 ∧
  sectionOk s.contTrie fileSize 0

instance (s : Sections) (fileSize : ℕ) : Decidable (s.Ok fileSize) := by
  unfold Sections.Ok; infer_instance

/-- The bytes of a section. -/
def Section.bytes (s : Section) (base : Bytes) : Bytes := slice base s.off s.size

/-- `validate`. -/
def validate (base : Bytes) : Except SeError SeModel := do
  failFormat (base.length < 320) "file shorter than header"
  failFormat (base.take 8 ≠ seMagic) "bad magic"
  failIf (readU32 base 8 ≠ 3) .errUnsupportedVersion
    s!"format version {readU32 base 8} is not supported"
  failFormat (readU32 base 12 ≠ 320) "unexpected header size"
  let m := readMeta base
  checkMeta m
  let m := clampMeta m
  let secs := readSections base
  failFormat (¬ secs.Ok base.length) "section offsets are out of bounds or unaligned"
  validateNoOverlaps secs.toList
  failFormat (secs.vocabHash.size ≠ m.hashTableSize * 16) "hash section size mismatch"
  failFormat (m.vocabSize > (2 ^ 64 - 1) / m.dim ∨ m.vocabSize * m.dim > (2 ^ 64 - 1) / 4)
    "embedding matrix size overflow"
  failFormat (secs.embeddings.size ≠ m.vocabSize * m.dim * 4)
    (s!"embedding section is {secs.embeddings.size} bytes, " ++
      s!"expected vocab_size * dim * 4 = {m.vocabSize * m.dim * 4}")
  let model : SeModel := {
    m with
    mapBase := base
    norm := prepareNormFastTables [] [] [] [] [] []
    vocabStrings := secs.vocabStrings.bytes base
    vocabHash := recordsAt 16 SeVocabSlot.read base secs.vocabHash.off m.hashTableSize
    rootTrie := ⟨[], []⟩
    contTrie := ⟨[], []⟩
    embeddings := secs.embeddings.bytes base
    provenance := if secs.provenance.size = 0 then none else some (secs.provenance.bytes base) }
  validateVocabHash model
  validateHashProbeLimits model
  let rootTrie ← parseTrie base secs.rootTrie m.vocabSize "root"
  let contTrie ← parseTrie base secs.contTrie m.vocabSize "continuation"
  let norm ← parseNormTables base secs.norm
  return { model with norm := norm, rootTrie := rootTrie, contTrie := contTrie }

end StaticEmbeddings
