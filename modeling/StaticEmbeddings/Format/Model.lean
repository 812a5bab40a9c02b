import StaticEmbeddings.Lib.LittleEndian
import StaticEmbeddings.Lib.SortedSearch
import StaticEmbeddings.Unicode

/-!
# The loaded model and its readers

The records of `se_internal.h` and the functions of `se_format.c`, `se_unicode.c` and
`se_tokenizer.c` that read them. A table of records is a list; a read outside a table or outside the
string blob is `none`.

* `SeMeta`, `SeTrie`, `SeNormTables`, `SeModel`.
* `seVocabLookupPiece?`, `seTrieLongestMatch?`, `seRangeContains?`, `seMapLookup?`: the readers as
  the code runs them; without `?` they are the values the rest of the runtime uses.
* `isWhitespace`, `isControl`, `isPunct`, `isMn`, `lowerEntry`, `nfdEntry`.
-/

namespace StaticEmbeddings

open LittleEndian

/-! ## Constants -/

/-- `SE_SLOT_EMPTY`. -/
abbrev slotEmpty : ℕ := 0xFFFFFFFF

/-- `SE_TRUNCATE_USABLE_IDS_BEFORE_POOLING`. -/
abbrev truncateUsableIds : ℕ := 2

/-- `SE_TRUNCATE_RAW_IDS_BEFORE_UNK_DROP`. -/
abbrev truncateRawIds : ℕ := 3

/-- `SE_UNK_INCLUDE`. -/
abbrev unkInclude : ℕ := 0

/-- `SE_UNK_DROP`. -/
abbrev unkDrop : ℕ := 1

/-- `SE_EMPTY_ZERO_VECTOR`. -/
abbrev emptyZeroVector : ℕ := 0

/-- `SE_EMPTY_RAISE`. -/
abbrev emptyRaise : ℕ := 1

/-- `SE_ADDED_PAD`. -/
abbrev addedPad : ℕ := 1 <<< 0

/-- `SE_ADDED_UNK`. -/
abbrev addedUnk : ℕ := 1 <<< 1

/-- `SE_ADDED_CLS`. -/
abbrev addedCls : ℕ := 1 <<< 2

/-- `SE_ADDED_SEP`. -/
abbrev addedSep : ℕ := 1 <<< 3

/-- `SE_ADDED_MASK`. -/
abbrev addedMask : ℕ := 1 <<< 4

/-- `SE_ADDED_TOKEN_MASK_ALL`. -/
abbrev addedTokenMaskAll : ℕ := addedPad ||| addedUnk ||| addedCls ||| addedSep ||| addedMask

/-- `"[PAD]"`. -/
def textPad : Bytes := [0x5B, 0x50, 0x41, 0x44, 0x5D]

/-- `"[UNK]"`. -/
def textUnk : Bytes := [0x5B, 0x55, 0x4E, 0x4B, 0x5D]

/-- `"[CLS]"`. -/
def textCls : Bytes := [0x5B, 0x43, 0x4C, 0x53, 0x5D]

/-- `"[SEP]"`. -/
def textSep : Bytes := [0x5B, 0x53, 0x45, 0x50, 0x5D]

/-- `"[MASK]"`. -/
def textMask : Bytes := [0x5B, 0x4D, 0x41, 0x53, 0x4B, 0x5D]

/-! ## Records -/

/-- `se_vocab_slot_t`. -/
structure SeVocabSlot where
  hash : ℕ
  strOff : ℕ
  strLen : ℕ
  tokenId : ℕ
  deriving DecidableEq, Repr

/-- `se_trie_node_t`. -/
structure SeTrieNode where
  edgeStart : ℕ
  edgeCount : ℕ
  tokenId : ℕ
  reserved : ℕ
  deriving DecidableEq, Repr

/-- `se_trie_edge_t`. -/
structure SeTrieEdge where
  byte : ℕ
  child : ℕ
  deriving DecidableEq, Repr

/-- `se_trie_t`; `node_count` and `edge_count` are the lengths. -/
structure SeTrie where
  nodes : List SeTrieNode
  edges : List SeTrieEdge
  deriving DecidableEq, Repr

/-- `se_map_entry_t`; `out` has four entries. -/
structure SeMapEntry where
  cp : ℕ
  len : ℕ
  out : List ℕ
  deriving DecidableEq, Repr

/-- `se_range_t`. -/
structure SeRange where
  lo : ℕ
  hi : ℕ
  deriving DecidableEq, Repr

/-- `se_norm_tables_t`. -/
structure SeNormTables where
  lower : List SeMapEntry
  nfd : List SeMapEntry
  mn : List SeRange
  punct : List SeRange
  control : List SeRange
  whitespace : List SeRange
  lower256 : List (Option SeMapEntry)
  nfd256 : List (Option SeMapEntry)
  mn256 : List Bool
  punct256 : List Bool
  control256 : List Bool
  whitespace256 : List Bool
  deriving DecidableEq, Repr

/-- `se_meta_t`. -/
structure SeMeta where
  dim : ℕ
  vocabSize : ℕ
  tokenizerType : ℕ
  embeddingDtype : ℕ
  poolingType : ℕ
  normalizationType : ℕ
  maxTokensDefault : ℕ
  truncationPolicy : ℕ
  addSpecialTokens : ℕ
  unkPolicy : ℕ
  emptyPolicy : ℕ
  doLowerCase : ℕ
  stripAccents : ℕ
  handleChineseChars : ℕ
  cleanText : ℕ
  maxInputCharsPerWord : ℕ
  maxTokenChars : ℕ
  maxProbe : ℕ
  addedTokenMask : ℕ
  padId : ℕ
  unkId : ℕ
  clsId : ℕ
  sepId : ℕ
  maskId : ℕ
  hashTableSize : ℕ
  hashSeed : ℕ
  subwordPrefixLen : ℕ
  subwordPrefix : Bytes
  deriving DecidableEq, Repr

/-- `se_model_t`; the fields of `meta` are inherited. -/
structure SeModel extends SeMeta where
  mapBase : Bytes
  norm : SeNormTables
  vocabStrings : Bytes
  vocabHash : List SeVocabSlot
  rootTrie : SeTrie
  contTrie : SeTrie
  embeddings : Bytes
  provenance : Option Bytes
  deriving DecidableEq, Repr

/-! ## Vocabulary lookup -/

/-- `hash_bytes_continue`: FNV-1a from the state `h`. -/
def hashBytesContinue (h : ℕ) (data : Bytes) : ℕ :=
  data.foldl (fun h b => (h ^^^ b.toNat) * 16777619 % 2 ^ 32) h

/-- `se_memeq`: eight bytes at a time, then four, then one by one. -/
def seMemeq (a b : Bytes) (n : ℕ) : Bool :=
  if n ≥ 8 then a.take 8 == b.take 8 && seMemeq (a.drop 8) (b.drop 8) (n - 8)
  else if n ≥ 4 then
    a.take 4 == b.take 4 && (a.drop 4).take (n - 4) == (b.drop 4).take (n - 4)
  else a.take n == b.take n

/-- The probe loop of `se_vocab_lookup_piece`, `probes` slots from `pos` on. -/
def vocabProbe? (m : SeModel) (h totalLen : ℕ) (pre bytes : Bytes) : ℕ → ℕ → Option (Option ℕ)
  | 0, _ => some none
  | probes + 1, pos => do
    let slot ← m.vocabHash[pos]?
    if slot.tokenId = slotEmpty then return none
    let next := (pos + 1) &&& (m.hashTableSize - 1)
    if slot.hash = h ∧ slot.strLen = totalLen then
      let token ← slice? m.vocabStrings slot.strOff pre.length
      let rest ← slice? m.vocabStrings (slot.strOff + pre.length) bytes.length
      if (pre.length = 0 ∨ seMemeq token pre pre.length) ∧
          (bytes.length = 0 ∨ seMemeq rest bytes bytes.length) then
        return some slot.tokenId
    vocabProbe? m h totalLen pre bytes probes next

/-- `se_vocab_lookup_piece`. -/
def seVocabLookupPiece? (m : SeModel) (pre bytes : Bytes) : Option (Option ℕ) :=
  if pre.length > uint32Max ∨ bytes.length > uint32Max ∨ pre.length > uint32Max - bytes.length then
    some none
  else
    let h := hashBytesContinue (hashBytesContinue m.hashSeed pre) bytes
    vocabProbe? m h (pre.length + bytes.length) pre bytes m.maxProbe (h &&& (m.hashTableSize - 1))

/-- `se_vocab_lookup`. -/
def seVocabLookup? (m : SeModel) (bytes : Bytes) : Option (Option ℕ) :=
  seVocabLookupPiece? m [] bytes

/-- The id of a token string, if it is in the vocabulary. -/
def seVocabLookup (m : SeModel) (bytes : Bytes) : Option ℕ := (seVocabLookup? m bytes).getD none

/-! ## Tries -/

/-- The linear scan of `trie_find_child` for at most eight edges. -/
def trieScan? (t : SeTrie) (byte : ℕ) : ℕ → ℕ → Option ℕ
  | 0, _ => some slotEmpty
  | n + 1, i => do
    let edge ← t.edges[i]?
    if edge.byte = byte then return edge.child
    if edge.byte > byte then return slotEmpty
    trieScan? t byte n (i + 1)

/-- `trie_find_child`: `SE_SLOT_EMPTY` where the node has no edge for the byte. -/
def trieFindChild? (t : SeTrie) (node : SeTrieNode) (byte : ℕ) : Option ℕ :=
  let start := node.edgeStart
  let count := node.edgeCount
  if count = 0 then some slotEmpty
  else if count = 1 then do
    let edge ← t.edges[start]?
    return if edge.byte = byte then edge.child else slotEmpty
  else if count = 2 then do
    let edge ← t.edges[start]?
    if edge.byte = byte then return edge.child
    let edge ← t.edges[start + 1]?
    return if edge.byte = byte then edge.child else slotEmpty
  else if count ≤ 8 then trieScan? t byte count start
  else do
    let lo ← SortedSearch.lowerBound? (fun i => t.edges[i]?.map (·.byte < byte)) count start
      (start + count)
    if lo < start + count then
      let edge ← t.edges[lo]?
      return if edge.byte = byte then edge.child else slotEmpty
    else return slotEmpty

/-- The loop of `se_trie_longest_match` on the bytes from index `i` on: the last token seen and the
length it was seen at. -/
def trieWalk? (t : SeTrie) : Bytes → ℕ → ℕ → ℕ → ℕ → Option (ℕ × ℕ)
  | [], _, _, bestId, bestLen => some (bestId, bestLen)
  | b :: rest, nodeIndex, i, bestId, bestLen => do
    let node ← t.nodes[nodeIndex]?
    let next ← trieFindChild? t node b.toNat
    if next = slotEmpty then return (bestId, bestLen)
    let node ← t.nodes[next]?
    if node.tokenId ≠ slotEmpty then trieWalk? t rest next (i + 1) node.tokenId (i + 1)
    else trieWalk? t rest next (i + 1) bestId bestLen

/-- `se_trie_longest_match`: the id and length of the longest match. -/
def seTrieLongestMatch? (t : SeTrie) (bytes : Bytes) : Option (Option (ℕ × ℕ)) :=
  if t.nodes.length = 0 then some none
  else do
    let (bestId, bestLen) ← trieWalk? t bytes 0 0 slotEmpty 0
    return if bestId = slotEmpty then none else some (bestId, bestLen)

/-! ## Normalization tables -/

/-- Where `cp` lies relative to a range of the table. -/
def rangeCmp (ranges : List SeRange) (cp i : ℕ) : Option Ordering :=
  ranges[i]?.map fun r => if cp < r.lo then .lt else if cp > r.hi then .gt else .eq

/-- `se_range_contains`. -/
def seRangeContains? (ranges : List SeRange) (cp : ℕ) : Option Bool :=
  (SortedSearch.search? (rangeCmp ranges cp) ranges.length 0 ranges.length).map Option.isSome

/-- Where `cp` lies relative to an entry of the table. -/
def mapCmp (entries : List SeMapEntry) (cp i : ℕ) : Option Ordering :=
  entries[i]?.map fun e => if cp < e.cp then .lt else if cp > e.cp then .gt else .eq

/-- `se_map_lookup`. -/
def seMapLookup? (entries : List SeMapEntry) (cp : ℕ) : Option (Option SeMapEntry) := do
  match ← SortedSearch.search? (mapCmp entries cp) entries.length 0 entries.length with
  | none => return none
  | some i => entries[i]?.map some

/-- A table lookup through the 256-entry array below U+0100 and by binary search from there on. -/
def tableContains? (table256 : List Bool) (ranges : List SeRange) (cp : ℕ) : Option Bool :=
  if cp < 256 then table256[cp]? else seRangeContains? ranges cp

/-- The same for a mapping table. -/
def tableEntryOf? (table256 : List (Option SeMapEntry)) (entries : List SeMapEntry) (cp : ℕ) :
    Option (Option SeMapEntry) :=
  if cp < 256 then table256[cp]? else seMapLookup? entries cp

/-- `is_whitespace`. -/
def isWhitespace? (m : SeModel) (cp : ℕ) : Option Bool :=
  if cp < 0x80 then some (seIsAsciiWhitespace cp)
  else tableContains? m.norm.whitespace256 m.norm.whitespace cp

/-- `is_control`. -/
def isControl? (m : SeModel) (cp : ℕ) : Option Bool :=
  if cp < 0x80 then some ((cp < 0x20 || cp == 0x7F) && cp != 0x09 && cp != 0x0A && cp != 0x0D)
  else tableContains? m.norm.control256 m.norm.control cp

/-- `is_punct`. -/
def isPunct? (m : SeModel) (cp : ℕ) : Option Bool :=
  if cp < 0x80 then some (seIsAsciiPunct cp)
  else tableContains? m.norm.punct256 m.norm.punct cp

/-- `is_mn`. -/
def isMn? (m : SeModel) (cp : ℕ) : Option Bool := tableContains? m.norm.mn256 m.norm.mn cp

/-- `lower_entry`. -/
def lowerEntryOf? (m : SeModel) (cp : ℕ) : Option (Option SeMapEntry) :=
  tableEntryOf? m.norm.lower256 m.norm.lower cp

/-- `nfd_entry`. -/
def nfdEntryOf? (m : SeModel) (cp : ℕ) : Option (Option SeMapEntry) :=
  tableEntryOf? m.norm.nfd256 m.norm.nfd cp

/-- The value of `is_whitespace`. -/
def isWhitespace (m : SeModel) (cp : ℕ) : Bool := (isWhitespace? m cp).getD false

/-- The value of `is_control`. -/
def isControl (m : SeModel) (cp : ℕ) : Bool := (isControl? m cp).getD false

/-- The value of `is_punct`. -/
def isPunct (m : SeModel) (cp : ℕ) : Bool := (isPunct? m cp).getD false

/-- The value of `is_mn`. -/
def isMn (m : SeModel) (cp : ℕ) : Bool := (isMn? m cp).getD false

/-- The value of `lower_entry`. -/
def lowerEntry (m : SeModel) (cp : ℕ) : Option SeMapEntry := (lowerEntryOf? m cp).getD none

/-- The value of `nfd_entry`. -/
def nfdEntry (m : SeModel) (cp : ℕ) : Option SeMapEntry := (nfdEntryOf? m cp).getD none

end StaticEmbeddings
