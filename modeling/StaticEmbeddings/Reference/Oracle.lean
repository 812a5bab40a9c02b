import StaticEmbeddings.Convert.Sources
import StaticEmbeddings.Convert.UnicodeTables
import StaticEmbeddings.Lib.Splitting

/-!
# The reference tokenizer

The tokenizer of `lib/static_embeddings/reference.rb`, which works in passes over whole texts. Texts are
UTF-8 strings; the Unicode data of the Ruby runtime is a parameter.

* `ReferenceMeta`, `Reference`: the options and the vocabulary; `Reference.fromCanonical`.
* `normalizeText`: cleaned, spaced, stripped and lowered in one pass each.
* `preTokenize`: the words; `wordpiece`: the pieces of a word.
* `tokenizeWithAddedTokens`, **`tokenize`**; `embedIds`: the ids that `embed` pools.
-/

namespace StaticEmbeddings

open LittleEndian

/-- `@meta`, without the default of `max_tokens` and what only the vectors need. -/
structure ReferenceMeta where
  lowercase : Bool
  stripAccents : Bool
  cleanText : Bool
  handleChineseChars : Bool
  maxInputCharsPerWord : ℕ
  unkToken : Bytes
  unkPolicy : ℕ
  truncation : ℕ
  addedTokens : List (Bytes × ℕ)

/-- The tokenizer of a `Reference`. The unknown token is a token, and no literal is empty. -/
structure Reference where
  tokens : List Bytes
  options : ReferenceMeta
  unk_mem : options.unkToken ∈ tokens
  literal_ne : ∀ t ∈ options.addedTokens, t.1 ≠ []

namespace Reference

/-! ## Characters -/

/-- `CJK_RANGES`. -/
def cjkRanges : List (ℕ × ℕ) :=
  [(0x4E00, 0x9FFF), (0x3400, 0x4DBF), (0x20000, 0x2A6DF), (0x2A700, 0x2B73F),
    (0x2B740, 0x2B81F), (0x2B920, 0x2CEAF), (0xF900, 0xFAFF), (0x2F800, 0x2FA1F)]

/-- `ASCII_PUNCT`. -/
def asciiPunct : List (ℕ × ℕ) := [(33, 47), (58, 64), (91, 96), (123, 126)]

/-- `ASCII_SPACES`. -/
def asciiSpaces : List ℕ := [0x20, 0x09, 0x0A, 0x0D]

/-- `ranges.any? { |range| range.cover?(cp) }`. -/
def cover (ranges : List (ℕ × ℕ)) (cp : ℕ) : Bool := ranges.any fun range =>
  range.1 ≤ cp && cp ≤ range.2

/-- The whitespace of `split(" ")`. -/
def isSplitSpace (cp : ℕ) : Bool := cp == 0x20 || (0x09 ≤ cp && cp ≤ 0x0D)

section

variable (db : UnicodeDatabase)

/-- `punctuation?`. -/
def isPunctuation (cp : ℕ) : Bool := cover asciiPunct cp || db.isPunct cp

/-- `control?`. -/
def isControl (cp : ℕ) : Bool := !asciiSpaces.contains cp && db.isControl cp

/-- `whitespace?`. -/
def isWhitespace (cp : ℕ) : Bool := asciiSpaces.contains cp || db.isWhitespace cp

/-! ## Normalization -/

/-- `clean_chars`. -/
def cleanChars (chars : List ℕ) : List ℕ := chars.filterMap fun ch =>
  if ch = 0 ∨ ch = 0xFFFD ∨ isControl db ch = true then none
  else some (if isWhitespace db ch then 0x20 else ch)

/-- `split_chinese`. -/
def splitChinese (chars : List ℕ) : List ℕ := chars.flatMap fun ch =>
  if cover cjkRanges ch then [0x20, ch, 0x20] else [ch]

/-- `strip_accents`. -/
def stripAccents (chars : List ℕ) : List ℕ := (chars.flatMap db.nfd).filter fun ch => !db.isMn ch

/-- `lowercase`. -/
def lowercase (chars : List ℕ) : List ℕ := chars.flatMap db.downcase

/-- The passes of `normalize_text`. -/
def normalizeChars (r : Reference) (chars : List ℕ) : List ℕ :=
  let chars := if r.options.cleanText then cleanChars db chars else chars
  let chars := if r.options.handleChineseChars then splitChinese chars else chars
  let chars := if r.options.stripAccents then stripAccents db chars else chars
  if r.options.lowercase then lowercase db chars else chars

/-- `normalize_text`. -/
def normalizeText (r : Reference) (text : Bytes) : List ℕ := normalizeChars db r (Utf8.decodeAll text)

/-! ## Words -/

/-- `split_punctuation`. -/
def splitPunctuation (word : List ℕ) : List (List ℕ) := Splitting.isolate (isPunctuation db) word

/-- `pre_tokenize`. -/
def preTokenize (normalized : List ℕ) : List (List ℕ) :=
  (Splitting.fields isSplitSpace normalized).flatMap (splitPunctuation db)

end

/-! ## Pieces -/

/-- `@vocab`; of equal tokens the last. -/
def vocab (r : Reference) (piece : Bytes) : Option ℕ := r.tokens.zipIdx.reverse.lookup piece

theorem isSome_vocab {r : Reference} {piece : Bytes} (h : piece ∈ r.tokens) :
    (r.vocab piece).isSome = true := by
  obtain ⟨i, hi⟩ := List.getElem?_of_mem h
  rw [Option.isSome_iff_ne_none, vocab, Ne, List.lookup_eq_none_iff]
  intro hnone
  have hmem : (piece, i) ∈ r.tokens.zipIdx.reverse :=
    List.mem_reverse.mpr (List.mem_zipIdx_iff_getElem?.mpr hi)
  simpa using hnone (piece, i) hmem

/-- `unk_id`. -/
def unkId (r : Reference) : ℕ := (r.vocab r.options.unkToken).get (isSome_vocab r.unk_mem)

/-- The `piece` of `longest_piece`. -/
def pieceText (chars : List ℕ) (start finish : ℕ) : Bytes :=
  let piece := Utf8.encodeAll ((chars.take finish).drop start)
  if 0 < start then [0x23, 0x23] ++ piece else piece

/-- `longest_piece`, from an end of the piece on. -/
def longestPieceTo (r : Reference) (chars : List ℕ) (start : ℕ) : ℕ → Option (ℕ × ℕ)
  | 0 => none
  | finish + 1 =>
    if start < finish + 1 then
      match r.vocab (pieceText chars start (finish + 1)) with
      | some id => some (id, finish + 1)
      | none => longestPieceTo r chars start finish
    else none

/-- `longest_piece`. -/
def longestPiece (r : Reference) (chars : List ℕ) (start : ℕ) : Option (ℕ × ℕ) :=
  longestPieceTo r chars start chars.length

theorem longestPieceTo_spec {r : Reference} {chars : List ℕ} {start n id finish : ℕ}
    (h : longestPieceTo r chars start n = some (id, finish)) : start < finish ∧ finish ≤ n := by
  induction n with
  | zero => cases h
  | succ n ih =>
    rw [longestPieceTo] at h
    split_ifs at h with hlt
    split at h
    · cases h
      exact ⟨hlt, le_rfl⟩
    · exact (ih h).imp_right Nat.le_succ_of_le

/-- The loop of `wordpiece`. -/
def wordpieceLoop (r : Reference) (chars ids : List ℕ) (start : ℕ) : List ℕ :=
  if start < chars.length then
    match _h : longestPiece r chars start with
    | none => [r.unkId]
    | some (found, finish) => wordpieceLoop r chars (ids ++ [found]) finish
  else ids
termination_by chars.length - start
decreasing_by
  have := longestPieceTo_spec _h
  omega

/-- `wordpiece`. -/
def wordpiece (r : Reference) (chars : List ℕ) : List ℕ :=
  if chars.length > r.options.maxInputCharsPerWord then [r.unkId] else wordpieceLoop r chars [] 0

/-- `tokenize_plain`. -/
def tokenizePlain (db : UnicodeDatabase) (r : Reference) (text : Bytes) : List ℕ :=
  if text = [] then [] else (preTokenize db (normalizeText db r text)).flatMap r.wordpiece

/-! ## Added tokens -/

/-- `binary.index(literal, cursor)`. -/
def indexFrom (binary literal : Bytes) (cursor : ℕ) : Option ℕ :=
  (List.range' cursor (binary.length + 1 - cursor)).find? fun i => literal.isPrefixOf (binary.drop i)

/-- An element of `match`: the index and the literal with its id. -/
abbrev Match := ℕ × Bytes × ℕ

/-- The order of the arrays `[index, -literal.bytesize, literal]`. -/
def Match.lt (a b : Match) : Bool :=
  a.1 < b.1 || (a.1 == b.1 && (b.2.1.length < a.2.1.length ||
    (a.2.1.length == b.2.1.length && a.2.1 < b.2.1)))

/-- `min`. -/
def Match.min? : List Match → Option Match
  | [] => none
  | a :: as => some (as.foldl (fun best b => if Match.lt b best then b else best) a)

/-- The `match` of `tokenize_with_added_tokens`. -/
def nextMatch (r : Reference) (binary : Bytes) (cursor : ℕ) : Option Match :=
  Match.min? (r.options.addedTokens.filterMap fun t => (indexFrom binary t.1 cursor).map fun i => (i, t))

theorem mem_of_min? {as : List Match} {a : Match} (h : Match.min? as = some a) : a ∈ as := by
  have hfold : ∀ (as : List Match) (b : Match),
      as.foldl (fun best b => if Match.lt b best then b else best) b ∈ b :: as := by
    intro as
    induction as with
    | nil => exact fun b => List.mem_cons_self
    | cons c as ih =>
      intro b
      rw [List.foldl_cons]
      split_ifs
      · exact List.mem_cons_of_mem b (ih c)
      · obtain h | h := List.mem_cons.mp (ih b)
        · rw [h]
          exact List.mem_cons_self
        · exact List.mem_cons_of_mem b (List.mem_cons_of_mem c h)
  cases as with
  | nil => cases h
  | cons b as =>
    obtain rfl := Option.some.inj h
    exact hfold as b

theorem nextMatch_spec {r : Reference} {binary : Bytes} {cursor index id : ℕ} {literal : Bytes}
    (h : r.nextMatch binary cursor = some (index, literal, id)) :
    (literal, id) ∈ r.options.addedTokens ∧ indexFrom binary literal cursor = some index ∧ cursor ≤ index ∧
      index < cursor + (binary.length + 1 - cursor) := by
  obtain ⟨t, ht, he⟩ := List.mem_filterMap.mp (mem_of_min? h)
  obtain ⟨i, hi, he⟩ := Option.map_eq_some_iff.mp he
  obtain ⟨rfl, rfl⟩ := Prod.mk.inj he
  have hrange := List.mem_range'_1.mp (List.mem_of_find?_eq_some hi)
  exact ⟨ht, hi, hrange.1, hrange.2⟩

/-- The loop of `tokenize_with_added_tokens`. -/
def addedTokensLoop (db : UnicodeDatabase) (r : Reference) (text : Bytes) (ids : List ℕ)
    (cursor : ℕ) : List ℕ :=
  if cursor < text.length then
    match _h : r.nextMatch text cursor with
    | none => ids ++ tokenizePlain db r (slice text cursor (text.length - cursor))
    | some (index, literal, id) =>
      let ids := if index > cursor then
          ids ++ tokenizePlain db r (slice text cursor (index - cursor)) else ids
      addedTokensLoop db r text (ids ++ [id]) (index + literal.length)
  else ids
termination_by text.length - cursor
decreasing_by
  obtain ⟨hmem, -, hle, -⟩ := nextMatch_spec _h
  have hpos : 0 < literal.length := List.length_pos_iff.mpr (r.literal_ne _ hmem)
  omega

/-- `tokenize_with_added_tokens`. -/
def tokenizeWithAddedTokens (db : UnicodeDatabase) (r : Reference) (text : Bytes) : List ℕ :=
  if r.options.addedTokens = [] then tokenizePlain db r text else addedTokensLoop db r text [] 0

/-! ## Tokens -/

/-- `ids.first(max_tokens)`, if there are more; 0 stands for every value that is not positive. -/
def firstTokens (maxTokens : ℕ) (ids : List ℕ) : List ℕ :=
  if 0 < maxTokens ∧ ids.length > maxTokens then ids.take maxTokens else ids

/-- `tokenize`. -/
def tokenize (db : UnicodeDatabase) (r : Reference) (text : Bytes) (maxTokens : ℕ) : List ℕ :=
  firstTokens maxTokens (tokenizeWithAddedTokens db r text)

/-- `apply_unk_policy`. -/
def applyUnkPolicy (r : Reference) (ids : List ℕ) : Except String (List ℕ) :=
  if r.options.unkPolicy = unkDrop then .ok (ids.filter fun id => !(id == r.unkId))
  else if r.options.unkPolicy = unkInclude then .ok ids
  else .error s!"unknown unk_policy {r.options.unkPolicy}"

/-- The ids that `embed` pools. -/
def embedIds (db : UnicodeDatabase) (r : Reference) (text : Bytes) (maxTokens : ℕ) :
    Except String (List ℕ) :=
  if r.options.truncation = truncateRawIds then r.applyUnkPolicy (tokenize db r text maxTokens)
  else (r.applyUnkPolicy (tokenize db r text 0)).map (firstTokens maxTokens)

/-! ## From a canonical model -/

/-- `added_tokens`. -/
def addedTokensOf (model : CanonicalModel) : List (Bytes × ℕ) :=
  BertWordPiece.standardSpecialTokens.filterMap fun t =>
    if model.tokenizer.addedTokenMask &&& t.2 = 0 then none
    else (model.tokens.idxOf? t.1).map fun id => (stringBytes t.1, id)

/-- `meta_from_canonical`, with the token of `unk_id`. -/
def metaFromCanonical (model : CanonicalModel) (unkToken : Bytes) : ReferenceMeta where
  lowercase := model.tokenizer.doLowerCase
  stripAccents := model.tokenizer.stripAccents
  cleanText := model.tokenizer.cleanText
  handleChineseChars := model.tokenizer.handleChineseChars
  maxInputCharsPerWord := model.tokenizer.maxInputCharsPerWord
  unkToken := unkToken
  unkPolicy := model.runtime.unkPolicy
  truncation := model.runtime.truncation
  addedTokens := addedTokensOf model

/-- `from_canonical`; it raises if `unk_id` is no id. -/
def fromCanonical (model : CanonicalModel) : Option Reference :=
  match h : (model.tokens.map stringBytes)[model.tokenizer.unkId]? with
  | none => none
  | some unkToken => some {
      tokens := model.tokens.map stringBytes
      options := metaFromCanonical model unkToken
      unk_mem := List.mem_of_getElem? h
      literal_ne := by
        intro t ht
        obtain ⟨s, hs, he⟩ := List.mem_filterMap.mp ht
        split_ifs at he
        obtain ⟨id, -, rfl⟩ := Option.map_eq_some_iff.mp he
        have hne : ∀ s ∈ BertWordPiece.standardSpecialTokens, stringBytes s.1 ≠ [] := by decide
        exact hne s hs }

end Reference

end StaticEmbeddings
