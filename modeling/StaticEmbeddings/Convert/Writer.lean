import StaticEmbeddings.Convert.Trie

/-!
# The writer

`lib/static_embeddings/format/writer.rb`. SHA-256 is a parameter.

* `FormatMeta`: the hash that `Conversion.format_meta` builds.
* `layout`, `headerFields`, `buildHeader`, `writeFile`.
* **`writerCall`**: the bytes of the written file.
* `sampleFile`: a small file.
-/

namespace StaticEmbeddings

open LittleEndian

/-- The values of the `meta` argument. -/
structure FormatMeta where
  dim : ℕ
  normalizationType : ℕ
  maxTokensDefault : ℕ
  truncationPolicy : ℕ
  addSpecialTokens : Bool
  unkPolicy : ℕ
  emptyPolicy : ℕ
  doLowerCase : Bool
  stripAccents : Bool
  handleChineseChars : Bool
  cleanText : Bool
  addedTokenMask : ℕ
  maxInputCharsPerWord : ℕ
  maxTokenChars : ℕ
  subwordPrefix : Bytes
  padId : ℕ
  unkId : ℕ
  clsId : ℕ
  sepId : ℕ
  maskId : ℕ
  deriving DecidableEq, Repr

/-- `MAGIC`. -/
def magic : Bytes := [0x53, 0x45, 0x4D, 0x42, 0x76, 0x31, 0, 0]

/-- `HEADER_SIZE`. -/
abbrev headerSize : ℕ := 320

/-- `ALIGNMENT`. -/
abbrev alignment : ℕ := 64

/-- `CHECKSUM_OFFSET`. -/
abbrev checksumOffset : ℕ := 240

/-- `CHECKSUM_SIZE`. -/
abbrev checksumSize : ℕ := 32

/-- `put_u32`. -/
def putU32 (buffer : Bytes) (offset value : ℕ) : Except WriteError Bytes :=
  if value ≤ uint32Max then .ok (patch buffer offset (le32 value)) else .error (.u32OutOfRange value)

/-- `put_u64`. -/
def putU64 (buffer : Bytes) (offset value : ℕ) : Except WriteError Bytes :=
  if value ≤ 2 ^ 64 - 1 then .ok (patch buffer offset (le64 value))
  else .error (.u64OutOfRange value)

/-- A payload: its `bytesize` and what `each_chunk` yields. -/
structure Payload where
  bytesize : ℕ
  chunks : Except WriteError (List Bytes)

/-- A string as a payload. -/
def Payload.ofString (bytes : Bytes) : Payload := ⟨bytes.length, .ok [bytes]⟩

/-- `layout`: offset and size of every payload, and the size of the file. -/
def layout : ℕ → List Payload → List (ℕ × ℕ) × ℕ
  | offset, [] => ([], offset)
  | offset, payload :: rest =>
    let target := offset + (alignment - offset % alignment) % alignment
    let r := layout (target + payload.bytesize) rest
    ((target, payload.bytesize) :: r.1, r.2)

/-- `HEADER_U32`, `META_U32`, `META_BOOL` and the single fields, in the order of `build_header`. -/
def headerFields (fmt : FormatMeta) (vocabSize hashSize maxProbe : ℕ) : List (ℕ × ℕ) :=
  let bit (b : Bool) : ℕ := if b then 1 else 0
  [(8, 3), (12, headerSize), (16, 1), (28, 1), (32, 1), (36, 1), (108, hashSeed),
    (20, fmt.dim), (40, fmt.normalizationType), (44, fmt.maxTokensDefault),
    (48, fmt.truncationPolicy), (56, fmt.unkPolicy), (60, fmt.emptyPolicy),
    (80, fmt.maxInputCharsPerWord), (84, fmt.padId), (88, fmt.unkId), (92, fmt.clsId),
    (96, fmt.sepId), (100, fmt.maskId),
    (52, bit fmt.addSpecialTokens), (64, bit fmt.doLowerCase), (68, bit fmt.stripAccents),
    (72, bit fmt.handleChineseChars), (76, bit fmt.cleanText),
    (24, vocabSize), (104, hashSize), (124, fmt.maxTokenChars), (304, maxProbe),
    (308, fmt.addedTokenMask)]

/-- `put_prefix`; the argument is the prefix. -/
def putPrefix (header subword : Bytes) : Except WriteError Bytes := do
  if subword.length > 8 then throw .prefixTooLong
  let header ← putU32 header 112 subword.length
  return patch header 116 (subword ++ List.replicate (8 - subword.length) 0)

/-- `SECTION_FIELDS`, in the order of the payloads. -/
def sectionFields : List ℕ := [128, 144, 160, 176, 192, 208, 224]

/-- `put_section`. -/
def putSection (header : Bytes) (offset : ℕ) (sec : ℕ × ℕ) : Except WriteError Bytes := do
  let header ← putU64 header offset sec.1
  putU64 header (offset + 8) sec.2

/-- `build_header`. -/
def buildHeader (fmt : FormatMeta) (vocabSize hashSize maxProbe : ℕ) (sections : List (ℕ × ℕ)) :
    Except WriteError Bytes := do
  let header := patch (List.replicate headerSize 0) 0 magic
  let header ← (headerFields fmt vocabSize hashSize maxProbe).foldlM
    (fun h f => putU32 h f.1 f.2) header
  let header ← putPrefix header fmt.subwordPrefix
  (sectionFields.zip sections).foldlM (fun h f => putSection h f.1 f.2) header

/-- The loop of `write_file`: the payloads with the padding before each, from an offset on. -/
def writePayloads : ℕ → List (ℕ × ℕ) → List Payload → Except WriteError Bytes
  | offset, sec :: sections, payload :: payloads => do
    let chunks ← payload.chunks
    let rest ← writePayloads (sec.1 + payload.bytesize) sections payloads
    return List.replicate (sec.1 - offset) 0 ++ chunks.flatten ++ rest
  | _, _, _ => .ok []

/-- `write_file`: the content of the file, with the digest of what was written patched in. -/
def writeFile (sha256 : Bytes → Bytes) (header : Bytes) (payloads : List Payload)
    (sections : List (ℕ × ℕ)) : Except WriteError Bytes := do
  let content := header ++ (← writePayloads headerSize sections payloads)
  return patch content checksumOffset (sha256 content)

/-- `Writer.call`: the written file. -/
def writerCall (sha256 : Bytes → Bytes) (fmt : FormatMeta) (tokens : List Bytes) (matrix : Payload)
    (normTables provenance : Bytes) : Except WriteError Bytes := do
  let hash ← HashTable.build tokens
  let tries ← WordPieceTrie.build tokens fmt.subwordPrefix
  let payloads := [.ofString hash.strings, .ofString hash.blob, matrix, .ofString normTables,
    .ofString provenance, .ofString tries.1.pack, .ofString tries.2.pack]
  let sections := (layout headerSize payloads).1
  let header ← buildHeader fmt tokens.length hash.size hash.maxProbe sections
  writeFile sha256 header payloads sections

/-! ## A small file -/

/-- Header values of a small model. -/
def sampleFormat : FormatMeta where
  dim := 1
  normalizationType := 0
  maxTokensDefault := 0
  truncationPolicy := truncateUsableIds
  addSpecialTokens := false
  unkPolicy := unkDrop
  emptyPolicy := emptyRaise
  doLowerCase := true
  stripAccents := true
  handleChineseChars := true
  cleanText := true
  addedTokenMask := addedUnk
  maxInputCharsPerWord := 100
  maxTokenChars := 5
  subwordPrefix := [0x23, 0x23]
  padId := 0
  unkId := 0
  clsId := 0
  sepId := 0
  maskId := 0

/-- `[UNK]`, `a`, `b` and `##a`. -/
def sampleTokens : List Bytes := [textUnk, [0x61], [0x62], [0x23, 0x23, 0x61]]

/-- The C1 controls as control characters, U+0085 among them as whitespace too. -/
def sampleNormTables : Bytes :=
  [0, 0, 0, 0, 1, 1, 0, 0, 0x80, 0x9F, 0x85, 0x85].flatMap le32

/-- The file of the small model. -/
def sampleFile : Bytes :=
  (writerCall (fun _ => List.replicate checksumSize 0) sampleFormat sampleTokens
    (.ofString (List.replicate 16 0)) sampleNormTables []).toOption.getD []

theorem writerCall_sampleFile : writerCall (fun _ => List.replicate checksumSize 0) sampleFormat
    sampleTokens (.ofString (List.replicate 16 0)) sampleNormTables [] = .ok sampleFile := by
  cases h : writerCall (fun _ => List.replicate checksumSize 0) sampleFormat sampleTokens
      (.ofString (List.replicate 16 0)) sampleNormTables [] with
  | ok file => rw [sampleFile, h]; rfl
  | error e =>
    have hsome : (writerCall (fun _ => List.replicate checksumSize 0) sampleFormat sampleTokens
      (.ofString (List.replicate 16 0)) sampleNormTables []).toOption.isSome := by decide +kernel
    rw [h] at hsome
    cases hsome

end StaticEmbeddings
