import StaticEmbeddings.Convert.Describe
import StaticEmbeddings.Convert.Importer
import StaticEmbeddings.Lib.Chunking

/-!
# Sources

`importers.rb`, `importers/*.rb` and `canonical.rb` under `lib/static_embeddings/`. A directory is
what its files hold; the interpreter and its libraries are a parameter, and so is
`contained_directory`.

* `loadJson`, `loadObject`, `detect`, `modulePath`: which directory is which source.
* `resolveMaxTokens`, `resolveTruncation`, `resolveDimensions`, `normalizeMrlDims`: the options.
* `readVector`, `extractMatrix`: the tensors.
* `CanonicalModel`, `Model2Vec.call`, `SentenceTransformersStatic.call`, **`importModel`**.
-/

namespace StaticEmbeddings

open LittleEndian JsonValue

/-! ## Errors -/

/-- The exceptions of a conversion. -/
inductive ConvertError
  /-- `InvalidSourceError`. -/
  | invalidSource (message : String)
  /-- `InvalidOptionError`. -/
  | invalidOption (message : String)
  /-- `UnsupportedModelError`. -/
  | unsupported (message : String)
  /-- `ConversionError`. -/
  | conversion (message : String)
  /-- `RuntimeError`. -/
  | runtime (message : String)
  /-- Raised by `BertWordPiece`. -/
  | tokenizer (e : Raised BertWordPiece.ImportError)
  /-- Raised by `Safetensors.describe`. -/
  | header (e : Raised Safetensors.HeaderError)
  /-- Raised by the payloads and the writer. -/
  | write (e : WriteError)

/-- The result of a step of a conversion. -/
abbrev Convert (α : Type) := Except ConvertError α

/-- A step that raises exceptions of one kind. -/
def raising {ε α : Type} (wrap : ε → ConvertError) : Except ε α → Convert α
  | .ok a => .ok a
  | .error e => .error (wrap e)

theorem raising_eq_ok {ε α : Type} {wrap : ε → ConvertError} {x : Except ε α} {a : α} :
    raising wrap x = .ok a ↔ x = .ok a := by
  cases x <;> simp [raising]

/-- What Ruby and its libraries compute: `JSON.parse` (a value, or the message of a `ParserError`),
`inspect`, `Integer(…)`, `half_to_float` and the product of a float and a weight. -/
structure Ruby where
  parse : Bytes → Except String Json
  inspect : Json → String
  integer : Json → BertWordPiece.Import ℤ
  half : ℕ → UInt32
  mul : UInt32 → Number → UInt32

/-- A directory: its path, which does not end in a separator, and what its files hold. -/
structure Directory where
  path : String
  read : String → Option Bytes

/-- `File.join`. -/
def Directory.join (dir : Directory) (name : String) : String := dir.path ++ "/" ++ name

/-- `File.file?`. -/
def Directory.isFile (dir : Directory) (name : String) : Bool := (dir.read name).isSome

namespace Importers

/-! ## JSON files -/

section Files

variable (ruby : Ruby)

/-- `load_json`; a file that may be missing is `nil`. -/
def loadJson (dir : Directory) (name : String) (optional : Bool) : Convert Json :=
  match dir.read name with
  | none =>
    if optional then .ok .null
    else .error (.invalidSource ("missing " ++ name ++ " in " ++ dir.path))
  | some bytes =>
    match ruby.parse bytes with
    | .ok value => .ok value
    | .error message =>
      .error (.invalidSource ("invalid JSON in " ++ dir.join name ++ ": " ++ message))

/-- `load_object`: the entries, or `nil`, which is what a file with `null` gives too. -/
def loadObject (dir : Directory) (name : String) (optional : Bool) :
    Convert (Option (List (String × Json))) := do
  match ← loadJson ruby dir name optional with
  | .null => return none
  | .object entries => return some entries
  | _ => throw (.invalidSource (dir.join name ++ " must contain a JSON object"))

/-! ## The family of a source -/

/-- What `detect` returns. -/
inductive Family
  | model2vec
  | sentenceTransformersStatic
  deriving DecidableEq, Repr

/-- `model2vec_config?`. -/
def model2vecConfig (config : List (String × Json)) : Bool :=
  (Json.get config "model_type").isString "model2vec" ||
    match Json.get config "architectures" with
    | .array items => items.any (Json.isString "StaticModel")
    | value => value.isString "StaticModel"

/-- `detect`. -/
def detect (root : Directory) : Convert Family := do
  let config := (← loadObject ruby root "config.json" true).getD []
  let files := root.isFile "tokenizer.json" && root.isFile "model.safetensors"
  if model2vecConfig config && files then return .model2vec
  if root.isFile "modules.json" then return .sentenceTransformersStatic
  if files then
    throw (.invalidSource ("cannot prove source family in " ++ root.path ++
      ": config.json is not Model2Vec and modules.json is absent"))
  throw (.invalidSource ("cannot detect a static embedding source in " ++ root.path ++
    ": need a Model2Vec config with tokenizer.json + model.safetensors, or modules.json for " ++
    "Sentence Transformers StaticEmbedding"))

/-- `TYPE`. -/
abbrev staticEmbeddingType : String := "sentence_transformers.models.StaticEmbedding"

/-- `reject_source`. -/
def rejectSource {α : Type} (message : String) : Convert α :=
  .error (.unsupported (message ++ ". Sentence Transformers conversion accepts exactly one " ++
    staticEmbeddingType ++ " module using " ++ BertWordPiece.tokenizerProfile ++ "."))

/-- `module_spec(root).fetch("path")`. -/
def modulePath (root : Directory) : Convert String := do
  match ← loadJson ruby root "modules.json" false with
  | .array [.object entries] =>
    let type := Json.get entries "type"
    if ¬ type.isString staticEmbeddingType then
      rejectSource ("modules.json[0].type is " ++ ruby.inspect type ++ ", expected " ++
        staticEmbeddingType)
    else
      match entries.lookup "path" with
      | none => rejectSource "modules.json[0] has no path"
      | some (.string path) => return path
      | some _ => rejectSource "modules.json[0].path is not a string"
  | .array [_] => rejectSource "modules.json[0] is not an object"
  | .array modules => rejectSource ("modules.json declares " ++ toString modules.length ++
      " modules, expected exactly one StaticEmbedding")
  | _ => rejectSource "modules.json is not an array"

end Files

/-! ## Options -/

/-- The `max_tokens` option; `unlimited` is `false` or `:unlimited`. -/
inductive MaxTokens
  | unspecified
  | unlimited
  | count (n : ℤ)
  deriving DecidableEq, Repr

/-- The options that a converted file depends on. -/
structure Options where
  maxTokens : MaxTokens
  dimensions : Option ℤ
  trainedMrlDims : Option (List ℤ)
  truncation : Option String

/-- `resolve_max_tokens`. -/
def resolveMaxTokens (requested : MaxTokens) (default : ℕ) : Convert ℕ :=
  match requested with
  | .unspecified => .ok default
  | .unlimited | .count 0 => .ok 0
  | .count n =>
    if 1 ≤ n ∧ n ≤ uint32Max then .ok n.toNat
    else .error (.invalidOption ("max_tokens must be 1.." ++ toString uint32Max ++
      ", false, or :unlimited"))

/-- `TRUNCATION_POLICIES`. -/
def truncationPolicies : List (String × ℕ) :=
  [("raw_ids", truncateRawIds), ("usable_ids", truncateUsableIds)]

/-- `resolve_truncation`, of a string. -/
def resolveTruncation (ruby : Ruby) (requested : Option String) (default : String) : Convert ℕ :=
  let key := String.ofList ((requested.getD default).toList.map fun c => if c = '-' then '_' else c)
  match truncationPolicies.lookup key with
  | some policy => .ok policy
  | none => .error (.invalidOption ("truncation must be one of [:raw_ids, :usable_ids], got " ++
      ruby.inspect ((requested.map .string).getD .null)))

/-- `resolve_dimensions`. -/
def resolveDimensions (requested : Option ℤ) (nativeDim : ℕ) : Convert ℕ :=
  match requested with
  | none => .ok nativeDim
  | some value =>
    if 1 ≤ value ∧ value ≤ nativeDim then .ok value.toNat
    else .error (.invalidOption ("dimensions must be between 1 and native_dim " ++
      toString nativeDim ++ ", got " ++ toString value))

/-- `normalize_mrl_dims`, of an array. -/
def normalizeMrlDims (value : Option (List ℤ)) (nativeDim : ℕ) : Convert (Option (List ℤ)) :=
  match value with
  | none => .ok none
  | some dims =>
    if dims = [] ∨ ∃ dim ∈ dims, ¬ (1 ≤ dim ∧ dim ≤ nativeDim) then
      .error (.invalidOption ("trained_mrl_dims must contain dimensions between 1 and " ++
        toString nativeDim))
    else .ok (some dims.eraseDups)

/-! ## Tensors -/

/-- The little-endian number of a word. -/
def wordValue (word : Bytes) : ℕ := word.foldr (fun b n => b.toNat + 2 ^ 8 * n) 0

/-- `unpack` of words of `size` bytes; a part of a word at the end is dropped. -/
def unpackWords (size : ℕ) (bytes : Bytes) : List ℕ := (Chunking.rows size bytes).map wordValue

/-- The binary64 value of a float of 32 bits. -/
def widen (x : UInt32) : ℕ :=
  let sign := x.toNat / 2 ^ 31 * 2 ^ 63
  let exponent := x.toNat / 2 ^ 23 % 2 ^ 8
  let fraction := x.toNat % 2 ^ 23
  if exponent = 0xFF then sign + 0x7FF * 2 ^ 52 + fraction * 2 ^ 29
  else if exponent ≠ 0 then sign + (exponent + 896) * 2 ^ 52 + fraction * 2 ^ 29
  else if fraction = 0 then sign
  else
    -- a subnormal float is a normal one of binary64
    let top := Nat.log2 fraction
    sign + (top + 874) * 2 ^ 52 + (fraction - 2 ^ top) * 2 ^ (52 - top)

/-- The numbers of a buffer of floats. -/
def floatNumbers (bytes : Bytes) : List Number :=
  (unpackFloats bytes).map fun x => .float (widen x)

/-- The numbers of a buffer of integers of `size` bytes in two's complement. -/
def integerNumbers (size : ℕ) (bytes : Bytes) : List Number :=
  (unpackWords size bytes).map fun n : ℕ => .integer ((n : ℤ).bmod (2 ^ (8 * size)))

/-- `read_vector`. -/
def readVector (half : ℕ → UInt32) (path : String) (file : Bytes) (tensor : Tensor) :
    Except WriteError (List Number) := do
  let bytes := slice file tensor.absoluteOffset tensor.sourceBytes
  if bytes.length ≠ tensor.sourceBytes then
    throw (.conversion ("tensor data is truncated while reading " ++ path))
  match tensor.dtype with
  | .f32 => return floatNumbers bytes
  | .f64 => return (unpackWords 8 bytes).map .float
  | .f16 => return floatNumbers (← Safetensors.convertF16ToF32 half bytes)
  | .bf16 => return floatNumbers (← Safetensors.convertBf16ToF32 bytes)
  | .i64 => return integerNumbers 8 bytes
  | .i32 => return integerNumbers 4 bytes

/-- The tensor that an entry of `describe` stands for. -/
def tensorOf? (d : Safetensors.Descriptor) : Option Tensor := do
  let dtype ← Safetensors.elementType? d.dtype
  let shape ← Safetensors.dims? d.shape
  if h : d.sourceBytes = shape.foldl (· * ·) 1 * dtype.elementSize then
    some ⟨dtype, shape, d.absoluteOffset, d.sourceBytes, h⟩
  else none

/-- The tensors of a file by their names: the header is an object, since its text begins like one. -/
def tensorsOf (description : Safetensors.Description) : List (String × Tensor) :=
  description.tensors.filterMap fun entry =>
    match entry.1 with
    | .string name => (tensorOf? entry.2).map (name, ·)
    | _ => none

section Matrix

variable (ruby : Ruby)

/-- `sole_matrix_tensor`. -/
def soleMatrixTensor (tensors : List (String × Tensor)) : Convert (String × Tensor) :=
  match tensors.filter fun t => t.2.shape.length = 2 with
  | [] => .error (.conversion "model.safetensors contains no 2-D tensor")
  | [matrix] => .ok matrix
  | matrices => .error (.conversion ("model.safetensors contains several 2-D tensors (" ++
      ruby.inspect (.array (matrices.map fun t => .string t.1)) ++ "); expected exactly one"))

/-- `reject_unknown_tensors`. -/
def rejectUnknownTensors (tensors : List (String × Tensor)) (matrixName : String)
    (sideTensors : List String) : Convert Unit :=
  let unknown := (tensors.map Prod.fst).filter fun name => name ≠ matrixName ∧ name ∉ sideTensors
  if unknown = [] then .ok ()
  else .error (.conversion ("model.safetensors contains tensors this converter does not " ++
    "understand: " ++ ruby.inspect (.array (unknown.map .string)) ++
    "; refusing to ignore them because that would silently change vectors"))

/-- `side_vector`. -/
def sideVector (path : String) (file : Bytes) (tensors : List (String × Tensor)) (key : String)
    (vocabSize : ℕ) (sideTensors : List String) : Convert (Option (List Number)) :=
  match if key ∈ sideTensors then tensors.lookup key else none with
  | none => .ok none
  | some tensor =>
    if tensor.shape = [vocabSize] then
      (raising .write (readVector ruby.half path file tensor)).map some
    else .error (.conversion (key ++ " tensor has shape " ++
      ruby.inspect (.array (tensor.shape.map fun n : ℕ => .int n)) ++ ", expected [" ++
      toString vocabSize ++ "]"))

/-- `extract_matrix`: the payload and the dimension. -/
def extractMatrix (dir : Directory) (vocabSize : ℕ) (sideTensors : List String) :
    Convert (Payload × ℕ) := do
  let path := dir.join "model.safetensors"
  let some file := dir.read "model.safetensors"
    | throw (.invalidSource ("missing model.safetensors in " ++ dir.path))
  let tensors := tensorsOf (← raising .header (Safetensors.describe ruby.parse file))
  let (name, tensor) ← soleMatrixTensor ruby tensors
  rejectUnknownTensors ruby tensors name sideTensors
  let rows := tensor.shape.getD 0 0
  let dim := tensor.shape.getD 1 0
  if ¬ (0 < dim ∧ dim ≤ uint32Max) then
    throw (.conversion ("embedding matrix " ++ name ++ " has unsupported dimension " ++
      toString dim))
  let payload ← raising .write (f32Payload ruby.half path file tensor)
  let weights ← sideVector ruby path file tensors "weights" vocabSize sideTensors
  let mapping ← sideVector ruby path file tensors "mapping" vocabSize sideTensors
  let indices ← raising .write (checkedRows name mapping rows vocabSize)
  raising .write (validateWeights weights)
  let payload ← raising .write (withSides ruby.mul payload dim rows vocabSize weights indices)
  return (payload, dim)

end Matrix

end Importers

/-! ## Canonical models -/

/-- The UTF-8 bytes of a string. -/
def stringBytes (s : String) : Bytes := s.toUTF8.data.toList

/-- The hash that `runtime_meta` returns. -/
structure TokenizerMeta where
  doLowerCase : Bool
  stripAccents : Bool
  handleChineseChars : Bool
  cleanText : Bool
  addedTokenMask : ℕ
  maxInputCharsPerWord : ℕ
  maxTokenChars : ℕ
  subwordPrefix : Bytes
  padId : ℕ
  unkId : ℕ
  clsId : ℕ
  sepId : ℕ
  maskId : ℕ

/-- `BertWordPiece.runtime_meta`. -/
def BertWordPiece.runtimeMeta (ruby : Ruby) (profile : Profile) (tokens : List String) :
    Import TokenizerMeta := do
  let bytes := tokens.map stringBytes
  let idOf (token : Bytes) : ℕ := (bytes.idxOf? token).getD 0
  let some unkId := bytes.idxOf? textUnk
    | invalid ("vocabulary has no " ++ ruby.inspect (.string "[UNK]"))
  return {
    doLowerCase := profile.lowercase
    stripAccents := profile.stripAccents
    handleChineseChars := profile.handleChineseChars
    cleanText := profile.cleanText
    addedTokenMask := profile.addedTokenMask
    maxInputCharsPerWord := profile.maxInputCharsPerWord
    maxTokenChars := maxTokenChars bytes continuingSubwordPrefix
    subwordPrefix := continuingSubwordPrefix
    padId := idOf textPad
    unkId := unkId
    clsId := idOf textCls
    sepId := idOf textSep
    maskId := idOf textMask }

/-- `Canonical::Dimensions`. -/
structure Dimensions where
  native : ℕ
  output : ℕ
  trained : Option (List ℤ)

/-- `Canonical::Runtime`. -/
structure Runtime where
  normalization : ℕ
  unkPolicy : ℕ
  emptyPolicy : ℕ
  maxTokens : ℕ
  addSpecialTokens : Bool
  truncation : ℕ

/-- `Canonical::Model`, without its `source`, which only the provenance has. -/
structure CanonicalModel where
  tokens : List String
  matrix : Payload
  dimensions : Dimensions
  runtime : Runtime
  tokenizer : TokenizerMeta

namespace Importers

variable (ruby : Ruby)

/-- The end of both `call`s, from the compiled tokenizer on. -/
def canonicalModel (dir : Directory) (options : Options)
    (compiled : BertWordPiece.Profile × List String) (sideTensors : List String)
    (normalization unkPolicy : ℕ) (defaultMaxTokens : Convert ℕ) (defaultTruncation : String) :
    Convert CanonicalModel := do
  let (profile, tokens) := compiled
  let (payload, nativeDim) ← extractMatrix ruby dir tokens.length sideTensors
  let outputDim ← resolveDimensions options.dimensions nativeDim
  let matrix ← raising .write (sliceMatrix payload nativeDim outputDim)
  let trained ← normalizeMrlDims options.trainedMrlDims nativeDim
  let maxTokens ← resolveMaxTokens options.maxTokens (← defaultMaxTokens)
  let truncation ← resolveTruncation ruby options.truncation defaultTruncation
  let tokenizer ← raising .tokenizer (BertWordPiece.runtimeMeta ruby profile tokens)
  return {
    tokens := tokens
    matrix := matrix
    dimensions := ⟨nativeDim, outputDim, trained⟩
    runtime := ⟨normalization, unkPolicy, emptyZeroVector, maxTokens, false, truncation⟩
    tokenizer := tokenizer }

/-- `BertWordPiece.compile` of what `load_object` returned. -/
def compileTokenizer (tokenizer : Option (List (String × Json)))
    (tokenizerConfig : List (String × Json)) : Convert (BertWordPiece.Profile × List String) :=
  raising .tokenizer (BertWordPiece.compile ruby.inspect ruby.integer
    ((tokenizer.map .object).getD .null) (.object tokenizerConfig))

namespace Model2Vec

/-- `default_max_tokens`. -/
def defaultMaxTokens (config : List (String × Json)) : Convert ℕ :=
  let malformed (value : Json) : Convert ℕ :=
    .error (.invalidSource ("config.json max_length must be an integer in 1.." ++
      toString uint32Max ++ " or null, got " ++ ruby.inspect value))
  match config.lookup "max_length" with
  | none => .ok 512
  | some .null => .ok 0
  | some (.int n) => if 1 ≤ n ∧ n ≤ uint32Max then .ok n.toNat else malformed (.int n)
  | some value => malformed value

/-- `normalization`. -/
def normalization (config : List (String × Json)) : ℕ :=
  if (BertWordPiece.fetch config "normalize" (.bool false)).truthy then 1 else 0

/-- `Model2Vec.call`. -/
def call (root : Directory) (options : Options) : Convert CanonicalModel := do
  let tokenizer ← loadObject ruby root "tokenizer.json" false
  let config := (← loadObject ruby root "config.json" true).getD []
  let tokenizerConfig := (← loadObject ruby root "tokenizer_config.json" true).getD []
  let compiled ← compileTokenizer ruby tokenizer tokenizerConfig
  canonicalModel ruby root options compiled ["weights", "mapping"] (normalization config) unkDrop
    (defaultMaxTokens ruby config) "raw_ids"

end Model2Vec

namespace SentenceTransformersStatic

/-- `SentenceTransformersStatic.call`; the result of `contained_directory` is a directory or the
message of `reject_source`. -/
def call (contained : String → Except String Directory) (root : Directory) (options : Options) :
    Convert CanonicalModel := do
  let path ← modulePath ruby root
  match contained path with
  | .error message => rejectSource message
  | .ok moduleDir =>
    let tokenizer ← loadObject ruby moduleDir "tokenizer.json" false
    let tokenizerConfig := (← loadObject ruby moduleDir "tokenizer_config.json" true).getD []
    -- only the provenance has a field of the configuration
    let _ ← loadObject ruby moduleDir "config.json" true
    let compiled ← compileTokenizer ruby tokenizer tokenizerConfig
    canonicalModel ruby moduleDir options compiled [] 0 unkInclude (.ok 0) "usable_ids"

end SentenceTransformersStatic

/-- `import`, of a directory that exists. -/
def importModel (contained : String → Except String Directory) (root : Directory)
    (options : Options) : Convert CanonicalModel := do
  match ← detect ruby root with
  | .model2vec => Model2Vec.call ruby root options
  | .sentenceTransformersStatic => SentenceTransformersStatic.call ruby contained root options

end Importers

end StaticEmbeddings
