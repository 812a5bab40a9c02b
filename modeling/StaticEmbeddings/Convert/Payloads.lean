import StaticEmbeddings.Convert.Writer

/-!
# Matrix payloads

`row_prefix_payload.rb`, `weighted_payload.rb`, the streaming part of `safetensors.rb` and
`extract_matrix`, `slice_matrix` of `importers/support.rb`, all under `lib/static_embeddings/`.
A float is its 32 bits; `mul` is the scaling of one of them by a weight, `half` the conversion of
a half.

* `RowPrefixPayload.new`, `WeightedPayload.new`: a payload over a payload.
* `F32Payload.new`: the payload of a tensor of a file.
* `extractMatrix`, `sliceMatrix`: the payload that the writer gets.
-/

namespace StaticEmbeddings

open LittleEndian

/-- `FLOAT_BYTES`. -/
abbrev floatBytes : ℕ := 4

/-- `unpack("e*")`: a part of a float at the end is dropped. -/
def unpackFloats : Bytes → List UInt32
  | b₀ :: b₁ :: b₂ :: b₃ :: rest => UInt32.ofNat (word32 b₀ b₁ b₂ b₃) :: unpackFloats rest
  | _ => []

/-- `pack("e*")`. -/
def packFloats (floats : List UInt32) : Bytes := floats.flatMap fun x => le32 x.toNat

/-- `unpack("v*")`. -/
def unpackHalves : Bytes → List ℕ
  | b₀ :: b₁ :: rest => (b₀.toNat + 2 ^ 8 * b₁.toNat) :: unpackHalves rest
  | _ => []

/-- `byteslice`: `nil` from past the end. -/
def byteslice? (bytes : Bytes) (start len : ℕ) : Option Bytes :=
  if start ≤ bytes.length then some (slice bytes start len) else none

/-! ## The first columns of every row -/

namespace RowPrefixPayload

variable (sourceRowBytes outputRowBytes : ℕ)

/-- `split_complete_rows`. -/
def splitCompleteRows (data : Bytes) : Bytes × Bytes :=
  let bytes := data.length / sourceRowBytes * sourceRowBytes
  (data.take bytes, data.drop bytes)

/-- `slice_rows`. -/
def sliceRows (data : Bytes) : Bytes :=
  (List.range (data.length / sourceRowBytes)).flatMap fun r =>
    slice data (r * sourceRowBytes) outputRowBytes

/-- `RowPrefixPayload#each_chunk`, after the chunks that left `remainder`. -/
def eachChunk : Bytes → List Bytes → Except WriteError (List Bytes)
  | remainder, [] =>
    if remainder = [] then .ok []
    else .error (.conversion "truncated embedding matrix while slicing dimensions")
  | remainder, chunk :: rest => do
    let data := if remainder = [] then chunk else remainder ++ chunk
    let (completeRows, remainder) := splitCompleteRows sourceRowBytes data
    let out ← eachChunk remainder rest
    return if completeRows = [] then out
      else sliceRows sourceRowBytes outputRowBytes completeRows :: out

/-- `RowPrefixPayload.new`. -/
def new (inner : Payload) (nativeDim outputDim : ℕ) : Except WriteError Payload := do
  if ¬ 0 < nativeDim then throw (.invalidOption "native_dim must be positive")
  if ¬ (1 ≤ outputDim ∧ outputDim ≤ nativeDim) then
    throw (.invalidOption ("output_dim must be between 1 and " ++ toString nativeDim))
  let sourceRowBytes := nativeDim * floatBytes
  let outputRowBytes := outputDim * floatBytes
  if inner.bytesize % sourceRowBytes ≠ 0 then
    throw (.conversion ("embedding payload is not a whole number of " ++ toString nativeDim ++
      "-d rows"))
  return {
    bytesize := inner.bytesize / sourceRowBytes * outputRowBytes
    chunks := do eachChunk sourceRowBytes outputRowBytes [] (← inner.chunks) }

end RowPrefixPayload

/-! ## Weights and mapping -/

namespace WeightedPayload

/-- `ROWS_PER_CHUNK`. -/
abbrev rowsPerChunk : ℕ := 1024

variable {ω : Type} (mul : UInt32 → ω → UInt32)

/-- `scale`; the weight is `nil` past the end of the weights. -/
def scale (row : Bytes) (weight : Option ω) : Except WriteError Bytes :=
  match weight, unpackFloats row with
  | some w, floats => .ok (packFloats (floats.map (mul · w)))
  | none, [] => .ok []
  | none, _ :: _ => .error .nilValue

variable (rowBytes : ℕ)

/-- The inner loop of `each_streamed_chunk`. -/
def scaleRows (weights : List ω) (data : Bytes) (index : ℕ) : Except WriteError Bytes := do
  let rows ← (List.range (data.length / rowBytes)).mapM fun r =>
    scale mul (slice data (r * rowBytes) rowBytes) weights[index + r]?
  return rows.flatten

/-- `each_streamed_chunk`, after the chunks that left `remainder` and gave `index` rows. -/
def eachStreamedChunk (weights : List ω) :
    Bytes → ℕ → List Bytes → Except WriteError (List Bytes)
  | remainder, _, [] =>
    if remainder = [] then .ok []
    else .error (.conversion "truncated embedding matrix while applying weights")
  | remainder, index, chunk :: rest => do
    let data := if remainder = [] then chunk else remainder ++ chunk
    let whole := data.length / rowBytes * rowBytes
    let remainder := data.drop whole
    if whole = 0 then eachStreamedChunk weights remainder index rest
    else
      let out ← scaleRows mul rowBytes weights data index
      return out :: (← eachStreamedChunk weights remainder (index + whole / rowBytes) rest)

/-- Row `index` of the output of `each_mapped_chunk`. -/
def mappedRow (weights : Option (List ω)) (mapping : List ℕ) (table : Bytes) (index : ℕ) :
    Except WriteError Bytes :=
  match mapping[index]? with
  | none => .error .nilValue
  | some j =>
    match byteslice? table (j * rowBytes) rowBytes, weights with
    | none, _ => .error .nilValue
    | some row, none => .ok row
    | some row, some ws => scale mul row ws[index]?

/-- The loop of `each_mapped_chunk` from row `index` on. -/
def eachMappedChunk (weights : Option (List ω)) (mapping : List ℕ) (table : Bytes)
    (outputRows index : ℕ) : Except WriteError (List Bytes) :=
  if index < outputRows then do
    let count := min rowsPerChunk (outputRows - index)
    let rows ← (List.range count).mapM fun r =>
      mappedRow mul rowBytes weights mapping table (index + r)
    return rows.flatten :: (← eachMappedChunk weights mapping table outputRows (index + count))
  else .ok []
termination_by outputRows - index
decreasing_by
  simp only [rowsPerChunk]
  omega

/-- `WeightedPayload.new`. -/
def new (inner : Payload) (dim sourceRows outputRows : ℕ) (weights : Option (List ω))
    (mapping : Option (List ℕ)) : Except WriteError Payload := do
  if weights.isNone ∧ mapping.isNone then
    throw (.invalidOption "weights or mapping is required")
  if inner.bytesize ≠ sourceRows * dim * floatBytes then
    throw (.conversion ("embedding payload does not hold " ++ toString sourceRows ++ " rows of " ++
      toString dim ++ " floats"))
  let rowBytes := dim * floatBytes
  return {
    bytesize := outputRows * rowBytes
    chunks := do
      let chunks ← inner.chunks
      match mapping with
      | some mapping => eachMappedChunk mul rowBytes weights mapping chunks.flatten outputRows 0
      | none => eachStreamedChunk mul rowBytes (weights.getD []) [] 0 chunks }

end WeightedPayload

/-! ## The payload of a tensor -/

/-- The keys of `ELEMENT_SIZES`. -/
inductive Dtype
  | f32 | f16 | bf16 | f64 | i64 | i32
  deriving DecidableEq, Repr

/-- `ELEMENT_SIZES`. -/
def Dtype.elementSize : Dtype → ℕ
  | f32 => 4
  | f16 => 2
  | bf16 => 2
  | f64 => 8
  | i64 => 8
  | i32 => 4

/-- The name of the type in the header of a file. -/
def Dtype.name : Dtype → String
  | f32 => "F32"
  | f16 => "F16"
  | bf16 => "BF16"
  | f64 => "F64"
  | i64 => "I64"
  | i32 => "I32"

/-- `SUPPORTED_DTYPES`. -/
def Dtype.supported : Dtype → Bool
  | f32 | f16 | bf16 => true
  | f64 | i64 | i32 => false

/-- An entry of `describe(path)[:tensors]`. The last field is what `checked_tensor_bytes` has made
sure of. -/
structure Tensor where
  dtype : Dtype
  shape : List ℕ
  absoluteOffset : ℕ
  sourceBytes : ℕ
  described : sourceBytes = shape.foldl (· * ·) 1 * dtype.elementSize

namespace Safetensors

/-- `CONVERT_CHUNK_ELEMENTS * 2`. -/
abbrev convertChunkBytes : ℕ := 64 * 1024 * 2

/-- `IO_CHUNK_BYTES`. -/
abbrev ioChunkBytes : ℕ := 1024 * 1024

/-- The loop of the two conversions from `offset` on. -/
def convertChunks (decode : Bytes → Except WriteError Bytes) (bytes : Bytes) (offset : ℕ) :
    Except WriteError Bytes :=
  if offset < bytes.length then do
    let chunk := slice bytes offset (min convertChunkBytes (bytes.length - offset))
    let out ← decode chunk
    return out ++ (← convertChunks decode bytes (offset + chunk.length))
  else .ok []
termination_by bytes.length - offset
decreasing_by
  simp only [slice, convertChunkBytes, List.length_take, List.length_drop]
  omega

/-- `StaticEmbeddings.decode_f16(chunk)`, packed again. -/
def decodeF16 (half : ℕ → UInt32) (chunk : Bytes) : Except WriteError Bytes :=
  if chunk.length % 2 ≠ 0 then .error (.argument "f16 blob byte size must be a multiple of 2")
  else .ok (packFloats ((unpackHalves chunk).map half))

/-- `convert_f16_to_f32`. -/
def convertF16ToF32 (half : ℕ → UInt32) (bytes : Bytes) : Except WriteError Bytes :=
  convertChunks (decodeF16 half) bytes 0

/-- A brain float as a float. -/
def bf16 (bits : ℕ) : UInt32 := UInt32.ofNat (bits <<< 16)

/-- `convert_bf16_to_f32`. -/
def convertBf16ToF32 (bytes : Bytes) : Except WriteError Bytes :=
  convertChunks (fun chunk => .ok (packFloats ((unpackHalves chunk).map bf16))) bytes 0

end Safetensors

namespace F32Payload

open Safetensors

/-- `read_size`. -/
def readSize (dtype : Dtype) (remaining : ℕ) : ℕ :=
  let size := min remaining ioChunkBytes
  let size := if dtype ≠ .f32 ∧ size % 2 = 1 then size - 1 else size
  if size = 0 then remaining else size

theorem readSize_pos {dtype : Dtype} {remaining : ℕ} (h : 0 < remaining) :
    0 < readSize dtype remaining := by
  unfold readSize
  simp only
  split_ifs <;> omega

/-- The conversion of a chunk. -/
def convert (half : ℕ → UInt32) (dtype : Dtype) (chunk : Bytes) : Except WriteError Bytes :=
  match dtype with
  | .f32 => .ok chunk
  | .f16 => convertF16ToF32 half chunk
  | .bf16 => convertBf16ToF32 chunk
  | dtype => .error (.conversion ("tensor dtype " ++ dtype.name ++ " is not supported"))

/-- `F32Payload#each_chunk`, at `position` of the file. -/
def eachChunk (half : ℕ → UInt32) (path : String) (file : Bytes) (dtype : Dtype)
    (position remaining : ℕ) : Except WriteError (List Bytes) :=
  if h : 0 < remaining then do
    let size := readSize dtype remaining
    have : 0 < size := readSize_pos h
    let chunk := slice file position size
    if chunk.length ≠ size then
      throw (.conversion ("tensor data is truncated while streaming " ++ path))
    let out ← convert half dtype chunk
    return out :: (← eachChunk half path file dtype (position + size) (remaining - size))
  else .ok []
termination_by remaining

/-- `F32Payload.new`; the file is what it holds while it is streamed. -/
def new (half : ℕ → UInt32) (path : String) (file : Bytes) (tensor : Tensor) : Payload where
  bytesize := tensor.shape.foldl (· * ·) 1 * 4
  chunks := eachChunk half path file tensor.dtype tensor.absoluteOffset tensor.sourceBytes

end F32Payload

/-! ## The matrix of a source -/

/-- An entry of a side tensor. -/
inductive Number
  | integer (value : ℤ)
  | float (bits : ℕ)
  deriving DecidableEq, Repr

/-- `to_f.finite?`, for integers of 64 bits and floats of binary64. -/
def Number.isFinite : Number → Bool
  | integer _ => true
  | float bits => bits / 2 ^ 52 % 2 ^ 11 != 0x7FF

/-- The integer that the entry is, if it is in `0...rows`. -/
def Number.rowIndex? (rows : ℕ) : Number → Option ℕ
  | integer value => if 0 ≤ value ∧ value < rows then some value.toNat else none
  | float _ => none

/-- `f32_payload`. -/
def f32Payload (half : ℕ → UInt32) (path : String) (file : Bytes) (tensor : Tensor) :
    Except WriteError Payload :=
  if tensor.dtype.supported then .ok (F32Payload.new half path file tensor)
  else .error (.conversion ("embedding matrix dtype " ++ tensor.dtype.name ++
    " is not supported (expected F32, F16, or BF16)"))

/-- `validate_mapping`: the mapping as row indices. -/
def validateMapping (mapping : List Number) (rows : ℕ) : Except WriteError (List ℕ) :=
  match mapping.mapM (Number.rowIndex? rows) with
  | some indices => .ok indices
  | none => .error (.conversion ("mapping tensor must contain integer row indices in 0..." ++
      toString rows))

/-- `validate_mapping` where there is a mapping, and else the check that every token has a row. -/
def checkedRows (name : String) (mapping : Option (List Number)) (rows vocabSize : ℕ) :
    Except WriteError (Option (List ℕ)) :=
  match mapping with
  | some mapping => (validateMapping mapping rows).map some
  | none =>
    if rows = vocabSize then .ok none
    else .error (.conversion ("embedding matrix " ++ name ++ " has " ++ toString rows ++
      " rows but the tokenizer has " ++ toString vocabSize ++ " tokens"))

/-- `validate_weights`, where there are weights. -/
def validateWeights (weights : Option (List Number)) : Except WriteError Unit :=
  if (weights.getD []).all Number.isFinite then .ok ()
  else .error (.conversion "weights tensor contains non-finite values")

/-- `side_vector`: the tensor `key`, if the source has it. -/
def sideVector (key : String) (vector : Option (List Number)) (vocabSize : ℕ) :
    Except WriteError (Option (List Number)) :=
  match vector with
  | none => .ok none
  | some entries =>
    if entries.length = vocabSize then .ok (some entries)
    else .error (.conversion (key ++ " tensor has shape [" ++ toString entries.length ++
      "], expected [" ++ toString vocabSize ++ "]"))

/-- The last step of `extract_matrix`. -/
def withSides {ω : Type} (mul : UInt32 → ω → UInt32) (payload : Payload)
    (dim rows vocabSize : ℕ) (weights : Option (List ω)) (mapping : Option (List ℕ)) :
    Except WriteError Payload :=
  if weights.isSome ∨ mapping.isSome then
    WeightedPayload.new mul payload dim rows vocabSize weights mapping
  else .ok payload

/-- `extract_matrix`, from the sole matrix `tensor`, called `name`, and the side tensors on: the
payload and the dimension. -/
def extractMatrix (mul : UInt32 → Number → UInt32) (half : ℕ → UInt32) (path : String)
    (file : Bytes) (name : String) (tensor : Tensor) (weights mapping : Option (List Number))
    (vocabSize : ℕ) : Except WriteError (Payload × ℕ) :=
  let rows := tensor.shape.getD 0 0
  let dim := tensor.shape.getD 1 0
  if ¬ (0 < dim ∧ dim ≤ uint32Max) then
    .error (.conversion ("embedding matrix " ++ name ++ " has unsupported dimension " ++
      toString dim))
  else do
    let payload ← f32Payload half path file tensor
    let weights ← sideVector "weights" weights vocabSize
    let mapping ← sideVector "mapping" mapping vocabSize
    let indices ← checkedRows name mapping rows vocabSize
    validateWeights weights
    let payload ← withSides mul payload dim rows vocabSize weights indices
    return (payload, dim)

/-- `slice_matrix`. -/
def sliceMatrix (payload : Payload) (nativeDim outputDim : ℕ) : Except WriteError Payload :=
  if outputDim = nativeDim then .ok payload
  else RowPrefixPayload.new payload nativeDim outputDim

end StaticEmbeddings
