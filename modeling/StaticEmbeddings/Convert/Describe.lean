import StaticEmbeddings.Lib.JsonValue
import StaticEmbeddings.Convert.Payloads

/-!
# The header of a safetensors file

`describe` of `lib/static_embeddings/safetensors.rb` and what it calls. `parse` is `JSON.parse`: a
value, or the message of a `ParserError`.

* `readHeader`, `checkedOffsets`, `checkedTensorBytes`, `describe`.
* `FailClosed`: a map whose tensors fit into the file, or a `ConversionError`.
* `WellFormed`: the values that stand for a tensor; `describeTensor_spec`: what becomes of any
  value; `describeTensor_name?`: its error names the entry.
* **`describe_fail_closed`**: for which files `describe` is fail-closed; `describe_null`: not for
  all.
-/

namespace StaticEmbeddings

open LittleEndian JsonValue

namespace Safetensors

/-- `MAX_HEADER_BYTES`. -/
abbrev maxHeaderBytes : ℕ := 100 * 1024 * 1024

/-- The `ConversionError`s of `describe`. -/
inductive HeaderError
  | shortPrefix
  | headerLength (len : ℕ)
  | headerPastEnd
  | notObject
  | parser (message : String)
  | malformedOffsets (name : Json)
  | offsetsOutOfBounds (name : Json)
  | unsupportedDtype (name dtype : Json)
  | malformedShape (name shape : Json)
  | sizeMismatch (name shape : Json) (expected actual : ℕ)

/-- The text of an error; `toS` and `inspect` are Ruby's. -/
def HeaderError.message (toS inspect : Json → String) : HeaderError → String
  | shortPrefix => "safetensors file is shorter than its length prefix"
  | headerLength len => "implausible safetensors header length " ++ toString len
  | headerPastEnd => "safetensors header runs past end of file"
  | notObject => "safetensors header is not a JSON object"
  | parser message => "invalid safetensors JSON header: " ++ message
  | malformedOffsets name => "tensor " ++ toS name ++ ": malformed data_offsets"
  | offsetsOutOfBounds name => "tensor " ++ toS name ++ ": data_offsets out of bounds"
  | unsupportedDtype name dtype => "tensor " ++ toS name ++ ": dtype " ++ toS dtype ++
      " is not supported (expected F32, F16, BF16, F64, I64, I32)"
  | malformedShape name shape => "tensor " ++ toS name ++ ": malformed shape " ++ inspect shape
  | sizeMismatch name shape expected actual => "tensor " ++ toS name ++ ": shape " ++
      inspect shape ++ " implies " ++ toString expected ++ " bytes, offsets span " ++
      toString actual

/-- `String#lstrip`, on bytes. -/
def lstrip (bytes : Bytes) : Bytes :=
  bytes.dropWhile fun b => b = 0 || b = 0x20 || (0x09 ≤ b && b ≤ 0x0D)

/-- `read_header`: the header, and where the body begins. -/
def readHeader (parse : Bytes → Except String Json) (file : Bytes) :
    Except (Raised HeaderError) (Json × ℕ) := do
  if file.length < 8 then throw (.own .shortPrefix)
  let some headerLen := u64? (slice file 0 8) 0 | throw (.own .shortPrefix)
  if ¬ (0 < headerLen ∧ headerLen ≤ maxHeaderBytes) then throw (.own (.headerLength headerLen))
  let bodyOffset := 8 + headerLen
  if bodyOffset > file.length then throw (.own .headerPastEnd)
  let rawHeader := slice file 8 headerLen
  if rawHeader.length ≠ headerLen then throw (.own .headerPastEnd)
  if (lstrip rawHeader).head? ≠ some 0x7B then throw (.own .notObject)
  match parse rawHeader with
  | .ok header => return (header, bodyOffset)
  | .error message => throw (.own (.parser message))

/-- `checked_offsets`. -/
def checkedOffsets (name offsets : Json) (bodySize : ℕ) : Except (Raised HeaderError) (ℕ × ℕ) :=
  match offsets with
  | .array [.int beginOff, .int endOff] =>
    if beginOff ≥ 0 ∧ endOff ≥ beginOff ∧ endOff ≤ bodySize then
      .ok (beginOff.toNat, endOff.toNat)
    else .error (.own (.offsetsOutOfBounds name))
  | .array [_, _] => .error (.own (.offsetsOutOfBounds name))
  | _ => .error (.own (.malformedOffsets name))

/-- `ELEMENT_SIZES[dtype]`, as the type itself. -/
def elementType? : Json → Option Dtype
  | .string s => [.f32, .f16, .bf16, .f64, .i64, .i32].find? fun t : Dtype => t.name = s
  | _ => none

/-- An integer `dim >= 0`. -/
def dim? : Json → Option ℕ
  | .int n => if n ≥ 0 then some n.toNat else none
  | _ => none

/-- The shape, if it is an array of such integers. -/
def dims? : Json → Option (List ℕ)
  | .array items => items.mapM dim?
  | _ => none

/-- `checked_tensor_bytes`. -/
def checkedTensorBytes (name dtype shape : Json) : Except (Raised HeaderError) ℕ :=
  match elementType? dtype with
  | none => .error (.own (.unsupportedDtype name dtype))
  | some t =>
    match dims? shape with
    | none => .error (.own (.malformedShape name shape))
    | some dims => .ok (dims.foldl (· * ·) 1 * t.elementSize)

/-- An entry of the map of tensors. -/
structure Descriptor where
  dtype : Json
  shape : Json
  absoluteOffset : ℕ
  sourceBytes : ℕ

/-- The block of `describe` for one tensor. -/
def describeTensor (bodyOffset bodySize : ℕ) (name spec : Json) :
    Except (Raised HeaderError) Descriptor := do
  let dtype ← spec.index "dtype"
  let shape ← spec.index "shape"
  let offsets ← spec.index "data_offsets"
  let (beginOff, endOff) ← checkedOffsets name offsets bodySize
  let expected ← checkedTensorBytes name dtype shape
  let actual := endOff - beginOff
  if actual ≠ expected then throw (.own (.sizeMismatch name shape expected actual))
  return ⟨dtype, shape, bodyOffset + beginOff, actual⟩

/-- The name of the entry that is not a tensor. -/
abbrev metadataKey : String := "__metadata__"

/-- The loop of `describe`; the names of a `Hash` are different. -/
def describeTensors (bodyOffset bodySize : ℕ) :
    List (Json × Json) → Except (Raised HeaderError) (List (Json × Descriptor))
  | [] => .ok []
  | (name, spec) :: rest =>
    if name.isString metadataKey then describeTensors bodyOffset bodySize rest
    else do
      let tensor ← describeTensor bodyOffset bodySize name spec
      return (name, tensor) :: (← describeTensors bodyOffset bodySize rest)

/-- What `describe` returns. -/
structure Description where
  metadata : Json
  tensors : List (Json × Descriptor)

/-- `describe`. -/
def describe (parse : Bytes → Except String Json) (file : Bytes) :
    Except (Raised HeaderError) Description := do
  let (header, bodyOffset) ← readHeader parse file
  let bodySize := file.length - bodyOffset
  let tensors ← describeTensors bodyOffset bodySize (← header.pairs)
  let metadata ← header.index metadataKey
  return ⟨if metadata.truthy then metadata else .object [], tensors⟩

/-! ## What the checks let through -/

theorem elementType?_eq_some {value : Json} {t : Dtype} :
    elementType? value = some t ↔ value = .string t.name := by
  cases value with
  | string s =>
    unfold elementType?
    constructor
    · intro h
      have hname := List.find?_some h
      rw [decide_eq_true_eq] at hname
      rw [hname]
    · intro h
      cases h
      cases t <;> decide
  | _ => simp [elementType?]

theorem dim?_eq_some {value : Json} {n : ℕ} : dim? value = some n ↔ value = .int n := by
  cases value with
  | int m =>
    simp only [dim?, Option.ite_none_right_eq_some, Option.some.injEq, Json.int.injEq]
    omega
  | _ => simp [dim?]

theorem mapM_dim?_eq_some {items : List Json} {dims : List ℕ} :
    items.mapM dim? = some dims ↔ items = dims.map fun n : ℕ => .int n := by
  induction items generalizing dims with
  | nil => cases dims <;> simp
  | cons x items ih =>
    cases dims with
    | nil => simp [Option.bind_eq_some_iff]
    | cons n dims => simp [Option.bind_eq_some_iff, dim?_eq_some, ih]

theorem dims?_eq_some {value : Json} {dims : List ℕ} :
    dims? value = some dims ↔ value = .array (dims.map fun n : ℕ => .int n) := by
  cases value with
  | array items => rw [dims?, mapM_dim?_eq_some, Json.array.injEq]
  | _ => simp [dims?]

theorem checkedOffsets_cases (name offsets : Json) (bodySize : ℕ) :
    (∃ beginOff endOff : ℕ, offsets = .array [.int beginOff, .int endOff] ∧
      beginOff ≤ endOff ∧ endOff ≤ bodySize ∧
      checkedOffsets name offsets bodySize = .ok (beginOff, endOff)) ∨
    (¬ ∃ beginOff endOff : ℕ, offsets = .array [.int beginOff, .int endOff] ∧
      beginOff ≤ endOff ∧ endOff ≤ bodySize) ∧
      ∃ c, checkedOffsets name offsets bodySize = .error (.own c) := by
  unfold checkedOffsets
  split
  · rename_i b e
    by_cases h : b ≥ 0 ∧ e ≥ b ∧ e ≤ bodySize
    · left
      refine ⟨b.toNat, e.toNat, ?_, by omega, by omega, if_pos h⟩
      rw [Int.toNat_of_nonneg h.1, Int.toNat_of_nonneg (h.1.trans h.2.1)]
    · right
      refine ⟨?_, _, if_neg h⟩
      rintro ⟨b', e', heq, hle, hmax⟩
      simp only [Json.array.injEq, List.cons.injEq, Json.int.injEq, and_true] at heq
      omega
  · rename_i x y hno
    right
    refine ⟨?_, _, rfl⟩
    rintro ⟨b, e, heq, -⟩
    simp only [Json.array.injEq, List.cons.injEq, and_true] at heq
    exact hno b e heq.1 heq.2
  · rename_i hno _
    right
    refine ⟨?_, _, rfl⟩
    rintro ⟨b, e, heq, -⟩
    exact hno _ _ heq

theorem checkedTensorBytes_cases (name dtype shape : Json) :
    (∃ (t : Dtype) (dims : List ℕ), dtype = .string t.name ∧
      shape = .array (dims.map fun n : ℕ => .int n) ∧
      checkedTensorBytes name dtype shape = .ok (dims.foldl (· * ·) 1 * t.elementSize)) ∨
    (¬ ∃ (t : Dtype) (dims : List ℕ), dtype = .string t.name ∧
      shape = .array (dims.map fun n : ℕ => .int n)) ∧
      ∃ c, checkedTensorBytes name dtype shape = .error (.own c) := by
  unfold checkedTensorBytes
  cases ht : elementType? dtype with
  | none =>
    right
    refine ⟨?_, _, rfl⟩
    rintro ⟨t, dims, hdtype, -⟩
    rw [elementType?_eq_some.mpr hdtype] at ht
    cases ht
  | some t =>
    cases hdims : dims? shape with
    | none =>
      right
      refine ⟨?_, _, rfl⟩
      rintro ⟨t, dims, -, hshape⟩
      rw [dims?_eq_some.mpr hshape] at hdims
      cases hdims
    | some dims =>
      exact .inl ⟨t, dims, elementType?_eq_some.mp ht, dims?_eq_some.mp hdims, rfl⟩

/-! ## The specification -/

/-- What `describe` says of a tensor. -/
def Descriptor.ofTensor (t : Tensor) : Descriptor :=
  ⟨.string t.dtype.name, .array (t.shape.map fun n : ℕ => .int n), t.absoluteOffset, t.sourceBytes⟩

/-- A tensor whose bytes lie behind `bodyOffset` and before `fileSize`. -/
def Descriptor.Fits (bodyOffset fileSize : ℕ) (d : Descriptor) : Prop :=
  ∃ t : Tensor, d = .ofTensor t ∧ bodyOffset ≤ t.absoluteOffset ∧
    t.absoluteOffset + t.sourceBytes ≤ fileSize

/-- A `ConversionError`, or a map whose tensors all lie behind the header and inside the file. -/
def FailClosed (file : Bytes) : Except (Raised HeaderError) Description → Prop
  | .ok description => ∃ headerLen, u64? file 0 = some headerLen ∧
      ∀ entry ∈ description.tensors, entry.2.Fits (8 + headerLen) file.length
  | .error e => ∃ c, e = .own c

/-- The value stands for a tensor in a body of `bodySize` bytes. -/
def WellFormed (bodySize : ℕ) (spec : Json) : Prop :=
  ∃ (entries : List (String × Json)) (t : Dtype) (dims : List ℕ) (beginOff endOff : ℕ),
    spec = .object entries ∧ Json.get entries "dtype" = .string t.name ∧
    Json.get entries "shape" = .array (dims.map fun n : ℕ => .int n) ∧
    Json.get entries "data_offsets" = .array [.int beginOff, .int endOff] ∧
    beginOff ≤ endOff ∧ endOff ≤ bodySize ∧
    endOff - beginOff = dims.foldl (· * ·) 1 * t.elementSize

/-- An entry that should be a tensor and is not. -/
def Flawed (bodySize : ℕ) (entry : Json × Json) : Prop :=
  entry.1.isString metadataKey = false ∧ ¬ WellFormed bodySize entry.2

/-- The first entry that should be a tensor and is not has the value `spec`. -/
def FirstFlaw (bodySize : ℕ) (entries : List (Json × Json)) (spec : Json) : Prop :=
  ∃ before name after, entries = before ++ (name, spec) :: after ∧
    Flawed bodySize (name, spec) ∧ ∀ entry ∈ before, ¬ Flawed bodySize entry

/-- The first flaw of the header, if it has one, is an object or a string; an array as a header has
one. -/
def Describable (bodySize : ℕ) : Json → Prop
  | .object entries => ∀ spec,
      FirstFlaw bodySize (entries.map fun entry => (.string entry.1, entry.2)) spec →
        spec.Indexable
  | .array items => ∃ spec, FirstFlaw bodySize (items.map Json.destructure) spec ∧ spec.Indexable
  | _ => False

/-! ## One tensor -/

variable {bodyOffset bodySize : ℕ}

theorem describeTensor_bind {name spec dtype shape offsets : Json}
    (hdtype : spec.index (E := HeaderError) "dtype" = .ok dtype)
    (hshape : spec.index (E := HeaderError) "shape" = .ok shape)
    (hoffsets : spec.index (E := HeaderError) "data_offsets" = .ok offsets) :
    describeTensor bodyOffset bodySize name spec = do
      let (beginOff, endOff) ← checkedOffsets name offsets bodySize
      let expected ← checkedTensorBytes name dtype shape
      if endOff - beginOff ≠ expected then
        throw (.own (.sizeMismatch name shape expected (endOff - beginOff)))
      return ⟨dtype, shape, bodyOffset + beginOff, endOff - beginOff⟩ := by
  unfold describeTensor
  rw [hdtype, hshape, hoffsets]
  rfl

theorem describeTensor_object (bodyOffset bodySize : ℕ) (name : Json) (entries : List (String × Json)) :
    (WellFormed bodySize (.object entries) ∧
      ∃ d : Descriptor, d.Fits bodyOffset (bodyOffset + bodySize) ∧
        describeTensor bodyOffset bodySize name (.object entries) = .ok d) ∨
    (¬ WellFormed bodySize (.object entries) ∧
      ∃ c, describeTensor bodyOffset bodySize name (.object entries) = .error (.own c)) := by
  rw [@describeTensor_bind bodyOffset bodySize name (.object entries) _ _ _ rfl rfl rfl]
  obtain ⟨beginOff, endOff, hoffsets, hle, hmax, hok⟩ | ⟨hno, c, herror⟩ :=
    checkedOffsets_cases name (Json.get entries "data_offsets") bodySize
  · rw [hok]
    obtain ⟨t, dims, hdtype, hshape, hok⟩ | ⟨hno, c, herror⟩ := checkedTensorBytes_cases name
      (Json.get entries "dtype") (Json.get entries "shape")
    · by_cases hsize : endOff - beginOff = dims.foldl (· * ·) 1 * t.elementSize
      · left
        refine ⟨⟨entries, t, dims, beginOff, endOff, rfl, hdtype, hshape, hoffsets, hle, hmax,
          hsize⟩, .ofTensor ⟨t, dims, bodyOffset + beginOff, endOff - beginOff, hsize⟩,
          ⟨_, rfl, by simp, by simp only; omega⟩, ?_⟩
        simp only [bind, Except.bind, hok, hsize, ne_eq, not_true_eq_false, if_false, pure,
          Except.pure]
        rw [Descriptor.ofTensor, hdtype, hshape]
      · right
        constructor
        · rintro ⟨_, t', dims', b', e', heq, hdtype', hshape', hoffsets', -, -, hsize'⟩
          cases heq
          have ht : t = t' := Option.some.inj ((elementType?_eq_some.mpr hdtype).symm.trans
            (elementType?_eq_some.mpr hdtype'))
          have hdims : dims = dims' := Option.some.inj ((dims?_eq_some.mpr hshape).symm.trans
            (dims?_eq_some.mpr hshape'))
          have hends := hoffsets.symm.trans hoffsets'
          simp only [Json.array.injEq, List.cons.injEq, Json.int.injEq, Nat.cast_inj, and_true]
            at hends
          rw [hends.1, hends.2, ht, hdims] at hsize
          exact hsize hsize'
        · refine ⟨.sizeMismatch name (Json.get entries "shape")
            (dims.foldl (· * ·) 1 * t.elementSize) (endOff - beginOff), ?_⟩
          simp only [bind, Except.bind, hok, ne_eq, hsize, not_false_eq_true, if_true, throw,
            throwThe, MonadExceptOf.throw]
    · right
      refine ⟨?_, c, by rw [herror]; rfl⟩
      rintro ⟨_, t, dims, -, -, heq, hdtype, hshape, -⟩
      cases heq
      exact hno ⟨t, dims, hdtype, hshape⟩
  · right
    refine ⟨?_, c, by rw [herror]; rfl⟩
    rintro ⟨_, t, dims, beginOff, endOff, heq, -, -, hoffsets, hle, hmax, -⟩
    cases heq
    exact hno ⟨beginOff, endOff, hoffsets, hle, hmax⟩

theorem describeTensor_string (bodyOffset bodySize : ℕ) (name : Json) (s : String) :
    ∃ c, describeTensor bodyOffset bodySize name (.string s) = .error (.own c) := by
  obtain ⟨dtype, hdtype⟩ : ∃ v, (Json.string s).index (E := HeaderError) "dtype" = .ok v := ⟨_, rfl⟩
  obtain ⟨shape, hshape⟩ : ∃ v, (Json.string s).index (E := HeaderError) "shape" = .ok v := ⟨_, rfl⟩
  obtain hoffsets | hoffsets := Json.index_string (E := HeaderError) s "data_offsets"
  · exact ⟨.malformedOffsets name, by rw [describeTensor_bind hdtype hshape hoffsets]; rfl⟩
  · exact ⟨.malformedOffsets name, by rw [describeTensor_bind hdtype hshape hoffsets]; rfl⟩

/-- **What becomes of the value of an entry.** -/
theorem describeTensor_spec (bodyOffset bodySize : ℕ) (name spec : Json) :
    (WellFormed bodySize spec ∧ ∃ d : Descriptor, d.Fits bodyOffset (bodyOffset + bodySize) ∧
      describeTensor bodyOffset bodySize name spec = .ok d) ∨
    (¬ WellFormed bodySize spec ∧ ∃ e, describeTensor bodyOffset bodySize name spec = .error e ∧
      (spec.Indexable ↔ ∃ c, e = .own c)) := by
  by_cases hspec : spec.Indexable
  · cases spec with
    | object entries =>
      obtain h | ⟨hflaw, c, herror⟩ := describeTensor_object bodyOffset bodySize name
        entries
      · exact .inl h
      · exact .inr ⟨hflaw, _, herror, iff_of_true trivial ⟨c, rfl⟩⟩
    | string s =>
      obtain ⟨c, herror⟩ := describeTensor_string bodyOffset bodySize name s
      refine .inr ⟨?_, _, herror, iff_of_true trivial ⟨c, rfl⟩⟩
      rintro ⟨_, _, _, _, _, heq, -⟩
      cases heq
    | _ => exact hspec.elim
  · right
    obtain ⟨e, herror, hown⟩ := Json.index_eq_error hspec "dtype"
    refine ⟨?_, e, ?_, iff_of_false hspec fun ⟨c, hc⟩ => hown c hc⟩
    · rintro ⟨_, _, _, _, _, rfl, -⟩
      exact hspec trivial
    · unfold describeTensor
      rw [herror]
      rfl

/-- The tensor an error is about. -/
def HeaderError.name? : HeaderError → Option Json
  | malformedOffsets name | offsetsOutOfBounds name | unsupportedDtype name _
  | malformedShape name _ | sizeMismatch name _ _ _ => some name
  | _ => none

theorem HeaderError.message_of_name? {c : HeaderError} {name : Json} (h : c.name? = some name)
    (toS inspect : Json → String) :
    ∃ text, c.message toS inspect = "tensor " ++ toS name ++ text := by
  cases c with
  | malformedOffsets name' =>
    cases h
    exact ⟨_, rfl⟩
  | offsetsOutOfBounds name' =>
    cases h
    exact ⟨_, rfl⟩
  | unsupportedDtype name' dtype =>
    cases h
    exact ⟨": dtype " ++ (toS dtype ++
      " is not supported (expected F32, F16, BF16, F64, I64, I32)"), by
        unfold message
        simp only [String.append_assoc]⟩
  | malformedShape name' shape =>
    cases h
    exact ⟨": malformed shape " ++ inspect shape, by
      unfold message
      simp only [String.append_assoc]⟩
  | sizeMismatch name' shape expected actual =>
    cases h
    exact ⟨": shape " ++ (inspect shape ++ (" implies " ++ (toString expected ++
      (" bytes, offsets span " ++ toString actual)))), by
        unfold message
        simp only [String.append_assoc]⟩
  | _ => cases h

theorem checkedOffsets_name? {name offsets : Json} {c : HeaderError}
    (h : checkedOffsets name offsets bodySize = .error (.own c)) : c.name? = some name := by
  unfold checkedOffsets at h
  split at h
  · split_ifs at h
    cases h
    rfl
  · cases h
    rfl
  · cases h
    rfl

theorem checkedTensorBytes_name? {name dtype shape : Json} {c : HeaderError}
    (h : checkedTensorBytes name dtype shape = .error (.own c)) : c.name? = some name := by
  unfold checkedTensorBytes at h
  split at h
  · cases h
    rfl
  · split at h
    · cases h
      rfl
    · cases h

/-- Whatever is wrong with an entry, the error is about that entry. -/
theorem describeTensor_name? {name spec : Json} {c : HeaderError}
    (h : describeTensor bodyOffset bodySize name spec = .error (.own c)) : c.name? = some name := by
  unfold describeTensor at h
  cases hdtype : spec.index (E := HeaderError) "dtype" with
  | error e =>
    rw [hdtype] at h
    cases h
    exact absurd hdtype (Json.index_ne_own spec "dtype" c)
  | ok dtype =>
  cases hshape : spec.index (E := HeaderError) "shape" with
  | error e =>
    rw [hdtype, hshape] at h
    cases h
    exact absurd hshape (Json.index_ne_own spec "shape" c)
  | ok shape =>
  cases hoffsets : spec.index (E := HeaderError) "data_offsets" with
  | error e =>
    rw [hdtype, hshape, hoffsets] at h
    cases h
    exact absurd hoffsets (Json.index_ne_own spec "data_offsets" c)
  | ok offsets =>
  rw [hdtype, hshape, hoffsets] at h
  simp only [bind, Except.bind] at h
  cases hends : checkedOffsets name offsets bodySize with
  | error e =>
    rw [hends] at h
    cases h
    exact checkedOffsets_name? hends
  | ok ends =>
  rw [hends] at h
  cases hbytes : checkedTensorBytes name dtype shape with
  | error e =>
    rw [hbytes] at h
    cases h
    exact checkedTensorBytes_name? hbytes
  | ok expected =>
  rw [hbytes] at h
  simp only at h
  by_cases hsize : ends.2 - ends.1 ≠ expected
  · rw [if_pos hsize] at h
    cases h
    rfl
  · rw [if_neg hsize] at h
    cases h

/-! ## All tensors -/

theorem FirstFlaw.unique {entries : List (Json × Json)} {spec spec' : Json}
    (h : FirstFlaw bodySize entries spec) (h' : FirstFlaw bodySize entries spec') :
    spec = spec' := by
  obtain ⟨before, name, after, rfl, hflaw, hbefore⟩ := h
  obtain ⟨before', name', after', heq, hflaw', hbefore'⟩ := h'
  obtain ⟨more, rfl, hmore⟩ | ⟨more, rfl, hmore⟩ := List.append_eq_append_iff.mp heq
  · cases more with
    | nil =>
      cases hmore
      rfl
    | cons entry more =>
      cases hmore
      exact absurd hflaw (hbefore' _ (by simp))
  · cases more with
    | nil =>
      cases hmore
      rfl
    | cons entry more =>
      cases hmore
      exact absurd hflaw' (hbefore _ (by simp))

theorem FirstFlaw.exists_flawed {entries : List (Json × Json)} {spec : Json}
    (h : FirstFlaw bodySize entries spec) (hall : ∀ entry ∈ entries, ¬ Flawed bodySize entry) :
    False := by
  obtain ⟨before, name, after, rfl, hflaw, -⟩ := h
  exact hall _ (by simp) hflaw

theorem FirstFlaw.cons {entries : List (Json × Json)} {spec : Json} {entry : Json × Json}
    (h : FirstFlaw bodySize entries spec) (hfine : ¬ Flawed bodySize entry) :
    FirstFlaw bodySize (entry :: entries) spec := by
  obtain ⟨before, name, after, rfl, hflaw, hbefore⟩ := h
  exact ⟨entry :: before, name, after, rfl, hflaw, List.forall_mem_cons.mpr ⟨hfine, hbefore⟩⟩

/-- **What the loop does.** -/
theorem describeTensors_spec (bodyOffset bodySize : ℕ) (entries : List (Json × Json)) :
    ((∀ entry ∈ entries, ¬ Flawed bodySize entry) ∧
      ∃ tensors, describeTensors bodyOffset bodySize entries = .ok tensors ∧
        ∀ entry ∈ tensors, entry.2.Fits bodyOffset (bodyOffset + bodySize)) ∨
    ∃ spec e, FirstFlaw bodySize entries spec ∧
      describeTensors bodyOffset bodySize entries = .error e ∧
      (spec.Indexable ↔ ∃ c, e = .own c) := by
  induction entries with
  | nil => exact .inl ⟨by simp, [], rfl, by simp⟩
  | cons entry rest ih =>
    obtain ⟨name, spec⟩ := entry
    by_cases hname : name.isString metadataKey
    · have hskip : describeTensors bodyOffset bodySize ((name, spec) :: rest) =
          describeTensors bodyOffset bodySize rest := by
        rw [describeTensors, if_pos hname]
      have hfine : ¬ Flawed bodySize (name, spec) := by
        rintro ⟨hnot, -⟩
        exact Bool.false_ne_true (hnot.symm.trans hname)
      rw [hskip]
      exact ih.imp (fun h => ⟨List.forall_mem_cons.mpr ⟨hfine, h.1⟩, h.2⟩)
        fun ⟨spec', e, hfirst, h⟩ => ⟨spec', e, hfirst.cons hfine, h⟩
    · rw [Bool.not_eq_true] at hname
      have hloop : describeTensors bodyOffset bodySize ((name, spec) :: rest) = (do
          let tensor ← describeTensor bodyOffset bodySize name spec
          return (name, tensor) :: (← describeTensors bodyOffset bodySize rest)) := by
        rw [describeTensors, if_neg (by simp [hname])]
      rw [hloop]
      obtain ⟨hwell, d, hfits, hok⟩ | ⟨hflaw, e, herror, hown⟩ :=
        describeTensor_spec bodyOffset bodySize name spec
      · have hfine : ¬ Flawed bodySize (name, spec) := fun h => h.2 hwell
        rw [hok]
        obtain ⟨hall, tensors, hrest, htensors⟩ | ⟨spec', e, hfirst, hrest, hown⟩ := ih
        · refine .inl ⟨List.forall_mem_cons.mpr ⟨hfine, hall⟩, (name, d) :: tensors, ?_,
            List.forall_mem_cons.mpr ⟨hfits, htensors⟩⟩
          rw [hrest]
          rfl
        · refine .inr ⟨spec', e, hfirst.cons hfine, ?_, hown⟩
          rw [hrest]
          rfl
      · refine .inr ⟨spec, e, ⟨[], name, rest, rfl, ⟨hname, hflaw⟩, by simp⟩, ?_, hown⟩
        rw [herror]
        rfl

/-! ## The header -/

variable {parse : Bytes → Except String Json} {file : Bytes}

theorem readHeader_spec (parse : Bytes → Except String Json) (file : Bytes) :
    (∃ header headerLen, readHeader parse file = .ok (header, 8 + headerLen) ∧
      u64? file 0 = some headerLen ∧ 8 + headerLen ≤ file.length) ∨
    ∃ c, readHeader parse file = .error (.own c) := by
  unfold readHeader
  by_cases hshort : file.length < 8
  · exact .inr ⟨.shortPrefix, by rw [if_pos hshort]; rfl⟩
  rw [if_neg hshort]
  cases hlen : u64? (slice file 0 8) 0 with
  | none => exact .inr ⟨.shortPrefix, rfl⟩
  | some headerLen =>
    rw [u64?_slice le_rfl, Nat.add_zero] at hlen
    by_cases hplausible : ¬ (0 < headerLen ∧ headerLen ≤ maxHeaderBytes)
    · exact .inr ⟨.headerLength headerLen, by
        simp only [if_pos hplausible]; rfl⟩
    by_cases hend : 8 + headerLen > file.length
    · exact .inr ⟨.headerPastEnd, by
        simp only [if_neg hplausible, if_pos hend]; rfl⟩
    by_cases hraw : (slice file 8 headerLen).length ≠ headerLen
    · exact .inr ⟨.headerPastEnd, by
        simp only [if_neg hplausible, if_neg hend, if_pos hraw]; rfl⟩
    by_cases hbrace : (lstrip (slice file 8 headerLen)).head? ≠ some 0x7B
    · exact .inr ⟨.notObject, by
        simp only [if_neg hplausible, if_neg hend, if_neg hraw, if_pos hbrace]; rfl⟩
    simp only [if_neg hplausible, if_neg hend, if_neg hraw, if_neg hbrace]
    cases parse (slice file 8 headerLen) with
    | error message => exact .inr ⟨.parser message, rfl⟩
    | ok header => exact .inl ⟨header, headerLen, rfl, hlen, not_lt.mp hend⟩

theorem describe_of_header {header : Json} {headerLen : ℕ}
    (hread : readHeader parse file = .ok (header, 8 + headerLen))
    (hlen : u64? file 0 = some headerLen) (hend : 8 + headerLen ≤ file.length) :
    FailClosed file (describe parse file) ↔
      Describable (file.length - (8 + headerLen)) header := by
  have hsize : 8 + headerLen + (file.length - (8 + headerLen)) = file.length := by omega
  have hdescribe : describe parse file = (do
      let tensors ← describeTensors (8 + headerLen) (file.length - (8 + headerLen))
        (← header.pairs)
      let metadata ← header.index metadataKey
      return ⟨if metadata.truthy then metadata else .object [], tensors⟩) := by
    unfold describe
    rw [hread]
    rfl
  rw [hdescribe]
  cases header with
  | object entries =>
    obtain ⟨hall, tensors, hok, hfits⟩ | ⟨spec, e, hfirst, herror, hown⟩ :=
      describeTensors_spec (8 + headerLen) (file.length - (8 + headerLen))
        (entries.map fun entry => (Json.string entry.1, entry.2))
    · simp only [Json.pairs, Json.index, bind, Except.bind, hok, pure, Except.pure]
      refine iff_of_true ⟨headerLen, hlen, hsize ▸ hfits⟩ fun spec hfirst => ?_
      exact (hfirst.exists_flawed hall).elim
    · simp only [Json.pairs, bind, Except.bind, herror]
      refine hown.symm.trans ⟨fun h spec' hfirst' => ?_, fun h => h spec hfirst⟩
      rwa [hfirst'.unique hfirst]
  | array items =>
    obtain ⟨hall, tensors, hok, hfits⟩ | ⟨spec, e, hfirst, herror, hown⟩ :=
      describeTensors_spec (8 + headerLen) (file.length - (8 + headerLen)) (items.map Json.destructure)
    · simp only [Json.pairs, Json.index, bind, Except.bind, hok]
      refine iff_of_false (by simp [FailClosed]) ?_
      rintro ⟨spec, hfirst, -⟩
      exact hfirst.exists_flawed hall
    · simp only [Json.pairs, bind, Except.bind, herror]
      refine hown.symm.trans ⟨fun h => ⟨spec, hfirst, h⟩, ?_⟩
      rintro ⟨spec', hfirst', h⟩
      rwa [hfirst.unique hfirst']
  | _ => exact iff_of_false (by rintro ⟨c, ⟨⟩⟩) id

/-- **Which files `describe` is fail-closed for.** -/
theorem describe_fail_closed (parse : Bytes → Except String Json) (file : Bytes) :
    FailClosed file (describe parse file) ↔
      ∀ header bodyOffset, readHeader parse file = .ok (header, bodyOffset) →
        Describable (file.length - bodyOffset) header := by
  obtain ⟨header, headerLen, hread, hlen, hend⟩ | ⟨c, herror⟩ :=
    readHeader_spec parse file
  · rw [describe_of_header hread hlen hend]
    constructor
    · intro h header' bodyOffset hread'
      rw [hread] at hread'
      cases hread'
      exact h
    · intro h
      exact h header _ hread
  · have hdescribe : describe parse file = .error (.own c) := by
      unfold describe
      rw [herror]
      rfl
    rw [hdescribe]
    refine iff_of_true ⟨c, rfl⟩ fun header bodyOffset hread => ?_
    rw [herror] at hread
    cases hread

/-- `{"x":null}`. -/
def nullHeader : Bytes := [0x7B, 0x22, 0x78, 0x22, 0x3A, 0x6E, 0x75, 0x6C, 0x6C, 0x7D]

/-- `nil["dtype"]` is no `ConversionError`. -/
theorem describe_null :
    ¬ FailClosed (le64 10 ++ nullHeader) (describe
      (fun text => if text = nullHeader then .ok (.object [("x", .null)])
        else .error "unexpected token") (le64 10 ++ nullHeader)) := by
  have hraised : describe (fun text => if text = nullHeader then .ok (.object [("x", .null)])
      else .error "unexpected token") (le64 10 ++ nullHeader) =
        .error (.noMethodError "[]") := by
    rfl
  rw [hraised]
  rintro ⟨c, ⟨⟩⟩

end Safetensors

end StaticEmbeddings
