import StaticEmbeddings.Convert.Matrix
import StaticEmbeddings.Convert.Sources

/-!
# The matrix of a source

* `describe_eq_ok`, `tensorsOf_eq`: the tensors of a described file.
* `length_readVector`: a vector has an entry for every element.
* `sourceMatrix`: the rows of a tensor.
* `Extracted`: what `extract_matrix` has found; **`extractMatrix_spec`**.
* **`slicedMatrix_spec`**: the bytes of the matrix that is written.
-/

namespace StaticEmbeddings

open LittleEndian JsonValue

/-! ## Floats -/

theorem length_lt_of_no_float {bytes : Bytes}
    (hne : ∀ b₀ b₁ b₂ b₃ rest, bytes = b₀ :: b₁ :: b₂ :: b₃ :: rest → False) : bytes.length < 4 := by
  rcases bytes with _ | ⟨b₀, _ | ⟨b₁, _ | ⟨b₂, _ | ⟨b₃, rest⟩⟩⟩⟩
  · decide
  · exact (by decide : 1 < 4)
  · exact (by decide : 2 < 4)
  · exact (by decide : 3 < 4)
  · exact (hne b₀ b₁ b₂ b₃ rest rfl).elim

theorem length_unpackFloats (bytes : Bytes) : (unpackFloats bytes).length = bytes.length / 4 := by
  induction bytes using unpackFloats.induct with
  | case1 b₀ b₁ b₂ b₃ rest ih =>
    rw [unpackFloats, List.length_cons, ih]
    simp only [List.length_cons]
    omega
  | case2 bytes hne =>
    rw [unpackFloats]
    · exact (Nat.div_eq_of_lt (length_lt_of_no_float hne)).symm
    · exact hne

theorem packFloats_unpackFloats {bytes : Bytes} (h : 4 ∣ bytes.length) :
    packFloats (unpackFloats bytes) = bytes := by
  induction bytes using unpackFloats.induct with
  | case1 b₀ b₁ b₂ b₃ rest ih =>
    have hrest : 4 ∣ rest.length := by
      simp only [List.length_cons] at h
      omega
    have hword : (UInt32.ofNat (word32 b₀ b₁ b₂ b₃)).toNat = word32 b₀ b₁ b₂ b₃ := by
      rw [UInt32.toNat_ofNat', Nat.mod_eq_of_lt (word32_lt b₀ b₁ b₂ b₃)]
    rw [unpackFloats, packFloats_cons, ih hrest, hword, le32_word32]
    rfl
  | case2 bytes hne =>
    have hnil := Nat.eq_zero_of_dvd_of_lt h (length_lt_of_no_float hne)
    rw [List.length_eq_zero_iff.mp hnil]
    rfl

/-! ## Described tensors -/

namespace Safetensors

variable {parse : Bytes → Except String Json} {file : Bytes} {bodyOffset bodySize : ℕ}

theorem names_describeTensors {entries : List (Json × Json)} {tensors : List (Json × Descriptor)}
    (h : describeTensors bodyOffset bodySize entries = .ok tensors) :
    (tensors.map Prod.fst).Sublist (entries.map Prod.fst) := by
  induction entries generalizing tensors with
  | nil =>
    cases h
    exact .slnil
  | cons entry rest ih =>
    obtain ⟨name, spec⟩ := entry
    rw [describeTensors] at h
    split_ifs at h
    · exact (ih h).cons name
    · obtain ⟨tensor, -, h⟩ := bind_eq_ok.mp h
      obtain ⟨tensors', h, he⟩ := bind_eq_ok.mp h
      rw [← Except.ok.inj he]
      exact (ih h).cons_cons name

theorem typed_of_fits {tensors : List (Json × Descriptor)} {fileSize : ℕ}
    (hfits : ∀ entry ∈ tensors, entry.2.Fits bodyOffset fileSize)
    (hnames : ∀ entry ∈ tensors, ∃ name, entry.1 = .string name) :
    ∃ typed : List (String × Tensor),
      tensors = typed.map (fun t => (.string t.1, .ofTensor t.2)) ∧
      ∀ t ∈ typed, t.2.absoluteOffset + t.2.sourceBytes ≤ fileSize := by
  induction tensors with
  | nil => exact ⟨[], rfl, fun t ht => absurd ht List.not_mem_nil⟩
  | cons entry rest ih =>
    obtain ⟨typed, hrest, hinside⟩ := ih (fun e he => hfits e (List.mem_cons_of_mem _ he))
      fun e he => hnames e (List.mem_cons_of_mem _ he)
    obtain ⟨t, hd, -, hin⟩ := hfits entry List.mem_cons_self
    obtain ⟨name, hname⟩ := hnames entry List.mem_cons_self
    refine ⟨(name, t) :: typed, ?_, List.forall_mem_cons.mpr ⟨hin, hinside⟩⟩
    rw [hrest, List.map_cons, ← hd, ← hname]

/-- **A described file** has tensors with strings for names, and all of them inside. -/
theorem describe_eq_ok {d : Description} (h : describe parse file = .ok d) :
    ∃ tensors : List (String × Tensor),
      d.tensors = tensors.map (fun t => (.string t.1, .ofTensor t.2)) ∧
      ∀ t ∈ tensors, t.2.absoluteOffset + t.2.sourceBytes ≤ file.length := by
  obtain ⟨header, headerLen, hread, -, hend⟩ | ⟨c, herror⟩ := readHeader_spec parse file
  · unfold describe at h
    rw [hread] at h
    obtain ⟨_, ⟨⟩, h⟩ := bind_eq_ok.mp h
    obtain ⟨pairs, hpairs, h⟩ := bind_eq_ok.mp h
    obtain ⟨tensors, htensors, h⟩ := bind_eq_ok.mp h
    obtain ⟨metadata, hmetadata, h⟩ := bind_eq_ok.mp h
    obtain rfl := Except.ok.inj h
    -- an array has no key
    obtain ⟨entries, rfl⟩ : ∃ entries, header = .object entries := by
      cases header with
      | object entries => exact ⟨entries, rfl⟩
      | _ => cases hpairs <;> cases hmetadata
    obtain rfl := Except.ok.inj hpairs
    have hfits : ∀ entry ∈ tensors, entry.2.Fits (8 + headerLen) file.length := by
      have hsize : 8 + headerLen + (file.length - (8 + headerLen)) = file.length := by omega
      obtain ⟨-, tensors', hok, hfits⟩ | ⟨_, _, -, herror, -⟩ := describeTensors_spec (8 + headerLen)
        (file.length - (8 + headerLen)) (entries.map fun entry => (Json.string entry.1, entry.2))
      · rw [htensors] at hok
        rw [hsize, ← Except.ok.inj hok] at hfits
        exact hfits
      · rw [htensors] at herror
        cases herror
    have hnames : ∀ entry ∈ tensors, ∃ name, entry.1 = .string name := by
      intro entry hentry
      have hmem := (names_describeTensors htensors).subset (List.mem_map_of_mem hentry)
      rw [List.map_map] at hmem
      obtain ⟨e, -, he⟩ := List.mem_map.mp hmem
      exact ⟨e.1, he.symm⟩
    exact typed_of_fits hfits hnames
  · unfold describe at h
    rw [herror] at h
    cases h

end Safetensors

namespace Importers

theorem tensorOf?_ofTensor (t : Tensor) : tensorOf? (.ofTensor t) = some t := by
  unfold tensorOf? Safetensors.Descriptor.ofTensor
  rw [Safetensors.elementType?_eq_some.mpr rfl, Safetensors.dims?_eq_some.mpr rfl]
  simp only [Option.bind_eq_bind, Option.bind_some]
  rw [dif_pos t.described]

theorem tensorsOf_eq {d : Safetensors.Description} {tensors : List (String × Tensor)}
    (h : d.tensors = tensors.map fun t => (.string t.1, .ofTensor t.2)) : tensorsOf d = tensors := by
  unfold tensorsOf
  rw [h, List.filterMap_map]
  conv_rhs => rw [← @List.filterMap_some _ tensors]
  refine List.filterMap_congr fun t _ => ?_
  simp only [Function.comp_apply, tensorOf?_ofTensor, Option.map_some]

/-! ## Vectors -/

theorem length_floatNumbers (bytes : Bytes) : (floatNumbers bytes).length = bytes.length / 4 := by
  rw [floatNumbers, List.length_map, length_unpackFloats]

theorem length_unpackWords (size : ℕ) (bytes : Bytes) :
    (unpackWords size bytes).length = bytes.length / size := by
  rw [unpackWords, List.length_map, Chunking.length_rows]

theorem length_integerNumbers (size : ℕ) (bytes : Bytes) :
    (integerNumbers size bytes).length = bytes.length / size := by
  rw [integerNumbers, List.length_map, length_unpackWords]

/-- **A vector has an entry for every element**, if the file has all of its bytes. -/
theorem length_readVector {half : ℕ → UInt32} {path : String} {file : Bytes} {tensor : Tensor}
    {entries : List Number} (h : readVector half path file tensor = .ok entries) :
    entries.length = tensor.shape.foldl (· * ·) 1 := by
  have hdesc := tensor.described
  unfold readVector at h
  by_cases hlen : (slice file tensor.absoluteOffset tensor.sourceBytes).length = tensor.sourceBytes
  · rw [if_neg (not_not.mpr hlen)] at h
    rw [hdesc] at hlen
    have hconvert : ∀ dtype : Dtype, dtype.supported = true → dtype ≠ .f32 →
        tensor.dtype = dtype → F32Payload.convert half dtype
          (slice file tensor.absoluteOffset tensor.sourceBytes) =
            .ok (floatsOf half dtype (slice file tensor.absoluteOffset tensor.sourceBytes)) := by
      intro dtype hs hne ht
      refine F32Payload.convert_eq hs fun _ => ?_
      rw [hdesc, hlen, ht]
      cases dtype <;> simp_all [Dtype.elementSize, Dtype.supported]
    cases ht : tensor.dtype with
    | f32 =>
      rw [ht] at h hlen
      rw [← Except.ok.inj h, length_floatNumbers, hdesc, ht, hlen]
      exact Nat.mul_div_cancel _ (by decide)
    | f64 =>
      rw [ht] at h hlen
      rw [← Except.ok.inj h, List.length_map, length_unpackWords, hdesc, ht, hlen]
      exact Nat.mul_div_cancel _ (by decide)
    | f16 =>
      rw [ht] at h hlen
      have hc : Safetensors.convertF16ToF32 half _ = _ := hconvert .f16 rfl (by decide) ht
      simp only [hc] at h
      rw [← Except.ok.inj h, length_floatNumbers, floatsOf, length_packFloats, List.length_map,
        length_unpackHalves, hdesc, ht, hlen, Nat.mul_div_cancel _ (by decide)]
      exact Nat.mul_div_cancel _ (by decide)
    | bf16 =>
      rw [ht] at h hlen
      have hc : Safetensors.convertBf16ToF32 _ = _ := hconvert .bf16 rfl (by decide) ht
      simp only [hc] at h
      rw [← Except.ok.inj h, length_floatNumbers, floatsOf, length_packFloats, List.length_map,
        length_unpackHalves, hdesc, ht, hlen, Nat.mul_div_cancel _ (by decide)]
      exact Nat.mul_div_cancel _ (by decide)
    | i64 =>
      rw [ht] at h hlen
      rw [← Except.ok.inj h, length_integerNumbers, hdesc, ht, hlen]
      exact Nat.mul_div_cancel _ (by decide)
    | i32 =>
      rw [ht] at h hlen
      rw [← Except.ok.inj h, length_integerNumbers, hdesc, ht, hlen]
      exact Nat.mul_div_cancel _ (by decide)
  · rw [if_pos hlen] at h
    cases h

/-! ## The matrix -/

/-- The rows of a tensor as floats. -/
def sourceMatrix (half : ℕ → UInt32) (file : Bytes) (tensor : Tensor) : List (List UInt32) :=
  (Chunking.rows (tensor.shape.getD 1 0 * floatBytes) (floatsOf half tensor.dtype
    (slice file tensor.absoluteOffset tensor.sourceBytes))).map unpackFloats

/-- **The rows of a tensor** of two dimensions that lies in the file. -/
theorem sourceMatrix_spec {half : ℕ → UInt32} {file : Bytes} {tensor : Tensor} {rows dim : ℕ}
    (hdtype : tensor.dtype.supported) (hshape : tensor.shape = [rows, dim]) (hdim : 0 < dim)
    (hin : tensor.absoluteOffset + tensor.sourceBytes ≤ file.length) (path : String) :
    (sourceMatrix half file tensor).length = rows ∧
      (∀ row ∈ sourceMatrix half file tensor, row.length = dim) ∧
      ∃ cs, (F32Payload.new half path file tensor).chunks = .ok cs ∧
        cs.flatten = matrixBytes (sourceMatrix half file tensor) ∧
        (F32Payload.new half path file tensor).Honest := by
  obtain ⟨cs, hcs, hflat, hlen⟩ := (@F32Payload.new_spec half path _ _ hdtype).1 hin
  have hw : 0 < dim * floatBytes := Nat.mul_pos hdim (by decide)
  have hbytes : (floatsOf half tensor.dtype
      (slice file tensor.absoluteOffset tensor.sourceBytes)).length = rows * (dim * floatBytes) := by
    rw [← hflat, hlen, F32Payload.new, hshape]
    simp only [List.foldl_cons, List.foldl_nil, Nat.one_mul, Nat.mul_assoc]
  have hwidth : tensor.shape.getD 1 0 = dim := by rw [hshape]; rfl
  unfold sourceMatrix
  rw [hwidth]
  refine ⟨?_, ?_, cs, hcs, ?_, ?_⟩
  · rw [List.length_map, Chunking.length_rows, hbytes, Nat.mul_div_cancel _ hw]
  · intro row hrow
    obtain ⟨bytes, hmem, rfl⟩ := List.mem_map.mp hrow
    rw [length_unpackFloats, Chunking.length_of_mem_rows hmem]
    exact Nat.mul_div_cancel _ (by decide)
  · rw [hflat, matrixBytes, List.flatMap_map]
    have hwhole := Chunking.flatten_rows hw (Dvd.intro_left rows hbytes.symm)
    conv_lhs => rw [← hwhole, ← List.flatMap_id']
    refine List.flatMap_congr fun bytes hmem => ?_
    rw [packFloats_unpackFloats]
    rw [Chunking.length_of_mem_rows hmem]
    exact Nat.dvd_mul_left _ _
  · intro cs' hcs'
    rw [hcs] at hcs'
    rw [← Except.ok.inj hcs', hlen]

section Extract

variable (ruby : Ruby) (path : String) (file : Bytes) (tensors : List (String × Tensor))
  (sideTensors : List String)

/-- The numbers of a side tensor, if the source has it. -/
def sideNumbers (key : String) : Option (List Number) :=
  (if key ∈ sideTensors then tensors.lookup key else none).bind fun tensor =>
    (readVector ruby.half path file tensor).toOption

/-- What `extract_matrix` has found: the only tensor of two dimensions, and side tensors; there is
no other tensor. -/
structure Extracted (vocabSize : ℕ) (tensor : Tensor) (dim : ℕ) (weights : Option (List Number))
    (mapping : Option (List ℕ)) : Prop where
  sole : ∃ name, tensors.filter (fun t => t.2.shape.length = 2) = [(name, tensor)] ∧
    ∀ t ∈ tensors, t.1 = name ∨ t.1 ∈ sideTensors
  dtype : tensor.dtype.supported
  shape : ∃ rows, tensor.shape = [rows, dim]
  dim : 0 < dim ∧ dim ≤ uint32Max
  inside : tensor.absoluteOffset + tensor.sourceBytes ≤ file.length
  weights_eq : weights = sideNumbers ruby path file tensors sideTensors "weights"
  finite : ∀ ws, weights = some ws → ∀ w ∈ ws, w.isFinite
  mapping_eq : mapping.map (List.map fun j : ℕ => Number.integer j) =
    sideNumbers ruby path file tensors sideTensors "mapping"
  sides : SidesOk (sourceMatrix ruby.half file tensor).length vocabSize weights mapping

variable {ruby path file tensors sideTensors}

theorem sideVector_eq_ok {key : String} {vocabSize : ℕ} {vector : Option (List Number)}
    (h : sideVector ruby path file tensors key vocabSize sideTensors = .ok vector) :
    vector = sideNumbers ruby path file tensors sideTensors key ∧
      ∀ entries, vector = some entries → entries.length = vocabSize := by
  unfold sideVector at h
  unfold sideNumbers
  cases hside : if key ∈ sideTensors then tensors.lookup key else none with
  | none =>
    rw [hside] at h
    obtain rfl := Except.ok.inj h
    exact ⟨rfl, fun entries he => by cases he⟩
  | some tensor =>
    rw [hside] at h
    dsimp only at h
    by_cases hshape : tensor.shape = [vocabSize]
    · rw [if_pos hshape] at h
      cases hread : readVector ruby.half path file tensor with
      | error e =>
        rw [hread] at h
        cases h
      | ok entries =>
        rw [hread] at h
        obtain rfl := Except.ok.inj h
        refine ⟨by rw [Option.bind_some, hread]; rfl, fun entries' he => ?_⟩
        rw [← Option.some.inj he, length_readVector hread, hshape, List.foldl_cons, List.foldl_nil,
          Nat.one_mul]
    · rw [if_neg hshape] at h
      cases h

theorem rowIndex?_eq_some {rows j : ℕ} {x : Number} (h : x.rowIndex? rows = some j) :
    x = .integer j := by
  cases x with
  | float bits => cases h
  | integer value =>
    unfold Number.rowIndex? at h
    dsimp only at h
    split_ifs at h with hv
    rw [← Option.some.inj h, Int.toNat_of_nonneg hv.1]

theorem mapM_rowIndex? {rows : ℕ} {entries : List Number} {indices : List ℕ}
    (h : entries.mapM (Number.rowIndex? rows) = some indices) :
    indices.map (fun j : ℕ => Number.integer j) = entries := by
  induction entries generalizing indices with
  | nil =>
    cases h
    rfl
  | cons x entries ih =>
    rw [List.mapM_cons] at h
    obtain ⟨j, hj, h⟩ := Option.bind_eq_some_iff.mp h
    obtain ⟨rest, hrest, h⟩ := Option.bind_eq_some_iff.mp h
    obtain rfl := Option.some.inj h
    rw [List.map_cons, ih hrest, rowIndex?_eq_some hj]

theorem checkedRows_mapping {name : String} {mapping : Option (List Number)} {rows vocabSize : ℕ}
    {indices : Option (List ℕ)} (h : checkedRows name mapping rows vocabSize = .ok indices) :
    indices.map (List.map fun j : ℕ => Number.integer j) = mapping := by
  cases mapping with
  | none =>
    unfold checkedRows at h
    dsimp only at h
    split_ifs at h
    obtain rfl := Except.ok.inj h
    rfl
  | some entries =>
    cases hm : entries.mapM (Number.rowIndex? rows) with
    | none =>
      simp only [checkedRows, validateMapping, hm] at h
      cases h
    | some m =>
      simp only [checkedRows, validateMapping, hm] at h
      obtain rfl := Except.ok.inj h
      rw [Option.map_some, mapM_rowIndex? hm]

theorem soleMatrixTensor_eq_ok {matrix : String × Tensor}
    (h : soleMatrixTensor ruby tensors = .ok matrix) :
    tensors.filter (fun t => t.2.shape.length = 2) = [matrix] ∧ matrix ∈ tensors ∧
      matrix.2.shape.length = 2 := by
  unfold soleMatrixTensor at h
  split at h
  · cases h
  · rename_i found hfound
    obtain rfl := Except.ok.inj h
    have hmem : found ∈ tensors.filter fun t => t.2.shape.length = 2 := by
      rw [hfound]
      exact List.mem_cons_self
    obtain ⟨hin, hshape⟩ := List.mem_filter.mp hmem
    exact ⟨hfound, hin, of_decide_eq_true hshape⟩
  · cases h

theorem rejectUnknownTensors_eq_ok {name : String}
    (h : rejectUnknownTensors ruby tensors name sideTensors = .ok ()) :
    ∀ t ∈ tensors, t.1 = name ∨ t.1 ∈ sideTensors := by
  unfold rejectUnknownTensors at h
  dsimp only at h
  split_ifs at h with hunknown
  intro t ht
  have hnot := List.filter_eq_nil_iff.mp hunknown t.1 (List.mem_map_of_mem ht)
  rw [decide_eq_true_eq, not_and_or, not_not, not_not] at hnot
  exact hnot

theorem validateWeights_eq_ok {weights : Option (List Number)}
    (h : validateWeights weights = .ok ()) : ∀ ws, weights = some ws → ∀ w ∈ ws, w.isFinite := by
  rintro ws rfl w hw
  unfold validateWeights at h
  split_ifs at h with hall
  exact List.all_eq_true.mp hall w hw

/-- **What `extract_matrix` has found.** -/
theorem extractMatrix_spec {dir : Directory} {vocabSize dim : ℕ} {payload : Payload}
    (h : extractMatrix ruby dir vocabSize sideTensors = .ok (payload, dim)) :
    ∃ file d tensor weights mapping, dir.read "model.safetensors" = some file ∧
      Safetensors.describe ruby.parse file = .ok d ∧
      Extracted ruby (dir.join "model.safetensors") file (tensorsOf d) sideTensors vocabSize tensor
        dim weights mapping ∧
      withSides ruby.mul (F32Payload.new ruby.half (dir.join "model.safetensors") file tensor) dim
        (sourceMatrix ruby.half file tensor).length vocabSize weights mapping = .ok payload := by
  unfold extractMatrix at h
  cases hfile : dir.read "model.safetensors" with
  | none =>
    rw [hfile] at h
    cases h
  | some file =>
  rw [hfile] at h
  obtain ⟨d, hd, h⟩ := bind_eq_ok.mp h
  obtain ⟨⟨name, tensor⟩, hsole, h⟩ := bind_eq_ok.mp h
  obtain ⟨_, hknown, h⟩ := bind_eq_ok.mp h
  dsimp only at h
  split_ifs at h with hdim
  swap
  · cases h
  obtain ⟨source, hsource, h⟩ := bind_eq_ok.mp h
  obtain ⟨weights, hweights, h⟩ := bind_eq_ok.mp h
  obtain ⟨numbers, hnumbers, h⟩ := bind_eq_ok.mp h
  obtain ⟨mapping, hmapping, h⟩ := bind_eq_ok.mp h
  obtain ⟨_, hfinite, h⟩ := bind_eq_ok.mp h
  obtain ⟨payload', hpayload, h⟩ := bind_eq_ok.mp h
  obtain ⟨rfl, rfl⟩ := Prod.mk.inj (Except.ok.inj h)
  rw [raising_eq_ok] at hd hsource hmapping hfinite hpayload
  -- the tensor
  obtain ⟨typed, htyped, hinside⟩ := Safetensors.describe_eq_ok hd
  rw [tensorsOf_eq htyped] at hsole hknown hweights hnumbers
  obtain ⟨hfilter, hmem, hshape⟩ := soleMatrixTensor_eq_ok hsole
  obtain ⟨rows, dim, hrows⟩ := List.length_eq_two.mp hshape
  have hwidth : tensor.shape.getD 1 0 = dim := by rw [hrows]; rfl
  have hheight : tensor.shape.getD 0 0 = rows := by rw [hrows]; rfl
  rw [hwidth] at hdim hpayload ⊢
  rw [hheight] at hmapping hpayload
  unfold f32Payload at hsource
  split_ifs at hsource with hdtype
  obtain rfl := Except.ok.inj hsource
  have hin := hinside _ hmem
  have hlength := (@sourceMatrix_spec ruby.half file tensor rows dim hdtype hrows hdim.1 hin
    (dir.join "model.safetensors")).1
  -- the side tensors
  obtain ⟨hweq, hwlen⟩ := sideVector_eq_ok hweights
  obtain ⟨hneq, hnlen⟩ := sideVector_eq_ok hnumbers
  obtain ⟨hlt, hnone⟩ := checkedRows_eq_ok hmapping hnlen
  refine ⟨file, d, tensor, weights, mapping, rfl, hd, ?_, by rw [hlength]; exact hpayload⟩
  rw [tensorsOf_eq htyped]
  exact {
    sole := ⟨name, hfilter, rejectUnknownTensors_eq_ok hknown⟩
    dtype := hdtype
    shape := ⟨rows, hrows⟩
    dim := hdim
    inside := hin
    weights_eq := hweq
    finite := validateWeights_eq_ok hfinite
    mapping_eq := (checkedRows_mapping hmapping).trans hneq
    sides := by
      rw [hlength]
      exact ⟨hwlen, hlt, hnone⟩ }

end Extract

/-! ## The matrix that is written -/

theorem withSides_spec {ω : Type} {mul : UInt32 → ω → UInt32} {matrix : List (List UInt32)}
    {dim outputRows : ℕ} (hdim : 0 < dim) (h : ∀ row ∈ matrix, row.length = dim) {source : Payload}
    (hsource : source.Honest) {chunks : List Bytes} (hchunks : source.chunks = .ok chunks)
    (hbytes : chunks.flatten = matrixBytes matrix) {weights : Option (List ω)}
    {mapping : Option (List ℕ)} (hs : SidesOk matrix.length outputRows weights mapping) :
    ∃ payload cs, withSides mul source dim matrix.length outputRows weights mapping = .ok payload ∧
      payload.bytesize = outputRows * (dim * floatBytes) ∧ payload.chunks = .ok cs ∧
      cs.flatten = matrixBytes (scaleMatrix mul weights (selectRows mapping matrix)) := by
  unfold withSides
  by_cases hsome : weights.isSome ∨ mapping.isSome
  · rw [if_pos hsome]
    refine WeightedPayload.new_spec hdim h hsource hchunks hbytes ?_ hs
    rintro ⟨hw, hm⟩
    rw [Option.isNone_iff_eq_none] at hw hm
    rw [hw, hm] at hsome
    exact hsome.elim Bool.false_ne_true Bool.false_ne_true
  · rw [not_or, Option.not_isSome_iff_eq_none, Option.not_isSome_iff_eq_none] at hsome
    obtain ⟨rfl, rfl⟩ := hsome
    rw [if_neg (by simp)]
    refine ⟨source, chunks, rfl, ?_, hchunks, hbytes⟩
    rw [← hsource chunks hchunks, hbytes, length_matrixBytes h, hs.rows_eq rfl]

/-- **The bytes of the matrix** that the writer gets. -/
theorem slicedMatrix_spec {ruby : Ruby} {path : String} {file : Bytes}
    {tensors : List (String × Tensor)} {sideTensors : List String} {vocabSize dim outputDim : ℕ}
    {tensor : Tensor} {weights : Option (List Number)} {mapping : Option (List ℕ)}
    (hx : Extracted ruby path file tensors sideTensors vocabSize tensor dim weights mapping)
    {payload matrix : Payload}
    (hpayload : withSides ruby.mul (F32Payload.new ruby.half path file tensor) dim
      (sourceMatrix ruby.half file tensor).length vocabSize weights mapping = .ok payload)
    (h₁ : 1 ≤ outputDim) (h₂ : outputDim ≤ dim)
    (hmatrix : sliceMatrix payload dim outputDim = .ok matrix) :
    ∃ cs, matrix.chunks = .ok cs ∧ matrix.bytesize = vocabSize * outputDim * floatBytes ∧
      matrix.Honest ∧ cs.flatten = matrixBytes (outputMatrix ruby.mul weights mapping outputDim
        (sourceMatrix ruby.half file tensor)) := by
  obtain ⟨rows, hshape⟩ := hx.shape
  obtain ⟨-, hrow, chunks, hchunks, hbytes, hhonest⟩ := @sourceMatrix_spec ruby.half file tensor rows
    dim hx.dtype hshape hx.dim.1 hx.inside path
  obtain ⟨payload', cs, hok, hsize, hcs, hflat⟩ := @withSides_spec _ ruby.mul _ _ _ hx.dim.1 hrow _
    hhonest _ hchunks hbytes _ _ hx.sides
  obtain rfl := Except.ok.inj (hok.symm.trans hpayload)
  have hlen := @WeightedPayload.length_scaleMatrix _ ruby.mul _ _ _ _ hx.sides
  have hwidth := @WeightedPayload.length_of_mem_scaleMatrix _ ruby.mul _ _ _ _ _ hx.sides hrow
  have hcut : ∀ row ∈ outputMatrix ruby.mul weights mapping outputDim
      (sourceMatrix ruby.half file tensor), row.length = outputDim := by
    intro row hmem
    obtain ⟨row', hrow', rfl⟩ := List.mem_map.mp hmem
    rw [List.length_take, hwidth row' hrow', Nat.min_eq_left h₂]
  obtain ⟨out, hout, hsize', hflat'⟩ : ∃ out, matrix.chunks = .ok out ∧
      matrix.bytesize = vocabSize * (outputDim * floatBytes) ∧
      out.flatten = matrixBytes (outputMatrix ruby.mul weights mapping outputDim
        (sourceMatrix ruby.half file tensor)) := by
    unfold sliceMatrix at hmatrix
    split_ifs at hmatrix with heq
    · obtain rfl := Except.ok.inj hmatrix
      refine ⟨cs, hcs, by rw [hsize, heq], ?_⟩
      rw [hflat, outputMatrix, List.map_congr_left (g := id), List.map_id]
      intro row hmem
      exact List.take_of_length_le (by rw [hwidth row hmem, heq])
    · obtain ⟨sliced, out, hnew, hsize', hout, hflat'⟩ := RowPrefixPayload.new_spec h₁ h₂ hwidth
        (hlen.symm ▸ hsize) hcs hflat
      obtain rfl := Except.ok.inj (hnew.symm.trans hmatrix)
      exact ⟨out, hout, by rw [hsize', hlen], hflat'⟩
  refine ⟨out, hout, by rw [hsize', Nat.mul_assoc], ?_, hflat'⟩
  intro cs' hcs'
  obtain rfl := Except.ok.inj (hout.symm.trans hcs')
  rw [hflat', length_matrixBytes hcut, outputMatrix, List.length_map, hlen, hsize']

end Importers

end StaticEmbeddings
