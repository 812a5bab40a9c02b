import StaticEmbeddings.Convert.Payloads
import StaticEmbeddings.Convert.Written
import StaticEmbeddings.Lib.Chunking

/-!
# What the payloads yield

* `matrixBytes`, `outputMatrix`: the matrix of a source and the matrix that is written.
* `RowPrefixPayload.eachChunk_eq`, `WeightedPayload.eachStreamedChunk_spec`: the two carries are
  the carry of `Chunking`.
* `F32Payload.eachChunk_spec`: every element once.
* **`matrix_payloads`**: the chunks of the source do not matter.
* `extractMatrix_spec`: the payload that the writer gets.
-/

namespace StaticEmbeddings

open LittleEndian

/-! ## Floats -/

@[simp] theorem packFloats_nil : packFloats [] = [] := rfl

theorem packFloats_cons (x : UInt32) (xs : List UInt32) :
    packFloats (x :: xs) = le32 x.toNat ++ packFloats xs := rfl

theorem packFloats_append (xs ys : List UInt32) :
    packFloats (xs ++ ys) = packFloats xs ++ packFloats ys := by
  simp [packFloats]

@[simp] theorem length_packFloats (xs : List UInt32) :
    (packFloats xs).length = xs.length * floatBytes := by
  rw [packFloats, length_flatMap_const fun x => length_le32 _]
  exact Nat.mul_comm _ _

@[simp] theorem unpackFloats_packFloats (xs : List UInt32) : unpackFloats (packFloats xs) = xs := by
  induction xs with
  | nil => rfl
  | cons x xs ih =>
    have hword := u32?_le32 x.toNat
    simp only [u32?, le32, List.drop_zero, Option.some.injEq] at hword
    rw [packFloats_cons, le32, List.cons_append, List.cons_append, List.cons_append,
      List.cons_append, List.nil_append, unpackFloats, hword, ih,
      Nat.mod_eq_of_lt x.toNat_lt, UInt32.ofNat_toNat]

theorem take_packFloats (xs : List UInt32) (k : ℕ) :
    (packFloats xs).take (k * floatBytes) = packFloats (xs.take k) := by
  induction xs generalizing k with
  | nil => simp
  | cons x xs ih =>
    cases k with
    | zero => simp
    | succ k =>
      have hlen : (k + 1) * floatBytes = (le32 x.toNat).length + k * floatBytes := by
        rw [length_le32, Nat.add_mul, Nat.one_mul, Nat.add_comm]
      rw [packFloats_cons, hlen, List.take_length_add_append, ih, List.take_succ_cons,
        packFloats_cons]

/-! ## Matrices -/

section

variable {ω : Type} (mul : UInt32 → ω → UInt32)

/-- The bytes of a matrix, row by row. -/
def matrixBytes (matrix : List (List UInt32)) : Bytes := matrix.flatMap packFloats

/-- The rows that the mapping names, or all rows. -/
def selectRows (mapping : Option (List ℕ)) (matrix : List (List UInt32)) : List (List UInt32) :=
  match mapping with
  | none => matrix
  | some mapping => mapping.map fun j => matrix.getD j []

/-- Row `i` times weight `i`. -/
def scaleMatrix (weights : Option (List ω)) (matrix : List (List UInt32)) : List (List UInt32) :=
  match weights with
  | none => matrix
  | some weights => List.zipWith (fun row w => row.map (mul · w)) matrix weights

/-- Output row `i` is the start of source row `mapping[i]` (or `i`) times `weights[i]`. -/
def outputMatrix (weights : Option (List ω)) (mapping : Option (List ℕ)) (outputDim : ℕ)
    (matrix : List (List UInt32)) : List (List UInt32) :=
  (scaleMatrix mul weights (selectRows mapping matrix)).map (List.take outputDim)

end

/-- What `extract_matrix` has checked of the side tensors. -/
structure SidesOk {ω : Type} (sourceRows outputRows : ℕ) (weights : Option (List ω))
    (mapping : Option (List ℕ)) : Prop where
  length_weights : ∀ ws, weights = some ws → ws.length = outputRows
  mapping_lt : ∀ m, mapping = some m → m.length = outputRows ∧ ∀ j ∈ m, j < sourceRows
  rows_eq : mapping = none → sourceRows = outputRows

section

variable {dim : ℕ} {matrix : List (List UInt32)} (h : ∀ row ∈ matrix, row.length = dim)
include h

theorem length_matrixBytes : (matrixBytes matrix).length = matrix.length * (dim * floatBytes) := by
  induction matrix with
  | nil => simp [matrixBytes]
  | cons row matrix ih =>
    rw [matrixBytes, List.flatMap_cons, List.length_append, length_packFloats, h row (by simp),
      ← matrixBytes, ih fun r hr => h r (by simp [hr]), List.length_cons, Nat.add_mul, Nat.one_mul,
      Nat.add_comm]

theorem rows_matrixBytes (hdim : 0 < dim) :
    Chunking.rows (dim * floatBytes) (matrixBytes matrix) = matrix.map packFloats := by
  rw [matrixBytes, List.flatMap_def, Chunking.rows_flatten (Nat.mul_pos hdim (by decide))]
  intro bytes hbytes
  obtain ⟨row, hrow, rfl⟩ := List.mem_map.mp hbytes
  rw [length_packFloats, h row hrow]

end

theorem mapM_eq_ok {ε α β : Type} {f : α → Except ε β} {g : α → β} {xs : List α}
    (h : ∀ x ∈ xs, f x = .ok (g x)) : xs.mapM f = .ok (xs.map g) := by
  induction xs with
  | nil => rfl
  | cons x xs ih =>
    rw [List.mapM_cons, h x (by simp), ih fun y hy => h y (by simp [hy])]
    rfl

theorem zipWith_append_left {α β γ : Type} (f : α → β → γ) {xs ys : List α} {ws : List β}
    (h : xs.length ≤ ws.length) :
    List.zipWith f (xs ++ ys) ws =
      List.zipWith f xs ws ++ List.zipWith f ys (ws.drop xs.length) := by
  induction xs generalizing ws with
  | nil => simp
  | cons x xs ih =>
    cases ws with
    | nil => simp at h
    | cons w ws => simp [ih (Nat.le_of_succ_le_succ h)]

theorem flatMap_range_getD {α β : Type} {d : α} (f : α → List β) (xs : List α) :
    (List.range xs.length).flatMap (fun i => f (xs.getD (0 + i) d)) = xs.flatMap f := by
  have hxs : (List.range xs.length).map (fun i => xs.getD (0 + i) d) = xs := by
    apply List.ext_getElem (by simp)
    intro i h₁ h₂
    simp [h₂]
  conv_rhs => rw [← hxs, List.flatMap_map]

/-! ## The first columns of every row -/

namespace RowPrefixPayload

variable {src out : ℕ}

theorem sliceRows_eq (h : out ≤ src) (data : Bytes) :
    sliceRows src out data = (Chunking.rows src data).flatMap (List.take out) := by
  rw [sliceRows, Chunking.rows, List.flatMap_map]
  refine List.flatMap_congr fun r _ => ?_
  rw [slice, List.take_take, Nat.min_eq_left h]

theorem eachChunk_cons (remainder chunk : Bytes) (rest : List Bytes) :
    eachChunk src out remainder (chunk :: rest) =
      (eachChunk src out ((remainder ++ chunk).drop ((remainder ++ chunk).length / src * src))
        rest).map fun cs =>
          if (remainder ++ chunk).take ((remainder ++ chunk).length / src * src) = [] then cs
          else sliceRows src out
            ((remainder ++ chunk).take ((remainder ++ chunk).length / src * src)) :: cs := by
  cases remainder <;> rfl

/-- **The loop is the carry.** -/
theorem eachChunk_carry (remainder : Bytes) (chunks : List Bytes) :
    ((Chunking.carry src remainder chunks).2 = [] → ∃ cs,
      eachChunk src out remainder chunks = .ok cs ∧
      cs.flatten = (Chunking.carry src remainder chunks).1.flatMap (sliceRows src out)) ∧
    ((Chunking.carry src remainder chunks).2 ≠ [] → eachChunk src out remainder chunks =
      .error (.conversion "truncated embedding matrix while slicing dimensions")) := by
  induction chunks generalizing remainder with
  | nil => exact ⟨fun h => ⟨[], if_pos h, rfl⟩, fun h => if_neg h⟩
  | cons chunk rest ih =>
    obtain ⟨hok, herr⟩ :=
      ih ((remainder ++ chunk).drop ((remainder ++ chunk).length / src * src))
    rw [eachChunk_cons, Chunking.carry]
    constructor
    · intro hnil
      obtain ⟨cs, hcs, hflat⟩ := hok hnil
      rw [hcs]
      refine ⟨_, rfl, ?_⟩
      rw [List.flatMap_cons, ← hflat]
      split_ifs with hc
      · rw [hc]
        simp [sliceRows]
      · rw [List.flatten_cons]
    · intro hne
      rw [herr hne]
      rfl

theorem eachChunk_spec (hsrc : 0 < src) (h : out ≤ src) (chunks : List Bytes) :
    (src ∣ chunks.flatten.length → ∃ cs, eachChunk src out [] chunks = .ok cs ∧
      cs.flatten = (Chunking.rows src chunks.flatten).flatMap (List.take out)) ∧
    (¬ src ∣ chunks.flatten.length → ∀ cs, eachChunk src out [] chunks ≠ .ok cs) := by
  have hnil := Chunking.carry_nil_iff hsrc chunks
  have hrows := @Chunking.rows_carry _ _ hsrc [] hsrc chunks
  rw [List.nil_append] at hrows
  obtain ⟨hok, herr⟩ := @eachChunk_carry src out [] chunks
  constructor
  · intro hdvd
    obtain ⟨cs, hcs, hflat⟩ := hok (hnil.mpr hdvd)
    refine ⟨cs, hcs, ?_⟩
    rw [hflat, ← hrows, List.flatMap_assoc]
    exact congrArg (List.flatMap · _) (funext (sliceRows_eq h))
  · intro hdvd cs
    rw [herr (hdvd ∘ hnil.mp)]
    simp

variable {nativeDim outputDim : ℕ} {inner : Payload} {chunks : List Bytes}

theorem chunks_of_new {payload : Payload} (h : new inner nativeDim outputDim = .ok payload) :
    0 < nativeDim ∧ outputDim ≤ nativeDim ∧ payload.chunks = (do
      eachChunk (nativeDim * floatBytes) (outputDim * floatBytes) [] (← inner.chunks)) := by
  unfold new at h
  by_cases h₁ : 0 < nativeDim
  · by_cases h₂ : 1 ≤ outputDim ∧ outputDim ≤ nativeDim
    · rw [if_neg (not_not.mpr h₁), if_neg (not_not.mpr h₂)] at h
      simp only at h
      split_ifs at h
      · cases h
      · cases h
        exact ⟨h₁, h₂.2, rfl⟩
    · rw [if_neg (not_not.mpr h₁), if_pos h₂] at h
      cases h
  · rw [if_pos h₁] at h
    cases h

/-- **What the payload yields.** -/
theorem new_spec {matrix : List (List UInt32)} (h₁ : 1 ≤ outputDim) (h₂ : outputDim ≤ nativeDim)
    (h : ∀ row ∈ matrix, row.length = nativeDim)
    (hsize : inner.bytesize = matrix.length * (nativeDim * floatBytes))
    (hchunks : inner.chunks = .ok chunks) (hbytes : chunks.flatten = matrixBytes matrix) :
    ∃ payload cs, new inner nativeDim outputDim = .ok payload ∧
      payload.bytesize = matrix.length * (outputDim * floatBytes) ∧ payload.chunks = .ok cs ∧
      cs.flatten = matrixBytes (matrix.map (List.take outputDim)) := by
  have hdim : 0 < nativeDim := by omega
  have hsrc : 0 < nativeDim * floatBytes := Nat.mul_pos hdim (by decide)
  have hle : outputDim * floatBytes ≤ nativeDim * floatBytes := Nat.mul_le_mul_right _ h₂
  have hdvd : nativeDim * floatBytes ∣ chunks.flatten.length := by
    rw [hbytes, length_matrixBytes h]
    exact Nat.dvd_mul_left _ _
  obtain ⟨cs, hcs, hflat⟩ := (eachChunk_spec hsrc hle chunks).1 hdvd
  have hmod : inner.bytesize % (nativeDim * floatBytes) = 0 := by
    rw [hsize, Nat.mul_mod_left]
  unfold new
  rw [if_neg (not_not.mpr hdim), if_neg (not_not.mpr ⟨h₁, h₂⟩)]
  simp only [hmod, hchunks]
  refine ⟨_, cs, rfl, ?_, hcs, ?_⟩
  · simp only
    rw [hsize, Nat.mul_div_cancel _ hsrc]
  · rw [hflat, hbytes, rows_matrixBytes h hdim, matrixBytes, List.flatMap_map, List.flatMap_map]
    simp only [take_packFloats]

end RowPrefixPayload

/-! ## Weights and mapping -/

namespace WeightedPayload

variable {ω : Type} {mul : UInt32 → ω → UInt32} {rb : ℕ}

/-- A row times its weight. -/
def scaled (mul : UInt32 → ω → UInt32) (row : Bytes) (w : ω) : Bytes :=
  packFloats ((unpackFloats row).map (mul · w))

theorem scale_some (row : Bytes) (w : ω) : scale mul row (some w) = .ok (scaled mul row w) := by
  unfold scale
  split <;> simp_all [scaled]

theorem scaleRows_eq {weights : List ω} {data : Bytes} {index : ℕ}
    (h : index + data.length / rb ≤ weights.length) :
    scaleRows mul rb weights data index =
      .ok (List.zipWith (scaled mul) (Chunking.rows rb data) (weights.drop index)).flatten := by
  have hrow : ∀ r ∈ List.range (data.length / rb),
      scale mul (slice data (r * rb) rb) weights[index + r]? =
        .ok ((List.zipWith (scaled mul) (Chunking.rows rb data) (weights.drop index)).getD r []) := by
    intro r hr
    have hlt := List.mem_range.mp hr
    have hw : index + r < weights.length := by omega
    have hdrop : r < (weights.drop index).length := by rw [List.length_drop]; omega
    have hrows : r < (Chunking.rows rb data).length := by rwa [Chunking.length_rows]
    rw [List.getElem?_eq_getElem hw, scale_some, List.getD_eq_getElem?_getD,
      List.getElem?_zipWith, List.getElem?_eq_getElem hdrop, List.getElem?_eq_getElem hrows]
    simp [Chunking.rows, slice]
  have hlen : (List.zipWith (scaled mul) (Chunking.rows rb data) (weights.drop index)).length =
      data.length / rb := by
    rw [List.length_zipWith, Chunking.length_rows, List.length_drop]
    omega
  rw [scaleRows, mapM_eq_ok hrow, ← hlen]
  refine congrArg (fun rows => Except.ok (List.flatten rows)) ?_
  apply List.ext_getElem (by simp)
  intro r h₁ h₂
  rw [List.getElem_map, List.getElem_range, List.getD_eq_getElem _ _ h₂]

theorem eachStreamedChunk_cons (weights : List ω) (remainder : Bytes) (index : ℕ) (chunk : Bytes)
    (rest : List Bytes) :
    eachStreamedChunk mul rb weights remainder index (chunk :: rest) =
      if (remainder ++ chunk).length / rb * rb = 0 then
        eachStreamedChunk mul rb weights
          ((remainder ++ chunk).drop ((remainder ++ chunk).length / rb * rb)) index rest
      else do
        let out ← scaleRows mul rb weights (remainder ++ chunk) index
        return out :: (← eachStreamedChunk mul rb weights
          ((remainder ++ chunk).drop ((remainder ++ chunk).length / rb * rb))
          (index + (remainder ++ chunk).length / rb * rb / rb) rest) := by
  cases remainder <;> rfl

/-- **Nothing but whole rows is scaled.** -/
theorem dvd_of_eachStreamedChunk (hrb : 0 < rb) {weights : List ω} {remainder : Bytes} {index : ℕ}
    (hr : remainder.length < rb) {chunks cs : List Bytes}
    (h : eachStreamedChunk mul rb weights remainder index chunks = .ok cs) :
    (Chunking.carry rb remainder chunks).2 = [] := by
  induction chunks generalizing remainder index cs with
  | nil =>
    by_contra hne
    have herr := (if_neg hne).symm.trans h
    cases herr
  | cons chunk rest ih =>
    rw [eachStreamedChunk_cons] at h
    rw [Chunking.carry]
    have hlt := Chunking.length_drop_lt hrb (remainder ++ chunk)
    split_ifs at h with hw
    · exact ih hlt h
    · obtain ⟨out, -, h⟩ := bind_eq_ok.mp h
      obtain ⟨cs', h, -⟩ := bind_eq_ok.mp h
      exact ih hlt h

/-- **The loop is the carry**, with the weights in step. -/
theorem eachStreamedChunk_spec (hrb : 0 < rb) {weights : List ω} {remainder : Bytes} {index : ℕ}
    (hr : remainder.length < rb) {chunks : List Bytes}
    (hnil : (Chunking.carry rb remainder chunks).2 = [])
    (hlen : index + (remainder ++ chunks.flatten).length / rb ≤ weights.length) :
    ∃ cs, eachStreamedChunk mul rb weights remainder index chunks = .ok cs ∧
      cs.flatten = (List.zipWith (scaled mul) (Chunking.rows rb (remainder ++ chunks.flatten))
        (weights.drop index)).flatten := by
  induction chunks generalizing remainder index with
  | nil =>
    have hrem : remainder = [] := hnil
    exact ⟨[], by rw [eachStreamedChunk, if_pos hrem], by simp [hrem]⟩
  | cons chunk rest ih =>
    have hlt := Chunking.length_drop_lt hrb (remainder ++ chunk)
    have hrows := Chunking.rows_append_flatten_cons hrb remainder chunk rest
    have hcount := congrArg List.length hrows
    rw [List.length_append, Chunking.length_rows, Chunking.length_rows,
      Chunking.length_rows] at hcount
    rw [hcount, ← Nat.add_assoc] at hlen
    have hfit : index + (remainder ++ chunk).length / rb ≤ weights.length :=
      le_trans (Nat.le_add_right _ _) hlen
    obtain ⟨cs, hcs, hflat⟩ := ih hlt hnil hlen
    rw [hrows, zipWith_append_left _
      (by rw [Chunking.length_rows, List.length_drop]; exact Nat.le_sub_of_add_le' hfit),
      List.flatten_append, List.drop_drop, Chunking.length_rows, ← hflat, eachStreamedChunk_cons]
    by_cases hw : (remainder ++ chunk).length / rb = 0
    · have hempty : Chunking.rows rb (remainder ++ chunk) = [] := by
        rw [← List.length_eq_zero_iff, Chunking.length_rows, hw]
      rw [if_pos (by rw [hw, Nat.zero_mul]), hempty]
      refine ⟨cs, ?_, by simp⟩
      rw [← hcs, hw, Nat.add_zero]
    · rw [if_neg (Nat.mul_ne_zero hw hrb.ne'), scaleRows_eq hfit, Nat.mul_div_cancel _ hrb, hcs]
      exact ⟨_, rfl, List.flatten_cons⟩

/-- **Every output row once**, whatever the number of chunks. -/
theorem eachMappedChunk_spec {weights : Option (List ω)} {mapping : List ℕ} {table : Bytes}
    {outputRows : ℕ} {row : ℕ → Bytes}
    (h : ∀ i < outputRows, mappedRow mul rb weights mapping table i = .ok (row i)) (index : ℕ) :
    ∃ cs, eachMappedChunk mul rb weights mapping table outputRows index = .ok cs ∧
      cs.flatten = (List.range (outputRows - index)).flatMap fun r => row (index + r) := by
  by_cases hi : index < outputRows
  · have hpos : 0 < min rowsPerChunk (outputRows - index) := by
      simp only [rowsPerChunk]
      omega
    obtain ⟨cs, hcs, hflat⟩ :=
      eachMappedChunk_spec h (index + min rowsPerChunk (outputRows - index))
    have hrow : ∀ r ∈ List.range (min rowsPerChunk (outputRows - index)),
        mappedRow mul rb weights mapping table (index + r) = .ok (row (index + r)) := by
      intro r hr
      have := List.mem_range.mp hr
      exact h _ (by omega)
    have hcount : outputRows - index = min rowsPerChunk (outputRows - index) +
        (outputRows - (index + min rowsPerChunk (outputRows - index))) := by
      omega
    rw [eachMappedChunk, if_pos hi]
    simp only [mapM_eq_ok hrow, hcs]
    refine ⟨_, rfl, ?_⟩
    rw [List.flatten_cons, hflat]
    conv_rhs => rw [hcount, List.range_add, List.flatMap_append, List.flatMap_map]
    simp only [List.flatMap_def, Nat.add_assoc]
  · rw [eachMappedChunk, if_neg hi, Nat.sub_eq_zero_of_le (Nat.le_of_not_lt hi)]
    exact ⟨[], rfl, rfl⟩
termination_by outputRows - index

variable {dim : ℕ} {matrix : List (List UInt32)}

theorem scaled_packFloats (row : List UInt32) (w : ω) :
    scaled mul (packFloats row) w = packFloats (row.map (mul · w)) := by
  rw [scaled, unpackFloats_packFloats]

theorem byteslice_matrixBytes (hdim : 0 < dim) (h : ∀ row ∈ matrix, row.length = dim) {j : ℕ}
    (hj : j < matrix.length) :
    byteslice? (matrixBytes matrix) (j * (dim * floatBytes)) (dim * floatBytes) =
      some (packFloats matrix[j]) := by
  have hrows := rows_matrixBytes h hdim
  have hlen := length_matrixBytes h
  have hget := congrArg (·[j]?) hrows
  have hle : j * (dim * floatBytes) ≤ (matrixBytes matrix).length := by
    rw [hlen]
    exact Nat.mul_le_mul_right _ hj.le
  rw [byteslice?, if_pos hle]
  have hcount : j < (matrixBytes matrix).length / (dim * floatBytes) := by
    rwa [hlen, Nat.mul_div_cancel _ (Nat.mul_pos hdim (by decide))]
  simpa [Chunking.rows, hcount, hj, slice] using hget

theorem length_selectRows {mapping : Option (List ℕ)} {weights : Option (List ω)} {outputRows : ℕ}
    (hs : SidesOk matrix.length outputRows weights mapping) :
    (selectRows mapping matrix).length = outputRows := by
  cases mapping with
  | none => exact hs.rows_eq rfl
  | some m => rw [selectRows, List.length_map, (hs.mapping_lt m rfl).1]

theorem length_scaleMatrix {mapping : Option (List ℕ)} {weights : Option (List ω)}
    {outputRows : ℕ} (hs : SidesOk matrix.length outputRows weights mapping) :
    (scaleMatrix mul weights (selectRows mapping matrix)).length = outputRows := by
  cases weights with
  | none => exact length_selectRows hs
  | some ws =>
    rw [scaleMatrix, List.length_zipWith, length_selectRows hs, hs.length_weights ws rfl,
      Nat.min_self]

theorem length_of_mem_scaleMatrix {mapping : Option (List ℕ)} {weights : Option (List ω)}
    {outputRows : ℕ} (hs : SidesOk matrix.length outputRows weights mapping)
    (h : ∀ row ∈ matrix, row.length = dim) :
    ∀ row ∈ scaleMatrix mul weights (selectRows mapping matrix), row.length = dim := by
  have hsel : ∀ row ∈ selectRows mapping matrix, row.length = dim := by
    cases mapping with
    | none => exact h
    | some m =>
      intro row hrow
      obtain ⟨j, hj, rfl⟩ := List.mem_map.mp hrow
      rw [List.getD_eq_getElem _ _ ((hs.mapping_lt m rfl).2 j hj)]
      exact h _ (List.getElem_mem _)
  cases weights with
  | none => exact hsel
  | some ws =>
    intro row hrow
    obtain ⟨i, hi, rfl⟩ := List.getElem_of_mem hrow
    simp only [scaleMatrix, List.getElem_zipWith, List.length_map]
    exact hsel _ (List.getElem_mem _)

theorem mappedRow_eq (hdim : 0 < dim) (h : ∀ row ∈ matrix, row.length = dim) {mapping : List ℕ}
    {weights : Option (List ω)} {outputRows : ℕ}
    (hs : SidesOk matrix.length outputRows weights (some mapping)) {i : ℕ} (hi : i < outputRows) :
    mappedRow mul (dim * floatBytes) weights mapping (matrixBytes matrix) i =
      .ok (packFloats ((scaleMatrix mul weights (selectRows (some mapping) matrix)).getD i [])) := by
  obtain ⟨hlen, hlt⟩ := hs.mapping_lt mapping rfl
  have hm : i < mapping.length := by rwa [hlen]
  have hj := hlt _ (List.getElem_mem hm)
  unfold mappedRow
  rw [List.getElem?_eq_getElem hm]
  simp only [byteslice_matrixBytes hdim h hj]
  cases weights with
  | none => simp [scaleMatrix, selectRows, List.getD_eq_getElem?_getD, hm, hj]
  | some ws =>
    have hw : i < ws.length := by rwa [hs.length_weights ws rfl]
    simp only [List.getElem?_eq_getElem hw, scale_some, scaled_packFloats]
    simp [scaleMatrix, selectRows, List.getD_eq_getElem?_getD, hm, hj, hw]

/-- **What the payload yields.** -/
theorem new_spec (hdim : 0 < dim) (h : ∀ row ∈ matrix, row.length = dim) {inner : Payload}
    (hinner : inner.Honest) {chunks : List Bytes} (hchunks : inner.chunks = .ok chunks)
    (hbytes : chunks.flatten = matrixBytes matrix) {weights : Option (List ω)}
    {mapping : Option (List ℕ)} (hsome : ¬ (weights.isNone ∧ mapping.isNone)) {outputRows : ℕ}
    (hs : SidesOk matrix.length outputRows weights mapping) :
    ∃ payload cs, new mul inner dim matrix.length outputRows weights mapping = .ok payload ∧
      payload.bytesize = outputRows * (dim * floatBytes) ∧ payload.chunks = .ok cs ∧
      cs.flatten = matrixBytes (scaleMatrix mul weights (selectRows mapping matrix)) := by
  have hrb : 0 < dim * floatBytes := Nat.mul_pos hdim (by decide)
  have hsize : inner.bytesize = matrix.length * dim * floatBytes := by
    rw [← hinner chunks hchunks, hbytes, length_matrixBytes h, Nat.mul_assoc]
  unfold new
  rw [if_neg hsome, if_neg (not_not.mpr hsize), hchunks]
  cases mapping with
  | some mapping =>
    obtain ⟨cs, hcs, hflat⟩ := @eachMappedChunk_spec _ mul _ _ _ _ _ _ (fun i hi => mappedRow_eq hdim h hs hi) 0
    rw [← hbytes] at hcs
    refine ⟨_, cs, rfl, rfl, hcs, ?_⟩
    · have hlen := @length_scaleMatrix _ mul _ _ _ _ hs
      rw [hflat, Nat.sub_zero, ← hlen, matrixBytes]
      exact flatMap_range_getD packFloats _
  | none =>
    cases weights with
    | none => exact absurd ⟨rfl, rfl⟩ hsome
    | some ws =>
      have hlen : chunks.flatten.length = matrix.length * (dim * floatBytes) := by
        rw [hbytes, length_matrixBytes h]
      have hnil := (Chunking.carry_nil_iff hrb chunks).mpr (hlen ▸ Nat.dvd_mul_left _ _)
      have hcount : 0 + ([] ++ chunks.flatten).length / (dim * floatBytes) ≤ ws.length := by
        rw [List.nil_append, hlen, Nat.mul_div_cancel _ hrb, hs.length_weights ws rfl,
          hs.rows_eq rfl, Nat.zero_add]
      obtain ⟨cs, hcs, hflat⟩ := @eachStreamedChunk_spec _ mul _ hrb ws [] 0 hrb chunks hnil hcount
      refine ⟨_, cs, rfl, rfl, hcs, ?_⟩
      rw [hflat, List.nil_append, hbytes, rows_matrixBytes h hdim, List.drop_zero,
        List.zipWith_map_left]
      simp only [scaled_packFloats]
      rw [matrixBytes, scaleMatrix, selectRows, List.flatMap_def, List.map_zipWith]

theorem chunks_of_new {inner payload : Payload} {sourceRows outputRows : ℕ}
    {weights : Option (List ω)} {mapping : Option (List ℕ)}
    (h : new mul inner dim sourceRows outputRows weights mapping = .ok payload) :
    inner.bytesize = sourceRows * dim * floatBytes ∧ payload.chunks = (do
      let chunks ← inner.chunks
      match mapping with
      | some mapping =>
        eachMappedChunk mul (dim * floatBytes) weights mapping chunks.flatten outputRows 0
      | none => eachStreamedChunk mul (dim * floatBytes) (weights.getD []) [] 0 chunks) := by
  unfold new at h
  by_cases h₁ : weights.isNone ∧ mapping.isNone
  · rw [if_pos h₁] at h
    cases h
  · rw [if_neg h₁] at h
    by_cases h₂ : inner.bytesize = sourceRows * dim * floatBytes
    · rw [if_neg (not_not.mpr h₂)] at h
      cases h
      exact ⟨h₂, rfl⟩
    · rw [if_pos h₂] at h
      cases h

end WeightedPayload

/-! ## The payload of a tensor -/

theorem unpackHalves_append {a : Bytes} (h : a.length % 2 = 0) (b : Bytes) :
    unpackHalves (a ++ b) = unpackHalves a ++ unpackHalves b := by
  induction a using unpackHalves.induct with
  | case1 b₀ b₁ rest ih =>
    rw [List.cons_append, List.cons_append, unpackHalves, unpackHalves, List.cons_append,
      ih (by rw [List.length_cons, List.length_cons] at h; omega)]
  | case2 bytes hne =>
    cases bytes with
    | nil => rfl
    | cons b₀ rest =>
      cases rest with
      | nil => simp at h
      | cons b₁ rest => exact absurd rfl (hne b₀ b₁ rest)

theorem length_unpackHalves (bytes : Bytes) : (unpackHalves bytes).length = bytes.length / 2 := by
  induction bytes using unpackHalves.induct with
  | case1 b₀ b₁ rest ih =>
    rw [unpackHalves, List.length_cons, ih, List.length_cons, List.length_cons]
    omega
  | case2 bytes hne =>
    cases bytes with
    | nil => rfl
    | cons b₀ rest =>
      cases rest with
      | nil => simp [unpackHalves]
      | cons b₁ rest => exact absurd rfl (hne b₀ b₁ rest)

/-- The elements of a tensor as floats. -/
def floatsOf (half : ℕ → UInt32) (dtype : Dtype) (bytes : Bytes) : Bytes :=
  match dtype with
  | .f16 => packFloats ((unpackHalves bytes).map half)
  | .bf16 => packFloats ((unpackHalves bytes).map Safetensors.bf16)
  | _ => bytes

theorem floatsOf_append {half : ℕ → UInt32} {dtype : Dtype} {a : Bytes}
    (h : dtype ≠ .f32 → a.length % 2 = 0) (b : Bytes) :
    floatsOf half dtype (a ++ b) = floatsOf half dtype a ++ floatsOf half dtype b := by
  unfold floatsOf
  cases dtype <;> simp [unpackHalves_append, h, packFloats_append]

namespace Safetensors

/-- **The chunks of a conversion do not matter.** -/
theorem convertChunks_spec {decode : Bytes → Except WriteError Bytes} {floats : Bytes → Bytes}
    (hnil : floats [] = [])
    (happ : ∀ a b : Bytes, a.length % 2 = 0 → floats (a ++ b) = floats a ++ floats b)
    (hdec : ∀ chunk : Bytes, chunk.length % 2 = 0 → decode chunk = .ok (floats chunk))
    {bytes : Bytes} (hlen : bytes.length % 2 = 0) (offset : ℕ) (hoff : offset % 2 = 0) :
    convertChunks decode bytes offset = .ok (floats (bytes.drop offset)) := by
  by_cases hlt : offset < bytes.length
  · have hchunk : (slice bytes offset (min convertChunkBytes (bytes.length - offset))).length =
        min convertChunkBytes (bytes.length - offset) := length_slice (by omega)
    have heven : min convertChunkBytes (bytes.length - offset) % 2 = 0 := by
      simp only [convertChunkBytes]
      omega
    have hpos : 0 < min convertChunkBytes (bytes.length - offset) := by
      simp only [convertChunkBytes]
      omega
    have ih := convertChunks_spec hnil happ hdec hlen
      (offset + min convertChunkBytes (bytes.length - offset)) (by omega)
    have hsplit : bytes.drop offset =
        slice bytes offset (min convertChunkBytes (bytes.length - offset)) ++
          bytes.drop (offset + min convertChunkBytes (bytes.length - offset)) := by
      rw [slice, ← List.drop_drop, List.take_append_drop]
    rw [convertChunks, if_pos hlt]
    simp only [hdec _ (hchunk.symm ▸ heven), hchunk, ih]
    rw [hsplit, happ _ _ (hchunk.symm ▸ heven)]
    rfl
  · rw [convertChunks, if_neg hlt, List.drop_of_length_le (Nat.le_of_not_lt hlt), hnil]
termination_by bytes.length - offset

end Safetensors

namespace F32Payload

theorem convert_eq {half : ℕ → UInt32} {dtype : Dtype} (hdtype : dtype.supported) {chunk : Bytes}
    (h : dtype ≠ .f32 → chunk.length % 2 = 0) :
    convert half dtype chunk = .ok (floatsOf half dtype chunk) := by
  cases dtype with
  | f32 => rfl
  | f16 =>
    have heven := h (by decide)
    exact @Safetensors.convertChunks_spec _ (floatsOf half .f16) rfl
      (fun a b ha => floatsOf_append (fun _ => ha) b)
      (fun c hc => by rw [Safetensors.decodeF16, if_neg (by omega)]; rfl) _ heven 0 rfl
  | bf16 =>
    have heven := h (by decide)
    exact @Safetensors.convertChunks_spec _ (floatsOf half .bf16) rfl
      (fun a b ha => floatsOf_append (fun _ => ha) b) (fun c _ => rfl) _ heven 0 rfl
  | f64 => cases hdtype
  | i64 => cases hdtype
  | i32 => cases hdtype

theorem readSize_le {dtype : Dtype} (remaining : ℕ) : readSize dtype remaining ≤ remaining := by
  unfold readSize
  simp only
  split_ifs <;> omega

/-- **No element is split.** -/
theorem readSize_even {dtype : Dtype} {remaining : ℕ} (hd : dtype ≠ .f32)
    (h : remaining % 2 = 0) : readSize dtype remaining % 2 = 0 := by
  unfold readSize
  simp only [hd, ne_eq, not_false_eq_true, true_and]
  split_ifs <;> omega

/-- **Every element once**, or the file is too short. -/
theorem eachChunk_spec {half : ℕ → UInt32} {path : String} {file : Bytes} {dtype : Dtype}
    (hdtype : dtype.supported) (position remaining : ℕ)
    (heven : dtype ≠ .f32 → remaining % 2 = 0) :
    (position + remaining ≤ file.length →
      ∃ cs, eachChunk half path file dtype position remaining = .ok cs ∧
        cs.flatten = floatsOf half dtype (slice file position remaining)) ∧
    (file.length < position + remaining → 0 < remaining →
      ∀ cs, eachChunk half path file dtype position remaining ≠ .ok cs) := by
  by_cases hpos : 0 < remaining
  · have hsize := @readSize_pos dtype _ hpos
    have hle := @readSize_le dtype remaining
    obtain ⟨hok, herr⟩ := @eachChunk_spec half path file dtype hdtype
      (position + readSize dtype remaining) (remaining - readSize dtype remaining) (by
        intro hd
        have := heven hd
        have := readSize_even hd this
        omega)
    rw [eachChunk, dif_pos hpos]
    constructor
    · intro hfit
      obtain ⟨cs, hcs, hflat⟩ := hok (by omega)
      have hlen : (slice file position (readSize dtype remaining)).length =
          readSize dtype remaining := length_slice (by omega)
      have hchunk : dtype ≠ .f32 →
          (slice file position (readSize dtype remaining)).length % 2 = 0 := by
        intro hd
        rw [hlen, readSize_even hd (heven hd)]
      have hsplit : slice file position remaining =
          slice file position (readSize dtype remaining) ++
            slice file (position + readSize dtype remaining)
              (remaining - readSize dtype remaining) := by
        rw [slice, slice, slice, ← List.drop_drop, ← List.take_add, Nat.add_sub_cancel' hle]
      simp only [convert_eq hdtype hchunk, hcs]
      rw [if_neg (not_not.mpr hlen)]
      refine ⟨_, rfl, ?_⟩
      rw [List.flatten_cons, hflat, hsplit, floatsOf_append hchunk]
    · intro hshort _ cs h
      simp only at h
      by_cases hlen : (slice file position (readSize dtype remaining)).length =
          readSize dtype remaining
      · rw [if_neg (not_not.mpr hlen)] at h
        obtain ⟨out, -, h⟩ := bind_eq_ok.mp h
        obtain ⟨cs', h, -⟩ := bind_eq_ok.mp h
        rw [slice, List.length_take, List.length_drop] at hlen
        exact herr (by omega) (by omega) cs' h
      · rw [if_pos hlen] at h
        cases h
  · have hzero : remaining = 0 := by omega
    refine ⟨fun _ => ⟨[], by rw [eachChunk, dif_neg hpos], ?_⟩, fun _ h => absurd h hpos⟩
    rw [hzero, slice, List.take_zero]
    cases dtype <;> rfl
termination_by remaining

end F32Payload

/-! ## The pipeline -/

section

variable {ω : Type} (mul : UInt32 → ω → UInt32)

/-- `RowPrefixPayload` over `WeightedPayload`, or over the source itself where it has neither
weights nor a mapping. -/
def rowPrefixOf (source : Payload) (nativeDim sourceRows outputRows outputDim : ℕ)
    (weights : Option (List ω)) (mapping : Option (List ℕ)) : Except WriteError Payload := do
  let payload ← withSides mul source nativeDim sourceRows outputRows weights mapping
  RowPrefixPayload.new payload nativeDim outputDim

/-- The construction raises, or `each_chunk` does. -/
def Raises (r : Except WriteError Payload) : Prop :=
  ∀ payload, r = .ok payload → ∀ cs, payload.chunks ≠ .ok cs

variable {mul}

/-- **The rows of the output.** -/
theorem rowPrefixOf_spec {matrix : List (List UInt32)} {source : Payload} (hsource : source.Honest)
    {chunks : List Bytes} (hchunks : source.chunks = .ok chunks)
    (hbytes : chunks.flatten = matrixBytes matrix) {nativeDim outputDim outputRows : ℕ}
    (h : ∀ row ∈ matrix, row.length = nativeDim) (h₁ : 1 ≤ outputDim) (h₂ : outputDim ≤ nativeDim)
    {weights : Option (List ω)} {mapping : Option (List ℕ)}
    (hs : SidesOk matrix.length outputRows weights mapping) :
    ∃ payload cs,
      rowPrefixOf mul source nativeDim matrix.length outputRows outputDim weights mapping =
        .ok payload ∧
      payload.bytesize = outputRows * (outputDim * floatBytes) ∧ payload.chunks = .ok cs ∧
      cs.flatten = matrixBytes (outputMatrix mul weights mapping outputDim matrix) := by
  have hdim : 0 < nativeDim := by omega
  have hlen := @WeightedPayload.length_scaleMatrix _ mul _ _ _ _ hs
  have hrows := @WeightedPayload.length_of_mem_scaleMatrix _ mul _ _ _ _ _ hs h
  unfold rowPrefixOf withSides
  by_cases hsome : weights.isSome ∨ mapping.isSome
  · have hnot : ¬ (weights.isNone ∧ mapping.isNone) := by
      rintro ⟨hw, hm⟩
      rw [Option.isNone_iff_eq_none] at hw hm
      simp [hw, hm] at hsome
    obtain ⟨weighted, ws, hnew, hsize, hws, hflat⟩ :=
      @WeightedPayload.new_spec _ mul _ _ hdim h _ hsource _ hchunks hbytes _ _ hnot _ hs
    rw [if_pos hsome, hnew, ← hlen]
    exact RowPrefixPayload.new_spec h₁ h₂ hrows (by rw [hsize, hlen]) hws hflat
  · have hnone : weights = none ∧ mapping = none := by
      cases weights <;> cases mapping <;> simp_all
    obtain ⟨rfl, rfl⟩ := hnone
    rw [if_neg hsome, ← hlen]
    exact RowPrefixPayload.new_spec h₁ h₂ hrows
      (by rw [← hsource chunks hchunks, hbytes]; exact length_matrixBytes h) hchunks hbytes

/-- **A part of a row raises**, as does a source that raises. -/
theorem rowPrefixOf_raises {source : Payload} {nativeDim : ℕ}
    (hpart : ∀ chunks, source.chunks = .ok chunks →
      ¬ nativeDim * floatBytes ∣ chunks.flatten.length)
    {sourceRows outputRows outputDim : ℕ} {weights : Option (List ω)} {mapping : Option (List ℕ)}
    (hsource : mapping = none ∨ source.Honest) :
    Raises (rowPrefixOf mul source nativeDim sourceRows outputRows outputDim weights mapping) := by
  intro payload h cs hcs
  obtain ⟨inner, hinner, hnew⟩ := bind_eq_ok.mp h
  unfold withSides at hinner
  obtain ⟨hdim, hle, hpay⟩ := RowPrefixPayload.chunks_of_new hnew
  have hsrc : 0 < nativeDim * floatBytes := Nat.mul_pos hdim (by decide)
  have hle' : outputDim * floatBytes ≤ nativeDim * floatBytes := Nat.mul_le_mul_right _ hle
  rw [hpay] at hcs
  obtain ⟨cs', hcs', hout⟩ := bind_eq_ok.mp hcs
  split_ifs at hinner
  · obtain ⟨hsize, hchunk⟩ := WeightedPayload.chunks_of_new hinner
    rw [hchunk] at hcs'
    obtain ⟨chunks, hchunks, hcs'⟩ := bind_eq_ok.mp hcs'
    apply hpart chunks hchunks
    cases mapping with
    | some mapping =>
      rw [hsource.resolve_left (by simp) chunks hchunks, hsize, Nat.mul_assoc]
      exact Nat.dvd_mul_left _ _
    | none =>
      have hnil := @WeightedPayload.dvd_of_eachStreamedChunk _ mul _ hsrc _ [] _ hsrc _ _ hcs'
      exact (Chunking.carry_nil_iff hsrc chunks).mp hnil
  · cases hinner
    exact (RowPrefixPayload.eachChunk_spec hsrc hle' cs').2 (hpart cs' hcs') cs hout

end

/-- **The payload of a tensor**: every element once, or a file that is too short raises. -/
theorem F32Payload.new_spec {half : ℕ → UInt32} {path : String} {file : Bytes} {tensor : Tensor}
    (hdtype : tensor.dtype.supported) :
    (tensor.absoluteOffset + tensor.sourceBytes ≤ file.length →
      ∃ cs, (F32Payload.new half path file tensor).chunks = .ok cs ∧
        cs.flatten = floatsOf half tensor.dtype
          (slice file tensor.absoluteOffset tensor.sourceBytes) ∧
        cs.flatten.length = (F32Payload.new half path file tensor).bytesize) ∧
    (file.length < tensor.absoluteOffset + tensor.sourceBytes → 0 < tensor.sourceBytes →
      ∀ cs, (F32Payload.new half path file tensor).chunks ≠ .ok cs) := by
  have hdesc := tensor.described
  have heven : tensor.dtype ≠ .f32 → tensor.sourceBytes % 2 = 0 := by
    intro hd
    rw [hdesc]
    cases h : tensor.dtype <;> simp_all [Dtype.elementSize, Nat.mul_mod]
  obtain ⟨hok, herr⟩ := @F32Payload.eachChunk_spec half path file _ hdtype tensor.absoluteOffset
    tensor.sourceBytes heven
  refine ⟨fun hfit => ?_, herr⟩
  obtain ⟨cs, hcs, hflat⟩ := hok hfit
  refine ⟨cs, hcs, hflat, ?_⟩
  have hslice : (slice file tensor.absoluteOffset tensor.sourceBytes).length =
      tensor.shape.foldl (· * ·) 1 * tensor.dtype.elementSize := by
    rw [length_slice hfit, hdesc]
  rw [hflat, F32Payload.new]
  unfold floatsOf
  cases h : tensor.dtype with
  | f32 => rw [hslice, h, Dtype.elementSize]
  | f16 =>
    simp only [length_packFloats, List.length_map, length_unpackHalves]
    rw [hslice, h, Dtype.elementSize, Nat.mul_div_cancel _ (by decide)]
  | bf16 =>
    simp only [length_packFloats, List.length_map, length_unpackHalves]
    rw [hslice, h, Dtype.elementSize, Nat.mul_div_cancel _ (by decide)]
  | f64 => rw [h] at hdtype; cases hdtype
  | i64 => rw [h] at hdtype; cases hdtype
  | i32 => rw [h] at hdtype; cases hdtype

theorem mapM_eq_some {α β : Type} {f : α → Option β} {xs : List α} {ys : List β}
    (h : xs.mapM f = some ys) : ys.length = xs.length ∧ ∀ y ∈ ys, ∃ x ∈ xs, f x = some y := by
  induction xs generalizing ys with
  | nil =>
    cases h
    exact ⟨rfl, fun y hy => absurd hy List.not_mem_nil⟩
  | cons x xs ih =>
    rw [List.mapM_cons] at h
    obtain ⟨y, hy, h⟩ := Option.bind_eq_some_iff.mp h
    obtain ⟨ys', hys, h⟩ := Option.bind_eq_some_iff.mp h
    cases h
    obtain ⟨hlen, hmem⟩ := ih hys
    refine ⟨by rw [List.length_cons, List.length_cons, hlen], ?_⟩
    intro z hz
    rw [List.mem_cons] at hz
    obtain rfl | hz := hz
    · exact ⟨x, by simp, hy⟩
    · obtain ⟨x', hx', hf⟩ := hmem z hz
      exact ⟨x', by simp [hx'], hf⟩

theorem sideVector_eq_ok {key : String} {vector side : Option (List Number)} {vocabSize : ℕ}
    (h : sideVector key vector vocabSize = .ok side) :
    side = vector ∧ ∀ entries, vector = some entries → entries.length = vocabSize := by
  cases vector with
  | none =>
    cases h
    exact ⟨rfl, fun _ he => absurd he (by simp)⟩
  | some entries =>
    by_cases hlen : entries.length = vocabSize
    · simp only [sideVector, if_pos hlen, Except.ok.injEq] at h
      exact ⟨h.symm, fun _ he => by cases he; exact hlen⟩
    · simp only [sideVector, if_neg hlen] at h
      cases h

theorem rowIndex?_lt {rows : ℕ} {x : Number} {j : ℕ} (h : x.rowIndex? rows = some j) : j < rows := by
  cases x with
  | float bits => cases h
  | integer value =>
    unfold Number.rowIndex? at h
    by_cases hv : 0 ≤ value ∧ value < rows
    · simp only [if_pos hv, Option.some.injEq] at h
      omega
    · simp only [if_neg hv] at h
      cases h

theorem checkedRows_eq_ok {name : String} {mapping : Option (List Number)} {rows vocabSize : ℕ}
    {indices : Option (List ℕ)} (h : checkedRows name mapping rows vocabSize = .ok indices)
    (hlen : ∀ entries, mapping = some entries → entries.length = vocabSize) :
    (∀ m, indices = some m → m.length = vocabSize ∧ ∀ j ∈ m, j < rows) ∧
      (indices = none → rows = vocabSize) := by
  cases mapping with
  | none =>
    by_cases hrows : rows = vocabSize
    · simp only [checkedRows, if_pos hrows, Except.ok.injEq] at h
      rw [← h]
      exact ⟨fun _ he => absurd he (by simp), fun _ => hrows⟩
    · simp only [checkedRows, if_neg hrows] at h
      cases h
  | some entries =>
    cases hm : entries.mapM (Number.rowIndex? rows) with
    | none =>
      simp only [checkedRows, validateMapping, hm] at h
      cases h
    | some m =>
      simp only [checkedRows, validateMapping, hm] at h
      cases h
      obtain ⟨hcount, hmem⟩ := mapM_eq_some hm
      refine ⟨fun _ he => ?_, fun he => absurd he (by simp)⟩
      cases he
      refine ⟨hcount.trans (hlen entries rfl), fun j hj => ?_⟩
      obtain ⟨x, -, hx⟩ := hmem j hj
      exact rowIndex?_lt hx

/-- **What `extract_matrix` promises** of the source and its side tensors. -/
theorem extractMatrix_eq_ok {mul : UInt32 → Number → UInt32} {half : ℕ → UInt32}
    {path name : String} {file : Bytes} {tensor : Tensor} {weights mapping : Option (List Number)}
    {vocabSize dim : ℕ} {payload : Payload}
    (h : extractMatrix mul half path file name tensor weights mapping vocabSize =
      .ok (payload, dim)) :
    (tensor.dtype.supported ∧ dim = tensor.shape.getD 1 0 ∧ 0 < dim ∧ dim ≤ uint32Max) ∧
      ∃ indices, SidesOk (tensor.shape.getD 0 0) vocabSize weights indices ∧
        withSides mul (F32Payload.new half path file tensor) dim (tensor.shape.getD 0 0) vocabSize
          weights indices = .ok payload := by
  unfold extractMatrix at h
  simp only at h
  split_ifs at h with hdim
  obtain ⟨source, hsource, h⟩ := bind_eq_ok.mp h
  obtain ⟨weights', hweights, h⟩ := bind_eq_ok.mp h
  obtain ⟨mapping', hmapping, h⟩ := bind_eq_ok.mp h
  obtain ⟨indices, hindices, h⟩ := bind_eq_ok.mp h
  obtain ⟨-, -, h⟩ := bind_eq_ok.mp h
  obtain ⟨payload', hpayload, h⟩ := bind_eq_ok.mp h
  cases h
  obtain ⟨rfl, hwlen⟩ := sideVector_eq_ok hweights
  obtain ⟨rfl, hmlen⟩ := sideVector_eq_ok hmapping
  obtain ⟨hlt, hrows⟩ := checkedRows_eq_ok hindices hmlen
  unfold f32Payload at hsource
  split_ifs at hsource with hdtype
  cases hsource
  exact ⟨⟨hdtype, rfl, hdim⟩, indices, ⟨hwlen, hlt, hrows⟩, hpayload⟩

/-- **The chunks of a matrix do not matter**, and a part of a row raises.

With a mapping the rows are cut out of all that the source has yielded, and nothing is left over at
its end in which a part of a row would show. Only the constructor compares `bytesize` with the rows:
that speaks of the chunks where the source is honest, as the payload of a tensor is (the last part). -/
theorem matrix_payloads {ω : Type} (mul : UInt32 → ω → UInt32) (half : ℕ → UInt32) :
    (∀ (matrix : List (List UInt32)) (source : Payload) (chunks : List Bytes)
      (nativeDim outputDim outputRows : ℕ) (weights : Option (List ω)) (mapping : Option (List ℕ)),
      source.Honest → source.chunks = .ok chunks → chunks.flatten = matrixBytes matrix →
      (∀ row ∈ matrix, row.length = nativeDim) → 1 ≤ outputDim → outputDim ≤ nativeDim →
      SidesOk matrix.length outputRows weights mapping →
      ∃ payload cs,
        rowPrefixOf mul source nativeDim matrix.length outputRows outputDim weights mapping =
          .ok payload ∧
        payload.chunks = .ok cs ∧
        cs.flatten = matrixBytes (outputMatrix mul weights mapping outputDim matrix) ∧
        cs.flatten.length = payload.bytesize) ∧
    (∀ (source : Payload) (nativeDim sourceRows outputRows outputDim : ℕ)
      (weights : Option (List ω)) (mapping : Option (List ℕ)),
      (∀ chunks, source.chunks = .ok chunks → ¬ nativeDim * floatBytes ∣ chunks.flatten.length) →
      mapping = none ∨ source.Honest →
      Raises (rowPrefixOf mul source nativeDim sourceRows outputRows outputDim weights mapping)) ∧
    ∀ (path : String) (file : Bytes) (tensor : Tensor), tensor.dtype.supported →
      (tensor.absoluteOffset + tensor.sourceBytes ≤ file.length →
        ∃ cs, (F32Payload.new half path file tensor).chunks = .ok cs ∧
          cs.flatten = floatsOf half tensor.dtype
            (slice file tensor.absoluteOffset tensor.sourceBytes) ∧
          cs.flatten.length = (F32Payload.new half path file tensor).bytesize) ∧
      (file.length < tensor.absoluteOffset + tensor.sourceBytes → 0 < tensor.sourceBytes →
        ∀ cs, (F32Payload.new half path file tensor).chunks ≠ .ok cs) := by
  refine ⟨?_, ?_, fun path file tensor hdtype => F32Payload.new_spec hdtype⟩
  · intro matrix source chunks nativeDim outputDim outputRows weights mapping hsource hchunks
      hbytes h h₁ h₂ hs
    obtain ⟨payload, cs, hnew, hsize, hcs, hflat⟩ :=
      @rowPrefixOf_spec _ mul _ _ hsource _ hchunks hbytes _ _ _ h h₁ h₂ _ _ hs
    refine ⟨payload, cs, hnew, hcs, hflat, ?_⟩
    rw [hsize, hflat, outputMatrix, length_matrixBytes, List.length_map,
      WeightedPayload.length_scaleMatrix hs]
    intro row hrow
    obtain ⟨row', hrow', rfl⟩ := List.mem_map.mp hrow
    rw [List.length_take, WeightedPayload.length_of_mem_scaleMatrix hs h row' hrow',
      Nat.min_eq_left h₂]
  · intro source nativeDim sourceRows outputRows outputDim weights mapping hpart hsource
    exact rowPrefixOf_raises hpart hsource

/-- Two rows of two floats, split inside elements. -/
def sampleSource : Payload :=
  ⟨16, .ok [[1, 0, 0], [0, 2, 0, 0, 0, 3, 0, 0, 0, 4], [0, 0, 0]]⟩

/-- A mapping and weights, a source that ends inside a row, and four halves in a file. -/
theorem matrix_payloads_sample :
    (∃ payload cs, rowPrefixOf (· * ·) sampleSource 2 2 3 1 (some [10, 20, 30]) (some [1, 0, 1]) =
        .ok payload ∧ payload.chunks = .ok cs ∧ cs.flatten = packFloats [30, 20, 90]) ∧
    Raises (rowPrefixOf (ω := UInt32) (· * ·) ⟨16, .ok [[1, 2, 3, 4], [5, 6]]⟩ 2 2 2 1 none none) ∧
    ∃ cs, (F32Payload.new UInt32.ofNat "m" [9, 1, 0, 2, 0, 3, 0, 4, 0]
        ⟨.f16, [2, 2], 1, 8, rfl⟩).chunks = .ok cs ∧ cs.flatten = packFloats [1, 2, 3, 4] := by
  obtain ⟨hrows, hraises, hfile⟩ := matrix_payloads (fun x w : UInt32 => x * w) UInt32.ofNat
  refine ⟨?_, ?_, ?_⟩
  · have hhonest : sampleSource.Honest := by
      rintro cs ⟨⟩
      rfl
    have hsides : SidesOk 2 3 (some [(10 : UInt32), 20, 30]) (some [1, 0, 1]) := by
      refine ⟨?_, ?_, by simp⟩
      · rintro _ ⟨⟩
        rfl
      · rintro _ ⟨⟩
        decide
    obtain ⟨payload, cs, hnew, hcs, hflat, -⟩ := hrows [[1, 2], [3, 4]] sampleSource _ 2 1 3
      (some [10, 20, 30]) (some [1, 0, 1]) hhonest rfl (by decide) (by decide) (by decide)
      (by decide) hsides
    exact ⟨payload, cs, hnew, hcs, hflat⟩
  · apply hraises
    · rintro cs ⟨⟩
      decide
    · exact .inl rfl
  · obtain ⟨cs, hcs, hflat, -⟩ := (hfile "m" [9, 1, 0, 2, 0, 3, 0, 4, 0]
      ⟨.f16, [2, 2], 1, 8, rfl⟩ rfl).1 (by decide)
    exact ⟨cs, hcs, hflat⟩

end StaticEmbeddings
