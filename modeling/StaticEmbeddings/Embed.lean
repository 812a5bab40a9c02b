import StaticEmbeddings.Tokenizer.Machine

/-!
# Pooling

`se_embed.c` and `embed_token_ids_value` of `static_embeddings.c`. The floating-point work is a
parameter: what is modelled is which rows are added, in which order, and what is reported.

* `Kernel`: `add_row`, `sum_sq_d` and `scale_copy` on abstract accumulators and vectors.
* `embedIdsCore?`: the rows read as byte ranges of the embedding section.
* `seEmbedIds`, `seEmbedOne`, `embedTokenIdsValue`; `pooledCount`.
-/

namespace StaticEmbeddings

open LittleEndian

/-- `se_embed_limit_mode`. -/
def seEmbedLimitMode (m : SeModel) : SeTokenLimit :=
  if m.truncationPolicy = truncateRawIds then .raw else .usable

/-- The arithmetic of pooling. -/
structure Kernel (Acc Vec : Type) where
  zeroAcc : Acc
  addRow : Acc → Bytes → Acc
  zeroVec : Vec
  /-- `sum_sq_d` and `scale_copy`, with the zero vector for a zero sum. -/
  normalized : Acc → Vec
  /-- `scale_copy` with `1.0f / used`. -/
  mean : Acc → ℕ → Vec

/-- A pooled vector and the number of rows that were added for it. -/
structure Pooled (Vec : Type) where
  out : Vec
  used : ℕ
  deriving DecidableEq, Repr

section

variable {Acc Vec : Type} (K : Kernel Acc Vec) (m : SeModel) (cancelled : CancelPoll → Bool)

/-- The loop of `embed_ids_core`, from id number `i` on. -/
def poolLoop? : ℕ → List ℕ → Acc → ℕ → Option (Except SeError (Acc × ℕ))
  | _, [], acc, used => some (.ok (acc, used))
  | i, id :: ids, acc, used =>
    if i &&& 255 = 0 ∧ cancelled (.pool i) then some (.error cancelledError)
    else if id ≥ m.vocabSize then
      some (.error ⟨.errInvalidFormat, s!"token id {id} is out of range"⟩)
    else if m.unkPolicy = unkDrop ∧ id = m.unkId then poolLoop? (i + 1) ids acc used
    else
      match slice? m.embeddings (id * m.dim * 4) (m.dim * 4) with
      | none => none
      | some row => poolLoop? (i + 1) ids (K.addRow acc row) (used + 1)

/-- `embed_ids_core`. -/
def embedIdsCore? (ids : List ℕ) : Option (Except SeError (Pooled Vec)) :=
  match poolLoop? K m cancelled 0 ids K.zeroAcc 0 with
  | none => none
  | some (.error e) => some (.error e)
  | some (.ok (acc, used)) =>
    if used = 0 then
      if m.emptyPolicy = emptyRaise then
        some (.error ⟨.errEmptyInput, "input produced no usable tokens"⟩)
      else some (.ok ⟨K.zeroVec, used⟩)
    else if m.normalizationType = 1 then some (.ok ⟨K.normalized acc, used⟩)
    else some (.ok ⟨K.mean acc used, used⟩)

/-- The value of `embed_ids_core`. -/
def embedIdsCore (ids : List ℕ) : Except SeError (Pooled Vec) :=
  (embedIdsCore? K m cancelled ids).getD (.error ⟨.errInternal, ""⟩)

/-- `se_embed_ids`. -/
def seEmbedIds (ids : List ℕ) : SeTokenStats × Except SeError (Pooled Vec) :=
  if ids.length > uint32Max then ({}, .error ⟨.errOom, "too many token ids"⟩)
  else (⟨ids.length, ids.count m.unkId, false⟩, embedIdsCore K m cancelled ids)

/-- `se_embed_one`. -/
def seEmbedOne (input : Bytes) (maxTokens : ℕ) : SeTokenStats × Except SeError (Pooled Vec) :=
  match seTokenize m input maxTokens (seEmbedLimitMode m) cancelled with
  | (stats, .error e) => (stats, .error e)
  | (stats, .ok ids) => (stats, embedIdsCore K m cancelled ids)

/-- The `pooled_count` reported by `embed_with_stats` and `embed_token_ids_with_stats`. -/
def pooledCount (stats : SeTokenStats) : ℕ :=
  if m.unkPolicy = unkDrop then stats.tokenCount - stats.unkCount else stats.tokenCount

/-! ## Token ids -/

/-- What `embed_token_ids` raises. -/
inductive TokenIdsError
  | argument (message : String)
  | native (error : SeError)
  deriving DecidableEq, Repr

/-- `rb_raise(rb_eArgError, "token id at index %zu is out of range", i)`. -/
def idOutOfRange (i : ℕ) : TokenIdsError :=
  .argument s!"token id at index {i} is out of range"

/-- The scan of `embed_token_ids_value` for the usable-ids cap, from index `i` on: the new `n` and
`truncated`. -/
def usableScan (maxTokens n : ℕ) : ℕ → ℕ → ℕ → List ℕ → Except TokenIdsError (ℕ × Bool)
  | _, _, _, [] => .ok (n, false)
  | i, usable, cutoff, value :: values =>
    if value ≥ m.vocabSize then .error (idOutOfRange i)
    else if value = m.unkId then usableScan maxTokens n (i + 1) usable cutoff values
    else if usable + 1 = maxTokens then
      usableScan maxTokens n (i + 1) (usable + 1) (i + 1) values
    else if usable + 1 > maxTokens then .ok (cutoff, true)
    else usableScan maxTokens n (i + 1) (usable + 1) cutoff values

/-- The cap of `embed_token_ids_value`. -/
def idsCap (maxTokens : ℕ) (ids : List ℕ) : Except TokenIdsError (ℕ × Bool) :=
  if maxTokens ≠ 0 ∧ m.unkPolicy = unkDrop ∧ seEmbedLimitMode m = .usable then
    usableScan m maxTokens ids.length 0 0 ids.length ids
  else if maxTokens ≠ 0 ∧ ids.length > maxTokens then .ok (maxTokens, true)
  else .ok (ids.length, false)

/-- The conversion loop of `embed_token_ids_body`, from index `i` on. -/
def checkIds : ℕ → List ℕ → Except TokenIdsError Unit
  | _, [] => .ok ()
  | i, value :: values =>
    if value ≥ m.vocabSize then .error (idOutOfRange i) else checkIds (i + 1) values

/-- `embed_token_ids_value` with `embed_token_ids_body`: the kept ids, the statistics and the
vector. -/
def embedTokenIdsValue (ids : List ℕ) (maxTokens : ℕ) :
    Except TokenIdsError (List ℕ × SeTokenStats × Pooled Vec) := do
  let (n, truncated) ← idsCap m maxTokens ids
  let kept := ids.take n
  checkIds m 0 kept
  match seEmbedIds K m cancelled kept with
  | (_, .error e) => .error (.native e)
  | (stats, .ok pooled) =>
    return (kept, { stats with truncated := stats.truncated || truncated }, pooled)

end

end StaticEmbeddings
