import Mathlib.Data.List.GetD
import StaticEmbeddings.Embed

/-!
# A batch of texts

`embed_texts_internal` of `static_embeddings.c`, with `prefix_initial_target`, `grow_target`,
`resolve_copy_len`, `build_input_indexed` and `batch_worker_run`. The slice of a text is chosen with
the lock held, the slices of a round are embedded without it.

* `BatchEnv`: the boundary of a slice and `se_embed_one`; `RoundEvents`: what may happen in a round.
* `resolveCopyLen`, `growTarget`; `resolveCopyLen_eq` and its facts.
* `batchWorkerRun`, `batchExecute`: the native loop.
* `acceptLoop`: which texts go into the next round.
* `embedRound`, `embedRunAfter`: one round, and the state after some rounds; `Returns`.
-/

namespace StaticEmbeddings

open LittleEndian

def sePrefixBytesPerToken : ℕ := 16
def sePrefixMinBytes : ℕ := 4096
def sePrefixMaxBytes : ℕ := 65536
def sePrefixBackscanBytes : ℕ := 8192

/-- `prefix_initial_target`. -/
def prefixInitialTarget (maxTokens : ℕ) : ℕ :=
  if maxTokens = 0 then 0
  else if maxTokens > sePrefixMaxBytes / sePrefixBytesPerToken then sePrefixMaxBytes
  else min (max (maxTokens * sePrefixBytesPerToken) sePrefixMinBytes) sePrefixMaxBytes

/-- `grow_target`. -/
def growTarget (target fullLen : ℕ) : ℕ :=
  if target = 0 ∨ target > fullLen / 2 then fullLen else target * 2

theorem growTarget_le (target fullLen : ℕ) : growTarget target fullLen ≤ fullLen := by
  unfold growTarget
  split_ifs <;> omega

theorem lt_growTarget {target fullLen : ℕ} (h : target < fullLen) :
    target < growTarget target fullLen := by
  unfold growTarget
  split_ifs <;> omega

/-- What a batch calls: the boundary of a leading slice, and `se_embed_one` under a cancel flag. -/
structure BatchEnv (V : Type) where
  boundary : Bytes → ℕ → ℕ
  boundary_le : ∀ text target, boundary text target ≤ text.length
  embedOne : (CancelPoll → Bool) → Bytes → SeTokenStats × Except SeError V

/-- What may happen while a round runs: which allocations succeed, what the cancel flag holds at
each poll of each item, and whether an exception leaves `protected_run_job`. -/
structure RoundEvents where
  staged : Bool
  acquired : Bool
  reserved : ℕ → Bool
  cancelTop : ℕ → Bool
  cancelled : ℕ → CancelPoll → Bool
  raised : Bool

/-- A round in which nothing happens. -/
def RoundEvents.quiet : RoundEvents where
  staged := true
  acquired := true
  reserved _ := true
  cancelTop _ := false
  cancelled _ := neverCancelled
  raised := false

/-- `batch_input_t`. -/
structure BatchInput where
  base : Bytes
  offsets : List ℕ
  lengths : List ℕ
  deriving DecidableEq, Repr

/-- The bytes of item `j`. -/
def BatchInput.text (input : BatchInput) (j : ℕ) : Bytes :=
  slice input.base (input.offsets.getD j 0) (input.lengths.getD j 0)

/-- The copying loop of `build_input_indexed`, where `cursor` bytes are copied already. -/
def copyTexts (texts : ℕ → Bytes) : ℕ → List ℕ → List ℕ → Bytes × List ℕ
  | cursor, i :: indices, len :: copyLens =>
    let (base, offsets) := copyTexts texts (cursor + len) indices copyLens
    ((texts i).take len ++ base, cursor :: offsets)
  | _, _, _ => ([], [])

/-- `build_input_indexed`. -/
def buildInputIndexed (texts : ℕ → Bytes) (indices copyLens : List ℕ) : BatchInput :=
  let (base, offsets) := copyTexts texts 0 indices copyLens
  ⟨base, offsets, copyLens⟩

/-- What a native job reads and writes; `failed` holds `failed_index` and `error`. -/
structure BatchJob (V : Type) where
  input : BatchInput
  outIndex : List ℕ
  out : ℕ → Option V
  stats : ℕ → SeTokenStats
  failed : Option (ℕ × SeError) := none

/-- `embed_run_t`; `out` is `none` at a row that was never written. -/
structure EmbedRun (V : Type) where
  out : ℕ → Option V
  stats : ℕ → SeTokenStats
  targets : ℕ → ℕ
  pending : List ℕ

/-- What `embed_texts_internal` raises. -/
inductive EmbedTextsError
  | noMemory
  | interrupted
  | native (index : ℕ) (error : SeError)
  deriving DecidableEq, Repr

/-- The error that is raised for the text `index`: with its index if the texts are an array. -/
def wrapError (isArray : Bool) (index : ℕ) (error : SeError) : SeError :=
  if isArray then ⟨error.status, s!"input[{index}]: {error.message}"⟩ else error

/-- The error of a job without a scratch. -/
def scratchError : SeError := ⟨.errOom, "out of memory while sizing scratch buffers"⟩

section

variable {V : Type} (env : BatchEnv V) (maxTokens : ℕ)

/-- `prefix_boundary_len`. -/
def prefixBoundaryLen (text : Bytes) (target : ℕ) : ℕ :=
  if target ≥ text.length then text.length else env.boundary text target

/-- The loop of `resolve_copy_len`: the length and the new target. -/
def resolveLoop (text : Bytes) (target : ℕ) : ℕ × ℕ :=
  if prefixBoundaryLen env text target ≠ 0 then (prefixBoundaryLen env text target, target)
  else if target ≥ text.length then (text.length, text.length)
  else resolveLoop text (growTarget target text.length)
termination_by text.length - target
decreasing_by
  have := @lt_growTarget target text.length (by omega)
  omega

/-- `resolve_copy_len`. -/
def resolveCopyLen (text : Bytes) (target : ℕ) : ℕ × ℕ :=
  if maxTokens = 0 ∨ target = 0 ∨ target ≥ text.length then (text.length, text.length)
  else resolveLoop env text target

/-- The loop of a round that fills `copy_lens`, with the new targets. -/
def resolvePending (texts : ℕ → Bytes) : List ℕ → (ℕ → ℕ) → List ℕ × (ℕ → ℕ)
  | [], targets => ([], targets)
  | i :: pending, targets =>
    let (copyLen, target) := resolveCopyLen env maxTokens (texts i) (targets i)
    let (copyLens, targets) := resolvePending texts pending (Function.update targets i target)
    (copyLen :: copyLens, targets)

/-- `batch_worker_run` from item `i` on, with `n` items left. -/
def batchWorkerRun (ev : RoundEvents) : ℕ → ℕ → BatchJob V → BatchJob V
  | 0, i, job => if ev.cancelTop i then { job with failed := some (0, cancelledError) } else job
  | n + 1, i, job =>
    if ev.cancelTop i then { job with failed := some (0, cancelledError) }
    else if ev.reserved i = false then { job with failed := some (i, scratchError) }
    else
      let row := job.outIndex.getD i 0
      match env.embedOne (ev.cancelled i) (job.input.text i) with
      | (stats, .error e) =>
        { job with stats := Function.update job.stats row stats, failed := some (i, e) }
      | (stats, .ok v) =>
        batchWorkerRun ev n (i + 1)
          { job with
            stats := Function.update job.stats row stats
            out := Function.update job.out row (some v) }

/-- `batch_execute`. -/
def batchExecute (ev : RoundEvents) (job : BatchJob V) : BatchJob V :=
  if ev.acquired = false then { job with failed := some (0, scratchError) }
  else batchWorkerRun env ev job.input.lengths.length 0 job

/-- The loop behind a round, from place `j` on, with `n` places left: the kept indices are moved to
the front of `pending` and their targets grow. -/
def acceptLoop (texts : ℕ → Bytes) (stats : ℕ → SeTokenStats) (copyLens : List ℕ) :
    ℕ → ℕ → ℕ → List ℕ → (ℕ → ℕ) → List ℕ × (ℕ → ℕ)
  | 0, _, next, pending, targets => (pending.take next, targets)
  | n + 1, j, next, pending, targets =>
    let i := pending.getD j 0
    let fullLen := (texts i).length
    if maxTokens ≠ 0 ∧ copyLens.getD j 0 < fullLen ∧ (stats i).truncated = false then
      acceptLoop texts stats copyLens n (j + 1) (next + 1) (pending.set next i)
        (Function.update targets i (growTarget (targets i) fullLen))
    else acceptLoop texts stats copyLens n (j + 1) next pending targets

/-- The end of a round, when the strings hold `after`: a failed slice that is not the whole string
is tried again if it was not well-formed. -/
def finishRound (after : ℕ → Bytes) (copyLens : List ℕ) (targets : ℕ → ℕ) (job : BatchJob V) :
    Except EmbedTextsError (EmbedRun V) :=
  match job.failed with
  | some (failedIndex, error) =>
    let sub := if failedIndex < job.outIndex.length then failedIndex else 0
    let original := job.outIndex.getD sub 0
    let fullLen := (after original).length
    if error.status = .errInvalidUtf8 ∧ copyLens.getD sub 0 < fullLen then
      .ok ⟨job.out, job.stats,
        Function.update targets original (growTarget (targets original) fullLen), job.outIndex⟩
    else .error (.native original error)
  | none =>
    let (pending, targets) :=
      acceptLoop maxTokens after job.stats copyLens job.outIndex.length 0 0 job.outIndex targets
    .ok ⟨job.out, job.stats, targets, pending⟩

/-- One round of `while (npending)`: the strings hold `before` when their slices are copied and
`after` when the outcome is read. -/
def embedRound (ev : RoundEvents) (before after : ℕ → Bytes) (run : EmbedRun V) :
    Except EmbedTextsError (EmbedRun V) :=
  let (copyLens, targets) := resolvePending env maxTokens before run.pending run.targets
  if ev.staged = false then .error .noMemory
  else
    let input := buildInputIndexed before run.pending copyLens
    let job := batchExecute env ev ⟨input, run.pending, run.out, run.stats, none⟩
    if ev.raised then .error .interrupted else finishRound maxTokens after copyLens targets job

/-- The state before the first round. -/
def EmbedRun.initial (count : ℕ) : EmbedRun V where
  out _ := none
  stats _ := {}
  targets _ := prefixInitialTarget maxTokens
  pending := List.range count

/-- `embed_texts_internal` after `r` rounds: string `i` holds `contents r i` in the stretch between
the rounds `r - 1` and `r`. -/
def embedRunAfter (world : ℕ → RoundEvents) (contents : ℕ → ℕ → Bytes) (count : ℕ) :
    ℕ → Except EmbedTextsError (EmbedRun V)
  | 0 => .ok (EmbedRun.initial maxTokens count)
  | r + 1 =>
    match embedRunAfter world contents count r with
    | .error e => .error e
    | .ok run =>
      if run.pending = [] then .ok run
      else embedRound env maxTokens (world r) (contents r) (contents (r + 1)) run

/-- The call ends with `result`. -/
def Returns (world : ℕ → RoundEvents) (contents : ℕ → ℕ → Bytes) (count : ℕ)
    (result : Except EmbedTextsError (EmbedRun V)) : Prop :=
  (∃ r, embedRunAfter env maxTokens world contents count r = result) ∧
    ∀ run, result = .ok run → run.pending = []

end

/-! ## The slice of a text -/

section

variable {V : Type} {env : BatchEnv V} {maxTokens : ℕ} {text : Bytes} {target : ℕ}

theorem prefixBoundaryLen_le : prefixBoundaryLen env text target ≤ text.length := by
  unfold prefixBoundaryLen
  split_ifs
  · exact le_rfl
  · exact env.boundary_le text target

/-- What `resolve_copy_len` ends with. -/
structure Resolved (env : BatchEnv V) (text : Bytes) (target : ℕ) (p : ℕ × ℕ) : Prop where
  len_le : p.1 ≤ text.length
  target_le : p.2 ≤ text.length
  le_target : min target text.length ≤ p.2
  /-- The slice ends at the boundary for a target inside the text. -/
  boundary : p.2 < text.length → p.2 ≠ 0 ∧ p.1 ≠ 0 ∧ prefixBoundaryLen env text p.2 = p.1
  whole : p.2 = text.length → p.1 = text.length

theorem Resolved.full : Resolved env text target (text.length, text.length) where
  len_le := le_rfl
  target_le := le_rfl
  le_target := min_le_right _ _
  boundary h := absurd h (lt_irrefl _)
  whole _ := rfl

theorem resolveLoop_spec (h0 : target ≠ 0) (hle : target ≤ text.length) :
    Resolved env text target (resolveLoop env text target) := by
  fun_induction resolveLoop env text target with
  | case1 target hlen =>
    exact
      { len_le := prefixBoundaryLen_le
        target_le := hle
        le_target := min_le_left _ _
        boundary := fun _ => ⟨h0, hlen, rfl⟩
        whole := fun h => if_pos (ge_of_eq h) }
  | case2 => exact Resolved.full
  | case3 target hlen hlt ih =>
    have hgrow : target < growTarget target text.length := lt_growTarget (by omega)
    have h := ih (by omega) (growTarget_le _ _)
    exact { h with le_target := (min_le_min_right _ hgrow.le).trans h.le_target }

theorem resolveCopyLen_spec : Resolved env text target (resolveCopyLen env maxTokens text target) := by
  unfold resolveCopyLen
  split_ifs with h
  · exact Resolved.full
  · exact resolveLoop_spec (by omega) (by omega)

theorem resolveCopyLen_le : (resolveCopyLen env maxTokens text target).1 ≤ text.length :=
  resolveCopyLen_spec.len_le

theorem resolveCopyLen_target_lt (h : (resolveCopyLen env maxTokens text target).1 < text.length) :
    (resolveCopyLen env maxTokens text target).2 < text.length := by
  have hs := @resolveCopyLen_spec V env maxTokens text target
  rcases hs.target_le.lt_or_eq with hlt | heq
  · exact hlt
  · exact absurd (hs.whole heq) h.ne

theorem resolveCopyLen_unlimited : (resolveCopyLen env 0 text target).1 = text.length := by
  rw [resolveCopyLen, if_pos (.inl rfl)]

theorem resolveCopyLen_resolved :
    resolveCopyLen env maxTokens text (resolveCopyLen env maxTokens text target).2 =
      resolveCopyLen env maxTokens text target := by
  have hs := @resolveCopyLen_spec V env maxTokens text target
  rcases hs.target_le.lt_or_eq with hlt | heq
  · obtain ⟨h0, hlen, hb⟩ := hs.boundary hlt
    have hmax : maxTokens ≠ 0 := by
      rintro rfl
      rw [resolveCopyLen, if_pos (.inl rfl)] at hlt
      exact lt_irrefl _ hlt
    rw [resolveCopyLen, if_neg (by omega), resolveLoop, if_pos (hb ▸ hlen), hb]
  · rw [resolveCopyLen, if_pos (.inr (.inr (ge_of_eq heq)))]
    exact Prod.ext (hs.whole heq).symm heq.symm

end

end StaticEmbeddings
