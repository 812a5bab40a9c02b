import StaticEmbeddings.Runtime.GrowthLoop
import StaticEmbeddings.Tokenizer.Boundary
import StaticEmbeddings.Tokenizer.Cancel
import StaticEmbeddings.Vector.Topk

/-!
# Calls that are cancelled

A call under a cancel flag returns what it returns without one, or raises.

* `embedIdsCore_uncancelled`, `seEmbedOne_uncancelled`: the pooling loop.
* `BatchEnv.ofModel`; `batchWorkerRun_quiet`, `embedRound_quiet`, `embedRunAfter_quiet`: a batch goes
  on round by round as if nothing happened.
* `IdsEvents`, `embedTokenIds`; `embedTokenIds_quiet`.
* `topkBody_quiet`.
* **`cancelled_call`**.
-/

namespace StaticEmbeddings

open LittleEndian

/-! ## Pooling -/

section

variable {Acc Vec : Type} {K : Kernel Acc Vec} {m : SeModel} {cancelled : CancelPoll → Bool}

theorem poolLoop?_uncancelled {i used : ℕ} {ids : List ℕ} {acc : Acc}
    (h : poolLoop? K m cancelled i ids acc used ≠ some (.error cancelledError)) :
    poolLoop? K m neverCancelled i ids acc used = poolLoop? K m cancelled i ids acc used := by
  fun_induction poolLoop? K m cancelled i ids acc used with
  | case1 => rfl
  | case2 => exact absurd rfl h
  | case3 i acc used id ids hc hge =>
    rw [poolLoop?, if_neg (by simp [neverCancelled]), if_pos hge]
  | case4 i acc used id ids hc hge hunk ih =>
    rw [poolLoop?, if_neg (by simp [neverCancelled]), if_neg hge, if_pos hunk]
    exact ih h
  | case5 i acc used id ids hc hge hunk hrow =>
    rw [poolLoop?, if_neg (by simp [neverCancelled]), if_neg hge, if_neg hunk, hrow]
  | case6 i acc used id ids hc hge hunk row hrow ih =>
    rw [poolLoop?, if_neg (by simp [neverCancelled]), if_neg hge, if_neg hunk, hrow]
    exact ih h

theorem embedIdsCore_uncancelled {ids : List ℕ}
    (h : embedIdsCore K m cancelled ids ≠ .error cancelledError) :
    embedIdsCore K m neverCancelled ids = embedIdsCore K m cancelled ids := by
  have hpool : poolLoop? K m cancelled 0 ids K.zeroAcc 0 ≠ some (.error cancelledError) := by
    intro hp
    apply h
    rw [embedIdsCore, embedIdsCore?, hp]
    rfl
  unfold embedIdsCore embedIdsCore?
  rw [poolLoop?_uncancelled hpool]

theorem seEmbedIds_uncancelled {ids : List ℕ}
    (h : (seEmbedIds K m cancelled ids).2 ≠ .error cancelledError) :
    seEmbedIds K m neverCancelled ids = seEmbedIds K m cancelled ids := by
  unfold seEmbedIds at h ⊢
  split_ifs at h ⊢
  · rfl
  · rw [embedIdsCore_uncancelled h]

theorem seEmbedOne_uncancelled {input : Bytes} {maxTokens : ℕ}
    (h : (seEmbedOne K m cancelled input maxTokens).2 ≠ .error cancelledError) :
    seEmbedOne K m neverCancelled input maxTokens = seEmbedOne K m cancelled input maxTokens := by
  have htok : (seTokenize m input maxTokens (seEmbedLimitMode m) cancelled).2 ≠
      .error cancelledError := by
    intro ht
    apply h
    rw [seEmbedOne, show seTokenize m input maxTokens (seEmbedLimitMode m) cancelled =
      ((seTokenize m input maxTokens (seEmbedLimitMode m) cancelled).1, .error cancelledError) from
        Prod.ext rfl ht]
  unfold seEmbedOne at h ⊢
  rw [seTokenize_uncancelled htok]
  split at h
  · rfl
  · rw [embedIdsCore_uncancelled h]

variable (K m)

/-- What `embed_texts_internal` calls. -/
def BatchEnv.ofModel (maxTokens : ℕ) : BatchEnv (Pooled Vec) where
  boundary text target := sePrefixBoundaryLen m text target sePrefixBackscanBytes
  boundary_le text target := sePrefixBoundaryLen_le m text target _
  embedOne cancelled text := seEmbedOne K m cancelled text maxTokens

variable {K m}

@[simp] theorem BatchEnv.boundary_ofModel (maxTokens : ℕ) (text : Bytes) (target : ℕ) :
    (BatchEnv.ofModel K m maxTokens).boundary text target =
      sePrefixBoundaryLen m text target sePrefixBackscanBytes := rfl

theorem BatchEnv.transparent_ofModel (maxTokens : ℕ) (ev : RoundEvents) :
    ev.Transparent (BatchEnv.ofModel K m maxTokens) := by
  intro j text
  by_cases h : (seEmbedOne K m (ev.cancelled j) text maxTokens).2 = .error cancelledError
  · exact .inl h
  · exact .inr (seEmbedOne_uncancelled h).symm

end

/-! ## Batches -/

section

variable {V : Type} {env : BatchEnv V} {maxTokens : ℕ} {ev : RoundEvents}

/-- A job fails because it was disturbed or cancelled, or runs as if nothing happened. -/
theorem batchWorkerRun_quiet (ht : ev.Transparent env) (n i : ℕ) (job : BatchJob V) :
    (∃ k e, (batchWorkerRun env ev n i job).failed = some (k, e) ∧
        (e = cancelledError ∨ e = scratchError)) ∨
      batchWorkerRun env ev n i job = batchWorkerRun env .quiet n i job := by
  induction n generalizing i job with
  | zero =>
    rw [batchWorkerRun, batchWorkerRun]
    by_cases hc : ev.cancelTop i = true
    · rw [if_pos hc]
      exact .inl ⟨0, _, rfl, .inl rfl⟩
    · rw [if_neg hc]
      exact .inr rfl
  | succ n ih =>
    rw [batchWorkerRun, batchWorkerRun]
    by_cases hc : ev.cancelTop i = true
    · rw [if_pos hc]
      exact .inl ⟨0, _, rfl, .inl rfl⟩
    rw [if_neg hc]
    by_cases hr : ev.reserved i = false
    · rw [if_pos hr]
      exact .inl ⟨i, _, rfl, .inr rfl⟩
    rw [if_neg hr, if_neg (by simp [RoundEvents.quiet]), if_neg (by simp [RoundEvents.quiet])]
    rcases ht i (job.input.text i) with hone | hone
    · rw [show env.embedOne (ev.cancelled i) (job.input.text i) =
        ((env.embedOne _ _).1, .error cancelledError) from Prod.ext rfl hone]
      exact .inl ⟨i, _, rfl, .inl rfl⟩
    · rw [hone, show RoundEvents.quiet.cancelled i = neverCancelled from rfl]
      rcases env.embedOne neverCancelled (job.input.text i) with ⟨stats, e | v⟩
      · exact .inr rfl
      · exact ih (i + 1) _

theorem batchExecute_quiet (ht : ev.Transparent env) (job : BatchJob V) :
    (∃ k e, (batchExecute env ev job).failed = some (k, e) ∧
        (e = cancelledError ∨ e = scratchError)) ∨
      batchExecute env ev job = batchExecute env .quiet job := by
  unfold batchExecute
  by_cases ha : ev.acquired = false
  · rw [if_pos ha]
    exact .inl ⟨0, _, rfl, .inr rfl⟩
  · rw [if_neg ha, if_neg (by simp [RoundEvents.quiet])]
    exact batchWorkerRun_quiet ht _ _ job

variable {before after : ℕ → Bytes} {run run' : EmbedRun V}

theorem finishRound_disturbed {copyLens : List ℕ} {targets : ℕ → ℕ} {job : BatchJob V} {k : ℕ}
    {e : SeError} (h : job.failed = some (k, e)) (he : e = cancelledError ∨ e = scratchError) :
    finishRound maxTokens after copyLens targets job ≠ .ok run' := by
  have hstatus : e.status ≠ .errInvalidUtf8 := by
    rcases he with rfl | rfl <;> exact SeStatus.noConfusion
  rw [finishRound, h]
  dsimp only
  rw [if_neg fun hr => hstatus hr.1]
  intro hr
  cases hr

/-- **A round that goes on is the one in which nothing happens.** -/
theorem embedRound_quiet (ht : ev.Transparent env)
    (h : embedRound env maxTokens ev before after run = .ok run') :
    embedRound env maxTokens .quiet before after run = .ok run' := by
  unfold embedRound at h ⊢
  dsimp only at h ⊢
  rw [if_neg (by simp [RoundEvents.quiet]), if_neg (by simp [RoundEvents.quiet])]
  by_cases hs : ev.staged = false
  · rw [if_pos hs] at h
    cases h
  rw [if_neg hs] at h
  by_cases hr : ev.raised = true
  · rw [if_pos hr] at h
    cases h
  rw [if_neg hr] at h
  rcases batchExecute_quiet ht _ with ⟨k, e, hfail, he⟩ | heq
  · exact absurd h (finishRound_disturbed hfail he)
  · rwa [← heq]

variable {world : ℕ → RoundEvents} {contents : ℕ → ℕ → Bytes} {count : ℕ}

theorem embedRunAfter_quiet (ht : ∀ r, (world r).Transparent env) {r : ℕ}
    (h : embedRunAfter env maxTokens world contents count r = .ok run) :
    embedRunAfter env maxTokens (fun _ => .quiet) contents count r = .ok run := by
  induction r generalizing run with
  | zero => exact h
  | succ r ih =>
    rw [embedRunAfter] at h ⊢
    split at h
    · cases h
    rename_i run₀ h₀
    rw [ih h₀]
    dsimp only
    split_ifs at h ⊢
    · exact h
    · exact embedRound_quiet (ht r) h

theorem Returns.quiet (ht : ∀ r, (world r).Transparent env)
    (h : Returns env maxTokens world contents count (.ok run)) :
    Returns env maxTokens (fun _ => .quiet) contents count (.ok run) := by
  obtain ⟨⟨r, hr⟩, hp⟩ := h
  exact ⟨⟨r, embedRunAfter_quiet ht hr⟩, hp⟩

theorem Returns.written (h : Returns env maxTokens world contents count (.ok run)) {i : ℕ}
    (hi : i < count) : ∃ v, run.out i = some v :=
  @Returns.done V env maxTokens world contents count (fun _ _ _ => True)
    (fun _ _ out => ∃ v, out = some v) run h (fun _ => trivial)
    (fun _ => { same := by simp, accept := by simp, again := by simp, retry := by simp }) i hi

end

/-! ## Token ids -/

/-- What may happen in a call of `embed_token_ids`: whether the scratch is allocated, the flag at
each poll and behind the native run, and whether `rb_thread_check_ints` raises. -/
structure IdsEvents where
  acquired : Bool
  cancelled : CancelPoll → Bool
  cancelledAfter : Bool
  raised : Bool

/-- A call in which nothing happens. -/
def IdsEvents.quiet : IdsEvents where
  acquired := true
  cancelled := neverCancelled
  cancelledAfter := false
  raised := false

/-- What a call of `embed_token_ids` raises. -/
inductive IdsRaise
  | interrupt
  | error (e : TokenIdsError)
  deriving DecidableEq, Repr

def seIdsGvlUnlockThreshold : ℕ := 256

section

variable {Acc Vec : Type} (K : Kernel Acc Vec) (m : SeModel)

/-- `ids_execute`. -/
def idsExecute (ev : IdsEvents) (ids : List ℕ) : SeTokenStats × Except SeError (Pooled Vec) :=
  if ev.acquired = false then ({}, .error scratchError) else seEmbedIds K m ev.cancelled ids

/-- `embed_token_ids_value` with `embed_token_ids_body`, under the events of a call. -/
def embedTokenIds (ev : IdsEvents) (ids : List ℕ) (maxTokens : ℕ) :
    Except IdsRaise (List ℕ × SeTokenStats × Pooled Vec) :=
  match idsCap m maxTokens ids with
  | .error e => .error (.error e)
  | .ok (n, truncated) =>
    let kept := ids.take n
    match checkIds m 0 kept with
    | .error e => .error (.error e)
    | .ok () =>
      let job := idsExecute K m ev kept
      if ev.raised then .error .interrupt
      else if kept.length ≥ seIdsGvlUnlockThreshold ∧ ev.cancelledAfter then .error .interrupt
      else
        match job with
        | (_, .error e) => .error (.error (.native e))
        | (stats, .ok pooled) =>
          .ok (kept, { stats with truncated := stats.truncated || truncated }, pooled)

variable {K m}

theorem embedTokenIds_eq (ids : List ℕ) (maxTokens : ℕ) :
    embedTokenIds K m .quiet ids maxTokens =
      match embedTokenIdsValue K m neverCancelled ids maxTokens with
      | .error e => .error (.error e)
      | .ok r => .ok r := by
  unfold embedTokenIds embedTokenIdsValue
  cases idsCap m maxTokens ids with
  | error e => rfl
  | ok p =>
    obtain ⟨n, truncated⟩ := p
    dsimp only [bind, Except.bind]
    cases checkIds m 0 (ids.take n) with
    | error e => rfl
    | ok u =>
      have hjob : idsExecute K m .quiet (ids.take n) =
          seEmbedIds K m neverCancelled (ids.take n) := rfl
      dsimp only
      rw [if_neg (by simp [IdsEvents.quiet]), if_neg (by simp [IdsEvents.quiet]), hjob]
      rcases seEmbedIds K m neverCancelled (ids.take n) with ⟨stats, e | pooled⟩ <;> rfl

theorem embedTokenIds_quiet {ev : IdsEvents} {ids : List ℕ} {maxTokens : ℕ}
    {r : List ℕ × SeTokenStats × Pooled Vec} (h : embedTokenIds K m ev ids maxTokens = .ok r) :
    embedTokenIds K m .quiet ids maxTokens = .ok r := by
  unfold embedTokenIds at h ⊢
  split at h
  · cases h
  rename_i n truncated hcap
  dsimp only at h ⊢
  split at h
  · cases h
  rename_i hcheck
  rw [if_neg (by simp [IdsEvents.quiet]), if_neg (by simp [IdsEvents.quiet])]
  split_ifs at h
  have hjob : idsExecute K m .quiet (ids.take n) = idsExecute K m ev (ids.take n) := by
    unfold idsExecute at h ⊢
    rw [if_neg (by simp [IdsEvents.quiet])]
    by_cases ha : ev.acquired = false
    · rw [if_pos ha] at h
      cases h
    rw [if_neg ha] at h ⊢
    refine seEmbedIds_uncancelled fun hc => ?_
    rw [show seEmbedIds K m ev.cancelled (ids.take n) =
      ((seEmbedIds K m ev.cancelled (ids.take n)).1, .error cancelledError) from
        Prod.ext rfl hc] at h
    cases h
  rw [hjob]
  exact h

end

/-! ## Top-k -/

section

variable {α : Type} [LinearOrder α] {cancelled : ℕ → Bool} {k : ℕ}

theorem seTopkExecute_quiet {r : ℕ} {scores : List (Score α)} {best : TopkBest α}
    (h : ∀ i, i < r + scores.length → cancelled i = false) :
    seTopkExecute cancelled k r scores best = seTopkExecute (fun _ => false) k r scores best := by
  induction scores generalizing r best with
  | nil => rfl
  | cons score scores ih =>
    rw [seTopkExecute, seTopkExecute, if_neg (by simp [h r (by simp)]), if_neg (by simp)]
    refine ih fun i hi => h i ?_
    rw [List.length_cons]
    omega

theorem topkBody_quiet [OrderBot α] {scores : List (Score α)} {result : List (ℕ × Score α)}
    (hset : ∀ i j, i ≤ j → cancelled i = true → cancelled j = true)
    (h : topkBody cancelled k scores = some result) :
    topkBody (fun _ => false) k scores = some result := by
  unfold topkBody at h ⊢
  dsimp only at h ⊢
  rw [if_neg Bool.false_ne_true]
  split_ifs at h with hend
  have hpolls : ∀ i, i < 0 + scores.length → cancelled i = false := by
    intro i hi
    rw [Nat.zero_add] at hi
    exact Bool.eq_false_of_not_eq_true fun hc => hend (hset i _ hi.le hc)
  rw [← h, seTopkExecute_quiet hpolls]

end

/-- **Cancellation never yields a partial result.** A batch, a call on token ids and a top-k search
that return under events of any kind return what they return when nothing happens, and a batch has
every row written. -/
theorem cancelled_call {Acc Vec α : Type} [LinearOrder α] [OrderBot α] (K : Kernel Acc Vec)
    (m : SeModel) (maxTokens : ℕ) :
    (∀ (world : ℕ → RoundEvents) (contents : ℕ → ℕ → Bytes) (count : ℕ) (run : EmbedRun (Pooled Vec)),
      Returns (BatchEnv.ofModel K m maxTokens) maxTokens world contents count (.ok run) →
        Returns (BatchEnv.ofModel K m maxTokens) maxTokens (fun _ => .quiet) contents count
          (.ok run) ∧ ∀ i < count, ∃ row, run.out i = some row) ∧
    (∀ (ev : IdsEvents) (ids : List ℕ) (r : List ℕ × SeTokenStats × Pooled Vec),
      embedTokenIds K m ev ids maxTokens = .ok r →
        embedTokenIdsValue K m neverCancelled ids maxTokens = .ok r) ∧
    ∀ (cancelled : ℕ → Bool) (k : ℕ) (scores : List (Score α)) (result : List (ℕ × Score α)),
      (∀ i j, i ≤ j → cancelled i = true → cancelled j = true) →
      topkBody cancelled k scores = some result →
        topkBody (fun _ => false) k scores = some result := by
  refine ⟨fun world contents count run h => ?_, fun ev ids r h => ?_,
    fun cancelled k scores result => topkBody_quiet⟩
  · exact ⟨h.quiet fun r => BatchEnv.transparent_ofModel maxTokens (world r), fun i => h.written⟩
  · have hq := embedTokenIds_quiet h
    rw [embedTokenIds_eq] at hq
    split at hq
    · cases hq
    · rename_i r' hr'
      rw [hr', Except.ok.inj hq]

end StaticEmbeddings
