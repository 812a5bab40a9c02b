import StaticEmbeddings.Runtime.EmbedTexts

/-!
# The rounds of a batch

* `resolvePending_eq`, `text_buildInputIndexed`, `batchWorkerRun_ok`, `batchWorkerRun_failed`,
  `acceptLoop_eq`: what the loops of a round compute.
* `Completed`, `Retried`: the two ways a round goes on; `embedRound_cases`.
-/

namespace StaticEmbeddings

open LittleEndian

variable {V : Type} {env : BatchEnv V} {maxTokens : ℕ}

/-! ## The loops of a round -/

theorem resolvePending_eq (texts : ℕ → Bytes) {pending : List ℕ} (hnd : pending.Nodup)
    (targets : ℕ → ℕ) :
    resolvePending env maxTokens texts pending targets =
      (pending.map fun i => (resolveCopyLen env maxTokens (texts i) (targets i)).1,
        fun i =>
          if i ∈ pending then (resolveCopyLen env maxTokens (texts i) (targets i)).2
          else targets i) := by
  induction pending generalizing targets with
  | nil =>
    rw [resolvePending]
    ext i
    · rfl
    · simp
  | cons a pending ih =>
    have hne : ∀ i ∈ pending, i ≠ a := fun i hi => ne_of_mem_of_not_mem hi hnd.notMem
    rw [resolvePending]
    dsimp only
    rw [ih hnd.of_cons]
    refine Prod.ext ?_ (funext fun i => ?_)
    · refine congrArg (List.cons _) (List.map_congr_left fun i hi => ?_)
      rw [Function.update_of_ne (hne i hi)]
    · dsimp only
      by_cases hi : i ∈ pending
      · rw [if_pos hi, if_pos (List.mem_cons_of_mem _ hi), Function.update_of_ne (hne i hi)]
      · rw [if_neg hi]
        by_cases ha : i = a
        · subst ha
          rw [Function.update_self, if_pos List.mem_cons_self]
        · rw [Function.update_of_ne ha, if_neg (by simp [ha, hi])]

theorem copyTexts_spec (texts : ℕ → Bytes) (len : ℕ → ℕ) {indices : List ℕ}
    (hlen : ∀ i ∈ indices, len i ≤ (texts i).length) (cursor : ℕ) {j : ℕ} (hj : j < indices.length) :
    ∃ start, (copyTexts texts cursor indices (indices.map len)).2.getD j 0 = cursor + start ∧
      slice (copyTexts texts cursor indices (indices.map len)).1 start (len indices[j]) =
        (texts indices[j]).take (len indices[j]) := by
  induction indices generalizing cursor j with
  | nil => exact absurd hj (Nat.not_lt_zero _)
  | cons a indices ih =>
    have ha : ((texts a).take (len a)).length = len a :=
      List.length_take_of_le (hlen a List.mem_cons_self)
    rw [List.map_cons, copyTexts]
    dsimp only
    cases j with
    | zero =>
      refine ⟨0, rfl, ?_⟩
      rw [List.getElem_cons_zero, slice, List.drop_zero, List.take_append_of_le_length ha.ge,
        List.take_take, min_self]
    | succ j =>
      obtain ⟨start, hoff, htext⟩ :=
        ih (fun i hi => hlen i (List.mem_cons_of_mem _ hi)) (cursor + len a)
          (Nat.lt_of_succ_lt_succ hj)
      refine ⟨len a + start, ?_, ?_⟩
      · rw [List.getD_cons_succ, hoff, Nat.add_assoc]
      · rw [List.getElem_cons_succ, ← htext, slice, slice, List.drop_append,
          List.drop_of_length_le (by omega), List.nil_append, ha, Nat.add_sub_cancel_left]

theorem text_buildInputIndexed (texts : ℕ → Bytes) (len : ℕ → ℕ) {indices : List ℕ}
    (hlen : ∀ i ∈ indices, len i ≤ (texts i).length) {j : ℕ} (hj : j < indices.length) :
    (buildInputIndexed texts indices (indices.map len)).text j =
      (texts indices[j]).take (len indices[j]) := by
  obtain ⟨start, hoff, htext⟩ := copyTexts_spec texts len hlen 0 hj
  rw [Nat.zero_add] at hoff
  rw [← htext, BatchInput.text, buildInputIndexed, hoff]
  congr 1
  rw [List.getD_eq_getElem _ _ (by simpa using hj), List.getElem_map]

section

variable {ev : RoundEvents} {n i : ℕ} {job : BatchJob V}

/-- A failure that is not one of `se_embed_one`. -/
def RoundEvents.Disturbs (ev : RoundEvents) (e : SeError) : Prop :=
  (e = cancelledError ∧ ∃ j, ev.cancelTop j = true) ∨
    (e = scratchError ∧ (ev.acquired = false ∨ ∃ j, ev.reserved j = false))

theorem RoundEvents.not_disturbs_quiet (e : SeError) : ¬ RoundEvents.quiet.Disturbs e := by
  rintro (⟨-, j, h⟩ | ⟨-, h | ⟨j, h⟩⟩) <;> cases h

theorem RoundEvents.Disturbs.status_ne {e : SeError} (h : ev.Disturbs e) :
    e.status ≠ .errInvalidUtf8 := by
  obtain ⟨rfl, -⟩ | ⟨rfl, -⟩ := h
  · exact SeStatus.noConfusion
  · exact SeStatus.noConfusion

theorem batchWorkerRun_frame {row : ℕ} (hrow : ∀ j, i ≤ j → j < i + n → job.outIndex.getD j 0 ≠ row) :
    (batchWorkerRun env ev n i job).out row = job.out row ∧
      (batchWorkerRun env ev n i job).stats row = job.stats row := by
  induction n generalizing i job with
  | zero =>
    rw [batchWorkerRun]
    split <;> exact ⟨rfl, rfl⟩
  | succ n ih =>
    have hne := (hrow i le_rfl (by omega)).symm
    rw [batchWorkerRun]
    by_cases hc : ev.cancelTop i = true
    · rw [if_pos hc]
      exact ⟨rfl, rfl⟩
    rw [if_neg hc]
    by_cases hr : ev.reserved i = false
    · rw [if_pos hr]
      exact ⟨rfl, rfl⟩
    rw [if_neg hr]
    dsimp only
    split
    · exact ⟨rfl, Function.update_of_ne hne _ _⟩
    · rename_i stats v hone
      have h := @ih (i + 1)
        { job with
          stats := Function.update job.stats (job.outIndex.getD i 0) stats
          out := Function.update job.out (job.outIndex.getD i 0) (some v) }
        fun j hj hj' => hrow j (by omega) (by omega)
      exact ⟨h.1.trans (Function.update_of_ne hne _ _), h.2.trans (Function.update_of_ne hne _ _)⟩

theorem batchWorkerRun_ok (h : (batchWorkerRun env ev n i job).failed = none)
    (hnd : job.outIndex.Nodup) (hlen : job.outIndex.length = i + n) {j : ℕ} (hij : i ≤ j)
    (hj : j < job.outIndex.length) :
    ∃ v, env.embedOne (ev.cancelled j) (job.input.text j) =
        ((batchWorkerRun env ev n i job).stats job.outIndex[j], .ok v) ∧
      (batchWorkerRun env ev n i job).out job.outIndex[j] = some v := by
  induction n generalizing i job with
  | zero => omega
  | succ n ih =>
    have hi : job.outIndex.getD i 0 = job.outIndex[i] := List.getD_eq_getElem _ _ (by omega)
    rw [batchWorkerRun] at h ⊢
    by_cases hc : ev.cancelTop i = true
    · rw [if_pos hc] at h
      cases h
    rw [if_neg hc] at h ⊢
    by_cases hr : ev.reserved i = false
    · rw [if_pos hr] at h
      cases h
    rw [if_neg hr] at h ⊢
    dsimp only at h ⊢
    split at h
    · cases h
    rename_i stats v hone
    rcases hij.eq_or_lt with rfl | hlt
    · -- the items behind this one leave its row alone
      have hrow : ∀ k, i + 1 ≤ k → k < i + 1 + n → job.outIndex.getD k 0 ≠ job.outIndex[i] := by
        intro k hk hk'
        rw [List.getD_eq_getElem _ _ (by omega)]
        exact fun heq => absurd (hnd.getElem_inj_iff.1 heq) (by omega)
      obtain ⟨hout, hstats⟩ := @batchWorkerRun_frame V env ev n (i + 1)
        { job with
          stats := Function.update job.stats (job.outIndex.getD i 0) stats
          out := Function.update job.out (job.outIndex.getD i 0) (some v) } _ hrow
      rw [hi] at hout hstats ⊢
      refine ⟨v, ?_, hout.trans (Function.update_self _ _ _)⟩
      rw [hstats.trans (Function.update_self _ _ _), hone]
    · exact ih h hnd (by simpa only [Nat.succ_add_eq_add_succ] using hlen) hlt hj

theorem batchWorkerRun_failed {i k : ℕ} {e : SeError}
    (h : (batchWorkerRun env ev n i job).failed = some (k, e)) (hnone : job.failed = none)
    (hpos : 0 < i + n) :
    k < i + n ∧ (ev.Disturbs e ∨
      (env.embedOne (ev.cancelled k) (job.input.text k)).2 = .error e) := by
  induction n generalizing i job with
  | zero =>
    rw [batchWorkerRun] at h
    by_cases hc : ev.cancelTop i = true
    · rw [if_pos hc] at h
      cases h
      exact ⟨hpos, .inl (.inl ⟨rfl, i, hc⟩)⟩
    · rw [if_neg hc, hnone] at h
      cases h
  | succ n ih =>
    rw [batchWorkerRun] at h
    by_cases hc : ev.cancelTop i = true
    · rw [if_pos hc] at h
      cases h
      exact ⟨hpos, .inl (.inl ⟨rfl, i, hc⟩)⟩
    rw [if_neg hc] at h
    by_cases hr : ev.reserved i = false
    · rw [if_pos hr] at h
      cases h
      exact ⟨by omega, .inl (.inr ⟨rfl, .inr ⟨_, hr⟩⟩)⟩
    rw [if_neg hr] at h
    dsimp only at h
    split at h
    · rename_i hone
      cases h
      exact ⟨by omega, .inr (by rw [hone])⟩
    · exact (ih h hnone (by omega)).imp_left fun h => by omega

theorem batchWorkerRun_outIndex :
    (batchWorkerRun env ev n i job).outIndex = job.outIndex := by
  induction n generalizing i job with
  | zero =>
    rw [batchWorkerRun]
    split <;> rfl
  | succ n ih =>
    rw [batchWorkerRun]
    by_cases hc : ev.cancelTop i = true
    · rw [if_pos hc]
    rw [if_neg hc]
    by_cases hr : ev.reserved i = false
    · rw [if_pos hr]
    rw [if_neg hr]
    dsimp only
    split
    · rfl
    · exact ih

end

/-- The loop behind a round keeps, in order, the texts whose slice was too short. -/
theorem acceptLoop_eq (texts : ℕ → Bytes) (stats : ℕ → SeTokenStats) (len : ℕ → ℕ)
    {pending : List ℕ} (hnd : pending.Nodup) (targets : ℕ → ℕ) (keep : ℕ → Bool)
    (hkeep : ∀ i, keep i = true ↔
      maxTokens ≠ 0 ∧ len i < (texts i).length ∧ (stats i).truncated = false) :
    acceptLoop maxTokens texts stats (pending.map len) pending.length 0 0 pending targets =
      (pending.filter keep, fun i =>
        if i ∈ pending ∧ keep i = true then growTarget (targets i) (texts i).length
        else targets i) := by
  -- the loop after `done` places, where `todo` are left
  suffices hloop : ∀ (todo done xs : List ℕ) (ts : ℕ → ℕ), pending = done ++ todo →
      xs.length = pending.length → xs.drop done.length = todo →
      xs.take (done.filter keep).length = done.filter keep →
      (∀ i, ts i =
        if i ∈ done ∧ keep i = true then growTarget (targets i) (texts i).length else targets i) →
      acceptLoop maxTokens texts stats (pending.map len) todo.length done.length
          (done.filter keep).length xs ts =
        (pending.filter keep, fun i =>
          if i ∈ pending ∧ keep i = true then growTarget (targets i) (texts i).length
          else targets i) from
    hloop pending [] pending targets rfl rfl rfl rfl fun i => by simp
  intro todo
  induction todo with
  | nil =>
    intro done xs ts hp hxs hdrop htake hts
    rw [List.append_nil] at hp
    subst hp
    rw [List.length_nil, acceptLoop, htake]
    exact Prod.ext rfl (funext hts)
  | cons a todo ih =>
    intro done xs ts hp hxs hdrop htake hts
    have hnext : (done.filter keep).length ≤ done.length := List.length_filter_le _ _
    have hlt : done.length < xs.length := by
      rw [hxs, hp, List.length_append, List.length_cons]
      omega
    have hget : xs.getD done.length 0 = a := by
      rw [List.getD_eq_getElem _ _ hlt, ← Option.some_inj, ← List.getElem?_eq_getElem hlt,
        ← List.head?_drop, hdrop, List.head?_cons]
    have hcopy : (pending.map len).getD done.length 0 = len a := by
      rw [hp, List.map_append, List.getD_append_right _ _ _ _ (by simp), List.length_map,
        Nat.sub_self]
      rfl
    have hdone : (done ++ [a]).length = done.length + 1 := by simp
    have hnotin : a ∉ done := by
      rw [hp] at hnd
      exact fun hin => (List.disjoint_of_nodup_append hnd) hin List.mem_cons_self
    have hdrop' : xs.drop (done.length + 1) = todo := by
      rw [← List.drop_drop, hdrop]
      rfl
    rw [List.length_cons, acceptLoop, hget, hcopy]
    by_cases hk : keep a = true
    · have hfilter : (done ++ [a]).filter keep = done.filter keep ++ [a] := by
        rw [List.filter_append, List.filter_cons_of_pos hk, List.filter_nil]
      have h := ih (done ++ [a]) (xs.set (done.filter keep).length a)
        (Function.update ts a (growTarget (ts a) (texts a).length))
        (by rw [hp, List.append_assoc]; rfl) (by rw [List.length_set, hxs])
        (by rw [hdone, List.drop_set_of_lt (by omega), hdrop'])
        (by
          rw [hfilter, List.length_append, List.length_singleton, List.take_add_one,
            List.take_set_of_le le_rfl, htake, List.getElem?_set_self (by omega)]
          rfl)
        (fun i => by
          by_cases hi : i = a
          · subst hi
            rw [Function.update_self, if_pos ⟨by simp, hk⟩, hts, if_neg fun h => hnotin h.1]
          · rw [Function.update_of_ne hi, hts]
            simp [hi])
      rw [hdone, hfilter, List.length_append, List.length_singleton] at h
      rw [if_pos ((hkeep a).1 hk), h]
    · have hfilter : (done ++ [a]).filter keep = done.filter keep := by
        rw [List.filter_append, List.filter_cons_of_neg hk, List.filter_nil, List.append_nil]
      have h := ih (done ++ [a]) xs ts (by rw [hp, List.append_assoc]; rfl) hxs
        (by rw [hdone, hdrop']) (by rw [hfilter, htake])
        (fun i => by
          rw [hts]
          by_cases hi : i = a
          · subst hi
            simp [hk]
          · simp [hi])
      rw [hdone, hfilter] at h
      rw [if_neg fun h => hk ((hkeep a).2 h), h]

/-! ## One round -/

section

variable (env maxTokens)

/-- The length of the slice of text `i`. -/
def EmbedRun.copyLen (before : ℕ → Bytes) (run : EmbedRun V) (i : ℕ) : ℕ :=
  (resolveCopyLen env maxTokens (before i) (run.targets i)).1

/-- The target for which it was chosen. -/
def EmbedRun.resolved (before : ℕ → Bytes) (run : EmbedRun V) (i : ℕ) : ℕ :=
  (resolveCopyLen env maxTokens (before i) (run.targets i)).2

/-- What a round calls `se_embed_one` with for text `i`. -/
def EmbedRun.copied (before : ℕ → Bytes) (run : EmbedRun V) (i : ℕ) : Bytes :=
  (before i).take (run.copyLen env maxTokens before i)

/-- Every slice of the round is embedded; the ones that were too short stay pending. -/
structure Completed (ev : RoundEvents) (before after : ℕ → Bytes) (run run' : EmbedRun V) :
    Prop where
  embedded : ∀ i ∈ run.pending, ∃ j v,
    env.embedOne (ev.cancelled j) (run.copied env maxTokens before i) = (run'.stats i, .ok v) ∧
      run'.out i = some v
  pending : ∀ i, i ∈ run'.pending ↔ i ∈ run.pending ∧ maxTokens ≠ 0 ∧
    run.copyLen env maxTokens before i < (after i).length ∧ (run'.stats i).truncated = false
  nodup : run'.pending.Nodup
  targets : ∀ i ∈ run'.pending,
    run'.targets i = growTarget (run.resolved env maxTokens before i) (after i).length

/-- A slice is not well-formed and shorter than its text: the round starts again. -/
structure Retried (ev : RoundEvents) (before after : ℕ → Bytes) (run run' : EmbedRun V)
    (original : ℕ) : Prop where
  mem : original ∈ run.pending
  malformed : ∃ j e, (env.embedOne (ev.cancelled j) (run.copied env maxTokens before original)).2 =
    .error e ∧ e.status = .errInvalidUtf8
  proper : run.copyLen env maxTokens before original < (after original).length
  pending : run'.pending = run.pending
  targets : ∀ i ∈ run.pending, run'.targets i =
    if i = original then growTarget (run.resolved env maxTokens before i) (after i).length
    else run.resolved env maxTokens before i

end

section

variable {ev : RoundEvents} {before after : ℕ → Bytes} {run run' : EmbedRun V}

/-- The job of a round. -/
def EmbedRun.job (env : BatchEnv V) (maxTokens : ℕ) (before : ℕ → Bytes) (run : EmbedRun V) :
    BatchJob V where
  input := buildInputIndexed before run.pending
    (run.pending.map (run.copyLen env maxTokens before))
  outIndex := run.pending
  out := run.out
  stats := run.stats

theorem embedRound_eq (hnd : run.pending.Nodup) :
    embedRound env maxTokens ev before after run =
      if ev.staged = false then .error .noMemory
      else if ev.raised then .error .interrupted
      else
        finishRound maxTokens after (run.pending.map (run.copyLen env maxTokens before))
          (fun i => if i ∈ run.pending then run.resolved env maxTokens before i else run.targets i)
          (batchExecute env ev (run.job env maxTokens before)) := by
  rw [embedRound, resolvePending_eq before hnd]
  rfl

theorem text_job {j : ℕ} (hj : j < run.pending.length) :
    (run.job env maxTokens before).input.text j =
      run.copied env maxTokens before run.pending[j] :=
  text_buildInputIndexed before _ (fun _ _ => resolveCopyLen_le) hj

theorem length_lengths_job :
    (run.job env maxTokens before).input.lengths.length = run.pending.length :=
  List.length_map _

theorem batchExecute_frame {i : ℕ} (hi : i ∉ run.pending) :
    (batchExecute env ev (run.job env maxTokens before)).out i = run.out i ∧
      (batchExecute env ev (run.job env maxTokens before)).stats i = run.stats i := by
  unfold batchExecute
  split_ifs
  · exact ⟨rfl, rfl⟩
  · rw [length_lengths_job]
    refine batchWorkerRun_frame fun j _ hj => ?_
    have hj' : j < run.pending.length := by omega
    rw [show (run.job env maxTokens before).outIndex = run.pending from rfl,
      List.getD_eq_getElem _ _ hj']
    exact fun heq => hi (heq ▸ List.getElem_mem hj')

theorem batchExecute_outIndex :
    (batchExecute env ev (run.job env maxTokens before)).outIndex = run.pending := by
  unfold batchExecute
  split_ifs
  · rfl
  · exact batchWorkerRun_outIndex

theorem batchExecute_ok (h : (batchExecute env ev (run.job env maxTokens before)).failed = none)
    (hnd : run.pending.Nodup) {i : ℕ} (hi : i ∈ run.pending) :
    ∃ j v, env.embedOne (ev.cancelled j) (run.copied env maxTokens before i) =
        ((batchExecute env ev (run.job env maxTokens before)).stats i, .ok v) ∧
      (batchExecute env ev (run.job env maxTokens before)).out i = some v := by
  obtain ⟨j, hj, rfl⟩ := List.getElem_of_mem hi
  unfold batchExecute at h ⊢
  by_cases ha : ev.acquired = false
  · rw [if_pos ha] at h
    cases h
  rw [if_neg ha] at h ⊢
  rw [length_lengths_job] at h ⊢
  obtain ⟨v, hone, hout⟩ := batchWorkerRun_ok h hnd (Nat.zero_add _).symm (Nat.zero_le j) hj
  rw [text_job hj] at hone
  exact ⟨j, v, hone, hout⟩

theorem batchExecute_failed {k : ℕ} {e : SeError}
    (h : (batchExecute env ev (run.job env maxTokens before)).failed = some (k, e))
    (hne : run.pending ≠ []) :
    ∃ hk : k < run.pending.length, ev.Disturbs e ∨
      (env.embedOne (ev.cancelled k) (run.copied env maxTokens before run.pending[k])).2 =
        .error e := by
  have hpos : 0 < run.pending.length := List.length_pos_of_ne_nil hne
  unfold batchExecute at h
  by_cases ha : ev.acquired = false
  · rw [if_pos ha] at h
    cases h
    exact ⟨hpos, .inl (.inr ⟨rfl, .inl ha⟩)⟩
  rw [if_neg ha, length_lengths_job] at h
  obtain ⟨hk, he⟩ := batchWorkerRun_failed h rfl (by omega)
  rw [Nat.zero_add] at hk
  rw [text_job hk] at he
  exact ⟨hk, he⟩

theorem embedRound_finish (hnd : run.pending.Nodup)
    (h : embedRound env maxTokens ev before after run = .ok run') :
    finishRound maxTokens after (run.pending.map (run.copyLen env maxTokens before))
        (fun i => if i ∈ run.pending then run.resolved env maxTokens before i else run.targets i)
        (batchExecute env ev (run.job env maxTokens before)) = .ok run' := by
  rw [embedRound_eq hnd] at h
  split_ifs at h
  exact h

theorem finishRound_out {copyLens : List ℕ} {targets : ℕ → ℕ} {job : BatchJob V}
    (h : finishRound maxTokens after copyLens targets job = .ok run') :
    run'.out = job.out ∧ run'.stats = job.stats := by
  unfold finishRound at h
  split at h
  · dsimp only at h
    split_ifs at h <;> (cases h; exact ⟨rfl, rfl⟩)
  · cases h
    exact ⟨rfl, rfl⟩

theorem embedRound_frame (hnd : run.pending.Nodup)
    (h : embedRound env maxTokens ev before after run = .ok run') {i : ℕ} (hi : i ∉ run.pending) :
    run'.out i = run.out i ∧ run'.stats i = run.stats i := by
  obtain ⟨hout, hstats⟩ := finishRound_out (embedRound_finish hnd h)
  rw [hout, hstats]
  exact batchExecute_frame hi

theorem finishRound_failed {len targets : ℕ → ℕ} {job : BatchJob V} {pending : List ℕ} {k : ℕ}
    {e : SeError} (hidx : job.outIndex = pending) (hfail : job.failed = some (k, e))
    (hk : k < pending.length) :
    finishRound maxTokens after (pending.map len) targets job =
      if e.status = .errInvalidUtf8 ∧ len pending[k] < (after pending[k]).length then
        .ok ⟨job.out, job.stats,
          Function.update targets pending[k]
            (growTarget (targets pending[k]) (after pending[k]).length), pending⟩
      else .error (.native pending[k] e) := by
  have hlen : (pending.map len).getD k 0 = len pending[k] := by
    rw [List.getD_eq_getElem _ _ (by rwa [List.length_map]), List.getElem_map]
  rw [finishRound, hfail, hidx]
  dsimp only
  rw [if_pos hk, List.getD_eq_getElem _ _ hk, hlen]

/-- **How a round goes on.** -/
theorem embedRound_cases (hnd : run.pending.Nodup) (hne : run.pending ≠ [])
    (h : embedRound env maxTokens ev before after run = .ok run') :
    Completed env maxTokens ev before after run run' ∨
      ∃ original, Retried env maxTokens ev before after run run' original := by
  have hfin := embedRound_finish hnd h
  cases hfail : (batchExecute env ev (run.job env maxTokens before)).failed with
  | none =>
    left
    have hstats : run'.stats = _ := (finishRound_out hfin).2
    have hout : run'.out = _ := (finishRound_out hfin).1
    have hok := fun i => @batchExecute_ok V env maxTokens ev before run hfail hnd i
    rw [← hstats, ← hout] at hok
    rw [finishRound, hfail, batchExecute_outIndex, ← hstats, ← hout,
      acceptLoop_eq after run'.stats (run.copyLen env maxTokens before) hnd _
        (fun i => decide (maxTokens ≠ 0 ∧
          run.copyLen env maxTokens before i < (after i).length ∧
            (run'.stats i).truncated = false)) fun i => decide_eq_true_iff] at hfin
    have heq := Except.ok.inj hfin
    have hpend : ∀ i, i ∈ run'.pending ↔ i ∈ run.pending ∧ maxTokens ≠ 0 ∧
        run.copyLen env maxTokens before i < (after i).length ∧
          (run'.stats i).truncated = false := by
      intro i
      rw [← heq, List.mem_filter, decide_eq_true_iff]
    refine ⟨hok, hpend, ?_, ?_⟩
    · rw [← heq]
      exact hnd.filter _
    · intro i hi
      have hk := (hpend i).1 hi
      rw [← heq]
      dsimp only
      rw [if_pos ⟨hk.1, decide_eq_true hk.2⟩, if_pos hk.1]
  | some failure =>
    right
    obtain ⟨k, e⟩ := failure
    obtain ⟨hk, he⟩ := batchExecute_failed hfail hne
    have hmem : run.pending[k] ∈ run.pending := List.getElem_mem hk
    rw [finishRound_failed batchExecute_outIndex hfail hk] at hfin
    split_ifs at hfin with hretry
    obtain ⟨hstatus, hproper⟩ := hretry
    have hone := he.resolve_left fun hd => hd.status_ne hstatus
    have heq := Except.ok.inj hfin
    refine ⟨run.pending[k], hmem, ⟨k, e, hone, hstatus⟩, hproper, by rw [← heq], fun i hi => ?_⟩
    rw [← heq]
    dsimp only
    split_ifs with hik
    · rw [hik, Function.update_self]
    · rw [Function.update_of_ne hik, if_pos hi]

theorem embedRound_error {err : EmbedTextsError} (hnd : run.pending.Nodup) (hne : run.pending ≠ [])
    (h : embedRound env maxTokens ev before after run = .error err) :
    (err = .noMemory ∧ ev.staged = false) ∨ (err = .interrupted ∧ ev.raised = true) ∨
      ∃ original ∈ run.pending, ∃ e, err = .native original e ∧
        (ev.Disturbs e ∨
          (∃ j, (env.embedOne (ev.cancelled j) (run.copied env maxTokens before original)).2 =
              .error e) ∧
            (e.status = .errInvalidUtf8 →
              (after original).length ≤ run.copyLen env maxTokens before original)) := by
  rw [embedRound_eq hnd] at h
  split_ifs at h with hs hr
  · cases h
    exact .inl ⟨rfl, hs⟩
  · cases h
    exact .inr (.inl ⟨rfl, hr⟩)
  right
  right
  cases hfail : (batchExecute env ev (run.job env maxTokens before)).failed with
  | none =>
    rw [finishRound, hfail] at h
    cases h
  | some failure =>
    obtain ⟨k, e⟩ := failure
    obtain ⟨hk, he⟩ := batchExecute_failed hfail hne
    rw [finishRound_failed batchExecute_outIndex hfail hk] at h
    split_ifs at h with hretry
    cases h
    refine ⟨_, List.getElem_mem hk, e, rfl, he.imp_right fun hone => ⟨⟨k, hone⟩, fun hst => ?_⟩⟩
    exact not_lt.1 fun hlt => hretry ⟨hst, hlt⟩

end

end StaticEmbeddings
