import StaticEmbeddings.Runtime.Windows

/-!
# Strings that change during a batch

The slices of a round are copied with the lock held, but whether a slice was long enough is read off
the strings as they are behind the round.

* `RoundRead`: a round whose rows are looked at; `SteadyRound`: no slice of the round passes for the
  whole string because that has shrunk.
* `embedRunAfter_snapshot`: what an accepted row holds.
* **`batch_snapshot`**: in a call whose rounds are steady if they are read, every row is that of the
  contents of its string at one moment; `batch_snapshot_shrunk`: in others it is not.
-/

namespace StaticEmbeddings

open LittleEndian

section

variable {Acc Vec : Type} (K : Kernel Acc Vec) (m : SeModel) (maxTokens : ℕ)

/-- The round comes to the loop that accepts rows: nothing is raised, and no slice fails. -/
def RoundRead (ev : RoundEvents) (before : ℕ → Bytes) (run : EmbedRun (Pooled Vec)) : Prop :=
  ev.staged = true ∧ ev.raised = false ∧
    (batchExecute (BatchEnv.ofModel K m maxTokens) ev
      (run.job (BatchEnv.ofModel K m maxTokens) maxTokens before)).failed = none

/-- Of the slices of the round that are not the whole string, one that reaches the cap ends at a
separator that the tokenizer keeps, and one that does not is shorter than the string still is behind
the round. -/
def SteadyRound (before after : ℕ → Bytes) (run : EmbedRun (Pooled Vec)) : Prop :=
  ∀ i ∈ run.pending,
    windowLen K m maxTokens (before i) (run.targets i) < (before i).length →
    ((sliceRun m maxTokens ((before i).take
        (windowLen K m maxTokens (before i) (run.targets i)))).1.truncated = true →
      ∃ c lead stop, BoundaryAt m (before i)
        (windowLen K m maxTokens (before i) (run.targets i)) c lead stop ∧
          ¬ DroppedSeparator m c) ∧
    ((sliceRun m maxTokens ((before i).take
        (windowLen K m maxTokens (before i) (run.targets i)))).1.truncated = false →
      windowLen K m maxTokens (before i) (run.targets i) < (after i).length)

end

section

variable {Acc Vec : Type} {K : Kernel Acc Vec} {m : SeModel} {maxTokens count : ℕ}
  {world : ℕ → RoundEvents} {contents : ℕ → ℕ → Bytes}

theorem seEmbedOne_truncated (hm : ModelOk m) {text : Bytes} {target c lead after : ℕ}
    (hlt : windowLen K m maxTokens text target < text.length)
    (hat : BoundaryAt m text (windowLen K m maxTokens text target) c lead after)
    (hkept : ¬ DroppedSeparator m c)
    (ht : (sliceRun m maxTokens
      (text.take (windowLen K m maxTokens text target))).1.truncated = true) :
    seEmbedOne K m neverCancelled text maxTokens =
      seEmbedOne K m neverCancelled (text.take (windowLen K m maxTokens text target)) maxTokens := by
  have hpos : 0 < windowLen K m maxTokens text target := Nat.pos_of_ne_zero
    (resolveCopyLen_spec.boundary (resolveCopyLen_target_lt hlt)).2.1
  have hcut := itemsCut_of_boundaryAt hm.fields.cleanText hat hkept hpos hlt
  have hsame := seTokenize_cut_truncated hm hcut ht
  rw [List.take_append_drop] at hsame
  unfold seEmbedOne
  rw [hsame]

/-- One round: a slice that is accepted in a steady round has the row of its string. -/
theorem Completed.snapshot (hm : ModelOk m) {ev : RoundEvents} {before after : ℕ → Bytes}
    {run run' : EmbedRun (Pooled Vec)}
    (hc : Completed (BatchEnv.ofModel K m maxTokens) maxTokens ev before after run run')
    (hs : SteadyRound K m maxTokens before after run) {i : ℕ} (hi : i ∈ run.pending)
    (hi' : i ∉ run'.pending) :
    ∃ v, seEmbedOne K m neverCancelled (before i) maxTokens = (run'.stats i, .ok v) ∧
      run'.out i = some v := by
  obtain ⟨j, v, hflag, hout⟩ := hc.embedded i hi
  refine ⟨v, ?_, hout⟩
  -- the flag was not seen
  have hone : seEmbedOne K m neverCancelled
      ((before i).take (windowLen K m maxTokens (before i) (run.targets i))) maxTokens =
        (run'.stats i, .ok v) := by
    have hflag : seEmbedOne K m (ev.cancelled j)
        ((before i).take (windowLen K m maxTokens (before i) (run.targets i))) maxTokens =
          (run'.stats i, .ok v) := hflag
    rw [seEmbedOne_uncancelled (by rw [hflag]; exact nofun), hflag]
  by_cases hlt : windowLen K m maxTokens (before i) (run.targets i) < (before i).length
  · obtain ⟨hkept, hlong⟩ := hs i hi hlt
    have hmax : maxTokens ≠ 0 := by
      rintro rfl
      exact hlt.ne resolveCopyLen_unlimited
    have hstats := @seEmbedOne_stats _ _ K m maxTokens
      ((before i).take (windowLen K m maxTokens (before i) (run.targets i)))
    rw [hone] at hstats
    rw [← hstats] at hkept hlong
    cases htrunc : (run'.stats i).truncated with
    | true =>
      obtain ⟨c, lead, after', hat, hc⟩ := hkept htrunc
      rw [seEmbedOne_truncated hm hlt hat hc (hstats ▸ htrunc), hone]
    | false => exact absurd ((hc.pending i).2 ⟨hi, hmax, hlong htrunc, htrunc⟩) hi'
  · rw [List.take_of_length_le (not_lt.1 hlt)] at hone
    exact hone

theorem roundRead_of_accepted {ev : RoundEvents} {before after : ℕ → Bytes}
    {run run' : EmbedRun (Pooled Vec)} (hnd : run.pending.Nodup)
    (h : embedRound (BatchEnv.ofModel K m maxTokens) maxTokens ev before after run = .ok run') {i : ℕ}
    (hi : i ∈ run.pending) (hi' : i ∉ run'.pending) : RoundRead K m maxTokens ev before run := by
  rw [embedRound_eq hnd] at h
  split_ifs at h with hs hr
  rw [Bool.not_eq_false] at hs
  rw [Bool.not_eq_true] at hr
  refine ⟨hs, hr, ?_⟩
  cases hfail : (batchExecute (BatchEnv.ofModel K m maxTokens) ev
    (run.job (BatchEnv.ofModel K m maxTokens) maxTokens before)).failed with
  | none => rfl
  | some failure =>
    -- the round raises, or every text stays pending
    obtain ⟨k, e⟩ := failure
    obtain ⟨hk, -⟩ := batchExecute_failed hfail (List.ne_nil_of_mem hi)
    rw [finishRound_failed batchExecute_outIndex hfail hk] at h
    by_cases hretry : e.status = .errInvalidUtf8 ∧
        run.copyLen (BatchEnv.ofModel K m maxTokens) maxTokens before run.pending[k] <
          (after run.pending[k]).length
    · rw [if_pos hretry] at h
      cases h
      exact absurd hi hi'
    · rw [if_neg hretry] at h
      cases h

/-- **What an accepted row holds.** -/
theorem embedRunAfter_snapshot (hm : ModelOk m)
    (hsteady : ∀ r run, embedRunAfter (BatchEnv.ofModel K m maxTokens) maxTokens world contents count
      r = .ok run → RoundRead K m maxTokens (world r) (contents r) run →
      SteadyRound K m maxTokens (contents r) (contents (r + 1)) run) {r : ℕ}
    {run : EmbedRun (Pooled Vec)}
    (h : embedRunAfter (BatchEnv.ofModel K m maxTokens) maxTokens world contents count r = .ok run)
    {i : ℕ} (hi : i < count) (hp : i ∉ run.pending) :
    ∃ moment during v,
      embedRunAfter (BatchEnv.ofModel K m maxTokens) maxTokens world contents count moment =
        .ok during ∧ i ∈ during.pending ∧
      seEmbedOne K m neverCancelled (contents moment i) maxTokens = (run.stats i, .ok v) ∧
      run.out i = some v := by
  induction r generalizing run with
  | zero =>
    cases h
    exact absurd (List.mem_range.2 hi) hp
  | succ r ih =>
    rw [embedRunAfter] at h
    split at h
    · cases h
    rename_i run₀ h₀
    split_ifs at h with hnil
    · cases h
      exact ih h₀ hp
    have hnd := (Bookkeeping.trivial h₀).nodup
    by_cases hp₀ : i ∈ run₀.pending
    · rcases embedRound_cases hnd hnil h with hc | ⟨original, hr⟩
      · have hread := roundRead_of_accepted hnd h hp₀ hp
        obtain ⟨v, hone, hout⟩ := hc.snapshot hm (hsteady r run₀ h₀ hread) hp₀ hp
        exact ⟨r, run₀, v, h₀, hp₀, hone, hout⟩
      · exact absurd (hr.pending ▸ hp₀) hp
    · obtain ⟨hout, hstats⟩ := embedRound_frame hnd h hp₀
      rw [hout, hstats]
      exact ih h₀ hp₀

end

/-- **Every row is a snapshot.** In a call whose rounds are steady if they are read, row `i` is what
`se_embed_one` has for the complete contents of string `i` at a moment at which it was still
pending. -/
theorem batch_snapshot {Acc Vec : Type} {file : Bytes} {m : SeModel} (h : validate file = .ok m)
    (K : Kernel Acc Vec) (maxTokens : ℕ) (world : ℕ → RoundEvents) (contents : ℕ → ℕ → Bytes)
    (count : ℕ)
    (hsteady : ∀ r run, embedRunAfter (BatchEnv.ofModel K m maxTokens) maxTokens world contents count
      r = .ok run → RoundRead K m maxTokens (world r) (contents r) run →
      SteadyRound K m maxTokens (contents r) (contents (r + 1)) run)
    {run : EmbedRun (Pooled Vec)}
    (hret : Returns (BatchEnv.ofModel K m maxTokens) maxTokens world contents count (.ok run)) :
    ∀ i < count, ∃ moment during v,
      embedRunAfter (BatchEnv.ofModel K m maxTokens) maxTokens world contents count moment =
        .ok during ∧ i ∈ during.pending ∧
      seEmbedOne K m neverCancelled (contents moment i) maxTokens = (run.stats i, .ok v) ∧
      run.out i = some v := by
  intro i hi
  obtain ⟨⟨r, hr⟩, hnil⟩ := hret
  exact embedRunAfter_snapshot (modelOk_of_validate h) hsteady hr hi (by simp [hnil run rfl])

/-! ## Calls on one string -/

section

variable {V : Type} {env : BatchEnv V} {maxTokens : ℕ} {before after : ℕ → Bytes} {run : EmbedRun V}
  {stats : SeTokenStats} {v : V}

theorem embedRound_single (hp : run.pending = [0])
    (hone : env.embedOne neverCancelled (run.copied env maxTokens before 0) = (stats, .ok v)) :
    ∃ run', embedRound env maxTokens .quiet before after run = .ok run' ∧ run'.stats 0 = stats ∧
      run'.out 0 = some v ∧ Completed env maxTokens .quiet before after run run' := by
  have hnd : run.pending.Nodup := by
    rw [hp]
    exact List.nodup_singleton 0
  have hne : run.pending ≠ [] := by
    rw [hp]
    exact List.cons_ne_nil _ _
  have hmem : ∀ i ∈ run.pending, i = 0 := fun i hi => List.mem_singleton.1 (hp ▸ hi)
  cases hround : embedRound env maxTokens .quiet before after run with
  | error e =>
    rcases embedRound_error hnd hne hround with ⟨-, h⟩ | ⟨-, h⟩ | ⟨original, ho, e', -, hfail⟩
    · cases h
    · cases h
    obtain ⟨⟨j, hj⟩, -⟩ := hfail.resolve_left (RoundEvents.not_disturbs_quiet e')
    rw [hmem original ho, show RoundEvents.quiet.cancelled j = neverCancelled from rfl, hone] at hj
    cases hj
  | ok run' =>
    rcases embedRound_cases hnd hne hround with hc | ⟨original, hr⟩
    · obtain ⟨j, w, hj, hout⟩ := hc.embedded 0 (hp ▸ List.mem_singleton_self 0)
      rw [show RoundEvents.quiet.cancelled j = neverCancelled from rfl, hone] at hj
      obtain ⟨hstats, hv⟩ := Prod.mk.inj hj
      cases hv
      exact ⟨run', rfl, hstats.symm, hout, hc⟩
    · obtain ⟨j, e, hj, -⟩ := hr.malformed
      rw [hmem original hr.mem, show RoundEvents.quiet.cancelled j = neverCancelled from rfl,
        hone] at hj
      cases hj

theorem Completed.pending_single {ev : RoundEvents} {run' : EmbedRun V}
    (hc : Completed env maxTokens ev before after run run') (hp : run.pending = [0])
    (hmax : maxTokens ≠ 0) (hlt : run.copyLen env maxTokens before 0 < (after 0).length)
    (ht : (run'.stats 0).truncated = false) : run'.pending = [0] := by
  have hmem : ∀ i, i ∈ run'.pending ↔ i = 0 := by
    intro i
    rw [hc.pending i, hp, List.mem_singleton]
    refine ⟨fun h => h.1, ?_⟩
    rintro rfl
    exact ⟨rfl, hmax, hlt, ht⟩
  exact List.perm_singleton.mp ((List.perm_ext_iff_of_nodup hc.nodup (List.nodup_singleton 0)).mpr
    fun i => by rw [hmem, List.mem_singleton])

theorem Completed.pending_nil {ev : RoundEvents} {run' : EmbedRun V}
    (hc : Completed env maxTokens ev before after run run') (hp : run.pending = [0])
    (hend : ¬ (maxTokens ≠ 0 ∧ run.copyLen env maxTokens before 0 < (after 0).length ∧
      (run'.stats 0).truncated = false)) : run'.pending = [] := by
  refine List.eq_nil_iff_forall_not_mem.2 fun i hi => ?_
  obtain ⟨hi, hk⟩ := (hc.pending i).1 hi
  rw [hp, List.mem_singleton] at hi
  rw [hi] at hk
  exact hend hk

end

theorem seEmbedOne_spaces {Acc Vec : Type} {K : Kernel Acc Vec} {m : SeModel} (hm : ModelOk m)
    {maxTokens : ℕ} (n : ℕ) {cps : List ℕ} (h : ∀ d ∈ cps, Utf8.Scalar d ∧ d ≠ 0x5B) :
    seEmbedOne K m neverCancelled (Utf8.encodeAll (List.replicate n 0x20 ++ cps)) maxTokens =
      seEmbedOne K m neverCancelled (Utf8.encodeAll cps) maxTokens := by
  unfold seEmbedOne
  rw [seTokenize_eq hm, seTokenize_eq hm, items_spaces hm.fields.cleanText n h]

section

variable {cps : List ℕ}

theorem first_round {contents : ℕ → ℕ → Bytes} (h : ∀ d ∈ cps, Utf8.Scalar d ∧ d ≠ 0x5B)
    (hne : 0 < (Utf8.encodeAll cps).length) (hshort : (Utf8.encodeAll cps).length < 4096)
    (hbefore : contents 0 0 = wordsText cps) :
    (windowLen unitKernel sampleModel 2 (contents 0 0) 4096 = 4096 ∧
        (resolveCopyLen (BatchEnv.ofModel unitKernel sampleModel 2) 2 (contents 0 0) 4096).2 = 4096) ∧
      (sliceRun sampleModel 2 ((contents 0 0).take 4096)).1.truncated = false ∧
      ∃ run, embedRunAfter (BatchEnv.ofModel unitKernel sampleModel 2) 2 (fun _ => .quiet) contents 1
          1 = .ok run ∧ run.stats 0 = ⟨1, 0, false⟩ ∧ run.out 0 = some ⟨(), 1⟩ ∧
        Completed (BatchEnv.ofModel unitKernel sampleModel 2) 2 .quiet (contents 0) (contents 1)
          (EmbedRun.initial 2 1) run := by
  have hm := modelOk_of_validate validate_sampleFile
  have hcut := cutByBlank_wordsText h hne hshort
  rw [← hbefore] at hcut
  have hlen : windowLen unitKernel sampleModel 2 (contents 0 0) 4096 = 4096 :=
    congrArg Prod.fst hcut.resolve
  have hslice : seEmbedOne unitKernel sampleModel neverCancelled ((contents 0 0).take 4096) 2 =
      (⟨1, 0, false⟩, .ok ⟨(), 1⟩) := by
    have hletter : seEmbedOne unitKernel sampleModel neverCancelled (Utf8.encodeAll [0x61, 0x20]) 2 =
        (⟨1, 0, false⟩, .ok ⟨(), 1⟩) := by
      decide +kernel
    rw [hbefore, take_wordsText h hne hshort, ← hletter]
    exact seEmbedOne_spaces hm 4094 (by simp [Utf8.Scalar])
  refine ⟨⟨hlen, congrArg Prod.snd hcut.resolve⟩, ?_, ?_⟩
  · rw [← @seEmbedOne_stats Unit Unit unitKernel, hslice]
  · have hcopied : (EmbedRun.initial (V := Pooled Unit) 2 1).copied
        (BatchEnv.ofModel unitKernel sampleModel 2) 2 (contents 0) 0 = (contents 0 0).take 4096 :=
      congrArg (contents 0 0).take hlen
    obtain ⟨run, hrun, hrow⟩ := @embedRound_single (Pooled Unit)
      (BatchEnv.ofModel unitKernel sampleModel 2) 2 (contents 0) (contents 1) (EmbedRun.initial 2 1)
      ⟨1, 0, false⟩ ⟨(), 1⟩ rfl (by rw [hcopied]; exact hslice)
    exact ⟨run, (embedRunAfter_succ rfl (List.cons_ne_nil _ _)).trans hrun, hrow⟩

end

theorem seEmbedOne_twoWords : seEmbedOne unitKernel sampleModel neverCancelled (wordsText [0x62]) 2 =
    (⟨2, 0, false⟩, .ok ⟨(), 2⟩) := by
  have hletters : seEmbedOne unitKernel sampleModel neverCancelled
      (Utf8.encodeAll [0x61, 0x20, 0x62]) 2 = (⟨2, 0, false⟩, .ok ⟨(), 2⟩) := by
    decide +kernel
  rw [wordsText, ← hletters]
  exact seEmbedOne_spaces (modelOk_of_validate validate_sampleFile) 4094 (by simp [Utf8.Scalar])

/-- The string holds three words at first, and two from the first round on. -/
def replacedContents (moment _ : ℕ) : Bytes :=
  if moment = 0 then wordsText [0x62, 0x20, 0x62] else wordsText [0x62]

/-- A string that loses its last word while its first slice is embedded. -/
theorem batch_snapshot_replaced : ∃ run,
    Returns (BatchEnv.ofModel unitKernel sampleModel 2) 2 (fun _ => .quiet) replacedContents 1
      (.ok run) ∧
    ∀ i < 1, ∃ moment during v,
      embedRunAfter (BatchEnv.ofModel unitKernel sampleModel 2) 2 (fun _ => .quiet) replacedContents
        1 moment = .ok during ∧ i ∈ during.pending ∧
      seEmbedOne unitKernel sampleModel neverCancelled (replacedContents moment i) 2 =
        (run.stats i, .ok v) ∧ run.out i = some v := by
  have hnext : replacedContents 1 0 = wordsText [0x62] := if_neg one_ne_zero
  have hlast : replacedContents 2 0 = wordsText [0x62] := if_neg two_ne_zero
  obtain ⟨⟨hlen, hresolved⟩, hbelow, run₁, hrun₁, hstats₁, -, hc₁⟩ := @first_round [0x62, 0x20, 0x62]
    replacedContents (by simp [Utf8.Scalar]) (by decide) (by decide) (if_pos rfl)
  -- the slice is shorter than the string still is, so that it is tried again
  have hshort : windowLen unitKernel sampleModel 2 (replacedContents 0 0) 4096 <
      (replacedContents 1 0).length := by
    rw [hlen, hnext]
    exact cutByBlank_twoWords.lt
  have hpending₁ : run₁.pending = [0] :=
    hc₁.pending_single rfl two_ne_zero hshort (congrArg SeTokenStats.truncated hstats₁)
  have htarget₁ : run₁.targets 0 = (wordsText [0x62]).length := by
    have hres : (EmbedRun.initial (V := Pooled Unit) 2 1).resolved
        (BatchEnv.ofModel unitKernel sampleModel 2) 2 (replacedContents 0) 0 = 4096 := hresolved
    rw [hc₁.targets 0 (by rw [hpending₁]; exact List.mem_singleton_self 0), hres, hnext]
    exact cutByBlank_twoWords.grow
  -- the second round embeds all that is left
  have hwhole₂ : run₁.copyLen (BatchEnv.ofModel unitKernel sampleModel 2) 2 (replacedContents 1) 0 =
      (wordsText [0x62]).length := by
    rw [EmbedRun.copyLen, htarget₁, hnext]
    exact CutByBlank.windowLen_length
  have hone₂ : (BatchEnv.ofModel unitKernel sampleModel 2).embedOne neverCancelled
      (run₁.copied (BatchEnv.ofModel unitKernel sampleModel 2) 2 (replacedContents 1) 0) =
        (⟨2, 0, false⟩, .ok ⟨(), 2⟩) := by
    rw [EmbedRun.copied, hwhole₂, hnext, List.take_length]
    exact seEmbedOne_twoWords
  obtain ⟨run₂, hrun₂, -, -, hc₂⟩ := @embedRound_single (Pooled Unit)
    (BatchEnv.ofModel unitKernel sampleModel 2) 2 (replacedContents 1) (replacedContents 2) run₁ _ _
    hpending₁ hone₂
  have hpending₂ : run₂.pending = [] :=
    hc₂.pending_nil hpending₁ fun h => by
      rw [hwhole₂, hlast] at h
      exact lt_irrefl _ h.2.1
  have hafter₂ := (embedRunAfter_succ hrun₁ (by rw [hpending₁]; exact List.cons_ne_nil _ _)).trans
    hrun₂
  have hret : Returns (BatchEnv.ofModel unitKernel sampleModel 2) 2 (fun _ => .quiet)
      replacedContents 1 (.ok run₂) := ⟨⟨2, hafter₂⟩, fun _ heq => Except.ok.inj heq ▸ hpending₂⟩
  refine ⟨run₂, hret, batch_snapshot validate_sampleFile unitKernel 2 (fun _ => .quiet)
    replacedContents 1 (fun r run hrun _ i hi hlt => ?_) hret⟩
  obtain rfl | rfl | hr : r = 0 ∨ r = 1 ∨ 2 ≤ r := by omega
  · cases hrun
    obtain rfl : i = 0 := List.mem_singleton.1 hi
    have hfirst : windowLen unitKernel sampleModel 2 (replacedContents 0 0)
        ((EmbedRun.initial (V := Pooled Unit) 2 1).targets 0) = 4096 := hlen
    rw [hfirst]
    rw [hlen] at hshort
    exact ⟨fun ht => absurd (hbelow.symm.trans ht) Bool.false_ne_true, fun _ => hshort⟩
  · cases hrun₁.symm.trans hrun
    rw [hpending₁, List.mem_singleton] at hi
    subst hi
    have hall : windowLen unitKernel sampleModel 2 (replacedContents 1 0) (run₁.targets 0) =
        (wordsText [0x62]).length := hwhole₂
    rw [hall, hnext] at hlt
    exact absurd hlt (lt_irrefl _)
  · cases (embedRunAfter_done hafter₂ hpending₂ hr).symm.trans hrun
    rw [hpending₂] at hi
    exact absurd hi List.not_mem_nil

/-- The string holds two words at first, and nothing from the first round on. -/
def shrunkContents (moment _ : ℕ) : Bytes := if moment = 0 then wordsText [0x62] else []

/-- **A torn row.** The string shrinks while its first slice is embedded, and the row is that of the
slice, which the string never held. -/
theorem batch_snapshot_shrunk : validate sampleFile = .ok sampleModel ∧ ∃ run,
    Returns (BatchEnv.ofModel unitKernel sampleModel 2) 2 (fun _ => .quiet) shrunkContents 1
      (.ok run) ∧
    ∀ moment v, seEmbedOne unitKernel sampleModel neverCancelled (shrunkContents moment 0) 2 =
      (run.stats 0, .ok v) → run.out 0 ≠ some v := by
  have hnone : (seEmbedOne unitKernel sampleModel neverCancelled [] 2).2.isOk = false := by
    decide +kernel
  obtain ⟨-, -, run, hrun, -, hout, hc⟩ := @first_round [0x62] shrunkContents
    (by simp [Utf8.Scalar]) (by decide) (by decide) (if_pos rfl)
  have hnil : run.pending = [] := hc.pending_nil rfl fun h => Nat.not_lt_zero _ h.2.1
  refine ⟨validate_sampleFile, run, ⟨⟨1, hrun⟩, fun _ heq => Except.ok.inj heq ▸ hnil⟩,
    fun moment v hv => ?_⟩
  cases moment with
  | zero =>
    rw [show shrunkContents 0 0 = wordsText [0x62] from if_pos rfl, seEmbedOne_twoWords] at hv
    rw [hout, ← Except.ok.inj (congrArg Prod.snd hv)]
    decide
  | succ moment =>
    have hv : seEmbedOne unitKernel sampleModel neverCancelled [] 2 = (run.stats 0, .ok v) := hv
    rw [hv] at hnone
    cases hnone

end StaticEmbeddings
