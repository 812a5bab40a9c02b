import Mathlib.Algebra.Order.BigOperators.Group.Finset
import StaticEmbeddings.Runtime.Rounds

/-!
# The growth loop

`while (npending)` of `embed_texts_internal`, over texts that do not change.

* `embedWindowed`: one text on its own, slice after slice.
* `Bookkeeping`: every text is pending and due, or done; `Bookkeeping.round`, `Bookkeeping.after`.
* `work`: what is left to do; `exists_returns`: the loop ends.
* **`embedTexts_windowed`**: where nothing disturbs the call, every row is that of its text alone.
* **`batch_growth_loop`**.
-/

namespace StaticEmbeddings

open LittleEndian

variable {V : Type} {env : BatchEnv V} {maxTokens : ℕ}

/-- Every text is pending and its target due, or it is done; no text is pending twice. -/
structure Bookkeeping (count : ℕ) (due : ℕ → ℕ → Prop) (done : ℕ → SeTokenStats → Option V → Prop)
    (run : EmbedRun V) : Prop where
  nodup : run.pending.Nodup
  lt_count : ∀ i ∈ run.pending, i < count
  due : ∀ i ∈ run.pending, due i (run.targets i)
  done : ∀ i < count, i ∉ run.pending → done i (run.stats i) (run.out i)

section

variable {count : ℕ} {due due' : ℕ → ℕ → Prop} {done done' : ℕ → SeTokenStats → Option V → Prop}
  {ev : RoundEvents} {before after : ℕ → Bytes} {run run' : EmbedRun V}

theorem Bookkeeping.initial (h : ∀ i, due i (prefixInitialTarget maxTokens)) :
    Bookkeeping count due done (EmbedRun.initial (V := V) maxTokens count) where
  nodup := List.nodup_range
  lt_count _ hi := List.mem_range.1 hi
  due i _ := h i
  done _ hlt hi := absurd (List.mem_range.2 hlt) hi

/-- What the outcome of a slice means for its text. -/
structure Advances (env : BatchEnv V) (maxTokens : ℕ) (ev : RoundEvents) (before after : ℕ → Bytes)
    (due due' : ℕ → ℕ → Prop) (done : ℕ → SeTokenStats → Option V → Prop) : Prop where
  same : ∀ i target, due i target → due' i (resolveCopyLen env maxTokens (before i) target).2
  accept : ∀ i target j stats v, due i target →
    env.embedOne (ev.cancelled j)
      ((before i).take (resolveCopyLen env maxTokens (before i) target).1) = (stats, .ok v) →
    ¬ (maxTokens ≠ 0 ∧ (resolveCopyLen env maxTokens (before i) target).1 < (after i).length ∧
      stats.truncated = false) → done i stats (some v)
  again : ∀ i target j stats v, due i target →
    env.embedOne (ev.cancelled j)
      ((before i).take (resolveCopyLen env maxTokens (before i) target).1) = (stats, .ok v) →
    maxTokens ≠ 0 → (resolveCopyLen env maxTokens (before i) target).1 < (after i).length →
      stats.truncated = false →
      due' i (growTarget (resolveCopyLen env maxTokens (before i) target).2 (after i).length)
  retry : ∀ i target j e, due i target →
    (env.embedOne (ev.cancelled j)
      ((before i).take (resolveCopyLen env maxTokens (before i) target).1)).2 = .error e →
    e.status = .errInvalidUtf8 →
      (resolveCopyLen env maxTokens (before i) target).1 < (after i).length →
      due' i (growTarget (resolveCopyLen env maxTokens (before i) target).2 (after i).length)

/-- **One round keeps the books.** -/
theorem Bookkeeping.round (h : Bookkeeping count due done run)
    (hadv : Advances env maxTokens ev before after due due' done) (hne : run.pending ≠ [])
    (hround : embedRound env maxTokens ev before after run = .ok run') :
    Bookkeeping count due' done run' := by
  have hframe : ∀ i < count, i ∉ run.pending → done i (run'.stats i) (run'.out i) := by
    intro i hlt hi
    obtain ⟨hout, hstats⟩ := embedRound_frame h.nodup hround hi
    rw [hout, hstats]
    exact h.done i hlt hi
  rcases embedRound_cases h.nodup hne hround with hc | ⟨original, hr⟩
  · refine ⟨hc.nodup, fun i hi => h.lt_count i ((hc.pending i).1 hi).1, ?_, ?_⟩
    · intro i hi
      obtain ⟨hp, hmax, hlen, htrunc⟩ := (hc.pending i).1 hi
      obtain ⟨j, v, hone, -⟩ := hc.embedded i hp
      rw [hc.targets i hi]
      exact hadv.again i _ j _ v (h.due i hp) hone hmax hlen htrunc
    · intro i hlt hi
      by_cases hp : i ∈ run.pending
      · obtain ⟨j, v, hone, hout⟩ := hc.embedded i hp
        rw [hout]
        exact hadv.accept i _ j _ v (h.due i hp) hone fun hk => hi ((hc.pending i).2 ⟨hp, hk⟩)
      · exact hframe i hlt hp
  · refine ⟨hr.pending ▸ h.nodup, fun i hi => h.lt_count i (hr.pending ▸ hi), ?_, ?_⟩
    · intro i hi
      rw [hr.pending] at hi
      rw [hr.targets i hi]
      split_ifs with hio
      · subst hio
        obtain ⟨j, e, hone, hstatus⟩ := hr.malformed
        exact hadv.retry _ _ j e (h.due _ hi) hone hstatus hr.proper
      · exact hadv.same i _ (h.due i hi)
    · intro i hlt hi
      exact hframe i hlt (hr.pending ▸ hi)

end

section

variable {world : ℕ → RoundEvents} {contents : ℕ → ℕ → Bytes} {count : ℕ}
  {due : ℕ → ℕ → ℕ → Prop} {done : ℕ → SeTokenStats → Option V → Prop}

/-- **A run keeps the books.** -/
theorem Bookkeeping.after (hinit : ∀ i, due 0 i (prefixInitialTarget maxTokens))
    (hadv : ∀ r, Advances env maxTokens (world r) (contents r) (contents (r + 1)) (due r)
      (due (r + 1)) done) {r : ℕ} {run : EmbedRun V}
    (h : embedRunAfter env maxTokens world contents count r = .ok run) :
    Bookkeeping count (due r) done run := by
  induction r generalizing run with
  | zero =>
    cases h
    exact Bookkeeping.initial hinit
  | succ r ih =>
    rw [embedRunAfter] at h
    split at h
    · cases h
    rename_i run₀ h₀
    split_ifs at h with hp
    · cases h
      have hb := ih h₀
      exact ⟨hb.nodup, hb.lt_count, fun i hi => by simp [hp] at hi, hb.done⟩
    · exact (ih h₀).round (hadv r) hp h

theorem Bookkeeping.trivial {r : ℕ} {run : EmbedRun V}
    (h : embedRunAfter env maxTokens world contents count r = .ok run) :
    Bookkeeping count (fun _ _ => True) (fun _ _ _ => True) run :=
  @Bookkeeping.after V env maxTokens world contents count (fun _ _ _ => True) (fun _ _ _ => True)
    (fun _ => True.intro)
    (fun _ => { same := by simp, accept := by simp, again := by simp, retry := by simp }) r run h

end

/-! ## The end of the loop -/

section

variable {world : ℕ → RoundEvents} {contents : ℕ → ℕ → Bytes} {count : ℕ}

theorem embedRunAfter_error {r r' : ℕ} {e : EmbedTextsError}
    (h : embedRunAfter env maxTokens world contents count r = .error e) (hr : r ≤ r') :
    embedRunAfter env maxTokens world contents count r' = .error e := by
  induction hr with
  | refl => exact h
  | step _ ih => rw [embedRunAfter, ih]

theorem embedRunAfter_done {r r' : ℕ} {run : EmbedRun V}
    (h : embedRunAfter env maxTokens world contents count r = .ok run) (hp : run.pending = [])
    (hr : r ≤ r') : embedRunAfter env maxTokens world contents count r' = .ok run := by
  induction hr with
  | refl => exact h
  | step _ ih =>
    rw [embedRunAfter, ih]
    exact if_pos hp

theorem embedRunAfter_succ {r : ℕ} {run : EmbedRun V}
    (h : embedRunAfter env maxTokens world contents count r = .ok run) (hp : run.pending ≠ []) :
    embedRunAfter env maxTokens world contents count (r + 1) =
      embedRound env maxTokens (world r) (contents r) (contents (r + 1)) run := by
  rw [embedRunAfter, h]
  exact if_neg hp

theorem Returns.unique {result result' : Except EmbedTextsError (EmbedRun V)}
    (h : Returns env maxTokens world contents count result)
    (h' : Returns env maxTokens world contents count result') : result = result' := by
  have stays : ∀ {x : Except EmbedTextsError (EmbedRun V)},
      Returns env maxTokens world contents count x →
        ∃ r, ∀ r', r ≤ r' → embedRunAfter env maxTokens world contents count r' = x := by
    rintro (e | run) ⟨⟨r, hr⟩, hp⟩
    · exact ⟨r, fun r' => embedRunAfter_error hr⟩
    · exact ⟨r, fun r' => embedRunAfter_done hr (hp run rfl)⟩
  obtain ⟨r, hr⟩ := stays h
  obtain ⟨r', hr'⟩ := stays h'
  rw [← hr (max r r') (le_max_left _ _), hr' (max r r') (le_max_right _ _)]

/-- What is left to do for texts that do not change. -/
def work (texts : ℕ → Bytes) (count : ℕ) (run : EmbedRun V) : ℕ :=
  ∑ i ∈ Finset.range count,
    if i ∈ run.pending then 1 + ((texts i).length - run.targets i) else 0

variable {ev : RoundEvents} {texts : ℕ → Bytes} {run run' : EmbedRun V}

theorem sub_resolved_le (i : ℕ) :
    (texts i).length - run.resolved env maxTokens texts i ≤
      (texts i).length - run.targets i := by
  have h := (@resolveCopyLen_spec V env maxTokens (texts i) (run.targets i)).le_target
  change min _ _ ≤ run.resolved env maxTokens texts i at h
  omega

theorem sub_growTarget_lt {i : ℕ}
    (h : run.copyLen env maxTokens texts i < (texts i).length) :
    (texts i).length - growTarget (run.resolved env maxTokens texts i) (texts i).length <
      (texts i).length - run.targets i := by
  have hlt : run.resolved env maxTokens texts i < (texts i).length := resolveCopyLen_target_lt h
  have hgrow := lt_growTarget hlt
  have hle := @sub_resolved_le V env maxTokens texts run i
  omega

/-- **A round leaves less to do.** -/
theorem work_lt (hnd : run.pending.Nodup) (hlt : ∀ i ∈ run.pending, i < count)
    (hne : run.pending ≠ []) (h : embedRound env maxTokens ev texts texts run = .ok run') :
    work texts count run' < work texts count run := by
  rcases embedRound_cases hnd hne h with hc | ⟨original, hr⟩
  · -- every pending text is done or has a longer target
    have hstep : ∀ i ∈ run.pending,
        (if i ∈ run'.pending then 1 + ((texts i).length - run'.targets i) else 0) <
          1 + ((texts i).length - run.targets i) := by
      intro i hi
      split_ifs with hi'
      · rw [hc.targets i hi']
        have := sub_growTarget_lt ((hc.pending i).1 hi').2.2.1
        omega
      · omega
    obtain ⟨i, hi⟩ := List.exists_mem_of_ne_nil _ hne
    refine Finset.sum_lt_sum (fun k _ => ?_) ⟨i, Finset.mem_range.2 (hlt i hi), ?_⟩
    · by_cases hk : k ∈ run.pending
      · rw [if_pos hk]
        exact (hstep k hk).le
      · rw [if_neg hk, if_neg fun hk' => hk ((hc.pending k).1 hk').1]
    · rw [if_pos hi]
      exact hstep i hi
  · have hstep : ∀ i ∈ run.pending,
        (texts i).length - run'.targets i ≤ (texts i).length - run.targets i := by
      intro i hi
      rw [hr.targets i hi]
      split_ifs with hio
      · exact (sub_growTarget_lt (hio ▸ hr.proper)).le
      · exact sub_resolved_le i
    refine Finset.sum_lt_sum (fun k _ => ?_) ⟨original, Finset.mem_range.2 (hlt _ hr.mem), ?_⟩
    · rw [hr.pending]
      split_ifs with hk
      · exact Nat.add_le_add_left (hstep k hk) 1
      · exact le_rfl
    · rw [hr.pending, if_pos hr.mem, if_pos hr.mem, hr.targets _ hr.mem, if_pos rfl]
      exact Nat.add_lt_add_left (sub_growTarget_lt hr.proper) 1

/-- **The loop ends.** -/
theorem exists_returns (env : BatchEnv V) (maxTokens : ℕ) (world : ℕ → RoundEvents)
    (texts : ℕ → Bytes) (count : ℕ) :
    ∃ result, Returns env maxTokens world (fun _ => texts) count result := by
  -- from any round on
  suffices hrun : ∀ n r run, embedRunAfter env maxTokens world (fun _ => texts) count r = .ok run →
      work texts count run = n →
      ∃ result, Returns env maxTokens world (fun _ => texts) count result from
    hrun _ 0 _ rfl rfl
  intro n
  induction n using Nat.strong_induction_on with
  | _ n ih =>
    intro r run h hn
    by_cases hp : run.pending = []
    · exact ⟨_, ⟨r, h⟩, fun _ heq => Except.ok.inj heq ▸ hp⟩
    have hb := Bookkeeping.trivial h
    have hsucc := embedRunAfter_succ h hp
    cases hround : embedRound env maxTokens (world r) texts texts run with
    | error e => exact ⟨.error e, ⟨r + 1, hsucc.trans hround⟩, nofun⟩
    | ok run' =>
      have hlt := work_lt hb.nodup hb.lt_count hp hround
      exact ih _ (hn ▸ hlt) (r + 1) run' (hsucc.trans hround) rfl

end

/-! ## One text -/

section

variable (env maxTokens)

/-- One text on its own: the slices that `embed_texts_internal` tries, from a target on, until one
of them is accepted or fails for good. -/
def embedWindowed (text : Bytes) (target : ℕ) : Except SeError (SeTokenStats × V) :=
  if _h : (resolveCopyLen env maxTokens text target).1 < text.length then
    match env.embedOne neverCancelled
        (text.take (resolveCopyLen env maxTokens text target).1) with
    | (stats, .ok v) =>
      if maxTokens ≠ 0 ∧ stats.truncated = false then
        embedWindowed text (growTarget (resolveCopyLen env maxTokens text target).2 text.length)
      else .ok (stats, v)
    | (_, .error e) =>
      if e.status = .errInvalidUtf8 then
        embedWindowed text (growTarget (resolveCopyLen env maxTokens text target).2 text.length)
      else .error e
  else
    match env.embedOne neverCancelled text with
    | (stats, .ok v) => .ok (stats, v)
    | (_, .error e) => .error e
termination_by text.length - target
decreasing_by
  all_goals
    have hlt := resolveCopyLen_target_lt _h
    have hgrow := lt_growTarget hlt
    have hle := (@resolveCopyLen_spec V env maxTokens text target).le_target
    omega

end

section

variable {ev : RoundEvents} {text : Bytes} {target : ℕ} {stats : SeTokenStats} {v : V} {e : SeError}

theorem embedWindowed_resolved :
    embedWindowed env maxTokens text (resolveCopyLen env maxTokens text target).2 =
      embedWindowed env maxTokens text target := by
  rw [embedWindowed, resolveCopyLen_resolved]
  exact (embedWindowed.eq_1 env maxTokens text target).symm

/-- A slice is the whole text or a proper one. -/
theorem take_whole (h : ¬ (resolveCopyLen env maxTokens text target).1 < text.length) :
    text.take (resolveCopyLen env maxTokens text target).1 = text :=
  List.take_of_length_le (not_lt.1 h)

theorem embedWindowed_accept
    (h : env.embedOne neverCancelled (text.take (resolveCopyLen env maxTokens text target).1) =
      (stats, .ok v))
    (ha : ¬ (maxTokens ≠ 0 ∧ (resolveCopyLen env maxTokens text target).1 < text.length ∧
      stats.truncated = false)) :
    embedWindowed env maxTokens text target = .ok (stats, v) := by
  rw [embedWindowed]
  split_ifs with hlt
  · rw [h]
    exact if_neg fun hk => ha ⟨hk.1, hlt, hk.2⟩
  · rw [take_whole hlt] at h
    rw [h]

theorem embedWindowed_again
    (h : env.embedOne neverCancelled (text.take (resolveCopyLen env maxTokens text target).1) =
      (stats, .ok v))
    (hmax : maxTokens ≠ 0) (hlt : (resolveCopyLen env maxTokens text target).1 < text.length)
    (htrunc : stats.truncated = false) :
    embedWindowed env maxTokens text target = embedWindowed env maxTokens text
      (growTarget (resolveCopyLen env maxTokens text target).2 text.length) := by
  rw [embedWindowed, dif_pos hlt, h]
  exact if_pos ⟨hmax, htrunc⟩

theorem embedWindowed_retry
    (h : (env.embedOne neverCancelled
      (text.take (resolveCopyLen env maxTokens text target).1)).2 = .error e)
    (hstatus : e.status = .errInvalidUtf8)
    (hlt : (resolveCopyLen env maxTokens text target).1 < text.length) :
    embedWindowed env maxTokens text target = embedWindowed env maxTokens text
      (growTarget (resolveCopyLen env maxTokens text target).2 text.length) := by
  rw [embedWindowed, dif_pos hlt,
    show env.embedOne _ _ = ((env.embedOne _ _).1, .error e) from Prod.ext rfl h]
  exact if_pos hstatus

theorem embedWindowed_fail
    (h : (env.embedOne neverCancelled
      (text.take (resolveCopyLen env maxTokens text target).1)).2 = .error e)
    (hfinal : e.status = .errInvalidUtf8 →
      text.length ≤ (resolveCopyLen env maxTokens text target).1) :
    embedWindowed env maxTokens text target = .error e := by
  have hpair : env.embedOne neverCancelled
      (text.take (resolveCopyLen env maxTokens text target).1) =
        ((env.embedOne _ _).1, .error e) := Prod.ext rfl h
  rw [embedWindowed]
  split_ifs with hlt
  · rw [hpair]
    exact if_neg fun hst => absurd (hfinal hst) (not_le.2 hlt)
  · rw [take_whole hlt] at hpair
    rw [hpair]

/-- Every call of `se_embed_one` in the round ends cancelled or as if the flag were never set. -/
def RoundEvents.Transparent (env : BatchEnv V) (ev : RoundEvents) : Prop :=
  ∀ j text, (env.embedOne (ev.cancelled j) text).2 = .error cancelledError ∨
    env.embedOne (ev.cancelled j) text = env.embedOne neverCancelled text

theorem RoundEvents.transparent_quiet : RoundEvents.quiet.Transparent env := fun _ _ => .inr rfl

/-- A target is due if the text has the result that it has from the first target on. -/
def WindowDue (env : BatchEnv V) (maxTokens : ℕ) (texts : ℕ → Bytes) (i target : ℕ) : Prop :=
  embedWindowed env maxTokens (texts i) target =
    embedWindowed env maxTokens (texts i) (prefixInitialTarget maxTokens)

/-- A text is done if its row holds that result. -/
def WindowDone (env : BatchEnv V) (maxTokens : ℕ) (texts : ℕ → Bytes) (i : ℕ)
    (stats : SeTokenStats) (out : Option V) : Prop :=
  ∃ v, out = some v ∧
    embedWindowed env maxTokens (texts i) (prefixInitialTarget maxTokens) = .ok (stats, v)

theorem WindowDue.advances {texts : ℕ → Bytes} (ht : ev.Transparent env) :
    Advances env maxTokens ev texts texts (WindowDue env maxTokens texts)
      (WindowDue env maxTokens texts) (WindowDone env maxTokens texts) where
  same i target hd := embedWindowed_resolved.trans hd
  accept i target j stats v hd hone ha := by
    rcases ht j _ with hc | hc
    · rw [hone] at hc
      cases hc
    · exact ⟨v, rfl, hd ▸ embedWindowed_accept (hc ▸ hone) ha⟩
  again i target j stats v hd hone hmax hlt htrunc := by
    rcases ht j _ with hc | hc
    · rw [hone] at hc
      cases hc
    · exact (embedWindowed_again (hc ▸ hone) hmax hlt htrunc).symm.trans hd
  retry i target j e hd hone hstatus hlt := by
    rcases ht j _ with hc | hc
    · rw [hone] at hc
      cases hc
      exact SeStatus.noConfusion hstatus
    · exact (embedWindowed_retry (hc ▸ hone) hstatus hlt).symm.trans hd

end

/-! ## The whole call -/

section

variable {world : ℕ → RoundEvents} {contents : ℕ → ℕ → Bytes} {texts : ℕ → Bytes} {count : ℕ}

theorem exists_round_error {r : ℕ} {err : EmbedTextsError}
    (h : embedRunAfter env maxTokens world contents count r = .error err) :
    ∃ r' run, embedRunAfter env maxTokens world contents count r' = .ok run ∧ run.pending ≠ [] ∧
      embedRound env maxTokens (world r') (contents r') (contents (r' + 1)) run = .error err := by
  induction r with
  | zero => cases h
  | succ r ih =>
    rw [embedRunAfter] at h
    split at h
    · rename_i e he
      cases h
      exact ih he
    · rename_i run hrun
      split_ifs at h with hp
      exact ⟨r, run, hrun, hp, h⟩

theorem Returns.done {due : ℕ → ℕ → ℕ → Prop} {done : ℕ → SeTokenStats → Option V → Prop}
    {run : EmbedRun V} (h : Returns env maxTokens world contents count (.ok run))
    (hinit : ∀ i, due 0 i (prefixInitialTarget maxTokens))
    (hadv : ∀ r, Advances env maxTokens (world r) (contents r) (contents (r + 1)) (due r)
      (due (r + 1)) done) {i : ℕ} (hi : i < count) : done i (run.stats i) (run.out i) := by
  obtain ⟨⟨r, hr⟩, hp⟩ := h
  have hb := Bookkeeping.after hinit hadv hr
  exact hb.done i hi (by simp [hp run rfl])

/-- **A call that returns has in every row what its text alone has.** -/
theorem Returns.windowed (ht : ∀ r, (world r).Transparent env) {run : EmbedRun V}
    (h : Returns env maxTokens world (fun _ => texts) count (.ok run)) {i : ℕ} (hi : i < count) :
    WindowDone env maxTokens texts i (run.stats i) (run.out i) :=
  @Returns.done V env maxTokens world _ count (fun _ => WindowDue env maxTokens texts) _ run h
    (fun _ => rfl) (fun r => WindowDue.advances (ht r)) i hi

theorem Returns.windowed_error {err : EmbedTextsError}
    (h : Returns env maxTokens (fun _ => .quiet) (fun _ => texts) count (.error err)) :
    ∃ original < count, ∃ e, err = .native original e ∧
      embedWindowed env maxTokens (texts original) (prefixInitialTarget maxTokens) = .error e := by
  obtain ⟨r, hr⟩ := h.1
  obtain ⟨r', run, hrun, hp, hround⟩ := exists_round_error hr
  have hb := @Bookkeeping.after V env maxTokens (fun _ => .quiet) (fun _ => texts) count
    (fun _ => WindowDue env maxTokens texts) (WindowDone env maxTokens texts) (fun _ => rfl)
    (fun _ => WindowDue.advances RoundEvents.transparent_quiet) r' run hrun
  rcases embedRound_error hb.nodup hp hround with ⟨-, h⟩ | ⟨-, h⟩ | ⟨original, hmem, e, he, hfail⟩
  · cases h
  · cases h
  refine ⟨original, hb.lt_count _ hmem, e, he, ?_⟩
  obtain ⟨⟨j, hone⟩, hfinal⟩ := hfail.resolve_left (RoundEvents.not_disturbs_quiet e)
  rw [← hb.due original hmem]
  exact embedWindowed_fail hone hfinal

/-- **A call that nothing disturbs.** It returns what every text has alone, or raises for one of the
texts that fail alone. -/
theorem embedTexts_windowed (env : BatchEnv V) (maxTokens : ℕ) (texts : ℕ → Bytes) (count : ℕ) :
    (∃ run, Returns env maxTokens (fun _ => .quiet) (fun _ => texts) count (.ok run) ∧
      ∀ i < count, WindowDone env maxTokens texts i (run.stats i) (run.out i)) ∨
    ∃ original < count, ∃ e,
      Returns env maxTokens (fun _ => .quiet) (fun _ => texts) count (.error (.native original e)) ∧
      embedWindowed env maxTokens (texts original) (prefixInitialTarget maxTokens) = .error e := by
  obtain ⟨result, h⟩ := exists_returns env maxTokens (fun _ => .quiet) texts count
  cases result with
  | ok run =>
    exact .inl ⟨run, h, fun i => h.windowed fun _ => RoundEvents.transparent_quiet⟩
  | error err =>
    obtain ⟨original, hlt, e, rfl, he⟩ := h.windowed_error
    exact .inr ⟨original, hlt, e, h, he⟩

/-- Row `i` and its statistics are those of an accepted slice of text `i`. -/
def SliceDone (env : BatchEnv V) (texts : ℕ → Bytes) (i : ℕ) (stats : SeTokenStats)
    (out : Option V) : Prop :=
  ∃ len ≤ (texts i).length, ∃ flag v, env.embedOne flag ((texts i).take len) = (stats, .ok v) ∧
    out = some v ∧ (len = (texts i).length ∨ stats.truncated = true)

theorem SliceDone.advances {ev : RoundEvents} :
    Advances env maxTokens ev texts texts (fun _ _ => True) (fun _ _ => True)
      (SliceDone env texts) where
  same _ _ _ := trivial
  accept i target j stats v _ hone ha := by
    refine ⟨_, resolveCopyLen_le, _, v, hone, rfl, ?_⟩
    rcases (@resolveCopyLen_le V env maxTokens (texts i) target).eq_or_lt with heq | hlt
    · exact .inl heq
    · have hmax : maxTokens ≠ 0 := by
        rintro rfl
        exact hlt.ne resolveCopyLen_unlimited
      exact .inr (by simpa [hmax, hlt] using ha)
  again := by simp
  retry := by simp

/-- Accepted rows are not written to again. -/
theorem embedRunAfter_accepted {r r' : ℕ} (hr : r ≤ r') {run run' : EmbedRun V}
    (h : embedRunAfter env maxTokens world contents count r = .ok run)
    (h' : embedRunAfter env maxTokens world contents count r' = .ok run') {i : ℕ}
    (hi : i ∉ run.pending) :
    i ∉ run'.pending ∧ run'.out i = run.out i ∧ run'.stats i = run.stats i := by
  induction hr generalizing run' with
  | refl =>
    cases h.symm.trans h'
    exact ⟨hi, rfl, rfl⟩
  | step hle ih =>
    rw [embedRunAfter] at h'
    split at h'
    · cases h'
    rename_i run₀ h₀
    obtain ⟨hi₀, hout, hstats⟩ := ih h₀
    split_ifs at h' with hp
    · cases h'
      exact ⟨hi₀, hout, hstats⟩
    have hnd := (Bookkeeping.trivial h₀).nodup
    obtain ⟨hout', hstats'⟩ := embedRound_frame hnd h' hi₀
    refine ⟨fun hmem => ?_, hout'.trans hout, hstats'.trans hstats⟩
    rcases embedRound_cases hnd hp h' with hc | ⟨original, hr⟩
    · exact hi₀ ((hc.pending i).1 hmem).1
    · exact hi₀ (hr.pending ▸ hmem)

theorem Returns.slice_error {original : ℕ} {e : SeError}
    (h : Returns env maxTokens world (fun _ => texts) count (.error (.native original e))) :
    original < count ∧ ((∃ r, (world r).Disturbs e) ∨
      ∃ len ≤ (texts original).length, ∃ flag,
        (env.embedOne flag ((texts original).take len)).2 = .error e ∧
          (e.status = .errInvalidUtf8 → len = (texts original).length)) := by
  obtain ⟨r, hr⟩ := h.1
  obtain ⟨r', run, hrun, hp, hround⟩ := exists_round_error hr
  have hb := Bookkeeping.trivial hrun
  rcases embedRound_error hb.nodup hp hround with ⟨h, -⟩ | ⟨h, -⟩ | ⟨original', hmem, e', he, hfail⟩
  · cases h
  · cases h
  cases he
  refine ⟨hb.lt_count _ hmem, hfail.imp (fun hd => ⟨r', hd⟩) ?_⟩
  rintro ⟨⟨j, hone⟩, hfinal⟩
  exact ⟨_, resolveCopyLen_le, _, hone, fun hst => resolveCopyLen_le.antisymm (hfinal hst)⟩

end

/-- The strings of a batch. -/
def textAt (texts : List Bytes) (i : ℕ) : Bytes := texts.getD i []

/-- **The growth loop keeps its books.** -/
theorem batch_growth_loop (env : BatchEnv V) (maxTokens : ℕ) (texts : List Bytes) :
    -- the loop ends
    (∀ world, ∃ result, Returns env maxTokens world (fun _ => textAt texts) texts.length result) ∧
    -- every row is that of an accepted slice of its own text
    (∀ world run, Returns env maxTokens world (fun _ => textAt texts) texts.length (.ok run) →
      ∀ i < texts.length, SliceDone env (textAt texts) i (run.stats i) (run.out i)) ∧
    -- a row that is accepted stays as it is
    (∀ world r r' run run', r ≤ r' →
      embedRunAfter env maxTokens world (fun _ => textAt texts) texts.length r = .ok run →
      embedRunAfter env maxTokens world (fun _ => textAt texts) texts.length r' = .ok run' →
      ∀ i, i ∉ run.pending →
        i ∉ run'.pending ∧ run'.out i = run.out i ∧ run'.stats i = run.stats i) ∧
    -- a failure has the index of a text that failed for good
    (∀ world original e,
      Returns env maxTokens world (fun _ => textAt texts) texts.length
        (.error (.native original e)) →
      original < texts.length ∧ ((∃ r, (world r).Disturbs e) ∨
        ∃ len ≤ (textAt texts original).length, ∃ flag,
          (env.embedOne flag ((textAt texts original).take len)).2 = .error e ∧
            (e.status = .errInvalidUtf8 → len = (textAt texts original).length))) ∧
    -- a row does not depend on the other texts
    (∀ run, Returns env maxTokens (fun _ => .quiet) (fun _ => textAt texts) texts.length (.ok run) →
      ∀ i < texts.length, ∃ alone,
        Returns env maxTokens (fun _ => .quiet) (fun _ => textAt [textAt texts i]) 1 (.ok alone) ∧
          alone.out 0 = run.out i ∧ alone.stats 0 = run.stats i) ∧
    -- nor does a failure
    ∀ err,
      Returns env maxTokens (fun _ => .quiet) (fun _ => textAt texts) texts.length (.error err) →
      ∃ original < texts.length, ∃ e, err = .native original e ∧
        Returns env maxTokens (fun _ => .quiet) (fun _ => textAt [textAt texts original]) 1
          (.error (.native 0 e)) := by
  refine ⟨fun world => exists_returns _ _ _ _ _, fun world run h i hi => ?_,
    fun world r r' run run' hr h h' i => embedRunAfter_accepted hr h h',
    fun world original e h => h.slice_error, fun run h i hi => ?_, fun err h => ?_⟩
  · exact @Returns.done V env maxTokens world _ _ (fun _ _ _ => True) _ run h (fun _ => trivial)
      (fun _ => SliceDone.advances) i hi
  · obtain ⟨v, hout, hv⟩ := h.windowed (fun _ => RoundEvents.transparent_quiet) hi
    rcases embedTexts_windowed env maxTokens (textAt [textAt texts i]) 1 with
      ⟨alone, ha, hrow⟩ | ⟨original, hlt, e, -, he⟩
    · obtain ⟨w, hw, hw'⟩ := hrow 0 Nat.one_pos
      have heq := Except.ok.inj (hw'.symm.trans hv)
      exact ⟨alone, ha, by rw [hw, hout, (Prod.mk.inj heq).2], (Prod.mk.inj heq).1⟩
    · obtain rfl : original = 0 := by omega
      cases he.symm.trans hv
  · obtain ⟨original, hlt, e, rfl, he⟩ := h.windowed_error
    refine ⟨original, hlt, e, rfl, ?_⟩
    rcases embedTexts_windowed env maxTokens (textAt [textAt texts original]) 1 with
      ⟨alone, ha, hrow⟩ | ⟨original', hlt', e', hret, he'⟩
    · obtain ⟨w, -, hw⟩ := hrow 0 Nat.one_pos
      cases he.symm.trans hw
    · obtain rfl : original' = 0 := by omega
      cases he'.symm.trans he
      exact hret

end StaticEmbeddings
