import StaticEmbeddings.Runtime.Cancellation
import StaticEmbeddings.Runtime.Pooling
import StaticEmbeddings.Tokenizer.Law

/-!
# The windows of a text

`embed_texts_internal` embeds leading slices of a text; a slice can fail where the text does not.

* `seTokenize_cut_error`, `seTokenize_cut_truncated`: a run over a slice that ends at a cut.
* `Tried`: the targets that the loop comes to; `KeptWindows`: where its slices end;
  `EmptyFirstWindow`: the first one alone is empty.
* `unusable_firstWindow`: no other one can be.
* `embedWindowed_status`: the status of the loop.
* **`window_errors`**: which texts raise as they do when they are embedded whole;
  `window_errors_spaces`: not all.
-/

namespace StaticEmbeddings

open LittleEndian

section

variable {m : SeModel} {maxTokens : ℕ} {limitMode : SeTokenLimit} {a b : Bytes}

theorem seTokenize_eq (hm : ModelOk m) (input : Bytes) :
    seTokenize m input maxTokens limitMode neverCancelled =
      tokenResult (runItems ⟨m, maxTokens, limitMode, neverCancelled, wordpiece m⟩ (items m input)) :=
  seTokenizeWith_eq hm.fields.cleanText rfl input

theorem seTokenize_cut_error (hm : ModelOk m) (hc : ItemsCut m a b) {e : SeError}
    (ht : (seTokenize m a maxTokens limitMode neverCancelled).1.truncated = false)
    (h : (seTokenize m a maxTokens limitMode neverCancelled).2 = .error e) :
    (seTokenize m (a ++ b) maxTokens limitMode neverCancelled).2 = .error e := by
  rw [seTokenize_eq hm] at h ht ⊢
  rw [hc]
  generalize hp : (⟨m, maxTokens, limitMode, neverCancelled, wordpiece m⟩ : TokenParams) = p at *
  have hw : p.wordpiece = wordpiece m := by rw [← hp]
  cases hr : runItemList p {} (items m a).1 with
  | error e' =>
    have hruns : ∀ its : List Item × Bool, runItemList p {} its.1 = .error e' →
        runItems p its = .error e' := fun its hits => by
      rw [runItems, hits]
      rfl
    rw [hruns _ hr] at h
    split_ifs
    · rw [hruns _ (by rw [runItemList_append, hr]; rfl)]
      exact h
    · rw [hruns _ hr]
      exact h
  | ok o =>
    by_cases hok : (items m a).2 = true
    · -- the run over the slice ends well, so that there are not too many ids
      have hruns : runItems p (items m a) = .ok o := runItems_eq_ok_iff.mpr ⟨hr, .inr hok⟩
      rw [hruns, tokenResult] at h ht
      by_cases hbig : o.ids.length > uint32Max ∨ o.nUnk > uint32Max
      · rw [if_pos hbig] at ht
        obtain ⟨hn, hl⟩ := runItemList_small hm hw hr ht
        omega
      · rw [if_neg hbig] at h
        cases h
    · rw [if_neg hok]
      exact h

theorem seTokenize_cut_truncated (hm : ModelOk m) (hc : ItemsCut m a b)
    (ht : (seTokenize m a maxTokens limitMode neverCancelled).1.truncated = true) :
    seTokenize m (a ++ b) maxTokens limitMode neverCancelled =
      seTokenize m a maxTokens limitMode neverCancelled := by
  rw [seTokenize_eq hm] at ht ⊢
  rw [seTokenize_eq hm, hc]
  split_ifs with hok
  swap
  · rfl
  refine congrArg tokenResult ?_
  cases hr : runItems ⟨m, maxTokens, limitMode, neverCancelled, wordpiece m⟩ (items m a) with
  | error e =>
    rw [hr] at ht
    cases ht
  | ok o =>
    rw [hr, tokenResult] at ht
    have htr : o.truncated = true := by
      split_ifs at ht <;> exact ht
    have hl := (runItems_eq_ok_iff.mp hr).1
    refine runItems_eq_ok_iff.mpr ⟨?_, .inl htr⟩
    rw [runItemList_append, hl]
    exact runItemList_of_truncated htr _

end

/-! ## The loop -/

section

variable {Acc Vec : Type} (K : Kernel Acc Vec) (m : SeModel) (maxTokens : ℕ) (text : Bytes)

/-- The length of the slice for a target. -/
def windowLen (target : ℕ) : ℕ :=
  (resolveCopyLen (BatchEnv.ofModel K m maxTokens) maxTokens text target).1

/-- The run of the tokenizer over a slice. -/
def sliceRun (slice : Bytes) : SeTokenStats × Except SeError (List ℕ) :=
  seTokenize m slice maxTokens (seEmbedLimitMode m) neverCancelled

/-- A slice that is not well-formed, below the cap. -/
def Malformed (slice : Bytes) : Prop :=
  ∃ e, (sliceRun m maxTokens slice).2 = .error e ∧ e.status = .errInvalidUtf8

/-- A slice without a usable id. -/
def Unusable (slice : Bytes) : Prop :=
  ∃ stats ids, sliceRun m maxTokens slice = (stats, .ok ids) ∧ pooledIds m ids = []

/-- A slice behind which the loop goes on: its row is below the cap, or it is malformed. -/
def Discarded (slice : Bytes) : Prop :=
  (∃ stats v, seEmbedOne K m neverCancelled slice maxTokens = (stats, .ok v) ∧
      stats.truncated = false) ∨
    ∃ e, (seEmbedOne K m neverCancelled slice maxTokens).2 = .error e ∧ e.status = .errInvalidUtf8

/-- The leading slice for a target. -/
def window (target : ℕ) : Bytes := text.take (windowLen K m maxTokens text target)

/-- The first slice that is embedded. -/
def firstWindow : Bytes := window K m maxTokens text (prefixInitialTarget maxTokens)

/-- The targets that the loop comes to. It ends with a slice that is the whole text or is not
discarded. -/
inductive Tried : ℕ → Prop
  | initial : Tried (prefixInitialTarget maxTokens)
  | grow {target : ℕ} : Tried target → windowLen K m maxTokens text target < text.length →
      Discarded K m maxTokens (window K m maxTokens text target) →
      Tried (growTarget
        (resolveCopyLen (BatchEnv.ofModel K m maxTokens) maxTokens text target).2 text.length)

/-- Every slice that the loop comes to, and that is not malformed, ends at a separator that the
tokenizer keeps. -/
def KeptWindows : Prop := ∀ target, Tried K m maxTokens text target →
  windowLen K m maxTokens text target < text.length →
    ¬ Malformed m maxTokens (window K m maxTokens text target) →
      ∃ c lead after, BoundaryAt m text (windowLen K m maxTokens text target) c lead after ∧
        ¬ DroppedSeparator m c

/-- Under the policy that raises for an empty text: the first slice has no usable id, while the text
has one or is malformed. -/
def EmptyFirstWindow : Prop :=
  m.emptyPolicy = emptyRaise ∧ Unusable m maxTokens (firstWindow K m maxTokens text) ∧
    ¬ Unusable m maxTokens text

/-- The loop raises for a text with a status if and only if a single call of `se_embed_one` over the
whole text fails with it. -/
def WindowTransparent : Prop := ∀ status,
  (∃ e, Returns (BatchEnv.ofModel K m maxTokens) maxTokens (fun _ => .quiet)
      (fun _ => textAt [text]) 1 (.error (.native 0 e)) ∧ e.status = status) ↔
    ∃ e, (seEmbedOne K m neverCancelled text maxTokens).2 = .error e ∧ e.status = status

end

/-! ## The status of a slice -/

section

variable {Acc Vec : Type} {K : Kernel Acc Vec} {m : SeModel} {maxTokens target : ℕ} {text : Bytes}

/-- The status with which a call fails. -/
def errorStatus {α : Type} : Except SeError α → Option SeStatus
  | .ok _ => none
  | .error e => some e.status

/-- The tokenizer never reports an empty input, and a malformed one only below the cap. -/
theorem sliceRun_status (hm : ModelOk m) {slice : Bytes} {e : SeError}
    (h : (sliceRun m maxTokens slice).2 = .error e) : e.status ≠ .errEmptyInput ∧
      (e.status = .errInvalidUtf8 → (sliceRun m maxTokens slice).1.truncated = false) := by
  rw [sliceRun, seTokenize_eq hm] at h ⊢
  cases hr : runItems ⟨m, maxTokens, seEmbedLimitMode m, neverCancelled, wordpiece m⟩
    (items m slice) with
  | error e' =>
    rw [hr] at h
    cases h
    refine ⟨fun he => ?_, fun _ => rfl⟩
    unfold runItems at hr
    cases hl : runItemList ⟨m, maxTokens, seEmbedLimitMode m, neverCancelled, wordpiece m⟩ {}
      (items m slice).1 with
    | error e'' =>
      rw [hl] at hr
      cases hr
      rcases runItemList_status hl with hs | hs <;> cases he.symm.trans hs
    | ok o =>
      rw [hl] at hr
      dsimp only [bind, Except.bind] at hr
      split_ifs at hr
      · cases hr
      · rw [← Except.error.inj hr] at he
        exact SeStatus.noConfusion he
  | ok o =>
    rw [hr, tokenResult] at h
    split_ifs at h
    cases h
    exact ⟨fun he => SeStatus.noConfusion he, fun he => SeStatus.noConfusion he⟩

theorem seEmbedOne_of_error {slice : Bytes} {e : SeError}
    (h : (sliceRun m maxTokens slice).2 = .error e) :
    (seEmbedOne K m neverCancelled slice maxTokens).2 = .error e := by
  unfold sliceRun at h
  rw [seEmbedOne]
  rcases hr : seTokenize m slice maxTokens (seEmbedLimitMode m) neverCancelled with ⟨stats, e' | ids⟩
  · rw [hr] at h
    exact congrArg Except.error (Except.error.inj h)
  · rw [hr] at h
    cases h

theorem seEmbedOne_of_ok {slice : Bytes} {stats : SeTokenStats} {ids : List ℕ}
    (h : sliceRun m maxTokens slice = (stats, .ok ids)) :
    seEmbedOne K m neverCancelled slice maxTokens =
      (stats, embedIdsCore K m neverCancelled ids) := by
  rw [seEmbedOne, show seTokenize m slice maxTokens (seEmbedLimitMode m) neverCancelled =
    (stats, .ok ids) from h]

theorem Unusable.seEmbedOne (hm : ModelOk m) {slice : Bytes} (h : Unusable m maxTokens slice)
    (hraise : m.emptyPolicy = emptyRaise) : (seEmbedOne K m neverCancelled slice maxTokens).2 =
      .error ⟨.errEmptyInput, "input produced no usable tokens"⟩ := by
  obtain ⟨stats, ids, hr, hp⟩ := h
  rw [seEmbedOne_of_ok hr]
  exact (embedIdsCore_eq hm (seTokenize_lt hm hr)).trans (by rw [if_pos hp, if_pos hraise])

theorem exists_pooled (hm : ModelOk m) {slice : Bytes} {stats : SeTokenStats} {ids : List ℕ}
    (h : sliceRun m maxTokens slice = (stats, .ok ids))
    (hp : ¬ (pooledIds m ids = [] ∧ m.emptyPolicy = emptyRaise)) :
    ∃ v, embedIdsCore K m neverCancelled ids = .ok v := by
  rw [embedIdsCore_eq hm (seTokenize_lt hm h)]
  by_cases hn : pooledIds m ids = []
  · rw [if_pos hn, if_neg fun hr => hp ⟨hn, hr⟩]
    exact ⟨_, rfl⟩
  · rw [if_neg hn]
    exact ⟨_, rfl⟩

theorem unusable_of_seEmbedOne (hm : ModelOk m) {slice : Bytes} {e : SeError}
    (h : (seEmbedOne K m neverCancelled slice maxTokens).2 = .error e)
    (he : e.status = .errEmptyInput) : Unusable m maxTokens slice := by
  rcases hr : sliceRun m maxTokens slice with ⟨stats, e' | ids⟩
  · have hone := @seEmbedOne_of_error Acc Vec K m maxTokens slice e' (congrArg Prod.snd hr)
    cases hone.symm.trans h
    exact absurd he (sliceRun_status hm (congrArg Prod.snd hr)).1
  · rw [seEmbedOne_of_ok hr] at h
    refine ⟨stats, ids, hr, ?_⟩
    by_contra hp
    obtain ⟨v, hv⟩ := @exists_pooled Acc Vec K m maxTokens hm slice stats ids hr fun hn => hp hn.1
    cases hv.symm.trans h

theorem seEmbedOne_stats (slice : Bytes) :
    (seEmbedOne K m neverCancelled slice maxTokens).1 = (sliceRun m maxTokens slice).1 := by
  unfold sliceRun seEmbedOne
  rcases seTokenize m slice maxTokens (seEmbedLimitMode m) neverCancelled with ⟨stats, e | ids⟩ <;> rfl

theorem malformed_of_seEmbedOne (hm : ModelOk m) {slice : Bytes} {e : SeError}
    (h : (seEmbedOne K m neverCancelled slice maxTokens).2 = .error e)
    (he : e.status = .errInvalidUtf8) : Malformed m maxTokens slice := by
  rcases hr : sliceRun m maxTokens slice with ⟨stats, e' | ids⟩
  · have hone := @seEmbedOne_of_error Acc Vec K m maxTokens slice e' (congrArg Prod.snd hr)
    cases hone.symm.trans h
    exact ⟨e, congrArg Prod.snd hr, he⟩
  · by_cases hp : pooledIds m ids = [] ∧ m.emptyPolicy = emptyRaise
    · have hempty := @Unusable.seEmbedOne Acc Vec K m maxTokens hm slice ⟨stats, ids, hr, hp.1⟩ hp.2
      cases hempty.symm.trans h
      cases he
    · obtain ⟨v, hv⟩ := @exists_pooled Acc Vec K m maxTokens hm slice stats ids hr hp
      rw [seEmbedOne_of_ok hr] at h
      cases hv.symm.trans h

theorem Malformed.append (hm : ModelOk m) {a b : Bytes} (h : Malformed m maxTokens a)
    (hl : LiteralCut m a b) (hd : Utf8.Cut a b) :
    sliceRun m maxTokens (a ++ b) = sliceRun m maxTokens a := by
  obtain ⟨e, he, hst⟩ := h
  unfold sliceRun at he ⊢
  rw [seTokenize_eq hm] at he
  rw [seTokenize_eq hm, seTokenize_eq hm]
  cases hok : (feeds m a).2 with
  | false => rw [items_append_of_malformed hl hd hok]
  | true =>
    -- a well-formed slice fails for another reason
    rw [← items_snd] at hok
    cases hr : runItemList ⟨m, maxTokens, seEmbedLimitMode m, neverCancelled, wordpiece m⟩ {}
        (items m a).1 with
    | error e' =>
      rw [runItems, hr] at he
      cases he
      rcases runItemList_status hr with hs | hs <;> cases hs.symm.trans hst
    | ok o =>
      rw [runItems_eq_ok_iff.mpr ⟨hr, .inr hok⟩, tokenResult] at he
      split_ifs at he
      cases he
      cases hst

theorem isPrefix_sliceRun (hm : ModelOk m) {a b : Bytes} (hc : ItemsCut m a b)
    {stats stats' : SeTokenStats} {ids ids' : List ℕ}
    (ha : sliceRun m maxTokens a = (stats, .ok ids)) (hat : stats.truncated = false)
    (h : sliceRun m maxTokens (a ++ b) = (stats', .ok ids')) (ht : stats'.truncated = false) :
    ids <+: ids' := by
  unfold sliceRun at ha h
  rw [seTokenize_eq hm, tokenResult_eq_ok_iff] at ha h
  obtain ⟨o, ho, -, -, rfl, rfl⟩ := ha
  obtain ⟨o', ho', -, -, rfl, rfl⟩ := h
  obtain ⟨hr, hok⟩ := runItems_eq_ok_iff.mp ho
  obtain ⟨hr', -⟩ := runItems_eq_ok_iff.mp ho'
  have hwell : (items m a).2 = true := hok.resolve_left fun h => Bool.false_ne_true (hat.symm.trans h)
  rw [hc, if_pos hwell, runItemList_append, hr] at hr'
  exact isPrefix_runItemList hm rfl hr' ht

/-! ## The windows of a text -/

/-- A proper slice ends at a boundary that the scan has found. -/
theorem exists_boundaryAt (hlt : windowLen K m maxTokens text target < text.length) :
    0 < windowLen K m maxTokens text target ∧ windowLen K m maxTokens text target ≤
        (resolveCopyLen (BatchEnv.ofModel K m maxTokens) maxTokens text target).2 ∧
      ∃ c lead after, BoundaryAt m text (windowLen K m maxTokens text target) c lead after := by
  have htarget := resolveCopyLen_target_lt hlt
  obtain ⟨-, hne, hb⟩ := resolveCopyLen_spec.boundary htarget
  have hpos := Nat.pos_of_ne_zero hne
  rw [prefixBoundaryLen, if_neg (not_le.2 htarget), BatchEnv.boundary_ofModel] at hb
  unfold windowLen at hlt ⊢
  rw [← hb] at hlt hpos ⊢
  exact ⟨hpos, sePrefixBoundaryLen_spec hpos hlt⟩

theorem windowLen_le {target' : ℕ} (hlt : windowLen K m maxTokens text target < text.length)
    (htarget : (resolveCopyLen (BatchEnv.ofModel K m maxTokens) maxTokens text target).2 < target') :
    windowLen K m maxTokens text target ≤ windowLen K m maxTokens text target' := by
  obtain ⟨-, hle, c, lead, after, hat⟩ := exists_boundaryAt hlt
  have hs := @resolveCopyLen_spec _ (BatchEnv.ofModel K m maxTokens) maxTokens text target'
  have hold := resolveCopyLen_target_lt hlt
  have hmin := hs.le_target
  rcases hs.target_le.lt_or_eq with hin | hwhole
  · obtain ⟨-, hne, hb⟩ := hs.boundary hin
    rw [prefixBoundaryLen, if_neg (not_le.2 hin), BatchEnv.boundary_ofModel] at hb
    rw [← hb] at hne
    have hlead : lead < (resolveCopyLen (BatchEnv.ofModel K m maxTokens) maxTokens text target').2 := by
      have := decodeOne_lt hat.decode
      have := hat.place
      omega
    have hge := hat.le_sePrefixBoundaryLen hlead (by omega) hlt.le hne
    rw [hb] at hge
    exact hge
  · exact hlt.le.trans (hs.whole hwhole).ge

/-- Behind the first slice the loop comes to larger targets only. -/
theorem Tried.initial_or (ht : Tried K m maxTokens text target) :
    target = prefixInitialTarget maxTokens ∨
      windowLen K m maxTokens text (prefixInitialTarget maxTokens) < text.length ∧
        Discarded K m maxTokens (firstWindow K m maxTokens text) ∧
        (resolveCopyLen (BatchEnv.ofModel K m maxTokens) maxTokens text
          (prefixInitialTarget maxTokens)).2 < target := by
  induction ht with
  | initial => exact .inl rfl
  | @grow target _ hlt hd ih =>
    have hgrow := lt_growTarget (resolveCopyLen_target_lt hlt)
    rcases ih with rfl | ⟨hfirst, hdiscard, htarget⟩
    · exact .inr ⟨hlt, hd, hgrow⟩
    · refine .inr ⟨hfirst, hdiscard, ?_⟩
      have hle := (@resolveCopyLen_spec _ (BatchEnv.ofModel K m maxTokens) maxTokens text
        target).le_target
      have hin := resolveCopyLen_target_lt hfirst
      omega

/-- **Only the first slice can be the empty one**: what is discarded has a usable id, and a longer
slice begins with it. -/
theorem unusable_firstWindow (hm : ModelOk m) (hk : KeptWindows K m maxTokens text)
    (ht : Tried K m maxTokens text target)
    (hlt : windowLen K m maxTokens text target < text.length)
    (hun : Unusable m maxTokens (window K m maxTokens text target))
    (htrunc : (sliceRun m maxTokens (window K m maxTokens text target)).1.truncated = false) :
    Unusable m maxTokens (firstWindow K m maxTokens text) := by
  obtain rfl | ⟨hfirst, hdiscard, htarget⟩ := ht.initial_or
  · exact hun
  obtain ⟨h₀, -, c, lead, after, hat⟩ := exists_boundaryAt hfirst
  obtain ⟨-, -, c', lead', after', hat'⟩ := exists_boundaryAt hlt
  rcases (windowLen_le hfirst htarget).eq_or_lt with heq | hless
  · rw [firstWindow, window, heq]
    exact hun
  -- the first slice is cut off the longer one
  have hlen : (window K m maxTokens text target).length = windowLen K m maxTokens text target :=
    List.length_take_of_le hlt.le
  have hinner : ∀ {c lead after : ℕ},
      BoundaryAt m text (windowLen K m maxTokens text (prefixInitialTarget maxTokens)) c lead after →
      BoundaryAt m (window K m maxTokens text target)
        (windowLen K m maxTokens text (prefixInitialTarget maxTokens)) c lead after :=
    fun h => h.take hless (h.after_le hat' hless) hlt.le
  have htake : (window K m maxTokens text target).take
      (windowLen K m maxTokens text (prefixInitialTarget maxTokens)) =
        firstWindow K m maxTokens text := by
    rw [window, List.take_take, min_eq_left hless.le]
    rfl
  have hpart := List.take_append_drop
    (windowLen K m maxTokens text (prefixInitialTarget maxTokens))
    (window K m maxTokens text target)
  rw [htake] at hpart
  obtain ⟨stats, ids, hr, hp⟩ := hun
  rw [hr] at htrunc
  have hgood : ¬ Malformed m maxTokens (firstWindow K m maxTokens text) := by
    intro hbad
    obtain ⟨hl, hd⟩ := (hinner hat).cut h₀ (hlen.symm ▸ hless)
    rw [htake] at hl hd
    have hsame := hbad.append hm hl hd
    obtain ⟨e, he, -⟩ := hbad
    rw [hpart, hr] at hsame
    rw [← hsame] at he
    cases he
  rcases hdiscard with ⟨stats₀, v, hone, htrunc₀⟩ | ⟨e, he, hst⟩
  · rcases hr₀ : sliceRun m maxTokens (firstWindow K m maxTokens text) with ⟨stats₁, e | ids₀⟩
    · have hfail := @seEmbedOne_of_error Acc Vec K m maxTokens _ e (congrArg Prod.snd hr₀)
      rw [hone] at hfail
      cases hfail
    have hstats : stats₀ = stats₁ := by
      have hone' := @seEmbedOne_stats Acc Vec K m maxTokens (firstWindow K m maxTokens text)
      rw [hr₀] at hone'
      exact (congrArg Prod.fst hone).symm.trans hone'
    obtain ⟨c₀, lead₀, after₀, hat₀, hkept⟩ := hk _ .initial hfirst hgood
    have hcut := itemsCut_of_boundaryAt hm.fields.cleanText (hinner hat₀) hkept h₀
      (hlen.symm ▸ hless)
    rw [htake] at hcut
    have hpre := isPrefix_sliceRun hm hcut hr₀ (hstats ▸ htrunc₀) (hpart.symm ▸ hr) htrunc
    refine ⟨stats₁, ids₀, hr₀, List.prefix_nil.mp ?_⟩
    rw [← hp]
    exact hpre.filter _
  · exact absurd (malformed_of_seEmbedOne hm he hst) hgood

/-! ## The status of the loop -/

theorem itemsCut_window (hm : ModelOk m) (hk : KeptWindows K m maxTokens text)
    (ht : Tried K m maxTokens text target) (hlt : windowLen K m maxTokens text target < text.length)
    (hgood : ¬ Malformed m maxTokens (window K m maxTokens text target)) :
    ItemsCut m (window K m maxTokens text target)
      (text.drop (windowLen K m maxTokens text target)) := by
  obtain ⟨c, lead, after, hat, hkept⟩ := hk target ht hlt hgood
  exact itemsCut_of_boundaryAt hm.fields.cleanText hat hkept (exists_boundaryAt hlt).1 hlt

theorem embedWindowed_whole (hlt : ¬ windowLen K m maxTokens text target < text.length) :
    errorStatus (embedWindowed (BatchEnv.ofModel K m maxTokens) maxTokens text target) =
      errorStatus (seEmbedOne K m neverCancelled text maxTokens).2 := by
  rw [embedWindowed, dif_neg (show ¬ (resolveCopyLen _ _ _ _).1 < _ from hlt)]
  have hone : (BatchEnv.ofModel K m maxTokens).embedOne neverCancelled text =
      seEmbedOne K m neverCancelled text maxTokens := rfl
  rw [hone]
  rcases seEmbedOne K m neverCancelled text maxTokens with ⟨stats, e | v⟩ <;> rfl

theorem embedWindowed_discarded (hlt : windowLen K m maxTokens text target < text.length)
    (hd : Discarded K m maxTokens (window K m maxTokens text target)) :
    embedWindowed (BatchEnv.ofModel K m maxTokens) maxTokens text target =
      embedWindowed (BatchEnv.ofModel K m maxTokens) maxTokens text
        (growTarget (resolveCopyLen (BatchEnv.ofModel K m maxTokens) maxTokens text target).2
          text.length) := by
  rcases hd with ⟨stats, v, hone, htrunc⟩ | ⟨e, he, hst⟩
  · have hmax : maxTokens ≠ 0 := by
      rintro rfl
      exact hlt.ne resolveCopyLen_unlimited
    exact @embedWindowed_again _ (BatchEnv.ofModel K m maxTokens) maxTokens text target stats v hone
      hmax hlt htrunc
  · exact embedWindowed_retry he hst hlt

/-- A slice that is not discarded has the last word. -/
theorem embedWindowed_last (hd : ¬ Discarded K m maxTokens (window K m maxTokens text target)) :
    errorStatus (embedWindowed (BatchEnv.ofModel K m maxTokens) maxTokens text target) =
      errorStatus (seEmbedOne K m neverCancelled (window K m maxTokens text target) maxTokens).2 := by
  rcases hone : seEmbedOne K m neverCancelled (window K m maxTokens text target) maxTokens with
    ⟨stats, e | v⟩
  · have hfail := @embedWindowed_fail _ (BatchEnv.ofModel K m maxTokens) maxTokens text target e
      (congrArg Prod.snd hone) fun hst => absurd (.inr ⟨e, congrArg Prod.snd hone, hst⟩) hd
    rw [hfail]
    rfl
  · have haccept := @embedWindowed_accept _ (BatchEnv.ofModel K m maxTokens) maxTokens text target
      stats v hone fun h => hd (.inl ⟨stats, v, hone, h.2.2⟩)
    rw [haccept]
    rfl

theorem errorStatus_window (hm : ModelOk m) (hk : KeptWindows K m maxTokens text)
    (he : ¬ EmptyFirstWindow K m maxTokens text) (ht : Tried K m maxTokens text target)
    (hlt : windowLen K m maxTokens text target < text.length)
    (hd : ¬ Discarded K m maxTokens (window K m maxTokens text target)) :
    errorStatus (seEmbedOne K m neverCancelled (window K m maxTokens text target) maxTokens).2 =
      errorStatus (seEmbedOne K m neverCancelled text maxTokens).2 := by
  have hgood : ¬ Malformed m maxTokens (window K m maxTokens text target) :=
    fun ⟨e, hr, hst⟩ => hd (.inr ⟨e, seEmbedOne_of_error hr, hst⟩)
  have hcut := itemsCut_window hm hk ht hlt hgood
  have hpart : window K m maxTokens text target ++
      text.drop (windowLen K m maxTokens text target) = text := List.take_append_drop _ _
  cases htrunc : (sliceRun m maxTokens (window K m maxTokens text target)).1.truncated with
  | true =>
    -- the text ends where the slice does
    have hsame : seTokenize m text maxTokens (seEmbedLimitMode m) neverCancelled =
        sliceRun m maxTokens (window K m maxTokens text target) := by
      conv_lhs => rw [← hpart]
      exact seTokenize_cut_truncated hm hcut htrunc
    unfold seEmbedOne
    rw [hsame]
    rfl
  | false =>
    rcases hr : sliceRun m maxTokens (window K m maxTokens text target) with ⟨stats, e | ids⟩
    · -- the text fails where the slice does
      have hwhole := seTokenize_cut_error hm hcut htrunc (congrArg Prod.snd hr)
      rw [hpart] at hwhole
      rw [seEmbedOne_of_error hwhole, seEmbedOne_of_error (congrArg Prod.snd hr)]
    · -- the slice is empty, then so is the first, then so is the text
      have hempty : pooledIds m ids = [] ∧ m.emptyPolicy = emptyRaise := by
        by_contra hp
        obtain ⟨v, hv⟩ := @exists_pooled Acc Vec K m maxTokens hm _ stats ids hr hp
        rw [hr] at htrunc
        exact hd (.inl ⟨stats, v, (seEmbedOne_of_ok hr).trans (congrArg _ hv), htrunc⟩)
      have hun : Unusable m maxTokens (window K m maxTokens text target) :=
        ⟨stats, ids, hr, hempty.1⟩
      have hfirst := unusable_firstWindow hm hk ht hlt hun htrunc
      have htext : Unusable m maxTokens text := not_not.1 fun hn => he ⟨hempty.2, hfirst, hn⟩
      rw [hun.seEmbedOne hm hempty.2, htext.seEmbedOne hm hempty.2]

/-- **The loop fails as the whole text does**, unless the first slice alone is empty. -/
theorem embedWindowed_status (hm : ModelOk m) (hk : KeptWindows K m maxTokens text)
    (he : ¬ EmptyFirstWindow K m maxTokens text) (ht : Tried K m maxTokens text target) :
    errorStatus (embedWindowed (BatchEnv.ofModel K m maxTokens) maxTokens text target) =
      errorStatus (seEmbedOne K m neverCancelled text maxTokens).2 := by
  induction hn : text.length - target using Nat.strong_induction_on generalizing target with
  | _ n ih =>
    by_cases hlt : windowLen K m maxTokens text target < text.length
    swap
    · exact embedWindowed_whole hlt
    by_cases hd : Discarded K m maxTokens (window K m maxTokens text target)
    · -- the next slice
      have hin := resolveCopyLen_target_lt hlt
      have hgrow := lt_growTarget hin
      have hle := (@resolveCopyLen_spec _ (BatchEnv.ofModel K m maxTokens) maxTokens text
        target).le_target
      rw [embedWindowed_discarded hlt hd]
      exact ih _ (by omega) (.grow ht hlt hd) rfl
    · rw [embedWindowed_last hd]
      exact errorStatus_window hm hk he ht hlt hd

/-- The call raises as the loop over its text does. -/
theorem windowTransparent_iff : WindowTransparent K m maxTokens text ↔
    errorStatus (embedWindowed (BatchEnv.ofModel K m maxTokens) maxTokens text
      (prefixInitialTarget maxTokens)) =
        errorStatus (seEmbedOne K m neverCancelled text maxTokens).2 := by
  have hstatus : ∀ {α : Type} (r : Except SeError α) status,
      (∃ e, r = .error e ∧ e.status = status) ↔ errorStatus r = some status := by
    intro α r status
    cases r with
    | ok a => simp [errorStatus]
    | error e => simp [errorStatus]
  have hcall : ∀ status, (∃ e, Returns (BatchEnv.ofModel K m maxTokens) maxTokens (fun _ => .quiet)
      (fun _ => textAt [text]) 1 (.error (.native 0 e)) ∧ e.status = status) ↔
        errorStatus (embedWindowed (BatchEnv.ofModel K m maxTokens) maxTokens text
          (prefixInitialTarget maxTokens)) = some status := by
    intro status
    rw [← hstatus]
    refine exists_congr fun e => and_congr_left fun _ => ?_
    rcases embedTexts_windowed (BatchEnv.ofModel K m maxTokens) maxTokens (textAt [text]) 1 with
      ⟨run, hrun, hdone⟩ | ⟨original, hlt, e', hret, he'⟩
    · obtain ⟨v, -, hv⟩ := hdone 0 Nat.one_pos
      refine iff_of_false (fun h => ?_) (fun h => ?_)
      · cases h.unique hrun
      · cases h.symm.trans hv
    · obtain rfl : original = 0 := by omega
      constructor
      · intro h
        cases h.unique hret
        exact he'
      · intro h
        cases he'.symm.trans h
        exact hret
  unfold WindowTransparent
  simp only [hcall, hstatus]
  constructor
  · intro h
    exact Option.ext h
  · intro h status
    rw [h]

/-- A text that the loop reports as empty, and that is not. -/
theorem not_transparent_of_emptyFirstWindow (hm : ModelOk m)
    (h : EmptyFirstWindow K m maxTokens text) : ¬ WindowTransparent K m maxTokens text := by
  obtain ⟨hraise, hfirst, htext⟩ := h
  have hempty := @Unusable.seEmbedOne Acc Vec K m maxTokens hm _ hfirst hraise
  rw [windowTransparent_iff, embedWindowed_last]
  · intro hsame
    change errorStatus (seEmbedOne K m neverCancelled (firstWindow K m maxTokens text) maxTokens).2 =
      _ at hsame
    rw [hempty] at hsame
    rcases hr : (seEmbedOne K m neverCancelled text maxTokens).2 with e | v
    · rw [hr] at hsame
      exact htext (unusable_of_seEmbedOne hm hr (Option.some.inj hsame.symm))
    · rw [hr] at hsame
      cases hsame
  · rintro (⟨stats, v, hone, -⟩ | ⟨e, he, hst⟩)
    · cases hempty.symm.trans (congrArg Prod.snd hone)
    · cases hempty.symm.trans he
      cases hst

end

/-- **Which texts raise as they do when they are embedded whole.** Not those whose first slice alone
is empty; all others whose slices end at separators that the tokenizer keeps. -/
theorem window_errors {Acc Vec : Type} {file : Bytes} {m : SeModel} (h : validate file = .ok m)
    (K : Kernel Acc Vec) (maxTokens : ℕ) (text : Bytes) :
    (WindowTransparent K m maxTokens text → ¬ EmptyFirstWindow K m maxTokens text) ∧
      (KeptWindows K m maxTokens text → ¬ EmptyFirstWindow K m maxTokens text →
        WindowTransparent K m maxTokens text) := by
  have hm := modelOk_of_validate h
  refine ⟨fun hsame hempty => not_transparent_of_emptyFirstWindow hm hempty hsame,
    fun hk hempty => ?_⟩
  rw [windowTransparent_iff]
  exact embedWindowed_status hm hk hempty .initial

/-! ## A text whose first slice is empty -/

section

variable {m : SeModel}

theorem items_spaces (hm : m.cleanText = 1) (n : ℕ) {cps : List ℕ}
    (h : ∀ d ∈ cps, Utf8.Scalar d ∧ d ≠ 0x5B) :
    items m (Utf8.encodeAll (List.replicate n 0x20 ++ cps)) = items m (Utf8.encodeAll cps) := by
  have hspace : cleanedCps m 0x20 = [0x20] := by
    rw [cleanedCps_ascii hm (by decide)]
    rfl
  induction n with
  | zero => rfl
  | succ n ih =>
    have hall : ∀ d ∈ List.replicate n 0x20 ++ cps, Utf8.Scalar d ∧ d ≠ 0x5B := by
      intro d hd
      rcases List.mem_append.1 hd with hd | hd
      · rw [List.eq_of_mem_replicate hd]
        exact ⟨.inl (by decide), by decide⟩
      · exact h d hd
    have hall' : ∀ d ∈ 0x20 :: (List.replicate n 0x20 ++ cps), Utf8.Scalar d ∧ d ≠ 0x5B :=
      List.forall_mem_cons.2 ⟨⟨.inl (by decide), by decide⟩, hall⟩
    rw [List.replicate_succ, List.cons_append, ← ih]
    unfold items
    rw [feeds_encodeAll hall', feeds_encodeAll hall, List.flatMap_cons, hspace]
    have hstep : ((segmenter m).step (segmenter m).init (.cp 0x20)).1 = [] := by
      have hw : isWhitespace m 0x20 = true := isWhitespace_ascii (by decide)
      simp [segmenter, hw]
    refine Prod.ext ?_ rfl
    exact (Transducer.out_cons resets_space rfl _).trans (by rw [hstep]; rfl)

theorem encodeAll_spaces (n : ℕ) :
    Utf8.encodeAll (List.replicate n 0x20) = List.replicate n (0x20 : UInt8) := by
  induction n with
  | zero => rfl
  | succ n ih =>
    rw [List.replicate_succ, List.replicate_succ, Utf8.encodeAll_cons, ih]
    rfl

/-- A text whose first slice ends at a blank and whose second slice is the whole text. -/
structure CutByBlank (text x z : Bytes) : Prop where
  eq : text = x ++ (Utf8.encode 0x20 ++ z)
  left : x.length = 4095
  nonempty : 0 < z.length
  short : z.length < 4096
  bracket : (0x5B : UInt8) ∉ text

section

variable {Acc Vec : Type} {K : Kernel Acc Vec} {text x z : Bytes}

theorem isSeparator_space : isSeparator m 0x20 = true := by
  have hw : isWhitespace m 0x20 = true := isWhitespace_ascii (by decide)
  simp [isSeparator, normalizationStable, hw]

theorem CutByBlank.length (h : CutByBlank text x z) : text.length = 4096 + z.length := by
  have hspace : (Utf8.encode 0x20).length = 1 := rfl
  rw [h.eq, List.length_append, List.length_append, h.left, hspace]
  omega

theorem CutByBlank.lt (h : CutByBlank text x z) : 4096 < text.length := by
  have hlen := h.length
  have hpos := h.nonempty
  omega

theorem CutByBlank.boundary (h : CutByBlank text x z) :
    sePrefixBoundaryLen m text 4096 sePrefixBackscanBytes = 4096 := by
  have hlen : x.length + (Utf8.encode 0x20).length = 4096 := by
    rw [h.left]
    rfl
  have hz : z ≠ [] := List.ne_nil_of_length_pos h.nonempty
  have hb := @sePrefixBoundaryLen_encode m 0x20 x z sePrefixBackscanBytes (.inl (by decide))
    isSeparator_space hz (by rw [hlen]; decide) (h.eq ▸ h.bracket)
  rwa [hlen, ← h.eq] at hb

theorem CutByBlank.resolve (h : CutByBlank text x z) :
    resolveCopyLen (BatchEnv.ofModel K m 2) 2 text 4096 = (4096, 4096) := by
  have hlen : prefixBoundaryLen (BatchEnv.ofModel K m 2) text 4096 = 4096 := by
    rw [prefixBoundaryLen, if_neg (not_le.2 h.lt), BatchEnv.boundary_ofModel, h.boundary]
  have hlt := h.lt
  rw [resolveCopyLen, if_neg (by omega), resolveLoop, hlen, if_pos (by decide)]

theorem CutByBlank.grow (h : CutByBlank text x z) : growTarget 4096 text.length = text.length := by
  have hlen := h.length
  have hshort := h.short
  exact if_pos (.inr (by omega))

theorem CutByBlank.windowLen_length : windowLen K m 2 text text.length = text.length := by
  rw [windowLen, resolveCopyLen, if_pos (.inr (.inr le_rfl))]

theorem CutByBlank.take (h : CutByBlank text x z) : text.take 4096 = x ++ Utf8.encode 0x20 := by
  rw [h.eq, ← List.append_assoc]
  exact List.take_left' (by rw [List.length_append, h.left]; rfl)

theorem CutByBlank.boundaryAt (h : CutByBlank text x z) : BoundaryAt m text 4096 0x20 4095 4096 where
  decode := decodeOne_eq_some_iff.2
    ⟨z, .inl (by decide), by rw [h.eq]; exact List.drop_left' h.left, rfl⟩
  separator := isSeparator_space
  place := .inl rfl
  whole := boundarySplitsAddedToken_of_notMem h.bracket 4096

theorem CutByBlank.tried (h : CutByBlank text x z) {target : ℕ} (ht : Tried K m 2 text target) :
    target = 4096 ∨ target = text.length := by
  induction ht with
  | initial => exact .inl rfl
  | @grow target _ hlt _ ih =>
    rcases ih with rfl | rfl
    · rw [h.resolve]
      exact .inr h.grow
    · exact absurd CutByBlank.windowLen_length hlt.ne

theorem CutByBlank.kept (h : CutByBlank text x z) : KeptWindows K m 2 text := by
  intro target ht hlt _
  rcases h.tried ht with rfl | rfl
  · have hw : windowLen K m 2 text 4096 = 4096 := congrArg Prod.fst h.resolve
    rw [hw]
    exact ⟨0x20, 4095, 4096, h.boundaryAt, fun hdropped => absurd hdropped.ge (by decide)⟩
  · exact absurd CutByBlank.windowLen_length hlt.ne

theorem CutByBlank.firstWindow (h : CutByBlank text x z) :
    firstWindow K m 2 text = text.take 4096 :=
  congrArg text.take (congrArg Prod.fst h.resolve)

end

/-- Blanks that fill the first slice, and a letter. -/
def blankText : Bytes := Utf8.encodeAll (List.replicate 4096 0x20 ++ [0x61])

theorem cutByBlank_blankText : CutByBlank blankText (List.replicate 4095 0x20) [0x61] where
  eq := by
    rw [blankText, Utf8.encodeAll_append, encodeAll_spaces, List.replicate_succ' (n := 4095),
      List.append_assoc]
    rfl
  left := List.length_replicate
  nonempty := Nat.one_pos
  short := by decide
  bracket := by
    refine bracket_notMem_encodeAll fun d hd => ?_
    rcases List.mem_append.1 hd with hd | hd
    · rw [List.eq_of_mem_replicate hd]
      exact ⟨.inl (by decide), by decide⟩
    · rw [List.mem_singleton.1 hd]
      exact ⟨.inl (by decide), by decide⟩

theorem unusable_blanks (hm : ModelOk m) : Unusable m 2 (blankText.take 4096) := by
  have htake : blankText.take 4096 = Utf8.encodeAll (List.replicate 4096 0x20 ++ []) := by
    rw [cutByBlank_blankText.take, List.append_nil, encodeAll_spaces,
      List.replicate_succ' (n := 4095)]
    rfl
  have hitems : items m (blankText.take 4096) = ([], true) := by
    rw [htake, items_spaces hm.fields.cleanText 4096 (by simp)]
    unfold items
    rw [Utf8.encodeAll_nil, feeds_nil]
    rfl
  refine ⟨{}, [], ?_, rfl⟩
  rw [sliceRun, seTokenize_eq hm, hitems]
  rfl

theorem sliceRun_spaces (hm : ModelOk m) {maxTokens : ℕ} (n : ℕ) {cps : List ℕ}
    (h : ∀ d ∈ cps, Utf8.Scalar d ∧ d ≠ 0x5B) :
    sliceRun m maxTokens (Utf8.encodeAll (List.replicate n 0x20 ++ cps)) =
      sliceRun m maxTokens (Utf8.encodeAll cps) := by
  unfold sliceRun
  rw [seTokenize_eq hm, seTokenize_eq hm, items_spaces hm.fields.cleanText n h]

/-- A text whose blanks and first word fill the first slice. -/
def wordsText (cps : List ℕ) : Bytes :=
  Utf8.encodeAll (List.replicate 4094 0x20 ++ 0x61 :: 0x20 :: cps)

section

variable {cps : List ℕ} (h : ∀ d ∈ cps, Utf8.Scalar d ∧ d ≠ 0x5B)
  (hne : 0 < (Utf8.encodeAll cps).length) (hshort : (Utf8.encodeAll cps).length < 4096)

include h hne hshort

theorem cutByBlank_wordsText :
    CutByBlank (wordsText cps) (List.replicate 4094 0x20 ++ [0x61]) (Utf8.encodeAll cps) where
  eq := by
    rw [wordsText, Utf8.encodeAll_append, encodeAll_spaces, List.append_assoc]
    rfl
  left := by rw [List.length_append, List.length_replicate]; rfl
  nonempty := hne
  short := hshort
  bracket := by
    refine bracket_notMem_encodeAll fun d hd => ?_
    rcases List.mem_append.1 hd with hd | hd
    · rw [List.eq_of_mem_replicate hd]
      exact ⟨.inl (by decide), by decide⟩
    · rw [List.mem_cons, List.mem_cons] at hd
      obtain rfl | rfl | hd := hd
      · exact ⟨.inl (by decide), by decide⟩
      · exact ⟨.inl (by decide), by decide⟩
      · exact h d hd

theorem take_wordsText : (wordsText cps).take 4096 =
    Utf8.encodeAll (List.replicate 4094 0x20 ++ [0x61, 0x20]) := by
  rw [(cutByBlank_wordsText h hne hshort).take, Utf8.encodeAll_append, encodeAll_spaces,
    List.append_assoc]
  rfl

end

theorem cutByBlank_twoWords : CutByBlank (wordsText [0x62])
    (List.replicate 4094 0x20 ++ [0x61]) (Utf8.encodeAll [0x62]) :=
  cutByBlank_wordsText (by simp [Utf8.Scalar]) (by decide) (by decide)

end

/-- Vectors of no floats. -/
def unitKernel : Kernel Unit Unit where
  zeroAcc := ()
  addRow _ _ := ()
  zeroVec := ()
  normalized _ := ()
  mean _ _ := ()

theorem emptyFirstWindow_blankText : EmptyFirstWindow unitKernel sampleModel 2 blankText := by
  obtain ⟨hraise, hids⟩ : sampleModel.emptyPolicy = emptyRaise ∧
      (sliceRun sampleModel 2 (Utf8.encodeAll [0x61])).2.map (pooledIds sampleModel) = .ok [1] := by
    decide +kernel
  have hm := modelOk_of_validate validate_sampleFile
  refine ⟨hraise, ?_, ?_⟩
  · rw [cutByBlank_blankText.firstWindow]
    exact unusable_blanks hm
  · rintro ⟨stats, ids, hr, hp⟩
    rw [blankText, sliceRun_spaces hm 4096 (by simp [Utf8.Scalar])] at hr
    rw [hr] at hids
    have hne : pooledIds sampleModel ids = [1] := Except.ok.inj hids
    rw [hp] at hne
    cases hne

/-- A text whose first slice ends between its two words. -/
theorem window_errors_sample : WindowTransparent unitKernel sampleModel 2 (wordsText [0x62]) := by
  have hm := modelOk_of_validate validate_sampleFile
  have hids : (sliceRun sampleModel 2 (Utf8.encodeAll [0x61, 0x20])).2.map
      (pooledIds sampleModel) = .ok [1] := by
    decide +kernel
  refine (window_errors validate_sampleFile unitKernel 2 _).2 cutByBlank_twoWords.kept ?_
  rintro ⟨-, ⟨stats, ids, hr, hp⟩, -⟩
  rw [cutByBlank_twoWords.firstWindow, take_wordsText (by simp [Utf8.Scalar]) (by decide) (by decide),
    sliceRun_spaces hm 4094 (by simp [Utf8.Scalar])] at hr
  rw [hr] at hids
  have hne : pooledIds sampleModel ids = [1] := Except.ok.inj hids
  rw [hp] at hne
  cases hne

/-- A text of blanks and one letter is reported as empty. -/
theorem window_errors_spaces : validate sampleFile = .ok sampleModel ∧
    ¬ WindowTransparent unitKernel sampleModel 2 blankText :=
  ⟨validate_sampleFile, not_transparent_of_emptyFirstWindow
    (modelOk_of_validate validate_sampleFile) emptyFirstWindow_blankText⟩

end StaticEmbeddings
