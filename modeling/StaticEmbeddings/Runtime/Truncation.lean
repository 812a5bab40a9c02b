import StaticEmbeddings.Lib.CountedPrefix
import StaticEmbeddings.Runtime.Pooling
import StaticEmbeddings.Tokenizer.UnkPieces
import StaticEmbeddings.Tokenizer.Unbounded

/-!
# The two caps

`cap_after_append` cuts the ids of a text while it is tokenized, `embed_token_ids` cuts a list of ids
that is there already.

* `limitedIds`, `keptIds`: the ids that count towards the limit, and those that are kept.
* `usableCut_eq`, `usableScan_eq`: the scans of the two caps; `idsCap_eq`.
* `runItemList_capped`: a run with a cap keeps of the ids of a run without one what is kept of a list.
* **`truncation_agrees`**.
-/

namespace StaticEmbeddings

open LittleEndian CountedPrefix PrefixTree

/-! ## What is kept -/

section

variable (m : SeModel)

/-- Only usable ids count. -/
abbrev CountsUsable : Prop := m.unkPolicy = unkDrop ∧ seEmbedLimitMode m = .usable

/-- Anything but `[UNK]`. -/
def isUsable (id : ℕ) : Bool := id ≠ m.unkId

/-- The ids that count towards the limit. -/
def limitedIds (ids : List ℕ) : List ℕ := if CountsUsable m then ids.filter (isUsable m) else ids

/-- More ids than the limit. -/
def OverLimit (maxTokens : ℕ) (ids : List ℕ) : Prop :=
  maxTokens ≠ 0 ∧ maxTokens < (limitedIds m ids).length

instance (maxTokens : ℕ) (ids : List ℕ) : Decidable (OverLimit m maxTokens ids) := by
  unfold OverLimit; infer_instance

/-- The ids up to the last one that counts. -/
def cutIds (maxTokens : ℕ) (ids : List ℕ) : List ℕ :=
  if CountsUsable m then upTo (isUsable m) maxTokens ids else ids.take maxTokens

/-- The ids that are kept. -/
def keptIds (maxTokens : ℕ) (ids : List ℕ) : List ℕ :=
  if OverLimit m maxTokens ids then cutIds m maxTokens ids else ids

variable {m} {maxTokens : ℕ} {ids : List ℕ}

theorem limitedIds_append (ids rest : List ℕ) :
    limitedIds m (ids ++ rest) = limitedIds m ids ++ limitedIds m rest := by
  unfold limitedIds
  split_ifs
  · exact List.filter_append ids rest
  · rfl

theorem OverLimit.append (h : OverLimit m maxTokens ids) (rest : List ℕ) :
    OverLimit m maxTokens (ids ++ rest) := by
  refine ⟨h.1, h.2.trans_le ?_⟩
  rw [limitedIds_append, List.length_append]
  exact Nat.le_add_right _ _

theorem cutIds_append (h : OverLimit m maxTokens ids) (rest : List ℕ) :
    cutIds m maxTokens (ids ++ rest) = cutIds m maxTokens ids := by
  have hlen := h.2
  unfold limitedIds at hlen
  unfold cutIds
  split_ifs at hlen ⊢
  · exact upTo_append hlen.le rest
  · exact List.take_append_of_le_length hlen.le

theorem isPrefix_cutIds (maxTokens : ℕ) (ids : List ℕ) : cutIds m maxTokens ids <+: ids := by
  unfold cutIds
  split_ifs
  · exact isPrefix_upTo maxTokens ids
  · exact List.take_prefix maxTokens ids

theorem isPrefix_keptIds (maxTokens : ℕ) (ids : List ℕ) : keptIds m maxTokens ids <+: ids := by
  unfold keptIds
  split_ifs
  · exact isPrefix_cutIds maxTokens ids
  · exact List.prefix_rfl

/-- **The ids that count are the first ones.** -/
theorem limitedIds_keptIds (h : maxTokens ≠ 0) (ids : List ℕ) :
    limitedIds m (keptIds m maxTokens ids) = (limitedIds m ids).take maxTokens := by
  unfold keptIds
  split_ifs with hover
  · unfold limitedIds cutIds
    split_ifs
    · exact filter_upTo maxTokens ids
    · rfl
  · have hle : (limitedIds m ids).length ≤ maxTokens := not_lt.mp fun hlt => hover ⟨h, hlt⟩
    rw [List.take_of_length_le hle]

theorem keptIds_zero (ids : List ℕ) : keptIds m 0 ids = ids := if_neg fun h => h.1 rfl

theorem length_filter_isUsable (ids : List ℕ) :
    (ids.filter (isUsable m)).length + ids.count m.unkId = ids.length := by
  have h := List.length_eq_length_filter_add (l := ids) (isUsable m)
  rw [h, List.count_eq_length_filter]
  congr 2
  refine List.filter_congr fun id _ => ?_
  rw [isUsable, decide_not, Bool.not_not]
  exact beq_eq_decide id m.unkId

/-! ## The scans -/

/-- **The scan of `cap_after_append`** ends behind the last usable id that is kept. -/
theorem usableCut_eq {k usable keptUnk : ℕ} (hlt : usable < maxTokens)
    (h : maxTokens - usable ≤ (ids.filter (isUsable m)).length) :
    usableCut m.unkId maxTokens k usable keptUnk ids =
      (k + (upTo (isUsable m) (maxTokens - usable) ids).length,
        keptUnk + (upTo (isUsable m) (maxTokens - usable) ids).count m.unkId) := by
  induction ids generalizing k usable keptUnk with
  | nil =>
    rw [List.filter_nil, List.length_nil] at h
    omega
  | cons id ids ih =>
    unfold usableCut
    by_cases hid : id = m.unkId
    · have hp : isUsable m id = false := by simp [isUsable, hid]
      rw [List.filter_cons_of_neg (by simp [hp])] at h
      rw [if_pos hid, ih hlt h, upTo_cons_of_neg hp (by omega), List.length_cons, hid,
        List.count_cons_self]
      exact Prod.ext (by dsimp only; omega) (by dsimp only; omega)
    · have hp : isUsable m id = true := by simpa [isUsable] using hid
      rw [List.filter_cons_of_pos hp, List.length_cons] at h
      obtain ⟨n, hn⟩ := Nat.exists_eq_succ_of_ne_zero (Nat.sub_pos_of_lt hlt).ne'
      have hcount : ∀ xs : List ℕ, (id :: xs).count m.unkId = xs.count m.unkId :=
        fun xs => List.count_cons_of_ne hid
      rw [if_neg hid, hn, Nat.succ_eq_add_one, upTo_cons_of_pos hp, List.length_cons, hcount]
      split_ifs with hlast
      · obtain rfl : n = 0 := by omega
        simp
      · have hn' : n = maxTokens - (usable + 1) := by omega
        rw [ih (by omega) (by omega), hn']
        exact Prod.ext (by dsimp only; omega) rfl

/-- **The scan of `embed_token_ids`** ends there too. -/
theorem usableScan_eq (hids : ∀ id ∈ ids, id < m.vocabSize) {n i usable cutoff : ℕ}
    (hle : usable ≤ maxTokens) (hcut : usable = maxTokens → cutoff ≤ i) :
    usableScan m maxTokens n i usable cutoff ids = .ok
      (if maxTokens - usable < (ids.filter (isUsable m)).length then
        if usable = maxTokens then (cutoff, true)
        else (i + (upTo (isUsable m) (maxTokens - usable) ids).length, true)
      else (n, false)) := by
  induction ids generalizing i usable cutoff with
  | nil => rfl
  | cons id ids ih =>
    rw [List.forall_mem_cons] at hids
    rw [usableScan, if_neg (not_le.mpr hids.1)]
    by_cases hid : id = m.unkId
    · have hp : isUsable m id = false := by simp [isUsable, hid]
      rw [if_pos hid, ih hids.2 hle fun h => (hcut h).trans (Nat.le_add_right i 1),
        List.filter_cons_of_neg (by simp [hp])]
      by_cases hfull : usable = maxTokens
      · rw [if_pos hfull, if_pos hfull]
      · rw [if_neg hfull, if_neg hfull, upTo_cons_of_neg hp (by omega), List.length_cons,
          Nat.add_assoc, Nat.add_comm 1]
    · have hp : isUsable m id = true := by simpa [isUsable] using hid
      rw [if_neg hid, List.filter_cons_of_pos hp, List.length_cons]
      by_cases hfull : usable = maxTokens
      · rw [if_neg (by omega), if_pos (by omega), if_pos (by omega), if_pos hfull]
      · obtain ⟨k, hk⟩ := Nat.exists_eq_succ_of_ne_zero (show maxTokens - usable ≠ 0 by omega)
        rw [hk, Nat.succ_eq_add_one, upTo_cons_of_pos hp, List.length_cons, if_neg hfull]
        by_cases hlast : usable + 1 = maxTokens
        · have hk0 : k = 0 := by omega
          rw [if_pos hlast, ih hids.2 (by omega) fun _ => le_rfl, if_pos hlast, hk0, upTo_zero,
            List.length_nil]
          refine congrArg Except.ok (if_congr ?_ rfl rfl)
          omega
        · have hk' : k = maxTokens - (usable + 1) := by omega
          rw [if_neg hlast, if_neg (by omega), ih hids.2 (by omega) (by omega), if_neg hlast, hk',
            Nat.add_assoc, Nat.add_comm 1]
          refine congrArg Except.ok (if_congr ?_ rfl rfl)
          omega

/-- **The cap of `embed_token_ids`.** -/
theorem idsCap_eq (hids : ∀ id ∈ ids, id < m.vocabSize) (maxTokens : ℕ) : ∃ n,
    idsCap m maxTokens ids = .ok (n, decide (OverLimit m maxTokens ids)) ∧
      ids.take n = keptIds m maxTokens ids := by
  unfold idsCap keptIds
  by_cases hzero : maxTokens = 0
  · have hover : ¬ OverLimit m maxTokens ids := fun h => h.1 hzero
    rw [if_neg (fun h => h.1 hzero), if_neg (fun h => h.1 hzero), if_neg hover, decide_eq_false hover]
    exact ⟨_, rfl, List.take_length⟩
  · by_cases hmode : CountsUsable m
    · have hlimited : limitedIds m ids = ids.filter (isUsable m) := if_pos hmode
      have hcut : cutIds m maxTokens ids = upTo (isUsable m) maxTokens ids := if_pos hmode
      have hscan := @usableScan_eq m maxTokens ids hids ids.length 0 0 ids.length (Nat.zero_le _)
        (fun h => absurd h.symm hzero)
      rw [if_pos ⟨hzero, hmode⟩, hscan, Nat.sub_zero, if_neg (Ne.symm hzero), Nat.zero_add]
      by_cases hover : maxTokens < (ids.filter (isUsable m)).length
      · have hlim : OverLimit m maxTokens ids := ⟨hzero, by rwa [hlimited]⟩
        rw [if_pos hover, if_pos hlim, decide_eq_true hlim, hcut]
        exact ⟨_, rfl, (List.prefix_iff_eq_take.mp (isPrefix_upTo _ _)).symm⟩
      · have hlim : ¬ OverLimit m maxTokens ids := fun h => hover (hlimited ▸ h.2)
        rw [if_neg hover, if_neg hlim, decide_eq_false hlim]
        exact ⟨_, rfl, List.take_length⟩
    · have hlimited : limitedIds m ids = ids := if_neg hmode
      have hcut : cutIds m maxTokens ids = ids.take maxTokens := if_neg hmode
      rw [if_neg fun h => hmode h.2]
      by_cases hover : maxTokens < ids.length
      · have hlim : OverLimit m maxTokens ids := ⟨hzero, by rwa [hlimited]⟩
        rw [if_pos ⟨hzero, hover⟩, if_pos hlim, decide_eq_true hlim, hcut]
        exact ⟨_, rfl, rfl⟩
      · have hlim : ¬ OverLimit m maxTokens ids := fun h => hover (hlimited ▸ h.2)
        rw [if_neg fun h => hover h.2, if_neg hlim, decide_eq_false hlim]
        exact ⟨_, rfl, List.take_length⟩

end

/-! ## The run -/

section

variable {m : SeModel} {maxTokens : ℕ} {o o' u u' : TokenIds} {its : List Item}

/-- The parameters of `se_embed_one`. -/
def capped (m : SeModel) (maxTokens : ℕ) : TokenParams :=
  ⟨m, maxTokens, seEmbedLimitMode m, neverCancelled, wordpiece m⟩

/-- The item has no piece `[UNK]`. -/
def UnkFree (m : SeModel) : Item → Prop
  | .word w => m.unkId ∉ (wordPieces m w (w.all (· < 0x80))).1
  | .direct _ => True

theorem unkFree_of_mem_items (hu : UnkApart m) {bs : Bytes} {it : Item} (h : it ∈ (items m bs).1) :
    UnkFree m it := by
  cases it with
  | word w =>
    refine unk_not_mem_wordPieces hu (shape_of_mem_items h) fun hall c hc => ?_
    exact of_decide_eq_true (List.all_eq_true.mp hall c hc)
  | direct id => trivial

theorem runItem_capped (o : TokenIds) (it : Item) : runItem (capped m maxTokens) o it =
    (runItem (unbounded m (seEmbedLimitMode m)) o it).map (capAfterAppend (capped m maxTokens)) := by
  have hfree : ∀ o, capAfterAppend (unbounded m (seEmbedLimitMode m)) o = o :=
    capAfterAppend_unbounded rfl
  cases it with
  | word w =>
    simp only [runItem, capped, unbounded]
    rcases wordpiece m w o.ids o.nUnk (w.all (· < 0x80)) with (_ | _) | ⟨ids, nUnk⟩
    · rfl
    · rfl
    · exact congrArg (fun o => Except.ok (capAfterAppend (capped m maxTokens) o)) (hfree _).symm
  | direct id =>
    simp only [runItem, capped, unbounded]
    rcases pushId o.ids id with _ | ids
    · rfl
    · exact congrArg (fun o => Except.ok (capAfterAppend (capped m maxTokens) o)) (hfree _).symm

/-- **One item without a cap**: ids are appended, and the `[UNK]`s among them counted. -/
theorem runItem_unbounded (hm : ModelOk m) {it : Item} (hfree : UnkFree m it)
    (h : runItem (unbounded m (seEmbedLimitMode m)) o it = .ok o') :
    ∃ x, o' = ⟨o.ids ++ x, o.nUnk + x.count m.unkId, o.truncated⟩ := by
  have hunk : ∀ {ids : List ℕ} {nUnk : ℕ}, pushUnk m o.ids o.nUnk = .ok (ids, nUnk) →
      ids = o.ids ++ [m.unkId] ∧ nUnk = o.nUnk + [m.unkId].count m.unkId := by
    intro ids nUnk hp
    rw [pushUnk, pushId_eq] at hp
    split_ifs at hp
    cases hp
    exact ⟨rfl, by rw [List.count_singleton_self]⟩
  cases it with
  | word w =>
    simp only [runItem, unbounded, wordpiece_eq hm] at h
    split at h
    · cases h
    · cases h
    · rename_i ids nUnk hemit
      obtain rfl := Except.ok.inj h
      change ∃ x, capAfterAppend (unbounded m (seEmbedLimitMode m)) _ = _
      rw [capAfterAppend_unbounded rfl]
      unfold emitPieces at hemit
      split_ifs at hemit
      split at hemit
      · cases hemit
        exact ⟨_, by rw [List.count_eq_zero.mpr hfree]; rfl⟩
      · obtain ⟨rfl, rfl⟩ := hunk hemit
        exact ⟨_, rfl⟩
      · cases hemit
      · cases hemit
  | direct id =>
    simp only [runItem, unbounded, pushId_eq] at h
    by_cases hbig : o.ids.length + 1 > uint32Max
    · rw [if_pos hbig] at h
      cases h
    · rw [if_neg hbig] at h
      obtain rfl := Except.ok.inj h
      change ∃ x, capAfterAppend (unbounded m (seEmbedLimitMode m)) _ = _
      rw [capAfterAppend_unbounded rfl]
      refine ⟨[id], congrArg (TokenIds.mk _ · _) ?_⟩
      change (if id = m.unkId then o.nUnk + 1 else o.nUnk) = _
      by_cases hid : id = m.unkId
      · rw [if_pos hid, hid, List.count_singleton_self]
      · rw [if_neg hid, List.count_singleton, if_neg (by simpa using hid), Nat.add_zero]

/-- The counter is right. -/
def Counted (m : SeModel) (o : TokenIds) : Prop := o.nUnk = o.ids.count m.unkId

theorem runItemList_unbounded (hm : ModelOk m) (hfree : ∀ it ∈ its, UnkFree m it)
    (ht : o.truncated = false)
    (h : runItemList (unbounded m (seEmbedLimitMode m)) o its = .ok o') : o.ids <+: o'.ids := by
  induction its generalizing o with
  | nil =>
    cases h
    exact List.prefix_rfl
  | cons it its ih =>
    rw [List.forall_mem_cons] at hfree
    rw [runItemList_cons ht, bind_eq_ok] at h
    obtain ⟨o₁, h₁, h⟩ := h
    obtain ⟨x, rfl⟩ := runItem_unbounded hm hfree.1 h₁
    exact (List.prefix_append _ _).trans (ih (o := ⟨o.ids ++ x, _, _⟩) hfree.2 ht h)

/-- **The cap of a run whose counter is right.** -/
theorem capAfterAppend_eq (ho : Counted m o) (ht : o.truncated = false)
    (hlen : o.ids.length ≤ uint32Max) : capAfterAppend (capped m maxTokens) o =
      ⟨keptIds m maxTokens o.ids, (keptIds m maxTokens o.ids).count m.unkId,
        decide (OverLimit m maxTokens o.ids)⟩ := by
  have hcount := @length_filter_isUsable m o.ids
  have hsub : ∀ {a b : ℕ}, b ≤ a → a ≤ uint32Max → subSize a b = a - b := by
    intro a b hba ha
    unfold subSize
    unfold uint32Max at ha
    omega
  have hlimited : limitedTokenCount (capped m maxTokens) o = (limitedIds m o.ids).length := by
    unfold limitedTokenCount limitedIds capped
    by_cases hmode : CountsUsable m
    · rw [if_pos ⟨hmode.2, hmode.1⟩, if_pos hmode, hsub (by rw [ho]; omega) hlen, ho]
      omega
    · rw [if_neg fun h => hmode ⟨h.2, h.1⟩, if_neg hmode]
  unfold capAfterAppend keptIds
  rw [hlimited, show (capped m maxTokens).maxTokens = maxTokens from rfl]
  by_cases hover : OverLimit m maxTokens o.ids
  · have hlt := hover.2
    rw [if_neg (not_or.mpr ⟨hover.1, not_le.mpr hlt⟩), if_pos hover, decide_eq_true hover]
    unfold limitedIds at hlt
    unfold cutIds
    by_cases hmode : CountsUsable m
    · rw [if_pos hmode] at hlt
      have hcut := @usableCut_eq m maxTokens o.ids 0 0 0 (Nat.pos_of_ne_zero hover.1)
        (by rw [Nat.sub_zero]; exact hlt.le)
      rw [Nat.zero_add, Nat.zero_add, Nat.sub_zero] at hcut
      have hraw : ¬ ((capped m maxTokens).limitMode = .raw ∨
          (capped m maxTokens).model.unkPolicy ≠ unkDrop) := by
        rintro (h | h)
        · rw [show (capped m maxTokens).limitMode = .usable from hmode.2] at h
          cases h
        · exact h hmode.1
      rw [if_neg hraw, if_pos hmode]
      simp only [capped, hcut]
      rw [← List.prefix_iff_eq_take.mp (isPrefix_upTo maxTokens o.ids)]
    · rw [if_neg hmode] at hlt
      have hraw : (capped m maxTokens).limitMode = .raw ∨
          (capped m maxTokens).model.unkPolicy ≠ unkDrop := by
        cases hlm : seEmbedLimitMode m with
        | raw => exact .inl hlm
        | usable => exact .inr fun h => hmode ⟨h, hlm⟩
      have hsplit : o.nUnk = (o.ids.take maxTokens).count m.unkId +
          (o.ids.drop maxTokens).count m.unkId := by
        rw [ho, ← List.count_append, List.take_append_drop]
      have hle : o.nUnk ≤ o.ids.length := by rw [ho]; exact List.count_le_length
      rw [if_pos hraw, if_neg hmode]
      simp only [capped]
      rw [hsub (by omega) (hle.trans hlen), hsplit, Nat.add_sub_cancel]
  · have hle : maxTokens = 0 ∨ (limitedIds m o.ids).length ≤ maxTokens := by
      by_contra hne
      rw [not_or, not_le] at hne
      exact hover hne
    rw [if_pos hle, if_neg hover, decide_eq_false hover, ← ho, ← ht]

/-- **A run with a cap** keeps of the ids of the run without one what is kept of a list. -/
theorem runItemList_capped (hm : ModelOk m) (hfree : ∀ it ∈ its, UnkFree m it) (ho : Counted m o)
    (ht : o.truncated = false) (hover : ¬ OverLimit m maxTokens o.ids)
    (h : runItemList (unbounded m (seEmbedLimitMode m)) o its = .ok o')
    (hlen : o'.ids.length ≤ uint32Max) : runItemList (capped m maxTokens) o its = .ok
      ⟨keptIds m maxTokens o'.ids, (keptIds m maxTokens o'.ids).count m.unkId,
        decide (OverLimit m maxTokens o'.ids)⟩ := by
  induction its generalizing o with
  | nil =>
    cases h
    rw [keptIds, if_neg hover, decide_eq_false hover, ← ho, ← ht]
    rfl
  | cons it its ih =>
    rw [List.forall_mem_cons] at hfree
    rw [runItemList_cons ht, bind_eq_ok] at h
    obtain ⟨o₁, h₁, h⟩ := h
    rw [runItemList_cons ht, runItem_capped, h₁]
    obtain ⟨x, rfl⟩ := runItem_unbounded hm hfree.1 h₁
    have hcounted : Counted m ⟨o.ids ++ x, o.nUnk + x.count m.unkId, o.truncated⟩ := by
      unfold Counted
      rw [List.count_append, ← ho]
    have hpre := runItemList_unbounded (o := ⟨o.ids ++ x, _, _⟩) hm hfree.2 ht h
    have hcap := @capAfterAppend_eq m maxTokens _ hcounted ht (hpre.length_le.trans hlen)
    simp only [Except.map, bind, Except.bind]
    by_cases hover₁ : OverLimit m maxTokens (o.ids ++ x)
    · obtain ⟨rest, hrest⟩ := hpre
      have hall : OverLimit m maxTokens o'.ids := by
        rw [← hrest]
        exact hover₁.append rest
      rw [hcap, decide_eq_true hover₁, runItemList_of_truncated rfl, keptIds, if_pos hover₁, keptIds,
        if_pos hall, decide_eq_true hall, ← hrest, cutIds_append hover₁]
    · rw [hcap, keptIds, if_neg hover₁, decide_eq_false hover₁, ← hcounted, ← ht]
      exact ih (o := ⟨o.ids ++ x, _, _⟩) hfree.2 hcounted ht hover₁ h

end

/-! ## A text and its ids -/

section

variable {m : SeModel} {maxTokens : ℕ} {ids : List ℕ}

/-- A list cut at a limit, where there is one. -/
def limitTo (maxTokens : ℕ) (ids : List ℕ) : List ℕ :=
  if maxTokens = 0 then ids else ids.take maxTokens

/-- The ids that the policies pool. -/
def policyIds (m : SeModel) (maxTokens : ℕ) (ids : List ℕ) : List ℕ :=
  if m.unkPolicy = unkDrop then
    match seEmbedLimitMode m with
    | .raw => (limitTo maxTokens ids).filter (isUsable m)
    | .usable => limitTo maxTokens (ids.filter (isUsable m))
  else limitTo maxTokens ids

theorem limitTo_of_le (h : ids.length ≤ maxTokens) : limitTo maxTokens ids = ids := by
  unfold limitTo
  split_ifs
  · rfl
  · exact List.take_of_length_le h

theorem keptIds_of_raw (h : ¬ CountsUsable m) : keptIds m maxTokens ids = limitTo maxTokens ids := by
  unfold keptIds cutIds
  rw [if_neg h]
  by_cases hover : OverLimit m maxTokens ids
  · rw [if_pos hover, limitTo, if_neg hover.1]
  · rw [if_neg hover]
    by_cases hzero : maxTokens = 0
    · rw [limitTo, if_pos hzero]
    · refine (limitTo_of_le (not_lt.mp fun hlt => hover ⟨hzero, ?_⟩)).symm
      rwa [limitedIds, if_neg h]

theorem filter_keptIds (h : CountsUsable m) :
    (keptIds m maxTokens ids).filter (isUsable m) =
      limitTo maxTokens (ids.filter (isUsable m)) := by
  by_cases hzero : maxTokens = 0
  · rw [hzero, keptIds_zero, limitTo, if_pos rfl]
  · have hlimited := @limitedIds_keptIds m maxTokens hzero ids
    rw [limitedIds, limitedIds, if_pos h, if_pos h] at hlimited
    rw [hlimited, limitTo, if_neg hzero]

theorem pooledIds_of_drop (h : m.unkPolicy = unkDrop) (ids : List ℕ) :
    pooledIds m ids = ids.filter (isUsable m) := by
  refine List.filter_congr fun id _ => ?_
  simp only [isUsable, h, true_and, ne_eq]

theorem pooledIds_of_include (h : m.unkPolicy ≠ unkDrop) (ids : List ℕ) : pooledIds m ids = ids := by
  refine List.filter_eq_self.mpr fun id _ => ?_
  simp only [h, false_and, not_false_eq_true, decide_true]

/-- **What is pooled of the ids that are kept.** -/
theorem pooledIds_keptIds (m : SeModel) (maxTokens : ℕ) (ids : List ℕ) :
    pooledIds m (keptIds m maxTokens ids) = policyIds m maxTokens ids := by
  unfold policyIds
  by_cases hdrop : m.unkPolicy = unkDrop
  · rw [if_pos hdrop, pooledIds_of_drop hdrop]
    cases hmode : seEmbedLimitMode m with
    | raw =>
      refine congrArg (List.filter (isUsable m)) (keptIds_of_raw fun h => ?_)
      have := hmode.symm.trans h.2
      cases this
    | usable => exact filter_keptIds ⟨hdrop, hmode⟩
  · rw [if_neg hdrop, pooledIds_of_include hdrop]
    exact keptIds_of_raw fun h => hdrop h.1

theorem checkIds_eq {i : ℕ} (h : ∀ id ∈ ids, id < m.vocabSize) : checkIds m i ids = .ok () := by
  induction ids generalizing i with
  | nil => rfl
  | cons id ids ih =>
    rw [List.forall_mem_cons] at h
    rw [checkIds, if_neg (not_le.mpr h.1)]
    exact ih h.2

/-- The statistics of the ids that are kept. -/
def keptStats (m : SeModel) (maxTokens : ℕ) (ids : List ℕ) : SeTokenStats :=
  ⟨(keptIds m maxTokens ids).length, (keptIds m maxTokens ids).count m.unkId,
    decide (OverLimit m maxTokens ids)⟩

theorem pooledCount_keptStats (m : SeModel) (maxTokens : ℕ) (ids : List ℕ) :
    pooledCount m (keptStats m maxTokens ids) = (policyIds m maxTokens ids).length := by
  rw [← pooledIds_keptIds]
  unfold pooledCount keptStats
  split_ifs with hdrop
  · have hcount := @length_filter_isUsable m (keptIds m maxTokens ids)
    rw [pooledIds_of_drop hdrop]
    dsimp only
    omega
  · rw [pooledIds_of_include hdrop]

variable {input : Bytes}

/-- **A text**: the ids that `se_tokenize` keeps. -/
theorem seTokenize_keptIds (hm : ModelOk m) (hu : UnkApart m)
    (h : unboundedIds m (seEmbedLimitMode m) input = .ok ids) :
    seTokenize m input maxTokens (seEmbedLimitMode m) neverCancelled =
      (keptStats m maxTokens ids, .ok (keptIds m maxTokens ids)) := by
  obtain ⟨hok, o, hrun, hlen, -, rfl⟩ := (unboundedIds_eq_ok_iff hm).mp h
  have hover : ¬ OverLimit m maxTokens [] := by
    unfold OverLimit limitedIds
    split_ifs
    · exact fun hlt => absurd hlt.2 (Nat.not_lt_zero _)
    · exact fun hlt => absurd hlt.2 (Nat.not_lt_zero _)
  have hcapped := runItemList_capped (o := {}) hm (fun it hit => unkFree_of_mem_items hu hit) rfl rfl
    hover hrun hlen
  have hkept := (isPrefix_keptIds (m := m) maxTokens o.ids).length_le
  unfold seTokenize
  rw [seTokenizeWith_eq hm.fields.cleanText rfl, tokenResult_eq_ok_iff]
  exact ⟨_, runItems_eq_ok_iff.mpr ⟨hcapped, .inr hok⟩, hkept.trans hlen,
    List.count_le_length.trans (hkept.trans hlen), rfl, rfl⟩

variable {Acc Vec : Type} {K : Kernel Acc Vec}

/-- **A list of ids**: what `embed_token_ids` keeps. -/
theorem embedTokenIdsValue_keptIds (hids : ∀ id ∈ ids, id < m.vocabSize)
    (hlen : ids.length ≤ uint32Max) : embedTokenIdsValue K m neverCancelled ids maxTokens =
      match embedIdsCore K m neverCancelled (keptIds m maxTokens ids) with
      | .error e => .error (.native e)
      | .ok pooled => .ok (keptIds m maxTokens ids, keptStats m maxTokens ids, pooled) := by
  obtain ⟨n, hcap, htake⟩ := idsCap_eq hids maxTokens
  have hpre := isPrefix_keptIds (m := m) maxTokens ids
  unfold embedTokenIdsValue
  rw [hcap]
  simp only [bind, Except.bind, htake]
  rw [checkIds_eq fun id hid => hids id (hpre.subset hid)]
  simp only [seEmbedIds]
  rw [if_neg (not_lt.mpr (hpre.length_le.trans hlen))]
  cases embedIdsCore K m neverCancelled (keptIds m maxTokens ids) with
  | error e => rfl
  | ok pooled => rfl

/-- **The two caps agree** on the model of a written file: a text with a limit, and the ids of the text
with the same limit, keep the same ids, report the same statistics and pool the same rows, those that
the policies ask for. -/
theorem truncation_agrees {sha256 : Bytes → Bytes} {profile fmt : FormatMeta} {tokens : List Bytes}
    {matrix : Payload} {normTables provenance file : Bytes}
    (hsha : ∀ bytes, (sha256 bytes).length = checksumSize) (hmatrix : matrix.Honest)
    (hd : tokens.Nodup) (hmeta : runtimeMeta profile tokens = some fmt)
    (hwrite : writerCall sha256 fmt tokens matrix normTables provenance = .ok file)
    (hload : validate file = .ok m)
    (hids : unboundedIds m (seEmbedLimitMode m) input = .ok ids) (K : Kernel Acc Vec)
    (maxTokens : ℕ) :
    let kept := keptIds m maxTokens ids
    let stats := keptStats m maxTokens ids
    let result := embedIdsCore K m neverCancelled kept
    seTokenize m input maxTokens (seEmbedLimitMode m) neverCancelled = (stats, .ok kept) ∧
      seEmbedOne K m neverCancelled input maxTokens = (stats, result) ∧
      embedTokenIdsValue K m neverCancelled ids maxTokens =
        (match result with
        | .error e => .error (.native e)
        | .ok pooled => .ok (kept, stats, pooled)) ∧
      pooledIds m kept = policyIds m maxTokens ids ∧
      pooledCount m stats = (policyIds m maxTokens ids).length ∧
      ∀ pooled, result = .ok pooled → pooled.used = pooledCount m stats := by
  obtain ⟨⟨hm⟩, hu⟩ := compiled_of_writerCall hsha hmatrix hd hmeta hwrite hload
  have hlt : ∀ id ∈ ids, id < m.vocabSize := seTokenize_lt hm (Prod.ext rfl hids)
  have hlen : ids.length ≤ uint32Max := by
    obtain ⟨-, o, -, hlen, -, rfl⟩ := (unboundedIds_eq_ok_iff hm).mp hids
    exact hlen
  have htext := @seTokenize_keptIds _ maxTokens _ _ hm hu hids
  have hkept : ∀ id ∈ keptIds m maxTokens ids, id < m.vocabSize :=
    fun id hid => hlt id ((isPrefix_keptIds maxTokens ids).subset hid)
  refine ⟨htext, ?_, embedTokenIdsValue_keptIds hlt hlen, pooledIds_keptIds m maxTokens ids,
    pooledCount_keptStats m maxTokens ids, fun pooled hp => ?_⟩
  · rw [seEmbedOne, htext]
  · rw [embedIdsCore_eq hm hkept, pooledIds_keptIds] at hp
    rw [pooledCount_keptStats]
    split_ifs at hp with hnil hraise
    · cases hp
      rw [hnil]
      rfl
    · cases hp
      rfl
    · cases hp
      rfl

/-- `a x b a` with a limit of two usable ids: `x` is `[UNK]` and is kept, but not pooled. -/
theorem truncation_agrees_sample : seTokenize sampleModel [0x61, 0x20, 0x78, 0x20, 0x62, 0x20, 0x61] 2
      (seEmbedLimitMode sampleModel) neverCancelled = (⟨3, 1, true⟩, .ok [1, 0, 2]) ∧
    policyIds sampleModel 2 [1, 0, 2, 1] = [1, 2] := by
  have hids : unboundedIds sampleModel (seEmbedLimitMode sampleModel)
      [0x61, 0x20, 0x78, 0x20, 0x62, 0x20, 0x61] = .ok [1, 0, 2, 1] := by decide +kernel
  have hkept : keptIds sampleModel 2 [1, 0, 2, 1] = [1, 0, 2] := by decide +kernel
  have hstats : keptStats sampleModel 2 [1, 0, 2, 1] = ⟨3, 1, true⟩ := by decide +kernel
  have hmeta : runtimeMeta sampleFormat sampleTokens = some sampleFormat := by decide
  obtain ⟨htext, -⟩ := truncation_agrees (fun _ => List.length_replicate) (honest_ofString _)
    (by decide) hmeta writerCall_sampleFile validate_sampleFile hids
    (⟨0, fun acc _ => acc + 1, 0, id, fun acc _ => acc⟩ : Kernel ℕ ℕ) 2
  rw [hkept, hstats] at htext
  exact ⟨htext, by decide +kernel⟩

end

end StaticEmbeddings
