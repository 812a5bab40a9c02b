import StaticEmbeddings.Tokenizer.Safety

/-!
# What is pooled

On ids of the vocabulary, pooling adds the rows of the ids that are not dropped.

* `pooledIds`, `embeddingRow`; **`poolLoop?_eq`**, **`embedIdsCore_eq`**.
* `capAfterAppend_small`, `runItemList_small`: the counters of a run below the cap.
-/

namespace StaticEmbeddings

open LittleEndian

/-- The ids whose rows are added. -/
def pooledIds (m : SeModel) (ids : List ℕ) : List ℕ :=
  ids.filter fun id => ¬ (m.unkPolicy = unkDrop ∧ id = m.unkId)

/-- The row of an id. -/
def embeddingRow (m : SeModel) (id : ℕ) : Bytes := slice m.embeddings (id * m.dim * 4) (m.dim * 4)

section

variable {m : SeModel} {Acc Vec : Type} {K : Kernel Acc Vec} {ids : List ℕ}

/-- **The pooling loop adds the rows of the pooled ids.** -/
theorem poolLoop?_eq (h : ModelOk m) (hids : ∀ id ∈ ids, id < m.vocabSize) (i : ℕ) (acc : Acc)
    (used : ℕ) :
    poolLoop? K m neverCancelled i ids acc used = some (.ok
      ((pooledIds m ids).foldl (fun acc id => K.addRow acc (embeddingRow m id)) acc,
        used + (pooledIds m ids).length)) := by
  induction ids generalizing i acc used with
  | nil => rfl
  | cons id ids ih =>
    rw [List.forall_mem_cons] at hids
    have ih := ih hids.2
    rw [poolLoop?, if_neg (by simp [neverCancelled]), if_neg (not_le.2 hids.1)]
    by_cases hd : m.unkPolicy = unkDrop ∧ id = m.unkId
    · have hpooled : pooledIds m (id :: ids) = pooledIds m ids :=
        List.filter_cons_of_neg (by simpa using hd)
      rw [if_pos hd, ih, hpooled]
    · have hpooled : pooledIds m (id :: ids) = id :: pooledIds m ids :=
        List.filter_cons_of_pos (decide_eq_true hd)
      have hrow : id * m.dim * 4 + m.dim * 4 ≤ m.embeddings.length := by
        rw [h.embeddings_length]
        calc id * m.dim * 4 + m.dim * 4 = (id + 1) * (m.dim * 4) := by ring
          _ ≤ m.vocabSize * (m.dim * 4) := Nat.mul_le_mul_right _ hids.1
          _ = m.vocabSize * m.dim * 4 := by ring
      rw [if_neg hd, slice?_of_le hrow]
      dsimp only
      rw [ih, hpooled, List.foldl_cons, List.length_cons, Nat.add_assoc, Nat.add_comm 1]
      rfl

/-- **The vector of a list of ids.** -/
theorem embedIdsCore_eq (h : ModelOk m) (hids : ∀ id ∈ ids, id < m.vocabSize) :
    embedIdsCore K m neverCancelled ids =
      if pooledIds m ids = [] then
        if m.emptyPolicy = emptyRaise then
          .error ⟨.errEmptyInput, "input produced no usable tokens"⟩
        else .ok ⟨K.zeroVec, 0⟩
      else
        let acc := (pooledIds m ids).foldl (fun acc id => K.addRow acc (embeddingRow m id)) K.zeroAcc
        .ok ⟨if m.normalizationType = 1 then K.normalized acc else K.mean acc (pooledIds m ids).length,
          (pooledIds m ids).length⟩ := by
  rw [embedIdsCore, embedIdsCore?, poolLoop?_eq h hids]
  dsimp only
  rw [Nat.zero_add]
  by_cases hn : pooledIds m ids = []
  · rw [if_pos hn, if_pos (by rw [hn]; rfl)]
    split_ifs <;> simp [hn]
  · rw [if_neg hn, if_neg fun hl => hn (List.eq_nil_of_length_eq_zero hl)]
    split_ifs <;> rfl

end

/-! ## Below the cap -/

section

variable {m : SeModel} {p : TokenParams} {o o' : TokenIds}

theorem capAfterAppend_untruncated (h : (capAfterAppend p o).truncated = false) :
    capAfterAppend p o = o := by
  unfold capAfterAppend at h ⊢
  split_ifs at h ⊢
  rfl

/-- At most as many unknown words as ids, and few enough of these. -/
def TokenIds.Small (o : TokenIds) : Prop := o.nUnk ≤ o.ids.length ∧ o.ids.length ≤ uint32Max

theorem emitPieces_small {r : List ℕ × WalkEnd} {ids : List ℕ} {nUnk : ℕ} (ho : o.Small)
    (h : emitPieces m o.ids o.nUnk r = .ok (ids, nUnk)) : nUnk ≤ ids.length ∧
      ids.length ≤ uint32Max := by
  obtain ⟨hn, hl⟩ := ho
  unfold emitPieces at h
  split_ifs at h with hbig
  have hfits : (o.ids ++ r.1).length ≤ uint32Max := by
    rw [List.length_append]
    by_cases hr : r.1 = []
    · rw [hr]
      exact hl
    · exact not_lt.1 fun hlt => hbig ⟨hr, hlt⟩
  cases hend : r.2 with
  | done =>
    rw [hend] at h
    cases h
    rw [List.length_append] at hfits ⊢
    exact ⟨by omega, hfits⟩
  | missing =>
    rw [hend] at h
    simp only [pushUnk, pushId_eq] at h
    split_ifs at h
    cases h
    rw [List.length_append, List.length_singleton]
    exact ⟨by omega, by omega⟩
  | invalid =>
    rw [hend] at h
    cases h
  | overflow =>
    rw [hend] at h
    cases h

/-- **One item below the cap.** -/
theorem runItem_small (hm : ModelOk m) (hw : p.wordpiece = wordpiece m) {it : Item}
    (ho : o.truncated = false → o.Small) (h : runItem p o it = .ok o')
    (ht : o'.truncated = false) : o'.Small := by
  cases it with
  | word w =>
    simp only [runItem, hw, wordpiece_eq hm] at h
    split at h
    · cases h
    · cases h
    · rename_i ids nUnk hemit
      have heq := Except.ok.inj h
      rw [← heq] at ht ⊢
      have hcap := capAfterAppend_untruncated ht
      rw [hcap] at ht ⊢
      exact emitPieces_small (ho ht) hemit
  | direct id =>
    rw [runItem, pushId_eq] at h
    by_cases hbig : o.ids.length + 1 > uint32Max
    · rw [if_pos hbig] at h
      cases h
    rw [if_neg hbig] at h
    have heq := Except.ok.inj h
    rw [← heq] at ht ⊢
    have hcap := capAfterAppend_untruncated ht
    rw [hcap] at ht ⊢
    obtain ⟨hn, hl⟩ := ho ht
    refine ⟨?_, ?_⟩
    · simp only [List.length_append, List.length_singleton]
      split_ifs <;> omega
    · simp only [List.length_append, List.length_singleton]
      omega

theorem isPrefix_emitPieces {ids ids' : List ℕ} {nUnk nUnk' : ℕ} {r : List ℕ × WalkEnd}
    (h : emitPieces m ids nUnk r = .ok (ids', nUnk')) : ids <+: ids' := by
  unfold emitPieces at h
  split_ifs at h
  cases hend : r.2 with
  | done =>
    rw [hend] at h
    cases h
    exact List.prefix_append _ _
  | missing =>
    rw [hend] at h
    simp only [pushUnk, pushId_eq] at h
    split_ifs at h
    cases h
    exact List.prefix_append _ _
  | invalid | overflow =>
    rw [hend] at h
    cases h

theorem isPrefix_runItem (hm : ModelOk m) (hw : p.wordpiece = wordpiece m) {it : Item}
    (h : runItem p o it = .ok o') (ht : o'.truncated = false) : o.ids <+: o'.ids := by
  cases it with
  | word w =>
    simp only [runItem, hw, wordpiece_eq hm] at h
    split at h
    · cases h
    · cases h
    · rename_i ids nUnk hemit
      have heq := Except.ok.inj h
      rw [← heq] at ht ⊢
      rw [capAfterAppend_untruncated ht]
      exact isPrefix_emitPieces hemit
  | direct id =>
    rw [runItem, pushId_eq] at h
    by_cases hbig : o.ids.length + 1 > uint32Max
    · rw [if_pos hbig] at h
      cases h
    rw [if_neg hbig] at h
    have heq := Except.ok.inj h
    rw [← heq] at ht ⊢
    rw [capAfterAppend_untruncated ht]
    exact List.prefix_append _ _

/-- **A run below the cap** keeps the ids that are there. -/
theorem isPrefix_runItemList (hm : ModelOk m) (hw : p.wordpiece = wordpiece m) {its : List Item}
    (h : runItemList p o its = .ok o') (ht : o'.truncated = false) : o.ids <+: o'.ids := by
  induction its generalizing o with
  | nil =>
    cases h
    exact List.prefix_rfl
  | cons it its ih =>
    cases ho : o.truncated with
    | true =>
      rw [runItemList_of_truncated ho] at h
      cases h
      exact List.prefix_rfl
    | false =>
      rw [runItemList_cons ho, bind_eq_ok] at h
      obtain ⟨o₁, h₁, h⟩ := h
      have ht₁ : o₁.truncated = false := by
        cases hc : o₁.truncated with
        | false => rfl
        | true =>
          rw [runItemList_of_truncated hc] at h
          cases h
          exact hc.symm.trans ht
      exact (isPrefix_runItem hm hw h₁ ht₁).trans (ih h)

/-- **A run below the cap.** -/
theorem runItemList_small (hm : ModelOk m) (hw : p.wordpiece = wordpiece m) {its : List Item}
    (h : runItemList p {} its = .ok o) : o.truncated = false → o.Small :=
  StopFold.run_invariant (fun _ _ _ _ hI hr => runItem_small hm hw hI hr)
    (fun _ => ⟨le_rfl, Nat.zero_le _⟩) h

end

end StaticEmbeddings
