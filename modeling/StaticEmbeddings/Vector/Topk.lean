import StaticEmbeddings.Lib.BoundedInsert

/-!
# Top-k selection

`se_topk_execute` of `se_topk.c` and the end of `topk_body` of `static_embeddings.c`, on the scores
of the rows.

* `Score`: a linear order with a least element, and NaN; `TopkBest`: the two arrays.
* `insertBest`, `topkRow`, `seTopkExecute`; `topkPairs`, `topkBody`.
* `rankedRows`: the rows that count, best first.
* **`topkBody_eq`**: the result is the first `k` of them.
-/

namespace StaticEmbeddings

variable {α : Type}

/-- A score: a value or NaN. -/
inductive Score (α : Type)
  | num (a : α) | nan
  deriving DecidableEq, Repr

/-- `a < b` of floats, which is false where one of them is NaN. -/
def Score.lt [LT α] [DecidableLT α] : Score α → Score α → Bool
  | .num a, .num b => a < b
  | _, _ => false

/-- `best_score` and `best_idx`. -/
structure TopkBest (α : Type) where
  bestScore : List (Score α)
  bestIdx : List ℕ
  deriving DecidableEq, Repr

section

variable [LinearOrder α]

/-- The inner loop of `se_topk_execute` from place `pos` on, and the two writes behind it. -/
def insertBest (score : Score α) (r : ℕ) : ℕ → TopkBest α → TopkBest α
  | 0, best => ⟨best.bestScore.set 0 score, best.bestIdx.set 0 r⟩
  | pos + 1, best =>
    if (best.bestScore.getD pos .nan).lt score then
      insertBest score r pos
        ⟨best.bestScore.set (pos + 1) (best.bestScore.getD pos .nan),
          best.bestIdx.set (pos + 1) (best.bestIdx.getD pos 0)⟩
    else ⟨best.bestScore.set (pos + 1) score, best.bestIdx.set (pos + 1) r⟩

/-- One row of `se_topk_execute`. -/
def topkRow (k : ℕ) (best : TopkBest α) (r : ℕ) (score : Score α) : TopkBest α :=
  if !(best.bestScore.getD (k - 1) .nan).lt score then best else insertBest score r (k - 1) best

/-- `se_topk_execute` from row `r` on; `cancelled` is the flag at the poll of a row. -/
def seTopkExecute (cancelled : ℕ → Bool) (k : ℕ) : ℕ → List (Score α) → TopkBest α → TopkBest α
  | _, [], best => best
  | r, score :: scores, best =>
    if r &&& 1023 = 0 ∧ cancelled r then best
    else seTopkExecute cancelled k (r + 1) scores (topkRow k best r score)

variable [OrderBot α]

/-- The loop of `topk_body` that makes the result. -/
def topkPairs : List ℕ → List (Score α) → List (ℕ × Score α)
  | i :: idx, score :: scores => if score = .num ⊥ then [] else (i, score) :: topkPairs idx scores
  | _, _ => []

/-- The buffers as `top_k_impl` makes them. -/
def topkInit (k : ℕ) : TopkBest α := ⟨List.replicate k (.num ⊥), List.replicate k 0⟩

/-- `topk_body`, where `cancelled` at the number of rows is the flag after the native run; `none`
where it raises. -/
def topkBody (cancelled : ℕ → Bool) (k : ℕ) (scores : List (Score α)) :
    Option (List (ℕ × Score α)) :=
  let best := seTopkExecute cancelled k 0 scores (topkInit k)
  if cancelled scores.length then none else some (topkPairs best.bestIdx best.bestScore)

/-! ## The ranking -/

/-- The entry of row `r`, unless its score is NaN or the least one. -/
def rowEntry (r : ℕ) : Score α → Option (ℕ × α)
  | .num a => if a = ⊥ then none else some (r, a)
  | .nan => none

/-- The rows that count, from row `r` on. -/
def validRows : ℕ → List (Score α) → List (ℕ × α)
  | _, [] => []
  | r, score :: scores => (rowEntry r score).toList ++ validRows (r + 1) scores

/-- `p` comes before `q`: a higher score, or the same one in an earlier row. -/
def RanksBefore (p q : ℕ × α) : Prop := q.2 < p.2 ∨ (p.2 = q.2 ∧ p.1 ≤ q.1)

instance : DecidableRel (RanksBefore (α := α)) := fun _ _ => by unfold RanksBefore; infer_instance

/-- The rows that count, best first. -/
def rankedRows (scores : List (Score α)) : List (ℕ × α) :=
  (validRows 0 scores).insertionSort RanksBefore

end

section

/-- The two arrays of a list of entries. -/
def TopkBest.ofPairs (l : List (ℕ × α)) : TopkBest α := ⟨l.map fun p => .num p.2, l.map Prod.fst⟩

theorem TopkBest.ofPairs_set (l : List (ℕ × α)) (i : ℕ) (p : ℕ × α) :
    TopkBest.ofPairs (l.set i p) =
      ⟨(TopkBest.ofPairs l).bestScore.set i (.num p.2), (TopkBest.ofPairs l).bestIdx.set i p.1⟩ := by
  unfold TopkBest.ofPairs
  rw [List.map_set, List.map_set]

theorem TopkBest.getD_bestScore {l : List (ℕ × α)} {i : ℕ} {p : ℕ × α} (h : l[i]? = some p) :
    (TopkBest.ofPairs l).bestScore.getD i .nan = .num p.2 := by
  rw [TopkBest.ofPairs, List.getD_eq_getElem?_getD, List.getElem?_map, h]
  rfl

theorem TopkBest.getD_bestIdx {l : List (ℕ × α)} {i : ℕ} {p : ℕ × α} (h : l[i]? = some p) :
    (TopkBest.ofPairs l).bestIdx.getD i 0 = p.1 := by
  rw [TopkBest.ofPairs, List.getD_eq_getElem?_getD, List.getElem?_map, h]
  rfl

variable [LinearOrder α]

instance : IsTrans (ℕ × α) RanksBefore where
  trans p q r hpq hqr := by
    unfold RanksBefore at *
    obtain h₁ | ⟨h₁, h₁'⟩ := hpq
    · obtain h₂ | ⟨h₂, -⟩ := hqr
      · exact .inl (h₂.trans h₁)
      · exact .inl (h₂ ▸ h₁)
    · obtain h₂ | ⟨h₂, h₂'⟩ := hqr
      · exact .inl (h₁ ▸ h₂)
      · exact .inr ⟨h₁.trans h₂, h₁'.trans h₂'⟩

instance : Std.Total (RanksBefore (α := α)) where
  total p q := by
    unfold RanksBefore
    obtain h | h | h := lt_trichotomy p.2 q.2
    · exact .inr (.inl h)
    · obtain h' | h' := le_total p.1 q.1
      · exact .inl (.inr ⟨h, h'⟩)
      · exact .inr (.inr ⟨h.symm, h'⟩)
    · exact .inl (.inl h)

instance : Std.Antisymm (RanksBefore (α := α)) where
  antisymm p q hpq hqp := by
    unfold RanksBefore at *
    obtain h₁ | ⟨h₁, h₁'⟩ := hpq
    · obtain h₂ | ⟨h₂, -⟩ := hqp
      · exact absurd h₁ (not_lt.mpr h₂.le)
      · exact absurd h₁ (h₂ ▸ lt_irrefl _)
    · obtain h₂ | ⟨-, h₂'⟩ := hqp
      · exact absurd h₂ (h₁ ▸ lt_irrefl _)
      · exact Prod.ext (le_antisymm h₁' h₂') h₁

/-! ## The buffers -/

/-- The inner loop keeps the arrays aligned: it is insertion into the list of entries. -/
theorem insertBest_eq (s : α) (r : ℕ) {pos : ℕ} {l : List (ℕ × α)} (h : pos < l.length) :
    insertBest (.num s) r pos (TopkBest.ofPairs l) =
      TopkBest.ofPairs (BoundedInsert.sift (fun e => e.2 < s) (r, s) pos l) := by
  induction pos generalizing l with
  | zero => exact (TopkBest.ofPairs_set l 0 (r, s)).symm
  | succ pos ih =>
    have he : l[pos]? = some l[pos] := List.getElem?_eq_getElem (by omega)
    rw [insertBest, TopkBest.getD_bestScore he, TopkBest.getD_bestIdx he, BoundedInsert.sift, he]
    dsimp only
    by_cases hlt : l[pos].2 < s
    · rw [if_pos (show (Score.num l[pos].2).lt (.num s) = true from decide_eq_true hlt),
        if_pos (decide_eq_true hlt), ← TopkBest.ofPairs_set, ih (by rw [List.length_set]; omega)]
    · rw [if_neg (show ¬ (Score.num l[pos].2).lt (.num s) = true from by simpa [Score.lt] using hlt),
        if_neg (by simpa using hlt)]
      exact (TopkBest.ofPairs_set l (pos + 1) (r, s)).symm

theorem ranked_cut {R : List (ℕ × α)} (hR : R.Pairwise RanksBefore) (s : α) :
    ∃ A B, R = A ++ B ∧ (∀ e ∈ A, ¬ e.2 < s) ∧ ∀ e ∈ B, e.2 < s := by
  induction R with
  | nil => exact ⟨[], [], rfl, by simp, by simp⟩
  | cons p R ih =>
    obtain ⟨hp, hR⟩ := List.pairwise_cons.mp hR
    by_cases hs : p.2 < s
    · refine ⟨[], p :: R, rfl, by simp, List.forall_mem_cons.mpr ⟨hs, fun e he => ?_⟩⟩
      obtain h | ⟨h, -⟩ := hp e he
      · exact h.trans hs
      · exact h ▸ hs
    · obtain ⟨A, B, rfl, hA, hB⟩ := ih hR
      exact ⟨p :: A, B, rfl, List.forall_mem_cons.mpr ⟨hs, hA⟩, hB⟩

variable [OrderBot α]

/-- The buffers with the entries `R` found so far. -/
def topkBuffers (k : ℕ) (R : List (ℕ × α)) : TopkBest α :=
  TopkBest.ofPairs ((R ++ List.replicate k (0, ⊥)).take k)

theorem topkInit_eq (k : ℕ) : topkInit k = topkBuffers (α := α) k [] := by
  rw [topkBuffers, List.nil_append, List.take_of_length_le (by simp), TopkBest.ofPairs,
    List.map_replicate, List.map_replicate]
  rfl

/-- **One row.** The buffers keep the best of the entries and of the new one. -/
theorem topkRow_eq {k : ℕ} (hk : 0 < k) {R : List (ℕ × α)} (hR : R.Pairwise RanksBefore) {r : ℕ}
    (hr : ∀ p ∈ R, p.1 < r) (score : Score α) :
    ∃ R', R'.Pairwise RanksBefore ∧ R'.Perm (R ++ (rowEntry r score).toList) ∧
      topkRow k (topkBuffers k R) r score = topkBuffers k R' := by
  have hlast : k - 1 < (R ++ List.replicate k ((0 : ℕ), (⊥ : α))).length := by
    rw [List.length_append, List.length_replicate]
    omega
  have hk' : k - 1 + 1 = k := by omega
  obtain ⟨last, he⟩ : ∃ p, (R ++ List.replicate k ((0 : ℕ), (⊥ : α)))[k - 1]? = some p :=
    ⟨_, List.getElem?_eq_getElem hlast⟩
  have hbuf : ((R ++ List.replicate k ((0 : ℕ), (⊥ : α))).take k)[k - 1]? = some last := by
    rw [List.getElem?_take, if_pos (by omega), he]
  unfold topkRow
  rw [topkBuffers, TopkBest.getD_bestScore hbuf]
  -- a score that is no entry never enters
  have skip : rowEntry r score = none → (Score.num last.2).lt score = false := by
    cases score with
    | num a =>
      intro h
      rw [rowEntry] at h
      split_ifs at h with ha
      rw [Score.lt, ha]
      exact decide_eq_false not_lt_bot
    | nan => exact fun _ => rfl
  cases hx : rowEntry r score with
  | none =>
    rw [skip hx]
    exact ⟨R, hR, by simp, rfl⟩
  | some x =>
    obtain ⟨s, rfl, hs, rfl⟩ : ∃ s, score = .num s ∧ s ≠ ⊥ ∧ x = (r, s) := by
      cases score with
      | num a =>
        rw [rowEntry] at hx
        split_ifs at hx with ha
        exact ⟨a, rfl, ha, (Option.some.inj hx).symm⟩
      | nan => cases hx
    obtain ⟨A, B, rfl, hA, hB⟩ := ranked_cut hR s
    refine ⟨A ++ (r, s) :: B, ?_, ?_, ?_⟩
    · rw [List.pairwise_append] at hR ⊢
      refine ⟨hR.1, List.pairwise_cons.mpr ⟨fun e h => .inl (hB e h), hR.2.1⟩, fun p hp q hq => ?_⟩
      obtain rfl | hq := List.mem_cons.mp hq
      · obtain h | h := lt_or_eq_of_le (not_lt.mp (hA p hp))
        · exact .inl h
        · exact .inr ⟨h.symm, (hr p (List.mem_append_left _ hp)).le⟩
      · exact hR.2.2 p hp q hq
    · rw [Option.toList_some, List.append_assoc]
      exact (List.perm_append_singleton (r, s) B).symm.append_left A
    · have hgive : ∀ e ∈ B ++ List.replicate k ((0 : ℕ), (⊥ : α)), decide (e.2 < s) = true := by
        intro e h
        obtain h | h := List.mem_append.mp h
        · exact decide_eq_true (hB e h)
        · rw [(List.mem_replicate.mp h).2]
          exact decide_eq_true (bot_lt_iff_ne_bot.mpr hs)
      have hins := @BoundedInsert.sift_take _ (fun e : ℕ × α => e.2 < s) (r, s) A _
        (fun e h => decide_eq_false (hA e h)) hgive (k - 1) (by rwa [← List.append_assoc]) last
        (by rwa [← List.append_assoc])
      have hassoc : A ++ (r, s) :: B ++ List.replicate k ((0 : ℕ), (⊥ : α)) =
          A ++ (r, s) :: (B ++ List.replicate k (0, ⊥)) := by simp
      rw [hk', ← List.append_assoc] at hins
      rw [topkBuffers, hassoc, ← hins]
      by_cases hlt : last.2 < s
      · rw [if_pos (decide_eq_true hlt), if_neg (by simpa [Score.lt] using hlt)]
        exact insertBest_eq s r (by rw [List.length_take]; omega)
      · have hsc : (Score.num last.2).lt (.num s) = false := decide_eq_false hlt
        rw [if_pos (by rw [hsc]; rfl), if_neg (by simpa using hlt)]

/-- **A run.** The buffers hold the best of the entries of all rows. -/
theorem seTopkExecute_eq {k : ℕ} (hk : 0 < k) (scores : List (Score α)) {r : ℕ}
    {R : List (ℕ × α)} (hR : R.Pairwise RanksBefore) (hr : ∀ p ∈ R, p.1 < r) :
    ∃ R', R'.Pairwise RanksBefore ∧ R'.Perm (R ++ validRows r scores) ∧
      seTopkExecute (fun _ => false) k r scores (topkBuffers k R) = topkBuffers k R' := by
  induction scores generalizing r R with
  | nil => exact ⟨R, hR, by simp [validRows], rfl⟩
  | cons score scores ih =>
    obtain ⟨R₁, hR₁, hp₁, he₁⟩ := topkRow_eq hk hR hr score
    have hr₁ : ∀ p ∈ R₁, p.1 < r + 1 := by
      intro p hp
      obtain hp | hp := List.mem_append.mp (hp₁.mem_iff.mp hp)
      · exact (hr p hp).trans (Nat.lt_succ_self r)
      · cases score with
        | nan => simp [rowEntry] at hp
        | num a =>
          rw [rowEntry] at hp
          split_ifs at hp
          · simp at hp
          · rw [Option.toList_some, List.mem_singleton] at hp
            rw [hp]
            exact Nat.lt_succ_self r
    obtain ⟨R', hR', hp', he'⟩ := ih hR₁ hr₁
    refine ⟨R', hR', hp'.trans ?_, ?_⟩
    · rw [validRows, ← List.append_assoc]
      exact hp₁.append_right _
    · rw [seTopkExecute, if_neg (by simp), he₁, he']

/-- The loop of `topk_body` reads the entries back and stops before the sentinels. -/
theorem topkPairs_eq {R : List (ℕ × α)} (hR : ∀ p ∈ R, p.2 ≠ ⊥) (k : ℕ) :
    topkPairs (topkBuffers k R).bestIdx (topkBuffers k R).bestScore =
      (R.take k).map fun p => (p.1, .num p.2) := by
  have stop : ∀ n, topkPairs (TopkBest.ofPairs (List.replicate n ((0 : ℕ), (⊥ : α)))).bestIdx
      (TopkBest.ofPairs (List.replicate n ((0 : ℕ), (⊥ : α)))).bestScore = [] := by
    intro n
    cases n with
    | zero => rfl
    | succ n => exact if_pos rfl
  rw [topkBuffers, List.take_append, List.take_replicate]
  have hR : ∀ p ∈ R.take k, p.2 ≠ ⊥ := fun p hp => hR p (List.mem_of_mem_take hp)
  generalize min (k - R.length) k = n
  generalize R.take k = T at hR
  induction T with
  | nil => exact stop n
  | cons p l ih =>
    rw [List.forall_mem_cons] at hR
    have hp : (Score.num p.2 : Score α) ≠ .num ⊥ := fun h => hR.1 (Score.num.inj h)
    exact (if_neg hp).trans (congrArg (_ :: ·) (ih hR.2))

theorem mem_validRows {scores : List (Score α)} {r i : ℕ} {a : α} : (i, a) ∈ validRows r scores ↔
    r ≤ i ∧ scores[i - r]? = some (.num a) ∧ a ≠ ⊥ := by
  induction scores generalizing r with
  | nil => simp [validRows]
  | cons score scores ih =>
    have hentry : (i, a) ∈ (rowEntry r score).toList ↔ i = r ∧ score = .num a ∧ a ≠ ⊥ := by
      cases score with
      | nan => simp [rowEntry]
      | num b =>
        rw [rowEntry]
        split_ifs with hb
        · refine iff_of_false (by simp) fun ⟨_, h, hn⟩ => hn ?_
          exact (Score.num.inj h).symm.trans hb
        · rw [Option.toList_some, List.mem_singleton, Prod.mk.injEq]
          refine and_congr_right fun _ => ⟨fun h => ?_, fun h => (Score.num.inj h.1).symm⟩
          exact ⟨h ▸ rfl, h ▸ hb⟩
    rw [validRows, List.mem_append, hentry, ih]
    constructor
    · rintro (⟨rfl, rfl, hn⟩ | ⟨hle, hs, hn⟩)
      · exact ⟨le_rfl, by simp, hn⟩
      · refine ⟨by omega, ?_, hn⟩
        rw [show i - r = i - (r + 1) + 1 by omega, List.getElem?_cons_succ, hs]
    · rintro ⟨hle, hs, hn⟩
      obtain rfl | hlt := hle.eq_or_lt
      · rw [Nat.sub_self, List.getElem?_cons_zero, Option.some.injEq] at hs
        exact .inl ⟨rfl, hs, hn⟩
      · rw [show i - r = i - (r + 1) + 1 by omega, List.getElem?_cons_succ] at hs
        exact .inr ⟨hlt, hs, hn⟩

theorem validRows_nodup (r : ℕ) (scores : List (Score α)) :
    ((validRows r scores).map Prod.fst).Nodup := by
  induction scores generalizing r with
  | nil => exact List.nodup_nil
  | cons score scores ih =>
    rw [validRows, List.map_append, List.nodup_append]
    refine ⟨?_, ih (r + 1), ?_⟩
    · cases rowEntry r score with
      | none => exact List.nodup_nil
      | some x => exact List.nodup_singleton _
    · intro i hi j hj
      have hi' : i = r := by
        cases score with
        | nan => simp [rowEntry] at hi
        | num b =>
          rw [rowEntry] at hi
          split_ifs at hi
          · simp at hi
          · simpa using hi
      obtain ⟨⟨j', a⟩, hp, rfl⟩ := List.mem_map.mp hj
      have := (mem_validRows.mp hp).1
      dsimp only
      omega

theorem rankedRows_spec (scores : List (Score α)) :
    (∀ i a, (i, a) ∈ rankedRows scores ↔ scores[i]? = some (.num a) ∧ a ≠ ⊥) ∧
      ((rankedRows scores).map Prod.fst).Nodup ∧ (rankedRows scores).Pairwise RanksBefore := by
  have hp := List.perm_insertionSort RanksBefore (validRows 0 scores)
  refine ⟨fun i a => ?_, ?_, List.pairwise_insertionSort _ _⟩
  · rw [rankedRows, hp.mem_iff, mem_validRows]
    simp
  · exact (hp.map Prod.fst).nodup_iff.mpr (validRows_nodup 0 scores)

end

/-- **Top-k selection is exact**: the result is the first `k` rows of the ranking of the rows whose
score is neither NaN nor the least one, by decreasing score and increasing row index. -/
theorem topkBody_eq [LinearOrder α] [OrderBot α] {k : ℕ} (hk : 1 ≤ k) (scores : List (Score α)) :
    topkBody (fun _ => false) k scores =
        some (((rankedRows scores).take k).map fun p => (p.1, .num p.2)) ∧
      (∀ i a, (i, a) ∈ rankedRows scores ↔ scores[i]? = some (.num a) ∧ a ≠ ⊥) ∧
      ((rankedRows scores).map Prod.fst).Nodup ∧ (rankedRows scores).Pairwise RanksBefore := by
  refine ⟨?_, rankedRows_spec scores⟩
  obtain ⟨R, hR, hp, he⟩ :=
    seTopkExecute_eq hk scores (r := 0) (R := []) List.Pairwise.nil (by simp)
  rw [List.nil_append] at hp
  obtain rfl : R = rankedRows scores := BoundedInsert.eq_insertionSort hR hp
  rw [topkBody, topkInit_eq, he]
  have hne : ∀ p ∈ rankedRows scores, p.2 ≠ ⊥ := fun p hp =>
    (((rankedRows_spec scores).1 p.1 p.2).mp hp).2
  exact congrArg some (topkPairs_eq hne k)

/-- Ties, a NaN and a row that never counts. -/
theorem topkBody_eq_sample :
    topkBody (fun _ => false) 2 [.num 3, .nan, .num 5, .num 0, .num 5, .num (4 : ℕ)] =
      some [(2, .num 5), (4, .num 5)] :=
  (topkBody_eq (by decide) _).1.trans (by decide)

end StaticEmbeddings
