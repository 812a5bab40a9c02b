import StaticEmbeddings.Tokenizer.Cut
import StaticEmbeddings.Tokenizer.Pieces

/-!
# Runs without a cap

With `max_tokens = 0` an item appends its ids whatever was appended before it.

* `unbounded`: the parameters of such a run; `runItemList_untruncated`.
* `TokenIds.after`; **`runItemList_after`**: what a run appends does not depend on what was there,
  unless there are too many ids.
* **`unbounded_ok_append`**, **`unbounded_append`**: the ids of a text that is cut in two.
-/

namespace StaticEmbeddings

open LittleEndian

/-- The parameters of a run without a cap. -/
def unbounded (m : SeModel) (limitMode : SeTokenLimit) : TokenParams :=
  ⟨m, 0, limitMode, neverCancelled, wordpiece m⟩

/-- The ids of a run without a cap. -/
def unboundedIds (m : SeModel) (limitMode : SeTokenLimit) (input : Bytes) :
    Except SeError (List ℕ) :=
  (seTokenize m input 0 limitMode neverCancelled).2

/-- A failure for want of memory. -/
def IsOom {α : Type} (r : Except SeError α) : Prop := ∃ e, r = .error e ∧ e.status = .errOom

section

variable {m : SeModel} {p : TokenParams} {o o' : TokenIds} {its : List Item}

theorem isOom_oom {α : Type} (place : String) : IsOom (oom place : Except SeError α) := ⟨_, rfl, rfl⟩

theorem not_isOom_ok {α : Type} (a : α) : ¬ IsOom (.ok a : Except SeError α) :=
  fun ⟨_, h, _⟩ => nomatch h

theorem capAfterAppend_unbounded (h : p.maxTokens = 0) (o : TokenIds) : capAfterAppend p o = o :=
  if_pos (.inl h)

theorem runItem_untruncated (h : p.maxTokens = 0) {it : Item} (hr : runItem p o it = .ok o') :
    o'.truncated = o.truncated := by
  cases it with
  | word w =>
    rw [runItem] at hr
    split at hr
    · cases hr
    · cases hr
    · rw [capAfterAppend_unbounded h] at hr
      cases hr
      rfl
  | direct id =>
    rw [runItem] at hr
    split at hr
    · cases hr
    · rw [capAfterAppend_unbounded h] at hr
      cases hr
      rfl

theorem runItemList_untruncated (h : p.maxTokens = 0) (ho : o.truncated = false)
    (hr : runItemList p o its = .ok o') : o'.truncated = false :=
  StopFold.run_invariant (fun _ _ _ _ hI hs => (runItem_untruncated h hs).trans hI) ho hr

theorem runItem_status {it : Item} {e : SeError} (hr : runItem p o it = .error e) :
    e.status = .errOom ∨ e.status = .errInternal := by
  cases it with
  | word w =>
    rw [runItem] at hr
    split at hr
    · cases hr
      exact .inl rfl
    · cases hr
      exact .inr rfl
    · cases hr
  | direct id =>
    rw [runItem] at hr
    split at hr
    · cases hr
      exact .inl rfl
    · cases hr

theorem runItemList_status {e : SeError} (hr : runItemList p o its = .error e) :
    e.status = .errOom ∨ e.status = .errInternal := by
  induction its generalizing o with
  | nil => cases hr
  | cons it its ih =>
    cases ht : o.truncated with
    | true =>
      rw [runItemList_of_truncated ht] at hr
      cases hr
    | false =>
      rw [runItemList_cons ht] at hr
      cases hi : runItem p o it with
      | error e' =>
        rw [hi] at hr
        cases hr
        exact runItem_status hi
      | ok o₁ =>
        rw [hi] at hr
        exact ih hr

/-! ## What was there before -/

/-- `o` appended to what `pre` has emitted. -/
def TokenIds.after (pre o : TokenIds) : TokenIds :=
  ⟨pre.ids ++ o.ids, pre.nUnk + o.nUnk, o.truncated⟩

theorem TokenIds.after_empty {pre : TokenIds} (h : pre.truncated = false) : pre.after {} = pre := by
  rw [TokenIds.after, List.append_nil, Nat.add_zero, ← h]

/-- What `append` does behind `pre` is what it does alone, or there are too many ids. -/
def Shifts (pre : TokenIds) (alone behind : Except SeError TokenIds) : Prop :=
  behind = alone.map pre.after ∨ IsOom behind

theorem emitPieces_after (pre o : TokenIds) (r : List ℕ × WalkEnd) :
    emitPieces m (pre.after o).ids (pre.after o).nUnk r =
        (emitPieces m o.ids o.nUnk r).map (fun x => (pre.ids ++ x.1, pre.nUnk + x.2)) ∨
      emitPieces m (pre.after o).ids (pre.after o).nUnk r = .error .oom := by
  have hlen : (pre.after o).ids.length = pre.ids.length + o.ids.length := List.length_append
  unfold emitPieces
  by_cases hbig : r.1 ≠ [] ∧ (pre.after o).ids.length + r.1.length > uint32Max
  · exact .inr (if_pos hbig)
  rw [if_neg hbig]
  have hsmall : ¬ (r.1 ≠ [] ∧ o.ids.length + r.1.length > uint32Max) := fun h =>
    hbig ⟨h.1, by omega⟩
  rw [if_neg hsmall]
  cases r.2 with
  | done =>
    refine .inl ?_
    rw [TokenIds.after]
    exact congrArg Except.ok (Prod.ext (List.append_assoc _ _ _) rfl)
  | missing =>
    dsimp only
    rw [pushUnk, pushUnk, pushId_eq, pushId_eq, hlen]
    by_cases hp : pre.ids.length + o.ids.length + 1 > uint32Max
    · rw [if_pos hp]
      exact .inr rfl
    · rw [if_neg hp, if_neg (by omega), TokenIds.after]
      refine .inl (congrArg Except.ok (Prod.ext (List.append_assoc _ _ _) ?_))
      exact Nat.add_assoc _ _ _
  | invalid => exact .inl rfl
  | overflow => exact .inr rfl

/-- **One item behind others.** -/
theorem runItem_after (hm : ModelOk m) (h : p.maxTokens = 0) (hw : p.wordpiece = wordpiece m)
    (pre o : TokenIds) (it : Item) : Shifts pre (runItem p o it) (runItem p (pre.after o) it) := by
  cases it with
  | word w =>
    simp only [runItem, hw, wordpiece_eq hm, capAfterAppend_unbounded h]
    obtain he | he := @emitPieces_after m pre o (wordPieces m w (w.all (· < 0x80)))
    · rw [he]
      cases emitPieces m o.ids o.nUnk (wordPieces m w (w.all (· < 0x80))) with
      | error e =>
        cases e with
        | oom => exact .inr (isOom_oom _)
        | invalid => exact .inl rfl
      | ok x => exact .inl rfl
    · rw [he]
      exact .inr (isOom_oom _)
  | direct id =>
    have hlen : (pre.after o).ids.length = pre.ids.length + o.ids.length := List.length_append
    simp only [runItem, capAfterAppend_unbounded h, pushId_eq, hlen]
    by_cases hp : pre.ids.length + o.ids.length + 1 > uint32Max
    · rw [if_pos hp]
      exact .inr (isOom_oom _)
    · rw [if_neg hp, if_neg (by omega)]
      refine .inl (congrArg Except.ok ?_)
      simp only [TokenIds.after, List.append_assoc]
      split_ifs
      · rfl
      · rfl

/-- **Items behind others.** -/
theorem runItemList_after (hm : ModelOk m) (h : p.maxTokens = 0) (hw : p.wordpiece = wordpiece m)
    (pre : TokenIds) (ho : o.truncated = false) (its : List Item) :
    Shifts pre (runItemList p o its) (runItemList p (pre.after o) its) := by
  induction its generalizing o with
  | nil => exact .inl rfl
  | cons it its ih =>
    rw [runItemList_cons ho, runItemList_cons (show (pre.after o).truncated = false from ho)]
    obtain he | ⟨e, he, hs⟩ := runItem_after hm h hw pre o it
    · rw [he]
      cases hr : runItem p o it with
      | error e => exact .inl rfl
      | ok o₁ => exact ih ((runItem_untruncated h hr).trans ho)
    · rw [he]
      exact .inr ⟨e, rfl, hs⟩

/-! ## Texts -/

theorem unboundedIds_eq (hm : ModelOk m) (limitMode : SeTokenLimit) (input : Bytes) :
    unboundedIds m limitMode input =
      (tokenResult (runItems (unbounded m limitMode) (items m input))).2 := by
  unfold unboundedIds seTokenize
  rw [seTokenizeWith_eq hm.fields.cleanText rfl]
  rfl

theorem unboundedIds_eq_ok_iff (hm : ModelOk m) {limitMode : SeTokenLimit} {input : Bytes}
    {ids : List ℕ} : unboundedIds m limitMode input = .ok ids ↔ (items m input).2 = true ∧
      ∃ o, runItemList (unbounded m limitMode) {} (items m input).1 = .ok o ∧
        o.ids.length ≤ uint32Max ∧ o.nUnk ≤ uint32Max ∧ o.ids = ids := by
  rw [unboundedIds_eq hm]
  constructor
  · intro h
    obtain ⟨o, ho, hl, hn, -, rfl⟩ := tokenResult_eq_ok_iff.mp (Prod.ext rfl h)
    obtain ⟨hr, ht⟩ := runItems_eq_ok_iff.mp ho
    have hu := runItemList_untruncated rfl rfl hr
    exact ⟨ht.resolve_left (by rw [hu]; exact nofun), o, hr, hl, hn, rfl⟩
  · rintro ⟨hok, o, hr, hl, hn, rfl⟩
    exact congrArg Prod.snd
      (tokenResult_eq_ok_iff.mpr ⟨o, runItems_eq_ok_iff.mpr ⟨hr, .inr hok⟩, hl, hn, rfl, rfl⟩)

theorem unbounded_ok_append (hm : ModelOk m) {limitMode : SeTokenLimit} {a b : Bytes}
    (hc : ItemsCut m a b) {ids : List ℕ} (h : unboundedIds m limitMode (a ++ b) = .ok ids) :
    ∃ x y, unboundedIds m limitMode a = .ok x ∧ unboundedIds m limitMode b = .ok y ∧
      ids = x ++ y := by
  obtain ⟨hok, o, hr, hl, hn, rfl⟩ := (unboundedIds_eq_ok_iff hm).mp h
  rw [hc] at hok hr
  cases ha : (items m a).2 with
  | false =>
    rw [if_neg (by simp [ha])] at hok
    rw [ha] at hok
    cases hok
  | true =>
    rw [if_pos ha] at hok hr
    rw [runItemList_append, bind_eq_ok] at hr
    obtain ⟨oa, hra, hr⟩ := hr
    have hta := runItemList_untruncated rfl rfl hra
    have hs := @runItemList_after m (unbounded m limitMode) {} hm rfl rfl oa rfl (items m b).1
    rw [TokenIds.after_empty hta, hr] at hs
    cases hrb : runItemList (unbounded m limitMode) {} (items m b).1 with
    | error e =>
      rw [hrb] at hs
      exact absurd (hs.resolve_right (not_isOom_ok _)) nofun
    | ok ob =>
      rw [hrb] at hs
      obtain rfl := Except.ok.inj (hs.resolve_right (not_isOom_ok _))
      simp only [TokenIds.after, List.length_append] at hl hn
      exact ⟨oa.ids, ob.ids,
        (unboundedIds_eq_ok_iff hm).mpr ⟨ha, oa, hra, by omega, by omega, rfl⟩,
        (unboundedIds_eq_ok_iff hm).mpr ⟨hok, ob, hrb, by omega, by omega, rfl⟩, rfl⟩

/-- A cut where the items fall apart: from the ids of the parts those of the whole, unless there
are too many of them. -/
theorem unbounded_append (hm : ModelOk m) {limitMode : SeTokenLimit} {a b : Bytes}
    (hc : ItemsCut m a b) {x y : List ℕ} (ha : unboundedIds m limitMode a = .ok x)
    (hb : unboundedIds m limitMode b = .ok y) :
    unboundedIds m limitMode (a ++ b) = .ok (x ++ y) ∨ IsOom (unboundedIds m limitMode (a ++ b)) := by
  obtain ⟨hoka, oa, hra, -, -, rfl⟩ := (unboundedIds_eq_ok_iff hm).mp ha
  obtain ⟨hokb, ob, hrb, -, -, rfl⟩ := (unboundedIds_eq_ok_iff hm).mp hb
  have hta := runItemList_untruncated rfl rfl hra
  have hs := @runItemList_after m (unbounded m limitMode) {} hm rfl rfl oa rfl (items m b).1
  rw [TokenIds.after_empty hta, hrb] at hs
  rw [unboundedIds_eq hm, hc, if_pos hoka, hokb, runItems, runItemList_append, hra]
  obtain he | ⟨e, he, hst⟩ := hs
  · rw [show (Except.ok oa >>= fun o => runItemList (unbounded m limitMode) o (items m b).1) =
      .ok (oa.after ob) from he]
    show (tokenResult (if (_ || true) = true then _ else _)).2 = _ ∨
      IsOom (tokenResult (if (_ || true) = true then _ else _)).2
    rw [Bool.or_true, if_pos rfl]
    unfold tokenResult
    dsimp only [pure, Except.pure]
    split_ifs
    · exact .inr ⟨_, rfl, rfl⟩
    · exact .inl rfl
  · rw [show (Except.ok oa >>= fun o => runItemList (unbounded m limitMode) o (items m b).1) =
      .error e from he]
    exact .inr ⟨e, rfl, hst⟩

end

end StaticEmbeddings
