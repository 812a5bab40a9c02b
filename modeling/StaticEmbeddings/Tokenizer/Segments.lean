import StaticEmbeddings.Tokenizer.Feeds

/-!
# Words

The open segment is the state of a transducer from feeds to items: words for `append_wordpiece` and
ids for `append_direct_id`.

* `Item`, `segmenter`: the transducer; `segmenter_resets_*`: the feeds that close a segment.
* `items`: the items of a byte string; `runItem`, `runItems`: what is emitted for them.
* **`seTokenizeWith_eq`**: `se_tokenize` emits the items of its input, one after the other until
  the cap.
-/

namespace StaticEmbeddings

open LittleEndian

/-- What is appended to the ids. -/
inductive Item
  | word (w : List ℕ) | direct (id : ℕ)
  deriving DecidableEq, Repr

/-- The words that a flush of the segment appends. -/
def flushItems (segment : List ℕ) : List Item := if segment = [] then [] else [.word segment]

/-- `feed_token_cp` and `append_direct_id` as a transducer whose state is the open segment. -/
def segmenter (m : SeModel) : Transducer (List ℕ) Feed Item where
  init := []
  step segment
    | .cp c =>
      if isWhitespace m c then (flushItems segment, [])
      else if isPunct m c then (flushItems segment ++ [.word [c]], [])
      else ([], segment ++ [c])
    | .added id => (flushItems segment ++ [.direct id], [])
  close := flushItems

/-- The items of a byte string, and whether it is well formed; in a malformed one the open segment
is never flushed. -/
def items (m : SeModel) (bs : Bytes) : List Item × Bool :=
  if (feeds m bs).2 then ((segmenter m).out (feeds m bs).1, true)
  else (((segmenter m).run [] (feeds m bs).1).1, false)

/-- One item appended, and the cap. -/
def runItem (p : TokenParams) (o : TokenIds) : Item → Except SeError TokenIds
  | .word w =>
    match p.wordpiece w o.ids o.nUnk (w.all (· < 0x80)) with
    | .error .oom => oom "tokenizing"
    | .error .invalid => .error ⟨.errInternal, "invalid WordPiece byte boundary"⟩
    | .ok (ids, nUnk) => .ok (capAfterAppend p { o with ids := ids, nUnk := nUnk })
  | .direct id =>
    match pushId o.ids id with
    | none => oom "adding a special token"
    | some ids =>
      .ok (capAfterAppend p
        { o with ids := ids, nUnk := if id = p.model.unkId then o.nUnk + 1 else o.nUnk })

/-- Items appended until the cap. -/
def runItemList (p : TokenParams) : TokenIds → List Item → Except SeError TokenIds :=
  StopFold.run TokenIds.truncated (runItem p)

section

variable {p : TokenParams} {o : TokenIds}

@[simp] theorem runItemList_nil : runItemList p o [] = .ok o := rfl

theorem runItemList_of_truncated (h : o.truncated = true) (its : List Item) :
    runItemList p o its = .ok o := StopFold.run_of_stop h its

theorem runItemList_cons (h : o.truncated = false) (it : Item) (its : List Item) :
    runItemList p o (it :: its) = runItem p o it >>= fun o => runItemList p o its :=
  StopFold.run_cons h it its

theorem runItemList_singleton (h : o.truncated = false) (it : Item) :
    runItemList p o [it] = runItem p o it := StopFold.run_singleton h it

theorem runItemList_append (as bs : List Item) :
    runItemList p o (as ++ bs) = runItemList p o as >>= fun o => runItemList p o bs :=
  StopFold.run_append o as bs

end

/-- The items of an input, and the failure where it is malformed. -/
def runItems (p : TokenParams) (its : List Item × Bool) : Except SeError TokenIds := do
  let o ← runItemList p {} its.1
  if o.truncated || its.2 then return o else .error invalidUtf8

theorem runItems_eq_ok_iff {p : TokenParams} {its : List Item × Bool} {o : TokenIds} :
    runItems p its = .ok o ↔
      runItemList p {} its.1 = .ok o ∧ (o.truncated = true ∨ its.2 = true) := by
  rw [runItems, bind_eq_ok]
  refine ⟨fun ⟨o', h₁, h₂⟩ => ?_, fun ⟨h₁, h₂⟩ => ⟨o, h₁, if_pos (by simpa using h₂)⟩⟩
  split_ifs at h₂ with hs
  cases h₂
  exact ⟨h₁, by simpa using hs⟩

theorem tokenResult_eq_ok_iff {x : Except SeError TokenIds} {stats : SeTokenStats} {ids : List ℕ} :
    tokenResult x = (stats, .ok ids) ↔ ∃ o, x = .ok o ∧ o.ids.length ≤ uint32Max ∧
      o.nUnk ≤ uint32Max ∧ stats = ⟨o.ids.length, o.nUnk, o.truncated⟩ ∧ ids = o.ids := by
  rcases x with e | o
  · exact ⟨fun h => (by cases h), fun ⟨_, h, _⟩ => (by cases h)⟩
  · rw [tokenResult]
    split_ifs with hb
    · refine ⟨fun h => (by cases h), fun ⟨o', h, h₁, h₂, _⟩ => ?_⟩
      cases h
      omega
    · refine ⟨fun h => ?_, fun ⟨o', h, h₁, h₂, h₃, h₄⟩ => ?_⟩
      · cases h
        exact ⟨o, rfl, by omega, by omega, rfl, rfl⟩
      · cases h
        rw [h₃, h₄]

/-! ## The transducer -/

section

variable {m : SeModel} {c : ℕ}

@[simp] theorem flushItems_nil : flushItems [] = [] := rfl

theorem segmenter_resets_whitespace (h : isWhitespace m c = true) : (segmenter m).Resets (.cp c) :=
  fun s => by simp [segmenter, h]

theorem segmenter_resets_punct (h : isPunct m c = true) : (segmenter m).Resets (.cp c) := fun s => by
  by_cases hw : isWhitespace m c = true
  · exact segmenter_resets_whitespace hw s
  · simp [segmenter, hw, h]

theorem segmenter_resets_added (id : ℕ) : (segmenter m).Resets (.added id) := fun s => by
  simp [segmenter]

end

/-! ## The tokenizer emits the items -/

section

variable {p : TokenParams} {st : TokenState} {seg : List ℕ}

/-- The tokenizer's segment is `seg`, and `segment_ascii` says exactly whether it is ASCII. -/
def Segment (st : TokenState) (seg : List ℕ) : Prop :=
  st.segment = seg ∧ st.segmentAscii = seg.all (· < 0x80)

/-- A concrete step has emitted `o` and left the segment `seg`. -/
abbrev Emits (r : Except SeError TokenState) (o : Except SeError TokenIds) (seg : List ℕ) : Prop :=
  Transducer.Simulates TokenIds.truncated TokenState.toTokenIds Segment r o seg

theorem appendWordpiece_eq {word : List ℕ} (h : knownAscii st word = word.all (· < 0x80)) :
    appendWordpiece p st word =
      (runItem p st.toTokenIds (.word word)).map fun o => { st with toTokenIds := o } := by
  rw [appendWordpiece, runItem, h]
  rcases p.wordpiece word st.ids st.nUnk (word.all (· < 0x80)) with (_ | _) | ⟨ids, nUnk⟩ <;> rfl

theorem appendDirectId_eq (id : ℕ) : appendDirectId p st id =
    (runItem p st.toTokenIds (.direct id)).map fun o => { st with toTokenIds := o } := by
  rw [appendDirectId, runItem]
  rcases pushId st.ids id with _ | ids <;> rfl

theorem knownAscii_segment (h : Segment st seg) : knownAscii st seg = seg.all (· < 0x80) := by
  obtain ⟨-, h⟩ := h
  unfold knownAscii
  split
  · simp
  · exact h

theorem flushSegment_emits (h : Segment st seg) (hs : st.truncated = false) :
    Emits (flushSegment p st) (runItemList p st.toTokenIds (flushItems seg)) [] := by
  obtain ⟨rfl, ha⟩ := h
  unfold flushSegment flushItems
  split_ifs with hn
  · refine ⟨rfl, fun _ => ⟨hn, ?_⟩⟩
    rw [ha, hn]
  · rw [appendWordpiece_eq (knownAscii_segment ⟨rfl, ha⟩), runItemList_singleton hs]
    rcases runItem p st.toTokenIds (.word st.segment) with e | o
    · exact rfl
    · exact ⟨rfl, fun _ => ⟨rfl, rfl⟩⟩

theorem flushSegment_bind_emits (h : Segment st seg) (hs : st.truncated = false) (it : Item)
    {f : TokenState → Except SeError TokenState}
    (hf : ∀ st, f st = (runItem p st.toTokenIds it).map fun o => { st with toTokenIds := o }) :
    Emits (flushSegment p st >>= fun st => if st.truncated then pure st else f st)
      (runItemList p st.toTokenIds (flushItems seg ++ [it])) [] := by
  have hflush : Emits (flushSegment p st) (runItemList p st.toTokenIds (flushItems seg)) [] :=
    flushSegment_emits h hs
  rw [runItemList_append]
  rcases hr : flushSegment p st with e | st₁
  · rw [hr] at hflush
    rw [show runItemList p st.toTokenIds (flushItems seg) = .error e from hflush]
    exact rfl
  rw [hr] at hflush
  obtain ⟨ho, hseg⟩ := hflush
  rw [ho]
  show Emits (if st₁.truncated then pure st₁ else f st₁) (runItemList p st₁.toTokenIds [it]) []
  by_cases h₁ : st₁.truncated = true
  · rw [if_pos h₁, runItemList_of_truncated h₁]
    exact ⟨rfl, hseg⟩
  · rw [if_neg h₁, runItemList_singleton (by simpa using h₁), hf]
    rcases runItem p st₁.toTokenIds it with e | o
    · exact rfl
    · exact ⟨rfl, fun _ => hseg (by simpa using h₁)⟩

theorem feedEvent_emits (e : Feed) (h : Segment st seg) (hs : st.truncated = false) :
    Emits (feedEvent p st e) (runItemList p st.toTokenIds ((segmenter p.model).step seg e).1)
      ((segmenter p.model).step seg e).2 := by
  rcases e with c | id
  · simp only [feedEvent, feedTokenCp, segmenter]
    split_ifs with hw hp
    · exact flushSegment_emits h hs
    · exact flushSegment_bind_emits h hs _ fun st => appendWordpiece_eq (by simp [knownAscii])
    · obtain ⟨rfl, ha⟩ := h
      refine ⟨rfl, fun _ => ⟨rfl, ?_⟩⟩
      simp only [appendSegmentCp, List.all_append, List.all_cons, List.all_nil, Bool.and_true, ← ha]
      by_cases hc : c < 0x80
      · simp [hc]
      · simp [hc, show 0x80 ≤ c by omega]
  · exact flushSegment_bind_emits h hs _ fun st => appendDirectId_eq id

theorem feedEvents_emit (p : TokenParams) (fs : List Feed) :
    Emits (StopFold.run halted (feedEvent p) {} fs)
      (runItemList p {} ((segmenter p.model).run [] fs).1) ((segmenter p.model).run [] fs).2 :=
  Transducer.simulates_run (fun _ _ e hs h => feedEvent_emits e h hs) (fun _ => ⟨rfl, rfl⟩) fs

theorem finalFlush_eq (h : st.truncated = false → Segment st seg) :
    finalFlush p st = runItemList p st.toTokenIds (flushItems seg) := by
  unfold finalFlush
  by_cases hs : st.truncated = true
  · rw [if_pos hs, runItemList_of_truncated hs]
    rfl
  · have hs : st.truncated = false := by simpa using hs
    have hflush : Emits (flushSegment p st) (runItemList p st.toTokenIds (flushItems seg)) [] :=
      flushSegment_emits (h hs) hs
    rw [if_neg (by simp [hs])]
    rcases hr : flushSegment p st with e | st₁
    · rw [hr] at hflush
      rw [show runItemList p st.toTokenIds (flushItems seg) = .error e from hflush]
      rfl
    · rw [hr] at hflush
      rw [hflush.1]
      rfl

/-- **`se_tokenize` emits the items of its input.** -/
theorem seTokenizeWith_eq (hm : p.model.cleanText = 1) (hc : p.cancelled = neverCancelled)
    (input : Bytes) : seTokenizeWith p input = tokenResult (runItems p (items p.model input)) := by
  have hrun := feedEvents_emit p (feeds p.model input).1
  rw [seTokenizeWith, tokenizeLoop_eq hm hc rfl, List.drop_zero]
  congr 1
  unfold performFeeds runItems items
  -- the concrete run fails, stops or ends exactly as the run over the items does
  rcases hr : StopFold.run halted (feedEvent p) {} (feeds p.model input).1 with e | st
  · rw [hr] at hrun
    have ho : runItemList p {} ((segmenter p.model).run [] (feeds p.model input).1).1 = .error e :=
      hrun
    split_ifs
    · rw [Transducer.out, runItemList_append, show (segmenter p.model).init = [] from rfl, ho]
      rfl
    · rw [ho]
      rfl
  rw [hr] at hrun
  obtain ⟨ho, hseg⟩ := hrun
  rcases hok : (feeds p.model input).2 with _ | _
  · rw [if_neg (by simp), ho]
    show (if (st.truncated || false) = true then _ else _) >>= finalFlush p =
      if (st.truncated || false) = true then pure st.toTokenIds else .error invalidUtf8
    rcases ht : st.truncated with _ | _
    · rfl
    · show finalFlush p st = .ok st.toTokenIds
      rw [finalFlush_eq hseg, runItemList_of_truncated ht]
  · rw [if_pos rfl, Transducer.out, runItemList_append, show (segmenter p.model).init = [] from rfl,
      ho]
    simp only [Bool.or_true, if_true]
    show finalFlush p st = runItemList p st.toTokenIds _ >>= fun o => pure o
    rw [finalFlush_eq hseg, bind_pure]
    rfl

end

end StaticEmbeddings
