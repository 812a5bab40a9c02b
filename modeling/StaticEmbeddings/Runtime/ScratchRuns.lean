import StaticEmbeddings.Runtime.Scratch

/-!
# Who owns a scratch

* `Wf`: every block of a scratch is live, has the recorded capacity and belongs to one buffer only.
* `grow_spec`, `shrink_spec`, `growAll_spec`, `seScratchFree_spec`: what growing, shrinking and
  freeing keep.
* `RunInv`: the invariant of a thread; `RunInv.step`: every call keeps it, `RunInv.run`: so does a
  sequence of calls.
* **`scratch_ownership`**: what holds after every sequence of calls.
-/

namespace StaticEmbeddings

open Ownership

/-- What a block is used for. -/
inductive Owner
  | scratch (a : ℕ)
  | buffer (a : ℕ) (f : BufferName)
  deriving DecidableEq

open Classical in
/-- The blocks behind the scratches at the addresses in `structs`. -/
noncomputable def holdings (s : ThreadState) (structs : Set ℕ) : Holdings Owner
  | .scratch a =>
    if a ∈ structs then some (a, if s.tls = some a then tlsScratchSize else scratchSize) else none
  | .buffer a f =>
    if a ∈ structs then
      (s.scratches a f).ptr.map fun p => (p, (s.scratches a f).cap * f.elemSize)
    else none

/-- Every block has one owner, and a buffer without a block has no capacity. -/
structure Wf (s : ThreadState) (structs : Set ℕ) : Prop where
  owned : Owned s.blocks (holdings s structs)
  empty : ∀ a ∈ structs, ∀ f, (s.scratches a f).ptr = none → (s.scratches a f).cap = 0

/-- Only the scratch at `a` and the heap have changed. -/
structure Keeps (a : ℕ) (s s' : ThreadState) : Prop where
  tls : s'.tls = s.tls
  inUse : s'.inUse = s.inUse
  scratches : ∀ b, b ≠ a → s'.scratches b = s.scratches b

theorem Keeps.refl (a : ℕ) (s : ThreadState) : Keeps a s s := ⟨rfl, rfl, fun _ _ => rfl⟩

theorem Keeps.trans {a : ℕ} {s s' s'' : ThreadState} (h : Keeps a s s') (h' : Keeps a s' s'') :
    Keeps a s s'' :=
  ⟨h'.tls.trans h.tls, h'.inUse.trans h.inUse,
    fun b hb => (h'.scratches b hb).trans (h.scratches b hb)⟩

section

variable {s s' : ThreadState} {structs : Set ℕ} {a : ℕ} {f : BufferName}

theorem holdings_congr {structs' : Set ℕ} {x : Owner}
    (hs : ∀ b, (x = .scratch b ∨ ∃ f, x = .buffer b f) → (b ∈ structs' ↔ b ∈ structs)) :
    holdings s structs' x = holdings s structs x := by
  cases x with
  | scratch b =>
    have hiff := hs b (.inl rfl)
    by_cases hb : b ∈ structs
    · simp only [holdings, hiff.mpr hb, hb, if_true]
    · simp only [holdings, mt hiff.mp hb, hb, if_false]
  | buffer b f =>
    have hiff := hs b (.inr ⟨f, rfl⟩)
    by_cases hb : b ∈ structs
    · simp only [holdings, hiff.mpr hb, hb, if_true]
    · simp only [holdings, mt hiff.mp hb, hb, if_false]

theorem Wf.congr (h : Wf s structs) (hblocks : s'.blocks = s.blocks)
    (htls : ∀ b ∈ structs, (s'.tls = some b ↔ s.tls = some b))
    (hs : ∀ b ∈ structs, s'.scratches b = s.scratches b) : Wf s' structs := by
  have hhold : holdings s' structs = holdings s structs := by
    funext x
    cases x with
    | scratch b =>
      by_cases hb : b ∈ structs
      · simp only [holdings, hb, if_true, htls b hb]
      · simp only [holdings, hb, if_false]
    | buffer b f =>
      by_cases hb : b ∈ structs
      · simp only [holdings, hb, if_true, hs b hb]
      · simp only [holdings, hb, if_false]
  refine ⟨?_, fun b hb f => ?_⟩
  · rw [hblocks, hhold]
    exact h.owned
  · rw [hs b hb]
    exact h.empty b hb f

theorem setBuffer_self (s : ThreadState) (a : ℕ) (f : BufferName) (b : Buffer) :
    (s.setBuffer a f b).scratches a f = b := by
  simp [ThreadState.setBuffer]

theorem setBuffer_of_ne (s : ThreadState) (a : ℕ) {f g : BufferName} (h : g ≠ f) (b : Buffer) :
    (s.setBuffer a f b).scratches a g = s.scratches a g := by
  simp [ThreadState.setBuffer, h]

theorem setBuffer_scratches_of_ne (s : ThreadState) {a c : ℕ} (h : c ≠ a) (f : BufferName)
    (b : Buffer) : (s.setBuffer a f b).scratches c = s.scratches c := by
  simp [ThreadState.setBuffer, h]

theorem setBuffer_same (s : ThreadState) (a : ℕ) (f : BufferName) :
    s.setBuffer a f (s.scratches a f) = s := by
  simp [ThreadState.setBuffer]

theorem holdings_setBuffer (ha : a ∈ structs) (b : Buffer) :
    holdings (s.setBuffer a f b) structs =
      Function.update (holdings s structs) (.buffer a f)
        (b.ptr.map fun p => (p, b.cap * f.elemSize)) := by
  funext x
  by_cases hx : x = .buffer a f
  · rw [hx, Function.update_self]
    simp [holdings, ha, setBuffer_self]
  · rw [Function.update_of_ne hx]
    cases x with
    | scratch c => rfl
    | buffer c g =>
      by_cases hc : c = a
      · have hg : g ≠ f := fun hg => hx (by rw [hc, hg])
        simp only [holdings, hc, setBuffer_of_ne s a hg]
      · simp only [holdings, setBuffer_scratches_of_ne s hc]

/-! ## The allocator -/

theorem seRealloc_cases (ptr : Option ℕ) (bytes : ℕ) (s : ThreadState) :
    (∃ choices, seRealloc ptr bytes s = (none, { s with choices := choices })) ∨
      ∃ q choices, freed s.blocks ptr q = none ∧ seRealloc ptr bytes s =
        (some q, { s with
          blocks := Function.update (freed s.blocks ptr) q (some bytes), choices := choices }) := by
  unfold seRealloc
  split
  · exact .inl ⟨s.choices, rfl⟩
  · exact .inl ⟨_, rfl⟩
  · rename_i q rest _
    by_cases hq : freed s.blocks ptr q = none
    · exact .inr ⟨q, rest, hq, if_pos hq⟩
    · exact .inl ⟨rest, if_neg hq⟩

theorem Wf.realloc (h : Wf s structs) (ha : a ∈ structs) {q cap : ℕ} (choices : List (Option ℕ))
    (hq : freed s.blocks (s.scratches a f).ptr q = none) :
    Wf ({ s with
      blocks := Function.update (freed s.blocks (s.scratches a f).ptr) q (some (cap * f.elemSize)),
      choices := choices }.setBuffer a f ⟨some q, cap⟩) structs := by
  constructor
  · rw [holdings_setBuffer ha]
    cases hp : (s.scratches a f).ptr with
    | none =>
      rw [hp] at hq
      exact h.owned.alloc hq
    | some p =>
      rw [hp] at hq
      have hheld : holdings s structs (.buffer a f) =
          some (p, (s.scratches a f).cap * f.elemSize) := by
        simp [holdings, ha, hp]
      exact h.owned.realloc hheld hq
  · intro b hb g hnone
    by_cases hba : b = a
    · subst hba
      by_cases hgf : g = f
      · subst hgf
        rw [setBuffer_self] at hnone
        cases hnone
      · rw [setBuffer_of_ne _ _ hgf] at hnone ⊢
        exact h.empty b hb g hnone
    · rw [setBuffer_scratches_of_ne _ hba] at hnone ⊢
      exact h.empty b hb g hnone

theorem Wf.withChoices (h : Wf s structs) (choices : List (Option ℕ)) :
    Wf { s with choices := choices } structs :=
  h.congr rfl (fun _ _ => Iff.rfl) fun _ _ => rfl

/-! ## Growing and shrinking -/

/-- Only one buffer of the scratch at `a` has changed. -/
structure Touched (structs : Set ℕ) (a : ℕ) (f : BufferName) (s s' : ThreadState) : Prop where
  wf : Wf s' structs
  keeps : Keeps a s s'
  buffers : ∀ g, g ≠ f → s'.scratches a g = s.scratches a g

theorem touched_setBuffer {blocks : Blocks} {choices : List (Option ℕ)} {b : Buffer}
    (h : Wf ({ s with blocks := blocks, choices := choices }.setBuffer a f b) structs) :
    Touched structs a f s ({ s with blocks := blocks, choices := choices }.setBuffer a f b) :=
  ⟨h, ⟨rfl, rfl, fun _ hc => setBuffer_scratches_of_ne _ hc f b⟩,
    fun _ hg => setBuffer_of_ne _ a hg b⟩

theorem touched_withChoices (h : Wf s structs) (choices : List (Option ℕ)) :
    Touched structs a f s { s with choices := choices } :=
  ⟨h.withChoices choices, ⟨rfl, rfl, fun _ _ => rfl⟩, fun _ _ => rfl⟩

theorem le_of_nextCapacityLoop {need next n : ℕ} {hpos : 0 < next}
    (h : nextCapacityLoop need next hpos = some n) : need ≤ n := by
  rw [nextCapacityLoop] at h
  split_ifs at h with hlt hover
  · exact le_of_nextCapacityLoop h
  · cases h
    exact not_lt.mp hlt
termination_by need - next
decreasing_by
  unfold seSizeMax at hover
  omega

theorem le_of_seNextCapacity {current need minCapacity n : ℕ}
    (h : seNextCapacity current need minCapacity = some n) : need ≤ n := by
  unfold seNextCapacity at h
  simp only at h
  split_ifs at h <;> exact le_of_nextCapacityLoop h

theorem grow_cases (minCapacity a : ℕ) (f : BufferName) (need : ℕ) (s : ThreadState) :
    (need ≤ (s.scratches a f).cap ∧
      grow minCapacity a f need s = ((s.scratches a f).ptr.isSome, s)) ∨
    (∃ choices, grow minCapacity a f need s = (false, { s with choices := choices })) ∨
    ∃ q cap choices, need ≤ cap ∧ freed s.blocks (s.scratches a f).ptr q = none ∧
      grow minCapacity a f need s = (true, { s with
        blocks := Function.update (freed s.blocks (s.scratches a f).ptr) q
          (some (cap * f.elemSize)),
        choices := choices }.setBuffer a f ⟨some q, cap⟩) := by
  have hsame : ∀ s : ThreadState,
      s.setBuffer a f ⟨(s.scratches a f).ptr, (s.scratches a f).cap⟩ = s :=
    fun s => setBuffer_same s a f
  unfold grow growBuffer
  by_cases hcap : (s.scratches a f).cap ≥ need
  · left
    simp only [if_pos hcap]
    cases hp : (s.scratches a f).ptr with
    | none =>
      have := hsame s
      rw [hp] at this
      exact ⟨hcap, by simp [this]⟩
    | some p =>
      have := hsame s
      rw [hp] at this
      exact ⟨hcap, by simp [this]⟩
  · right
    simp only [if_neg hcap]
    cases hnext : seNextCapacity (s.scratches a f).cap need minCapacity with
    | none => exact .inl ⟨s.choices, by simp [hsame]⟩
    | some next =>
      have hneed := le_of_seNextCapacity hnext
      cases hbytes : seArrayBytes next f.elemSize with
      | none => exact .inl ⟨s.choices, by simp [hbytes, hsame]⟩
      | some bytes =>
        have hsize : bytes = next * f.elemSize := by
          rw [seArrayBytes, seCheckedMulSize_eq] at hbytes
          split_ifs at hbytes
          cases hbytes
          rfl
        subst hsize
        obtain ⟨choices, hr⟩ | ⟨q, choices, hq, hr⟩ :=
          seRealloc_cases (s.scratches a f).ptr (next * f.elemSize) s
        · refine .inl ⟨choices, ?_⟩
          simp only [Option.bind_some, hbytes, Option.map_some, hr]
          exact congrArg (Prod.mk false) (hsame { s with choices := choices })
        · exact .inr ⟨q, next, choices, hneed, hq, by simp [hbytes, hr]⟩

/-- **Growing a buffer**: the capacity is that of the block, and it is enough after a success. -/
theorem grow_spec (h : Wf s structs) (ha : a ∈ structs) (minCapacity need : ℕ) :
    Touched structs a f s (grow minCapacity a f need s).2 ∧
      ((grow minCapacity a f need s).1 = true →
        need ≤ ((grow minCapacity a f need s).2.scratches a f).cap ∧
        ((grow minCapacity a f need s).2.scratches a f).ptr.isSome) := by
  obtain ⟨hcap, hr⟩ | ⟨choices, hr⟩ | ⟨q, cap, choices, hneed, hq, hr⟩ :=
    grow_cases minCapacity a f need s
  · rw [hr]
    exact ⟨⟨h, .refl a s, fun _ _ => rfl⟩, fun hok => ⟨hcap, hok⟩⟩
  · rw [hr]
    exact ⟨touched_withChoices h choices, fun hok => absurd hok Bool.false_ne_true⟩
  · rw [hr]
    refine ⟨touched_setBuffer (h.realloc ha choices hq), fun _ => ?_⟩
    rw [setBuffer_self]
    exact ⟨hneed, rfl⟩

theorem shrink_cases (a : ℕ) (f : BufferName) (keep : ℕ) (s : ThreadState) :
    ((s.scratches a f).cap ≤ keep ∧ shrink a f keep s = (true, s)) ∨
    ((s.scratches a f).ptr = none ∧ shrink a f keep s = (true, s.setBuffer a f ⟨none, 0⟩)) ∨
    (∃ choices, shrink a f keep s = (false, { s with choices := choices })) ∨
    ∃ q choices, freed s.blocks (s.scratches a f).ptr q = none ∧
      shrink a f keep s = (true, { s with
        blocks := Function.update (freed s.blocks (s.scratches a f).ptr) q
          (some (keep * f.elemSize)),
        choices := choices }.setBuffer a f ⟨some q, keep⟩) := by
  unfold shrink
  by_cases hcap : (s.scratches a f).cap ≤ keep
  · exact .inl ⟨hcap, if_pos hcap⟩
  · right
    simp only [if_neg hcap]
    cases hp : (s.scratches a f).ptr with
    | none => exact .inl ⟨rfl, rfl⟩
    | some p =>
      right
      simp only [seArrayBytes, seCheckedMulSize_eq]
      split_ifs with hmax
      · obtain ⟨choices, hr⟩ | ⟨q, choices, hq, hr⟩ :=
          seRealloc_cases (some p) (keep * f.elemSize) s
        · exact .inl ⟨choices, by simp only [hr]⟩
        · exact .inr ⟨q, choices, hq, by simp only [hr]⟩
      · exact .inl ⟨s.choices, rfl⟩

/-- **Shrinking a buffer**: the capacity is that of the block, and small after a success. -/
theorem shrink_spec (h : Wf s structs) (ha : a ∈ structs) (keep : ℕ) :
    Touched structs a f s (shrink a f keep s).2 ∧
      ((shrink a f keep s).1 = true → ((shrink a f keep s).2.scratches a f).cap ≤ keep) := by
  obtain ⟨hcap, hr⟩ | ⟨hnone, hr⟩ | ⟨choices, hr⟩ | ⟨q, choices, hq, hr⟩ :=
    shrink_cases a f keep s
  · rw [hr]
    exact ⟨⟨h, .refl a s, fun _ _ => rfl⟩, fun _ => hcap⟩
  · have hb : s.scratches a f = ⟨none, 0⟩ := by
      rw [← hnone, ← h.empty a ha f hnone]
    rw [hr, ← hb, setBuffer_same]
    exact ⟨⟨h, .refl a s, fun _ _ => rfl⟩, fun _ => by rw [hb]; exact Nat.zero_le keep⟩
  · rw [hr]
    exact ⟨touched_withChoices h choices, fun hok => absurd hok Bool.false_ne_true⟩
  · rw [hr]
    refine ⟨touched_setBuffer (h.realloc ha choices hq), fun _ => ?_⟩
    rw [setBuffer_self]

theorem growNamed_spec (h : Wf s structs) (ha : a ∈ structs) (need : ℕ) :
    Touched structs a f s (growNamed a f need s).2 ∧
      ((growNamed a f need s).1 = true →
        need ≤ ((growNamed a f need s).2.scratches a f).cap ∧
        ((growNamed a f need s).2.scratches a f).ptr.isSome) := by
  cases f <;> exact grow_spec h ha _ need

/-- **Growing several buffers**, each at most once. -/
theorem growAll_spec {needs : List (BufferName × ℕ)} (hd : (needs.map Prod.fst).Nodup)
    (h : Wf s structs) (ha : a ∈ structs) :
    Wf (growAll a needs s).2 structs ∧ Keeps a s (growAll a needs s).2 ∧
      (∀ g ∉ needs.map Prod.fst, (growAll a needs s).2.scratches a g = s.scratches a g) ∧
      ((growAll a needs s).1 = true → ∀ p ∈ needs,
        p.2 ≤ ((growAll a needs s).2.scratches a p.1).cap ∧
        ((growAll a needs s).2.scratches a p.1).ptr.isSome) := by
  induction needs generalizing s with
  | nil => exact ⟨h, .refl a s, fun _ _ => rfl, fun _ p hp => absurd hp List.not_mem_nil⟩
  | cons q needs ih =>
    obtain ⟨f, need⟩ := q
    obtain ⟨ht, hcap⟩ := @growNamed_spec s structs a f h ha need
    rw [List.map_cons, List.nodup_cons] at hd
    rw [growAll]
    cases hr : growNamed a f need s with
    | mk ok s' =>
    rw [hr] at ht hcap
    cases ok with
    | false =>
      refine ⟨ht.wf, ht.keeps, fun g hg => ht.buffers g fun hgf => ?_, fun hok =>
        absurd hok Bool.false_ne_true⟩
      exact hg (by simp [hgf])
    | true =>
      obtain ⟨hwf, hkeeps, hother, hall⟩ := ih hd.2 ht.wf
      refine ⟨hwf, ht.keeps.trans hkeeps, fun g hg => ?_, fun hok p hp => ?_⟩
      · rw [List.map_cons, List.mem_cons, not_or] at hg
        exact (hother g hg.2).trans (ht.buffers g hg.1)
      · rw [List.mem_cons] at hp
        obtain rfl | hp := hp
        · rw [hother f hd.1]
          exact hcap rfl
        · exact hall hok p hp

/-- **`se_scratch_reserve`**. -/
theorem seScratchReserve_spec (h : Wf s structs) (ha : a ∈ structs) (dim : ℕ) :
    Wf (seScratchReserve a dim s).2 structs ∧ Keeps a s (seScratchReserve a dim s).2 ∧
      ((seScratchReserve a dim s).1 = true → ∀ p ∈ reservation dim,
        p.2 ≤ ((seScratchReserve a dim s).2.scratches a p.1).cap ∧
        ((seScratchReserve a dim s).2.scratches a p.1).ptr.isSome) := by
  obtain ⟨hwf, hkeeps, -, hall⟩ :=
    @growAll_spec s structs a (reservation dim) (by simp [reservation]) h ha
  exact ⟨hwf, hkeeps, hall⟩

/-- What is left of a slot after a trim that succeeded. -/
structure Trimmed (scratch : Scratch) : Prop where
  cps : (scratch .cps).cap ≤ cpsKeep
  cps2 : (scratch .cps2).cap ≤ cpsKeep
  ids : (scratch .ids).cap ≤ idsRetainMax
  bytes : (scratch .bytes).cap ≤ bytesKeep

/-- The identifiers are only trimmed above their limit. -/
theorem shrinkIds_spec (h : Wf s structs) (ha : a ∈ structs) (keep : ℕ) :
    let r := if (s.scratches a f).cap > keep then shrink a f keep s else (true, s)
    Touched structs a f s r.2 ∧ (r.1 = true → (r.2.scratches a f).cap ≤ keep) := by
  intro r
  by_cases hcap : (s.scratches a f).cap > keep
  · have hr : r = shrink a f keep s := if_pos hcap
    rw [hr]
    exact shrink_spec h ha keep
  · have hr : r = (true, s) := if_neg hcap
    rw [hr]
    exact ⟨⟨h, .refl a s, fun _ _ => rfl⟩, fun _ => not_lt.mp hcap⟩

/-- **`se_scratch_trim`**. -/
theorem seScratchTrim_spec (h : Wf s structs) (ha : a ∈ structs) :
    Wf (seScratchTrim a s).2 structs ∧ Keeps a s (seScratchTrim a s).2 ∧
      ((seScratchTrim a s).1 = true → Trimmed ((seScratchTrim a s).2.scratches a)) := by
  obtain ⟨h₁, hc₁⟩ := @shrink_spec s structs a .cps h ha cpsKeep
  obtain ⟨h₂, hc₂⟩ := @shrink_spec _ structs a .cps2 h₁.wf ha cpsKeep
  obtain ⟨h₃, hc₃⟩ := @shrinkIds_spec _ structs a .ids h₂.wf ha idsRetainMax
  obtain ⟨h₄, hc₄⟩ := @shrink_spec _ structs a .bytes h₃.wf ha bytesKeep
  refine ⟨h₄.wf, ((h₁.keeps.trans h₂.keeps).trans h₃.keeps).trans h₄.keeps, fun hok => ?_⟩
  simp only [seScratchTrim, Bool.and_eq_true] at hok
  obtain ⟨⟨⟨ok₁, ok₂⟩, ok₃⟩, ok₄⟩ := hok
  constructor
  · refine le_trans (le_of_eq (congrArg Buffer.cap ?_)) (hc₁ ok₁)
    exact (h₄.buffers _ (by decide)).trans ((h₃.buffers _ (by decide)).trans
      (h₂.buffers _ (by decide)))
  · refine le_trans (le_of_eq (congrArg Buffer.cap ?_)) (hc₂ ok₂)
    exact (h₄.buffers _ (by decide)).trans (h₃.buffers _ (by decide))
  · refine le_trans (le_of_eq (congrArg Buffer.cap ?_)) (hc₃ ok₃)
    exact h₄.buffers _ (by decide)
  · exact hc₄ ok₄

/-! ## Freeing -/

theorem freeBuffer_spec (h : Wf s structs) (ha : a ∈ structs) :
    Touched structs a f s
      ((seFree (s.scratches a f).ptr s).setBuffer a f ⟨none, 0⟩) := by
  refine ⟨⟨?_, fun b hb g hnone => ?_⟩, ⟨rfl, rfl, fun _ hc => setBuffer_scratches_of_ne _ hc _ _⟩,
    fun _ hg => setBuffer_of_ne _ a hg _⟩
  · rw [holdings_setBuffer ha]
    cases hp : (s.scratches a f).ptr with
    | none =>
      have hnone : holdings s structs (.buffer a f) = none := by simp [holdings, ha, hp]
      have hsame := Function.update_eq_self (Owner.buffer a f) (holdings s structs)
      rw [hnone] at hsame
      have howned := h.owned
      rw [← hsame] at howned
      exact howned
    | some p =>
      have hheld : holdings s structs (.buffer a f) =
          some (p, (s.scratches a f).cap * f.elemSize) := by
        simp [holdings, ha, hp]
      exact h.owned.free hheld
  · by_cases hba : b = a
    · subst hba
      by_cases hgf : g = f
      · subst hgf
        rw [setBuffer_self]
      · rw [setBuffer_of_ne _ _ hgf] at hnone ⊢
        exact h.empty b hb g hnone
    · rw [setBuffer_scratches_of_ne _ hba] at hnone ⊢
      exact h.empty b hb g hnone

theorem freeBuffers_spec (names : List BufferName) (h : Wf s structs) (ha : a ∈ structs) :
    let s' := names.foldl
      (fun s f => (seFree (s.scratches a f).ptr s).setBuffer a f ⟨none, 0⟩) s
    Wf s' structs ∧ Keeps a s s' ∧
      ∀ f, f ∈ names ∨ (s.scratches a f).ptr = none → (s'.scratches a f).ptr = none := by
  induction names generalizing s with
  | nil =>
    refine ⟨h, .refl a s, fun f hf => ?_⟩
    exact hf.resolve_left List.not_mem_nil
  | cons f names ih =>
    have ht := @freeBuffer_spec s structs a f h ha
    obtain ⟨hwf, hkeeps, hnone⟩ := ih ht.wf
    refine ⟨hwf, ht.keeps.trans hkeeps, fun g hg => ?_⟩
    by_cases hgf : g = f
    · subst hgf
      exact hnone g (.inr (by rw [setBuffer_self]))
    · apply hnone g
      rw [List.mem_cons] at hg
      rw [ht.buffers g hgf]
      exact hg.imp_left fun h => h.resolve_left hgf

theorem seScratchFree_spec (h : Wf s structs) (ha : a ∈ structs) :
    Wf (seScratchFree a s) structs ∧ Keeps a s (seScratchFree a s) ∧
      ∀ f, ((seScratchFree a s).scratches a f).ptr = none := by
  obtain ⟨hwf, hkeeps, hnone⟩ := freeBuffers_spec [.cps, .cps2, .bytes, .ids, .acc] h ha
  exact ⟨hwf, hkeeps, fun f => hnone f (.inl (by cases f <;> simp))⟩

theorem Wf.freeScratch (h : Wf s structs) (ha : a ∈ structs)
    (hnone : ∀ f, (s.scratches a f).ptr = none) : Wf (seFree (some a) s) (structs \ {a}) := by
  have hheld : holdings s structs (.scratch a) =
      some (a, if s.tls = some a then tlsScratchSize else scratchSize) := by
    simp [holdings, ha]
  have hhold : holdings (seFree (some a) s) (structs \ {a}) =
      Function.update (holdings s structs) (.scratch a) none := by
    funext x
    by_cases hx : x = .scratch a
    · rw [hx, Function.update_self]
      simp [holdings]
    · rw [Function.update_of_ne hx]
      by_cases hbuf : ∃ f, x = .buffer a f
      · obtain ⟨f, rfl⟩ := hbuf
        simp [holdings, hnone]
      · refine (holdings_congr fun b hb => and_iff_left ?_ :
          holdings s (structs \ {a}) x = holdings s structs x)
        rintro rfl
        exact hb.elim hx hbuf
  refine ⟨?_, fun b hb f => h.empty b hb.1 f⟩
  rw [hhold]
  exact h.owned.free hheld

theorem Wf.not_mem_of_fresh (h : Wf s structs) {p : ℕ} (hp : s.blocks p = none) : p ∉ structs := by
  intro hmem
  have hlive := h.owned.live (.scratch p) p _ (by simp only [holdings, hmem, if_true]; rfl)
  rw [hp] at hlive
  cases hlive

theorem Wf.newScratch (h : Wf s structs) {p size : ℕ} {tls : Option ℕ} {inUse : Bool}
    {choices : List (Option ℕ)} (hp : s.blocks p = none)
    (htls : ∀ b ∈ structs, (tls = some b ↔ s.tls = some b))
    (hsize : size = if tls = some p then tlsScratchSize else scratchSize) :
    Wf ⟨Function.update s.blocks p (some size), choices,
      Function.update s.scratches p emptyScratch, tls, inUse⟩ (insert p structs) := by
  have hnew := h.not_mem_of_fresh hp
  have hhold : holdings ⟨Function.update s.blocks p (some size), choices,
      Function.update s.scratches p emptyScratch, tls, inUse⟩ (insert p structs) =
      Function.update (holdings s structs) (.scratch p) (some (p, size)) := by
    funext x
    by_cases hx : x = .scratch p
    · rw [hx, Function.update_self, hsize]
      simp [holdings]
    · rw [Function.update_of_ne hx]
      cases x with
      | scratch b =>
        have hbp : b ≠ p := fun hbp => hx (by rw [hbp])
        by_cases hb : b ∈ structs
        · simp only [holdings, Set.mem_insert_iff, hbp, hb, false_or, if_true, htls b hb]
        · simp only [holdings, Set.mem_insert_iff, hbp, hb, false_or, if_false]
      | buffer b f =>
        by_cases hbp : b = p
        · simp [holdings, hbp, hnew, emptyScratch]
        · by_cases hb : b ∈ structs
          · simp only [holdings, Set.mem_insert_iff, hbp, hb, false_or, if_true,
              Function.update_of_ne hbp]
          · simp only [holdings, Set.mem_insert_iff, hbp, hb, false_or, if_false]
  constructor
  · rw [hhold]
    exact h.owned.alloc hp
  · intro b hb f hnone
    by_cases hbp : b = p
    · subst hbp
      simp [emptyScratch]
    · simp only [Function.update_of_ne hbp] at hnone ⊢
      exact h.empty b (hb.resolve_left hbp) f hnone

end

/-! ## Acquiring and releasing -/

/-- The scratches of a thread: that of the slot and those on the heap. -/
def Outstanding.structs (o : Outstanding) : Set ℕ := {a | o.state.tls = some a ∨ a ∈ o.held}

theorem mem_structs {s : ThreadState} {held : List ℕ} {a : ℕ} :
    a ∈ Outstanding.structs ⟨s, held⟩ ↔ s.tls = some a ∨ a ∈ held :=
  Iff.rfl

/-- **The invariant of a thread.** -/
structure RunInv (o : Outstanding) : Prop where
  nodup : o.held.Nodup
  wf : Wf o.state o.structs
  inUse_iff : ∀ a, o.state.tls = some a → (o.state.inUse = true ↔ a ∈ o.held)

section

variable {s s' : ThreadState} {held : List ℕ} {a : ℕ}

theorem RunInv.keep (h : RunInv ⟨s, held⟩) (hwf : Wf s' (Outstanding.structs ⟨s, held⟩))
    (hkeeps : Keeps a s s') : RunInv ⟨s', held⟩ := by
  have hset : Outstanding.structs ⟨s', held⟩ = Outstanding.structs ⟨s, held⟩ := by
    unfold Outstanding.structs
    rw [hkeeps.tls]
  refine ⟨h.nodup, hset ▸ hwf, fun b hb => ?_⟩
  rw [hkeeps.inUse]
  exact h.inUse_iff b (hkeeps.tls ▸ hb)

theorem seScratchTlsSlot_spec (h : RunInv ⟨s, held⟩) {r : Option ℕ}
    (hr : seScratchTlsSlot s = (r, s')) :
    RunInv ⟨s', held⟩ ∧ ∀ a, r = some a → s'.tls = some a := by
  unfold seScratchTlsSlot at hr
  cases htls : s.tls with
  | some b =>
    simp only [htls, Prod.mk.injEq] at hr
    obtain ⟨rfl, rfl⟩ := hr
    exact ⟨h, fun a ha => htls.trans ha⟩
  | none =>
    simp only [htls, seMalloc] at hr
    obtain ⟨choices, hm⟩ | ⟨q, choices, hq, hm⟩ := seRealloc_cases none tlsScratchSize s
    · simp only [hm, Prod.mk.injEq] at hr
      obtain ⟨rfl, rfl⟩ := hr
      exact ⟨h.keep (a := 0) (h.wf.withChoices choices) ⟨rfl, rfl, fun _ _ => rfl⟩, nofun⟩
    · simp only [hm, setSpecific] at hr
      have hnot : q ∉ Outstanding.structs ⟨s, held⟩ := h.wf.not_mem_of_fresh hq
      have hfail : ∀ rest, RunInv ⟨seFree (some q) ⟨Function.update (freed s.blocks none) q
          (some tlsScratchSize), rest, Function.update s.scratches q emptyScratch, s.tls, false⟩,
          held⟩ := by
        intro rest
        refine ⟨h.nodup, h.wf.congr ?_ (fun _ _ => Iff.rfl) ?_, fun a ha => ?_⟩
        · have hback := Function.update_eq_self q s.blocks
          rw [show s.blocks q = none from hq] at hback
          simp [seFree, freed, hback]
        · intro b hb
          have hbq : b ≠ q := fun hbq => hnot (hbq ▸ hb)
          exact Function.update_of_ne hbq _ _
        · exact absurd (htls.symm.trans ha) (by simp)
      cases choices with
      | nil =>
        simp only [Prod.mk.injEq] at hr
        obtain ⟨rfl, rfl⟩ := hr
        exact ⟨hfail [], nofun⟩
      | cons c rest =>
        cases c with
        | none =>
          simp only [Prod.mk.injEq] at hr
          obtain ⟨rfl, rfl⟩ := hr
          exact ⟨hfail rest, nofun⟩
        | some _ =>
          simp only [Prod.mk.injEq] at hr
          obtain ⟨rfl, rfl⟩ := hr
          have hheld : q ∉ held := fun hmem => hnot (.inr hmem)
          refine ⟨⟨h.nodup, ?_, ?_⟩, fun a ha => ha⟩
          · have hset : Outstanding.structs ⟨⟨Function.update (freed s.blocks none) q
                (some tlsScratchSize), rest, Function.update s.scratches q emptyScratch, some q,
                false⟩, held⟩ = insert q (Outstanding.structs ⟨s, held⟩) := by
              ext b
              simp [Outstanding.structs, htls, eq_comm]
            rw [hset]
            refine h.wf.newScratch hq (fun b hb => ?_) (if_pos rfl).symm
            have hbq : q ≠ b := fun hbq => hnot (hbq ▸ hb)
            simp [htls, hbq]
          · rintro _ ⟨⟩
            exact iff_of_false Bool.false_ne_true hheld

/-- The scratch at `a` has what was asked for. -/
def Reserved (dim : ℕ) (scratch : Scratch) : Prop :=
  ∀ p ∈ reservation dim, p.2 ≤ (scratch p.1).cap ∧ (scratch p.1).ptr.isSome

/-- **Acquiring.** -/
theorem seScratchAcquire_spec (h : RunInv ⟨s, held⟩) {dim : ℕ} {r : Option ℕ}
    (hr : seScratchAcquire dim s = (r, s')) :
    (r = none → RunInv ⟨s', held⟩) ∧
      ∀ a, r = some a → RunInv ⟨s', a :: held⟩ ∧ a ∉ held ∧ Reserved dim (s'.scratches a) := by
  unfold seScratchAcquire at hr
  cases hslot : seScratchTlsSlot s with
  | mk slot s₁ =>
  obtain ⟨h₁, htls⟩ := seScratchTlsSlot_spec h hslot
  rw [hslot] at hr
  cases slot with
  | none =>
    simp only [Prod.mk.injEq] at hr
    obtain ⟨rfl, rfl⟩ := hr
    exact ⟨fun _ => h₁, nofun⟩
  | some b =>
    have htls := htls b rfl
    have hb : b ∈ Outstanding.structs ⟨s₁, held⟩ := .inl htls
    by_cases huse : s₁.inUse
    · -- the slot is held: a scratch on the heap
      have hb' : b ∈ held := (h₁.inUse_iff b htls).mp huse
      simp only [huse, not_true_eq_false, if_false, seMalloc] at hr
      obtain ⟨choices, hm⟩ | ⟨q, choices, hq, hm⟩ := seRealloc_cases none scratchSize s₁
      · simp only [hm, Prod.mk.injEq] at hr
        obtain ⟨rfl, rfl⟩ := hr
        exact ⟨fun _ => h₁.keep (a := 0) (h₁.wf.withChoices choices) ⟨rfl, rfl, fun _ _ => rfl⟩,
          nofun⟩
      · have hnot : q ∉ Outstanding.structs ⟨s₁, held⟩ := h₁.wf.not_mem_of_fresh hq
        have hqb : b ≠ q := fun hbq => hnot (hbq ▸ hb)
        have hsize : scratchSize = if s₁.tls = some q then tlsScratchSize else scratchSize := by
          rw [htls, if_neg (by simpa using hqb)]
        have hnew := @Wf.newScratch s₁ _ h₁.wf q scratchSize s₁.tls s₁.inUse choices hq
          (fun _ _ => Iff.rfl) hsize
        have hkeeps : Keeps q s₁ ⟨Function.update s₁.blocks q (some scratchSize), choices,
            Function.update s₁.scratches q emptyScratch, s₁.tls, s₁.inUse⟩ :=
          ⟨rfl, rfl, fun c hc => Function.update_of_ne hc _ _⟩
        have hmem : q ∈ insert q (Outstanding.structs ⟨s₁, held⟩) := Set.mem_insert _ _
        simp only [hm] at hr
        obtain ⟨hwf, hkeeps', hres⟩ := seScratchReserve_spec hnew hmem dim
        cases hreserve : seScratchReserve q dim ⟨Function.update s₁.blocks q (some scratchSize),
            choices, Function.update s₁.scratches q emptyScratch, s₁.tls, s₁.inUse⟩ with
        | mk ok s₂ =>
        rw [hreserve] at hwf hkeeps' hres
        have hr' := hr
        rw [show freed s₁.blocks none = s₁.blocks from rfl, hreserve] at hr'
        cases ok with
        | false =>
          simp only [Prod.mk.injEq] at hr'
          obtain ⟨rfl, rfl⟩ := hr'
          obtain ⟨hfree, hkeeps'', hnone⟩ := seScratchFree_spec hwf hmem
          have hgone := hfree.freeScratch hmem hnone
          rw [Set.insert_sdiff_self_of_notMem hnot] at hgone
          refine ⟨fun _ => h₁.keep hgone ((hkeeps.trans hkeeps').trans (hkeeps''.trans ?_)), nofun⟩
          exact ⟨rfl, rfl, fun _ _ => rfl⟩
        | true =>
          simp only [Prod.mk.injEq] at hr'
          obtain ⟨rfl, rfl⟩ := hr'
          have htls' : s₂.tls = s₁.tls := hkeeps'.tls
          refine ⟨nofun, ?_⟩
          rintro _ ⟨⟩
          have hheld : q ∉ held := fun hmem => hnot (.inr hmem)
          refine ⟨⟨List.nodup_cons.mpr ⟨hheld, h.nodup⟩, ?_, fun c hc => ?_⟩, hheld, hres rfl⟩
          · have hset : Outstanding.structs ⟨s₂, q :: held⟩ =
                insert q (Outstanding.structs ⟨s₁, held⟩) := by
              ext c
              rw [Set.mem_insert_iff, mem_structs, mem_structs, htls', List.mem_cons]
              exact or_left_comm
            rw [hset]
            exact hwf
          · have hcb : b = c := Option.some.inj (htls.symm.trans (htls'.symm.trans hc))
            rw [← hcb]
            exact iff_of_true (hkeeps'.inUse.trans huse) (List.mem_cons_of_mem _ hb')
    · simp only [huse, Bool.false_eq_true, not_false_eq_true, if_true] at hr
      obtain ⟨hwf, hkeeps, hres⟩ := seScratchReserve_spec h₁.wf hb dim
      cases hreserve : seScratchReserve b dim s₁ with
      | mk ok s₂ =>
      rw [hreserve] at hwf hkeeps hres hr
      cases ok with
      | false =>
        simp only [Prod.mk.injEq] at hr
        obtain ⟨rfl, rfl⟩ := hr
        exact ⟨fun _ => h₁.keep hwf hkeeps, nofun⟩
      | true =>
        simp only [Prod.mk.injEq] at hr
        obtain ⟨rfl, rfl⟩ := hr
        refine ⟨nofun, ?_⟩
        rintro _ ⟨⟩
        have hfree : b ∉ held := fun hmem => huse ((h₁.inUse_iff b htls).mpr hmem)
        refine ⟨⟨List.nodup_cons.mpr ⟨hfree, h.nodup⟩, ?_, fun c hc => ?_⟩, hfree, hres rfl⟩
        · have hset : Outstanding.structs ⟨{ s₂ with inUse := true }, b :: held⟩ =
              Outstanding.structs ⟨s₁, held⟩ := by
            ext c
            rw [mem_structs, mem_structs, hkeeps.tls, htls, Option.some.injEq, List.mem_cons,
              eq_comm, or_self_left]
          rw [hset]
          exact hwf.congr rfl (fun _ _ => Iff.rfl) fun _ _ => rfl
        · have hcb : b = c := Option.some.inj (htls.symm.trans (hkeeps.tls.symm.trans hc))
          rw [← hcb]
          exact iff_of_true rfl List.mem_cons_self

/-- **Releasing.** -/
theorem seScratchRelease_spec (h : RunInv ⟨s, held⟩) (ha : a ∈ held) :
    RunInv ⟨(seScratchRelease a s).2, held.erase a⟩ ∧
      (s.tls = some a → (seScratchRelease a s).1 = true →
        Trimmed ((seScratchRelease a s).2.scratches a)) := by
  have hmem : a ∈ Outstanding.structs ⟨s, held⟩ := .inr ha
  unfold seScratchRelease
  by_cases htls : s.tls = some a
  · rw [if_pos htls]
    have hwf : Wf { s with inUse := false } (Outstanding.structs ⟨s, held⟩) :=
      h.wf.congr rfl (fun _ _ => Iff.rfl) fun _ _ => rfl
    obtain ⟨htrim, hkeeps, hsmall⟩ := seScratchTrim_spec hwf hmem
    have htls' := hkeeps.tls.trans htls
    refine ⟨⟨h.nodup.erase a, ?_, fun b hb => ?_⟩, fun _ => hsmall⟩
    · have hset : Outstanding.structs ⟨(seScratchTrim a { s with inUse := false }).2,
          held.erase a⟩ = Outstanding.structs ⟨s, held⟩ := by
        ext b
        rw [mem_structs, mem_structs, htls', htls, Option.some.injEq, h.nodup.mem_erase_iff]
        by_cases hab : a = b
        · exact iff_of_true (.inl hab) (.inl hab)
        · rw [and_iff_right (Ne.symm hab)]
      rw [hset]
      exact htrim
    · have hab : a = b := Option.some.inj (htls'.symm.trans hb)
      rw [← hab]
      exact iff_of_false (by rw [hkeeps.inUse]; exact Bool.false_ne_true) h.nodup.not_mem_erase
  · rw [if_neg htls]
    obtain ⟨hwf, hkeeps, hnone⟩ := seScratchFree_spec h.wf hmem
    have hfree := hwf.freeScratch hmem hnone
    refine ⟨⟨h.nodup.erase a, ?_, fun b hb => ?_⟩, fun hslot => absurd hslot htls⟩
    · have hset : Outstanding.structs ⟨seFree (some a) (seScratchFree a s), held.erase a⟩ =
          Outstanding.structs ⟨s, held⟩ \ {a} := by
        ext b
        rw [mem_structs, Set.mem_sdiff, mem_structs, h.nodup.mem_erase_iff,
          Set.mem_singleton_iff, or_and_right, and_comm (a := b ≠ a)]
        refine or_congr_left ?_
        have hslot : (seFree (some a) (seScratchFree a s)).tls = s.tls := hkeeps.tls
        rw [hslot, iff_self_and]
        rintro hb rfl
        exact htls hb
      rw [hset]
      exact hfree
    · have hb' : s.tls = some b := hkeeps.tls.symm.trans hb
      have hne : b ≠ a := by
        rintro rfl
        exact htls hb'
      have huse : (seFree (some a) (seScratchFree a s)).inUse = s.inUse := hkeeps.inUse
      rw [h.nodup.mem_erase_iff, and_iff_right hne, huse]
      exact h.inUse_iff b hb'

end

/-! ## Runs -/

theorem RunInv.start (blocks : Blocks) (choices : List (Option ℕ)) (scratches : ℕ → Scratch)
    (inUse : Bool) : RunInv (Outstanding.start blocks choices scratches inUse) := by
  have hempty : (Outstanding.start blocks choices scratches inUse).structs = ∅ := by
    ext a
    simp [Outstanding.structs, Outstanding.start]
  have hnone : holdings (Outstanding.start blocks choices scratches inUse).state ∅ =
      fun _ => none := by
    funext x
    cases x <;> simp [holdings]
  refine ⟨List.nodup_nil, ?_, fun a ha => by simp [Outstanding.start] at ha⟩
  rw [hempty]
  refine ⟨?_, fun a ha => absurd ha (Set.notMem_empty a)⟩
  rw [hnone]
  constructor <;> simp

/-- **A call keeps the invariant.** -/
theorem RunInv.step {o o' : Outstanding} (h : RunInv o) {action : Action}
    (hstep : o.step action = some o') : RunInv o' := by
  obtain ⟨s, held⟩ := o
  cases action with
  | acquire dim =>
    simp only [Outstanding.step] at hstep
    cases hr : seScratchAcquire dim s with
    | mk r s' =>
    obtain ⟨hfail, hok⟩ := seScratchAcquire_spec h hr
    rw [hr] at hstep
    cases r with
    | none =>
      cases hstep
      exact hfail rfl
    | some a =>
      cases hstep
      exact (hok a rfl).1
  | grow a f need =>
    simp only [Outstanding.step, Option.ite_none_right_eq_some, Option.some.injEq] at hstep
    obtain ⟨ha, rfl⟩ := hstep
    have hmem : a ∈ Outstanding.structs ⟨s, held⟩ := .inr ha
    obtain ⟨ht, -⟩ := growNamed_spec (f := f) h.wf hmem need
    exact h.keep ht.wf ht.keeps
  | reserve a dim =>
    simp only [Outstanding.step, Option.ite_none_right_eq_some, Option.some.injEq] at hstep
    obtain ⟨ha, rfl⟩ := hstep
    have hmem : a ∈ Outstanding.structs ⟨s, held⟩ := .inr ha
    obtain ⟨hwf, hkeeps, -⟩ := seScratchReserve_spec h.wf hmem dim
    exact h.keep hwf hkeeps
  | release a =>
    simp only [Outstanding.step, Option.ite_none_right_eq_some, Option.some.injEq] at hstep
    obtain ⟨ha, rfl⟩ := hstep
    exact (seScratchRelease_spec h ha).1

theorem RunInv.run {o o' : Outstanding} (h : RunInv o) {actions : List Action}
    (hrun : o.run actions = some o') : RunInv o' := by
  induction actions generalizing o with
  | nil =>
    cases hrun
    exact h
  | cons action actions ih =>
    simp only [Outstanding.run, List.foldlM_cons, Option.bind_eq_bind,
      Option.bind_eq_some_iff] at hrun
    obtain ⟨o₁, hstep, hrest⟩ := hrun
    exact ih (h.step hstep) hrest

/-- The recorded capacity is the element count of the allocation. -/
def Buffer.Sized (blocks : Blocks) (elemSize : ℕ) (b : Buffer) : Prop :=
  match b.ptr with
  | none => b.cap = 0
  | some p => blocks p = some (b.cap * elemSize)

theorem Wf.sized {s : ThreadState} {structs : Set ℕ} (h : Wf s structs) {a : ℕ} (ha : a ∈ structs)
    (f : BufferName) : (s.scratches a f).Sized s.blocks f.elemSize := by
  unfold Buffer.Sized
  cases hp : (s.scratches a f).ptr with
  | none => exact h.empty a ha f hp
  | some p => exact h.owned.live (.buffer a f) p _ (by simp [holdings, ha, hp])

theorem Wf.unshared {s : ThreadState} {structs : Set ℕ} (h : Wf s structs) {a b p : ℕ}
    (ha : a ∈ structs) (hb : b ∈ structs) {f g : BufferName}
    (hf : (s.scratches a f).ptr = some p) (hg : (s.scratches b g).ptr = some p) :
    a = b ∧ f = g := by
  have heq := h.owned.apart (.buffer a f) (.buffer b g) p _ _
    (by simp only [holdings, ha, hf, if_true]; rfl) (by simp only [holdings, hb, hg, if_true]; rfl)
  cases heq
  exact ⟨rfl, rfl⟩

/-- **The ownership of scratches**, whatever the allocator does. -/
theorem scratch_ownership {blocks : Blocks} {choices : List (Option ℕ)} {scratches : ℕ → Scratch}
    {inUse : Bool} {actions : List Action} {o : Outstanding}
    (hrun : (Outstanding.start blocks choices scratches inUse).run actions = some o) :
    o.held.Nodup ∧
      (∀ a, o.state.tls = some a → (o.state.inUse = true ↔ a ∈ o.held)) ∧
      (∀ a ∈ o.structs, ∀ f, (o.state.scratches a f).Sized o.state.blocks f.elemSize) ∧
      (∀ a ∈ o.structs, ∀ b ∈ o.structs, ∀ f g p, (o.state.scratches a f).ptr = some p →
        (o.state.scratches b g).ptr = some p → a = b ∧ f = g) ∧
      (∀ dim a s, seScratchAcquire dim o.state = (some a, s) →
        a ∉ o.held ∧ Reserved dim (s.scratches a)) ∧
      (∀ a ∈ o.held, o.state.tls = some a → ∀ s, seScratchRelease a o.state = (true, s) →
        Trimmed (s.scratches a)) ∧
      ∀ current need minCapacity n, current ≤ seSizeMax → minCapacity ≤ seSizeMax →
        seNextCapacity current need minCapacity = some n → need ≤ n ∧ n ≤ seSizeMax := by
  have h := (RunInv.start blocks choices scratches inUse).run hrun
  refine ⟨h.nodup, h.inUse_iff, fun a ha f => h.wf.sized ha f,
    fun a ha b hb f g p hf hg => h.wf.unshared ha hb hf hg, fun dim a s hr => ?_,
    fun a ha htls s hr => ?_, fun current need minCapacity n hcurrent hmin hn => ?_⟩
  · exact ((seScratchAcquire_spec h hr).2 a rfl).2
  · have htrim := (seScratchRelease_spec h ha).2 htls
    rw [hr] at htrim
    exact htrim rfl
  · have hspec := seNextCapacity_spec hcurrent hmin hn
    exact ⟨hspec.1, hspec.2.2.2⟩

/-- A slot and a nested scratch; the slot's codepoints grow, and their trim fails. -/
theorem scratch_ownership_sample :
    ∃ o, (Outstanding.start (fun _ => none) ((List.range 14).map fun k => some (16 + k))
      (fun _ => emptyScratch) false).run
        [.acquire 4, .acquire 2, .grow 16 .cps 300, .release 23, .release 16] = some o ∧
      o.held.Nodup ∧ o.state.tls = some 16 ∧
      (o.state.scratches 16 .cps).cap = 512 ∧
      (o.state.scratches 16 .cps).Sized o.state.blocks 4 := by
  have hrun : (((Outstanding.start (fun _ => none) ((List.range 14).map fun k => some (16 + k))
      (fun _ => emptyScratch) false).run
        [.acquire 4, .acquire 2, .grow 16 .cps 300, .release 23, .release 16]).map fun o =>
          (o.state.tls, (o.state.scratches 16 .cps).cap)) = some (some 16, 512) := by
    decide +kernel
  rw [Option.map_eq_some_iff] at hrun
  obtain ⟨o, ho, hslot⟩ := hrun
  rw [Prod.mk.injEq] at hslot
  obtain ⟨hnodup, -, hsized, -⟩ := scratch_ownership ho
  exact ⟨o, ho, hnodup, hslot.1, hslot.2, hsized 16 (.inl hslot.1) .cps⟩

end StaticEmbeddings
