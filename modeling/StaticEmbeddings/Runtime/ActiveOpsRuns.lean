import StaticEmbeddings.Runtime.ActiveOps

/-!
# The counter of a model along a run

* `Ledger`: the counter, the inputs and the workers against what each task holds; `Ledger.incr`,
  `Ledger.decr`, `Ledger.stage`, `Ledger.freeInput`, `Ledger.createThread`: each primitive keeps it
  when the task's entry is changed with it.
* `Inv.stepOk`: the step lemma.
* `step_outside`: what has nothing left to read when the model is closed never reads it.
* **`active_ops_guard`**: along a run in which the handler is not interrupted the counter is right,
  nothing is closed or freed below a reader, and behind a `close` those read that are not counted
  yet; `active_ops_guard_interrupted`: one interrupt is enough.
-/

namespace StaticEmbeddings

open Interleaving

/-! ## What each task holds -/

/-- What the bookkeeping knows of a task. -/
structure Entry where
  counted : Bool
  input : Option ℕ
  watches : Bool

/-- The entry that belongs to a place. -/
def Pc.entry (p : Pc) : Entry := ⟨p.counted, p.input, p.watches⟩

variable {ι : Type} [DecidableEq ι] [Fintype ι] {s s' : State ι} {i : ι} {e : ι → Entry} {job : ℕ}

/-- The shared fields agree with the entries of the tasks. -/
structure Ledger (s : State ι) (e : ι → Entry) : Prop where
  counter : s.activeOps = countWhere Entry.counted e % 2 ^ 32
  apart : ∀ i k job, (e i).input = some job → (e k).input = some job → i = k
  held : ∀ i job, (e i).input = some job → job < s.jobs ∧ s.staged job = true
  fresh : ∀ job, s.jobs ≤ job → s.worker job = none
  watched : ∀ job, s.Running job → ∃ i, (e i).input = some job ∧ (e i).watches = true

namespace Ledger

theorem goto {p : Pc} (h : Ledger s e) : Ledger (s.goto i p) e where
  counter := h.counter
  apart := h.apart
  held := h.held
  fresh := h.fresh
  watched := h.watched

omit [DecidableEq ι] in
theorem not_running (h : Ledger s e) (hi : (e i).input = some job) (hw : (e i).watches = false) :
    ¬ s.Running job := by
  intro hr
  obtain ⟨k, hk, hkw⟩ := h.watched job hr
  rw [h.apart i k job hi hk, hkw] at hw
  cases hw

omit [DecidableEq ι] in
theorem fresh_input (h : Ledger s e) (k : ι) : (e k).input ≠ some s.jobs := by
  intro hk
  exact (h.held k _ hk).1.ne rfl

section Update

variable {x : Entry}

theorem update_counted (h : Ledger s e) {s' : State ι} (hx : x.input = (e i).input)
    (hxw : x.watches = (e i).watches) (hs : s' = { s with activeOps := s'.activeOps })
    (hcount : s'.activeOps = countWhere Entry.counted (Function.update e i x) % 2 ^ 32) :
    Ledger s' (Function.update e i x) := by
  have hin : ∀ k, (Function.update e i x k).input = (e k).input := by
    intro k
    by_cases hk : k = i
    · rw [hk, Function.update_self, hx]
    · rw [Function.update_of_ne hk]
  have hwatch : ∀ k, (Function.update e i x k).watches = (e k).watches := by
    intro k
    by_cases hk : k = i
    · rw [hk, Function.update_self, hxw]
    · rw [Function.update_of_ne hk]
  rw [hs] at hcount ⊢
  constructor
  · exact hcount
  · intro k l j hk hl
    rw [hin] at hk hl
    exact h.apart k l j hk hl
  · intro k j hk
    rw [hin] at hk
    exact h.held k j hk
  · exact h.fresh
  · intro j hj
    obtain ⟨k, hk, hkw⟩ := h.watched j hj
    exact ⟨k, (hin k).trans hk, (hwatch k).trans hkw⟩

theorem incr (h : Ledger s e) (hi : (e i).counted = false) :
    Ledger s.incr (Function.update e i ⟨true, (e i).input, (e i).watches⟩) := by
  refine h.update_counted rfl rfl rfl ?_
  have hu := countWhere_update Entry.counted e i ⟨true, (e i).input, (e i).watches⟩
  rw [hi] at hu
  change (s.activeOps + 1) % 2 ^ 32 = _
  rw [h.counter]
  simp only [Bool.toNat_false, Bool.toNat_true] at hu
  omega

theorem decr (h : Ledger s e) (hi : (e i).counted = true) :
    Ledger s.decr (Function.update e i ⟨false, (e i).input, (e i).watches⟩) := by
  refine h.update_counted rfl rfl rfl ?_
  have hu := countWhere_update Entry.counted e i ⟨false, (e i).input, (e i).watches⟩
  rw [hi] at hu
  change (s.activeOps + (2 ^ 32 - 1)) % 2 ^ 32 = _
  rw [h.counter]
  simp only [Bool.toNat_false, Bool.toNat_true] at hu
  omega

end Update

theorem stage (h : Ledger s e) (hi : (e i).input = none) :
    Ledger s.stage (Function.update e i ⟨(e i).counted, some s.jobs, (e i).watches⟩) := by
  have hin : ∀ k j, (Function.update e i ⟨(e i).counted, some s.jobs, (e i).watches⟩ k).input = some j →
      (k = i ∧ j = s.jobs) ∨ (k ≠ i ∧ (e k).input = some j) := by
    intro k j hk
    by_cases hki : k = i
    · rw [hki, Function.update_self] at hk
      exact .inl ⟨hki, (Option.some.inj hk).symm⟩
    · rw [Function.update_of_ne hki] at hk
      exact .inr ⟨hki, hk⟩
  constructor
  · refine h.counter.trans (congrArg (· % 2 ^ 32) ?_)
    exact (countWhere_update_same (by rfl)).symm
  · intro k l j hk hl
    rcases hin k j hk with ⟨hki, hj⟩ | ⟨-, hk'⟩
    · rcases hin l j hl with ⟨hli, -⟩ | ⟨-, hl'⟩
      · rw [hki, hli]
      · rw [hj] at hl'
        exact absurd hl' (h.fresh_input l)
    · rcases hin l j hl with ⟨-, hj⟩ | ⟨-, hl'⟩
      · rw [hj] at hk'
        exact absurd hk' (h.fresh_input k)
      · exact h.apart k l j hk' hl'
  · intro k j hk
    change j < s.jobs + 1 ∧ Function.update s.staged s.jobs true j = true
    rcases hin k j hk with ⟨-, rfl⟩ | ⟨-, hk⟩
    · exact ⟨Nat.lt_succ_self _, Function.update_self ..⟩
    · obtain ⟨hlt, hst⟩ := h.held k j hk
      rw [Function.update_of_ne hlt.ne]
      exact ⟨hlt.trans (Nat.lt_succ_self _), hst⟩
  · intro j hj
    exact h.fresh j (Nat.le_of_succ_le hj)
  · intro j hj
    obtain ⟨k, hk, hkw⟩ := h.watched j hj
    refine ⟨k, ?_⟩
    have hki : k ≠ i := by
      rintro rfl
      rw [hi] at hk
      cases hk
    rw [Function.update_of_ne hki]
    exact ⟨hk, hkw⟩

theorem freeInput (h : Ledger s e) (hi : (e i).input = some job) (hw : ¬ s.Running job) :
    Ledger (s.freeInput job)
      (Function.update e i ⟨(e i).counted, none, false⟩) := by
  have hin : ∀ k j, (Function.update e i ⟨(e i).counted, none, false⟩ k).input =
      some j → k ≠ i ∧ (e k).input = some j := by
    intro k j hk
    by_cases hki : k = i
    · rw [hki, Function.update_self] at hk
      cases hk
    · rw [Function.update_of_ne hki] at hk
      exact ⟨hki, hk⟩
  constructor
  · refine h.counter.trans (congrArg (· % 2 ^ 32) ?_)
    exact (countWhere_update_same (by rfl)).symm
  · intro k l j hk hl
    exact h.apart k l j (hin k j hk).2 (hin l j hl).2
  · intro k j hk
    obtain ⟨hki, hk⟩ := hin k j hk
    obtain ⟨hlt, hst⟩ := h.held k j hk
    refine ⟨hlt, ?_⟩
    change Function.update s.staged job false j = true
    rw [Function.update_of_ne]
    · exact hst
    · rintro rfl
      exact hki (h.apart k i _ hk hi)
  · exact h.fresh
  · intro j hj
    obtain ⟨k, hk, hkw⟩ := h.watched j hj
    refine ⟨k, ?_⟩
    have hki : k ≠ i := by
      rintro rfl
      rw [hi] at hk
      cases hk
      exact hw hj
    rw [Function.update_of_ne hki]
    exact ⟨hk, hkw⟩

theorem setWorker (h : Ledger s e) (hi : (e i).input = some job) {w : Worker} {b : Bool}
    (hb : (e i).watches = true → b = true) (hw : w ≠ .ended → b = true) :
    Ledger (s.setWorker job w) (Function.update e i ⟨(e i).counted, (e i).input, b⟩) := by
  have hin : ∀ k, (Function.update e i ⟨(e i).counted, (e i).input, b⟩ k).input = (e k).input := by
    intro k
    by_cases hki : k = i
    · rw [hki, Function.update_self]
    · rw [Function.update_of_ne hki]
  constructor
  · refine h.counter.trans (congrArg (· % 2 ^ 32) ?_)
    exact (countWhere_update_same (by rfl)).symm
  · intro k l j hk hl
    rw [hin] at hk hl
    exact h.apart k l j hk hl
  · intro k j hk
    rw [hin] at hk
    exact h.held k j hk
  · intro j hj
    change Function.update s.worker job (some w) j = none
    rw [Function.update_of_ne (by rintro rfl; exact absurd (h.held i _ hi).1 (not_lt.mpr hj))]
    exact h.fresh j hj
  · intro j hj
    by_cases hjob : j = job
    · subst hjob
      refine ⟨i, (hin i).trans hi, ?_⟩
      rw [Function.update_self]
      apply hw
      rintro rfl
      unfold State.Running State.setWorker at hj
      simp at hj
    · have hj' : s.Running j := by
        unfold State.Running State.setWorker at hj
        dsimp only at hj
        rwa [Function.update_of_ne hjob] at hj
      obtain ⟨k, hk, hkw⟩ := h.watched j hj'
      refine ⟨k, (hin k).trans hk, ?_⟩
      by_cases hki : k = i
      · rw [hki] at hkw ⊢
        rw [Function.update_self]
        exact hb hkw
      · rwa [Function.update_of_ne hki]

end Ledger

/-! ## Steps -/

/-- The ledger when one task is between two of its places. -/
def Focus (s : State ι) (i : ι) (x : Entry) : Prop :=
  Ledger s (Function.update (fun k => (s.pc k).entry) i x)

/-- The fields agree with the places of the tasks. -/
def Inv (s : State ι) : Prop := Ledger s fun k => (s.pc k).entry

section Focus

variable {c w : Bool} {n : Option ℕ} {p q : Pc}

theorem Inv.focus (h : Inv s) (hp : s.pc i = p) : Focus s i p.entry := by
  unfold Focus
  rw [← hp, Function.update_eq_self i fun k => (s.pc k).entry]
  exact h

/-- The task arrives at the place to which its entry belongs. -/
theorem Focus.land (h : Focus s i p.entry) : Inv (s.goto i p) := by
  have hent : (fun k => ((s.goto i p).pc k).entry) =
      Function.update (fun k => (s.pc k).entry) i p.entry := by
    funext k
    exact Function.apply_update (fun _ => Pc.entry) s.pc i p k
  unfold Inv
  rw [hent]
  exact Ledger.goto h

theorem Focus.incr (h : Focus s i ⟨false, n, w⟩) : Focus s.incr i ⟨true, n, w⟩ := by
  have hl := Ledger.incr (i := i) h (by rw [Function.update_self])
  rwa [Function.update_self, Function.update_idem] at hl

theorem Focus.decr (h : Focus s i ⟨true, n, w⟩) : Focus s.decr i ⟨false, n, w⟩ := by
  have hl := Ledger.decr (i := i) h (by rw [Function.update_self])
  rwa [Function.update_self, Function.update_idem] at hl

theorem Focus.stage (h : Focus s i ⟨c, none, w⟩) : Focus s.stage i ⟨c, some s.jobs, w⟩ := by
  have hl := Ledger.stage (i := i) h (by rw [Function.update_self])
  rwa [Function.update_self, Function.update_idem] at hl

theorem Focus.freeInput (h : Focus s i ⟨c, some job, w⟩) (hr : ¬ s.Running job) :
    Focus (s.freeInput job) i ⟨c, none, false⟩ := by
  have hl := Ledger.freeInput (i := i) h (by rw [Function.update_self]) hr
  rwa [Function.update_self, Function.update_idem] at hl

theorem Focus.createThread (h : Focus s i ⟨c, some job, w⟩) :
    Focus (s.setWorker job .waiting) i ⟨c, some job, true⟩ := by
  have hl : Ledger (s.setWorker job .waiting) _ := Ledger.setWorker (i := i) (b := true) h
    (by rw [Function.update_self]) (fun _ => rfl) fun _ => rfl
  rwa [Function.update_self, Function.update_idem] at hl

theorem Inv.move (h : Inv s) (hp : s.pc i = p) (hq : p.entry = q.entry) : Inv (s.goto i q) := by
  apply Focus.land
  rw [← hq]
  exact h.focus hp

theorem Focus.protectedRunJob (h : Focus s i ⟨false, none, false⟩) : Inv (s.protectedRunJob i) :=
  h.stage.incr.land

omit [Fintype ι] [DecidableEq ι] in
theorem running_activeOps (ops : ℕ) :
    ({ s with activeOps := ops } : State ι).Running job ↔ s.Running job := Iff.rfl

theorem Focus.round (h : Focus s i ⟨true, some job, w⟩) (hr : ¬ s.Running job) :
    Focus ((s.decr).freeInput job) i ⟨false, none, false⟩ := by
  apply h.decr.freeInput
  exact fun hrun => hr ((running_activeOps _).mp hrun)

omit [DecidableEq ι] in
theorem Inv.not_running (h : Inv s) (hp : s.pc i = p) (hin : p.input = some job)
    (hw : p.watches = false) : ¬ s.Running job := by
  have hi : ((s.pc i).entry).input = some job := by rw [hp]; exact hin
  exact Ledger.not_running h hi (by rw [hp]; exact hw)

omit [DecidableEq ι] in
theorem Inv.not_readsInput (h : Inv s) (hp : s.pc i = p) (hin : p.input = some job)
    (hrd : p.reads = false) (hr : ¬ s.Running job) : ¬ s.ReadsInput job := by
  rintro (⟨k, hk, hkin⟩ | hrun)
  · have hki : k = i := Ledger.apart h k i job hkin (by rw [hp]; exact hin)
    rw [hki, hp, hrd] at hk
    cases hk
  · exact hr hrun

end Focus

/-- A step that keeps the invariant and frees no input that is read. -/
structure StepOk (s s' : State ι) : Prop where
  inv : Inv s'
  input : ∀ job, s.staged job = true → s'.staged job = false → ¬ s.ReadsInput job

section StepOk

variable {p q : Pc} {w : Bool}

omit [DecidableEq ι] in
theorem StepOk.of_staged (hinv : Inv s') (h : s'.staged = s.staged) : StepOk s s' := by
  refine ⟨hinv, fun j hj hj' => ?_⟩
  rw [h, hj] at hj'
  cases hj'

omit [DecidableEq ι] in
theorem StepOk.of_stage (hinv : Inv s') (h : s'.staged = Function.update s.staged s.jobs true) :
    StepOk s s' := by
  refine ⟨hinv, fun j hj hj' => ?_⟩
  rw [h] at hj'
  by_cases hjob : j = s.jobs
  · rw [hjob, Function.update_self] at hj'
    cases hj'
  · rw [Function.update_of_ne hjob, hj] at hj'
    cases hj'

omit [DecidableEq ι] in
theorem StepOk.of_free (hinv : Inv s') (hfree : ¬ s.ReadsInput job)
    (h : ∀ j, j ≠ job → s.staged j = true → s'.staged j = true) : StepOk s s' := by
  refine ⟨hinv, fun j hj hj' => ?_⟩
  by_cases hjob : j = job
  · rw [hjob]
    exact hfree
  · rw [h j hjob hj] at hj'
    cases hj'

omit [DecidableEq ι] [Fintype ι] in
theorem staged_freeInput (t : State ι) (j : ℕ) (hj : j ≠ job) (hst : t.staged j = true) :
    (t.freeInput job).staged j = true := by
  change Function.update t.staged job false j = true
  rwa [Function.update_of_ne hj]

omit [DecidableEq ι] [Fintype ι] in
theorem staged_stage (t : State ι) (j : ℕ) (hst : t.staged j = true) : t.stage.staged j = true := by
  change Function.update t.staged t.jobs true j = true
  by_cases hj : j = t.jobs
  · rw [hj, Function.update_self]
  · rwa [Function.update_of_ne hj]

theorem Inv.leaveJob (h : Inv s) (hp : s.pc i = p) (he : p.entry = ⟨true, some job, w⟩)
    (hrd : p.reads = false) (hr : ¬ s.Running job) : StepOk s (s.leaveJob i job) := by
  have hf := h.focus hp
  rw [he] at hf
  exact .of_free (Focus.land (p := .idle) (hf.round hr))
    (h.not_readsInput hp (congrArg Entry.input he) hrd hr) (staged_freeInput s.decr)

theorem Inv.runJobReturned (h : Inv s) (hp : s.pc i = p) (he : p.entry = ⟨true, some job, w⟩)
    (hrd : p.reads = false) (hr : ¬ s.Running job) {choice : Choice}
    (hs : s.runJobReturned i job choice = some s') : StepOk s s' := by
  unfold State.runJobReturned at hs
  split at hs
  · cases hs
    have hf := h.focus hp
    rw [he] at hf
    refine .of_free (hf.round hr).protectedRunJob
      (h.not_readsInput hp (congrArg Entry.input he) hrd hr) fun j hj hst => ?_
    exact staged_stage _ j (staged_freeInput s.decr j hj hst)
  · cases hs
    exact h.leaveJob hp he hrd hr
  · cases hs

theorem Inv.freeIds (h : Inv s) (hp : s.pc i = p) (he : p.entry = ⟨false, some job, false⟩)
    (hrd : p.reads = false) : StepOk s ((s.freeInput job).goto i .idle) := by
  have hf := h.focus hp
  rw [he] at hf
  have hr := h.not_running hp (congrArg Entry.input he) (congrArg Entry.watches he)
  exact .of_free (Focus.land (p := .idle) (hf.freeInput hr))
    (h.not_readsInput hp (congrArg Entry.input he) hrd hr) (staged_freeInput s)

end StepOk

/-! ## The step lemma -/

omit [Fintype ι] in
theorem goto_staged (p : Pc) : (s.goto i p).staged = s.staged := rfl

omit [Fintype ι] [DecidableEq ι] in
theorem activeOps_staged (ops : ℕ) : ({ s with activeOps := ops } : State ι).staged = s.staged := rfl

section Moves

variable {p q : Pc} {w : Bool} {n : Option ℕ}

theorem Inv.stepMove (h : Inv s) (hp : s.pc i = p) (hq : p.entry = q.entry) :
    StepOk s (s.goto i q) :=
  .of_staged (h.move hp hq) rfl

theorem Inv.stepIncr (h : Inv s) (hp : s.pc i = p) (he : p.entry = ⟨false, n, w⟩)
    (hq : q.entry = ⟨true, n, w⟩) : StepOk s ((s.incr).goto i q) := by
  have hf := h.focus hp
  rw [he] at hf
  have hl := hf.incr
  rw [← hq] at hl
  exact .of_staged hl.land ((goto_staged q).trans (activeOps_staged _))

theorem Inv.stepDecr (h : Inv s) (hp : s.pc i = p) (he : p.entry = ⟨true, n, w⟩)
    (hq : q.entry = ⟨false, n, w⟩) : StepOk s ((s.decr).goto i q) := by
  have hf := h.focus hp
  rw [he] at hf
  have hl := hf.decr
  rw [← hq] at hl
  exact .of_staged hl.land ((goto_staged q).trans (activeOps_staged _))

end Moves

omit [DecidableEq ι] in
theorem Inv.opened : Inv (State.opened : State ι) where
  counter := by
    have hz : countWhere Entry.counted (fun k => ((State.opened : State ι).pc k).entry) = 0 := by
      rw [← Nat.le_zero, ← not_lt, countWhere_pos_iff]
      rintro ⟨k, hk⟩
      cases hk
    rw [hz]
    rfl
  apart := fun _ _ _ h => nomatch h
  held := fun _ _ h => nomatch h
  fresh := fun _ _ => rfl
  watched := fun _ h => by rcases h with h | h <;> cases h

theorem Inv.enter (h : Inv s) (hp : s.pc i = .idle) (op : Op) : StepOk s (s.enter i op) := by
  cases op with
  | embed =>
    unfold State.enter
    dsimp only
    split_ifs
    · exact .of_staged (h.move hp rfl) rfl
    · exact .of_staged h rfl
  | embedTokenIds =>
    unfold State.enter
    dsimp only
    split_ifs
    · exact .of_staged (h.move hp rfl) rfl
    · exact .of_staged h rfl
  | warmup =>
    unfold State.enter
    dsimp only
    split_ifs
    · exact .of_staged (Focus.land (p := .warmupCalling) (Focus.incr (h.focus hp))) rfl
    · exact .of_staged h rfl
  | close =>
    unfold State.enter State.modelClose
    dsimp only
    split_ifs
    · exact .of_staged ⟨h.counter, h.apart, h.held, h.fresh, h.watched⟩ rfl
    · exact .of_staged h rfl

omit [DecidableEq ι] [Fintype ι] in
theorem not_running_of_ended (h : s.worker job = some .ended) : ¬ s.Running job := by
  rintro (hr | hr) <;> cases hr.symm.trans h

theorem Inv.ret (h : Inv s) {choice : Choice} (hs : s.ret i choice = some s') : StepOk s s' := by
  unfold State.ret at hs
  split at hs
  case h_1 hp | h_2 hp =>
    cases hs
    exact h.stepMove hp rfl
  case h_3 hp =>
    cases hs
    exact .of_stage (Focus.protectedRunJob (h.focus hp)) rfl
  case h_4 hp | h_5 hp | h_6 hp =>
    cases hs
    exact h.stepMove hp rfl
  case h_7 hp => exact h.runJobReturned hp rfl rfl (h.not_running hp rfl rfl) hs
  case h_8 job hp =>
    cases hs
    have hf : Focus s i ⟨true, some job, false⟩ := h.focus hp
    exact .of_staged (Focus.land (p := .joining job) hf.createThread) rfl
  case h_9 hp =>
    split_ifs at hs with hended
    exact h.runJobReturned hp rfl rfl (not_running_of_ended hended) hs
  case h_10 hp =>
    cases hs
    exact h.stepMove hp rfl
  case h_11 hp =>
    split_ifs at hs with hended
    cases hs
    exact h.leaveJob hp rfl rfl (not_running_of_ended hended)
  case h_12 hp =>
    cases hs
    have hf : Focus s i ⟨false, none, false⟩ := h.focus hp
    exact .of_stage (Focus.land (p := .converting s.jobs) hf.stage) rfl
  case h_13 hp =>
    cases hs
    exact h.stepMove hp rfl
  case h_14 hp =>
    cases hs
    exact h.stepIncr hp rfl rfl
  case h_15 hp =>
    cases hs
    exact h.stepMove hp rfl
  case h_16 hp =>
    cases hs
    exact h.stepDecr hp rfl rfl
  case h_17 hp =>
    cases hs
    exact h.freeIds hp rfl rfl
  case h_18 hp =>
    cases hs
    exact h.stepMove hp rfl
  case h_19 hp =>
    cases hs
    exact h.stepDecr hp rfl rfl
  case h_20 => cases hs

theorem Inv.raise (h : Inv s) (hs : s.raise i = some s')
    (ha : ¬ HandlerInterrupted s (.raise i)) : StepOk s s' := by
  have hhandler : ∀ job, (s.pc i).handler = some job → ¬ s.Running job :=
    fun job hjob hr => ha ⟨job, hjob, hr⟩
  unfold State.raise at hs
  split at hs
  case h_1 hp | h_2 hp =>
    cases hs
    exact h.stepMove hp rfl
  case h_3 hp | h_4 hp | h_5 hp =>
    cases hs
    exact h.leaveJob hp rfl rfl (h.not_running hp rfl rfl)
  case h_6 hp =>
    cases hs
    exact h.stepMove hp rfl
  case h_7 hp =>
    cases hs
    exact h.leaveJob hp rfl rfl (hhandler _ (by rw [hp]; rfl))
  case h_8 hp =>
    cases hs
    exact h.leaveJob hp rfl rfl (hhandler _ (by rw [hp]; rfl))
  case h_9 hp | h_10 hp =>
    cases hs
    exact h.leaveJob hp rfl rfl (h.not_running hp rfl rfl)
  case h_11 hp | h_12 hp =>
    cases hs
    exact h.freeIds hp rfl rfl
  case h_13 hp | h_14 hp =>
    cases hs
    exact h.stepDecr hp rfl rfl
  all_goals cases hs

theorem Inv.finish (h : Inv s) (hs : s.finish i = some s') : StepOk s s' := by
  unfold State.finish at hs
  split at hs
  case h_1 hp | h_2 hp | h_3 hp =>
    cases hs
    exact h.stepMove hp rfl
  case h_4 => cases hs

theorem Inv.setWorker (h : Inv s) (hr : s.Running job) (w : Worker) :
    StepOk s (s.setWorker job w) := by
  obtain ⟨i, hi, hw⟩ := h.watched job hr
  have hl := Ledger.setWorker (b := true) h hi (fun _ => rfl) (w := w) fun _ => rfl
  refine .of_staged ?_ rfl
  have hent : Function.update (fun k => (s.pc k).entry) i
      ⟨((s.pc i).entry).counted, ((s.pc i).entry).input, true⟩ = fun k => (s.pc k).entry := by
    rw [← hw]
    exact Function.update_eq_self i fun k => (s.pc k).entry
  rw [hent] at hl
  exact hl

/-- **A step whose handler is not interrupted keeps the invariant and frees nothing that is read.** -/
theorem Inv.stepOk (h : Inv s) {a : Act ι} (hs : step s a = some s')
    (ha : ¬ HandlerInterrupted s a) : StepOk s s' := by
  cases a with
  | enter i op =>
    unfold step at hs
    dsimp only at hs
    split_ifs at hs with hp
    cases hs
    exact h.enter hp op
  | ret i choice => exact h.ret hs
  | raise i => exact h.raise hs ha
  | finish i => exact h.finish hs
  | workerStart job =>
    unfold step at hs
    dsimp only at hs
    split_ifs at hs with hw
    cases hs
    exact h.setWorker (.inl hw) _
  | workerEnd job =>
    unfold step at hs
    dsimp only at hs
    split_ifs at hs with hw
    cases hs
    exact h.setWorker hw _

/-! ## Closing -/

section Closing

variable {p : Pc} {choice : Choice}

omit [Fintype ι] in
theorem protectedRunJob_isOpen : (s.protectedRunJob i).isOpen = s.isOpen := rfl

omit [DecidableEq ι] [Fintype ι] in
theorem round_isOpen : ((s.decr).freeInput job).isOpen = s.isOpen := by
  rw [State.freeInput, State.decr]

omit [Fintype ι] in
theorem leaveJob_isOpen : (s.leaveJob i job).isOpen = s.isOpen := by
  rw [State.leaveJob, State.goto, round_isOpen]

omit [Fintype ι] in
theorem decr_isOpen : ((s.decr).goto i p).isOpen = s.isOpen := by
  rw [State.goto, State.decr]

omit [Fintype ι] in
theorem runJobReturned_isOpen (hs : s.runJobReturned i job choice = some s') :
    s'.isOpen = s.isOpen := by
  unfold State.runJobReturned at hs
  split at hs
  · cases hs
    rw [protectedRunJob_isOpen, round_isOpen]
  · cases hs
    exact leaveJob_isOpen
  · cases hs

omit [Fintype ι] in
theorem ret_isOpen (hs : s.ret i choice = some s') : s'.isOpen = s.isOpen := by
  unfold State.ret at hs
  split at hs
  case h_7 => exact runJobReturned_isOpen hs
  case h_9 =>
    split_ifs at hs
    exact runJobReturned_isOpen hs
  case h_11 =>
    split_ifs at hs
    cases hs
    exact leaveJob_isOpen
  case h_16 | h_19 =>
    cases hs
    exact decr_isOpen
  case h_20 => cases hs
  all_goals
    cases hs
    rfl

omit [Fintype ι] in
theorem raise_isOpen (hs : s.raise i = some s') : s'.isOpen = s.isOpen := by
  unfold State.raise at hs
  split at hs
  case h_3 | h_4 | h_5 | h_7 | h_8 | h_9 | h_10 =>
    cases hs
    exact leaveJob_isOpen
  case h_13 | h_14 =>
    cases hs
    exact decr_isOpen
  case h_1 | h_2 | h_6 | h_11 | h_12 =>
    cases hs
    rfl
  all_goals cases hs

omit [Fintype ι] in
theorem finish_isOpen (hs : s.finish i = some s') : s'.isOpen = s.isOpen := by
  unfold State.finish at hs
  split at hs
  case h_4 => cases hs
  all_goals
    cases hs
    rfl

omit [Fintype ι] in
/-- Only `close` closes, and only if the counter is `0`. -/
theorem eq_of_closed {a : Act ι} (hs : step s a = some s') (ho : s.isOpen = true)
    (hc : s'.isOpen = false) : s.activeOps = 0 ∧ s' = { s with isOpen := false } := by
  have hne : s'.isOpen ≠ s.isOpen := by
    rw [ho, hc]
    exact Bool.false_ne_true
  unfold step at hs
  cases a with
  | enter i op =>
    dsimp only at hs
    split_ifs at hs
    cases hs
    cases op with
    | close =>
      unfold State.enter State.modelClose at hne ⊢
      dsimp only at hne ⊢
      split_ifs at hne ⊢ with hz
      · exact ⟨hz.2, rfl⟩
      · exact absurd rfl hne
    | embed | embedTokenIds | warmup =>
      unfold State.enter at hne
      dsimp only at hne
      split_ifs at hne
      · exact absurd rfl hne
  | ret i choice => exact absurd (ret_isOpen hs) hne
  | raise i => exact absurd (raise_isOpen hs) hne
  | finish i => exact absurd (finish_isOpen hs) hne
  | workerStart job | workerEnd job =>
    dsimp only at hs
    split_ifs at hs
    cases hs
    exact absurd rfl hne

end Closing

/-! ## Runs -/

theorem Pc.counted_of_reads {p : Pc} (h : p.reads = true) : p.counted = true := by
  cases p <;> first | rfl | cases h

theorem Pc.counted_of_watches {p : Pc} (h : p.watches = true) : p.counted = true := by
  cases p <;> first | rfl | cases h

omit [DecidableEq ι] in
theorem Inv.counted_pos (h : Inv s) (hr : s.ReadsMapping) : 0 < s.counted := by
  apply countWhere_pos_iff.mpr
  rcases hr with ⟨i, hi⟩ | ⟨job, hjob⟩
  · exact ⟨i, Pc.counted_of_reads hi⟩
  · obtain ⟨i, -, hi⟩ := h.watched job hjob
    exact ⟨i, Pc.counted_of_watches hi⟩

omit [DecidableEq ι] in
theorem Inv.activeOps_eq (h : Inv s) (hc : s.counted < 2 ^ 32) : s.activeOps = s.counted := by
  have hcounter : s.activeOps = s.counted % 2 ^ 32 := h.counter
  rw [hcounter, Nat.mod_eq_of_lt hc]

theorem Inv.protected_iff (h : Inv s) (hc : s.counted < 2 ^ 32) {a : Act ι}
    (hs : step s a = some s') : Protected s s' ↔ ¬ HandlerInterrupted s a := by
  constructor
  · intro hp ha
    cases a with
    | raise i =>
      obtain ⟨job, hjob, hr⟩ := ha
      have hs' : s' = s.leaveJob i job ∧ (s.pc i).input = some job := by
        change s.raise i = some s' at hs
        unfold State.raise at hs
        cases hpc : s.pc i with
        | killing j | rejoining j =>
          rw [hpc] at hs hjob
          cases hs
          cases hjob
          exact ⟨rfl, rfl⟩
        | _ =>
          rw [hpc] at hjob
          cases hjob
      have hst := (Ledger.held h i job hs'.2).2
      refine hp.input job hst ?_ (.inr hr)
      rw [hs'.1]
      exact Function.update_self ..
    | _ => exact ha
  · intro ha
    refine ⟨fun ho hcl hr => ?_, (h.stepOk hs ha).input⟩
    have hz := (eq_of_closed hs ho hcl).1
    rw [h.activeOps_eq hc] at hz
    exact (h.counted_pos hr).ne' hz

/-! ## Behind a `close` -/

/-- Nothing is left to read before the method returns. -/
def Pc.outside : Pc → Bool
  | .idle | .idsChecking _ => true
  | .resolving | .scheduling _ | .native _ | .checking _ | .creating _ | .joining _ | .killing _
  | .rejoining _ | .limiting | .converting _ | .idsCalling _ | .idsNative _ | .idsReturned _
  | .warmupCalling | .warmupNative | .warmupReturned => false

theorem Pc.outside_of_uncounted {p : Pc} (hc : p.counted = false) (he : p.entered = false) :
    p.outside = true := by
  cases p with
  | idle | idsChecking => rfl
  | resolving | limiting | converting => cases he
  | _ => cases hc

theorem Pc.readsHeld_of_outside {p : Pc} {choice : Choice} (ho : p.outside = true) :
    p.readsHeld choice = false := by
  cases p with
  | idle | idsChecking => rfl
  | _ => cases ho

theorem Pc.watches_of_outside {p : Pc} (ho : p.outside = true) : p.watches = false := by
  cases p with
  | idle | idsChecking => rfl
  | _ => cases ho

section Behind

variable {k : ι} {p : Pc} {choice : Choice}

omit [Fintype ι] in
theorem goto_pc_of_ne (hne : i ≠ k) : (s.goto k p).pc i = s.pc i := by
  unfold State.goto
  exact Function.update_of_ne hne p s.pc

omit [Fintype ι] in
theorem runJobReturned_pc_of_ne (hne : i ≠ k) (hs : s.runJobReturned k job choice = some s') :
    s'.pc i = s.pc i := by
  unfold State.runJobReturned at hs
  split at hs
  case h_3 => cases hs
  all_goals
    cases hs
    exact goto_pc_of_ne hne

omit [Fintype ι] in
theorem ret_pc_of_ne (hne : i ≠ k) (hs : s.ret k choice = some s') : s'.pc i = s.pc i := by
  unfold State.ret at hs
  split at hs
  case h_7 => exact runJobReturned_pc_of_ne hne hs
  case h_9 =>
    split_ifs at hs
    exact runJobReturned_pc_of_ne hne hs
  case h_11 =>
    split_ifs at hs
    cases hs
    exact goto_pc_of_ne hne
  case h_20 => cases hs
  all_goals
    cases hs
    exact goto_pc_of_ne hne

omit [Fintype ι] in
theorem raise_pc_of_ne (hne : i ≠ k) (hs : s.raise k = some s') : s'.pc i = s.pc i := by
  unfold State.raise at hs
  split at hs
  case h_15 | h_16 | h_17 | h_18 => cases hs
  all_goals
    cases hs
    exact goto_pc_of_ne hne

omit [Fintype ι] in
theorem finish_pc_of_ne (hne : i ≠ k) (hs : s.finish k = some s') : s'.pc i = s.pc i := by
  unfold State.finish at hs
  split at hs
  case h_4 => cases hs
  all_goals
    cases hs
    exact goto_pc_of_ne hne

omit [Fintype ι] in
theorem enter_of_closed (hc : s.isOpen = false) (op : Op) : s.enter i op = s := by
  cases op with
  | close =>
    unfold State.enter State.modelClose
    dsimp only
    rw [if_neg (fun h => Bool.false_ne_true (hc.symm.trans h.1))]
  | embed | embedTokenIds | warmup =>
    unfold State.enter
    dsimp only
    rw [if_neg (fun h => Bool.false_ne_true (hc.symm.trans h))]

omit [Fintype ι] in
theorem goto_idle_outside : ((s.goto i .idle).pc i).outside = true := by
  unfold State.goto
  dsimp only
  rw [Function.update_self]
  rfl

omit [Fintype ι] in
theorem ret_outside (ho : (s.pc i).outside = true) (hs : s.ret i choice = some s') :
    (s'.pc i).outside = true := by
  unfold State.ret at hs
  split at hs
  case h_17 =>
    cases hs
    exact goto_idle_outside
  case h_20 => cases hs
  all_goals
    rename_i hp
    rw [hp] at ho
    cases ho

omit [Fintype ι] in
theorem raise_outside (ho : (s.pc i).outside = true) (hs : s.raise i = some s') :
    (s'.pc i).outside = true := by
  unfold State.raise at hs
  split at hs
  case h_12 =>
    cases hs
    exact goto_idle_outside
  case h_15 => cases hs
  all_goals
    rename_i hp
    rw [hp] at ho
    cases ho

omit [Fintype ι] in
theorem finish_of_outside (ho : (s.pc i).outside = true) : s.finish i = none := by
  unfold State.finish
  split
  case h_4 => rfl
  all_goals
    rename_i hp
    rw [hp] at ho
    cases ho

omit [Fintype ι] in
theorem step_outside {a : Act ι} (hs : step s a = some s') (hc : s.isOpen = false)
    (ho : (s.pc i).outside = true) : s'.isOpen = false ∧ (s'.pc i).outside = true := by
  cases a with
  | enter k op =>
    unfold step at hs
    dsimp only at hs
    split_ifs at hs
    rw [enter_of_closed hc op] at hs
    cases hs
    exact ⟨hc, ho⟩
  | ret k choice =>
    refine ⟨(ret_isOpen hs).trans hc, ?_⟩
    by_cases hk : i = k
    · rw [← hk] at hs
      exact ret_outside ho hs
    · rw [ret_pc_of_ne hk hs]
      exact ho
  | raise k =>
    refine ⟨(raise_isOpen hs).trans hc, ?_⟩
    by_cases hk : i = k
    · rw [← hk] at hs
      exact raise_outside ho hs
    · rw [raise_pc_of_ne hk hs]
      exact ho
  | finish k =>
    refine ⟨(finish_isOpen hs).trans hc, ?_⟩
    by_cases hk : i = k
    · change s.finish k = some s' at hs
      rw [← hk, finish_of_outside ho] at hs
      cases hs
    · rw [finish_pc_of_ne hk hs]
      exact ho
  | workerStart job | workerEnd job =>
    unfold step at hs
    dsimp only at hs
    split_ifs at hs
    cases hs
    exact ⟨hc, ho⟩

omit [Fintype ι] in
theorem not_reads_of_outside {a : Act ι} (hs : step s a = some s') (ho : (s.pc i).outside = true) :
    ¬ Reads s i a := by
  cases a with
  | enter k op | raise k => exact id
  | ret k choice =>
    rintro ⟨-, hr⟩
    rw [Pc.readsHeld_of_outside ho] at hr
    cases hr
  | finish k =>
    rintro rfl
    change s.finish k = some s' at hs
    rw [finish_of_outside ho] at hs
    cases hs
  | workerStart job | workerEnd job =>
    rintro ⟨-, hw⟩
    rw [Pc.watches_of_outside ho] at hw
    cases hw

theorem not_readsClosed_of_outside (hc : s.isOpen = false) (ho : (s.pc i).outside = true) :
    ¬ ReadsClosed s i := by
  rintro ⟨t, a, t', hrun, hstep, -, -, hreads⟩
  have ht : t.isOpen = false ∧ (t.pc i).outside = true :=
    hrun.invariant (fun t => t.isOpen = false ∧ (t.pc i).outside = true) ⟨hc, ho⟩
      fun _ _ _ h hs _ => step_outside hs h.1 h.2
  exact not_reads_of_outside hstep ht.2 hreads

theorem counted_goto {q : Pc} (hp : s.pc i = q) (hq : p.counted = q.counted) :
    (s.goto i p).counted = s.counted :=
  countWhere_update_same (hq.trans (congrArg Pc.counted hp.symm))

/-- The conversion of an id returns, and the ids are pooled with the lock held. -/
theorem readsClosed_of_converting (hrun : ReachableBy step Undisturbed s s')
    (hc : s'.isOpen = false) (hb : s'.counted < 2 ^ 32) (hp : s'.pc i = .converting job) :
    ReadsClosed s i := by
  refine ⟨s', .ret i .inline, s'.goto i (.idsChecking job), hrun, ?_, ⟨not_false, ?_⟩, hc, rfl, ?_⟩
  · change s'.ret i .inline = _
    unfold State.ret
    rw [hp]
  · rwa [counted_goto (p := .idsChecking job) hp rfl]
  · rw [hp]
    rfl

/-- A call that has passed `get_model` reads the mapping that has been closed under it. -/
theorem readsClosed_of_entered (hc : s.isOpen = false) (hb : s.counted < 2 ^ 32)
    (he : (s.pc i).entered = true) : ReadsClosed s i := by
  cases hp : s.pc i with
  | resolving =>
    refine ⟨s, .ret i .inline, s.goto i .idle, .start, ?_, ⟨not_false, ?_⟩, hc, rfl, ?_⟩
    · change s.ret i .inline = _
      unfold State.ret
      rw [hp]
    · rwa [counted_goto (p := .idle) hp rfl]
    · rw [hp]
      rfl
  | limiting =>
    have hcounted : (s.stage.goto i (.converting s.jobs)).counted < 2 ^ 32 := by
      rwa [counted_goto (s := s.stage) (p := .converting s.jobs) hp rfl]
    have hrun : ReachableBy step Undisturbed s (s.stage.goto i (.converting s.jobs)) := by
      refine .step (a := .ret i .done) .start ?_ ⟨not_false, hcounted⟩
      change s.ret i .done = _
      unfold State.ret
      rw [hp]
    exact readsClosed_of_converting hrun hc hcounted (Function.update_self i _ s.pc)
  | converting job => exact readsClosed_of_converting .start hc hb hp
  | _ =>
    rw [hp] at he
    cases he

end Behind

/-- Behind a `close` the mapping is read by the calls that are past `get_model` and not counted. -/
theorem Inv.readsClosed_iff (h : Inv s) (hb : s.counted < 2 ^ 32) {a : Act ι}
    (hs : step s a = some s') (ho : s.isOpen = true) (hc : s'.isOpen = false) :
    ReadsClosed s' i ↔ (s.pc i).entered = true := by
  obtain ⟨hz, rfl⟩ := eq_of_closed hs ho hc
  constructor
  · intro hr
    by_contra he
    have huncounted : (s.pc i).counted = false := by
      by_contra hcounted
      rw [h.activeOps_eq hb] at hz
      exact (countWhere_pos_iff.mpr ⟨i, Bool.eq_true_of_not_eq_false hcounted⟩).ne' hz
    exact not_readsClosed_of_outside hc
      (Pc.outside_of_uncounted huncounted (Bool.eq_false_of_not_eq_true he)) hr
  · exact readsClosed_of_entered hc hb

/-! ## What the counter guards -/

/-- **One interrupt in the handler is enough**: the input is freed, and then the model is closed, while
the worker reads both. -/
theorem active_ops_guard_interrupted :
    (∃ s t u : State (Fin 2), ReachableBy step (fun _ _ _ => True) State.opened s ∧
      step s (.raise 0) = some t ∧ step t (.enter 1 .close) = some u ∧
      s.worker 0 = some .reading ∧ s.staged 0 = true ∧ t.staged 0 = false ∧
      t.worker 0 = some .reading ∧ t.isOpen = true ∧ u.isOpen = false) ∧
    ¬ ∀ s : State (Fin 2), ReachableBy step (fun _ _ _ => True) State.opened s →
      s.activeOps = s.counted ∧ ∀ a s', step s a = some s' → Protected s s' := by
  have h₁ : ReachableBy step (fun _ _ _ => True) State.opened _ :=
    .step (a := Act.enter (0 : Fin 2) .embed) .start rfl trivial
  have h₂ := h₁.step (a := .ret 0 .nextRound) rfl trivial
  have h₃ := h₂.step (a := .ret 0 .fiber) rfl trivial
  have h₄ := h₃.step (a := .ret 0 .done) rfl trivial
  have h₅ := h₄.step (a := .workerStart 0) rfl trivial
  have h₆ := h₅.step (a := .raise 0) rfl trivial
  refine ⟨⟨_, _, _, h₆, rfl, rfl, rfl, rfl, rfl, rfl, rfl, rfl⟩, fun hclaim => ?_⟩
  have hp := (hclaim _ h₆).2 (.raise 0) _ rfl
  exact hp.input 0 rfl rfl (.inr (.inr rfl))

end StaticEmbeddings
