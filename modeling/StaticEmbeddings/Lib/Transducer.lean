import Mathlib.Tactic

/-!
# Stoppable folds and transducers

* `StopFold.run`: a fold of a fallible step that ends where the state says stop; `run_append`,
  `run_flatMap`.
* `Transducer`: a machine that writes a list of outputs at every step and at the end; `out_append`.
* `Transducer.Resets`: an input that closes what is open and leaves the initial state;
  **`out_append_cons`**: there the output falls apart.
* **`Transducer.simulates_run`**: a stoppable fold whose steps perform the outputs of the
  transducer's steps performs the outputs of its run.
-/

namespace StopFold

variable {σ τ α β ε : Type} {stop : σ → Bool}

/-- Fold `f` over a list until the state says stop. -/
def run (stop : σ → Bool) (f : σ → α → Except ε σ) : σ → List α → Except ε σ
  | s, [] => .ok s
  | s, a :: as => if stop s then .ok s else f s a >>= fun s' => run stop f s' as

variable {f : σ → α → Except ε σ} {g : σ → β → Except ε σ}

@[simp] theorem run_nil (s : σ) : run stop f s [] = .ok s := rfl

theorem run_of_stop {s : σ} (h : stop s = true) (as : List α) : run stop f s as = .ok s := by
  cases as with
  | nil => rfl
  | cons a as => exact if_pos h

theorem run_cons {s : σ} (h : stop s = false) (a : α) (as : List α) :
    run stop f s (a :: as) = f s a >>= fun s' => run stop f s' as :=
  if_neg (by simp [h])

theorem run_singleton {s : σ} (h : stop s = false) (a : α) : run stop f s [a] = f s a := by
  rw [run_cons h]
  rcases f s a with e | s'
  · rfl
  · rfl

theorem run_append (s : σ) (as bs : List α) :
    run stop f s (as ++ bs) = run stop f s as >>= fun s' => run stop f s' bs := by
  induction as generalizing s with
  | nil => rfl
  | cons a as ih =>
    by_cases h : stop s = true
    · rw [run_of_stop h, run_of_stop h]
      exact (run_of_stop h bs).symm
    · rw [List.cons_append, run_cons (by simpa using h), run_cons (by simpa using h), bind_assoc]
      exact bind_congr fun s' => ih s'

theorem run_flatMap {e : α → List β} (h : ∀ s a, stop s = false → f s a = run stop g s (e a))
    (s : σ) (as : List α) : run stop f s as = run stop g s (as.flatMap e) := by
  induction as generalizing s with
  | nil => rfl
  | cons a as ih =>
    by_cases hs : stop s = true
    · rw [run_of_stop hs, run_of_stop hs]
    · rw [run_cons (by simpa using hs), List.flatMap_cons, run_append, h s a (by simpa using hs)]
      exact bind_congr fun s' => ih s'

theorem run_invariant {I : σ → Prop} {as : List α}
    (h : ∀ a ∈ as, ∀ s s', I s → f s a = .ok s' → I s') {s s' : σ} (hs : I s)
    (hr : run stop f s as = .ok s') : I s' := by
  induction as generalizing s with
  | nil => cases hr; exact hs
  | cons a as ih =>
    rw [List.forall_mem_cons] at h
    rw [run] at hr
    split_ifs at hr
    · cases hr
      exact hs
    · rcases hf : f s a with e | s₁
      · rw [hf] at hr
        cases hr
      · rw [hf] at hr
        exact ih h.2 (h.1 s s₁ hs hf) hr

end StopFold

/-- A deterministic transducer with a final output. -/
structure Transducer (σ α β : Type) where
  init : σ
  step : σ → α → List β × σ
  close : σ → List β

namespace Transducer

variable {σ τ ω α β ε : Type} (T : Transducer σ α β)

/-- The outputs of a run from a state, without the final one, and the state reached. -/
def run : σ → List α → List β × σ
  | s, [] => ([], s)
  | s, a :: as => ((T.step s a).1 ++ (run (T.step s a).2 as).1, (run (T.step s a).2 as).2)

theorem forall_mem_run {P : β → Prop} {as : List α}
    (h : ∀ a ∈ as, ∀ s, ∀ b ∈ (T.step s a).1, P b) (s : σ) : ∀ b ∈ (T.run s as).1, P b := by
  induction as generalizing s with
  | nil => exact fun b hb => (List.not_mem_nil hb).elim
  | cons a as ih =>
    rw [List.forall_mem_cons] at h
    intro b hb
    rcases List.mem_append.mp hb with hb | hb
    · exact h.1 s b hb
    · exact ih h.2 _ b hb

/-- Outputs whose weight a potential pays for. -/
theorem sum_run_le (weight : β → ℕ) (φ : σ → ℕ) {k : ℕ}
    (h : ∀ s a, ((T.step s a).1.map weight).sum + φ (T.step s a).2 ≤ φ s + k) (s : σ)
    (as : List α) : ((T.run s as).1.map weight).sum + φ (T.run s as).2 ≤ φ s + k * as.length := by
  induction as generalizing s with
  | nil => exact Nat.le_of_eq (Nat.zero_add _)
  | cons a as ih =>
    have hstep := h s a
    have hrest := ih (T.step s a).2
    simp only [run, List.map_append, List.sum_append, List.length_cons, Nat.mul_succ]
    omega

/-- The whole output for an input. -/
def out (as : List α) : List β := (T.run T.init as).1 ++ T.close (T.run T.init as).2

@[simp] theorem run_nil (s : σ) : T.run s [] = ([], s) := rfl

theorem run_cons (s : σ) (a : α) (as : List α) : T.run s (a :: as) =
    ((T.step s a).1 ++ (T.run (T.step s a).2 as).1, (T.run (T.step s a).2 as).2) := rfl

theorem run_append (s : σ) (as bs : List α) : T.run s (as ++ bs) =
    ((T.run s as).1 ++ (T.run (T.run s as).2 bs).1, (T.run (T.run s as).2 bs).2) := by
  induction as generalizing s with
  | nil => simp
  | cons a as ih => simp only [List.cons_append, run_cons, ih, List.append_assoc]

/-- The input `a` closes whatever is open and leaves the initial state. -/
def Resets (a : α) : Prop := ∀ s, T.step s a = (T.close s ++ (T.step T.init a).1, T.init)

variable {T}

/-- **At an input that resets, the output falls apart.** -/
theorem out_append_cons {a : α} (h : T.Resets a) (as bs : List α) :
    T.out (as ++ a :: bs) = T.out as ++ (T.step T.init a).1 ++ T.out bs := by
  simp only [out, run_append, run_cons]
  rw [h (T.run T.init as).2]
  simp only [List.append_assoc]

theorem out_cons {a : α} (h : T.Resets a) (hc : T.close T.init = []) (bs : List α) :
    T.out (a :: bs) = (T.step T.init a).1 ++ T.out bs := by
  have := out_append_cons h [] bs
  simpa [out, hc] using this

/-- A cut before an input that resets. -/
theorem out_append_of_head {a : α} (h : T.Resets a) (hc : T.close T.init = []) (as bs : List α) :
    T.out (as ++ a :: bs) = T.out as ++ T.out (a :: bs) := by
  rw [out_append_cons h, out_cons h hc, List.append_assoc]

theorem out_append_of_last {a : α} (h : T.Resets a) (hc : T.close T.init = []) (as bs : List α) :
    T.out (as ++ [a] ++ bs) = T.out (as ++ [a]) ++ T.out bs := by
  have hn : T.out [] = [] := by simp [out, hc]
  rw [List.append_assoc, List.singleton_append, out_append_cons h, out_append_cons h, hn,
    List.append_nil]

/-- The result `r` of concrete steps has done what the outputs `o` do, and is in state `s` unless
it has stopped. -/
def Simulates (stop : ω → Bool) (proj : τ → ω) (R : τ → σ → Prop) (r : Except ε τ)
    (o : Except ε ω) (s : σ) : Prop :=
  match r with
  | .ok t => o = .ok (proj t) ∧ (stop (proj t) = false → R t s)
  | .error e => o = .error e

/-- **Steps that perform the outputs of the transducer's steps perform its run.** -/
theorem simulates_run {stop : ω → Bool} {proj : τ → ω} {R : τ → σ → Prop}
    {F : τ → α → Except ε τ} {g : ω → β → Except ε ω}
    (h : ∀ t s a, stop (proj t) = false → R t s →
      Simulates stop proj R (F t a) (StopFold.run stop g (proj t) (T.step s a).1) (T.step s a).2)
    {t : τ} {s : σ} (hR : stop (proj t) = false → R t s) (as : List α) :
    Simulates stop proj R (StopFold.run (fun t => stop (proj t)) F t as)
      (StopFold.run stop g (proj t) (T.run s as).1) (T.run s as).2 := by
  induction as generalizing t s with
  | nil => exact ⟨rfl, hR⟩
  | cons a as ih =>
    by_cases hs : stop (proj t) = true
    · rw [show StopFold.run (fun t => stop (proj t)) F t (a :: as) = .ok t from
        if_pos hs, StopFold.run_of_stop hs]
      exact ⟨rfl, fun h' => absurd hs (by simp [h'])⟩
    · have hs' : stop (proj t) = false := by simpa using hs
      have hstep := h t s a hs' (hR hs')
      rw [show StopFold.run (fun t => stop (proj t)) F t (a :: as) =
        F t a >>= fun t' => StopFold.run (fun t => stop (proj t)) F t' as from
        if_neg hs, run_cons, StopFold.run_append]
      rcases hF : F t a with e | t'
      · rw [hF] at hstep
        simp only [Simulates] at hstep
        rw [hstep]
        exact rfl
      · rw [hF] at hstep
        obtain ⟨ho, hR'⟩ := hstep
        rw [ho]
        exact ih hR'

end Transducer
