import StaticEmbeddings.Tokenizer.Machine

/-!
# Cancellation

A run that does not end with the failure of a cancelled one is the run under a flag that is never
set.

* `TokenParams.uncancelled`; `tokenizeAsciiRun_uncancelled`, `tokenizeLoop_uncancelled`.
* **`seTokenize_uncancelled`**, `seTokenize_uncancelled_of_ok`.
-/

namespace StaticEmbeddings

open LittleEndian

/-- The same run under a flag that is never set. -/
def TokenParams.uncancelled (p : TokenParams) : TokenParams := { p with cancelled := neverCancelled }

section

variable {p : TokenParams} {input : Bytes}

theorem not_cancelled (poll : CancelPoll) (c : Prop) :
    ¬ (c ∧ p.uncancelled.cancelled poll = true) := fun h => Bool.noConfusion h.2

theorem bind_eq_of_ne {α β : Type} {x : Except SeError α} {f g : α → Except SeError β} {e : SeError}
    (h : (x >>= f) ≠ .error e) (hfg : ∀ a, f a ≠ .error e → g a = f a) : (x >>= g) = (x >>= f) := by
  cases x with
  | error e => rfl
  | ok a => exact hfg a h

theorem tokenizeAsciiRun_class {n i : ℕ} {st : TokenState} {b : UInt8} (hb : input[i]? = some b)
    (hlt : ¬ b.toNat ≥ 0x80) (hm : matchAddedToken p.model input i = none)
    (hc : ¬ (i ≥ n ∧ p.cancelled (.asciiRun i) = true)) :
    tokenizeAsciiRun p input n i st =
      (let next := if i ≥ n then i + seAsciiCancelStride else n
      match asciiClass b.toNat with
      | .word =>
        let cp :=
          if p.model.doLowerCase ≠ 0 ∧ 0x41 ≤ b.toNat ∧ b.toNat ≤ 0x5A then b.toNat + 32
          else b.toNat
        tokenizeAsciiRun p input next (i + 1) { st with segment := st.segment ++ [cp] }
      | .drop => tokenizeAsciiRun p input next (i + 1) st
      | .space => do
        let st ← flushSegment p st
        if st.truncated then return (st, i) else tokenizeAsciiRun p input next (i + 1) st
      | .punct => do
        let st ← flushSegment p st
        if st.truncated then return (st, i) else
          let st ← appendWordpiece p st [b.toNat]
          if st.truncated then return (st, i + 1) else
            tokenizeAsciiRun p input next (i + 1) st) := by
  rw [tokenizeAsciiRun]
  split
  · rename_i hb'
    cases hb.symm.trans hb'
  rename_i hb'
  cases hb.symm.trans hb'
  rw [if_neg hlt]
  split
  · rename_i hm'
    cases hm.symm.trans hm'
  · exact if_neg hc

theorem tokenizeAsciiRun_uncancelled {n i : ℕ} {st : TokenState}
    (h : tokenizeAsciiRun p input n i st ≠ .error cancelledError) :
    tokenizeAsciiRun p.uncancelled input n i st = tokenizeAsciiRun p input n i st := by
  fun_induction tokenizeAsciiRun p input n i st with
  | case1 n i st hb =>
    rw [tokenizeAsciiRun]
    split
    · rfl
    · rename_i hb'
      cases hb.symm.trans hb'
  | case2 n i st b hb hge =>
    rw [tokenizeAsciiRun]
    split
    · rfl
    · rename_i hb'
      cases hb.symm.trans hb'
      exact if_pos hge
  | case3 n i st b hb hlt id len hm ih =>
    rw [tokenizeAsciiRun]
    split
    · rename_i hb'
      cases hb.symm.trans hb'
    rename_i hb'
    cases hb.symm.trans hb'
    rw [if_neg hlt]
    split
    · rename_i hm'
      cases hm.symm.trans hm'
      refine bind_eq_of_ne h fun st₁ h₁ => ?_
      split_ifs at h₁ ⊢
      · rfl
      refine bind_eq_of_ne h₁ fun st₂ h₂ => ?_
      split_ifs at h₂ ⊢
      · rfl
      · exact ih st₂ h₂
    · rename_i hm'
      cases hm.symm.trans hm'
  | case4 => exact absurd rfl h
  | case5 n i st b hb hlt hm hc next hcls cp ih =>
    rw [@tokenizeAsciiRun_class p.uncancelled _ _ _ _ _ hb hlt hm (not_cancelled _ _), hcls]
    exact ih h
  | case6 n i st b hb hlt hm hc next hcls ih =>
    rw [@tokenizeAsciiRun_class p.uncancelled _ _ _ _ _ hb hlt hm (not_cancelled _ _), hcls]
    exact ih h
  | case7 n i st b hb hlt hm hc next hcls ih =>
    rw [@tokenizeAsciiRun_class p.uncancelled _ _ _ _ _ hb hlt hm (not_cancelled _ _), hcls]
    refine bind_eq_of_ne h fun st₁ h₁ => ?_
    by_cases hs : st₁.truncated = true
    · simp only [if_pos hs]
    · simp only [if_neg hs] at h₁ ⊢
      exact ih st₁ h₁
  | case8 n i st b hb hlt hm hc next hcls ih =>
    rw [@tokenizeAsciiRun_class p.uncancelled _ _ _ _ _ hb hlt hm (not_cancelled _ _), hcls]
    refine bind_eq_of_ne h fun st₁ h₁ => ?_
    by_cases hs : st₁.truncated = true
    · simp only [if_pos hs]
    simp only [if_neg hs] at h₁ ⊢
    refine bind_eq_of_ne h₁ fun st₂ h₂ => ?_
    by_cases hs' : st₂.truncated = true
    · simp only [if_pos hs']
    · simp only [if_neg hs'] at h₂ ⊢
      exact ih st₂ h₂

theorem tokenizeLoop_uncancelled {iterations i : ℕ} {st : TokenState}
    (h : tokenizeLoop p input iterations i st ≠ .error cancelledError) :
    tokenizeLoop p.uncancelled input iterations i st = tokenizeLoop p input iterations i st := by
  -- the fast path of the two runs
  have fast : ∀ {b : UInt8} {i : ℕ} {st : TokenState} {r : Except SeError (TokenState × ℕ)},
      (if b.toNat < 0x80 then tokenizeAsciiRun p input (i + seAsciiCancelStride) i st
        else .ok (st, i)) = r → r ≠ .error cancelledError →
      (if b.toNat < 0x80 then tokenizeAsciiRun p.uncancelled input (i + seAsciiCancelStride) i st
        else .ok (st, i)) = r := fun {b i st r} hr hne => by
    split_ifs at hr ⊢
    · rw [tokenizeAsciiRun_uncancelled (hr ▸ hne), hr]
    · exact hr
  fun_induction tokenizeLoop p input iterations i st with
  | case1 it i st hb =>
    rw [tokenizeLoop]
    split
    · rfl
    · rename_i hb'
      cases hb.symm.trans hb'
  | case2 => exact absurd rfl h
  | case3 it i st b hb hcan e hr =>
    rw [tokenizeLoop]
    split
    · rename_i hb'
      cases hb.symm.trans hb'
    rename_i hb'
    cases hb.symm.trans hb'
    rw [if_neg (not_cancelled _ _)]
    split
    · rename_i hr'
      cases (fast hr fun h' => h (congrArg Except.error (Except.error.inj h'))).symm.trans hr'
      rfl
    · rename_i hr'
      cases (fast hr fun h' => h (congrArg Except.error (Except.error.inj h'))).symm.trans hr'
  | case4 it i st b hb hcan st₁ j hr hend =>
    rw [tokenizeLoop]
    split
    · rename_i hb'
      cases hb.symm.trans hb'
    rename_i hb'
    cases hb.symm.trans hb'
    rw [if_neg (not_cancelled _ _)]
    split
    · rename_i hr'
      cases (fast hr nofun).symm.trans hr'
    · rename_i hr'
      cases (fast hr nofun).symm.trans hr'
      exact if_pos hend
  | case5 it i st b hb hcan st₁ j hr hend hd =>
    rw [tokenizeLoop]
    split
    · rename_i hb'
      cases hb.symm.trans hb'
    rename_i hb'
    cases hb.symm.trans hb'
    rw [if_neg (not_cancelled _ _)]
    split
    · rename_i hr'
      cases (fast hr nofun).symm.trans hr'
    rename_i hr'
    cases (fast hr nofun).symm.trans hr'
    rw [if_neg hend]
    split
    · rfl
    · rename_i hd'
      cases hd.symm.trans hd'
  | case6 it i st b hb hcan st₁ j hr hend cp k hd ih =>
    rw [tokenizeLoop]
    split
    · rename_i hb'
      cases hb.symm.trans hb'
    rename_i hb'
    cases hb.symm.trans hb'
    rw [if_neg (not_cancelled _ _)]
    split
    · rename_i hr'
      cases (fast hr nofun).symm.trans hr'
    rename_i hr'
    cases (fast hr nofun).symm.trans hr'
    rw [if_neg hend]
    split
    · rename_i hd'
      cases hd.symm.trans hd'
    rename_i hd'
    cases hd.symm.trans hd'
    refine bind_eq_of_ne h fun st₂ h₂ => ?_
    split_ifs at h₂ ⊢
    · rfl
    · exact ih st₂ h₂

end

/-- **A run that does not end cancelled is the run without a cancel flag.** -/
theorem seTokenize_uncancelled {m : SeModel} {input : Bytes} {maxTokens : ℕ}
    {limitMode : SeTokenLimit} {cancelled : CancelPoll → Bool}
    (h : (seTokenize m input maxTokens limitMode cancelled).2 ≠ .error cancelledError) :
    seTokenize m input maxTokens limitMode neverCancelled =
      seTokenize m input maxTokens limitMode cancelled := by
  unfold seTokenize seTokenizeWith at h ⊢
  have hl : tokenizeLoop ⟨m, maxTokens, limitMode, cancelled, wordpiece m⟩ input 0 0 {} ≠
      .error cancelledError := fun hl => by
    rw [hl] at h
    exact h rfl
  exact congrArg (fun x => tokenResult (x >>= _)) (tokenizeLoop_uncancelled hl)

theorem seTokenize_uncancelled_of_ok {m : SeModel} {input : Bytes} {maxTokens : ℕ}
    {limitMode : SeTokenLimit} {cancelled : CancelPoll → Bool} {stats : SeTokenStats} {ids : List ℕ}
    (h : seTokenize m input maxTokens limitMode cancelled = (stats, .ok ids)) :
    seTokenize m input maxTokens limitMode neverCancelled = (stats, .ok ids) := by
  rw [seTokenize_uncancelled (by rw [h]; exact nofun), h]

end StaticEmbeddings
