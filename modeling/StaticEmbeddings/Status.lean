import Mathlib.Tactic

/-!
# Status codes and errors

* `SeStatus`, `SeError`: `se_status_t` and `se_error_t` of `se_internal.h`; the fallible functions
  of the C side are values of `Except SeError`.
* `failIf`: one guarded `se_error_set … return`; `failIf_bind_eq_ok`.
-/

namespace StaticEmbeddings

/-- `se_status_t`. -/
inductive SeStatus
  | ok | errInvalidFormat | errUnsupportedVersion | errUnsupportedTokenizer | errInvalidUtf8
  | errOom | errIo | errEmptyInput | errInternal
  deriving DecidableEq, Repr

/-- `se_error_t`. -/
structure SeError where
  status : SeStatus
  message : String
  deriving DecidableEq, Repr

/-- `UINT32_MAX`. -/
abbrev uint32Max : ℕ := 0xFFFFFFFF

/-- `if (bad) { se_error_set(err, status, message); return status; }` -/
def failIf (bad : Prop) [Decidable bad] (status : SeStatus) (message : String) :
    Except SeError Unit :=
  if bad then .error ⟨status, message⟩ else .ok ()

section

variable {α β : Type} {bad : Prop} [Decidable bad] {status : SeStatus} {message : String}

@[simp] theorem failIf_eq_ok {u : Unit} : failIf bad status message = .ok u ↔ ¬ bad := by
  unfold failIf
  split_ifs with h <;> simp [h]

theorem bind_eq_ok {ε : Type} {x : Except ε α} {f : α → Except ε β} {b : β} :
    (x >>= f) = .ok b ↔ ∃ a, x = .ok a ∧ f a = .ok b := by
  rcases x with e | a
  · exact ⟨fun h => (nomatch h), fun ⟨_, h, _⟩ => (nomatch h)⟩
  · exact ⟨fun h => ⟨a, rfl, h⟩, fun ⟨_, h, h'⟩ => by cases h; exact h'⟩

/-- A guarded block succeeds exactly if its guard does not fire and the rest succeeds. -/
theorem failIf_bind_eq_ok {f : Unit → Except SeError β} {b : β} :
    (failIf bad status message >>= f) = .ok b ↔ ¬ bad ∧ f () = .ok b := by
  rw [bind_eq_ok]
  exact ⟨fun ⟨_, h, h'⟩ => ⟨failIf_eq_ok.mp h, h'⟩, fun ⟨h, h'⟩ => ⟨(), failIf_eq_ok.mpr h, h'⟩⟩

end

end StaticEmbeddings
