import StaticEmbeddings.Lib.Transducer

/-!
# Splitting in passes, and in one pass

A list is first split at its separators and then every field at its marks, which are fields of their
own. `scanner` does the same in one pass with an open field as its state.

* `isolateStep`, `isolate`: a field split at its marks; `isolate_append_cons`.
* `fields`: the nonempty fields between separators; `flatMap_isolate_fields`.
* `scanner`; **`scanner_out`**: one pass writes what the two passes write.
* `Field`, `field_of_mem`: what the fields are made of.
-/

namespace Splitting

variable {α : Type}

/-- The open field, unless it is empty. -/
def flush (field : List α) : List (List α) := if field.isEmpty then [] else [field]

section

variable (sep mark : α → Bool)

/-- One element in the pass over a field: the fields behind it and the open one. -/
def isolateStep (s : List (List α) × List α) (a : α) : List (List α) × List α :=
  if mark a then (s.1 ++ flush s.2 ++ [[a]], []) else (s.1, s.2 ++ [a])

/-- A field split at its marks. -/
def isolate (field : List α) : List (List α) :=
  let s := field.foldl (isolateStep mark) ([], [])
  s.1 ++ flush s.2

/-- The nonempty fields between separators. -/
def fields (xs : List α) : List (List α) := (xs.splitOnP sep).filter fun field => !field.isEmpty

/-- Separators and marks in one pass. -/
def scanner : Transducer (List α) α (List α) where
  init := []
  step field a :=
    if sep a then (flush field, [])
    else if mark a then (flush field ++ [[a]], [])
    else ([], field ++ [a])
  close := flush

end

variable {sep mark : α → Bool} {field xs : List α} {a : α}

@[simp] theorem flush_nil : flush ([] : List α) = [] := rfl

/-! ## Marks -/

theorem foldl_isolateStep (out : List (List α)) (last : List α) (xs : List α) :
    xs.foldl (isolateStep mark) (out, last) =
      (out ++ (xs.foldl (isolateStep mark) ([], last)).1,
        (xs.foldl (isolateStep mark) ([], last)).2) := by
  induction xs generalizing out last with
  | nil => simp
  | cons a xs ih =>
    simp only [List.foldl_cons, isolateStep]
    split_ifs
    · rw [ih, ih ([] ++ flush last ++ [[a]])]
      simp only [List.nil_append, List.append_assoc]
    · exact ih out (last ++ [a])

theorem foldl_isolateStep_of_unmarked (h : ∀ a ∈ xs, mark a = false) (s : List (List α) × List α) :
    xs.foldl (isolateStep mark) s = (s.1, s.2 ++ xs) := by
  induction xs generalizing s with
  | nil => simp
  | cons a xs ih =>
    rw [List.forall_mem_cons] at h
    rw [List.foldl_cons, isolateStep, if_neg (by simp [h.1]), ih h.2, List.append_assoc,
      List.singleton_append]

theorem isolate_of_unmarked (h : ∀ a ∈ field, mark a = false) : isolate mark field = flush field := by
  rw [isolate, foldl_isolateStep_of_unmarked h]
  rfl

/-- **A mark ends a field and is one.** -/
theorem isolate_append_cons (h : mark a = true) (xs ys : List α) :
    isolate mark (xs ++ a :: ys) = isolate mark xs ++ [a] :: isolate mark ys := by
  simp only [isolate, List.foldl_append, List.foldl_cons]
  rw [isolateStep, if_pos h, foldl_isolateStep]
  simp only [List.append_assoc, List.cons_append, List.nil_append]

theorem flatMap_isolate_fields (xs : List α) :
    (fields sep xs).flatMap (isolate mark) = (xs.splitOnP sep).flatMap (isolate mark) := by
  unfold fields
  induction xs.splitOnP sep with
  | nil => rfl
  | cons field rest ih =>
    cases field with
    | nil =>
      rw [List.filter_cons_of_neg (by simp), ih]
      rfl
    | cons a field =>
      rw [List.filter_cons_of_pos (by simp), List.flatMap_cons, List.flatMap_cons, ih]

/-! ## One pass -/

theorem splitOnP_append (h : ∀ a ∈ field, sep a = false) (xs : List α) :
    (field ++ xs).splitOnP sep = (xs.splitOnP sep).modifyHead (field ++ ·) := by
  induction field with
  | nil =>
    cases hs : xs.splitOnP sep with
    | nil => exact hs
    | cons w ws => exact hs
  | cons a field ih =>
    rw [List.forall_mem_cons] at h
    rw [List.cons_append, List.splitOnP_cons_eq_if_modifyHead, if_neg (by simp [h.1]), ih h.2,
      List.modifyHead_modifyHead]
    rfl

/-- **The scanner from an open field on.** -/
theorem scanner_run (hsep : ∀ a ∈ field, sep a = false) (hmark : ∀ a ∈ field, mark a = false)
    (xs : List α) : ((scanner sep mark).run field xs).1 ++ flush ((scanner sep mark).run field xs).2 =
      ((field ++ xs).splitOnP sep).flatMap (isolate mark) := by
  induction xs generalizing field with
  | nil =>
    rw [List.append_nil, List.splitOnP_eq_singleton hsep, List.flatMap_singleton,
      isolate_of_unmarked hmark]
    rfl
  | cons a xs ih =>
    have hnil := @ih [] (fun _ h => absurd h List.not_mem_nil) (fun _ h => absurd h List.not_mem_nil)
    rw [List.nil_append] at hnil
    rw [Transducer.run_cons]
    by_cases hs : sep a = true
    · rw [show (scanner sep mark).step field a = (flush field, []) from if_pos hs,
        List.append_assoc, hnil, List.splitOnP_append_cons_of_forall_mem hsep a hs,
        List.flatMap_cons, isolate_of_unmarked hmark]
    · by_cases hm : mark a = true
      · -- the mark stands in the first field of what is left
        have hstep : (scanner sep mark).step field a = (flush field ++ [[a]], []) :=
          (if_neg hs).trans (if_pos hm)
        have hpre : ∀ b ∈ field ++ [a], sep b = false := by
          intro b hb
          obtain hb | hb := List.mem_append.mp hb
          · exact hsep b hb
          · rw [List.mem_singleton.mp hb]
            exact Bool.eq_false_iff.mpr hs
        have hsplit : field ++ a :: xs = field ++ [a] ++ xs := by
          rw [List.append_assoc, List.singleton_append]
        rw [hstep, List.append_assoc, hnil, hsplit, splitOnP_append hpre]
        cases hw : xs.splitOnP sep with
        | nil => exact absurd hw (List.splitOnP_ne_nil _ _)
        | cons w ws =>
          rw [List.modifyHead_cons, List.flatMap_cons, List.flatMap_cons, List.append_assoc field,
            List.singleton_append, isolate_append_cons hm, isolate_of_unmarked hmark]
          simp only [List.append_assoc, List.cons_append, List.nil_append]
      · have hstep : (scanner sep mark).step field a = ([], field ++ [a]) :=
          (if_neg hs).trans (if_neg hm)
        have hgrow : ∀ p : α → Bool, p a = false → (∀ b ∈ field, p b = false) →
            ∀ b ∈ field ++ [a], p b = false := by
          intro p ha h b hb
          obtain hb | hb := List.mem_append.mp hb
          · exact h b hb
          · rwa [List.mem_singleton.mp hb]
        rw [hstep, List.nil_append, ih (hgrow sep (by simpa using hs) hsep)
          (hgrow mark (by simpa using hm) hmark), List.append_assoc, List.singleton_append]

/-- **One pass writes what the two passes write.** -/
theorem scanner_out (xs : List α) :
    (scanner sep mark).out xs = (fields sep xs).flatMap (isolate mark) := by
  have hrun := @scanner_run α sep mark [] (fun _ h => absurd h List.not_mem_nil)
    (fun _ h => absurd h List.not_mem_nil) xs
  rw [List.nil_append] at hrun
  rw [flatMap_isolate_fields, ← hrun]
  rfl

/-! ## Fields -/

/-- A mark, or elements that are neither marks nor separators. -/
def Field (sep mark : α → Bool) (field : List α) : Prop :=
  (∃ a, field = [a]) ∨ (field ≠ [] ∧ ∀ a ∈ field, sep a = false ∧ mark a = false)

/-- An open field. -/
def Open (sep mark : α → Bool) (P : α → Prop) (field : List α) : Prop :=
  ∀ a ∈ field, P a ∧ sep a = false ∧ mark a = false

/-- **What is written is a field** of elements of the list. -/
theorem field_of_mem_run {P : α → Prop} (h : Open sep mark P field) (hxs : ∀ a ∈ xs, P a)
    {w : List α} (hw : w ∈ ((scanner sep mark).run field xs).1 ++
      flush ((scanner sep mark).run field xs).2) : Field sep mark w ∧ ∀ a ∈ w, P a := by
  have hflush : ∀ {f : List α}, Open sep mark P f → w ∈ flush f → Field sep mark w ∧ ∀ a ∈ w, P a := by
    intro f hf hw
    unfold flush at hw
    split_ifs at hw with he
    · exact absurd hw List.not_mem_nil
    · rw [List.mem_singleton.mp hw]
      exact ⟨.inr ⟨by simpa using he, fun a ha => (hf a ha).2⟩, fun a ha => (hf a ha).1⟩
  have hnil : Open sep mark P [] := fun a ha => absurd ha List.not_mem_nil
  induction xs generalizing field with
  | nil => exact hflush h hw
  | cons a xs ih =>
    rw [List.forall_mem_cons] at hxs
    rw [Transducer.run_cons] at hw
    by_cases hs : sep a = true
    · rw [show (scanner sep mark).step field a = (flush field, []) from if_pos hs,
        List.append_assoc, List.mem_append] at hw
      exact hw.elim (hflush h) (ih hnil hxs.2)
    · by_cases hm : mark a = true
      · rw [show (scanner sep mark).step field a = (flush field ++ [[a]], []) from
          (if_neg hs).trans (if_pos hm), List.append_assoc, List.append_assoc, List.mem_append,
          List.singleton_append, List.mem_cons] at hw
        rcases hw with hw | rfl | hw
        · exact hflush h hw
        · exact ⟨.inl ⟨a, rfl⟩, fun b hb => by rw [List.mem_singleton.mp hb]; exact hxs.1⟩
        · exact ih hnil hxs.2 hw
      · rw [show (scanner sep mark).step field a = ([], field ++ [a]) from
          (if_neg hs).trans (if_neg hm), List.nil_append] at hw
        refine ih (fun b hb => ?_) hxs.2 hw
        obtain hb | hb := List.mem_append.mp hb
        · exact h b hb
        · rw [List.mem_singleton.mp hb]
          exact ⟨hxs.1, by simpa using hs, by simpa using hm⟩

theorem field_of_mem {P : α → Prop} (hxs : ∀ a ∈ xs, P a) {w : List α}
    (hw : w ∈ (fields sep xs).flatMap (isolate mark)) : Field sep mark w ∧ ∀ a ∈ w, P a := by
  rw [← scanner_out] at hw
  exact field_of_mem_run (fun a ha => absurd ha List.not_mem_nil) hxs hw

theorem flatMap_isolate_fields_congr {sep' mark' : α → Bool}
    (h : ∀ a ∈ xs, sep a = sep' a ∧ mark a = mark' a) :
    (fields sep xs).flatMap (isolate mark) = (fields sep' xs).flatMap (isolate mark') := by
  have hrun : ∀ field, (scanner sep mark).run field xs = (scanner sep' mark').run field xs := by
    induction xs with
    | nil => exact fun field => rfl
    | cons a xs ih =>
      rw [List.forall_mem_cons] at h
      intro field
      have hstep : (scanner sep mark).step field a = (scanner sep' mark').step field a := by
        simp only [scanner, h.1.1, h.1.2]
      rw [Transducer.run_cons, Transducer.run_cons, hstep, ih h.2]
  rw [← scanner_out, ← scanner_out, Transducer.out, Transducer.out]
  exact congrArg (fun r : List (List α) × List α => r.1 ++ flush r.2) (hrun [])

end Splitting
