import Mathlib.Data.List.ReduceOption
import Mathlib.Data.List.Perm.Basic
import Mathlib.Data.Nat.ModEq
import Mathlib.Order.Nat

/-!
# Linear probing

Open addressing in a list of slots: an entry lies at its home slot or, with wraparound, in the first
empty one after it.

* `search`: at most `n` probes, up to the first empty slot.
* `Reached`: a slot and the filled ones before it; `exists_first_empty`.
* `NoGap`: every entry is reached from its home; `NoGap.set`: one more entry.
* `Ordered`: entries with one home lie in the order of their insertion; `Ordered.set`.
* **`search_of_least`**, `search_eq_none`: what a search finds.
* `reduceOption_set`: the entries after a store.
-/

namespace LinearProbing

variable {σ : Type*}

/-- The entry at a position. -/
def entry (slots : List (Option σ)) (pos : ℕ) : Option σ := slots[pos]?.join

/-- At most `n` probes from `pos` on. -/
def search (slots : List (Option σ)) (test : σ → Bool) : ℕ → ℕ → Option σ
  | 0, _ => none
  | n + 1, pos =>
    match entry slots pos with
    | none => none
    | some s => if test s then some s else search slots test n ((pos + 1) % slots.length)

section

variable {slots : List (Option σ)} {i k : ℕ} {s : σ}

theorem entry_eq_some_iff : entry slots i = some s ↔ slots[i]? = some (some s) := by
  unfold entry
  cases slots[i]? with
  | none => exact ⟨nofun, nofun⟩
  | some o => exact ⟨fun h => congrArg some h, fun h => Option.some.inj h⟩

theorem exists_entry_of_mem (h : some s ∈ slots) : ∃ i, entry slots i = some s := by
  obtain ⟨i, hi⟩ := List.mem_iff_getElem?.mp h
  exact ⟨i, entry_eq_some_iff.mpr hi⟩

theorem mem_of_entry (h : entry slots i = some s) : some s ∈ slots :=
  List.mem_of_getElem? (entry_eq_some_iff.mp h)

theorem entry_set (h : i < slots.length) (s : σ) (j : ℕ) :
    entry (slots.set i (some s)) j = if i = j then some s else entry slots j := by
  unfold entry
  rw [List.getElem?_set]
  split_ifs with he
  · rfl
  · rfl

theorem step_mod (pos j size : ℕ) : ((pos + 1) % size + j) % size = (pos + (j + 1)) % size := by
  rw [Nat.mod_add_mod, Nat.add_assoc, Nat.add_comm 1 j]

/-! ## Places -/

/-- Slot `i` lies `k` steps after `home`, and the slots before it are filled. -/
structure Reached (slots : List (Option σ)) (home i k : ℕ) : Prop where
  lt : k < slots.length
  place : (home + k) % slots.length = i
  filled : ∀ j < k, (entry slots ((home + j) % slots.length)).isSome

theorem Reached.index_lt {home : ℕ} (h : Reached slots home i k) : i < slots.length := by
  rw [← h.place]
  exact Nat.mod_lt _ (Nat.zero_lt_of_lt h.lt)

theorem exists_first_empty (h : none ∈ slots) (home : ℕ) :
    ∃ i k, Reached slots home i k ∧ entry slots i = none := by
  obtain ⟨e, he⟩ := List.mem_iff_getElem?.mp h
  obtain ⟨hlt, -⟩ := List.getElem?_eq_some_iff.mp he
  have hentry : entry slots e = none := by
    rw [entry, he]
    rfl
  -- The empty slot is some number of steps ahead.
  have hex : ∃ k, entry slots ((home + k) % slots.length) = none := by
    refine ⟨e + (slots.length - home % slots.length), ?_⟩
    have hmod := Nat.mod_lt home (Nat.zero_lt_of_lt hlt)
    have hplace : (home + (e + (slots.length - home % slots.length))) % slots.length = e := by
      rw [← Nat.mod_add_mod, show home % slots.length + (e + (slots.length - home % slots.length)) =
        e + slots.length by omega, Nat.add_mod_right, Nat.mod_eq_of_lt hlt]
    rw [hplace, hentry]
  classical
  refine ⟨_, Nat.find hex, ⟨?_, rfl, fun j hj => ?_⟩, Nat.find_spec hex⟩
  · by_contra hge
    have hprev : entry slots ((home + (Nat.find hex - slots.length)) % slots.length) = none := by
      rw [← Nat.add_mod_right, Nat.add_assoc, Nat.sub_add_cancel (not_lt.mp hge)]
      exact Nat.find_spec hex
    exact Nat.find_min hex (by omega) hprev
  · exact Option.ne_none_iff_isSome.mp (Nat.find_min hex hj)

/-- Every entry is reached from its home in fewer than `limit` steps. -/
def NoGap (home : σ → ℕ) (limit : ℕ) (slots : List (Option σ)) : Prop :=
  ∀ i s, entry slots i = some s → ∃ k < limit, Reached slots (home s) i k

/-- **One more entry at the first empty slot after its home.** -/
theorem NoGap.set {home : σ → ℕ} {limit limit' : ℕ} (h : NoGap home limit slots)
    (hr : Reached slots (home s) i k) (hle : limit ≤ limit') (hk : k < limit') :
    NoGap home limit' (slots.set i (some s)) := by
  have hi := hr.index_lt
  -- Filled slots stay filled.
  have hkeep : ∀ {j home' k'}, Reached slots home' j k' →
      Reached (slots.set i (some s)) home' j k' := by
    rintro j home' k' ⟨h₁, h₂, h₃⟩
    refine ⟨by rwa [List.length_set], by rwa [List.length_set], fun j' hj' => ?_⟩
    rw [List.length_set, entry_set hi]
    split_ifs
    · rfl
    · exact h₃ j' hj'
  intro j t ht
  rw [entry_set hi] at ht
  by_cases he : i = j
  · rw [if_pos he] at ht
    cases ht
    subst he
    exact ⟨k, hk, hkeep hr⟩
  · rw [if_neg he] at ht
    obtain ⟨k', hk', hr'⟩ := h j t ht
    exact ⟨k', hk'.trans_le hle, hkeep hr'⟩

/-! ## The order of insertion -/

theorem Reached.steps_unique {slots' : List (Option σ)} {home l : ℕ} (h : Reached slots home i k)
    (h' : Reached slots' home i l) (hlen : slots'.length = slots.length) : k = l := by
  have hplace : (home + k) % slots.length = (home + l) % slots.length := by
    rw [h.place, ← hlen, h'.place]
  exact (Nat.ModEq.add_left_cancel' home hplace).eq_of_lt_of_lt h.lt (hlen ▸ h'.lt)

/-- Entries with the same home lie in the order of their ranks. -/
structure Ordered (home rank : σ → ℕ) (slots : List (Option σ)) : Prop where
  lt : ∀ {i j s t k l}, entry slots i = some s → entry slots j = some t → home s = home t →
    rank s < rank t → Reached slots (home s) i k → Reached slots (home t) j l → k < l

/-- **The entry that comes last lies behind the others.** -/
theorem Ordered.set {home rank : σ → ℕ} {limit : ℕ} (ho : Ordered home rank slots)
    (hg : NoGap home limit slots) (hr : Reached slots (home s) i k) (hempty : entry slots i = none)
    (hrank : ∀ t, some t ∈ slots → rank t < rank s) :
    Ordered home rank (slots.set i (some s)) := by
  have hi := hr.index_lt
  -- An entry that was there before has its steps from before.
  have hold : ∀ {j t l}, entry slots j = some t → Reached (slots.set i (some s)) (home t) j l →
      Reached slots (home t) j l := by
    intro j t l ht hr'
    obtain ⟨l', -, hl'⟩ := hg j t ht
    rwa [← hl'.steps_unique hr' List.length_set]
  refine ⟨fun {a b t u l l'} ht hu hsame hlt hl hl' => ?_⟩
  rw [entry_set hi] at ht hu
  by_cases ha : i = a
  · rw [if_pos ha] at ht
    cases ht
    by_cases hb : i = b
    · rw [if_pos hb] at hu
      cases hu
      exact absurd hlt (lt_irrefl _)
    · rw [if_neg hb] at hu
      exact absurd (hrank u (mem_of_entry hu)) hlt.asymm
  · rw [if_neg ha] at ht
    have htl := hold ht hl
    by_cases hb : i = b
    · rw [if_pos hb] at hu
      cases hu
      subst hb
      rw [← hr.steps_unique hl' List.length_set]
      by_contra hge
      obtain hgt | he := lt_or_eq_of_le (not_lt.mp hge)
      · have hfilled := htl.filled k hgt
        rw [hsame, hr.place, hempty] at hfilled
        cases hfilled
      · have hplace := htl.place
        rw [hsame, ← he, hr.place] at hplace
        exact ha hplace
    · rw [if_neg hb] at hu
      exact ho.lt ht hu hsame hlt htl (hold hu hl')

/-! ## Searching -/

variable {test : σ → Bool}

theorem search_of_reached (htest : test s = true) {n pos : ℕ} (hpos : pos < slots.length)
    (hk : k < n) (hplace : entry slots ((pos + k) % slots.length) = some s)
    (hbefore : ∀ j < k, ∃ s', entry slots ((pos + j) % slots.length) = some s' ∧
      (test s' = true → s' = s)) : search slots test n pos = some s := by
  induction k generalizing n pos with
  | zero =>
    obtain ⟨n, rfl⟩ := Nat.exists_eq_succ_of_ne_zero hk.ne'
    rw [Nat.add_zero, Nat.mod_eq_of_lt hpos] at hplace
    unfold search
    rw [hplace]
    exact if_pos htest
  | succ k ih =>
    obtain ⟨n, rfl⟩ := Nat.exists_eq_succ_of_ne_zero (Nat.zero_lt_of_lt hk).ne'
    obtain ⟨s', hs', hfirst⟩ := hbefore 0 (Nat.succ_pos k)
    rw [Nat.add_zero, Nat.mod_eq_of_lt hpos] at hs'
    unfold search
    rw [hs']
    by_cases ht : test s' = true
    · obtain rfl := hfirst ht
      exact if_pos ht
    · refine (if_neg ht).trans ?_
      refine ih (Nat.mod_lt _ (Nat.zero_lt_of_lt hpos)) (Nat.lt_of_succ_lt_succ hk) ?_
        fun j hj => ?_
      · rwa [step_mod]
      · rw [step_mod]
        exact hbefore (j + 1) (Nat.succ_lt_succ hj)

/-- **A search from the home of an entry finds it**, if it passes the test and every other entry
that does has the same home and a greater rank. -/
theorem search_of_least {home rank : σ → ℕ} {limit : ℕ} (h : NoGap home limit slots)
    (ho : Ordered home rank slots) (hs : some s ∈ slots) (hhome : home s < slots.length)
    (htest : test s = true) (hleast : ∀ s', some s' ∈ slots → test s' = true →
      s' = s ∨ (home s' = home s ∧ rank s < rank s')) :
    search slots test limit (home s) = some s := by
  obtain ⟨i, hi⟩ := exists_entry_of_mem hs
  obtain ⟨k, hk, hr⟩ := h i s hi
  refine search_of_reached htest hhome hk (by rw [hr.place, hi]) fun j hj => ?_
  obtain ⟨s', hs'⟩ := Option.isSome_iff_exists.mp (hr.filled j hj)
  refine ⟨s', hs', fun ht => ?_⟩
  obtain he | ⟨hsame, hlt⟩ := hleast s' (mem_of_entry hs') ht
  · exact he
  · have hr' : Reached slots (home s') ((home s + j) % slots.length) j :=
      ⟨hj.trans hr.lt, by rw [hsame], fun j' hj' => hsame ▸ hr.filled j' (hj'.trans hj)⟩
    exact absurd (ho.lt hi hs' hsame.symm hlt hr hr') hj.asymm

theorem search_eq_none (htest : ∀ s, some s ∈ slots → test s = false) (n pos : ℕ) :
    search slots test n pos = none := by
  induction n generalizing pos with
  | zero => rfl
  | succ n ih =>
    unfold search
    cases h : entry slots pos with
    | none => rfl
    | some s =>
      refine (if_neg ?_).trans (ih _)
      rw [htest s (mem_of_entry h)]
      exact Bool.false_ne_true

/-! ## Entries -/

theorem reduceOption_set (hi : i < slots.length) (hempty : entry slots i = none) (s : σ) :
    (slots.set i (some s)).reduceOption.Perm (s :: slots.reduceOption) := by
  have hslot : slots[i] = none := by
    unfold entry at hempty
    rwa [List.getElem?_eq_getElem hi] at hempty
  have hsplit : slots = slots.take i ++ none :: slots.drop (i + 1) := by
    rw [← hslot, ← List.drop_eq_getElem_cons hi, List.take_append_drop]
  rw [List.set_eq_take_append_cons_drop, if_pos hi, List.reduceOption_append,
    List.reduceOption_cons_of_some]
  conv_rhs => rw [hsplit, List.reduceOption_append, List.reduceOption_cons_of_none]
  exact List.perm_middle

end

end LinearProbing
