import Mathlib.Data.Nat.Size
import StaticEmbeddings.Convert.HashTable
import StaticEmbeddings.Format.Packed
import StaticEmbeddings.Format.Readers
import StaticEmbeddings.Lib.LinearProbing

/-!
# The converter's hash table in the file

`HashTable.build` on distinct tokens, and what the loader's checks and lookups make of the result.

* `length_le_of_nodup`: how many distinct strings fit into the blob.
* `sizeFor_spec`, `nextPowerOfTwo_spec`: the size keeps the load factor.
* `TableInv`, `insert_spec`, `buildLoop_spec`: the table after some of the tokens.
* `checkVocabSlots_built`, `probesOk_built`, `seVocabLookup?_built`: the table in the file.
* **`hash_table_lookup`**.
-/

namespace StaticEmbeddings

open LittleEndian LinearProbing

/-! ## The number of tokens -/

/-- A number for every string of at most two bytes. -/
def shortCode : Bytes → ℕ
  | [] => 0
  | [a] => 1 + a.toNat
  | [a, b] => 257 + 256 * a.toNat + b.toNat
  | _ => 0

theorem shortCode_lt (w : Bytes) : shortCode w < 65793 := by
  unfold shortCode
  split
  · norm_num
  · next a => have := a.toNat_lt; omega
  · next a b => have := a.toNat_lt; have := b.toNat_lt; omega
  · norm_num

theorem shortCode_inj {v w : Bytes} (hv : v.length ≤ 2) (hw : w.length ≤ 2)
    (h : shortCode v = shortCode w) : v = w := by
  match v, w with
  | [], [] => rfl
  | [], [a] => simp only [shortCode] at h; omega
  | [], [a, b] => simp only [shortCode] at h; omega
  | [a], [] => simp only [shortCode] at h; omega
  | [a, b], [] => simp only [shortCode] at h; omega
  | [a], [b] =>
    rw [UInt8.toNat_inj.mp (Nat.add_left_cancel h)]
  | [a], [b, c] =>
    have := a.toNat_lt
    simp only [shortCode] at h
    omega
  | [a, b], [c] =>
    have := c.toNat_lt
    simp only [shortCode] at h
    omega
  | [a, b], [c, d] =>
    have := b.toNat_lt
    have := d.toNat_lt
    simp only [shortCode] at h
    rw [UInt8.toNat_inj.mp (show a.toNat = c.toNat by omega),
      UInt8.toNat_inj.mp (show b.toNat = d.toNat by omega)]
  | _ :: _ :: _ :: _, _ => simp only [List.length_cons] at hv; omega
  | _, _ :: _ :: _ :: _ => simp only [List.length_cons] at hw; omega

/-- The most distinct strings whose bytes can be below `2 ^ 32`, roughly. -/
abbrev maxTokenCount : ℕ := 65793 + 2 ^ 32 / 3

theorem three_mul_length_le {ws : List Bytes} (h : ∀ w ∈ ws, 3 ≤ w.length) :
    3 * ws.length ≤ (ws.map List.length).sum := by
  induction ws with
  | nil => exact le_rfl
  | cons w ws ih =>
    obtain ⟨h₁, h₂⟩ := List.forall_mem_cons.mp h
    have := ih h₂
    rw [List.length_cons, List.map_cons, List.sum_cons]
    omega

/-- **Few distinct strings are short, so there are not too many of them.** -/
theorem length_le_of_nodup {tokens : List Bytes} (hd : tokens.Nodup)
    (hb : (tokens.map List.length).sum < 2 ^ 32) : tokens.length ≤ maxTokenCount := by
  have hshort : (tokens.filter fun w => w.length ≤ 2).length ≤ 65793 := by
    have hinj : ((tokens.filter fun w => w.length ≤ 2).map shortCode).Nodup := by
      refine (hd.filter _).map_on fun v hv w hw => ?_
      exact shortCode_inj (by simpa using (List.mem_filter.mp hv).2)
        (by simpa using (List.mem_filter.mp hw).2)
    have hsub : ((tokens.filter fun w => w.length ≤ 2).map shortCode).toFinset ⊆
        Finset.range 65793 := by
      intro c hc
      obtain ⟨w, -, rfl⟩ := List.mem_map.mp (List.mem_toFinset.mp hc)
      exact Finset.mem_range.mpr (shortCode_lt w)
    have hcard := Finset.card_le_card hsub
    rwa [List.toFinset_card_of_nodup hinj, List.length_map, Finset.card_range] at hcard
  have hlong : 3 * (tokens.filter fun w => ¬ w.length ≤ 2).length ≤
      ((tokens.filter fun w => ¬ w.length ≤ 2).map List.length).sum := by
    refine three_mul_length_le fun w hw => ?_
    have := (List.mem_filter.mp hw).2
    simp only [decide_eq_true_eq] at this
    omega
  have hsum : ((tokens.filter fun w => ¬ w.length ≤ 2).map List.length).sum ≤
      (tokens.map List.length).sum :=
    List.Sublist.sum_le_sum (List.filter_sublist.map _) fun _ _ => Nat.zero_le _
  have hsplit := List.length_eq_length_filter_add (l := tokens) fun w => decide (w.length ≤ 2)
  have hnot : (tokens.filter fun w => !decide (w.length ≤ 2)).length =
      (tokens.filter fun w => ¬ w.length ≤ 2).length := by
    congr 2
    funext w
    simp only [decide_not]
  show tokens.length ≤ 65793 + 2 ^ 32 / 3
  omega

/-! ## Sizes -/

theorem roundHalfEven_spec (p : ℕ) {q : ℕ} (hq : 0 < q) :
    2 * (roundHalfEven p q * q) ≤ 2 * p + q ∧ 2 * p ≤ 2 * (roundHalfEven p q * q) + q := by
  have hdiv := Nat.div_add_mod p q
  have hmod := Nat.mod_lt p hq
  rw [Nat.mul_comm q] at hdiv
  unfold roundHalfEven
  split_ifs with h₁ h₂
  · omega
  · rw [Nat.add_one_mul (p / q)]
    omega
  · obtain he | he := Nat.mod_two_eq_zero_or_one (p / q)
    · rw [he, Nat.add_zero]
      omega
    · rw [he, Nat.add_one_mul (p / q)]
      omega

/-- The ceiling of a rounded quotient is off by at most one. -/
theorem quotientCeil_spec {p q : ℕ} (hq : 0 < q) (hbits : (p / q).size ≤ 53) :
    2 * p ≤ (2 * quotientCeil p q + 1) * q ∧ quotientCeil p q * q ≤ p + q := by
  unfold quotientCeil
  simp only [if_pos hbits]
  have hK := Nat.two_pow_pos (53 - (p / q).size)
  generalize 2 ^ (53 - (p / q).size) = K at *
  obtain ⟨hup, hlow⟩ := roundHalfEven_spec (p * K) hq
  generalize roundHalfEven (p * K) q = r at *
  have hdiv := Nat.div_add_mod (r + K - 1) K
  have hmod := Nat.mod_lt (r + K - 1) hK
  generalize (r + K - 1) / K = c at *
  -- `c` is the ceiling of `r / K`.
  have h₁ : r ≤ c * K := by
    rw [Nat.mul_comm]
    omega
  have h₂ : c * K ≤ r + K - 1 := by
    rw [Nat.mul_comm]
    omega
  have h₁q : r * q ≤ c * K * q := Nat.mul_le_mul_right q h₁
  have h₂q : c * K * q ≤ (r + K - 1) * q := Nat.mul_le_mul_right q h₂
  have hqK : q ≤ q * K := Nat.le_mul_of_pos_right q hK
  constructor
  · refine Nat.le_of_mul_le_mul_right ?_ hK
    calc 2 * p * K = 2 * (p * K) := by ring
      _ ≤ 2 * (r * q) + q := hlow
      _ ≤ 2 * (c * K * q) + q * K := by omega
      _ = (2 * c + 1) * q * K := by ring
  · refine Nat.le_of_mul_le_mul_right ?_ hK
    have hsub : (r + K - 1) * q + q = r * q + K * q := by
      rw [← Nat.add_one_mul, show r + K - 1 + 1 = r + K by omega, Nat.add_mul]
    calc c * q * K = c * K * q := by ring
      _ ≤ p * K + q * K := by
        rw [Nat.mul_comm q K]
        omega
      _ = (p + q) * K := by ring

/-- **The size before rounding up to a power of two keeps the load factor.** -/
theorem sizeFor_spec {n : ℕ} (hpos : 0 < n) (hn : n < 2 ^ 32) :
    10 * n ≤ 7 * sizeFor n ∧ (n ≤ maxTokenCount → sizeFor n ≤ 2 ^ 31) := by
  have hto : toF n = n := if_pos (Nat.size_le.mpr (hn.trans (by norm_num)))
  have hbits : (n * 2 ^ 53 / loadFactor).size ≤ 53 := by
    rw [Nat.size_le]
    exact Nat.div_lt_of_lt_mul (show n * 2 ^ 53 < 6305039478318694 * 2 ^ 53 by omega)
  obtain ⟨h₁, h₂⟩ := quotientCeil_spec (show 0 < loadFactor by norm_num) hbits
  rw [sizeFor, if_neg hpos.ne', hto]
  generalize quotientCeil (n * 2 ^ 53) loadFactor = c at *
  unfold maxTokenCount
  rw [show loadFactor = 6305039478318694 from rfl] at h₁ h₂
  constructor
  · omega
  · intro hle
    omega

theorem nextPowerOfTwo_spec {v : ℕ} (hpos : 0 < v) :
    ∃ k, nextPowerOfTwo v = 2 ^ k ∧ v ≤ 2 ^ k ∧ (v ≤ 2 ^ 31 → k ≤ 31) := by
  refine ⟨(v - 1).size, by rw [nextPowerOfTwo, Nat.shiftLeft_eq, Nat.one_mul], ?_, fun hv => ?_⟩
  · have := Nat.lt_size_self (v - 1)
    omega
  · exact Nat.size_le.mpr (by omega)

namespace HashTable

/-! ## Insertion -/

theorem hashBytes_eq (bytes : Bytes) : hashBytes bytes = hashBytesContinue hashSeed bytes := by
  unfold hashBytes hashBytesContinue
  congr 1
  funext h b
  rw [show uint32Max = 2 ^ 32 - 1 from rfl, Nat.and_two_pow_sub_one_eq_mod]

theorem hashBytes_lt (bytes : Bytes) : hashBytes bytes < 2 ^ 32 := by
  rw [hashBytes_eq]
  have hstep : ∀ (l : Bytes) (h : ℕ), h < 2 ^ 32 → hashBytesContinue h l < 2 ^ 32 := by
    intro l
    induction l with
    | nil => exact fun h hh => hh
    | cons b l ih => exact fun h _ => ih _ (Nat.mod_lt _ (by norm_num))
  exact hstep bytes hashSeed (by norm_num)

section

variable {tokens : List Bytes} {size k : ℕ} {slots : Slots}

theorem and_mask (hsize : size = 2 ^ k) (x : ℕ) : x &&& (size - 1) = x % size := by
  rw [hsize, Nat.and_two_pow_sub_one_eq_mod]

/-- `insert` stores at the first empty slot and counts the slots it has looked at. -/
theorem insert_of_filled {bytes : Bytes} {hash offset id : ℕ} (hsize : size = 2 ^ k)
    (hnew : ∀ s, some s ∈ slots → tokens[s.tokenId]? ≠ some bytes) {d fuel pos probe : ℕ}
    (hpos : pos < size) (hd : d < fuel) (hempty : entry slots ((pos + d) % size) = none)
    (hfilled : ∀ j < d, (entry slots ((pos + j) % size)).isSome) :
    insert tokens size bytes hash offset id slots fuel pos probe =
      .ok (slots.set ((pos + d) % size) (some ⟨hash, offset, bytes.length, id⟩), probe + d) := by
  induction d generalizing fuel pos probe with
  | zero =>
    obtain ⟨fuel, rfl⟩ := Nat.exists_eq_succ_of_ne_zero hd.ne'
    rw [Nat.add_zero, Nat.mod_eq_of_lt hpos] at hempty ⊢
    unfold insert
    rw [show slots[pos]?.join = none from hempty]
    rfl
  | succ d ih =>
    obtain ⟨fuel, rfl⟩ := Nat.exists_eq_succ_of_ne_zero (Nat.zero_lt_of_lt hd).ne'
    have hfirst := hfilled 0 (Nat.succ_pos d)
    rw [Nat.add_zero, Nat.mod_eq_of_lt hpos] at hfirst
    obtain ⟨s, hs⟩ := Option.isSome_iff_exists.mp hfirst
    unfold insert
    rw [show slots[pos]?.join = some s from hs]
    refine (if_neg fun h => hnew s (mem_of_entry hs) h.2.2).trans ?_
    rw [and_mask hsize, ← step_mod pos d size, ih (Nat.mod_lt _ (Nat.zero_lt_of_lt hpos))
      (Nat.lt_of_succ_lt_succ hd) (by rwa [step_mod]) fun j hj => by
        rw [step_mod]
        exact hfilled (j + 1) (Nat.succ_lt_succ hj), Nat.add_assoc, Nat.add_comm 1 d]

/-! ## The table -/

/-- The slot of token `i`. -/
def slotOf (tokens : List Bytes) (i : ℕ) : SeVocabSlot :=
  ⟨hashBytes (tokens.getD i []), (tokens.take i).flatten.length, (tokens.getD i []).length, i⟩

/-- The home of a slot's entry. -/
def home (size : ℕ) (s : SeVocabSlot) : ℕ := s.hash % size

/-- The table after the first `i` tokens. -/
structure TableInv (tokens : List Bytes) (size i : ℕ) (st : State) : Prop where
  length : st.slots.length = size
  entries : st.slots.reduceOption.Perm ((List.range i).map (slotOf tokens))
  strings : st.strings = (tokens.take i).flatten
  noGap : NoGap (home size) st.maxProbe st.slots
  ordered : Ordered (home size) (·.tokenId) st.slots
  maxProbe_le : st.maxProbe ≤ size
  maxProbe_pos : 0 < i → 0 < st.maxProbe

theorem tableInv_zero (tokens : List Bytes) (size : ℕ) :
    TableInv tokens size 0 ⟨List.replicate size none, [], 0⟩ where
  length := List.length_replicate
  entries := by rw [List.reduceOption_replicate_none]; exact .refl _
  strings := rfl
  noGap i s h := by
    have := (List.mem_replicate.mp (mem_of_entry h)).2
    cases this
  ordered := by
    refine ⟨fun h => ?_⟩
    have := (List.mem_replicate.mp (mem_of_entry h)).2
    cases this
  maxProbe_le := Nat.zero_le _
  maxProbe_pos h := absurd h (lt_irrefl 0)

theorem TableInv.mem_iff {i : ℕ} {st : State} (h : TableInv tokens size i st) {s : SeVocabSlot} :
    some s ∈ st.slots ↔ ∃ j < i, slotOf tokens j = s := by
  rw [← List.reduceOption_mem_iff, h.entries.mem_iff, List.mem_map]
  simp only [List.mem_range]

/-- **One round of `build`.** -/
theorem build_step (hsize : size = 2 ^ k) (hd : tokens.Nodup) {i : ℕ} (hi : i < tokens.length)
    (hfits : i < size) {st : State} (h : TableInv tokens size i st) :
    ∃ slots probe, insert tokens size tokens[i] (hashBytes tokens[i]) st.strings.length i st.slots
        size (hashBytes tokens[i] &&& (size - 1)) 1 = .ok (slots, probe) ∧
      TableInv tokens size (i + 1) ⟨slots, st.strings ++ tokens[i],
        if probe > st.maxProbe then probe else st.maxProbe⟩ := by
  have hget : tokens.getD i [] = tokens[i] := by
    rw [List.getD_eq_getElem?_getD, List.getElem?_eq_getElem hi, Option.getD_some]
  have hpos : 0 < size := Nat.zero_lt_of_lt hfits
  have hnone : none ∈ st.slots := by
    rw [← List.reduceOption_length_lt_iff, h.entries.length_eq, List.length_map, List.length_range,
      h.length]
    exact hfits
  have hnew : ∀ s, some s ∈ st.slots → tokens[s.tokenId]? ≠ some tokens[i] := by
    intro s hs he
    obtain ⟨j, hj, rfl⟩ := h.mem_iff.mp hs
    rw [slotOf, List.getElem?_eq_getElem (hj.trans hi), Option.some.injEq] at he
    exact hj.ne ((List.Nodup.getElem_inj_iff hd).mp he)
  obtain ⟨e, d, hr, hempty⟩ := exists_first_empty hnone (hashBytes tokens[i] % size)
  have hplace := hr.place
  have hfilled := hr.filled
  rw [h.length] at hplace hfilled
  refine ⟨st.slots.set e (some (slotOf tokens i)), 1 + d, ?_, ?_⟩
  · have hlt := hr.lt
    rw [h.length] at hlt
    rw [and_mask hsize, insert_of_filled hsize hnew (Nat.mod_lt _ hpos) hlt
      (by rw [hplace, hempty]) hfilled, hplace, slotOf, hget, h.strings]
  have hd' := hr.lt
  rw [h.length] at hd'
  have hmax : st.maxProbe ≤ (if 1 + d > st.maxProbe then 1 + d else st.maxProbe) ∧
      d < (if 1 + d > st.maxProbe then 1 + d else st.maxProbe) ∧
      (if 1 + d > st.maxProbe then 1 + d else st.maxProbe) ≤ size := by
    have := h.maxProbe_le
    split_ifs <;> omega
  have hr' : Reached st.slots (home size (slotOf tokens i)) e d := by
    rw [home, slotOf, hget]
    exact hr
  refine ⟨by rw [List.length_set, h.length], ?_, ?_, h.noGap.set hr' hmax.1 hmax.2.1,
    h.ordered.set h.noGap hr' hempty fun t ht => ?_, hmax.2.2, fun _ => Nat.zero_lt_of_lt hmax.2.1⟩
  · refine (reduceOption_set hr.index_lt hempty _).trans ?_
    rw [List.range_succ, List.map_append]
    exact (h.entries.cons _).trans (List.perm_append_singleton _ _).symm
  · rw [h.strings, List.take_succ_eq_append_getElem hi, List.flatten_append, List.flatten_singleton]
  · obtain ⟨j, hj, rfl⟩ := h.mem_iff.mp ht
    exact hj

/-- **The loop of `build`.** -/
theorem buildLoop_spec (hsize : size = 2 ^ k) (hd : tokens.Nodup) (hfits : tokens.length ≤ size)
    {i : ℕ} (hi : i ≤ tokens.length) {st : State} (h : TableInv tokens size i st) :
    ∃ st', buildLoop tokens size i (tokens.drop i) st = .ok st' ∧
      TableInv tokens size tokens.length st' := by
  generalize hn : tokens.length - i = n
  induction n generalizing i st with
  | zero =>
    obtain rfl : i = tokens.length := by omega
    rw [List.drop_length]
    exact ⟨st, rfl, h⟩
  | succ n ih =>
    have hlt : i < tokens.length := by omega
    obtain ⟨slots, probe, hins, hinv⟩ := build_step hsize hd hlt (by omega) h
    obtain ⟨st', hloop, hinv'⟩ := ih (by omega) hinv (by omega)
    refine ⟨st', ?_, hinv'⟩
    rw [List.drop_eq_getElem_cons hlt, buildLoop, hins]
    exact hloop

end

/-! ## The table in the file -/

/-- A slot as `pack("V4")` keeps it: the low 32 bits of every number. -/
def stored (s : SeVocabSlot) : SeVocabSlot :=
  ⟨s.hash % 2 ^ 32, s.strOff % 2 ^ 32, s.strLen % 2 ^ 32, s.tokenId % 2 ^ 32⟩

/-- The records that `pack` writes. -/
def packedSlots (slots : Slots) : List SeVocabSlot := slots.map fun s => stored (s.getD emptySlot)

theorem length_packSlot (s : SeVocabSlot) : (packSlot s).length = 16 := rfl

theorem read_packSlot {base : Bytes} {o : ℕ} {s : SeVocabSlot} (h : Holds base o (packSlot s)) :
    SeVocabSlot.read base o = stored s := by
  obtain ⟨h, e₄⟩ := h.append
  obtain ⟨h, e₃⟩ := h.append
  obtain ⟨e₁, e₂⟩ := h.append
  rw [SeVocabSlot.read, stored, e₁.readU32_mod]
  congr 1
  · exact e₂.readU32_mod
  · exact e₃.readU32_mod
  · exact e₄.readU32_mod

/-- **The records read back.** -/
theorem recordsAt_pack {slots : Slots} {base : Bytes} {off : ℕ} (h : Holds base off (pack slots)) :
    recordsAt 16 SeVocabSlot.read base off slots.length = packedSlots slots :=
  h.recordsAt_map (fun _ => rfl) fun _ _ _ => read_packSlot

theorem filledSlots_packedSlots {slots : Slots}
    (h : ∀ s, some s ∈ slots → s.tokenId < slotEmpty) :
    filledSlots (packedSlots slots) = slots.reduceOption.map stored := by
  induction slots with
  | nil => rfl
  | cons o slots ih =>
    have hrest := ih fun s hs => h s (List.mem_cons_of_mem o hs)
    unfold filledSlots packedSlots at hrest ⊢
    rw [List.map_cons, List.filter_cons]
    cases o with
    | none =>
      rw [List.reduceOption_cons_of_none, ← hrest]
      exact if_neg (by decide)
    | some s =>
      have hlt := h s List.mem_cons_self
      rw [List.reduceOption_cons_of_some, List.map_cons, ← hrest]
      refine if_pos (decide_eq_true ?_)
      show s.tokenId % 2 ^ 32 ≠ slotEmpty
      unfold slotEmpty at hlt ⊢
      omega

section

variable {tokens : List Bytes} {size : ℕ} {st : State}

/-- Bounds under which the ids and the mask work. -/
structure Fits (tokens : List Bytes) (size : ℕ) : Prop where
  nodup : tokens.Nodup
  count : tokens.length < slotEmpty
  size : ∃ k, size = 2 ^ k

theorem Fits.pos (hf : Fits tokens size) : 0 < size := by
  obtain ⟨k, hk⟩ := hf.size
  rw [hk]
  exact Nat.two_pow_pos k

theorem slotOf_string (tokens : List Bytes) {i : ℕ} (hi : i < tokens.length) :
    slice tokens.flatten (slotOf tokens i).strOff (slotOf tokens i).strLen = tokens[i] ∧
      (slotOf tokens i).strOff + (slotOf tokens i).strLen ≤ tokens.flatten.length := by
  have hget : tokens.getD i [] = tokens[i] := by
    rw [List.getD_eq_getElem?_getD, List.getElem?_eq_getElem hi, Option.getD_some]
  have hsplit : tokens.flatten =
      (tokens.take i).flatten ++ (tokens[i] ++ (tokens.drop (i + 1)).flatten) := by
    rw [← List.flatten_cons, ← List.drop_eq_getElem_cons hi, ← List.flatten_append,
      List.take_append_drop]
  constructor
  · rw [slotOf, slice, hget, hsplit]
    simp only
    rw [List.drop_left, List.take_left]
  · rw [slotOf, hget, hsplit]
    simp only [List.length_append]
    omega

theorem stored_slotOf (hf : Fits tokens size) {i : ℕ} (hi : i < tokens.length) :
    (stored (slotOf tokens i)).hash = (slotOf tokens i).hash ∧
      (stored (slotOf tokens i)).tokenId = i ∧
      (stored (slotOf tokens i)).strOff + (stored (slotOf tokens i)).strLen ≤
        tokens.flatten.length := by
  have hcount := hf.count
  unfold slotEmpty at hcount
  refine ⟨Nat.mod_eq_of_lt (hashBytes_lt _), Nat.mod_eq_of_lt (show i < 2 ^ 32 by omega),
    (Nat.add_le_add (Nat.mod_le _ _) (Nat.mod_le _ _)).trans (slotOf_string tokens hi).2⟩

theorem TableInv.tokenId_lt (h : TableInv tokens size tokens.length st) (hf : Fits tokens size)
    {s : SeVocabSlot} (hs : some s ∈ st.slots) : s.tokenId < slotEmpty := by
  obtain ⟨i, hi, rfl⟩ := h.mem_iff.mp hs
  exact hi.trans hf.count

/-- **The slot checks pass**, with every token counted. -/
theorem checkVocabSlots_built (h : TableInv tokens size tokens.length st) (hf : Fits tokens size) :
    SlotsOk tokens.length tokens.flatten.length (packedSlots st.slots) ∧
      (filledSlots (packedSlots st.slots)).length = tokens.length := by
  have hfilled := filledSlots_packedSlots fun s hs => h.tokenId_lt hf hs
  have hmem : ∀ s ∈ filledSlots (packedSlots st.slots),
      ∃ i < tokens.length, s = stored (slotOf tokens i) := by
    intro s hs
    rw [hfilled] at hs
    obtain ⟨t, ht, rfl⟩ := List.mem_map.mp hs
    obtain ⟨i, hi, rfl⟩ := h.mem_iff.mp (List.reduceOption_mem_iff.mp ht)
    exact ⟨i, hi, rfl⟩
  have hids : ((filledSlots (packedSlots st.slots)).map (·.tokenId)).Perm
      (List.range tokens.length) := by
    rw [hfilled]
    refine ((h.entries.map stored).map _).trans ?_
    rw [List.map_map, List.map_map]
    refine .of_eq ((List.map_congr_left fun i hi => ?_).trans (List.map_id' _))
    exact (stored_slotOf hf (List.mem_range.mp hi)).2.1
  refine ⟨⟨fun s hs => ?_, fun s hs => ?_, hids.nodup_iff.mpr List.nodup_range⟩, ?_⟩
  · obtain ⟨i, hi, rfl⟩ := hmem s hs
    rwa [(stored_slotOf hf hi).2.1]
  · obtain ⟨i, hi, rfl⟩ := hmem s hs
    exact (stored_slotOf hf hi).2.2
  · rw [← List.length_map (f := SeVocabSlot.tokenId), hids.length_eq, List.length_range]

theorem probesWithin_of_steps {mask i limit d fuel pos probes k : ℕ} (hsize : mask + 1 = 2 ^ k)
    (hpos : pos ≤ mask) (hplace : (pos + d) % (mask + 1) = i) (hd : d < fuel)
    (hle : probes + d ≤ limit) : probesWithin mask i limit fuel pos probes = true := by
  induction d generalizing fuel pos probes with
  | zero =>
    obtain ⟨fuel, rfl⟩ := Nat.exists_eq_succ_of_ne_zero hd.ne'
    rw [Nat.add_zero, Nat.mod_eq_of_lt (by omega)] at hplace
    exact if_pos hplace
  | succ d ih =>
    obtain ⟨fuel, rfl⟩ := Nat.exists_eq_succ_of_ne_zero (Nat.zero_lt_of_lt hd).ne'
    unfold probesWithin
    split_ifs with h
    · rfl
    · omega
    · have hmask : (pos + 1) &&& mask = (pos + 1) % (mask + 1) := by
        rw [hsize, ← Nat.and_two_pow_sub_one_eq_mod, ← hsize, Nat.add_sub_cancel]
      rw [hmask]
      have hlt := Nat.mod_lt (pos + 1) (Nat.succ_pos mask)
      exact ih (Nat.le_of_lt_succ hlt) (by rw [step_mod, hplace]) (Nat.lt_of_succ_lt_succ hd)
        (by omega)

/-- **The recorded number of probes suffices for every slot.** -/
theorem probesOk_built (h : TableInv tokens size tokens.length st) (hf : Fits tokens size) :
    ProbesOk (size - 1) st.maxProbe 0 (packedSlots st.slots) := by
  obtain ⟨k, hk⟩ := hf.size
  have hpos := hf.pos
  intro i s hs hne
  rw [packedSlots, List.getElem?_map] at hs
  obtain ⟨o, ho, rfl⟩ := Option.map_eq_some_iff.mp hs
  cases o with
  | none => exact absurd rfl hne
  | some s =>
    obtain ⟨j, hj, rfl⟩ := h.mem_iff.mp (List.mem_of_getElem? ho)
    obtain ⟨d, hd, hr⟩ := h.noGap i _ (entry_eq_some_iff.mpr ho)
    have hplace := hr.place
    rw [h.length] at hplace
    rw [Nat.zero_add, Option.getD_some, (stored_slotOf hf hj).1, and_mask hk]
    have hlt := Nat.mod_lt (slotOf tokens j).hash hpos
    refine probesWithin_of_steps (show size - 1 + 1 = 2 ^ k by omega) (by omega) ?_ hd (by omega)
    rw [Nat.sub_add_cancel hpos]
    exact hplace

/-! ## Lookups -/

/-- The comparison of the probe loop with the stored slot. -/
def hasKey (strings bytes : Bytes) (s : SeVocabSlot) : Bool :=
  (stored s).hash = hashBytes bytes ∧ (stored s).strLen = bytes.length ∧
    slice strings (stored s).strOff bytes.length = bytes

/-- The first token whose stored slot reads as `bytes`. -/
def firstStored (tokens : List Bytes) (bytes : Bytes) : Option ℕ :=
  (List.range tokens.length).find? fun i => hasKey tokens.flatten bytes (slotOf tokens i)

/-- What the loader has of the table. -/
structure Loaded (b : Built) (tokenCount : ℕ) (base : Bytes) (off : ℕ) (m : SeModel) : Prop where
  blob : Holds base off b.blob
  slots : m.vocabHash = recordsAt 16 SeVocabSlot.read base off b.size
  strings : m.vocabStrings = b.strings
  seed : m.hashSeed = hashSeed
  size : m.hashTableSize = b.size
  maxProbe : m.maxProbe = b.maxProbe
  vocabSize : m.vocabSize = tokenCount

theorem seMemeq_slice {strings bytes : Bytes} {off : ℕ} (h : off + bytes.length ≤ strings.length) :
    (bytes.length = 0 ∨ seMemeq (slice strings off bytes.length) bytes bytes.length = true) ↔
      slice strings off bytes.length = bytes := by
  rw [seMemeq_eq_true_iff, List.take_of_length_le (length_slice h).le, List.take_length]
  refine ⟨fun h' => h'.elim (fun h0 => ?_) id, .inr⟩
  rw [List.length_eq_zero_iff.mp h0]
  rfl

/-- **The probe loop is a search.** -/
theorem vocabProbe?_eq (h : TableInv tokens size tokens.length st) (hf : Fits tokens size)
    {m : SeModel} (hslots : m.vocabHash = packedSlots st.slots) (hstr : m.vocabStrings = tokens.flatten)
    (hsize : m.hashTableSize = size) (bytes : Bytes) {n pos : ℕ} (hpos : pos < size) :
    vocabProbe? m (hashBytes bytes) bytes.length [] bytes n pos =
      some ((search st.slots (hasKey tokens.flatten bytes) n pos).map (·.tokenId)) := by
  obtain ⟨k, hk⟩ := hf.size
  induction n generalizing pos with
  | zero => rfl
  | succ n ih =>
    have hlt : pos < st.slots.length := by rwa [h.length]
    have hnext := ih (Nat.mod_lt (pos + 1) (Nat.zero_lt_of_lt hpos))
    have hentry : entry st.slots pos = st.slots[pos] := by
      rw [entry, List.getElem?_eq_getElem hlt]
      rfl
    unfold vocabProbe? search
    rw [hslots, packedSlots, List.getElem?_map, List.getElem?_eq_getElem hlt, hentry, hsize,
      and_mask hk, h.length, Option.map_some, Option.bind_eq_bind, Option.bind_some]
    cases hs : st.slots[pos] with
    | none => rfl
    | some s =>
      obtain ⟨i, hi, rfl⟩ := h.mem_iff.mp (hs ▸ List.getElem_mem hlt)
      obtain ⟨-, hid, hb⟩ := stored_slotOf hf hi
      have hne : (stored (slotOf tokens i)).tokenId ≠ slotEmpty := by
        rw [hid]
        exact (hi.trans hf.count).ne
      simp only [Option.getD_some]
      rw [if_neg hne]
      by_cases hkey : (stored (slotOf tokens i)).hash = hashBytes bytes ∧
          (stored (slotOf tokens i)).strLen = bytes.length
      · have hb' : (stored (slotOf tokens i)).strOff + bytes.length ≤ tokens.flatten.length := by
          rw [← hkey.2]
          exact hb
        have hcmp := seMemeq_slice hb'
        rw [if_pos hkey, hstr, List.length_nil, Nat.add_zero, slice?_of_le (by omega),
          slice?_of_le hb']
        simp only [Option.bind_eq_bind, Option.bind_some]
        by_cases heq : slice tokens.flatten (stored (slotOf tokens i)).strOff bytes.length = bytes
        · have htest : hasKey tokens.flatten bytes (slotOf tokens i) = true :=
            decide_eq_true ⟨hkey.1, hkey.2, heq⟩
          rw [if_pos htest, hid]
          exact if_pos ⟨.inl (by simp), hcmp.mpr heq⟩
        · have htest : ¬ hasKey tokens.flatten bytes (slotOf tokens i) = true := fun ht =>
            heq (of_decide_eq_true ht).2.2
          rw [if_neg htest]
          exact (if_neg fun hc => heq (hcmp.mp hc.2)).trans hnext
      · have htest : ¬ hasKey tokens.flatten bytes (slotOf tokens i) = true := by
          intro ht
          obtain ⟨h₁, h₂, -⟩ := of_decide_eq_true ht
          exact hkey ⟨h₁, h₂⟩
        rw [if_neg hkey, if_neg htest]
        exact hnext

/-- A string that a stored slot reads as has its hash. -/
theorem hash_of_hasKey (hf : Fits tokens size) {bytes : Bytes} {i : ℕ} (hi : i < tokens.length)
    (h : hasKey tokens.flatten bytes (slotOf tokens i) = true) :
    (slotOf tokens i).hash = hashBytes bytes := by
  rw [← (stored_slotOf hf hi).1]
  exact (of_decide_eq_true h).1

/-- The search from the home of a string finds the first token that is stored like it. -/
theorem search_built (h : TableInv tokens size tokens.length st) (hf : Fits tokens size)
    (bytes : Bytes) : (search st.slots (hasKey tokens.flatten bytes) st.maxProbe
      (hashBytes bytes % size)).map (·.tokenId) = firstStored tokens bytes := by
  cases hfirst : firstStored tokens bytes with
  | none =>
    rw [search_eq_none fun s hs => ?_]
    · rfl
    · obtain ⟨i, hi, rfl⟩ := h.mem_iff.mp hs
      exact Bool.eq_false_iff.mpr (List.find?_eq_none.mp hfirst i (List.mem_range.mpr hi))
  | some i =>
    obtain ⟨htest, hi, hleast⟩ := List.find?_range_eq_some.mp hfirst
    have hlt := List.mem_range.mp hi
    have hhome : home size (slotOf tokens i) = hashBytes bytes % size := by
      rw [home, hash_of_hasKey hf hlt htest]
    rw [← hhome, search_of_least h.noGap h.ordered (h.mem_iff.mpr ⟨i, hlt, rfl⟩)
      (by rw [h.length]; exact Nat.mod_lt _ hf.pos) htest fun s hs ht => ?_]
    · rfl
    · obtain ⟨j, hj, rfl⟩ := h.mem_iff.mp hs
      have hge : i ≤ j := by
        by_contra hlt'
        have := hleast j (not_le.mp hlt')
        rw [ht] at this
        cases this
      obtain hlt' | rfl := lt_or_eq_of_le hge
      · exact .inr ⟨by rw [hhome, home, hash_of_hasKey hf hj ht], hlt'⟩
      · exact .inl rfl

/-- **A lookup finds the first token whose stored slot reads as the string.** -/
theorem seVocabLookup?_built (h : TableInv tokens size tokens.length st) (hf : Fits tokens size)
    {m : SeModel} (hslots : m.vocabHash = packedSlots st.slots)
    (hstr : m.vocabStrings = tokens.flatten) (hsize : m.hashTableSize = size)
    (hseed : m.hashSeed = hashSeed) (hprobe : m.maxProbe = st.maxProbe) (bytes : Bytes) :
    seVocabLookup? m bytes = some (firstStored tokens bytes) := by
  obtain ⟨k, hk⟩ := hf.size
  unfold seVocabLookup? seVocabLookupPiece?
  by_cases hlen : bytes.length ≤ uint32Max
  · have hhash : hashBytesContinue (hashBytesContinue hashSeed []) bytes = hashBytes bytes :=
      (hashBytes_eq bytes).symm
    rw [if_neg (by simp only [List.length_nil]; omega), hseed, hsize, hprobe, hhash]
    simp only [and_mask hk, List.length_nil, Nat.zero_add]
    rw [vocabProbe?_eq h hf hslots hstr hsize bytes (Nat.mod_lt _ hf.pos), search_built h hf]
  · rw [if_pos (.inr (.inl (not_le.mp hlen)))]
    refine congrArg some (List.find?_eq_none.mpr fun i _ ht => ?_).symm
    obtain ⟨-, hl, -⟩ := of_decide_eq_true ht
    have := Nat.mod_lt (slotOf tokens i).strLen (Nat.two_pow_pos 32)
    unfold uint32Max at hlen
    simp only [stored] at hl
    omega

/-- **Where the strings are shorter than `2 ^ 32` bytes, the slots keep their tokens.** -/
theorem hasKey_iff (hf : Fits tokens size) (hbytes : tokens.flatten.length < 2 ^ 32) {bytes : Bytes}
    {i : ℕ} (hi : i < tokens.length) :
    hasKey tokens.flatten bytes (slotOf tokens i) = true ↔ tokens[i] = bytes := by
  have hget : tokens.getD i [] = tokens[i] := by
    rw [List.getD_eq_getElem?_getD, List.getElem?_eq_getElem hi, Option.getD_some]
  obtain ⟨hstring, hb⟩ := slotOf_string tokens hi
  have hoff : (stored (slotOf tokens i)).strOff = (slotOf tokens i).strOff :=
    Nat.mod_eq_of_lt (by omega)
  have hlen : (stored (slotOf tokens i)).strLen = (slotOf tokens i).strLen :=
    Nat.mod_eq_of_lt (by omega)
  unfold hasKey
  rw [decide_eq_true_eq, (stored_slotOf hf hi).1, hoff, hlen]
  constructor
  · rintro ⟨-, hl, hs⟩
    rw [← hs, ← hstring, hl]
  · rintro rfl
    have hl : (slotOf tokens i).strLen = tokens[i].length := by rw [slotOf, hget]
    exact ⟨by rw [slotOf, hget], hl, by rw [← hl, hstring]⟩

theorem firstStored_getElem (hf : Fits tokens size) (hbytes : tokens.flatten.length < 2 ^ 32) {i : ℕ}
    (hi : i < tokens.length) : firstStored tokens tokens[i] = some i := by
  refine List.find?_range_eq_some.mpr ⟨(hasKey_iff hf hbytes hi).mpr rfl, List.mem_range.mpr hi,
    fun j hj => ?_⟩
  rw [Bool.not_eq_true', Bool.eq_false_iff]
  intro h
  exact hj.ne ((List.Nodup.getElem_inj_iff hf.nodup).mp
    ((hasKey_iff hf hbytes (hj.trans hi)).mp h))

theorem firstStored_of_not_mem (hf : Fits tokens size) (hbytes : tokens.flatten.length < 2 ^ 32)
    {bytes : Bytes} (h : bytes ∉ tokens) : firstStored tokens bytes = none := by
  refine List.find?_eq_none.mpr fun i hi ht => h ?_
  have hlt := List.mem_range.mp hi
  rw [← (hasKey_iff hf hbytes hlt).mp ht]
  exact List.getElem_mem hlt

end

end HashTable

/-! ## Build, check and look up -/

open HashTable in
/-- **The vocabulary hash table.** Distinct tokens make a table of a power of two slots with a load
factor of at most `0.70`; the loader's slot and probe checks pass on it, and a lookup finds every
token at its index and nothing else. -/
theorem hash_table_lookup (tokens : List Bytes) (hne : tokens ≠ []) (hd : tokens.Nodup)
    (hbytes : (tokens.map List.length).sum < 2 ^ 32) :
    ∃ b, HashTable.build tokens = .ok b ∧ (∃ k, b.size = 2 ^ k) ∧ b.size < 2 ^ 32 ∧
      tokens.length < b.size ∧ tokens.length * 100 ≤ b.size * 70 ∧
      b.maxProbe ≠ 0 ∧ b.maxProbe ≤ b.size ∧
      ∀ (base : Bytes) (off : ℕ) (m : SeModel), Loaded b tokens.length base off m →
        (∃ seen, checkVocabSlots m.vocabSize m.vocabStrings.length 0 [] m.vocabHash = .ok seen ∧
          seen.length = m.vocabSize) ∧
        validateHashProbeLimits m = .ok () ∧
        (∀ i (hi : i < tokens.length), seVocabLookup? m tokens[i] = some (some i)) ∧
        ∀ bytes ∉ tokens, seVocabLookup? m bytes = some none := by
  have hpos : 0 < tokens.length := List.length_pos_iff.mpr hne
  have hcount := length_le_of_nodup hd hbytes
  have hcount' : tokens.length < 2 ^ 32 := hcount.trans_lt (by norm_num)
  obtain ⟨hload, hle⟩ := sizeFor_spec hpos hcount'
  obtain ⟨k, hsize, hge, hk⟩ := nextPowerOfTwo_spec (show 0 < sizeFor tokens.length by omega)
  have hpow : 2 ^ k ≤ 2 ^ 31 := Nat.pow_le_pow_right (by norm_num) (hk (hle hcount))
  have hfits : Fits tokens (2 ^ k) := by
    refine ⟨hd, ?_, k, rfl⟩
    have : slotEmpty = 2 ^ 32 - 1 := by decide
    omega
  have hflat : tokens.flatten.length < 2 ^ 32 := by rwa [List.length_flatten]
  obtain ⟨st, hloop, hinv⟩ := buildLoop_spec rfl hd (show tokens.length ≤ 2 ^ k by omega)
    (Nat.zero_le _) (tableInv_zero tokens (2 ^ k))
  refine ⟨⟨2 ^ k, st.strings, pack st.slots, st.maxProbe⟩, ?_, ⟨k, rfl⟩, by simp only; omega,
    by simp only; omega, by simp only; omega, (hinv.maxProbe_pos hpos).ne', hinv.maxProbe_le,
    fun base off m hm => ?_⟩
  · rw [List.drop_zero] at hloop
    simp only [build, hsize, hloop, bind, Except.bind]
    rfl
  have hslots : m.vocabHash = packedSlots st.slots := by
    rw [hm.slots, ← recordsAt_pack hm.blob, hinv.length]
  have hstr : m.vocabStrings = tokens.flatten := by
    rw [hm.strings, hinv.strings, List.take_length]
  have hlookup := seVocabLookup?_built hinv hfits hslots hstr hm.size hm.seed hm.maxProbe
  refine ⟨?_, ?_, fun i hi => ?_, fun bytes hnot => ?_⟩
  · obtain ⟨hok, hlen⟩ := checkVocabSlots_built hinv hfits
    rw [hm.vocabSize, hstr, hslots]
    refine ⟨_, checkVocabSlots_eq_ok_iff.mpr ⟨hok, fun _ _ => List.not_mem_nil, rfl⟩, ?_⟩
    rw [List.append_nil, List.length_reverse, List.length_map, hlen]
  · rw [validateHashProbeLimits_eq_ok_iff, hm.size, hm.maxProbe, hslots]
    exact .inr (probesOk_built hinv hfits)
  · rw [hlookup, firstStored_getElem hfits hflat hi]
  · rw [hlookup, firstStored_of_not_mem hfits hflat hnot]

/-- A model with nothing but a hash table. -/
def tableModel (b : HashTable.Built) (tokenCount : ℕ) : SeModel :=
  { vocabModelAt [] with
    hashSeed := hashSeed
    hashTableSize := b.size
    maxProbe := b.maxProbe
    vocabSize := tokenCount
    vocabStrings := b.strings
    vocabHash := recordsAt 16 SeVocabSlot.read b.blob 0 b.size }

/-- Three tokens, the empty one among them. -/
theorem hash_table_lookup_sample :
    ∃ b, HashTable.build [[0x61], [], [0x62, 0x63]] = .ok b ∧
      seVocabLookup? (tableModel b 3) [0x62, 0x63] = some (some 2) ∧
      seVocabLookup? (tableModel b 3) [0x62] = some none := by
  obtain ⟨b, hb, -, -, -, -, -, -, h⟩ := hash_table_lookup [[0x61], [], [0x62, 0x63]] (by decide)
    (by decide) (by decide)
  have hl : HashTable.Loaded b 3 b.blob 0 (tableModel b 3) :=
    ⟨holds_self _, rfl, rfl, rfl, rfl, rfl, rfl⟩
  obtain ⟨-, -, hfound, hnot⟩ := h _ _ _ hl
  exact ⟨b, hb, hfound 2 (by decide), hnot _ (by decide)⟩

end StaticEmbeddings
