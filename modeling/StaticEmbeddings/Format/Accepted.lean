import StaticEmbeddings.Convert.Writer
import StaticEmbeddings.Format.Validate

/-!
# What the loader checks

Every check of `validate` as a condition, both ways: an accepted file satisfies it, and a file that
satisfies all of them is accepted.

* `MetaOk`, `TrieOk`, `NormTablesOk`, `VocabHashOk`, `ProbesOk`, with one `…_eq_ok_iff` for each
  check.
* **`validate_eq_ok_iff`**: acceptance of a file.
* `ModelOk`, **`modelOk_of_validate`**: what the runtime may rely on.
-/

namespace StaticEmbeddings

open LittleEndian

theorem sorted_cons_iff {α : Type} {lo hi : α → ℕ} {prev : Option ℕ} {x : α} {xs : List α}
    (h : lo x ≤ hi x) :
    ((x :: xs).Pairwise (fun a b => hi a < lo b) ∧ ∀ p ∈ prev, ∀ y ∈ x :: xs, p < lo y) ↔
      (¬ ∃ p ∈ prev, lo x ≤ p) ∧ xs.Pairwise (fun a b => hi a < lo b) ∧
        ∀ p ∈ some (hi x), ∀ y ∈ xs, p < lo y := by
  simp only [List.pairwise_cons, List.forall_mem_cons, Option.mem_def, Option.some.injEq,
    forall_eq', not_exists, not_and, not_le]
  constructor
  · rintro ⟨⟨h₁, h₂⟩, h₃⟩
    exact ⟨fun p hp => (h₃ p hp).1, h₂, h₁⟩
  · rintro ⟨h₁, h₂, h₃⟩
    refine ⟨⟨h₃, h₂⟩, fun p hp => ⟨h₁ p hp, fun y hy => ?_⟩⟩
    have := h₁ p hp
    have := h₃ y hy
    omega

/-! ## Tries -/

/-- The edges of one node are in range and strictly sorted. -/
structure TrieEdgesOk (nodeCount : ℕ) (edges : List SeTrieEdge) : Prop where
  byte_le : ∀ e ∈ edges, e.byte ≤ 255
  child_lt : ∀ e ∈ edges, e.child < nodeCount
  sorted : edges.Pairwise fun a b => a.byte < b.byte

/-- The edges of a node. -/
def SeTrie.edgesOf (t : SeTrie) (node : SeTrieNode) : List SeTrieEdge :=
  (t.edges.drop node.edgeStart).take node.edgeCount

/-- What `parse_trie` checks of the nodes and edges. -/
structure TrieOk (vocabSize : ℕ) (t : SeTrie) : Prop where
  token : ∀ n ∈ t.nodes, n.tokenId = slotEmpty ∨ n.tokenId < vocabSize
  range : ∀ n ∈ t.nodes, n.edgeStart + n.edgeCount ≤ t.edges.length
  edges : ∀ n ∈ t.nodes, TrieEdgesOk t.nodes.length (t.edgesOf n)

theorem checkTrieEdges_eq_ok_iff {nodeCount : ℕ} {name : String} {prev : Option ℕ}
    {edges : List SeTrieEdge} {u : Unit} : checkTrieEdges nodeCount name prev edges = .ok u ↔
      TrieEdgesOk nodeCount edges ∧ ∀ p ∈ prev, ∀ e ∈ edges, p < e.byte := by
  induction edges generalizing prev with
  | nil => exact ⟨fun _ => ⟨⟨by simp, by simp, .nil⟩, by simp⟩, fun _ => rfl⟩
  | cons e edges ih =>
    have hs := @sorted_cons_iff _ SeTrieEdge.byte SeTrieEdge.byte prev e edges le_rfl
    simp only [checkTrieEdges, failFormat, failIf_bind_eq_ok, ih]
    constructor
    · rintro ⟨h₁, h₂, ⟨hb, hc, h₃⟩, h₄⟩
      obtain ⟨h₅, h₆⟩ := hs.mpr ⟨h₂, h₃, h₄⟩
      exact ⟨⟨List.forall_mem_cons.mpr ⟨by omega, hb⟩, List.forall_mem_cons.mpr ⟨by omega, hc⟩, h₅⟩,
        h₆⟩
    · rintro ⟨⟨hb, hc, h₁⟩, h₂⟩
      rw [List.forall_mem_cons] at hb hc
      obtain ⟨h₃, h₄, h₅⟩ := hs.mp ⟨h₁, h₂⟩
      exact ⟨by omega, h₃, ⟨hb.2, hc.2, h₄⟩, h₅⟩

theorem checkTrieNodes_eq_ok_iff {nodeCount vocabSize : ℕ} {edges : List SeTrieEdge}
    {name : String} {i : ℕ} {nodes : List SeTrieNode} {u : Unit} :
    checkTrieNodes nodeCount vocabSize edges name i nodes = .ok u ↔ ∀ n ∈ nodes,
      (n.tokenId = slotEmpty ∨ n.tokenId < vocabSize) ∧ n.edgeStart + n.edgeCount ≤ edges.length ∧
      TrieEdgesOk nodeCount ((edges.drop n.edgeStart).take n.edgeCount) := by
  induction nodes generalizing i with
  | nil => simp [checkTrieNodes]
  | cons n nodes ih =>
    simp only [checkTrieNodes, failFormat, bind_eq_ok, failIf_eq_ok, exists_const,
      checkTrieEdges_eq_ok_iff, ih, List.forall_mem_cons, Option.not_mem_none, false_imp_iff,
      implies_true, and_true]
    constructor
    · rintro ⟨h₁, h₂, h₃, h₄⟩
      exact ⟨⟨by omega, by omega, h₃⟩, h₄⟩
    · rintro ⟨⟨h₁, h₂, h₃⟩, h₄⟩
      exact ⟨by omega, by omega, h₃, h₄⟩

@[simp] theorem length_recordsAt {α : Type} {size : ℕ} {read : Bytes → ℕ → α} {base : Bytes}
    {off count : ℕ} : (recordsAt size read base off count).length = count := by
  simp [recordsAt]

theorem parseTrie_eq_ok_iff {base : Bytes} {sec : Section} {vocabSize : ℕ} {name : String}
    {t : SeTrie} : parseTrie base sec vocabSize name = .ok t ↔
      sec.size = 16 + readU32 base sec.off * 16 + readU32 base (sec.off + 4) * 8 ∧
      readU32 base sec.off ≠ 0 ∧ TrieOk vocabSize t ∧
      t = ⟨recordsAt 16 SeTrieNode.read base (sec.off + 16) (readU32 base sec.off),
        recordsAt 8 SeTrieEdge.read base (sec.off + 16 + readU32 base sec.off * 16)
          (readU32 base (sec.off + 4))⟩ := by
  simp only [parseTrie, failFormat, bind_eq_ok, failIf_eq_ok, exists_const,
    checkTrieNodes_eq_ok_iff]
  constructor
  · rintro ⟨-, h₂, h₃, h₄, h₅⟩
    cases h₅
    refine ⟨(not_not.mp h₃).symm, h₂, ⟨fun n hn => (h₄ n hn).1, fun n hn => (h₄ n hn).2.1,
      fun n hn => ?_⟩, rfl⟩
    simpa only [length_recordsAt, SeTrie.edgesOf] using (h₄ n hn).2.2
  · rintro ⟨h₁, h₂, ⟨ht, hr, he⟩, rfl⟩
    refine ⟨by omega, h₂, by omega, fun n hn => ⟨ht n hn, hr n hn, ?_⟩, rfl⟩
    simpa only [length_recordsAt, SeTrie.edgesOf] using he n hn

/-! ## Normalization tables -/

/-- What `validate_norm_map` checks. -/
structure NormMapOk (entries : List SeMapEntry) : Prop where
  len_le : ∀ e ∈ entries, e.len ≤ 4
  valid : ∀ e ∈ entries, validUnicodeCodepoint e.cp
  outputs : ∀ e ∈ entries, ∀ c ∈ e.out.take e.len, validUnicodeCodepoint c
  sorted : entries.Pairwise fun a b => a.cp < b.cp

/-- What `validate_norm_ranges` checks. -/
structure NormRangesOk (ranges : List SeRange) : Prop where
  valid : ∀ r ∈ ranges, validUnicodeCodepoint r.hi
  le : ∀ r ∈ ranges, r.lo ≤ r.hi
  sorted : ranges.Pairwise fun a b => a.hi < b.lo

theorem checkMapOutputs_eq_ok_iff {name : String} {i k : ℕ} {out : List ℕ} {u : Unit} :
    checkMapOutputs name i k out = .ok u ↔ ∀ c ∈ out, validUnicodeCodepoint c := by
  induction out generalizing k with
  | nil => simp [checkMapOutputs]
  | cons c out ih =>
    simp only [checkMapOutputs, failFormat, failIf_bind_eq_ok, ih, not_not, List.forall_mem_cons]

theorem validateNormMap_eq_ok_iff {name : String} {i : ℕ} {prev : Option ℕ}
    {entries : List SeMapEntry} {u : Unit} : validateNormMap name i prev entries = .ok u ↔
      NormMapOk entries ∧ ∀ p ∈ prev, ∀ e ∈ entries, p < e.cp := by
  induction entries generalizing i prev with
  | nil => exact ⟨fun _ => ⟨⟨by simp, by simp, by simp, .nil⟩, by simp⟩, fun _ => rfl⟩
  | cons e entries ih =>
    have hs := @sorted_cons_iff _ SeMapEntry.cp SeMapEntry.cp prev e entries le_rfl
    simp only [validateNormMap, failFormat, bind_eq_ok, failIf_eq_ok, exists_const,
      checkMapOutputs_eq_ok_iff, ih, not_not]
    constructor
    · rintro ⟨hl, hv, ho, hp, ⟨hls, hvs, hos, h₁⟩, h₂⟩
      obtain ⟨h₃, h₄⟩ := hs.mpr ⟨hp, h₁, h₂⟩
      exact ⟨⟨List.forall_mem_cons.mpr ⟨by omega, hls⟩, List.forall_mem_cons.mpr ⟨hv, hvs⟩,
        List.forall_mem_cons.mpr ⟨ho, hos⟩, h₃⟩, h₄⟩
    · rintro ⟨⟨hl, hv, ho, h₁⟩, h₂⟩
      rw [List.forall_mem_cons] at hl hv ho
      obtain ⟨h₃, h₄, h₅⟩ := hs.mp ⟨h₁, h₂⟩
      exact ⟨by omega, hv.1, ho.1, h₃, ⟨hl.2, hv.2, ho.2, h₄⟩, h₅⟩

theorem validateNormRanges_eq_ok_iff {name : String} {i : ℕ} {prev : Option ℕ}
    {ranges : List SeRange} {u : Unit} : validateNormRanges name i prev ranges = .ok u ↔
      NormRangesOk ranges ∧ ∀ p ∈ prev, ∀ r ∈ ranges, p < r.lo := by
  induction ranges generalizing i prev with
  | nil => exact ⟨fun _ => ⟨⟨by simp, by simp, .nil⟩, by simp⟩, fun _ => rfl⟩
  | cons r ranges ih =>
    simp only [validateNormRanges, failFormat, bind_eq_ok, failIf_eq_ok, exists_const, ih, not_not,
      not_lt]
    constructor
    · rintro ⟨hv, hle, hp, ⟨hvs, hles, h₁⟩, h₂⟩
      obtain ⟨h₃, h₄⟩ := (sorted_cons_iff hle).mpr ⟨hp, h₁, h₂⟩
      exact ⟨⟨List.forall_mem_cons.mpr ⟨hv, hvs⟩, List.forall_mem_cons.mpr ⟨hle, hles⟩, h₃⟩, h₄⟩
    · rintro ⟨⟨hv, hle, h₁⟩, h₂⟩
      rw [List.forall_mem_cons] at hv hle
      obtain ⟨h₃, h₄, h₅⟩ := (sorted_cons_iff hle.1).mp ⟨h₁, h₂⟩
      exact ⟨hv.1, hle.1, h₃, ⟨hv.2, hle.2, h₄⟩, h₅⟩

theorem NormMapOk.nil : NormMapOk [] := ⟨by simp, by simp, by simp, .nil⟩

theorem NormRangesOk.nil : NormRangesOk [] := ⟨by simp, by simp, .nil⟩

/-- What `parse_norm_tables` checks of the tables. -/
structure NormTablesOk (t : SeNormTables) : Prop where
  lower : NormMapOk t.lower
  nfd : NormMapOk t.nfd
  mn : NormRangesOk t.mn
  punct : NormRangesOk t.punct
  control : NormRangesOk t.control
  whitespace : NormRangesOk t.whitespace
  fast : t = prepareNormFastTables t.lower t.nfd t.mn t.punct t.control t.whitespace

/-- The tables of an empty section. -/
def noNormTables : SeNormTables := prepareNormFastTables [] [] [] [] [] []

theorem noNormTables_ok : NormTablesOk noNormTables :=
  ⟨.nil, .nil, .nil, .nil, .nil, .nil, rfl⟩

/-- The tables that `parse_norm_tables` finds in a section that is not empty. -/
def normTablesAt (base : Bytes) (off : ℕ) : SeNormTables :=
  let count (k : ℕ) := readU32 base (off + 4 * k)
  let nfd := off + 32 + count 0 * 24
  let mn := nfd + count 1 * 24
  let punct := mn + count 2 * 8
  let control := punct + count 3 * 8
  let whitespace := control + count 4 * 8
  prepareNormFastTables (recordsAt 24 SeMapEntry.read base (off + 32) (count 0))
    (recordsAt 24 SeMapEntry.read base nfd (count 1)) (recordsAt 8 SeRange.read base mn (count 2))
    (recordsAt 8 SeRange.read base punct (count 3))
    (recordsAt 8 SeRange.read base control (count 4))
    (recordsAt 8 SeRange.read base whitespace (count 5))

/-- The size of a section with the counts found in it. -/
def normTablesSize (base : Bytes) (off : ℕ) : ℕ :=
  let count (k : ℕ) := readU32 base (off + 4 * k)
  32 + (count 0 + count 1) * 24 + (count 2 + count 3 + count 4 + count 5) * 8

theorem parseNormTables_eq_ok_iff {base : Bytes} {sec : Section} {t : SeNormTables} :
    parseNormTables base sec = .ok t ↔ NormTablesOk t ∧
      ((sec.size = 0 ∧ t = noNormTables) ∨
        (sec.size = normTablesSize base sec.off ∧ t = normTablesAt base sec.off)) := by
  have h₀ := readU32_lt base sec.off
  have h₁ := readU32_lt base (sec.off + 4)
  have h₂ := readU32_lt base (sec.off + 8)
  have h₃ := readU32_lt base (sec.off + 12)
  have h₄ := readU32_lt base (sec.off + 16)
  have h₅ := readU32_lt base (sec.off + 20)
  have hs : normTablesSize base sec.off = 32 +
      (readU32 base sec.off + readU32 base (sec.off + 4)) * 24 +
      (readU32 base (sec.off + 8) + readU32 base (sec.off + 12) + readU32 base (sec.off + 16) +
        readU32 base (sec.off + 20)) * 8 := rfl
  unfold parseNormTables
  by_cases h : sec.size = 0
  · rw [if_pos h]
    constructor
    · rintro ⟨⟩
      exact ⟨noNormTables_ok, .inl ⟨h, rfl⟩⟩
    · rintro ⟨-, ⟨-, rfl⟩ | ⟨hz, -⟩⟩
      · rfl
      · omega
  rw [if_neg h]
  simp only [failFormat, bind_eq_ok, failIf_eq_ok, exists_const, validateNormMap_eq_ok_iff,
    validateNormRanges_eq_ok_iff, Option.not_mem_none, false_imp_iff, implies_true, and_true]
  constructor
  · rintro ⟨-, -, hn, hl, hd, hm, hp, hc, hw, ⟨⟩⟩
    exact ⟨⟨hl, hd, hm, hp, hc, hw, rfl⟩, .inr ⟨by rw [hs]; omega, rfl⟩⟩
  · rintro ⟨⟨hl, hd, hm, hp, hc, hw, -⟩, ⟨hz, -⟩ | ⟨hz, rfl⟩⟩
    · exact absurd hz h
    · rw [hs] at hz
      exact ⟨by omega, by omega, by omega, hl, hd, hm, hp, hc, hw, rfl⟩

/-! ## Vocabulary hash -/

/-- The slots that hold a token. -/
def filledSlots (slots : List SeVocabSlot) : List SeVocabSlot :=
  slots.filter fun s => s.tokenId ≠ slotEmpty

/-- What `validate_vocab_hash` checks of the slots. -/
structure SlotsOk (vocabSize stringsSize : ℕ) (slots : List SeVocabSlot) : Prop where
  id_lt : ∀ s ∈ filledSlots slots, s.tokenId < vocabSize
  string : ∀ s ∈ filledSlots slots, s.strOff + s.strLen ≤ stringsSize
  nodup : ((filledSlots slots).map (·.tokenId)).Nodup

theorem checkVocabSlots_eq_ok_iff {vocabSize stringsSize i : ℕ} {seen seen' : List ℕ}
    {slots : List SeVocabSlot} : checkVocabSlots vocabSize stringsSize i seen slots = .ok seen' ↔
      SlotsOk vocabSize stringsSize slots ∧ (∀ s ∈ filledSlots slots, s.tokenId ∉ seen) ∧
      seen' = ((filledSlots slots).map (·.tokenId)).reverse ++ seen := by
  induction slots generalizing i seen with
  | nil =>
    refine ⟨fun h => ⟨⟨by simp [filledSlots], by simp [filledSlots], by simp [filledSlots]⟩,
      by simp [filledSlots], (Except.ok.inj h).symm⟩, ?_⟩
    rintro ⟨-, -, rfl⟩
    rfl
  | cons s slots ih =>
    rw [checkVocabSlots]
    split_ifs with hs
    · have hf : filledSlots (s :: slots) = filledSlots slots := by simp [filledSlots, hs]
      rw [ih, hf]
      exact and_congr ⟨fun ⟨h₁, h₂, h₃⟩ => ⟨hf ▸ h₁, hf ▸ h₂, hf ▸ h₃⟩,
        fun ⟨h₁, h₂, h₃⟩ => ⟨hf ▸ h₁, hf ▸ h₂, hf ▸ h₃⟩⟩ Iff.rfl
    · have hf : filledSlots (s :: slots) = s :: filledSlots slots := by simp [filledSlots, hs]
      simp only [failFormat, failIf_bind_eq_ok, ih, hf, List.forall_mem_cons, List.map_cons,
        List.reverse_cons, List.append_assoc, List.singleton_append]
      constructor
      · rintro ⟨h₁, h₂, h₃, ⟨hi, ho, hn⟩, h₄, h₅⟩
        refine ⟨⟨?_, ?_, ?_⟩, ⟨h₃, fun t ht hm => h₄ t ht (List.mem_cons_of_mem _ hm)⟩, h₅⟩
        · rw [hf]
          exact List.forall_mem_cons.mpr ⟨by omega, hi⟩
        · rw [hf]
          exact List.forall_mem_cons.mpr ⟨by omega, ho⟩
        · rw [hf, List.map_cons, List.nodup_cons]
          refine ⟨fun hm => ?_, hn⟩
          obtain ⟨t, ht, he⟩ := List.mem_map.mp hm
          exact h₄ t ht (he ▸ List.mem_cons_self)
      · rintro ⟨⟨hi, ho, hn⟩, ⟨h₃, h₄⟩, h₅⟩
        rw [hf, List.forall_mem_cons] at hi ho
        rw [hf, List.map_cons, List.nodup_cons] at hn
        refine ⟨by omega, by omega, h₃, ⟨hi.2, ho.2, hn.2⟩, fun t ht hm => ?_, h₅⟩
        rcases List.mem_cons.mp hm with he | hm
        · exact hn.1 (List.mem_map.mpr ⟨t, ht, he⟩)
        · exact h₄ t ht hm

/-- Every recorded added token is in the vocabulary at its recorded id. -/
def AddedTokensOk (m : SeModel) : Prop :=
  ∀ t ∈ recordedAddedTokens m.toSeMeta, m.addedTokenMask &&& t.1 ≠ 0 →
    t.2.2.2 < m.vocabSize ∧ seVocabLookup m t.2.2.1 = some t.2.2.2

theorem checkAddedTokens_eq_ok_iff {m : SeModel} {ts : List (ℕ × String × Bytes × ℕ)} {u : Unit} :
    checkAddedTokens m ts = .ok u ↔ ∀ t ∈ ts, m.addedTokenMask &&& t.1 ≠ 0 →
      t.2.2.2 < m.vocabSize ∧ seVocabLookup m t.2.2.1 = some t.2.2.2 := by
  induction ts with
  | nil => simp [checkAddedTokens]
  | cons t ts ih =>
    simp only [checkAddedTokens, failFormat, failIf_bind_eq_ok, ih, List.forall_mem_cons]
    refine and_congr ?_ Iff.rfl
    simp only [not_and, not_or, ge_iff_le, not_le, not_not]

/-- What `validate_vocab_hash` checks. -/
structure VocabHashOk (m : SeModel) : Prop where
  slots : SlotsOk m.vocabSize m.vocabStrings.length m.vocabHash
  filled : (filledSlots m.vocabHash).length = m.vocabSize
  unk : seVocabLookup m textUnk = some m.unkId
  added : AddedTokensOk m

theorem validateVocabHash_eq_ok_iff {m : SeModel} {u : Unit} :
    validateVocabHash m = .ok u ↔ VocabHashOk m := by
  simp only [validateVocabHash, failFormat, bind_eq_ok, failIf_eq_ok, exists_const,
    checkVocabSlots_eq_ok_iff, checkAddedTokens_eq_ok_iff, not_not, List.not_mem_nil,
    not_false_eq_true, implies_true, true_and, List.append_nil]
  constructor
  · rintro ⟨_, ⟨hs, rfl⟩, hf, hu, ha⟩
    exact ⟨hs, by simpa using hf, hu, ha⟩
  · rintro ⟨hs, hf, hu, ha⟩
    exact ⟨_, ⟨hs, rfl⟩, by simpa using hf, hu, ha⟩

/-- Every token is found within the recorded number of probes of its home slot. -/
def ProbesOk (mask maxProbe i : ℕ) (slots : List SeVocabSlot) : Prop :=
  ∀ k s, slots[k]? = some s → s.tokenId ≠ slotEmpty →
    probesWithin mask (i + k) maxProbe maxProbe (s.hash &&& mask) 1 = true

theorem checkProbeLimits_eq_ok_iff {mask maxProbe i : ℕ} {slots : List SeVocabSlot} {u : Unit} :
    checkProbeLimits mask maxProbe i slots = .ok u ↔ ProbesOk mask maxProbe i slots := by
  induction slots generalizing i with
  | nil => simp [checkProbeLimits, ProbesOk]
  | cons s slots ih =>
    simp only [checkProbeLimits, failFormat, failIf_bind_eq_ok, ih]
    constructor
    · rintro ⟨h₁, h₂⟩ k t ht hn
      cases k with
      | zero =>
        cases ht
        simpa [hn] using h₁
      | succ k => simpa only [Nat.add_assoc, Nat.add_comm 1 k] using h₂ k t ht hn
    · intro h
      refine ⟨fun ⟨hn, hp⟩ => ?_, fun k t ht hn => ?_⟩
      · rw [show i = i + 0 from rfl, h 0 s rfl hn] at hp
        cases hp
      · simpa only [Nat.add_assoc, Nat.add_comm 1 k] using h (k + 1) t ht hn

theorem validateHashProbeLimits_eq_ok_iff {m : SeModel} {u : Unit} :
    validateHashProbeLimits m = .ok u ↔
      m.maxProbe = 0 ∨ ProbesOk (m.hashTableSize - 1) m.maxProbe 0 m.vocabHash := by
  unfold validateHashProbeLimits
  split_ifs with h
  · exact ⟨fun _ => .inl h, fun _ => rfl⟩
  · rw [checkProbeLimits_eq_ok_iff]
    exact ⟨.inr, fun h' => h'.resolve_left h⟩

/-! ## The header -/

/-- What `validate` checks of the header fields. -/
structure MetaOk (m : SeMeta) : Prop where
  tokenizerType : m.tokenizerType = 1
  embeddingDtype : m.embeddingDtype = 1
  poolingType : m.poolingType = 1
  normalizationType : m.normalizationType = 0 ∨ m.normalizationType = 1
  truncationPolicy : m.truncationPolicy = truncateUsableIds ∨ m.truncationPolicy = truncateRawIds
  addSpecialTokens : m.addSpecialTokens = 0
  unkPolicy : m.unkPolicy = unkInclude ∨ m.unkPolicy = unkDrop
  addedTokenMask : m.addedTokenMask &&& (uint32Max - addedTokenMaskAll) = 0
  emptyPolicy : m.emptyPolicy = emptyZeroVector ∨ m.emptyPolicy = emptyRaise
  flags : m.doLowerCase ≤ 1 ∧ m.stripAccents ≤ 1 ∧ m.handleChineseChars ≤ 1
  cleanText : m.cleanText = 1
  dim : 0 < m.dim ∧ m.dim ≤ 2 ^ 20
  vocabSize : 0 < m.vocabSize
  hashTableSize : 0 < m.hashTableSize ∧ m.hashTableSize &&& (m.hashTableSize - 1) = 0
  load : m.vocabSize < m.hashTableSize ∧ m.vocabSize * 100 ≤ m.hashTableSize * 70
  maxProbe : 0 < m.maxProbe ∧ m.maxProbe ≤ m.hashTableSize
  subwordPrefixLen : m.subwordPrefixLen ≤ 8
  unkId : m.unkId < m.vocabSize

theorem checkMeta_eq_ok_iff {m : SeMeta} {u : Unit} : checkMeta m = .ok u ↔ MetaOk m := by
  simp only [checkMeta, failFormat, bind_eq_ok, failIf_eq_ok, exists_const]
  constructor
  · rintro ⟨h₁, h₂, h₃, h₄, h₅, h₆, h₇, h₈, h₉, h₁₀, h₁₁, h₁₂, h₁₃, h₁₄, h₁₅, h₁₆, h₁₇, h₁₈⟩
    exact ⟨by omega, by omega, by omega, by omega, by omega, by omega, by omega, by tauto,
      by omega, by omega, by omega, by omega, by omega, by omega, by omega, by omega, by omega,
      by omega⟩
  · rintro ⟨h₁, h₂, h₃, h₄, h₅, h₆, h₇, h₈, h₉, h₁₀, h₁₁, h₁₂, h₁₃, h₁₄, h₁₅, h₁₆, h₁₇, h₁₈⟩
    exact ⟨by omega, by omega, by omega, by omega, by omega, by omega, by omega, by tauto,
      by omega, by omega, by omega, by omega, by omega, by omega, by omega, by omega, by omega,
      by omega⟩

@[simp] theorem clampMeta_vocabSize (m : SeMeta) : (clampMeta m).vocabSize = m.vocabSize := rfl

@[simp] theorem clampMeta_dim (m : SeMeta) : (clampMeta m).dim = m.dim := rfl

@[simp] theorem clampMeta_hashTableSize (m : SeMeta) :
    (clampMeta m).hashTableSize = m.hashTableSize := rfl

@[simp] theorem clampMeta_maxProbe (m : SeMeta) : (clampMeta m).maxProbe = m.maxProbe := rfl

theorem MetaOk.clamp {m : SeMeta} (h : MetaOk m) : MetaOk (clampMeta m) := by
  obtain ⟨h₁, h₂, h₃, h₄, h₅, h₆, h₇, h₈, h₉, h₁₀, h₁₁, h₁₂, h₁₃, h₁₄, h₁₅, h₁₆, h₁₇, h₁₈⟩ := h
  exact ⟨h₁, h₂, h₃, h₄, h₅, h₆, h₇, h₈, h₉, h₁₀, h₁₁, h₁₂, h₁₃, h₁₄, h₁₅, h₁₆, h₁₇, h₁₈⟩

theorem clampMeta_maxInputCharsPerWord (m : SeMeta) : 0 < (clampMeta m).maxInputCharsPerWord := by
  unfold clampMeta
  dsimp only
  split_ifs <;> omega

theorem clampMeta_maxTokenChars (m : SeMeta) : 0 < (clampMeta m).maxTokenChars ∧
    (clampMeta m).maxTokenChars ≤ (clampMeta m).maxInputCharsPerWord := by
  unfold clampMeta
  dsimp only
  split_ifs <;> omega

/-! ## Files -/

theorem validateNoOverlaps_eq_ok_iff {secs : List Section} {u : Unit} :
    validateNoOverlaps secs = .ok u ↔ secs.Pairwise fun a b => sectionsOverlap a b = false := by
  induction secs with
  | nil => simp [validateNoOverlaps]
  | cons s secs ih =>
    rw [validateNoOverlaps, List.pairwise_cons]
    rcases hf : secs.find? (sectionsOverlap s) with _ | t
    · simpa [ih] using fun _ => hf
    · refine ⟨fun h => (nomatch h), fun ⟨h, _⟩ => ?_⟩
      have ht := List.find?_some hf
      rw [h t (List.mem_of_find?_eq_some hf)] at ht
      cases ht

/-- The header fields as the loader keeps them. -/
def metaAt (base : Bytes) : SeMeta := clampMeta (readMeta base)

/-- The vocabulary part of the model that `validate` reads from a file. -/
def vocabModelAt (base : Bytes) : SeModel :=
  let secs := readSections base
  { metaAt base with
    mapBase := base
    norm := noNormTables
    vocabStrings := secs.vocabStrings.bytes base
    vocabHash := recordsAt 16 SeVocabSlot.read base secs.vocabHash.off (metaAt base).hashTableSize
    rootTrie := ⟨[], []⟩
    contTrie := ⟨[], []⟩
    embeddings := secs.embeddings.bytes base
    provenance := if secs.provenance.size = 0 then none else some (secs.provenance.bytes base) }

/-- What `validate` checks of the header, the section table and the vocabulary. -/
structure FrontOk (base : Bytes) : Prop where
  length : 320 ≤ base.length
  magic : base.take 8 = seMagic
  version : readU32 base 8 = 3
  headerSize : readU32 base 12 = 320
  fields : MetaOk (readMeta base)
  sections : (readSections base).Ok base.length
  apart : (readSections base).toList.Pairwise fun a b => sectionsOverlap a b = false
  hashSize : (readSections base).vocabHash.size = (readMeta base).hashTableSize * 16
  embeddingsSize : (readSections base).embeddings.size =
    (readMeta base).vocabSize * (readMeta base).dim * 4
  vocab : VocabHashOk (vocabModelAt base)
  probes : ProbesOk ((readMeta base).hashTableSize - 1) (readMeta base).maxProbe 0
    (vocabModelAt base).vocabHash

/-- **A file is accepted exactly if it passes every check**, and its model is what is read. -/
theorem validate_eq_ok_iff {base : Bytes} {m : SeModel} : validate base = .ok m ↔
    FrontOk base ∧ ∃ root cont norm,
      parseTrie base (readSections base).rootTrie (readMeta base).vocabSize "root" = .ok root ∧
      parseTrie base (readSections base).contTrie (readMeta base).vocabSize "continuation" =
        .ok cont ∧
      parseNormTables base (readSections base).norm = .ok norm ∧
      m = { vocabModelAt base with norm := norm, rootTrie := root, contTrie := cont } := by
  have hv32 : (readMeta base).vocabSize < 2 ^ 32 := readU32_lt base 24
  simp only [validate, failFormat, bind_eq_ok, failIf_eq_ok, exists_const, checkMeta_eq_ok_iff,
    validateNoOverlaps_eq_ok_iff, validateVocabHash_eq_ok_iff,
    validateHashProbeLimits_eq_ok_iff]
  simp only [clampMeta_vocabSize, clampMeta_dim, clampMeta_hashTableSize, clampMeta_maxProbe,
    not_not]
  constructor
  · rintro ⟨hl, hm, hr, hh, hf, hs, ha, hn, -, he, hv, hp, root, hroot, cont, hcont, norm,
      hnorm, ⟨⟩⟩
    exact ⟨⟨by omega, hm, hr, hh, hf, hs, ha, hn, he, hv, hp.resolve_left hf.maxProbe.1.ne'⟩,
      root, cont, norm, hroot, hcont, hnorm, rfl⟩
  · rintro ⟨⟨hl, hm, hr, hh, hf, hs, ha, hn, he, hv, hp⟩, root, cont, norm, hroot, hcont, hnorm,
      rfl⟩
    have hd : (readMeta base).vocabSize * (readMeta base).dim < 2 ^ 32 * (2 ^ 20 + 1) :=
      Nat.mul_lt_mul'' hv32 (by have := hf.dim; omega)
    have hle : (readMeta base).vocabSize ≤ (2 ^ 64 - 1) / (readMeta base).dim :=
      (Nat.le_div_iff_mul_le hf.dim.1).mpr (by omega)
    exact ⟨by omega, hm, hr, hh, hf, hs, ha, hn, by omega, he, hv, .inr hp, root, hroot, cont,
      hcont, norm, hnorm, rfl⟩

/-! ## Accepted models -/

theorem vocabProbe?_congr {m m' : SeModel} (hh : m.vocabHash = m'.vocabHash)
    (hs : m.vocabStrings = m'.vocabStrings) (hm : m.hashTableSize = m'.hashTableSize)
    (h totalLen : ℕ) (pre bytes : Bytes) (probes pos : ℕ) :
    vocabProbe? m h totalLen pre bytes probes pos =
      vocabProbe? m' h totalLen pre bytes probes pos := by
  induction probes generalizing pos with
  | zero => rfl
  | succ probes ih => simp only [vocabProbe?, hh, hs, hm, ih]

/-- The lookup reads the header, the strings and the hash table only. -/
theorem seVocabLookup_congr {m m' : SeModel} (hh : m.vocabHash = m'.vocabHash)
    (hs : m.vocabStrings = m'.vocabStrings) (hf : m.toSeMeta = m'.toSeMeta) (bytes : Bytes) :
    seVocabLookup m bytes = seVocabLookup m' bytes := by
  have hm : m.hashTableSize = m'.hashTableSize := congrArg SeMeta.hashTableSize hf
  simp only [seVocabLookup, seVocabLookup?, seVocabLookupPiece?, hf,
    vocabProbe?_congr hh hs hm]

/-- What the runtime relies on: the checked facts about the model of an accepted file. -/
structure ModelOk (m : SeModel) : Prop where
  fields : MetaOk m.toSeMeta
  maxInput_pos : 0 < m.maxInputCharsPerWord
  maxTokenChars_pos : 0 < m.maxTokenChars
  maxTokenChars_le : m.maxTokenChars ≤ m.maxInputCharsPerWord
  hash_lt : m.hashTableSize < 2 ^ 32
  hash_length : m.vocabHash.length = m.hashTableSize
  vocab : VocabHashOk m
  probes : ProbesOk (m.hashTableSize - 1) m.maxProbe 0 m.vocabHash
  embeddings_length : m.embeddings.length = m.vocabSize * m.dim * 4
  root : TrieOk m.vocabSize m.rootTrie
  root_pos : 0 < m.rootTrie.nodes.length
  cont : TrieOk m.vocabSize m.contTrie
  cont_pos : 0 < m.contTrie.nodes.length
  norm : NormTablesOk m.norm

/-- No token id is the marker of an empty slot or of a node without a token. -/
theorem ModelOk.vocabSize_lt {m : SeModel} (h : ModelOk m) : m.vocabSize < slotEmpty := by
  have := h.fields.load
  have := h.hash_lt
  unfold slotEmpty
  omega

theorem Section.length_bytes {s : Section} {base : Bytes} {elemSize : ℕ}
    (h : sectionOk s base.length elemSize) : (s.bytes base).length = s.size := by
  rw [Section.bytes, slice, List.length_take, List.length_drop]
  rcases h with h | ⟨-, -, h₁, h₂, -⟩
  · have : s.size = 0 := by
      unfold sectionPresent at h
      omega
    omega
  · omega

/-- **The model of an accepted file is well formed.** -/
theorem modelOk_of_validate {base : Bytes} {m : SeModel} (h : validate base = .ok m) :
    ModelOk m := by
  obtain ⟨hf, root, cont, norm, hroot, hcont, hnorm, rfl⟩ := validate_eq_ok_iff.mp h
  obtain ⟨-, hr0, hroot, er⟩ := parseTrie_eq_ok_iff.mp hroot
  obtain ⟨-, hc0, hcont, ec⟩ := parseTrie_eq_ok_iff.mp hcont
  have hlookup : ∀ bytes, seVocabLookup (vocabModelAt base) bytes = seVocabLookup
      { vocabModelAt base with norm := norm, rootTrie := root, contTrie := cont } bytes :=
    seVocabLookup_congr rfl rfl rfl
  exact {
    fields := hf.fields.clamp
    maxInput_pos := clampMeta_maxInputCharsPerWord _
    maxTokenChars_pos := (clampMeta_maxTokenChars _).1
    maxTokenChars_le := (clampMeta_maxTokenChars _).2
    hash_lt := readU32_lt base 104
    hash_length := length_recordsAt
    vocab := ⟨hf.vocab.slots, hf.vocab.filled, hlookup _ ▸ hf.vocab.unk, fun t ht hb =>
      ⟨(hf.vocab.added t ht hb).1, hlookup _ ▸ (hf.vocab.added t ht hb).2⟩⟩
    probes := hf.probes
    embeddings_length := (Section.length_bytes hf.sections.2.2.1).trans hf.embeddingsSize
    root := hroot
    root_pos := by
      rw [er, length_recordsAt]
      omega
    cont := hcont
    cont_pos := by
      rw [ec, length_recordsAt]
      omega
    norm := (parseNormTables_eq_ok_iff.mp hnorm).1 }

/-- The model of a file; of a file that is not accepted, what is left of it. -/
def loadedModel (base : Bytes) : SeModel :=
  match validate base with
  | .ok m => m
  | .error _ => vocabModelAt base

theorem validate_eq_loadedModel {base : Bytes} (h : (validate base).toOption.isSome = true) :
    validate base = .ok (loadedModel base) := by
  unfold loadedModel
  rcases hv : validate base with e | m
  · rw [hv] at h
    cases h
  · rfl

/-- The model of the small file. -/
def sampleModel : SeModel := loadedModel sampleFile

theorem validate_sampleFile : validate sampleFile = .ok sampleModel :=
  validate_eq_loadedModel (by decide +kernel)

end StaticEmbeddings
