import StaticEmbeddings.Format.Accepted

/-!
# What the readers compute

On the tables of an accepted file every read of the readers stays inside its table, and the value
read is a plain property of the table.

* `inRanges`, `entryOf`: the normalization tables as sets and maps; `tableContains?_eq`,
  `tableEntryOf?_eq`.
* `SeTrie.child?`, `SeTrie.longest`: the tries as automata; **`seTrieLongestMatch?_eq`**.
* **`isSome_seVocabLookupPiece?`**, `seVocabLookup_lt`: the hash table.
-/

namespace StaticEmbeddings

open LittleEndian

/-! ## Ranges -/

/-- A code point lies in one of the ranges. -/
def inRanges (ranges : List SeRange) (cp : ℕ) : Bool := ranges.any fun r => r.lo ≤ cp && cp ≤ r.hi

section

variable {ranges : List SeRange} {cp : ℕ}

theorem rangeCmp_getElem {i : ℕ} (hi : i < ranges.length) : rangeCmp ranges cp i =
    some (if cp < ranges[i].lo then .lt else if cp > ranges[i].hi then .gt else .eq) := by
  rw [rangeCmp, List.getElem?_eq_getElem hi, Option.map_some]

/-- **`se_range_contains` is membership in the ranges.** -/
theorem seRangeContains?_eq (h : NormRangesOk ranges) :
    seRangeContains? ranges cp = some (inRanges ranges cp) := by
  have hs := List.pairwise_iff_getElem.mp h.sorted
  unfold seRangeContains?
  by_cases hex : ∃ i, ∃ hi : i < ranges.length, ranges[i].lo ≤ cp ∧ cp ≤ ranges[i].hi
  · obtain ⟨i, hi, h₁, h₂⟩ := hex
    rw [SortedSearch.search?_eq_some_of_mem (by omega) (Nat.zero_le i) hi]
    · have : inRanges ranges cp = true :=
        List.any_eq_true.mpr ⟨ranges[i], List.getElem_mem hi, by simp [h₁, h₂]⟩
      rw [this]
      rfl
    · rw [rangeCmp_getElem hi, if_neg (by omega), if_neg (by omega)]
    · intro j _ hj
      have := hs j i (by omega) hi hj
      have := h.le ranges[j] (List.getElem_mem _)
      rw [rangeCmp_getElem (by omega), if_neg (by omega), if_pos (by omega)]
    · intro j hj hjl
      have := hs i j hi hjl hj
      rw [rangeCmp_getElem hjl, if_pos (by omega)]
  · have hn : inRanges ranges cp = false := by
      rw [Bool.eq_false_iff, ne_eq, inRanges, List.any_eq_true]
      rintro ⟨r, hr, hc⟩
      obtain ⟨i, hi, rfl⟩ := List.mem_iff_getElem.mp hr
      exact hex ⟨i, hi, by simpa using hc⟩
    have hread : ∀ i < ranges.length, (rangeCmp ranges cp i).isSome := fun i hi => by
      rw [rangeCmp_getElem hi]
      rfl
    rw [hn, SortedSearch.search?_eq_none hread le_rfl]
    · rfl
    · intro i _ hi hc
      rw [rangeCmp_getElem hi, Option.some.injEq] at hc
      by_cases h₁ : cp < ranges[i].lo
      · simp [h₁] at hc
      by_cases h₂ : cp > ranges[i].hi
      · simp [h₁, h₂] at hc
      · exact hex ⟨i, hi, by omega, by omega⟩

theorem getElem?_foldl_set (cps : List ℕ) (out : List Bool) :
    (cps.foldl (fun out cp => out.set cp true) out)[cp]? =
      if cp ∈ cps then out[cp]?.map fun _ => true else out[cp]? := by
  induction cps generalizing out with
  | nil => simp
  | cons c cps ih =>
    rw [List.foldl_cons, ih, List.getElem?_set]
    by_cases hc : c = cp
    · subst hc
      by_cases hl : c < out.length <;> simp [hl]
    · simp [hc, Ne.symm hc]

theorem getElem?_fillRange256 (h : cp < 256) :
    (fillRange256 ranges)[cp]? = some (inRanges ranges cp) := by
  -- the loop over the ranges, from any table on
  have loop : ∀ out : List Bool, (ranges.foldl (fun out r => if r.lo > 255 then out
      else (List.range' r.lo (min r.hi 255 + 1 - r.lo)).foldl (fun out cp => out.set cp true) out)
      out)[cp]? = out[cp]?.map (· || inRanges ranges cp) := by
    induction ranges with
    | nil => simp [inRanges]
    | cons r ranges ih =>
      intro out
      have hr : (if r.lo > 255 then out else (List.range' r.lo (min r.hi 255 + 1 - r.lo)).foldl
          (fun out cp => out.set cp true) out)[cp]? =
            out[cp]?.map (· || (r.lo ≤ cp && cp ≤ r.hi)) := by
        split_ifs with hlo
        · simp [show ¬ r.lo ≤ cp by omega]
        · rw [getElem?_foldl_set]
          by_cases hc : r.lo ≤ cp ∧ cp ≤ r.hi
          · rw [if_pos (List.mem_range'_1.mpr (by omega))]
            simp [hc]
          · rw [if_neg (fun hm => hc (by have := List.mem_range'_1.mp hm; omega))]
            simp [show (decide (r.lo ≤ cp) && decide (cp ≤ r.hi)) = false by
              simpa using fun h₁ => not_le.mp fun h₂ => hc ⟨h₁, h₂⟩]
      rw [List.foldl_cons, ih, hr, Option.map_map]
      congr 1
      funext b
      simp [inRanges, Bool.or_assoc]
  rw [fillRange256, loop, List.getElem?_replicate, if_pos h, Option.map_some, Bool.false_or]

theorem tableContains?_eq (h : NormRangesOk ranges) :
    tableContains? (fillRange256 ranges) ranges cp = some (inRanges ranges cp) := by
  unfold tableContains?
  split_ifs with hc
  · exact getElem?_fillRange256 hc
  · exact seRangeContains?_eq h

end

/-! ## Mappings -/

/-- The entry of a code point. -/
def entryOf (entries : List SeMapEntry) (cp : ℕ) : Option SeMapEntry :=
  entries.find? (·.cp = cp)

section

variable {entries : List SeMapEntry} {cp : ℕ}

theorem mapCmp_getElem {i : ℕ} (hi : i < entries.length) : mapCmp entries cp i =
    some (if cp < entries[i].cp then .lt else if cp > entries[i].cp then .gt else .eq) := by
  rw [mapCmp, List.getElem?_eq_getElem hi, Option.map_some]

theorem entryOf_getElem (h : entries.Pairwise fun a b => a.cp < b.cp) {i : ℕ}
    (hi : i < entries.length) (hc : entries[i].cp = cp) : entryOf entries cp = some entries[i] := by
  rw [entryOf, List.find?_eq_some_iff_getElem]
  refine ⟨by simpa using hc, i, hi, rfl, fun j hj => ?_⟩
  have := List.pairwise_iff_getElem.mp h j i (by omega) hi hj
  simp only [decide_eq_false_iff_not, Bool.not_eq_true', ← hc]
  omega

/-- **`se_map_lookup` finds the entry.** -/
theorem seMapLookup?_eq (h : NormMapOk entries) :
    seMapLookup? entries cp = some (entryOf entries cp) := by
  have hs := List.pairwise_iff_getElem.mp h.sorted
  unfold seMapLookup?
  by_cases hex : ∃ i, ∃ hi : i < entries.length, entries[i].cp = cp
  · obtain ⟨i, hi, hc⟩ := hex
    rw [SortedSearch.search?_eq_some_of_mem (by omega) (Nat.zero_le i) hi]
    · show entries[i]?.map some = _
      rw [List.getElem?_eq_getElem hi, entryOf_getElem h.sorted hi hc]
      rfl
    · rw [mapCmp_getElem hi, if_neg (by omega), if_neg (by omega)]
    · intro j _ hj
      have := hs j i (by omega) hi hj
      rw [mapCmp_getElem (by omega), if_neg (by omega), if_pos (by omega)]
    · intro j hj hjl
      have := hs i j hi hjl hj
      rw [mapCmp_getElem hjl, if_pos (by omega)]
  · have hn : entryOf entries cp = none := by
      rw [entryOf, List.find?_eq_none]
      intro e he hc
      obtain ⟨i, hi, rfl⟩ := List.mem_iff_getElem.mp he
      exact hex ⟨i, hi, by simpa using hc⟩
    have hread : ∀ i < entries.length, (mapCmp entries cp i).isSome := fun i hi => by
      rw [mapCmp_getElem hi]
      rfl
    rw [hn, SortedSearch.search?_eq_none hread le_rfl]
    · rfl
    · intro i _ hi hc
      rw [mapCmp_getElem hi, Option.some.injEq] at hc
      by_cases h₁ : cp < entries[i].cp
      · simp [h₁] at hc
      by_cases h₂ : cp > entries[i].cp
      · simp [h₁, h₂] at hc
      · exact hex ⟨i, hi, by omega⟩

theorem getElem?_fillMap256 (h : entries.Pairwise fun a b => a.cp < b.cp) (hc : cp < 256) :
    (fillMap256 entries)[cp]? = some (entryOf entries cp) := by
  -- the loop over the entries, from any table on
  have loop : ∀ out : List (Option SeMapEntry), cp < out.length →
      (entries.foldl (fun out e => if e.cp < 256 then out.set e.cp (some e) else out) out)[cp]? =
        some ((entryOf entries cp).or (out[cp]?.join)) := by
    induction entries with
    | nil => intro out hl; simp [entryOf, hl]
    | cons e entries ih =>
      intro out hl
      obtain ⟨he, hs⟩ := List.pairwise_cons.mp h
      rw [List.foldl_cons, ih hs _ (by split_ifs <;> simpa using hl)]
      by_cases hec : e.cp = cp
      · have hn : entryOf entries cp = none := by
          rw [entryOf, List.find?_eq_none]
          intro e' he' hc'
          have := he e' he'
          simp only [decide_eq_true_eq] at hc'
          omega
        rw [hn, if_pos (by omega), hec, List.getElem?_set_self hl]
        simp [entryOf, hec]
      · have hset : (if e.cp < 256 then out.set e.cp (some e) else out)[cp]? = out[cp]? := by
          split_ifs
          · exact List.getElem?_set_ne hec
          · rfl
        rw [hset]
        simp [entryOf, hec]
  rw [fillMap256, loop _ (by rwa [List.length_replicate]), List.getElem?_replicate, if_pos hc,
    Option.join_some, Option.or_none]

theorem tableEntryOf?_eq (h : NormMapOk entries) :
    tableEntryOf? (fillMap256 entries) entries cp = some (entryOf entries cp) := by
  unfold tableEntryOf?
  split_ifs with hc
  · exact getElem?_fillMap256 h.sorted hc
  · exact seMapLookup?_eq h

end

/-! ## Tries -/

/-- The edge of a node for a byte. -/
def SeTrie.edge? (t : SeTrie) (node : SeTrieNode) (byte : ℕ) : Option SeTrieEdge :=
  (t.edgesOf node).find? (·.byte = byte)

/-- What `trie_find_child` returns for the edge found. -/
def edgeTarget (e : Option SeTrieEdge) : ℕ := (e.map (·.child)).getD slotEmpty

section

variable {t : SeTrie} {node : SeTrieNode} {vocabSize byte : ℕ}

theorem find?_of_sorted {edges : List SeTrieEdge} (h : edges.Pairwise fun a b => a.byte < b.byte)
    {i : ℕ} (hi : i < edges.length) (hb : edges[i].byte = byte) :
    edges.find? (·.byte = byte) = some edges[i] := by
  rw [List.find?_eq_some_iff_getElem]
  refine ⟨by simpa using hb, i, hi, rfl, fun j hj => ?_⟩
  have := List.pairwise_iff_getElem.mp h j i (by omega) hi hj
  simp only [decide_eq_false_iff_not, Bool.not_eq_true', ← hb]
  omega

theorem length_edgesOf (h : node.edgeStart + node.edgeCount ≤ t.edges.length) :
    (t.edgesOf node).length = node.edgeCount := by
  rw [SeTrie.edgesOf, List.length_take, List.length_drop]
  omega

theorem getElem?_edgesOf {k : ℕ} (hk : k < node.edgeCount) :
    t.edges[node.edgeStart + k]? = (t.edgesOf node)[k]? := by
  rw [SeTrie.edgesOf, List.getElem?_take_of_lt hk, List.getElem?_drop]

theorem trieScan?_eq (hr : node.edgeStart + node.edgeCount ≤ t.edges.length)
    (hs : (t.edgesOf node).Pairwise fun a b => a.byte < b.byte) (n k : ℕ)
    (hk : n + k = node.edgeCount) : trieScan? t byte n (node.edgeStart + k) =
      some (edgeTarget (((t.edgesOf node).drop k).find? (·.byte = byte))) := by
  induction n generalizing k with
  | zero =>
    rw [List.drop_eq_nil_of_le (by rw [length_edgesOf hr]; omega)]
    rfl
  | succ n ih =>
    have hkl : k < (t.edgesOf node).length := by
      rw [length_edgesOf hr]
      omega
    rw [trieScan?, getElem?_edgesOf (by omega), List.getElem?_eq_getElem hkl,
      List.drop_eq_getElem_cons hkl, List.find?_cons, Option.bind_eq_bind, Option.bind_some]
    by_cases he : (t.edgesOf node)[k].byte = byte
    · rw [if_pos he, decide_eq_true he]
      rfl
    rw [if_neg he, decide_eq_false he]
    split_ifs with hgt
    · have hn : ((t.edgesOf node).drop (k + 1)).find? (·.byte = byte) = none := by
        rw [List.find?_eq_none]
        intro e hm hb
        obtain ⟨j, hj, rfl⟩ := List.mem_iff_getElem.mp hm
        rw [List.length_drop] at hj
        have := List.pairwise_iff_getElem.mp hs k (k + 1 + j) hkl (by omega) (by omega)
        simp only [List.getElem_drop, decide_eq_true_eq] at hb
        omega
      rw [hn]
      rfl
    · exact ih (k + 1) (by omega)

theorem lowerBound?_edges (hr : node.edgeStart + node.edgeCount ≤ t.edges.length)
    (hs : (t.edgesOf node).Pairwise fun a b => a.byte < b.byte) : ∃ k, k ≤ node.edgeCount ∧
      SortedSearch.lowerBound? (fun i => t.edges[i]?.map (·.byte < byte)) node.edgeCount
        node.edgeStart (node.edgeStart + node.edgeCount) = some (node.edgeStart + k) ∧
      (∀ j (hj : j < (t.edgesOf node).length), j < k → (t.edgesOf node)[j].byte < byte) ∧
      ∀ hk : k < (t.edgesOf node).length, ¬ (t.edgesOf node)[k].byte < byte := by
  have hl := length_edgesOf hr
  have hread : ∀ j (hj : j < (t.edgesOf node).length),
      t.edges[node.edgeStart + j]?.map (fun e => decide (e.byte < byte)) =
        some (decide ((t.edgesOf node)[j].byte < byte)) := fun j hj => by
    rw [getElem?_edgesOf (by omega), List.getElem?_eq_getElem hj, Option.map_some]
  obtain ⟨i, hi, h₁, h₂, h₃, h₄⟩ := @SortedSearch.lowerBound?_spec
    (fun i => t.edges[i]?.map fun e => decide (e.byte < byte)) t.edges.length node.edgeCount
    node.edgeStart (node.edgeStart + node.edgeCount)
    (fun i hi => by simp [List.getElem?_eq_getElem hi]) hr (by omega) (by omega)
    (fun i j hi hij hj hb => by
      rw [show j = node.edgeStart + (j - node.edgeStart) by omega, hread _ (by omega)] at hb
      rw [show i = node.edgeStart + (i - node.edgeStart) by omega, hread _ (by omega)]
      simp only [Option.some.injEq, decide_eq_true_eq] at hb ⊢
      rcases Nat.lt_or_eq_of_le hij with hlt | rfl
      · exact (List.pairwise_iff_getElem.mp hs _ _ _ _ (by omega)).trans hb
      · exact hb)
  obtain ⟨k, rfl⟩ := Nat.exists_eq_add_of_le h₁
  refine ⟨k, by omega, hi, fun j hj hjk => ?_, fun hk => ?_⟩
  · simpa [hread j hj] using h₃ (node.edgeStart + j) (by omega) (by omega)
  · simpa [hread k hk] using h₄ (by omega)

/-- **`trie_find_child` finds the edge for the byte**, whichever of its searches it takes. -/
theorem trieFindChild?_eq (h : TrieOk vocabSize t) (hn : node ∈ t.nodes) :
    trieFindChild? t node byte = some (edgeTarget (t.edge? node byte)) := by
  have hr := h.range node hn
  have hs := (h.edges node hn).sorted
  have hl := length_edgesOf hr
  unfold trieFindChild? SeTrie.edge?
  dsimp only
  split_ifs with h0 h1 h2 h8
  · rw [List.length_eq_zero_iff.mp (hl.trans h0)]
    rfl
  · obtain ⟨e, he⟩ := List.length_eq_one_iff.mp (hl.trans h1)
    have hread := @getElem?_edgesOf t node 0 (by omega)
    rw [Nat.add_zero] at hread
    rw [hread, he]
    by_cases hb : e.byte = byte <;> simp [edgeTarget, hb]
  · obtain ⟨e, e', he⟩ := List.length_eq_two.mp (hl.trans h2)
    have hread := @getElem?_edgesOf t node 0 (by omega)
    have hread' := @getElem?_edgesOf t node 1 (by omega)
    rw [Nat.add_zero] at hread
    rw [hread, hread', he]
    by_cases hb : e.byte = byte
    · simp [edgeTarget, hb]
    · by_cases hb' : e'.byte = byte <;> simp [edgeTarget, hb, hb']
  · simpa using @trieScan?_eq t node byte hr hs node.edgeCount 0 rfl
  · obtain ⟨k, hk, hlb, hbelow, habove⟩ := @lowerBound?_edges t node byte hr hs
    rw [hlb, Option.bind_eq_bind, Option.bind_some]
    -- an edge for the byte can only be the one at the bound
    have miss : (∀ hk : k < (t.edgesOf node).length, (t.edgesOf node)[k].byte ≠ byte) →
        (t.edgesOf node).find? (·.byte = byte) = none := fun hne => by
      rw [List.find?_eq_none]
      intro e he hb
      obtain ⟨j, hj, rfl⟩ := List.mem_iff_getElem.mp he
      simp only [decide_eq_true_eq] at hb
      rcases Nat.lt_trichotomy j k with hjk | rfl | hjk
      · have := hbelow j hj hjk
        omega
      · exact hne hj hb
      · have := List.pairwise_iff_getElem.mp hs k j (by omega) hj hjk
        have := habove (by omega)
        omega
    split_ifs with hlt
    · have hkl : k < (t.edgesOf node).length := by omega
      rw [getElem?_edgesOf (by omega), List.getElem?_eq_getElem hkl, Option.bind_eq_bind,
        Option.bind_some]
      split_ifs with hb
      · rw [find?_of_sorted hs hkl hb]
        rfl
      · rw [miss fun _ => hb]
        rfl
    · rw [miss fun _ => by omega]
      rfl

end

/-- The node reached over a byte. -/
def SeTrie.child? (t : SeTrie) (node byte : ℕ) : Option ℕ := do
  let e ← t.edge? (← t.nodes[node]?) byte
  if e.child = slotEmpty then none else some e.child

/-- The token of a node. -/
def SeTrie.token? (t : SeTrie) (node : ℕ) : Option ℕ := do
  let n ← t.nodes[node]?
  if n.tokenId = slotEmpty then none else some n.tokenId

/-- The longest match from a node on: its token and its length. -/
def SeTrie.longest (t : SeTrie) : ℕ → Bytes → Option (ℕ × ℕ)
  | _, [] => none
  | node, b :: bytes =>
    match t.child? node b.toNat with
    | none => none
    | some next =>
      match longest t next bytes with
      | some (id, len) => some (id, len + 1)
      | none => (t.token? next).map fun id => (id, 1)

section

variable {t : SeTrie} {vocabSize : ℕ}

theorem token?_lt (h : TrieOk vocabSize t) {node id : ℕ} (ht : t.token? node = some id) :
    id < vocabSize := by
  simp only [SeTrie.token?, Option.bind_eq_bind, Option.bind_eq_some_iff] at ht
  obtain ⟨n, hn, ht⟩ := ht
  split_ifs at ht with he
  cases ht
  exact (h.token n (List.mem_of_getElem? hn)).resolve_left he

theorem longest_lt (h : TrieOk vocabSize t) {node id len : ℕ} {bytes : Bytes}
    (hl : t.longest node bytes = some (id, len)) :
    id < vocabSize ∧ 0 < len ∧ len ≤ bytes.length := by
  induction bytes generalizing node id len with
  | nil => cases hl
  | cons b bytes ih =>
    rw [SeTrie.longest] at hl
    rcases hc : t.child? node b.toNat with _ | next
    · simp [hc] at hl
    rcases hr : t.longest next bytes with _ | ⟨id', len'⟩
    · simp only [hc, hr, Option.map_eq_some_iff, Prod.mk.injEq] at hl
      obtain ⟨_, ht, rfl, rfl⟩ := hl
      exact ⟨token?_lt h ht, by omega, by simp⟩
    · simp only [hc, hr, Option.some.injEq, Prod.mk.injEq] at hl
      obtain ⟨rfl, rfl⟩ := hl
      obtain ⟨h₁, h₂, h₃⟩ := ih hr
      exact ⟨h₁, by omega, by simpa using h₃⟩

/-- The loop of `se_trie_longest_match` never leaves the tables: its bound is the input's length,
so cycles and shared nodes do no harm. -/
theorem trieWalk?_eq (h : TrieOk vocabSize t) {node : ℕ} (hn : node < t.nodes.length)
    (bytes : Bytes) (i bestId bestLen : ℕ) : trieWalk? t bytes node i bestId bestLen =
      some (match t.longest node bytes with
        | some (id, len) => (id, i + len)
        | none => (bestId, bestLen)) := by
  induction bytes generalizing node i bestId bestLen with
  | nil => rfl
  | cons b bytes ih =>
    have hm : t.nodes[node] ∈ t.nodes := List.getElem_mem hn
    have hf := @trieFindChild?_eq t t.nodes[node] vocabSize b.toNat h hm
    rw [trieWalk?, SeTrie.longest, SeTrie.child?, List.getElem?_eq_getElem hn]
    rcases he : t.edge? t.nodes[node] b.toNat with _ | e
    · rw [he] at hf
      simp [hf, he, edgeTarget]
    rw [he, edgeTarget, Option.map_some, Option.getD_some] at hf
    have hlt : e.child < t.nodes.length := (h.edges _ hm).child_lt e (List.mem_of_find?_eq_some he)
    simp only [Option.bind_eq_bind, Option.bind_some, hf, he]
    by_cases hempty : e.child = slotEmpty
    · rw [if_pos hempty, if_pos hempty]
      rfl
    rw [if_neg hempty, if_neg hempty, List.getElem?_eq_getElem hlt]
    simp only [Option.bind_some, ih hlt, SeTrie.token?, List.getElem?_eq_getElem hlt,
      Option.bind_eq_bind]
    rcases t.longest e.child bytes with _ | ⟨id, len⟩
    · by_cases ht : t.nodes[e.child].tokenId = slotEmpty <;> simp [ht]
    · simp only [Nat.add_assoc, Nat.add_comm 1 len, ite_self]

/-- **`se_trie_longest_match` finds the longest match.** -/
theorem seTrieLongestMatch?_eq (h : TrieOk vocabSize t) (hv : vocabSize ≤ slotEmpty)
    (hpos : 0 < t.nodes.length) (bytes : Bytes) :
    seTrieLongestMatch? t bytes = some (t.longest 0 bytes) := by
  rw [seTrieLongestMatch?, if_neg hpos.ne', trieWalk?_eq h hpos]
  rcases hl : t.longest 0 bytes with _ | ⟨id, len⟩
  · rfl
  · have := (longest_lt h hl).1
    simp only [Option.bind_eq_bind, Option.bind_some, Nat.zero_add]
    rw [if_neg (by omega)]
    rfl

end

/-! ## Vocabulary hash -/

/-- **`se_memeq` compares the first `n` bytes.** -/
theorem seMemeq_eq_true_iff (a b : Bytes) (n : ℕ) :
    seMemeq a b n = true ↔ a.take n = b.take n := by
  -- a prefix of `k + n` bytes is one of `k` bytes and one of `n` bytes of the rest
  have split : ∀ (a b : Bytes) (k n : ℕ), a.take (k + n) = b.take (k + n) ↔
      a.take k = b.take k ∧ (a.drop k).take n = (b.drop k).take n := fun a b k n => by
    rw [List.take_add, List.take_add]
    refine ⟨fun h => ?_, fun ⟨h₁, h₂⟩ => by rw [h₁, h₂]⟩
    have h₁ : a.take k = b.take k := by
      have := congrArg (List.take k) h
      rwa [← List.take_add, ← List.take_add, List.take_take, List.take_take,
        Nat.min_eq_left (Nat.le_add_right k n)] at this
    rw [h₁] at h
    exact ⟨h₁, List.append_cancel_left h⟩
  fun_induction seMemeq a b n with
  | case1 a b n hn ih =>
    rw [Bool.and_eq_true, beq_iff_eq, and_congr_right fun _ => ih, ← split,
      Nat.add_sub_cancel' hn]
  | case2 a b n h8 h4 =>
    rw [Bool.and_eq_true, beq_iff_eq, beq_iff_eq, ← split, Nat.add_sub_cancel' h4]
  | case3 a b n h8 h4 => rw [beq_iff_eq]

theorem slice_add (bs : Bytes) (off k n : ℕ) :
    slice bs off (k + n) = slice bs off k ++ slice bs (off + k) n := by
  rw [slice, slice, slice, List.take_add, List.drop_drop]

/-- The token string that a slot points to. -/
def SeVocabSlot.bytes (m : SeModel) (s : SeVocabSlot) : Bytes := slice m.vocabStrings s.strOff s.strLen

section

variable {m : SeModel}

/-- Probing reads slots and strings inside their tables, and what it finds is a slot with the
wanted string. -/
theorem vocabProbe?_spec (h : ModelOk m) {hash totalLen probes pos : ℕ} {pre bytes : Bytes}
    (hlen : totalLen = pre.length + bytes.length) (hp : pos < m.hashTableSize) :
    ∃ r, vocabProbe? m hash totalLen pre bytes probes pos = some r ∧
      ∀ id ∈ r, ∃ s ∈ filledSlots m.vocabHash, s.tokenId = id ∧ s.bytes m = pre ++ bytes := by
  induction probes generalizing pos with
  | zero => exact ⟨none, rfl, by simp⟩
  | succ probes ih =>
    have hpl : pos < m.vocabHash.length := h.hash_length ▸ hp
    have hnext : (pos + 1) &&& (m.hashTableSize - 1) < m.hashTableSize :=
      lt_of_le_of_lt Nat.and_le_right (by omega)
    rw [vocabProbe?, List.getElem?_eq_getElem hpl]
    simp only [Option.bind_eq_bind, Option.bind_some]
    split_ifs with hempty hkey
    · exact ⟨none, rfl, by simp⟩
    · have hfill : m.vocabHash[pos] ∈ filledSlots m.vocabHash :=
        List.mem_filter.mpr ⟨List.getElem_mem hpl, by simpa using hempty⟩
      have hstr := h.vocab.slots.string _ hfill
      rw [slice?_of_le (by omega), slice?_of_le (by omega), Option.bind_some, Option.bind_some]
      split_ifs with heq
      · refine ⟨some m.vocabHash[pos].tokenId, rfl, fun id hid => ?_⟩
        cases hid
        refine ⟨_, hfill, rfl, ?_⟩
        obtain ⟨h₁, h₂⟩ := heq
        have take_all : ∀ {off : ℕ} {w : Bytes}, off + w.length ≤ m.vocabStrings.length →
            (w.length = 0 ∨ seMemeq (slice m.vocabStrings off w.length) w w.length = true) →
            slice m.vocabStrings off w.length = w := fun {off w} hl hw => by
          rcases hw with hw | hw
          · rw [List.length_eq_zero_iff.mp hw]
            rfl
          · rwa [seMemeq_eq_true_iff, List.take_of_length_le (length_slice hl).le,
              List.take_length] at hw
        rw [SeVocabSlot.bytes, hkey.2, hlen, slice_add, take_all (by omega) h₁,
          take_all (by omega) h₂]
      · exact ih hnext
    · exact ih hnext

/-- **The lookup of any key stays inside the hash table and the strings.** -/
theorem seVocabLookupPiece?_spec (h : ModelOk m) (pre bytes : Bytes) :
    ∃ r, seVocabLookupPiece? m pre bytes = some r ∧
      ∀ id ∈ r, ∃ s ∈ filledSlots m.vocabHash, s.tokenId = id ∧ s.bytes m = pre ++ bytes := by
  unfold seVocabLookupPiece?
  split_ifs with hb
  · exact ⟨none, rfl, by simp⟩
  · exact vocabProbe?_spec h rfl
      (lt_of_le_of_lt Nat.and_le_right (Nat.sub_lt h.fields.hashTableSize.1 one_pos))

theorem seVocabLookup?_eq (h : ModelOk m) (bytes : Bytes) :
    seVocabLookup? m bytes = some (seVocabLookup m bytes) := by
  obtain ⟨r, hr, -⟩ := seVocabLookupPiece?_spec h [] bytes
  rw [seVocabLookup, seVocabLookup?, hr]
  rfl

theorem exists_slot_of_seVocabLookup (h : ModelOk m) {bytes : Bytes} {id : ℕ}
    (hl : seVocabLookup m bytes = some id) :
    ∃ s ∈ filledSlots m.vocabHash, s.tokenId = id ∧ s.bytes m = bytes := by
  obtain ⟨r, hr, hid⟩ := seVocabLookupPiece?_spec h [] bytes
  rw [seVocabLookup, seVocabLookup?, hr, Option.getD_some] at hl
  exact hid id hl

theorem seVocabLookup_lt (h : ModelOk m) {bytes : Bytes} {id : ℕ}
    (hl : seVocabLookup m bytes = some id) : id < m.vocabSize := by
  obtain ⟨s, hs, rfl, -⟩ := exists_slot_of_seVocabLookup h hl
  exact h.vocab.slots.id_lt s hs

end

end StaticEmbeddings
