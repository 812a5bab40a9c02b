import StaticEmbeddings.Convert.Trie
import StaticEmbeddings.Format.Packed
import StaticEmbeddings.Format.Readers
import StaticEmbeddings.Lib.PrefixTree

/-!
# The converter's tries in the file

What a `Trie` holds after its insertions, and what the loader's match finds in the packed section.

* `TrieWf`: every node is labelled with its word.
* `path_spec`, `insert_spec`, `insertAll_spec`: the tree holds the keys that were inserted.
* `packed`, `packed_ok`, `longest_packed`: the arrays behind `pack`.
* **`packed_trie_longest_match`**.
-/

namespace StaticEmbeddings

open LittleEndian PrefixTree

namespace Trie

/-! ## Nodes -/

/-- The node reached over a byte. -/
def next (t : Trie) (n : ℕ) (b : UInt8) : Option ℕ := t.child n b.toNat

/-- The id of a node. -/
def token (t : Trie) (n : ℕ) : Option ℕ :=
  if (t[n]?.getD {}).terminal = slotEmpty then none else some (t[n]?.getD {}).terminal

/-- The id of a key. -/
def find (t : Trie) (w : Bytes) : Option ℕ := PrefixTree.find t.next t.token 0 w

/-- Nodes are labelled with their words, and ids are below `vocabSize`. -/
structure Wf (vocabSize : ℕ) (t : Trie) (label : ℕ → Bytes) : Prop where
  pos : 0 < t.length
  root : label 0 = []
  edge : ∀ n node, t[n]? = some node → ∀ e ∈ node.children,
    e.2 < t.length ∧ ∃ b : UInt8, e.1 = b.toNat ∧ label e.2 = label n ++ [b]
  nodup : ∀ node ∈ t, (node.children.map Prod.fst).Nodup
  terminal : ∀ node ∈ t, node.terminal = slotEmpty ∨ node.terminal < vocabSize

theorem wf_empty (vocabSize : ℕ) : Wf vocabSize empty fun _ => [] where
  pos := Nat.one_pos
  root := rfl
  edge n node h e he := by
    obtain rfl := List.mem_singleton.mp (List.mem_of_getElem? h)
    cases he
  nodup node h := by
    obtain rfl := List.mem_singleton.mp h
    exact List.nodup_nil
  terminal node h := by
    obtain rfl := List.mem_singleton.mp h
    exact .inl rfl

section

variable {vocabSize : ℕ} {t : Trie} {label : ℕ → Bytes} {n c : ℕ} {b : UInt8}

theorem child_eq_some {byte : ℕ} (h : t.child n byte = some c) :
    ∃ node, t[n]? = some node ∧ (byte, c) ∈ node.children := by
  unfold child at h
  cases hn : t[n]? with
  | none => rw [hn] at h; cases h
  | some node =>
    rw [hn] at h
    exact ⟨node, rfl, mem_of_lookup h⟩

theorem Wf.next (h : Wf vocabSize t label) (hc : t.next n b = some c) :
    n < t.length ∧ c < t.length ∧ label c = label n ++ [b] := by
  obtain ⟨node, hn, he⟩ := child_eq_some hc
  obtain ⟨hlt, b', hb, hl⟩ := h.edge n node hn _ he
  obtain rfl : b = b' := UInt8.toNat_inj.mp hb
  exact ⟨(List.getElem?_eq_some_iff.mp hn).1, hlt, hl⟩

/-! ## Appending a node -/

variable {node byte : ℕ}

theorem length_appendNode (t : Trie) (node byte : ℕ) :
    (t.appendNode node byte).length = t.length + 1 := by
  rw [appendNode, List.length_append, List.length_modify]
  rfl

theorem getElem?_appendNode_of_lt (hn : n < t.length) : (t.appendNode node byte)[n]? =
    t[n]?.map fun x =>
      if node = n then { x with children := x.children ++ [(byte, t.length)] } else x := by
  rw [appendNode, List.getElem?_append_left (by rwa [List.length_modify]), List.getElem?_modify]
  rfl

theorem getElem?_appendNode_length : (t.appendNode node byte)[t.length]? = some {} := by
  rw [appendNode, List.getElem?_append_right (by rw [List.length_modify]), List.length_modify,
    Nat.sub_self]
  rfl

theorem getElem?_appendNode_of_gt (hn : t.length < n) : (t.appendNode node byte)[n]? = none :=
  List.getElem?_eq_none (by rw [length_appendNode]; omega)

theorem token_appendNode (t : Trie) (node byte n : ℕ) :
    (t.appendNode node byte).token n = t.token n := by
  unfold token
  obtain hlt | rfl | hgt := lt_trichotomy n t.length
  · rw [getElem?_appendNode_of_lt hlt, List.getElem?_eq_getElem hlt, Option.map_some]
    by_cases he : node = n
    · rw [if_pos he]
      rfl
    · rw [if_neg he]
  · rw [getElem?_appendNode_length, List.getElem?_eq_none le_rfl]
    rfl
  · rw [getElem?_appendNode_of_gt hgt, List.getElem?_eq_none hgt.le]

theorem child_appendNode (hnode : node < t.length) (hnone : t.child node byte = none) (n byte' : ℕ) :
    (t.appendNode node byte).child n byte' =
      if n = node ∧ byte' = byte then some t.length else t.child n byte' := by
  unfold child at hnone ⊢
  obtain hlt | rfl | hgt := lt_trichotomy n t.length
  · rw [getElem?_appendNode_of_lt hlt, List.getElem?_eq_getElem hlt, Option.map_some,
      Option.getD_some, Option.getD_some]
    by_cases he : node = n
    · subst he
      rw [List.getElem?_eq_getElem hlt, Option.getD_some] at hnone
      rw [if_pos rfl, List.lookup_append]
      by_cases hb : byte' = byte
      · subst hb
        rw [if_pos ⟨rfl, rfl⟩, hnone, List.lookup_cons_self]
        rfl
      · rw [if_neg (fun h => hb h.2), List.lookup_cons, beq_false_of_ne hb]
        exact Option.or_none
    · rw [if_neg he, if_neg (fun h => he h.1.symm)]
  · rw [getElem?_appendNode_length, List.getElem?_eq_none le_rfl, if_neg (fun h => by omega)]
    rfl
  · rw [getElem?_appendNode_of_gt hgt, List.getElem?_eq_none hgt.le, if_neg (fun h => by omega)]

theorem grows_appendNode (h : Wf vocabSize t label) (hnode : node < t.length)
    (hnone : t.next node b = none) : Grows t.next (t.appendNode node b.toNat).next t.token
      (t.appendNode node b.toNat).token (· < t.length) where
  keep {n a c} hc := by
    rw [next, child_appendNode hnode hnone, if_neg]
    · exact hc
    · rintro ⟨rfl, ha⟩
      obtain rfl : a = b := UInt8.toNat_inj.mp ha
      rw [hnone] at hc
      cases hc
  new {n a c} hc := by
    rw [next, child_appendNode hnode hnone] at hc
    split_ifs at hc
    · cases hc
      exact .inr (lt_irrefl _)
    · exact .inl hc
  closed hc := ⟨(h.next hc).1, (h.next hc).2.1⟩
  value _ := token_appendNode _ _ _ _
  fresh {n} hn := by
    rw [token_appendNode, token, List.getElem?_eq_none (not_lt.mp hn)]
    rfl

theorem appendNode_cases {x : TrieNode} (hx : (t.appendNode node byte)[n]? = some x) :
    (n = t.length ∧ x = {}) ∨ ∃ y, t[n]? = some y ∧ n < t.length ∧ x.terminal = y.terminal ∧
      (x.children = y.children ∨ (n = node ∧ x.children = y.children ++ [(byte, t.length)])) := by
  obtain hlt | rfl | hgt := lt_trichotomy n t.length
  · rw [getElem?_appendNode_of_lt hlt] at hx
    obtain ⟨y, hy, hx⟩ := Option.map_eq_some_iff.mp hx
    refine .inr ⟨y, hy, hlt, ?_⟩
    by_cases he : node = n
    · rw [if_pos he] at hx
      subst hx
      exact ⟨rfl, .inr ⟨he.symm, rfl⟩⟩
    · rw [if_neg he] at hx
      subst hx
      exact ⟨rfl, .inl rfl⟩
  · rw [getElem?_appendNode_length] at hx
    cases hx
    exact .inl ⟨rfl, rfl⟩
  · rw [getElem?_appendNode_of_gt hgt] at hx
    cases hx

theorem wf_appendNode (h : Wf vocabSize t label) (hnode : node < t.length)
    (hnone : t.next node b = none) : Wf vocabSize (t.appendNode node b.toNat)
      (Function.update label t.length (label node ++ [b])) where
  pos := by rw [length_appendNode]; omega
  root := by rw [Function.update_of_ne h.pos.ne, h.root]
  edge n x hx e he := by
    rw [length_appendNode]
    obtain ⟨rfl, rfl⟩ | ⟨y, hy, hlt, -, hc⟩ := appendNode_cases hx
    · cases he
    have hold : e ∈ y.children → e.2 < t.length + 1 ∧ ∃ b' : UInt8, e.1 = b'.toNat ∧
        Function.update label t.length (label node ++ [b]) e.2 =
          Function.update label t.length (label node ++ [b]) n ++ [b'] := by
      intro he
      obtain ⟨h₁, b', h₂, h₃⟩ := h.edge n y hy e he
      rw [Function.update_of_ne h₁.ne, Function.update_of_ne hlt.ne]
      exact ⟨by omega, b', h₂, h₃⟩
    obtain hc | ⟨rfl, hc⟩ := hc
    · exact hold (hc ▸ he)
    · rw [hc] at he
      obtain he | he := List.mem_append.mp he
      · exact hold he
      · obtain rfl := List.mem_singleton.mp he
        rw [Function.update_self, Function.update_of_ne hlt.ne]
        exact ⟨Nat.lt_succ_self _, b, rfl, rfl⟩
  nodup x hx := by
    obtain ⟨n, hx⟩ := List.mem_iff_getElem?.mp hx
    obtain ⟨-, rfl⟩ | ⟨y, hy, hlt, -, hc⟩ := appendNode_cases hx
    · exact List.nodup_nil
    have hd := h.nodup y (List.mem_of_getElem? hy)
    obtain hc | ⟨rfl, hc⟩ := hc
    · rw [hc]
      exact hd
    · rw [hc, List.map_append, List.nodup_append]
      refine ⟨hd, List.nodup_singleton _, ?_⟩
      rintro a ha _ hb rfl
      obtain ⟨⟨_, c⟩, he, rfl⟩ := List.mem_map.mp ha
      obtain rfl := List.mem_singleton.mp hb
      rw [Trie.next, child, hy, Option.getD_some, lookup_of_mem hd he] at hnone
      cases hnone
  terminal x hx := by
    obtain ⟨n, hx⟩ := List.mem_iff_getElem?.mp hx
    obtain ⟨-, rfl⟩ | ⟨y, hy, -, ht, -⟩ := appendNode_cases hx
    · exact .inl rfl
    · rw [ht]
      exact h.terminal y (List.mem_of_getElem? hy)

/-! ## Insertion -/

/-- **The path of a key**: all its nodes are there, and no key has changed. -/
theorem path_spec (h : Wf vocabSize t label) (hnode : node < t.length) (bytes : Bytes) :
    ∃ label', Wf vocabSize (t.path node bytes).1 label' ∧
      (∀ {n b c}, t.next n b = some c → (t.path node bytes).1.next n b = some c) ∧
      walk (t.path node bytes).1.next node bytes = some (t.path node bytes).2 ∧
      (t.path node bytes).2 < (t.path node bytes).1.length ∧
      ∀ w, (t.path node bytes).1.find w = t.find w := by
  induction bytes generalizing t label node with
  | nil => exact ⟨label, h, fun hc => hc, rfl, hnode, fun _ => rfl⟩
  | cons b bytes ih =>
    unfold path
    cases hc : t.child node b.toNat with
    | some c =>
      obtain ⟨label', h₁, h₂, h₃, h₄⟩ := ih h (h.next hc).2.1
      refine ⟨label', h₁, h₂, ?_, h₄⟩
      show (Trie.next _ node b).bind _ = _
      rw [h₂ hc]
      exact h₃
    | none =>
      have hg := grows_appendNode h hnode hc
      obtain ⟨label', h₁, h₂, h₃, h₄, h₅⟩ := ih (wf_appendNode h hnode hc)
        (show t.length < (t.appendNode node b.toNat).length by rw [length_appendNode]; omega)
      refine ⟨label', h₁, fun hc => h₂ (hg.keep hc), ?_, h₄, fun w => ?_⟩
      · have hnew : (t.appendNode node b.toNat).next node b = some t.length := by
          rw [Trie.next, child_appendNode hnode hc, if_pos ⟨rfl, rfl⟩]
        show (Trie.next _ node b).bind _ = _
        rw [h₂ hnew]
        exact h₃
      · rw [h₅, Trie.find, hg.find_eq h.pos]
        rfl

/-- `node.terminal = id`. -/
abbrev setTerminal (t : Trie) (m id : ℕ) : Trie := t.modify m fun n => { n with terminal := id }

theorem setTerminal_cases {m id : ℕ} {x : TrieNode} (hx : (t.setTerminal m id)[n]? = some x) :
    ∃ y, t[n]? = some y ∧ x.children = y.children ∧
      ((n = m ∧ x.terminal = id) ∨ (n ≠ m ∧ x.terminal = y.terminal)) := by
  rw [List.getElem?_modify] at hx
  obtain ⟨y, hy, rfl⟩ := Option.map_eq_some_iff.mp hx
  refine ⟨y, hy, ?_⟩
  by_cases hm : m = n
  · rw [if_pos hm]
    exact ⟨rfl, .inl ⟨hm.symm, rfl⟩⟩
  · rw [if_neg hm]
    exact ⟨rfl, .inr ⟨Ne.symm hm, rfl⟩⟩

theorem setTerminal_eq_none_iff {m id : ℕ} : (t.setTerminal m id)[n]? = none ↔ t[n]? = none := by
  rw [List.getElem?_modify]
  exact Option.map_eq_none_iff

theorem next_setTerminal (t : Trie) (m id : ℕ) : (t.setTerminal m id).next = t.next := by
  funext n b
  unfold Trie.next child
  cases hx : (t.setTerminal m id)[n]? with
  | none => rw [setTerminal_eq_none_iff.mp hx]
  | some x =>
    obtain ⟨y, hy, hc, -⟩ := setTerminal_cases hx
    rw [hy, Option.getD_some, Option.getD_some, hc]

theorem token_setTerminal {m id : ℕ} (hm : m < t.length) (hid : id ≠ slotEmpty) (k : ℕ) :
    (t.setTerminal m id).token k = if k = m then some id else t.token k := by
  unfold token
  cases hx : (t.setTerminal m id)[k]? with
  | none =>
    have hk := setTerminal_eq_none_iff.mp hx
    have := List.getElem?_eq_none_iff.mp hk
    rw [hk, if_neg (by omega : ¬ k = m)]
  | some x =>
    obtain ⟨y, hy, -, ⟨hk, ht⟩ | ⟨hk, ht⟩⟩ := setTerminal_cases hx
    · rw [if_pos hk, Option.getD_some, ht, if_neg hid]
    · rw [if_neg hk, hy, Option.getD_some, Option.getD_some, ht]

theorem wf_setTerminal (h : Wf vocabSize t label) {m id : ℕ} (hid : id < vocabSize) :
    Wf vocabSize (t.setTerminal m id) label where
  pos := by
    rw [List.length_modify]
    exact h.pos
  root := h.root
  edge n x hx e he := by
    obtain ⟨y, hy, hc, -⟩ := setTerminal_cases hx
    rw [List.length_modify]
    exact h.edge n y hy e (hc ▸ he)
  nodup x hx := by
    obtain ⟨n, hx⟩ := List.mem_iff_getElem?.mp hx
    obtain ⟨y, hy, hc, -⟩ := setTerminal_cases hx
    rw [hc]
    exact h.nodup y (List.mem_of_getElem? hy)
  terminal x hx := by
    obtain ⟨n, hx⟩ := List.mem_iff_getElem?.mp hx
    obtain ⟨y, hy, -, ⟨-, ht⟩ | ⟨-, ht⟩⟩ := setTerminal_cases hx
    · rw [ht]
      exact .inr hid
    · rw [ht]
      exact h.terminal y (List.mem_of_getElem? hy)

/-- **`insert` adds one key.** -/
theorem insert_spec (h : Wf vocabSize t label) (hv : vocabSize ≤ slotEmpty) {bytes : Bytes} {id : ℕ}
    (hne : bytes ≠ []) (hid : id < vocabSize) (hnew : t.find bytes = none) :
    ∃ t' label', t.insert bytes id = .ok t' ∧ Wf vocabSize t' label' ∧
      ∀ w, t'.find w = if w = bytes then some id else t.find w := by
  obtain ⟨label', h₁, -, hw, hlt, hfind⟩ := path_spec h h.pos bytes
  have htoken : (t.path 0 bytes).1.token (t.path 0 bytes).2 = none := by
    rw [← hnew, ← hfind, Trie.find, PrefixTree.find, hw]
    rfl
  have hempty : ¬ ((t.path 0 bytes).1[(t.path 0 bytes).2]?.getD {}).terminal ≠ slotEmpty := by
    intro hterm
    rw [token, if_neg hterm] at htoken
    cases htoken
  refine ⟨(t.path 0 bytes).1.setTerminal (t.path 0 bytes).2 id, label', ?_,
    wf_setTerminal h₁ hid, fun w => ?_⟩
  · rw [insert, if_neg hne]
    exact if_neg hempty
  · have htok := token_setTerminal hlt (hid.trans_le hv).ne
    rw [Trie.find, next_setTerminal, find_update (fun hc => (h₁.next hc).2.2) hw
      (fun k hk => by rw [htok, if_neg hk]), htok, if_pos rfl, ← hfind]
    rfl

/-- Inserts keys one after the other. -/
def insertAll : List (Bytes × ℕ) → Trie → Except WriteError Trie
  | [], t => .ok t
  | (bytes, id) :: keys, t => do
    let t ← t.insert bytes id
    insertAll keys t

theorem insertAll_spec (h : Wf vocabSize t label) (hv : vocabSize ≤ slotEmpty)
    {keys : List (Bytes × ℕ)} (hd : (keys.map Prod.fst).Nodup)
    (hkeys : ∀ p ∈ keys, p.1 ≠ [] ∧ p.2 < vocabSize ∧ t.find p.1 = none) :
    ∃ t' label', insertAll keys t = .ok t' ∧ Wf vocabSize t' label' ∧
      ∀ w, t'.find w = (keys.lookup w).or (t.find w) := by
  induction keys generalizing t label with
  | nil => exact ⟨t, label, rfl, h, fun w => Option.none_or.symm⟩
  | cons p keys ih =>
    obtain ⟨bytes, id⟩ := p
    obtain ⟨⟨hne, hid, hnew⟩, hrest⟩ := List.forall_mem_cons.mp hkeys
    obtain ⟨hnot, hd⟩ := List.nodup_cons.mp hd
    obtain ⟨t₁, label₁, hi, h₁, hfind₁⟩ := insert_spec h hv hne hid hnew
    obtain ⟨t₂, label₂, hi₂, h₂, hfind₂⟩ := ih h₁ hd fun p hp => by
      obtain ⟨hpne, hpid, hpnew⟩ := hrest p hp
      refine ⟨hpne, hpid, ?_⟩
      rw [hfind₁, if_neg, hpnew]
      rintro he
      exact hnot (he ▸ List.mem_map_of_mem hp)
    refine ⟨t₂, label₂, ?_, h₂, fun w => ?_⟩
    · rw [insertAll, hi]
      exact hi₂
    · rw [hfind₂, hfind₁, List.lookup_cons]
      by_cases hw : w = bytes
      · subst hw
        have hl : keys.lookup w = none := by
          refine Option.eq_none_iff_forall_ne_some.mpr fun b hb => hnot ?_
          exact List.mem_map.mpr ⟨(w, b), mem_of_lookup hb, rfl⟩
        rw [hl, if_pos rfl, beq_self_eq_true]
        rfl
      · rw [if_neg hw, beq_false_of_ne hw]

end

/-! ## The arrays -/

/-- The edges of a node in the file. -/
def nodeEdges (n : TrieNode) : List SeTrieEdge := (sortedChildren n).map fun c => ⟨c.1, c.2⟩

/-- What the loader sees of `pack`. -/
def packed (t : Trie) : SeTrie := ⟨(records t []).1, (records t []).2⟩

theorem length_nodeEdges (n : TrieNode) : (nodeEdges n).length = n.children.length := by
  rw [nodeEdges, List.length_map, sortedChildren, List.length_insertionSort]

theorem records_edges (t : Trie) (edges : List SeTrieEdge) :
    (records t edges).2 = edges ++ t.flatMap nodeEdges := by
  induction t generalizing edges with
  | nil => exact (List.append_nil _).symm
  | cons n t ih =>
    rw [List.flatMap_cons, ← List.append_assoc]
    exact ih _

theorem edges_packed (t : Trie) : (packed t).edges = t.flatMap nodeEdges := records_edges t []

theorem records_nodes (t : Trie) (edges : List SeTrieEdge) (i : ℕ) :
    (records t edges).1[i]? = t[i]?.map fun n =>
      ⟨edges.length + ((t.take i).flatMap nodeEdges).length, n.children.length, n.terminal, 0⟩ := by
  induction t generalizing edges i with
  | nil => rfl
  | cons n t ih =>
    cases i with
    | zero => rfl
    | succ i =>
      refine (ih _ i).trans ?_
      rw [List.getElem?_cons_succ, List.take_succ_cons, List.flatMap_cons]
      simp only [List.length_append, Nat.add_assoc]
      rfl

theorem length_records (t : Trie) (edges : List SeTrieEdge) :
    (records t edges).1.length = t.length := by
  induction t generalizing edges with
  | nil => rfl
  | cons n t ih => exact congrArg Nat.succ (ih _)

theorem length_packed (t : Trie) : (packed t).nodes.length = t.length := length_records t []

section

variable {vocabSize : ℕ} {t : Trie} {label : ℕ → Bytes} {i : ℕ} {n : TrieNode}

theorem packed_getElem? (hn : t[i]? = some n) : (packed t).nodes[i]? =
    some ⟨((t.take i).flatMap nodeEdges).length, n.children.length, n.terminal, 0⟩ := by
  rw [packed, records_nodes, hn, Option.map_some, List.length_nil, Nat.zero_add]

theorem exists_of_packed {r : SeTrieNode} (hr : (packed t).nodes[i]? = some r) :
    ∃ n, t[i]? = some n ∧
      r = ⟨((t.take i).flatMap nodeEdges).length, n.children.length, n.terminal, 0⟩ := by
  rw [packed, records_nodes] at hr
  obtain ⟨n, hn, rfl⟩ := Option.map_eq_some_iff.mp hr
  exact ⟨n, hn, by rw [List.length_nil, Nat.zero_add]⟩

theorem edgesOf_packed (hn : t[i]? = some n) (id : ℕ) : (packed t).edgesOf
    ⟨((t.take i).flatMap nodeEdges).length, n.children.length, id, 0⟩ = nodeEdges n := by
  obtain ⟨hi, rfl⟩ := List.getElem?_eq_some_iff.mp hn
  have hsplit : t.flatMap nodeEdges = (t.take i).flatMap nodeEdges ++
      (nodeEdges t[i] ++ (t.drop (i + 1)).flatMap nodeEdges) := by
    rw [← List.flatMap_cons, ← List.drop_eq_getElem_cons hi, ← List.flatMap_append,
      List.take_append_drop]
  rw [SeTrie.edgesOf, edges_packed, hsplit, List.drop_left,
    ← length_nodeEdges, List.take_left]

theorem range_packed (hn : t[i]? = some n) :
    ((t.take i).flatMap nodeEdges).length + n.children.length ≤ (packed t).edges.length := by
  obtain ⟨hi, rfl⟩ := List.getElem?_eq_some_iff.mp hn
  rw [edges_packed, ← length_nodeEdges, ← List.length_append]
  conv_rhs => rw [← List.take_append_drop i t, List.drop_eq_getElem_cons hi, List.flatMap_append,
    List.flatMap_cons, ← List.append_assoc, List.length_append]
  exact Nat.le_add_right _ _

instance : IsTrans (ℕ × ℕ) childLe := ⟨fun a b c h₁ h₂ => by unfold childLe at *; omega⟩

instance : Std.Total (α := ℕ × ℕ) childLe := ⟨fun a b => by unfold childLe; omega⟩

theorem nodeEdges_sorted (hd : (n.children.map Prod.fst).Nodup) :
    (nodeEdges n).Pairwise fun a b => a.byte < b.byte := by
  have hp : (sortedChildren n).Perm n.children := List.perm_insertionSort childLe n.children
  have hs : (sortedChildren n).Pairwise childLe := List.pairwise_insertionSort childLe n.children
  have hd' : (sortedChildren n).Pairwise fun a b => a.1 ≠ b.1 :=
    List.pairwise_map.mp ((hp.map Prod.fst).nodup_iff.mpr hd)
  refine List.pairwise_map.mpr ((hs.and hd').imp fun h => ?_)
  obtain ⟨h₁ | h₁, h₂⟩ := h
  · exact h₁
  · exact absurd h₁.1 h₂

theorem mem_nodeEdges {e : SeTrieEdge} (he : e ∈ nodeEdges n) : (e.byte, e.child) ∈ n.children := by
  obtain ⟨c, hc, rfl⟩ := List.mem_map.mp he
  exact (List.mem_insertionSort childLe).mp hc

/-- **The arrays pass the loader's checks.** -/
theorem packed_ok (h : Wf vocabSize t label) : TrieOk vocabSize (packed t) where
  token r hr := by
    obtain ⟨i, hr⟩ := List.mem_iff_getElem?.mp hr
    obtain ⟨n, hn, rfl⟩ := exists_of_packed hr
    exact h.terminal n (List.mem_of_getElem? hn)
  range r hr := by
    obtain ⟨i, hr⟩ := List.mem_iff_getElem?.mp hr
    obtain ⟨n, hn, rfl⟩ := exists_of_packed hr
    exact range_packed hn
  edges r hr := by
    obtain ⟨i, hr⟩ := List.mem_iff_getElem?.mp hr
    obtain ⟨n, hn, rfl⟩ := exists_of_packed hr
    rw [edgesOf_packed hn, length_packed]
    refine ⟨fun e he => ?_, fun e he => ?_, nodeEdges_sorted (h.nodup n (List.mem_of_getElem? hn))⟩
    · obtain ⟨-, b, hb, -⟩ := h.edge i n hn _ (mem_nodeEdges he)
      have := b.toNat_lt
      omega
    · exact (h.edge i n hn _ (mem_nodeEdges he)).1

theorem child?_packed (h : Wf vocabSize t label) (hlen : t.length ≤ slotEmpty) (i : ℕ) (b : UInt8) :
    (packed t).child? i b.toNat = t.next i b := by
  unfold SeTrie.child? Trie.next child
  cases hn : t[i]? with
  | none =>
    rw [List.getElem?_eq_none]
    · rfl
    · rw [length_packed]
      exact List.getElem?_eq_none_iff.mp hn
  | some n =>
    have hd := h.nodup n (List.mem_of_getElem? hn)
    have hfind : (packed t).edge? ⟨((t.take i).flatMap nodeEdges).length, n.children.length,
        n.terminal, 0⟩ b.toNat =
        (n.children.lookup b.toNat).map fun c => ⟨b.toNat, c⟩ := by
      have hp : (sortedChildren n).Perm n.children := List.perm_insertionSort childLe n.children
      rw [SeTrie.edge?, edgesOf_packed hn, nodeEdges, List.find?_map]
      refine (congrArg _ (find?_of_perm hd hp b.toNat)).trans ?_
      rw [Option.map_map]
      rfl
    rw [packed_getElem? hn, Option.bind_eq_bind, Option.bind_some, hfind, Option.getD_some]
    cases hc : n.children.lookup b.toNat with
    | none => rfl
    | some c =>
      have := (h.edge i n hn _ (mem_of_lookup hc)).1
      exact if_neg (by simp only; omega)

theorem token?_packed (t : Trie) (i : ℕ) : (packed t).token? i = t.token i := by
  unfold SeTrie.token? token
  cases hn : t[i]? with
  | none =>
    rw [List.getElem?_eq_none]
    · rfl
    · rw [length_packed]
      exact List.getElem?_eq_none_iff.mp hn
  | some n =>
    rw [packed_getElem? hn]
    rfl

theorem longest_eq_prefixTree (s : SeTrie) (i : ℕ) (input : Bytes) : s.longest i input =
    PrefixTree.longest (fun n b => s.child? n b.toNat) s.token? i input := by
  induction input generalizing i with
  | nil => rfl
  | cons b input ih =>
    rw [SeTrie.longest, PrefixTree.longest]
    cases s.child? i b.toNat with
    | none => rfl
    | some c =>
      simp only [ih]
      cases PrefixTree.longest (fun n b => s.child? n b.toNat) s.token? c input <;> rfl

theorem longest_packed (h : Wf vocabSize t label) (hlen : t.length ≤ slotEmpty) (input : Bytes) :
    (packed t).longest 0 input = longestKey t.find input := by
  rw [longest_eq_prefixTree, longest_eq,
    show (fun n (b : UInt8) => (packed t).child? n b.toNat) = t.next from
      funext fun n => funext fun b => child?_packed h hlen n b,
    show (packed t).token? = t.token from funext (token?_packed t)]
  rfl

/-! ## The section -/

theorem length_packNode (n : SeTrieNode) : (packNode n).length = 16 := rfl

theorem length_packEdge (e : SeTrieEdge) : (packEdge e).length = 8 := rfl

theorem read_packNode {base : Bytes} {o : ℕ} {r : SeTrieNode} (h : Holds base o (packNode r))
    (h₁ : r.edgeStart < 2 ^ 32) (h₂ : r.edgeCount < 2 ^ 32) (h₃ : r.tokenId < 2 ^ 32)
    (h₄ : r.reserved < 2 ^ 32) : SeTrieNode.read base o = r := by
  obtain ⟨h, e₄⟩ := h.append
  obtain ⟨h, e₃⟩ := h.append
  obtain ⟨e₁, e₂⟩ := h.append
  rw [SeTrieNode.read, e₁.readU32 h₁]
  cases r
  congr 1
  · exact e₂.readU32 h₂
  · exact e₃.readU32 h₃
  · exact e₄.readU32 h₄

theorem read_packEdge {base : Bytes} {o : ℕ} {e : SeTrieEdge} (h : Holds base o (packEdge e))
    (h₁ : e.byte < 2 ^ 32) (h₂ : e.child < 2 ^ 32) : SeTrieEdge.read base o = e := by
  obtain ⟨e₁, e₂⟩ := h.append
  rw [SeTrieEdge.read, e₁.readU32 h₁]
  cases e
  congr 1
  exact e₂.readU32 h₂

theorem length_pack (t : Trie) :
    t.pack.length = 16 + t.length * 16 + (packed t).edges.length * 8 := by
  rw [pack, List.length_append, List.length_append, length_flatMap_const length_packNode,
    length_flatMap_const length_packEdge, length_records, packed]
  simp only [List.length_append, length_le32]
  ring

/-- **The packed section is accepted and read back.** -/
theorem parseTrie_pack (h : Wf vocabSize t label) (hv : vocabSize ≤ slotEmpty)
    (hnodes : t.length < 2 ^ 32) (hedges : (packed t).edges.length < 2 ^ 32) {base : Bytes}
    {sec : Section} (hsize : sec.size = t.pack.length) (hbase : Holds base sec.off t.pack)
    (name : String) : parseTrie base sec vocabSize name = .ok (packed t) := by
  have hok := packed_ok h
  obtain ⟨hrest, heEdges⟩ := hbase.append
  obtain ⟨hrest, heNodes⟩ := hrest.append
  obtain ⟨hrest, -⟩ := hrest.append
  obtain ⟨hrest, -⟩ := hrest.append
  obtain ⟨hn, he⟩ := hrest.append
  have e₁ : readU32 base sec.off = t.length := by
    rw [length_records] at hn
    exact hn.readU32 hnodes
  have e₂ : readU32 base (sec.off + 4) = (packed t).edges.length := he.readU32 hedges
  have e₃ : recordsAt 16 SeTrieNode.read base (sec.off + 16) t.length = (packed t).nodes := by
    rw [← length_packed]
    refine heNodes.recordsAt length_packNode fun r hr o ho => ?_
    obtain ⟨i, hr'⟩ := List.mem_iff_getElem?.mp hr
    obtain ⟨n, hn, rfl⟩ := exists_of_packed hr'
    have hrange := hok.range _ hr
    have hterm : n.terminal < 2 ^ 32 := by
      have hempty : slotEmpty < 2 ^ 32 := by decide
      obtain he | hlt := h.terminal n (List.mem_of_getElem? hn)
      · rwa [he]
      · omega
    exact read_packNode ho (by omega) (by omega) hterm (by norm_num)
  have e₄ : recordsAt 8 SeTrieEdge.read base (sec.off + 16 + t.length * 16)
      (packed t).edges.length = (packed t).edges := by
    rw [List.length_append, length_flatMap_const length_packNode, length_records,
      Nat.mul_comm 16] at heEdges
    rw [Nat.add_assoc]
    refine Holds.recordsAt length_packEdge (fun e he o ho => ?_) heEdges
    rw [edges_packed] at he
    obtain ⟨n, hn, he⟩ := List.mem_flatMap.mp he
    obtain ⟨i, hn⟩ := List.mem_iff_getElem?.mp hn
    obtain ⟨hlt, b, hb, -⟩ := h.edge i n hn _ (mem_nodeEdges he)
    have := b.toNat_lt
    exact read_packEdge ho (by omega) (by omega)
  rw [parseTrie_eq_ok_iff, e₁, e₂, e₃, e₄]
  refine ⟨by rw [hsize, length_pack], h.pos.ne', hok, rfl⟩

/-- A section that is accepted has room for the counts. -/
theorem fits_of_parseTrie {base : Bytes} {sec : Section} {name : String} {s : SeTrie}
    (hsize : sec.size = t.pack.length) (hbase : Holds base sec.off t.pack)
    (h : parseTrie base sec vocabSize name = .ok s) :
    t.length < 2 ^ 32 ∧ (packed t).edges.length < 2 ^ 32 := by
  obtain ⟨hrest, -⟩ := hbase.append
  obtain ⟨hrest, -⟩ := hrest.append
  obtain ⟨hrest, -⟩ := hrest.append
  obtain ⟨hrest, -⟩ := hrest.append
  obtain ⟨hn, he⟩ := hrest.append
  have e₁ : readU32 base sec.off = t.length % 2 ^ 32 := by
    rw [length_records] at hn
    exact hn.readU32_mod
  have e₂ : readU32 base (sec.off + 4) = (packed t).edges.length % 2 ^ 32 := he.readU32_mod
  have hs := (parseTrie_eq_ok_iff.mp h).1
  rw [hsize, length_pack, e₁, e₂] at hs
  omega

end

theorem find_empty (w : Bytes) : empty.find w = none := by
  cases w <;> rfl

end Trie

/-- **Build, pack, parse and match.** Keys inserted in any order into an empty trie make a section
that the loader accepts, and its match is the longest nonempty prefix of the input that is a key. -/
theorem packed_trie_longest_match (keys : List (Bytes × ℕ)) (vocabSize : ℕ)
    (hv : vocabSize < 2 ^ 32) (hd : (keys.map Prod.fst).Nodup)
    (hkeys : ∀ p ∈ keys, p.1 ≠ [] ∧ p.2 < vocabSize) :
    ∃ t, Trie.insertAll keys Trie.empty = .ok t ∧
      (t.length < 2 ^ 32 → (Trie.packed t).edges.length < 2 ^ 32 →
        ∀ (base : Bytes) (sec : Section) (name : String), sec.size = t.pack.length →
          Holds base sec.off t.pack → ∃ s, parseTrie base sec vocabSize name = .ok s ∧
            ∀ input, seTrieLongestMatch? s input = some (longestKey (fun key => keys.lookup key) input)) := by
  have hv' : vocabSize ≤ slotEmpty := Nat.le_pred_of_lt hv
  obtain ⟨t, label, ht, hwf, hfind⟩ := Trie.insertAll_spec (Trie.wf_empty vocabSize) hv' hd
    fun p hp => ⟨(hkeys p hp).1, (hkeys p hp).2, Trie.find_empty p.1⟩
  refine ⟨t, ht, fun hnodes hedges base sec name hsize hbase =>
    ⟨Trie.packed t, Trie.parseTrie_pack hwf hv' hnodes hedges hsize hbase name, fun input => ?_⟩⟩
  have hlookup : t.find = fun key => keys.lookup key := by
    funext w
    rw [hfind, Trie.find_empty, Option.or_none]
  rw [seTrieLongestMatch?_eq (Trie.packed_ok hwf) hv' (by rw [Trie.length_packed]; exact hwf.pos),
    Trie.longest_packed hwf (Nat.le_pred_of_lt hnodes), hlookup]

/-- Keys `a`, `abc` and `b`: in `abd` the match falls back to `a`. -/
theorem packed_trie_longest_match_sample :
    ∃ t, Trie.insertAll [([0x61, 0x62, 0x63], 2), ([0x61], 0), ([0x62], 1)] Trie.empty = .ok t ∧
      ∃ s, parseTrie t.pack ⟨0, t.pack.length, "root"⟩ 3 "root" = .ok s ∧
        seTrieLongestMatch? s [0x61, 0x62, 0x64] = some (some (0, 1)) ∧
        seTrieLongestMatch? s [0x63] = some none := by
  obtain ⟨t, ht, h⟩ := packed_trie_longest_match
    [([0x61, 0x62, 0x63], 2), ([0x61], 0), ([0x62], 1)] 3 (by norm_num) (by decide) (by decide)
  have ht' : Trie.insertAll [([0x61, 0x62, 0x63], 2), ([0x61], 0), ([0x62], 1)] Trie.empty =
    .ok [⟨slotEmpty, [(0x61, 1), (0x62, 4)]⟩, ⟨0, [(0x62, 2)]⟩, ⟨slotEmpty, [(0x63, 3)]⟩, ⟨2, []⟩,
      ⟨1, []⟩] := by decide
  obtain rfl := Except.ok.inj (ht.symm.trans ht')
  obtain ⟨s, hs, hmatch⟩ := h (by decide) (by decide) _ ⟨0, _, "root"⟩ "root" rfl (holds_self _)
  exact ⟨_, ht, s, hs, (hmatch _).trans (by decide), (hmatch _).trans (by decide)⟩

end StaticEmbeddings
