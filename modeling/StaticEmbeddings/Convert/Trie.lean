import StaticEmbeddings.Convert.HashTable

/-!
# The converter's tries

`lib/static_embeddings/format/trie.rb`.

* `Trie.insert`, `Trie.pack`.
* `WordPieceTrie.build`: the root and the continuation trie of a vocabulary.
-/

namespace StaticEmbeddings

open LittleEndian

/-- `Trie::Node`: the terminal id and the children in the order of their insertion. -/
structure TrieNode where
  terminal : ℕ := slotEmpty
  children : List (ℕ × ℕ) := []
  deriving DecidableEq, Repr

/-- `@nodes` of a `Trie`. -/
abbrev Trie : Type := List TrieNode

namespace Trie

/-- `initialize`. -/
def empty : Trie := [({} : TrieNode)]

/-- `node.children[byte]`. -/
def child (t : Trie) (node byte : ℕ) : Option ℕ := (t[node]?.getD {}).children.lookup byte

/-- `append_node` and its entry in the children of the parent. -/
def appendNode (t : Trie) (node byte : ℕ) : Trie :=
  t.modify node (fun n => { n with children := n.children ++ [(byte, t.length)] }) ++ [({} : TrieNode)]

/-- The loop of `insert`: the trie with all nodes of the path, and its last node. -/
def path (t : Trie) (node : ℕ) : Bytes → Trie × ℕ
  | [] => (t, node)
  | b :: bytes =>
    match t.child node b.toNat with
    | some next => path t next bytes
    | none => path (t.appendNode node b.toNat) t.length bytes

/-- `insert`. -/
def insert (t : Trie) (bytes : Bytes) (id : ℕ) : Except WriteError Trie :=
  if bytes = [] then .ok t
  else
    let (t, node) := t.path 0 bytes
    if (t[node]?.getD {}).terminal ≠ slotEmpty then .error (.duplicateTrieKey id)
    else .ok (t.modify node fun n => { n with terminal := id })

/-- The order of `[byte, child]` pairs. -/
def childLe (a b : ℕ × ℕ) : Prop := a.1 < b.1 ∨ (a.1 = b.1 ∧ a.2 ≤ b.2)

instance : DecidableRel childLe := fun _ _ => by unfold childLe; infer_instance

/-- `node.children.sort`. -/
def sortedChildren (n : TrieNode) : List (ℕ × ℕ) := n.children.insertionSort childLe

/-- The records of the nodes and the edges, with the edges before them. -/
def records : Trie → List SeTrieEdge → List SeTrieNode × List SeTrieEdge
  | [], edges => ([], edges)
  | n :: nodes, edges =>
    let r := records nodes (edges ++ (sortedChildren n).map fun c => ⟨c.1, c.2⟩)
    (⟨edges.length, n.children.length, n.terminal, 0⟩ :: r.1, r.2)

/-- `pack("V4")` of a node. -/
def packNode (n : SeTrieNode) : Bytes :=
  le32 n.edgeStart ++ le32 n.edgeCount ++ le32 n.tokenId ++ le32 n.reserved

/-- `pack("V2")` of an edge. -/
def packEdge (e : SeTrieEdge) : Bytes := le32 e.byte ++ le32 e.child

/-- `pack`. -/
def pack (t : Trie) : Bytes :=
  let r := records t []
  le32 r.1.length ++ le32 r.2.length ++ le32 0 ++ le32 0 ++ r.1.flatMap packNode ++
    r.2.flatMap packEdge

end Trie

namespace WordPieceTrie

/-- `continuation?`; the second argument is the prefix. -/
def isContinuation (bytes subword : Bytes) : Bool :=
  !subword.isEmpty && subword.isPrefixOf bytes && bytes.length > subword.length

/-- The loop of `build`, from token `id` on. -/
def buildLoop (subword : Bytes) : ℕ → List Bytes → Trie × Trie → Except WriteError (Trie × Trie)
  | _, [], ts => .ok ts
  | id, bytes :: rest, (root, continuation) =>
    if isContinuation bytes subword then do
      let continuation ← continuation.insert (bytes.drop subword.length) id
      buildLoop subword (id + 1) rest (root, continuation)
    else do
      let root ← root.insert bytes id
      buildLoop subword (id + 1) rest (root, continuation)

/-- `build`, before `pack`. -/
def build (tokens : List Bytes) (subword : Bytes) : Except WriteError (Trie × Trie) :=
  buildLoop subword 0 tokens (Trie.empty, Trie.empty)

end WordPieceTrie

end StaticEmbeddings
