import StaticEmbeddings.Format.Model

/-!
# The converter's hash table

`lib/static_embeddings/format/hash_table.rb`.

* `WriteError`: what the writer raises.
* `sizeFor`: `(tokens.length / LOAD_FACTOR).ceil + 1` in binary64 arithmetic.
* `HashTable.insert`, `HashTable.build`.
-/

namespace StaticEmbeddings

open LittleEndian

/-- The exceptions raised while a model is written. -/
inductive WriteError
  /-- `ArgumentError`, `"duplicate token in vocabulary: …"`. -/
  | duplicateToken (token : Bytes)
  /-- `ArgumentError`, `"duplicate trie key for token id …"`. -/
  | duplicateTrieKey (id : ℕ)
  /-- `ArgumentError`, `"u32 value out of range: …"`. -/
  | u32OutOfRange (value : ℕ)
  /-- `ArgumentError`, `"u64 value out of range: …"`. -/
  | u64OutOfRange (value : ℕ)
  /-- `ArgumentError`, `"subword prefix too long"`. -/
  | prefixTooLong
  /-- `ConversionError`. -/
  | conversion (message : String)
  /-- `InvalidOptionError`. -/
  | invalidOption (message : String)
  /-- `ArgumentError` of the native code. -/
  | argument (message : String)
  /-- `TypeError` or `NoMethodError`: an array has no such entry, a string no such slice. -/
  | nilValue
  /-- The probe loop of `insert` has seen every slot. -/
  | tableFull
  deriving DecidableEq, Repr

/-! ## Sizes -/

/-- `p / q` rounded to an integer, ties to even. -/
def roundHalfEven (p q : ℕ) : ℕ :=
  if 2 * (p % q) < q then p / q
  else if 2 * (p % q) > q then p / q + 1
  else p / q + p / q % 2

/-- `Integer#to_f` of a natural number, which is an integer again. -/
def toF (n : ℕ) : ℕ :=
  if n.size ≤ 53 then n else roundHalfEven n (2 ^ (n.size - 53)) * 2 ^ (n.size - 53)

/-- `Float#ceil` of the binary64 quotient `p / q`, for `q ≤ p`. -/
def quotientCeil (p q : ℕ) : ℕ :=
  let bits := (p / q).size
  if bits ≤ 53 then
    let m := roundHalfEven (p * 2 ^ (53 - bits)) q
    (m + 2 ^ (53 - bits) - 1) / 2 ^ (53 - bits)
  else roundHalfEven p (q * 2 ^ (bits - 53)) * 2 ^ (bits - 53)

/-- `LOAD_FACTOR` times `2 ^ 53`, for the binary64 number `0.70`. -/
abbrev loadFactor : ℕ := 6305039478318694

/-- `(tokens.length / LOAD_FACTOR).ceil + 1`. -/
def sizeFor (tokenCount : ℕ) : ℕ :=
  if tokenCount = 0 then 1 else quotientCeil (toF tokenCount * 2 ^ 53) loadFactor + 1

/-- `next_power_of_two`. -/
def nextPowerOfTwo (value : ℕ) : ℕ := 1 <<< (value - 1).size

/-- `HASH_SEED`. -/
abbrev hashSeed : ℕ := 2166136261

namespace HashTable

/-- A slot of the Ruby array: hash, offset, length and id; its numbers are not bounded. -/
abbrev Slots : Type := List (Option SeVocabSlot)

/-- `hash_bytes`. -/
def hashBytes (bytes : Bytes) : ℕ :=
  bytes.foldl (fun hash byte => ((hash ^^^ byte.toNat) * 16777619) &&& uint32Max) hashSeed

/-- `insert`, from a position on: the slots and the number of probes. -/
def insert (tokens : List Bytes) (size : ℕ) (bytes : Bytes) (hash offset id : ℕ) (slots : Slots) :
    ℕ → ℕ → ℕ → Except WriteError (Slots × ℕ)
  | 0, _, _ => .error .tableFull
  | fuel + 1, position, probe =>
    match slots[position]?.join with
    | none => .ok (slots.set position (some ⟨hash, offset, bytes.length, id⟩), probe)
    | some slot =>
      if slot.hash = hash ∧ slot.strLen = bytes.length ∧ tokens[slot.tokenId]? = some bytes then
        .error (.duplicateToken bytes)
      else insert tokens size bytes hash offset id slots fuel ((position + 1) &&& (size - 1))
        (probe + 1)

/-- What `build` carries from token to token. -/
structure State where
  slots : Slots
  strings : Bytes
  maxProbe : ℕ
  deriving DecidableEq, Repr

/-- The loop of `build`, from token `id` on. -/
def buildLoop (tokens : List Bytes) (size : ℕ) : ℕ → List Bytes → State → Except WriteError State
  | _, [], st => .ok st
  | id, bytes :: rest, st => do
    let hash := hashBytes bytes
    let (slots, probe) ← insert tokens size bytes hash st.strings.length id st.slots size
      (hash &&& (size - 1)) 1
    buildLoop tokens size (id + 1) rest
      ⟨slots, st.strings ++ bytes, if probe > st.maxProbe then probe else st.maxProbe⟩

/-- The record of an empty slot. -/
def emptySlot : SeVocabSlot := ⟨0, 0, 0, slotEmpty⟩

/-- `pack("V4")` of a slot. -/
def packSlot (s : SeVocabSlot) : Bytes :=
  le32 s.hash ++ le32 s.strOff ++ le32 s.strLen ++ le32 s.tokenId

/-- `pack`. -/
def pack (slots : Slots) : Bytes := slots.flatMap fun s => packSlot (s.getD emptySlot)

/-- What `build` returns. -/
structure Built where
  size : ℕ
  strings : Bytes
  blob : Bytes
  maxProbe : ℕ
  deriving DecidableEq, Repr

/-- `build`. -/
def build (tokens : List Bytes) : Except WriteError Built := do
  let size := nextPowerOfTwo (sizeFor tokens.length)
  let st ← buildLoop tokens size 0 tokens ⟨List.replicate size none, [], 0⟩
  return ⟨size, st.strings, pack st.slots, st.maxProbe⟩

end HashTable

end StaticEmbeddings
