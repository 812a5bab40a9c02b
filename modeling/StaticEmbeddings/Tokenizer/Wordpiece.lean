import StaticEmbeddings.Format.Model

/-!
# WordPiece

`wordpiece` of `se_tokenizer.c`: the exact lookup, the greedy trie walk and the `[UNK]` fallback.

* `wordpiece?`: as the code runs it, `none` where it would read outside one of its buffers.
* `wordpiece`: its value.
-/

namespace StaticEmbeddings

open LittleEndian

/-- `WORDPIECE_OOM` and `WORDPIECE_INVALID`. -/
inductive WordpieceFailure
  | oom | invalid
  deriving DecidableEq, Repr

/-- `push_id`; the growth of the buffer succeeds. -/
def pushId (ids : List ℕ) (id : ℕ) : Option (List ℕ) :=
  if ids.length ≥ uint32Max then none else some (ids ++ [id])

/-- The fallback: `unk_id` is pushed and counted. -/
def pushUnk (m : SeModel) (ids : List ℕ) (nUnk : ℕ) : Except WordpieceFailure (List ℕ × ℕ) :=
  match pushId ids m.unkId with
  | none => .error .oom
  | some ids => .ok (ids, nUnk + 1)

/-- The buffers `bytes` and `cps2` of a word that is not ASCII, its remaining code points and what
has been written. -/
def encodeWord : List ℕ → Bytes → List ℕ → Option (Bytes × List ℕ)
  | [], bytes, cps2 =>
    if bytes.length > uint32Max then none else some (bytes, cps2 ++ [bytes.length])
  | cp :: word, bytes, cps2 =>
    if bytes.length > uint32Max then none
    else encodeWord word (bytes ++ seUtf8Encode cp) (cps2 ++ [bytes.length])

/-- The buffers `bytes` and `cps2` of a word. -/
def wordBuffers (word : List ℕ) (asciiIdentity : Bool) : Option (Bytes × List ℕ) :=
  if asciiIdentity then some (word.map UInt8.ofNat, List.range (word.length + 1))
  else encodeWord word [] []

/-- `while (end <= max_end && cps2[end] < target) end++;` -/
def pieceEnd? (cps2 : List ℕ) (target maxEnd : ℕ) : ℕ → ℕ → Option ℕ
  | 0, e => some e
  | fuel + 1, e =>
    if e ≤ maxEnd then do
      let o ← cps2[e]?
      if o < target then pieceEnd? cps2 target maxEnd fuel (e + 1) else return e
    else some e

theorem le_of_pieceEnd? {cps2 : List ℕ} {target maxEnd fuel e e' : ℕ}
    (h : pieceEnd? cps2 target maxEnd fuel e = some e') : e ≤ e' := by
  induction fuel generalizing e with
  | zero => exact le_of_eq (Option.some.inj h)
  | succ fuel ih =>
    rw [pieceEnd?] at h
    split_ifs at h with he
    · rcases ho : cps2[e]? with _ | o
      · rw [ho] at h
        exact absurd h (by simp)
      · rw [ho] at h
        simp only [Option.bind_eq_bind, Option.bind_some] at h
        split_ifs at h
        · exact Nat.le_of_succ_le (ih h)
        · exact le_of_eq (Option.some.inj h)
    · exact le_of_eq (Option.some.inj h)

/-- The greedy loop of `wordpiece`, from code point `start` on. -/
def wordpieceLoop? (m : SeModel) (bytes : Bytes) (cps2 : List ℕ) (wordLen nUnk before start : ℕ)
    (ids : List ℕ) : Option (Except WordpieceFailure (List ℕ × ℕ)) :=
  if start < wordLen then
    let maxEnd := min (start + m.maxTokenChars) wordLen
    match cps2[start]?, cps2[maxEnd]? with
    | some off, some maxOff =>
      match slice? bytes off (maxOff - off) with
      | none => none
      | some input =>
        match seTrieLongestMatch? (if start > 0 then m.contTrie else m.rootTrie) input with
        | none => none
        | some none => some (pushUnk m (ids.take before) nUnk)
        | some (some (foundId, matchedLen)) =>
          match _he : pieceEnd? cps2 (off + matchedLen) maxEnd (maxEnd - start) (start + 1) with
          | none => none
          | some e =>
            if e > maxEnd then some (.error .invalid)
            else
              match cps2[e]? with
              | none => none
              | some o =>
                if o ≠ off + matchedLen then some (.error .invalid)
                else
                  match pushId ids foundId with
                  | none => some (.error .oom)
                  | some ids => wordpieceLoop? m bytes cps2 wordLen nUnk before e ids
    | _, _ => none
  else some (.ok (ids, nUnk))
termination_by wordLen - start
decreasing_by
  have := le_of_pieceEnd? _he
  omega

/-- `wordpiece`: the ids with those of the word appended, and the count of `[UNK]`. -/
def wordpiece? (m : SeModel) (word : List ℕ) (ids : List ℕ) (nUnk : ℕ) (knownAscii : Bool) :
    Option (Except WordpieceFailure (List ℕ × ℕ)) :=
  if word.length = 0 then some (.ok (ids, nUnk))
  else if word.length > m.maxInputCharsPerWord then some (pushUnk m ids nUnk)
  else
    match wordBuffers word (knownAscii || word.all (· < 0x80)) with
    | none => some (.error .oom)
    | some (bytes, cps2) =>
      if word.length ≤ m.maxTokenChars then
        match seVocabLookup? m bytes with
        | none => none
        | some (some exactId) =>
          match pushId ids exactId with
          | none => some (.error .oom)
          | some ids => some (.ok (ids, nUnk))
        | some none => wordpieceLoop? m bytes cps2 word.length nUnk ids.length 0 ids
      else wordpieceLoop? m bytes cps2 word.length nUnk ids.length 0 ids

/-- The value of `wordpiece`. -/
def wordpiece (m : SeModel) (word : List ℕ) (ids : List ℕ) (nUnk : ℕ) (knownAscii : Bool) :
    Except WordpieceFailure (List ℕ × ℕ) :=
  (wordpiece? m word ids nUnk knownAscii).getD (.error .invalid)

end StaticEmbeddings
