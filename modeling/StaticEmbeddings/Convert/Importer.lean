import StaticEmbeddings.Lib.JsonValue
import StaticEmbeddings.Lib.Numbering
import StaticEmbeddings.Convert.Vocabulary

/-!
# The tokenizer audit

`compile` of `lib/static_embeddings/bert_wordpiece.rb` on parsed JSON. Ruby's `inspect` and
`Integer(…)` are parameters.

* `auditModel`, `auditNormalizer`, `auditPreTokenizer`, `auditAddedTokens`, `audit`: the profile.
* `vocabulary`, `validateAddedTokenIds`, `compile`.
* `assignAll_eq_ok_iff`: the loop over the vocabulary; **`vocabulary_eq_ok_iff`**: the accepted
  vocabularies.
* `audit_spec`, `validateAddedTokenIds_spec`, **`compile_spec`**: what an accepted tokenizer
  promises.
-/

namespace StaticEmbeddings

open LittleEndian JsonValue

namespace BertWordPiece

/-! ## Errors -/

/-- The exceptions of the importer. -/
inductive ImportError
  /-- `UnsupportedModelError`. -/
  | unsupported (message : String)
  /-- `ConversionError`. -/
  | invalid (message : String)

/-- The result of a step of the importer. -/
abbrev Import (α : Type) := Except (Raised ImportError) α

/-- `TOKENIZER_PROFILE`. -/
abbrev tokenizerProfile : String := "BERT_WORDPIECE_V1"

/-- `unsupported!`. -/
def unsupported {α : Type} (message : String) : Import α :=
  .error (.own (.unsupported (message ++ ". Supported tokenizer profile: " ++ tokenizerProfile ++
    "; other tokenizer behaviour requires a separate runtime capability.")))

/-- `invalid!`. -/
def invalid {α : Type} (message : String) : Import α := .error (.own (.invalid message))

/-- `unsupported!(…) unless …`. -/
def require (condition : Bool) (message : String) : Import Unit :=
  if condition then .ok () else unsupported message

/-! ## Hashes -/

/-- The entries of an object. -/
def object? : Json → Option (List (String × Json))
  | .object entries => some entries
  | _ => none

/-- `hash.fetch(key, default)`. -/
def fetch (entries : List (String × Json)) (key : String) (default : Json) : Json :=
  (entries.lookup key).getD default

/-- `flag`; `strip_accents` is it without a fallback. -/
def flag (entries : List (String × Json)) (key : String) (fallback : Json) (default : Bool) : Bool :=
  match Json.get entries key, fallback with
  | .null, .null => default
  | .null, fallback => fallback.truthy
  | value, _ => value.truthy

/-! ## The audit -/

section Audit

variable (inspect : Json → String) (integer : Json → Import ℤ)

/-- `audit_model`. -/
def auditModel (model : List (String × Json)) : Import Unit := do
  let type := Json.get model "type"
  require (type.isString "WordPiece")
    ("tokenizer model.type is " ++ inspect type ++ ", expected WordPiece")
  let subword := fetch model "continuing_subword_prefix" (.string "##")
  require (subword.isString "##")
    ("continuing_subword_prefix " ++ inspect subword ++ " is not supported")
  let unkToken := fetch model "unk_token" (.string "[UNK]")
  require (unkToken.isString "[UNK]") ("unk_token " ++ inspect unkToken ++ " is not supported")

/-- `ALLOWED_NORMALIZER_KEYS`. -/
def allowedNormalizerKeys : List String :=
  ["type", "clean_text", "handle_chinese_chars", "strip_accents", "lowercase"]

/-- `audit_normalizer`. -/
def auditNormalizer (normalizer : List (String × Json)) : Import Unit := do
  let type := Json.get normalizer "type"
  require (type.isString "BertNormalizer")
    ("normalizer type " ++ inspect type ++ " is not BertNormalizer")
  let unknown := (normalizer.map Prod.fst).filter fun key => key ∉ allowedNormalizerKeys
  require unknown.isEmpty
    ("normalizer has unsupported keys " ++ inspect (.array (unknown.map .string)))

/-- `audit_pre_tokenizer`. -/
def auditPreTokenizer (preTokenizer : Json) : Import Unit :=
  match preTokenizer with
  | .object entries =>
    require ((Json.get entries "type").isString "BertPreTokenizer")
      ("pre_tokenizer type " ++ inspect (Json.get entries "type") ++ " is not BertPreTokenizer")
  -- `nil` is interpolated as nothing, `false` as itself
  | .null => unsupported "pre_tokenizer type  is not BertPreTokenizer"
  | .bool false => unsupported "pre_tokenizer type false is not BertPreTokenizer"
  | other => do
    let shown ← (other.index "type").map inspect
    unsupported ("pre_tokenizer type " ++ shown ++ " is not BertPreTokenizer")

/-- `STANDARD_SPECIAL_TOKENS`. -/
def standardSpecialTokens : List (String × ℕ) :=
  [("[PAD]", addedPad), ("[UNK]", addedUnk), ("[CLS]", addedCls), ("[SEP]", addedSep),
    ("[MASK]", addedMask)]

/-- An entry of `added_tokens`. -/
abbrev AddedToken := List (String × Json)

/-- The content of a `standard_special?` token. -/
def standardSpecial? (token : AddedToken) : Option String :=
  match (Json.get token "special").truthy, Json.get token "content" with
  | true, .string s => if (standardSpecialTokens.lookup s).isSome then some s else none
  | _, _ => none

/-- `/\s/`. -/
def isSpace (c : Char) : Bool := c = ' ' || (0x09 ≤ c.toNat && c.toNat ≤ 0x0D)

/-- The block over the standard tokens. -/
def checkAddedToken (token : AddedToken) (content : String) : Import Unit := do
  let shown := inspect (.string content)
  require (!content.toList.any isSpace) ("added token " ++ shown ++ " contains whitespace")
  require (!((Json.get token "lstrip").truthy || (Json.get token "rstrip").truthy ||
      (Json.get token "single_word").truthy))
    ("added token " ++ shown ++ " uses lstrip/rstrip/single_word")
  match Json.get token "normalized" with
  | .bool false => .ok ()
  | _ => unsupported ("added token " ++ shown ++ " must use normalized=false")

/-- `audit_added_tokens`: the tokens with their contents. -/
def auditAddedTokens (tokens : Json) : Import (List (AddedToken × String)) :=
  match tokens with
  | .array items =>
    match items.mapM object? with
    | none => unsupported "added_tokens contains a non-object entry"
    | some rows => do
      let bad := rows.filter fun token => (standardSpecial? token).isNone
      require bad.isEmpty ("tokenizer declares non-standard added_tokens " ++
        inspect (.array (bad.map fun token => Json.get token "content")))
      let specials := rows.filterMap fun token => (standardSpecial? token).map fun s => (token, s)
      specials.forM fun t => checkAddedToken inspect t.1 t.2
      let contents := specials.map Prod.snd
      match contents.find? fun s => 1 < contents.count s with
      | some s => unsupported ("duplicate added token " ++ inspect (.string s))
      | none => .ok specials
  | _ => unsupported "added_tokens is not an array"

/-- The profile that `audit` returns. -/
structure Profile where
  lowercase : Bool
  stripAccents : Bool
  cleanText : Bool
  handleChineseChars : Bool
  maxInputCharsPerWord : ℕ
  addedTokens : List (AddedToken × String)
  addedTokenMask : ℕ

/-- The bits of the added tokens. -/
def addedTokenMask (specials : List (AddedToken × String)) : ℕ :=
  specials.foldl (fun mask t => mask ||| (standardSpecialTokens.lookup t.2).getD 0) 0

/-- `unsupported!(…) unless value.is_a?(Hash)`. -/
def auditObject (value : Json) (malformed : String) : Import (List (String × Json)) :=
  match object? value with
  | some entries => .ok entries
  | none => unsupported malformed

/-- `audit`. -/
def audit (tokenizer tokenizerConfig : Json) : Import Profile := do
  let tokenizer ← auditObject tokenizer "tokenizer.json is not an object"
  let config ← auditObject tokenizerConfig "tokenizer_config.json is not an object"
  require (Json.get tokenizer "model").truthy "tokenizer.json has no model section"
  require (Json.get tokenizer "normalizer").truthy "tokenizer has no normalizer"
  let model ← auditObject (Json.get tokenizer "model") "tokenizer model section is not an object"
  let normalizer ← auditObject (Json.get tokenizer "normalizer")
    "tokenizer normalizer is not an object"
  auditModel inspect model
  auditNormalizer inspect normalizer
  auditPreTokenizer inspect (Json.get tokenizer "pre_tokenizer")
  let declared := Json.get tokenizer "added_tokens"
  let addedTokens ← auditAddedTokens inspect (if declared.truthy then declared else .array [])
  let lowercase := flag normalizer "lowercase" (Json.get config "do_lower_case") true
  let cleanText := flag normalizer "clean_text" .null true
  let maxInputChars ← integer (fetch model "max_input_chars_per_word" (.int 100))
  require (decide (0 < maxInputChars)) "max_input_chars_per_word must be positive"
  require cleanText "clean_text=false is not supported by the runtime"
  return {
    lowercase := lowercase
    stripAccents := flag normalizer "strip_accents" .null lowercase
    cleanText := cleanText
    handleChineseChars :=
      flag normalizer "handle_chinese_chars" (Json.get config "tokenize_chinese_chars") true
    maxInputCharsPerWord := maxInputChars.toNat
    addedTokens := addedTokens
    addedTokenMask := addedTokenMask addedTokens }

/-! ## The vocabulary -/

/-- `assign_vocab`. -/
def assignVocab (tokens : List (Option String)) (token : String) (id : Json) :
    Import (List (Option String)) :=
  match id with
  | .int n =>
    if ¬ (0 ≤ n ∧ n ≤ (tokens.length : ℤ) - 1) then
      invalid ("vocab id " ++ toString n ++ " for " ++ inspect (.string token) ++ " is outside 0..." ++
        toString tokens.length)
    else if tokens[n.toNat]?.join.isSome then invalid ("duplicate vocab id " ++ toString n)
    else .ok (tokens.set n.toNat (some token))
  | id => unsupported ("vocab id " ++ inspect id ++ " is not an integer")

/-- The loop of `vocabulary`. -/
def assignAll : List (Option String) → List (String × Json) → Import (List (Option String))
  | tokens, [] => .ok tokens
  | tokens, (token, id) :: rest => do assignAll (← assignVocab inspect tokens token id) rest

/-- `vocabulary`, of the model section. -/
def vocabulary (model : List (String × Json)) : Import (List String) := do
  let vocab := Json.get model "vocab"
  require vocab.truthy "tokenizer.json has no model.vocab"
  let entries ← auditObject vocab "tokenizer model.vocab is not an object"
  let tokens ← assignAll inspect (List.replicate entries.length none) entries
  match tokens.idxOf? none with
  | some missing => invalid ("vocab has a hole at id " ++ toString missing)
  | none => .ok tokens.reduceOption

/-- `validate_added_token_ids`. -/
def validateAddedTokenIds (tokens : List String) : List (AddedToken × String) → Import Unit
  | [] => .ok ()
  | (token, content) :: rest =>
    let id := Json.get token "id"
    match id with
    | .int n => do
      require (decide (0 ≤ n ∧ n ≤ (tokens.length : ℤ) - 1 ∧ tokens[n.toNat]? = some content))
        ("added token " ++ inspect (.string content) ++ " id " ++ toString n ++
          " does not match model.vocab")
      validateAddedTokenIds tokens rest
    | id => unsupported ("added token " ++ inspect (.string content) ++ " has non-integer id " ++
        inspect id)

/-- `compile`. -/
def compile (tokenizer tokenizerConfig : Json) : Import (Profile × List String) := do
  let profile ← audit inspect integer tokenizer tokenizerConfig
  let model := ((object? tokenizer).bind fun t => object? (Json.get t "model")).getD []
  let tokens ← vocabulary inspect model
  validateAddedTokenIds inspect tokens profile.addedTokens
  return (profile, tokens)

end Audit

/-! ## The accepted vocabularies -/

section Vocabulary

variable {inspect : Json → String}

theorem require_eq_ok_iff {condition : Bool} {message : String} {u : Unit} :
    require condition message = .ok u ↔ condition = true := by
  unfold require unsupported
  cases condition <;> simp

theorem auditObject_eq_ok_iff {value : Json} {malformed : String} {entries : List (String × Json)} :
    auditObject value malformed = .ok entries ↔ value = .object entries := by
  cases value <;> simp [auditObject, object?, unsupported]

/-- An entry of the vocabulary. -/
def vocabEntry (p : String × ℕ) : String × Json := (p.1, .int p.2)

theorem assignVocab_eq_ok_iff {tokens tokens' : List (Option String)} {token : String} {id : Json} :
    assignVocab inspect tokens token id = .ok tokens' ↔
      ∃ i : ℕ, id = .int i ∧ tokens[i]? = some none ∧ tokens' = tokens.set i (some token) := by
  cases id with
  | int n =>
    rw [assignVocab]
    constructor
    · intro h
      split_ifs at h with hr hs
      · cases h
      · obtain ⟨i, rfl⟩ := Int.eq_ofNat_of_zero_le hr.1
        have hi : i < tokens.length := by
          have := hr.2
          omega
        rw [Int.toNat_natCast, List.getElem?_eq_getElem hi] at hs
        refine ⟨i, rfl, ?_, (Except.ok.inj h).symm⟩
        rw [List.getElem?_eq_getElem hi]
        cases hx : tokens[i] with
        | none => rfl
        | some x => exact absurd (by rw [hx]; rfl) hs
      · cases h
    · rintro ⟨i, hn, hi, rfl⟩
      obtain rfl := Json.int.inj hn
      have hlt : i < tokens.length := (List.getElem?_eq_some_iff.mp hi).1
      rw [if_neg (not_not.mpr ⟨Int.natCast_nonneg i, by omega⟩), Int.toNat_natCast, hi, if_neg]
      exact Bool.false_ne_true
  | _ =>
    constructor
    · rintro ⟨⟩
    · rintro ⟨i, hn, -⟩
      cases hn

theorem assignAll_eq_ok_iff {entries : List (String × Json)} {tokens tokens' : List (Option String)} :
    assignAll inspect tokens entries = .ok tokens' ↔
      ∃ placed : List (String × ℕ), entries = placed.map vocabEntry ∧
        (placed.map Prod.snd).Nodup ∧ (∀ p ∈ placed, tokens[p.2]? = some none) ∧
        tokens' = Numbering.fill tokens placed := by
  induction entries generalizing tokens with
  | nil =>
    rw [assignAll]
    constructor
    · rintro ⟨⟩
      exact ⟨[], rfl, List.nodup_nil, by simp, rfl⟩
    · rintro ⟨placed, he, -, -, rfl⟩
      rw [List.map_eq_nil_iff.mp he.symm]
      rfl
  | cons entry rest ih =>
    obtain ⟨token, id⟩ := entry
    rw [assignAll, bind_eq_ok]
    simp only [assignVocab_eq_ok_iff, ih]
    constructor
    · rintro ⟨_, ⟨i, rfl, hi, rfl⟩, placed, rfl, hn, hfree, rfl⟩
      have hlt : i < tokens.length := (List.getElem?_eq_some_iff.mp hi).1
      -- a later token at the same place would find it taken
      have hnot : i ∉ placed.map Prod.snd := by
        intro hmem
        obtain ⟨p, hp, rfl⟩ := List.mem_map.mp hmem
        have := hfree p hp
        rw [List.getElem?_set_self hlt] at this
        cases this
      refine ⟨(token, i) :: placed, rfl, List.nodup_cons.mpr ⟨hnot, hn⟩, ?_, rfl⟩
      refine List.forall_mem_cons.mpr ⟨hi, fun p hp => ?_⟩
      have hne : i ≠ p.2 := fun h => hnot (h ▸ List.mem_map.mpr ⟨p, hp, rfl⟩)
      rw [← hfree p hp, List.getElem?_set_ne hne]
    · rintro ⟨placed, he, hn, hfree, rfl⟩
      cases placed with
      | nil => cases he
      | cons p placed =>
        obtain ⟨h₁, h₂⟩ := List.cons.inj he
        rw [List.map_cons, List.nodup_cons] at hn
        refine ⟨tokens.set p.2 (some p.1), ⟨p.2, (congrArg Prod.snd h₁), hfree p List.mem_cons_self,
          ?_⟩, placed, h₂, hn.2, fun q hq => ?_, rfl⟩
        · rw [show token = p.1 from congrArg Prod.fst h₁]
        · have hne : p.2 ≠ q.2 := fun h => hn.1 (h ▸ List.mem_map.mpr ⟨q, hq, rfl⟩)
          rw [List.getElem?_set_ne hne]
          exact hfree q (List.mem_cons_of_mem p hq)

theorem perm_map_vocabEntry {entries : List (String × Json)} {numbered : List (String × ℕ)}
    (h : entries.Perm (numbered.map vocabEntry)) :
    ∃ placed : List (String × ℕ), entries = placed.map vocabEntry ∧ placed.Perm numbered := by
  let back (e : String × Json) : Option (String × ℕ) :=
    match e.2 with
    | .int n => some (e.1, n.toNat)
    | _ => none
  have hback : ∀ p, back (vocabEntry p) = some p := fun p => rfl
  refine ⟨entries.filterMap back, ?_, ?_⟩
  · have hall : ∀ e ∈ entries, ∃ p, e = vocabEntry p := by
      intro e he
      obtain ⟨p, -, rfl⟩ := List.mem_map.mp (h.mem_iff.mp he)
      exact ⟨p, rfl⟩
    clear h
    induction entries with
    | nil => rfl
    | cons e rest ih =>
      obtain ⟨p, rfl⟩ := hall e List.mem_cons_self
      rw [List.filterMap_cons_some (hback p), List.map_cons,
        ← ih fun e he => hall e (List.mem_cons_of_mem _ he)]
  · refine (h.filterMap back).trans ?_
    rw [List.filterMap_map, show back ∘ vocabEntry = some from funext hback, List.filterMap_some]

theorem idxOf?_none_map_some (tokens : List String) : (tokens.map some).idxOf? none = none := by
  rw [List.idxOf?_eq_none_iff]
  simp

/-- **The accepted vocabularies** are those whose tokens are numbered from 0 on without a gap, in
any order. The places are never left empty, so the search for a hole finds none. -/
theorem vocabulary_eq_ok_iff {model : List (String × Json)} {tokens : List String} :
    vocabulary inspect model = .ok tokens ↔ ∃ entries, Json.get model "vocab" = .object entries ∧
      entries.Perm (tokens.zipIdx.map vocabEntry) := by
  simp only [vocabulary, bind_eq_ok, auditObject_eq_ok_iff, assignAll_eq_ok_iff]
  constructor
  · rintro ⟨-, -, entries, hget, _, ⟨placed, rfl, hn, hfree, rfl⟩, h⟩
    refine ⟨_, hget, List.Perm.map _ ?_⟩
    obtain ⟨xs, hxs⟩ := Numbering.fill_replicate hn fun p hp => by
      have := (List.getElem?_eq_some_iff.mp (hfree p hp)).1
      simpa using this
    rw [List.length_map, Numbering.fill_of_perm hxs, idxOf?_none_map_some] at h
    obtain rfl : xs = tokens := by
      rw [← Except.ok.inj h, List.reduceOption, List.filterMap_map]
      exact List.filterMap_some.symm
    exact hxs
  · rintro ⟨entries, hget, h⟩
    obtain ⟨placed, rfl, hp⟩ := perm_map_vocabEntry h
    have hlen : placed.length = tokens.length := by rw [hp.length_eq, List.length_zipIdx]
    refine ⟨(), by rw [hget]; rfl, _, hget, _, ⟨placed, rfl, ?_, ?_, rfl⟩, ?_⟩
    · rw [(hp.map Prod.snd).nodup_iff, List.zipIdx_map_snd]
      exact List.nodup_range'
    · rintro ⟨a, i⟩ hi
      have := (List.getElem?_eq_some_iff.mp (Numbering.mem_zipIdx.mp (hp.mem_iff.mp hi))).1
      rw [List.getElem?_replicate, if_pos]
      rw [List.length_map]
      omega
    · rw [List.length_map, Numbering.fill_of_perm hp, idxOf?_none_map_some]
      rw [List.reduceOption, List.filterMap_map]
      exact congrArg Except.ok List.filterMap_some

theorem vocabulary_perm {model model' entries entries' : List (String × Json)}
    (h : Json.get model "vocab" = .object entries)
    (h' : Json.get model' "vocab" = .object entries') (hp : entries.Perm entries')
    {tokens : List String} :
    vocabulary inspect model = .ok tokens ↔ vocabulary inspect model' = .ok tokens := by
  rw [vocabulary_eq_ok_iff, vocabulary_eq_ok_iff, h, h']
  constructor
  · rintro ⟨_, ⟨⟩, hperm⟩
    exact ⟨entries', rfl, hp.symm.trans hperm⟩
  · rintro ⟨_, ⟨⟩, hperm⟩
    exact ⟨entries, rfl, hp.trans hperm⟩

end Vocabulary

/-! ## Accepted tokenizers -/

section Accepted

variable {inspect : Json → String} {integer : Json → Import ℤ}

theorem standardSpecial?_eq_some {token : AddedToken} {s : String}
    (h : standardSpecial? token = some s) :
    Json.get token "content" = .string s ∧ ∃ bit, (s, bit) ∈ standardSpecialTokens := by
  unfold standardSpecial? at h
  split at h
  · next content _ hc =>
    split_ifs at h with hs
    obtain rfl := Option.some.inj h
    obtain ⟨bit, hbit⟩ := Option.isSome_iff_exists.mp hs
    exact ⟨hc, bit, PrefixTree.mem_of_lookup hbit⟩
  · cases h

theorem nodup_of_find?_eq_none {contents : List String}
    (h : contents.find? (fun s => 1 < contents.count s) = none) : contents.Nodup := by
  rw [List.nodup_iff_count_le_one]
  intro s
  by_cases hs : s ∈ contents
  · have := List.find?_eq_none.mp h s hs
    simpa using this
  · rw [List.count_eq_zero_of_not_mem hs]
    exact zero_le_one

theorem auditAddedTokens_spec {declared : Json} {specials : List (AddedToken × String)}
    (h : auditAddedTokens inspect declared = .ok specials) :
    (∀ t ∈ specials, standardSpecial? t.1 = some t.2) ∧ (specials.map Prod.snd).Nodup := by
  unfold auditAddedTokens at h
  split at h
  · split at h
    · cases h
    · simp only [bind_eq_ok] at h
      obtain ⟨-, -, -, -, h⟩ := h
      split at h
      · cases h
      · next hfind =>
        obtain rfl := Except.ok.inj h
        constructor
        · intro t ht
          obtain ⟨token, -, hmap⟩ := List.mem_filterMap.mp ht
          obtain ⟨s, hs, rfl⟩ := Option.map_eq_some_iff.mp hmap
          exact hs
        · exact nodup_of_find?_eq_none hfind
  · cases h

theorem standardSpecialTokens_testBit {p q : String × ℕ} (hp : p ∈ standardSpecialTokens)
    (hq : q ∈ standardSpecialTokens) : q.2 &&& p.2 ≠ 0 ↔ q.1 = p.1 := by
  fin_cases hp <;> fin_cases hq <;> decide

theorem standardSpecialTokens_lookup {p : String × ℕ} (hp : p ∈ standardSpecialTokens) :
    standardSpecialTokens.lookup p.1 = some p.2 ∧ p.2 < 32 := by
  fin_cases hp <;> exact ⟨rfl, by decide⟩

theorem addedTokenMask_spec {specials : List (AddedToken × String)}
    (hs : ∀ t ∈ specials, ∃ bit, (t.2, bit) ∈ standardSpecialTokens) :
    addedTokenMask specials < 32 ∧ ∀ p ∈ standardSpecialTokens,
      addedTokenMask specials &&& p.2 ≠ 0 ↔ p.1 ∈ specials.map Prod.snd := by
  unfold addedTokenMask
  induction specials using List.reverseRecOn with
  | nil => exact ⟨by decide, fun p _ => by simp⟩
  | append_singleton specials t ih =>
    obtain ⟨hlt, hbits⟩ := ih fun u hu => hs u (List.mem_append_left _ hu)
    obtain ⟨bit, hbit⟩ := hs t (List.mem_append_right _ List.mem_cons_self)
    obtain ⟨hlook, hbit32⟩ := standardSpecialTokens_lookup hbit
    rw [List.foldl_append, List.foldl_cons, List.foldl_nil, hlook, Option.getD_some]
    refine ⟨Nat.or_lt_two_pow (n := 5) hlt hbit32, fun p hp => ?_⟩
    have hself := standardSpecialTokens_testBit hp hbit
    rw [Nat.and_or_distrib_right, Ne, Nat.or_eq_zero_iff, not_and_or, ← Ne, ← Ne, hbits p hp, hself,
      List.map_append, List.mem_append, List.map_singleton, List.mem_singleton, eq_comm]

theorem validateAddedTokenIds_spec {tokens : List String} {specials : List (AddedToken × String)}
    (h : validateAddedTokenIds inspect tokens specials = .ok ()) :
    ∀ t ∈ specials, ∃ i : ℕ, Json.get t.1 "id" = .int i ∧ tokens[i]? = some t.2 := by
  induction specials with
  | nil => exact fun t ht => absurd ht List.not_mem_nil
  | cons t rest ih =>
    obtain ⟨token, content⟩ := t
    rw [validateAddedTokenIds] at h
    split at h
    · next n hid =>
      obtain ⟨_, hr, hrest⟩ := bind_eq_ok.mp h
      obtain ⟨hn, -, hget⟩ := of_decide_eq_true (require_eq_ok_iff.mp hr)
      obtain ⟨i, rfl⟩ := Int.eq_ofNat_of_zero_le hn
      exact List.forall_mem_cons.mpr ⟨⟨i, hid, hget⟩, ih hrest⟩
    · cases h

theorem audit_spec {tokenizer config : Json} {profile : Profile}
    (h : audit inspect integer tokenizer config = .ok profile) :
    (∃ t model, tokenizer = .object t ∧ Json.get t "model" = .object model) ∧
      profile.cleanText = true ∧ 0 < profile.maxInputCharsPerWord ∧
      profile.addedTokenMask = addedTokenMask profile.addedTokens ∧
      (∀ t ∈ profile.addedTokens, standardSpecial? t.1 = some t.2) ∧
      (profile.addedTokens.map Prod.snd).Nodup := by
  simp only [audit, bind_eq_ok, auditObject_eq_ok_iff] at h
  obtain ⟨t, ht, _, -, -, -, -, -, model, hmodel, _, -, -, -, -, -, -, -, specials, hadded, n, -, _, hn,
    _, hclean, h⟩ := h
  obtain rfl := Except.ok.inj h
  obtain ⟨hspecial, hnodup⟩ := auditAddedTokens_spec hadded
  have hpos := of_decide_eq_true (require_eq_ok_iff.mp hn)
  exact ⟨⟨t, model, ht, hmodel⟩, require_eq_ok_iff.mp hclean, Int.pos_iff_toNat_pos.mp hpos, rfl,
    hspecial, hnodup⟩

/-- What an accepted tokenizer promises: its vocabulary is numbered without a gap, and the literals
of the mask are the declared ones, each once and a token under the declared id. -/
structure Accepted (tokenizer : Json) (profile : Profile) (tokens : List String) : Prop where
  vocabulary : ∃ t model entries, tokenizer = .object t ∧ Json.get t "model" = .object model ∧
    Json.get model "vocab" = .object entries ∧ entries.Perm (tokens.zipIdx.map vocabEntry)
  cleanText : profile.cleanText = true
  maxInputCharsPerWord : 0 < profile.maxInputCharsPerWord
  mask_lt : profile.addedTokenMask < 32
  mask : ∀ p ∈ standardSpecialTokens,
    profile.addedTokenMask &&& p.2 ≠ 0 ↔ p.1 ∈ profile.addedTokens.map Prod.snd
  nodup : (profile.addedTokens.map Prod.snd).Nodup
  ids : ∀ t ∈ profile.addedTokens, Json.get t.1 "content" = .string t.2 ∧
    ∃ i : ℕ, Json.get t.1 "id" = .int i ∧ tokens[i]? = some t.2

theorem compile_spec {tokenizer config : Json} {profile : Profile} {tokens : List String}
    (h : compile inspect integer tokenizer config = .ok (profile, tokens)) :
    Accepted tokenizer profile tokens := by
  simp only [compile, bind_eq_ok] at h
  obtain ⟨profile', haudit, tokens', hvocab, ⟨⟩, hids, ⟨⟩⟩ := h
  obtain ⟨⟨t, model, rfl, hmodel⟩, hclean, hmax, hmask, hspecial, hnodup⟩ := audit_spec haudit
  have hget : ((object? (.object t)).bind fun t => object? (Json.get t "model")).getD [] = model := by
    rw [object?, Option.bind_some, hmodel, object?, Option.getD_some]
  rw [hget, vocabulary_eq_ok_iff] at hvocab
  obtain ⟨entries, hentries, hperm⟩ := hvocab
  have hstd : ∀ u ∈ profile.addedTokens, ∃ bit, (u.2, bit) ∈ standardSpecialTokens :=
    fun u hu => (standardSpecial?_eq_some (hspecial u hu)).2
  obtain ⟨hlt, hbits⟩ := addedTokenMask_spec hstd
  rw [← hmask] at hlt hbits
  exact {
    vocabulary := ⟨t, model, entries, rfl, hmodel, hentries, hperm⟩
    cleanText := hclean
    maxInputCharsPerWord := hmax
    mask_lt := hlt
    mask := hbits
    nodup := hnodup
    ids := fun u hu => ⟨(standardSpecial?_eq_some (hspecial u hu)).1,
      validateAddedTokenIds_spec hids u hu⟩ }

/-- A tokenizer with the literal `[UNK]`. -/
def sampleTokenizer : Json :=
  .object [("model", .object [("type", .string "WordPiece"),
      ("vocab", .object [("hello", .int 0), ("world", .int 1), ("##s", .int 2), (",", .int 3),
        ("!", .int 4), ("[UNK]", .int 5)])]),
    ("normalizer", .object [("type", .string "BertNormalizer")]),
    ("pre_tokenizer", .object [("type", .string "BertPreTokenizer")]),
    ("added_tokens", .array [.object [("id", .int 5), ("content", .string "[UNK]"),
      ("special", .bool true), ("normalized", .bool false)]])]

/-- Its vocabulary. -/
def sampleVocabulary : List String := ["hello", "world", "##s", ",", "!", "[UNK]"]

/-- `Integer(…)` on integers. -/
def integerOf : Json → Import ℤ
  | .int n => .ok n
  | _ => .error .typeError

/-- Its profile. -/
def sampleProfile : Profile where
  lowercase := true
  stripAccents := true
  cleanText := true
  handleChineseChars := true
  maxInputCharsPerWord := 100
  addedTokens := [([("id", .int 5), ("content", .string "[UNK]"), ("special", .bool true),
    ("normalized", .bool false)], "[UNK]")]
  addedTokenMask := addedUnk

theorem compile_sampleTokenizer :
    compile (fun _ => "") integerOf sampleTokenizer (.object []) =
      .ok (sampleProfile, sampleVocabulary) := by
  rfl

example : Accepted sampleTokenizer sampleProfile sampleVocabulary :=
  compile_spec compile_sampleTokenizer

end Accepted

end BertWordPiece

end StaticEmbeddings
