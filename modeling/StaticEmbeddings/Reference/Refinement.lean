import StaticEmbeddings.Convert.Conversion
import StaticEmbeddings.Reference.Agreement
import StaticEmbeddings.Tokenizer.ShortTexts

/-!
# The reference of an imported model

* `wellFormed_stringBytes`: tokens are UTF-8.
* `exists_reference`: the reference of an imported model, and the loaded one agree.
* **`reference_agrees`**: a converted model returns the ids of the reference.
-/

namespace StaticEmbeddings

open LittleEndian JsonValue UnicodeTables

/-! ## Tokens -/

theorem utf8EncodeChar_eq (c : Char) : String.utf8EncodeChar c = Utf8.encode c.val.toNat := by
  have hv : c.val.toNat < 0x110000 := by
    have := c.valid
    rw [UInt32.isValidChar, Nat.isValidChar] at this
    omega
  unfold String.utf8EncodeChar Utf8.encode
  dsimp only
  generalize c.val.toNat = v at hv
  have hlast : v % 0x40 + 0x80 = 0x80 + v % 64 := Nat.add_comm _ _
  have hmid : v / 64 % 0x40 + 0x80 = 0x80 + v / 64 % 64 := Nat.add_comm _ _
  by_cases h₁ : v ≤ 0x7F
  · rw [if_pos h₁, if_pos (show v < 0x80 by omega)]
  rw [if_neg h₁, if_neg (show ¬ v < 0x80 by omega)]
  by_cases h₂ : v ≤ 0x7FF
  · have hlead : v / 64 % 0x20 + 0xC0 = 0xC0 + v / 64 := by omega
    rw [if_pos h₂, if_pos (show v < 0x800 by omega), hlead, hlast]
  rw [if_neg h₂, if_neg (show ¬ v < 0x800 by omega)]
  by_cases h₃ : v ≤ 0xFFFF
  · have hlead : v / 4096 % 0x10 + 0xE0 = 0xE0 + v / 4096 := by omega
    rw [if_pos h₃, if_pos (show v < 0x10000 by omega), hlead, hmid, hlast]
  · have hlead : v / 262144 % 0x08 + 0xF0 = 0xF0 + v / 262144 := by omega
    have hsecond : v / 4096 % 0x40 + 0x80 = 0x80 + v / 4096 % 64 := Nat.add_comm _ _
    rw [if_neg h₃, if_neg (show ¬ v < 0x10000 by omega), hlead, hsecond, hmid, hlast]

theorem wellFormed_stringBytes (s : String) : Utf8.WellFormed (stringBytes s) := by
  obtain ⟨cs, hcs⟩ := s.isValidUTF8
  refine ⟨cs.map fun c => c.val.toNat, ?_, ?_⟩
  · intro n hn
    obtain ⟨c, -, rfl⟩ := List.mem_map.mp hn
    have := c.valid
    rw [UInt32.isValidChar, Nat.isValidChar] at this
    unfold Utf8.Scalar
    omega
  · rw [stringBytes, String.toUTF8, hcs, List.utf8Encode, List.toList_data_toByteArray,
      Utf8.encodeAll, List.flatMap_map]
    exact List.flatMap_congr fun c _ => utf8EncodeChar_eq c

/-! ## The reference -/

namespace Reference

theorem fromCanonical_eq {model : CanonicalModel} {unkToken : Bytes}
    (h : (model.tokens.map stringBytes)[model.tokenizer.unkId]? = some unkToken) :
    ∃ r, fromCanonical model = some r ∧ r.tokens = model.tokens.map stringBytes ∧
      r.options = metaFromCanonical model unkToken := by
  unfold fromCanonical
  split
  · rename_i hnone
    rw [h] at hnone
    cases hnone
  · rename_i u hu
    obtain rfl := Option.some.inj (h.symm.trans hu)
    exact ⟨_, rfl, rfl, rfl⟩

theorem mem_addedTokensOf {model : CanonicalModel} {literal : Bytes} {id : ℕ} :
    (literal, id) ∈ addedTokensOf model ↔ ∃ t ∈ BertWordPiece.standardSpecialTokens,
      model.tokenizer.addedTokenMask &&& t.2 ≠ 0 ∧ stringBytes t.1 = literal ∧
        model.tokens.idxOf? t.1 = some id := by
  unfold addedTokensOf
  rw [List.mem_filterMap]
  refine exists_congr fun t => and_congr_right fun _ => ?_
  by_cases hbit : model.tokenizer.addedTokenMask &&& t.2 = 0
  · rw [if_pos hbit]
    exact iff_of_false (by simp) fun h => h.1 hbit
  · rw [if_neg hbit, Option.map_eq_some_iff]
    constructor
    · rintro ⟨i, hi, he⟩
      obtain ⟨rfl, rfl⟩ := Prod.mk.inj he
      exact ⟨hbit, rfl, hi⟩
    · rintro ⟨-, rfl, hi⟩
      exact ⟨id, hi, rfl⟩

variable {ruby : Ruby} {db : UnicodeDatabase} {dir : Directory} {sideTensors : List String}
  {model : CanonicalModel} {tokenizer : List (String × Json)} {profile : BertWordPiece.Profile}
  {matrix : List (List UInt32)} {m : SeModel}

theorem getElem?_addedTokenId
    (hi : Importers.Imported ruby dir sideTensors model tokenizer profile matrix)
    (hd : model.tokens.Nodup) {hashSize maxProbe : ℕ} (hfields : m.toSeMeta =
      clampMeta (writtenMeta (formatMeta model) model.tokens.length hashSize maxProbe)) :
    ∀ t ∈ seAddedTokens, model.tokenizer.addedTokenMask &&& t.2 ≠ 0 →
      (model.tokens.map stringBytes)[addedTokenId m t.2]? = some t.1 := by
  have hadded := (Importers.canonical_of_imported hi hd).added
  have hpad : m.padId = model.tokenizer.padId := congrArg SeMeta.padId hfields
  have hunk : m.unkId = model.tokenizer.unkId := congrArg SeMeta.unkId hfields
  have hcls : m.clsId = model.tokenizer.clsId := congrArg SeMeta.clsId hfields
  have hsep : m.sepId = model.tokenizer.sepId := congrArg SeMeta.sepId hfields
  have hmask : m.maskId = model.tokenizer.maskId := congrArg SeMeta.maskId hfields
  unfold addedTokenId
  rw [hpad, hunk, hcls, hsep, hmask]
  simp only [recordedAddedTokens, List.forall_mem_cons] at hadded
  obtain ⟨apad, aunk, acls, asep, amask, -⟩ := hadded
  simp only [seAddedTokens, List.forall_mem_cons]
  exact ⟨amask, apad, aunk, acls, asep, fun t ht => absurd ht List.not_mem_nil⟩

/-- **The reference of an imported model** agrees with the loaded one. -/
theorem exists_reference
    (hi : Importers.Imported ruby dir sideTensors model tokenizer profile matrix)
    (hd : model.tokens.Nodup) (hsmall : (model.tokens.map stringBytes).flatten.length + 1 < 2 ^ 32)
    (hrep : Represents db tokenizer matrix model m) :
    ∃ r, fromCanonical model = some r ∧ Agrees db r m := by
  have hnodup := nodup_stringBytes hd
  obtain ⟨hunk, -, -, hchars, -⟩ := Importers.runtimeMeta_eq_ok hi.tokenizerMeta
  have hget := (idxOf?_eq_some_iff hnodup).mp hunk
  obtain ⟨r, hr, htokens, hoptions⟩ := fromCanonical_eq hget
  obtain ⟨hashSize, maxProbe, hfields⟩ := hrep.fields
  have hmax : 0 < model.tokenizer.maxInputCharsPerWord := by
    rw [hchars]
    exact hi.accepted.maxInputCharsPerWord
  have hone : ∀ b : Bool, (if b then 1 else 0) ≠ 0 ↔ b = true := by decide
  have hfield : ∀ {α : Type} (f : SeMeta → α), f m.toSeMeta =
      f (clampMeta (writtenMeta (formatMeta model) model.tokens.length hashSize maxProbe)) :=
    fun f => congrArg f hfields
  refine ⟨r, hr, ?_⟩
  exact {
    compiled := by
      rw [htokens]
      exact hrep.compiled
    utf8 := by
      rw [htokens]
      intro t ht
      obtain ⟨s, -, rfl⟩ := List.mem_map.mp ht
      exact wellFormed_stringBytes s
    small := by
      rw [htokens]
      omega
    unicode := hrep.unicode
    lowercase := by
      rw [hfield SeMeta.doLowerCase, hoptions]
      exact hone _
    stripAccents := by
      rw [hfield SeMeta.stripAccents, hoptions]
      exact hone _
    cleanText := by
      have hclean := hrep.compiled.ok.fields.cleanText
      rw [hfield SeMeta.cleanText] at hclean
      rw [hoptions]
      refine (hone _).mp ?_
      rw [show (if (metaFromCanonical model textUnk).cleanText then 1 else 0) = 1 from hclean]
      exact one_ne_zero
    handleChineseChars := by
      rw [hfield SeMeta.handleChineseChars, hoptions]
      exact hone _
    maxInputCharsPerWord := by
      rw [hfield SeMeta.maxInputCharsPerWord, hoptions]
      exact if_neg hmax.ne'
    unkId := by
      have hv : r.vocab r.options.unkToken = some model.tokenizer.unkId := by
        rw [vocab_eq (htokens ▸ hnodup), hoptions, htokens]
        exact hunk
      rw [hfield SeMeta.unkId, unkId]
      exact (Option.get_of_eq_some _ hv).symm
    unkPolicy := by
      rw [hfield SeMeta.unkPolicy, hoptions]
      rfl
    truncation := by
      rw [hfield SeMeta.truncationPolicy, hoptions]
      rfl
    added := by
      intro literal id
      rw [hoptions]
      refine mem_addedTokensOf.trans ?_
      have hmaskEq : m.addedTokenMask = model.tokenizer.addedTokenMask := hfield SeMeta.addedTokenMask
      have hto : ∀ t ∈ BertWordPiece.standardSpecialTokens,
          (stringBytes t.1, t.2) ∈ seAddedTokens := by decide +kernel
      have hfrom : ∀ t ∈ seAddedTokens, ∃ s ∈ BertWordPiece.standardSpecialTokens,
          (stringBytes s.1, s.2) = t := by decide +kernel
      have hids := getElem?_addedTokenId hi hd hfields
      rw [hmaskEq]
      constructor
      · rintro ⟨t, ht, hbit, rfl, hidx⟩
        refine ⟨_, hto t ht, hbit, rfl, ?_⟩
        have hget := hids _ (hto t ht) hbit
        have hother := getElem?_stringBytes.mpr ((idxOf?_eq_some_iff hd).mp hidx)
        rw [← idxOf?_eq_some_iff hnodup] at hget hother
        exact Option.some.inj (hget.symm.trans hother)
      · rintro ⟨t, ht, hbit, rfl, rfl⟩
        obtain ⟨s, hs, rfl⟩ := hfrom t ht
        exact ⟨s, hs, hbit, rfl,
          (idxOf?_eq_some_iff hd).mpr (getElem?_stringBytes.mp (hids _ ht hbit))⟩ }

end Reference

/-! ## Conversions -/

/-- **A converted model returns the ids of the reference**, and has room for those of short texts. -/
theorem reference_agrees {ruby : Ruby}
    (hparse : ∀ bytes value, ruby.parse bytes = .ok value → value.WellKeyed)
    {sha256 : Bytes → Bytes} (hsha : ∀ bytes, (sha256 bytes).length = checksumSize)
    {db : UnicodeDatabase} (hs : db.Standard) {contained : String → Except String Directory}
    {provenance : CanonicalModel → Bytes} {root : Directory} {options : Importers.Options}
    {file : Bytes}
    (h : conversionCall ruby contained sha256 db provenance root options = .ok file) :
    ∃ model, Importers.importModel ruby contained root options = .ok model ∧
      (model.dimensions.output ≤ 2 ^ 20 →
        (model.tokens.map stringBytes).flatten.length + 1 < 2 ^ 32 →
        ∃ m r, validate file = .ok m ∧ Reference.fromCanonical model = some r ∧
          ∀ text, Utf8.WellFormed text → ∀ maxTokens,
            (IsOom (seTokenize m text maxTokens .raw neverCancelled).2 ∨
              (seTokenize m text maxTokens .raw neverCancelled).2 =
                .ok (r.tokenize db text maxTokens)) ∧
            (IsOom (unboundedIds m (seEmbedLimitMode m) text) ∨ ∃ stats kept,
              seTokenize m text maxTokens (seEmbedLimitMode m) neverCancelled = (stats, .ok kept) ∧
              r.embedIds db text maxTokens = .ok (pooledIds m kept)) ∧
            (text.length ≤ 2 ^ 24 → ∀ limitMode, ¬ IsOom (unboundedIds m limitMode text))) := by
  obtain ⟨dir, sideTensors, model, tokenizer, profile, matrix, himport, -, hi, hd, hwrite⟩ :=
    conversionCall_spec hparse hs.downcase hs.nfd h
  refine ⟨model, himport, fun hdim hbytes => ?_⟩
  obtain ⟨m, hm, hrep⟩ := (loaded_of_imported hsha hs.downcase hs.nfd hs.privateUse hi hd hwrite).2
    hdim hbytes
  obtain ⟨r, hr, hagrees⟩ := Reference.exists_reference hi hd hbytes hrep
  obtain ⟨_, _, hfields⟩ := hrep.fields
  have hpolicy : m.unkPolicy = model.runtime.unkPolicy := congrArg SeMeta.unkPolicy hfields
  refine ⟨m, r, hm, hr, fun text hw maxTokens => ⟨?_, ?_, fun hshort limitMode =>
    not_isOom_of_short hagrees.compiled.ok limitMode hshort⟩⟩
  · exact Reference.seTokenize_all hs hagrees hw (.inl rfl)
  · refine Reference.seTokenize_embedIds hs hagrees hrep.unkApart ?_ hw maxTokens
    rw [hpolicy]
    exact hi.unkPolicy

/-- ASCII, and the private use area. -/
def asciiDatabase : UnicodeDatabase where
  category cp := if cp < 0x20 ∨ cp = 0x7F then .cc else if cp = 0x20 then .zs
    else if 0xE000 ≤ cp ∧ cp ≤ 0xF8FF then .co else .other
  downcase cp := if 0x41 ≤ cp ∧ cp ≤ 0x5A then [cp + 32] else [cp]
  nfd cp := [cp]

theorem standard_asciiDatabase : asciiDatabase.Standard where
  downcase := by
    constructor <;> intro cp hcp <;> simp only [asciiDatabase] <;> split_ifs with hu
    · exact (by decide : 1 ≤ 4)
    · exact (by decide : 1 ≤ 4)
    · intro c hc
      rw [List.mem_singleton.mp hc]
      unfold validUnicodeCodepoint
      omega
    · intro c hc
      rwa [List.mem_singleton.mp hc]
    · intro hbig
      unfold mapScanLimit at hbig
      omega
    · exact fun _ => rfl
  nfd := by
    constructor <;> intro cp hcp
    · exact (by decide : 1 ≤ 4)
    · intro c hc
      rwa [List.mem_singleton.mp hc]
    · exact fun _ => rfl
  privateUse := by decide
  downcase_ascii := by
    intro cp _
    simp only [asciiDatabase]
    split_ifs
    · rfl
    · rfl
  nfd_ascii := fun cp _ => rfl
  mn_ascii := by decide
  control_ascii := by decide
  whitespace_ascii := by decide
  punct_ascii := by decide
  downcase_blank := by
    intro cp _ hcp c hc
    simp only [asciiDatabase] at hc
    split_ifs at hc with hu
    · have hlower : ∀ k < 0x5B, 0x41 ≤ k → ¬ (Reference.isSplitSpace (k + 32) = true ∨
          asciiDatabase.isWhitespace (k + 32) = true) := by decide
      rw [List.mem_singleton.mp hc]
      exact hlower cp (by omega) hu.1
    · rwa [List.mem_singleton.mp hc]
  nfd_blank := by
    intro cp _ hcp c hc
    rwa [List.mem_singleton.mp hc]

/-- Words of either case, punctuation, an added token and an unknown word. -/
def sampleText : Bytes := stringBytes "Hello, WORLDs [UNK] xyz!"

theorem wellFormed_sampleText : Utf8.WellFormed sampleText :=
  ⟨sampleText.map UInt8.toNat, by decide +kernel, by decide +kernel⟩

theorem tokenize_sampleText {r : Reference} (h : Reference.fromCanonical sampleCanonical = some r) :
    r.tokenize asciiDatabase sampleText 0 = [0, 3, 1, 2, 5, 5, 4] := by
  have hids : (Reference.fromCanonical sampleCanonical).map
      (fun r => r.tokenize asciiDatabase sampleText 0) = some [0, 3, 1, 2, 5, 5, 4] := by
    decide +kernel
  rw [h] at hids
  exact Option.some.inj hids

theorem embedIds_sampleText {r : Reference} (h : Reference.fromCanonical sampleCanonical = some r) :
    r.embedIds asciiDatabase sampleText 6 = .ok [0, 3, 1, 2] := by
  have hids : (Reference.fromCanonical sampleCanonical).map
      (fun r => r.embedIds asciiDatabase sampleText 6) = some (.ok [0, 3, 1, 2]) := by
    decide +kernel
  rw [h] at hids
  exact Option.some.inj hids

/-- All ids of the text, and those that are pooled of the first six. -/
theorem reference_agrees_sample : ∃ file m r,
    conversionCall sampleRuby (fun _ => .error "") sampleDigest asciiDatabase (fun _ => [])
      sampleDirectory sampleOptions = .ok file ∧
    validate file = .ok m ∧ Reference.fromCanonical sampleCanonical = some r ∧
    r.tokenize asciiDatabase sampleText 0 = [0, 3, 1, 2, 5, 5, 4] ∧
    (seTokenize m sampleText 0 .raw neverCancelled).2 = .ok [0, 3, 1, 2, 5, 5, 4] ∧
    ∃ stats kept, seTokenize m sampleText 6 (seEmbedLimitMode m) neverCancelled =
      (stats, .ok kept) ∧ pooledIds m kept = [0, 3, 1, 2] := by
  have hs := standard_asciiDatabase
  obtain ⟨file, hfile⟩ := exists_sampleConversion (build_eq_ok hs.downcase hs.nfd)
    (packable_buildLoop hs.downcase hs.nfd rfl) fun _ => .error ""
  obtain ⟨model, himport, hsmall⟩ :=
    reference_agrees wellKeyed_sampleRuby length_sampleDigest hs hfile
  obtain rfl := Except.ok.inj ((importModel_sample _).symm.trans himport)
  obtain ⟨m, r, hm, hr, hall⟩ := hsmall small_sampleCanonical.1 small_sampleCanonical.2
  obtain ⟨hall₀, -, hshort⟩ := hall sampleText wellFormed_sampleText 0
  have hroom := hshort (by decide +kernel)
  have hraw := hall₀.resolve_left (hroom .raw)
  obtain ⟨stats, kept, hkept, hpooled⟩ :=
    (hall sampleText wellFormed_sampleText 6).2.1.resolve_left (hroom _)
  rw [tokenize_sampleText hr] at hraw
  rw [embedIds_sampleText hr] at hpooled
  exact ⟨file, m, r, hfile, hm, hr, tokenize_sampleText hr, hraw, stats, kept, hkept,
    (Except.ok.inj hpooled).symm⟩

end StaticEmbeddings
