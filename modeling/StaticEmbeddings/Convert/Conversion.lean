import StaticEmbeddings.Convert.Loads
import StaticEmbeddings.Convert.SourceMatrix

/-!
# Conversions

`lib/static_embeddings/conversion.rb`. The provenance, SHA-256 and the Unicode data are parameters.

* `formatMeta`, `conversionCall`.
* `Imported`: the model of a directory; `importModel_spec`.
* `canonical_of_imported`: an imported model is canonical.
* `Represents`: what a loaded model has of an imported one.
* **`converted_model_loads`**: the file that a conversion writes.
-/

namespace StaticEmbeddings

open LittleEndian JsonValue

/-! ## `Conversion` -/

/-- `format_meta`. -/
def formatMeta (model : CanonicalModel) : FormatMeta where
  dim := model.dimensions.output
  normalizationType := model.runtime.normalization
  maxTokensDefault := model.runtime.maxTokens
  truncationPolicy := model.runtime.truncation
  addSpecialTokens := model.runtime.addSpecialTokens
  unkPolicy := model.runtime.unkPolicy
  emptyPolicy := model.runtime.emptyPolicy
  doLowerCase := model.tokenizer.doLowerCase
  stripAccents := model.tokenizer.stripAccents
  handleChineseChars := model.tokenizer.handleChineseChars
  cleanText := model.tokenizer.cleanText
  addedTokenMask := model.tokenizer.addedTokenMask
  maxInputCharsPerWord := model.tokenizer.maxInputCharsPerWord
  maxTokenChars := model.tokenizer.maxTokenChars
  subwordPrefix := model.tokenizer.subwordPrefix
  padId := model.tokenizer.padId
  unkId := model.tokenizer.unkId
  clsId := model.tokenizer.clsId
  sepId := model.tokenizer.sepId
  maskId := model.tokenizer.maskId

/-- `Conversion.call`: the written file. -/
def conversionCall (ruby : Ruby) (contained : String → Except String Directory)
    (sha256 : Bytes → Bytes) (db : UnicodeDatabase) (provenance : CanonicalModel → Bytes)
    (root : Directory) (options : Importers.Options) : Convert Bytes := do
  let model ← Importers.importModel ruby contained root options
  let tables ← raising .runtime (UnicodeTables.build db)
  raising .write (writerCall sha256 (formatMeta model) (model.tokens.map stringBytes) model.matrix
    tables.pack (provenance model))

/-! ## Tokens as bytes -/

theorem stringBytes_injective : Function.Injective stringBytes := by
  intro s t h
  apply String.toByteArray_inj.mp
  exact ByteArray.ext (Array.toList_inj.mp h)

theorem nodup_stringBytes {tokens : List String} (h : tokens.Nodup) :
    (tokens.map stringBytes).Nodup := h.map stringBytes_injective

theorem getElem?_stringBytes {tokens : List String} {i : ℕ} {s : String} :
    (tokens.map stringBytes)[i]? = some (stringBytes s) ↔ tokens[i]? = some s := by
  rw [List.getElem?_map, Option.map_eq_some_iff]
  constructor
  · rintro ⟨t, ht, he⟩
    rw [ht, stringBytes_injective he]
  · intro h
    exact ⟨s, h, rfl⟩

namespace Importers

variable {ruby : Ruby}

/-! ## Imported models -/

/-- The model is the one of the directory: its tokenizer was accepted, and its matrix is that of the
source. -/
structure Imported (ruby : Ruby) (dir : Directory) (sideTensors : List String)
    (model : CanonicalModel) (tokenizer : List (String × Json)) (profile : BertWordPiece.Profile)
    (matrix : List (List UInt32)) : Prop where
  loaded : loadObject ruby dir "tokenizer.json" false = .ok (some tokenizer)
  accepted : BertWordPiece.Accepted (.object tokenizer) profile model.tokens
  tokenizerMeta : BertWordPiece.runtimeMeta ruby profile model.tokens = .ok model.tokenizer
  extracted : ∃ file d tensor weights mapping, dir.read "model.safetensors" = some file ∧
    Safetensors.describe ruby.parse file = .ok d ∧
    Extracted ruby (dir.join "model.safetensors") file (tensorsOf d) sideTensors
      model.tokens.length tensor model.dimensions.native weights mapping ∧
    matrix = outputMatrix ruby.mul weights mapping model.dimensions.output
      (sourceMatrix ruby.half file tensor)
  output : 1 ≤ model.dimensions.output ∧ model.dimensions.output ≤ model.dimensions.native
  honest : model.matrix.Honest
  bytesize : model.matrix.bytesize = model.tokens.length * model.dimensions.output * floatBytes
  chunks : ∃ cs, model.matrix.chunks = .ok cs ∧ cs.flatten = matrixBytes matrix
  normalization : model.runtime.normalization = 0 ∨ model.runtime.normalization = 1
  unkPolicy : model.runtime.unkPolicy = unkInclude ∨ model.runtime.unkPolicy = unkDrop
  emptyPolicy : model.runtime.emptyPolicy = emptyZeroVector
  addSpecialTokens : model.runtime.addSpecialTokens = false
  truncation : model.runtime.truncation = truncateUsableIds ∨
    model.runtime.truncation = truncateRawIds

theorem resolveDimensions_eq_ok {requested : Option ℤ} {nativeDim outputDim : ℕ}
    (hpos : 0 < nativeDim) (h : resolveDimensions requested nativeDim = .ok outputDim) :
    1 ≤ outputDim ∧ outputDim ≤ nativeDim := by
  cases requested with
  | none =>
    obtain rfl := Except.ok.inj h
    exact ⟨hpos, le_rfl⟩
  | some value =>
    unfold resolveDimensions at h
    dsimp only at h
    split_ifs at h with hv
    obtain rfl := Except.ok.inj h
    omega

theorem resolveTruncation_eq_ok {requested : Option String} {default : String} {policy : ℕ}
    (h : resolveTruncation ruby requested default = .ok policy) :
    policy = truncateUsableIds ∨ policy = truncateRawIds := by
  unfold resolveTruncation at h
  dsimp only at h
  split at h
  · rename_i found hfound
    obtain rfl := Except.ok.inj h
    have hmem := PrefixTree.mem_of_lookup hfound
    simp only [truncationPolicies, List.mem_cons, Prod.mk.injEq, List.not_mem_nil, or_false] at hmem
    exact hmem.symm.imp And.right And.right
  · cases h

theorem canonicalModel_spec {dir : Directory} {options : Options} {profile : BertWordPiece.Profile}
    {tokens : List String} {sideTensors : List String} {normalization unkPolicy : ℕ}
    {defaultMaxTokens : Convert ℕ} {defaultTruncation : String} {model : CanonicalModel}
    {tokenizer : List (String × Json)}
    (hload : loadObject ruby dir "tokenizer.json" false = .ok (some tokenizer))
    (haccepted : BertWordPiece.Accepted (.object tokenizer) profile tokens)
    (hnorm : normalization = 0 ∨ normalization = 1) (hunk : unkPolicy = unkInclude ∨ unkPolicy = unkDrop)
    (h : canonicalModel ruby dir options (profile, tokens) sideTensors normalization unkPolicy
      defaultMaxTokens defaultTruncation = .ok model) :
    ∃ matrix, Imported ruby dir sideTensors model tokenizer profile matrix := by
  simp only [canonicalModel, bind_eq_ok, raising_eq_ok] at h
  obtain ⟨⟨payload, nativeDim⟩, hextract, outputDim, hdim, matrix, hmatrix, trained, -, _, -,
    maxTokens, -, truncation, htrunc, tokenizerMeta, hmeta, h⟩ := h
  obtain rfl := Except.ok.inj h
  obtain ⟨file, d, tensor, weights, mapping, hfile, hd, hx, hpayload⟩ := extractMatrix_spec hextract
  obtain ⟨h₁, h₂⟩ := resolveDimensions_eq_ok hx.dim.1 hdim
  obtain ⟨cs, hcs, hsize, hhonest, hflat⟩ := slicedMatrix_spec hx hpayload h₁ h₂ hmatrix
  exact ⟨_, {
    loaded := hload
    accepted := haccepted
    tokenizerMeta := hmeta
    extracted := ⟨file, d, tensor, weights, mapping, hfile, hd, hx, rfl⟩
    output := ⟨h₁, h₂⟩
    honest := hhonest
    bytesize := hsize
    chunks := ⟨cs, hcs, hflat⟩
    normalization := hnorm
    unkPolicy := hunk
    emptyPolicy := rfl
    addSpecialTokens := rfl
    truncation := resolveTruncation_eq_ok htrunc }⟩

theorem compileTokenizer_eq_ok {tokenizer : Option (List (String × Json))}
    {config : List (String × Json)} {profile : BertWordPiece.Profile} {tokens : List String}
    (h : compileTokenizer ruby tokenizer config = .ok (profile, tokens)) :
    ∃ t, tokenizer = some t ∧ BertWordPiece.Accepted (.object t) profile tokens := by
  have hspec := BertWordPiece.compile_spec (raising_eq_ok.mp h)
  cases tokenizer with
  | none =>
    obtain ⟨t, _, _, ht, -⟩ := hspec.vocabulary
    cases ht
  | some t => exact ⟨t, rfl, hspec⟩

/-- The directory with the files of the model, and the names of its side tensors. -/
def SourceDirectory (ruby : Ruby) (contained : String → Except String Directory) (root dir : Directory)
    (sideTensors : List String) : Prop :=
  (detect ruby root = .ok .model2vec ∧ dir = root ∧ sideTensors = ["weights", "mapping"]) ∨
    (detect ruby root = .ok .sentenceTransformersStatic ∧ sideTensors = [] ∧
      ∃ path, modulePath ruby root = .ok path ∧ contained path = .ok dir)

/-- **What an import promises**, of the root or of the directory of its module. -/
theorem importModel_spec {contained : String → Except String Directory} {root : Directory}
    {options : Options} {model : CanonicalModel}
    (h : importModel ruby contained root options = .ok model) :
    ∃ dir sideTensors tokenizer profile matrix,
      SourceDirectory ruby contained root dir sideTensors ∧
      Imported ruby dir sideTensors model tokenizer profile matrix := by
  obtain ⟨family, hfamily, h⟩ := bind_eq_ok.mp h
  cases family with
  | model2vec =>
    simp only [Model2Vec.call, bind_eq_ok] at h
    obtain ⟨tokenizer, hload, config, -, _, -, ⟨profile, tokens⟩, hcompile, h⟩ := h
    obtain ⟨t, rfl, haccepted⟩ := compileTokenizer_eq_ok hcompile
    have hnorm : Model2Vec.normalization (config.getD []) = 0 ∨
        Model2Vec.normalization (config.getD []) = 1 := by
      unfold Model2Vec.normalization
      exact (ite_eq_or_eq _ _ _).symm
    obtain ⟨matrix, hm⟩ := canonicalModel_spec hload haccepted hnorm (.inr rfl) h
    exact ⟨root, _, t, profile, matrix, .inl ⟨hfamily, rfl, rfl⟩, hm⟩
  | sentenceTransformersStatic =>
    simp only [SentenceTransformersStatic.call, bind_eq_ok] at h
    obtain ⟨path, hpath, h⟩ := h
    cases hdir : contained path with
    | error message =>
      rw [hdir] at h
      cases h
    | ok dir =>
      rw [hdir] at h
      simp only [bind_eq_ok] at h
      obtain ⟨tokenizer, hload, _, -, _, -, ⟨profile, tokens⟩, hcompile, h⟩ := h
      obtain ⟨t, rfl, haccepted⟩ := compileTokenizer_eq_ok hcompile
      obtain ⟨matrix, hm⟩ := canonicalModel_spec hload haccepted (.inl rfl) (.inl rfl) h
      exact ⟨dir, _, t, profile, matrix, .inr ⟨hfamily, rfl, path, hpath, hdir⟩, hm⟩

/-! ## Canonical models -/

theorem parse_of_loadObject {dir : Directory} {name : String} {optional : Bool}
    {entries : List (String × Json)} (h : loadObject ruby dir name optional = .ok (some entries)) :
    ∃ bytes, dir.read name = some bytes ∧ ruby.parse bytes = .ok (.object entries) := by
  obtain ⟨value, hload, h⟩ := bind_eq_ok.mp h
  have hvalue : value = .object entries := by
    cases value <;> cases h
    rfl
  subst hvalue
  unfold loadJson at hload
  cases hread : dir.read name with
  | none =>
    rw [hread] at hload
    dsimp only at hload
    split_ifs at hload
    cases hload
  | some bytes =>
    rw [hread] at hload
    dsimp only at hload
    cases hparse : ruby.parse bytes with
    | error message =>
      rw [hparse] at hload
      cases hload
    | ok value =>
      rw [hparse] at hload
      exact ⟨bytes, rfl, by rw [hparse, ← Except.ok.inj hload]⟩

theorem nodup_of_accepted {tokenizer : List (String × Json)} {profile : BertWordPiece.Profile}
    {tokens : List String} (h : BertWordPiece.Accepted (.object tokenizer) profile tokens)
    (hkeys : (Json.object tokenizer).WellKeyed) : tokens.Nodup := by
  obtain ⟨_, mdl, vocab, ⟨⟩, hmdl, hvocab, hperm⟩ := h.vocabulary
  have hinner := hkeys.get "model"
  rw [hmdl] at hinner
  have hentries := hinner.get "vocab"
  rw [hvocab] at hentries
  have hfst := hperm.map Prod.fst
  rw [List.map_map, show Prod.fst ∘ BertWordPiece.vocabEntry = Prod.fst from rfl,
    List.zipIdx_map_fst] at hfst
  exact hfst.nodup_iff.mp (Json.wellKeyed_object_iff.mp hentries).1

theorem runtimeMeta_eq_ok {profile : BertWordPiece.Profile} {tokens : List String}
    {t : TokenizerMeta} (h : BertWordPiece.runtimeMeta ruby profile tokens = .ok t) :
    (tokens.map stringBytes).idxOf? textUnk = some t.unkId ∧
      t.cleanText = profile.cleanText ∧ t.addedTokenMask = profile.addedTokenMask ∧
      t.maxInputCharsPerWord = profile.maxInputCharsPerWord ∧
      t.subwordPrefix = continuingSubwordPrefix ∧
      t.maxTokenChars = maxTokenChars (tokens.map stringBytes) continuingSubwordPrefix ∧
      t.padId = ((tokens.map stringBytes).idxOf? textPad).getD 0 ∧
      t.clsId = ((tokens.map stringBytes).idxOf? textCls).getD 0 ∧
      t.sepId = ((tokens.map stringBytes).idxOf? textSep).getD 0 ∧
      t.maskId = ((tokens.map stringBytes).idxOf? textMask).getD 0 := by
  unfold BertWordPiece.runtimeMeta at h
  dsimp only at h
  cases hunk : (tokens.map stringBytes).idxOf? textUnk with
  | none =>
    rw [hunk] at h
    cases h
  | some unkId =>
    rw [hunk] at h
    obtain rfl := Except.ok.inj h
    exact ⟨rfl, rfl, rfl, rfl, rfl, rfl, rfl, rfl, rfl, rfl⟩

theorem getElem?_added {tokenizer : Json} {profile : BertWordPiece.Profile} {tokens : List String}
    (h : BertWordPiece.Accepted tokenizer profile tokens) (hd : tokens.Nodup) {p : String × ℕ}
    (hp : p ∈ BertWordPiece.standardSpecialTokens) (hbit : profile.addedTokenMask &&& p.2 ≠ 0) :
    (tokens.map stringBytes)[((tokens.map stringBytes).idxOf? (stringBytes p.1)).getD 0]? =
      some (stringBytes p.1) := by
  obtain ⟨t, ht, he⟩ := List.mem_map.mp ((h.mask p hp).mp hbit)
  obtain ⟨-, i, -, hi⟩ := h.ids t ht
  rw [he, ← getElem?_stringBytes] at hi
  rw [(idxOf?_eq_some_iff (nodup_stringBytes hd)).mpr hi, Option.getD_some]
  exact hi

/-- **An imported model is canonical.** -/
theorem canonical_of_imported {dir : Directory} {sideTensors : List String} {model : CanonicalModel}
    {tokenizer : List (String × Json)} {profile : BertWordPiece.Profile}
    {matrix : List (List UInt32)} (hi : Imported ruby dir sideTensors model tokenizer profile matrix)
    (hd : model.tokens.Nodup) : Canonical (formatMeta model) (model.tokens.map stringBytes) := by
  obtain ⟨hunk, hclean, hmask, -, hsub, -, hpad, hcls, hsep, hmaskId⟩ :=
    runtimeMeta_eq_ok hi.tokenizerMeta
  have hnodup := nodup_stringBytes hd
  have hadded := fun p hp => @getElem?_added _ _ _ hi.accepted hd p hp
  simp only [BertWordPiece.standardSpecialTokens, List.forall_mem_cons] at hadded
  obtain ⟨apad, aunk, acls, asep, amask, -⟩ := hadded
  have htext : stringBytes "[PAD]" = textPad ∧ stringBytes "[UNK]" = textUnk ∧
      stringBytes "[CLS]" = textCls ∧ stringBytes "[SEP]" = textSep ∧
      stringBytes "[MASK]" = textMask := by decide
  obtain ⟨tpad, tunk, tcls, tsep, tmask⟩ := htext
  rw [tpad, ← hpad] at apad
  rw [tunk, hunk, Option.getD_some] at aunk
  rw [tcls, ← hcls] at acls
  rw [tsep, ← hsep] at asep
  rw [tmask, ← hmaskId] at amask
  have hbits : (formatMeta model).addedTokenMask = profile.addedTokenMask := hmask
  exact {
    nodup := hnodup
    unk := hunk
    subword := hsub
    dim := hi.output.1
    normalization := hi.normalization
    truncation := hi.truncation
    specials := hi.addSpecialTokens
    unkPolicy := hi.unkPolicy
    emptyPolicy := .inl hi.emptyPolicy
    cleanText := hclean.trans hi.accepted.cleanText
    mask := by
      rw [hbits]
      exact hi.accepted.mask_lt
    added := by
      rw [hbits]
      simp only [recordedAddedTokens, List.forall_mem_cons]
      exact ⟨apad, aunk, acls, asep, amask, fun t ht => absurd ht List.not_mem_nil⟩ }

theorem runtimeMeta_formatMeta {profile : BertWordPiece.Profile} {model : CanonicalModel}
    (h : BertWordPiece.runtimeMeta ruby profile model.tokens = .ok model.tokenizer) :
    runtimeMeta (formatMeta model) (model.tokens.map stringBytes) = some (formatMeta model) := by
  obtain ⟨hunk, -, -, -, hsub, hchars, hpad, hcls, hsep, hmask⟩ := runtimeMeta_eq_ok h
  have hid : ∀ token : Bytes, tokenId (model.tokens.map stringBytes) token (some 0) =
      some (((model.tokens.map stringBytes).idxOf? token).getD 0) := by
    intro token
    unfold tokenId
    cases (model.tokens.map stringBytes).idxOf? token <;> rfl
  unfold runtimeMeta
  rw [hid, hid, hid, hid, tokenId, hunk]
  rw [← hsub] at hchars
  simp only [Option.bind_eq_bind, Option.bind_some, Option.or_none, ← hsub, ← hpad, ← hcls, ← hsep,
    ← hmask]
  rw [← hchars]
  rfl

end Importers

/-! ## The loaded model -/

/-- A loaded model has what was imported: the header fields, the ids of the vocabulary, the rows of
the matrix and the Unicode data. -/
structure Represents (db : UnicodeDatabase) (tokenizer : List (String × Json))
    (matrix : List (List UInt32)) (model : CanonicalModel) (m : SeModel) : Prop where
  fields : ∃ hashSize maxProbe, m.toSeMeta =
    clampMeta (writtenMeta (formatMeta model) model.tokens.length hashSize maxProbe)
  vocabulary : ∀ mdl vocab, Json.get tokenizer "model" = .object mdl →
    Json.get mdl "vocab" = .object vocab → ∀ token, ∀ id : ℕ,
      (token, .int id) ∈ vocab ↔ seVocabLookup m (stringBytes token) = some id
  compiled : Compiled (model.tokens.map stringBytes) m
  unkApart : UnkApart m
  embeddings : m.embeddings = matrixBytes matrix
  unicode : ∀ cp, validUnicodeCodepoint cp → UnicodeTables.LooksUp m db cp

theorem mem_vocab_iff {tokenizer mdl vocab : List (String × Json)} {profile : BertWordPiece.Profile}
    {tokens : List String} (h : BertWordPiece.Accepted (.object tokenizer) profile tokens)
    (hmdl : Json.get tokenizer "model" = .object mdl) (hvocab : Json.get mdl "vocab" = .object vocab)
    {token : String} {id : ℕ} : (token, .int id) ∈ vocab ↔ tokens[id]? = some token := by
  obtain ⟨_, mdl', vocab', ⟨⟩, hmdl', hvocab', hperm⟩ := h.vocabulary
  obtain rfl := Json.object.inj (hmdl.symm.trans hmdl')
  obtain rfl := Json.object.inj (hvocab.symm.trans hvocab')
  rw [hperm.mem_iff, List.mem_map]
  constructor
  · rintro ⟨⟨s, i⟩, hmem, he⟩
    obtain ⟨rfl, hid⟩ := Prod.mk.inj he
    obtain rfl := Int.natCast_inj.mp (Json.int.inj hid)
    exact List.mem_zipIdx_iff_getElem?.mp hmem
  · intro hget
    exact ⟨(token, id), List.mem_zipIdx_iff_getElem?.mpr hget, rfl⟩

theorem firstStored_eq_some_iff {tokens : List Bytes} {size : ℕ} (hf : HashTable.Fits tokens size)
    (hbytes : tokens.flatten.length < 2 ^ 32) {bytes : Bytes} {i : ℕ} :
    HashTable.firstStored tokens bytes = some i ↔ tokens[i]? = some bytes := by
  constructor
  · intro h
    by_cases hmem : bytes ∈ tokens
    · obtain ⟨j, hj, rfl⟩ := List.getElem_of_mem hmem
      rw [HashTable.firstStored_getElem hf hbytes hj, Option.some.injEq] at h
      rw [← h, List.getElem?_eq_getElem hj]
    · rw [HashTable.firstStored_of_not_mem hf hbytes hmem] at h
      cases h
  · intro h
    obtain ⟨hi, rfl⟩ := List.getElem?_eq_some_iff.mp h
    exact HashTable.firstStored_getElem hf hbytes hi

section

open UnicodeTables

theorem conversionCall_spec {ruby : Ruby}
    (hparse : ∀ bytes value, ruby.parse bytes = .ok value → value.WellKeyed)
    {sha256 : Bytes → Bytes} {db : UnicodeDatabase} (hd : MappingFits db.downcase)
    (hn : MappingFits db.nfd) {contained : String → Except String Directory}
    {provenance : CanonicalModel → Bytes} {root : Directory} {options : Importers.Options}
    {file : Bytes}
    (h : conversionCall ruby contained sha256 db provenance root options = .ok file) :
    ∃ dir sideTensors model tokenizer profile matrix,
      Importers.importModel ruby contained root options = .ok model ∧
      Importers.SourceDirectory ruby contained root dir sideTensors ∧
      Importers.Imported ruby dir sideTensors model tokenizer profile matrix ∧
      model.tokens.Nodup ∧
      writerCall sha256 (formatMeta model) (model.tokens.map stringBytes) model.matrix
        (buildLoop db (codespaceLimit + 1)).pack (provenance model) = .ok file := by
  obtain ⟨model, himport, h⟩ := bind_eq_ok.mp h
  obtain ⟨tables, htables, h⟩ := bind_eq_ok.mp h
  rw [raising_eq_ok] at htables h
  obtain rfl := Except.ok.inj ((build_eq_ok hd hn).symm.trans htables)
  obtain ⟨dir, sideTensors, tokenizer, profile, matrix, hdir, hi⟩ :=
    Importers.importModel_spec himport
  obtain ⟨bytes, -, hbytes⟩ := Importers.parse_of_loadObject hi.loaded
  exact ⟨dir, sideTensors, model, tokenizer, profile, matrix, himport, hdir, hi,
    Importers.nodup_of_accepted hi.accepted (hparse bytes _ hbytes), h⟩

/-- What the loader makes of an imported model. -/
theorem loaded_of_imported {ruby : Ruby} {sha256 : Bytes → Bytes}
    (hsha : ∀ bytes, (sha256 bytes).length = checksumSize) {db : UnicodeDatabase}
    (hd : MappingFits db.downcase) (hn : MappingFits db.nfd) (hc : db.isControl 0xE000 = true)
    {dir : Directory} {sideTensors : List String} {model : CanonicalModel}
    {tokenizer : List (String × Json)} {profile : BertWordPiece.Profile}
    {matrix : List (List UInt32)}
    (hi : Importers.Imported ruby dir sideTensors model tokenizer profile matrix)
    (hnodup : model.tokens.Nodup) {provenance file : Bytes}
    (h : writerCall sha256 (formatMeta model) (model.tokens.map stringBytes) model.matrix
      (buildLoop db (codespaceLimit + 1)).pack provenance = .ok file) :
    ((∃ m, validate file = .ok m) ↔ ∃ tries,
      WordPieceTrie.build (model.tokens.map stringBytes) continuingSubwordPrefix = .ok tries ∧
      Loadable (formatMeta model) (model.tokens.map stringBytes) tries) ∧
    (model.dimensions.output ≤ 2 ^ 20 →
      (model.tokens.map stringBytes).flatten.length + 1 < 2 ^ 32 →
      ∃ m, validate file = .ok m ∧ Represents db tokenizer matrix model m) := by
  have hcanonical := Importers.canonical_of_imported hi hnodup
  have hmeta := Importers.runtimeMeta_formatMeta hi.tokenizerMeta
  have hsub : (formatMeta model).subwordPrefix = continuingSubwordPrefix := hcanonical.subword
  obtain ⟨cs, hcs, hflat⟩ := hi.chunks
  have hsize : model.matrix.bytesize =
      (model.tokens.map stringBytes).length * (formatMeta model).dim * 4 := by
    rw [List.length_map]
    exact hi.bytesize
  obtain ⟨hash, tries, chunks, hhash, htries, hchunks, hiff, hsmall, hread⟩ := written_loads hsha
    hi.honest hcanonical hsize (packable_buildLoop hd hn rfl) (normTablesOk_buildLoop hd hn hc rfl) h
  rw [hsub] at htries
  constructor
  · rw [hiff]
    constructor
    · intro hl
      exact ⟨tries, htries, hl⟩
    · rintro ⟨tries', htries', hl⟩
      rwa [Except.ok.inj (htries.symm.trans htries')]
  · intro hdim hbytes
    obtain ⟨m, hm⟩ := hiff.mpr (hsmall hdim hbytes)
    have hback := hread m hm
    obtain ⟨hcompiled, hunk⟩ := compiled_of_writerCall hsha hi.honest hcanonical.nodup hmeta h hm
    have hcount : (model.tokens.map stringBytes).length < slotEmpty := by
      rw [← hcompiled.vocabSize]
      exact hcompiled.ok.vocabSize_lt
    have hfits : HashTable.Fits (model.tokens.map stringBytes) 1 := ⟨hcanonical.nodup, hcount, 0, rfl⟩
    refine ⟨m, hm, ?_⟩
    exact {
      fields := ⟨hash.size, hash.maxProbe, by
        rw [hback.fields, List.length_map]⟩
      vocabulary := by
        intro mdl vocab hmdl hvocab token id
        rw [mem_vocab_iff hi.accepted hmdl hvocab, hback.lookup,
          firstStored_eq_some_iff hfits (by omega), getElem?_stringBytes]
      compiled := hcompiled
      unkApart := hunk
      embeddings := by
        rw [hback.embeddings, Except.ok.inj (hchunks.symm.trans hcs), hflat]
      unicode := fun cp hcp => looksUp_buildLoop hd hn hc rfl hback.norm hcp }

/-- **A conversion** writes a file that verifies and that the loader accepts within its limits; where
the tokens are small, the loaded model is the one of the directory. -/
theorem converted_model_loads {ruby : Ruby}
    (hparse : ∀ bytes value, ruby.parse bytes = .ok value → value.WellKeyed)
    {sha256 : Bytes → Bytes} (hsha : ∀ bytes, (sha256 bytes).length = checksumSize)
    {db : UnicodeDatabase} (hd : MappingFits db.downcase) (hn : MappingFits db.nfd)
    (hc : db.isControl 0xE000 = true) {contained : String → Except String Directory}
    {provenance : CanonicalModel → Bytes} {root : Directory} {options : Importers.Options}
    {file : Bytes}
    (h : conversionCall ruby contained sha256 db provenance root options = .ok file) :
    (∃ v, verifierCall sha256 file = .ok v ∧ v.ok = true) ∧
      ∃ dir sideTensors model tokenizer profile matrix,
        Importers.importModel ruby contained root options = .ok model ∧
        Importers.SourceDirectory ruby contained root dir sideTensors ∧
        Importers.Imported ruby dir sideTensors model tokenizer profile matrix ∧
        ((∃ m, validate file = .ok m) ↔ ∃ tries,
          WordPieceTrie.build (model.tokens.map stringBytes) continuingSubwordPrefix = .ok tries ∧
          Loadable (formatMeta model) (model.tokens.map stringBytes) tries) ∧
        (model.dimensions.output ≤ 2 ^ 20 →
          (model.tokens.map stringBytes).flatten.length + 1 < 2 ^ 32 →
          ∃ m, validate file = .ok m ∧ Represents db tokenizer matrix model m) := by
  obtain ⟨dir, sideTensors, model, tokenizer, profile, matrix, himport, hdir, hi, hnodup, hwrite⟩ :=
    conversionCall_spec hparse hd hn h
  obtain ⟨hiff, hsmall⟩ := loaded_of_imported hsha hd hn hc hi hnodup hwrite
  exact ⟨verify_written hsha hwrite, dir, sideTensors, model, tokenizer, profile, matrix, himport,
    hdir, hi, hiff, hsmall⟩

end

/-! ## A small conversion -/

theorem UnicodeTables.length_pack_lt {t : UnicodeTables} (ht : t.Packable) :
    t.pack.length < 2 ^ 40 := by
  rw [← (normTablesAt_pack ht (holds_self _)).2]
  unfold normTablesSize
  have h := fun k => readU32_lt t.pack (0 + 4 * k)
  have h₀ := h 0
  have h₁ := h 1
  have h₂ := h 2
  have h₃ := h 3
  have h₄ := h 4
  have h₅ := h 5
  dsimp only
  omega

/-- `config.json`. -/
def sampleConfigText : Bytes := stringBytes "\x7b\"model_type\": \"model2vec\"\x7d"

/-- `tokenizer.json`. -/
def sampleTokenizerText : Bytes := stringBytes
  ("\x7b\"model\": \x7b\"type\": \"WordPiece\", \"vocab\": \x7b\"hello\": 0, \"world\": 1, " ++
    "\"##s\": 2, \",\": 3, \"!\": 4, \"[UNK]\": 5\x7d\x7d, " ++
    "\"normalizer\": \x7b\"type\": \"BertNormalizer\"\x7d, " ++
    "\"pre_tokenizer\": \x7b\"type\": \"BertPreTokenizer\"\x7d, \"added_tokens\": [\x7b\"id\": 5, " ++
    "\"content\": \"[UNK]\", \"special\": true, \"normalized\": false\x7d]\x7d")

/-- The header of `model.safetensors`: six rows of one float. -/
def sampleHeaderText : Bytes := stringBytes
  ("\x7b\"embeddings\": \x7b\"dtype\": \"F32\", \"shape\": [6, 1], " ++
    "\"data_offsets\": [0, 24]\x7d\x7d")

/-- A parser that knows these texts. -/
def sampleRuby : Ruby where
  parse text :=
    if text = sampleConfigText then .ok (.object [("model_type", .string "model2vec")])
    else if text = sampleTokenizerText then .ok BertWordPiece.sampleTokenizer
    else if text = sampleHeaderText then .ok (.object [("embeddings", .object [
      ("dtype", .string "F32"), ("shape", .array [.int 6, .int 1]),
      ("data_offsets", .array [.int 0, .int 24])])])
    else .error "unexpected token"
  inspect _ := ""
  integer := BertWordPiece.integerOf
  half := UInt32.ofNat
  mul x _ := x

/-- The rows 1.0 to 6.0. -/
def sampleTensors : Bytes := le64 74 ++ sampleHeaderText ++
  [0, 0, 0x80, 0x3F, 0, 0, 0, 0x40, 0, 0, 0x40, 0x40, 0, 0, 0x80, 0x40, 0, 0, 0xA0, 0x40,
    0, 0, 0xC0, 0x40]

def sampleDirectory : Directory where
  path := "m"
  read name := [("config.json", sampleConfigText), ("tokenizer.json", sampleTokenizerText),
    ("model.safetensors", sampleTensors)].lookup name

def sampleOptions : Importers.Options := ⟨.unspecified, none, none, none⟩

/-- The tensor of the directory. -/
def sampleTensor : Tensor := ⟨.f32, [6, 1], 82, 24, rfl⟩

/-- The model of the directory. -/
def sampleCanonical : CanonicalModel where
  tokens := BertWordPiece.sampleVocabulary
  matrix := F32Payload.new UInt32.ofNat "m/model.safetensors" sampleTensors sampleTensor
  dimensions := ⟨1, 1, none⟩
  runtime := ⟨0, unkDrop, emptyZeroVector, 512, false, truncateRawIds⟩
  tokenizer := {
    doLowerCase := true, stripAccents := true, handleChineseChars := true, cleanText := true
    addedTokenMask := addedUnk, maxInputCharsPerWord := 100, maxTokenChars := 5
    subwordPrefix := continuingSubwordPrefix, padId := 0, unkId := 5, clsId := 0, sepId := 0
    maskId := 0 }

set_option maxRecDepth 100000 in
theorem importModel_sample (contained : String → Except String Directory) :
    Importers.importModel sampleRuby contained sampleDirectory sampleOptions = .ok sampleCanonical := by
  rfl

theorem small_sampleCanonical : sampleCanonical.dimensions.output ≤ 2 ^ 20 ∧
    (sampleCanonical.tokens.map stringBytes).flatten.length + 1 < 2 ^ 32 := by
  have hdim : sampleCanonical.dimensions.output = 1 := rfl
  have hbytes : (sampleCanonical.tokens.map stringBytes).flatten.length = 20 := rfl
  rw [hdim, hbytes]
  norm_num

theorem wellKeyed_sampleRuby : ∀ bytes value, sampleRuby.parse bytes = .ok value →
    value.WellKeyed := by
  intro bytes value h
  unfold sampleRuby at h
  dsimp only at h
  split_ifs at h
  all_goals
    obtain rfl := Except.ok.inj h
    simp [BertWordPiece.sampleTokenizer, Json.wellKeyed_object_iff, Json.wellKeyed_array_iff,
      Json.WellKeyed.bool, Json.WellKeyed.int, Json.WellKeyed.string]

theorem exists_ok {ε α : Type} {x : Except ε α} {P : α → Prop} [DecidablePred P]
    (h : (match x with | .ok a => decide (P a) | .error _ => false) = true) : ∃ a, x = .ok a ∧ P a := by
  cases x with
  | ok a => exact ⟨a, rfl, of_decide_eq_true h⟩
  | error e => cases h

theorem exists_sampleConversion {db : UnicodeDatabase} {t : UnicodeTables}
    (ht : UnicodeTables.build db = .ok t) (hp : t.Packable)
    (contained : String → Except String Directory) :
    ∃ file, conversionCall sampleRuby contained sampleDigest db (fun _ => []) sampleDirectory
      sampleOptions = .ok file := by
  obtain ⟨-, -, cs, hcs, -, -⟩ := @Importers.sourceMatrix_spec UInt32.ofNat sampleTensors sampleTensor
    6 1 rfl rfl Nat.one_pos (by decide) "m/model.safetensors"
  obtain ⟨hash, hhash, hblob, hfields⟩ := @exists_ok _ _
    (HashTable.build (sampleCanonical.tokens.map stringBytes))
    (fun hash => hash.strings.length + hash.blob.length < 2 ^ 20 ∧
      ∀ f ∈ headerFields (formatMeta sampleCanonical) 6 hash.size hash.maxProbe, f.2 ≤ uint32Max)
    _ (by decide +kernel)
  obtain ⟨tries, htries, hpack⟩ := @exists_ok _ _
    (WordPieceTrie.build (sampleCanonical.tokens.map stringBytes) continuingSubwordPrefix)
    (fun tries => tries.1.pack.length + tries.2.pack.length < 2 ^ 20) _ (by decide +kernel)
  have htables := UnicodeTables.length_pack_lt hp
  have hsize : headerSize + ((payloadsOf hash tries sampleCanonical.matrix t.pack []).map fun p =>
      63 + p.bytesize).sum ≤ 2 ^ 64 - 1 := by
    have hmatrix : sampleCanonical.matrix.bytesize = 24 := rfl
    simp only [payloadsOf, Payload.ofString, List.map_cons, List.map_nil, List.sum_cons,
      List.sum_nil, hmatrix, List.length_nil, headerSize]
    omega
  obtain ⟨file, hfile⟩ := @exists_writerCall sampleDigest
    (formatMeta sampleCanonical) _ hash tries _ cs _ [] hhash htries hcs (by decide) hfields hsize
  exact ⟨file, bind_eq_ok.mpr ⟨sampleCanonical, importModel_sample contained, bind_eq_ok.mpr ⟨t,
    raising_eq_ok.mpr ht, raising_eq_ok.mpr hfile⟩⟩⟩

open UnicodeTables in
theorem converted_model_loads_sample : ∃ file m tokenizer matrix,
    conversionCall sampleRuby (fun _ => .error "") sampleDigest sampleDatabase (fun _ => [])
      sampleDirectory sampleOptions = .ok file ∧
    validate file = .ok m ∧ Represents sampleDatabase tokenizer matrix sampleCanonical m := by
  obtain ⟨hd, hn⟩ := mappingFits_sampleDatabase
  obtain ⟨file, hfile⟩ := exists_sampleConversion (build_eq_ok hd hn)
    (packable_buildLoop hd hn rfl) fun _ => .error ""
  obtain ⟨-, _, _, model, tokenizer, _, matrix, himport, -, -, -, hsmall⟩ :=
    converted_model_loads wellKeyed_sampleRuby length_sampleDigest hd hn (by decide) hfile
  obtain rfl := Except.ok.inj ((importModel_sample _).symm.trans himport)
  obtain ⟨m, hm, hrep⟩ := hsmall small_sampleCanonical.1 small_sampleCanonical.2
  exact ⟨file, m, tokenizer, matrix, hfile, hm, hrep⟩

end StaticEmbeddings
