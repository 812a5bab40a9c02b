import Mathlib.Data.List.Forall2
import StaticEmbeddings.Convert.Writer
import StaticEmbeddings.Format.Packed

/-!
# Written files

What the loader reads from a file that `Writer.call` has written.

* `layout_spec`, `writePayloads_spec`: where the payloads lie.
* `headerPatches`, `buildHeader_eq_ok_iff`: the header as a list of patches.
* `writtenMeta`: the header fields of a written file.
* **`written_of_writerCall`**: header, sections and contents.
-/

namespace StaticEmbeddings

open LittleEndian

/-! ## Payloads -/

/-- The next offset that is a multiple of `ALIGNMENT`. -/
def aligned (offset : ℕ) : ℕ := offset + (alignment - offset % alignment) % alignment

theorem aligned_spec (offset : ℕ) : offset ≤ aligned offset ∧ aligned offset % 64 = 0 := by
  unfold aligned alignment
  omega

theorem layout_cons (offset : ℕ) (payload : Payload) (rest : List Payload) :
    (layout offset (payload :: rest)).1 = (aligned offset, payload.bytesize) ::
      (layout (aligned offset + payload.bytesize) rest).1 := rfl

theorem layout_spec (payloads : List Payload) (offset : ℕ) :
    (∀ sec ∈ (layout offset payloads).1, offset ≤ sec.1 ∧ sec.1 % 64 = 0) ∧
      (layout offset payloads).1.Pairwise fun a b => a.1 + a.2 ≤ b.1 := by
  induction payloads generalizing offset with
  | nil => exact ⟨fun _ h => absurd h List.not_mem_nil, .nil⟩
  | cons payload rest ih =>
    obtain ⟨hle, hmod⟩ := aligned_spec offset
    obtain ⟨h₁, h₂⟩ := ih (aligned offset + payload.bytesize)
    refine ⟨List.forall_mem_cons.mpr ⟨⟨hle, hmod⟩, fun sec hsec => ?_⟩,
      List.pairwise_cons.mpr ⟨fun sec hsec => (h₁ sec hsec).1, h₂⟩⟩
    have := h₁ sec hsec
    exact ⟨by omega, this.2⟩

/-- The payload keeps its word about its size. -/
def Payload.Honest (p : Payload) : Prop := ∀ cs, p.chunks = .ok cs → cs.flatten.length = p.bytesize

theorem honest_ofString (bytes : Bytes) : (Payload.ofString bytes).Honest := by
  rintro cs ⟨⟩
  rw [List.flatten_singleton]
  rfl

theorem holds_append (pre bytes post : Bytes) : Holds (pre ++ (bytes ++ post)) pre.length bytes := by
  unfold Holds slice
  rw [List.drop_left, List.take_left]

/-- **Every payload lies at its section.** -/
theorem writePayloads_spec {payloads : List Payload} {pre rest : Bytes}
    (hp : ∀ p ∈ payloads, p.Honest)
    (h : writePayloads pre.length (layout pre.length payloads).1 payloads = .ok rest) :
    List.Forall₂ (fun sec p => ∃ cs, p.chunks = .ok cs ∧ sec.2 = cs.flatten.length ∧
      Holds (pre ++ rest) sec.1 cs.flatten ∧ sec.1 + sec.2 ≤ (pre ++ rest).length)
      (layout pre.length payloads).1 payloads := by
  induction payloads generalizing pre rest with
  | nil => exact .nil
  | cons p payloads ih =>
    obtain ⟨hhead, htail⟩ := List.forall_mem_cons.mp hp
    obtain ⟨hle, -⟩ := aligned_spec pre.length
    rw [layout_cons] at h ⊢
    simp only [writePayloads, bind_eq_ok] at h
    obtain ⟨cs, hcs, rest', hrest', ⟨⟩⟩ := h
    have hsize := hhead cs hcs
    -- everything up to the end of this payload
    generalize hpad : List.replicate (aligned pre.length - pre.length) (0 : UInt8) = pad at *
    have hpadlen : pre.length + pad.length = aligned pre.length := by
      rw [← hpad, List.length_replicate]
      omega
    have hpre : (pre ++ pad ++ cs.flatten).length = aligned pre.length + p.bytesize := by
      simp only [List.length_append]
      omega
    have hfile : pre ++ (pad ++ cs.flatten ++ rest') = pre ++ pad ++ cs.flatten ++ rest' := by
      simp only [List.append_assoc]
    rw [hfile]
    rw [← hpre] at hrest'
    have hrec := ih htail hrest'
    rw [hpre] at hrec
    refine .cons ⟨cs, hcs, hsize.symm, ?_, ?_⟩ hrec
    · have hholds := holds_append (pre ++ pad) cs.flatten rest'
      rwa [List.length_append, hpadlen, ← List.append_assoc] at hholds
    · rw [List.length_append, hpre]
      exact Nat.le_add_right _ _

/-! ## The header -/

theorem foldlM_eq_ok_iff {ε α β : Type} {step : β → α → Except ε β} {ok : α → Prop}
    {next : β → α → β} (h : ∀ b a b', step b a = .ok b' ↔ ok a ∧ b' = next b a) {xs : List α}
    {b b' : β} : xs.foldlM step b = .ok b' ↔ (∀ a ∈ xs, ok a) ∧ b' = xs.foldl next b := by
  induction xs generalizing b with
  | nil => exact ⟨fun h => ⟨fun _ ha => absurd ha List.not_mem_nil, (Except.ok.inj h).symm⟩,
      fun h => congrArg Except.ok h.2.symm⟩
  | cons a xs ih =>
    rw [List.foldlM_cons, bind_eq_ok, List.forall_mem_cons, List.foldl_cons]
    constructor
    · rintro ⟨b₁, h₁, h₂⟩
      obtain ⟨ha, rfl⟩ := (h _ _ _).mp h₁
      obtain ⟨hxs, rfl⟩ := ih.mp h₂
      exact ⟨⟨ha, hxs⟩, rfl⟩
    · rintro ⟨⟨ha, hxs⟩, rfl⟩
      exact ⟨_, (h _ _ _).mpr ⟨ha, rfl⟩, ih.mpr ⟨hxs, rfl⟩⟩

theorem putU32_eq_ok_iff {buffer buffer' : Bytes} {offset value : ℕ} :
    putU32 buffer offset value = .ok buffer' ↔
      value ≤ uint32Max ∧ buffer' = patch buffer offset (le32 value) := by
  unfold putU32
  split_ifs with h
  · exact ⟨fun he => ⟨h, (Except.ok.inj he).symm⟩, fun he => congrArg Except.ok he.2.symm⟩
  · exact ⟨nofun, fun he => absurd he.1 h⟩

theorem putU64_eq_ok_iff {buffer buffer' : Bytes} {offset value : ℕ} :
    putU64 buffer offset value = .ok buffer' ↔
      value ≤ 2 ^ 64 - 1 ∧ buffer' = patch buffer offset (le64 value) := by
  unfold putU64
  split_ifs with h
  · exact ⟨fun he => ⟨h, (Except.ok.inj he).symm⟩, fun he => congrArg Except.ok he.2.symm⟩
  · exact ⟨nofun, fun he => absurd he.1 h⟩

theorem putSection_eq_ok_iff {header header' : Bytes} {offset : ℕ} {sec : ℕ × ℕ} :
    putSection header offset sec = .ok header' ↔
      (sec.1 ≤ 2 ^ 64 - 1 ∧ sec.2 ≤ 2 ^ 64 - 1) ∧
        header' = patch (patch header offset (le64 sec.1)) (offset + 8) (le64 sec.2) := by
  simp only [putSection, bind_eq_ok, putU64_eq_ok_iff]
  constructor
  · rintro ⟨_, ⟨h₁, rfl⟩, h₂, rfl⟩
    exact ⟨⟨h₁, h₂⟩, rfl⟩
  · rintro ⟨⟨h₁, h₂⟩, rfl⟩
    exact ⟨_, ⟨h₁, rfl⟩, h₂, rfl⟩

/-- `bytes.ljust(8, "\0")`. -/
def paddedPrefix (subword : Bytes) : Bytes := subword ++ List.replicate (8 - subword.length) 0

/-- What `build_header` stores, in the order of its stores. -/
def headerPatches (fmt : FormatMeta) (vocabSize hashSize maxProbe : ℕ)
    (sections : List (ℕ × ℕ)) : List (ℕ × Bytes) :=
  (0, magic) :: ((headerFields fmt vocabSize hashSize maxProbe).map fun f => (f.1, le32 f.2)) ++
    [(112, le32 fmt.subwordPrefix.length), (116, paddedPrefix fmt.subwordPrefix)] ++
    (sectionFields.zip sections).flatMap fun f => [(f.1, le64 f.2.1), (f.1 + 8, le64 f.2.2)]

/-- All stores. -/
def storeAll (ps : List (ℕ × Bytes)) (bs : Bytes) : Bytes :=
  ps.foldl (fun b q => patch b q.1 q.2) bs

/-- The ranges that `build_header` checks. -/
structure HeaderFits (fmt : FormatMeta) (vocabSize hashSize maxProbe : ℕ)
    (sections : List (ℕ × ℕ)) : Prop where
  fields : ∀ f ∈ headerFields fmt vocabSize hashSize maxProbe, f.2 ≤ uint32Max
  subword : fmt.subwordPrefix.length ≤ 8
  sections : ∀ f ∈ sectionFields.zip sections, f.2.1 ≤ 2 ^ 64 - 1 ∧ f.2.2 ≤ 2 ^ 64 - 1

section

variable {fmt : FormatMeta} {vocabSize hashSize maxProbe : ℕ} {sections : List (ℕ × ℕ)}

/-- **`build_header` checks the ranges and stores everything.** -/
theorem buildHeader_eq_ok_iff {header : Bytes} :
    buildHeader fmt vocabSize hashSize maxProbe sections = .ok header ↔
      HeaderFits fmt vocabSize hashSize maxProbe sections ∧ header =
        storeAll (headerPatches fmt vocabSize hashSize maxProbe sections)
          (List.replicate headerSize 0) := by
  have hfields {b b' : Bytes} := @foldlM_eq_ok_iff WriteError (ℕ × ℕ) Bytes
    (fun h f => putU32 h f.1 f.2) (fun f => f.2 ≤ uint32Max) (fun h f => patch h f.1 (le32 f.2))
    (fun b a b' => putU32_eq_ok_iff) (headerFields fmt vocabSize hashSize maxProbe) b b'
  have hsecs {b b' : Bytes} := @foldlM_eq_ok_iff WriteError (ℕ × ℕ × ℕ) Bytes
    (fun h f => putSection h f.1 f.2) (fun f => f.2.1 ≤ 2 ^ 64 - 1 ∧ f.2.2 ≤ 2 ^ 64 - 1)
    (fun h f => patch (patch h f.1 (le64 f.2.1)) (f.1 + 8) (le64 f.2.2))
    (fun b a b' => putSection_eq_ok_iff) (sectionFields.zip sections) b b'
  have hstore : storeAll (headerPatches fmt vocabSize hashSize maxProbe sections)
      (List.replicate headerSize 0) =
      (sectionFields.zip sections).foldl
        (fun h f => patch (patch h f.1 (le64 f.2.1)) (f.1 + 8) (le64 f.2.2))
        (patch (patch ((headerFields fmt vocabSize hashSize maxProbe).foldl
          (fun h f => patch h f.1 (le32 f.2)) (patch (List.replicate headerSize 0) 0 magic)) 112
          (le32 fmt.subwordPrefix.length)) 116 (paddedPrefix fmt.subwordPrefix)) := by
    simp only [storeAll, headerPatches, List.foldl_append, List.foldl_cons, List.foldl_nil,
      List.foldl_map, List.foldl_flatMap]
  have hpre : ∀ b b' : Bytes, putPrefix b fmt.subwordPrefix = .ok b' ↔
      fmt.subwordPrefix.length ≤ 8 ∧ b' = patch (patch b 112 (le32 fmt.subwordPrefix.length)) 116
        (paddedPrefix fmt.subwordPrefix) := by
    intro b b'
    unfold putPrefix
    by_cases h8 : fmt.subwordPrefix.length > 8
    · rw [if_pos h8]
      exact ⟨nofun, fun h => absurd h.1 (not_le.mpr h8)⟩
    · rw [if_neg h8]
      simp only [bind_eq_ok, putU32_eq_ok_iff]
      constructor
      · rintro ⟨_, ⟨-, rfl⟩, he⟩
        exact ⟨not_lt.mp h8, (Except.ok.inj he).symm⟩
      · rintro ⟨-, he⟩
        refine ⟨_, ⟨?_, rfl⟩, congrArg Except.ok he.symm⟩
        unfold uint32Max
        omega
  rw [hstore]
  generalize hblank : List.replicate headerSize (0 : UInt8) = blank
  unfold buildHeader
  rw [hblank]
  constructor
  · intro h
    obtain ⟨b₁, h₁, h⟩ := bind_eq_ok.mp h
    obtain ⟨b₂, h₂, h⟩ := bind_eq_ok.mp h
    obtain ⟨h₁, e₁⟩ := hfields.mp h₁
    obtain ⟨h₂, e₂⟩ := (hpre _ _).mp h₂
    obtain ⟨h₃, e₃⟩ := hsecs.mp h
    rw [e₂, e₁] at e₃
    exact ⟨⟨h₁, h₂, h₃⟩, e₃⟩
  · rintro ⟨⟨h₁, h₂, h₃⟩, he⟩
    refine bind_eq_ok.mpr ⟨_, hfields.mpr ⟨h₁, rfl⟩, ?_⟩
    exact bind_eq_ok.mpr ⟨_, (hpre _ _).mpr ⟨h₂, rfl⟩, hsecs.mpr ⟨h₃, he⟩⟩

/-- Where the stores of a header lie: offsets and lengths. -/
def headerSpans : List (ℕ × ℕ) :=
  (0, 8) :: ([8, 12, 16, 28, 32, 36, 108, 20, 40, 44, 48, 56, 60, 80, 84, 88, 92, 96, 100, 52, 64,
    68, 72, 76, 24, 104, 124, 304, 308].map fun o => (o, 4)) ++ [(112, 4), (116, 8)] ++
    sectionFields.flatMap fun o => [(o, 8), (o + 8, 8)]

theorem headerPatches_spans (hp : fmt.subwordPrefix.length ≤ 8) (hs : sections.length = 7) :
    (headerPatches fmt vocabSize hashSize maxProbe sections).map (fun q => (q.1, q.2.length)) =
      headerSpans := by
  have hpad : (paddedPrefix fmt.subwordPrefix).length = 8 := by
    rw [paddedPrefix, List.length_append, List.length_replicate]
    omega
  match sections, hs with
  | [_, _, _, _, _, _, _], _ =>
    generalize hq : paddedPrefix fmt.subwordPrefix = pad at hpad
    rw [headerPatches, hq, List.map_append, List.map_append]
    show _ ++ [(112, 4), (116, pad.length)] ++ _ = _
    rw [hpad]
    rfl

/-- No two stores of the header touch, and none of them touches the checksum. -/
theorem headerSpans_apart :
    headerSpans.Pairwise (fun a b => a.1 + a.2 ≤ b.1 ∨ b.1 + b.2 ≤ a.1) ∧
      ∀ q ∈ headerSpans, q.1 + q.2 ≤ headerSize ∧
        (q.1 + q.2 ≤ checksumOffset ∨ checksumOffset + checksumSize ≤ q.1) := by
  decide +kernel

/-- What `write_file` makes of a header and what follows it. -/
def fileOf (header rest digest : Bytes) : Bytes := patch (header ++ rest) checksumOffset digest

/-- The header of `build_header`. -/
def writtenHeader (fmt : FormatMeta) (vocabSize hashSize maxProbe : ℕ)
    (sections : List (ℕ × ℕ)) : Bytes :=
  storeAll (headerPatches fmt vocabSize hashSize maxProbe sections) (List.replicate headerSize 0)

theorem writtenHeader_spec (hp : fmt.subwordPrefix.length ≤ 8) (hs : sections.length = 7) :
    (writtenHeader fmt vocabSize hashSize maxProbe sections).length = headerSize ∧
      ∀ q ∈ headerPatches fmt vocabSize hashSize maxProbe sections,
        Holds (writtenHeader fmt vocabSize hashSize maxProbe sections) q.1 q.2 ∧
        q.1 + q.2.length ≤ headerSize ∧
        (q.1 + q.2.length ≤ checksumOffset ∨ checksumOffset + checksumSize ≤ q.1) := by
  have hspans := @headerPatches_spans fmt vocabSize hashSize maxProbe sections hp hs
  obtain ⟨hapart, hinside⟩ := headerSpans_apart
  rw [← hspans] at hapart hinside
  rw [List.forall_mem_map] at hinside
  have hblank : (List.replicate headerSize (0 : UInt8)).length = headerSize := List.length_replicate
  have hin : ∀ q ∈ headerPatches fmt vocabSize hashSize maxProbe sections,
      q.1 + q.2.length ≤ (List.replicate headerSize (0 : UInt8)).length := by
    intro q hq
    rw [hblank]
    exact (hinside q hq).1
  have hapart : (headerPatches fmt vocabSize hashSize maxProbe sections).Pairwise Apart :=
    (List.pairwise_map (f := fun q : ℕ × Bytes => (q.1, q.2.length))).mp hapart
  exact ⟨(length_foldl_patch _ _ hin).trans hblank,
    fun q hq => ⟨slice_foldl_patch _ _ hin hapart hq, hinside q hq⟩⟩

/-- The checksum covers neither the stores of the header nor what follows the header. -/
theorem slice_fileOf {header rest digest : Bytes} (hh : header.length = headerSize)
    (hd : digest.length = checksumSize) {o n : ℕ}
    (h : o + n ≤ checksumOffset ∨ checksumOffset + checksumSize ≤ o) :
    slice (fileOf header rest digest) o n = slice (header ++ rest) o n := by
  refine slice_patch_of_disjoint ?_ (by rwa [hd])
  rw [hd, List.length_append, hh]
  exact Nat.le_add_right_of_le (by decide)

theorem length_fileOf {header rest digest : Bytes} (hh : header.length = headerSize)
    (hd : digest.length = checksumSize) :
    (fileOf header rest digest).length = headerSize + rest.length := by
  rw [fileOf, length_patch, List.length_append, hh]
  rw [hd, List.length_append, hh]
  exact Nat.le_add_right_of_le (by decide)

theorem slice_append_left {a b : Bytes} {o n : ℕ} (h : o + n ≤ a.length) :
    slice (a ++ b) o n = slice a o n := by
  unfold slice
  rw [List.drop_append_of_le_length (by omega), List.take_append_of_le_length]
  rw [List.length_drop]
  omega

/-- **Every store of the header is read back from the file.** -/
theorem holds_fileOf (hp : fmt.subwordPrefix.length ≤ 8) (hs : sections.length = 7)
    {rest digest : Bytes} (hd : digest.length = checksumSize) {q : ℕ × Bytes}
    (hq : q ∈ headerPatches fmt vocabSize hashSize maxProbe sections) :
    Holds (fileOf (writtenHeader fmt vocabSize hashSize maxProbe sections) rest digest) q.1 q.2 := by
  obtain ⟨hlen, hholds⟩ := @writtenHeader_spec fmt vocabSize hashSize maxProbe sections hp hs
  obtain ⟨hq, hin, hsum⟩ := hholds q hq
  rw [Holds, slice_fileOf hlen hd hsum, slice_append_left (by rwa [hlen])]
  exact hq

end

/-! ## What the loader reads -/

/-- The header fields of a written file. -/
def writtenMeta (fmt : FormatMeta) (vocabSize hashSize maxProbe : ℕ) : SeMeta where
  dim := fmt.dim
  vocabSize := vocabSize
  tokenizerType := 1
  embeddingDtype := 1
  poolingType := 1
  normalizationType := fmt.normalizationType
  maxTokensDefault := fmt.maxTokensDefault
  truncationPolicy := fmt.truncationPolicy
  addSpecialTokens := if fmt.addSpecialTokens then 1 else 0
  unkPolicy := fmt.unkPolicy
  emptyPolicy := fmt.emptyPolicy
  doLowerCase := if fmt.doLowerCase then 1 else 0
  stripAccents := if fmt.stripAccents then 1 else 0
  handleChineseChars := if fmt.handleChineseChars then 1 else 0
  cleanText := if fmt.cleanText then 1 else 0
  maxInputCharsPerWord := fmt.maxInputCharsPerWord
  maxTokenChars := fmt.maxTokenChars
  maxProbe := maxProbe
  addedTokenMask := fmt.addedTokenMask
  padId := fmt.padId
  unkId := fmt.unkId
  clsId := fmt.clsId
  sepId := fmt.sepId
  maskId := fmt.maskId
  hashTableSize := hashSize
  hashSeed := hashSeed
  subwordPrefixLen := fmt.subwordPrefix.length
  subwordPrefix := paddedPrefix fmt.subwordPrefix

/-- A section lies inside the file, behind the header, and holds the bytes. -/
structure Section.HoldsAt (s : Section) (file bytes : Bytes) : Prop where
  size : s.size = bytes.length
  holds : Holds file s.off bytes
  off : headerSize ≤ s.off
  aligned : s.off % 64 = 0
  inside : s.off + s.size ≤ file.length

/-- The contents of the seven sections, in the order of the source. -/
structure Contents where
  strings : Bytes
  hash : Bytes
  matrix : Bytes
  norm : Bytes
  provenance : Bytes
  root : Bytes
  cont : Bytes

/-- What a written file is for its loader. -/
structure Written (fields : SeMeta) (parts : Contents) (file : Bytes) : Prop where
  length : headerSize ≤ file.length
  magic : file.take 8 = seMagic
  version : readU32 file 8 = 3
  headerSize : readU32 file 12 = 320
  fields : readMeta file = fields
  vocabStrings : (readSections file).vocabStrings.HoldsAt file parts.strings
  vocabHash : (readSections file).vocabHash.HoldsAt file parts.hash
  embeddings : (readSections file).embeddings.HoldsAt file parts.matrix
  norm : (readSections file).norm.HoldsAt file parts.norm
  provenance : (readSections file).provenance.HoldsAt file parts.provenance
  rootTrie : (readSections file).rootTrie.HoldsAt file parts.root
  contTrie : (readSections file).contTrie.HoldsAt file parts.cont
  apart : (readSections file).toList.Pairwise fun a b => a.off + a.size ≤ b.off

section

variable {fmt : FormatMeta} {vocabSize hashSize maxProbe : ℕ} {sections : List (ℕ × ℕ)}
  {rest digest : Bytes}

theorem readMeta_fileOf (h : HeaderFits fmt vocabSize hashSize maxProbe sections)
    (hs : sections.length = 7) (hd : digest.length = checksumSize) {file : Bytes}
    (hf : file = fileOf (writtenHeader fmt vocabSize hashSize maxProbe sections) rest digest) :
    readU32 file 8 = 3 ∧ readU32 file 12 = 320 ∧ file.take 8 = seMagic ∧
      readMeta file = writtenMeta fmt vocabSize hashSize maxProbe := by
  have hholds : ∀ q ∈ headerPatches fmt vocabSize hashSize maxProbe sections,
      Holds file q.1 q.2 := by
    intro q hq
    rw [hf]
    exact holds_fileOf h.subword hs hd hq
  have hfield : ∀ f ∈ headerFields fmt vocabSize hashSize maxProbe, readU32 file f.1 = f.2 := by
    intro f hmem
    refine (hholds (f.1, le32 f.2) ?_).readU32 (Nat.lt_succ_of_le (h.fields f hmem))
    exact List.mem_append_left _ (List.mem_append_left _ (List.mem_cons_of_mem _
      (List.mem_map_of_mem hmem)))
  have hmagic : file.take 8 = seMagic :=
    hholds (0, magic) (List.mem_append_left _ (List.mem_append_left _ List.mem_cons_self))
  have hlen : readU32 file 112 = fmt.subwordPrefix.length := by
    refine (hholds (112, le32 fmt.subwordPrefix.length) ?_).readU32 ?_
    · exact List.mem_append_left _ (List.mem_append_right _ List.mem_cons_self)
    · have := h.subword
      omega
  have hpad : slice file 116 8 = paddedPrefix fmt.subwordPrefix := by
    have hpadlen : (paddedPrefix fmt.subwordPrefix).length = 8 := by
      have := h.subword
      rw [paddedPrefix, List.length_append, List.length_replicate]
      omega
    rw [← hpadlen]
    refine hholds (116, paddedPrefix fmt.subwordPrefix) ?_
    exact List.mem_append_left _ (List.mem_append_right _
      (List.mem_cons_of_mem _ List.mem_cons_self))
  simp only [headerFields, List.forall_mem_cons] at hfield
  obtain ⟨h8, h12, -, h28, h32, h36, h108, h20, h40, h44, h48, h56, h60, h80, h84, h88, h92, h96,
    h100, h52, h64, h68, h72, h76, h24, h104, h124, h304, h308, -⟩ := hfield
  refine ⟨h8, h12, hmagic, ?_⟩
  simp only [readMeta, writtenMeta, h28, h32, h36, h108, h20, h40, h44, h48, h56, h60, h80, h84,
    h88, h92, h96, h100, h52, h64, h68, h72, h76, h24, h104, h124, h304, h308, hlen, hpad]

theorem readSection_fileOf (h : HeaderFits fmt vocabSize hashSize maxProbe sections)
    (hs : sections.length = 7) (hd : digest.length = checksumSize) {file : Bytes}
    (hf : file = fileOf (writtenHeader fmt vocabSize hashSize maxProbe sections) rest digest)
    {f : ℕ × ℕ × ℕ} (hmem : f ∈ sectionFields.zip sections) (name : String) :
    readSection file f.1 name = ⟨f.2.1, f.2.2, name⟩ := by
  obtain ⟨h₁, h₂⟩ := h.sections f hmem
  have hholds : ∀ q ∈ [(f.1, le64 f.2.1), (f.1 + 8, le64 f.2.2)], Holds file q.1 q.2 := by
    intro q hq
    rw [hf]
    exact holds_fileOf h.subword hs hd (List.mem_append_right _
      (List.mem_flatMap.mpr ⟨f, hmem, hq⟩))
  obtain ⟨ho, hsize, -⟩ := List.forall_mem_cons.mp hholds |>.imp id List.forall_mem_cons.mp
  rw [readSection, ho.readU64 (by omega), hsize.readU64 (by omega)]

/-- **The section table.** -/
theorem readSections_fileOf {s₁ s₂ s₃ s₄ s₅ s₆ s₇ : ℕ × ℕ}
    (h : HeaderFits fmt vocabSize hashSize maxProbe [s₁, s₂, s₃, s₄, s₅, s₆, s₇])
    (hd : digest.length = checksumSize) {file : Bytes}
    (hf : file = fileOf (writtenHeader fmt vocabSize hashSize maxProbe
      [s₁, s₂, s₃, s₄, s₅, s₆, s₇]) rest digest) :
    readSections file = ⟨⟨s₁.1, s₁.2, "vocab_strings"⟩, ⟨s₂.1, s₂.2, "vocab_hash"⟩,
      ⟨s₃.1, s₃.2, "embeddings"⟩, ⟨s₄.1, s₄.2, "norm_tables"⟩, ⟨s₅.1, s₅.2, "provenance"⟩,
      ⟨s₆.1, s₆.2, "root_trie"⟩, ⟨s₇.1, s₇.2, "continuation_trie"⟩⟩ := by
  have hsec := fun f hmem name => readSection_fileOf h rfl hd hf (f := f) hmem name
  rw [show sectionFields.zip [s₁, s₂, s₃, s₄, s₅, s₆, s₇] = [(128, s₁), (144, s₂), (160, s₃),
    (176, s₄), (192, s₅), (208, s₆), (224, s₇)] from rfl] at hsec
  rw [readSections, hsec (128, s₁) (by simp), hsec (144, s₂) (by simp), hsec (160, s₃) (by simp),
    hsec (176, s₄) (by simp), hsec (192, s₅) (by simp), hsec (208, s₆) (by simp),
    hsec (224, s₇) (by simp)]

/-- **Every payload of the file.** -/
theorem payloads_fileOf {header : Bytes} (hlen : header.length = headerSize)
    (hd : digest.length = checksumSize) {payloads : List Payload} (hp : ∀ p ∈ payloads, p.Honest)
    (h : writePayloads headerSize (layout headerSize payloads).1 payloads = .ok rest) :
    List.Forall₂ (fun sec p => ∃ cs, p.chunks = .ok cs ∧ ∀ name,
      Section.HoldsAt ⟨sec.1, sec.2, name⟩ (fileOf header rest digest) cs.flatten)
      (layout headerSize payloads).1 payloads := by
  rw [← hlen] at h
  have hpay := writePayloads_spec hp h
  rw [hlen] at hpay
  refine ((List.forall₂_and_left _ _).mpr ⟨(layout_spec payloads headerSize).1, hpay⟩).imp ?_
  rintro sec p ⟨⟨hge, hmod⟩, cs, hcs, hsize, hb, hin⟩
  refine ⟨cs, hcs, fun name => ⟨hsize, ?_, hge, hmod, ?_⟩⟩
  · have hsum : checksumOffset + checksumSize ≤ sec.1 := le_trans (by decide) hge
    rw [Holds, slice_fileOf hlen hd (.inr hsum)]
    exact hb
  · rwa [length_fileOf hlen hd, ← hlen, ← List.length_append]

theorem written_of_placed {s₁ s₂ s₃ s₄ s₅ s₆ s₇ : ℕ × ℕ}
    (h : HeaderFits fmt vocabSize hashSize maxProbe [s₁, s₂, s₃, s₄, s₅, s₆, s₇])
    (hd : digest.length = checksumSize) {file : Bytes}
    (hf : file = fileOf (writtenHeader fmt vocabSize hashSize maxProbe
      [s₁, s₂, s₃, s₄, s₅, s₆, s₇]) rest digest) {parts : Contents}
    (hp : List.Forall₂ (fun sec bytes => ∀ name,
      Section.HoldsAt ⟨sec.1, sec.2, name⟩ file bytes) [s₁, s₂, s₃, s₄, s₅, s₆, s₇]
      [parts.strings, parts.hash, parts.matrix, parts.norm, parts.provenance, parts.root,
        parts.cont])
    (hapart : [s₁, s₂, s₃, s₄, s₅, s₆, s₇].Pairwise fun a b => a.1 + a.2 ≤ b.1) :
    Written (writtenMeta fmt vocabSize hashSize maxProbe) parts file := by
  obtain ⟨h8, h12, hmagic, hmeta⟩ := readMeta_fileOf h rfl hd hf
  have hsections := readSections_fileOf h hd hf
  have hlen := (@writtenHeader_spec fmt vocabSize hashSize maxProbe
    [s₁, s₂, s₃, s₄, s₅, s₆, s₇] h.subword rfl).1
  simp only [List.forall₂_cons] at hp
  obtain ⟨p₁, p₂, p₃, p₄, p₅, p₆, p₇, -⟩ := hp
  refine ⟨?_, hmagic, h8, h12, hmeta, ?_, ?_, ?_, ?_, ?_, ?_, ?_, ?_⟩
  · rw [hf, length_fileOf hlen hd]
    exact Nat.le_add_right _ _
  all_goals rw [hsections]
  · exact p₁ _
  · exact p₂ _
  · exact p₃ _
  · exact p₄ _
  · exact p₅ _
  · exact p₆ _
  · exact p₇ _
  · simpa only [Sections.toList, List.pairwise_cons, List.forall_mem_cons, List.not_mem_nil,
      false_imp_iff, implies_true, and_true, List.Pairwise.nil] using hapart

end

/-! ## `Writer.call` -/

theorem exists_of_length_eq_seven {α : Type} {l : List α} (h : l.length = 7) :
    ∃ a b c d e f g, l = [a, b, c, d, e, f, g] := by
  match l, h with
  | [_, _, _, _, _, _, _], _ => exact ⟨_, _, _, _, _, _, _, rfl⟩

/-- `payloads`. -/
def payloadsOf (hash : HashTable.Built) (tries : Trie × Trie) (matrix : Payload)
    (normTables provenance : Bytes) : List Payload :=
  [.ofString hash.strings, .ofString hash.blob, matrix, .ofString normTables, .ofString provenance,
    .ofString tries.1.pack, .ofString tries.2.pack]

section

variable {sha256 : Bytes → Bytes} {fmt : FormatMeta} {tokens : List Bytes} {matrix : Payload}
  {normTables provenance file : Bytes}

/-- **`Writer.call` step by step.** -/
theorem writerCall_eq_ok_iff :
    writerCall sha256 fmt tokens matrix normTables provenance = .ok file ↔
      ∃ hash tries, HashTable.build tokens = .ok hash ∧
        WordPieceTrie.build tokens fmt.subwordPrefix = .ok tries ∧
        ∃ sections, sections =
            (layout headerSize (payloadsOf hash tries matrix normTables provenance)).1 ∧
          HeaderFits fmt tokens.length hash.size hash.maxProbe sections ∧
          ∃ rest, writePayloads headerSize sections
              (payloadsOf hash tries matrix normTables provenance) = .ok rest ∧
            ∃ header, header = writtenHeader fmt tokens.length hash.size hash.maxProbe sections ∧
              file = fileOf header rest (sha256 (header ++ rest)) := by
  unfold writerCall
  constructor
  · intro h
    obtain ⟨hash, hhash, h⟩ := bind_eq_ok.mp h
    obtain ⟨tries, htries, h⟩ := bind_eq_ok.mp h
    obtain ⟨header, hheader, h⟩ := bind_eq_ok.mp h
    obtain ⟨hfits, hheader⟩ := buildHeader_eq_ok_iff.mp hheader
    obtain ⟨rest, hrest, h⟩ := bind_eq_ok.mp h
    exact ⟨hash, tries, hhash, htries, _, rfl, hfits, rest, hrest, header, hheader,
      (Except.ok.inj h).symm⟩
  · rintro ⟨hash, tries, hhash, htries, sections, hsections, hfits, rest, hrest, header, hheader,
      hfile⟩
    refine bind_eq_ok.mpr ⟨hash, hhash, bind_eq_ok.mpr ⟨tries, htries, ?_⟩⟩
    rw [hsections] at hfits hrest hheader
    refine bind_eq_ok.mpr ⟨header, buildHeader_eq_ok_iff.mpr ⟨hfits, hheader⟩, ?_⟩
    exact bind_eq_ok.mpr ⟨rest, hrest, congrArg Except.ok hfile.symm⟩

/-- The contents of the sections that are written. -/
def contentsOf (hash : HashTable.Built) (tries : Trie × Trie) (matrix normTables provenance : Bytes) :
    Contents :=
  ⟨hash.strings, hash.blob, matrix, normTables, provenance, tries.1.pack, tries.2.pack⟩

/-- **The written file**: the loader finds the header fields and the payloads in it. -/
theorem written_of_writerCall (hsha : ∀ bytes, (sha256 bytes).length = checksumSize)
    (hmatrix : matrix.Honest)
    (h : writerCall sha256 fmt tokens matrix normTables provenance = .ok file) :
    ∃ hash tries chunks, HashTable.build tokens = .ok hash ∧
      WordPieceTrie.build tokens fmt.subwordPrefix = .ok tries ∧ matrix.chunks = .ok chunks ∧
      fmt.subwordPrefix.length ≤ 8 ∧
      (∀ f ∈ headerFields fmt tokens.length hash.size hash.maxProbe, f.2 ≤ uint32Max) ∧
      Written (writtenMeta fmt tokens.length hash.size hash.maxProbe)
        (contentsOf hash tries chunks.flatten normTables provenance) file := by
  obtain ⟨hash, tries, hhash, htries, sections, hsections, hfits, rest, hrest, header, hheader,
    hfile⟩ := writerCall_eq_ok_iff.mp h
  subst hheader
  have h7 : sections.length = 7 := by
    rw [hsections]
    rfl
  have hd := hsha (writtenHeader fmt tokens.length hash.size hash.maxProbe sections ++ rest)
  have hlen := (@writtenHeader_spec fmt tokens.length hash.size hash.maxProbe sections hfits.subword
    h7).1
  have hhonest : ∀ p ∈ payloadsOf hash tries matrix normTables provenance, p.Honest := by
    simp only [payloadsOf, List.forall_mem_cons, honest_ofString, hmatrix, true_and]
    exact fun _ hp => absurd hp List.not_mem_nil
  have hapart := (layout_spec (payloadsOf hash tries matrix normTables provenance) headerSize).2
  rw [hsections] at hrest
  have hpay := payloads_fileOf hlen hd hhonest hrest
  rw [← hfile, ← hsections] at hpay
  rw [← hsections] at hapart
  clear hsections hrest
  obtain ⟨s₁, s₂, s₃, s₄, s₅, s₆, s₇, rfl⟩ := exists_of_length_eq_seven h7
  have hstring : ∀ {sec : ℕ × ℕ} {bytes : Bytes}, (∃ cs,
      (Payload.ofString bytes).chunks = .ok cs ∧
        ∀ name, Section.HoldsAt ⟨sec.1, sec.2, name⟩ file cs.flatten) →
      ∀ name, Section.HoldsAt ⟨sec.1, sec.2, name⟩ file bytes := by
    rintro sec bytes ⟨_, ⟨⟩, hb⟩
    rwa [List.flatten_singleton] at hb
  simp only [payloadsOf, List.forall₂_cons] at hpay
  obtain ⟨p₁, p₂, ⟨chunks, hchunks, p₃⟩, p₄, p₅, p₆, p₇, -⟩ := hpay
  refine ⟨hash, tries, chunks, hhash, htries, hchunks, hfits.subword, hfits.fields,
    written_of_placed hfits hd hfile ?_ hapart⟩
  exact .cons (hstring p₁) (.cons (hstring p₂) (.cons p₃ (.cons (hstring p₄)
    (.cons (hstring p₅) (.cons (hstring p₆) (.cons (hstring p₇) .nil))))))

end

end StaticEmbeddings
