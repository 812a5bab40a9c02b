import StaticEmbeddings.Format.Accepted

/-!
# A file whose matrix is changed

What the loader does not check: the bytes of the embeddings section.

* `readU32_patch`, `recordsAt_patch`, `parseTrie_patch`, `parseNormTables_patch`: a read that does
  not touch the change.
* `MatrixPatch`: a change inside the section; `MatrixPatch.clear`: the other sections are apart.
* **`validate_patch`**: the loader accepts the changed file, with the changed vectors.
-/

namespace StaticEmbeddings

open LittleEndian

variable {file bytes : Bytes} {off : ℕ}

/-! ## Reads beside the change -/

section Reads

variable {o : ℕ}

theorem recordsAt_patch {α : Type} {size count : ℕ} {read : Bytes → ℕ → α}
    (hread : ∀ o, o + size ≤ off ∨ off + bytes.length ≤ o →
      read (patch file off bytes) o = read file o)
    (hd : o + size * count ≤ off ∨ off + bytes.length ≤ o) :
    recordsAt size read (patch file off bytes) o count = recordsAt size read file o count := by
  refine List.map_congr_left fun i hi => hread _ ?_
  have hle := Nat.mul_le_mul_left size (Nat.succ_le_of_lt (List.mem_range.mp hi))
  rw [Nat.mul_succ] at hle
  omega

variable (h : off + bytes.length ≤ file.length)

include h

theorem readU32_patch (hd : o + 4 ≤ off ∨ off + bytes.length ≤ o) :
    readU32 (patch file off bytes) o = readU32 file o := by
  have hs := slice_patch_of_disjoint h hd
  have hread : ∀ bs : Bytes, u32? bs o = u32? (slice bs o 4) 0 :=
    fun bs => (u32?_slice (i := 0) le_rfl).symm
  unfold readU32
  rw [hread, hread, hs]

theorem readU64_patch (hd : o + 8 ≤ off ∨ off + bytes.length ≤ o) :
    readU64 (patch file off bytes) o = readU64 file o := by
  have hs := slice_patch_of_disjoint h hd
  have hread : ∀ bs : Bytes, u64? bs o = u64? (slice bs o 8) 0 :=
    fun bs => (u64?_slice (i := 0) le_rfl).symm
  unfold readU64
  rw [hread, hread, hs]

theorem slot_patch (hd : o + 16 ≤ off ∨ off + bytes.length ≤ o) :
    SeVocabSlot.read (patch file off bytes) o = SeVocabSlot.read file o := by
  simp (disch := omega) only [SeVocabSlot.read, readU32_patch h]

theorem node_patch (hd : o + 16 ≤ off ∨ off + bytes.length ≤ o) :
    SeTrieNode.read (patch file off bytes) o = SeTrieNode.read file o := by
  simp (disch := omega) only [SeTrieNode.read, readU32_patch h]

theorem edge_patch (hd : o + 8 ≤ off ∨ off + bytes.length ≤ o) :
    SeTrieEdge.read (patch file off bytes) o = SeTrieEdge.read file o := by
  simp (disch := omega) only [SeTrieEdge.read, readU32_patch h]

theorem mapEntry_patch (hd : o + 24 ≤ off ∨ off + bytes.length ≤ o) :
    SeMapEntry.read (patch file off bytes) o = SeMapEntry.read file o := by
  simp (disch := omega) only [SeMapEntry.read, readU32_patch h]

theorem range_patch (hd : o + 8 ≤ off ∨ off + bytes.length ≤ o) :
    SeRange.read (patch file off bytes) o = SeRange.read file o := by
  simp (disch := omega) only [SeRange.read, readU32_patch h]

theorem normTablesAt_patch (hd : o + normTablesSize file o ≤ off ∨ off + bytes.length ≤ o) :
    normTablesSize (patch file off bytes) o = normTablesSize file o ∧
      normTablesAt (patch file off bytes) o = normTablesAt file o := by
  unfold normTablesSize at hd
  dsimp only at hd
  have hcount : ∀ k < 6, readU32 (patch file off bytes) (o + 4 * k) = readU32 file (o + 4 * k) :=
    fun k hk => readU32_patch h (by omega)
  constructor
  · unfold normTablesSize
    dsimp only
    simp (disch := omega) only [hcount]
  · unfold normTablesAt
    dsimp only
    simp (disch := omega) only [hcount]
    rw [recordsAt_patch fun _ => mapEntry_patch h, recordsAt_patch fun _ => mapEntry_patch h,
      recordsAt_patch fun _ => range_patch h, recordsAt_patch fun _ => range_patch h,
      recordsAt_patch fun _ => range_patch h, recordsAt_patch fun _ => range_patch h]
    all_goals omega

variable {sec : Section}

theorem sectionBytes_patch (hd : sec.off + sec.size ≤ off ∨ off + bytes.length ≤ sec.off) :
    sec.bytes (patch file off bytes) = sec.bytes file :=
  slice_patch_of_disjoint h hd

theorem parseTrie_patch {vocabSize : ℕ} {name : String} {t : SeTrie}
    (hd : sec.off + sec.size ≤ off ∨ off + bytes.length ≤ sec.off)
    (ht : parseTrie file sec vocabSize name = .ok t) :
    parseTrie (patch file off bytes) sec vocabSize name = .ok t := by
  obtain ⟨hsize, hne, hok, rfl⟩ := parseTrie_eq_ok_iff.mp ht
  rw [parseTrie_eq_ok_iff, readU32_patch h (by omega), readU32_patch h (by omega),
    recordsAt_patch (fun _ => node_patch h) (by omega),
    recordsAt_patch (fun _ => edge_patch h) (by omega)]
  exact ⟨hsize, hne, hok, rfl⟩

theorem parseNormTables_patch {t : SeNormTables}
    (hd : sec.off + sec.size ≤ off ∨ off + bytes.length ≤ sec.off)
    (ht : parseNormTables file sec = .ok t) :
    parseNormTables (patch file off bytes) sec = .ok t := by
  obtain ⟨hok, hempty | ⟨hsize, rfl⟩⟩ := parseNormTables_eq_ok_iff.mp ht
  · exact parseNormTables_eq_ok_iff.mpr ⟨hok, .inl hempty⟩
  · obtain ⟨h₁, h₂⟩ := normTablesAt_patch h (hsize ▸ hd)
    exact parseNormTables_eq_ok_iff.mpr ⟨hok, .inr ⟨hsize.trans h₁.symm, h₂.symm⟩⟩

theorem header_patch (hoff : 320 ≤ off) :
    readMeta (patch file off bytes) = readMeta file ∧
      readSections (patch file off bytes) = readSections file ∧
      (patch file off bytes).take 8 = file.take 8 := by
  refine ⟨?_, ?_, ?_⟩
  · simp (disch := omega) only [readMeta, readU32_patch h, slice_patch_of_disjoint h]
  · simp (disch := omega) only [readSections, readSection, readU64_patch h]
  · exact slice_patch_of_disjoint h (o := 0) (n := 8) (.inl (by omega))

end Reads

/-! ## The changed file -/

/-- A change inside the embeddings section. -/
structure MatrixPatch (file : Bytes) (off : ℕ) (bytes : Bytes) : Prop where
  left : (readSections file).embeddings.off ≤ off
  right : off + bytes.length ≤
    (readSections file).embeddings.off + (readSections file).embeddings.size

theorem clear_of_apart {a b : Section} (h : sectionsOverlap a b = false) (ha : sectionPresent a) :
    b.off + b.size ≤ a.off ∨ a.off + a.size ≤ b.off := by
  unfold sectionsOverlap at h
  by_cases hb : sectionPresent b
  · rw [decide_eq_true ha, decide_eq_true hb] at h
    simp only [Bool.true_and, Bool.and_eq_false_iff, decide_eq_false_iff_not, not_lt] at h
    omega
  · unfold sectionPresent at hb
    omega

theorem sectionsOverlap_comm (a b : Section) : sectionsOverlap a b = sectionsOverlap b a := by
  unfold sectionsOverlap
  simp only [Bool.and_comm, Bool.and_left_comm]

theorem slice_patch_inside {base n : ℕ} (h : off + bytes.length ≤ file.length) (hl : base ≤ off)
    (hr : off + bytes.length ≤ base + n) (hn : base + n ≤ file.length) :
    slice (patch file off bytes) base n = patch (slice file base n) (off - base) bytes := by
  have hlen := length_slice hn
  apply List.ext_getElem?
  intro i
  rw [getElem?_patch (by rw [hlen]; omega)]
  simp only [slice, List.getElem?_take, List.getElem?_drop, getElem?_patch h]
  by_cases hi : i < n
  · rw [if_pos hi, if_pos hi]
    by_cases hin : off ≤ base + i ∧ base + i < off + bytes.length
    · rw [if_pos hin, if_pos (by omega)]
      congr 1
      omega
    · rw [if_neg hin, if_neg (by omega)]
  · rw [if_neg hi, if_neg hi, if_neg (by omega)]

namespace MatrixPatch

variable (hp : MatrixPatch file off bytes) (hf : FrontOk file)

include hp hf

theorem inside : sectionPresent (readSections file).embeddings ∧ 320 ≤ off ∧
    (readSections file).embeddings.off + (readSections file).embeddings.size ≤ file.length := by
  have hsize := hf.embeddingsSize
  have hv := hf.fields.vocabSize
  have hd := hf.fields.dim.1
  have hpos : 0 < (readMeta file).vocabSize * (readMeta file).dim * 4 := by positivity
  have hpresent : sectionPresent (readSections file).embeddings := .inr (by omega)
  obtain ⟨hoff, -, hle, hend, -⟩ := hf.sections.2.2.1.resolve_left (not_not.mpr hpresent)
  have := hp.left
  exact ⟨hpresent, hoff.trans hp.left, by omega⟩

theorem fits : off + bytes.length ≤ file.length := hp.right.trans (hp.inside hf).2.2

theorem clear {s : Section} (hs : s ∈ [(readSections file).vocabStrings,
    (readSections file).vocabHash, (readSections file).norm, (readSections file).provenance,
    (readSections file).rootTrie, (readSections file).contTrie]) :
    s.off + s.size ≤ off ∨ off + bytes.length ≤ s.off := by
  have hover : sectionsOverlap (readSections file).embeddings s = false := by
    have hapart := hf.apart
    simp only [Sections.toList, List.pairwise_cons, List.mem_cons, forall_eq_or_imp] at hapart
    simp only [List.mem_cons, List.not_mem_nil, or_false] at hs
    obtain ⟨⟨-, h₁, -⟩, ⟨h₂, -⟩, ⟨h₄, h₅, h₆, h₇, -⟩, -⟩ := hapart
    rcases hs with rfl | rfl | rfl | rfl | rfl | rfl
    · rw [sectionsOverlap_comm, h₁]
    · rw [sectionsOverlap_comm, h₂]
    · exact h₄
    · exact h₅
    · exact h₆
    · exact h₇
  have hclear := clear_of_apart hover (hp.inside hf).1
  have hl := hp.left
  have hr := hp.right
  omega

theorem metaAt_patch : metaAt (patch file off bytes) = metaAt file :=
  congrArg clampMeta (header_patch (hp.fits hf) (hp.inside hf).2.1).1

theorem vocabModelAt_patch : vocabModelAt (patch file off bytes) =
    { vocabModelAt file with
      mapBase := patch file off bytes
      embeddings := patch (vocabModelAt file).embeddings
        (off - (readSections file).embeddings.off) bytes } := by
  have h := hp.fits hf
  obtain ⟨-, hoff, hend⟩ := hp.inside hf
  obtain ⟨-, hsec, -⟩ := header_patch h hoff
  have hclear := fun s hs => hp.clear hf (s := s) hs
  simp only [List.forall_mem_cons] at hclear
  obtain ⟨h₁, h₂, -, h₅, -⟩ := hclear
  have hhash : (readSections file).vocabHash.off + 16 * (metaAt file).hashTableSize ≤ off ∨
      off + bytes.length ≤ (readSections file).vocabHash.off := by
    have hsize : (readSections file).vocabHash.size = (metaAt file).hashTableSize * 16 := hf.hashSize
    omega
  unfold vocabModelAt
  dsimp only
  rw [hp.metaAt_patch hf, hsec, sectionBytes_patch h h₁,
    recordsAt_patch (fun _ => slot_patch h) hhash, sectionBytes_patch h h₅]
  congr 1
  exact slice_patch_inside h hp.left hp.right hend

theorem frontOk_patch : FrontOk (patch file off bytes) := by
  have h := hp.fits hf
  have hoff := (hp.inside hf).2.1
  obtain ⟨hmeta, hsec, hmagic⟩ := header_patch h hoff
  have hmodel := hp.vocabModelAt_patch hf
  have hlookup : ∀ b, seVocabLookup (vocabModelAt (patch file off bytes)) b =
      seVocabLookup (vocabModelAt file) b := by
    rw [hmodel]
    exact seVocabLookup_congr rfl rfl rfl
  have hlen := length_patch h
  constructor
  · exact hf.length.trans hlen.ge
  · exact hmagic.trans hf.magic
  · rw [readU32_patch h (by omega)]
    exact hf.version
  · rw [readU32_patch h (by omega)]
    exact hf.headerSize
  · rw [hmeta]
    exact hf.fields
  · rw [hsec, hlen]
    exact hf.sections
  · rw [hsec]
    exact hf.apart
  · rw [hsec, hmeta]
    exact hf.hashSize
  · rw [hsec, hmeta]
    exact hf.embeddingsSize
  · constructor
    · rw [hmodel]
      exact hf.vocab.slots
    · rw [hmodel]
      exact hf.vocab.filled
    · rw [hlookup, hmodel]
      exact hf.vocab.unk
    · intro t ht hb
      rw [hlookup]
      rw [hmodel] at ht hb ⊢
      exact hf.vocab.added t ht hb
  · rw [hmeta, hmodel]
    exact hf.probes

end MatrixPatch

/-- **The loader accepts any change of the matrix**, and has the changed vectors. -/
theorem validate_patch {m : SeModel} (h : validate file = .ok m)
    (hp : MatrixPatch file off bytes) :
    validate (patch file off bytes) = .ok
      { m with
        mapBase := patch file off bytes
        embeddings := patch m.embeddings (off - (readSections file).embeddings.off) bytes } := by
  obtain ⟨hf, root, cont, norm, hroot, hcont, hnorm, rfl⟩ := validate_eq_ok_iff.mp h
  have hfit := hp.fits hf
  obtain ⟨hmeta, hsec, -⟩ := header_patch hfit (hp.inside hf).2.1
  have hclear := fun s hs => hp.clear hf (s := s) hs
  simp only [List.forall_mem_cons] at hclear
  obtain ⟨-, -, h₄, -, h₆, h₇, -⟩ := hclear
  refine validate_eq_ok_iff.mpr ⟨hp.frontOk_patch hf, root, cont, norm, ?_, ?_, ?_, ?_⟩
  · rw [hsec, hmeta]
    exact parseTrie_patch hfit h₆ hroot
  · rw [hsec, hmeta]
    exact parseTrie_patch hfit h₇ hcont
  · rw [hsec]
    exact parseNormTables_patch hfit h₄ hnorm
  · rw [hp.vocabModelAt_patch hf]

end StaticEmbeddings
