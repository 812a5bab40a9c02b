import StaticEmbeddings.Convert.Written
import StaticEmbeddings.Format.Patched

/-!
# The verifier

`lib/static_embeddings/format/verifier.rb`. SHA-256 is a parameter.

* `verifierCall`: the stored checksum and the one of the file with zeros in its place.
* `Sealed`: what `write_file` makes of a header without a checksum and of what follows it;
  `verifies_iff_sealed`.
* `TamperEvident`: what the verifier reports of the changes of a file, and the loader does not.
* **`verify_written`**, **`verify_tampered`**.
-/

namespace StaticEmbeddings

open LittleEndian

/-- The hash that `Verifier.call` returns. -/
structure Verified where
  ok : Bool
  expected : Bytes
  stored : Bytes
  deriving DecidableEq, Repr

/-- The file with a header whose checksum is zero; the rest is read in chunks. -/
def zeroed (file : Bytes) : Bytes :=
  patch (file.take headerSize) checksumOffset (List.replicate checksumSize 0) ++
    file.drop headerSize

/-- `Verifier.call`; the error is an `InvalidModelError`. -/
def verifierCall (sha256 : Bytes → Bytes) (file : Bytes) : Except String Verified :=
  if file.length < headerSize then .error "file too small"
  else if slice file 0 8 ≠ magic then .error "bad magic"
  else
    let stored := slice file checksumOffset checksumSize
    let actual := sha256 (zeroed file)
    .ok ⟨stored = actual, actual, stored⟩

/-- The two checksums are the same. -/
def Verifies (sha256 : Bytes → Bytes) (file : Bytes) : Prop :=
  ∃ v, verifierCall sha256 file = .ok v ∧ v.ok = true

/-- The two checksums are not the same. -/
def Reported (sha256 : Bytes → Bytes) (file : Bytes) : Prop :=
  ∃ v, verifierCall sha256 file = .ok v ∧ v.ok = false

/-- Two contents with one digest. -/
def Collides (sha256 : Bytes → Bytes) (a b : Bytes) : Prop := a ≠ b ∧ sha256 a = sha256 b

/-- A header as `build_header` leaves it: the checksum is still to come. -/
structure Unsealed (header : Bytes) : Prop where
  length : header.length = headerSize
  magic : slice header 0 8 = magic
  blank : slice header checksumOffset checksumSize = List.replicate checksumSize 0

/-- `write_file` makes the file of a header and of what follows it. -/
def Sealed (sha256 : Bytes → Bytes) (header rest file : Bytes) : Prop :=
  Unsealed header ∧ file = fileOf header rest (sha256 (header ++ rest))

/-- What `verify` reports of the changes of a file.

* `checksum`: a change of the checksum alone, whatever the digest.
* `content`: of the files with this checksum, all but this one and its collisions.
* `matrix`: a change of the matrix, which `load` takes for the vectors of the model. -/
structure TamperEvident (sha256 : Bytes → Bytes) (file : Bytes) : Prop where
  checksum : ∀ digest, digest.length = checksumSize → patch file checksumOffset digest ≠ file →
    Reported sha256 (patch file checksumOffset digest)
  content : ∀ other, slice other checksumOffset checksumSize = slice file checksumOffset checksumSize →
    (Verifies sha256 other ↔ other = file ∨ ∃ header rest, Sealed sha256 header rest other ∧
      Collides sha256 (header ++ rest) (zeroed file))
  matrix : ∀ m off bytes, validate file = .ok m → MatrixPatch file off bytes →
    patch file off bytes ≠ file →
    validate (patch file off bytes) = .ok
      { m with
        mapBase := patch file off bytes
        embeddings := patch m.embeddings (off - (readSections file).embeddings.off) bytes } ∧
    (Reported sha256 (patch file off bytes) ↔
      ¬ Collides sha256 (zeroed (patch file off bytes)) (zeroed file))

/-! ## Patches in one place -/

section

variable {bs p q : Bytes} {off : ℕ}

theorem patch_patch (hp : off + p.length ≤ bs.length) (hq : q.length = p.length) :
    patch (patch bs off p) off q = patch bs off q := by
  have hlen := length_patch hp
  apply List.ext_getElem?
  intro i
  rw [getElem?_patch (by omega), getElem?_patch hp, getElem?_patch (by omega), hq]
  split_ifs <;> rfl

theorem patch_self (h : off + p.length ≤ bs.length) (hs : slice bs off p.length = p) :
    patch bs off p = bs := by
  apply List.ext_getElem?
  intro i
  rw [getElem?_patch h]
  split_ifs with hi
  · have hget := congrArg (·[i - off]?) hs
    simp only [slice, List.getElem?_take, List.getElem?_drop] at hget
    rw [if_pos (by omega), Nat.add_sub_cancel' hi.1] at hget
    exact hget.symm
  · rfl

theorem patch_append (h : off + p.length ≤ bs.length) (rest : Bytes) :
    patch (bs ++ rest) off p = patch bs off p ++ rest := by
  unfold patch
  rw [List.take_append_of_le_length (by omega), List.drop_append_of_le_length h]
  simp only [List.append_assoc]

end

/-! ## Sealed files -/

theorem length_zeros : (List.replicate checksumSize (0 : UInt8)).length = checksumSize :=
  List.length_replicate

section

variable {sha256 : Bytes → Bytes} {header rest digest file other : Bytes}

/-- **The zeroed file is what was hashed.** -/
theorem zeroed_fileOf (hh : Unsealed header) (hd : digest.length = checksumSize) :
    zeroed (fileOf header rest digest) = header ++ rest := by
  have hfit : checksumOffset + digest.length ≤ header.length := by
    rw [hh.length, hd]
    decide
  have hlen : (patch header checksumOffset digest).length = headerSize :=
    (length_patch hfit).trans hh.length
  unfold zeroed fileOf
  rw [patch_append hfit, ← hlen, List.take_left, List.drop_left,
    patch_patch hfit (by rw [length_zeros, hd]),
    patch_self (by rw [length_zeros, hh.length]; decide) (by rw [length_zeros]; exact hh.blank)]

theorem slice_checksum_fileOf (hh : Unsealed header) (hd : digest.length = checksumSize) :
    slice (fileOf header rest digest) checksumOffset checksumSize = digest := by
  rw [fileOf, ← hd]
  refine slice_patch ?_
  rw [hd, List.length_append, hh.length]
  exact Nat.le_add_right_of_le (by decide)

theorem magic_fileOf (hh : Unsealed header) (hd : digest.length = checksumSize) :
    slice (fileOf header rest digest) 0 8 = magic := by
  rw [slice_fileOf hh.length hd (.inl (by decide)), slice_append_left (by rw [hh.length]; decide)]
  exact hh.magic

theorem verifierCall_fileOf (hh : Unsealed header) (hd : digest.length = checksumSize) :
    verifierCall sha256 (fileOf header rest digest) =
      .ok ⟨digest = sha256 (header ++ rest), sha256 (header ++ rest), digest⟩ := by
  have hlen : ¬ (fileOf header rest digest).length < headerSize := by
    rw [length_fileOf hh.length hd]
    exact not_lt.mpr (Nat.le_add_right _ _)
  unfold verifierCall
  rw [if_neg hlen, if_neg (not_not.mpr (magic_fileOf hh hd)), slice_checksum_fileOf hh hd,
    zeroed_fileOf hh hd]

theorem patch_zeroed (h : headerSize ≤ file.length) :
    patch (zeroed file) checksumOffset (slice file checksumOffset checksumSize) = file := by
  have hhead : (file.take headerSize).length = headerSize := by
    rw [List.length_take]
    exact min_eq_left h
  have hfit : checksumOffset + (List.replicate checksumSize (0 : UInt8)).length ≤
      (file.take headerSize).length := by
    rw [length_zeros, hhead]
    decide
  have hstored : (slice file checksumOffset checksumSize).length = checksumSize :=
    length_slice (le_trans (by decide) h)
  have hsame : slice (file.take headerSize) checksumOffset checksumSize =
      slice file checksumOffset checksumSize := by
    conv_rhs => rw [← List.take_append_drop headerSize file]
    refine (slice_append_left ?_).symm
    rw [hhead]
    decide
  unfold zeroed
  rw [patch_append (by rw [length_patch hfit, hstored, hhead]; decide),
    patch_patch hfit (by rw [length_zeros, hstored]),
    patch_self (by rw [hstored, hhead]; decide) (by rw [hstored, hsame]), List.take_append_drop]

/-- **A file with the magic is a header, what follows it, and a checksum.** -/
theorem exists_fileOf (h : headerSize ≤ file.length) (hm : slice file 0 8 = magic) :
    ∃ header rest, Unsealed header ∧
      file = fileOf header rest (slice file checksumOffset checksumSize) := by
  have hhead : (file.take headerSize).length = headerSize := by
    rw [List.length_take]
    exact min_eq_left h
  have hfit : checksumOffset + (List.replicate checksumSize (0 : UInt8)).length ≤
      (file.take headerSize).length := by
    rw [length_zeros, hhead]
    decide
  refine ⟨patch (file.take headerSize) checksumOffset (List.replicate checksumSize 0),
    file.drop headerSize, ⟨(length_patch hfit).trans hhead, ?_, ?_⟩, (patch_zeroed h).symm⟩
  · rw [slice_patch_of_disjoint hfit (.inl (by decide)),
      ← slice_append_left (b := file.drop headerSize) (by rw [hhead]; decide),
      List.take_append_drop]
    exact hm
  · have hslice := slice_patch hfit
    rwa [length_zeros] at hslice

/-- **The verifier accepts the files that `write_file` makes**, and no others. -/
theorem verifies_iff_sealed (hsha : ∀ bytes, (sha256 bytes).length = checksumSize) :
    Verifies sha256 file ↔ ∃ header rest, Sealed sha256 header rest file := by
  constructor
  · rintro ⟨v, hv, hok⟩
    have hcall := hv
    unfold verifierCall at hv
    split_ifs at hv with hlen hmagic
    obtain ⟨header, rest, hh, hfile⟩ := exists_fileOf (not_lt.mp hlen) (not_not.mp hmagic)
    have hd : (slice file checksumOffset checksumSize).length = checksumSize :=
      length_slice (le_trans (by decide) (not_lt.mp hlen))
    rw [hfile, verifierCall_fileOf hh hd] at hcall
    obtain rfl := Except.ok.inj hcall
    refine ⟨header, rest, hh, ?_⟩
    rw [← of_decide_eq_true hok]
    exact hfile
  · rintro ⟨header, rest, hh, rfl⟩
    exact ⟨_, verifierCall_fileOf hh (hsha _), decide_eq_true rfl⟩

namespace Sealed

variable (hsha : ∀ bytes, (sha256 bytes).length = checksumSize) (h : Sealed sha256 header rest file)

include hsha h

theorem zeroed_eq : zeroed file = header ++ rest := by
  obtain ⟨hh, rfl⟩ := h
  exact zeroed_fileOf hh (hsha _)

theorem stored_eq : slice file checksumOffset checksumSize = sha256 (zeroed file) := by
  rw [h.zeroed_eq hsha]
  obtain ⟨hh, rfl⟩ := h
  exact slice_checksum_fileOf hh (hsha _)

theorem checksum_changed (hd : digest.length = checksumSize)
    (hne : patch file checksumOffset digest ≠ file) :
    Reported sha256 (patch file checksumOffset digest) := by
  obtain ⟨hh, hfile⟩ := h
  have hfit : checksumOffset + (sha256 (header ++ rest)).length ≤ (header ++ rest).length := by
    rw [hsha, List.length_append, hh.length]
    exact Nat.le_add_right_of_le (by decide)
  have hpatch : patch file checksumOffset digest = fileOf header rest digest := by
    rw [hfile]
    exact patch_patch hfit (hd.trans (hsha _).symm)
  rw [hpatch] at hne ⊢
  refine ⟨_, verifierCall_fileOf hh hd, decide_eq_false ?_⟩
  rintro rfl
  exact hne hfile.symm

theorem content_changed (hlen : headerSize ≤ other.length) (hmagic : slice other 0 8 = magic)
    (hsame : slice other checksumOffset checksumSize = slice file checksumOffset checksumSize)
    (hne : other ≠ file) :
    Reported sha256 other ↔ ¬ Collides sha256 (zeroed other) (zeroed file) := by
  obtain ⟨header', rest', hh, hother⟩ := exists_fileOf hlen hmagic
  have hd : (slice other checksumOffset checksumSize).length = checksumSize := by
    rw [hsame, h.stored_eq hsha]
    exact hsha _
  have hcall := @verifierCall_fileOf sha256 header' rest' _ hh hd
  have hzero := @zeroed_fileOf header' rest' _ hh hd
  rw [← hother, hsame, h.stored_eq hsha] at hcall
  rw [← hother] at hzero
  have hdiff : zeroed other ≠ zeroed file := by
    intro he
    apply hne
    have hfile : headerSize ≤ file.length := by
      rw [h.2, length_fileOf h.1.length (hsha _)]
      exact Nat.le_add_right _ _
    rw [← patch_zeroed hlen, ← patch_zeroed hfile, he, hsame]
  rw [hzero] at hdiff ⊢
  unfold Reported Collides
  rw [hcall]
  constructor
  · rintro ⟨v, hv, hok⟩ ⟨-, hcollide⟩
    obtain rfl := Except.ok.inj hv
    exact of_decide_eq_false hok hcollide.symm
  · intro hno
    exact ⟨_, rfl, decide_eq_false fun he => hno ⟨hdiff, he.symm⟩⟩

theorem content_verifies
    (hsame : slice other checksumOffset checksumSize = slice file checksumOffset checksumSize) :
    Verifies sha256 other ↔ other = file ∨ ∃ header' rest', Sealed sha256 header' rest' other ∧
      Collides sha256 (header' ++ rest') (zeroed file) := by
  rw [verifies_iff_sealed hsha]
  constructor
  · rintro ⟨header', rest', h'⟩
    have hdigest : sha256 (header' ++ rest') = sha256 (zeroed file) := by
      rw [← h'.zeroed_eq hsha, ← h'.stored_eq hsha, ← h.stored_eq hsha, hsame]
    by_cases he : header' ++ rest' = header ++ rest
    · refine .inl ?_
      rw [h'.2, h.2, fileOf, fileOf, he]
    · refine .inr ⟨header', rest', h', ?_, hdigest⟩
      rwa [h.zeroed_eq hsha]
  · rintro (rfl | ⟨header', rest', h', -⟩)
    · exact ⟨header, rest, h⟩
    · exact ⟨header', rest', h'⟩

theorem tamperEvident : TamperEvident sha256 file where
  checksum := fun _ hd hne => h.checksum_changed hsha hd hne
  content := fun _ hsame => h.content_verifies hsha hsame
  matrix := by
    intro m off bytes hm hp hne
    have hf := (validate_eq_ok_iff.mp hm).1
    have hfit := hp.fits hf
    have hoff := (hp.inside hf).2.1
    refine ⟨validate_patch hm hp, h.content_changed hsha ?_ ?_ ?_ hne⟩
    · rw [length_patch hfit]
      exact hf.length
    · rw [slice_patch_of_disjoint hfit (.inl (by omega)), h.2]
      exact magic_fileOf h.1 (hsha _)
    · exact slice_patch_of_disjoint hfit (.inl (le_trans (by decide) hoff))

end Sealed

end

/-! ## Written files -/

section

variable {sha256 : Bytes → Bytes} {fmt : FormatMeta} {tokens : List Bytes} {matrix : Payload}
  {normTables provenance file : Bytes}

theorem unsealed_writtenHeader {vocabSize hashSize maxProbe : ℕ} {sections : List (ℕ × ℕ)}
    (hp : fmt.subwordPrefix.length ≤ 8) (hs : sections.length = 7) :
    Unsealed (writtenHeader fmt vocabSize hashSize maxProbe sections) := by
  have hspans := @headerPatches_spans fmt vocabSize hashSize maxProbe sections hp hs
  have hinside := headerSpans_apart.2
  rw [← hspans, List.forall_mem_map] at hinside
  have hblank : (List.replicate headerSize (0 : UInt8)).length = headerSize := List.length_replicate
  obtain ⟨hlength, hholds⟩ := @writtenHeader_spec fmt vocabSize hashSize maxProbe sections hp hs
  refine ⟨hlength, (hholds (0, magic) ?_).1, ?_⟩
  · exact List.mem_append_left _ (List.mem_append_left _ List.mem_cons_self)
  · unfold writtenHeader storeAll
    rw [slice_foldl_patch_of_disjoint]
    · decide
    · intro q hq
      rw [hblank]
      exact (hinside q hq).1
    · intro q hq
      exact (hinside q hq).2.symm

theorem sealed_of_writerCall
    (hwrite : writerCall sha256 fmt tokens matrix normTables provenance = .ok file) :
    ∃ header rest, Sealed sha256 header rest file := by
  obtain ⟨hash, tries, -, -, sections, hsections, hfits, rest, -, header, hheader, hfile⟩ :=
    writerCall_eq_ok_iff.mp hwrite
  have h7 : sections.length = 7 := by
    rw [hsections]
    rfl
  exact ⟨header, rest, hheader ▸ unsealed_writtenHeader hfits.subword h7, hfile⟩

/-- **Every written file verifies.** -/
theorem verify_written (hsha : ∀ bytes, (sha256 bytes).length = checksumSize)
    (hwrite : writerCall sha256 fmt tokens matrix normTables provenance = .ok file) :
    Verifies sha256 file :=
  (verifies_iff_sealed hsha).mpr (sealed_of_writerCall hwrite)

/-- **`verify` accepts what `write_file` makes and nothing else**, and reports every change of a
written file that keeps the checksum or the content, short of a collision. -/
theorem verify_tampered (hsha : ∀ bytes, (sha256 bytes).length = checksumSize)
    (hwrite : writerCall sha256 fmt tokens matrix normTables provenance = .ok file) :
    (∀ other, Verifies sha256 other ↔ ∃ header rest, Sealed sha256 header rest other) ∧
      Verifies sha256 file ∧ TamperEvident sha256 file := by
  obtain ⟨header, rest, h⟩ := sealed_of_writerCall hwrite
  exact ⟨fun _ => verifies_iff_sealed hsha, verify_written hsha hwrite, h.tamperEvident hsha⟩

/-- With another digest the same file is written, but for its checksum. -/
theorem writerCall_reseal (hwrite : writerCall (fun _ => List.replicate checksumSize 0) fmt tokens
    matrix normTables provenance = .ok file) (sha256 : Bytes → Bytes) :
    writerCall sha256 fmt tokens matrix normTables provenance =
      .ok (patch file checksumOffset (sha256 file)) := by
  obtain ⟨hash, tries, hhash, htries, sections, hsections, hfits, rest, hrest, header, hheader,
    hfile⟩ := writerCall_eq_ok_iff.mp hwrite
  have h7 : sections.length = 7 := by
    rw [hsections]
    rfl
  have hh : Unsealed header := hheader ▸ unsealed_writtenHeader hfits.subword h7
  have hblank : slice (header ++ rest) checksumOffset (List.replicate checksumSize (0 : UInt8)).length =
      List.replicate checksumSize 0 := by
    rw [length_zeros, slice_append_left (by rw [hh.length]; decide)]
    exact hh.blank
  have hsame : file = header ++ rest := by
    rw [hfile, fileOf, patch_self ?_ hblank]
    rw [length_zeros, List.length_append, hh.length]
    exact Nat.le_add_right_of_le (by decide)
  rw [hsame]
  exact writerCall_eq_ok_iff.mpr ⟨hash, tries, hhash, htries, sections, hsections, hfits, rest,
    hrest, header, hheader, rfl⟩

end

/-! ## A small file -/

/-- The sum of the bytes, for a digest that tells small changes apart. -/
def sampleDigest (bytes : Bytes) : Bytes :=
  List.replicate 28 0 ++ le32 (bytes.map UInt8.toNat).sum

theorem length_sampleDigest (bytes : Bytes) : (sampleDigest bytes).length = checksumSize := rfl

/-- The small file, with the sum of its bytes for a checksum. -/
def sampleSealed : Bytes := patch sampleFile checksumOffset (sampleDigest sampleFile)

theorem validate_sampleSealed : validate sampleSealed = .ok (loadedModel sampleSealed) :=
  validate_eq_loadedModel (by decide +kernel)

/-- One bit of a vector: the file still loads, and `verify` reports it. -/
theorem verify_tampered_sample :
    (∃ m, validate (patch sampleSealed 512 [1]) = .ok m ∧ m.embeddings.head? = some 1) ∧
      Verifies sampleDigest sampleSealed ∧ Reported sampleDigest (patch sampleSealed 512 [1]) := by
  obtain ⟨-, hverifies, h⟩ := verify_tampered length_sampleDigest
    (writerCall_reseal writerCall_sampleFile sampleDigest)
  obtain ⟨hload, hreport⟩ := h.matrix _ 512 [1] validate_sampleSealed
    ⟨by decide +kernel, by decide +kernel⟩ (by decide +kernel)
  refine ⟨⟨_, hload, by decide +kernel⟩, hverifies, hreport.mpr fun hcollides => ?_⟩
  exact absurd hcollides.2 (by decide +kernel)

end StaticEmbeddings
