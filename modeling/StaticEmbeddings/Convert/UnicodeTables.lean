import Mathlib.Data.Nat.Digits.Defs
import StaticEmbeddings.Format.Packed
import StaticEmbeddings.Format.Readers
import StaticEmbeddings.Lib.RangeSet

/-!
# Unicode tables

`lib/static_embeddings/unicode_tables.rb`. The database of the Ruby runtime is a parameter.

* `Category`, `UnicodeDatabase`: what the script asks of a code point.
* `UnicodeTables.build`, `UnicodeTables.pack`.
* `buildLoop_eq`: the tables as sets and maps; `normTablesAt_pack`: they are read back.
* **`unicode_tables_survive`**: the loader accepts them, and every lookup returns what the database
  says.
-/

namespace StaticEmbeddings

open LittleEndian

/-! ## The database -/

/-- The general categories that the script matches; `p` is any category of punctuation. -/
inductive Category
  | mn | p | cc | cf | co | zs | other
  deriving DecidableEq, Repr

/-- The Unicode data of the Ruby runtime: `\p{…}`, `downcase` and `unicode_normalize(:nfd)` on a
string of one code point. -/
structure UnicodeDatabase where
  category : ℕ → Category
  downcase : ℕ → List ℕ
  nfd : ℕ → List ℕ

namespace UnicodeDatabase

/-- `RE_MN`. -/
def isMn (db : UnicodeDatabase) (cp : ℕ) : Bool := db.category cp = .mn

/-- `RE_PUNCT`. -/
def isPunct (db : UnicodeDatabase) (cp : ℕ) : Bool := db.category cp = .p

/-- `RE_CONTROL`. -/
def isControl (db : UnicodeDatabase) (cp : ℕ) : Bool :=
  db.category cp = .cc ∨ db.category cp = .cf ∨ db.category cp = .co

/-- `RE_WHITESPACE`. -/
def isWhitespace (db : UnicodeDatabase) (cp : ℕ) : Bool :=
  db.category cp = .zs ∨ cp = 0x85 ∨ cp = 0x2028 ∨ cp = 0x2029

end UnicodeDatabase

/-! ## The script -/

/-- `MAP_SCAN_LIMIT`. -/
abbrev mapScanLimit : ℕ := 0x2FFFF

/-- `CODESPACE_LIMIT`. -/
abbrev codespaceLimit : ℕ := 0x10FFFF

/-- `SURROGATES.cover?`. -/
def isSurrogate (cp : ℕ) : Bool := 0xD800 ≤ cp ∧ cp ≤ 0xDFFF

/-- The hash that `build` returns. -/
structure UnicodeTables where
  lower : List (ℕ × List ℕ)
  nfd : List (ℕ × List ℕ)
  mn : List (ℕ × ℕ)
  punct : List (ℕ × ℕ)
  control : List (ℕ × ℕ)
  whitespace : List (ℕ × ℕ)
  deriving DecidableEq, Repr

namespace UnicodeTables

/-- A code point in the loop of `build`. -/
def buildStep (db : UnicodeDatabase) (t : UnicodeTables) (cp : ℕ) : UnicodeTables :=
  if isSurrogate cp then { t with control := RangeSet.add t.control cp }
  else
    let t := { t with
      mn := if db.isMn cp then RangeSet.add t.mn cp else t.mn
      punct := if db.isPunct cp then RangeSet.add t.punct cp else t.punct
      control := if db.isControl cp then RangeSet.add t.control cp else t.control
      whitespace := if db.isWhitespace cp then RangeSet.add t.whitespace cp else t.whitespace }
    if cp > mapScanLimit then t
    else
      { t with
        lower := if db.downcase cp ≠ [cp] then t.lower ++ [(cp, db.downcase cp)] else t.lower
        nfd := if db.nfd cp ≠ [cp] then t.nfd ++ [(cp, db.nfd cp)] else t.nfd }

/-- The loop of `build` over the code points below `n`. -/
def buildLoop (db : UnicodeDatabase) (n : ℕ) : UnicodeTables :=
  (List.range n).foldl (buildStep db) ⟨[], [], [], [], [], []⟩

/-- `format('%04X', …)`. -/
def hex4 (n : ℕ) : String :=
  let digits := (Nat.digits 16 n).reverse.map fun d => if d < 10 then d + 0x30 else d + 0x37
  String.ofList ((List.replicate (4 - digits.length) 0x30 ++ digits).map Char.ofNat)

/-- The check of a mapping table. -/
def checkMapping (name : String) (table : List (ℕ × List ℕ)) : Except String Unit :=
  match table.find? fun e => e.2.length > 4 with
  | none => .ok ()
  | some (cp, out) => .error s!"{name} mapping for U+{hex4 cp} needs {out.length} slots"

/-- `build`. -/
def build (db : UnicodeDatabase) : Except String UnicodeTables := do
  let t := buildLoop db (codespaceLimit + 1)
  checkMapping "lowercase" t.lower
  checkMapping "NFD" t.nfd
  return t

/-- `sort_by(&:first)`. -/
def sortByFirst {α : Type} (table : List (ℕ × α)) : List (ℕ × α) :=
  table.mergeSort fun a b => a.1 ≤ b.1

/-- An entry of a mapping table. -/
def packEntry (e : ℕ × List ℕ) : Bytes :=
  ([e.1, e.2.length] ++ (e.2 ++ List.replicate (4 - e.2.length) 0).take 4).flatMap le32

/-- A range of a set. -/
def packRange (r : ℕ × ℕ) : Bytes := le32 r.1 ++ le32 r.2

/-- `pack`. -/
def pack (t : UnicodeTables) : Bytes :=
  [t.lower.length, t.nfd.length, t.mn.length, t.punct.length, t.control.length,
    t.whitespace.length, 0, 0].flatMap le32 ++
    ((sortByFirst t.lower).flatMap packEntry ++ ((sortByFirst t.nfd).flatMap packEntry ++
      ((sortByFirst t.mn).flatMap packRange ++ ((sortByFirst t.punct).flatMap packRange ++
        ((sortByFirst t.control).flatMap packRange ++
          (sortByFirst t.whitespace).flatMap packRange)))))

/-! ## The loop -/

/-- The code points that have an entry. -/
def mapped (f : ℕ → List ℕ) (cp : ℕ) : Bool :=
  !isSurrogate cp && cp ≤ mapScanLimit && f cp ≠ [cp]

/-- The entries of a mapping on the code points below `n`. -/
def mappingBelow (f : ℕ → List ℕ) (n : ℕ) : List (ℕ × List ℕ) :=
  ((List.range n).filter (mapped f)).map fun cp => (cp, f cp)

theorem mappingBelow_succ (f : ℕ → List ℕ) (n : ℕ) : mappingBelow f (n + 1) =
    if mapped f n then mappingBelow f n ++ [(n, f n)] else mappingBelow f n := by
  unfold mappingBelow
  rw [List.range_succ, List.filter_append, List.map_append]
  split_ifs with h
  · rw [List.filter_cons_of_pos h]
    rfl
  · rw [List.filter_cons_of_neg h]
    exact List.append_nil _

/-- **The tables as sets and maps.** -/
theorem buildLoop_eq (db : UnicodeDatabase) (n : ℕ) : buildLoop db n =
    { lower := mappingBelow db.downcase n
      nfd := mappingBelow db.nfd n
      mn := RangeSet.ofPred (fun cp => !isSurrogate cp && db.isMn cp) n
      punct := RangeSet.ofPred (fun cp => !isSurrogate cp && db.isPunct cp) n
      control := RangeSet.ofPred (fun cp => isSurrogate cp || db.isControl cp) n
      whitespace := RangeSet.ofPred (fun cp => !isSurrogate cp && db.isWhitespace cp) n } := by
  induction n with
  | zero => rfl
  | succ n ih =>
    have hstep : buildLoop db (n + 1) = buildStep db (buildLoop db n) n := by
      unfold buildLoop
      rw [List.range_succ, List.foldl_append, List.foldl_cons, List.foldl_nil]
    rw [hstep, ih, buildStep]
    simp only [RangeSet.ofPred_succ, mappingBelow_succ]
    by_cases hs : isSurrogate n = true
    · simp [mapped, hs]
    · rw [Bool.not_eq_true] at hs
      by_cases hl : n > mapScanLimit
      · simp [mapped, hs, hl]
      · simp [mapped, hs, hl, not_lt.mp hl]

/-! ## Reading back -/

/-- A packed entry as the loader sees it. -/
def toEntry (e : ℕ × List ℕ) : SeMapEntry where
  cp := e.1
  len := e.2.length
  out := (e.2 ++ List.replicate (4 - e.2.length) 0).take 4

/-- A packed range as the loader sees it. -/
def toRange (r : ℕ × ℕ) : SeRange := ⟨r.1, r.2⟩

theorem length_padded (out : List ℕ) :
    ((out ++ List.replicate (4 - out.length) 0).take 4).length = 4 := by
  rw [List.length_take, List.length_append, List.length_replicate]
  omega

theorem length_packEntry (e : ℕ × List ℕ) : (packEntry e).length = 24 := by
  rw [packEntry, length_flatMap_const length_le32, List.length_append, length_padded]
  rfl

theorem length_packRange (r : ℕ × ℕ) : (packRange r).length = 8 := rfl

/-- The words of an entry fit. -/
structure EntryFits (e : ℕ × List ℕ) : Prop where
  cp : e.1 < 2 ^ 32
  length : e.2.length < 2 ^ 32
  out : ∀ c ∈ e.2, c < 2 ^ 32

variable {base : Bytes} {off : ℕ}

theorem read_packEntry {e : ℕ × List ℕ} (he : EntryFits e) (h : Holds base off (packEntry e)) :
    SeMapEntry.read base off = toEntry e := by
  have hout : ∀ c ∈ (e.2 ++ List.replicate (4 - e.2.length) 0).take 4, c < 2 ^ 32 := by
    intro c hc
    rcases List.mem_append.mp (List.mem_of_mem_take hc) with hc | hc
    · exact he.out c hc
    · rw [List.eq_of_mem_replicate hc]
      exact Nat.two_pow_pos 32
  unfold SeMapEntry.read toEntry
  unfold packEntry at h
  obtain ⟨c₀, c₁, c₂, c₃, hpad⟩ := List.length_eq_four.mp (length_padded e.2)
  rw [hpad] at h hout ⊢
  obtain ⟨h₀, h⟩ := h.append (a := le32 e.1)
  obtain ⟨h₁, h⟩ := h.append (a := le32 e.2.length)
  obtain ⟨h₂, h⟩ := h.append (a := le32 c₀)
  obtain ⟨h₃, h⟩ := h.append (a := le32 c₁)
  obtain ⟨h₄, h⟩ := h.append (a := le32 c₂)
  obtain ⟨h₅, -⟩ := h.append (a := le32 c₃)
  rw [h₀.readU32 he.cp]
  simp only [length_le32, Nat.add_assoc, Nat.reduceAdd] at h₁ h₂ h₃ h₄ h₅
  rw [h₁.readU32 he.length, h₂.readU32 (hout c₀ (by simp)), h₃.readU32 (hout c₁ (by simp)),
    h₄.readU32 (hout c₂ (by simp)), h₅.readU32 (hout c₃ (by simp))]

theorem read_packRange {r : ℕ × ℕ} (h₁ : r.1 < 2 ^ 32) (h₂ : r.2 < 2 ^ 32)
    (h : Holds base off (packRange r)) : SeRange.read base off = toRange r := by
  obtain ⟨hlo, hhi⟩ := Holds.append h
  unfold SeRange.read toRange
  rw [hlo.readU32 h₁]
  rw [length_le32] at hhi
  rw [hhi.readU32 h₂]

/-- The words of all tables fit, and the tables are sorted. -/
structure Packable (t : UnicodeTables) : Prop where
  lower : ∀ e ∈ t.lower, EntryFits e
  nfd : ∀ e ∈ t.nfd, EntryFits e
  ranges : ∀ r ∈ t.mn ++ t.punct ++ t.control ++ t.whitespace, r.1 < 2 ^ 32 ∧ r.2 < 2 ^ 32
  counts : ∀ n ∈ [t.lower.length, t.nfd.length, t.mn.length, t.punct.length, t.control.length,
    t.whitespace.length], n < 2 ^ 32
  sorted_lower : t.lower.Pairwise fun a b => a.1 ≤ b.1
  sorted_nfd : t.nfd.Pairwise fun a b => a.1 ≤ b.1
  sorted_mn : t.mn.Pairwise fun a b => a.1 ≤ b.1
  sorted_punct : t.punct.Pairwise fun a b => a.1 ≤ b.1
  sorted_control : t.control.Pairwise fun a b => a.1 ≤ b.1
  sorted_whitespace : t.whitespace.Pairwise fun a b => a.1 ≤ b.1

theorem sortByFirst_eq {α : Type} {table : List (ℕ × α)}
    (h : table.Pairwise fun a b => a.1 ≤ b.1) : sortByFirst table = table :=
  List.mergeSort_of_pairwise (h.imp fun hab => decide_eq_true hab)

/-- The tables as the loader sees them. -/
def toNormTables (t : UnicodeTables) : SeNormTables :=
  prepareNormFastTables (t.lower.map toEntry) (t.nfd.map toEntry) (t.mn.map toRange)
    (t.punct.map toRange) (t.control.map toRange) (t.whitespace.map toRange)

/-- **Packed tables are read back.** -/
theorem normTablesAt_pack {t : UnicodeTables} (ht : t.Packable) (h : Holds base off t.pack) :
    normTablesAt base off = t.toNormTables ∧ normTablesSize base off = t.pack.length := by
  unfold pack at h ⊢
  rw [sortByFirst_eq ht.sorted_lower, sortByFirst_eq ht.sorted_nfd, sortByFirst_eq ht.sorted_mn,
    sortByFirst_eq ht.sorted_punct, sortByFirst_eq ht.sorted_control,
    sortByFirst_eq ht.sorted_whitespace] at h ⊢
  obtain ⟨hhead, h⟩ := h.append
  obtain ⟨hlower, h⟩ := h.append
  obtain ⟨hnfd, h⟩ := h.append
  obtain ⟨hmn, h⟩ := h.append
  obtain ⟨hpunct, h⟩ := h.append
  obtain ⟨hcontrol, hwhitespace⟩ := h.append
  have hranges := ht.ranges
  simp only [List.mem_append] at hranges
  -- the counts
  obtain ⟨h₀, hhead⟩ := hhead.append (a := le32 t.lower.length)
  obtain ⟨h₁, hhead⟩ := hhead.append (a := le32 t.nfd.length)
  obtain ⟨h₂, hhead⟩ := hhead.append (a := le32 t.mn.length)
  obtain ⟨h₃, hhead⟩ := hhead.append (a := le32 t.punct.length)
  obtain ⟨h₄, hhead⟩ := hhead.append (a := le32 t.control.length)
  obtain ⟨h₅, -⟩ := hhead.append (a := le32 t.whitespace.length)
  simp only [length_le32, Nat.add_assoc, Nat.reduceAdd] at h₁ h₂ h₃ h₄ h₅
  have hc := ht.counts
  have c₀ := h₀.readU32 (hc _ (by simp))
  have c₁ := h₁.readU32 (hc _ (by simp))
  have c₂ := h₂.readU32 (hc _ (by simp))
  have c₃ := h₃.readU32 (hc _ (by simp))
  have c₄ := h₄.readU32 (hc _ (by simp))
  have c₅ := h₅.readU32 (hc _ (by simp))
  -- the tables
  have hentry := fun (xs : List (ℕ × List ℕ)) (hx : ∀ e ∈ xs, EntryFits e) (o : ℕ)
      (hh : Holds base o (xs.flatMap packEntry)) =>
    hh.recordsAt_map length_packEntry fun e he _ => read_packEntry (hx e he)
  have hrange := fun (xs : List (ℕ × ℕ)) (hx : ∀ r ∈ xs, r.1 < 2 ^ 32 ∧ r.2 < 2 ^ 32) (o : ℕ)
      (hh : Holds base o (xs.flatMap packRange)) =>
    hh.recordsAt_map length_packRange fun r hr _ => read_packRange (hx r hr).1 (hx r hr).2
  have t₀ := hentry _ ht.lower _ hlower
  have t₁ := hentry _ ht.nfd _ hnfd
  have t₂ := hrange _ (fun r hr => hranges r (.inl (.inl (.inl hr)))) _ hmn
  have t₃ := hrange _ (fun r hr => hranges r (.inl (.inl (.inr hr)))) _ hpunct
  have t₄ := hrange _ (fun r hr => hranges r (.inl (.inr hr))) _ hcontrol
  have t₅ := hrange _ (fun r hr => hranges r (.inr hr)) _ hwhitespace
  have hhl : ∀ xs : List ℕ, (xs.flatMap le32).length = xs.length * 4 :=
    fun xs => (length_flatMap_const length_le32 xs).trans (Nat.mul_comm _ _)
  have hel : ∀ xs : List (ℕ × List ℕ), (xs.flatMap packEntry).length = xs.length * 24 :=
    fun xs => (length_flatMap_const length_packEntry xs).trans (Nat.mul_comm _ _)
  have hrl : ∀ xs : List (ℕ × ℕ), (xs.flatMap packRange).length = xs.length * 8 :=
    fun xs => (length_flatMap_const length_packRange xs).trans (Nat.mul_comm _ _)
  simp only [hhl, hel, hrl, List.length_cons, List.length_nil, Nat.zero_add, Nat.reduceAdd,
    Nat.reduceMul] at t₀ t₁ t₂ t₃ t₄ t₅
  constructor
  · unfold normTablesAt toNormTables
    simp only [Nat.mul_zero, Nat.add_zero, Nat.mul_one, Nat.reduceMul, c₀, c₁, c₂, c₃, c₄, c₅, t₀,
      t₁, t₂, t₃, t₄, t₅]
  · unfold normTablesSize
    simp only [Nat.mul_zero, Nat.add_zero, Nat.mul_one, Nat.reduceMul, c₀, c₁, c₂, c₃, c₄, c₅,
      List.length_append, hhl, hel, hrl, List.length_cons, List.length_nil]
    omega

/-! ## What the tables contain -/

/-- A mapping that the file format can hold: at most four scalar values for each, and nothing above
`MAP_SCAN_LIMIT`. -/
structure MappingFits (f : ℕ → List ℕ) : Prop where
  length_le : ∀ cp, validUnicodeCodepoint cp → (f cp).length ≤ 4
  scalar : ∀ cp, validUnicodeCodepoint cp → ∀ c ∈ f cp, validUnicodeCodepoint c
  identity : ∀ cp, validUnicodeCodepoint cp → mapScanLimit < cp → f cp = [cp]

section Contents

variable {f : ℕ → List ℕ} {p : ℕ → Bool} {cp n : ℕ}

theorem validUnicodeCodepoint_iff : validUnicodeCodepoint cp ↔
    cp < codespaceLimit + 1 ∧ isSurrogate cp = false := by
  unfold validUnicodeCodepoint isSurrogate
  rw [decide_eq_false_iff_not, Nat.lt_succ_iff]

theorem mem_mappingBelow {out : List ℕ} :
    (cp, out) ∈ mappingBelow f n ↔ cp < n ∧ mapped f cp = true ∧ out = f cp := by
  unfold mappingBelow
  simp only [List.mem_map, List.mem_filter, List.mem_range, Prod.mk.injEq]
  constructor
  · rintro ⟨c, ⟨hc, hm⟩, rfl, rfl⟩
    exact ⟨hc, hm, rfl⟩
  · rintro ⟨hc, hm, rfl⟩
    exact ⟨cp, ⟨hc, hm⟩, rfl, rfl⟩

theorem valid_of_mapped (h : mapped f cp = true) : validUnicodeCodepoint cp := by
  unfold mapped at h
  simp only [Bool.and_eq_true, Bool.not_eq_true', decide_eq_true_eq] at h
  refine validUnicodeCodepoint_iff.mpr ⟨?_, h.1.1⟩
  have := h.1.2
  unfold mapScanLimit at this
  unfold codespaceLimit
  omega

theorem pairwise_mappingBelow : (mappingBelow f n).Pairwise fun a b => a.1 < b.1 := by
  unfold mappingBelow
  rw [List.pairwise_map]
  exact List.pairwise_lt_range.filter _

theorem normMapOk_mappingBelow (hf : MappingFits f) :
    NormMapOk ((mappingBelow f n).map toEntry) := by
  constructor
  · intro e he
    obtain ⟨⟨cp, out⟩, hmem, rfl⟩ := List.mem_map.mp he
    obtain ⟨-, hm, rfl⟩ := mem_mappingBelow.mp hmem
    exact hf.length_le cp (valid_of_mapped hm)
  · intro e he
    obtain ⟨⟨cp, out⟩, hmem, rfl⟩ := List.mem_map.mp he
    exact valid_of_mapped (mem_mappingBelow.mp hmem).2.1
  · intro e he c hc
    obtain ⟨⟨cp, out⟩, hmem, rfl⟩ := List.mem_map.mp he
    obtain ⟨-, hm, rfl⟩ := mem_mappingBelow.mp hmem
    have hlen := hf.length_le cp (valid_of_mapped hm)
    unfold toEntry at hc
    dsimp only at hc
    rw [List.take_take, min_eq_left hlen, List.take_left] at hc
    exact hf.scalar cp (valid_of_mapped hm) c hc
  · rw [List.pairwise_map]
    exact pairwise_mappingBelow

theorem normRangesOk_ofPred (h : ∀ r ∈ RangeSet.ofPred p n, validUnicodeCodepoint r.2) :
    NormRangesOk ((RangeSet.ofPred p n).map toRange) := by
  have hasc := RangeSet.ascending_ofPred p n
  constructor
  · intro r hr
    obtain ⟨r, hmem, rfl⟩ := List.mem_map.mp hr
    exact h r hmem
  · intro r hr
    obtain ⟨r, hmem, rfl⟩ := List.mem_map.mp hr
    exact hasc.le r hmem
  · rw [List.pairwise_map]
    exact hasc.apart.imp fun hab => Nat.lt_of_succ_lt hab

theorem valid_of_scalars (hN : n = codespaceLimit + 1) {r : ℕ × ℕ}
    (hr : r ∈ RangeSet.ofPred (fun cp => !isSurrogate cp && p cp) n) :
    validUnicodeCodepoint r.2 := by
  have hlast := RangeSet.ofPred_last hr
  rw [Bool.and_eq_true, Bool.not_eq_true'] at hlast
  exact validUnicodeCodepoint_iff.mpr ⟨hN ▸ (RangeSet.ascending_ofPred _ n).lt r hr, hlast.1⟩

/-- The surrogates do not end a range if U+E000 goes on with it. -/
theorem valid_of_private (hN : n = codespaceLimit + 1) (hp : p 0xE000 = true) {r : ℕ × ℕ}
    (hr : r ∈ RangeSet.ofPred (fun cp => isSurrogate cp || p cp) n) :
    validUnicodeCodepoint r.2 := by
  refine validUnicodeCodepoint_iff.mpr ⟨hN ▸ (RangeSet.ascending_ofPred _ n).lt r hr, ?_⟩
  rw [Bool.eq_false_iff]
  intro hs
  unfold isSurrogate at hs
  rw [decide_eq_true_eq] at hs
  have hnext := RangeSet.ofPred_maximal hr (by rw [hN]; unfold codespaceLimit; omega)
  rw [Bool.or_eq_false_iff] at hnext
  by_cases he : r.2 = 0xDFFF
  · rw [he, hp] at hnext
    exact absurd hnext.2 (by decide)
  · have hsur : isSurrogate (r.2 + 1) = true := by
      unfold isSurrogate
      rw [decide_eq_true_eq]
      omega
    rw [hsur] at hnext
    exact absurd hnext.1 (by decide)

theorem inRanges_ofPred (hcp : cp < n) :
    inRanges ((RangeSet.ofPred p n).map toRange) cp = p cp := by
  rw [Bool.eq_iff_iff, inRanges, List.any_map, List.any_eq_true]
  have hmem := @RangeSet.mem_ofPred n cp p
  rw [← and_iff_right (a := cp < n) (b := p cp = true) hcp, ← hmem]
  refine exists_congr fun r => and_congr_right fun _ => ?_
  rw [Function.comp_apply, Bool.and_eq_true]
  exact and_congr decide_eq_true_iff decide_eq_true_iff

theorem entryOf_mappingBelow (hcp : cp < n) : entryOf ((mappingBelow f n).map toEntry) cp =
    if mapped f cp then some (toEntry (cp, f cp)) else none := by
  unfold entryOf
  split_ifs with hm
  · cases hfind : ((mappingBelow f n).map toEntry).find? (·.cp = cp) with
    | none =>
      rw [List.find?_eq_none] at hfind
      refine absurd ?_ (hfind (toEntry (cp, f cp))
        (List.mem_map_of_mem (mem_mappingBelow.mpr ⟨hcp, hm, rfl⟩)))
      exact decide_eq_true rfl
    | some e =>
      obtain ⟨⟨c, out⟩, hmem, rfl⟩ := List.mem_map.mp (List.mem_of_find?_eq_some hfind)
      have hdec := List.find?_some hfind
      have hc : c = cp := of_decide_eq_true hdec
      rw [(mem_mappingBelow.mp hmem).2.2, hc]
  · rw [List.find?_eq_none]
    intro e he hc
    obtain ⟨⟨c, out⟩, hmem, rfl⟩ := List.mem_map.mp he
    have hc' : c = cp := of_decide_eq_true hc
    rw [← hc'] at hm
    exact hm (mem_mappingBelow.mp hmem).2.1

/-- What a lookup should return. -/
def assigned (f : ℕ → List ℕ) (cp : ℕ) : Option SeMapEntry :=
  if f cp = [cp] then none else some (toEntry (cp, f cp))

theorem entryOf_assigned (hf : MappingFits f) (hcp : validUnicodeCodepoint cp)
    (hN : n = codespaceLimit + 1) :
    entryOf ((mappingBelow f n).map toEntry) cp = assigned f cp := by
  obtain ⟨hlt, hs⟩ := validUnicodeCodepoint_iff.mp hcp
  rw [← hN] at hlt
  rw [entryOf_mappingBelow hlt, assigned, mapped, hs]
  by_cases hid : f cp = [cp]
  · simp [hid]
  · have hle : cp ≤ mapScanLimit := by
      by_contra hgt
      exact hid (hf.identity cp hcp (not_le.mp hgt))
    simp [hid, hle]

end Contents

/-! ## Acceptance -/

section Acceptance

variable {db : UnicodeDatabase} {f : ℕ → List ℕ}

theorem checkMapping_mappingBelow (hf : MappingFits f) (name : String) (n : ℕ) :
    checkMapping name (mappingBelow f n) = .ok () := by
  unfold checkMapping
  have hnone : (mappingBelow f n).find? (fun e => e.2.length > 4) = none := by
    rw [List.find?_eq_none]
    rintro ⟨cp, out⟩ hmem hgt
    obtain ⟨-, hm, rfl⟩ := mem_mappingBelow.mp hmem
    exact absurd (hf.length_le cp (valid_of_mapped hm)) (not_le.mpr (of_decide_eq_true hgt))
  rw [hnone]

theorem build_eq_ok (hd : MappingFits db.downcase) (hn : MappingFits db.nfd) :
    build db = .ok (buildLoop db (codespaceLimit + 1)) := by
  unfold build
  rw [buildLoop_eq]
  dsimp only
  rw [checkMapping_mappingBelow hd, checkMapping_mappingBelow hn]
  rfl

theorem entryFits_mappingBelow (hf : MappingFits f) {n : ℕ} :
    ∀ e ∈ mappingBelow f n, EntryFits e := by
  rintro ⟨cp, out⟩ hmem
  obtain ⟨-, hm, rfl⟩ := mem_mappingBelow.mp hmem
  have hcp := valid_of_mapped hm
  refine ⟨?_, ?_, fun c hc => ?_⟩
  · have := hcp.1
    dsimp only
    omega
  · have := hf.length_le cp hcp
    dsimp only
    omega
  · have := (hf.scalar cp hcp c hc).1
    omega

theorem length_mappingBelow_le (f : ℕ → List ℕ) (n : ℕ) : (mappingBelow f n).length ≤ n := by
  unfold mappingBelow
  rw [List.length_map]
  exact (List.length_filter_le _ _).trans_eq List.length_range

variable {n : ℕ}

theorem packable_buildLoop (hd : MappingFits db.downcase) (hn : MappingFits db.nfd)
    (hN : n = codespaceLimit + 1) : (buildLoop db n).Packable := by
  have hlimit : n < 2 ^ 32 := by rw [hN]; decide
  have hrange : ∀ p : ℕ → Bool, ∀ r ∈ RangeSet.ofPred p n, r.1 < 2 ^ 32 ∧ r.2 < 2 ^ 32 := by
    intro p r hr
    have hle := (RangeSet.ascending_ofPred p n).le r hr
    have hlt := (RangeSet.ascending_ofPred p n).lt r hr
    exact ⟨(hle.trans_lt hlt).trans hlimit, hlt.trans hlimit⟩
  have hsorted : ∀ p : ℕ → Bool, (RangeSet.ofPred p n).Pairwise fun a b => a.1 ≤ b.1 := by
    intro p
    have hasc := RangeSet.ascending_ofPred p n
    refine hasc.apart.imp_of_mem fun {a b} ha _ hab => ?_
    have := hasc.le a ha
    omega
  have hlen : ∀ p : ℕ → Bool, (RangeSet.ofPred p n).length < 2 ^ 32 := fun p =>
    (RangeSet.length_ofPred_le p n).trans_lt hlimit
  have hmlen : ∀ f : ℕ → List ℕ, (mappingBelow f n).length < 2 ^ 32 := fun f =>
    (length_mappingBelow_le f n).trans_lt hlimit
  rw [buildLoop_eq]
  constructor
  · exact entryFits_mappingBelow hd
  · exact entryFits_mappingBelow hn
  · intro r hr
    simp only [List.mem_append] at hr
    rcases hr with ((hr | hr) | hr) | hr
    · exact hrange _ r hr
    · exact hrange _ r hr
    · exact hrange _ r hr
    · exact hrange _ r hr
  · simp only [List.forall_mem_cons, List.not_mem_nil, false_imp_iff, implies_true, and_true]
    exact ⟨hmlen _, hmlen _, hlen _, hlen _, hlen _, hlen _⟩
  · exact pairwise_mappingBelow.imp fun hab => hab.le
  · exact pairwise_mappingBelow.imp fun hab => hab.le
  · exact hsorted _
  · exact hsorted _
  · exact hsorted _
  · exact hsorted _

theorem normTablesOk_buildLoop (hd : MappingFits db.downcase) (hn : MappingFits db.nfd)
    (hc : db.isControl 0xE000 = true) (hN : n = codespaceLimit + 1) :
    NormTablesOk (buildLoop db n).toNormTables := by
  rw [buildLoop_eq]
  exact {
    lower := normMapOk_mappingBelow hd
    nfd := normMapOk_mappingBelow hn
    mn := normRangesOk_ofPred fun _ => valid_of_scalars hN
    punct := normRangesOk_ofPred fun _ => valid_of_scalars hN
    control := normRangesOk_ofPred fun _ => valid_of_private hN hc
    whitespace := normRangesOk_ofPred fun _ => valid_of_scalars hN
    fast := rfl }

/-- The lookups of a model return what a database says; the classes of ASCII are not looked up. -/
structure LooksUp (m : SeModel) (db : UnicodeDatabase) (cp : ℕ) : Prop where
  whitespace : 0x80 ≤ cp → isWhitespace? m cp = some (db.isWhitespace cp)
  punct : 0x80 ≤ cp → isPunct? m cp = some (db.isPunct cp)
  control : 0x80 ≤ cp → isControl? m cp = some (db.isControl cp)
  mn : isMn? m cp = some (db.isMn cp)
  lower : lowerEntryOf? m cp = some (assigned db.downcase cp)
  nfd : nfdEntryOf? m cp = some (assigned db.nfd cp)

variable {cp : ℕ}

theorem tableContains?_ofPred {p : ℕ → Bool} (hcp : cp < n)
    (h : NormRangesOk ((RangeSet.ofPred p n).map toRange)) :
    tableContains? (fillRange256 ((RangeSet.ofPred p n).map toRange))
      ((RangeSet.ofPred p n).map toRange) cp = some (p cp) := by
  rw [tableContains?_eq h, inRanges_ofPred hcp]

theorem tableEntryOf?_mappingBelow (hf : MappingFits f) (hcp : validUnicodeCodepoint cp)
    (hN : n = codespaceLimit + 1) :
    tableEntryOf? (fillMap256 ((mappingBelow f n).map toEntry)) ((mappingBelow f n).map toEntry)
      cp = some (assigned f cp) := by
  rw [tableEntryOf?_eq (normMapOk_mappingBelow hf), entryOf_assigned hf hcp hN]

theorem looksUp_buildLoop (hd : MappingFits db.downcase) (hn : MappingFits db.nfd)
    (hc : db.isControl 0xE000 = true) (hN : n = codespaceLimit + 1) {m : SeModel}
    (hm : m.norm = (buildLoop db n).toNormTables) (hcp : validUnicodeCodepoint cp) :
    LooksUp m db cp := by
  obtain ⟨hlt, hs⟩ := validUnicodeCodepoint_iff.mp hcp
  rw [← hN] at hlt
  have hok := normTablesOk_buildLoop hd hn hc hN
  rw [buildLoop_eq] at hm hok
  constructor
  · intro hlow
    rw [isWhitespace?, if_neg (not_lt.mpr hlow), hm]
    exact (tableContains?_ofPred hlt hok.whitespace).trans (by rw [hs]; rfl)
  · intro hlow
    rw [isPunct?, if_neg (not_lt.mpr hlow), hm]
    exact (tableContains?_ofPred hlt hok.punct).trans (by rw [hs]; rfl)
  · intro hlow
    rw [isControl?, if_neg (not_lt.mpr hlow), hm]
    exact (tableContains?_ofPred hlt hok.control).trans (by rw [hs]; rfl)
  · rw [isMn?, hm]
    exact (tableContains?_ofPred hlt hok.mn).trans (by rw [hs]; rfl)
  · rw [lowerEntryOf?, hm]
    exact tableEntryOf?_mappingBelow hd hcp hN
  · rw [nfdEntryOf?, hm]
    exact tableEntryOf?_mappingBelow hn hcp hN

end Acceptance

/-! ## The fast tables -/

/-- A 256-entry table, the binary search and membership give one answer. -/
def SetAgrees (table256 : List Bool) (ranges : List SeRange) : Prop :=
  ∀ cp < 256, table256[cp]? = some (inRanges ranges cp) ∧
    seRangeContains? ranges cp = some (inRanges ranges cp)

/-- The same for a mapping. -/
def MapAgrees (table256 : List (Option SeMapEntry)) (entries : List SeMapEntry) : Prop :=
  ∀ cp < 256, table256[cp]? = some (entryOf entries cp) ∧
    seMapLookup? entries cp = some (entryOf entries cp)

/-- All tables of a section agree. -/
structure FastAgrees (norm : SeNormTables) : Prop where
  whitespace : SetAgrees norm.whitespace256 norm.whitespace
  punct : SetAgrees norm.punct256 norm.punct
  control : SetAgrees norm.control256 norm.control
  mn : SetAgrees norm.mn256 norm.mn
  lower : MapAgrees norm.lower256 norm.lower
  nfd : MapAgrees norm.nfd256 norm.nfd

theorem setAgrees_fill {ranges : List SeRange} (h : NormRangesOk ranges) :
    SetAgrees (fillRange256 ranges) ranges :=
  fun _ hcp => ⟨getElem?_fillRange256 hcp, seRangeContains?_eq h⟩

theorem mapAgrees_fill {entries : List SeMapEntry} (h : NormMapOk entries) :
    MapAgrees (fillMap256 entries) entries :=
  fun _ hcp => ⟨getElem?_fillMap256 h.sorted hcp, seMapLookup?_eq h⟩

theorem fastAgrees_of_ok {norm : SeNormTables} (h : NormTablesOk norm) : FastAgrees norm := by
  have hf := h.fast
  constructor
  · rw [congrArg SeNormTables.whitespace256 hf]
    exact setAgrees_fill h.whitespace
  · rw [congrArg SeNormTables.punct256 hf]
    exact setAgrees_fill h.punct
  · rw [congrArg SeNormTables.control256 hf]
    exact setAgrees_fill h.control
  · rw [congrArg SeNormTables.mn256 hf]
    exact setAgrees_fill h.mn
  · rw [congrArg SeNormTables.lower256 hf]
    exact mapAgrees_fill h.lower
  · rw [congrArg SeNormTables.nfd256 hf]
    exact mapAgrees_fill h.nfd

end UnicodeTables

open UnicodeTables in
/-- **Unicode tables survive the file**, and the fast tables of every accepted section agree with the
searches. -/
theorem unicode_tables_survive (db : UnicodeDatabase) (hd : MappingFits db.downcase)
    (hn : MappingFits db.nfd) (hc : db.isControl 0xE000 = true) :
    (∃ t, UnicodeTables.build db = .ok t ∧ ∀ base sec, sec.size = t.pack.length →
      Holds base sec.off t.pack → ∃ norm, parseNormTables base sec = .ok norm ∧
        ∀ m : SeModel, m.norm = norm → ∀ cp, validUnicodeCodepoint cp → LooksUp m db cp) ∧
    ∀ base sec norm, parseNormTables base sec = .ok norm → FastAgrees norm := by
  refine ⟨⟨_, build_eq_ok hd hn, fun base sec hsize hholds => ?_⟩, fun base sec norm h => ?_⟩
  · obtain ⟨hat, hlen⟩ := normTablesAt_pack (packable_buildLoop hd hn rfl) hholds
    refine ⟨_, parseNormTables_eq_ok_iff.mpr
      ⟨normTablesOk_buildLoop hd hn hc rfl, .inr ⟨hsize.trans hlen.symm, hat.symm⟩⟩, ?_⟩
    intro m hm cp hcp
    exact looksUp_buildLoop hd hn hc rfl hm hcp
  · exact fastAgrees_of_ok (parseNormTables_eq_ok_iff.mp h).1

/-- `À`, its accent, and the private use area. -/
def sampleDatabase : UnicodeDatabase where
  category cp := if cp = 0x300 then .mn else if 0xE000 ≤ cp ∧ cp ≤ 0xF8FF then .co else .other
  downcase cp := if cp = 0xC0 then [0xE0] else [cp]
  nfd cp := if cp = 0xC0 then [0x41, 0x300] else if cp = 0xE0 then [0x61, 0x300] else [cp]

open UnicodeTables in
theorem mappingFits_sampleDatabase :
    MappingFits sampleDatabase.downcase ∧ MappingFits sampleDatabase.nfd := by
  constructor
  · constructor <;> intro cp hcp <;> unfold sampleDatabase <;> dsimp only <;> split_ifs with h
    · decide
    · exact (by decide : 1 ≤ 4)
    · simp [validUnicodeCodepoint]
    · simpa using hcp
    · exact fun hgt => absurd hgt (by rw [h]; decide)
    · exact fun _ => rfl
  · constructor <;> intro cp hcp <;> unfold sampleDatabase <;> dsimp only <;> split_ifs with h h'
    · decide
    · decide
    · exact (by decide : 1 ≤ 4)
    · simp [validUnicodeCodepoint]
    · simp [validUnicodeCodepoint]
    · simpa using hcp
    · exact fun hgt => absurd hgt (by rw [h]; decide)
    · exact fun hgt => absurd hgt (by rw [h']; decide)
    · exact fun _ => rfl

open UnicodeTables in
theorem unicode_tables_survive_sample :
    (∃ t, UnicodeTables.build sampleDatabase = .ok t ∧ ∀ base sec, sec.size = t.pack.length →
      Holds base sec.off t.pack → ∃ norm, parseNormTables base sec = .ok norm ∧
        ∀ m : SeModel, m.norm = norm → ∀ cp, validUnicodeCodepoint cp →
          LooksUp m sampleDatabase cp) ∧
    ∀ base sec norm, parseNormTables base sec = .ok norm → FastAgrees norm :=
  unicode_tables_survive sampleDatabase mappingFits_sampleDatabase.1 mappingFits_sampleDatabase.2
    (by decide)

end StaticEmbeddings
