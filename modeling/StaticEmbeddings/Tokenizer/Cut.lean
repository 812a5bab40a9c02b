import StaticEmbeddings.Tokenizer.Boundary
import StaticEmbeddings.Tokenizer.Segments

/-!
# Cutting the input

Where a byte string may be cut so that its feeds, and then its items, fall apart.

* `Enabled`, `LiteralCut`: no enabled literal straddles the cut.
* **`feeds_append`**: the feeds of `a ++ b` at a cut that neither a literal nor a code point
  straddles.
* **`feeds_last`**: what the feeds of a string that ends with `c` end with.
* `ItemsCut`; **`itemsCut_of_last`**, **`itemsCut_of_head`**: the items fall apart at a cut where a
  feed resets.
-/

namespace StaticEmbeddings

open LittleEndian

section

variable {m : SeModel} {a b bs : Bytes} {c : ℕ}

/-! ## Literals -/

/-- The literal is switched on in the model. -/
def Enabled (m : SeModel) (t : Bytes × ℕ) : Prop := t ∈ seAddedTokens ∧ m.addedTokenMask &&& t.2 ≠ 0

theorem Enabled.length_pos {t : Bytes × ℕ} (h : Enabled m t) : 0 < t.1.length := by
  have hall : ∀ t ∈ seAddedTokens, 0 < t.1.length := by decide
  exact hall t h.1

theorem Enabled.head {t : Bytes × ℕ} (h : Enabled m t) (hp : t.1 <+: bs) :
    bs[0]? = some 0x5B := by
  have hall : ∀ t ∈ seAddedTokens, t.1[0]? = some 0x5B := by decide
  obtain ⟨r, rfl⟩ := hp
  rw [List.getElem?_append_left h.length_pos, hall t h.1]

theorem Enabled.mask_ne {t : Bytes × ℕ} (h : Enabled m t) : m.addedTokenMask ≠ 0 := fun h₀ => by
  refine h.2 ?_
  rw [h₀, Nat.zero_and]

theorem literalAt_eq (m : SeModel) (bs : Bytes) : literalAt m bs =
    (seAddedTokens.find? fun t => m.addedTokenMask &&& t.2 ≠ 0 ∧ t.1 <+: bs).map fun t =>
      (addedTokenId m t.2, t.1.length) := by
  have hpre : ∀ t : Bytes × ℕ, t.1.length ≤ bs.length - 0 ∧ slice bs 0 t.1.length = t.1 ↔
      t.1 <+: bs := by
    intro t
    rw [slice, List.drop_zero, List.prefix_iff_eq_take]
    refine ⟨fun h => h.2.symm, fun h => ⟨?_, h.symm⟩⟩
    have := congrArg List.length h
    rw [List.length_take] at this
    omega
  unfold literalAt matchAddedToken
  by_cases h : m.addedTokenMask = 0 ∨ bs[0]? ≠ some 0x5B
  · rw [if_pos h, eq_comm, Option.map_eq_none_iff, List.find?_eq_none]
    intro t ht hp
    obtain ⟨hm, hp⟩ := of_decide_eq_true hp
    have he : Enabled m t := ⟨ht, hm⟩
    exact h.elim he.mask_ne fun hb => hb (he.head hp)
  · rw [if_neg h]
    refine congrArg _ (congrArg (fun f => seAddedTokens.find? f) (funext fun t => ?_))
    exact decide_eq_decide.mpr (and_congr_right fun _ => hpre t)

theorem literalAt_eq_none_iff : literalAt m bs = none ↔ ∀ t, Enabled m t → ¬ t.1 <+: bs := by
  rw [literalAt_eq, Option.map_eq_none_iff, List.find?_eq_none]
  refine ⟨fun h t ht hp => h t ht.1 (decide_eq_true ⟨ht.2, hp⟩), fun h t ht hp => ?_⟩
  obtain ⟨hm, hp⟩ := of_decide_eq_true hp
  exact h t ⟨ht, hm⟩ hp

theorem exists_enabled_of_literalAt {id len : ℕ} (h : literalAt m bs = some (id, len)) :
    ∃ t, Enabled m t ∧ t.1 <+: bs ∧ t.1.length = len := by
  rw [literalAt_eq] at h
  obtain ⟨t, ht, he⟩ := Option.map_eq_some_iff.mp h
  have hpred := List.find?_some ht
  obtain ⟨hm, hp⟩ := of_decide_eq_true hpred
  exact ⟨t, ⟨List.mem_of_find?_eq_some ht, hm⟩, hp, (Prod.mk.inj he).2⟩

/-- No enabled literal begins in `a` and ends in `b`. -/
def LiteralCut (m : SeModel) (a b : Bytes) : Prop :=
  ∀ s, s <:+ a → s ≠ [] → ∀ t, Enabled m t → t.1 <+: s ++ b → t.1.length ≤ s.length

theorem LiteralCut.suffix {a' : Bytes} (h : LiteralCut m a b) (ha : a' <:+ a) :
    LiteralCut m a' b :=
  fun s hs => h s (hs.trans ha)

theorem literalAt_append (h : LiteralCut m a b) (ha : a ≠ []) :
    literalAt m (a ++ b) = literalAt m a := by
  rw [literalAt_eq, literalAt_eq]
  congr 1
  refine List.find?_congr fun t ht => decide_eq_decide.mpr (and_congr_right fun hm => ?_)
  refine ⟨fun hp => ?_, fun hp => hp.trans (List.prefix_append a b)⟩
  exact List.prefix_of_prefix_length_le hp (List.prefix_append a b)
    (h a List.suffix_rfl ha t ⟨ht, hm⟩ hp)

/-- Where `boundary_splits_added_token` says no, no literal straddles the boundary. -/
theorem literalCut_of_boundary (ha : a ≠ []) (hb : b ≠ [])
    (h : boundarySplitsAddedToken m (a ++ b) a.length = false) : LiteralCut m a b := by
  rintro s ⟨x, rfl⟩ hs t ht hp
  by_contra hlt
  have hs := List.length_pos_iff.mpr hs
  have hb := List.length_pos_iff.mpr hb
  have hin : ¬ (m.addedTokenMask = 0 ∨ (x ++ s).length = 0 ∨
      (x ++ s).length ≥ (x ++ s ++ b).length) := by
    have := ht.mask_ne
    simp only [List.length_append]
    omega
  rw [boundarySplitsAddedToken, if_neg hin] at h
  have hall := List.any_eq_false.mp h t ht.1
  simp only [ht.2, ne_eq, not_false_eq_true, decide_true, Bool.true_and, Bool.not_eq_true] at hall
  have hback := List.any_eq_false.mp hall s.length (List.mem_range'_1.mpr (by omega))
  have hd : (x ++ s ++ b).drop x.length = s ++ b := by
    rw [List.append_assoc, List.drop_left]
  have hstart : (x ++ s).length - s.length = x.length := by
    rw [List.length_append]
    omega
  have hlen := hp.length_le
  rw [hstart] at hback
  refine hback ?_
  simp only [Bool.and_eq_true, decide_eq_true_eq, beq_iff_eq]
  refine ⟨⟨⟨?_, ?_⟩, ?_⟩, ?_⟩
  · rw [List.length_append]
    omega
  · simp only [List.length_append] at hlen ⊢
    omega
  · rw [← Nat.add_zero x.length, ← List.getElem?_drop, hd, ht.head hp]
  · rw [slice, hd, ← List.prefix_iff_eq_take.mp hp]

/-! ## Feeds -/

theorem feeds_append (hl : LiteralCut m a b) (hd : Utf8.Cut a b) : feeds m (a ++ b) =
    if (feeds m a).2 then ((feeds m a).1 ++ (feeds m b).1, (feeds m b).2) else feeds m a := by
  fun_induction feeds m a with
  | case1 => rfl
  | case2 a ha id len hlit ih =>
    have hlen : len ≤ a.length := by
      obtain ⟨t, -, hp, rfl⟩ := exists_enabled_of_literalAt hlit
      exact hp.length_le
    rw [feeds_literal ((literalAt_append hl ha).trans hlit), List.drop_append_of_le_length hlen,
      ih (hl.suffix (List.drop_suffix len a)) (hd.suffix (List.drop_suffix len a))]
    split_ifs
    · rfl
    · rfl
  | case3 a ha hlit hdec =>
    have h := hd a List.suffix_rfl ha
    rw [hdec] at h
    rw [feeds_invalid (fun h₀ => ha (List.append_eq_nil_iff.mp h₀).1)
      ((literalAt_append hl ha).trans hlit) h]
    rfl
  | case4 a ha hlit cp r hdec ih =>
    have h := hd a List.suffix_rfl ha
    rw [hdec] at h
    have hr : r <:+ a := ⟨Utf8.encode cp, (Utf8.decode?_eq_some_iff.mp hdec).2.symm⟩
    rw [feeds_decode ((literalAt_append hl ha).trans hlit) h, ih (hl.suffix hr) (hd.suffix hr)]
    split_ifs
    · rw [List.append_assoc]
    · rfl

/-- A string that ends with the code point `c`. -/
def EndsWith (a : Bytes) (c : ℕ) : Prop := Utf8.Scalar c ∧ Utf8.encode c <:+ a

theorem feeds_of_isCont {d : UInt8} (hc : Utf8.IsCont d) (bs : Bytes) :
    feeds m (d :: bs) = ([], false) := by
  have hl : literalAt m (d :: bs) = none := literalAt_of_ge fun b hb => by
    rw [List.getElem?_cons_zero, Option.some.injEq] at hb
    exact hb ▸ hc.1
  exact feeds_invalid (List.cons_ne_nil d bs) hl (Utf8.decode?_of_isCont hc bs)

/-- **The last feeds of a well-formed string that ends with `c`** are those of `c`, or it ends with
a literal. -/
theorem feeds_last (h : EndsWith a c) (hok : (feeds m a).2 = true) :
    ∃ fs, (feeds m a).1 = fs ++ (cleanedCps m c).map .cp ∨
      ∃ id, (feeds m a).1 = fs ++ [.added id] := by
  -- what is left after a prefix still ends with `c`, is empty or is malformed
  have rest : ∀ {s r : Bytes}, EndsWith (s ++ r) c → (feeds m r).2 = true → r = [] ∨ EndsWith r c := by
    rintro s r ⟨hs, x, hx⟩ hr
    obtain ⟨y, rfl, hy⟩ | ⟨y, hy, hr'⟩ := List.append_eq_append_iff.mp hx
    · cases r with
      | nil => exact .inl rfl
      | cons d r =>
        cases y with
        | nil => exact .inr ⟨hs, [], hy⟩
        | cons d' y =>
          have hcont := Utf8.isCont_of_encode_eq_append hs hy (List.cons_ne_nil _ _) d
            List.mem_cons_self
          rw [feeds_of_isCont hcont] at hr
          cases hr
    · exact .inr ⟨hs, y, hr'.symm⟩
  fun_induction feeds m a with
  | case1 =>
    obtain ⟨x, hx⟩ := h.2
    exact absurd (List.append_eq_nil_iff.mp hx).2 (Utf8.encode_ne_nil c)
  | case2 a ha id len hlit ih =>
    have h' : EndsWith (a.take len ++ a.drop len) c := by rwa [List.take_append_drop]
    obtain hr | hr := rest h' hok
    · refine ⟨[], .inr ⟨id, ?_⟩⟩
      rw [hr, feeds_nil]
      rfl
    · obtain ⟨fs, hf⟩ := ih hr hok
      refine ⟨.added id :: fs, hf.imp (fun e => ?_) fun ⟨i, e⟩ => ⟨i, ?_⟩⟩
      · rw [e]
        rfl
      · rw [e]
        rfl
  | case3 => cases hok
  | case4 a ha hlit cp r hdec ih =>
    obtain ⟨hcp, rfl⟩ := Utf8.decode?_eq_some_iff.mp hdec
    obtain rfl | hr := rest h hok
    · -- the last code point is the whole rest
      rw [List.append_nil] at h
      obtain ⟨x, hx⟩ := h.2
      have hx₀ : x = [] := by
        by_contra hn
        obtain ⟨d, t, ht, hlead, -⟩ := Utf8.encode_eq_cons h.1
        refine hlead (Utf8.isCont_of_encode_eq_append hcp hx.symm hn d ?_)
        rw [ht]
        exact List.mem_cons_self
      rw [hx₀, List.nil_append] at hx
      obtain ⟨rfl, -⟩ := Utf8.encode_append_inj h.1 hcp (congrArg (· ++ []) hx)
      refine ⟨[], .inl ?_⟩
      rw [feeds_nil, List.append_nil, List.nil_append]
    · obtain ⟨fs, hf⟩ := ih hr hok
      refine ⟨(cleanedCps m cp).map .cp ++ fs, hf.imp (fun e => ?_) fun ⟨i, e⟩ => ⟨i, ?_⟩⟩
      · rw [e, List.append_assoc]
      · rw [e, List.append_assoc]

/-! ## Items -/

/-- The items of `a ++ b` are those of `a` and then, unless `a` is malformed, those of `b`. -/
def ItemsCut (m : SeModel) (a b : Bytes) : Prop := items m (a ++ b) =
  if (items m a).2 then ((items m a).1 ++ (items m b).1, (items m b).2) else items m a

theorem items_snd (m : SeModel) (bs : Bytes) : (items m bs).2 = (feeds m bs).2 := by
  unfold items
  split_ifs with h
  · exact h.symm
  · simpa using h

/-- A malformed string ends the items. -/
theorem items_append_of_malformed (hl : LiteralCut m a b) (hd : Utf8.Cut a b)
    (h : (feeds m a).2 = false) : items m (a ++ b) = items m a := by
  have hf : feeds m (a ++ b) = feeds m a := by rw [feeds_append hl hd, if_neg (by simp [h])]
  rw [items, items, hf]

/-- **The items at a cut behind a feed that resets.** -/
theorem itemsCut_of_last (hl : LiteralCut m a b) (hd : Utf8.Cut a b)
    {e : Feed} (he : (feeds m a).2 = true → ∃ fs, (feeds m a).1 = fs ++ [e])
    (hr : (segmenter m).Resets e) : ItemsCut m a b := by
  unfold ItemsCut
  rw [items_snd m a]
  split_ifs with hok
  swap
  · exact items_append_of_malformed hl hd (by simpa using hok)
  obtain ⟨fs, he⟩ := he hok
  have hf : feeds m (a ++ b) = ((feeds m a).1 ++ (feeds m b).1, (feeds m b).2) := by
    rw [feeds_append hl hd, if_pos hok]
  have hrun := congrArg Prod.fst
    ((segmenter m).run_append [] (feeds m a).1 (feeds m b).1)
  have hstate : ((segmenter m).run [] (feeds m a).1).2 = [] := by
    rw [he, Transducer.run_append, Transducer.run_cons, hr]
    rfl
  rw [hstate] at hrun
  unfold items
  rw [hf, hok, if_pos rfl]
  split_ifs
  · refine Prod.ext ?_ rfl
    show (segmenter m).out ((feeds m a).1 ++ (feeds m b).1) = _
    rw [he, Transducer.out_append_of_last hr rfl]
  · refine Prod.ext ?_ rfl
    show ((segmenter m).run [] ((feeds m a).1 ++ (feeds m b).1)).1 = _
    rw [hrun, Transducer.out, show (segmenter m).init = [] from rfl, hstate]
    exact congrArg (· ++ _) (List.append_nil _).symm

/-- **The items at a cut before a feed that resets.** -/
theorem itemsCut_of_head (hl : LiteralCut m a b) (hd : Utf8.Cut a b)
    {fs : List Feed} {e : Feed} (he : (feeds m b).1 = e :: fs)
    (hr : (segmenter m).Resets e) : ItemsCut m a b := by
  unfold ItemsCut
  rw [items_snd m a]
  split_ifs with hok
  swap
  · exact items_append_of_malformed hl hd (by simpa using hok)
  have hf : feeds m (a ++ b) = ((feeds m a).1 ++ (feeds m b).1, (feeds m b).2) := by
    rw [feeds_append hl hd, if_pos hok]
  unfold items
  rw [hf, hok, if_pos rfl, he]
  split_ifs
  · exact Prod.ext (Transducer.out_append_of_head hr rfl _ _) rfl
  · refine Prod.ext ?_ rfl
    show ((segmenter m).run [] ((feeds m a).1 ++ e :: fs)).1 = _
    rw [Transducer.run_append, Transducer.run_cons, Transducer.run_cons, hr, Transducer.out,
      show (segmenter m).step [] e = ((segmenter m).close [] ++ _, _) from hr []]
    simp only [List.append_assoc]
    rfl

end

end StaticEmbeddings
