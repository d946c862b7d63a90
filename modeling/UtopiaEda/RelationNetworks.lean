import UtopiaEda.ComparisonLimits

/-!
# The networks of relations

Every relation is one comparison of the operands, in one order or the other. The networks exist for
the widths that the 16-bit counters of the comparison reach.
-/
namespace UtopiaEda.Synthesizer

open List
open Option (bind_eq_bind bind_eq_none_iff bind_eq_some_iff bind_some some.inj)
open SubnetBuilder BitOrder

variable {s s' s'' : SubnetBuilder} {ins outs : List EntryID} {fuel n m p q nA nB : ℕ}
  {A B A' B' P links : List Link} {l lA lB : Link} {F F₁ F₂ F₃ G : (EntryID → ℕ → Bool) → Bool}
  {a b W : (EntryID → ℕ → Bool) → ℕ → Bool}

/-- The first output is the relation, the others are zero. -/
def relation (R : (ℕ → Bool) → Bool) (x : ℕ → Bool) (j : ℕ) : Bool := decide (j = 0) && R x

theorem makeRelation_eq {R : (ℕ → Bool) → Bool} (h : HasInputs s n)
    (hs : Enlarged (.range' 0 n) [] s s') (hl : s'.Computes l F) (outWidth : UInt32)
    (hR : ∀ (ρ : EntryID → ℕ → Bool) (x : ℕ → Bool), (∀ i < n, ρ i 0 = x i) → F ρ = R x) :
    ∃ S, makeRelation s' l outWidth = some S ∧ S.Implements n (max 1 outWidth.toNat)
    (relation R) := by
  have hdrawn : Drawn s' n [] (fun ρ _ => F ρ) := h.drawn.enlarge hs
  obtain ⟨s₁, outs, hadd, hlen, -, hdrawn₁⟩ := hdrawn.addOutputs (Spells.singleton hl)
  obtain ⟨⟨s₁', o⟩, hout, hrest⟩ :=
    bind_eq_some_iff.mp (show (s'.addOutput l).bind _ = _ from hadd)
  obtain rfl := some.inj hrest
  change outs.length = 1 at hlen
  simp only [ite_self] at hdrawn₁
  have hcounts := hdrawn₁.counts
  simp only [Prod.mk.injEq, hlen] at hcounts
  unfold makeRelation
  rw [bind_eq_bind, hout, bind_some]
  unfold extendOutput
  simp only [hcounts.2]
  by_cases hle : outWidth.toNat ≤ 1
  · rw [if_pos hle, Nat.max_eq_left hle]
    obtain ⟨S, hS, himp⟩ := hdrawn₁.make (f := relation R) (by omega) (fun ρ x hx j hj => by
      have hj0 : j = 0 := by omega
      rw [relation, hj0, decide_eq_true rfl, Bool.true_and]
      exact hR ρ x hx)
    rw [hlen] at himp
    exact ⟨S, hS, himp⟩
  · obtain ⟨s₂, zero, hzero, h₂, hs₂, hcz⟩ := hdrawn₁.enlarged.addConstant false
    have hdrawn₂ := hdrawn₁.enlarge hs₂
    obtain ⟨s₃, outs₃, hadd₃, hlen₃, -, hdrawn₃⟩ :=
      hdrawn₂.addOutputs (Spells.replicate (n := outWidth.toNat - 1) hcz)
    have hlen₃ : outs₃.length = max 1 outWidth.toNat := by omega
    obtain ⟨S, hS, himp⟩ := hdrawn₃.make (f := relation R) (by omega) (fun ρ x hx j hj => by
      rw [relation, hlen]
      by_cases hj0 : j = 0
      · rw [hj0, if_pos Nat.one_pos, decide_eq_true rfl, Bool.true_and]
        exact hR ρ x hx
      · rw [if_neg (by omega), decide_eq_false hj0, Bool.false_and])
    rw [hlen₃] at himp
    refine ⟨S, ?_, himp⟩
    have hcounts₂ := hdrawn₂.counts
    simp only [Prod.mk.injEq, hlen] at hcounts₂
    rw [if_neg hle]
    simp only [Bool.false_and, Bool.false_eq_true, if_false] at hzero ⊢
    simp only [hzero, bind_eq_bind, bind_some, hcounts₂.2, hadd₃]
    exact hS

/-! ### Words of the same length -/

theorem int32_eq (hn : n < 2 ^ 31) : int32 n = n := by
  apply Int.bmod_eq_of_le
  · norm_num
  · norm_num
    omega

theorem fillBySignum_eq (hA : A.length = p) (hB : B.length = q) (hp : p < 2 ^ 30) (hq : q < 2 ^ 30)
    (hdelta : max p q - min p q < 2 ^ 16) (hfuel : max p q < fuel) :
    fillBySignum fuel A lA B lB =
    some (A ++ .replicate (max p q - p) lA, B ++ .replicate (max p q - q) lB) := by
  have hcount : ∀ l : Link, countLinks (fun _ => some l) (max p q - min p q) fuel 0 =
      some (.replicate (max p q - min p q) l) := by
    intro l
    have hzero : (0 : UInt16).toNat = 0 := rfl
    rw [countLinks_eq (g := fun _ => l) hdelta (fun _ _ _ => rfl) (by omega), hzero, Nat.sub_zero,
      map_const', length_range']
  have habs : (int32 A.length - int32 B.length).natAbs = max p q - min p q := by
    rw [hA, hB, int32_eq (by omega), int32_eq (by omega)]
    omega
  unfold fillBySignum
  simp only [habs, hcount, bind_eq_bind, bind_some]
  rw [hA, hB]
  rw [if_neg (by omega)]
  by_cases hlt : q < p
  · rw [if_pos hlt, Nat.max_eq_left (Nat.le_of_lt hlt), Nat.min_eq_right (Nat.le_of_lt hlt),
      Nat.sub_self, replicate_zero, append_nil]
  · have hle := Nat.not_lt.mp hlt
    rw [if_neg hlt, Nat.max_eq_right hle, Nat.min_eq_left hle, Nat.sub_self, replicate_zero,
      append_nil]

theorem fillBySignum_length (h : fillBySignum fuel A lA B lB = some (A', B')) :
    max A.length B.length ≤ max A'.length B'.length := by
  unfold fillBySignum at h
  simp only at h
  split at h
  · cases h
  · split at h
    · obtain ⟨signs, -, heq⟩ := bind_eq_some_iff.mp h
      obtain ⟨rfl, rfl⟩ := Prod.mk.inj (some.inj heq)
      rw [length_append]
      omega
    · obtain ⟨signs, -, heq⟩ := bind_eq_some_iff.mp h
      obtain ⟨rfl, rfl⟩ := Prod.mk.inj (some.inj heq)
      rw [length_append]
      omega

theorem fillBySignum_none (hA : A.length = p) (hB : B.length = q) (hp : p < 2 ^ 30)
    (hq : q < 2 ^ 30) (hdelta : 2 ^ 16 ≤ max p q - min p q) : fillBySignum fuel A lA B lB =
    none := by
  have habs : (int32 A.length - int32 B.length).natAbs = max p q - min p q := by
    rw [hA, hB, int32_eq (by omega), int32_eq (by omega)]
    omega
  unfold fillBySignum
  simp only [habs, countLinks_none hdelta, bind_eq_bind, Option.bind_none, ite_self]

/-! ### Relations -/

theorem generateSignedComparison_eq (h : Enlarged ins outs s s') (hm : s'.Computes l F)
    (hA : s'.Computes lA F₁) (hB : s'.Computes lB F₂) :
    ∃ s'' l', generateSignedComparison l lA lB s' = some (s'', l') ∧ Enlarged ins outs s' s'' ∧
      s''.Computes l' (fun ρ => (!F₁ ρ && F₂ ρ) || ((F₁ ρ == F₂ ρ) && F ρ)) := by
  obtain ⟨s₁, l₁, hadd₁, h₁, hs₁, hl₁⟩ := h.addAnd hm hB
  obtain ⟨s₂, l₂, hadd₂, h₂, hs₂, hl₂⟩ := h₁.addAnd (hm.mono hs₁) (hA.mono hs₁).not
  obtain ⟨s₃, l₃, hadd₃, h₃, hs₃, hl₃⟩ :=
    h₂.addAnd ((hA.mono hs₁).mono hs₂).not ((hB.mono hs₁).mono hs₂)
  obtain ⟨s₄, l₄, hadd₄, h₄, hs₄, hl₄⟩ := h₃.addTreeOf (t := .OR)
    (.cons ((hl₁.mono hs₂).mono hs₃) (.cons (hl₂.mono hs₃) (.cons hl₃ .nil))) rfl (Nat.le_refl 2)
  refine ⟨s₄, l₄, ?_, hs₁.trans (hs₂.trans (hs₃.trans hs₄)), hl₄.congr (fun ρ => ?_)⟩
  · unfold generateSignedComparison
    simp only [hadd₁, hadd₂, hadd₃, hadd₄, bind_eq_bind, bind_some]
  · simp only [gateFunction, CellTypeID.eval, map_cons, map_nil, any_cons, any_nil, id_eq,
      Bool.or_false]
    cases F ρ <;> cases F₁ ρ <;> cases F₂ ρ <;> rfl

theorem agree_of_propagates {ρ : EntryID → ℕ → Bool} :
    decide (∀ i < n, xor true (xor (a ρ i) (b ρ i)) = true) = agree (a ρ) (b ρ) n 0 := by
  rw [agree, decide_eq_decide]
  apply forall_congr'
  intro i
  apply forall_congr'
  intro _
  simp

theorem agree_of_no_propagate {ρ : EntryID → ℕ → Bool} :
    (!decide (∃ i < n, xor false (xor (a ρ i) (b ρ i)) = true)) = agree (a ρ) (b ρ) n 0 := by
  rw [agree, ← decide_not, decide_eq_decide, not_exists]
  apply forall_congr'
  intro i
  rw [not_and]
  apply forall_congr'
  intro _
  simp

variable {outWidth : UInt32}

theorem moreU_eq (first last : ℕ) (outWidth : UInt32) (h : HasInputs s n) (hA : first + p ≤ n)
    (hB : last + q ≤ n) (hn : n ≤ 2 ^ 18) (hpos : 0 < p) (hzero : 0 < q ∨ p = 1)
    (hlt : max p q ≤ 2 ^ 16) (hfuel : max p q < fuel) :
    ∃ S, ((generateComparison fuel (inputsFrom first p) (inputsFrom last q) s false).bind
        (fun r => makeRelation r.1 r.2.1 outWidth)) = some S ∧
        (S.FitsLimits ↔ outWidth.toNat ≤ 2 ^ 20) ∧
      S.Implements n (max 1 outWidth.toNat) (relation (fun x =>
        decide ((inputWord x last q).toNat < (inputWord x first p).toNat))) := by
  obtain ⟨s₁, more, P, hrun, hs₁, hmore, -⟩ :=
    generateComparison_eq (d := 1) (.refl h.grown) false rfl
    (h.spells_zeroExtended first p hA) (h.spells_zeroExtended last q hB) hpos hzero (by omega) hfuel
    (fun ρ i hge _ => if_neg (Nat.not_lt.mpr hge)) (fun ρ i hge _ => if_neg (Nat.not_lt.mpr hge))
  obtain ⟨S, hS, himp⟩ := makeRelation_eq h hs₁ hmore outWidth
    (R := fun x => decide ((inputWord x last q).toNat < (inputWord x first p).toNat))
    (fun ρ x hx => by
    rw [← exceeds_toNat _ _ (Nat.le_max_left p q) (Nat.le_max_right p q)]
    exact exceeds_congr (fun i _ => zeroExtended_eq hx hA) (fun i _ => zeroExtended_eq hx hB))
  have hgates := (generateComparison_gates hrun).1
  rw [inputsFrom_length, inputsFrom_length] at hgates
  refine ⟨S, ?_, makeRelation_fits h hs₁ hmore.1 hgates (by omega) (by omega) hS, himp⟩
  rw [hrun]
  exact hS

theorem moreEqualU_eq (first last : ℕ) (outWidth : UInt32) (h : HasInputs s n) (hA : first + p ≤ n)
    (hB : last + q ≤ n) (hn : n ≤ 2 ^ 18) (hpos : 0 < p) (hlt : max p q < 2 ^ 16)
    (hfuel : max p q < fuel) : ∃ S,
    ((generateComparison fuel (inputsFrom first p) (inputsFrom last q) s true).bind (fun r => do
        let (s, equal) ← addAll r.1 r.2.2
        let (s, link) ← s.addCell .OR [equal, r.2.1]
        makeRelation s link outWidth)) = some S ∧ (S.FitsLimits ↔ outWidth.toNat ≤ 2 ^ 20) ∧
      S.Implements n (max 1 outWidth.toNat) (relation (fun x =>
        decide ((inputWord x last q).toNat ≤ (inputWord x first p).toNat))) := by
  obtain ⟨s₁, more, P, hrun, hs₁, hmore, hP⟩ :=
    generateComparison_eq (d := 0) (.refl h.grown) true rfl
    (h.spells_zeroExtended first p hA)
    (h.spells_zeroExtended last q hB) hpos (.inl (Nat.zero_le q)) hlt hfuel
    (fun ρ i hge _ => if_neg (Nat.not_lt.mpr hge)) (fun ρ i hge _ => if_neg (Nat.not_lt.mpr hge))
  simp only [Nat.sub_zero, Nat.zero_add] at hP
  obtain ⟨s₂, equal, hall, hs₂, heq⟩ := addAll_eq hs₁ hP (by omega)
  obtain ⟨s₃, l, hor, -, hs₃, hl⟩ := (hs₁.trans hs₂).addOr heq (hmore.mono hs₂)
  obtain ⟨S, hS, himp⟩ := makeRelation_eq h (hs₁.trans (hs₂.trans hs₃)) hl outWidth
    (R := fun x => decide ((inputWord x last q).toNat ≤ (inputWord x first p).toNat))
    (fun ρ x hx => by
    have hword : ∀ i, zeroExtended first p ρ i = (inputWord x first p).getLsbD i :=
    fun i => zeroExtended_eq hx hA
    have hword' : ∀ i, zeroExtended last q ρ i = (inputWord x last q).getLsbD i :=
    fun i => zeroExtended_eq hx hB
    rw [agree_of_propagates, exceeds_congr (fun i _ => hword i) (fun i _ => hword' i),
      agree_congr (fun i _ => hword i) (fun i _ => hword' i),
      exceeds_toNat _ _ (Nat.le_max_left p q) (Nat.le_max_right p q),
      agree_toNat _ _ (Nat.le_max_left p q) (Nat.le_max_right p q), Bool.eq_iff_iff,
      Bool.or_eq_true, decide_eq_true_iff, decide_eq_true_iff, decide_eq_true_iff]
    omega)
  obtain ⟨hgates, hlen⟩ := generateComparison_gates hrun
  rw [inputsFrom_length, inputsFrom_length] at hgates hlen
  have hrest := (addAll_gates hall).trans (Gates.addCell (by decide) hor (Nat.le_refl 2))
  refine ⟨S, ?_, makeRelation_fits h (hs₁.trans (hs₂.trans hs₃)) hl.1 (hgates.trans hrest)
    (by omega) (by omega) hS, himp⟩
  rw [hrun, bind_some]
  simp only [hall, hor, bind_eq_bind, bind_some]
  exact hS

/-- The operand without its sign, filled up with signs. -/
def filled (first p m : ℕ) : List Link :=
  inputsFrom first (p - 1) ++ .replicate (m - (p - 1)) ⟨first + (p - 1), 0, false⟩

private theorem toInt_signExtend {first : ℕ} {x : ℕ → Bool} (hm : p ≤ m + 1) :
    ((inputWord x first p).signExtend (m + 1)).toInt = (inputWord x first p).toInt :=
  BitVec.toInt_signExtend_of_le hm

private theorem filled_length {first : ℕ} (hp : 0 < p) (hm : p ≤ m + 1) :
    (filled first p m).length = m := by
  rw [filled, length_append, inputsFrom_length, length_replicate]
  omega

theorem moreS_eq (first last : ℕ) (outWidth : UInt32) (h : HasInputs s n) (hA : first + p ≤ n)
    (hB : last + q ≤ n) (hn : n ≤ 2 ^ 18) (hp : 0 < p) (hq : 0 < q) (hm : max p q = m + 1)
    (hpos : 0 < m) (hlt : m ≤ 2 ^ 16) (hfuel : m < fuel) :
    ∃ S, ((generateComparison fuel (filled first p m) (filled last q m) s false).bind (fun r => do
        let (s, link) ← generateSignedComparison r.2.1 ⟨first + (p - 1), 0, false⟩
          ⟨last + (q - 1), 0, false⟩ r.1
        makeRelation s link outWidth)) = some S ∧ (S.FitsLimits ↔ outWidth.toNat ≤ 2 ^ 20) ∧
      S.Implements n (max 1 outWidth.toNat) (relation (fun x =>
        decide ((inputWord x last q).toInt < (inputWord x first p).toInt))) := by
  rw [← Nat.max_self m] at hfuel
  obtain ⟨s₁, more, P, hrun, hs₁, hmore, -⟩ :=
    generateComparison_eq (d := 1) (.refl h.grown) false rfl
    (h.spells_signs hp hA (m := m) (by omega))
    (h.spells_signs hq hB (m := m) (by omega)) hpos (.inl hpos)
    (by omega) hfuel (fun ρ i hge hi => absurd hi (Nat.not_lt.mpr hge))
    (fun ρ i hge hi => absurd hi (Nat.not_lt.mpr hge))
  obtain ⟨s₂, l, hadd, hs₂, hl⟩ :=
    generateSignedComparison_eq hs₁ hmore ((h.computes_sign hp hA (m := m) (by omega)).mono hs₁)
    ((h.computes_sign hq hB (m := m) (by omega)).mono hs₁)
  obtain ⟨S, hS, himp⟩ := makeRelation_eq h (hs₁.trans hs₂) hl outWidth
    (R := fun x => decide ((inputWord x last q).toInt < (inputWord x first p).toInt))
    (fun ρ x hx => by
    have hword : ∀ i < m + 1, signExtended first p ρ i =
    ((inputWord x first p).signExtend (m + 1)).getLsbD i :=
      fun i hi => signExtended_eq hx hA hp hi
    have hword' : ∀ i < m + 1, signExtended last q ρ i =
    ((inputWord x last q).signExtend (m + 1)).getLsbD i :=
      fun i hi => signExtended_eq hx hB hq hi
    rw [← toInt_signExtend (p := p) (m := m) (by omega), ← toInt_signExtend (p := q) (m := m)
    (by omega), ← exceeds_toInt,
      hword m (Nat.lt_succ_self m), hword' m (Nat.lt_succ_self m), Nat.max_self,
      exceeds_congr (fun i hi => hword i (Nat.lt_succ_of_lt hi))
      (fun i hi => hword' i (Nat.lt_succ_of_lt hi))])
  have hfill : ∀ first p, filled first p m =
      inputsFrom first (p - 1) ++ .replicate (m - (p - 1)) ⟨first + (p - 1), 0, false⟩ :=
      fun _ _ => rfl
  rw [← hfill, ← hfill] at hrun
  have hgates := (generateComparison_gates hrun).1
  rw [filled_length hp (by omega), filled_length hq (by omega), Nat.max_self] at hgates
  refine ⟨S, ?_, makeRelation_fits h (hs₁.trans hs₂) hl.1
    (hgates.trans (generateSignedComparison_gates hadd)) (by omega) (by omega) hS, himp⟩
  rw [hrun, bind_some]
  simp only [hadd, bind_eq_bind, bind_some]
  exact hS

theorem moreEqualS_eq (first last : ℕ) (outWidth : UInt32) (h : HasInputs s n) (hA : first + p ≤ n)
    (hB : last + q ≤ n) (hn : n ≤ 2 ^ 18) (hp : 0 < p) (hq : 0 < q) (hm : max p q = m + 1)
    (hpos : 0 < m) (hlt : m < 2 ^ 16) (hfuel : m < fuel) :
    ∃ S, ((generateComparison fuel (filled first p m) (filled last q m) s true).bind (fun r => do
        let (s, differ) ← r.1.addCell .XOR [⟨first + (p - 1), 0, false⟩, ⟨last + (q - 1), 0, false⟩]
        let (s, equal) ← addAll s (r.2.2 ++ [differ.not])
        let (s, more) ← generateSignedComparison r.2.1 ⟨first + (p - 1), 0, false⟩
          ⟨last + (q - 1), 0, false⟩ s
        let (s, link) ← s.addCell .OR [equal, more]
        makeRelation s link outWidth)) = some S ∧ (S.FitsLimits ↔ outWidth.toNat ≤ 2 ^ 20) ∧
      S.Implements n (max 1 outWidth.toNat) (relation (fun x =>
        decide ((inputWord x last q).toInt ≤ (inputWord x first p).toInt))) := by
  rw [← Nat.max_self m] at hfuel
  obtain ⟨s₁, more, P, hrun, hs₁, hmore, hP⟩ :=
    generateComparison_eq (d := 0) (.refl h.grown) true rfl
    (h.spells_signs hp hA (m := m) (by omega))
    (h.spells_signs hq hB (m := m) (by omega)) hpos (.inl (Nat.zero_le m))
    (by omega) hfuel (fun ρ i hge hi => absurd hi (Nat.not_lt.mpr hge))
    (fun ρ i hge hi => absurd hi (Nat.not_lt.mpr hge))
  simp only [Nat.max_self, Nat.sub_zero, Nat.zero_add] at hP
  have hsignA := (h.computes_sign hp hA (m := m) (by omega)).mono hs₁
  have hsignB := (h.computes_sign hq hB (m := m) (by omega)).mono hs₁
  obtain ⟨s₂, differ, hxor, h₂, hs₂, hdiffer⟩ := hs₁.addXor hsignA hsignB
  have hall : s₂.Spells (m + 1)
      (fun ρ i => xor true (xor (signExtended first p ρ i) (signExtended last q ρ i)))
      (P ++ [differ.not]) := by
    apply ((hP.mono hs₂).append (Spells.singleton hdiffer.not)).congr
    intro ρ i hi
    by_cases hlow : i < m
    · rw [if_pos hlow]
    · obtain rfl : i = m := by omega
      rw [if_neg hlow, Bool.true_xor]
  obtain ⟨s₃, equal, hadd, hs₃, heq⟩ := addAll_eq h₂ hall (Nat.succ_pos m)
  have h₃ := h₂.trans hs₃
  have h₁₃ := hs₂.trans hs₃
  obtain ⟨s₄, greater, hsigned, hs₄, hgreater⟩ :=
    generateSignedComparison_eq h₃ (hmore.mono h₁₃) (hsignA.mono h₁₃) (hsignB.mono h₁₃)
  obtain ⟨s₅, l, hor, -, hs₅, hl⟩ := (h₃.trans hs₄).addOr (heq.mono hs₄) hgreater
  obtain ⟨S, hS, himp⟩ := makeRelation_eq h (h₃.trans (hs₄.trans hs₅)) hl outWidth
    (R := fun x => decide ((inputWord x last q).toInt ≤ (inputWord x first p).toInt))
    (fun ρ x hx => by
    have hword : ∀ i < m + 1, signExtended first p ρ i =
    ((inputWord x first p).signExtend (m + 1)).getLsbD i :=
      fun i hi => signExtended_eq hx hA hp hi
    have hword' : ∀ i < m + 1, signExtended last q ρ i =
    ((inputWord x last q).signExtend (m + 1)).getLsbD i :=
      fun i hi => signExtended_eq hx hB hq hi
    rw [agree_of_propagates, agree_congr hword hword', Nat.max_self, hword m (Nat.lt_succ_self m),
      hword' m (Nat.lt_succ_self m),
      exceeds_congr (fun i hi => hword i (Nat.lt_succ_of_lt hi))
      (fun i hi => hword' i (Nat.lt_succ_of_lt hi)), exceeds_toInt, agree_toInt,
      toInt_signExtend (p := p) (m := m) (by omega), toInt_signExtend (p := q) (m := m) (by omega),
      Bool.eq_iff_iff, Bool.or_eq_true, decide_eq_true_iff, decide_eq_true_iff, decide_eq_true_iff]
    omega)
  have hfill : ∀ first p, filled first p m =
      inputsFrom first (p - 1) ++ .replicate (m - (p - 1)) ⟨first + (p - 1), 0, false⟩ :=
      fun _ _ => rfl
  rw [← hfill, ← hfill] at hrun
  obtain ⟨hgates, hlen⟩ := generateComparison_gates hrun
  rw [filled_length hp (by omega), filled_length hq (by omega), Nat.max_self] at hgates hlen
  have hequal := (Gates.addCell (by decide) hxor (Nat.le_refl 2)).trans (addAll_gates hadd)
  rw [length_append, length_singleton] at hequal
  have hrest := (hequal.trans (generateSignedComparison_gates hsigned)).trans
    (Gates.addCell (by decide) hor (Nat.le_refl 2))
  refine ⟨S, ?_, makeRelation_fits h (hs₁.trans (h₁₃.trans (hs₄.trans hs₅))) hl.1
    (hgates.trans hrest) (by omega) (by omega) hS, himp⟩
  rw [hrun, bind_some]
  simp only [hxor, hadd, hsigned, hor, bind_eq_bind, bind_some]
  exact hS

private theorem addNone_relation (outWidth : UInt32) (positive : Bool) {R : (ℕ → Bool) → Bool}
    (h : HasInputs s n) (hn : n ≤ 2 ^ 18) (hA : s.Spells p a A) (hB : s.Spells q b B)
    (hpos : 0 < max p q) (hlt : max p q < 2 ^ 16) (hfuel : max p q < fuel) (ha : ∀ ρ i, p ≤ i →
    i < q → a ρ i = false) (hb : ∀ ρ i, q ≤ i → i < p → b ρ i = false)
    (hR : ∀ (ρ : EntryID → ℕ → Bool) (x : ℕ → Bool), (∀ i < n, ρ i 0 = x i) →
      agree (a ρ) (b ρ) (max p q) 0 = R x) :
    ∃ S, ((generatePropagate fuel A B s false).bind (fun r => do
        let (s, link) ← addNone r.1 r.2
        makeRelation s (if positive then link else link.not) outWidth)) = some S ∧
      (S.FitsLimits ↔ outWidth.toNat ≤ 2 ^ 20) ∧ S.Implements n (max 1 outWidth.toNat)
        (relation (fun x => R x == positive)) := by
  obtain ⟨s₁, P, hrun, hs₁, hP⟩ := generatePropagate_eq (.refl h.grown) false hA hB hlt hfuel ha hb
  obtain ⟨s₂, l, hadd, hs₂, hl⟩ := addNone_eq hs₁ hP hpos
  have hlink : s₂.Computes (if positive then l else l.not)
      (fun ρ => agree (a ρ) (b ρ) (max p q) 0 == positive) := by
    cases positive with
    | true => exact hl.congr (fun ρ => by rw [agree_of_no_propagate, beq_true])
    | false => exact hl.not.congr (fun ρ => by rw [agree_of_no_propagate, beq_false])
  obtain ⟨S, hS, himp⟩ := makeRelation_eq h (hs₁.trans hs₂) hlink outWidth
    (R := fun x => R x == positive) (fun ρ x hx => by rw [hR ρ x hx])
  obtain ⟨hgates, hlen⟩ := generatePropagate_gates hrun
  rw [hA.length, hB.length] at hgates hlen
  refine ⟨S, ?_, makeRelation_fits h (hs₁.trans hs₂) hlink.1 (hgates.trans (addNone_gates hadd))
    (by omega) (by omega) hS, himp⟩
  rw [hrun, bind_some]
  simp only [hadd, bind_eq_bind, bind_some]
  exact hS

/-! ### Exactness -/

def unsigned (n : ℕ) (w : BitVec n) : ℤ := w.toNat

/-- The value of a signed word in two's complement. -/
def signed (n : ℕ) (w : BitVec n) : ℤ := w.toInt

/-- The network is one exactly if the relation holds between the values of the operands. -/
def Relates (synth : ℕ → UInt32 → UInt32 → UInt32 → Option Subnet) (value : (n : ℕ) → BitVec n → ℤ)
    (R : ℤ → ℤ → Bool) (sizeA sizeB outWidth : UInt32) : Prop :=
  ∃ n, ∀ fuel, n ≤ fuel → ∃ S, synth fuel sizeA sizeB outWidth = some S ∧ S.FitsLimits ∧
    S.Implements (sizeA.toNat + sizeB.toNat) (max 1 outWidth.toNat)
      (relation (fun x => R (value _ (inputWord x 0 sizeA.toNat))
        (value _ (inputWord x sizeA.toNat sizeB.toNat))))

variable {sizeA sizeB : UInt32} {R : ℤ → ℤ → Bool} {value : (n : ℕ) → BitVec n → ℤ}
  {synth : ℕ → UInt32 → UInt32 → UInt32 → Option Subnet}

theorem relates_iff {cond : Prop} (bound : ℕ)
    (hnone : ¬ cond → ∀ fuel, synth fuel sizeA sizeB outWidth = none)
    (hbuild : cond → ∀ fuel, bound < fuel → ∃ S, synth fuel sizeA sizeB outWidth = some S ∧
      (S.FitsLimits ↔ outWidth.toNat ≤ 2 ^ 20) ∧ S.Implements (sizeA.toNat + sizeB.toNat)
      (max 1 outWidth.toNat)
        (relation (fun x => R (value _ (inputWord x 0 sizeA.toNat))
          (value _ (inputWord x sizeA.toNat sizeB.toNat))))) :
    Relates synth value R sizeA sizeB outWidth ↔ cond ∧ outWidth.toNat ≤ 2 ^ 20 := by
  constructor
  · rintro ⟨n, hrel⟩
    obtain ⟨S, hS, hfits, -⟩ := hrel (max n (bound + 1)) (Nat.le_max_left _ _)
    by_cases hcond : cond
    · obtain ⟨S', hS', hiff, -⟩ := hbuild hcond _ (Nat.le_max_right n (bound + 1))
      rw [hS] at hS'
      rw [← some.inj hS'] at hiff
      exact ⟨hcond, hiff.mp hfits⟩
    · rw [hnone hcond] at hS
      cases hS
  · rintro ⟨hcond, hwidth⟩
    refine ⟨bound + 1, fun fuel hle => ?_⟩
    obtain ⟨S, hS, hiff, himp⟩ := hbuild hcond fuel hle
    exact ⟨S, hS, hiff.mpr hwidth, himp⟩

theorem generateComparison_none_more
    (h : ¬ (0 < A.length ∧ (0 < B.length ∨ A.length = 1) ∧ max A.length B.length ≤ 2 ^ 16)) :
    generateComparison fuel A B s false = none := by
  by_cases hA : A.length = 0
  · rw [eq_nil_of_length_eq_zero hA]
    exact generateComparison_nil
  · by_cases hB : B.length = 0 ∧ 1 < A.length
    · rw [eq_nil_of_length_eq_zero hB.1]
      exact generateComparison_empty hB.2
    · apply generateComparison_wide
      simp only [Bool.false_eq_true, if_false]
      omega

theorem generateComparison_none_equal (h : ¬ (0 < A.length ∧ max A.length B.length < 2 ^ 16)) :
    generateComparison fuel A B s true = none := by
  by_cases hA : A.length = 0
  · rw [eq_nil_of_length_eq_zero hA]
    exact generateComparison_nil
  · apply generateComparison_wide
    simp only [if_true]
    omega

def operands (makeSwap : Bool) (sizeA sizeB : UInt32) : ℕ × ℕ :=
  if makeSwap then (sizeB.toNat, sizeA.toNat) else (sizeA.toNat, sizeB.toNat)

theorem synthXtU_iff (makeSwap : Bool) :
    Relates (fun fuel a b w => synthXtU fuel a b w makeSwap) unsigned
      (fun x y => if makeSwap then decide (x < y) else decide (y < x)) sizeA sizeB outWidth ↔
    (0 < (operands makeSwap sizeA sizeB).1 ∧
      (0 < (operands makeSwap sizeA sizeB).2 ∨ (operands makeSwap sizeA sizeB).1 = 1) ∧
      max sizeA.toNat sizeB.toNat ≤ 2 ^ 16) ∧ outWidth.toNat ≤ 2 ^ 20 := by
  obtain ⟨s₁, s₂, hadd₁, hadd₂, h⟩ := addInputs_two sizeA.toNat sizeB.toNat
  have hlenA : (inputsFrom 0 sizeA.toNat).length = sizeA.toNat := inputsFrom_length
  have hlenB : (inputsFrom sizeA.toNat sizeB.toNat).length = sizeB.toNat := inputsFrom_length
  refine relates_iff (max sizeA.toNat sizeB.toNat) (fun hcond fuel => ?_) ?_
  · simp only [synthXtU, hadd₁, hadd₂, bind_eq_bind, bind_some]
    cases makeSwap with
    | false =>
      simp only [Bool.false_eq_true, if_false]
      rw [generateComparison_none_more (by rw [hlenA, hlenB]; exact hcond)]
      rfl
    | true =>
      simp only [if_true]
      rw [generateComparison_none_more (by rw [hlenA, hlenB, Nat.max_comm]; exact hcond)]
      rfl
  · rintro ⟨hpos, hzero, hlt⟩ fuel hfuel
    simp only [synthXtU, hadd₁, hadd₂, bind_eq_bind, bind_some]
    cases makeSwap with
    | false =>
      obtain ⟨S, hS, hfits, himp⟩ :=
        moreU_eq 0 sizeA.toNat outWidth h (p := sizeA.toNat) (q := sizeB.toNat) (by omega)
        (Nat.le_refl _) (by omega) hpos hzero hlt hfuel
      refine ⟨S, hS, hfits, ?_⟩
      simpa only [Bool.false_eq_true, if_false, unsigned, Int.ofNat_lt] using himp
    | true =>
      rw [Nat.max_comm] at hlt hfuel
      obtain ⟨S, hS, hfits, himp⟩ :=
        moreU_eq sizeA.toNat 0 outWidth h (p := sizeB.toNat) (q := sizeA.toNat)
        (Nat.le_refl _) (by omega) (by omega) hpos hzero hlt hfuel
      refine ⟨S, hS, hfits, ?_⟩
      simpa only [if_true, unsigned, Int.ofNat_lt] using himp

theorem synthXteU_iff (makeSwap : Bool) :
    Relates (fun fuel a b w => synthXteU fuel a b w makeSwap) unsigned
      (fun x y => if makeSwap then decide (x ≤ y) else decide (y ≤ x)) sizeA sizeB outWidth ↔
    (0 < (operands makeSwap sizeA sizeB).1 ∧ max sizeA.toNat sizeB.toNat < 2 ^ 16) ∧
    outWidth.toNat ≤ 2 ^ 20 := by
  obtain ⟨s₁, s₂, hadd₁, hadd₂, h⟩ := addInputs_two sizeA.toNat sizeB.toNat
  have hlenA : (inputsFrom 0 sizeA.toNat).length = sizeA.toNat := inputsFrom_length
  have hlenB : (inputsFrom sizeA.toNat sizeB.toNat).length = sizeB.toNat := inputsFrom_length
  refine relates_iff (max sizeA.toNat sizeB.toNat) (fun hcond fuel => ?_) ?_
  · simp only [synthXteU, hadd₁, hadd₂, bind_eq_bind, bind_some]
    cases makeSwap with
    | false =>
      simp only [Bool.false_eq_true, if_false]
      rw [generateComparison_none_equal (by rw [hlenA, hlenB]; exact hcond)]
      rfl
    | true =>
      simp only [if_true]
      rw [generateComparison_none_equal (by rw [hlenA, hlenB, Nat.max_comm]; exact hcond)]
      rfl
  · rintro ⟨hpos, hlt⟩ fuel hfuel
    simp only [synthXteU, hadd₁, hadd₂, bind_eq_bind, bind_some]
    cases makeSwap with
    | false =>
      obtain ⟨S, hS, hfits, himp⟩ :=
        moreEqualU_eq 0 sizeA.toNat outWidth h (p := sizeA.toNat) (q := sizeB.toNat)
        (by omega) (Nat.le_refl _) (by omega) hpos hlt hfuel
      refine ⟨S, hS, hfits, ?_⟩
      simpa only [Bool.false_eq_true, if_false, unsigned, Int.ofNat_le] using himp
    | true =>
      rw [Nat.max_comm] at hlt hfuel
      obtain ⟨S, hS, hfits, himp⟩ :=
        moreEqualU_eq sizeA.toNat 0 outWidth h (p := sizeB.toNat) (q := sizeA.toNat)
        (Nat.le_refl _) (by omega) (by omega) hpos hlt hfuel
      refine ⟨S, hS, hfits, ?_⟩
      simpa only [if_true, unsigned, Int.ofNat_le] using himp

theorem synthXeqU_iff (positive : Bool) :
    Relates (fun fuel a b w => synthXeqU fuel a b w positive) unsigned
    (fun x y => decide (x = y) == positive)
      sizeA sizeB outWidth ↔
    (0 < max sizeA.toNat sizeB.toNat ∧ max sizeA.toNat sizeB.toNat < 2 ^ 16) ∧ outWidth.toNat ≤
    2 ^ 20 := by
  obtain ⟨s₁, s₂, hadd₁, hadd₂, h⟩ := addInputs_two sizeA.toNat sizeB.toNat
  refine relates_iff (max sizeA.toNat sizeB.toNat) (fun hcond fuel => ?_) ?_
  · simp only [synthXeqU, hadd₁, hadd₂, bind_eq_bind, bind_some]
    by_cases hzero : max sizeA.toNat sizeB.toNat = 0
    · have hA : sizeA.toNat = 0 := by omega
      have hB : sizeB.toNat = 0 := by omega
      rw [hA, hB]
      have hnil : inputsFrom 0 0 = [] := rfl
      rw [hnil]
      apply bind_eq_none_iff.mpr
      intro r hr
      unfold generatePropagate at hr
      obtain ⟨r', hr', hr⟩ := bind_eq_some_iff.mp hr
      obtain rfl := some.inj hr'
      obtain ⟨surplus, hsurplus, hr⟩ := bind_eq_some_iff.mp hr
      obtain rfl := some.inj hr
      cases fuel with
      | zero => cases hsurplus
      | succ fuel =>
        obtain rfl := some.inj hsurplus
        rfl
    · rw [generatePropagate_none (by rw [inputsFrom_length, inputsFrom_length]; omega)]
      rfl
  · rintro ⟨hpos, hlt⟩ fuel hfuel
    simp only [synthXeqU, hadd₁, hadd₂, bind_eq_bind, bind_some]
    have hA : 0 + sizeA.toNat ≤ sizeA.toNat + sizeB.toNat := by omega
    obtain ⟨S, hS, hfits, himp⟩ := addNone_relation outWidth positive h (by omega)
      (h.spells_zeroExtended 0 sizeA.toNat hA)
      (h.spells_zeroExtended sizeA.toNat sizeB.toNat (Nat.le_refl _)) hpos hlt
      hfuel (fun ρ i hge _ => if_neg (Nat.not_lt.mpr hge))
      (fun ρ i hge _ => if_neg (Nat.not_lt.mpr hge))
      (R := fun x => decide ((inputWord x 0 sizeA.toNat).toNat =
      (inputWord x sizeA.toNat sizeB.toNat).toNat)) (fun ρ x hx => by
        rw [← agree_toNat _ _ (Nat.le_max_left sizeA.toNat sizeB.toNat)
          (Nat.le_max_right sizeA.toNat sizeB.toNat)]
        exact agree_congr (fun i _ => zeroExtended_eq hx hA)
          (fun i _ => zeroExtended_eq hx (Nat.le_refl _)))
    refine ⟨S, hS, hfits, ?_⟩
    simpa only [unsigned, Nat.cast_inj] using himp

private theorem addInputs_signed (m k : ℕ) : ∃ s₁ s₂ s₃ s₄, HasInputs s₄ (m + 1 + (k + 1)) ∧
    ∀ f : SubnetBuilder × List Link → SubnetBuilder × Link → SubnetBuilder × List Link →
    SubnetBuilder × Link →
        Option Subnet,
      ((addInputs m {}).bind fun r₁ => r₁.1.addInput.bind fun r₂ => (addInputs k r₂.1).bind
        fun r₃ =>
        r₃.1.addInput.bind fun r₄ => f r₁ r₂ r₃ r₄) =
      f (s₁, inputsFrom 0 m) (s₂, ⟨0 + m, 0, false⟩) (s₃, inputsFrom (m + 1) k)
        (s₄, ⟨m + 1 + k, 0, false⟩) := by
  obtain ⟨s₁, hadd₁, h₁⟩ := HasInputs.init.addInputs m
  obtain ⟨s₂, hadd₂, h₂⟩ := h₁.addInput
  obtain ⟨s₃, hadd₃, h₃⟩ := h₂.addInputs k
  obtain ⟨s₄, hadd₄, h₄⟩ := h₃.addInput
  simp only [Nat.zero_add] at hadd₃ hadd₄ h₄
  refine ⟨s₁, s₂, s₃, s₄, h₄, fun f => ?_⟩
  simp only [hadd₁, hadd₂, hadd₃, hadd₄, bind_some]

private theorem toNat_sub_one (size : UInt32) :
    (size - 1).toNat = if size.toNat = 0 then 2 ^ 32 - 1 else size.toNat - 1 := by
  have hlt : size.toNat < 2 ^ 32 := size.toNat_lt
  have hone : (1 : UInt32).toNat = 1 := rfl
  rw [UInt32.toNat_sub, hone]
  split <;> omega

private theorem signed_one {x y : ℕ → Bool} {f g : ℕ} :
    (signed 1 (inputWord x f 1) < signed 1 (inputWord y g 1) ↔
      unsigned 1 (inputWord y g 1) < unsigned 1 (inputWord x f 1)) ∧
    (signed 1 (inputWord x f 1) ≤ signed 1 (inputWord y g 1) ↔
      unsigned 1 (inputWord y g 1) ≤ unsigned 1 (inputWord x f 1)) := by
  have hneg : ∀ w : BitVec 1, w.toInt = -(w.toNat : ℤ) := by decide
  simp only [signed, unsigned, hneg]
  omega

theorem relates_congr {synth' : ℕ → UInt32 → UInt32 → UInt32 → Option Subnet}
    {value' : (n : ℕ) → BitVec n → ℤ} {R' : ℤ → ℤ → Bool}
    (hsynth : ∀ fuel, synth fuel sizeA sizeB outWidth = synth' fuel sizeA sizeB outWidth)
    (hR : ∀ x, R (value _ (inputWord x 0 sizeA.toNat))
      (value _ (inputWord x sizeA.toNat sizeB.toNat)) = R' (value' _ (inputWord x 0 sizeA.toNat))
      (value' _ (inputWord x sizeA.toNat sizeB.toNat))) :
    Relates synth value R sizeA sizeB outWidth ↔ Relates synth' value' R' sizeA sizeB outWidth := by
  unfold Relates
  simp only [hsynth, hR]

private theorem not_both_one (h : ¬ (sizeA = 1 ∧ sizeB = 1)) : sizeA ≠ 1 ∨ sizeB ≠ 1 := by
  by_contra hno
  exact h ⟨of_not_not (fun hA => hno (.inl hA)), of_not_not (fun hB => hno (.inr hB))⟩

private theorem pos_of_not_both_one (h : ¬ (sizeA = 1 ∧ sizeB = 1)) (hA : sizeA.toNat = m + 1)
    (hB : sizeB.toNat = n + 1) : 0 < max m n := by
  by_contra hno
  apply h
  constructor
  · exact UInt32.toNat_inj.mp (by rw [hA, UInt32.toNat_one]; omega)
  · exact UInt32.toNat_inj.mp (by rw [hB, UInt32.toNat_one]; omega)

theorem synthXtS_iff (makeSwap : Bool) :
    Relates (fun fuel a b w => synthXtS fuel a b w makeSwap) signed
      (fun x y => if makeSwap then decide (x < y) else decide (y < x)) sizeA sizeB outWidth ↔
    (0 < sizeA.toNat ∧ 0 < sizeB.toNat ∧ max sizeA.toNat sizeB.toNat ≤ 2 ^ 16 + 1 ∧
      max sizeA.toNat sizeB.toNat - min sizeA.toNat sizeB.toNat < 2 ^ 16) ∧
      outWidth.toNat ≤ 2 ^ 20 := by
  by_cases hone : sizeA = 1 ∧ sizeB = 1
  · obtain ⟨rfl, rfl⟩ := hone
    have hrel : Relates (fun fuel a b w => synthXtS fuel a b w makeSwap) signed
        (fun x y => if makeSwap then decide (x < y) else decide (y < x)) 1 1 outWidth ↔
        Relates (fun fuel a b w => synthXtU fuel a b w !makeSwap) unsigned
          (fun x y => if !makeSwap then decide (x < y) else decide (y < x)) 1 1 outWidth := by
      refine relates_congr (fun fuel => rfl) (fun x => ?_)
      cases makeSwap with
      | false => exact decide_eq_decide.mpr signed_one.1
      | true => exact decide_eq_decide.mpr signed_one.1
    refine (hrel.trans (synthXtU_iff !makeSwap)).trans (and_congr_left' ?_)
    cases makeSwap <;> decide
  · have huse := not_both_one hone
    have hA := toNat_sub_one sizeA
    have hB := toNat_sub_one sizeB
    generalize hm : (sizeA - 1).toNat = m at hA
    generalize hk : (sizeB - 1).toNat = k at hB
    obtain ⟨s₁, s₂, s₃, s, h, hadd⟩ := addInputs_signed m k
    refine relates_iff (max m k) (fun hcond fuel => ?_) ?_
    · rw [synthXtS, if_pos huse, hm, hk]
      simp only [bind_eq_bind]
      rw [hadd]
      apply bind_eq_none_iff.mpr
      intro r hr
      have hlen := fillBySignum_length hr
      rw [inputsFrom_length, inputsFrom_length] at hlen
      by_cases hwide : 2 ^ 16 + 1 ≤ max m k
      · cases makeSwap with
        | false =>
          simp only [Bool.false_eq_true, if_false]
          rw [generateComparison_wide (by simp only [Bool.false_eq_true, if_false]; omega)]
          rfl
        | true =>
          simp only [if_true]
          rw [generateComparison_wide (by simp only [Bool.false_eq_true, if_false]; omega)]
          rfl
      · exfalso
        rw [fillBySignum_none inputsFrom_length inputsFrom_length (by omega) (by omega)
          (by split at hA <;> split at hB <;> omega)] at hr
        cases hr
    · rintro ⟨hposA, hposB, hlt, hdelta⟩ fuel hfuel
      have hsizeA : sizeA.toNat = m + 1 := by split at hA <;> omega
      have hsizeB : sizeB.toNat = k + 1 := by split at hB <;> omega
      have hmk := pos_of_not_both_one hone hsizeA hsizeB
      rw [hsizeA, hsizeB] at hlt hdelta ⊢
      rw [synthXtS, if_pos huse, hm, hk]
      simp only [bind_eq_bind]
      rw [hadd, fillBySignum_eq inputsFrom_length inputsFrom_length (by omega) (by omega)
        (by omega) hfuel, bind_some]
      cases makeSwap with
      | false =>
        obtain ⟨S, hS, hfits, himp⟩ :=
          moreS_eq 0 (m + 1) outWidth h (p := m + 1) (q := k + 1) (m := max m k) (by omega)
          (Nat.le_refl _) (by omega) (Nat.succ_pos m) (Nat.succ_pos k)
          (by omega) hmk (by omega) hfuel
        exact ⟨S, hS, hfits, himp⟩
      | true =>
        obtain ⟨S, hS, hfits, himp⟩ :=
          moreS_eq (m + 1) 0 outWidth h (p := k + 1) (q := m + 1) (m := max m k)
          (Nat.le_refl _) (by omega) (by omega) (Nat.succ_pos k) (Nat.succ_pos m)
          (by omega) hmk (by omega) hfuel
        exact ⟨S, hS, hfits, himp⟩

theorem synthXteS_iff (makeSwap : Bool) :
    Relates (fun fuel a b w => synthXteS fuel a b w makeSwap) signed
      (fun x y => if makeSwap then decide (x ≤ y) else decide (y ≤ x)) sizeA sizeB outWidth ↔
    (0 < sizeA.toNat ∧ 0 < sizeB.toNat ∧ max sizeA.toNat sizeB.toNat ≤ 2 ^ 16) ∧
      outWidth.toNat ≤ 2 ^ 20 := by
  by_cases hone : sizeA = 1 ∧ sizeB = 1
  · obtain ⟨rfl, rfl⟩ := hone
    have hrel : Relates (fun fuel a b w => synthXteS fuel a b w makeSwap) signed
        (fun x y => if makeSwap then decide (x ≤ y) else decide (y ≤ x)) 1 1 outWidth ↔
        Relates (fun fuel a b w => synthXteU fuel a b w !makeSwap) unsigned
          (fun x y => if !makeSwap then decide (x ≤ y) else decide (y ≤ x)) 1 1 outWidth := by
      refine relates_congr (fun fuel => rfl) (fun x => ?_)
      cases makeSwap with
      | false => exact decide_eq_decide.mpr signed_one.2
      | true => exact decide_eq_decide.mpr signed_one.2
    refine (hrel.trans (synthXteU_iff !makeSwap)).trans (and_congr_left' ?_)
    cases makeSwap <;> decide
  · have huse := not_both_one hone
    have hA := toNat_sub_one sizeA
    have hB := toNat_sub_one sizeB
    generalize hm : (sizeA - 1).toNat = m at hA
    generalize hk : (sizeB - 1).toNat = k at hB
    obtain ⟨s₁, s₂, s₃, s, h, hadd⟩ := addInputs_signed m k
    refine relates_iff (max m k) (fun hcond fuel => ?_) ?_
    · rw [synthXteS, if_pos huse, hm, hk]
      simp only [bind_eq_bind]
      rw [hadd]
      apply bind_eq_none_iff.mpr
      intro r hr
      have hlen := fillBySignum_length hr
      rw [inputsFrom_length, inputsFrom_length] at hlen
      have hwide : 2 ^ 16 ≤ max m k := by split at hA <;> split at hB <;> omega
      cases makeSwap with
      | false =>
        simp only [Bool.false_eq_true, if_false]
        rw [generateComparison_wide (by simp only [if_true]; omega)]
        rfl
      | true =>
        simp only [if_true]
        rw [generateComparison_wide (by simp only [if_true]; omega)]
        rfl
    · rintro ⟨hposA, hposB, hlt⟩ fuel hfuel
      have hsizeA : sizeA.toNat = m + 1 := by split at hA <;> omega
      have hsizeB : sizeB.toNat = k + 1 := by split at hB <;> omega
      have hmk := pos_of_not_both_one hone hsizeA hsizeB
      rw [hsizeA, hsizeB] at hlt ⊢
      rw [synthXteS, if_pos huse, hm, hk]
      simp only [bind_eq_bind]
      rw [hadd, fillBySignum_eq inputsFrom_length inputsFrom_length (by omega) (by omega)
        (by omega) hfuel, bind_some]
      cases makeSwap with
      | false =>
        obtain ⟨S, hS, hfits, himp⟩ :=
          moreEqualS_eq 0 (m + 1) outWidth h (p := m + 1) (q := k + 1) (m := max m k) (by omega)
          (Nat.le_refl _) (by omega) (Nat.succ_pos m) (Nat.succ_pos k)
          (by omega) hmk (by omega) hfuel
        exact ⟨S, hS, hfits, himp⟩
      | true =>
        obtain ⟨S, hS, hfits, himp⟩ :=
          moreEqualS_eq (m + 1) 0 outWidth h (p := k + 1) (q := m + 1) (m := max m k)
          (Nat.le_refl _) (by omega) (by omega) (Nat.succ_pos k) (Nat.succ_pos m)
          (by omega) hmk (by omega) hfuel
        exact ⟨S, hS, hfits, himp⟩

private theorem inputsFrom_filled {first M : ℕ} (hp : 0 < p) (hM : p ≤ M) :
    inputsFrom first p ++ .replicate (M - p) ⟨first + (p - 1), 0, false⟩ = filled first p M := by
  obtain ⟨k, rfl⟩ := Nat.exists_eq_add_of_lt hp
  have hword : inputsFrom first (0 + k + 1) = inputsFrom first k ++ [⟨first + k, 0, false⟩] := by
    rw [Nat.zero_add, inputsFrom, range'_concat, map_append, Nat.one_mul]
    rfl
  have hsigns : M - (0 + k + 1 - 1) = M - (0 + k + 1) + 1 := by omega
  rw [filled, hword, hsigns, append_assoc, Nat.add_sub_cancel, Nat.zero_add]
  rfl

theorem getLast_inputsFrom {first : ℕ} (hp : 0 < p) :
    (inputsFrom first p).getLast? = some ⟨first + (p - 1), 0, false⟩ := by
  rw [getLast?_eq_getElem?, inputsFrom_length, inputsFrom, getElem?_map,
    getElem?_range' (Nat.sub_lt hp Nat.one_pos), Nat.one_mul]
  rfl

theorem synthXeqS_iff (positive : Bool) :
    Relates (fun fuel a b w => synthXeqS fuel a b w positive) signed
    (fun x y => decide (x = y) == positive)
      sizeA sizeB outWidth ↔
    (0 < sizeA.toNat ∧ 0 < sizeB.toNat ∧ max sizeA.toNat sizeB.toNat < 2 ^ 16) ∧ outWidth.toNat ≤
    2 ^ 20 := by
  obtain ⟨s₁, s₂, hadd₁, hadd₂, h⟩ := addInputs_two sizeA.toNat sizeB.toNat
  refine relates_iff (max sizeA.toNat sizeB.toNat) (fun hcond fuel => ?_) ?_
  · rw [synthXeqS]
    simp only [bind_eq_bind]
    rw [hadd₁, bind_some, hadd₂, bind_some]
    apply bind_eq_none_iff.mpr
    intro signA hA
    apply bind_eq_none_iff.mpr
    intro signB hB
    apply bind_eq_none_iff.mpr
    intro r hr
    have hlen := fillBySignum_length hr
    rw [inputsFrom_length, inputsFrom_length] at hlen
    have hposA : 0 < sizeA.toNat := by
      apply Nat.pos_of_ne_zero
      intro hzero
      rw [hzero] at hA
      cases hA
    have hposB : 0 < sizeB.toNat := by
      apply Nat.pos_of_ne_zero
      intro hzero
      rw [hzero] at hB
      cases hB
    rw [generatePropagate_none (by omega)]
    rfl
  · rintro ⟨hposA, hposB, hlt⟩ fuel hlarge
    rw [synthXeqS]
    simp only [bind_eq_bind]
    rw [hadd₁, bind_some, hadd₂, bind_some, getLast_inputsFrom hposA, bind_some,
      getLast_inputsFrom hposB, bind_some,
      fillBySignum_eq inputsFrom_length inputsFrom_length (by omega) (by omega) (by omega) hlarge,
      bind_some, inputsFrom_filled hposA (Nat.le_max_left _ _),
      inputsFrom_filled hposB (Nat.le_max_right _ _)]
    have hA : 0 + sizeA.toNat ≤ sizeA.toNat + sizeB.toNat := by omega
    generalize hM : max sizeA.toNat sizeB.toNat = M at *
    have hfuel : max M M < fuel := by omega
    obtain ⟨S, hS, hfits, himp⟩ :=
      addNone_relation outWidth positive h (by omega) (h.spells_signs hposA hA (m := M) (by omega))
      (h.spells_signs hposB (Nat.le_refl _) (m := M) (by omega)) (by omega) (by omega) hfuel
      (fun ρ i hge hi => absurd hi (Nat.not_lt.mpr hge))
      (fun ρ i hge hi => absurd hi (Nat.not_lt.mpr hge))
      (R := fun x => decide ((inputWord x 0 sizeA.toNat).toInt =
      (inputWord x sizeA.toNat sizeB.toNat).toInt)) (fun ρ x hx => by
        rw [← BitVec.toInt_signExtend_of_le (v := M) (by omega : sizeA.toNat ≤ M),
          ← BitVec.toInt_signExtend_of_le (x := inputWord x sizeA.toNat sizeB.toNat) (v := M)
          (by omega), ← agree_toInt, Nat.max_self]
        exact agree_congr (fun i hi => signExtended_eq hx hA hposA hi)
          (fun i hi => signExtended_eq hx (Nat.le_refl _) hposB hi))
    exact ⟨S, hS, hfits, himp⟩

/-- The networks of all relations, for all widths. -/
theorem comparisons_exact (sizeA sizeB outWidth : UInt32) :
    (Relates synthEqU unsigned (fun x y => decide (x = y)) sizeA sizeB outWidth ↔
      (0 < max sizeA.toNat sizeB.toNat ∧ max sizeA.toNat sizeB.toNat < 2 ^ 16) ∧
        outWidth.toNat ≤ 2 ^ 20) ∧
    (Relates synthNeqU unsigned (fun x y => decide (x ≠ y)) sizeA sizeB outWidth ↔
      (0 < max sizeA.toNat sizeB.toNat ∧ max sizeA.toNat sizeB.toNat < 2 ^ 16) ∧
        outWidth.toNat ≤ 2 ^ 20) ∧
    (Relates synthEqS signed (fun x y => decide (x = y)) sizeA sizeB outWidth ↔
      (0 < sizeA.toNat ∧ 0 < sizeB.toNat ∧ max sizeA.toNat sizeB.toNat < 2 ^ 16) ∧
        outWidth.toNat ≤ 2 ^ 20) ∧
    (Relates synthNeqS signed (fun x y => decide (x ≠ y)) sizeA sizeB outWidth ↔
      (0 < sizeA.toNat ∧ 0 < sizeB.toNat ∧ max sizeA.toNat sizeB.toNat < 2 ^ 16) ∧
        outWidth.toNat ≤ 2 ^ 20) ∧
    (Relates synthLtU unsigned (fun x y => decide (x < y)) sizeA sizeB outWidth ↔
      (0 < sizeB.toNat ∧ (0 < sizeA.toNat ∨ sizeB.toNat = 1) ∧
        max sizeA.toNat sizeB.toNat ≤ 2 ^ 16) ∧
      outWidth.toNat ≤ 2 ^ 20) ∧
    (Relates synthGtU unsigned (fun x y => decide (x > y)) sizeA sizeB outWidth ↔
      (0 < sizeA.toNat ∧ (0 < sizeB.toNat ∨ sizeA.toNat = 1) ∧
        max sizeA.toNat sizeB.toNat ≤ 2 ^ 16) ∧
      outWidth.toNat ≤ 2 ^ 20) ∧
    (Relates synthLteU unsigned (fun x y => decide (x ≤ y)) sizeA sizeB outWidth ↔
      (0 < sizeB.toNat ∧ max sizeA.toNat sizeB.toNat < 2 ^ 16) ∧ outWidth.toNat ≤ 2 ^ 20) ∧
    (Relates synthGteU unsigned (fun x y => decide (x ≥ y)) sizeA sizeB outWidth ↔
      (0 < sizeA.toNat ∧ max sizeA.toNat sizeB.toNat < 2 ^ 16) ∧ outWidth.toNat ≤ 2 ^ 20) ∧
    (Relates synthLtS signed (fun x y => decide (x < y)) sizeA sizeB outWidth ↔
      (0 < sizeA.toNat ∧ 0 < sizeB.toNat ∧ max sizeA.toNat sizeB.toNat ≤ 2 ^ 16 + 1 ∧
        max sizeA.toNat sizeB.toNat - min sizeA.toNat sizeB.toNat < 2 ^ 16) ∧
        outWidth.toNat ≤ 2 ^ 20) ∧
    (Relates synthGtS signed (fun x y => decide (x > y)) sizeA sizeB outWidth ↔
      (0 < sizeA.toNat ∧ 0 < sizeB.toNat ∧ max sizeA.toNat sizeB.toNat ≤ 2 ^ 16 + 1 ∧
        max sizeA.toNat sizeB.toNat - min sizeA.toNat sizeB.toNat < 2 ^ 16) ∧
        outWidth.toNat ≤ 2 ^ 20) ∧
    (Relates synthLteS signed (fun x y => decide (x ≤ y)) sizeA sizeB outWidth ↔
      (0 < sizeA.toNat ∧ 0 < sizeB.toNat ∧ max sizeA.toNat sizeB.toNat ≤ 2 ^ 16) ∧
        outWidth.toNat ≤ 2 ^ 20) ∧
    (Relates synthGteS signed (fun x y => decide (x ≥ y)) sizeA sizeB outWidth ↔
      (0 < sizeA.toNat ∧ 0 < sizeB.toNat ∧ max sizeA.toNat sizeB.toNat ≤ 2 ^ 16) ∧
        outWidth.toNat ≤ 2 ^ 20) := by
  have hne : ∀ x y : ℤ, decide (x ≠ y) = (decide (x = y) == false) := by
    intro x y
    rw [beq_false, decide_not]
  refine ⟨?_, ?_, ?_, ?_, synthXtU_iff true, synthXtU_iff false, synthXteU_iff true,
    synthXteU_iff false, synthXtS_iff true, synthXtS_iff false, synthXteS_iff true,
    synthXteS_iff false⟩
  · exact (relates_congr (fun _ => rfl) (fun _ => (beq_true _).symm)).trans (synthXeqU_iff true)
  · exact (relates_congr (fun _ => rfl) (fun _ => hne _ _)).trans (synthXeqU_iff false)
  · exact (relates_congr (fun _ => rfl) (fun _ => (beq_true _).symm)).trans (synthXeqS_iff true)
  · exact (relates_congr (fun _ => rfl) (fun _ => hne _ _)).trans (synthXeqS_iff false)

/-- Words of `2 ^ 16` bits are never tested for equality. -/
theorem comparisons_not_exact :
    ¬ Relates synthEqU unsigned (fun x y => decide (x = y)) 65536 65536 1 := by
  intro h
  have hlt := ((relates_congr (fun _ => rfl) (fun _ => (beq_true _).symm)).trans
    (synthXeqU_iff true)).mp h
  exact absurd hlt.1.2 (by decide)

end UtopiaEda.Synthesizer
