import UtopiaEda.PrefixAdderLevels

/-!
# The sum of the prefix adder

The bits of both operands start the prefix computation. The carries behind the levels and the bits
where no carry came in make the bits of the sum.
-/
namespace UtopiaEda.Synthesizer

open List
open Option (bind_eq_bind bind_eq_some_iff bind_some some.inj)
open SubnetBuilder PrefixCarries

variable {s s' s'' : SubnetBuilder} {ins outs : List EntryID} {st st' : PrefixState}
  {n nA nB k size front : ℕ} {lo : ℕ → ℕ} {a b p g : (EntryID → ℕ → Bool) → ℕ → Bool}
  {A B P : List Link}

structure Started (s : SubnetBuilder) (p g : (EntryID → ℕ → Bool) → ℕ → Bool) (k front size : ℕ)
    (st : PrefixState) : Prop where
  sizeP : st.pOutputs.length = size
  sizeG : st.gOutputs.length = size
  sizeZ : st.isNotZero.length = size
  propagating : ∀ i < k, ∃ l, st.pOutputs[i]? = some l ∧ s.Computes l (p · i)
  generating : ∀ i < k, ∃ l z, st.gOutputs[i]? = some l ∧ st.isNotZero[i]? = some z ∧
    if z then s.Computes l (g · i) else l = ⟨0, 0, false⟩ ∧ front ≤ i ∧ ∀ ρ, g ρ i = false
  rest : ∀ i, k ≤ i → i < size → st.gOutputs[i]? = some ⟨0, 0, false⟩

private theorem Started.set {l l' : Link} {z : Bool} (h : Started s p g k front size st)
    (hs : Enlarged ins outs s s') (hk : k < size) (hl : s'.Computes l (p · k))
    (hl' : if z then s'.Computes l' (g · k) else l' = ⟨0, 0, false⟩ ∧ front ≤ k ∧
      ∀ ρ, g ρ k = false) :
    Started s' p g (k + 1) front size ⟨st.pOutputs.set k l, st.gOutputs.set k l',
    st.isNotZero.set k z⟩ := by
  refine ⟨by rw [length_set, h.sizeP], by rw [length_set, h.sizeG], by rw [length_set, h.sizeZ],
    fun i hi => ?_, fun i hi => ?_, fun i hi hlt => ?_⟩
  · rcases Nat.lt_or_eq_of_le (Nat.le_of_lt_succ hi) with hlt | rfl
    · obtain ⟨m, hm, hc⟩ := h.propagating i hlt
      refine ⟨m, ?_, hc.mono hs⟩
      rw [getElem?_set_ne (Nat.ne_of_gt hlt), hm]
    · exact ⟨l, getElem?_set_self (h.sizeP ▸ hk), hl⟩
  · rcases Nat.lt_or_eq_of_le (Nat.le_of_lt_succ hi) with hlt | rfl
    · obtain ⟨m, y, hm, hy, hc⟩ := h.generating i hlt
      refine ⟨m, y, ?_, ?_, ?_⟩
      · rw [getElem?_set_ne (Nat.ne_of_gt hlt), hm]
      · rw [getElem?_set_ne (Nat.ne_of_gt hlt), hy]
      · cases y with
        | false => exact hc
        | true => exact Computes.mono hc hs
    · exact ⟨l', z, getElem?_set_self (h.sizeG ▸ hk), getElem?_set_self (h.sizeZ ▸ hk), hl'⟩
  · rw [getElem?_set_ne (Nat.ne_of_lt hi)]
    exact h.rest i (Nat.le_of_succ_le hi) hlt

private theorem addBits_eq (ha : s.Spells nA a A) (hb : s.Spells nB b B)
    (hp : ∀ ρ i, p ρ i = xor (a ρ i) (b ρ i)) (hg : ∀ ρ i, g ρ i = (a ρ i && b ρ i)) :
    ∀ {m k : ℕ} {s' : SubnetBuilder} {st : PrefixState}, k + m ≤ nB → k + m ≤ nA → k + m ≤ size →
      Enlarged ins outs s s' → Started s' p g k front size st →
      ∃ s'' st', addBits A B (.range' k m) s' st = some (s'', st') ∧ Enlarged ins outs s s'' ∧
        Started s'' p g (k + m) front size st' := by
  intro m
  induction m with
  | zero =>
    intro k s' st _ _ _ h hst
    exact ⟨s', st, rfl, h, hst⟩
  | succ m ih =>
    intro k s' st hkB hkA hk h hst
    obtain ⟨l, hl, hcl⟩ := ha.bits k (by omega)
    obtain ⟨l', hl', hcl'⟩ := hb.bits k (by omega)
    obtain ⟨s₁, x, hxor, h₁, hs₁, hx⟩ := h.addXor (hcl.mono h) (hcl'.mono h)
    obtain ⟨s₂, y, hand, h₂, hs₂, hy⟩ := h₁.addAnd (hcl.mono h₁) (hcl'.mono h₁)
    have hx₂ : s₂.Computes x (p · k) := (hx.mono hs₂).congr (fun ρ => (hp ρ k).symm)
    have hy₂ : s₂.Computes y (g · k) := hy.congr (fun ρ => (hg ρ k).symm)
    obtain ⟨s₃, st₃, hrun, h₃, hst₃⟩ := ih (k := k + 1) (by omega) (by omega) (by omega) h₂
      (hst.set (z := true) (hs₁.trans hs₂) (by omega) hx₂ hy₂)
    refine ⟨s₃, st₃, ?_, h₃, by rwa [Nat.add_right_comm] at hst₃⟩
    rw [range'_succ, addBits]
    simp only [hl, hl', hxor, hand, hrun, bind_eq_bind, bind_some]

private theorem copyBits_eq {mid : List EntryID} (hs : Grown s ins mid outs) (ha : s.Spells nA a A) 
    (hp : ∀ ρ i, front ≤ i → i < n → p ρ i = a ρ i) (hg : ∀ ρ i, front ≤ i → i < n → g ρ i = false)
    (hn : n ≤ nA) : ∀ {m j : ℕ} {st : PrefixState}, front ≤ j → j + m ≤ n → j + m ≤ size →
      Started s p g j front size st → ∃ st', copyBits A (.range' j m) st = some st' ∧
      Started s p g (j + m) front size st' := by
  intro m
  induction m with
  | zero =>
    intro j st _ _ _ hst
    exact ⟨st, rfl, hst⟩
  | succ m ih =>
    intro j st hkj hjA hj hst
    obtain ⟨l, hl, hc⟩ := ha.bits j (by omega)
    have hlt : j < st.gOutputs.length := by
      rw [hst.sizeG]
      omega
    have hcopy : Started s p g (j + 1) front size
        ⟨st.pOutputs.set j l, st.gOutputs.set j st.gOutputs[j], st.isNotZero.set j false⟩ :=
      hst.set (z := false) (.refl hs) (by omega) (hc.congr (fun ρ => (hp ρ j hkj (by omega)).symm))
        ⟨some.inj ((getElem?_eq_getElem hlt).symm.trans (hst.rest j (Nat.le_refl j)
          (by omega))), hkj, fun ρ => hg ρ j hkj (by omega)⟩
    rw [set_getElem_self hlt] at hcopy
    obtain ⟨st', hrun, hst'⟩ := ih (j := j + 1) (by omega) (by omega) (by omega) hcopy
    refine ⟨st', ?_, by rwa [Nat.add_right_comm] at hst'⟩
    rw [range'_succ, copyBits]
    simp only [hl, bind_eq_bind, bind_some]
    exact hrun

/-- The positions whose carry is not yet there: the odd ones from `2 * m + 1` on, and the last one
if no bit of the sum is behind it. -/
def oddStart (outSize m i : ℕ) : ℕ := if i % 2 = 1 ∧ (2 * m + 1 ≤ i ∨ i = outSize - 1) then i else 0

private theorem addOddCarries_eq (outSize : ℕ)
    (hP : ∀ i < n, ∃ l, P[i]? = some l ∧ (i % 2 = 1 → s.Computes l (p · i))) :
    ∀ {d m : ℕ} {s' : SubnetBuilder} {st : PrefixState}, n / 2 = m + d → st.pOutputs = P →
    st.gOutputs.length = size →
      Enlarged ins outs s s' →
      Generating s' p g n front (oddStart outSize m) st.gOutputs st.isNotZero →
      ∃ s'' st', addOddCarries outSize ((List.range' m d).map (2 * · + 1)) s' st = some (s'', st') ∧
        Enlarged ins outs s s'' ∧ st'.gOutputs.length = size ∧
        Generating s'' p g n front (oddStart outSize (n / 2)) st'.gOutputs st'.isNotZero := by
  intro d
  induction d with
  | zero =>
    intro m s' st hm _ hsize h hst
    rw [hm, Nat.add_zero]
    exact ⟨s', st, rfl, h, hsize, hst⟩
  | succ d ih =>
    intro m s' st hm hPst hsize h hst
    obtain ⟨mid, hgrown⟩ := h.grown
    have hlt : 2 * m + 1 < n := by omega
    obtain ⟨childP, hchildP, hprop⟩ := hP (2 * m + 1) hlt
    obtain ⟨childG, z, hchildG, hz, hchild⟩ := hst (2 * m + 1) hlt
    obtain ⟨parentG, z', hparentG, hz', hparent⟩ := hst (2 * m) (by omega)
    have hodd : oddStart outSize m (2 * m + 1) = 2 * m + 1 :=
      if_pos ⟨by omega, .inl (Nat.le_refl _)⟩
    have heven : oddStart outSize m (2 * m) = 0 := if_neg (by omega)
    rw [heven] at hparent
    have hstep : ∃ s₁ st₁, generateChild parentG childP childG
        (z' && decide (2 * m + 1 ≠ outSize - 1)) z (2 * m + 1) s' st =
        some (s₁, st₁) ∧ Enlarged ins outs s s₁ ∧ st₁.pOutputs = P ∧ st₁.gOutputs.length = size ∧
        Generating s₁ p g n front (oddStart outSize (m + 1)) st₁.gOutputs st₁.isNotZero := by
      by_cases hlast : 2 * m + 1 = outSize - 1
      · refine ⟨s', st, ?_, h, hPst, hsize, hst.congr (fun i hi => ?_)⟩
        · rw [decide_eq_false (by simpa using hlast), Bool.and_false]
          rfl
        · unfold oddStart
          by_cases hi : i = 2 * m + 1
          · rw [if_pos (by omega), if_pos (by omega)]
          · by_cases hin : i % 2 = 1 ∧ (2 * m + 1 ≤ i ∨ i = outSize - 1)
            · rw [if_pos hin, if_pos (by omega)]
            · rw [if_neg hin, if_neg (by omega)]
      · have hparent' : if z' && decide (2 * m + 1 ≠ outSize - 1) then
            s'.Computes parentG (fun ρ => generates (p ρ) (g ρ) 0 (2 * m + 1))
            else front ≤ 0 ∧ ∀ ρ, generates (p ρ) (g ρ) 0 (2 * m + 1) = false := by
          rw [decide_eq_true hlast, Bool.and_true]
          cases z' with
          | false => exact And.right hparent
          | true => exact hparent
        have hchildC : s'.Computes childP (fun ρ => propagates (p ρ) (2 * m + 1) (2 * m + 1 + 1)) :=
          ((hprop (by omega)).mono h).congr (fun ρ => propagates_single.symm)
        obtain ⟨s₁, st₁, hrun, h₁, -, hgen, hP₁, hlen, -⟩ :=
          generateChild_eq h hst hlt (Nat.le_refl _) hodd
          (Nat.zero_le _) hchildC hchildG hz hparent'
        refine ⟨s₁, st₁, hrun, h₁, hP₁.trans hPst, hlen.trans hsize, hgen.congr (fun i hi => ?_)⟩
        by_cases hi : i = 2 * m + 1
        · subst hi
          rw [Function.update_self]
          exact (if_neg (by omega)).symm
        · rw [Function.update_of_ne hi]
          unfold oddStart
          by_cases hin : i % 2 = 1 ∧ (2 * m + 1 ≤ i ∨ i = outSize - 1)
          · rw [if_pos hin, if_pos (by omega)]
          · rw [if_neg hin, if_neg (by omega)]
    obtain ⟨s₁, st₁, hrun, h₁, hP₁, hsize₁, hst₁⟩ := hstep
    obtain ⟨s₂, st₂, hrun₂, h₂, hsize₂, hst₂⟩ := ih (m := m + 1) (by omega) hP₁ hsize₁ h₁ hst₁
    refine ⟨s₂, st₂, ?_, h₂, hsize₂, hst₂⟩
    rw [range'_succ, map_cons, addOddCarries, hPst]
    simp only [Nat.add_sub_cancel, hchildP, hchildG, hparentG, hz, hz', hrun, hrun₂, bind_eq_bind,
      bind_some]

private theorem addSums_eq {outSize : ℕ} (hn : n ≤ outSize)
    (hP : ∀ i < n, ∃ l, P[i]? = some l ∧ s.Computes l (p · i))
    (hst : Generating s p g n front (oddStart outSize (n / 2)) st.gOutputs st.isNotZero) :
    ∀ {m k : ℕ} {s' : SubnetBuilder}, 0 < k → k + m ≤ n → Enlarged ins outs s s' →
      ∃ s'' sums, addSums P st (.range' k m) s' = some (s'', sums) ∧ Enlarged ins outs s' s'' ∧
        s''.Spells m (fun ρ i => xor (p ρ (k + i)) (generates (p ρ) (g ρ) 0 (k + i))) sums := by
  intro m
  induction m with
  | zero =>
    intro k s' _ _ h
    obtain ⟨mid, hgrown⟩ := h.grown
    exact ⟨s', [], rfl, .refl hgrown, .nil⟩
  | succ m ih =>
    intro k s' hk hkm h
    obtain ⟨mid, hgrown⟩ := h.grown
    obtain ⟨l, hl, hc⟩ := hP k (by omega)
    obtain ⟨l', z, hl', hz, hgen⟩ := hst (k - 1) (by omega)
    have hstart : oddStart outSize (n / 2) (k - 1) = 0 := if_neg (by omega)
    rw [hstart, Nat.sub_add_cancel hk] at hgen
    have hsum : ∃ s₁ sum, (if z then s'.addCell .XOR [l', l] else some (s', l)) = some (s₁, sum) ∧
        Enlarged ins outs s' s₁ ∧
        s₁.Computes sum (fun ρ => xor (p ρ k) (generates (p ρ) (g ρ) 0 k)) := by
      cases z with
      | false =>
        have hgen : ∀ ρ, generates (p ρ) (g ρ) 0 k = false := And.right (And.right hgen)
        refine ⟨s', l, rfl, .refl hgrown, (hc.mono h).congr (fun ρ => ?_)⟩
        rw [hgen, Bool.xor_false]
      | true =>
        have hgen : s.Computes l' (fun ρ => generates (p ρ) (g ρ) 0 k) := hgen
        obtain ⟨s₁, sum, hadd, -, hs₁, hsum⟩ := h.addXor (hgen.mono h) (hc.mono h)
        exact ⟨s₁, sum, hadd, hs₁, hsum.congr (fun ρ => Bool.xor_comm _ _)⟩
    obtain ⟨s₁, sum, hadd, hs₁, hsum⟩ := hsum
    obtain ⟨s₂, sums, hrun, hs₂, hsums⟩ := ih (k := k + 1) (Nat.succ_pos k) (by omega) (h.trans hs₁)
    refine ⟨s₂, sum :: sums, ?_, hs₁.trans hs₂,
      (hsums.cons (hsum.mono hs₂)).congr (fun ρ i _ => ?_)⟩
    · rw [range'_succ, addSums]
      simp only [hl, hl', hz, hadd, hrun, bind_eq_bind, bind_some]
    · cases i with
      | zero => rfl
      | succ i => rw [if_neg (Nat.succ_ne_zero i), Nat.add_sub_cancel, Nat.add_right_comm k 1 i,
          Nat.add_assoc]

private theorem addSign_eq {sum x y c : Link} {F X Y C : (EntryID → ℕ → Bool) → Bool}
    (h : Enlarged ins outs s s') (hsum : s'.Computes sum F) (hx : s'.Computes x X)
    (hy : s'.Computes y Y) (hc : s'.Computes c C) : ∃ s'' l, addSign s' sum x y c = some (s'', l) ∧
    Enlarged ins outs s' s'' ∧
      s''.Computes l (fun ρ => (F ρ && X ρ) || (F ρ && Y ρ) || (F ρ && C ρ) ||
      (C ρ && (X ρ && Y ρ))) := by
  obtain ⟨s₁, l₁, hadd₁, h₁, hs₁, hl₁⟩ := h.addAnd hsum hx
  obtain ⟨s₂, l₂, hadd₂, h₂, hs₂, hl₂⟩ := h₁.addAnd (hsum.mono hs₁) (hy.mono hs₁)
  have hs₁₂ := hs₁.trans hs₂
  obtain ⟨s₃, l₃, hadd₃, h₃, hs₃, hl₃⟩ := h₂.addAnd (hsum.mono hs₁₂) (hc.mono hs₁₂)
  have hs₁₃ := hs₁₂.trans hs₃
  obtain ⟨s₄, l₄, hadd₄, h₄, hs₄, hl₄⟩ := h₃.addAnd₃ (hc.mono hs₁₃) (hx.mono hs₁₃) (hy.mono hs₁₃)
  have hl₁₄ := hl₁.mono (hs₂.trans (hs₃.trans hs₄))
  have hl₂₄ := hl₂.mono (hs₃.trans hs₄)
  have hl₃₄ := hl₃.mono hs₄
  have hvalid : s₄.ValidLinks [l₁, l₂, l₃, l₄] :=
    validLinks_cons.mpr ⟨hl₁₄.1, validLinks_cons.mpr ⟨hl₂₄.1, validLinks_cons.mpr ⟨hl₃₄.1, hl₄.1⟩⟩⟩
  obtain ⟨s₅, l, htree, -, hs₅, hl⟩ := h₄.addTree (t := .OR) hvalid (by decide)
  refine ⟨s₅, l, ?_, hs₁₃.trans (hs₄.trans hs₅), hl.1, fun lib x ρ hρ => ?_⟩
  · simp only [addSign, hadd₁, hadd₂, hadd₃, hadd₄, htree, bind_eq_bind, bind_some]
  · apply (hl.2 lib x ρ hρ).trans
    simp only [map_cons, map_nil, (hl₁₄.mono hs₅).2 lib x ρ hρ, (hl₂₄.mono hs₅).2 lib x ρ hρ,
      (hl₃₄.mono hs₅).2 lib x ρ hρ, (hl₄.mono hs₅).2 lib x ρ hρ]
    simp [gateFunction, CellTypeID.eval, Bool.or_assoc]

/-- Behind its `n` bits the word goes on with zeros, or with its last bit. -/
def Extends (useSign : Bool) (n : ℕ) (a : (EntryID → ℕ → Bool) → ℕ → Bool) : Prop :=
  ∀ ρ i, n ≤ i → a ρ i = (useSign && a ρ (n - 1))

private theorem sumBit_extends {useSign : Bool} {x y : ℕ → Bool} {i : ℕ} (hn : 0 < n)
    (hx : ∀ i, n ≤ i → x i = (useSign && x (n - 1))) (hy : ∀ i, n ≤ i →
      y i = (useSign && y (n - 1))) (hi : n ≤ i) :
    sumBit x y i = if useSign then
    (sumBit x y (n - 1) && x (n - 1)) || (sumBit x y (n - 1) && y (n - 1)) ||
        (sumBit x y (n - 1) && carry x y n) || (carry x y n && (x (n - 1) && y (n - 1)))
      else if i = n then carry x y n else false := by
  cases useSign with
  | false =>
    simp only [Bool.false_and] at hx hy
    rw [if_neg Bool.false_ne_true]
    rcases Nat.lt_or_eq_of_le hi with hlt | rfl
    · rw [if_neg (Nat.ne_of_gt hlt)]
      exact sumBit_of_zero hx hy hlt
    · rw [if_pos rfl, sumBit, hx n hi, hy n hi, Bool.false_xor, Bool.false_xor]
  | true =>
    simp only [Bool.true_and] at hx hy
    rw [if_pos rfl]
    obtain ⟨n, rfl⟩ := Nat.exists_eq_succ_of_ne_zero (Nat.ne_of_gt hn)
    simp only [Nat.succ_eq_add_one, Nat.add_sub_cancel] at hx hy ⊢
    have hlast : sumBit x y i = sumBit x y (n + 1) := by
      apply sumBit_of_sign _ _ (Nat.lt_of_succ_le hi)
      · intro j hj
        rcases Nat.lt_or_eq_of_le hj with hlt | rfl
        · exact hx j hlt
        · rfl
      · intro j hj
        rcases Nat.lt_or_eq_of_le hj with hlt | rfl
        · exact hy j hlt
        · rfl
    rw [hlast, sumBit, sumBit, hx _ (Nat.le_refl _), hy _ (Nat.le_refl _), carry_succ]
    cases x n <;> cases y n <;> cases carry x y n <;> rfl

private theorem addCarryOut_eq {outputGates : List Link} {outSize : ℕ}
    {useSign isUnsignedSub : Bool} (hnA : 0 < nA) (hout : nA < outSize) (h : Enlarged ins outs s s')
    (hA : s'.Spells nA a A) (hB : s'.Spells nB b B)
    (hW : s'.Spells nA (fun ρ => sumBit (a ρ) (b ρ)) outputGates) (hg : st.gOutputs.length = nA)
    (hst : Generating s' p g nA front (oddStart outSize (nA / 2)) st.gOutputs st.isNotZero)
    (hcarry : ∀ ρ, generates (p ρ) (g ρ) 0 nA = carry (a ρ) (b ρ) nA)
    (hsub : isUnsignedSub = true → useSign = true)
    (hext : isUnsignedSub = false → Extends useSign nA a ∧ Extends useSign nA b ∧
      (useSign = true → nA = nB))
    (hzero : isUnsignedSub = true → s'.ValidLinks [⟨0, 0, false⟩]) 
    (hfront : useSign = true → isUnsignedSub = false → 0 < front) :
    ∃ s'' links F, addCarryOut s' A B st outputGates outSize nA useSign isUnsignedSub =
    some (s'', links) ∧
      Enlarged ins outs s' s'' ∧ s''.Spells outSize F links ∧
      ∀ ρ i, i < outSize → i < nA ∨ isUnsignedSub = false → F ρ i = sumBit (a ρ) (b ρ) i := by
  obtain ⟨mid, hgrown⟩ := h.grown
  obtain ⟨c, z, hc, hz, hgen⟩ := hst (nA - 1) (by omega)
  have hstart : oddStart outSize (nA / 2) (nA - 1) = 0 := if_neg (by omega)
  rw [hstart, Nat.sub_add_cancel hnA] at hgen
  simp only [hcarry] at hgen
  have hlast : st.gOutputs.getLast? = some c := by rw [getLast?_eq_getElem?, hg, hc]
  obtain ⟨sum, hsumLast, hsum⟩ := hW.getLast hnA
  rw [← hg] at hz
  have hlen : nA + (outSize - (nA + 1) + 1) = outSize := by omega
  -- the outputs from the links for the carry and for the bits behind it
  have hfinish : ∀ {s₁ : SubnetBuilder} (zeroCell : Link) (F₀ : (EntryID → ℕ → Bool) → Bool)
      {c' : Link} {F₁ : (EntryID → ℕ → Bool) → Bool}, Enlarged ins outs s' s₁ → s₁.Computes c' F₁ →
      (nA + 1 < outSize → s₁.Computes zeroCell F₀) → (isUnsignedSub = false → ∀ ρ i, nA ≤ i →
      i < outSize → (if i = nA then F₁ ρ else F₀ ρ) = sumBit (a ρ) (b ρ) i) →
      ∃ F, s₁.Spells outSize F (outputGates ++ c' :: .replicate (outSize - (nA + 1)) zeroCell) ∧
        ∀ ρ i, i < outSize → i < nA ∨ isUnsignedSub = false → F ρ i = sumBit (a ρ) (b ρ) i := by
    intro s₁ zeroCell F₀ c' F₁ hs₁ hc' hzero hbits
    have hrest : s₁.Spells (outSize - (nA + 1)) (fun ρ _ => F₀ ρ)
        (.replicate (outSize - (nA + 1)) zeroCell) := by
      by_cases hlt : nA + 1 < outSize
      · exact .replicate (hzero hlt)
      · rw [Nat.sub_eq_zero_of_le (Nat.not_lt.mp hlt)]
        exact .nil
    have hword := (hW.mono hs₁).append (hrest.cons hc')
    rw [hlen] at hword
    refine ⟨_, hword, fun ρ i hi hor => ?_⟩
    by_cases hlt : i < nA
    · rw [if_pos hlt]
    · rw [if_neg hlt, ← hbits (hor.resolve_left hlt) ρ i (Nat.not_lt.mp hlt) hi]
      by_cases heq : i = nA
      · rw [if_pos heq, if_pos (by omega)]
      · rw [if_neg heq, if_neg (by omega)]
  cases useSign with
  | false =>
    have hnosub : isUnsignedSub = false := by
      cases isUnsignedSub with
      | false => rfl
      | true => exact (hsub rfl).symm
    obtain ⟨hextA, hextB, -⟩ := hext hnosub
    have hbits : ∀ ρ i, nA ≤ i → i < outSize →
        (if i = nA then carry (a ρ) (b ρ) nA else false) = sumBit (a ρ) (b ρ) i := by
      intro ρ i hi _
      exact (sumBit_extends hnA (hextA ρ) (hextB ρ) hi).symm
    by_cases hnone : (!z || decide (nA + 1 < outSize)) && !false
    · obtain ⟨s₁, zeroCell, hadd, -, hs₁, hzc⟩ := h.addConstant false
      have hc' : s₁.Computes (if z && !false then c else zeroCell)
          (fun ρ => carry (a ρ) (b ρ) nA) := by
        cases z with
        | false => exact hzc.congr (fun ρ => (And.right (And.right hgen) ρ).symm)
        | true => exact Computes.mono hgen hs₁
      obtain ⟨F, hF, hsame⟩ := hfinish zeroCell _ hs₁ hc' (fun _ => hzc) (fun _ => hbits)
      refine ⟨s₁, _, F, ?_, hs₁, hF, hsame⟩
      have hadd : s'.addCell .ZERO [] = some (s₁, zeroCell) := hadd
      simp only [addCarryOut, hz, hlast, hsumLast, hadd, bind_eq_bind, bind_some]
      rw [if_pos hnone]
      rfl
    · have hz1 : z = true := by
        by_contra hz0
        simp [hz0] at hnone
      have hend : ¬ nA + 1 < outSize := fun hlt => by simp [hlt] at hnone
      subst hz1
      obtain ⟨F, hF, hsame⟩ := hfinish ⟨0, 0, false⟩ (fun _ => false) (.refl hgrown) hgen
        (fun hlt => absurd hlt hend) (fun _ => hbits)
      refine ⟨s', _, F, ?_, .refl hgrown, hF, hsame⟩
      simp only [addCarryOut, hz, hlast, hsumLast, bind_eq_bind, bind_some]
      rw [if_neg hnone, hnosub]
      rfl
  | true =>
    have hnone : ¬ ((!z || decide (nA + 1 < outSize)) && !true) := by simp
    cases isUnsignedSub with
    | true =>
      have hvalid : s'.ValidLinks [c] := by
        cases z with
        | false =>
          rw [And.left hgen]
          exact hzero rfl
        | true => exact And.left hgen
      obtain ⟨s₁, both, hand, h₁, hs₁, hboth⟩ := h.addAnd hsum (.of_valid hvalid)
      obtain ⟨s₂, zeroCell, hor, -, hs₂, hzc⟩ := h₁.addOr (hsum.mono hs₁) hboth
      obtain ⟨F, hF, hsame⟩ :=
        hfinish zeroCell _ (hs₁.trans hs₂) hzc (fun _ => hzc) (fun hno => by cases hno)
      refine ⟨s₂, _, F, ?_, hs₁.trans hs₂, hF, hsame⟩
      simp only [addCarryOut, hz, hlast, hsumLast, bind_eq_bind, bind_some]
      rw [if_neg hnone]
      simp only [if_true, hand, hor, bind_some, Bool.not_true, Bool.and_false, Bool.false_eq_true,
        if_false]
    | false =>
      obtain ⟨hextA, hextB, hsize⟩ := hext rfl
      obtain rfl := hsize rfl
      obtain ⟨x, hx, hcx⟩ := hA.getLast hnA
      obtain ⟨y, hy, hcy⟩ := hB.getLast hnA
      have hz1 : z = true := by
        cases z with
        | true => rfl
        | false => exact absurd (And.left (And.right hgen)) (Nat.not_le.mpr (hfront rfl rfl))
      subst hz1
      obtain ⟨s₁, zeroCell, hadd, hs₁, hzc⟩ := addSign_eq h hsum hcx hcy hgen
      obtain ⟨F, hF, hsame⟩ := hfinish zeroCell _ hs₁ hzc (fun _ => hzc) (fun _ ρ i hi _ => by
        rw [ite_self, sumBit_extends hnA (hextA ρ) (hextB ρ) hi, if_pos rfl])
      refine ⟨s₁, _, F, ?_, hs₁, hF, hsame⟩
      simp only [addCarryOut, hz, hlast, hsumLast, hx, hy, bind_eq_bind, bind_some]
      rw [if_neg hnone]
      simp only [if_true, Bool.false_eq_true, if_false, hadd, bind_some, Bool.not_true,
        Bool.and_false]

/-- The adder with the longer operand first. -/
theorem addSwapped_eq (fuel : ℕ) (outSize : UInt16) (useSign isUnsignedSub : Bool)
    (h : Enlarged ins outs s s') (hA : s'.Spells nA a A) (hB : s'.Spells nB b B) (hle : nB ≤ nA)
    (hlt : nA < 2 ^ 16) (hpos : 0 < min outSize.toNat nA) (hmin : min outSize.toNat nA ≤ 2 ^ 15)
    (hfuel : min outSize.toNat nA + 2 ≤ fuel) (hb : ∀ ρ i, nB ≤ i → i < nA → b ρ i = false)
    (hsub : isUnsignedSub = true → useSign = true)
    (hext : isUnsignedSub = false → nA < outSize.toNat →
      Extends useSign nA a ∧ Extends useSign nA b ∧ (useSign = true → nA = nB))
    (hzero : isUnsignedSub = true → s'.ValidLinks [⟨0, 0, false⟩]) :
    ∃ s'' links F, addSwapped fuel s' A B outSize useSign isUnsignedSub = some (s'', links) ∧
      Enlarged ins outs s' s'' ∧ s''.Spells outSize.toNat F links ∧
      ∀ ρ i, i < outSize.toNat → i < nA ∨ isUnsignedSub = false → F ρ i = sumBit (a ρ) (b ρ) i := by
  obtain ⟨mid, hgrown⟩ := h.grown
  generalize hn : min outSize.toNat nA = n at *
  let p : (EntryID → ℕ → Bool) → ℕ → Bool := fun ρ i => xor (a ρ i) (b ρ i)
  let g : (EntryID → ℕ → Bool) → ℕ → Bool := fun ρ i => a ρ i && b ρ i
  have hcarry : ∀ ρ i, generates (p ρ) (g ρ) 0 i = carry (a ρ) (b ρ) i := fun _ _ => rfl
  have hmodA : A.length % 2 ^ 16 = nA := by rw [hA.length, Nat.mod_eq_of_lt hlt]
  have hmodB : B.length % 2 ^ 16 = nB := by
    rw [hB.length, Nat.mod_eq_of_lt (Nat.lt_of_le_of_lt hle hlt)]
  have hstart : Started s' p g 0 (min n nB) nA
      ⟨.replicate nA ⟨0, 0, false⟩, .replicate nA ⟨0, 0, false⟩, .replicate nA false⟩ :=
    ⟨length_replicate, length_replicate, length_replicate,
      fun i hi => absurd hi (Nat.not_lt_zero i), fun i hi => absurd hi (Nat.not_lt_zero i),
      fun i _ hi => getElem?_replicate_of_lt hi⟩
  obtain ⟨s₁, st₁, hbits, hs₁, hst₁⟩ := addBits_eq hA hB (fun _ _ => rfl) (fun _ _ => rfl)
    (show 0 + min n nB ≤ nB by omega) (by omega) (by omega) (.refl hgrown) hstart
  rw [Nat.zero_add] at hst₁
  obtain ⟨mid₁, hgrown₁⟩ := hs₁.grown
  have hp : ∀ ρ i, min n nB ≤ i → i < n → p ρ i = a ρ i := by
    intro ρ i hi hin
    have hzb : b ρ i = false := hb ρ i (by omega) (by omega)
    simp only [p, hzb, Bool.xor_false]
  have hg : ∀ ρ i, min n nB ≤ i → i < n → g ρ i = false := by
    intro ρ i hi hin
    have hzb : b ρ i = false := hb ρ i (by omega) (by omega)
    simp only [g, hzb, Bool.and_false]
  obtain ⟨st₂, hcopy, hst₂⟩ := copyBits_eq hgrown₁ (hA.mono hs₁) hp hg (by omega)
    (Nat.le_refl _) (show min n nB + (n - min n nB) ≤ n by omega) (by omega) hst₁
  rw [show min n nB + (n - min n nB) = n by omega] at hst₂
  have hcover : Covering s₁ p g n (min n nB) nA id st₂ := by
    refine ⟨fun i hi => ?_, fun i hi => ?_, hst₂.sizeG⟩
    · obtain ⟨l, hl, hc⟩ := hst₂.propagating i hi
      exact ⟨l, hl, fun _ => hc.congr (fun ρ => propagates_single.symm)⟩
    · obtain ⟨l, z, hl, hz, hc⟩ := hst₂.generating i hi
      refine ⟨l, z, hl, hz, ?_⟩
      simp only [id, generates_single]
      exact hc
  obtain ⟨s₃, st₃, hlevels, hs₃, hst₃⟩ := addLevels_eq hmin hfuel (.refl hgrown₁) hcover
  obtain ⟨mid₃, hgrown₃⟩ := hs₃.grown
  have hP₃ : ∀ i < n, ∃ l, st₃.pOutputs[i]? = some l ∧ (i % 2 = 1 → s₃.Computes l (p · i)) := by
    intro i hi
    obtain ⟨l, hl, hc⟩ := hst₃.propagating i hi
    refine ⟨l, hl, fun hodd => ?_⟩
    simp only [hodd, if_true] at hc
    exact (hc (by omega)).congr (fun ρ => propagates_single)
  obtain ⟨s₄, st₄, hodd, hs₄, hsize₄, hst₄⟩ := addOddCarries_eq outSize.toNat hP₃
    (Nat.zero_add _).symm rfl hst₃.size (.refl hgrown₃) (hst₃.generating.congr (fun i _ => by
      unfold oddStart
      by_cases hi : i % 2 = 1
      · rw [if_pos hi, if_pos ⟨hi, .inl (by omega)⟩]
      · rw [if_neg hi, if_neg (fun hc => hi hc.1)]))
  obtain ⟨mid₄, hgrown₄⟩ := hs₄.grown
  have hs₁₄ := hs₃.trans hs₄
  have hP₄ : ∀ i < n, ∃ l, st₂.pOutputs[i]? = some l ∧ s₄.Computes l (p · i) := by
    intro i hi
    obtain ⟨l, hl, hc⟩ := hst₂.propagating i hi
    exact ⟨l, hl, hc.mono hs₁₄⟩
  obtain ⟨s₅, sums, hsums, hs₅, hword⟩ := addSums_eq (by omega) hP₄ hst₄ Nat.one_pos
    (show 1 + (n - 1) ≤ n by omega) (.refl hgrown₄)
  obtain ⟨l₀, hl₀, hc₀⟩ := hP₄ 0 hpos
  have hW : s₅.Spells n (fun ρ => sumBit (a ρ) (b ρ)) (l₀ :: sums) := by
    have hcons := hword.cons (hc₀.mono hs₅)
    rw [Nat.sub_add_cancel hpos] at hcons
    apply hcons.congr
    intro ρ i hi
    cases i with
    | zero => simp [sumBit, carry, generates, p]
    | succ i =>
      rw [if_neg (Nat.succ_ne_zero i), Nat.add_sub_cancel, Nat.add_comm 1 i]
      rfl
  have hs₅' := hs₁.trans (hs₁₄.trans hs₅)
  have hrun : addSwapped fuel s' A B outSize useSign isUnsignedSub =
      if nA < outSize.toNat then
      addCarryOut s₅ A B st₄ (l₀ :: sums) outSize.toNat nA useSign isUnsignedSub
      else some (s₅, l₀ :: sums) := by
    unfold addSwapped
    simp only [hmodA, hmodB, hn]
    rw [if_neg (Nat.ne_of_gt hpos), range_eq_range', range_eq_range']
    simp only [hbits, hcopy, hlevels, hodd, hsums, hl₀, bind_eq_bind, bind_some]
  rw [hrun]
  by_cases hout : nA < outSize.toNat
  · obtain rfl : n = nA := by omega
    rw [if_pos hout]
    obtain ⟨s₆, links, F, hcarryOut, hs₆, hF, hsame⟩ :=
      addCarryOut_eq hpos hout (.refl hs₅'.grown.choose_spec)
      (hA.mono hs₅') (hB.mono hs₅') hW hsize₄ (hst₄.mono hs₅)
      (fun ρ => hcarry ρ n) hsub (fun hno => hext hno hout) (fun hyes => (hzero hyes).mono hs₅'.le)
      (fun hsign hno => by
        have hsame := (hext hno hout).2.2 hsign
        omega)
    exact ⟨s₆, links, F, hcarryOut, hs₅'.trans hs₆, hF, hsame⟩
  · obtain rfl : n = outSize.toNat := by omega
    rw [if_neg hout]
    exact ⟨s₅, _, _, rfl, hs₅', hW, fun _ _ _ _ => rfl⟩

/-- More than `2 ^ 15` bits are never added. -/
theorem addSwapped_none {fuel : ℕ} {outSize : UInt16} {useSign isUnsignedSub : Bool}
    (h : 2 ^ 15 < min outSize.toNat (A.length % 2 ^ 16) ∨
      min outSize.toNat (A.length % 2 ^ 16) = 0) :
    addSwapped fuel s A B outSize useSign isUnsignedSub = none := by
  unfold addSwapped
  rcases h with hlt | hzero
  · simp only
    rw [if_neg (by omega)]
    apply Option.bind_eq_none_iff.mpr
    intro r₁ _
    apply Option.bind_eq_none_iff.mpr
    intro st₁ _
    have hlevels : addLevels fuel (min outSize.toNat (A.length % 2 ^ 16)) fuel (2 ^ 0) r₁.1 st₁ =
        none :=
      addLevels_none hlt (by decide)
    rw [Nat.pow_zero] at hlevels
    simp only [hlevels, bind_eq_bind, Option.bind_none]
  · simp only
    rw [if_pos hzero]

theorem addSwapped_mono {fuel fuel' : ℕ} {outSize : UInt16} {useSign isUnsignedSub : Bool}
    {r : SubnetBuilder × List Link} (hfuel : fuel ≤ fuel')
    (h : addSwapped fuel s A B outSize useSign isUnsignedSub = some r) :
    addSwapped fuel' s A B outSize useSign isUnsignedSub = some r := by
  unfold addSwapped at h ⊢
  simp only at h ⊢
  split at h
  · cases h
  · rename_i hpos
    rw [if_neg hpos]
    obtain ⟨r₁, hr₁, h⟩ := bind_eq_some_iff.mp h
    obtain ⟨st₂, hst₂, h⟩ := bind_eq_some_iff.mp h
    obtain ⟨r₃, hr₃, h⟩ := bind_eq_some_iff.mp h
    exact bind_eq_some_iff.mpr ⟨r₁, hr₁, bind_eq_some_iff.mpr ⟨st₂, hst₂,
      bind_eq_some_iff.mpr ⟨r₃, addLevels_mono hfuel hfuel hr₃, h⟩⟩⟩

private theorem addSums_length {P : List Link} :
    ∀ {is : List ℕ} {s s' : SubnetBuilder} {sums : List Link},
    addSums P st is s = some (s', sums) → sums.length = is.length := by
  intro is
  induction is with
  | nil =>
    intro s s' sums h
    obtain rfl := (Prod.mk.inj (some.inj h)).2
    rfl
  | cons i is ih =>
    intro s s' sums h
    obtain ⟨p, -, h⟩ := bind_eq_some_iff.mp h
    obtain ⟨g, -, h⟩ := bind_eq_some_iff.mp h
    obtain ⟨z, -, h⟩ := bind_eq_some_iff.mp h
    obtain ⟨r, -, h⟩ := bind_eq_some_iff.mp h
    obtain ⟨⟨s₁, sums₁⟩, hsums, h⟩ := bind_eq_some_iff.mp h
    obtain ⟨-, rfl⟩ := Prod.mk.inj (some.inj h)
    rw [length_cons, length_cons, ih hsums]

/-- The adder has the outputs asked for. -/
theorem addSwapped_length {fuel : ℕ} {outSize : UInt16} {useSign isUnsignedSub : Bool}
    {links : List Link} (h : addSwapped fuel s A B outSize useSign isUnsignedSub =
    some (s', links)) : links.length = outSize.toNat := by
  unfold addSwapped at h
  simp only at h
  split at h
  · cases h
  · rename_i hpos
    obtain ⟨r₁, -, h⟩ := bind_eq_some_iff.mp h
    obtain ⟨st₂, -, h⟩ := bind_eq_some_iff.mp h
    obtain ⟨r₃, -, h⟩ := bind_eq_some_iff.mp h
    obtain ⟨r₄, -, h⟩ := bind_eq_some_iff.mp h
    obtain ⟨⟨s₅, sums⟩, hsums, h⟩ := bind_eq_some_iff.mp h
    obtain ⟨l₀, -, h⟩ := bind_eq_some_iff.mp h
    have hlen := addSums_length hsums
    rw [length_range'] at hlen
    split at h
    · rename_i hout
      obtain ⟨z, -, h⟩ := bind_eq_some_iff.mp h
      obtain ⟨g, -, h⟩ := bind_eq_some_iff.mp h
      obtain ⟨sum, -, h⟩ := bind_eq_some_iff.mp h
      obtain ⟨r₆, -, h⟩ := bind_eq_some_iff.mp h
      obtain ⟨-, rfl⟩ := Prod.mk.inj (some.inj h)
      simp only [length_append, length_cons, length_replicate, hlen]
      omega
    · rename_i hout
      obtain ⟨-, rfl⟩ := Prod.mk.inj (some.inj h)
      rw [length_cons, hlen]
      omega

end UtopiaEda.Synthesizer
