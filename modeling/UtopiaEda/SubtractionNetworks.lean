import UtopiaEda.AdditionNetworks

/-!
# The networks for differences

The negated word is the sum of the inverted word and one. The difference is the sum with the negated
subtrahend, which gets a further bit if the result has more bits than the operands. The network of
the unsigned difference has its outputs twice.
-/
namespace UtopiaEda.PrefixCarries

variable {V : ℕ → Bool} {w i n : ℕ}

def negBit (V : ℕ → Bool) (i : ℕ) : Bool := sumBit (fun j => !V j) (fun j => decide (j = 0)) i

theorem negBit_congr {V' : ℕ → Bool} (h : ∀ j ≤ i, V j = V' j) : negBit V i = negBit V' i := by
  apply sumBit_congr
  intro j hj
  simp only [h j hj, and_self]

theorem negBit_getLsbD (x : BitVec w) (hi : i < w) : negBit x.getLsbD i = (-x).getLsbD i := by
  rw [BitVec.neg_eq_not_add, ← sumBit_getLsbD _ _ hi]
  apply sumBit_congr
  intro j hj
  have hlt : j < w := Nat.lt_of_le_of_lt hj hi
  constructor
  · rw [BitVec.getLsbD_not, decide_eq_true hlt, Bool.true_and]
  · rw [BitVec.getLsbD_one, decide_eq_true (Nat.lt_of_le_of_lt (Nat.zero_le j) hlt), Bool.true_and]

/-- The negated word repeats the bit behind the last one. -/
theorem negBit_of_sign (hV : ∀ j, n ≤ j → V j = V n) (h : n < i) :
    negBit V i = negBit V (n + 1) := by
  induction i, (Nat.succ_le_of_lt h) using Nat.le_induction with
  | base => rfl
  | succ i hi ih =>
    rw [← ih (Nat.lt_of_succ_le hi)]
    obtain ⟨k, rfl⟩ := Nat.exists_eq_succ_of_ne_zero
      (Nat.ne_of_gt (Nat.lt_of_lt_of_le (Nat.succ_pos n) hi))
    have hk : n ≤ k := Nat.le_of_succ_le_succ hi
    rw [negBit, negBit, sumBit, sumBit, carry_succ, carry_succ, hV _ (Nat.le_succ_of_le hk),
      hV k hk, hV _ (Nat.le_succ_of_le (Nat.le_succ_of_le hk))]
    cases k with
    | zero =>
      have hzero : carry (fun j => !V j) (fun j => decide (j = 0)) 0 = false := rfl
      rw [hzero]
      cases V n <;> simp
    | succ k =>
      cases V n <;> simp

theorem sumBit_zero : sumBit V (fun _ => false) i = V i := by
  have hcarry : carry V (fun _ => false) i = false :=
    generates_eq_false (fun j _ => Bool.and_false _)
  rw [sumBit, hcarry, Bool.xor_false, Bool.xor_false]

end UtopiaEda.PrefixCarries

namespace UtopiaEda.Synthesizer

open List
open Option (bind_eq_bind bind_some bind_none)
open SubnetBuilder PrefixCarries

variable {s s' s'' : SubnetBuilder} {ins outs : List EntryID} {fuel n w : ℕ}
  {W : (EntryID → ℕ → Bool) → ℕ → Bool} {word links : List Link}

theorem twosComplement_eq (fuel : ℕ) (signExtend : Bool) (h : Enlarged ins outs s s')
    (hW : s'.Spells n W word) (hext : Extends signExtend n W) (hn : 0 < n) (hv : 0 < w % 2 ^ 16)
    (hmax : w % 2 ^ 16 ≤ 2 ^ 15) (hfuel : w % 2 ^ 16 + 2 ≤ fuel) :
    ∃ s'' links, twosComplement fuel s' word w signExtend = some (s'', links) ∧
    Enlarged ins outs s' s'' ∧
      s''.Spells (w % 2 ^ 16) (fun ρ => negBit (W ρ)) links := by
  have hle : w % 2 ^ 16 ≤ w := Nat.mod_le _ _
  have hmin : ¬ min word.length w = 0 := by
    rw [hW.length]
    omega
  have hinverted : s'.Spells (min n w) (fun ρ i => !W ρ i) ((word.take w).map Link.not) := by
    have htake : word.take w = word.take (min n w) := by
      rw [← hW.length, Nat.min_comm, take_eq_take_min]
    rw [htake]
    exact (hW.take (Nat.min_le_left ..)).not
  obtain ⟨last, hlast, hclast⟩ := hinverted.getLast (by omega)
  obtain ⟨s₁, one, hone, h₁, hs₁, hcone⟩ := h.addConstant true
  have hone : s'.addCell .ONE [] = some (s₁, one) := hone
  obtain ⟨bit, hbit, hcbit⟩ : ∃ bit, (if signExtend then ((word.take w).map Link.not).getLast? else
    some one) = some bit ∧
      s₁.Computes bit (fun ρ => !(signExtend && W ρ (min n w - 1))) := by
    cases signExtend with
    | false => exact ⟨one, rfl, hcone⟩
    | true => exact ⟨last, hlast, hclast.mono hs₁⟩
  have hword := (hinverted.mono hs₁).append (.replicate (n := w - min n w) hcbit)
  rw [Nat.add_sub_cancel' (Nat.min_le_right ..)] at hword
  have hword : s₁.Spells w (fun ρ i => !W ρ i)
      ((word.take w).map Link.not ++ .replicate (w - min n w) bit) := by
    apply hword.congr
    intro ρ i hi
    by_cases hlt : i < n
    · rw [if_pos (by omega)]
    · rw [if_neg (by omega), hext ρ i (Nat.not_lt.mp hlt), Nat.min_eq_left (by omega)]
  have hwidth : w.toUInt16.toNat = w % 2 ^ 16 := rfl
  have hmaxw : max (w % 2 ^ 16) 1 = w % 2 ^ 16 := Nat.max_eq_left hv
  have hone₁ : s₁.Spells 1 (fun _ j => decide (j = 0)) [one] := by
    apply (Spells.singleton hcone).congr
    intro ρ i hi
    exact (decide_eq_true (Nat.lt_one_iff.mp hi)).symm
  -- the adder cuts the width to 16 bits
  obtain ⟨s₂, links, F, hadd, hs₂, hF, hsame⟩ :=
    synthLadnerFisherAdd_eq fuel w.toUInt16 true false h₁
    (hword.take hle) hone₁ (by omega) (by decide) (by rw [hwidth, hmaxw]; omega)
    (by rw [hwidth, hmaxw]; omega) (by rw [hwidth, hmaxw]; omega)
    (fun ρ i hi hi' => absurd hi' (by omega)) (fun ρ i hi _ => decide_eq_false (by omega))
    (fun _ hlt => by rw [hwidth, hmaxw] at hlt; omega) (fun hs => by cases hs)
  have htake := synthLadnerFisherAdd_take fuel s₁ ((word.take w).map Link.not ++
    .replicate (w - min n w) bit)
    [one] w.toUInt16 true false (.inr (by rw [hword.length, hwidth]; exact Nat.le_max_left _ _))
  rw [hword.length] at htake
  refine ⟨s₂, links, ?_, hs₁.trans hs₂, ?_⟩
  · rw [twosComplement, if_neg hmin]
    simp only [hone, hbit, bind_eq_bind, bind_some, length_map, length_take, hW.length,
      Nat.min_comm w n]
    exact htake.symm.trans hadd
  · rw [hwidth] at hF hsame
    exact hF.congr (fun ρ i hi => hsame ρ i hi (.inr rfl))

private theorem inverted_length {bit : Link} : ((word.take w).map Link.not ++
    List.replicate (w - ((word.take w).map Link.not).length) bit).length = w := by
  rw [length_append, length_replicate, length_map, length_take]
  omega

private theorem twosComplement_size {signExtend : Bool}
    (h : twosComplement fuel s word w signExtend = some (s', links)) :
    s'.size ≤ s.size + 1 + adderCells (w % 2 ^ 16) := by
  unfold twosComplement at h
  split at h
  · cases h
  · obtain ⟨⟨s₁, one⟩, hone, h⟩ := Option.bind_eq_some_iff.mp h
    obtain ⟨bit, -, hadd⟩ := Option.bind_eq_some_iff.mp h
    have hfirst := addCell_size hone (Nat.zero_le 3)
    have hsize : s'.size ≤ s₁.size + _ := synthLadnerFisherAdd_size hadd
    rw [inverted_length, show w.toUInt16.toNat = w % 2 ^ 16 from rfl] at hsize
    unfold adderCells at *
    omega

theorem twosComplement_none {signExtend : Bool} (h : min word.length w = 0 ∨ w % 2 ^ 16 = 0 ∨
    2 ^ 15 < w % 2 ^ 16) : twosComplement fuel s word w signExtend = none := by
  unfold twosComplement
  split
  · rfl
  · rename_i hmin
    have hcut : w % 2 ^ 16 = 0 ∨ 2 ^ 15 < w % 2 ^ 16 := h.resolve_left hmin
    apply Option.bind_eq_none_iff.mpr
    intro r₁ _
    apply Option.bind_eq_none_iff.mpr
    intro bit _
    apply synthLadnerFisherAdd_none_of_cut
    rw [inverted_length, show w.toUInt16.toNat = w % 2 ^ 16 from rfl, length_singleton]
    omega

theorem twosComplement_mono {fuel' : ℕ} {signExtend : Bool} {r : SubnetBuilder × List Link}
    (hfuel : fuel ≤ fuel') (h : twosComplement fuel s word w signExtend = some r) :
    twosComplement fuel' s word w signExtend = some r := by
  unfold twosComplement at h ⊢
  split at h
  · cases h
  · rename_i hmin
    rw [if_neg hmin]
    obtain ⟨r₁, hr₁, h⟩ := Option.bind_eq_some_iff.mp h
    obtain ⟨bit, hbit, h⟩ := Option.bind_eq_some_iff.mp h
    exact Option.bind_eq_some_iff.mpr ⟨r₁, hr₁, Option.bind_eq_some_iff.mpr ⟨bit, hbit,
      synthLadnerFisherAdd_mono hfuel h⟩⟩

/-! ### Negated words -/

private theorem synthNeg_mono {signExtend : Bool} {wIn wOut : UInt32} {fuel' : ℕ} {S : Subnet}
    (hfuel : fuel ≤ fuel') (h : synthNeg fuel wIn wOut signExtend = some S) :
    synthNeg fuel' wIn wOut signExtend = some S := by
  simp only [synthNeg, bind_eq_bind, Option.bind_eq_some_iff] at h ⊢
  obtain ⟨r₁, hr₁, r₂, hr₂, h⟩ := h
  exact ⟨r₁, hr₁, r₂, twosComplement_mono hfuel hr₂, h⟩

private theorem synthNeg_exactIf {f : (ℕ → Bool) → ℕ → Bool} {signExtend : Bool}
    (wIn wOut : UInt32) (hext : Extends signExtend wIn.toNat W)
    (hW : ∀ s : SubnetBuilder, HasInputs s wIn.toNat →
      s.Spells wIn.toNat W (inputsFrom 0 wIn.toNat))
    (hf : 0 < wIn.toNat → ∀ (ρ : EntryID → ℕ → Bool) (x : ℕ → Bool),
      (∀ i < wIn.toNat, ρ i 0 = x i) → ∀ j < wOut.toNat, negBit (W ρ) j = f x j) :
    ExactIf (0 < wIn.toNat ∧ 0 < wOut.toNat ∧ wOut.toNat ≤ 2 ^ 15)
      (synthNeg · wIn wOut signExtend) wIn.toNat wOut.toNat f (1 + adderCells wOut.toNat) := by
  obtain ⟨s₁, hadd, h⟩ := HasInputs.init.addInputs wIn.toNat
  rw [Nat.zero_add] at h
  have hle : wOut.toNat % 2 ^ 16 ≤ wOut.toNat := Nat.mod_le _ _
  have hrun : ∀ fuel, synthNeg fuel wIn wOut signExtend = (do
      let r ← twosComplement fuel s₁ (inputsFrom 0 wIn.toNat) wOut.toNat signExtend
      (← addOutputs r.2 r.1).make) := by
    intro fuel
    simp only [synthNeg, hadd, bind_eq_bind, bind_some]
  have hbuilt : BuiltIf (0 < wIn.toNat ∧ 0 < wOut.toNat % 2 ^ 16 ∧ wOut.toNat % 2 ^ 16 ≤ 2 ^ 15)
      (synthNeg · wIn wOut signExtend) wIn.toNat (wOut.toNat % 2 ^ 16) f
      (1 + adderCells (wOut.toNat % 2 ^ 16)) := by
    refine ⟨synthNeg_mono, ?_, fun hno fuel => ?_⟩
    · rintro ⟨hin, hout, hmax⟩
      obtain ⟨s₂, links, hneg, hs, hlinks⟩ :=
        twosComplement_eq (2 ^ 15 + 2) signExtend (.refl h.grown) (hW _ h) hext hin
        hout hmax (by omega)
      obtain ⟨s₃, S, hadd', hmake, himp⟩ := h.make (f := f) hs hlinks hout
        (fun ρ x hx j hj => hf hin ρ x hx j (Nat.lt_of_lt_of_le hj hle))
      have hsize := twosComplement_size hneg
      have hmade := size_made h hs hlinks hadd' hmake
      rw [h.size] at hsize
      refine ⟨S, ?_, himp, hmade.1, by omega⟩
      rw [hrun, hneg]
      simp only [hadd', hmake, bind_eq_bind, bind_some]
    · rw [hrun, twosComplement_none]
      · rfl
      · rw [inputsFrom_length]
        omega
  refine hbuilt.exactIf (hbuilt.builds_iff.trans ⟨?_, ?_⟩) fun _ => ?_
  · rintro ⟨hbits, -, hcut, -⟩
    omega
  · rintro ⟨hin, hpos, hmax⟩
    rw [Nat.mod_eq_of_lt (by omega)]
    exact ⟨⟨hin, hpos, hmax⟩, rfl, rfl, fun x j _ => rfl⟩
  · unfold adderCells
    omega

/-- The negated word of the sign-extended or zero-extended input. -/
def negS (wIn wOut : ℕ) (x : ℕ → Bool) : ℕ → Bool := (-(inputWord x 0 wIn).signExtend wOut).getLsbD

def negU (wIn wOut : ℕ) (x : ℕ → Bool) : ℕ → Bool := (-(inputWord x 0 wIn).setWidth wOut).getLsbD

theorem negBit_signExtended {first m : ℕ} {ρ : EntryID → ℕ → Bool} {x : ℕ → Bool}
    (hx : ∀ i < m, ρ i 0 = x i) (hm : first + n ≤ m) (hn : 0 < n) {j : ℕ} (hj : j < w) :
    negBit (signExtended first n ρ) j = (-(inputWord x first n).signExtend w).getLsbD j := by
  rw [← negBit_getLsbD _ hj]
  apply negBit_congr
  intro i hi
  exact signExtended_eq hx hm hn (Nat.lt_of_le_of_lt hi hj)

theorem negBit_zeroExtended {first m : ℕ} {ρ : EntryID → ℕ → Bool} {x : ℕ → Bool}
    (hx : ∀ i < m, ρ i 0 = x i) (hm : first + n ≤ m) {j : ℕ} (hj : j < w) :
    negBit (zeroExtended first n ρ) j = (-(inputWord x first n).setWidth w).getLsbD j := by
  rw [← negBit_getLsbD _ hj]
  apply negBit_congr
  intro i hi
  rw [BitVec.getLsbD_setWidth, decide_eq_true (Nat.lt_of_le_of_lt hi hj), Bool.true_and]
  exact zeroExtended_eq hx hm

private theorem synthNegS_exactIf (wIn wOut : UInt32) :
    ExactIf (0 < wIn.toNat ∧ 0 < wOut.toNat ∧ wOut.toNat ≤ 2 ^ 15) (synthNegS · wIn wOut)
      wIn.toNat wOut.toNat (negS wIn.toNat wOut.toNat) (1 + adderCells wOut.toNat) :=
  synthNeg_exactIf wIn wOut (signExtended_extends (Nat.le_refl _))
    (fun _ h => h.spells_signExtended (Nat.le_of_eq (Nat.zero_add _)))
    (fun hn _ _ hx _ hj => negBit_signExtended hx (Nat.le_of_eq (Nat.zero_add _)) hn hj)

private theorem synthNegU_exactIf (wIn wOut : UInt32) :
    ExactIf (0 < wIn.toNat ∧ 0 < wOut.toNat ∧ wOut.toNat ≤ 2 ^ 15) (synthNegU · wIn wOut)
      wIn.toNat wOut.toNat (negU wIn.toNat wOut.toNat) (1 + adderCells wOut.toNat) :=
  synthNeg_exactIf wIn wOut (zeroExtended_extends (Nat.le_refl _))
    (fun _ h => h.spells_zeroExtended 0 _ (Nat.le_of_eq (Nat.zero_add _)))
    (fun _ _ _ hx _ hj => negBit_zeroExtended hx (Nat.le_of_eq (Nat.zero_add _)) hj)

/-- The difference of the sign-extended or zero-extended inputs. -/
def differenceS (sizeA sizeB outSize : ℕ) (x : ℕ → Bool) : ℕ → Bool :=
  ((inputWord x 0 sizeA).signExtend outSize - (inputWord x sizeA sizeB).signExtend outSize).getLsbD

def differenceU (sizeA sizeB outSize : ℕ) (x : ℕ → Bool) : ℕ → Bool :=
  ((inputWord x 0 sizeA).setWidth outSize - (inputWord x sizeA sizeB).setWidth outSize).getLsbD

/-- The width of the subtrahend: one bit more than the operands have if the result is wider. -/
def maxSize (sizeA sizeB outSize : ℕ) : ℕ :=
  if max sizeA sizeB < outSize then max sizeA sizeB + 1 else max sizeA sizeB

theorem toNat_max (a b : UInt16) : (max a b).toNat = max a.toNat b.toNat := by
  have hdef : max a b = if a ≤ b then b else a := rfl
  rw [hdef, max_def]
  by_cases h : a ≤ b
  · rw [if_pos h, if_pos (UInt16.le_iff_toNat_le.mp h)]
  · rw [if_neg h, if_neg (fun hc => h (UInt16.le_iff_toNat_le.mpr hc))]

private theorem max_lt_iff (sizeA sizeB outSize : UInt16) :
    max sizeA sizeB < outSize ↔ max sizeA.toNat sizeB.toNat < outSize.toNat := by
  rw [UInt16.lt_iff_toNat_lt, toNat_max]

private theorem toNat_maxSize (sizeA sizeB outSize : UInt16) :
    (if max sizeA sizeB < outSize then max sizeA sizeB + 1 else max sizeA sizeB).toNat =
      maxSize sizeA.toNat sizeB.toNat outSize.toNat := by
  have h16 : outSize.toNat < 2 ^ 16 := outSize.toNat_lt
  have hlt := max_lt_iff sizeA sizeB outSize
  unfold maxSize
  by_cases h : max sizeA sizeB < outSize
  · have hlt := hlt.mp h
    rw [if_pos h, if_pos hlt, UInt16.toNat_add, toNat_max]
    exact Nat.mod_eq_of_lt (Nat.lt_of_le_of_lt (Nat.succ_le_of_lt hlt) h16)
  · rw [if_neg h, if_neg (fun hc => h (hlt.mpr hc)), toNat_max]

private theorem sumBit_negBit {nA nB M m outSize : ℕ} {ρ : EntryID → ℕ → Bool} {x : ℕ → Bool}
    (hx : ∀ i < m, ρ i 0 = x i) (hA : nA ≤ m) (hB : nA + nB ≤ m) (hposA : 0 < nA) (hposB : 0 < nB)
    (hM : M < outSize → nB < M) {j : ℕ} (hj : j < outSize) : sumBit (signExtended 0 nA ρ)
    (fun i => negBit (signExtended nA nB ρ) (min i (M - 1))) j =
      differenceS nA nB outSize x j := by
  rw [differenceS, BitVec.sub_eq_add_neg, ← sumBit_getLsbD _ _ hj]
  apply sumBit_congr
  intro i hi
  have hlt : i < outSize := Nat.lt_of_le_of_lt hi hj
  refine ⟨signExtended_eq hx (by omega) hposA hlt, ?_⟩
  rw [← negBit_signExtended hx hB hposB hlt]
  by_cases hle : i ≤ M - 1
  · rw [Nat.min_eq_left hle]
  · have hnB := hM (by omega)
    have hsign : ∀ j, nB - 1 ≤ j → signExtended nA nB ρ j = signExtended nA nB ρ (nB - 1) := by
      intro j hj
      rw [signExtended, signExtended, Nat.min_eq_right hj, Nat.min_self]
    rw [Nat.min_eq_right (by omega), negBit_of_sign hsign (by omega),
      negBit_of_sign hsign (by omega : nB - 1 < i)]

/-! ### The signed difference -/

private theorem synthSubS_mono {sizeA sizeB outSize : UInt32} {fuel' : ℕ} {S : Subnet}
    (hfuel : fuel ≤ fuel') (h : synthSubS fuel sizeA sizeB outSize = some S) :
    synthSubS fuel' sizeA sizeB outSize = some S := by
  simp only [synthSubS, bind_eq_bind, Option.bind_eq_some_iff] at h ⊢
  obtain ⟨r₁, hr₁, r₂, hr₂, A, hA, B, hB, A', hA', r₃, hr₃, r₄, hr₄, h⟩ := h
  exact ⟨r₁, hr₁, r₂, hr₂, A, hA, B, hB, A', hA', r₃, twosComplement_mono hfuel hr₃, r₄,
    synthLadnerFisherAdd_mono hfuel hr₄, h⟩

private theorem synthSubS_builtIf (sizeA sizeB outSize : UInt32) {p q m : UInt16}
    (hp : sizeA.toUInt16 = p) (hq : sizeB.toUInt16 = q) (hm : outSize.toUInt16 = m) :
    BuiltIf (0 < p.toNat ∧ 0 < q.toNat ∧ 0 < m.toNat ∧ maxSize p.toNat q.toNat m.toNat ≤ 2 ^ 15)
      (synthSubS · sizeA sizeB outSize) (p.toNat + q.toNat) m.toNat
      (differenceS p.toNat q.toNat m.toNat) (1 + 2 * adderCells (2 ^ 15)) := by
  obtain ⟨s₁, s₂, hadd₁, hadd₂, h⟩ := addInputs_two p.toNat q.toNat
  have hM := toNat_maxSize p q m
  have hwider := max_lt_iff p q m
  have h16A : p.toNat < 2 ^ 16 := p.toNat_lt
  have h16B : q.toNat < 2 ^ 16 := q.toNat_lt
  have h16 : m.toNat < 2 ^ 16 := m.toNat_lt
  generalize hMdef : maxSize p.toNat q.toNat m.toNat = M at *
  have hMle : max p.toNat q.toNat ≤ M ∧ M < 2 ^ 16 := by
    rw [← hMdef, maxSize]
    split <;> omega
  have hMcut : M % 2 ^ 16 = M := Nat.mod_eq_of_lt hMle.2
  by_cases hbits : 0 < p.toNat ∧ 0 < q.toNat
  · obtain ⟨hposA, hposB⟩ := hbits
    -- both operands get the sign as a further bit if the result is wider
    have hextend : ∀ (first n : ℕ), first + n ≤ p.toNat + q.toNat → 0 < n →
        ∃ word, (if max p q < m then resize (inputsFrom first n) (n + 1)
          else some (inputsFrom first n)) = some word ∧
          s₂.Spells (if max p q < m then n + 1 else n) (signExtended first n) word := by
      intro first n hn hpos
      apply resize_inputs h first n _ (n + 1) hn hpos
      · split <;> omega
      · intro hc
        rw [if_pos hc]
      · intro hc
        rw [if_neg hc]
    obtain ⟨A, hA, hspellsA⟩ := hextend 0 p.toNat (by omega) hposA
    obtain ⟨B, hB, hspellsB⟩ := hextend p.toNat q.toNat (Nat.le_refl _) hposB
    generalize hnA : (if max p q < m then p.toNat + 1 else p.toNat) = nA at *
    generalize hnB : (if max p q < m then q.toNat + 1 else q.toNat) = nB at *
    have hsizes : max nA nB = M ∧ p.toNat ≤ nA ∧ q.toNat ≤ nB ∧ (M < m.toNat → q.toNat < M) := by
      rw [← hMdef, maxSize]
      by_cases hc : max p q < m
      · rw [if_pos hc] at hnA hnB
        rw [if_pos (hwider.mp hc)]
        omega
      · rw [if_neg hc] at hnA hnB
        rw [if_neg (fun hy => hc (hwider.mpr hy))]
        have hge : ¬ max p.toNat q.toNat < m.toNat := fun hy => hc (hwider.mpr hy)
        omega
    obtain ⟨hmax, hleA, hleB, hlast⟩ := hsizes
    obtain ⟨A', hA', hspellsA'⟩ : ∃ A', (if A.length < B.length then resize A B.length else
      some A) = some A' ∧
        s₂.Spells M (signExtended 0 p.toNat) A' := by
      rw [hspellsA.length, hspellsB.length]
      by_cases hlt : nA < nB
      · obtain ⟨A', hrun, hspells⟩ := resize_eq hspellsA (by omega) (Nat.le_of_lt hlt)
        rw [show M = nB by omega]
        refine ⟨A', by rw [if_pos hlt, hrun], hspells.congr (fun ρ i _ => ?_)⟩
        rw [signExtended, signExtended]
        congr 2
        omega
      · rw [show M = nA by omega]
        exact ⟨A, if_neg hlt, hspellsA⟩
    have hrun : ∀ fuel, synthSubS fuel sizeA sizeB outSize = (do
        let r ← twosComplement fuel s₂ B M true
        let q ← synthLadnerFisherAdd fuel r.1 A' r.2 m true
        (← addOutputs q.2 q.1).make) := by
      intro fuel
      simp only [synthSubS, hp, hq, hm, hadd₁, hadd₂, hA, hB, hA', bind_eq_bind, bind_some,
        decide_eq_true_eq, hM]
    refine ⟨synthSubS_mono, ?_, ?_⟩
    · rintro ⟨-, -, hpos, hMmax⟩
      obtain ⟨s₃, B', hneg, hs₃, hspellsB'⟩ :=
        twosComplement_eq (2 ^ 15 + 2) true (.refl h.grown) hspellsB
        (signExtended_extends hleB) (by omega) (w := M) (by omega) (by omega) (by omega)
      rw [hMcut] at hspellsB'
      have hspellsB'' : s₃.Spells M (fun ρ i => negBit (signExtended p.toNat q.toNat ρ)
          (min i (M - 1))) B' := by
        apply hspellsB'.congr
        intro ρ i hi
        rw [Nat.min_eq_left (by omega)]
      obtain ⟨s₄, links, F, hadd, hs₄, hF, hsame⟩ :=
        synthLadnerFisherAdd_eq (2 ^ 15 + 2) m true false hs₃
        (hspellsA'.mono hs₃) hspellsB'' (by omega) (by omega) (by omega) (by omega) (by omega)
        (fun ρ i h₁ h₂ => absurd h₁ (Nat.not_le.mpr h₂))
        (fun ρ i h₁ h₂ => absurd h₁ (Nat.not_le.mpr h₂)) (fun _ _ => by
          rw [Nat.max_self]
          refine ⟨signExtended_extends (by omega), fun ρ i hi => ?_, fun _ => rfl⟩
          have hmin : min i (M - 1) = min (M - 1) (M - 1) := by omega
          simp only [hmin, Bool.true_and])
        (fun hs => by cases hs)
      obtain ⟨s₅, S, hout, hmake, himp⟩ := h.make (f := differenceS p.toNat q.toNat m.toNat)
        (hs₃.trans hs₄) hF hpos (fun ρ x hx j hj => (hsame ρ j hj (.inr rfl)).trans
          (sumBit_negBit hx (by omega) (Nat.le_refl _) hposA hposB hlast hj))
      have hfirst := twosComplement_size hneg
      have hsize := synthLadnerFisherAdd_size hadd
      rw [h.size, hMcut] at hfirst
      rw [hspellsA'.length, hspellsB''.length] at hsize
      have hmade := size_made h (hs₃.trans hs₄) hF hout hmake
      refine ⟨S, ?_, himp, hmade.1, by unfold adderCells at *; omega⟩
      rw [hrun, hneg]
      simp only [hadd, hout, hmake, bind_eq_bind, bind_some]
    · intro hno fuel
      rw [hrun]
      by_cases hbig : 2 ^ 15 < M
      · rw [twosComplement_none (.inr (.inr (hMcut.symm ▸ hbig)))]
        rfl
      · have hzero : m.toNat = 0 := by omega
        simp only [synthLadnerFisherAdd_zero hzero, bind_eq_bind, bind_none, Option.bind_fun_none]
  · refine ⟨synthSubS_mono, fun hyes => absurd ⟨hyes.1, hyes.2.1⟩ hbits, fun _ fuel => ?_⟩
    have hempty : ∀ {first n size : ℕ}, n = 0 → resize (inputsFrom first n) size = none := by
      rintro first n size rfl
      rfl
    simp only [synthSubS, hp, hq, hm, hadd₁, hadd₂, bind_eq_bind, bind_some, decide_eq_true_eq, hM]
    by_cases hc : max p q < m
    · simp only [if_pos hc]
      by_cases hzeroA : p.toNat = 0
      · rw [hempty hzeroA]
        rfl
      · simp only [hempty (show q.toNat = 0 by omega), bind_none, Option.bind_fun_none]
    · simp only [if_neg hc, bind_some, inputsFrom_length]
      by_cases hlt : p.toNat < q.toNat
      · rw [if_pos hlt, hempty (by omega)]
        rfl
      · rw [if_neg hlt, bind_some, twosComplement_none]
        · rfl
        · rw [inputsFrom_length]
          omega

/-! ### The unsigned difference -/

/-- The network of the unsigned difference has twice the outputs. -/
theorem synthSubU_nOut {sizeA sizeB outSize : UInt32} {p q m : UInt16} {S : Subnet}
    (hp : sizeA.toUInt16 = p) (hq : sizeB.toUInt16 = q) (hm : outSize.toUInt16 = m)
    (hS : synthSubU fuel sizeA sizeB outSize = some S) : 0 < m.toNat ∧
    S.nOut = m.toNat + m.toNat := by
  obtain ⟨s₁, s₂, hadd₁, hadd₂, h⟩ := addInputs_two p.toNat q.toNat
  have hM := toNat_maxSize p q m
  have h16A : p.toNat < 2 ^ 16 := p.toNat_lt
  have h16B : q.toNat < 2 ^ 16 := q.toNat_lt
  have h16 : m.toNat < 2 ^ 16 := m.toNat_lt
  generalize hMdef : maxSize p.toNat q.toNat m.toNat = M at *
  have hMle : max p.toNat q.toNat ≤ M ∧ M < 2 ^ 16 := by
    rw [← hMdef, maxSize]
    split <;> omega
  simp only [synthSubU, hp, hq, hm, hadd₁, hadd₂, hM, bind_eq_bind, bind_some] at hS
  obtain ⟨⟨s₃, B⟩, hneg, hS⟩ := Option.bind_eq_some_iff.mp hS
  obtain ⟨⟨s₄, links⟩, hsub, hS⟩ := Option.bind_eq_some_iff.mp hS
  obtain ⟨s₅, hout, hS⟩ := Option.bind_eq_some_iff.mp hS
  obtain ⟨⟨s₆, links'⟩, hsub', hS⟩ := Option.bind_eq_some_iff.mp hS
  obtain ⟨s₇, hout', hmake⟩ := Option.bind_eq_some_iff.mp hS
  have hpos : 0 < m.toNat := by
    apply Nat.pos_of_ne_zero
    intro hzero
    rw [synthLadnerFisherAdd_zero hzero] at hsub
    cases hsub
  have hneg' : 0 < q.toNat ∧ M ≤ 2 ^ 15 := by
    by_contra hno
    rw [twosComplement_none (by rw [inputsFrom_length]; omega)] at hneg
    cases hneg
  obtain ⟨hposB, hMmax⟩ := hneg'
  -- with more fuel the runs are the same, and their results are known
  have hmore := Nat.le_max_left fuel (2 ^ 15 + 2)
  have henough := Nat.le_max_right fuel (2 ^ 15 + 2)
  generalize max fuel (2 ^ 15 + 2) = fuel' at hmore henough
  have hwordA := h.spells_zeroExtended 0 p.toNat (by omega)
  have hwordB := h.spells_zeroExtended p.toNat q.toNat (Nat.le_refl _)
  obtain ⟨s₃', B', hrun, hs₃, hwordB'⟩ := twosComplement_eq fuel' false (.refl h.grown) hwordB
    (zeroExtended_extends (Nat.le_refl _)) hposB (w := M) (by omega) (by omega) (by omega)
  obtain ⟨rfl, rfl⟩ := Prod.mk.inj
    (Option.some.inj ((twosComplement_mono hmore hneg).symm.trans hrun))
  rw [Nat.mod_eq_of_lt hMle.2] at hwordB'
  have hvalid := h.validLinks_default (by omega)
  have hadder : ∀ {ins outs : List EntryID} {t : SubnetBuilder}, Enlarged ins outs t t →
      s₂.netlist.Le t.netlist → t.Spells M (fun ρ => negBit (zeroExtended p.toNat q.toNat ρ)) B →
      ∃ t' ls F, synthLadnerFisherAdd fuel' t B (inputsFrom 0 p.toNat) m true true = some (t', ls) ∧
        Enlarged ins outs t t' ∧ t'.Spells m.toNat F ls := by
    intro ins outs t ht hle hB
    obtain ⟨t', ls, F, hadd, ht', hF, -⟩ :=
      synthLadnerFisherAdd_eq fuel' m true true ht hB (hwordA.mono_le hle)
      (by omega) h16A (by omega) (by omega) (by omega) (fun ρ i h₁ h₂ => absurd h₁ (by omega))
      (fun ρ i hi _ => if_neg (Nat.not_lt.mpr hi)) (fun hs => by cases hs)
      (fun _ => hvalid.mono hle)
    exact ⟨t', ls, F, hadd, ht', hF⟩
  have hdrawn : Drawn s₃ (p.toNat + q.toNat) [] (fun _ _ => false) := h.drawn.enlarge hs₃
  obtain ⟨s₄', links₁, F₁, hrun, hs₄, hF₁⟩ := hadder hdrawn.enlarged hs₃.le hwordB'
  obtain ⟨rfl, rfl⟩ := Prod.mk.inj
    (Option.some.inj ((synthLadnerFisherAdd_mono hmore hsub).symm.trans hrun))
  obtain ⟨s₅', outs₁, hrun, hlen₁, hle₁, hdrawn₁⟩ := (hdrawn.enlarge hs₄).addOutputs hF₁
  obtain rfl := Option.some.inj (hout.symm.trans hrun)
  have hle₅ := hs₄.le.trans hle₁
  obtain ⟨s₆', links₂, F₂, hrun, hs₆, hF₂⟩ :=
    hadder hdrawn₁.enlarged (hs₃.le.trans hle₅) (hwordB'.mono_le hle₅)
  obtain ⟨rfl, rfl⟩ := Prod.mk.inj
    (Option.some.inj ((synthLadnerFisherAdd_mono hmore hsub').symm.trans hrun))
  obtain ⟨s₇', outs₂, hrun, hlen₂, -, hdrawn₂⟩ := (hdrawn₁.enlarge hs₆).addOutputs hF₂
  obtain rfl := Option.some.inj (hout'.symm.trans hrun)
  refine ⟨hpos, ?_⟩
  rw [(hdrawn₂.exists_values hmake).2.1, hlen₂, hlen₁, length_nil, Nat.zero_add]

/-- The network of the unsigned difference never has the outputs asked for. -/
theorem synthSubU_not_exact (sizeA sizeB outSize : UInt32) {f : (ℕ → Bool) → ℕ → Bool} :
    ¬ Builds (synthSubU · sizeA sizeB outSize) (sizeA.toNat + sizeB.toNat) outSize.toNat f := by
  rintro ⟨fuel, S, hS, himp⟩
  obtain ⟨hpos, hout⟩ := synthSubU_nOut rfl rfl rfl hS
  rw [himp.nOut] at hout
  rw [UInt32.toNat_toUInt16] at hpos hout
  omega

def linkWord (ρ : EntryID → ℕ → Bool) (word : List Link) : BitVec word.length :=
  inputWord (fun i => ((word[i]?).map (Link.value ρ)).getD false) 0 word.length

def AddsAbsoluteValue (s : SubnetBuilder) (word : List Link) : Prop :=
  ∃ fuel s' links, absoluteValue fuel s word = some (s', links) ∧ links.length = word.length ∧
    ∀ lib x ρ, s'.netlist.Solves lib x ρ → ∀ j l, links[j]? = some l →
    l.value ρ = (linkWord ρ word).abs.getLsbD j

private theorem addXors_eq {sign : Link} {F : (EntryID → ℕ → Bool) → Bool}
    (hs : s.Computes sign F) : ∀ {word : List Link} {n : ℕ} {W : (EntryID → ℕ → Bool) → ℕ → Bool}
    {s' : SubnetBuilder},
      Enlarged ins outs s s' → s'.Spells n W word → ∃ s'' links, addXors sign word s' =
      some (s'', links) ∧
        Enlarged ins outs s' s'' ∧ s''.Spells n (fun ρ i => xor (W ρ i) (F ρ)) links := by
  intro word
  induction word with
  | nil =>
    intro n W s' h hW
    obtain rfl : 0 = n := hW.length
    exact ⟨s', [], rfl, .refl h.grown.choose_spec, .nil⟩
  | cons l word ih =>
    intro n W s' h hW
    obtain rfl : word.length + 1 = n := hW.length
    obtain ⟨l', hl', hcl⟩ := hW.bits 0 (Nat.succ_pos _)
    obtain rfl := Option.some.inj hl'
    obtain ⟨s₁, link, hadd, h₁, hs₁, hlink⟩ := h.addXor hcl (hs.mono h)
    obtain ⟨s₂, links, hrun, hs₂, hlinks⟩ := ih h₁ ((hW.drop 1).mono hs₁)
    refine ⟨s₂, link :: links, ?_, hs₁.trans hs₂,
      (hlinks.cons (hlink.mono hs₂)).congr (fun ρ i _ => ?_)⟩
    · rw [addXors]
      simp only [hadd, hrun, bind_eq_bind, bind_some]
    · cases i with
      | zero => rfl
      | succ i => rw [if_neg (Nat.succ_ne_zero i), Nat.add_sub_cancel, Nat.add_comm 1 i]

theorem absoluteValue_eq (fuel : ℕ) {word : List Link} {n : ℕ} {A : (EntryID → ℕ → Bool) → BitVec n}
    (h : Enlarged ins outs s s') (hW : s'.Spells n (fun ρ => (A ρ).getLsbD) word) (hpos : 0 < n)
    (hmax : n ≤ 2 ^ 15) (hfuel : n + 2 ≤ fuel) : ∃ s'' links, absoluteValue fuel s' word =
    some (s'', links) ∧ Enlarged ins outs s' s'' ∧
      s''.Spells n (fun ρ => (A ρ).abs.getLsbD) links := by
  obtain ⟨sign, hsign, hcsign⟩ := hW.getLast hpos
  obtain ⟨s₁, temp, htemp, hs₁, hwtemp⟩ := addXors_eq hcsign (.refl h.grown.choose_spec) hW
  have hsize : n.toUInt16.toNat = n :=
    UInt16.toNat_ofNat_of_lt' (Nat.lt_of_le_of_lt hmax (by decide))
  have hmaxw : max n 1 = n := Nat.max_eq_left hpos
  have hone : s₁.Spells 1 (fun ρ j => decide (j = 0) && (A ρ).getLsbD (n - 1)) [sign] := by
    apply (Spells.singleton (hcsign.mono hs₁)).congr
    intro ρ i hi
    rw [decide_eq_true (Nat.lt_one_iff.mp hi), Bool.true_and]
  obtain ⟨s₂, links, F, hadd, hs₂, hF, hsame⟩ :=
    synthLadnerFisherAdd_eq fuel n.toUInt16 true false (h.trans hs₁) hwtemp hone
    (by omega) (Nat.one_lt_two_pow (by decide)) (by rw [hsize, hmaxw]; omega)
    (by rw [hsize, hmaxw]; omega) (by rw [hsize, hmaxw]; omega)
    (fun ρ i hi hi' => absurd hi' (by omega))
    (fun ρ i hi _ => by rw [decide_eq_false (by omega), Bool.false_and])
    (fun _ hlt => by rw [hsize, hmaxw] at hlt; omega) (fun hs => by cases hs)
  rw [hsize] at hF hsame
  refine ⟨s₂, links, ?_, hs₁.trans hs₂, hF.congr (fun ρ j hj => ?_)⟩
  · simp only [absoluteValue, hsign, htemp, hW.length, hadd, bind_eq_bind, bind_some]
  · apply (hsame ρ j hj (.inr rfl)).trans
    rw [BitVec.abs_eq, BitVec.msb_eq_getLsbD_last]
    cases (A ρ).getLsbD (n - 1) with
    | false =>
      simp only [Bool.xor_false, Bool.and_false, Bool.false_eq_true, if_false]
      exact sumBit_zero
    | true =>
      simp only [Bool.xor_true, Bool.and_true, if_true]
      exact negBit_getLsbD _ hj

theorem spells_linkWord (h : s.ValidLinks word) :
    s.Spells word.length (fun ρ => (linkWord ρ word).getLsbD) word := by
  refine ⟨rfl, fun i hi => ⟨word[i], getElem?_eq_getElem hi, ?_, fun lib x ρ _ => ?_⟩⟩
  · intro l hl
    rw [List.mem_singleton.mp hl]
    exact h _ (getElem_mem hi)
  · have hbit : (linkWord ρ word).getLsbD i = _ := inputWord_getLsbD
    simp only [hbit, if_pos hi, Nat.zero_add, getElem?_eq_getElem hi, Option.map_some,
      Option.getD_some]

theorem absoluteValue_iff {mid : List EntryID} (h : Grown s ins mid outs) (hl : s.ValidLinks word) :
    AddsAbsoluteValue s word ↔ 0 < word.length ∧ word.length ≤ 2 ^ 15 := by
  have hW := spells_linkWord hl
  constructor
  · rintro ⟨fuel, s', links, hrun, hlen, -⟩
    obtain ⟨sign, hsign, hrun⟩ := Option.bind_eq_some_iff.mp hrun
    obtain ⟨⟨s₁, temp⟩, htemp, hrun⟩ := Option.bind_eq_some_iff.mp hrun
    have hpos : 0 < word.length := by
      cases word with
      | nil => cases hsign
      | cons l word => exact Nat.succ_pos _
    obtain ⟨sign', hsign', hcsign⟩ := hW.getLast hpos
    obtain rfl := Option.some.inj (hsign.symm.trans hsign')
    obtain ⟨s₁', temp', hrun', -, htemp'⟩ := addXors_eq hcsign (.refl h) hW
    obtain ⟨rfl, rfl⟩ := Prod.mk.inj (Option.some.inj (htemp.symm.trans hrun'))
    have hsize : word.length.toUInt16.toNat = word.length :=
      (synthLadnerFisherAdd_length hrun).symm.trans hlen
    have h16 : word.length < 2 ^ 16 := hsize ▸ word.length.toUInt16.toNat_lt
    refine ⟨hpos, ?_⟩
    by_contra hbig
    have hnone : synthLadnerFisherAdd fuel s₁ temp [sign] word.length.toUInt16 true = none := by
      apply synthLadnerFisherAdd_none (htemp'.length.symm ▸ h16) (Nat.one_lt_two_pow (by decide))
      rw [hsize, htemp'.length, length_singleton]
      omega
    have hrun : synthLadnerFisherAdd fuel s₁ temp [sign] word.length.toUInt16 true =
        some (s', links) := hrun
    rw [hnone] at hrun
    cases hrun
  · rintro ⟨hpos, hmax⟩
    obtain ⟨s', links, hrun, -, hlinks⟩ := absoluteValue_eq _ (.refl h) hW hpos hmax (Nat.le_refl _)
    refine ⟨word.length + 2, s', links, hrun, hlinks.length, fun lib x ρ hρ j l hj => ?_⟩
    obtain ⟨l', hl', hc⟩ := hlinks.bits j (hlinks.length ▸ (List.getElem?_eq_some_iff.mp hj).1)
    obtain rfl := Option.some.inj (hj.symm.trans hl')
    exact hc.2 lib x ρ hρ

/-- The networks of differences, of negated words and of absolute values are exact for up to
`2 ^ 15` bits, and only for these, as far as the entries of a subnet suffice; the network of the
unsigned difference is never exact. -/
theorem synthSub_exact (sizeA sizeB outSize : UInt32) {mid : List EntryID}
    (h : Grown s ins mid outs) (hl : s.ValidLinks word) :
    (BuildsWithin (synthSubS · sizeA sizeB outSize) (sizeA.toNat + sizeB.toNat) outSize.toNat
        (differenceS sizeA.toNat sizeB.toNat outSize.toNat) ↔
      (sizeA.toNat < 2 ^ 16 ∧ sizeB.toNat < 2 ^ 16 ∧ outSize.toNat < 2 ^ 16) ∧
        0 < sizeA.toNat ∧ 0 < sizeB.toNat ∧ 0 < outSize.toNat ∧
          maxSize sizeA.toNat sizeB.toNat outSize.toNat ≤ 2 ^ 15) ∧
    ¬ Builds (synthSubU · sizeA sizeB outSize) (sizeA.toNat + sizeB.toNat) outSize.toNat
        (differenceU sizeA.toNat sizeB.toNat outSize.toNat) ∧
    ExactIf (0 < sizeA.toNat ∧ 0 < outSize.toNat ∧ outSize.toNat ≤ 2 ^ 15)
      (synthNegS · sizeA outSize) sizeA.toNat outSize.toNat (negS sizeA.toNat outSize.toNat)
      (1 + adderCells outSize.toNat) ∧
    ExactIf (0 < sizeA.toNat ∧ 0 < outSize.toNat ∧ outSize.toNat ≤ 2 ^ 15)
      (synthNegU · sizeA outSize) sizeA.toNat outSize.toNat (negU sizeA.toNat outSize.toNat)
      (1 + adderCells outSize.toNat) ∧
    (AddsAbsoluteValue s word ↔ 0 < word.length ∧ word.length ≤ 2 ^ 15) :=
  ⟨BuiltIf.cut_iff (q := fun a b o => 0 < a ∧ 0 < b ∧ 0 < o ∧ maxSize a b o ≤ 2 ^ 15)
      (g := differenceS) (synthSubS_builtIf sizeA sizeB outSize rfl rfl rfl) (by decide),
    synthSubU_not_exact sizeA sizeB outSize, synthNegS_exactIf sizeA outSize,
    synthNegU_exactIf sizeA outSize, absoluteValue_iff h hl⟩

/-- The absolute value of a word of two inputs is added. -/
theorem synthSub_exact_absoluteValue :
    ∃ s word, addInputs 2 {} = some (s, word) ∧ AddsAbsoluteValue s word := by
  obtain ⟨s, hadd, h⟩ := HasInputs.init.addInputs 2
  have hword := h.spells 0 2 (Nat.le_refl _)
  exact ⟨s, _, hadd, (synthSub_exact 2 2 2 h.grown hword.valid).2.2.2.2.mpr (by decide)⟩

/-- The network of the unsigned difference of single bits has two outputs. -/
theorem synthSub_not_exact : ¬ Builds (synthSubU · 1 1 1) (1 + 1) 1 (differenceU 1 1 1) :=
  synthSubU_not_exact 1 1 1

end UtopiaEda.Synthesizer
