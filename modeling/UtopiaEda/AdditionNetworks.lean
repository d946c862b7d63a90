import UtopiaEda.AdditionLimits
import UtopiaEda.WordArithmetic

/-!
# The networks for sums

The prefix adder adds at most `2 ^ 15` bits; for more bits its loops do not end.
-/
namespace UtopiaEda.Synthesizer

open List
open Option (bind_eq_bind bind_some)
open SubnetBuilder PrefixCarries
open BitVec (add_zero getLsbD_setWidth setWidth_zero zero_add)

variable {s s' s'' : SubnetBuilder} {ins outs : List EntryID} {fuel n nA nB : ℕ}
  {a b W : (EntryID → ℕ → Bool) → ℕ → Bool} {A B links : List Link} {useSign isUnsignedSub : Bool}

/-! ### Long words

Only as many bits of a word are looked at as its length cut to 16 bits says. -/

private theorem addBits_congr {A' B' : List Link} :
    ∀ {is : List ℕ} {s : SubnetBuilder} {st : PrefixState},
    (∀ i ∈ is, A'[i]? = A[i]? ∧ B'[i]? = B[i]?) → addBits A' B' is s st = addBits A B is s st := by
  intro is
  induction is with
  | nil => exact fun _ => rfl
  | cons i is ih =>
    intro s st h
    obtain ⟨hA, hB⟩ := h i mem_cons_self
    rw [addBits, addBits, hA, hB]
    simp only [ih (fun j hj => h j (mem_cons_of_mem i hj))]

private theorem copyBits_congr {A' : List Link} :
    ∀ {is : List ℕ} {st : PrefixState}, (∀ i ∈ is, A'[i]? = A[i]?) →
    copyBits A' is st = copyBits A is st := by
  intro is
  induction is with
  | nil => exact fun _ => rfl
  | cons i is ih =>
    intro st h
    rw [copyBits, copyBits, h i mem_cons_self]
    simp only [ih (fun j hj => h j (mem_cons_of_mem i hj))]

private theorem addSwapped_take {outSize : UInt16}
    (hsign : useSign = false ∨ outSize.toNat ≤ A.length % 2 ^ 16) :
    addSwapped fuel s (A.take (A.length % 2 ^ 16))
    (B.take (B.length % 2 ^ 16)) outSize useSign isUnsignedSub =
      addSwapped fuel s A B outSize useSign isUnsignedSub := by
  have hlen : ∀ word : List Link, (word.take (word.length % 2 ^ 16)).length % 2 ^ 16 =
      word.length % 2 ^ 16 := by
    intro word
    rw [length_take, Nat.min_eq_left (Nat.mod_le _ _), Nat.mod_mod]
  have hget : ∀ (word : List Link) i, i < word.length % 2 ^ 16 →
      (word.take (word.length % 2 ^ 16))[i]? = word[i]? :=
    fun word i hi => getElem?_take_of_lt hi
  unfold addSwapped
  simp only [hlen]
  split
  · rfl
  · have hbits : ∀ st, addBits (A.take (A.length % 2 ^ 16)) (B.take (B.length % 2 ^ 16))
        (.range (min (min outSize.toNat (A.length % 2 ^ 16)) (B.length % 2 ^ 16))) s st =
        addBits A B (.range (min (min outSize.toNat (A.length % 2 ^ 16)) (B.length % 2 ^ 16)))
        s st := by
      intro st
      apply addBits_congr
      intro i hi
      rw [mem_range] at hi
      exact ⟨hget A i (by omega), hget B i (by omega)⟩
    have hcopy : ∀ st, copyBits (A.take (A.length % 2 ^ 16))
        (.range' (min (min outSize.toNat (A.length % 2 ^ 16))
        (B.length % 2 ^ 16)) (min outSize.toNat (A.length % 2 ^ 16) - min
          (min outSize.toNat (A.length % 2 ^ 16))
        (B.length % 2 ^ 16))) st = copyBits A (.range' (min (min outSize.toNat (A.length % 2 ^ 16))
        (B.length % 2 ^ 16)) (min outSize.toNat (A.length % 2 ^ 16) - min
          (min outSize.toNat (A.length % 2 ^ 16))
        (B.length % 2 ^ 16))) st := by
      intro st
      apply copyBits_congr
      intro i hi
      rw [mem_range'_1] at hi
      exact hget A i (by omega)
    rw [hbits]
    simp only [hcopy]
    rcases hsign with rfl | hle
    · simp only [addCarryOut, Bool.not_false, Bool.and_true, Bool.false_eq_true, if_false]
    · simp only [if_neg (Nat.not_lt.mpr hle)]

/-- Without a sign that goes on behind the words, the cut words are added. -/
theorem synthLadnerFisherAdd_take (fuel : ℕ) (s : SubnetBuilder) (A B : List Link)
    (outSize : UInt16) (useSign isUnsignedSub : Bool) (hsign : (useSign || isUnsignedSub) = false ∨
    outSize.toNat ≤ max (A.length % 2 ^ 16) (B.length % 2 ^ 16)) :
    synthLadnerFisherAdd fuel s (A.take (A.length % 2 ^ 16))
    (B.take (B.length % 2 ^ 16)) outSize useSign isUnsignedSub =
      synthLadnerFisherAdd fuel s A B outSize useSign isUnsignedSub := by
  unfold synthLadnerFisherAdd
  simp only [length_take, Nat.min_eq_left (Nat.mod_le _ _), Nat.mod_mod]
  by_cases hlt : A.length % 2 ^ 16 < B.length % 2 ^ 16
  · rw [if_pos hlt, if_pos hlt]
    exact addSwapped_take (hsign.imp_right (fun hle => by omega))
  · rw [if_neg hlt, if_neg hlt]
    exact addSwapped_take (hsign.imp_right (fun hle => by omega))

/-! ### The adder -/

/-- The adder of two words; the shorter one goes on with zeros up to the length of the other. -/
theorem synthLadnerFisherAdd_eq (fuel : ℕ) (outSize : UInt16) (useSign isUnsignedSub : Bool)
    (h : Enlarged ins outs s s') (hA : s'.Spells nA a A) (hB : s'.Spells nB b B)
    (hltA : nA < 2 ^ 16) (hltB : nB < 2 ^ 16) (hpos : 0 < min outSize.toNat (max nA nB))
    (hmin : min outSize.toNat (max nA nB) ≤ 2 ^ 15)
    (hfuel : min outSize.toNat (max nA nB) + 2 ≤ fuel) (ha : ∀ ρ i, nA ≤ i → i < nB → a ρ i = false)
    (hb : ∀ ρ i, nB ≤ i → i < nA → b ρ i = false) (hext : isUnsignedSub = false →
    max nA nB < outSize.toNat →
      Extends useSign (max nA nB) a ∧ Extends useSign (max nA nB) b ∧ (useSign = true → nA = nB))
    (hzero : isUnsignedSub = true → s'.ValidLinks [⟨0, 0, false⟩]) :
    ∃ s'' links F, synthLadnerFisherAdd fuel s' A B outSize useSign isUnsignedSub =
    some (s'', links) ∧
      Enlarged ins outs s' s'' ∧ s''.Spells outSize.toNat F links ∧
      ∀ ρ i, i < outSize.toNat → i < max nA nB ∨ isUnsignedSub = false →
      F ρ i = sumBit (a ρ) (b ρ) i := by
  have hsub : isUnsignedSub = true → (useSign || isUnsignedSub) = true := fun hyes => by
    rw [hyes, Bool.or_true]
  have hsign : isUnsignedSub = false → (useSign || isUnsignedSub) = useSign := fun hno => by
    rw [hno, Bool.or_false]
  unfold synthLadnerFisherAdd
  simp only [hA.length, hB.length, Nat.mod_eq_of_lt hltA, Nat.mod_eq_of_lt hltB]
  by_cases hlt : nA < nB
  · rw [if_pos hlt]
    rw [Nat.max_eq_right (Nat.le_of_lt hlt)] at *
    obtain ⟨s'', links, F, hrun, hs, hF, hsame⟩ :=
      addSwapped_eq fuel outSize _ isUnsignedSub h hB hA (Nat.le_of_lt hlt) hltB hpos hmin
        hfuel ha hsub
      (fun hno hout => by
        rw [hsign hno]
        obtain ⟨h₁, h₂, h₃⟩ := hext hno hout
        exact ⟨h₂, h₁, fun hs => (h₃ hs).symm⟩) hzero
    exact ⟨s'', links, F, hrun, hs, hF, fun ρ i hi hor => (hsame ρ i hi hor).trans sumBit_comm⟩
  · rw [if_neg hlt]
    rw [Nat.max_eq_left (Nat.not_lt.mp hlt)] at *
    exact addSwapped_eq fuel outSize _ isUnsignedSub h hA hB (Nat.not_lt.mp hlt) hltA hpos hmin
      hfuel hb hsub (fun hno hout => by rw [hsign hno]; exact hext hno hout) hzero

theorem synthLadnerFisherAdd_none_of_cut {outSize : UInt16}
    (h : 2 ^ 15 < min outSize.toNat (max (A.length % 2 ^ 16) (B.length % 2 ^ 16)) ∨
      min outSize.toNat (max (A.length % 2 ^ 16) (B.length % 2 ^ 16)) = 0) :
    synthLadnerFisherAdd fuel s A B outSize useSign isUnsignedSub = none := by
  unfold synthLadnerFisherAdd
  simp only
  by_cases hlt : A.length % 2 ^ 16 < B.length % 2 ^ 16
  · rw [if_pos hlt]
    rw [Nat.max_eq_right (Nat.le_of_lt hlt)] at h
    exact addSwapped_none h
  · rw [if_neg hlt]
    rw [Nat.max_eq_left (Nat.not_lt.mp hlt)] at h
    exact addSwapped_none h

theorem synthLadnerFisherAdd_none {outSize : UInt16} (hltA : A.length < 2 ^ 16)
    (hltB : B.length < 2 ^ 16) (h : 2 ^ 15 < min outSize.toNat (max A.length B.length) ∨
    min outSize.toNat (max A.length B.length) = 0) : synthLadnerFisherAdd fuel s A B outSize useSign
    isUnsignedSub = none :=
  synthLadnerFisherAdd_none_of_cut (by rwa [Nat.mod_eq_of_lt hltA, Nat.mod_eq_of_lt hltB])

theorem synthLadnerFisherAdd_zero {outSize : UInt16} (h : outSize.toNat = 0) :
    synthLadnerFisherAdd fuel s A B outSize useSign isUnsignedSub = none := by
  unfold synthLadnerFisherAdd
  simp only
  split
  · exact addSwapped_none (.inr (by rw [h, Nat.zero_min]))
  · exact addSwapped_none (.inr (by rw [h, Nat.zero_min]))

theorem synthLadnerFisherAdd_mono {fuel' : ℕ} {outSize : UInt16} {r : SubnetBuilder × List Link}
    (hfuel : fuel ≤ fuel') (h : synthLadnerFisherAdd fuel s A B outSize useSign isUnsignedSub =
    some r) : synthLadnerFisherAdd fuel' s A B outSize useSign isUnsignedSub = some r := by
  unfold synthLadnerFisherAdd at h ⊢
  simp only at h ⊢
  split at h
  · rename_i hlt
    rw [if_pos hlt]
    exact addSwapped_mono hfuel h
  · rename_i hlt
    rw [if_neg hlt]
    exact addSwapped_mono hfuel h

theorem synthLadnerFisherAdd_length {outSize : UInt16}
    (h : synthLadnerFisherAdd fuel s A B outSize useSign isUnsignedSub = some (s', links)) :
    links.length = outSize.toNat := by
  unfold synthLadnerFisherAdd at h
  simp only at h
  split at h
  · exact addSwapped_length h
  · exact addSwapped_length h

/-- With enough fuel the network is built, and it computes the function. -/
def Builds (synth : ℕ → Option Subnet) (n k : ℕ) (f : (ℕ → Bool) → ℕ → Bool) : Prop :=
  ∃ fuel S, synth fuel = some S ∧ S.Implements n k f

private theorem implements_unique {S : Subnet} {k k' : ℕ} {f f' : (ℕ → Bool) → ℕ → Bool} {n' : ℕ}
    (h : S.Implements n k f) (h' : S.Implements n' k' f') : n = n' ∧ k = k' ∧ ∀ x, ∀ j < k, f x j =
    f' x j := by
  have hout := h.nOut.symm.trans h'.nOut
  refine ⟨h.nIn.symm.trans h'.nIn, hout, fun x j hj => ?_⟩
  have hvalue := (h.values .empty x j hj).symm.trans (h'.values .empty x j (hout ▸ hj))
  exact Option.some.inj hvalue

/-- The network is built, computes the function, and its entries fit into one block. -/
def BuildsWithin (synth : ℕ → Option Subnet) (n k : ℕ) (f : (ℕ → Bool) → ℕ → Bool) : Prop :=
  ∃ fuel S, synth fuel = some S ∧ S.Implements n k f ∧ S.size ≤ maxEntries

/-- The network is right only under the condition, and it is right under the condition if there is
room for `cells` cells beside the inputs and the outputs. -/
structure ExactIf (p : Prop) (synth : ℕ → Option Subnet) (n k : ℕ) (f : (ℕ → Bool) → ℕ → Bool)
    (cells : ℕ) : Prop where
  only : BuildsWithin synth n k f → p ∧ n + k ≤ maxEntries
  enough : p → n + cells + k ≤ maxEntries → BuildsWithin synth n k f

/-- Under a condition the network of a function is built with at most `cells` cells, and nothing is
built otherwise. -/
structure BuiltIf (p : Prop) (synth : ℕ → Option Subnet) (n k : ℕ) (f : (ℕ → Bool) → ℕ → Bool)
    (cells : ℕ) : Prop where
  mono : ∀ {fuel fuel' S}, fuel ≤ fuel' → synth fuel = some S → synth fuel' = some S
  yes : p → ∃ S, synth (2 ^ 15 + 2) = some S ∧ S.Implements n k f ∧ n + k ≤ S.size ∧
    S.size ≤ n + cells + k
  no : ¬ p → ∀ fuel, synth fuel = none

namespace BuiltIf

variable {p : Prop} {synth : ℕ → Option Subnet} {k k' n' cells : ℕ} {f f' : (ℕ → Bool) → ℕ → Bool}

/-- What one run builds is the only thing that can be built. -/
theorem unique {S : Subnet} (h : BuiltIf p synth n k f cells) (hS : synth fuel = some S) :
    p ∧ S.Implements n k f ∧ n + k ≤ S.size ∧ S.size ≤ n + cells + k := by
  have hp : p := by
    by_contra hno
    rw [h.no hno fuel] at hS
    cases hS
  obtain ⟨S', hS', hrest⟩ := h.yes hp
  have hsame := (h.mono (Nat.le_max_left fuel _) hS).symm.trans
    (h.mono (Nat.le_max_right fuel _) hS')
  obtain rfl := Option.some.inj hsame
  exact ⟨hp, hrest⟩

theorem builds_iff (h : BuiltIf p synth n k f cells) : Builds synth n' k' f' ↔
    p ∧ n = n' ∧ k = k' ∧ ∀ x, ∀ j < k, f x j = f' x j := by
  constructor
  · rintro ⟨fuel, S, hS, himp⟩
    exact ⟨(h.unique hS).1, implements_unique (h.unique hS).2.1 himp⟩
  · rintro ⟨hp, rfl, rfl, hsame⟩
    obtain ⟨S, hS, himp, -⟩ := h.yes hp
    exact ⟨_, S, hS, himp.nIn, himp.nOut, fun lib x j hj => by
      rw [himp.values lib x j hj, hsame x j hj]⟩

theorem exactIf {p' : Prop} {cells' : ℕ} (h : BuiltIf p synth n k f cells)
    (hiff : Builds synth n' k' f' ↔ p') (hcells : p' → cells ≤ cells') :
    ExactIf p' synth n' k' f' cells' := by
  constructor
  · rintro ⟨fuel, S, hS, himp, hle⟩
    obtain ⟨-, himp', hge, -⟩ := h.unique hS
    rw [← himp'.nIn, ← himp'.nOut, himp.nIn, himp.nOut] at hge
    exact ⟨hiff.mp ⟨fuel, S, hS, himp⟩, hge.trans hle⟩
  · intro hp hroom
    obtain ⟨fuel, S, hS, himp⟩ := hiff.mpr hp
    obtain ⟨-, himp', -, hsize⟩ := h.unique hS
    rw [← himp'.nIn, ← himp'.nOut, himp.nIn, himp.nOut] at hsize
    have := hcells hp
    exact ⟨fuel, S, hS, himp, by omega⟩

/-- An operation that cuts all widths to 16 bits is right for widths that the cut keeps. -/
theorem cut_iff {q : ℕ → ℕ → ℕ → Prop} {g : ℕ → ℕ → ℕ → (ℕ → Bool) → ℕ → Bool}
    {a b o : UInt32} (h : BuiltIf (q a.toUInt16.toNat b.toUInt16.toNat o.toUInt16.toNat) synth
      (a.toUInt16.toNat + b.toUInt16.toNat) o.toUInt16.toNat
      (g a.toUInt16.toNat b.toUInt16.toNat o.toUInt16.toNat) cells)
    (hcells : 3 * 2 ^ 16 + cells ≤ maxEntries) :
    BuildsWithin synth (a.toNat + b.toNat) o.toNat (g a.toNat b.toNat o.toNat) ↔
      (a.toNat < 2 ^ 16 ∧ b.toNat < 2 ^ 16 ∧ o.toNat < 2 ^ 16) ∧ q a.toNat b.toNat o.toNat := by
  simp only [UInt32.toNat_toUInt16] at h
  have hexact : ExactIf _ synth (a.toNat + b.toNat) o.toNat (g a.toNat b.toNat o.toNat) cells :=
    h.exactIf Iff.rfl fun _ => Nat.le_refl _
  constructor
  · intro hw
    obtain ⟨hq, hin, hout, -⟩ := h.builds_iff.mp (hexact.only hw).1
    have hlt : a.toNat < 2 ^ 16 ∧ b.toNat < 2 ^ 16 ∧ o.toNat < 2 ^ 16 := by omega
    rw [Nat.mod_eq_of_lt hlt.1, Nat.mod_eq_of_lt hlt.2.1, Nat.mod_eq_of_lt hlt.2.2] at hq
    exact ⟨hlt, hq⟩
  · rintro ⟨hlt, hq⟩
    rw [Nat.mod_eq_of_lt hlt.1, Nat.mod_eq_of_lt hlt.2.1, Nat.mod_eq_of_lt hlt.2.2] at h
    exact hexact.enough (h.builds_iff.mpr ⟨hq, rfl, rfl, fun _ _ _ => rfl⟩) (by omega)

end BuiltIf

def sumU (sizeA sizeB outSize : ℕ) (x : ℕ → Bool) : ℕ → Bool :=
  ((inputWord x 0 sizeA).setWidth outSize + (inputWord x sizeA sizeB).setWidth outSize).getLsbD

def sumS (sizeA sizeB outSize : ℕ) (x : ℕ → Bool) : ℕ → Bool :=
  ((inputWord x 0 sizeA).signExtend outSize + (inputWord x sizeA sizeB).signExtend outSize).getLsbD

theorem zeroExtended_extends {first m : ℕ} (hm : n ≤ m) :
    Extends false m (zeroExtended first n) := by
  intro ρ i hi
  exact if_neg (by omega)

theorem signExtended_extends {first m : ℕ} (hm : n ≤ m) :
    Extends true m (signExtended first n) := by
  intro ρ i hi
  rw [Bool.true_and, signExtended, signExtended, Nat.min_eq_right (by omega),
    Nat.min_eq_right (by omega)]

theorem sumBit_zeroExtended {first first' outSize m : ℕ} {ρ : EntryID → ℕ → Bool} {x : ℕ → Bool}
    (hx : ∀ i < m, ρ i 0 = x i) (hA : first + nA ≤ m) (hB : first' + nB ≤ m) {j : ℕ}
    (hj : j < outSize) : sumBit (zeroExtended first nA ρ) (zeroExtended first' nB ρ) j =
      ((inputWord x first nA).setWidth outSize + (inputWord x first' nB).setWidth outSize).getLsbD
      j := by
  rw [← sumBit_getLsbD _ _ hj]
  apply sumBit_congr
  intro i hi
  rw [getLsbD_setWidth, getLsbD_setWidth, decide_eq_true (Nat.lt_of_le_of_lt hi hj),
    Bool.true_and, Bool.true_and]
  exact ⟨zeroExtended_eq hx hA, zeroExtended_eq hx hB⟩

theorem sumBit_signExtended {first first' outSize m : ℕ} {ρ : EntryID → ℕ → Bool} {x : ℕ → Bool}
    (hx : ∀ i < m, ρ i 0 = x i) (hA : first + nA ≤ m) (hB : first' + nB ≤ m) (hposA : 0 < nA)
    (hposB : 0 < nB) {j : ℕ} (hj : j < outSize) : sumBit (signExtended first nA ρ)
    (signExtended first' nB ρ) j =
      ((inputWord x first nA).signExtend outSize + (inputWord x first' nB).signExtend
        outSize).getLsbD j := by
  rw [← sumBit_getLsbD _ _ hj]
  apply sumBit_congr
  intro i hi
  have hlt := Nat.lt_of_le_of_lt hi hj
  exact ⟨signExtended_eq hx hA hposA hlt, signExtended_eq hx hB hposB hlt⟩

/-! ### The unsigned sum -/

private theorem synthAddU_mono {sizeA sizeB outSize : UInt32} {fuel' : ℕ} {S : Subnet}
    (hfuel : fuel ≤ fuel') (h : synthAddU fuel sizeA sizeB outSize = some S) :
    synthAddU fuel' sizeA sizeB outSize = some S := by
  simp only [synthAddU, bind_eq_bind, Option.bind_eq_some_iff] at h ⊢
  obtain ⟨r₁, hr₁, r₂, hr₂, r₃, hr₃, h⟩ := h
  exact ⟨r₁, hr₁, r₂, hr₂, r₃, synthLadnerFisherAdd_mono hfuel hr₃, h⟩

/-- The sum of the cut words. -/
def cutSum (sizeA a b m : ℕ) (x : ℕ → Bool) : ℕ → Bool :=
  ((inputWord x 0 a).setWidth m + (inputWord x sizeA b).setWidth m).getLsbD

private theorem synthAddU_builtIf (sizeA sizeB outSize : UInt32) {p q m : ℕ}
    (hp : sizeA.toNat % 2 ^ 16 = p) (hq : sizeB.toNat % 2 ^ 16 = q)
    (hm : outSize.toNat % 2 ^ 16 = m) :
    BuiltIf (0 < min m (max p q) ∧ min m (max p q) ≤ 2 ^ 15) (synthAddU · sizeA sizeB outSize)
      (sizeA.toNat + sizeB.toNat) m (cutSum sizeA.toNat p q m) (adderCells (min m (max p q))) := by
  obtain ⟨s₁, s₂, hadd₁, hadd₂, h⟩ := addInputs_two sizeA.toNat sizeB.toNat
  have hle : p ≤ sizeA.toNat ∧ q ≤ sizeB.toNat := ⟨hp ▸ Nat.mod_le _ _, hq ▸ Nat.mod_le _ _⟩
  have hlt : p < 2 ^ 16 ∧ q < 2 ^ 16 :=
    ⟨hp ▸ Nat.mod_lt _ (by decide), hq ▸ Nat.mod_lt _ (by decide)⟩
  have hm' : outSize.toUInt16.toNat = m := by rw [UInt32.toNat_toUInt16, hm]
  have hA : s₂.Spells p (zeroExtended 0 p) ((inputsFrom 0 sizeA.toNat).take p) :=
    ((h.spells 0 sizeA.toNat (by omega)).take hle.1).congr (fun _ _ hi => (if_pos hi).symm)
  have hB : s₂.Spells q (zeroExtended sizeA.toNat q)
      ((inputsFrom sizeA.toNat sizeB.toNat).take q) :=
    ((h.spells sizeA.toNat sizeB.toNat (Nat.le_refl _)).take hle.2).congr
      (fun _ _ hi => (if_pos hi).symm)
  have hrun : ∀ fuel, synthAddU fuel sizeA sizeB outSize = (do
      let r ← synthLadnerFisherAdd fuel s₂ ((inputsFrom 0 sizeA.toNat).take p)
        ((inputsFrom sizeA.toNat sizeB.toNat).take q) outSize.toUInt16
      (← addOutputs r.2 r.1).make) := by
    intro fuel
    have htake := synthLadnerFisherAdd_take fuel s₂ (inputsFrom 0 sizeA.toNat)
      (inputsFrom sizeA.toNat sizeB.toNat) outSize.toUInt16 false false (.inl rfl)
    rw [inputsFrom_length, inputsFrom_length, hp, hq] at htake
    simp only [synthAddU, hadd₁, hadd₂, htake, bind_eq_bind, bind_some]
  refine ⟨synthAddU_mono, ?_, ?_⟩
  · rintro ⟨hpos, hmin⟩
    obtain ⟨s₃, links, F, hadd, hs, hF, hsame⟩ :=
      synthLadnerFisherAdd_eq (2 ^ 15 + 2) outSize.toUInt16 false false
      (.refl h.grown) hA hB hlt.1 hlt.2 (hm' ▸ hpos) (hm' ▸ hmin) (by omega)
      (fun ρ i hi _ => if_neg (Nat.not_lt.mpr hi)) (fun ρ i hi _ => if_neg (Nat.not_lt.mpr hi))
      (fun _ _ => ⟨zeroExtended_extends (Nat.le_max_left ..),
        zeroExtended_extends (Nat.le_max_right ..), fun hs => by cases hs⟩)
      (fun hs => by cases hs)
    rw [hm'] at hF hsame
    obtain ⟨s₄, S, hout, hmake, himp⟩ := h.make (f := cutSum sizeA.toNat p q m) hs hF (by omega)
      (fun ρ x hx j hj => (hsame ρ j hj (.inr rfl)).trans (sumBit_zeroExtended hx (by omega)
        (by omega) hj))
    have hsize := synthLadnerFisherAdd_size hadd
    rw [hA.length, hB.length, Nat.mod_eq_of_lt hlt.1, Nat.mod_eq_of_lt hlt.2, hm', h.size] at hsize
    have hmade := size_made h hs hF hout hmake
    refine ⟨S, ?_, himp, hmade.1, by omega⟩
    rw [hrun, hadd]
    simp only [hout, hmake, bind_eq_bind, bind_some]
  · intro hno fuel
    rw [hrun, synthLadnerFisherAdd_none]
    · rfl
    · rw [hA.length]
      exact hlt.1
    · rw [hB.length]
      exact hlt.2
    · rw [hA.length, hB.length, hm']
      omega

/-- An operand keeps its bits when its width is cut to 16 bits, or at least those that the result
has. -/
def Survives (size outSize : ℕ) : Prop := size < 2 ^ 16 ∨ outSize ≤ size % 2 ^ 16

private theorem setWidth_inputWord {x : ℕ → Bool} {first p : ℕ} (h : Survives n p) :
    (inputWord x first (n % 2 ^ 16)).setWidth p = (inputWord x first n).setWidth p := by
  apply BitVec.eq_of_getLsbD_eq
  intro i hi
  rw [getLsbD_setWidth, getLsbD_setWidth, inputWord_getLsbD, inputWord_getLsbD]
  rcases h with hlt | hle
  · rw [Nat.mod_eq_of_lt hlt]
  · rw [if_pos (by omega), if_pos (Nat.lt_of_lt_of_le (by omega) (Nat.mod_le n (2 ^ 16)))]

private theorem inputWord_zero {x : ℕ → Bool} {first : ℕ} (h : ∀ i < n, x (first + i) = false) :
    inputWord x first n = 0#n := by
  apply BitVec.eq_of_getLsbD_eq
  intro i hi
  rw [inputWord_getLsbD, if_pos hi, h i hi, BitVec.getLsbD_zero]

/-- A cut bit of one operand is missing in the sum with zero. -/
private theorem survives_of_cut (first : ℕ) {p : ℕ}
    (h : n % 2 ^ 16 < n → ∀ x : ℕ → Bool, (∀ i, x i = decide (i = first + n % 2 ^ 16)) → ∀ j < p,
      ((inputWord x first (n % 2 ^ 16)).setWidth p).getLsbD j =
        ((inputWord x first n).setWidth p).getLsbD j) :
    Survives n p := by
  by_contra hno
  obtain ⟨hge, hlt⟩ := not_or.mp hno
  have hcut : n % 2 ^ 16 < n := Nat.lt_of_lt_of_le (Nat.mod_lt n (by decide)) (Nat.not_lt.mp hge)
  have hbit := h hcut (fun i => decide (i = first + n % 2 ^ 16)) (fun _ => rfl) (n % 2 ^ 16)
    (Nat.not_le.mp hlt)
  rw [getLsbD_setWidth, getLsbD_setWidth, inputWord_getLsbD, inputWord_getLsbD,
    if_neg (Nat.lt_irrefl _), if_pos hcut, decide_eq_true rfl,
    decide_eq_true (Nat.not_le.mp hlt)] at hbit
  cases hbit

private theorem cutSum_eq_iff {sizeA sizeB m : ℕ} :
    (∀ x, ∀ j < m, cutSum sizeA (sizeA % 2 ^ 16) (sizeB % 2 ^ 16) m x j =
    sumU sizeA sizeB m x j) ↔ Survives sizeA m ∧ Survives sizeB m := by
  constructor
  · intro h
    constructor
    · refine survives_of_cut 0 (fun hcut x hx j hj => ?_)
      have hzero : ∀ k, inputWord x sizeA k = 0#k := fun k => inputWord_zero (fun i _ => by
        rw [hx, decide_eq_false (by omega)])
      have hbit := h x j hj
      rwa [cutSum, sumU, hzero, hzero, setWidth_zero, setWidth_zero, add_zero,
        add_zero] at hbit
    · refine survives_of_cut sizeA (fun _ x hx j hj => ?_)
      have hzero : ∀ k ≤ sizeA, inputWord x 0 k = 0#k := fun k hk => inputWord_zero (fun i hi => by
        rw [hx, decide_eq_false (by omega)])
      have hbit := h x j hj
      rwa [cutSum, sumU, hzero _ (Nat.mod_le _ _), hzero _ (Nat.le_refl _), setWidth_zero,
        setWidth_zero, zero_add, zero_add] at hbit
  · rintro ⟨hA, hB⟩ x j -
    rw [cutSum, sumU, setWidth_inputWord hA, setWidth_inputWord hB]

/-- The widths of an unsigned sum: between 1 and `2 ^ 15` bits count, and cutting the widths changes
nothing. -/
structure AddUFits (sizeA sizeB outSize : ℕ) : Prop where
  output : outSize < 2 ^ 16
  survives : Survives sizeA outSize ∧ Survives sizeB outSize
  bits : 0 < min outSize (max (sizeA % 2 ^ 16) (sizeB % 2 ^ 16)) ∧
    min outSize (max (sizeA % 2 ^ 16) (sizeB % 2 ^ 16)) ≤ 2 ^ 15

/-- The unsigned sum is built exactly for these widths. -/
private theorem synthAddU_iff (sizeA sizeB outSize : UInt32) :
    Builds (synthAddU · sizeA sizeB outSize) (sizeA.toNat + sizeB.toNat) outSize.toNat
        (sumU sizeA.toNat sizeB.toNat outSize.toNat) ↔
        AddUFits sizeA.toNat sizeB.toNat outSize.toNat := by
  rw [(synthAddU_builtIf sizeA sizeB outSize rfl rfl rfl).builds_iff]
  constructor
  · rintro ⟨hbits, -, hcut, hsame⟩
    rw [hcut] at hsame hbits
    exact ⟨hcut ▸ Nat.mod_lt _ (by decide), cutSum_eq_iff.mp hsame, hbits⟩
  · rintro ⟨hout, hsurvives, hbits⟩
    rw [Nat.mod_eq_of_lt hout]
    exact ⟨hbits, rfl, rfl, cutSum_eq_iff.mpr hsurvives⟩

/-! ### The signed sum -/

theorem resize_eq {word : List Link} (h : s.Spells n W word) (hn : 0 < n) {size : ℕ}
    (hle : n ≤ size) : ∃ word', resize word size = some word' ∧
    s.Spells size (fun ρ i => W ρ (min i (n - 1))) word' := by
  obtain ⟨l, hl, hc⟩ := h.getLast hn
  refine ⟨_, by rw [resize, hl]; rfl, ?_⟩
  have happ := h.append (.replicate (n := size - word.length) hc)
  rw [h.length, Nat.add_sub_cancel' hle] at happ
  rw [h.length]
  apply happ.congr
  intro ρ i _
  by_cases hi : i < n
  · rw [if_pos hi, Nat.min_eq_left (by omega)]
  · rw [if_neg hi, Nat.min_eq_right (by omega)]

theorem resize_inputs (h : HasInputs s n) (first m size target : ℕ) {c : Prop} [Decidable c]
    (hm : first + m ≤ n) (hpos : 0 < m) (hle : m ≤ size) (hyes : c → target = size)
    (hno : ¬ c → m = size) : ∃ word, (if c then resize (inputsFrom first m) target else
    some (inputsFrom first m)) = some word ∧
      s.Spells size (signExtended first m) word := by
  have hword := h.spells_signExtended hm
  by_cases hc : c
  · obtain rfl := hyes hc
    obtain ⟨word, hrun, hspells⟩ := resize_eq hword hpos hle
    refine ⟨word, by rw [if_pos hc, hrun], hspells.congr (fun ρ i _ => ?_)⟩
    rw [signExtended, signExtended, Nat.min_assoc, Nat.min_self]
  · obtain rfl := hno hc
    exact ⟨_, if_neg hc, hword⟩

private theorem synthAddS_mono {sizeA sizeB outSize : UInt32} {fuel' : ℕ} {S : Subnet}
    (hfuel : fuel ≤ fuel') (h : synthAddS fuel sizeA sizeB outSize = some S) :
    synthAddS fuel' sizeA sizeB outSize = some S := by
  simp only [synthAddS, bind_eq_bind, Option.bind_eq_some_iff] at h ⊢
  obtain ⟨r₁, hr₁, r₂, hr₂, A, hA, B, hB, r₃, hr₃, h⟩ := h
  exact ⟨r₁, hr₁, r₂, hr₂, A, hA, B, hB, r₃, synthLadnerFisherAdd_mono hfuel hr₃, h⟩

private theorem synthAddS_builtIf (sizeA sizeB outSize : UInt32) {p q m : UInt16}
    (hp : sizeA.toUInt16 = p) (hq : sizeB.toUInt16 = q) (hm : outSize.toUInt16 = m) :
    BuiltIf (0 < p.toNat ∧ 0 < q.toNat ∧ 0 < m.toNat ∧ min m.toNat (max p.toNat q.toNat) ≤ 2 ^ 15)
      (synthAddS · sizeA sizeB outSize) (p.toNat + q.toNat) m.toNat
      (sumS p.toNat q.toNat m.toNat) (adderCells (2 ^ 15)) := by
  obtain ⟨s₁, s₂, hadd₁, hadd₂, h⟩ := addInputs_two p.toNat q.toNat
  have hltA : p < q ↔ p.toNat < q.toNat := UInt16.lt_iff_toNat_lt
  have hltB : q < p ↔ q.toNat < p.toNat := UInt16.lt_iff_toNat_lt
  have h16A : p.toNat < 2 ^ 16 := p.toNat_lt
  have h16B : q.toNat < 2 ^ 16 := q.toNat_lt
  by_cases hbits : 0 < p.toNat ∧ 0 < q.toNat
  · obtain ⟨hposA, hposB⟩ := hbits
    obtain ⟨A, hA, hspellsA⟩ :=
      resize_inputs (c := p < q) h 0 p.toNat (max p.toNat q.toNat) q.toNat (by omega) hposA
      (Nat.le_max_left ..) (fun hc => by rw [hltA] at hc; omega)
      (fun hc => by rw [hltA] at hc; omega)
    obtain ⟨B, hB, hspellsB⟩ :=
      resize_inputs (c := q < p) h p.toNat q.toNat (max p.toNat q.toNat) p.toNat
      (Nat.le_refl _) hposB (Nat.le_max_right ..) (fun hc => by rw [hltB] at hc; omega)
      (fun hc => by rw [hltB] at hc; omega)
    have hrun : ∀ fuel, synthAddS fuel sizeA sizeB outSize = (do
        let r ← synthLadnerFisherAdd fuel s₂ A B m true
        (← addOutputs r.2 r.1).make) := by
      intro fuel
      simp only [synthAddS, hp, hq, hm, hadd₁, hadd₂, hA, hB, bind_eq_bind, bind_some]
    refine ⟨synthAddS_mono, ?_, ?_⟩
    · rintro ⟨-, -, hpos, hmin⟩
      obtain ⟨s₃, links, F, hadd, hs, hF, hsame⟩ :=
        synthLadnerFisherAdd_eq (2 ^ 15 + 2) m true false
        (.refl h.grown) hspellsA hspellsB (by omega) (by omega) (by omega)
        (by omega) (by omega) (fun ρ i h₁ h₂ => absurd h₁ (Nat.not_le.mpr h₂))
        (fun ρ i h₁ h₂ => absurd h₁ (Nat.not_le.mpr h₂)) (fun _ _ => by
          rw [Nat.max_self]
          exact ⟨signExtended_extends (Nat.le_max_left ..),
            signExtended_extends (Nat.le_max_right ..), fun _ => rfl⟩)
        (fun hs => by cases hs)
      obtain ⟨s₄, S, hout, hmake, himp⟩ := h.make (f := sumS p.toNat q.toNat m.toNat) hs hF hpos
        (fun ρ x hx j hj => (hsame ρ j hj (.inr rfl)).trans
          (sumBit_signExtended hx (by omega) (Nat.le_refl _) hposA hposB hj))
      have hsize := synthLadnerFisherAdd_size hadd
      rw [hspellsA.length, hspellsB.length, h.size] at hsize
      have hmade := size_made h hs hF hout hmake
      refine ⟨S, ?_, himp, hmade.1, by unfold adderCells at *; omega⟩
      rw [hrun, hadd]
      simp only [hout, hmake, bind_eq_bind, bind_some]
    · intro hno fuel
      rw [hrun, synthLadnerFisherAdd_none]
      · rfl
      · rw [hspellsA.length]
        omega
      · rw [hspellsB.length]
        omega
      · rw [hspellsA.length, hspellsB.length]
        omega
  · -- an operand without bits has no sign
    refine ⟨synthAddS_mono, fun hyes => absurd ⟨hyes.1, hyes.2.1⟩ hbits, fun _ fuel => ?_⟩
    have hempty : ∀ {first m size : ℕ}, m = 0 → resize (inputsFrom first m) size = none := by
      rintro first m size rfl
      rfl
    simp only [synthAddS, hp, hq, hm, hadd₁, hadd₂, bind_eq_bind, bind_some]
    rcases Nat.lt_trichotomy p.toNat q.toNat with hlt | heq | hlt
    · rw [if_pos (hltA.mpr hlt), hempty (by omega)]
      rfl
    · rw [if_neg (fun hc => by rw [hltA] at hc; omega),
        if_neg (fun hc => by rw [hltB] at hc; omega), bind_some,
        bind_some, synthLadnerFisherAdd_none]
      · rfl
      · rwa [inputsFrom_length]
      · rwa [inputsFrom_length]
      · rw [inputsFrom_length, inputsFrom_length]
        omega
    · rw [if_neg (fun hc => by rw [hltA] at hc; omega), if_pos (hltB.mpr hlt), bind_some,
        hempty (by omega)]
      rfl

/-- The networks for sums are exact for up to `2 ^ 15` bits, and only for these, as far as the
entries of a subnet suffice. -/
theorem synthAdd_exact (sizeA sizeB outSize : UInt32) :
    ExactIf (AddUFits sizeA.toNat sizeB.toNat outSize.toNat) (synthAddU · sizeA sizeB outSize)
      (sizeA.toNat + sizeB.toNat) outSize.toNat (sumU sizeA.toNat sizeB.toNat outSize.toNat)
      (adderCells (min outSize.toNat (max (sizeA.toNat % 2 ^ 16) (sizeB.toNat % 2 ^ 16)))) ∧
    (BuildsWithin (synthAddS · sizeA sizeB outSize) (sizeA.toNat + sizeB.toNat) outSize.toNat
        (sumS sizeA.toNat sizeB.toNat outSize.toNat) ↔
      (sizeA.toNat < 2 ^ 16 ∧ sizeB.toNat < 2 ^ 16 ∧ outSize.toNat < 2 ^ 16) ∧
        0 < sizeA.toNat ∧ 0 < sizeB.toNat ∧ 0 < outSize.toNat ∧
          min outSize.toNat (max sizeA.toNat sizeB.toNat) ≤ 2 ^ 15) := by
  constructor
  · refine (synthAddU_builtIf sizeA sizeB outSize rfl rfl rfl).exactIf
      (synthAddU_iff sizeA sizeB outSize) fun hfits => ?_
    rw [Nat.mod_eq_of_lt hfits.output]
  · exact BuiltIf.cut_iff (q := fun a b o => 0 < a ∧ 0 < b ∧ 0 < o ∧ min o (max a b) ≤ 2 ^ 15)
      (g := sumS) (synthAddS_builtIf sizeA sizeB outSize rfl rfl rfl) (by decide)

/-- Words of 16 and of 12 bits are added. -/
theorem synthAdd_exact_unequal : BuildsWithin (synthAddU · 16 12 18) (16 + 12) 18 (sumU 16 12 18) :=
  (synthAdd_exact 16 12 18).1.enough ⟨by decide, ⟨.inl (by decide), .inl (by decide)⟩, by decide⟩
    (by decide)

/-- Words of 40000 bits are never added. -/
theorem synthAdd_not_exact : ¬ BuildsWithin (synthAddU · 40000 40000 40000) (40000 + 40000) 40000
    (sumU 40000 40000 40000) := by
  rintro ⟨fuel, S, hS, himp, -⟩
  have hfits := (synthAddU_iff 40000 40000 40000).mp ⟨fuel, S, hS, himp⟩
  exact absurd hfits.bits.2 (by decide)

end UtopiaEda.Synthesizer
