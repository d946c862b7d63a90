import Mathlib.Data.BitVec
import Mathlib.Data.List.Forall2

/-!
# Cubes and what they have in common

A cube is a product of literals, and a sum of products is a list of cubes. `findCommonCube`
intersects the words of the positive and of the negative literals of all cubes, but it starts with
words in which only the first bit is set, so that it looks at the first variable alone.
-/
namespace UtopiaEda
open List

/-- `kitty::cube`: the variables of the mask, positive where their bit is set. -/
structure Cube where
  bits : BitVec 32
  mask : BitVec 32
  deriving DecidableEq, Repr

namespace Cube

variable {c : Cube} {v : ℕ} {b : Bool}

/-- The literal of the variable, positive if `b` is true. -/
def HasLiteral (c : Cube) (v : ℕ) (b : Bool) : Prop :=
  c.mask.getLsbD v = true ∧ c.bits.getLsbD v = b

instance : Decidable (c.HasLiteral v b) := inferInstanceAs (Decidable (_ ∧ _))

def Covers (c : Cube) (x : ℕ → Bool) : Prop := ∀ v b, c.HasLiteral v b → x v = b

def ones (c : Cube) : BitVec 32 := c.bits &&& c.mask

def zeros (c : Cube) : BitVec 32 := ~~~c.bits &&& c.mask

theorem HasLiteral.lt (h : c.HasLiteral v b) : v < 32 := by
  apply Nat.lt_of_not_le
  intro hle
  have hnone : c.mask.getLsbD v = false := BitVec.getLsbD_of_ge c.mask v hle
  rw [h.1] at hnone
  cases hnone

theorem ones_getLsbD : c.ones.getLsbD v = true ↔ c.HasLiteral v true := by
  rw [ones, BitVec.getLsbD_and, Bool.and_eq_true]
  exact and_comm

theorem zeros_getLsbD : c.zeros.getLsbD v = true ↔ c.HasLiteral v false := by
  rw [zeros, BitVec.getLsbD_and, Bool.and_eq_true, BitVec.getLsbD_not]
  constructor
  · intro ⟨hbit, hmask⟩
    rw [Bool.and_eq_true, Bool.not_eq_true'] at hbit
    exact ⟨hmask, hbit.2⟩
  · intro h
    exact ⟨by rw [decide_eq_true h.lt, h.2]; rfl, h.1⟩

end Cube

abbrev SOP := List Cube

def SOP.Covers (sop : SOP) (x : ℕ → Bool) : Prop := ∃ c ∈ sop, c.Covers x

def SOP.Common (sop : SOP) (v : ℕ) (b : Bool) : Prop := ∀ c ∈ sop, c.HasLiteral v b

namespace Util

def findCommonCube (sop : SOP) : Cube :=
  let (ones, zeros) := sop.foldl (fun (ones, zeros) cube => (ones &&& cube.ones,
    zeros &&& cube.zeros)) (1#32, 1#32)
  ⟨ones, ones ||| zeros⟩

def cubeFree (sop : SOP) : Bool := (findCommonCube sop).mask = 0#32

/-- Removes the variables of `common`. -/
def removeCube (common cube : Cube) : Cube :=
  ⟨cube.bits &&& ~~~common.mask, cube.mask &&& ~~~common.mask⟩

def makeCubeFree (sop : SOP) : SOP :=
  let common := findCommonCube sop
  if common.mask ≠ 0#32 then sop.map (removeCube common) else sop

variable {sop : SOP} {c common : Cube} {v : ℕ} {b : Bool} {x : ℕ → Bool}

private theorem foldl_words (f g : Cube → BitVec 32) : ∀ (sop : SOP) (a z : BitVec 32),
    sop.foldl (fun (ones, zeros) cube => (ones &&& f cube, zeros &&& g cube)) (a, z) =
      (sop.foldl (fun word cube => word &&& f cube) a,
        sop.foldl (fun word cube => word &&& g cube) z)
  | [], _, _ => rfl
  | cube :: sop, a, z => foldl_words f g sop (a &&& f cube) (z &&& g cube)

private theorem foldl_and_getLsbD (f : Cube → BitVec 32) (a : BitVec 32) :
    (sop.foldl (fun word cube => word &&& f cube) a).getLsbD v = true ↔
      a.getLsbD v = true ∧ ∀ cube ∈ sop, (f cube).getLsbD v = true := by
  induction sop generalizing a with
  | nil => simp
  | cons cube sop ih => rw [foldl_cons, ih, BitVec.getLsbD_and, Bool.and_eq_true, forall_mem_cons,
      and_assoc]

theorem getLsbD_one : (1#32).getLsbD v = true ↔ v = 0 := by
  rw [BitVec.getLsbD_one, Bool.and_eq_true, decide_eq_true_iff, decide_eq_true_iff]
  exact ⟨fun h => h.2, fun h => ⟨by decide, h⟩⟩

theorem findCommonCube_literal (hne : sop ≠ []) :
    (findCommonCube sop).HasLiteral v b ↔ v = 0 ∧ sop.Common v b := by
  have hones : (findCommonCube sop).bits.getLsbD v = true ↔ v = 0 ∧ sop.Common v true := by
    simp only [findCommonCube, foldl_words, foldl_and_getLsbD, getLsbD_one, Cube.ones_getLsbD,
      SOP.Common]
  have hmask : (findCommonCube sop).mask.getLsbD v = true ↔
      v = 0 ∧ (sop.Common v true ∨ sop.Common v false) := by
    simp only [findCommonCube, foldl_words, BitVec.getLsbD_or, Bool.or_eq_true, foldl_and_getLsbD,
      getLsbD_one, Cube.ones_getLsbD, Cube.zeros_getLsbD, SOP.Common, ← and_or_left]
  have hapart : ¬ (sop.Common v true ∧ sop.Common v false) := by
    intro ⟨htrue, hfalse⟩
    obtain ⟨cube, rest, rfl⟩ := exists_cons_of_ne_nil hne
    have hboth := (htrue cube mem_cons_self).2.symm.trans (hfalse cube mem_cons_self).2
    cases hboth
  rw [Cube.HasLiteral, hmask]
  cases b with
  | true =>
    rw [hones]
    exact ⟨fun h => h.2, fun h => ⟨⟨h.1, .inl h.2⟩, h⟩⟩
  | false =>
    rw [← Bool.not_eq_true, hones]
    constructor
    · intro ⟨⟨hv, hcommon⟩, hnot⟩
      exact ⟨hv, hcommon.resolve_left (fun h => hnot ⟨hv, h⟩)⟩
    · intro ⟨hv, hcommon⟩
      exact ⟨⟨hv, .inr hcommon⟩, fun h => hapart ⟨h.2, hcommon⟩⟩

/-- A cube without variables has no literals. -/
theorem mask_eq_zero_iff : c.mask = 0#32 ↔ ∀ v b, ¬ c.HasLiteral v b := by
  constructor
  · intro h v b hl
    rw [Cube.HasLiteral, h, BitVec.getLsbD_zero] at hl
    cases hl.1
  · intro h
    apply BitVec.eq_of_getLsbD_eq
    intro v _
    rw [BitVec.getLsbD_zero, ← Bool.not_eq_true]
    exact fun hmask => h v _ ⟨hmask, rfl⟩

theorem removeCube_literal : (removeCube common c).HasLiteral v b ↔ c.HasLiteral v b ∧
    ∀ b', ¬ common.HasLiteral v b' := by
  have hfree : (∀ b', ¬ common.HasLiteral v b') ↔ common.mask.getLsbD v = false := by
    constructor
    · intro h
      rw [← Bool.not_eq_true]
      exact fun hmask => h _ ⟨hmask, rfl⟩
    · intro h b' hl
      rw [Cube.HasLiteral, h] at hl
      cases hl.1
  rw [hfree]
  simp only [Cube.HasLiteral, removeCube, BitVec.getLsbD_and, BitVec.getLsbD_not, Bool.and_eq_true,
    Bool.not_eq_true', decide_eq_true_iff]
  constructor
  · intro ⟨⟨hmask, hlt, hnone⟩, hbit⟩
    rw [decide_eq_true hlt, hnone] at hbit
    exact ⟨⟨hmask, by simpa using hbit⟩, hnone⟩
  · intro ⟨⟨hmask, hbit⟩, hnone⟩
    have hlt : v < 32 := Cube.HasLiteral.lt ⟨hmask, hbit⟩
    exact ⟨⟨hmask, hlt, hnone⟩, by rw [hbit, decide_eq_true hlt, hnone]; simp⟩

/-- Every cube loses the variables of the cube that was found, and nothing else. -/
theorem makeCubeFree_literals (sop : SOP) : List.Forall₂ (fun c c' => ∀ v b, c'.HasLiteral v b ↔
    c.HasLiteral v b ∧ ∀ b', ¬ (findCommonCube sop).HasLiteral v b') sop (makeCubeFree sop) := by
  rw [makeCubeFree]
  by_cases hmask : (findCommonCube sop).mask = 0#32
  · simp only [hmask, ne_eq, not_true_eq_false, if_false]
    refine forall₂_same.mpr (fun c _ v b => ?_)
    exact ⟨fun h => ⟨h, mask_eq_zero_iff.mp hmask v⟩, fun h => h.1⟩
  · simp only [ne_eq, hmask, not_false_eq_true, if_true]
    exact forall₂_map_right_iff.mpr (forall₂_same.mpr (fun c _ v b => removeCube_literal))

theorem covers_makeCubeFree (hne : sop ≠ []) :
    sop.Covers x ↔ (findCommonCube sop).Covers x ∧ (makeCubeFree sop).Covers x := by
  have hall := makeCubeFree_literals sop
  have hfound : ∀ c ∈ sop, ∀ v b, (findCommonCube sop).HasLiteral v b → c.HasLiteral v b :=
    fun c hc v b h => ((findCommonCube_literal hne).mp h).2 c hc
  constructor
  · intro ⟨c, hc, hx⟩
    refine ⟨fun v b h => hx v b (hfound c hc v b h), ?_⟩
    obtain ⟨i, hi⟩ := mem_iff_getElem?.mp hc
    obtain ⟨hlen, hget⟩ := forall₂_iff_get.mp hall
    obtain ⟨hlt, rfl⟩ := List.getElem?_eq_some_iff.mp hi
    exact ⟨(makeCubeFree sop)[i], getElem_mem (hlen ▸ hlt),
      fun v b h => hx v b ((hget i hlt (hlen ▸ hlt) v b).mp h).1⟩
  · intro ⟨hcommon, c', hc', hx⟩
    obtain ⟨i, hi⟩ := mem_iff_getElem?.mp hc'
    obtain ⟨hlen, hget⟩ := forall₂_iff_get.mp hall
    obtain ⟨hlt, rfl⟩ := List.getElem?_eq_some_iff.mp hi
    refine ⟨sop[i], getElem_mem (hlen ▸ hlt), fun v b h => ?_⟩
    by_cases hv : ∃ b', (findCommonCube sop).HasLiteral v b'
    · obtain ⟨b', hb'⟩ := hv
      rw [hcommon v b' hb', ← (hfound _ (getElem_mem (hlen ▸ hlt)) v b' hb').2, h.2]
    · exact hx v b ((hget i (hlen ▸ hlt) hlt v b).mpr ⟨h, fun b' hb' => hv ⟨b', hb'⟩⟩)

structure Extracts (sop : SOP) : Prop where
  common : ∀ v b, (findCommonCube sop).HasLiteral v b ↔ sop.Common v b
  removed : List.Forall₂ (fun c c' => ∀ v b, c'.HasLiteral v b ↔ c.HasLiteral v b ∧
    ¬ sop.Common v b) sop (makeCubeFree sop)
  product : ∀ x, sop.Covers x ↔ (findCommonCube sop).Covers x ∧ (makeCubeFree sop).Covers x
  free : cubeFree sop = true ↔ ∀ v b, ¬ sop.Common v b

/-- The common cube is extracted exactly from the sums in which only the first variable may be
common to all cubes. -/
theorem extracts_iff (hne : sop ≠ []) : Extracts sop ↔ ∀ v b, 0 < v → ¬ sop.Common v b := by
  constructor
  · intro h v b hv hcommon
    exact Nat.ne_of_gt hv ((findCommonCube_literal hne).mp ((h.common v b).mpr hcommon)).1
  · intro h
    have hcommon : ∀ v b, (findCommonCube sop).HasLiteral v b ↔ sop.Common v b := by
      intro v b
      rw [findCommonCube_literal hne, and_iff_right_iff_imp]
      intro hc
      apply Nat.eq_zero_of_not_pos
      exact fun hv => h v b hv hc
    refine ⟨hcommon, ?_, fun x => covers_makeCubeFree hne, ?_⟩
    · have hall := (forall₂_and_left sop (makeCubeFree sop)).mpr ⟨fun c hc => hc,
        makeCubeFree_literals sop⟩
      refine hall.imp (fun c c' hcc v b => ?_)
      rw [hcc.2 v b, and_congr_right_iff]
      intro hl
      simp only [hcommon]
      refine ⟨fun hnot => hnot b, fun hnot b' hb' => hnot ?_⟩
      rwa [← hl.2, (hb' c hcc.1).2]
    · rw [cubeFree, decide_eq_true_iff, mask_eq_zero_iff]
      simp only [hcommon]

/-- Two cubes with the first variable in common. -/
theorem extracts_first : Extracts [⟨3#32, 3#32⟩, ⟨1#32, 3#32⟩] := by
  refine (extracts_iff (cons_ne_nil _ _)).mpr (fun v b hv hcommon => ?_)
  have h₁ := hcommon ⟨3#32, 3#32⟩ (by simp)
  have h₂ := hcommon ⟨1#32, 3#32⟩ (by simp)
  have happart : ∀ v < 32, 0 < v → (3#32).getLsbD v = true →
      (3#32).getLsbD v ≠ (1#32).getLsbD v := by decide
  exact happart v h₁.lt hv h₁.1 (h₁.2.trans h₂.2.symm)

/-- The literal of the second variable is not found in a single cube. -/
theorem not_extracts_second : ¬ ∀ sop : SOP, sop ≠ [] → Extracts sop := by
  intro h
  refine (extracts_iff (cons_ne_nil _ _)).mp (h [⟨2#32, 2#32⟩] (cons_ne_nil _ _)) 1 true Nat.one_pos
    (fun c hc => ?_)
  rw [mem_singleton.mp hc]
  decide

end Util

end UtopiaEda
