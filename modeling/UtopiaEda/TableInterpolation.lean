import Mathlib.Algebra.Order.Field.Basic
import Mathlib.Algebra.Order.Ring.Rat
import Mathlib.Tactic.FieldSimp
import Mathlib.Tactic.Linarith
import Mathlib.Tactic.Ring

/-!
# Interpolation in lookup tables

The tables of a library have an index for each axis and their values one row behind the other, a row
for each element of the first index. Numbers are exact elements of an ordered field; the comparison
of numbers up to the precision is a parameter.
-/
namespace UtopiaEda

open List
open Option (bind_eq_bind bind_some some.inj)

section
variable {K : Type} [Field K] [LinearOrder K]

def eqvDouble (a b prescision : K) : Bool := decide (|a - b| < prescision)

def linearInterpolation (val1 val2 x1 x2 xt : K) : K :=
  let r10 := (x2 - xt) / (x2 - x1) * val1
  let r11 := (xt - x1) / (x2 - x1) * val2
  r10 + r11

def bilinearInterpolation (val11 val12 val21 val22 x1 x2 xt y1 y2 yt : K) : K :=
  let coef1 := (x2 - xt) / (x2 - x1)
  let coef2 := (xt - x1) / (x2 - x1)
  let r1 := coef1 * val11 + coef2 * val21
  let r2 := coef1 * val12 + coef2 * val22
  linearInterpolation r1 r2 y1 y2 yt

structure LUT (K : Type) where
  indexes : List (List K)
  values : List K

def LUT.getValue (lut : LUT K) (i j : ℕ) : Option K := do
  lut.values[i * (← lut.indexes[0]?).length + j]?

/-- `std::lower_bound`: the first element that is not less. -/
def lowerBound (lutIndex : List K) (targetVal : K) (comp : K → K → Bool) : ℕ :=
  lutIndex.findIdx fun source => !comp source targetVal

/-- `std::upper_bound`: the first element that is greater. -/
def upperBound (lutIndex : List K) (targetVal : K) (comp : K → K → Bool) : ℕ :=
  lutIndex.findIdx fun source => comp targetVal source

def doubleComp (eqv : K → K → Bool) (source value : K) : Bool :=
  decide (source < value) && !eqv source value

def getInterpolationIndexes (eqv : K → K → Bool) (lutIndex : List K) (targetVal : K) :
    Option (ℕ × ℕ) :=
  if 2 ≤ lutIndex.length then
    let lower := lowerBound lutIndex targetVal (doubleComp eqv)
    let upper := upperBound lutIndex targetVal (doubleComp eqv)
    if upper = 0 then do
      if eqv (← lutIndex[upper]?) targetVal then some (0, 0) else some (0, 1)
    else if upper ≠ lutIndex.length then do
      if eqv (← lutIndex[lower]?) targetVal then some (lower, lower)
      else if eqv (← lutIndex[upper]?) targetVal then some (upper, upper)
      else some (if lower = 0 then 0 else lower - 1, upper)
    else
      if lower ≠ lutIndex.length then do
        if eqv (← lutIndex[lower]?) targetVal then some (lutIndex.length - 1, lutIndex.length - 1)
        else some (lutIndex.length - 2, lutIndex.length - 1)
      else some (lutIndex.length - 2, lutIndex.length - 1)
  else none

def getLut2Value (eqv : K → K → Bool) (lut : LUT K) (targetX targetY : K) : Option K :=
  match lut.indexes with
  | [indexX, indexY] => do
    let (lowX, hiX) ← getInterpolationIndexes eqv indexX targetX
    let (lowY, hiY) ← getInterpolationIndexes eqv indexY targetY
    if lowX = hiX then
      if lowY = hiY then lut.getValue lowX lowY
      else do
        let q1 ← lut.getValue lowX lowY
        let q2 ← lut.getValue lowX hiY
        some (linearInterpolation q1 q2 (← indexY[lowY]?) (← indexY[hiY]?) targetY)
    else
      if lowY = hiY then do
        let q1 ← lut.getValue lowX lowY
        let q2 ← lut.getValue hiX lowY
        some (linearInterpolation q1 q2 (← indexX[lowX]?) (← indexX[hiX]?) targetX)
      else do
        let q11 ← lut.getValue lowX lowY
        let q21 ← lut.getValue hiX lowY
        let q12 ← lut.getValue lowX hiY
        let q22 ← lut.getValue hiX hiY
        some (bilinearInterpolation q11 q12 q21 q22 (← indexX[lowX]?) (← indexX[hiX]?) targetX
          (← indexY[lowY]?) (← indexY[hiY]?) targetY)
  | _ => none

def exactly (a b : K) : Bool := decide (a = b)

/-! ### Indexes -/

inductive Brackets (lutIndex : List K) (targetVal : K) : ℕ × ℕ → Prop
  | exact (k : ℕ) : lutIndex[k]? = some targetVal → Brackets lutIndex targetVal (k, k)
  | between (k : ℕ) (a b : K) : lutIndex[k]? = some a → lutIndex[k + 1]? = some b → a < targetVal →
      targetVal < b → Brackets lutIndex targetVal (k, k + 1)
  | below (a : K) : lutIndex[0]? = some a → targetVal < a → Brackets lutIndex targetVal (0, 1)
  | above (a : K) : lutIndex[lutIndex.length - 1]? = some a → a < targetVal →
      Brackets lutIndex targetVal (lutIndex.length - 2, lutIndex.length - 1)

omit [Field K] [LinearOrder K] in
/-- The first element that satisfies an upward closed predicate. -/
lemma findIdx_eq_of_sorted {lutIndex : List K} {p : K → Bool} {k : ℕ} (hk : k ≤ lutIndex.length)
    (hbefore : ∀ i, i < k → ∀ a, lutIndex[i]? = some a → p a = false)
    (hat : ∀ a, lutIndex[k]? = some a → p a = true) : lutIndex.findIdx p = k := by
  obtain rfl | hlt := hk.eq_or_lt
  · refine findIdx_eq_length.2 fun a ha => ?_
    obtain ⟨i, hi, rfl⟩ := mem_iff_getElem.1 ha
    simpa using hbefore i hi _ (getElem?_eq_getElem hi)
  · refine (findIdx_eq hlt).2 ⟨hat _ (getElem?_eq_getElem hlt), fun i hi => ?_⟩
    exact hbefore i hi _ (getElem?_eq_getElem (hi.trans hlt))

omit [Field K] in
lemma doubleComp_exactly (source value : K) :
    doubleComp exactly source value = decide (source < value) := by
  by_cases h : source < value
  · simp [doubleComp, exactly, h, h.ne]
  · simp [doubleComp, h]

omit [Field K] in
lemma lowerBound_eq {lutIndex : List K} {targetVal : K} {k : ℕ} (hk : k ≤ lutIndex.length)
    (hbefore : ∀ i, i < k → ∀ a, lutIndex[i]? = some a → a < targetVal)
    (hat : ∀ a, lutIndex[k]? = some a → targetVal ≤ a) :
    lowerBound lutIndex targetVal (doubleComp exactly) = k := by
  refine findIdx_eq_of_sorted hk (fun i hi a ha => ?_) (fun a ha => ?_)
  · simpa [doubleComp_exactly] using hbefore i hi a ha
  · simpa [doubleComp_exactly] using hat a ha

omit [Field K] in
lemma upperBound_eq {lutIndex : List K} {targetVal : K} {k : ℕ} (hk : k ≤ lutIndex.length)
    (hbefore : ∀ i, i < k → ∀ a, lutIndex[i]? = some a → a ≤ targetVal)
    (hat : ∀ a, lutIndex[k]? = some a → targetVal < a) :
    upperBound lutIndex targetVal (doubleComp exactly) = k := by
  refine findIdx_eq_of_sorted hk (fun i hi a ha => ?_) (fun a ha => ?_)
  · simpa [doubleComp_exactly] using hbefore i hi a ha
  · simpa [doubleComp_exactly] using hat a ha

omit [Field K] in
lemma getElem?_lt {lutIndex : List K} (hsorted : lutIndex.Pairwise (· < ·)) {i j : ℕ} {a b : K}
    (hij : i < j) (ha : lutIndex[i]? = some a) (hb : lutIndex[j]? = some b) : a < b := by
  obtain ⟨hi, rfl⟩ := List.getElem?_eq_some_iff.1 ha
  obtain ⟨hj, rfl⟩ := List.getElem?_eq_some_iff.1 hb
  exact pairwise_iff_getElem.1 hsorted i j hi hj hij

omit [Field K] in
lemma getInterpolationIndexes_exact {lutIndex : List K} (hsize : 2 ≤ lutIndex.length)
    (hsorted : lutIndex.Pairwise (· < ·)) {targetVal : K} {k : ℕ}
    (h : lutIndex[k]? = some targetVal) : getInterpolationIndexes exactly lutIndex targetVal =
    some (k, k) := by
  have hk : k < lutIndex.length := (List.getElem?_eq_some_iff.1 h).1
  have hlower : lowerBound lutIndex targetVal (doubleComp exactly) = k :=
    lowerBound_eq hk.le (fun i hi a ha => getElem?_lt hsorted hi ha h)
      (fun a ha => (some.inj (h.symm.trans ha)).le)
  have hupper : upperBound lutIndex targetVal (doubleComp exactly) = k + 1 := by
    refine upperBound_eq hk (fun i hi a ha => ?_)
      (fun a ha => getElem?_lt hsorted (Nat.lt_succ_self k) h ha)
    obtain rfl | hlt := (Nat.lt_succ_iff.1 hi).eq_or_lt
    · exact (some.inj (ha.symm.trans h)).le
    · exact (getElem?_lt hsorted hlt ha h).le
  have hself : exactly targetVal targetVal = true := decide_eq_true rfl
  simp only [getInterpolationIndexes, if_pos hsize, hlower, hupper, h, bind_eq_bind,
    bind_some, hself, if_true, Nat.succ_ne_zero, if_false, hk.ne, ne_eq, not_false_eq_true]
  split_ifs with hlast
  · rw [← hlast, Nat.add_sub_cancel]
  · rfl

omit [Field K] in
lemma getInterpolationIndexes_between {lutIndex : List K} (hsize : 2 ≤ lutIndex.length)
    (hsorted : lutIndex.Pairwise (· < ·)) {targetVal a b : K} {k : ℕ} (ha : lutIndex[k]? = some a)
    (hb : lutIndex[k + 1]? = some b) (hlt : a < targetVal) (hgt : targetVal < b) :
    getInterpolationIndexes exactly lutIndex targetVal = some (k, k + 1) := by
  have hk : k + 1 < lutIndex.length := (List.getElem?_eq_some_iff.1 hb).1
  have hbefore : ∀ i, i < k + 1 → ∀ c, lutIndex[i]? = some c → c < targetVal := by
    intro i hi c hc
    obtain rfl | hlt' := (Nat.lt_succ_iff.1 hi).eq_or_lt
    · exact (some.inj (hc.symm.trans ha)).trans_lt hlt
    · exact (getElem?_lt hsorted hlt' hc ha).trans hlt
  have hat : ∀ c, lutIndex[k + 1]? = some c → targetVal < c := fun c hc =>
    hgt.trans_eq (some.inj (hb.symm.trans hc))
  have hlower := lowerBound_eq hk.le hbefore fun c hc => (hat c hc).le
  have hupper := upperBound_eq hk.le (fun i hi c hc => (hbefore i hi c hc).le) hat
  have hne : exactly b targetVal = false := decide_eq_false hgt.ne'
  simp only [getInterpolationIndexes, if_pos hsize, hlower, hupper, hb, bind_eq_bind,
    bind_some, hne, Nat.succ_ne_zero, if_false, hk.ne, ne_eq, not_false_eq_true, if_true,
    Bool.false_eq_true, Nat.add_sub_cancel]

omit [Field K] in
lemma getInterpolationIndexes_below {lutIndex : List K} (hsize : 2 ≤ lutIndex.length)
    {targetVal a : K} (ha : lutIndex[0]? = some a) (hlt : targetVal < a) :
    getInterpolationIndexes exactly lutIndex targetVal = some (0, 1) := by
  have hupper : upperBound lutIndex targetVal (doubleComp exactly) = 0 :=
    upperBound_eq (Nat.zero_le _) (fun i hi => absurd hi (Nat.not_lt_zero i))
      fun c hc => hlt.trans_eq (some.inj (ha.symm.trans hc))
  have hne : exactly a targetVal = false := decide_eq_false hlt.ne'
  simp only [getInterpolationIndexes, if_pos hsize, hupper, ha, bind_eq_bind, bind_some, hne,
    if_true, Bool.false_eq_true, if_false]

omit [Field K] in
lemma getInterpolationIndexes_above {lutIndex : List K} (hsize : 2 ≤ lutIndex.length)
    (hsorted : lutIndex.Pairwise (· < ·)) {targetVal a : K}
    (ha : lutIndex[lutIndex.length - 1]? = some a) (hlt : a < targetVal) :
    getInterpolationIndexes exactly lutIndex targetVal =
    some (lutIndex.length - 2, lutIndex.length - 1) := by
  have hbefore : ∀ i, i < lutIndex.length → ∀ c, lutIndex[i]? = some c → c < targetVal := by
    intro i hi c hc
    obtain heq | hlt' := (Nat.le_sub_one_of_lt hi).eq_or_lt
    · exact (some.inj ((heq ▸ hc).symm.trans ha)).trans_lt hlt
    · exact (getElem?_lt hsorted hlt' hc ha).trans hlt
  have hlower := lowerBound_eq le_rfl hbefore (by simp)
  have hupper := upperBound_eq le_rfl (fun i hi c hc => (hbefore i hi c hc).le) (by simp)
  have hne : lutIndex.length ≠ 0 := by omega
  simp only [getInterpolationIndexes, if_pos hsize, hlower, hupper, hne, ne_eq, not_true_eq_false,
    if_false]

omit [Field K] in
/-- Every target is an element or lies between two of them, below all or above all. -/
lemma exists_brackets {lutIndex : List K} (hsize : 2 ≤ lutIndex.length) (targetVal : K) :
    ∃ indexes, Brackets lutIndex targetVal indexes := by
  classical
  let P : ℕ → Prop := fun i => ∃ a, lutIndex[i]? = some a ∧ a ≤ targetVal
  obtain ⟨first, hfirst⟩ : ∃ a, lutIndex[0]? = some a := ⟨_, getElem?_eq_getElem (by omega)⟩
  by_cases hbelow : targetVal < first
  · exact ⟨_, .below _ hfirst hbelow⟩
  -- the last element that is not greater
  let k := Nat.findGreatest P (lutIndex.length - 1)
  have hk : k ≤ lutIndex.length - 1 := Nat.findGreatest_le _
  obtain ⟨a, ha, hle⟩ : P k := Nat.findGreatest_spec (Nat.zero_le _) ⟨_, hfirst, not_lt.1 hbelow⟩
  obtain rfl | hlt := hle.eq_or_lt
  · exact ⟨_, .exact k ha⟩
  obtain hlast | hnext := hk.eq_or_lt
  · exact ⟨_, .above a (hlast ▸ ha) hlt⟩
  · obtain ⟨b, hb⟩ : ∃ b, lutIndex[k + 1]? = some b := ⟨_, getElem?_eq_getElem (by omega)⟩
    refine ⟨_, .between k a _ ha hb hlt (not_le.1 fun hle' => ?_)⟩
    exact Nat.findGreatest_is_greatest (Nat.lt_succ_self k) (by omega) ⟨_, hb, hle'⟩

omit [Field K] in
lemma getInterpolationIndexes_of_brackets {lutIndex : List K} (hsize : 2 ≤ lutIndex.length)
    (hsorted : lutIndex.Pairwise (· < ·)) {targetVal : K} {indexes : ℕ × ℕ}
    (h : Brackets lutIndex targetVal indexes) :
    getInterpolationIndexes exactly lutIndex targetVal = some indexes := by
  cases h with
  | exact k hk => exact getInterpolationIndexes_exact hsize hsorted hk
  | between k a b ha hb hlt hgt => exact getInterpolationIndexes_between hsize hsorted ha hb hlt hgt
  | below a ha hlt => exact getInterpolationIndexes_below hsize ha hlt
  | above a ha hlt => exact getInterpolationIndexes_above hsize hsorted ha hlt

omit [Field K] in
/-- Either the target is an element, or the indexes belong to two elements. -/
lemma Brackets.elements {lutIndex : List K} (hsize : 2 ≤ lutIndex.length)
    (hsorted : lutIndex.Pairwise (· < ·)) {targetVal : K} {low hi : ℕ}
    (h : Brackets lutIndex targetVal (low, hi)) : (low = hi ∧ lutIndex[low]? = some targetVal) ∨
      (low ≠ hi ∧ ∃ a b, lutIndex[low]? = some a ∧ lutIndex[hi]? = some b ∧ a < b) := by
  generalize hpair : (low, hi) = indexes at h
  have hpairs : ∀ i j, i < j → j < lutIndex.length →
      i ≠ j ∧ ∃ a b, lutIndex[i]? = some a ∧ lutIndex[j]? = some b ∧ a < b := by
    intro i j hij hj
    have ha : lutIndex[i]? = some lutIndex[i] := getElem?_eq_getElem _
    have hb : lutIndex[j]? = some lutIndex[j] := getElem?_eq_getElem _
    exact ⟨hij.ne, _, _, ha, hb, getElem?_lt hsorted hij ha hb⟩
  cases h with
  | exact k hk =>
    obtain ⟨rfl, rfl⟩ := Prod.mk.inj hpair
    exact .inl ⟨rfl, hk⟩
  | between k a b ha hb hlt hgt =>
    obtain ⟨rfl, rfl⟩ := Prod.mk.inj hpair
    exact .inr (hpairs _ _ (Nat.lt_succ_self _) (List.getElem?_eq_some_iff.1 hb).1)
  | below a ha hlt =>
    obtain ⟨rfl, rfl⟩ := Prod.mk.inj hpair
    exact .inr (hpairs 0 1 one_pos hsize)
  | above a ha hlt =>
    obtain ⟨rfl, rfl⟩ := Prod.mk.inj hpair
    exact .inr (hpairs _ _ (by omega) (by omega))

omit [Field K] [LinearOrder K] in
private lemma findIdx_congr {lutIndex : List K} {p q : K → Bool} (h : ∀ a ∈ lutIndex, p a = q a) :
    lutIndex.findIdx p = lutIndex.findIdx q := by
  induction lutIndex with
  | nil => rfl
  | cons a rest ih =>
    obtain ⟨ha, hrest⟩ := forall_mem_cons.1 h
    rw [findIdx_cons, findIdx_cons, ha, ih hrest]

omit [Field K] in
/-- Only comparisons of the target with the elements matter. -/
lemma getInterpolationIndexes_congr {eqv eqv' : K → K → Bool} {lutIndex : List K} {targetVal : K}
    (h : ∀ a ∈ lutIndex, eqv a targetVal = eqv' a targetVal ∧ eqv targetVal a = eqv' targetVal a) :
    getInterpolationIndexes eqv lutIndex targetVal =
    getInterpolationIndexes eqv' lutIndex targetVal := by
  have hlower : lowerBound lutIndex targetVal (doubleComp eqv) =
      lowerBound lutIndex targetVal (doubleComp eqv') :=
    findIdx_congr fun a ha => by rw [doubleComp, doubleComp, (h a ha).1]
  have hupper : upperBound lutIndex targetVal (doubleComp eqv) =
      upperBound lutIndex targetVal (doubleComp eqv') :=
    findIdx_congr fun a ha => by rw [doubleComp, doubleComp, (h a ha).2]
  have hbind : ∀ (i : ℕ) (x y : Option (ℕ × ℕ)),
      (lutIndex[i]?.bind fun a => if eqv a targetVal then x else y) =
        lutIndex[i]?.bind fun a => if eqv' a targetVal then x else y := by
    intro i x y
    refine Option.bind_congr fun a ha => ?_
    rw [(h a (mem_of_getElem? ha)).1]
  simp only [getInterpolationIndexes, hlower, hupper, bind_eq_bind]
  simp only [hbind]

/-- Targets that differ from all elements by the precision, or are elements, are found as with
tolerance zero. -/
lemma getInterpolationIndexes_prescision [IsStrictOrderedRing K] {prescision : K}
    (hpos : 0 < prescision) {lutIndex : List K} {targetVal : K} (h : ∀ a ∈ lutIndex, a ≠ targetVal →
    prescision ≤ |a - targetVal|) : getInterpolationIndexes (fun a b => eqvDouble a b prescision)
    lutIndex targetVal =
      getInterpolationIndexes exactly lutIndex targetVal := by
  refine getInterpolationIndexes_congr fun a ha => ?_
  by_cases heq : a = targetVal
  · subst heq
    simp [eqvDouble, exactly, hpos]
  · have hle := h a ha heq
    have hle' := abs_sub_comm a targetVal ▸ hle
    simp [eqvDouble, exactly, heq, Ne.symm heq, not_lt.2 hle, not_lt.2 hle']

/-! ### Tables -/

def AffineInEach (f : K → K → K) : Prop :=
  (∀ y, ∃ p q, ∀ x, f x y = p + q * x) ∧ ∀ x, ∃ p q, ∀ y, f x y = p + q * y

def sample (f : K → K → K) (indexX indexY : List K) : LUT K :=
  ⟨[indexX, indexY], indexX.flatMap fun x => indexY.map (f x)⟩

lemma linearInterpolation_of_affine {g : K → K} (h : ∃ p q, ∀ x, g x = p + q * x) {x1 x2 : K}
    (hne : x1 < x2) (xt : K) : linearInterpolation (g x1) (g x2) x1 x2 xt = g xt := by
  obtain ⟨p, q, h⟩ := h
  have hsub : x2 - x1 ≠ 0 := sub_ne_zero.2 hne.ne'
  rw [linearInterpolation, h, h, h]
  field_simp
  ring

lemma bilinearInterpolation_of_affine {f : K → K → K} (h : AffineInEach f) {x1 x2 y1 y2 : K}
    (hx : x1 < x2) (hy : y1 < y2) (xt yt : K) : bilinearInterpolation (f x1 y1) (f x1 y2) (f x2 y1)
    (f x2 y2) x1 x2 xt y1 y2 yt = f xt yt := by
  have hrow1 := linearInterpolation_of_affine (h.1 y1) hx xt
  have hrow2 := linearInterpolation_of_affine (h.1 y2) hx xt
  have hcol := linearInterpolation_of_affine (h.2 xt) hy yt
  simp only [linearInterpolation] at hrow1 hrow2
  rw [bilinearInterpolation, hrow1, hrow2, hcol]

omit [Field K] [LinearOrder K] in
/-- The rows stand one behind the other. -/
lemma sample_values_getElem? (f : K → K → K) (indexX indexY : List K) {i j : ℕ} {x y : K}
    (hx : indexX[i]? = some x) (hy : indexY[j]? = some y) :
    (sample f indexX indexY).values[i * indexY.length + j]? = some (f x y) := by
  have hj : j < indexY.length := (List.getElem?_eq_some_iff.1 hy).1
  simp only [sample]
  induction indexX generalizing i with
  | nil => simp at hx
  | cons first rest ih =>
    rw [flatMap_cons]
    cases i with
    | zero =>
      obtain rfl : first = x := by simpa using hx
      rw [Nat.zero_mul, Nat.zero_add, getElem?_append_left (by simpa using hj), getElem?_map, hy,
        Option.map_some]
    | succ i =>
      have hsucc : (i + 1) * indexY.length + j = indexY.length + (i * indexY.length + j) := by ring
      rw [hsucc, getElem?_append_right (by simp), length_map, Nat.add_sub_cancel_left]
      exact ih (by simpa using hx)

/-- A lookup at a point of the table reads the value there. -/
lemma getLut2Value_exact {lut : LUT K} {indexX indexY : List K}
    (hlut : lut.indexes = [indexX, indexY]) (hsizeX : 2 ≤ indexX.length)
    (hsizeY : 2 ≤ indexY.length) (hX : indexX.Pairwise (· < ·))
    (hY : indexY.Pairwise (· < ·)) {i j : ℕ} {x y : K} (hx : indexX[i]? = some x)
    (hy : indexY[j]? = some y) : getLut2Value exactly lut x y = lut.getValue i j := by
  simp only [getLut2Value, hlut, getInterpolationIndexes_exact hsizeX hX hx,
    getInterpolationIndexes_exact hsizeY hY hy, bind_eq_bind, bind_some, if_true]

/-- With the values of a function that is affine in each argument the lookup gives the function. -/
lemma getLut2Value_of_affine {f : K → K → K} (hf : AffineInEach f) {lut : LUT K}
    {indexX indexY : List K} (hlut : lut.indexes = [indexX, indexY]) (hsizeX : 2 ≤ indexX.length)
    (hsizeY : 2 ≤ indexY.length) (hX : indexX.Pairwise (· < ·)) (hY : indexY.Pairwise (· < ·))
    (hvalues : ∀ i j x y, indexX[i]? = some x → indexY[j]? = some y →
      lut.getValue i j = some (f x y))
    (targetX targetY : K) : getLut2Value exactly lut targetX targetY =
    some (f targetX targetY) := by
  obtain ⟨⟨lowX, hiX⟩, hbx⟩ := exists_brackets hsizeX targetX
  obtain ⟨⟨lowY, hiY⟩, hby⟩ := exists_brackets hsizeY targetY
  simp only [getLut2Value, hlut, getInterpolationIndexes_of_brackets hsizeX hX hbx,
    getInterpolationIndexes_of_brackets hsizeY hY hby, bind_eq_bind, bind_some]
  obtain ⟨rfl, hx⟩ | ⟨hneX, x1, x2, hx1, hx2, hltX⟩ := hbx.elements hsizeX hX <;>
    obtain ⟨rfl, hy⟩ | ⟨hneY, y1, y2, hy1, hy2, hltY⟩ := hby.elements hsizeY hY
  · rw [if_pos rfl, if_pos rfl]
    exact hvalues _ _ _ _ hx hy
  · simp only [if_true, if_neg hneY, hvalues _ _ _ _ hx hy1, hvalues _ _ _ _ hx hy2, hy1, hy2,
      bind_some]
    rw [linearInterpolation_of_affine (hf.2 targetX) hltY]
  · simp only [if_neg hneX, if_true, hvalues _ _ _ _ hx1 hy, hvalues _ _ _ _ hx2 hy, hx1, hx2,
      bind_some]
    rw [linearInterpolation_of_affine (hf.1 targetY) hltX]
  · simp only [if_neg hneX, if_neg hneY, hvalues _ _ _ _ hx1 hy1, hvalues _ _ _ _ hx2 hy1,
      hvalues _ _ _ _ hx1 hy2, hvalues _ _ _ _ hx2 hy2, hx1, hx2, hy1, hy2, bind_some]
    rw [bilinearInterpolation_of_affine hf hltX hltY]

/-! ### Square tables -/

structure BracketsTargets (lutIndex : List K) : Prop where
  exact : ∀ targetVal k, getInterpolationIndexes exactly lutIndex targetVal = some (k, k) ↔
    lutIndex[k]? = some targetVal
  between : ∀ targetVal k a b, lutIndex[k]? = some a → lutIndex[k + 1]? = some b → a < targetVal →
    targetVal < b → getInterpolationIndexes exactly lutIndex targetVal = some (k, k + 1)
  below : ∀ targetVal a, lutIndex[0]? = some a → targetVal < a →
    getInterpolationIndexes exactly lutIndex targetVal = some (0, 1)
  above : ∀ targetVal a, lutIndex[lutIndex.length - 1]? = some a → a < targetVal →
    getInterpolationIndexes exactly lutIndex targetVal =
    some (lutIndex.length - 2, lutIndex.length - 1)

structure Interpolates (indexX indexY : List K) : Prop where
  bracketsX : BracketsTargets indexX
  bracketsY : BracketsTargets indexY
  points : ∀ values : List K, values.length = indexX.length * indexY.length →
    ∀ i j x y, indexX[i]? = some x → indexY[j]? = some y →
    getLut2Value exactly ⟨[indexX, indexY], values⟩ x y = values[i * indexY.length + j]?
  affine : ∀ f, AffineInEach f → ∀ targetX targetY,
    getLut2Value exactly (sample f indexX indexY) targetX targetY = some (f targetX targetY)

omit [Field K] in
lemma bracketsTargets {lutIndex : List K} (hsize : 2 ≤ lutIndex.length)
    (hsorted : lutIndex.Pairwise (· < ·)) : BracketsTargets lutIndex where
  exact targetVal k := by
    refine ⟨fun h => ?_, getInterpolationIndexes_exact hsize hsorted⟩
    obtain ⟨⟨low, hi⟩, hb⟩ := exists_brackets hsize targetVal
    rw [getInterpolationIndexes_of_brackets hsize hsorted hb] at h
    obtain ⟨rfl, rfl⟩ := Prod.mk.inj (some.inj h)
    obtain ⟨-, hx⟩ | ⟨hne, -⟩ := hb.elements hsize hsorted
    · exact hx
    · exact absurd rfl hne
  between _ _ _ _ ha hb := getInterpolationIndexes_between hsize hsorted ha hb
  below _ _ ha := getInterpolationIndexes_below hsize ha
  above _ _ ha := getInterpolationIndexes_above hsize hsorted ha

/-- The rows of the tables are as long as the first index: the lookup is right for square tables and
for no others. -/
theorem interpolates_iff (indexX indexY : List K) (hsizeX : 2 ≤ indexX.length)
    (hsizeY : 2 ≤ indexY.length) (hX : indexX.Pairwise (· < ·)) (hY : indexY.Pairwise (· < ·)) :
    Interpolates indexX indexY ↔ indexX.length = indexY.length := by
  constructor
  · intro h
    by_contra hne
    -- a single 1, at the beginning of the second row
    let values := (List.replicate (indexX.length * indexY.length) (0 : K)).set indexY.length 1
    have hlen : indexY.length < indexX.length * indexY.length := by nlinarith
    obtain ⟨x, hx⟩ : ∃ x, indexX[1]? = some x := ⟨_, getElem?_eq_getElem (by omega)⟩
    obtain ⟨y, hy⟩ : ∃ y, indexY[0]? = some y := ⟨_, getElem?_eq_getElem (by omega)⟩
    have hpoint := h.points values (by simp [values]) 1 0 _ _ hx hy
    rw [getLut2Value_exact rfl hsizeX hsizeY hX hY hx hy, Nat.one_mul, Nat.add_zero,
      getElem?_set_self (by simpa using hlen)] at hpoint
    simp only [LUT.getValue, getElem?_cons_zero, bind_eq_bind, bind_some, Nat.one_mul,
      Nat.add_zero] at hpoint
    rw [getElem?_set_ne (Ne.symm hne)] at hpoint
    obtain ⟨_, hzero⟩ := List.getElem?_eq_some_iff.1 hpoint
    rw [getElem_replicate] at hzero
    exact zero_ne_one hzero
  · intro heq
    refine ⟨bracketsTargets hsizeX hX, bracketsTargets hsizeY hY, ?_, ?_⟩
    · intro values _ i j x y hx hy
      rw [getLut2Value_exact rfl hsizeX hsizeY hX hY hx hy]
      simp only [LUT.getValue, getElem?_cons_zero, bind_eq_bind, bind_some, heq]
    · intro f hf targetX targetY
      refine getLut2Value_of_affine hf rfl hsizeX hsizeY hX hY (fun i j x y hx hy => ?_)
        targetX targetY
      rw [← sample_values_getElem? f indexX indexY hx hy]
      simp only [LUT.getValue, sample, getElem?_cons_zero, bind_eq_bind, bind_some, heq]

end

theorem interpolates_square : Interpolates [(0 : ℚ), 1] [0, 2] :=
  (interpolates_iff [0, 1] [0, 2] (by decide) (by decide) (by decide +kernel) (by decide +kernel)).2
    rfl

def plane (x y : ℚ) : ℚ := x + 10 * y

/-- In a table of two rows and three columns the point (1, 0) is taken from the end of the first
row. -/
theorem wide_table_misread : AffineInEach plane ∧
    getLut2Value exactly (sample plane [0, 1] [0, 1, 2]) 1 0 = some (plane 0 2) ∧
    plane 0 2 ≠ plane 1 0 := by
  refine ⟨⟨fun y => ⟨10 * y, 1, fun x => ?_⟩, fun x => ⟨x, 10, fun y => rfl⟩⟩, ?_⟩
  · rw [plane]
    ring
  · decide +kernel

end UtopiaEda
