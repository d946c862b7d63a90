import Mathlib.Algebra.BigOperators.Group.Finset.Basic
import Mathlib.Algebra.BigOperators.Ring.Finset
import Mathlib.Algebra.Order.Ring.Defs
import Mathlib.Data.Fintype.BigOperators
import Mathlib.Logic.Function.DependsOn
import Mathlib.Tactic.Linarith
import Mathlib.Tactic.Ring
import Mathlib.Order.CompletePartialOrder

/-!
# Product weights

Independent bits: the weight of an assignment is the product of the weights of its bits. Functions
that depend on disjoint sets of bits are independent, so a function of such functions has the mean
that it has over bits with their probabilities.
-/
namespace UtopiaEda.ProductWeights
open Finset

section
variable {ι K : Type*} [Fintype ι] [DecidableEq ι] [CommRing K]

/-- The weight of an assignment to bits that are true with the probabilities `p`. -/
def weight (p : ι → K) (x : ι → Bool) : K := ∏ i, if x i then p i else 1 - p i

def mean (p : ι → K) (f : (ι → Bool) → K) : K := ∑ x, weight p x * f x

def indicator (b : Bool) : K := if b then 1 else 0

/-- The total weight of the assignments with the value 1. -/
def probability (p : ι → K) (f : (ι → Bool) → Bool) : K := mean p fun x => indicator (f x)

variable {p : ι → K} {f g : (ι → Bool) → K} {A B : Set ι}

/-- The mean of a product over the bits. -/
theorem mean_prod (h : ι → Bool → K) :
    mean p (fun x => ∏ i, h i (x i)) = ∏ i, (p i * h i true + (1 - p i) * h i false) := by
  have hbit : ∀ i, p i * h i true + (1 - p i) * h i false = ∑ b : Bool,
      (if b then p i else 1 - p i) * h i b := by
    intro i
    rw [Fintype.sum_bool, if_pos rfl, if_neg Bool.false_ne_true]
  simp only [hbit]
  rw [prod_univ_sum, Fintype.piFinset_univ]
  refine sum_congr rfl fun x _ => ?_
  rw [weight, ← prod_mul_distrib]

theorem sum_weight : ∑ x, weight p x = 1 := by
  have h := mean_prod (p := p) fun _ _ => 1
  simp only [mean, prod_const_one, mul_one, add_sub_cancel] at h
  exact h

theorem mean_const (c : K) : mean p (fun _ => c) = c := by
  rw [mean, ← sum_mul, sum_weight, one_mul]

theorem mean_add : mean p (fun x => f x + g x) = mean p f + mean p g := by
  simp only [mean, mul_add, sum_add_distrib]

theorem mean_congr (h : ∀ x, f x = g x) : mean p f = mean p g := sum_congr rfl fun x _ => by
  rw [h x]

theorem probability_bit (i : ι) : probability p (fun x => x i) = p i := by
  have h := mean_prod (p := p) fun j b => if j = i then indicator b else 1
  have hleft : ∀ x : ι → Bool, (∏ j, if j = i then indicator (x j) else (1 : K)) =
      indicator (x i) := by
    intro x
    rw [Fintype.prod_eq_single i fun j hj => if_neg hj, if_pos rfl]
  have hright : ∀ j, p j * (if j = i then indicator true else 1) + (1 - p j) * (if j = i then
      indicator false else 1) = if j = i then p i else 1 := by
    intro j
    by_cases hj : j = i
    · simp [indicator, hj]
    · simp [hj]
  simp only [hleft, hright, prod_ite_eq', mem_univ, if_true] at h
  exact h

/-- Functions of disjoint sets of bits are independent: in a pair of assignments the bits in `A` can
be exchanged. -/
theorem mean_mul (hf : DependsOn f A) (hg : DependsOn g B) (hAB : Disjoint A B) :
    mean p (fun x => f x * g x) = mean p f * mean p g := by
  classical
  let mix (x y : ι → Bool) : ι → Bool := fun i => if i ∈ A then x i else y i
  let e : ((ι → Bool) × (ι → Bool)) ≃ ((ι → Bool) × (ι → Bool)) :=
    Function.Involutive.toPerm (fun q => (mix q.1 q.2, mix q.2 q.1)) fun q => by
      refine Prod.ext (funext fun i => ?_) (funext fun i => ?_) <;> by_cases hi : i ∈
        A <;> simp [mix, hi]
  have hweight : ∀ x y, weight p (mix x y) * weight p (mix y x) = weight p x * weight p y := by
    intro x y
    simp only [weight, ← prod_mul_distrib]
    refine prod_congr rfl fun i _ => ?_
    by_cases hi : i ∈ A
    · simp only [mix, if_pos hi]
    · simp only [mix, if_neg hi]
      exact mul_comm _ _
  have hvalue : ∀ x y, f (mix x y) = f x ∧ g (mix x y) = g y := by
    refine fun x y => ⟨hf fun i hi => if_pos hi, hg fun i hi => if_neg fun hA => ?_⟩
    exact Set.disjoint_left.mp hAB hA hi
  calc mean p (fun x => f x * g x) = (∑ x, weight p x * (f x * g x)) * ∑ y, weight p y := by
        rw [sum_weight, mul_one]
        rfl
    _ = ∑ q : (ι → Bool) × (ι → Bool), weight p q.1 * weight p q.2 * (f q.1 * g q.1) := by
        rw [sum_mul_sum, Fintype.sum_prod_type]
        exact sum_congr rfl fun x _ => sum_congr rfl fun y _ => by ring
    _ = ∑ q : (ι → Bool) × (ι → Bool), weight p q.1 * weight p q.2 * (f q.1 * g q.2) := by
        refine (Equiv.sum_comp e _).symm.trans (sum_congr rfl fun q _ => ?_)
        change weight p (mix q.1 q.2) * weight p
          (mix q.2 q.1) * (f (mix q.1 q.2) * g (mix q.1 q.2)) = _
        rw [hweight, (hvalue q.1 q.2).1, (hvalue q.1 q.2).2]
    _ = mean p f * mean p g := by
        rw [mean, mean, sum_mul_sum, Fintype.sum_prod_type]
        exact sum_congr rfl fun x _ => sum_congr rfl fun y _ => by ring

end

/-! ### Lists of bits -/

section
variable {K : Type*} [CommRing K]

def average : List K → (List Bool → K) → K
  | [], F => F []
  | q :: qs, F => q * average qs (fun v => F (true :: v)) + (1 - q) * average qs
      (fun v => F (false :: v))

variable {qs : List K} {F G : List Bool → K}

theorem average_congr (h : ∀ v, v.length = qs.length → F v = G v) :
    average qs F = average qs G := by
  induction qs generalizing F G with
  | nil => exact h [] rfl
  | cons q qs ih =>
    have hcons : ∀ b, average qs (fun v => F (b :: v)) = average qs fun v => G (b :: v) := fun b =>
      ih fun v hv => h (b :: v) (congrArg Nat.succ hv)
    rw [average, average, hcons, hcons]

theorem average_add : average qs (fun v => F v + G v) = average qs F + average qs G := by
  induction qs generalizing F G with
  | nil => rfl
  | cons q qs ih =>
    simp only [average, ih]
    ring

theorem average_const (c : K) : average qs (fun _ => c) = c := by
  induction qs with
  | nil => rfl
  | cons q qs ih =>
    simp only [average, ih]
    ring

theorem average_all : average qs (fun v => indicator (v.all id)) = qs.prod := by
  induction qs with
  | nil => rfl
  | cons q qs ih =>
    have hfalse : average qs (fun v => (indicator ((false :: v).all id) : K)) = 0 := average_const 0
    simp only [average, hfalse, mul_zero, add_zero, List.prod_cons]
    exact congrArg (q * ·) ih

theorem average_any : average qs (fun v => indicator (v.any id)) = 1 - (qs.map (1 - ·)).prod := by
  induction qs with
  | nil => exact (sub_self 1).symm
  | cons q qs ih =>
    have htrue : average qs (fun v => (indicator ((true :: v).any id) : K)) = 1 := average_const 1
    have hfalse : average qs (fun v => (indicator ((false :: v).any id) : K)) =
        1 - (qs.map (1 - ·)).prod := ih
    simp only [average, htrue, hfalse, List.map_cons, List.prod_cons]
    ring

end

/-! ### Functions of independent functions -/

section
variable {ι K : Type*} [Fintype ι] [DecidableEq ι] [CommRing K] {p : ι → K}

/-- The functions depend on disjoint sets of bits. -/
inductive Independent : List ((ι → Bool) → Bool) → Set ι → Prop
  | nil : Independent [] ∅
  | cons {f fs A B} : DependsOn f A → Independent fs B → Disjoint A B →
      Independent (f :: fs) (A ∪ B)

variable {fs : List ((ι → Bool) → Bool)} {A : Set ι}

omit [Fintype ι] [DecidableEq ι] in
theorem Independent.dependsOn (h : Independent fs A) :
    DependsOn (fun x : ι → Bool => fs.map fun f => f x) A := by
  induction h with
  | nil => exact fun _ _ _ => rfl
  | cons hf _ _ ih =>
    intro x y hxy
    exact List.cons_eq_cons.mpr ⟨hf fun i hi => hxy i (.inl hi), ih fun i hi => hxy i (.inr hi)⟩

/-- A function of independent functions: only their probabilities matter. -/
theorem Independent.mean_eq (h : Independent fs A) (F : List Bool → K) :
    mean p (fun x => F (fs.map fun f => f x)) = average (fs.map (probability p)) F := by
  induction h generalizing F with
  | nil => exact mean_const (p := p) (F [])
  | @cons f fs A B hf hfs hAB ih =>
    have hsplit : ∀ x, F ((f :: fs).map fun f => f x) =
        (indicator (f x) : K) * F (true :: fs.map fun f => f x) +
        (indicator (!f x) : K) * F (false :: fs.map fun f => f x) := by
      intro x
      cases hx : f x <;> simp [indicator, hx]
    have htail : ∀ b, DependsOn (fun x => F (b :: fs.map fun f => f x)) B := fun b x y hxy => by
      have heq : (fs.map fun f => f x) = fs.map fun f => f y := hfs.dependsOn hxy
      simp only [heq]
    have hhead : ∀ b : Bool → Bool, DependsOn (fun x => (indicator (b (f x)) : K)) A :=
      fun b x y hxy => by
      simp only [hf hxy]
    have hnot : mean p (fun x => indicator (!f x)) = 1 - probability p f := by
      rw [eq_sub_iff_add_eq, probability, ← mean_add, ← mean_const (p := p) 1]
      refine mean_congr fun x => ?_
      cases hx : f x <;> simp [indicator]
    have htrue : mean p (fun x => indicator (f x) * F (true :: fs.map fun f => f x)) =
        probability p f * average (fs.map (probability p)) fun v => F (true :: v) := by
      have hmul := mean_mul (p := p) (hhead id) (htail true) hAB
      rw [ih fun v => F (true :: v)] at hmul
      exact hmul
    have hfalse : mean p (fun x => indicator (!f x) * F (false :: fs.map fun f => f x)) =
        (1 - probability p f) * average (fs.map (probability p)) fun v => F (false :: v) := by
      have hmul := mean_mul (p := p) (hhead not) (htail false) hAB
      rw [ih fun v => F (false :: v), hnot] at hmul
      exact hmul
    rw [mean_congr hsplit, mean_add, htrue, hfalse]
    rfl

end

/-! ### Sums over bit masks -/

section
variable {K : Type*} [CommRing K] {qs : List K} {F : List Bool → K}

/-- The lowest `n` bits of a number. -/
def bits (n m : ℕ) : List Bool := (List.range n).map m.testBit

@[simp] theorem length_bits (n m : ℕ) : (bits n m).length = n := by
  rw [bits, List.length_map, List.length_range]

theorem bits_succ (n m : ℕ) : bits (n + 1) m = m.testBit 0 :: bits n (m / 2) := by
  rw [bits, List.range_succ_eq_map, List.map_cons, List.map_map]
  refine congrArg _ (List.map_congr_left fun j _ => ?_)
  exact Nat.testBit_succ m j

def maskWeight (qs : List K) (m : ℕ) : K :=
  (qs.zipWith (fun q b => if b then q else 1 - q) (bits qs.length m)).prod

omit [CommRing K] in
private theorem sum_range_double {M : Type*} [AddCommMonoid M] (g : ℕ → M) (n : ℕ) :
    ∑ m ∈ range (2 * n), g m = ∑ m ∈ range n, (g (2 * m) + g (2 * m + 1)) := by
  induction n with
  | zero => rfl
  | succ n ih => rw [Nat.mul_succ, sum_range_succ, sum_range_succ, ih, sum_range_succ, add_assoc]

theorem sum_maskWeight (qs : List K) (F : List Bool → K) :
    ∑ m ∈ range (2 ^ qs.length), maskWeight qs m * F (bits qs.length m) = average qs F := by
  induction qs generalizing F with
  | nil => simp [maskWeight, bits, average]
  | cons q qs ih =>
    have heven : ∀ m, bits (qs.length + 1) (2 * m) = false :: bits qs.length m := by
      intro m
      rw [bits_succ, Nat.mul_div_cancel_left m Nat.two_pos, Nat.testBit_zero]
      simp
    have hodd : ∀ m, bits (qs.length + 1) (2 * m + 1) = true :: bits qs.length m := by
      intro m
      rw [bits_succ, Nat.testBit_zero, show (2 * m + 1) / 2 = m by omega]
      simp
    rw [List.length_cons, pow_succ', sum_range_double, sum_add_distrib, average, ← ih, ← ih,
      mul_sum, mul_sum, add_comm]
    refine congrArg₂ (· + ·) (sum_congr rfl fun m _ => ?_) (sum_congr rfl fun m _ => ?_)
    · rw [maskWeight, List.length_cons, hodd, List.zipWith_cons_cons, List.prod_cons, if_pos rfl,
        mul_assoc]
      rfl
    · rw [maskWeight, List.length_cons, heven, List.zipWith_cons_cons, List.prod_cons,
        if_neg Bool.false_ne_true, mul_assoc]
      rfl

end

/-! ### Bounds -/

section
variable {K : Type*} [CommRing K] [LinearOrder K] [IsStrictOrderedRing K] {qs : List K}
  {F : List Bool → K}

def Unit01 (q : K) : Prop := 0 ≤ q ∧ q ≤ 1

theorem Unit01.one_sub {q : K} (h : Unit01 q) : Unit01 (1 - q) :=
  ⟨sub_nonneg.mpr h.2, sub_le_self 1 h.1⟩

/-- Values between 0 and 1 have a mean between 0 and 1. -/
theorem average_unit01 (hqs : ∀ q ∈ qs, Unit01 q) (hF : ∀ v, Unit01 (F v)) :
    Unit01 (average qs F) := by
  induction qs generalizing F with
  | nil => exact hF []
  | cons q qs ih =>
    obtain ⟨hq0, hq1⟩ := hqs q List.mem_cons_self
    have htail : ∀ b, Unit01 (average qs fun v => F (b :: v)) := fun b =>
      ih (fun q' hq' => hqs q' (List.mem_cons_of_mem q hq')) fun v => hF (b :: v)
    obtain ⟨ht0, ht1⟩ := htail true
    obtain ⟨hf0, hf1⟩ := htail false
    constructor
    · exact add_nonneg (mul_nonneg hq0 ht0) (mul_nonneg (sub_nonneg.mpr hq1) hf0)
    · calc average (q :: qs) F ≤ q * 1 + (1 - q) * 1 :=
            add_le_add (mul_le_mul_of_nonneg_left ht1 hq0)
              (mul_le_mul_of_nonneg_left hf1 (sub_nonneg.mpr hq1))
        _ = 1 := by ring

theorem indicator_unit01 (b : Bool) : Unit01 (indicator b : K) := by
  cases b
  · exact ⟨le_refl 0, zero_le_one⟩
  · exact ⟨zero_le_one, le_refl 1⟩

end

end UtopiaEda.ProductWeights
