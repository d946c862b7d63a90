import Mathlib.Data.Nat.Bitwise
import Mathlib.Data.Bool.Basic

/-!
# Sums of products

A vector of bits is indexed by numbers, whose bits select one of two factors for every variable; its
sum of products is the exclusive or of the products. With the factors of a point it is the bit of
the vector there, with literals it is a polynomial. A step that mixes the bits of two indices that
differ in one place changes the factors of that place.
-/
namespace UtopiaEda.ProductSums
open List

variable {n k : ℕ} {P P' Q : ℕ → Bool} {g g' : ℕ → Bool → Bool} {x : ℕ → Bool} {l l' : List Bool}

/-- The exclusive or, over all indices with `n` bits, of the bit at the index and the factors that
its bits select. -/
def productSum : ℕ → (ℕ → Bool) → (ℕ → Bool → Bool) → Bool
  | 0, P, _ => P 0
  | n + 1, P, g => xor (g n false && productSum n P g)
      (g n true && productSum n (fun i => P (2 ^ n + i)) g)

theorem productSum_congr (hP : ∀ i < 2 ^ n, P i = P' i) (hg : ∀ k < n, g k = g' k) :
    productSum n P g = productSum n P' g' := by
  induction n generalizing P P' with
  | zero => exact hP 0 Nat.one_pos
  | succ n ih =>
    have hlow := ih (fun i hi => hP i (by omega)) (fun k hk => hg k (Nat.lt_succ_of_lt hk))
    have hhigh : productSum n (fun i => P (2 ^ n + i)) g =
        productSum n (fun i => P' (2 ^ n + i)) g' :=
      ih (fun i hi => hP (2 ^ n + i) (by omega)) (fun k hk => hg k (Nat.lt_succ_of_lt hk))
    rw [productSum, productSum, hlow, hhigh, hg n (Nat.lt_succ_self n)]

theorem productSum_linear (a b : Bool) : productSum n (fun i => xor (a && P i) (b && Q i)) g =
    xor (a && productSum n P g) (b && productSum n Q g) := by
  induction n generalizing P Q with
  | zero => rfl
  | succ n ih =>
    rw [productSum, productSum, productSum, ih, ih]
    generalize productSum n P g = p
    generalize productSum n Q g = q
    generalize productSum n (fun i => P (2 ^ n + i)) g = p'
    generalize productSum n (fun i => Q (2 ^ n + i)) g = q'
    generalize g n false = u
    generalize g n true = v
    clear ih
    revert a b p q p' q' u v
    decide

theorem productSum_step (hk : k < n) (hg : ∀ m, m ≠ k → g' m = g m)
    (hstep : ∀ i < 2 ^ n, i.testBit k = false →
      xor (g' k false && P' i) (g' k true && P' (i + 2 ^ k)) =
      xor (g k false && P i) (g k true && P (i + 2 ^ k))) : productSum n P' g' =
      productSum n P g := by
  induction n generalizing P P' with
  | zero => exact absurd hk (Nat.not_lt_zero k)
  | succ n ih =>
    rw [productSum, productSum]
    by_cases hkn : k = n
    · subst hkn
      have hlow : ∀ R : ℕ → Bool, productSum k R g' = productSum k R g := fun R =>
        productSum_congr (fun _ _ => rfl) (fun m hm => hg m (Nat.ne_of_lt hm))
      rw [hlow, hlow, ← productSum_linear, ← productSum_linear]
      refine productSum_congr (fun i hi => ?_) (fun _ _ => rfl)
      have hi' := hstep i (by omega) (Nat.testBit_lt_two_pow hi)
      rwa [Nat.add_comm i] at hi'
    · have hlt : k < n := by omega
      rw [hg n (Ne.symm hkn)]
      have h₁ : productSum n P' g' = productSum n P g :=
        ih hlt (fun i hi hbit => hstep i (by omega) hbit)
      have h₂ : productSum n (fun i => P' (2 ^ n + i)) g' =
          productSum n (fun i => P (2 ^ n + i)) g := ih hlt (fun i hi hbit => by
        have hbit' : (2 ^ n + i).testBit k = false := by
          rw [Nat.testBit_two_pow_add_gt hlt, hbit]
        have hi' := hstep (2 ^ n + i) (by omega) hbit'
        rwa [Nat.add_assoc] at hi')
      rw [h₁, h₂]

/-- The number whose bits are the first `n` values of `x`. -/
def point (x : ℕ → Bool) : ℕ → ℕ
  | 0 => 0
  | n + 1 => point x n + if x n then 2 ^ n else 0

theorem point_lt : point x n < 2 ^ n := by
  induction n with
  | zero => exact Nat.one_pos
  | succ n ih =>
    rw [point]
    by_cases hx : x n
    · rw [if_pos hx]
      omega
    · rw [if_neg hx]
      omega

theorem point_congr {y : ℕ → Bool} (h : ∀ k < n, x k = y k) : point x n = point y n := by
  induction n with
  | zero => rfl
  | succ n ih => rw [point, point, ih (fun k hk => h k (Nat.lt_succ_of_lt hk)),
      h n (Nat.lt_succ_self n)]

theorem testBit_point (hk : k < n) : (point x n).testBit k = x k := by
  induction n with
  | zero => exact absurd hk (Nat.not_lt_zero k)
  | succ n ih =>
    rw [point]
    rcases Nat.lt_succ_iff_lt_or_eq.mp hk with hlt | rfl
    · rw [← ih hlt]
      by_cases hx : x n
      · rw [if_pos hx, Nat.add_comm, Nat.testBit_two_pow_add_gt hlt]
      · rw [if_neg hx, Nat.add_zero]
    · cases hx : x k with
      | false => rw [if_neg Bool.false_ne_true, Nat.add_zero, Nat.testBit_lt_two_pow point_lt]
      | true => rw [if_pos rfl, Nat.add_comm, Nat.testBit_two_pow_add_eq,
          Nat.testBit_lt_two_pow point_lt]; rfl

theorem productSum_point : productSum n P (fun k b => b == x k) = P (point x n) := by
  induction n generalizing P with
  | zero => rfl
  | succ n ih =>
    rw [productSum, ih, ih, point]
    cases hx : x n with
    | false => simp
    | true => simp [Nat.add_comm]

/-! ### Polynomials -/

/-- The places of the ones of an index with `n` bits. -/
def ones (i : ℕ) (n : ℕ) : List ℕ := (range n).filter i.testBit

/-- The exclusive or of the products of literals at the indices of the ones of the vector. -/
def polynomial (n : ℕ) (P : ℕ → Bool) (lit : ℕ → Bool) : Bool :=
  (((range (2 ^ n)).filter P).map (fun i => (ones i n).all lit)).foldr xor false

theorem mem_ones {i : ℕ} (h : k ∈ ones i n) : k < n := mem_range.mp (mem_filter.mp h).1

theorem ones_zero : ones 0 n = [] :=
  filter_eq_nil_iff.mpr (fun k _ => by rw [Nat.zero_testBit]; exact Bool.false_ne_true)

theorem all_ones_congr {i : ℕ} {lit lit' : ℕ → Bool} (h : ∀ k < n, lit k = lit' k) :
    (ones i n).all lit = (ones i n).all lit' := by
  rw [Bool.eq_iff_iff, all_eq_true, all_eq_true]
  exact forall₂_congr (fun k hk => by rw [h k (mem_ones hk)])

theorem polynomial_congr {lit lit' : ℕ → Bool} (h : ∀ k < n, lit k = lit' k) :
    polynomial n P lit = polynomial n P lit' :=
  congrArg (foldr xor false) (map_congr_left (fun _ _ => all_ones_congr h))

theorem foldr_xor_append : (l ++ l').foldr xor false = xor (l.foldr xor false)
    (l'.foldr xor false) := by
  induction l with
  | nil => exact (Bool.false_xor _).symm
  | cons b l ih => rw [cons_append, foldr_cons, foldr_cons, ih, Bool.xor_assoc]

theorem foldr_xor_and (a : Bool) : (l.map (a && ·)).foldr xor false = (a && l.foldr xor false) := by
  induction l with
  | nil => exact (Bool.and_false a).symm
  | cons b l ih => rw [map_cons, foldr_cons, ih, foldr_cons, Bool.and_xor_distrib_left]

theorem ones_succ_low {i : ℕ} (hi : i < 2 ^ n) : ones i (n + 1) = ones i n := by
  rw [ones, range_succ, filter_append, ones,
    filter_cons_of_neg (Bool.eq_false_iff.mp (Nat.testBit_lt_two_pow hi)), filter_nil, append_nil]

theorem ones_succ_high {i : ℕ} (hi : i < 2 ^ n) : ones (2 ^ n + i) (n + 1) = ones i n ++ [n] := by
  have hbit : (2 ^ n + i).testBit n = true := by
    rw [Nat.testBit_two_pow_add_eq, Nat.testBit_lt_two_pow hi]
    rfl
  rw [ones, range_succ, filter_append, ones, filter_cons_of_pos hbit, filter_nil]
  refine congrArg (· ++ [n]) (filter_congr (fun k hk => ?_))
  exact Nat.testBit_two_pow_add_gt (mem_range.mp hk) i

theorem polynomial_eq (lit : ℕ → Bool) :
    polynomial n P lit = productSum n P (fun k b => !b || lit k) := by
  induction n generalizing P with
  | zero =>
    rw [polynomial, productSum, Nat.pow_zero, range_one]
    cases hP : P 0 with
    | false => rw [filter_cons_of_neg (Bool.eq_false_iff.mp hP)]; rfl
    | true => rw [filter_cons_of_pos hP]; rfl
  | succ n ih =>
    have hsplit : range (2 ^ (n + 1)) = range (2 ^ n) ++
        (range (2 ^ n)).map (2 ^ n + ·) := by
      rw [Nat.two_pow_succ, range_add]
    have hlow : ((range (2 ^ n)).filter P).map (fun i => (ones i (n + 1)).all lit) =
        ((range (2 ^ n)).filter P).map (fun i => (ones i n).all lit) :=
      map_congr_left (fun i hi => by rw [ones_succ_low
        (mem_range.mp (mem_filter.mp hi).1)])
    have hhigh : (((range (2 ^ n)).map (2 ^ n + ·)).filter P).map
        (fun i => (ones i (n + 1)).all lit) =
        (((range (2 ^ n)).filter (fun i => P (2 ^ n + i))).map
        (fun i => (ones i n).all lit)).map (lit n && ·) := by
      rw [filter_map, map_map, map_map]
      refine map_congr_left (fun i hi => ?_)
      rw [Function.comp, Function.comp,
        ones_succ_high (mem_range.mp (mem_filter.mp hi).1), all_append,
        all_cons, all_nil, Bool.and_true, Bool.and_comm]
    rw [polynomial, hsplit, filter_append, map_append, foldr_xor_append, hlow, hhigh, foldr_xor_and,
      productSum, ← ih, ← ih, polynomial, polynomial, Bool.not_false, Bool.true_or, Bool.true_and,
      Bool.not_true, Bool.false_or]

/-! ### Coefficients -/

/-- The exclusive or of the bits at all indices whose ones are among those of `i`. -/
def coefficient (n : ℕ) (f : ℕ → Bool) (i : ℕ) : Bool :=
  productSum n f (fun k b => !b || i.testBit k)

theorem coefficient_high {f : ℕ → Bool} {i : ℕ} (hi : i < 2 ^ n) :
    coefficient (n + 1) f (2 ^ n + i) = xor (coefficient n f i)
    (coefficient n (fun j => f (2 ^ n + j)) i) := by
  have hlow : ∀ R : ℕ → Bool, productSum n R (fun k b => !b || (2 ^ n + i).testBit k) =
      coefficient n R i := fun R =>
    productSum_congr (fun _ _ => rfl) (fun k hk => by rw [Nat.testBit_two_pow_add_gt hk])
  rw [coefficient, productSum, hlow, hlow, Nat.testBit_two_pow_add_eq, Nat.testBit_lt_two_pow hi]
  rfl

theorem coefficient_low {f : ℕ → Bool} {i : ℕ} (hi : i < 2 ^ n) :
    coefficient (n + 1) f i = coefficient n f i := by
  rw [coefficient, productSum, Nat.testBit_lt_two_pow hi, coefficient]
  simp

theorem polynomial_coefficient {f : ℕ → Bool} :
    polynomial n (coefficient n f) x = f (point x n) := by
  rw [polynomial_eq]
  induction n generalizing f with
  | zero => rfl
  | succ n ih =>
    have hlow : productSum n (coefficient (n + 1) f) (fun k b => !b || x k) =
        productSum n (coefficient n f) (fun k b => !b || x k) :=
      productSum_congr (fun i hi => coefficient_low hi) (fun _ _ => rfl)
    have hhigh : productSum n (fun i => coefficient (n + 1) f (2 ^ n + i)) (fun k b => !b || x k) =
        productSum n (fun i => xor (coefficient n f i) (coefficient n (fun j => f (2 ^ n + j)) i))
        (fun k b => !b || x k) :=
      productSum_congr (fun i hi => coefficient_high hi) (fun _ _ => rfl)
    have hlinear := productSum_linear (n := n) (P := coefficient n f)
      (Q := coefficient n (fun j => f (2 ^ n + j))) (g := fun k b => !b || x k) true true
    simp only [Bool.true_and] at hlinear
    rw [productSum, hlow, hhigh, hlinear, ih, ih, point]
    cases x n with
    | false => simp
    | true => simp [Nat.add_comm]

theorem polynomial_zero {lit : ℕ → Bool} (h : ∀ i < 2 ^ n, P i = false) :
    polynomial n P lit = false := by
  have hnil : (range (2 ^ n)).filter P = [] :=
    filter_eq_nil_iff.mpr (fun i hi => Bool.eq_false_iff.mp (h i (mem_range.mp hi)))
  rw [polynomial, hnil]
  rfl

theorem productSum_zero (h : ∀ i < 2 ^ n, P i = false) : productSum n P g = false := by
  induction n generalizing P with
  | zero => exact h 0 Nat.one_pos
  | succ n ih =>
    rw [productSum, ih (fun i hi => h i (by omega)), ih (fun i hi => h (2 ^ n + i) (by omega)),
      Bool.and_false, Bool.and_false]
    rfl

theorem point_testBit {i : ℕ} (hi : i < 2 ^ n) : point i.testBit n = i := by
  induction n generalizing i with
  | zero => exact (Nat.lt_one_iff.mp hi).symm
  | succ n ih =>
    rw [point]
    by_cases hlt : i < 2 ^ n
    · rw [Nat.testBit_lt_two_pow hlt, ih hlt]
      rfl
    · obtain ⟨j, rfl⟩ := Nat.exists_eq_add_of_le (Nat.not_lt.mp hlt)
      have hj : j < 2 ^ n := by omega
      have hpoint : ∀ m, m ≤ n → point (2 ^ n + j).testBit m = point j.testBit m := by
        intro m hm
        induction m with
        | zero => rfl
        | succ m ihm => rw [point, point, ihm (Nat.le_of_succ_le hm), Nat.testBit_two_pow_add_gt hm]
      rw [Nat.testBit_two_pow_add_eq, Nat.testBit_lt_two_pow hj, hpoint n (Nat.le_refl n), ih hj,
        Nat.add_comm]
      rfl

theorem coefficient_eq_zero {f : ℕ → Bool} :
    (∀ i < 2 ^ n, coefficient n f i = false) ↔ ∀ i < 2 ^ n, f i = false := by
  constructor
  · intro h i hi
    rw [← point_testBit hi]
    exact polynomial_coefficient.symm.trans (polynomial_zero h)
  · intro h i _
    exact productSum_zero h

end UtopiaEda.ProductSums
