import Mathlib.Data.Nat.Bits
import Mathlib.Tactic.Linarith

/-!
# Prefix computation of carries

A block of positions generates a carry or propagates the one that comes in. The carries of a sum are
the ones generated by the blocks that start at position 0, and a block that is split in two
generates and propagates what its parts do.
-/
namespace UtopiaEda.PrefixCarries

variable {p g p' g' : ℕ → Bool} {lo mid hi : ℕ}

/-- The positions from `lo` to `hi` generate a carry. -/
def generates (p g : ℕ → Bool) (lo : ℕ) : ℕ → Bool
  | 0 => false
  | hi + 1 => if hi < lo then false else g hi || (p hi && generates p g lo hi)

/-- The positions from `lo` to `hi` propagate a carry. -/
def propagates (p : ℕ → Bool) (lo : ℕ) : ℕ → Bool
  | 0 => true
  | hi + 1 => if hi < lo then true else p hi && propagates p lo hi

theorem generates_of_le (h : hi ≤ lo) : generates p g lo hi = false := by
  cases hi with
  | zero => rfl
  | succ hi => rw [generates, if_pos (Nat.lt_of_succ_le h)]

theorem propagates_of_le (h : hi ≤ lo) : propagates p lo hi = true := by
  cases hi with
  | zero => rfl
  | succ hi => rw [propagates, if_pos (Nat.lt_of_succ_le h)]

theorem generates_succ (h : lo ≤ hi) :
    generates p g lo (hi + 1) = (g hi || (p hi && generates p g lo hi)) := by
  rw [generates, if_neg (Nat.not_lt.mpr h)]

theorem propagates_succ (h : lo ≤ hi) :
    propagates p lo (hi + 1) = (p hi && propagates p lo hi) := by
  rw [propagates, if_neg (Nat.not_lt.mpr h)]

theorem generates_single : generates p g lo (lo + 1) = g lo := by
  rw [generates_succ (Nat.le_refl lo), generates_of_le (Nat.le_refl lo), Bool.and_false,
    Bool.or_false]

theorem propagates_single : propagates p lo (lo + 1) = p lo := by
  rw [propagates_succ (Nat.le_refl lo), propagates_of_le (Nat.le_refl lo), Bool.and_true]

/-- Two adjacent blocks propagate what both of them do. -/
theorem propagates_join (h : lo ≤ mid) (h' : mid ≤ hi) :
    propagates p lo hi = (propagates p mid hi && propagates p lo mid) := by
  induction hi, h' using Nat.le_induction with
  | base => rw [propagates_of_le (Nat.le_refl mid), Bool.true_and]
  | succ hi h' ih =>
    rw [propagates_succ (Nat.le_trans h h'), propagates_succ h', ih, Bool.and_assoc]

/-- Two adjacent blocks generate what the upper one does and what it propagates of the lower one. -/
theorem generates_join (h : lo ≤ mid) (h' : mid ≤ hi) :
    generates p g lo hi = (generates p g mid hi ||
    (propagates p mid hi && generates p g lo mid)) := by
  induction hi, h' using Nat.le_induction with
  | base => rw [generates_of_le (Nat.le_refl mid), propagates_of_le (Nat.le_refl mid),
      Bool.false_or, Bool.true_and]
  | succ hi h' ih =>
    rw [generates_succ (Nat.le_trans h h'), generates_succ h', propagates_succ h', ih,
      Bool.and_or_distrib_left, Bool.or_assoc, Bool.and_assoc]

theorem generates_congr (h : ∀ i < hi, p i = p' i ∧ g i = g' i) :
    generates p g lo hi = generates p' g' lo hi := by
  induction hi with
  | zero => rfl
  | succ hi ih =>
    obtain ⟨hp, hg⟩ := h hi (Nat.lt_succ_self hi)
    rw [generates, generates, hp, hg, ih (fun i hi => h i (Nat.lt_succ_of_lt hi))]

/-- A carry that no position generates does not come about. -/
theorem generates_eq_false (h : ∀ i < hi, g i = false) : generates p g lo hi = false := by
  induction hi with
  | zero => rfl
  | succ hi ih =>
    rw [generates, h hi (Nat.lt_succ_self hi), ih (fun i hi => h i (Nat.lt_succ_of_lt hi)),
      Bool.and_false, Bool.or_false, ite_self]

/-! ### The blocks of a prefix tree -/

/-- The start of the block of width `d` that ends at position `i`; blocks end before the multiples
of their width. -/
def blockStart (d i : ℕ) : ℕ := d * ((i + 1) / d) - 1

theorem blockStart_one (i : ℕ) : blockStart 1 i = i := by simp [blockStart]

theorem blockStart_of_div {d i k : ℕ} (h : (i + 1) / d = k) : blockStart d i = d * k - 1 := by
  rw [blockStart, h]

/-- The half of a block tells where the doubled block starts. -/
theorem div_double (d i : ℕ) : (i + 1) / (2 * d) = (i + 1) / d / 2 := by
  rw [Nat.mul_comm, Nat.div_div_eq_div_mul]

theorem blockStart_double {d i k : ℕ} (h : (i + 1) / d = 2 * k ∨ (i + 1) / d = 2 * k + 1) :
    blockStart (2 * d) i = d * (2 * k) - 1 := by
  have hk : (i + 1) / (2 * d) = k := by
    rw [div_double]
    omega
  rw [blockStart_of_div hk, Nat.mul_comm 2 d, Nat.mul_assoc]

/-- An even position below the width is covered from the start. -/
theorem blockStart_of_lt {d i n : ℕ} (hi : i % 2 = 0) (hin : i < n) (hn : n ≤ d)
    (hd : d = 1 ∨ d % 2 = 0) : blockStart d i = 0 := by
  rcases hd with rfl | hd
  · rw [blockStart_one]
    omega
  · have hlt : (i + 1) / d = 0 := Nat.div_eq_of_lt (by omega)
    rw [blockStart_of_div hlt, Nat.mul_zero]

def carry (a b : ℕ → Bool) (i : ℕ) : Bool :=
  generates (fun j => xor (a j) (b j)) (fun j => a j && b j) 0 i

def sumBit (a b : ℕ → Bool) (i : ℕ) : Bool := xor (xor (a i) (b i)) (carry a b i)

variable {a b a' b' : ℕ → Bool} {i w : ℕ}

theorem carry_succ : carry a b (i + 1) = ((a i && b i) || (xor (a i) (b i) && carry a b i)) :=
  generates_succ (Nat.zero_le i)

theorem carry_congr (h : ∀ j < i, a j = a' j ∧ b j = b' j) : carry a b i = carry a' b' i := by
  apply generates_congr
  intro j hj
  obtain ⟨ha, hb⟩ := h j hj
  simp only [ha, hb, and_self]

theorem sumBit_congr (h : ∀ j ≤ i, a j = a' j ∧ b j = b' j) : sumBit a b i = sumBit a' b' i := by
  rw [sumBit, sumBit, (h i (Nat.le_refl i)).1, (h i (Nat.le_refl i)).2,
    carry_congr (fun j hj => h j (Nat.le_of_lt hj))]

theorem carry_comm : carry a b i = carry b a i := by
  apply generates_congr
  intro j _
  simp only [Bool.xor_comm, Bool.and_comm, and_self]

theorem sumBit_comm : sumBit a b i = sumBit b a i := by
  rw [sumBit, sumBit, carry_comm, Bool.xor_comm (a i)]

theorem carry_getLsbD (x y : BitVec w) :
    carry x.getLsbD y.getLsbD i = BitVec.carry i x y false := by
  induction i with
  | zero => simp [carry, generates]
  | succ i ih =>
    rw [carry_succ, ih, BitVec.carry_succ, Bool.atLeastTwo]
    cases x.getLsbD i <;> cases y.getLsbD i <;> simp

theorem sumBit_getLsbD (x y : BitVec w) (hi : i < w) :
    sumBit x.getLsbD y.getLsbD i = (x + y).getLsbD i := by
  rw [BitVec.getLsbD_add hi, sumBit, carry_getLsbD, Bool.xor_assoc]

/-- Behind the last bits of both operands there is no carry but the last one. -/
theorem sumBit_of_zero (ha : ∀ j, w ≤ j → a j = false) (hb : ∀ j, w ≤ j → b j = false) (h : w < i) :
    sumBit a b i = false := by
  obtain ⟨i, rfl⟩ := Nat.exists_eq_succ_of_ne_zero (Nat.ne_of_gt (Nat.zero_lt_of_lt h))
  have hle : w ≤ i := Nat.le_of_lt_succ h
  rw [sumBit, carry_succ, ha i hle, hb i hle, ha _ (Nat.le_of_lt h), hb _ (Nat.le_of_lt h)]
  rfl

/-- The sum of operands that repeat their last bits repeats the bit behind them. -/
theorem sumBit_of_sign {n : ℕ} (ha : ∀ j, n ≤ j → a j = a n) (hb : ∀ j, n ≤ j → b j = b n)
    (h : n < i) : sumBit a b i = sumBit a b (n + 1) := by
  induction i, (Nat.succ_le_of_lt h) using Nat.le_induction with
  | base => rfl
  | succ i hi ih =>
    rw [← ih (Nat.lt_of_succ_le hi)]
    have hle : n ≤ i := Nat.le_of_succ_le hi
    obtain ⟨k, rfl⟩ := Nat.exists_eq_succ_of_ne_zero
      (Nat.ne_of_gt (Nat.lt_of_lt_of_le (Nat.succ_pos n) hi))
    have hk : n ≤ k := Nat.le_of_succ_le_succ hi
    rw [sumBit, sumBit, carry_succ, carry_succ, ha _ (Nat.le_succ_of_le hle),
      hb _ (Nat.le_succ_of_le hle), ha _ hle, hb _ hle, ha _ hk, hb _ hk]
    cases a n <;> cases b n <;> simp

end UtopiaEda.PrefixCarries
