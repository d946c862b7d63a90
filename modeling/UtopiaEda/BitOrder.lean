import Mathlib.Data.Nat.Bitwise

/-!
# The order of words by their bits

A word is greater than another one if it has a one where the other one has a zero and all higher
bits agree. The words are functions from positions to bits; the bit vectors may have different
widths.
-/
namespace UtopiaEda.BitOrder

variable {a b a' b' : ℕ → Bool} {m n k w : ℕ}

/-- The bits from `k` on agree. -/
def agree (a b : ℕ → Bool) (n k : ℕ) : Bool := decide (∀ i < n, k ≤ i → a i = b i)

/-- The first word has a one at `i`, the second one a zero, and the higher bits agree. -/
def exceedsAt (a b : ℕ → Bool) (n i : ℕ) : Bool := a i && !b i && agree a b n (i + 1)

/-- The first `n` bits of the first word are a greater number than those of the second word. -/
def exceeds (a b : ℕ → Bool) (n : ℕ) : Bool := decide (∃ i < n, exceedsAt a b n i = true)

theorem agree_self : agree a b n n = true := by
  apply decide_eq_true
  intro i hi hn
  exact absurd hi (Nat.not_lt.mpr hn)

theorem agree_eq (hk : k < n) : agree a b n k = ((a k == b k) && agree a b n (k + 1)) := by
  rw [Bool.eq_iff_iff, agree, agree, Bool.and_eq_true, decide_eq_true_iff, decide_eq_true_iff,
    beq_iff_eq]
  constructor
  · intro h
    exact ⟨h k hk (Nat.le_refl k), fun i hi hki => h i hi (Nat.le_of_succ_le hki)⟩
  · intro ⟨hak, h⟩ i hi hki
    rcases Nat.eq_or_lt_of_le hki with rfl | hlt
    · exact hak
    · exact h i hi hlt

theorem agree_congr (ha : ∀ i < n, a i = a' i) (hb : ∀ i < n, b i = b' i) :
    agree a b n k = agree a' b' n k := by
  rw [agree, agree, decide_eq_decide]
  apply forall_congr'
  intro i
  apply forall_congr'
  intro hi
  rw [ha i hi, hb i hi]

theorem exceeds_congr (ha : ∀ i < n, a i = a' i) (hb : ∀ i < n, b i = b' i) :
    exceeds a b n = exceeds a' b' n := by
  rw [exceeds, exceeds, decide_eq_decide]
  apply exists_congr
  intro i
  apply and_congr_right
  intro hi
  rw [exceedsAt, exceedsAt, ha i hi, hb i hi, agree_congr ha hb]

theorem agree_succ (hk : k ≤ n) : agree a b (n + 1) k = ((a n == b n) && agree a b n k) := by
  rw [Bool.eq_iff_iff, agree, agree, Bool.and_eq_true, decide_eq_true_iff, decide_eq_true_iff,
    beq_iff_eq]
  constructor
  · intro h
    exact ⟨h n (Nat.lt_succ_self n) hk, fun i hi => h i (Nat.lt_succ_of_lt hi)⟩
  · intro ⟨han, h⟩ i hi hki
    rcases Nat.lt_succ_iff_lt_or_eq.mp hi with hlt | rfl
    · exact h i hlt hki
    · exact han

theorem exceeds_succ : exceeds a b
    (n + 1) = ((a n && !b n) || ((a n == b n) && exceeds a b n)) := by
  rw [Bool.eq_iff_iff, Bool.or_eq_true, Bool.and_eq_true (a n == b n), exceeds, exceeds,
    decide_eq_true_iff, decide_eq_true_iff]
  constructor
  · intro ⟨i, hi, hat⟩
    rcases Nat.lt_succ_iff_lt_or_eq.mp hi with hlt | rfl
    · rw [exceedsAt, agree_succ hlt, Bool.and_eq_true, Bool.and_eq_true (a n == b n)] at hat
      right
      refine ⟨hat.2.1, i, hlt, ?_⟩
      rw [exceedsAt, hat.1, hat.2.2]
      rfl
    · left
      rw [exceedsAt, Bool.and_eq_true] at hat
      exact hat.1
  · intro h
    rcases h with htop | ⟨heq, i, hi, hat⟩
    · refine ⟨n, Nat.lt_succ_self n, ?_⟩
      rw [exceedsAt, htop, agree_self]
      rfl
    · refine ⟨i, Nat.lt_succ_of_lt hi, ?_⟩
      rw [exceedsAt, Bool.and_eq_true] at hat
      rw [exceedsAt, agree_succ hi, hat.1, hat.2, heq]
      rfl

private theorem exceeds_mod (x y n : ℕ) :
    exceeds x.testBit y.testBit n = decide (y % 2 ^ n < x % 2 ^ n) := by
  induction n with
  | zero =>
    rw [Nat.pow_zero, Nat.mod_one, Nat.mod_one, exceeds]
    simp
  | succ n ih =>
    have hx := Nat.mod_lt x (Nat.two_pow_pos n)
    have hy := Nat.mod_lt y (Nat.two_pow_pos n)
    rw [exceeds_succ, ih, Nat.mod_pow_succ, Nat.mod_pow_succ, ← Nat.toNat_testBit x,
      ← Nat.toNat_testBit y, Bool.eq_iff_iff]
    cases x.testBit n with
    | false =>
      cases y.testBit n
      · simp
      · simp
        omega
    | true =>
      cases y.testBit n
      · simp
        omega
      · simp

theorem exceeds_toNat (x : BitVec m) (y : BitVec k) (hm : m ≤ n) (hk : k ≤ n) :
    exceeds x.getLsbD y.getLsbD n = decide (y.toNat < x.toNat) := by
  have hx : x.toNat < 2 ^ n := Nat.lt_of_lt_of_le x.isLt (Nat.pow_le_pow_right Nat.two_pos hm)
  have hy : y.toNat < 2 ^ n := Nat.lt_of_lt_of_le y.isLt (Nat.pow_le_pow_right Nat.two_pos hk)
  have h := exceeds_mod x.toNat y.toNat n
  rw [Nat.mod_eq_of_lt hx, Nat.mod_eq_of_lt hy] at h
  exact h

theorem agree_toNat (x : BitVec m) (y : BitVec k) (hm : m ≤ n) (hk : k ≤ n) :
    agree x.getLsbD y.getLsbD n 0 = decide (x.toNat = y.toNat) := by
  rw [agree, decide_eq_decide]
  constructor
  · intro h
    apply Nat.eq_of_testBit_eq
    intro i
    by_cases hi : i < n
    · exact h i hi (Nat.zero_le i)
    · rw [BitVec.testBit_toNat, BitVec.testBit_toNat, BitVec.getLsbD_of_ge x i (by omega),
        BitVec.getLsbD_of_ge y i (by omega)]
  · intro h i _ _
    rw [← BitVec.testBit_toNat, ← BitVec.testBit_toNat, h]

/-- A signed word is greater if it alone is not negative, or if the signs agree and its other bits
are greater. -/
theorem exceeds_toInt (x y : BitVec (n + 1)) :
    ((!x.getLsbD n && y.getLsbD n) ||
      ((x.getLsbD n == y.getLsbD n) && exceeds x.getLsbD y.getLsbD n)) =
      decide (y.toInt < x.toInt) := by
  have hslt : decide (y.toInt < x.toInt) = y.slt x := rfl
  have hult : y.ult x = exceeds x.getLsbD y.getLsbD (n + 1) :=
    (exceeds_toNat x y (Nat.le_refl _) (Nat.le_refl _)).symm
  rw [hslt, BitVec.slt_eq_ult, hult, exceeds_succ, BitVec.msb_eq_getLsbD_last,
    BitVec.msb_eq_getLsbD_last, Nat.add_sub_cancel]
  cases x.getLsbD n with
  | false => cases y.getLsbD n <;> simp
  | true => cases y.getLsbD n <;> simp

theorem agree_toInt (x y : BitVec n) :
    agree x.getLsbD y.getLsbD n 0 = decide (x.toInt = y.toInt) := by
  rw [agree_toNat x y (Nat.le_refl n) (Nat.le_refl n), decide_eq_decide, BitVec.toInt_inj,
    BitVec.toNat_inj]

end UtopiaEda.BitOrder
