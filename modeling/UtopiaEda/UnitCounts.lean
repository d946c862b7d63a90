import Mathlib.Data.BitVec
import Mathlib.Data.List.Basic
import Mathlib.Tactic.Ring

/-!
# Counting units

`count_units` adds neighbouring fields of a word in parallel and sums the bytes by one
multiplication. No field overflows, so every byte can be followed on its own.
-/
namespace UtopiaEda.UnitCounts
open List
open BitVec (toNat_and toNat_ushiftRight)

def countUnits (x : BitVec 64) : ℕ :=
  let x := x - ((x >>> 1) &&& 0x5555555555555555#64)
  let x := (x &&& 0x3333333333333333#64) + ((x >>> 2) &&& 0x3333333333333333#64)
  let x := (x + (x >>> 4)) &&& 0xF0F0F0F0F0F0F0F#64
  let x := x * 0x101010101010101#64
  (x >>> 56).toNat % 2 ^ 8

/-- The byte `m` repeated `n` times. -/
def fill (m : ℕ) : ℕ → ℕ
  | 0 => 0
  | n + 1 => m + 256 * fill m n

def unitsOf (x : ℕ) : ℕ := (range 8).countP x.testBit

def pairs (n x : ℕ) : ℕ := x - ((x >>> 1) &&& fill 0x55 n)

def quads (n x : ℕ) : ℕ := (x &&& fill 0x33 n) + ((x >>> 2) &&& fill 0x33 n)

def octets (n x : ℕ) : ℕ := (x + x >>> 4) &&& fill 0xF n

variable {k m n x : ℕ}

private theorem testBit_byte {i : ℕ} (hm : m * 2 ^ k < 256) (hi : 8 ≤ k + i) :
    m.testBit i = false := by
  apply Nat.testBit_lt_two_pow
  have hle : 2 ^ 8 ≤ 2 ^ (k + i) := Nat.pow_le_pow_right (by decide) hi
  rw [Nat.pow_add, Nat.mul_comm] at hle
  exact Nat.lt_of_mul_lt_mul_right (Nat.lt_of_lt_of_le hm hle)

/-- A mask that drops the bits from the next byte acts on each byte. -/
theorem shiftRight_and_fill (hm : m * 2 ^ k < 256) :
    (x >>> k) &&& fill m (n + 1) =
    (((x % 256) >>> k) &&& m) + 256 * (((x / 256) >>> k) &&& fill m n) := by
  have hlt : m < 256 := Nat.lt_of_le_of_lt (Nat.le_mul_of_pos_right m (Nat.two_pow_pos k)) hm
  have hlow : fill m (n + 1) % 2 ^ 8 = m := by
    rw [fill]
    omega
  have hhigh : fill m (n + 1) / 2 ^ 8 = fill m n := by
    rw [fill]
    omega
  have hbits : ∀ i, (decide (i < 8) && (fill m (n + 1)).testBit i) = m.testBit i := by
    intro i
    rw [← Nat.testBit_mod_two_pow, hlow]
  have hmod : ((x >>> k) &&& fill m (n + 1)) % 2 ^ 8 = ((x % 2 ^ 8) >>> k) &&& m := by
    apply Nat.eq_of_testBit_eq
    intro i
    simp only [Nat.testBit_mod_two_pow, Nat.testBit_and, Nat.testBit_shiftRight]
    rw [Bool.and_left_comm, hbits]
    by_cases hi : k + i < 8
    · rw [decide_eq_true hi, Bool.true_and]
    · rw [testBit_byte hm (Nat.not_lt.mp hi), Bool.and_false, Bool.and_false]
  have hdiv : ((x >>> k) &&& fill m (n + 1)) / 2 ^ 8 = ((x / 2 ^ 8) >>> k) &&& fill m n := by
    apply Nat.eq_of_testBit_eq
    intro i
    have hbit : (fill m n).testBit i = (fill m (n + 1)).testBit (8 + i) := by
      rw [← hhigh, Nat.testBit_div_two_pow, Nat.add_comm i 8]
    simp only [Nat.testBit_div_two_pow, Nat.testBit_and, Nat.testBit_shiftRight, hbit,
      Nat.add_comm i 8, Nat.add_comm (k + i) 8, Nat.add_left_comm k 8 i]
  have hsplit := Nat.mod_add_div ((x >>> k) &&& fill m (n + 1)) (2 ^ 8)
  rw [hmod, hdiv] at hsplit
  exact hsplit.symm

theorem and_fill (hm : m < 256) :
    x &&& fill m (n + 1) = (x % 256 &&& m) + 256 * (x / 256 &&& fill m n) :=
  shiftRight_and_fill (k := 0) (by rwa [Nat.pow_zero, Nat.mul_one])

/-- The first two steps on a byte: the units of its halves. -/
def halves (b : ℕ) : ℕ :=
  let c := b - (b >>> 1 &&& 0x55)
  (c &&& 0x33) + (c >>> 2 &&& 0x33)

private theorem byte_halves : ∀ b < 256, (b >>> 1 &&& 0x55) ≤ b ∧ halves b / 16 ≤ 4 ∧
    halves b % 16 ≤ 4 ∧ halves b % 16 + halves b / 16 = unitsOf b := by
  decide +kernel

theorem quads_succ : quads (n + 1) (pairs (n + 1) x) = halves (x % 256) + 256 * quads n
    (pairs n (x / 256)) := by
  have hle := (byte_halves (x % 256) (Nat.mod_lt x (by decide))).1
  have hle' : ((x / 256) >>> 1 &&& fill 0x55 n) ≤ x / 256 :=
    Nat.le_trans Nat.and_le_left (Nat.shiftRight_le _ _)
  have hpairs : pairs (n + 1) x =
      (x % 256 - ((x % 256) >>> 1 &&& 0x55)) + 256 * pairs n (x / 256) := by
    rw [pairs, shiftRight_and_fill (by decide), pairs]
    omega
  have hlt : x % 256 - ((x % 256) >>> 1 &&& 0x55) < 256 := by omega
  have hmod : pairs (n + 1) x % 256 = x % 256 - ((x % 256) >>> 1 &&& 0x55) := by omega
  have hdiv : pairs (n + 1) x / 256 = pairs n (x / 256) := by omega
  rw [quads, and_fill (by decide), shiftRight_and_fill (by decide), hmod, hdiv, quads, halves]
  omega

theorem quads_mod (n x : ℕ) : quads n (pairs n x) % 16 ≤ 4 := by
  cases n with
  | zero => simp [quads, fill]
  | succ n =>
    have hlow := (byte_halves (x % 256) (Nat.mod_lt x (by decide))).2.2.1
    rw [quads_succ]
    omega

/-- The first three steps yield the units of each byte. -/
theorem octets_succ : octets (n + 1) (quads (n + 1) (pairs (n + 1) x)) =
    unitsOf (x % 256) + 256 * octets n (quads n (pairs n (x / 256))) := by
  obtain ⟨-, hhigh, hlow, hunits⟩ := byte_halves (x % 256) (Nat.mod_lt x (by decide))
  have hnext := quads_mod n (x / 256)
  rw [quads_succ]
  generalize halves (x % 256) = d at *
  generalize quads n (pairs n (x / 256)) = q at *
  have hsum : d + 256 * q + (d + 256 * q) >>> 4 =
      (d + d / 16 + 16 * (q % 16)) + 256 * (q + q / 16) := by
    rw [Nat.shiftRight_eq_div_pow]
    omega
  have hmod : (d + 256 * q + (d + 256 * q) >>> 4) % 256 = d + d / 16 + 16 * (q % 16) := by
    rw [hsum]
    omega
  have hdiv : (d + 256 * q + (d + 256 * q) >>> 4) / 256 = q + q >>> 4 := by
    rw [hsum, Nat.shiftRight_eq_div_pow]
    omega
  have hmask : (d + d / 16 + 16 * (q % 16)) &&& 0xF = d % 16 + d / 16 := by
    rw [show 0xF = 2 ^ 4 - 1 from rfl, Nat.and_two_pow_sub_one_eq_mod]
    omega
  rw [octets, and_fill (by decide), hmod, hdiv, hmask, hunits, octets]

theorem unitsOf_le : unitsOf x ≤ 8 := countP_le_length

def bytes : ℕ → ℕ → List ℕ
  | 0, _ => []
  | n + 1, x => unitsOf (x % 256) :: bytes n (x / 256)

theorem countP_eq (n x : ℕ) : (range (8 * n)).countP x.testBit = (bytes n x).sum := by
  induction n generalizing x with
  | zero => rfl
  | succ n ih =>
    have hlow : (range 8).countP x.testBit = unitsOf (x % 256) := by
      apply countP_congr
      intro i hi
      rw [show (256 : ℕ) = 2 ^ 8 from rfl, Nat.testBit_mod_two_pow,
        decide_eq_true (mem_range.mp hi), Bool.true_and]
    have hhigh : ((range (8 * n)).map (8 + ·)).countP x.testBit =
        (range (8 * n)).countP (x / 256).testBit := by
      rw [countP_map]
      apply countP_congr
      intro i _
      rw [Function.comp_apply, show (256 : ℕ) = 2 ^ 8 from rfl, Nat.testBit_div_two_pow,
        Nat.add_comm]
    rw [Nat.mul_succ, Nat.add_comm, range_add, countP_append, hlow, hhigh, ih, bytes, sum_cons]

private theorem sum_of_product {a b c d e f g h : ℕ} (ha : a ≤ 8) (hb : b ≤ 8) (hc : c ≤ 8)
    (hd : d ≤ 8) (he : e ≤ 8) (hf : f ≤ 8) (hg : g ≤ 8) (hh : h ≤ 8) :
    (a + 256 * (b + 256 * (c + 256 * (d + 256 * (e + 256 * (f + 256 * (g + 256 * h))))))) *
    0x101010101010101 %
      2 ^ 64 / 2 ^ 56 % 2 ^ 8 = a + (b + (c + (d + (e + (f + (g + h)))))) := by
  -- the bytes of the product below the sum and above it
  let low := a + 256 * (a + b) + 256 ^ 2 * (a + b + c) + 256 ^ 3 * (a + b + c + d) + 256 ^ 4 *
    (a + b + c + d + e) + 256 ^ 5 * (a + b + c + d + e + f) + 256 ^ 6 * (a + b + c + d + e + f + g)
  let high := (b + c + d + e + f + g + h) + 256 * (c + d + e + f + g + h) + 256 ^ 2 *
    (d + e + f + g + h) + 256 ^ 3 * (e + f + g + h) + 256 ^ 4 * (f + g + h) + 256 ^ 5 * (g + h) +
    256 ^ 6 * h
  have hproduct : (a + 256 * (b + 256 * (c + 256 * (d + 256 * (e + 256 * (f + 256 * (g + 256 * h))))))) *
      0x101010101010101 = low + 2 ^ 56 * (a + (b + (c + (d + (e + (f + (g + h)))))) + 2 ^ 8 * high)
      := by
    simp only [low, high]
    ring
  have hlow : low < 2 ^ 56 := by
    simp only [low]
    omega
  rw [hproduct, show 2 ^ 64 = 2 ^ 56 * 2 ^ 8 from rfl, Nat.mod_mul_right_div_self,
    Nat.add_mul_div_left _ _ (by decide), Nat.div_eq_of_lt hlow]
  omega

private theorem toNat_pairs (x : BitVec 64) :
    (x - ((x >>> 1) &&& 0x5555555555555555#64)).toNat = pairs 8 x.toNat := by
  have hle : (x >>> 1) &&& 0x5555555555555555#64 ≤ x := by
    rw [BitVec.le_def, toNat_and, toNat_ushiftRight]
    exact Nat.le_trans Nat.and_le_left (Nat.shiftRight_le _ _)
  rw [BitVec.toNat_sub_of_le hle, toNat_and, toNat_ushiftRight]
  rfl

private theorem toNat_quads (x : BitVec 64) :
    ((x &&& 0x3333333333333333#64) + ((x >>> 2) &&& 0x3333333333333333#64)).toNat =
    quads 8 x.toNat := by
  have hle : ∀ n : ℕ, n &&& 0x3333333333333333 ≤ 0x3333333333333333 := fun n => Nat.and_le_right
  have hlow := hle x.toNat
  have hhigh := hle (x.toNat >>> 2)
  rw [BitVec.toNat_add_of_lt, toNat_and, toNat_and, toNat_ushiftRight]
  · rfl
  · rw [toNat_and, toNat_and, toNat_ushiftRight]
    exact Nat.lt_of_le_of_lt (Nat.add_le_add hlow hhigh) (by decide)

private theorem toNat_octets {x : BitVec 64} (hx : x.toNat < 2 ^ 63) :
    ((x + (x >>> 4)) &&& 0xF0F0F0F0F0F0F0F#64).toNat = octets 8 x.toNat := by
  rw [toNat_and, BitVec.toNat_add_of_lt, toNat_ushiftRight]
  · rfl
  · rw [toNat_ushiftRight, Nat.shiftRight_eq_div_pow]
    omega

private theorem quads_lt (x : ℕ) : quads 8 x < 2 ^ 63 := by
  have hle : ∀ n : ℕ, n &&& 0x3333333333333333 ≤ 0x3333333333333333 := fun n => Nat.and_le_right
  exact Nat.lt_of_le_of_lt (Nat.add_le_add (hle x) (hle (x >>> 2))) (by decide)

theorem countUnits_eq (x : BitVec 64) : countUnits x = (range 64).countP x.getLsbD := by
  have hcount : (range 64).countP x.getLsbD = (bytes 8 x.toNat).sum := countP_eq 8 x.toNat
  rw [hcount, countUnits, toNat_ushiftRight, BitVec.toNat_mul, toNat_octets, toNat_quads,
    toNat_pairs, Nat.shiftRight_eq_div_pow]
  · have hzero : ∀ y, octets 0 y = 0 := fun y => Nat.and_zero _
    simp only [octets_succ, hzero, bytes, sum_cons, sum_nil, Nat.mul_zero, Nat.add_zero]
    exact sum_of_product unitsOf_le unitsOf_le unitsOf_le unitsOf_le unitsOf_le unitsOf_le
      unitsOf_le unitsOf_le
  · rw [toNat_quads]
    exact quads_lt _

end UtopiaEda.UnitCounts
