import Mathlib.Data.BitVec
import Mathlib.Data.List.Basic

/-!
# The set bits of a word

A word `m` loses its lowest set bit in `m &&& (m - 1)`. A loop that repeats this goes through the
set bits from the lowest one on.
-/
namespace UtopiaEda.SetBits
open List
open BitVec (eq_of_getLsbD_eq getLsbD_zero twoPow)

private theorem exists_lt_succ {p : ℕ → Prop} {i : ℕ} :
    (∃ j < i + 1, p j) ↔ p 0 ∨ ∃ j < i, p (j + 1) := by
  constructor
  · rintro ⟨j, hj, hp⟩
    cases j with
    | zero => exact .inl hp
    | succ j => exact .inr ⟨j, Nat.lt_of_succ_lt_succ hj, hp⟩
  · rintro (hp | ⟨j, hj, hp⟩)
    · exact ⟨0, Nat.succ_pos i, hp⟩
    · exact ⟨j + 1, Nat.succ_lt_succ hj, hp⟩

theorem testBit_and_pred (n i : ℕ) :
    (n &&& (n - 1)).testBit i = true ↔ n.testBit i = true ∧ ∃ j < i, n.testBit j = true := by
  induction n using Nat.strong_induction_on generalizing i with
  | _ n ih =>
    rw [Nat.testBit_and, Bool.and_eq_true]
    cases i with
    | zero =>
      rcases Nat.eq_zero_or_pos n with rfl | hn
      · simp
      · simp only [Nat.testBit_zero, decide_eq_true_iff, Nat.not_lt_zero, false_and, exists_false,
          and_false, iff_false]
        omega
    | succ i =>
      rw [exists_lt_succ]
      simp only [Nat.testBit_succ, Nat.testBit_zero, decide_eq_true_iff]
      rcases Nat.even_or_odd' n with ⟨m, rfl | rfl⟩
      · rcases Nat.eq_zero_or_pos m with rfl | hm
        · simp
        · have hih := ih m (by omega) i
          rw [Nat.testBit_and, Bool.and_eq_true] at hih
          rw [show 2 * m / 2 = m by omega, show (2 * m - 1) / 2 = m - 1 by omega, hih]
          simp
      · rw [show (2 * m + 1) / 2 = m by omega, show (2 * m + 1 - 1) / 2 = m by omega, and_self]
        exact ⟨fun h => ⟨h, .inl (by omega)⟩, fun h => h.1⟩

variable {w : ℕ} {m : BitVec w} {i k : ℕ}

def clearLowest (m : BitVec w) : BitVec w := m &&& (m - 1#w)

def lowest (m : BitVec w) : BitVec w := m - clearLowest m

def bitWords : ℕ → BitVec w → List (BitVec w)
  | 0, _ => []
  | n + 1, m => if m = 0#w then [] else lowest m :: bitWords n (clearLowest m)

def setBits (m : BitVec w) : List (BitVec w) := bitWords w m

theorem clearLowest_getLsbD :
    (clearLowest m).getLsbD i = true ↔ m.getLsbD i = true ∧ ∃ j < i, m.getLsbD j = true := by
  by_cases hm : m = 0#w
  · subst hm
    simp [clearLowest]
  · have hpos : 0 < m.toNat := by
      apply Nat.pos_of_ne_zero
      exact fun h => hm (BitVec.eq_of_toNat_eq h)
    have hw : w ≠ 0 := by
      rintro rfl
      exact hm (BitVec.eq_nil m)
    have hpred : (m - 1#w).toNat = m.toNat - 1 := by
      have hone : (1#w).toNat = 1 := BitVec.toNat_one (Nat.pos_of_ne_zero hw)
      rw [BitVec.toNat_sub_of_le (by rw [BitVec.le_def, hone]; exact hpos), hone]
    simp only [BitVec.getLsbD, clearLowest, BitVec.toNat_and, hpred]
    exact testBit_and_pred m.toNat i

theorem exists_lowest (hm : m ≠ 0#w) :
    ∃ low < w, m.getLsbD low = true ∧ ∀ j < low, m.getLsbD j = false := by
  have hex : ∃ i, m.getLsbD i = true := by
    apply not_not.mp
    intro hnone
    apply hm
    apply eq_of_getLsbD_eq
    intro i _
    rw [getLsbD_zero, ← Bool.not_eq_true]
    exact fun h => hnone ⟨i, h⟩
  refine ⟨Nat.find hex, ?_, Nat.find_spec hex, fun j hj => ?_⟩
  · apply Nat.lt_of_not_le
    intro hle
    have hset := Nat.find_spec hex
    rw [BitVec.getLsbD_of_ge m _ hle] at hset
    cases hset
  · rw [← Bool.not_eq_true]
    exact Nat.find_min hex hj

theorem lowest_eq {low : ℕ} (hlow : m.getLsbD low = true) (hmin : ∀ j < low, m.getLsbD j = false) :
    lowest m = twoPow w low := by
  have hlt : low < w := by
    apply Nat.lt_of_not_le
    intro hle
    rw [BitVec.getLsbD_of_ge m low hle] at hlow
    cases hlow
  have hclear : ∀ i < w, (clearLowest m).getLsbD i = (m.getLsbD i && decide (i ≠ low)) := by
    intro i _
    rw [Bool.eq_iff_iff, clearLowest_getLsbD, Bool.and_eq_true, decide_eq_true_iff,
      and_congr_right_iff]
    intro hi
    constructor
    · rintro ⟨j, hj, hset⟩ rfl
      rw [hmin j hj] at hset
      cases hset
    · intro hne
      refine ⟨low, Nat.lt_of_le_of_ne (Nat.le_of_not_lt (fun h => ?_)) (Ne.symm hne), hlow⟩
      rw [hmin i h] at hi
      cases hi
  have hzero : clearLowest m &&& twoPow w low = 0#w := by
    apply eq_of_getLsbD_eq
    intro i hi
    rw [BitVec.getLsbD_and, hclear i hi, BitVec.getLsbD_twoPow, getLsbD_zero]
    by_cases h : low = i <;> simp [h, eq_comm]
  have hsum : clearLowest m + twoPow w low = m := by
    rw [BitVec.add_eq_or_of_and_eq_zero _ _ hzero]
    apply eq_of_getLsbD_eq
    intro i hi
    rw [BitVec.getLsbD_or, hclear i hi, BitVec.getLsbD_twoPow]
    by_cases h : low = i
    · subst h
      simp [hlow, hlt]
    · simp [h, Ne.symm h]
  rw [lowest]
  exact sub_eq_of_eq_add' hsum.symm

private theorem bitWords_eq {n : ℕ} (hbelow : ∀ j < k, m.getLsbD j = false) (hn : w ≤ n + k) :
    bitWords n m = ((range' k (w - k)).filter (fun i => m.getLsbD i)).map
    (twoPow w) := by
  induction n generalizing m k with
  | zero =>
    rw [Nat.sub_eq_zero_of_le (by omega), range'_zero]
    rfl
  | succ n ih =>
    rw [bitWords]
    by_cases hm : m = 0#w
    · rw [if_pos hm, hm]
      simp
    · rw [if_neg hm]
      obtain ⟨low, hlt, hlow, hmin⟩ := exists_lowest hm
      have hk : k ≤ low := by
        apply Nat.le_of_not_lt
        intro h
        rw [hbelow low h] at hlow
        cases hlow
      obtain ⟨a, rfl⟩ := Nat.exists_eq_add_of_le hk
      have hsplit : range' k (w - k) = range' k a ++ (k + a) :: range' (k + a + 1)
          (w - (k + a + 1)) := by
        rw [← range'_succ, range'_append_1]
        congr 1
        omega
      have hnone : (range' k a).filter (fun i => m.getLsbD i) = [] := by
        rw [filter_eq_nil_iff]
        intro i hi
        rw [hmin i (mem_range'_1.mp hi).2]
        exact Bool.false_ne_true
      have hrest : (range' (k + a + 1) (w - (k + a + 1))).filter
          (fun i => (clearLowest m).getLsbD i) =
          (range' (k + a + 1) (w - (k + a + 1))).filter (fun i => m.getLsbD i) := by
        apply filter_congr
        intro i hi
        rw [Bool.eq_iff_iff, clearLowest_getLsbD, and_iff_left_iff_imp]
        exact fun _ => ⟨k + a, (mem_range'_1.mp hi).1, hlow⟩
      have hclear : ∀ j < k + a + 1, (clearLowest m).getLsbD j = false := by
        intro j hj
        rw [← Bool.not_eq_true, clearLowest_getLsbD]
        rintro ⟨-, i, hi, hset⟩
        rw [hmin i (by omega)] at hset
        cases hset
      rw [ih hclear (by omega), lowest_eq hlow hmin, hsplit, filter_append, hnone, nil_append,
        filter_cons_of_pos hlow, map_cons, hrest]

/-- The loop yields the powers of the set bits in increasing order. -/
theorem setBits_eq (m : BitVec w) : setBits m = ((range w).filter (fun i => m.getLsbD i)).map
    (twoPow w) := by
  rw [setBits, bitWords_eq (k := 0) (fun j hj => absurd hj (Nat.not_lt_zero j))
    (Nat.le_add_right w 0), Nat.sub_zero, range_eq_range']

end UtopiaEda.SetBits
