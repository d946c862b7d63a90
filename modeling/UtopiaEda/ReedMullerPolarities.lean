import UtopiaEda.ReedMuller
import UtopiaEda.ZhegalkinNetworks

/-!
# The walk through the polarities

The polynomials of the walk are vectors of bits. Every step of it keeps the sum of products, with
the factors of a point at the places to come and literals at the others.
-/
namespace UtopiaEda.Synthesizer.ReedMuller
open ProductSums List

variable {n k i j m : ℕ} {P Q : ℕ → Bool} {l : Polynomial} {pos : ℕ}

def coded (n : ℕ) (P : ℕ → Bool) : Polynomial := (range (2 ^ n)).map (fun i => (P i).toNat)

@[simp] theorem coded_length : (coded n P).length = 2 ^ n := by
  rw [coded, length_map, length_range]

theorem coded_getElem (hi : i < (coded n P).length) : (coded n P)[i] = (P i).toNat := by
  simp only [coded, getElem_map, getElem_range]

theorem coded_getD (hi : i < 2 ^ n) : (coded n P).getD i 0 = (P i).toNat := by
  rw [getD_eq_getElem _ _ (by rw [coded_length]; exact hi), coded_getElem]

theorem coded_congr (h : ∀ i < 2 ^ n, P i = Q i) : coded n P = coded n Q :=
  map_congr_left (fun i hi => by rw [h i (mem_range.mp hi)])

/-! ### The cyclic shift -/

theorem shift_eq (right : Bool) (hpos : (if right then pos else l.length - pos) % l.length = m) :
    shift l pos right = l.drop (l.length - m) ++ l.take (l.length - m) := by
  rw [shift]
  simp only [hpos]
  rw [reverse_append, reverse_reverse, reverse_reverse]

theorem coded_rotate (hm : m ≤ 2 ^ n) :
    (coded n P).drop (2 ^ n - m) ++ (coded n P).take (2 ^ n - m) =
    coded n (fun j => P (if j < m then 2 ^ n - m + j else j - m)) := by
  apply ext_getElem
  · rw [length_append, length_drop, length_take, coded_length, coded_length]
    omega
  · intro j hj hj'
    rw [coded_length] at hj'
    rw [coded_getElem]
    by_cases hlt : j < m
    · rw [getElem_append_left (by rw [length_drop, coded_length]; omega), getElem_drop,
        coded_getElem, if_pos hlt]
    · rw [getElem_append_right (by rw [length_drop, coded_length]; omega), getElem_take,
        coded_getElem, if_neg hlt]
      rw [length_drop, coded_length]
      refine congrArg (fun i => (P i).toNat) ?_
      omega

/-! ### The operations on a place -/

theorem testBit_add_two_pow : (i + 2 ^ k).testBit k = !i.testBit k := by
  rw [Nat.add_comm, Nat.testBit_two_pow_add_eq]

theorem testBit_sub_two_pow (h : 2 ^ k ≤ i) : (i - 2 ^ k).testBit k = !i.testBit k := by
  obtain ⟨j, rfl⟩ := Nat.exists_eq_add_of_le' h
  rw [Nat.add_sub_cancel, testBit_add_two_pow, Bool.not_not]

theorem testBit_last (hk : k < n) (hj : j < 2 ^ k) : (2 ^ n - 2 ^ k + j).testBit k = true := by
  have hsplit : 2 ^ n = 2 ^ k * 2 ^ (n - k) := by rw [← Nat.pow_add, Nat.add_sub_cancel' hk.le]
  have hsub : 2 ^ n - 2 ^ k = 2 ^ k * (2 ^ (n - k) - 1) := by rw [Nat.mul_sub_one, ← hsplit]
  have hpos : 0 < n - k := Nat.sub_pos_of_lt hk
  rw [hsub, Nat.testBit_two_pow_mul_add _ hj, if_neg (Nat.lt_irrefl k), Nat.sub_self,
    Nat.testBit_two_pow_sub_one]
  exact decide_eq_true hpos

theorem and_two_pow_eq_zero : i &&& 2 ^ k = 0 ↔ i.testBit k = false := by
  rw [Nat.and_two_pow]
  cases i.testBit k with
  | false => simp
  | true => simp

theorem toNat_xor (a b : Bool) : a.toNat ^^^ b.toNat = (xor a b).toNat := by
  cases a <;> cases b <;> rfl

theorem zipWith_coded : (coded n P).zipWith (· ^^^ ·) (coded n Q) = coded n
    (fun i => xor (P i) (Q i)) := by
  apply ext_getElem
  · simp
  · intro i hi hi'
    rw [getElem_zipWith, coded_getElem, coded_getElem, coded_getElem, toNat_xor]

theorem mapIdx_coded (right : Bool) : (coded n P).mapIdx (fun i v =>
    if i &&& 2 ^ k = 0 ∧ right = false ∨ i &&& 2 ^ k ≠ 0 ∧ right = true then 0 else v) =
      coded n (fun i => P i && xor (i.testBit k) right) := by
  apply ext_getElem
  · simp
  · intro i hi hi'
    rw [getElem_mapIdx, coded_getElem, coded_getElem]
    simp only [ne_eq, and_two_pow_eq_zero]
    cases i.testBit k <;> cases right <;> simp

theorem intShl_eq (hk : k < 31) : intShl k = some (2 ^ k) := if_pos hk

theorem polarityOperation_eq (right : Bool) (h31 : k < 31)
    (hm : (if right then 2 ^ k else 2 ^ n - 2 ^ k) % 2 ^ n = m) :
    polarityOperation (coded n P) k right = some (coded n (fun i => xor (P i)
      (P (if i < m then 2 ^ n - m + i else i - m) && xor ((if i < m then 2 ^ n - m + i else i - m).testBit k) right))) := by
  have hle : m ≤ 2 ^ n := by
    rw [← hm]
    exact (Nat.mod_lt _ (Nat.two_pow_pos n)).le
  rw [polarityOperation, intShl_eq h31, Option.bind_eq_bind, Option.bind_some, mapIdx_coded]
  change some ((coded n P).zipWith (· ^^^ ·) (shift _ (2 ^ k) right)) = _
  rw [shift_eq (m := m) right (by rw [coded_length, hm]), coded_length, coded_rotate hle,
    zipWith_coded]

theorem polarize_eq (hk : k < n) (h31 : k < 31) : polarize (coded n P) k =
    some (coded n (fun i => xor (P i) (i.testBit k && P (i - 2 ^ k)))) := by
  have hlt : 2 ^ k < 2 ^ n := Nat.pow_lt_pow_right (by decide) hk
  rw [polarize, polarityOperation_eq true h31 (by rw [if_pos rfl, Nat.mod_eq_of_lt hlt])]
  refine congrArg some (coded_congr (fun i hi => congrArg (xor (P i)) ?_))
  by_cases hlow : i < 2 ^ k
  · rw [if_pos hlow, testBit_last hk hlow, Nat.testBit_lt_two_pow hlow]
    simp
  · rw [if_neg hlow, testBit_sub_two_pow (Nat.not_lt.mp hlow)]
    cases i.testBit k <;> simp

theorem changePolarity_eq (hk : k < n) (h31 : k < 31) : changePolarity (coded n P) k =
    some (coded n (fun i => xor (P i) (!i.testBit k && P (i + 2 ^ k)))) := by
  have hlt : 2 ^ k < 2 ^ n := Nat.pow_lt_pow_right (by decide) hk
  have hpos : 0 < 2 ^ k := Nat.two_pow_pos k
  rw [changePolarity, polarityOperation_eq false h31 (by
    rw [if_neg Bool.false_ne_true, Nat.mod_eq_of_lt (Nat.sub_lt (by omega) hpos)])]
  refine congrArg some (coded_congr (fun i hi => congrArg (xor (P i)) ?_))
  by_cases hlow : i < 2 ^ n - 2 ^ k
  · have hback : 2 ^ n - (2 ^ n - 2 ^ k) + i = i + 2 ^ k := by omega
    rw [if_pos hlow, hback, testBit_add_two_pow, Bool.xor_false, Bool.and_comm]
  · obtain ⟨j, rfl⟩ := Nat.exists_eq_add_of_le (Nat.not_lt.mp hlow)
    have hj : j < 2 ^ k := by omega
    rw [if_neg hlow, Nat.add_sub_cancel_left, Nat.testBit_lt_two_pow hj, testBit_last hk hj]
    simp

theorem changePolarity_last (h31 : n < 31) : changePolarity (coded n P) n = some (coded n P) := by
  have hpos : 0 < 2 ^ n := Nat.two_pow_pos n
  rw [changePolarity, polarityOperation_eq false h31 (by rw [if_neg Bool.false_ne_true,
    Nat.sub_self, Nat.zero_mod])]
  refine congrArg some (coded_congr (fun i hi => ?_))
  rw [if_neg (Nat.not_lt_zero i), Nat.sub_zero, Nat.testBit_lt_two_pow hi]
  simp

/-! ### Sums of products -/

structure Expands (f : TruthTable n) (P pol : ℕ → Bool) : Prop where
  sum : ∀ x, ProductSums.polynomial n P (fun k => xor (x k) (pol k)) = f.value x
  zero : f = 0#(2 ^ n) → ∀ i < 2 ^ n, P i = false

variable {f : TruthTable n} {pol pol' : ℕ → Bool}

theorem Expands.congr (h : Expands f P pol) (hpol : ∀ k < n, pol' k = pol k) : Expands f P pol' :=
  ⟨fun x => by rw [← h.sum x]; exact polynomial_congr (fun k hk => by rw [hpol k hk]), h.zero⟩

/-- Literals at the places below `m`, a point at the others. -/
def mixed (x : ℕ → Bool) (m k : ℕ) (b : Bool) : Bool := if k < m then !b || x k else b == x k

theorem productSum_polarize (x : ℕ → Bool) (hk : k < n) :
    productSum n (fun i => xor (P i) (i.testBit k && P (i - 2 ^ k))) (mixed x (k + 1)) =
    productSum n P (mixed x k) := by
  apply productSum_step hk
  · intro j hj
    have hiff : j < k + 1 ↔ j < k := by omega
    funext b
    rw [mixed, mixed, if_congr hiff rfl rfl]
  · intro i hi hbit
    rw [Nat.add_sub_cancel, testBit_add_two_pow, hbit, mixed, mixed, mixed, mixed,
      if_pos (Nat.lt_succ_self k), if_pos (Nat.lt_succ_self k), if_neg (Nat.lt_irrefl k),
      if_neg (Nat.lt_irrefl k)]
    generalize P i = u
    generalize P (i + 2 ^ k) = v
    generalize P (i - 2 ^ k) = w
    generalize x k = y
    revert u v w y
    decide

theorem polarize_run (h31 : n < 31) (hm : m ≤ n) :
    ∃ Q, (range m).foldlM polarize (coded n P) = some (coded n Q) ∧
    (∀ x, productSum n Q (mixed x m) = P (point x n)) ∧
    ((∀ i < 2 ^ n, P i = false) → ∀ i < 2 ^ n, Q i = false) := by
  induction m with
  | zero => exact ⟨P, rfl, fun x => productSum_point, fun h => h⟩
  | succ m ih =>
    obtain ⟨Q, hrun, hsum, hzero⟩ := ih (Nat.le_of_succ_le hm)
    refine ⟨fun i => xor (Q i) (i.testBit m && Q (i - 2 ^ m)), ?_, fun x => ?_, fun h i hi => ?_⟩
    · rw [range_succ, foldlM_append, hrun, Option.bind_eq_bind, Option.bind_some, foldlM_cons,
        polarize_eq hm (by omega)]
      rfl
    · rw [productSum_polarize x hm, hsum x]
    · change xor (Q i) (i.testBit m && Q (i - 2 ^ m)) = false
      rw [hzero h i hi, hzero h (i - 2 ^ m) (Nat.lt_of_le_of_lt (Nat.sub_le _ _) hi),
        Bool.and_false]
      rfl

theorem polarize_expands (f : TruthTable n) (h31 : n < 31) :
    ∃ P, (range n).foldlM polarize (coded n f.get_bit) =
    some (coded n P) ∧ Expands f P (fun _ => false) := by
  obtain ⟨P, hrun, hsum, hzero⟩ := polarize_run (P := f.get_bit) h31 (Nat.le_refl n)
  refine ⟨P, hrun, fun x => ?_, fun h => hzero (table_eq_zero.mp h)⟩
  rw [polynomial_eq, TruthTable.value, ← hsum x]
  refine productSum_congr (fun _ _ => rfl) (fun k hk => ?_)
  funext b
  rw [mixed, if_pos hk, Bool.xor_false]

/-! ### The Gray code -/

theorem firstOnePos_eq (h31 : n < 31) (hi : i < 2 ^ n) : ∃ p, firstOnePos i = some p ∧ p ≤ n ∧
    (i + 1 < 2 ^ n → p < n) ∧ (i + 1 = 2 ^ n → p = n) := by
  have hbit : ∀ p, decide ((i + 1) &&& 2 ^ p ≠ 0) = true ↔ (i + 1).testBit p = true := fun p => by
    rw [decide_eq_true_iff, ne_eq, and_two_pow_eq_zero, Bool.not_eq_false]
  have hle : ∀ p, (i + 1).testBit p = true → p ≤ n := fun p hp => by
    by_contra hn
    have hpow : 2 ^ n < 2 ^ p := Nat.pow_lt_pow_right (by decide) (Nat.not_le.mp hn)
    exact Bool.false_ne_true ((Nat.testBit_lt_two_pow (by omega)).symm.trans hp)
  cases hp : firstOnePos i with
  | none =>
    obtain ⟨p, hone⟩ := Nat.exists_testBit_of_ne_zero (Nat.succ_ne_zero i)
    have hnone := find?_eq_none.mp hp p
      (mem_range.mpr (Nat.lt_of_le_of_lt (hle p hone) h31))
    exact absurd ((hbit p).mpr hone) hnone
  | some p =>
    have hone := (hbit p).mp (find?_some (p := fun p => decide ((i + 1) &&& 2 ^ p ≠ 0)) hp)
    refine ⟨p, rfl, hle p hone, fun hlt => ?_, fun heq => ?_⟩
    · by_contra hn
      have hpow : 2 ^ n ≤ 2 ^ p := Nat.pow_le_pow_right (by decide) (Nat.not_lt.mp hn)
      exact Bool.false_ne_true ((Nat.testBit_lt_two_pow (by omega)).symm.trans hone)
    · rw [heq, Nat.testBit_two_pow] at hone
      exact (of_decide_eq_true hone).symm

def toggles : ℕ → ℕ → Bool
  | 0 => fun _ => false
  | i + 1 => match firstOnePos i with
    | some p => Function.update (toggles i) p !(toggles i p)
    | none => toggles i

theorem toggles_succ {p : ℕ} (hp : firstOnePos i = some p) :
    toggles (i + 1) = Function.update (toggles i) p !(toggles i p) := by
  rw [toggles, hp]

theorem productSum_changePolarity (x : ℕ → Bool) (hk : k < n) :
    productSum n (fun i => xor (P i) (!i.testBit k && P (i + 2 ^ k)))
      (fun j b => !b || xor (x j) (Function.update pol k (!pol k) j)) =
      productSum n P (fun j b => !b || xor (x j) (pol j)) := by
  apply productSum_step hk
  · intro j hj
    rw [Function.update_of_ne hj]
  · intro i hi hbit
    rw [testBit_add_two_pow, hbit, Function.update_self]
    generalize P i = u
    generalize P (i + 2 ^ k) = v
    generalize P (i + 2 ^ k + 2 ^ k) = w
    generalize x k = y
    generalize pol k = z
    revert u v w y z
    decide

theorem Expands.changePolarity (h : Expands f P (toggles i)) (h31 : n < 31) (hi : i < 2 ^ n) :
    ∃ p Q, firstOnePos i = some p ∧ changePolarity (coded n P) p = some (coded n Q) ∧
    Expands f Q (toggles (i + 1)) ∧ (i + 1 = 2 ^ n → Q = P) := by
  obtain ⟨p, hp, hle, hlt, heq⟩ := firstOnePos_eq h31 hi
  rw [toggles_succ hp]
  rcases Nat.lt_or_eq_of_le (show i + 1 ≤ 2 ^ n from hi) with hnext | hlast
  · refine ⟨p, _, hp, changePolarity_eq (hlt hnext) (by omega), ⟨fun x => ?_, fun hf j hj => ?_⟩,
      fun hlast => absurd hlast hnext.ne⟩
    · rw [polynomial_eq, productSum_changePolarity x (hlt hnext), ← polynomial_eq, h.sum]
    · rw [h.zero hf j hj]
      cases hbit : j.testBit p with
      | true => rfl
      | false =>
        have hhigh : j + 2 ^ p < 2 ^ n := by
          have hpow : 2 ^ p < 2 ^ n := Nat.pow_lt_pow_right (by decide) (hlt hnext)
          by_contra hover
          have htop := testBit_last (hlt hnext) (show j + 2 ^ p - 2 ^ n < 2 ^ p by omega)
          rw [show 2 ^ n - 2 ^ p + (j + 2 ^ p - 2 ^ n) = j by omega, hbit] at htop
          cases htop
        rw [h.zero hf _ hhigh]
        rfl
  · have hpn := heq hlast
    subst hpn
    exact ⟨p, P, hp, changePolarity_last h31, h.congr (fun k hk => Function.update_of_ne hk.ne _ _),
      fun _ => rfl⟩

end UtopiaEda.Synthesizer.ReedMuller
