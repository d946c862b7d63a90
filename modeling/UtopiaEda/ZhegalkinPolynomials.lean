import UtopiaEda.Zhegalkin
import Mathlib.Algebra.BigOperators.Intervals
import Mathlib.Data.Nat.Size

/-!
# The coefficients of a Zhegalkin polynomial

The strings of the synthesizer hold the bits of numbers. The loop over all subsets of the ones of a
string computes the coefficient of a monomial.
-/
namespace UtopiaEda.Synthesizer
open ProductSums List

variable {n i m : ℕ} {l l' : List Bool} {c : ℕ}

/-! ### Strings -/

theorem bits_padded (hi : i < 2 ^ n) :
    i.bits ++ .replicate (n - i.bits.length) false = (range n).map i.testBit := by
  have hlen : i.bits.length ≤ n := by
    rw [Nat.size_eq_bits_len]
    exact Nat.size_le.mpr hi
  apply ext_getElem
  · rw [length_append, length_replicate, length_map, length_range]
    omega
  · intro k hk hk'
    rw [getElem_map, getElem_range, Nat.testBit_eq_inth]
    by_cases hlt : k < i.bits.length
    · rw [getElem_append_left hlt, getI_eq_getElem _ hlt]
    · rw [getElem_append_right (Nat.not_lt.mp hlt), getElem_replicate,
        getI_eq_default _ (Nat.not_lt.mp hlt)]
      rfl

theorem toBinString_eq (hi : i < 2 ^ n) :
    toBinString i n = ((range n).map i.testBit).reverse := by
  rw [toBinString]
  by_cases hzero : i = 0
  · have hnone : (range n).map (Nat.testBit 0) = .replicate n false :=
      eq_replicate_iff.mpr ⟨by rw [length_map, length_range], by simp⟩
    rw [if_pos hzero, hzero, hnone, reverse_replicate]
  · rw [if_neg hzero, bits_padded hi]

theorem popcntLoop_append : popcntLoop (l ++ l') c = popcntLoop l c ++ popcntLoop l'
    (c + l.length) := by
  induction l generalizing c with
  | nil => rfl
  | cons b l ih =>
    have hc : c + 1 + l.length = c + (b :: l).length := by
      rw [length_cons]
      omega
    cases b with
    | false => exact (ih (c := c + 1)).trans (by rw [hc]; rfl)
    | true => exact (congrArg (c :: ·) (ih (c := c + 1))).trans (by rw [hc]; rfl)

theorem popcntLoop_map (p : ℕ → Bool) :
    popcntLoop ((range n).map p) 0 = (range n).filter p := by
  induction n with
  | zero => rfl
  | succ n ih =>
    rw [range_succ, map_append, popcntLoop_append, ih, filter_append, length_map, length_range,
      Nat.zero_add]
    cases hp : p n with
    | false => simp [popcntLoop, hp]
    | true => simp [popcntLoop, hp]

theorem popcntLoop_replicate : popcntLoop (.replicate m false) c = [] := by
  induction m generalizing c with
  | zero => rfl
  | succ m ih => exact ih

theorem popcnt_eq (hi : i < 2 ^ n) : popcnt i = ones i n := by
  rw [ones, ← popcntLoop_map, ← bits_padded hi, popcntLoop_append, popcntLoop_replicate,
    append_nil, popcnt]

/-! ### Subsets -/

/-- The index whose ones are the places that the ones of `i` select. -/
def subset (places : List ℕ) (i : ℕ) : ℕ :=
  ∑ k ∈ Finset.range places.length, if i.testBit k then 2 ^ places.getD k 0 else 0

theorem foldl_subset {p : ℕ → Bool} {v : ℕ → ℕ} (a : ℕ) :
    (range n).foldl (fun pos j => if p j then pos + v j else pos) a =
      a + ∑ k ∈ Finset.range n, if p k then v k else 0 := by
  induction n with
  | zero => rfl
  | succ n ih =>
    rw [range_succ, foldl_append, ih, Finset.sum_range_succ, foldl_cons, foldl_nil]
    by_cases hp : p n
    · rw [if_pos hp, if_pos hp, Nat.add_assoc]
    · rw [if_neg hp, if_neg hp, Nat.add_zero]

/-- The loop that reads a string from its end. -/
theorem subset_eq (places : List ℕ) (hi : i < 2 ^ places.length) :
    (range places.length).foldl (fun pos j =>
    if (toBinString i places.length).getD j false then
      pos + 2 ^ places.getD (places.length - 1 - j) 0 else pos) 0 = subset places i := by
  rw [foldl_subset, Nat.zero_add, subset, ← Finset.sum_range_reflect]
  refine Finset.sum_congr rfl (fun j hj => ?_)
  have hlt := Finset.mem_range.mp hj
  have hlen : ((range places.length).map i.testBit).length = places.length := by
    rw [length_map, length_range]
  have hback : places.length - 1 - (places.length - 1 - j) = j := by omega
  rw [toBinString_eq hi, getD_eq_getElem?_getD, getElem?_reverse (by rw [hlen]; omega), hlen, hback,
    getElem?_map, getElem?_range hlt]
  rfl

theorem subset_append_low {places : List ℕ} (hi : i < 2 ^ places.length) :
    subset (places ++ [m]) i = subset places i := by
  rw [subset, length_append, length_singleton, Finset.sum_range_succ, Nat.testBit_lt_two_pow hi,
    if_neg Bool.false_ne_true, Nat.add_zero]
  refine Finset.sum_congr rfl (fun k hk => ?_)
  rw [getD_append _ _ _ _ (Finset.mem_range.mp hk)]

theorem subset_append_high {places : List ℕ} (hi : i < 2 ^ places.length) :
    subset (places ++ [m]) (2 ^ places.length + i) = 2 ^ m + subset places i := by
  rw [subset, length_append, length_singleton, Finset.sum_range_succ, Nat.testBit_two_pow_add_eq,
    Nat.testBit_lt_two_pow hi, Nat.add_comm, getD_append_right _ _ _ _ (Nat.le_refl _),
    Nat.sub_self]
  refine congrArg (2 ^ m + ·) (Finset.sum_congr rfl (fun k hk => ?_))
  rw [getD_append _ _ _ _ (Finset.mem_range.mp hk),
    Nat.testBit_two_pow_add_gt (Finset.mem_range.mp hk)]

theorem ones_concat (hbit : i.testBit n = true) : ones i (n + 1) = ones i n ++ [n] := by
  rw [ones, range_succ, filter_append, ones, filter_cons_of_pos hbit, filter_nil]

theorem ones_concat_of_not (hbit : i.testBit n = false) : ones i (n + 1) = ones i n := by
  rw [ones, range_succ, filter_append, ones, filter_cons_of_neg (Bool.eq_false_iff.mp hbit),
    filter_nil, append_nil]

theorem foldr_subset {f : ℕ → Bool} :
    ((range (2 ^ (ones i n).length)).map (fun j => f (subset (ones i n) j))).foldr
    xor false = coefficient n f i := by
  induction n generalizing f with
  | zero => simp [ones, subset, coefficient, productSum]
  | succ n ih =>
    cases hbit : i.testBit n with
    | false =>
      rw [ones_concat_of_not hbit, ih, coefficient, coefficient, productSum, hbit]
      simp
    | true =>
      have hlow : (range (2 ^ (ones i n).length)).map
          (fun j => f (subset (ones i n ++ [n]) j)) =
          (range (2 ^ (ones i n).length)).map (fun j => f (subset (ones i n) j)) :=
        map_congr_left (fun j hj => by rw [subset_append_low (mem_range.mp hj)])
      have hhigh : ((range (2 ^ (ones i n).length)).map (2 ^ (ones i n).length + ·)).map
          (fun j => f (subset (ones i n ++ [n]) j)) =
          (range (2 ^ (ones i n).length)).map (fun j => f (2 ^ n + subset (ones i n) j)) := by
        rw [map_map]
        exact map_congr_left (fun j hj => by rw [Function.comp,
          subset_append_high (mem_range.mp hj)])
      rw [ones_concat hbit, length_append, length_singleton, Nat.two_pow_succ, range_add,
        map_append, foldr_xor_append, hlow, hhigh, ih, ih (f := fun j => f (2 ^ n + j)),
        coefficient, coefficient, coefficient, productSum, hbit]
      rfl

theorem subset_lt {j : ℕ} (hj : j < 2 ^ (ones i n).length) : subset (ones i n) j < 2 ^ n := by
  induction n generalizing j with
  | zero => exact Nat.one_pos
  | succ n ih =>
    cases hbit : i.testBit n with
    | false =>
      rw [ones_concat_of_not hbit] at hj ⊢
      have hlt := ih hj
      omega
    | true =>
      rw [ones_concat hbit, length_append, length_singleton, Nat.two_pow_succ] at hj
      rw [ones_concat hbit]
      by_cases hlow : j < 2 ^ (ones i n).length
      · rw [subset_append_low hlow]
        have hlt := ih hlow
        omega
      · obtain ⟨k, rfl⟩ := Nat.exists_eq_add_of_le (Nat.not_lt.mp hlow)
        have hk : k < 2 ^ (ones i n).length := by omega
        rw [subset_append_high hk]
        have hlt := ih hk
        omega

theorem foldl_xor_toNat {h : ℕ → Bool} (b : Bool) :
    (range m).foldl (fun res j => res ^^^ (h j).toNat) b.toNat =
    (xor b (((range m).map h).foldr xor false)).toNat := by
  induction m with
  | zero => exact (congrArg Bool.toNat (Bool.xor_false b)).symm
  | succ m ih =>
    rw [range_succ, foldl_append, ih, map_append, foldr_xor_append, foldl_cons, foldl_nil]
    generalize ((range m).map h).foldr xor false = v
    cases b <;> cases v <;> cases hm : h m <;> simp [hm]

namespace ZhegalkinSynthesizer

variable {t : TruthTable n}

theorem charFromTruthTable_getD (hi : i < 2 ^ n) :
    (charFromTruthTable t).getD i 0 = (t.get_bit i).toNat := by
  rw [charFromTruthTable, getD_append _ _ _ _ (by rw [length_map, length_range]; exact hi),
    getD_eq_getElem?_getD, getElem?_map, getElem?_range hi]
  rfl

theorem charFromTruthTable_getLastD : (charFromTruthTable t).getLastD 0 = n := by
  rw [charFromTruthTable, getLastD_concat]

theorem apply_eq (hi : i < 2 ^ n) :
    apply (charFromTruthTable t) (toBinString i n) = (coefficient n t.get_bit i).toNat := by
  have hstr : (toBinString i n ++
      .replicate ((charFromTruthTable t).getLastD 0 - (toBinString i n).length) false).reverse =
      (range n).map i.testBit := by
    rw [charFromTruthTable_getLastD, toBinString_eq hi, length_reverse, length_map, length_range,
      Nat.sub_self, replicate_zero, append_nil, reverse_reverse]
  have hpositions : positions ((range n).map i.testBit) = ones i n := popcntLoop_map i.testBit
  rw [apply]
  simp only [hstr, hpositions]
  have hloop := foldl_xor_toNat (m := 2 ^ (ones i n).length)
    (h := fun j => t.get_bit (subset (ones i n) j)) false
  rw [foldr_subset, Bool.false_xor] at hloop
  rw [← hloop]
  refine foldl_ext _ _ _ (fun res j hj => ?_)
  have hlt := mem_range.mp hj
  rw [subset_eq (ones i n) hlt, charFromTruthTable_getD (subset_lt hlt)]

theorem getTT_length : (getTT t).length = 2 ^ n + 1 := by
  rw [getTT, charFromFunction, charFromTruthTable_getLastD, length_append, length_map, length_range,
    length_singleton]

/-- The polynomial of a table has the coefficients of the table. -/
theorem getTT_getD (hi : i < 2 ^ n) : (getTT t).getD i 0 = (coefficient n t.get_bit i).toNat := by
  rw [getTT, charFromFunction, charFromTruthTable_getLastD,
    getD_append _ _ _ _ (by rw [length_map, length_range]; exact hi), getD_eq_getElem?_getD,
    getElem?_map, getElem?_range hi, Option.map_some, Option.getD_some, apply_eq hi]

end ZhegalkinSynthesizer

end UtopiaEda.Synthesizer
