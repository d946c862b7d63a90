import UtopiaEda.OrderedBuilders
import UtopiaEda.LinkAccess
import UtopiaEda.ProductWeights
import Mathlib.Algebra.Field.Basic
import Mathlib.Algebra.Order.Field.Basic

/-!
# Signal probabilities

The estimator goes once through the cells and computes from the probabilities of the sources the
probability that a cell has the value 1, as if the sources were independent. Numbers are exact.
-/
namespace UtopiaEda.ProbabilityEstimator
open ProductWeights List

section
variable {K : Type} [Field K]

/-- `std::bitset<32>(i).count()`. -/
def count (i : ℕ) : ℕ := (range 32).countP fun j => i.testBit j

/-- The probability that `k` of `n` bits are 1. A bit set has 32 bits. -/
def combinations (k n : ℕ) (prob : List K) : Option K :=
  if 32 < n then none
  else some ((range (2 ^ n)).foldl (fun p i =>
    if count i = k then
      p + (range n).foldl (fun pComb j => pComb * (if i.testBit j then prob.getD j 0 else
        1 - prob.getD j 0)) 1
    else p) 0)

/-- The sum over the numbers of bits that a loop runs through. -/
def sumCombinations (prob : List K) (ks : List ℕ) : Option K :=
  ks.foldlM (fun p i => do some (p + (← combinations i prob.length prob))) 0

/-- From `nMajP / 2 + 1` to `nMajP`. -/
def majEstimate (majProb : List K) : Option K :=
  sumCombinations majProb (range' (majProb.length / 2 + 1)
    (majProb.length - majProb.length / 2))

/-- 1, 3 and so on to `nXorP`. -/
def xorEstimate (xorProb : List K) : Option K :=
  sumCombinations xorProb (range' 1 ((xorProb.length + 1) / 2) 2)

def linkProb (probs : EntryID → K) (link : Link) : K :=
  if link.inv then 1 - probs link.idx else probs link.idx

def estimateGate (t : CellTypeID) (links : List Link) (probs : EntryID → K) : Option K :=
  match t with
  | .AND => some (links.foldl (fun p link => p * (if link.inv then 1 - probs link.idx else
      probs link.idx)) 1)
  | .OR => some (1 - links.foldl (fun p link => p * (if link.inv then probs link.idx else
      1 - probs link.idx)) 1)
  | .ONE => some 1
  | .ZERO => some 0
  | .BUF | .OUT => links[0]?.map (linkProb probs)
  | .MAJ => majEstimate (links.map (linkProb probs))
  | .XOR => xorEstimate (links.map (linkProb probs))
  | _ => some 0

def estimateP (inProbs : List K) (i : EntryID) (cell : SubnetCell) (links : List Link)
    (probs : EntryID → K) : Option K :=
  if cell.isIn then if inProbs.isEmpty then some (1 / 2) else inProbs[i]?
  else estimateGate cell.type links probs

def estimateCell (builder : SubnetBuilder) (inProbs : List K) (probs : EntryID → K) (i : EntryID) :
    Option (EntryID → K) := do
  let cell ← builder.getCell i
  let links ← builder.getLinks i
  let p ← estimateP inProbs i cell links probs
  some (Function.update probs i p)

def estimateProbs (builder : SubnetBuilder) (inProbs : List K) : Option (EntryID → K) := do
  (← builder.cellIDs).foldlM (estimateCell builder inProbs) fun _ => 0

def inputProb (ins : List EntryID) (inProbs : List K) (k : Fin ins.length) : K :=
  if inProbs.isEmpty then 1 / 2 else inProbs.getD k 0

/-! ### Gates -/

variable {prob : List K} {probs : EntryID → K} {links : List Link} {n m k : ℕ}

theorem count_eq (hn : n ≤ 32) (hm : m < 2 ^ n) : count m = (bits n m).count true := by
  obtain ⟨d, hd⟩ := Nat.exists_eq_add_of_le hn
  have hhigh : ∀ j ∈ range' n d, ¬ m.testBit j = true := by
    intro j hj
    have hle : n ≤ j := (mem_range'_1.mp hj).1
    rw [Nat.testBit_lt_two_pow (Nat.lt_of_lt_of_le hm (Nat.pow_le_pow_right Nat.two_pos hle))]
    exact Bool.false_ne_true
  have hrange : range 32 = range n ++ range' n d := by
    have happ := range'_append_1 (s := 0) (m := n) (n := d)
    rw [Nat.zero_add] at happ
    rw [hd, range_eq_range', range_eq_range', happ]
  rw [count, hrange, countP_append, countP_eq_zero.mpr hhigh, Nat.add_zero, bits, List.count,
    countP_map]
  exact countP_congr fun j _ => by simp

private theorem foldl_mul {α : Type} (g : α → K) (l : List α) : ∀ a :
    K, l.foldl (fun p j => p * g j) a = a * (l.map g).prod := by
  induction l with
  | nil => exact fun a => (mul_one a).symm
  | cons j l ih =>
    intro a
    rw [foldl_cons, ih, map_cons, prod_cons, mul_assoc]

theorem foldl_eq_maskWeight : (range prob.length).foldl (fun pComb j =>
    pComb * (if m.testBit j then prob.getD j 0 else 1 - prob.getD j 0)) 1 = maskWeight prob m := by
  rw [foldl_mul, one_mul, maskWeight]
  refine congrArg prod (ext_getElem (by simp) fun j hj _ => ?_)
  have hlt : j < prob.length := by simpa using hj
  simp only [bits, getElem_map, getElem_range, getElem_zipWith, getD_eq_getElem _ _ hlt]

theorem combinations_eq (hn : prob.length ≤ 32) :
    combinations k prob.length prob =
    some (average prob fun v => indicator (decide (v.count true = k))) := by
  have hfold : ∀ (g : ℕ → K) (N : ℕ), (range N).foldl (fun p i => if count i = k then
      p + g i else p) 0 = ∑ i ∈ Finset.range N, g i * indicator (decide (count i = k)) := by
    intro g N
    induction N with
    | zero => rfl
    | succ N ih =>
      rw [range_succ, foldl_append, ih, Finset.sum_range_succ]
      by_cases hk : count N = k <;> simp [hk, indicator]
  rw [combinations, if_neg (Nat.not_lt.mpr hn), hfold, ← sum_maskWeight]
  refine congrArg some (Finset.sum_congr rfl fun m hm => ?_)
  rw [foldl_eq_maskWeight, count_eq hn (Finset.mem_range.mp hm)]

theorem sumCombinations_eq (hn : prob.length ≤ 32) {ks : List ℕ} (hks : ks.Nodup) :
    sumCombinations prob ks = some (average prob fun v => indicator
    (decide (v.count true ∈ ks))) := by
  suffices h : ∀ a : K, ks.foldlM (fun p i => do some (p + (← combinations i prob.length prob))) a =
      some (a + average prob fun v => indicator (decide (v.count true ∈ ks))) by
    rw [sumCombinations, h, zero_add]
  induction ks with
  | nil =>
    intro a
    have hzero : average prob (fun v => indicator (decide (v.count true ∈ []))) = (0 : K) :=
      (average_congr fun v _ => by simp [indicator]).trans (average_const 0)
    rw [hzero, add_zero]
    rfl
  | cons k ks ih =>
    intro a
    obtain ⟨hk, hks⟩ := nodup_cons.mp hks
    have hsplit : average prob (fun v => indicator (decide (v.count true ∈ k :: ks))) =
        average prob (fun v => indicator (decide (v.count true = k))) +
          (average prob fun v => indicator (decide (v.count true ∈ ks)) : K) := by
      rw [← average_add]
      refine average_congr fun v _ => ?_
      by_cases hv : v.count true = k
      · simp [indicator, hv, hk]
      · simp [indicator, hv]
    rw [foldlM_cons, combinations_eq hn, hsplit, ← add_assoc]
    exact ih hks _

/-- There are no bit sets for more than 32 bits. -/
theorem sumCombinations_none (hn : 32 < prob.length) {ks : List ℕ} (hne : ks ≠ []) :
    sumCombinations prob ks = none := by
  obtain ⟨k, ks, rfl⟩ := exists_cons_of_ne_nil hne
  rw [sumCombinations, foldlM_cons, combinations, if_pos hn]
  rfl

private theorem foldr_xor_eq_count (v : List Bool) :
    v.foldr xor false = decide (v.count true % 2 = 1) := by
  induction v with
  | nil => rfl
  | cons b v ih =>
    rw [foldr_cons, ih]
    cases b with
    | false => simp
    | true =>
      rw [count_cons_self, Bool.true_xor, ← decide_not]
      exact decide_eq_decide.mpr (by omega)

def Estimable (t : CellTypeID) (n : ℕ) : Prop :=
  match t with
  | .ZERO | .ONE | .AND | .OR => True
  | .BUF | .OUT => n = 1
  | .XOR => n ≤ 32
  | .MAJ => n ≤ 32
  | _ => False

theorem estimateGate_eq {t : CellTypeID} (ht : Estimable t links.length) (lib : CellLibrary) :
    estimateGate t links probs =
    some (average (links.map (linkProb probs)) fun v => indicator (t.eval lib v 0)) := by
  cases t with
  | ZERO => exact congrArg some (average_const 0).symm
  | ONE => exact congrArg some (average_const 1).symm
  | AND =>
    have hprod := foldl_mul (linkProb probs) links 1
    rw [one_mul, ← average_all] at hprod
    exact congrArg some hprod
  | OR =>
    have hnot : ∀ link : Link, (if link.inv then probs link.idx else 1 - probs link.idx) =
        1 - linkProb probs link := by
      intro link
      cases hinv : link.inv <;> simp [linkProb, hinv]
    have hprod := foldl_mul (fun link => 1 - linkProb probs link) links 1
    have hany : average (links.map (linkProb probs)) (fun v => indicator (v.any id)) =
        1 - (links.map fun link => 1 - linkProb probs link).prod := by
      rw [average_any, map_map]
      rfl
    rw [estimateGate]
    simp only [hnot, hprod, one_mul]
    exact congrArg some hany.symm
  | BUF | OUT =>
    obtain ⟨link, rfl⟩ := length_eq_one_iff.mp ht
    simp [estimateGate, average, indicator, CellTypeID.eval]
  | XOR =>
    have hlen : (links.map (linkProb probs)).length ≤ 32 := by rwa [length_map]
    rw [estimateGate, xorEstimate, sumCombinations_eq hlen (nodup_range' 2)]
    refine congrArg some (average_congr fun v hv => congrArg indicator ?_)
    have hcount := count_le_length (a := true) (l := v)
    rw [CellTypeID.eval, foldr_xor_eq_count, decide_eq_decide, mem_range']
    constructor
    · rintro ⟨i, -, hi⟩
      omega
    · intro hodd
      exact ⟨v.count true / 2, by omega, by omega⟩
  | MAJ =>
    have hlen : (links.map (linkProb probs)).length ≤ 32 := by rwa [length_map]
    rw [estimateGate, majEstimate, sumCombinations_eq hlen (nodup_range' 1)]
    refine congrArg some (average_congr fun v hv => congrArg indicator ?_)
    have hcount := count_le_length (a := true) (l := v)
    rw [CellTypeID.eval, decide_eq_decide, mem_range'_1]
    omega
  | _ => exact ht.elim

end

end UtopiaEda.ProbabilityEstimator
