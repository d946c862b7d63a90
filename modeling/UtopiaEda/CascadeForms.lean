import UtopiaEda.CascadeRows

/-!
# The forms of a cascade

The columns of the normal form are searched for the rows that agree with the values that are known.
When all but the last value are known, the rows tell which literal or constant is left.
-/
namespace UtopiaEda.Synthesizer.CascadeSynthesizer
open ProductSums List

variable {n i j k m v : ℕ} {f : TruthTable n} {form : Form} {values : List Bool} {a b : Bool}
  {x : ℕ → Bool}

/-! ### The search -/

theorem columnLoop_tail {js : List ℕ} (hjs : ∀ j ∈ js, j ≠ 0) :
    columnLoop form values i js true = js.all (fun j => form.bit j i == values.getD j false) := by
  induction js with
  | nil => rfl
  | cons j js ih =>
    rw [columnLoop, if_neg (hjs j mem_cons_self), all_cons,
      ← ih (fun k hk => hjs k (mem_cons_of_mem j hk))]
    cases form.bit j i <;> cases values.getD j false <;> rfl

theorem columnLoop_eq : columnLoop form values i (.range (k + 1)) false =
    (range (k + 1)).all (fun j => form.bit j i == values.getD j false) := by
  have htail : ∀ j ∈ (range k).map Nat.succ, j ≠ 0 := fun j hj => by
    obtain ⟨j', -, rfl⟩ := mem_map.mp hj
    exact Nat.succ_ne_zero j'
  rw [range_succ_eq_map, columnLoop, if_pos rfl, all_cons, ← columnLoop_tail htail]
  cases form.bit 0 i <;> cases values.getD 0 false <;> rfl

/-- The result for the values that the last variable has in the rows that agree. -/
def status (one zero : Bool) : ℕ := if one then if zero then 1 else 2 else if zero then 3 else 0

def hit (n : ℕ) (form : Form) (values : List Bool) (i : ℕ) : Bool :=
  columnLoop form values i (.range (n - 1)) false

def nextStatus (n : ℕ) (form : Form) (values : List Bool) (i result : ℕ) : ℕ :=
  if i = 0 then
    if form.bit (n - 1) i && hit n form values i then 2 else if hit n form values i then
      3 else result
  else if form.bit (n - 1) i then
    if hit n form values i then if result = 2 ∨ result = 0 then 2 else 1 else result
  else if hit n form values i then if result = 3 ∨ result = 0 then 3 else 1 else result

theorem calculateLoop_cons {is : List ℕ} {result : ℕ} :
    calculateLoop n form values (i :: is) result = if nextStatus n form values i result = 1 then
    1 else calculateLoop n form values is (nextStatus n form values i result) :=
  rfl

theorem nextStatus_eq (hi : i = 0 → a = false ∧ b = false) :
    nextStatus n form values i (status a b) =
    status (a || (hit n form values i && form.bit (n - 1) i))
    (b || (hit n form values i && !form.bit (n - 1) i)) := by
  rw [nextStatus]
  by_cases hzero : i = 0
  · obtain ⟨rfl, rfl⟩ := hi hzero
    rw [if_pos hzero]
    cases form.bit (n - 1) i <;> cases hit n form values i <;> rfl
  · rw [if_neg hzero]
    cases form.bit (n - 1) i <;> cases hit n form values i <;> cases a <;> cases b <;> rfl

theorem status_eq_one : status a b = 1 ↔ a = true ∧ b = true := by
  cases a <;> cases b <;> simp [status]

theorem calculateLoop_eq (n : ℕ) (form : Form) (values : List Bool)
    (hk : k = 0 → a = false ∧ b = false) : calculateLoop n form values (.range' k m) (status a b) =
      status (a || (range' k m).any (fun i => hit n form values i && form.bit (n - 1) i))
        (b || (range' k m).any (fun i => hit n form values i && !form.bit (n - 1) i)) := by
  induction m generalizing k a b with
  | zero => simp [calculateLoop]
  | succ m ih =>
    rw [range'_succ, calculateLoop_cons, nextStatus_eq hk, any_cons, any_cons, ← Bool.or_assoc,
      ← Bool.or_assoc]
    by_cases hone : status (a || (hit n form values k && form.bit (n - 1) k))
        (b || (hit n form values k && !form.bit (n - 1) k)) = 1
    · obtain ⟨ha, hb⟩ := status_eq_one.mp hone
      rw [if_pos hone, ha, hb]
      rfl
    · rw [if_neg hone, ih (fun h => absurd h (Nat.succ_ne_zero k))]

/-! ### Cofactors -/

/-- The function with the first variables fixed. -/
def cofactor (f : TruthTable n) (values : List Bool) (x : ℕ → Bool) : Bool :=
  f.value (fun i => if i < values.length then values.getD i false else x i)

theorem cofactor_nil : cofactor f [] = f.value := rfl

theorem value_congr {y : ℕ → Bool} (h : ∀ k < n, x k = y k) : f.value x = f.value y :=
  congrArg f.get_bit (point_congr h)

theorem cofactor_eq (hv : values.length = v) : cofactor f values x =
    if x v then cofactor f (values ++ [true]) x else cofactor f (values ++ [false]) x := by
  have hcase : ∀ b, x v = b → cofactor f values x = cofactor f (values ++ [b]) x := by
    intro b hb
    refine value_congr (fun k _ => ?_)
    rw [length_append, length_singleton]
    rcases Nat.lt_trichotomy k values.length with hlt | heq | hgt
    · rw [if_pos hlt, if_pos (Nat.lt_succ_of_lt hlt), getD_append _ _ _ _ hlt]
    · rw [heq, if_neg (Nat.lt_irrefl _), if_pos (Nat.lt_succ_self _),
        getD_append_right _ _ _ _ (Nat.le_refl _), Nat.sub_self, hv, hb]
      rfl
    · rw [if_neg (by omega), if_neg (by omega)]
  cases hx : x v with
  | false => rw [if_neg Bool.false_ne_true, hcase false hx]
  | true => rw [if_pos rfl, hcase true hx]

def columns (f : TruthTable n) : Form :=
  (range n).map (fun j => (minterms f (2 ^ n)).map (·.testBit j))

theorem normalForm_eq (h31 : n < 31) : normalForm f = some (columns f) := by
  rw [normalForm, intShl, if_pos h31]
  rfl

theorem columns_bit (hj : j < n) (hi : i < (minterms f (2 ^ n)).length) :
    (columns f).bit j i = (minterms f (2 ^ n))[i].testBit j := by
  have hcolumn : (columns f).getD j [] = (minterms f (2 ^ n)).map (·.testBit j) := by
    rw [columns, getD_eq_getElem _ _ (by rw [length_map, length_range]; exact hj), getElem_map,
      getElem_range]
  rw [Form.bit, hcolumn, getD_eq_getElem _ _ (by rw [length_map]; exact hi), getElem_map]

theorem mem_minterms : m ∈ minterms f (2 ^ n) ↔ m < 2 ^ n ∧ f.get_bit m = true := by
  rw [minterms, mem_filter, mem_reverse, mem_range]

theorem value_iff : f.value x = true ↔ ∃ m ∈ minterms f (2 ^ n), ∀ j < n, m.testBit j = x j := by
  constructor
  · intro h
    exact ⟨point x n, mem_minterms.mpr ⟨point_lt, h⟩, fun j hj => testBit_point hj⟩
  · intro ⟨m, hm, hbits⟩
    obtain ⟨hlt, hbit⟩ := mem_minterms.mp hm
    rw [TruthTable.value, ← point_congr hbits, point_testBit hlt, hbit]

theorem any_hit (hn : 2 ≤ n) (hv : values.length = n - 1) (c : Bool) :
    (range (minterms f (2 ^ n)).length).any (fun i => hit n (columns f) values i &&
      ((columns f).bit (n - 1) i == c)) = cofactor f (values ++ [c]) x := by
  obtain ⟨k, rfl⟩ := Nat.exists_eq_add_of_le' hn
  rw [Bool.eq_iff_iff, cofactor, value_iff, any_eq_true]
  have hlast : ∀ j < k + 2, (j < (values ++ [c]).length) ∧
      (j < k + 1 → (values ++ [c]).getD j false = values.getD j false) ∧
      (j = k + 1 → (values ++ [c]).getD j false = c) := by
    intro j hj
    rw [length_append, length_singleton, hv]
    refine ⟨by omega, fun hlt => getD_append _ _ _ _ (by omega), fun heq => ?_⟩
    rw [getD_append_right _ _ _ _ (by omega), heq, hv]
    simp
  have hagree : ∀ i (hi : i < (minterms f (2 ^ (k + 2))).length),
      (hit (k + 2) (columns f) values i && ((columns f).bit (k + 2 - 1) i == c)) = true ↔
        ∀ j < k + 2, (minterms f (2 ^ (k + 2)))[i].testBit j = (values ++ [c]).getD j false := by
    intro i hi
    rw [hit, show k + 2 - 1 = k + 1 from rfl, columnLoop_eq, Bool.and_eq_true, all_eq_true,
      beq_iff_eq]
    constructor
    · intro ⟨hall, hc⟩ j hj
      rcases Nat.lt_succ_iff_lt_or_eq.mp hj with hlt | heq
      · rw [(hlast j hj).2.1 hlt, ← columns_bit hj hi]
        exact beq_iff_eq.mp (hall j (mem_range.mpr hlt))
      · rw [(hlast j hj).2.2 heq, ← columns_bit hj hi, heq, hc]
    · intro hall
      refine ⟨fun j hj => ?_, ?_⟩
      · have hlt := mem_range.mp hj
        rw [columns_bit (by omega) hi, hall j (by omega), (hlast j (by omega)).2.1 hlt,
          beq_self_eq_true]
      · rw [columns_bit (by omega) hi, hall (k + 1) (by omega), (hlast (k + 1) (by omega)).2.2 rfl]
  constructor
  · intro ⟨i, hi, hhit⟩
    have hlt := mem_range.mp hi
    refine ⟨_, getElem_mem hlt, fun j hj => ?_⟩
    rw [if_pos (hlast j hj).1, (hagree i hlt).mp hhit j hj]
  · intro ⟨m, hm, hbits⟩
    obtain ⟨i, hi, rfl⟩ := getElem_of_mem hm
    refine ⟨i, mem_range.mpr hi, (hagree i hi).mpr (fun j hj => ?_)⟩
    rw [hbits j hj, if_pos (hlast j hj).1]

/-- The literal or constant that is left for the last variable. -/
theorem calculate_eq (hn : 2 ≤ n) (hv : values.length = n - 1) (x : ℕ → Bool) :
    calculate n (columns f) values = status (cofactor f (values ++ [true]) x)
    (cofactor f (values ++ [false]) x) := by
  have hlen : ((columns f).getD 0 []).length = (minterms f (2 ^ n)).length := by
    rw [columns, getD_eq_getElem _ _ (by rw [length_map, length_range]; omega), getElem_map,
      length_map]
  have h := calculateLoop_eq n (columns f) values (m := (minterms f (2 ^ n)).length) (k := 0)
    (a := false) (b := false) (fun _ => ⟨rfl, rfl⟩)
  rw [← range_eq_range', Bool.false_or, Bool.false_or] at h
  rw [calculate, hlen, ← any_hit (x := x) hn hv true, ← any_hit (x := x) hn hv false]
  simp only [beq_true, beq_false]
  exact h

/-! ### Decompositions -/

theorem getFunction_zero (hf : f = 0#(2 ^ n)) (left : ℕ) :
    Decomposes n v (getFunction f form left values) (fun _ => false) := by
  have hrows : getFunction f form left values = sources n ++ [⟨false.toNat, 0, 0⟩] := by
    rw [getFunction.eq_def, if_pos hf, initializeRows, nil_append, sources, replicate_succ']
    rfl
  rw [hrows]
  exact .const false

theorem getFunction_last (hn : 2 ≤ n) (hf : f ≠ 0#(2 ^ n)) (hv : values.length = n - 1) :
    Decomposes n (n - 1) (getFunction f (columns f) 0 values) (cofactor f values) := by
  have hlt : n - 1 < n := by omega
  have hcode : n + 1 = code n (n - 1) false := by
    rw [code, if_neg Bool.false_ne_true]
    omega
  have hcode' : n * 2 + 1 = code n (n - 1) true := by
    rw [code, if_pos rfl]
    omega
  rw [getFunction, if_neg hf, if_neg (by omega)]
  simp only [initializeRows, nil_append, replicate_one]
  obtain ⟨x₀, hx₀⟩ : ∃ x₀ : ℕ → Bool, x₀ = fun _ => false := ⟨_, rfl⟩
  -- the values of the last variable do not depend on the assignment
  have hlast : ∀ x c, cofactor f (values ++ [c]) x = cofactor f (values ++ [c]) x₀ := by
    intro x c
    refine value_congr (fun k hk => ?_)
    have hk' : k < (values ++ [c]).length := by
      rw [length_append, length_singleton, hv]
      omega
    rw [if_pos hk', if_pos hk']
  have hcofactor : ∀ x, cofactor f values x =
      if x (n - 1) then cofactor f (values ++ [true]) x₀ else cofactor f (values ++ [false]) x₀ :=
      fun x => by
    rw [cofactor_eq hv, hlast x true, hlast x false]
  rw [calculate_eq hn hv x₀]
  cases hone : cofactor f (values ++ [true]) x₀ with
  | false =>
    cases hzero : cofactor f (values ++ [false]) x₀ with
    | false => exact (Decomposes.const false).congr (fun x => by rw [hcofactor, hone, hzero,
        ite_self])
    | true =>
      simp only [status, Bool.false_eq_true, if_false, if_true]
      rw [if_neg (by decide), hcode']
      refine (Decomposes.tree (.leaf (n - 1) true) ⟨Nat.le_refl _, hlt⟩).congr (fun x => ?_)
      rw [hcofactor, hone, hzero, Tree.value]
      cases x (n - 1) <;> rfl
  | true =>
    cases hzero : cofactor f (values ++ [false]) x₀ with
    | false =>
      simp only [status, Bool.false_eq_true, if_false, if_true]
      rw [hcode]
      refine (Decomposes.tree (.leaf (n - 1) false) ⟨Nat.le_refl _, hlt⟩).congr (fun x => ?_)
      rw [hcofactor, hone, hzero, Tree.value]
      cases x (n - 1) <;> rfl
    | true => exact (Decomposes.const true).congr (fun x => by rw [hcofactor, hone, hzero,
        ite_self])

theorem getFunction_decomposes (hn : 2 ≤ n) {left : ℕ} (hleft : left + values.length = n - 1) :
    Decomposes n values.length (getFunction f (columns f) left values) (cofactor f values) := by
  by_cases hf : f = 0#(2 ^ n)
  · refine (getFunction_zero hf left).congr (fun x => ?_)
    rw [cofactor, TruthTable.value, hf]
    exact BitVec.getLsbD_zero
  induction left generalizing values with
  | zero =>
    have hv : values.length = n - 1 := by omega
    rw [hv]
    exact getFunction_last hn hf hv
  | succ left ih =>
    have hlen : ∀ b, (values ++ [b]).length = values.length + 1 := fun b => length_append
    have h₁ := ih (show left + (values ++ [true]).length = n - 1 by rw [hlen]; omega)
    have h₂ := ih (show left + (values ++ [false]).length = n - 1 by rw [hlen]; omega)
    rw [hlen] at h₁ h₂
    rw [getFunction, if_neg hf, if_neg (by omega)]
    exact (h₁.checkSimplify h₂ rfl (by omega)).congr (fun x => cofactor_eq rfl)

end UtopiaEda.Synthesizer.CascadeSynthesizer
