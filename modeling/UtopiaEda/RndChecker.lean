import UtopiaEda.SatChecker
import UtopiaEda.SubnetSimulation

/-!
# The simulation checker

`isSat` simulates a subnet with one output on all assignments, as many at a time as a chunk has
bits, or on random ones. The assignments are all covered, but in the exhaustive mode the
counterexample is read from a vector of values that was never set.
-/
namespace UtopiaEda.RndChecker
open Simulator SatChecker List

/-- The inner loop of `getAllValues`: the bits of the number `startValue + i`. -/
def setLane (startValue : ℕ) (vec : List DataChunk) (i : ℕ) : List DataChunk :=
  vec.mapIdx (fun j x =>
    if (BitVec.ofNat 64 (startValue + i)).getLsbD j then x ||| (1#64 <<< i) else x)

def getAllValues (nIn count : ℕ) : List DataChunk :=
  (range 64).foldl (setLane (count * 64)) (replicate nIn 0#64)

def getCounterEx (output : DataChunk) (values : List DataChunk) : List Bool :=
  match (range 64).find? (fun i => output.getLsbD i) with
  | some i => values.map (fun value => value.getLsbD i)
  | none => []

/-- The loop of the random mode: tries that are left, number of the next one. `rand` are the
results of `std::rand` by try and input. -/
def randomLoop (types : List SubnetType) (simulator : Simulator) (inputNum : ℕ)
    (rand : ℕ → ℕ → DataChunk) : ℕ → ℕ → State → Option CheckerResult
  | 0, _, _ => some .unknown
  | n + 1, t, state => do
    let values := (range inputNum).map (rand t)
    let state ← simulateValues types simulator values state
    let output ← getOutput simulator state 0
    if output ≠ 0#64 then some (.notEqual (getCounterEx output values))
    else randomLoop types simulator inputNum rand n (t + 1) state

/-- The loop of the exhaustive mode; `values` is the vector that the random mode fills. -/
def exhaustiveLoop (types : List SubnetType) (simulator : Simulator) (inputNum : ℕ)
    (values : List DataChunk) : ℕ → ℕ → State → Option CheckerResult
  | 0, _, _ => some .equal
  | n + 1, i, state => do
    let state ← simulateValues types simulator (getAllValues inputNum i) state
    let output ← getOutput simulator state 0
    if output ≠ 0#64 then some (.notEqual (getCounterEx output values))
    else exhaustiveLoop types simulator inputNum values n (i + 1) state

def iterations (inputNum : ℕ) : ℕ := if 2 ^ inputNum ≤ 64 then 1 else 2 ^ inputNum >>> 6

def isSat (types : List SubnetType) (exhaustive : Bool) (tries : ℕ) (rand : ℕ → ℕ → DataChunk)
    (subnet : Subnet) : Option CheckerResult := do
  if subnet.nOut = 1 then
    let simulator ← make types (← SubnetBuilder.ofSubnet types subnet)
    let values := replicate subnet.nIn 0#64
    if exhaustive then
      if 32 < subnet.nIn then some .error
      else exhaustiveLoop types simulator subnet.nIn values (iterations subnet.nIn) 0 (fun _ => 0#64)
    else randomLoop types simulator subnet.nIn rand tries 0 (fun _ => 0#64)
  else none

/-- The exhaustive mode is exact, and the counterexamples of the random mode are real. -/
def Right (types : List SubnetType) (subnet : Subnet) : Prop :=
  (∀ tries rand, Exact types subnet (isSat types true tries rand subnet)) ∧
    ∀ tries rand counterEx, isSat types false tries rand subnet = some (.notEqual counterEx) →
      output types subnet (ofList counterEx) = some true

variable {types : List SubnetType} {S : Subnet} {sim : Simulator} {b : ℕ} {x : DataChunk}
  {values : List DataChunk}

@[simp] theorem length_setLane (startValue i : ℕ) :
    (setLane startValue values i).length = values.length :=
  length_mapIdx

private theorem getLsbD_setLane (startValue : ℕ) {m j : ℕ} (hj : j < values.length) (hj64 : j < 64)
    (hb : b < 64) : ((setLane startValue values m).getD j 0#64).getLsbD b =
      ((values.getD j 0#64).getLsbD b || (decide (b = m) && (startValue + m).testBit j)) := by
  have hget : (setLane startValue values m).getD j 0#64 =
      if (BitVec.ofNat 64 (startValue + m)).getLsbD j then values.getD j 0#64 ||| (1#64 <<< m)
      else values.getD j 0#64 := by
    simp [setLane, getD_eq_getElem?_getD, hj]
  have hbit : (BitVec.ofNat 64 (startValue + m)).getLsbD j = (startValue + m).testBit j := by
    rw [BitVec.getLsbD_ofNat, decide_eq_true hj64, Bool.true_and]
  have hone : (1#64 <<< m).getLsbD b = decide (b = m) := by
    rw [BitVec.getLsbD_shiftLeft, BitVec.getLsbD_one]
    rcases Nat.lt_trichotomy b m with h | rfl | h
    · simp [h, Nat.ne_of_lt h]
    · simp [hb]
    · have hsub : b - m ≠ 0 := Nat.sub_ne_zero_of_lt h
      simp [hsub, Nat.ne_of_gt h]
  rw [hget, hbit]
  cases (startValue + m).testBit j with
  | false => rw [if_neg Bool.false_ne_true, Bool.and_false, Bool.or_false]
  | true => rw [if_pos rfl, BitVec.getLsbD_or, hone, Bool.and_true]

private theorem foldl_setLane (startValue nIn : ℕ) : ∀ m : ℕ,
    ((range m).foldl (setLane startValue) (replicate nIn 0#64)).length = nIn ∧
    ∀ j < nIn, j < 64 → ∀ b < 64,
      (((range m).foldl (setLane startValue) (replicate nIn 0#64)).getD j 0#64).getLsbD
      b =
        (decide (b < m) && (startValue + b).testBit j) := by
  intro m
  induction m with
  | zero =>
    refine ⟨length_replicate, fun j hj _ b _ => ?_⟩
    simp [hj]
  | succ m ih =>
    obtain ⟨hlen, hbits⟩ := ih
    rw [range_succ, foldl_append, foldl_cons, foldl_nil]
    refine ⟨by rw [length_setLane, hlen], fun j hj hj64 b hb => ?_⟩
    rw [getLsbD_setLane startValue (hlen.symm ▸ hj) hj64 hb, hbits j hj hj64 b hb]
    rcases Nat.lt_trichotomy b m with h | rfl | h
    · simp [h, Nat.ne_of_lt h, Nat.lt_succ_of_lt h]
    · simp
    · have hlt : ¬ b < m + 1 := Nat.not_lt.mpr h
      simp [Nat.ne_of_gt h, Nat.lt_asymm h, hlt]

theorem length_getAllValues (nIn count : ℕ) : (getAllValues nIn count).length = nIn :=
  (foldl_setLane (count * 64) nIn 64).1

theorem laneInputs_getAllValues {nIn count j : ℕ} (hn : nIn ≤ 32) (hj : j < nIn) (hb : b < 64) :
    laneInputs b (getAllValues nIn count) j = (count * 64 + b).testBit j := by
  have hzero : (0#64 : DataChunk).getLsbD b = false := BitVec.getLsbD_zero
  have hbits := (foldl_setLane (count * 64) nIn 64).2 j hj (by omega) b hb
  rw [decide_eq_true hb, Bool.true_and] at hbits
  rw [laneInputs, lane, ← hzero, getD_map]
  exact hbits

/-- Every assignment has a chunk and a lane. -/
theorem exists_lane (nIn : ℕ) (x : EntryID → Bool) :
    ∃ count < iterations nIn, ∃ b < 64, ∀ j < nIn, (count * 64 + b).testBit j = x j := by
  let number := Nat.ofBits (fun j : Fin nIn => x j)
  have hlt : number < 2 ^ nIn := Nat.ofBits_lt_two_pow _
  refine ⟨number / 64, ?_, number % 64, Nat.mod_lt _ (by decide), fun j hj => ?_⟩
  · unfold iterations
    split
    · rename_i hle
      rw [Nat.div_eq_of_lt (Nat.lt_of_lt_of_le hlt hle)]
      exact Nat.one_pos
    · rename_i hgt
      have hn : 6 < nIn := by
        by_contra hle
        exact hgt (Nat.pow_le_pow_right (by decide) (Nat.not_lt.mp hle))
      have hpow : 2 ^ nIn = 2 ^ (nIn - 6) * 64 := by
        rw [show (64 : ℕ) = 2 ^ 6 from rfl, ← Nat.pow_add, Nat.sub_add_cancel (Nat.le_of_lt hn)]
      rw [Nat.shiftRight_eq_div_pow]
      have hdiv : 2 ^ nIn / 2 ^ 6 = 2 ^ (nIn - 6) := by
        rw [hpow]
        exact Nat.mul_div_cancel _ (by decide)
      rw [hdiv]
      exact Nat.div_lt_of_lt_mul (by rw [Nat.mul_comm, ← hpow]; exact hlt)
  · rw [Nat.div_add_mod']
    exact Nat.testBit_ofBits_lt _ j hj

theorem getCounterEx_eq (hx : x ≠ 0#64) :
    ∃ b < 64, x.getLsbD b = true ∧ ∀ values, getCounterEx x values = lane b values := by
  have hex : ∃ b ∈ range 64, x.getLsbD b = true := by
    by_contra hnone
    apply hx
    apply BitVec.eq_of_getLsbD_eq
    intro i hi
    rw [BitVec.getLsbD_zero]
    exact Bool.eq_false_iff.mpr (fun h => hnone ⟨i, mem_range.mpr hi, h⟩)
  cases hfind : (range 64).find? (fun i => x.getLsbD i) with
  | none =>
    obtain ⟨b, hb, hbit⟩ := hex
    exact absurd hbit (find?_eq_none.mp hfind b hb)
  | some b =>
    refine ⟨b, mem_range.mp (mem_of_find?_eq_some hfind), find?_some hfind, fun values => ?_⟩
    rw [getCounterEx, hfind]
    rfl

def Simulates (types : List SubnetType) (S : Subnet) (sim : Simulator) : Prop :=
  ∀ (values : List DataChunk) (state : State), values.length = S.nIn → ∃ state' x,
    simulateValues types sim values state = some state' ∧ getOutput sim state' 0 = some x ∧
      ∀ b < 64, output types S (laneInputs b values) = some (x.getLsbD b)

private theorem exists_simulates (hvalid : SubnetType.Valid types)
    (hS : S.Encodable types types.length) (hone : S.SingleOutputs types) (hout : S.nOut = 1) :
    ∃ s sim, SubnetBuilder.ofSubnet types S = some s ∧ make types s = some sim ∧
      Simulates types S sim := by
  obtain ⟨s, sim, hs, hmake, hsim⟩ := simulateValues_eq hvalid hS hone (by omega)
  refine ⟨s, sim, hs, hmake, fun values state hlen => ?_⟩
  obtain ⟨state', hrun, hget⟩ := hsim values state hlen
  obtain ⟨x, hx, hbits⟩ := hget 0 (by omega)
  exact ⟨state', x, hrun, hx, hbits⟩

private theorem randomLoop_real (h : Simulates types S sim) {rand : ℕ → ℕ → DataChunk}
    {counterEx : List Bool} : ∀ {n t : ℕ} {state : State},
      randomLoop types sim S.nIn rand n t state = some (.notEqual counterEx) →
        output types S (ofList counterEx) = some true := by
  intro n
  induction n with
  | zero => exact fun hrun => by cases hrun
  | succ n ih =>
    intro t state hrun
    obtain ⟨state', x, hsim, hget, hbits⟩ := h ((range S.nIn).map (rand t)) state (by simp)
    simp only [randomLoop, hsim, hget, Option.bind_eq_bind, Option.bind_some] at hrun
    by_cases hx : x = 0#64
    · rw [if_neg (not_not_intro hx)] at hrun
      exact ih hrun
    · rw [if_pos hx] at hrun
      obtain ⟨b, hb, hbit, hcounter⟩ := getCounterEx_eq hx
      obtain rfl : getCounterEx x ((range S.nIn).map (rand t)) = counterEx := by
        simpa using hrun
      rw [hcounter, ← hbit]
      exact hbits b hb

private theorem exhaustiveLoop_eq (h : Simulates types S sim) (values : List DataChunk) :
    ∀ (n i : ℕ) (state : State),
    (exhaustiveLoop types sim S.nIn values n i state = some .equal ∧ ∀ count, i ≤ count →
        count < i + n → ∀ b < 64, output types S (laneInputs b (getAllValues S.nIn count)) =
        some false) ∨
      ∃ b b' count, b < 64 ∧
        exhaustiveLoop types sim S.nIn values n i state = some (.notEqual (lane b values)) ∧
        b' < 64 ∧ output types S (laneInputs b' (getAllValues S.nIn count)) = some true := by
  intro n
  induction n with
  | zero =>
    intro i state
    exact .inl ⟨rfl, fun count hle hlt => absurd hlt (Nat.not_lt.mpr hle)⟩
  | succ n ih =>
    intro i state
    obtain ⟨state', x, hsim, hget, hbits⟩ :=
      h (getAllValues S.nIn i) state (length_getAllValues _ _)
    simp only [exhaustiveLoop, hsim, hget, Option.bind_eq_bind, Option.bind_some]
    by_cases hx : x = 0#64
    · rw [if_neg (not_not_intro hx)]
      refine (ih (i + 1) state').imp (fun ⟨heq, hall⟩ => ⟨heq, fun count hle hlt b hb => ?_⟩) id
      rcases Nat.eq_or_lt_of_le hle with rfl | hlt'
      · rw [hbits b hb, hx, BitVec.getLsbD_zero]
      · exact hall count hlt' (by omega) b hb
    · rw [if_pos hx]
      obtain ⟨b, hb, hbit, hcounter⟩ := getCounterEx_eq hx
      exact .inr ⟨b, b, i, hb, by rw [hcounter], hb, by rw [hbits b hb, hbit]⟩

private theorem lane_replicate (n : ℕ) :
    lane b (replicate n 0#64) = replicate n false := by
  rw [lane, map_replicate, BitVec.getLsbD_zero]

/-- Both modes meet their specification exactly for subnets whose output is constant 0, or 1 when
all inputs are 0: the vector that the exhaustive mode reads the counterexample from holds zeros. -/
theorem isSat_right_iff (hvalid : SubnetType.Valid types) (hS : S.Encodable types types.length)
    (hone : S.SingleOutputs types) (hout : S.nOut = 1) (hin : S.nIn ≤ 32) :
    Right types S ↔ (∀ x, output types S x = some false) ∨ output types S (fun _ => false) =
    some true := by
  obtain ⟨s, sim, hs, hmake, hsim⟩ := exists_simulates hvalid hS hone hout
  have hzeros : ∀ b, output types S (ofList (lane b (replicate S.nIn 0#64))) =
      output types S (fun _ => false) := fun b =>
    output_congr hS.wellFormed (fun i hi => by rw [lane_replicate]; simp [ofList, hi])
  have hexhaustive : ∀ tries rand, isSat types true tries rand S = exhaustiveLoop types sim S.nIn
      (replicate S.nIn 0#64) (iterations S.nIn) 0 (fun _ => 0#64) := by
    intro tries rand
    simp [isSat, hout, hs, hmake, Nat.not_lt.mpr hin]
  have hrandom : ∀ tries rand, isSat types false tries rand S =
      randomLoop types sim S.nIn rand tries 0 (fun _ => 0#64) := by
    intro tries rand
    simp [isSat, hout, hs, hmake]
  -- every assignment is the one of a lane of a chunk
  have hcover : (∀ count, 0 ≤ count → count < 0 + iterations S.nIn → ∀ b < 64,
      output types S (laneInputs b (getAllValues S.nIn count)) = some false) →
        ∀ x, output types S x = some false := by
    intro hall x
    obtain ⟨count, hcount, b, hb, hbits⟩ := exists_lane S.nIn x
    rw [← hall count (Nat.zero_le _) (by omega) b hb]
    exact output_congr hS.wellFormed (fun j hj => by
      rw [laneInputs_getAllValues hin hj hb, hbits j hj])
  constructor
  · rintro ⟨hexact, -⟩
    have hexact := hexact 0 (fun _ _ => 0#64)
    rw [hexhaustive] at hexact
    rcases exhaustiveLoop_eq hsim (replicate S.nIn 0#64) (iterations S.nIn) 0
      (fun _ => 0#64) with ⟨-, hall⟩ | ⟨b, _, _, _, heq, _⟩
    · exact .inl (hcover hall)
    · right
      rcases hexact with ⟨hequal, -⟩ | ⟨counterEx, hne, -, hreal⟩
      · rw [heq] at hequal
        cases hequal
      · rw [heq] at hne
        obtain rfl : lane b (replicate S.nIn 0#64) = counterEx := by simpa using hne
        rw [← hzeros b, hreal]
  · intro h
    refine ⟨fun tries rand => ?_, fun tries rand counterEx hrun => ?_⟩
    · rw [hexhaustive]
      rcases exhaustiveLoop_eq hsim (replicate S.nIn 0#64) (iterations S.nIn) 0
        (fun _ => 0#64) with ⟨heq, hall⟩ | ⟨b, b', count, -, heq, -, htrue⟩
      · exact .inl ⟨heq, hcover hall⟩
      · rcases h with hfalse | hfirst
        · rw [hfalse] at htrue
          cases htrue
        · exact .inr ⟨_, heq, by rw [length_lane, length_replicate], by rw [hzeros, hfirst]⟩
    · rw [hrandom] at hrun
      exact randomLoop_real hsim hrun

theorem exhaustive_decides (hvalid : SubnetType.Valid types) (hS : S.Encodable types types.length)
    (hone : S.SingleOutputs types) (hout : S.nOut = 1) (hin : S.nIn ≤ 32) (tries : ℕ)
    (rand : ℕ → ℕ → DataChunk) : Decides (∀ x, output types S x = some false)
    (isSat types true tries rand S) := by
  obtain ⟨s, sim, hs, hmake, hsim⟩ := exists_simulates hvalid hS hone hout
  have hrun : isSat types true tries rand S = exhaustiveLoop types sim S.nIn
      (replicate S.nIn 0#64) (iterations S.nIn) 0 (fun _ => 0#64) := by
    simp [isSat, hout, hs, hmake, Nat.not_lt.mpr hin]
  rw [hrun]
  rcases exhaustiveLoop_eq hsim (replicate S.nIn 0#64) (iterations S.nIn) 0
    (fun _ => 0#64) with ⟨heq, hall⟩ | ⟨b, b', count, -, heq, -, htrue⟩
  · refine .inl ⟨heq, fun x => ?_⟩
    obtain ⟨count, hcount, b, hb, hbits⟩ := exists_lane S.nIn x
    rw [← hall count (Nat.zero_le _) (by omega) b hb]
    exact output_congr hS.wellFormed (fun j hj => by rw [laneInputs_getAllValues hin hj hb,
      hbits j hj])
  · refine .inr ⟨_, heq, fun hfalse => ?_⟩
    rw [hfalse] at htrue
    cases htrue

def inverter : Subnet := ⟨1, 1, 2, 0, [.cell ⟨.IN, [], 1⟩, .cell ⟨.OUT, [⟨0, 0, true⟩], 0⟩]⟩

theorem isSat_right_inverter : Right [] inverter :=
  (isSat_right_iff (fun sid T hT => by cases hT) (SubnetEncoder.encodable_of_check (by decide))
    (fun sid T _ hT => by cases hT) rfl (by decide)).mpr (.inr (by decide))

/-- A buffer: the output is 1 where the input is 1, but the counterexample has a 0 there. -/
theorem not_isSat_right_buffer : ¬ ∀ types S, SubnetType.Valid types →
    S.Encodable types types.length → S.nOut = 1 → S.nIn ≤ 32 → Right types S := by
  intro h
  let S : Subnet := ⟨1, 1, 2, 0, [.cell ⟨.IN, [], 1⟩, .cell ⟨.OUT, [⟨0, 0, false⟩], 0⟩]⟩
  have hS : S.Encodable [] 0 := SubnetEncoder.encodable_of_check (by decide)
  have hrun : isSat [] true 0 (fun _ _ => 0#64) S = some (.notEqual [false]) := by decide +kernel
  have hout : output [] S (ofList [false]) = some false := by decide
  have hexact := (h [] S (fun sid T hT => by cases hT) hS rfl (by decide)).1 0 (fun _ _ => 0#64)
  rcases hexact with ⟨heq, -⟩ | ⟨counterEx, heq, -, hreal⟩
  · rw [hrun] at heq
    cases heq
  · rw [hrun] at heq
    obtain rfl : [false] = counterEx := by simpa using heq
    rw [hout] at hreal
    cases hreal

end UtopiaEda.RndChecker
