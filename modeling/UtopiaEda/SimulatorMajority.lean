import UtopiaEda.SimulatorLanes

/-!
# The simulation of wide majority cells

`opMajN` counts the bits of every lane and shifts the outcome of the comparison, an `int`, to the
lane. The upper half of the lanes is out of its reach, apart from the lanes that the sign of the
`int` fills.
-/
namespace UtopiaEda.Simulator

variable {types : List SubnetType} {opCell : Subnet → List DataChunk → Option (List DataChunk)}
  {sim : Simulator} {state : State} {cell : SubnetCell} {xs : List DataChunk} {n bit b : ℕ}
  {r : DataChunk}

/-- More than half of the words have the bit. -/
def majority (xs : List DataChunk) (b : ℕ) : Bool :=
  decide (xs.length / 2 < xs.countP (fun x => x.getLsbD b))

/-- The cell gets a word whose bits are the majorities of the bits of its link words. -/
def LaneWise (types : List SubnetType) (opCell : Subnet → List DataChunk → Option (List DataChunk))
    (sim : Simulator) (state : State) (cell : SubnetCell) : Prop :=
  ∃ xs y, cell.links.mapM (sim.value state) = some xs ∧ evalCell types opCell cell xs = some [y] ∧
    ∀ b < 64, y.getLsbD b = majority xs b

/-- No lane from 31 on has a majority, unless all lanes have one. -/
def LowMajorities (xs : List DataChunk) : Prop :=
  (∀ b, 31 ≤ b → b < 64 → majority xs b = false) ∨ ∀ b < 64, majority xs b = true

theorem getLsbD_of_shift {x : DataChunk} (hx : x >>> bit = 0#64) (hb : bit ≤ b) :
    x.getLsbD b = false := by
  obtain ⟨k, rfl⟩ := Nat.exists_eq_add_of_le hb
  have hbit : (x >>> bit).getLsbD k = x.getLsbD (bit + k) := BitVec.getLsbD_ushiftRight ..
  rw [← hbit, hx, BitVec.getLsbD_zero]

theorem majority_of_shift (h : ∀ x ∈ xs, x >>> bit = 0#64) (hb : bit ≤ b) :
    majority xs b = false := by
  have hcount : xs.countP (fun x => x.getLsbD b) = 0 := by
    rw [List.countP_eq_zero]
    intro x hx
    rw [getLsbD_of_shift (h x hx) hb]
    exact Bool.false_ne_true
  rw [majority, hcount]
  exact decide_eq_false (Nat.not_lt_zero _)

private theorem getLsbD_lane (c : Bool) (hbit : bit < 32) (hb : b < 64) :
    (((BitVec.ofNat 32 c.toNat) <<< bit).signExtend 64).getLsbD b =
    (decide (bit = min b 31) && c) := by
  have hint : ∀ k < 32, ((BitVec.ofNat 32 c.toNat) <<< bit).getLsbD k =
      (decide (bit = k) && c) := by
    intro k hk
    rw [BitVec.getLsbD_shiftLeft, decide_eq_true hk, Bool.true_and]
    by_cases hlt : k < bit
    · rw [decide_eq_true hlt, decide_eq_false (Nat.ne_of_gt hlt)]
      rfl
    · rw [decide_eq_false hlt, BitVec.getLsbD_ofNat, Nat.testBit_bool_toNat,
        decide_eq_true (by omega : k - bit < 32)]
      have hzero : (k - bit = 0) ↔ bit = k := by omega
      simp only [Bool.not_false, Bool.true_and, hzero]
  rw [BitVec.getLsbD_signExtend, decide_eq_true hb, Bool.true_and]
  split
  · rename_i hlt
    rw [hint b hlt, Nat.min_eq_left (by omega)]
  · rename_i hge
    rw [BitVec.msb_eq_getLsbD_last, hint 31 (by decide), Nat.min_eq_right (by omega)]

/-- What the bits up to 63 add to the result; the bit 64 stands for the bit 0 again, which was added
before. -/
theorem opMajLoop_lanes (hn : bit + n = 65) (hzero : bit ≠ 0 → majority xs 0 = true →
    r.getLsbD 0 = true) (hb : b < 64) : (opMajLoop xs n bit r).getLsbD b =
      (r.getLsbD b || (List.range' bit (64 - bit)).any fun j => decide (j % 32 = min b 31) &&
        majority xs j) := by
  induction n generalizing bit r with
  | zero =>
    obtain rfl : bit = 65 := hn
    exact (Bool.or_false _).symm
  | succ n ih =>
    rw [opMajLoop]
    by_cases hlast : bit = 64
    · obtain rfl := hlast
      obtain rfl : n = 0 := by omega
      rw [List.range'_zero, List.any_nil, Bool.or_false]
      split
      · rfl
      · change (r ||| _).getLsbD b = r.getLsbD b
        rw [BitVec.getLsbD_or, getLsbD_lane _ (by decide) hb]
        change (r.getLsbD b || (decide (0 = min b 31) && majority xs 0)) = r.getLsbD b
        by_cases hb0 : b = 0
        · subst hb0
          cases hmaj : majority xs 0 with
          | false => rw [Bool.and_false, Bool.or_false]
          | true => rw [hzero (by decide) hmaj, Bool.true_or]
        · rw [decide_eq_false (by omega), Bool.false_and, Bool.or_false]
    · have hlt : bit < 64 := by omega
      have hrange : List.range' bit (64 - bit) = bit :: List.range' (bit + 1) (64 - (bit + 1)) := by
        rw [← List.range'_succ]
        congr 1
        omega
      rw [Nat.mod_eq_of_lt hlt]
      by_cases hdone : xs.all (fun x => x >>> bit = 0#64) = true
      · rw [if_pos hdone]
        have hnone : ((List.range' bit (64 - bit)).any fun j => decide (j % 32 = min b 31) &&
            majority xs j) = false := by
          rw [List.any_eq_false]
          intro j hj
          rw [majority_of_shift (fun x hx => of_decide_eq_true (List.all_eq_true.mp hdone x hx))
            (List.mem_range'_1.mp hj).1, Bool.and_false]
          exact Bool.false_ne_true
        rw [hnone, Bool.or_false]
      · rw [if_neg hdone, ih (by omega) (fun _ hmaj => ?_), BitVec.getLsbD_or,
          getLsbD_lane _ (Nat.mod_lt _ (by decide)) hb, hrange, List.any_cons, Bool.or_assoc]
        · rfl
        · rw [BitVec.getLsbD_or, getLsbD_lane _ (Nat.mod_lt _ (by decide)) (by decide)]
          by_cases hbit : bit = 0
          · subst hbit
            change (r.getLsbD 0 || (true && majority xs 0)) = true
            rw [hmaj, Bool.and_true, Bool.or_true]
          · rw [hzero hbit hmaj, Bool.true_or]

theorem opMaj_lanes (hlen : 5 ≤ xs.length) (hb : b < 64) :
    (opMaj xs).getLsbD b = (majority xs (min b 31) || majority xs (min b 31 + 32)) := by
  have hloop : opMaj xs = opMajLoop xs 65 0 0#64 := by
    match xs with
    | _ :: _ :: _ :: _ :: _ => rfl
  rw [hloop, opMajLoop_lanes rfl (fun h => absurd rfl h) hb, BitVec.getLsbD_zero, Bool.false_or,
    Bool.eq_iff_iff, List.any_eq_true, Bool.or_eq_true]
  constructor
  · rintro ⟨j, hj, hmaj⟩
    rw [Bool.and_eq_true, decide_eq_true_eq] at hmaj
    have hlt := (List.mem_range'_1.mp hj).2
    obtain hj | hj : j = min b 31 ∨ j = min b 31 + 32 := by omega
    · exact .inl (hj ▸ hmaj.2)
    · exact .inr (hj ▸ hmaj.2)
  · rintro (hmaj | hmaj)
    · refine ⟨min b 31, List.mem_range'_1.mpr (by omega), ?_⟩
      rw [hmaj, Bool.and_true, decide_eq_true_eq]
      omega
    · refine ⟨min b 31 + 32, List.mem_range'_1.mpr (by omega), ?_⟩
      rw [hmaj, Bool.and_true, decide_eq_true_eq]
      omega

/-- A wide majority cell is simulated lane by lane exactly where no lane from 31 on has a majority,
or all lanes have one: the lane 31 sets all lanes behind it, and the later ones set lanes of the
lower half. -/
theorem opMajN_laneWise_iff (types : List SubnetType)
    (opCell : Subnet → List DataChunk → Option (List DataChunk))
    (ht : cell.type = .MAJ) (hlen : 5 ≤ cell.links.length)
    (hxs : cell.links.mapM (sim.value state) = some xs) : LaneWise types opCell sim state cell ↔
    LowMajorities xs := by
  have hcount : 5 ≤ xs.length := (Netlist.length_of_mapM hxs).symm ▸ hlen
  have heval : evalCell types opCell cell xs = some [opMaj xs] := by rw [evalCell, ht]
  have hlanes : LaneWise types opCell sim state cell ↔
      ∀ b < 64, (majority xs (min b 31) || majority xs (min b 31 + 32)) = majority xs b := by
    constructor
    · rintro ⟨xs', y, hxs', hy, hall⟩ b hb
      obtain rfl := Option.some.inj (hxs'.symm.trans hxs)
      obtain rfl : opMaj xs' = y := by simpa [heval] using hy
      rw [← opMaj_lanes hcount hb, hall b hb]
    · exact fun h => ⟨xs, opMaj xs, hxs, heval, fun b hb => (opMaj_lanes hcount hb).trans (h b hb)⟩
  rw [hlanes]
  constructor
  · intro h
    have hupper : ∀ b, 31 ≤ b → b < 64 → majority xs b = (majority xs 31 || majority xs 63) := by
      intro b hle hb
      rw [← h b hb, Nat.min_eq_right hle]
    cases hmaj : (majority xs 31 || majority xs 63) with
    | false => exact .inl fun b hle hb => (hupper b hle hb).trans hmaj
    | true =>
      refine .inr fun b hb => ?_
      by_cases hle : 31 ≤ b
      · exact (hupper b hle hb).trans hmaj
      · rw [← h b hb, Nat.min_eq_left (by omega),
          (hupper (b + 32) (by omega) (by omega)).trans hmaj, Bool.or_true]
  · rintro (hnone | hall) b hb
    · by_cases hle : 31 ≤ b
      · rw [Nat.min_eq_right hle, hnone 31 (Nat.le_refl _) (by decide), hnone 63 (by decide)
          (by decide), hnone b hle hb]
        rfl
      · rw [Nat.min_eq_left (by omega), hnone (b + 32) (by omega) (by omega), Bool.or_false]
    · rw [hall b hb, hall _ (by omega), Bool.true_or]

def identity : Simulator := ⟨[], some, [], []⟩

/-- A majority cell over the first entries, every other link inverted or none. -/
def majCell (n : ℕ) (alternate : Bool) : SubnetCell :=
  ⟨.MAJ, (List.range n).map (fun i => ⟨i, 0, alternate && i % 2 = 1⟩), 0⟩

/-- The inverted links have bits in all lanes from 31 on, but they are not the majority. -/
theorem opMajN_laneWise_low : LaneWise [] (fun _ _ => none) identity
    (fun p => BitVec.ofNat 64 (p * 3)) (majCell 5 true) :=
  (opMajN_laneWise_iff [] (fun _ _ => none) rfl (by decide)
    (show (majCell 5 true).links.mapM (identity.value (fun p => BitVec.ofNat 64 (p * 3))) =
      some [0#64, ~~~ 3#64, 6#64, ~~~ 9#64, 12#64] from rfl)).mpr
    (.inl (by
      intro b hle hb
      have hall : ∀ k : Fin 33, majority [0#64, ~~~ 3#64, 6#64, ~~~ 9#64, 12#64] (31 + k) =
          false := by decide
      obtain ⟨k, rfl⟩ := Nat.exists_eq_add_of_le hle
      exact hall ⟨k, by omega⟩))

/-- Words with the bit 31: the lanes behind it are set as well. -/
theorem not_opMajN_laneWise : ¬ ∀ (state : State) (cell : SubnetCell), cell.type = .MAJ →
    cell.links.length % 2 = 1 → 5 ≤ cell.links.length →
    LaneWise [] (fun _ _ => none) identity state cell := by
  intro h
  have hwords : (majCell 5 false).links.mapM (identity.value (fun _ => 1#64 <<< 31)) =
      some (List.replicate 5 (1#64 <<< 31)) := rfl
  rcases (opMajN_laneWise_iff [] (fun _ _ => none) rfl (by decide) hwords).mp
    (h (fun _ => 1#64 <<< 31) (majCell 5 false) rfl rfl (by decide)) with hnone | hall
  · exact absurd (hnone 31 (Nat.le_refl _) (by decide)) (by decide)
  · exact absurd (hall 0 (by decide)) (by decide)

end UtopiaEda.Simulator
