import UtopiaEda.Simulator

/-!
# The lanes of the simulator

The operations on chunks act on every bit separately: the lane with number `b` of the outputs of
a cell is the value of the cell for the lanes of its links. So one run of the simulator
evaluates the network for as many assignments as a chunk has bits.
-/
namespace UtopiaEda.Simulator

variable {f : DataChunk → DataChunk → DataChunk} {g : Bool → Bool → Bool} {b : ℕ}
  {types : List SubnetType} {opCell : Subnet → List DataChunk → Option (List DataChunk)}
  {cell : SubnetCell} {xs : List DataChunk} {bound : ℕ}

def lane (b : ℕ) (xs : List DataChunk) : List Bool := xs.map (fun x => x.getLsbD b)

@[simp] theorem lane_nil : lane b [] = [] := rfl

@[simp] theorem lane_cons (x : DataChunk) : lane b (x :: xs) = x.getLsbD b :: lane b xs := rfl

@[simp] theorem length_lane : (lane b xs).length = xs.length := List.length_map _

private theorem pairLoop_lane (hf : ∀ x y, (f x y).getLsbD b = g (x.getLsbD b) (y.getLsbD b))
    (hg : ∀ u v w, g (g u v) w = g u (g v w)) (result : DataChunk) :
    (pairLoop f result xs).getLsbD b = (lane b xs).foldl g (result.getLsbD b) := by
  induction result, xs using pairLoop.induct f with
  | case1 result x y xs ih => rw [pairLoop, ih, hf, hf, lane_cons, lane_cons, List.foldl_cons,
      List.foldl_cons, hg]
  | case2 result x => rw [pairLoop, hf]; rfl
  | case3 result => rfl

private theorem opAssoc_lane {init : DataChunk}
    (hf : ∀ x y, (f x y).getLsbD b = g (x.getLsbD b) (y.getLsbD b))
    (hg : ∀ u v w, g (g u v) w = g u (g v w)) (hinit : ∀ u, g (init.getLsbD b) u = u) :
    (opAssoc f init xs).getLsbD b = (lane b xs).foldl g (init.getLsbD b) := by
  unfold opAssoc
  split
  · simp [hinit]
  · simp [hinit, hf]
  · simp [hinit, hf]
  · exact pairLoop_lane hf hg init

theorem opAnd_lane (hb : b < 64) : (opAnd xs).getLsbD b = (lane b xs).all id := by
  have hones : (-1#64 : DataChunk).getLsbD b = true := by
    have hall : (-1#64 : DataChunk) = BitVec.allOnes 64 := rfl
    rw [hall, BitVec.getLsbD_allOnes, decide_eq_true hb]
  rw [opAnd, opAssoc_lane (g := and) (fun x y => BitVec.getLsbD_and) Bool.and_assoc
    (fun u => by rw [hones, Bool.true_and]), CellTypeID.foldl_and, hones, Bool.true_and]

theorem opOr_lane : (opOr xs).getLsbD b = (lane b xs).any id := by
  have hzero : (0#64 : DataChunk).getLsbD b = false := BitVec.getLsbD_zero
  rw [opOr, opAssoc_lane (g := or) (fun x y => BitVec.getLsbD_or) Bool.or_assoc
    (fun u => by rw [hzero, Bool.false_or]), CellTypeID.foldl_or, hzero, Bool.false_or]

theorem opXor_lane : (opXor xs).getLsbD b = (lane b xs).foldr xor false := by
  have hzero : (0#64 : DataChunk).getLsbD b = false := BitVec.getLsbD_zero
  rw [opXor, opAssoc_lane (g := xor) (fun x y => BitVec.getLsbD_xor) Bool.xor_assoc
    (fun u => by rw [hzero, Bool.false_xor]), CellTypeID.foldl_xor, hzero, Bool.false_xor]

def Evaluates (types : List SubnetType)
    (opCell : Subnet → List DataChunk → Option (List DataChunk)) (cell : SubnetCell) : Prop :=
  ∀ xs : List DataChunk, xs.length = cell.links.length → ∃ ys,
    evalCell types opCell cell xs = some ys ∧ ys.length = cell.outputs types ∧
    ∀ b < 64, ∀ out < cell.outputs types, (ys.getD out 0#64).getLsbD b =
      cell.type.eval (SubnetType.library types) (lane b xs) out

private theorem evaluates_gate {y : List DataChunk → DataChunk} (hout : cell.outputs types = 1)
    (h : ∀ xs : List DataChunk, xs.length = cell.links.length →
      evalCell types opCell cell xs = some [y xs] ∧ ∀ b < 64, ∀ out, (y xs).getLsbD b =
        cell.type.eval (SubnetType.library types) (lane b xs) out) :
    Evaluates types opCell cell := by
  intro xs hlen
  obtain ⟨heq, hlanes⟩ := h xs hlen
  refine ⟨[y xs], heq, hout.symm, fun b hb out ho => ?_⟩
  have hzero : out = 0 := Nat.lt_one_iff.mp (hout ▸ ho)
  rw [hzero]
  exact hlanes b hb 0

def SimulatesType (types : List SubnetType)
    (opCell : Subnet → List DataChunk → Option (List DataChunk)) (sid : ℕ) : Prop :=
  ∀ T : SubnetType, types[sid]? = some T → ∀ xs : List DataChunk, xs.length = T.inNum → ∃ ys,
    opCell T.subnet xs = some ys ∧ ys.length = T.outNum ∧ ∀ b < 64, ∀ out < T.outNum,
      (ys.getD out 0#64).getLsbD b = (SubnetType.library types).eval sid (lane b xs) out

private theorem evaluates_soft {sid : ℕ} (ht : cell.type = .soft sid)
    (hn : (types[sid]?).map SubnetType.inNum = some cell.links.length)
    (h : SimulatesType types opCell sid) : Evaluates types opCell cell := by
  intro xs hlen
  obtain ⟨T, hT, hin⟩ := Option.map_eq_some_iff.mp hn
  obtain ⟨ys, heq, hys, hlanes⟩ := h T hT xs (hlen.trans hin.symm)
  have hout : cell.outputs types = T.outNum := by simp [SubnetCell.outputs, ht, hT]
  refine ⟨ys, ?_, hys.trans hout.symm, fun b hb out ho => ?_⟩
  · simp only [evalCell, ht, hT, Option.bind_eq_bind, Option.bind_some]
    exact heq
  · rw [ht]
    exact hlanes b hb out (hout ▸ ho)

private theorem eval_maj_one {lib : CellLibrary} (u : Bool) (out : ℕ) :
    CellTypeID.MAJ.eval lib [u] out = u := by
  cases u <;> rfl

private theorem eval_maj_three {lib : CellLibrary} (u v w : Bool) (out : ℕ) :
    CellTypeID.MAJ.eval lib [u, v, w] out = (u && v || u && w || v && w) := by
  cases u <;> cases v <;> cases w <;> rfl

private theorem evaluates_maj (ht : cell.type = .MAJ)
    (hn : cell.links.length = 1 ∨ cell.links.length = 3) : Evaluates types opCell cell := by
  have hout : cell.outputs types = 1 := by simp [SubnetCell.outputs, ht]
  rcases hn with hn | hn
  · refine evaluates_gate (y := fun xs => xs.getD 0 0#64) hout (fun xs hlen => ?_)
    obtain ⟨x, rfl⟩ := List.length_eq_one_iff.mp (hlen.trans hn)
    refine ⟨by simp [evalCell, ht, opMaj], fun b _ out => ?_⟩
    rw [ht, lane_cons, lane_nil, eval_maj_one, List.getD_cons_zero]
  · refine evaluates_gate (y := fun xs => (xs.getD 0 0#64 &&& xs.getD 1 0#64) |||
      (xs.getD 0 0#64 &&& xs.getD 2 0#64) ||| (xs.getD 1 0#64 &&& xs.getD 2 0#64)) hout
      (fun xs hlen => ?_)
    obtain ⟨x, y, z, rfl⟩ := List.length_eq_three.mp (hlen.trans hn)
    refine ⟨by simp [evalCell, ht, opMaj], fun b _ out => ?_⟩
    rw [ht, lane_cons, lane_cons, lane_cons, lane_nil, eval_maj_three]
    simp only [List.getD_cons_zero, List.getD_cons_succ, BitVec.getLsbD_or, BitVec.getLsbD_and]

/-- All supported cells are evaluated right; for `MAJ` cells with more than three links, which
are not among them, see `opMajN_laneWise_iff`. -/
theorem evaluates_of_supported (hsupp : cell.Supported types bound) (hin : cell.type ≠ .IN)
    (hsoft : ∀ sid, cell.type = .soft sid → SimulatesType types opCell sid) :
    Evaluates types opCell cell := by
  cases ht : cell.type with
  | IN => exact absurd ht hin
  | OUT | BUF =>
    simp only [SubnetCell.Supported, ht] at hsupp
    refine evaluates_gate (y := fun xs => xs.getD 0 0#64) (by simp [SubnetCell.outputs, ht])
      (fun xs hlen => ?_)
    obtain ⟨x, rfl⟩ := List.length_eq_one_iff.mp (hlen.trans hsupp)
    exact ⟨by simp [evalCell, ht], fun b _ out => by rw [ht]; rfl⟩
  | ZERO =>
    refine evaluates_gate (y := fun _ => 0#64) (by simp [SubnetCell.outputs, ht])
      (fun xs _ => ⟨by simp [evalCell, ht], fun b _ out => ?_⟩)
    rw [ht]
    exact BitVec.getLsbD_zero
  | ONE =>
    refine evaluates_gate (y := fun _ => -1#64) (by simp [SubnetCell.outputs, ht])
      (fun xs _ => ⟨by simp [evalCell, ht], fun b hb out => ?_⟩)
    have hall : (-1#64 : DataChunk) = BitVec.allOnes 64 := rfl
    rw [ht, hall, BitVec.getLsbD_allOnes, decide_eq_true hb]
    rfl
  | AND =>
    refine evaluates_gate (y := opAnd) (by simp [SubnetCell.outputs, ht])
      (fun xs _ => ⟨by simp [evalCell, ht], fun b hb out => ?_⟩)
    rw [ht]
    exact opAnd_lane hb
  | OR =>
    refine evaluates_gate (y := opOr) (by simp [SubnetCell.outputs, ht])
      (fun xs _ => ⟨by simp [evalCell, ht], fun b hb out => ?_⟩)
    rw [ht]
    exact opOr_lane
  | XOR =>
    refine evaluates_gate (y := opXor) (by simp [SubnetCell.outputs, ht])
      (fun xs _ => ⟨by simp [evalCell, ht], fun b hb out => ?_⟩)
    rw [ht]
    exact opXor_lane
  | MAJ =>
    simp only [SubnetCell.Supported, ht] at hsupp
    exact evaluates_maj ht hsupp
  | soft sid =>
    simp only [SubnetCell.Supported, ht] at hsupp
    exact evaluates_soft ht hsupp.2 (hsoft sid ht)
  | NOT | NAND | NOR | XNOR => simp [SubnetCell.Supported, ht] at hsupp

end UtopiaEda.Simulator
