import UtopiaEda.SimulatorRuns
import UtopiaEda.SubnetEncoding

/-!
# Simulating subnets

The simulator of a subnet, with cells that have subnets of their own: every lane of the outputs
holds the value of the subnet for the lane of the inputs, unless a cell has several outputs.
-/
namespace UtopiaEda

open List
open Option (bind_eq_bind bind_some getD_some isSome_iff_exists map_eq_some_iff map_some some.inj)

namespace Subnet

/-- The subnet has a cell of the type, or a cell with a subnet that has one. -/
inductive Nests (types : List SubnetType) : Subnet → ℕ → Prop
  | cell {S : Subnet} {i : EntryID} {c : SubnetCell} {sid : ℕ} (hc : S.getCell i = some c)
      (ht : c.type = .soft sid) : Nests types S sid
  | nested {S : Subnet} {sid sid' : ℕ} {T : SubnetType} (h : Nests types S sid)
      (hT : types[sid]? = some T) (h' : Nests types T.subnet sid') : Nests types S sid'

def SingleOutputs (types : List SubnetType) (S : Subnet) : Prop :=
  ∀ sid T, Nests types S sid → types[sid]? = some T → T.outNum = 1

variable {types : List SubnetType} {S : Subnet} {bound sid : ℕ} {T : SubnetType} {i : EntryID}
  {c : SubnetCell}

theorem SingleOutputs.of_nests (h : S.SingleOutputs types) (hn : Nests types S sid)
    (hT : types[sid]? = some T) :
    T.subnet.SingleOutputs types := fun _ _ hn' => h _ _ (hn.nested hT hn')

theorem SingleOutputs.outputs (h : S.SingleOutputs types) (hc : S.getCell i = some c)
    (hsupp : c.Supported types bound) : c.outputs types = 1 := by
  unfold SubnetCell.outputs
  split
  · rename_i sid ht
    simp only [SubnetCell.Supported, ht] at hsupp
    obtain ⟨T, hT, -⟩ := map_eq_some_iff.mp hsupp.2
    rw [hT]
    exact h sid T (.cell hc ht) hT
  · rfl

end Subnet

namespace Simulator
open SubnetBuilder EntryOrder

variable {types : List SubnetType} {opCell : Subnet → List DataChunk → Option (List DataChunk)}
  {S : Subnet} {s : SubnetBuilder} {sim : Simulator} {bound : ℕ} {cell c : SubnetCell}
  {i : EntryID} {mid : List EntryID}

private theorem supported_congr (ht : cell.type = c.type) (hl : cell.links = c.links)
    (h : c.Supported types bound) : cell.Supported types bound := by
  unfold SubnetCell.Supported at h ⊢
  rw [ht, hl]
  exact h

private theorem outputs_congr (ht : cell.type = c.type) : cell.outputs types = c.outputs types := by
  unfold SubnetCell.outputs
  rw [ht]

private theorem stateSize_eq : stateSize types cell = cell.outputs types := by
  unfold stateSize SubnetCell.outputs
  cases ht : cell.type <;> simp [SubnetCell.isOut, ht, CellTypeID.getOutNum]
  rfl

private theorem hasFunction_of_supported (hvalid : SubnetType.Valid types)
    (hsupp : cell.Supported types bound) (hin : cell.type ≠ .IN) : hasFunction types cell =
    true := by
  unfold SubnetCell.Supported at hsupp
  cases ht : cell.type with
  | IN => exact absurd ht hin
  | MAJ =>
    simp only [ht] at hsupp
    rcases hsupp with h | h <;> simp [hasFunction, ht, SubnetCell.arity, h]
  | soft sid =>
    simp only [ht] at hsupp
    obtain ⟨T, hT, hn⟩ := map_eq_some_iff.mp hsupp.2
    obtain ⟨hnIn, hnOut, -⟩ := hvalid sid T hT
    simp [hasFunction, ht, hT, SubnetCell.arity, ← hn, hnIn, hnOut]
  | AND | OR | XOR =>
    simp only [ht] at hsupp
    simp [hasFunction, ht, SubnetCell.arity, Nat.one_le_iff_ne_zero.mpr hsupp]
  | OUT | ZERO | ONE | BUF =>
    simp only [ht] at hsupp
    simp [hasFunction, ht, SubnetCell.arity, hsupp]
  | NOT | NAND | NOR | XNOR => simp [ht] at hsupp

def laneInputs (b : ℕ) (xs : List DataChunk) : EntryID → Bool := fun i => (lane b xs).getD i false

def Holds (types : List SubnetType) (S : Subnet) (sim : Simulator) (xs : List DataChunk)
    (state : State) : Prop :=
  ∀ (l : Link) (c : SubnetCell), S.getCell l.idx = some c → l.out < c.outputs types →
    ∃ x, sim.value state l = some x ∧ ∀ b < 64,
      (S.value (SubnetType.library types) (laneInputs b xs) l.idx l.out).map (xor · l.inv) =
        some (x.getLsbD b)

private theorem exists_cell (hnet : s.netlist = S.netlist) (hc : S.getCell i = some c) :
    ∃ cell, s.getCell i = some cell ∧ cell.type = c.type ∧ cell.links = c.links := by
  have hg : s.netlist i = some ⟨c.type, c.links⟩ := by rw [hnet, Subnet.netlist, hc, map_some]
  obtain ⟨cell, hcell, ht, hl⟩ := liveCell_of_netlist hg
  exact ⟨cell, getCell_of_live hcell, ht, hl⟩

private theorem holds_of_agrees {xs : List DataChunk} {state : State} {l : List EntryID}
    {ρ : ℕ → EntryID → ℕ → Bool} (hnet : s.netlist = S.netlist)
    (h : Agrees types s sim ρ state l) (hmem : ∀ i c, S.getCell i = some c → i ∈ l)
    (hval : ∀ b i c, S.getCell i = some c → ∀ out, S.value (SubnetType.library types)
      (laneInputs b xs) i out = some (ρ b i out)) : Holds types S sim xs state := by
  intro k c hc hout
  obtain ⟨cell, hcell, ht, -⟩ := exists_cell hnet hc
  have hsize : sizeOf types s k.idx = c.outputs types := by
    rw [sizeOf, hcell, map_some, getD_some, stateSize_eq, outputs_congr ht]
  obtain ⟨p, hp, hlanes⟩ := h k.idx (hmem k.idx c hc)
  refine ⟨_, by rw [value, hp, map_some], fun b hb => ?_⟩
  have hbit := hlanes k.out (hsize ▸ hout) b hb
  rw [hval b k.idx c hc, map_some]
  cases k.inv with
  | false => rw [if_neg Bool.false_ne_true, hbit, Bool.xor_false]
  | true => rw [if_pos rfl, BitVec.getLsbD_not, hbit, decide_eq_true hb, Bool.true_and,
      Bool.xor_true]

structure Ready (types : List SubnetType) (S : Subnet) (s : SubnetBuilder) (sim : Simulator)
    (mid : List EntryID) : Prop where
  grown : Grown s (range S.nIn) mid ((range S.nOut).map S.getOutIdx)
  net : s.netlist = S.netlist
  compiled : Compiled types s sim (range S.nIn ++ mid ++ (range S.nOut).map S.getOutIdx)

private theorem mem_of_grown (h : Grown s (range S.nIn) mid
    ((range S.nOut).map S.getOutIdx)) (hnet : s.netlist = S.netlist)
    (hc : S.getCell i = some c) : i ∈ range S.nIn ++ mid ++
    (range S.nOut).map S.getOutIdx :=
  (h.mem i).mpr (by rw [hnet, Subnet.netlist, hc]; rfl)

private theorem cell_of_grown (hwf : S.WellFormed)
    (h : Grown s (range S.nIn) mid ((range S.nOut).map S.getOutIdx))
    (hnet : s.netlist = S.netlist) (hi : i ∈ mid ++ (range S.nOut).map S.getOutIdx) :
    ∃ c cell, S.getCell i = some c ∧ c.type ≠ .IN ∧ s.getCell i = some cell ∧ cell.type = c.type ∧
      cell.links = c.links := by
  have hmem : i ∈ range S.nIn ++ mid ++ (range S.nOut).map S.getOutIdx := by
    rw [append_assoc]
    exact mem_append_right _ hi
  obtain ⟨g, hg⟩ := isSome_iff_exists.mp ((h.mem i).mp hmem)
  rw [hnet] at hg
  obtain ⟨c, hc, -⟩ := map_eq_some_iff.mp hg
  obtain ⟨cell, hcell, ht, hl⟩ := exists_cell hnet hc
  refine ⟨c, cell, hc, fun hin => ?_, hcell, ht, hl⟩
  have hnd := h.nodup
  rw [append_assoc] at hnd
  exact (nodup_append.mp hnd).2.2 i (mem_range.mpr ((hwf.input i c hc).mp hin)) i hi rfl

private theorem exists_ready (hvalid : SubnetType.Valid types) (hS : S.Encodable types bound)
    (hne : 0 < S.size) : ∃ s sim mid, ofSubnet types S = some s ∧ make types s = some sim ∧
      sim.inputs = range S.nIn ∧ sim.outputs = (range S.nOut).map S.getOutIdx ∧
      Ready types S s sim mid := by
  obtain ⟨s, mid, hs, hgrown, hnet, -, hnIn, hnOut⟩ := ofSubnet_eq types hS.arranged
  obtain ⟨c₀, hc₀⟩ := isSome_iff_exists.mp (hS.first hne)
  have hnil : range S.nIn ++ mid ++ (range S.nOut).map S.getOutIdx ≠ [] :=
    ne_nil_of_mem (mem_of_grown hgrown hnet hc₀)
  have hfun : ∀ i cell, i ∈ mid ++ (range S.nOut).map S.getOutIdx → s.getCell i = some cell →
      hasFunction types cell = true := by
    intro i cell hi hcell
    obtain ⟨c, cell', hc, hin, hcell', ht, hl⟩ := cell_of_grown hS.wellFormed hgrown hnet hi
    obtain rfl := some.inj (hcell.symm.trans hcell')
    exact hasFunction_of_supported hvalid (supported_congr ht hl (hS.supported i c hc)) (ht ▸ hin)
  obtain ⟨sim, hmake, hcomp, hins, houts⟩ := make_eq hgrown hnil (by rw [hnIn, length_range])
    (by rw [hnOut, length_map, length_range]) hfun
  exact ⟨s, sim, mid, hs, hmake, hins, houts, hgrown, hnet, hcomp⟩

private theorem Ready.input (h : Ready types S s sim mid) (hwf : S.WellFormed) (hi : i < S.nIn) :
    sizeOf types s i = 1 ∧ command s i = none ∧ ∃ c, S.getCell i = some c ∧ c.type = .IN := by
  have hb := hwf.bounds
  obtain ⟨c, hc⟩ := isSome_iff_exists.mp (hwf.ends i (.inl hi)
    (Nat.lt_of_lt_of_le hi (Nat.le_trans (Nat.le_add_right _ _) hb)))
  obtain ⟨cell, hcell, ht, -⟩ := exists_cell h.net hc
  have hin := (hwf.input i c hc).mpr hi
  refine ⟨?_, by simp [command, hcell, SubnetCell.isIn, ht, hin], c, hc, hin⟩
  rw [sizeOf, hcell, map_some, getD_some, stateSize_eq, outputs_congr ht]
  simp [SubnetCell.outputs, hin]

private theorem range_split {j n : ℕ} (h : j < n) : ∃ v, range n = range j ++ j :: v := by
  obtain ⟨k, rfl⟩ := Nat.exists_eq_add_of_lt h
  refine ⟨range' (j + 1) k, ?_⟩
  have hsplit : range' 0 j ++ range' (0 + j) (k + 1) = range' 0 (j + (k + 1)) :=
    range'_append_1
  rw [range_eq_range', range_eq_range', ← range'_succ, Nat.add_assoc, ← hsplit,
    Nat.zero_add]

private theorem Ready.pos_input (h : Ready types S s sim mid) (hwf : S.WellFormed)
    (hi : i < S.nIn) : sim.pos i = some i := by
  obtain ⟨v, hv⟩ := range_split hi
  have hp := h.compiled.pos (range i) i _ (by
    rw [hv, append_assoc, append_assoc, cons_append])
  have hone : ∀ j ∈ range i, sizeOf types s j = 1 := fun j hj =>
    (h.input hwf (Nat.lt_trans (mem_range.mp hj) hi)).1
  have hsum : ∀ n, (replicate n 1).sum = n := by simp
  rw [hp, map_congr_left hone, map_const', hsum, length_range]

private theorem Ready.agrees_inputs (h : Ready types S s sim mid) (hwf : S.WellFormed)
    {xs : List DataChunk} {ρ : ℕ → EntryID → ℕ → Bool}
    (hρ : ∀ b, Netlist.Solves (SubnetType.library types) S.netlist (laneInputs b xs) (ρ b))
    (hlen : xs.length = S.nIn) (state : State) :
    ∃ state', sim.setValues ((range S.nIn).zip xs) state = some state' ∧
      Agrees types s sim ρ state' (range S.nIn) := by
  have hpos : ∀ j (hj : j < (range S.nIn).length), sim.pos (range S.nIn)[j] =
      some (0 + j) := by
    intro j hj
    rw [length_range] at hj
    rw [getElem_range, h.pos_input hwf hj, Nat.zero_add]
  obtain ⟨state', hset, -, hvalues⟩ := setValues_eq hpos (hlen.trans length_range.symm)
  refine ⟨state', hset, fun k hk => ?_⟩
  have hk' := mem_range.mp hk
  obtain ⟨hone, -, c, hc, hin⟩ := h.input hwf hk'
  refine ⟨k, h.pos_input hwf hk', fun out ho b hb => ?_⟩
  have hx := hvalues k (by rw [length_range]; exact hk')
  have hg : S.netlist k = some ⟨c.type, c.links⟩ := by rw [Subnet.netlist, hc, map_some]
  have hzero : (0#64 : DataChunk).getLsbD b = false := BitVec.getLsbD_zero
  rw [Nat.zero_add] at hx
  rw [hone, Nat.lt_one_iff] at ho
  rw [ho, Nat.add_zero, hx, hρ b k _ hg, Netlist.gateValue, if_pos hin, laneInputs, lane, ← hzero,
    getD_map]

private theorem Ready.runnable (h : Ready types S s sim mid) (hS : S.Encodable types bound)
    (hone : S.SingleOutputs types) {inputs : ℕ → EntryID → Bool} {ρ : ℕ → EntryID → ℕ → Bool}
    (hρ : ∀ b, Netlist.Solves (SubnetType.library types) S.netlist (inputs b) (ρ b))
    (hop : ∀ sid < bound, S.Nests types sid → SimulatesType types opCell sid) {C D : List EntryID}
    (hB : mid ++ (range S.nOut).map S.getOutIdx = C ++ i :: D) :
    ∃ cell, s.getCell i = some cell ∧ cell.isIn = false ∧
      Runnable types opCell s ρ i (range S.nIn ++ C) cell := by
  have hwf := hS.wellFormed
  have hi : i ∈ mid ++ (range S.nOut).map S.getOutIdx := by
    rw [hB]
    exact mem_append_right _ (mem_cons_self ..)
  obtain ⟨c, cell, hc, hin, hcell, ht, hl⟩ := cell_of_grown hwf h.grown h.net hi
  have hg : S.netlist i = some ⟨c.type, c.links⟩ := by rw [Subnet.netlist, hc, map_some]
  have hsupp := supported_congr ht hl (hS.supported i c hc)
  refine ⟨cell, hcell, by simp [SubnetCell.isIn, ht, hin], ?_, stateSize_eq, ?_, fun k hk => ?_,
    fun b hb => ?_⟩
  · refine evaluates_of_supported hsupp (ht ▸ hin)
      (fun sid hsid => hop sid ?_ (.cell hc (ht ▸ hsid)))
    simp only [SubnetCell.Supported, hsid] at hsupp
    exact hsupp.1
  · rw [outputs_congr ht, hone.outputs hc (hS.supported i c hc)]
  · rw [hl] at hk
    have hfan : s.netlist.Fanin i k.idx := by
      rw [h.net]
      exact ⟨_, hg, k, hk, rfl⟩
    refine ⟨h.grown.fanin_before (by rw [append_assoc, hB, append_assoc]) hfan, ?_⟩
    obtain ⟨-, c', hc', -⟩ := hwf.links i c hc k hk
    obtain ⟨cell', hcell', ht', -⟩ := exists_cell h.net hc'
    rw [sizeOf, hcell', map_some, getD_some, stateSize_eq, outputs_congr ht']
    exact hS.ports i c hc k hk c' hc'
  · rw [hρ b i _ hg]
    funext out
    rw [Netlist.gateValue, if_neg hin, ht, hl]

private theorem Ready.program (h : Ready types S s sim mid) (hwf : S.WellFormed) :
    sim.program = (mid ++ (range S.nOut).map S.getOutIdx).filterMap (command s) := by
  have hnone : (range S.nIn).filterMap (command s) = [] :=
    filterMap_eq_nil_iff.mpr (fun i hi => (h.input hwf (mem_range.mp hi)).2.1)
  rw [h.compiled.program, append_assoc, filterMap_append, hnone, nil_append]

theorem exists_simulator (hvalid : SubnetType.Valid types) (hS : S.Encodable types bound)
    (hone : S.SingleOutputs types) (hne : 0 < S.size) (hop : ∀ sid < bound, S.Nests types sid →
    SimulatesType types opCell sid) : ∃ s sim, ofSubnet types S = some s ∧ make types s = some sim ∧
      sim.inputs = range S.nIn ∧ sim.outputs = (range S.nOut).map S.getOutIdx ∧
      ∀ (xs : List DataChunk) (state : State), xs.length = S.nIn → ∃ state₁ state₂,
        sim.setValues ((range S.nIn).zip xs) state = some state₁ ∧
        simulate types opCell sim sim.program state₁ = some state₂ ∧
        Holds types S sim xs state₂ := by
  have hwf := hS.wellFormed
  obtain ⟨s, sim, mid, hs, hmake, hins, houts, h⟩ := exists_ready hvalid hS hne
  refine ⟨s, sim, hs, hmake, hins, houts, fun xs state hlen => ?_⟩
  choose ρ hρ hval using fun b => hwf.exists_values (SubnetType.library types) (laneInputs b xs)
  obtain ⟨state₁, hset, hagrees⟩ := h.agrees_inputs hwf hρ hlen state
  obtain ⟨state₂, hrun, hdone⟩ := hagrees.run h.compiled (append_assoc _ _ _)
    (fun C i D hB => h.runnable hS hone hρ hop hB)
  refine ⟨state₁, state₂, hset, ?_, holds_of_agrees h.net hdone
    (fun i c hc => mem_of_grown h.grown h.net hc) hval⟩
  rw [h.program hwf]
  exact hrun

private theorem simulatesType_of_inner (hvalid : SubnetType.Valid types) {sid : ℕ}
    (hone : ∀ T, types[sid]? = some T → T.subnet.SingleOutputs types)
    (hop : ∀ T, types[sid]? = some T → ∀ sid' < sid, T.subnet.Nests types sid' →
      SimulatesType types opCell sid') :
    SimulatesType types (simulateSubnet types opCell) sid := by
  intro T hT xs hlen
  obtain ⟨hnIn, hnOut, hpos, hS⟩ := hvalid sid T hT
  have hwf := hS.wellFormed
  have hb := hwf.bounds
  obtain ⟨s, sim, hs, hmake, -, -, hsim⟩ :=
    exists_simulator hvalid hS (hone T hT) (by omega) (hop T hT)
  obtain ⟨state₁, state₂, hset, hrun, hholds⟩ := hsim xs (fun _ => 0#64) (hlen.trans hnIn)
  obtain ⟨f, hf⟩ := exists_outLinks hwf
  have hvalue : ∀ k, ∃ x, k < T.subnet.nOut → sim.value state₂ (f k) = some x ∧ ∀ b < 64,
      T.subnet.value (SubnetType.library types) (laneInputs b xs) (T.subnet.getOutIdx k) 0 =
        some (x.getLsbD b) := by
    intro k
    by_cases hk : k < T.subnet.nOut
    · obtain ⟨-, c, hc, ht, hl⟩ := hf k hk
      obtain ⟨-, c', hc', -⟩ := hwf.links _ c hc (f k) (by rw [hl]; exact mem_singleton_self _)
      obtain ⟨x, hx, hbits⟩ := hholds (f k) c' hc'
        (hS.ports _ c hc (f k) (by rw [hl]; exact mem_singleton_self _) c' hc')
      refine ⟨x, fun _ => ⟨hx, fun b hb => ?_⟩⟩
      obtain ⟨ρ, -, hval⟩ := hwf.exists_values (SubnetType.library types) (laneInputs b xs)
      have hbit := hbits b hb
      rw [hval _ c' hc', map_some] at hbit
      have hlinks : ∀ l ∈ c.links, T.subnet.value (SubnetType.library types) (laneInputs b xs) l.idx
          l.out = some (ρ l.idx l.out) := by
        intro l hmem
        rw [hl] at hmem
        rw [mem_singleton.mp hmem]
        exact hval _ c' hc' _
      rw [hwf.value_of_links hc hlinks, ht, if_neg (by decide), hl, ← hbit]
      rfl
    · exact ⟨0#64, fun h => absurd h hk⟩
  choose v hv using hvalue
  have hys : (range T.subnet.nOut).mapM (fun k => do sim.value state₂ (← T.subnet.getOut k)) =
      some ((range T.subnet.nOut).map v) := by
    apply Netlist.mapM_eq_some
    intro k hk
    have hk := mem_range.mp hk
    rw [(hf k hk).1]
    exact (hv k hk).1
  refine ⟨(range T.subnet.nOut).map v, ?_, ?_, fun b hb out ho => ?_⟩
  · have hlen' : ¬ xs.length < T.subnet.nIn := Nat.not_lt.mpr (Nat.le_of_eq (hlen.trans hnIn).symm)
    rw [simulateSubnet, hs, bind_eq_bind, bind_some, hmake, bind_eq_bind,
      bind_some, if_neg hlen', hset, bind_eq_bind, bind_some, hrun,
      bind_eq_bind, bind_some]
    exact hys
  · rw [length_map, length_range, hnOut]
  · rw [hnOut] at ho
    have hget : ((range T.subnet.nOut).map v).getD out 0#64 = v out := by
      rw [getD_eq_getElem _ _ (by simpa using ho), getElem_map, getElem_range]
    have hbit := (hv out ho).2 b hb
    unfold laneInputs at hbit
    rw [hvalid.consistent.library_eval hT, hbit, hget, getD_some]

/-- `opCell` is right for all types, whatever their nesting, if no cell inside has several
outputs. -/
theorem opCell_simulates (hvalid : SubnetType.Valid types) : ∀ {d sid : ℕ}, sid ≤ d →
    (∀ T, types[sid]? = some T → T.subnet.SingleOutputs types) →
    SimulatesType types (Simulator.opCell types d) sid := by
  intro d
  induction d with
  | zero =>
    intro sid h hone
    obtain rfl := Nat.le_zero.mp h
    exact simulatesType_of_inner hvalid hone (fun _ _ sid' hlt => absurd hlt (Nat.not_lt_zero sid'))
  | succ d ih =>
    intro sid h hone
    refine simulatesType_of_inner hvalid hone (fun T hT sid' hlt hn => ?_)
    exact ih (Nat.le_of_lt_succ (Nat.lt_of_lt_of_le hlt h))
      (fun T' hT' => (hone T hT).of_nests hn hT')

theorem simulateValues_eq (hvalid : SubnetType.Valid types) (hS : S.Encodable types types.length)
    (hone : S.SingleOutputs types) (hout : 0 < S.nOut) : ∃ s sim, ofSubnet types S = some s ∧
    make types s = some sim ∧
      ∀ (values : List DataChunk) (state : State), values.length = S.nIn → ∃ state',
        simulateValues types sim values state = some state' ∧ ∀ k < S.nOut, ∃ x,
          getOutput sim state' k = some x ∧ ∀ b < 64, S.value (SubnetType.library types)
            (laneInputs b values) (S.getOutIdx k) 0 = some (x.getLsbD b) := by
  have hwf := hS.wellFormed
  have hb := hwf.bounds
  obtain ⟨s, sim, hs, hmake, hins, houts, hsim⟩ := exists_simulator hvalid hS hone (by omega)
    (fun sid hlt hn => opCell_simulates hvalid (Nat.le_of_lt hlt) (fun T hT => hone.of_nests hn hT))
  refine ⟨s, sim, hs, hmake, fun values state hlen => ?_⟩
  obtain ⟨state₁, state₂, hset, hrun, hholds⟩ := hsim values state hlen
  refine ⟨state₂, ?_, fun k hk => ?_⟩
  · rw [simulateValues, hins, length_range, if_pos hlen, hset]
    exact hrun
  · obtain ⟨f, hf⟩ := exists_outLinks hwf
    obtain ⟨-, c, hc, ht, -⟩ := hf k hk
    have hone : 0 < c.outputs types := by simp [SubnetCell.outputs, ht]
    obtain ⟨x, hx, hbits⟩ := hholds ⟨S.getOutIdx k, 0, false⟩ c hc hone
    have hget : sim.outputs[k]? = some (S.getOutIdx k) := by
      rw [houts, getElem?_map, getElem?_range hk, map_some]
    refine ⟨x, ?_, fun b hb => ?_⟩
    · rw [getOutput, hget]
      exact hx
    · have hbit := hbits b hb
      simpa using hbit

/-- After the simulation every output of every cell holds in each lane the value of the subnet for
the lane of the inputs. -/
def Faithful (types : List SubnetType) (S : Subnet) : Prop :=
  ∃ s sim, ofSubnet types S = some s ∧ make types s = some sim ∧
    ∀ (values : List DataChunk) (state : State), values.length = S.nIn → ∃ state',
      simulateValues types sim values state = some state' ∧
      ∀ i c, S.getCell i = some c → ∀ out < c.outputs types, ∃ x,
        sim.value state' ⟨i, out, false⟩ = some x ∧ ∀ b < 64, S.value (SubnetType.library types)
          (laneInputs b values) i out = some (x.getLsbD b)

end Simulator

end UtopiaEda
