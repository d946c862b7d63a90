import UtopiaEda.SimulatorLanes
import Mathlib.Algebra.GroupWithZero.Nat

/-!
# Runs of the simulator

A run executes the commands in the order of the cells, which is topological. Behind each command
the vector of values agrees with the values of the cells executed so far, in every lane.
-/
namespace UtopiaEda.Simulator
open SubnetBuilder EntryOrder List
open Option (bind_eq_bind bind_some some.inj)

variable {types : List SubnetType} {opCell : Subnet → List DataChunk → Option (List DataChunk)}
  {s : SubnetBuilder} {sim : Simulator} {l A B : List EntryID} {i : EntryID} {state : State}
  {ρ : ℕ → EntryID → ℕ → Bool} {ins mid outs : List EntryID}

def sizeOf (types : List SubnetType) (s : SubnetBuilder) (i : EntryID) : ℕ :=
  ((s.getCell i).map (stateSize types)).getD 0

def command (s : SubnetBuilder) (i : EntryID) : Option (EntryID × SubnetCell) :=
  (s.getCell i).bind (fun cell => if cell.isIn then none else some (i, cell))

structure Compiled (types : List SubnetType) (s : SubnetBuilder) (sim : Simulator)
    (l : List EntryID) : Prop where
  program : sim.program = l.filterMap (command s)
  pos : ∀ A i B, l = A ++ i :: B → sim.pos i = some (A.map (sizeOf types s)).sum

private theorem compile_eq (hnd : l.Nodup) (hl : ∀ i ∈ l, ∃ cell, s.getCell i = some cell ∧
    (cell.isIn ∨ hasFunction types cell)) : ∀ (p : ℕ) (pos : EntryID → Option ℕ), ∃ pos',
      compile types s l p pos = some (l.filterMap (command s), pos') ∧
      (∀ i ∉ l, pos' i = pos i) ∧
      ∀ A i B, l = A ++ i :: B → pos' i = some (p + (A.map (sizeOf types s)).sum) := by
  induction l with
  | nil => exact fun p pos => ⟨pos, rfl, fun _ _ => rfl, fun A i B h => by simp at h⟩
  | cons i l ih =>
    intro p pos
    obtain ⟨hi, hnd⟩ := nodup_cons.mp hnd
    obtain ⟨cell, hc, hf⟩ := hl i (by simp)
    obtain ⟨pos', heq, hother, hpos⟩ := ih hnd (fun j hj => hl j (by simp [hj]))
      (p + stateSize types cell) (Function.update pos i (some p))
    refine ⟨pos', ?_, fun j hj => ?_, fun A j B h => ?_⟩
    · rw [compile, hc]
      simp only [bind_eq_bind, bind_some, if_pos hf, heq, filterMap_cons, command,
        hc]
      by_cases hin : cell.isIn = true
      · simp only [hin, if_true]
      · simp only [hin]
        rfl
    · rw [hother j (fun hm => hj (by simp [hm])),
        Function.update_of_ne (fun he => hj (by simp [he]))]
    · cases A with
      | nil =>
        obtain ⟨rfl, rfl⟩ := cons.inj h
        rw [hother i hi, Function.update_self]
        rfl
      | cons k A =>
        obtain ⟨rfl, rfl⟩ := cons.inj h
        have hsize : sizeOf types s i = stateSize types cell := by rw [sizeOf, hc]; rfl
        rw [hpos A j B rfl, map_cons, sum_cons, hsize, Nat.add_assoc]

/-- The ranges of the cells before a cell end before its range. -/
theorem Compiled.pos_add_le (h : Compiled types s sim l) (hl : l = A ++ i :: B) {k : EntryID}
    (hk : k ∈ A) : ∃ p q, sim.pos k = some p ∧ sim.pos i = some q ∧ p + sizeOf types s k ≤ q := by
  obtain ⟨C, D, rfl⟩ := append_of_mem hk
  have hposk := h.pos C k (D ++ i :: B) (by rw [hl, append_assoc, cons_append])
  refine ⟨_, _, hposk, h.pos _ i B hl, ?_⟩
  simp only [map_append, map_cons, sum_append, sum_cons]
  omega

def Agrees (types : List SubnetType) (s : SubnetBuilder) (sim : Simulator)
    (ρ : ℕ → EntryID → ℕ → Bool) (state : State) (A : List EntryID) : Prop :=
  ∀ k ∈ A, ∃ p, sim.pos k = some p ∧ ∀ out < sizeOf types s k, ∀ b < 64,
    (state (p + out)).getLsbD b = ρ b k out

theorem write_of_ne {ys : List DataChunk} {p q : ℕ} (h : q ≠ p) : write state p ys q = state q := by
  induction ys generalizing state with
  | nil => rfl
  | cons y ys ih =>
    change write (Function.update state p y) p ys q = state q
    rw [ih, Function.update_of_ne h]

theorem write_singleton (state : State) (p : ℕ) (y : DataChunk) : write state p [y] p = y :=
  Function.update_self ..

theorem Agrees.step (h : Agrees types s sim ρ state A) (hc : Compiled types s sim l)
    (hl : l = A ++ i :: B) {cell : SubnetCell} (hcell : s.getCell i = some cell)
    (hev : Evaluates types opCell cell) (hsize : stateSize types cell = cell.outputs types)
    (hsingle : cell.outputs types = 1)
    (hlinks : ∀ k ∈ cell.links, k.idx ∈ A ∧ k.out < sizeOf types s k.idx)
    (hρ : ∀ b < 64, ρ b i = cell.type.eval (SubnetType.library types)
      (cell.links.map (Link.value (ρ b)))) (program : List (EntryID × SubnetCell)) :
    ∃ state', simulate types opCell sim ((i, cell) :: program) state =
      simulate types opCell sim program state' ∧ Agrees types s sim ρ state' (A ++ [i]) := by
  have hvalue : ∀ k ∈ cell.links, ∃ x, sim.value state k = some x ∧
      ∀ b < 64, x.getLsbD b = k.value (ρ b) := by
    intro k hk
    obtain ⟨hkA, hout⟩ := hlinks k hk
    obtain ⟨p, hp, hlanes⟩ := h k.idx hkA
    refine ⟨_, by rw [value, hp, Option.map_some], fun b hb => ?_⟩
    have hbit := hlanes k.out hout b hb
    rw [Link.value]
    cases k.inv with
    | false => simp [hbit]
    | true => rw [if_pos rfl, BitVec.getLsbD_not, hbit, decide_eq_true hb, Bool.true_and,
        Bool.xor_true]
  have hex : ∀ k, ∃ x, k ∈ cell.links → sim.value state k = some x ∧
      ∀ b < 64, x.getLsbD b = k.value (ρ b) := by
    intro k
    by_cases hk : k ∈ cell.links
    · obtain ⟨x, hx⟩ := hvalue k hk
      exact ⟨x, fun _ => hx⟩
    · exact ⟨0#64, fun hk' => absurd hk' hk⟩
  choose v hv using hex
  have hxs : cell.links.mapM (sim.value state) = some (cell.links.map v) :=
    Netlist.mapM_eq_some (fun k hk => (hv k hk).1)
  obtain ⟨ys, hys, hlen, hlanes⟩ := hev (cell.links.map v) (length_map _)
  obtain ⟨y, rfl⟩ := length_eq_one_iff.mp (hlen.trans hsingle)
  obtain ⟨q, hq⟩ : ∃ q, sim.pos i = some q := ⟨_, hc.pos A i B hl⟩
  refine ⟨write state q [y], ?_, fun k hk => ?_⟩
  · rw [simulate, hxs]
    simp only [bind_eq_bind, bind_some, hys, hq]
  · have hsizei : sizeOf types s i = 1 := by rw [← hsingle, ← hsize, sizeOf, hcell]; rfl
    rcases mem_append.mp hk with hk | hk
    · obtain ⟨p, hp, hbits⟩ := h k hk
      obtain ⟨p', q', hp', hq', hle⟩ := hc.pos_add_le hl hk
      obtain rfl : p = p' := some.inj (hp.symm.trans hp')
      obtain rfl : q = q' := some.inj (hq.symm.trans hq')
      refine ⟨p, hp, fun out ho b hb => ?_⟩
      rw [write_of_ne (Nat.ne_of_lt (Nat.lt_of_lt_of_le (Nat.add_lt_add_left ho p) hle))]
      exact hbits out ho b hb
    · obtain rfl := mem_singleton.mp hk
      refine ⟨_, hq, fun out ho b hb => ?_⟩
      have hmap : lane b (cell.links.map v) = cell.links.map (Link.value (ρ b)) := by
        rw [lane, map_map]
        exact map_congr_left (fun k hk => (hv k hk).2 b hb)
      rw [hsizei, Nat.lt_one_iff] at ho
      have hbit := hlanes b hb 0 (hsingle ▸ Nat.one_pos)
      rw [ho, Nat.add_zero, write_singleton, hρ b hb, ← hmap, ← hbit]
      rfl

structure Runnable (types : List SubnetType)
    (opCell : Subnet → List DataChunk → Option (List DataChunk)) (s : SubnetBuilder)
    (ρ : ℕ → EntryID → ℕ → Bool) (i : EntryID) (A : List EntryID) (cell : SubnetCell) : Prop where
  evaluates : Evaluates types opCell cell
  size : stateSize types cell = cell.outputs types
  single : cell.outputs types = 1
  links : ∀ k ∈ cell.links, k.idx ∈ A ∧ k.out < sizeOf types s k.idx
  solves : ∀ b < 64, ρ b i = cell.type.eval (SubnetType.library types)
    (cell.links.map (Link.value (ρ b)))

theorem Agrees.run (hc : Compiled types s sim l) : ∀ {B A : List EntryID} {state : State},
    l = A ++ B → Agrees types s sim ρ state A →
    (∀ C i D, B = C ++ i :: D → ∃ cell, s.getCell i = some cell ∧ cell.isIn = false ∧
      Runnable types opCell s ρ i (A ++ C) cell) →
    ∃ state', simulate types opCell sim (B.filterMap (command s)) state = some state' ∧
      Agrees types s sim ρ state' l := by
  intro B
  induction B with
  | nil =>
    intro A state hl h _
    rw [append_nil] at hl
    exact ⟨state, rfl, hl ▸ h⟩
  | cons i B ih =>
    intro A state hl h hcells
    obtain ⟨cell, hcell, hin, hrun⟩ := hcells [] i B rfl
    rw [append_nil] at hrun
    obtain ⟨state₁, heq, h₁⟩ :=
      h.step hc hl hcell hrun.evaluates hrun.size hrun.single hrun.links hrun.solves
      (B.filterMap (command s))
    obtain ⟨state₂, heq₂, h₂⟩ := ih (by rw [hl, append_assoc]; rfl) h₁ (fun C j D hB => by
      have := hcells (i :: C) j D (by rw [hB]; rfl)
      rwa [append_assoc])
    refine ⟨state₂, ?_, h₂⟩
    have hcommand : command s i = some (i, cell) := by simp [command, hcell, hin]
    rw [filterMap_cons_some hcommand, heq, heq₂]

theorem setValues_eq {xs : List DataChunk} : ∀ {is : List EntryID} {p : ℕ} {state : State},
    (∀ j (h : j < is.length), sim.pos is[j] = some (p + j)) → xs.length = is.length →
    ∃ state', sim.setValues (is.zip xs) state = some state' ∧ (∀ q < p, state' q = state q) ∧
      ∀ j < is.length, state' (p + j) = xs.getD j 0#64 := by
  induction xs with
  | nil =>
    intro is p state _ hlen
    obtain rfl := eq_nil_of_length_eq_zero hlen.symm
    exact ⟨state, rfl, fun _ _ => rfl, fun j hj => absurd hj (Nat.not_lt_zero j)⟩
  | cons x xs ih =>
    intro is p state hpos hlen
    cases is with
    | nil => simp at hlen
    | cons i is =>
      have hi : sim.pos i = some p := hpos 0 (Nat.succ_pos _)
      obtain ⟨state', heq, hbelow, hset⟩ := @ih is (p + 1) (Function.update state p x)
        (fun j hj => by
          have hj' := hpos (j + 1) (Nat.succ_lt_succ hj)
          rw [getElem_cons_succ] at hj'
          rw [hj', Nat.add_assoc, Nat.add_comm 1 j]) (Nat.succ.inj hlen)
      refine ⟨state', ?_, fun q hq => ?_, fun j hj => ?_⟩
      · rw [zip_cons_cons, setValues, hi]
        exact heq
      · rw [hbelow q (Nat.lt_succ_of_lt hq), Function.update_of_ne (Nat.ne_of_lt hq)]
      · cases j with
        | zero =>
          rw [Nat.add_zero, hbelow p (Nat.lt_succ_self p), Function.update_self]
          rfl
        | succ j =>
          rw [Nat.add_comm j 1, ← Nat.add_assoc, hset j (Nat.lt_of_succ_lt_succ hj),
            Nat.add_comm 1 j]
          rfl

private theorem viewInputs_eq {v : List EntryID}
    (hins : ∀ i ∈ ins, ∃ cell, s.getCell i = some cell ∧ cell.isIn = true) : ∀ {u : List EntryID},
    s.order.Lists (u ++ (ins ++ v)) →
      s.viewInputs ins.length (some (after (ins ++ v))) = some ins := by
  induction ins with
  | nil => exact fun _ => rfl
  | cons i ins ih =>
    intro u h
    obtain ⟨cell, hc, hin⟩ := hins i (by simp)
    have hlists : s.order.Lists ((u ++ [i]) ++ (ins ++ v)) := by simpa using h
    have hnext := hlists.getNext
    rw [before_concat] at hnext
    have hrest := ih (fun j hj => hins j (by simp [hj])) hlists
    rw [cons_append, after_cons, length_cons, viewInputs, hc, bind_eq_bind,
      bind_some, if_pos hin, hnext, hrest]
    rfl

private theorem viewOutputs_eq (houts : ∀ i ∈ outs, ∃ cell, s.getCell i = some cell ∧
    cell.isOut = true) : ∀ {u v : List EntryID}, s.order.Lists (u ++ outs ++ v) →
      s.viewOutputs outs.length (some (before (u ++ outs))) = some outs := by
  induction outs using reverseRecOn with
  | nil => exact fun _ => rfl
  | append_singleton outs i ih =>
    intro u v h
    obtain ⟨cell, hc, hout⟩ := houts i (by simp)
    have hlists : s.order.Lists ((u ++ outs) ++ (i :: v)) := by simpa using h
    have hprev := hlists.getPrev
    rw [after_cons] at hprev
    have hrest := ih (fun j hj => houts j (by simp [hj])) hlists
    rw [← append_assoc, before_concat, length_append, length_singleton, viewOutputs, hc,
      bind_eq_bind, bind_some, if_pos hout, hprev, hrest]
    rfl

theorem view_eq (h : Grown s ins mid outs) (hin : s.nIn = ins.length)
    (hout : s.nOut = outs.length) : s.viewInputs s.nIn (some s.order.getSubnetBegin) = some ins ∧
      s.viewOutputs s.nOut (s.order.getPrev .upperBoundID) = some outs := by
  obtain ⟨dep, hlay, -⟩ := h.layered
  have hlists := hlay.lists
  have hcell : ∀ i ∈ ins ++ mid ++ outs, ∃ g cell, s.netlist i = some g ∧ s.getCell i = some cell ∧
      cell.type = g.type := by
    intro i hi
    obtain ⟨g, hg⟩ := Option.isSome_iff_exists.mp ((h.mem i).mp hi)
    obtain ⟨c, hc, ht, -⟩ := liveCell_of_netlist hg
    exact ⟨g, c, hg, getCell_of_live hc, ht⟩
  have hins : ∀ i ∈ ins, ∃ cell, s.getCell i = some cell ∧ cell.isIn = true := by
    intro i hi
    obtain ⟨g, cell, hg, hc, ht⟩ := hcell i (by simp [hi])
    refine ⟨cell, hc, ?_⟩
    rw [SubnetCell.isIn, ht, (h.input i g hg).mpr hi]
    rfl
  have houts : ∀ i ∈ outs, ∃ cell, s.getCell i = some cell ∧ cell.isOut = true := by
    intro i hi
    obtain ⟨g, cell, hg, hc, ht⟩ := hcell i (by simp [hi])
    refine ⟨cell, hc, ?_⟩
    rw [SubnetCell.isOut, ht, (h.output i g hg).mpr hi]
    rfl
  constructor
  · have hview := viewInputs_eq (v := mid.flatMap s.block ++ outs) hins (u := [])
      (by simpa using hlists)
    rw [hin, hlists.getSubnetBegin]
    split
    · rename_i hnil
      have hnil' : ins = [] := by simp_all
      rw [hnil']
      rfl
    · rw [append_assoc, hview]
  · have hlists' : s.order.Lists (ins ++ mid.flatMap s.block ++ outs ++ []) := by simpa using hlists
    have hview := viewOutputs_eq houts hlists'
    have hprev := hlists'.getPrev
    rw [after_nil] at hprev
    rw [hout, hprev, hview]

theorem make_eq (h : Grown s ins mid outs) (hne : ins ++ mid ++ outs ≠ [])
    (hin : s.nIn = ins.length) (hout : s.nOut = outs.length)
    (hcells : ∀ i cell, i ∈ mid ++ outs → s.getCell i = some cell → hasFunction types cell = true) :
    ∃ sim, make types s = some sim ∧ Compiled types s sim (ins ++ mid ++ outs) ∧
      sim.inputs = ins ∧ sim.outputs = outs := by
  have hgate : ∀ i ∈ ins ++ mid ++ outs, ∃ g cell, s.netlist i = some g ∧ s.getCell i = some cell ∧
      cell.type = g.type := by
    intro i hi
    obtain ⟨g, hg⟩ := Option.isSome_iff_exists.mp ((h.mem i).mp hi)
    obtain ⟨c, hc, ht, -⟩ := liveCell_of_netlist hg
    exact ⟨g, c, hg, getCell_of_live hc, ht⟩
  have hins : ∀ i ∈ ins, ∃ cell, s.getCell i = some cell ∧ cell.isIn = true := by
    intro i hi
    obtain ⟨g, cell, hg, hc, ht⟩ := hgate i (by simp [hi])
    refine ⟨cell, hc, ?_⟩
    rw [SubnetCell.isIn, ht, (h.input i g hg).mpr hi]
    rfl
  obtain ⟨pos, heq, -, hpos⟩ := compile_eq h.nodup (fun i hi => by
    obtain ⟨g, cell, -, hc, -⟩ := hgate i hi
    refine ⟨cell, hc, ?_⟩
    rw [append_assoc] at hi
    rcases mem_append.mp hi with hi | hi
    · obtain ⟨cell', hc', hin'⟩ := hins i hi
      obtain rfl := some.inj (hc.symm.trans hc')
      exact .inl hin'
    · exact .inr (hcells i cell hi hc)) 0 (fun _ => none)
  obtain ⟨hbegin, hend⟩ := view_eq h hin hout
  refine ⟨⟨_, pos, ins, outs⟩, ?_, ⟨rfl, fun A i B hl => ?_⟩, rfl, rfl⟩
  · rw [make, h.cellIDs hne]
    simp only [bind_eq_bind, bind_some, heq, hbegin, hend]
  · have hp := hpos A i B hl
    rwa [Nat.zero_add] at hp

end UtopiaEda.Simulator
