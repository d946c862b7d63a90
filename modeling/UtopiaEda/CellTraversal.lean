import UtopiaEda.GrowingBuilders
import UtopiaEda.Merging

/-!
# Visiting the cells of a builder

The loop from `begin()` to `end()` with `nextCell()`, which skips the entries of additional
links. In a growing builder it visits every cell once, behind the cells it links to.
-/
namespace UtopiaEda
open List

/-- `getNext`, several times. -/
def EntryOrder.advance (o : EntryOrder) : ℕ → Place → Option Place
  | 0, p => some p
  | n + 1, p => do EntryOrder.advance o n (← o.getNext p)

namespace SubnetBuilder

/-- `EntryIterator::nextCell`. -/
def nextCell (s : SubnetBuilder) (i : EntryID) : Option Place := do
  s.order.advance ((← s.getCell i).more + 1) (.entry i)

def walkCells (s : SubnetBuilder) : ℕ → Place → Option (List EntryID)
  | _, .upperBoundID => some []
  | n + 1, .entry i => do some (i :: (← walkCells s n (← s.nextCell i)))
  | _, _ => none

/-- The cells from `begin()` to `end()`. -/
def cellIDs (s : SubnetBuilder) : Option (List EntryID) :=
  s.walkCells (s.size + 1) s.order.getSubnetBegin

/-- The inputs in the order from `begin()` to `end()`. -/
def inputIDs (s : SubnetBuilder) : List EntryID :=
  (s.cellIDs.getD []).filter (fun i => s.getTypeID i = .IN)

/-- The outputs in the order from `begin()` to `end()`. -/
def outputIDs (s : SubnetBuilder) : List EntryID :=
  (s.cellIDs.getD []).filter (fun i => s.getTypeID i = .OUT)

variable {s : SubnetBuilder} {ins mid outs : List EntryID}

open EntryOrder

/-- The entries of the cells `cs`; `more i` are the further entries of the cell `i`. -/
def entriesOf (more : EntryID → List EntryID) (cs : List EntryID) : List EntryID :=
  cs.flatMap (fun i => i :: more i)

private theorem advance_eq {o : EntryOrder} {v : List EntryID} :
    ∀ {es : List EntryID} {i : EntryID} {u : List EntryID}, o.Visits (u ++ i :: es ++ v) →
    o.advance (es.length + 1) (.entry i) = some (after v) := by
  intro es
  induction es with
  | nil =>
    intro i u h
    rw [length_nil, Nat.zero_add, advance, h.next (u := u) (v := v) (by simp)]
    rfl
  | cons e es ih =>
    intro i u h
    rw [advance, h.next (u := u) (v := e :: es ++ v) (by simp)]
    exact ih (u := u ++ [i]) (by simpa using h)

theorem walkCells_eq {more : EntryID → List EntryID} {l : List EntryID}
    (hmore : ∀ i ∈ l, ∃ c, s.getCell i = some c ∧ (more i).length = c.more) :
    ∀ {n : ℕ} {u : List EntryID}, s.order.Visits (u ++ entriesOf more l) → l.length ≤ n →
      s.walkCells n (after (entriesOf more l)) = some l := by
  induction l with
  | nil =>
    intro n u _ _
    cases n <;> rfl
  | cons i l ih =>
    intro n u h hn
    obtain ⟨n, rfl⟩ := Nat.exists_eq_succ_of_ne_zero
      (Nat.ne_of_gt (Nat.lt_of_lt_of_le (Nat.succ_pos _) hn))
    obtain ⟨c, hc, hlen⟩ := hmore i (by simp)
    rw [entriesOf, flatMap_cons, ← append_assoc] at h
    have hnext : s.nextCell i = some (after (entriesOf more l)) := by
      rw [nextCell, hc, Option.bind_eq_bind, Option.bind_some, ← hlen]
      exact advance_eq h
    have hrest := ih (fun j hj => hmore j (by simp [hj])) h (Nat.le_of_succ_le_succ hn)
    rw [entriesOf, flatMap_cons, cons_append, after_cons, walkCells, hnext]
    simp only [Option.bind_eq_bind, Option.bind_some, hrest]

theorem entriesOf_block (l : List EntryID) :
    entriesOf (fun i => (s.block i).tail) l = l.flatMap s.block := by
  apply flatMap_congr
  intro i _
  obtain ⟨n, hn⟩ : ∃ n, s.block i = range' i (n + 1) := by
    cases hg : s.netlist i with
    | none => exact ⟨0, by rw [block, hg]; rfl⟩
    | some g => exact ⟨_, block_of_netlist hg⟩
  simp only [hn, range'_succ, tail_cons]

theorem Grown.cellIDs (h : Grown s ins mid outs) (hne : ins ++ mid ++ outs ≠ []) :
    s.cellIDs = some (ins ++ mid ++ outs) := by
  have hlists := h.lists
  have hne' : (ins ++ mid ++ outs).flatMap s.block ≠ [] := by
    obtain ⟨i, l, hl⟩ := exists_cons_of_ne_nil hne
    rw [hl, flatMap_cons]
    exact append_ne_nil_of_left_ne_nil (ne_nil_of_mem mem_block_self) _
  rw [SubnetBuilder.cellIDs, hlists.getSubnetBegin, if_neg hne', ← entriesOf_block]
  rw [← entriesOf_block] at hlists
  refine walkCells_eq (fun i hi => ?_) (u := []) hlists.visits ?_
  · obtain ⟨g, hg⟩ := Option.isSome_iff_exists.mp ((h.mem i).mp hi)
    obtain ⟨c, hc, ht, hl⟩ := liveCell_of_netlist hg
    refine ⟨c, getCell_of_live hc, ?_⟩
    rw [block_of_netlist hg, length_tail, length_range', Gate.width, Nat.add_sub_cancel,
      SubnetCell.more, SubnetCell.more, SubnetCell.arity, SubnetCell.arity, hl]
  have hsub : ins ++ mid ++ outs ⊆ range s.size := by
    intro i hi
    obtain ⟨g, hg⟩ := Option.isSome_iff_exists.mp ((h.mem i).mp hi)
    exact mem_range.mpr (lt_of_netlist hg)
  have hlen := (h.nodup.subperm hsub).length_le
  rw [length_range] at hlen
  exact Nat.le_succ_of_le hlen

private theorem Grown.cellIDs_getD (h : Grown s ins mid outs) :
    s.cellIDs.getD [] = ins ++ mid ++ outs := by
  by_cases hne : ins ++ mid ++ outs = []
  · have hlists := h.lists
    rw [hne, flatMap_nil] at hlists
    rw [hne, SubnetBuilder.cellIDs, hlists.getSubnetBegin, if_pos rfl]
    rfl
  · rw [h.cellIDs hne, Option.getD_some]

private theorem Grown.typeID_iff (h : Grown s ins mid outs) : ∀ i ∈ ins ++ mid ++ outs,
    (s.getTypeID i = .IN ↔ i ∈ ins) ∧ (s.getTypeID i = .OUT ↔ i ∈ outs) := by
  intro i hi
  obtain ⟨g, hg⟩ := Option.isSome_iff_exists.mp ((h.mem i).mp hi)
  obtain ⟨c, hc, ht, -⟩ := liveCell_of_netlist hg
  rw [getTypeID_of_live hc, ht]
  exact ⟨h.input i g hg, h.output i g hg⟩

theorem Grown.inputIDs_eq (h : Grown s ins mid outs) : s.inputIDs = ins := by
  have hkeep : ∀ i ∈ ins, decide (s.getTypeID i = .IN) = true := fun i hi =>
    decide_eq_true ((h.typeID_iff i (by simp [hi])).1.mpr hi)
  have hdrop : ∀ i ∈ mid ++ outs, ¬ decide (s.getTypeID i = .IN) = true := by
    intro i hi ht
    have hnd := h.nodup
    rw [append_assoc] at hnd
    have hmem : i ∈ ins ++ mid ++ outs := by
      rw [append_assoc]
      exact mem_append_right _ hi
    exact (nodup_append.mp hnd).2.2 i ((h.typeID_iff i hmem).1.mp (of_decide_eq_true ht)) i hi
      rfl
  rw [inputIDs, h.cellIDs_getD, append_assoc, filter_append, filter_eq_self.mpr hkeep,
    filter_eq_nil_iff.mpr hdrop, append_nil]

theorem Grown.outputIDs_eq (h : Grown s ins mid outs) : s.outputIDs = outs := by
  have hkeep : ∀ i ∈ outs, decide (s.getTypeID i = .OUT) = true := fun i hi =>
    decide_eq_true ((h.typeID_iff i (by simp [hi])).2.mpr hi)
  have hdrop : ∀ i ∈ ins ++ mid, ¬ decide (s.getTypeID i = .OUT) = true := by
    intro i hi ht
    have hout := (h.typeID_iff i (mem_append_left _ hi)).2.mp (of_decide_eq_true ht)
    exact (nodup_append.mp h.nodup).2.2 i hi i hout rfl
  rw [outputIDs, h.cellIDs_getD, filter_append, filter_eq_nil_iff.mpr hdrop,
    filter_eq_self.mpr hkeep, nil_append]

end SubnetBuilder

end UtopiaEda
