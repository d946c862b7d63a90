import UtopiaEda.CellTraversal

/-!
# Builders in order

What every builder should be, however its cells were added, deleted or placed: the order leads
through the live cells, inputs first and outputs last, each with its further entries behind it and
behind the cells it links to. Identifiers may have been used again, and the order need not be the
one of the array.
-/
namespace UtopiaEda
open List

namespace SubnetBuilder
open EntryOrder

variable {s : SubnetBuilder} {more : EntryID → List EntryID} {ins mid outs : List EntryID}
  {i j e : EntryID} {c : SubnetCell} {ps rest cs : List EntryID}

@[simp] theorem entriesOf_nil : entriesOf more [] = [] := rfl

@[simp] theorem entriesOf_cons : entriesOf more (i :: cs) = i :: more i ++ entriesOf more cs := rfl

@[simp] theorem entriesOf_append :
    entriesOf more (ps ++ rest) = entriesOf more ps ++ entriesOf more rest :=
  flatMap_append

theorem mem_entriesOf : e ∈ entriesOf more cs ↔ ∃ i ∈ cs, e ∈ i :: more i := mem_flatMap

theorem mem_entriesOf_self (h : i ∈ cs) : i ∈ entriesOf more cs :=
  mem_entriesOf.mpr ⟨i, h, mem_cons_self ..⟩

theorem entriesOf_eq_self (h : ∀ i ∈ cs, more i = []) : entriesOf more cs = cs := by
  induction cs with
  | nil => rfl
  | cons i cs ih => simp [h i (by simp), ih (fun j hj => h j (by simp [hj]))]

structure Ordered (s : SubnetBuilder) (more : EntryID → List EntryID)
    (ins mid outs : List EntryID) : Prop where
  visits : s.order.Visits (entriesOf more (ins ++ mid ++ outs))
  mem : ∀ i, i ∈ ins ++ mid ++ outs ↔ (s.liveCell i).isSome
  stored : ∀ i c, s.liveCell i = some c → Stored s.entries (more i) (c.links.drop InPlaceLinks)
  fanins : ∀ ps i rest c, ins ++ mid ++ outs = ps ++ i :: rest → s.liveCell i = some c →
    ∀ l ∈ c.links, l.idx ∈ ps
  input : ∀ i c, s.liveCell i = some c → (c.type = .IN ↔ i ∈ ins)
  output : ∀ i c, s.liveCell i = some c → (c.type = .OUT ↔ i ∈ outs)
  noLinks : ∀ i c, s.liveCell i = some c → c.type = .IN → c.links = []
  outLink : ∀ i c, s.liveCell i = some c → c.type = .OUT → c.links.length = 1
  bufLink : ∀ i c, s.liveCell i = some c → c.type = .BUF → c.links.length = 1
  bufPort : ∀ i c, s.liveCell i = some c → ∀ l ∈ c.links, s.getTypeID l.idx = .BUF → l.out = 0
  nIn : s.nIn = ins.length
  nOut : s.nOut = outs.length

namespace Ordered

variable (h : Ordered s more ins mid outs)
include h

theorem exists_live (hi : i ∈ ins ++ mid ++ outs) : ∃ c, s.liveCell i = some c :=
  Option.isSome_iff_exists.mp ((h.mem i).mp hi)

theorem mem_of_live (hc : s.liveCell i = some c) : i ∈ ins ++ mid ++ outs :=
  (h.mem i).mpr (by rw [hc]; rfl)

theorem nodup : (ins ++ mid ++ outs).Nodup := by
  refine List.Nodup.sublist ?_ h.visits.nodup
  generalize ins ++ mid ++ outs = cs
  induction cs with
  | nil => exact List.Sublist.refl _
  | cons i cs ih => exact List.Sublist.cons_cons i (ih.trans (sublist_append_right ..))

/-- Cells with few links have no further entries. -/
theorem more_of_le (hc : s.liveCell i = some c) (hle : c.links.length ≤ InPlaceLinks) :
    more i = [] := by
  have hst := h.stored i c hc
  rw [drop_eq_nil_of_le hle] at hst
  exact length_eq_zero_iff.mp hst.length

theorem more_of_mem_ins (hi : i ∈ ins) : more i = [] := by
  obtain ⟨c, hc⟩ := h.exists_live (i := i) (by simp [hi])
  exact h.more_of_le hc (by simp [h.noLinks i c hc ((h.input i c hc).mpr hi)])

theorem more_of_mem_outs (hi : i ∈ outs) : more i = [] := by
  obtain ⟨c, hc⟩ := h.exists_live (i := i) (by simp [hi])
  exact h.more_of_le hc (by simp [h.outLink i c hc ((h.output i c hc).mpr hi), InPlaceLinks])

theorem length_more (hc : s.liveCell i = some c) : (more i).length = c.more := by
  rw [(h.stored i c hc).length, length_drop]
  simp only [SubnetCell.more, SubnetCell.arity, InPlaceLinks, InEntryLinks]
  omega

theorem length_le : (ins ++ mid ++ outs).length ≤ s.size := by
  have hsub : ins ++ mid ++ outs ⊆ range s.size := by
    intro i hi
    obtain ⟨c, hc⟩ := h.exists_live hi
    exact mem_range.mpr (lt_of_live hc)
  have hlen := (h.nodup.subperm hsub).length_le
  rwa [length_range] at hlen

theorem cellIDs_eq (hne : ins ++ mid ++ outs ≠ []) : s.cellIDs = some (ins ++ mid ++ outs) := by
  have hne' : entriesOf more (ins ++ mid ++ outs) ≠ [] := by
    obtain ⟨i, l, hl⟩ := exists_cons_of_ne_nil hne
    simp [hl]
  rw [SubnetBuilder.cellIDs, h.visits.begins hne']
  refine walkCells_eq (fun i hi => ?_) (u := []) h.visits (Nat.le_succ_of_le h.length_le)
  obtain ⟨c, hc⟩ := h.exists_live hi
  exact ⟨c, getCell_of_live hc, h.length_more hc⟩

private theorem typeID_iff (hi : i ∈ ins ++ mid ++ outs) :
    (s.getTypeID i = .IN ↔ i ∈ ins) ∧ (s.getTypeID i = .OUT ↔ i ∈ outs) := by
  obtain ⟨c, hc⟩ := h.exists_live hi
  rw [getTypeID_of_live hc]
  exact ⟨h.input i c hc, h.output i c hc⟩

theorem inputIDs_eq (hne : ins ++ mid ++ outs ≠ []) : s.inputIDs = ins := by
  have hnd := h.nodup
  rw [append_assoc] at hnd
  have hkeep : ∀ i ∈ ins, decide (s.getTypeID i = .IN) = true := fun i hi =>
    decide_eq_true ((h.typeID_iff (by simp [hi])).1.mpr hi)
  have hdrop : ∀ i ∈ mid ++ outs, ¬ decide (s.getTypeID i = .IN) = true := by
    intro i hi ht
    have hmem : i ∈ ins ++ mid ++ outs := by
      rw [append_assoc]
      exact mem_append_right _ hi
    exact (nodup_append.mp hnd).2.2 i ((h.typeID_iff hmem).1.mp (of_decide_eq_true ht)) i hi
      rfl
  rw [inputIDs, h.cellIDs_eq hne, Option.getD_some, append_assoc, filter_append,
    filter_eq_self.mpr hkeep, filter_eq_nil_iff.mpr hdrop, append_nil]

theorem outputIDs_eq (hne : ins ++ mid ++ outs ≠ []) : s.outputIDs = outs := by
  have hkeep : ∀ i ∈ outs, decide (s.getTypeID i = .OUT) = true := fun i hi =>
    decide_eq_true ((h.typeID_iff (by simp [hi])).2.mpr hi)
  have hdrop : ∀ i ∈ ins ++ mid, ¬ decide (s.getTypeID i = .OUT) = true := by
    intro i hi ht
    have hout := (h.typeID_iff (mem_append_left _ hi)).2.mp (of_decide_eq_true ht)
    exact (nodup_append.mp h.nodup).2.2 i hi i hout rfl
  rw [outputIDs, h.cellIDs_eq hne, Option.getD_some, filter_append,
    filter_eq_nil_iff.mpr hdrop, filter_eq_self.mpr hkeep, nil_append]

theorem link_mem (hps : ins ++ mid ++ outs = ps ++ rest) (hj : j ∈ ps) (hc : s.liveCell j = some c)
    {l : Link} (hl : l ∈ c.links) : l.idx ∈ ps := by
  obtain ⟨u, v, rfl⟩ := append_of_mem hj
  have hmem := h.fanins u j (v ++ rest) c (by simpa using hps) hc l hl
  exact mem_append_left _ hmem

/-- The entries of a cell apart from those before it. -/
theorem disjoint (hps : ins ++ mid ++ outs = ps ++ i :: rest) (he : e ∈ i :: more i) :
    e ∉ entriesOf more ps := by
  intro hmem
  have hnd := h.visits.nodup
  rw [hps, entriesOf_append, entriesOf_cons] at hnd
  exact (nodup_append.mp hnd).2.2 e hmem e (mem_append_left _ he) rfl

theorem fanin_before (hij : s.netlist.Fanin i j) :
    (ins ++ mid ++ outs).idxOf j < (ins ++ mid ++ outs).idxOf i := by
  obtain ⟨g, hg, l, hl, rfl⟩ := hij
  obtain ⟨c, hc, -, hlinks⟩ := liveCell_of_netlist hg
  obtain ⟨ps, rest, hps⟩ := append_of_mem (h.mem_of_live hc)
  have hmem := h.fanins ps i rest c hps hc l (by rwa [hlinks])
  have hnd := h.nodup
  rw [hps] at hnd ⊢
  have hi : i ∉ ps := fun hi => (nodup_append.mp hnd).2.2 i hi i (mem_cons_self ..) rfl
  rw [idxOf_append_of_mem hmem, idxOf_append_of_notMem hi]
  exact Nat.lt_of_lt_of_le (idxOf_lt_length_of_mem hmem) (Nat.le_add_right ..)

theorem acyclic : s.netlist.Acyclic :=
  ⟨fun i => (ins ++ mid ++ outs).idxOf i, fun _ _ hij => h.fanin_before hij⟩

theorem closed : s.netlist.Closed := by
  rintro i j ⟨g, hg, l, hl, rfl⟩
  obtain ⟨c, hc, -, hlinks⟩ := liveCell_of_netlist hg
  obtain ⟨ps, rest, hps⟩ := append_of_mem (h.mem_of_live hc)
  have hmem := h.fanins ps i rest c hps hc l (by rwa [hlinks])
  rw [netlist_isSome, ← h.mem, hps]
  exact mem_append_left _ hmem

end Ordered

theorem Grown.ordered (h : Grown s ins mid outs) (hin : s.nIn = ins.length)
    (hout : s.nOut = outs.length) (hbuf : ∀ i c, s.liveCell i = some c → c.type = .BUF →
    c.links.length = 1) (hport : ∀ i c, s.liveCell i = some c → ∀ l ∈ c.links,
    s.getTypeID l.idx = .BUF → l.out = 0) : Ordered s (fun i => (s.block i).tail) ins mid outs where
  visits := by
    rw [entriesOf_block]
    exact h.lists.visits
  mem i := by rw [h.mem, netlist_isSome]
  stored i c hc := by
    have hg := netlist_of_live hc
    have hst := h.stored i _ hg
    rw [block_of_netlist hg, Gate.width, range'_succ, tail_cons]
    exact hst
  fanins ps i rest c hps hc l hl := h.fanin_before hps ⟨_, netlist_of_live hc, l, hl, rfl⟩
  input i c hc := h.input i _ (netlist_of_live hc)
  output i c hc := h.output i _ (netlist_of_live hc)
  noLinks i c hc := h.noLinks i _ (netlist_of_live hc)
  outLink i c hc := h.outLink i _ (netlist_of_live hc)
  bufLink := hbuf
  bufPort := hport
  nIn := hin
  nOut := hout

end SubnetBuilder

end UtopiaEda
