import UtopiaEda.StrashKeys

/-!
# Subnets made by growing builders

A subnet that is made has the cells of the builder at their positions, so what holds of the cells of
the builder holds of it: it is well formed, equal cells stay shared, and inputs that no cell uses
have no references.
-/
namespace UtopiaEda
open List
open Option (getD_some isSome_iff_exists some.inj)

/-- The cell in the entry `k` has the key of a cell before it. -/
def Subnet.Repeated (S : Subnet) (k : EntryID) : Prop :=
  ∃ c, S.getCell k = some c ∧ c.isEnabled ∧ ∃ e < k, ∃ c', S.getCell e = some c' ∧ c'.isEnabled ∧
    c'.key = c.key

/-- Every entry holds a cell without further entries. -/
def Subnet.Narrow (S : Subnet) : Prop :=
  ∀ i < S.size, ∃ c, S.getCell i = some c ∧ c.arity ≤ InPlaceLinks

/-- Some cell uses the cell in the entry `i`. -/
def Subnet.Reads (S : Subnet) (i : EntryID) : Prop :=
  ∃ k c, S.getCell k = some c ∧ ∃ l ∈ c.links, l.idx = i

theorem key_of_narrow {c : SubnetCell} (h : c.arity ≤ InPlaceLinks) :
    c.key = StrashKey.make c.type c.links := by
  rw [SubnetCell.key, take_of_length_le h]

namespace SubnetBuilder

variable {s : SubnetBuilder} {S : Subnet} {ins mid outs : List EntryID} {i j k : EntryID}

theorem Grown.position_inj (h : Grown s ins mid outs) (hi : (s.netlist i).isSome)
    (heq : s.position (ins ++ mid ++ outs) i = s.position (ins ++ mid ++ outs) j) : i = j := by
  have hmem : i ∈ (ins ++ mid ++ outs).flatMap s.block :=
    mem_flatMap.mpr ⟨i, (h.mem i).mpr hi, mem_block_self⟩
  exact (idxOf_inj hmem).mp heq

theorem Made.exists_gate {pos : EntryID → EntryID} (hS : Made s pos S) {c : SubnetCell}
    (hc : S.getCell k = some c) : ∃ i a, s.liveCell i = some a ∧ pos i = k ∧
    c = ⟨a.type, a.links.map (Link.rename pos), a.refcount⟩ := by
  obtain ⟨i, hi, rfl⟩ := hS.only k c hc
  obtain ⟨a, ha⟩ := isSome_iff_exists.mp hi
  exact ⟨i, a, ha, rfl, some.inj (hc.symm.trans (hS.cells i a ha))⟩

theorem Made.position_lt_iff (h : Grown s ins mid outs) (hi : (s.netlist i).isSome) :
    s.position (ins ++ mid ++ outs) i < ins.length ↔ i ∈ ins := by
  constructor
  · intro hlt
    have hplace := h.position_input (getElem?_eq_getElem hlt)
    rw [h.position_inj hi hplace.symm]
    exact getElem_mem hlt
  · intro hmem
    obtain ⟨k, hk, rfl⟩ := getElem_of_mem hmem
    rw [h.position_input (getElem?_eq_getElem hk)]
    exact hk

theorem Made.le_position_iff (h : Grown s ins mid outs)
    (hS : Made s (s.position (ins ++ mid ++ outs)) S) (hi : (s.netlist i).isSome) :
    s.size - outs.length ≤ s.position (ins ++ mid ++ outs) i ↔ i ∈ outs := by
  have hlen := h.length_flatMap
  rw [h.flatMap_block, length_append] at hlen
  constructor
  · intro hle
    obtain ⟨k, hk⟩ := Nat.exists_eq_add_of_le hle
    obtain ⟨g, hg⟩ := isSome_iff_exists.mp hi
    obtain ⟨c, hc, -⟩ := liveCell_of_netlist hg
    have hlt := Subnet.lt_of_getCell (hS.cells i c hc)
    rw [hS.size, hk] at hlt
    have hfit : outs.length ≤ s.size := by
      rw [← hlen]
      exact Nat.le_add_left _ _
    have hko : k < outs.length :=
      Nat.lt_of_add_lt_add_left (Nat.lt_of_lt_of_eq hlt (Nat.sub_add_cancel hfit).symm)
    have hplace := h.position_output (getElem?_eq_getElem hko)
    rw [← hk] at hplace
    rw [h.position_inj hi hplace.symm]
    exact getElem_mem hko
  · intro hmem
    obtain ⟨k, hk, rfl⟩ := getElem_of_mem hmem
    rw [h.position_output (getElem?_eq_getElem hk)]
    exact Nat.le_add_right _ _

/-- A growing builder of positive cells whose links lead to ports makes a well-formed subnet. -/
theorem Made.wellFormed (h : Grown s ins mid outs) (hS : Made s (s.position (ins ++ mid ++ outs)) S)
    (hin : s.nIn = ins.length) (hout : s.nOut = outs.length)
    (hpositive : ∀ i g, s.netlist i = some g → g.type.isNegative = false)
    (hport : ∀ i g, s.netlist i = some g → ∀ l ∈ g.links, ∀ g', s.netlist l.idx = some g' →
      l.out = 0 ∨ ∃ sid, g'.type = .soft sid) : S.WellFormed := by
  have hcounts := hS.counts
  simp only [Prod.mk.injEq] at hcounts
  have hnIn : S.nIn = ins.length := hcounts.1.trans hin
  have hnOut : S.nOut = outs.length := hcounts.2.1.trans hout
  have hlen := h.length_flatMap
  rw [h.flatMap_block, length_append, length_append] at hlen
  have hlive : ∀ {i a}, s.liveCell i = some a → (s.netlist i).isSome := by
    intro i a ha
    rw [netlist_of_live ha]
    rfl
  have hkind : ∀ {k c}, S.getCell k = some c → ∃ i a, s.liveCell i = some a ∧
      k = s.position (ins ++ mid ++ outs) i ∧ c.type = a.type ∧
      c.links = a.links.map (Link.rename (s.position (ins ++ mid ++ outs))) := by
    intro k c hc
    obtain ⟨i, a, ha, hpos, rfl⟩ := hS.exists_gate hc
    exact ⟨i, a, ha, hpos.symm, rfl, rfl⟩
  have hends : ∀ i ∈ ins ++ mid ++ outs,
      (S.getCell (s.position (ins ++ mid ++ outs) i)).isSome := by
    intro i hi
    obtain ⟨g, hg⟩ := isSome_iff_exists.mp ((h.mem i).mp hi)
    obtain ⟨c, hc, -⟩ := liveCell_of_netlist hg
    rw [hS.cells i c hc]
    rfl
  refine ⟨fun k c hc => ?_, fun k c hc ht => ?_, fun k c hc => ?_, fun k c hc ht => ?_, ?_,
    fun k hk hlt => ?_, fun k c hc l hl => ?_, fun k c hc l hl c' hc' => ?_, fun k c hc => ?_⟩
  · obtain ⟨i, a, ha, rfl, ht, -⟩ := hkind hc
    rw [ht, hnIn, Made.position_lt_iff h (hlive ha)]
    exact h.input i _ (netlist_of_live ha)
  · obtain ⟨i, a, ha, rfl, hta, hl⟩ := hkind hc
    have hlinks : a.links = [] := h.noLinks i _ (netlist_of_live ha) (hta.symm.trans ht)
    rw [hl, hlinks, map_nil]
  · obtain ⟨i, a, ha, rfl, ht, -⟩ := hkind hc
    rw [ht, hnOut, hS.size, hS.le_position_iff h (hlive ha)]
    exact h.output i _ (netlist_of_live ha)
  · obtain ⟨i, a, ha, rfl, hta, hl⟩ := hkind hc
    rw [hl, length_map]
    exact h.outLink i _ (netlist_of_live ha) (hta.symm.trans ht)
  · rw [hnIn, hnOut, hS.size]
    omega
  · rcases hk with hk | hk
    · rw [hnIn] at hk
      have hplace := h.position_input (getElem?_eq_getElem hk)
      have hcell := hends ins[k] (by simp)
      rwa [hplace] at hcell
    · rw [hS.size, hnOut] at hk
      rw [hS.size] at hlt
      obtain ⟨n, rfl⟩ := Nat.exists_eq_add_of_le hk
      have hn : n < outs.length := by omega
      have hplace := h.position_output (getElem?_eq_getElem hn)
      have hcell := hends outs[n] (by simp)
      rwa [hplace] at hcell
  · obtain ⟨i, a, ha, rfl, -, hlinks⟩ := hkind hc
    rw [hlinks] at hl
    obtain ⟨l', hl', rfl⟩ := mem_map.mp hl
    have hij : s.netlist.Fanin i l'.idx := ⟨_, netlist_of_live ha, l', hl', rfl⟩
    obtain ⟨g', hg', ht⟩ := h.net.closed hij
    obtain ⟨c', hc', hct, -⟩ := liveCell_of_netlist hg'
    exact ⟨h.position_fanin hij, _, hS.cells _ c' hc', fun heq => ht (hct ▸ heq)⟩
  · obtain ⟨i, a, ha, rfl, -, hlinks⟩ := hkind hc
    rw [hlinks] at hl
    obtain ⟨l', hl', rfl⟩ := mem_map.mp hl
    obtain ⟨g', hg', -⟩ := h.net.closed ⟨_, netlist_of_live ha, l', hl', rfl⟩
    obtain ⟨b, hb, hbt, -⟩ := liveCell_of_netlist hg'
    obtain rfl := some.inj (hc'.symm.trans (hS.cells _ b hb))
    rcases hport i _ (netlist_of_live ha) l' hl' g' hg' with hzero | ⟨sid, hsid⟩
    · exact .inl hzero
    · exact .inr ⟨sid, hbt.trans hsid⟩
  · obtain ⟨i, a, ha, rfl, ht, -⟩ := hkind hc
    rw [ht]
    exact hpositive i _ (netlist_of_live ha)

/-- Cells without further entries fill the entries of the subnet. -/
theorem Made.narrow (h : Grown s ins mid outs) (hS : Made s (s.position (ins ++ mid ++ outs)) S)
    (hnarrow : ∀ i g, s.netlist i = some g → g.links.length ≤ InPlaceLinks) : S.Narrow := by
  intro k hk
  have hnd := h.lists.nodup
  have hlen : k < ((ins ++ mid ++ outs).flatMap s.block).length := by
    rw [h.length_flatMap, ← hS.size]
    exact hk
  obtain ⟨i, hi, hmem⟩ := mem_flatMap.mp (getElem_mem hlen)
  obtain ⟨g, hg⟩ := isSome_iff_exists.mp ((h.mem i).mp hi)
  have hwidth := Gate.width_of_le (hnarrow i g hg)
  rw [block_of_netlist hg, hwidth, range'_one, mem_singleton] at hmem
  have hplace : s.position (ins ++ mid ++ outs) i = k := by
    rw [← hmem]
    exact List.Nodup.idxOf_getElem hnd k hlen
  obtain ⟨c, hc, -, hl⟩ := liveCell_of_netlist hg
  refine ⟨_, hplace ▸ hS.cells i c hc, ?_⟩
  rw [SubnetCell.arity, length_map, hl]
  exact hnarrow i g hg

theorem Made.distinct (h : Grown s ins mid outs) (hS : Made s (s.position (ins ++ mid ++ outs)) S)
    (hcomplete : ∀ i c, s.liveCell i = some c → c.isEnabled → s.strash c.key = some i) :
    ¬ S.Repeated k := by
  rintro ⟨c, hc, hen, e, he, c', hc', hen', hkey⟩
  obtain ⟨i, a, ha, rfl, rfl⟩ := hS.exists_gate hc
  obtain ⟨j, b, hb, rfl, rfl⟩ := hS.exists_gate hc'
  have hrenamed : ∀ d : SubnetCell,
      (⟨d.type, d.links.map (Link.rename (s.position (ins ++ mid ++ outs))), d.refcount⟩ :
      SubnetCell).isEnabled = d.isEnabled := by
    intro d
    rw [SubnetCell.isEnabled, SubnetCell.isEnabled, SubnetCell.arity, SubnetCell.arity, length_map]
    rfl
  have hena : a.isEnabled := (hrenamed a).symm.trans hen
  have henb : b.isEnabled := (hrenamed b).symm.trans hen'
  have harity : ∀ d : SubnetCell, d.isEnabled → d.arity ≤ InPlaceLinks := by
    intro d hd
    simp only [SubnetCell.isEnabled, Bool.and_eq_true] at hd
    exact of_decide_eq_true hd.2
  have hback : ∀ l ∈ b.links ++ a.links, Link.rename (fun p =>
      ((ins ++ mid ++ outs).flatMap s.block).getD p 0)
        (Link.rename (s.position (ins ++ mid ++ outs)) l) = l := by
    intro l hl
    have hlive : (s.netlist l.idx).isSome := by
      rcases mem_append.mp hl with hl | hl
      · exact h.net.closed' j _ ⟨_, netlist_of_live hb, l, hl, rfl⟩
      · exact h.net.closed' i _ ⟨_, netlist_of_live ha, l, hl, rfl⟩
    have hmem : l.idx ∈ (ins ++ mid ++ outs).flatMap s.block :=
      mem_flatMap.mpr ⟨l.idx, (h.mem _).mpr hlive, mem_block_self⟩
    have hget : ((ins ++ mid ++ outs).flatMap s.block).getD (s.position (ins ++ mid ++ outs) l.idx)
        0 = l.idx := by
      rw [position, getD_eq_getElem?_getD, getElem?_idxOf hmem, getD_some]
    rw [Link.rename, Link.rename, hget]
  rw [key_of_narrow (harity _ hen'), key_of_narrow (harity _ hen)] at hkey
  have hsame := StrashKey.make_of_map hback hkey
  rw [← key_of_narrow (harity b henb), ← key_of_narrow (harity a hena)] at hsame
  have hij : j = i := some.inj
    ((hcomplete j b hb henb).symm.trans (hsame ▸ hcomplete i a ha hena))
  rw [hij] at he
  exact absurd he (Nat.lt_irrefl _)

/-- A cell that no other uses has no references. -/
theorem Made.refcount_eq_zero {pos : EntryID → EntryID} (h : Grown s ins mid outs)
    (hS : Made s pos S) (hi : (s.netlist i).isSome) (hunread : ∀ j g, s.netlist j = some g →
    ∀ l ∈ g.links, l.idx ≠ i) : ∃ c, S.getCell (pos i) = some c ∧ c.refcount = 0 := by
  obtain ⟨g, hg⟩ := isSome_iff_exists.mp hi
  obtain ⟨c, hc, -⟩ := liveCell_of_netlist hg
  refine ⟨_, hS.cells i c hc, ?_⟩
  rw [h.net.refcount i c hc, Multiset.card_eq_zero, Multiset.eq_zero_iff_forall_notMem]
  intro j hj
  have hmem := (Incidence.mem_users.mp hj).2
  rw [targets] at hmem
  cases hlive : s.liveCell j with
  | none =>
    rw [hlive] at hmem
    cases hmem
  | some a =>
    rw [hlive, Option.map_some, getD_some] at hmem
    obtain ⟨l, hl, hidx⟩ := mem_map.mp hmem
    exact hunread j _ (netlist_of_live hlive) l hl hidx

end SubnetBuilder

end UtopiaEda
