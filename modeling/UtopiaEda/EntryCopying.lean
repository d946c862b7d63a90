import UtopiaEda.BufferDeletion

/-!
# Making a subnet of the array

`make` without the deletion of buffers takes the array as it is if the order of the cells is that of
the array. The subnet then has the cells of the builder at their places, inputs first and outputs
last, and so its function.
-/
namespace UtopiaEda
open List

namespace Netlist

variable {lib : CellLibrary} {N M : Netlist} {x : EntryID → Bool}

private theorem mapM_congr {α β : Type} {f g : α → Option β} :
    ∀ {ls : List α}, (∀ a ∈ ls, f a = g a) → ls.mapM f = ls.mapM g := by
  intro ls
  induction ls with
  | nil => exact fun _ => rfl
  | cons a ls ih =>
    intro h
    rw [mapM_cons, mapM_cons, h a (mem_cons_self ..), ih (fun b hb => h b (mem_cons_of_mem a hb))]

/-- Cells that a closed netlist does not have do not matter to it. -/
theorem eval_of_le (h : ∀ i g, N i = some g → M i = some g) (hc : N.Closed) :
    ∀ {n : ℕ} {i : EntryID} {out : ℕ}, (N i).isSome → M.eval lib x n i out =
    N.eval lib x n i out := by
  intro n
  induction n with
  | zero =>
    intro i out _
    rfl
  | succ n ih =>
    intro i out hi
    obtain ⟨g, hg⟩ := Option.isSome_iff_exists.mp hi
    have hlinks : g.links.mapM (fun l => (eval lib M x n l.idx l.out).map (xor · l.inv)) =
        g.links.mapM (fun l => (eval lib N x n l.idx l.out).map (xor · l.inv)) :=
      mapM_congr (fun l hl => congrArg _ (ih (hc i l.idx ⟨g, hg, l, hl, rfl⟩)))
    simp only [eval, hg, h i g hg, hlinks]

end Netlist

namespace SubnetBuilder

variable {s : SubnetBuilder} {more : EntryID → List EntryID} {ins mid outs : List EntryID}

/-- The inputs are the first entries of the array and the outputs the last ones. -/
structure InPlace (s : SubnetBuilder) (ins outs : List EntryID) : Prop where
  inputs : ∀ (k : ℕ) i, ins[k]? = some i → i = k
  outputs : ∀ (k : ℕ) i, outs[k]? = some i → i = s.size - outs.length + k

namespace InPlace

variable (hp : InPlace s ins outs) (h : Ordered s more ins mid outs)
include hp h

theorem checkInputsOrder : s.checkInputsOrder = some true := by
  apply checkCells_eq _ (Nat.le_add_left ..)
  intro k _ hk
  have hk' : k < ins.length := Nat.lt_of_lt_of_eq hk h.nIn
  obtain ⟨c, hc⟩ := h.exists_live (i := ins[k]) (by simp)
  have ht := (h.input _ c hc).mpr (getElem_mem hk')
  have hcell := getCell_of_live hc
  rw [hp.inputs k _ (getElem?_eq_getElem hk')] at hcell
  refine ⟨c, hcell, by simp [SubnetCell.isIn, ht], ?_⟩
  simp [SubnetCell.more, SubnetCell.arity, h.noLinks _ c hc ht, InPlaceLinks, InEntryLinks]

theorem checkOutputsOrder : s.checkOutputsOrder = some true := by
  apply checkCells_eq _ (Nat.le_add_of_sub_le (Nat.le_refl _))
  intro k hk hlt
  have hle : outs.length ≤ s.size :=
    Nat.le_trans (by rw [length_append]; exact Nat.le_add_left ..) h.length_le
  rw [h.nOut] at hk
  obtain ⟨m, rfl⟩ := Nat.exists_eq_add_of_le hk
  have hm : m < outs.length :=
    Nat.lt_of_add_lt_add_left (Nat.lt_of_lt_of_eq hlt (Nat.sub_add_cancel hle).symm)
  obtain ⟨c, hc⟩ := h.exists_live (i := outs[m]) (by simp)
  have ht := (h.output _ c hc).mpr (getElem_mem hm)
  have hcell := getCell_of_live hc
  rw [hp.outputs m _ (getElem?_eq_getElem hm)] at hcell
  refine ⟨c, hcell, by simp [SubnetCell.isOut, ht], ?_⟩
  simp [SubnetCell.more, SubnetCell.arity, h.outLink _ c hc ht, InPlaceLinks, InEntryLinks]

theorem netFunction_eq (hout : outs ≠ []) (lib : CellLibrary) :
    s.takeEntries.netFunction lib = s.netFunction lib := by
  have hne : ins ++ mid ++ outs ≠ [] := append_ne_nil_of_right_ne_nil _ hout
  have hnOut : s.takeEntries.nOut = outs.length := h.nOut
  rw [Subnet.netFunction, SubnetBuilder.netFunction, h.inputIDs_eq hne, h.outputIDs_eq hne, hnOut]
  refine Prod.ext h.nIn (funext fun x => ?_)
  have hgate : ∀ i g, s.netlist i = some g → s.takeEntries.netlist i = some g := by
    intro i g hg
    obtain ⟨c, hc, ht, hl⟩ := liveCell_of_netlist hg
    rw [Subnet.netlist, getCell_takeEntries, getCell_of_live hc, Option.map_some, ht, hl]
  obtain ⟨ρ, hρ⟩ := h.acyclic.exists_solves lib (fun j => x (ins.idxOf j))
  have hrank : s.netlist.Ranked (fun i => (ins ++ mid ++ outs).idxOf i) :=
    fun _ _ hij => h.fanin_before hij
  apply ext_getElem?
  intro k
  rw [getElem?_map, getElem?_map]
  by_cases hk : k < outs.length
  · have hmem : outs[k] ∈ ins ++ mid ++ outs := by simp
    have hlive : (s.netlist outs[k]).isSome := by rw [netlist_isSome, ← h.mem]; exact hmem
    have hplace : s.takeEntries.getOutIdx k = outs[k] := by
      rw [hp.outputs k _ (getElem?_eq_getElem hk), Subnet.getOutIdx, size_takeEntries, hnOut]
    have hinputs : ∀ i g, s.netlist i = some g → g.type = .IN → x i = x (ins.idxOf i) := by
      intro i g hg ht
      obtain ⟨c, hc, hct, -⟩ := liveCell_of_netlist hg
      have hi : i ∈ ins := (h.input i c hc).mp (hct.trans ht)
      exact congrArg x (hp.inputs _ _ (getElem?_idxOf hi))
    have hlt := Nat.lt_of_lt_of_le (idxOf_lt_length_of_mem hmem) h.length_le
    rw [getElem?_range hk, getElem?_eq_getElem hk, Option.map_some, Option.map_some, hplace,
      Subnet.value, Netlist.value, Netlist.eval_of_le hgate h.closed hlive,
      Netlist.eval_congr_inputs hinputs, Netlist.value, size_takeEntries,
      Netlist.eval_eq h.closed hρ hrank _ _ _ hlive (Nat.lt_succ_of_lt hlt)]
  · rw [getElem?_eq_none (by rw [length_range]; exact Nat.not_lt.mp hk),
      getElem?_eq_none (Nat.not_lt.mp hk)]
    rfl

theorem make_eq (hout : outs ≠ []) (hd : s.order.isDisassembled = false) :
    s.make = some s.takeEntries := by
  have hnOut : s.nOut ≠ 0 := by
    rw [h.nOut]
    exact fun hzero => hout (List.length_eq_zero_iff.mp hzero)
  have hsize : s.size ≠ 0 := by
    have hpos := length_pos_of_ne_nil (append_ne_nil_of_right_ne_nil (ins ++ mid) hout)
    exact Nat.ne_of_gt (Nat.lt_of_lt_of_le hpos h.length_le)
  rw [SubnetBuilder.make, if_neg (not_or.mpr ⟨hnOut, hsize⟩), if_neg (by simp [hd])]
  simp only [Option.bind_eq_bind, Option.bind_some, hp.checkInputsOrder h, hp.checkOutputsOrder h,
    and_self, if_true]

end InPlace

end SubnetBuilder

end UtopiaEda
