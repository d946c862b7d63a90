import UtopiaEda.Operations

/-!
# Values of the cells of a builder

The functions of the cells and what adding a cell means for them.
-/
namespace UtopiaEda.SubnetBuilder

variable {lib : CellLibrary} {s s' : SubnetBuilder} {x : EntryID → Bool} {ρ : EntryID → ℕ → Bool}
  {i idx : EntryID} {t : CellTypeID} {links : List Link}

/-- The value of an output port of a cell for the values `x` of the input cells. -/
def value (lib : CellLibrary) (s : SubnetBuilder) (x : EntryID → Bool) (i : EntryID) (out : ℕ) :
    Option Bool := s.netlist.value lib s.size x i out

def linkValue (lib : CellLibrary) (s : SubnetBuilder) (x : EntryID → Bool) (l : Link) :
    Option Bool := (s.value lib x l.idx l.out).map (xor · l.inv)

theorem NetInv.closed' (h : NetInv s s.targets) : s.netlist.Closed := by
  intro i j hij
  obtain ⟨g, hg, -⟩ := h.closed hij
  simp [hg]

theorem NetOk.value_eq (h : NetOk s) (hρ : s.netlist.Solves lib x ρ) (hi : (s.netlist i).isSome)
    (out : ℕ) : s.value lib x i out = some (ρ i out) := by
  refine Netlist.value_eq h.acyclic h.net.closed' (fun j hj => ?_) hρ hi out
  obtain ⟨g, hg⟩ := Option.isSome_iff_exists.mp hj
  obtain ⟨c, hc, -⟩ := liveCell_of_netlist hg
  exact lt_of_live hc

theorem NetOk.linkValue_eq (h : NetOk s) (hρ : s.netlist.Solves lib x ρ) {l : Link}
    (hl : (s.netlist l.idx).isSome) : s.linkValue lib x l = some (l.value ρ) := by
  rw [linkValue, h.value_eq hρ hl, Option.map_some]
  rfl

theorem NetOk.exists_solves (h : NetOk s) (lib : CellLibrary) (x : EntryID → Bool) :
    ∃ ρ, s.netlist.Solves lib x ρ := h.acyclic.exists_solves lib x

theorem Solves.of_sub {N N' : Netlist} (h : N'.Solves lib x ρ)
    (hsub : ∀ i g, N i = some g → N' i = some g) : N.Solves lib x ρ :=
  fun i g hg => h i g (hsub i g hg)

/-- The cell that `addCell` yields takes the value of the requested gate; the values of the
other cells do not change. -/
theorem NetOk.addCell_value {r : Link} (h : NetOk s) (hl : s.ValidLinks links) (ht : t ≠ .IN)
    (hadd : s.addCell t links = some (s', r)) (x : EntryID → Bool) : ∃ bs : List Bool,
      links.map (s.linkValue lib x) = bs.map some ∧
      (∀ out, s'.value lib x r.idx out = some (t.eval lib bs out)) ∧
      ∀ i out, (s.netlist i).isSome → s'.value lib x i out = s.value lib x i out := by
  have h' := h.addCell hl hadd
  obtain ⟨-, -, hadded⟩ := h.net.of_addCell hl hadd
  obtain ⟨ρ, hρ'⟩ := h'.exists_solves lib x
  have hρ : s.netlist.Solves lib x ρ := Solves.of_sub hρ' (fun i g => hadded.of_old)
  obtain ⟨ls, hls, hkey⟩ := hadded.here
  refine ⟨links.map (Link.value ρ), ?_, fun out => ?_, fun i out hi => ?_⟩
  · rw [List.map_map]
    refine List.map_congr_left (fun l hlm => ?_)
    obtain ⟨g, hg, -⟩ := hl.netlist hlm
    exact h.linkValue_eq hρ (by simp [hg])
  · have hgate := congrFun (hρ' r.idx _ hls) out
    rw [h'.value_eq hρ' (by simp [hls]), hgate, Netlist.gateValue, if_neg ht,
      StrashKey.eval_eq hkey ρ out]
  · obtain ⟨g, hg⟩ := Option.isSome_iff_exists.mp hi
    rw [h.value_eq hρ hi, h'.value_eq hρ' (by simp [hadded.of_old hg])]

end UtopiaEda.SubnetBuilder
