import UtopiaEda.CellTraversal

/-!
# Gates added to growing builders

What the users of a builder need to know about `addCell`: it yields a cell of the requested type
with the requested value, and every solution of the new network is one of the old network. The
cell may be an old one with the same key.
-/
namespace UtopiaEda.SubnetBuilder

variable {s s' s'' : SubnetBuilder} {ins mid outs : List EntryID} {t : CellTypeID}
  {links : List Link} {idx : EntryID} {lib : CellLibrary} {x : EntryID → Bool}
  {ρ : EntryID → ℕ → Bool}

structure GateAdded (s s' : SubnetBuilder) (idx : EntryID) (t : CellTypeID) (links : List Link) :
    Prop where
  le : s.netlist.Le s'.netlist
  here : ∃ ls, s'.netlist idx = some ⟨t, ls⟩ ∧ ls.Perm links
  only : ∀ i g, s'.netlist i = some g → s.netlist i = some g ∨ i = idx
  value : ∀ (lib : CellLibrary) x ρ, s'.netlist.Solves lib x ρ → t ≠ .IN →
    ρ idx = t.eval lib (links.map (Link.value ρ))
  counts : (s'.nIn, s'.nOut) =
    (s.nIn + (decide (t = .IN)).toNat, s.nOut + (decide (t = .OUT)).toNat)

private theorem GateAdded.of_added (h : Added s s' t links idx)
    (hc : (s'.nIn, s'.nOut) = (s.nIn + (decide (t = .IN)).toNat,
      s.nOut + (decide (t = .OUT)).toNat)) :
    GateAdded s s' idx t links := by
  obtain ⟨ls, hls, hkey⟩ := h.here
  refine ⟨fun i g hg => h.of_old hg, ⟨ls, hls, (StrashKey.make_eq hkey).2.1⟩, fun i g hg => ?_,
    fun lib x ρ hρ ht => ?_, hc⟩
  · by_cases hi : i = idx
    · exact .inr hi
    · rw [h.other i hi] at hg
      exact .inl hg
  · funext out
    rw [hρ idx _ hls, Netlist.gateValue, if_neg ht]
    exact StrashKey.eval_eq hkey ρ out

theorem Grown.addGate (h : Grown s ins mid outs) (hl : s.ValidLinks links)
    (hneg : t.isNegative = false) (hin : t ≠ .IN) (hout : t ≠ .OUT) :
    ∃ s' idx mid', s.addCell t links = some (s', ⟨idx, 0, false⟩) ∧ Grown s' ins mid' outs ∧
      GateAdded s s' idx t links := by
  obtain ⟨s', idx, mid', hadd, hgrown, hcases⟩ := h.addCell hl hneg hin hout
  refine ⟨s', idx, mid', hadd, hgrown, .of_added (h.net.of_addCell hl hadd).2.2 ?_⟩
  simp only [decide_eq_false hin, decide_eq_false hout, Bool.toNat_false, Nat.add_zero]
  rcases hcases with ⟨-, -, rfl⟩ | ⟨-, happ⟩
  · rfl
  · have hcounts := happ.counts
    simp only [Prod.mk.injEq, decide_eq_false hin, decide_eq_false hout, Bool.toNat_false,
      Nat.add_zero] at hcounts
    rw [hcounts.1, hcounts.2.1]

theorem GateAdded.live (h : GateAdded s s' idx t links) :
    ∃ g, s'.netlist idx = some g ∧ g.type = t := by
  obtain ⟨ls, hls, -⟩ := h.here
  exact ⟨_, hls, rfl⟩

theorem Solves.mono (h : s'.netlist.Solves lib x ρ) (hle : s.netlist.Le s'.netlist) :
    s.netlist.Solves lib x ρ := Solves.of_sub h hle

def gateFunction (t : CellTypeID) (xs : List Bool) : Bool := t.eval CellLibrary.empty xs 0

theorem eval_gate (ht : ∀ sid, t ≠ .soft sid) (xs : List Bool) (out : ℕ) :
    t.eval lib xs out = gateFunction t xs := by
  cases t with
  | soft sid => exact absurd rfl (ht sid)
  | _ => rfl

structure LinkAdded (s s' : SubnetBuilder) (l : Link) (F : (EntryID → ℕ → Bool) → Bool)
    (P : Gate → Prop) : Prop where
  le : s.netlist.Le s'.netlist
  valid : s'.ValidLinks [l]
  value : ∀ lib x ρ, s'.netlist.Solves lib x ρ → l.value ρ = F ρ
  gates : ∀ i g, s'.netlist i = some g → s.netlist i = some g ∨ P g
  counts : (s'.nIn, s'.nOut) = (s.nIn, s.nOut)

variable {l l' : Link} {F F' : (EntryID → ℕ → Bool) → Bool} {P P' : Gate → Prop}

theorem LinkAdded.refl (hl : s.ValidLinks [l]) : LinkAdded s s l (Link.value · l) P :=
  ⟨.refl _, hl, fun _ _ _ _ => rfl, fun _ _ h => .inl h, rfl⟩

theorem LinkAdded.trans (h : LinkAdded s s' l F P) (h' : LinkAdded s' s'' l' F' P) :
    LinkAdded s s'' l' F' P := by
  refine ⟨h.le.trans h'.le, h'.valid, h'.value, fun i g hg => ?_, h'.counts.trans h.counts⟩
  rcases h'.gates i g hg with hg | hg
  · exact h.gates i g hg
  · exact .inr hg

/-- The function in other words, which may use the values of the links added before. -/
theorem LinkAdded.congr (h : LinkAdded s s' l F P)
    (hF : ∀ lib x ρ, s'.netlist.Solves lib x ρ → F ρ = F' ρ) : LinkAdded s s' l F' P :=
  ⟨h.le, h.valid, fun lib x ρ hρ => (h.value lib x ρ hρ).trans (hF lib x ρ hρ), h.gates, h.counts⟩

theorem LinkAdded.weaken (h : LinkAdded s s' l F P) (hP : ∀ g, P g → P' g) :
    LinkAdded s s' l F P' :=
  ⟨h.le, h.valid, h.value, fun i g hg => (h.gates i g hg).imp_right (hP g), h.counts⟩

theorem validLinks_cons {ls : List Link} :
    s.ValidLinks (l :: ls) ↔ s.ValidLinks [l] ∧ s.ValidLinks ls := by
  simp [ValidLinks]

theorem validLinks_append {ls ls' : List Link} :
    s.ValidLinks (ls ++ ls') ↔ s.ValidLinks ls ∧ s.ValidLinks ls' := by
  simp only [ValidLinks, List.mem_append]
  exact ⟨fun h => ⟨fun l hl => h l (.inl hl), fun l hl => h l (.inr hl)⟩,
    fun h l hl => hl.elim (h.1 l) (h.2 l)⟩

private theorem GateAdded.link (h : GateAdded s s' idx t links) (hin : t ≠ .IN) (hout : t ≠ .OUT)
    (hsoft : ∀ sid, t ≠ .soft sid) :
    LinkAdded s s' ⟨idx, 0, false⟩ (fun ρ => gateFunction t (links.map (Link.value ρ)))
      (fun g => g.type = t ∧ g.links.length = links.length) := by
  obtain ⟨ls, hls, hperm⟩ := h.here
  have hcounts := h.counts
  simp only [decide_eq_false hin, decide_eq_false hout, Bool.toNat_false, Nat.add_zero] at hcounts
  refine ⟨h.le, validLinks_of_netlist (fun l hlm => ?_), fun lib x ρ hρ => ?_, fun i g hg => ?_,
    hcounts⟩
  · rw [List.mem_singleton.mp hlm]
    exact ⟨_, hls, hout⟩
  · rw [Link.value, h.value lib x ρ hρ hin, eval_gate hsoft, Bool.xor_false]
  · refine (h.only i g hg).imp id (fun hi => ?_)
    rw [hi, hls] at hg
    rw [← Option.some.inj hg]
    exact ⟨rfl, hperm.length_eq⟩

theorem Grown.addGateLink (h : Grown s ins mid outs) (hl : s.ValidLinks links)
    (hneg : t.isNegative = false) (hin : t ≠ .IN) (hout : t ≠ .OUT) (hsoft : ∀ sid, t ≠ .soft sid) :
    ∃ s' l mid', s.addCell t links = some (s', l) ∧ Grown s' ins mid' outs ∧
      LinkAdded s s' l (fun ρ => gateFunction t (links.map (Link.value ρ)))
        (fun g => g.type = t ∧ g.links.length = links.length) := by
  obtain ⟨s', idx, mid', hadd, hgrown, hgate⟩ := h.addGate hl hneg hin hout
  exact ⟨s', _, mid', hadd, hgrown, hgate.link hin hout hsoft⟩

/-- A successful `addCell` for a standard gate. -/
theorem NetInv.addGateLink (h : NetInv s s.targets) (hl : s.ValidLinks links)
    (hin : t ≠ .IN) (hout : t ≠ .OUT) (hsoft : ∀ sid, t ≠ .soft sid)
    (hadd : s.addCell t links = some (s', l)) :
    LinkAdded s s' l (fun ρ => gateFunction t (links.map (Link.value ρ)))
      (fun g => g.type = t ∧ g.links.length = links.length) := by
  obtain ⟨-, hlink, hadded⟩ := h.of_addCell hl hadd
  rw [hlink]
  exact (GateAdded.of_added hadded (h.addCell_counts hl hadd)).link hin hout hsoft

end UtopiaEda.SubnetBuilder
