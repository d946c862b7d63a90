import UtopiaEda.MiterConstruction

/-!
# Copies of cells in a miter

A copied cell is carried by the link that the map holds for it: the target has the values of the
cell, and the link of a copied output the value that the output passes on.
-/
namespace UtopiaEda.BaseChecker
open SubnetBuilder List

variable {N : Netlist} {s s' : SubnetBuilder} {map map' : IdxToLink} {i j : EntryID} {g : Gate}
  {ins mid outs : List EntryID} {R : (EntryID → Bool) → (EntryID → Bool) → Prop}
  {getLink : EntryID → ℕ → Option Link} {cell : SubnetCell} {subnet : Subnet}

structure Carries (N : Netlist) (R : (EntryID → Bool) → (EntryID → Bool) → Prop)
    (s : SubnetBuilder) (map : IdxToLink) (i : EntryID) (g : Gate) : Prop where
  valid : s.ValidLinks [map i]
  value : ∀ lib x y σ ρ, R x y → s.netlist.Solves lib x σ → N.Solves lib y ρ →
    if g.type = .OUT then (map i).value σ = ρ i 0 else ∀ out, σ (map i).idx out = ρ i out

theorem Carries.mono (h : Carries N R s map i g) (hle : s.netlist.Le s'.netlist)
    (hmap : map' i = map i) : Carries N R s' map' i g := by
  constructor
  · rw [hmap]
    exact h.valid.mono hle
  · intro lib x y σ ρ hR hσ hρ
    rw [hmap]
    exact h.value lib x y σ ρ hR (Solves.mono hσ hle) hρ

private theorem newLink_value (h : Carries N R s map i g) (ht : g.type ≠ .OUT) {l : Link}
    (hl : l.idx = i) {lib : CellLibrary} {x y : EntryID → Bool} {σ ρ : EntryID → ℕ → Bool}
    (hR : R x y) (hσ : s.netlist.Solves lib x σ) (hρ : N.Solves lib y ρ) :
    (newLink map l).value σ = l.value ρ := by
  have hval := h.value lib x y σ ρ hR hσ hρ
  rw [if_neg ht] at hval
  rw [newLink, Link.value, hl, hval, ← hl]
  rfl

private theorem newLink_valid (h : Carries N R s map i g) {l : Link} (hl : l.idx = i) :
    s.ValidLinks [newLink map l] := by
  intro k hk
  obtain rfl := mem_singleton.mp hk
  have hv := h.valid (map i) (mem_singleton_self _)
  rw [← hl] at hv
  exact hv

def Linked (N : Netlist) (R : (EntryID → Bool) → (EntryID → Bool) → Prop) (s : SubnetBuilder)
    (map : IdxToLink) (links : List Link) : Prop :=
  ∀ l ∈ links, ∃ g, g.type ≠ .OUT ∧ Carries N R s map l.idx g

private theorem Linked.valid {links : List Link} (h : Linked N R s map links) :
    s.ValidLinks (links.map (newLink map)) := by
  intro k hk
  obtain ⟨l, hl, rfl⟩ := mem_map.mp hk
  obtain ⟨g, -, hg⟩ := h l hl
  exact newLink_valid hg rfl _ (mem_singleton_self _)

private theorem Linked.value {links : List Link} (h : Linked N R s map links) {lib : CellLibrary}
    {x y : EntryID → Bool} {σ ρ : EntryID → ℕ → Bool} (hR : R x y) (hσ : s.netlist.Solves lib x σ)
    (hρ : N.Solves lib y ρ) :
    (links.map (newLink map)).map (Link.value σ) = links.map (Link.value ρ) := by
  rw [map_map]
  apply map_congr_left
  intro l hl
  obtain ⟨g, ht, hg⟩ := h l hl
  exact newLink_value hg ht rfl hR hσ hρ

structure Built (s s' : SubnetBuilder) (map map' : IdxToLink) (i : EntryID) : Prop where
  le : s.netlist.Le s'.netlist
  other : ∀ j, j ≠ i → map' j = map j
  counts : (s'.nIn, s'.nOut) = (s.nIn, s.nOut)

private theorem mapM_newLink {links : List Link} (hlen : cell.arity = links.length)
    (hread : ∀ j (h : j < links.length), getLink i j = some links[j]) :
    (range cell.arity).mapM (fun j => (getLink i j).map (newLink map)) =
      some (links.map (newLink map)) := by
  rw [hlen]
  apply Netlist.mapM_range_eq_some
  intro j hj
  rw [hread j hj, Option.map_some]

theorem buildCell_gate (h : Grown s ins mid outs) (hi : i < 2 ^ 16)
    (hread : ∀ j (h : j < cell.links.length), getLink i j = some cell.links[j])
    (hneg : cell.type.isNegative = false) (hin : cell.type ≠ .IN) (hout : cell.type ≠ .OUT)
    (hvalid : s.ValidLinks (cell.links.map (newLink map))) :
    ∃ s' idx mid', buildCell cell i getLink s map =
    some (s', Function.update map i ⟨idx, 0, false⟩) ∧
      Grown s' ins mid' outs ∧ GateAdded s s' idx cell.type (cell.links.map (newLink map)) := by
  obtain ⟨s', idx, mid', hadd, hgrown, hgate⟩ := h.addGate hvalid hneg hin hout
  have hisOut : cell.isOut = false := by simp [SubnetCell.isOut, hout]
  refine ⟨s', idx, mid', ?_, hgrown, hgate⟩
  rw [buildCell, Nat.mod_eq_of_lt hi, mapM_newLink rfl hread]
  simp only [Option.bind_eq_bind, Option.bind_some, hisOut, Bool.false_eq_true, if_false, hadd]

/-- An output is not copied; its link is kept. -/
theorem buildCell_out {l : Link} (hi : i < 2 ^ 16) (hout : cell.type = .OUT) (hl : cell.links = [l])
    (hread : getLink i 0 = some l) :
    buildCell cell i getLink s map = some (s, Function.update map i (newLink map l)) := by
  have hisOut : cell.isOut = true := by simp [SubnetCell.isOut, hout]
  have hread' : ∀ j (h : j < [l].length), getLink i j = some [l][j] := by
    intro j hj
    obtain rfl := Nat.lt_one_iff.mp hj
    exact hread
  have hmap : (range cell.arity).mapM (fun j => (getLink i j).map (newLink map)) =
      some ([l].map (newLink map)) := mapM_newLink (by rw [SubnetCell.arity, hl]) hread'
  rw [buildCell, Nat.mod_eq_of_lt hi, hmap]
  simp only [Option.bind_eq_bind, Option.bind_some, hisOut, if_true, map_cons, map_nil,
    getElem?_cons_zero]

theorem buildCell_carries (h : Grown s ins mid outs) (hi : i < 2 ^ 16)
    (hg : N i = some ⟨cell.type, cell.links⟩)
    (hread : ∀ j (h : j < cell.links.length), getLink i j = some cell.links[j])
    (hneg : cell.type.isNegative = false) (hin : cell.type ≠ .IN)
    (hone : cell.type = .OUT → cell.links.length = 1) (hlinked : Linked N R s map cell.links) :
    ∃ s' map' mid', buildCell cell i getLink s map = some (s', map') ∧ Grown s' ins mid' outs ∧
      Built s s' map map' i ∧ Carries N R s' map' i ⟨cell.type, cell.links⟩ := by
  by_cases hout : cell.type = .OUT
  · obtain ⟨l, hl⟩ := length_eq_one_iff.mp (hone hout)
    have hread' : getLink i 0 = some l := by
      rw [hread 0 (by rw [hl]; exact Nat.one_pos)]
      simp [hl]
    obtain ⟨g, ht, hcarry⟩ := hlinked l (by rw [hl]; exact mem_singleton_self l)
    refine ⟨s, _, mid, buildCell_out hi hout hl hread', h,
      ⟨.refl _, fun j hj => Function.update_of_ne hj _ _, rfl⟩, ?_, fun lib x y σ ρ hR hσ hρ => ?_⟩
    · rw [Function.update_self]
      exact newLink_valid hcarry rfl
    · rw [if_pos hout, Function.update_self, newLink_value hcarry ht rfl hR hσ hρ, hρ i _ hg,
        Netlist.gateValue, if_neg hin, hout, hl]
      rfl
  · obtain ⟨s', idx, mid', hbuild, hgrown, hgate⟩ :=
      buildCell_gate h hi hread hneg hin hout hlinked.valid
    have hcounts := hgate.counts
    simp only [decide_eq_false hin, decide_eq_false hout, Bool.toNat_false, Nat.add_zero] at hcounts
    obtain ⟨ls, hls, -⟩ := hgate.here
    refine ⟨s', _, mid', hbuild, hgrown,
      ⟨hgate.le, fun j hj => Function.update_of_ne hj _ _, hcounts⟩,
      ?_, fun lib x y σ ρ hR hσ hρ => ?_⟩
    · rw [Function.update_self]
      apply validLinks_of_netlist
      intro l hl
      obtain rfl := mem_singleton.mp hl
      exact ⟨_, hls, hout⟩
    · rw [if_neg hout, Function.update_self]
      intro out
      rw [hgate.value lib x σ hσ hin, hlinked.value hR (Solves.mono hσ hgate.le) hρ, hρ i _ hg,
        Netlist.gateValue, if_neg hin]

structure Copied (S : Subnet) (R : (EntryID → Bool) → (EntryID → Bool) → Prop) (s : SubnetBuilder)
    (map : IdxToLink) (i : EntryID) : Prop where
  carries : ∀ j c, S.getCell j = some c → j < i → Carries S.netlist R s map j ⟨c.type, c.links⟩

variable {S : Subnet}

private theorem readLink_eq {c : SubnetCell} (hc : S.getCell i = some c) {j : ℕ}
    (hj : j < c.links.length) : readLink S i j = some c.links[j] := by
  simp [readLink, hc, getElem?_eq_getElem hj]

private theorem Copied.linked {c : SubnetCell} (h : Copied S R s map i) (hS : S.WellFormed)
    (hc : S.getCell i = some c) : Linked S.netlist R s map c.links := by
  intro l hl
  obtain ⟨hlt, c', hc', ht⟩ := hS.links i c hc l hl
  exact ⟨⟨c'.type, c'.links⟩, ht, h.carries l.idx c' hc' hlt⟩

theorem buildCellsLoop_eq (hS : S.Arranged) (hsize : S.size ≤ 2 ^ 16) :
    ∀ {n i : ℕ} {s : SubnetBuilder} {map : IdxToLink} {mid : List EntryID}, Grown s ins mid outs →
    Copied S R s map i → S.nIn ≤ i →
      (i < S.size → (S.getCell i).isSome) → S.size ≤ n + i →
      ∃ s' map' mid', buildCellsLoop S n i s map = some (s', map') ∧ Grown s' ins mid' outs ∧
        s.netlist.Le s'.netlist ∧ (s'.nIn, s'.nOut) = (s.nIn, s.nOut) ∧
        Copied S R s' map' S.size := by
  intro n
  induction n with
  | zero =>
    intro i s map mid h hcopied _ _ hn
    have hi : ¬ i < S.size := Nat.not_lt.mpr (by omega)
    refine ⟨s, map, mid, by rw [buildCellsLoop, if_neg hi], h, .refl _, rfl, ⟨fun j c hc hj => ?_⟩⟩
    exact hcopied.carries j c hc (Nat.lt_of_lt_of_le hj (Nat.not_lt.mp hi))
  | succ n ih =>
    intro i s map mid h hcopied hin hlive hn
    by_cases hi : i < S.size
    · obtain ⟨c, hc⟩ := Option.isSome_iff_exists.mp (hlive hi)
      have hwf := hS.wellFormed
      have hg : S.netlist i = some ⟨c.type, c.links⟩ := by rw [Subnet.netlist, hc, Option.map_some]
      have htin : c.type ≠ .IN := fun ht => absurd ((hwf.input i c hc).mp ht) (Nat.not_lt.mpr hin)
      obtain ⟨s₁, map₁, mid₁, hbuild, h₁, hbuilt, hcarry⟩ := buildCell_carries h
        (Nat.lt_of_lt_of_le hi hsize) hg (fun j hj => readLink_eq hc hj) (hwf.positive i c hc) htin
        (hwf.outLink i c hc) (hcopied.linked hwf hc)
      have hcopied₁ : Copied S R s₁ map₁ (i + c.more + 1) := by
        constructor
        intro j a ha hj
        rcases Nat.lt_trichotomy j i with hji | rfl | hji
        · exact (hcopied.carries j a ha hji).mono hbuilt.le (hbuilt.other j (Nat.ne_of_lt hji))
        · obtain rfl := Option.some.inj (hc.symm.trans ha)
          exact hcarry
        · rw [hS.skipped i c hc j hji (Nat.le_of_lt_succ hj)] at ha
          cases ha
      obtain ⟨s', map', mid', hrun, h', hle, hcounts, hdone⟩ := ih h₁ hcopied₁ (by omega)
        (hS.following i c hc) (by omega)
      refine ⟨s', map', mid', ?_, h', hbuilt.le.trans hle, hcounts.trans hbuilt.counts, hdone⟩
      rw [buildCellsLoop, if_pos hi, hc]
      simp only [Option.bind_eq_bind, Option.bind_some, hbuild, hrun]
    · refine ⟨s, map, mid, by rw [buildCellsLoop,
        if_neg hi], h, .refl _, rfl, ⟨fun j c hc hj => ?_⟩⟩
      exact hcopied.carries j c hc (Nat.lt_of_lt_of_le hj (Nat.not_lt.mp hi))

end UtopiaEda.BaseChecker
