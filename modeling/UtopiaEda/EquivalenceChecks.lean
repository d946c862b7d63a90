import UtopiaEda.BufferDeletion
import UtopiaEda.BuilderMiters
import UtopiaEda.MadeSubnets
import UtopiaEda.MiterGates
import UtopiaEda.RndChecker
import UtopiaEda.SubnetMiters
import UtopiaEda.ViewBdds

/-!
# Checks of equivalence

`areEquivalent` makes a subnet of the miter of two subnets and asks a checker whether its output can
be 1. The verdicts are right for all checkers that decide, although not every counterexample is.
-/
namespace UtopiaEda.BaseChecker
open SubnetBuilder SatChecker List

/-- `areEquivalent` of subnets with the default mapping; `isSat` is the virtual function of the
checker. -/
def areEquivalent (isSat : Subnet → Option CheckerResult) (subnet1 subnet2 : Subnet) :
    Option CheckerResult := do
  let builder ← makeMiter (.ofSubnet subnet1) (.ofSubnet subnet2)
    (makeDefaultMapping (.ofSubnet subnet1) (.ofSubnet subnet2))
  isSat (← builder.make)

/-- The cells keep their links themselves and link to first outputs. -/
structure Checkable (types : List SubnetType) (S : Subnet) : Prop where
  encodable : S.Encodable types types.length
  small : ∀ i c, S.getCell i = some c → c.links.length ≤ InPlaceLinks
  port : ∀ i c, S.getCell i = some c → ∀ l ∈ c.links, l.out = 0
  size : S.size ≤ 2 ^ 16

structure CheckedGate (types : List SubnetType) (p : Prop) (g : Gate) : Prop where
  small : g.links.length ≤ InPlaceLinks
  port : ∀ l ∈ g.links, l.out = 0
  supported : SubnetCell.Supported types types.length ⟨g.type, g.links, 0⟩
  convertible : p → g.type = .IN ∨ g.Convertible

variable {types : List SubnetType} {p : Prop} {S S₁ S₂ : Subnet} {i : EntryID} {c : SubnetCell}

theorem CheckedGate.congr {t : CellTypeID} {ls ls' : List Link} (h : CheckedGate types p ⟨t, ls⟩)
    (hlen : ls'.length = ls.length) (hport : ∀ l ∈ ls', l.out = 0) :
    CheckedGate types p ⟨t, ls'⟩ := by
  refine ⟨hlen ▸ h.small, hport, ?_, fun hp => (h.convertible hp).imp_right (fun hconv => ?_)⟩
  · have hsupp := h.supported
    cases t <;> simp only [SubnetCell.Supported, hlen] at hsupp ⊢ <;> exact hsupp
  · cases t <;> simp only [Gate.Convertible, hlen, ← length_pos_iff] at hconv ⊢ <;> exact hconv

theorem miterGates (types : List SubnetType) (p : Prop) : MiterGates (CheckedGate types p) where
  narrow _ h := h.small
  port _ h := h.port
  congr _ _ _ h hlen hport := h.congr hlen hport
  input := ⟨by decide, by simp, rfl, fun _ => .inl rfl⟩
  output := ⟨by decide, by simp, rfl, fun _ => .inr rfl⟩
  comparison := ⟨by decide, by simp, by simp [SubnetCell.Supported], fun _ => .inr (by simp [Gate.Convertible])⟩
  disjunction := ⟨by decide, by simp, by simp [SubnetCell.Supported], fun _ => .inr (by
    simp [Gate.Convertible])⟩

theorem checkedGate (h : Checkable types S) (hconv : p → ∀ i g, S.netlist i = some g →
    g.type = .IN ∨ g.Convertible) (hc : S.getCell i = some c) : CheckedGate types p ⟨c.type,
    c.links⟩ :=
  ⟨h.small i c hc, h.port i c hc, h.encodable.supported i c hc,
    fun hp => hconv hp i _ (by rw [Subnet.netlist, hc, Option.map_some])⟩

theorem outputs_pos (ht : SubnetType.Valid types) (hc : c.Supported types types.length) :
    0 < c.outputs types := by
  unfold SubnetCell.outputs
  split
  · rename_i sid hsid
    simp only [SubnetCell.Supported, hsid] at hc
    obtain ⟨T, hT, -⟩ := Option.map_eq_some_iff.mp hc.2
    obtain ⟨-, -, hpos, -⟩ := ht sid T hT
    rw [hT]
    exact hpos
  · exact Nat.one_pos

variable {s : SubnetBuilder} {ins mid outs : List EntryID}

/-- A growing builder of checked gates makes a subnet that the checkers support. -/
theorem encodable_of_made (ht : SubnetType.Valid types) (h : Grown s ins mid outs)
    (hS : Made s (s.position (ins ++ mid ++ outs)) S) (hin : s.nIn = ins.length)
    (hout : s.nOut = outs.length) (hgates : ∀ i g, s.netlist i = some g → CheckedGate types p g) :
    S.Encodable types types.length ∧
      ∀ i c, S.getCell i = some c → CheckedGate types p ⟨c.type, c.links⟩ := by
  have hcells : ∀ i c, S.getCell i = some c → CheckedGate types p ⟨c.type, c.links⟩ := by
    intro k c hc
    obtain ⟨i, a, ha, -, rfl⟩ := hS.exists_gate hc
    have hgate := hgates i _ (netlist_of_live ha)
    refine hgate.congr (length_map _) (fun l hl => ?_)
    obtain ⟨l', hl', rfl⟩ := mem_map.mp hl
    exact hgate.port l' hl'
  have hmore : ∀ i c, S.getCell i = some c → c.more = 0 := by
    intro i c hc
    have hsmall := (hcells i c hc).small
    simp only [SubnetCell.more, SubnetCell.arity, InPlaceLinks, InEntryLinks] at hsmall ⊢
    omega
  have hsome : ∀ i < S.size, (S.getCell i).isSome := by
    intro i hi
    obtain ⟨c, hc, -⟩ := hS.narrow h (fun i g hg => (hgates i g hg).small) i hi
    rw [hc]
    rfl
  have hpositive : ∀ i g, s.netlist i = some g → g.type.isNegative = false := by
    intro i g hg
    have hsupp := (hgates i g hg).supported
    obtain ⟨t, ls⟩ := g
    cases t <;> first | rfl | exact hsupp.elim
  have hport : ∀ i g, s.netlist i = some g → ∀ l ∈ g.links, ∀ g', s.netlist l.idx = some g' →
      l.out = 0 ∨ ∃ sid, g'.type = .soft sid :=
      fun i g hg l hl _ _ => .inl ((hgates i g hg).port l hl)
  refine ⟨⟨hS.wellFormed h hin hout hpositive hport, fun i c hc => (hcells i c hc).supported,
    fun i c hc l hl c' hc' => ?_, hsome 0, fun i c hc => ?_, fun i c hc k hk hle => ?_,
    fun i c hc hlt => ?_⟩, hcells⟩
  · rw [(hcells i c hc).port l hl]
    exact outputs_pos ht (hcells l.idx c' hc').supported
  · rw [hmore i c hc]
    exact Subnet.lt_of_getCell hc
  · rw [hmore i c hc] at hle
    exact absurd hk (Nat.not_lt.mpr hle)
  · exact hsome _ hlt

theorem lt_of_input (hS : S.WellFormed) {g : Gate} (hg : S.netlist i = some g) (ht : g.type = .IN) :
    i < S.nIn := by
  obtain ⟨c, hc, rfl⟩ := Option.map_eq_some_iff.mp hg
  exact (hS.input i c hc).mp ht

theorem exists_output (hS : S.WellFormed) {k : ℕ} (hk : k < S.nOut) :
    ∃ c, S.getCell (S.getOutIdx k) = some c := by
  obtain ⟨g, hg, -⟩ := output_gate hS hk
  exact (Option.map_eq_some_iff.mp hg).imp (fun c hc => hc.1)

/-- The builder of the miter; its output is 1 exactly if outputs with the same number differ. -/
theorem exists_builder (h₁ : Checkable types S₁) (h₂ : Checkable types S₂) (hin : S₂.nIn = S₁.nIn)
    (hout : S₂.nOut = S₁.nOut) : ∃ s mid o, makeMiter (.ofSubnet S₁) (.ofSubnet S₂)
    (makeDefaultMapping (.ofSubnet S₁) (.ofSubnet S₂)) = some s ∧
      Grown s (range S₁.nIn) mid [o] ∧ ∀ lib x σ ρ₁ ρ₂, s.netlist.Solves lib x σ →
      S₁.netlist.Solves lib x ρ₁ →
        S₂.netlist.Solves lib x ρ₂ → σ o 0 = (range S₁.nOut).any (fun k =>
          xor (ρ₁ (S₁.getOutIdx k) 0) (ρ₂ (S₂.getOutIdx k) 0)) := by
  have hwf₁ := h₁.encodable.wellFormed
  have hwf₂ := h₂.encodable.wellFormed
  have hb₁ := hwf₁.bounds
  have hb₂ := hwf₂.bounds
  have hwide := nOut_lt hwf₁ h₁.size
  obtain ⟨hins, houts⟩ := @makeDefaultMapping_eq (.ofSubnet S₁) (.ofSubnet S₂) hb₁ hwide
  have hidx₁ : ∀ k, S₁.size + k - S₁.nOut = S₁.getOutIdx k := by
    intro k
    rw [Subnet.getOutIdx]
    omega
  have hidx₂ : ∀ k, S₂.size + k - S₁.nOut = S₂.getOutIdx k := by
    intro k
    rw [Subnet.getOutIdx]
    omega
  have hinput₂ : ∀ j g, S₂.netlist j = some g → g.type = .IN → j < S₁.nIn := fun j g hg ht =>
    Nat.lt_of_lt_of_eq (lt_of_input hwf₂ hg ht) hin
  obtain ⟨s, mid, o, hrun, hgrown, hval⟩ :=
    @makeMiter_eq (makeDefaultMapping (.ofSubnet S₁) (.ofSubnet S₂))
    (.ofSubnet S₁) (.ofSubnet S₂) S₁.netlist S₂.netlist S₂.getOutIdx hin hout hwide
    (ofSubnet_copies h₁.encodable.arranged h₁.size) (ofSubnet_copies h₂.encodable.arranged h₂.size)
    (fun i g hg ht => lt_of_input hwf₁ hg ht)
    (fun j g hg ht => ⟨j, hinput₂ j g hg ht, hins j (hinput₂ j g hg ht)⟩)
    (fun i hi => ⟨i, hins i hi⟩) (fun k hk => by
      have hgate := output_gate hwf₁ hk
      rwa [← hidx₁ k] at hgate)
    (fun k hk => ⟨by rw [houts k hk]; exact congrArg some (hidx₂ k), output_gate hwf₂ (Nat.lt_of_lt_of_eq hk hout.symm)⟩)
  refine ⟨s, mid, o, hrun, hgrown, fun lib x σ ρ₁ ρ₂ hσ hρ₁ hρ₂ => ?_⟩
  refine (hval lib x x σ ρ₁ ρ₂ (fun i hi j hj => ?_) hσ hρ₁ hρ₂).trans ?_
  · rw [hins i hi] at hj
    rw [Option.some.inj hj]
  · simp only [Source.ofSubnet, hidx₁]

/-- The subnet of the miter has one output, which is always 0 exactly if the functions of the
subnets are equal. -/
theorem exists_miter (ht : SubnetType.Valid types) (h₁ : Checkable types S₁)
    (h₂ : Checkable types S₂) (hin : S₂.nIn = S₁.nIn) (hout : S₂.nOut = S₁.nOut)
    (hpos : 0 < S₁.nOut) (hconv₁ : p → ∀ i g, S₁.netlist i = some g → g.type = .IN ∨ g.Convertible)
    (hconv₂ : p → ∀ i g, S₂.netlist i = some g → g.type = .IN ∨ g.Convertible) :
    ∃ M : Subnet, (∀ isSat, areEquivalent isSat S₁ S₂ = isSat M) ∧ M.Encodable types types.length ∧
    M.nIn = S₁.nIn ∧
      M.nOut = 1 ∧ (∀ i c, M.getCell i = some c → CheckedGate types p ⟨c.type, c.links⟩) ∧
      ((∀ x, output types M x = some false) ↔
        S₁.netFunction (SubnetType.library types) = S₂.netFunction (SubnetType.library types)) := by
  have hwf₁ := h₁.encodable.wellFormed
  have hwf₂ := h₂.encodable.wellFormed
  obtain ⟨s, mid, o, hrun, hgrown, hdiffer⟩ := exists_builder h₁ h₂ hin hout
  have hholds := makeMiter_holds (miterGates types p) hwf₁ hwf₂ h₁.size h₂.size
    (fun i c hc => checkedGate h₁ hconv₁ hc) (fun i c hc => checkedGate h₂ hconv₂ hc)
    (by rw [Nat.mod_eq_of_lt (nOut_lt hwf₁ h₁.size)]; exact Nat.ne_of_gt hpos) hrun
  have hcounts := hholds.counts
  simp only [Prod.mk.injEq] at hcounts
  have hgates : ∀ i g, s.netlist i = some g → CheckedGate types p g := by
    intro i g hg
    obtain ⟨c, hc, hct, hl⟩ := liveCell_of_netlist hg
    have hgate := hholds.gates i c (getCell_eq_some.mp (getCell_of_live hc)).2
    rwa [hct, hl] at hgate
  have hnIn : s.nIn = (range S₁.nIn).length := hcounts.1.trans length_range.symm
  obtain ⟨M, hM, hmade⟩ := hgrown.make_eq hnIn hcounts.2 (by rw [hcounts.2]; exact Nat.one_pos)
  obtain ⟨henc, hcells⟩ := encodable_of_made ht hgrown hmade hnIn hcounts.2 hgates
  have hmcounts := hmade.counts
  simp only [Prod.mk.injEq] at hmcounts
  have hmout : M.nOut = 1 := hmcounts.2.1.trans hcounts.2
  have houtput : ∀ x, output types M x = some false ↔ ∀ k ∈ range S₁.nOut,
      S₁.value (SubnetType.library types) x (S₁.getOutIdx k) 0 =
      S₂.value (SubnetType.library types) x (S₂.getOutIdx k) 0 := by
    intro x
    obtain ⟨ρ, hρ, hvalue⟩ := hmade.exists_values hgrown (SubnetType.library types) x
    obtain ⟨ρ₁, hρ₁, hval₁⟩ := hwf₁.exists_values (SubnetType.library types) x
    obtain ⟨ρ₂, hρ₂, hval₂⟩ := hwf₂.exists_values (SubnetType.library types) x
    have hρ' : s.netlist.Solves (SubnetType.library types) x ρ := by
      refine Netlist.Solves.congr_inputs (fun i g hg ht => ?_) hρ
      have hi : i < S₁.nIn := mem_range.mp ((hgrown.input i g hg).mp ht)
      rw [hgrown.position_input (getElem?_range hi)]
    have hplace : M.getOutIdx 0 = s.position (range S₁.nIn ++ mid ++ [o]) o := by
      rw [hgrown.position_output (k := 0) rfl, Subnet.getOutIdx, hmade.size, hmout]
      rfl
    have hlive : (s.netlist o).isSome := (hgrown.mem o).mp (by simp)
    rw [output, hplace, hvalue o hlive, hdiffer _ x ρ ρ₁ ρ₂ hρ' hρ₁ hρ₂, Option.some.injEq,
      any_eq_false]
    refine forall₂_congr (fun k hk => ?_)
    have hk := mem_range.mp hk
    obtain ⟨c₁, hc₁⟩ := exists_output hwf₁ hk
    obtain ⟨c₂, hc₂⟩ := exists_output hwf₂ (hout ▸ hk)
    rw [hval₁ _ c₁ hc₁, hval₂ _ c₂ hc₂, Option.some.injEq]
    simp
  refine ⟨M, fun isSat => ?_, henc, hmcounts.1.trans hcounts.1, hmout, hcells, ?_⟩
  · rw [areEquivalent, hrun, Option.bind_eq_bind, Option.bind_some, hM, Option.bind_eq_bind,
      Option.bind_some]
  · simp only [houtput, Subnet.netFunction, Prod.mk.injEq, hin, hout, true_and, funext_iff,
      map_inj_left]

def Equivalent (types : List SubnetType) (S₁ S₂ : Subnet) : Prop :=
  S₁.netFunction (SubnetType.library types) = S₂.netFunction (SubnetType.library types)

/-- The SAT checker, the simulation of all assignments and the BDD checker tell whether two subnets
have the same function; the simulation needs cells with one output each. -/
theorem areEquivalent_decides (ht : SubnetType.Valid types) (h₁ : Checkable types S₁)
    (h₂ : Checkable types S₂) (hin : S₂.nIn = S₁.nIn) (hout : S₂.nOut = S₁.nOut)
    (hpos : 0 < S₁.nOut) : (∀ varID solve, Function.Injective varID → Decision.Correct solve →
      Decides (Equivalent types S₁ S₂) (areEquivalent (SatChecker.isSat types varID solve) S₁ S₂)) ∧
    (S₁.nIn ≤ 32 → (∀ T ∈ types, T.outNum = 1) → ∀ tries rand,
      Decides (Equivalent types S₁ S₂)
      (areEquivalent (RndChecker.isSat types true tries rand) S₁ S₂)) ∧
    ∀ (DdNode : Type) [DecidableEq DdNode] (cudd : Cudd DdNode), cudd.Correct →
      (∀ i g, S₁.netlist i = some g ∨ S₂.netlist i = some g → g.type = .IN ∨ g.Convertible) →
      Decides (Equivalent types S₁ S₂) (areEquivalent (BddChecker.isSat cudd types) S₁ S₂) := by
  obtain ⟨M, hcheck, henc, hmin, hmout, -, hsame⟩ :=
    exists_miter (p := False) ht h₁ h₂ hin hout hpos False.elim False.elim
  rw [Equivalent, ← hsame]
  refine ⟨fun varID solve hinj hcorrect => ?_, fun hle hone tries rand => ?_,
    fun DdNode _ cudd hc hconv => ?_⟩
  · rw [hcheck]
    exact SatChecker.isSat_decides ht henc hmout hinj hcorrect
  · rw [hcheck]
    exact RndChecker.exhaustive_decides ht henc (fun sid T _ hT => hone T (mem_of_getElem? hT))
      hmout (hmin ▸ hle) tries rand
  · obtain ⟨B, hcheckB, hencB, -, hmoutB, hcells, hsameB⟩ :=
      exists_miter (p := True) ht h₁ h₂ hin hout hpos
      (fun _ i g hg => hconv i g (.inl hg)) (fun _ i g hg => hconv i g (.inr hg))
    rw [hcheckB, hsame, ← hsameB]
    have hgates : ∀ i g, B.netlist i = some g → CheckedGate types True g := by
      intro i g hg
      obtain ⟨c, hc, rfl⟩ := Option.map_eq_some_iff.mp hg
      exact hcells i c hc
    exact BddChecker.isSat_decides hc hencB.arranged hmoutB
      (fun i g hg => (hgates i g hg).convertible trivial)

theorem checkable_of_gates (h : S.Encodable types types.length) (hsize : S.size ≤ 2 ^ 16)
    (hgates : ∀ g ∈ S.entries.filterMap Entry.gate, g.links.length ≤ InPlaceLinks ∧ ∀ l ∈ g.links,
      l.out = 0) :
    Checkable types S := by
  have hcell : ∀ i c, S.getCell i = some c →
      (⟨c.type, c.links⟩ : Gate) ∈ S.entries.filterMap Entry.gate := fun i c hc =>
    BddChecker.mem_gates (i := i) (by rw [Subnet.netlist, hc, Option.map_some])
  exact ⟨h, fun i c hc => (hgates _ (hcell i c hc)).1, fun i c hc => (hgates _ (hcell i c hc)).2,
    hsize⟩

/-- The exclusive or of two inputs from conjunctions and a disjunction. -/
def split : Subnet := ⟨2, 1, 6, 0, [.cell ⟨.IN, [], 2⟩, .cell ⟨.IN, [], 2⟩,
  .cell ⟨.AND, [⟨0, 0, false⟩, ⟨1, 0, true⟩], 1⟩, .cell ⟨.AND, [⟨0, 0, true⟩, ⟨1, 0, false⟩], 1⟩,
  .cell ⟨.OR, [⟨2, 0, false⟩, ⟨3, 0, false⟩], 1⟩, .cell ⟨.OUT, [⟨4, 0, false⟩], 0⟩]⟩

/-- All checkers find that it has the function of the gate. -/
theorem areEquivalent_split : (∀ varID solve, Function.Injective varID → Decision.Correct solve →
      areEquivalent (SatChecker.isSat [] varID solve) parity split = some .equal) ∧
    (∀ tries rand, areEquivalent (RndChecker.isSat [] true tries rand) parity split = some .equal) ∧
    areEquivalent (@BddChecker.isSat _ (Classical.decEq _) BddChecker.functions []) parity split =
      some .equal := by
  have hparity : parity.Encodable [] 0 := SubnetEncoder.encodable_of_check (by decide)
  have hsplit : split.Encodable [] 0 := SubnetEncoder.encodable_of_check (by decide)
  have hsame : Equivalent [] parity split := by
    refine Prod.ext rfl (funext fun x => congrArg (fun b => [b])
      (?_ : output [] parity x = output [] split x))
    have hx : ∀ i < 2, x i = ofList [x 0, x 1] i := by
      intro i hi
      obtain rfl | rfl : i = 0 ∨ i = 1 := by omega
      all_goals rfl
    rw [output_congr hparity.wellFormed hx, output_congr hsplit.wellFormed hx]
    cases x 0 <;> cases x 1 <;> decide
  have hverdict : ∀ {result : Option CheckerResult}, Decides (Equivalent [] parity split) result →
      result = some .equal :=
    fun h => h.elim And.left (fun ⟨_, _, hne⟩ => absurd hsame hne)
  obtain ⟨hsat, hrnd, hbdd⟩ := @areEquivalent_decides [] parity split (fun sid T hT => by cases hT)
    (checkable_of_gates hparity (by decide) (by decide))
    (checkable_of_gates hsplit (by decide) (by decide)) rfl rfl (by decide)
  refine ⟨fun varID solve hinj hcorrect => hverdict (hsat varID solve hinj hcorrect),
    fun tries rand => hverdict (hrnd (by decide) (fun T hT => absurd hT not_mem_nil) tries rand),
    hverdict (@hbdd _ (Classical.decEq _) _ BddChecker.functions_correct (fun i g hg => ?_))⟩
  have hgates : ∀ g ∈ (parity.entries ++ split.entries).filterMap Entry.gate, g.type = .IN ∨
      g.Convertible := by
    simp [parity, split, Entry.gate, Gate.Convertible]
  refine hgates g ?_
  rw [filterMap_append, mem_append]
  exact hg.imp BddChecker.mem_gates BddChecker.mem_gates

end UtopiaEda.BaseChecker
