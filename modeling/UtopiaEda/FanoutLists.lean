import UtopiaEda.ValidityChecks

/-!
# Fanout lists in runs

All operations but the merging of cells keep the fanout lists equal to the users of the cells.
`mergeCells` takes the user out of the list of its new input instead of the old one.
-/
namespace UtopiaEda.SubnetBuilder
open Incidence Finset

variable {lib : CellLibrary} {s s' : SubnetBuilder} {i u : EntryID}

/-- The fanout list of a cell holds each cell in use once for each of its links to the cell. -/
structure FanoutsExact (s : SubnetBuilder) : Prop where
  count : ∀ i c, s.liveCell i = some c → ∀ u, (s.fanouts i).count u = (s.targets u).count i
  length : ∀ i c, s.liveCell i = some c → (s.fanouts i).length = c.refcount
  live : ∀ i, ∀ u ∈ s.fanouts i, (s.liveCell u).isSome

theorem NetInv.fanoutsExact (h : NetInv s s.targets) (he : s.fanoutsEnabled = true) :
    FanoutsExact s := by
  have hdead : ∀ u, ¬ u < s.size → s.targets u = [] := by
    intro u hu
    by_contra hne
    exact hu (h.user u hne)
  refine ⟨fun i c _ u => ?_, fun i c hc => ?_, fun i u hu => ?_⟩
  · rw [← Multiset.coe_count, h.fanouts he i, count_users]
    split
    · rfl
    · rename_i hu
      rw [hdead u (fun hlt => hu (mem_range.mpr hlt)), List.count_nil]
  · rw [h.refcount i c hc, ← h.fanouts he i, Multiset.coe_card]
  · rw [← Multiset.mem_coe, h.fanouts he i, mem_users, mem_targets] at hu
    obtain ⟨-, g, hg, -⟩ := hu
    obtain ⟨c, hc, -⟩ := liveCell_of_netlist hg
    simp [hc]

/-- The steps that keep the fanout lists right: no cells are merged, `replace` keeps the network
(`ReplaceOk`), and the lists are enabled where the order lists the cells in use. -/
def KeepsFanouts (s : SubnetBuilder) : Operation → Prop
  | .replace rhs iomapping => ∀ root, Fits s rhs iomapping root → ReplaceOk s rhs root
  | .mergeCells _ | .replaceWithZero _ | .replaceWithOne _ => False
  | .enableFanouts => Traversable s
  | _ => True

/-- A valid step that merges no cells keeps the bookkeeping. -/
theorem NetOk.apply {op : Operation} (h : NetOk s) (hv : Valid lib s op) (hk : KeepsFanouts s op)
    (hs : s.apply lib op = some s') : NetOk s' := by
  cases op with
  | addInput =>
    obtain ⟨⟨s₁, r⟩, hadd, rfl⟩ := Option.map_eq_some_iff.mp hs
    exact h.addCell (by simp [ValidLinks]) hadd
  | addCell t links =>
    obtain ⟨⟨s₁, r⟩, hadd, rfl⟩ := Option.map_eq_some_iff.mp hs
    exact h.addCell hv hadd
  | addOutput link =>
    obtain ⟨⟨s₁, r⟩, hadd, rfl⟩ := Option.map_eq_some_iff.mp hs
    exact h.addCell hv hadd
  | replace rhs iomapping =>
    obtain ⟨root, hfit⟩ := hv
    exact h.replace hfit (hk root hfit) hs
  | replaceCell i t links del =>
    obtain ⟨⟨s₁, r⟩, hrep, rfl⟩ := Option.map_eq_some_iff.mp hs
    exact h.replaceCell hv hrep
  | enableFanouts =>
    obtain ⟨F, hF, hnet⟩ := h.net.enableFanouts hv.2 hk
    cases hF.symm.trans hs
    exact ⟨hnet, h.acyclic⟩
  | mergeCells _ => exact hk.elim
  | replaceWithZero _ => exact hk.elim
  | replaceWithOne _ => exact hk.elim

theorem netOk_of_checkRun : ∀ {ops : List Operation} {s : SubnetBuilder},
    (∀ op ∈ ops, ∀ s, KeepsFanouts s op) → NetOk s → checkRun lib ops s = some s' → NetOk s' := by
  intro ops
  induction ops with
  | nil =>
    intro s _ hs h
    cases h
    exact hs
  | cons op ops ih =>
    intro s hk hs h
    rw [checkRun] at h
    split at h
    · rename_i hop
      obtain ⟨s₁, hs₁, h⟩ := Option.bind_eq_some_iff.mp h
      have hk₁ := hk op List.mem_cons_self s
      exact ih (fun o ho => hk o (List.mem_cons_of_mem op ho))
        (hs.apply (valid_of_check hop) hk₁ hs₁) h
    · cases h

theorem fanoutsExact_of_run (hs : Run lib (fun s op => Valid lib s op ∧ KeepsFanouts s op) s)
    (he : s.fanoutsEnabled = true) : FanoutsExact s := by
  have hok : NetOk s := hs.invariant .init (fun _ _ _ h hop => h.apply hop.1 hop.2)
  exact hok.net.fanoutsExact he

/-- The fanout lists of a cell that was linked twice to its first input, then once to each input. -/
theorem fanoutsExact_and : ∃ s, FanoutsExact s ∧ s.fanouts 0 = [2] ∧ s.fanouts 1 = [2] ∧
    s.fanouts 2 = [3, 4, 4] := by
  have h₁ : Run .empty (fun s op => Valid .empty s op ∧ KeepsFanouts s op)
      { fanoutsEnabled := true } :=
    Run.init.next .enableFanouts ⟨⟨rfl, fun _ => rfl⟩, .inl ⟨rfl, fun _ => rfl⟩⟩ rfl
  have h₂ := (h₁.next .addInput ⟨trivial, trivial⟩ rfl).next .addInput ⟨trivial, trivial⟩ rfl
  have h₃ := h₂.next (.addCell .OR [⟨0, 0, true⟩, ⟨0, 0, false⟩]) ⟨validLinks_of_check (by decide),
    trivial⟩ rfl
  have h₄ := h₃.next (.addOutput ⟨2, 0, false⟩) ⟨validLinks_of_check (by decide), trivial⟩ rfl
  have h₅ := h₄.next (.addCell .XOR [⟨2, 0, false⟩, ⟨2, 0, true⟩]) ⟨validLinks_of_check (by decide),
    trivial⟩ rfl
  have h₆ := h₅.next (.replaceCell 2 .AND [⟨0, 0, false⟩, ⟨1, 0, false⟩] true)
    ⟨valid_of_check (by decide +kernel), trivial⟩ rfl
  exact ⟨_, fanoutsExact_of_run h₆ rfl, rfl, rfl, rfl⟩

/-- Merging the cell 3 into the cell 2: the user 4 of both gets two links to the cell 2, but
the list of the cell 2 holds it once. -/
theorem not_fanoutsExact_mergeCells : ¬ ∀ lib s, Run lib (Valid lib) s → s.fanoutsEnabled = true →
    FanoutsExact s := by
  intro h
  have hstart : Run .empty (Valid .empty) { fanoutsEnabled := true } :=
    Run.init.next .enableFanouts ⟨rfl, fun _ => rfl⟩ rfl
  let ops : List Operation := [.addInput, .addInput, .addCell .AND [⟨0, 0, false⟩, ⟨1, 0, false⟩],
    .addCell .OR [⟨0, 0, false⟩, ⟨1, 0, false⟩], .addCell .XOR [⟨2, 0, false⟩, ⟨3, 0, false⟩],
    .addOutput ⟨4, 0, false⟩, .mergeCells [(2, [3])]]
  have hcounts : (checkRun .empty ops { fanoutsEnabled := true }).map (fun s =>
      (s.fanoutsEnabled, (s.liveCell 2).isSome, (s.fanouts 2).count 4, (s.targets 4).count 2)) =
      some (true, true, 1, 2) := by decide
  obtain ⟨s, hs, heq⟩ := Option.map_eq_some_iff.mp hcounts
  simp only [Prod.mk.injEq] at heq
  obtain ⟨c, hc⟩ := Option.isSome_iff_exists.mp heq.2.1
  have hcount := (h _ s (run_of_checkRun hstart hs) heq.1).count 2 c hc 4
  rw [heq.2.2.1, heq.2.2.2] at hcount
  exact absurd hcount (by decide)

end UtopiaEda.SubnetBuilder
