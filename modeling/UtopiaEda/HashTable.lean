import UtopiaEda.BuilderValues
import UtopiaEda.CellMerging
import UtopiaEda.ValidityChecks

/-!
# The hash table in runs

The table leads to cells with the right key as long as no hashed cell links to a merged one:
`mergeCells` changes the links of a cell without changing its key in the table.
-/
namespace UtopiaEda.SubnetBuilder
open Incidence Finset
open Option (isSome_iff_exists map_eq_some_iff)

variable {lib : CellLibrary} {s s' : SubnetBuilder} {i z : EntryID} {N : Netlist}
  {f : EntryID → Option EntryID}

def TableSound (s : SubnetBuilder) : Prop :=
  ∀ k i, s.strash k = some i → ∃ c, s.liveCell i = some c ∧ StrashKey.make c.type c.links = k

/-- `addCell` yields the requested gate of the values of the links. -/
def AddsGates (lib : CellLibrary) (s : SubnetBuilder) : Prop :=
  ∀ t links s' r, s.ValidLinks links → t ≠ .IN → s.addCell t links = some (s', r) → ∀ x,
    ∃ bs : List Bool, links.map (s.linkValue lib x) = bs.map some ∧
      (∀ out, s'.value lib x r.idx out = some (t.eval lib bs out)) ∧
      ∀ i out, (s.netlist i).isSome → s'.value lib x i out = s.value lib x i out

theorem NetInv.tableSound {V : EntryID → List EntryID} (h : NetInv s V) : TableSound s := by
  intro k i hk
  obtain ⟨c, hc, he, hkey⟩ := h.strash k i hk
  simp only [SubnetCell.isEnabled, SubnetCell.arity, Bool.and_eq_true] at he
  rw [SubnetCell.key, List.take_of_length_le (of_decide_eq_true he.2)] at hkey
  exact ⟨c, hc, hkey⟩

/-- The steps that keep the table right: `replace` keeps the network (`ReplaceOk`) and no
hashed cell links to a merged one (`MergeOk`). The fanout lists are not kept meanwhile. -/
def KeepsTable (s : SubnetBuilder) : Operation → Prop
  | .replace rhs iomapping => ∀ root, Fits s rhs iomapping root → ReplaceOk s rhs root
  | .mergeCells entryIDs => MergeOk s entryIDs
  | .replaceWithZero entryIDs =>
    ∀ s₁ zero, s.addCell .ZERO [] = some (s₁, zero) → MergeOk s₁ [(zero.idx, entryIDs)]
  | .replaceWithOne entryIDs =>
    ∀ s₁ one, s.addCell .ONE [] = some (s₁, one) → MergeOk s₁ [(one.idx, entryIDs)]
  | .enableFanouts => False
  | _ => True

private theorem redirect_acyclic (hN : N.Acyclic) (hz : ∀ g, N z = some g → g.links = [])
    (hf : ∀ i e, f i = some e → e = z) : (N.redirect f).Acyclic := by
  obtain ⟨r, hr⟩ := hN
  refine ⟨fun i => if i = z then 0 else r i + 1, ?_⟩
  rintro i j ⟨g, hg, l, hl, rfl⟩
  obtain ⟨g₀, hg₀, rfl⟩ := map_eq_some_iff.mp hg
  obtain ⟨l₀, hl₀, rfl⟩ := List.mem_map.mp hl
  have hi : i ≠ z := by
    rintro rfl
    rw [hz g₀ hg₀] at hl₀
    cases hl₀
  have hlt := hr i l₀.idx ⟨g₀, hg₀, l₀, hl₀, rfl⟩
  show (if (f l₀.idx).getD l₀.idx = z then 0 else r ((f l₀.idx).getD l₀.idx) + 1) <
    if i = z then 0 else r i + 1
  rw [if_neg hi]
  cases hfl : f l₀.idx with
  | some e => simp [hf _ e hfl]
  | none =>
    rw [Option.getD_none]
    split
    · exact Nat.succ_pos _
    · exact Nat.succ_lt_succ hlt

private theorem acyclic_of_sub {N' : Netlist} (hN : N.Acyclic)
    (hsub : ∀ i g, N' i = some g → N i = some g) : N'.Acyclic := by
  obtain ⟨r, hr⟩ := hN
  refine ⟨r, ?_⟩
  rintro i j ⟨g, hg, hl⟩
  exact hr i j ⟨g, hsub i g hg, hl⟩

private theorem ne_out_of_outNum {t : CellTypeID} (h : t.getOutNum lib = 1) : t ≠ .OUT := by
  rintro rfl
  cases h

theorem NetOk.mergeCells {m : MergeMap} (h : NetOk s) (hoff : s.fanoutsEnabled = false)
    (hfit : MergeFits lib s m) (hok : MergeOk s m) (hm : s.mergeCells lib m = some s') :
    NetOk s' ∧ s'.fanoutsEnabled = false := by
  have hself : ∀ i, ¬ s.netlist.Fanin i i := fun i hi => not_reaches_of_fanin h.acyclic hi .refl
  obtain ⟨hnet, hoff', D, hD⟩ := h.net.of_mergeCells hoff hself (fun p hp i hi => by
    obtain ⟨g, hg, ht⟩ := hfit.live p hp i hi
    exact ⟨g, hg, ne_out_of_outNum ht⟩) hok hm
  refine ⟨⟨hnet, acyclic_of_sub hfit.acyclic (fun i g hg => ?_)⟩, hoff'⟩
  rw [hD] at hg
  split at hg
  · cases hg
  · exact hg

theorem NetOk.replaceWith {t : CellTypeID} {ids : List EntryID} {r : Link} {s₁ : SubnetBuilder}
    (h : NetOk s) (hoff : s.fanoutsEnabled = false) (ht : t = .ZERO ∨ t = .ONE)
    (hlive : ∀ i ∈ ids, ∃ g, s.netlist i = some g ∧ g.type.getOutNum lib = 1)
    (hadd : s.addCell t [] = some (s₁, r)) (hok : MergeOk s₁ [(r.idx, ids)])
    (hm : s₁.mergeCells lib [(r.idx, ids)] = some s') : NetOk s' ∧ s'.fanoutsEnabled = false := by
  have hvalid : s.ValidLinks [] := by simp [ValidLinks]
  obtain ⟨-, -, hadded⟩ := h.net.of_addCell hvalid hadd
  have h₁ := h.addCell hvalid hadd
  obtain ⟨ls, hls, hkey⟩ := hadded.here
  have hnil : ls = [] := by
    have := (StrashKey.make_eq hkey).2.1
    exact this.eq_nil
  refine h₁.mergeCells (hadded.enabled.trans hoff) ⟨fun p hp i hi => ?_, ?_⟩ hok hm
  · rw [List.mem_singleton.mp hp] at hi
    rcases List.mem_cons.mp hi with rfl | hi
    · refine ⟨_, hls, ?_⟩
      rcases ht with rfl | rfl <;> rfl
    · obtain ⟨g, hg, hgt⟩ := hlive i hi
      exact ⟨g, hadded.of_old hg, hgt⟩
  · refine redirect_acyclic (z := r.idx) h₁.acyclic (fun g hg => ?_) (fun i e he => ?_)
    · rw [hls] at hg
      cases hg
      exact hnil
    · obtain ⟨ids', hmem⟩ := mem_of_mergeTo he
      exact congrArg Prod.fst (List.mem_singleton.mp hmem)

theorem NetOk.apply_table {op : Operation} (h : NetOk s) (hoff : s.fanoutsEnabled = false)
    (hv : Valid lib s op) (hk : KeepsTable s op) (hs : s.apply lib op = some s') :
    NetOk s' ∧ s'.fanoutsEnabled = false := by
  cases op with
  | addInput =>
    obtain ⟨⟨s₁, r⟩, hadd, rfl⟩ := map_eq_some_iff.mp hs
    have hvalid : s.ValidLinks [] := by simp [ValidLinks]
    exact ⟨h.addCell hvalid hadd, (h.net.of_addCell hvalid hadd).2.2.enabled.trans hoff⟩
  | addCell t links =>
    obtain ⟨⟨s₁, r⟩, hadd, rfl⟩ := map_eq_some_iff.mp hs
    exact ⟨h.addCell hv hadd, (h.net.of_addCell hv hadd).2.2.enabled.trans hoff⟩
  | addOutput link =>
    obtain ⟨⟨s₁, r⟩, hadd, rfl⟩ := map_eq_some_iff.mp hs
    exact ⟨h.addCell hv hadd, (h.net.of_addCell hv hadd).2.2.enabled.trans hoff⟩
  | replace rhs iomapping =>
    obtain ⟨root, hfit⟩ := hv
    refine ⟨h.replace hfit (hk root hfit) hs, ?_⟩
    obtain ⟨g, hg⟩ := isSome_iff_exists.mp hfit.live
    obtain ⟨c, hc, -⟩ := liveCell_of_netlist hg
    obtain ⟨out, st, i, t, links, -, hmapped, -, hroot⟩ :=
      of_replace h.net h.acyclic hfit (hk root hfit).unhashed hc ((hk root hfit).last c hc) hs
    obtain ⟨D, hrep⟩ := hroot.replaced
    exact hrep.enabled.trans (hmapped.enabled.trans hoff)
  | replaceCell i t links del =>
    obtain ⟨⟨s₁, r⟩, hrep, rfl⟩ := map_eq_some_iff.mp hs
    refine ⟨h.replaceCell hv hrep, ?_⟩
    obtain ⟨g, hg⟩ := isSome_iff_exists.mp hv.live
    obtain ⟨c, hc, -⟩ := liveCell_of_netlist hg
    obtain ⟨-, -, D, hrepl⟩ := h.net.of_replaceCell h.acyclic hc hv.valid hv.acyclic hrep
    exact hrepl.enabled.trans hoff
  | mergeCells m => exact h.mergeCells hoff hv hk hs
  | replaceWithZero ids =>
    obtain ⟨⟨s₁, r⟩, hadd, hm⟩ := Option.bind_eq_some_iff.mp hs
    exact h.replaceWith hoff (.inl rfl) hv hadd (hk s₁ r hadd) hm
  | replaceWithOne ids =>
    obtain ⟨⟨s₁, r⟩, hadd, hm⟩ := Option.bind_eq_some_iff.mp hs
    exact h.replaceWith hoff (.inr rfl) hv hadd (hk s₁ r hadd) hm
  | enableFanouts => exact hk.elim

theorem tableSound_of_run (hs : Run lib (fun s op => Valid lib s op ∧ KeepsTable s op) s) :
    TableSound s ∧ AddsGates lib s := by
  have hok : NetOk s ∧ s.fanoutsEnabled = false :=
    hs.invariant (I := fun s => NetOk s ∧ s.fanoutsEnabled = false) ⟨.init, rfl⟩
      (fun _ _ _ h hop => h.1.apply_table h.2 hop.1 hop.2)
  exact ⟨hok.1.net.tableSound, fun t links s' r hl ht hadd x => hok.1.addCell_value hl ht hadd x⟩

/-- A sufficient condition for `MergeOk`: only outputs link to merged cells. -/
def checkMerge (s : SubnetBuilder) (entryIDs : MergeMap) : Bool :=
  match s.order.entryIDs with
  | none => false
  | some L =>
    decide L.Nodup && L.all (fun i => (s.netlist i).isSome) &&
    (List.range s.size).all (fun i => decide ((s.netlist i).isSome → i ∈ L)) &&
    decide (L.Pairwise fun a b => ∀ l ∈ s.linksOf a, l.idx ≠ b) &&
    entryIDs.all (fun p => decide (entryIDs.mergeTo p.1 = none)) &&
    (List.range s.size).all fun i => (s.netlist i).all fun g =>
      decide (g.type = .OUT) || g.links.all fun l => decide (entryIDs.mergeTo l.idx = none)

private theorem mergeOk_of_check {V : EntryID → List EntryID} {m : MergeMap} (h : NetInv s V)
    (hm : s.checkMerge m = true) : MergeOk s m := by
  unfold checkMerge at hm
  split at hm
  · cases hm
  · rename_i L hL
    simp only [Bool.and_eq_true, decide_eq_true_eq, List.all_eq_true, List.mem_range] at hm
    obtain ⟨⟨⟨⟨⟨hnodup, hlive⟩, hall⟩, hpair⟩, hchain⟩, hlinks⟩ := hm
    constructor
    · refine ⟨L, hL, hnodup, fun i => ⟨hlive i, fun hi => ?_⟩, hpair.imp ?_⟩
      · obtain ⟨g, hg⟩ := isSome_iff_exists.mp hi
        exact hall i (lt_of_netlist hg) hi
      · rintro a b hab ⟨g, hg, l, hl, rfl⟩
        exact hab l (by simpa [linksOf, hg] using hl) rfl
    · exact hchain
    · intro k i hk g hg l hl
      obtain ⟨c, hc, he, -⟩ := h.strash k i hk
      have hrow := hlinks i (lt_of_netlist hg)
      simp only [hg, Option.all_some, Bool.or_eq_true, decide_eq_true_eq, List.all_eq_true] at hrow
      rcases hrow with hout | hfree
      · obtain ⟨c', hc', ht, -⟩ := liveCell_of_netlist hg
        rw [hc] at hc'
        cases hc'
        simp [SubnetCell.isEnabled, SubnetCell.isOut, ht.trans hout] at he
      · exact hfree l hl

/-- The cell 3 is merged into the cell 2, only outputs use it: `addCell` finds the cell 2. -/
theorem tableSound_mergeCells : ∃ s, (TableSound s ∧ AddsGates .empty s) ∧ s.netlist 3 = none ∧
    (s.addCell .AND [⟨1, 0, false⟩, ⟨0, 0, false⟩]).map Prod.snd = some ⟨2, 0, false⟩ := by
  have hempty : Run .empty (fun s op => Valid .empty s op ∧ KeepsTable s op) {} := .init
  have h₁ := hempty.next .addInput ⟨trivial, trivial⟩ rfl
  have h₂ := h₁.next .addInput ⟨trivial, trivial⟩ rfl
  have h₃ := h₂.next (.addCell .AND [⟨0, 0, false⟩, ⟨1, 0, false⟩])
    ⟨validLinks_of_check (by decide), trivial⟩ rfl
  have h₄ := h₃.next (.addCell .OR [⟨0, 0, false⟩, ⟨1, 0, false⟩])
    ⟨validLinks_of_check (by decide), trivial⟩ rfl
  have h₅ := h₄.next (.addOutput ⟨2, 0, false⟩)
    ⟨validLinks_of_check (by decide), trivial⟩ rfl
  have h₆ := h₅.next (.addOutput ⟨3, 0, false⟩)
    ⟨validLinks_of_check (by decide), trivial⟩ rfl
  have hnet := (h₆.invariant (I := fun s => NetOk s ∧ s.fanoutsEnabled = false) ⟨.init, rfl⟩
    fun _ _ _ h hop => h.1.apply_table h.2 hop.1 hop.2).1.net
  have h₇ := h₆.next (.mergeCells [(2, [3])])
    ⟨valid_of_check (by decide), mergeOk_of_check hnet (by decide)⟩ rfl
  exact ⟨_, tableSound_of_run h₇, rfl, rfl⟩

/-- Merging the cell 3 into the cell 2: the key of the XOR cell 4 of both stays in the table,
although both its links lead to the cell 2 then. -/
theorem not_tableSound_mergeCells : ¬ ∀ lib s, Run lib (Valid lib) s →
    TableSound s ∧ AddsGates lib s := by
  intro h
  let ops : List Operation := [.addInput, .addInput, .addCell .AND [⟨0, 0, false⟩, ⟨1, 0, false⟩],
    .addCell .OR [⟨0, 0, false⟩, ⟨1, 0, false⟩], .addCell .XOR [⟨2, 0, false⟩, ⟨3, 0, false⟩],
    .addOutput ⟨4, 0, false⟩, .mergeCells [(2, [3])]]
  have hcell : (checkRun .empty ops {}).map (fun s =>
      (s.strash (StrashKey.make .XOR [⟨2, 0, false⟩, ⟨3, 0, false⟩]), s.liveCell 4)) =
      some (some 4, some ⟨.XOR, [⟨2, 0, false⟩, ⟨2, 0, false⟩], 1⟩) := by decide
  obtain ⟨s, hs, heq⟩ := map_eq_some_iff.mp hcell
  simp only [Prod.mk.injEq] at heq
  obtain ⟨c, hc, hkey⟩ := (h _ s (run_of_checkRun .init hs)).1 _ _ heq.1
  rw [heq.2] at hc
  cases hc
  exact absurd hkey (by decide)

end UtopiaEda.SubnetBuilder
