import UtopiaEda.ViewReading
import UtopiaEda.ViewExtraction
import UtopiaEda.SimulatorRuns
import UtopiaEda.LinkReading

/-!
# The schedule of a view

A traversal goes over the inputs of a view and then over the gates, every gate after its fanins, if
the links of the cells above the inputs are read as they were given.
-/
namespace UtopiaEda
open PostorderSearches SubnetBuilder List

/-- The entries of every cell stand together and hold its links. -/
def SubnetBuilder.LinksStored (s : SubnetBuilder) : Prop :=
  ∀ i c, s.liveCell i = some c → ∃ es u v, Stored s.entries es (c.links.drop InPlaceLinks) ∧
    s.order.Lists (u ++ i :: es ++ v)

theorem SubnetBuilder.Grown.linksStored {s : SubnetBuilder} {ins mid outs : List EntryID}
    (h : Grown s ins mid outs) : s.LinksStored := by
  intro i c hc
  obtain ⟨u, v, hl⟩ := h.block_infix (netlist_of_live hc)
  exact ⟨_, u, v, h.stored i _ (netlist_of_live hc), hl⟩

/-- The links of a cell are read as they were given. -/
structure SubnetBuilder.ReadsCell (s : SubnetBuilder) (i : EntryID) (c : SubnetCell) : Prop where
  getLink : ∀ j (h : j < c.links.length), s.getLink i j = some c.links[j]
  getLinks : s.getLinks i = some c.links

theorem SubnetBuilder.Grown.readsCell {s : SubnetBuilder} {ins mid outs : List EntryID}
    {i : EntryID} {c : SubnetCell} (h : Grown s ins mid outs) (hc : s.liveCell i = some c) :
    s.ReadsCell i c := by
  obtain ⟨u, v, hl⟩ := h.block_infix (netlist_of_live hc)
  exact ⟨fun _ hj => h.getLink hc hj, getLinks_of_stored (getCell_of_live hc)
    (h.stored i _ (netlist_of_live hc)) hl.visits⟩

theorem defaultLinkProvider_eq {s : SubnetBuilder} {i : EntryID} {c : SubnetCell}
    (hc : s.liveCell i = some c) (hr : s.ReadsCell i c) : defaultLinkProvider s i =
    some c.links := by
  simp only [defaultLinkProvider, getCell_of_live hc, Option.bind_eq_bind, Option.bind_some]
  rw [SubnetCell.arity, Netlist.mapM_range_bind some hr.getLink]
  exact (Netlist.mapM_eq_some (v := id) (fun _ _ => rfl)).trans (by rw [map_id])

namespace SubnetView

variable {v : SubnetView} {P : Gate → Prop} {i j o : EntryID}

structure Covered (v : SubnetView) (P : Gate → Prop) : Prop where
  net : v.parent.NetOk
  inputs : ∀ i ∈ v.inputs, (v.parent.netlist i).isSome
  outputs : ∀ o ∈ v.outputs, (v.parent.netlist o).isSome
  nonempty : v.outputs ≠ []
  gates : ∀ o ∈ v.outputs, ∀ i g, v.parent.netlist.InCone v.inputs o i → v.parent.netlist i =
    some g → P g

def Above (v : SubnetView) (i : EntryID) : Prop :=
  ∃ o ∈ v.outputs, v.parent.netlist.InCone v.inputs o i

theorem Above.not_mem (h : v.Above i) : i ∉ v.inputs := by
  obtain ⟨o, -, hi⟩ := h
  exact hi.not_mem

/-- The links of the cells above the inputs are read as they were given. -/
def Readable (v : SubnetView) : Prop :=
  ∀ i c, v.Above i → v.parent.liveCell i = some c → v.parent.ReadsCell i c

theorem readable_of_grown {ins mid outs : List EntryID} (h : Grown v.parent ins mid outs) :
    v.Readable :=
  fun _ _ _ hc => h.readsCell hc

def Contains (v : SubnetView) (i : EntryID) : Prop :=
  i ∈ v.inputs ∨ ∃ o ∈ v.outputs, v.parent.netlist.InCone v.inputs o i

def innerLinks (v : SubnetView) : LinkProvider := fun i =>
  if i ∈ v.inputs then some [] else defaultLinkProvider v.parent i

/-- The walker that takes the inputs for cells without links. -/
def innerWalker (v : SubnetView) : SubnetViewWalker :=
  { v.walker with linkProvider := v.innerLinks }

theorem innerLinks_eq (h : v.Covered P) (hr : v.Readable) (ho : o ∈ v.outputs)
    (hi : v.parent.netlist.InCone v.inputs o i) : ∃ g, v.parent.netlist i = some g ∧
    v.innerLinks i = some g.links := by
  obtain ⟨g, hg⟩ := Option.isSome_iff_exists.mp (hi.isSome h.net.net.closed' (h.outputs o ho))
  obtain ⟨c, hc, -, hl⟩ := liveCell_of_netlist hg
  refine ⟨g, hg, ?_⟩
  rw [innerLinks, if_neg hi.not_mem, defaultLinkProvider_eq hc (hr i c ⟨o, ho, hi⟩ hc), hl]

private theorem mem_next_inner (h : v.Covered P) (hr : v.Readable) (ho : o ∈ v.outputs)
    (hi : v.parent.netlist.InCone v.inputs o i) : j ∈ v.innerLinks.next i ↔
    v.parent.netlist.Fanin i j := by
  obtain ⟨g, hg, hlinks⟩ := innerLinks_eq h hr ho hi
  rw [LinkProvider.next_eq hlinks, mem_map]
  constructor
  · intro ⟨l, hl, heq⟩
    exact ⟨g, hg, l, hl, heq⟩
  · intro ⟨g', hg', l, hl, heq⟩
    rw [hg] at hg'
    exact ⟨l, Option.some.inj hg' ▸ hl, heq⟩

private theorem next_input (hi : i ∈ v.inputs) : v.innerLinks.next i = [] := by
  rw [LinkProvider.next, innerLinks, if_pos hi]
  rfl

private theorem exists_rank_inner (h : v.Covered P) (hr : v.Readable) :
    ∃ r : EntryID → ℕ, v.innerWalker.Sound v.Contains r := by
  obtain ⟨r₀, hr₀⟩ := h.net.acyclic
  obtain ⟨r, hlt, hrank⟩ := AcyclicSystems.exists_rank_lt_card
    ((Finset.range v.parent.size).filter (fun i => (v.parent.netlist i).isSome)) r₀
  have hlive : ∀ i, v.Contains i → (v.parent.netlist i).isSome := by
    rintro i (hi | ⟨o, ho, hi⟩)
    · exact h.inputs i hi
    · exact hi.isSome h.net.net.closed' (h.outputs o ho)
  have hsize : ∀ i, v.Contains i → i < v.parent.size := by
    intro i hi
    obtain ⟨g, hg⟩ := Option.isSome_iff_exists.mp (hlive i hi)
    exact lt_of_netlist hg
  have hmem : ∀ i, v.Contains i →
      i ∈ (Finset.range v.parent.size).filter (fun i => (v.parent.netlist i).isSome) :=
    fun i hi => Finset.mem_filter.mpr ⟨Finset.mem_range.mpr (hsize i hi), hlive i hi⟩
  have hfanin : ∀ i, v.Contains i → ∀ j ∈ v.innerLinks.next i, v.Contains j ∧
      v.parent.netlist.Fanin i j := by
    rintro i (hi | ⟨o, ho, hi⟩) j hj
    · rw [next_input hi] at hj
      cases hj
    · have hij := (mem_next_inner h hr ho hi).mp hj
      refine ⟨?_, hij⟩
      by_cases hin : j ∈ v.inputs
      · exact .inl hin
      · exact .inr ⟨o, ho, hi.1, .tail hi.2 ⟨hij, hin⟩⟩
  refine ⟨r, ⟨fun i hi => ?_, fun i hi j hj => ?_, fun i hi => ?_, hsize⟩, fun o ho => ?_,
    h.nonempty⟩
  · have hread : ∃ ls, v.innerLinks i = some ls := by
      rcases hi with hi | ⟨o, ho, hi⟩
      · exact ⟨[], if_pos hi⟩
      · obtain ⟨g, -, hlinks⟩ := innerLinks_eq h hr ho hi
        exact ⟨g.links, hlinks⟩
    obtain ⟨ls, hls⟩ := hread
    refine ⟨ls, hls, fun l hl => (hfanin i hi l.idx ?_).1⟩
    rw [LinkProvider.next_eq hls]
    exact mem_map_of_mem hl
  · obtain ⟨hj, hij⟩ := hfanin i hi j hj
    exact hrank j (hmem j hj) i (hr₀ i j hij)
  · refine Nat.lt_of_lt_of_le (hlt i (hmem i hi)) (Nat.le_trans (Finset.card_filter_le _ _) ?_)
    rw [Finset.card_range]
    exact Nat.le_refl v.parent.size
  · by_cases hin : o ∈ v.inputs
    · exact .inl hin
    · exact .inr ⟨o, ho, hin, .refl⟩

def inputEntries (v : SubnetView) : List ViewEntry :=
  v.inputs.map (fun i => ⟨true, decide (i ∈ v.outputs), i⟩)

theorem inputEntries_ids : v.inputEntries.map ViewEntry.entryID = v.inputs := by
  rw [inputEntries, map_map]
  exact map_id _

structure Schedule (v : SubnetView) (P : Gate → Prop) (ps : List ViewEntry) : Prop where
  gates : ∀ A e B, ps = A ++ e :: B → e.isIn = false ∧ v.Above e.entryID ∧
    ∃ g, v.parent.netlist e.entryID = some g ∧ P g ∧ ∀ l ∈ g.links,
    l.idx ∈ v.inputs ++ A.map ViewEntry.entryID
  outputs : ∀ o ∈ v.outputs, o ∈ ((v.inputEntries ++ ps).filter ViewEntry.isOut).map
    ViewEntry.entryID

private theorem cone_inner (h : v.Covered P) (hr : v.Readable) (ho : o ∈ v.outputs)
    (hc : Cone v.innerLinks.next v.inputs.reverse o i) : v.parent.netlist.InCone v.inputs o i := by
  refine hc.mem ⟨fun hin => hc.1 (mem_reverse.mpr hin), .refl⟩ (fun a b ha hb hdone => ?_)
  have hab := (mem_next_inner h hr ho ha).mp hb
  exact ⟨ha.1, .tail ha.2 ⟨hab, fun hin => hdone (mem_reverse.mpr hin)⟩⟩

/-- The traversal goes over the inputs and then over the gates, every gate after its fanins. -/
theorem exists_schedule (h : v.Covered P) (hr : v.Readable) : ∃ ps, v.Schedule P ps ∧
    ∀ {τ : Type} (f : Visitor τ) (st : τ), v.walker.iterate (some f) none st =
      some (!(calls (some f) (v.inputEntries ++ ps) (false, st)).1,
      (calls (some f) (v.inputEntries ++ ps) (false, st)).2) := by
  obtain ⟨r, hsound⟩ := exists_rank_inner h hr
  obtain ⟨passes, hp⟩ := hsound.exists_passes
  have hroots : ∀ t ∈ v.innerWalker.roots, t ∈ v.outputs ∧ t ∉ v.inputs :=
    fun t ht => SubnetViewWalker.mem_roots.mp ht
  have hids : (SubnetViewIterator.passEntries v.innerWalker.roots passes).map ViewEntry.entryID =
      visits v.innerWalker.roots passes := SubnetViewWalker.passEntries_ids passes
  have hcone : ∀ i ∈ visits v.innerWalker.roots passes, ∃ o ∈ v.outputs,
      v.parent.netlist.InCone v.inputs o i := by
    intro i hi
    obtain ⟨o, ho, hc⟩ := hp.cone (fun t ht hin => (hroots t ht).2 (mem_reverse.mp hin)) i hi
    exact ⟨o, (hroots o ho).1, cone_inner h hr (hroots o ho).1 hc⟩
  refine ⟨SubnetViewIterator.passEntries v.innerWalker.roots passes,
    ⟨fun A e B hl => ?_, fun o ho => ?_⟩, fun f st => ?_⟩
  · have he : e ∈ SubnetViewIterator.passEntries v.innerWalker.roots passes := by
      rw [hl]
      exact mem_append_right A mem_cons_self
    have hvisit : e.entryID ∈ visits v.innerWalker.roots passes := hids ▸ mem_map_of_mem he
    obtain ⟨o, ho, hi⟩ := hcone _ hvisit
    obtain ⟨g, hg, -⟩ := innerLinks_eq h hr ho hi
    refine ⟨SubnetViewWalker.passEntries_isIn passes e he, ⟨o, ho, hi⟩, g, hg,
      h.gates o ho _ g hi hg, fun l hl' => ?_⟩
    have hmap := congrArg (map ViewEntry.entryID) hl
    rw [hids, map_append, map_cons] at hmap
    have hbefore := hp.topological _ _ _ hmap l.idx ((mem_next_inner h hr ho hi).mpr ⟨g, hg, l,
      hl', rfl⟩)
    exact mem_append.mpr (hbefore.imp mem_reverse.mp id)
  · change o ∈ ((v.innerWalker.viewEntries passes).filter ViewEntry.isOut).map ViewEntry.entryID
    rw [SubnetViewWalker.viewEntries_outs hp.length_eq, mem_append, mem_filter,
      SubnetViewWalker.mem_roots]
    by_cases hin : o ∈ v.inputs
    · exact .inl ⟨hin, decide_eq_true ho⟩
    · exact .inr ⟨ho, hin⟩
  · have hrun := @SubnetViewWalker.Sound.iterate_eq _ _ (some f) none _ _ hsound _ hp
      (fun _ _ _ _ => rfl) st
    refine Eq.trans ?_ hrun
    exact (SubnetViewWalker.iterate_congr (w := v.walker) (fun i hi => if_neg hi)
      (some f) none st).symm

end SubnetView

end UtopiaEda
