import UtopiaEda.LinkEntryRuns

/-!
# Reading the links of wide cells

In a subnet every link is read as it was given. In a builder `getLink` goes wrong from the eighth
link on: the walk over the entries of links stops one link too late, so it names a position outside
of the entry. `getLinks` is right for all cells.
-/
namespace UtopiaEda
open List
open Option (bind_eq_bind bind_some some.inj)

namespace SubnetBuilder
open EntryOrder SegmentedLists

variable {lib : CellLibrary} {s : SubnetBuilder} {i : EntryID} {c : SubnetCell}
  {chain : EntryID → List EntryID} {l : List EntryID} {seg : ℕ → List EntryID}

/-- Every link is read as it was given, at a position inside an entry of its own. -/
structure ReadsLinks (s : SubnetBuilder) (i : EntryID) (c : SubnetCell) : Prop where
  getLink : ∀ j < c.arity, s.getLink i j = c.links[j]?
  getLinks : s.getLinks i = some c.links
  inside : ∀ j < c.arity, ∃ n k e, s.getLinkIndices i j = some (n, k) ∧ s.entryAt n = some e ∧
    k < e.capacity
  distinct : ∀ j < c.arity, ∀ j' < c.arity, s.getLinkIndices i j = s.getLinkIndices i j' → j = j'

theorem Chained.exists_stored (h : Chained s chain l seg) (hc : s.liveCell i = some c) :
    ∃ es u v, Stored s.entries es (c.links.drop InPlaceLinks) ∧
    s.order.Lists (u ++ i :: es ++ v) := by
  by_cases hw : c.IsWide
  · obtain ⟨u, v, hl⟩ := h.segments.segmented.whole _ ⟨i, c, hc, hw, rfl⟩
    exact ⟨chain i, u, v, (h.stored i c hc hw).1, hl ▸ h.segments.lists⟩
  · obtain ⟨u, v, hl⟩ := append_of_mem (h.mem i (by rw [hc]; rfl)).1
    refine ⟨[], u, v, drop_eq_nil_of_le (Nat.not_lt.mp hw), ?_⟩
    have hlists := h.segments.lists
    rw [hl] at hlists
    simpa using hlists

theorem not_inside_of_lt (hlen : InPlaceLinks + InEntryLinks < c.arity) : ¬ s.ReadsLinks i c := by
  intro h
  obtain ⟨n, k, e, hindices, -, hk⟩ := h.inside _ hlen
  rw [getLinkIndices_of_le (Nat.lt_succ_self _),
    if_neg (Nat.not_lt.mpr (Nat.le_add_right _ _))] at hindices
  obtain ⟨n', -, heq⟩ := Option.map_eq_some_iff.mp hindices
  have hk' : k = InEntryLinks := by
    rw [← (Prod.mk.inj heq).2]
    exact Nat.add_sub_cancel_left ..
  rw [hk'] at hk
  cases e with
  | cell a =>
    have hlt : InEntryLinks < InPlaceLinks := hk
    exact absurd hlt (by decide)
  | links ls => exact Nat.lt_irrefl _ hk

theorem readsLinks_of_stored {es u v : List EntryID} (hc : s.getCell i = some c)
    (hst : Stored s.entries es (c.links.drop InPlaceLinks)) (hl : s.order.Lists (u ++ i :: es ++ v))
    (hlen : c.arity ≤ InPlaceLinks + InEntryLinks) : s.ReadsLinks i c := by
  have hentry := (getCell_eq_some.mp hc).2
  have hindices : ∀ j < c.arity, s.getLinkIndices i j = if j < InPlaceLinks then some (.entry i, j)
      else (s.order.getNext (.entry i)).map (fun n => (n, j - InPlaceLinks)) := fun j hj =>
    getLinkIndices_of_le (Nat.lt_succ_of_lt (Nat.lt_of_lt_of_le hj hlen))
  -- the entry with the links behind the first ones
  have hnext : ∀ j < c.arity, ¬ j < InPlaceLinks →
      ∃ e ls, s.order.getNext (.entry i) = some (.entry e) ∧ s.entries e = .links ls := by
    intro j hj hge
    cases es with
    | nil =>
      have hnil : c.links.drop InPlaceLinks = [] := hst
      exact absurd (Nat.lt_of_lt_of_le hj (drop_eq_nil_iff.mp hnil)) hge
    | cons e es =>
      exact ⟨e, _, getNext_of_lists (u := u) (v := es ++ v) (by simpa using hl), hst.2.1⟩
  constructor
  · intro j hj
    rw [getLink_of_stored hc hst hl.visits (.inl hlen) hj, getElem?_eq_getElem hj]
  · exact getLinks_of_stored hc hst hl.visits
  · intro j hj
    rw [hindices j hj]
    by_cases hlt : j < InPlaceLinks
    · rw [if_pos hlt]
      exact ⟨.entry i, j, .cell c, rfl, by rw [entryAt, hentry], hlt⟩
    · obtain ⟨e, ls, he, hls⟩ := hnext j hj hlt
      rw [if_neg hlt, he]
      refine ⟨.entry e, j - InPlaceLinks, .links ls, rfl, by rw [entryAt, hls], ?_⟩
      exact Nat.sub_lt_left_of_lt_add (Nat.not_lt.mp hlt) (Nat.lt_of_lt_of_le hj hlen)
  · intro j hj j' hj' heq
    rw [hindices j hj, hindices j' hj'] at heq
    by_cases hlt : j < InPlaceLinks
    · rw [if_pos hlt] at heq
      by_cases hlt' : j' < InPlaceLinks
      · rw [if_pos hlt'] at heq
        exact (Prod.mk.inj (some.inj heq)).2
      · obtain ⟨e, ls, he, hls⟩ := hnext j' hj' hlt'
        rw [if_neg hlt', he] at heq
        rw [← Place.entry.inj (Prod.mk.inj (some.inj heq)).1, hentry] at hls
        cases hls
    · obtain ⟨e, ls, he, hls⟩ := hnext j hj hlt
      rw [if_neg hlt, he] at heq
      by_cases hlt' : j' < InPlaceLinks
      · rw [if_pos hlt'] at heq
        rw [Place.entry.inj (Prod.mk.inj (some.inj heq)).1, hentry] at hls
        cases hls
      · rw [if_neg hlt'] at heq
        have hsub : j - InPlaceLinks = j' - InPlaceLinks := (Prod.mk.inj (some.inj heq)).2
        omega

end SubnetBuilder

namespace Subnet
open SubnetBuilder

variable {S : Subnet} {i : EntryID} {c : SubnetCell}

/-- Every link is read as it was given, at a position inside an entry of its own. -/
structure ReadsLinks (S : Subnet) (i : EntryID) (c : SubnetCell) : Prop where
  getLink : ∀ j < c.arity, S.getLinkAt i j = c.links[j]?
  getLinks : S.getLinksAt i = some c.links
  inside : ∀ j < c.arity, ∃ e, S.entries[(getLinkIndices i j).1]? = some e ∧
    (getLinkIndices i j).2 < e.capacity
  distinct : ∀ j < c.arity, ∀ j' < c.arity, getLinkIndices i j = getLinkIndices i j' → j = j'

private theorem entry_of_getCell (hc : S.getCell i = some c) : S.entries[i]? = some (.cell c) := by
  rw [getCell] at hc
  split at hc
  · rename_i a ha
    rw [ha, some.inj hc]
  · cases hc

private theorem exists_entry (h : S.LinksBehind) (hc : S.getCell i = some c) {j : ℕ}
    (hj : j < c.arity) (hge : ¬ j < InPlaceLinks) : ∃ ls, S.entries[(getLinkIndices i j).1]? =
    some (.links ls) ∧
      ls[(getLinkIndices i j).2]? = c.links[j]? := by
  have hle := Nat.not_lt.mp hge
  have hadd : InPlaceLinks + (j - InPlaceLinks) = j := Nat.add_sub_cancel' hle
  obtain ⟨e, ls, he, hls, hget⟩ := link_of_stored (h i c hc) (j - InPlaceLinks) (by
    rw [length_drop]
    exact Nat.sub_lt_sub_right hle hj)
  have heq : i + 1 + (j - InPlaceLinks) / InEntryLinks = e := by
    obtain ⟨hlt, hget⟩ := List.getElem?_eq_some_iff.mp he
    rw [getElem_range', Nat.one_mul] at hget
    exact hget
  rw [getElem?_drop, hadd] at hget
  rw [getLinkIndices, if_neg hge, heq]
  refine ⟨ls, ?_, hget⟩
  cases hentry : S.entries[e]? with
  | none =>
    -- the default entry has no links
    rw [hentry] at hls
    obtain rfl : [] = ls := Entry.links.inj hls
    rw [getElem?_eq_getElem hj] at hget
    cases hget
  | some a =>
    rw [hentry] at hls
    exact congrArg some hls

theorem readsLinks_of_linksBehind (h : S.LinksBehind) (hc : S.getCell i = some c) :
    S.ReadsLinks i c := by
  constructor
  · intro j hj
    by_cases hlt : j < InPlaceLinks
    · simp [getLinkAt, hc, hlt]
    · obtain ⟨ls, hls, hget⟩ := exists_entry h hc hj hlt
      simp only [getLinkAt, hc, hlt, hls, Entry.link, hget, bind_eq_bind, bind_some,
        if_false]
  · have hrest : (List.range' InPlaceLinks (c.arity - InPlaceLinks)).mapM (fun j =>
        (S.entries[(getLinkIndices i j).1]?).bind (fun e => e.link (getLinkIndices i j).2)) =
          some (c.links.drop InPlaceLinks) := by
      rw [range'_eq_map_range, mapM_map, SubnetCell.arity, ← length_drop]
      refine (Netlist.mapM_range_eq_some (g := id) (fun k hk => ?_)).trans (by rw [map_id])
      have hj : InPlaceLinks + k < c.arity := by
        rw [length_drop] at hk
        exact Nat.add_lt_of_lt_sub' hk
      obtain ⟨ls, hls, hget⟩ := exists_entry h hc hj (Nat.not_lt.mpr (Nat.le_add_right _ _))
      rw [Function.comp_apply, hls, bind_some, Entry.link, hget, getElem?_eq_getElem hj]
      exact congrArg some (getElem_drop ..).symm
    simp only [getLinksAt, hc, hrest, bind_eq_bind, bind_some, take_append_drop]
  · intro j hj
    by_cases hlt : j < InPlaceLinks
    · refine ⟨.cell c, ?_, ?_⟩
      · rw [getLinkIndices, if_pos hlt]
        exact entry_of_getCell hc
      · rw [getLinkIndices, if_pos hlt]
        exact hlt
    · obtain ⟨ls, hls, -⟩ := exists_entry h hc hj hlt
      refine ⟨.links ls, hls, ?_⟩
      rw [getLinkIndices, if_neg hlt]
      exact Nat.mod_lt _ (by decide)
  · intro j _ j' _ heq
    have hbehind : ∀ k : ℕ, i ≠ i + 1 + k := fun k =>
      Nat.ne_of_lt (Nat.lt_of_lt_of_le (Nat.lt_succ_self i) (Nat.le_add_right _ _))
    rw [getLinkIndices, getLinkIndices] at heq
    by_cases hlt : j < InPlaceLinks
    · rw [if_pos hlt] at heq
      by_cases hlt' : j' < InPlaceLinks
      · rw [if_pos hlt'] at heq
        exact (Prod.mk.inj heq).2
      · rw [if_neg hlt'] at heq
        exact absurd (Prod.mk.inj heq).1 (hbehind _)
    · rw [if_neg hlt] at heq
      by_cases hlt' : j' < InPlaceLinks
      · rw [if_pos hlt'] at heq
        exact absurd (Prod.mk.inj heq).1.symm (hbehind _)
      · rw [if_neg hlt'] at heq
        have hdiv := Nat.add_left_cancel (Prod.mk.inj heq).1
        have hmod := (Prod.mk.inj heq).2
        have hsub : j - InPlaceLinks = j' - InPlaceLinks := by
          rw [← Nat.div_add_mod (j - InPlaceLinks) InEntryLinks, hdiv, hmod, Nat.div_add_mod]
        omega

end Subnet

namespace SubnetBuilder

variable {lib : CellLibrary} {s : SubnetBuilder}

/-- A builder reads the cells with at most one further entry, a subnet all cells. -/
theorem readsLinks_iff (hs : Run lib (fun s op => Valid lib s op ∧ KeepsBehind lib s op) s) :
    (∀ i c, s.liveCell i = some c → (s.ReadsLinks i c ↔ c.arity ≤ InPlaceLinks + InEntryLinks)) ∧
      ∀ S : Subnet, S.LinksBehind → ∀ i c, S.getCell i = some c → S.ReadsLinks i c := by
  refine ⟨fun i c hc => ⟨fun h => ?_, fun hlen => ?_⟩,
    fun S hS i c hc => Subnet.readsLinks_of_linksBehind hS hc⟩
  · by_contra hlt
    exact not_inside_of_lt (Nat.not_le.mp hlt) h
  · obtain ⟨chain, l, seg, h⟩ := chained_of_run hs
    obtain ⟨es, u, v, hst, hl⟩ := h.exists_stored hc
    exact readsLinks_of_stored (getCell_of_live hc) hst hl hlen

/-- A gate with `n` links. -/
private def wideLinks (n : ℕ) : List Link := (range n).map (fun j => ⟨0, 0, j % 2 = 1⟩)

/-- The cell 1 has seven links, the cell 3 has eight. -/
theorem readsLinks_iff_seven : ∃ (s : SubnetBuilder) (c c' : SubnetCell), s.liveCell 1 = some c ∧
    c.arity = 7 ∧ s.ReadsLinks 1 c ∧ s.liveCell 3 = some c' ∧ c'.arity = 8 ∧
    ¬ s.ReadsLinks 3 c' := by
  have hempty : Run .empty (fun s op => Valid .empty s op ∧ KeepsBehind .empty s op) {} := .init
  have h₁ := hempty.next .addInput ⟨trivial, trivial⟩ rfl
  have h₂ := h₁.next (.addCell .AND (wideLinks 7))
    ⟨validLinks_of_check (by decide), fun _ => ⟨by decide, by decide⟩⟩ rfl
  have h₃ := h₂.next (.addCell .AND (wideLinks 8))
    ⟨validLinks_of_check (by decide), fun _ => ⟨by decide, by decide⟩⟩ rfl
  have hreads := (readsLinks_iff h₃).1
  refine ⟨_, ⟨.AND, wideLinks 7, 0⟩, ⟨.AND, wideLinks 8, 0⟩, rfl, rfl,
    (hreads 1 _ rfl).mpr (by decide), rfl, rfl, ?_⟩
  rw [hreads 3 _ rfl]
  decide

/-- The position of the eighth link lies outside of the entry. -/
theorem not_readsLinks_eight : ¬ ∀ lib s, Run lib (Valid lib) s →
    (∀ i c, s.liveCell i = some c → s.ReadsLinks i c) ∧
      ∀ S : Subnet, S.LinksBehind → ∀ i c, S.getCell i = some c → S.ReadsLinks i c := by
  intro h
  have hcell : (checkRun .empty [.addInput, .addCell .AND (wideLinks 8)] {}).map
      (fun s => s.liveCell 1) = some (some ⟨.AND, wideLinks 8, 0⟩) := by decide
  obtain ⟨s, hs, hlive⟩ := Option.map_eq_some_iff.mp hcell
  have hread := (h _ s (run_of_checkRun .init hs)).1 1 _ hlive
  exact not_inside_of_lt (by decide) hread

end SubnetBuilder

end UtopiaEda
