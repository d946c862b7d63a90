import UtopiaEda.LinkEntries
import UtopiaEda.Operations

/-!
# Operations and entries of links

Adding and replacing a cell keeps the entries of links behind their cells if a new wide cell finds
no free entry, except for the last one, and no wide cell is moved.
-/
namespace UtopiaEda.SubnetBuilder

open List
open Function (update update_self update_of_ne)
open EntryOrder SegmentedLists
open Option (bind_eq_bind bind_eq_some_iff bind_some some.inj)

variable {lib : CellLibrary} {s s' s₁ s₃ : SubnetBuilder} {l u v : List EntryID}
  {i j root idx : EntryID} {c : SubnetCell} {d : ℕ} {o : EntryOrder} {t : CellTypeID}
  {links : List Link} {chain chain' : EntryID → List EntryID} {seg seg' : ℕ → List EntryID}

/-! ### Replacing a cell -/

/-- `replaceCell` up to the new position of the cell. -/
def relinked (s : SubnetBuilder) (entryID : EntryID) (typeID : CellTypeID) (links : List Link)
    (delZeroRefcount : Bool) : Option SubnetBuilder := do
  let cell ← s.getCell entryID
  let s ← s.destrashEntry entryID
  let s ← addLinks entryID links
    { s with nBuf := s.nBuf - cell.isBuf.toNat + (decide (typeID = .BUF)).toNat }
  let s ← delLinks entryID delZeroRefcount cell.links s
  some ((s.setCell entryID ⟨typeID, links, cell.refcount⟩).strashRoot entryID typeID links)

def ReplaceNarrow (s : SubnetBuilder) (entryID : EntryID) (typeID : CellTypeID) (links : List Link)
    (delZeroRefcount : Bool) : Prop :=
  ∀ s₁ p cell o, s.relinked entryID typeID links delZeroRefcount = some s₁ →
    s.order.getNext (.entry entryID) = some p → s₁.getCell entryID = some cell →
    s₁.order.depth entryID ≠ some (s.order.linksDepth links) →
    s₁.order.moveToDepth s₁.getTypeID entryID (s.order.linksDepth links) = some o →
    o.MovesNarrow s₁.getCell s₁.getTypeID (2 * o.size) [entryID] cell.refcount p

theorem destrash_order (h : s.destrashEntry i = some s') : s'.order = s.order := by
  obtain ⟨c, -, h⟩ := bind_eq_some_iff.mp h
  split at h
  · cases h
    rfl
  · cases h
    rfl

theorem of_replaceCell_relinked {del : Bool} {r : Link} (hc : s.getCell root = some c)
    (h : s.replaceCell root t links del = some (s', r)) :
    (StrashKey.isEnabled t links ∨ t = .OUT ∧ c.type = .OUT) ∧ ∃ s₁ p, s.relinked root t links del =
    some s₁ ∧
      s.order.getNext (.entry root) = some p ∧ s₁.reorder root (s.order.linksDepth links) p =
      some s' := by
  rw [replaceCell, hc, bind_eq_bind, bind_some] at h
  split at h
  · cases h
  · rename_i hcond
    obtain ⟨s₁, hs₁, h⟩ := bind_eq_some_iff.mp h
    obtain ⟨p, hp, h⟩ := bind_eq_some_iff.mp h
    obtain ⟨s₂, hs₂, h⟩ := bind_eq_some_iff.mp h
    obtain ⟨s₃, hs₃, h⟩ := bind_eq_some_iff.mp h
    obtain ⟨s₄, hs₄, h⟩ := bind_eq_some_iff.mp h
    cases h
    have horder := destrash_order hs₁
    dsimp only at hp hs₄
    rw [horder] at hp hs₄
    refine ⟨not_not.mp hcond, _, p, ?_, hp, hs₄⟩
    simp only [relinked, hc, hs₁, hs₂, hs₃, bind_eq_bind, bind_some]

theorem Chained.setCell {a : SubnetCell} (h : Chained s chain l seg) (hc : s.liveCell root = some c)
    (ha : ¬ a.IsWide) (ht : a.type = .OUT → c.type = .OUT) :
    Chained (s.setCell root a) chain l seg := by
  have hlive := liveCell_setCell hc a
  have hold : ∀ i b, (s.setCell root a).liveCell i = some b → b.IsWide → s.liveCell i = some b := by
    intro i b hb hw
    rw [hlive] at hb
    split at hb
    · exact absurd (some.inj hb ▸ hw) ha
    · exact hb
  constructor
  · refine ⟨h.segments.lists, h.segments.segmented.mono (fun b ⟨i, k, hk, hw, hb⟩ => ?_),
      h.segments.bounds, h.segments.first⟩
    exact ⟨i, k, hold i k hk hw, hw, hb⟩
  · intro i hi
    apply h.mem i
    by_cases hir : i = root
    · rw [hir, hc]
      rfl
    · rw [hlive, if_neg hir] at hi
      exact hi
  · intro i hi
    obtain ⟨hil, hit, hid⟩ := h.free i hi
    have hir : i ≠ root := by
      rintro rfl
      exact hil (h.mem i (by rw [hc]; rfl)).1
    refine ⟨hil, ?_, hid⟩
    have hentry : (s.setCell root a).entries i = s.entries i := update_of_ne hir ..
    rw [getTypeID, hentry]
    exact hit
  · intro d i hi b hb
    rw [hlive] at hb
    split at hb
    · rename_i hir
      subst hir
      obtain ⟨hd, hct⟩ := h.cells d i hi c hc
      exact ⟨hd, fun hbt => hct (ht ((some.inj hb) ▸ hbt))⟩
    · exact h.cells d i hi b hb
  · intro i b hb hw
    obtain ⟨hstored, hz⟩ := h.stored i b (hold i b hb hw) hw
    exact ⟨hstored.congr (fun e _ ls he => SameLinks.setCell (getCell_of_live hc) e ls he), hz⟩

theorem Chained.strashRoot (h : Chained s chain l seg) :
    Chained (s.strashRoot root t links) chain l seg := by
  rw [SubnetBuilder.strashRoot]
  split
  · exact ⟨h.segments, h.mem, h.free, h.cells, h.stored⟩
  · exact h

theorem Chained.relinked {del : Bool} (h : Chained s chain l seg) (hs : NetOk s)
    (hfit : CellFits s root links) (hc : s.liveCell root = some c) (ht : t = .OUT → c.type = .OUT)
    (hlen : links.length ≤ InPlaceLinks) (hrel : s.relinked root t links del = some s₁) :
    ∃ l' seg' D, Chained s₁ chain l' seg' ∧ (∀ j ∈ l, j ∈ l' ∨ j ∈ s₁.emptyEntryIDs) ∧ NetOk s₁ ∧
      Replaced s s₁ root t links D ∧ ∀ j, j ∉ s₁.emptyEntryIDs →
      s₁.order.depth j = s.order.depth j := by
  obtain ⟨f, hf, hfnet, hfkeys⟩ := hs.net.destrash hc
  simp only [SubnetBuilder.relinked, getCell_of_live hc, hf, bind_eq_bind,
    bind_some] at hrel
  obtain ⟨s₂, V, hs₂, h₂, hsame⟩ := hfnet.startRelinking
    (b := s.nBuf - c.isBuf.toNat + (decide (t = .BUF)).toNat) hc hfit.valid
  rw [hs₂, bind_some] at hrel
  obtain ⟨s₃, hs₃, hrel⟩ := bind_eq_some_iff.mp hrel
  cases hrel
  have hstart : Chained { s with strash := f, nBuf := s.nBuf - c.isBuf.toNat + (decide (t = .BUF)).toNat }
      chain l seg := ⟨h.segments, h.mem, h.free, h.cells, h.stored⟩
  have hlinks := SameLinks.of_addLinks hs₂
  have hreach : ∀ l ∈ c.links, ¬ s.netlist.Reaches l.idx root := fun l hlm =>
    not_reaches_of_fanin hs.acyclic ⟨_, netlist_of_live hc, l, hlm, rfl⟩
  obtain ⟨D, V', h₃, hdel, hD⟩ := h₂.of_delLinks hreach hs₃
  obtain ⟨l', seg', hchain, hmem, hdep⟩ := (hstart.sameNet hsame hlinks).of_delLinks h₂ hreach hs₃
  have hroot : root ∉ D := by
    intro hroot
    obtain ⟨⟨k, hk, hkr⟩, -⟩ := hD root hroot
    exact hreach k hk hkr
  obtain ⟨n, hn⟩ := hsame.liveCell (i := root) (c := c) hc
  obtain ⟨m, hm⟩ := hdel.liveCell hroot hn
  have hnarrow : ¬ (⟨t, links, c.refcount⟩ : SubnetCell).IsWide := Nat.not_lt.mpr hlen
  obtain ⟨hnet, hrepl, -⟩ := h₃.finish hs.net hs.acyclic hc hfit.acyclic ht hfkeys hsame hdel hD rfl
  have hsame₃ : ((s₃.setCell root ⟨t, links, c.refcount⟩).strashRoot root t links).emptyEntryIDs =
      s₃.emptyEntryIDs ∧ ((s₃.setCell root ⟨t, links, c.refcount⟩).strashRoot root t links).order =
      s₃.order := by
    rw [SubnetBuilder.strashRoot]
    split
    · exact ⟨rfl, rfl⟩
    · exact ⟨rfl, rfl⟩
  refine ⟨l', seg', D, (hchain.setCell hm hnarrow ht).strashRoot, fun j hj => ?_,
    ⟨hnet, hrepl.acyclic hs.acyclic hfit.acyclic⟩, hrepl, fun j hj => ?_⟩
  · rw [hsame₃.1]
    exact hmem j hj
  · rw [hsame₃.1] at hj
    rw [hsame₃.2, hdep j hj, hsame.order]

theorem Replaced.liveCell_root {D : Finset EntryID} (h : Replaced s s₁ root t links D) :
    ∃ n, s₁.liveCell root = some ⟨t, links, n⟩ := by
  obtain ⟨c, hc, rfl, rfl⟩ := liveCell_of_netlist ((h.netlist root).trans (if_pos rfl))
  exact ⟨c.refcount, hc⟩

/-- A narrow root gets a new depth. -/
theorem Chained.reorder {J : ℕ → EntryOrder → List EntryID → List EntryID → ℕ → Place → Prop}
    {p : Place} (hJ : RecomputeInvariant s J) (h : Chained s chain l seg)
    (hc : s.liveCell root = some c) (hn : ¬ c.IsWide) (hp : ∀ j, p = .entry j → j ∈ l ∨
    j ∈ s.emptyEntryIDs) (hd : s.order.depth root ≠ some d)
    (hstart : ∀ o l', s.order.moveToDepth s.getTypeID root d = some o → o.Lists l' →
    Relocated root l l' →
      o.depth = update s.order.depth root (some d) → J (2 * o.size) o l' [root] c.refcount p)
    (hreorder : s.reorder root d p = some s') :
    ∃ n l' seg' S q, Chained s' chain l' seg' ∧ J n s'.order l' S 0 q := by
  rw [SubnetBuilder.reorder, if_neg hd] at hreorder
  obtain ⟨o₁, ho₁, hreorder⟩ := bind_eq_some_iff.mp hreorder
  obtain ⟨o₂, ho₂, hreorder⟩ := bind_eq_some_iff.mp hreorder
  cases hreorder
  obtain ⟨a, ha, ho₂⟩ := bind_eq_some_iff.mp ho₂
  obtain rfl : c = a := some.inj ((getCell_of_live hc).symm.trans ha)
  obtain ⟨l₁, seg₁, h₁, hmoved, hdepth⟩ := h.moveToDepth hc hn ho₁
  obtain ⟨n, l₂, seg₂, S, q, h₂, -, hj⟩ := h₁.recomputeLoop (s := s) hJ (moveToDepth_size ho₁)
    (fun j hj => by
      rw [mem_singleton.mp hj]
      exact hmoved.mem.mpr (h.mem root (by rw [hc]; rfl)).1)
    (fun j hj => (hp j hj).imp hmoved.mem.mpr id)
    (hstart o₁ l₁ ho₁ h₁.segments.lists hmoved hdepth) ho₂
  exact ⟨n, l₂, seg₂, S, q, h₂, hj⟩

theorem Chained.replaceCell {del : Bool} {r : Link} (h : Chained s chain l seg) (hs : NetOk s)
    (hfit : CellFits s root links) (hlen : links.length ≤ InPlaceLinks)
    (hnarrow : s.ReplaceNarrow root t links del) (hrep : s.replaceCell root t links del =
    some (s', r)) : ∃ l' seg', Chained s' chain l' seg' := by
  obtain ⟨g, hg⟩ := Option.isSome_iff_exists.mp hfit.live
  obtain ⟨c, hc, -⟩ := liveCell_of_netlist hg
  obtain ⟨hen, s₁, p, hrel, hp, hreorder⟩ := of_replaceCell_relinked (getCell_of_live hc) hrep
  have ht : t = .OUT → c.type = .OUT := by
    rintro rfl
    exact hen.elim (fun hen => by cases hen) And.right
  obtain ⟨l₁, seg₁, D, h₁, hmem, -, hrepl, -⟩ := h.relinked hs hfit hc ht hlen hrel
  obtain ⟨n, hroot⟩ := hrepl.liveCell_root
  by_cases hdepth : s₁.order.depth root = some (s.order.linksDepth links)
  · rw [SubnetBuilder.reorder, if_pos hdepth] at hreorder
    cases hreorder
    exact ⟨l₁, seg₁, h₁⟩
  · have hn : ¬ (⟨t, links, n⟩ : SubnetCell).IsWide := Nat.not_lt.mpr hlen
    have hnext : ∀ j, p = .entry j → j ∈ l₁ ∨ j ∈ s₁.emptyEntryIDs := fun j hj =>
      hmem j (h.of_getNext (h.mem root (by rw [hc]; rfl)).1 hp j hj)
    obtain ⟨-, l₂, seg₂, -, -, h₂, -⟩ :=
      h₁.reorder recomputeInvariant_movesNarrow hroot hn hnext hdepth
      (fun o _ ho _ _ _ => hnarrow s₁ p _ o hrel hp (getCell_of_live hroot) hdepth ho) hreorder
    exact ⟨l₂, seg₂, h₂⟩

/-! ### Adding a cell -/

theorem gate_of_addNewLinks : ∀ {links : List Link} {s : SubnetBuilder},
    SubnetBuilder.addNewLinks i links s = some s' → ∀ j, (s'.entries j).gate =
    (s.entries j).gate := by
  intro links
  induction links with
  | nil =>
    intro s h j
    cases h
    rfl
  | cons l links ih =>
    intro s h j
    obtain ⟨c, -, h⟩ := bind_eq_some_iff.mp h
    split at h
    · cases h
    · obtain ⟨s₁, h₁, h⟩ := bind_eq_some_iff.mp h
      rw [ih h j]
      obtain ⟨s₂, h₂, h₁⟩ := bind_eq_some_iff.mp h₁
      obtain ⟨a, ha, h₁⟩ := bind_eq_some_iff.mp h₁
      cases h₁
      have hentries : s₂.entries = s.entries := by
        rw [addFanout] at h₂
        split at h₂
        · cases h₂
        · cases h₂
          rfl
      have hgate := (getCell_eq_some.mp ha).2
      rw [hentries] at hgate
      change (update s₂.entries l.idx _ j).gate = _
      rw [hentries]
      by_cases hj : j = l.idx
      · rw [hj, update_self, hgate]
        rfl
      · rw [update_of_ne hj]

theorem chainLinks_segments {blocks blocks' : List EntryID → Prop} {m : List EntryID}
    (h : s.order.Segments blocks (u ++ idx :: v) seg) (hsize : s.size = idx + 1)
    (he : ∀ b, blocks b → idx ∉ b) (hseg : seg d = m ++ [idx]) (hlen : InPlaceLinks < links.length)
    (hblocks : ∀ b, blocks' b → blocks b ∨ b = idx :: range' (idx + 1)
      (SubnetCell.more ⟨t, links, 0⟩)) :
    ∃ s', s.chainLinks d idx t links = some s' ∧ Extended s s' ∧ s'.order.depth = s.order.depth ∧
      s'.order.Segments blocks' (u ++ idx :: range' (idx + 1)
      (SubnetCell.more ⟨t, links, 0⟩) ++ v)
        (update seg d (m ++ idx :: range' (idx + 1) (SubnetCell.more ⟨t, links, 0⟩))) ∧
      Stored s'.entries (range' (idx + 1) (SubnetCell.more ⟨t, links, 0⟩))
      (links.drop InPlaceLinks) := by
  let n := SubnetCell.more ⟨t, links, 0⟩
  have hl : s.order.Lists ((u ++ [idx]) ++ v) := by
    rw [append_assoc]
    exact h.lists
  have hle : ∀ i ∈ (u ++ [idx]) ++ v, i ≤ idx := by
    intro i hi
    have hlt : i < s.size := hl.lt i hi
    rw [hsize] at hlt
    exact Nat.le_of_lt_succ hlt
  have hnext : s.order.getNext (.entry idx) = some (after v) := by
    have hnext := hl.getNext
    rwa [before_concat] at hnext
  have hbounds : (s.order.depthBounds d).2 = .entry idx := by
    rw [h.bounds, hseg, ends_of_ne_nil (by simp), before_concat]
  obtain ⟨s₁, hs₁, hpart, hsize₁, hdepth₁, hbounds₁⟩ :=
    addLinkEntries_eq (n := n) (links.drop InPlaceLinks)
    (hl.parted (by simp)) hsize hle hbounds
  have hconcat : range' idx (n + 1) = range' idx n ++ [idx + n] := by
    rw [range'_concat, Nat.one_mul]
  have hcons : range' idx (n + 1) = idx :: range' (idx + 1) n := range'_succ
  rw [hconcat, ← append_assoc] at hpart
  obtain ⟨o, ho, hsame, hlists⟩ := hpart.join
  rw [append_assoc u, ← hconcat, hcons] at hlists
  have hlast : s₁.size - 1 = idx + n := by
    rw [hsize₁, Nat.add_right_comm]
    rfl
  have hext := Extended.addLinkEntries hs₁
  have hstored : Stored s₁.entries (range' (idx + 1) n) (links.drop InPlaceLinks) := by
    rw [← hsize]
    exact Stored.of_addLinkEntries hs₁ (SubnetCell.more_eq hlen)
  have ho' : o.size = s₁.size := hsame.size
  refine ⟨{ s₁ with order := o }, ?_, ?_, hsame.depth.trans hdepth₁, ?_, hstored⟩
  · rw [chainLinks, if_neg (Nat.not_le.mpr hlen)]
    refine bind_eq_some_iff.mpr ⟨_, hnext, bind_eq_some_iff.mpr ⟨s₁, hs₁, ?_⟩⟩
    rw [hlast, ho]
    rfl
  · exact ⟨hext.le.trans (Nat.le_of_eq ho'.symm), hext.entries,
      fun i h₁ h₂ => hext.links i h₁ (ho' ▸ h₂), hext.free, hext.strash, hext.fanouts, hext.enabled,
      hext.counts⟩
  · apply h.chain he hseg hlists _ hblocks
    rw [hsame.bounds, hbounds₁, ← hcons, hconcat, before_concat]

private theorem Chained.created {l' : List EntryID} (h : Chained s chain l seg)
    (hc : Created s s' t links idx) (hsegs : s'.order.Segments (s'.Block chain') l' seg')
    (hsub : ∀ i ∈ l, i ∈ l') (hidx : idx ∈ l') (hnew : ∀ i ∈ l', i ∈ l ∨ i = idx ∨ s.size ≤ i)
    (hdepth : s'.order.depth = update s.order.depth idx (some d))
    (hcells : ∀ d', ∀ i ∈ seg' d', i ∈ seg d' ∨ i = idx ∧ d' = d ∧ t ≠ .OUT ∨ s'.liveCell i = none)
    (hgate : ∀ i, i ≠ idx → i < s.size → (s'.entries i).gate = (s.entries i).gate)
    (hlinks : ∀ i ∈ l, ∀ ls, s.entries i = .links ls → s'.entries i = .links ls)
    (hold : ∀ i, i ≠ idx → chain' i = chain i) (hlt : ∀ i ∈ s.emptyEntryIDs, i < s.size)
    (hstored : InPlaceLinks < links.length →
      Stored s'.entries (chain' idx) (links.drop InPlaceLinks) ∧ t ≠ .ZERO ∧ t ≠ .ONE) :
    Chained s' chain' l' seg' := by
  have hlive : ∀ i c, s'.liveCell i = some c → i ≠ idx →
      ∃ n, s.liveCell i = some { c with refcount := n } := hc.only
  constructor
  · exact hsegs
  · intro i hi
    rw [hdepth]
    by_cases hii : i = idx
    · rw [hii, update_self]
      exact ⟨hidx, rfl⟩
    · obtain ⟨c, hcc⟩ := Option.isSome_iff_exists.mp hi
      obtain ⟨n, hn⟩ := hlive i c hcc hii
      obtain ⟨hil, hid⟩ := h.mem i (by rw [hn]; rfl)
      rw [update_of_ne hii]
      exact ⟨hsub i hil, hid⟩
  · intro i hi
    obtain ⟨hi, hii⟩ := (hc.free i).mp hi
    obtain ⟨hil, hit, hid⟩ := h.free i hi
    refine ⟨fun hi' => ?_, ?_, ?_⟩
    · rcases hnew i hi' with hmem | heq | hge
      · exact hil hmem
      · exact hii heq
      · exact absurd (hlt i hi) (Nat.not_lt.mpr hge)
    · rw [getTypeID, hgate i hii (hlt i hi)]
      exact hit
    · rw [hdepth, update_of_ne hii, hid]
  · intro d' i hi c hcc
    rcases hcells d' i hi with hi | ⟨rfl, rfl, ht⟩ | hnone
    · have hii : i ≠ idx := by
        rintro rfl
        have hil : i ∈ l := (h.segments.segmented.segment_infix d').subset hi
        rcases hc.fresh with hf | hf
        · exact (h.free i hf).1 hil
        · exact absurd (h.segments.lists.lt i hil) (Nat.not_lt.mpr (Nat.le_of_eq hf.symm))
      obtain ⟨n, hn⟩ := hlive i c hcc hii
      rw [hdepth, update_of_ne hii]
      have hcell := h.cells d' i hi _ hn
      exact hcell
    · rw [hc.here] at hcc
      obtain rfl := some.inj hcc
      rw [hdepth, update_self]
      exact ⟨rfl, ht⟩
    · rw [hnone] at hcc
      cases hcc
  · intro i c hcc hw
    by_cases hii : i = idx
    · subst hii
      rw [hc.here] at hcc
      obtain rfl := some.inj hcc
      exact hstored hw
    · obtain ⟨n, hn⟩ := hlive i c hcc hii
      obtain ⟨hst, ht⟩ := h.stored i _ hn hw
      have hblock : s.Block chain (i :: chain i) := ⟨i, _, hn, hw, rfl⟩
      have hsubset := (h.segments.segmented.whole _ hblock).subset
      rw [hold i hii]
      exact ⟨hst.congr (fun e he ls hls => hlinks e (hsubset (mem_cons_of_mem i he)) ls hls), ht⟩

private theorem Created.of_block (hc : Created s s' t links idx)
    (hold : ∀ i, i ≠ idx → chain' i = chain i) {b : List EntryID}
    (hb : s'.Block chain' b) : s.Block chain b ∨ InPlaceLinks < links.length ∧
    b = idx :: chain' idx := by
  obtain ⟨i, c, hcc, hw, rfl⟩ := hb
  by_cases hii : i = idx
  · subst hii
    rw [hc.here] at hcc
    obtain rfl := some.inj hcc
    exact .inr ⟨hw, rfl⟩
  · obtain ⟨n, hn⟩ := hc.only i c hcc hii
    exact .inl ⟨i, _, hn, hw, by rw [hold i hii]⟩

/-- A new cell with more links than fit finds no free entry, except for the last one. Constants and
outputs have no further entries. -/
structure NewWide (s : SubnetBuilder) (t : CellTypeID) : Prop where
  last : ∀ i ∈ s.emptyEntryIDs.head?, s.size = i + 1
  type : t ≠ .ZERO ∧ t ≠ .ONE ∧ t ≠ .OUT

private theorem allocEntry_wide (hwide : InPlaceLinks < links.length)
    (h : s.allocEntry t links = some (s', idx)) : idx = (s.withEnds.allocID (t = .BUF)).2 := by
  have hen : StrashKey.isEnabled t links = false := by
    simp [StrashKey.isEnabled, Nat.not_le.mpr hwide]
  have hs : s.withEnds.strashEntry t links = (s.withEnds, none) := by simp [strashEntry, hen]
  rw [allocEntry_unhashed hs] at h
  obtain ⟨s₂, -, heq⟩ := Option.map_eq_some_iff.mp h
  exact (Prod.mk.inj heq).2.symm

private theorem Allocated.last {b : Bool} {sA : SubnetBuilder} (ha : Allocated s sA b idx)
    (hidx : idx = (s.allocID b).2) (hlast : ∀ i ∈ s.emptyEntryIDs.head?, s.size = i + 1) : sA.size =
    idx + 1 := by
  have hle := ha.le
  have hlt := ha.lt
  have hused : ∀ i, i ≠ idx → ¬ i < s.size → sA.size ≤ i :=
    fun i hi hs => Nat.not_lt.mp (mt (ha.used i hi).mp hs)
  cases hf : s.emptyEntryIDs with
  | nil =>
    have heq : idx = s.size := by
      rw [hidx]
      simp [allocID, hf, SubnetBuilder.size]
    rw [heq] at hlt hused ⊢
    exact Nat.le_antisymm (hused _ (Nat.succ_ne_self _) (Nat.not_lt.mpr (Nat.le_succ _))) hlt
  | cons a rest =>
    have heq : idx = a := by
      rw [hidx]
      simp [allocID, hf]
    have hsize := hlast a (by simp [hf])
    rw [heq] at hused ⊢
    rw [hsize] at hle hused
    exact Nat.le_antisymm (hused _ (Nat.succ_ne_self _) (Nat.lt_irrefl _)) hle

/-- The depth of every cell is one more than the largest depth of its fanins. -/
def DepthsExact (s : SubnetBuilder) : Prop := ∀ i, HasDepth s.liveCell s.order i

theorem DepthsExact.created (h : s.DepthsExact) (hs : NetOk s) (hl : s.ValidLinks links)
    (hc : Created s s' t links idx) (hdepth : s'.order.depth =
    update s.order.depth idx (some (s.order.linksDepth links))) : s'.DepthsExact := by
  have hold : ∀ {j c}, s.liveCell j = some c → s'.order.depth j = s.order.depth j := by
    intro j c hj
    rw [hdepth, update_of_ne]
    rintro rfl
    rw [hc.dead] at hj
    cases hj
  intro i c hci
  by_cases hi : i = idx
  · subst hi
    obtain rfl := some.inj (hc.here.symm.trans hci)
    rw [hdepth, update_self, linksDepth_congr (fun k hk => ?_)]
    obtain ⟨b, hb, -⟩ := hl k hk
    exact (hold hb).symm
  · obtain ⟨n, hn⟩ := hc.only i c hci hi
    rw [hold hn, h i _ hn, linksDepth_congr (fun k hk => ?_)]
    obtain ⟨b, hb, -⟩ := hs.net.target i k.idx (by rw [targets_of_live hn]; exact mem_map_of_mem hk)
    exact (hold hb).symm

theorem Chained.addCell {r : Link} (h : Chained s chain l seg) (hs : NetOk s)
    (hl : s.ValidLinks links) (hwide : InPlaceLinks < links.length → NewWide s t)
    (hadd : s.addCell t links = some (s', r)) : ∃ chain' l' seg', Chained s' chain' l' seg' ∧
    (s.DepthsExact → s'.DepthsExact) := by
  rw [SubnetBuilder.addCell] at hadd
  split at hadd
  · cases hadd
  · rename_i hneg
    obtain ⟨⟨s₁, idx⟩, hs₁, hadd⟩ := bind_eq_some_iff.mp hadd
    cases hadd
    suffices hsuff : ∃ chain' l' seg', Chained s₁ chain' l' seg' ∧
        (s.DepthsExact → s₁.DepthsExact) by
      obtain ⟨chain', l', seg', h', hexact⟩ := hsuff
      exact ⟨chain', l', seg', ⟨h'.segments, h'.mem, h'.free, h'.cells, h'.stored⟩, hexact⟩
    have hends := withEnds_eq h.segments.lists
    have hin : InPlaceLinks < links.length → t ≠ .IN := by
      rintro hw rfl
      have hnil : links = [] := by
        by_contra hne
        exact hneg (.inr ⟨rfl, hne⟩)
      rw [hnil] at hw
      exact Nat.not_lt_zero _ hw
    rcases hs.net.allocEntry t links with ⟨i, -, -, hall⟩ | ⟨sA, i, f, ha, hall, hf⟩
    · rw [hends] at hall
      rw [hall] at hs₁
      cases hs₁
      exact ⟨chain, l, seg, h, id⟩
    · have hidx : InPlaceLinks < links.length → idx = (s.withEnds.allocID (t = .BUF)).2 := fun hw =>
        allocEntry_wide hw hs₁
      rw [hall] at hs₁
      obtain ⟨s₂, hs₂, heq⟩ := Option.map_eq_some_iff.mp hs₁
      obtain ⟨rfl, rfl⟩ := Prod.mk.inj heq
      rw [hends] at ha hidx
      obtain ⟨s₃, -, hc₃, ho₃, -, -, ⟨s₄, hs₄, hs₃⟩, hfill⟩ :=
        hs.net.fillEntry ha (targets_of_dead ha.dead) hl hf
      rw [hfill] at hs₂
      obtain ⟨o, ho, hs₂⟩ := bind_eq_some_iff.mp hs₂
      have hnotin : i ∉ l := by
        rcases ha.fresh with hfree | hfresh
        · exact (h.free i hfree).1
        · exact fun hil => absurd (h.segments.lists.lt i hil)
            (Nat.not_lt.mpr (Nat.le_of_eq hfresh.symm))
      have hne : ∀ j ∈ l, j ≠ i := by
        rintro j hj rfl
        exact hnotin hj
      have hgate : ∀ j, j ≠ i → (s₃.entries j).gate = (s.entries j).gate := by
        intro j hj
        have hset : s₃.entries j = s₄.entries j := by
          rw [← hs₃]
          exact update_of_ne hj ..
        rw [hset, gate_of_addNewLinks hs₄ j]
        exact congrArg (fun f => (f j).gate) ha.entries
      have hlinks : ∀ j ∈ l, ∀ ls, s.entries j = .links ls → s₃.entries j = .links ls := by
        intro j hj ls hls
        have hset : s₃.entries j = s₄.entries j := by
          rw [← hs₃]
          exact update_of_ne (hne j hj) ..
        rw [hset]
        apply SameLinks.of_addNewLinks hs₄ j ls
        rw [← hls]
        exact congrFun ha.entries j
      have hblocks : ∀ b, s.Block chain b → ∀ j ∈ b, j ∈ l :=
        fun b hb => (h.segments.segmented.whole b hb).subset
      have hsegA : (sA.order.setDepth i (some (s.order.linksDepth links))).Segments (s.Block chain)
          l seg := by
        refine Segments.setDepth ⟨?_, h.segments.segmented, ?_, h.segments.first⟩ i _
        · rw [ha.order]
          exact h.segments.lists.extend rfl rfl rfl rfl ha.le
        · rw [ha.order]
          exact h.segments.bounds
      have htype : ∀ b, s.Block chain b →
          ∀ j ∈ b, ¬ (s₃.getTypeID j = .ZERO ∨ s₃.getTypeID j = .ONE) := by
        intro b hb j hj
        rw [getTypeID, hgate j (hne j (hblocks b hb j hj))]
        exact h.block_type b hb j hj
      have hsize₃ : s₃.order = sA.order := ho₃
      obtain ⟨u, v, m, hp, hm, hlast⟩ := hsegA.add hnotin ha.lt (update_self ..) htype ho
      have hti : s₃.getTypeID i = t := getTypeID_of_live hc₃.here
      have hsizeo : o.size = s₃.order.size := by
        rw [hsize₃]
        exact hp.size
      have hlive : ({ s₃ with order := o } : SubnetBuilder).liveCell = s₃.liveCell :=
        liveCell_setOrder hsizeo
      have hdepth : o.depth = update s.order.depth i (some (s.order.linksDepth links)) := by
        rw [hp.depth]
        change update sA.order.depth i _ = _
        rw [ha.order]
      have hcreated : Created s { s₃ with order := o } t links i :=
        hc₃.congr hlive rfl rfl rfl (Nat.le_of_eq hsizeo.symm) rfl
      have hmem : ∀ d', ∀ j ∈ update seg (s.order.linksDepth links) m d',
          j ∈ seg d' ∨ j = i ∧ d' = s.order.linksDepth links ∧ t ≠ .OUT := by
        intro d' j hj
        by_cases hd : d' = s.order.linksDepth links
        · rw [hd, update_self] at hj
          rw [hd]
          rw [hti] at hm
          exact (hm j hj).imp id (fun hnew => ⟨hnew.1, rfl, hnew.2⟩)
        · rw [update_of_ne hd] at hj
          exact .inl hj
      obtain rfl := hp.split
      by_cases hw : InPlaceLinks < links.length
      · have hsizeA : sA.size = i + 1 := ha.last (hidx hw) (hwide hw).last
        have hsize : ({ s₃ with order := o } : SubnetBuilder).size = i + 1 := hp.size.trans hsizeA
        have hleA : s.size ≤ i + 1 := hsizeA ▸ ha.le
        have hseg : update seg (s.order.linksDepth links) m (s.order.linksDepth links) =
            seg (s.order.linksDepth links) ++ [i] := by
          rw [update_self]
          rw [hti] at hlast
          exact hlast (hin hw) (hwide hw).type.2.2
        let blocks' : List EntryID → Prop := fun b =>
          s.Block chain b ∨ b = i :: range' (i + 1) (SubnetCell.more ⟨t, links, 0⟩)
        have hblocks' : ∀ b, blocks' b → s.Block chain b ∨ b = i :: range' (i + 1)
            (SubnetCell.more ⟨t, links, 0⟩) :=
          fun _ hb => hb
        obtain ⟨s₅, hs₅, hext, hdep, hsegs, hstored⟩ := chainLinks_segments (t := t)
          hp.segments hsize (fun b hb hib => hnotin (hblocks b hb i hib)) hseg hw hblocks'
        rw [hs₅] at hs₂
        obtain rfl := some.inj hs₂
        have hcreated' : Created s s₅ t links i :=
          hcreated.congr hext.liveCell hext.strash hext.enabled hext.counts hext.le hext.free
        have hentries : ∀ j, j < s.size → s₅.entries j = s₃.entries j := fun j hj =>
          hext.entries j (hsize ▸ Nat.lt_of_lt_of_le hj hleA)
        have hold : ∀ j, j ≠ i →
            update chain i (range' (i + 1) (SubnetCell.more ⟨t, links, 0⟩)) j = chain j :=
          fun j hj => update_of_ne hj ..
        refine ⟨update chain i (range' (i + 1) (SubnetCell.more ⟨t, links, 0⟩)), _, _,
          h.created hcreated' ⟨hsegs.lists, ?_, hsegs.bounds, hsegs.first⟩
          (d := s.order.linksDepth links) ?_ (by simp) ?_ (hdep.trans hdepth) ?_ ?_ ?_ hold
          hs.net.free ?_, fun hexact => hexact.created hs hl hcreated' (hdep.trans hdepth)⟩
        · apply hsegs.segmented.mono
          intro b hb
          apply (hcreated'.of_block hold hb).imp id
          rintro ⟨-, rfl⟩
          rw [update_self]
        · intro j hj
          simp only [mem_append, mem_cons] at hj ⊢
          tauto
        · intro j hj
          simp only [mem_append, mem_cons, mem_range'_1] at hj ⊢
          rcases hj with (hj | hj | hj) | hj
          · exact .inl (.inl hj)
          · exact .inr (.inl hj)
          · exact .inr (.inr (hleA.trans hj.1))
          · exact .inl (.inr hj)
        · intro d' j hj
          by_cases hd : d' = s.order.linksDepth links
          · rw [hd, update_self] at hj
            rw [hd]
            rcases mem_append.mp hj with hj | hj
            · exact .inl hj
            · rcases mem_cons.mp hj with hji | hj
              · exact .inr (.inl ⟨hji, rfl, (hwide hw).type.2.2⟩)
              · obtain ⟨ls, hls⟩ := hstored.mem j hj
                exact .inr (.inr (not_live_of_links hls))
          · rw [update_of_ne hd] at hj
            exact (hmem d' j hj).imp id .inl
        · intro j hj hlt
          rw [hentries j hlt]
          exact hgate j hj
        · intro j hj ls hls
          rw [hentries j (h.segments.lists.lt j hj)]
          exact hlinks j hj ls hls
        · intro _
          rw [update_self]
          exact ⟨hstored, (hwide hw).type.1, (hwide hw).type.2.1⟩
      · rw [chainLinks, if_pos (Nat.not_lt.mp hw)] at hs₂
        cases hs₂
        refine ⟨chain, u ++ i :: v, _,
          h.created hcreated ⟨hp.segments.lists, ?_, hp.segments.bounds, hp.segments.first⟩
          (d := s.order.linksDepth links) ?_ (by simp) ?_ hdepth ?_ (fun j hj _ => hgate j hj)
          hlinks (fun _ _ => rfl) hs.net.free (fun hw' => absurd hw' hw),
          fun hexact => hexact.created hs hl hcreated hdepth⟩
        · apply hp.segments.segmented.mono
          intro b hb
          exact (hcreated.of_block (fun _ _ => rfl) hb).resolve_right (fun hor => hw hor.1)
        · intro j hj
          exact perm_middle.mem_iff.mpr (mem_cons_of_mem i hj)
        · intro j hj
          rcases mem_cons.mp (perm_middle.mem_iff.mp hj) with hji | hj
          · exact .inr (.inl hji)
          · exact .inl hj
        · exact fun d' j hj => (hmem d' j hj).imp id .inl

end UtopiaEda.SubnetBuilder
