import UtopiaEda.LinkEntryDepths
import UtopiaEda.ReplacementCalls
import UtopiaEda.ValidityChecks

/-!
# Entries of links in runs

The entries with the further links of a cell follow it in the order. This holds in runs in which a
cell with more than `InPlaceLinks` links gets the last entry and is not moved afterwards.
-/
namespace UtopiaEda.SubnetBuilder
open EntryOrder SegmentedLists
open Option (bind_eq_some_iff isSome_iff_exists map_eq_some_iff some.inj)

variable {lib : CellLibrary} {s s' : SubnetBuilder} {l u v : List EntryID} {i : EntryID}
  {chain : EntryID → List EntryID} {seg : ℕ → List EntryID}

/-- The next `n` entries of the order hold the links. -/
def FollowedBy (s : SubnetBuilder) : ℕ → EntryID → List Link → Prop
  | 0, _, links => links = []
  | n + 1, i, links => ∃ e, s.order.getNext (.entry i) = some (.entry e) ∧
    s.entries e = .links (links.take InEntryLinks) ∧ FollowedBy s n e (links.drop InEntryLinks)

def LinksBehind (s : SubnetBuilder) : Prop :=
  ∀ i c, s.liveCell i = some c → s.FollowedBy c.more i (c.links.drop InPlaceLinks)

def KeepsCall (s : SubnetBuilder) : Operation → Prop
  | .addInput | .addOutput _ => True
  | .addCell typeID links => InPlaceLinks < links.length → NewWide s typeID
  | .replaceCell entryID typeID links del =>
    links.length ≤ InPlaceLinks ∧ s.ReplaceNarrow entryID typeID links del
  | _ => False

/-- The condition for an operation; for `replace`, the one for the calls it makes. -/
def KeepsBehind (lib : CellLibrary) (s : SubnetBuilder) : Operation → Prop
  | .replace rhs iomapping => s.ReplaceCalls (fun s op => Valid lib s op ∧
      KeepsCall s op) rhs iomapping
  | op => KeepsCall s op

theorem Stored.followed : ∀ {es : List EntryID} {links : List Link} {i : EntryID}
    {u v : List EntryID}, Stored s.entries es links → s.order.Lists (u ++ i :: es ++ v) →
    s.FollowedBy ((links.length + (InEntryLinks - 1)) / InEntryLinks) i links := by
  intro es
  induction es with
  | nil =>
    intro links i u v h _
    have hnil : links = [] := h
    subst hnil
    rfl
  | cons e es ih =>
    intro links i u v h hl
    obtain ⟨hne, he, hrest⟩ := h
    have hnext : s.order.getNext (.entry i) = some (.entry e) :=
      getNext_of_lists (u := u) (v := es ++ v) (by simpa using hl)
    have hrest := ih (u := u ++ [i]) (v := v) hrest (by simpa using hl)
    have hcount : (links.length + (InEntryLinks - 1)) / InEntryLinks =
        ((links.drop InEntryLinks).length + (InEntryLinks - 1)) / InEntryLinks + 1 := by
      have hpos := List.length_pos_iff.mpr hne
      rw [List.length_drop]
      simp only [InEntryLinks]
      omega
    rw [hcount]
    exact ⟨e, hnext, he, hrest⟩

theorem Chained.linksBehind (h : Chained s chain l seg) : LinksBehind s := by
  intro i c hc
  by_cases hw : c.IsWide
  · obtain ⟨hstored, -⟩ := h.stored i c hc hw
    obtain ⟨u, v, hl⟩ := h.segments.segmented.whole _ ⟨i, c, hc, hw, rfl⟩
    have hfollowed := hstored.followed (u := u) (v := v) (hl ▸ h.segments.lists)
    rwa [SubnetCell.more_eq hw]
  · have hlen : c.links.length ≤ InPlaceLinks := Nat.not_lt.mp hw
    have hmore : c.more = 0 := by
      rw [SubnetCell.more, SubnetCell.arity]
      simp only [InPlaceLinks, InEntryLinks] at hlen ⊢
      omega
    rw [hmore, List.drop_eq_nil_of_le hlen]
    rfl

/-- What the operations keep. -/
private def Behind (s : SubnetBuilder) : Prop := NetOk s ∧ ∃ chain l seg, Chained s chain l seg

private theorem behind_init : Behind {} := by
  refine ⟨.init, fun _ => [], [], fun _ => [], ?_, ?_, ?_, ?_, ?_⟩
  · refine ⟨⟨rfl, rfl, LinkedLists.linked_nil, by simp, List.nodup_nil⟩,
      ⟨fun d hd => absurd rfl hd, fun _ _ _ => ?_, ?_⟩, fun _ => rfl, List.nil_prefix⟩
    · exact List.disjoint_nil_left _
    · rintro b ⟨i, c, hc, -⟩
      cases hc
  · intro i hi
    cases hi
  · intro i hi
    cases hi
  · intro d i hi
    cases hi
  · intro i c hc
    cases hc

private theorem behind_destrash (h : Behind s) (hd : s.destrashEntry i = some s') : Behind s' := by
  obtain ⟨c, -, hd⟩ := bind_eq_some_iff.mp hd
  split at hd
  · cases hd
    obtain ⟨⟨hnet, hacyclic⟩, chain, l, seg, h⟩ := h
    refine ⟨⟨⟨hnet.nodup, hnet.free, hnet.user, hnet.target, hnet.refcount, hnet.fanouts,
      fun k j hk => ?_⟩, hacyclic⟩, chain, l, seg, h.segments, h.mem, h.free, h.cells, h.stored⟩
    apply hnet.strash k j
    change Function.update s.strash c.key none k = some j at hk
    by_cases hkey : k = c.key
    · rw [hkey, Function.update_self] at hk
      cases hk
    · rwa [Function.update_of_ne hkey] at hk
  · cases hd
    exact h

private theorem behind_call {op : Operation} (h : Behind s) (hop : Valid lib s op ∧ KeepsCall s op)
    (hs : s.apply lib op = some s') : Behind s' := by
  obtain ⟨hok, chain, l, seg, h⟩ := h
  obtain ⟨hv, hk⟩ := hop
  cases op with
  | addInput =>
    obtain ⟨⟨s₁, r⟩, hadd, rfl⟩ := map_eq_some_iff.mp hs
    have hvalid : s.ValidLinks [] := by
      intro l hl
      cases hl
    obtain ⟨chain', l', seg', h', -⟩ :=
      h.addCell hok hvalid (fun hw => absurd hw (Nat.not_lt_zero _)) hadd
    exact ⟨hok.addCell hvalid hadd, chain', l', seg', h'⟩
  | addCell t links =>
    obtain ⟨⟨s₁, r⟩, hadd, rfl⟩ := map_eq_some_iff.mp hs
    obtain ⟨chain', l', seg', h', -⟩ := h.addCell hok hv hk hadd
    exact ⟨hok.addCell hv hadd, chain', l', seg', h'⟩
  | addOutput link =>
    obtain ⟨⟨s₁, r⟩, hadd, rfl⟩ := map_eq_some_iff.mp hs
    obtain ⟨chain', l', seg', h', -⟩ :=
      h.addCell hok hv (fun hw => absurd hw (by simp [InPlaceLinks])) hadd
    exact ⟨hok.addCell hv hadd, chain', l', seg', h'⟩
  | replaceCell i t links del =>
    obtain ⟨⟨s₁, r⟩, hrep, rfl⟩ := map_eq_some_iff.mp hs
    exact ⟨hok.replaceCell hv hrep, chain, h.replaceCell hok hv hk.1 hk.2 hrep⟩
  | replace rhs m => exact hk.elim
  | mergeCells m => exact hk.elim
  | replaceWithZero ids => exact hk.elim
  | replaceWithOne ids => exact hk.elim
  | enableFanouts => exact hk.elim

private theorem behind_apply {op : Operation} (h : Behind s)
    (hop : Valid lib s op ∧ KeepsBehind lib s op) (hs : s.apply lib op = some s') : Behind s' := by
  cases op with
  | replace rhs m =>
    exact replace_invariant (fun _ _ _ hb hd => behind_destrash hb hd)
      (fun _ _ _ hb hop ha => behind_call hb hop ha) h hop.2 hs
  | _ => exact behind_call h hop hs

theorem chained_of_run (hs : Run lib (fun s op => Valid lib s op ∧ KeepsBehind lib s op) s) :
    ∃ chain l seg, Chained s chain l seg :=
  (hs.invariant behind_init (fun _ _ _ hb hop ha => behind_apply hb hop ha)).2

/-! ### Conditions on the state before the operation -/

variable {rhs : Subnet} {iomapping : InOutMapping} {root : EntryID} {rootIsOut : Bool} {out : Link}
  {st : Replacing} {leaf : EntryID → EntryID} {c : SubnetCell}

/-- A condition on the arguments and the builder before the operation: a new cell with more links
than fit finds no free entry but the last one, and no such cell is above a cell whose depth may
change. -/
def KeepsWide (s : SubnetBuilder) : Operation → Prop
  | .addInput | .addOutput _ => True
  | .addCell typeID links => InPlaceLinks < links.length → NewWide s typeID
  | .replaceCell entryID _ links _ => links.length ≤ InPlaceLinks ∧
    (s.order.depth entryID = some (s.order.linksDepth links) ∨ s.NarrowAbove entryID)
  | .replace rhs iomapping => (∀ j c, rhs.getCell j = some c → c.links.length ≤ InPlaceLinks) ∧
    ∀ root, iomapping.outputs.map Link.idx = [root] → ReplaceOk s rhs root ∧ s.NarrowAbove root
  | _ => False

/-- What `replace` calls. -/
private def RootCall (root : EntryID) (s : SubnetBuilder) : Operation → Prop
  | .addCell _ links => s.ValidLinks links ∧ links.length ≤ InPlaceLinks
  | .replaceCell entryID _ links _ => entryID = root ∧ CellFits s root links ∧
      links.length ≤ InPlaceLinks
  | _ => False

private theorem bufCall_root (h : Mapped s rhs root leaf i st) (hroot : (s.netlist root).isSome)
    (hcell : ∃ c, rhs.getCell out.idx = some c) (hlt : out.idx < i) :
    BufCall (RootCall root) rhs root out st := by
  intro _
  obtain ⟨c, hc⟩ := hcell
  obtain ⟨g, hg⟩ := isSome_iff_exists.mp hroot
  obtain ⟨hmem, hreach⟩ := h.cell out.idx hlt c hc
  exact ⟨rfl, ⟨by rw [h.old root g hg]; rfl, validLinks_of_netlist (by simpa using hmem), by simpa using hreach⟩,
    by simp [InPlaceLinks]⟩

private theorem stepCall_root (h : Mapped s rhs root leaf i st) (hwf : rhs.WellFormed)
    (hroot : (s.netlist root).isSome) (hc : rhs.getCell i = some c)
    (hlen : c.links.length ≤ InPlaceLinks) :
    RootCall root st.builder (stepCall root rootIsOut out i c st) := by
  obtain ⟨g, hg⟩ := isSome_iff_exists.mp hroot
  obtain ⟨hvalid, hnew⟩ := h.valid hwf hc
  have hlen : (st.mapLinks c.links).length ≤ InPlaceLinks := by
    rw [Replacing.mapLinks, List.length_map]
    exact hlen
  rw [stepCall]
  split
  · exact ⟨rfl, ⟨by rw [h.old root g hg]; rfl, hvalid, hnew⟩, hlen⟩
  · exact ⟨hvalid, hlen⟩

private theorem rootCalls (hs : NetOk s) (hfit : Fits s rhs iomapping root)
    (hok : ReplaceOk s rhs root) (hsmall : ∀ j c, rhs.getCell j = some c →
    c.links.length ≤ InPlaceLinks) : ReplaceCalls (RootCall root) s rhs iomapping := by
  obtain ⟨g, hg⟩ := isSome_iff_exists.mp hfit.live
  obtain ⟨c, hc, -⟩ := liveCell_of_netlist hg
  obtain ⟨f, hfill, hfroot, hf⟩ := hfit.fillMapping
  intro f' c' out s₀ hf' hc' hout hs₀
  obtain rfl : f = f' := some.inj (hfill.symm.trans hf')
  rw [hfroot] at hc' hs₀ ⊢
  obtain rfl : c = c' := some.inj ((getCell_of_live hc).symm.trans hc')
  obtain ⟨table, htable, hnet, hfree⟩ := hfit.destrashRoot hs.net hok.unhashed hc hf
  obtain rfl := some.inj (htable.symm.trans hs₀)
  have hdrv := hfit.driver (hok.last c hc) hout
  have hsize := hfit.nIn_lt
  have hcell : ∃ a, rhs.getCell out.idx = some a := by
    cases hro : c.isOut with
    | true =>
      rw [hdrv.self hro]
      have hlt : rhs.size - 1 < rhs.size := by omega
      exact isSome_iff_exists.mp (hfit.wellFormed.ends _ (.inr (by rw [hfit.outputs])) hlt)
    | false =>
      obtain ⟨l, a, hl, -, ha⟩ := hfit.outLink
      rw [hro] at hout
      obtain rfl : l = out := some.inj (hl.symm.trans hout)
      exact ⟨a, ha⟩
  rw [show rhs.size - rhs.nIn = rhs.size - rhs.nIn - 1 + 1 by omega]
  exact Mapped.loopCalls (I := fun _ => True) hfit.wellFormed hfit.live hfit.outputs hdrv
    (fun h hlt => bufCall_root h hfit.live hcell hlt)
    (fun h _ _ ha _ _ => stepCall_root h hfit.wellFormed hfit.live ha (hsmall _ _ ha))
    (fun _ _ => trivial) (by omega) (Nat.le_refl _)
    (hfit.mapped hs.acyclic hnet hfree hf) trivial (fun _ => rfl)

/-- What these operations keep: with exact depths only cells above the root are moved. -/
private def BehindExact (s : SubnetBuilder) : Prop :=
  NetOk s ∧ s.DepthsExact ∧ ∃ chain l seg, Chained s chain l seg

private theorem behindExact_addCell {t : CellTypeID} {links : List Link} {r : Link}
    (h : BehindExact s) (hl : s.ValidLinks links) (hwide : InPlaceLinks < links.length →
    NewWide s t) (hadd : s.addCell t links = some (s', r)) : BehindExact s' := by
  obtain ⟨hok, hexact, chain, l, seg, h⟩ := h
  obtain ⟨chain', l', seg', h', hdepths⟩ := h.addCell hok hl hwide hadd
  exact ⟨hok.addCell hl hadd, hdepths hexact, chain', l', seg', h'⟩

private theorem behindExact_replaceCell {t : CellTypeID} {links : List Link} {del : Bool} {r : Link}
    (h : BehindExact s) (hfit : CellFits s root links) (hlen : links.length ≤ InPlaceLinks)
    (hkeep : s.order.depth root = some (s.order.linksDepth links) ∨ s.NarrowAbove root)
    (hrep : s.replaceCell root t links del = some (s', r)) : BehindExact s' := by
  obtain ⟨hok, hexact, chain, l, seg, h⟩ := h
  obtain ⟨l', seg', h', hdepths⟩ := h.replaceCell_exact hok hexact hfit hlen hkeep hrep
  exact ⟨hok.replaceCell hfit hrep, hdepths, chain, l', seg', h'⟩

private theorem NarrowAbove.addCell {t : CellTypeID} {links : List Link} {r : Link}
    (h : s.NarrowAbove root) (hs : NetOk s) (hl : s.ValidLinks links)
    (hlen : links.length ≤ InPlaceLinks) (hadd : s.addCell t links = some (s', r)) :
    s'.NarrowAbove root := by
  obtain ⟨-, -, hadded⟩ := hs.net.of_addCell hl hadd
  have hold : ∀ a, (s.netlist a).isSome → s'.netlist a = s.netlist a := by
    intro a ha
    by_cases har : a = r.idx
    · rw [har] at ha ⊢
      rcases hadded.old with hnone | ⟨hsame, -⟩
      · rw [hnone] at ha
        cases ha
      · exact hsame
    · exact hadded.other a har
  have hreach : ∀ a, s'.netlist.Reaches a root → (s.netlist a).isSome →
      s.netlist.Reaches a root := by
    intro a ha
    induction ha using Relation.ReflTransGen.head_induction_on with
    | refl => exact fun _ => .refl
    | head hab _ ih =>
      intro hlive
      obtain ⟨g, hg, hab⟩ := hab
      rw [hold _ hlive] at hg
      have hfanin : s.netlist.Fanin _ _ := ⟨g, hg, hab⟩
      obtain ⟨b, hb, -⟩ := hs.net.target _ _ (mem_targets.mpr hfanin)
      exact (ih (by rw [netlist_of_live hb]; rfl)).head hfanin
  intro i c hc hw hi hir
  have hg := netlist_of_live hc
  by_cases hlive : (s.netlist i).isSome
  · have hgate := hg
    rw [hold i hlive] at hgate
    obtain ⟨a, ha, -, hal⟩ := liveCell_of_netlist hgate
    exact h i a ha (by rwa [SubnetCell.IsWide, SubnetCell.arity, hal]) hi (hreach i hir hlive)
  · -- the new cell is narrow
    have hidx : i = r.idx := by
      by_contra hne
      rw [hadded.other i hne] at hg
      exact hlive (by rw [hg]; rfl)
    obtain ⟨ls, hls, hkey⟩ := hadded.here
    rw [← hidx, hg] at hls
    obtain ⟨-, hlinks⟩ := Gate.mk.inj (some.inj hls)
    have hperm := (StrashKey.links_perm t ls).symm.trans (hkey ▸ StrashKey.links_perm t links)
    rw [SubnetCell.IsWide, SubnetCell.arity, hlinks, hperm.length_eq] at hw
    exact absurd hlen (Nat.not_le.mpr hw)

private theorem behindExact_destrash (h : BehindExact s) (hd : s.destrashEntry i = some s') :
    BehindExact s' := by
  obtain ⟨hok, hexact, hchain⟩ := h
  obtain ⟨hok', hchain'⟩ := behind_destrash ⟨hok, hchain⟩ hd
  refine ⟨hok', ?_, hchain'⟩
  obtain ⟨c, -, hd⟩ := bind_eq_some_iff.mp hd
  split at hd
  · cases hd
    exact hexact
  · cases hd
    exact hexact

private theorem NarrowAbove.destrash (h : s.NarrowAbove root) (hd : s.destrashEntry i = some s') :
    s'.NarrowAbove root := by
  obtain ⟨c, -, hd⟩ := bind_eq_some_iff.mp hd
  split at hd
  · cases hd
    exact h
  · cases hd
    exact h

private theorem behindExact_rootCall {op : Operation} (h : BehindExact s ∧ s.NarrowAbove root)
    (hop : RootCall root s op) (hs : s.apply lib op = some s') : BehindExact s' ∧
    s'.NarrowAbove root := by
  obtain ⟨h, hnarrow⟩ := h
  cases op with
  | addCell t links =>
    obtain ⟨⟨s₁, r⟩, hadd, rfl⟩ := map_eq_some_iff.mp hs
    exact ⟨behindExact_addCell h hop.1 (fun hw => absurd hop.2 (Nat.not_le.mpr hw)) hadd,
      hnarrow.addCell h.1 hop.1 hop.2 hadd⟩
  | replaceCell i t links del =>
    obtain ⟨⟨s₁, r⟩, hrep, rfl⟩ := map_eq_some_iff.mp hs
    obtain ⟨rfl, hfit, hlen⟩ := hop
    obtain ⟨g, hg⟩ := isSome_iff_exists.mp hfit.live
    obtain ⟨c, hc, -⟩ := liveCell_of_netlist hg
    obtain ⟨-, -, D, hrepl⟩ := h.1.net.of_replaceCell h.1.acyclic hc hfit.valid hfit.acyclic hrep
    exact ⟨behindExact_replaceCell h hfit hlen (.inr hnarrow) hrep, hrepl.narrowAbove hnarrow⟩
  | _ => exact hop.elim

private theorem behindExact_apply {op : Operation} (h : BehindExact s)
    (hop : Valid lib s op ∧ KeepsWide s op) (hs : s.apply lib op = some s') : BehindExact s' := by
  obtain ⟨hv, hk⟩ := hop
  cases op with
  | addInput =>
    obtain ⟨⟨s₁, r⟩, hadd, rfl⟩ := map_eq_some_iff.mp hs
    have hvalid : s.ValidLinks [] := by
      intro l hl
      cases hl
    exact behindExact_addCell h hvalid (fun hw => absurd hw (Nat.not_lt_zero _)) hadd
  | addCell t links =>
    obtain ⟨⟨s₁, r⟩, hadd, rfl⟩ := map_eq_some_iff.mp hs
    exact behindExact_addCell h hv hk hadd
  | addOutput link =>
    obtain ⟨⟨s₁, r⟩, hadd, rfl⟩ := map_eq_some_iff.mp hs
    exact behindExact_addCell h hv (fun hw => absurd hw (by simp [InPlaceLinks])) hadd
  | replaceCell i t links del =>
    obtain ⟨⟨s₁, r⟩, hrep, rfl⟩ := map_eq_some_iff.mp hs
    exact behindExact_replaceCell h hv hk.1 hk.2 hrep
  | replace rhs iomapping =>
    obtain ⟨root, hfit⟩ := hv
    obtain ⟨hok, hnarrow⟩ := hk.2 root hfit.target
    have hstep : ∀ s s' op, BehindExact s ∧ s.NarrowAbove root → RootCall root s op →
        s.apply lib op = some s' →
        BehindExact s' ∧ s'.NarrowAbove root :=
        fun _ _ _ hb hop ha => behindExact_rootCall hb hop ha
    exact (replace_invariant (fun _ _ _ hb hd => ⟨behindExact_destrash hb.1 hd, hb.2.destrash hd⟩)
      hstep ⟨h, hnarrow⟩ (rootCalls h.1 hfit hok hk.1) hs).1
  | _ => exact hk.elim

/-- The entries of links stay behind their cells, in any order of the operations. -/
theorem linksBehind_of_run (hs : Run lib (fun s op => Valid lib s op ∧ KeepsWide s op) s) :
    LinksBehind s := by
  have hinit : BehindExact {} := by
    obtain ⟨hok, hchain⟩ := behind_init
    exact ⟨hok, (fun i c hc => by cases hc), hchain⟩
  obtain ⟨-, -, chain, l, seg, h⟩ :=
    hs.invariant hinit (fun _ _ _ hb hop ha => behindExact_apply hb hop ha)
  exact h.linksBehind

private theorem narrowAbove_of_isNarrow (h : s.isNarrow = true) : s.NarrowAbove root :=
  fun _ _ hc hw =>
  absurd (le_of_isNarrow h (getCell_of_live hc)) (Nat.not_le.mpr hw)

/-- The cell 3 is freed and its entry, the last one, is taken by a wide cell: the entry 4 of its
links follows it, although another cell of its depth comes later; that cell is replaced without a
change of its depth. -/
theorem linksBehind_replaceCell :
    ∃ s, LinksBehind s ∧ s.order.getNext (.entry 3) = some (.entry 4) ∧
    s.entries 4 = .links [⟨1, 0, true⟩] := by
  have hempty : Run .empty (fun s op => Valid .empty s op ∧ KeepsWide s op) {} := .init
  have h₁ := hempty.next .addInput ⟨trivial, trivial⟩ rfl
  have h₂ := h₁.next .addInput ⟨trivial, trivial⟩ rfl
  have h₃ := h₂.next (.addCell .AND [⟨0, 0, false⟩, ⟨1, 0, false⟩])
    ⟨validLinks_of_check (by decide), fun hw => absurd hw (by decide)⟩ rfl
  have h₄ := h₃.next (.addCell .OR [⟨2, 0, false⟩, ⟨0, 0, false⟩])
    ⟨validLinks_of_check (by decide), fun hw => absurd hw (by decide)⟩ rfl
  have h₅ := h₄.next (.replaceCell 3 .AND [⟨0, 0, false⟩, ⟨1, 0, true⟩] true)
    ⟨valid_of_check (by decide), by decide, .inr (narrowAbove_of_isNarrow (by decide))⟩ rfl
  have h₆ := h₅.next (.addCell .OR [⟨3, 0, false⟩, ⟨0, 0, false⟩])
    ⟨validLinks_of_check (by decide), fun hw => absurd hw (by decide)⟩ rfl
  have h₇ := h₆.next (.replaceCell 2 .BUF [⟨0, 0, false⟩] true)
    ⟨valid_of_check (by decide), by decide, .inr (narrowAbove_of_isNarrow (by decide))⟩ rfl
  have h₈ := h₇.next (.addCell .AND [⟨0, 0, false⟩, ⟨1, 0, false⟩, ⟨0, 0, true⟩, ⟨1, 0, true⟩])
    ⟨validLinks_of_check (by decide), fun _ => ⟨by decide, by decide⟩⟩ rfl
  have h₉ := h₈.next (.addCell .OR [⟨0, 0, false⟩, ⟨1, 0, false⟩])
    ⟨validLinks_of_check (by decide), fun hw => absurd hw (by decide)⟩ rfl
  have h₁₀ := h₉.next (.replaceCell 5 .AND [⟨0, 0, true⟩, ⟨1, 0, true⟩] true)
    ⟨valid_of_check (by decide), by decide, .inl rfl⟩ rfl
  exact ⟨_, linksBehind_of_run h₁₀, rfl, rfl⟩

/-- The wide cell 2 has a recycled entry: the cell 6 comes between it and the entry 5 of its
links. -/
theorem not_linksBehind_recycled : ¬ ∀ lib s, Run lib (Valid lib) s → LinksBehind s := by
  intro h
  let wire : Subnet := ⟨1, 1, 2, 0, [.cell ⟨.IN, [], 1⟩, .cell ⟨.OUT, [⟨0, 0, false⟩], 0⟩]⟩
  let ops : List Operation := [.addInput, .addInput, .addCell .AND [⟨0, 0, false⟩, ⟨1, 0, false⟩],
    .addCell .OR [⟨0, 0, false⟩, ⟨2, 0, false⟩], .addOutput ⟨3, 0, false⟩,
    .replace wire ⟨[⟨0, 0, false⟩], [⟨3, 0, false⟩]⟩,
    .addCell .AND [⟨0, 0, false⟩, ⟨1, 0, false⟩, ⟨0, 0, true⟩, ⟨1, 0, true⟩],
    .addCell .OR [⟨0, 0, false⟩, ⟨1, 0, false⟩]]
  have hcell : (checkRun .empty ops {}).map (fun s => (s.liveCell 2, s.order.getNext (.entry 2),
      s.entries 6)) = some (some ⟨.AND, [⟨0, 0, false⟩, ⟨1, 0, false⟩, ⟨0, 0, true⟩, ⟨1, 0, true⟩],
      0⟩, some (.entry 6),
        .cell ⟨.OR, [⟨0, 0, false⟩, ⟨1, 0, false⟩], 0⟩) := by decide +kernel
  obtain ⟨s, hs, heq⟩ := map_eq_some_iff.mp hcell
  simp only [Prod.mk.injEq] at heq
  obtain ⟨hlive, hnext, hentry⟩ := heq
  have hbehind := h _ s (run_of_checkRun .init hs) 2 _ hlive
  rw [show SubnetCell.more _ = 1 from rfl] at hbehind
  obtain ⟨e, he, hlinks, -⟩ := hbehind
  rw [hnext] at he
  obtain rfl := Place.entry.inj (some.inj he)
  rw [hentry] at hlinks
  cases hlinks

end UtopiaEda.SubnetBuilder
