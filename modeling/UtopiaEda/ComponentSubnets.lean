import UtopiaEda.NetDecomposer
import UtopiaEda.EntryRearrangement
import UtopiaEda.GateAddition
import UtopiaEda.SubnetCopying

/-!
# The subnets of the components

The builder of a component grows by its inputs, its inner cells and its outputs, in this order. So
the inputs are its first entries and the outputs its last ones, and they keep their places in the
subnet.
-/
namespace UtopiaEda
open List
open Option (bind_eq_some_iff isSome_iff_exists)

namespace SubnetBuilder
open EntryOrder

variable {s s' : SubnetBuilder} {ins mid outs : List EntryID} {i : EntryID} {r r' : Rearrangement}

structure SameFrame (s s' : SubnetBuilder) : Prop where
  order : s'.order = s.order
  counts : (s'.nIn, s'.nOut) = (s.nIn, s.nOut)

theorem SameFrame.refl (s : SubnetBuilder) : SameFrame s s := ⟨rfl, rfl⟩

theorem SameFrame.trans {s'' : SubnetBuilder} (h : SameFrame s s') (h' : SameFrame s' s'') :
    SameFrame s s'' :=
  ⟨h'.order.trans h.order, h'.counts.trans h.counts⟩

theorem sameFrame_addFanout {a b : EntryID} (h : s.addFanout a b = some s') : SameFrame s s' := by
  rw [addFanout] at h
  split at h
  · cases h
  · cases h
    exact ⟨rfl, rfl⟩

theorem sameFrame_delFanout {a b : EntryID} (h : s.delFanout a b = some s') : SameFrame s s' := by
  rw [delFanout] at h
  split at h
  · cases h
  · cases h
    exact ⟨rfl, rfl⟩

theorem sameFrame_setLinkRef {j : ℕ} {link : Link} (h : s.setLinkRef i j link = some s') :
    SameFrame s s' := by
  obtain ⟨c, -, h⟩ := bind_eq_some_iff.mp h
  split at h
  · cases h
    exact ⟨rfl, rfl⟩
  · obtain ⟨⟨p, k⟩, -, h⟩ := bind_eq_some_iff.mp h
    split at h
    · split at h
      · cases h
      · split at h
        · cases h
          exact ⟨rfl, rfl⟩
        · cases h
    · cases h

theorem sameFrame_relinkLoop : ∀ {newLinks : List Link} {j : ℕ} {s s' : SubnetBuilder},
    relinkLoop i j newLinks s = some s' → SameFrame s s' := by
  intro newLinks
  induction newLinks with
  | nil =>
    intro j s s' h
    cases h
    exact .refl s
  | cons l newLinks ih =>
    intro j s s' h
    obtain ⟨old, -, h⟩ := bind_eq_some_iff.mp h
    obtain ⟨s₁, h₁, h⟩ := bind_eq_some_iff.mp h
    obtain ⟨s₂, h₂, h⟩ := bind_eq_some_iff.mp h
    obtain ⟨s₃, h₃, h⟩ := bind_eq_some_iff.mp h
    exact (sameFrame_delFanout h₁).trans
      ((sameFrame_setLinkRef h₂).trans ((sameFrame_addFanout h₃).trans (ih h)))

theorem sameFrame_relinkCell {newLinks : List Link} (h : s.relinkCell i newLinks = some s') :
    SameFrame s s' := by
  obtain ⟨c, -, h⟩ := bind_eq_some_iff.mp h
  split at h
  · cases h
  · exact sameFrame_relinkLoop h

namespace Rearrangement

structure Adds (n : ℕ) (r r' : Rearrangement) : Prop where
  length : r'.newEntries.length = r.newEntries.length + n
  frame : SameFrame r.builder r'.builder

theorem Adds.trans {m n : ℕ} {r'' : Rearrangement} (h : Adds m r r') (h' : Adds n r' r'') :
    Adds (m + n) r r'' :=
  ⟨by rw [h'.length, h.length, Nat.add_assoc], h.frame.trans h'.frame⟩

private theorem adds_relink {link newLink : Link} (h : r.relink link = some (r', newLink)) :
    Adds 0 r r' := by
  obtain ⟨e, -, h⟩ := bind_eq_some_iff.mp h
  split at h
  · cases h
    exact ⟨length_set, .refl _⟩
  · cases h

private theorem adds_relinkAll : ∀ {links newLinks : List Link} {r r' : Rearrangement},
    relinkAll links r = some (r', newLinks) → Adds 0 r r' := by
  intro links
  induction links with
  | nil =>
    intro newLinks r r' h
    cases h
    exact ⟨rfl, .refl _⟩
  | cons l links ih =>
    intro newLinks r r' h
    obtain ⟨⟨r₁, l₁⟩, h₁, h⟩ := bind_eq_some_iff.mp h
    obtain ⟨⟨r₂, ls⟩, h₂, h⟩ := bind_eq_some_iff.mp h
    cases h
    exact (adds_relink h₁).trans (ih h₂)

theorem adds_step (h : r.step false i = some r') : Adds 1 r r' := by
  rw [step] at h
  split at h
  · cases h
    exact ⟨by rw [addLinkEntry, length_append]; rfl, .refl _⟩
  · obtain ⟨c, -, h⟩ := bind_eq_some_iff.mp h
    rw [if_neg (by simp)] at h
    obtain ⟨c', -, h⟩ := bind_eq_some_iff.mp h
    obtain ⟨oldLinks, -, h⟩ := bind_eq_some_iff.mp h
    obtain ⟨⟨r₁, newLinks⟩, h₁, h⟩ := bind_eq_some_iff.mp h
    obtain ⟨b, hb, h⟩ := bind_eq_some_iff.mp h
    obtain ⟨c'', -, h⟩ := bind_eq_some_iff.mp h
    cases h
    have hall := adds_relinkAll h₁
    refine ⟨?_, hall.frame.trans (sameFrame_relinkCell hb)⟩
    rw [length_append, hall.length]
    rfl

theorem adds_loop {o : EntryOrder} : ∀ {l u : List EntryID} {n : ℕ} {r r' : Rearrangement}, o.Visits
    (u ++ l) → r.builder.order = o → loop false n (after l) r = some r' → Adds l.length r r' := by
  intro l
  induction l with
  | nil =>
    intro u n r r' _ _ h
    have hr : r' = r := by
      cases n <;> exact (Option.some.inj h).symm
    subst hr
    exact ⟨rfl, .refl _⟩
  | cons i l ih =>
    intro u n r r' hl ho h
    cases n with
    | zero => cases h
    | succ n =>
      obtain ⟨r₁, h₁, h⟩ := bind_eq_some_iff.mp h
      obtain ⟨p, hp, h⟩ := bind_eq_some_iff.mp h
      have hstep := adds_step h₁
      rw [hstep.frame.order, ho, hl.next rfl] at hp
      cases hp
      rw [append_cons] at hl
      have hrest := hstep.trans (ih hl (hstep.frame.order.trans ho) h)
      rwa [Nat.add_comm] at hrest

end Rearrangement

theorem Grown.make_size {S : Subnet} (h : Grown s ins mid outs) (hS : s.make = some S) :
    S.size = s.size ∧ S.nIn = s.nIn ∧ S.nOut = s.nOut := by
  rw [SubnetBuilder.make] at hS
  split at hS
  · cases hS
  · rename_i hpos
    obtain ⟨s', hs', hS⟩ := bind_eq_some_iff.mp hS
    obtain ⟨b, -, hS⟩ := bind_eq_some_iff.mp hS
    obtain ⟨b', -, hS⟩ := bind_eq_some_iff.mp hS
    split at hS
    · cases hS
      have hsize : s'.size = s.size ∧ (s'.nIn, s'.nOut) = (s.nIn, s.nOut) := by
        split at hs'
        · obtain ⟨r, hr, hs'⟩ := bind_eq_some_iff.mp hs'
          cases hs'
          have hne : (ins ++ mid ++ outs).flatMap s.block ≠ [] := by
            intro hnil
            have hlen := h.length_flatMap
            rw [hnil] at hlen
            exact hpos (.inr hlen.symm)
          rw [h.lists.visits.begins hne] at hr
          have hadds := Rearrangement.adds_loop (u := []) h.lists.visits rfl hr
          refine ⟨?_, hadds.frame.counts⟩
          rw [← h.length_flatMap]
          exact hadds.length.trans (Nat.zero_add _)
        · cases hs'
          exact ⟨rfl, rfl⟩
      refine ⟨?_, congrArg Prod.fst hsize.2, congrArg Prod.snd hsize.2⟩
      rw [← hsize.1, Subnet.size, takeEntries, length_map, length_range]
    · cases hS

end SubnetBuilder

/-- The types of the gates are those of the table; soft blocks with a subnet have its interface. -/
structure Net.Regular (net : Net) : Prop where
  standard : ∀ c cell typeID, net.cells c = some cell → cell.type.symbol = .gate typeID →
    cell.type = .standard typeID ∧ ∀ sid, typeID ≠ .soft sid
  subnet : ∀ c cell S, net.cells c = some cell → cell.type.isSoft = true →
    cell.type.subnet = some S → S.Arranged ∧ S.nIn = cell.links.length ∧ S.nOut = cell.type.nOut

namespace NetDecomposer
open SubnetBuilder

variable {net : Net} {types : List SubnetType} {component : NetComponent} {s s' : SubnetBuilder}
  {ins mid outs : List EntryID} {inputs inputs' : LinkMap} {inners inners' : CellMap}
  {entryToDesc entryToDesc' : EntryToDesc} {ilinks olinks : List Link} {l : Link}
  {symbol : NetSymbol} {cell : NetCell} {neg : Bool}

/-! ### Cells -/

structure Grows (ins : List EntryID) (P : Gate → Prop) (s s' : SubnetBuilder) : Prop where
  grown : ∃ mid', Grown s' ins mid' []
  le : s.netlist.Le s'.netlist
  only : ∀ k g, s'.netlist k = some g → s.netlist k = some g ∨ P g
  counts : (s'.nIn, s'.nOut) = (s.nIn, s.nOut)

theorem Grows.refl {P : Gate → Prop} (h : Grown s ins mid []) : Grows ins P s s :=
  ⟨⟨mid, h⟩, .refl _, fun _ _ h => .inl h, rfl⟩

theorem Grows.trans {P : Gate → Prop} {s'' : SubnetBuilder} (h : Grows ins P s s')
    (h' : Grows ins P s' s'') : Grows ins P s s'' := by
  refine ⟨h'.grown, h.le.trans h'.le, fun k g hg => ?_, h'.counts.trans h.counts⟩
  rcases h'.only k g hg with hg | hg
  · exact h.only k g hg
  · exact .inr hg

theorem Grows.weaken {P Q : Gate → Prop} (h : Grows ins P s s') (hPQ : ∀ g, P g → Q g) :
    Grows ins Q s s' :=
  ⟨h.grown, h.le, fun k g hg => (h.only k g hg).imp_right (hPQ g), h.counts⟩

private theorem grows_addCell {t : CellTypeID} (h : Grown s ins mid []) (hl : s.ValidLinks ilinks)
    (hin : t ≠ .IN) (hout : t ≠ .OUT) (hneg : t.isNegative = false) (hsoft : ∀ sid, t ≠ .soft sid) :
    ∃ s' l, s.addCell t ilinks = some (s', l) ∧
    Grows ins (fun g => g.links.length = ilinks.length) s s' ∧ s'.ValidLinks [l] := by
  obtain ⟨s', l, mid', hadd, hgrown, hlink⟩ := h.addGateLink hl hneg hin hout hsoft
  exact ⟨s', l, hadd, ⟨⟨mid', hgrown⟩, hlink.le,
    fun k g hg => (hlink.gates k g hg).imp_right And.right, hlink.counts⟩, hlink.valid⟩

theorem exists_addGate {t : CellTypeID} (h : Grown s ins mid []) (hl : s.ValidLinks ilinks)
    (hin : t ≠ .IN) (hout : t ≠ .OUT) (hsoft : ∀ sid, t ≠ .soft sid) (hbuf : t = .BUF ∨ t = .NOT →
    ilinks ≠ []) : ∃ s' l, addGate s (.gate t) t.isNegative ilinks = some (s', l) ∧
      Grows ins (fun g => g.links.length = ilinks.length) s s' ∧ s'.ValidLinks [l] := by
  have hfirst : t = .BUF ∨ t = .NOT →
      ∃ s' l, (do some (s, ← ilinks[0]?) : Option (SubnetBuilder × Link)) = some (s', l) ∧
      Grows ins (fun g => g.links.length = ilinks.length) s s' ∧ s'.ValidLinks [l] := by
    intro ht
    obtain ⟨l, rest, rfl⟩ := exists_cons_of_ne_nil (hbuf ht)
    exact ⟨s, l, rfl, Grows.refl h, fun k hk => hl k (by simp_all)⟩
  cases t with
  | IN => exact absurd rfl hin
  | OUT => exact absurd rfl hout
  | BUF => exact hfirst (.inl rfl)
  | NOT => exact hfirst (.inr rfl)
  | soft sid => exact absurd rfl (hsoft sid)
  | ZERO => exact grows_addCell (t := .ZERO) h hl (by decide) (by decide) rfl (by simp)
  | ONE => exact grows_addCell (t := .ONE) h hl (by decide) (by decide) rfl (by simp)
  | AND => exact grows_addCell (t := .AND) h hl (by decide) (by decide) rfl (by simp)
  | OR => exact grows_addCell (t := .OR) h hl (by decide) (by decide) rfl (by simp)
  | XOR => exact grows_addCell (t := .XOR) h hl (by decide) (by decide) rfl (by simp)
  | NAND => exact grows_addCell (t := .AND) h hl (by decide) (by decide) rfl (by simp)
  | NOR => exact grows_addCell (t := .OR) h hl (by decide) (by decide) rfl (by simp)
  | XNOR => exact grows_addCell (t := .XOR) h hl (by decide) (by decide) rfl (by simp)
  | MAJ => exact grows_addCell (t := .MAJ) h hl (by decide) (by decide) rfl (by simp)

private theorem mem_of_mapM {α β : Type} {f : α → Option β} :
    ∀ {xs : List α} {ys : List β}, xs.mapM f = some ys → ∀ y ∈ ys, ∃ x ∈ xs, f x = some y := by
  intro xs
  induction xs with
  | nil =>
    intro ys h y hy
    cases h
    cases hy
  | cons x xs ih =>
    intro ys h y hy
    rw [mapM_cons] at h
    obtain ⟨z, hz, h⟩ := bind_eq_some_iff.mp h
    obtain ⟨zs, hzs, h⟩ := bind_eq_some_iff.mp h
    cases h
    rcases mem_cons.mp hy with rfl | hy
    · exact ⟨x, mem_cons_self, hz⟩
    · obtain ⟨x', hx', heq⟩ := ih hzs y hy
      exact ⟨x', mem_cons_of_mem x hx', heq⟩

/-- The links of the cells of the subnets and of the gates. -/
def Wide (net : Net) (n : ℕ) : Prop := ∀ c cell, net.cells c = some cell → cell.links.length ≤ n ∧
  ∀ S, cell.type.subnet = some S → ∀ i c', S.getCell i = some c' → c'.links.length ≤ n

theorem exists_addSubnet (types : List SubnetType) {S : Subnet} (h : Grown s ins mid [])
    (hl : s.ValidLinks ilinks) (hS : S.Arranged) (hn : S.nIn = ilinks.length) :
    ∃ s' os, s.addSubnet types S ilinks = some (s', os) ∧
      Grows ins (fun g => ∃ i c, S.getCell i = some c ∧ g.links.length = c.links.length) s s' ∧
      s'.ValidLinks os ∧ os.length = S.nOut := by
  obtain ⟨s', mid', os, hadd, hos, hcopy⟩ := h.addSubnet types hS hl hn.le
  refine ⟨s', os, hadd, ⟨⟨mid', hcopy.grown⟩, hcopy.le, fun k g hg => ?_, hcopy.counts⟩,
    fun l hlos => ?_, ?_⟩
  · rcases hcopy.only k (by rw [hg]; rfl) with hold | ⟨j, hj, hle, hlt, rfl⟩
    · obtain ⟨g', hg'⟩ := isSome_iff_exists.mp hold
      have hsame := hcopy.le k g' hg'
      rw [hg] at hsame
      cases hsame
      exact .inl hg'
    · obtain ⟨c, hc⟩ := isSome_iff_exists.mp hj
      have hcell := (hcopy.cells j c hc hle hlt).1
      rw [IsCopy, hg] at hcell
      cases hcell
      exact .inr ⟨j, c, hc, length_map _⟩
  · obtain ⟨k, hk, hget⟩ := mem_of_mapM hos l hlos
    obtain ⟨l₀, hl₀, rfl⟩ := Option.map_eq_some_iff.mp hget
    obtain ⟨c, hc, hlink⟩ := bind_eq_some_iff.mp hl₀
    refine hcopy.validLinks hS.wellFormed hl hn.le hc (.inr le_rfl) _
      (mem_map.mpr ⟨l₀, ?_, rfl⟩)
    exact mem_of_getElem? hlink
  · rw [Netlist.length_of_mapM hos, length_range]

theorem exists_addInnerCell (types : List SubnetType) (hnet : net.Regular) {c : ℕ}
    (hcell : net.cells c = some cell) (h : Grown s ins mid [])
    (hl : s.ValidLinks ilinks) (hlen : ilinks.length = cell.links.length)
    (hinput : isInputType cell.type = false) (hsym : cell.type.isSoft = false →
    ∃ t, cell.type.symbol = .gate t ∧ (t = .BUF ∨ t = .NOT → cell.links ≠ [])) :
    ∃ s' os, addInnerCell types s cell.type ilinks = some (s', os) ∧
      Grows ins (fun g => g.links.length = cell.links.length ∨
        ∃ S, cell.type.subnet = some S ∧ ∃ i c, S.getCell i = some c ∧
        g.links.length = c.links.length) s s' ∧
      s'.ValidLinks os ∧ os.length = cell.type.nOut := by
  rw [addInnerCell]
  cases hsoft : cell.type.isSoft with
  | true =>
    obtain ⟨S, hS⟩ : ∃ S, cell.type.subnet = some S := by
      rw [← isSome_iff_exists]
      by_contra hnone
      rw [isInputType, hsoft, NetCellType.isSubnet, Bool.eq_false_of_not_eq_true hnone] at hinput
      simp at hinput
    obtain ⟨harr, hn, hnOut⟩ := hnet.subnet c cell S hcell hsoft hS
    obtain ⟨s', os, hadd, hgrows, hvalid, hos⟩ :=
      exists_addSubnet types h hl harr (hn.trans hlen.symm)
    refine ⟨s', os, ?_, hgrows.weaken fun g hg => .inr ⟨S, hS, hg⟩, hvalid, hos.trans hnOut⟩
    rw [if_pos rfl, hS]
    exact hadd
  | false =>
    obtain ⟨t, ht, hbuf⟩ := hsym hsoft
    obtain ⟨htype, hnot⟩ := hnet.standard c cell t hcell ht
    have hin : t ≠ .IN := by
      rintro rfl
      rw [htype] at hinput
      exact absurd hinput (by decide)
    have hout : t ≠ .OUT := by
      rintro rfl
      rw [htype] at hinput
      exact absurd hinput (by decide)
    obtain ⟨s', l, hadd, hgrows, hvalid⟩ := exists_addGate h hl hin hout hnot fun hb => by
      rw [← length_pos_iff, hlen, length_pos_iff]
      exact hbuf hb
    have hneg : cell.type.props.negative = t.isNegative := by rw [htype]; rfl
    refine ⟨s', [if t.isNegative then l.not else l], ?_,
      hgrows.weaken fun g hg => .inl (hg.trans hlen), fun k hk => ?_, ?_⟩
    · rw [if_neg (by simp), hneg, ht]
      simp only [hadd]
      rfl
    · obtain rfl := mem_singleton.mp hk
      have hidx : (if t.isNegative then l.not else l).idx = l.idx := by split <;> rfl
      rw [hidx]
      exact hvalid l (mem_singleton_self l)
    · rw [htype, NetCellType.standard, if_neg hout]
      rfl

theorem of_addInnerCell (hlen : ilinks.length = cell.links.length)
    (h : addInnerCell types s cell.type ilinks = some (s', olinks)) :
    cell.type.isSoft = false → ∃ t, cell.type.symbol = .gate t ∧
    (t = .BUF ∨ t = .NOT → cell.links ≠ []) := by
  intro hsoft
  rw [addInnerCell, if_neg (by simp [hsoft])] at h
  obtain ⟨⟨s₁, l⟩, hadd, -⟩ := bind_eq_some_iff.mp h
  cases hsym : cell.type.symbol with
  | gate t =>
    refine ⟨t, rfl, fun hb hnil => ?_⟩
    rw [hnil, length_nil, length_eq_zero_iff] at hlen
    rw [hsym, hlen] at hadd
    rcases hb with rfl | rfl <;> cases hadd
  | _ =>
    rw [hsym] at hadd
    cases hadd

/-! ### The loops -/

structure Mapped (s : SubnetBuilder) (inners : CellMap) (inputs : LinkMap) : Prop where
  inner : ∀ c links, inners c = some links → s.ValidLinks links
  input : ∀ entry ∈ inputs.entries, s.ValidLinks [⟨entry.2, 0, false⟩]

theorem Mapped.mono (h : Mapped s inners inputs) (hle : s.netlist.Le s'.netlist) :
    Mapped s' inners inputs :=
  ⟨fun c links hc => (h.inner c links hc).mono hle, fun entry he => (h.input entry he).mono hle⟩

theorem Mapped.makeLink {source : LinkEnd} (h : Mapped s inners inputs)
    (hl : makeLink inners inputs source = some l) : s.ValidLinks [l] := by
  rw [NetDecomposer.makeLink] at hl
  split at hl
  · rename_i links hlinks
    intro k hk
    obtain rfl := mem_singleton.mp hk
    exact h.inner _ links hlinks k (mem_of_getElem? hl)
  · obtain ⟨idx, hidx, heq⟩ := bind_eq_some_iff.mp hl
    cases heq
    exact h.input ⟨_, idx⟩ (AList.mem_lookup_iff.mp hidx)

theorem Mapped.makeLinks {sources : List LinkEnd} (h : Mapped s inners inputs)
    (hl : sources.mapM (NetDecomposer.makeLink inners inputs) = some ilinks) :
    s.ValidLinks ilinks := by
  intro k hk
  obtain ⟨source, -, hsource⟩ := mem_of_mapM hl k hk
  exact h.makeLink hsource k (mem_singleton_self k)

theorem Mapped.emplace {c : ℕ} (h : Mapped s inners inputs) (hl : s.ValidLinks olinks) :
    Mapped s (if (inners c).isSome then inners else Function.update inners c (some olinks))
    inputs := by
  split
  · exact h
  · refine ⟨fun c' links hc' => ?_, h.input⟩
    rw [Function.update_apply] at hc'
    split at hc'
    · cases hc'
      exact hl
    · exact h.inner c' links hc'

theorem addInnersLoop_grows (hnet : net.Regular) :
    ∀ {cells : List ℕ} {mid : List EntryID} {s s' : SubnetBuilder} {inners inners' : CellMap},
    (∀ c ∈ cells, ∀ cell, net.cells c = some cell → isInputType cell.type = false) →
    Grown s ins mid [] → Mapped s inners inputs → addInnersLoop net types inputs cells s inners =
    some (s', inners') → Grows ins (fun _ => True) s s' ∧ Mapped s' inners' inputs := by
  intro cells
  induction cells with
  | nil =>
    intro mid s s' inners inners' _ h hm hrun
    cases hrun
    exact ⟨Grows.refl h, hm⟩
  | cons c cells ih =>
    intro mid s s' inners inners' hinput h hm hrun
    obtain ⟨cell, hcell, hrun⟩ := bind_eq_some_iff.mp hrun
    obtain ⟨ilinks, hilinks, hrun⟩ := bind_eq_some_iff.mp hrun
    obtain ⟨⟨s₁, olinks⟩, hadd, hrun⟩ := bind_eq_some_iff.mp hrun
    have hlen : ilinks.length = cell.links.length := Netlist.length_of_mapM hilinks
    obtain ⟨s₂, os, hadd', hgrows, hvalid, -⟩ :=
      exists_addInnerCell types hnet hcell h (hm.makeLinks hilinks) hlen
      (hinput c mem_cons_self cell hcell) (of_addInnerCell hlen hadd)
    rw [hadd] at hadd'
    cases hadd'
    obtain ⟨mid₁, hgrown₁⟩ := hgrows.grown
    obtain ⟨hrest, hm'⟩ := ih (fun c' hc' => hinput c' (mem_cons_of_mem c hc')) hgrown₁
      ((hm.mono hgrows.le).emplace hvalid) hrun
    exact ⟨(hgrows.weaken fun _ _ => trivial).trans hrest, hm'⟩

def Names (net : Net) (cellID : ℕ) (d : Option EntryDesc) : Prop :=
  ∃ cell desc, net.cells cellID = some cell ∧ d = some desc ∧ desc.flipFlop =
    !cell.type.isCombinational ∧ (desc.flipFlop = true → desc.flipFlopID = cellID)

theorem names_of_makeEntryDesc {c : ℕ} {signal : SignalType} {d : EntryDesc}
    (h : makeEntryDesc net c signal = some d) : Names net c (some d) := by
  obtain ⟨cell, hcell, h⟩ := bind_eq_some_iff.mp h
  split at h
  · rename_i hcomb
    cases h
    exact ⟨cell, _, hcell, rfl, by rw [hcomb]; rfl, fun hf => by cases hf⟩
  · rename_i hcomb
    cases h
    exact ⟨cell, _, hcell, rfl, by rw [Bool.eq_false_of_not_eq_true hcomb]; rfl, fun _ => rfl⟩

structure Fronted (net : Net) (done : List NetLink) (s : SubnetBuilder) (inputs : LinkMap)
    (entryToDesc : EntryToDesc) : Prop where
  grown : Grown s (range done.length) [] []
  size : s.size = done.length
  counts : (s.nIn, s.nOut) = (done.length, 0)
  desc : ∀ (k : ℕ) l, done[k]? = some l → Names net l.source.cellID (entryToDesc k)
  mapped : ∀ entry ∈ inputs.entries, ∃ k l, done[k]? = some l ∧ entry = ⟨makeInputLink l, k⟩
  mem : ∀ l ∈ done, makeInputLink l ∈ inputs

theorem Fronted.init (net : Net) : Fronted net [] {} ∅ fun _ => none :=
  ⟨Grown.init, rfl, rfl, fun k l h => (by cases h), fun entry h => (by cases h),
    fun l h => (by cases h)⟩

theorem LinkMap.mem_insertNew (m : LinkMap) (link : NetLink) (idx : ℕ) :
    (∀ entry ∈ (m.insertNew link idx).entries, entry ∈ m.entries ∨ entry = ⟨link, idx⟩) ∧
      link ∈ m.insertNew link idx ∧ ∀ link' ∈ m, link' ∈ m.insertNew link idx := by
  rw [LinkMap.insertNew]
  split
  · rename_i hmem
    exact ⟨fun entry he => .inl he, hmem, fun _ h => h⟩
  · rename_i hmem
    refine ⟨fun entry he => ?_, AList.mem_insert _ |>.mpr (.inl rfl),
      fun link' h => AList.mem_insert _ |>.mpr (.inr h)⟩
    rw [AList.entries_insert_of_notMem hmem, mem_cons] at he
    exact he.symm

theorem Fronted.step {done : List NetLink} {input : NetLink} {link : Link} {d : EntryDesc}
    (h : Fronted net done s inputs entryToDesc) (hadd : s.addInput = some (s', link))
    (hd : Names net input.source.cellID (some d)) :
    Fronted net (done ++ [input]) s' (inputs.insertNew (makeInputLink input) link.idx)
      (Function.update entryToDesc link.idx (some d)) := by
  obtain ⟨s₁, hadd₁, hgrown, happ⟩ := h.grown.addInput
  rw [hadd] at hadd₁
  cases hadd₁
  have hcounts := happ.counts
  simp only [Prod.mk.injEq] at hcounts
  have hold := h.counts
  simp only [Prod.mk.injEq] at hold
  have hlen : (done ++ [input]).length = done.length + 1 := length_append
  obtain ⟨hentries, hnew, hkeep⟩ := LinkMap.mem_insertNew inputs (makeInputLink input) s.size
  refine ⟨?_, ?_, ?_, fun k l hk => ?_, fun entry he => ?_, fun l hl => ?_⟩
  · rw [hlen, range_succ, ← h.size]
    rw [← h.size] at hgrown
    exact hgrown
  · rw [hlen, happ.size, h.size]
    rfl
  · rw [hcounts.1, hcounts.2.1, hold.1, hold.2, hlen]
    rfl
  · rw [Function.update_apply, h.size]
    rw [getElem?_append] at hk
    split at hk
    · rename_i hlt
      rw [if_neg hlt.ne]
      exact h.desc k l hk
    · rename_i hle
      have hlt := (List.getElem?_eq_some_iff.mp hk).1
      rw [length_singleton] at hlt
      obtain rfl : k = done.length := by omega
      rw [Nat.sub_self] at hk
      cases hk
      rw [if_pos rfl]
      exact hd
  · rcases hentries entry he with he | rfl
    · obtain ⟨k, l, hk, heq⟩ := h.mapped entry he
      exact ⟨k, l, by rw [getElem?_append_left (List.getElem?_eq_some_iff.mp hk).1, hk], heq⟩
    · refine ⟨s.size, input, ?_, rfl⟩
      rw [h.size, getElem?_concat_length]
  · rcases mem_append.mp hl with hl | hl
    · exact hkeep _ (h.mem l hl)
    · obtain rfl := mem_singleton.mp hl
      exact hnew

theorem Fronted.addInputsLoop : ∀ {rest done : List NetLink} {s s' : SubnetBuilder}
    {inputs inputs' : LinkMap} {etd etd' : EntryToDesc}, Fronted net done s inputs etd →
    NetDecomposer.addInputsLoop net component rest s inputs etd = some (s', inputs', etd') →
      Fronted net (done ++ rest) s' inputs' etd' := by
  intro rest
  induction rest with
  | nil =>
    intro done s s' inputs inputs' etd etd' h hrun
    cases hrun
    rw [append_nil]
    exact h
  | cons input rest ih =>
    intro done s s' inputs inputs' etd etd' h hrun
    obtain ⟨⟨s₁, link⟩, hadd, hrun⟩ := bind_eq_some_iff.mp hrun
    obtain ⟨signal, -, hrun⟩ := bind_eq_some_iff.mp hrun
    obtain ⟨d, hd, hrun⟩ := bind_eq_some_iff.mp hrun
    rw [append_cons]
    exact ih (h.step hadd (names_of_makeEntryDesc hd)) hrun

theorem Fronted.toMapped {done : List NetLink} (h : Fronted net done s inputs entryToDesc) :
    Mapped s (fun _ => none) inputs := by
  refine ⟨fun c links hc => (by cases hc), fun entry he l hl => ?_⟩
  obtain rfl := mem_singleton.mp hl
  obtain ⟨k, link, hk, rfl⟩ := h.mapped entry he
  have hlt : k < done.length := (List.getElem?_eq_some_iff.mp hk).1
  obtain ⟨g, hg⟩ := isSome_iff_exists.mp ((h.grown.mem k).mp (by simpa using hlt))
  obtain ⟨c, hc, ht, -⟩ := liveCell_of_netlist hg
  refine ⟨c, hc, ?_⟩
  rw [ht]
  exact fun hout => by simpa using (h.grown.output k g hg).mp hout

structure Ended (net : Net) (n a : ℕ) (mid : List EntryID) (inners : CellMap) (inputs : LinkMap)
    (front : EntryToDesc)
    (done : List NetLink) (s : SubnetBuilder) (outputs : LinkMap) (entryToDesc : EntryToDesc) :
      Prop where
  grown : Grown s (range n) mid (range' a done.length)
  links : Mapped s inners inputs
  size : s.size = a + done.length
  counts : (s.nIn, s.nOut) = (n, done.length)
  desc : ∀ (k : ℕ) l, done[k]? = some l → Names net l.target.cellID (entryToDesc (a + k))
  front : ∀ k < n, entryToDesc k = front k
  mapped : ∀ entry ∈ outputs.entries, ∃ k l, done[k]? = some l ∧ entry = ⟨l, a + k⟩
  mem : ∀ l ∈ done, l ∈ outputs

variable {n a : ℕ} {front : EntryToDesc} {outputs outputs' : LinkMap}

theorem Fronted.exists_ended {done : List NetLink} {P : Gate → Prop}
    (h : Fronted net done s inputs entryToDesc) (hgrows : Grows (range done.length) P s s')
    (hm : Mapped s' inners inputs) : ∃ mid, done.length ≤ s'.size ∧
    Ended net done.length s'.size mid inners inputs entryToDesc [] s' ∅ entryToDesc := by
  obtain ⟨mid, hgrown⟩ := hgrows.grown
  refine ⟨mid, ?_, hgrown, hm, rfl, hgrows.counts.trans h.counts, fun k l h => (by cases h),
    fun _ _ => rfl, fun entry h => (by cases h), fun l h => (by cases h)⟩
  by_contra hlt
  have hmem : s'.size ∈ range done.length := mem_range.mpr (Nat.lt_of_not_le hlt)
  obtain ⟨g, hg⟩ := isSome_iff_exists.mp ((hgrown.mem s'.size).mp (by simp [hmem]))
  exact absurd (lt_of_netlist hg) (Nat.lt_irrefl _)

theorem Ended.step {done : List NetLink} {output : NetLink} {ilink link : Link} {d : EntryDesc}
    (hn : n ≤ a) (h : Ended net n a mid inners inputs front done s outputs entryToDesc)
    (hl : s.ValidLinks [ilink]) (hadd : s.addOutput ilink = some (s', link))
    (hd : Names net output.target.cellID (some d)) :
    Ended net n a mid inners inputs front (done ++ [output]) s' (outputs.insertNew output link.idx)
      (Function.update entryToDesc link.idx (some d)) := by
  obtain ⟨s₁, hadd₁, hgrown, happ⟩ := h.grown.addOutput hl
  rw [hadd] at hadd₁
  cases hadd₁
  have hcounts := happ.counts
  simp only [Prod.mk.injEq] at hcounts
  have hold := h.counts
  simp only [Prod.mk.injEq] at hold
  have hlen : (done ++ [output]).length = done.length + 1 := length_append
  obtain ⟨hentries, hnew, hkeep⟩ := LinkMap.mem_insertNew outputs output s.size
  refine ⟨?_, h.links.mono happ.le, ?_, ?_, fun k l hk => ?_, fun k hk => ?_, fun entry he => ?_,
    fun l hl => ?_⟩
  · rw [hlen, range'_concat, Nat.one_mul, ← h.size]
    exact hgrown
  · rw [hlen, happ.size_of_le (by simp [InPlaceLinks]), h.size, Nat.add_assoc]
  · rw [hcounts.1, hcounts.2.1, hold.1, hold.2, hlen]
    rfl
  · rw [Function.update_apply, h.size]
    rw [getElem?_append] at hk
    split at hk
    · rename_i hlt
      rw [if_neg (fun heq => hlt.ne (Nat.add_left_cancel heq))]
      exact h.desc k l hk
    · rename_i hle
      have hlt := (List.getElem?_eq_some_iff.mp hk).1
      rw [length_singleton] at hlt
      obtain rfl : k = done.length := by omega
      rw [Nat.sub_self] at hk
      cases hk
      rw [if_pos rfl]
      exact hd
  · have hne : k ≠ s.size := by
      have hsize := h.size
      intro heq
      rw [hsize] at heq
      exact absurd (Nat.lt_of_lt_of_le hk hn)
        (by rw [heq]; exact Nat.not_lt.mpr (Nat.le_add_right _ _))
    rw [Function.update_of_ne hne]
    exact h.front k hk
  · rcases hentries entry he with he | rfl
    · obtain ⟨k, l, hk, heq⟩ := h.mapped entry he
      exact ⟨k, l, by rw [getElem?_append_left (List.getElem?_eq_some_iff.mp hk).1, hk], heq⟩
    · refine ⟨done.length, output, getElem?_concat_length, ?_⟩
      rw [h.size]
  · rcases mem_append.mp hl with hl | hl
    · exact hkeep _ (h.mem l hl)
    · obtain rfl := mem_singleton.mp hl
      exact hnew

theorem Ended.addOutputsLoop (hn : n ≤ a) :
    ∀ {rest done : List NetLink} {s s' : SubnetBuilder} {outputs outputs' : LinkMap}
    {etd etd' : EntryToDesc}, Ended net n a mid inners inputs front done s outputs etd →
      NetDecomposer.addOutputsLoop net component inners inputs rest s outputs etd =
      some (s', outputs', etd') →
      Ended net n a mid inners inputs front (done ++ rest) s' outputs' etd' := by
  intro rest
  induction rest with
  | nil =>
    intro done s s' outputs outputs' etd etd' h hrun
    cases hrun
    rw [append_nil]
    exact h
  | cons output rest ih =>
    intro done s s' outputs outputs' etd etd' h hrun
    obtain ⟨ilink, hilink, hrun⟩ := bind_eq_some_iff.mp hrun
    obtain ⟨⟨s₁, link⟩, hadd, hrun⟩ := bind_eq_some_iff.mp hrun
    obtain ⟨signal, -, hrun⟩ := bind_eq_some_iff.mp hrun
    obtain ⟨d, hd, hrun⟩ := bind_eq_some_iff.mp hrun
    rw [append_cons]
    exact ih (h.step hn (h.links.makeLink hilink) hadd (names_of_makeEntryDesc hd)) hrun

structure Described (net : Net) (component : NetComponent) (desc : SubnetDesc) : Prop where
  outputs_ne : component.outputs ≠ []
  nOut : desc.subnet.nOut = component.outputs.length
  inputDesc : ∀ k < desc.subnet.nIn, ∃ l ∈ component.inputs,
    Names net l.source.cellID (desc.entryToDesc k)
  input : ∀ l ∈ component.inputs, ∃ k < desc.subnet.nIn,
    Names net l.source.cellID (desc.entryToDesc k)
  outputDesc : ∀ k < desc.subnet.nOut, ∃ o ∈ component.outputs,
    Names net o.target.cellID (desc.entryToDesc (desc.subnet.getOutIdx k))
  output : ∀ o ∈ component.outputs, ∃ k < desc.subnet.nOut,
    Names net o.target.cellID (desc.entryToDesc (desc.subnet.getOutIdx k))
  mappedInput : ∀ entry ∈ desc.mapping.inputs.entries,
    (∃ l ∈ component.inputs, l.source = entry.1.source) ∧ (desc.entryToDesc entry.2).isSome
  inputMapped : ∀ l ∈ component.inputs, ∃ entry ∈ desc.mapping.inputs.entries,
    entry.1.source = l.source
  mappedOutput : ∀ entry ∈ desc.mapping.outputs.entries,
    (∃ o ∈ component.outputs, o.target = entry.1.target) ∧ (desc.entryToDesc entry.2).isSome
  outputMapped : ∀ o ∈ component.outputs, ∃ entry ∈ desc.mapping.outputs.entries,
    entry.1.target = o.target

theorem described_of_makeSubnet (hnet : net.Regular) {order : List NetLink → List NetLink}
    (horder : ∀ l, (order l).Perm l) (hinner : ∀ c ∈ component.inners,
    ∀ cell, net.cells c = some cell → isInputType cell.type = false)
    (hne : component.outputs ≠ []) {desc : SubnetDesc}
    (hrun : makeSubnet net types order component = some desc) : Described net component desc := by
  obtain ⟨⟨s₁, inputs, etd₁⟩, h₁, hrun⟩ := bind_eq_some_iff.mp hrun
  obtain ⟨⟨s₂, inners⟩, h₂, hrun⟩ := bind_eq_some_iff.mp hrun
  obtain ⟨⟨s₃, outputs, etd₃⟩, h₃, hrun⟩ := bind_eq_some_iff.mp hrun
  obtain ⟨S, hS, hrun⟩ := bind_eq_some_iff.mp hrun
  cases hrun
  have hfront := (Fronted.init net).addInputsLoop h₁
  rw [nil_append] at hfront
  obtain ⟨hgrows, hmapped₂⟩ := addInnersLoop_grows hnet hinner hfront.grown hfront.toMapped h₂
  obtain ⟨mid, hle, hstart⟩ := hfront.exists_ended hgrows hmapped₂
  have hend := hstart.addOutputsLoop hle h₃
  rw [nil_append] at hend
  obtain ⟨hsize, hnIn, hnOut⟩ := hend.grown.make_size hS
  have hcounts := hend.counts
  simp only [Prod.mk.injEq] at hcounts
  have hidx : ∀ k, S.getOutIdx k = s₂.size + k := by
    intro k
    rw [Subnet.getOutIdx, hsize, hnOut, hcounts.2, hend.size, Nat.add_sub_cancel]
  have hfirst : ∀ (k : ℕ) l, (order component.inputs)[k]? = some l →
      Names net l.source.cellID (etd₃ k) := by
    intro k l hk
    rw [hend.front k (List.getElem?_eq_some_iff.mp hk).1]
    exact hfront.desc k l hk
  have hsome : ∀ {c d}, Names net c d → d.isSome := by
    rintro c d ⟨cell, desc, -, rfl, -⟩
    rfl
  refine ⟨hne, ?_, fun k hk => ?_, fun l hl => ?_, fun k hk => ?_, fun o ho => ?_,
    fun entry he => ?_, fun l hl => ?_, fun entry he => ?_, fun o ho => ?_⟩
  · exact hnOut.trans (hcounts.2.trans (horder _).length_eq)
  · rw [hnIn, hcounts.1] at hk
    exact ⟨_, (horder _).mem_iff.mp (getElem_mem hk), hfirst k _ (getElem?_eq_getElem hk)⟩
  · obtain ⟨k, hk, heq⟩ := getElem_of_mem ((horder _).mem_iff.mpr hl)
    refine ⟨k, by rwa [hnIn, hcounts.1], hfirst k l ?_⟩
    rw [getElem?_eq_getElem hk, heq]
  · rw [hnOut, hcounts.2] at hk
    refine ⟨_, (horder _).mem_iff.mp (getElem_mem hk), ?_⟩
    rw [hidx]
    exact hend.desc k _ (getElem?_eq_getElem hk)
  · obtain ⟨k, hk, heq⟩ := getElem_of_mem ((horder _).mem_iff.mpr ho)
    refine ⟨k, by rwa [hnOut, hcounts.2], ?_⟩
    rw [hidx]
    exact hend.desc k o (by rw [getElem?_eq_getElem hk, heq])
  · obtain ⟨k, l, hk, rfl⟩ := hfront.mapped entry he
    exact ⟨⟨l, (horder _).mem_iff.mp (mem_of_getElem? hk), rfl⟩, hsome (hfirst k l hk)⟩
  · obtain ⟨idx, hlookup⟩ := isSome_iff_exists.mp
      (AList.lookup_isSome.mpr (hfront.mem l ((horder _).mem_iff.mpr hl)))
    exact ⟨⟨_, idx⟩, AList.mem_lookup_iff.mp hlookup, rfl⟩
  · obtain ⟨k, o, hk, rfl⟩ := hend.mapped entry he
    exact ⟨⟨o, (horder _).mem_iff.mp (mem_of_getElem? hk), rfl⟩, hsome (hend.desc k o hk)⟩
  · obtain ⟨idx, hlookup⟩ := isSome_iff_exists.mp
      (AList.lookup_isSome.mpr (hend.mem o ((horder _).mem_iff.mpr ho)))
    exact ⟨⟨_, idx⟩, AList.mem_lookup_iff.mp hlookup, rfl⟩

end NetDecomposer

end UtopiaEda
