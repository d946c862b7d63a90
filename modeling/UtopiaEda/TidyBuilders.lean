import UtopiaEda.AssembledOrders
import UtopiaEda.LeveledRuns
import UtopiaEda.OrderedBuilders

/-!
# Builders of cells with one output

A builder is tidy if its order is leveled, its counters are right, all links are to first outputs,
and its buffers have one link. Adding cells and replacing cells other than inputs and outputs keeps
this and the lists of the inputs and the outputs.
-/
namespace UtopiaEda
open List

structure Gate.Plain (g : Gate) : Prop where
  port : ∀ l ∈ g.links, l.out = 0
  single : g.type = .OUT ∨ g.type = .BUF → g.links.length = 1

namespace SubnetBuilder
open EntryOrder

variable {lib : CellLibrary} {s s' b : SubnetBuilder} {ins mid outs : List EntryID} {t : CellTypeID}
  {links : List Link} {i root : EntryID} {rhs : Subnet} {iomapping : InOutMapping} {out : Link}
  {r : Link} {del : Bool} {g : Gate} {D : Finset EntryID}

structure Tidy (s : SubnetBuilder) (ins mid outs : List EntryID) : Prop where
  leveled : Leveled s ins mid outs
  nIn : s.nIn = ins.length
  nOut : s.nOut = outs.length
  plain : ∀ i g, s.netlist i = some g → g.Plain
  assembled : s.order.Assembled
  packed : s.order.isDisassembled = false →
    (0 < s.size → (s.liveCell (s.size - 1)).isSome) ∧ (ins ≠ [] → (s.liveCell 0).isSome)

theorem Tidy.init : Tidy {} [] [] [] := by
  refine ⟨.init, rfl, rfl, fun i g hg => ?_, fun _ _ => rfl,
    fun _ => ⟨fun h => absurd h (Nat.lt_irrefl 0), fun h => absurd rfl h⟩⟩
  obtain ⟨c, hc, -⟩ := liveCell_of_netlist hg
  cases hc

/-- In an order that was never disassembled the cells fill the array from some entry on. -/
theorem Tidy.exists_range (h : Tidy s ins mid outs) (hd : s.order.isDisassembled = false)
    (hpos : 0 < s.size) : ∃ b < s.size, ins ++ mid ++ outs = range' b (s.size - b) ∧
    (ins ≠ [] → b = 0) := by
  obtain ⟨a, ha⟩ := h.leveled.order.layered.lists.consecutive h.assembled hd
  obtain ⟨hlast, hfirst⟩ := h.packed hd
  have hlast := (h.leveled.order.mem _).mpr (hlast hpos)
  have hend : a + (ins ++ mid ++ outs).length ≤ s.size := by
    have hne : (ins ++ mid ++ outs).length ≠ 0 := fun hzero => by
      rw [length_eq_zero_iff.mp hzero] at hlast
      cases hlast
    have hmem : a + ((ins ++ mid ++ outs).length - 1) ∈ ins ++ mid ++ outs := by
      rw [ha, length_range', mem_range'_1]
      omega
    have hlt : a + ((ins ++ mid ++ outs).length - 1) < s.size :=
      h.leveled.order.layered.lists.lt _ hmem
    omega
  rw [ha, mem_range'_1] at hlast
  have hlen : (ins ++ mid ++ outs).length = s.size - a := by omega
  refine ⟨a, by omega, by rw [← hlen]; exact ha, fun hne => ?_⟩
  have hmem := (h.leveled.order.mem 0).mpr (hfirst hne)
  rw [ha, mem_range'_1] at hmem
  omega

theorem Tidy.ordered (h : Tidy s ins mid outs) : Ordered s (fun _ => []) ins mid outs := by
  have hlev := h.leveled
  have hplain : ∀ i c, s.liveCell i = some c → Gate.Plain ⟨c.type, c.links⟩ := fun i c hc =>
    h.plain i _ (netlist_of_live hc)
  refine ⟨?_, hlev.order.mem, fun i c hc => ?_, fun ps i rest c hps hc l hl => ?_, hlev.input,
    fun i c hc => ?_, hlev.noLinks, fun i c hc ht => (hplain i c hc).single (.inl ht),
    fun i c hc ht => (hplain i c hc).single (.inr ht),
    fun i c hc l hl _ => (hplain i c hc).port l hl, h.nIn, h.nOut⟩
  · rw [entriesOf_eq_self (fun _ _ => rfl)]
    exact hlev.order.layered.lists.visits
  · rw [drop_eq_nil_of_le (hlev.small i c hc)]
    rfl
  · have hij : s.netlist.Fanin i l.idx := ⟨_, netlist_of_live hc, l, hl, rfl⟩
    obtain ⟨b, hb, hbt⟩ := hlev.net.target i l.idx (mem_targets.mpr hij)
    exact hlev.order.layered.sorted.mem_of_lt hlev.order.layered.lists.nodup hps
      (hlev.order.mem_left hb hbt) (hlev.depth_lt hij)
  · have hout := hlev.order.out i ((hlev.order.mem i).mpr (by rw [hc]; rfl))
    rw [getTypeID_of_live hc] at hout
    exact hout

/-! ### Adding and replacing cells -/

private theorem Added.plain (ha : Added s s' t links i)
    (hplain : ∀ i g, s.netlist i = some g → g.Plain) (hnew : Gate.Plain ⟨t, links⟩) {j : EntryID}
    (hg : s'.netlist j = some g) : g.Plain := by
  by_cases hj : j = i
  · subst hj
    obtain ⟨ls, hls, hkey⟩ := ha.here
    obtain rfl := Option.some.inj (hls.symm.trans hg)
    obtain ⟨-, hperm, -⟩ := StrashKey.make_eq hkey
    exact ⟨fun l hl => hnew.port l (hperm.mem_iff.mp hl),
      fun ht => hperm.length_eq.trans (hnew.single ht)⟩
  · exact hplain j g (ha.other j hj ▸ hg)

private theorem Added.live (ha : Added s s' t links i) {j : EntryID} (hj : (s.liveCell j).isSome) :
    (s'.liveCell j).isSome := by
  rw [← netlist_isSome] at hj ⊢
  by_cases hji : j = i
  · obtain ⟨ls, hls, -⟩ := ha.here
    rw [hji, hls]
    rfl
  · rw [ha.other j hji]
    exact hj

private theorem Tidy.packed_addCell (h : Tidy s ins mid outs) (hl : s.ValidLinks links)
    (hlen : links.length ≤ InPlaceLinks) (hin : t = .IN → mid = [] ∧ outs = [])
    (ha : s.addCell t links = some (s', r)) (hd : s.order.isDisassembled = false) : (0 < s'.size →
    (s'.liveCell (s'.size - 1)).isSome) ∧
      ((if t = .IN then ins ++ [r.idx] else ins) ≠ [] → (s'.liveCell 0).isSome) := by
  obtain ⟨-, -, hadded⟩ := h.leveled.net.of_addCell hl ha
  have hhere : (s'.liveCell r.idx).isSome := by
    obtain ⟨ls, hls, -⟩ := hadded.here
    rw [← netlist_isSome, hls]
    rfl
  obtain ⟨hlast, hfirst⟩ := h.packed hd
  have hsize := addCell_size h.leveled.net hlen ha
  refine ⟨fun hpos => ?_, fun hne => ?_⟩
  · rcases hsize with hsize | ⟨hsize, hidx⟩
    · rw [hsize] at hpos ⊢
      exact hadded.live (hlast hpos)
    · rw [hsize, Nat.add_sub_cancel, ← hidx]
      exact hhere
  · by_cases hnil : ins = []
    · have ht : t = .IN := by
        by_contra ht
        rw [if_neg ht] at hne
        exact hne hnil
      -- there are no cells, and so there is no entry
      obtain ⟨rfl, rfl⟩ := hin ht
      subst hnil
      have hzero : s.size = 0 := by
        by_contra hpos
        have hmem := (h.leveled.order.mem _).mpr (hlast (Nat.pos_of_ne_zero hpos))
        cases hmem
      obtain ⟨c, hc⟩ := Option.isSome_iff_exists.mp hhere
      rcases hsize with hsize | ⟨-, hidx⟩
      · have hlt : r.idx < 0 := Nat.lt_of_lt_of_eq (lt_of_live hc) (hsize.trans hzero)
        cases hlt
      · rwa [hidx, hzero] at hhere
    · exact hadded.live (hfirst hnil)

theorem Tidy.addCell (h : Tidy s ins mid outs) (hl : s.ValidLinks links)
    (hlen : links.length ≤ InPlaceLinks) (hin : t = .IN → mid = [] ∧ outs = [])
    (hnew : Gate.Plain ⟨t, links⟩) (ha : s.addCell t links = some (s', r)) :
    ∃ mid', Tidy s' (if t = .IN then ins ++ [r.idx] else ins) mid' (if t = .OUT then
    outs ++ [r.idx] else outs) := by
  have hout : t = .OUT → links ≠ [] := by
    rintro ht rfl
    cases hnew.single (.inl ht)
  obtain ⟨mid', hlev⟩ := h.leveled.addCell hl hlen hin hout ha
  have hcounts := h.leveled.net.addCell_counts hl ha
  simp only [Prod.mk.injEq] at hcounts
  obtain ⟨-, -, hadded⟩ := h.leveled.net.of_addCell hl ha
  have hstay := stays_addCell h.leveled.net ha
  refine ⟨mid', hlev, ?_, ?_, fun i g hg => hadded.plain h.plain hnew hg,
    hstay.assembled h.assembled, fun hd => ?_⟩
  · rw [hcounts.1, h.nIn]
    by_cases ht : t = .IN <;> simp [ht]
  · rw [hcounts.2, h.nOut]
    by_cases ht : t = .OUT <;> simp [ht]
  · exact h.packed_addCell hl hlen hin ha (hstay hd).1

theorem Tidy.destrash (h : Tidy s ins mid outs) (hd : s.destrashEntry i = some s') :
    Tidy s' ins mid outs := by
  have hlev := h.leveled.destrash hd
  obtain ⟨c, -, hd⟩ := Option.bind_eq_some_iff.mp hd
  split at hd <;> cases hd
  · exact ⟨hlev, h.nIn, h.nOut, h.plain, h.assembled, h.packed⟩
  · exact h

private theorem Tidy.le_of_reaches (h : Tidy s ins mid outs) (hd : s.order.isDisassembled = false)
    {j : EntryID} (hij : s.netlist.Reaches i j) : j ≤ i := by
  induction hij with
  | refl => exact Nat.le_refl _
  | tail _ hjk ih =>
    obtain ⟨g, hg, l, hl, rfl⟩ := hjk
    obtain ⟨c, hc, -, hlinks⟩ := liveCell_of_netlist hg
    obtain ⟨ps, rest, hps⟩ := append_of_mem (h.ordered.mem_of_live hc)
    have hmem := h.ordered.fanins ps _ rest c hps hc l (by rwa [hlinks])
    obtain ⟨b, -, hrange, -⟩ := h.exists_range hd (Nat.zero_lt_of_lt (lt_of_live hc))
    have hsorted := pairwise_lt_range' (s := b) (n := s.size - b)
    rw [← hrange, hps] at hsorted
    exact Nat.le_trans (Nat.le_of_lt
      ((pairwise_append.mp hsorted).2.2 _ hmem _ (mem_cons_self ..))) ih

private theorem Tidy.packed_replaced {c : SubnetCell} (h : Tidy s ins mid outs)
    (hrepl : Replaced s s' root t links D) (hc : s.liveCell root = some c)
    (hd : s.order.isDisassembled = false) : (0 < s'.size → (s'.liveCell (s'.size - 1)).isSome) ∧
    (ins ≠ [] → (s'.liveCell 0).isSome) := by
  have hlt : root < s.size := lt_of_live hc
  have hpos := Nat.zero_lt_of_lt hlt
  obtain ⟨hlast, hfirst⟩ := h.packed hd
  have hkept : ∀ i, (s.liveCell i).isSome → i ∉ D → (s'.liveCell i).isSome := by
    intro i hi hiD
    rw [← netlist_isSome] at hi ⊢
    rw [hrepl.netlist, if_neg hiD]
    split
    · rfl
    · exact hi
  rw [hrepl.size]
  refine ⟨fun _ => hkept _ (hlast hpos) (fun hD => ?_), fun hne => hkept _ (hfirst hne)
    (fun hD => ?_)⟩
  · -- deleted cells have smaller entries than the root
    obtain ⟨hne, hreach⟩ := hrepl.fanin _ hD
    exact hne (Nat.le_antisymm (h.le_of_reaches hd hreach) (Nat.le_sub_one_of_lt hlt))
  · -- the first entry is an input
    obtain ⟨b, hb, hrange, hzero⟩ := h.exists_range hd hpos
    obtain rfl := hzero hne
    obtain ⟨i, ins', rfl⟩ := exists_cons_of_ne_nil hne
    obtain ⟨n, hn⟩ := Nat.exists_eq_succ_of_ne_zero (Nat.ne_of_gt hpos)
    rw [Nat.sub_zero, hn, range'_succ] at hrange
    obtain ⟨rfl, -⟩ := cons_eq_cons.mp hrange
    obtain ⟨a, ha, hat, -⟩ := h.leveled.mem_ins (mem_cons_self ..)
    obtain ⟨g, hg, hgt⟩ := hrepl.notIn _ hD
    rw [netlist_of_live ha] at hg
    cases hg
    exact hgt hat

theorem Tidy.replaceCell (h : Tidy s ins mid outs) (hfit : CellFits s root links) (hin : root ∉ ins)
    (hout : s.getTypeID root ≠ .OUT) (hnew : Gate.Plain ⟨t, links⟩)
    (hrep : s.replaceCell root t links del = some (s', r)) : ∃ mid', Tidy s' ins mid' outs := by
  obtain ⟨mid', hlev⟩ := h.leveled.replaceCell hfit hout (fun hmem => absurd hmem hin) hrep
  have hins : ins.filter (· ≠ root) = ins := by
    rw [filter_eq_self]
    intro i hi
    exact decide_eq_true (ne_of_mem_of_not_mem hi hin)
  rw [hins] at hlev
  obtain ⟨g, hg⟩ := Option.isSome_iff_exists.mp hfit.live
  obtain ⟨c, hc, -⟩ := liveCell_of_netlist hg
  obtain ⟨-, -, D, hrepl⟩ := h.leveled.net.of_replaceCell h.leveled.netOk.acyclic hc hfit.valid
    hfit.acyclic hrep
  have hcounts := hrepl.counts
  simp only [Prod.mk.injEq] at hcounts
  have hstay := stays_replaceCell hrep
  refine ⟨mid', hlev, hcounts.1.trans h.nIn, hcounts.2.1.trans h.nOut, fun i g hg => ?_,
    hstay.assembled h.assembled, fun hd => h.packed_replaced hrepl hc (hstay hd).1⟩
  rw [hrepl.netlist] at hg
  split at hg
  · cases hg
    exact hnew
  · split at hg
    · cases hg
    · exact h.plain i g hg

/-! ### Replacing a cell by a subnet -/

private def PlainCall (_ : SubnetBuilder) : Operation → Prop
  | .addCell typeID links => Gate.Plain ⟨typeID, links⟩
  | .replaceCell _ typeID links _ => Gate.Plain ⟨typeID, links⟩
  | _ => True

private theorem plain_mapLinks {c : SubnetCell} (hc : Gate.Plain ⟨c.type, c.links⟩)
    (st : Replacing) : Gate.Plain ⟨c.type, st.mapLinks c.links⟩ := by
  refine ⟨fun l hl => ?_, fun ht => (length_map _).trans (hc.single ht)⟩
  obtain ⟨l', hl', rfl⟩ := mem_map.mp hl
  exact hc.port l' hl'

private theorem plain_loopCalls {rootIsOut : Bool} (hplain : ∀ j c, rhs.getCell j = some c →
    Gate.Plain ⟨c.type, c.links⟩) (hout : out.out = 0) : ∀ {ids : List EntryID} {st : Replacing},
    LoopCalls PlainCall rhs root rootIsOut out ids st := by
  have hbuf : ∀ st, BufCall PlainCall rhs root out st := fun st _ =>
    ⟨fun l hl => by rw [mem_singleton.mp hl, hout], fun _ => rfl⟩
  intro ids
  induction ids with
  | nil => exact fun {st} => hbuf st
  | cons i ids ih =>
    intro st c hc
    split
    · exact hbuf st
    · refine ⟨?_, fun st' _ => ih⟩
      rw [stepCall]
      split
      · exact plain_mapLinks (hplain i c hc) st
      · exact plain_mapLinks (hplain i c hc) st

theorem Tidy.replace (h : Tidy s ins mid outs) (hfit : Fits s rhs iomapping root)
    (hok : ReplaceOk s rhs root) (hin : root ∉ ins) (hout : s.getTypeID root ≠ .OUT)
    (hsmall : ∀ j c, rhs.getCell j = some c → c.links.length ≤ InPlaceLinks)
    (hplain : ∀ j c, rhs.getCell j = some c → Gate.Plain ⟨c.type, c.links⟩)
    (hr : s.replace rhs iomapping = some s') : ∃ mid', Tidy s' ins mid' outs := by
  have hcalls : ReplaceCalls (fun b op => LeveledCall root (root ∈ ins ∧ FreshConstant s rhs) b op ∧
      PlainCall b op) s rhs iomapping := by
    refine (h.leveled.replaceCalls hfit hok hout hsmall).and (fun f c out s₀ _ _ hrhs _ => ?_)
    apply plain_loopCalls hplain
    rw [SubnetBuilder.rhsOutLink] at hrhs
    split at hrhs
    · cases hrhs
      rfl
    · obtain ⟨c, hc, hl⟩ := Option.bind_eq_some_iff.mp hrhs
      exact (hplain _ c hc).port out (mem_of_getElem? hl)
  have hstep : ∀ b b' op, (∃ mid', Tidy b ins mid' outs) →
      (LeveledCall root (root ∈ ins ∧ FreshConstant s rhs) b op ∧ PlainCall b op) →
      b.apply .empty op = some b' → ∃ mid', Tidy b' ins mid' outs := by
    rintro b b' op ⟨mid', hb⟩ ⟨hcall, hnew⟩ ha
    cases op with
    | addCell t links =>
      obtain ⟨⟨b₁, r⟩, hadd, rfl⟩ := Option.map_eq_some_iff.mp ha
      obtain ⟨hl, htin, htout, hlen⟩ := hcall
      have hb' := hb.addCell hl hlen (fun ht => absurd ht htin) hnew hadd
      rwa [if_neg htin, if_neg htout] at hb'
    | replaceCell i t links del =>
      obtain ⟨⟨b₁, r⟩, hrep, rfl⟩ := Option.map_eq_some_iff.mp ha
      obtain ⟨rfl, hfit', hout', -⟩ := hcall
      exact hb.replaceCell hfit' hin hout' hnew hrep
    | addInput => exact hcall.elim
    | addOutput l => exact hcall.elim
    | replace rhs m => exact hcall.elim
    | mergeCells m => exact hcall.elim
    | replaceWithZero ids => exact hcall.elim
    | replaceWithOne ids => exact hcall.elim
    | enableFanouts => exact hcall.elim
  refine replace_invariant ?_ hstep ⟨mid, h⟩ hcalls hr
  rintro b b' i ⟨mid', hb⟩ hd
  exact ⟨mid', hb.destrash hd⟩

end SubnetBuilder

end UtopiaEda
