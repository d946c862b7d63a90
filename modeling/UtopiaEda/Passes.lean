import UtopiaEda.PlainRuns
import UtopiaEda.ReplacementValues
import UtopiaEda.DesignBuilder

/-!
# Passes

A pass works on the builder of a subnet: it adds cells and replaces cells by equal ones, and then
makes a subnet again. The subnet has the function of the one the pass began with.
-/
namespace UtopiaEda.SubnetBuilder
open EntryOrder List
open Option (isSome_iff_exists map_eq_some_iff some.inj)

variable {lib : CellLibrary} {s s' s₀ : SubnetBuilder} {ins mid outs : List EntryID}
  {i root : EntryID} {S : Subnet}

/-- The arguments of a replacement of a cell by a single gate of the same value. -/
structure EqualCell (lib : CellLibrary) (s : SubnetBuilder) (i : EntryID) (t : CellTypeID)
    (links : List Link) : Prop where
  fits : CellFits s i links
  inner : s.getTypeID i ≠ .IN ∧ s.getTypeID i ≠ .OUT
  type : t ≠ .IN
  plain : Gate.Plain ⟨t, links⟩
  equals : ∀ x ρ, s.netlist.Solves lib x ρ → ∀ out, t.eval lib (links.map (Link.value ρ)) out =
    ρ i out

def Preserving (lib : CellLibrary) (s : SubnetBuilder) : Operation → Prop
  | .addCell typeID links => s.ValidLinks links ∧ typeID ≠ .IN ∧ typeID ≠ .OUT ∧
      links.length ≤ InPlaceLinks ∧
    Gate.Plain ⟨typeID, links⟩
  | .replace rhs iomapping => ∃ root, EqualReplacement lib s rhs iomapping root ∧
      ReplaceOk s rhs root ∧
    s.getTypeID root ≠ .IN ∧
    ∀ j c, rhs.getCell j = some c → c.links.length ≤ InPlaceLinks ∧ Gate.Plain ⟨c.type, c.links⟩
  | .replaceCell entryID typeID links _ => EqualCell lib s entryID typeID links
  | _ => False

def Pass (lib : CellLibrary) : SubnetBuilder → SubnetBuilder → Prop :=
  Relation.ReflTransGen (fun s s' => ∃ op, Preserving lib s op ∧ s.apply lib op = some s')

def SameOutputs (lib : CellLibrary) (outs : List EntryID) (s s' : SubnetBuilder) : Prop :=
  ∀ x, ∀ o ∈ outs, s'.value lib x o 0 = s.value lib x o 0

private theorem Tidy.live_out (h : Tidy s ins mid outs) (hi : i ∈ outs) :
    ∃ g, s.netlist i = some g ∧ g.type = .OUT := by
  have hmem : i ∈ ins ++ mid ++ outs := mem_append_right _ hi
  obtain ⟨c, hc⟩ := h.ordered.exists_live hmem
  exact ⟨_, netlist_of_live hc, (h.ordered.output i c hc).mpr hi⟩

theorem Tidy.step {op : Operation} (h : Tidy s ins mid outs) (hop : Preserving lib s op)
    (hs : s.apply lib op = some s') : ∃ mid', Tidy s' ins mid' outs ∧
    SameOutputs lib outs s s' := by
  have hok := h.leveled.netOk
  cases op with
  | addCell t links =>
    obtain ⟨⟨s₁, r⟩, hadd, rfl⟩ := map_eq_some_iff.mp hs
    obtain ⟨hl, hin, hout, hlen, hplain⟩ := hop
    obtain ⟨mid', h'⟩ := h.addCell hl hlen (fun ht => absurd ht hin) hplain hadd
    rw [if_neg hin, if_neg hout] at h'
    refine ⟨mid', h', fun x o ho => ?_⟩
    obtain ⟨-, -, -, hvalue⟩ := hok.addCell_value hl hin hadd x
    obtain ⟨g, hg, -⟩ := h.live_out ho
    exact hvalue o 0 (by rw [hg]; rfl)
  | replace rhs m =>
    obtain ⟨root, hrep, hrok, hin, hcells⟩ := hop
    obtain ⟨g, hg⟩ := isSome_iff_exists.mp hrep.fits.live
    obtain ⟨c, hc, hct, -⟩ := liveCell_of_netlist hg
    have hout : s.getTypeID root ≠ .OUT := by
      rw [getTypeID_of_live hc, hct]
      exact hrep.inner g hg
    obtain ⟨mid', h'⟩ := h.replace hrep.fits hrok (h.notMem_ins hin) hout
      (fun j c hc => (hcells j c hc).1) (fun j c hc => (hcells j c hc).2) hs
    refine ⟨mid', h', fun x o ho => ?_⟩
    obtain ⟨g', hg', ht⟩ := h.live_out ho
    exact (hok.keepsOutputs hrep hrok hs o g' hg' ht).2 x
  | replaceCell i t links del =>
    obtain ⟨⟨s₁, r⟩, hrep, rfl⟩ := map_eq_some_iff.mp hs
    obtain ⟨mid', h'⟩ := h.replaceCell hop.fits (h.notMem_ins hop.inner.1) hop.inner.2
      hop.plain hrep
    refine ⟨mid', h', fun x o ho => ?_⟩
    obtain ⟨g, hg⟩ := isSome_iff_exists.mp hop.fits.live
    obtain ⟨c, hc, -⟩ := liveCell_of_netlist hg
    obtain ⟨-, -, D, hrepl⟩ :=
      h.leveled.net.of_replaceCell hok.acyclic hc hop.fits.valid hop.fits.acyclic hrep
    obtain ⟨ρ, hρ⟩ := hok.exists_solves lib x
    have hρ' : s₁.netlist.Solves lib x ρ := hrepl.solves hρ hop.type (hop.equals x ρ hρ)
    obtain ⟨g₀, hg₀, -⟩ := h.live_out ho
    obtain ⟨g₁, hg₁, -⟩ := h'.live_out ho
    rw [h'.leveled.netOk.value_eq hρ' (by rw [hg₁]; rfl), hok.value_eq hρ (by rw [hg₀]; rfl)]
  | addInput => exact hop.elim
  | addOutput l => exact hop.elim
  | mergeCells m => exact hop.elim
  | replaceWithZero ids => exact hop.elim
  | replaceWithOne ids => exact hop.elim
  | enableFanouts => exact hop.elim

theorem Tidy.pass (h : Tidy s₀ ins mid outs) (hpass : Pass lib s₀ s) :
    ∃ mid', Tidy s ins mid' outs ∧ SameOutputs lib outs s₀ s := by
  induction hpass with
  | refl => exact ⟨mid, h, fun _ _ _ => rfl⟩
  | tail _ hstep ih =>
    obtain ⟨mid', h', hsame⟩ := ih
    obtain ⟨op, hop, hs⟩ := hstep
    obtain ⟨mid'', h'', hsame'⟩ := h'.step hop hs
    exact ⟨mid'', h'', fun x o ho => (hsame' x o ho).trans (hsame x o ho)⟩

/-- A builder of narrow cells that only grew is leveled. -/
theorem Grown.leveled (h : Grown s ins mid outs) (hsmall : ∀ i g, s.netlist i = some g →
    g.links.length ≤ InPlaceLinks) : Leveled s ins mid outs := by
  have hblock : ∀ i ∈ mid, s.block i = [i] := by
    intro i hi
    obtain ⟨g, hg⟩ := isSome_iff_exists.mp ((h.mem i).mp (by simp [hi]))
    rw [block_of_netlist hg, Gate.width_of_le (hsmall i g hg), range'_one]
  have hmid : mid.flatMap s.block = mid := by
    rw [flatMap_congr hblock, flatMap_singleton']
  obtain ⟨dep, hlay, hzero, hdep⟩ := h.layered
  rw [hmid] at hlay
  have hdepth : ∀ i c, s.liveCell i = some c →
      s.order.depth i = some (s.order.linksDepth c.links) := fun i c hc =>
    h.depth i _ (netlist_of_live hc)
  refine ⟨h.net, ⟨hlay.congr (fun i hi => ?_), fun i => ?_, fun i hi => ?_, fun i hi => ?_⟩,
    fun i c hc => h.input i _ (netlist_of_live hc), fun i c hc =>
    h.noLinks i _ (netlist_of_live hc), fun i c hc => hsmall i _ (netlist_of_live hc), hdepth⟩
  · rcases mem_append.mp hi with hi | hi
    · obtain ⟨g, hg⟩ := isSome_iff_exists.mp ((h.mem i).mp (by simp [hi]))
      have hlinks := h.noLinks i g hg ((h.input i g hg).mpr hi)
      rw [hzero i hi, depthOf, h.depth i g hg, hlinks]
      rfl
    · exact hdep i hi i mem_block_self
  · rw [h.mem, netlist_isSome]
  · obtain ⟨g, hg⟩ := isSome_iff_exists.mp ((h.mem i).mp hi)
    obtain ⟨c, hc, hct, -⟩ := liveCell_of_netlist hg
    rw [getTypeID_of_live hc, hct]
    exact h.output i g hg
  · obtain ⟨g, hg⟩ := isSome_iff_exists.mp ((h.mem i).mp hi)
    rw [h.depth i g hg]
    rfl

structure Small (S : Subnet) : Prop where
  arranged : S.Arranged
  cells : ∀ i c, S.getCell i = some c → c.links.length ≤ InPlaceLinks ∧ Gate.Plain ⟨c.type, c.links⟩

theorem Small.tidy (h : Small S) (lib : CellLibrary) (types : List SubnetType) :
    ∃ s mid, ofSubnet types S = some s ∧ Tidy s (range S.nIn) mid
    ((range S.nOut).map S.getOutIdx) ∧ s.netFunction lib = S.netFunction lib := by
  have hbuf : ∀ i c, S.getCell i = some c → c.type = .BUF → ∃ l, c.links = [l] ∧ l.out = 0 := by
    intro i c hc ht
    have hplain := (h.cells i c hc).2
    obtain ⟨l, hl⟩ := length_eq_one_iff.mp (hplain.single (.inr ht))
    exact ⟨l, hl, hplain.port l (by rw [hl]; exact mem_singleton_self l)⟩
  obtain ⟨s, mid, hs, hgrown, hnet, -, hin, hout⟩ := ofSubnet_eq types h.arranged
  obtain ⟨s', hs', -, hfunction⟩ := h.arranged.convertible types
    (fun i c hc => Nat.le_add_right_of_le (h.cells i c hc).1) hbuf
  obtain rfl := some.inj (hs.symm.trans hs')
  have hcells : ∀ i g, s.netlist i = some g → g.links.length ≤ InPlaceLinks ∧ g.Plain := by
    intro i g hg
    rw [hnet, Subnet.netlist] at hg
    obtain ⟨c, hc, rfl⟩ := map_eq_some_iff.mp hg
    exact h.cells i c hc
  have hlive : ∀ j < s.size, (s.liveCell j).isSome := by
    intro j hj
    obtain ⟨i, hi, hmem⟩ := hgrown.cover j hj
    obtain ⟨g, hg⟩ := isSome_iff_exists.mp hi
    rw [block_of_netlist hg, Gate.width_of_le (hcells i g hg).1, range'_one, mem_singleton] at hmem
    rw [hmem, ← netlist_isSome]
    exact hi
  refine ⟨s, mid, hs, ⟨hgrown.leveled (fun i g hg => (hcells i g hg).1), by simp [hin], by simp [hout],
    fun i g hg => (hcells i g hg).2, hgrown.assembled, fun _ =>
    ⟨fun hpos => hlive _ (Nat.sub_one_lt_of_lt hpos),
      fun hne => ?_⟩⟩, hfunction lib⟩
  obtain ⟨i, hi⟩ := exists_mem_of_ne_nil _ hne
  obtain ⟨g, hg⟩ := isSome_iff_exists.mp ((hgrown.mem i).mp (by simp [hi]))
  exact hlive 0 (Nat.zero_lt_of_lt (lt_of_netlist hg))

/-- A pass over a subnet ends with a subnet of the same function. -/
theorem make_of_pass {types : List SubnetType} (hS : Small S) (hout : 0 < S.nOut)
    (hs₀ : ofSubnet types S = some s₀) (hpass : Pass lib s₀ s) (hsize : s.size ≤ maxEntries)
    (deleteBufs : Bool) : ∃ S', s.make deleteBufs = some S' ∧
      S'.size ≤ maxEntries ∧ S'.netFunction lib = S.netFunction lib ∧
      (deleteBufs = true → ∀ k c, S'.getCell k = some c → c.type ≠ .BUF) := by
  obtain ⟨s₁, mid, hs₁, h, hfunction⟩ := hS.tidy lib types
  obtain rfl := some.inj (hs₀.symm.trans hs₁)
  have hne : (range S.nOut).map S.getOutIdx ≠ [] := by
    intro hnil
    rw [map_eq_nil_iff, range_eq_nil] at hnil
    omega
  obtain ⟨mid', h', hsame⟩ := h.pass hpass
  obtain ⟨S', hS', hle, hmade, hbufs⟩ := h'.make hne lib deleteBufs
  refine ⟨S', hS', hle.trans hsize, ?_, hbufs⟩
  rw [hmade, ← hfunction, h.netFunction_eq hne, h'.netFunction_eq hne]
  refine Prod.ext rfl (funext fun x => ?_)
  exact map_congr_left (fun o ho => hsame _ o ho)

/-- The conjunction of an input with itself. -/
private def doubled : Subnet :=
  ⟨1, 1, 3, 0, [.cell ⟨.IN, [], 2⟩, .cell ⟨.AND, [⟨0, 0, false⟩, ⟨0, 0, false⟩], 1⟩,
  .cell ⟨.OUT, [⟨1, 0, false⟩], 0⟩]⟩

private theorem small_doubled : Small doubled := by
  have hcell : ∀ i c, doubled.getCell i = some c → i < 3 ∧ c.more = 0 ∧ c.links.length ≤
      InPlaceLinks ∧ Gate.Plain ⟨c.type, c.links⟩ := by
    intro i c hc
    have hlt : i < 3 := Subnet.lt_of_getCell hc
    interval_cases i <;> cases hc <;> exact ⟨by decide, rfl, by decide, by decide, by decide⟩
  refine ⟨⟨Subnet.wellFormed_of_check (by decide), fun _ => rfl, fun i c hc => ?_,
    fun i c hc k hk hle => ?_, fun i c hc hlt => ?_⟩, fun i c hc => (hcell i c hc).2.2⟩
  · rw [(hcell i c hc).2.1]
    exact (hcell i c hc).1
  · rw [(hcell i c hc).2.1] at hle
    exact absurd hk (Nat.not_lt.mpr hle)
  · have hlt : i + c.more + 1 < 3 := hlt
    rw [(hcell i c hc).2.1] at hlt ⊢
    have hi : i < 2 := Nat.lt_of_succ_lt_succ hlt
    interval_cases i <;> rfl

/-- The conjunction becomes a buffer, which is then deleted. -/
theorem make_doubled : ∃ (s : SubnetBuilder) (S : Subnet), s.netlist 1 =
    some ⟨.BUF, [⟨0, 0, false⟩]⟩ ∧ s.make true = some S ∧ S.netFunction .empty =
    doubled.netFunction .empty ∧ ∀ k c, S.getCell k = some c → c.type ≠ .BUF := by
  let op : Operation := .replaceCell 1 .BUF [⟨0, 0, false⟩] true
  have hrun : ((ofSubnet [] doubled).bind fun s => (s.apply .empty op).map fun s' =>
      (s.check .empty op, s.netlist 1, s.getTypeID 1, s'.netlist 1,
        decide (s'.size ≤ maxEntries))) =
      some (true, some ⟨.AND, [⟨0, 0, false⟩, ⟨0, 0, false⟩]⟩, .AND, some ⟨.BUF, [⟨0, 0, false⟩]⟩,
        true) := by
    decide +kernel
  obtain ⟨s, hs, hrun⟩ := Option.bind_eq_some_iff.mp hrun
  obtain ⟨s', hs', heq⟩ := map_eq_some_iff.mp hrun
  simp only [Prod.mk.injEq] at heq
  obtain ⟨hcheck, hcell, htype, hafter, hsize⟩ := heq
  have hequal : EqualCell .empty s 1 .BUF [⟨0, 0, false⟩] := by
    refine ⟨valid_of_check hcheck, by rw [htype]; decide, by decide, ⟨by decide, by decide⟩, fun x ρ hρ out => ?_⟩
    rw [hρ 1 _ hcell]
    change xor (ρ 0 0) false = (xor (ρ 0 0) false && (xor (ρ 0 0) false && true))
    cases ρ 0 0 <;> rfl
  obtain ⟨S, hS, -, hfunction, hbufs⟩ :=
    make_of_pass small_doubled (by decide) hs (.single ⟨op, hequal, hs'⟩)
      (of_decide_eq_true hsize) true
  exact ⟨s', S, hafter, hS, hfunction, hbufs rfl⟩

end UtopiaEda.SubnetBuilder
