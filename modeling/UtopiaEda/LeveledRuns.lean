import UtopiaEda.LeveledBuilders
import UtopiaEda.ReplacementCalls
import UtopiaEda.StrashKeys
import UtopiaEda.ValidityChecks
import Mathlib.Tactic.IntervalCases

/-!
# Runs of leveled builders

The operations that `replace` performs keep the order leveled, so it is leveled in every state of a
run. A root that stays in the hash table breaks this, and so does a constant that takes the place of
an input.
-/
namespace UtopiaEda.SubnetBuilder
open EntryOrder RankedLists Incidence List
open Option (isSome_iff_exists map_eq_some_iff some.inj)

variable {lib : CellLibrary} {s s' b : SubnetBuilder} {ins mid outs : List EntryID} {t : CellTypeID}
  {links : List Link} {i j root : EntryID} {rhs : Subnet} {iomapping : InOutMapping} {out : Link}
  {st : Replacing} {leaf : EntryID → EntryID} {last : Prop}

/-! ### The calls of `replace` -/

/-- What the calls of `replace` are like when the root is not an output; an input is only replaced
by a cell without links if it is the last one. -/
def LeveledCall (root : EntryID) (last : Prop) (b : SubnetBuilder) : Operation → Prop
  | .addCell typeID links => b.ValidLinks links ∧ typeID ≠ .IN ∧ typeID ≠ .OUT ∧
      links.length ≤ InPlaceLinks
  | .replaceCell entryID _ links _ => entryID = root ∧ CellFits b root links ∧
      b.getTypeID root ≠ .OUT ∧
    (links = [] → b.getTypeID root = .IN → last)
  | _ => False

/-- What these calls keep. -/
private def LeveledUpTo (root : EntryID) (last : Prop) (b : SubnetBuilder) : Prop :=
  ∃ ins mid outs, Leveled b ins mid outs ∧ (last → root ∈ ins → ∃ A, ins = A ++ [root])

private theorem leveledUpTo_call {op : Operation} (h : LeveledUpTo root last b)
    (hop : LeveledCall root last b op) (hb : b.apply lib op = some s') :
    LeveledUpTo root last s' := by
  obtain ⟨ins, mid, outs, h, hlast⟩ := h
  cases op with
  | addCell t links =>
    obtain ⟨⟨s₁, r⟩, hadd, rfl⟩ := map_eq_some_iff.mp hb
    obtain ⟨hl, hin, hout, hlen⟩ := hop
    obtain ⟨mid', h'⟩ := h.addCell hl hlen (fun ht => absurd ht hin) (fun ht => absurd ht hout) hadd
    rw [if_neg hin, if_neg hout] at h'
    exact ⟨ins, mid', outs, h', hlast⟩
  | replaceCell i t links del =>
    obtain ⟨⟨s₁, r⟩, hrep, rfl⟩ := map_eq_some_iff.mp hb
    obtain ⟨rfl, hfit, hout, hno⟩ := hop
    obtain ⟨mid', h'⟩ := h.replaceCell hfit hout (fun hmem hnil => by
      obtain ⟨c, hc, ht, -⟩ := h.mem_ins hmem
      exact hlast (hno hnil (by rw [getTypeID_of_live hc, ht])) hmem) hrep
    exact ⟨_, mid', outs, h', fun _ hmem => by simp at hmem⟩
  | addInput => exact hop.elim
  | addOutput l => exact hop.elim
  | replace rhs m => exact hop.elim
  | mergeCells m => exact hop.elim
  | replaceWithZero ids => exact hop.elim
  | replaceWithOne ids => exact hop.elim
  | enableFanouts => exact hop.elim

/-- The driver of the output has no links and is not in the hash table. -/
def FreshConstant (s : SubnetBuilder) (rhs : Subnet) : Prop :=
  ∃ l c, rhs.getLink (rhs.size - 1) 0 = some l ∧ rhs.nIn ≤ l.idx ∧ l.inv = false ∧
    rhs.getCell l.idx = some c ∧ c.links = [] ∧ s.strash (StrashKey.make c.type []) = none

private theorem getTypeID_root (h : Mapped s rhs root leaf i st) (hroot : (s.netlist root).isSome) :
    st.builder.getTypeID root = s.getTypeID root := by
  obtain ⟨g, hg⟩ := isSome_iff_exists.mp hroot
  obtain ⟨a, ha, hat, -⟩ := liveCell_of_netlist hg
  obtain ⟨b, hb, hbt, -⟩ := liveCell_of_netlist (h.old root g hg)
  rw [getTypeID_of_live hb, hbt, ← hat, getTypeID_of_live ha]

private theorem bufCall_leveled (h : Mapped s rhs root leaf i st) (hroot : (s.netlist root).isSome)
    (hout : s.getTypeID root ≠ .OUT) (hcell : ∃ c, rhs.getCell out.idx = some c)
    (hlt : out.idx < i) : BufCall (LeveledCall root last) rhs root out st := by
  intro _
  obtain ⟨c, hc⟩ := hcell
  obtain ⟨g, hg⟩ := isSome_iff_exists.mp hroot
  obtain ⟨hmem, hreach⟩ := h.cell out.idx hlt c hc
  exact ⟨rfl, ⟨by rw [h.old root g hg]; rfl, validLinks_of_netlist (by simpa using hmem), by simpa using hreach⟩,
    getTypeID_root h hroot ▸ hout, fun hnil => by cases hnil⟩

/-- The keys in the hash table stay there, except those of the root. -/
private def KeepsKeys (s : SubnetBuilder) (root : EntryID) (b : SubnetBuilder) : Prop :=
  ∀ k j, s.strash k = some j → j ≠ root → (b.strash k).isSome

private theorem KeepsKeys.addCell {r : Link} (h : KeepsKeys s root b)
    (hadd : b.addCell t links = some (s', r)) : KeepsKeys s root s' := by
  intro k j hk hj
  rw [strash_of_addCell hadd]
  split
  · by_cases hkey : k = StrashKey.make t links
    · rw [hkey, Function.update_self]
      rfl
    · rw [Function.update_of_ne hkey]
      exact h k j hk hj
  · exact h k j hk hj

private theorem stepCall_leveled {c : SubnetCell} (h : Mapped s rhs root leaf i st)
    (hkeys : KeepsKeys s root st.builder) (hwf : rhs.WellFormed) (hroot : (s.netlist root).isSome)
    (hout : s.getTypeID root ≠ .OUT) (hc : rhs.getCell i = some c) (hcin : c.type ≠ .IN)
    (hct : c.type ≠ .OUT) (hlen : c.links.length ≤ InPlaceLinks)
    (hlast : s.getTypeID root = .IN → out.idx = i → out.inv = false → c.links = [] →
      (∀ j, s.strash (StrashKey.make c.type []) = some j → j = root) → last) :
    LeveledCall root last st.builder (stepCall root false out i c st) := by
  obtain ⟨hvalid, hnew⟩ := h.valid hwf hc
  have hlen : (st.mapLinks c.links).length ≤ InPlaceLinks := by
    rw [Replacing.mapLinks, length_map]
    exact hlen
  obtain ⟨g, hg⟩ := isSome_iff_exists.mp hroot
  have htype := getTypeID_root h hroot
  rw [stepCall]
  split
  · rename_i hcond
    obtain ⟨⟨hidx, hinv⟩, hfound⟩ := hcond
    refine ⟨rfl, ⟨by rw [h.old root g hg]; rfl, hvalid, hnew⟩, htype ▸ hout, fun hnil ht => ?_⟩
    refine hlast (htype ▸ ht) hidx hinv (map_eq_nil_iff.mp hnil) (fun j hj => ?_)
    by_contra hne
    have hsome := hkeys _ j hj hne
    rw [hnil] at hfound
    rw [hfound.resolve_left (by simp)] at hsome
    cases hsome
  · exact ⟨hvalid, hcin, hct, hlen⟩

/-- The calls of `replace`, if the root leaves the hash table and the driver of the output comes
last. -/
theorem Leveled.replaceCalls (h : Leveled s ins mid outs) (hfit : Fits s rhs iomapping root)
    (hok : ReplaceOk s rhs root) (hout : s.getTypeID root ≠ .OUT)
    (hsmall : ∀ j c, rhs.getCell j = some c → c.links.length ≤ InPlaceLinks) :
    ReplaceCalls (LeveledCall root (root ∈ ins ∧ FreshConstant s rhs)) s rhs iomapping := by
  obtain ⟨g, hg⟩ := isSome_iff_exists.mp hfit.live
  obtain ⟨c, hc, -⟩ := liveCell_of_netlist hg
  have hcout : c.isOut = false := by
    rw [getTypeID_of_live hc] at hout
    exact decide_eq_false hout
  obtain ⟨f, hfill, hfroot, hf⟩ := hfit.fillMapping
  intro f' c' out s₀ hf' hc' hout' hs₀
  obtain rfl : f = f' := some.inj (hfill.symm.trans hf')
  rw [hfroot] at hc' hs₀ ⊢
  obtain rfl : c = c' := some.inj ((getCell_of_live hc).symm.trans hc')
  rw [hcout] at hout' ⊢
  obtain ⟨table, htable, hnet, hfree⟩ := hfit.destrashRoot h.net hok.unhashed hc hf
  obtain rfl := some.inj (htable.symm.trans hs₀)
  obtain ⟨l, a, hl, hlt, ha⟩ := hfit.outLink
  obtain rfl : l = out := some.inj (hl.symm.trans hout')
  have hsize := hfit.nIn_lt
  rw [show rhs.size - rhs.nIn = rhs.size - rhs.nIn - 1 + 1 by omega]
  refine Mapped.loopCalls (I := KeepsKeys s root) hfit.wellFormed hfit.live hfit.outputs
    (hfit.driver (fun _ => hok.last c hc hcout) hout')
    (fun hm hlt => bufCall_leveled hm hfit.live hout ⟨a, ha⟩ hlt)
    (fun hm hkeys hle hb hin hnot => ?_) KeepsKeys.addCell
    (by omega) (Nat.le_refl _) (hfit.mapped h.netOk.acyclic hnet hfree hf) (fun k j hk hj => ?_)
    (fun _ => rfl)
  · refine stepCall_leveled hm hkeys hfit.wellFormed hfit.live hout hb hin
      (fun ht => by cases hnot ht) (hsmall _ _ hb) (fun ht hidx hinv hnil hkey => ?_)
    rw [← hidx] at hle hb
    refine ⟨(h.input root c hc).mp (by rw [← getTypeID_of_live hc, ht]), l, _, hl, hle, hinv,
      hb, hnil, ?_⟩
    -- an input is not hashed
    cases hk : s.strash (StrashKey.make _ []) with
    | none => rfl
    | some j =>
      obtain ⟨d, hd, hen, -⟩ := h.net.strash _ _ hk
      obtain rfl := hkey j hk
      rw [getTypeID_of_live hd] at ht
      rw [SubnetCell.isEnabled, SubnetCell.isIn, ht] at hen
      cases hen
  · change (table k).isSome
    rw [SubnetBuilder.destrashRoot] at htable
    split at htable
    · obtain ⟨table', ht', -, hiff⟩ := h.net.destrash hc
      obtain rfl : table = table' :=
        congrArg SubnetBuilder.strash (some.inj (htable.symm.trans ht'))
      rw [(hiff k j).mpr ⟨hk, hj⟩]
      rfl
    · obtain rfl : s.strash = table := congrArg SubnetBuilder.strash (some.inj htable)
      rw [hk]
      rfl

theorem Leveled.replace (h : Leveled s ins mid outs) (hfit : Fits s rhs iomapping root)
    (hok : ReplaceOk s rhs root) (hout : s.getTypeID root ≠ .OUT)
    (hsmall : ∀ j c, rhs.getCell j = some c → c.links.length ≤ InPlaceLinks)
    (hlast : root ∈ ins → FreshConstant s rhs → ∃ A, ins = A ++ [root])
    (hr : s.replace rhs iomapping = some s') : ∃ ins' mid' outs', Leveled s' ins' mid' outs' := by
  have hstep : ∀ b b' op, LeveledUpTo root (root ∈ ins ∧ FreshConstant s rhs) b →
      LeveledCall root (root ∈ ins ∧ FreshConstant s rhs) b op → b.apply .empty op = some b' →
      LeveledUpTo root (root ∈ ins ∧ FreshConstant s rhs) b' :=
      fun _ _ _ hb hop ha => leveledUpTo_call hb hop ha
  obtain ⟨ins', mid', outs', h', -⟩ := replace_invariant (fun _ _ _ hb hd => by
    obtain ⟨ins, mid, outs, hb, hl⟩ := hb
    exact ⟨ins, mid, outs, hb.destrash hd, hl⟩) hstep ⟨ins, mid, outs, h,
      fun hl _ => hlast hl.1 hl.2⟩ (h.replaceCalls hfit hok hout hsmall) hr
  exact ⟨ins', mid', outs', h'⟩

/-! ### Runs -/

/-- What the iteration from `begin()` to `end()` has to be like: it visits the inputs `ins`, the
cells `mid` and the outputs `outs`. -/
structure IteratedAs (s : SubnetBuilder) (ins mid outs : List EntryID) : Prop where
  begins : s.order.getSubnetBegin = after (ins ++ mid ++ outs)
  next : ∀ u v i, ins ++ mid ++ outs = u ++ i :: v → s.order.getNext (.entry i) = some (after v)
  nodup : (ins ++ mid ++ outs).Nodup
  mem : ∀ i, i ∈ ins ++ mid ++ outs ↔ (s.liveCell i).isSome
  input : ∀ i c, s.liveCell i = some c → (c.type = .IN ↔ i ∈ ins)
  output : ∀ i c, s.liveCell i = some c → (c.type = .OUT ↔ i ∈ outs)
  fanins : ∀ u v i j, ins ++ mid ++ outs = u ++ i :: v → s.netlist.Fanin i j → j ∈ u
  depth : ∀ i c, s.liveCell i = some c → c.type ≠ .IN →
    s.order.depth i = some (s.order.linksDepth c.links)
  sorted : Sorted s.order.depthOf (ins ++ mid)
  bounds : ∀ d, s.order.depthBounds d = ends (layer s.order.depthOf (ins ++ mid) d)
  refcount : ∀ i c, s.liveCell i = some c → c.refcount = ∑ j ∈ Finset.range s.size,
    (s.targets j).count i

theorem Leveled.iteratedAs (h : Leveled s ins mid outs) (hne : ∃ i, (s.liveCell i).isSome) :
    IteratedAs s ins mid outs := by
  have hlists := h.order.layered.lists
  have hvisits := hlists.visits
  refine ⟨hvisits.begins ?_, fun u v i hl => hvisits.next hl, hlists.nodup, h.order.mem, h.input,
    fun i c hc => ?_, fun u v i j hl hij => ?_, fun i c hc _ => h.depth i c hc,
    h.order.layered.sorted, h.order.layered.bounds, fun i c hc => ?_⟩
  · obtain ⟨i, hi⟩ := hne
    exact ne_nil_of_mem ((h.order.mem i).mpr hi)
  · have hout := h.order.out i ((h.order.mem i).mpr (by rw [hc]; rfl))
    rw [getTypeID_of_live hc] at hout
    exact hout
  · obtain ⟨b, hb, hbt⟩ := h.net.target i j (mem_targets.mpr hij)
    exact h.order.layered.sorted.mem_of_lt hlists.nodup hl (h.order.mem_left hb hbt)
      (h.depth_lt hij)
  · rw [h.net.refcount i c hc, card_users]

def Ordinary (s : SubnetBuilder) : Operation → Prop
  | .addInput => ∀ i c, s.liveCell i = some c → c.type = .IN
  | .addCell typeID links => typeID ≠ .IN ∧ typeID ≠ .OUT ∧ links.length ≤ InPlaceLinks
  | .addOutput _ => True
  | .replace rhs iomapping => (∀ j c, rhs.getCell j = some c → c.links.length ≤ InPlaceLinks) ∧
    ∀ root, iomapping.outputs.map Link.idx = [root] → s.getTypeID root ≠ .OUT
  | .replaceCell entryID _ _ _ => s.getTypeID entryID ≠ .OUT
  | _ => False

def LastInput (s : SubnetBuilder) (i : EntryID) : Prop :=
  ∀ j, s.order.getNext (.entry i) = some (.entry j) → s.getTypeID j ≠ .IN

/-- When an operation keeps the order: `replace` takes the root out of the hash table, and a
constant only takes the place of the last input. -/
def KeepsOrder (s : SubnetBuilder) : Operation → Prop
  | .replace rhs iomapping => ∀ root, iomapping.outputs.map Link.idx = [root] →
    ReplaceOk s rhs root ∧ (s.getTypeID root = .IN → FreshConstant s rhs → LastInput s root)
  | .replaceCell entryID _ links _ => s.getTypeID entryID = .IN → links = [] → LastInput s entryID
  | _ => True

theorem Leveled.of_lastInput (h : Leveled s ins mid outs) (hi : i ∈ ins)
    (hlast : s.getTypeID i = .IN → LastInput s i) : ∃ A, ins = A ++ [i] := by
  obtain ⟨c, hc, ht, -⟩ := h.mem_ins hi
  obtain ⟨A, B, rfl⟩ := append_of_mem hi
  cases B with
  | nil => exact ⟨A, rfl⟩
  | cons b B =>
    obtain ⟨d, hd, hdt, -⟩ := h.mem_ins (i := b) (by simp)
    have hnext := h.order.layered.lists.visits.next (u := A) (a := i) (v := b :: B ++ mid ++ outs)
      (by simp)
    refine absurd ?_ (hlast (by rw [getTypeID_of_live hc, ht]) b hnext)
    rw [getTypeID_of_live hd, hdt]

theorem Leveled.onlyInputs (h : Leveled s ins mid outs)
    (hin : ∀ i c, s.liveCell i = some c → c.type = .IN) : mid = [] ∧ outs = [] := by
  have hmem : ∀ i ∈ ins ++ mid ++ outs, i ∈ ins := by
    intro i hi
    obtain ⟨c, hc⟩ := isSome_iff_exists.mp ((h.order.mem i).mp hi)
    exact (h.input i c hc).mp (hin i c hc)
  have hnd := h.order.layered.lists.nodup
  rw [append_assoc, nodup_append] at hnd
  rw [← append_eq_nil_iff, eq_nil_iff_forall_not_mem]
  exact fun i hi => hnd.2.2 i (hmem i (by rw [append_assoc]; exact mem_append_right _ hi)) i hi rfl

private theorem leveled_apply {op : Operation} (h : ∃ ins mid outs, Leveled s ins mid outs)
    (hop : (Valid lib s op ∧ Ordinary s op) ∧ KeepsOrder s op) (hs : s.apply lib op = some s') :
    ∃ ins mid outs, Leveled s' ins mid outs := by
  obtain ⟨ins, mid, outs, h⟩ := h
  obtain ⟨⟨hv, ho⟩, hk⟩ := hop
  cases op with
  | addInput =>
    obtain ⟨⟨s₁, r⟩, hadd, rfl⟩ := map_eq_some_iff.mp hs
    obtain ⟨mid', h'⟩ := h.addCell (by simp [ValidLinks]) (Nat.zero_le _) (fun _ => h.onlyInputs ho)
      (fun ht => by cases ht) hadd
    exact ⟨_, mid', _, h'⟩
  | addCell t links =>
    obtain ⟨⟨s₁, r⟩, hadd, rfl⟩ := map_eq_some_iff.mp hs
    obtain ⟨mid', h'⟩ := h.addCell hv ho.2.2 (fun ht => absurd ht ho.1)
      (fun ht => absurd ht ho.2.1) hadd
    exact ⟨_, mid', _, h'⟩
  | addOutput l =>
    obtain ⟨⟨s₁, r⟩, hadd, rfl⟩ := map_eq_some_iff.mp hs
    obtain ⟨mid', h'⟩ := h.addCell hv (by simp [InPlaceLinks]) (fun ht => by cases ht)
      (by simp) hadd
    exact ⟨_, mid', _, h'⟩
  | replace rhs m =>
    obtain ⟨root, hfit⟩ := hv
    obtain ⟨hok, hlast⟩ := hk root hfit.target
    exact h.replace hfit hok (ho.2 root hfit.target) ho.1
      (fun hmem hfresh => h.of_lastInput hmem (fun ht => hlast ht hfresh)) hs
  | replaceCell i t links del =>
    obtain ⟨⟨s₁, r⟩, hrep, rfl⟩ := map_eq_some_iff.mp hs
    obtain ⟨mid', h'⟩ := h.replaceCell hv ho
      (fun hmem hnil => h.of_lastInput hmem (fun ht => hk ht hnil)) hrep
    exact ⟨_, mid', outs, h'⟩
  | mergeCells m => exact ho.elim
  | replaceWithZero ids => exact ho.elim
  | replaceWithOne ids => exact ho.elim
  | enableFanouts => exact ho.elim

theorem leveled_of_run (hs : Run lib (fun s op => (Valid lib s op ∧ Ordinary s op) ∧
    KeepsOrder s op) s) : ∃ ins mid outs, Leveled s ins mid outs :=
  hs.invariant ⟨[], [], [], .init⟩ (fun _ _ _ h hop ha => leveled_apply h hop ha)

/-- In a run that keeps to the conditions, the iteration visits the cells in use by their depth. -/
theorem iteratedAs_of_run (hs : Run lib (fun s op => (Valid lib s op ∧ Ordinary s op) ∧
    KeepsOrder s op) s) (hne : ∃ i, (s.liveCell i).isSome) :
    ∃ ins mid outs, IteratedAs s ins mid outs := by
  obtain ⟨ins, mid, outs, h⟩ := leveled_of_run hs
  exact ⟨ins, mid, outs, h.iteratedAs hne⟩

/-! ### Checking the conditions -/

/-- A sufficient condition for `Ordinary` and `KeepsOrder`: the root is not an input. -/
def checkOrder (s : SubnetBuilder) : Operation → Bool
  | .addInput => (range s.size).all fun i => (s.liveCell i).all fun c => decide (c.type = .IN)
  | .addCell typeID links => decide (typeID ≠ .IN ∧ typeID ≠ .OUT ∧ links.length ≤ InPlaceLinks)
  | .addOutput _ => true
  | .replace rhs iomapping => decide (0 < rhs.nIn) &&
    (range rhs.size).all (fun j => (rhs.getCell j).all fun c => decide (c.links.length ≤
      InPlaceLinks)) &&
    (rhs.getLink (rhs.size - 1) 0).all (fun l => l.inv || decide (l.idx < rhs.nIn ∨
      l.idx + 2 = rhs.size)) &&
    iomapping.outputs.all fun l => decide (s.getTypeID l.idx ≠ .OUT ∧ s.getTypeID l.idx ≠ .IN)
  | _ => false

theorem keepsOrder_of_check {op : Operation} (hv : s.check lib op = true)
    (h : s.checkOrder op = true) : (Valid lib s op ∧ Ordinary s op) ∧ KeepsOrder s op := by
  refine ⟨⟨valid_of_check hv, ?_⟩, ?_⟩
  · cases op with
    | addInput =>
      intro i c hc
      simp only [checkOrder, all_eq_true, mem_range, Option.all_eq_true, decide_eq_true_eq] at h
      exact h i (lt_of_live hc) c hc
    | addCell t links =>
      rw [checkOrder, decide_eq_true_eq] at h
      exact h
    | addOutput l => trivial
    | replace rhs m =>
      simp only [checkOrder, Bool.and_eq_true, all_eq_true, mem_range, Option.all_eq_true,
        decide_eq_true_eq] at h
      refine ⟨fun j c hc => h.1.1.2 j (Subnet.lt_of_getCell hc) c hc, fun root hroot => ?_⟩
      obtain ⟨l, hl, rfl⟩ := mem_map.mp (hroot ▸ mem_singleton_self root)
      exact (h.2 l hl).1
    | _ => cases h
  · cases op with
    | replace rhs m =>
      intro root hroot
      simp only [checkOrder, Bool.and_eq_true, all_eq_true, Option.all_eq_true, Bool.or_eq_true,
        decide_eq_true_eq] at h
      obtain ⟨l, hl, rfl⟩ := mem_map.mp (hroot ▸ mem_singleton_self root)
      exact ⟨⟨.inl h.1.1.1, fun _ _ _ l hl => h.1.2 l hl⟩, fun ht => absurd ht (h.2 l hl).2⟩
    | replaceCell => cases h
    | _ => trivial

def runChecked (lib : CellLibrary) (check : SubnetBuilder → Operation → Bool) :
    List Operation → SubnetBuilder → Option SubnetBuilder
  | [], s => some s
  | op :: ops, s => if check s op then (s.apply lib op).bind (runChecked lib check ops) else none

theorem run_of_runChecked {check : SubnetBuilder → Operation → Bool}
    {P : SubnetBuilder → Operation → Prop} (hcheck : ∀ s op, check s op = true → P s op) :
    ∀ {ops : List Operation} {s : SubnetBuilder}, Run lib P s → runChecked lib check ops s =
    some s' → Run lib P s' := by
  intro ops
  induction ops with
  | nil =>
    intro s hs h
    cases h
    exact hs
  | cons op ops ih =>
    intro s hs h
    rw [runChecked] at h
    split at h
    · rename_i hop
      obtain ⟨s₁, hs₁, h⟩ := Option.bind_eq_some_iff.mp h
      exact ih (.step hs (hcheck s op hop) hs₁) h
    · cases h

/-- The cell 2 becomes a buffer of the new cell 5, and the cell 3 moves behind it. -/
theorem iteratedAs_negatedOr :
    ∃ s, (∃ ins mid outs, IteratedAs s ins mid outs) ∧ s.order.depth 3 = some 3 ∧
    s.order.getNext (.entry 5) = some (.entry 2) := by
  let negatedOr : Subnet := ⟨2, 1, 4, 0, [.cell ⟨.IN, [], 1⟩, .cell ⟨.IN, [], 1⟩,
    .cell ⟨.OR, [⟨0, 0, true⟩, ⟨1, 0, true⟩], 1⟩, .cell ⟨.OUT, [⟨2, 0, true⟩], 0⟩]⟩
  let ops : List Operation := [.addInput, .addInput, .addCell .AND [⟨0, 0, false⟩, ⟨1, 0, false⟩],
    .addCell .OR [⟨2, 0, false⟩, ⟨0, 0, false⟩], .addOutput ⟨3, 0, false⟩,
    .replace negatedOr ⟨[⟨0, 0, false⟩, ⟨1, 0, false⟩], [⟨2, 0, false⟩]⟩]
  let check : SubnetBuilder → Operation → Bool := fun s op => s.check .empty op && s.checkOrder op
  have hrun : (runChecked .empty check ops {}).map
      (fun s => ((s.liveCell 0).isSome, s.order.depth 3, s.order.getNext (.entry 5))) =
      some (true, some 3, some (.entry 2)) := by decide +kernel
  have hcheck : ∀ s op, check s op = true → (Valid .empty s op ∧ Ordinary s op) ∧
      KeepsOrder s op := by
    intro s op h
    rw [Bool.and_eq_true] at h
    exact keepsOrder_of_check h.1 h.2
  obtain ⟨s, hs, heq⟩ := map_eq_some_iff.mp hrun
  simp only [Prod.mk.injEq] at heq
  exact ⟨s, iteratedAs_of_run (run_of_runChecked hcheck .init hs) ⟨0, heq.1⟩, heq.2⟩

end UtopiaEda.SubnetBuilder
