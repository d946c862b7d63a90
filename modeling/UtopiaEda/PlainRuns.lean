import UtopiaEda.BuilderLimits
import UtopiaEda.TidyBuilders
import UtopiaEda.EntryCopying

/-!
# Subnets made of tidy builders

`make` succeeds on a tidy builder with outputs and gives a subnet of the same function, with or
without the deletion of buffers. A run from the empty builder that keeps the order and adds plain
cells is tidy.
-/
namespace UtopiaEda.SubnetBuilder
open EntryOrder List

variable {lib : CellLibrary} {s s' : SubnetBuilder} {ins mid outs : List EntryID}

theorem Tidy.netFunction_eq (h : Tidy s ins mid outs) (hout : outs ≠ []) (lib : CellLibrary) :
    s.netFunction lib = (ins.length,
    fun x => outs.map (fun o => s.value lib (fun j => x (ins.idxOf j)) o 0)) := by
  have hne : ins ++ mid ++ outs ≠ [] := append_ne_nil_of_right_ne_nil _ hout
  rw [netFunction, h.ordered.inputIDs_eq hne, h.ordered.outputIDs_eq hne]
  rfl

private theorem Tidy.inPlace (h : Tidy s ins mid outs) (hd : s.order.isDisassembled = false)
    (hout : outs ≠ []) : InPlace s ins outs := by
  have hpos : 0 < s.size := by
    have hlen := length_pos_of_ne_nil (append_ne_nil_of_right_ne_nil (ins ++ mid) hout)
    exact Nat.lt_of_lt_of_le hlen h.ordered.length_le
  obtain ⟨b, hb, hrange, hzero⟩ := h.exists_range hd hpos
  have hlen := congrArg List.length hrange
  rw [length_range', length_append] at hlen
  refine ⟨fun k i hk => ?_, fun k i hk => ?_⟩
  · obtain ⟨hlt, rfl⟩ := List.getElem?_eq_some_iff.mp hk
    obtain rfl := hzero (ne_nil_of_length_pos (Nat.zero_lt_of_lt hlt))
    have hget : (ins ++ mid ++ outs)[k]? = some ins[k] := by
      rw [append_assoc, getElem?_append_left hlt]
      exact hk
    rw [hrange, List.getElem?_eq_some_iff] at hget
    obtain ⟨hlt', hget⟩ := hget
    rw [getElem_range'_1, Nat.zero_add] at hget
    exact hget.symm
  · obtain ⟨hlt, rfl⟩ := List.getElem?_eq_some_iff.mp hk
    have hget : (ins ++ mid ++ outs)[(ins ++ mid).length + k]? = some outs[k] := by
      rw [getElem?_append_right (Nat.le_add_right ..), Nat.add_sub_cancel_left]
      exact hk
    rw [hrange, List.getElem?_eq_some_iff] at hget
    obtain ⟨hlt', hget⟩ := hget
    rw [getElem_range'_1] at hget
    have harith : ∀ a n o m : ℕ, a + o = n - m → m < n → m + (a + k) = n - o + k := by omega
    rw [← hget]
    exact harith _ _ _ _ hlen hb

/-- A tidy builder can be made into a subnet of the same function. -/
theorem Tidy.make (h : Tidy s ins mid outs) (hout : outs ≠ []) (lib : CellLibrary)
    (deleteBufs : Bool) : ∃ S, s.make deleteBufs = some S ∧ S.size ≤ s.size ∧ S.netFunction lib =
    s.netFunction lib ∧
      (deleteBufs = true → ∀ k c, S.getCell k = some c → c.type ≠ .BUF) := by
  have hnarrow : ∀ i c, s.liveCell i = some c → c.links.length ≤ InPlaceLinks + InEntryLinks :=
    fun i c hc =>
    Nat.le_add_right_of_le (h.leveled.small i c hc)
  by_cases hd : s.order.isDisassembled = true ∨ deleteBufs = true
  · obtain ⟨S, dst, neg, hS, hstripped⟩ := h.ordered.make_eq hout hnarrow hd
    have hplain : s.PlainBuffers :=
      fun i c hc _ l hl => (h.plain i _ (netlist_of_live hc)).port l hl
    have hsize := hstripped.size.trans_le (h.ordered.length_keptEntries_le (append_nil _).symm)
    refine ⟨S, hS, hsize, hstripped.netFunction_eq h.ordered hout hplain lib,
      fun hdelete k c hk => ?_⟩
    obtain ⟨i, c', hc', hkept, rfl⟩ := hstripped.only k c hk
    obtain ⟨-, -, n, hcell⟩ := hstripped.kept i c' hc' hkept
    obtain rfl := Option.some.inj (hk.symm.trans hcell)
    exact (isKept_iff hc').mp hkept hdelete
  · rw [not_or, Bool.not_eq_true, Bool.not_eq_true] at hd
    obtain ⟨hd, rfl⟩ := hd
    have hplace := h.inPlace hd hout
    refine ⟨_, hplace.make_eq h.ordered hout hd, Nat.le_of_eq size_takeEntries,
      hplace.netFunction_eq h.ordered hout lib, fun hfalse => by cases hfalse⟩

/-! ### Runs -/

def AddsPlain (s : SubnetBuilder) : Operation → Prop
  | .addCell typeID links => Gate.Plain ⟨typeID, links⟩
  | .addOutput link => link.out = 0
  | .replace rhs iomapping => (∀ root, iomapping.outputs.map Link.idx = [root] →
      s.getTypeID root ≠ .IN) ∧
    ∀ j c, rhs.getCell j = some c → Gate.Plain ⟨c.type, c.links⟩
  | .replaceCell entryID typeID links _ => s.getTypeID entryID ≠ .IN ∧ Gate.Plain ⟨typeID, links⟩
  | _ => True

theorem Tidy.notMem_ins (h : Tidy s ins mid outs) {i : EntryID} (ht : s.getTypeID i ≠ .IN) :
    i ∉ ins := by
  intro hi
  obtain ⟨c, hc, hct, -⟩ := h.leveled.mem_ins hi
  exact ht ((getTypeID_of_live hc).trans hct)

private theorem tidy_apply {op : Operation} (h : ∃ ins mid outs, Tidy s ins mid outs)
    (hop : ((Valid lib s op ∧ Ordinary s op) ∧ KeepsOrder s op) ∧ AddsPlain s op)
    (hs : s.apply lib op = some s') : ∃ ins mid outs, Tidy s' ins mid outs := by
  obtain ⟨ins, mid, outs, h⟩ := h
  obtain ⟨⟨⟨hv, ho⟩, hk⟩, hp⟩ := hop
  cases op with
  | addInput =>
    obtain ⟨⟨s₁, r⟩, hadd, rfl⟩ := Option.map_eq_some_iff.mp hs
    have hplain : Gate.Plain ⟨.IN, []⟩ := ⟨by simp, by simp⟩
    obtain ⟨mid', h'⟩ := h.addCell (by simp [ValidLinks]) (Nat.zero_le _)
      (fun _ => h.leveled.onlyInputs ho) hplain hadd
    exact ⟨_, mid', _, h'⟩
  | addCell t links =>
    obtain ⟨⟨s₁, r⟩, hadd, rfl⟩ := Option.map_eq_some_iff.mp hs
    obtain ⟨mid', h'⟩ := h.addCell hv ho.2.2 (fun ht => absurd ht ho.1) hp hadd
    exact ⟨_, mid', _, h'⟩
  | addOutput l =>
    obtain ⟨⟨s₁, r⟩, hadd, rfl⟩ := Option.map_eq_some_iff.mp hs
    have hplain : Gate.Plain ⟨.OUT, [l]⟩ :=
      ⟨fun l' hl => (mem_singleton.mp hl) ▸ hp, fun _ => rfl⟩
    obtain ⟨mid', h'⟩ := h.addCell hv (by simp [InPlaceLinks]) (fun ht => by cases ht) hplain hadd
    exact ⟨_, mid', _, h'⟩
  | replace rhs m =>
    obtain ⟨root, hfit⟩ := hv
    obtain ⟨mid', h'⟩ := h.replace hfit (hk root hfit.target).1
      (h.notMem_ins (hp.1 root hfit.target)) (ho.2 root hfit.target) ho.1 hp.2 hs
    exact ⟨_, mid', _, h'⟩
  | replaceCell i t links del =>
    obtain ⟨⟨s₁, r⟩, hrep, rfl⟩ := Option.map_eq_some_iff.mp hs
    obtain ⟨mid', h'⟩ := h.replaceCell hv (h.notMem_ins hp.1) ho hp.2 hrep
    exact ⟨_, mid', _, h'⟩
  | mergeCells m => exact ho.elim
  | replaceWithZero ids => exact ho.elim
  | replaceWithOne ids => exact ho.elim
  | enableFanouts => exact ho.elim

theorem tidy_of_run (hs : Run lib (fun s op => ((Valid lib s op ∧ Ordinary s op) ∧
    KeepsOrder s op) ∧ AddsPlain s op) s) : ∃ ins mid outs, Tidy s ins mid outs :=
  hs.invariant ⟨[], [], [], .init⟩ (fun _ _ _ h hop ha => tidy_apply h hop ha)

/-- At the end of such a run the builder can be made into a subnet of its function. -/
theorem make_of_run (hs : Run lib (fun s op => ((Valid lib s op ∧ Ordinary s op) ∧
    KeepsOrder s op) ∧ AddsPlain s op) s) (hout : 0 < s.nOut) (hsize : s.size ≤ maxEntries)
    (deleteBufs : Bool) : ∃ S, s.make deleteBufs = some S ∧
      S.size ≤ maxEntries ∧ S.netFunction lib = s.netFunction lib ∧
      (deleteBufs = true → ∀ k c, S.getCell k = some c → c.type ≠ .BUF) := by
  obtain ⟨ins, mid, outs, h⟩ := tidy_of_run hs
  have hne : outs ≠ [] := by
    rintro rfl
    exact Nat.ne_of_gt hout h.nOut
  obtain ⟨S, hS, hle, hrest⟩ := h.make hne lib deleteBufs
  exact ⟨S, hS, hle.trans hsize, hrest⟩

/-- A sufficient condition for `AddsPlain` besides `checkOrder`. -/
private def checkPlain (s : SubnetBuilder) : Operation → Bool
  | .addInput => true
  | .addCell typeID links => links.all (fun l => decide (l.out = 0)) && decide (typeID ≠ .OUT ∧
      typeID ≠ .BUF)
  | .addOutput link => decide (link.out = 0)
  | .replace rhs iomapping => (iomapping.outputs.all fun l => decide (s.getTypeID l.idx ≠ .IN)) &&
    (range rhs.size).all fun j => (rhs.getCell j).all fun c =>
    (c.links.all fun l => decide (l.out = 0)) &&
      decide (c.type = .OUT ∨ c.type = .BUF → c.links.length = 1)
  | _ => false

private theorem addsPlain_of_check {op : Operation} (h : s.checkPlain op = true) :
    AddsPlain s op := by
  cases op with
  | addInput => trivial
  | addCell t links =>
    simp only [checkPlain, Bool.and_eq_true, all_eq_true, decide_eq_true_eq] at h
    exact ⟨h.1, fun ht => (ht.elim h.2.1 h.2.2).elim⟩
  | addOutput l =>
    rw [checkPlain, decide_eq_true_eq] at h
    exact h
  | replace rhs m =>
    simp only [checkPlain, Bool.and_eq_true, all_eq_true, mem_range, Option.all_eq_true,
      decide_eq_true_eq] at h
    refine ⟨fun root hroot => ?_, fun j c hc => ?_⟩
    · obtain ⟨l, hl, rfl⟩ := mem_map.mp (hroot ▸ mem_singleton_self root)
      exact h.1 l hl
    · obtain ⟨hports, hsingle⟩ := h.2 j (Subnet.lt_of_getCell hc) c hc
      exact ⟨hports, hsingle⟩
  | _ => cases h

/-- The conjunction 2 is replaced by the negation of a disjunction, and its buffer goes away. -/
theorem make_negatedOr : ∃ (s : SubnetBuilder) (S : Subnet), s.order.isDisassembled = true ∧
    s.make true = some S ∧ S.netFunction .empty = s.netFunction .empty ∧ ∀ k c, S.getCell k =
    some c → c.type ≠ .BUF := by
  let negatedOr : Subnet := ⟨2, 1, 4, 0, [.cell ⟨.IN, [], 1⟩, .cell ⟨.IN, [], 1⟩,
    .cell ⟨.OR, [⟨0, 0, true⟩, ⟨1, 0, true⟩], 1⟩, .cell ⟨.OUT, [⟨2, 0, true⟩], 0⟩]⟩
  let ops : List Operation := [.addInput, .addInput, .addCell .AND [⟨0, 0, false⟩, ⟨1, 0, false⟩],
    .addCell .OR [⟨2, 0, false⟩, ⟨0, 0, false⟩], .addOutput ⟨3, 0, false⟩,
    .replace negatedOr ⟨[⟨0, 0, false⟩, ⟨1, 0, false⟩], [⟨2, 0, false⟩]⟩]
  let check : SubnetBuilder → Operation → Bool :=
    fun s op => (s.check .empty op && s.checkOrder op) && s.checkPlain op
  have hrun : (runChecked .empty check ops {}).map (fun s => (s.order.isDisassembled, s.nOut,
      decide (s.size ≤ maxEntries))) = some (true, 1, true) := by decide +kernel
  have hcheck : ∀ s op, check s op = true →
      ((Valid .empty s op ∧ Ordinary s op) ∧ KeepsOrder s op) ∧ AddsPlain s op := by
    intro s op h
    rw [Bool.and_eq_true, Bool.and_eq_true] at h
    exact ⟨keepsOrder_of_check h.1.1 h.1.2, addsPlain_of_check h.2⟩
  obtain ⟨s, hs, heq⟩ := Option.map_eq_some_iff.mp hrun
  simp only [Prod.mk.injEq] at heq
  have hpos : 0 < s.nOut := by
    rw [heq.2.1]
    exact Nat.one_pos
  obtain ⟨S, hS, -, hfunction, hbufs⟩ :=
    make_of_run (run_of_runChecked hcheck .init hs) hpos (of_decide_eq_true heq.2.2) true
  exact ⟨s, S, heq.1, hS, hfunction, hbufs rfl⟩

end UtopiaEda.SubnetBuilder
