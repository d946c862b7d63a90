import UtopiaEda.SubnetAddition

/-!
# Copies of subnets

The loop of `addSubnet` puts an entry for every cell of the subnet at the same distance from the
first. What the entry has to be is a parameter `Q`: the cell itself where cells are copied, a gate
with the same value where they are inlined.
-/
namespace UtopiaEda
open List
open Option (bind_eq_bind bind_some isSome_iff_exists map_some some.inj)

/-- Every cell is followed by the entries of its additional links, then by the next cell. -/
structure Subnet.Arranged (S : Subnet) : Prop where
  wellFormed : S.WellFormed
  first : 0 < S.size → (S.getCell 0).isSome
  within : ∀ i c, S.getCell i = some c → i + c.more < S.size
  skipped : ∀ i c, S.getCell i = some c → ∀ k, i < k → k ≤ i + c.more → S.getCell k = none
  following : ∀ i c, S.getCell i = some c → i + c.more + 1 < S.size →
    (S.getCell (i + c.more + 1)).isSome

theorem Subnet.Encodable.arranged {types : List SubnetType} {bound : ℕ} {S : Subnet}
    (h : S.Encodable types bound) : S.Arranged :=
  ⟨h.wellFormed, h.first, h.within, h.skipped, h.following⟩

theorem Subnet.Arranged.behind_inputs {S : Subnet} (hS : S.Arranged) (hlt : S.nIn < S.size) :
    (S.getCell S.nIn).isSome := by
  cases hin : S.nIn with
  | zero => exact hS.first (Nat.zero_lt_of_lt hlt)
  | succ k =>
    have hkin : k < S.nIn := hin ▸ Nat.lt_succ_self k
    have hk : k < S.size := by omega
    obtain ⟨c, hc⟩ := isSome_iff_exists.mp (hS.wellFormed.ends k (.inl hkin) hk)
    have hlinks := hS.wellFormed.noLinks k c hc ((hS.wellFormed.input k c hc).mpr hkin)
    have hmore : c.more = 0 := by
      simp [SubnetCell.more, SubnetCell.arity, hlinks, InPlaceLinks, InEntryLinks]
    have hnext := hS.following k c hc
    rw [hmore] at hnext
    exact hnext (by rw [hin] at hlt; exact hlt)

theorem Subnet.Arranged.before_next {S : Subnet} (hS : S.Arranged) {i j : EntryID}
    {c c' : SubnetCell} (hc : S.getCell i = some c) (hj : S.getCell j = some c')
    (hlt : j < i + c.more + 1) : j < i ∨ j = i := by
  by_contra hcon
  simp only [not_or, Nat.not_lt] at hcon
  have hnone := hS.skipped i c hc j (Nat.lt_of_le_of_ne hcon.1 (Ne.symm hcon.2))
    (Nat.le_of_lt_succ hlt)
  rw [hj] at hnone
  cases hnone

/-- The entries of a cell before the outputs end before the outputs. -/
theorem Subnet.Arranged.next_le {S : Subnet} (hS : S.Arranged) {i : EntryID} {c : SubnetCell}
    (hc : S.getCell i = some c) (hlt : i < S.size - S.nOut) : i + c.more + 1 ≤ S.size - S.nOut := by
  by_contra hgt
  have hle : S.size - S.nOut ≤ i + c.more := Nat.le_of_lt_succ (Nat.not_le.mp hgt)
  have hnone := hS.skipped i c hc _ hlt hle
  have hlast : S.size - S.nOut < S.size := Nat.lt_of_le_of_lt hle (hS.within i c hc)
  have hsome := hS.wellFormed.ends _ (.inr (Nat.le_refl _)) hlast
  rw [hnone] at hsome
  cases hsome

namespace SubnetBuilder
open Subnet

variable {types : List SubnetType} {S : Subnet} {links ls : List Link} {s s' s₀ : SubnetBuilder}
  {ins mid outs : List EntryID} {i j : EntryID} {c : SubnetCell} {l : Link}
  {addInner : SubnetBuilder → CellTypeID → List Link → Option (SubnetBuilder × List Link)}
  {Q : SubnetBuilder → EntryID → SubnetCell → Prop}

structure Copying (S : Subnet) (links : List Link) (Q : SubnetBuilder → EntryID → SubnetCell → Prop)
    (s₀ : SubnetBuilder) (ins outs : List EntryID) (i : EntryID) (s : SubnetBuilder)
    (mid : List EntryID) : Prop where
  grown : Grown s ins mid outs
  le : s₀.netlist.Le s.netlist
  size : s.size + S.nIn = i + s₀.size
  cells : ∀ j c, S.getCell j = some c → S.nIn ≤ j → j < i → Q s (j + s₀.size - S.nIn) c ∧
    ∃ g, s.netlist (j + s₀.size - S.nIn) = some g ∧ g.type ≠ .OUT
  only : ∀ k, (s.netlist k).isSome → (s₀.netlist k).isSome ∨
    ∃ j, (S.getCell j).isSome ∧ S.nIn ≤ j ∧ j < i ∧ k = j + s₀.size - S.nIn
  counts : (s.nIn, s.nOut) = (s₀.nIn, s₀.nOut)

def CopiesCell (S : Subnet) (links : List Link)
    (addInner : SubnetBuilder → CellTypeID → List Link → Option (SubnetBuilder × List Link))
    (Q : SubnetBuilder → EntryID → SubnetCell → Prop) (s₀ : SubnetBuilder)
    (ins outs : List EntryID) : Prop :=
  ∀ i c s mid, S.getCell i = some c → S.nIn ≤ i → c.type ≠ .OUT →
    Copying S links Q s₀ ins outs i s mid →
    s.ValidLinks (c.links.map (shift S.nIn links s₀.size)) →
    (StrashKey.isEnabled c.type (c.links.map (shift S.nIn links s₀.size)) = true →
      s.strash (StrashKey.make c.type (c.links.map (shift S.nIn links s₀.size))) = none) →
    ∃ s' ls mid', addInner s c.type (c.links.map (shift S.nIn links s₀.size)) = some (s', ls) ∧
      ls ≠ [] ∧ Grown s' ins mid' outs ∧ s.netlist.Le s'.netlist ∧
      s'.size = s.size + c.more + 1 ∧ Q s' s.size c ∧
      (∃ g, s'.netlist s.size = some g ∧ g.type ≠ .OUT) ∧
      (∀ k, (s'.netlist k).isSome → (s.netlist k).isSome ∨ k = s.size) ∧
      (s'.nIn, s'.nOut) = (s.nIn, s.nOut)

theorem Copying.validLinks (h : Copying S links Q s₀ ins outs i s mid) (hS : S.WellFormed)
    (hl : s₀.ValidLinks links) (hn : S.nIn ≤ links.length) {k : EntryID} (hc : S.getCell k = some c)
    (hk : k ≤ i ∨ S.size - S.nOut ≤ i) :
    s.ValidLinks (c.links.map (shift S.nIn links s₀.size)) := by
  apply validLinks_of_netlist
  intro l hmem
  obtain ⟨l, hlm, rfl⟩ := mem_map.mp hmem
  obtain ⟨hlt, c', hc', ht⟩ := hS.links k c hc l hlm
  by_cases hin : l.idx < S.nIn
  · obtain ⟨m, hm, -, heq⟩ := shift_input hin hn
    obtain ⟨g, hg, hgt⟩ := hl.netlist hm
    rw [heq]
    exact ⟨g, h.le _ _ hg, hgt⟩
  · rw [shift_inner hin]
    have hi : l.idx < i := by
      rcases hk with hk | hk
      · exact Nat.lt_of_lt_of_le hlt hk
      · by_contra hle
        exact ht ((hS.output l.idx c' hc').mpr (Nat.le_trans hk (Nat.not_lt.mp hle)))
    exact (h.cells l.idx c' hc' (Nat.not_lt.mp hin) hi).2

theorem Grown.destrashKey (h : Grown s ins mid outs) (t : CellTypeID) (ls : List Link) :
    ∃ f, s.destrashKey t ls = some { s with strash := f } ∧
      Grown { s with strash := f } ins mid outs ∧
      (StrashKey.isEnabled t ls = true → f (StrashKey.make t ls) = none) ∧
      ∀ k i, f k = some i → s.strash k = some i := by
  unfold SubnetBuilder.destrashKey
  cases he : StrashKey.isEnabled t ls with
  | false => exact ⟨s.strash, rfl, h, fun he => Bool.noConfusion he, fun _ _ hk => hk⟩
  | true =>
    cases hk : s.strash (StrashKey.make t ls) with
    | none => exact ⟨s.strash, by simp, h, fun _ => hk, fun _ _ hk => hk⟩
    | some i =>
      obtain ⟨c, hc, -⟩ := h.net.strash _ _ hk
      obtain ⟨f, hf, hnet, hiff⟩ := h.net.destrash hc
      refine ⟨f, by simpa using hf, ?_, fun _ => ?_, fun k j hkj => ((hiff k j).mp hkj).1⟩
      · exact ⟨hnet, h.kept, h.mem, h.input, h.output, h.noLinks, h.outLink, h.depth, h.stored,
          h.layered, h.assembled, h.cover⟩
      · cases hfk : f (StrashKey.make t ls) with
        | none => rfl
        | some j =>
          obtain ⟨hj, hne⟩ := (hiff _ j).mp hfk
          rw [hk] at hj
          exact absurd (some.inj hj).symm hne

def KeepsInv (S : Subnet) (links : List Link) (size : ℕ)
    (addInner : SubnetBuilder → CellTypeID → List Link → Option (SubnetBuilder × List Link))
    (Inv : EntryID → SubnetBuilder → Prop) : Prop :=
  ∀ i c s, S.getCell i = some c → S.nIn ≤ i → c.type ≠ .OUT → Inv i s →
    ∃ s₁ s' ls, s.destrashKey c.type (c.links.map (shift S.nIn links size)) = some s₁ ∧
      addInner s₁ c.type (c.links.map (shift S.nIn links size)) = some (s', ls) ∧ ls ≠ [] ∧
      Inv (i + c.more + 1) s'

private theorem addSubnetLoop_cells {Inv : EntryID → SubnetBuilder → Prop} {size : ℕ}
    (hS : S.Arranged) (hn : S.nIn ≤ links.length) (hstep : KeepsInv S links size addInner Inv)
    (acc : List Link) : ∀ {n : ℕ} {i : EntryID} {s : SubnetBuilder}, Inv i s →
    (i < S.size → (S.getCell i).isSome) → S.nIn ≤ i → i ≤ S.size - S.nOut → S.size ≤ n + i →
    ∃ n' s', addSubnetLoop addInner S links size n i s acc =
        addSubnetLoop addInner S links size n' (S.size - S.nOut) s' acc ∧
      S.size ≤ n' + (S.size - S.nOut) ∧ Inv (S.size - S.nOut) s' := by
  intro n
  induction n with
  | zero =>
    intro i s h _ _ hi hfuel
    obtain rfl : i = S.size - S.nOut := by
      have hle : S.size ≤ i := by rwa [Nat.zero_add] at hfuel
      exact Nat.le_antisymm hi (Nat.le_trans (Nat.sub_le _ _) hle)
    exact ⟨0, s, rfl, hfuel, h⟩
  | succ n ih =>
    intro i s h hcell hin hi hfuel
    rcases Nat.lt_or_eq_of_le hi with hlt | rfl
    · obtain ⟨c, hc⟩ := isSome_iff_exists.mp
        (hcell (Nat.lt_of_lt_of_le hlt (Nat.sub_le _ _)))
      have ht : c.type ≠ .OUT := fun ht =>
        absurd ((hS.wellFormed.output i c hc).mp ht) (Nat.not_le.mpr hlt)
      have hlinks : c.links.mapM (shiftLink S.nIn links size) =
          some (c.links.map (shift S.nIn links size)) :=
        Netlist.mapM_eq_some (fun l _ => shiftLink_eq hn)
      obtain ⟨s₁, s', ls, hs₁, hadd, hls, h'⟩ := hstep i c s hc hin ht h
      have hrun : addSubnetLoop addInner S links size (n + 1) i s acc =
          addSubnetLoop addInner S links size n (i + c.more + 1) s' acc := by
        obtain ⟨l, ls, rfl⟩ := exists_cons_of_ne_nil hls
        have hout : c.isOut = false := by simpa [SubnetCell.isOut] using ht
        rw [addSubnetLoop, if_pos (lt_of_getCell hc)]
        simp [hc, hlinks, hout, hs₁, hadd]
      have hfuel' : S.size ≤ n + (i + c.more + 1) := by
        refine Nat.le_trans hfuel ?_
        rw [Nat.add_assoc, Nat.add_comm 1 i]
        exact Nat.add_le_add_left (Nat.succ_le_succ (Nat.le_add_right _ _)) _
      obtain ⟨n', s'', hrun', hfuel'', h''⟩ := ih h' (hS.following i c hc)
        (Nat.le_trans hin (Nat.le_trans (Nat.le_add_right _ _) (Nat.le_succ _)))
        (hS.next_le hc hlt) hfuel'
      exact ⟨n', s'', hrun.trans hrun', hfuel'', h''⟩
    · exact ⟨n + 1, s, rfl, hfuel, h⟩

private theorem addSubnetLoop_outs (hS : S.WellFormed) (hn : S.nIn ≤ links.length) (size : ℕ) :
    ∀ {m k n : ℕ} (acc : List Link), k + m = S.nOut → m ≤ n →
    ∃ os, (range' k m).mapM (fun k => (S.getOut k).map (shift S.nIn links size)) = some os ∧
      addSubnetLoop addInner S links size n (S.size - S.nOut + k) s acc = some (s, acc ++ os) := by
  have hb := hS.bounds
  intro m
  induction m with
  | zero =>
    intro k n acc hk _
    have hsize : ¬ S.size - S.nOut + k < S.size := by omega
    refine ⟨[], rfl, ?_⟩
    cases n <;> rw [addSubnetLoop, if_neg hsize, append_nil]
  | succ m ih =>
    intro k n acc hk hmn
    obtain ⟨n, rfl⟩ := Nat.exists_eq_succ_of_ne_zero
      (Nat.ne_of_gt (Nat.lt_of_lt_of_le (Nat.succ_pos m) hmn))
    have hlt : S.size - S.nOut + k < S.size := by omega
    obtain ⟨c, hc⟩ := isSome_iff_exists.mp
      (hS.ends (S.size - S.nOut + k) (.inr (Nat.le_add_right _ _)) hlt)
    have ht : c.type = .OUT := (hS.output _ c hc).mpr (Nat.le_add_right _ _)
    obtain ⟨l, hl⟩ := length_eq_one_iff.mp (hS.outLink _ c hc ht)
    have hget : S.getOut k = some l := by simp [Subnet.getOut, Subnet.getOutIdx, hc, hl]
    have hmore : c.more = 0 := by
      simp [SubnetCell.more, SubnetCell.arity, hl, InPlaceLinks, InEntryLinks]
    have hout : c.isOut = true := by simp [SubnetCell.isOut, ht]
    obtain ⟨os, hos, hrun⟩ := ih (k := k + 1) (n := n) (acc ++ [shift S.nIn links size l])
      (by omega) (Nat.le_of_succ_le_succ hmn)
    refine ⟨shift S.nIn links size l :: os, ?_, ?_⟩
    · rw [range'_succ, mapM_cons, hget, hos]
      rfl
    · rw [addSubnetLoop, if_pos hlt]
      simp only [hc, hl, hout, hmore, mapM_cons, mapM_nil, shiftLink_eq hn,
        bind_eq_bind, bind_some, Option.pure_def, getElem?_cons_zero, if_true,
        Nat.add_zero]
      rw [Nat.add_assoc, hrun, append_assoc]
      rfl

theorem addSubnetLoop_eq {Inv : EntryID → SubnetBuilder → Prop} {size : ℕ} (hS : S.Arranged)
    (hn : S.nIn ≤ links.length) (hstep : KeepsInv S links size addInner Inv) (h : Inv S.nIn s) :
    ∃ s' os, addSubnetLoop addInner S links size S.size S.nIn s [] = some (s', os) ∧
      (range S.nOut).mapM (fun k => (S.getOut k).map (shift S.nIn links size)) = some os ∧
      Inv (S.size - S.nOut) s' := by
  have hb := hS.wellFormed.bounds
  obtain ⟨n, s', hrun, hfuel, h'⟩ := addSubnetLoop_cells hS hn hstep [] h hS.behind_inputs
    (Nat.le_refl _) (Nat.le_sub_of_add_le hb) (Nat.le_add_right S.size S.nIn)
  obtain ⟨os, hos, houts⟩ := addSubnetLoop_outs hS.wellFormed hn
    size (k := 0) (m := S.nOut) (n := n) [] (Nat.zero_add _) (by omega)
  refine ⟨s', os, ?_, ?_, h'⟩
  · rw [hrun]
    exact houts
  · rw [range_eq_range']
    exact hos

private theorem Copying.step (h : Copying S links Q s₀ ins outs i s mid) (hS : S.Arranged)
    (hl : s₀.ValidLinks links) (hn : S.nIn ≤ links.length)
    (hmono : ∀ s s' j c, s.netlist.Le s'.netlist → Q s j c → Q s' j c)
    (hQ : ∀ s f j c, Q s j c → Q { s with strash := f } j c)
    (hcopy : CopiesCell S links addInner Q s₀ ins outs) (hc : S.getCell i = some c) (hi : S.nIn ≤ i)
    (ht : c.type ≠ .OUT) :
    ∃ s₁ s' ls mid', s.destrashKey c.type (c.links.map (shift S.nIn links s₀.size)) = some s₁ ∧
      addInner s₁ c.type (c.links.map (shift S.nIn links s₀.size)) = some (s', ls) ∧ ls ≠ [] ∧
      Copying S links Q s₀ ins outs (i + c.more + 1) s' mid' := by
  have hvalid := h.validLinks hS.wellFormed hl hn hc (.inl (Nat.le_refl i))
  obtain ⟨f, hf, hgrown, hnone, -⟩ :=
    h.grown.destrashKey c.type (c.links.map (shift S.nIn links s₀.size))
  have h₁ : Copying S links Q s₀ ins outs i { s with strash := f } mid := by
    refine ⟨hgrown, h.le, h.size, fun j a ha hj hji => ?_, h.only, h.counts⟩
    obtain ⟨hq, hlive⟩ := h.cells j a ha hj hji
    exact ⟨hQ s f _ a hq, hlive⟩
  obtain ⟨s', ls, mid', hrun, hls, hgrown', hle, hsize, hq, hlive, honly, hcounts⟩ :=
    hcopy i c _ mid hc hi ht h₁ hvalid hnone
  have hsize₀ := h.size
  have hpos : s.size = i + s₀.size - S.nIn := (Nat.eq_sub_of_add_eq hsize₀)
  refine ⟨_, s', ls, mid', hf, hrun, hls, hgrown', fun k g hg => hle k g (h.le k g hg), ?_,
    fun j a ha hj hji => ?_, fun k hk => ?_, hcounts.trans h.counts⟩
  · rw [hsize, Nat.add_right_comm _ 1, Nat.add_right_comm _ c.more]
    change s.size + S.nIn + c.more + 1 = _
    rw [hsize₀, Nat.add_right_comm _ s₀.size, Nat.add_right_comm _ s₀.size]
  · rcases hS.before_next hc ha hji with hji | rfl
    · obtain ⟨hq, g, hg, hgt⟩ := h₁.cells j a ha hj hji
      exact ⟨hmono _ _ _ a hle hq, g, hle _ g hg, hgt⟩
    · rw [hc] at ha
      cases ha
      rw [← hpos]
      exact ⟨hq, hlive⟩
  · have hnext : i < i + c.more + 1 := Nat.lt_succ_of_le (Nat.le_add_right _ _)
    rcases honly k hk with hk | hk
    · rcases h.only k hk with hk | ⟨j, hj, hjin, hji, rfl⟩
      · exact .inl hk
      · exact .inr ⟨j, hj, hjin, Nat.lt_trans hji hnext, rfl⟩
    · exact .inr ⟨i, by rw [hc]; rfl, hi, hnext, hk.trans hpos⟩

theorem Grown.addSubnetLoop (h : Grown s₀ ins mid outs) (hS : S.Arranged) (hl : s₀.ValidLinks links)
    (hn : S.nIn ≤ links.length)
    (hmono : ∀ s s' j c, s.netlist.Le s'.netlist → Q s j c → Q s' j c)
    (hQ : ∀ s f j c, Q s j c → Q { s with strash := f } j c)
    (hcopy : CopiesCell S links addInner Q s₀ ins outs) :
    ∃ s' mid' os, SubnetBuilder.addSubnetLoop addInner S links s₀.size S.size S.nIn s₀ [] =
    some (s', os) ∧
      (range S.nOut).mapM (fun k => (S.getOut k).map (shift S.nIn links s₀.size)) = some os ∧
      Copying S links Q s₀ ins outs (S.size - S.nOut) s' mid' := by
  have h₀ : Copying S links Q s₀ ins outs S.nIn s₀ mid :=
    ⟨h, Netlist.Le.refl _, Nat.add_comm _ _, fun j _ _ hj hji => absurd hj (Nat.not_le.mpr hji),
      fun _ hk => .inl hk, rfl⟩
  have hkeeps : KeepsInv S links s₀.size addInner
      (fun i s => ∃ mid, Copying S links Q s₀ ins outs i s mid) := by
    intro i c s hc hi ht hinv
    obtain ⟨mid, hinv⟩ := hinv
    obtain ⟨s₁, s', ls, mid', hs₁, hadd, hls, h'⟩ := hinv.step hS hl hn hmono hQ hcopy hc hi ht
    exact ⟨s₁, s', ls, hs₁, hadd, hls, mid', h'⟩
  obtain ⟨s', os, hrun, hos, mid', h'⟩ := addSubnetLoop_eq hS hn hkeeps ⟨mid, h₀⟩
  exact ⟨s', mid', os, hrun, hos, h'⟩

theorem addMultiOutputCell_eq {t : CellTypeID} (h : s.addCell t ls = some (s', l)) :
    s.addMultiOutputCell types t ls = some (s', l :: (range' 1
      (t.getOutNum (SubnetType.library types) - 1)).map (fun i => ⟨l.idx, i, false⟩)) := by
  rw [addMultiOutputCell, h]
  rfl

def IsCopy (S : Subnet) (links : List Link) (size : ℕ) (s : SubnetBuilder) (k : EntryID)
    (c : SubnetCell) : Prop := s.netlist k = some ⟨c.type, c.links.map (shift S.nIn links size)⟩

theorem Grown.addSubnet (types : List SubnetType) (h : Grown s₀ ins mid outs) (hS : S.Arranged)
    (hl : s₀.ValidLinks links) (hn : S.nIn ≤ links.length) :
    ∃ s' mid' os, s₀.addSubnet types S links = some (s', os) ∧
      (range S.nOut).mapM (fun k => (S.getOut k).map (shift S.nIn links s₀.size)) = some os ∧
      Copying S links (IsCopy S links s₀.size) s₀ ins outs (S.size - S.nOut) s' mid' := by
  refine h.addSubnetLoop hS hl hn (fun s s' j c hle hq => hle _ _ hq) (fun s f j c hq => hq) ?_
  intro i c s mid hc hi ht hcopy hvalid hnone
  have htin : c.type ≠ .IN := fun hin =>
    absurd ((hS.wellFormed.input i c hc).mp hin) (Nat.not_lt.mpr hi)
  obtain ⟨s', idx, mid', hadd, hgrown, hcases⟩ :=
    hcopy.grown.addCell hvalid (hS.wellFormed.positive i c hc) htin ht
  rcases hcases with ⟨he, hk, -⟩ | ⟨rfl, happ⟩
  · rw [hnone he] at hk
    cases hk
  · have hwidth : Gate.width ⟨c.type, c.links.map (shift S.nIn links s₀.size)⟩ = c.more + 1 := by
      simp [Gate.width, SubnetCell.more, SubnetCell.arity]
    have hcounts := happ.counts
    simp only [Prod.mk.injEq, htin, ht, decide_false, Bool.toNat_false, Nat.add_zero] at hcounts
    refine ⟨s', _, mid', addMultiOutputCell_eq hadd, cons_ne_nil _ _, hgrown, happ.le, ?_,
      happ.here, ⟨_, happ.here, ht⟩, fun k hk => ?_, ?_⟩
    · rw [happ.size, hwidth, Nat.add_assoc]
    · rw [happ.netlist] at hk
      by_cases hks : k = s.size
      · exact .inr hks
      · rw [Function.update_of_ne hks] at hk
        exact .inl hk
    · rw [hcounts.1, hcounts.2.1]

theorem Grown.addInputs : ∀ {n : ℕ} {s : SubnetBuilder} {ins : List EntryID},
    Grown s ins [] [] → ∃ s', SubnetBuilder.addInputs n s =
        some (s', (range' s.size n).map (fun i => ⟨i, 0, false⟩)) ∧
      Grown s' (ins ++ range' s.size n) [] [] ∧ s'.size = s.size + n ∧
      (s'.nIn, s'.nOut) = (s.nIn + n, s.nOut) ∧ s.netlist.Le s'.netlist ∧
      ∀ i ∈ range' s.size n, s'.netlist i = some ⟨.IN, []⟩ := by
  intro n
  induction n with
  | zero =>
    intro s ins h
    exact ⟨s, rfl, by simpa using h, rfl, rfl, Netlist.Le.refl _, by simp⟩
  | succ n ih =>
    intro s ins h
    obtain ⟨s₁, hadd, h₁, happ⟩ := h.addInput
    have hsize : s₁.size = s.size + 1 := happ.size
    obtain ⟨s₂, hadds, h₂, hsize₂, hcounts, hle, hin⟩ := ih h₁
    have hcounts₁ := happ.counts
    simp only [Prod.mk.injEq] at hcounts₁ hcounts
    rw [hsize] at hadds h₂ hin
    refine ⟨s₂, ?_, ?_, ?_, ?_, happ.le.trans hle, fun i hi => ?_⟩
    · rw [SubnetBuilder.addInputs, hadd, bind_eq_bind, bind_some]
      simp only [hadds, bind_eq_bind, bind_some]
      rw [range'_succ, map_cons]
    · rw [range'_succ, ← singleton_append, ← append_assoc]
      exact h₂
    · rw [hsize₂, hsize, Nat.add_right_comm]
      rfl
    · simp only [Prod.mk.injEq]
      refine ⟨?_, ?_⟩
      · rw [hcounts.1, hcounts₁.1, Nat.add_right_comm]
        rfl
      · rw [hcounts.2, hcounts₁.2.1]
        rfl
    · rw [range'_succ, mem_cons] at hi
      rcases hi with rfl | hi
      · exact hle _ _ happ.here
      · exact hin i hi

theorem Grown.addOutputs : ∀ {ls : List Link} {s : SubnetBuilder} {outs : List EntryID},
    Grown s ins mid outs → s.ValidLinks ls → ∃ s', SubnetBuilder.addOutputs ls s = some s' ∧
      Grown s' ins mid (outs ++ range' s.size ls.length) ∧ s'.size = s.size + ls.length ∧
      (s'.nIn, s'.nOut) = (s.nIn, s.nOut + ls.length) ∧ s.netlist.Le s'.netlist ∧
      (∀ k l, ls[k]? = some l → s'.netlist (s.size + k) = some ⟨.OUT, [l]⟩) ∧
      ∀ k, (s'.netlist k).isSome → (s.netlist k).isSome ∨ s.size ≤ k ∧ k < s'.size := by
  intro ls
  induction ls with
  | nil =>
    intro s outs h _
    exact ⟨s, rfl, by simpa using h, rfl, rfl, Netlist.Le.refl _, by simp, fun k hk => .inl hk⟩
  | cons l ls ih =>
    intro s outs h hl
    have hl₁ : s.ValidLinks [l] := fun k hk => hl k (by simp at hk; simp [hk])
    obtain ⟨s₁, hadd, h₁, happ⟩ := h.addOutput hl₁
    have hsize : s₁.size = s.size + 1 := happ.size_of_le (by simp [InPlaceLinks])
    have hl₂ : s₁.ValidLinks ls :=
      (show s.ValidLinks ls from fun k hk => hl k (by simp [hk])).mono happ.le
    obtain ⟨s₂, hadds, h₂, hsize₂, hcounts, hle, hout, honly⟩ := ih h₁ hl₂
    have hcounts₁ := happ.counts
    simp only [Prod.mk.injEq] at hcounts₁ hcounts
    have hlen : s₂.size = s.size + (l :: ls).length := by
      rw [hsize₂, hsize, length_cons, Nat.add_right_comm]
      rfl
    refine ⟨s₂, ?_, ?_, hlen, ?_, happ.le.trans hle, fun k m hk => ?_, fun k hk => ?_⟩
    · rw [SubnetBuilder.addOutputs, hadd, bind_eq_bind, bind_some]
      exact hadds
    · rw [length_cons, range'_succ, ← singleton_append, ← append_assoc, ← hsize]
      exact h₂
    · simp only [Prod.mk.injEq]
      refine ⟨?_, ?_⟩
      · rw [hcounts.1, hcounts₁.1]
        rfl
      · rw [hcounts.2, hcounts₁.2.1, length_cons, Nat.add_right_comm]
        rfl
    · cases k with
      | zero =>
        simp only [getElem?_cons_zero, Option.some.injEq] at hk
        subst hk
        exact hle _ _ happ.here
      | succ k =>
        rw [getElem?_cons_succ] at hk
        have := hout k m hk
        rwa [hsize, Nat.add_right_comm] at this
    · rcases honly k hk with hk | ⟨h₁, h₂⟩
      · rw [happ.netlist] at hk
        by_cases hks : k = s.size
        · refine .inr ⟨Nat.le_of_eq hks.symm, ?_⟩
          rw [hlen, hks]
          exact Nat.lt_add_of_pos_right (Nat.succ_pos _)
        · rw [Function.update_of_ne hks] at hk
          exact .inl hk
      · rw [hsize] at h₁
        exact .inr ⟨Nat.le_of_succ_le h₁, h₂⟩

def inputLinks (n : ℕ) : List Link := (range' 0 n).map (fun i => ⟨i, 0, false⟩)

private theorem shift_self (hS : S.WellFormed) (hc : S.getCell i = some c) (hl : l ∈ c.links) :
    shift S.nIn (inputLinks S.nIn) S.nIn l = l := by
  by_cases hin : l.idx < S.nIn
  · obtain ⟨k, -, hk, heq⟩ : ∃ k ∈ inputLinks S.nIn, (inputLinks S.nIn)[l.idx]? = some k ∧
        shift S.nIn (inputLinks S.nIn) S.nIn l = { k with inv := xor k.inv l.inv } :=
      shift_input hin (by simp [inputLinks])
    have hidx : k = ⟨l.idx, 0, false⟩ := by
      rw [inputLinks, getElem?_map, getElem?_range' hin, Nat.zero_add, Nat.one_mul,
        map_some, Option.some.injEq] at hk
      exact hk.symm
    obtain ⟨-, a, ha, -⟩ := hS.links i c hc l hl
    have hport : l.out = 0 := by
      rcases hS.port i c hc l hl a ha with h | ⟨sid, hsid⟩
      · exact h
      · rw [(hS.input _ a ha).mpr hin] at hsid
        cases hsid
    rw [heq, hidx, Bool.false_xor, ← hport]
  · rw [shift_inner hin, Nat.add_sub_cancel]

theorem exists_outLinks (hS : S.WellFormed) : ∃ f : ℕ → Link, ∀ k < S.nOut,
    S.getOut k = some (f k) ∧ ∃ c, S.getCell (S.getOutIdx k) = some c ∧ c.type = .OUT ∧
      c.links = [f k] := by
  have hb := hS.bounds
  have hex : ∀ k, ∃ l, k < S.nOut → S.getOut k = some l ∧ ∃ c, S.getCell (S.getOutIdx k) = some c ∧
      c.type = .OUT ∧ c.links = [l] := by
    intro k
    by_cases hk : k < S.nOut
    · have hlt : S.size - S.nOut + k < S.size := by omega
      have hle : S.size - S.nOut ≤ S.getOutIdx k := Nat.le_add_right _ _
      obtain ⟨c, hc⟩ := isSome_iff_exists.mp (hS.ends _ (.inr hle) hlt)
      have ht : c.type = .OUT := (hS.output _ c hc).mpr hle
      obtain ⟨l, hl⟩ := length_eq_one_iff.mp (hS.outLink _ c hc ht)
      exact ⟨l, fun _ => ⟨by simp [Subnet.getOut, hc, hl], c, hc, ht, hl⟩⟩
    · exact ⟨⟨0, 0, false⟩, fun h => absurd h hk⟩
  exact ⟨fun k => (hex k).choose, fun k hk => (hex k).choose_spec hk⟩

theorem ofSubnet_eq (types : List SubnetType) (hS : S.Arranged) :
    ∃ s mid, ofSubnet types S = some s ∧
      Grown s (range S.nIn) mid ((range S.nOut).map S.getOutIdx) ∧
      s.netlist = S.netlist ∧ s.size = S.size ∧ s.nIn = S.nIn ∧ s.nOut = S.nOut := by
  have hwf := hS.wellFormed
  have hb := hwf.bounds
  obtain ⟨s₁, hin, h₁, hsize₁, hcounts₁, -, hins⟩ := Grown.init.addInputs (n := S.nIn)
  have hzero : ({} : SubnetBuilder).size = 0 := rfl
  rw [hzero] at hin h₁ hsize₁ hins
  rw [Nat.zero_add] at hsize₁
  have hvalid₁ : s₁.ValidLinks (inputLinks S.nIn) := by
    apply validLinks_of_netlist
    intro l hl
    obtain ⟨i, hi, rfl⟩ := mem_map.mp hl
    exact ⟨_, hins i hi, by simp⟩
  obtain ⟨s₂, mid, os, hsub, hos, h₂⟩ := h₁.addSubnet types hS hvalid₁ (by simp [inputLinks])
  rw [hsize₁] at hos h₂
  have hsize₂ : s₂.size = S.size - S.nOut := by
    have hsize := h₂.size
    rw [hsize₁] at hsize
    exact Nat.add_right_cancel hsize
  obtain ⟨f, hf⟩ := exists_outLinks hwf
  have hshift : ∀ k < S.nOut, shift S.nIn (inputLinks S.nIn) S.nIn (f k) = f k := by
    intro k hk
    obtain ⟨-, c, hc, -, hl⟩ := hf k hk
    exact shift_self hwf hc (by simp [hl])
  have hos' : os = (range S.nOut).map f := by
    have hmap : (range S.nOut).mapM (fun k => (S.getOut k).map
        (shift S.nIn (inputLinks S.nIn) S.nIn)) = some ((range S.nOut).map f) := by
      apply Netlist.mapM_eq_some
      intro k hk
      rw [(hf k (mem_range.mp hk)).1, map_some, hshift k (mem_range.mp hk)]
    rw [hos] at hmap
    exact some.inj hmap
  have hvalid₂ : s₂.ValidLinks os := by
    intro l hl
    rw [hos'] at hl
    obtain ⟨k, hk, rfl⟩ := mem_map.mp hl
    have hk := mem_range.mp hk
    obtain ⟨-, c, hc, -, hcl⟩ := hf k hk
    have hval := h₂.validLinks hwf hvalid₁ (by simp [inputLinks]) hc (.inr (Nat.le_refl _))
    rw [hsize₁, hcl] at hval
    exact hval (f k) (by simp [hshift k hk])
  obtain ⟨s₃, hout, h₃, hsize₃, hcounts₃, hle₃, houts, honly⟩ := h₂.grown.addOutputs hvalid₂
  have hlen : os.length = S.nOut := by rw [hos', length_map, length_range]
  have hcounts₂ := h₂.counts
  rw [hsize₂, hlen] at h₃ hsize₃
  have hsize : s₃.size = S.size := by
    rw [hsize₃]
    omega
  have hlist : [] ++ range' (S.size - S.nOut) S.nOut =
      (range S.nOut).map S.getOutIdx := by
    rw [nil_append, range'_eq_map_range]
    rfl
  rw [hlist, nil_append, ← range_eq_range'] at h₃
  simp only [Prod.mk.injEq] at hcounts₁ hcounts₂ hcounts₃
  refine ⟨s₃, mid, ?_, h₃, ?_, hsize, ?_, ?_⟩
  · rw [ofSubnet]
    refine Option.bind_eq_some_iff.mpr ⟨_, hin, Option.bind_eq_some_iff.mpr ⟨_, hsub, hout⟩⟩
  · funext i
    cases hc : S.getCell i with
    | some c =>
      have hgate : S.netlist i = some ⟨c.type, c.links⟩ := by
        rw [Subnet.netlist, hc, map_some]
      rw [hgate]
      by_cases hi : i < S.nIn
      · have ht := (hwf.input i c hc).mpr hi
        have hmem : i ∈ range' 0 S.nIn := by simpa using hi
        rw [ht, hwf.noLinks i c hc ht]
        exact hle₃ i _ (h₂.le i _ (hins i hmem))
      · by_cases ho : i < S.size - S.nOut
        · have hcopy := (h₂.cells i c hc (Nat.not_lt.mp hi) ho).1
          rw [hsize₁, Nat.add_sub_cancel, IsCopy] at hcopy
          have hself : c.links.map (shift S.nIn (inputLinks S.nIn) S.nIn) = c.links := by
            conv_rhs => rw [← map_id c.links]
            exact map_congr_left (fun l hl => shift_self hwf hc hl)
          rw [hself] at hcopy
          exact hle₃ i _ hcopy
        · obtain ⟨k, hk⟩ := Nat.exists_eq_add_of_le (Nat.not_lt.mp ho)
          have hlt : i < S.size := Subnet.lt_of_getCell hc
          have hkn : k < S.nOut := by
            have hlt : S.size - S.nOut + k < S.size := hk ▸ hlt
            omega
          obtain ⟨-, a, ha, hat, hal⟩ := hf k hkn
          rw [Subnet.getOutIdx, ← hk, hc] at ha
          cases ha
          have hget : os[k]? = some (f k) := by
            rw [hos', getElem?_map, getElem?_range hkn, map_some]
          have hres := houts k (f k) hget
          rw [hsize₂, ← hk] at hres
          rw [hres, hat, hal]
    | none =>
      have hgate : S.netlist i = none := by rw [Subnet.netlist, hc, Option.map_none]
      rw [hgate, ← Option.not_isSome_iff_eq_none]
      intro hi
      have hcell : (S.getCell i).isSome := by
        rcases honly i hi with hi | ⟨hle, hlt⟩
        · rcases h₂.only i hi with hi | ⟨j, hj, -, -, rfl⟩
          · have hmem := (h₁.mem i).mpr hi
            have hlt : i < S.nIn := by simpa using hmem
            exact hwf.ends i (.inl hlt)
              (Nat.lt_of_lt_of_le hlt (Nat.le_trans (Nat.le_add_right _ _) hb))
          · rw [hsize₁, Nat.add_sub_cancel]
            exact hj
        · rw [hsize₂] at hle
          rw [hsize] at hlt
          exact hwf.ends i (.inr hle) hlt
      rw [hc] at hcell
      cases hcell
  · rw [hcounts₃.1, hcounts₂.1, hcounts₁.1]
    exact Nat.zero_add _
  · rw [hcounts₃.2, hcounts₂.2, hcounts₁.2, hlen]
    exact Nat.zero_add _

end SubnetBuilder

end UtopiaEda
