import UtopiaEda.Expansions

/-!
# Expanded cells

`addCellRecursively` puts the cells of the implementations into the builder, down to the gates. If
the implementations are aligned, the returned links have the values of the outputs of the cell.
-/
namespace UtopiaEda.SubnetBuilder
open Subnet List
open Option (getD_some map_some some.inj)

variable {types : List SubnetType} {S : Subnet} {links ls os : List Link} {s s' s₀ : SubnetBuilder}
  {ins mid outs : List EntryID} {i j : EntryID} {c : SubnetCell} {l : Link} {t : CellTypeID}
  {sid d : ℕ}

def linkInputs (links : List Link) (ρ : EntryID → ℕ → Bool) : EntryID → Bool :=
  fun k => (links.map (Link.value ρ)).getD k false

def Follows (types : List SubnetType) (S : Subnet) (links : List Link) (size : ℕ)
    (s : SubnetBuilder) (l : Link) : Prop :=
  s.ValidLinks [shift S.nIn links size l] ∧ ∀ lib x ρ σ, s.netlist.Solves lib x ρ →
    S.netlist.Solves (SubnetType.library types) (linkInputs links ρ) σ →
    (shift S.nIn links size l).value ρ = l.value σ

theorem Follows.mono {size : ℕ} (h : Follows types S links size s l)
    (hle : s.netlist.Le s'.netlist) : Follows types S links size s' l :=
  ⟨h.1.mono hle, fun lib x ρ σ hρ hσ => h.2 lib x ρ σ (Solves.mono hρ hle) hσ⟩

theorem follows_input {size : ℕ} (hS : S.WellFormed) (hn : S.nIn ≤ links.length)
    (hl : s.ValidLinks links) (hin : l.idx < S.nIn) : Follows types S links size s l := by
  obtain ⟨k, hk, hget, heq⟩ := shift_input hin hn
  rw [Follows, heq]
  constructor
  · intro m hm
    rw [mem_singleton.mp hm]
    exact hl k hk
  · intro lib x ρ σ _ hσ
    have hsize : l.idx < S.size :=
      Nat.lt_of_lt_of_le hin (Nat.le_trans (Nat.le_add_right _ _) hS.bounds)
    obtain ⟨c, hc⟩ := Option.isSome_iff_exists.mp (hS.ends l.idx (.inl hin) hsize)
    have hg : S.netlist l.idx = some ⟨c.type, c.links⟩ := by
      rw [Subnet.netlist, hc, map_some]
    have hvalue : σ l.idx l.out = k.value ρ := by
      rw [hσ l.idx _ hg, Netlist.gateValue, if_pos ((hS.input l.idx c hc).mpr hin), linkInputs,
        getD_eq_getElem?_getD, getElem?_map, hget]
      rfl
    rw [Link.value, Link.value, hvalue, Link.value, Bool.xor_assoc]

structure Inlining (types : List SubnetType) (S : Subnet) (links : List Link) (s₀ : SubnetBuilder)
    (ins outs : List EntryID) (i : EntryID) (s : SubnetBuilder) : Prop where
  grown : ∃ mid, Grown s ins mid outs
  le : s₀.netlist.Le s.netlist
  size : s.size = s₀.size + S.spanBefore (cellSpan types types.length) i
  gates : ∀ k g, s.netlist k = some g → s₀.netlist k = some g ∨ ∀ sid, g.type ≠ .soft sid
  follows : ∀ l, HasLink S l → l.idx < i → Follows types S links s₀.size s l
  counts : (s.nIn, s.nOut) = (s₀.nIn, s₀.nOut)

structure Expanded (types : List SubnetType) (s s' : SubnetBuilder) (t : CellTypeID)
    (ls os : List Link) :
    Prop where
  le : s.netlist.Le s'.netlist
  gates : ∀ k g, s'.netlist k = some g → s.netlist k = some g ∨ ∀ sid, g.type ≠ .soft sid
  outs : ∀ out < t.getOutNum (SubnetType.library types), ∃ l, os[out]? = some l ∧
    s'.ValidLinks [l] ∧ ∀ lib x ρ, s'.netlist.Solves lib x ρ →
      l.value ρ = t.eval (SubnetType.library types) (ls.map (Link.value ρ)) out
  counts : (s'.nIn, s'.nOut) = (s.nIn, s.nOut)

structure Placed (types : List SubnetType) (s s' : SubnetBuilder) (t : CellTypeID)
    (ls os : List Link) :
    Prop where
  size : s'.size = s.size + cellSpan types types.length ⟨t, ls, 0⟩
  outs : ∀ out < t.getOutNum (SubnetType.library types), ∀ off, outputOffset types ⟨t, ls, 0⟩ out =
    some off → os[out]? = some ⟨s.size + off, out, false⟩

/-- A cell that `addCellRecursively` can expand with the nesting `d`. -/
def Expandable (types : List SubnetType) (d : ℕ) (t : CellTypeID) (ls : List Link) : Prop :=
  t.isNegative = false ∧ t ≠ .IN ∧ t ≠ .OUT ∧ ∀ sid, t = .soft sid → sid < d ∧
    (types[sid]?).map SubnetType.inNum = some ls.length ∧ SubnetType.AlignedWithin types sid

/-- What `addCellNested` does with the nesting `d`. -/
def Expands (types : List SubnetType) (d : ℕ) : Prop :=
  ∀ {t ls s ins mid outs}, Grown s ins mid outs → s.ValidLinks ls → Expandable types d t ls →
    ∃ s' os mid', s.addCellNested types (fun _ => true) d t ls = some (s', os) ∧
      Grown s' ins mid' outs ∧ Expanded types s s' t ls os ∧
      ((StrashKey.isEnabled t ls = true → s.strash (StrashKey.make t ls) = none) →
        Placed types s s' t ls os)

private theorem Grown.expandGate (h : Grown s ins mid outs) (hl : s.ValidLinks ls)
    (hneg : t.isNegative = false) (hin : t ≠ .IN) (hout : t ≠ .OUT) (hsoft : ∀ sid, t ≠ .soft sid) :
    ∃ s' os mid', s.addMultiOutputCell types t ls = some (s', os) ∧ Grown s' ins mid' outs ∧
      Expanded types s s' t ls os ∧
      ((StrashKey.isEnabled t ls = true → s.strash (StrashKey.make t ls) = none) →
        Placed types s s' t ls os) := by
  have hone : t.getOutNum (SubnetType.library types) = 1 := by
    cases t with
    | OUT => exact absurd rfl hout
    | soft sid => exact absurd rfl (hsoft sid)
    | _ => rfl
  obtain ⟨s', idx, mid', hadd, hgrown, hcases⟩ := h.addCell hl hneg hin hout
  obtain ⟨s'', l, -, hadd', -, hlink⟩ := h.addGateLink hl hneg hin hout hsoft
  obtain ⟨rfl, rfl⟩ : s' = s'' ∧ ⟨idx, 0, false⟩ = l := by
    rw [hadd] at hadd'
    simpa using hadd'
  have hrun : s.addMultiOutputCell types t ls = some (s', ⟨idx, 0, false⟩ :: (range' 1
      (t.getOutNum (SubnetType.library types) - 1)).map (fun i => ⟨idx, i, false⟩)) :=
    addMultiOutputCell_eq hadd
  rw [hone] at hrun
  refine ⟨s', _, mid', hrun, hgrown, ⟨hlink.le, fun k g hg => ?_, fun out ho => ?_, hlink.counts⟩,
    fun hfresh => ?_⟩
  · refine (hlink.gates k g hg).imp id (fun hg sid => ?_)
    rw [hg.1]
    exact hsoft sid
  · rw [hone, Nat.lt_one_iff] at ho
    refine ⟨⟨idx, 0, false⟩, by rw [ho]; rfl, hlink.valid, fun lib x ρ hρ => ?_⟩
    rw [hlink.value lib x ρ hρ, eval_gate hsoft]
  · rcases hcases with ⟨he, hk, -⟩ | ⟨rfl, happ⟩
    · rw [hfresh he] at hk
      cases hk
    · refine ⟨?_, fun out ho off hoff => ?_⟩
      · rw [happ.size]
        congr 1
        cases types.length with
        | zero => rfl
        | succ n =>
          rw [cellSpan]
          split
          · rename_i sid hsid
            exact absurd hsid (hsoft sid)
          · rfl
      · rw [hone, Nat.lt_one_iff] at ho
        have hzero : outputOffset types ⟨t, ls, 0⟩ out = some 0 := by
          rw [outputOffset]
          split
          · rename_i sid hsid
            exact absurd hsid (hsoft sid)
          · rfl
        rw [hzero] at hoff
        obtain rfl := some.inj hoff
        rw [ho]
        rfl

private theorem follows_output {size : ℕ} {k : Link} (hc : S.getCell i = some c)
    (hin : c.type ≠ .IN) (hi : ¬ i < S.nIn) (hl : l.idx = i)
    (hplace : k = ⟨i + size - S.nIn, l.out, false⟩) (hk : s.ValidLinks [k])
    (hlinks : ∀ m ∈ c.links, Follows types S links size s m)
    (hval : ∀ lib x ρ, s.netlist.Solves lib x ρ → k.value ρ = c.type.eval (SubnetType.library types)
      ((c.links.map (shift S.nIn links size)).map (Link.value ρ)) l.out) :
    Follows types S links size s l := by
  subst hl
  have hshift : shift S.nIn links size l = { k with inv := l.inv } := by rw [shift_inner hi, hplace]
  rw [Follows, hshift]
  constructor
  · intro m hm
    rw [mem_singleton.mp hm]
    exact hk k (mem_singleton_self k)
  · intro lib x ρ σ hρ hσ
    have hg : S.netlist l.idx = some ⟨c.type, c.links⟩ := by
      rw [Subnet.netlist, hc, map_some]
    have hmap : (c.links.map (shift S.nIn links size)).map (Link.value ρ) =
        c.links.map (Link.value σ) := by
      rw [map_map]
      apply map_congr_left
      intro m hm
      exact (hlinks m hm).2 lib x ρ σ hρ hσ
    have hkρ := hval lib x ρ hρ
    rw [hmap, Link.value, hplace, Bool.xor_false] at hkρ
    rw [Link.value, Link.value, hplace, hkρ, hσ l.idx _ hg, Netlist.gateValue, if_neg hin]

private theorem Inlining.setStrash {f : StrashKey → Option EntryID}
    (h : Inlining types S links s₀ ins outs i s) {mid : List EntryID}
    (hf : Grown { s with strash := f } ins mid outs) :
    Inlining types S links s₀ ins outs i { s with strash := f } :=
  ⟨⟨mid, hf⟩, h.le, h.size, h.gates, h.follows, h.counts⟩

private theorem Inlining.step (hS : S.Arranged) (ha : S.Aligned types)
    (hcomp : S.Composed types d) (hd : Expands types d)
    (hwithin : ∀ i c sid, S.getCell i = some c → c.type = .soft sid →
      SubnetType.AlignedWithin types sid) :
    KeepsInv S links s₀.size (addCellNested types (fun _ => true) d)
      (Inlining types S links s₀ ins outs) := by
  intro i c s hc hi hout h
  have hwf := hS.wellFormed
  have hin : c.type ≠ .IN := fun hin => absurd ((hwf.input i c hc).mp hin) (Nat.not_lt.mpr hi)
  obtain ⟨mid, hgrown⟩ := h.grown
  obtain ⟨f, hf, hgrown₁, hfresh, -⟩ :=
    hgrown.destrashKey c.type (c.links.map (shift S.nIn links s₀.size))
  have h₁ := h.setStrash hgrown₁
  have hlinks : ∀ l ∈ c.links, Follows types S links s₀.size { s with strash := f } l := fun l hl =>
    h₁.follows l ⟨i, c, hc, hl⟩ (hwf.links i c hc l hl).1
  have hvalid : ({ s with strash := f } : SubnetBuilder).ValidLinks
      (c.links.map (shift S.nIn links s₀.size)) := by
    intro k hk
    obtain ⟨l, hl, rfl⟩ := mem_map.mp hk
    exact (hlinks l hl).1 _ (mem_singleton_self _)
  obtain ⟨s', os, mid', hrun, hgrown', hexp, hplaced⟩ := hd hgrown₁ hvalid
    ⟨hwf.positive i c hc, hin, hout, fun sid hsid => by
      obtain ⟨hlt, hnum⟩ := hcomp.soft i c sid hc hsid
      rw [length_map]
      exact ⟨hlt, hnum, hwithin i c sid hc hsid⟩⟩
  obtain ⟨hsize, hplace⟩ := hplaced hfresh
  have hspan : cellSpan types types.length ⟨c.type, c.links.map (shift S.nIn links s₀.size), 0⟩ =
      cellSpan types types.length c := by
    apply cellSpan_congr
    · rfl
    · exact length_map _
  have houtputs : c.type.getOutNum (SubnetType.library types) = c.outputs types := by
    unfold SubnetCell.outputs
    cases ht : c.type with
    | OUT => exact absurd ht hout
    | soft sid => rfl
    | _ => rfl
  refine ⟨_, s', os, hf, hrun, ?_, ⟨mid', hgrown'⟩, h₁.le.trans hexp.le, ?_, fun k g hg => ?_,
    fun l hl hlt => ?_, hexp.counts.trans h₁.counts⟩
  · obtain ⟨l, hl, -⟩ := hexp.outs 0 (by rw [houtputs]; exact ha.outputs i c hc)
    exact ne_nil_of_mem (mem_of_getElem? hl)
  · rw [hsize, hspan, h₁.size, hS.spanBefore_next hc hi, Nat.add_assoc]
  · rcases hexp.gates k g hg with hg | hg
    · exact h₁.gates k g hg
    · exact .inr hg
  · obtain ⟨k, a, hak, hla⟩ := hl
    obtain ⟨-, c', hc', -⟩ := hwf.links k a hak l hla
    rcases hS.before_next hc hc' hlt with hlt | hli
    · exact (h₁.follows l ⟨k, a, hak, hla⟩ hlt).mono hexp.le
    · have hcc : c' = c := by
        rw [hli, hc] at hc'
        exact (some.inj hc').symm
      have hport : l.out < c.type.getOutNum (SubnetType.library types) := by
        rw [houtputs, ← hcc]
        exact hcomp.ports k a hak l hla c' hc'
      have hoff := ha.links k a hak l hla (hli ▸ hi) c' hc'
      obtain ⟨off, hoff, hsum⟩ := Option.map_eq_some_iff.mp hoff
      rw [hcc] at hoff
      obtain ⟨m, hm, hmv, hmval⟩ := hexp.outs l.out hport
      have hmo := hplace l.out hport off ((outputOffset_congr rfl l.out).trans hoff)
      rw [hm] at hmo
      have hidx : s.size + off = i + s₀.size - S.nIn := by
        have hsz : s.size = s₀.size + S.spanBefore (cellSpan types types.length) i := h.size
        rw [hli] at hsum
        rw [hsz, Nat.add_assoc, hsum, Nat.add_comm i, Nat.add_sub_assoc hi]
      have hmplace : m = ⟨i + s₀.size - S.nIn, l.out, false⟩ := by
        rw [some.inj hmo, ← hidx]
        rfl
      exact follows_output hc hin (Nat.not_lt.mpr hi) hli hmplace hmv
        (fun m' hm' => (hlinks m' hm').mono hexp.le) hmval

private theorem Inlining.passed (hS : S.WellFormed) (hos : (range S.nOut).mapM (fun k =>
    (S.getOut k).map (shift S.nIn links s₀.size)) = some os)
    (h : Inlining types S links s₀ ins outs (S.size - S.nOut) s) {k : ℕ} (hk : k < S.nOut) :
    ∃ l, S.getOut k = some l ∧ os[k]? = some (shift S.nIn links s₀.size l) ∧
      Follows types S links s₀.size s l ∧ ∀ x σ, S.netlist.Solves (SubnetType.library types) x σ →
        l.value σ = σ (S.getOutIdx k) 0 := by
  obtain ⟨f, hf⟩ := exists_outLinks hS
  have hmap : os = (range S.nOut).map (fun k => shift S.nIn links s₀.size (f k)) := by
    have hex : (range S.nOut).mapM (fun k => (S.getOut k).map (shift S.nIn links s₀.size)) =
        some ((range S.nOut).map (fun k => shift S.nIn links s₀.size (f k))) := by
      apply Netlist.mapM_eq_some
      intro k hk
      rw [(hf k (mem_range.mp hk)).1, map_some]
    rw [hos] at hex
    exact some.inj hex
  obtain ⟨hget, c, hc, ht, hl⟩ := hf k hk
  have hmem : f k ∈ c.links := by rw [hl]; exact mem_singleton_self _
  obtain ⟨-, c', hc', hne⟩ := hS.links _ c hc (f k) hmem
  refine ⟨f k, hget, ?_, h.follows _ ⟨_, c, hc, hmem⟩ ?_, fun x σ hσ => ?_⟩
  · rw [hmap, getElem?_map, getElem?_range hk, map_some]
  · by_contra hle
    exact hne ((hS.output _ c' hc').mpr (Nat.not_lt.mp hle))
  · have hg : S.netlist (S.getOutIdx k) = some ⟨c.type, c.links⟩ := by
      rw [Subnet.netlist, hc, map_some]
    rw [hσ _ _ hg, Netlist.gateValue, ht, if_neg (fun h => by cases h), hl]
    rfl

private theorem Grown.expandSoft {T : SubnetType} (hcons : SubnetType.Consistent types)
    (hA : ∀ (sid : ℕ) (T : SubnetType), types[sid]? = some T → T.subnet.Arranged)
    (hd : Expands types d) (h : Grown s ins mid outs) (hl : s.ValidLinks ls)
    (hT : types[sid]? = some T) (hlt : sid < d + 1) (hnum : T.inNum = ls.length)
    (hwithin : SubnetType.AlignedWithin types sid) : ∃ s' os mid', SubnetBuilder.addSubnetLoop
    (addCellNested types (fun _ => true) d) T.subnet ls s.size
        T.subnet.size T.subnet.nIn s [] = some (s', os) ∧ Grown s' ins mid' outs ∧
      Expanded types s s' (.soft sid) ls os ∧ Placed types s s' (.soft sid) ls os := by
  obtain ⟨hnIn, hnOut, hcomp⟩ := hcons sid T hT
  have hS := hA sid T hT
  have hwf := hS.wellFormed
  have hn : T.subnet.nIn ≤ ls.length := Nat.le_of_eq (hnIn.symm.trans hnum)
  have hcomp' : T.subnet.Composed types d := ⟨fun i c sid' hc ht => by
    obtain ⟨hlt', hnum'⟩ := hcomp.soft i c sid' hc ht
    exact ⟨Nat.lt_of_lt_of_le hlt' (Nat.le_of_lt_succ hlt), hnum'⟩, hcomp.ports⟩
  have hinit : Inlining types T.subnet ls s ins outs T.subnet.nIn s := by
    refine ⟨⟨mid, h⟩, .refl _, ?_, fun k g hg => .inl hg,
      fun l _ hin => follows_input hwf hn hl hin, rfl⟩
    rw [spanBefore, Nat.sub_self]
    rfl
  obtain ⟨s', os, hrun, hos, hdone⟩ := addSubnetLoop_eq hS hn (Inlining.step hS
    (hwithin sid T .refl hT) hcomp' hd (fun i c sid' hc ht sid'' T' hreach =>
      hwithin sid'' T' (.head ⟨T, i, c, hT, hc, ht⟩ hreach))) hinit
  obtain ⟨mid', hgrown⟩ := hdone.grown
  have hnum : (CellTypeID.soft sid).getOutNum (SubnetType.library types) = T.subnet.nOut := by
    simp [CellTypeID.getOutNum, SubnetType.library, SubnetType.outNums, hT, hnOut]
  refine ⟨s', os, mid', hrun, hgrown, ⟨hdone.le, hdone.gates, fun out ho => ?_, hdone.counts⟩, ?_,
    fun out ho off hoff => ?_⟩
  · rw [hnum] at ho
    obtain ⟨l, -, hget, ⟨hv, hval⟩, hout⟩ := hdone.passed hwf hos ho
    refine ⟨_, hget, hv, fun lib x ρ hρ => ?_⟩
    obtain ⟨σ, hσ, hσval⟩ := hwf.exists_values (SubnetType.library types) (linkInputs ls ρ)
    have hb := hwf.bounds
    obtain ⟨c, hc⟩ := Option.isSome_iff_exists.mp (hwf.ends (T.subnet.getOutIdx out)
      (.inr (Nat.le_add_right _ _)) (by rw [Subnet.getOutIdx]; omega))
    rw [hval lib x ρ σ hρ hσ, hout _ σ hσ, CellTypeID.eval, hcons.library_eval hT]
    change _ = (T.subnet.value _ (linkInputs ls ρ) _ 0).getD false
    rw [hσval _ c hc, getD_some]
  · have hpos : ∃ n, types.length = n + 1 :=
      Nat.exists_eq_succ_of_ne_zero (fun hzero => by
        rw [eq_nil_of_length_eq_zero hzero] at hT
        cases hT)
    obtain ⟨n, hsucc⟩ := hpos
    have hsid : sid < types.length := (List.getElem?_eq_some_iff.mp hT).1
    have hspan : cellSpan types types.length ⟨.soft sid, ls, 0⟩ = T.subnet.spanBefore
        (cellSpan types types.length) (T.subnet.size - T.subnet.nOut) := by
      conv_lhs =>
        rw [hsucc]
        simp only [cellSpan, hT, map_some, getD_some]
      apply spanBefore_congr
      intro i c hc
      apply cellSpan_stable hcons
      intro sid' ht
      have hlt' := (hcomp.soft i c sid' hc ht).1
      omega
    rw [hspan]
    exact hdone.size
  · rw [hnum] at ho
    obtain ⟨l, hgetOut, hget, -⟩ := hdone.passed hwf hos ho
    simp only [outputOffset, hT, hgetOut, Option.bind_eq_bind, Option.bind_some] at hoff
    split at hoff
    · rename_i hcond
      obtain ⟨hin, hport, hinv⟩ := hcond
      obtain rfl := some.inj hoff
      rw [hget, shift_inner (Nat.not_lt.mpr hin), hport, hinv, Nat.add_comm s.size,
        ← Nat.sub_add_comm hin]
    · cases hoff

/-- Cells of aligned types are expanded, whatever their nesting. -/
theorem expands (hcons : SubnetType.Consistent types)
    (hA : ∀ (sid : ℕ) (T : SubnetType), types[sid]? = some T → T.subnet.Arranged) :
    ∀ d, Expands types d := by
  intro d
  induction d with
  | zero =>
    intro t ls s ins mid outs h hl ⟨hneg, hin, hout, hsoft⟩
    have hns : ∀ sid, t ≠ .soft sid := fun sid ht => absurd (hsoft sid ht).1 (Nat.not_lt_zero sid)
    have hrun : s.addCellNested types (fun _ => true) 0 t ls = s.addMultiOutputCell types t ls := by
      cases t with
      | soft sid => exact absurd rfl (hns sid)
      | _ => rfl
    rw [hrun]
    exact h.expandGate hl hneg hin hout hns
  | succ d ih =>
    intro t ls s ins mid outs h hl ⟨hneg, hin, hout, hsoft⟩
    cases t with
    | soft sid =>
      obtain ⟨hlt, hnum, hwithin⟩ := hsoft sid rfl
      obtain ⟨T, hT, hnum⟩ := Option.map_eq_some_iff.mp hnum
      obtain ⟨s', os, mid', hrun, hgrown, hexp, hplaced⟩ :=
        h.expandSoft hcons hA ih hl hT hlt hnum hwithin
      refine ⟨s', os, mid', ?_, hgrown, hexp, fun _ => hplaced⟩
      rw [addCellNested, hT]
      exact hrun
    | _ => exact h.expandGate hl hneg hin hout (fun sid ht => by cases ht)

end UtopiaEda.SubnetBuilder
