import UtopiaEda.Inlining
import UtopiaEda.SubnetEncoding

/-!
# The unmapper preserves networks with aligned implementations

The inputs are visited first and the outputs last. A cell with an implementation that is not
aligned can be linked to a wrong entry: an inverter at the output of a nested
implementation gets lost.
-/
namespace UtopiaEda.SubnetUnmapper

open List
open Option (bind_eq_bind bind_some isSome_iff_exists map_some some.inj)
open SubnetBuilder Subnet

variable {types : List SubnetType} {S : Subnet} {s new new' : SubnetBuilder}
  {links links' : LinkMap} {i : EntryID} {c cell : SubnetCell} {os : List Link}
  {ins mid outs : List EntryID} {done : EntryID → Prop} {P : Gate → Prop} {lib : CellLibrary}

def Unmaps (types : List SubnetType) (S : Subnet) (result : Option SubnetBuilder) : Prop :=
  ∃ new, result = some new ∧ (∀ i g, new.netlist i = some g → ∀ sid, g.type ≠ .soft sid) ∧
    Implements (SubnetType.library types) S new

/-- A network with cells that have implementations, nested to any depth. -/
structure Mapped (types : List SubnetType) (S : Subnet) : Prop where
  consistent : SubnetType.Consistent types
  implementations : ∀ (sid : ℕ) (T : SubnetType), types[sid]? = some T → T.subnet.Arranged
  subnet : S.Arranged
  composed : S.Composed types types.length

structure Recorded (links links' : LinkMap) (i : EntryID) (os : List Link) (n : ℕ) : Prop where
  new : ∀ out < n, links' ⟨i, out, false⟩ = os[out]?
  later : ∀ out, n ≤ out → links' ⟨i, out, false⟩ = none
  other : ∀ l : Link, l.idx ≠ i ∨ l.inv = true → links' l = links l

private theorem emplace_outs {n : ℕ} (hfresh : ∀ l : Link, l.idx = i → links l = none)
    (hos : ∀ out < n, (os[out]?).isSome) :
    ∃ links', (range n).foldlM (fun links out => do
      some (emplace links ⟨i, out, false⟩ (← os[out]?))) links = some links' ∧
        Recorded links links' i os n := by
  induction n with
  | zero =>
    exact ⟨links, rfl, fun out h => absurd h (Nat.not_lt_zero out), fun out _ => hfresh _ rfl,
      fun _ _ => rfl⟩
  | succ n ih =>
    obtain ⟨links₁, hrun, h₁⟩ := ih (fun out ho => hos out (Nat.lt_succ_of_lt ho))
    obtain ⟨k, hk⟩ := isSome_iff_exists.mp (hos n (Nat.lt_succ_self n))
    have hemplace : emplace links₁ ⟨i, n, false⟩ k = Function.update links₁ ⟨i, n, false⟩
        (some k) := by
      rw [emplace, h₁.later n (Nat.le_refl n)]
      rfl
    refine ⟨Function.update links₁ ⟨i, n, false⟩ (some k), ?_, fun out ho => ?_, fun out ho => ?_,
      fun l hl => ?_⟩
    · rw [range_succ, foldlM_append, hrun]
      simp only [bind_eq_bind, bind_some, foldlM_cons, foldlM_nil, hk, hemplace,
        Option.pure_def]
    · rcases Nat.lt_succ_iff_lt_or_eq.mp ho with ho | rfl
      · rw [Function.update_of_ne (by simp [Nat.ne_of_lt ho]), h₁.new out ho]
      · rw [Function.update_self, hk]
    · have hne : out ≠ n := Nat.ne_of_gt ho
      rw [Function.update_of_ne (by simp [hne]), h₁.later out (Nat.le_of_succ_le ho)]
    · have hne : l ≠ ⟨i, n, false⟩ := by
        intro he
        rw [he] at hl
        exact hl.elim (fun h => h rfl) (fun h => Bool.noConfusion h)
      rw [Function.update_of_ne hne, h₁.other l hl]

def translate (links : LinkMap) (l : Link) : Link :=
  ((links ⟨l.idx, l.out, false⟩).map (fun k => ⟨k.idx, k.out, k.inv != l.inv⟩)).getD l

private theorem translate_links (h : Translation lib S P links done new ins mid outs)
    (hc : S.getCell i = some c) (hdone : ∀ l ∈ c.links, done l.idx) :
    List.Forall₂ (Translated lib S new) c.links (c.links.map (translate links)) ∧
      ∀ l ∈ c.links, ∃ k, links ⟨l.idx, l.out, false⟩ = some k := by
  have hlink : ∀ l ∈ c.links, ∃ k, links ⟨l.idx, l.out, false⟩ = some k ∧
      Translated lib S new ⟨l.idx, l.out, false⟩ k :=
      fun l hl => h.carried l ⟨i, c, hc, hl⟩ (hdone l hl)
  constructor
  · rw [forall₂_map_right_iff, forall₂_same]
    intro l hl
    obtain ⟨k, hk, htr⟩ := hlink l hl
    rw [translate, hk]
    exact htr.invert
  · intro l hl
    obtain ⟨k, hk, -⟩ := hlink l hl
    exact ⟨k, hk⟩

private theorem mapCell_eq (hread : s.LinksRead) (hlive : s.liveCell i = some cell)
    (hlinks : ∀ l ∈ cell.links, ∃ k, links ⟨l.idx, l.out, false⟩ = some k)
    (hadd : new.addCellRecursively types cell.type (cell.links.map (translate links))
      (fun _ => true) = some (new', os))
    (hfresh : ∀ l : Link, l.idx = i → links l = none)
    (hos : ∀ out < cell.type.getOutNum (SubnetType.library types), (os[out]?).isSome) :
    ∃ links', mapCell types s i new links = some (new', links') ∧
      Recorded links links' i os (cell.type.getOutNum (SubnetType.library types)) := by
  have hcell := getCell_of_live hlive
  have hin : (range cell.arity).mapM (newInLink s links i) =
      some (cell.links.map (translate links)) := by
    apply Netlist.mapM_range_eq_some
    intro j hj
    obtain ⟨k, hk⟩ := hlinks cell.links[j] (getElem_mem hj)
    rw [newInLink, hread i cell hlive j hj, bind_eq_bind, bind_some, translate, hk]
    rfl
  obtain ⟨links', hrun, hrec⟩ := emplace_outs hfresh hos
  refine ⟨links', ?_, hrec⟩
  simp only [mapCell, hcell, hin, hadd, bind_eq_bind, bind_some]
  simp only [bind_eq_bind] at hrun
  rw [hrun]
  rfl

private theorem mapCells_append : ∀ (is js : List EntryID) (new : SubnetBuilder) (links : LinkMap),
    mapCells types s (is ++ js) new links =
      (mapCells types s is new links).bind (fun p => mapCells types s js p.1 p.2)
  | [], _, _, _ => rfl
  | i :: is, js, new, links => by
    rw [cons_append, mapCells, mapCells]
    cases mapCell types s i new links with
    | none => rfl
    | some p => exact mapCells_append is js p.1 p.2

private theorem addCellRecursively_gate {t : CellTypeID} {ls : List Link}
    (h : ∀ sid, t ≠ .soft sid) : new.addCellRecursively types t ls (fun _ => true) =
    new.addMultiOutputCell types t ls := by
  rw [addCellRecursively]
  cases t with
  | soft sid => exact absurd rfl (h sid)
  | _ => cases types.length <;> rfl

private theorem exists_cell (hnet : s.netlist = S.netlist) (hc : S.getCell i = some c) :
    ∃ cell, s.liveCell i = some cell ∧ cell.type = c.type ∧ cell.links = c.links := by
  have hg : s.netlist i = some ⟨c.type, c.links⟩ := by rw [hnet, Subnet.netlist, hc, map_some]
  exact liveCell_of_netlist hg

private abbrev IsLogical (g : Gate) : Prop := ∀ sid, g.type ≠ .soft sid

private theorem mapInputs (hS : S.WellFormed) (hnet : s.netlist = S.netlist) (hread : s.LinksRead) :
    ∀ {n k : ℕ} {new : SubnetBuilder} {links : LinkMap}, k + n = S.nIn → new.size = k →
    Translation lib S IsLogical links (· < k) new (range k) [] [] →
    (∀ l : Link, k ≤ l.idx → links l = none) →
    ∃ new' links', mapCells types s (range' k n) new links = some (new', links') ∧
      Translation lib S IsLogical links' (· < S.nIn) new' (range S.nIn) [] [] ∧
      ∀ l : Link, S.nIn ≤ l.idx → links' l = none := by
  intro n
  induction n with
  | zero =>
    intro k new links hk _ h hfresh
    obtain rfl : k = S.nIn := hk
    exact ⟨new, links, rfl, h, hfresh⟩
  | succ n ih =>
    intro k new links hk hsize h hfresh
    have hkn : k < S.nIn := by omega
    have hlt : k < S.size := Nat.lt_of_lt_of_le hkn (Nat.le_trans (Nat.le_add_right _ _) hS.bounds)
    obtain ⟨c, hc⟩ := isSome_iff_exists.mp (hS.ends k (.inl hkn) hlt)
    have hin : c.type = .IN := (hS.input k c hc).mpr hkn
    obtain ⟨cell, hcell, hct, hcl⟩ := exists_cell hnet hc
    have hnil : cell.links = [] := hcl.trans (hS.noLinks k c hc hin)
    have hone : cell.type.getOutNum (SubnetType.library types) = 1 := by rw [hct, hin]; rfl
    have hin' : ∀ links' : LinkMap, links' ⟨k, 0, false⟩ = some ⟨k, 0, false⟩ → ∀ l, S.HasLink l →
        l.idx = k → links' ⟨l.idx, l.out, false⟩ = some ⟨k, 0, false⟩ := by
      intro links' hl' l ⟨j, a, ha, hmem⟩ hidx
      have hport : l.out = 0 := by
        rcases hS.port j a ha l hmem c (by rw [hidx]; exact hc) with h | ⟨sid, hsid⟩
        · exact h
        · rw [hin] at hsid
          cases hsid
      rw [hidx, hport, hl']
    have hstep : ∃ new' links', mapCell types s k new links = some (new', links') ∧
        new'.size = k + 1 ∧ Translation lib S IsLogical links' (· < k + 1) new' (range (k + 1))
        [] [] ∧ ∀ l : Link, k + 1 ≤ l.idx → links' l = none := by
      obtain ⟨s₁, hadd, -⟩ := h.grown.addInput
      have hrun : new.addCellRecursively types cell.type (cell.links.map (translate links))
          (fun _ => true) = some (s₁, [⟨new.size, 0, false⟩]) := by
        rw [hct, hin, hnil, addCellRecursively_gate (fun sid h => by cases h)]
        exact addMultiOutputCell_eq hadd
      obtain ⟨links', hmap, hrec⟩ := mapCell_eq (s := s) hread hcell (by rw [hnil]; simp) hrun
        (fun l hl => hfresh l (Nat.le_of_eq hl.symm)) (fun out ho => by
          rw [hone, Nat.lt_one_iff] at ho
          rw [ho]
          rfl)
      have hk0 : links' ⟨k, 0, false⟩ = some ⟨k, 0, false⟩ := by
        rw [hrec.new 0 (by rw [hone]; exact Nat.one_pos), ← hsize]
        rfl
      obtain ⟨s₂, hadd₂, hsize₂, htr⟩ := h.visitInput hc hin hsize
        (fun j (hj : j < k + 1) => Nat.lt_succ_iff_lt_or_eq.mp hj)
        (fun l _ hl => hrec.other ⟨l.idx, l.out, false⟩ (.inl (Nat.ne_of_lt hl))) (hin' links' hk0)
      have hs : s₁ = s₂ := by
        rw [hadd] at hadd₂
        simp only [Option.some.injEq, Prod.mk.injEq] at hadd₂
        exact hadd₂.1
      refine ⟨s₁, links', hmap, hs ▸ hsize₂, ?_, fun l hl => ?_⟩
      · rw [hs, range_succ]
        exact htr
      · rw [hrec.other l (.inl (Nat.ne_of_gt hl)), hfresh l (Nat.le_of_succ_le hl)]
    obtain ⟨new₁, links₁, hmap, hsize₁, h₁, hfresh₁⟩ := hstep
    obtain ⟨new', links', hrun, h', hfresh'⟩ := ih (k := k + 1) (by omega) hsize₁ h₁ hfresh₁
    refine ⟨new', links', ?_, h', hfresh'⟩
    rw [range'_succ, mapCells, hmap]
    exact hrun

private theorem mapGate {A : List EntryID} (hm : Mapped types S) (hnet : s.netlist = S.netlist)
    (hread : s.LinksRead) (h : Translation (SubnetType.library types) S IsLogical links (· ∈ A) new
    ins mid outs) (hfresh : ∀ l : Link, l.idx ∉ A → links l = none) (hi : i ∉ A)
    (hc : S.getCell i = some c) (hin : c.type ≠ .IN) (hout : c.type ≠ .OUT)
    (hbefore : ∀ l ∈ c.links, l.idx ∈ A) (haligned : ∀ sid, c.type = .soft sid →
    SubnetType.AlignedWithin types sid) : ∃ new' links' mid', mapCell types s i new links =
    some (new', links') ∧
      Translation (SubnetType.library types) S IsLogical links' (· ∈ A ++ [i]) new' ins mid' outs ∧
      ∀ l : Link, l.idx ∉ A ++ [i] → links' l = none := by
  obtain ⟨cell, hcell, hct, hcl⟩ := exists_cell hnet hc
  obtain ⟨htr, hlinks⟩ := translate_links h hc hbefore
  obtain ⟨new', os, mid', hadd, hgrown, hexp, -⟩ :=
    expands hm.consistent hm.implementations types.length
    h.grown (validLinks_of_translated htr) ⟨hm.subnet.wellFormed.positive i c hc, hin, hout,
    fun sid ht => by
      obtain ⟨hlt, hnum⟩ := hm.composed.soft i c sid hc ht
      rw [length_map]
      exact ⟨hlt, hnum, haligned sid ht⟩⟩
  have houtputs : c.type.getOutNum (SubnetType.library types) = c.outputs types := by
    unfold SubnetCell.outputs
    cases ht : c.type with
    | OUT => exact absurd ht hout
    | soft sid => rfl
    | _ => rfl
  obtain ⟨links', hmap, hrec⟩ := mapCell_eq (s := s) hread hcell
    (by rw [hcl]; exact hlinks) (by rw [hct, hcl]; exact hadd) (fun l hl => hfresh l (hl ▸ hi))
    (fun out ho => by
      rw [hct] at ho
      obtain ⟨l, hl, -⟩ := hexp.outs out ho
      rw [hl]
      rfl)
  refine ⟨new', links', mid', hmap, h.visit (i := i) hgrown hexp.le (fun j g hg => ?_)
    (fun j hj => ?_) (fun l _ hl => hrec.other ⟨l.idx, l.out, false⟩
    (.inl (fun he => hi (he ▸ hl)))) (fun l hl hidx => ?_), fun l hl => ?_⟩
  · rcases hexp.gates j g hg with hg | hg
    · exact .inl hg
    · exact .inr (.inr hg)
  · simpa using hj
  · obtain ⟨k, a, ha, hmem⟩ := hl
    have hport : l.out < c.type.getOutNum (SubnetType.library types) := by
      rw [houtputs]
      exact hm.composed.ports k a ha l hmem c (by rw [hidx]; exact hc)
    obtain ⟨m, hget, hv, hval⟩ := hexp.outs l.out hport
    refine ⟨m, ?_, hv, fun x ρ σ hρ hσ => ?_⟩
    · rw [hidx, hrec.new l.out (by rw [hct]; exact hport), hget]
    · have hg : S.netlist i = some ⟨c.type, c.links⟩ := by rw [Subnet.netlist, hc, map_some]
      rw [hval _ x ρ hρ, values_of_translated htr (Solves.mono hρ hexp.le) hσ, Link.value, hidx,
        hσ i _ hg, Netlist.gateValue, if_neg hin, Bool.xor_false]
  · rw [mem_append, mem_singleton, not_or] at hl
    rw [hrec.other l (.inl hl.2), hfresh l hl.1]

private theorem mapGates (hm : Mapped types S) (hnet : s.netlist = S.netlist)
    (hread : s.LinksRead) : ∀ {B A : List EntryID} {new : SubnetBuilder} {links : LinkMap}
    {mid : List EntryID}, Translation (SubnetType.library types) S IsLogical links (· ∈ A) new ins
    mid outs → (∀ l : Link, l.idx ∉ A → links l = none) → (A ++ B).Nodup →
    (∀ i ∈ B, ∃ c, S.getCell i = some c ∧ c.type ≠ .IN ∧ c.type ≠ .OUT ∧
      ∀ sid, c.type = .soft sid → SubnetType.AlignedWithin types sid) →
    (∀ C i D, A ++ B = C ++ i :: D → ∀ j, S.netlist.Fanin i j → j ∈ C) →
    ∃ new' links' mid', mapCells types s B new links = some (new', links') ∧
      Translation (SubnetType.library types) S IsLogical links' (· ∈ A ++ B) new' ins mid' outs ∧
      ∀ l : Link, l.idx ∉ A ++ B → links' l = none := by
  intro B
  induction B with
  | nil =>
    intro A new links mid h hfresh _ _ _
    rw [append_nil]
    exact ⟨new, links, mid, rfl, h, hfresh⟩
  | cons i B ih =>
    intro A new links mid h hfresh hnd hB hbefore
    obtain ⟨c, hc, hin, hout, haligned⟩ := hB i (mem_cons_self ..)
    have hg : S.netlist i = some ⟨c.type, c.links⟩ := by rw [Subnet.netlist, hc, map_some]
    have hi : i ∉ A := fun hi => (nodup_append.mp hnd).2.2 i hi i (mem_cons_self ..) rfl
    have happ : A ++ [i] ++ B = A ++ i :: B := by rw [append_assoc, singleton_append]
    obtain ⟨new₁, links₁, mid₁, hmap, h₁, hfresh₁⟩ := mapGate hm hnet hread h hfresh hi hc hin hout
      (fun l hl => hbefore A i B rfl l.idx ⟨_, hg, l, hl, rfl⟩) haligned
    obtain ⟨new', links', mid', hrun, h', hfresh'⟩ := ih h₁ hfresh₁ (happ ▸ hnd)
      (fun j hj => hB j (mem_cons_of_mem _ hj)) (fun C j D hl => hbefore C j D (happ ▸ hl))
    rw [happ] at h' hfresh'
    refine ⟨new', links', mid', ?_, h', hfresh'⟩
    rw [mapCells, hmap]
    exact hrun

private theorem mapOutputs {A : List EntryID} (hS : S.WellFormed) (hnet : s.netlist = S.netlist)
    (hread : s.LinksRead) (hfresh : ∀ l : Link, l.idx ∉ A → links l = none)
    (hA : ∀ k, S.getOutIdx k ∉ A) (hlinks : ∀ k < S.nOut, ∀ c, S.getCell (S.getOutIdx k) = some c →
    ∀ l ∈ c.links, l.idx ∈ A) : ∀ {n k : ℕ} {new : SubnetBuilder} {outs : List EntryID}, k + n =
    S.nOut → outs.length = k → Translation lib S IsLogical links (· ∈ A) new ins mid outs →
    ∃ new' outs', mapCells types s ((range' k n).map S.getOutIdx) new links =
    some (new', links) ∧
      outs'.length = S.nOut ∧ Translation lib S IsLogical links (· ∈ A) new' ins mid outs' := by
  intro n
  induction n with
  | zero =>
    intro k new outs hk hlen h
    exact ⟨new, outs, rfl, hlen.trans hk, h⟩
  | succ n ih =>
    intro k new outs hk hlen h
    have hkn : k < S.nOut := by omega
    obtain ⟨f, hf⟩ := exists_outLinks hS
    obtain ⟨-, c, hc, hout, hl⟩ := hf k hkn
    obtain ⟨cell, hcell, hct, hcl⟩ := exists_cell hnet hc
    obtain ⟨htr, hfound⟩ := translate_links h hc (hlinks k hkn c hc)
    rw [hl] at htr
    have htr₁ : Translated lib S new (f k) (translate links (f k)) := by
      cases htr with
      | cons h _ => exact h
    have hnone : ∀ l, S.HasLink l → l.idx ≠ S.getOutIdx k := by
      intro l ⟨j, a, ha, hmem⟩ hidx
      obtain ⟨-, c', hc', ht'⟩ := hS.links j a ha l hmem
      rw [hidx, hc] at hc'
      rw [← some.inj hc'] at ht'
      exact ht' hout
    obtain ⟨new₁, o, hadd, h₁⟩ := h.visitOutput (by rw [hlen]) hc hout hl htr₁
      (fun j (hj : j ∈ A) => .inl hj) (fun _ _ _ => rfl) hnone
    have hrun₁ : new.addCellRecursively types cell.type (cell.links.map (translate links))
        (fun _ => true) = some (new₁, [o]) := by
      rw [hct, hout, hcl, hl, addCellRecursively_gate (fun sid h => by cases h)]
      exact addMultiOutputCell_eq hadd
    have hzero : cell.type.getOutNum (SubnetType.library types) = 0 := by rw [hct, hout]; rfl
    have hmap : mapCell types s (S.getOutIdx k) new links = some (new₁, links) := by
      obtain ⟨links', hmap, hrec⟩ :=
        mapCell_eq (s := s) hread hcell (by rw [hcl]; exact hfound) hrun₁
        (fun l hidx => hfresh l (hidx ▸ hA k)) (fun out ho => by
          rw [hzero] at ho
          exact absurd ho (Nat.not_lt_zero out))
      have hsame : links' = links := by
        funext l
        by_cases hidx : l.idx ≠ S.getOutIdx k ∨ l.inv = true
        · exact hrec.other l hidx
        · simp only [not_or, ne_eq, Decidable.not_not, Bool.not_eq_true] at hidx
          have hl : l = ⟨S.getOutIdx k, l.out, false⟩ := by rw [← hidx.1, ← hidx.2]
          rw [hfresh l (hidx.1 ▸ hA k), hl]
          exact hrec.later l.out (by rw [hzero]; exact Nat.zero_le _)
      rw [hmap, hsame]
    obtain ⟨new', outs', hrun, hlen', h'⟩ := ih (k := k + 1) (by omega)
      (by rw [length_append, length_singleton, hlen]) h₁
    refine ⟨new', outs', ?_, hlen', h'⟩
    rw [range'_succ, map_cons, mapCells, hmap]
    exact hrun

/-- A network is rebuilt from gates if its implementations are aligned. -/
theorem map_unmaps (hm : Mapped types S) (hne : 0 < S.size)
    (haligned : ∀ i c sid, S.getCell i = some c → c.type = .soft sid →
      SubnetType.AlignedWithin types sid) :
    Unmaps types S ((ofSubnet types S).bind (map types)) := by
  have hwf := hm.subnet.wellFormed
  obtain ⟨s, mid, hs, hgrown, hnet, -, -, -⟩ := ofSubnet_eq types hm.subnet
  have hmem : ∀ i, i ∈ range S.nIn ++ mid ++ (range S.nOut).map S.getOutIdx ↔
      (S.getCell i).isSome := by
    intro i
    rw [hgrown.mem, hnet, Subnet.netlist, Option.isSome_map]
  have hnil : range S.nIn ++ mid ++ (range S.nOut).map S.getOutIdx ≠ [] :=
    ne_nil_of_mem ((hmem 0).mpr (hm.subnet.first hne))
  have hnd := hgrown.nodup
  have hread : s.LinksRead := by
    intro i c hc j hj
    exact hgrown.getLink hc hj
  have hmid : ∀ i ∈ mid, ∃ c, S.getCell i = some c ∧ c.type ≠ .IN ∧ c.type ≠ .OUT := by
    intro i hi
    obtain ⟨c, hc⟩ := isSome_iff_exists.mp ((hmem i).mp (by simp [hi]))
    have hg : s.netlist i = some ⟨c.type, c.links⟩ := by rw [hnet, Subnet.netlist, hc, map_some]
    refine ⟨c, hc, fun hin => ?_, fun hout => ?_⟩
    · have hi' := (hgrown.input i _ hg).mp hin
      rw [append_assoc] at hnd
      exact (nodup_append.mp hnd).2.2 i hi' i (mem_append_left _ hi) rfl
    · have hi' := (hgrown.output i _ hg).mp hout
      exact (nodup_append.mp hnd).2.2 i (mem_append_right _ hi) i hi' rfl
  have hbefore : ∀ C i D, range S.nIn ++ mid ++ (range S.nOut).map S.getOutIdx =
      C ++ i :: D →
      ∀ j, S.netlist.Fanin i j → j ∈ C := fun C i D hl j hij => hgrown.fanin_before hl (hnet ▸ hij)
  have hrange : (fun i : EntryID => i < S.nIn) = (· ∈ range S.nIn) := by
    funext i
    rw [mem_range]
  have hinit : Translation (SubnetType.library types) S IsLogical (fun _ => none) (· < 0) {}
      [] [] [] :=
    .init (fun i => Nat.not_lt_zero i)
  obtain ⟨new₁, links₁, hrun₁, h₁, hfresh₁⟩ :
      ∃ new' links', mapCells types s (range' 0 S.nIn) {} (fun _ => none) =
      some (new', links') ∧
        Translation (SubnetType.library types) S IsLogical links' (· < S.nIn) new'
        (range S.nIn) [] [] ∧ ∀ l : Link, S.nIn ≤ l.idx → links' l = none :=
    mapInputs hwf hnet hread (Nat.zero_add _) rfl hinit (fun _ _ => rfl)
  rw [hrange] at h₁
  obtain ⟨new₂, links₂, mid', hrun₂, h₂, hfresh₂⟩ := mapGates hm hnet hread h₁
    (fun l hl => hfresh₁ l (by simpa using hl)) (nodup_append.mp hnd).1
    (fun i hi => by
      obtain ⟨c, hc, hin, hout⟩ := hmid i hi
      exact ⟨c, hc, hin, hout, fun sid => haligned i c sid hc⟩)
    (fun C i D hl j hij => hbefore C i (D ++ (range S.nOut).map S.getOutIdx) (by
      rw [hl, append_assoc, cons_append]) j hij)
  have hout : ∀ k, S.getOutIdx k ∉ range S.nIn ++ mid := by
    intro k hk
    obtain ⟨c, hc⟩ := isSome_iff_exists.mp ((hmem _).mp (mem_append_left _ hk))
    have hg : s.netlist (S.getOutIdx k) = some ⟨c.type, c.links⟩ := by
      rw [hnet, Subnet.netlist, hc, map_some]
    have ht : c.type = .OUT := (hwf.output _ c hc).mpr (Nat.le_add_right _ _)
    exact (nodup_append.mp hnd).2.2 _ hk _ ((hgrown.output _ _ hg).mp ht) rfl
  obtain ⟨new₃, outs', hrun₃, hlen, h₃⟩ :
      ∃ new' outs', mapCells types s ((range' 0 S.nOut).map S.getOutIdx) new₂ links₂ =
          some (new', links₂) ∧ outs'.length = S.nOut ∧
          Translation (SubnetType.library types) S IsLogical
        links₂ (· ∈ range S.nIn ++ mid) new' (range S.nIn) mid' outs' :=
          mapOutputs hwf hnet hread hfresh₂ hout
    (fun k hk c hc l hl => by
      obtain ⟨-, c', hc', ht⟩ := hwf.links _ c hc l hl
      have hg : s.netlist l.idx = some ⟨c'.type, c'.links⟩ := by
        rw [hnet, Subnet.netlist, hc', map_some]
      rcases mem_append.mp ((hmem l.idx).mpr (by rw [hc']; rfl)) with hl | hl
      · exact hl
      · exact absurd ((hgrown.output _ _ hg).mpr hl) ht) (Nat.zero_add _) rfl h₂
  have hmap : map types s = some new₃ := by
    rw [map, hgrown.cellIDs hnil, bind_eq_bind, bind_some, mapCells_append, mapCells_append]
    rw [← range_eq_range'] at hrun₁ hrun₃
    simp only [hrun₁, hrun₂, hrun₃, bind_some, bind_eq_bind]
  refine ⟨new₃, ?_, fun i g hg sid ht => ?_, h₃.implements hwf hlen⟩
  · rw [hs]
    exact hmap
  · rcases h₃.gates i g hg with hg | hg | hg
    · rw [ht] at hg
      cases hg
    · rw [ht] at hg
      cases hg
    · exact hg sid ht

/-- A conjunction, with an inverter at the output if `inv` is set. -/
def gateType (inv : Bool) : SubnetType :=
  ⟨2, 1, ⟨2, 1, 4, 0, [.cell ⟨.IN, [], 1⟩, .cell ⟨.IN, [], 1⟩,
    .cell ⟨.AND, [⟨0, 0, false⟩, ⟨1, 0, false⟩], 1⟩, .cell ⟨.OUT, [⟨2, 0, inv⟩], 0⟩]⟩⟩

def wrapper (sid : ℕ) : Subnet :=
  ⟨2, 1, 4, 0, [.cell ⟨.IN, [], 1⟩, .cell ⟨.IN, [], 1⟩,
    .cell ⟨.soft sid, [⟨0, 0, false⟩, ⟨1, 0, false⟩], 1⟩, .cell ⟨.OUT, [⟨2, 0, false⟩], 0⟩]⟩

def nestedTypes (inv : Bool) : List SubnetType := [gateType inv, ⟨2, 1, wrapper 0⟩]

private theorem nestedTypes_cases {inv : Bool} {sid : ℕ} {T : SubnetType}
    (hT : (nestedTypes inv)[sid]? = some T) :
    (sid = 0 ∧ T = gateType inv) ∨ (sid = 1 ∧ T = ⟨2, 1, wrapper 0⟩) := by
  match sid, hT with
  | 0, hT => exact .inl ⟨rfl, (some.inj hT).symm⟩
  | 1, hT => exact .inr ⟨rfl, (some.inj hT).symm⟩

private theorem mapped_wrapper (inv : Bool) : Mapped (nestedTypes inv) (wrapper 1) := by
  have hgate : ∀ inv, (gateType inv).subnet.Encodable (nestedTypes inv) 0 := fun inv =>
    SubnetEncoder.encodable_of_check (by cases inv <;> decide)
  have hwrap : ∀ inv, (wrapper 0).Encodable (nestedTypes inv) 1 := fun inv =>
    SubnetEncoder.encodable_of_check (by cases inv <;> decide)
  have htop : (wrapper 1).Encodable (nestedTypes inv) 2 :=
    SubnetEncoder.encodable_of_check (by cases inv <;> decide)
  refine ⟨fun sid T hT => ?_, fun sid T hT => ?_, htop.arranged, htop.composed⟩
  · rcases nestedTypes_cases hT with ⟨rfl, rfl⟩ | ⟨rfl, rfl⟩
    · exact ⟨rfl, rfl, (hgate inv).composed⟩
    · exact ⟨rfl, rfl, (hwrap inv).composed⟩
  · rcases nestedTypes_cases hT with ⟨rfl, rfl⟩ | ⟨rfl, rfl⟩
    · exact (hgate inv).arranged
    · exact (hwrap inv).arranged

private theorem aligned_nestedTypes {sid : ℕ} {T : SubnetType}
    (hT : (nestedTypes false)[sid]? = some T) : T.subnet.Aligned (nestedTypes false) := by
  rcases nestedTypes_cases hT with ⟨rfl, rfl⟩ | ⟨rfl, rfl⟩ <;>
  · constructor
    · intro i c hc l hl hin c' hc'
      have hi := lt_of_getCell hc
      change i < 4 at hi
      match i, hi, hc with
      | 0, _, rfl => cases hl
      | 1, _, rfl => cases hl
      | 2, _, rfl =>
        rcases mem_cons.mp hl with rfl | hl
        · cases hin
        · obtain rfl := mem_singleton.mp hl
          exact absurd hin (by decide)
      | 3, _, rfl =>
        obtain rfl := mem_singleton.mp hl
        obtain rfl := some.inj hc'
        decide
    · intro i c hc
      have hi := lt_of_getCell hc
      change i < 4 at hi
      match i, hi, hc with
      | 0, _, rfl => decide
      | 1, _, rfl => decide
      | 2, _, rfl => decide
      | 3, _, rfl => decide

theorem map_unmaps_wrapper : Unmaps (nestedTypes false) (wrapper 1)
    ((ofSubnet (nestedTypes false) (wrapper 1)).bind (map (nestedTypes false))) :=
  map_unmaps (mapped_wrapper false) (by decide) (fun _ _ _ _ _ _ _ _ hT => aligned_nestedTypes hT)

/-- A negated conjunction inside another implementation loses its inverter. -/
theorem not_map_unmaps : ¬ ∀ types S, Mapped types S → 0 < S.size →
    Unmaps types S ((ofSubnet types S).bind (map types)) := by
  intro h
  obtain ⟨new, hnew, -, -, -, hvalues⟩ :=
    h (nestedTypes true) (wrapper 1) (mapped_wrapper true) (by decide)
  have hrun : ((ofSubnet (nestedTypes true) (wrapper 1)).bind (map (nestedTypes true))).map
      (fun s =>
      (s.inputIDs, s.outputIDs, s.value (SubnetType.library (nestedTypes true))
        (fun _ => false) 3 0, (wrapper 1).value (SubnetType.library (nestedTypes true))
        (fun _ => false) 3 0)) =
      some ([0, 1], [3], some false, some true) := by decide +kernel
  rw [hnew, map_some, Option.some.injEq, Prod.mk.injEq, Prod.mk.injEq, Prod.mk.injEq] at hrun
  obtain ⟨-, hout, hnewval, hval⟩ := hrun
  obtain ⟨b, hb, hb'⟩ := hvalues (fun _ => false) (fun _ => false)
    (fun _ _ _ => rfl) 0 3 (by rw [hout]; rfl)
  rw [hnewval] at hb
  rw [← some.inj hb] at hb'
  have hsome : (some true : Option Bool) = some false := hval.symm.trans hb'
  cases hsome

end UtopiaEda.SubnetUnmapper
