import UtopiaEda.CellReplacement
import UtopiaEda.Replacement

/-!
# The network after a replacement

The loop of `replace` only adds cells in front of the root until it replaces the root itself.
`Mapped` says that every processed cell of the right-hand side has a cell with the same
function in the builder, outside the transitive fanout of the root.
-/
namespace UtopiaEda.SubnetBuilder
open Incidence Finset List
open Option (bind_eq_some_iff isSome_iff_exists map_eq_some_iff)

variable {s s' s₁ b : SubnetBuilder} {i j k root idx : EntryID} {c : SubnetCell}
  {t : CellTypeID} {links : List Link} {D : Finset EntryID} {N : Netlist} {rhs : Subnet}

theorem NetInv.closed (h : NetInv s s.targets) (hij : s.netlist.Fanin i j) :
    ∃ g, s.netlist j = some g ∧ g.type ≠ .OUT := by
  obtain ⟨c, hc, ht⟩ := h.target i j (mem_targets.mpr hij)
  exact ⟨_, netlist_of_live hc, ht⟩

theorem NetInv.reaches_dead (h : NetInv s s.targets) (hj : s.netlist j = none)
    (hij : s.netlist.Reaches i j) : i = j := by
  cases hij with
  | refl => rfl
  | tail _ hkj =>
    obtain ⟨g, hg, -⟩ := h.closed hkj
    simp [hj] at hg

/-- What a cell reaches in a network with changed cells, when it does not reach those. -/
theorem reaches_of_agree {N' : Netlist} {A : EntryID → Prop} (hA : ∀ i, ¬ A i → N' i = N i)
    (hi : ∀ k, N.Reaches i k → ¬ A k) (hij : N'.Reaches i j) : N.Reaches i j := by
  induction hij with
  | refl => exact .refl
  | tail _ hkj ih =>
    refine ih.tail ?_
    obtain ⟨g, hg, hl⟩ := hkj
    exact ⟨g, hA _ (hi _ ih) ▸ hg, hl⟩

theorem Added.reaches (h : Added s s' t links idx) (hs : NetInv s s.targets)
    (hi : (s.netlist i).isSome) (hij : s'.netlist.Reaches i j) : s.netlist.Reaches i j := by
  rcases h.old with hnone | ⟨hsame, -⟩
  · refine reaches_of_agree (A := (· = idx)) (fun k hk => h.other k hk) (fun k hik hk => ?_) hij
    rw [hk] at hik
    rw [hs.reaches_dead hnone hik, hnone] at hi
    cases hi
  · refine reaches_of_agree (A := fun _ => False) (fun k _ => ?_) (fun _ _ hf => hf) hij
    by_cases hk : k = idx
    · rw [hk, hsame]
    · exact h.other k hk

theorem ValidLinks.netlist (h : s.ValidLinks links) {l : Link} (hl : l ∈ links) :
    ∃ g, s.netlist l.idx = some g ∧ g.type ≠ .OUT := by
  obtain ⟨c, hc, ht⟩ := h l hl
  exact ⟨_, netlist_of_live hc, ht⟩

theorem validLinks_of_netlist
    (h : ∀ l ∈ links, ∃ g, s.netlist l.idx = some g ∧ g.type ≠ .OUT) : s.ValidLinks links := by
  intro l hl
  obtain ⟨g, hg, ht⟩ := h l hl
  obtain ⟨c, hc, rfl⟩ := map_eq_some_iff.mp hg
  exact ⟨c, hc, ht⟩

theorem liveCell_of_netlist {g : Gate} (h : s.netlist i = some g) :
    ∃ c, s.liveCell i = some c ∧ c.type = g.type ∧ c.links = g.links := by
  obtain ⟨c, hc, rfl⟩ := map_eq_some_iff.mp h
  exact ⟨c, hc, rfl, rfl⟩

theorem lt_of_netlist {g : Gate} (h : s.netlist i = some g) : i < s.size := by
  obtain ⟨c, hc, -⟩ := liveCell_of_netlist h
  exact lt_of_live hc

theorem Added.acyclic (h : Added s s' t links idx) (hs : NetInv s s.targets)
    (hN : s.netlist.Acyclic) (hl : s.ValidLinks links) : s'.netlist.Acyclic := by
  rcases h.old with hnone | ⟨hsame, -⟩
  · obtain ⟨r, hr⟩ := hN
    obtain ⟨ls, hg, hkey⟩ := h.here
    have hmem : ∀ l ∈ ls, l ∈ links := fun l hl =>
      (StrashKey.make_eq hkey).2.1.mem_iff.mp hl
    have hfan : ∀ j, s'.netlist.Fanin idx j → ∃ l ∈ links, l.idx = j := by
      rintro j ⟨g', hg', l, hl', hlj⟩
      rw [hg] at hg'
      cases hg'
      exact ⟨l, hmem l hl', hlj⟩
    refine AcyclicSystems.exists_rank_redirect (a := idx)
      (M := (links.map (fun l => r l.idx)).sum + 1) hr (fun i j hi hij => ?_)
      (fun j hj hreach => ?_) (fun j hj => ?_)
    · obtain ⟨g', hg', hrest⟩ := hij
      exact ⟨g', h.other i hi ▸ hg', hrest⟩
    · obtain ⟨l, hlm, rfl⟩ := hfan j hj
      obtain ⟨g', hg', -⟩ := hl.netlist hlm
      rw [hs.reaches_dead hnone hreach, hnone] at hg'
      cases hg'
    · obtain ⟨l, hlm, rfl⟩ := hfan j hj
      exact Nat.lt_succ_of_le (single_le_sum (by simp) _ (mem_map_of_mem hlm))
  · have : s'.netlist = s.netlist := by
      funext k
      by_cases hk : k = idx
      · rw [hk, hsame]
      · exact h.other k hk
    rw [this]
    exact hN

theorem Replaced.acyclic (h : Replaced s s' root t links D) (hN : s.netlist.Acyclic)
    (hnew : ∀ l ∈ links, ¬ s.netlist.Reaches l.idx root) : s'.netlist.Acyclic := by
  obtain ⟨r, hr⟩ := hN
  have hfan : ∀ j, s'.netlist.Fanin root j → ∃ l ∈ links, l.idx = j := by
    rintro j ⟨g, hg, l, hl, hlj⟩
    rw [h.netlist, if_pos rfl] at hg
    cases hg
    exact ⟨l, hl, hlj⟩
  refine AcyclicSystems.exists_rank_redirect (a := root)
    (M := (links.map (fun l => r l.idx)).sum + 1) hr (fun i j hi hij => ?_) (fun j hj hreach => ?_)
    (fun j hj => ?_)
  · obtain ⟨g, hg, hrest⟩ := hij
    rw [h.netlist, if_neg hi] at hg
    split at hg
    · cases hg
    · exact ⟨g, hg, hrest⟩
  · obtain ⟨l, hlm, rfl⟩ := hfan j hj
    exact hnew l hlm hreach
  · obtain ⟨l, hlm, rfl⟩ := hfan j hj
    exact Nat.lt_succ_of_le (single_le_sum (by simp) _ (mem_map_of_mem hlm))

theorem Added.of_old {g : Gate} (h : Added s s' t links idx) (hg : s.netlist i = some g) :
    s'.netlist i = some g := by
  by_cases hi : i = idx
  · subst hi
    rcases h.old with hnone | ⟨hsame, -⟩
    · rw [hnone] at hg
      cases hg
    · rw [hsame, hg]
  · rw [h.other i hi, hg]

/-- The arguments of `replace`: a single-output subnet, its inputs mapped to cells outside the
transitive fanout of the root. -/
structure Fits (s : SubnetBuilder) (rhs : Subnet) (iomapping : InOutMapping) (root : EntryID) :
    Prop where
  wellFormed : rhs.WellFormed
  inputs : rhs.nIn = iomapping.inputs.length
  outputs : rhs.nOut = 1
  target : iomapping.outputs.map Link.idx = [root]
  live : (s.netlist root).isSome
  leaf : ∀ l ∈ iomapping.inputs, (∃ g, s.netlist l.idx = some g ∧ g.type ≠ .OUT) ∧
    ¬ s.netlist.Reaches l.idx root

structure Mapped (s : SubnetBuilder) (rhs : Subnet) (root : EntryID) (leaf : EntryID → EntryID)
    (i : EntryID) (st : Replacing) : Prop where
  net : NetInv st.builder st.builder.targets
  acyclic : st.builder.netlist.Acyclic
  enabled : st.builder.fanoutsEnabled = s.fanoutsEnabled
  old : ∀ j g, s.netlist j = some g → st.builder.netlist j = some g
  notHashed : ∀ k, st.builder.strash k ≠ some root
  input : ∀ j < rhs.nIn, st.rhsToLhs j = leaf j
  cell : ∀ j < i, ∀ c, rhs.getCell j = some c →
    (∃ g, st.builder.netlist (st.rhsToLhs j) = some g ∧ g.type ≠ .OUT) ∧
      ¬ st.builder.netlist.Reaches (st.rhsToLhs j) root
  gate : ∀ j < i, rhs.nIn ≤ j → ∀ c, rhs.getCell j = some c → ∃ ls,
    st.builder.netlist (st.rhsToLhs j) = some ⟨c.type, ls⟩ ∧
      StrashKey.make c.type ls = StrashKey.make c.type (st.mapLinks c.links)

variable {leaf : EntryID → EntryID} {st st' : Replacing}

theorem Mapped.valid (h : Mapped s rhs root leaf i st) (hwf : rhs.WellFormed)
    (hc : rhs.getCell i = some c) : st.builder.ValidLinks (st.mapLinks c.links) ∧
      ∀ l ∈ st.mapLinks c.links, ¬ st.builder.netlist.Reaches l.idx root := by
  have hmem : ∀ l ∈ st.mapLinks c.links, (∃ g, st.builder.netlist l.idx = some g ∧ g.type ≠ .OUT) ∧
      ¬ st.builder.netlist.Reaches l.idx root := by
    intro l hl
    obtain ⟨k, hk, rfl⟩ := mem_map.mp hl
    obtain ⟨hlt, c', hc', -⟩ := hwf.links i c hc k hk
    exact h.cell k.idx hlt c' hc'
  exact ⟨validLinks_of_netlist (fun l hl => (hmem l hl).1), fun l hl => (hmem l hl).2⟩

private theorem mapLinks_update {found : Bool} (hwf : rhs.WellFormed)
    (hc : rhs.getCell j = some c) (hj : j ≤ i) :
    (Replacing.mk b (Function.update st.rhsToLhs i idx) found).mapLinks c.links =
      st.mapLinks c.links := by
  refine map_congr_left (fun l hl => ?_)
  have hlt := (hwf.links j c hc l hl).1
  exact congrArg (fun k => Link.mk k l.out l.inv)
    (Function.update_of_ne (Nat.ne_of_lt (Nat.lt_of_lt_of_le hlt hj)) _ _)

theorem Mapped.add {r : Link} {found : Bool} (h : Mapped s rhs root leaf i st)
    (hwf : rhs.WellFormed) (hroot : (s.netlist root).isSome) (hc : rhs.getCell i = some c)
    (hi : rhs.nIn ≤ i) (hout : c.type ≠ .OUT)
    (hadd : st.builder.addCell c.type (st.mapLinks c.links) = some (b, r)) :
    Mapped s rhs root leaf (i + 1) ⟨b, Function.update st.rhsToLhs i r.idx, found⟩ := by
  obtain ⟨hvalid, hreach⟩ := h.valid hwf hc
  obtain ⟨hnet, -, hadded⟩ := h.net.of_addCell hvalid hadd
  obtain ⟨groot, hgroot⟩ := isSome_iff_exists.mp hroot
  have hroot' := h.old root groot hgroot
  have hne : r.idx ≠ root := by
    intro heq
    rcases hadded.old with hnone | ⟨-, hk⟩
    · rw [heq, hroot'] at hnone
      cases hnone
    · exact h.notHashed _ (heq ▸ hk)
  obtain ⟨ls, hls, hkey⟩ := hadded.here
  have hnew : ¬ b.netlist.Reaches r.idx root := by
    intro hback
    rcases Relation.ReflTransGen.cases_head hback with heq | ⟨k, ⟨g, hg, l, hl, hlk⟩, hk⟩
    · exact hne heq
    · rw [hls] at hg
      cases hg
      have hl' := (StrashKey.make_eq hkey).2.1.mem_iff.mp hl
      obtain ⟨g', hg', -⟩ := hvalid.netlist hl'
      refine hreach l hl' (hadded.reaches h.net (by simp [hg']) ?_)
      rw [hlk]
      exact hk
  have hlt : ∀ j, j < i + 1 → j ≠ i → j < i := fun j hj hne =>
    Nat.lt_of_le_of_ne (Nat.lt_succ_iff.mp hj) hne
  refine ⟨hnet, hadded.acyclic h.net h.acyclic hvalid, hadded.enabled.trans h.enabled,
    fun j g hg => hadded.of_old (h.old j g hg), fun k hk => ?_, fun j hj => ?_, fun j hj a ha => ?_,
    fun j hj hin a ha => ?_⟩
  · rcases hadded.strash k root hk with hk | hk
    exacts [h.notHashed k hk, hne hk.symm]
  · exact (Function.update_of_ne (Nat.ne_of_lt (Nat.lt_of_lt_of_le hj hi)) _ _).trans (h.input j hj)
  · by_cases hji : j = i
    · subst hji
      rw [hc] at ha
      cases ha
      simp only [Function.update_self]
      exact ⟨⟨_, hls, hout⟩, hnew⟩
    · simp only [Function.update_of_ne hji]
      obtain ⟨⟨g, hg, ht⟩, hback⟩ := h.cell j (hlt j hj hji) a ha
      exact ⟨⟨g, hadded.of_old hg, ht⟩, fun hr => hback (hadded.reaches h.net (by simp [hg]) hr)⟩
  · rw [mapLinks_update hwf ha (Nat.lt_succ_iff.mp hj)]
    by_cases hji : j = i
    · subst hji
      rw [hc] at ha
      cases ha
      simp only [Function.update_self]
      exact ⟨ls, hls, hkey⟩
    · simp only [Function.update_of_ne hji]
      obtain ⟨ls', hls', hkey'⟩ := h.gate j (hlt j hj hji) hin a ha
      exact ⟨ls', hadded.of_old hls', hkey'⟩

structure RootReplaced (b s' : SubnetBuilder) (root : EntryID) (t : CellTypeID)
    (links : List Link) : Prop where
  net : NetInv s' s'.targets
  valid : b.ValidLinks links
  acyclic : ∀ l ∈ links, ¬ b.netlist.Reaches l.idx root
  replaced : ∃ D, Replaced b s' root t links D

theorem Mapped.replaceCell {r : Link} (h : Mapped s rhs root leaf i st)
    (hroot : (s.netlist root).isSome) (hvalid : st.builder.ValidLinks links)
    (hnew : ∀ l ∈ links, ¬ st.builder.netlist.Reaches l.idx root)
    (hrep : st.builder.replaceCell root t links = some (s', r)) :
    RootReplaced st.builder s' root t links := by
  obtain ⟨g, hg⟩ := isSome_iff_exists.mp hroot
  obtain ⟨a, ha, -⟩ := liveCell_of_netlist (h.old root g hg)
  obtain ⟨-, hnet, hD⟩ := h.net.of_replaceCell h.acyclic ha hvalid hnew hrep
  exact ⟨hnet, hvalid, hnew, hD⟩

theorem replaceStep_cases {rootIsOut : Bool} {out : Link}
    (h : replaceStep root rootIsOut out i c st = some st') :
    ∃ found b r, st' = ⟨b, Function.update st.rhsToLhs i r.idx, found⟩ ∧
      (rootIsOut = true → found = st.rootFound) ∧
      (¬ (out.idx = i ∧ out.inv = false) → found = st.rootFound) ∧
      ((out.idx = i ∧ out.inv = false ∧ (rootIsOut = true ∨ found = false) ∧
          st.builder.replaceCell root c.type (st.mapLinks c.links) = some (b, r)) ∨
        ((out.idx = i → out.inv = false → rootIsOut = false ∧ found = true) ∧
          st.builder.addCell c.type (st.mapLinks c.links) = some (b, r))) := by
  simp only [replaceStep] at h
  generalize hfound : (if (out.idx = i ∧ out.inv = false) ∧ rootIsOut = false then
    (st.builder.strash (StrashKey.make c.type (st.mapLinks c.links))).isSome
    else st.rootFound) = found at h
  have hkeep : ¬ ((out.idx = i ∧ out.inv = false) ∧ rootIsOut = false) → found = st.rootFound :=
    fun hc => hfound.symm.trans (if_neg hc)
  split at h
  · cases h
  · split at h
    · rename_i hcond
      obtain ⟨⟨b, r⟩, hrep, h⟩ := bind_eq_some_iff.mp h
      cases h
      exact ⟨found, b, r, rfl, fun hr => hkeep (by simp [hr]), fun hn => absurd hcond.1 hn,
        .inl ⟨hcond.1.1, hcond.1.2, hcond.2, hrep⟩⟩
    · rename_i hcond
      obtain ⟨⟨b, r⟩, hadd, h⟩ := bind_eq_some_iff.mp h
      cases h
      refine ⟨found, b, r, rfl, fun hr => hkeep (by simp [hr]), fun hn => hkeep (fun hc => hn hc.1),
        .inr ⟨fun hi hinv => ?_, hadd⟩⟩
      · have hnot := fun hor => hcond ⟨⟨hi, hinv⟩, hor⟩
        exact ⟨by simpa using fun hr => hnot (.inl hr), by simpa using fun hf => hnot (.inr hf)⟩

/-- Where the link of the output leads: for a root that is an output, to the output of `rhs`
itself; otherwise no cell stands between its driver and the output, unless the root gets a
buffer anyway. -/
structure Driver (rhs : Subnet) (rootIsOut : Bool) (out : Link) : Prop where
  self : rootIsOut = true → out = ⟨rhs.size - 1, 0, false⟩
  lt : rootIsOut = false → out.idx < rhs.size - 1
  last : rootIsOut = false → out.inv = true ∨ out.idx < rhs.nIn ∨ out.idx + 2 = rhs.size

inductive LoopEnd (s : SubnetBuilder) (rhs : Subnet) (root : EntryID) (leaf : EntryID → EntryID)
    (rootIsOut : Bool) (out : Link) (st' : Replacing) : Prop where
  | added (mapped : Mapped s rhs root leaf (rhs.size - 1) st') (notOut : rootIsOut = false)
      (found : rhs.nIn ≤ out.idx → out.inv = false → st'.rootFound = true)
  | inPlace (st : Replacing) (c : SubnetCell) (mapped : Mapped s rhs root leaf out.idx st)
      (cell : rhs.getCell out.idx = some c) (le : rhs.nIn ≤ out.idx) (inv : out.inv = false)
      (found : st'.rootFound = false)
      (replaced : RootReplaced st.builder st'.builder root c.type (st.mapLinks c.links))

theorem Mapped.of_replaceLoop {rootIsOut : Bool} {out : Link} (hwf : rhs.WellFormed)
    (hroot : (s.netlist root).isSome) (hnOut : rhs.nOut = 1) (hdrv : Driver rhs rootIsOut out) :
    ∀ {n i : ℕ} {st : Replacing}, i + n + 1 = rhs.size → rhs.nIn ≤ i →
    Mapped s rhs root leaf i st → (rootIsOut = true → st.rootFound = false) →
    (out.idx < i → rhs.nIn ≤ out.idx → out.inv = false → st.rootFound = true) →
    replaceLoop rhs root rootIsOut out (range' i (n + 1)) st = some st' →
    LoopEnd s rhs root leaf rootIsOut out st' := by
  intro n
  induction n with
  | zero =>
    intro i st hn hin h hf hfound hloop
    rw [range'_succ, range'_zero, replaceLoop] at hloop
    obtain ⟨c, hc, hloop⟩ := bind_eq_some_iff.mp hloop
    have hisOut : c.isOut = true := by
      have := (hwf.output i c hc).mpr (by omega)
      simp [SubnetCell.isOut, this]
    cases hro : rootIsOut with
    | false =>
      rw [if_pos ⟨hisOut, hro⟩] at hloop
      cases hloop
      have hlt := hdrv.lt hro
      have hi : i = rhs.size - 1 := by omega
      subst hi
      exact .added h rfl (fun hle hinv => hfound hlt hle hinv)
    | true =>
      have hself := hdrv.self hro
      rw [if_neg (by simp [hro])] at hloop
      obtain ⟨st₁, hst₁, hloop⟩ := bind_eq_some_iff.mp hloop
      cases hloop
      have hi : i = out.idx := by
        rw [hself]
        change i = rhs.size - 1
        omega
      have hinv : out.inv = false := by rw [hself]
      subst hi
      obtain ⟨found, b, r, rfl, hfound₁, -, ⟨-, -, -, hrep⟩ | ⟨hno, -⟩⟩ := replaceStep_cases hst₁
      · obtain ⟨hvalid, hnew⟩ := h.valid hwf hc
        exact .inPlace st c h hc hin hinv ((hfound₁ hro).trans (hf hro))
          (h.replaceCell hroot hvalid hnew hrep)
      · have := (hno rfl hinv).1
        rw [hro] at this
        cases this
  | succ n ih =>
    intro i st hn hin h hf hfound hloop
    rw [range'_succ, replaceLoop] at hloop
    obtain ⟨c, hc, hloop⟩ := bind_eq_some_iff.mp hloop
    have hct : c.type ≠ .OUT := by
      intro ht
      have := (hwf.output i c hc).mp ht
      omega
    rw [if_neg (by simp [SubnetCell.isOut, hct])] at hloop
    obtain ⟨st₁, hst₁, hloop⟩ := bind_eq_some_iff.mp hloop
    obtain ⟨found, b, r, rfl, hfound₁, hfound₂, ⟨hi, hinv, hcond, hrep⟩ | ⟨hno, hadd⟩⟩ :=
      replaceStep_cases hst₁
    · have hro : rootIsOut = false := by
        cases hro : rootIsOut with
        | false => rfl
        | true =>
          have hlast : i = rhs.size - 1 := hi.symm.trans (by rw [hdrv.self hro])
          omega
      -- the driver is the last cell before the output, where the loop stops
      have hlast : i + 2 = rhs.size := by
        rcases hdrv.last hro with h₁ | h₁ | h₁
        · rw [hinv] at h₁
          cases h₁
        · have : i < rhs.nIn := hi ▸ h₁
          omega
        · exact hi ▸ h₁
      have hn0 : n = 0 := by omega
      subst hn0
      rw [range'_succ, replaceLoop] at hloop
      obtain ⟨cOut, hcOut, hloop⟩ := bind_eq_some_iff.mp hloop
      have hisOut : cOut.isOut = true := by
        have := (hwf.output _ cOut hcOut).mpr (by omega)
        simp [SubnetCell.isOut, this]
      rw [if_pos ⟨hisOut, hro⟩] at hloop
      cases hloop
      obtain ⟨hvalid, hnew⟩ := h.valid hwf hc
      subst hi
      exact .inPlace st c h hc hin hinv (hcond.resolve_left (by simp [hro]))
        (h.replaceCell hroot hvalid hnew hrep)
    · refine ih (by omega) (by omega) (h.add hwf hroot hc hin hct hadd)
        (fun hro => (hfound₁ hro).trans (hf hro)) (fun hlt hle hinv => ?_) hloop
      by_cases hi : out.idx = i
      · exact (hno hi hinv).2
      · exact (hfound₂ (fun hc => hi hc.1)).trans
          (hfound (Nat.lt_of_le_of_ne (Nat.lt_succ_iff.mp hlt) hi) hle hinv)

/-- The key of the root leaves the hash table: an input of `rhs` is mapped elsewhere, or the
root is not the entry 0 that a missing input is mapped to, or the table does not hold it. -/
def RootUnhashed (s : SubnetBuilder) (rhs : Subnet) (root : EntryID) : Prop :=
  0 < rhs.nIn ∨ root ≠ 0 ∨ ∀ c, s.liveCell root = some c → s.strash c.key ≠ some root

/-- No cell of `rhs` stands between the driver of the output and the output, unless the output
is inverted or driven by an input. -/
def DriverLast (rhs : Subnet) : Prop :=
  ∀ l, rhs.getLink (rhs.size - 1) 0 = some l → l.inv = true ∨ l.idx < rhs.nIn ∨ l.idx + 2 = rhs.size

variable {iomapping : InOutMapping}

/-- Where the inputs of `rhs` are mapped. -/
def leafOf (iomapping : InOutMapping) (j : EntryID) : EntryID :=
  ((iomapping.inputs.map Link.idx)[j]?).getD 0

theorem Fits.leafOf (h : Fits s rhs iomapping root) (hj : j < rhs.nIn) :
    (∃ g, s.netlist (leafOf iomapping j) = some g ∧ g.type ≠ .OUT) ∧
      ¬ s.netlist.Reaches (SubnetBuilder.leafOf iomapping j) root := by
  rw [h.inputs] at hj
  have hl : SubnetBuilder.leafOf iomapping j = (iomapping.inputs[j]).idx := by
    simp [SubnetBuilder.leafOf, hj]
  rw [hl]
  exact h.leaf _ (getElem_mem hj)

theorem Fits.nIn_lt (h : Fits s rhs iomapping root) : rhs.nIn + 1 ≤ rhs.size := by
  have := h.wellFormed.bounds
  rw [h.outputs] at this
  exact this

theorem Fits.outLink (h : Fits s rhs iomapping root) :
    ∃ l c, rhs.getLink (rhs.size - 1) 0 = some l ∧ l.idx < rhs.size - 1 ∧ rhs.getCell l.idx =
    some c := by
  have hsize := h.nIn_lt
  have hsome := h.wellFormed.ends (rhs.size - 1) (.inr (by rw [h.outputs])) (by omega)
  obtain ⟨a, ha⟩ := isSome_iff_exists.mp hsome
  have hat : a.type = .OUT := (h.wellFormed.output _ a ha).mpr (by rw [h.outputs])
  obtain ⟨l, hl⟩ := length_eq_one_iff.mp (h.wellFormed.outLink _ a ha hat)
  obtain ⟨hlt, c, hc, -⟩ := h.wellFormed.links _ a ha l (by simp [hl])
  exact ⟨l, c, by simp [Subnet.getLink, ha, hl], hlt, hc⟩

theorem Fits.fillMapping (h : Fits s rhs iomapping root) : ∃ f, fillMapping rhs iomapping = some f ∧
    f (rhs.size - 1) = root ∧ ∀ j < rhs.size - 1, f j = SubnetBuilder.leafOf iomapping j := by
  have hlen : iomapping.outputs.length = 1 := by
    simpa using congrArg length h.target
  refine ⟨_, if_pos ⟨h.inputs, h.outputs.trans hlen.symm⟩, ?_, fun j hj => ?_⟩
  · rw [h.outputs, h.target]
    simp
  · rw [h.outputs]
    exact if_neg (Nat.not_le.mpr hj)

theorem Fits.destrashRoot {f : EntryID → EntryID} (h : Fits s rhs iomapping root)
    (hs : NetInv s s.targets) (hkey : RootUnhashed s rhs root) (hroot : s.liveCell root = some c)
    (hf : ∀ j < rhs.size - 1, f j = SubnetBuilder.leafOf iomapping j) :
    ∃ table, s.destrashRoot f root = some { s with strash := table } ∧
      NetInv { s with strash := table } s.targets ∧ ∀ k, table k ≠ some root := by
  have hsize := h.nIn_lt
  unfold SubnetBuilder.destrashRoot
  split
  · obtain ⟨table, ht, hnet, hk⟩ := hs.destrash hroot
    exact ⟨table, ht, hnet, fun k hkr => ((hk k root).mp hkr).2 rfl⟩
  · rename_i hzero
    have hzero : f 0 = root := not_not.mp hzero
    refine ⟨s.strash, rfl, hs, fun k hk => ?_⟩
    obtain ⟨a, ha, -, hak⟩ := hs.strash k root hk
    rw [hroot] at ha
    cases ha
    by_cases hin : 0 < rhs.nIn
    · refine (h.leafOf hin).2 ?_
      rw [← hf 0 (by omega), hzero]
      exact .refl
    · rcases hkey with hin' | hne | hkey
      · exact hin hin'
      · obtain ⟨l, -, -, hlt, -⟩ := h.outLink
        have hempty : iomapping.inputs = [] := by
          rw [← length_eq_zero_iff, ← h.inputs]
          omega
        refine hne ?_
        rw [← hzero, hf 0 (Nat.lt_of_le_of_lt (Nat.zero_le _) hlt), SubnetBuilder.leafOf, hempty]
        rfl
      · exact hkey c hroot (hak ▸ hk)

theorem Fits.mapped {f : EntryID → EntryID} {table : StrashKey → Option EntryID}
    (h : Fits s rhs iomapping root) (hN : s.netlist.Acyclic)
    (hnet : NetInv { s with strash := table } s.targets) (htable : ∀ k, table k ≠ some root)
    (hf : ∀ j < rhs.size - 1, f j = SubnetBuilder.leafOf iomapping j) :
    Mapped s rhs root (SubnetBuilder.leafOf iomapping) rhs.nIn
      ⟨{ s with strash := table }, f, false⟩ := by
  have hsize := h.nIn_lt
  have hin : ∀ j < rhs.nIn, f j = SubnetBuilder.leafOf iomapping j := fun j hj => hf j (by omega)
  refine ⟨hnet, hN, rfl, fun _ _ hg => hg, htable, hin, fun j hj _ _ => ?_, fun j hj hle => ?_⟩
  · simp only [hin j hj]
    exact h.leafOf hj
  · exact absurd hle (Nat.not_le.mpr hj)

theorem Fits.driver {out : Link} (h : Fits s rhs iomapping root) {rootIsOut : Bool}
    (hlast : rootIsOut = false → DriverLast rhs) (hout : rhsOutLink rhs rootIsOut = some out) :
    Driver rhs rootIsOut out := by
  obtain ⟨l, -, hl, hlt, -⟩ := h.outLink
  cases rootIsOut with
  | true =>
    cases hout
    exact ⟨fun _ => rfl, by simp, by simp⟩
  | false =>
    have hlo : l = out := Option.some_inj.mp (hl.symm.trans hout)
    subst hlo
    exact ⟨by simp, fun _ => hlt, fun _ => hlast rfl l hl⟩

inductive NewRoot (rhs : Subnet) (out : Link) (st : Replacing) :
    EntryID → CellTypeID → List Link → Prop where
  | driver (c : SubnetCell) (cell : rhs.getCell out.idx = some c) (le : rhs.nIn ≤ out.idx)
      (inv : out.inv = false) : NewRoot rhs out st out.idx c.type (st.mapLinks c.links)
  | buf (link : rhs.getLink (rhs.size - 1) 0 = some out) :
      NewRoot rhs out st (rhs.size - 1) .BUF [⟨st.rhsToLhs out.idx, out.out, out.inv⟩]

theorem of_replace (hs : NetInv s s.targets) (hN : s.netlist.Acyclic)
    (hfit : Fits s rhs iomapping root) (hkey : RootUnhashed s rhs root)
    (hroot : s.liveCell root = some c) (hlast : c.isOut = false → DriverLast rhs)
    (h : s.replace rhs iomapping = some s') :
    ∃ out st i t links, rhsOutLink rhs c.isOut = some out ∧
      Mapped s rhs root (leafOf iomapping) i st ∧ NewRoot rhs out st i t links ∧
      RootReplaced st.builder s' root t links := by
  obtain ⟨f, hfill, hfroot, hf⟩ := hfit.fillMapping
  obtain ⟨table, htable, hnet, hfree⟩ := hfit.destrashRoot hs hkey hroot hf
  have hlen : iomapping.outputs.length = 1 := by
    simpa using congrArg length hfit.target
  simp only [replace, hlen, ne_eq, not_true_eq_false, if_false, hfill, Option.bind_eq_bind,
    Option.bind_some, hfroot, getCell_of_live hroot, htable] at h
  obtain ⟨out, hout, h⟩ := bind_eq_some_iff.mp h
  obtain ⟨st', hloop, h⟩ := bind_eq_some_iff.mp h
  have hsize := hfit.nIn_lt
  have hrange : range' rhs.nIn (rhs.size - rhs.nIn) =
      range' rhs.nIn (rhs.size - rhs.nIn - 1 + 1) := by
    congr 1
    omega
  rw [hrange] at hloop
  have hend := Mapped.of_replaceLoop hfit.wellFormed hfit.live hfit.outputs (hfit.driver hlast hout)
    (by omega) (Nat.le_refl _) (hfit.mapped hN hnet hfree hf) (fun _ => rfl)
    (fun hlt hle => absurd hlt (Nat.not_lt.mpr hle)) hloop
  cases hend with
  | added mapped notOut found =>
    obtain ⟨l, a, hl, hlt, ha⟩ := hfit.outLink
    rw [notOut] at hout
    have hlo : l = out := Option.some_inj.mp (hl.symm.trans hout)
    subst hlo
    obtain ⟨hcell, hreach⟩ := mapped.cell l.idx hlt a ha
    -- the root is still in place, so one of the reasons for a buffer applies
    have hcond : (l.idx < rhs.nIn ∧ st'.rhsToLhs 0 ≠ root) ∨ l.inv = true ∨ st'.rootFound =
        true := by
      by_cases hle : rhs.nIn ≤ l.idx
      · cases hinv : l.inv with
        | true => exact .inr (.inl rfl)
        | false => exact .inr (.inr (found hle hinv))
      · have hlt' := Nat.not_le.mp hle
        refine .inl ⟨hlt', fun heq => ?_⟩
        have hpos : 0 < rhs.nIn := Nat.lt_of_le_of_lt (Nat.zero_le _) hlt'
        refine (hfit.leafOf hpos).2 ?_
        rw [← mapped.input 0 hpos, heq]
        exact .refl
    rw [addBuf, if_pos hcond] at h
    obtain ⟨⟨b, r⟩, hrep, heq⟩ := map_eq_some_iff.mp h
    cases heq
    refine ⟨l, st', _, _, _, notOut ▸ hout, mapped, .buf hl,
      mapped.replaceCell hfit.live ?_ ?_ hrep⟩
    · exact validLinks_of_netlist (by simpa using hcell)
    · simpa using hreach
  | inPlace st a mapped cell le inv found replaced =>
    rw [addBuf, if_neg] at h
    · cases h
      exact ⟨out, st, _, _, _, hout, mapped, .driver a cell le inv, replaced⟩
    · rw [found, inv]
      simp only [Bool.false_eq_true, or_self, or_false, not_and]
      exact fun hlt => absurd hlt (Nat.not_lt.mpr le)

end UtopiaEda.SubnetBuilder
