import UtopiaEda.BuilderValues

/-!
# Growing builders

A builder none of whose entries was freed holds its cells in blocks: an entry for the cell, then
the entries of the links that do not fit. The order lists the inputs, then the other cells by
their depth, each with its block, and last the outputs. Adding a cell to such a builder
succeeds and keeps this.
-/
namespace UtopiaEda

open List
open Function (update update_self update_of_ne)
open Option (bind_eq_bind bind_eq_some_iff bind_some getD_some isSome_iff_exists)

def Gate.width (g : Gate) : ℕ := SubnetCell.more ⟨g.type, g.links, 0⟩ + 1

def Netlist.Le (N N' : Netlist) : Prop := ∀ i g, N i = some g → N' i = some g

theorem Netlist.Le.refl (N : Netlist) : N.Le N := fun _ _ h => h

theorem Netlist.Le.trans {N N' M : Netlist} (h : N.Le N') (h' : N'.Le M) : N.Le M :=
  fun i g hg => h' i g (h i g hg)

namespace SubnetBuilder
open EntryOrder RankedLists

variable {s s' s₁ : SubnetBuilder} {ins mid outs : List EntryID} {t : CellTypeID}
  {links : List Link} {i j : EntryID} {g : Gate}

def block (s : SubnetBuilder) (i : EntryID) : List EntryID :=
  range' i (((s.netlist i).map Gate.width).getD 1)

/-- No entry was freed; `ins` are the inputs, `outs` the outputs and `mid` the other cells, in
the order in which they are visited. -/
structure Grown (s : SubnetBuilder) (ins mid outs : List EntryID) : Prop where
  net : NetInv s s.targets
  kept : s.emptyEntryIDs = []
  mem : ∀ i, i ∈ ins ++ mid ++ outs ↔ (s.netlist i).isSome
  input : ∀ i g, s.netlist i = some g → (g.type = .IN ↔ i ∈ ins)
  output : ∀ i g, s.netlist i = some g → (g.type = .OUT ↔ i ∈ outs)
  noLinks : ∀ i g, s.netlist i = some g → g.type = .IN → g.links = []
  outLink : ∀ i g, s.netlist i = some g → g.type = .OUT → g.links.length = 1
  depth : ∀ i g, s.netlist i = some g → s.order.depth i = some (s.order.linksDepth g.links)
  stored : ∀ i g, s.netlist i = some g →
    Stored s.entries (range' (i + 1) (g.width - 1)) (g.links.drop InPlaceLinks)
  layered : ∃ dep, s.order.Layered dep (ins ++ mid.flatMap s.block) outs ∧
    (∀ i ∈ ins, dep i = 0) ∧ ∀ i ∈ mid, ∀ j ∈ s.block i, dep j = s.order.depthOf i
  assembled : s.order.Assembled
  cover : ∀ j < s.size, ∃ i, (s.netlist i).isSome ∧ j ∈ s.block i

theorem block_of_netlist (h : s.netlist i = some g) : s.block i = range' i g.width := by
  simp [block, h]

theorem mem_block_self : i ∈ s.block i := by
  unfold block
  cases h : s.netlist i with
  | none => simp
  | some g => simp [Gate.width, mem_range']

theorem Gate.width_of_le {g : Gate} (h : g.links.length ≤ InPlaceLinks) : g.width = 1 := by
  simp only [Gate.width, SubnetCell.more, SubnetCell.arity, InPlaceLinks, InEntryLinks] at *
  omega

theorem stored_of_le {f : EntryID → Entry} {a : EntryID} {g : Gate}
    (h : g.links.length ≤ InPlaceLinks) : Stored f (range' a (g.width - 1))
    (g.links.drop InPlaceLinks) := by
  rw [Gate.width_of_le h, drop_eq_nil_of_le h]
  rfl

theorem Grown.init : Grown {} [] [] [] := by
  refine ⟨NetOk.init.net, rfl, ?_, ?_, ?_, ?_, ?_, ?_, ?_, ⟨fun _ => 0, ?_, ?_, ?_⟩, fun _ _ => rfl,
    fun j hj => absurd hj (Nat.not_lt_zero j)⟩
  · intro i
    simp [SubnetBuilder.netlist, SubnetBuilder.liveCell, getCell, SubnetBuilder.size]
  all_goals try
    intro i g h
    simp [SubnetBuilder.netlist, SubnetBuilder.liveCell, getCell, SubnetBuilder.size] at h
  · refine ⟨⟨rfl, rfl, LinkedLists.linked_nil, by simp, nodup_nil⟩, List.Pairwise.nil, fun d => rfl⟩
  · simp
  · simp

theorem Grown.single (h : Grown s ins mid outs) (hi : i ∈ ins ∨ i ∈ outs) : s.block i = [i] := by
  have hlive : (s.netlist i).isSome := (h.mem i).mp (by simp; tauto)
  obtain ⟨g, hg⟩ := isSome_iff_exists.mp hlive
  have hlen : g.links.length ≤ InPlaceLinks := by
    rcases hi with hi | hi
    · rw [h.noLinks i g hg ((h.input i g hg).mpr hi)]
      exact Nat.zero_le _
    · rw [h.outLink i g hg ((h.output i g hg).mpr hi)]
      simp [InPlaceLinks]
  rw [block_of_netlist hg, Gate.width_of_le hlen]
  rfl

private theorem flatMap_single {l : List EntryID} (h : ∀ i ∈ l, s.block i = [i]) :
    l.flatMap s.block = l := by
  rw [flatMap_congr h]
  simp

/-- Inputs and outputs have no further entries. -/
theorem Grown.flatMap_block (h : Grown s ins mid outs) :
    (ins ++ mid ++ outs).flatMap s.block = ins ++ mid.flatMap s.block ++ outs := by
  rw [flatMap_append, flatMap_append, flatMap_single (fun i hi => h.single (.inl hi)),
    flatMap_single (fun i hi => h.single (.inr hi))]

theorem Grown.lists (h : Grown s ins mid outs) :
    s.order.Lists ((ins ++ mid ++ outs).flatMap s.block) := by
  obtain ⟨_, hlay, -⟩ := h.layered
  rw [h.flatMap_block]
  exact hlay.lists

theorem Grown.lt_of_mem_block (h : Grown s ins mid outs) (hg : s.netlist i = some g)
    (hj : j ∈ s.block i) : j < s.size := by
  apply h.lists.lt j
  exact mem_flatMap.mpr ⟨i, (h.mem i).mpr (by rw [hg]; rfl), hj⟩

private theorem filter_flatMap {l : List EntryID} {f : EntryID → List EntryID}
    {p q : EntryID → Bool} (h : ∀ i ∈ l, ∀ j ∈ f i, p j = q i) : (l.flatMap f).filter p =
    (l.filter q).flatMap f := by
  induction l with
  | nil => rfl
  | cons a l ih =>
    have ih := ih (fun i hi => h i (by simp [hi]))
    have ha := h a (by simp)
    rw [flatMap_cons, filter_append, ih]
    cases hq : q a with
    | true =>
      rw [filter_cons_of_pos hq, flatMap_cons,
        filter_eq_self.mpr (fun j hj => (ha j hj).trans hq)]
    | false =>
      have hnil : (f a).filter p = [] := by
        rw [filter_eq_nil_iff]
        intro j hj
        rw [ha j hj, hq]
        simp
      rw [filter_cons_of_neg (by simp [hq]), hnil, nil_append]

theorem addLinkEntries_eq {d : ℕ} {v : List EntryID} :
    ∀ {n : ℕ} {a : EntryID} {u : List EntryID} (links : List Link) {s : SubnetBuilder},
    s.order.Parted (u ++ [a]) v → s.size = a + 1 → (∀ i ∈ u ++ [a] ++ v, i ≤ a) →
    (s.order.depthBounds d).2 = .entry a →
    ∃ s', addLinkEntries d n a links s = some s' ∧
      s'.order.Parted (u ++ range' a (n + 1)) v ∧ s'.size = a + 1 + n ∧
      s'.order.depth = s.order.depth ∧ s'.order.depthBounds =
        update s.order.depthBounds d ((s.order.depthBounds d).1, .entry (a + n)) := by
  intro n
  induction n with
  | zero =>
    intro a u links s h hs _ hb
    refine ⟨s, rfl, by simpa using h, hs, rfl, ?_⟩
    rw [Nat.add_zero, ← hb]
    exact (Function.update_eq_self d _).symm
  | succ n ih =>
    intro a u links s h hs hle hb
    let o₁ : EntryOrder :=
      { s.order.setBounds d ((s.order.depthBounds d).1, .entry (a + 1)) with size := a + 2 }
    have hsize : s.order.size = a + 1 := hs
    have h₁ : o₁.Parted (u ++ [a]) v :=
      h.congr rfl rfl rfl rfl (by rw [hsize]; exact Nat.le_succ _)
    have hnew : a + 1 ∉ u ++ [a] ++ v := fun hmem => Nat.not_succ_le_self a (hle _ hmem)
    obtain ⟨o₂, ho₂, hs₂, h₂⟩ := h₁.extend hnew (Nat.lt_succ_self _)
    let s₂ : SubnetBuilder := { s with
      order := o₂
      entries := update s.entries (a + 1) (.links (links.take InEntryLinks)) }
    have hsize₂ : s₂.size = a + 1 + 1 := hs₂.size
    have hbounds₂ : s₂.order.depthBounds = update s.order.depthBounds d
        ((s.order.depthBounds d).1, .entry (a + 1)) := hs₂.bounds
    have hle₂ : ∀ i ∈ u ++ [a] ++ [a + 1] ++ v, i ≤ a + 1 := by
      intro i hi
      have hcases : i ∈ u ++ [a] ++ v ∨ i = a + 1 := by
        simp only [mem_append, mem_singleton] at hi ⊢
        tauto
      rcases hcases with hmem | rfl
      · exact Nat.le_succ_of_le (hle i hmem)
      · exact Nat.le_refl _
    obtain ⟨s', hs', hpart, hs'size, hdepth, hbounds⟩ :=
      ih (links.drop InEntryLinks) (s := s₂) h₂ hsize₂ hle₂ (by rw [hbounds₂, update_self])
    refine ⟨s', ?_, ?_, by rw [hs'size,
      Nat.add_right_comm (a + 1) 1 n]; rfl, hdepth.trans hs₂.depth, ?_⟩
    · simp only [addLinkEntries, hs, Nat.add_one_sub_one, hb, if_true]
      exact bind_eq_some_iff.mpr ⟨o₂, ho₂, hs'⟩
    · rw [range'_succ, ← singleton_append, ← append_assoc]
      exact hpart
    · rw [hbounds, hbounds₂, update_self, Function.update_idem]
      rw [Nat.add_right_comm a 1 n]
      rfl

private theorem assembled_addLinkEntries {d : ℕ} : ∀ {n : ℕ} {a : EntryID} {links : List Link}
    {s s' : SubnetBuilder}, addLinkEntries d n a links s = some s' → s.order.Assembled →
    s'.order.Assembled := by
  intro n
  induction n with
  | zero =>
    intro a links s s' h ho
    cases h
    exact ho
  | succ n ih =>
    intro a links s s' h ho
    simp only [addLinkEntries, bind_eq_bind] at h
    obtain ⟨o, hset, h⟩ := bind_eq_some_iff.mp h
    apply ih h
    refine Assembled.setOrder ?_ hset
    split
    · exact ho.congr rfl rfl
    · exact ho.congr rfl rfl

private theorem assembled_chainLinks {d : ℕ} {a : EntryID} (h : s.chainLinks d a t links = some s')
    (ho : s.order.Assembled) : s'.order.Assembled := by
  unfold chainLinks at h
  split at h
  · cases h
    exact ho
  · simp only [bind_eq_bind, bind_eq_some_iff] at h
    obtain ⟨n, -, s₁, hs₁, o, hset, h⟩ := h
    cases h
    exact (assembled_addLinkEntries hs₁ ho).setOrder hset

private theorem Extended.setOrder {o : EntryOrder} (h : Extended s s')
    (ho : o.size = s'.order.size) : Extended s { s' with order := o } := by
  have hs : ({ s' with order := o } : SubnetBuilder).size = s'.size := ho
  exact ⟨hs ▸ h.le, h.entries, fun i h₁ h₂ => h.links i h₁ (hs ▸ h₂), h.free, h.strash, h.fanouts,
    h.enabled, h.counts⟩

private theorem Extended.refl (s : SubnetBuilder) : Extended s s :=
  ⟨Nat.le_refl _, fun _ _ => rfl, fun _ h₁ h₂ => absurd h₁ (Nat.not_le.mpr h₂), rfl, rfl,
    rfl, rfl, rfl⟩

private theorem chainLinks_eq {dep : EntryID → ℕ} {l₁ l₂ : List EntryID} {idx : EntryID}
    (h : s.order.Layered dep (l₁ ++ idx :: l₂) outs) (hs : s.size = idx + 1)
    (h₂ : ∀ i ∈ l₂, dep idx < dep i) (hnew : ∀ j, idx ≤ j → dep j = dep idx) :
    ∃ s', s.chainLinks (dep idx) idx t links = some s' ∧
      s'.order.Layered dep (l₁ ++ range' idx (Gate.width ⟨t, links⟩) ++ l₂) outs ∧
      s'.order.depth = s.order.depth ∧ s'.size = idx + Gate.width ⟨t, links⟩ ∧ Extended s s' ∧
      Stored s'.entries (range' (idx + 1) (Gate.width ⟨t, links⟩ - 1))
      (links.drop InPlaceLinks) := by
  by_cases hlen : links.length ≤ InPlaceLinks
  · have hstored := stored_of_le (f := s.entries) (a := idx + 1)
      (show (⟨t, links⟩ : Gate).links.length ≤ _ from hlen)
    rw [Gate.width_of_le (show (⟨t, links⟩ : Gate).links.length ≤ _ from hlen)] at hstored ⊢
    refine ⟨s, by rw [chainLinks, if_pos hlen], by simpa using h, rfl, hs, Extended.refl s, hstored⟩
  · let n := SubnetCell.more ⟨t, links, 0⟩
    have hl : s.order.Lists ((l₁ ++ [idx]) ++ (l₂ ++ outs)) := by simpa using h.lists
    have hle : ∀ i ∈ (l₁ ++ [idx]) ++ (l₂ ++ outs), i ≤ idx := by
      intro i hi
      have hlt : i < s.size := hl.lt i hi
      rw [hs] at hlt
      exact Nat.le_of_lt_succ hlt
    have hnext : s.order.getNext (.entry idx) = some (after (l₂ ++ outs)) := by
      have hnext := hl.getNext
      rwa [before_concat] at hnext
    have hbounds : (s.order.depthBounds (dep idx)).2 = .entry idx := by
      have habove : layer dep l₂ (dep idx) = [] :=
        layer_eq_nil (fun i hi => Nat.ne_of_gt (h₂ i hi))
      rw [h.bounds, layer_append, layer_cons_of_eq rfl, habove, ends_of_ne_nil (by simp),
        before_append_cons, before_singleton]
    obtain ⟨s₁, hs₁, hpart, hsize₁, hdepth₁, hbounds₁⟩ := addLinkEntries_eq (n := n)
      (links.drop InPlaceLinks) (hl.parted (by simp)) hs hle hbounds
    have hrange : l₁ ++ range' idx (n + 1) = l₁ ++ range' idx n ++ [idx + n] := by
      rw [range'_concat, append_assoc, Nat.one_mul]
    rw [hrange] at hpart
    obtain ⟨o, ho, hsame, hlists⟩ := hpart.join
    have hlast : s₁.size - 1 = idx + n := by
      rw [hsize₁, Nat.add_right_comm]
      rfl
    have hext : Extended s { s₁ with order := o } :=
      (Extended.addLinkEntries hs₁).setOrder hsame.size
    have hstored : Stored s₁.entries (range' (idx + 1) n) (links.drop InPlaceLinks) := by
      rw [← hs]
      exact Stored.of_addLinkEntries hs₁ (SubnetCell.more_eq (Nat.not_le.mp hlen))
    refine ⟨{ s₁ with order := o }, ?_, ?_, hsame.depth.trans hdepth₁, ?_, hext, hstored⟩
    · rw [chainLinks, if_neg hlen]
      refine bind_eq_some_iff.mpr ⟨_, hnext, bind_eq_some_iff.mpr ⟨s₁, hs₁, ?_⟩⟩
      rw [hlast, ho]
      rfl
    · have hwidth : range' idx (Gate.width ⟨t, links⟩) = idx :: range' (idx + 1) n :=
        range'_succ
      rw [hwidth]
      refine h.chain ?_ h₂ (fun j hj => hnew j ?_) ?_
      · rw [← append_assoc, ← hrange, range'_succ] at hlists
        exact hlists
      · exact Nat.le_of_succ_le (mem_range'_1.mp hj).1
      · rw [hsame.bounds, hbounds₁]
        have hconcat : idx :: range' (idx + 1) n = range' idx n ++ [idx + n] := by
          rw [← range'_succ, range'_concat, Nat.one_mul]
        rw [hconcat, before_concat]
    · change o.size = _
      rw [hsame.size, show s₁.order.size = _ from hsize₁, Nat.add_right_comm]
      rfl

theorem withEnds_eq {l : List EntryID} (h : s.order.Lists l) : s.withEnds = s := by
  have hb : s.order.getSubnetBegin = s.order.subnetBegin := by rw [h.getSubnetBegin, h.first]
  have he : s.order.getSubnetEnd = s.order.subnetEnd := by rw [h.getSubnetEnd, h.last]
  simp only [withEnds, hb, he]

structure Allocation (s s₁ : SubnetBuilder) (t : CellTypeID) (links : List Link)
    (ins mid outs : List EntryID) (dep : EntryID → ℕ) : Prop where
  net : NetInv s₁ s₁.targets
  created : Created s s₁ t links s.size
  size : s₁.size = s.size + 1
  depth : s₁.order.depth = s.order.depth
  kept : ∀ i < s.size, ∀ ls, s.entries i = .links ls → s₁.entries i = .links ls
  layered : (s₁.order.setDepth s.size (some (s.order.linksDepth links))).Layered dep
    (ins ++ mid.flatMap s.block) outs
  ins : ∀ i ∈ ins, dep i = 0
  mid : ∀ i ∈ mid, ∀ j ∈ s.block i, dep j = s.order.depthOf i
  new : ∀ i, s.size ≤ i → dep i = s.order.linksDepth links
  assembled : s₁.order.Assembled

private theorem Grown.allocEntry (h : Grown s ins mid outs) (hl : s.ValidLinks links)
    (t : CellTypeID) :
    (∃ idx, StrashKey.isEnabled t links = true ∧ s.strash (StrashKey.make t links) = some idx ∧
      s.allocEntry t links = some (s, idx)) ∨
    ∃ s₁ dep, Allocation s s₁ t links ins mid outs dep ∧
      s.allocEntry t links = (((s₁.order.setDepth s.size
        (some (s.order.linksDepth links))).addDepthBounds s₁.getTypeID s.size).bind
          (fun o => ({ s₁ with order := o } : SubnetBuilder).chainLinks
            (s.order.linksDepth links) s.size t links)).map (·, s.size) := by
  obtain ⟨dep, hlay, hins, hmid⟩ := h.layered
  have hends := withEnds_eq hlay.lists
  rcases h.net.allocEntry t links with ⟨i, he, hk, hall⟩ | ⟨sA, i, f, ha, hall, hf⟩
  · rw [hends] at hall
    exact .inl ⟨i, he, hk, hall⟩
  · rw [hends] at ha
    obtain rfl : i = s.size := by
      rcases ha.fresh with hmem | hi
      · rw [h.kept] at hmem
        cases hmem
      · exact hi
    have hsize : sA.size = s.size + 1 := by
      have hlt := ha.lt
      have hused := (ha.used (s.size + 1) (Nat.succ_ne_self _)).mp
      by_contra hne
      have hgt : s.size + 1 < sA.size := Nat.lt_of_le_of_ne hlt (Ne.symm hne)
      exact absurd (hused hgt) (Nat.not_lt.mpr (Nat.le_succ _))
    obtain ⟨s₁, hnet, hcreated, horder, -, -, ⟨s₂, hs₂, hs₁⟩, hfill⟩ :=
      h.net.fillEntry ha (targets_of_dead ha.dead) hl hf
    have hoA : sA.order = { s.order with size := sA.size } := ha.order
    let dep' : EntryID → ℕ := fun j => if s.size ≤ j then s.order.linksDepth links else dep j
    have hold : ∀ j, j < s.size → dep' j = dep j := fun j hj => if_neg (Nat.not_le.mpr hj)
    refine .inr ⟨s₁, dep', ⟨hcreated.targets ▸ hnet, hcreated, ?_, ?_, ?_, ?_, ?_, ?_, ?_, ?_⟩, ?_⟩
    · change s₁.order.size = _
      rw [horder]
      exact hsize
    · rw [horder, hoA]
    · intro j hj ls hls
      have hset : s₁.entries j = s₂.entries j := by
        rw [← hs₁]
        exact update_of_ne (Nat.ne_of_lt hj) ..
      rw [hset]
      apply SameLinks.of_addNewLinks hs₂ j ls
      rw [← hls]
      exact congrFun ha.entries j
    · have hlists : s₁.order.Lists (ins ++ mid.flatMap s.block ++ outs) := by
        rw [horder, hoA]
        exact hlay.lists.extend rfl rfl rfl rfl ha.le
      have hlay₁ : s₁.order.Layered dep (ins ++ mid.flatMap s.block) outs :=
        ⟨hlists, hlay.sorted, by rw [horder, hoA]; exact hlay.bounds⟩
      refine (hlay₁.setDepth _ _).congr (fun j hj => (hold j ?_).symm)
      exact hlay.lists.lt j (mem_append_left _ hj)
    · intro j hj
      rw [hold j (hlay.lists.lt j (by simp [hj]))]
      exact hins j hj
    · intro j hj k hk
      have hmem : k ∈ mid.flatMap s.block := mem_flatMap.mpr ⟨j, hj, hk⟩
      rw [hold k (hlay.lists.lt k (by simp [hmem]))]
      exact hmid j hj k hk
    · exact fun j hj => if_pos hj
    · rw [horder, hoA]
      exact h.assembled.congr rfl rfl
    · rw [hall, hfill, horder]

private theorem Created.block (h : Created s s' t links s.size) (hi : i < s.size) :
    s'.block i = s.block i := by
  rw [SubnetBuilder.block, h.netlist, if_neg (Nat.ne_of_lt hi)]
  rfl

private theorem Grown.of_created {ins' mid' outs' : List EntryID} (h : Grown s ins mid outs)
    (dep : EntryID → ℕ) (hl : s.ValidLinks links) (hc : Created s s' t links s.size)
    (hnet : NetInv s' s'.targets)
    (hd : s'.order.depth = update s.order.depth s.size (some (s.order.linksDepth links)))
    (hin : ∀ i, i ∈ ins' ↔ i ∈ ins ∨ i = s.size ∧ t = .IN)
    (hmid : ∀ i, i ∈ mid' ↔ i ∈ mid ∨ i = s.size ∧ t ≠ .IN ∧ t ≠ .OUT)
    (hout : ∀ i, i ∈ outs' ↔ i ∈ outs ∨ i = s.size ∧ t = .OUT)
    (hno : t = .IN → links = []) (hone : t = .OUT → links.length = 1)
    (hlay : s'.order.Layered dep (ins' ++ mid'.flatMap s'.block) outs')
    (hdin : ∀ i ∈ ins', dep i = 0)
    (hdmid : ∀ i ∈ mid', ∀ j ∈ s'.block i, dep j = s'.order.depthOf i)
    (hkeep : ∀ i < s.size, ∀ ls, s.entries i = .links ls → s'.entries i = .links ls)
    (hst : Stored s'.entries (range' (s.size + 1) (Gate.width ⟨t, links⟩ - 1))
      (links.drop InPlaceLinks))
    (hass : s'.order.Assembled) (hsize : s'.size = s.size + Gate.width ⟨t, links⟩) :
    Grown s' ins' mid' outs' := by
  have hold : ∀ i, (s.netlist i).isSome → i ≠ s.size := by
    intro i hi
    obtain ⟨g, hg⟩ := isSome_iff_exists.mp hi
    exact Nat.ne_of_lt (lt_of_netlist hg)
  have hdead : s.netlist s.size = none := by
    rw [← Option.not_isSome_iff_eq_none]
    exact fun hi => hold _ hi rfl
  have hdepth : ∀ i, (s.netlist i).isSome → s'.order.depth i = s.order.depth i := by
    intro i hi
    rw [hd, update_of_ne (hold i hi)]
  have hnotmem : s.size ∉ ins ++ mid ++ outs := by
    rw [h.mem, hdead]
    simp
  simp only [mem_append, not_or] at hnotmem
  have hlinks : ∀ ls : List Link, (∀ l ∈ ls, (s.netlist l.idx).isSome) →
      s'.order.linksDepth ls = s.order.linksDepth ls := fun ls hls =>
    linksDepth_congr (fun l hlm => hdepth l.idx (hls l hlm))
  refine ⟨hnet, ?_, fun i => ?_, fun i g hg => ?_, fun i g hg => ?_, fun i g hg => ?_,
    fun i g hg => ?_, fun i g hg => ?_, fun i g hg => ?_, ⟨dep, hlay, hdin, hdmid⟩, hass,
    fun j hj => ?_⟩
  · rw [eq_nil_iff_forall_not_mem]
    intro i hi
    have hmem := ((hc.free i).mp hi).1
    rw [h.kept] at hmem
    cases hmem
  · have hmem := h.mem i
    simp only [mem_append] at hmem ⊢
    rw [hin, hmid, hout, hc.netlist]
    split
    · rename_i hi
      by_cases ht : t = .IN
      · simp [ht, hi]
      · by_cases ht' : t = .OUT <;> simp [ht, ht', hi]
    · rename_i hi
      simp only [hi, false_and, or_false]
      exact hmem
  · rw [hin]
    rw [hc.netlist] at hg
    split at hg
    · rename_i hi
      cases hg
      simp [hi, hnotmem.1.1]
    · rename_i hi
      rw [h.input i g hg]
      simp [hi]
  · rw [hout]
    rw [hc.netlist] at hg
    split at hg
    · rename_i hi
      cases hg
      simp [hi, hnotmem.2]
    · rename_i hi
      rw [h.output i g hg]
      simp [hi]
  · rw [hc.netlist] at hg
    split at hg
    · cases hg
      exact hno
    · exact h.noLinks i g hg
  · rw [hc.netlist] at hg
    split at hg
    · cases hg
      exact hone
    · exact h.outLink i g hg
  · rw [hc.netlist] at hg
    split at hg
    · rename_i hi
      cases hg
      rw [hd, hi, update_self, hlinks]
      intro l hlm
      obtain ⟨g, hg, -⟩ := hl.netlist hlm
      simp [hg]
    · rw [hdepth i (by simp [hg]), h.depth i g hg, hlinks]
      intro l hlm
      exact h.net.closed' i l.idx ⟨g, hg, l, hlm, rfl⟩
  · rw [hc.netlist] at hg
    split at hg
    · rename_i hi
      cases hg
      rw [hi]
      exact hst
    · refine (h.stored i g hg).congr (fun e he ls hls => hkeep e (h.lt_of_mem_block hg ?_) ls hls)
      rw [block_of_netlist hg, mem_range'_1]
      rw [mem_range'_1] at he
      omega
  · by_cases hlt : j < s.size
    · obtain ⟨i, hi, hj⟩ := h.cover j hlt
      obtain ⟨g, hg⟩ := isSome_iff_exists.mp hi
      refine ⟨i, ?_, ?_⟩
      · rw [hc.netlist, if_neg (hold i hi)]
        exact hi
      · rw [hc.block (lt_of_netlist hg)]
        exact hj
    · have hnew : s'.netlist s.size = some ⟨t, links⟩ := by rw [hc.netlist, if_pos rfl]
      refine ⟨s.size, by rw [hnew]; rfl, ?_⟩
      rw [block_of_netlist hnew, mem_range'_1]
      exact ⟨Nat.not_lt.mp hlt, hsize ▸ hj⟩

private theorem layers_eq {dep D : EntryID → ℕ} {f : EntryID → List EntryID}
    (hins : ∀ i ∈ ins, dep i = 0) (hmid : ∀ i ∈ mid, ∀ j ∈ f i, dep j = D i) (d : ℕ) :
    below dep (ins ++ mid.flatMap f) d ++ layer dep (ins ++ mid.flatMap f) d =
        ins ++ (below D mid d ++ layer D mid d).flatMap f ∧
      above dep (ins ++ mid.flatMap f) d = (above D mid d).flatMap f := by
  have hbelow : below dep (mid.flatMap f) d = (below D mid d).flatMap f :=
    filter_flatMap (fun i hi j hj => by rw [hmid i hi j hj])
  have hlayer : layer dep (mid.flatMap f) d = (layer D mid d).flatMap f :=
    filter_flatMap (fun i hi j hj => by rw [hmid i hi j hj])
  have habove : above dep (mid.flatMap f) d = (above D mid d).flatMap f :=
    filter_flatMap (fun i hi j hj => by rw [hmid i hi j hj])
  have hsplit : below dep (ins ++ mid.flatMap f) d =
      below dep ins d ++ below dep (mid.flatMap f) d := filter_append _ _
  have hsplit' : above dep (ins ++ mid.flatMap f) d =
      above dep ins d ++ above dep (mid.flatMap f) d := filter_append _ _
  have hnone : above dep ins d = [] :=
    above_eq_nil (fun i hi => by rw [hins i hi]; exact Nat.zero_le d)
  refine ⟨?_, by rw [hsplit', hnone, habove, nil_append]⟩
  rw [hsplit, layer_append, hbelow, hlayer, flatMap_append]
  by_cases hd : d = 0
  · have h₁ : below dep ins d = [] :=
      below_eq_nil (fun i _ => by rw [hd]; exact Nat.zero_le _)
    have h₂ : below D mid d = [] :=
      below_eq_nil (fun i _ => by rw [hd]; exact Nat.zero_le _)
    rw [h₁, h₂, layer_eq_self (fun i hi => by rw [hins i hi, hd])]
    rfl
  · have h₁ : below dep ins d = ins := by
      apply filter_eq_self.mpr
      intro i hi
      rw [hins i hi]
      simpa using Nat.pos_of_ne_zero hd
    rw [h₁, layer_eq_nil (fun i hi => by rw [hins i hi]; exact Ne.symm hd), nil_append,
      append_assoc]

structure Appended (s s' : SubnetBuilder) (t : CellTypeID) (links : List Link) : Prop where
  netlist : s'.netlist = update s.netlist s.size (some ⟨t, links⟩)
  size : s'.size = s.size + Gate.width ⟨t, links⟩
  strash : ∀ k i, s'.strash k = some i → s.strash k = some i ∨ i = s.size
  counts : (s'.nIn, s'.nOut, s'.nCell, s'.nBuf) = (s.nIn + (decide (t = .IN)).toNat,
    s.nOut + (decide (t = .OUT)).toNat, s.nCell + 1, s.nBuf + (decide (t = .BUF)).toNat)

private theorem Created.netlist_eq (h : Created s s' t links s.size) :
    s'.netlist = update s.netlist s.size (some ⟨t, links⟩) := by
  funext i
  rw [h.netlist]
  by_cases hi : i = s.size
  · rw [if_pos hi, hi, update_self]
  · rw [if_neg hi, update_of_ne hi]

private theorem Allocation.chained {dep : EntryID → ℕ} {o : EntryOrder}
    (h : Allocation s s₁ t links ins mid outs dep) (ho : o.size = s₁.order.size)
    (hext : Extended { s₁ with order := o } s') :
    Created s s' t links s.size ∧ NetInv s' s'.targets := by
  have hlive : s'.liveCell = s₁.liveCell := by rw [hext.liveCell, liveCell_setOrder ho]
  have hle : s₁.size ≤ s'.size := Nat.le_trans (Nat.le_of_eq ho.symm) hext.le
  have hc : Created s s' t links s.size :=
    h.created.congr hlive hext.strash hext.enabled hext.counts hle hext.free
  have htar : s'.targets = s₁.targets := by rw [hc.targets, h.created.targets]
  exact ⟨hc, htar ▸ (h.net.setOrder ho).extended hext⟩

private theorem Allocation.new_not_mem {dep : EntryID → ℕ} (h : Grown s ins mid outs)
    (ha : Allocation s s₁ t links ins mid outs dep) : s.size ∉ ins ++ mid.flatMap s.block ++ outs ∧
      s₁.getTypeID s.size = t ∧ s₁.order.size = s.size + 1 := by
  obtain ⟨_, hlay, -⟩ := h.layered
  exact ⟨fun hmem => Nat.lt_irrefl _ (hlay.lists.lt _ hmem), getTypeID_of_live ha.created.here,
    ha.size⟩

private theorem Allocation.assembled_addDepthBounds {dep : EntryID → ℕ} {o : EntryOrder}
    {d : Option ℕ} {type : EntryID → CellTypeID} (h : Allocation s s₁ t links ins mid outs dep)
    (ho : (s₁.order.setDepth s.size d).addDepthBounds type s.size = some o) : o.Assembled := by
  have hset : (s₁.order.setDepth s.size d).Assembled := h.assembled.congr rfl rfl
  exact hset.addDepthBounds ho

private theorem Grown.place {dep : EntryID → ℕ} (h : Grown s ins mid outs) (hl : s.ValidLinks links)
    (hin : t ≠ .IN) (hout : t ≠ .OUT) (ha : Allocation s s₁ t links ins mid outs dep) :
    ∃ s' mid', (((s₁.order.setDepth s.size (some (s.order.linksDepth links))).addDepthBounds
        s₁.getTypeID s.size).bind (fun o => ({ s₁ with order := o } : SubnetBuilder).chainLinks
          (s.order.linksDepth links) s.size t links)) = some s' ∧
      Grown s' ins mid' outs ∧ Created s s' t links s.size ∧
      s'.size = s.size + Gate.width ⟨t, links⟩ := by
  let d := s.order.linksDepth links
  obtain ⟨hnot, htype, hsize⟩ := ha.new_not_mem h
  have hde : dep s.size = d := ha.new _ (Nat.le_refl _)
  have hprev : 0 < dep s.size → layer dep (ins ++ mid.flatMap s.block) (dep s.size - 1) ≠ [] := by
    rw [hde]
    intro hpos
    obtain ⟨k, hk, hkd⟩ := exists_linksDepth hpos
    obtain ⟨g, hg, hgt⟩ := hl.netlist hk
    have hkd : s.order.depthOf k.idx = d - 1 := by
      have hdepth := h.depth k.idx g hg
      rw [hdepth, incDepth] at hkd
      rw [depthOf, hdepth, getD_some]
      omega
    have hmem : k.idx ∈ ins ++ mid := by
      have hmem := (h.mem k.idx).mpr (by simp [hg])
      exact (mem_append.mp hmem).resolve_right (fun ho => hgt ((h.output _ g hg).mpr ho))
    apply ne_nil_of_mem
    rw [mem_layer]
    rcases mem_append.mp hmem with hki | hkm
    · have hzero : s.order.depthOf k.idx = 0 := by
        rw [depthOf, h.depth _ g hg, h.noLinks _ g hg ((h.input _ g hg).mpr hki)]
        rfl
      exact ⟨mem_append_left _ hki, by rw [ha.ins _ hki, ← hkd, hzero]⟩
    · exact ⟨mem_append_right _ (mem_flatMap.mpr ⟨k.idx, hkm, mem_block_self⟩), by
        rw [ha.mid _ hkm _ mem_block_self, hkd]⟩
  have hlt : s.size < s₁.order.size := hsize ▸ Nat.lt_succ_self _
  have htout : s₁.getTypeID s.size ≠ .OUT := htype ▸ hout
  have htin : s₁.getTypeID s.size ≠ .IN := htype ▸ hin
  obtain ⟨o, ho, hos, hod, hlay⟩ :=
    ha.layered.add hnot hlt (by rw [setDepth_depth, hde]) htout htin hprev
  have hosize : o.size = s₁.order.size := hos
  obtain ⟨hlow, habove⟩ := layers_eq ha.ins ha.mid d
  have hhigh : ∀ i ∈ (above s.order.depthOf mid d).flatMap s.block, dep s.size < dep i := by
    intro i hi
    rw [← habove] at hi
    rw [hde]
    exact (mem_above.mp hi).2
  rw [hde, hlow, habove] at hlay
  have hchain : ∃ s', ({ s₁ with order := o } : SubnetBuilder).chainLinks (dep s.size)
      s.size t links = some s' ∧ _ := chainLinks_eq hlay (hosize.trans hsize) hhigh
    (fun j hj => by rw [ha.new j hj, hde])
  obtain ⟨s', hs', hlay', hdepth', hsize', hext, hstored⟩ := hchain
  obtain ⟨hc, hnet⟩ := ha.chained hosize hext
  have hd : s'.order.depth = update s.order.depth s.size (some d) := by
    rw [hdepth', show ({ s₁ with order := o } : SubnetBuilder).order.depth = _ from hod, setDepth,
      ha.depth]
  have hself : s'.block s.size = range' s.size (Gate.width ⟨t, links⟩) := by
    apply block_of_netlist
    rw [hc.netlist, if_pos rfl]
  have hlive : ∀ i ∈ mid, i < s.size := by
    intro i hi
    have hmem := (h.mem i).mp (by simp [hi])
    obtain ⟨g, hg⟩ := isSome_iff_exists.mp hmem
    exact lt_of_netlist hg
  have hblocks : ∀ l ⊆ mid, l.flatMap s'.block = l.flatMap s.block := fun l hsub =>
    flatMap_congr (fun i hi => hc.block (hlive i (hsub hi)))
  refine ⟨s', below s.order.depthOf mid d ++ layer s.order.depthOf mid d ++
    s.size :: above s.order.depthOf mid d, ?_, ?_, hc, hsize'⟩
  · rw [ho, bind_some, ← hs', hde]
  · refine h.of_created dep hl hc hnet hd (fun i => ?_) (fun i => ?_) (fun i => ?_)
      (fun ht => absurd ht hin) (fun ht => absurd ht hout) ?_ ha.ins (fun i hi j hj => ?_)
      (fun i hi ls hls => ?_) hstored (assembled_chainLinks hs' (ha.assembled_addDepthBounds ho))
      hsize'
    · simp [hin]
    · have hcases := Nat.lt_trichotomy (s.order.depthOf i) d
      simp only [mem_append, mem_cons, mem_below, mem_layer, mem_above, hin, hout, ne_eq,
        not_false_eq_true, and_true]
      tauto
    · simp [hout]
    · have hsub₁ : below s.order.depthOf mid d ++ layer s.order.depthOf mid d ⊆ mid :=
        append_subset.mpr ⟨filter_subset_self _, filter_subset_self _⟩
      have hsub₂ : above s.order.depthOf mid d ⊆ mid := filter_subset_self _
      rw [flatMap_append, flatMap_cons, hblocks _ hsub₁, hblocks _ hsub₂,
        hself, ← append_assoc, ← append_assoc]
      exact hlay'
    · by_cases hi' : i = s.size
      · rw [hi', hself] at hj
        rw [hi', ha.new j (mem_range'_1.mp hj).1, depthOf, hd, update_self]
        rfl
      · have hmem : i ∈ mid := by
          simp only [mem_append, mem_cons, mem_below, mem_layer, mem_above] at hi
          tauto
        rw [hc.block (hlive i hmem)] at hj
        rw [ha.mid i hmem j hj, depthOf, depthOf, hd, update_of_ne hi']
    · rw [hext.entries i (Nat.lt_trans hi (Nat.lt_of_lt_of_eq hlt hosize.symm))]
      exact ha.kept i hi ls hls

theorem Grown.setCounts {a b : ℕ} (h : Grown s ins mid outs) :
    Grown { s with nIn := a, nOut := b } ins mid outs :=
  ⟨h.net.setCounts, h.kept, h.mem, h.input, h.output, h.noLinks, h.outLink, h.depth, h.stored,
    h.layered, h.assembled, h.cover⟩

private theorem Created.appended (h : Created s s' t links s.size)
    (hs : s'.size = s.size + Gate.width ⟨t, links⟩) :
    Appended s { s' with nIn := s'.nIn + (decide (t = .IN)).toNat
                         nOut := s'.nOut + (decide (t = .OUT)).toNat } t links := by
  have hcounts := h.counts
  simp only [Prod.mk.injEq] at hcounts
  refine ⟨h.netlist_eq, hs, h.strash, ?_⟩
  simp only [hcounts]

theorem Grown.addCell (h : Grown s ins mid outs) (hl : s.ValidLinks links)
    (hneg : t.isNegative = false) (hin : t ≠ .IN) (hout : t ≠ .OUT) :
    ∃ s' idx mid', s.addCell t links = some (s', ⟨idx, 0, false⟩) ∧ Grown s' ins mid' outs ∧
      ((StrashKey.isEnabled t links = true ∧ s.strash (StrashKey.make t links) = some idx ∧
        s' = s) ∨ (idx = s.size ∧ Appended s s' t links)) := by
  have hok : ¬ (t.isNegative = true ∨ (t = .IN ∧ links ≠ [])) := by simp [hneg, hin]
  rcases h.allocEntry hl t with ⟨idx, he, hk, hall⟩ | ⟨s₁, dep, ha, hall⟩
  · refine ⟨s, idx, mid, ?_, h, .inl ⟨he, hk, rfl⟩⟩
    rw [SubnetBuilder.addCell, if_neg hok, hall]
    simp [hin, hout]
  · obtain ⟨s', mid', hs', hgrown, hc, hsize⟩ := h.place hl hin hout ha
    refine ⟨_, s.size, mid', ?_, hgrown.setCounts, .inr ⟨rfl, hc.appended hsize⟩⟩
    rw [SubnetBuilder.addCell, if_neg hok, hall, hs']
    rfl

theorem Grown.depth_lt (h : Grown s ins mid outs) (hij : s.netlist.Fanin i j) :
    s.order.depthOf j < s.order.depthOf i := by
  have hj := h.net.closed' i j hij
  obtain ⟨g, hg, l, hl, rfl⟩ := hij
  obtain ⟨g', hg'⟩ := isSome_iff_exists.mp hj
  have hle := le_linksDepth (o := s.order) hl
  have hi := h.depth i g hg
  have hd := h.depth l.idx g' hg'
  rw [hd, incDepth] at hle
  rw [depthOf, depthOf, hi, hd, getD_some, getD_some]
  exact hle

theorem Grown.links_of_depth (h : Grown s ins mid outs) (hg : s.netlist i = some g)
    (hd : s.order.depthOf i = 0) : g.links = [] := by
  rw [eq_nil_iff_forall_not_mem]
  intro l hl
  have hlt := h.depth_lt ⟨g, hg, l, hl, rfl⟩
  rw [hd] at hlt
  exact Nat.not_lt_zero _ hlt

theorem Grown.first_layer {dep : EntryID → ℕ} (h : Grown s ins mid outs)
    (hins : ∀ i ∈ ins, dep i = 0) (hmid : ∀ i ∈ mid, ∀ j ∈ s.block i, dep j = s.order.depthOf i) :
    layer dep (ins ++ mid.flatMap s.block) 0 = ins ++ layer s.order.depthOf mid 0 := by
  have hsingle : ∀ i ∈ layer s.order.depthOf mid 0, s.block i = [i] := by
    intro i hi
    obtain ⟨hi, hd⟩ := mem_layer.mp hi
    obtain ⟨g, hg⟩ := isSome_iff_exists.mp ((h.mem i).mp (by simp [hi]))
    rw [block_of_netlist hg, Gate.width_of_le (by rw [h.links_of_depth hg hd]; exact Nat.zero_le _)]
    rfl
  obtain ⟨hlow, -⟩ := layers_eq hins hmid 0
  rwa [below_eq_nil (fun _ _ => Nat.zero_le _), below_eq_nil (fun _ _ => Nat.zero_le _), nil_append,
    nil_append, flatMap_single hsingle] at hlow

theorem Grown.addInput_of_constants (h : Grown s ins mid outs)
    (hconst : ∀ i ∈ mid, s.order.depthOf i = 0 → s.getTypeID i = .ZERO ∨ s.getTypeID i = .ONE)
    (hfirst : ins = [] → ∀ i ∈ mid, s.order.depthOf i ≠ 0) :
    ∃ s', s.addInput = some (s', ⟨s.size, 0, false⟩) ∧ Grown s' (ins ++ [s.size]) mid outs ∧
      Appended s s' .IN [] := by
  have hl : s.ValidLinks [] := fun l hlm => by cases hlm
  rcases h.allocEntry hl .IN with ⟨idx, he, -, -⟩ | ⟨s₁, dep, ha, hall⟩
  · cases he
  · obtain ⟨hnot, htype, hsize⟩ := ha.new_not_mem h
    have hde : dep s.size = 0 := ha.new _ (Nat.le_refl _)
    have hlt : s.size < s₁.order.size := hsize ▸ Nat.lt_succ_self _
    have hlive : ∀ i ∈ ins ++ mid, i < s.size ∧ s₁.getTypeID i = s.getTypeID i := by
      intro i hi
      obtain ⟨g, hg⟩ := isSome_iff_exists.mp ((h.mem i).mp (mem_append_left _ hi))
      obtain ⟨c, hc, -⟩ := liveCell_of_netlist hg
      obtain ⟨n, hn⟩ := ha.created.old i c hc
      rw [getTypeID_of_live hn, getTypeID_of_live hc]
      exact ⟨lt_of_netlist hg, rfl⟩
    have hlast : ∀ a ∈ ins.getLast?, ¬ (s₁.getTypeID a = .ZERO ∨ s₁.getTypeID a = .ONE) := by
      intro a hmem
      have hmem := mem_of_getLast? hmem
      obtain ⟨g, hg⟩ := isSome_iff_exists.mp ((h.mem a).mp (by simp [hmem]))
      obtain ⟨c, hc, hct, -⟩ := liveCell_of_netlist hg
      have ht : c.type = .IN := hct.trans ((h.input a g hg).mpr hmem)
      rw [(hlive a (by simp [hmem])).2, getTypeID_of_live hc]
      simp [ht]
    obtain ⟨o, ho, hos, hod, hlay⟩ := ha.layered.add_in hnot hlt setDepth_depth hde htype
      (h.first_layer ha.ins ha.mid)
      (fun hnil => layer_eq_nil (hfirst hnil)) hlast (fun i hi => by
        obtain ⟨hi, hd⟩ := mem_layer.mp hi
        rw [(hlive i (mem_append_right _ hi)).2]
        exact hconst i hi hd)
    obtain ⟨-, habove⟩ := layers_eq ha.ins ha.mid 0
    obtain ⟨hc, hnet⟩ := ha.chained hos (Extended.refl _)
    have hd : o.depth = update s.order.depth s.size (some 0) := by
      rw [hod, setDepth, ha.depth]
      rfl
    have hsplit : mid.flatMap s.block = layer s.order.depthOf mid 0 ++
        above dep (ins ++ mid.flatMap s.block) 0 := by
      have hsorted := ha.layered.sorted.split 0
      rw [below_eq_nil (fun _ _ => Nat.zero_le _), nil_append, h.first_layer ha.ins ha.mid,
        append_assoc] at hsorted
      exact append_cancel_left hsorted
    rw [← hsplit] at hlay
    have hgrown : Grown { s₁ with order := o } (ins ++ [s.size]) mid outs := by
      refine h.of_created dep hl hc hnet hd (fun i => ?_) (fun i => ?_) (fun i => ?_)
        (fun _ => rfl) (fun ht => by cases ht) ?_ (fun i hi => ?_) (fun i hi j hj => ?_) ha.kept
        (stored_of_le (g := ⟨.IN, []⟩) (Nat.zero_le _)) (ha.assembled_addDepthBounds ho)
        (hos.trans hsize)
      · simp
      · simp
      · simp
      · rw [flatMap_congr (fun i hi => hc.block (hlive i (mem_append_right _ hi)).1)]
        simpa using hlay
      · rcases mem_append.mp hi with hi | hi
        · exact ha.ins i hi
        · rw [mem_singleton.mp hi, hde]
      · have hlti := (hlive i (mem_append_right _ hi)).1
        rw [hc.block hlti] at hj
        rw [ha.mid i hi j hj, depthOf, depthOf, hd, update_of_ne (Nat.ne_of_lt hlti)]
    refine ⟨_, ?_, hgrown.setCounts, hc.appended (hos.trans hsize)⟩
    rw [SubnetBuilder.addInput, SubnetBuilder.addCell, if_neg (by decide), hall]
    have hchain : ({ s₁ with order := o } : SubnetBuilder).chainLinks 0 s.size .IN [] =
        some { s₁ with order := o } := rfl
    have ho : (s₁.order.setDepth s.size (some (s.order.linksDepth []))).addDepthBounds
        s₁.getTypeID s.size = some o := ho
    rw [ho, bind_some]
    change (({ s₁ with order := o } : SubnetBuilder).chainLinks 0 s.size .IN []).map (·,
      s.size) >>= _ = _
    rw [hchain]
    rfl

theorem Grown.addInput (h : Grown s ins [] outs) :
    ∃ s', s.addInput = some (s', ⟨s.size, 0, false⟩) ∧ Grown s' (ins ++ [s.size]) [] outs ∧
      Appended s s' .IN [] :=
  h.addInput_of_constants (fun _ hi => by cases hi) (fun _ _ hi => by cases hi)

theorem Grown.addOutput {l : Link} (h : Grown s ins mid outs) (hl : s.ValidLinks [l]) :
    ∃ s', s.addOutput l = some (s', ⟨s.size, 0, false⟩) ∧ Grown s' ins mid (outs ++ [s.size]) ∧
      Appended s s' .OUT [l] := by
  rcases h.allocEntry hl .OUT with ⟨idx, he, -, -⟩ | ⟨s₁, dep, ha, hall⟩
  · cases he
  · obtain ⟨hnot, htype, hsize⟩ := ha.new_not_mem h
    have hlt : s.size < s₁.order.size := hsize ▸ Nat.lt_succ_self _
    have hne : ins ++ mid.flatMap s.block ++ outs ≠ [] := by
      obtain ⟨g, hg, -⟩ := hl.netlist (mem_singleton_self l)
      have hmem := (h.mem l.idx).mpr (by simp [hg])
      simp only [mem_append] at hmem
      apply ne_nil_of_mem (a := l.idx)
      simp only [mem_append, mem_flatMap]
      rcases hmem with (hi | hm) | ho
      · exact .inl (.inl hi)
      · exact .inl (.inr ⟨l.idx, hm, mem_block_self⟩)
      · exact .inr ho
    obtain ⟨o, ho, hos, hod, hlay⟩ :=
      ha.layered.add_out hnot hlt (by rw [setDepth_depth]; rfl) htype hne
    obtain ⟨hc, hnet⟩ := ha.chained hos (Extended.refl _)
    have hd : o.depth = update s.order.depth s.size (some (s.order.linksDepth [l])) := by
      rw [hod, setDepth, ha.depth]
    have hlive : ∀ i ∈ mid, i < s.size := by
      intro i hi
      obtain ⟨g, hg⟩ := isSome_iff_exists.mp ((h.mem i).mp (by simp [hi]))
      exact lt_of_netlist hg
    have hwidth : Gate.width ⟨.OUT, [l]⟩ = 1 :=
      Gate.width_of_le (show [l].length ≤ InPlaceLinks by simp [InPlaceLinks])
    have hos' : o.size = s.size + Gate.width ⟨.OUT, [l]⟩ := by
      rw [hwidth]
      exact hos.trans hsize
    have hgrown : Grown { s₁ with order := o } ins mid (outs ++ [s.size]) := by
      refine h.of_created dep hl hc hnet hd (fun i => ?_) (fun i => ?_) (fun i => ?_)
        (fun ht => by cases ht) (fun _ => rfl) ?_ ha.ins (fun i hi j hj => ?_) ha.kept
        (stored_of_le (g := ⟨.OUT, [l]⟩) (Nat.le_add_left 1 2))
        (ha.assembled_addDepthBounds ho) hos'
      · simp
      · simp
      · simp
      · rw [flatMap_congr (fun i hi => hc.block (hlive i hi))]
        exact hlay
      · rw [hc.block (hlive i hi)] at hj
        rw [ha.mid i hi j hj, depthOf, depthOf, hd, update_of_ne (Nat.ne_of_lt (hlive i hi))]
    refine ⟨_, ?_, hgrown.setCounts, hc.appended hos'⟩
    rw [SubnetBuilder.addOutput, SubnetBuilder.addCell, if_neg (by simp [CellTypeID.isNegative]),
      hall]
    have hchain : ({ s₁ with order := o } : SubnetBuilder).chainLinks (s.order.linksDepth [l])
        s.size .OUT [l] = some { s₁ with order := o } := rfl
    rw [ho, bind_some, hchain]
    rfl

theorem Grown.netOk (h : Grown s ins mid outs) : NetOk s :=
  ⟨h.net, s.order.depthOf, fun _ _ hij => h.depth_lt hij⟩

theorem Grown.sorted (h : Grown s ins mid outs) : Sorted s.order.depthOf (ins ++ mid) := by
  obtain ⟨dep, hlay, hins, hmid⟩ := h.layered
  have hsub : (ins ++ mid).Sublist (ins ++ mid.flatMap s.block) := by
    apply List.Sublist.append_left
    clear hlay hmid h
    induction mid with
    | nil => exact List.Sublist.refl _
    | cons i mid ih =>
      rw [flatMap_cons, ← singleton_append]
      exact List.Sublist.append (singleton_sublist.mpr mem_block_self) ih
  refine (hlay.sorted.sublist hsub).congr (fun i hi => ?_)
  rcases mem_append.mp hi with hi | hi
  · obtain ⟨g, hg⟩ := isSome_iff_exists.mp ((h.mem i).mp (by simp [hi]))
    rw [hins i hi, depthOf, h.depth i g hg, h.noLinks i g hg ((h.input i g hg).mpr hi)]
    rfl
  · exact hmid i hi i mem_block_self

theorem Grown.nodup (h : Grown s ins mid outs) : (ins ++ mid ++ outs).Nodup := by
  have hlists := h.lists.nodup
  generalize ins ++ mid ++ outs = l at hlists
  refine hlists.sublist ?_
  clear hlists
  induction l with
  | nil => exact List.Sublist.refl _
  | cons i l ih =>
    rw [flatMap_cons, ← singleton_append]
    exact List.Sublist.append (singleton_sublist.mpr mem_block_self) ih

theorem Grown.fanin_before {A B : List EntryID} (h : Grown s ins mid outs)
    (hl : ins ++ mid ++ outs = A ++ i :: B) (hij : s.netlist.Fanin i j) : j ∈ A := by
  obtain ⟨g, hg, ht⟩ := h.net.closed hij
  have hmem := (h.mem j).mpr (by simp [hg])
  have hj := (mem_append.mp hmem).resolve_right (fun ho => ht ((h.output j g hg).mpr ho))
  exact h.sorted.mem_of_lt h.nodup hl hj (h.depth_lt hij)

/-- The entries of a cell stand together in the order. -/
theorem Grown.block_infix (h : Grown s ins mid outs) (hg : s.netlist i = some g) :
    ∃ u v, s.order.Lists (u ++ i :: range' (i + 1) (g.width - 1) ++ v) := by
  obtain ⟨A, B, hl⟩ := append_of_mem ((h.mem i).mpr (by rw [hg]; rfl))
  have hlists := h.lists
  have hwidth : s.block i = i :: range' (i + 1) (g.width - 1) := by
    rw [block_of_netlist hg]
    exact range'_succ
  rw [hl, flatMap_append, flatMap_cons, hwidth, ← append_assoc] at hlists
  exact ⟨_, _, hlists⟩

theorem Grown.getLink (h : Grown s ins mid outs) {c : SubnetCell} (hc : s.liveCell i = some c)
    {k : ℕ} (hk : k < c.links.length) : s.getLink i k = some c.links[k] := by
  obtain ⟨u, v, hl⟩ := h.block_infix (netlist_of_live hc)
  exact getLink_of_stored (getCell_of_live hc)
    (h.stored i _ (netlist_of_live hc)) hl.visits inReach_range' hk

theorem Appended.le (h : Appended s s' t links) : s.netlist.Le s'.netlist := by
  intro i g hg
  rw [h.netlist, update_of_ne (Nat.ne_of_lt (lt_of_netlist hg)), hg]

theorem Appended.here (h : Appended s s' t links) : s'.netlist s.size = some ⟨t, links⟩ := by
  rw [h.netlist, update_self]

theorem Appended.size_of_le (h : Appended s s' t links) (hlen : links.length ≤ InPlaceLinks) :
    s'.size = s.size + 1 := by
  rw [h.size, Gate.width_of_le hlen]

theorem ValidLinks.mono (h : s.ValidLinks links) (hle : s.netlist.Le s'.netlist) :
    s'.ValidLinks links := by
  apply validLinks_of_netlist
  intro l hl
  obtain ⟨g, hg, ht⟩ := h.netlist hl
  exact ⟨g, hle _ _ hg, ht⟩

end SubnetBuilder

end UtopiaEda
