import UtopiaEda.GrowingBuilders
import UtopiaEda.LinkEntryOperations

/-!
# Leveled builders

The order of a builder whose cells have few links lists the inputs, then the other cells by their
depth, and last the outputs. Adding a cell keeps this, also when the cell gets a recycled entry, and
so does replacing a cell that is not an output: the cell and its fanout move to the layers of their
new depths.
-/
namespace UtopiaEda.SubnetBuilder
open EntryOrder RankedLists Incidence List
open Option (bind_eq_bind bind_eq_some_iff bind_some getD_some isSome_iff_exists some.inj)

variable {s s' s₁ : SubnetBuilder} {ins mid outs : List EntryID} {t : CellTypeID}
  {links : List Link} {i j idx root : EntryID} {c : SubnetCell} {D : Finset EntryID}

structure Leveled (s : SubnetBuilder) (ins mid outs : List EntryID) : Prop where
  net : NetInv s s.targets
  order : OrderInv s (ins ++ mid) outs
  input : ∀ i c, s.liveCell i = some c → (c.type = .IN ↔ i ∈ ins)
  noLinks : ∀ i c, s.liveCell i = some c → c.type = .IN → c.links = []
  small : ∀ i c, s.liveCell i = some c → c.links.length ≤ InPlaceLinks
  depth : ∀ i c, s.liveCell i = some c → s.order.depth i = some (s.order.linksDepth c.links)

theorem Leveled.init : Leveled {} [] [] [] := by
  have hnone : ∀ i c, ({} : SubnetBuilder).liveCell i = some c → False := by
    intro i c hc
    cases hc
  refine ⟨NetOk.init.net, ⟨⟨⟨rfl, rfl, LinkedLists.linked_nil, by simp, nodup_nil⟩,
    List.Pairwise.nil, fun d => rfl⟩, fun i => ?_, by simp, by simp⟩, ?_, ?_, ?_, ?_⟩
  · simp [SubnetBuilder.liveCell, getCell, SubnetBuilder.size]
  all_goals exact fun i c hc => (hnone i c hc).elim

theorem Leveled.depth_lt (h : Leveled s ins mid outs) (hij : s.netlist.Fanin i j) :
    s.order.depthOf j < s.order.depthOf i := by
  obtain ⟨b, hb, -⟩ := h.net.target i j (mem_targets.mpr hij)
  obtain ⟨g, hg, l, hl, rfl⟩ := hij
  obtain ⟨a, ha, -, hlinks⟩ := liveCell_of_netlist hg
  have hle := le_linksDepth (o := s.order) hl
  have hi := h.depth i a ha
  have hj := h.depth l.idx b hb
  rw [hlinks] at hi
  rw [hj, incDepth] at hle
  rw [depthOf, depthOf, hi, hj, getD_some, getD_some]
  exact hle

theorem Leveled.netOk (h : Leveled s ins mid outs) : NetOk s :=
  ⟨h.net, s.order.depthOf, fun _ _ hij => h.depth_lt hij⟩

theorem Leveled.mem_ins (h : Leveled s ins mid outs) (hi : i ∈ ins) :
    ∃ c, s.liveCell i = some c ∧ c.type = .IN ∧ s.order.depthOf i = 0 := by
  obtain ⟨c, hc⟩ := isSome_iff_exists.mp ((h.order.mem i).mp (by simp [hi]))
  have ht := (h.input i c hc).mpr hi
  refine ⟨c, hc, ht, ?_⟩
  rw [depthOf, h.depth i c hc, h.noLinks i c hc ht]
  rfl

theorem Leveled.setStrash {f : StrashKey → Option EntryID} (h : Leveled s ins mid outs)
    (hf : NetInv { s with strash := f } s.targets) : Leveled { s with strash := f } ins mid outs :=
  ⟨hf, ⟨h.order.layered, h.order.mem, h.order.out, h.order.depth⟩, h.input, h.noLinks,
    h.small, h.depth⟩

theorem Leveled.setCounts {a b : ℕ} (h : Leveled s ins mid outs) :
    Leveled { s with nIn := a, nOut := b } ins mid outs :=
  ⟨h.net.setCounts, ⟨h.order.layered, h.order.mem, h.order.out, h.order.depth⟩, h.input, h.noLinks,
    h.small, h.depth⟩

theorem Leveled.destrash (h : Leveled s ins mid outs) (hd : s.destrashEntry i = some s') :
    Leveled s' ins mid outs := by
  obtain ⟨c, -, hd⟩ := bind_eq_some_iff.mp hd
  split at hd
  · cases hd
    refine h.setStrash ⟨h.net.nodup, h.net.free, h.net.user, h.net.target, h.net.refcount,
      h.net.fanouts, fun k j hk => ?_⟩
    apply h.net.strash k j
    change Function.update s.strash c.key none k = some j at hk
    by_cases hkey : k = c.key
    · rw [hkey, Function.update_self] at hk
      cases hk
    · rwa [Function.update_of_ne hkey] at hk
  · cases hd
    exact h

/-! ### Adding a cell -/

private theorem Leveled.of_created {ins' mid' outs' : List EntryID} (h : Leveled s ins mid outs)
    (hl : s.ValidLinks links) (hlen : links.length ≤ InPlaceLinks) (hno : t = .IN → links = [])
    (hc : Created s s' t links idx) (hnet : NetInv s' s'.targets)
    (hd : s'.order.depth = Function.update s.order.depth idx (some (s.order.linksDepth links)))
    (hlay : s'.order.Layered s'.order.depthOf (ins' ++ mid') outs')
    (hin : ∀ i, i ∈ ins' ↔ i ∈ ins ∨ i = idx ∧ t = .IN)
    (hmid : ∀ i, i ∈ mid' ↔ i ∈ mid ∨ i = idx ∧ t ≠ .IN ∧ t ≠ .OUT)
    (hout : ∀ i, i ∈ outs' ↔ i ∈ outs ∨ i = idx ∧ t = .OUT) : Leveled s' ins' mid' outs' := by
  have hmem : ∀ i, i ∈ ins' ++ mid' ++ outs' ↔ i ∈ ins ++ mid ++ outs ∨ i = idx := by
    intro i
    simp only [mem_append, hin, hmid, hout]
    by_cases ht : t = .IN
    · simp [ht]
      tauto
    · by_cases ht' : t = .OUT
      · simp [ht']
        tauto
      · simp [ht, ht']
        tauto
  have hnot : idx ∉ ins ++ mid ++ outs := by
    rw [h.order.mem, hc.dead]
    simp
  have hold : ∀ i a, s'.liveCell i = some a → i ≠ idx →
      ∃ n, s.liveCell i = some { a with refcount := n } := hc.only
  have hnew : ∀ a, s'.liveCell idx = some a → a = ⟨t, links, 0⟩ := by
    intro a ha
    rw [hc.here] at ha
    exact (some.inj ha).symm
  have hdepth : ∀ i, i ≠ idx → s'.order.depth i = s.order.depth i := by
    intro i hi
    rw [hd, Function.update_of_ne hi]
  have hlinks : ∀ ls : List Link, (∀ l ∈ ls, ∃ a, s.liveCell l.idx = some a) →
      s'.order.linksDepth ls = s.order.linksDepth ls := by
    intro ls hls
    refine linksDepth_congr (fun l hlm => hdepth l.idx ?_)
    rintro heq
    obtain ⟨a, ha⟩ := hls l hlm
    rw [heq, hc.dead] at ha
    cases ha
  refine ⟨hnet, ⟨hlay, fun i => ?_, fun i hi => ?_, fun i hi => ?_⟩, fun i a ha => ?_,
    fun i a ha => ?_, fun i a ha => ?_, fun i a ha => ?_⟩
  · rw [hmem, h.order.mem]
    constructor
    · rintro (hi | rfl)
      · obtain ⟨a, ha⟩ := isSome_iff_exists.mp hi
        obtain ⟨n, hn⟩ := hc.old i a ha
        rw [hn]
        rfl
      · rw [hc.here]
        rfl
    · intro hi
      obtain ⟨a, ha⟩ := isSome_iff_exists.mp hi
      by_cases hidx : i = idx
      · exact .inr hidx
      · obtain ⟨n, hn⟩ := hold i a ha hidx
        rw [hn]
        exact .inl rfl
  · by_cases hidx : i = idx
    · subst hidx
      rw [getTypeID_of_live hc.here, hout]
      simp only [mem_append, not_or] at hnot
      simp [hnot]
    · have hi := ((hmem i).mp hi).resolve_right hidx
      obtain ⟨a, ha⟩ := isSome_iff_exists.mp ((h.order.mem i).mp hi)
      obtain ⟨n, hn⟩ := hc.old i a ha
      have hout' := h.order.out i hi
      rw [getTypeID_of_live ha] at hout'
      rw [getTypeID_of_live hn, hout, hout']
      simp [hidx]
  · by_cases hidx : i = idx
    · rw [hd, hidx, Function.update_self]
      rfl
    · rw [hdepth i hidx]
      exact h.order.depth i (((hmem i).mp hi).resolve_right hidx)
  · rw [hin]
    by_cases hidx : i = idx
    · subst hidx
      simp only [mem_append, not_or] at hnot
      rw [hnew a ha]
      simp [hnot]
    · obtain ⟨n, hn⟩ := hold i a ha hidx
      rw [← h.input i _ hn]
      simp [hidx]
  · intro ht
    by_cases hidx : i = idx
    · subst hidx
      rw [hnew a ha] at ht ⊢
      exact hno ht
    · obtain ⟨n, hn⟩ := hold i a ha hidx
      have hnone := h.noLinks i _ hn ht
      exact hnone
  · by_cases hidx : i = idx
    · subst hidx
      rw [hnew a ha]
      exact hlen
    · obtain ⟨n, hn⟩ := hold i a ha hidx
      have hle := h.small i _ hn
      exact hle
  · by_cases hidx : i = idx
    · subst hidx
      rw [hnew a ha, hd, Function.update_self, hlinks]
      intro l hlm
      obtain ⟨b, hb, -⟩ := hl l hlm
      exact ⟨b, hb⟩
    · obtain ⟨n, hn⟩ := hold i a ha hidx
      rw [hdepth i hidx, h.depth i _ hn, hlinks]
      intro l hlm
      obtain ⟨b, hb, -⟩ := h.net.target i l.idx (by
        rw [targets_of_live hn]
        exact mem_map_of_mem hlm)
      exact ⟨b, hb⟩

structure Placing (s s₁ : SubnetBuilder) (t : CellTypeID) (links : List Link) (idx : EntryID)
    (ins mid outs : List EntryID) : Prop where
  net : NetInv s₁ s₁.targets
  created : Created s s₁ t links idx
  depth : s₁.order.depth = s.order.depth
  lt : idx < s₁.order.size
  layered : (s₁.order.setDepth idx (some (s.order.linksDepth links))).Layered
    (s₁.order.setDepth idx (some (s.order.linksDepth links))).depthOf (ins ++ mid) outs

private theorem Leveled.allocEntry (h : Leveled s ins mid outs) (hl : s.ValidLinks links)
    (hlen : links.length ≤ InPlaceLinks) (t : CellTypeID) :
    (∃ idx, StrashKey.isEnabled t links = true ∧ s.allocEntry t links = some (s, idx)) ∨
    ∃ s₁ idx, Placing s s₁ t links idx ins mid outs ∧
      s.allocEntry t links = ((s₁.order.setDepth idx (some (s.order.linksDepth links))).addDepthBounds
        s₁.getTypeID idx).map (fun o => (({ s₁ with order := o } : SubnetBuilder), idx)) := by
  have hends := withEnds_eq h.order.layered.lists
  rcases h.net.allocEntry t links with ⟨i, he, -, hall⟩ | ⟨sA, idx, f, ha, hall, hf⟩
  · rw [hends] at hall
    exact .inl ⟨i, he, hall⟩
  · rw [hends] at ha
    obtain ⟨s₁, hnet, hcreated, horder, -, -, -, hfill⟩ :=
      h.net.fillEntry ha (targets_of_dead ha.dead) hl hf
    have hoA : sA.order = { s.order with size := sA.size } := ha.order
    have hdead : idx ∉ ins ++ mid := by
      intro hmem
      have hlive := (h.order.mem idx).mp (mem_append_left _ hmem)
      rw [ha.dead] at hlive
      cases hlive
    refine .inr ⟨s₁, idx, ⟨hcreated.targets ▸ hnet, hcreated, by rw [horder, hoA], ?_, ?_⟩, ?_⟩
    · rw [horder]
      exact ha.lt
    · have hlists : s₁.order.Lists (ins ++ mid ++ outs) := by
        rw [horder, hoA]
        exact h.order.layered.lists.extend rfl rfl rfl rfl ha.le
      have hlay : s₁.order.Layered s.order.depthOf (ins ++ mid) outs :=
        ⟨hlists, h.order.layered.sorted, by rw [horder, hoA]; exact h.order.layered.bounds⟩
      refine (hlay.setDepth _ _).congr (fun j hj => ?_)
      have hne : j ≠ idx := fun hji => hdead (hji ▸ hj)
      rw [depthOf_of_ne hne, depthOf, depthOf, horder, hoA]
    · rw [hall, hfill, horder]
      simp only [chainLinks, if_pos hlen]
      cases (sA.order.setDepth idx (some (s.order.linksDepth links))).addDepthBounds s₁.getTypeID
        idx <;> rfl

private theorem Placing.placed {o : EntryOrder} (h : Placing s s₁ t links idx ins mid outs)
    (hos : o.size = s₁.order.size)
    (hod : o.depth = (s₁.order.setDepth idx (some (s.order.linksDepth links))).depth) :
    Created s { s₁ with order := o } t links idx ∧
      NetInv { s₁ with order := o } ({ s₁ with order := o } : SubnetBuilder).targets ∧
      o.depth = Function.update s.order.depth idx (some (s.order.linksDepth links)) := by
  have hc : Created s { s₁ with order := o } t links idx :=
    h.created.congr (liveCell_setOrder hos) rfl rfl rfl (Nat.le_of_eq hos.symm) rfl
  have htar : ({ s₁ with order := o } : SubnetBuilder).targets = s₁.targets := by
    rw [hc.targets, h.created.targets]
  refine ⟨hc, htar ▸ h.net.setOrder hos, ?_⟩
  rw [hod, EntryOrder.setDepth, h.depth]

private theorem Placing.not_mem (h : Placing s s₁ t links idx ins mid outs)
    (hs : Leveled s ins mid outs) : idx ∉ ins ++ mid ++ outs := by
  rw [hs.order.mem, h.created.dead]
  simp

private theorem Leveled.place (h : Leveled s ins mid outs) (hl : s.ValidLinks links)
    (hlen : links.length ≤ InPlaceLinks) (hin : t ≠ .IN) (hout : t ≠ .OUT)
    (hp : Placing s s₁ t links idx ins mid outs) :
    ∃ o mid', (s₁.order.setDepth idx (some (s.order.linksDepth links))).addDepthBounds s₁.getTypeID
    idx = some o ∧
      Leveled { s₁ with order := o } ins mid' outs := by
  let d := s.order.linksDepth links
  let o₁ := s₁.order.setDepth idx (some d)
  have hde : o₁.depthOf idx = d := setDepth_self
  have hold : ∀ i ∈ ins ++ mid ++ outs, o₁.depthOf i = s.order.depthOf i := by
    intro i hi
    have hne : i ≠ idx := fun hii => hp.not_mem h (hii ▸ hi)
    rw [depthOf_of_ne hne, depthOf, depthOf, hp.depth]
  have hprev : 0 < o₁.depthOf idx → layer o₁.depthOf (ins ++ mid) (o₁.depthOf idx - 1) ≠ [] := by
    rw [hde]
    intro hpos
    obtain ⟨k, hk, hkd⟩ := exists_linksDepth hpos
    obtain ⟨b, hb, hbt⟩ := hl k hk
    have hmem := h.order.mem_left hb hbt
    apply ne_nil_of_mem (a := k.idx)
    rw [mem_layer, hold k.idx (mem_append_left _ hmem), depthOf, h.depth k.idx b hb,
      getD_some]
    rw [h.depth k.idx b hb, incDepth] at hkd
    exact ⟨hmem, by omega⟩
  have htype : s₁.getTypeID idx = t := getTypeID_of_live hp.created.here
  obtain ⟨o, ho, hos, hod, hlay⟩ :=
    hp.layered.add (hp.not_mem h) hp.lt (by rw [setDepth_depth, hde]) (htype ▸ hout)
    (htype ▸ hin) hprev
  obtain ⟨hc, hnet, hd⟩ := hp.placed hos hod
  -- the inputs are a prefix of the part before the new cell
  obtain ⟨Y, hY⟩ := hp.layered.sorted.prefix_of_le (d := d) (prefix_append ins mid) (fun i hi => by
    obtain ⟨-, -, -, hzero⟩ := h.mem_ins hi
    rw [hold i (by simp [hi]), hzero]
    exact Nat.zero_le d)
  have hsplit := hp.layered.sorted.split d
  rw [hde, ← hY, append_assoc] at hlay
  rw [← hY, append_assoc] at hsplit
  generalize above o₁.depthOf (ins ++ mid) d = Z at hlay hsplit
  have hmid : mid = Y ++ Z := append_cancel_left hsplit
  refine ⟨o, Y ++ idx :: Z, ho,
    h.of_created hl hlen (fun ht => absurd ht hin) hc hnet hd ?_ (fun i => ?_)
    (fun i => ?_) (fun i => ?_)⟩
  · have hdep : o.depthOf = o₁.depthOf := by
      funext i
      rw [depthOf, hod, depthOf]
    change o.Layered o.depthOf _ outs
    rw [hdep]
    exact hlay
  · simp [hin]
  · rw [hmid, mem_append, mem_append, mem_cons]
    simp only [hin, hout, ne_eq, not_false_eq_true, and_true]
    tauto
  · simp [hout]

private theorem Leveled.placeInput (h : Leveled s ins [] [])
    (hp : Placing s s₁ .IN [] idx ins [] []) : ∃ o, (s₁.order.setDepth idx (some 0)).addDepthBounds
    s₁.getTypeID idx = some o ∧
      Leveled { s₁ with order := o } (ins ++ [idx]) [] [] := by
  have hzero : ∀ i ∈ ins, (s₁.order.setDepth idx (some 0)).depthOf i = 0 ∧
      s₁.getTypeID i = .IN := by
    intro i hi
    obtain ⟨c, hc, ht, hd⟩ := h.mem_ins hi
    have hne : i ≠ idx := fun hii => hp.not_mem h (by simp [← hii, hi])
    obtain ⟨n, hn⟩ := hp.created.old i c hc
    rw [depthOf_of_ne hne, depthOf, hp.depth, getTypeID_of_live hn]
    exact ⟨hd, ht⟩
  have hlay := hp.layered
  rw [append_nil] at hlay
  have hfirst : layer (s₁.order.setDepth idx (some 0)).depthOf ins 0 = ins ++ [] := by
    rw [append_nil, layer_eq_self (fun i hi => (hzero i hi).1)]
  have hnot := hp.not_mem h
  rw [append_nil] at hnot
  obtain ⟨o, ho, hos, hod, hlay'⟩ := hlay.add_in hnot hp.lt setDepth_depth setDepth_self
    (getTypeID_of_live hp.created.here) hfirst (fun _ => rfl) (fun a ha => by
      rw [(hzero a (mem_of_getLast? ha)).2]
      simp) (by simp)
  obtain ⟨hc, hnet, hd⟩ := hp.placed hos hod
  refine ⟨o, ho, h.of_created (by simp [ValidLinks]) (Nat.zero_le _)
    (fun _ => rfl) hc hnet hd ?_ (by simp) (by simp) (by simp)⟩
  have hdep : o.depthOf = (s₁.order.setDepth idx (some 0)).depthOf := by
    funext i
    rw [depthOf, hod]
    rfl
  have habove : above (s₁.order.setDepth idx (some 0)).depthOf ins 0 = [] :=
    above_eq_nil (fun i hi => Nat.le_of_eq (hzero i hi).1)
  change o.Layered o.depthOf _ []
  rw [hdep, append_nil]
  have hlay' : o.Layered (s₁.order.setDepth idx (some 0)).depthOf
    (ins ++ idx :: ([] ++ above (s₁.order.setDepth idx (some 0)).depthOf ins 0)) [] := hlay'
  rw [habove] at hlay'
  exact hlay'

private theorem Leveled.placeOutput (h : Leveled s ins mid outs) (hl : s.ValidLinks links)
    (hlen : links.length ≤ InPlaceLinks) (hp : Placing s s₁ .OUT links idx ins mid outs)
    (hne : ins ++ mid ++ outs ≠ []) :
    ∃ o, (s₁.order.setDepth idx (some (s.order.linksDepth links))).addDepthBounds s₁.getTypeID idx =
    some o ∧
      Leveled { s₁ with order := o } ins mid (outs ++ [idx]) := by
  obtain ⟨o, ho, hos, hod, hlay⟩ :=
    hp.layered.add_out (hp.not_mem h) hp.lt (by rw [setDepth_depth]; rfl)
    (getTypeID_of_live hp.created.here) hne
  obtain ⟨hc, hnet, hd⟩ := hp.placed hos hod
  refine ⟨o, ho, h.of_created hl hlen (fun ht => by cases ht) hc hnet hd ?_ (by simp) (by simp)
    (by simp)⟩
  have hdep : o.depthOf = (s₁.order.setDepth idx (some (s.order.linksDepth links))).depthOf := by
    funext i
    rw [depthOf, hod, depthOf]
  change o.Layered o.depthOf _ _
  rw [hdep]
  exact hlay

theorem Leveled.addCell {r : Link} (h : Leveled s ins mid outs) (hl : s.ValidLinks links)
    (hlen : links.length ≤ InPlaceLinks) (hin : t = .IN → mid = [] ∧ outs = []) (hout : t = .OUT →
      links ≠ [])
    (ha : s.addCell t links = some (s', r)) :
    ∃ mid', Leveled s' (if t = .IN then ins ++ [r.idx] else ins) mid' (if t = .OUT then
    outs ++ [r.idx] else outs) := by
  unfold SubnetBuilder.addCell at ha
  split at ha
  · cases ha
  · rename_i hok
    have hno : t = .IN → links = [] := by
      intro ht
      by_contra hne
      exact hok (.inr ⟨ht, hne⟩)
    obtain ⟨⟨s₂, i⟩, hs₂, ha⟩ := bind_eq_some_iff.mp ha
    cases ha
    rcases h.allocEntry hl hlen t with ⟨i', he, hall⟩ | ⟨s₁, idx, hp, hall⟩
    · rw [hall] at hs₂
      cases hs₂
      simp only [StrashKey.isEnabled, Bool.and_eq_true, decide_eq_true_eq] at he
      rw [if_neg he.1.1, if_neg he.1.2]
      exact ⟨mid, h.setCounts⟩
    · rw [hall] at hs₂
      obtain ⟨o, ho, heq⟩ := Option.map_eq_some_iff.mp hs₂
      cases heq
      by_cases htin : t = .IN
      · obtain ⟨rfl, rfl⟩ := hin htin
        subst htin
        obtain rfl := hno rfl
        obtain ⟨o', ho', hlev⟩ := h.placeInput hp
        obtain rfl : o = o' := some.inj (ho.symm.trans ho')
        exact ⟨[], hlev.setCounts⟩
      · by_cases htout : t = .OUT
        · subst htout
          have hne : ins ++ mid ++ outs ≠ [] := by
            obtain ⟨l, hlm⟩ := exists_mem_of_ne_nil _ (hout rfl)
            obtain ⟨a, ha, -⟩ := hl l hlm
            exact ne_nil_of_mem ((h.order.mem l.idx).mpr (by rw [ha]; rfl))
          obtain ⟨o', ho', hlev⟩ := h.placeOutput hl hlen hp hne
          obtain rfl : o = o' := some.inj (ho.symm.trans ho')
          exact ⟨mid, hlev.setCounts⟩
        · obtain ⟨o', mid', ho', hlev⟩ := h.place hl hlen htin htout hp
          obtain rfl : o = o' := some.inj (ho.symm.trans ho')
          rw [if_neg htin, if_neg htout]
          exact ⟨mid', hlev.setCounts⟩

/-! ### Replacing a cell -/

private theorem OrderInv.sameNet {l : List EntryID} (h : OrderInv s l outs) (hs : SameNet s s') :
    OrderInv s' l outs := by
  refine ⟨?_, fun i => ?_, fun i hi => ?_, fun i hi => ?_⟩
  · rw [hs.order]
    exact h.layered
  · rw [hs.isSome]
    exact h.mem i
  · rw [hs.getTypeID]
    exact h.out i hi
  · rw [hs.order]
    exact h.depth i hi

private theorem OrderInv.of_delLinks {N : Netlist} {del : Bool} {new : List EntryID} :
    ∀ {links : List Link} {s : SubnetBuilder} {V : EntryID → List EntryID} {l : List EntryID}
    {D : Finset EntryID}, Relinking N root (links.map Link.idx) new s V → OrderInv s l outs →
    (∀ l ∈ links, ¬ N.Reaches l.idx root) → delLinks root del links s = some s' → Deleted s s' D →
    OrderInv s' (l.filter (· ∉ D)) outs ∧ ∀ i, i ∉ D → s'.order.depth i = s.order.depth i := by
  intro links
  induction links with
  | nil =>
    intro s V l D _ h _ hs hD
    cases hs
    obtain rfl := hD.unique (SameNet.refl s').deleted
    rw [filter_eq_self.mpr (by simp)]
    exact ⟨h, fun _ _ => rfl⟩
  | cons k links ih =>
    intro s V l D hrel h hr hs hD
    obtain ⟨s₁, V₁, c, hs₁, hsame, hc, h₁, hdel⟩ := hrel.delLink
    have hr' : ∀ m ∈ links, ¬ N.Reaches m.idx root := fun m hm => hr m (mem_cons_of_mem k hm)
    simp only [SubnetBuilder.delLinks, hs₁, getCell_of_live hc, bind_eq_bind,
      bind_some] at hs
    split at hs
    · rename_i hcond
      obtain ⟨s₂, hs₂, hs⟩ := bind_eq_some_iff.mp hs
      have hE : ∀ i ∈ ({root} : Set EntryID), ¬ N.Reaches k.idx i := by
        intro i hi
        rw [hi]
        exact hr k (mem_cons_self ..)
      obtain ⟨D₁, V₂, h₂, hdel₁, hV₂, -⟩ := (hdel hcond.1).of_deleteQueue hE hs₂
      obtain ⟨hord₁, hdep₁⟩ := OrderInv.of_deleteQueue hE (hdel hcond.1) (h.sameNet hsame) hs₂ hdel₁
      have hrel₂ : Relinking N root (links.map Link.idx) new s₂ V₂ :=
        ⟨h₂.net, by rw [hV₂ root rfl, h₁.here], fun i hi => h₂.agree i hi, h₂.sub⟩
      obtain ⟨D₂, -, -, hdel₂, -⟩ := hrel₂.of_delLinks hr' hs
      obtain ⟨hord₂, hdep₂⟩ := ih hrel₂ hord₁ hr' hs hdel₂
      obtain rfl : D = D₁ ∪ D₂ := by
        apply hD.unique
        simpa using hsame.deleted.trans (hdel₁.trans hdel₂)
      refine ⟨?_, fun i hi => ?_⟩
      · rw [filter_filter] at hord₂
        have hkeep : (fun a => decide (a ∉ D₁ ∪ D₂)) = fun a => decide (a ∉ D₂) &&
            decide (a ∉ D₁) := by
          funext a
          rw [Bool.and_comm]
          simp only [Finset.mem_union, not_or, Bool.decide_and]
        rw [hkeep]
        exact hord₂
      · rw [Finset.mem_union, not_or] at hi
        rw [hdep₂ i hi.2, hdep₁ i hi.1, hsame.order]
    · obtain ⟨D₂, -, -, hdel₂, -⟩ := h₁.of_delLinks hr' hs
      obtain ⟨hord₂, hdep₂⟩ := ih h₁ (h.sameNet hsame) hr' hs hdel₂
      obtain rfl : D = D₂ := by
        apply hD.unique
        simpa using hsame.deleted.trans hdel₂
      exact ⟨hord₂, fun i hi => by rw [hdep₂ i hi, hsame.order]⟩

private theorem Leveled.relinked {del : Bool} (h : Leveled s ins mid outs)
    (hfit : CellFits s root links) (hc : s.liveCell root = some c) (hout : c.type ≠ .OUT)
    (hen : StrashKey.isEnabled t links = true) (hrel : s.relinked root t links del = some s₁) :
    ∃ D, NetInv s₁ s₁.targets ∧ Replaced s s₁ root t links D ∧
    OrderInv s₁ ((ins ++ mid).filter (· ∉ D)) outs ∧
      ∀ i, i ∉ D → s₁.order.depth i = s.order.depth i := by
  obtain ⟨f, hf, hfnet, hfkeys⟩ := h.net.destrash hc
  simp only [SubnetBuilder.relinked, getCell_of_live hc, hf, bind_eq_bind,
    bind_some] at hrel
  obtain ⟨s₂, V, hs₂, h₂, hsame⟩ := hfnet.startRelinking
    (b := s.nBuf - c.isBuf.toNat + (decide (t = .BUF)).toNat) hc hfit.valid
  rw [hs₂, bind_some] at hrel
  obtain ⟨s₃, hs₃, hrel⟩ := bind_eq_some_iff.mp hrel
  cases hrel
  have hN := h.netOk.acyclic
  have hreach : ∀ l ∈ c.links, ¬ s.netlist.Reaches l.idx root := fun l hlm =>
    not_reaches_of_fanin hN ⟨_, netlist_of_live hc, l, hlm, rfl⟩
  obtain ⟨D, V', h₃, hdel, hD⟩ := h₂.of_delLinks hreach hs₃
  have hstart : OrderInv { s with strash := f, nBuf := s.nBuf - c.isBuf.toNat + (decide (t = .BUF)).toNat }
      (ins ++ mid) outs := ⟨h.order.layered, h.order.mem, h.order.out, h.order.depth⟩
  obtain ⟨hord, hdep⟩ := OrderInv.of_delLinks h₂ (hstart.sameNet hsame) hreach hs₃ hdel
  have ht : t ≠ .OUT := by
    rintro rfl
    cases hen
  obtain ⟨hnet, hrepl, hlive⟩ :=
    h₃.finish h.net hN hc hfit.acyclic (fun heq => absurd heq ht) hfkeys hsame hdel hD rfl
  have horder : ((s₃.setCell root ⟨t, links, c.refcount⟩).strashRoot root t links).order =
      s₃.order := by
    rw [SubnetBuilder.strashRoot]
    split <;> rfl
  refine ⟨D, hnet, hrepl, ?_, fun i hi => by rw [horder, hdep i hi, hsame.order]⟩
  · have hrootD : root ∉ D := fun hmem => (hrepl.fanin root hmem).1 rfl
    have hroot₃ : (s₃.liveCell root).isSome := by
      obtain ⟨n, hn⟩ := hsame.liveCell (i := root) (c := c) hc
      obtain ⟨m, hm⟩ := hdel.liveCell hrootD hn
      rw [hm]
      rfl
    refine ⟨horder ▸ hord.layered, fun i => ?_, fun i hi => ?_,
      fun i hi => horder ▸ hord.depth i hi⟩
    · rw [hord.mem, hlive]
      by_cases hi : i = root
      · simp [hi, hroot₃]
      · rw [if_neg hi]
    · by_cases hir : i = root
      · subst hir
        have hmem := h.order.mem_left hc hout
        rw [getTypeID_of_live ((hlive i).trans (if_pos rfl))]
        refine ⟨fun heq => absurd heq ht, fun hmem' => ?_⟩
        exact absurd rfl ((nodup_append.mp h.order.layered.lists.nodup).2.2 i hmem i hmem')
      · obtain ⟨a, ha⟩ := isSome_iff_exists.mp ((hord.mem i).mp hi)
        have hout' := hord.out i hi
        rw [getTypeID_of_live ha] at hout'
        rw [getTypeID_of_live ((hlive i).trans ((if_neg hir).trans ha))]
        exact hout'

private theorem Replaced.of_live {a : SubnetCell} (h : Replaced s s₁ root t links D)
    (ha : s₁.liveCell i = some a) : i ∉ D ∧ (i = root ∧ a.type = t ∧ a.links = links ∨
      i ≠ root ∧ ∃ b, s.liveCell i = some b ∧ b.type = a.type ∧ b.links = a.links) := by
  have hg := netlist_of_live ha
  rw [h.netlist] at hg
  split at hg
  · rename_i hi
    cases hg
    exact ⟨fun hmem => (h.fanin i hmem).1 hi, .inl ⟨hi, rfl, rfl⟩⟩
  · rename_i hi
    split at hg
    · cases hg
    · rename_i hiD
      obtain ⟨b, hb, hbt, hbl⟩ := liveCell_of_netlist hg
      exact ⟨hiD, .inr ⟨hi, b, hb, hbt, hbl⟩⟩

private theorem Replaced.target {a : SubnetCell} (h : Replaced s s₁ root t links D)
    (hnet : NetInv s₁ s₁.targets) (ha : s₁.liveCell i = some a) {l : Link} (hl : l ∈ a.links) :
    ∃ b, s₁.liveCell l.idx = some b ∧ b.type ≠ .OUT ∧
      l.idx ∉ D := by
  obtain ⟨b, hb, hbt⟩ := hnet.target i l.idx (by
    rw [targets_of_live ha]
    exact mem_map_of_mem hl)
  exact ⟨b, hb, hbt, (h.of_live hb).1⟩

private theorem Replaced.linksDepth_eq {a : SubnetCell} (h : Replaced s s₁ root t links D)
    (hnet : NetInv s₁ s₁.targets) (hdep : ∀ i, i ∉ D → s₁.order.depth i = s.order.depth i)
    (ha : s₁.liveCell i = some a) : s₁.order.linksDepth a.links = s.order.linksDepth a.links := by
  refine linksDepth_congr (fun l hl => ?_)
  obtain ⟨-, -, -, hD⟩ := h.target hnet ha hl
  exact hdep _ hD

private theorem Leveled.depth_of_replaced {a : SubnetCell} (h : Leveled s ins mid outs)
    (hrepl : Replaced s s₁ root t links D) (hnet : NetInv s₁ s₁.targets)
    (hdep : ∀ i, i ∉ D → s₁.order.depth i = s.order.depth i) (ha : s₁.liveCell i = some a)
    (hi : i ≠ root) : s₁.order.depth i = some (s₁.order.linksDepth a.links) := by
  obtain ⟨hD, ⟨hir, -⟩ | ⟨-, b, hb, -, hbl⟩⟩ := hrepl.of_live ha
  · exact absurd hir hi
  · rw [hrepl.linksDepth_eq hnet hdep ha, hdep i hD, h.depth i b hb, hbl]

private theorem Leveled.of_replaced {mid' : List EntryID} (h : Leveled s ins mid outs)
    (hrepl : Replaced s s₁ root t links D) (hen : StrashKey.isEnabled t links = true)
    (hlive : s'.liveCell = s₁.liveCell) (hnet : NetInv s' s'.targets)
    (hord : OrderInv s' (ins.filter (· ≠ root) ++ mid') outs)
    (hdepth : ∀ i a, s'.liveCell i = some a →
      s'.order.depth i = some (s'.order.linksDepth a.links)) :
    Leveled s' (ins.filter (· ≠ root)) mid' outs := by
  simp only [StrashKey.isEnabled, Bool.and_eq_true, decide_eq_true_eq] at hen
  refine ⟨hnet, hord, fun i a ha => ?_, fun i a ha => ?_, fun i a ha => ?_, hdepth⟩
  all_goals rw [hlive] at ha
  · rw [mem_filter]
    obtain ⟨-, ⟨hir, hat, -⟩ | ⟨hir, b, hb, hbt, -⟩⟩ := hrepl.of_live ha
    · rw [hat]
      simp [hir, hen]
    · rw [← hbt, h.input i b hb]
      simp [hir]
  · intro ht
    obtain ⟨-, ⟨-, hat, -⟩ | ⟨-, b, hb, hbt, hbl⟩⟩ := hrepl.of_live ha
    · exact absurd (hat.symm.trans ht) hen.1.1
    · rw [← hbl]
      exact h.noLinks i b hb (hbt.trans ht)
  · obtain ⟨-, ⟨-, -, hal⟩ | ⟨-, b, hb, -, hbl⟩⟩ := hrepl.of_live ha
    · rw [hal]
      exact hen.2
    · rw [← hbl]
      exact h.small i b hb

private theorem Leveled.filter_ins (h : Leveled s ins mid outs)
    (hrepl : Replaced s s₁ root t links D) : ins.filter (· ∉ D) = ins := by
  rw [filter_eq_self]
  intro i hi
  rw [decide_eq_true_eq]
  intro hD
  obtain ⟨g, hg, hgt⟩ := hrepl.notIn i hD
  obtain ⟨b, hb, hbt, -⟩ := liveCell_of_netlist hg
  exact hgt (hbt ▸ (h.input i b hb).mpr hi)

private theorem Leveled.replaceInPlace (h : Leveled s ins mid outs) (hroot : root ∈ ins ++ mid)
    (hrepl : Replaced s s₁ root t links D) (hen : StrashKey.isEnabled t links = true)
    (hnet : NetInv s₁ s₁.targets) (hord : OrderInv s₁ ((ins ++ mid).filter (· ∉ D)) outs)
    (hdep : ∀ i, i ∉ D → s₁.order.depth i = s.order.depth i)
    (hlast : root ∈ ins → links = [] → ∃ A, ins = A ++ [root])
    (heq : s₁.order.depth root = some (s.order.linksDepth links)) :
    ∃ mid', Leveled s₁ (ins.filter (· ≠ root)) mid' outs := by
  obtain ⟨a, ha, hat, hal⟩ := liveCell_of_netlist ((hrepl.netlist root).trans (if_pos rfl))
  have hdepth : ∀ i b, s₁.liveCell i = some b →
      s₁.order.depth i = some (s₁.order.linksDepth b.links) := by
    intro i b hb
    by_cases hi : i = root
    · subst hi
      obtain rfl : a = b := some.inj (ha.symm.trans hb)
      rw [heq, hrepl.linksDepth_eq hnet hdep ha, hal]
    · exact h.depth_of_replaced hrepl hnet hdep hb hi
  have hnd := (nodup_append.mp h.order.layered.lists.nodup).1
  rw [filter_append, h.filter_ins hrepl] at hord
  by_cases hin : root ∈ ins
  · have hlinks : links = [] := by
      by_contra hne
      obtain ⟨l, hl⟩ := exists_mem_of_ne_nil _ hne
      obtain ⟨b, hb, -, hD⟩ := hrepl.target hnet ha (by rw [hal]; exact hl)
      obtain ⟨-, -, -, hzero⟩ := h.mem_ins hin
      have hle := le_linksDepth (o := s.order) hl
      rw [← hdep _ hD, hdepth _ b hb, incDepth] at hle
      rw [hdep root (fun hmem => (hrepl.fanin root hmem).1 rfl)] at heq
      rw [depthOf, heq, getD_some] at hzero
      omega
    obtain ⟨A, rfl⟩ := hlast hin hlinks
    have hA : root ∉ A := fun hmem =>
      (nodup_append.mp (nodup_append.mp hnd).1).2.2 root hmem root (mem_singleton_self _)
        rfl
    have hfilter : (A ++ [root]).filter (· ≠ root) = A := by
      rw [filter_append, filter_eq_self.mpr
        (fun i hi => by simpa using fun hir : i = root => hA (hir ▸ hi))]
      simp
    refine ⟨root :: mid.filter (· ∉ D), h.of_replaced hrepl hen rfl hnet ?_ hdepth⟩
    rw [hfilter]
    simpa using hord
  · refine ⟨mid.filter (· ∉ D), h.of_replaced hrepl hen rfl hnet ?_ hdepth⟩
    rw [filter_eq_self.mpr (fun i hi => by simpa using fun hir : i = root => hin (hir ▸ hi))]
    exact hord

private theorem NetInv.refcount_eq_uses {l : List EntryID} (h : NetInv s s.targets) (hnd : l.Nodup)
    (hmem : ∀ i, i ∈ l ↔ (s.liveCell i).isSome) (hc : s.liveCell i = some c) :
    c.refcount = (l.map (uses s.getCell [i])).sum := by
  have huses : ∀ k ∈ l, uses s.getCell [i] k = (s.targets k).count i := by
    intro k hk
    obtain ⟨a, ha⟩ := isSome_iff_exists.mp ((hmem k).mp hk)
    rw [uses, getCell_of_live ha, targets_of_live ha, Option.map_some, getD_some, count,
      countP_map]
    refine countP_congr (fun m _ => ?_)
    simp
  rw [map_congr_left huses, ← sum_toFinset _ hnd, h.refcount i c hc, card_users]
  refine (Finset.sum_subset (fun k hk => ?_) (fun k _ hk => ?_)).symm
  · rw [mem_toFinset, hmem] at hk
    obtain ⟨a, ha⟩ := isSome_iff_exists.mp hk
    exact Finset.mem_range.mpr (lt_of_live ha)
  · rw [mem_toFinset, hmem, Bool.not_eq_true, Option.isSome_eq_false_iff,
      Option.isNone_iff_eq_none] at hk
    rw [targets_of_dead hk]
    rfl

private theorem NetInv.reaches_of_linksTo (h : NetInv s s.targets) (hi : (s.liveCell i).isSome)
    (hij : Relation.ReflTransGen (LinksTo s.getCell) i j) : s.netlist.Reaches i j := by
  induction hij using Relation.ReflTransGen.head_induction_on with
  | refl => exact .refl
  | head hab _ ih =>
    obtain ⟨a, ha⟩ := isSome_iff_exists.mp hi
    obtain ⟨b, hb, l, hl, hlk⟩ := hab
    obtain rfl : a = b := some.inj ((getCell_of_live ha).symm.trans hb)
    have hfan : s.netlist.Fanin _ _ := ⟨_, netlist_of_live ha, l, hl, hlk⟩
    obtain ⟨d, hd, -⟩ := h.target _ _ (mem_targets.mpr hfan)
    exact .head hfan (ih (by rw [hd]; rfl))

private theorem Leveled.depth_lt_of_reaches (h : Leveled s ins mid outs)
    (hij : s.netlist.Reaches i j) (hne : j ≠ i) : s.order.depthOf j < s.order.depthOf i := by
  induction hij with
  | refl => exact absurd rfl hne
  | tail hik hkj ih =>
    rename_i k j
    have hlt := h.depth_lt hkj
    by_cases hki : k = i
    · rw [← hki]
      exact hlt
    · exact Nat.lt_trans hlt (ih hki)

private theorem Leveled.rooted {l : List EntryID} (h : Leveled s ins mid outs)
    (hacyclic : s₁.netlist.Acyclic) (hrepl : Replaced s s₁ root t links D)
    (hen : StrashKey.isEnabled t links = true) (hnet : NetInv s₁ s₁.targets)
    (hord : OrderInv s₁ l outs) :
    EntryOrder.Ordered s₁.getCell s₁.getTypeID s₁.order l outs ∧
    Rooted s₁.getCell root (fun _ => True) l outs := by
  simp only [StrashKey.isEnabled, Bool.and_eq_true, decide_eq_true_eq] at hen
  have hlive : ∀ i ∈ l ++ outs, ∃ a, s₁.liveCell i = some a := fun i hi =>
    isSome_iff_exists.mp ((hord.mem i).mp hi)
  have hfan : ∀ i ∈ l ++ outs, ∀ j, LinksTo s₁.getCell i j → s₁.netlist.Fanin i j := by
    rintro i hi j ⟨b, hb, k, hk, hkj⟩
    obtain ⟨a, ha⟩ := hlive i hi
    obtain rfl : a = b := some.inj ((getCell_of_live ha).symm.trans hb)
    exact ⟨_, netlist_of_live ha, k, hk, hkj⟩
  refine ⟨⟨hord.layered, hord.depth, fun i hi => ?_, hord.out, fun i hi ht j hij => ?_,
    fun i hi j hij => ?_⟩, ⟨fun i hi hii => ?_, fun i hi hreach hri => ?_, fun _ _ => trivial,
    fun i hi a ha => ?_⟩⟩
  · obtain ⟨a, ha⟩ := hlive i hi
    refine ⟨a, getCell_of_live ha, (getTypeID_of_live ha).symm, ?_⟩
    obtain ⟨-, ⟨-, -, hal⟩ | ⟨-, b, hb, -, hbl⟩⟩ := hrepl.of_live ha
    · rw [SubnetCell.arity, hal]
      exact hen.2
    · rw [SubnetCell.arity, ← hbl]
      exact h.small i b hb
  · obtain ⟨a, ha⟩ := hlive i hi
    rw [getTypeID_of_live ha] at ht
    obtain ⟨b, hb, k, hk, -⟩ := hij
    obtain rfl : a = b := some.inj ((getCell_of_live ha).symm.trans hb)
    obtain ⟨-, ⟨-, hat, -⟩ | ⟨-, d, hd, hdt, hdl⟩⟩ := hrepl.of_live ha
    · exact hen.1.1 (hat.symm.trans ht)
    · rw [← hdl, h.noLinks i d hd (hdt.trans ht)] at hk
      cases hk
  · obtain ⟨b, hb, hbt⟩ := hnet.target i j (mem_targets.mpr (hfan i hi j hij))
    exact hord.mem_left hb hbt
  · exact not_reaches_of_fanin hacyclic (hfan i (mem_append_left _ hi) i hii) .refl
  · have hir := hnet.reaches_of_linksTo ((hord.mem i).mp (mem_append_left _ hi)) hreach
    obtain ⟨b, hb, k, hk, hki⟩ := hri
    have hroot : s₁.netlist root = some ⟨t, links⟩ := (hrepl.netlist root).trans (if_pos rfl)
    obtain ⟨a, ha, -, hal⟩ := liveCell_of_netlist hroot
    obtain rfl : a = b := some.inj ((getCell_of_live ha).symm.trans hb)
    exact not_reaches_of_fanin hacyclic ⟨_, hroot, k, hal ▸ hk, hki⟩ hir
  · obtain ⟨b, hb⟩ := hlive i (mem_append_left _ hi)
    obtain rfl : b = a := some.inj ((getCell_of_live hb).symm.trans ha)
    exact hnet.refcount_eq_uses hord.layered.lists.nodup hord.mem hb

private theorem Leveled.replaceMoved {p : Place} {o₁ o₂ : EntryOrder} (h : Leveled s ins mid outs)
    (hroot : root ∈ ins ++ mid) (hp : s.order.getNext (.entry root) = some p)
    (hacyclic : s₁.netlist.Acyclic) (hrepl : Replaced s s₁ root t links D)
    (hen : StrashKey.isEnabled t links = true) (hnet : NetInv s₁ s₁.targets)
    (hord : OrderInv s₁ ((ins ++ mid).filter (· ∉ D)) outs)
    (hdep : ∀ i, i ∉ D → s₁.order.depth i = s.order.depth i)
    (ho₁ : s₁.order.moveToDepth s₁.getTypeID root (s.order.linksDepth links) = some o₁)
    (ho₂ : o₁.recomputeFanoutDepths s₁.getCell s₁.getTypeID root p = some o₂) :
    ∃ mid', Leveled { s₁ with order := o₂ } (ins.filter (· ≠ root)) mid' outs := by
  obtain ⟨a, ha, hat, hal⟩ := liveCell_of_netlist ((hrepl.netlist root).trans (if_pos rfl))
  have hrootD : root ∉ D := fun hmem => (hrepl.fanin root hmem).1 rfl
  obtain ⟨X, Y, hXY⟩ := append_of_mem hroot
  have hlay := h.order.layered
  rw [hXY] at hlay
  -- the deleted cells lie before the root, so the entry behind it stays
  have hY : Y.filter (· ∉ D) = Y := by
    rw [filter_eq_self]
    intro i hi
    rw [decide_eq_true_eq]
    intro hD
    obtain ⟨hne, hreach⟩ := hrepl.fanin i hD
    exact absurd (h.depth_lt_of_reaches hreach hne)
      (Nat.not_lt.mpr (hlay.sorted.le_of_split.2 i hi))
  have hnext : p = after (Y ++ outs) := by
    have hnext := Lists.getNext (o := s.order) (u := X ++ [root]) (v := Y ++ outs)
      (by simpa using hlay.lists)
    rw [before_concat, hp] at hnext
    exact some.inj hnext
  have hlist : (ins ++ mid).filter (· ∉ D) = X.filter (· ∉ D) ++ root :: Y := by
    rw [hXY, filter_append, filter_cons_of_pos (by simpa using hrootD), hY]
  rw [hlist] at hord
  obtain ⟨hordered, hrooted⟩ := h.rooted hacyclic hrepl hen hnet hord
  have hF : ∀ i ∈ X.filter (· ∉ D) ++ root :: Y ++ outs, True → i ≠ root →
      HasDepth s₁.getCell s₁.order i := by
    intro i hi _ hir b hb
    obtain ⟨d, hd⟩ := isSome_iff_exists.mp ((hord.mem i).mp hi)
    obtain rfl : d = b := some.inj ((getCell_of_live hd).symm.trans hb)
    exact h.depth_of_replaced hrepl hnet hdep hd hir
  have hin : s₁.getTypeID root ≠ .IN := by
    rw [getTypeID_of_live ha, hat]
    rintro rfl
    cases hen
  obtain ⟨o₁', o₂', m, ho₁', ho₂', hperm, hordered', hsize, hdepths, -, -, hkept⟩ :=
    hordered.relocate hrooted (getCell_of_live ha) hF hin
  rw [hrepl.linksDepth_eq hnet hdep ha, hal] at ho₁'
  obtain rfl : o₁ = o₁' := some.inj (ho₁.symm.trans ho₁')
  rw [← hnext] at ho₂'
  obtain rfl : o₂ = o₂' := some.inj (ho₂.symm.trans ho₂')
  -- the inputs do not reach the root, so they stay in front
  have hprefix : ins.filter (· ≠ root) <+: X.filter (· ∉ D) ++ Y := by
    have hne : ∀ i ∈ X ++ Y, decide (i ≠ root) = true := by
      intro i hi
      have hnd := (nodup_append.mp hlay.lists.nodup).1
      rw [perm_middle.nodup_iff, nodup_cons] at hnd
      exact decide_eq_true (fun hir => hnd.1 (hir ▸ hi))
    have hall : (ins ++ mid).filter (· ≠ root) = X ++ Y := by
      rw [hXY, filter_append, filter_cons_of_neg (by simp), ← filter_append]
      exact filter_eq_self.mpr hne
    have hpre : ins.filter (· ≠ root) <+: X ++ Y := by
      rw [← hall, filter_append]
      exact prefix_append _ _
    have hpre := hpre.filter (fun i => decide (i ∉ D))
    rw [filter_append, hY, filter_filter] at hpre
    have hkeep : ins.filter (fun i => decide (i ∉ D) && decide (i ≠ root)) =
        ins.filter (· ≠ root) := by
      conv_rhs => rw [← h.filter_ins hrepl, filter_filter]
      exact filter_congr (fun i _ => Bool.and_comm ..)
    rwa [hkeep] at hpre
  obtain ⟨mid', rfl⟩ := hkept _ hprefix (by
    intro i hi
    obtain ⟨hi, hir⟩ := mem_filter.mp hi
    obtain ⟨b, hb, hbt, hzero⟩ := h.mem_ins hi
    have hiD : i ∉ D := by
      have hmem := h.filter_ins hrepl ▸ hi
      simpa using (mem_filter.mp hmem).2
    refine ⟨fun hreach => ?_, by rw [depthOf, hdep i hiD]; exact hzero⟩
    have hgate : s₁.netlist i = some ⟨b.type, b.links⟩ := by
      rw [hrepl.netlist, if_neg (of_decide_eq_true hir), if_neg hiD, netlist_of_live hb]
    rcases Relation.ReflTransGen.cases_head
      (hnet.reaches_of_linksTo (by rw [← netlist_isSome, hgate]; rfl) hreach)
      with heq | ⟨k, ⟨g, hg, l, hl, -⟩, -⟩
    · exact of_decide_eq_true hir heq
    · rw [hgate] at hg
      cases hg
      rw [h.noLinks i b hb hbt] at hl
      cases hl)
  have hlive : ({ s₁ with order := o₂ } : SubnetBuilder).liveCell = s₁.liveCell :=
    liveCell_setOrder hsize
  have htar : ({ s₁ with order := o₂ } : SubnetBuilder).targets = s₁.targets := by
    funext i
    simp only [SubnetBuilder.targets, hlive]
  have hmem : ∀ i, i ∈ ins.filter (· ≠ root) ++ mid' ++ outs ↔
      i ∈ X.filter (· ∉ D) ++ root :: Y ++ outs := fun i =>
    (hperm.append_right outs).mem_iff
  refine ⟨mid', h.of_replaced hrepl hen hlive (htar ▸ hnet.setOrder hsize)
    ⟨hordered'.layered, fun i => ?_, hordered'.out, hordered'.depth⟩ (fun i b hb => ?_)⟩
  · rw [hlive, hmem, hord.mem]
  · rw [hlive] at hb
    exact hdepths i ((hmem i).mpr ((hord.mem i).mpr (by rw [hb]; rfl))) trivial b
      (getCell_of_live hb)

/-- Replacing a cell that is not an output. An input may only be replaced by a cell without links if
no other input comes behind it. -/
theorem Leveled.replaceCell {del : Bool} {r : Link} (h : Leveled s ins mid outs)
    (hfit : CellFits s root links) (hout : s.getTypeID root ≠ .OUT) (hlast : root ∈ ins →
    links = [] → ∃ A, ins = A ++ [root]) (hrep : s.replaceCell root t links del = some (s', r)) :
    ∃ mid', Leveled s' (ins.filter (· ≠ root)) mid' outs := by
  obtain ⟨g, hg⟩ := isSome_iff_exists.mp hfit.live
  obtain ⟨c, hc, -⟩ := liveCell_of_netlist hg
  rw [getTypeID_of_live hc] at hout
  obtain ⟨hen, s₁, p, hrel, hp, hreorder⟩ := of_replaceCell_relinked (getCell_of_live hc) hrep
  have hen := hen.resolve_right (fun ht => hout ht.2)
  obtain ⟨D, hnet, hrepl, hord, hdep⟩ := h.relinked hfit hc hout hen hrel
  have hroot := h.order.mem_left hc hout
  rw [SubnetBuilder.reorder] at hreorder
  split at hreorder
  · rename_i heq
    cases hreorder
    exact h.replaceInPlace hroot hrepl hen hnet hord hdep hlast heq
  · obtain ⟨o₁, ho₁, hreorder⟩ := bind_eq_some_iff.mp hreorder
    obtain ⟨o₂, ho₂, hreorder⟩ := bind_eq_some_iff.mp hreorder
    cases hreorder
    exact h.replaceMoved hroot hp (hrepl.acyclic h.netOk.acyclic hfit.acyclic) hrepl hen hnet hord
      hdep ho₁ ho₂

end UtopiaEda.SubnetBuilder
