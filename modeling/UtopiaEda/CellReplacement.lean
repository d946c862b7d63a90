import UtopiaEda.CellAddition

/-!
# Replacing a cell

`replaceCell` registers the links of the new cell, unregisters those of the old one and
deletes the cells that become unused. The cell that is replaced keeps its entry and its users.
-/
namespace UtopiaEda.SubnetBuilder

open Function (update update_self update_of_ne)
open Incidence Finset
open Option (bind_eq_bind bind_eq_some_iff bind_some)

variable {s s' s₁ : SubnetBuilder} {V V' : EntryID → List EntryID} {i j root : EntryID}
  {c : SubnetCell} {t : CellTypeID} {links : List Link} {D : Finset EntryID} {N : Netlist}
  {rest new : List EntryID}

theorem mem_targets : j ∈ s.targets i ↔ s.netlist.Fanin i j := by
  rw [targets_eq_netlist]
  cases hg : s.netlist i with
  | none => simp [Netlist.Fanin, hg]
  | some g => simp [Netlist.Fanin, hg]

/-- State of `replaceCell`: the links `rest` of the old cell and the links `new` are
registered. The cells in use are cells of the network `N` before the replacement. -/
structure Relinking (N : Netlist) (root : EntryID) (rest new : List EntryID) (s : SubnetBuilder)
    (V : EntryID → List EntryID) : Prop where
  net : NetInv s V
  here : V root = rest ++ new
  agree : ∀ i, i ≠ root → V i = s.targets i
  sub : ∀ i g, s.netlist i = some g → N i = some g

theorem Relinking.delLink (h : Relinking N root (j :: rest) new s V) :
    ∃ s₁ V₁ c, s.delLink root j = some s₁ ∧ SameNet s s₁ ∧ s₁.liveCell j = some c ∧
      Relinking N root rest new s₁ V₁ ∧
      (c.refcount = 0 → Deleting N j {root} s₁ V₁ [j]) := by
  obtain ⟨a, ha, hat⟩ := h.net.target root j (by simp [h.here])
  obtain ⟨s₁, hs₁, h₁, hsame⟩ := h.net.delLink h.here
  obtain ⟨n, hn⟩ := hsame.liveCell ha
  have hrel : Relinking N root rest new s₁ (update V root (rest ++ new)) := by
    refine ⟨h₁, update_self _ _ _, fun i hi => ?_, fun i g hg => h.sub i g ?_⟩
    · rw [update_of_ne hi, hsame.targets]
      exact h.agree i hi
    · rw [← hsame.netlist]
      exact hg
  refine ⟨s₁, _, _, hs₁, hsame, hn, hrel, fun hzero => ⟨h₁, fun i hi => hrel.agree i hi,
    hrel.sub, by simp, ?_, ?_, ?_, ?_, ?_⟩⟩
  · intro e he
    rw [List.mem_singleton.mp he, hn]
    rfl
  · intro e he
    rw [List.mem_singleton.mp he, ← Multiset.card_eq_zero]
    exact (h₁.refcount j _ hn).symm.trans hzero
  · intro e he
    rw [List.mem_singleton.mp he, getTypeID_of_live hn]
    exact hat
  · intro e he
    exact .inl (List.mem_singleton.mp he)
  · intro e he
    rw [List.mem_singleton.mp he]
    exact .refl

private theorem Deleting.relinking {start : EntryID} (h : Deleting N start {root} s' V' [])
    (hV : V' root = rest ++ new) : Relinking N root rest new s' V' :=
  ⟨h.net, hV, fun i hi => h.agree i hi, h.sub⟩

theorem Relinking.of_delLinks {del : Bool} : ∀ {links : List Link} {s : SubnetBuilder}
    {V : EntryID → List EntryID}, Relinking N root (links.map Link.idx) new s V →
    (∀ l ∈ links, ¬ N.Reaches l.idx root) → delLinks root del links s = some s' →
    ∃ D V', Relinking N root [] new s' V' ∧ Deleted s s' D ∧
      ∀ i ∈ D, (∃ l ∈ links, N.Reaches l.idx i) ∧ s.getTypeID i ≠ .IN := by
  intro links
  induction links with
  | nil =>
    intro s V h _ hs
    cases hs
    exact ⟨∅, V, h, (SameNet.refl _).deleted, by simp⟩
  | cons l links ih =>
    intro s V h hr hs
    have hl := hr l (by simp)
    obtain ⟨s₁, V₁, c, hs₁, hsame, hc, h₁, hdel⟩ := h.delLink
    simp only [SubnetBuilder.delLinks, hs₁, getCell_of_live hc, bind_eq_bind,
      bind_some] at hs
    have hr' : ∀ k ∈ links, ¬ N.Reaches k.idx root := fun k hk => hr k (by simp [hk])
    split at hs
    · rename_i hcond
      obtain ⟨s₂, hs₂, hs⟩ := bind_eq_some_iff.mp hs
      have hE : ∀ i ∈ ({root} : Set EntryID), ¬ N.Reaches l.idx i := by
        intro i hi
        rw [hi]
        exact hl
      obtain ⟨D, V₂, h₂, hdel₂, hV₂, hD⟩ :=
        (hdel hcond.1).of_deleteQueue hE hs₂
      have hin : s₁.getTypeID l.idx ≠ .IN := by
        rw [getTypeID_of_live hc]
        simpa [SubnetCell.isIn] using hcond.2.1
      obtain ⟨D', V', h', hdel', hD'⟩ :=
        ih (h₂.relinking (by rw [hV₂ root rfl, h₁.here])) hr' hs
      refine ⟨D ∪ D', V', h', ?_, fun i hi => ?_⟩
      · simpa using hsame.deleted.trans (hdel₂.trans hdel')
      · rcases mem_union.mp hi with hi | hi
        · obtain ⟨hreach, ht⟩ := hD i hi
          refine ⟨⟨l, by simp, hreach⟩, ?_⟩
          rw [← hsame.getTypeID]
          rcases ht with rfl | ht
          exacts [hin, ht]
        · obtain ⟨⟨k, hk, hreach⟩, ht⟩ := hD' i hi
          exact ⟨⟨k, by simp [hk], hreach⟩, hsame.getTypeID ▸ hdel₂.getTypeID ▸ ht⟩
    · obtain ⟨D', V', h', hdel', hD'⟩ := ih h₁ hr' hs
      refine ⟨D', V', h', ?_, fun i hi => ?_⟩
      · simpa using hsame.deleted.trans hdel'
      · obtain ⟨⟨k, hk, hreach⟩, ht⟩ := hD' i hi
        exact ⟨⟨k, by simp [hk], hreach⟩, hsame.getTypeID ▸ ht⟩

structure Replaced (s s' : SubnetBuilder) (root : EntryID) (t : CellTypeID) (links : List Link)
    (D : Finset EntryID) : Prop where
  size : s'.size = s.size
  netlist : ∀ i, s'.netlist i =
    if i = root then some ⟨t, links⟩ else if i ∈ D then none else s.netlist i
  fanin : ∀ i ∈ D, i ≠ root ∧ s.netlist.Reaches root i
  notIn : ∀ i ∈ D, ∃ g, s.netlist i = some g ∧ g.type ≠ .IN
  free : ∀ i, i ∈ s'.emptyEntryIDs ↔ i ∈ s.emptyEntryIDs ∨ i ∈ D
  strash : ∀ k i, s'.strash k = some i → s.strash k = some i ∨ i = root
  enabled : s'.fanoutsEnabled = s.fanoutsEnabled
  counts : (s'.nIn, s'.nOut, s'.nCell) = (s.nIn, s.nOut, s.nCell - D.card)

/-- The links of the fanin of a cell do not lead back to it. -/
theorem not_reaches_of_fanin (hN : N.Acyclic) (hij : N.Fanin i j) : ¬ N.Reaches j i := by
  obtain ⟨r, hr⟩ := hN
  intro hreach
  have hle : ∀ a, N.Reaches a i → r i ≤ r a := by
    intro a ha
    induction ha using Relation.ReflTransGen.head_induction_on with
    | refl => exact Nat.le_refl _
    | head hab _ ih => exact Nat.le_trans ih (Nat.le_of_lt (hr _ _ hab))
  have := hr i j hij
  have := hle j hreach
  omega

theorem liveCell_setCell (hc : s.liveCell root = some c) (a : SubnetCell) (i : EntryID) :
    (s.setCell root a).liveCell i = if i = root then some a else s.liveCell i := by
  obtain ⟨hf, hlt, -⟩ := liveCell_eq_some.mp hc
  split
  · rename_i hi
    rw [hi]
    exact liveCell_eq_some.mpr ⟨hf, hlt, by simp [SubnetBuilder.setCell]⟩
  · rename_i hi
    simp only [SubnetBuilder.liveCell, getCell, SubnetBuilder.setCell, update_of_ne hi]
    rfl

theorem NetInv.setCell {a : SubnetCell} (h : NetInv s V) (hc : s.liveCell root = some c)
    (ha : a.refcount = (users (range s.size) V root).card)
    (hout : a.type = .OUT → users (range s.size) V root = 0) (hs : ∀ k, s.strash k ≠ some root) :
    NetInv (s.setCell root a) V := by
  have hlive := liveCell_setCell hc a
  refine ⟨h.nodup, h.free, h.user, fun i j hj => ?_, fun i b hb => ?_, h.fanouts, fun k i hk => ?_⟩
  · rw [hlive]
    split
    · rename_i hjr
      refine ⟨a, rfl, fun ht => ?_⟩
      refine users_eq_zero.mp (hout ht) i (mem_range.mpr (h.user i (List.ne_nil_of_mem hj))) ?_
      exact hjr ▸ hj
    · exact h.target i j hj
  · rw [hlive] at hb
    split at hb
    · rename_i hir
      cases hb
      rw [hir]
      exact ha
    · exact h.refcount i b hb
  · have hir : i ≠ root := fun hir => hs k (hir ▸ hk)
    rw [hlive, if_neg hir]
    exact h.strash k i hk

theorem NetInv.setKey (h : NetInv s V) (hc : s.liveCell root = some c) (he : c.isEnabled) :
    NetInv { s with strash := update s.strash c.key (some root) } V := by
  refine ⟨h.nodup, h.free, h.user, h.target, h.refcount, h.fanouts, fun k i hk => ?_⟩
  by_cases hkey : k = c.key
  · subst hkey
    simp only [update_self, Option.some.injEq] at hk
    exact ⟨c, hk ▸ hc, he, rfl⟩
  · simp only [update_of_ne hkey] at hk
    exact h.strash k i hk

theorem Relinking.setCell {n : ℕ} (h : Relinking N root [] (links.map Link.idx) s V)
    (hc : s.liveCell root = some c) (ht : t = .OUT → users (range s.size) V root = 0)
    (hn : n = (users (range s.size) V root).card) (hs : ∀ k, s.strash k ≠ some root) :
    NetInv ((s.setCell root ⟨t, links, n⟩).strashRoot root t links)
      ((s.setCell root ⟨t, links, n⟩).strashRoot root t links).targets ∧
    ∀ i, ((s.setCell root ⟨t, links, n⟩).strashRoot root t links).liveCell i =
      if i = root then some ⟨t, links, n⟩ else s.liveCell i := by
  let a : SubnetCell := ⟨t, links, n⟩
  have hlive := liveCell_setCell hc a
  have hroot : (s.setCell root a).liveCell root = some a := (hlive root).trans (if_pos rfl)
  have hnet : NetInv (s.setCell root a) V := h.net.setCell hc hn ht hs
  have htargets : ∀ i, (s.setCell root a).targets i = V i := by
    intro i
    by_cases hi : i = root
    · rw [hi, targets_of_live hroot, h.here, List.nil_append]
    · rw [h.agree i hi]
      simp only [SubnetBuilder.targets, hlive, hi, if_false]
  unfold strashRoot
  split
  · rename_i hcond
    obtain ⟨he, -⟩ := hcond
    simp only [StrashKey.isEnabled, Bool.and_eq_true, decide_eq_true_eq] at he
    have hkey : a.key = StrashKey.make t links := by
      simp [SubnetCell.key, a, List.take_of_length_le he.2]
    have hen : a.isEnabled := by
      simp [SubnetCell.isEnabled, SubnetCell.isIn, SubnetCell.isOut, SubnetCell.arity, a, he]
    have hnet' := hnet.setKey hroot hen
    rw [hkey] at hnet'
    exact ⟨hnet'.congr htargets, hlive⟩
  · exact ⟨hnet.congr htargets, hlive⟩

theorem NetInv.setBuf {n : ℕ} (h : NetInv s V) : NetInv { s with nBuf := n } V :=
  ⟨h.nodup, h.free, h.user, h.target, h.refcount, h.fanouts, h.strash⟩

theorem reorder_eq {d : ℕ} {p : Place} (h : s.reorder root d p = some s') :
    ∃ o : EntryOrder, o.size = s.order.size ∧ s' = { s with order := o } := by
  unfold reorder at h
  split at h
  · cases h
    exact ⟨s.order, rfl, rfl⟩
  · simp only [bind_eq_bind] at h
    obtain ⟨o₁, ho₁, h⟩ := bind_eq_some_iff.mp h
    obtain ⟨o₂, ho₂, h⟩ := bind_eq_some_iff.mp h
    cases h
    exact ⟨o₂, (EntryOrder.recomputeFanoutDepths_size ho₂).trans (EntryOrder.moveToDepth_size ho₁),
      rfl⟩

theorem NetInv.startRelinking {f : StrashKey → Option EntryID} {b : ℕ}
    (hf : NetInv { s with strash := f } s.targets) (hroot : s.liveCell root = some c)
    (hl : s.ValidLinks links) :
    ∃ s₂ V, SubnetBuilder.addLinks root links { s with strash := f, nBuf := b } = some s₂ ∧
      Relinking s.netlist root (c.links.map Link.idx) (links.map Link.idx) s₂ V ∧
      SameNet { s with strash := f, nBuf := b } s₂ := by
  have hb : NetInv { s with strash := f, nBuf := b } s.targets := hf.setBuf
  obtain ⟨s₂, hs₂, -, h₂, hsame⟩ := hb.addLinks (u := root) (lt_of_live hroot) hl
  have hswap : ∀ i, (update s.targets root (links.map Link.idx ++ s.targets root) i).Perm
      (update s.targets root (c.links.map Link.idx ++ links.map Link.idx) i) := by
    intro i
    by_cases hi : i = root
    · subst hi
      rw [update_self, update_self, targets_of_live hroot]
      exact List.perm_append_comm
    · rw [update_of_ne hi, update_of_ne hi]
  refine ⟨s₂, _, hs₂, ⟨h₂.perm hswap, update_self _ _ _, fun i hi => ?_,
    fun i g hg => ?_⟩, hsame⟩
  · rw [update_of_ne hi, hsame.targets]
    rfl
  · rw [hsame.netlist] at hg
    exact hg

theorem Relinking.finish {f : StrashKey → Option EntryID} {b n : ℕ} {s₂ s₃ : SubnetBuilder}
    (h : NetInv s s.targets) (hN : s.netlist.Acyclic) (hroot : s.liveCell root = some c)
    (hnew : ∀ l ∈ links, ¬ s.netlist.Reaches l.idx root) (ht : t = .OUT → c.type = .OUT)
    (hf : ∀ k j, f k = some j ↔ s.strash k = some j ∧ j ≠ root)
    (hsame : SameNet { s with strash := f, nBuf := b } s₂) (hdel : Deleted s₂ s₃ D)
    (h₃ : Relinking s.netlist root [] (links.map Link.idx) s₃ V)
    (hD : ∀ i ∈ D, (∃ l ∈ c.links, s.netlist.Reaches l.idx i) ∧ s₂.getTypeID i ≠ .IN)
    (hn : n = c.refcount) :
    let s₄ := (s₃.setCell root ⟨t, links, n⟩).strashRoot root t links
    NetInv s₄ s₄.targets ∧ Replaced s s₄ root t links D ∧
      ∀ i, s₄.liveCell i = if i = root then some ⟨t, links, n⟩ else s₃.liveCell i := by
  intro s₄
  have hfanin : ∀ l ∈ c.links, s.netlist.Fanin root l.idx := fun l hl =>
    ⟨_, netlist_of_live hroot, l, hl, rfl⟩
  have hDroot : ∀ i ∈ D, i ≠ root ∧ s.netlist.Reaches root i ∧ ¬ s.netlist.Reaches i root := by
    intro i hi
    obtain ⟨⟨l, hl, hreach⟩, -⟩ := hD i hi
    have hback : ¬ s.netlist.Reaches i root := fun hback =>
      not_reaches_of_fanin hN (hfanin l hl) (hreach.trans hback)
    refine ⟨?_, hreach.head (hfanin l hl), hback⟩
    rintro rfl
    exact hback .refl
  have hrootD : root ∉ D := fun hi => (hDroot root hi).1 rfl
  obtain ⟨m, hm⟩ := hsame.liveCell (i := root) (c := c) hroot
  obtain ⟨m', hm'⟩ := hdel.liveCell hrootD hm
  have hnet₂ : s₂.netlist = s.netlist := hsame.netlist
  have hsize : s₃.size = s.size := hdel.size.trans hsame.size
  -- the users of the root are the same as before
  have husers : users (range s₃.size) V root = users (range s.size) s.targets root := by
    rw [hsize]
    refine users_congr (fun i _ => ?_)
    have hzero : ∀ ls : List EntryID, root ∉ ls → ls.count root = 0 := fun ls =>
      List.count_eq_zero.mpr
    by_cases hi : i = root
    · rw [hi, h₃.here, List.nil_append, hzero, hzero]
      · intro hmem
        exact not_reaches_of_fanin hN (mem_targets.mp hmem) .refl
      · intro hmem
        obtain ⟨l, hl, heq⟩ := List.mem_map.mp hmem
        refine hnew l hl ?_
        rw [heq]
        exact .refl
    · rw [h₃.agree i hi, hdel.targets]
      split
      · rename_i hiD
        rw [hzero (s.targets i), hzero []]
        · simp
        · exact fun hmem => (hDroot i hiD).2.2 (.single (mem_targets.mp hmem))
      · rw [targets_eq_netlist, targets_eq_netlist, hnet₂]
  have hcard : n = (users (range s₃.size) V root).card := by
    rw [husers, hn]
    exact h.refcount root c hroot
  have hkeys : ∀ k i, s₃.strash k = some i → s.strash k = some i ∧ i ≠ root := by
    intro k i hk
    have hk₂ := hdel.strash k i hk
    rw [hsame.strash] at hk₂
    exact (hf k i).mp hk₂
  have hout : t = .OUT → users (range s₃.size) V root = 0 := by
    intro htOut
    rw [husers, users_eq_zero]
    intro i _ hmem
    obtain ⟨a, ha, hat⟩ := h.target i root hmem
    rw [hroot] at ha
    cases ha
    exact hat (ht htOut)
  obtain ⟨h₄, hlive⟩ := h₃.setCell hm' hout hcard (fun k hk => (hkeys k root hk).2 rfl)
  have hfield : (s₄.size, s₄.emptyEntryIDs, s₄.fanoutsEnabled, s₄.nIn, s₄.nOut, s₄.nCell) =
      (s₃.size, s₃.emptyEntryIDs, s₃.fanoutsEnabled, s₃.nIn, s₃.nOut, s₃.nCell) := by
    simp only [s₄, strashRoot]
    split <;> rfl
  simp only [Prod.mk.injEq] at hfield
  obtain ⟨hsz, hfr, hen, hin, hou, hce⟩ := hfield
  refine ⟨h₄, ⟨hsz.trans hsize, fun i => ?_, fun i hi => ⟨(hDroot i hi).1, (hDroot i hi).2.1⟩,
    fun i hi => ?_, fun i => ?_, fun k i hk => ?_, ?_, ?_⟩, hlive⟩
  · split
    · rename_i hi
      rw [hi, netlist_of_live ((hlive root).trans (if_pos rfl))]
    · rename_i hi
      rw [← hnet₂, ← hdel.netlist]
      simp only [SubnetBuilder.netlist]
      rw [hlive, if_neg hi]
  · obtain ⟨a, ha⟩ := Option.isSome_iff_exists.mp (hdel.live i hi)
    refine ⟨_, hnet₂ ▸ netlist_of_live ha, ?_⟩
    rw [← getTypeID_of_live ha]
    exact (hD i hi).2
  · rw [hfr, hdel.free, hsame.free]
  · simp only [s₄, strashRoot] at hk
    split at hk
    · rename_i hcond
      by_cases hkey : k = StrashKey.make t links
      · rw [hkey] at hk
        simp only [update_self, Option.some.injEq] at hk
        exact .inr hk.symm
      · simp only [update_of_ne hkey] at hk
        exact .inl (hkeys k i hk).1
    · exact .inl (hkeys k i hk).1
  · rw [hen, hdel.enabled, hsame.enabled]
  · have hc := hsame.counts
    simp only [Prod.mk.injEq] at hc
    rw [hin, hou, hce, hdel.nIn, hdel.nOut, hdel.nCell, hc.1, hc.2.1, hc.2.2.1]

/-- A successful `replaceCell` keeps the bookkeeping and changes the root alone, up to the
deletion of cells of its old fanin. -/
theorem NetInv.of_replaceCell {del : Bool} {r : Link} (h : NetInv s s.targets)
    (hN : s.netlist.Acyclic) (hroot : s.liveCell root = some c) (hl : s.ValidLinks links)
    (hnew : ∀ l ∈ links, ¬ s.netlist.Reaches l.idx root)
    (hrep : s.replaceCell root t links del = some (s', r)) :
    r = ⟨root, 0, false⟩ ∧ NetInv s' s'.targets ∧ ∃ D, Replaced s s' root t links D := by
  obtain ⟨f, hf, hfnet, hfkeys⟩ := h.destrash hroot
  simp only [replaceCell, getCell_of_live hroot, bind_eq_bind, bind_some, hf] at hrep
  split at hrep
  · cases hrep
  · rename_i hcond
    have ht : t = .OUT → c.type = .OUT := by
      rintro rfl
      simp only [StrashKey.isEnabled] at hcond
      simpa using hcond
    obtain ⟨p, -, hrep⟩ := bind_eq_some_iff.mp hrep
    obtain ⟨s₂, V, hs₂, h₂, hsame⟩ := hfnet.startRelinking
      (b := s.nBuf - c.isBuf.toNat + (decide (t = .BUF)).toNat) hroot hl
    rw [hs₂, bind_some] at hrep
    obtain ⟨s₃, hs₃, hrep⟩ := bind_eq_some_iff.mp hrep
    obtain ⟨s₅, hs₅, hrep⟩ := bind_eq_some_iff.mp hrep
    cases hrep
    obtain ⟨D, V', h₃, hdel, hD⟩ := h₂.of_delLinks (fun l hlm =>
      not_reaches_of_fanin hN ⟨_, netlist_of_live hroot, l, hlm, rfl⟩) hs₃
    obtain ⟨h₄, hrepl, -⟩ := h₃.finish h hN hroot hnew ht hfkeys hsame hdel hD rfl
    obtain ⟨o, ho, rfl⟩ := reorder_eq hs₅
    have hlive := liveCell_setOrder ho
    refine ⟨rfl, ?_, D, ?_⟩
    · have htar : ({ (s₃.setCell root ⟨t, links, c.refcount⟩).strashRoot root t links with
          order := o } : SubnetBuilder).targets =
          ((s₃.setCell root ⟨t, links, c.refcount⟩).strashRoot root t links).targets := by
        funext i
        simp only [SubnetBuilder.targets, hlive]
      rw [htar]
      exact h₄.setOrder ho
    · refine ⟨Eq.trans ho hrepl.size, fun i => ?_, hrepl.fanin, hrepl.notIn, hrepl.free,
        hrepl.strash, hrepl.enabled, hrepl.counts⟩
      rw [← hrepl.netlist]
      simp only [SubnetBuilder.netlist, hlive]

end UtopiaEda.SubnetBuilder
