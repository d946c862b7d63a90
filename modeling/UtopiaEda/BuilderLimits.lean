import UtopiaEda.CellTreeWorkLists
import UtopiaEda.StrashKeys
import UtopiaEda.WordNetworks

/-!
# The limits of a builder

A cell counts the links to it with 20 bits, and the entries of a subnet fill one block of a list.
While cells are added the counts only grow, so the assertions of `incRefCount` hold all the way if
they hold in the end.
-/
namespace UtopiaEda
open Option (bind_eq_some_iff some.inj)

/-- The capacity of a block: a page of 64 MB without its head, in entries of 32 bytes. -/
def maxEntries : ℕ := (2 ^ 26 - 32) / 32

/-- The counters of the cells and the block of the entries suffice. -/
structure Subnet.FitsLimits (S : Subnet) : Prop where
  size : S.size ≤ maxEntries
  counts : ∀ i c, S.getCell i = some c → c.refcount ≤ SubnetBuilder.maxRefCount

namespace SubnetBuilder
open Incidence Finset

variable {s s₁ s' s'' : SubnetBuilder} {ins mid outs : List EntryID} {t : CellTypeID}
  {links : List Link} {l : Link} {i idx : EntryID} {m n m' n' : ℕ}

/-! ### One cell -/

theorem refcountAt_congr (he : s'.entries = s.entries) (hs : s'.size = s.size) (i : EntryID) :
    s'.refcountAt i = s.refcountAt i := by
  rw [refcountAt, refcountAt, getCell, getCell, he, hs]

private theorem refcountAt_new (t : CellTypeID) (links : List Link) (i : EntryID) :
    (s.setCell idx ⟨t, links, 0⟩).refcountAt i = if i = idx then 0 else s.refcountAt i := by
  have hsize : (s.setCell idx ⟨t, links, 0⟩).size = s.size := rfl
  have hentry : (s.setCell idx ⟨t, links, 0⟩).entries i = if i = idx then .cell ⟨t, links, 0⟩ else
      s.entries i :=
    Function.update_apply ..
  rw [refcountAt, getCell, hsize, hentry]
  by_cases hi : i = idx
  · rw [if_pos hi, if_pos hi]
    split <;> rfl
  · rw [if_neg hi, if_neg hi]
    rfl

private theorem refcountAt_fillEntry (hlen : links.length ≤ InPlaceLinks)
    (h : s.fillEntry idx t links = some s') : s'.size = s.size ∧ ∀ i, s'.refcountAt i = if i =
    idx then 0 else s.refcountAt i + (links.map Link.idx).count i := by
  obtain ⟨s₁, h₁, h⟩ := bind_eq_some_iff.mp h
  obtain ⟨o, ho, h⟩ := bind_eq_some_iff.mp h
  rw [if_pos hlen] at h
  cases h
  have hsize : o.size = s₁.size := (EntryOrder.addDepthBounds_size ho).trans rfl
  refine ⟨hsize.trans (same_of_addNewLinks h₁).1, fun i => ?_⟩
  rw [← refcountAt_addNewLinks h₁ i, ← refcountAt_new t links i]
  apply refcountAt_congr
  · rfl
  · exact hsize

private theorem refcountAt_allocID (isBuf : Bool) :
    (s.allocID isBuf).1.size ≤ s.size + 1 ∧
      ∀ i, i ≠ (s.allocID isBuf).2 → (s.allocID isBuf).1.refcountAt i = s.refcountAt i := by
  unfold allocID
  cases he : s.emptyEntryIDs with
  | cons j rest => exact ⟨Nat.le_succ _, fun i _ => refcountAt_congr rfl rfl i⟩
  | nil =>
    refine ⟨Nat.le_refl _, fun i hi => ?_⟩
    have hne : i ≠ s.size := hi
    have hiff : i < s.size + 1 ↔ i < s.size :=
      ⟨fun h => (Nat.lt_succ_iff_lt_or_eq.mp h).resolve_right hne, Nat.lt_succ_of_lt⟩
    rw [refcountAt, refcountAt, getCell, getCell]
    change Option.getD (Option.map _ (if i < s.size + 1 then _ else none)) 0 = _
    simp only [hiff]

/-- A cell is found in the hash table, or its links are counted. -/
theorem refcountAt_addCell (hlen : links.length ≤ InPlaceLinks)
    (h : s.addCell t links = some (s', l)) : (s'.size = s.size ∧
    ∀ i, s'.refcountAt i = s.refcountAt i) ∨ (s'.size ≤ s.size + 1 ∧
      ∀ i, s'.refcountAt i = if i = l.idx then 0 else
      s.refcountAt i + (links.map Link.idx).count i) := by
  unfold addCell at h
  split at h
  · cases h
  · obtain ⟨⟨s₁, idx⟩, hs₁, h⟩ := bind_eq_some_iff.mp h
    cases h
    have hfresh : ∀ {s₀ s₂ s₃ : SubnetBuilder}, s₀.size = s.size → s₀.entries = s.entries →
        s₂.size = (s₀.allocID (t = .BUF)).1.size → s₂.entries = (s₀.allocID (t = .BUF)).1.entries →
        s₂.fillEntry (s₀.allocID (t = .BUF)).2 t links = some s₃ → s₃.size ≤ s.size + 1 ∧
        ∀ i, s₃.refcountAt i =
          if i = (s₀.allocID (t = .BUF)).2 then 0 else
          s.refcountAt i + (links.map Link.idx).count i := by
      intro s₀ s₂ s₃ hsize hentries hsize₂ hentries₂ hfill
      obtain ⟨hsize₃, hcount⟩ := refcountAt_fillEntry hlen hfill
      obtain ⟨hle, hsame⟩ := refcountAt_allocID (s := s₀) (t = .BUF)
      refine ⟨hsize₃ ▸ hsize₂ ▸ hsize ▸ hle, fun i => ?_⟩
      rw [hcount i]
      split
      · rfl
      · rename_i hi
        rw [refcountAt_congr hentries₂ hsize₂, hsame i hi, refcountAt_congr hentries hsize]
    unfold allocEntry strashEntry at hs₁
    by_cases hen : StrashKey.isEnabled t links = true
    · simp only [if_pos hen] at hs₁
      cases hk : s.strash (StrashKey.make t links) with
      | some i =>
        simp only [hk] at hs₁
        cases hs₁
        exact .inl ⟨rfl, fun i => refcountAt_congr rfl rfl i⟩
      | none =>
        simp only [hk] at hs₁
        obtain ⟨s₂, hs₂, heq⟩ := Option.map_eq_some_iff.mp hs₁
        cases heq
        refine .inr (@hfresh s.withEnds _ s₁ rfl rfl ?_ ?_ hs₂) <;> rfl
    · simp only [if_neg hen] at hs₁
      obtain ⟨s₂, hs₂, heq⟩ := Option.map_eq_some_iff.mp hs₁
      cases heq
      exact .inr (@hfresh s.withEnds _ s₁ rfl rfl rfl rfl hs₂)

/-! ### Growing builders -/

theorem refcountAt_of_size_le (h : s.size ≤ i) : s.refcountAt i = 0 := by
  rw [refcountAt, getCell, if_neg (Nat.not_lt.mpr h)]
  rfl

theorem lt_size_of_valid (hl : s.ValidLinks links) (hmem : l ∈ links) : l.idx < s.size := by
  obtain ⟨c, hc, -⟩ := hl l hmem
  exact lt_of_live hc

private theorem Appended.counts_links (happ : Appended s s' t links) (hl : s.ValidLinks links)
    (hlen : links.length ≤ InPlaceLinks)
    (hadd : s.addCell t links = some (s', ⟨s.size, 0, false⟩)) :
    s'.size = s.size + 1 ∧ ∀ i, s'.refcountAt i =
    s.refcountAt i + (links.map Link.idx).count i := by
  have hsize := happ.size_of_le hlen
  refine ⟨hsize, fun i => ?_⟩
  rcases refcountAt_addCell hlen hadd with ⟨hsame, -⟩ | ⟨-, hcount⟩
  · omega
  · rw [hcount i]
    split
    · rename_i hi
      have hnot : i ∉ links.map Link.idx := by
        intro hmem
        obtain ⟨l, hl', heq⟩ := List.mem_map.mp hmem
        have hlt := lt_size_of_valid hl hl'
        rw [heq, hi] at hlt
        exact Nat.lt_irrefl _ hlt
      rw [List.count_eq_zero_of_not_mem hnot, hi, refcountAt_of_size_le (Nat.le_refl _)]
    · rfl

theorem Grown.addCell_counts (h : Grown s ins mid outs) (hl : s.ValidLinks links)
    (hlen : links.length ≤ InPlaceLinks) (hneg : t.isNegative = false) (hin : t ≠ .IN)
    (hout : t ≠ .OUT) (hadd : s.addCell t links = some (s', l)) :
    (s' = s ∧ s.strash (StrashKey.make t links) = some l.idx) ∨
    (l.idx = s.size ∧ s'.size = s.size + 1 ∧
      ∀ i, s'.refcountAt i = s.refcountAt i + (links.map Link.idx).count i) := by
  obtain ⟨s₁, idx, mid', hadd₁, -, hcases⟩ := h.addCell hl hneg hin hout
  cases hadd.symm.trans hadd₁
  rcases hcases with ⟨-, hk, hsame⟩ | ⟨rfl, happ⟩
  · exact .inl ⟨hsame, hk⟩
  · exact .inr ⟨rfl, happ.counts_links hl hlen hadd⟩

theorem NetInv.old_of_addCell {g : Gate} (h : NetInv s s.targets) (hl : s.ValidLinks links)
    (hadd : s.addCell t links = some (s', l)) (hg : s'.netlist i = some g) (ht : g.type ≠ t) :
    s.netlist i = some g := by
  obtain ⟨-, -, hadded⟩ := h.of_addCell hl hadd
  by_cases hi : i = l.idx
  · obtain ⟨ls, hls, -⟩ := hadded.here
    rw [hi, hls] at hg
    cases hg
    exact absurd rfl ht
  · rw [← hadded.other i hi, hg]

/-- The links of a cell in the hash table are counted. -/
theorem Grown.counted_of_strash (h : Grown s ins mid outs)
    (hk : s.strash (StrashKey.make t links) = some idx) (hl : l ∈ links) : 0 <
    s.refcountAt l.idx := by
  obtain ⟨c, hc, -, hkey⟩ := h.net.strash _ _ hk
  have hmem : l.idx ∈ s.targets idx := by
    rw [targets_eq_netlist, netlist_of_live hc]
    exact List.mem_map_of_mem (List.mem_of_mem_take ((StrashKey.make_eq hkey).2.1.mem_iff.mpr hl))
  obtain ⟨c', hc', -⟩ := h.net.target idx l.idx hmem
  rw [refcountAt_of_getCell (getCell_of_live hc'), h.net.refcount _ c' hc']
  exact Multiset.card_pos_iff_exists_mem.mpr ⟨idx,
    mem_users.mpr ⟨mem_range.mpr (lt_of_live hc), hmem⟩⟩

/-- A cell with a link that is not counted yet is new. -/
theorem Grown.addCell_new (h : Grown s ins mid outs) (hl : s.ValidLinks links)
    (hlen : links.length ≤ InPlaceLinks) (hneg : t.isNegative = false) (hin : t ≠ .IN)
    (hout : t ≠ .OUT) (hadd : s.addCell t links = some (s', l))
    (hnew : ∃ k ∈ links, s.refcountAt k.idx = 0) : l.idx = s.size ∧ s'.size = s.size + 1 ∧
      ∀ i, s'.refcountAt i = s.refcountAt i + (links.map Link.idx).count i := by
  rcases h.addCell_counts hl hlen hneg hin hout hadd with ⟨-, hk⟩ | hfresh
  · obtain ⟨k, hmem, hzero⟩ := hnew
    exact absurd (h.counted_of_strash hk hmem) (Nat.not_lt.mpr (Nat.le_of_eq hzero))
  · exact hfresh

/-- The state after a gate that is new. -/
structure Counted (ins outs : List EntryID) (links : List Link) (s s' : SubnetBuilder) (l : Link) :
    Prop where
  grown : ∃ mid, Grown s' ins mid outs
  le : s.netlist.Le s'.netlist
  valid : s'.ValidLinks [l]
  idx : l.idx = s.size
  size : s'.size = s.size + 1
  count : ∀ i, s'.refcountAt i = s.refcountAt i + (links.map Link.idx).count i

theorem Grown.addGate_new (h : Grown s ins mid outs) (ht : t.isRegroupable)
    (hl : s.ValidLinks links) (hlen : links.length ≤ InPlaceLinks)
    (hnew : ∃ k ∈ links, s.refcountAt k.idx = 0) (hadd : s.addCell t links = some (s', l)) :
    Counted ins outs links s s' l := by
  obtain ⟨hneg, hin, hout, hsoft⟩ := regroupable_gate ht
  obtain ⟨hidx, hsize, hcount⟩ := h.addCell_new hl hlen hneg hin hout hadd hnew
  obtain ⟨s₁, l₁, mid₁, hadd₁, h₁, hl₁⟩ := h.addGateLink hl hneg hin hout hsoft
  cases hadd.symm.trans hadd₁
  exact ⟨⟨mid₁, h₁⟩, hl₁.le, hl₁.valid, hidx, hsize, hcount⟩

/-- The new cell has no links yet. -/
theorem Counted.refcountAt_idx (h : Counted ins outs links s s' l) (hl : s.ValidLinks links) :
    s'.refcountAt l.idx = 0 := by
  rw [h.count, h.idx, refcountAt_of_size_le (Nat.le_refl _), List.count_eq_zero_of_not_mem]
  intro hmem
  obtain ⟨k, hk, heq⟩ := List.mem_map.mp hmem
  exact Nat.ne_of_lt (lt_size_of_valid hl hk) heq

theorem Grown.addOutput_counts {o : Link} (h : Grown s ins mid outs) (hl : s.ValidLinks [l])
    (hadd : s.addOutput l = some (s', o)) :
    s'.size = s.size + 1 ∧ ∀ i, s'.refcountAt i = s.refcountAt i + [l.idx].count i := by
  obtain ⟨s₁, hadd₁, -, happ⟩ := h.addOutput hl
  cases hadd.symm.trans hadd₁
  exact happ.counts_links hl (Nat.le_add_left 1 2) hadd

theorem Grown.addOutputs_counts : ∀ {links : List Link} {s : SubnetBuilder} {outs : List EntryID},
    Grown s ins mid outs → s.ValidLinks links → SubnetBuilder.addOutputs links s = some s' →
      s'.size = s.size + links.length ∧ ∀ i, s'.refcountAt i =
      s.refcountAt i + (links.map Link.idx).count i := by
  intro links
  induction links with
  | nil =>
    intro s outs h _ hadd
    cases hadd
    exact ⟨rfl, fun i => rfl⟩
  | cons l links ih =>
    intro s outs h hl hadd
    have hsplit := validLinks_append.mp (show s.ValidLinks ([l] ++ links) from hl)
    obtain ⟨⟨s₁, o⟩, hadd₁, hrest⟩ := bind_eq_some_iff.mp hadd
    obtain ⟨hsize₁, hcount₁⟩ := h.addOutput_counts hsplit.1 hadd₁
    obtain ⟨s₂, hadd₂, h₂, happ⟩ := h.addOutput hsplit.1
    cases hadd₁.symm.trans hadd₂
    have hle : s.netlist.Le s₁.netlist := happ.le
    obtain ⟨hsize, hcount⟩ := ih h₂ (hsplit.2.mono hle) hrest
    refine ⟨by rw [hsize, hsize₁, List.length_cons]; omega, fun i => ?_⟩
    rw [hcount i, hcount₁ i, Nat.add_assoc, ← List.count_append]
    rfl

theorem HasInputs.refcountAt_eq (h : HasInputs s n) (i : EntryID) : s.refcountAt i = 0 := by
  by_cases hi : i < n
  · obtain ⟨c, hc, -⟩ := liveCell_of_netlist (h.input i hi)
    rw [refcountAt_of_getCell (getCell_of_live hc), h.grown.net.refcount i c hc,
      users_eq_zero.mpr (fun j hj => ?_)]
    · rfl
    · rw [mem_range, h.size] at hj
      rw [targets_eq_netlist, h.input j hj]
      exact List.not_mem_nil
  · rw [refcountAt, getCell, h.size, if_neg hi]
    rfl

/-- The tree of cells that have no links yet: every one of them is linked once, and the root is
not. -/
theorem Grown.addCellTreeLoop_counts (ht : t.isRegroupable) :
    ∀ {n : ℕ} {s : SubnetBuilder} {mid : List EntryID} {links : List Link}, Grown s ins mid outs →
    s.ValidLinks links → (links.map Link.idx).Nodup →
      (∀ k ∈ links, s.refcountAt k.idx = 0) → (∀ i, s.refcountAt i ≤ 1) →
      SubnetBuilder.addCellTreeLoop t 2 n s links = some (s', l) →
      s'.size + 1 ≤ s.size + links.length ∧ s'.refcountAt l.idx = 0 ∧ ∀ i, s'.refcountAt i ≤ 1 := by
  intro n
  induction n with
  | zero =>
    intro s mid links _ _ _ _ _ hrun
    cases hrun
  | succ n ih =>
    intro s mid links h hl hnodup hzero hone hrun
    rw [SubnetBuilder.addCellTreeLoop] at hrun
    by_cases hlen : 2 ≤ links.length
    · rw [if_pos hlen, Option.bind_eq_bind] at hrun
      obtain ⟨⟨s₁, l₁⟩, hadd, hrest⟩ := bind_eq_some_iff.mp hrun
      have hsplit := hl
      rw [← List.take_append_drop 2 links, validLinks_append] at hsplit
      obtain ⟨k, hk⟩ : ∃ k, k ∈ links.take 2 :=
        List.exists_mem_of_length_pos (by rw [List.length_take]; omega)
      have hgate := h.addGate_new ht hsplit.1 (by rw [List.length_take, InPlaceLinks]; omega)
        ⟨k, hk, hzero k (List.mem_of_mem_take hk)⟩ hadd
      have hnew := hgate.refcountAt_idx hsplit.1
      obtain ⟨⟨mid₁, h₁⟩, hle, hvalid, hidx, hsize, hcount⟩ := hgate
      have hparts : ((links.take 2).map Link.idx ++ (links.drop 2).map Link.idx).Nodup := by
        rw [← List.map_append, List.take_append_drop]
        exact hnodup
      obtain ⟨htake, hdrop, hapart⟩ := List.nodup_append.mp hparts
      have hlast : l₁.idx ∉ (links.drop 2).map Link.idx := by
        intro hmem
        obtain ⟨k, hk, heq⟩ := List.mem_map.mp hmem
        exact Nat.ne_of_lt (lt_size_of_valid hsplit.2 hk) (heq.trans hidx)
      obtain ⟨hsize', hroot, hcount'⟩ := ih h₁ (validLinks_append.mpr ⟨hsplit.2.mono hle, hvalid⟩)
        (by
          rw [List.map_append, List.map_singleton, ← List.concat_eq_append, List.nodup_concat]
          exact ⟨hlast, hdrop⟩)
        (fun k hk => by
          rcases List.mem_append.mp hk with hk | hk
          · have hnot : k.idx ∉ (links.take 2).map Link.idx :=
              fun hmem => hapart _ hmem _ (List.mem_map_of_mem hk) rfl
            rw [hcount, hzero k (List.mem_of_mem_drop hk), List.count_eq_zero_of_not_mem hnot]
          · rw [List.mem_singleton.mp hk, hnew])
        (fun i => by
          rw [hcount i]
          by_cases hmem : i ∈ (links.take 2).map Link.idx
          · obtain ⟨k, hk, rfl⟩ := List.mem_map.mp hmem
            rw [hzero k (List.mem_of_mem_take hk), Nat.zero_add]
            exact List.nodup_iff_count_le_one.mp htake _
          · rw [List.count_eq_zero_of_not_mem hmem]
            exact hone i) hrest
      refine ⟨?_, hroot, hcount'⟩
      rw [List.length_append, List.length_drop, List.length_singleton] at hsize'
      omega
    · rw [if_neg hlen] at hrun
      obtain ⟨l₀, hl₀, heq⟩ := bind_eq_some_iff.mp hrun
      cases heq
      have hmem := List.mem_of_getElem? hl₀
      refine ⟨Nat.add_le_add_left (List.length_pos_of_mem hmem) _, hzero l hmem, hone⟩

theorem Grown.addCellTree_counts (h : Grown s ins mid outs) (ht : t.isRegroupable)
    (hl : s.ValidLinks links) (hne : links ≠ []) (hnodup : (links.map Link.idx).Nodup)
    (hzero : ∀ i, s.refcountAt i = 0) (hrun : s.addCellTree t links 2 = some (s', l)) :
    s'.size ≤ s.size + links.length ∧ s'.refcountAt l.idx = 0 ∧ ∀ i, s'.refcountAt i ≤ 1 := by
  have hmin : min 2 maxCellArity = 2 := by decide
  have hpos : 0 < links.length := List.length_pos_iff.mpr hne
  simp only [SubnetBuilder.addCellTree, hmin] at hrun
  by_cases hlen : links.length ≤ 2
  · rw [if_pos hlen] at hrun
    obtain ⟨k, hk⟩ := List.exists_mem_of_ne_nil links hne
    have hgate := h.addGate_new ht hl (Nat.le_succ_of_le hlen) ⟨k, hk, hzero _⟩ hrun
    refine ⟨by rw [hgate.size]; omega, hgate.refcountAt_idx hl, fun i => ?_⟩
    rw [hgate.count, hzero, Nat.zero_add]
    exact List.nodup_iff_count_le_one.mp hnodup i
  · rw [if_neg hlen, if_pos ht] at hrun
    obtain ⟨hsize, hroot, hcount⟩ := h.addCellTreeLoop_counts ht hl hnodup (fun k _ => hzero k.idx)
      (fun i => by rw [hzero]; exact Nat.zero_le 1) hrun
    exact ⟨by omega, hroot, hcount⟩

theorem HasInputs.strash_constant (h : HasInputs s n) :
    s.strash (StrashKey.make .ZERO []) = none := by
  rw [Option.eq_none_iff_forall_ne_some]
  intro i hi
  obtain ⟨c, hc, -, hkey⟩ := h.grown.net.strash _ _ hi
  have hlt := lt_of_live hc
  rw [h.size] at hlt
  have hin := h.input i hlt
  rw [netlist_of_live hc] at hin
  have htype : c.type = .IN := congrArg Gate.type (some.inj hin)
  exact absurd (htype.symm.trans (StrashKey.make_eq hkey).1) (by decide)

/-! ### Made subnets -/

theorem CountsFit.of_refcountAt (h : ∀ i, s.refcountAt i ≤ maxRefCount) : s.CountsFit := by
  intro i c hc
  rw [← refcountAt_of_getCell (getCell_of_live hc)]
  exact h i

theorem Drawn.fits_iff {S : Subnet} {W : (EntryID → ℕ → Bool) → ℕ → Bool} (h : Drawn s n outs W)
    (hS : s.make = some S) : S.FitsLimits ↔ s.size ≤ maxEntries ∧ s.CountsFit := by
  obtain ⟨mid, -, hmade⟩ := h.made hS
  constructor
  · rintro ⟨hsize, hfit⟩
    refine ⟨hmade.size ▸ hsize, fun i c hc => ?_⟩
    have hcell := hfit _ _ (hmade.cells i c hc)
    exact hcell
  · rintro ⟨hsize, hfit⟩
    refine ⟨hmade.size ▸ hsize, fun k c hk => ?_⟩
    obtain ⟨i, hlive, rfl⟩ := hmade.only k c hk
    obtain ⟨c', hc'⟩ := Option.isSome_iff_exists.mp hlive
    obtain rfl := some.inj (hk.symm.trans (hmade.cells i c' hc'))
    exact hfit i c' hc'

end SubnetBuilder

end UtopiaEda
