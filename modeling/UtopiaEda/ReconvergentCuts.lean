import UtopiaEda.SatChecker
import UtopiaEda.ViewSchedules

/-!
# Reconvergent cuts

`getReconvergentCut` begins with the roots as leaves. As long as the cut does not get too large, it
replaces the leaf that adds the fewest cells by those of its fanins that are not marked yet;
constants are left out.
-/
namespace UtopiaEda

open List
open Option (bind_eq_bind bind_some isSome_iff_exists map_some some.inj)
open SubnetBuilder

namespace Reconvergence

def isConstant (cell : SubnetCell) : Bool := cell.type = .ZERO || cell.type = .ONE

/-- The number of the leaves that replace the cell; there is none for inputs and constants, whose
cost is the largest number. -/
def computeCost (builder : SubnetBuilder) (marked : List EntryID) (idx : EntryID) :
    Option (Option ℕ) := do
  let cell ← builder.getCell idx
  if cell.isIn || isConstant cell then some none
  else do
    let counted ← (← builder.getLinks idx).mapM (fun link => do
      some (!isConstant (← builder.getCell link.idx) && decide (link.idx ∉ marked)))
    some (some (counted.count true))

/-- The loop of `findBestLeave` from the leaf number `i` on: the best cost and its leaf. -/
def findBest (builder : SubnetBuilder) (marked : List EntryID) : List EntryID → ℕ → Option (ℕ × ℕ) →
    Option (Option (ℕ × ℕ))
  | [], _, best => some best
  | leaf :: leaves, i, best => do
    let cost ← computeCost builder marked leaf
    let best := match cost, best with
      | none, _ => best
      | some cost, none => some (cost, i)
      | some cost, some (bestCost, bestLeave) => if cost < bestCost then some (cost, i) else
          some (bestCost, bestLeave)
    if best.map Prod.fst = some 0 then some best else findBest builder marked leaves (i + 1) best

def findBestLeave (builder : SubnetBuilder) (marked leaves : List EntryID) (cutSize : ℕ) :
    Option (Option ℕ) := do
  match ← findBest builder marked leaves 0 none with
  | none => some none
  | some (bestCost, bestLeave) => some (if cutSize < bestCost + leaves.length - 1 then none else
      some bestLeave)

def pushFanins (builder : SubnetBuilder) :
    List Link → List EntryID × List EntryID → Option (List EntryID × List EntryID)
  | [], st => some st
  | link :: links, (leaves, marked) => do
    let cell ← builder.getCell link.idx
    pushFanins builder links (if !isConstant cell && decide (link.idx ∉ marked) then
    (leaves ++ [link.idx], link.idx :: marked)
      else (leaves, marked))

def replaceBestLeave (builder : SubnetBuilder) (cutSize : ℕ) (st : List EntryID × List EntryID) :
    Option (Option (List EntryID × List EntryID)) := do
  match ← findBestLeave builder st.2 st.1 cutSize with
  | none => some none
  | some bestLeave => do
    let (leaves, marked) ← pushFanins builder (← builder.getLinks (← st.1[bestLeave]?)) st
    some (some (leaves.eraseIdx bestLeave, marked))

/-- The first argument bounds the number of rounds. -/
def search (builder : SubnetBuilder) (cutSize : ℕ) :
    ℕ → List EntryID × List EntryID → Option (List EntryID)
  | 0, _ => none
  | n + 1, st => do
    match ← replaceBestLeave builder cutSize st with
    | none => some st.1
    | some st => search builder cutSize n st

end Reconvergence

/-- `SubnetView(builder, iomapping)`. -/
def SubnetView.ofMapping (builder : SubnetBuilder) (iomapping : InOutMapping) : Option SubnetView :=
  if iomapping.inputs = [] ∨ iomapping.outputs = [] then none else some ⟨builder, iomapping⟩

/-- `InOutMapping(inputIDs, outputIDs)`. -/
def InOutMapping.ofIDs (inputIDs outputIDs : List EntryID) : InOutMapping :=
  ⟨inputIDs.map (fun i => ⟨i, 0, false⟩), outputIDs.map (fun i => ⟨i, 0, false⟩)⟩

open Reconvergence in
/-- The roots are the leaves if only constants are left. -/
def getReconvergentCut (builder : SubnetBuilder) (roots : List EntryID) (cutSize : ℕ) :
    Option SubnetView :=
  if roots.length ≤ cutSize then do
    let leaves ← search builder cutSize (roots.length + builder.size + 1) (roots, [])
    SubnetView.ofMapping builder (.ofIDs (if leaves = [] then roots else leaves) roots)
  else none

namespace Reconvergence

variable {s : SubnetBuilder} {i j : EntryID} {L M roots : List EntryID} {links : List Link}
  {g : Gate} {cutSize c : ℕ}

def Constant (s : SubnetBuilder) (i : EntryID) : Prop :=
  ∃ g, s.netlist i = some g ∧ g.type ∈ [.ZERO, .ONE]

theorem not_isConstant_iff {cell : SubnetCell} (h : s.liveCell i = some cell) :
    (!isConstant cell) = true ↔ ¬ Constant s i := by
  have hiff : Constant s i ↔ isConstant cell = true := by
    rw [isConstant, Bool.or_eq_true, decide_eq_true_iff, decide_eq_true_iff]
    constructor
    · rintro ⟨g, hg, ht⟩
      rw [netlist_of_live h] at hg
      obtain rfl := some.inj hg
      simpa using ht
    · intro ht
      exact ⟨_, netlist_of_live h, by simpa using ht⟩
  rw [hiff, Bool.not_eq_true', Bool.not_eq_true]

def New (s : SubnetBuilder) (M : List EntryID) (j : EntryID) : Prop := ¬ Constant s j ∧ j ∉ M

open Classical in
theorem computeCost_eq (hs : s.LinksStored) (hc : s.netlist.Closed) (hg : s.netlist i = some g) :
    computeCost s M i = some (if g.type ∈ [.IN, .ZERO, .ONE] then none else
    some (g.links.countP (fun l => decide (New s M l.idx)))) := by
  obtain ⟨cell, hcell, hct, hcl⟩ := liveCell_of_netlist hg
  obtain ⟨es, u, v, hst, hl⟩ := hs i cell hcell
  have hlinks : s.getLinks i = some g.links :=
    hcl ▸ getLinks_of_stored (getCell_of_live hcell) hst hl.visits
  have htype : (cell.isIn || isConstant cell) = true ↔ g.type ∈ [.IN, .ZERO, .ONE] := by
    rw [SubnetCell.isIn, isConstant, hct]
    simp
  have hcounted : g.links.mapM (fun link => (s.getCell link.idx).bind (fun cell =>
      some (!isConstant cell && decide (link.idx ∉ M)))) =
        some (g.links.map (fun l => decide (New s M l.idx))) := by
    apply Netlist.mapM_eq_some
    intro l hl
    obtain ⟨cell', hcell', -⟩ := liveCell_of_netlist
      (isSome_iff_exists.mp (hc i l.idx ⟨g, hg, l, hl, rfl⟩)).choose_spec
    rw [getCell_of_live hcell', bind_some, Option.some.injEq, Bool.eq_iff_iff, Bool.and_eq_true,
      not_isConstant_iff hcell',
      decide_eq_true_iff, decide_eq_true_iff]
    rfl
  rw [computeCost, getCell_of_live hcell]
  simp only [bind_eq_bind, bind_some, htype]
  split
  · rfl
  · have hcount : (g.links.map (fun l => decide (New s M l.idx))).count true = g.links.countP
        (fun l => decide (New s M l.idx)) := by
      rw [count, countP_map]
      apply countP_congr
      intro l _
      simp
    rw [hlinks]
    simp only [bind_some]
    rw [hcounted, bind_some, hcount]

theorem findBest_eq : ∀ {leaves : List EntryID} {i : ℕ} {best : Option (ℕ × ℕ)},
    (∀ leaf ∈ leaves, ∃ cost, computeCost s M leaf = some cost) →
    ∃ result, findBest s M leaves i best = some result ∧
      ∀ cost k, result = some (cost, k) → best = some (cost, k) ∨
        ∃ n leaf, k = i + n ∧ leaves[n]? = some leaf ∧ computeCost s M leaf = some (some cost) := by
  intro leaves
  induction leaves with
  | nil => exact fun {i best} _ => ⟨best, rfl, fun cost k h => .inl h⟩
  | cons leaf leaves ih =>
    intro i best h
    obtain ⟨cost, hcost⟩ := h leaf mem_cons_self
    rw [findBest, hcost]
    simp only [bind_eq_bind, bind_some]
    generalize hbest : (match cost, best with
      | none, _ => best
      | some cost, none => some (cost, i)
      | some cost, some (bestCost, bestLeave) =>
        if cost < bestCost then some (cost, i) else some (bestCost, bestLeave)) = best'
    have hold : ∀ c k, best' = some (c, k) → best = some (c, k) ∨ (k = i ∧ cost = some c) := by
      rintro c k rfl
      cases cost with
      | none => exact .inl hbest
      | some cost =>
        cases best with
        | none =>
          obtain ⟨rfl, rfl⟩ := Prod.mk.inj (some.inj hbest)
          exact .inr ⟨rfl, rfl⟩
        | some p =>
          change (if cost < p.1 then some (cost, i) else some (p.1, p.2)) = some (c, k) at hbest
          split at hbest
          · obtain ⟨rfl, rfl⟩ := Prod.mk.inj (some.inj hbest)
            exact .inr ⟨rfl, rfl⟩
          · exact .inl hbest
    have hhead : ∀ c k, best' = some (c, k) → best = some (c, k) ∨
        ∃ n leaf', k = i + n ∧ (leaf :: leaves)[n]? = some leaf' ∧ computeCost s M leaf' =
        some (some c) := by
      intro c k hck
      rcases hold c k hck with hck | ⟨rfl, rfl⟩
      · exact .inl hck
      · exact .inr ⟨0, leaf, rfl, rfl, hcost⟩
    split
    · exact ⟨best', rfl, hhead⟩
    · obtain ⟨result, hresult, hfound⟩ :=
        ih (i := i + 1) (fun l hl => h l (mem_cons_of_mem leaf hl))
      refine ⟨result, hresult, fun c k hck => ?_⟩
      rcases hfound c k hck with hck | ⟨n, leaf', rfl, hn, hcost'⟩
      · exact hhead c k hck
      · exact .inr ⟨n + 1, leaf', by omega, hn, hcost'⟩

open Classical in
theorem exists_pushFanins : ∀ {links : List Link} {L M : List EntryID},
    (∀ l ∈ links, (s.netlist l.idx).isSome) → ∃ new, pushFanins s links (L, M) =
    some (L ++ new, new.reverse ++ M) ∧ new.Nodup ∧
      (∀ j ∈ new, New s M j ∧ ∃ l ∈ links, l.idx = j) ∧
      (∀ l ∈ links, Constant s l.idx ∨ l.idx ∈ new ∨ l.idx ∈ M) ∧
      new.length ≤ links.countP (fun l => decide (New s M l.idx)) := by
  intro links
  induction links with
  | nil =>
    intro L M _
    refine ⟨[], by rw [append_nil]; rfl, nodup_nil, fun j hj => ?_, fun l hl => ?_, Nat.le_refl 0⟩
    · cases hj
    · cases hl
  | cons link links ih =>
    intro L M hlive
    obtain ⟨g, hg⟩ := isSome_iff_exists.mp (hlive link mem_cons_self)
    obtain ⟨cell, hcell, -⟩ := liveCell_of_netlist hg
    have hrest : ∀ l ∈ links, (s.netlist l.idx).isSome :=
      fun l hl => hlive l (mem_cons_of_mem link hl)
    have hnew : (!isConstant cell && decide (link.idx ∉ M)) = true ↔ New s M link.idx := by
      rw [Bool.and_eq_true, not_isConstant_iff hcell, decide_eq_true_iff]
      rfl
    rw [pushFanins, getCell_of_live hcell]
    simp only [bind_eq_bind, bind_some]
    by_cases hlink : New s M link.idx
    · have hcount : (link :: links).countP (fun l => decide (New s M l.idx)) = links.countP
          (fun l => decide (New s M l.idx)) + 1 :=
        countP_cons_of_pos (decide_eq_true hlink)
      rw [if_pos (hnew.mpr hlink), hcount]
      obtain ⟨new, hpush, hnd, hmem, hall, hlen⟩ :=
        ih (L := L ++ [link.idx]) (M := link.idx :: M) hrest
      have hmono : ∀ j, New s (link.idx :: M) j → New s M j := fun j hj =>
          ⟨hj.1, fun hM => hj.2 (mem_cons_of_mem _ hM)⟩
      refine ⟨link.idx :: new, by rw [hpush]; simp, nodup_cons.mpr ⟨fun hin => ?_,
        hnd⟩, fun j hj => ?_, fun l hl => ?_, ?_⟩
      · exact (hmem _ hin).1.2 mem_cons_self
      · rcases mem_cons.mp hj with rfl | hj
        · exact ⟨hlink, link, mem_cons_self, rfl⟩
        · obtain ⟨hjnew, l, hl, rfl⟩ := hmem j hj
          exact ⟨hmono _ hjnew, l, mem_cons_of_mem link hl, rfl⟩
      · rcases mem_cons.mp hl with rfl | hl
        · exact .inr (.inl mem_cons_self)
        · rcases hall l hl with hconst | hin | hM
          · exact .inl hconst
          · exact .inr (.inl (mem_cons_of_mem _ hin))
          · rcases mem_cons.mp hM with heq | hM
            · exact .inr (.inl (heq ▸ mem_cons_self))
            · exact .inr (.inr hM)
      · have hle : links.countP (fun l => decide (New s (link.idx :: M) l.idx)) ≤ links.countP
            (fun l => decide (New s M l.idx)) :=
          countP_mono_left (fun l _ hl => decide_eq_true (hmono _ (of_decide_eq_true hl)))
        rw [length_cons]
        exact Nat.succ_le_succ (Nat.le_trans hlen hle)
    · have hcount : (link :: links).countP (fun l => decide (New s M l.idx)) = links.countP
          (fun l => decide (New s M l.idx)) :=
        countP_cons_of_neg (fun h => hlink (of_decide_eq_true h))
      rw [if_neg (fun h => hlink (hnew.mp h)), hcount]
      obtain ⟨new, hpush, hnd, hmem, hall, hlen⟩ := ih (L := L) (M := M) hrest
      refine ⟨new, hpush, hnd, fun j hj => ?_, fun l hl => ?_, hlen⟩
      · obtain ⟨hjnew, l, hl, hl'⟩ := hmem j hj
        exact ⟨hjnew, l, mem_cons_of_mem link hl, hl'⟩
      · rcases mem_cons.mp hl with rfl | hl
        · by_cases hconst : Constant s l.idx
          · exact .inl hconst
          · by_cases hM : l.idx ∈ M
            · exact .inr (.inr hM)
            · exact absurd ⟨hconst, hM⟩ hlink
        · exact hall l hl

structure Searching (s : SubnetBuilder) (roots : List EntryID) (cutSize : ℕ) (L M : List EntryID) :
    Prop where
  parts : ∃ rs ms, L = rs ++ ms ∧ rs.Sublist roots ∧ ms.Nodup ∧ ∀ m ∈ ms, m ∈ M
  nodup : M.Nodup
  marked : ∀ m ∈ M, (s.netlist m).isSome ∧ ¬ Constant s m ∧ ∃ r ∈ roots,
    Relation.TransGen s.netlist.Fanin r m
  replaced : ∀ i, i ∈ roots ∨ i ∈ M → i ∉ L →
    (∃ g, s.netlist i = some g ∧ g.type ∉ [.IN, .ZERO, .ONE]) ∧
    ∀ j, s.netlist.Fanin i j → Constant s j ∨ j ∈ M
  size : L.length ≤ cutSize

theorem Searching.init (hsize : roots.length ≤ cutSize) : Searching s roots cutSize roots [] := by
  refine ⟨⟨roots, [], (append_nil roots).symm, .refl roots, nodup_nil, fun m hm => ?_⟩, nodup_nil,
    fun m hm => ?_,
    fun i hi hnot => ?_, hsize⟩
  · cases hm
  · cases hm
  · exact absurd (hi.resolve_right not_mem_nil) hnot

theorem Searching.live (h : Searching s roots cutSize L M)
    (hroots : ∀ r ∈ roots, (s.netlist r).isSome) (hi : i ∈ L) : (s.netlist i).isSome := by
  obtain ⟨rs, ms, rfl, hrs, -, hms⟩ := h.parts
  rcases mem_append.mp hi with hi | hi
  · exact hroots i (hrs.subset hi)
  · exact (h.marked i (hms i hi)).1

private theorem mem_eraseIdx {new : List EntryID} {k : ℕ} {leaf : EntryID} (hk : L[k]? = some leaf)
    (hi : i ∈ L ++ new) (hne : i ≠ leaf) :
    i ∈ (L ++ new).eraseIdx k := by
  rw [mem_eraseIdx_iff_getElem?]
  obtain ⟨n, hn⟩ := mem_iff_getElem?.mp hi
  refine ⟨n, fun hnk => hne ?_, hn⟩
  rw [hnk, getElem?_append_left (List.getElem?_eq_some_iff.mp hk).1, hk] at hn
  exact (some.inj hn).symm

theorem Searching.expand (hs : s.NetOk) (h : Searching s roots cutSize L M) {k : ℕ} {leaf : EntryID}
    (hk : L[k]? = some leaf)
    (hg : s.netlist leaf = some g) (htype : g.type ∉ [.IN, .ZERO, .ONE]) {new : List EntryID}
    (hnd : new.Nodup) (hnew : ∀ j ∈ new, New s M j ∧ ∃ l ∈ g.links, l.idx = j)
    (hall : ∀ l ∈ g.links, Constant s l.idx ∨ l.idx ∈ new ∨ l.idx ∈ M)
    (hsize : L.length + new.length ≤ cutSize + 1) :
    Searching s roots cutSize ((L ++ new).eraseIdx k) (new.reverse ++ M) := by
  have hlt : k < L.length := (List.getElem?_eq_some_iff.mp hk).1
  have hleaf : leaf ∈ roots ∨ leaf ∈ M := by
    obtain ⟨rs, ms, rfl, hrs, -, hms⟩ := h.parts
    exact (mem_append.mp (mem_of_getElem? hk)).imp (fun hi => hrs.subset hi) (hms leaf)
  have hmem : ∀ j, j ∈ new.reverse ++ M ↔ j ∈ new ∨ j ∈ M := fun j => by
    rw [mem_append, mem_reverse]
  refine ⟨?_, ?_, fun m hm => ?_, fun i hi hnot => ?_, ?_⟩
  · obtain ⟨rs, ms, hL, hrs, hmsnd, hms⟩ := h.parts
    have hdisjoint : (ms ++ new).Nodup :=
      nodup_append.mpr ⟨hmsnd, hnd, fun a ha b hb hab => (hnew b hb).1.2 (hab ▸ hms a ha)⟩
    have hsub : ∀ m ∈ ms ++ new, m ∈ new.reverse ++ M := by
      intro m hm
      rw [hmem]
      exact (mem_append.mp hm).symm.imp id (hms m)
    rw [hL, append_assoc]
    by_cases hrk : k < rs.length
    · exact ⟨rs.eraseIdx k, ms ++ new, eraseIdx_append_of_lt_length hrk _,
          (eraseIdx_sublist rs k).trans hrs, hdisjoint, hsub⟩
    · refine ⟨rs, (ms ++ new).eraseIdx (k - rs.length),
        eraseIdx_append_of_length_le (Nat.not_lt.mp hrk) _, hrs,
        hdisjoint.sublist (eraseIdx_sublist _ _),
        fun m hm => hsub m ((eraseIdx_sublist _ _).subset hm)⟩
  · rw [nodup_append]
    exact ⟨nodup_reverse.mpr hnd, h.nodup,
      fun a ha b hb hab => (hnew a (mem_reverse.mp ha)).1.2 (hab ▸ hb)⟩
  · rcases (hmem m).mp hm with hm | hm
    · obtain ⟨⟨hconst, -⟩, l, hl, rfl⟩ := hnew m hm
      have hfanin : s.netlist.Fanin leaf l.idx := ⟨g, hg, l, hl, rfl⟩
      refine ⟨hs.net.closed' leaf l.idx hfanin, hconst, ?_⟩
      rcases hleaf with hleaf | hleaf
      · exact ⟨leaf, hleaf, .single hfanin⟩
      · obtain ⟨-, -, r, hr, hpath⟩ := h.marked leaf hleaf
        exact ⟨r, hr, hpath.tail hfanin⟩
    · exact h.marked m hm
  · by_cases hil : i = leaf
    · subst hil
      refine ⟨⟨g, hg, htype⟩, fun j ⟨g', hg', l, hl, hlj⟩ => ?_⟩
      rw [hg, Option.some.injEq] at hg'
      subst hg' hlj
      rw [hmem]
      exact hall l hl
    · have hout : i ∉ L ++ new := fun hin => hnot (mem_eraseIdx hk hin hil)
      rw [mem_append, not_or] at hout
      have hold : i ∈ roots ∨ i ∈ M := hi.imp id (fun hin => ((hmem i).mp hin).resolve_left hout.2)
      obtain ⟨hgate, hfanins⟩ := h.replaced i hold hout.1
      exact ⟨hgate, fun j hj => (hfanins j hj).imp id (fun hM => (hmem j).mpr (.inr hM))⟩
  · rw [length_eraseIdx_of_lt (by rw [length_append]; omega), length_append]
    omega

theorem Searching.step (hs : s.NetOk) (hstored : s.LinksStored)
    (hroots : ∀ r ∈ roots, (s.netlist r).isSome) (h : Searching s roots cutSize L M) :
    replaceBestLeave s cutSize (L, M) = some none ∨
      ∃ L' M', replaceBestLeave s cutSize (L, M) = some (some (L', M')) ∧
      Searching s roots cutSize L' M' ∧
        L'.length + 1 + M.length = L.length + M'.length ∧ (∀ i ∈ L, Constant s i → i ∈ L') := by
  have hcosts : ∀ leaf ∈ L, ∃ cost, computeCost s M leaf = some cost := by
    intro leaf hleaf
    obtain ⟨g, hg⟩ := isSome_iff_exists.mp (h.live hroots hleaf)
    exact ⟨_, computeCost_eq hstored hs.net.closed' hg⟩
  obtain ⟨result, hresult, hfound⟩ := findBest_eq (i := 0) hcosts
  rw [replaceBestLeave, findBestLeave, hresult]
  simp only [bind_eq_bind, bind_some]
  cases result with
  | none => exact .inl rfl
  | some p =>
    obtain ⟨cost, k⟩ := p
    obtain ⟨n, leaf, hk, hn, hcost⟩ :=
      (hfound cost k rfl).resolve_left (fun hnone => by cases hnone)
    obtain rfl : k = n := by omega
    by_cases hlarge : cutSize < cost + L.length - 1
    · simp only [if_pos hlarge]
      exact .inl rfl
    · simp only [if_neg hlarge, bind_some]
      right
      have hleaf : leaf ∈ L := mem_of_getElem? hn
      obtain ⟨g, hg⟩ := isSome_iff_exists.mp (h.live hroots hleaf)
      rw [computeCost_eq hstored hs.net.closed' hg, Option.some.injEq] at hcost
      have htype : g.type ∉ [.IN, .ZERO, .ONE] := by
        intro hin
        rw [if_pos hin] at hcost
        cases hcost
      rw [if_neg htype, Option.some.injEq] at hcost
      obtain ⟨cell, hcell, -, hcl⟩ := liveCell_of_netlist hg
      obtain ⟨es, u, v, hst, hl⟩ := hstored leaf cell hcell
      have hlinks : s.getLinks leaf = some g.links :=
        hcl ▸ getLinks_of_stored (getCell_of_live hcell) hst hl.visits
      obtain ⟨new, hpush, hnd, hnew, hall, hlen⟩ := exists_pushFanins (s := s) (L := L) (M := M)
        (fun l hl => hs.net.closed' leaf l.idx ⟨g, hg, l, hl, rfl⟩)
      simp only [hn, hlinks, hpush, bind_some]
      have hnonconst : ¬ Constant s leaf := by
        rintro ⟨g', hg', hc⟩
        rw [hg, Option.some.injEq] at hg'
        exact htype (mem_cons_of_mem _ (hg' ▸ hc))
      have hle : new.length ≤ cost := Nat.le_trans hlen (Nat.le_of_eq hcost)
      have hlt : k < L.length := (List.getElem?_eq_some_iff.mp hn).1
      refine ⟨_, _, rfl, h.expand hs hn hg htype hnd hnew hall (by omega), ?_,
        fun i hi hconst => ?_⟩
      · rw [length_eraseIdx_of_lt (by rw [length_append]; omega), length_append, length_append,
          length_reverse]
        omega
      · exact mem_eraseIdx hn (mem_append_left new hi) (fun heq => hnonconst (heq ▸ hconst))

/-- The marked cells are cells of the network. -/
theorem Searching.length_le (h : Searching s roots cutSize L M) : M.length ≤ s.size := by
  have hsub : M.toFinset ⊆ Finset.range s.size := by
    intro m hm
    obtain ⟨g, hg⟩ := isSome_iff_exists.mp (h.marked m (mem_toFinset.mp hm)).1
    exact Finset.mem_range.mpr (lt_of_netlist hg)
  have hcard := Finset.card_le_card hsub
  rwa [toFinset_card_of_nodup h.nodup, Finset.card_range] at hcard

inductive Searched (s : SubnetBuilder) (cutSize : ℕ) (roots : List EntryID) :
    List EntryID → List EntryID → Prop where
  | init : Searched s cutSize roots roots []
  | next {L M L' M' : List EntryID} (h : Searched s cutSize roots L M)
      (step : replaceBestLeave s cutSize (L, M) = some (some (L', M'))) :
      Searched s cutSize roots L' M'

theorem exists_search (hs : s.NetOk) (hstored : s.LinksStored)
    (hroots : ∀ r ∈ roots, (s.netlist r).isSome) : ∀ {n : ℕ} {L M : List EntryID},
    Searching s roots cutSize L M → Searched s cutSize roots L M →
      L.length + s.size < n + M.length →
      ∃ L' M', search s cutSize n (L, M) = some L' ∧ Searching s roots cutSize L' M' ∧
      Searched s cutSize roots L' M' ∧
        ∀ i ∈ L, Constant s i → i ∈ L' := by
  intro n
  induction n with
  | zero =>
    intro L M h _ hlt
    have hle := h.length_le
    omega
  | succ n ih =>
    intro L M h hsearched hlt
    rw [search]
    rcases h.step hs hstored hroots with hdone | ⟨L₁, M₁, hstep, h₁, hlen, hconst⟩
    · rw [hdone]
      exact ⟨L, M, rfl, h, hsearched, fun i hi _ => hi⟩
    · rw [hstep]
      obtain ⟨L', M', hrun, h', hsearched', hconst'⟩ := ih h₁ (hsearched.next hstep) (by omega)
      exact ⟨L', M', hrun, h', hsearched', fun i hi hc => hconst' i (hconst i hi hc) hc⟩

/-- Every path from an input of the network to a root passes through a leaf. -/
def Separates (s : SubnetBuilder) (leaves roots : List EntryID) : Prop :=
  ∀ r ∈ roots, ∀ i g, s.netlist.InCone leaves r i → s.netlist i = some g → g.type ≠ .IN

/-- Constants have no links, as their type says. -/
def PlainConstants (s : SubnetBuilder) : Prop :=
  ∀ i g, s.netlist i = some g → g.type ∈ [.ZERO, .ONE] → g.links = []

theorem Searching.separates (h : Searching s roots cutSize L M) (hplain : PlainConstants s) :
    Separates s L roots := by
  rintro r hr i g ⟨hnot, hpath⟩ hg ht
  have hall : (i ∉ L ∧ (i ∈ roots ∨ i ∈ M)) ∨ Constant s i := by
    clear hg
    induction hpath with
    | refl => exact .inl ⟨hnot, .inl hr⟩
    | tail _ hab ih =>
      rcases ih with ⟨ha, hold⟩ | ⟨g', hg', hc⟩
      · rcases (h.replaced _ hold ha).2 _ hab.1 with hconst | hM
        · exact .inr hconst
        · exact .inl ⟨hab.2, .inr hM⟩
      · obtain ⟨g'', hg'', l, hl, -⟩ := hab.1
        rw [hg', Option.some.injEq] at hg''
        rw [← hg'', hplain _ g' hg' hc] at hl
        cases hl
  rcases hall with ⟨hi, hold⟩ | ⟨g', hg', hc⟩
  · obtain ⟨⟨g', hg', htype⟩, -⟩ := h.replaced i hold hi
    rw [hg, Option.some.injEq] at hg'
    exact htype (hg' ▸ ht ▸ mem_cons_self)
  · rw [hg, Option.some.injEq] at hg'
    rw [← hg', ht] at hc
    exact absurd hc (by decide)

theorem Searching.count_le (h : Searching s roots cutSize L M) (hnd : roots.Nodup)
    (hi : 1 < L.count i) : i ∈ roots ∧ i ∈ M := by
  obtain ⟨rs, ms, rfl, hrs, hms, hsub⟩ := h.parts
  have hroot : rs.count i ≤ 1 := nodup_iff_count_le_one.mp (hnd.sublist hrs) i
  have hmark : ms.count i ≤ 1 := nodup_iff_count_le_one.mp hms i
  rw [count_append] at hi
  exact ⟨hrs.subset (count_pos_iff.mp (by omega)), hsub i (count_pos_iff.mp (by omega))⟩

/-- The leaves are no constants, not too many, and on all paths from inputs to roots. -/
structure Cut (s : SubnetBuilder) (roots : List EntryID) (cutSize : ℕ) (leaves : List EntryID) :
    Prop where
  nonconstant : ∀ i ∈ leaves, ¬ Constant s i
  size : leaves.length ≤ cutSize
  separates : Separates s leaves roots

def Finds (s : SubnetBuilder) (roots : List EntryID) (cutSize : ℕ) (P : List EntryID → Prop) :
    Prop :=
  ∃ v, getReconvergentCut s roots cutSize = some v ∧ v.parent = s ∧ v.outputs = roots ∧ P v.inputs

private theorem ids_map (ids : List EntryID) :
    (ids.map (fun i => (⟨i, 0, false⟩ : Link))).map Link.idx = ids := by
  rw [map_map]
  exact map_id _

theorem exists_getReconvergentCut (hs : s.NetOk) (hstored : s.LinksStored)
    (hroots : ∀ r ∈ roots, (s.netlist r).isSome) (hne : roots ≠ [])
    (hsize : roots.length ≤ cutSize) : ∃ L M, Searching s roots cutSize L M ∧
    Searched s cutSize roots L M ∧
      (∀ r ∈ roots, Constant s r → r ∈ L) ∧ Finds s roots cutSize
      (fun leaves => leaves = if L = [] then roots else L) := by
  obtain ⟨L, M, hrun, h, hsearched, hconst⟩ := exists_search hs hstored hroots (.init hsize) .init
    (n := roots.length + s.size + 1) (Nat.lt_succ_self _)
  have hinputs : (if L = [] then roots else L) ≠ [] := by
    split
    · exact hne
    · assumption
  refine ⟨L, M, h, hsearched, hconst, ⟨s, .ofIDs (if L = [] then roots else L) roots⟩, ?_, rfl,
    ids_map roots, ids_map _⟩
  rw [getReconvergentCut, if_pos hsize, hrun, bind_eq_bind, bind_some, SubnetView.ofMapping, if_neg]
  rintro (hnil | hnil)
  · exact hinputs (map_eq_nil_iff.mp hnil)
  · exact hne (map_eq_nil_iff.mp hnil)

theorem Finds.mono {P Q : List EntryID → Prop} (h : Finds s roots cutSize P)
    (hPQ : ∀ leaves, P leaves → Q leaves) : Finds s roots cutSize Q := by
  obtain ⟨v, hv, hparent, houts, hins⟩ := h
  exact ⟨v, hv, hparent, houts, hPQ _ hins⟩

theorem Finds.and {P Q : List EntryID → Prop} (h : Finds s roots cutSize P)
    (h' : Finds s roots cutSize Q) : ∃ leaves, P leaves ∧ Q leaves := by
  obtain ⟨v, hv, -, -, hP⟩ := h
  obtain ⟨v', hv', -, -, hQ⟩ := h'
  obtain rfl := some.inj (hv.symm.trans hv')
  exact ⟨_, hP, hQ⟩

theorem Searched.searching (hs : s.NetOk) (hstored : s.LinksStored)
    (hroots : ∀ r ∈ roots, (s.netlist r).isSome) (hsize : roots.length ≤ cutSize)
    (h : Searched s cutSize roots L M) : Searching s roots cutSize L M := by
  induction h with
  | init => exact .init hsize
  | next _ step ih =>
    rcases ih.step hs hstored hroots with hdone | ⟨L', M', hstep, h', -⟩
    · rw [step, Option.some.injEq] at hdone
      cases hdone
    · rw [step, Option.some.injEq, Option.some.injEq] at hstep
      obtain ⟨rfl, rfl⟩ := Prod.mk.inj hstep
      exact h'

theorem not_marked_of_apart (hs : s.NetOk) (hstored : s.LinksStored)
    (hroots : ∀ r ∈ roots, (s.netlist r).isSome) (hsize : roots.length ≤ cutSize)
    (hapart : ∀ r ∈ roots, ∀ r' ∈ roots, ¬ Relation.TransGen s.netlist.Fanin r r') :
    ∀ L M, Searched s cutSize roots L M → ∀ m ∈ M, m ∉ roots := by
  intro L M hsearched m hm hroot
  obtain ⟨-, -, r, hr, hpath⟩ := (hsearched.searching hs hstored hroots hsize).marked m hm
  exact hapart r hr m hroot hpath

private theorem finds_cut (hs : s.NetOk) (hstored : s.LinksStored) (hplain : PlainConstants s)
    (hne : roots ≠ []) (hnd : roots.Nodup) (hroots : ∀ r ∈ roots, (s.netlist r).isSome)
    (hsize : roots.length ≤ cutSize) (hconst : ∀ r ∈ roots, ¬ Constant s r) :
    Finds s roots cutSize (fun leaves => Cut s roots cutSize leaves ∧
      ∀ i, 1 < leaves.count i → i ∈ roots ∧ ∃ L M, Searched s cutSize roots L M ∧ i ∈ M) := by
  obtain ⟨L, M, h, hsearched, -, hfinds⟩ := exists_getReconvergentCut hs hstored hroots hne hsize
  refine hfinds.mono ?_
  rintro _ rfl
  split
  · refine ⟨⟨hconst, hsize, fun r hr i g hi _ => absurd hr hi.1⟩, fun i hi => ?_⟩
    exact absurd (nodup_iff_count_le_one.mp hnd i) (Nat.not_le.mpr hi)
  · refine ⟨⟨fun i hi => ?_, h.size, h.separates hplain⟩, fun i hi => ?_⟩
    · obtain ⟨rs, ms, hL, hrs, -, hms⟩ := h.parts
      rw [hL] at hi
      rcases mem_append.mp hi with hi | hi
      · exact hconst i (hrs.subset hi)
      · exact (h.marked i (hms i hi)).2.1
    · obtain ⟨hroot, hM⟩ := h.count_le hnd hi
      exact ⟨hroot, L, M, hsearched, hM⟩

private theorem of_finds (hs : s.NetOk) (hstored : s.LinksStored) (hne : roots ≠ [])
    (hroots : ∀ r ∈ roots, (s.netlist r).isSome)
    (h : Finds s roots cutSize (fun leaves => ∀ i ∈ leaves, ¬ Constant s i)) :
    roots.length ≤ cutSize ∧ ∀ r ∈ roots, ¬ Constant s r := by
  have hsize : roots.length ≤ cutSize := by
    by_contra hlt
    obtain ⟨v, hv, -⟩ := h
    rw [getReconvergentCut, if_neg hlt] at hv
    cases hv
  obtain ⟨L, M, -, -, hkeep, hfinds⟩ := exists_getReconvergentCut hs hstored hroots hne hsize
  obtain ⟨_, rfl, hnone⟩ := hfinds.and h
  refine ⟨hsize, fun r hr hconst => hnone r ?_ hconst⟩
  have hmem := hkeep r hr hconst
  rwa [if_neg (ne_nil_of_mem hmem)]

/-- The search finds a cut exactly if there are not more roots than leaves are allowed and no root
is a constant. If no root lies below another one, the leaves are distinct as well. -/
theorem getReconvergentCut_iff (hs : s.NetOk) (hstored : s.LinksStored) (hplain : PlainConstants s)
    (hne : roots ≠ []) (hnd : roots.Nodup) (hlive : ∀ r ∈ roots, (s.netlist r).isSome) :
    (Finds s roots cutSize (Cut s roots cutSize) ↔ roots.length ≤ cutSize ∧ ∀ r ∈ roots,
      ¬ Constant s r) ∧ ((∀ r ∈ roots, ∀ r' ∈ roots, ¬ Relation.TransGen s.netlist.Fanin r r') →
        (Finds s roots cutSize (fun leaves => leaves.Nodup ∧ Cut s roots cutSize leaves) ↔
          roots.length ≤ cutSize ∧ ∀ r ∈ roots, ¬ Constant s r)) := by
  refine ⟨⟨fun h => ?_, fun ⟨hsize, hconst⟩ => ?_⟩,
    fun hapart => ⟨fun h => ?_, fun ⟨hsize, hconst⟩ => ?_⟩⟩
  · exact of_finds hs hstored hne hlive (h.mono (fun leaves hcut => hcut.nonconstant))
  · exact (finds_cut hs hstored hplain hne hnd hlive hsize hconst).mono (fun leaves hcut => hcut.1)
  · exact of_finds hs hstored hne hlive (h.mono (fun leaves hcut => hcut.2.nonconstant))
  · refine (finds_cut hs hstored hplain hne hnd hlive hsize hconst).mono
      (fun leaves ⟨hcut, htwice⟩ => ⟨?_, hcut⟩)
    rw [nodup_iff_count_le_one]
    intro i
    by_contra hlt
    obtain ⟨hroot, L, M, hsearched, hM⟩ := htwice i (Nat.not_le.mp hlt)
    exact not_marked_of_apart hs hstored hlive hsize hapart L M hsearched i hM hroot

/-- Two conjunctions, and a third one of both; the first and the third are outputs. -/
def nested : Subnet := ⟨5, 2, 10, 0, (replicate 5 (.cell ⟨.IN, [], 1⟩)) ++
  [.cell ⟨.AND, [⟨0, 0, false⟩, ⟨1, 0, false⟩, ⟨2, 0, false⟩], 2⟩,
    .cell ⟨.AND, [⟨3, 0, false⟩, ⟨4, 0, false⟩], 1⟩, .cell ⟨.AND, [⟨5, 0, false⟩, ⟨6, 0, false⟩],
    1⟩, .cell ⟨.OUT, [⟨5, 0, false⟩], 0⟩, .cell ⟨.OUT, [⟨7, 0, false⟩], 0⟩]⟩

private theorem exists_nested : ∃ s, ofSubnet [] nested = some s ∧ s.NetOk ∧ s.LinksStored ∧
    s.netlist = nested.netlist ∧ PlainConstants s := by
  have hS : nested.Arranged :=
    (SubnetEncoder.encodable_of_check (by decide) : nested.Encodable [] 0).arranged
  obtain ⟨s, mid, hs, hgrown, hnet, -⟩ := ofSubnet_eq [] hS
  refine ⟨s, hs, hgrown.netOk, hgrown.linksStored, hnet, fun i g hg ht => ?_⟩
  have hall : ∀ (i : ℕ), i < 10 → ∀ g, nested.netlist i = some g → g.type ∉ [.ZERO, .ONE] := by
    intro i hi g hg
    have hgate : ∀ i < 10, ((nested.netlist i).map Gate.type).all (fun t => t ∉ [.ZERO, .ONE]) =
        true := by decide
    have hi := hgate i hi
    rw [hg] at hi
    simpa using hi
  rw [hnet] at hg
  obtain ⟨c, hc, -⟩ := Option.map_eq_some_iff.mp hg
  exact absurd ht (hall i (Subnet.lt_of_getCell hc) g hg)

/-- The cut of the two conjunctions of inputs. -/
theorem getReconvergentCut_pair : ∃ s, ofSubnet [] nested = some s ∧
    Finds s [5, 6] 5 (fun leaves => leaves.Nodup ∧ Cut s [5, 6] 5 leaves) := by
  obtain ⟨s, hs, hok, hstored, hnet, hplain⟩ := exists_nested
  have hlive : ∀ r ∈ [5, 6], (s.netlist r).isSome := by
    rw [hnet]
    decide
  have hgate : ∀ r ∈ [5, 6], (nested.netlist r).map
      (fun g => (g.type, g.links.all (fun l => decide (l.idx < 5)))) =
      some (.AND, true) := by decide
  have hinput : ∀ i < 5, nested.netlist i = some ⟨.IN, []⟩ := by decide
  have hbelow : ∀ r ∈ [5, 6], ∀ i, Relation.TransGen s.netlist.Fanin r i → i < 5 := by
    intro r hr i hpath
    rw [hnet] at hpath
    induction hpath with
    | single hfanin =>
      obtain ⟨g, hg, l, hl, rfl⟩ := hfanin
      have hlinks := hgate r hr
      rw [hg, map_some, Option.some.injEq, Prod.mk.injEq, all_eq_true] at hlinks
      exact of_decide_eq_true (hlinks.2 l hl)
    | tail _ hfanin ih =>
      obtain ⟨g, hg, l, hl, -⟩ := hfanin
      rw [hinput _ ih, Option.some.injEq] at hg
      subst hg
      cases hl
  refine ⟨s, hs, ((getReconvergentCut_iff hok hstored hplain (cons_ne_nil _ _) (by decide) hlive).2
    (fun r hr r' hr' hpath => ?_)).mpr ⟨by decide, fun r hr ⟨g, hg, ht⟩ => ?_⟩⟩
  · have hlarge : ∀ r ∈ [5, 6], ¬ r < 5 := by decide
    exact hlarge r' hr' (hbelow r hr r' hpath)
  · have hand := hgate r hr
    rw [hnet] at hg
    rw [hg, map_some, Option.some.injEq, Prod.mk.injEq] at hand
    rw [hand.1] at ht
    exact absurd ht (by decide)

/-- The first conjunction is a leaf twice, as a root and as a fanin of the third one. -/
theorem not_getReconvergentCut : ∃ s, ofSubnet [] nested = some s ∧ s.NetOk ∧ s.LinksStored ∧
    PlainConstants s ∧ ([5, 7].flatMap
    (fun r => ((s.netlist r).map (fun g => g.links.map Link.idx)).getD [])).dedup.length ≤ 5 ∧
    ¬ Finds s [5, 7] 5 (fun leaves => leaves.Nodup ∧ Cut s [5, 7] 5 leaves) := by
  obtain ⟨s, hs, hok, hstored, hnet, hplain⟩ := exists_nested
  have hrun : (ofSubnet [] nested).map
      (fun s => (getReconvergentCut s [5, 7] 5).map SubnetView.inputs) =
      some (some [5, 5, 3, 4]) := by decide +kernel
  rw [hs, map_some, Option.some.injEq] at hrun
  refine ⟨s, hs, hok, hstored, hplain, by rw [hnet]; decide, fun ⟨v, hv, _, _, hnd, _⟩ => ?_⟩
  rw [hv, map_some, Option.some.injEq] at hrun
  rw [hrun] at hnd
  exact absurd hnd (by decide)

end Reconvergence

end UtopiaEda
