import UtopiaEda.CutExtractor
import UtopiaEda.ValidityChecks
import Mathlib.Data.Prod.Lex
import Mathlib.Algebra.GroupWithZero.Nat

/-!
# Priority cuts

The technology mapper keeps the best cuts of a cell only. Cuts with a match come first, then
cheap ones; cuts that were kept at the previous try are free. `sort` stands for the sorting of
the library, which may put cuts with equal keys in any order, and `weigh` for the division of a
cost by a function of the number of matches.
-/
namespace UtopiaEda
open CutExtractor Choices Selections List

variable {Cost Match : Type}

structure SubnetTechMapperPCut (Match : Type) where
  cutsPerCell : ℕ
  tryCount : ℕ
  cutExtractor : CutExtractor
  cutMatches : Cut → Option (List Match)

structure CutRating (Cost Match : Type) where
  estimateCutCost : Cut → Cost
  weigh : Cost → ℕ → Cost
  matchFinder : Cut → List Match

namespace SubnetTechMapperPCut

abbrev Entry (Cost : Type) := ℕ × Cost × Bool

section Model

variable [LinearOrder Cost] [Zero Cost]

def before (lhs rhs : Entry Cost) : Bool :=
  (lhs.2.2 && !rhs.2.2) || (lhs.2.2 == rhs.2.2 && decide (lhs.2.1 < rhs.2.1))

structure SortCorrect (sort : List (Entry Cost) → List (Entry Cost)) : Prop where
  perm : ∀ L, (sort L).Perm L
  sorted : ∀ L, (sort L).Pairwise fun a b => before b a = false

/-- The loop over the cuts of the previous try. It stops early only if there is a single one. -/
def insertGood (size : ℕ) : List Cut → List Cut → List Cut
  | [], goodOldCuts => goodOldCuts
  | oldCut :: rest, goodOldCuts =>
    if oldCut.isTrivial then insertGood size rest goodOldCuts
    else if size = 1 then goodOldCuts.insert oldCut
    else insertGood size rest (goodOldCuts.insert oldCut)

def goodCuts (oldCuts : List Cut) : List Cut := insertGood oldCuts.length oldCuts []

def cache (E : CutRating Cost Match) (cutMatches : Cut → Option (List Match)) (cut : Cut) :
    Cut → Option (List Match) :=
  if (cutMatches cut).isSome then cutMatches else
    Function.update cutMatches cut (some (E.matchFinder cut))

def computePCuts (E : CutRating Cost Match) (sort : List (Entry Cost) → List (Entry Cost))
    (s : SubnetBuilder) (m : SubnetTechMapperPCut Match) (entryID : EntryID) :
    Option (SubnetTechMapperPCut Match) := do
  let n := m.cutsPerCell + 1
  let goodOldCuts ← (if m.tryCount ≠ 0 then m.cutExtractor.entriesCuts[entryID]?.map goodCuts
    else some [] : Option (List Cut))
  let cutExtractor ← m.cutExtractor.recomputeCuts s entryID
  let cuts := cutExtractor.getCuts entryID
  if cuts.length ≤ n then some { m with cutExtractor }
  else
    let sorted := cuts.mapIdx fun i cut =>
      (i, E.weigh (if cut.isTrivial then 0 else E.estimateCutCost cut)
      (E.matchFinder cut).length, !(E.matchFinder cut).isEmpty)
    let goodOldCuts := goodOldCuts.filter fun oldCut => decide (oldCut ∉ cuts)
    let sorted := sorted ++ goodOldCuts.mapIdx fun i oldCut =>
      (i + cuts.length, 0, !(E.matchFinder oldCut).isEmpty)
    let pcuts ← ((sort sorted).take n).mapM fun e => (cuts ++ goodOldCuts)[e.1]?
    some { m with cutExtractor := cutExtractor.setCuts entryID pcuts
                  cutMatches := pcuts.foldl (cache E) m.cutMatches }

end Model

structure Callable (s : SubnetBuilder) (m : SubnetTechMapperPCut Match) (i : EntryID) (g : Gate) :
    Prop where
  gate : s.netlist i = some g
  inputs : ∀ l ∈ g.links, m.cutExtractor.getCuts l.idx ≠ []
  earlier : m.tryCount ≠ 0 → m.cutExtractor.getCuts i ≠ []

inductive Reachable (Cost : Type) [LinearOrder Cost] [Zero Cost] (s : SubnetBuilder) (k : ℕ) :
    SubnetTechMapperPCut Match → Prop
  | begin (cutsPerCell : ℕ) : Reachable Cost s k ⟨cutsPerCell, 0, ⟨k, []⟩, fun _ => none⟩
  | compute {m m' : SubnetTechMapperPCut Match} {E : CutRating Cost Match}
      {sort : List (Entry Cost) → List (Entry Cost)} {i : EntryID} {g : Gate}
      (reached : Reachable Cost s k m) (call : Callable s m i g) (correct : SortCorrect sort)
      (run : computePCuts E sort s m i = some m') : Reachable Cost s k m'
  | recovery {m : SubnetTechMapperPCut Match} (cutsPerCell : ℕ) (reached : Reachable Cost s k m) :
      Reachable Cost s k { m with cutsPerCell, tryCount := m.tryCount + 1 }

/-! ### Validity -/

/-- Every way from the cell to the inputs passes a leaf. -/
inductive Covered (N : Netlist) (L : Finset EntryID) : EntryID → Prop
  | leaf {i : EntryID} (mem : i ∈ L) : Covered N L i
  | inputs {i : EntryID} {g : Gate} (gate : N i = some g) (nonempty : g.links ≠ [])
      (all : ∀ l ∈ g.links, Covered N L l.idx) : Covered N L i

structure Valid (N : Netlist) (k : ℕ) (i : EntryID) (cut : Cut) : Prop where
  root : cut.rootID = i
  covered : Covered N cut.leafIDs i
  inside : ∀ l ∈ cut.leafIDs, N.Reaches i l
  size : cut.leafIDs.card ≤ k

variable {N : Netlist} {L L' : Finset EntryID} {i : EntryID} {k : ℕ} {g : Gate} {cut : Cut}
  {s : SubnetBuilder} {m m' : SubnetTechMapperPCut Match} {stored : List (List Cut)}

theorem Covered.mono (h : Covered N L i) (hL : L ⊆ L') : Covered N L' i := by
  induction h with
  | leaf hmem => exact .leaf (hL hmem)
  | inputs hg hne _ ih => exact .inputs hg hne ih

theorem Covered.nonempty (h : Covered N L i) : L.Nonempty := by
  induction h with
  | leaf hmem => exact ⟨_, hmem⟩
  | inputs _ hne _ ih =>
    obtain ⟨l, hl⟩ := exists_mem_of_ne_nil _ hne
    exact ih l hl

theorem valid_trivial (hk : 0 < k) (i : EntryID) : Valid N k i (Cut.trivial i) := by
  refine ⟨rfl, .leaf (Finset.mem_singleton_self i), fun l hl => ?_, ?_⟩
  · rw [Finset.mem_singleton.mp hl]
    exact .refl
  · rw [Cut.trivial, Finset.card_singleton]
    exact hk

def InputCuts (N : Netlist) (k : ℕ) (links : List Link) (cuts : List Cut) : Prop :=
  List.Forall₂ (fun l cut => Valid N k l.idx cut) links cuts

theorem covered_of_inputCuts {links : List Link} {cuts : List Cut} (h : InputCuts N k links cuts) :
    ∀ l ∈ links, Covered N (leaves cuts) l.idx := by
  intro l hl
  obtain ⟨cut, hcut, hvalid⟩ := exists_of_forall₂ h l hl
  exact hvalid.covered.mono fun j hj => mem_leaves.mpr ⟨cut, hcut, hj⟩

theorem fanin_of_leaf {links : List Link} {cuts : List Cut} (h : InputCuts N k links cuts)
    {j : EntryID} (hj : j ∈ leaves cuts) : ∃ l ∈ links, N.Reaches l.idx j := by
  obtain ⟨cut, hcut, hmem⟩ := mem_leaves.mp hj
  obtain ⟨l, hl, hvalid⟩ := exists_of_forall₂ h.flip cut hcut
  exact ⟨l, hl, hvalid.inside j hmem⟩

theorem valid_unite (hg : N i = some g) (hne : g.links ≠ []) {cuts : List Cut}
    (hcuts : InputCuts N k g.links cuts) (hu : unite k i cuts = some cut) : Valid N k i cut := by
  rw [unite] at hu
  split at hu
  · rename_i hle
    cases hu
    refine ⟨rfl, .inputs hg hne (covered_of_inputCuts hcuts), fun j hj => ?_, hle⟩
    obtain ⟨l, hl, hreach⟩ := fanin_of_leaf hcuts hj
    exact .head ⟨g, hg, l, hl, rfl⟩ hreach
  · cases hu

def ValidInputs (N : Netlist) (k : ℕ) (links : List Link) (stored : List (List Cut)) : Prop :=
  List.Forall₂ (fun l cuts => ∀ cut ∈ cuts, Valid N k l.idx cut) links stored

theorem ValidInputs.choice {links : List Link} (h : ValidInputs N k links stored) {cuts : List Cut}
    (hcuts : cuts ∈ choices stored) : InputCuts N k links cuts := by
  rw [mem_choices] at hcuts
  induction h generalizing cuts with
  | nil =>
    cases hcuts
    exact .nil
  | cons hl _ ih =>
    cases hcuts with
    | cons hcut hcuts => exact .cons (hl _ hcut) (ih hcuts)

/-- No union of cuts of the inputs has the cell itself as a leaf. -/
theorem not_mem_leaves (hN : N.Acyclic) (hg : N i = some g) {cuts : List Cut}
    (hcuts : InputCuts N k g.links cuts) : i ∉ leaves cuts := by
  intro hi
  obtain ⟨l, hl, hreach⟩ := fanin_of_leaf hcuts hi
  exact SubnetBuilder.not_reaches_of_fanin hN ⟨g, hg, l, hl, rfl⟩ hreach

theorem candidates_eq (hN : N.Acyclic) (hg : N i = some g)
    (h : ValidInputs N k g.links stored) : ∃ others, candidates k i stored =
    Cut.trivial i :: others ∧
      ∀ cut ∈ others, Valid N k i cut ∧ cut.isTrivial = false := by
  by_cases hnil : stored = []
  · exact ⟨[], if_pos hnil, by simp⟩
  · have hne : g.links ≠ [] := by
      rintro heq
      rw [ValidInputs, heq] at h
      cases h
      exact hnil rfl
    have hunion : ∀ cut ∈ (choices stored).filterMap (unite k i),
        Valid N k i cut ∧ i ∉ cut.leafIDs := by
      intro cut hcut
      obtain ⟨cuts, hcuts, hu⟩ := mem_filterMap.mp hcut
      refine ⟨valid_unite hg hne (h.choice hcuts) hu, ?_⟩
      rw [unite] at hu
      split at hu
      · cases hu
        exact not_mem_leaves hN hg (h.choice hcuts)
      · cases hu
    refine ⟨((choices stored).filterMap (unite k i)).filter fun a =>
      (Cut.trivial i :: (choices stored).filterMap (unite k i)).all fun b => !b.dominates a, ?_, ?_⟩
    · rw [candidates, if_neg hnil, undominated, filter_cons, if_pos]
      rw [all_eq_true, forall_mem_cons]
      constructor
      · simp [Cut.dominates]
      · intro cut hcut
        rw [Bool.not_eq_true', ← Bool.not_eq_true, dominates_iff]
        intro hss
        have hempty : cut.leafIDs = ∅ := Finset.ssubset_singleton_iff.mp hss
        exact (hunion cut hcut).1.covered.nonempty.ne_empty hempty
    · intro cut hcut
      obtain ⟨hvalid, hnot⟩ := hunion cut (mem_of_mem_filter hcut)
      refine ⟨hvalid, ?_⟩
      rw [Cut.isTrivial, hvalid.root, decide_eq_false hnot, Bool.and_false]

theorem isTrivial_iff (h : Valid N k i cut) : cut.isTrivial = true ↔ cut = Cut.trivial i := by
  obtain ⟨r, L⟩ := cut
  obtain rfl : r = i := h.root
  rw [Cut.isTrivial, Bool.and_eq_true, beq_iff_eq, decide_eq_true_eq, Finset.card_eq_one]
  constructor
  · rintro ⟨⟨a, rfl⟩, hmem⟩
    obtain rfl : r = a := Finset.mem_singleton.mp hmem
    rfl
  · intro heq
    obtain rfl : L = {r} := congrArg Cut.leafIDs heq
    exact ⟨⟨r, rfl⟩, Finset.mem_singleton_self r⟩

/-! ### Cuts of earlier tries -/

theorem mem_insertGood {size : ℕ} : ∀ {cuts good : List Cut}, (size = 1 → cuts.length ≤ 1) →
    (cut ∈ insertGood size cuts good ↔ cut ∈ good ∨ cut ∈ cuts ∧ cut.isTrivial = false) := by
  intro cuts
  induction cuts with
  | nil => simp [insertGood]
  | cons c cuts ih =>
    intro good hsize
    have htail : size = 1 → cuts.length ≤ 1 := fun h => Nat.le_trans (Nat.le_succ _) (hsize h)
    cases hc : c.isTrivial with
    | true =>
      rw [insertGood, if_pos hc, ih htail]
      refine or_congr_right (and_congr_left fun hcut => ?_)
      rw [mem_cons, or_iff_right]
      rintro rfl
      rw [hc] at hcut
      cases hcut
    | false =>
      rw [insertGood, if_neg (by simp [hc])]
      by_cases hone : size = 1
      · have hnil : cuts = [] :=
          length_eq_zero_iff.mp (Nat.le_zero.mp (Nat.le_of_succ_le_succ (hsize hone)))
        rw [if_pos hone, hnil, mem_insert_iff, mem_singleton, or_comm]
        refine or_congr_right ⟨fun h => ⟨h, h ▸ hc⟩, fun h => h.1⟩
      · rw [if_neg hone, ih htail, mem_insert_iff, mem_cons]
        constructor
        · rintro ((rfl | h) | h)
          · exact .inr ⟨.inl rfl, hc⟩
          · exact .inl h
          · exact .inr ⟨.inr h.1, h.2⟩
        · rintro (h | ⟨rfl | h, ht⟩)
          · exact .inl (.inr h)
          · exact .inl (.inl rfl)
          · exact .inr ⟨h, ht⟩

theorem nodup_insertGood {size : ℕ} : ∀ {cuts good : List Cut}, good.Nodup →
    (insertGood size cuts good).Nodup := by
  intro cuts
  induction cuts with
  | nil => exact fun h => h
  | cons c cuts ih =>
    intro good h
    rw [insertGood]
    split
    · exact ih h
    · split
      · exact h.insert
      · exact ih h.insert

theorem mem_goodCuts {old : List Cut} : cut ∈ goodCuts old ↔ cut ∈ old ∧ cut.isTrivial = false := by
  rw [goodCuts, mem_insertGood (fun h => Nat.le_of_eq h)]
  simp

theorem nodup_goodCuts (old : List Cut) : (goodCuts old).Nodup := nodup_insertGood nodup_nil

/-! ### The cuts that are kept -/

section Sorting

variable [LinearOrder Cost] {sort : List (Entry Cost) → List (Entry Cost)}

/-- What the entries are ordered by: those without a match come last. -/
def entryKey (e : Entry Cost) : Bool ×ₗ Cost := toLex (!e.2.2, e.2.1)

theorem before_eq (a b : Entry Cost) : before a b = decide (entryKey a < entryKey b) := by
  rw [Bool.eq_iff_iff, decide_eq_true_eq, entryKey, entryKey, Prod.Lex.toLex_lt_toLex, before]
  cases a.2.2 <;> cases b.2.2 <;> simp

theorem SortCorrect.sortedPerm (h : SortCorrect sort) (L : List (Entry Cost)) :
    SortedPerm entryKey L (sort L) := by
  refine ⟨h.perm L, (h.sorted L).imp fun hab => ?_⟩
  rw [before_eq, decide_eq_false_iff_not] at hab
  exact not_lt.mp hab

theorem exists_sort {L L' : List (Entry Cost)} (h : SortedPerm entryKey L L') :
    ∃ sort, SortCorrect sort ∧ sort L = L' := by
  classical
  have hex := fun L : List (Entry Cost) => exists_sortedPerm entryKey L
  choose other hother using hex
  let sort := fun M => if M = L then L' else other M
  have hsort : ∀ M, SortedPerm entryKey M (sort M) := by
    intro M
    by_cases hM : M = L
    · simpa [sort, hM] using h
    · simpa [sort, hM] using hother M
  refine ⟨sort, ⟨fun M => (hsort M).perm, fun M => (hsort M).sorted.imp fun hab => ?_⟩, if_pos rfl⟩
  rw [before_eq, decide_eq_false_iff_not]
  exact not_lt.mpr hab

end Sorting

section Entries

variable [Zero Cost] {E : CutRating Cost Match} {cand pool : List Cut} {e : Entry Cost}

/-- The cost of a cut, where `cand` are the cuts found at this try. -/
def costOf (E : CutRating Cost Match) (cand : List Cut) (cut : Cut) : Cost :=
  if cut ∈ cand then E.weigh (if cut.isTrivial then 0 else E.estimateCutCost cut)
    (E.matchFinder cut).length
  else 0

def keyOf (E : CutRating Cost Match) (cand : List Cut) (cut : Cut) : Bool ×ₗ Cost :=
  toLex ((E.matchFinder cut).isEmpty, costOf E cand cut)

def entries (E : CutRating Cost Match) (cand pool : List Cut) : List (Entry Cost) :=
  pool.mapIdx fun j cut => (j, costOf E cand cut, !(E.matchFinder cut).isEmpty)

def cutAt (pool : List Cut) (e : Entry Cost) : Cut := pool.getD e.1 (Cut.trivial 0)

theorem map_fst_entries : (entries E cand pool).map Prod.fst = range pool.length := by
  apply ext_getElem
  · simp [entries]
  · intro j h h'
    simp [entries]

theorem nodup_entries : (entries E cand pool).Nodup := by
  apply List.Nodup.of_map Prod.fst
  rw [map_fst_entries]
  exact nodup_range

theorem map_cutAt : (entries E cand pool).map (cutAt pool) = pool := by
  apply ext_getElem
  · simp [entries]
  · intro j h h'
    simp [entries, cutAt, getElem?_eq_getElem h']

theorem getElem?_of_mem_entries (he : e ∈ entries E cand pool) :
    pool[e.1]? = some (cutAt pool e) := by
  have hlt : e.1 < pool.length := by
    have hmem : e.1 ∈ (entries E cand pool).map Prod.fst := mem_map_of_mem he
    rwa [map_fst_entries, mem_range] at hmem
  rw [cutAt, getD_eq_getElem _ _ hlt, getElem?_eq_getElem hlt]

theorem entryKey_eq (he : e ∈ entries E cand pool) : entryKey e = keyOf E cand (cutAt pool e) := by
  obtain ⟨j, hj, rfl⟩ := mem_iff_getElem.mp he
  have hlt : j < pool.length := by simpa [entries] using hj
  simp [entries, cutAt, getElem?_eq_getElem hlt, entryKey, keyOf]

theorem countP_entries (p : Cut → Bool) {q : Entry Cost → Bool}
    (h : ∀ e ∈ entries E cand pool, q e = p (cutAt pool e)) :
    (entries E cand pool).countP q = pool.countP p := by
  have hmap : (entries E cand pool).map (cutAt pool) = pool := map_cutAt
  have hcount : pool.countP p = ((entries E cand pool).map (cutAt pool)).countP p := by rw [hmap]
  rw [hcount, countP_map]
  exact countP_congr fun e he => by rw [h e he]; rfl

theorem two_le_count_iff (E : CutRating Cost Match) (cand : List Cut) : 2 ≤ pool.count cut ↔
    ∃ e ∈ entries E cand pool, ∃ e' ∈ entries E cand pool, e ≠ e' ∧ cutAt pool e = cut ∧
    cutAt pool e' = cut := by
  let F := (entries E cand pool).filter fun e => cutAt pool e == cut
  have hF : ∀ e, e ∈ F ↔ e ∈ entries E cand pool ∧ cutAt pool e = cut := by
    intro e
    rw [mem_filter, beq_iff_eq]
  have hcount : pool.count cut = F.length := by
    have hentries : (entries E cand pool).countP (fun e => cutAt pool e == cut) = pool.count cut :=
      countP_entries (fun c => c == cut) fun _ _ => rfl
    rw [← hentries, countP_eq_length_filter]
  have hnodup : F.Nodup := nodup_entries.filter _
  rw [hcount]
  constructor
  · intro htwo
    obtain ⟨e, e', rest, heq⟩ : ∃ e e' rest, F = e :: e' :: rest := by
      rcases hc : F with - | ⟨e, - | ⟨e', rest⟩⟩
      · simp [hc] at htwo
      · simp [hc] at htwo
      · exact ⟨e, e', rest, rfl⟩
    have he := (hF e).mp (heq ▸ mem_cons_self)
    have he' := (hF e').mp (heq ▸ mem_cons_of_mem e mem_cons_self)
    refine ⟨e, he.1, e', he'.1, ?_, he.2, he'.2⟩
    rintro rfl
    rw [heq] at hnodup
    exact (nodup_cons.mp hnodup).1 mem_cons_self
  · rintro ⟨e, he, e', he', hne, hcut, hcut'⟩
    have hsub : ∀ a ∈ [e, e'], a ∈ F := by
      intro a ha
      rcases mem_pair.mp ha with rfl | rfl
      · exact (hF a).mpr ⟨he, hcut⟩
      · exact (hF a).mpr ⟨he', hcut'⟩
    exact (subperm_of_subset (by simpa using hne) hsub).length_le

/-- Both parts of the list that is sorted. -/
theorem entries_append {cand old : List Cut} (hold : ∀ cut ∈ old, cut ∉ cand) :
    (cand.mapIdx fun i cut => (i, E.weigh (if cut.isTrivial then 0 else E.estimateCutCost cut)
        (E.matchFinder cut).length, !(E.matchFinder cut).isEmpty)) ++
      (old.mapIdx fun i oldCut => (i + cand.length, 0, !(E.matchFinder oldCut).isEmpty)) =
    entries E cand (cand ++ old) := by
  rw [entries, mapIdx_append]
  congr 1
  · refine mapIdx_eq_mapIdx_iff.mpr fun i hi => ?_
    simp [costOf]
  · refine mapIdx_eq_mapIdx_iff.mpr fun i hi => ?_
    simp [costOf, hold _ (getElem_mem hi)]

end Entries

section Kept

variable [LinearOrder Cost] [Zero Cost] {E : CutRating Cost Match} {cand pool : List Cut}
  {sort : List (Entry Cost) → List (Entry Cost)} {e : Entry Cost} {n : ℕ}

theorem betters_entries (he : e ∈ entries E cand pool) :
    betters entryKey (entries E cand pool) e = betters (keyOf E cand) pool (cutAt pool e) := by
  refine countP_entries _ fun e' he' => ?_
  rw [entryKey_eq he, entryKey_eq he']

theorem rivals_entries (he : e ∈ entries E cand pool)
    (honce : ∀ e' ∈ entries E cand pool, cutAt pool e' = cutAt pool e → e' = e) :
    rivals entryKey (entries E cand pool) e = rivals (keyOf E cand) pool (cutAt pool e) := by
  refine countP_entries _ fun e' he' => ?_
  rw [entryKey_eq he, entryKey_eq he', decide_eq_decide]
  exact and_congr_left fun _ => not_congr ⟨fun h => h ▸ rfl, honce e' he'⟩

def keptCuts (E : CutRating Cost Match) (sort : List (Entry Cost) → List (Entry Cost)) (n : ℕ)
    (cand pool : List Cut) : List Cut :=
  ((sort (entries E cand pool)).take n).map (cutAt pool)

theorem mem_of_keptCuts (h : SortCorrect sort) (hcut : cut ∈ keptCuts E sort n cand pool) :
    cut ∈ pool := by
  obtain ⟨e, he, rfl⟩ := mem_map.mp hcut
  have hmem := (h.perm _).mem_iff.mp (mem_of_mem_take he)
  exact mem_of_getElem? (getElem?_of_mem_entries hmem)

theorem mem_keptCuts_iff (E : CutRating Cost Match) (n : ℕ) (cand : List Cut) (hcut : cut ∈ pool)
    (honce : pool.count cut < 2) : (∀ sort, SortCorrect sort → cut ∈ keptCuts E sort n cand pool) ↔
      rivals (keyOf E cand) pool cut < n := by
  have hmem : cut ∈ (entries E cand pool).map (cutAt pool) := by rwa [map_cutAt]
  obtain ⟨e, he, rfl⟩ := mem_map.mp hmem
  have hone : ∀ e' ∈ entries E cand pool, cutAt pool e' = cutAt pool e → e' = e := by
    intro e' he' heq
    by_contra hne
    exact Nat.not_le.mpr honce ((two_le_count_iff E cand).mpr ⟨e', he', e, he, hne, heq, rfl⟩)
  rw [← rivals_entries he hone]
  constructor
  · intro hall
    by_contra hmany
    obtain ⟨L', hL', hnot⟩ := exists_not_mem_take (Nat.not_lt.mp hmany)
    obtain ⟨sort, hsort, hrun⟩ := exists_sort hL'
    obtain ⟨e', he', heq⟩ := mem_map.mp (hall sort hsort)
    rw [hrun] at he'
    exact hnot (hone e' (hL'.perm.mem_iff.mp (mem_of_mem_take he')) heq ▸ he')
  · intro hfew sort hsort
    exact mem_map_of_mem ((hsort.sortedPerm _).mem_take nodup_entries he hfew)

/-- Every sort keeps different cuts if and only if those that occur twice come too late. -/
theorem nodup_keptCuts_iff (E : CutRating Cost Match) (n : ℕ) (cand pool : List Cut) :
    (∀ sort, SortCorrect sort → (keptCuts E sort n cand pool).Nodup) ↔
    ∀ cut, 2 ≤ pool.count cut → n ≤ betters (keyOf E cand) pool cut + 1 := by
  constructor
  · intro hall cut htwo
    obtain ⟨e, he, e', he', hne, rfl, hcut⟩ := (two_le_count_iff E cand).mp htwo
    by_contra hlate
    have hkey : entryKey e = entryKey e' := by rw [entryKey_eq he, entryKey_eq he', hcut]
    rw [← betters_entries he] at hlate
    obtain ⟨L', hL', hmem, hmem'⟩ := exists_both (n := n) he he' hne hkey (by omega)
    obtain ⟨sort, hsort, hrun⟩ := exists_sort hL'
    have hnodup := hall sort hsort
    rw [keptCuts, hrun] at hnodup
    exact hne (inj_on_of_nodup_map hnodup hmem hmem' hcut.symm)
  · intro hlate sort hsort
    have hsorted := hsort.sortedPerm (entries E cand pool)
    have hnodup : ((sort (entries E cand pool)).take n).Nodup :=
      (hsorted.perm.nodup_iff.mpr nodup_entries).sublist (take_sublist n _)
    refine (nodup_map_iff_inj_on hnodup).mpr fun e he e' he' heq => ?_
    by_contra hne
    have hin := hsorted.perm.mem_iff.mp (mem_of_mem_take he)
    have hin' := hsorted.perm.mem_iff.mp (mem_of_mem_take he')
    have htwo := (two_le_count_iff E cand).mpr ⟨e, hin, e', hin', hne, rfl, heq.symm⟩
    have hkey : entryKey e = entryKey e' := by rw [entryKey_eq hin, entryKey_eq hin', heq]
    refine hsorted.not_both hne hkey ?_ ⟨he, he'⟩
    rw [betters_entries hin]
    exact hlate _ htwo

theorem length_keptCuts (h : SortCorrect sort) (hn : n ≤ pool.length) :
    (keptCuts E sort n cand pool).length = n := by
  rw [keptCuts, length_map, length_take, (h.perm _).length_eq, entries, length_mapIdx,
    Nat.min_eq_left hn]

end Kept

/-! ### The state after a call -/

/-- The cuts of the inputs were valid when they were stored. -/
def Sound (N : Netlist) (k : ℕ) (x : CutExtractor) : Prop :=
  x.k = k ∧ ∀ i, ∀ cut ∈ x.getCuts i, Valid N k i cut

section Calls

variable [LinearOrder Cost] [Zero Cost] {E : CutRating Cost Match}
  {sort : List (Entry Cost) → List (Entry Cost)} {n : ℕ}

def found (m : SubnetTechMapperPCut Match) (i : EntryID) (g : Gate) : List Cut :=
  candidates m.cutExtractor.k i (m.cutExtractor.inputCuts g.links)

def remembered (m : SubnetTechMapperPCut Match) (i : EntryID) (g : Gate) : List Cut :=
  (if m.tryCount ≠ 0 then goodCuts (m.cutExtractor.getCuts i) else []).filter
    fun cut => decide (cut ∉ found m i g)

theorem Sound.validInputs (h : Sound s.netlist k m.cutExtractor) (links : List Link) :
    ValidInputs s.netlist k links (m.cutExtractor.inputCuts links) := by
  rw [ValidInputs, inputCuts, forall₂_map_right_iff, forall₂_same]
  exact fun l _ => h.2 l.idx

theorem getLinks_of_call (h : s.netlist i = some g) (hlen : g.links.length ≤ InPlaceLinks) :
    CutExtractor.getLinks s i = some g.links := by
  obtain ⟨c, hc, -, hlinks⟩ := SubnetBuilder.liveCell_of_netlist h
  have hcell := SubnetBuilder.getCell_of_live hc
  have harity : c.arity ≤ InPlaceLinks := by rwa [SubnetCell.arity, hlinks]
  simp only [CutExtractor.getLinks, hcell, Option.bind_eq_bind, Option.bind_some]
  rw [if_pos harity, hlinks]

theorem computePCuts_eq (Cost : Type) [LinearOrder Cost] [Zero Cost] (hs : s.NetOk)
    (hcall : Callable s m i g) (hlen : g.links.length ≤ InPlaceLinks) : ∃ x' : CutExtractor, x'.k =
    m.cutExtractor.k ∧
      i < x'.entriesCuts.length ∧ x'.getCuts i = found m i g ∧
      (∀ j ≠ i, x'.getCuts j = m.cutExtractor.getCuts j) ∧
      ∀ (E : CutRating Cost Match) (sort : List (Entry Cost) → List (Entry Cost)),
      SortCorrect sort →
        computePCuts E sort s m i =
          if (found m i g).length ≤ m.cutsPerCell + 1 then some { m with cutExtractor := x' }
          else
            let pcuts := keptCuts E sort (m.cutsPerCell + 1) (found m i g)
              (found m i g ++ remembered m i g)
            some { m with cutExtractor := x'.setCuts i pcuts
                          cutMatches := pcuts.foldl (cache E) m.cutMatches } := by
  have hin : ∀ l ∈ g.links, m.cutExtractor.getCuts l.idx ≠ [] ∧ l.idx ≠ i := by
    intro l hl
    refine ⟨hcall.inputs l hl, fun heq => ?_⟩
    exact SubnetBuilder.not_reaches_of_fanin hs.acyclic ⟨g, hcall.gate, l, hl, heq⟩ .refl
  obtain ⟨x', hrun, hk, hlt, hget, hother⟩ :=
    recomputeCuts_eq (getLinks_of_call hcall.gate hlen) hin
  refine ⟨x', hk, hlt, hget, hother, fun E sort hsort => ?_⟩
  have hgood : (if m.tryCount ≠ 0 then m.cutExtractor.entriesCuts[i]?.map goodCuts
      else some [] : Option (List Cut)) =
      some (if m.tryCount ≠ 0 then goodCuts (m.cutExtractor.getCuts i) else []) := by
    split
    · rename_i htry
      rw [getElem?_of_getCuts_ne_nil (hcall.earlier htry), Option.map_some]
    · rfl
  have hold : ∀ cut ∈ remembered m i g, cut ∉ found m i g := fun cut hcut =>
    of_decide_eq_true (mem_filter.mp hcut).2
  have hget' : x'.getCuts i = found m i g := hget
  have hremembered : (if m.tryCount ≠ 0 then goodCuts (m.cutExtractor.getCuts i) else []).filter
      (fun cut => decide (cut ∉ found m i g)) = remembered m i g := rfl
  simp only [computePCuts, hgood, hrun, Option.bind_eq_bind, Option.bind_some]
  rw [hget', hremembered]
  split
  · rfl
  · rw [entries_append hold]
    have hmap : ((sort (entries E (found m i g) (found m i g ++ remembered m i g))).take
        (m.cutsPerCell + 1)).mapM (fun e => (found m i g ++ remembered m i g)[e.1]?) =
          some (keptCuts E sort (m.cutsPerCell + 1) (found m i g)
          (found m i g ++ remembered m i g)) := by
      refine Netlist.mapM_eq_some fun e he => ?_
      exact getElem?_of_mem_entries ((hsort.perm _).mem_iff.mp (mem_of_mem_take he))
    exact congrArg (Option.bind · _) hmap

theorem getCuts_setCuts {x : CutExtractor} (hi : i < x.entriesCuts.length) (cuts : List Cut)
    (j : EntryID) : (x.setCuts i cuts).getCuts j = if j = i then cuts else x.getCuts j := by
  rw [getCuts, setCuts, getD_eq_getElem?_getD]
  by_cases hij : j = i
  · subst hij
    rw [getElem?_set_self hi, if_pos rfl, Option.getD_some]
  · rw [getElem?_set_ne (Ne.symm hij), if_neg hij, getCuts, getD_eq_getElem?_getD]

omit [LinearOrder Cost] in
/-- A cell whose links do not fit into its entry is not computed. -/
theorem length_links_of_run (hg : s.netlist i = some g)
    (hrun : computePCuts E sort s m i = some m') : g.links.length ≤ InPlaceLinks := by
  by_contra hlarge
  obtain ⟨c, hc, -, hlinks⟩ := SubnetBuilder.liveCell_of_netlist hg
  have hnone : ∀ x : CutExtractor, recomputeCuts s x i = none := by
    intro x
    have harity : ¬ c.arity ≤ InPlaceLinks := by rwa [SubnetCell.arity, hlinks]
    simp [recomputeCuts, findCuts, CutExtractor.getLinks, SubnetBuilder.getCell_of_live hc, harity]
  simp only [computePCuts, hnone, Option.bind_eq_bind, Option.bind_none,
    Option.bind_fun_none] at hrun
  cases hrun

theorem found_valid (hs : s.NetOk) (hk : 0 < k) (h : Sound s.netlist k m.cutExtractor)
    (hg : s.netlist i = some g) : ∃ others, found m i g = Cut.trivial i :: others ∧
      (∀ cut ∈ others, cut.isTrivial = false) ∧ ∀ cut ∈ found m i g, Valid s.netlist k i cut := by
  obtain ⟨others, heq, hothers⟩ := candidates_eq hs.acyclic hg (h.validInputs g.links)
  have hfound : found m i g = Cut.trivial i :: others := by rw [found, h.1, heq]
  refine ⟨others, hfound, fun cut hcut => (hothers cut hcut).2, ?_⟩
  rw [hfound, forall_mem_cons]
  exact ⟨valid_trivial hk i, fun cut hcut => (hothers cut hcut).1⟩

theorem mem_remembered (hcut : cut ∈ remembered m i g) :
    cut ∈ m.cutExtractor.getCuts i ∧ cut.isTrivial = false ∧ cut ∉ found m i g := by
  obtain ⟨hgood, hnot⟩ := mem_filter.mp hcut
  split at hgood
  · obtain ⟨hold, htrivial⟩ := mem_goodCuts.mp hgood
    exact ⟨hold, htrivial, of_decide_eq_true hnot⟩
  · cases hgood

theorem nodup_remembered : (remembered m i g).Nodup := by
  apply List.Nodup.filter
  split
  · exact nodup_goodCuts _
  · exact nodup_nil

theorem pool_valid (hs : s.NetOk) (hk : 0 < k) (h : Sound s.netlist k m.cutExtractor)
    (hg : s.netlist i = some g) : ∀ cut ∈ found m i g ++ remembered m i g,
    Valid s.netlist k i cut := by
  obtain ⟨-, -, -, hvalid⟩ := found_valid hs hk h hg
  intro cut hcut
  rcases mem_append.mp hcut with hcut | hcut
  · exact hvalid cut hcut
  · exact h.2 i cut (mem_remembered hcut).1

theorem Reachable.sound (hs : s.NetOk) (hk : 0 < k) (h : Reachable Cost s k m) :
    Sound s.netlist k m.cutExtractor := by
  induction h with
  | begin cutsPerCell => exact ⟨rfl, fun i cut hcut => by simp [getCuts] at hcut⟩
  | recovery cutsPerCell _ ih => exact ih
  | @compute m m' E sort i g _ call correct run ih =>
    have hlen := length_links_of_run call.gate run
    obtain ⟨x', hxk, hlt, hget, hother, heq⟩ := computePCuts_eq Cost hs call hlen
    have hpool := pool_valid hs hk ih call.gate
    rw [heq E sort correct] at run
    split at run
    · cases run
      refine ⟨hxk.trans ih.1, fun j cut hcut => ?_⟩
      by_cases hj : j = i
      · rw [hj] at hcut ⊢
        rw [hget] at hcut
        exact hpool cut (mem_append_left _ hcut)
      · exact ih.2 j cut (hother j hj ▸ hcut)
    · cases run
      refine ⟨hxk.trans ih.1, fun j cut hcut => ?_⟩
      rw [getCuts_setCuts hlt] at hcut
      split at hcut
      · rename_i hj
        exact hj ▸ hpool cut (mem_of_keptCuts correct hcut)
      · rename_i hj
        exact ih.2 j cut (hother j hj ▸ hcut)

structure Keeps (N : Netlist) (k n : ℕ) (i : EntryID) (cuts : List Cut) : Prop where
  length : cuts.length ≤ n
  valid : ∀ cut ∈ cuts, Valid N k i cut
  nodup : cuts.Nodup
  trivial : Cut.trivial i ∈ cuts

structure Roomy (E : CutRating Cost Match) (m : SubnetTechMapperPCut Match) (i : EntryID)
    (g : Gate) :
    Prop where
  links : g.links.length ≤ InPlaceLinks
  all : (found m i g).length ≤ m.cutsPerCell + 1 → (found m i g).Nodup
  trivial : m.cutsPerCell + 1 < (found m i g).length →
    rivals (keyOf E (found m i g)) (found m i g ++ remembered m i g) (Cut.trivial i) <
    m.cutsPerCell + 1
  twice : m.cutsPerCell + 1 < (found m i g).length → ∀ cut, 2 ≤ (found m i g).count cut →
    m.cutsPerCell ≤ betters (keyOf E (found m i g)) (found m i g ++ remembered m i g) cut

theorem count_pool : 2 ≤ (found m i g ++ remembered m i g).count cut ↔
    2 ≤ (found m i g).count cut := by
  rw [count_append]
  by_cases hcut : cut ∈ remembered m i g
  · have hzero : (found m i g).count cut = 0 := count_eq_zero.mpr (mem_remembered hcut).2.2
    have hone := nodup_iff_count_le_one.mp (nodup_remembered : (remembered m i g).Nodup) cut
    omega
  · rw [count_eq_zero.mpr hcut, Nat.add_zero]

/-- For every sort, few enough different valid cuts are stored with the trivial one among them, if
and only if there is room for it. -/
theorem computePCuts_keeps_iff (hs : s.NetOk) (hk : 0 < k) (hm : Reachable Cost s k m)
    (hcall : Callable s m i g) (E : CutRating Cost Match) :
    (∀ sort : List (Entry Cost) → List (Entry Cost), SortCorrect sort → ∃ m',
      computePCuts E sort s m i = some m' ∧
        Keeps s.netlist k (m.cutsPerCell + 1) i (m'.cutExtractor.getCuts i)) ↔ Roomy E m i g := by
  have hsound := hm.sound hs hk
  obtain ⟨others, hfound, hothers, hvalid⟩ := found_valid hs hk hsound hcall.gate
  have hpool := pool_valid hs hk hsound hcall.gate
  have hin : Cut.trivial i ∈ found m i g := hfound ▸ mem_cons_self
  have honce : (found m i g ++ remembered m i g).count (Cut.trivial i) < 2 := by
    rw [← Nat.not_le, count_pool, hfound, count_cons_self, count_eq_zero.mpr]
    · omega
    · intro hmem
      have := hothers _ hmem
      rw [(isTrivial_iff (valid_trivial (N := s.netlist) hk i)).mpr rfl] at this
      cases this
  obtain ⟨sort₀, hsort₀, -⟩ := exists_sort (⟨List.Perm.refl _, List.Pairwise.nil⟩ :
    SortedPerm entryKey ([] : List (Entry Cost)) [])
  by_cases hlen : g.links.length ≤ InPlaceLinks
  · obtain ⟨x', -, hlt, hget, -, hrun⟩ := computePCuts_eq Cost hs hcall hlen
    by_cases hfew : (found m i g).length ≤ m.cutsPerCell + 1
    · constructor
      · intro hall
        obtain ⟨m', hm', hkeeps⟩ := hall sort₀ hsort₀
        rw [hrun E sort₀ hsort₀, if_pos hfew, Option.some.injEq] at hm'
        rw [← hm', hget] at hkeeps
        exact ⟨hlen, fun _ => hkeeps.nodup, fun h => absurd hfew (Nat.not_le.mpr h),
          fun h => absurd hfew (Nat.not_le.mpr h)⟩
      · intro hroomy sort hsort
        refine ⟨_, by rw [hrun E sort hsort, if_pos hfew], ?_⟩
        rw [hget]
        exact ⟨hfew, hvalid, hroomy.all hfew, hin⟩
    · have hkept : ∀ sort : List (Entry Cost) → List (Entry Cost), SortCorrect sort → ∃ m',
          computePCuts E sort s m i = some m' ∧ m'.cutExtractor.getCuts i =
            keptCuts E sort (m.cutsPerCell + 1) (found m i g)
            (found m i g ++ remembered m i g) := by
        intro sort hsort
        refine ⟨_, by rw [hrun E sort hsort, if_neg hfew], ?_⟩
        rw [getCuts_setCuts hlt, if_pos rfl]
      have hmem := mem_keptCuts_iff E (m.cutsPerCell + 1) (found m i g)
        (mem_append_left (remembered m i g) hin) honce
      have hnodup := nodup_keptCuts_iff E (m.cutsPerCell + 1) (found m i g)
        (found m i g ++ remembered m i g)
      simp only [count_pool, Nat.add_le_add_iff_right] at hnodup
      constructor
      · intro hall
        have hkeeps : ∀ sort : List (Entry Cost) → List (Entry Cost), SortCorrect sort →
            Keeps s.netlist k (m.cutsPerCell + 1) i (keptCuts E sort (m.cutsPerCell + 1)
            (found m i g)
              (found m i g ++ remembered m i g)) := by
          intro sort hsort
          obtain ⟨m', hm', hkeeps⟩ := hall sort hsort
          obtain ⟨m'', hm'', hcuts⟩ := hkept sort hsort
          rw [hm', Option.some.injEq] at hm''
          rwa [hm'', hcuts] at hkeeps
        exact ⟨hlen, fun h => absurd h hfew,
          fun _ => hmem.mp fun sort hsort => (hkeeps sort hsort).trivial,
          fun _ => hnodup.mp fun sort hsort => (hkeeps sort hsort).nodup⟩
      · intro hroomy sort hsort
        obtain ⟨m', hm', hcuts⟩ := hkept sort hsort
        have hlarge := Nat.not_le.mp hfew
        refine ⟨m', hm', ?_⟩
        rw [hcuts]
        refine ⟨?_, fun cut hcut => hpool cut (mem_of_keptCuts hsort hcut), ?_, ?_⟩
        · refine Nat.le_of_eq (length_keptCuts hsort ?_)
          rw [length_append]
          omega
        · exact hnodup.mpr (hroomy.twice hlarge) sort hsort
        · exact hmem.mpr (hroomy.trivial hlarge) sort hsort
  · constructor
    · intro hall
      obtain ⟨m', hm', -⟩ := hall sort₀ hsort₀
      exact absurd (length_links_of_run hcall.gate hm') hlen
    · exact fun hroomy => absurd hroomy.links hlen

/-- A call that finds few cuts stores them all. -/
theorem Reachable.keepAll (hs : s.NetOk) (hm : Reachable Cost s k m) (hcall : Callable s m i g)
    (hlen : g.links.length ≤ InPlaceLinks) (hfew : (found m i g).length ≤ m.cutsPerCell + 1)
    (E : CutRating Cost Match) : ∃ m' : SubnetTechMapperPCut Match, Reachable Cost s k m' ∧
      m'.cutsPerCell = m.cutsPerCell ∧
      m'.tryCount = m.tryCount ∧ m'.cutExtractor.k = m.cutExtractor.k ∧
      m'.cutExtractor.getCuts i = found m i g ∧
      ∀ j ≠ i, m'.cutExtractor.getCuts j = m.cutExtractor.getCuts j := by
  obtain ⟨x', hk, -, hget, hother, hrun⟩ := computePCuts_eq Cost hs hcall hlen
  obtain ⟨sort, hsort, -⟩ := exists_sort (⟨List.Perm.refl _, List.Pairwise.nil⟩ :
    SortedPerm entryKey ([] : List (Entry Cost)) [])
  have hstep := hrun E sort hsort
  rw [if_pos hfew] at hstep
  exact ⟨_, .compute hm hcall hsort hstep, rfl, rfl, hk, hget, hother⟩

end Calls

/-! ### Two buffers -/

private def buffers : List (CellTypeID × List Link) :=
  [(.IN, []), (.BUF, [⟨0, 0, false⟩]), (.BUF, [⟨1, 0, false⟩])]

private theorem reached (E : CutRating ℕ Unit) :
    ∃ s, SubnetBuilder.build buffers {} = some s ∧ s.NetOk ∧ ∃ m : SubnetTechMapperPCut Unit,
    Reachable ℕ s 1 m ∧ Callable s m 2 ⟨.BUF, [⟨1, 0, false⟩]⟩ ∧
      m.cutsPerCell = 1 ∧ found m 2 ⟨.BUF, [⟨1, 0, false⟩]⟩ = [⟨2, {2}⟩, ⟨2, {1}⟩, ⟨2, {0}⟩] ∧
      remembered m 2 ⟨.BUF, [⟨1, 0, false⟩]⟩ = [] := by
  obtain ⟨s, hs⟩ : ∃ s, SubnetBuilder.build buffers {} = some s := ⟨_, rfl⟩
  have hnet : (SubnetBuilder.build buffers {}).map (fun s => [s.netlist 0, s.netlist 1,
      s.netlist 2]) = some [some ⟨.IN, []⟩, some ⟨.BUF, [⟨0, 0, false⟩]⟩,
      some ⟨.BUF, [⟨1, 0, false⟩]⟩] := by decide
  rw [hs, Option.map_some, Option.some.injEq] at hnet
  simp only [cons.injEq, and_true] at hnet
  obtain ⟨h0, h1, h2⟩ := hnet
  have hok := SubnetBuilder.netOk_of_build .init hs
  have hstart : Reachable ℕ s 1 (⟨1, 0, ⟨1, []⟩, fun _ => none⟩ : SubnetTechMapperPCut Unit) :=
    .begin 1
  obtain ⟨m₁, hm₁, hn₁, ht₁, hk₁, hget₁, -⟩ := hstart.keepAll (i := 0) hok
    ⟨h0, by simp, fun h => absurd rfl h⟩ (by decide) (by decide) E
  have hfound₁ : m₁.cutExtractor.getCuts 0 = [⟨0, {0}⟩] := hget₁.trans (by decide)
  have hin : found m₁ 1 ⟨.BUF, [⟨0, 0, false⟩]⟩ = [⟨1, {1}⟩, ⟨1, {0}⟩] := by
    simp only [found, inputCuts, map_cons, map_nil, hfound₁, hk₁]
    decide
  obtain ⟨m₂, hm₂, hn₂, ht₂, hk₂, hget₂, -⟩ := hm₁.keepAll (i := 1) hok
    ⟨h1, by simp [hfound₁], fun h => absurd ht₁ h⟩ (by decide) (by rw [hin, hn₁]; decide) E
  rw [hin] at hget₂
  refine ⟨s, hs, hok, m₂, hm₂, ⟨h2, by simp [hget₂], fun h => absurd (ht₂.trans ht₁) h⟩,
    hn₂.trans hn₁, ?_, ?_⟩
  · simp only [found, inputCuts, map_cons, map_nil, hget₂, hk₂, hk₁]
    decide
  · rw [remembered, if_neg (not_not.mpr (ht₂.trans ht₁))]
    rfl

private def matched : CutRating ℕ Unit := ⟨fun _ => 1, fun cost _ => cost, fun _ => [()]⟩

theorem computePCuts_keeps_buffer : ∃ s, SubnetBuilder.build buffers {} = some s ∧
    ∃ m : SubnetTechMapperPCut Unit, Reachable ℕ s 1 m ∧
      ∀ sort : List (Entry ℕ) → List (Entry ℕ), SortCorrect sort → ∃ m',
        computePCuts matched sort s m 2 = some m' ∧
          Keeps s.netlist 1 (m.cutsPerCell + 1) 2 (m'.cutExtractor.getCuts 2) := by
  obtain ⟨s, hs, hok, m, hm, hcall, hn, hfound, hremembered⟩ := reached matched
  refine ⟨s, hs, m, hm, (computePCuts_keeps_iff hok Nat.zero_lt_one hm hcall matched).mpr ?_⟩
  have honce : ([⟨2, {2}⟩, ⟨2, {1}⟩, ⟨2, {0}⟩] : List Cut).Nodup := by decide
  refine ⟨by decide, fun _ => hfound ▸ honce, fun _ => ?_, fun _ cut htwo => ?_⟩
  · rw [hfound, hremembered, hn]
    decide
  · rw [hfound] at htwo
    have := nodup_iff_count_le_one.mp honce cut
    omega

/-- The trivial cut is the only one without a match, and it is dropped. -/
theorem not_computePCuts_keeps : ¬ ∀ (s : SubnetBuilder) (k : ℕ) (m : SubnetTechMapperPCut Unit)
    (i : EntryID) (g : Gate) (E : CutRating ℕ Unit) (sort : List (Entry ℕ) → List (Entry ℕ)),
    s.NetOk → 0 < k → Reachable ℕ s k m → Callable s m i g → SortCorrect sort →
      ∃ m', computePCuts E sort s m i = some m' ∧
        Keeps s.netlist k (m.cutsPerCell + 1) i (m'.cutExtractor.getCuts i) := by
  intro h
  let E : CutRating ℕ Unit := ⟨fun _ => 1, fun cost _ => cost, fun cut => if cut.isTrivial then
    [] else [()]⟩
  obtain ⟨s, -, hok, m, hm, hcall, hn, hfound, hremembered⟩ := reached E
  obtain ⟨x', -, hlt, -, -, hrun⟩ := computePCuts_eq ℕ hok hcall (by decide)
  have hlarge : ¬ (found m 2 ⟨.BUF, [⟨1, 0, false⟩]⟩).length ≤ m.cutsPerCell + 1 := by
    rw [hfound, hn]
    decide
  have hcount : (found m 2 ⟨.BUF, [⟨1, 0, false⟩]⟩ ++ remembered m 2 ⟨.BUF, [⟨1, 0, false⟩]⟩).count
      (Cut.trivial 2) < 2 := by
    rw [hfound, hremembered]
    decide
  have hkept := (mem_keptCuts_iff E (m.cutsPerCell + 1) (found m 2 ⟨.BUF, [⟨1, 0, false⟩]⟩)
    (by rw [hfound]; exact mem_cons_self) hcount).mp fun sort hsort => by
      obtain ⟨m', hm', hkeeps⟩ := h s 1 m 2 _ E sort hok Nat.zero_lt_one hm hcall hsort
      rw [hrun E sort hsort, if_neg hlarge, Option.some.injEq] at hm'
      have := hkeeps.trivial
      rwa [← hm', getCuts_setCuts hlt, if_pos rfl] at this
  rw [hfound, hremembered, hn] at hkept
  exact absurd hkept (by decide)

end SubnetTechMapperPCut

end UtopiaEda
