import UtopiaEda.CutExtractor
import UtopiaEda.MadeSubnets

/-!
# The cuts of a subnet

An extractor for a subnet finds the cuts of all its cells at once, in the order of the entries.
-/
namespace UtopiaEda.CutExtractor
open Choices Selections List
open Option (bind_eq_bind bind_some)

/-- `getLinks` of a subnet is the pointer to the links in the cell: those of a larger cell lie
behind the end of the array. -/
def getSubnetLinks (S : Subnet) (entryID : EntryID) : Option (List Link) := do
  let cell ← S.getCell entryID
  if cell.arity ≤ InPlaceLinks then some cell.links else none

/-- `findCuts` for a subnet. The sets of leaves need a positive capacity. -/
def findSubnetCuts (S : Subnet) (x : CutExtractor) (entryID : EntryID) : Option CutExtractor := do
  let links ← getSubnetLinks S entryID
  if x.k = 0 then none
  else if links = [] then some (x.addViableCuts [(Cut.trivial entryID, true)] entryID)
  else
    let stored ← links.mapM fun l => x.entriesCuts[l.idx]?
    let cuts := (range (number stored)).foldl (addCut x.k entryID stored)
      [(Cut.trivial entryID, true)]
    some (x.addViableCuts cuts entryID)

/-- The loop over the cells from the entry `i` on. -/
def extract (S : Subnet) : ℕ → EntryID → CutExtractor → Option CutExtractor
  | 0, i, x => if i < S.size then none else some x
  | n + 1, i, x =>
    if i < S.size then do
      let x ← findSubnetCuts S x i
      extract S n (i + (← S.getCell i).more + 1) x
    else some x

def ofSubnet (S : Subnet) (k : ℕ) : Option CutExtractor :=
  extract S S.size 0 ⟨k, .replicate S.size []⟩

/-! ### Leaves -/

structure Extracts (S : Subnet) (x : CutExtractor) : Prop where
  positive : x.k ≠ 0
  length : x.entriesCuts.length = S.size
  leaves : ∀ i, ∀ cut ∈ x.getCuts i, ∀ j ∈ cut.leafIDs, j < S.size

variable {S : Subnet} {x : CutExtractor} {i : EntryID} {k : ℕ}

/-- Where the leaves of the stored cuts are entries, so are those of their unions. -/
theorem lt_of_mem_undominated {stored : List (List Cut)} (hi : i < S.size)
    (h : ∀ cuts ∈ stored, ∀ cut ∈ cuts, ∀ j ∈ cut.leafIDs, j < S.size) {cut : Cut}
    (hcut : cut ∈ undominated Cut.dominates (Cut.trivial i ::
      (choices stored).filterMap (unite k i))) :
    ∀ j ∈ cut.leafIDs, j < S.size := by
  intro j hj
  rcases mem_cons.mp (mem_undominated.mp hcut).1 with rfl | hmem
  · rw [Finset.mem_singleton.mp hj]
    exact hi
  · obtain ⟨cuts, hcuts, hu⟩ := mem_filterMap.mp hmem
    rw [unite] at hu
    split at hu
    · cases hu
      obtain ⟨c, hc, hjc⟩ := mem_leaves.mp hj
      obtain ⟨l, hl, hcl⟩ := exists_of_forall₂ (mem_choices.mp hcuts) c hc
      exact h l hl c hcl j hjc
    · cases hu

theorem Extracts.setCuts (h : Extracts S x) {cuts : List Cut}
    (hcuts : ∀ cut ∈ cuts, ∀ j ∈ cut.leafIDs, j < S.size) : Extracts S (x.setCuts i cuts) := by
  refine ⟨h.positive, ?_, fun j cut hcut => ?_⟩
  · rw [CutExtractor.setCuts, length_set]
    exact h.length
  · rw [getCuts, CutExtractor.setCuts, getD_eq_getElem?_getD, getElem?_set] at hcut
    split at hcut
    · split at hcut
      · exact hcuts cut hcut
      · cases hcut
    · exact h.leaves j cut (by rwa [getCuts, getD_eq_getElem?_getD])

theorem Extracts.step (h : Extracts S x) (hS : S.WellFormed) {c : SubnetCell}
    (hc : S.getCell i = some c) (harity : c.arity ≤ InPlaceLinks) : ∃ x', findSubnetCuts S x i =
    some x' ∧ Extracts S x' := by
  have hi := Subnet.lt_of_getCell hc
  have hlinks : getSubnetLinks S i = some c.links := by
    simp only [getSubnetLinks, hc, bind_eq_bind, bind_some, if_pos harity]
  have hstored : (c.links.mapM fun l => x.entriesCuts[l.idx]?) = some (x.inputCuts c.links) := by
    refine Netlist.mapM_eq_some (fun l hl => ?_)
    have hlt : l.idx < x.entriesCuts.length := by
      rw [h.length]
      exact Nat.lt_trans (hS.links i c hc l hl).1 hi
    rw [getCuts, getD_eq_getElem _ _ hlt, getElem?_eq_getElem hlt]
  simp only [findSubnetCuts, hlinks, bind_eq_bind, bind_some, if_neg h.positive]
  by_cases hnil : c.links = []
  · rw [if_pos hnil]
    refine ⟨_, rfl, h.setCuts fun cut hcut j hj => ?_⟩
    obtain rfl := mem_singleton.mp hcut
    rw [Finset.mem_singleton.mp hj]
    exact hi
  · rw [if_neg hnil, hstored, bind_some, addViableCuts, kept_addCuts]
    refine ⟨_, rfl, h.setCuts fun cut hcut => lt_of_mem_undominated hi (fun cuts hcuts c' hc' => ?_)
      hcut⟩
    obtain ⟨l, -, rfl⟩ := mem_map.mp hcuts
    exact h.leaves l.idx c' hc'

theorem Extracts.extract (hS : S.WellFormed) (hnarrow : S.Narrow) :
    ∀ {n i : ℕ} {x : CutExtractor}, Extracts S x → S.size ≤ n + i →
    ∃ x', extract S n i x = some x' ∧ Extracts S x' := by
  intro n
  induction n with
  | zero =>
    intro i x h hn
    rw [Nat.zero_add] at hn
    rw [CutExtractor.extract, if_neg (Nat.not_lt.mpr hn)]
    exact ⟨x, rfl, h⟩
  | succ n ih =>
    intro i x h hn
    rw [CutExtractor.extract]
    by_cases hi : i < S.size
    · obtain ⟨c, hc, harity⟩ := hnarrow i hi
      obtain ⟨x', hx', h'⟩ := h.step hS hc harity
      rw [if_pos hi]
      simp only [hx', hc, bind_eq_bind, bind_some]
      exact ih h' (by omega)
    · rw [if_neg hi]
      exact ⟨x, rfl, h⟩

/-- The cuts of the cells of a subnet are found if there is room for a leaf and in the cells for the
links. -/
theorem exists_ofSubnet (hS : S.WellFormed) (hnarrow : S.Narrow) (hk : k ≠ 0) :
    ∃ x, ofSubnet S k = some x ∧ Extracts S x := by
  refine Extracts.extract hS hnarrow ⟨hk, length_replicate, fun i cut hcut => ?_⟩ (Nat.le_refl _)
  rw [getCuts, getD_eq_getElem?_getD, getElem?_replicate] at hcut
  split at hcut <;> cases hcut

/-- An extractor with room for no leaf fails at the first cell. -/
theorem ofSubnet_zero (hpos : 0 < S.size) : ofSubnet S 0 = none := by
  obtain ⟨n, hn⟩ := Nat.exists_eq_succ_of_ne_zero (Nat.ne_of_gt hpos)
  rw [ofSubnet, hn, extract, if_pos (hn ▸ hpos)]
  cases hl : getSubnetLinks S 0 <;>
    simp only [findSubnetCuts, hl, bind_eq_bind, Option.bind_none, bind_some, if_pos]

end UtopiaEda.CutExtractor
