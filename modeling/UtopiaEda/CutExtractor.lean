import UtopiaEda.Operations
import UtopiaEda.Choices
import UtopiaEda.Selections
import Mathlib.Data.Finset.Card

/-!
# Cut extraction

A cut of a cell is a set of leaves that separates it from the inputs. The cuts of a cell are found
by uniting one stored cut of each input. The sets of leaves are sorted arrays with a signature in
the source.
-/
namespace UtopiaEda
open List
open Option (bind_eq_bind bind_some)

structure Cut where
  rootID : EntryID
  leafIDs : Finset EntryID
  deriving DecidableEq

namespace Cut

def trivial (i : EntryID) : Cut := ⟨i, {i}⟩

def isTrivial (cut : Cut) : Bool := cut.leafIDs.card == 1 && decide (cut.rootID ∈ cut.leafIDs)

/-- Merges another cut into a cut with the capacity `k`. -/
def merge (k : ℕ) (cut other : Cut) : Option Cut :=
  let leafIDs := cut.leafIDs ∪ other.leafIDs
  if leafIDs.card ≤ k then some { cut with leafIDs } else none

def dominates (cut other : Cut) : Bool :=
  decide (cut.leafIDs.card < other.leafIDs.card) && decide (cut.leafIDs ⊆ other.leafIDs)

end Cut

structure CutExtractor where
  /-- Maximum size of a cut. -/
  k : ℕ
  entriesCuts : List (List Cut) := []

namespace CutExtractor
open Choices Selections

def getCuts (x : CutExtractor) (entryID : EntryID) : List Cut := x.entriesCuts.getD entryID []

def setCuts (x : CutExtractor) (entryID : EntryID) (cuts : List Cut) : CutExtractor :=
  { x with entriesCuts := x.entriesCuts.set entryID cuts }

/-- `getLinks` of a builder without a buffer: the links of a larger cell have nowhere to go. -/
def getLinks (s : SubnetBuilder) (entryID : EntryID) : Option (List Link) := do
  let cell ← s.getCell entryID
  if cell.arity ≤ InPlaceLinks then some cell.links else none

/-- The flags of the cuts say which of them are viable. -/
def cutNotDominated (cut : Cut) (cuts : List (Cut × Bool)) : Bool × List (Cut × Bool) :=
  notDominated Cut.dominates cut cuts

/-- The loop of `addCut` over the stored cuts of the inputs. -/
def mergeCuts (k : ℕ) : List (List Cut) → ℕ → Cut → Option Cut
  | [], _, newCut => some newCut
  | cuts :: rest, cutsCombinationID, newCut => do
    let cutToMerge ← cuts[cutsCombinationID / number rest]?
    mergeCuts k rest (cutsCombinationID % number rest) (← newCut.merge k cutToMerge)

def addCut (k : ℕ) (entryID : EntryID) (stored : List (List Cut)) (addedCuts : List (Cut × Bool))
    (cutsCombinationID : ℕ) : List (Cut × Bool) :=
  match mergeCuts k stored cutsCombinationID ⟨entryID, ∅⟩ with
  | none => addedCuts
  | some newCut =>
    let (keep, addedCuts) := cutNotDominated newCut addedCuts
    if keep then addedCuts ++ [(newCut, true)] else addedCuts

def addViableCuts (x : CutExtractor) (cuts : List (Cut × Bool)) (entryID : EntryID) :
    CutExtractor :=
  x.setCuts entryID (kept cuts)

def findCuts (s : SubnetBuilder) (x : CutExtractor) (entryID : EntryID) : Option CutExtractor := do
  let links ← getLinks s entryID
  if links = [] then some (x.addViableCuts [(Cut.trivial entryID, true)] entryID)
  else
    let stored ← links.mapM fun l => x.entriesCuts[l.idx]?
    let cuts := (range (number stored)).foldl (addCut x.k entryID stored)
      [(Cut.trivial entryID, true)]
    some (x.addViableCuts cuts entryID)

def recomputeCuts (s : SubnetBuilder) (x : CutExtractor) (entryID : EntryID) :
    Option CutExtractor :=
  let entriesCuts := x.entriesCuts ++ replicate (entryID + 1 - x.entriesCuts.length) []
  findCuts s { x with entriesCuts := entriesCuts.set entryID [] } entryID

/-! ### What is found -/

def leaves (cuts : List Cut) : Finset EntryID := cuts.foldr (fun cut L => cut.leafIDs ∪ L) ∅

theorem mem_leaves {cuts : List Cut} {j : EntryID} :
    j ∈ leaves cuts ↔ ∃ cut ∈ cuts, j ∈ cut.leafIDs := by
  induction cuts with
  | nil => simp [leaves]
  | cons cut cuts ih =>
    have hleaves : leaves (cut :: cuts) = cut.leafIDs ∪ leaves cuts := rfl
    rw [hleaves, Finset.mem_union, ih, exists_mem_cons_iff]

def unite (k : ℕ) (i : EntryID) (cuts : List Cut) : Option Cut :=
  if (leaves cuts).card ≤ k then some ⟨i, leaves cuts⟩ else none

/-- The cuts of a cell, where `stored` are those of its inputs: the trivial one and the unions, as
far as no other one of them lies strictly inside. -/
def candidates (k : ℕ) (i : EntryID) (stored : List (List Cut)) : List Cut :=
  if stored = [] then [Cut.trivial i]
  else undominated Cut.dominates (Cut.trivial i :: (choices stored).filterMap (unite k i))

variable {k : ℕ} {i : EntryID} {a b c cut : Cut} {s : SubnetBuilder} {x : CutExtractor}

theorem dominates_iff : a.dominates b = true ↔ a.leafIDs ⊂ b.leafIDs := by
  rw [Cut.dominates, Bool.and_eq_true, decide_eq_true_eq, decide_eq_true_eq]
  constructor
  · exact fun h => Finset.ssubset_iff_subset_ne.mpr ⟨h.2, fun heq => Nat.ne_of_lt h.1 (heq ▸ rfl)⟩
  · exact fun h => ⟨Finset.card_lt_card h, h.subset⟩

theorem dominates_trans (hab : a.dominates b = true) (hbc : b.dominates c = true) :
    a.dominates c = true :=
  dominates_iff.mpr ((dominates_iff.mp hab).trans (dominates_iff.mp hbc))

theorem mergeCuts_eq (hk : cut.leafIDs.card ≤ k) (stored : List (List Cut)) (id : ℕ) :
    mergeCuts k stored id cut = (decode stored id).bind fun cuts =>
      if (cut.leafIDs ∪ leaves cuts).card ≤ k then some ⟨cut.rootID, cut.leafIDs ∪ leaves cuts⟩
      else none := by
  induction stored generalizing cut id with
  | nil => simp [mergeCuts, decode, leaves, hk]
  | cons l stored ih =>
    simp only [mergeCuts, decode, bind_eq_bind]
    cases l[id / number stored]? with
    | none => rfl
    | some first =>
      simp only [bind_some, Cut.merge]
      split
      · rename_i hle
        rw [bind_some, ih hle]
        cases decode stored (id % number stored) with
        | none => rfl
        | some cuts =>
          have hleaves : leaves (first :: cuts) = first.leafIDs ∪ leaves cuts := rfl
          simp only [bind_some, hleaves, Finset.union_assoc]
      · rename_i hnot
        -- a union that is too large stays too large
        cases decode stored (id % number stored) with
        | none => rfl
        | some cuts =>
          have hlarge : ¬ (cut.leafIDs ∪ leaves (first :: cuts)).card ≤ k := by
            intro hle
            refine hnot (Nat.le_trans (Finset.card_le_card ?_) hle)
            exact Finset.union_subset_union_right Finset.subset_union_left
          simp [hlarge]

/-- Adding the unions one by one leaves the candidates. -/
theorem kept_addCuts (k : ℕ) (i : EntryID) (stored : List (List Cut)) :
    kept ((range (number stored)).foldl (addCut k i stored) [(Cut.trivial i, true)]) =
      undominated Cut.dominates (Cut.trivial i :: (choices stored).filterMap (unite k i)) := by
  have hmerge : ∀ id, mergeCuts k stored id ⟨i, ∅⟩ = (decode stored id).bind (unite k i) := by
    intro id
    rw [mergeCuts_eq (Nat.zero_le k)]
    simp only [Finset.empty_union]
    rfl
  have hfold : ∀ (ids : List ℕ) (seen : List (Cut × Bool)), ids.foldl (addCut k i stored) seen =
      ((ids.map (decode stored)).filterMap (·.bind (unite k i))).foldl
        (add Cut.dominates) seen := by
    intro ids
    induction ids with
    | nil => exact fun _ => rfl
    | cons id ids ih =>
      intro seen
      rw [foldl_cons, ih, map_cons, filterMap_cons, addCut, hmerge]
      cases (decode stored id).bind (unite k i) with
      | none => rfl
      | some cut => rfl
  rw [hfold, map_decode, filterMap_map]
  exact kept_foldl_add (fun cut : Cut => cut.leafIDs.card)
    (fun a b h => Finset.card_lt_card (dominates_iff.mp h)) (fun _ _ _ => dominates_trans) _ _

def inputCuts (x : CutExtractor) (links : List Link) : List (List Cut) :=
  links.map fun l => x.getCuts l.idx

theorem getElem?_of_getCuts_ne_nil {j : EntryID} (h : x.getCuts j ≠ []) :
    x.entriesCuts[j]? = some (x.getCuts j) := by
  rw [getCuts, getD_eq_getElem?_getD] at h ⊢
  cases hj : x.entriesCuts[j]? with
  | none => exact absurd (by rw [hj]; rfl) h
  | some cuts => rfl

theorem recomputeCuts_eq {links : List Link} (hl : getLinks s i = some links)
    (hin : ∀ l ∈ links, x.getCuts l.idx ≠ [] ∧ l.idx ≠ i) : ∃ x', recomputeCuts s x i = some x' ∧
      x'.k = x.k ∧ i < x'.entriesCuts.length ∧ x'.getCuts i = candidates x.k i (x.inputCuts links) ∧
      ∀ j ≠ i, x'.getCuts j = x.getCuts j := by
  let entriesCuts := x.entriesCuts ++ replicate (i + 1 - x.entriesCuts.length) []
  have hlen : i < entriesCuts.length := by
    simp only [entriesCuts, length_append, length_replicate]
    exact Nat.lt_of_lt_of_le (Nat.lt_succ_self i) le_add_tsub
  have hother : ∀ j ≠ i, ∀ cuts, (entriesCuts.set i cuts).getD j [] = x.getCuts j := by
    intro j hj cuts
    rw [getD_eq_getElem?_getD, getElem?_set_ne (Ne.symm hj), getCuts,
      getD_eq_getElem?_getD]
    by_cases hlt : j < x.entriesCuts.length
    · rw [getElem?_append_left hlt]
    · rw [getElem?_append_right (Nat.not_lt.mp hlt), getElem?_eq_none (Nat.not_lt.mp hlt)]
      cases hr : (replicate (i + 1 - x.entriesCuts.length)
        ([] : List Cut))[j - x.entriesCuts.length]? with
      | none => rfl
      | some cuts => rw [eq_of_mem_replicate (mem_of_getElem? hr)]; rfl
  have hresult : ∀ cuts, ∃ x',
      some ((({ x with entriesCuts := entriesCuts.set i [] } : CutExtractor).setCuts
      i cuts)) = some x' ∧ x'.k = x.k ∧ i < x'.entriesCuts.length ∧ x'.getCuts i = cuts ∧
      ∀ j ≠ i, x'.getCuts j = x.getCuts j := by
    intro cuts
    refine ⟨_, rfl, rfl, ?_, ?_, fun j hj => ?_⟩
    · simpa [setCuts] using hlen
    · simp [setCuts, getCuts, hlen]
    · rw [getCuts, setCuts, set_set]
      exact hother j hj cuts
  have hrecompute : recomputeCuts s x i =
      findCuts s { x with entriesCuts := entriesCuts.set i [] } i := rfl
  rw [hrecompute, findCuts]
  simp only [hl, bind_eq_bind, bind_some]
  by_cases hnil : links = []
  · rw [if_pos hnil]
    obtain rfl := hnil
    exact hresult [Cut.trivial i]
  · have hstored : (links.mapM fun l => (entriesCuts.set i [])[l.idx]?) =
        some (x.inputCuts links) := by
      refine Netlist.mapM_eq_some (fun l hl => ?_)
      obtain ⟨hne, hli⟩ := hin l hl
      have hget : (entriesCuts.set i []).getD l.idx [] = x.getCuts l.idx := hother l.idx hli []
      rw [← hget] at hne ⊢
      exact getElem?_of_getCuts_ne_nil (x := { x with entriesCuts := entriesCuts.set i [] }) hne
    rw [if_neg hnil, hstored, bind_some, addViableCuts]
    simp only [kept_addCuts]
    have hne : x.inputCuts links ≠ [] := by simpa [inputCuts] using hnil
    have hcand : candidates x.k i (x.inputCuts links) = undominated Cut.dominates
        (Cut.trivial i :: (choices (x.inputCuts links)).filterMap (unite x.k i)) := if_neg hne
    rw [hcand]
    exact hresult _

end CutExtractor

end UtopiaEda
