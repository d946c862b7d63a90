import UtopiaEda.NetBuilding
import UtopiaEda.RandomDraws

/-!
# Generators of nets

What all generators share: the basis of operations by the number of inputs, the limits for the
fanin, and the choice of an operation for a cell. Nets inside of cells are left out: the generators
are not hierarchical.
-/
namespace UtopiaEda
open List

/-- Types by their number of inputs, in increasing order. -/
abbrev NInCellTIDs := List (ℕ × List CellTypeID)

namespace NInCellTIDs

/-- `nInCellTIDs[nIn].push_back(cellTID)`. -/
def pushBack (nIn : ℕ) (cellTID : CellTypeID) : NInCellTIDs → NInCellTIDs
  | [] => [(nIn, [cellTID])]
  | (n, cellTIDs) :: m =>
    if nIn < n then (nIn, [cellTID]) :: (n, cellTIDs) :: m
    else if nIn = n then (n, cellTIDs ++ [cellTID]) :: m
    else (n, cellTIDs) :: pushBack nIn cellTID m

def find (m : NInCellTIDs) (nIn : ℕ) : Option (List CellTypeID) := (m.find? (·.1 = nIn)).map (·.2)

def lowerBound (m : NInCellTIDs) (nIn : ℕ) : Option (ℕ × List CellTypeID) := m.find? (nIn ≤ ·.1)

end NInCellTIDs

structure Generator where
  nIn : ℕ
  nOut : ℕ
  faninLow : ℕ := 1
  faninHigh : ℕ := AnyArity
  netBase : List CellTypeID := []
  nInCellTIDs : NInCellTIDs := []

namespace Generator

/-- `none` is the null identifier. -/
def isOperation : Option CellTypeID → Bool
  | none | some .IN | some .OUT | some .ONE | some .ZERO => false
  | some _ => true

section
variable (lib : CellAttributes)

def addOperation (g : Generator) (cellTID : Option CellTypeID) : Option Generator :=
  if isOperation cellTID then do
    let cellTID ← cellTID
    some { g with
      netBase := g.netBase ++ [cellTID]
      nInCellTIDs := g.nInCellTIDs.pushBack (cellTID.getInNum lib) cellTID }
  else none

def create (nIn nOut : ℕ) (netBase : List (Option CellTypeID)) : Option Generator :=
  netBase.foldlM (addOperation lib) { nIn := nIn, nOut := nOut }

def irrelevantOp (faninLow faninHigh : ℕ) (cellTID : CellTypeID) : Bool :=
  (!cellTID.isInNumFixed lib && faninHigh < 2) ||
    (cellTID.isInNumFixed lib &&
      (cellTID.getInNum lib < faninLow || cellTID.getInNum lib > faninHigh))

/-- Throws if the limits are in the wrong order or exclude an operation of the basis. -/
def setFaninLim (g : Generator) (faninLow faninHigh : ℕ) : Option Generator :=
  if faninLow > faninHigh ∨ g.netBase.any (irrelevantOp lib faninLow faninHigh) then none
  else some { g with faninLow := faninLow, faninHigh := faninHigh }

/-- A generator with accepted limits for the fanin, which are 16-bit numbers. -/
inductive Accepted (nIn nOut : ℕ) : Generator → Prop where
  | create {netBase : List (Option CellTypeID)} {g : Generator} :
    create lib nIn nOut netBase = some g → Accepted nIn nOut g
  | setFaninLim {g g' : Generator} {faninLow faninHigh : ℕ} : Accepted nIn nOut g →
    faninLow < 2 ^ 16 → faninHigh < 2 ^ 16 → g.setFaninLim lib faninLow faninHigh = some g' →
    Accepted nIn nOut g'

end

def isBounded (val low high : ℕ) : Bool := (val ≥ low && val ≤ high) || (val = AnyArity && high ≥ 2)

def canAddIn (g : Generator) (cellNIn nSourceCells : ℕ) : Bool :=
  if cellNIn = AnyArity then false
  else if (g.nInCellTIDs.find AnyArity).isSome ∧ nSourceCells > 1 ∧ cellNIn + 1 ≤ g.faninHigh then
    true
  else match g.nInCellTIDs.lowerBound (cellNIn + 1) with
    | some nextInsCnt => nextInsCnt.1 ≤ nSourceCells && nextInsCnt.1 ≤ g.faninHigh
    | none => false

def upperBound (g : Generator) (nSourceCells : ℕ) : ℕ :=
  min (if nSourceCells > 0xffff then 0xffff else nSourceCells) g.faninHigh

/-- The loop goes over the bounded numbers of inputs until it has skipped `nInNumber` of them. -/
def chooseCellType (g : Generator) (cellNIn nSourceCells : ℕ) : Drawing (Option CellTypeID) := do
  let nInLowerBound := max cellNIn g.faninLow
  let nInUpperBound := g.upperBound nSourceCells
  if nInLowerBound > nInUpperBound then pure none
  else
    let avail := g.nInCellTIDs.filter fun nInTIDs => isBounded nInTIDs.1 nInLowerBound nInUpperBound
    if avail = [] then pure none
    else
      let nInTIDs ← Drawing.randElement avail
      let cellTID ← Drawing.randElement nInTIDs.2
      pure (some cellTID)

/-! ### The basis -/

variable {lib : CellAttributes} {g g' : Generator} {nIn nOut n : ℕ} {cellTID : CellTypeID}
  {cellTIDs : List CellTypeID}

structure Valid (lib : CellAttributes) (g : Generator) : Prop where
  nonempty : ∀ e ∈ g.nInCellTIDs, e.2 ≠ []
  types : ∀ e ∈ g.nInCellTIDs, ∀ t ∈ e.2, t.getInNum lib = e.1 ∧ isOperation (some t)

theorem mem_pushBack {e : ℕ × List CellTypeID} {m : NInCellTIDs} (h : e ∈ m.pushBack n cellTID) :
    e ∈ m ∨ (e.1 = n ∧ ∃ cellTIDs, e.2 = cellTIDs ++ [cellTID] ∧
    (cellTIDs = [] ∨ (n, cellTIDs) ∈ m)) := by
  induction m with
  | nil =>
    rw [NInCellTIDs.pushBack, mem_singleton] at h
    exact .inr ⟨by rw [h], [], by rw [h]; rfl, .inl rfl⟩
  | cons first m ih =>
    obtain ⟨n', cellTIDs⟩ := first
    rw [NInCellTIDs.pushBack] at h
    split_ifs at h with hlt heq
    · rcases mem_cons.mp h with rfl | h
      · exact .inr ⟨rfl, [], rfl, .inl rfl⟩
      · exact .inl h
    · rcases mem_cons.mp h with rfl | h
      · exact .inr ⟨heq.symm, cellTIDs, rfl, .inr (by rw [heq]; exact mem_cons_self)⟩
      · exact .inl (mem_cons_of_mem _ h)
    · rcases mem_cons.mp h with rfl | h
      · exact .inl mem_cons_self
      · refine (ih h).imp (mem_cons_of_mem _) ?_
        rintro ⟨hn, cellTIDs', he, hmem⟩
        exact ⟨hn, cellTIDs', he, hmem.imp_right (mem_cons_of_mem _)⟩

theorem Valid.addOperation {o : Option CellTypeID} (h : g.Valid lib)
    (hadd : addOperation lib g o = some g') : g'.Valid lib := by
  unfold Generator.addOperation at hadd
  split_ifs at hadd with hop
  obtain ⟨cellTID, rfl, hg⟩ := Option.bind_eq_some_iff.mp hadd
  cases hg
  constructor
  · intro e he
    rcases mem_pushBack he with he | ⟨-, cellTIDs, heq, -⟩
    · exact h.nonempty e he
    · rw [heq]
      exact append_ne_nil_of_right_ne_nil _ (cons_ne_nil _ _)
  · intro e he t ht
    rcases mem_pushBack he with he | ⟨hn, cellTIDs, heq, hmem⟩
    · exact h.types e he t ht
    · rw [heq, mem_append, mem_singleton] at ht
      rw [hn]
      rcases ht with ht | rfl
      · rcases hmem with rfl | hmem
        · cases ht
        · exact h.types _ hmem t ht
      · exact ⟨rfl, hop⟩

theorem Valid.create {netBase : List (Option CellTypeID)} (h : g.Valid lib)
    (hadd : netBase.foldlM (Generator.addOperation lib) g = some g') : g'.Valid lib := by
  induction netBase generalizing g with
  | nil => exact Option.some.inj hadd ▸ h
  | cons o netBase ih =>
    rw [foldlM_cons] at hadd
    obtain ⟨g₁, hg₁, hadd⟩ := Option.bind_eq_some_iff.mp hadd
    exact ih (h.addOperation hg₁) hadd

theorem Accepted.valid (h : Accepted lib nIn nOut g) : g.Valid lib := by
  induction h with
  | create hcreate => exact Valid.create ⟨by simp, by simp⟩ hcreate
  | setFaninLim _ _ _ hset ih =>
    unfold Generator.setFaninLim at hset
    split_ifs at hset
    cases hset
    exact ⟨ih.nonempty, ih.types⟩

theorem Accepted.nIn_eq (h : Accepted lib nIn nOut g) : g.nIn = nIn ∧ g.nOut = nOut := by
  have hadd : ∀ {netBase : List (Option CellTypeID)} {g g' : Generator},
      netBase.foldlM (Generator.addOperation lib) g = some g' → g'.nIn = g.nIn ∧
      g'.nOut = g.nOut := by
    intro netBase
    induction netBase with
    | nil =>
      intro g g' h
      cases h
      exact ⟨rfl, rfl⟩
    | cons o netBase ih =>
      intro g g' h
      rw [foldlM_cons] at h
      obtain ⟨g₁, hg₁, h⟩ := Option.bind_eq_some_iff.mp h
      unfold Generator.addOperation at hg₁
      split_ifs at hg₁
      obtain ⟨cellTID, -, hg₁⟩ := Option.bind_eq_some_iff.mp hg₁
      cases hg₁
      have hrest := ih h
      exact hrest
  induction h with
  | create hcreate => exact hadd hcreate
  | setFaninLim _ _ _ hset ih =>
    unfold Generator.setFaninLim at hset
    split_ifs at hset
    cases hset
    exact ih

theorem mem_of_find {m : NInCellTIDs} (h : m.find n = some cellTIDs) : (n, cellTIDs) ∈ m := by
  obtain ⟨e, he, rfl⟩ := Option.map_eq_some_iff.mp h
  have hkey : e.1 = n := by simpa using find?_some he
  rw [← hkey]
  exact mem_of_find?_eq_some he

theorem upperBound_le : g.upperBound n ≤ n ∧ g.upperBound n ≤ AnyArity ∧ g.upperBound n ≤
    g.faninHigh := by
  unfold upperBound AnyArity
  split <;> omega

structure Suits (lib : CellAttributes) (g : Generator) (cellTID : CellTypeID)
    (cellNIn nSourceCells : ℕ) : Prop where
  operation : isOperation (some cellTID)
  lower_le : max cellNIn g.faninLow ≤ g.upperBound nSourceCells
  fixed : cellTID.isInNumFixed lib = true →
    cellNIn ≤ cellTID.getInNum lib ∧ cellTID.getInNum lib ≤ g.upperBound nSourceCells
  any : cellTID.isInNumFixed lib = false → 2 ≤ g.upperBound nSourceCells

structure Fits (lib : CellAttributes) (g : Generator) (cellTID : CellTypeID) (nIn : ℕ) : Prop where
  operation : isOperation (some cellTID)
  fixed : cellTID.isInNumFixed lib = true → nIn = cellTID.getInNum lib
  any : cellTID.isInNumFixed lib = false → 2 ≤ nIn
  le : nIn ≤ g.faninHigh

theorem Valid.chooseCellType (h : g.Valid lib) (cellNIn nSourceCells : ℕ) :
    (g.chooseCellType cellNIn nSourceCells).Sat fun o => ∀ t, o = some t →
    g.Suits lib t cellNIn nSourceCells := by
  unfold Generator.chooseCellType
  dsimp only
  split_ifs with hlt hnil
  · exact .pure (by simp)
  · exact .pure (by simp)
  · refine (Drawing.Sat.randElement hnil).bind fun e he => ?_
    obtain ⟨hmem, hbound⟩ := mem_filter.mp he
    refine (Drawing.Sat.randElement (h.nonempty e hmem)).bind fun t ht => .pure fun t' heq => ?_
    cases heq
    obtain ⟨hnum, hop⟩ := h.types e hmem t ht
    unfold isBounded at hbound
    simp only [Bool.or_eq_true, Bool.and_eq_true, decide_eq_true_eq] at hbound
    constructor
    · exact hop
    · omega
    all_goals
      unfold CellTypeID.isInNumFixed
      rw [hnum]
      intro hfix
      simp only [ne_eq, decide_not, Bool.not_eq_eq_eq_not, Bool.not_true, Bool.not_false,
      decide_eq_true_eq,
        decide_eq_false_iff_not] at hfix
      unfold AnyArity at *
      omega

end Generator
end UtopiaEda
