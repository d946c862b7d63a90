import UtopiaEda.NetGenerator
import Mathlib.Order.Interval.Finset.Nat

/-!
# The adjacency matrix of a generated net

Row `i` marks the cells that cell `i` is linked to; the cells with the highest indices are the
inputs. The matrix, the numbers of links and the types of the cells are set in three phases, of
which the last one removes links again. What they keep is stated for each step and each loop.
-/
namespace UtopiaEda

open Function (update update_self update_of_ne)

structure MatrixGenerator extends Generator where
  matrixNCells : ℕ

namespace MatrixGenerator
open Drawing

structure Tables where
  m : ℕ → ℕ → Bool := fun _ _ => false
  cellNIn : ℕ → ℕ := fun _ => 0
  cellIdxCellTID : ℕ → Option CellTypeID := fun _ => none

namespace Tables
variable (t : Tables) (i j : ℕ)

def set (value : Bool) : Tables := { t with m := update t.m i (update (t.m i) j value) }

def setNIn (nIn : ℕ) : Tables := { t with cellNIn := update t.cellNIn i nIn }

def setTID (cellTID : CellTypeID) : Tables :=
  { t with cellIdxCellTID := update t.cellIdxCellTID i (some cellTID) }

/-- `cellNIn[i] - 1` as a key. -/
def lessNIn : ℕ := (t.cellNIn i + 0xffff) % 2 ^ 16

def link : Tables := (t.set i j true).setNIn i ((t.cellNIn i + 1) % 2 ^ 16)

def unlink (cellTID : CellTypeID) : Tables :=
  ((t.setTID i cellTID).setNIn i (t.lessNIn i)).set i j false

end Tables

variable (lib : CellAttributes) (g : MatrixGenerator)

/-- The loop of `setPrimIns` over a set of indices, for so many rounds. -/
def setPrimInsLoop : ℕ → List ℕ → Option (List ℕ)
  | 0, _ => none
  | n + 1, inputs =>
    if inputs.length ≠ g.nIn then
      setPrimInsLoop n (inputs.insert (g.matrixNCells - inputs.length - 1))
    else some inputs

def setPrimIns : Drawing (List ℕ) := ofOption (setPrimInsLoop g (g.nIn + 1) [])

def canMakeDrain (t : Tables) (columnN : ℕ) : Bool :=
  (List.range g.matrixNCells).all fun i =>
    let curRowHasIn := t.m i columnN
    let noLessInNOps := (g.nInCellTIDs.find (t.lessNIn i)).isNone
    let noAnyNInOps := (g.nInCellTIDs.find AnyArity).isNone
    !(curRowHasIn && (noLessInNOps && (t.cellNIn i < 3 || noAnyNInOps)))

/-- Removes the links to the cell `j`. -/
def makeDrain (j : ℕ) : List ℕ → Tables → Drawing Tables
  | [], t => pure t
  | i :: rows, t =>
    if t.m i j then do
      let cellTID ← randElement
        ((g.nInCellTIDs.find (t.lessNIn i)).getD ((g.nInCellTIDs.find AnyArity).getD []))
      makeDrain j rows (t.unlink i j cellTID)
    else makeDrain j rows (t.set i j false)

/-- The first loop of `setPrimOuts`: some cells become drains. -/
def setDrains : ℕ → Tables → List ℕ → Drawing (Tables × List ℕ)
  | 0, t, outputs => pure (t, outputs)
  | k + 1, t, outputs => do
    let d ← rand
    if d % 2 = 0 then setDrains k t outputs
    else do
      check (g.matrixNCells ≠ 0)
      let j ← randMod g.matrixNCells
      if g.canMakeDrain t j then do
        let t ← g.makeDrain j (List.range g.matrixNCells) t
        setDrains k t (outputs ++ [j])
      else setDrains k t outputs

/-- A round of the second loop of `setPrimOuts`. -/
def addOutput (outputs : List ℕ) : Drawing (List ℕ ⊕ List ℕ) :=
  if g.nOut > outputs.length then do
    check (g.matrixNCells ≠ 0)
    let j ← randMod g.matrixNCells
    pure (.inl (outputs ++ [j]))
  else pure (.inr outputs)

def setPrimOuts (t : Tables) : Drawing (Tables × List ℕ) := do
  let r ← g.setDrains (g.nOut - 1) t [0]
  let outputs ← loop g.addOutput r.2
  pure (r.1, outputs)

/-- A round of the inner loop of `setCellsOuts`; the loop ends when a row is found or all are
unavailable. -/
def tryRow (t : Tables) (availRowsN : ℕ) (unavailRows : List ℕ) : Drawing (List ℕ ⊕ Option ℕ) := do
  let i ← randMod availRowsN
  if g.canAddIn (t.cellNIn i) (g.matrixNCells - i - 1) then pure (.inr (some i))
  else if (unavailRows.insert i).length = availRowsN then pure (.inr none)
  else pure (.inl (unavailRows.insert i))

/-- `setCellsOuts` from a column on. -/
def setCellsOutsLoop : List ℕ → Tables → Drawing (Option Tables)
  | [], t => pure (some t)
  | j :: columns, t => do
    let availRowsN := min j (g.matrixNCells - g.nIn)
    check (availRowsN ≠ 0)
    match ← loop (g.tryRow t availRowsN) [] with
    | none => pure none
    | some i => setCellsOutsLoop columns (t.link i j)

def setCellsOuts (t : Tables) : Drawing (Option Tables) :=
  g.setCellsOutsLoop (List.range' 1 (g.matrixNCells - 1)) t

/-- The number of links that the type of the cell asks for. A remainder by a negative number is one
by its absolute value. -/
def neededNIn (rowN : ℕ) (t : Tables) : Drawing ℕ := do
  let cellTID ← ofOption (t.cellIdxCellTID rowN)
  if cellTID.isInNumFixed lib then pure (cellTID.getInNum lib)
  else do
    let lowerBound := max 2 (max (t.cellNIn rowN) g.faninLow)
    let upperBound := g.upperBound (g.matrixNCells - rowN - 1)
    let n := (upperBound - lowerBound + 1 : ℤ).natAbs
    check (n ≠ 0)
    let d ← randMod n
    pure ((d + lowerBound) % 2 ^ 16)

/-- A round of the loop of `addInsForCell`. -/
def addIn (rowN neededCurNIn : ℕ) (t : Tables) : Drawing (Tables ⊕ Tables) :=
  if t.cellNIn rowN < neededCurNIn then do
    check (g.matrixNCells - rowN - 1 ≠ 0)
    let d ← randMod (g.matrixNCells - rowN - 1)
    let j := d + rowN + 1
    if !t.m rowN j then pure (.inl (t.link rowN j)) else pure (.inl t)
  else pure (.inr t)

def addInsForCell (rowN : ℕ) (t : Tables) : Drawing Tables := do
  let neededCurNIn ← g.neededNIn lib rowN t
  loop (g.addIn rowN neededCurNIn) t

def setOp (i : ℕ) (t : Tables) : Drawing (Option Tables) := do
  let cellTID ← g.chooseCellType (t.cellNIn i) (g.matrixNCells - i - 1)
  pure (cellTID.map (t.setTID i))

/-- The loop of `setOps` from a row on. -/
def setOpsLoop : List ℕ → Tables → Drawing (Option Tables)
  | [], t => pure (some t)
  | i :: rows, t => do
    match ← g.setOp i t with
    | none => pure none
    | some t =>
      let t ← g.addInsForCell lib i t
      setOpsLoop rows t

def setOps (t : Tables) : Drawing (Option Tables) := do
  match ← g.setCellsOuts t with
  | none => pure none
  | some t => g.setOpsLoop lib (List.range (g.matrixNCells - g.nIn)) t

structure NetPlan extends Tables where
  inputs : List ℕ
  outputs : List ℕ

def genM : Drawing (Option NetPlan) := do
  let inputs ← g.setPrimIns
  match ← g.setOps lib {} with
  | none => pure none
  | some t =>
    let r ← g.setPrimOuts t
    pure (some { r.1 with inputs := inputs, outputs := r.2 })

/-! ### The rows -/

def ones (n : ℕ) (row : ℕ → Bool) : Finset ℕ := (Finset.range n).filter fun j => row j = true

section
variable {n j : ℕ} {row : ℕ → Bool}

theorem mem_ones {k : ℕ} : k ∈ ones n row ↔ k < n ∧ row k = true := by
  rw [ones, Finset.mem_filter, Finset.mem_range]

theorem card_ones_set (hj : j < n) (h : row j = false) :
    (ones n (update row j true)).card = (ones n row).card + 1 := by
  have hnotin : j ∉ ones n row := by
    rw [mem_ones, h]
    simp
  rw [← Finset.card_insert_of_notMem hnotin]
  congr 1
  ext k
  rw [Finset.mem_insert, mem_ones, mem_ones]
  by_cases hk : k = j
  · simp [hk, hj]
  · simp [hk]

theorem card_ones_clear (hj : j < n) (h : row j = true) :
    (ones n (update row j false)).card + 1 = (ones n row).card := by
  have hset := @card_ones_set n j (update row j false) hj (update_self j false row)
  rw [Function.update_idem, ← h, Function.update_eq_self] at hset
  exact hset.symm

end

variable {lib g} {t t' : Tables} {i j k rowN : ℕ}

/-- Cells are linked to cells with higher indices, and the numbers of links are those of the matrix.
Inputs have neither links nor types. -/
structure Consistent (g : MatrixGenerator) (t : Tables) : Prop where
  upper : ∀ i j, t.m i j = true → i < g.matrixNCells - g.nIn ∧ i < j ∧ j < g.matrixNCells
  nIn : ∀ i, t.cellNIn i = (ones g.matrixNCells (t.m i)).card
  le : ∀ i, t.cellNIn i ≤ AnyArity
  untyped : ∀ i, g.matrixNCells - g.nIn ≤ i → t.cellIdxCellTID i = none

structure SameBut (i : ℕ) (t t' : Tables) : Prop where
  m : ∀ k, k ≠ i → t'.m k = t.m k
  cellNIn : ∀ k, k ≠ i → t'.cellNIn k = t.cellNIn k
  cellIdxCellTID : ∀ k, k ≠ i → t'.cellIdxCellTID k = t.cellIdxCellTID k

theorem SameBut.refl : SameBut i t t := ⟨fun _ _ => rfl, fun _ _ => rfl, fun _ _ => rfl⟩

theorem SameBut.trans {t'' : Tables} (h : SameBut i t t') (h' : SameBut i t' t'') :
    SameBut i t t'' :=
  ⟨fun k hk => (h'.m k hk).trans (h.m k hk), fun k hk => (h'.cellNIn k hk).trans (h.cellNIn k hk),
    fun k hk => (h'.cellIdxCellTID k hk).trans (h.cellIdxCellTID k hk)⟩

theorem sameBut_setTID {cellTID : CellTypeID} : SameBut i t (t.setTID i cellTID) :=
  ⟨fun _ _ => rfl, fun _ _ => rfl, fun _ hk => update_of_ne hk _ _⟩

theorem sameBut_link : SameBut i t (t.link i j) :=
  ⟨fun _ hk => update_of_ne hk _ _, fun _ hk => update_of_ne hk _ _, fun _ _ => rfl⟩

theorem sameBut_unlink {cellTID : CellTypeID} : SameBut i t (t.unlink i j cellTID) :=
  ⟨fun _ hk => update_of_ne hk _ _, fun _ hk => update_of_ne hk _ _,
    fun _ hk => update_of_ne hk _ _⟩

/-- A row that agrees with the number beside it may be changed. -/
theorem Consistent.of_sameBut (h : Consistent g t) (hsame : SameBut i t t')
    (hi : i < g.matrixNCells - g.nIn) (hupper : ∀ j, t'.m i j = true → i < j ∧ j < g.matrixNCells)
    (hnIn : t'.cellNIn i = (ones g.matrixNCells (t'.m i)).card) (hle : t'.cellNIn i ≤ AnyArity) :
    Consistent g t' := by
  constructor
  · intro k
    by_cases hk : k = i
    · rw [hk]
      exact fun j hj => ⟨hi, hupper j hj⟩
    · rw [hsame.m k hk]
      exact h.upper k
  · intro k
    by_cases hk : k = i
    · rw [hk]
      exact hnIn
    · rw [hsame.m k hk, hsame.cellNIn k hk]
      exact h.nIn k
  · intro k
    by_cases hk : k = i
    · rw [hk]
      exact hle
    · rw [hsame.cellNIn k hk]
      exact h.le k
  · intro k hk
    rw [hsame.cellIdxCellTID k (by omega)]
    exact h.untyped k hk

theorem Consistent.setTID {cellTID : CellTypeID} (h : Consistent g t)
    (hi : i < g.matrixNCells - g.nIn) : Consistent g (t.setTID i cellTID) :=
  h.of_sameBut sameBut_setTID hi (fun j hj => (h.upper i j hj).2) (h.nIn i) (h.le i)

theorem m_link : (t.link i j).m i = update (t.m i) j true := update_self _ _ _

theorem cellNIn_link (h : t.cellNIn i < AnyArity) : (t.link i j).cellNIn i = t.cellNIn i + 1 := by
  refine (update_self _ _ _).trans (Nat.mod_eq_of_lt ?_)
  unfold AnyArity at h
  omega

theorem m_unlink {cellTID : CellTypeID} : (t.unlink i j cellTID).m i = update (t.m i) j false :=
  update_self _ _ _

theorem lessNIn_eq (h : 0 < t.cellNIn i) (hle : t.cellNIn i ≤ AnyArity) :
    t.lessNIn i = t.cellNIn i - 1 := by
  unfold Tables.lessNIn
  unfold AnyArity at hle
  omega

theorem Consistent.link (h : Consistent g t) (hi : i < g.matrixNCells - g.nIn) (hij : i < j)
    (hj : j < g.matrixNCells) (hm : t.m i j = false) (hle : t.cellNIn i < AnyArity) :
    Consistent g (t.link i j) := by
  refine h.of_sameBut sameBut_link hi (fun k hk => ?_) ?_ ?_
  · rw [m_link] at hk
    by_cases hkj : k = j
    · rw [hkj]
      exact ⟨hij, hj⟩
    · rw [update_of_ne hkj] at hk
      exact (h.upper i k hk).2
  · rw [m_link, card_ones_set hj hm, cellNIn_link hle, h.nIn]
  · rw [cellNIn_link hle]
    exact hle

theorem Consistent.pos (h : Consistent g t) (hm : t.m i j = true) : 0 < t.cellNIn i := by
  rw [h.nIn i, Finset.card_pos]
  exact ⟨j, mem_ones.mpr ⟨(h.upper i j hm).2.2, hm⟩⟩

theorem cellNIn_unlink {cellTID : CellTypeID} (h : Consistent g t) (hm : t.m i j = true) :
    (t.unlink i j cellTID).cellNIn i = t.cellNIn i - 1 :=
  (update_self _ _ _).trans (lessNIn_eq (h.pos hm) (h.le i))

theorem Consistent.unlink {cellTID : CellTypeID} (h : Consistent g t) (hm : t.m i j = true) :
    Consistent g (t.unlink i j cellTID) := by
  refine h.of_sameBut sameBut_unlink (h.upper i j hm).1 (fun k hk => ?_) ?_ ?_
  · rw [m_unlink] at hk
    by_cases hkj : k = j
    · rw [hkj, update_self] at hk
      cases hk
    · rw [update_of_ne hkj] at hk
      exact (h.upper i k hk).2
  · rw [m_unlink, cellNIn_unlink h hm, h.nIn, ← card_ones_clear (h.upper i j hm).2.2 hm]
    rfl
  · rw [cellNIn_unlink h hm]
    exact (Nat.sub_le _ _).trans (h.le i)

/-! ### The links to all cells -/

def Used (n : ℕ) (t : Tables) : Prop := ∀ j, 1 ≤ j → j < n → ∃ i, t.m i j = true

theorem sat_tryRows {availRowsN : ℕ} (hpos : 0 < availRowsN) :
    (loop (g.tryRow t availRowsN) []).Sat fun o =>
    ∀ i, o = some i → i < availRowsN ∧ t.cellNIn i ≠ AnyArity := by
  refine Sat.loop (I := fun _ => True) (fun unavailRows _ => ?_) trivial
  refine (Sat.randMod hpos).bind fun i hi => ?_
  split_ifs with hadd hall
  · refine .pure ⟨fun _ h => (by cases h), fun a ha i' h => ?_⟩
    cases ha
    cases h
    refine ⟨hi, fun hany => ?_⟩
    rw [Generator.canAddIn, if_pos hany] at hadd
    cases hadd
  · refine .pure ⟨fun _ h => (by cases h), fun a ha i' h => ?_⟩
    cases ha
    cases h
  · exact .pure ⟨fun _ _ => trivial, fun a ha => (by cases ha)⟩

theorem Consistent.sat_setCellsOutsLoop (hpos : 0 < g.matrixNCells - g.nIn) {k a : ℕ} (ha : 1 ≤ a)
    (hk : a + k = g.matrixNCells) (h : Consistent g t) (hused : Used a t) (hfree : ∀ i j, a ≤ j →
      t.m i j = false) :
    (g.setCellsOutsLoop (List.range' a k) t).Sat fun o => ∀ t', o = some t' → Consistent g t' ∧
    Used g.matrixNCells t' := by
  induction k generalizing a t with
  | zero =>
    refine .pure fun t' ht => ?_
    cases ht
    rw [← hk]
    exact ⟨h, hused⟩
  | succ k ih =>
    rw [List.range'_succ]
    have hrows : 0 < min a (g.matrixNCells - g.nIn) := by omega
    refine (Sat.check (P := fun _ => True) hrows.ne' trivial).bind fun _ _ => ?_
    refine (sat_tryRows hrows).bind fun o ho => ?_
    cases o with
    | none => exact .pure fun t' ht => by cases ht
    | some i =>
      obtain ⟨hi, hany⟩ := ho i rfl
      have hlt : t.cellNIn i < AnyArity := lt_of_le_of_ne (h.le i) hany
      refine ih (by omega) (by omega)
        (h.link (by omega) (by omega) (by omega) (hfree i a (Nat.le_refl a)) hlt) ?_ ?_
      · intro j hj hja
        by_cases heq : j = a
        · exact ⟨i, by rw [m_link, heq, update_self]⟩
        · obtain ⟨i', hi'⟩ := hused j hj (by omega)
          refine ⟨i', ?_⟩
          by_cases hii : i' = i
          · rw [hii, m_link, update_of_ne heq, ← hii]
            exact hi'
          · rw [sameBut_link.m i' hii]
            exact hi'
      · intro i' j hj
        by_cases hii : i' = i
        · rw [hii, m_link, update_of_ne (by omega)]
          exact hfree i j (by omega)
        · rw [sameBut_link.m i' hii]
          exact hfree i' j (by omega)

/-! ### The operations -/

def Typed (lib : CellAttributes) (g : MatrixGenerator) (t : Tables) (i : ℕ) : Prop :=
  ∃ cellTID, t.cellIdxCellTID i = some cellTID ∧ g.Fits lib cellTID (t.cellNIn i)

theorem Typed.of_sameBut (h : Typed lib g t k) (hsame : SameBut i t t') (hk : k ≠ i) :
    Typed lib g t' k := by
  obtain ⟨cellTID, hTID, hfits⟩ := h
  exact ⟨cellTID, (hsame.cellIdxCellTID k hk).trans hTID, by rw [hsame.cellNIn k hk]; exact hfits⟩

theorem sat_neededNIn {cellTID : CellTypeID} (hTID : t.cellIdxCellTID i = some cellTID)
    (h : g.Suits lib cellTID (t.cellNIn i) (g.matrixNCells - i - 1)) :
    (g.neededNIn lib i t).Sat fun n =>
      t.cellNIn i ≤ n ∧ n ≤ g.matrixNCells - i - 1 ∧ n ≤ AnyArity ∧ g.Fits lib cellTID n := by
  obtain ⟨hsource, hany, hhigh⟩ :=
    Generator.upperBound_le (g := g.toGenerator) (n := g.matrixNCells - i - 1)
  refine (Sat.ofOption (P := fun o => o = cellTID) hTID rfl).bind fun o ho => ?_
  rw [ho]
  split_ifs with hfix
  · obtain ⟨hle, hupper⟩ := h.fixed hfix
    exact .pure ⟨hle, by omega, by omega, h.operation, fun _ => rfl, fun hno => absurd hfix (by
      rw [hno]; simp), by omega⟩
  · have hno : cellTID.isInNumFixed lib = false := by simpa using hfix
    have htwo := h.any hno
    have hlower := h.lower_le
    have hn : (((g.upperBound (g.matrixNCells - i - 1) : ℕ) : ℤ) - (max 2
        (max (t.cellNIn i) g.faninLow) : ℕ) + 1).natAbs =
        g.upperBound (g.matrixNCells - i - 1) - max 2 (max (t.cellNIn i) g.faninLow) + 1 := by omega
    dsimp only
    rw [hn]
    refine (Sat.check (P := fun _ => True) (Nat.succ_ne_zero _) trivial).bind fun _ _ => ?_
    refine (Sat.randMod (Nat.succ_pos _)).bind fun d hd => ?_
    have hmod : (d + max 2 (max (t.cellNIn i) g.faninLow)) % 2 ^ 16 =
        d + max 2 (max (t.cellNIn i) g.faninLow) := by
      unfold AnyArity at hany
      omega
    rw [hmod]
    exact .pure ⟨by omega, by omega, by omega, h.operation, fun hyes => absurd hyes hfix, fun _ => by omega, by omega⟩

structure Linked (g : MatrixGenerator) (i : ℕ) (t t' : Tables) : Prop where
  consistent : Consistent g t'
  same : SameBut i t t'
  types : t'.cellIdxCellTID = t.cellIdxCellTID
  grows : ∀ j, t.m i j = true → t'.m i j = true

theorem Linked.used {n : ℕ} (h : Linked g i t t') (hused : Used n t) : Used n t' := by
  intro j hj hjn
  obtain ⟨i', hi'⟩ := hused j hj hjn
  refine ⟨i', ?_⟩
  by_cases hii : i' = i
  · rw [hii] at hi' ⊢
    exact h.grows j hi'
  · rw [h.same.m i' hii]
    exact hi'

theorem Linked.link (h : Linked g i t t') (hi : i < g.matrixNCells - g.nIn) (hij : i < j)
    (hj : j < g.matrixNCells) (hm : t'.m i j = false) (hle : t'.cellNIn i < AnyArity) :
    Linked g i t (t'.link i j) := by
  refine ⟨h.consistent.link hi hij hj hm hle, h.same.trans sameBut_link, h.types, fun k hk => ?_⟩
  rw [m_link]
  by_cases hkj : k = j
  · rw [hkj, update_self]
  · rw [update_of_ne hkj]
    exact h.grows k hk

theorem Consistent.sat_addIns {n : ℕ} (h : Consistent g t) (hi : i < g.matrixNCells - g.nIn)
    (hn : t.cellNIn i ≤ n) (hsource : n ≤ g.matrixNCells - i - 1) (hany : n ≤ AnyArity) :
    (loop (g.addIn i n) t).Sat fun t' => Linked g i t t' ∧ t'.cellNIn i = n := by
  refine Sat.loop (I := fun t' => Linked g i t t' ∧
    t'.cellNIn i ≤ n) ?_ ⟨⟨h, .refl, rfl, fun _ => id⟩, hn⟩
  rintro t₁ ⟨hlinked, hle⟩
  rw [addIn]
  split_ifs with hlt
  · refine (Sat.check (P := fun _ => True) (by omega) trivial).bind fun _ _ => ?_
    refine (Sat.randMod (by omega)).bind fun d hd => ?_
    dsimp only
    split_ifs with hm
    · have hm' : t₁.m i (d + i + 1) = false := by simpa using hm
      refine .pure ⟨fun t₂ ht => ?_, fun t₂ ht => (by cases ht)⟩
      cases ht
      refine ⟨hlinked.link hi (by omega) (by omega) hm' (by omega), ?_⟩
      rw [cellNIn_link (by omega)]
      exact hlt
    · refine .pure ⟨fun t₂ ht => ?_, fun t₂ ht => (by cases ht)⟩
      cases ht
      exact ⟨hlinked, hle⟩
  · refine .pure ⟨fun t₂ ht => (by cases ht), fun t₂ ht => ?_⟩
    cases ht
    exact ⟨hlinked, by omega⟩

theorem Consistent.sat_addInsForCell {cellTID : CellTypeID} (h : Consistent g t)
    (hi : i < g.matrixNCells - g.nIn) (hTID : t.cellIdxCellTID i = some cellTID)
    (hsuits : g.Suits lib cellTID (t.cellNIn i) (g.matrixNCells - i - 1)) :
    (g.addInsForCell lib i t).Sat fun t' => Linked g i t t' ∧ Typed lib g t' i := by
  refine (sat_neededNIn hTID hsuits).bind fun n hn => ?_
  obtain ⟨hle, hsource, hany, hfits⟩ := hn
  refine (h.sat_addIns hi hle hsource hany).weaken fun t' ht => ⟨ht.1, cellTID, ?_, ?_⟩
  · rw [ht.1.types]
    exact hTID
  · rw [ht.2]
    exact hfits

theorem Consistent.sat_setOpsLoop (hvalid : g.Valid lib) {k a : ℕ}
    (hk : a + k = g.matrixNCells - g.nIn) (h : Consistent g t) (hused : Used g.matrixNCells t)
    (htyped : ∀ i < a, Typed lib g t i) : (g.setOpsLoop lib (List.range' a k) t).Sat fun o =>
    ∀ t', o = some t' →
      Consistent g t' ∧ Used g.matrixNCells t' ∧ ∀ i < g.matrixNCells - g.nIn,
      Typed lib g t' i := by
  induction k generalizing a t with
  | zero =>
    refine .pure fun t' ht => ?_
    cases ht
    rw [← hk]
    exact ⟨h, hused, htyped⟩
  | succ k ih =>
    rw [List.range'_succ]
    refine Sat.bind (P := fun o => ∀ t₁, o = some t₁ → ∃ cellTID, t₁ = t.setTID a cellTID ∧
      g.Suits lib cellTID (t.cellNIn a) (g.matrixNCells - a - 1)) ?_ fun o ho => ?_
    · refine (hvalid.chooseCellType _ _).bind fun o ho => .pure fun t₁ ht => ?_
      obtain ⟨cellTID, rfl, rfl⟩ := Option.map_eq_some_iff.mp ht
      exact ⟨cellTID, rfl, ho cellTID rfl⟩
    · cases o with
      | none => exact .pure fun t' ht => by cases ht
      | some t₁ =>
        obtain ⟨cellTID, rfl, hsuits⟩ := ho t₁ rfl
        refine ((h.setTID (by omega)).sat_addInsForCell (by omega) (update_self _ _ _) hsuits).bind
          fun t₂ ht => ?_
        obtain ⟨hlinked, hnew⟩ := ht
        refine ih (by omega) hlinked.consistent (hlinked.used hused) fun i hi => ?_
        by_cases hia : i = a
        · rw [hia]
          exact hnew
        · exact (htyped i (by omega)).of_sameBut (sameBut_setTID.trans hlinked.same) hia

end MatrixGenerator
end UtopiaEda
