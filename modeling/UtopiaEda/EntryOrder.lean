import UtopiaEda.CellTypes
import UtopiaEda.LinkedLists
import Mathlib.Logic.Function.Basic

/-!
# The topological order of a builder

The intrusive doubly linked list of a `SubnetBuilder` (`desc[i].prev`, `desc[i].next`,
`subnetBegin`, `subnetEnd`), the depths of the entries and the table `depthBounds` with
the first and the last entry of each depth. An operation is `none` where an assertion of
the source fails or an entry outside the arrays is read.
-/
namespace UtopiaEda

open Option (bind_eq_bind bind_eq_some_iff)

/-- An entry or one of the reserved identifiers at the top of the range of `EntryID`. -/
inductive Place where
  | lowerBoundID | upperBoundID | normalOrderID | invalidID
  | entry (id : EntryID)
  deriving DecidableEq, Repr

/-- `desc[i].depth + 1`. The depth of a free entry is `invalidDepth`, here `none`; its
successor wraps around to 0. -/
def incDepth : Option ℕ → ℕ
  | none => 0
  | some d => d + 1

/-- The part of the builder that keeps the order of the entries. -/
structure EntryOrder where
  /-- `entries.size()`, which is also `desc.size()`. -/
  size : ℕ := 0
  prev : EntryID → Place := fun _ => .normalOrderID
  next : EntryID → Place := fun _ => .normalOrderID
  depth : EntryID → Option ℕ := fun _ => none
  isDisassembled : Bool := false
  depthBounds : ℕ → Place × Place := fun _ => (.invalidID, .invalidID)
  subnetBegin : Place := .invalidID
  subnetEnd : Place := .invalidID

namespace EntryOrder

def getSubnetBegin (o : EntryOrder) : Place :=
  if o.subnetBegin = .normalOrderID then .entry 0 else o.subnetBegin

def getSubnetEnd (o : EntryOrder) : Place :=
  if o.subnetEnd = .normalOrderID then .entry (o.size - 1) else o.subnetEnd

def getNext (o : EntryOrder) : Place → Option Place
  | .lowerBoundID =>
    some (if o.getSubnetBegin = .invalidID then .upperBoundID else o.getSubnetBegin)
  | .entry i =>
    if o.size ≤ i then none
    else if .entry i = o.getSubnetEnd then some .upperBoundID
    else some (if o.next i = .normalOrderID then .entry (i + 1) else o.next i)
  | _ => none

def getPrev (o : EntryOrder) : Place → Option Place
  | .upperBoundID =>
    some (if o.getSubnetBegin = .invalidID then .lowerBoundID else o.getSubnetEnd)
  | .entry i =>
    if o.size ≤ i then none
    else if .entry i = o.getSubnetBegin then some .lowerBoundID
    else some (if o.prev i = .normalOrderID then .entry (i - 1) else o.prev i)
  | _ => none

def isProper : Place → Bool
  | .normalOrderID | .invalidID => false
  | _ => true

/-- Updates `subnetBegin`. -/
def moveBegin (o : EntryOrder) (firstID secondID : Place) : EntryOrder :=
  if secondID = o.getSubnetBegin ∧ firstID ≠ .lowerBoundID then { o with subnetBegin := firstID }
  else if firstID = .lowerBoundID then { o with subnetBegin := secondID }
  else o

/-- Updates `subnetEnd`. -/
def moveEnd (o : EntryOrder) (firstID secondID : Place) : EntryOrder :=
  if firstID = o.getSubnetEnd ∧ secondID ≠ .upperBoundID then { o with subnetEnd := secondID }
  else if secondID = .upperBoundID then { o with subnetEnd := firstID }
  else o

def linkPrev (o : EntryOrder) (firstID : Place) : Place → Option EntryOrder
  | .entry i => do
    if (← o.getPrev (.entry i)) = firstID then return o
    return { o with isDisassembled := true, prev := Function.update o.prev i firstID }
  | _ => some o

def linkNext (o : EntryOrder) (secondID : Place) : Place → Option EntryOrder
  | .entry i => do
    if (← o.getNext (.entry i)) = secondID then return o
    return { o with isDisassembled := true, next := Function.update o.next i secondID }
  | _ => some o

def setOrder (o : EntryOrder) (firstID secondID : Place) : Option EntryOrder :=
  if firstID = .upperBoundID ∨ secondID = .lowerBoundID then none
  else if !isProper firstID ∨ !isProper secondID then none
  else if firstID = .lowerBoundID ∧ secondID = .upperBoundID then
    some { o with subnetBegin := .invalidID, subnetEnd := .invalidID }
  else do
    let o ← linkPrev (moveEnd (moveBegin o firstID secondID) firstID secondID) firstID secondID
    linkNext o secondID firstID

def placeAfter (o : EntryOrder) (entryID pivotEntryID : Place) : Option EntryOrder :=
  if pivotEntryID = .upperBoundID then none
  else do
    let o ← o.setOrder entryID (← o.getNext pivotEntryID)
    o.setOrder pivotEntryID entryID

/-- Assigns `depthBounds[d]`. -/
def setBounds (o : EntryOrder) (d : ℕ) (b : Place × Place) : EntryOrder :=
  { o with depthBounds := Function.update o.depthBounds d b }

/-- The first part of `deleteDepthBounds`: the bounds of the depth `d` without the entry. -/
def deleteBounds (o : EntryOrder) (entryID : EntryID) (d : ℕ) : Option EntryOrder :=
  if (o.depthBounds d).1 = (o.depthBounds d).2 then some (o.setBounds d (.invalidID, .invalidID))
  else if (o.depthBounds d).1 = .entry entryID then do
    some (o.setBounds d (← o.getNext (.entry entryID), (o.depthBounds d).2))
  else if (o.depthBounds d).2 = .entry entryID then do
    some (o.setBounds d ((o.depthBounds d).1, ← o.getPrev (.entry entryID)))
  else some o

def deleteDepthBounds (o : EntryOrder) (entryID : EntryID) : Option EntryOrder := do
  let o ← o.deleteBounds entryID (← o.depth entryID)
  o.setOrder (← o.getPrev (.entry entryID)) (← o.getNext (.entry entryID))

/-- Walks back over the constants at the end of depth 0. Stepping before the first entry
reads `entries[lowerBoundID]`. -/
def skipConstants (o : EntryOrder) (type : EntryID → CellTypeID) : ℕ → Place → Option Place
  | 0, _ => none
  | n + 1, .entry i =>
    if type i = .ZERO ∨ type i = .ONE then do skipConstants o type n (← o.getPrev (.entry i))
    else some (.entry i)
  | _ + 1, _ => none

def placeInDepth (o : EntryOrder) (entryID : EntryID) (d : ℕ) (entryToPlaceAfter : Place) :
    Option EntryOrder := do
  let o ← o.placeAfter (.entry entryID) entryToPlaceAfter
  some (if (o.depthBounds d).2 = entryToPlaceAfter then
    o.setBounds d ((o.depthBounds d).1, .entry entryID) else o)

def addDepthBounds (o : EntryOrder) (type : EntryID → CellTypeID) (entryID : EntryID) :
    Option EntryOrder := do
  let d ← o.depth entryID
  if type entryID = .OUT then o.placeAfter (.entry entryID) o.getSubnetEnd
  else if (o.depthBounds d).1 = .invalidID then
    (o.setBounds d (.entry entryID, .entry entryID)).placeAfter (.entry entryID)
      (if d = 0 then .lowerBoundID else (o.depthBounds (d - 1)).2)
  else if d = 0 ∧ type entryID = .IN then do
    o.placeInDepth entryID d (← skipConstants o type (o.size + 1) (o.depthBounds d).2)
  else o.placeInDepth entryID d (o.depthBounds d).2

/-- Sets `desc[entryID].depth`. -/
def setDepth (o : EntryOrder) (entryID : EntryID) (d : Option ℕ) : EntryOrder :=
  { o with depth := Function.update o.depth entryID d }

/-- `max(getDepth(link.idx) + 1)` over the links. -/
def linksDepth (o : EntryOrder) (links : List Link) : ℕ :=
  links.foldr (fun l d => max (incDepth (o.depth l.idx)) d) 0

def moveToDepth (o : EntryOrder) (type : EntryID → CellTypeID) (entryID : EntryID) (d : ℕ) :
    Option EntryOrder := do
  let o ← o.deleteDepthBounds entryID
  (o.setDepth entryID (some d)).addDepthBounds type entryID

/-- The loop of `recomputeFanoutDepths`. Only the first entry of a cell is moved. -/
def recomputeLoop (getCell : EntryID → Option SubnetCell) (type : EntryID → CellTypeID) :
    ℕ → EntryOrder → List EntryID → ℕ → Place → Option EntryOrder
  | _, o, _, 0, _ => some o
  | n + 1, o, toRecompute, toRecomputeN + 1, .entry i =>
    if i ∈ toRecompute then do
      recomputeLoop getCell type n o toRecompute (toRecomputeN + 1) (← o.getNext (.entry i))
    else do
      let curCell ← getCell i
      let nextEntryID ← o.getNext (.entry i)
      let used := curCell.links.countP (fun l => l.idx ∈ toRecompute)
      let newDepth := o.linksDepth curCell.links
      if toRecomputeN + 1 < used then none
      else if o.depth i = some newDepth ∨ curCell.isOut then
        recomputeLoop getCell type n (o.setDepth i (some newDepth)) toRecompute
          (toRecomputeN + 1 - used) nextEntryID
      else do
        recomputeLoop getCell type n (← o.moveToDepth type i newDepth) (i :: toRecompute)
          (toRecomputeN + 1 - used + curCell.refcount) nextEntryID
  | _, _, _, _ + 1, _ => none

def recomputeFanoutDepths (o : EntryOrder) (getCell : EntryID → Option SubnetCell)
    (type : EntryID → CellTypeID) (rootEntryID : EntryID) (oldRootNextEntryID : Place) :
    Option EntryOrder := do
  let rootCell ← getCell rootEntryID
  recomputeLoop getCell type (2 * o.size) o [rootEntryID] rootCell.refcount oldRootNextEntryID

/-! The operations do not change the number of entries. -/

variable {o o' : EntryOrder} {a b p : Place} {e : EntryID}

private theorem linkPrev_size (h : linkPrev o a b = some o') : o'.size = o.size := by
  unfold linkPrev at h
  cases b with
  | entry i =>
    simp only [bind_eq_bind, bind_eq_some_iff] at h
    obtain ⟨x, -, h⟩ := h
    split at h <;> cases h <;> rfl
  | _ => cases h; rfl

private theorem linkNext_size (h : linkNext o a b = some o') : o'.size = o.size := by
  unfold linkNext at h
  cases b with
  | entry i =>
    simp only [bind_eq_bind, bind_eq_some_iff] at h
    obtain ⟨x, -, h⟩ := h
    split at h <;> cases h <;> rfl
  | _ => cases h; rfl

theorem setOrder_size (h : o.setOrder a b = some o') : o'.size = o.size := by
  have hmove : (moveEnd (moveBegin o a b) a b).size = o.size := by
    unfold moveEnd moveBegin
    repeat' split
    all_goals rfl
  unfold setOrder at h
  repeat' split at h
  · cases h
  · cases h
  · cases h
    rfl
  · simp only [bind_eq_bind, bind_eq_some_iff] at h
    obtain ⟨o₁, h₁, h₂⟩ := h
    rw [linkNext_size h₂, linkPrev_size h₁, hmove]

theorem placeAfter_size (h : o.placeAfter a b = some o') : o'.size = o.size := by
  unfold placeAfter at h
  split at h
  · cases h
  · simp only [bind_eq_bind, bind_eq_some_iff] at h
    obtain ⟨n, -, o₁, h₁, h₂⟩ := h
    rw [setOrder_size h₂, setOrder_size h₁]

theorem deleteDepthBounds_size (h : o.deleteDepthBounds e = some o') : o'.size = o.size := by
  simp only [deleteDepthBounds, bind_eq_bind, bind_eq_some_iff] at h
  obtain ⟨d, -, o₁, h₁, x, -, y, -, h₂⟩ := h
  rw [setOrder_size h₂]
  unfold deleteBounds at h₁
  split at h₁
  · cases h₁
    rfl
  · simp only [bind_eq_bind] at h₁
    split at h₁
    · obtain ⟨n, -, h₁⟩ := bind_eq_some_iff.mp h₁
      cases h₁
      rfl
    · split at h₁
      · obtain ⟨n, -, h₁⟩ := bind_eq_some_iff.mp h₁
        cases h₁
        rfl
      · cases h₁
        rfl

theorem placeInDepth_size {d : ℕ} (h : o.placeInDepth e d p = some o') : o'.size = o.size := by
  simp only [placeInDepth, bind_eq_bind, bind_eq_some_iff] at h
  obtain ⟨o₁, h₁, h₂⟩ := h
  rw [← placeAfter_size h₁]
  cases h₂
  split <;> rfl

theorem addDepthBounds_size {type : EntryID → CellTypeID}
    (h : o.addDepthBounds type e = some o') : o'.size = o.size := by
  simp only [addDepthBounds, bind_eq_bind, bind_eq_some_iff] at h
  obtain ⟨d, -, h⟩ := h
  split at h
  · exact placeAfter_size h
  · split at h
    · exact (placeAfter_size h).trans rfl
    · split at h
      · obtain ⟨q, -, h⟩ := bind_eq_some_iff.mp h
        exact placeInDepth_size h
      · exact placeInDepth_size h

theorem moveToDepth_size {type : EntryID → CellTypeID} {d : ℕ}
    (h : o.moveToDepth type e d = some o') : o'.size = o.size := by
  simp only [moveToDepth, bind_eq_bind, bind_eq_some_iff] at h
  obtain ⟨o₁, h₁, h₂⟩ := h
  exact (addDepthBounds_size h₂).trans (show o₁.size = _ from deleteDepthBounds_size h₁)

theorem recomputeLoop_size {cell : EntryID → Option SubnetCell} {type : EntryID → CellTypeID} :
    ∀ {n : ℕ} {o : EntryOrder} {S : List EntryID} {N : ℕ} {p : Place},
      recomputeLoop cell type n o S N p = some o' → o'.size = o.size := by
  intro n
  induction n with
  | zero =>
    intro o S N p h
    cases N with
    | zero => cases h; rfl
    | succ N => simp [recomputeLoop] at h
  | succ n ih =>
    intro o S N p h
    cases N with
    | zero => cases h; rfl
    | succ N =>
      cases p with
      | entry i =>
        simp only [recomputeLoop] at h
        split at h
        · simp only [bind_eq_bind, bind_eq_some_iff] at h
          obtain ⟨q, -, h⟩ := h
          exact ih h
        · simp only [bind_eq_bind, bind_eq_some_iff] at h
          obtain ⟨c, -, q, -, h⟩ := h
          repeat' split at h
          · cases h
          · exact (ih h).trans rfl
          · simp only [bind_eq_some_iff] at h
            obtain ⟨o₁, h₁, h⟩ := h
            exact (ih h).trans (moveToDepth_size h₁)
      | _ => simp [recomputeLoop] at h

theorem recomputeFanoutDepths_size {cell : EntryID → Option SubnetCell}
    {type : EntryID → CellTypeID} (h : o.recomputeFanoutDepths cell type e p = some o') :
    o'.size = o.size := by
  simp only [recomputeFanoutDepths, bind_eq_bind, bind_eq_some_iff] at h
  obtain ⟨c, -, h⟩ := h
  exact recomputeLoop_size h

/-! An order that was never disassembled is the one of the array. -/

def Assembled (o : EntryOrder) : Prop := o.isDisassembled = false → ∀ i, o.next i = .normalOrderID

theorem Assembled.congr (h : o.Assembled) (hd : o'.isDisassembled = o.isDisassembled)
    (hn : o'.next = o.next) : o'.Assembled := by
  intro h'
  rw [hn]
  exact h (hd ▸ h')

private theorem linkPrev_assembled (h : linkPrev o a b = some o') (ho : o.Assembled) :
    o'.Assembled := by
  unfold linkPrev at h
  cases b with
  | entry i =>
    simp only [bind_eq_bind, bind_eq_some_iff] at h
    obtain ⟨x, -, h⟩ := h
    split at h
    · cases h
      exact ho
    · cases h
      intro hd
      cases hd
  | _ =>
    cases h
    exact ho

private theorem linkNext_assembled (h : linkNext o a b = some o') (ho : o.Assembled) :
    o'.Assembled := by
  unfold linkNext at h
  cases b with
  | entry i =>
    simp only [bind_eq_bind, bind_eq_some_iff] at h
    obtain ⟨x, -, h⟩ := h
    split at h
    · cases h
      exact ho
    · cases h
      intro hd
      cases hd
  | _ =>
    cases h
    exact ho

theorem Assembled.setOrder (ho : o.Assembled) (h : o.setOrder a b = some o') : o'.Assembled := by
  have hmove : (moveEnd (moveBegin o a b) a b).Assembled := by
    unfold moveEnd moveBegin
    repeat' split
    all_goals exact ho
  unfold EntryOrder.setOrder at h
  repeat' split at h
  · cases h
  · cases h
  · cases h
    exact ho
  · simp only [bind_eq_bind, bind_eq_some_iff] at h
    obtain ⟨o₁, h₁, h₂⟩ := h
    exact linkNext_assembled h₂ (linkPrev_assembled h₁ hmove)

private theorem Assembled.placeAfter (ho : o.Assembled) (h : o.placeAfter a b = some o') :
    o'.Assembled := by
  unfold EntryOrder.placeAfter at h
  split at h
  · cases h
  · simp only [bind_eq_bind, bind_eq_some_iff] at h
    obtain ⟨n, -, o₁, h₁, h₂⟩ := h
    exact (ho.setOrder h₁).setOrder h₂

private theorem Assembled.placeInDepth {d : ℕ} (ho : o.Assembled)
    (h : o.placeInDepth e d p = some o') : o'.Assembled := by
  simp only [EntryOrder.placeInDepth, bind_eq_bind, bind_eq_some_iff] at h
  obtain ⟨o₁, h₁, h₂⟩ := h
  have hplace := ho.placeAfter h₁
  cases h₂
  split
  · exact hplace
  · exact hplace

theorem Assembled.addDepthBounds {type : EntryID → CellTypeID} (ho : o.Assembled)
    (h : o.addDepthBounds type e = some o') : o'.Assembled := by
  simp only [EntryOrder.addDepthBounds, bind_eq_bind, bind_eq_some_iff] at h
  obtain ⟨d, -, h⟩ := h
  split at h
  · exact ho.placeAfter h
  · split at h
    · have hset : (o.setBounds d (.entry e, .entry e)).Assembled := ho.congr rfl rfl
      exact hset.placeAfter h
    · split at h
      · obtain ⟨q, -, h⟩ := bind_eq_some_iff.mp h
        exact ho.placeInDepth h
      · exact ho.placeInDepth h

end EntryOrder

end UtopiaEda
