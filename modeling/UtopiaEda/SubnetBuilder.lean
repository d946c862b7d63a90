import UtopiaEda.EntryOrder
import UtopiaEda.Netlists

/-!
# The subnet builder

The state of a `SubnetBuilder` and its operations. A result `none` means that an
assertion of the source fails or that an entry outside the arrays is read. The weights,
the callbacks, the sessions and the simulation bits of the cells are left out: no modelled
operation reads them.
-/
namespace UtopiaEda

structure SubnetBuilder where
  nIn : ℕ := 0
  nOut : ℕ := 0
  nCell : ℕ := 0
  nBuf : ℕ := 0
  entries : EntryID → Entry := fun _ => .links []
  order : EntryOrder := {}
  fanouts : EntryID → List EntryID := fun _ => []
  fanoutsEnabled : Bool := false
  /-- The free entries; the next one to be reused comes first. -/
  emptyEntryIDs : List EntryID := []
  strash : StrashKey → Option EntryID := fun _ => none

namespace SubnetBuilder

/-- `entries.size()`. -/
def size (s : SubnetBuilder) : ℕ := s.order.size

def getCell (s : SubnetBuilder) (i : EntryID) : Option SubnetCell :=
  if i < s.size then match s.entries i with
    | .cell c => some c
    | .links _ => none
  else none

def setCell (s : SubnetBuilder) (i : EntryID) (c : SubnetCell) : SubnetBuilder :=
  { s with entries := Function.update s.entries i (.cell c) }

def getTypeID (s : SubnetBuilder) (i : EntryID) : CellTypeID :=
  ((s.entries i).gate.map Gate.type).getD (.soft 0)

def setFanouts (s : SubnetBuilder) (f : EntryID → List EntryID) : SubnetBuilder :=
  { s with fanouts := f }

def addFanout (s : SubnetBuilder) (sourceID fanoutID : EntryID) : Option SubnetBuilder :=
  if s.size ≤ sourceID ∨ s.size ≤ fanoutID then none
  else some (s.setFanouts (if s.fanoutsEnabled then
    Function.update s.fanouts sourceID (s.fanouts sourceID ++ [fanoutID]) else s.fanouts))

/-- Removes the first occurrence only. -/
def delFanout (s : SubnetBuilder) (sourceID fanoutID : EntryID) : Option SubnetBuilder :=
  if s.size ≤ sourceID ∨ s.size ≤ fanoutID then none
  else some (s.setFanouts (if s.fanoutsEnabled then
    Function.update s.fanouts sourceID ((s.fanouts sourceID).erase fanoutID) else s.fanouts))

def incRefCount (s : SubnetBuilder) (i : EntryID) : Option SubnetBuilder := do
  let c ← s.getCell i
  some (s.setCell i { c with refcount := c.refcount + 1 })

def decRefCount (s : SubnetBuilder) (i : EntryID) : Option SubnetBuilder := do
  let c ← s.getCell i
  if c.refcount = 0 then none else some (s.setCell i { c with refcount := c.refcount - 1 })

/-- Registers a link from the cell `user` to the cell `target`. -/
def addLink (s : SubnetBuilder) (user target : EntryID) : Option SubnetBuilder := do
  (← s.addFanout target user).incRefCount target

/-- Unregisters a link from the cell `user` to the cell `target`. -/
def delLink (s : SubnetBuilder) (user target : EntryID) : Option SubnetBuilder := do
  (← s.delFanout target user).decRefCount target

/-- `allocEntry(isBuf)`: reuses a free entry or extends the array. -/
def allocID (s : SubnetBuilder) (isBuf : Bool) : SubnetBuilder × EntryID :=
  let s := { s with nCell := s.nCell + 1, nBuf := s.nBuf + isBuf.toNat }
  match s.emptyEntryIDs with
  | i :: rest => ({ s with emptyEntryIDs := rest }, i)
  | [] => ({ s with order := { s.order with size := s.size + 1 } }, s.size)

/-- Returns the entry of the key, and whether it is new; nothing if strashing is off. -/
def strashEntry (s : SubnetBuilder) (typeID : CellTypeID) (links : List Link) :
    SubnetBuilder × Option (EntryID × Bool) :=
  if StrashKey.isEnabled typeID links then
    match s.strash (StrashKey.make typeID links) with
    | some i => (s, some (i, false))
    | none =>
      let (s, idx) := s.allocID (typeID = .BUF)
      ({ s with strash := Function.update s.strash (StrashKey.make typeID links) (some idx) },
        some (idx, true))
  else (s, none)

def destrashEntry (s : SubnetBuilder) (entryID : EntryID) : Option SubnetBuilder := do
  let cell ← s.getCell entryID
  if cell.isEnabled ∧ s.strash cell.key = some entryID then
    some { s with strash := Function.update s.strash cell.key none }
  else some s

def addNewLinks (user : EntryID) : List Link → SubnetBuilder → Option SubnetBuilder
  | [], s => some s
  | l :: ls, s => do
    let c ← s.getCell l.idx
    if c.isOut then none else addNewLinks user ls (← s.addLink user l.idx)

/-- The entries with the links that do not fit into the cell. They are chained behind
`prevEntryID`; the last entry of the depth moves along. -/
def addLinkEntries (d : ℕ) : ℕ → EntryID → List Link → SubnetBuilder → Option SubnetBuilder
  | 0, _, _, s => some s
  | n + 1, prevEntryID, links, s => do
    let idx := s.size
    let o := if (s.order.depthBounds d).2 = .entry (idx - 1) then
      s.order.setBounds d ((s.order.depthBounds d).1, .entry idx) else s.order
    let o ← { o with size := idx + 1 }.setOrder (.entry prevEntryID) (.entry idx)
    addLinkEntries d n idx (links.drop InEntryLinks)
      { s with order := o
               entries := Function.update s.entries idx (.links (links.take InEntryLinks)) }

/-- The part of `allocEntry(typeID, links)` that fills the allocated entry. -/
def fillEntry (s : SubnetBuilder) (idx : EntryID) (typeID : CellTypeID) (links : List Link) :
    Option SubnetBuilder := do
  let depth := s.order.linksDepth links
  let s ← addNewLinks idx links s
  let s := s.setCell idx ⟨typeID, links, 0⟩
  let o ← (s.order.setDepth idx (some depth)).addDepthBounds s.getTypeID idx
  let s := { s with order := o }
  if links.length ≤ InPlaceLinks then some s
  else do
    let saveNextEntryID ← s.order.getNext (.entry idx)
    let s ← addLinkEntries depth (SubnetCell.more ⟨typeID, links, 0⟩) idx
      (links.drop InPlaceLinks) s
    some { s with order := ← s.order.setOrder (.entry (s.size - 1)) saveNextEntryID }

/-- `allocEntry(typeID, links)`: the entry of the cell, an existing one if possible. -/
def allocEntry (s : SubnetBuilder) (typeID : CellTypeID) (links : List Link) :
    Option (SubnetBuilder × EntryID) :=
  let s := { s with order := { s.order with
    subnetBegin := s.order.getSubnetBegin, subnetEnd := s.order.getSubnetEnd } }
  match s.strashEntry typeID links with
  | (s, some (idx, false)) => some (s, idx)
  | (s, some (idx, true)) => (s.fillEntry idx typeID links).map (·, idx)
  | (s, none) =>
    let (s, idx) := s.allocID (typeID = .BUF)
    (s.fillEntry idx typeID links).map (·, idx)

def addCell (s : SubnetBuilder) (typeID : CellTypeID) (links : List Link) :
    Option (SubnetBuilder × Link) :=
  if typeID.isNegative ∨ (typeID = .IN ∧ links ≠ []) then none
  else do
    let (s, idx) ← s.allocEntry typeID links
    some ({ s with nIn := s.nIn + (decide (typeID = .IN)).toNat
                   nOut := s.nOut + (decide (typeID = .OUT)).toNat }, ⟨idx, 0, false⟩)

def addInput (s : SubnetBuilder) : Option (SubnetBuilder × Link) := s.addCell .IN []

def addOutput (s : SubnetBuilder) (link : Link) : Option (SubnetBuilder × Link) :=
  s.addCell .OUT [link]

def deallocEntry (s : SubnetBuilder) (entryID : EntryID) : Option SubnetBuilder := do
  let cell ← s.getCell entryID
  if cell.refcount ≠ 0 then none
  else do
    let s ← s.destrashEntry entryID
    let o ← s.order.deleteDepthBounds entryID
    some { s with order := o.setDepth entryID none
                  emptyEntryIDs := entryID :: s.emptyEntryIDs
                  nCell := s.nCell - 1
                  nBuf := s.nBuf - cell.isBuf.toNat }

def unlinkDeleted (currentID : EntryID) :
    List Link → SubnetBuilder → List EntryID → Option (SubnetBuilder × List EntryID)
  | [], s, queue => some (s, queue)
  | l :: ls, s, queue => do
    let s ← s.delLink currentID l.idx
    let inputCell ← s.getCell l.idx
    unlinkDeleted currentID ls s
      (if inputCell.refcount = 0 ∧ !inputCell.isIn then queue ++ [l.idx] else queue)

/-- One round of the loop of `deleteCell`. -/
def deleteStep (s : SubnetBuilder) (currentID : EntryID) (queue : List EntryID) :
    Option (SubnetBuilder × List EntryID) := do
  let cell ← s.getCell currentID
  if InPlaceLinks < cell.arity then none
  else do unlinkDeleted currentID cell.links (← s.deallocEntry currentID) queue

/-- The loop of `deleteCell`. -/
def deleteQueue : ℕ → SubnetBuilder → List EntryID → Option SubnetBuilder
  | _, s, [] => some s
  | 0, _, _ :: _ => none
  | n + 1, s, currentID :: queue => do
    let (s, queue) ← s.deleteStep currentID queue
    deleteQueue n s queue

def deleteCell (s : SubnetBuilder) (entryID : EntryID) : Option SubnetBuilder :=
  deleteQueue s.size s [entryID]

def addLinks (user : EntryID) : List Link → SubnetBuilder → Option SubnetBuilder
  | [], s => some s
  | l :: ls, s => do addLinks user ls (← s.addLink user l.idx)

def delLinks (user : EntryID) (delZeroRefcount : Bool) :
    List Link → SubnetBuilder → Option SubnetBuilder
  | [], s => some s
  | l :: ls, s => do
    let s ← s.delLink user l.idx
    let inputCell ← s.getCell l.idx
    if inputCell.refcount = 0 ∧ !inputCell.isIn ∧ delZeroRefcount then
      delLinks user delZeroRefcount ls (← s.deleteCell l.idx)
    else delLinks user delZeroRefcount ls s

/-- The end of `replaceCell`: the position and the depth of the new cell. -/
def reorder (s : SubnetBuilder) (entryID : EntryID) (newDepth : ℕ) (oldRootNext : Place) :
    Option SubnetBuilder :=
  if s.order.depth entryID = some newDepth then some s
  else do
    let o ← s.order.moveToDepth s.getTypeID entryID newDepth
    let o ← o.recomputeFanoutDepths s.getCell s.getTypeID entryID oldRootNext
    some { s with order := o }

/-- The part of `replaceCell` that enters the new cell in the hash table, unless an equal
cell is there. -/
def strashRoot (s : SubnetBuilder) (entryID : EntryID) (typeID : CellTypeID) (links : List Link) :
    SubnetBuilder :=
  if StrashKey.isEnabled typeID links ∧ s.strash (StrashKey.make typeID links) = none then
    { s with strash := Function.update s.strash (StrashKey.make typeID links) (some entryID) }
  else s

def replaceCell (s : SubnetBuilder) (entryID : EntryID) (typeID : CellTypeID) (links : List Link)
    (delZeroRefcount : Bool := true) : Option (SubnetBuilder × Link) := do
  let cell ← s.getCell entryID
  if ¬ (StrashKey.isEnabled typeID links ∨ (typeID = .OUT ∧ cell.type = .OUT)) then none
  else do
    let s ← s.destrashEntry entryID
    let s := { s with nBuf := s.nBuf - cell.isBuf.toNat + (decide (typeID = .BUF)).toNat }
    let oldRootNext ← s.order.getNext (.entry entryID)
    let newDepth := s.order.linksDepth links
    let s ← addLinks entryID links s
    let s ← delLinks entryID delZeroRefcount cell.links s
    let s := s.setCell entryID ⟨typeID, links, cell.refcount⟩
    let s ← (s.strashRoot entryID typeID links).reorder entryID newDepth oldRootNext
    some (s, ⟨entryID, 0, false⟩)

end SubnetBuilder

end UtopiaEda
