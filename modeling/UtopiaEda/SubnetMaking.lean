import UtopiaEda.CellTraversal

/-!
# Making a subnet

`make` hands the entries of a builder over to a subnet. If the order of the entries is not the one
of the array, or if buffers are to be deleted, the entries are first rearranged: they are visited in
their order, links get the new positions, and references are counted anew. The depths and their
bounds are left out: the builder has no entries afterwards.
-/
namespace UtopiaEda.SubnetBuilder

/-- `getLinkRef(entryID, j) = link`. If the place holds another link, it belongs to another cell;
such a write is left out. -/
def setLinkRef (s : SubnetBuilder) (entryID : EntryID) (j : ℕ) (link : Link) :
    Option SubnetBuilder := do
  let cell ← s.getCell entryID
  let s' := s.setCell entryID { cell with links := cell.links.set j link }
  if j < InPlaceLinks then some s'
  else match ← s.getLinkIndices entryID j with
    | (.entry n, k) => match s.entries (n + k / InEntryLinks) with
      | .cell _ => none
      | .links ls =>
        let entry : Entry := .links (ls.set (k % InEntryLinks) link)
        if n + k / InEntryLinks < s.size ∧ ls[k % InEntryLinks]? = cell.links[j]? then
          some { s' with entries := Function.update s'.entries (n + k / InEntryLinks) entry }
        else none
    | _ => none

/-- The loop of `relinkCell` from the link `j` on. -/
def relinkLoop (entryID : EntryID) : ℕ → List Link → SubnetBuilder → Option SubnetBuilder
  | _, [], s => some s
  | j, newLink :: newLinks, s => do
    let s ← s.delFanout (← s.getLink entryID j).idx entryID
    let s ← s.setLinkRef entryID j newLink
    relinkLoop entryID (j + 1) newLinks (← s.addFanout newLink.idx entryID)

def relinkCell (s : SubnetBuilder) (entryID : EntryID) (newLinks : List Link) :
    Option SubnetBuilder := do
  let cell ← s.getCell entryID
  if cell.arity ≠ newLinks.length then none else relinkLoop entryID 0 newLinks s

/-- The variables of `rearrangeEntries`; `isLink` counts the links in the entries to come that
belong to the last cell. -/
structure Rearrangement where
  builder : SubnetBuilder
  newEntries : List Entry := []
  relinkMapping : EntryID → Option (EntryID × Bool) := fun _ => none
  isLink : ℕ := 0

namespace Rearrangement

/-- The new link for a link of a cell. The cell it leads to gets a reference; where the mapping has
no key, that is the first one. -/
def relink (r : Rearrangement) (link : Link) : Option (Rearrangement × Link) := do
  let newLink : Link := match r.relinkMapping link.idx with
    | some (idx, inv) => ⟨idx, link.out, xor inv link.inv⟩
    | none => link
  let (newLinkIdx, inv) := (r.relinkMapping link.idx).getD (0, false)
  match ← r.newEntries[newLinkIdx]? with
  | .cell c => some ({ r with
      newEntries := r.newEntries.set newLinkIdx (.cell { c with refcount := c.refcount + 1 })
      relinkMapping := Function.update r.relinkMapping link.idx (some (newLinkIdx, inv)) }, newLink)
  | .links _ => none

def relinkAll : List Link → Rearrangement → Option (Rearrangement × List Link)
  | [], r => some (r, [])
  | link :: links, r => do
    let (r, newLink) ← r.relink link
    let (r, newLinks) ← relinkAll links r
    some (r, newLink :: newLinks)

def place (r : Rearrangement) (i : EntryID) : Rearrangement :=
  { r with relinkMapping := Function.update r.relinkMapping i (some (r.newEntries.length, false)) }

/-- Deletes a buffer: its users are led to the cell it links to. -/
def deleteBuf (r : Rearrangement) (i : EntryID) : Option Rearrangement := do
  let bufLink ← (← r.builder.getLinks i)[0]?
  let target := match r.relinkMapping bufLink.idx with
    | some (idx, inv) => (idx, xor inv bufLink.inv)
    | none => (bufLink.idx, bufLink.inv)
  some { r with
    relinkMapping := Function.update r.relinkMapping i (some target)
    builder := { r.builder with nCell := r.builder.nCell - 1, nBuf := r.builder.nBuf - 1 } }

def addLinkEntry (r : Rearrangement) (i : EntryID) : Rearrangement :=
  let r := r.place i
  { r with newEntries := r.newEntries ++ [r.builder.entries i]
           isLink := r.isLink - min InEntryLinks r.isLink }

def addCellEntry (r : Rearrangement) (i : EntryID) : Option Rearrangement := do
  let r := r.place i
  let cell ← r.builder.getCell i
  let oldLinks ← r.builder.getLinks i
  let (r, newLinks) ← relinkAll oldLinks { r with
    isLink := r.isLink + (max cell.arity InPlaceLinks - InPlaceLinks) }
  let builder ← r.builder.relinkCell i newLinks
  let cell ← builder.getCell i
  some { r with builder := builder
                newEntries := r.newEntries ++ [.cell { cell with refcount := 0 }] }

def step (deleteBufs : Bool) (r : Rearrangement) (i : EntryID) : Option Rearrangement :=
  if r.isLink ≠ 0 then some (r.addLinkEntry i)
  else do
    let cell ← r.builder.getCell i
    if deleteBufs ∧ cell.isBuf then r.deleteBuf i else r.addCellEntry i

def loop (deleteBufs : Bool) : ℕ → Place → Rearrangement → Option Rearrangement
  | _, .upperBoundID, r => some r
  | n + 1, .entry i, r => do
    let r ← r.step deleteBufs i
    loop deleteBufs n (← r.builder.order.getNext (.entry i)) r
  | _, _, _ => none

end Rearrangement

/-- `clearContext`. -/
def clearContext (s : SubnetBuilder) : SubnetBuilder :=
  { s with
    order := { s.order with subnetBegin := .normalOrderID, subnetEnd := .normalOrderID, isDisassembled := false }
    emptyEntryIDs := []
    strash := fun _ => none
    fanouts := fun _ => []
    fanoutsEnabled := false }

/-- `rearrangeEntries` without an entry mapping. No entry is visited twice. -/
def rearrangeEntries (s : SubnetBuilder) (deleteBufs : Bool) : Option SubnetBuilder := do
  let r ← Rearrangement.loop deleteBufs s.size s.order.getSubnetBegin ⟨s, [], fun _ => none, 0⟩
  some ({ r.builder with
    entries := fun i => r.newEntries.getD i (.links [])
    order := { size := r.newEntries.length } } : SubnetBuilder).clearContext

/-- The loop of `checkInputsOrder` and `checkOutputsOrder` from the entry `i` on. -/
def checkCells (s : SubnetBuilder) (p : SubnetCell → Bool) (last : ℕ) : ℕ → EntryID → Option Bool
  | 0, i => if i < last then none else some true
  | n + 1, i =>
    if i < last then do
      let cell ← s.getCell i
      if p cell then checkCells s p last n (i + cell.more + 1) else some false
    else some true

def checkInputsOrder (s : SubnetBuilder) : Option Bool := s.checkCells SubnetCell.isIn s.nIn s.nIn 0

def checkOutputsOrder (s : SubnetBuilder) : Option Bool :=
  s.checkCells SubnetCell.isOut s.size s.nOut (s.size - s.nOut)

def takeEntries (s : SubnetBuilder) : Subnet :=
  ⟨s.nIn, s.nOut, s.nCell, s.nBuf, (List.range s.size).map s.entries⟩

/-- `make` without an entry mapping. -/
def make (s : SubnetBuilder) (deleteBufs : Bool := false) : Option Subnet :=
  if s.nOut = 0 ∨ s.size = 0 then none
  else do
    let s ← (if s.order.isDisassembled ∨ deleteBufs then s.rearrangeEntries deleteBufs else some s :
      Option SubnetBuilder)
    if (← s.checkInputsOrder) ∧ (← s.checkOutputsOrder) then some s.takeEntries else none

end UtopiaEda.SubnetBuilder
