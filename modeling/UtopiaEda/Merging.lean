import UtopiaEda.SubnetBuilder
import Mathlib.Data.List.Dedup
import Mathlib.Algebra.GroupWithZero.Nat

/-!
# Traversals of a builder: merging cells, enabling fanouts

`mergeCells` redirects the users of some cells to other cells and deletes the former;
`enableFanouts` fills the fanout lists. Both walk along the order of the entries, from
`begin()` on. The maps and sets of the source have no specified order, so a model of one lists
its elements in an arbitrary order.
-/
namespace UtopiaEda

def EntryOrder.walk (o : EntryOrder) : ℕ → Place → Option (List EntryID)
  | _, .upperBoundID => some []
  | n + 1, .entry i => do some (i :: (← EntryOrder.walk o n (← o.getNext (.entry i))))
  | _, _ => none

/-- The entries from `begin()` to `end()`. -/
def EntryOrder.entryIDs (o : EntryOrder) : Option (List EntryID) :=
  o.walk (o.size + 1) o.getSubnetBegin

abbrev MergeMap := List (EntryID × List EntryID)

def MergeMap.mergeTo (entryIDs : MergeMap) (i : EntryID) : Option EntryID :=
  (entryIDs.find? (fun p => i ∈ p.2)).map Prod.fst

/-- The keys of `mergeTo`. -/
def MergeMap.others (entryIDs : MergeMap) : List EntryID := (entryIDs.flatMap Prod.snd).dedup

namespace SubnetBuilder

/-- Reference count of a cell that must have one output. -/
def mergeRefcount (lib : CellLibrary) (s : SubnetBuilder) (i : EntryID) : Option ℕ := do
  let c ← s.getCell i
  if c.type.getOutNum lib = 1 then some c.refcount else none

def mergeRefcounts (lib : CellLibrary) (s : SubnetBuilder) : MergeMap → Option ℕ
  | [] => some 0
  | (entryID, otherIDs) :: rest => do
    let _ ← s.mergeRefcount lib entryID
    if entryID ∈ otherIDs then none
    else do
      let counts ← otherIDs.mapM (s.mergeRefcount lib)
      some (counts.sum + (← mergeRefcounts lib s rest))

/-- Assigns the `j`-th link of a cell. -/
def setLink (s : SubnetBuilder) (i : EntryID) (j : ℕ) (l : Link) : Option SubnetBuilder := do
  let c ← s.getCell i
  some (s.setCell i { c with links := c.links.set j l })

/-- Redirects the `j`-th link `l` of the cell `i` to the cell `remain`. The source writes the
link first; nothing in between reads it. -/
def redirectLink (s : SubnetBuilder) (i : EntryID) (j : ℕ) (l : Link) (remain : EntryID) :
    Option SubnetBuilder := do
  -- the cell leaves the fanout list of its new input, not of the old one
  let s ← s.delFanout remain i
  let s ← s.decRefCount l.idx
  let s ← s.addLink i remain
  s.setLink i j { l with idx := remain }

/-- The links of the cell `i` from the `j`-th on; `k` of them are left. -/
def redirectLinks (mergeTo : EntryID → Option EntryID) (i : EntryID) :
    ℕ → ℕ → ℕ → SubnetBuilder → Option (SubnetBuilder × ℕ)
  | 0, _, refcount, s => some (s, refcount)
  | k + 1, j, refcount, s => do
    let c ← s.getCell i
    let l ← c.links[j]?
    match mergeTo l.idx with
    | none => redirectLinks mergeTo i k (j + 1) refcount s
    | some remain => do
      let s ← s.redirectLink i j l remain
      if refcount ≤ 1 then some (s, 0) else redirectLinks mergeTo i k (j + 1) (refcount - 1) s

def skipUnmerged (o : EntryOrder) (mergeTo : EntryID → Option EntryID) : ℕ → Place → Option Place
  | _, .upperBoundID => some .upperBoundID
  | n + 1, .entry i =>
    if (mergeTo i).isSome then o.getNext (.entry i)
    else do skipUnmerged o mergeTo n (← o.getNext (.entry i))
  | _, _ => none

/-- The main loop of `mergeCells`. -/
def mergeLoop (mergeTo : EntryID → Option EntryID) :
    ℕ → ℕ → Place → SubnetBuilder → Option SubnetBuilder
  | _, 0, _, s => some s
  | _, _ + 1, .upperBoundID, s => some s
  | n + 1, refcount + 1, .entry i, s => do
    let c ← s.getCell i
    let (s, refcount) ← redirectLinks mergeTo i c.arity 0 (refcount + 1) s
    mergeLoop mergeTo n refcount (← s.order.getNext (.entry i)) s
  | _, _, _, _ => none

def deleteMerged : List EntryID → SubnetBuilder → Option SubnetBuilder
  | [], s => some s
  | other :: others, s => do
    let c ← s.getCell other
    if c.refcount = 0 then deleteMerged others (← s.deleteCell other) else none

def mergeCells (lib : CellLibrary) (s : SubnetBuilder) (entryIDs : MergeMap) :
    Option SubnetBuilder := do
  let refcount ← s.mergeRefcounts lib entryIDs
  if refcount = 0 then none
  else do
    let i ← skipUnmerged s.order entryIDs.mergeTo (s.size + 1) s.order.getSubnetBegin
    deleteMerged entryIDs.others (← mergeLoop entryIDs.mergeTo (s.size + 1) refcount i s)

def replaceWithZero (lib : CellLibrary) (s : SubnetBuilder) (entryIDs : List EntryID) :
    Option SubnetBuilder := do
  let (s, zero) ← s.addCell .ZERO []
  s.mergeCells lib [(zero.idx, entryIDs)]

def replaceWithOne (lib : CellLibrary) (s : SubnetBuilder) (entryIDs : List EntryID) :
    Option SubnetBuilder := do
  let (s, one) ← s.addCell .ONE []
  s.mergeCells lib [(one.idx, entryIDs)]

def addFanouts (user : EntryID) : List Link → SubnetBuilder → Option SubnetBuilder
  | [], s => some s
  | l :: ls, s => do addFanouts user ls (← s.addFanout l.idx user)

/-- The loop of `enableFanouts`. -/
def enableLoop : ℕ → Place → SubnetBuilder → Option SubnetBuilder
  | _, .upperBoundID, s => some s
  | _, .invalidID, s => some s
  | n + 1, .entry i, s => do
    let c ← s.getCell i
    let s ← addFanouts i c.links s
    enableLoop n (← s.order.getNext (.entry i)) s
  | _, _, _ => none

def enableFanouts (s : SubnetBuilder) : Option SubnetBuilder :=
  enableLoop (s.size + 1) s.order.getSubnetBegin { s with fanoutsEnabled := true }

end SubnetBuilder

end UtopiaEda
