import UtopiaEda.SubnetBuilder
import UtopiaEda.Subnet

/-!
# Replacing a fragment of the network

`SubnetBuilder::replace` for a right-hand side given as a subnet. The map `rhsToLhs` sends
the entries of the right-hand side to entries of the builder; reading it at a missing entry
gives 0, as `operator[]` does.
-/
namespace UtopiaEda

structure InOutMapping where
  inputs : List Link
  outputs : List Link
  deriving DecidableEq, Repr

/-- Maps the inputs and the outputs of `rhs`; only the entries of the links are used. -/
def fillMapping (rhs : Subnet) (iomapping : InOutMapping) : Option (EntryID → EntryID) :=
  if rhs.nIn = iomapping.inputs.length ∧ rhs.nOut = iomapping.outputs.length then
    some (fun i =>
      if rhs.size - rhs.nOut ≤ i then
        ((iomapping.outputs.map Link.idx)[i - (rhs.size - rhs.nOut)]?).getD 0
      else ((iomapping.inputs.map Link.idx)[i]?).getD 0)
  else none

namespace SubnetBuilder

structure Replacing where
  builder : SubnetBuilder
  rhsToLhs : EntryID → EntryID
  /-- `rootStrashIt != strash.end()`. -/
  rootFound : Bool := false

/-- The links of a cell of `rhs` in the builder. -/
def Replacing.mapLinks (st : Replacing) (links : List Link) : List Link :=
  links.map (fun l => { l with idx := st.rhsToLhs l.idx })

/-- One round of the loop of `replace`: the driver of the output takes the place of the
root, unless the table has such a cell; the other cells are added. -/
def replaceStep (rootID : EntryID) (rootIsOut : Bool) (rhsOutLink : Link) (i : EntryID)
    (rhsCell : SubnetCell) (st : Replacing) : Option Replacing :=
  let curCellLinks := st.mapLinks rhsCell.links
  let isRoot := rhsOutLink.idx = i ∧ rhsOutLink.inv = false
  let found := if isRoot ∧ rootIsOut = false then
    (st.builder.strash (StrashKey.make rhsCell.type curCellLinks)).isSome else st.rootFound
  if InPlaceLinks < rhsCell.arity then none
  else if isRoot ∧ (rootIsOut ∨ found = false) then do
    let (builder, newLink) ← st.builder.replaceCell rootID rhsCell.type curCellLinks
    some ⟨builder, Function.update st.rhsToLhs i newLink.idx, found⟩
  else do
    let (builder, newLink) ← st.builder.addCell rhsCell.type curCellLinks
    some ⟨builder, Function.update st.rhsToLhs i newLink.idx, found⟩

/-- The loop of `replace` over the entries of `rhs` behind its inputs. -/
def replaceLoop (rhs : Subnet) (rootID : EntryID) (rootIsOut : Bool) (rhsOutLink : Link) :
    List EntryID → Replacing → Option Replacing
  | [], st => some st
  | i :: ids, st =>
    (rhs.getCell i).bind fun rhsCell =>
      if rhsCell.isOut ∧ rootIsOut = false then some st
      else (replaceStep rootID rootIsOut rhsOutLink i rhsCell st).bind
        (replaceLoop rhs rootID rootIsOut rhsOutLink ids)

/-- The extra buffer at the end of `replace`, for an inverted output, an output that is an
input of `rhs`, and a driver that was found in the hash table. -/
def addBuf (rhs : Subnet) (rootID : EntryID) (rhsOutLink : Link) (st : Replacing) :
    Option SubnetBuilder :=
  if (rhsOutLink.idx < rhs.nIn ∧ st.rhsToLhs 0 ≠ rootID) ∨ rhsOutLink.inv = true ∨
      st.rootFound = true then
    (st.builder.replaceCell rootID .BUF
      [⟨st.rhsToLhs rhsOutLink.idx, rhsOutLink.out, rhsOutLink.inv⟩]).map Prod.fst
  else some st.builder

/-- The link that drives the replaced cell; an output is replaced by the output of `rhs`. -/
def rhsOutLink (rhs : Subnet) (rootIsOut : Bool) : Option Link :=
  if rootIsOut then some ⟨rhs.size - 1, 0, false⟩ else rhs.getLink (rhs.size - 1) 0

def destrashRoot (s : SubnetBuilder) (rhsToLhs : EntryID → EntryID) (rootID : EntryID) :
    Option SubnetBuilder :=
  if rhsToLhs 0 ≠ rootID then s.destrashEntry rootID else some s

def replace (s : SubnetBuilder) (rhs : Subnet) (iomapping : InOutMapping) :
    Option SubnetBuilder :=
  if iomapping.outputs.length ≠ 1 then none
  else do
    let rhsToLhs ← fillMapping rhs iomapping
    let rhsOutEntryID := rhs.size - 1
    let rootID := rhsToLhs rhsOutEntryID
    let rootCell ← s.getCell rootID
    let rhsOutLink ← rhsOutLink rhs rootCell.isOut
    let s ← s.destrashRoot rhsToLhs rootID
    let st ← replaceLoop rhs rootID rootCell.isOut rhsOutLink
      (List.range' rhs.nIn (rhs.size - rhs.nIn)) ⟨s, rhsToLhs, false⟩
    addBuf rhs rootID rhsOutLink st

end SubnetBuilder

end UtopiaEda
