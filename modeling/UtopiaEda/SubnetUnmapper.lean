import UtopiaEda.MiterConstruction

/-!
# The unmapper

`SubnetUnmapper::map` rebuilds a network cell by cell, and the cells with a subnet are replaced by
the cells inside, whatever their nesting. Where the links inside an implementation lead is
determined by the places of its cells in the implementation, not by the places that they get.
-/
namespace UtopiaEda

namespace SubnetUnmapper
open SubnetBuilder

abbrev LinkMap := Link → Option Link

/-- `emplace`: a link that is there is kept. -/
def emplace (links : LinkMap) (oldOutLink newOutLink : Link) : LinkMap :=
  if (links oldOutLink).isSome then links else Function.update links oldOutLink (some newOutLink)

/-- The new link for the link `i` of a cell. -/
def newInLink (builder : SubnetBuilder) (links : LinkMap) (entryID : EntryID) (i : ℕ) :
    Option Link := do
  let link ← builder.getLink entryID i
  let found ← links ⟨link.idx, link.out, false⟩
  some ⟨found.idx, found.out, found.inv != link.inv⟩

/-- The round of the loop for the cell `entryID`. -/
def mapCell (types : List SubnetType) (builder : SubnetBuilder) (entryID : EntryID)
    (newBuilder : SubnetBuilder) (links : LinkMap) : Option (SubnetBuilder × LinkMap) := do
  let oldCell ← builder.getCell entryID
  let newInLinks ← (List.range oldCell.arity).mapM (newInLink builder links entryID)
  let (newBuilder, newOutLinks) ←
    newBuilder.addCellRecursively types oldCell.type newInLinks (fun _ => true)
  let outNum := oldCell.type.getOutNum (SubnetType.library types)
  let links ← (List.range outNum).foldlM (fun links i => do
    some (emplace links ⟨entryID, i, false⟩ (← newOutLinks[i]?))) links
  some (newBuilder, links)

def mapCells (types : List SubnetType) (builder : SubnetBuilder) :
    List EntryID → SubnetBuilder → LinkMap → Option (SubnetBuilder × LinkMap)
  | [], newBuilder, links => some (newBuilder, links)
  | i :: is, newBuilder, links => do
    let (newBuilder, links) ← mapCell types builder i newBuilder links
    mapCells types builder is newBuilder links

def map (types : List SubnetType) (builder : SubnetBuilder) : Option SubnetBuilder := do
  let (newBuilder, _) ← mapCells types builder (← builder.cellIDs) {} (fun _ => none)
  some newBuilder

end SubnetUnmapper

end UtopiaEda
