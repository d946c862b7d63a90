import UtopiaEda.CellTrees
import UtopiaEda.SubnetCopying

/-!
# Miters

The checkers copy two networks with common inputs into one builder, compare the outputs by `XOR`
cells and take the disjunction of the comparisons as the only output. The indices of the copied
cells pass through 16 bits.
-/
namespace UtopiaEda

namespace BaseChecker
open SubnetBuilder

abbrev IdxToLink := EntryID → Link

abbrev CellToCell := EntryID → Option EntryID

def emptyMap : IdxToLink := fun _ => ⟨0, 0, false⟩

def newLink (map : IdxToLink) (oldLink : Link) : Link :=
  ⟨(map oldLink.idx).idx, oldLink.out, oldLink.inv⟩

/-- `buildCell`, with the index as a `uint16_t`. -/
def buildCell (cell : SubnetCell) (idx : EntryID) (getLink : EntryID → ℕ → Option Link)
    (builder : SubnetBuilder) (map : IdxToLink) : Option (SubnetBuilder × IdxToLink) := do
  let idx := idx % 2 ^ 16
  let newLinks ← (List.range cell.arity).mapM (fun j => (getLink idx j).map (newLink map))
  if cell.isOut then
    some (builder, Function.update map idx (← newLinks[0]?))
  else
    let (builder, link) ← builder.addCell cell.type newLinks
    some (builder, Function.update map idx link)

/-- `getLink` of a subnet; the links that a cell keeps itself are there even if it has less. -/
def readLink (subnet : Subnet) (i : EntryID) (j : ℕ) : Option Link := do
  let cell ← subnet.getCell i
  cell.links[j]? <|> (if j < InPlaceLinks then some ⟨0, 0, false⟩ else none)

/-- The loop of `buildCells` for a subnet from the entry `i` on. -/
def buildCellsLoop (subnet : Subnet) :
    ℕ → EntryID → SubnetBuilder → IdxToLink → Option (SubnetBuilder × IdxToLink)
  | 0, i, builder, map => if i < subnet.size then none else some (builder, map)
  | n + 1, i, builder, map =>
    if i < subnet.size then do
      let cell ← subnet.getCell i
      let (builder, map) ← buildCell cell i (readLink subnet) builder map
      buildCellsLoop subnet n (i + cell.more + 1) builder map
    else some (builder, map)

/-- `buildCells` for a builder. -/
def buildCellsOf (source : SubnetBuilder) :
    List EntryID → SubnetBuilder → IdxToLink → Option (SubnetBuilder × IdxToLink)
  | [], builder, map => some (builder, map)
  | i :: is, builder, map => do
    let cell ← source.getCell i
    if cell.isIn then buildCellsOf source is builder map
    else
      let (builder, map) ← buildCell cell i source.getLink builder map
      buildCellsOf source is builder map

/-- What `makeMiter` uses of a network: `size` is `size()` of a subnet and `getCellNum()` of a
builder. -/
structure Source where
  nIn : ℕ
  nOut : ℕ
  size : ℕ
  buildCells : SubnetBuilder → IdxToLink → Option (SubnetBuilder × IdxToLink)

def Source.ofSubnet (subnet : Subnet) : Source :=
  ⟨subnet.nIn, subnet.nOut, subnet.size, buildCellsLoop subnet subnet.size subnet.nIn⟩

def Source.ofBuilder (builder : SubnetBuilder) : Source :=
  ⟨builder.nIn, builder.nOut, builder.nCell,
    fun miter map => do buildCellsOf builder (← builder.cellIDs) miter map⟩

/-- The loop over the inputs of `makeNoOutMiter`: `n` inputs are left, `i` is the next one. -/
def makeInputs (mapping : CellToCell) :
    ℕ → ℕ → SubnetBuilder → IdxToLink → IdxToLink → Option (SubnetBuilder × IdxToLink × IdxToLink)
  | 0, _, builder, map1, map2 => some (builder, map1, map2)
  | n + 1, i, builder, map1, map2 => do
    let idx2 ← mapping i
    let (builder, link) ← builder.addInput
    makeInputs mapping n (i + 1) builder (Function.update map1 i link)
      (Function.update map2 idx2 link)

/-- `makeNoOutMiter`, with the number of the outputs as a `uint16_t`. -/
def makeNoOutMiter (source1 source2 : Source) (mapping : CellToCell) :
    Option (SubnetBuilder × IdxToLink × IdxToLink × ℕ) := do
  if source2.nIn = source1.nIn ∧ source2.nOut = source1.nOut then
    let (builder, map1, map2) ← makeInputs mapping source1.nIn 0 {} emptyMap emptyMap
    let (builder, map1) ← source1.buildCells builder map1
    let (builder, map2) ← source2.buildCells builder map2
    some (builder, map1, map2, source1.nOut % 2 ^ 16)
  else none

def makeXors (size nOut : ℕ) (mapping : CellToCell) (map1 map2 : IdxToLink) :
    List ℕ → SubnetBuilder → Option (SubnetBuilder × List Link)
  | [], builder => some (builder, [])
  | i :: is, builder => do
    let idx1 := size + i - nOut
    let idx2 ← mapping idx1
    let (builder, link) ← builder.addCell .XOR [map1 idx1, map2 idx2]
    let (builder, links) ← makeXors size nOut mapping map1 map2 is builder
    some (builder, link :: links)

def makeMiterOutputs (builder : SubnetBuilder) (xors : List Link) : Option SubnetBuilder := do
  if xors.length = 1 then
    let (builder, _) ← builder.addOutput (← xors[0]?)
    some builder
  else
    let (builder, link) ← builder.addCellTree .OR xors 2
    let (builder, _) ← builder.addOutput link
    some builder

/-- `makeMiter`. -/
def makeMiter (source1 source2 : Source) (mapping : CellToCell) : Option SubnetBuilder := do
  let (builder, map1, map2, nOut) ← makeNoOutMiter source1 source2 mapping
  let (builder, xors) ← makeXors source1.size nOut mapping map1 map2 (List.range nOut) builder
  makeMiterOutputs builder xors

end BaseChecker

end UtopiaEda
