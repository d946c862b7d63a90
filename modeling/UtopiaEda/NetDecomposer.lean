import UtopiaEda.LinkRelabelling
import UtopiaEda.SubnetAddition
import UtopiaEda.SubnetMaking

/-!
# Decomposition of a net into subnets

A depth-first search from the primary outputs and the inputs of the flip-flops and blocks collects
the components of the combinational cells; a search that meets cells of earlier components merges
with them. Each component becomes a subnet. Hash sets of links are lists in an arbitrary order,
which the sets are enumerated in by a parameter.
-/
namespace UtopiaEda

/-- The symbols by what is asked about them: the gates without memory (`IN` and `OUT` among them),
the three families of pinouts, and everything else. -/
inductive NetSymbol where
  | gate (typeID : CellTypeID)
  | dff | dlatch | latchRs
  | block
deriving DecidableEq

/-- Cell/soft flags: hard blocks have none, gates have both. -/
structure CellProperties where
  cell : Bool
  soft : Bool
  combinational : Bool
  negative : Bool
deriving DecidableEq

structure NetCellType where
  symbol : NetSymbol
  props : CellProperties
  nOut : ℕ
  /-- The implementation, where it is a subnet. -/
  subnet : Option Subnet := none

namespace NetCellType
variable (type : NetCellType)

def isGate : Bool := type.props.cell && type.props.soft

def isSoft : Bool := !type.props.cell && type.props.soft

def isHard : Bool := !type.props.cell && !type.props.soft

def isCombinational : Bool := type.props.combinational

def isSeqGate : Bool := type.isGate && !type.isCombinational

def isIn : Bool := type.symbol = .gate .IN

def isOut : Bool := type.symbol = .gate .OUT

def isSubnet : Bool := type.subnet.isSome

/-- A row of the table of standard cell types; `IN` and `OUT` are not combinational there. -/
def standard (typeID : CellTypeID) : NetCellType where
  symbol := .gate typeID
  props := ⟨true, true, decide (typeID ≠ .IN ∧ typeID ≠ .OUT), typeID.isNegative⟩
  nOut := if typeID = .OUT then 0 else 1

end NetCellType

structure NetCell where
  type : NetCellType
  links : List LinkEnd

/-- A net without its interface to other nets; `cells` is the storage of cells. -/
structure Net where
  cells : ℕ → Option NetCell
  inputs : List ℕ
  outputs : List ℕ
  flipFlops : List ℕ
  softBlocks : List ℕ
  hardBlocks : List ℕ

namespace NetDecomposer

inductive SignalType where
  | DATA | CLOCK | RESET | SET | ENABLE
deriving DecidableEq

def getSignalType (type : NetCellType) (j : ℕ) : Option SignalType :=
  if type.isIn ∨ type.isOut then some .DATA
  else match type.symbol with
    | .dff => [SignalType.DATA, .CLOCK, .RESET, .SET][j]?
    | .dlatch => [SignalType.DATA, .ENABLE, .RESET, .SET][j]?
    | .latchRs => [SignalType.RESET, .SET][j]?
    | _ => some .DATA

def OBJ_NULL_ID : ℕ := 2 ^ 64 - 1

def makeInputLink (link : NetLink) : NetLink := ⟨link.source, ⟨OBJ_NULL_ID, 0⟩⟩

def isInputType (type : NetCellType) : Bool :=
  type.isIn || type.isSeqGate || type.isHard || (type.isSoft && !type.isSubnet)

def isInputLink (net : Net) (link : NetLink) : Option Bool := do
  some (isInputType (← net.cells link.source.cellID).type)

abbrev LinkDescVec := List (NetLink × SignalType)

/-- The loop of `fillLinks`. Its counter has 16 bits: if it has not ended after as many steps, it
never ends. -/
def fillLinksLoop (cellID : ℕ) (cell : NetCell) (desc : Option SignalType) :
    ℕ → ℕ → Option LinkDescVec
  | 0, _ => none
  | n + 1, j =>
    if j = cell.links.length then some []
    else do
      let signalType ← if cell.type.isSeqGate ∧ desc = none then getSignalType cell.type j else
        some (desc.getD .DATA)
      let link ← cell.links[j]?
      let rest ← fillLinksLoop cellID cell desc n ((j + 1) % 2 ^ 16)
      some ((⟨link, ⟨cellID, j⟩⟩, signalType) :: rest)

/-- `fillLinks` for a cell. -/
def getLinks (net : Net) (cellID : ℕ) (desc : Option SignalType) : Option LinkDescVec := do
  fillLinksLoop cellID (← net.cells cellID) desc (2 ^ 16 + 1) 0

/-- `fillLinks` for a list of cells; soft blocks with a subnet are skipped. -/
def fillLinks (net : Net) (desc : Option SignalType) : List ℕ → Option LinkDescVec
  | [] => some []
  | cellID :: cells => do
    let cell ← net.cells cellID
    let links ← if cell.type.isSoft ∧ cell.type.isSubnet then some [] else getLinks net cellID desc
    some (links ++ (← fillLinks net desc cells))

def extractOutputs (net : Net) : Option LinkDescVec := do
  some ((← fillLinks net none net.outputs) ++ (← fillLinks net none net.flipFlops) ++
    (← fillLinks net none net.softBlocks) ++ (← fillLinks net none net.hardBlocks))

structure NetComponent where
  inputs : List NetLink := []
  inputsDesc : NetLink → Option SignalType := fun _ => none
  inners : List ℕ := []
  outputs : List NetLink := []
  outputsDesc : NetLink → Option SignalType := fun _ => none

def NetComponent.merge (component rhs : NetComponent) : NetComponent where
  inputs := rhs.inputs ∪ component.inputs
  inputsDesc link := (component.inputsDesc link).or (rhs.inputsDesc link)
  inners := component.inners ++ rhs.inners
  outputs := rhs.outputs ∪ component.outputs
  outputsDesc link := (component.outputsDesc link).or (rhs.outputsDesc link)

structure NetTraversalEntry where
  cellID : Option ℕ
  linkDesc : LinkDescVec
  linkIndex : ℕ := 0

structure NetTraversalContext where
  components : List NetComponent := []
  /-- Maps cells to components. -/
  belongsTo : ℕ → Option ℕ := fun _ => none
  /-- Components to be merged with the current one, in increasing order. -/
  merging : List ℕ := []
  component : NetComponent := {}
  componentCells : List ℕ := []
  /-- The top entry first. -/
  stack : List NetTraversalEntry

namespace NetTraversalContext

def make (net : Net) : Option NetTraversalContext := do
  let outputs ← extractOutputs net
  some { stack := if outputs ≠ [] then [⟨none, outputs, 0⟩] else [] }

def push (net : Net) (context : NetTraversalContext) (cellID : ℕ) (desc : SignalType) :
    Option NetTraversalContext :=
  match context.belongsTo cellID with
  | some i => some { context with merging :=
      if i ∈ context.merging then context.merging else context.merging.orderedInsert (· ≤ ·) i }
  | none =>
    if cellID ∈ context.componentCells then some context
    else do
      let links ← getLinks net cellID (some desc)
      some { context with componentCells := cellID :: context.componentCells
                          stack := ⟨some cellID, links, 0⟩ :: context.stack }

def addInput (context : NetTraversalContext) (link : NetLink) (linkDesc : SignalType) :
    NetTraversalContext :=
  { context with component := { context.component with
      inputs := context.component.inputs.insert link
      inputsDesc := Function.update context.component.inputsDesc link (some linkDesc) } }

def addInner (context : NetTraversalContext) (cellID : ℕ) : NetTraversalContext :=
  { context with component := { context.component with
    inners := context.component.inners ++ [cellID] } }

def addOutput (context : NetTraversalContext) (link : NetLink) (linkDesc : SignalType) :
    NetTraversalContext :=
  { context with component := { context.component with
      outputs := context.component.outputs.insert link
      outputsDesc := Function.update context.component.outputsDesc link (some linkDesc) } }

/-- The loop `belongsTo[cellID] = index`. -/
def assign (belongsTo : ℕ → Option ℕ) (cells : List ℕ) (index : ℕ) : ℕ → Option ℕ :=
  fun cellID => if cellID ∈ cells then some index else belongsTo cellID

/-- The loop of `mergeComponents`: the other components of the list are merged into the one at
`index`. -/
def mergeComponents (index : ℕ) : List ℕ → NetTraversalContext → Option NetTraversalContext
  | [], context => some context
  | i :: merging, context =>
    if i = index then mergeComponents index merging context
    else do
      let root ← context.components[index]?
      let next ← context.components[i]?
      mergeComponents index merging { context with
        components := (context.components.set index (root.merge next)).set i {}
        belongsTo := assign context.belongsTo next.inners index }

/-- The component goes to the end of the list, or to the first one of those that it depends on. -/
def storeComponent (context : NetTraversalContext) : Option NetTraversalContext :=
  match context.merging with
  | [] => some { context with components := context.components ++ [context.component] }
  | index :: _ => do
    let merged ← mergeComponents index context.merging context
    let root ← merged.components[index]?
    some { merged with components := merged.components.set index (root.merge context.component) }

/-- Adds the previously constructed component to the list. -/
def makeComponent (context : NetTraversalContext) : Option NetTraversalContext := do
  let stored ← context.storeComponent
  let index := context.merging.headD context.components.length
  some { stored with belongsTo := assign stored.belongsTo context.component.inners index
                     merging := []
                     component := {}
                     componentCells := [] }

def addEnds (context : NetTraversalContext) (isOutput isInput : Bool) (link : NetLink)
    (linkDesc : SignalType) : NetTraversalContext :=
  let context := if isOutput then context.addOutput link linkDesc else context
  if isInput then context.addInput (makeInputLink link) linkDesc else context

def visitLink (net : Net) (context : NetTraversalContext) (entry : NetTraversalEntry)
    (stack : List NetTraversalEntry) (link : NetLink) (linkDesc : SignalType) :
    Option NetTraversalContext := do
  let isInput ← isInputLink net link
  let context := { context.addEnds (entry.cellID = none) isInput link linkDesc with
    stack := { entry with linkIndex := entry.linkIndex + 1 } :: stack }
  if isInput then some context else context.push net link.source.cellID linkDesc

def closeComponent (context : NetTraversalContext) (entry : NetTraversalEntry) :
    Option NetTraversalContext :=
  if entry.cellID = none ∧ 0 < entry.linkIndex then context.makeComponent else some context

/-- The body of the loop; `break` leaves it with an empty stack. -/
def iterate (net : Net) (context : NetTraversalContext) (entry : NetTraversalEntry)
    (stack : List NetTraversalEntry) : Option NetTraversalContext := do
  let context ← context.closeComponent entry
  match entry.linkDesc[entry.linkIndex]? with
  | some (link, linkDesc) => context.visitLink net entry stack link linkDesc
  | none =>
    if entry.cellID = none ∧ 0 < entry.linkIndex then some { context with stack := [] }
    else do some { context.addInner (← entry.cellID) with stack := stack }

/-- The loop of `extractComponents`, at most as many times as the fuel. -/
def run (net : Net) : ℕ → NetTraversalContext → Option (List NetComponent)
  | 0, _ => none
  | fuel + 1, context => match context.stack with
    | [] => some context.components
    | entry :: stack => do run net fuel (← context.iterate net entry stack)

end NetTraversalContext

def extractComponents (net : Net) (fuel : ℕ) : Option (List NetComponent) := do
  NetTraversalContext.run net fuel (← NetTraversalContext.make net)

/-! ### Subnets of components -/

structure EntryDesc where
  connectionDesc : SignalType
  flipFlop : Bool
  flipFlopID : ℕ

abbrev EntryToDesc := EntryID → Option EntryDesc

structure SubnetDesc where
  subnet : Subnet
  mapping : CellMapping
  entryToDesc : EntryToDesc

def makeEntryDesc (net : Net) (cellID : ℕ) (connectionDesc : SignalType) : Option EntryDesc := do
  if (← net.cells cellID).type.isCombinational then some ⟨connectionDesc, false, 2 ^ 64 - 1⟩
  else some ⟨connectionDesc, true, cellID⟩

abbrev CellMap := ℕ → Option (List Link)

def makeLink (inners : CellMap) (inputs : LinkMap) (source : LinkEnd) : Option Link :=
  match inners source.cellID with
  | some links => links[source.port]?
  | none => do some ⟨← inputs.lookup (makeInputLink ⟨source, source⟩), 0, false⟩

def getNegSymbol : CellTypeID → Option CellTypeID
  | .ZERO => some .ONE
  | .ONE => some .ZERO
  | .BUF => some .NOT
  | .NOT => some .BUF
  | .AND => some .NAND
  | .OR => some .NOR
  | .XOR => some .XNOR
  | .NAND => some .AND
  | .NOR => some .OR
  | .XNOR => some .XOR
  | _ => none

def addInputsLoop (net : Net) (component : NetComponent) :
    List NetLink → SubnetBuilder → LinkMap → EntryToDesc →
    Option (SubnetBuilder × LinkMap × EntryToDesc)
  | [], builder, inputs, entryToDesc => some (builder, inputs, entryToDesc)
  | input :: rest, builder, inputs, entryToDesc => do
    let (builder, link) ← builder.addInput
    let desc ← makeEntryDesc net input.source.cellID (← component.inputsDesc input)
    addInputsLoop net component rest builder (inputs.insertNew (makeInputLink input) link.idx)
      (Function.update entryToDesc link.idx (some desc))

def addGate (builder : SubnetBuilder) (symbol : NetSymbol) (neg : Bool) (ilinks : List Link) :
    Option (SubnetBuilder × Link) :=
  match symbol with
  | .gate .BUF | .gate .NOT => do some (builder, ← ilinks[0]?)
  | .gate typeID => do builder.addCell (← if neg then getNegSymbol typeID else some typeID) ilinks
  | _ => none

def addInnerCell (types : List SubnetType) (builder : SubnetBuilder) (type : NetCellType)
    (ilinks : List Link) : Option (SubnetBuilder × List Link) :=
  if type.isSoft then do builder.addSubnet types (← type.subnet) ilinks
  else do
    let neg := type.props.negative
    let (builder, olink) ← addGate builder type.symbol neg ilinks
    some (builder, [if neg then olink.not else olink])

/-- The loop over the component inner cells; `emplace` keeps what is there already. -/
def addInnersLoop (net : Net) (types : List SubnetType) (inputs : LinkMap) :
    List ℕ → SubnetBuilder → CellMap → Option (SubnetBuilder × CellMap)
  | [], builder, inners => some (builder, inners)
  | inner :: rest, builder, inners => do
    let cell ← net.cells inner
    let ilinks ← cell.links.mapM (makeLink inners inputs)
    let (builder, olinks) ← addInnerCell types builder cell.type ilinks
    addInnersLoop net types inputs rest builder
      (if (inners inner).isSome then inners else Function.update inners inner (some olinks))

def addOutputsLoop (net : Net) (component : NetComponent) (inners : CellMap) (inputs : LinkMap) :
    List NetLink → SubnetBuilder → LinkMap → EntryToDesc →
    Option (SubnetBuilder × LinkMap × EntryToDesc)
  | [], builder, outputs, entryToDesc => some (builder, outputs, entryToDesc)
  | output :: rest, builder, outputs, entryToDesc => do
    let (builder, olink) ← builder.addOutput (← makeLink inners inputs output.source)
    let desc ← makeEntryDesc net output.target.cellID (← component.outputsDesc output)
    addOutputsLoop net component inners inputs rest builder (outputs.insertNew output olink.idx)
      (Function.update entryToDesc olink.idx (some desc))

/-- `makeSubnet`; `order` is the order in which a set of links is enumerated. -/
def makeSubnet (net : Net) (types : List SubnetType) (order : List NetLink → List NetLink)
    (component : NetComponent) : Option SubnetDesc := do
  let (builder, inputs, entryToDesc) ← addInputsLoop net component (order component.inputs)
    {} ∅ fun _ => none
  let (builder, inners) ← addInnersLoop net types inputs component.inners builder fun _ => none
  let (builder, outputs, entryToDesc) ←
    addOutputsLoop net component inners inputs (order component.outputs) builder ∅ entryToDesc
  let subnet ← builder.make
  some ⟨subnet, ⟨subnet.size, inputs, outputs⟩, entryToDesc⟩

structure Result where
  inputs : List ℕ
  outputs : List ℕ
  subnets : List SubnetDesc

/-- `decompose`; the components that were merged into others are empty. -/
def decompose (net : Net) (types : List SubnetType) (order : List NetLink → List NetLink)
    (fuel : ℕ) : Option Result := do
  let components ← extractComponents net fuel
  let subnets ← (components.filter fun component => component.outputs ≠ []).mapM
    (makeSubnet net types order)
  some ⟨net.inputs, net.outputs, subnets⟩

end NetDecomposer

end UtopiaEda
