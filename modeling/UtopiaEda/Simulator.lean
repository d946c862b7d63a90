import UtopiaEda.SubnetCopying

/-!
# The simulator

A `Simulator` compiles a builder to a list of commands, which compute the 64-bit values of the
outputs of the cells from those of their links; every bit is a simulation of its own. The values
are kept in one vector, in which each cell has a range of positions.
-/
namespace UtopiaEda

abbrev DataChunk := BitVec 64

/-- `SubnetView(builder)`: the inputs, read from the begin of the order. -/
def SubnetBuilder.viewInputs (s : SubnetBuilder) : ℕ → Option Place → Option (List EntryID)
  | 0, _ => some []
  | n + 1, some (.entry i) => do
    if (← s.getCell i).isIn then some (i :: (← viewInputs s n (s.order.getNext (.entry i))))
    else none
  | _, _ => none

/-- `SubnetView(builder)`: the outputs, read backwards from the end. -/
def SubnetBuilder.viewOutputs (s : SubnetBuilder) : ℕ → Option Place → Option (List EntryID)
  | 0, _ => some []
  | n + 1, some (.entry i) => do
    if (← s.getCell i).isOut then some ((← viewOutputs s n (s.order.getPrev (.entry i))) ++ [i])
    else none
  | _, _ => none

structure Simulator where
  /-- The commands: entries with their cells. -/
  program : List (EntryID × SubnetCell)
  /-- The position of the first output of a cell. -/
  pos : EntryID → Option ℕ
  inputs : List EntryID
  outputs : List EntryID

namespace Simulator

abbrev State := ℕ → DataChunk

def stateSize (types : List SubnetType) (cell : SubnetCell) : ℕ :=
  if cell.isOut then 1 else cell.type.getOutNum (SubnetType.library types)

/-- The assertions of `getFunction` about a cell. -/
def hasFunction (types : List SubnetType) (cell : SubnetCell) : Bool :=
  match cell.type with
  | .ZERO | .ONE => cell.arity = 0
  | .OUT | .BUF | .NOT => cell.arity = 1
  | .AND | .OR | .XOR | .NAND | .NOR | .XNOR => 1 ≤ cell.arity
  | .MAJ => cell.arity % 2 = 1
  | .soft sid => match types[sid]? with
    | some type => type.subnet.nIn = cell.arity && type.subnet.nOut = type.outNum
    | none => false
  | .IN => false

/-- The loop of the constructor: commands and positions of the cells; `p` is the next position. -/
def compile (types : List SubnetType) (builder : SubnetBuilder) :
    List EntryID → ℕ → (EntryID → Option ℕ) →
      Option (List (EntryID × SubnetCell) × (EntryID → Option ℕ))
  | [], _, pos => some ([], pos)
  | i :: is, p, pos => do
    let cell ← builder.getCell i
    if cell.isIn ∨ hasFunction types cell then
      let (program, pos) ← compile types builder is (p + stateSize types cell)
        (Function.update pos i (some p))
      some (if cell.isIn then program else (i, cell) :: program, pos)
    else none

/-- `Simulator(builder)`. -/
def make (types : List SubnetType) (builder : SubnetBuilder) : Option Simulator := do
  let (program, pos) ← compile types builder (← builder.cellIDs) 0 (fun _ => none)
  some {
    program := program
    pos := pos
    inputs := ← builder.viewInputs builder.nIn (some builder.order.getSubnetBegin)
    outputs := ← builder.viewOutputs builder.nOut (builder.order.getPrev .upperBoundID) }

def value (sim : Simulator) (state : State) (l : Link) : Option DataChunk :=
  (sim.pos l.idx).map (fun p => if l.inv then ~~~ state (p + l.out) else state (p + l.out))

/-- The loops of `opAndN`, `opOrN` and `opXorN`: two links at a time, then the last one. -/
def pairLoop (f : DataChunk → DataChunk → DataChunk) : DataChunk → List DataChunk → DataChunk
  | result, x :: y :: xs => pairLoop f (f result (f x y)) xs
  | result, [x] => f result x
  | result, [] => result

/-- A gate with an associative operation: one, two, three or more links. -/
def opAssoc (f : DataChunk → DataChunk → DataChunk) (init : DataChunk) : List DataChunk → DataChunk
  | [x] => x
  | [x, y] => f x y
  | [x, y, z] => f (f x y) z
  | xs => pairLoop f init xs

def opAnd : List DataChunk → DataChunk := opAssoc (· &&& ·) (-1#64)
def opOr : List DataChunk → DataChunk := opAssoc (· ||| ·) 0#64
def opXor : List DataChunk → DataChunk := opAssoc (· ^^^ ·) 0#64

/-- The loop of `opMajN` from the bit on. The comparison yields an `int`: shifting it by 31 sets the
upper half as well. The processor takes the distance of a shift modulo the width, so an `int` is
shifted by `bit % 32` and a chunk by `bit % 64`. -/
def opMajLoop (xs : List DataChunk) : ℕ → ℕ → DataChunk → DataChunk
  | 0, _, result => result
  | n + 1, bit, result =>
    if xs.all (fun x => x >>> (bit % 64) = 0#64) then result
    else
      let weight := xs.countP (fun x => x.getLsbD (bit % 64))
      opMajLoop xs n (bit + 1)
        (result ||| ((BitVec.ofNat 32 (decide (xs.length / 2 < weight)).toNat) <<<
          (bit % 32)).signExtend 64)

def opMaj : List DataChunk → DataChunk
  | [x] => x
  | [x, y, z] => (x &&& y) ||| (x &&& z) ||| (y &&& z)
  | xs => opMajLoop xs 65 0 0#64

/-- The values of the outputs of a cell; `opCell` simulates the subnet of a cell. -/
def evalCell (types : List SubnetType) (opCell : Subnet → List DataChunk → Option (List DataChunk))
    (cell : SubnetCell) (xs : List DataChunk) : Option (List DataChunk) :=
  match cell.type with
  | .ZERO => some [0#64]
  | .ONE => some [-1#64]
  | .OUT | .BUF => (xs[0]?).map (fun x => [x])
  | .NOT => (xs[0]?).map (fun x => [~~~ x])
  | .AND => some [opAnd xs]
  | .OR => some [opOr xs]
  | .XOR => some [opXor xs]
  | .NAND => some [~~~ opAnd xs]
  | .NOR => some [~~~ opOr xs]
  | .XNOR => some [~~~ opXor xs]
  | .MAJ => some [opMaj xs]
  | .soft sid => do opCell (← types[sid]?).subnet xs
  | .IN => none

/-- `access(Link(entryID, i)) = ...`: the constructor of a link from two arguments takes the second
one for the inverter, so the values of all outputs are written to the position of the first one. -/
def write (state : State) (p : ℕ) (ys : List DataChunk) : State :=
  ys.foldl (fun state y => Function.update state p y) state

def simulate (types : List SubnetType) (opCell : Subnet → List DataChunk → Option (List DataChunk))
    (sim : Simulator) : List (EntryID × SubnetCell) → State → Option State
  | [], state => some state
  | (i, cell) :: program, state => do
    let xs ← cell.links.mapM (sim.value state)
    let ys ← evalCell types opCell cell xs
    simulate types opCell sim program (write state (← sim.pos i) ys)

def setValues (sim : Simulator) : List (EntryID × DataChunk) → State → Option State
  | [], state => some state
  | (i, x) :: values, state => do
    setValues sim values (Function.update state (← sim.pos i) x)

/-- `opCell` with a given simulation of the cells inside. -/
def simulateSubnet (types : List SubnetType)
    (opCell : Subnet → List DataChunk → Option (List DataChunk))
    (subnet : Subnet) (xs : List DataChunk) : Option (List DataChunk) := do
  let sim ← make types (← SubnetBuilder.ofSubnet types subnet)
  if xs.length < subnet.nIn then none
  else
    let state ← sim.setValues ((List.range subnet.nIn).zip xs) (fun _ => 0#64)
    let state ← simulate types opCell sim sim.program state
    (List.range subnet.nOut).mapM (fun k => do sim.value state (← subnet.getOut k))

/-- `opCell`; the cells inside a subnet have older types, so `d` bounds the nesting. -/
def opCell (types : List SubnetType) : ℕ → Subnet → List DataChunk → Option (List DataChunk)
  | 0 => simulateSubnet types (fun _ _ => none)
  | d + 1 => simulateSubnet types (opCell types d)

/-- `simulate(values)`: sets the values of the inputs and executes the commands. -/
def simulateValues (types : List SubnetType) (sim : Simulator) (values : List DataChunk)
    (state : State) : Option State := do
  if values.length = sim.inputs.length then
    simulate types (opCell types types.length) sim sim.program
      (← sim.setValues (sim.inputs.zip values) state)
  else none

def getOutput (sim : Simulator) (state : State) (i : ℕ) : Option DataChunk := do
  sim.value state ⟨← sim.outputs[i]?, 0, false⟩

end Simulator

end UtopiaEda
