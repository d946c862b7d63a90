import UtopiaEda.Solver
import UtopiaEda.Subnet

/-!
# Encoding subnets as clauses

`SubnetEncoder` gives a variable to every output of every cell and adds the clauses of the
gates. The context and the encoder of the source share one solver, which is a field of the
context here. A cell of a type that is implemented by a subnet is encoded by encoding that
subnet in a context of its own. An assertion that fails gives `none`.
-/
namespace UtopiaEda

structure SubnetType where
  inNum : ℕ
  outNum : ℕ
  subnet : Subnet
  deriving DecidableEq, Repr

structure SubnetEncoderContext where
  solver : Solver
  /-- Behind the place of the last variable of each cell. -/
  next : List ℕ
  vars : List Variable

namespace SubnetEncoderContext

def init (subnet : Subnet) (solver : Solver) : SubnetEncoderContext :=
  ⟨solver, List.replicate subnet.size 0, []⟩

/-- The place in `vars` of the variable of an output. -/
def pos (context : SubnetEncoderContext) : EntryID → ℕ → Option ℕ
  | 0, out => if 0 < context.next.length then some out else none
  | idx + 1, out =>
    if idx + 1 < context.next.length ∧ context.next.getD idx 0 ≠ 0 then
      some (context.next.getD idx 0 + out)
    else none

def var (context : SubnetEncoderContext) (idx : EntryID) (out : ℕ) : Option Variable := do
  context.vars[← context.pos idx out]?

def lit (context : SubnetEncoderContext) (idx : EntryID) (out : ℕ) (sign : Bool) :
    Option (Literal Variable) :=
  (context.var idx out).map (makeLit · sign)

def linkLit (context : SubnetEncoderContext) (link : Link) (sign : Bool) :
    Option (Literal Variable) :=
  context.lit link.idx link.out (xor link.inv sign)

/-- Creates the variables of `k` places from `p` on. -/
def fillVars : ℕ → ℕ → SubnetEncoderContext → SubnetEncoderContext
  | 0, _, context => context
  | k + 1, p, context =>
    let (v, solver) := context.solver.newVar
    fillVars k (p + 1) { context with solver, vars := context.vars.set p v }

def setVars (context : SubnetEncoderContext) (idx : EntryID) (nOut : ℕ) :
    Option SubnetEncoderContext := do
  let p ← context.pos idx 0
  let n ← context.pos idx nOut
  let vars := context.vars ++ List.replicate (n - context.vars.length) (-1)
  some (fillVars (n - p) p { context with next := context.next.set idx n, vars })

def setVar (context : SubnetEncoderContext) (idx : EntryID) : Option SubnetEncoderContext :=
  context.setVars idx 1

def skipNextVars (context : SubnetEncoderContext) (idx : EntryID) (num : ℕ) :
    Option SubnetEncoderContext :=
  if num = 0 then some context
  else if idx + num < context.next.length then
    some { context with next := (context.next.set (idx + num) (context.next.getD idx 0)).set idx 0 }
  else none

def emit (context : SubnetEncoderContext) (f : Solver → Solver) : SubnetEncoderContext :=
  { context with solver := f context.solver }

end SubnetEncoderContext

namespace SubnetEncoder

def encodeIn (cell : SubnetCell) (idx : EntryID) (context : SubnetEncoderContext) :
    Option SubnetEncoderContext :=
  if cell.arity = 0 then context.setVar idx else none

/-- `encodeZero` and `encodeOne`. -/
def encodeConst (value : Bool) (cell : SubnetCell) (idx : EntryID)
    (context : SubnetEncoderContext) : Option SubnetEncoderContext := do
  if cell.arity = 0 then
    let context ← context.setVar idx
    let l ← context.lit idx 0 value
    some (context.emit (·.addClause [l]))
  else none

def encodeZero : SubnetCell → EntryID → SubnetEncoderContext → Option SubnetEncoderContext :=
  encodeConst false

def encodeOne : SubnetCell → EntryID → SubnetEncoderContext → Option SubnetEncoderContext :=
  encodeConst true

def encodeBuf (cell : SubnetCell) (idx : EntryID) (context : SubnetEncoderContext) :
    Option SubnetEncoderContext := do
  if cell.arity = 1 then
    let context ← context.setVar idx
    let rhs ← context.lit idx 0 true
    let lhs ← context.linkLit (← cell.links[0]?) true
    some (context.emit (Solver.encodeBuf rhs lhs))
  else none

def encodeOut : SubnetCell → EntryID → SubnetEncoderContext → Option SubnetEncoderContext :=
  encodeBuf

/-- The loop of `encodeAnd` (with the sign `true`) and `encodeOr` (with the sign `false`):
collects the clause of all links. -/
def collectLoop (sign : Bool) (idx : EntryID) :
    List Link → Clause Variable → SubnetEncoderContext → Option SubnetEncoderContext
  | [], clause, context => some (context.emit (·.addClause clause))
  | link :: links, clause, context => do
    let lhs ← context.linkLit link (!sign)
    let rhs ← context.lit idx 0 (!sign)
    let lhs' ← context.linkLit link sign
    collectLoop sign idx links (clause ++ [lhs]) (context.emit (·.addClause [rhs, lhs']))

def encodeCollected (sign : Bool) (cell : SubnetCell) (idx : EntryID)
    (context : SubnetEncoderContext) : Option SubnetEncoderContext := do
  if cell.arity = 1 then encodeBuf cell idx context
  else if cell.arity = 0 then none
  else
    let context ← context.setVar idx
    let rhs ← context.lit idx 0 sign
    collectLoop sign idx cell.links [rhs] context

def encodeAnd : SubnetCell → EntryID → SubnetEncoderContext → Option SubnetEncoderContext :=
  encodeCollected true

def encodeOr : SubnetCell → EntryID → SubnetEncoderContext → Option SubnetEncoderContext :=
  encodeCollected false

/-- The loop of `encodeXor` over the links that are left. -/
def xorLoop (rhs : Literal Variable) :
    List Link → SubnetEncoderContext → Option SubnetEncoderContext
  | [link1, link2], context => do
    let lhs1 ← context.linkLit link1 true
    let lhs2 ← context.linkLit link2 true
    some (context.emit (Solver.encodeXor rhs lhs1 lhs2))
  | link1 :: link2 :: links, context => do
    let lhs1 ← context.linkLit link1 true
    let (lhs2, solver) := context.solver.newLit
    xorLoop lhs2 (link2 :: links)
      { context with solver := Solver.encodeXor rhs lhs1 lhs2 solver }
  | _, _ => none

def encodeXor (cell : SubnetCell) (idx : EntryID) (context : SubnetEncoderContext) :
    Option SubnetEncoderContext := do
  if cell.arity = 1 then encodeBuf cell idx context
  else if cell.arity = 0 then none
  else
    let context ← context.setVar idx
    let rhs ← context.lit idx 0 true
    xorLoop rhs cell.links context

def encodeMaj (cell : SubnetCell) (idx : EntryID) (context : SubnetEncoderContext) :
    Option SubnetEncoderContext := do
  if cell.arity = 1 then encodeBuf cell idx context
  else if cell.arity = 3 then
    let context ← context.setVar idx
    let lhs1 ← context.linkLit (← cell.links[0]?) true
    let lhs2 ← context.linkLit (← cell.links[1]?) true
    let lhs3 ← context.linkLit (← cell.links[2]?) true
    let rhs ← context.lit idx 0 true
    some (context.emit (Solver.encodeMaj rhs lhs1 lhs2 lhs3))
  else none

/-- Binds the inputs `js` of the inner subnet to the links of the cell. -/
def bindInputs (cell : SubnetCell) (innerContext : SubnetEncoderContext) :
    List ℕ → SubnetEncoderContext → Option SubnetEncoderContext
  | [], context => some context
  | j :: js, context => do
    let rhs ← innerContext.lit j 0 true
    let lhs ← context.linkLit (← cell.links[j]?) true
    bindInputs cell innerContext js (context.emit (Solver.encodeBuf rhs lhs))

/-- Binds the outputs `js` of the cell to the outputs of the inner subnet from `out` on. -/
def bindOutputs (idx out : EntryID) (innerContext : SubnetEncoderContext) :
    List ℕ → SubnetEncoderContext → Option SubnetEncoderContext
  | [], context => some context
  | j :: js, context => do
    let rhs ← context.lit idx j true
    let lhs ← innerContext.lit (out + j) 0 true
    bindOutputs idx out innerContext js (context.emit (Solver.encodeBuf rhs lhs))

/-- A cell of a type with a subnet; `encode` encodes the subnet. -/
def encodeInner (encode : Subnet → Solver → Option SubnetEncoderContext) (type : SubnetType)
    (cell : SubnetCell) (idx : EntryID) (context : SubnetEncoderContext) :
    Option SubnetEncoderContext := do
  let innerSubnet := type.subnet
  if innerSubnet.nIn = type.inNum ∧ innerSubnet.nOut = type.outNum then
    let innerContext ← encode innerSubnet context.solver
    let context ← ({ context with solver := innerContext.solver } : SubnetEncoderContext).setVars
      idx type.outNum
    let context ← bindInputs cell innerContext (List.range type.inNum) context
    bindOutputs idx (innerSubnet.size - innerSubnet.nOut) innerContext (List.range type.outNum)
      context
  else none

def encodeCell (types : List SubnetType) (encode : Subnet → Solver → Option SubnetEncoderContext)
    (cell : SubnetCell) (idx : EntryID) (context : SubnetEncoderContext) :
    Option SubnetEncoderContext :=
  match cell.type with
  | .IN => encodeIn cell idx context
  | .OUT => encodeOut cell idx context
  | .ZERO => encodeZero cell idx context
  | .ONE => encodeOne cell idx context
  | .BUF => encodeBuf cell idx context
  | .AND => encodeAnd cell idx context
  | .OR => encodeOr cell idx context
  | .XOR => encodeXor cell idx context
  | .MAJ => encodeMaj cell idx context
  | .soft sid => do encodeInner encode (← types[sid]?) cell idx context
  | _ => none

/-- The loop of `encode`; `n` bounds the number of the cells that are left. -/
def encodeLoop (types : List SubnetType) (encode : Subnet → Solver → Option SubnetEncoderContext)
    (subnet : Subnet) : ℕ → EntryID → SubnetEncoderContext → Option SubnetEncoderContext
  | 0, i, context => if i < subnet.size then none else some context
  | n + 1, i, context =>
    if i < subnet.size then do
      let cell ← subnet.getCell i
      let context ← encodeCell types encode cell i context
      let context ← context.skipNextVars i cell.more
      encodeLoop types encode subnet n (i + cell.more + 1) context
    else some context

def encodeNested (types : List SubnetType) : ℕ → Subnet → Solver → Option SubnetEncoderContext
  | 0, subnet, solver =>
    encodeLoop types (fun _ _ => none) subnet subnet.size 0 (.init subnet solver)
  | d + 1, subnet, solver =>
    encodeLoop types (encodeNested types d) subnet subnet.size 0 (.init subnet solver)

/-- `encode`. The cells of a subnet have types that existed before the type of the subnet, so
the nesting is not deeper than the number of the types. -/
def encode (types : List SubnetType) (subnet : Subnet) (solver : Solver) :
    Option SubnetEncoderContext :=
  encodeNested types types.length subnet solver

end SubnetEncoder

end UtopiaEda
