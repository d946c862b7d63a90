import UtopiaEda.SatChecker

/-!
# The verifier

A verifier encodes a subnet once and then answers questions about its links. The clauses of a
property are stored aside under the variable of the property; a check adds them to the solver,
asks it and restores the solver from a copy. What the search leaves of the solver is the
parameter `searched`.
-/
namespace UtopiaEda

structure Property where
  formula : List (Clause Variable) := []

/-- The last two fields belong to the context in the source. -/
structure Verifier where
  context : SubnetEncoderContext
  backupSolver : Solver
  varToProp : Variable → Option Property

namespace Verifier

def init (types : List SubnetType) (subnet : Subnet) (solver : Solver) : Option Verifier :=
  (SubnetEncoder.encode types subnet solver).map fun context =>
    ⟨context, { solver with varNum := 0, clauses := [] }, fun _ => none⟩

def createNewProp (v : Verifier) (p : Variable) (prop : Property) : Verifier :=
  { v with varToProp := Function.update v.varToProp p (some prop) }

def getProp (v : Verifier) (p : Variable) : Option Property := v.varToProp p

def createBackup (v : Verifier) : Verifier := { v with backupSolver := v.context.solver }

def backup (v : Verifier) : Verifier :=
  { v with context := { v.context with solver := v.backupSolver } }

def newVar (v : Verifier) : Variable × Verifier :=
  (v.context.solver.newVar.1,
    { v with context := { v.context with solver := v.context.solver.newVar.2 } })

/-- `encodeEqual` for a link and a constant. -/
def makeEqualtyConst (v : Verifier) (lhs : Link) (rhs : Bool) : Option (Variable × Verifier) := do
  let (p, v) := v.newVar
  let lit1 ← v.context.linkLit lhs rhs
  let lit2 := makeLit p true
  some (p, v.createNewProp p ⟨[[lit1, lit2.not], [lit1.not, lit2]]⟩)

/-- `encodeEqual` for two links. -/
def makeEqualty (v : Verifier) (lhs rhs : Link) : Option (Variable × Verifier) := do
  let (p, v) := v.newVar
  let lit1 ← v.context.linkLit lhs true
  let lit2 ← v.context.linkLit rhs true
  let lit3 := makeLit p true
  some (p, v.createNewProp p ⟨[[lit1, lit2, lit3], [lit1, lit2.not, lit3.not],
    [lit1.not, lit2, lit3.not], [lit1.not, lit2.not, lit3]]⟩)

def addProperty (v : Verifier) (prop : Variable) (inv : Bool) : Option Verifier := do
  let propFormula := (← v.getProp prop).formula
  let solver := (propFormula.foldl Solver.addClause v.context.solver).addClause [makeLit prop !inv]
  some { v with context := { v.context with solver } }

section Checks

variable (ask : Decision) (searched : Solver → Solver)

/-- `Solver::solve`. -/
def solve (v : Verifier) : Bool × Verifier :=
  ((ask v.context.solver.clauses).isSome,
    { v with context := { v.context with solver := searched v.context.solver } })

def checkAlways (v : Verifier) (prop : Variable) (invProp : Bool) : Option (Bool × Verifier) := do
  let v ← v.createBackup.addProperty prop !invProp
  let (sat, v) := v.solve ask searched
  some (!sat, v.backup)

def checkEventually (v : Verifier) (prop : Variable) (invProp : Bool) :
    Option (Bool × Verifier) := do
  let v ← v.createBackup.addProperty prop invProp
  let (sat, v) := v.solve ask searched
  some (sat, v.backup)

end Checks

end Verifier

end UtopiaEda
