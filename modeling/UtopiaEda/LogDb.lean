import UtopiaEda.DelimitedLists
import UtopiaEda.NpnDatabase

/-!
# The text of a logic database

`NetPrinterLogDb` prints a line for every cell: the name of the type and the links, with the entries
that they lead to as numbers. `LogDbTranslator` adds the cells of the lines to a builder and pushes
the subnet when it reads an empty line. Other types than the standard gates are not known by the
translator here.
-/
namespace UtopiaEda

def CellTypeID.getName (names : ℕ → List Char) : CellTypeID → List Char
  | .IN => ['i', 'n']
  | .OUT => ['o', 'u', 't']
  | .ZERO => ['z', 'e', 'r', 'o']
  | .ONE => ['o', 'n', 'e']
  | .BUF => ['b', 'u', 'f']
  | .NOT => ['n', 'o', 't']
  | .AND => ['a', 'n', 'd']
  | .OR => ['o', 'r']
  | .XOR => ['x', 'o', 'r']
  | .NAND => ['n', 'a', 'n', 'd']
  | .NOR => ['n', 'o', 'r']
  | .XNOR => ['x', 'n', 'o', 'r']
  | .MAJ => ['m', 'a', 'j']
  | .soft sid => names sid

def gates : List CellTypeID :=
  [.IN, .OUT, .ZERO, .ONE, .BUF, .NOT, .AND, .OR, .XOR, .NAND, .NOR, .XNOR, .MAJ]

def getSymbol (typeName : List Char) : Option CellTypeID :=
  gates.find? (fun t => t.getName (fun _ => []) = typeName)

namespace NetPrinterLogDb

def onLink (link : Link) : List Char :=
  (if link.inv then ['~'] else []) ++ Nat.toDigits 10 link.idx ++
    if link.out = 0 then [] else '.' :: Nat.toDigits 10 link.out

def onCell (names : ℕ → List Char) (cell : SubnetCell) : List Char :=
  cell.type.getName names ++ cell.links.flatMap (fun link => ' ' :: onLink link) ++ ['\n']

/-- `NetPrinter::visitCells`. -/
def visitCells (names : ℕ → List Char) (subnet : Subnet) : ℕ → EntryID → Option (List Char)
  | 0, _ => some []
  | m + 1, i =>
    if i < subnet.size then do
      let cell ← subnet.getCell i
      let text ← visitCells names subnet m (i + cell.more + 1)
      some (onCell names cell ++ text)
    else some []

def print (names : ℕ → List Char) (subnet : Subnet) : Option (List Char) :=
  visitCells names subnet subnet.size 0

end NetPrinterLogDb

/-- The loop of `NpnDatabase::exportTo` over subnets: every one is followed by an empty line. -/
def exportSubnets (names : ℕ → List Char) : List Subnet → Option (List Char)
  | [] => some []
  | subnet :: subnets => do
    let text ← NetPrinterLogDb.print names subnet
    let texts ← exportSubnets names subnets
    some (text ++ '\n' :: texts)

def NpnDatabase.exportTo (names : ℕ → List Char) (db : NpnDatabase) : Option (List Char) :=
  exportSubnets names (db.storage.flatMap Prod.snd)

namespace LogDbTranslator

def isspace (c : Char) : Bool := c = ' ' ∨ 9 ≤ c.toNat ∧ c.toNat ≤ 13

/-- `std::stoul` in base ten: spaces, a sign, digits, and anything behind them. -/
def stoul (s : List Char) : Option ℕ :=
  let unsigned (s : List Char) : Option ℕ :=
    let digits := s.takeWhile Char.isDigit
    let value := Nat.ofDigitChars 10 digits 0
    if digits = [] ∨ 2 ^ 64 ≤ value then none else some value
  match s.dropWhile isspace with
  | '-' :: s => (unsigned s).map (fun value => (2 ^ 64 - value) % 2 ^ 64)
  | '+' :: s => unsigned s
  | s => unsigned s

/-- The body of the loop of `parseLine`. -/
def parseLink (buf : List Char) : Option Link := do
  let front ← buf.head?
  let start := if front = '~' then 1 else 0
  let pointPos := buf.idxOf '.'
  let idx ← stoul ((buf.drop start).take (pointPos - start))
  let out ← (if '.' ∈ buf then stoul (buf.drop (pointPos + 1)) else some 0 : Option ℕ)
  some ⟨idx, out, front = '~'⟩

def parseLine (builder : SubnetBuilder) (line : List Char) : Option SubnetBuilder :=
  match pieces ' ' line with
  | [] => none
  | buf :: bufs => do
    let symbol ← getSymbol buf
    let cellLinks ← bufs.mapM parseLink
    (builder.addCell symbol cellLinks).map Prod.fst

variable (canonize : ExactNpnCanonization) (lib : CellLibrary)

/-- The body of the loop of `translate`. -/
def translateLine : NpnDatabase × SubnetBuilder → List Char → Option (NpnDatabase × SubnetBuilder)
  | (db, builder), [] => do
    let subnet ← builder.make
    let db ← db.push canonize lib subnet
    some (db, {})
  | (db, builder), line => (parseLine builder line).map (db, ·)

def translate (text : List Char) : Option NpnDatabase :=
  ((pieces '\n' text).foldlM (translateLine canonize lib) ({}, {})).map Prod.fst

end LogDbTranslator

end UtopiaEda
