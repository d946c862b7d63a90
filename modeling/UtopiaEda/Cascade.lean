import UtopiaEda.Zhegalkin

/-!
# Cascades

A function is decomposed by its variables from the first one on. The decomposition is a list of
rows: the constants, the variables and their negations, and behind them the sources and the
operations, from which the network is built in one pass. Rows are added with increasing numbers; the
numbers do not wrap around.
-/
namespace UtopiaEda

/-- A builder that is still open, or a subnet that is made. -/
inductive SubnetObject where
  | builder (s : SubnetBuilder)
  | made (S : Subnet)

namespace Synthesizer.CascadeSynthesizer

/-- An entry of each of the three columns: the source or the operation (2 for AND, 3 for OR), and
the numbers of the rows of the operands. -/
structure Row where
  op : ℕ
  lhs : ℕ
  rhs : ℕ
  deriving DecidableEq

/-- `initialize`, which adds rows at the end. -/
def initializeRows (output : List Row) (times num1 num2 num3 : ℕ) : List Row :=
  output ++ .replicate times ⟨num1, num2, num3⟩

def Row.last (rows : List Row) : Row := rows.getLastD ⟨0, 0, 0⟩

abbrev Form := List (List Bool)

def Form.bit (form : Form) (j i : ℕ) : Bool := (form.getD j []).getD i false

def columnLoop (form : Form) (values : List Bool) (i : ℕ) : List ℕ → Bool → Bool
  | [], columnResult => columnResult
  | j :: js, columnResult =>
    let value := values.getD j false
    let columnResult :=
      if j = 0 then if form.bit j i then value else !value
      else if form.bit j i then columnResult && value
      else if value then false else columnResult
    if columnResult then columnLoop form values i js columnResult else false

def calculateLoop (numVars : ℕ) (form : Form) (values : List Bool) : List ℕ → ℕ → ℕ
  | [], result => result
  | i :: is, result =>
    let columnResult := columnLoop form values i (.range (numVars - 1)) false
    let result :=
      if i = 0 then
        if form.bit (numVars - 1) i && columnResult then 2 else if columnResult then 3 else result
      else if form.bit (numVars - 1) i then
        if columnResult then if result = 2 ∨ result = 0 then 2 else 1 else result
      else if columnResult then if result = 3 ∨ result = 0 then 3 else 1 else result
    if result = 1 then 1 else calculateLoop numVars form values is result

def calculate (numVars : ℕ) (form : Form) (values : List Bool) : ℕ :=
  calculateLoop numVars form values (.range (form.getD 0 []).length) 0

/-- A row of the second decomposition behind the first one. -/
def Row.relocate (numVars offset : ℕ) (row : Row) : Row :=
  ⟨row.op, if row.lhs = 0 ∧ row.rhs = 0 then 0 else row.lhs + offset,
    if row.op = 3 ∧ numVars * 2 + 1 < row.rhs then row.rhs + offset else row.rhs⟩

def checkSimplify (numVars : ℕ) (out1 out2 : List Row) (values : List Bool) : List Row :=
  let size1 := out1.length
  let size2 := out2.length
  let lastElem1 := (Row.last out1).op
  let lastElem2 := (Row.last out2).op
  let sourceInit := numVars * 2 + 2
  let negValInit := numVars + 2 + values.length
  let valInit := values.length + 2
  if out1 = out2 then out1
  else if lastElem1 = 1 then
    if lastElem2 = 0 then initializeRows (initializeRows [] sourceInit 0 0 0) 1 valInit 0 0
    else initializeRows (initializeRows out2 1 2 (size2 - 1) negValInit) 1 3 size2 valInit
  else if lastElem1 = 0 then
    if lastElem2 = 1 then initializeRows (initializeRows [] sourceInit 0 0 0) 1 negValInit 0 0
    else initializeRows out2 1 2 (size2 - 1) negValInit
  else
    let out := initializeRows out1 1 2 (size1 - 1) valInit
    if lastElem2 = 1 then initializeRows out 1 3 size1 negValInit
    else if lastElem2 ≠ 0 then
      let id := size1
      let out := out ++ (out2.drop sourceInit).map (Row.relocate numVars (size1 - sourceInit + 1))
      initializeRows (initializeRows out 1 2 (out.length - 1) negValInit) 1 3 out.length id
    else out

def minterms {n : ℕ} (table : TruthTable n) (bits : ℕ) : List ℕ :=
  (List.range bits).reverse.filter table.get_bit

def normalForm {n : ℕ} (table : TruthTable n) : Option Form := do
  let bits ← intShl n
  some ((List.range n).map (fun j => (minterms table bits).map (·.testBit j)))

/-- The decomposition after some values are chosen; `left` values are still to be chosen. -/
def getFunction {n : ℕ} (table : TruthTable n) (form : Form) (left : ℕ) (values : List Bool) :
    List Row :=
  if table = 0#(2 ^ n) then initializeRows [] (n * 2 + 3) 0 0 0
  else if n = 1 then
    initializeRows (initializeRows [] 4 0 0 0) 1
      (if table = BitVec.allOnes (2 ^ n) then 1 else if table.get_bit 0 then 2 else 3) 0 0
  else match left with
  | 0 =>
    let res := calculate n form values
    let res := if res = 2 then n + 1 else if res = 3 then n * 2 + 1 else res
    initializeRows (initializeRows [] (n * 2 + 2) 0 0 0) 1 res 0 0
  | left + 1 =>
    let output1 := getFunction table form left (values ++ [true])
    let output2 := getFunction table form left (values ++ [false])
    checkSimplify n output1 output2 values

/-- The variables of the loop that builds the subnet. The entries of a row stand two places before
it. -/
structure State where
  builder : SubnetBuilder
  idx : ℕ → EntryID
  inverted : ℕ → Bool
  links : List Link

namespace State

def link (st : State) (i : ℕ) : Link := ⟨st.idx i, 0, st.inverted i⟩

def addTree (st : State) (symbol : CellTypeID) (maxArity i : ℕ) : Option State := do
  let (s, link) ← st.builder.addCellTree symbol st.links maxArity
  some { st with builder := s, idx := Function.update st.idx i link.idx }

def addCell (st : State) (symbol : CellTypeID) (links : List Link) (i : ℕ) : Option State := do
  let (s, link) ← st.builder.addCell symbol links
  some { st with builder := s, idx := Function.update st.idx i link.idx }

def addSource (st : State) (numVars maxArity : ℕ) (prev row : Row) (i : ℕ) : Option State :=
  let st := if numVars + 2 ≤ row.op ∧ row.op < numVars * 2 + 2 then
      { st with inverted := Function.update st.inverted (i - 2) true,
                idx := Function.update st.idx (i - 2) (st.idx (row.op - 2 - numVars)) }
    else { st with idx := Function.update st.idx (i - 2) (st.idx (row.op - 2)) }
  if prev.lhs ≠ 0 ∧ prev.rhs ≠ 0 then do
    let st ← (if st.links ≠ [] ∧ prev.op = 2 then st.addTree .AND maxArity (i - 3)
      else if prev.op = 3 then st.addTree .OR maxArity (i - 3)
      else some st : Option State)
    some { st with links := [] }
  else some st

def addOperation (st : State) (numVars maxArity : ℕ) (prev row : Row) (i : ℕ) : Option State :=
  if maxArity = 65535 then
    if row.op = 2 then st.addCell .AND [st.link (row.lhs - 2), st.link (row.rhs - 2)] (i - 2)
    else if row.op = 3 then st.addCell .OR [st.link (row.lhs - 2), st.link (row.rhs - 2)] (i - 2)
    else some st
  else if i ≠ numVars * 2 + 2 ∧ prev.op = row.op then
    some { st with links := st.links ++ [st.link (row.rhs - 2)] }
  else do
    let st ← (if st.links ≠ [] then
        if row.op = 2 then st.addTree .OR maxArity (i - 3)
        else if row.op = 3 then st.addTree .AND maxArity (i - 3)
        else some st
      else some st : Option State)
    some { st with links := [st.link (row.lhs - 2), st.link (row.rhs - 2)] }

def step (numVars maxArity : ℕ) (output : List Row) (st : State) (i : ℕ) : Option State :=
  let row := output.getD i ⟨0, 0, 0⟩
  let prev := output.getD (i - 1) ⟨0, 0, 0⟩
  if row.lhs = 0 ∧ row.rhs = 0 then st.addSource numVars maxArity prev row i
  else st.addOperation numVars maxArity prev row i

def finish (st : State) (maxArity : ℕ) (output : List Row) : Option State :=
  if st.links ≠ [] then
    if (Row.last output).op = 2 then st.addTree .AND maxArity (output.length - 3)
    else if (Row.last output).op = 3 then st.addTree .OR maxArity (output.length - 3)
    else some st
  else some st

end State

def makeOutput (s : SubnetBuilder) (link : Link) : Option SubnetObject := do
  let (s, _) ← s.addOutput link
  some (.made (← s.make))

def synthesize {n : ℕ} (func : TruthTable n) (maxArity : UInt16) : Option SubnetObject := do
  let form ← normalForm func
  let output := getFunction func form (n - 1) []
  let size := output.length
  let (s, inputs) ← SubnetBuilder.addInputs n {}
  let idx : ℕ → EntryID := fun i => (inputs.map Link.idx).getD i 0
  let source := (Row.last output).op
  if source = 0 then do
    let (s, link) ← s.addCell .ZERO []
    makeOutput s ⟨link.idx, 0, false⟩
  else if source = 1 then do
    let (s, link) ← s.addCell .ONE []
    makeOutput s ⟨link.idx, 0, false⟩
  else if size = 3 + n * 2 then
    if n + 2 ≤ source ∧ source < n * 2 + 2 then makeOutput s ⟨idx (source - 2 - n), 0, true⟩
    else makeOutput s ⟨idx (source - 2), 0, false⟩
  else do
    let idx : ℕ → EntryID := fun i => if n ≤ i ∧ i < n * 2 then idx (i - n) else idx i
    let firstValId := n * 2 + 2
    let st ← (List.range' firstValId (size - firstValId)).foldlM
      (State.step n maxArity.toNat output) ⟨s, idx, fun i => decide (n ≤ i ∧ i < n * 2), []⟩
    let st ← st.finish maxArity.toNat output
    let (s, _) ← st.builder.addOutput ⟨st.idx (size - 3), 0, false⟩
    some (.builder s)

end Synthesizer.CascadeSynthesizer

end UtopiaEda
