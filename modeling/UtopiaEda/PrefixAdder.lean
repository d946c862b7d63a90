import UtopiaEda.CellTrees

/-!
# The parallel-prefix adder

`synthLadnerFisherAdd` builds a Ladner-Fischer adder. Widths and loop counters have 16 bits. A
result `none` means that an assertion of the source fails, that an element outside an array is read,
or that the loops take more than `fuel` rounds.
-/
namespace UtopiaEda.Synthesizer

structure PrefixState where
  pOutputs : List Link
  gOutputs : List Link
  isNotZero : List Bool

/-- `p_next = p_child & p_parent`, except in the first batch. -/
def propagateChild (basicStep batch : ℕ) (parentP childP : Link) (child : ℕ) (s : SubnetBuilder)
    (st : PrefixState) : Option (SubnetBuilder × PrefixState) :=
  if batch + 1 = basicStep then some (s, st)
  else do
    let (s, p) ← s.addCell .AND [childP, parentP]
    some (s, { st with pOutputs := st.pOutputs.set child p })

/-- `g_next = g_child | p_child & g_parent`, where the parts that are zero are left out. -/
def generateChild (parentG childP childG : Link) (parentNotZero childNotZero : Bool) (child : ℕ)
    (s : SubnetBuilder) (st : PrefixState) : Option (SubnetBuilder × PrefixState) :=
  if parentNotZero then do
    let (s, g) ← s.addCell .AND [childP, parentG]
    let (s, g) ← (if childNotZero then s.addCell .OR [childG, g] else
      some (s, g) : Option (SubnetBuilder × Link))
    some (s, { st with gOutputs := st.gOutputs.set child g, isNotZero := st.isNotZero.set child true })
  else some (s, st)

def addChild (basicStep batch : ℕ) (parentP parentG : Link) (child : ℕ) (s : SubnetBuilder)
    (st : PrefixState) : Option (SubnetBuilder × PrefixState) := do
  let childP ← st.pOutputs[child]?
  let childG ← st.gOutputs[child]?
  let (s, st) ← propagateChild basicStep batch parentP childP child s st
  generateChild parentG childP childG (← st.isNotZero[batch - 1]?)
    (← st.isNotZero[child]?) child s st

/-- The loop over the children, from `child` down to `batch`. -/
def addChildren (basicStep batch : ℕ) (parentP parentG : Link) :
    ℕ → SubnetBuilder → PrefixState → Option (SubnetBuilder × PrefixState)
  | child + 2, s, st =>
    if batch ≤ child + 2 then do
      let (s, st) ← addChild basicStep batch parentP parentG (child + 2) s st
      addChildren basicStep batch parentP parentG child s st
    else some (s, st)
  | child, s, st =>
    if batch ≤ child then addChild basicStep batch parentP parentG child s st else some (s, st)

def addBatch (outSizeA basicStep batch : ℕ) (s : SubnetBuilder) (st : PrefixState) :
    Option (SubnetBuilder × PrefixState) :=
  if batch = 0 then some (s, st)
  else do
    let parentP ← st.pOutputs[batch - 1]?
    let parentG ← st.gOutputs[batch - 1]?
    let pos := min (basicStep - 1 + batch) (outSizeA - 1 - (if outSizeA % 2 = 0 then 1 else 0))
    addChildren basicStep batch parentP parentG pos s st

def addBatches (outSizeA basicStep delta : ℕ) :
    ℕ → ℕ → SubnetBuilder → PrefixState → Option (SubnetBuilder × PrefixState)
  | 0, _, _, _ => none
  | n + 1, batch, s, st =>
    if batch ≤ outSizeA then do
      let (s, st) ← addBatch outSizeA basicStep batch s st
      addBatches outSizeA basicStep delta n ((batch + delta) % 2 ^ 16) s st
    else some (s, st)

/-- The loop over the levels. No level follows the one with the step `2 ^ 15`: there `delta` is
zero. -/
def addLevels (fuel outSizeA : ℕ) :
    ℕ → ℕ → SubnetBuilder → PrefixState → Option (SubnetBuilder × PrefixState)
  | 0, _, _, _ => none
  | n + 1, basicStep, s, st =>
    if basicStep < outSizeA then do
      let delta := basicStep * 2 % 2 ^ 16
      let (s, st) ← addBatches outSizeA basicStep delta fuel (basicStep - 1) s st
      addLevels fuel outSizeA n delta s st
    else some (s, st)

def addBits (inputsForA inputsForB : List Link) :
    List ℕ → SubnetBuilder → PrefixState → Option (SubnetBuilder × PrefixState)
  | [], s, st => some (s, st)
  | i :: is, s, st => do
    let a ← inputsForA[i]?
    let b ← inputsForB[i]?
    let (s, p) ← s.addCell .XOR [a, b]
    let (s, g) ← s.addCell .AND [a, b]
    addBits inputsForA inputsForB is s ⟨st.pOutputs.set i p, st.gOutputs.set i g,
      st.isNotZero.set i true⟩

def copyBits (inputsForA : List Link) : List ℕ → PrefixState → Option PrefixState
  | [], st => some st
  | i :: is, st => do
    let a ← inputsForA[i]?
    copyBits inputsForA is { st with pOutputs := st.pOutputs.set i a, isNotZero := st.isNotZero.set i false }

def addOddCarries (outSize : ℕ) :
    List ℕ → SubnetBuilder → PrefixState → Option (SubnetBuilder × PrefixState)
  | [], s, st => some (s, st)
  | pos :: rest, s, st => do
    let childG ← st.gOutputs[pos]?
    let childP ← st.pOutputs[pos]?
    let parentG ← st.gOutputs[pos - 1]?
    let used := (← st.isNotZero[pos - 1]?) && pos ≠ outSize - 1
    let (s, st) ← generateChild parentG childP childG used (← st.isNotZero[pos]?) pos s st
    addOddCarries outSize rest s st

def addSums (startOutputsP : List Link) (st : PrefixState) :
    List ℕ → SubnetBuilder → Option (SubnetBuilder × List Link)
  | [], s => some (s, [])
  | i :: is, s => do
    let p ← startOutputsP[i]?
    let g ← st.gOutputs[i - 1]?
    let (s, sum) ← (if ← st.isNotZero[i - 1]? then s.addCell .XOR [g, p] else some (s, p) :
      Option (SubnetBuilder × Link))
    let (s, sums) ← addSums startOutputsP st is s
    some (s, sum :: sums)

def addSign (s : SubnetBuilder) (sum a b g : Link) : Option (SubnetBuilder × Link) := do
  let (s, sumA) ← s.addCell .AND [sum, a]
  let (s, sumB) ← s.addCell .AND [sum, b]
  let (s, sumG) ← s.addCell .AND [sum, g]
  let (s, all) ← s.addCell .AND [g, a, b]
  s.addCellTree .OR [sumA, sumB, sumG, all] 2

def addCarryOut (s : SubnetBuilder) (inputsForA inputsForB : List Link) (st : PrefixState)
    (outputGates : List Link) (outSize sizeA : ℕ) (useSign isUnsignedSub : Bool) :
    Option (SubnetBuilder × List Link) := do
  let notZero ← st.isNotZero[st.gOutputs.length - 1]?
  let g ← st.gOutputs.getLast?
  let sum ← outputGates.getLast?
  let (s, zeroCell) ← (
    if (!notZero || sizeA + 1 < outSize) && !useSign then s.addCell .ZERO []
    else if isUnsignedSub then do
      let (s, both) ← s.addCell .AND [sum, g]
      s.addCell .OR [sum, both]
    else if useSign then do addSign s sum (← inputsForA.getLast?) (← inputsForB.getLast?) g
    else some (s, ⟨0, 0, false⟩) : Option (SubnetBuilder × Link))
  let carry := if notZero && !useSign then g else zeroCell
  some (s, outputGates ++ carry :: List.replicate (outSize - (sizeA + 1)) zeroCell)

/-- The part of `synthLadnerFisherAdd` behind the swap of the operands: `inputsForA` is not the
shorter one. -/
def addSwapped (fuel : ℕ) (s : SubnetBuilder) (inputsForA inputsForB : List Link) (outSize : UInt16)
    (useSign isUnsignedSub : Bool) : Option (SubnetBuilder × List Link) :=
  let sizeA := inputsForA.length % 2 ^ 16
  let sizeB := inputsForB.length % 2 ^ 16
  let outSizeA := min outSize.toNat sizeA
  let outSizeB := min outSizeA sizeB
  if outSizeA = 0 then none
  else do
    let st : PrefixState :=
      ⟨.replicate sizeA ⟨0, 0, false⟩, .replicate sizeA ⟨0, 0, false⟩, .replicate sizeA false⟩
    let (s, st) ← addBits inputsForA inputsForB (.range outSizeB) s st
    let st ← copyBits inputsForA (.range' outSizeB (outSizeA - outSizeB)) st
    let startOutputsP := st.pOutputs
    let (s, st) ← addLevels fuel outSizeA fuel 1 s st
    let (s, st) ← addOddCarries outSize.toNat ((List.range (outSizeA / 2)).map (2 * · + 1)) s st
    let (s, sums) ← addSums startOutputsP st (.range' 1 (outSizeA - 1)) s
    let outputGates := (← startOutputsP[0]?) :: sums
    if sizeA < outSize.toNat then
      addCarryOut s inputsForA inputsForB st outputGates outSize.toNat sizeA useSign isUnsignedSub
    else some (s, outputGates)

def synthLadnerFisherAdd (fuel : ℕ) (s : SubnetBuilder) (inputsForA inputsForB : List Link)
    (outSize : UInt16) (useSign : Bool := false) (isUnsignedSub : Bool := false) :
    Option (SubnetBuilder × List Link) :=
  let useSign := useSign || isUnsignedSub
  if inputsForA.length % 2 ^ 16 < inputsForB.length % 2 ^ 16 then
    addSwapped fuel s inputsForB inputsForA outSize useSign isUnsignedSub
  else addSwapped fuel s inputsForA inputsForB outSize useSign isUnsignedSub

end UtopiaEda.Synthesizer
