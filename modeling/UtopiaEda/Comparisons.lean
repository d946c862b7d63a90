import UtopiaEda.CellTrees
import UtopiaEda.LinkAccess
import UtopiaEda.SubnetCopying
import UtopiaEda.EntryRearrangement

/-!
# Comparisons

The networks of the comparison operators. The words are as wide as the ports of the cell (32 bits),
but most loops count with 16 bits: with a bound that the counter does not reach they do not end, and
no amount of fuel gives a result.
-/
namespace UtopiaEda.Synthesizer

/-- `for (uint16_t i = from; i < bound; ++i)`: the links of the passes. -/
def countLinks (f : ℕ → Option Link) (bound : ℕ) : ℕ → UInt16 → Option (List Link)
  | 0, _ => none
  | fuel + 1, i =>
    if i.toNat < bound then do
      let link ← f i.toNat
      let links ← countLinks f bound fuel (i + 1)
      some (link :: links)
    else some []

/-- `propagate[i] = inverse ? ~link : link`. -/
def invertedIf (inverse : Bool) (link : Link) : Link := if inverse then link.not else link

def addPropagates (inverse : Bool) :
    List Link → List Link → SubnetBuilder → Option (SubnetBuilder × List Link)
  | a :: inputsA, b :: inputsB, s => do
    let (s, link) ← s.addCell .XOR [a, b]
    let (s, links) ← addPropagates inverse inputsA inputsB s
    some (s, invertedIf inverse link :: links)
  | _, _, s => some (s, [])

def generatePropagate (fuel : ℕ) (inputsA inputsB : List Link) (s : SubnetBuilder)
    (inverse : Bool) : Option (SubnetBuilder × List Link) := do
  let minSize := (min inputsA.length inputsB.length).toUInt16
  let (s, propagate) ← addPropagates inverse (inputsA.take minSize.toNat)
    (inputsB.take minSize.toNat) s
  let size := max inputsA.length inputsB.length
  let bigger := if size = inputsA.length then inputsA else inputsB
  let surplus ← countLinks (fun i => (bigger[i]?).map (invertedIf inverse)) size fuel minSize
  some (s, propagate ++ surplus)

/-- `(more & signB) | (more & ~signA) | (signB & signA)`; the third cell is an AND of `~signA` and
`signB`. -/
def generateSignedComparison (more signA signB : Link) (s : SubnetBuilder) :
    Option (SubnetBuilder × Link) := do
  let (s, firstAnd) ← s.addCell .AND [more, signB]
  let (s, secondAnd) ← s.addCell .AND [more, signA.not]
  let (s, thirdAnd) ← s.addCell .AND [signA.not, signB]
  s.addCellTree .OR [firstAnd, secondAnd, thirdAnd] 2

/-! ### The cascade of a comparison -/

/-- State of the loops of `generateComparison`; `orResult` holds the links from the current bit
on. -/
structure Cascade where
  builder : SubnetBuilder
  currAnd : Link
  endP : ℕ
  orResult : List Link

namespace Cascade

variable (propagate inputsA inputsB : List Link) (maxSize : ℕ)

/-- The product of the higher bits; at the second bit it is the first propagate itself. -/
def extendAnd (i : ℕ) (c : Cascade) : Option Cascade :=
  if i + 2 < maxSize then do
    let (s, currAnd) ← c.builder.addCell .AND [c.currAnd, ← propagate[c.endP]?]
    some { c with builder := s, currAnd := currAnd }
  else some c

def moveIterator (i : ℕ) (c : Cascade) : Option Cascade :=
  let endP := c.endP - 1
  if i + 1 = maxSize ∧ endP ≠ propagate.length then do
    some { c with endP := endP, currAnd := ← propagate[endP]? }
  else some { c with endP := endP }

def surplusStep (i : ℕ) (c : Cascade) : Option Cascade := do
  let a ← inputsA[i]?
  if i + 1 = maxSize then moveIterator propagate maxSize i { c with orResult := a :: c.orResult }
  else do
    let c ← c.extendAnd propagate maxSize i
    let (s, link) ← c.builder.addCell .AND [c.currAnd, a]
    moveIterator propagate maxSize i { c with builder := s, orResult := link :: c.orResult }

def commonStep (i : ℕ) (c : Cascade) : Option Cascade := do
  let a ← inputsA[i]?
  let b ← inputsB[i]?
  let c ← (if i + 1 < maxSize then c.extendAnd propagate maxSize i else some c : Option Cascade)
  let andOperation := if i + 1 < maxSize then [c.currAnd, a, b.not] else [a, b.not]
  let (s, link) ← c.builder.addCellTree .AND andOperation 2
  moveIterator propagate maxSize i { c with builder := s, orResult := link :: c.orResult }

/-- The bits `minSize + k - 1`, ..., `minSize`. -/
def surplusLoop (minSize : ℕ) : ℕ → Cascade → Option Cascade
  | 0, c => some c
  | k + 1, c => do surplusLoop minSize k (← surplusStep propagate inputsA maxSize (minSize + k) c)

/-- The bits `i - 1`, ..., `0`. -/
def commonLoop : ℕ → Cascade → Option Cascade
  | 0, c => some c
  | i + 1, c => do commonLoop i (← commonStep propagate inputsA inputsB maxSize i c)

end Cascade

def surplusAnd (propagate : List Link) (delta : ℕ) (s : SubnetBuilder) :
    Option (SubnetBuilder × Link) :=
  if 2 < delta then s.addCellTree .AND (propagate.drop (propagate.length + 1 - delta)) 2
  else do some (s, ← propagate.getLast?)

/-- The link that is one if the first word is greater, and the links of `propagate`. The widths are
32-bit integers; words for which that matters do not get past `generatePropagate`. -/
def generateComparison (fuel : ℕ) (inputsA inputsB : List Link) (s : SubnetBuilder)
    (useEquality : Bool) : Option (SubnetBuilder × Link × List Link) := do
  let minSize := min inputsA.length inputsB.length
  let maxSize := max inputsA.length inputsB.length
  let first := if useEquality then 0 else 1
  let (s, propagate) ← (if first < inputsA.length ∨ first < inputsB.length then
      if inputsA.length < first ∨ inputsB.length < first then none
      else generatePropagate fuel (inputsA.drop first) (inputsB.drop first) s true
    else some (s, []) : Option (SubnetBuilder × List Link))
  let c : Cascade := ⟨s, ⟨0, 0, false⟩, propagate.length, []⟩
  let c ← (if inputsA.length < inputsB.length then do
      let (s, currAnd) ← surplusAnd propagate (maxSize - minSize) s
      some { c with builder := s, currAnd := currAnd, endP := propagate.length - (maxSize - minSize) }
    else c.surplusLoop propagate inputsA maxSize minSize (maxSize - minSize) : Option Cascade)
  let c ← c.commonLoop propagate inputsA inputsB maxSize minSize
  let (s, output) ← (if 1 < c.orResult.length then c.builder.addCellTree .OR c.orResult 2
    else do some (c.builder, ← c.orResult.getLast?) : Option (SubnetBuilder × Link))
  some (s, output, propagate)

/-! ### The networks -/

/-- `(int32_t)size`. -/
def int32 (size : ℕ) : ℤ := (size : ℤ).bmod (2 ^ 32)

/-- The shorter word goes on with its sign. The difference is an `int32_t`. -/
def fillBySignum (fuel : ℕ) (inputsA : List Link) (signA : Link) (inputsB : List Link)
    (signB : Link) : Option (List Link × List Link) := do
  let delta := (int32 inputsA.length - int32 inputsB.length).natAbs
  if 2 ^ 31 ≤ delta then none
  else if inputsB.length < inputsA.length then do
    some (inputsA, inputsB ++ (← countLinks (fun _ => some signB) delta fuel 0))
  else do
    some (inputsA ++ (← countLinks (fun _ => some signA) delta fuel 0), inputsB)

open SubnetBuilder

def extendOutput (s : SubnetBuilder) (width : ℕ) (signExtend : Bool) : Option SubnetBuilder :=
  if width ≤ s.nOut then some s
  else do
    let (s, bit) ← (if signExtend && 0 < s.nOut then
        match s.order.getSubnetEnd with
        | .entry i => do some (s, ← s.getLink i 0)
        | _ => none
      else s.addCell .ZERO [] : Option (SubnetBuilder × Link))
    addOutputs (.replicate (width - s.nOut) bit) s

def makeRelation (s : SubnetBuilder) (link : Link) (outWidth : UInt32) : Option Subnet := do
  let (s, _) ← s.addOutput link
  (← extendOutput s outWidth.toNat false).make

def addAll (s : SubnetBuilder) (propagate : List Link) : Option (SubnetBuilder × Link) :=
  if 1 < propagate.length then s.addCellTree .AND propagate 2
  else do some (s, ← propagate.getLast?)

def addNone (s : SubnetBuilder) (propagate : List Link) : Option (SubnetBuilder × Link) :=
  if 1 < propagate.length then do
    let (s, link) ← s.addCellTree .OR propagate 2
    some (s, link.not)
  else do some (s, (← propagate.getLast?).not)

def synthXeqU (fuel : ℕ) (sizeA sizeB outWidth : UInt32) (positive : Bool) : Option Subnet := do
  let (s, inputsForA) ← addInputs sizeA.toNat {}
  let (s, inputsForB) ← addInputs sizeB.toNat s
  let (s, propagate) ← generatePropagate fuel inputsForA inputsForB s false
  let (s, link) ← addNone s propagate
  makeRelation s (if positive then link else link.not) outWidth

def synthXeqS (fuel : ℕ) (sizeA sizeB outWidth : UInt32) (positive : Bool) : Option Subnet := do
  let (s, inputsForA) ← addInputs sizeA.toNat {}
  let (s, inputsForB) ← addInputs sizeB.toNat s
  let (inputsForA, inputsForB) ←
    fillBySignum fuel inputsForA (← inputsForA.getLast?) inputsForB (← inputsForB.getLast?)
  let (s, propagate) ← generatePropagate fuel inputsForA inputsForB s false
  let (s, link) ← addNone s propagate
  makeRelation s (if positive then link else link.not) outWidth

def synthXtU (fuel : ℕ) (sizeA sizeB outWidth : UInt32) (makeSwap : Bool) : Option Subnet := do
  let (s, inputsForA) ← addInputs sizeA.toNat {}
  let (s, inputsForB) ← addInputs sizeB.toNat s
  let (inputsForA, inputsForB) := if makeSwap then (inputsForB, inputsForA) else
    (inputsForA, inputsForB)
  let (s, more, _) ← generateComparison fuel inputsForA inputsForB s false
  makeRelation s more outWidth

def synthXtS (fuel : ℕ) (sizeA sizeB outWidth : UInt32) (makeSwap : Bool) : Option Subnet :=
  if sizeA ≠ 1 ∨ sizeB ≠ 1 then do
    let (s, inputsForA) ← addInputs (sizeA - 1).toNat {}
    let (s, signA) ← s.addInput
    let (s, inputsForB) ← addInputs (sizeB - 1).toNat s
    let (s, signB) ← s.addInput
    let (inputsForA, inputsForB) ← fillBySignum fuel inputsForA signA inputsForB signB
    let (inputsForA, inputsForB) := if makeSwap then (inputsForB, inputsForA) else
      (inputsForA, inputsForB)
    let (signA, signB) := if makeSwap then (signB, signA) else (signA, signB)
    let (s, more, _) ← generateComparison fuel inputsForA inputsForB s false
    let (s, link) ← generateSignedComparison more signA signB s
    makeRelation s link outWidth
  else synthXtU fuel sizeA sizeB outWidth !makeSwap

def synthXteU (fuel : ℕ) (sizeA sizeB outWidth : UInt32) (makeSwap : Bool) : Option Subnet := do
  let (s, inputsForA) ← addInputs sizeA.toNat {}
  let (s, inputsForB) ← addInputs sizeB.toNat s
  let (inputsForA, inputsForB) := if makeSwap then (inputsForB, inputsForA) else
    (inputsForA, inputsForB)
  let (s, more, propagate) ← generateComparison fuel inputsForA inputsForB s true
  let (s, equal) ← addAll s propagate
  let (s, link) ← s.addCell .OR [equal, more]
  makeRelation s link outWidth

def synthXteS (fuel : ℕ) (sizeA sizeB outWidth : UInt32) (makeSwap : Bool) : Option Subnet :=
  if sizeA ≠ 1 ∨ sizeB ≠ 1 then do
    let (s, inputsForA) ← addInputs (sizeA - 1).toNat {}
    let (s, signA) ← s.addInput
    let (s, inputsForB) ← addInputs (sizeB - 1).toNat s
    let (s, signB) ← s.addInput
    let (inputsForA, inputsForB) ← fillBySignum fuel inputsForA signA inputsForB signB
    let (inputsForA, inputsForB) := if makeSwap then (inputsForB, inputsForA) else
      (inputsForA, inputsForB)
    let (signA, signB) := if makeSwap then (signB, signA) else (signA, signB)
    let (s, more, propagate) ← generateComparison fuel inputsForA inputsForB s true
    let (s, differ) ← s.addCell .XOR [signA, signB]
    let (s, equal) ← addAll s (propagate ++ [differ.not])
    let (s, more) ← generateSignedComparison more signA signB s
    let (s, link) ← s.addCell .OR [equal, more]
    makeRelation s link outWidth
  else synthXteU fuel sizeA sizeB outWidth !makeSwap

def synthEqS (fuel : ℕ) (sizeA sizeB outWidth : UInt32) : Option Subnet :=
  synthXeqS fuel sizeA sizeB outWidth true

def synthEqU (fuel : ℕ) (sizeA sizeB outWidth : UInt32) : Option Subnet :=
  synthXeqU fuel sizeA sizeB outWidth true

def synthNeqS (fuel : ℕ) (sizeA sizeB outWidth : UInt32) : Option Subnet :=
  synthXeqS fuel sizeA sizeB outWidth false

def synthNeqU (fuel : ℕ) (sizeA sizeB outWidth : UInt32) : Option Subnet :=
  synthXeqU fuel sizeA sizeB outWidth false

def synthLtS (fuel : ℕ) (sizeA sizeB outWidth : UInt32) : Option Subnet :=
  synthXtS fuel sizeA sizeB outWidth true

def synthLtU (fuel : ℕ) (sizeA sizeB outWidth : UInt32) : Option Subnet :=
  synthXtU fuel sizeA sizeB outWidth true

def synthLteS (fuel : ℕ) (sizeA sizeB outWidth : UInt32) : Option Subnet :=
  synthXteS fuel sizeA sizeB outWidth true

def synthLteU (fuel : ℕ) (sizeA sizeB outWidth : UInt32) : Option Subnet :=
  synthXteU fuel sizeA sizeB outWidth true

def synthGtU (fuel : ℕ) (sizeA sizeB outWidth : UInt32) : Option Subnet :=
  synthXtU fuel sizeA sizeB outWidth false

def synthGtS (fuel : ℕ) (sizeA sizeB outWidth : UInt32) : Option Subnet :=
  synthXtS fuel sizeA sizeB outWidth false

def synthGteS (fuel : ℕ) (sizeA sizeB outWidth : UInt32) : Option Subnet :=
  synthXteS fuel sizeA sizeB outWidth false

def synthGteU (fuel : ℕ) (sizeA sizeB outWidth : UInt32) : Option Subnet :=
  synthXteU fuel sizeA sizeB outWidth false

end UtopiaEda.Synthesizer
