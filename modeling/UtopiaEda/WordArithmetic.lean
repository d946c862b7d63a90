import UtopiaEda.PrefixAdder
import UtopiaEda.SubnetCopying
import UtopiaEda.EntryRearrangement

/-!
# Addition, subtraction and negation of words

The networks of the operations, least significant bit first, and the helpers they are made of.
-/
namespace UtopiaEda.Synthesizer

/-- The word with more bits: `resize(size, back())`. -/
def resize (word : List Link) (size : ℕ) : Option (List Link) := do
  some (word ++ .replicate (size - word.length) (← word.getLast?))

def twosComplement (fuel : ℕ) (s : SubnetBuilder) (word : List Link) (width : ℕ)
    (signExtend : Bool) : Option (SubnetBuilder × List Link) :=
  if min word.length width = 0 then none
  else do
    let inverted := (word.take width).map Link.not
    let (s, one) ← s.addCell .ONE []
    let bit ← (if signExtend then inverted.getLast? else some one : Option Link)
    synthLadnerFisherAdd fuel s (inverted ++ .replicate (width - inverted.length) bit)
      [one] width.toUInt16 true

def addXors (sign : Link) : List Link → SubnetBuilder → Option (SubnetBuilder × List Link)
  | [], s => some (s, [])
  | l :: word, s => do
    let (s, link) ← s.addCell .XOR [l, sign]
    let (s, links) ← addXors sign word s
    some (s, link :: links)

def absoluteValue (fuel : ℕ) (s : SubnetBuilder) (word : List Link) :
    Option (SubnetBuilder × List Link) := do
  let sign ← word.getLast?
  let (s, temp) ← addXors sign word s
  synthLadnerFisherAdd fuel s temp [sign] word.length.toUInt16 true

open SubnetBuilder

/-! The widths are cut to 16 bits, by some of the operations at once and by others behind the
inputs. -/

def synthAddS (fuel : ℕ) (sizeA sizeB outSize : UInt32) : Option Subnet := do
  let sizeA := sizeA.toUInt16
  let sizeB := sizeB.toUInt16
  let (s, inputsForA) ← addInputs sizeA.toNat {}
  let (s, inputsForB) ← addInputs sizeB.toNat s
  let inputsForA ← (if sizeA < sizeB then resize inputsForA sizeB.toNat else
    some inputsForA : Option (List Link))
  let inputsForB ← (if sizeB < sizeA then resize inputsForB sizeA.toNat else
    some inputsForB : Option (List Link))
  let (s, links) ← synthLadnerFisherAdd fuel s inputsForA inputsForB outSize.toUInt16 true
  (← addOutputs links s).make

def synthAddU (fuel : ℕ) (sizeA sizeB outSize : UInt32) : Option Subnet := do
  let (s, inputsForA) ← addInputs sizeA.toNat {}
  let (s, inputsForB) ← addInputs sizeB.toNat s
  let (s, links) ← synthLadnerFisherAdd fuel s inputsForA inputsForB outSize.toUInt16
  (← addOutputs links s).make

def synthSubS (fuel : ℕ) (sizeA sizeB outSize : UInt32) : Option Subnet := do
  let sizeA := sizeA.toUInt16
  let sizeB := sizeB.toUInt16
  let outSize := outSize.toUInt16
  let (s, inputsForA) ← addInputs sizeA.toNat {}
  let (s, inputsForB) ← addInputs sizeB.toNat s
  let maxSize := max sizeA sizeB
  let wider := decide (maxSize < outSize)
  let inputsForA ← (if wider then resize inputsForA (sizeA.toNat + 1) else
    some inputsForA : Option (List Link))
  let inputsForB ← (if wider then resize inputsForB (sizeB.toNat + 1) else
    some inputsForB : Option (List Link))
  let maxSize := if wider then maxSize + 1 else maxSize
  let inputsForA ← (if inputsForA.length < inputsForB.length then
    resize inputsForA inputsForB.length else some inputsForA : Option (List Link))
  let (s, inputsForB) ← twosComplement fuel s inputsForB maxSize.toNat true
  let (s, links) ← synthLadnerFisherAdd fuel s inputsForA inputsForB outSize true
  (← addOutputs links s).make

def synthSubU (fuel : ℕ) (sizeA sizeB outSize : UInt32) : Option Subnet := do
  let sizeA := sizeA.toUInt16
  let sizeB := sizeB.toUInt16
  let outSize := outSize.toUInt16
  let (s, inputsForA) ← addInputs sizeA.toNat {}
  let (s, inputsForB) ← addInputs sizeB.toNat s
  let maxSize := max sizeA sizeB
  let maxSize := if maxSize < outSize then maxSize + 1 else maxSize
  let (s, inputsForB) ← twosComplement fuel s inputsForB maxSize.toNat false
  let (s, links) ← synthLadnerFisherAdd fuel s inputsForB inputsForA outSize true true
  let s ← addOutputs links s
  -- the outputs are added twice
  let (s, links) ← synthLadnerFisherAdd fuel s inputsForB inputsForA outSize true true
  (← addOutputs links s).make

def synthNeg (fuel : ℕ) (wIn wOut : UInt32) (signExtend : Bool) : Option Subnet := do
  let (s, inputs) ← addInputs wIn.toNat {}
  let (s, links) ← twosComplement fuel s inputs wOut.toNat signExtend
  (← addOutputs links s).make

def synthNegS (fuel : ℕ) (wIn wOut : UInt32) : Option Subnet := synthNeg fuel wIn wOut true

def synthNegU (fuel : ℕ) (wIn wOut : UInt32) : Option Subnet := synthNeg fuel wIn wOut false

end UtopiaEda.Synthesizer
