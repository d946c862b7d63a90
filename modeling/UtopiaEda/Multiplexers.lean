import UtopiaEda.SubnetCopying
import UtopiaEda.EntryRearrangement

/-!
# Multiplexers and demultiplexers

`addMux2` selects one of two words, `addDemux2` passes a word on to one of two places; `synthMux`
and `synthDemux` do so for every bit of the selection. A result `none` means that an assertion of
the source fails or that an element outside an array is written.
-/
namespace UtopiaEda.Synthesizer

/-- `OUT = (S == 0) ? X : Y`. -/
def addMux2 (s : SubnetBuilder) (sel x y : Link) : Option (SubnetBuilder × Link) := do
  let (s, left) ← s.addCell .AND [sel.not, x]
  let (s, right) ← s.addCell .AND [sel, y]
  s.addCell .OR [left, right]

/-- `OUT[i] = (S == 0) ? X[i] : Y[i]`. -/
def addMux2Words (sel : Link) :
    List Link → List Link → SubnetBuilder → Option (SubnetBuilder × List Link)
  | x :: xs, y :: ys, s => do
    let (s, link) ← addMux2 s sel x y
    let (s, links) ← addMux2Words sel xs ys s
    some (s, link :: links)
  | [], [], s => some (s, [])
  | _, _, _ => none

/-- `OUT[i] = (S == 0) ? X[i] : X[|X|/2 + i]`. -/
def addMux2Halves (sel : Link) (x : List Link) (s : SubnetBuilder) :
    Option (SubnetBuilder × List Link) :=
  if x.length = 0 ∨ x.length % 2 = 1 then none
  else addMux2Words sel (x.take (x.length / 2)) (x.drop (x.length / 2)) s

def addMuxes : List Link → List Link → SubnetBuilder → Option (SubnetBuilder × List Link)
  | [], x, s => some (s, x)
  | sel :: sels, x, s => do
    let (s, x) ← addMux2Halves sel x s
    addMuxes sels x s

/-- `OUT[s] = (S == s) ? X : 0`. -/
def addDemux2 (s : SubnetBuilder) (sel x : Link) : Option (SubnetBuilder × Link × Link) := do
  let (s, left) ← s.addCell .AND [sel.not, x]
  let (s, right) ← s.addCell .AND [sel, x]
  some (s, left, right)

/-- The loop over the word; the second link is always written behind the first place of the upper
half. -/
def addDemux2Loop (sel : Link) (size : ℕ) :
    ℕ → List Link → SubnetBuilder → List Link → Option (SubnetBuilder × List Link)
  | _, [], s, links => some (s, links)
  | i, x :: xs, s, links => do
    let (s, left, right) ← addDemux2 s sel x
    if size + 1 < links.length then
      addDemux2Loop sel size (i + 1) xs s ((links.set i left).set (size + 1) right)
    else none

def addDemux2Word (sel : Link) (x : List Link) (s : SubnetBuilder) :
    Option (SubnetBuilder × List Link) :=
  addDemux2Loop sel x.length 0 x s (.replicate (2 * x.length) ⟨0, 0, false⟩)

def addDemuxes : List Link → List Link → SubnetBuilder → Option (SubnetBuilder × List Link)
  | [], x, s => some (s, x)
  | sel :: sels, x, s => do
    let (s, x) ← addDemux2Word sel x s
    addDemuxes sels x s

open SubnetBuilder

def synthMux (sizeS sizeX outSize : UInt32) : Option Subnet := do
  let (s, sels) ← addInputs sizeS.toNat {}
  let (s, x) ← addInputs sizeX.toNat s
  let (s, x) ← addMuxes sels x s
  if x.length = outSize.toNat then (← addOutputs x s).make
  else none

def synthDemux (sizeS sizeX : UInt32) : Option Subnet := do
  let (s, sels) ← addInputs sizeS.toNat {}
  let (s, x) ← addInputs sizeX.toNat s
  let (s, x) ← addDemuxes sels x s
  (← addOutputs x s).make

end UtopiaEda.Synthesizer
