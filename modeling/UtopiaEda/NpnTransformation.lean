import UtopiaEda.SubnetReplay

/-!
# Transformed subnets

`npnTransform` copies a subnet: the links to inputs are permuted and negated, the output may be
negated, and inputs that are not used can be dropped. Numbers of type `uint8_t` are taken modulo
256.
-/
namespace UtopiaEda

/-- The bits of `negationMask` negate the inputs; the one behind them negates the output. -/
structure NpnTransformation where
  negationMask : BitVec 32
  permutation : List ℕ
  deriving DecidableEq, Repr

namespace NpnTransformation

/-- The body of the loop of `inverse`. -/
def inverseStep (t r : NpnTransformation) (i : ℕ) : Option NpnTransformation := do
  let p ← t.permutation[i]?
  if p < r.permutation.length then
    some ⟨if t.negationMask.getLsbD p then r.negationMask ||| .twoPow 32 i else r.negationMask,
      r.permutation.set p (i % 256)⟩
  else none

def inverse (t : NpnTransformation) : Option NpnTransformation := do
  let n := t.permutation.length
  let r ← (List.range n).foldlM t.inverseStep ⟨0#32, .replicate n 0⟩
  some { r with negationMask := r.negationMask ||| (t.negationMask &&& .twoPow 32 n) }

/-- The loop that numbers the inputs, from the last position on: unused inputs keep no number until
`notUsed` of them are removed. The body runs before the condition is checked, so without inputs the
permutation is read before its first element. -/
def permuteLoop (subnet : Subnet) (permutation : List ℕ) (notUsed : ℕ) :
    ℕ → List ℕ → ℕ → ℕ → Option (List ℕ × ℕ)
  | 0, _, _, _ => none
  | j + 1, rPermutation, inputID, nRemoved => do
    let p ← permutation[j]?
    let cell ← subnet.getCell p
    if p < rPermutation.length then
      let keep := cell.refcount ≠ 0 ∨ nRemoved = notUsed
      let rPermutation := rPermutation.set p inputID
      let inputID := if keep then (inputID + 255) % 256 else inputID
      let nRemoved := if keep then nRemoved else nRemoved + 1
      if j = 0 then some (rPermutation, nRemoved) else
        permuteLoop subnet permutation notUsed j rPermutation inputID nRemoved
    else none

def transformLink (rPermutation : List ℕ) (negationMask : BitVec 16) (expectedInCount notUsed : ℕ)
    (isOut : Bool) (link : Link) : Option Link := do
  let link ← (if link.idx < expectedInCount then do
      let idx ← rPermutation[link.idx]?
      some { link with idx := idx, inv := xor link.inv (negationMask.getLsbD link.idx) }
    else some { link with idx := link.idx - notUsed } : Option Link)
  some { link with inv := xor link.inv (isOut && negationMask.getLsbD expectedInCount) }

def transformEntry (subnet : Subnet) (rPermutation : List ℕ) (negationMask : BitVec 16)
    (expectedInCount notUsed nInUsed : ℕ) (builder : SubnetBuilder) (i : ℕ) :
    Option SubnetBuilder := do
  let cell ← subnet.getCell i
  if i < expectedInCount ∧ !cell.isIn then none
  else if i < expectedInCount ∧ nInUsed ≤ i then some builder
  else do
    let links ← cell.links.mapM (transformLink rPermutation negationMask expectedInCount notUsed
      cell.isOut)
    builder.addEntry (.cell { cell with links := links })

end NpnTransformation

open NpnTransformation in
def npnTransform (subnet : Subnet) (t : NpnTransformation) (nInUsed : ℕ := 255) : Option Subnet :=
  let negationMask := t.negationMask.setWidth 16
  let expectedInCount := t.permutation.length
  if subnet.size < expectedInCount then none
  else do
    let notUsed := if expectedInCount ≤ nInUsed then 0 else (expectedInCount - nInUsed) % 256
    let (rPermutation, nRemoved) ← permuteLoop subnet t.permutation notUsed expectedInCount
      (.replicate expectedInCount 0) ((expectedInCount - notUsed + 255) % 256) 0
    if nRemoved ≠ notUsed then none
    else do
      let builder ← (List.range subnet.size).foldlM
        (transformEntry subnet rPermutation negationMask expectedInCount notUsed nInUsed) {}
      builder.make

end UtopiaEda
