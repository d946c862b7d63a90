import UtopiaEda.ProductSums
import UtopiaEda.WordNetworks

/-!
# Zhegalkin polynomials

The coefficients of the polynomial of a truth table, and the network of a polynomial: the cells of
the monomials and their sum. Strings of the characters 0 and 1 are lists of bits. The counters of
the loops have 32 bits and a sign, so a table with 31 or more variables gives no result.
-/
namespace UtopiaEda
open ProductSums

/-- `kitty::dynamic_truth_table`: the bit at the number of an assignment is the value there. -/
abbrev TruthTable (n : ℕ) := BitVec (2 ^ n)

namespace TruthTable

def get_bit {n : ℕ} (t : TruthTable n) (index : ℕ) : Bool := t.getLsbD index

def value {n : ℕ} (t : TruthTable n) (x : ℕ → Bool) : Bool := t.get_bit (point x n)

end TruthTable

namespace Synthesizer

def toBinString (num size : ℕ) : List Bool :=
  if num = 0 then .replicate size false
  else (num.bits ++ .replicate (size - num.bits.length) false).reverse

def popcntLoop : List Bool → ℕ → List ℕ
  | [], _ => []
  | bit :: a, count => if bit then count :: popcntLoop a (count + 1) else popcntLoop a (count + 1)

def popcnt (a : ℕ) : List ℕ := popcntLoop a.bits 0

abbrev Polynomial := List ℕ

abbrev Polarization := List Bool

/-- `1 << n` of type `int`. -/
def intShl (n : ℕ) : Option ℕ := if n < 31 then some (2 ^ n) else none

/-- `SubnetBuilder::makeConstSubnet`, without its cache. -/
def makeConstSubnet (symbol : CellTypeID) (nIn : ℕ) : Option Subnet := do
  let (s, _) ← SubnetBuilder.addInputs nIn {}
  let (s, link) ← s.addCell symbol []
  let (s, _) ← s.addOutput link
  s.make

def addPolarized (polarization : Polarization) :
    List EntryID → ℕ → SubnetBuilder → Option (SubnetBuilder × List EntryID)
  | [], _, s => some (s, [])
  | idx :: rest, i, s => do
    let (s, idx) ← (if ← polarization[i]? then do
        let (s, link) ← s.addCell .BUF [⟨idx, 0, true⟩]
        some (s, link.idx)
      else some (s, idx) : Option (SubnetBuilder × EntryID))
    let (s, rest) ← addPolarized polarization rest (i + 1) s
    some (s, idx :: rest)

def addMonomials (resultFunction : Polynomial) (idx : List EntryID) (maxSize : ℕ) :
    List ℕ → SubnetBuilder → Option (SubnetBuilder × List Link)
  | [], s => some (s, [])
  | i :: rest, s =>
    if resultFunction.getD i 0 = 0 then addMonomials resultFunction idx maxSize rest s
    else do
      let currentNode ← (popcnt i).mapM (fun n => do some (⟨← idx[n]?, 0, false⟩ : Link))
      let (s, link) ← s.addCellTree .AND currentNode maxSize
      let (s, links) ← addMonomials resultFunction idx maxSize rest s
      some (s, link :: links)

def createScheme (resultFunction : Polynomial) (polarization : Polarization) (maxArity argNum : ℕ) :
    Option Subnet :=
  if argNum = 2 ∧ ∀ i < 2 ^ argNum, resultFunction.getD i 0 = 0 then makeConstSubnet .ZERO argNum
  else do
    let maxSize := if maxArity < InPlaceLinks then maxArity else InPlaceLinks
    let (s, inputs) ← SubnetBuilder.addInputs argNum {}
    let (s, idx) ← addPolarized polarization (inputs.map Link.idx) 0 s
    let (s, one) ← (if resultFunction.getD 0 0 = 0 then some (s, []) else do
        let (s, one) ← s.addCell .ONE []
        some (s, [one]) : Option (SubnetBuilder × List Link))
    let (s, links) ← addMonomials resultFunction idx maxSize (.range' 1 ((← intShl argNum) - 1)) s
    let resultOutput := one ++ links
    let (s, out) ← (if 2 ≤ resultOutput.length then s.addCellTree .XOR resultOutput maxSize
      -- a link that is not assigned leads to the first entry
      else some (s, resultOutput.headD ⟨0, 0, false⟩) : Option (SubnetBuilder × Link))
    let (s, _) ← s.addOutput out
    s.make

namespace ZhegalkinSynthesizer

def charFromTruthTable {n : ℕ} (t : TruthTable n) : Polynomial :=
  (List.range (2 ^ n)).map (fun i => (t.get_bit i).toNat) ++ [n]

def positions (s : List Bool) : List ℕ := popcntLoop s 0

def apply (func : Polynomial) (s : List Bool) : ℕ :=
  let sCopy := (s ++ .replicate (func.getLastD 0 - s.length) false).reverse
  let positionsOfOnes := positions sCopy
  let size := positionsOfOnes.length
  (List.range (2 ^ size)).foldl (fun res i =>
    let str := toBinString i size
    let pos := (List.range size).foldl (fun pos j =>
      if str.getD j false then pos + 2 ^ positionsOfOnes.getD (size - 1 - j) 0 else pos) 0
    res ^^^ func.getD pos 0) 0

def charFromFunction (func : Polynomial) : Polynomial :=
  let numVar := func.getLastD 0
  (List.range (2 ^ numVar)).map (fun i => apply func (toBinString i numVar)) ++ [numVar]

def getTT {n : ℕ} (t : TruthTable n) : Polynomial := charFromFunction (charFromTruthTable t)

def synthesize {n : ℕ} (func : TruthTable n) (maxArity : UInt16) : Option Subnet :=
  let resultFunction := getTT func
  createScheme resultFunction (.replicate resultFunction.length false) maxArity.toNat n

end ZhegalkinSynthesizer

end Synthesizer

end UtopiaEda
