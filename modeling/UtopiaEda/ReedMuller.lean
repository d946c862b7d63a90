import UtopiaEda.Zhegalkin

/-!
# Reed-Muller polynomials

A synthesizer object walks through all polarities of the inputs in the order of a Gray code, and
keeps the polynomial with the least metric. The polynomial is a field of the object, to which every
call appends the values of its table.
-/
namespace UtopiaEda.Synthesizer

abbrev PolarizedPolynomial := Polynomial × Polarization

def termMetric (polynomial : Polynomial) (countingLenght : Bool) : UInt64 :=
  (List.range polynomial.length).foldl (fun result i =>
    if polynomial.getD i 0 = 0 then result
    else
      let popcount := UInt64.ofNat (i.bits.count true)
      if countingLenght then result + popcount else max result popcount) 0

def longestTerm (polynomial : Polynomial) : UInt64 := termMetric polynomial false

def sumOfTerms (polynomial : Polynomial) : UInt64 := termMetric polynomial true

/-- The object. The number of its variables is set by a call before it is read. -/
structure ReedMuller where
  polynomial : Polynomial := []
  currentMetricFunction : Option (Polynomial → UInt64) := some sumOfTerms

namespace ReedMuller

/-- The cyclic shift by reversals. No caller shifts to the left by more than the length. -/
def shift (polynomial : Polynomial) (pos : ℕ) (right : Bool) : Polynomial :=
  let len := polynomial.length
  let pos := (if right then pos else len - pos) % len
  ((polynomial.take (len - pos)).reverse ++ (polynomial.drop (len - pos)).reverse).reverse

def polarityOperation (polynomial : Polynomial) (index : ℕ) (rightShift : Bool) :
    Option Polynomial := do
  let bit ← intShl index
  let copy := polynomial.mapIdx (fun i v =>
    if i &&& bit = 0 ∧ rightShift = false ∨ i &&& bit ≠ 0 ∧ rightShift = true then 0 else v)
  some (polynomial.zipWith (· ^^^ ·) (shift copy bit rightShift))

def polarize (polynomial : Polynomial) (index : ℕ) : Option Polynomial :=
  polarityOperation polynomial index true

def changePolarity (polynomial : Polynomial) (index : ℕ) : Option Polynomial :=
  polarityOperation polynomial index false

def firstOnePos (i : ℕ) : Option ℕ :=
  (List.range 31).find? (fun p => decide ((i + 1) &&& 2 ^ p ≠ 0))

structure Walk where
  polynomial : Polynomial
  minMetric : UInt64
  optimum : Polynomial
  version : ℕ
  flag : Bool

def Walk.step (metric : Polynomial → UInt64) (w : Walk) (i : ℕ) : Option Walk := do
  let polynomial ← changePolarity w.polynomial (← firstOnePos i)
  let curMetric := metric polynomial
  some (if curMetric < w.minMetric then ⟨polynomial, curMetric, polynomial, i, false⟩
    else { w with polynomial := polynomial })

def getPolarized (metric : Polynomial → UInt64) (polynomial : Polynomial) :
    Option (Polynomial × ℕ) := do
  let w ← (List.range polynomial.length).foldlM (Walk.step metric) ⟨polynomial, metric polynomial,
    polynomial, 0, true⟩
  some (w.optimum, if w.flag then 0 else w.version + 1)

def getOptimal (numVars : ℕ) (metric : Polynomial → UInt64) (polynomial : Polynomial) :
    Option PolarizedPolynomial := do
  let (polynomial, step) ← getPolarized metric polynomial
  let polarized ← (List.range step).foldlM (fun (polarized : Polarization) i => do
    let p ← firstOnePos i
    some (polarized.set p !(← polarized[p]?))) (.replicate numVars false)
  some (polynomial, polarized)

/-- The polynomial of a call and its polarity, from which the network is made. -/
def expand {n : ℕ} (r : ReedMuller) (func : TruthTable n) :
    Option (ReedMuller × PolarizedPolynomial) := do
  let polynomial := r.polynomial ++ (List.range (2 ^ n)).map (fun i => (func.get_bit i).toNat)
  let polynomial ← (List.range n).foldlM polarize polynomial
  let result ← match r.currentMetricFunction with
    | some metric => getOptimal n metric polynomial
    | none => some (polynomial, .replicate polynomial.length false)
  some ({ r with polynomial := result.1 }, result)

def synthesize {n : ℕ} (r : ReedMuller) (func : TruthTable n) (maxArity : UInt16) :
    Option (ReedMuller × Subnet) := do
  let (r, result) ← r.expand func
  let S ← createScheme result.1 result.2 maxArity.toNat n
  some (r, S)

end ReedMuller

end UtopiaEda.Synthesizer
