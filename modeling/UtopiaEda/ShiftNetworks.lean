import UtopiaEda.ComparisonNetworks
import UtopiaEda.MultiplexerNetworks
import UtopiaEda.Shifts
import UtopiaEda.SubtractionNetworks

/-!
# The networks of shifts

An output is the disjunction over a window: the inputs that an amount leads to this output, each
with the link of that amount. The windows of both loops are described by the number of the output
alone.
-/
namespace UtopiaEda.Synthesizer

open List
open Option (bind_eq_bind bind_some map_some)
open SubnetBuilder
open BitVec (eq_of_getLsbD_eq ofInt testBit_toNat toNat_ofInt)

variable {s s' s'' : SubnetBuilder} {ins outs : List EntryID} {fuel n n' m w k c out : ℕ} {l : Link}
  {links inputs andOperations muxInputs : List Link} {useSign : Bool} {x : ℕ → Bool}
  {F : (EntryID → ℕ → Bool) → Bool} {W V X Y : (EntryID → ℕ → Bool) → ℕ → Bool}
  {y : (EntryID → ℕ → Bool) → ℕ}

/-! ### The decoder -/

/-- The window before the output `n - 1 - count`: amounts below `k` lead bits below `n` there. -/
structure Window.Right (n k count : ℕ) (w : Window) : Prop where
  iterInput : w.iterInput = n - (count - k)
  iterAnd : w.iterAnd = 0
  used : w.used.toNat = min count k

def integer (useSign : Bool) (X : BitVec n) : ℤ := if useSign then X.toInt else X.toNat

/-- `(Y >= 0) ? X >> Y : X << -Y`. -/
def shift (useSign : Bool) (sizeX sizeY outSize : ℕ) (x : ℕ → Bool) : ℕ → Bool :=
  let X := integer useSign (inputWord x 0 sizeX)
  let Y := (inputWord x sizeX sizeY).toInt
  (ofInt outSize (if 0 ≤ Y then X / 2 ^ Y.toNat else X * 2 ^ (-Y).toNat)).getLsbD

/-- The word of the inputs, and what stands behind its last bit. -/
def extended (useSign : Bool) (n : ℕ) : (EntryID → ℕ → Bool) → ℕ → Bool :=
  if useSign then signExtended 0 n else zeroExtended 0 n

variable {sizeX sizeY outSize : UInt32}

end UtopiaEda.Synthesizer
