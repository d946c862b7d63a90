import UtopiaEda.Comparisons
import UtopiaEda.Multiplexers
import UtopiaEda.WordArithmetic

/-!
# Shifts

A decoder has a link for every amount; an output is the disjunction of the inputs that the amounts
lead there. The iterators over the inputs and the decoder are positions, and reading outside an
array gives no result. Most variables have 16 bits, some of them signed.
-/
namespace UtopiaEda.Synthesizer

structure Window where
  builder : SubnetBuilder
  iterInput : ℕ
  iterAnd : ℕ
  used : UInt16

namespace Window

variable (inputs andOperations : List Link) (useSign : Bool) (windowMinSize windowMaxSize : UInt16)

end Window

namespace Window

variable (inputs andOperations : List Link) (useSign : Bool) (windowMinSize windowMaxSize : UInt16)

end Window

open SubnetBuilder

end UtopiaEda.Synthesizer
