import UtopiaEda.KeyedLists
import UtopiaEda.NpnTransformation
import UtopiaEda.SubnetTruthTables

/-!
# The database of subnets by function

`push` stores a copy of the subnet that is transformed to the representative of its function. `get`
finds the subnets of the representative and transforms them back when they are taken out.
-/
namespace UtopiaEda

/-- `kitty::extend_to`: the new variables do not matter. -/
def TruthTable.extend_to {m : ℕ} (n : ℕ) (f : TruthTable m) : TruthTable n :=
  ofBits (fun k => f.get_bit (k % 2 ^ m))

abbrev DynamicTruthTable := (n : ℕ) × TruthTable n

abbrev ExactNpnCanonization := (n : ℕ) → TruthTable n → TruthTable n × NpnTransformation

structure ResultIterator where
  list : List Subnet
  transformation : NpnTransformation
  ind : ℕ := 0
  nInUsed : ℕ := 255

namespace ResultIterator

def isEnd (it : ResultIterator) : Bool := it.list.length ≤ it.ind

def next (it : ResultIterator) : ResultIterator :=
  if it.isEnd then it else { it with ind := it.ind + 1 }

def get (it : ResultIterator) :
    Option Subnet := do npnTransform (← it.list[it.ind]?) it.transformation it.nInUsed

/-- The subnets of the next `k` elements. -/
def take : ℕ → ResultIterator → Option (List Subnet)
  | 0, _ => some []
  | k + 1, it => if it.isEnd then some [] else do
    let subnet ← it.get
    let subnets ← take k it.next
    some (subnet :: subnets)

def results (it : ResultIterator) : Option (List Subnet) := it.take it.list.length

end ResultIterator

structure NpnDatabase where
  nInputs : ℕ := 0
  storage : KeyedLists DynamicTruthTable Subnet := []

namespace NpnDatabase

variable (canonize : ExactNpnCanonization) (lib : CellLibrary)

def get (db : NpnDatabase) (tt : DynamicTruthTable) : Option ResultIterator := do
  let nVars := tt.1
  let ttk : DynamicTruthTable :=
    if nVars < db.nInputs then ⟨db.nInputs, tt.2.extend_to db.nInputs⟩ else tt
  let config := canonize ttk.1 ttk.2
  let inverse ← config.2.inverse
  some { list := db.storage.get ⟨ttk.1, config.1⟩, transformation := inverse, nInUsed := nVars % 256 }

def push (db : NpnDatabase) (subnet : Subnet) : Option NpnDatabase := do
  let tt ← (← evaluate lib subnet)[0]?
  let config := canonize subnet.nIn tt
  let newSubnet ← npnTransform subnet config.2
  some { db with storage := db.storage.add ⟨subnet.nIn, config.1⟩ newSubnet }

end NpnDatabase

end UtopiaEda
