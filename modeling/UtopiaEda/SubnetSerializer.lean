import UtopiaEda.Serializers
import UtopiaEda.SubnetReplay

/-!
# The serializer of subnets

The number of entries is followed by the entries as they stand in the array. They are read as cells
and added to a builder one after the other; only the links in the cell itself are read, so a cell
with more links has links that were never there.
-/
namespace UtopiaEda

/-- The data in a stream. A number or an entry is a fixed number of bytes. -/
inductive Datum where
  | uint32 (n : UInt32)
  | size (n : UInt64)
  | entry (e : Entry)
  deriving DecidableEq, Repr

namespace Datum

def uint32? : Datum → Option UInt32
  | .uint32 n => some n
  | _ => none

def size? : Datum → Option UInt64
  | .size n => some n
  | _ => none

def entry? : Datum → Option Entry
  | .entry e => some e
  | _ => none

end Datum

namespace SubnetSerializer

def serialize (out : List Datum) (subnet : Subnet) : List Datum :=
  let size := UInt32.ofNat subnet.size
  (subnet.entries.take size.toNat).foldl (pushIntoStream .entry) (pushIntoStream .uint32 out size)

def deserializeLoop : ℕ → SubnetBuilder → List Datum → Option (SubnetBuilder × List Datum)
  | 0, sb, input => some (sb, input)
  | n + 1, sb, input => do
    let (current, input) ← pullFromStream Datum.entry? input
    deserializeLoop n (← sb.addEntry current) input

def deserialize (input : List Datum) : Option (Subnet × List Datum) := do
  let (size, input) ← pullFromStream Datum.uint32? input
  let (sb, input) ← deserializeLoop size.toNat {} input
  some (← sb.make, input)

end SubnetSerializer

def SubnetSerializer : Serializer Datum Subnet :=
  ⟨SubnetSerializer.serialize, SubnetSerializer.deserialize⟩

def SubnetListSerializer : Serializer Datum (List Subnet) :=
  VectorSerializer (NaiveSerializer Datum.size Datum.size?) SubnetSerializer

end UtopiaEda
