import Mathlib.Data.List.Forall2
import Mathlib.Algebra.GroupWithZero.Nat

/-!
# Serializers

Streams hold data of any kind; `put` says how a value is stored and `get` how the same number of
bytes is read back. A serializer restores a value if it reads exactly what it has written and gets a
value that is related to the one written.
-/
namespace UtopiaEda
open List

variable {D α T : Type} {R : T → T → Prop}

def pushIntoStream (put : α → D) (out : List D) (value : α) : List D := out ++ [put value]

/-- Reading behind the end throws an exception. -/
def pullFromStream (get : D → Option α) : List D → Option (α × List D)
  | [] => none
  | d :: input => (get d).map (·, input)

structure Serializer (D T : Type) where
  serialize : List D → T → List D
  deserialize : List D → Option (T × List D)

def NaiveSerializer (put : α → D) (get : D → Option α) : Serializer D α :=
  ⟨pushIntoStream put, pullFromStream get⟩

namespace VectorSerializer

/-- The loop of `deserialize`. -/
def deserializeLoop (s : Serializer D T) : ℕ → List T → List D → Option (List T × List D)
  | 0, result, input => some (result, input)
  | n + 1, result, input => do
    let (a, input) ← s.deserialize input
    deserializeLoop s n (result ++ [a]) input

end VectorSerializer

/-- The number of the elements, of the type `size_t`, is followed by the elements. -/
def VectorSerializer (sizes : Serializer D UInt64) (s : Serializer D T) :
    Serializer D (List T) where
  serialize out obj := obj.foldl s.serialize (sizes.serialize out (.ofNat obj.length))
  deserialize input := do
    let (size, input) ← sizes.deserialize input
    VectorSerializer.deserializeLoop s size.toNat [] input

namespace Serializer

/-- Exactly what is written for `a` is read, and the value read is related to `a`. -/
def Restores (s : Serializer D T) (R : T → T → Prop) (a : T) : Prop :=
  ∃ bytes, (∀ out, s.serialize out a = out ++ bytes) ∧
    ∀ input, ∃ a', s.deserialize (bytes ++ input) = some (a', input) ∧ R a a'

theorem restores_naive {put : α → D} {get : D → Option α} (hget : ∀ a, get (put a) = some a)
    (a : α) : (NaiveSerializer put get).Restores Eq a := by
  refine ⟨[put a], fun _ => rfl, fun input => ⟨a, ?_, rfl⟩⟩
  change (get (put a)).map (·, input) = some (a, input)
  rw [hget, Option.map_some]

private theorem restores_elements {s : Serializer D T} :
    ∀ {as : List T}, (∀ a ∈ as, s.Restores R a) →
    ∃ bytes, (∀ out, as.foldl s.serialize out = out ++ bytes) ∧ ∀ input result, ∃ as',
      VectorSerializer.deserializeLoop s as.length result (bytes ++ input) =
      some (result ++ as', input) ∧
        List.Forall₂ R as as' := by
  intro as
  induction as with
  | nil =>
    intro _
    refine ⟨[], fun out => (append_nil out).symm, fun input result => ⟨[], ?_, .nil⟩⟩
    rw [append_nil]
    rfl
  | cons a as ih =>
    intro h
    obtain ⟨bytes, hser, hde⟩ := h a mem_cons_self
    obtain ⟨rest, hsers, hdes⟩ := ih (fun b hb => h b (mem_cons_of_mem a hb))
    refine ⟨bytes ++ rest, fun out => ?_, fun input result => ?_⟩
    · rw [foldl_cons, hser, hsers, append_assoc]
    · obtain ⟨a', ha, hr⟩ := hde (rest ++ input)
      obtain ⟨as', has, hrs⟩ := hdes input (result ++ [a'])
      refine ⟨a' :: as', ?_, .cons hr hrs⟩
      rw [length_cons, VectorSerializer.deserializeLoop, append_assoc, ha]
      rw [append_assoc, singleton_append] at has
      exact has

theorem Restores.vector {sizes : Serializer D UInt64} {s : Serializer D T} {as : List T}
    (hsizes : ∀ n, sizes.Restores Eq n) (hlen : as.length < 2 ^ 64) (h : ∀ a ∈ as, s.Restores R a) :
    (VectorSerializer sizes s).Restores (List.Forall₂ R) as := by
  obtain ⟨bytes, hser, hde⟩ := hsizes (.ofNat as.length)
  obtain ⟨rest, hsers, hdes⟩ := restores_elements h
  refine ⟨bytes ++ rest, fun out => ?_, fun input => ?_⟩
  · change as.foldl s.serialize (sizes.serialize out (.ofNat as.length)) = _
    rw [hser, hsers, append_assoc]
  · obtain ⟨size, hsize, rfl⟩ := hde (rest ++ input)
    obtain ⟨as', has, hr⟩ := hdes input []
    refine ⟨as', ?_, hr⟩
    have hn : (UInt64.ofNat as.length).toNat = as.length := UInt64.toNat_ofNat_of_lt' hlen
    change ((sizes.deserialize (bytes ++ rest ++ input)).bind fun p =>
      VectorSerializer.deserializeLoop s p.1.toNat [] p.2) = some (as', input)
    rw [append_assoc, hsize, Option.bind_some, hn, has, nil_append]

end Serializer

end UtopiaEda
