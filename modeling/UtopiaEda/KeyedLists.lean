import Mathlib.Data.List.Basic
import Mathlib.Algebra.GroupWithZero.Nat

/-!
# Lists of values by key

A map from keys to lists to which values are added one after the other. A key that is missing has
the empty list.
-/
namespace UtopiaEda
open List

abbrev KeyedLists (κ α : Type) := List (κ × List α)

namespace KeyedLists

variable {κ α : Type} [DecidableEq κ] {k k' : κ} {a : α} {m : KeyedLists κ α}

def get (k : κ) : KeyedLists κ α → List α
  | [] => []
  | (k', values) :: m => if k' = k then values else get k m

def add (k : κ) (a : α) : KeyedLists κ α → KeyedLists κ α
  | [] => [(k, [a])]
  | (k', values) :: m => if k' = k then (k', values ++ [a]) :: m else (k', values) :: add k a m

def count (m : KeyedLists κ α) : ℕ := (m.map (·.2.length)).sum

theorem get_add_self : (m.add k a).get k = m.get k ++ [a] := by
  induction m with
  | nil =>
    rw [add, get, get, if_pos rfl]
    rfl
  | cons e m ih =>
    obtain ⟨k', values⟩ := e
    rw [add, get]
    split
    · rename_i heq
      rw [get, if_pos heq]
    · rename_i hne
      rw [get, if_neg hne, ih]

theorem get_add_of_ne (hk : k ≠ k') : (m.add k a).get k' = m.get k' := by
  induction m with
  | nil => exact if_neg hk
  | cons e m ih =>
    obtain ⟨k₁, values⟩ := e
    rw [add]
    split
    · rename_i heq
      rw [get, get, heq, if_neg hk, if_neg hk]
    · rw [get, get, ih]

theorem get_foldl_add {α' : Type} {key : α' → κ} {value : α' → α} :
    ∀ {l : List α'} {m : KeyedLists κ α}, (l.foldl (fun m a => m.add (key a) (value a)) m).get k =
    m.get k ++ (l.filter (fun a => key a = k)).map value := by
  intro l
  induction l with
  | nil => exact fun {m} => (append_nil _).symm
  | cons a l ih =>
    intro m
    rw [foldl_cons, ih, filter_cons]
    by_cases hk : key a = k
    · rw [if_pos (decide_eq_true hk), ← hk, get_add_self, map_cons, append_assoc, singleton_append]
    · rw [if_neg (by simpa using hk), get_add_of_ne hk]

theorem count_add : (m.add k a).count = m.count + 1 := by
  induction m with
  | nil => rfl
  | cons e m ih =>
    obtain ⟨k', values⟩ := e
    rw [add]
    split
    · simp only [count, map_cons, sum_cons, length_append, length_singleton]
      omega
    · simp only [count, map_cons, sum_cons] at ih ⊢
      omega

end KeyedLists

end UtopiaEda
