import Mathlib.Data.List.Basic
import Mathlib.Data.List.Range
import Mathlib.Tactic.Linarith
import Mathlib.Tactic.Ring

/-!
# Transitions in bit streams

A transition of a list of bits is a pair of neighbours that differ. Rises and falls alternate, so
their numbers differ by the last and the first bit only.
-/
namespace UtopiaEda.BitStreams
open List

/-- The number of bits `a` that are followed by `b`. -/
def steps (a b : Bool) (l : List Bool) : ℕ := (l.zip l.tail).count (a, b)

def rises (l : List Bool) : ℕ := steps false true l

def falls (l : List Bool) : ℕ := steps true false l

variable {a b x y : Bool} {l l' : List Bool}

@[simp] theorem steps_nil : steps a b [] = 0 := rfl

@[simp] theorem steps_singleton : steps a b [x] = 0 := rfl

theorem steps_cons_cons : steps a b (x :: y :: l) = steps a b (y :: l) + if x = a ∧ y = b then
    1 else 0 := by
  rw [steps, tail_cons, zip_cons_cons, count_cons, steps, tail_cons]
  simp only [beq_iff_eq, Prod.mk.injEq]

/-- Where two streams meet there may be one more. -/
theorem steps_append : steps a b (l ++ l') =
    steps a b l + steps a b l' + if l.getLast? = some a ∧ l'.head? = some b then 1 else 0 := by
  induction l with
  | nil => simp
  | cons x l ih =>
    cases l with
    | nil =>
      cases l' with
      | nil => simp
      | cons y l' => simp [steps_cons_cons]
    | cons y l =>
      rw [cons_append, cons_append, steps_cons_cons, ← cons_append, ih, steps_cons_cons,
        getLast?_cons_cons]
      ring

theorem steps_range (f : ℕ → Bool) (n : ℕ) : steps a b ((range (n + 1)).map f) =
    (range n).countP fun j => decide (f j = a) && decide (f (j + 1) = b) := by
  induction n with
  | zero => rfl
  | succ n ih =>
    have hlast : ((range (n + 1)).map f).getLast? = some (f n) := by
      rw [range_succ, map_append, map_singleton, getLast?_concat]
    have hone : (range (n + 1)).countP (fun j => decide (f j = a) && decide (f (j + 1) = b)) =
        (range n).countP (fun j => decide (f j = a) && decide (f (j + 1) = b)) +
          if f n = a ∧ f (n + 1) = b then 1 else 0 := by
      rw [range_succ, countP_append, countP_singleton]
      simp only [Bool.and_eq_true, decide_eq_true_eq]
    have hall : (range (n + 2)).map f = (range (n + 1)).map f ++ [f (n + 1)] := by
      rw [range_succ, map_append, map_singleton]
    rw [hall, steps_append, ih, hone, hlast, steps_singleton, head?_cons, Nat.add_zero]
    simp only [Option.some.injEq]

theorem rises_sub_falls (hl : l ≠ []) :
    (rises l : ℤ) - falls l = (l.getLast hl).toNat - (l.head hl).toNat := by
  induction l with
  | nil => exact absurd rfl hl
  | cons x l ih =>
    cases l with
    | nil => simp [rises, falls]
    | cons y l =>
      have hrest := ih (cons_ne_nil y l)
      rw [head_cons] at hrest ⊢
      rw [rises, falls] at hrest
      rw [rises, falls, steps_cons_cons, steps_cons_cons, getLast_cons (cons_ne_nil y l)]
      push_cast
      cases x <;> cases y <;> simp at hrest ⊢ <;> linarith

end UtopiaEda.BitStreams
