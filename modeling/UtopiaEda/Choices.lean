import Mathlib.Algebra.BigOperators.Group.List.Basic

/-!
# Choices of one element from each list

Numbers below the product of the lengths of some lists enumerate the ways to choose an element
from each list: the first list gives the most significant digit.
-/
namespace UtopiaEda.Choices
open List

variable {α : Type*}

def number (ls : List (List α)) : ℕ := (ls.map length).prod

@[simp] theorem number_nil : number ([] : List (List α)) = 1 := rfl

@[simp] theorem number_cons (l : List α) (ls : List (List α)) :
    number (l :: ls) = l.length * number ls := by
  simp [number]

def decode : List (List α) → ℕ → Option (List α)
  | [], _ => some []
  | l :: ls, i => do
    let a ← l[i / number ls]?
    let as ← decode ls (i % number ls)
    some (a :: as)

def choices : List (List α) → List (List α)
  | [] => [[]]
  | l :: ls => l.flatMap fun a => (choices ls).map (a :: ·)

theorem exists_of_forall₂ {β : Type*} {R : α → β → Prop} {as : List α} {bs : List β}
    (h : List.Forall₂ R as bs) : ∀ a ∈ as, ∃ b ∈ bs, R a b := by
  induction h with
  | nil => simp
  | cons hab _ ih =>
    refine forall_mem_cons.mpr ⟨⟨_, mem_cons_self, hab⟩, fun a ha => ?_⟩
    obtain ⟨b, hb, hR⟩ := ih a ha
    exact ⟨b, mem_cons_of_mem _ hb, hR⟩

theorem mem_choices {ls : List (List α)} {as : List α} :
    as ∈ choices ls ↔ List.Forall₂ (fun a l => a ∈ l) as ls := by
  induction ls generalizing as with
  | nil => simp [choices]
  | cons l ls ih =>
    simp only [choices, mem_flatMap, mem_map, ih]
    constructor
    · rintro ⟨a, ha, as, has, rfl⟩
      exact .cons ha has
    · intro h
      cases h with
      | cons ha has => exact ⟨_, ha, _, has, rfl⟩

private theorem map_range_add (f : ℕ → Option (List α)) (m n : ℕ) :
    (range (m + n)).map f = (range m).map f ++
    (range n).map (fun i => f (m + i)) := by
  rw [range_add, map_append, map_map]
  rfl

theorem map_decode (ls : List (List α)) :
    (range (number ls)).map (decode ls) = (choices ls).map some := by
  induction ls with
  | nil => rfl
  | cons l ls ih =>
    rw [number_cons]
    induction l with
    | nil => simp [choices]
    | cons a l ihl =>
      have hzero : ∀ i ∈ range (number ls),
          decode ((a :: l) :: ls) i = (decode ls i).map (a :: ·) := by
        intro i hi
        have hlt := mem_range.mp hi
        simp only [decode, Nat.div_eq_of_lt hlt, Nat.mod_eq_of_lt hlt, getElem?_cons_zero,
          Option.bind_eq_bind, Option.bind_some]
        cases decode ls i <;> rfl
      have hsucc : ∀ i ∈ range (l.length * number ls),
          decode ((a :: l) :: ls) (number ls + i) = decode (l :: ls) i := by
        intro i hi
        have hpos : 0 < number ls := by
          have := mem_range.mp hi
          exact Nat.pos_of_ne_zero fun h => by simp [h] at this
        rw [decode, decode, Nat.add_div_left i hpos, Nat.add_mod_left, getElem?_cons_succ]
      rw [length_cons, Nat.succ_mul, Nat.add_comm, map_range_add, map_congr_left hzero,
        map_congr_left hsucc, ihl]
      have hhead : (range (number ls)).map (fun i => (decode ls i).map (a :: ·)) =
          ((choices ls).map some).map (Option.map (a :: ·)) := by
        rw [← ih, map_map]
        rfl
      rw [hhead]
      simp [choices, map_flatMap, Function.comp_def]

end UtopiaEda.Choices
