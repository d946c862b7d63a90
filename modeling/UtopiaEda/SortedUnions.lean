import Mathlib.Data.Finset.Basic
import Mathlib.Data.Finset.Card
import Mathlib.Data.List.Sort

/-!
# Unions of sorted lists

A strictly increasing list stands for the set of its elements. The union of two such lists is
found by going through both at once.
-/
namespace UtopiaEda.SortedUnions
open List

variable {α : Type*} [LinearOrder α] {xs ys : List α} {a : α}

def union : List α → List α → List α
  | [], ys => ys
  | x :: xs, [] => x :: xs
  | x :: xs, y :: ys =>
    if x = y then x :: union xs ys
    else if x < y then x :: union xs (y :: ys)
    else y :: union (x :: xs) ys
termination_by xs ys => xs.length + ys.length

@[simp] theorem union_nil : union xs [] = xs := by
  cases xs <;> simp [union]

@[simp] theorem nil_union : union [] ys = ys := by simp [union]

theorem mem_union : a ∈ union xs ys ↔ a ∈ xs ∨ a ∈ ys := by
  induction xs, ys using union.induct with
  | case1 ys => simp
  | case2 x xs => simp
  | case3 x xs ys ih =>
    rw [union, if_pos rfl, mem_cons, ih]
    simp only [mem_cons]
    tauto
  | case4 x xs y ys hne hlt ih =>
    rw [union, if_neg hne, if_pos hlt, mem_cons, ih]
    simp only [mem_cons]
    tauto
  | case5 x xs y ys hne hlt ih =>
    rw [union, if_neg hne, if_neg hlt, mem_cons, ih]
    simp only [mem_cons]
    tauto

/-- The union of increasing lists is increasing. -/
theorem pairwise_union (hx : xs.Pairwise (· < ·)) (hy : ys.Pairwise (· < ·)) :
    (union xs ys).Pairwise (· < ·) := by
  induction xs, ys using union.induct with
  | case1 ys => simpa using hy
  | case2 x xs => simpa using hx
  | case3 x xs ys ih =>
    rw [union, if_pos rfl]
    rw [pairwise_cons] at hx hy ⊢
    refine ⟨fun a ha => ?_, ih hx.2 hy.2⟩
    exact (mem_union.mp ha).elim (hx.1 a) (hy.1 a)
  | case4 x xs y ys hne hlt ih =>
    rw [union, if_neg hne, if_pos hlt]
    have hy' := pairwise_cons.mp hy
    rw [pairwise_cons] at hx ⊢
    refine ⟨fun a ha => ?_, ih hx.2 hy⟩
    rcases mem_union.mp ha with ha | ha
    · exact hx.1 a ha
    · rcases mem_cons.mp ha with rfl | ha
      exacts [hlt, hlt.trans (hy'.1 a ha)]
  | case5 x xs y ys hne hlt ih =>
    rw [union, if_neg hne, if_neg hlt]
    have hgt : y < x := lt_of_le_of_ne (not_lt.mp hlt) (Ne.symm hne)
    have hx' := pairwise_cons.mp hx
    rw [pairwise_cons] at hy ⊢
    refine ⟨fun a ha => ?_, ih hx hy.2⟩
    rcases mem_union.mp ha with ha | ha
    · rcases mem_cons.mp ha with rfl | ha
      exacts [hgt, hgt.trans (hx'.1 a ha)]
    · exact hy.1 a ha

theorem nodup_of_pairwise (h : xs.Pairwise (· < ·)) : xs.Nodup := h.imp ne_of_lt

theorem card_toFinset (h : xs.Pairwise (· < ·)) : xs.toFinset.card = xs.length :=
  toFinset_card_of_nodup (nodup_of_pairwise h)

theorem toFinset_union : (union xs ys).toFinset = xs.toFinset ∪ ys.toFinset := by
  ext a
  simp [mem_union]

/-- The number of the steps is the size of the union. -/
theorem length_union (hx : xs.Pairwise (· < ·)) (hy : ys.Pairwise (· < ·)) :
    (union xs ys).length = (xs.toFinset ∪ ys.toFinset).card := by
  rw [← toFinset_union, card_toFinset (pairwise_union hx hy)]

/-- Increasing lists of the same elements are equal. -/
theorem eq_of_toFinset_eq (hx : xs.Pairwise (· < ·)) (hy : ys.Pairwise (· < ·))
    (h : xs.toFinset = ys.toFinset) : xs = ys := by
  have hperm : xs.Perm ys := by
    rw [perm_ext_iff_of_nodup (nodup_of_pairwise hx) (nodup_of_pairwise hy)]
    intro a
    rw [← mem_toFinset, h, mem_toFinset]
  exact hperm.eq_of_pairwise (fun a b _ _ hab hba => absurd hab hba.asymm) hx hy

end UtopiaEda.SortedUnions
