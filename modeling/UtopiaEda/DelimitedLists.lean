import Mathlib.Data.List.Basic

/-!
# Pieces of a list between delimiters

A list is read up to the next delimiter, again and again, until nothing is left. A delimiter at the
end ends the last piece, it does not start another one.
-/
namespace UtopiaEda
open List

variable {α β : Type} [DecidableEq α] {d : α} {l rest : List α} {ls : List (List α)}

/-- The results of reading up to the next delimiter. -/
def pieces (d : α) : List α → List (List α)
  | [] => []
  | a :: as => if a = d then [] :: pieces d as else
    match pieces d as with
    | [] => [[a]]
    | l :: ls => (a :: l) :: ls

theorem pieces_append (hl : d ∉ l) : pieces d (l ++ d :: rest) = l :: pieces d rest := by
  induction l with
  | nil => rw [nil_append, pieces, if_pos rfl]
  | cons a l ih =>
    have ha : a ≠ d := by
      rintro rfl
      exact hl mem_cons_self
    rw [cons_append, pieces, if_neg ha, ih (fun hmem => hl (mem_cons_of_mem a hmem))]

theorem pieces_of_not_mem (hl : d ∉ l) (hne : l ≠ []) : pieces d l = [l] := by
  induction l with
  | nil => exact absurd rfl hne
  | cons a l ih =>
    have ha : a ≠ d := by
      rintro rfl
      exact hl mem_cons_self
    rw [pieces, if_neg ha]
    cases l with
    | nil => rfl
    | cons b l => rw [ih (fun hmem => hl (mem_cons_of_mem a hmem)) (cons_ne_nil b l)]

theorem pieces_flatMap (rest : List α) (hls : ∀ l ∈ ls, d ∉ l) :
    pieces d (ls.flatMap (· ++ [d]) ++ rest) = ls ++ pieces d rest := by
  induction ls with
  | nil => rfl
  | cons l ls ih =>
    rw [flatMap_cons, append_assoc, append_assoc, singleton_append,
      pieces_append (hls l mem_cons_self), ih (fun l' hl' => hls l' (mem_cons_of_mem l hl')),
      cons_append]

theorem pieces_separated : ∀ {ls : List (List α)} {l : List α}, d ∉ l → l ≠ [] →
    (∀ k ∈ ls, d ∉ k ∧ k ≠ []) → pieces d (l ++ ls.flatMap (d :: ·)) = l :: ls := by
  intro ls
  induction ls with
  | nil =>
    intro l hl hne _
    rw [flatMap_nil, append_nil]
    exact pieces_of_not_mem hl hne
  | cons k ls ih =>
    intro l hl _ hls
    obtain ⟨hk, hkne⟩ := hls k mem_cons_self
    rw [flatMap_cons, cons_append, pieces_append hl,
      ih hk hkne (fun k' hk' => hls k' (mem_cons_of_mem k hk'))]

end UtopiaEda
