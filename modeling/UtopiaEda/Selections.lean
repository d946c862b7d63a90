import Mathlib.Data.List.Duplicate
import Mathlib.Data.List.Sort
import Mathlib.Order.Lattice

/-!
# Selections from a list

Keeping the elements that no other one dominates, one by one as they come, and keeping the first
elements in some order. A sort may put elements with equal keys in any order; what is certain to
be among the first ones depends on how many others may come before.
-/
namespace UtopiaEda.Selections
open List

section Undominated

variable {α : Type*} (dom : α → α → Bool)

def undominated (P : List α) : List α := P.filter fun a => P.all fun b => !dom b a

/-- Compares a new element with those seen before, each with a flag that says whether it is still
kept: those that the new one dominates are given up. The result says whether to keep the new one. -/
def notDominated (a : α) : List (α × Bool) → Bool × List (α × Bool)
  | [] => (true, [])
  | (b, viable) :: seen =>
    if dom b a then (false, (b, viable) :: seen)
    else
      let (keep, seen) := notDominated a seen
      (keep, (b, viable && !dom a b) :: seen)

def add (seen : List (α × Bool)) (a : α) : List (α × Bool) :=
  let (keep, seen) := notDominated dom a seen
  if keep then seen ++ [(a, true)] else seen

def kept (seen : List (α × Bool)) : List α := (seen.filter Prod.snd).map Prod.fst

variable {dom} {a : α} {P : List α} {seen : List (α × Bool)}

theorem mem_undominated : a ∈ undominated dom P ↔ a ∈ P ∧ ∀ b ∈ P, dom b a = false := by
  simp [undominated]

theorem exists_undominated (size : α → ℕ) (hsize : ∀ a b, dom a b = true → size a < size b)
    (htrans : ∀ a b c, dom a b = true → dom b c = true → dom a c = true)
    (h : ∃ b ∈ P, dom b a = true) : ∃ b ∈ undominated dom P, dom b a = true := by
  obtain ⟨b, hb, hba⟩ := h
  induction hn : size b using Nat.strong_induction_on generalizing b with
  | _ n ih =>
    by_cases hmin : ∀ c ∈ P, dom c b = false
    · exact ⟨b, mem_undominated.mpr ⟨hb, hmin⟩, hba⟩
    · push Not at hmin
      obtain ⟨c, hc, hcb⟩ := hmin
      rw [ne_eq, Bool.not_eq_false] at hcb
      exact ih (size c) (hn ▸ hsize c b hcb) c hc (htrans c b a hcb hba) rfl

theorem notDominated_fst : (notDominated dom a seen).1 = seen.all fun b => !dom b.1 a := by
  induction seen with
  | nil => rfl
  | cons b seen ih =>
    cases h : dom b.1 a with
    | true => simp [notDominated, h]
    | false => simp [notDominated, h, ih]

theorem map_fst_notDominated : (notDominated dom a seen).2.map Prod.fst = seen.map Prod.fst := by
  induction seen with
  | nil => rfl
  | cons b seen ih =>
    cases h : dom b.1 a with
    | true => simp [notDominated, h]
    | false => simp [notDominated, h, ih]

theorem kept_notDominated_of_forall (h : ∀ b ∈ seen, dom b.1 a = false) :
    kept (notDominated dom a seen).2 = (kept seen).filter fun b => !dom a b := by
  induction seen with
  | nil => rfl
  | cons b seen ih =>
    rw [forall_mem_cons] at h
    have htail := ih h.2
    simp only [kept] at htail
    simp only [notDominated, h.1, Bool.false_eq_true, if_false, kept]
    obtain ⟨b, viable⟩ := b
    cases viable with
    | false => simpa using htail
    | true => cases hab : dom a b <;> simp [hab, htail]

theorem kept_notDominated_of_not (h : ∀ b ∈ kept seen, dom a b = false) :
    kept (notDominated dom a seen).2 = kept seen := by
  induction seen with
  | nil => rfl
  | cons b seen ih =>
    obtain ⟨b, viable⟩ := b
    cases hba : dom b a with
    | true => simp [notDominated, hba]
    | false =>
      cases viable with
      | false =>
        have htail := ih h
        simp only [kept] at htail
        simpa [notDominated, hba, kept] using htail
      | true =>
        have hhead : dom a b = false := h b (by simp [kept])
        have htail := ih (fun c hc => h c (by
          simp only [kept, filter_cons, if_true, map_cons, mem_cons]
          exact .inr hc))
        simp only [kept] at htail
        simpa [notDominated, hba, kept, hhead] using htail

structure Seen (dom : α → α → Bool) (P : List α) (seen : List (α × Bool)) : Prop where
  mem : ∀ b ∈ seen, b.1 ∈ P
  kept_eq : kept seen = undominated dom P

theorem Seen.add (size : α → ℕ) (hsize : ∀ a b, dom a b = true → size a < size b)
    (htrans : ∀ a b c, dom a b = true → dom b c = true → dom a c = true) (h : Seen dom P seen)
    (a : α) : Seen dom (P ++ [a]) (add dom seen a) := by
  have hmem : ∀ b ∈ (notDominated dom a seen).2, b.1 ∈ P := by
    intro b hb
    have hfst : (notDominated dom a seen).2.map Prod.fst = seen.map Prod.fst := map_fst_notDominated
    have hb' : b.1 ∈ seen.map Prod.fst := hfst ▸ mem_map_of_mem hb
    obtain ⟨c, hc, heq⟩ := mem_map.mp hb'
    exact heq ▸ h.mem c hc
  have hirrefl : dom a a = false := by
    rw [← Bool.not_eq_true]
    exact fun haa => Nat.lt_irrefl _ (hsize a a haa)
  have happend : undominated dom (P ++ [a]) = ((undominated dom P).filter fun b => !dom a b) ++
      if P.all fun b => !dom b a then [a] else [] := by
    rw [undominated, filter_append, undominated, filter_filter]
    congr 1
    · refine filter_congr fun b _ => ?_
      simp [Bool.and_comm]
    · simp [filter_cons, hirrefl]
  have hseen : (seen.all fun b => !dom b.1 a) = P.all fun b => !dom b a := by
    rw [Bool.eq_iff_iff, all_eq_true, all_eq_true]
    constructor
    · intro hall b hb
      rw [Bool.not_eq_true', ← Bool.not_eq_true]
      intro hba
      obtain ⟨c, hc, hca⟩ := exists_undominated size hsize htrans ⟨b, hb, hba⟩
      rw [← h.kept_eq] at hc
      obtain ⟨d, hd, rfl⟩ := mem_map.mp hc
      have := hall d (mem_of_mem_filter hd)
      simp [hca] at this
    · exact fun hall b hb => hall b.1 (h.mem b hb)
  unfold Selections.add
  have hfst : (notDominated dom a seen).1 = seen.all fun b => !dom b.1 a := notDominated_fst
  rw [hseen] at hfst
  cases hall : P.all fun b => !dom b a with
  | true =>
    rw [hall] at hfst
    have hfree : ∀ b ∈ seen, dom b.1 a = false := by
      intro b hb
      have := all_eq_true.mp (hseen.trans hall) b hb
      simpa using this
    simp only [hfst, if_true]
    refine ⟨fun b hb => ?_, ?_⟩
    · rcases mem_append.mp hb with hb | hb
      · exact mem_append_left _ (hmem b hb)
      · rw [mem_singleton.mp hb]
        exact mem_append_right _ mem_cons_self
    · have hsplit : kept ((notDominated dom a seen).2 ++ [(a, true)]) =
          kept (notDominated dom a seen).2 ++ [a] := by
        simp [kept]
      rw [hsplit, kept_notDominated_of_forall hfree, h.kept_eq, happend, hall, if_pos rfl]
  | false =>
    rw [hall] at hfst
    simp only [hfst, Bool.false_eq_true, if_false]
    refine ⟨fun b hb => mem_append_left _ (hmem b hb), ?_⟩
    -- the new element is dominated, and what it dominates is dominated as well
    have hnot : ∀ b ∈ kept seen, dom a b = false := by
      intro b hb
      rw [← Bool.not_eq_true]
      intro hab
      obtain ⟨c, hc, hca⟩ : ∃ c ∈ P, dom c a = true := by
        simpa using hall
      rw [h.kept_eq, mem_undominated] at hb
      have := hb.2 c hc
      rw [htrans c a b hca hab] at this
      cases this
    rw [kept_notDominated_of_not hnot, h.kept_eq, happend, hall]
    rw [h.kept_eq] at hnot
    have hall' : (undominated dom P).filter (fun b => !dom a b) = undominated dom P :=
      filter_eq_self.mpr fun b hb => by simp [hnot b hb]
    simp [hall']

/-- The elements that are kept in the end are those that no other one dominates. -/
theorem kept_foldl_add (size : α → ℕ) (hsize : ∀ a b, dom a b = true → size a < size b)
    (htrans : ∀ a b c, dom a b = true → dom b c = true → dom a c = true) (first : α) (as : List α) :
    kept (as.foldl (Selections.add dom) [(first, true)]) = undominated dom (first :: as) := by
  have hrun : ∀ (as P : List α) (seen : List (α × Bool)), Seen dom P seen →
      Seen dom (P ++ as) (as.foldl (Selections.add dom) seen) := by
    intro as
    induction as with
    | nil => exact fun P seen h => by simpa using h
    | cons a as ih =>
      intro P seen h
      have := ih (P ++ [a]) _ (h.add size hsize htrans a)
      rwa [append_assoc] at this
  have hfirst : dom first first = false := by
    rw [← Bool.not_eq_true]
    exact fun h => Nat.lt_irrefl _ (hsize first first h)
  exact (hrun as [first] _ ⟨by simp, by simp [kept, undominated, hfirst]⟩).kept_eq

end Undominated

section Sorted

variable {α κ : Type*} [LinearOrder κ] (key : α → κ)

/-- A permutation of the list in which no element comes before one with a smaller key. -/
structure SortedPerm (L L' : List α) : Prop where
  perm : L'.Perm L
  sorted : L'.Pairwise fun a b => key a ≤ key b

variable {key} {L L' : List α} {a b : α} {n : ℕ}

theorem exists_sortedPerm (key : α → κ) (L : List α) : ∃ L', SortedPerm key L L' := by
  refine ⟨L.mergeSort fun a b => decide (key a ≤ key b), mergeSort_perm L _, ?_⟩
  have hsorted : (L.mergeSort fun a b => decide (key a ≤ key b)).Pairwise
      fun a b => decide (key a ≤ key b) = true := by
    refine pairwise_mergeSort (fun a b c hab hbc => ?_) (fun a b => ?_) L
    · rw [decide_eq_true_eq] at hab hbc ⊢
      exact hab.trans hbc
    · rw [Bool.or_eq_true, decide_eq_true_eq, decide_eq_true_eq]
      exact le_total _ _
  exact hsorted.imp fun h => of_decide_eq_true h

theorem SortedPerm.append {L₁ L₂ L₁' L₂' : List α} (h₁ : SortedPerm key L₁ L₁')
    (h₂ : SortedPerm key L₂ L₂') (hle : ∀ a ∈ L₁, ∀ b ∈ L₂, key a ≤ key b)
    (hperm : (L₁ ++ L₂).Perm L) : SortedPerm key L (L₁' ++ L₂') := by
  refine ⟨(h₁.perm.append h₂.perm).trans hperm, pairwise_append.mpr ⟨h₁.sorted, h₂.sorted, ?_⟩⟩
  exact fun a ha b hb => hle a (h₁.perm.mem_iff.mp ha) b (h₂.perm.mem_iff.mp hb)

/-- The number of the elements that may come before `a`. -/
def rivals [DecidableEq α] (key : α → κ) (L : List α) (a : α) : ℕ :=
  L.countP fun b => decide (b ≠ a ∧ key b ≤ key a)

/-- The number of the elements that have to come before `a`. -/
def betters (key : α → κ) (L : List α) (a : α) : ℕ := L.countP fun b => decide (key b < key a)

theorem SortedPerm.mem_take [DecidableEq α] (h : SortedPerm key L L') (hnodup : L.Nodup)
    (ha : a ∈ L) (hn : rivals key L a < n) : a ∈ L'.take n := by
  obtain ⟨A, B, rfl⟩ := append_of_mem (h.perm.mem_iff.mpr ha)
  have hnodup' := h.perm.nodup_iff.mpr hnodup
  have hcount : A.length ≤ rivals key L a := by
    rw [rivals, ← h.perm.countP_eq, countP_append]
    have hall : ∀ b ∈ A, decide (b ≠ a ∧ key b ≤ key a) = true := by
      intro b hb
      rw [decide_eq_true_eq]
      constructor
      · rintro rfl
        exact (nodup_append.mp hnodup').2.2 b hb b mem_cons_self rfl
      · exact (pairwise_append.mp h.sorted).2.2 b hb a mem_cons_self
    rw [countP_eq_length.mpr hall]
    exact Nat.le_add_right _ _
  obtain ⟨m, rfl⟩ := Nat.exists_eq_add_of_lt (Nat.lt_of_le_of_lt hcount hn)
  rw [Nat.add_assoc, take_length_add_append, take_succ_cons]
  exact mem_append_right _ mem_cons_self

theorem exists_not_mem_take [DecidableEq α] (hn : n ≤ rivals key L a) :
    ∃ L', SortedPerm key L L' ∧ a ∉ L'.take n := by
  let p : α → Bool := fun b => decide (b ≠ a ∧ key b ≤ key a)
  obtain ⟨A, hA⟩ := exists_sortedPerm key (L.filter p)
  obtain ⟨B, hB⟩ := exists_sortedPerm key (L.filter fun b => !p b)
  have hlen : n ≤ A.length := by
    rw [hA.perm.length_eq, ← countP_eq_length_filter]
    exact hn
  refine ⟨A ++ B, hA.append hB (fun b hb c hc => ?_) (filter_append_perm p L), ?_⟩
  · have hb' : key b ≤ key a := (of_decide_eq_true (mem_filter.mp hb).2).2
    have hc' : c = a ∨ key a < key c := by simpa [p] using (mem_filter.mp hc).2
    rcases hc' with rfl | hlt
    · exact hb'
    · exact hb'.trans hlt.le
  · rw [take_append_of_le_length hlen]
    intro hmem
    have hin := hA.perm.mem_iff.mp (mem_of_mem_take hmem)
    exact (of_decide_eq_true (mem_filter.mp hin).2).1 rfl

/-- Too many have to come before two elements: they are not both among the first `n` ones. -/
theorem SortedPerm.not_both (h : SortedPerm key L L') (hab : a ≠ b)
    (hkey : key a = key b) (hn : n ≤ betters key L a + 1) : ¬ (a ∈ L'.take n ∧ b ∈ L'.take n) := by
  rintro ⟨ha, hb⟩
  -- all that come before are among the first ones as well
  have hbetters : betters key L a ≤ (L'.take n).countP fun c => decide (key c < key a) := by
    rw [betters, ← h.perm.countP_eq, ← take_append_drop n L', countP_append,
      take_append_drop]
    have hzero : (L'.drop n).countP (fun c => decide (key c < key a)) = 0 := by
      rw [countP_eq_zero]
      intro c hc
      rw [decide_eq_true_eq]
      have hsplit := h.sorted
      rw [← take_append_drop n L'] at hsplit
      exact not_lt.mpr ((pairwise_append.mp hsplit).2.2 a ha c hc)
    rw [hzero, Nat.add_zero]
  have htwo : (L'.take n).countP (fun c => decide (key c < key a)) + 2 ≤ (L'.take n).length := by
    have hle : ∀ c ∈ [a, b], c ∈ (L'.take n).filter fun c => !decide (key c < key a) := by
      intro c hc
      rcases mem_pair.mp hc with rfl | rfl
      · exact mem_filter.mpr ⟨ha, by simp⟩
      · exact mem_filter.mpr ⟨hb, by simp [hkey]⟩
    have hlen : [a, b].length ≤ ((L'.take n).filter fun c => !decide (key c < key a)).length :=
      (subperm_of_subset (by simpa using hab) hle).length_le
    rw [countP_eq_length_filter]
    have hsum := (filter_append_perm (fun c => decide (key c < key a)) (L'.take n)).length_eq
    rw [length_append] at hsum
    simp only [length_cons, length_nil] at hlen
    omega
  have hle := length_take_le n L'
  omega

/-- Enough room for two elements: some sort puts both among the first `n` ones. -/
theorem exists_both [DecidableEq α] (ha : a ∈ L) (hb : b ∈ L) (hab : a ≠ b)
    (hkey : key a = key b) (hn : betters key L a + 2 ≤ n) :
    ∃ L', SortedPerm key L L' ∧ a ∈ L'.take n ∧ b ∈ L'.take n := by
  let p : α → Bool := fun c => decide (key c < key a)
  let q : α → Bool := fun c => decide (c = a ∨ c = b)
  obtain ⟨A, hA⟩ := exists_sortedPerm key (L.filter p)
  obtain ⟨B, hB⟩ := exists_sortedPerm key (((L.filter fun c => !p c).erase a).erase b)
  have ha' : a ∈ L.filter fun c => !p c := mem_filter.mpr ⟨ha, by simp [p]⟩
  have hb' : b ∈ (L.filter fun c => !p c).erase a :=
    (mem_erase_of_ne (Ne.symm hab)).mpr (mem_filter.mpr ⟨hb, by simp [p, hkey]⟩)
  have hpair : SortedPerm key [a, b] [a, b] := ⟨List.Perm.refl _, by simp [hkey]⟩
  have hrest : (([a, b] : List α) ++ ((L.filter fun c => !p c).erase a).erase b).Perm
      (L.filter fun c => !p c) :=
    ((perm_cons_erase hb').symm.cons a).trans (perm_cons_erase ha').symm
  have hmem : ∀ c ∈ ((L.filter fun c => !p c).erase a).erase b, key a ≤ key c := by
    intro c hc
    have := (mem_filter.mp (mem_of_mem_erase (mem_of_mem_erase hc))).2
    simpa [p] using this
  have htail := hpair.append hB (fun c hc d hd => by
    rcases mem_pair.mp hc with rfl | rfl
    · exact hmem d hd
    · exact hkey ▸ hmem d hd) hrest
  have hwhole := hA.append htail (fun c hc d hd => by
    have hc' : key c < key a := of_decide_eq_true (mem_filter.mp hc).2
    have hd' : key a ≤ key d := by simpa [p] using (mem_filter.mp hd).2
    exact hc'.le.trans hd') (filter_append_perm p L)
  have hlen : A.length = betters key L a := by
    rw [hA.perm.length_eq, ← countP_eq_length_filter]
    rfl
  obtain ⟨m, rfl⟩ := Nat.exists_eq_add_of_le hn
  have htake : (A ++ ([a, b] ++ B)).take (betters key L a + 2 + m) = A ++ a :: b :: B.take m := by
    rw [← hlen, Nat.add_assoc, take_length_add_append, Nat.add_comm 2 m]
    rfl
  refine ⟨A ++ ([a, b] ++ B), hwhole, ?_, ?_⟩
  · rw [htake]
    exact mem_append_right _ mem_cons_self
  · rw [htake]
    exact mem_append_right _ (mem_cons_of_mem a mem_cons_self)

end Sorted

end UtopiaEda.Selections
