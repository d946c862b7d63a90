import Mathlib.Algebra.BigOperators.Group.Finset.Basic
import Mathlib.Algebra.BigOperators.Group.Finset.Piecewise
import Mathlib.Algebra.Order.BigOperators.Group.Finset
import Mathlib.Data.Multiset.AddSub

/-!
# Users of the nodes of a multigraph

A finite multigraph is given by the list `V i` of the targets of every node `i`. The
multiset of the users of `c` holds `i` once for each link from `i` to `c`; its cardinality is
the in-degree of `c`.
-/
namespace UtopiaEda.Incidence

open Function (update update_eq_self update_idem update_self)

variable {ι κ : Type*} [DecidableEq κ] {A B : Finset ι} {V V' : ι → List κ}
  {i : ι} {c c' : κ}

/-- The users of `c` among the nodes of `A`, with multiplicity. -/
def users (A : Finset ι) (V : ι → List κ) (c : κ) : Multiset ι :=
  ∑ i ∈ A, Multiset.replicate ((V i).count c) i

theorem users_congr (h : ∀ i ∈ A, (V i).count c = (V' i).count c) : users A V c = users A V' c :=
  Finset.sum_congr rfl (fun i hi => by rw [h i hi])

theorem mem_users : i ∈ users A V c ↔ i ∈ A ∧ c ∈ V i := by
  simp only [users, Multiset.mem_sum, Multiset.mem_replicate, ne_eq, List.count_eq_zero]
  constructor
  · rintro ⟨j, hj, hc, rfl⟩
    exact ⟨hj, not_not.mp hc⟩
  · rintro ⟨hi, hc⟩
    exact ⟨i, hi, not_not.mpr hc, rfl⟩

theorem users_eq_zero : users A V c = 0 ↔ ∀ i ∈ A, c ∉ V i := by
  rw [Multiset.eq_zero_iff_forall_notMem]
  simp only [mem_users, not_and]

theorem count_users [DecidableEq ι] :
    (users A V c).count i = if i ∈ A then (V i).count c else 0 := by
  simp only [users, Multiset.count_sum', Multiset.count_replicate]
  split
  · rename_i hi
    rw [Finset.sum_eq_single_of_mem i hi (fun j _ hj => by simp [hj])]
    simp
  · rename_i hi
    refine Finset.sum_eq_zero (fun j hj => ?_)
    have : j ≠ i := fun hji => hi (hji ▸ hj)
    simp [this]

theorem card_users : (users A V c).card = ∑ i ∈ A, (V i).count c := by
  simp [users, Multiset.card_sum]

private theorem sum_count (W : Finset κ) (l : List κ) :
    ∑ v ∈ W, l.count v = l.countP (· ∈ W) := by
  induction l with
  | nil => simp
  | cons a l ih =>
    simp only [List.count_cons, List.countP_cons, Finset.sum_add_distrib, ih, beq_iff_eq,
      decide_eq_true_eq]
    rw [Finset.sum_ite_eq W a (fun _ => 1)]

theorem sum_card_users (W : Finset κ) :
    ∑ v ∈ W, (users A V v).card = ∑ i ∈ A, (V i).countP (· ∈ W) := by
  simp only [card_users]
  rw [Finset.sum_comm]
  exact Finset.sum_congr rfl (fun i _ => sum_count W (V i))

theorem users_subset (h : A ⊆ B) (hV : ∀ i ∈ B, i ∉ A → V i = []) : users A V c = users B V c :=
  Finset.sum_subset h (fun i hi hiA => by simp [hV i hi hiA])

theorem card_users_le (h : ∀ i, (V i).count c ≤ (V' i).count c) (hB : ∀ i ∈ A, c ∈ V i → i ∈ B) :
    (users A V c).card ≤ (users B V' c).card := by
  rw [card_users, card_users]
  calc ∑ i ∈ A, (V i).count c
      ≤ ∑ i ∈ B, (V i).count c := Finset.sum_le_sum_of_ne_zero (fun i hi hc =>
        hB i hi (List.count_pos_iff.mp (Nat.pos_of_ne_zero hc)))
    _ ≤ ∑ i ∈ B, (V' i).count c := Finset.sum_le_sum (fun i _ => h i)

variable [DecidableEq ι]

theorem users_update (hi : i ∈ A) (l : List κ) :
    users A (update V i l) c = Multiset.replicate (l.count c) i + users (A.erase i) V c := by
  unfold users
  rw [← Finset.add_sum_erase A _ hi]
  congr 1
  · simp
  · refine Finset.sum_congr rfl (fun j hj => ?_)
    rw [Function.update_of_ne (Finset.ne_of_mem_erase hj)]

private theorem users_split (hi : i ∈ A) :
    users A V c = Multiset.replicate ((V i).count c) i + users (A.erase i) V c := by
  have := users_update (V := V) (c := c) hi (V i)
  rwa [update_eq_self] at this

theorem users_cons (hi : i ∈ A) :
    users A (update V i (c :: V i)) c = i ::ₘ users A V c := by
  rw [users_update hi, users_split hi (V := V), List.count_cons_self, Multiset.replicate_succ,
    Multiset.cons_add]

theorem users_cons_of_ne (hi : i ∈ A) (h : c' ≠ c) :
    users A (update V i (c :: V i)) c' = users A V c' := by
  rw [users_update hi, users_split hi (V := V), List.count_cons_of_ne h.symm]

theorem users_tail {l : List κ} (hi : i ∈ A) (hV : V i = c :: l) :
    users A V c = i ::ₘ users A (update V i l) c := by
  have h := users_cons (V := update V i l) (c := c) hi
  rw [update_idem, update_self, ← hV, update_eq_self] at h
  exact h

theorem users_tail_of_ne {l : List κ} (hi : i ∈ A) (hV : V i = c :: l) (h : c' ≠ c) :
    users A (update V i l) c' = users A V c' := by
  have h := users_cons_of_ne (V := update V i l) (c := c) hi h
  rw [update_idem, update_self, ← hV, update_eq_self] at h
  exact h.symm

end UtopiaEda.Incidence
