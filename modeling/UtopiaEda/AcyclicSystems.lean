import Mathlib.Data.Finset.Card
import Mathlib.Logic.Relation
import Mathlib.Order.WellFounded

/-!
# Acyclic systems of equations

A system gives every unknown `i` an equation `ρ i = F i ρ` whose right-hand side
reads only the unknowns that `i` depends on. When a rank decreases along the
dependencies, the system has a solution and any two solutions agree on every set
that is closed under dependencies. Combinational circuits are the main instance.
-/
namespace UtopiaEda.AcyclicSystems

variable {ι β : Type*}

/-- `F i` reads its argument only at the unknowns `i` depends on. -/
def Local (dep : ι → ι → Prop) (F : ι → (ι → β) → β) : Prop :=
  ∀ i ρ ρ', (∀ j, dep i j → ρ j = ρ' j) → F i ρ = F i ρ'

theorem exists_solution [Inhabited β] {dep : ι → ι → Prop} {F : ι → (ι → β) → β} {r : ι → ℕ}
    (hF : Local dep F) (hr : ∀ i j, dep i j → r j < r i) : ∃ ρ, ∀ i, ρ i = F i ρ := by
  classical
  let wf : WellFounded (fun j i => r j < r i) := (measure r).wf
  let G (i : ι) (rec : ∀ j, r j < r i → β) : β :=
    F i (fun j => if h : r j < r i then rec j h else default)
  refine ⟨wf.fix G, fun i => ?_⟩
  rw [wf.fix_eq]
  refine hF i _ _ (fun j hj => ?_)
  simp [hr i j hj]

/-- A rank on a finite set can be replaced by one below its cardinality. -/
theorem exists_rank_lt_card (S : Finset ι) (r : ι → ℕ) :
    ∃ r' : ι → ℕ, (∀ i ∈ S, r' i < S.card) ∧ ∀ i ∈ S, ∀ j, r i < r j → r' i < r' j := by
  classical
  refine ⟨fun i => (S.filter (fun k => r k < r i)).card, fun i hi => ?_, fun i hi j hij => ?_⟩
  · refine Finset.card_lt_card ⟨Finset.filter_subset _ _, fun h => ?_⟩
    simpa using h hi
  · refine Finset.card_lt_card ⟨fun k hk => ?_, fun h => ?_⟩
    · simp only [Finset.mem_filter] at hk ⊢
      exact ⟨hk.1, hk.2.trans hij⟩
    · have := h (Finset.mem_filter.mpr ⟨hi, hij⟩)
      simp at this

/-- Redirecting one unknown to targets that do not depend on it keeps the system acyclic. -/
theorem exists_rank_redirect {dep dep' : ι → ι → Prop} {r : ι → ℕ} {a : ι} {M : ℕ}
    (hr : ∀ i j, dep i j → r j < r i) (h : ∀ i j, i ≠ a → dep' i j → dep i j)
    (ha : ∀ j, dep' a j → ¬ Relation.ReflTransGen dep j a) (hM : ∀ j, dep' a j → r j < M) :
    ∃ r' : ι → ℕ, ∀ i j, dep' i j → r' j < r' i := by
  classical
  -- everything that depends on `a` moves above the new targets of `a`
  refine ⟨fun i => if Relation.ReflTransGen dep i a then M + r i else r i, fun i j hij => ?_⟩
  by_cases hi : i = a
  · subst hi
    have hj := hM j hij
    simp only [ha j hij, if_false, Relation.ReflTransGen.refl, if_true]
    omega
  · have hd := h i j hi hij
    have hlt := hr i j hd
    by_cases hj : Relation.ReflTransGen dep j a
    · simp only [hj, Relation.ReflTransGen.head hd hj, if_true]
      omega
    · simp only [hj, if_false]
      split <;> omega

/-- A list in which everything stands behind what it depends on gives a rank. -/
theorem exists_rank_of_list {ι : Type} [DecidableEq ι] {dep : ι → ι → Prop} {l : List ι}
    (hmem : ∀ i j, dep i j → i ∈ l) (h : ∀ A i B, l = A ++ i :: B → ∀ j, dep i j → j ∈ A) :
    ∃ r : ι → ℕ, ∀ i j, dep i j → r j < r i := by
  refine ⟨fun i => l.idxOf i, fun i j hij => ?_⟩
  obtain ⟨A, B, rfl, hi⟩ := List.eq_append_cons_of_mem (hmem i j hij)
  have hj := h A i B rfl j hij
  simp only [List.idxOf_append, if_pos hj, if_neg hi, List.idxOf_cons_self, Nat.zero_add]
  exact List.idxOf_lt_length_of_mem hj

end UtopiaEda.AcyclicSystems
