import UtopiaEda.ViewTraversal

/-!
# The links that a traversal reads

The iterator never looks at the links of the inputs of a view.
-/
namespace UtopiaEda
open Option (bind_eq_bind bind_some some.inj)

variable {σ : Type} {t : Traversal σ} {size n j k : ℕ} {i target : EntryID} {ls : List Link}
  {marked : List EntryID} {f : LinkProvider} {stack rest : List (EntryID × ℕ)}

namespace SubnetViewIterator

variable {it it' : SubnetViewIterator σ}

@[simp] theorem call_stack (visitor : Option (Visitor σ)) (isIn isOut : Bool) :
    (it.call visitor isIn isOut i).stack = it.stack := by
  rw [call_eq]

@[simp] theorem call_marked (visitor : Option (Visitor σ)) (isIn isOut : Bool) :
    (it.call visitor isIn isOut i).marked = it.marked := by
  rw [call_eq]

theorem findUnmarked_eq_some :
    ∀ {ls : List Link} {j : ℕ}, findUnmarked marked ls j = some (k, target) →
    j ≤ k ∧ (∀ l ∈ ls.take (k - j), l.idx ∈ marked) ∧ target ∉ marked := by
  intro ls
  induction ls with
  | nil => exact fun h => by cases h
  | cons l ls ih =>
    intro j h
    rw [findUnmarked] at h
    split at h
    · rename_i hl
      obtain ⟨hle, hall, htarget⟩ := ih h
      refine ⟨Nat.le_of_succ_le hle, ?_, htarget⟩
      rw [show k - j = k - (j + 1) + 1 by omega, List.take_succ_cons]
      exact List.forall_mem_cons.mpr ⟨hl, hall⟩
    · rename_i hl
      obtain ⟨rfl, rfl⟩ := Prod.mk.inj (some.inj h)
      refine ⟨Nat.le_refl j, ?_, hl⟩
      rw [Nat.sub_self]
      exact fun l hl => absurd hl List.not_mem_nil

/-! ### The inputs are not looked at -/

structure Above (t : Traversal σ) (it : SubnetViewIterator σ) : Prop where
  marked : ∀ i ∈ t.inputs, i ∈ it.marked
  stack : ∀ p ∈ it.stack, p.1 ∉ t.inputs

theorem Above.of_eq (h : Above t it) (hmarked : it'.marked = it.marked)
    (hstack : it'.stack = it.stack) : Above t it' :=
  ⟨hmarked ▸ h.marked, hstack ▸ h.stack⟩

private theorem Above.descend (hf : ∀ i, i ∉ t.inputs → f i = t.links i) :
    ∀ {n : ℕ} {it : SubnetViewIterator σ}, Above t it → it.descend { t with links := f } n =
    it.descend t n ∧
      ∀ it', it.descend t n = some it' → Above t it' := by
  intro n
  induction n with
  | zero => exact fun _ => ⟨rfl, fun it' h => by cases h⟩
  | succ n ih =>
    intro it h
    cases hstack : it.stack with
    | nil => simp [SubnetViewIterator.descend, hstack]
    | cons p rest =>
      obtain ⟨i, j⟩ := p
      have hi : i ∉ t.inputs := h.stack (i, j) (by simp [hstack])
      have hrest : ∀ p ∈ rest, p.1 ∉ t.inputs := fun p hp => h.stack p (by simp [hstack, hp])
      cases hlinks : t.links i with
      | none => simp [SubnetViewIterator.descend, hstack, hf i hi, hlinks]
      | some ls =>
        cases hfind : findUnmarked it.marked (ls.drop j) j with
        | none =>
          simp only [SubnetViewIterator.descend, hstack, hf i hi, hlinks, bind_eq_bind,
            bind_some, hfind, true_and]
          intro it' hit
          rw [← some.inj hit]
          exact ⟨h.marked, List.forall_mem_cons.mpr ⟨hi, hrest⟩⟩
        | some found =>
          obtain ⟨k, target⟩ := found
          obtain ⟨-, -, htarget⟩ := findUnmarked_eq_some hfind
          have hnew : Above t { it.onPush t false false target with
              stack := (target, 0) :: (i, k) :: rest } := by
            refine ⟨by simpa [onPush] using h.marked, ?_⟩
            exact List.forall_mem_cons.mpr ⟨fun hin => htarget (h.marked target hin),
              List.forall_mem_cons.mpr ⟨hi, hrest⟩⟩
          simp only [SubnetViewIterator.descend, hstack, hf i hi, hlinks, bind_eq_bind,
            bind_some, hfind]
          exact ih hnew

private theorem Above.nextPI (h : Above t it) : ∀ it', it.nextPI t = some it' → Above t it' := by
  intro it' hit
  obtain ⟨inEntry, -, heq⟩ := Option.bind_eq_some_iff.mp hit
  rw [← some.inj heq]
  exact h.of_eq (by simp [onPop]) (by simp [onPop])

private theorem Above.pop (h : Above t it) : ∀ it', it.pop t = some it' → Above t it' := by
  intro it' hit
  rw [SubnetViewIterator.pop] at hit
  split at hit
  · cases hit
  · rename_i savedID _ rest hstack
    rw [← some.inj hit]
    refine ⟨fun i hi => List.mem_cons_of_mem savedID (h.marked i hi), fun p hp => h.stack p ?_⟩
    rw [hstack]
    exact List.mem_cons_of_mem _ hp

private theorem Above.next (hf : ∀ i, i ∉ t.inputs → f i = t.links i) (h : Above t it) (size : ℕ) :
    it.next { t with links := f } size = it.next t size ∧ ∀ it', it.next t size = some it' →
    Above t it' := by
  unfold SubnetViewIterator.next
  by_cases hin : 0 < it.nInLeft
  · rw [if_pos hin, if_pos hin]
    exact ⟨rfl, h.nextPI⟩
  · rw [if_neg hin, if_neg hin]
    by_cases hstack : it.stack = []
    · rw [if_pos hstack, if_pos hstack]
      refine ⟨rfl, fun it' hit => ?_⟩
      split at hit
      · cases hit
      · rw [← some.inj hit]
        exact h.of_eq rfl rfl
    · rw [if_neg hstack, if_neg hstack]
      obtain ⟨heq, habove⟩ := h.descend hf (n := size)
      refine ⟨by rw [heq]; rfl, fun it' hit => ?_⟩
      obtain ⟨it₁, hdescend, hpop⟩ := Option.bind_eq_some_iff.mp hit
      exact (habove it₁ hdescend).pop it' hpop

private theorem Above.walk (hf : ∀ i, i ∉ t.inputs → f i = t.links i) :
    ∀ {n : ℕ} {it : SubnetViewIterator σ}, Above t it → it.walk { t with links := f } size n =
    it.walk t size n := by
  intro n
  induction n with
  | zero => exact fun _ => rfl
  | succ n ih =>
    intro it h
    obtain ⟨heq, habove⟩ := h.next hf size
    rw [SubnetViewIterator.walk, SubnetViewIterator.walk, heq]
    cases hnext : it.next t size with
    | none => rfl
    | some it₁ => simp only [bind_eq_bind, bind_some, ih (habove it₁ hnext)]

private theorem Above.prepareOutputs (f : LinkProvider) :
    ∀ (is : List EntryID) {it : SubnetViewIterator σ}, Above t it →
    it.prepareOutputs { t with links := f } is = it.prepareOutputs t is ∧
    Above t (it.prepareOutputs t is) := by
  intro is
  induction is with
  | nil => exact fun h => ⟨rfl, h⟩
  | cons i is ih =>
    intro it h
    rw [SubnetViewIterator.prepareOutputs, SubnetViewIterator.prepareOutputs]
    refine ih ?_
    split
    · exact h.of_eq rfl rfl
    · rename_i hi
      refine ⟨by simpa [onPush] using h.marked, List.forall_mem_cons.mpr ⟨fun hin => hi
        (h.marked i hin), ?_⟩⟩
      exact h.stack

private theorem above_begin (hf : ∀ i, i ∉ t.inputs → f i = t.links i) (size : ℕ) (st : σ) :
    begin { t with links := f } size st = begin t size st ∧ ∀ it, begin t size st = some it →
    Above t it := by
  have hinit : Above t { marked := t.inputs.reverse, state := st } :=
    ⟨fun i hi => List.mem_reverse.mpr hi, fun p hp => absurd hp List.not_mem_nil⟩
  obtain ⟨heq, hprepared⟩ := Above.prepareOutputs f t.outputs hinit
  have hprepare : prepareIteration { t with links := f } st = prepareIteration t st := by
    simp only [prepareIteration, heq]
  unfold begin
  rw [hprepare]
  cases hit : prepareIteration t st with
  | none => exact ⟨rfl, fun it h => by cases h⟩
  | some it =>
    have hstart : Above t it := by
      rw [prepareIteration] at hit
      split at hit
      · cases hit
      · exact hprepared.of_eq (by rw [← some.inj hit]) (by rw [← some.inj hit])
    obtain ⟨hnext, habove⟩ := hstart.next hf size
    simp only [bind_eq_bind, bind_some]
    split
    · exact ⟨rfl, hstart.nextPI⟩
    · exact ⟨hnext, habove⟩

end SubnetViewIterator

theorem SubnetViewWalker.iterate_congr {w : SubnetViewWalker}
    (hf : ∀ i, i ∉ w.view.inputs → f i = w.linkProvider i) (pop push : Option (Visitor σ))
    (st : σ) : ({ w with linkProvider := f } : SubnetViewWalker).iterate pop push st =
    w.iterate pop push st := by
  obtain ⟨hbegin, habove⟩ := SubnetViewIterator.above_begin (t := w.traversal pop push) hf
    w.view.parent.size st
  have htraversal : ({ w with linkProvider := f } : SubnetViewWalker).traversal pop push =
      { w.traversal pop push with links := f } := rfl
  rw [iterate, iterate, htraversal, hbegin]
  cases hit : SubnetViewIterator.begin (w.traversal pop push) w.view.parent.size st with
  | none => rfl
  | some it => simp only [bind_eq_bind, bind_some, (habove it hit).walk hf]

end UtopiaEda
