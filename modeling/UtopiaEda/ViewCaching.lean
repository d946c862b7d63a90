import UtopiaEda.ViewCoverage

/-!
# Saved entries of a walker

A walker can save the entries of a run and use them in later runs. From the outputs the visitor sees
the same cells in all runs. In the run from the inputs that saves the entries, the visitors refer to
variables of a block that has ended.
-/
namespace UtopiaEda
open PostorderSearches
open Option (bind_eq_bind bind_eq_some_iff bind_some map_some some.inj)

variable {σ : Type} {es : List ViewEntry} {f : Visitor σ} {st st' : σ} {v : SubnetView}
  {direction : SubnetViewWalker.Direction}

namespace SubnetViewWalker

theorem runForward_fresh : v.walker.runForward (some f) none false st =
    (v.walker.iterate (some f) none st).bind (fun p => some (v.walker, p.1, p.2)) := rfl

/-! ### The run that saves the entries -/

def Saving.Lost (saving : Option (Saving σ)) : Prop :=
  ∀ st ∈ saving, st.doPop = none ∧ st.doPush = none

theorem Saving.Lost.pop {saving : Option (Saving σ)} (h : Lost saving)
    (visitor : Option (Visitor σ)) (isIn isOut : Bool) (i : EntryID) :
    Saving.pop visitor isIn isOut i saving = (true, none) := by
  cases saving with
  | none => rfl
  | some st =>
    rw [Saving.pop, bind_eq_bind, bind_some, (h st rfl).1]
    rfl

theorem Saving.Lost.push {saving : Option (Saving σ)} (h : Lost saving)
    (visitor : Option (Visitor σ)) (isIn isOut : Bool) (i : EntryID) :
    Saving.push visitor isIn isOut i saving = (true, none) := by
  cases saving with
  | none => rfl
  | some st =>
    rw [Saving.push, bind_eq_bind, bind_some, (h st rfl).2]
    rfl

section Lost

variable {t : Traversal (Option (Saving σ))} {visitor visitor' : Option (Visitor σ)} {size n : ℕ}
  {it it' : SubnetViewIterator (Option (Saving σ))}

/-- Nothing was aborted, and the variables have no values. -/
def Pending (it : SubnetViewIterator (Option (Saving σ))) : Prop :=
  it.isAborted = false ∧ Saving.Lost it.state

/-- A variable without a value was read. -/
def Undefined (it : SubnetViewIterator (Option (Saving σ))) : Prop :=
  it.isAborted = false ∧ it.state = none

theorem Undefined.pending (h : Undefined it) : Pending it := ⟨h.1, h.2 ▸ fun st hst => by cases hst⟩

/-- The visitors are those that save the entries. -/
def Saves (t : Traversal (Option (Saving σ))) : Prop :=
  ∃ visitor visitor', t.onBackwardDfsPop = some (Saving.pop visitor) ∧ t.onBackwardDfsPush =
    some (Saving.push visitor')

theorem Pending.onPop (h : Pending it) (ht : Saves t) (isIn isOut : Bool) (i : EntryID) :
    Undefined (it.onPop t isIn isOut i) := by
  obtain ⟨visitor, _, hpop, -⟩ := ht
  rw [SubnetViewIterator.onPop, hpop]
  simp only [SubnetViewIterator.call, h.1, Bool.false_eq_true, if_false, h.2.pop]
  exact ⟨rfl, rfl⟩

theorem Pending.onPush (h : Pending it) (ht : Saves t) (isIn isOut : Bool) (i : EntryID) :
    Undefined (it.onPush t isIn isOut i) := by
  obtain ⟨_, visitor', -, hpush⟩ := ht
  rw [SubnetViewIterator.onPush, hpush]
  simp only [SubnetViewIterator.call, h.1, Bool.false_eq_true, if_false, h.2.push]
  exact ⟨rfl, rfl⟩

theorem prepareOutputs_entryLink :
    ∀ {is : List EntryID} {it : SubnetViewIterator (Option (Saving σ))},
    (it.prepareOutputs t is).entryLink = it.entryLink := by
  intro is
  induction is with
  | nil => exact rfl
  | cons i is ih =>
    intro it
    rw [SubnetViewIterator.prepareOutputs, ih]
    split
    · rfl
    · simp only [SubnetViewIterator.onPush, SubnetViewIterator.call]
      split
      · rfl
      · split <;> rfl

theorem Pending.prepareOutputs (ht : Saves t) :
    ∀ {is : List EntryID} {it : SubnetViewIterator (Option (Saving σ))},
    Pending it → Pending (it.prepareOutputs t is) := by
  intro is
  induction is with
  | nil => exact fun h => h
  | cons i is ih =>
    intro it h
    rw [SubnetViewIterator.prepareOutputs]
    split
    · exact ih h
    · exact ih (h.onPush ht false true i).pending

theorem Pending.nextPI (h : Pending it) (ht : Saves t) (hrun : it.nextPI t = some it') :
    Undefined it' := by
  obtain ⟨i, -, hrun⟩ := bind_eq_some_iff.mp hrun
  obtain rfl := some.inj hrun
  exact h.onPop ht _ _ _

theorem Pending.descend (ht : Saves t) : ∀ {n : ℕ} {it : SubnetViewIterator (Option (Saving σ))},
    Pending it → it.descend t n = some it' → Pending it' := by
  intro n
  induction n with
  | zero =>
    intro it _ hrun
    cases hrun
  | succ n ih =>
    intro it h hrun
    rw [SubnetViewIterator.descend] at hrun
    split at hrun
    · cases hrun
    · obtain ⟨links, -, hrun⟩ := bind_eq_some_iff.mp hrun
      split at hrun
      · obtain rfl := some.inj hrun
        exact h
      · rename_i target _
        have hpush := (h.onPush ht false false target).pending
        refine ih ?_ hrun
        exact ⟨hpush.1, hpush.2⟩

theorem Pending.next (h : Pending it) (ht : Saves t) (hrun : it.next t size = some it')
    (hdone : it.entryLink = none ∨ Undefined it) : Undefined it' := by
  rw [SubnetViewIterator.next] at hrun
  split at hrun
  · exact h.nextPI ht hrun
  · split at hrun
    · split at hrun
      · cases hrun
      · rename_i hlink
        obtain rfl := some.inj hrun
        exact hdone.resolve_left hlink
    · obtain ⟨it₁, hdescend, hrun⟩ := bind_eq_some_iff.mp hrun
      rw [SubnetViewIterator.pop] at hrun
      split at hrun
      · cases hrun
      · obtain rfl := some.inj hrun
        exact (h.descend ht hdescend).onPop ht _ _ _

theorem Undefined.walk (ht : Saves t) : ∀ {n : ℕ} {it : SubnetViewIterator (Option (Saving σ))},
    Undefined it → it.walk t size n = some it' → Undefined it' := by
  intro n
  induction n with
  | zero =>
    intro it _ hrun
    cases hrun
  | succ n ih =>
    intro it h hrun
    rw [SubnetViewIterator.walk] at hrun
    split at hrun
    · obtain rfl := some.inj hrun
      exact h
    · obtain ⟨it₁, hnext, hrun⟩ := bind_eq_some_iff.mp hrun
      exact ih (h.pending.next ht hnext (.inr h)) hrun

theorem Undefined.begin (ht : Saves t) {saving : Option (Saving σ)} (hlost : Saving.Lost saving)
    (hrun : SubnetViewIterator.begin t size saving = some it) : Undefined it := by
  obtain ⟨it₀, hprepare, hrun⟩ := bind_eq_some_iff.mp hrun
  have hpending : Pending it₀ ∧ it₀.entryLink = none := by
    rw [SubnetViewIterator.prepareIteration] at hprepare
    split at hprepare
    · cases hprepare
    · obtain rfl := some.inj hprepare
      have hstart : Pending ({ marked := t.inputs.reverse, state := saving } : SubnetViewIterator
          (Option (Saving σ))) :=
        ⟨rfl, hlost⟩
      have hprepared : Pending (SubnetViewIterator.prepareOutputs t t.outputs _) :=
        Pending.prepareOutputs ht hstart
      exact ⟨⟨hprepared.1, hprepared.2⟩, prepareOutputs_entryLink⟩
  split at hrun
  · exact hpending.1.nextPI ht hrun
  · exact hpending.1.next ht hrun (.inl hpending.2)

end Lost

private def inverter : List (CellTypeID × List Link) := [(.IN, []), (.BUF, [⟨0, 0, true⟩])]

end SubnetViewWalker

end UtopiaEda
