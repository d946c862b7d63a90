import Mathlib.Algebra.Order.Ring.Rat
import Mathlib.Data.List.Nodup
import Mathlib.Data.List.Perm.Basic
import Mathlib.Data.List.TakeWhile
import Mathlib.Tactic.NormNum
import Mathlib.Tactic.Linarith

/-!
# Spaces of solutions

A space compares the solutions of a cell by their penalized costs under a criterion. The costs are
elements of a linear order; `numeric_limits<Cost>::max()` is an element of it.
-/
namespace UtopiaEda
open List

structure CostVector (C : Type*) where
  area : C
  delay : C
  power : C

inductive Indicator
  | AREA | DELAY | POWER

def getCostFunction {C : Type*} : Indicator → CostVector C → C
  | .AREA, vector => vector.area
  | .DELAY, vector => vector.delay
  | .POWER, vector => vector.power

/-- The bounds of a cost; the assertion of the constructor. -/
structure Constraint (C : Type*) [LinearOrder C] [Zero C] where
  function : CostVector C → C
  min : C
  max : C
  nonneg : 0 ≤ min
  min_lt : min < max

structure Criterion (C : Type*) [LinearOrder C] [Zero C] where
  objective : CostVector C → C
  constraints : List (Constraint C)
  /-- The arguments are the vector and the tension. -/
  penalty : CostVector C → CostVector C → C

structure Solution (T C : Type*) where
  solution : T
  cost : C
  vector : CostVector C

structure SolutionSpace (T C : Type*) [LinearOrder C] [Zero C] where
  criterion : Criterion C
  tension : CostVector C
  solutionCount : ℕ
  feasibleCount : ℕ
  best : Solution T C

section
variable {T C : Type*} [LinearOrder C] [Zero C] [Add C]

def Constraint.check (constraint : Constraint C) (vector : CostVector C) : Bool :=
  decide (constraint.min ≤ constraint.function vector) &&
    decide (constraint.function vector ≤ constraint.max)

namespace Criterion

def getCost (criterion : Criterion C) (vector : CostVector C) : C := criterion.objective vector

def getPenalty (criterion : Criterion C) (vector tension : CostVector C) : C :=
  criterion.penalty vector tension

def check (criterion : Criterion C) (vector : CostVector C) : Bool :=
  criterion.constraints.all (·.check vector)

end Criterion

def zeroPenalty (_vector _tension : CostVector C) : C := 0

def Solution.reset (s : Solution T C) (max : C) : Solution T C := { s with cost := max }

namespace SolutionSpace

def new [Inhabited T] (criterion : Criterion C) (tension : CostVector C) (max : C) :
    SolutionSpace T C :=
  ⟨criterion, tension, 0, 0, ⟨default, max, ⟨0, 0, 0⟩⟩⟩

def getPenalizedCost (s : SolutionSpace T C) (vector : CostVector C) : C :=
  s.criterion.getCost vector + s.criterion.getPenalty vector s.tension

def check (s : SolutionSpace T C) (vector : CostVector C) : Bool := s.criterion.check vector

def add (s : SolutionSpace T C) (solution : T) (vector : CostVector C) : SolutionSpace T C :=
  let cost := s.getPenalizedCost vector
  let isFeasible := s.check vector
  { s with
    best :=
      if (s.feasibleCount = 0 ∧ cost < s.best.cost) ∨
          (s.feasibleCount ≠ 0 ∧ isFeasible ∧ cost < s.best.cost) then
        ⟨solution, cost, vector⟩
      else s.best
    solutionCount := s.solutionCount + 1
    feasibleCount := s.feasibleCount + isFeasible.toNat }

def getBest (s : SolutionSpace T C) : Solution T C := s.best

def reset (s : SolutionSpace T C) (newTension : CostVector C) (max : C) : SolutionSpace T C :=
  { s with tension := newTension, solutionCount := 0, feasibleCount := 0, best := s.best.reset max }

/-- A sequence of calls of `add`. -/
def addAll (s : SolutionSpace T C) (calls : List (T × CostVector C)) : SolutionSpace T C :=
  calls.foldl (fun s call => s.add call.1 call.2) s

omit [Add C] in

/-! ### The best of a list -/

def toSolution (s : SolutionSpace T C) (call : T × CostVector C) : Solution T C :=
  ⟨call.1, s.getPenalizedCost call.2, call.2⟩

def cheaper (best new : Solution T C) : Solution T C := if new.cost < best.cost then new else best

omit [Zero C] [Add C] in
/-- The cheapest solution, the first of these, if it is cheaper than the initial one. -/
lemma foldl_cheaper (solutions : List (Solution T C)) (best : Solution T C) :
    (solutions.foldl cheaper best = best ∧ ∀ x ∈ solutions, best.cost ≤ x.cost) ∨
      (solutions.foldl cheaper best ∈ solutions ∧ (solutions.foldl cheaper best).cost < best.cost ∧
        ∀ x ∈ solutions, (solutions.foldl cheaper best).cost ≤ x.cost) := by
  induction solutions generalizing best with
  | nil => exact .inl ⟨rfl, by simp⟩
  | cons x xs ih =>
    rw [foldl_cons]
    by_cases hx : x.cost < best.cost
    · have hstep : cheaper best x = x := if_pos hx
      rw [hstep]
      obtain ⟨heq, hle⟩ | ⟨hmem, hlt, hle⟩ := ih x
      · rw [heq]
        exact .inr ⟨mem_cons_self, hx, forall_mem_cons.2 ⟨le_rfl, hle⟩⟩
      · exact .inr ⟨mem_cons_of_mem _ hmem, hlt.trans hx, forall_mem_cons.2 ⟨hlt.le, hle⟩⟩
    · have hstep : cheaper best x = best := if_neg hx
      rw [hstep]
      obtain ⟨heq, hle⟩ | ⟨hmem, hlt, hle⟩ := ih best
      · exact .inl ⟨heq, forall_mem_cons.2 ⟨not_lt.1 hx, hle⟩⟩
      · exact .inr ⟨mem_cons_of_mem _ hmem, hlt,
          forall_mem_cons.2 ⟨hlt.le.trans (not_lt.1 hx), hle⟩⟩

lemma foldl_calls (s : SolutionSpace T C) (calls : List (T × CostVector C)) (best : Solution T C) :
    let last := (calls.map s.toSolution).foldl cheaper best
    (last = best ∧ ∀ call ∈ calls, best.cost ≤ s.getPenalizedCost call.2) ∨
      ((∃ call ∈ calls, last = s.toSolution call) ∧ last.cost < best.cost ∧
        ∀ call ∈ calls, last.cost ≤ s.getPenalizedCost call.2) := by
  obtain ⟨heq, hle⟩ | ⟨hmem, hlt, hle⟩ := foldl_cheaper (calls.map s.toSolution) best
  · exact .inl ⟨heq, fun call hcall => hle _ (mem_map_of_mem hcall)⟩
  · obtain ⟨call, hcall, hget⟩ := mem_map.1 hmem
    exact .inr ⟨⟨call, hcall, hget.symm⟩, hlt, fun call hcall => hle _ (mem_map_of_mem hcall)⟩

/-- Once a feasible solution is added, only feasible ones compete. -/
lemma addAll_of_feasible (calls : List (T × CostVector C)) (s : SolutionSpace T C)
    (hs : s.feasibleCount ≠ 0) : (s.addAll calls).best =
      ((calls.filter (fun call => s.check call.2)).map s.toSolution).foldl cheaper s.best := by
  induction calls generalizing s with
  | nil => rfl
  | cons call calls ih =>
    have hcount : (s.add call.1 call.2).feasibleCount ≠ 0 := by
      simp only [add]
      omega
    have hih := ih (s.add call.1 call.2) hcount
    rw [addAll, foldl_cons]
    refine hih.trans ?_
    change foldl cheaper _
      (map s.toSolution (filter (fun call => s.check call.2) calls)) = _
    by_cases hcheck : s.check call.2 = true
    · rw [filter_cons_of_pos (p := fun call : T × CostVector C => s.check call.2) hcheck]
      simp [add, hs, hcheck, cheaper, toSolution]
    · rw [filter_cons_of_neg (p := fun call : T × CostVector C => s.check call.2) hcheck]
      simp [add, hs, hcheck]

/-- The calls before the first feasible one compete with all feasible ones. -/
lemma addAll_best (calls : List (T × CostVector C)) (s : SolutionSpace T C)
    (hs : s.feasibleCount = 0) : (s.addAll calls).best =
      ((calls.filter (fun call => s.check call.2)).map s.toSolution).foldl cheaper
        (((calls.takeWhile (fun call => !s.check call.2)).map s.toSolution).foldl cheaper
          s.best) := by
  induction calls generalizing s with
  | nil => rfl
  | cons call calls ih =>
    by_cases hcheck : s.check call.2 = true
    · have hcount : (s.add call.1 call.2).feasibleCount ≠ 0 := by simp [add, hcheck]
      rw [addAll, foldl_cons]
      refine (addAll_of_feasible calls _ hcount).trans ?_
      change foldl cheaper _
        (map s.toSolution (filter (fun call => s.check call.2) calls)) = _
      simp [add, hs, hcheck, cheaper, toSolution]
    · have hcount : (s.add call.1 call.2).feasibleCount = 0 := by simp [add, hcheck, hs]
      rw [addAll, foldl_cons]
      refine (ih _ hcount).trans ?_
      change foldl cheaper (foldl cheaper _
          (map s.toSolution (takeWhile (fun call => !s.check call.2) calls)))
        (map s.toSolution (filter (fun call => s.check call.2) calls)) = _
      simp [add, hs, hcheck, cheaper, toSolution]

/-! ### The best solution since a reset -/

/-- `getBest` returns a feasible solution of minimal cost among the feasible ones, and a solution of
minimal cost if none of them is feasible. -/
def KeepsBest (s : SolutionSpace T C) (calls : List (T × CostVector C)) : Prop :=
  ((∃ call ∈ calls, s.check call.2) → ∃ call ∈ calls, s.check call.2 ∧
    (s.addAll calls).getBest = s.toSolution call ∧
    ∀ other ∈ calls, s.check other.2 → s.getPenalizedCost call.2 ≤ s.getPenalizedCost other.2) ∧
  (calls ≠ [] → (∀ call ∈ calls, ¬ s.check call.2) → ∃ call ∈ calls,
    (s.addAll calls).getBest = s.toSolution call ∧
    ∀ other ∈ calls, s.getPenalizedCost call.2 ≤ s.getPenalizedCost other.2)

def KeepsBestInAnyOrder (s : SolutionSpace T C) (calls : List (T × CostVector C)) : Prop :=
  ∀ calls', calls.Perm calls' → KeepsBest s calls' ∧
    (s.addAll calls').getBest.cost = (s.addAll calls).getBest.cost ∧
    ((calls.map (fun call => s.getPenalizedCost call.2)).Nodup →
      (s.addAll calls').getBest = (s.addAll calls).getBest)

def candidates (s : SolutionSpace T C) (calls : List (T × CostVector C)) :
    List (T × CostVector C) :=
  if calls.any (fun call => s.check call.2) then calls.filter (fun call => s.check call.2) else
    calls

/-- A candidate is cheaper than `max` and than the rivals; or, as all of them reach `max`, the
solution before the reset is by chance a candidate again. -/
def Wins (s : SolutionSpace T C) (calls rivals : List (T × CostVector C)) : Prop :=
  ∃ call ∈ s.candidates calls,
    (s.getPenalizedCost call.2 < s.best.cost ∧
      ∀ rival ∈ rivals, s.getPenalizedCost call.2 < s.getPenalizedCost rival.2) ∨
    (s.toSolution call = s.best ∧
      (∀ other ∈ s.candidates calls, s.best.cost ≤ s.getPenalizedCost other.2) ∧
      ∀ rival ∈ rivals, s.best.cost ≤ s.getPenalizedCost rival.2)

/-- The infeasible calls, if they compete with feasible ones. -/
def rivals (s : SolutionSpace T C) (calls : List (T × CostVector C)) : List (T × CostVector C) :=
  if calls.any (fun call => s.check call.2) then calls.filter (fun call => !s.check call.2) else []

/-- Those before the first feasible one. -/
def earlyRivals (s : SolutionSpace T C) (calls : List (T × CostVector C)) :
    List (T × CostVector C) :=
  if calls.any (fun call => s.check call.2) then calls.takeWhile (fun call => !s.check call.2) else
    []

lemma keepsBest_of_feasible {s : SolutionSpace T C} {calls : List (T × CostVector C)}
    (hs : s.feasibleCount = 0) (h : ∃ call ∈ calls, s.check call.2) : KeepsBest s calls ↔
    Wins s calls (s.earlyRivals calls) := by
  have hany : calls.any (fun call => s.check call.2) = true := by simpa using h
  have hcand : ∀ call, call ∈ s.candidates calls ↔ call ∈ calls ∧ s.check call.2 = true := by
    intro call
    rw [candidates, if_pos hany, mem_filter]
  have hearly : s.earlyRivals calls = calls.takeWhile (fun call => !s.check call.2) := if_pos hany
  have hbest := addAll_best calls s hs
  rw [← hearly] at hbest
  have hinfeasible : ∀ call ∈ s.earlyRivals calls, s.check call.2 = false := by
    intro call hcall
    rw [hearly] at hcall
    simpa using mem_takeWhile_imp hcall
  have hfirst := s.foldl_calls (s.earlyRivals calls) s.best
  generalize ((s.earlyRivals calls).map s.toSolution).foldl cheaper s.best = first at hbest hfirst
  have hlast := s.foldl_calls (calls.filter (fun call => s.check call.2)) first
  rw [← hbest] at hlast
  have hfeasible : ∀ call ∈ calls, s.check call.2 = true →
      call ∈ calls.filter (fun call => s.check call.2) :=
      fun call hcall hcheck => mem_filter.2 ⟨hcall, hcheck⟩
  constructor
  · rintro ⟨hkeeps, -⟩
    obtain ⟨call, hcall, hcheck, hget, hmin⟩ := hkeeps h
    refine ⟨call, (hcand call).2 ⟨hcall, hcheck⟩, ?_⟩
    change (s.addAll calls).best = _ at hget
    rw [hget] at hlast
    obtain ⟨heq, hle⟩ | ⟨-, hlt, -⟩ := hlast
    · obtain ⟨hstale, hle'⟩ | ⟨⟨early, hmem, hfrom⟩, -, -⟩ := hfirst
      · refine .inr ⟨heq.trans hstale, fun other hother => ?_, hle'⟩
        obtain ⟨hmem, hfeas⟩ := (hcand other).1 hother
        exact hstale ▸ hle other (hfeasible other hmem hfeas)
      · -- an infeasible solution is the best one
        have hvector : early.2 = call.2 := congrArg Solution.vector (hfrom.symm.trans heq.symm)
        rw [← hvector, hinfeasible early hmem] at hcheck
        cases hcheck
    · obtain ⟨rfl, hle⟩ | ⟨-, hlt', hle⟩ := hfirst
      · exact .inl ⟨hlt, fun rival hrival => hlt.trans_le (hle rival hrival)⟩
      · exact .inl ⟨hlt.trans hlt', fun rival hrival => hlt.trans_le (hle rival hrival)⟩
  · rintro ⟨call, hmem, hwins⟩
    obtain ⟨hcall, hcheck⟩ := (hcand call).1 hmem
    refine ⟨fun _ => ?_, fun _ hnone => absurd hcheck (hnone call hcall)⟩
    obtain ⟨hlt, hrivals⟩ | ⟨hstale, hothers, hrivals⟩ := hwins
    · have hless : s.getPenalizedCost call.2 < first.cost := by
        obtain ⟨rfl, -⟩ | ⟨⟨early, hearly, rfl⟩, -, -⟩ := hfirst
        · exact hlt
        · exact hrivals early hearly
      obtain ⟨-, hle⟩ | ⟨⟨winner, hwinner, hget⟩, -, hle⟩ := hlast
      · exact absurd hless (not_lt.2 (hle call (hfeasible call hcall hcheck)))
      · obtain ⟨hwinner, hfeas⟩ := mem_filter.1 hwinner
        refine ⟨winner, hwinner, hfeas, hget, fun other hother hcheck' => ?_⟩
        have := hle other (hfeasible other hother hcheck')
        rwa [hget] at this
    · have hfirst' : first = s.best := by
        obtain ⟨heq, -⟩ | ⟨⟨early, hearly, rfl⟩, hlt, -⟩ := hfirst
        · exact heq
        · exact absurd hlt (not_lt.2 (hrivals early hearly))
      have hget : (s.addAll calls).best = s.best := by
        obtain ⟨heq, -⟩ | ⟨⟨winner, hwinner, hget⟩, hlt, -⟩ := hlast
        · exact heq.trans hfirst'
        · obtain ⟨hwinner, hfeas⟩ := mem_filter.1 hwinner
          rw [hget, hfirst'] at hlt
          exact absurd hlt (not_lt.2 (hothers winner ((hcand winner).2 ⟨hwinner, hfeas⟩)))
      refine ⟨call, hcall, hcheck, hget.trans hstale.symm, fun other hother hcheck' => ?_⟩
      have hcost : s.getPenalizedCost call.2 = s.best.cost := congrArg Solution.cost hstale
      exact hcost.le.trans (hothers other ((hcand other).2 ⟨hother, hcheck'⟩))

lemma keepsBest_of_infeasible {s : SolutionSpace T C} {calls : List (T × CostVector C)}
    (hs : s.feasibleCount = 0) (hne : calls ≠ []) (h : ∀ call ∈ calls, ¬ s.check call.2) :
    KeepsBest s calls ↔ Wins s calls (s.earlyRivals calls) := by
  have hany : ¬ calls.any (fun call => s.check call.2) = true := by simpa using h
  have hcand : s.candidates calls = calls := if_neg hany
  have hearly : s.earlyRivals calls = [] := if_neg hany
  have hfilter : calls.filter (fun call => s.check call.2) = [] := by simpa using h
  have htake : calls.takeWhile (fun call => !s.check call.2) = calls := by
    exact takeWhile_eq_self_iff.2 (by simpa using h)
  have hlast := s.foldl_calls calls s.best
  have hbest := addAll_best calls s hs
  rw [hfilter, htake, map_nil, foldl_nil] at hbest
  rw [← hbest] at hlast
  constructor
  · rintro ⟨-, hkeeps⟩
    obtain ⟨call, hcall, hget, hmin⟩ := hkeeps hne h
    refine ⟨call, by rwa [hcand], ?_⟩
    rw [hearly, hcand]
    change (s.addAll calls).best = _ at hget
    rw [hget] at hlast
    obtain ⟨heq, hle⟩ | ⟨-, hlt, -⟩ := hlast
    · exact .inr ⟨heq, hle, by simp⟩
    · exact .inl ⟨hlt, by simp⟩
  · rintro ⟨call, hmem, hwins⟩
    rw [hcand] at hmem hwins
    refine ⟨fun ⟨other, hother, hcheck⟩ => absurd hcheck (h other hother), fun _ _ => ?_⟩
    obtain ⟨hlt, -⟩ | ⟨hstale, hothers, -⟩ := hwins
    · obtain ⟨-, hle⟩ | ⟨⟨winner, hwinner, hget⟩, -, hle⟩ := hlast
      · exact absurd hlt (not_lt.2 (hle call hmem))
      · exact ⟨winner, hwinner, hget, fun other hother => by
          have := hle other hother
          rwa [hget] at this⟩
    · obtain ⟨heq, -⟩ | ⟨⟨winner, hwinner, hget⟩, hlt, -⟩ := hlast
      · refine ⟨call, hmem, heq.trans hstale.symm, fun other hother => ?_⟩
        have hcost : s.getPenalizedCost call.2 = s.best.cost := congrArg Solution.cost hstale
        exact hcost.le.trans (hothers other hother)
      · rw [hget] at hlt
        exact absurd hlt (not_lt.2 (hothers winner hwinner))

/-- The exact condition for one sequence of calls. -/
lemma keepsBest_iff_wins (s : SolutionSpace T C) (calls : List (T × CostVector C))
    (hs : s.feasibleCount = 0) : KeepsBest s calls ↔ calls = [] ∨
    Wins s calls (s.earlyRivals calls) := by
  by_cases hne : calls = []
  · subst hne
    exact ⟨fun _ => .inl rfl, fun _ => ⟨by simp, fun h => absurd rfl h⟩⟩
  rw [or_iff_right hne]
  by_cases h : ∃ call ∈ calls, s.check call.2
  · exact keepsBest_of_feasible hs h
  · exact keepsBest_of_infeasible hs hne (fun call hcall hcheck => h ⟨call, hcall, hcheck⟩)

/-! ### Orders of the calls -/

lemma Wins.mono {s : SolutionSpace T C} {calls calls' rivals rivals' : List (T × CostVector C)}
    (hcand : ∀ call, call ∈ s.candidates calls ↔ call ∈ s.candidates calls')
    (hrivals : rivals' ⊆ rivals) (h : Wins s calls rivals) : Wins s calls' rivals' := by
  obtain ⟨call, hcall, ⟨hlt, hless⟩ | ⟨heq, hothers, hless⟩⟩ := h
  · exact ⟨call, (hcand call).1 hcall, .inl ⟨hlt, fun rival hrival => hless rival (hrivals hrival)⟩⟩
  · exact ⟨call, (hcand call).1 hcall,
      .inr ⟨heq, fun other hother => hothers other ((hcand other).2 hother),
      fun rival hrival => hless rival (hrivals hrival)⟩⟩

omit [Add C] in
lemma any_perm (s : SolutionSpace T C) {calls calls' : List (T × CostVector C)}
    (h : calls.Perm calls') : calls.any (fun call => s.check call.2) =
    calls'.any (fun call => s.check call.2) := by
  rw [Bool.eq_iff_iff, any_eq_true, any_eq_true]
  exact exists_congr fun call => and_congr_left fun _ => h.mem_iff

omit [Add C] in
lemma mem_candidates_perm (s : SolutionSpace T C) {calls calls' : List (T × CostVector C)}
    (h : calls.Perm calls') (call : T × CostVector C) : call ∈ s.candidates calls ↔
    call ∈ s.candidates calls' := by
  rw [candidates, candidates, s.any_perm h]
  split
  · exact (h.filter _).mem_iff
  · exact h.mem_iff

omit [Add C] in
lemma earlyRivals_subset (s : SolutionSpace T C) {calls calls' : List (T × CostVector C)}
    (h : calls.Perm calls') : s.earlyRivals calls' ⊆ s.rivals calls := by
  intro call hcall
  rw [earlyRivals] at hcall
  rw [rivals, s.any_perm h]
  split at hcall
  · rename_i hany
    rw [if_pos hany]
    exact mem_filter.2 ⟨h.mem_iff.2 (takeWhile_subset _ hcall),
      mem_takeWhile_imp (p := fun call : T × CostVector C => !s.check call.2) hcall⟩
  · cases hcall

omit [Add C] in
/-- The worst order: the infeasible calls first. -/
lemma earlyRivals_worst (s : SolutionSpace T C) (calls : List (T × CostVector C)) :
    s.rivals calls ⊆ s.earlyRivals
      (calls.filter (fun call => !s.check call.2) ++
        calls.filter (fun call => !!s.check call.2)) := by
  intro call hcall
  have hperm := filter_append_perm (fun call : T × CostVector C => !s.check call.2) calls
  rw [rivals] at hcall
  rw [earlyRivals, s.any_perm hperm]
  split at hcall
  · rename_i hany
    rw [if_pos hany, takeWhile_append_of_pos fun _ h => (mem_filter.1 h).2]
    exact mem_append_left _ hcall
  · cases hcall

/-- Two orders with best solutions agree about these. -/
lemma KeepsBest.agree {s : SolutionSpace T C} {calls calls' : List (T × CostVector C)}
    (hperm : calls.Perm calls') (h : KeepsBest s calls) (h' : KeepsBest s calls') :
    (s.addAll calls').getBest.cost = (s.addAll calls).getBest.cost ∧
      ((calls.map (fun call => s.getPenalizedCost call.2)).Nodup →
        (s.addAll calls').getBest = (s.addAll calls).getBest) := by
  have hagree : ∀ call call', call ∈ calls → call' ∈ calls → (s.addAll calls).getBest =
      s.toSolution call → (s.addAll calls').getBest = s.toSolution call' →
      s.getPenalizedCost call.2 = s.getPenalizedCost call'.2 →
      (s.addAll calls').getBest.cost = (s.addAll calls).getBest.cost ∧
        ((calls.map (fun call => s.getPenalizedCost call.2)).Nodup →
          (s.addAll calls').getBest = (s.addAll calls).getBest) := by
    intro call call' hmem hmem' hget hget' hcost
    rw [hget, hget']
    refine ⟨hcost.symm, fun hnodup => ?_⟩
    rw [inj_on_of_nodup_map hnodup hmem hmem' hcost]
  by_cases hfeas : ∃ call ∈ calls, s.check call.2
  · obtain ⟨call, hmem, hcheck, hget, hmin⟩ := h.1 hfeas
    obtain ⟨call', hmem', hcheck', hget', hmin'⟩ := h'.1 ⟨call, hperm.mem_iff.1 hmem, hcheck⟩
    exact hagree call call' hmem (hperm.mem_iff.2 hmem') hget hget'
      (le_antisymm (hmin call' (hperm.mem_iff.2 hmem') hcheck')
        (hmin' call (hperm.mem_iff.1 hmem) hcheck))
  · have hnone : ∀ call ∈ calls, ¬ s.check call.2 :=
      fun call hcall hcheck => hfeas ⟨call, hcall, hcheck⟩
    by_cases hne : calls = []
    · subst hne
      rw [nil_perm.1 hperm]
      exact ⟨rfl, fun _ => rfl⟩
    obtain ⟨call, hmem, hget, hmin⟩ := h.2 hne hnone
    obtain ⟨call', hmem', hget', hmin'⟩ := h'.2 (fun heq => hne (perm_nil.1 (heq ▸ hperm)))
      (fun call hcall => hnone call (hperm.mem_iff.2 hcall))
    exact hagree call call' hmem (hperm.mem_iff.2 hmem') hget hget'
      (le_antisymm (hmin call' (hperm.mem_iff.2 hmem')) (hmin' call (hperm.mem_iff.1 hmem)))

lemma keepsBestInAnyOrder_iff_wins (s : SolutionSpace T C) (calls : List (T × CostVector C))
    (hs : s.feasibleCount = 0) : KeepsBestInAnyOrder s calls ↔ calls = [] ∨
    Wins s calls (s.rivals calls) := by
  constructor
  · intro h
    have hperm := (filter_append_perm (fun call : T × CostVector C => !s.check call.2) calls).symm
    obtain hnil | hwins := (keepsBest_iff_wins s _ hs).1 (h _ hperm).1
    · exact .inl (perm_nil.1 (hnil ▸ hperm))
    · exact .inr (hwins.mono (fun call => (s.mem_candidates_perm hperm call).symm)
        (s.earlyRivals_worst calls))
  · intro h calls' hperm
    have hkeeps : ∀ calls', calls.Perm calls' → KeepsBest s calls' := by
      intro calls' hperm
      refine (keepsBest_iff_wins s calls' hs).2 ?_
      obtain rfl | hwins := h
      · exact .inl (nil_perm.1 hperm)
      · exact .inr (hwins.mono (s.mem_candidates_perm hperm) (s.earlyRivals_subset hperm))
    exact ⟨hkeeps calls' hperm, (hkeeps calls (List.Perm.refl _)).agree hperm (hkeeps calls' hperm)⟩

/-- After a reset the space keeps the best solution in every order of the calls if and only if a
feasible solution is cheaper than `max` and than all infeasible ones; in a given order only the
infeasible ones before the first feasible one matter. -/
theorem keepsBest_iff (s : SolutionSpace T C) (tension : CostVector C) (max : C)
    (calls : List (T × CostVector C)) :
    let space := s.reset tension max
    (KeepsBestInAnyOrder space calls ↔ calls = [] ∨ Wins space calls (space.rivals calls)) ∧
      (KeepsBest space calls ↔ calls = [] ∨ Wins space calls (space.earlyRivals calls)) :=
  ⟨keepsBestInAnyOrder_iff_wins _ calls rfl, keepsBest_iff_wins _ calls rfl⟩

end SolutionSpace

end

def boundedArea : Criterion ℚ :=
  ⟨getCostFunction .DELAY, [⟨getCostFunction .AREA, 0, 10, by norm_num, by norm_num⟩],
  zeroPenalty⟩

/-- `numeric_limits<float>::max()`. -/
def maxCost : ℚ := (2 ^ 24 - 1) * 2 ^ 104

def areaSpace : SolutionSpace Bool ℚ :=
  (SolutionSpace.new boundedArea ⟨0, 0, 0⟩ maxCost).reset ⟨0, 0, 0⟩ maxCost

/-- An infeasible solution of delay 1 hides the feasible one of delay 2 that is added later. -/
theorem infeasible_kept : ¬ areaSpace.KeepsBest [(false, ⟨20, 1, 0⟩), (true, ⟨5, 2, 0⟩)] := by
  rintro ⟨hkeeps, -⟩
  obtain ⟨call, hcall, hcheck, hget, -⟩ := hkeeps ⟨(true, ⟨5, 2, 0⟩), by simp, by decide +kernel⟩
  have hbest : (areaSpace.addAll [(false, ⟨20, 1, 0⟩), (true, ⟨5, 2, 0⟩)]).getBest.solution =
      false := by
    decide +kernel
  obtain rfl | rfl : call = (false, ⟨20, 1, 0⟩) ∨ call = (true, ⟨5, 2, 0⟩) := by simpa using hcall
  · revert hcheck
    decide +kernel
  · rw [hget] at hbest
    cases hbest

end UtopiaEda
