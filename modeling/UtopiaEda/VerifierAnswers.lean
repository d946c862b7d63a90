import UtopiaEda.Verifier

/-!
# The answers of the verifier

A sequence of calls is judged against the values of the links: the answers to the checks of a
property are right whatever was asked before.
-/
namespace UtopiaEda

open List
open Option (bind_eq_bind bind_some map_some)
open Clauses SubnetEncoder

inductive Equality where
  | const (lhs : Link) (rhs : Bool)
  | links (lhs rhs : Link)
  deriving DecidableEq, Repr

/-- A call of the verifier. A property is named by its place among the ones made so far. -/
inductive VerifierCall where
  | makeEqualty (e : Equality)
  | checkAlways (k : ℕ) (inv : Bool)
  | checkEventually (k : ℕ) (inv : Bool)
  deriving DecidableEq, Repr

namespace Equality

/-- The property holds for the given values of the outputs of all cells. -/
def eval (ρ : EntryID → ℕ → Bool) : Equality → Bool
  | const lhs rhs => lhs.value ρ == rhs
  | links lhs rhs => lhs.value ρ == rhs.value ρ

def allLinks : Equality → List Link
  | const lhs _ => [lhs]
  | links lhs rhs => [lhs, rhs]

def linkValue (types : List SubnetType) (S : Subnet) (x : EntryID → Bool) (l : Link) :
    Option Bool :=
  (S.value (SubnetType.library types) x l.idx l.out).map (xor · l.inv)

def Holds (types : List SubnetType) (S : Subnet) (x : EntryID → Bool) : Equality → Prop
  | const lhs rhs => linkValue types S x lhs = some rhs
  | links lhs rhs => linkValue types S x lhs = linkValue types S x rhs

/-- The property, negated if `inv`, holds. -/
def Meets (types : List SubnetType) (S : Subnet) (x : EntryID → Bool) (e : Equality) (inv : Bool) :
    Prop :=
  if inv then ¬ e.Holds types S x else e.Holds types S x

def Exists (types : List SubnetType) (S : Subnet) (e : Equality) : Prop :=
  ∀ l ∈ e.allLinks, ∃ c, S.getCell l.idx = some c ∧ l.out < c.outputs types

def formula (u : EntryID → ℕ → Variable) (p : Variable) : Equality → List (Clause Variable)
  | const lhs rhs => [[litOf u rhs lhs, (makeLit p true).not],
      [(litOf u rhs lhs).not, makeLit p true]]
  | links lhs rhs =>
    [[litOf u true lhs, litOf u true rhs, makeLit p true],
      [litOf u true lhs, (litOf u true rhs).not, (makeLit p true).not],
      [(litOf u true lhs).not, litOf u true rhs, (makeLit p true).not],
      [(litOf u true lhs).not, (litOf u true rhs).not, makeLit p true]]

end Equality

namespace Verifier

def Allowed (types : List SubnetType) (S : Subnet) : ℕ → List VerifierCall → Prop
  | _, [] => True
  | n, .makeEqualty e :: calls => e.Exists types S ∧ Allowed types S (n + 1) calls
  | n, .checkAlways k _ :: calls => k < n ∧ Allowed types S n calls
  | n, .checkEventually k _ :: calls => k < n ∧ Allowed types S n calls

/-- The answers to the checks are right; `made` lists what was made before. -/
def Answers (types : List SubnetType) (S : Subnet) :
    List Equality → List VerifierCall → List Bool → Prop
  | _, [], answers => answers = []
  | made, .makeEqualty e :: calls, answers => Answers types S (made ++ [e]) calls answers
  | made, .checkAlways k inv :: calls, answers => ∃ answer rest e, answers = answer :: rest ∧
      made[k]? = some e ∧ (answer = true ↔ ∀ x, e.Meets types S x inv) ∧
      Answers types S made calls rest
  | made, .checkEventually k inv :: calls, answers => ∃ answer rest e, answers = answer :: rest ∧
      made[k]? = some e ∧ (answer = true ↔ ∃ x, e.Meets types S x inv) ∧
      Answers types S made calls rest

def make (v : Verifier) : Equality → Option (Variable × Verifier)
  | .const lhs rhs => v.makeEqualtyConst lhs rhs
  | .links lhs rhs => v.makeEqualty lhs rhs

/-- Runs the calls; `props` are the properties made so far. -/
def run (ask : Decision) (searched : Solver → Solver) :
    List VerifierCall → List Variable → Verifier → Option (List Bool)
  | [], _, _ => some []
  | .makeEqualty e :: calls, props, v => do
    let (p, v) ← v.make e
    run ask searched calls (props ++ [p]) v
  | .checkAlways k inv :: calls, props, v => do
    let (answer, v) ← v.checkAlways ask searched (← props[k]?) inv
    let answers ← run ask searched calls props v
    some (answer :: answers)
  | .checkEventually k inv :: calls, props, v => do
    let (answer, v) ← v.checkEventually ask searched (← props[k]?) inv
    let answers ← run ask searched calls props v
    some (answer :: answers)

end Verifier

variable {types : List SubnetType} {S : Subnet} {s : Solver} {context : SubnetEncoderContext}
  {u : EntryID → ℕ → Variable} {cs F : List (Clause Variable)} {e : Equality} {p : Variable}
  {inv : Bool} {α β : Variable → Bool} {x : EntryID → Bool} {made : List Equality}
  {props : List Variable} {v : Verifier} {k : ℕ}

/-- A right solver has a model exactly of the clauses that can be satisfied. -/
theorem Decision.Correct.isSome_iff {ask : Decision} (h : ask.Correct) :
    (ask F).isSome = true ↔ ∃ α, Sat α F := by
  constructor
  · intro hsome
    obtain ⟨α, hα⟩ := Option.isSome_iff_exists.mp hsome
    exact ⟨α, h.model F α hα⟩
  · intro hsat
    obtain ⟨α, hα⟩ := hsat
    cases hask : ask F with
    | some _ => rfl
    | none => exact absurd hα (h.unsat F hask α)

theorem Solver.foldl_addClause (F : List (Clause Variable)) (s : Solver) :
    F.foldl Solver.addClause s = { s with clauses := s.clauses ++ F } := by
  induction F generalizing s with
  | nil => simp
  | cons c F ih => simp [ih, Solver.addClause]

namespace SubnetEncoder

theorem SubnetEncoded.linkLit (h : SubnetEncoded types S s context u cs) {l : Link}
    (hl : ∃ c, S.getCell l.idx = some c ∧ l.out < c.outputs types) (sign : Bool) :
    context.linkLit l sign = some (litOf u sign l) := by
  obtain ⟨c, hc, hout⟩ := hl
  simp [SubnetEncoderContext.linkLit, SubnetEncoderContext.lit, h.var l.idx c hc l.out hout, litOf]

theorem SubnetEncoded.linkValue (h : SubnetEncoded types S s context u cs) (hα : Sat α cs)
    (hx : ∀ i < S.nIn, valueOf u α i 0 = x i) {l : Link}
    (hl : ∃ c, S.getCell l.idx = some c ∧ l.out < c.outputs types) :
    Equality.linkValue types S x l = some (l.value (valueOf u α)) := by
  obtain ⟨c, hc, hout⟩ := hl
  rw [Equality.linkValue, h.sound α x hα hx l.idx c hc l.out hout]
  rfl

end SubnetEncoder

namespace Equality

/-- The clauses say that the variable of the property stands for its value. -/
theorem sat_formula : Sat α (e.formula u p) ↔
    (makeLit p true).holds α = e.eval (valueOf u α) := by
  cases e with
  | const lhs rhs =>
    have hlit : (litOf u rhs lhs).holds α = (lhs.value (valueOf u α) == rhs) := by
      cases rhs
      · rw [litOf_false, beq_false]
      · rw [litOf_true, beq_true]
    simp only [formula, eval, sat_cons, sat_nil, mem_cons, not_mem_nil, or_false,
      exists_eq_or_imp, exists_eq_left, Literal.holds_not, hlit, and_true]
    cases (lhs.value (valueOf u α) == rhs) <;> cases (makeLit p true).holds α <;> decide
  | links lhs rhs =>
    simp only [formula, eval, sat_cons, sat_nil, mem_cons, not_mem_nil, or_false,
      exists_eq_or_imp, exists_eq_left, Literal.holds_not, litOf_true, and_true]
    cases lhs.value (valueOf u α) <;> cases rhs.value (valueOf u α) <;>
      cases (makeLit p true).holds α <;> decide

theorem holds_iff (h : SubnetEncoded types S s context u cs) (he : e.Exists types S)
    (hα : Sat α cs) (hx : ∀ i < S.nIn, valueOf u α i 0 = x i) :
    e.Holds types S x ↔ e.eval (valueOf u α) = true := by
  cases e with
  | const lhs rhs =>
    simp only [Holds, eval, h.linkValue hα hx (he lhs (by simp [allLinks])), Option.some.injEq,
      beq_iff_eq]
  | links lhs rhs =>
    simp only [Holds, eval, h.linkValue hα hx (he lhs (by simp [allLinks])),
      h.linkValue hα hx (he rhs (by simp [allLinks])), Option.some.injEq, beq_iff_eq]

theorem meets_iff (h : SubnetEncoded types S s context u cs) (he : e.Exists types S)
    (hα : Sat α cs) (hx : ∀ i < S.nIn, valueOf u α i 0 = x i) :
    e.Meets types S x inv ↔ e.eval (valueOf u α) = !inv := by
  cases inv with
  | false => exact holds_iff h he hα hx
  | true =>
    rw [Bool.not_true, ← Bool.not_eq_true]
    exact not_congr (holds_iff h he hα hx)

theorem eval_congr (h : SubnetEncoded types S s context u cs) (he : e.Exists types S)
    (heq : Set.EqOn α β context.solver.used) : e.eval (valueOf u α) = e.eval (valueOf u β) := by
  have hlink : ∀ l ∈ e.allLinks, l.value (valueOf u α) = l.value (valueOf u β) := by
    intro l hl
    obtain ⟨c, hc, hout⟩ := he l hl
    obtain ⟨k, -, hk, hu⟩ := h.fresh l.idx c hc l.out hout
    rw [← litOf_true, ← litOf_true]
    have hmem : u l.idx l.out ∈ context.solver.used :=
      ⟨k, hk, (congrFun h.emits.ids k).trans hu.symm⟩
    exact Literal.holds_congr hmem heq
  cases e with
  | const lhs rhs => rw [eval, eval, hlink lhs (by simp [allLinks])]
  | links lhs rhs =>
    rw [eval, eval, hlink lhs (by simp [allLinks]), hlink rhs (by simp [allLinks])]

/-- The question that is put to the solver when a property is checked. The variable `p` occurs
in no clause of the encoding, so that nothing is excluded by giving it the value of the
property. -/
theorem exists_sat_iff (h : SubnetEncoded types S s context u cs) (he : e.Exists types S)
    (hp : p ∉ context.solver.used) (hw : Within s.used s.clauses) (hsat : ∃ α, Sat α s.clauses) :
    (∃ α, Sat α (s.clauses ++ cs ++ e.formula u p ++ [[makeLit p !inv]])) ↔
      ∃ x, e.Meets types S x inv := by
  have hgoal : ∀ α, Sat α [[makeLit p !inv]] ↔ (makeLit p true).holds α = !inv := by
    intro α
    cases inv <;> simp [makeLit, Literal.holds]
  simp only [sat_append, sat_formula, hgoal]
  constructor
  · intro hex
    obtain ⟨α, ⟨⟨-, hcs⟩, hform⟩, hlit⟩ := hex
    exact ⟨fun i => valueOf u α i 0, (meets_iff h he hcs (fun _ _ => rfl)).mpr (hform ▸ hlit)⟩
  · intro hex
    obtain ⟨x, hx⟩ := hex
    obtain ⟨α, hα⟩ := hsat
    obtain ⟨β, hβ, hcs, hin⟩ := h.complete α x
    let γ := Function.update β p inv
    have hγ : Set.EqOn β γ context.solver.used := by
      intro w hw
      have hne : w ≠ p := fun heq => hp (heq ▸ hw)
      exact (Function.update_of_ne hne inv β).symm
    have hlit : (makeLit p true).holds γ = !inv := by
      simp [makeLit, Literal.holds, γ]
    have heval : e.eval (valueOf u γ) = !inv := by
      rw [← eval_congr h he hγ]
      exact (meets_iff h he hcs hin).mp hx
    refine ⟨γ, ⟨⟨?_, ?_⟩, ?_⟩, hlit⟩
    · exact hα.congr hw (hβ.trans (hγ.mono h.emits.subset))
    · exact hcs.congr h.emits.within hγ
    · rw [hlit, heval]

end Equality

namespace Verifier

structure Serves (types : List SubnetType) (S : Subnet) (s : Solver)
    (context : SubnetEncoderContext)
    (u : EntryID → ℕ → Variable) (cs : List (Clause Variable)) (made : List Equality)
    (props : List Variable) (v : Verifier) : Prop where
  context_eq : v.context = { context with solver := v.context.solver }
  ids : v.context.solver.varID = s.varID
  varNum : context.solver.varNum ≤ v.context.solver.varNum
  clauses : v.context.solver.clauses = s.clauses ++ cs
  props : List.Forall₂ (fun e p => e.Exists types S ∧ v.varToProp p = some ⟨e.formula u p⟩ ∧
    ∃ k, context.solver.varNum ≤ k ∧ k < v.context.solver.varNum ∧ p = s.varID k) made props

theorem Serves.linkLit (h : Serves types S s context u cs made props v)
    (henc : SubnetEncoded types S s context u cs) {l : Link}
    (hl : ∃ c, S.getCell l.idx = some c ∧ l.out < c.outputs types) (sign : Bool) :
    v.newVar.2.context.linkLit l sign = some (litOf u sign l) := by
  have heq : v.newVar.2.context.linkLit l sign = context.linkLit l sign := by
    simp only [newVar]
    rw [h.context_eq]
    rfl
  rw [heq, henc.linkLit hl]

theorem Serves.make (h : Serves types S s context u cs made props v)
    (henc : SubnetEncoded types S s context u cs) (hinj : Function.Injective s.varID)
    (he : e.Exists types S) : ∃ p v', v.make e = some (p, v') ∧
      Serves types S s context u cs (made ++ [e]) (props ++ [p]) v' := by
  let p := v.context.solver.newVar.1
  have hp : p = s.varID v.context.solver.varNum := congrFun h.ids _
  refine ⟨p, v.newVar.2.createNewProp p ⟨e.formula u p⟩, ?_, ?_⟩
  · cases e with
    | const lhs rhs =>
      have hl := h.linkLit henc (he lhs (by simp [Equality.allLinks])) rhs
      simp only [Verifier.make, makeEqualtyConst, hl, bind_eq_bind, bind_some]
      rfl
    | links lhs rhs =>
      have hl := h.linkLit henc (he lhs (by simp [Equality.allLinks])) true
      have hr := h.linkLit henc (he rhs (by simp [Equality.allLinks])) true
      simp only [Verifier.make, makeEqualty, hl, hr, bind_eq_bind, bind_some]
      rfl
  · constructor
    · simp only [createNewProp, newVar]
      rw [h.context_eq]
    · exact h.ids
    · exact Nat.le_succ_of_le h.varNum
    · exact h.clauses
    · refine rel_append (h.props.imp fun a b hab => ?_) (.cons ?_ .nil)
      · obtain ⟨ha, hb, k, hlow, hk, rfl⟩ := hab
        refine ⟨ha, ?_, k, hlow, Nat.lt_succ_of_lt hk, rfl⟩
        have hne : s.varID k ≠ p := fun heq => Nat.ne_of_lt hk (hinj (heq.trans hp))
        exact (Function.update_of_ne hne _ _).trans hb
      · exact ⟨he, Function.update_self _ _ _, _, h.varNum, Nat.lt_succ_self _, hp⟩

/-- A check changes the copy of the solver only. -/
theorem Serves.withBackup (h : Serves types S s context u cs made props v) (solver : Solver) :
    Serves types S s context u cs made props { v with backupSolver := solver } :=
  ⟨h.context_eq, h.ids, h.varNum, h.clauses, h.props⟩

theorem Serves.prop (h : Serves types S s context u cs made props v)
    (henc : SubnetEncoded types S s context u cs) (hinj : Function.Injective s.varID)
    (hk : k < made.length) : ∃ e p, made[k]? = some e ∧ props[k]? = some p ∧ e.Exists types S ∧
      v.getProp p = some ⟨e.formula u p⟩ ∧ p ∉ context.solver.used := by
  have hk' : k < props.length := h.props.length_eq ▸ hk
  obtain ⟨he, hp, j, hlow, -, heq⟩ := h.props.get hk hk'
  refine ⟨made[k], props[k], getElem?_eq_getElem hk, getElem?_eq_getElem hk', he, hp, ?_⟩
  intro hmem
  obtain ⟨j', hj', heq'⟩ := hmem
  have hsame : j' = j := hinj (((congrFun henc.emits.ids j').symm.trans heq').trans heq)
  exact Nat.not_lt.mpr hlow (hsame ▸ hj')

section Checks

variable {ask : Decision} {searched : Solver → Solver}

theorem Serves.addProperty (h : Serves types S s context u cs made props v)
    (hprop : v.getProp p = some ⟨e.formula u p⟩) (inv : Bool) :
    v.createBackup.addProperty p inv = some ⟨{ v.context with solver :=
      { v.context.solver with clauses := s.clauses ++ cs ++ e.formula u p ++ [[makeLit p !inv]] } },
      v.context.solver, v.varToProp⟩ := by
  have hprop' : v.createBackup.getProp p = some ⟨e.formula u p⟩ := hprop
  simp only [Verifier.addProperty, hprop', bind_eq_bind, bind_some,
    Solver.foldl_addClause, Solver.addClause]
  simp only [createBackup, h.clauses]

theorem Serves.checkEventually (h : Serves types S s context u cs made props v)
    (henc : SubnetEncoded types S s context u cs) (hinj : Function.Injective s.varID)
    (hw : Within s.used s.clauses) (hsat : ∃ α, Sat α s.clauses) (hask : ask.Correct)
    (hk : k < made.length) (searched : Solver → Solver) (inv : Bool) :
    ∃ e p answer, made[k]? = some e ∧ props[k]? = some p ∧ v.checkEventually ask searched p inv =
        some (answer, { v with backupSolver := v.context.solver }) ∧
      (answer = true ↔ ∃ x, e.Meets types S x inv) := by
  obtain ⟨e, p, hmade, hprops, he, hprop, hp⟩ := h.prop henc hinj hk
  let question := s.clauses ++ cs ++ e.formula u p ++ [[makeLit p !inv]]
  refine ⟨e, p, (ask question).isSome, hmade, hprops, ?_, ?_⟩
  · simp only [Verifier.checkEventually, h.addProperty hprop, bind_eq_bind, bind_some]
    rfl
  · exact hask.isSome_iff.trans (Equality.exists_sat_iff henc he hp hw hsat)

theorem meets_not : e.Meets types S x (!inv) ↔ ¬ e.Meets types S x inv := by
  cases inv <;> simp [Equality.Meets]

theorem Serves.checkAlways (h : Serves types S s context u cs made props v)
    (henc : SubnetEncoded types S s context u cs) (hinj : Function.Injective s.varID)
    (hw : Within s.used s.clauses) (hsat : ∃ α, Sat α s.clauses) (hask : ask.Correct)
    (hk : k < made.length) (searched : Solver → Solver) (inv : Bool) :
    ∃ e p answer, made[k]? = some e ∧ props[k]? = some p ∧ v.checkAlways ask searched p inv =
        some (answer, { v with backupSolver := v.context.solver }) ∧
      (answer = true ↔ ∀ x, e.Meets types S x inv) := by
  obtain ⟨e, p, answer, hmade, hprops, hrun, hiff⟩ :=
    h.checkEventually henc hinj hw hsat hask hk searched !inv
  refine ⟨e, p, !answer, hmade, hprops, ?_, ?_⟩
  · have hprop : v.checkAlways ask searched p inv =
        (v.checkEventually ask searched p !inv).map fun r => (!r.1, r.2) := by
      simp only [Verifier.checkAlways, Verifier.checkEventually, bind_eq_bind, Option.map_bind]
      rfl
    rw [hprop, hrun, map_some]
  · simp only [meets_not] at hiff
    rw [Bool.not_eq_true', ← Bool.not_eq_true, hiff]
    exact not_exists_not

theorem Serves.run (henc : SubnetEncoded types S s context u cs) (hinj : Function.Injective s.varID)
    (hw : Within s.used s.clauses) (hsat : ∃ α, Sat α s.clauses) (hask : ask.Correct) :
    ∀ (calls : List VerifierCall) {made : List Equality} {props : List Variable} {v : Verifier},
      Serves types S s context u cs made props v → Allowed types S made.length calls →
      ∃ answers, run ask searched calls props v = some answers ∧
      Answers types S made calls answers := by
  intro calls
  induction calls with
  | nil => exact fun _ _ => ⟨[], rfl, rfl⟩
  | cons call calls ih =>
    intro made props v h hcalls
    cases call with
    | makeEqualty e =>
      obtain ⟨p, v', hmake, h'⟩ := h.make henc hinj hcalls.1
      have hleft : Allowed types S (made ++ [e]).length calls := by
        rw [length_append]
        exact hcalls.2
      obtain ⟨answers, hrun, hans⟩ := ih h' hleft
      refine ⟨answers, ?_, hans⟩
      simp only [Verifier.run, hmake, hrun, bind_eq_bind, bind_some]
    | checkAlways k inv =>
      obtain ⟨e, p, answer, hmade, hprops, hcheck, hiff⟩ :=
        h.checkAlways henc hinj hw hsat hask hcalls.1 searched inv
      obtain ⟨answers, hrun, hans⟩ := ih (h.withBackup _) hcalls.2
      refine ⟨answer :: answers, ?_, answer, answers, e, rfl, hmade, hiff, hans⟩
      simp only [Verifier.run, hprops, hcheck, bind_eq_bind, bind_some]
      rw [hrun]
      rfl
    | checkEventually k inv =>
      obtain ⟨e, p, answer, hmade, hprops, hcheck, hiff⟩ :=
        h.checkEventually henc hinj hw hsat hask hcalls.1 searched inv
      obtain ⟨answers, hrun, hans⟩ := ih (h.withBackup _) hcalls.2
      refine ⟨answer :: answers, ?_, answer, answers, e, rfl, hmade, hiff, hans⟩
      simp only [Verifier.run, hprops, hcheck, bind_eq_bind, bind_some]
      rw [hrun]
      rfl

/-- Whatever was made and checked before, an answer is right. A solver that is handed over with
clauses of its own must not be contradictory. -/
theorem run_answers (hvalid : SubnetType.Valid types) (hS : S.Encodable types types.length)
    (hinj : Function.Injective s.varID) (hw : Within s.used s.clauses)
    (hsat : ∃ α, Sat α s.clauses) (hask : ask.Correct) (searched : Solver → Solver)
    (calls : List VerifierCall) (hcalls : Allowed types S 0 calls) :
    ∃ v answers, init types S s = some v ∧ run ask searched calls [] v = some answers ∧
      Answers types S [] calls answers := by
  obtain ⟨context, u, cs, hrun, henc⟩ := encodeNested_eq hvalid hS hinj
  have hstart : Serves types S s context u cs [] []
      ⟨context, { s with varNum := 0, clauses := [] }, fun _ => none⟩ :=
    ⟨rfl, henc.emits.ids, Nat.le_refl _, henc.emits.clauses, .nil⟩
  obtain ⟨answers, hanswers, hright⟩ := hstart.run henc hinj hw hsat hask calls hcalls
  refine ⟨_, answers, ?_, hanswers, hright⟩
  rw [init, encode, hrun, map_some]

end Checks

/-- A solver that finds a model whenever there is one. -/
noncomputable def search : Decision := by
  classical exact fun F => if h : ∃ α, Sat α F then some h.choose else none

theorem search_correct : search.Correct := by
  constructor
  · intro F α hα
    unfold search at hα
    split at hα
    · rename_i hex
      cases hα
      exact hex.choose_spec
    · cases hα
  · intro F hnone α hα
    rw [search, dif_pos ⟨α, hα⟩] at hnone
    cases hnone

theorem run_answers_parity : ∃ v answers,
    init [] SatChecker.parity ⟨Int.ofNat, 0, []⟩ = some v ∧
      run search id [.makeEqualty (.const ⟨2, 0, false⟩ true), .checkEventually 0 false,
        .makeEqualty (.links ⟨0, 0, false⟩ ⟨3, 0, true⟩), .checkAlways 1 true, .checkAlways 0 false]
        [] v =
          some answers ∧
      Answers [] SatChecker.parity [] [.makeEqualty (.const ⟨2, 0, false⟩ true),
        .checkEventually 0 false, .makeEqualty (.links ⟨0, 0, false⟩ ⟨3, 0, true⟩),
        .checkAlways 1 true, .checkAlways 0 false] answers := by
  have hlink : ∀ i c, SatChecker.parity.getCell i = some c → 0 < c.outputs [] →
      ∃ c, SatChecker.parity.getCell i = some c ∧ 0 < c.outputs [] := fun i c h h' => ⟨c, h, h'⟩
  refine run_answers (fun sid T hT => by cases hT) (encodable_of_check (by decide))
    (fun _ _ h => Int.ofNat.inj h) (fun c hc => by cases hc) ⟨fun _ => false, sat_nil _⟩
    search_correct id _ ⟨?_, Nat.zero_lt_one, ?_, Nat.one_lt_two, Nat.zero_lt_two, trivial⟩
  · intro l hl
    rw [List.mem_singleton.mp hl]
    exact hlink 2 _ rfl (by decide)
  · intro l hl
    rcases List.mem_pair.mp hl with rfl | rfl
    · exact hlink 0 _ rfl (by decide)
    · exact hlink 3 _ rfl (by decide)

end Verifier

end UtopiaEda
