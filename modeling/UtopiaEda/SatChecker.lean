import UtopiaEda.SubnetEncoding

/-!
# The SAT checker

`isSat` encodes a subnet with one output, demands that the output is 1 and asks MiniSat. The
verdict is right, but the counterexample is read off the variables, and a variable stands for the
negation of the value of its input.
-/
namespace UtopiaEda
open Clauses SubnetEncoderContext

inductive CheckerResult where
  | error | unknown | equal
  | notEqual (counterEx : List Bool)
  deriving DecidableEq, Repr

/-- What the solver answers to clauses: a model if there is one. -/
abbrev Decision := List (Clause Variable) → Option (Variable → Bool)

structure Decision.Correct (solve : Decision) : Prop where
  model : ∀ cs α, solve cs = some α → Sat α cs
  unsat : ∀ cs, solve cs = none → ∀ α, ¬ Sat α cs

namespace SatChecker

/-- `isSat`, for the numbering `varID` of the variables. -/
def isSat (types : List SubnetType) (varID : ℕ → Variable) (solve : Decision) (subnet : Subnet) :
    Option CheckerResult := do
  if subnet.nOut = 1 then
    let context ← SubnetEncoder.encode types subnet ⟨varID, 0, []⟩
    let goal ← context.linkLit (← subnet.getOut 0) true
    match solve (context.solver.addClause [goal]).clauses with
    | some model =>
      let counterEx ← (List.range subnet.nIn).mapM (fun i => (context.var i 0).map model)
      some (.notEqual counterEx)
    | none => some .equal
  else none

def output (types : List SubnetType) (subnet : Subnet) (x : EntryID → Bool) : Option Bool :=
  subnet.value (SubnetType.library types) x (subnet.getOutIdx 0) 0

def ofList (xs : List Bool) : EntryID → Bool := fun i => xs.getD i false

/-- The verdict says whether the output is always 0, and the output is 1 on a counterexample. -/
def Exact (types : List SubnetType) (subnet : Subnet) (result : Option CheckerResult) : Prop :=
  (result = some .equal ∧ ∀ x, output types subnet x = some false) ∨
    ∃ counterEx, result = some (.notEqual counterEx) ∧ counterEx.length = subnet.nIn ∧
      output types subnet (ofList counterEx) = some true

variable {types : List SubnetType} {S : Subnet} {varID : ℕ → Variable} {solve : Decision}
  {x : EntryID → Bool}

def inputValues (S : Subnet) (x : EntryID → Bool) : List Bool := (List.range S.nIn).map x

private theorem isSat_cases (hvalid : SubnetType.Valid types) (hS : S.Encodable types types.length)
    (hout : S.nOut = 1) (hinj : Function.Injective varID) :
    ∃ (F : List (Clause Variable)) (values : (Variable → Bool) → EntryID → Bool),
      (∀ α, Sat α F → output types S (values α) = some true) ∧
      (∀ x, output types S x = some true → ∃ α, Sat α F ∧ ∀ i < S.nIn, values α i = x i) ∧
      ∀ solve : Decision, isSat types varID solve S = match solve F with
        | some α => some (.notEqual (inputValues S fun i => !values α i))
        | none => some .equal := by
  obtain ⟨context, u, cs, hrun, henc⟩ := SubnetEncoder.encodeNested_eq hvalid hS
    (s := ⟨varID, 0, []⟩) hinj
  have hwf := hS.wellFormed
  have hb := hwf.bounds
  have ho : S.getOutIdx 0 = S.size - S.nOut := Nat.add_zero _
  obtain ⟨c, hc⟩ := Option.isSome_iff_exists.mp (hwf.ends (S.getOutIdx 0)
    (.inr (Nat.le_of_eq ho.symm)) (by rw [ho]; omega))
  have ht : c.type = .OUT := (hwf.output _ c hc).mpr (Nat.le_of_eq ho.symm)
  obtain ⟨l, hl⟩ := List.length_eq_one_iff.mp (hwf.outLink _ c hc ht)
  have hmem : l ∈ c.links := by simp [hl]
  obtain ⟨-, c', hc', -⟩ := hwf.links _ c hc l hmem
  have hport := hS.ports _ c hc l hmem c' hc'
  have hgetOut : S.getOut 0 = some l := by simp [Subnet.getOut, hc, hl]
  have hgoal : context.linkLit l true = some (SubnetEncoder.litOf u true l) := by
    simp [linkLit, SubnetEncoderContext.lit, henc.var l.idx c' hc' l.out hport, SubnetEncoder.litOf]
  -- the value of the output is the one of its link
  have hvalue : ∀ α x, Sat α cs → (∀ i < S.nIn, SubnetEncoder.valueOf u α i 0 = x i) →
      output types S x = some ((SubnetEncoder.litOf u true l).holds α) := by
    intro α x hα hx
    have hlinks : ∀ l' ∈ c.links, S.value (SubnetType.library types) x l'.idx l'.out =
        some (SubnetEncoder.valueOf u α l'.idx l'.out) := by
      intro l' hl'
      rw [hl, List.mem_singleton] at hl'
      rw [hl']
      exact henc.sound α x hα hx l.idx c' hc' l.out hport
    rw [output, hwf.value_of_links hc hlinks, if_neg (by simp [ht]), ht, hl,
      SubnetEncoder.litOf_true]
    rfl
  refine ⟨cs ++ [[SubnetEncoder.litOf u true l]], fun α i => SubnetEncoder.valueOf u α i 0,
    fun α hα => ?_, fun x hx => ?_, fun solve => ?_⟩
  · simp only [sat_append, sat_cons, sat_nil, and_true, List.mem_singleton, exists_eq_left] at hα
    rw [hvalue α _ hα.1 (fun _ _ => rfl), hα.2]
  · obtain ⟨β, -, hsat, hβ⟩ := henc.complete (fun _ => false) x
    rw [hvalue β x hsat hβ, Option.some.injEq] at hx
    refine ⟨β, ?_, hβ⟩
    simp only [sat_append, sat_cons, sat_nil, and_true, List.mem_singleton, exists_eq_left]
    exact ⟨hsat, hx⟩
  · have hvars : ∀ α : Variable → Bool, (List.range S.nIn).mapM (fun i => (context.var i 0).map α) =
        some (inputValues S fun i => !SubnetEncoder.valueOf u α i 0) := by
      intro α
      refine Netlist.mapM_eq_some (fun i hi => ?_)
      have hin : ∃ c, S.getCell i = some c ∧ c.outputs types = 1 :=
        SubnetEncoder.inner_input hwf (List.mem_range.mp hi)
      obtain ⟨a, ha, hone⟩ := hin
      rw [henc.var i a ha 0 (hone ▸ Nat.zero_lt_one), Option.map_some]
      simp [SubnetEncoder.valueOf, makeLit, Literal.holds]
    have hclauses : (context.solver.addClause [SubnetEncoder.litOf u true l]).clauses =
        cs ++ [[SubnetEncoder.litOf u true l]] := by
      rw [Solver.addClause, henc.emits.clauses, List.nil_append]
    simp only [isSat, hout, if_true, SubnetEncoder.encode, hrun, hgetOut, hgoal,
      Option.bind_eq_bind, Option.bind_some, hclauses]
    cases solve (cs ++ [[SubnetEncoder.litOf u true l]]) with
    | none => rfl
    | some α => simp only [hvars, Option.bind_some]

private theorem inputValues_getD {i : EntryID} (hi : i < S.nIn) :
    ofList (inputValues S x) i = x i := by
  rw [ofList, inputValues, List.getD_eq_getElem?_getD, List.getElem?_map, List.getElem?_range hi]
  rfl

/-- The output depends on the values of the inputs only. -/
theorem output_congr (hS : S.WellFormed) {y : EntryID → Bool} (h : ∀ i < S.nIn, x i = y i) :
    output types S x = output types S y := by
  apply Netlist.eval_congr_inputs
  intro i g hg ht
  obtain ⟨c, hc, rfl⟩ := Option.map_eq_some_iff.mp hg
  exact h i ((hS.input i c hc).mp ht)

theorem output_isSome (hS : S.WellFormed) (hout : S.nOut = 1) (x : EntryID → Bool) :
    ∃ b, output types S x = some b := by
  have hb := hS.bounds
  have ho : S.getOutIdx 0 = S.size - S.nOut := Nat.add_zero _
  obtain ⟨c, hc⟩ := Option.isSome_iff_exists.mp (hS.ends (S.getOutIdx 0)
    (.inr (Nat.le_of_eq ho.symm)) (by rw [ho]; omega))
  obtain ⟨ρ, -, hval⟩ := hS.exists_values (SubnetType.library types) x
  exact ⟨_, hval _ c hc 0⟩

private theorem exists_decision (F : List (Clause Variable)) {α : Variable → Bool} (hα : Sat α F) :
    ∃ solve : Decision, solve.Correct ∧ solve F = some α := by
  classical
  refine ⟨fun cs => if cs = F then some α else if h : ∃ β, Sat β cs then some h.choose else none,
    ⟨fun cs β h => ?_, fun cs h β hβ => ?_⟩, if_pos rfl⟩
  · split at h
    · rename_i heq
      rw [heq, ← Option.some.inj h]
      exact hα
    · split at h
      · rename_i hex
        rw [← Option.some.inj h]
        exact hex.choose_spec
      · cases h
  · split at h
    · cases h
    · rw [dif_pos ⟨β, hβ⟩] at h
      cases h

private theorem output_not_of_exact (hvalid : SubnetType.Valid types)
    (hS : S.Encodable types types.length) (hout : S.nOut = 1) (hinj : Function.Injective varID)
    (h : ∀ solve : Decision, solve.Correct → Exact types S (isSat types varID solve S))
    (hx : output types S x = some true) : output types S (fun i => !x i) = some true := by
  obtain ⟨F, values, -, hex, hrun⟩ := isSat_cases hvalid hS hout hinj
  obtain ⟨α, hα, hvals⟩ := hex x hx
  obtain ⟨solve, hcorrect, hsolve⟩ := exists_decision F hα
  have hexact := h solve hcorrect
  rw [hrun solve, hsolve] at hexact
  rcases hexact with ⟨heq, -⟩ | ⟨ce, heq, -, hce⟩
  · cases heq
  · cases heq
    rw [← hce]
    refine output_congr hS.wellFormed (fun i hi => ?_)
    rw [inputValues_getD hi, hvals i hi]

/-- `isSat` is exact for every right solver if and only if the complement of every assignment
that makes the output 1 does so as well. -/
theorem isSat_exact_iff (hvalid : SubnetType.Valid types) (hS : S.Encodable types types.length)
    (hout : S.nOut = 1) (hinj : Function.Injective varID) :
    (∀ solve : Decision, solve.Correct → Exact types S (isSat types varID solve S)) ↔
      ∀ x, output types S x = some true → output types S (fun i => !x i) = some true := by
  obtain ⟨F, values, hmodel, hex, hrun⟩ := isSat_cases hvalid hS hout hinj
  have hcounter : ∀ α, output types S (ofList (inputValues S fun i => !values α i)) =
      output types S (fun i => !values α i) := fun α =>
    output_congr hS.wellFormed (fun i hi => inputValues_getD hi)
  constructor
  · exact fun h x hx => output_not_of_exact hvalid hS hout hinj h hx
  · intro h solve hcorrect
    rw [hrun solve]
    cases hsolve : solve F with
    | some α =>
      refine .inr ⟨_, rfl, by simp [inputValues], ?_⟩
      rw [hcounter]
      exact h _ (hmodel α (hcorrect.model F α hsolve))
    | none =>
      refine .inl ⟨rfl, fun x => ?_⟩
      have hval : ∃ b, output types S x = some b := output_isSome hS.wellFormed hout x
      obtain ⟨b, hb⟩ := hval
      cases b with
      | false => exact hb
      | true =>
        obtain ⟨α, hα, -⟩ := hex x hb
        exact absurd hα (hcorrect.unsat F hsolve α)

/-- The verdict is EQUAL if `p` holds, and NOTEQUAL if it does not, whatever the counterexample
is. -/
def Decides (p : Prop) (result : Option CheckerResult) : Prop :=
  (result = some .equal ∧ p) ∨ ∃ counterEx, result = some (.notEqual counterEx) ∧ ¬ p

theorem isSat_decides (hvalid : SubnetType.Valid types) (hS : S.Encodable types types.length)
    (hout : S.nOut = 1) (hinj : Function.Injective varID) (hcorrect : solve.Correct) :
    Decides (∀ x, output types S x = some false) (isSat types varID solve S) := by
  obtain ⟨F, values, hmodel, hex, hrun⟩ := isSat_cases hvalid hS hout hinj
  rw [hrun solve]
  cases hsolve : solve F with
  | some α =>
    refine .inr ⟨_, rfl, fun hfalse => ?_⟩
    have htrue := hmodel α (hcorrect.model F α hsolve)
    rw [hfalse] at htrue
    cases htrue
  | none =>
    refine .inl ⟨rfl, fun x => ?_⟩
    obtain ⟨b, hb⟩ := output_isSome hS.wellFormed hout x
    cases b with
    | false => exact hb
    | true =>
      obtain ⟨α, hα, -⟩ := hex x hb
      exact absurd hα (hcorrect.unsat F hsolve α)

/-- The exclusive or of two inputs does not see the complement. -/
def parity : Subnet := ⟨2, 1, 4, 0, [.cell ⟨.IN, [], 1⟩, .cell ⟨.IN, [], 1⟩,
  .cell ⟨.XOR, [⟨0, 0, false⟩, ⟨1, 0, false⟩], 1⟩, .cell ⟨.OUT, [⟨2, 0, false⟩], 0⟩]⟩

private theorem output_parity (x : EntryID → Bool) :
    output [] parity x = some (xor (x 0) (x 1)) := by
  have h : output [] parity x =
      some (xor (xor (xor (x 0) false) (xor (xor (x 1) false) false)) false) := rfl
  rw [h]
  cases x 0 <;> cases x 1 <;> rfl

theorem isSat_exact_parity :
    (∀ x, output [] parity x = some true → output [] parity (fun i => !x i) = some true) ∧
      ∀ solve : Decision, solve.Correct → Exact [] parity (isSat [] Int.ofNat solve parity) := by
  have hnot : ∀ x, output [] parity x = some true →
      output [] parity (fun i => !x i) = some true := by
    intro x hx
    rw [output_parity] at hx ⊢
    simpa using hx
  exact ⟨hnot, (isSat_exact_iff (fun sid T hT => by cases hT)
    (SubnetEncoder.encodable_of_check (by decide)) rfl (fun _ _ h => Int.ofNat.inj h)).mpr hnot⟩

/-- A buffer: the output is 1 where the input is 1, but the counterexample has a 0 there. -/
theorem not_isSat_exact_buffer : ¬ ∀ types varID S, SubnetType.Valid types →
    S.Encodable types types.length → S.nOut = 1 → Function.Injective varID →
    ∀ solve : Decision, solve.Correct → Exact types S (isSat types varID solve S) := by
  intro h
  let S : Subnet := ⟨1, 1, 2, 0, [.cell ⟨.IN, [], 1⟩, .cell ⟨.OUT, [⟨0, 0, false⟩], 0⟩]⟩
  have hvalid : SubnetType.Valid [] := fun sid T hT => by cases hT
  have hS : S.Encodable [] 0 := SubnetEncoder.encodable_of_check (by decide)
  have hinj : Function.Injective Int.ofNat := fun _ _ h => Int.ofNat.inj h
  have hnot : output [] S (fun _ => !true) = some true :=
    output_not_of_exact hvalid hS rfl hinj (h [] Int.ofNat S hvalid hS rfl hinj)
      (x := fun _ => true) (by decide)
  exact absurd hnot (by decide)

end SatChecker

end UtopiaEda
