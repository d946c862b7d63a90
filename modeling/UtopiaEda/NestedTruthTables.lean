import UtopiaEda.SubnetTruthTables
import UtopiaEda.SubnetEncoding

/-!
# Truth tables of hierarchical subnets

A cell of a type with a subnet is evaluated by evaluating the subnet, where the tables of the
links are already in the list of the tables as those of the inputs.
-/
namespace UtopiaEda
open List

namespace Subnet

structure Hierarchical (types : List SubnetType) (bound : ℕ) (S : Subnet) : Prop where
  wellFormed : S.WellFormed
  composed : S.Composed types bound
  links : ∀ i c, S.getCell i = some c → c.type ∈ [.BUF, .AND, .OR, .XOR] → c.links ≠ []
  first : 0 < S.size → (S.getCell 0).isSome
  within : ∀ i c, S.getCell i = some c → i + c.more < S.size
  skipped : ∀ i c, S.getCell i = some c → ∀ k, i < k → k ≤ i + c.more → S.getCell k = none
  following : ∀ i c, S.getCell i = some c → i + c.more + 1 < S.size →
    (S.getCell (i + c.more + 1)).isSome

theorem Hierarchical.mono {types : List SubnetType} {bound n : ℕ} {S : Subnet}
    (h : S.Hierarchical types bound) (hn : bound ≤ n) : S.Hierarchical types n := by
  refine ⟨h.wellFormed, ⟨fun i c sid hc ht => ?_, h.composed.ports⟩, h.links, h.first, h.within,
    h.skipped, h.following⟩
  obtain ⟨hlt, hnum⟩ := h.composed.soft i c sid hc ht
  exact ⟨Nat.lt_of_lt_of_le hlt hn, hnum⟩

end Subnet

def SubnetType.Nested (types : List SubnetType) : Prop :=
  ∀ sid (T : SubnetType), types[sid]? = some T → T.inNum = T.subnet.nIn ∧ T.outNum = T.subnet.nOut ∧
    T.subnet.Hierarchical types sid

theorem SubnetType.Nested.consistent {types : List SubnetType} (h : Nested types) :
    Consistent types := by
  intro sid T hT
  obtain ⟨hin, hout, hS⟩ := h sid T hT
  exact ⟨hin, hout, hS.composed⟩

theorem SubnetCell.outputs_eq {types : List SubnetType} {c : SubnetCell} :
    c.outputs types = c.tableNum (SubnetType.library types) := by
  unfold outputs tableNum
  cases c.type <;> rfl

theorem Subnet.Hierarchical.walkable {types : List SubnetType} {bound : ℕ} {S : Subnet}
    (h : S.Hierarchical types bound) : S.Walkable (SubnetType.library types) := by
  refine ⟨h.wellFormed, h.links, fun i c hc l hl c' hc' => ?_, h.first, h.within, h.skipped,
    h.following⟩
  have hport := h.composed.ports i c hc l hl c' hc'
  rwa [SubnetCell.outputs_eq] at hport

namespace NestedTruthTables

section Model

variable {n : ℕ} (types : List SubnetType) (inner : Subnet → TTs n → Option (List (TruthTable n)))

def evaluateSubnet : SoftTables n := fun sid cell tables => do
  let type ← types[sid]?
  let impl := type.subnet
  if impl.nIn = cell.arity ∧ impl.nOut = type.outNum then do
    let subtables ← cell.links.mapM fun link => (getLinkTable link tables).map ([·])
    inner impl subtables
  else none

/-- Evaluates a subnet whose types nest at most `d` deep. -/
def evaluateNested : ℕ → Subnet → TTs n → Option (List (TruthTable n))
  | 0, subnet, tables => evaluateEntries (evaluateSubnet types fun _ _ => none) subnet subnet.size
      0 tables []
  | d + 1, subnet, tables => evaluateEntries (evaluateSubnet types (evaluateNested d)) subnet
      subnet.size 0 tables []

/-- `evaluate`. The nesting is not deeper than the number of the types. -/
def evaluate (subnet : Subnet) : Option (List (TruthTable subnet.nIn)) :=
  evaluateNested types types.length subnet []

/-- The pattern of the outputs for one assignment. -/
def careIndex (tables : List (TruthTable n)) (i : ℕ) : ℕ :=
  (range tables.length).foldl (fun index j => index |||
    ((tables.getD j 0).get_bit i).toNat <<< j) 0

def computeCare (subnet : Subnet) : Option (TruthTable subnet.nOut) := do
  let tables ← evaluate types subnet
  some ((range (2 ^ subnet.nIn)).foldl (fun care i => care |||
    BitVec.twoPow _ (careIndex tables i)) 0)

end Model

open Evaluation

variable {n : ℕ} {types : List SubnetType} {inner : Subnet → TTs n → Option (List (TruthTable n))}
  {S : Subnet} {tables : TTs n} {i k bound : ℕ} {c : SubnetCell} {y : (ℕ → Bool) → EntryID → Bool}

private theorem mapM_map {α β γ : Type} {f : α → Option β} (g : β → γ) :
    ∀ {ls : List α} {fs : List β}, ls.mapM f = some fs → ls.mapM (fun l => (f l).map g) =
    some (fs.map g) ∧ fs.length = ls.length := by
  intro ls
  induction ls with
  | nil =>
    intro fs h
    cases h
    exact ⟨rfl, rfl⟩
  | cons l ls ih =>
    intro fs h
    rw [mapM_cons] at h
    obtain ⟨b, hb, h⟩ := Option.bind_eq_some_iff.mp h
    obtain ⟨bs, hbs, h⟩ := Option.bind_eq_some_iff.mp h
    cases h
    obtain ⟨hmap, hlen⟩ := ih hbs
    refine ⟨?_, congrArg Nat.succ hlen⟩
    rw [mapM_cons, hb, hmap]
    rfl

theorem tabulates_evaluateSubnet (hS : S.Hierarchical types bound) (ht : SubnetType.Nested types)
    (hinner : ∀ sid < bound, ∀ T, types[sid]? = some T →
      ∀ (tables : TTs n) (z : (ℕ → Bool) → EntryID → Bool), Starts T.subnet tables T.subnet.nIn z →
      Yields (SubnetType.library types) T.subnet z (inner T.subnet tables)) :
    Tabulates (SubnetType.library types) S y (evaluateSubnet types inner) := by
  intro i c sid hc hsid tables htables
  obtain ⟨hlt, hnum⟩ := hS.composed.soft i c sid hc hsid
  obtain ⟨T, hT, harity⟩ := Option.map_eq_some_iff.mp hnum
  obtain ⟨hin, hout, -⟩ := ht sid T hT
  obtain ⟨fs, hfs, hvalues⟩ := exists_tables htables
  obtain ⟨hsub, hlinks⟩ := mapM_map ([·]) hfs
  have hlen : fs.length = T.subnet.nIn := hlinks.trans (harity.symm.trans hin)
  let z : (ℕ → Bool) → EntryID → Bool := fun x j => (fs.map (·.value x)).getD j false
  have hstart : Starts T.subnet (fs.map ([·])) T.subnet.nIn z := by
    refine ⟨by rw [length_map, hlen], Nat.le_refl _, fun j hj => ?_, fun j hj hj' =>
      absurd hj' (Nat.not_lt.mpr hj)⟩
    have hget : fs[j]? = some (fs.get ⟨j, hlen ▸ hj⟩) := getElem?_eq_getElem _
    refine ⟨fs.get ⟨j, hlen ▸ hj⟩, ?_, fun x => ?_⟩
    · rw [getElem?_map, hget, Option.map_some]
    · simp only [z]
      rw [getD_eq_getElem?_getD, getElem?_map, hget]
      rfl
  obtain ⟨gs, hgs, hcount, hresult⟩ := hinner sid hlt T hT _ z hstart
  refine ⟨gs, ?_, ?_, fun out f hf x ρ hρ => ?_⟩
  · simp only [evaluateSubnet, hT, Option.bind_eq_bind, Option.bind_some]
    rw [if_pos ⟨hin.symm.trans harity, hout.symm⟩, hsub, Option.bind_some, hgs]
  · rw [hcount, ← SubnetCell.outputs_eq, SubnetCell.outputs, hsid]
    simp [hT, hout]
  · have hvalue := hresult out f hf x
    rw [eq_eval hc hρ, hsid, if_neg (by simp)]
    have hz : z x = fun j => (c.links.map (Link.value ρ)).getD j false := by
      funext j
      simp only [z, hvalues x ρ hρ]
    rw [hz] at hvalue
    change f.value x = (SubnetType.library types).eval sid _ out
    rw [ht.consistent.library_eval hT, hvalue, Option.getD_some]

theorem evaluateNested_eq (ht : SubnetType.Nested types) :
    ∀ {d : ℕ} {S : Subnet}, S.Hierarchical types d →
    ∀ {k : ℕ} {tables : TTs n} {y : (ℕ → Bool) → EntryID → Bool}, Starts S tables k y →
      Yields (SubnetType.library types) S y (evaluateNested types d S tables) := by
  intro d
  induction d with
  | zero =>
    intro S hS k tables y h
    exact h.yields hS.walkable
      (tabulates_evaluateSubnet hS ht (fun sid hsid => absurd hsid (Nat.not_lt_zero sid)))
  | succ d ih =>
    intro S hS k tables y h
    refine h.yields hS.walkable
      (tabulates_evaluateSubnet hS ht (fun sid hsid T hT tables z hz => ?_))
    exact ih ((ht sid T hT).2.2.mono (Nat.lt_succ_iff.mp hsid)) hz

theorem evaluate_eq (ht : SubnetType.Nested types) (hS : S.Hierarchical types types.length) :
    Yields (SubnetType.library types) S (fun x => x) (evaluate types S) :=
  evaluateNested_eq ht hS (starts_nil S)

theorem testBit_careIndex (tables : List (TruthTable n)) (i j : ℕ) :
    (careIndex tables i).testBit j =
    (decide (j < tables.length) && (tables.getD j 0).get_bit i) := by
  have hfold : ∀ m, ((range m).foldl
      (fun index j => index ||| ((tables.getD j 0).get_bit i).toNat <<< j) 0).testBit j =
        (decide (j < m) && (tables.getD j 0).get_bit i) := by
    intro m
    induction m with
    | zero => simp
    | succ m ih =>
      rw [range_succ, foldl_append, foldl_cons, foldl_nil, Nat.testBit_or, ih,
        Nat.testBit_shiftLeft]
      rcases Nat.lt_trichotomy j m with hlt | rfl | hgt
      · simp [hlt, Nat.lt_succ_of_lt hlt, Nat.not_le.mpr hlt]
      · cases (tables.getD j 0).get_bit i <;> simp
      · have hpos : j - m ≠ 0 := Nat.sub_ne_zero_of_lt hgt
        have hzero : ((tables.getD m 0).get_bit i).toNat.testBit (j - m) = false := by
          obtain ⟨r, hr⟩ := Nat.exists_eq_succ_of_ne_zero hpos
          rw [hr]
          cases (tables.getD m 0).get_bit i <;> simp [Nat.testBit_succ]
        rw [hzero]
        simp [Nat.not_lt.mpr (Nat.le_of_lt hgt), Nat.not_lt.mpr (Nat.succ_le_of_lt hgt)]
  exact hfold tables.length

/-- The tables hold the values of the outputs in order, and the care set consists of the patterns
that the outputs take. -/
theorem evaluate_computeCare (ht : SubnetType.Nested types)
    (hS : S.Hierarchical types types.length) : (∃ fs, evaluate types S = some fs ∧
    fs.length = S.nOut ∧ ∀ j f, fs[j]? = some f → ∀ b < 2 ^ S.nIn,
      S.value (SubnetType.library types) b.testBit (S.getOutIdx j) 0 = some (f.get_bit b)) ∧
    ∃ care, computeCare types S = some care ∧ ∀ index < 2 ^ S.nOut, care.get_bit index = true ↔
      ∃ x : EntryID → Bool, ∀ j < S.nOut,
        S.value (SubnetType.library types) x (S.getOutIdx j) 0 = some (index.testBit j) := by
  obtain ⟨fs, hfs, hlen, hvalues⟩ := evaluate_eq ht hS
  refine ⟨⟨fs, hfs, hlen, fun j f hf b hb => ?_⟩, ?_⟩
  · rw [hvalues j f hf b.testBit, TruthTable.value, ProductSums.point_testBit hb]
  · have hcare : computeCare types S = some ((range (2 ^ S.nIn)).foldl
        (fun care i => care ||| BitVec.twoPow _ (careIndex fs i)) 0) := by
      rw [computeCare, hfs]
      rfl
    refine ⟨_, hcare, fun index hindex => ?_⟩
    have hbit : ∀ m, (((range m).foldl (fun care i => care ||| BitVec.twoPow _ (careIndex fs i)) 0 :
        TruthTable S.nOut)).get_bit index = true ↔ ∃ i < m, careIndex fs i = index := by
      intro m
      induction m with
      | zero => simp [TruthTable.get_bit]
      | succ m ih =>
        rw [range_succ, foldl_append, foldl_cons, foldl_nil, TruthTable.get_bit,
          BitVec.getLsbD_or, BitVec.getLsbD_twoPow, Bool.or_eq_true, Bool.and_eq_true,
          decide_eq_true_eq, decide_eq_true_eq]
        rw [TruthTable.get_bit] at ih
        rw [ih]
        constructor
        · rintro (⟨i, hi, heq⟩ | ⟨-, heq⟩)
          · exact ⟨i, Nat.lt_succ_of_lt hi, heq⟩
          · exact ⟨m, Nat.lt_succ_self m, heq⟩
        · rintro ⟨i, hi, heq⟩
          rcases Nat.lt_succ_iff_lt_or_eq.mp hi with hlt | rfl
          · exact .inl ⟨i, hlt, heq⟩
          · exact .inr ⟨heq.symm ▸ hindex, heq⟩
    have hpattern : ∀ i, careIndex fs i = index ↔ ∀ j f, fs[j]? = some f →
        f.get_bit i = index.testBit j := by
      intro i
      constructor
      · rintro rfl j f hf
        obtain ⟨hj, rfl⟩ := List.getElem?_eq_some_iff.mp hf
        rw [testBit_careIndex, decide_eq_true hj, Bool.true_and, getD_eq_getElem _ _ hj]
      · intro h
        refine Nat.eq_of_testBit_eq fun j => ?_
        rw [testBit_careIndex]
        by_cases hj : j < fs.length
        · rw [decide_eq_true hj, Bool.true_and, getD_eq_getElem _ _ hj]
          exact h j _ (getElem?_eq_getElem hj)
        · rw [decide_eq_false hj, Bool.false_and]
          refine (Nat.testBit_lt_two_pow (Nat.lt_of_lt_of_le hindex ?_)).symm
          exact Nat.pow_le_pow_right Nat.two_pos (hlen ▸ Nat.not_lt.mp hj)
    rw [hbit]
    constructor
    · rintro ⟨i, hi, heq⟩
      refine ⟨i.testBit, fun j hj => ?_⟩
      have hget : fs[j]? = some (fs.get ⟨j, hlen ▸ hj⟩) := getElem?_eq_getElem _
      rw [hvalues j _ hget i.testBit, TruthTable.value, ProductSums.point_testBit hi,
        (hpattern i).mp heq j _ hget]
    · rintro ⟨x, hx⟩
      refine ⟨ProductSums.point x S.nIn, ProductSums.point_lt, (hpattern _).mpr fun j f hf => ?_⟩
      have hj : j < S.nOut := hlen ▸ (List.getElem?_eq_some_iff.mp hf).1
      exact Option.some.inj ((hvalues j f hf x).symm.trans (hx j hj))

/-- Subnets that can be encoded can be evaluated. -/
theorem hierarchical_of_encodable (h : S.Encodable types bound) : S.Hierarchical types bound := by
  refine ⟨h.wellFormed, h.composed, fun i c hc ht hnil => ?_, h.first, h.within, h.skipped,
    h.following⟩
  have hsupp := h.supported i c hc
  simp only [mem_cons, not_mem_nil, or_false] at ht
  rcases ht with ht | ht | ht | ht <;> simp [SubnetCell.Supported, ht, hnil] at hsupp

theorem evaluate_computeCare_adderParity :
    (∃ fs, evaluate [SubnetEncoder.halfAdder] SubnetEncoder.adderParity = some fs ∧
      fs.length = 1 ∧ ∀ j f, fs[j]? = some f → ∀ b < 2 ^ 2,
        SubnetEncoder.adderParity.value (SubnetType.library [SubnetEncoder.halfAdder]) b.testBit
          (SubnetEncoder.adderParity.getOutIdx j) 0 = some (f.get_bit b)) ∧
    ∃ care, computeCare [SubnetEncoder.halfAdder] SubnetEncoder.adderParity = some care ∧
      ∀ index < 2 ^ 1, care.get_bit index = true ↔ ∃ x : EntryID → Bool, ∀ j < 1,
        SubnetEncoder.adderParity.value (SubnetType.library [SubnetEncoder.halfAdder]) x
          (SubnetEncoder.adderParity.getOutIdx j) 0 = some (index.testBit j) := by
  have ht : SubnetType.Nested [SubnetEncoder.halfAdder] := by
    intro sid T hT
    obtain ⟨hin, hout, -, hS⟩ := SubnetEncoder.valid_halfAdder sid T hT
    exact ⟨hin, hout, hierarchical_of_encodable hS⟩
  exact evaluate_computeCare ht
    (hierarchical_of_encodable (SubnetEncoder.encodable_of_check (by decide)))

end NestedTruthTables

end UtopiaEda
