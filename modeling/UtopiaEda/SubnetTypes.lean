import UtopiaEda.SubnetEncoder

/-!
# The meaning of cells with a subnet

A cell of a type with a subnet takes the values that the subnet gives to its outputs. The cells
inside have older types, so the nesting ends.
-/
namespace UtopiaEda

namespace SubnetCell

def outputs (types : List SubnetType) (c : SubnetCell) : ℕ :=
  match c.type with
  | .soft sid => ((types[sid]?).map SubnetType.outNum).getD 0
  | _ => 1

def Supported (types : List SubnetType) (bound : ℕ) (c : SubnetCell) : Prop :=
  match c.type with
  | .IN | .ZERO | .ONE => c.links.length = 0
  | .OUT | .BUF => c.links.length = 1
  | .AND | .OR | .XOR => c.links.length ≠ 0
  | .MAJ => c.links.length = 1 ∨ c.links.length = 3
  | .soft sid => sid < bound ∧ ((types[sid]?).map SubnetType.inNum) = some c.links.length
  | _ => False

instance (types : List SubnetType) (bound : ℕ) (c : SubnetCell) :
    Decidable (c.Supported types bound) := by
  unfold Supported
  split <;> infer_instance

end SubnetCell

namespace Subnet

structure Encodable (types : List SubnetType) (bound : ℕ) (S : Subnet) : Prop where
  wellFormed : S.WellFormed
  supported : ∀ i c, S.getCell i = some c → c.Supported types bound
  ports : ∀ i c, S.getCell i = some c → ∀ l ∈ c.links, ∀ c', S.getCell l.idx = some c' →
    l.out < c'.outputs types
  first : 0 < S.size → (S.getCell 0).isSome
  within : ∀ i c, S.getCell i = some c → i + c.more < S.size
  skipped : ∀ i c, S.getCell i = some c → ∀ k, i < k → k ≤ i + c.more → S.getCell k = none
  following : ∀ i c, S.getCell i = some c → i + c.more + 1 < S.size →
    (S.getCell (i + c.more + 1)).isSome

theorem Encodable.mono {types : List SubnetType} {bound n : ℕ} {S : Subnet}
    (h : S.Encodable types bound) (hn : bound ≤ n) : S.Encodable types n := by
  refine ⟨h.wellFormed, fun i c hc => ?_, h.ports, h.first, h.within, h.skipped, h.following⟩
  have hsupp := h.supported i c hc
  unfold SubnetCell.Supported at hsupp ⊢
  split <;> simp_all
  omega

/-- A subnet of any cells; those with a subnet have types below the bound and as many links as their
types have inputs. -/
structure Composed (types : List SubnetType) (bound : ℕ) (S : Subnet) : Prop where
  soft : ∀ i c sid, S.getCell i = some c → c.type = .soft sid →
    sid < bound ∧ ((types[sid]?).map SubnetType.inNum) = some c.links.length
  ports : ∀ i c, S.getCell i = some c → ∀ l ∈ c.links, ∀ c', S.getCell l.idx = some c' →
    l.out < c'.outputs types

theorem Encodable.composed {types : List SubnetType} {bound : ℕ} {S : Subnet}
    (h : S.Encodable types bound) : S.Composed types bound := by
  refine ⟨fun i c sid hc ht => ?_, h.ports⟩
  have hsupp := h.supported i c hc
  simpa only [SubnetCell.Supported, ht] using hsupp

end Subnet

namespace SubnetType

/-- The subnets of the types have the right numbers of inputs and outputs, at least one output,
and cells of older types only. -/
def Valid (types : List SubnetType) : Prop :=
  ∀ sid (T : SubnetType), types[sid]? = some T → T.inNum = T.subnet.nIn ∧ T.outNum = T.subnet.nOut ∧
    0 < T.outNum ∧ T.subnet.Encodable types sid

def Consistent (types : List SubnetType) : Prop :=
  ∀ sid (T : SubnetType), types[sid]? = some T → T.inNum = T.subnet.nIn ∧ T.outNum = T.subnet.nOut ∧
    T.subnet.Composed types sid

theorem Valid.consistent {types : List SubnetType} (h : Valid types) : Consistent types := by
  intro sid T hT
  obtain ⟨hin, hout, -, hS⟩ := h sid T hT
  exact ⟨hin, hout, hS.composed⟩

def outNums (types : List SubnetType) (sid : ℕ) : ℕ := ((types[sid]?).map outNum).getD 0

/-- The value of an output of the subnet of a type; `d` bounds the nesting. -/
def eval (types : List SubnetType) : ℕ → ℕ → List Bool → ℕ → Bool
  | 0, _, _, _ => false
  | d + 1, sid, xs, out =>
    match types[sid]? with
    | none => false
    | some T => (T.subnet.value ⟨outNums types, eval types d⟩ (fun i => xs.getD i false)
        (T.subnet.getOutIdx out) 0).getD false

def library (types : List SubnetType) : CellLibrary :=
  ⟨outNums types, fun sid => eval types (sid + 1) sid⟩

end SubnetType

variable {types : List SubnetType} {bound i out : ℕ} {S : Subnet} {x : EntryID → Bool}

private theorem netlist_eval_congr {N : Netlist} {lib lib' : CellLibrary}
    (h : ∀ i g, N i = some g → g.type.eval lib = g.type.eval lib') :
    ∀ n i out, N.eval lib x n i out = N.eval lib' x n i out := by
  intro n
  induction n with
  | zero => intro i out; rfl
  | succ n ih =>
    intro i out
    cases hg : N i with
    | none => simp only [Netlist.eval, hg]
    | some g =>
      simp only [Netlist.eval, hg, h i g hg, ih]

private theorem composed_value_congr {lib lib' : CellLibrary} (hS : S.Composed types bound)
    (h : ∀ sid, sid < bound → lib.eval sid = lib'.eval sid) :
    S.value lib x i out = S.value lib' x i out := by
  apply netlist_eval_congr
  intro i g hg
  obtain ⟨c, hc, rfl⟩ := Option.map_eq_some_iff.mp hg
  funext xs out
  cases ht : c.type with
  | soft sid => exact congrFun (congrFun (h sid (hS.soft i c sid hc ht).1) xs) out
  | _ => rfl

private theorem eval_stable (ht : SubnetType.Consistent types) : ∀ {d sid : ℕ}, sid < d →
    SubnetType.eval types d sid = SubnetType.eval types (sid + 1) sid := by
  intro d
  induction d using Nat.strong_induction_on with
  | _ d ih =>
    intro sid hlt
    obtain ⟨d, rfl⟩ := Nat.exists_eq_succ_of_ne_zero (Nat.ne_of_gt (Nat.zero_lt_of_lt hlt))
    funext xs out
    simp only [SubnetType.eval]
    cases hT : types[sid]? with
    | none => rfl
    | some T =>
      refine congrArg (Option.getD · false)
        (composed_value_congr (ht sid T hT).2.2 fun sid' hlt' => ?_)
      simp only
      rcases Nat.lt_succ_iff_lt_or_eq.mp hlt with hsid | rfl
      · rw [ih d (Nat.lt_succ_self d) (Nat.lt_trans hlt' hsid), ih sid hlt hlt']
      · rfl

theorem SubnetType.Consistent.library_eval (ht : SubnetType.Consistent types) {sid : ℕ}
    {T : SubnetType} (hT : types[sid]? = some T) (xs : List Bool) (out : ℕ) :
    (SubnetType.library types).eval sid xs out = (T.subnet.value (SubnetType.library types)
      (fun i => xs.getD i false) (T.subnet.getOutIdx out) 0).getD false := by
  simp only [SubnetType.library, SubnetType.eval, hT]
  refine congrArg (Option.getD · false) (composed_value_congr (ht sid T hT).2.2 fun sid' hlt => ?_)
  exact eval_stable ht hlt

end UtopiaEda
