import UtopiaEda.BuilderLimits
import UtopiaEda.RelationNetworks

/-!
# The networks of bitwise operations and reductions

A bitwise operation has a gate and an output for every bit of its extended operands. A reduction is
a tree of gates over all bits of the operand; its outputs but the first are zero.
-/
namespace UtopiaEda.Synthesizer

open List
open Option (bind_eq_bind bind_eq_some_iff bind_some some.inj)
open SubnetBuilder

def extend (s : SubnetBuilder) (word : List Link) (width : ℕ) (signExtend : Bool) :
    Option (SubnetBuilder × List Link) :=
  if width ≤ word.length then some (s, word)
  else do
    let (s, bit) ← (if signExtend && !word.isEmpty then do some (s, ← word.getLast?)
      else s.addCell .ZERO [] : Option (SubnetBuilder × Link))
    some (s, word ++ .replicate (width - word.length) bit)

def addBOp2 (symbol : CellTypeID) (positive : Bool) (lhs rhs : List Link) (s : SubnetBuilder)
    (i : ℕ) : Option SubnetBuilder := do
  let (s, res) ← s.addCell symbol [← lhs[i]?, ← rhs[i]?]
  let (s, _) ← s.addOutput (if positive then res else res.not)
  some s

def synthBOp2 (symbol : CellTypeID) (wIn0 wIn1 wOut : UInt32) (signExtend positive : Bool) :
    Option Subnet := do
  let (s, lhs) ← addInputs wIn0.toNat {}
  let (s, rhs) ← addInputs wIn1.toNat s
  let (s, lhs) ← extend s lhs wOut.toNat signExtend
  let (s, rhs) ← extend s rhs wOut.toNat signExtend
  (← (range wOut.toNat).foldlM (addBOp2 symbol positive lhs rhs) s).make

def synthBNot (wIn wOut : UInt32) (signExtend : Bool) : Option Subnet := do
  let (s, arg) ← addInputs wIn.toNat {}
  let (s, arg) ← extend s arg wOut.toNat signExtend
  (← addOutputs ((arg.take wOut.toNat).map Link.not) s).make

def synthROp (symbol : CellTypeID) (wIn wOut : UInt32) (positive : Bool) : Option Subnet := do
  let (s, arg) ← addInputs wIn.toNat {}
  let (s, res) ← s.addCellTree symbol arg 2
  makeRelation s (if positive then res else res.not) wOut

def synthBNotS (wIn wOut : UInt32) : Option Subnet := synthBNot wIn wOut true

def synthBNotU (wIn wOut : UInt32) : Option Subnet := synthBNot wIn wOut false

def synthBAndS (wIn0 wIn1 wOut : UInt32) : Option Subnet := synthBOp2 .AND wIn0 wIn1 wOut true true

def synthBAndU (wIn0 wIn1 wOut : UInt32) : Option Subnet := synthBOp2 .AND wIn0 wIn1 wOut false true

def synthBOrS (wIn0 wIn1 wOut : UInt32) : Option Subnet := synthBOp2 .OR wIn0 wIn1 wOut true true

def synthBOrU (wIn0 wIn1 wOut : UInt32) : Option Subnet := synthBOp2 .OR wIn0 wIn1 wOut false true

def synthBXorS (wIn0 wIn1 wOut : UInt32) : Option Subnet := synthBOp2 .XOR wIn0 wIn1 wOut true true

def synthBXorU (wIn0 wIn1 wOut : UInt32) : Option Subnet := synthBOp2 .XOR wIn0 wIn1 wOut false true

def synthBNandS (wIn0 wIn1 wOut : UInt32) : Option Subnet :=
  synthBOp2 .AND wIn0 wIn1 wOut true false

def synthBNandU (wIn0 wIn1 wOut : UInt32) : Option Subnet :=
  synthBOp2 .AND wIn0 wIn1 wOut false false

def synthBNorS (wIn0 wIn1 wOut : UInt32) : Option Subnet := synthBOp2 .OR wIn0 wIn1 wOut true false

def synthBNorU (wIn0 wIn1 wOut : UInt32) : Option Subnet := synthBOp2 .OR wIn0 wIn1 wOut false false

def synthBXnorS (wIn0 wIn1 wOut : UInt32) : Option Subnet :=
  synthBOp2 .XOR wIn0 wIn1 wOut true false

def synthBXnorU (wIn0 wIn1 wOut : UInt32) : Option Subnet :=
  synthBOp2 .XOR wIn0 wIn1 wOut false false

def synthRAnd (wIn wOut : UInt32) : Option Subnet := synthROp .AND wIn wOut true

def synthROr (wIn wOut : UInt32) : Option Subnet := synthROp .OR wIn wOut true

def synthRXor (wIn wOut : UInt32) : Option Subnet := synthROp .XOR wIn wOut true

def synthRNand (wIn wOut : UInt32) : Option Subnet := synthROp .AND wIn wOut false

def synthRNor (wIn wOut : UInt32) : Option Subnet := synthROp .OR wIn wOut false

def synthRXnor (wIn wOut : UInt32) : Option Subnet := synthROp .XOR wIn wOut false

variable {s s' s'' : SubnetBuilder} {ins outs : List EntryID} {n m p k first : ℕ}
  {links word lhs rhs : List Link} {t : CellTypeID} {l : Link} {F : (EntryID → ℕ → Bool) → Bool}
  {W a b : (EntryID → ℕ → Bool) → ℕ → Bool}

/-! ### Extended words -/

/-- The operand of the inputs from `first` on, with the width `m`. -/
def operand (signExtend : Bool) (x : ℕ → Bool) (first n m : ℕ) : BitVec m :=
  if signExtend then (inputWord x first n).signExtend m else (inputWord x first n).setWidth m

/-- The bits of the inputs from `first` on and what stands behind them. -/
def extendedFrom (signExtend : Bool) (first n : ℕ) : (EntryID → ℕ → Bool) → ℕ → Bool :=
  if signExtend then signExtended first n else zeroExtended first n

theorem extendedFrom_eq {signExtend : Bool} {i : ℕ} {ρ : EntryID → ℕ → Bool} {x : ℕ → Bool}
    (hx : ∀ i < p, ρ i 0 = x i) (hn : 0 < n) (hp : first + n ≤ p) (hi : i < m) :
    extendedFrom signExtend first n ρ i = (operand signExtend x first n m).getLsbD i := by
  cases signExtend with
  | false =>
    rw [operand, if_neg Bool.false_ne_true, BitVec.getLsbD_setWidth, decide_eq_true hi,
      Bool.true_and]
    exact zeroExtended_eq hx hp
  | true =>
    rw [operand, if_pos rfl]
    exact signExtended_eq hx hp hn hi

theorem extendedFrom_inside {signExtend : Bool} {i : ℕ} {ρ : EntryID → ℕ → Bool} (hi : i < n) :
    extendedFrom signExtend first n ρ i = ρ (first + i) 0 := by
  cases signExtend with
  | false => exact if_pos hi
  | true =>
    rw [extendedFrom, if_pos rfl, signExtended, Nat.min_eq_left (Nat.le_sub_one_of_lt hi)]

theorem extend_eq (signExtend : Bool) (first width : ℕ) (h : Enlarged ins outs s s')
    (hs : HasInputs s p) (hn : 0 < n) (hp : first + n ≤ p) :
    ∃ s'' word, extend s' (inputsFrom first n) width signExtend = some (s'', word) ∧
      Enlarged ins outs s s'' ∧ Enlarged ins outs s' s'' ∧
      s''.Spells (max n width) (extendedFrom signExtend first n) word := by
  have hspells : s'.Spells n (fun ρ i => ρ (first + i) 0) (inputsFrom first n) :=
    (hs.spells first n hp).mono h
  have hrefl : Enlarged ins outs s' s' := .refl h.grown.choose_spec
  have hlen : (inputsFrom first n).length = n := inputsFrom_length
  unfold extend
  rw [hlen]
  by_cases hw : width ≤ n
  · rw [if_pos hw, Nat.max_eq_left hw]
    exact ⟨s', _, rfl, h, hrefl, hspells.congr fun ρ i hi => (extendedFrom_inside hi).symm⟩
  rw [if_neg hw]
  have hmax : max n width = n + (width - n) := by omega
  rw [hmax]
  cases signExtend with
  | true =>
    obtain ⟨l, hl, hc⟩ := hspells.getLast hn
    have hne : (inputsFrom first n).isEmpty = false := by
      rw [isEmpty_eq_false_iff, ← length_pos_iff, hlen]
      exact hn
    refine ⟨s', _, by rw [hne, hl]; rfl, h, hrefl, ?_⟩
    refine (hspells.append (Spells.replicate hc)).congr fun ρ i hi => ?_
    rw [extendedFrom, if_pos rfl, signExtended]
    split
    · rw [Nat.min_eq_left (by omega)]
    · rw [Nat.min_eq_right (by omega)]
  | false =>
    obtain ⟨s'', zero, hadd, h', hstep, hc⟩ := h.addConstant false
    simp only [Bool.false_eq_true, if_false] at hadd
    refine ⟨s'', _, by simp only [Bool.false_and, Bool.false_eq_true, if_false, hadd]; rfl, h', hstep, ?_⟩
    exact (hspells.mono hstep).append (Spells.replicate hc)

/-- The links to the inputs from `first` on, and behind them to the last one or to a constant. -/
def ExtendsInputs (s : SubnetBuilder) (signExtend : Bool) (first n : ℕ) (bit : Link)
    (word : List Link) : Prop :=
  ∀ i l, word[i]? = some l → if i < n then l.idx = first + i else
    l = bit ∧ if signExtend then l.idx = first + (n - 1) else s.netlist l.idx = some ⟨.ZERO, []⟩

theorem ExtendsInputs.mono {signExtend : Bool} {bit : Link}
    (h : ExtendsInputs s signExtend first n bit word) (hle : s.netlist.Le s'.netlist) :
    ExtendsInputs s' signExtend first n bit word := by
  intro i l hi
  have hbit := h i l hi
  split at hbit <;> rename_i hlt
  · rw [if_pos hlt]
    exact hbit
  · rw [if_neg hlt]
    cases signExtend with
    | true => exact hbit
    | false => exact ⟨hbit.1, hle _ _ hbit.2⟩

private theorem extends_append {signExtend : Bool} {bit : Link}
    (hbit : if signExtend then bit.idx = first + (n - 1) else
    s.netlist bit.idx = some ⟨.ZERO, []⟩) :
    ExtendsInputs s signExtend first n bit (inputsFrom first n ++ .replicate m bit) := by
  intro i l hi
  by_cases hlt : i < n
  · rw [getElem?_append_left (by rw [inputsFrom_length]; exact hlt), inputsFrom, getElem?_map,
      getElem?_range' hlt, Nat.one_mul] at hi
    rw [if_pos hlt, ← some.inj hi]
  · rw [getElem?_append_right (by rw [inputsFrom_length]; exact Nat.not_lt.mp hlt)] at hi
    rw [if_neg hlt, (mem_replicate.mp (mem_of_getElem? hi)).2]
    exact ⟨rfl, hbit⟩

/-- The extension adds a constant at most, and no link. -/
theorem extend_counts {signExtend : Bool} {width : ℕ} (h : Enlarged ins outs s s') (hn : 0 < n)
    (hext : extend s' (inputsFrom first n) width signExtend = some (s'', word)) :
    (s''.size ≤ s'.size + 1 ∧ ∀ i, s''.refcountAt i = s'.refcountAt i) ∧
      ∃ bit, ExtendsInputs s'' signExtend first n bit word := by
  have hlen : (inputsFrom first n).length = n := inputsFrom_length
  have hne : (inputsFrom first n).isEmpty = false := by
    rw [isEmpty_eq_false_iff, ← length_pos_iff, hlen]
    exact hn
  unfold extend at hext
  rw [hlen] at hext
  by_cases hw : width ≤ n
  · rw [if_pos hw] at hext
    cases hext
    refine ⟨⟨Nat.le_succ _, fun i => rfl⟩, ⟨0, 0, false⟩, fun i l hi => ?_⟩
    have hlt : i < n := hlen ▸ (List.getElem?_eq_some_iff.mp hi).1
    rw [inputsFrom, getElem?_map, getElem?_range' hlt, Nat.one_mul] at hi
    rw [if_pos hlt, ← some.inj hi]
  rw [if_neg hw] at hext
  cases signExtend with
  | true =>
    simp only [hne, Bool.not_false, Bool.and_self, if_true, getLast_inputsFrom hn, bind_eq_bind,
      bind_some] at hext
    cases hext
    exact ⟨⟨Nat.le_succ _, fun i => rfl⟩, _, extends_append rfl⟩
  | false =>
    simp only [Bool.false_and, Bool.false_eq_true, if_false, bind_eq_bind] at hext
    obtain ⟨⟨s₁, zero⟩, hadd, heq⟩ := bind_eq_some_iff.mp hext
    cases heq
    obtain ⟨mid, hgrown⟩ := h.grown
    have hv : s'.ValidLinks [] := fun l hl => by cases hl
    obtain ⟨-, -, hadded⟩ := hgrown.net.of_addCell hv hadd
    obtain ⟨ls, hzero, hkey⟩ := hadded.here
    have hnil : ls = [] := List.Perm.eq_nil (StrashKey.make_eq hkey).2.1
    refine ⟨?_, zero, extends_append (hnil ▸ hzero)⟩
    rcases hgrown.addCell_counts hv (Nat.zero_le _) rfl (by decide) (by decide) hadd with
      ⟨rfl, -⟩ | ⟨-, hsize, hcount⟩
    · exact ⟨Nat.le_succ _, fun i => rfl⟩
    · exact ⟨Nat.le_of_eq hsize, fun i => hcount i⟩

/-! ### Bits -/

theorem drawn_congr {W' : (EntryID → ℕ → Bool) → ℕ → Bool} (h : Drawn s n outs W)
    (hW : ∀ ρ, ∀ j < outs.length, W ρ j = W' ρ j) : Drawn s n outs W' :=
  ⟨h.grown, h.counts, h.input, fun j e he lib x ρ hρ =>
    (h.values j e he lib x ρ hρ).trans (hW ρ j (List.getElem?_eq_some_iff.mp he).1)⟩

theorem drawn_addOutput (h : Drawn s n outs W) (hl : s.Computes l (W · outs.length)) :
    ∃ s' o outs', s.addOutput l = some (s', o) ∧ outs'.length = outs.length + 1 ∧
    s.netlist.Le s'.netlist ∧
      Drawn s' n outs' W := by
  obtain ⟨s', outs', hadd, hlen, hle, hdrawn⟩ := h.addOutputs (Spells.singleton hl)
  obtain ⟨⟨s₁, o⟩, hout, hrest⟩ :=
    bind_eq_some_iff.mp (show (s.addOutput l).bind _ = _ from hadd)
  obtain rfl := some.inj hrest
  refine ⟨s₁, o, outs', hout, hlen, hle, drawn_congr hdrawn fun ρ j hj => ?_⟩
  by_cases hlt : j < outs.length
  · rw [if_pos hlt]
  · have : j = outs.length := by omega
    rw [if_neg hlt, this]

theorem addBOp2_eq (ht : t.isRegroupable) (positive : Bool) (h : Drawn s n outs W)
    (hlhs : s.Spells m a lhs) (hrhs : s.Spells k b rhs) (hm : outs.length < m)
    (hk : outs.length < k) (hW : ∀ ρ, W ρ outs.length = xor (!positive)
    (gateFunction t [a ρ outs.length, b ρ outs.length])) : ∃ s' outs', addBOp2 t positive lhs rhs s
    outs.length = some s' ∧ outs'.length = outs.length + 1 ∧
      s.netlist.Le s'.netlist ∧ Drawn s' n outs' W := by
  obtain ⟨l₁, hl₁, hc₁⟩ := hlhs.bits _ hm
  obtain ⟨l₂, hl₂, hc₂⟩ := hrhs.bits _ hk
  obtain ⟨s₁, l, hadd, h₁, hstep, hl⟩ :=
    h.enlarged.addTreeOf (k := 2) (.cons hc₁ (.cons hc₂ .nil)) ht (Nat.le_refl 2)
  have hcell : s.addCell t [l₁, l₂] = some (s₁, l) := hadd
  have hres : s₁.Computes (if positive then l else l.not) (W · outs.length) := by
    cases positive with
    | true => exact hl.congr fun ρ => by simp [hW]
    | false => exact hl.not.congr fun ρ => by simp [hW]
  obtain ⟨s', o, outs', hout, hlen, hle, hdrawn⟩ := drawn_addOutput (h.enlarge hstep) hres
  refine ⟨s', outs', ?_, hlen, hstep.le.trans hle, hdrawn⟩
  unfold addBOp2
  simp only [hl₁, hl₂, bind_eq_bind, bind_some, hcell, hout]

/-! ### Counts of links -/

/-- After `p` bits, with the same operands `L₁` and `L₂` from the bit `m` on: these have one gate,
and only the constant that both operands may lead to is linked twice for one bit. -/
structure Paired (t : CellTypeID) (m n₀ : ℕ) (L₁ L₂ : Link) (p : ℕ) (s : SubnetBuilder) : Prop where
  size : s.size ≤ n₀ + min p (m + 1) + p
  count : ∀ i, s.netlist i ≠ some ⟨.ZERO, []⟩ → s.refcountAt i ≤ p
  zero : ∀ i, s.netlist i = some ⟨.ZERO, []⟩ → s.refcountAt i ≤ if p ≤ m then p else m + 2
  found : m < p → (s.strash (StrashKey.make t [L₁, L₂])).isSome

private theorem count_pair {i a b : ℕ} (hne : a ≠ b ∨ i ≠ a) : [a, b].count i ≤ 1 := by
  simp only [count_cons, count_nil, beq_iff_eq]
  split <;> split <;> omega

/-- The operands of a bit are different cells, or the constant. -/
def Distinct (s : SubnetBuilder) (m i : ℕ) (l₁ l₂ : Link) : Prop :=
  l₁.idx ≠ l₂.idx ∨ (m ≤ i ∧ s.netlist l₁.idx = some ⟨.ZERO, []⟩)

theorem ExtendsInputs.distinct {signExtend : Bool} {n₁ n₂ i : ℕ} {b₁ b₂ l₁ l₂ : Link}
    (h₁ : ExtendsInputs s signExtend 0 n₁ b₁ lhs) (h₂ : ExtendsInputs s signExtend n₁ n₂ b₂ rhs)
    (hin : ∀ i < n₁ + n₂, s.netlist i = some ⟨.IN, []⟩) (hn₁ : 0 < n₁)
    (hl₁ : lhs[i]? = some l₁) (hl₂ : rhs[i]? = some l₂) : Distinct s (max n₁ n₂) i l₁ l₂ := by
  have hl₁ := h₁ i l₁ hl₁
  have hl₂ := h₂ i l₂ hl₂
  have hinput : ∀ k < n₁ + n₂, s.netlist k ≠ some ⟨.ZERO, []⟩ := by
    intro k hk hz
    rw [hin k hk] at hz
    cases hz
  unfold Distinct
  by_cases hi₁ : i < n₁
  · rw [if_pos hi₁, Nat.zero_add] at hl₁
    left
    intro hsame
    have heq : i = l₂.idx := hl₁.symm.trans hsame
    by_cases hi₂ : i < n₂
    · rw [if_pos hi₂] at hl₂
      omega
    · rw [if_neg hi₂] at hl₂
      cases signExtend with
      | true =>
        have hidx : n₁ + (n₂ - 1) = l₂.idx := hl₂.2.symm
        omega
      | false => exact hinput i (by omega) (heq ▸ hl₂.2)
  · rw [if_neg hi₁] at hl₁
    cases signExtend with
    | true =>
      have hidx₁ : l₁.idx = 0 + (n₁ - 1) := hl₁.2
      left
      intro hsame
      have heq : 0 + (n₁ - 1) = l₂.idx := hidx₁.symm.trans hsame
      by_cases hi₂ : i < n₂
      · rw [if_pos hi₂] at hl₂
        omega
      · rw [if_neg hi₂] at hl₂
        have hidx : n₁ + (n₂ - 1) = l₂.idx := hl₂.2.symm
        omega
    | false =>
      by_cases hi₂ : i < n₂
      · rw [if_pos hi₂] at hl₂
        left
        intro heq
        exact hinput (n₁ + i) (by omega) (hl₂ ▸ heq ▸ hl₁.2)
      · exact .inr ⟨by omega, hl₁.2⟩

theorem Paired.step {L₁ L₂ l₁ l₂ : Link} {n₀ : ℕ} {positive : Bool} (ht : t.isRegroupable)
    (h : Drawn s n outs W) (hv : s.ValidLinks [l₁, l₂]) (hl₁ : lhs[p]? = some l₁)
    (hl₂ : rhs[p]? = some l₂) (hpair : Distinct s m p l₁ l₂) (hlast : m ≤ p → l₁ = L₁ ∧ l₂ = L₂)
    (hp : Paired t m n₀ L₁ L₂ p s) (hadd : addBOp2 t positive lhs rhs s p = some s') :
    Paired t m n₀ L₁ L₂ (p + 1) s' := by
  obtain ⟨hneg, hin, hout, hsoft⟩ := regroupable_gate ht
  have hzt : t ≠ .ZERO := by
    rintro rfl
    cases ht
  obtain ⟨mid, hgrown⟩ := h.grown
  obtain ⟨s₁, res, mid₁, hcell, hgrown₁, hres⟩ := hgrown.addGateLink hv hneg hin hout hsoft
  unfold addBOp2 at hadd
  simp only [hl₁, hl₂, bind_eq_bind, bind_some, hcell] at hadd
  obtain ⟨⟨s₂, o⟩, hout₂, heq⟩ := bind_eq_some_iff.mp hadd
  obtain rfl : s₂ = s' := some.inj heq
  have hvres : s₁.ValidLinks [if positive then res else res.not] := by
    cases positive with
    | true => exact hres.valid
    | false =>
      intro k hk
      rw [mem_singleton.mp hk]
      exact hres.valid res (mem_singleton_self _)
  obtain ⟨hsize₂, hcount₂⟩ := hgrown₁.addOutput_counts hvres hout₂
  have hidx : (if positive then res else res.not).idx = res.idx := by
    cases positive <;> rfl
  rw [hidx] at hcount₂
  have hstrash₂ : s₂.strash = s₁.strash := by
    rw [strash_of_addCell hout₂, if_neg (by simp [StrashKey.isEnabled])]
  have hen : StrashKey.isEnabled t [l₁, l₂] = true := by
    simp [StrashKey.isEnabled, hin, hout, InPlaceLinks]
  have hstrash₁ := strash_of_addCell hcell
  rw [if_pos hen] at hstrash₁
  -- the constants are the old ones
  have hold : ∀ i, s₂.netlist i = some ⟨.ZERO, []⟩ → s.netlist i = some ⟨.ZERO, []⟩ := fun i hi =>
    hgrown.net.old_of_addCell hv hcell (hgrown₁.net.old_of_addCell hvres hout₂ hi (by decide))
      (Ne.symm hzt)
  have hsame : ∀ i, s.netlist i = some ⟨.ZERO, []⟩ → s₂.netlist i = some ⟨.ZERO, []⟩ := fun i hi =>
    (hgrown₁.net.of_addCell hvres hout₂).2.2.of_old (hres.le i _ hi)
  have hlink : ∀ i, [res.idx].count i = if i = res.idx then 1 else 0 := by
    intro i
    rw [count_singleton]
    simp only [beq_iff_eq, @eq_comm _ i]
  have hfound : m < p + 1 → (s₂.strash (StrashKey.make t [L₁, L₂])).isSome := by
    intro hlt
    obtain ⟨rfl, rfl⟩ := hlast (Nat.le_of_lt_succ hlt)
    rw [hstrash₂, hstrash₁, Function.update_self]
    rfl
  rcases hgrown.addCell_counts hv (Nat.le_succ 2) hneg hin hout hcell with
    ⟨rfl, hk⟩ | ⟨hnew, hsize₁, hcount₁⟩
  · -- the gate is there already
    obtain ⟨c, hc, -, hkey⟩ := hgrown.net.strash _ _ hk
    have hgate : ∀ i, s₁.netlist i = some ⟨.ZERO, []⟩ → i ≠ res.idx := by
      rintro i hi rfl
      rw [netlist_of_live hc] at hi
      have hc₀ : c.type = .ZERO := congrArg Gate.type (some.inj hi)
      exact hzt ((StrashKey.make_eq hkey).1.symm.trans hc₀)
    refine ⟨?_, fun i hi => ?_, fun i hi => ?_, hfound⟩
    · have := hp.size
      omega
    · have := hp.count i (fun hz => hi (hsame i hz))
      rw [hcount₂ i, hlink i]
      split <;> omega
    · have := hp.zero i (hold i hi)
      rw [hcount₂ i, hlink i, if_neg (hgate i (hold i hi))]
      split at this <;> split <;> omega
  · have hle : p ≤ m := by
      by_contra hlt
      obtain ⟨k, hk⟩ := Option.isSome_iff_exists.mp (hp.found (Nat.not_le.mp hlt))
      obtain ⟨rfl, rfl⟩ := hlast (Nat.le_of_lt (Nat.not_le.mp hlt))
      obtain ⟨c, hc, -⟩ := hgrown.net.strash _ _ hk
      have hlive := lt_of_live hc
      rw [← idx_of_addCell hcell hen hk, hnew] at hlive
      exact Nat.lt_irrefl _ hlive
    have hlinks : ∀ l ∈ [l₁, l₂], l.idx < s.size := fun l hl => by
      obtain ⟨c, hc, -⟩ := hv l hl
      exact lt_of_live hc
    have hlt₁ := hlinks l₁ (by simp)
    have hlt₂ := hlinks l₂ (by simp)
    have hcount : ∀ i, s₂.refcountAt i = if i = s.size then 1 else
        s.refcountAt i + [l₁.idx, l₂.idx].count i := by
      intro i
      rw [hcount₂ i, hlink i, hcount₁ i, hnew]
      split
      · rename_i hi
        rw [hi, refcountAt_of_size_le (Nat.le_refl _), count_eq_zero_of_not_mem]
        simp only [map_cons, map_nil, mem_cons, not_mem_nil, or_false, not_or]
        exact ⟨Nat.ne_of_gt hlt₁, Nat.ne_of_gt hlt₂⟩
      · rfl
    refine ⟨?_, fun i hi => ?_, fun i hi => ?_, hfound⟩
    · have := hp.size
      omega
    · have := hp.count i (fun hz => hi (hsame i hz))
      rw [hcount i]
      split
      · omega
      · have hpart : [l₁.idx, l₂.idx].count i ≤ 1 := by
          apply count_pair
          rcases hpair with hne | ⟨-, hz⟩
          · exact .inl hne
          · exact .inr (fun heq => hi (hsame i (heq ▸ hz)))
        omega
    · have := hp.zero i (hold i hi)
      have hpart : p < m → [l₁.idx, l₂.idx].count i ≤ 1 := by
        intro hlt
        rcases hpair with hne | ⟨hge, -⟩
        · exact count_pair (.inl hne)
        · omega
      have htwo : [l₁.idx, l₂.idx].count i ≤ 2 := count_le_length
      rw [if_pos hle] at this
      rw [hcount i]
      split <;> split <;> omega

/-- The loop over the bits, from the next output on. -/
theorem addBOp2_run {L₁ L₂ : Link} {q n₀ : ℕ} (ht : t.isRegroupable) (positive : Bool)
    (hlast : ∀ i l₁ l₂, q ≤ i → lhs[i]? = some l₁ → rhs[i]? = some l₂ → l₁ = L₁ ∧ l₂ = L₂) (p : ℕ) :
    ∀ {s : SubnetBuilder} {outs : List EntryID}, Drawn s n outs W → s.Spells m a lhs →
    s.Spells k b rhs →
      outs.length + p ≤ m → outs.length + p ≤ k →
      (∀ ρ i, W ρ i = xor (!positive) (gateFunction t [a ρ i, b ρ i])) →
      (∀ i l₁ l₂, lhs[i]? = some l₁ → rhs[i]? = some l₂ → Distinct s q i l₁ l₂) →
      Paired t q n₀ L₁ L₂ outs.length s →
      ∃ s' outs', (range' outs.length p).foldlM (addBOp2 t positive lhs rhs) s = some s' ∧
        outs'.length = outs.length + p ∧ Drawn s' n outs' W ∧
        Paired t q n₀ L₁ L₂ outs'.length s' := by
  induction p with
  | zero =>
    intro s outs h _ _ _ _ _ _ hp
    exact ⟨s, outs, rfl, rfl, h, hp⟩
  | succ p ih =>
    intro s outs h hlhs hrhs hm hk hW hpair hp
    obtain ⟨s₁, outs₁, hadd, hlen, hle, h₁⟩ :=
      addBOp2_eq ht positive h hlhs hrhs (by omega) (by omega)
      (fun ρ => hW ρ outs.length)
    obtain ⟨l₁, hl₁, hc₁⟩ := hlhs.bits outs.length (by omega)
    obtain ⟨l₂, hl₂, hc₂⟩ := hrhs.bits outs.length (by omega)
    have hv : s.ValidLinks [l₁, l₂] := validLinks_append.mpr ⟨hc₁.1, hc₂.1⟩
    have hp₁ := hp.step ht h hv hl₁ hl₂ (hpair _ _ _ hl₁ hl₂)
      (fun hle => hlast _ _ _ hle hl₁ hl₂) hadd
    obtain ⟨s', outs', hrun, hlen', h', hp'⟩ :=
      ih h₁ (hlhs.mono_le hle) (hrhs.mono_le hle) (by omega) (by omega) hW
      (fun i l₁ l₂ hl₁ hl₂ => (hpair i l₁ l₂ hl₁ hl₂).imp_right (fun hz => ⟨hz.1, hle _ _ hz.2⟩))
      (hlen ▸ hp₁)
    refine ⟨s', outs', ?_, by omega, h', hp'⟩
    rw [range'_succ, foldlM_cons, hadd, ← hlen]
    exact hrun

/-! ### Bitwise operations -/

/-- The counters of the builder and the entries of a subnet suffice for the outputs and for `k`
other cells. -/
def WidthFits (wOut : UInt32) (k : ℕ) : Prop :=
  0 < wOut.toNat ∧ wOut.toNat ≤ maxRefCount ∧ k + wOut.toNat ≤ maxEntries

/-- The network exists and applies `f` to the bits of the extended operands, for all widths that
fit. -/
def Combines (synth : UInt32 → UInt32 → UInt32 → Option Subnet) (signExtend : Bool)
    (f : Bool → Bool → Bool) : Prop :=
  ∀ wIn0 wIn1 wOut : UInt32, 0 < wIn0.toNat → 0 < wIn1.toNat →
    WidthFits wOut (wIn0.toNat + wIn1.toNat + max wIn0.toNat wIn1.toNat + 3) →
    ∃ S, synth wIn0 wIn1 wOut = some S ∧ S.FitsLimits ∧
    S.Implements (wIn0.toNat + wIn1.toNat) wOut.toNat fun x i =>
      f ((operand signExtend x 0 wIn0.toNat wOut.toNat).getLsbD i)
        ((operand signExtend x wIn0.toNat wIn1.toNat wOut.toNat).getLsbD i)

theorem synthBOp2_combines (ht : t.isRegroupable) (signExtend positive : Bool) :
    Combines (fun wIn0 wIn1 wOut => synthBOp2 t wIn0 wIn1 wOut signExtend positive) signExtend
      (fun u v => xor (!positive) (gateFunction t [u, v])) := by
  intro wIn0 wIn1 wOut h0 h1 ⟨hOut, hmax, hentries⟩
  obtain ⟨s₁, s₂, hin0, hin1, hs⟩ := addInputs_two wIn0.toNat wIn1.toNat
  obtain ⟨s₃, lhs, hext, h₃, hstep₃, hlhs⟩ :=
    extend_eq signExtend 0 wOut.toNat (.refl hs.grown) hs h0
    (by omega)
  obtain ⟨s₄, rhs, hext', h₄, hstep₄, hrhs⟩ := extend_eq signExtend wIn0.toNat wOut.toNat h₃ hs h1
    (by omega)
  have hdrawn : Drawn s₄ (wIn0.toNat + wIn1.toNat) [] (fun ρ i => xor (!positive) (gateFunction t
      [extendedFrom signExtend 0 wIn0.toNat ρ i,
        extendedFrom signExtend wIn0.toNat wIn1.toNat ρ i])) :=
    hs.drawn.enlarge h₄
  have hinputs : Enlarged (.range' 0 (wIn0.toNat + wIn1.toNat)) [] s₂ s₂ := .refl hs.grown
  obtain ⟨⟨hsize₃, hcount₃⟩, bit₁, hbits₁⟩ := extend_counts hinputs h0 hext
  obtain ⟨⟨hsize₄, hcount₄⟩, bit₂, hbits₂⟩ := extend_counts h₃ h1 hext'
  have hzero : ∀ i, s₄.refcountAt i = 0 :=
    fun i => (hcount₄ i).trans ((hcount₃ i).trans (hs.refcountAt_eq i))
  have hlast : ∀ i l₁ l₂, max wIn0.toNat wIn1.toNat ≤ i → lhs[i]? = some l₁ → rhs[i]? = some l₂ →
      l₁ = bit₁ ∧ l₂ = bit₂ := by
    intro i l₁ l₂ hle hl₁ hl₂
    have heq₁ := hbits₁ i l₁ hl₁
    have heq₂ := hbits₂ i l₂ hl₂
    rw [if_neg (by omega)] at heq₁ heq₂
    exact ⟨heq₁.1, heq₂.1⟩
  have hstart : Paired t (max wIn0.toNat wIn1.toNat) s₄.size bit₁ bit₂ 0 s₄ :=
    ⟨Nat.le_add_right _ _, fun i _ => Nat.le_of_eq (hzero i),
      fun i _ => by rw [hzero i]; exact Nat.zero_le _, fun hlt => absurd hlt (Nat.not_lt_zero _)⟩
  obtain ⟨s₅, outs, hrun, hlen, hdrawn', hpaired⟩ :=
    addBOp2_run ht positive hlast wOut.toNat hdrawn (hlhs.mono hstep₄)
    hrhs (by simp) (by simp) (fun _ _ => rfl)
    (fun i l₁ l₂ hl₁ hl₂ => (hbits₁.mono hstep₄.le).distinct hbits₂ hdrawn.input h0 hl₁ hl₂) hstart
  rw [length_nil, Nat.zero_add] at hlen
  obtain ⟨S, hS, himp⟩ := hdrawn'.make (by omega) (fun ρ x hx j hj => by
    rw [extendedFrom_eq hx h0 (by omega) (hlen ▸ hj), extendedFrom_eq hx h1 (le_refl _)
      (hlen ▸ hj)])
  rw [hlen] at himp hpaired
  have hfits : S.FitsLimits := by
    have hlimit : maxRefCount = 1048575 := by decide
    have hblock : maxEntries = 2097151 := by decide
    have hsize := hpaired.size
    rw [hs.size] at hsize₃
    refine (hdrawn'.fits_iff hS).mpr ⟨by omega, .of_refcountAt fun i => ?_⟩
    by_cases hz : s₅.netlist i = some ⟨.ZERO, []⟩
    · have hcount := hpaired.zero i hz
      split at hcount <;> omega
    · have hcount := hpaired.count i hz
      omega
  refine ⟨S, ?_, hfits, himp⟩
  rw [length_nil, ← range_eq_range'] at hrun
  unfold synthBOp2
  simp only [hin0, hin1, hext, hext', hrun, hS, bind_eq_bind, bind_some]

def Complements (synth : UInt32 → UInt32 → Option Subnet) (signExtend : Bool) : Prop :=
  ∀ wIn wOut : UInt32, 0 < wIn.toNat → WidthFits wOut (wIn.toNat + 1) → ∃ S, synth wIn wOut =
    some S ∧ S.FitsLimits ∧ S.Implements wIn.toNat wOut.toNat fun x i =>
    !(operand signExtend x 0 wIn.toNat wOut.toNat).getLsbD i

theorem synthBNot_complements (signExtend : Bool) :
    Complements (fun wIn wOut => synthBNot wIn wOut signExtend) signExtend := by
  intro wIn wOut h0 ⟨hOut, hmax, hentries⟩
  obtain ⟨s₁, hin, hs⟩ := HasInputs.init.addInputs wIn.toNat
  rw [Nat.zero_add] at hs
  obtain ⟨s₂, arg, hext, h₂, hstep, harg⟩ :=
    extend_eq signExtend 0 wOut.toNat (.refl hs.grown) hs h0
    (by omega)
  have hbits : s₂.Spells wOut.toNat (fun ρ i => !extendedFrom signExtend 0 wIn.toNat ρ i)
      ((arg.take wOut.toNat).map Link.not) := (harg.take (Nat.le_max_right _ _)).not
  obtain ⟨s₃, S, hadd, hS, himp⟩ :=
    hs.make (f := fun x i => !(operand signExtend x 0 wIn.toNat wOut.toNat).getLsbD i)
    h₂ hbits hOut (fun ρ x hx j hj => by rw [extendedFrom_eq hx h0 (by omega) hj])
  have hdrawn : Drawn s₂ wIn.toNat [] (fun _ _ => false) := hs.drawn.enlarge h₂
  obtain ⟨⟨hsize₂, hcount₂⟩, -⟩ := extend_counts (.refl hs.grown) h0 hext
  obtain ⟨s₄, outs, hadd', hdrawn'⟩ := hdrawn.addOutputs hbits
  obtain rfl := some.inj (hadd.symm.trans hadd')
  obtain ⟨mid, hgrown⟩ := hdrawn.grown
  obtain ⟨hsize, hcount⟩ := hgrown.addOutputs_counts hbits.valid hadd
  have hfits : S.FitsLimits := by
    rw [hbits.length] at hsize
    rw [hs.size] at hsize₂
    refine (hdrawn'.2.2.fits_iff hS).mpr ⟨by omega, .of_refcountAt fun i => ?_⟩
    have hle : (map Link.idx ((arg.take wOut.toNat).map Link.not)).count i ≤ wOut.toNat :=
      count_le_length.trans (Nat.le_of_eq ((length_map _).trans hbits.length))
    rw [hcount i, hcount₂ i, hs.refcountAt_eq i]
    omega
  refine ⟨S, ?_, hfits, himp⟩
  unfold synthBNot
  simp only [hin, hext, hadd, hS, bind_eq_bind, bind_some]

/-- All outputs of the complement of one bit are links to this bit, and its counter has 20 bits. -/
theorem synthBNotS_fits {wOut : UInt32} {S : Subnet} (hS : synthBNotS 1 wOut = some S)
    (hfit : S.FitsLimits) : wOut.toNat ≤ maxRefCount := by
  have hone : (1 : UInt32).toNat = 1 := rfl
  obtain ⟨s₁, hin, hs⟩ := HasInputs.init.addInputs 1
  obtain ⟨s₂, arg, hext, h₂, -, harg⟩ := extend_eq true 0 wOut.toNat (.refl hs.grown) hs Nat.one_pos
    (Nat.le_refl _)
  have hbits := (harg.take (Nat.le_max_right 1 wOut.toNat)).not
  have hdrawn : Drawn s₂ (0 + 1) [] (fun _ _ => false) := hs.drawn.enlarge h₂
  obtain ⟨⟨-, hcount₂⟩, bit, hword⟩ := extend_counts (.refl hs.grown) Nat.one_pos hext
  obtain ⟨s₃, outs, hadd, -, hle, hdrawn'⟩ := hdrawn.addOutputs hbits
  obtain ⟨mid, hgrown⟩ := hdrawn.grown
  obtain ⟨-, hcount⟩ := hgrown.addOutputs_counts hbits.valid hadd
  have hmade : s₃.make = some S := by
    unfold synthBNotS synthBNot at hS
    simp only [hone, hin, hext, hadd, bind_eq_bind, bind_some] at hS
    exact hS
  have hlinks : ((arg.take wOut.toNat).map Link.not).map Link.idx = .replicate wOut.toNat 0 := by
    rw [eq_replicate_iff, length_map, hbits.length]
    refine ⟨rfl, fun j hj => ?_⟩
    obtain ⟨l, hl, rfl⟩ := mem_map.mp hj
    obtain ⟨k, hk, rfl⟩ := mem_map.mp hl
    obtain ⟨i, hi⟩ := mem_iff_getElem?.mp (mem_of_mem_take hk)
    have hidx := hword i k hi
    split at hidx
    · exact hidx.trans (by omega)
    · exact hidx.2
  obtain ⟨c, hc, -⟩ := liveCell_of_netlist (hle 0 _ (hdrawn.input 0 Nat.one_pos))
  have hmax := ((hdrawn'.fits_iff hmade).mp hfit).2 0 c hc
  have hrefcount := hcount 0
  rw [refcountAt_of_getCell (getCell_of_live hc), hcount₂, hs.refcountAt_eq, hlinks,
    count_replicate_self, Nat.zero_add] at hrefcount
  exact hrefcount ▸ hmax

/-! ### Reductions -/

def bits (x : ℕ → Bool) (n : ℕ) : List Bool := (range n).map x

def Reduces (synth : UInt32 → UInt32 → Option Subnet) (f : List Bool → Bool) : Prop :=
  ∀ wIn wOut : UInt32, 0 < wIn.toNat → WidthFits wOut (2 * wIn.toNat + 1) → ∃ S, synth wIn wOut =
    some S ∧ S.FitsLimits ∧ S.Implements wIn.toNat wOut.toNat
    (relation fun x => f (bits x wIn.toNat))

theorem synthROp_reduces (ht : t.isRegroupable) (positive : Bool) :
    Reduces (fun wIn wOut => synthROp t wIn wOut positive)
    (fun us => xor (!positive) (gateFunction t us)) := by
  intro wIn wOut h0 ⟨hOut, hmax, hentries⟩
  obtain ⟨s₁, hin, hs⟩ := HasInputs.init.addInputs wIn.toNat
  rw [Nat.zero_add] at hs
  have harg := hs.spells 0 wIn.toNat (by omega)
  obtain ⟨s₂, res, hadd, h₂, hstep, hres⟩ := Enlarged.addTree (.refl hs.grown) harg.valid ht
  have hvalue : s₂.Computes res fun ρ =>
      gateFunction t ((range wIn.toNat).map fun i => ρ (0 + i) 0) := by
    refine ⟨hres.1, fun lib x ρ hρ => (hres.2 lib x ρ hρ).trans ?_⟩
    simp only [(harg.mono hstep).values hρ]
  have hsigned : s₂.Computes (if positive then res else res.not)
      fun ρ => xor (!positive)
      (gateFunction t ((range wIn.toNat).map fun i => ρ (0 + i) 0)) := by
    cases positive with
    | true => exact hvalue.congr fun ρ => (Bool.false_xor _).symm
    | false => exact hvalue.not.congr fun ρ => (Bool.true_xor _).symm
  obtain ⟨S, hS, himp⟩ := makeRelation_eq (R := fun x => xor (!positive)
    (gateFunction t (bits x wIn.toNat))) hs h₂ hsigned wOut (fun ρ x hx => by
      rw [bits]
      congr 2
      refine map_congr_left fun i hi => ?_
      rw [Nat.zero_add, hx i (mem_range.mp hi)])
  rw [Nat.max_eq_right hOut] at himp
  have hidx : (if positive then res else res.not).idx = res.idx := by
    cases positive <;> rfl
  obtain ⟨hsize, hroot, hcount⟩ := hs.grown.addCellTree_counts ht harg.valid
    (ne_nil_of_length_pos (by rw [inputsFrom_length]; exact h0)) (by
      rw [inputsFrom, map_map]
      exact nodup_map_iff_inj_on nodup_range' |>.mpr (fun i _ j _ hij => hij)) hs.refcountAt_eq hadd
  have hfits : S.FitsLimits := by
    obtain ⟨s₃, outs, z, ⟨W, hdrawn⟩, hmade, hsize₃, hcount₃, -⟩ :=
      makeRelation_counts hs h₂ hsigned.1 hS
    rw [harg.length, hs.size] at hsize
    refine (hdrawn.fits_iff hmade).mpr ⟨by omega, .of_refcountAt fun i => ?_⟩
    have hle := hcount₃ i
    rw [hidx, count_singleton] at hle
    have hone := hcount i
    by_cases hi : res.idx = i
    · rw [← hi, hroot, hi] at hle
      simp only [beq_self_eq_true, if_true] at hle
      split at hle <;> omega
    · simp only [beq_iff_eq, hi, if_false] at hle
      split at hle <;> omega
  refine ⟨S, ?_, hfits, himp⟩
  unfold synthROp
  simp only [inputsFrom] at hin hadd
  simp only [hin, hadd, hS, bind_eq_bind, bind_some]

/-! ### The operations -/

theorem Combines.congr {synth : UInt32 → UInt32 → UInt32 → Option Subnet} {signExtend : Bool}
    {f g : Bool → Bool → Bool} (h : Combines synth signExtend f) (hfg : ∀ u v, f u v = g u v) :
    Combines synth signExtend g := by
  obtain rfl : f = g := funext fun u => funext (hfg u)
  exact h

theorem Reduces.congr {synth : UInt32 → UInt32 → Option Subnet} {f g : List Bool → Bool}
    (h : Reduces synth f) (hfg : ∀ us, f us = g us) : Reduces synth g := by
  obtain rfl : f = g := funext hfg
  exact h

/-- The bitwise operations and the reductions are exact for all widths that fit. -/
theorem bitwise_exact :
    (Complements synthBNotS true ∧ Complements synthBNotU false) ∧
    (Combines synthBAndS true (· && ·) ∧ Combines synthBAndU false (· && ·)) ∧
    (Combines synthBOrS true (· || ·) ∧ Combines synthBOrU false (· || ·)) ∧
    (Combines synthBXorS true xor ∧ Combines synthBXorU false xor) ∧
    (Combines synthBNandS true (fun u v => !(u && v)) ∧
      Combines synthBNandU false (fun u v => !(u && v))) ∧
    (Combines synthBNorS true (fun u v => !(u || v)) ∧
      Combines synthBNorU false (fun u v => !(u || v))) ∧
    (Combines synthBXnorS true (fun u v => !xor u v) ∧
      Combines synthBXnorU false (fun u v => !xor u v)) ∧
    (Reduces synthRAnd (fun us => us.all id) ∧ Reduces synthRNand (fun us => !us.all id)) ∧
    (Reduces synthROr (fun us => us.any id) ∧ Reduces synthRNor (fun us => !us.any id)) ∧
    (Reduces synthRXor (fun us => us.foldr xor false) ∧
      Reduces synthRXnor (fun us => !us.foldr xor false)) := by
  have hgate : ∀ u v, (gateFunction .AND [u, v] = (u && v) ∧ gateFunction .OR [u, v] = (u || v)) ∧
      gateFunction .XOR [u, v] = xor u v := by
    intro u v
    cases u <;> cases v <;> decide
  have hand := fun signExtend positive => synthBOp2_combines (t := .AND) rfl signExtend positive
  have hor := fun signExtend positive => synthBOp2_combines (t := .OR) rfl signExtend positive
  have hxor := fun signExtend positive => synthBOp2_combines (t := .XOR) rfl signExtend positive
  have hrand := fun positive => synthROp_reduces (t := .AND) rfl positive
  have hror := fun positive => synthROp_reduces (t := .OR) rfl positive
  have hrxor := fun positive => synthROp_reduces (t := .XOR) rfl positive
  refine ⟨⟨synthBNot_complements true, synthBNot_complements false⟩, ?_, ?_, ?_, ?_, ?_, ?_,
    ?_, ?_, ?_⟩
  · exact ⟨(hand true true).congr fun u
      v => by simp [hgate], (hand false true).congr fun u v => by simp [hgate]⟩
  · exact ⟨(hor true true).congr fun u
      v => by simp [hgate], (hor false true).congr fun u v => by simp [hgate]⟩
  · exact ⟨(hxor true true).congr fun u
      v => by simp [hgate], (hxor false true).congr fun u v => by simp [hgate]⟩
  · exact ⟨(hand true false).congr fun u
      v => by simp [hgate], (hand false false).congr fun u v => by simp [hgate]⟩
  · exact ⟨(hor true false).congr fun u
      v => by simp [hgate], (hor false false).congr fun u v => by simp [hgate]⟩
  · exact ⟨(hxor true false).congr fun u
      v => by simp [hgate], (hxor false false).congr fun u v => by simp [hgate]⟩
  · exact ⟨(hrand true).congr fun us => Bool.false_xor _,
      (hrand false).congr fun us => Bool.true_xor _⟩
  · exact ⟨(hror true).congr fun us => Bool.false_xor _,
      (hror false).congr fun us => Bool.true_xor _⟩
  · exact ⟨(hrxor true).congr fun us => Bool.false_xor _,
      (hrxor false).congr fun us => Bool.true_xor _⟩

/-- The complement of one bit with `2 ^ 20` outputs does not fit. -/
theorem bitwise_not_exact : ¬ ∀ wIn wOut :
    UInt32, 0 < wIn.toNat → 0 < wOut.toNat → ∃ S, synthBNotS wIn wOut = some S ∧
    S.FitsLimits ∧ S.Implements wIn.toNat wOut.toNat fun x i =>
    !(operand true x 0 wIn.toNat wOut.toNat).getLsbD i := by
  intro h
  obtain ⟨S, hS, hfit, -⟩ := h 1 (2 ^ 20) (by decide) (by decide)
  exact absurd (synthBNotS_fits hS hfit) (by decide)

end UtopiaEda.Synthesizer
