import UtopiaEda.SubnetUnmapper
import UtopiaEda.Translations
import Mathlib.Algebra.GroupWithZero.Nat

/-!
# The size of expanded cells

A cell of an implementation stands where the cells before it end. A link of the implementation still
leads to the right entry after the expansion of the cells if the output it refers to is put
at the distance from the first cell that it has in the implementation.
-/
namespace UtopiaEda
open List

/-- Number of entries of the cells behind the inputs and before `i` if a cell takes `span`
entries. -/
def Subnet.spanBefore (span : SubnetCell → ℕ) (S : Subnet) (i : EntryID) : ℕ :=
  ((List.range' S.nIn (i - S.nIn)).map (fun j => ((S.getCell j).map span).getD 0)).sum

/-- Number of entries of a cell after the expansion; `d` bounds the nesting. -/
def cellSpan (types : List SubnetType) : ℕ → SubnetCell → ℕ
  | 0, c => c.more + 1
  | d + 1, c =>
    match c.type with
    | .soft sid => ((types[sid]?).map fun T =>
        T.subnet.spanBefore (cellSpan types d) (T.subnet.size - T.subnet.nOut)).getD (c.more + 1)
    | _ => c.more + 1

/-- The distance of the entry with the value of an output from the first entry of the expanded cell;
none if the output is passed on from an input, inverted or another port. -/
def outputOffset (types : List SubnetType) (c : SubnetCell) (out : ℕ) : Option ℕ :=
  match c.type with
  | .soft sid => do
    let T ← types[sid]?
    let l ← T.subnet.getOut out
    if T.subnet.nIn ≤ l.idx ∧ l.out = out ∧ l.inv = false then some (l.idx - T.subnet.nIn) else none
  | _ => some 0

structure Subnet.Aligned (types : List SubnetType) (S : Subnet) : Prop where
  links : ∀ i c, S.getCell i = some c → ∀ l ∈ c.links, S.nIn ≤ l.idx →
    ∀ c', S.getCell l.idx = some c' →
    (outputOffset types c' l.out).map (S.spanBefore (cellSpan types types.length) l.idx + ·) =
      some (l.idx - S.nIn)
  outputs : ∀ i c, S.getCell i = some c → 0 < c.outputs types

namespace SubnetType

/-- The implementation of the type `sid` has a cell of the type `sid'`. -/
def Uses (types : List SubnetType) (sid sid' : ℕ) : Prop :=
  ∃ T i c, types[sid]? = some T ∧ T.subnet.getCell i = some c ∧ c.type = .soft sid'

def AlignedWithin (types : List SubnetType) (sid : ℕ) : Prop :=
  ∀ sid' T, Relation.ReflTransGen (Uses types) sid sid' → types[sid']? = some T →
    T.subnet.Aligned types

end SubnetType

variable {types : List SubnetType} {S : Subnet} {i j : EntryID} {c c' : SubnetCell} {sid : ℕ}
  {span span' : SubnetCell → ℕ}

theorem Subnet.spanBefore_congr {n : ℕ} (h : ∀ i c, S.getCell i = some c → span c = span' c) :
    S.spanBefore span n = S.spanBefore span' n := by
  unfold Subnet.spanBefore
  congr 1
  apply map_congr_left
  intro j _
  cases hc : S.getCell j with
  | none => rfl
  | some c => rw [Option.map_some, Option.map_some, h j c hc]

theorem Subnet.Arranged.spanBefore_next (hS : S.Arranged) (hc : S.getCell i = some c)
    (hi : S.nIn ≤ i) : S.spanBefore span (i + c.more + 1) = S.spanBefore span i + span c := by
  obtain ⟨k, rfl⟩ := Nat.exists_eq_add_of_le hi
  have hnone : ∀ j ∈ List.range' (S.nIn + k + 1) c.more, ((S.getCell j).map span).getD 0 = 0 := by
    intro j hj
    obtain ⟨h₁, h₂⟩ := List.mem_range'_1.mp hj
    rw [Nat.add_right_comm] at h₂
    rw [hS.skipped _ c hc j h₁ (Nat.le_of_lt_succ h₂)]
    rfl
  have hlen : S.nIn + k + c.more + 1 - S.nIn = k + (c.more + 1) := by omega
  rw [Subnet.spanBefore, Subnet.spanBefore, hlen, Nat.add_sub_cancel_left, ← range'_append_1,
    range'_succ, map_append, map_cons, sum_append, sum_cons, hc,
    map_congr_left hnone]
  simp

/-- Nesting deeper than the numbers of the types makes no difference. -/
theorem cellSpan_stable (ht : SubnetType.Consistent types) : ∀ {d d' : ℕ} {c : SubnetCell},
    (∀ sid, c.type = .soft sid → sid < d ∧ sid < d') → cellSpan types d c =
    cellSpan types d' c := by
  intro d
  induction d with
  | zero =>
    intro d' c h
    cases d' with
    | zero => rfl
    | succ d' =>
      rw [cellSpan, cellSpan]
      split
      · rename_i sid hsid
        exact absurd (h sid hsid).1 (Nat.not_lt_zero sid)
      · rfl
  | succ d ih =>
    intro d' c h
    cases d' with
    | zero =>
      rw [cellSpan, cellSpan]
      split
      · rename_i sid hsid
        exact absurd (h sid hsid).2 (Nat.not_lt_zero sid)
      · rfl
    | succ d' =>
      rw [cellSpan, cellSpan]
      split
      · rename_i sid hsid
        cases hT : types[sid]? with
        | none => rfl
        | some T =>
          obtain ⟨hd, hd'⟩ := h sid hsid
          rw [Option.map_some, Option.map_some, Option.getD_some, Option.getD_some]
          apply Subnet.spanBefore_congr
          intro i a ha
          apply ih
          intro sid' hsid'
          have hlt := ((ht sid T hT).2.2.soft i a sid' ha hsid').1
          exact ⟨Nat.lt_of_lt_of_le hlt (Nat.le_of_lt_succ hd),
            Nat.lt_of_lt_of_le hlt (Nat.le_of_lt_succ hd')⟩
      · rfl

theorem cellSpan_congr (ht : c.type = c'.type) (hl : c.arity = c'.arity) : ∀ d : ℕ,
    cellSpan types d c = cellSpan types d c' := by
  have hmore : c.more = c'.more := by rw [SubnetCell.more, SubnetCell.more, hl]
  intro d
  cases d with
  | zero => rw [cellSpan, cellSpan, hmore]
  | succ d => rw [cellSpan, cellSpan, ht, hmore]

theorem outputOffset_congr (ht : c.type = c'.type) (out : ℕ) :
    outputOffset types c out = outputOffset types c' out := by
  rw [outputOffset, outputOffset, ht]

end UtopiaEda
