import UtopiaEda.SubnetReplay

/-!
# Subnets with other inputs

The inputs of a subnet get other numbers, links to them may be negated, and inputs that no cell uses
may be left out, so all other cells move forward. The new subnet is well formed if the old one is,
no new cells are equal, and its outputs have the values of the old outputs at the renumbered inputs.
-/
namespace UtopiaEda
open List
open Option (some.inj)

/-- The first `left` of the inputs are kept. The input `i` gets the place `number i` and is negated
if `neg i`; with `out` the outputs are negated. -/
structure Renumbering where
  inputs : ℕ
  left : ℕ
  number : ℕ → ℕ
  neg : ℕ → Bool
  out : Bool

namespace Renumbering

variable (R : Renumbering)

def dropped : ℕ := R.inputs - R.left

def target (l : Link) : Link :=
  if l.idx < R.inputs then { l with idx := R.number l.idx, inv := xor l.inv (R.neg l.idx) }
  else { l with idx := l.idx - R.dropped }

def link (isOut : Bool) (l : Link) : Link :=
  { R.target l with inv := xor (R.target l).inv (isOut && R.out) }

def cell (c : SubnetCell) : SubnetCell := { c with links := c.links.map (R.link c.isOut) }

def entry : Entry → Entry
  | .cell c => .cell (R.cell c)
  | .links ls => .links ls

/-- The values of the inputs that the old inputs had. -/
def arguments (x : EntryID → Bool) : EntryID → Bool := fun i => xor (x (R.number i)) (R.neg i)

@[simp] theorem link_out (isOut : Bool) (l : Link) : (R.link isOut l).out = l.out := by
  change (R.target l).out = l.out
  rw [target]
  split <;> rfl

end Renumbering

def Subnet.renumber (S : Subnet) (R : Renumbering) : Subnet :=
  ⟨R.left, S.nOut, S.nCell, S.nBuf, S.entries.take R.left ++ (S.entries.drop R.inputs).map R.entry⟩

structure Subnet.Fits (S : Subnet) (R : Renumbering) : Prop where
  wellFormed : S.WellFormed
  narrow : S.Narrow
  inputs : R.inputs = S.nIn
  left : R.left ≤ R.inputs
  number_lt : ∀ i < S.nIn, S.Reads i → R.number i < R.left
  number_inj : ∀ i < S.nIn, ∀ j < S.nIn, S.Reads i → S.Reads j → R.number i = R.number j → i = j

namespace Subnet

variable {S : Subnet} {R : Renumbering} {i k : EntryID} {c : SubnetCell} {l : Link}

theorem Fits.size_le (h : S.Fits R) : R.inputs + S.nOut ≤ S.size := h.inputs ▸ h.wellFormed.bounds

theorem Fits.size (h : S.Fits R) : (S.renumber R).size + R.dropped = S.size := by
  have hle := h.size_le
  have hleft := h.left
  have htake : min R.left S.entries.length = R.left :=
    Nat.min_eq_left (Nat.le_trans hleft (Nat.le_trans (Nat.le_add_right _ _) hle))
  have hlen : (S.renumber R).size = R.left + (S.size - R.inputs) := by
    rw [Subnet.size, renumber, length_append, length_take, length_map, length_drop, htake]
    rfl
  rw [hlen, Renumbering.dropped]
  omega

theorem Fits.getCell_input (h : S.Fits R) (hk : k < R.left) :
    (S.renumber R).getCell k = S.getCell k := by
  have hlen : k < (S.entries.take R.left).length := by
    rw [length_take]
    exact Nat.lt_min.mpr ⟨hk, Nat.lt_of_lt_of_le hk
      (Nat.le_trans h.left (Nat.le_trans (Nat.le_add_right _ _) h.size_le))⟩
  have hget : (S.renumber R).entries[k]? = S.entries[k]? := by
    rw [renumber, getElem?_append_left hlen, getElem?_take_of_lt hk]
  rw [getCell, getCell, hget]

theorem Fits.getCell_inner (h : S.Fits R) (hk : R.left ≤ k) :
    (S.renumber R).getCell k = (S.getCell (k + R.dropped)).map R.cell := by
  have hleft := h.left
  have hsize := h.size_le
  have hlen : (S.entries.take R.left).length = R.left := by
    rw [length_take]
    exact Nat.min_eq_left (Nat.le_trans hleft (Nat.le_trans (Nat.le_add_right _ _) hsize))
  have hidx : R.inputs + (k - R.left) = k + R.dropped := by
    have hk : R.left ≤ (k : ℕ) := hk
    rw [Renumbering.dropped]
    omega
  have hget : (S.renumber R).entries[k]? = (S.entries[k + R.dropped]?).map R.entry := by
    rw [renumber, getElem?_append_right (Nat.le_trans (Nat.le_of_eq hlen) hk), hlen, getElem?_map,
      getElem?_drop, hidx]
  rw [getCell, getCell, hget]
  cases S.entries[k + R.dropped]? with
  | none => rfl
  | some e => cases e <;> rfl

theorem Fits.exists_cell (h : S.Fits R) (hk : R.left ≤ k) (hc : (S.renumber R).getCell k = some c) :
    ∃ a, S.getCell (k + R.dropped) = some a ∧ c = R.cell a := by
  rw [h.getCell_inner hk] at hc
  obtain ⟨a, ha, rfl⟩ := Option.map_eq_some_iff.mp hc
  exact ⟨a, ha, rfl⟩

theorem Fits.input (h : S.Fits R) (hk : k < R.left) :
    ∃ c, S.getCell k = some c ∧ (S.renumber R).getCell k = some c ∧
    c.type = .IN ∧ c.links = [] := by
  have hin : k < S.nIn := h.inputs ▸ Nat.lt_of_lt_of_le hk h.left
  obtain ⟨c, hc, ht, hl⟩ := SubnetBuilder.input_of_lt h.wellFormed hin
  exact ⟨c, hc, (h.getCell_input hk).trans hc, ht, hl⟩

theorem Fits.target (h : S.Fits R) (hk : R.left ≤ k) (hc : S.getCell (k + R.dropped) = some c)
    (hl : l ∈ c.links) : (R.target l).idx < k ∧ ∃ a b, S.getCell l.idx = some a ∧
    (S.renumber R).getCell (R.target l).idx = some b ∧
      b.type = a.type ∧ a.type ≠ .OUT := by
  obtain ⟨hlt, a, ha, hat⟩ := h.wellFormed.links _ c hc l hl
  have hleft := h.left
  rw [Renumbering.target]
  by_cases hin : l.idx < R.inputs
  · rw [if_pos hin]
    have hnum : R.number l.idx < R.left := h.number_lt l.idx (h.inputs ▸ hin) ⟨_, c, hc, l, hl, rfl⟩
    obtain ⟨b, -, hb, hbt, -⟩ := h.input hnum
    have hain : a.type = .IN := (h.wellFormed.input l.idx a ha).mpr (h.inputs ▸ hin)
    exact ⟨Nat.lt_of_lt_of_le hnum hk, a, b, ha, hb, hbt.trans hain.symm, hat⟩
  · rw [if_neg hin]
    have hge : R.left + R.dropped ≤ l.idx := by
      rw [Renumbering.dropped, Nat.add_sub_cancel' hleft]
      exact Nat.not_lt.mp hin
    have hback : l.idx - R.dropped + R.dropped = l.idx :=
      Nat.sub_add_cancel (Nat.le_trans (Nat.le_add_left _ _) hge)
    refine ⟨Nat.sub_lt_right_of_lt_add (Nat.le_trans (Nat.le_add_left _ _) hge) hlt, a, R.cell a,
      ha, ?_, rfl, hat⟩
    have hget := h.getCell_inner (k := l.idx - R.dropped) (Nat.le_sub_of_add_le hge)
    rw [hback, ha] at hget
    exact hget

theorem Fits.renumber_wellFormed (h : S.Fits R) : (S.renumber R).WellFormed := by
  have hS := h.wellFormed
  have hleft := h.left
  have hsize := h.size
  have hle := h.size_le
  have hd : R.left + R.dropped = R.inputs := Nat.add_sub_cancel' hleft
  have hnot : ∀ (k : ℕ), R.left ≤ k → ¬ k + R.dropped < S.nIn := by
    intro k hk
    rw [← h.inputs]
    omega
  have houts : ∀ (k : ℕ), S.size - S.nOut ≤ k + R.dropped ↔ (S.renumber R).size - S.nOut ≤ k := by
    intro k
    omega
  refine ⟨fun k c hc => ?_, fun k c hc ht => ?_, fun k c hc => ?_, fun k c hc ht => ?_, ?_,
    fun k hk hlt => ?_, fun k c hc l hl => ?_, fun k c hc l hl c' hc' => ?_, fun k c hc => ?_⟩
  · change c.type = .IN ↔ k < R.left
    by_cases hk : k < R.left
    · obtain ⟨a, -, ha, ht, -⟩ := h.input hk
      obtain rfl := some.inj (hc.symm.trans ha)
      exact ⟨fun _ => hk, fun _ => ht⟩
    · obtain ⟨a, ha, rfl⟩ := h.exists_cell (Nat.not_lt.mp hk) hc
      exact ⟨fun ht => absurd ((hS.input _ a ha).mp ht) (hnot k (Nat.not_lt.mp hk)),
        fun hlt => absurd hlt hk⟩
  · by_cases hk : k < R.left
    · obtain ⟨a, -, ha, -, hl⟩ := h.input hk
      rw [some.inj (hc.symm.trans ha), hl]
    · obtain ⟨a, ha, rfl⟩ := h.exists_cell (Nat.not_lt.mp hk) hc
      exact absurd ((hS.input _ a ha).mp ht) (hnot k (Nat.not_lt.mp hk))
  · change c.type = .OUT ↔ (S.renumber R).size - S.nOut ≤ k
    by_cases hk : k < R.left
    · obtain ⟨a, -, ha, ht, -⟩ := h.input hk
      obtain rfl := some.inj (hc.symm.trans ha)
      rw [ht]
      constructor
      · intro hcon
        cases hcon
      · intro hge
        have hout : R.left ≤ (S.renumber R).size - S.nOut := Nat.le_sub_of_add_le (by omega)
        exact absurd hk (Nat.not_lt.mpr (Nat.le_trans hout hge))
    · obtain ⟨a, ha, rfl⟩ := h.exists_cell (Nat.not_lt.mp hk) hc
      rw [← houts k]
      exact hS.output _ a ha
  · by_cases hk : k < R.left
    · obtain ⟨a, -, ha, hin, -⟩ := h.input hk
      rw [some.inj (hc.symm.trans ha), hin] at ht
      cases ht
    · obtain ⟨a, ha, rfl⟩ := h.exists_cell (Nat.not_lt.mp hk) hc
      rw [Renumbering.cell, length_map]
      exact hS.outLink _ a ha ht
  · change R.left + S.nOut ≤ _
    omega
  · by_cases hin : k < R.left
    · obtain ⟨a, -, ha, -⟩ := h.input hin
      rw [ha]
      rfl
    · have hout : S.size - S.nOut ≤ k + R.dropped := (houts k).mpr (hk.resolve_left hin)
      have hlt' : k + R.dropped < S.size := by
        rw [← hsize]
        exact Nat.add_lt_add_right hlt _
      rw [h.getCell_inner (Nat.not_lt.mp hin), Option.isSome_map]
      exact hS.ends _ (.inr hout) hlt'
  · by_cases hk : k < R.left
    · obtain ⟨a, -, ha, -, hnil⟩ := h.input hk
      rw [some.inj (hc.symm.trans ha), hnil] at hl
      cases hl
    · obtain ⟨a, ha, rfl⟩ := h.exists_cell (Nat.not_lt.mp hk) hc
      obtain ⟨l', hl', rfl⟩ := mem_map.mp hl
      obtain ⟨hlt, b, b', -, hb', hbt, hbo⟩ := h.target (Nat.not_lt.mp hk) ha hl'
      exact ⟨hlt, b', hb', hbt ▸ hbo⟩
  · by_cases hk : k < R.left
    · obtain ⟨a, -, ha, -, hnil⟩ := h.input hk
      rw [some.inj (hc.symm.trans ha), hnil] at hl
      cases hl
    · obtain ⟨a, ha, rfl⟩ := h.exists_cell (Nat.not_lt.mp hk) hc
      obtain ⟨l', hl', rfl⟩ := mem_map.mp hl
      obtain ⟨-, b, b', hb, hb', hbt, -⟩ := h.target (Nat.not_lt.mp hk) ha hl'
      obtain rfl := some.inj (hb'.symm.trans hc')
      rw [R.link_out, hbt]
      exact hS.port _ a ha l' hl' b hb
  · by_cases hk : k < R.left
    · obtain ⟨a, -, ha, ht, -⟩ := h.input hk
      rw [some.inj (hc.symm.trans ha), ht]
      rfl
    · obtain ⟨a, ha, rfl⟩ := h.exists_cell (Nat.not_lt.mp hk) hc
      exact hS.positive _ a ha

theorem Fits.renumber_narrow (h : S.Fits R) : (S.renumber R).Narrow := by
  intro k hk
  by_cases hin : k < R.left
  · obtain ⟨a, -, ha, -, hl⟩ := h.input hin
    refine ⟨a, ha, ?_⟩
    rw [SubnetCell.arity, hl]
    exact Nat.zero_le _
  · have hlt : k + R.dropped < S.size := by
      rw [← h.size]
      exact Nat.add_lt_add_right hk _
    obtain ⟨a, ha, harity⟩ := h.narrow _ hlt
    refine ⟨R.cell a, by rw [h.getCell_inner (Nat.not_lt.mp hin), ha]; rfl, ?_⟩
    rw [SubnetCell.arity, Renumbering.cell, length_map]
    exact harity

variable {lib : CellLibrary} {x : EntryID → Bool} {ρ σ : EntryID → ℕ → Bool}

theorem Fits.value_target (h : S.Fits R) (hc : S.getCell (k + R.dropped) = some c)
    (hl : l ∈ c.links) (hρ : (S.renumber R).netlist.Solves lib x ρ)
    (hσ : S.netlist.Solves lib (R.arguments x) σ) (ih : ∀ j < k, R.left ≤ j →
    ∀ a, S.getCell (j + R.dropped) = some a → a.type ≠ .OUT → ρ j = σ (j + R.dropped)) :
    (R.target l).value ρ = l.value σ := by
  obtain ⟨hlt, a, ha, hat⟩ := h.wellFormed.links _ c hc l hl
  have hleft := h.left
  rw [Renumbering.target]
  by_cases hin : l.idx < R.inputs
  · rw [if_pos hin]
    have hnIn : l.idx < S.nIn := h.inputs ▸ hin
    obtain ⟨b, -, hb, hbt, hbl⟩ := h.input (h.number_lt l.idx hnIn ⟨_, c, hc, l, hl, rfl⟩)
    have hain : a.type = .IN := (h.wellFormed.input l.idx a ha).mpr hnIn
    have hnew : ρ (R.number l.idx) l.out = x (R.number l.idx) := by
      rw [hρ _ ⟨b.type, b.links⟩ (by rw [netlist, hb]; rfl), Netlist.gateValue, if_pos hbt]
    have hold : σ l.idx l.out = xor (x (R.number l.idx)) (R.neg l.idx) := by
      rw [hσ _ ⟨a.type, a.links⟩ (by rw [netlist, ha]; rfl), Netlist.gateValue, if_pos hain,
        Renumbering.arguments]
    rw [Link.value, Link.value, hnew, hold, Bool.xor_assoc, Bool.xor_comm l.inv]
  · rw [if_neg hin]
    have hge : R.left + R.dropped ≤ l.idx := by
      rw [Renumbering.dropped, Nat.add_sub_cancel' hleft]
      exact Nat.not_lt.mp hin
    have hback : l.idx - R.dropped + R.dropped = l.idx :=
      Nat.sub_add_cancel (Nat.le_trans (Nat.le_add_left _ _) hge)
    have hsame := ih (l.idx - R.dropped)
      (Nat.sub_lt_right_of_lt_add (Nat.le_trans (Nat.le_add_left _ _) hge) hlt)
      (Nat.le_sub_of_add_le hge) a (by rw [hback, ha]) hat
    rw [hback] at hsame
    rw [Link.value, Link.value, hsame]

theorem Fits.gateValue_cell (h : S.Fits R) (hk : R.left ≤ k)
    (hc : S.getCell (k + R.dropped) = some c) (hρ : (S.renumber R).netlist.Solves lib x ρ)
    (hσ : S.netlist.Solves lib (R.arguments x) σ)
    (hlinks : ∀ l ∈ c.links, (R.target l).value ρ = l.value σ) (out : ℕ) :
    ρ k out = xor (σ (k + R.dropped) out) (c.isOut && R.out) := by
  have hnew : (S.renumber R).netlist k = some ⟨c.type, c.links.map (R.link c.isOut)⟩ := by
    rw [netlist, h.getCell_inner hk, hc]
    rfl
  have hold : S.netlist (k + R.dropped) = some ⟨c.type, c.links⟩ := by
    rw [netlist, hc]
    rfl
  have hin : c.type ≠ .IN := by
    intro ht
    have hlt := (h.wellFormed.input _ c hc).mp ht
    rw [← h.inputs, ← Nat.add_sub_cancel' h.left] at hlt
    exact absurd (Nat.lt_of_add_lt_add_right hlt) (Nat.not_lt.mpr hk)
  have hvalue : ∀ l ∈ c.links, Link.value ρ (R.link c.isOut l) = xor (l.value σ)
      (c.isOut && R.out) := by
    intro l hl
    rw [← hlinks l hl, Link.value, Link.value, Renumbering.link, Bool.xor_assoc]
  rw [hρ _ _ hnew, hσ _ _ hold, Netlist.gateValue, Netlist.gateValue, if_neg hin,
    if_neg hin, map_map]
  by_cases hout : c.type = .OUT
  · obtain ⟨l, hl⟩ := length_eq_one_iff.mp (h.wellFormed.outLink _ c hc hout)
    rw [hl, map_singleton, map_singleton, Function.comp_apply, hvalue l (by simp [hl]), hout]
    rfl
  · have hfalse : c.isOut = false := by simp [SubnetCell.isOut, hout]
    have hmap : c.links.map (Link.value ρ ∘ R.link c.isOut) = c.links.map (Link.value σ) :=
      map_congr_left (fun l hl => by rw [Function.comp_apply, hvalue l hl, hfalse, Bool.false_and,
        Bool.xor_false])
    rw [hmap, hfalse, Bool.false_and, Bool.xor_false]

theorem Fits.values_eq (h : S.Fits R) (hρ : (S.renumber R).netlist.Solves lib x ρ)
    (hσ : S.netlist.Solves lib (R.arguments x) σ) : ∀ k, R.left ≤ k →
    ∀ c, S.getCell (k + R.dropped) = some c → ∀ out, ρ k out = xor (σ (k + R.dropped) out)
    (c.isOut && R.out) := by
  intro k
  induction k using Nat.strong_induction_on with
  | _ k ih =>
    intro hk c hc out
    apply h.gateValue_cell hk hc hρ hσ
    intro l hl
    apply h.value_target hc hl hρ hσ
    intro j hj hleft a ha hat
    funext out
    rw [ih j hj hleft a ha out, SubnetCell.isOut, decide_eq_false hat, Bool.false_and,
      Bool.xor_false]

theorem Fits.value_output (h : S.Fits R) {j : ℕ} (hj : j < S.nOut) :
    (S.renumber R).value lib x ((S.renumber R).getOutIdx j) 0 =
      (S.value lib (R.arguments x) (S.getOutIdx j) 0).map (xor R.out) := by
  have hsize := h.size
  have hle := h.size_le
  have hd : R.left + R.dropped = R.inputs := Nat.add_sub_cancel' h.left
  obtain ⟨ρ, hρ, hvalues⟩ := h.renumber_wellFormed.exists_values lib x
  obtain ⟨σ, hσ, hvaluesS⟩ := h.wellFormed.exists_values lib (R.arguments x)
  have hidx : (S.renumber R).getOutIdx j + R.dropped = S.getOutIdx j := by
    change (S.renumber R).size - S.nOut + j + R.dropped = S.size - S.nOut + j
    omega
  have hk : R.left ≤ (S.renumber R).getOutIdx j := by
    change R.left ≤ (S.renumber R).size - S.nOut + j
    omega
  have hlt : S.size - S.nOut + j < S.size := by omega
  obtain ⟨c, hc⟩ := Option.isSome_iff_exists.mp (h.wellFormed.ends (S.getOutIdx j)
    (.inr (Nat.le_add_right _ _)) hlt)
  have hout : c.type = .OUT := (h.wellFormed.output _ c hc).mpr (Nat.le_add_right _ _)
  have hcell : (S.renumber R).getCell ((S.renumber R).getOutIdx j) = some (R.cell c) := by
    rw [h.getCell_inner hk, hidx, hc]
    rfl
  have hvalue := h.values_eq hρ hσ _ hk c (by rw [hidx, hc]) 0
  rw [hvalues _ _ hcell, hvaluesS _ c hc, hvalue, hidx, SubnetCell.isOut, decide_eq_true hout,
    Bool.true_and, Bool.xor_comm]
  rfl

/-- Links to different places lead to different places. -/
theorem Fits.target_injOn (h : S.Fits R) :
    Set.InjOn R.target {l | ∃ k c, S.getCell k = some c ∧ l ∈ c.links} := by
  rintro l ⟨k, c, hc, hl⟩ l' ⟨k', c', hc', hl'⟩ heq
  have hreads : S.Reads l.idx := ⟨k, c, hc, l, hl, rfl⟩
  have hreads' : S.Reads l'.idx := ⟨k', c', hc', l', hl', rfl⟩
  have hleft := h.left
  have hinputs := h.inputs
  have hnum := h.number_lt l.idx
  have hnum' := h.number_lt l'.idx
  rw [Renumbering.target, Renumbering.target] at heq
  obtain ⟨idx, out, inv⟩ := l
  obtain ⟨idx', out', inv'⟩ := l'
  by_cases hin : idx < R.inputs <;> by_cases hin' : idx' < R.inputs
  · rw [if_pos hin, if_pos hin'] at heq
    obtain ⟨hidx, hout, hinv⟩ := Link.mk.inj heq
    obtain rfl := h.number_inj idx (hinputs ▸ hin) idx' (hinputs ▸ hin') hreads hreads' hidx
    rw [Link.mk.injEq]
    exact ⟨rfl, hout, Bool.xor_left_inj.mp hinv⟩
  · rw [if_pos hin, if_neg hin'] at heq
    have hidx : R.number idx = idx' - R.dropped := congrArg Link.idx heq
    have hlt : R.number idx < R.left := hnum (hinputs ▸ hin) hreads
    rw [hidx, Renumbering.dropped] at hlt
    have hle : R.left ≤ idx' - (R.inputs - R.left) :=
      Nat.le_sub_of_add_le (by rw [Nat.add_sub_cancel' hleft]; exact Nat.not_lt.mp hin')
    exact absurd hlt (Nat.not_lt.mpr hle)
  · rw [if_neg hin, if_pos hin'] at heq
    have hidx : idx - R.dropped = R.number idx' := congrArg Link.idx heq
    have hlt : R.number idx' < R.left := hnum' (hinputs ▸ hin') hreads'
    rw [← hidx, Renumbering.dropped] at hlt
    have hle : R.left ≤ idx - (R.inputs - R.left) :=
      Nat.le_sub_of_add_le (by rw [Nat.add_sub_cancel' hleft]; exact Nat.not_lt.mp hin)
    exact absurd hlt (Nat.not_lt.mpr hle)
  · rw [if_neg hin, if_neg hin'] at heq
    obtain ⟨hidx, hout, hinv⟩ := Link.mk.inj heq
    have hge : R.dropped ≤ idx := Nat.le_trans (Nat.sub_le _ _) (Nat.not_lt.mp hin)
    have hge' : R.dropped ≤ idx' := Nat.le_trans (Nat.sub_le _ _) (Nat.not_lt.mp hin')
    have hsame : idx = idx' := by
      rw [← Nat.sub_add_cancel hge, hidx, Nat.sub_add_cancel hge']
    rw [Link.mk.injEq]
    exact ⟨hsame, hout, hinv⟩

theorem Fits.repeated (h : S.Fits R) (hk : (S.renumber R).Repeated k) :
    R.left ≤ k ∧ S.Repeated (k + R.dropped) := by
  obtain ⟨c, hc, hen, e, he, c', hc', hen', hkey⟩ := hk
  have hinner : ∀ {i : EntryID} {a : SubnetCell}, (S.renumber R).getCell i = some a → a.isEnabled →
      R.left ≤ i := by
    intro i a ha hen
    by_contra hlt
    obtain ⟨b, -, hb, ht, -⟩ := h.input (Nat.not_le.mp hlt)
    rw [some.inj (ha.symm.trans hb), SubnetCell.isEnabled, SubnetCell.isIn, ht] at hen
    cases hen
  have hcell : ∀ {a : SubnetCell}, (R.cell a).isEnabled → a.isEnabled ∧ a.isOut = false ∧
      a.arity ≤ InPlaceLinks := by
    intro a hen
    have harity : (R.cell a).arity = a.arity := length_map ..
    simp only [SubnetCell.isEnabled, harity, Bool.and_eq_true, Bool.not_eq_true',
      decide_eq_true_eq] at hen ⊢
    exact ⟨hen, hen.1.2, hen.2⟩
  have hleft := hinner hc hen
  obtain ⟨a, ha, rfl⟩ := h.exists_cell hleft hc
  obtain ⟨a', ha', rfl⟩ := h.exists_cell (hinner hc' hen') hc'
  obtain ⟨hen, hout, harity⟩ := hcell hen
  obtain ⟨hen', hout', harity'⟩ := hcell hen'
  have hlink : R.link false = R.target := by
    funext l
    rw [Renumbering.link, Bool.false_and, Bool.xor_false]
  have hkeys : ∀ {b : SubnetCell}, b.isOut = false → b.arity ≤ InPlaceLinks →
      (R.cell b).key = StrashKey.make b.type (b.links.map R.target) := by
    intro b hb hb'
    rw [key_of_narrow (show (R.cell b).arity ≤ _ from (length_map ..).trans_le hb'),
      Renumbering.cell, hb, hlink]
  rw [hkeys hout harity, hkeys hout' harity'] at hkey
  refine ⟨hleft, a, ha, hen, e + R.dropped, Nat.add_lt_add_right he _, a', ha', hen', ?_⟩
  rw [key_of_narrow harity, key_of_narrow harity']
  have : Nonempty Link := ⟨⟨0, 0, false⟩⟩
  refine StrashKey.make_of_map (g := Function.invFunOn R.target {l | ∃ k c, S.getCell k = some c ∧
    l ∈ c.links}) (fun l hl => h.target_injOn.leftInvOn_invFunOn ?_) hkey
  rcases mem_append.mp hl with hl | hl
  · exact ⟨_, a', ha', hl⟩
  · exact ⟨_, a, ha, hl⟩

/-- The cells of the renumbered subnet can be added again. -/
theorem Fits.renumber_replayable (h : S.Fits R) (hr : S.Replayable) :
    (S.renumber R).Replayable := by
  refine ⟨h.renumber_narrow, fun k hk i c hc l hl => ?_⟩
  obtain ⟨hleft, hrep⟩ := h.repeated hk
  by_cases hi : i < R.left
  · obtain ⟨a, -, ha, -, hnil⟩ := h.input hi
    rw [some.inj (hc.symm.trans ha), hnil] at hl
    cases hl
  · obtain ⟨a, ha, rfl⟩ := h.exists_cell (Nat.not_lt.mp hi) hc
    obtain ⟨l', hl', rfl⟩ := mem_map.mp hl
    have hlt := hr.before _ hrep _ a ha l' hl'
    change (R.target l').idx < k
    rw [Renumbering.target]
    by_cases hin : l'.idx < R.inputs
    · rw [if_pos hin]
      exact Nat.lt_of_lt_of_le (h.number_lt _ (h.inputs ▸ hin) ⟨_, a, ha, l', hl', rfl⟩) hleft
    · rw [if_neg hin]
      exact Nat.sub_lt_right_of_lt_add (Nat.le_trans (Nat.sub_le _ _) (Nat.not_lt.mp hin)) hlt

/-- Inputs that cells use have the numbers of inputs that cells used. -/
theorem Fits.exists_reads (h : S.Fits R) (hk : k < R.left) (hreads : (S.renumber R).Reads k) :
    ∃ i < S.nIn, S.Reads i ∧ R.number i = k := by
  obtain ⟨j, c, hc, l, hl, rfl⟩ := hreads
  by_cases hj : j < R.left
  · obtain ⟨a, -, ha, -, hnil⟩ := h.input hj
    rw [some.inj (hc.symm.trans ha), hnil] at hl
    cases hl
  · obtain ⟨a, ha, rfl⟩ := h.exists_cell (Nat.not_lt.mp hj) hc
    obtain ⟨l', hl', rfl⟩ := mem_map.mp hl
    change (R.target l').idx < R.left at hk
    change ∃ i < S.nIn, S.Reads i ∧ R.number i = (R.target l').idx
    rw [Renumbering.target] at hk ⊢
    by_cases hin : l'.idx < R.inputs
    · rw [if_pos hin] at hk ⊢
      exact ⟨l'.idx, h.inputs ▸ hin, ⟨_, a, ha, l', hl', rfl⟩, rfl⟩
    · rw [if_neg hin] at hk
      have hle : R.left ≤ l'.idx - R.dropped :=
        Nat.le_sub_of_add_le (by rw [Renumbering.dropped,
          Nat.add_sub_cancel' h.left]; exact Nat.not_lt.mp hin)
      exact absurd hk (Nat.not_lt.mpr hle)

end Subnet

end UtopiaEda
