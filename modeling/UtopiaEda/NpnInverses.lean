import UtopiaEda.NpnDatabaseContents

/-!
# Transformations of subnets and their inverses

The subnet that `npnTransform` returns has the transformed function, and the inverse transformation
leads back. The mask of the negations is cut down to 16 bits: the negations that are lost have to
make no difference to the function.
-/
namespace UtopiaEda

variable {n m : ℕ} {lib : CellLibrary} {S T : Subnet} {t : NpnTransformation}
  {τ : Npn.Transformation (Fin n)} {f f' : (Fin n → Bool) → Bool}

namespace Npn.Transformation

/-- The negations that a mask of 16 bits does not hold. -/
def lost (τ : Transformation (Fin n)) : Transformation (Fin n) :=
  ⟨Equiv.refl (Fin n), fun i => decide (16 ≤ (i : ℕ)) && τ.neg i, decide (16 ≤ n) && τ.out⟩

private theorem xor_split (k : ℕ) (b : Bool) :
    xor (decide (k < 16) && b) (decide (16 ≤ k) && b) = b := by
  rcases Nat.lt_or_ge k 16 with hlt | hge
  · rw [decide_eq_true hlt, decide_eq_false (Nat.not_le.mpr hlt), Bool.true_and, Bool.false_and,
      Bool.xor_false]
  · rw [decide_eq_false (Nat.not_lt.mpr hge), decide_eq_true hge, Bool.true_and, Bool.false_and,
      Bool.false_xor]

theorem apply_lost : τ.held.apply (τ.lost.apply f) = τ.apply f := by
  funext x
  have hx : τ.lost.arguments (τ.held.arguments x) = τ.arguments x := by
    funext i
    change xor (xor (x (τ.perm.symm i)) (decide ((i : ℕ) < 16) && τ.neg i))
      (decide (16 ≤ (i : ℕ)) && τ.neg i) = _
    rw [Bool.xor_assoc, xor_split]
    rfl
  change xor (decide (n < 16) && τ.out)
    (xor (decide (16 ≤ n) && τ.out) (f (τ.lost.arguments (τ.held.arguments x)))) = _
  rw [hx, ← Bool.xor_assoc, xor_split]
  rfl

theorem apply_injective (h : τ.apply f = τ.apply f') : f = f' := by
  rw [← apply_symm (t := τ) (f := f), h, apply_symm]

/-- What is held has the same effect exactly if what is lost has none. -/
theorem held_apply_iff : τ.held.apply f = τ.apply f ↔ τ.lost.apply f = f := by
  constructor
  · intro h
    exact (apply_injective (h.trans apply_lost.symm)).symm
  · intro h
    exact (congrArg τ.held.apply h).symm.trans apply_lost

theorem lost_apply_of_lt (hn : n < 16) : τ.lost.apply f = f := by
  rw [← held_apply_iff, held_of_lt hn]

end Npn.Transformation

theorem Subnet.WellFormed.value_function (hS : S.WellFormed) (hin : S.nIn = n) (hout : 0 < S.nOut)
    (x : EntryID → Bool) : S.value lib x (S.getOutIdx 0) 0 =
    some (S.function lib n (fun i => x i)) := by
  have hsame : S.value lib x (S.getOutIdx 0) 0 = S.value lib (assignment (fun i : Fin n => x i))
      (S.getOutIdx 0) 0 := by
    apply Netlist.eval_congr_inputs
    intro i g hg ht
    obtain ⟨c, hc, rfl⟩ := Option.map_eq_some_iff.mp hg
    rw [assignment, dif_pos (hin ▸ (hS.input i c hc).mp ht)]
  obtain ⟨ρ, -, hvalue⟩ := hS.exists_values lib (assignment (fun i : Fin n => x i))
  have hle := hS.bounds
  have hlt : S.size - S.nOut + 0 < S.size := by omega
  obtain ⟨c, hc⟩ := Option.isSome_iff_exists.mp (hS.ends (S.getOutIdx 0)
    (.inr (Nat.le_add_right _ 0)) hlt)
  rw [hsame, Subnet.function, hvalue _ c hc 0, Option.getD_some]

namespace NpnTransformation

theorem function_of_transformedAs (hS : S.WellFormed) (hin : S.nIn = n) (hout : 0 < S.nOut)
    (h : S.TransformedAs T τ n) : T.function lib n = τ.apply (S.function lib n) := by
  funext x
  have harguments : (fun i : Fin n => (τ.renumbering n).arguments (assignment x) i) =
      τ.arguments x := by
    funext i
    change xor (assignment x (if h : (i : ℕ) < n then _ else _)) (if h : (i : ℕ) < n then
      _ else _) = _
    rw [dif_pos i.isLt, dif_pos i.isLt, assignment, dif_pos (Fin.isLt _)]
    rfl
  rw [Subnet.function, h.values lib _ 0 hout, hS.value_function hin hout, harguments]
  rfl

/-- `npnTransform` returns a subnet with the transformed function, and the inverse transformation of
that one returns a subnet with the original function. -/
def Inverts (lib : CellLibrary) (t : NpnTransformation) (τ : Npn.Transformation (Fin n))
    (S : Subnet) : Prop :=
  ∃ T t' U, npnTransform S t = some T ∧ t.inverse = some t' ∧ npnTransform T t' = some U ∧
    (T.WellFormed ∧ T.nIn = n ∧ T.nOut = 1 ∧ T.function lib n = τ.apply (S.function lib n)) ∧
    (U.WellFormed ∧ U.nIn = n ∧ U.nOut = 1 ∧ U.function lib n = S.function lib n)

/-- The copies with the negations that the masks hold. -/
theorem exists_copies (hS : S.WellFormed) (hr : S.Replayable) (hin : S.nIn = n) (hout : S.nOut = 1)
    (ht : t.Represents τ) (hpos : 0 < n) (hn : n < 32) : ∃ T t' U, npnTransform S t = some T ∧
    t.inverse = some t' ∧ npnTransform T t' = some U ∧
      S.TransformedAs T τ.held n ∧ T.TransformedAs U τ.symm.held n := by
  have hlt : n < 256 := Nat.lt_trans hn (by decide)
  have hdrops : ∀ (S : Subnet) (τ : Npn.Transformation (Fin n)), S.Drops τ n := by
    intro S τ j hj
    exact absurd j.isLt (Nat.not_lt.mpr hj)
  obtain ⟨t', ht', hinv⟩ := ht.inverse hn
  obtain ⟨T, hT, htrans⟩ := exists_npnTransform_held (u := 255)
    (m := n) hS hr hin (hout ▸ Nat.one_pos) ht hpos hlt (Nat.min_eq_left (Nat.le_of_lt_succ hlt))
    (hdrops S τ)
  have hTout : T.nOut = 1 := htrans.nOut.trans hout
  obtain ⟨U, hU, hback⟩ := exists_npnTransform_held (u := 255)
    (m := n) htrans.wellFormed htrans.replayable htrans.nIn (hTout ▸ Nat.one_pos) hinv hpos hlt
    (Nat.min_eq_left (Nat.le_of_lt_succ hlt)) (hdrops T τ.symm)
  exact ⟨T, t', U, hT, ht', hU, htrans, hback⟩

/-- If links lead to cells before repeated ones, the transformation and its inverse are right
exactly for subnets with inputs and without cells of several entries whose functions do not change
with the negations that the masks do not hold. -/
theorem inverts_iff (hS : S.WellFormed) (hin : S.nIn = n) (hout : S.nOut = 1) (ht : t.Represents τ)
    (hn : n < 32) (hbefore : NpnDatabase.ReadsBeforeRepeated S) : Inverts lib t τ S ↔
      0 < n ∧ S.Narrow ∧ τ.lost.apply (S.function lib n) = S.function lib n ∧
        τ.symm.lost.apply (τ.apply (S.function lib n)) = τ.apply (S.function lib n) := by
  have hcopies : ∀ {T U}, S.TransformedAs T τ.held n → T.TransformedAs U τ.symm.held n →
      T.function lib n = τ.held.apply (S.function lib n) ∧ U.function lib n =
      τ.symm.held.apply (T.function lib n) := by
    intro T U hT hU
    have hTout : T.nOut = 1 := hT.nOut.trans hout
    exact ⟨function_of_transformedAs hS hin (hout ▸ Nat.one_pos) hT,
      function_of_transformedAs hT.wellFormed hT.nIn (hTout ▸ Nat.one_pos) hU⟩
  constructor
  · rintro ⟨T, t', U, hT, ht', hU, ⟨-, -, -, hTf⟩, -, -, -, hUf⟩
    obtain ⟨hpos, hnarrow⟩ := narrow_of_npnTransform hS hT
    rw [ht.length] at hpos
    obtain ⟨T', r, U', hT', hr, hU', htrans, hback⟩ :=
      exists_copies hS ⟨hnarrow, hbefore⟩ hin hout ht hpos hn
    obtain rfl := Option.some.inj (hT.symm.trans hT')
    obtain rfl := Option.some.inj (ht'.symm.trans hr)
    obtain rfl := Option.some.inj (hU.symm.trans hU')
    obtain ⟨hheld, hheld'⟩ := hcopies htrans hback
    refine ⟨hpos, hnarrow, ?_, ?_⟩
    · rw [← Npn.Transformation.held_apply_iff, ← hheld, hTf]
    · rw [← Npn.Transformation.held_apply_iff, ← hTf, ← hheld', hUf, hTf,
        Npn.Transformation.apply_symm]
  · rintro ⟨hpos, hnarrow, hlost, hlost'⟩
    obtain ⟨T, t', U, hT, ht', hU, htrans, hback⟩ :=
      exists_copies hS ⟨hnarrow, hbefore⟩ hin hout ht hpos hn
    obtain ⟨hheld, hheld'⟩ := hcopies htrans hback
    have hTf : T.function lib n = τ.apply (S.function lib n) :=
      hheld.trans (Npn.Transformation.held_apply_iff.mpr hlost)
    have hTout : T.nOut = 1 := htrans.nOut.trans hout
    refine ⟨T, t', U, hT, ht', hU, ⟨htrans.wellFormed, htrans.nIn, hTout, hTf⟩, hback.wellFormed,
      hback.nIn, hback.nOut.trans hTout, ?_⟩
    rw [hheld', hTf, Npn.Transformation.held_apply_iff.mpr hlost', Npn.Transformation.apply_symm]

/-- The inputs of a conjunction change places, and the first of them and the output are negated. -/
theorem inverts_smallAnd : Inverts .empty ⟨5#32, [1, 0]⟩
    ⟨Equiv.swap (0 : Fin 2) 1, fun i => decide (i = 0), true⟩ SubnetSerializer.smallAnd := by
  have hr := SubnetSerializer.smallAnd_replayable
  refine (inverts_iff (Subnet.wellFormed_of_check (by decide)) rfl rfl
    ⟨by decide, by decide, by decide⟩ (by decide) hr.before).mpr ⟨by decide, hr.narrow, ?_, ?_⟩
  · exact Npn.Transformation.lost_apply_of_lt (by decide)
  · exact Npn.Transformation.lost_apply_of_lt (by decide)

/-- The conjunction of four inputs in one cell is not copied by the transformation that changes
nothing. -/
theorem not_inverts_wideAnd : SubnetSerializer.makeAnd 4 = some SubnetSerializer.wideAnd ∧
    SubnetSerializer.wideAnd.WellFormed ∧ SubnetSerializer.wideAnd.nIn = 4 ∧
    SubnetSerializer.wideAnd.nOut = 1 ∧ NpnTransformation.Represents ⟨0#32, [0, 1, 2, 3]⟩
    (.refl : Npn.Transformation (Fin 4)) ∧ ¬ Inverts .empty ⟨0#32, [0, 1, 2, 3]⟩
    (.refl : Npn.Transformation (Fin 4)) SubnetSerializer.wideAnd := by
  have hwf : SubnetSerializer.wideAnd.WellFormed := Subnet.wellFormed_of_check (by decide)
  refine ⟨by decide, hwf, rfl, rfl, ⟨rfl, fun i => BitVec.getLsbD_zero, rfl⟩, ?_⟩
  rintro ⟨T, -, -, hT, -⟩
  obtain ⟨c, hc, harity⟩ := (narrow_of_npnTransform hwf hT).2 4 (by decide)
  cases hc
  exact absurd harity (by decide)

end NpnTransformation

end UtopiaEda
