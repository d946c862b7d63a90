import Mathlib.Logic.Equiv.Basic
import Mathlib.Logic.Function.Basic

/-!
# Negations and permutations of the arguments of Boolean functions

A transformation permutes and negates the arguments of a function and may negate its value.
Functions that can be transformed into each other are equivalent; transformations move the arguments
that a function depends on along.
-/
namespace UtopiaEda.Npn

variable {ι : Type}

/-- The argument `i` of the function is the argument `perm.symm i` of the transformed one. -/
structure Transformation (ι : Type) where
  perm : Equiv.Perm ι
  neg : ι → Bool
  out : Bool

namespace Transformation

variable {t t' : Transformation ι} {f g : (ι → Bool) → Bool}

def arguments (t : Transformation ι) (x : ι → Bool) : ι → Bool :=
  fun i => xor (x (t.perm.symm i)) (t.neg i)

def apply (t : Transformation ι) (f : (ι → Bool) → Bool) (x : ι → Bool) : Bool :=
  xor t.out (f (t.arguments x))

def refl : Transformation ι := ⟨Equiv.refl ι, fun _ => false, false⟩

def symm (t : Transformation ι) : Transformation ι :=
  ⟨t.perm.symm, fun i => t.neg (t.perm i), t.out⟩

def trans (t t' : Transformation ι) : Transformation ι :=
  ⟨t'.perm.trans t.perm, fun i => xor (t'.neg (t.perm.symm i)) (t.neg i), xor t'.out t.out⟩

@[simp] theorem apply_refl : refl.apply f = f := by
  funext x
  have hx : refl.arguments x = x := by
    funext i
    exact Bool.xor_false _
  rw [apply, hx]
  exact Bool.false_xor _

theorem arguments_symm (x : ι → Bool) : t.arguments (t.symm.arguments x) = x := by
  funext i
  change xor (xor (x (t.perm (t.perm.symm i))) (t.neg (t.perm (t.perm.symm i)))) (t.neg i) = x i
  rw [Equiv.apply_symm_apply, Bool.xor_assoc, Bool.xor_self, Bool.xor_false]

@[simp] theorem apply_symm : t.symm.apply (t.apply f) = f := by
  funext x
  rw [apply, apply, arguments_symm]
  change xor t.out (xor t.out (f x)) = f x
  rw [← Bool.xor_assoc, Bool.xor_self, Bool.false_xor]

theorem apply_trans : (t.trans t').apply f = t'.apply (t.apply f) := by
  funext x
  have hx : (t.trans t').arguments x = t.arguments (t'.arguments x) := by
    funext i
    change xor (x (t'.perm.symm (t.perm.symm i))) (xor (t'.neg (t.perm.symm i)) (t.neg i)) = _
    exact (Bool.xor_assoc _ _ _).symm
  rw [apply, apply, apply, hx]
  exact Bool.xor_assoc _ _ _

end Transformation

/-- Some transformation takes the first function to the second one. -/
def Equivalent (f g : (ι → Bool) → Bool) : Prop := ∃ t : Transformation ι, t.apply f = g

theorem equivalent_equivalence : Equivalence (@Equivalent ι) := by
  refine ⟨fun f => ⟨.refl, Transformation.apply_refl⟩, ?_, ?_⟩
  · rintro f _ ⟨t, rfl⟩
    exact ⟨t.symm, Transformation.apply_symm⟩
  · rintro f _ _ ⟨t, rfl⟩ ⟨t', rfl⟩
    exact ⟨t.trans t', Transformation.apply_trans⟩

/-- The value of the function changes with the argument `i` for some values of the others. -/
def DependsOn (f : (ι → Bool) → Bool) (i : ι) : Prop := ∃ x y, (∀ j, j ≠ i → x j = y j) ∧ f x ≠ f y

variable {f : (ι → Bool) → Bool} {x y : ι → Bool} {i : ι}

private theorem dependsOn_of_apply {t : Transformation ι} (h : DependsOn (t.apply f) i) :
    DependsOn f (t.perm i) := by
  obtain ⟨x, y, hxy, hne⟩ := h
  refine ⟨t.arguments x, t.arguments y, fun j hj => ?_, fun heq => hne ?_⟩
  · have hne : t.perm.symm j ≠ i := by
      rintro rfl
      exact hj (t.perm.apply_symm_apply j).symm
    rw [Transformation.arguments, Transformation.arguments, hxy _ hne]
  · rw [Transformation.apply, Transformation.apply, heq]

theorem dependsOn_apply {t : Transformation ι} :
    DependsOn (t.apply f) i ↔ DependsOn f (t.perm i) := by
  constructor
  · exact dependsOn_of_apply
  · intro h
    rw [← Transformation.apply_symm (t := t) (f := f)] at h
    have hback := dependsOn_of_apply h
    rwa [show t.symm.perm (t.perm i) = i from t.perm.symm_apply_apply i] at hback

end UtopiaEda.Npn
