import Mathlib.Data.Set.Function

/-!
# Clauses that define auxiliary variables

A list of clauses says something about the variables that existed before: whatever satisfies
the clauses has the property, and an assignment with the property can be changed on new
variables only so that it satisfies the clauses.
-/
namespace UtopiaEda

structure Literal (V : Type*) where
  var : V
  sign : Bool
  deriving DecidableEq, Repr

abbrev Clause (V : Type*) := List (Literal V)

variable {V : Type*} {U U' : Set V} {α β : V → Bool} {cs cs' : List (Clause V)}
  {P Q : (V → Bool) → Prop}

namespace Literal

/-- `operator~`. -/
def not (l : Literal V) : Literal V := { l with sign := !l.sign }

def holds (α : V → Bool) (l : Literal V) : Bool := xor (α l.var) l.sign

@[simp] theorem not_var (l : Literal V) : l.not.var = l.var := rfl

@[simp] theorem holds_not (α : V → Bool) (l : Literal V) : l.not.holds α = !l.holds α := by
  simp [holds, not]

theorem holds_congr {l : Literal V} (hl : l.var ∈ U) (h : Set.EqOn α β U) :
    l.holds α = l.holds β := by
  rw [holds, holds, h hl]

end Literal

namespace Clauses

def Sat (α : V → Bool) (cs : List (Clause V)) : Prop := ∀ c ∈ cs, ∃ l ∈ c, l.holds α = true

@[simp] theorem sat_nil (α : V → Bool) : Sat α [] := by simp [Sat]

@[simp] theorem sat_append : Sat α (cs ++ cs') ↔ Sat α cs ∧ Sat α cs' := by
  simp [Sat, or_imp, forall_and]

@[simp] theorem sat_cons {c : Clause V} :
    Sat α (c :: cs) ↔ (∃ l ∈ c, l.holds α = true) ∧ Sat α cs := by
  simp [Sat]

/-- The clauses have no variables outside of `U`. -/
def Within (U : Set V) (cs : List (Clause V)) : Prop := ∀ c ∈ cs, ∀ l ∈ c, l.var ∈ U

theorem Within.mono (h : Within U cs) (hU : U ⊆ U') : Within U' cs :=
  fun c hc l hl => hU (h c hc l hl)

theorem Within.append (h : Within U cs) (h' : Within U cs') : Within U (cs ++ cs') := by
  intro c hc
  rcases List.mem_append.mp hc with hc | hc
  · exact h c hc
  · exact h' c hc

theorem Sat.congr (h : Sat α cs) (hw : Within U cs) (heq : Set.EqOn α β U) : Sat β cs := by
  intro c hc
  obtain ⟨l, hl, hholds⟩ := h c hc
  exact ⟨l, hl, (Literal.holds_congr (hw c hc l hl) heq) ▸ hholds⟩

/-- The clauses say `P` about the variables `U`; all their other variables are auxiliary. -/
structure Says (U : Set V) (cs : List (Clause V)) (P : (V → Bool) → Prop) : Prop where
  sound : ∀ α, Sat α cs → P α
  complete : ∀ α, P α → ∃ β, Set.EqOn α β U ∧ Sat β cs

theorem Says.of_iff (h : ∀ α, Sat α cs ↔ P α) : Says U cs P :=
  ⟨fun α hα => (h α).mp hα, fun α hα => ⟨α, Set.eqOn_refl α U, (h α).mpr hα⟩⟩

theorem Says.congr (h : Says U cs P) (hPQ : ∀ α, P α ↔ Q α) : Says U cs Q :=
  ⟨fun α hα => (hPQ α).mp (h.sound α hα), fun α hα => h.complete α ((hPQ α).mpr hα)⟩

/-- Both lists together say both; the second one must not speak about auxiliary variables of
the first. -/
theorem Says.append (h : Says U cs P) (h' : Says U' cs' Q) (hU : U ⊆ U') (hw : Within U' cs)
    (hQ : ∀ α β, Set.EqOn α β U → Q α → Q β) : Says U (cs ++ cs') (fun α => P α ∧ Q α) := by
  constructor
  · intro α hα
    rw [sat_append] at hα
    exact ⟨h.sound α hα.1, h'.sound α hα.2⟩
  · intro α hα
    obtain ⟨β, hβ, hsat⟩ := h.complete α hα.1
    obtain ⟨γ, hγ, hsat'⟩ := h'.complete β (hQ α β hβ hα.2)
    exact ⟨γ, hβ.trans (hγ.mono hU), sat_append.mpr ⟨hsat.congr hw hγ, hsat'⟩⟩

theorem Says.hide [DecidableEq V] {v : V} (h : Says (insert v U) cs P) (hv : v ∉ U) :
    Says U cs (fun α => ∃ b, P (Function.update α v b)) := by
  constructor
  · intro α hα
    refine ⟨α v, ?_⟩
    rw [Function.update_eq_self]
    exact h.sound α hα
  · intro α hα
    obtain ⟨b, hb⟩ := hα
    obtain ⟨β, hβ, hsat⟩ := h.complete _ hb
    refine ⟨β, fun u hu => ?_, hsat⟩
    have hne : u ≠ v := fun huv => hv (huv ▸ hu)
    rw [← hβ (Set.mem_insert_of_mem v hu), Function.update_of_ne hne]

end Clauses

end UtopiaEda
