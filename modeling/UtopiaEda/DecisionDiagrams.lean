import Mathlib.Data.List.Nodup

/-!
# Binary decision diagrams with complemented edges

The only terminal is one and an edge to the first child is never complemented. The paths to a
value are disjoint conditions on the variables, and together they describe where the diagram
has that value.
-/
namespace UtopiaEda
open List

/-- A diagram unfolded into a tree. The last field complements the edge to the second child. -/
inductive Diagram where
  | one
  | node (index : ℕ) (t e : Diagram) (complement : Bool)
  deriving DecidableEq, Repr

namespace Diagram

variable {x : ℕ → Bool} {n i : ℕ} {target : Bool} {d t e : Diagram}

def eval (x : ℕ → Bool) : Diagram → Bool
  | one => true
  | node i t e c => if x i then t.eval x else xor (e.eval x) c

def support : Diagram → List ℕ
  | one => []
  | node i t e _ => i :: (t.support ++ e.support)

/-- The variables are among `n` ones, none is read twice on a path, and the children differ. -/
def WellFormed (n : ℕ) : Diagram → Prop
  | one => True
  | node i t e c => i < n ∧ i ∉ t.support ∧ i ∉ e.support ∧ ¬ (t = e ∧ c = false) ∧
      t.WellFormed n ∧ e.WellFormed n

abbrev Path := List (ℕ × Bool)

def Follows (x : ℕ → Bool) (p : Path) : Prop := ∀ s ∈ p, x s.1 = !s.2

@[simp] theorem follows_nil : Follows x [] := by simp [Follows]

@[simp] theorem follows_cons {s : ℕ × Bool} {p : Path} :
    Follows x (s :: p) ↔ x s.1 = (!s.2) ∧ Follows x p := by
  simp [Follows]

def Part (p q : Path) : Prop := ∃ i b, (i, b) ∈ p ∧ (i, !b) ∈ q

theorem Part.symm {p q : Path} (h : Part p q) : Part q p := by
  obtain ⟨i, b, hp, hq⟩ := h
  exact ⟨i, !b, hq, by rwa [Bool.not_not]⟩

theorem Part.append {p q : Path} (h : Part p q) (r : Path) : Part (r ++ p) (r ++ q) := by
  obtain ⟨i, b, hp, hq⟩ := h
  exact ⟨i, b, mem_append_right r hp, mem_append_right r hq⟩

theorem Part.not_follows {p q : Path} (h : Part p q) : ¬ (Follows x p ∧ Follows x q) := by
  obtain ⟨i, b, hp, hq⟩ := h
  intro hboth
  have hi : (!b) = !!b := (hboth.1 (i, b) hp).symm.trans (hboth.2 (i, !b) hq)
  cases b <;> cases hi

/-- The paths on which the diagram has the value `target`. -/
def pathsTo : Diagram → Bool → List Path
  | one, target => if target then [[]] else []
  | node i t e c, target => (t.pathsTo target).map ((i, false) :: ·) ++
      (e.pathsTo (xor target c)).map ((i, true) :: ·)

theorem exists_path (d : Diagram) (target : Bool) :
    (∃ p ∈ d.pathsTo target, Follows x p) ↔ d.eval x = target := by
  induction d generalizing target with
  | one => cases target <;> simp [pathsTo, eval]
  | node i t e c iht ihe =>
    simp only [pathsTo, mem_append, mem_map, or_and_right, exists_or]
    cases hi : x i with
    | true =>
      simp only [eval, hi, if_true, ← iht target]
      constructor
      · rintro (⟨_, ⟨p, hp, rfl⟩, hf⟩ | ⟨_, ⟨p, hp, rfl⟩, hf⟩)
        · exact ⟨p, hp, (follows_cons.mp hf).2⟩
        · simp [hi] at hf
      · rintro ⟨p, hp, hf⟩
        exact .inl ⟨_, ⟨p, hp, rfl⟩, follows_cons.mpr ⟨hi, hf⟩⟩
    | false =>
      have heval : xor (e.eval x) c = target ↔ e.eval x = xor target c := by
        cases e.eval x <;> cases c <;> cases target <;> decide
      rw [eval, hi, if_neg Bool.false_ne_true, heval, ← ihe]
      constructor
      · rintro (⟨_, ⟨p, hp, rfl⟩, hf⟩ | ⟨_, ⟨p, hp, rfl⟩, hf⟩)
        · simp [hi] at hf
        · exact ⟨p, hp, (follows_cons.mp hf).2⟩
      · rintro ⟨p, hp, hf⟩
        exact .inr ⟨_, ⟨p, hp, rfl⟩, follows_cons.mpr ⟨hi, hf⟩⟩

theorem pathsTo_pairwise (d : Diagram) (target : Bool) : (d.pathsTo target).Pairwise Part := by
  induction d generalizing target with
  | one => cases target <;> simp [pathsTo]
  | node i t e c iht ihe =>
    refine pairwise_append.mpr ⟨?_, ?_, ?_⟩
    · exact (iht target).map _ (fun p q h => h.append [(i, false)])
    · exact (ihe _).map _ (fun p q h => h.append [(i, true)])
    · intro p hp q hq
      obtain ⟨p', -, rfl⟩ := mem_map.mp hp
      obtain ⟨q', -, rfl⟩ := mem_map.mp hq
      exact ⟨i, false, mem_cons_self, mem_cons_self⟩

theorem mem_support_of_path {p : Path} (hp : p ∈ d.pathsTo target) :
    ∀ s ∈ p, s.1 ∈ d.support := by
  induction d generalizing target p with
  | one => cases target <;> simp_all [pathsTo]
  | node i t e c iht ihe =>
    rcases mem_append.mp hp with h | h
    · obtain ⟨q, hq, rfl⟩ := mem_map.mp h
      refine forall_mem_cons.mpr ⟨mem_cons_self, fun s hs => ?_⟩
      exact mem_cons_of_mem i (mem_append_left _ (iht hq s hs))
    · obtain ⟨q, hq, rfl⟩ := mem_map.mp h
      refine forall_mem_cons.mpr ⟨mem_cons_self, fun s hs => ?_⟩
      exact mem_cons_of_mem i (mem_append_right _ (ihe hq s hs))

theorem WellFormed.lt_of_mem (h : d.WellFormed n) (hi : i ∈ d.support) : i < n := by
  induction d with
  | one => cases hi
  | node j t e c iht ihe =>
    obtain ⟨hj, -, -, -, ht, he⟩ := h
    simp only [support, mem_cons, mem_append] at hi
    rcases hi with rfl | hi | hi
    · exact hj
    · exact iht ht hi
    · exact ihe he hi

theorem WellFormed.nodup_path (h : d.WellFormed n) {p : Path} (hp : p ∈ d.pathsTo target) :
    (p.map Prod.fst).Nodup := by
  induction d generalizing target p with
  | one => cases target <;> simp_all [pathsTo]
  | node i t e c iht ihe =>
    obtain ⟨-, hit, hie, -, ht, he⟩ := h
    have hnot : ∀ {d : Diagram} {b : Bool} {q : Path}, q ∈ d.pathsTo b → i ∉ d.support →
        i ∉ q.map Prod.fst := by
      intro d b q hq hi hmem
      obtain ⟨s, hs, rfl⟩ := mem_map.mp hmem
      exact hi (mem_support_of_path hq s hs)
    rcases mem_append.mp hp with h | h
    · obtain ⟨q, hq, rfl⟩ := mem_map.mp h
      exact nodup_cons.mpr ⟨hnot hq hit, iht ht hq⟩
    · obtain ⟨q, hq, rfl⟩ := mem_map.mp h
      exact nodup_cons.mpr ⟨hnot hq hie, ihe he hq⟩

end Diagram

structure Bdd (n : ℕ) where
  node : Diagram
  complement : Bool
  wellFormed : node.WellFormed n

def Bdd.eval {n : ℕ} (b : Bdd n) (x : ℕ → Bool) : Bool := xor (b.node.eval x) b.complement

end UtopiaEda
