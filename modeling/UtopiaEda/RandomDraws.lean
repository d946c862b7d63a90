import Mathlib.Data.Nat.Init

/-!
# Programs that draw numbers

A program takes its random numbers from a list. A loop that draws in each round either ends or uses
up the list. `Sat p P` says that the program fails on no list: unless the numbers run out, it ends
with a result that has the property.
-/
namespace UtopiaEda

/-- Why a program stops without a result. -/
inductive Stop where
  /-- No numbers are left. -/
  | draws
  | divisionByZero
  /-- An assertion, or an access to an object that does not exist. -/
  | failure
  deriving DecidableEq, Repr

abbrev Drawing := StateT (List ℕ) (Except Stop)

namespace Drawing

variable {α β σ : Type}

/-- `std::rand()`. -/
def rand : Drawing ℕ
  | [] => .error .draws
  | d :: draws => .ok (d, draws)

/-- `std::rand() % n`. -/
def randMod (n : ℕ) : Drawing ℕ := do
  let d ← rand
  if n = 0 then throw .divisionByZero else pure (d % n)

def check (p : Prop) [Decidable p] : Drawing Unit := if p then pure () else throw .failure

/-- The value, which must be there. -/
def ofOption : Option α → Drawing α
  | some a => pure a
  | none => throw .failure

/-- `elements[std::rand() % elements.size()]`. -/
def randElement (elements : List α) : Drawing α := do
  let n ← randMod elements.length
  ofOption elements[n]?

def loopRounds (body : σ → Drawing (σ ⊕ α)) : ℕ → σ → Drawing α
  | 0, _ => throw .draws
  | n + 1, s => do
    match ← body s with
    | .inl s => loopRounds body n s
    | .inr a => pure a

def loop (body : σ → Drawing (σ ⊕ α)) (s : σ) : Drawing α :=
  fun draws => loopRounds body (draws.length + 1) s draws

/-- The program does not fail, and its results have the property. -/
def Sat (p : Drawing α) (P : α → Prop) : Prop :=
  ∀ draws, (∀ stop, p draws = .error stop → stop = .draws) ∧ ∀ a rest, p draws = .ok (a, rest) → P a

variable {p : Drawing α} {f : α → Drawing β} {P Q : α → Prop} {R : β → Prop} {a : α}

theorem Sat.pure (h : P a) : Sat (pure a) P := by
  intro draws
  refine ⟨fun stop hstop => (by cases hstop), fun b rest hb => ?_⟩
  cases hb
  exact h

theorem Sat.weaken (h : Sat p P) (hPQ : ∀ a, P a → Q a) : Sat p Q :=
  fun draws => ⟨(h draws).1, fun a rest ha => hPQ a ((h draws).2 a rest ha)⟩

/-- The second program runs with the numbers that the first one leaves. -/
theorem bind_apply (p : Drawing α) (f : α → Drawing β) (draws : List ℕ) :
    (p >>= f) draws = (p draws).bind fun r => f r.1 r.2 := rfl

theorem Sat.bind (h : Sat p P) (hf : ∀ a, P a → Sat (f a) R) : Sat (p >>= f) R := by
  intro draws
  rw [bind_apply]
  cases hp : p draws with
  | error stop =>
    refine ⟨fun stop' hstop => ?_, fun b rest hb => by cases hb⟩
    cases hstop
    exact (h draws).1 _ hp
  | ok r => exact hf r.1 ((h draws).2 r.1 r.2 hp) r.2

theorem Sat.rand {P : ℕ → Prop} (h : ∀ d, P d) : Sat rand P := by
  intro draws
  cases draws with
  | nil =>
    refine ⟨fun stop hstop => ?_, fun a rest ha => by cases ha⟩
    cases hstop
    rfl
  | cons d draws => exact ⟨fun stop hstop => (by cases hstop), fun a _ _ => h a⟩

theorem Sat.randMod {n : ℕ} (hn : 0 < n) : Sat (randMod n) (· < n) := by
  refine Sat.bind (P := fun _ => True) (.rand fun _ => trivial) fun d _ => ?_
  rw [if_neg (Nat.ne_of_gt hn)]
  exact .pure (Nat.mod_lt d hn)

theorem Sat.check {p : Prop} [Decidable p] {P : Unit → Prop} (h : p) (hP : P ()) :
    Sat (check p) P := by
  rw [Drawing.check, if_pos h]
  exact .pure hP

theorem Sat.ofOption {o : Option α} (h : o = some a) (ha : P a) : Sat (ofOption o) P := by
  rw [h]
  exact .pure ha

theorem Sat.randElement {elements : List α} (h : elements ≠ []) :
    Sat (randElement elements) (· ∈ elements) :=
  (Sat.randMod (List.length_pos_iff.mpr h)).bind fun _ hn =>
    .ofOption (List.getElem?_eq_getElem hn) (List.getElem_mem hn)

/-- What every round keeps until the loop ends holds when it ends. -/
theorem Sat.loop {body : σ → Drawing (σ ⊕ α)} {I : σ → Prop}
    (hbody : ∀ s, I s → Sat (body s) fun r => (∀ s', r = .inl s' → I s') ∧ ∀ a, r = .inr a → P a)
    {s : σ} (hs : I s) : Sat (loop body s) P := by
  have hrounds : ∀ n s, I s → Sat (loopRounds body n s) P := by
    intro n
    induction n with
    | zero =>
      intro s _ draws
      refine ⟨fun stop hstop => ?_, fun a rest ha => by cases ha⟩
      cases hstop
      rfl
    | succ n ih =>
      intro s hs
      refine (hbody s hs).bind fun r hr => ?_
      cases r with
      | inl s' => exact ih s' (hr.1 s' rfl)
      | inr a => exact .pure (hr.2 a rfl)
  exact fun draws => hrounds _ s hs draws

end Drawing

end UtopiaEda
