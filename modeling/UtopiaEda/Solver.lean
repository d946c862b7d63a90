import UtopiaEda.Clauses

/-!
# Clauses of gates

The solver stands for the calls that are made on MiniSat: which variables were created and
which clauses were added. MiniSat numbers the variables; nothing but their being distinct is
used.
-/
namespace UtopiaEda

open Function (update)

abbrev Variable := ℤ

structure Solver where
  /-- The variable that the k-th call of `newVar` returns. -/
  varID : ℕ → Variable
  /-- Number of calls of `newVar`. -/
  varNum : ℕ := 0
  clauses : List (Clause Variable) := []

def makeLit (var : Variable) (sign : Bool) : Literal Variable := ⟨var, sign⟩

namespace Solver
open Clauses

def newVar (s : Solver) : Variable × Solver := (s.varID s.varNum, { s with varNum := s.varNum + 1 })

def newLit (s : Solver) : Literal Variable × Solver := (makeLit s.newVar.1 true, s.newVar.2)

def addClause (s : Solver) (clause : Clause Variable) : Solver :=
  { s with clauses := s.clauses ++ [clause] }

def encodeBuf (rhs lhs : Literal Variable) (s : Solver) : Solver :=
  (s.addClause [rhs.not, lhs]).addClause [rhs, lhs.not]

def encodeAnd (rhs lhs1 lhs2 : Literal Variable) (s : Solver) : Solver :=
  ((s.addClause [rhs, lhs1.not, lhs2.not]).addClause [rhs.not, lhs1]).addClause [rhs.not, lhs2]

def encodeXor (rhs lhs1 lhs2 : Literal Variable) (s : Solver) : Solver :=
  (((s.addClause [rhs.not, lhs1.not, lhs2.not]).addClause [rhs.not, lhs1, lhs2]).addClause
    [rhs, lhs1.not, lhs2]).addClause [rhs, lhs1, lhs2.not]

def encodeMaj (rhs lhs1 lhs2 lhs3 : Literal Variable) (s : Solver) : Solver :=
  let (tmp1, s) := s.newLit
  let (tmp2, s) := s.newLit
  let (tmp3, s) := s.newLit
  let s := encodeAnd tmp1 lhs1 lhs2 s
  let s := encodeAnd tmp2 lhs1 lhs3 s
  let s := encodeAnd tmp3 lhs2 lhs3 s
  (((s.addClause [rhs.not, tmp1, tmp2, tmp3]).addClause [rhs, tmp1.not]).addClause
    [rhs, tmp2.not]).addClause [rhs, tmp3.not]

def used (s : Solver) : Set Variable := {v | ∃ k < s.varNum, s.varID k = v}

structure Emits (s s' : Solver) (cs : List (Clause Variable)) : Prop where
  ids : s'.varID = s.varID
  vars : s.varNum ≤ s'.varNum
  clauses : s'.clauses = s.clauses ++ cs
  within : Within s'.used cs

variable {s s' s'' : Solver} {cs cs' : List (Clause Variable)} {U : Set Variable}
  {P Q : (Variable → Bool) → Prop} {rhs lhs lhs1 lhs2 lhs3 : Literal Variable}

@[simp] theorem used_addClause (s : Solver) (c : Clause Variable) : (s.addClause c).used = s.used :=
  rfl

@[simp] theorem used_encodeAnd (s : Solver) : (encodeAnd rhs lhs1 lhs2 s).used = s.used := rfl

@[simp] theorem used_encodeBuf (s : Solver) : (encodeBuf rhs lhs s).used = s.used := rfl

@[simp] theorem used_encodeXor (s : Solver) : (encodeXor rhs lhs1 lhs2 s).used = s.used := rfl

theorem used_subset (hid : s'.varID = s.varID) (hv : s.varNum ≤ s'.varNum) : s.used ⊆ s'.used := by
  intro v hv'
  obtain ⟨k, hk, hkv⟩ := hv'
  exact ⟨k, Nat.lt_of_lt_of_le hk hv, (congrFun hid k).trans hkv⟩

theorem Emits.subset (h : Emits s s' cs) : s.used ⊆ s'.used := used_subset h.ids h.vars

theorem Emits.refl (s : Solver) : Emits s s [] :=
  ⟨rfl, Nat.le_refl _, by simp, fun c hc => by cases hc⟩

theorem Emits.trans (h : Emits s s' cs) (h' : Emits s' s'' cs') : Emits s s'' (cs ++ cs') := by
  constructor
  · exact h'.ids.trans h.ids
  · exact Nat.le_trans h.vars h'.vars
  · rw [h'.clauses, h.clauses, List.append_assoc]
  · exact (h.within.mono h'.subset).append h'.within

theorem Emits.newVar (s : Solver) : Emits s s.newVar.2 [] :=
  ⟨rfl, Nat.le_succ _, by simp [Solver.newVar], fun c hc => by cases hc⟩

theorem Emits.addClause {c : Clause Variable} (h : Emits s s' cs) (hc : ∀ l ∈ c, l.var ∈ s'.used) :
    Emits s (s'.addClause c) (cs ++ [c]) := by
  refine h.trans ⟨rfl, Nat.le_refl _, rfl, fun c' hc' l hl => ?_⟩
  rw [List.mem_singleton.mp hc'] at hl
  exact hc l hl

theorem newVar_mem (s : Solver) : s.newVar.1 ∈ s.newVar.2.used :=
  ⟨s.varNum, Nat.lt_succ_self _, rfl⟩

theorem newVar_not_mem (hinj : Function.Injective s.varID) : s.newVar.1 ∉ s.used := by
  intro hmem
  obtain ⟨k, hk, heq⟩ := hmem
  exact Nat.ne_of_lt hk (hinj heq)

theorem newVar_used (s : Solver) : s.newVar.2.used = insert s.newVar.1 s.used := by
  ext v
  constructor
  · intro hv
    obtain ⟨k, hk, rfl⟩ := hv
    rcases Nat.lt_succ_iff_lt_or_eq.mp hk with hlt | heq
    · exact .inr ⟨k, hlt, rfl⟩
    · exact .inl (congrArg s.varID heq)
  · intro hv
    rcases hv with heq | hmem
    · exact heq ▸ s.newVar_mem
    · exact (Emits.newVar s).subset hmem

theorem emits_encodeBuf (hr : rhs.var ∈ s.used) (hl : lhs.var ∈ s.used) :
    Emits s (encodeBuf rhs lhs s) [[rhs.not, lhs], [rhs, lhs.not]] := by
  refine ((Emits.refl s).addClause ?_).addClause ?_ <;>
    simpa using ⟨hr, hl⟩

theorem emits_encodeAnd (hr : rhs.var ∈ s.used) (h1 : lhs1.var ∈ s.used) (h2 : lhs2.var ∈ s.used) :
    Emits s (encodeAnd rhs lhs1 lhs2 s)
      [[rhs, lhs1.not, lhs2.not], [rhs.not, lhs1], [rhs.not, lhs2]] := by
  refine (((Emits.refl s).addClause ?_).addClause ?_).addClause ?_ <;>
    simp only [List.forall_mem_cons, Literal.not_var]
  · exact ⟨hr, h1, h2, by simp⟩
  · exact ⟨hr, h1, by simp⟩
  · exact ⟨hr, h2, by simp⟩

theorem emits_encodeXor (hr : rhs.var ∈ s.used) (h1 : lhs1.var ∈ s.used) (h2 : lhs2.var ∈ s.used) :
    Emits s (encodeXor rhs lhs1 lhs2 s) [[rhs.not, lhs1.not, lhs2.not], [rhs.not, lhs1, lhs2],
      [rhs, lhs1.not, lhs2], [rhs, lhs1, lhs2.not]] := by
  refine ((((Emits.refl s).addClause ?_).addClause ?_).addClause ?_).addClause ?_ <;>
    simpa using ⟨hr, h1, h2⟩

theorem says_encodeBuf : Says U [[rhs.not, lhs], [rhs, lhs.not]]
    (fun α => rhs.holds α = lhs.holds α) := by
  apply Says.of_iff
  intro α
  cases hr : rhs.holds α <;> cases hl : lhs.holds α <;> simp [hr, hl]

theorem says_encodeAnd : Says U [[rhs, lhs1.not, lhs2.not], [rhs.not, lhs1], [rhs.not, lhs2]]
    (fun α => rhs.holds α = (lhs1.holds α && lhs2.holds α)) := by
  apply Says.of_iff
  intro α
  cases hr : rhs.holds α <;> cases h1 : lhs1.holds α <;> cases h2 : lhs2.holds α <;>
    simp [hr, h1, h2]

theorem says_encodeXor : Says U [[rhs.not, lhs1.not, lhs2.not], [rhs.not, lhs1, lhs2],
      [rhs, lhs1.not, lhs2], [rhs, lhs1, lhs2.not]]
    (fun α => rhs.holds α = xor (lhs1.holds α) (lhs2.holds α)) := by
  apply Says.of_iff
  intro α
  cases hr : rhs.holds α <;> cases h1 : lhs1.holds α <;> cases h2 : lhs2.holds α <;>
    simp [hr, h1, h2]

/-- The solver `s'` got clauses that say `P` about the variables of `s`. -/
def Encodes (s s' : Solver) (P : (Variable → Bool) → Prop) : Prop :=
  ∃ cs, Emits s s' cs ∧ Says s.used cs P

theorem Encodes.congr (h : Encodes s s' P) (hPQ : ∀ α, P α ↔ Q α) : Encodes s s' Q := by
  obtain ⟨cs, hemit, hsays⟩ := h
  exact ⟨cs, hemit, hsays.congr hPQ⟩

theorem Encodes.refl (s : Solver) : Encodes s s (fun _ => True) :=
  ⟨[], Emits.refl s, Says.of_iff (by simp)⟩

theorem Encodes.trans (h : Encodes s s' P) (h' : Encodes s' s'' Q)
    (hQ : ∀ α β, Set.EqOn α β s.used → Q α → Q β) : Encodes s s'' (fun α => P α ∧ Q α) := by
  obtain ⟨cs, hemit, hsays⟩ := h
  obtain ⟨cs', hemit', hsays'⟩ := h'
  exact ⟨cs ++ cs', hemit.trans hemit', hsays.append hsays' hemit.subset hemit.within hQ⟩

/-- The variable of a new literal is an auxiliary one. -/
theorem Encodes.hide (hinj : Function.Injective s.varID) (h : Encodes s.newVar.2 s' P) :
    Encodes s s' (fun α => ∃ b, P (update α s.newVar.1 b)) := by
  obtain ⟨cs, hemit, hsays⟩ := h
  rw [newVar_used] at hsays
  exact ⟨[] ++ cs, (Emits.newVar s).trans hemit, hsays.hide (newVar_not_mem hinj)⟩

theorem encodes_addClause {c : Clause Variable} (hc : ∀ l ∈ c, l.var ∈ s.used) :
    Encodes s (s.addClause c) (fun α => ∃ l ∈ c, l.holds α = true) :=
  ⟨[c], (Emits.refl s).addClause hc, Says.of_iff (by simp)⟩

theorem encodes_buf (hr : rhs.var ∈ s.used) (hl : lhs.var ∈ s.used) :
    Encodes s (encodeBuf rhs lhs s) (fun α => rhs.holds α = lhs.holds α) :=
  ⟨_, emits_encodeBuf hr hl, says_encodeBuf⟩

theorem encodes_and (hr : rhs.var ∈ s.used) (h1 : lhs1.var ∈ s.used) (h2 : lhs2.var ∈ s.used) :
    Encodes s (encodeAnd rhs lhs1 lhs2 s)
      (fun α => rhs.holds α = (lhs1.holds α && lhs2.holds α)) :=
  ⟨_, emits_encodeAnd hr h1 h2, says_encodeAnd⟩

theorem encodes_xor (hr : rhs.var ∈ s.used) (h1 : lhs1.var ∈ s.used) (h2 : lhs2.var ∈ s.used) :
    Encodes s (encodeXor rhs lhs1 lhs2 s)
      (fun α => rhs.holds α = xor (lhs1.holds α) (lhs2.holds α)) :=
  ⟨_, emits_encodeXor hr h1 h2, says_encodeXor⟩

@[simp] theorem holds_newLit (α : Variable → Bool) (s : Solver) (b : Bool) :
    s.newLit.1.holds (update α s.newVar.1 b) = !b := by
  simp [newLit, makeLit, Literal.holds]

theorem holds_update {l : Literal Variable} {v : Variable} (hv : v ∉ s.used) (hl : l.var ∈ s.used)
    (α : Variable → Bool) (b : Bool) : l.holds (update α v b) = l.holds α := by
  have hne : l.var ≠ v := fun heq => hv (heq ▸ hl)
  rw [Literal.holds, Literal.holds, Function.update_of_ne hne]

private theorem encodes_or3 {t1 t2 t3 : Literal Variable} (hr : rhs.var ∈ s.used)
    (h1 : t1.var ∈ s.used) (h2 : t2.var ∈ s.used) (h3 : t3.var ∈ s.used) :
    Encodes s ((((s.addClause [rhs.not, t1, t2, t3]).addClause [rhs, t1.not]).addClause
      [rhs, t2.not]).addClause [rhs, t3.not])
      (fun α => rhs.holds α = (t1.holds α || t2.holds α || t3.holds α)) := by
  refine ⟨_, ((((Emits.refl s).addClause ?_).addClause ?_).addClause ?_).addClause ?_,
    Says.of_iff fun α => ?_⟩
  · simpa using ⟨hr, h1, h2, h3⟩
  · simpa using ⟨hr, h1⟩
  · simpa using ⟨hr, h2⟩
  · simpa using ⟨hr, h3⟩
  · cases hr : rhs.holds α <;> cases h1 : t1.holds α <;> cases h2 : t2.holds α <;>
      cases h3 : t3.holds α <;> simp [hr, h1, h2, h3]

private theorem encodes_majBody (t1 t2 t3 : Literal Variable) (hr : rhs.var ∈ s.used)
    (h1 : lhs1.var ∈ s.used) (h2 : lhs2.var ∈ s.used) (h3 : lhs3.var ∈ s.used)
    (ht1 : t1.var ∈ s.used) (ht2 : t2.var ∈ s.used) (ht3 : t3.var ∈ s.used) :
    Encodes s (((((encodeAnd t3 lhs2 lhs3 (encodeAnd t2 lhs1 lhs3 (encodeAnd t1 lhs1 lhs2 s))).addClause
      [rhs.not, t1, t2, t3]).addClause [rhs, t1.not]).addClause [rhs, t2.not]).addClause [rhs,
        t3.not])
      (fun α => ((t1.holds α = (lhs1.holds α && lhs2.holds α) ∧
        t2.holds α = (lhs1.holds α && lhs3.holds α)) ∧
        t3.holds α = (lhs2.holds α && lhs3.holds α)) ∧
        rhs.holds α = (t1.holds α || t2.holds α || t3.holds α)) := by
  have e₁ := encodes_and ht1 h1 h2
  have e₂ := encodes_and (s := encodeAnd t1 lhs1 lhs2 s) (by simpa using ht2) (by simpa using h1)
    (by simpa using h3)
  have e₃ := encodes_and (s := encodeAnd t2 lhs1 lhs3 (encodeAnd t1 lhs1 lhs2 s))
    (by simpa using ht3) (by simpa using h2) (by simpa using h3)
  have e₄ := encodes_or3
    (s := encodeAnd t3 lhs2 lhs3 (encodeAnd t2 lhs1 lhs3 (encodeAnd t1 lhs1 lhs2 s)))
    (by simpa using hr) (by simpa using ht1) (by simpa using ht2) (by simpa using ht3)
  refine ((e₁.trans e₂ ?_).trans e₃ ?_).trans e₄ ?_ <;>
    intro α β heq <;>
    simp only [Literal.holds_congr hr heq, Literal.holds_congr h1 heq, Literal.holds_congr h2 heq,
      Literal.holds_congr h3 heq, Literal.holds_congr ht1 heq, Literal.holds_congr ht2 heq,
      Literal.holds_congr ht3 heq] <;>
    exact id

theorem encodes_maj (hinj : Function.Injective s.varID) (hr : rhs.var ∈ s.used)
    (h1 : lhs1.var ∈ s.used) (h2 : lhs2.var ∈ s.used) (h3 : lhs3.var ∈ s.used) :
    Encodes s (encodeMaj rhs lhs1 lhs2 lhs3 s)
      (fun α => rhs.holds α = (lhs1.holds α && lhs2.holds α || lhs1.holds α && lhs3.holds α ||
        lhs2.holds α && lhs3.holds α)) := by
  let s₁ := s.newVar.2
  let s₂ := s₁.newVar.2
  have h₁ : s.used ⊆ s₁.used := (Emits.newVar s).subset
  have h₂ : s₁.used ⊆ s₂.used := (Emits.newVar s₁).subset
  have h₃ : s₂.used ⊆ s₂.newVar.2.used := (Emits.newVar s₂).subset
  have hall : s.used ⊆ s₂.newVar.2.used := h₁.trans (h₂.trans h₃)
  have hbody := encodes_majBody s.newLit.1 s₁.newLit.1 s₂.newLit.1 (hall hr) (hall h1) (hall h2)
    (hall h3) (h₃ (h₂ s.newVar_mem)) (h₃ s₁.newVar_mem) s₂.newVar_mem
  have hhide := Encodes.hide (s := s) hinj (Encodes.hide (s := s₁) hinj
    (Encodes.hide (s := s₂) hinj hbody))
  refine hhide.congr (fun α => ?_)
  have hv₀ : s.newVar.1 ∉ s.used := newVar_not_mem hinj
  have hv₁ : s₁.newVar.1 ∉ s₁.used := newVar_not_mem (s := s₁) hinj
  have hv₂ : s₂.newVar.1 ∉ s₂.used := newVar_not_mem (s := s₂) hinj
  have hold : ∀ l : Literal Variable, l.var ∈ s.used → ∀ b1 b2 b3, l.holds (update
      (update (update α s.newVar.1 b1) s₁.newVar.1 b2) s₂.newVar.1 b3) =
      l.holds α := by
    intro l hl b1 b2 b3
    rw [holds_update hv₂ (h₂ (h₁ hl)), holds_update hv₁ (h₁ hl), holds_update hv₀ hl]
  have ht1 : ∀ b1 b2 b3, s.newLit.1.holds (update
      (update (update α s.newVar.1 b1) s₁.newVar.1 b2) s₂.newVar.1 b3) = !b1 := by
    intro b1 b2 b3
    rw [holds_update hv₂ (h₂ s.newVar_mem), holds_update hv₁ s.newVar_mem, holds_newLit]
  have ht2 : ∀ b1 b2 b3, s₁.newLit.1.holds (update
      (update (update α s.newVar.1 b1) s₁.newVar.1 b2) s₂.newVar.1 b3) = !b2 := by
    intro b1 b2 b3
    rw [holds_update hv₂ s₁.newVar_mem, holds_newLit]
  simp only [hold _ hr, hold _ h1, hold _ h2, hold _ h3, ht1, ht2, holds_newLit]
  constructor
  · intro h
    obtain ⟨b1, b2, b3, ⟨⟨e1, e2⟩, e3⟩, e⟩ := h
    rw [e, e1, e2, e3]
  · intro h
    refine ⟨!(lhs1.holds α && lhs2.holds α), !(lhs1.holds α && lhs3.holds α),
      !(lhs2.holds α && lhs3.holds α), ?_⟩
    simpa using h

end Solver

end UtopiaEda
