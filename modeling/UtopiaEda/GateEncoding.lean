import UtopiaEda.SubnetTypes

/-!
# The clauses of a gate

The encoder gives the cell a new variable and adds clauses that say that the literal of the
output is the function of the literals of the links.
-/
namespace UtopiaEda

open List
open Option (bind_eq_bind bind_some)
open Clauses Solver

namespace SubnetEncoderContext

variable {context : SubnetEncoderContext} {idx j : EntryID} {n p out : ℕ} {v : Variable}

/-- The context after `setVars` created the variables of a cell. -/
def opened (context : SubnetEncoderContext) (idx : EntryID) (n : ℕ) : SubnetEncoderContext where
  solver := { context.solver with varNum := context.solver.varNum + n }
  next := context.next.set idx (context.vars.length + n)
  vars := context.vars ++
    (range n).map (fun k => context.solver.varID (context.solver.varNum + k))

theorem pos_add (h : context.pos idx 0 = some p) (out : ℕ) :
    context.pos idx out = some (p + out) := by
  cases idx with
  | zero =>
    simp only [pos] at h ⊢
    split at h
    · rename_i hlen
      cases h
      rw [if_pos hlen, Nat.zero_add]
    · cases h
  | succ idx =>
    simp only [pos] at h ⊢
    split at h
    · rename_i hlen
      cases h
      rw [if_pos hlen, Nat.add_zero]
    · cases h

private theorem fillVars_eq : ∀ {k : ℕ} {context : SubnetEncoderContext} {vs rest : List Variable},
    context.vars = vs ++ rest → rest.length = k → fillVars k vs.length context =
      { solver := { context.solver with varNum := context.solver.varNum + k }
        next := context.next
        vars := vs ++ (range k).map
          (fun j => context.solver.varID (context.solver.varNum + j)) } := by
  intro k
  induction k with
  | zero =>
    intro context vs rest hv hr
    rw [length_eq_zero_iff.mp hr, append_nil] at hv
    cases context
    subst hv
    simp [fillVars]
  | succ k ih =>
    intro context vs rest hv hr
    obtain ⟨r, rest, rfl⟩ := exists_cons_of_length_eq_add_one hr
    have hset : context.vars.set vs.length (context.solver.varID context.solver.varNum) =
        (vs ++ [context.solver.varID context.solver.varNum]) ++ rest := by
      rw [hv]
      simp
    have hlen : vs.length + 1 = (vs ++ [context.solver.varID context.solver.varNum]).length := by
      simp
    have hrest : rest.length = k := Nat.succ_inj.mp hr
    rw [fillVars]
    simp only [Solver.newVar]
    rw [hlen, ih hset hrest, range_succ_eq_map]
    simp only [map_cons, map_map, append_assoc, singleton_append, Nat.add_zero]
    have hfun : ((fun j => context.solver.varID (context.solver.varNum + j)) ∘ Nat.succ) =
        fun j => context.solver.varID (context.solver.varNum + 1 + j) := by
      funext j
      simp only [Function.comp_apply, Nat.succ_eq_add_one]
      congr 1
      omega
    rw [hfun, Nat.add_assoc, Nat.add_comm 1 k]

theorem setVars_eq (h : context.pos idx 0 = some context.vars.length) :
    context.setVars idx n = some (context.opened idx n) := by
  simp only [setVars, h, pos_add h, bind_eq_bind, bind_some, Nat.add_sub_cancel_left]
  rw [fillVars_eq rfl (by simp)]
  rfl

theorem pos_congr {context' : SubnetEncoderContext}
    (hlen : context'.next.length = context.next.length)
    (h : ∀ k < idx, context'.next.getD k 0 = context.next.getD k 0) (out : ℕ) :
    context'.pos idx out = context.pos idx out := by
  cases idx with
  | zero => simp only [pos, hlen]
  | succ idx => simp only [pos, hlen, h idx (Nat.lt_succ_self idx)]

theorem pos_opened (hj : j ≤ idx) (out : ℕ) :
    (context.opened idx n).pos j out = context.pos j out := by
  apply pos_congr
  · simp [opened]
  · intro k hk
    have hne : idx ≠ k := Nat.ne_of_gt (Nat.lt_of_lt_of_le hk hj)
    simp [opened, getD_eq_getElem?_getD, getElem?_set_ne hne]

theorem var_opened (h : context.pos idx 0 = some context.vars.length) (hout : out < n) :
    (context.opened idx n).var idx out =
      some (context.solver.varID (context.solver.varNum + out)) := by
  simp only [var, pos_opened (Nat.le_refl idx), pos_add h, bind_eq_bind, bind_some]
  simp [opened, hout]

theorem var_opened_of_lt (hj : j < idx) (hv : context.var j out = some v) :
    (context.opened idx n).var j out = some v := by
  simp only [var, pos_opened (Nat.le_of_lt hj), bind_eq_bind] at hv ⊢
  obtain ⟨p, hp, hv⟩ := Option.bind_eq_some_iff.mp hv
  rw [hp, bind_some]
  simp only [opened]
  rw [getElem?_append_left (List.getElem?_eq_some_iff.mp hv).1, hv]

@[simp] theorem lit_solver (s : Solver) (sign : Bool) :
    ({ context with solver := s } : SubnetEncoderContext).lit idx out sign =
    context.lit idx out sign :=
  rfl

@[simp] theorem linkLit_solver (s : Solver) (l : Link) (sign : Bool) :
    ({ context with solver := s } : SubnetEncoderContext).linkLit l sign = context.linkLit l sign :=
  rfl

end SubnetEncoderContext

namespace SubnetEncoder
open SubnetEncoderContext

variable {context : SubnetEncoderContext} {u : EntryID → ℕ → Variable} {idx : EntryID} {l : Link}
  {links : List Link} {s : Solver} {α β : Variable → Bool} {rhs : Literal Variable} {sign : Bool}

/-- The values that an assignment gives to the outputs with the variables `u`. -/
def valueOf (u : EntryID → ℕ → Variable) (α : Variable → Bool) : EntryID → ℕ → Bool :=
  fun i out => (makeLit (u i out) true).holds α

def litOf (u : EntryID → ℕ → Variable) (sign : Bool) (l : Link) : Literal Variable :=
  makeLit (u l.idx l.out) (xor l.inv sign)

theorem litOf_true : (litOf u true l).holds α = l.value (valueOf u α) := by
  simp only [litOf, makeLit, Literal.holds, Link.value, valueOf]
  cases α (u l.idx l.out) <;> cases l.inv <;> rfl

theorem litOf_false : (litOf u false l).holds α = !l.value (valueOf u α) := by
  simp only [litOf, makeLit, Literal.holds, Link.value, valueOf]
  cases α (u l.idx l.out) <;> cases l.inv <;> rfl

theorem map_value_congr (hl : ∀ l ∈ links, u l.idx l.out ∈ s.used) (h : Set.EqOn α β s.used) :
    links.map (Link.value (valueOf u α)) = links.map (Link.value (valueOf u β)) := by
  apply map_congr_left
  intro l hmem
  rw [← litOf_true, ← litOf_true]
  exact Literal.holds_congr (hl l hmem) h

structure Reads (context : SubnetEncoderContext) (u : EntryID → ℕ → Variable) (links : List Link) :
    Prop where
  lit : ∀ l ∈ links, ∀ sign, context.linkLit l sign = some (litOf u sign l)
  used : ∀ l ∈ links, u l.idx l.out ∈ context.solver.used

theorem Reads.tail (h : Reads context u (l :: links)) : Reads context u links :=
  ⟨fun l hl => h.lit l (mem_cons_of_mem _ hl), fun l hl => h.used l (mem_cons_of_mem _ hl)⟩

theorem Reads.solver (h : Reads context u links) (hs : context.solver.used ⊆ s.used) :
    Reads { context with solver := s } u links :=
  ⟨h.lit, fun l hl => hs (h.used l hl)⟩

private theorem collectLoop_eq (sign : Bool) : ∀ {links : List Link} (clause : Clause Variable)
    {context : SubnetEncoderContext}, Reads context u links →
    context.lit idx 0 (!sign) = some rhs → rhs.var ∈ context.solver.used →
    (∀ l ∈ clause, l.var ∈ context.solver.used) →
    ∃ s, collectLoop sign idx links clause context = some { context with solver := s } ∧
      Emits context.solver s (links.map (fun l => [rhs, litOf u sign l]) ++
        [clause ++ links.map (litOf u (!sign))]) := by
  intro links
  induction links with
  | nil =>
    intro clause context _ _ _ hclause
    refine ⟨context.solver.addClause clause, rfl, ?_⟩
    simpa using (Emits.refl context.solver).addClause hclause
  | cons l links ih =>
    intro clause context hread hrhs hused hclause
    have hl := hread.used l mem_cons_self
    have hread' : Reads (context.emit (·.addClause [rhs, litOf u sign l])) u links :=
      hread.tail.solver (Set.Subset.refl _)
    have hclause' : ∀ l' ∈ clause ++ [litOf u (!sign) l], l'.var ∈ context.solver.used := by
      intro l' hl'
      rcases mem_append.mp hl' with hl' | hl'
      · exact hclause l' hl'
      · rw [mem_singleton.mp hl']
        exact hl
    obtain ⟨s, hs, hemit⟩ := ih (clause ++ [litOf u (!sign) l]) hread' hrhs hused hclause'
    refine ⟨s, ?_, ?_⟩
    · simp only [collectLoop, hread.lit l mem_cons_self, hrhs, bind_eq_bind,
        bind_some, hs]
      rfl
    · have hfirst := (Emits.refl context.solver).addClause (c := [rhs, litOf u sign l])
        (by simpa using ⟨hused, hl⟩)
      simpa using hfirst.trans hemit

private theorem says_collected {rhs rhs' : Literal Variable} {U : Set Variable}
    (h : ∀ α, rhs'.holds α = !rhs.holds α)
    (hlit : ∀ l ∈ links, ∀ α, (litOf u (!sign) l).holds α = !(litOf u sign l).holds α) :
    Says U (links.map (fun l => [rhs', litOf u sign l]) ++ [rhs :: links.map (litOf u (!sign))])
      (fun α => rhs.holds α = links.all (fun l => (litOf u sign l).holds α)) := by
  apply Says.of_iff
  intro α
  rw [sat_append, Sat, forall_mem_map]
  simp only [sat_cons, sat_nil, and_true, exists_mem_cons_iff, not_mem_nil, false_and,
    exists_false, or_false, mem_map, exists_exists_and_eq_and, h]
  cases hr : rhs.holds α with
  | true =>
    simp only [Bool.not_true, Bool.false_eq_true, false_or, true_or, and_true]
    rw [eq_comm, all_eq_true]
  | false =>
    simp only [Bool.not_false, true_or, Bool.false_eq_true, false_or]
    rw [eq_comm, all_eq_false]
    constructor
    · intro hex
      obtain ⟨-, l, hl, hholds⟩ := hex
      rw [hlit l hl α] at hholds
      exact ⟨l, hl, by simpa using hholds⟩
    · intro hex
      obtain ⟨l, hl, hholds⟩ := hex
      refine ⟨fun _ _ => trivial, l, hl, ?_⟩
      rw [hlit l hl α]
      simpa using hholds

private theorem xorLoop_eq : ∀ {links : List Link} {l : Link} {rhs : Literal Variable}
    {context : SubnetEncoderContext}, Reads context u (l :: links) → links ≠ [] →
    Function.Injective context.solver.varID → rhs.var ∈ context.solver.used →
    ∃ s, xorLoop rhs (l :: links) context = some { context with solver := s } ∧
      Encodes context.solver s (fun α => rhs.holds α =
        ((l :: links).map (Link.value (valueOf u α))).foldr xor false) := by
  intro links
  induction links with
  | nil => intro l rhs context _ hne; exact absurd rfl hne
  | cons l₂ links ih =>
    intro l₁ rhs context hread _ hinj hrhs
    have h₁ := hread.used l₁ mem_cons_self
    have h₂ := hread.used l₂ (by simp)
    cases links with
    | nil =>
      refine ⟨Solver.encodeXor rhs (litOf u true l₁) (litOf u true l₂) context.solver, ?_, ?_⟩
      · simp only [xorLoop, hread.lit l₁ mem_cons_self, hread.lit l₂ (by simp),
          bind_eq_bind, bind_some]
        rfl
      · refine (encodes_xor hrhs h₁ h₂).congr (fun α => ?_)
        simp [litOf_true]
    | cons l₃ links =>
      let s₁ := context.solver.newVar.2
      let lhs2 := context.solver.newLit.1
      let s₂ := Solver.encodeXor rhs (litOf u true l₁) lhs2 s₁
      have hsub : context.solver.used ⊆ s₁.used := (Emits.newVar _).subset
      have hlhs2 : lhs2.var ∈ s₁.used := newVar_mem _
      have hnew : context.solver.newVar.1 ∉ context.solver.used := newVar_not_mem hinj
      have hread₂ : Reads { context with solver := s₂ } u (l₂ :: l₃ :: links) :=
        hread.tail.solver hsub
      obtain ⟨s, hs, henc⟩ := ih hread₂ (by simp) hinj hlhs2
      refine ⟨s, ?_, ?_⟩
      · rw [xorLoop]
        · simp only [hread.lit l₁ mem_cons_self, bind_eq_bind, bind_some]
          exact hs
        · simp
      · have hread₁ : (litOf u true l₁).var ∈ s₁.used := hsub h₁
        have hfirst : Encodes s₁ s₂ _ := encodes_xor (hsub hrhs) hread₁ hlhs2
        have hboth := hfirst.trans henc (fun α β heq hα => by
          rw [← Literal.holds_congr hlhs2 heq, ← map_value_congr hread₂.used heq]
          exact hα)
        refine (Encodes.hide (s := context.solver) hinj hboth).congr (fun α => ?_)
        have hvals : ∀ b, (l₂ :: l₃ :: links).map
            (Link.value (valueOf u (Function.update α context.solver.newVar.1 b))) =
            (l₂ :: l₃ :: links).map (Link.value (valueOf u α)) := by
          intro b
          refine map_value_congr (s := context.solver) hread.tail.used (fun w hw => ?_)
          have hne : w ≠ context.solver.newVar.1 := fun heq => hnew (heq ▸ hw)
          exact Function.update_of_ne hne b α
        have hkeep : ∀ b, (litOf u true l₁).holds (Function.update α context.solver.newVar.1 b) =
            (litOf u true l₁).holds α := fun b => holds_update hnew h₁ α b
        have haux : ∀ b, lhs2.holds (Function.update α context.solver.newVar.1 b) = !b :=
          fun b => holds_newLit α context.solver b
        simp only [holds_update hnew hrhs, hkeep, hvals, haux]
        rw [litOf_true]
        constructor
        · intro h
          obtain ⟨b, hr, hb⟩ := h
          rw [hr, hb]
          rfl
        · intro h
          refine ⟨!((l₂ :: l₃ :: links).map (Link.value (valueOf u α))).foldr xor false, ?_, ?_⟩
          · rw [Bool.not_not]
            exact h
          · rw [Bool.not_not]

structure Ready (context : SubnetEncoderContext) (u : EntryID → ℕ → Variable) (idx : EntryID)
    (links : List Link) : Prop where
  inj : Function.Injective context.solver.varID
  pos : context.pos idx 0 = some context.vars.length
  before : ∀ l ∈ links, l.idx < idx
  var : ∀ l ∈ links, context.var l.idx l.out = some (u l.idx l.out)
  used : ∀ l ∈ links, u l.idx l.out ∈ context.solver.used

def nextLit (context : SubnetEncoderContext) (sign : Bool) : Literal Variable :=
  makeLit (context.solver.varID context.solver.varNum) sign

theorem nextLit_false : (nextLit context false).holds α = !(nextLit context true).holds α := by
  simp [nextLit, makeLit, Literal.holds]

theorem used_opened (n : ℕ) : context.solver.used ⊆ (context.opened idx n).solver.used :=
  used_subset rfl (Nat.le_add_right _ _)

theorem Ready.reads (h : Ready context u idx links) (n : ℕ) :
    Reads (context.opened idx n) u links := by
  refine ⟨fun l hl sign => ?_, fun l hl => used_opened n (h.used l hl)⟩
  simp [linkLit, SubnetEncoderContext.lit, var_opened_of_lt (h.before l hl) (h.var l hl), litOf]

theorem Ready.lit (h : Ready context u idx links) (sign : Bool) :
    (context.opened idx 1).lit idx 0 sign = some (nextLit context sign) := by
  simp [SubnetEncoderContext.lit, var_opened h.pos Nat.zero_lt_one, nextLit]

theorem nextLit_mem : (nextLit context sign).var ∈ (context.opened idx 1).solver.used :=
  ⟨context.solver.varNum, Nat.lt_succ_self _, rfl⟩

/-- The cell has one new variable, whose literal stands for `f` of the values of the links. -/
def GateEncoded (context : SubnetEncoderContext) (u : EntryID → ℕ → Variable) (idx : EntryID)
    (links : List Link) (f : List Bool → Bool) (result : Option SubnetEncoderContext) : Prop :=
  ∃ s, result = some { context.opened idx 1 with solver := s } ∧
    Encodes (context.opened idx 1).solver s (fun α =>
      (nextLit context true).holds α = f (links.map (Link.value (valueOf u α))))

variable {cell : SubnetCell} {f : List Bool → Bool}

theorem Ready.encodeConst (value : Bool) (h : Ready context u idx cell.links)
    (hn : cell.links.length = 0) :
    GateEncoded context u idx cell.links (fun _ => value)
      (SubnetEncoder.encodeConst value cell idx context) := by
  refine ⟨(context.opened idx 1).solver.addClause [nextLit context value], ?_, ?_⟩
  · simp only [SubnetEncoder.encodeConst, SubnetCell.arity, hn, if_true, setVar, setVars_eq h.pos,
      h.lit, bind_eq_bind, bind_some]
    rfl
  · refine (encodes_addClause (by simpa using nextLit_mem)).congr (fun α => ?_)
    cases value <;> simp [nextLit_false]

theorem Ready.encodeBuf (h : Ready context u idx cell.links) (hn : cell.links.length = 1)
    (hf : ∀ b, f [b] = b) :
    GateEncoded context u idx cell.links f (SubnetEncoder.encodeBuf cell idx context) := by
  obtain ⟨l, hl⟩ := length_eq_one_iff.mp hn
  have hread := h.reads 1
  have hmem : l ∈ cell.links := by simp [hl]
  refine ⟨Solver.encodeBuf (nextLit context true) (litOf u true l) (context.opened idx 1).solver,
    ?_, ?_⟩
  · have hget : cell.links[0]? = some l := by simp [hl]
    simp only [SubnetEncoder.encodeBuf, SubnetCell.arity, hn, if_true, setVar, setVars_eq h.pos,
      h.lit, bind_eq_bind, bind_some, hget, hread.lit l hmem]
    rfl
  · refine (encodes_buf nextLit_mem (hread.used l hmem)).congr (fun α => ?_)
    rw [litOf_true, hl, map_singleton, hf]

theorem Ready.encodeAnd (h : Ready context u idx cell.links) (hn : cell.links.length ≠ 0) :
    GateEncoded context u idx cell.links (fun xs => xs.all id)
      (SubnetEncoder.encodeAnd cell idx context) := by
  by_cases h1 : cell.links.length = 1
  · simp only [SubnetEncoder.encodeAnd, encodeCollected, SubnetCell.arity, h1, if_true]
    exact h.encodeBuf h1 (by simp)
  · have hread := h.reads 1
    obtain ⟨s, hs, hemit⟩ := collectLoop_eq true [nextLit context true] hread
      (h.lit false) nextLit_mem (by simpa using nextLit_mem)
    refine ⟨s, ?_, _, hemit, ?_⟩
    · simp only [SubnetEncoder.encodeAnd, encodeCollected, SubnetCell.arity, h1, hn,
        if_false, setVar, setVars_eq h.pos, h.lit, bind_eq_bind, bind_some, hs]
    · refine (says_collected (fun α => nextLit_false) (fun l _ α => ?_)).congr (fun α => ?_)
      · rw [Bool.not_true, litOf_false, litOf_true]
      · simp only [all_map, litOf_true]
        rfl

theorem Ready.encodeOr (h : Ready context u idx cell.links) (hn : cell.links.length ≠ 0) :
    GateEncoded context u idx cell.links (fun xs => xs.any id)
      (SubnetEncoder.encodeOr cell idx context) := by
  by_cases h1 : cell.links.length = 1
  · simp only [SubnetEncoder.encodeOr, encodeCollected, SubnetCell.arity, h1, if_true]
    exact h.encodeBuf h1 (by simp)
  · have hread := h.reads 1
    obtain ⟨s, hs, hemit⟩ := collectLoop_eq false [nextLit context false] hread
      (h.lit true) nextLit_mem (by simpa using nextLit_mem)
    refine ⟨s, ?_, _, hemit, ?_⟩
    · simp only [SubnetEncoder.encodeOr, encodeCollected, SubnetCell.arity, h1, hn,
        if_false, setVar, setVars_eq h.pos, h.lit, bind_eq_bind, bind_some, hs]
    · refine (says_collected (fun α => ?_) (fun l _ α => ?_)).congr (fun α => ?_)
      · rw [nextLit_false, Bool.not_not]
      · rw [Bool.not_false, litOf_false, litOf_true, Bool.not_not]
      · have hall : cell.links.all (fun l => (litOf u false l).holds α) =
            !(cell.links.map (Link.value (valueOf u α))).any id := by
          simp only [litOf_false, any_map, not_any_eq_all_not]
          rfl
        rw [nextLit_false, hall, Bool.not_inj_iff]

theorem Ready.encodeXor (h : Ready context u idx cell.links) (hn : cell.links.length ≠ 0) :
    GateEncoded context u idx cell.links (fun xs => xs.foldr xor false)
      (SubnetEncoder.encodeXor cell idx context) := by
  by_cases h1 : cell.links.length = 1
  · simp only [SubnetEncoder.encodeXor, SubnetCell.arity, h1, if_true]
    exact h.encodeBuf h1 (by simp)
  · obtain ⟨l, links, hl⟩ := exists_cons_of_ne_nil (ne_nil_of_length_pos
      (Nat.pos_of_ne_zero hn))
    have hne : links ≠ [] := by
      intro hnil
      simp [hl, hnil] at h1
    have hread := h.reads 1
    rw [hl] at hread
    obtain ⟨s, hs, henc⟩ := xorLoop_eq hread hne h.inj nextLit_mem
    refine ⟨s, ?_, hl ▸ henc⟩
    rw [← hl] at hs
    simp only [SubnetEncoder.encodeXor, SubnetCell.arity, h1, hn, if_false, setVar,
      setVars_eq h.pos, h.lit, bind_eq_bind, bind_some, hs]

theorem Ready.encodeMaj (h : Ready context u idx cell.links)
    (hn : cell.links.length = 1 ∨ cell.links.length = 3) :
    GateEncoded context u idx cell.links (fun xs => xs.length < 2 * xs.count true)
      (SubnetEncoder.encodeMaj cell idx context) := by
  rcases hn with h1 | h3
  · simp only [SubnetEncoder.encodeMaj, SubnetCell.arity, h1, if_true]
    exact h.encodeBuf h1 (by simp)
  · obtain ⟨a, b, c, hl⟩ := length_eq_three.mp h3
    have hread := h.reads 1
    rw [hl] at hread
    refine ⟨Solver.encodeMaj (nextLit context true) (litOf u true a) (litOf u true b)
      (litOf u true c) (context.opened idx 1).solver, ?_, ?_⟩
    · simp only [SubnetEncoder.encodeMaj, SubnetCell.arity, hl, length_cons, length_nil,
        setVar, setVars_eq h.pos, h.lit, bind_eq_bind, bind_some]
      simp [hread.lit a, hread.lit b, hread.lit c, emit]
    · have hmem : ∀ l ∈ [a, b, c], (litOf u true l).var ∈ (context.opened idx 1).solver.used :=
        hread.used
      have hnext : (nextLit context true).var ∈ (context.opened idx 1).solver.used := nextLit_mem
      have henc := encodes_maj (s := (context.opened idx 1).solver) h.inj hnext
        (hmem a (by simp)) (hmem b (by simp)) (hmem c (by simp))
      refine henc.congr (fun α => ?_)
      simp only [litOf_true, hl, map_cons, map_nil]
      cases a.value (valueOf u α) <;> cases b.value (valueOf u α) <;>
        cases c.value (valueOf u α) <;> simp

end SubnetEncoder

end UtopiaEda
