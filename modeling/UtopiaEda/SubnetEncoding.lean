import UtopiaEda.GateEncoding

/-!
# The encoding of a whole subnet

By induction on the cells: the clauses so far determine the literals of the cells encoded so far,
and every assignment of the variables that existed before extends to them. A cell with a subnet
adds the clauses of the inner subnet and binds its inputs and outputs.
-/
namespace UtopiaEda

open List
open Option (bind_eq_bind bind_some map_some getD_some)
open Clauses Solver SubnetEncoderContext

namespace SubnetEncoder

variable {types : List SubnetType} {lib : CellLibrary} {context context' : SubnetEncoderContext}
  {u : EntryID → ℕ → Variable} {idx i : EntryID} {c : SubnetCell} {s s' : Solver} {n m : ℕ}
  {cs : List (Clause Variable)} {S : Subnet} {α β : Variable → Bool}

/-- The value of the output `k` of the cell whose variables are created from the `m`-th on. -/
def outValue (s : Solver) (m : ℕ) (α : Variable → Bool) (k : ℕ) : Bool :=
  (makeLit (s.varID (m + k)) true).holds α

structure CellEncoded (lib : CellLibrary) (context context' : SubnetEncoderContext)
    (u : EntryID → ℕ → Variable) (idx : EntryID) (c : SubnetCell) (n m : ℕ)
    (cs : List (Clause Variable)) : Prop where
  next : context'.next = context.next.set idx (context.vars.length + n)
  vars : context'.vars = context.vars ++ (range n).map (fun k => context.solver.varID (m + k))
  emits : Emits context.solver context'.solver cs
  low : context.solver.varNum ≤ m
  high : m + n ≤ context'.solver.varNum
  sound : ∀ α, Sat α cs → c.type ≠ .IN → ∀ k < n, outValue context.solver m α k =
    c.type.eval lib (c.links.map (Link.value (valueOf u α))) k
  complete : ∀ α (f : ℕ → Bool), (c.type ≠ .IN → ∀ k < n, f k =
    c.type.eval lib (c.links.map (Link.value (valueOf u α))) k) →
    ∃ β, Set.EqOn α β context.solver.used ∧ Sat β cs ∧ ∀ k < n, outValue context.solver m β k = f k

private theorem exists_outs (hinj : Function.Injective s.varID) (α : Variable → Bool)
    (f : ℕ → Bool) : ∀ n, ∃ β, Set.EqOn α β s.used ∧ ∀ k < n, outValue s s.varNum β k = f k := by
  intro n
  induction n with
  | zero => exact ⟨α, Set.eqOn_refl α _, fun k hk => absurd hk (Nat.not_lt_zero k)⟩
  | succ n ih =>
    obtain ⟨β, hβ, hout⟩ := ih
    refine ⟨Function.update β (s.varID (s.varNum + n)) (!f n), fun v hv => ?_, fun k hk => ?_⟩
    · have hne : v ≠ s.varID (s.varNum + n) := by
        intro heq
        obtain ⟨j, hj, hjv⟩ := hv
        have := hinj (hjv.trans heq)
        omega
      rw [Function.update_of_ne hne, hβ hv]
    · rcases Nat.lt_succ_iff_lt_or_eq.mp hk with hlt | rfl
      · have hne : s.varID (s.varNum + k) ≠ s.varID (s.varNum + n) := by
          intro heq
          have := hinj heq
          omega
        rw [← hout k hlt]
        simp only [outValue, makeLit, Literal.holds, Function.update_of_ne hne]
      · simp [outValue, makeLit, Literal.holds]

private theorem opened_emits (n : ℕ) : Emits context.solver (context.opened idx n).solver [] :=
  ⟨rfl, Nat.le_add_right _ _, by simp [opened], fun c hc => by cases hc⟩

private theorem outValue_congr {U : Set Variable} {k : ℕ} (hk : s.varID (m + k) ∈ U)
    (h : Set.EqOn α β U) : outValue s m α k = outValue s m β k :=
  Literal.holds_congr hk h

private theorem out_mem {k : ℕ} (hk : k < n) :
    context.solver.varID (context.solver.varNum + k) ∈ (context.opened idx n).solver.used :=
  ⟨context.solver.varNum + k, Nat.add_lt_add_left hk _, rfl⟩

theorem GateEncoded.cellEncoded {f : List Bool → Bool} {result : Option SubnetEncoderContext}
    (h : GateEncoded context u idx c.links f result) (hr : Ready context u idx c.links)
    (ht : c.type ≠ .IN) (hf : ∀ xs, c.type.eval lib xs 0 = f xs) :
    ∃ context' m cs, result = some context' ∧ CellEncoded lib context context' u idx c 1 m cs := by
  obtain ⟨s, hs, cs, hemit, hsays⟩ := h
  refine ⟨_, context.solver.varNum, cs, hs, rfl, rfl, (opened_emits 1).trans hemit, Nat.le_refl _,
    hemit.vars, fun α hα _ k hk => ?_, fun α g hg => ?_⟩
  · obtain rfl : k = 0 := by omega
    rw [hf]
    exact hsays.sound α hα
  · obtain ⟨γ, hγ, hout⟩ := exists_outs hr.inj α g 1
    have hgate : (nextLit context true).holds γ = f (c.links.map (Link.value (valueOf u γ))) := by
      rw [← map_value_congr hr.used hγ, ← hf, ← hg ht 0 Nat.zero_lt_one]
      exact hout 0 Nat.zero_lt_one
    obtain ⟨β, hβ, hsat⟩ := hsays.complete γ hgate
    refine ⟨β, hγ.trans (hβ.mono (used_opened 1)), hsat, fun k hk => ?_⟩
    rw [← outValue_congr (@out_mem _ idx _ _ hk) hβ]
    exact hout k hk

/-- An input gets a variable and no clauses. -/
theorem Ready.cellEncoded_in (h : Ready context u idx c.links) (ht : c.type = .IN)
    (hn : c.links.length = 0) : ∃ context' m cs, encodeIn c idx context = some context' ∧
      CellEncoded lib context context' u idx c 1 m cs := by
  refine ⟨context.opened idx 1, context.solver.varNum, [], ?_, rfl, rfl, opened_emits 1,
    Nat.le_refl _, Nat.le_refl _, fun α _ hne => absurd ht hne, fun α g _ => ?_⟩
  · simp only [encodeIn, SubnetCell.arity, hn, if_true, setVar, setVars_eq h.pos]
  · obtain ⟨γ, hγ, hout⟩ := exists_outs h.inj α g 1
    exact ⟨γ, hγ, sat_nil γ, hout⟩

private theorem encodes_bufs {a b : ℕ → Literal Variable} : ∀ {js : List ℕ} {s : Solver},
    (∀ j ∈ js, (a j).var ∈ s.used) → (∀ j ∈ js, (b j).var ∈ s.used) →
    Encodes s (js.foldl (fun s j => Solver.encodeBuf (a j) (b j) s) s)
      (fun α => ∀ j ∈ js, (a j).holds α = (b j).holds α) := by
  intro js
  induction js with
  | nil =>
    intro s _ _
    exact (Encodes.refl s).congr (by simp)
  | cons j js ih =>
    intro s ha hb
    rw [forall_mem_cons] at ha hb
    have hfirst := encodes_buf ha.1 hb.1
    have hrest := ih (s := Solver.encodeBuf (a j) (b j) s) ha.2 hb.2
    refine (hfirst.trans hrest (fun α β heq hα k hk => ?_)).congr (fun α => ?_)
    · rw [← Literal.holds_congr (ha.2 k hk) heq, ← Literal.holds_congr (hb.2 k hk) heq]
      exact hα k hk
    · rw [forall_mem_cons]

private theorem bindInputs_eq {inner : SubnetEncoderContext} {a b : ℕ → Literal Variable} :
    ∀ {js : List ℕ} {context : SubnetEncoderContext},
    (∀ j ∈ js, inner.lit j 0 true = some (a j)) →
    (∀ j ∈ js, ∃ l, c.links[j]? = some l ∧ context.linkLit l true = some (b j)) →
    bindInputs c inner js context = some { context with
      solver := js.foldl (fun s j => Solver.encodeBuf (a j) (b j) s) context.solver } := by
  intro js
  induction js with
  | nil => intro context _ _; rfl
  | cons j js ih =>
    intro context ha hb
    rw [forall_mem_cons] at ha hb
    obtain ⟨l, hl, hlit⟩ := hb.1
    simp only [bindInputs, ha.1, hl, hlit, bind_eq_bind, bind_some]
    exact ih ha.2 hb.2

private theorem bindOutputs_eq {inner : SubnetEncoderContext} {out : EntryID}
    {a b : ℕ → Literal Variable} : ∀ {js : List ℕ} {context : SubnetEncoderContext},
    (∀ j ∈ js, context.lit idx j true = some (a j)) →
    (∀ j ∈ js, inner.lit (out + j) 0 true = some (b j)) →
    bindOutputs idx out inner js context = some { context with
      solver := js.foldl (fun s j => Solver.encodeBuf (a j) (b j) s) context.solver } := by
  intro js
  induction js with
  | nil => intro context _ _; rfl
  | cons j js ih =>
    intro context ha hb
    rw [forall_mem_cons] at ha hb
    simp only [bindOutputs, ha.1, hb.1, bind_eq_bind, bind_some]
    exact ih ha.2 hb.2

structure SubnetEncoded (types : List SubnetType) (S : Subnet) (s : Solver)
    (context : SubnetEncoderContext) (u : EntryID → ℕ → Variable) (cs : List (Clause Variable)) :
    Prop where
  emits : Emits s context.solver cs
  var : ∀ i c, S.getCell i = some c → ∀ out < c.outputs types, context.var i out = some (u i out)
  fresh : ∀ i c, S.getCell i = some c → ∀ out < c.outputs types,
    ∃ k, s.varNum ≤ k ∧ k < context.solver.varNum ∧ u i out = s.varID k
  inj : ∀ i c, S.getCell i = some c → ∀ out < c.outputs types,
    ∀ j c', S.getCell j = some c' → ∀ out' < c'.outputs types,
    u i out = u j out' → i = j ∧ out = out'
  sound : ∀ α x, Sat α cs → (∀ i < S.nIn, valueOf u α i 0 = x i) →
    ∀ i c, S.getCell i = some c → ∀ out < c.outputs types,
      S.value (SubnetType.library types) x i out = some (valueOf u α i out)
  complete : ∀ α (x : EntryID → Bool), ∃ β, Set.EqOn α β s.used ∧ Sat β cs ∧
    ∀ i < S.nIn, valueOf u β i 0 = x i

variable {T : SubnetType} {sid : ℕ} {inner : SubnetEncoderContext} {u₁ : EntryID → ℕ → Variable}
  {cs₁ : List (Clause Variable)}

private def innerLit (u₁ : EntryID → ℕ → Variable) (i : EntryID) : Literal Variable :=
  makeLit (u₁ i 0) true

/-- The literal of the `j`-th link of a cell. -/
private def argLit (u : EntryID → ℕ → Variable) (c : SubnetCell) (j : ℕ) : Literal Variable :=
  litOf u true (c.links.getD j ⟨0, 0, false⟩)

private theorem outputs_of_type (h : c.type = .IN ∨ c.type = .OUT) : c.outputs types = 1 := by
  rcases h with h | h <;> simp [SubnetCell.outputs, h]

theorem inner_input (hS : S.WellFormed) {j : ℕ} (hj : j < S.nIn) :
    ∃ c, S.getCell j = some c ∧ c.outputs types = 1 := by
  have hb := hS.bounds
  obtain ⟨c, hc⟩ := Option.isSome_iff_exists.mp (hS.ends j (.inl hj) (by omega))
  exact ⟨c, hc, outputs_of_type (.inl ((hS.input j c hc).mpr hj))⟩

private theorem inner_output (hS : S.WellFormed) {j : ℕ} (hj : j < S.nOut) :
    ∃ c, S.getCell (S.getOutIdx j) = some c ∧ c.outputs types = 1 := by
  have hb := hS.bounds
  have hle : S.size - S.nOut ≤ S.getOutIdx j := Nat.le_add_right _ _
  have hlt : S.size - S.nOut + j < S.size := by omega
  obtain ⟨c, hc⟩ := Option.isSome_iff_exists.mp (hS.ends _ (.inr hle) hlt)
  exact ⟨c, hc, outputs_of_type (.inr ((hS.output _ c hc).mpr hle))⟩

private theorem SubnetEncoded.single (h : SubnetEncoded types S s context u cs) {j : EntryID}
    (hj : ∃ c, S.getCell j = some c ∧ c.outputs types = 1) :
    context.lit j 0 true = some (innerLit u j) ∧ (innerLit u j).var ∈ context.solver.used ∧
      ∀ α x, Sat α cs → (∀ i < S.nIn, valueOf u α i 0 = x i) →
        S.value (SubnetType.library types) x j 0 = some ((innerLit u j).holds α) := by
  obtain ⟨c, hc, hout⟩ := hj
  have hlt : 0 < c.outputs types := hout ▸ Nat.zero_lt_one
  refine ⟨?_, ?_, fun α x hα hx => h.sound α x hα hx j c hc 0 hlt⟩
  · simp only [SubnetEncoderContext.lit, h.var j c hc 0 hlt]
    rfl
  · obtain ⟨k, -, hk, heq⟩ := h.fresh j c hc 0 hlt
    exact ⟨k, hk, by rw [h.emits.ids]; exact heq.symm⟩

private theorem argLit_holds {j : ℕ} (hj : j < c.links.length) :
    (argLit u c j).holds α = (c.links.map (Link.value (valueOf u α))).getD j false := by
  rw [argLit, litOf_true, getD_eq_getElem?_getD, getD_eq_getElem?_getD, getElem?_map,
    getElem?_eq_getElem hj]
  rfl

theorem Ready.encodeInner (h : Ready context u idx c.links) (ht : c.type = .soft sid)
    (hvalid : SubnetType.Valid types) (hT : types[sid]? = some T) (hn : c.links.length = T.inNum)
    {encode : Subnet → Solver → Option SubnetEncoderContext}
    (hrun : encode T.subnet context.solver = some inner)
    (henc : SubnetEncoded types T.subnet context.solver inner u₁ cs₁) :
    ∃ context' m cs, encodeInner encode T c idx context = some context' ∧
      CellEncoded (SubnetType.library types) context context' u idx c T.outNum m cs := by
  obtain ⟨hin, hout, -, hcode⟩ := hvalid sid T hT
  have hwf := hcode.wellFormed
  let context₂ := ({ context with solver := inner.solver } : SubnetEncoderContext).opened
    idx T.outNum
  have hsub₁ : context.solver.used ⊆ inner.solver.used := henc.emits.subset
  have hsub₂ : inner.solver.used ⊆ context₂.solver.used := used_subset rfl (Nat.le_add_right _ _)
  have hready : Ready { context with solver := inner.solver } u idx c.links :=
    ⟨henc.emits.ids ▸ h.inj, h.pos, h.before, h.var, fun l hl => hsub₁ (h.used l hl)⟩
  have hread := hready.reads T.outNum
  let outLit : ℕ → Literal Variable :=
    fun j => makeLit (inner.solver.varID (inner.solver.varNum + j)) true
  let resLit : ℕ → Literal Variable := fun j => innerLit u₁ (T.subnet.getOutIdx j)
  have hinput : ∀ j ∈ range T.inNum, _ := fun j hj =>
    henc.single (inner_input hwf (by rw [← hin]; exact mem_range.mp hj))
  have houtput : ∀ j ∈ range T.outNum, _ := fun j hj =>
    henc.single (inner_output hwf (by rw [← hout]; exact mem_range.mp hj))
  have hlink : ∀ j < T.inNum, c.links.getD j ⟨0, 0, false⟩ ∈ c.links ∧
      c.links[j]? = some (c.links.getD j ⟨0, 0, false⟩) := by
    intro j hj
    have hlt : j < c.links.length := hn ▸ hj
    rw [getD_eq_getElem?_getD, getElem?_eq_getElem hlt]
    exact ⟨getElem_mem hlt, rfl⟩
  let s₃ := (range T.inNum).foldl
    (fun s j => Solver.encodeBuf (innerLit u₁ j) (argLit u c j) s) context₂.solver
  let s₄ := (range T.outNum).foldl (fun s j => Solver.encodeBuf (outLit j) (resLit j) s) s₃
  have hbindIn : bindInputs c inner (range T.inNum) context₂ =
      some { context₂ with solver := s₃ } :=
    bindInputs_eq (fun j hj => (hinput j hj).1) (fun j hj =>
      have hl := hlink j (mem_range.mp hj)
      ⟨_, hl.2, hread.lit _ hl.1 true⟩)
  have hbindOut : bindOutputs idx (T.subnet.size - T.subnet.nOut) inner (range T.outNum)
      { context₂ with solver := s₃ } = some { context₂ with solver := s₄ } := by
    refine bindOutputs_eq (fun j hj => ?_) (fun j hj => (houtput j hj).1)
    have := var_opened hready.pos (mem_range.mp hj)
    rw [lit_solver, SubnetEncoderContext.lit, this]
    rfl
  have hencIn : Encodes context₂.solver s₃ (fun α => ∀ j ∈ range T.inNum,
      (innerLit u₁ j).holds α = (argLit u c j).holds α) :=
    encodes_bufs (fun j hj => hsub₂ (hinput j hj).2.1)
      (fun j hj => hread.used _ (hlink j (mem_range.mp hj)).1)
  have houtMem : ∀ j < T.outNum, (outLit j).var ∈ context₂.solver.used := fun j hj =>
    ⟨inner.solver.varNum + j, Nat.add_lt_add_left hj _, rfl⟩
  have hencOut : Encodes s₃ s₄ (fun α => ∀ j ∈ range T.outNum,
      (outLit j).holds α = (resLit j).holds α) := by
    obtain ⟨_, hemit, -⟩ := hencIn
    exact encodes_bufs (fun j hj => hemit.subset (houtMem j (mem_range.mp hj)))
      (fun j hj => hemit.subset (hsub₂ (houtput j hj).2.1))
  obtain ⟨cs₂, hemit, hsays⟩ := hencIn.trans hencOut (fun α β heq hα j hj => by
    rw [← Literal.holds_congr (houtMem j (mem_range.mp hj)) heq,
      ← Literal.holds_congr (hsub₂ (houtput j hj).2.1) heq]
    exact hα j hj)
  have hopened : Emits inner.solver context₂.solver [] :=
    ⟨rfl, Nat.le_add_right _ _, (append_nil _).symm, fun c hc => by cases hc⟩
  have hemits : Emits context.solver s₄ (cs₁ ++ ([] ++ cs₂)) :=
    henc.emits.trans (hopened.trans hemit)
  -- where the inputs are bound, the inner subnet computes the outputs of the cell
  have hval : ∀ α, Sat α cs₁ → (∀ j ∈ range T.inNum,
      (innerLit u₁ j).holds α = (argLit u c j).holds α) → ∀ k < T.outNum, (resLit k).holds α =
      c.type.eval (SubnetType.library types) (c.links.map (Link.value (valueOf u α))) k := by
    intro α hα hbind k hk
    have hinputs : ∀ i < T.subnet.nIn, valueOf u₁ α i 0 =
        (c.links.map (Link.value (valueOf u α))).getD i false := by
      intro i hi
      rw [← hin] at hi
      rw [← argLit_holds (hn ▸ hi)]
      exact hbind i (mem_range.mpr hi)
    have hres := (houtput k (mem_range.mpr hk)).2.2 α _ hα hinputs
    rw [ht, CellTypeID.eval, hvalid.consistent.library_eval hT, hres]
    rfl
  refine ⟨{ context₂ with solver := s₄ }, inner.solver.varNum, cs₁ ++ ([] ++ cs₂), ?_, rfl,
    ?_, hemits, henc.emits.vars, hemit.vars, fun α hα _ k hk => ?_, fun α f hf => ?_⟩
  · simp only [SubnetEncoder.encodeInner, hin, hout, and_self, if_true, hrun, bind_eq_bind,
      bind_some]
    rw [← hin, ← hout, setVars_eq hready.pos]
    simp only [bind_some]
    rw [hbindIn, bind_some, ← hbindOut, hout]
  · simp only [context₂, opened, henc.emits.ids]
  · simp only [sat_append, sat_nil, true_and] at hα
    obtain ⟨hbindIn, hbindOut⟩ := hsays.sound α hα.2
    have hres := hbindOut k (mem_range.mpr hk)
    rw [hval α hα.1 hbindIn k hk] at hres
    rw [← hres, outValue, ← henc.emits.ids]
  · obtain ⟨β, hβ, hsat, hinputs⟩ := henc.complete α
      (fun i => (c.links.map (Link.value (valueOf u α))).getD i false)
    obtain ⟨γ, hγ, houts⟩ := exists_outs hready.inj β f T.outNum
    have hαγ : Set.EqOn α γ context.solver.used := hβ.trans (hγ.mono hsub₁)
    have hargs := map_value_congr h.used hαγ
    have hsatγ : Sat γ cs₁ := hsat.congr henc.emits.within hγ
    have hbind : ∀ j ∈ range T.inNum, (innerLit u₁ j).holds γ = (argLit u c j).holds γ := by
      intro j hj
      have hlt := mem_range.mp hj
      rw [← Literal.holds_congr (hinput j hj).2.1 hγ, argLit_holds (hn ▸ hlt), ← hargs]
      exact hinputs j (hin ▸ hlt)
    have hbind' : ∀ j ∈ range T.outNum, (outLit j).holds γ = (resLit j).holds γ := by
      intro j hj
      have hlt := mem_range.mp hj
      rw [hval γ hsatγ hbind j hlt, ← hargs, ← hf (by simp [ht]) j hlt]
      exact houts j hlt
    obtain ⟨δ, hδ, hsatδ⟩ := hsays.complete γ ⟨hbind, hbind'⟩
    refine ⟨δ, hαγ.trans (hδ.mono (hsub₁.trans hsub₂)), ?_, fun k hk => ?_⟩
    · simp only [sat_append, sat_nil, true_and]
      exact ⟨hsatγ.congr (henc.emits.within.mono hsub₂) hδ, hsatδ⟩
    · have hkeep : outValue inner.solver inner.solver.varNum γ k = outValue inner.solver
          inner.solver.varNum δ k := outValue_congr (houtMem k hk) hδ
      rw [← houts k hk, hkeep, outValue, outValue, henc.emits.ids]

theorem Ready.encodeCell {bound : ℕ} (h : Ready context u idx c.links)
    (hvalid : SubnetType.Valid types) (hsupp : c.Supported types bound)
    {encode : Subnet → Solver → Option SubnetEncoderContext}
    (henc : ∀ sid (T : SubnetType), c.type = .soft sid → types[sid]? = some T →
      ∃ inner u₁ cs₁, encode T.subnet context.solver = some inner ∧
        SubnetEncoded types T.subnet context.solver inner u₁ cs₁) :
    ∃ context' m cs, encodeCell types encode c idx context = some context' ∧
      CellEncoded (SubnetType.library types) context context' u idx c (c.outputs types) m cs := by
  unfold SubnetCell.Supported at hsupp
  unfold SubnetEncoder.encodeCell SubnetCell.outputs
  cases ht : c.type with
  | IN =>
    rw [ht] at hsupp
    exact h.cellEncoded_in ht hsupp
  | OUT =>
    rw [ht] at hsupp
    refine (h.encodeBuf (f := fun xs => xs.headD false) hsupp (fun b => rfl)).cellEncoded
      h ?_ ?_ <;> simp [ht, CellTypeID.eval]
  | ZERO =>
    rw [ht] at hsupp
    refine (h.encodeConst false hsupp).cellEncoded h ?_ ?_ <;> simp [ht, CellTypeID.eval]
  | ONE =>
    rw [ht] at hsupp
    refine (h.encodeConst true hsupp).cellEncoded h ?_ ?_ <;> simp [ht, CellTypeID.eval]
  | BUF =>
    rw [ht] at hsupp
    refine (h.encodeBuf (f := fun xs => xs.headD false) hsupp (fun b => rfl)).cellEncoded
      h ?_ ?_ <;> simp [ht, CellTypeID.eval]
  | AND =>
    rw [ht] at hsupp
    refine (h.encodeAnd hsupp).cellEncoded h ?_ ?_ <;> simp [ht, CellTypeID.eval]
  | OR =>
    rw [ht] at hsupp
    refine (h.encodeOr hsupp).cellEncoded h ?_ ?_ <;> simp [ht, CellTypeID.eval]
  | XOR =>
    rw [ht] at hsupp
    refine (h.encodeXor hsupp).cellEncoded h ?_ ?_ <;> simp [ht, CellTypeID.eval]
  | MAJ =>
    rw [ht] at hsupp
    refine (h.encodeMaj hsupp).cellEncoded h ?_ ?_ <;> simp [ht, CellTypeID.eval]
  | soft sid =>
    rw [ht] at hsupp
    obtain ⟨T, hT, hin⟩ := Option.map_eq_some_iff.mp hsupp.2
    obtain ⟨inner, u₁, cs₁, hrun, hinner⟩ := henc sid T ht hT
    obtain ⟨context', m, cs, hc, hcell⟩ := h.encodeInner ht hvalid hT hin.symm hrun hinner
    refine ⟨context', m, cs, ?_, ?_⟩
    · simpa only [hT, bind_eq_bind, bind_some] using hc
    · simpa only [hT, map_some, getD_some] using hcell
  | _ => simp only [ht] at hsupp

structure PrefixEncoded (types : List SubnetType) (S : Subnet) (s : Solver) (i : EntryID)
    (context : SubnetEncoderContext) (u : EntryID → ℕ → Variable) (cs : List (Clause Variable)) :
    Prop where
  emits : Emits s context.solver cs
  length : context.next.length = S.size
  here : i < S.size → context.pos i 0 = some context.vars.length ∧ (S.getCell i).isSome
  var : ∀ j < i, ∀ c, S.getCell j = some c → ∀ out < c.outputs types,
    context.var j out = some (u j out)
  fresh : ∀ j < i, ∀ c, S.getCell j = some c → ∀ out < c.outputs types,
    ∃ k, s.varNum ≤ k ∧ k < context.solver.varNum ∧ u j out = s.varID k
  inj : ∀ j < i, ∀ c, S.getCell j = some c → ∀ out < c.outputs types,
    ∀ j' < i, ∀ c', S.getCell j' = some c' → ∀ out' < c'.outputs types,
    u j out = u j' out' → j = j' ∧ out = out'
  sound : ∀ α x, Sat α cs → (∀ j < i, j < S.nIn → valueOf u α j 0 = x j) →
    ∀ j < i, ∀ c, S.getCell j = some c → ∀ out < c.outputs types,
      S.value (SubnetType.library types) x j out = some (valueOf u α j out)
  complete : ∀ α (x : EntryID → Bool), ∃ β, Set.EqOn α β s.used ∧ Sat β cs ∧
    ∀ j < i, j < S.nIn → valueOf u β j 0 = x j

private theorem skipNextVars_eq (hlt : idx + n < context.next.length) :
    ∃ next, context.skipNextVars idx n = some { context with next } ∧
      next.length = context.next.length ∧ next.getD (idx + n) 0 = context.next.getD idx 0 ∧
      ∀ k < idx, next.getD k 0 = context.next.getD k 0 := by
  by_cases hn : n = 0
  · subst hn
    exact ⟨context.next, by simp [skipNextVars], rfl, rfl, fun _ _ => rfl⟩
  · refine ⟨(context.next.set (idx + n) (context.next.getD idx 0)).set idx 0, ?_, by simp, ?_,
      fun k hk => ?_⟩
    · simp only [skipNextVars, hn, if_false, hlt, if_true]
    · rw [getD_eq_getElem?_getD, getElem?_set_ne (by omega), getElem?_set_self hlt]
      rfl
    · simp only [getD_eq_getElem?_getD]
      rw [getElem?_set_ne (Nat.ne_of_gt hk),
        getElem?_set_ne (Nat.ne_of_gt (Nat.lt_of_lt_of_le hk (Nat.le_add_right idx n)))]

theorem PrefixEncoded.init (hS : S.Encodable types n) (s : Solver) :
    PrefixEncoded types S s 0 (.init S s) u [] := by
  constructor
  · exact Emits.refl s
  · simp [SubnetEncoderContext.init]
  · intro hlt
    exact ⟨by simp [pos, SubnetEncoderContext.init, hlt], hS.first hlt⟩
  · intro j hj
    exact absurd hj (Nat.not_lt_zero j)
  · intro j hj
    exact absurd hj (Nat.not_lt_zero j)
  · intro j hj
    exact absurd hj (Nat.not_lt_zero j)
  · intro α x _ _ j hj
    exact absurd hj (Nat.not_lt_zero j)
  · intro α x
    exact ⟨α, Set.eqOn_refl α _, sat_nil α, fun j hj => absurd hj (Nat.not_lt_zero j)⟩

private theorem PrefixEncoded.ready (h : PrefixEncoded types S s i context u cs)
    (hS : S.Encodable types n) (hinj : Function.Injective s.varID) (hc : S.getCell i = some c) :
    Ready context u i c.links := by
  have hlink : ∀ l ∈ c.links, ∃ c', S.getCell l.idx = some c' ∧ l.idx < i ∧
      l.out < c'.outputs types := by
    intro l hl
    obtain ⟨hlt, c', hc', -⟩ := hS.wellFormed.links i c hc l hl
    exact ⟨c', hc', hlt, hS.ports i c hc l hl c' hc'⟩
  refine ⟨h.emits.ids ▸ hinj, (h.here (Subnet.lt_of_getCell hc)).1, fun l hl => ?_, fun l hl => ?_,
    fun l hl => ?_⟩
  · obtain ⟨c', -, hlt, -⟩ := hlink l hl
    exact hlt
  · obtain ⟨c', hc', hlt, hout⟩ := hlink l hl
    exact h.var l.idx hlt c' hc' l.out hout
  · obtain ⟨c', hc', hlt, hout⟩ := hlink l hl
    obtain ⟨k, -, hk, heq⟩ := h.fresh l.idx hlt c' hc' l.out hout
    exact ⟨k, hk, by rw [h.emits.ids]; exact heq.symm⟩

private theorem outputs_pos (hvalid : SubnetType.Valid types) (h : c.Supported types n) :
    0 < c.outputs types := by
  unfold SubnetCell.Supported at h
  unfold SubnetCell.outputs
  cases ht : c.type with
  | soft sid =>
    rw [ht] at h
    obtain ⟨T, hT, -⟩ := Option.map_eq_some_iff.mp h.2
    simpa only [hT, map_some, getD_some] using (hvalid sid T hT).2.2.1
  | _ => exact Nat.zero_lt_one

theorem PrefixEncoded.step (h : PrefixEncoded types S s i context u cs) (hS : S.Encodable types n)
    (hvalid : SubnetType.Valid types) (hinj : Function.Injective s.varID)
    (hc : S.getCell i = some c)
    (hcell : CellEncoded (SubnetType.library types) context context' u i c
      (c.outputs types) m cs₁) :
    ∃ context'' u', context'.skipNextVars i c.more = some context'' ∧
      PrefixEncoded types S s (i + c.more + 1) context'' u' (cs ++ cs₁) := by
  have hids := h.emits.ids
  have hready := h.ready hS hinj hc
  have hlen : context'.next.length = S.size := by rw [hcell.next, length_set, h.length]
  have hwithin : i + c.more < context'.next.length := hlen ▸ hS.within i c hc
  have hi : i < context.next.length := h.length ▸ Subnet.lt_of_getCell hc
  obtain ⟨next, hskip, hnextLen, hnextLast, hnextOld⟩ := skipNextVars_eq hwithin
  let context'' : SubnetEncoderContext := { context' with next }
  let u' := Function.update u i (fun out => context.solver.varID (m + out))
  have hu : ∀ j, j ≠ i → u' j = u j := fun j hj => Function.update_of_ne hj _ _
  have hui : ∀ out, u' i out = context.solver.varID (m + out) := fun out => by simp [u']
  -- the entries up to the next cell hold the cell `i` and earlier ones
  have hsplit : ∀ j < i + c.more + 1, ∀ c', S.getCell j = some c' → j < i ∨ j = i ∧ c' = c := by
    intro j hj c' hc'
    rcases Nat.lt_trichotomy j i with hlt | rfl | hgt
    · exact .inl hlt
    · exact .inr ⟨rfl, Option.some.inj (hc'.symm.trans hc)⟩
    · rw [hS.skipped i c hc j hgt (Nat.lt_succ_iff.mp hj)] at hc'
      cases hc'
  have hposOld : ∀ j ≤ i, ∀ out, context''.pos j out = context.pos j out := by
    intro j hj out
    apply pos_congr
    · rw [hnextLen, hlen, h.length]
    · intro k hk
      have hki : k < i := Nat.lt_of_lt_of_le hk hj
      rw [hnextOld k hki, hcell.next, getD_eq_getElem?_getD,
        getElem?_set_ne (Nat.ne_of_gt hki), getD_eq_getElem?_getD]
  have hvarOld : ∀ j < i, ∀ out v, context.var j out = some v → context''.var j out = some v := by
    intro j hj out v hv
    simp only [SubnetEncoderContext.var, hposOld j (Nat.le_of_lt hj), bind_eq_bind] at hv ⊢
    obtain ⟨p, hp, hv⟩ := Option.bind_eq_some_iff.mp hv
    rw [hp, bind_some, hcell.vars, getElem?_append_left (List.getElem?_eq_some_iff.mp hv).1, hv]
  have hvarNew : ∀ out < c.outputs types, context''.var i out = some (u' i out) := by
    intro out hout
    simp only [SubnetEncoderContext.var, hposOld i (Nat.le_refl i), pos_add hready.pos,
      bind_eq_bind, bind_some, hui]
    simp [context'', hcell.vars, hout]
  have hvalue : ∀ α j, j < i → valueOf u' α j = valueOf u α j := fun α j hj => by
    funext out
    rw [valueOf, valueOf, hu j (Nat.ne_of_lt hj)]
  have hvalueNew : ∀ α out, valueOf u' α i out = outValue context.solver m α out := fun α out => by
    rw [valueOf, hui, outValue]
  -- the values of the links come from earlier cells
  have hlinks : ∀ α x, Sat α cs → (∀ j < i, j < S.nIn → valueOf u α j 0 = x j) → ∀ l ∈ c.links,
      S.value (SubnetType.library types) x l.idx l.out = some (valueOf u α l.idx l.out) := by
    intro α x hα hx l hl
    obtain ⟨hlt, c', hc', -⟩ := hS.wellFormed.links i c hc l hl
    exact h.sound α x hα hx l.idx hlt c' hc' l.out (hS.ports i c hc l hl c' hc')
  refine ⟨context'', u', hskip, h.emits.trans hcell.emits, hnextLen.trans hlen, fun hlt => ⟨?_, ?_⟩,
    ?_, ?_, ?_, ?_, ?_⟩
  · have hlast : next.getD (i + c.more) 0 = context.vars.length + c.outputs types := by
      rw [hnextLast, hcell.next, getD_eq_getElem?_getD, getElem?_set_self hi]
      rfl
    have hpos := outputs_pos hvalid (hS.supported i c hc)
    have hvars : context''.vars.length = context.vars.length + c.outputs types := by
      simp [context'', hcell.vars]
    simp only [pos]
    rw [if_pos ⟨(hnextLen.trans hlen).symm ▸ hlt, by simp only [context'', hlast]; omega⟩, hvars]
    exact congrArg some hlast
  · exact hS.following i c hc hlt
  · intro j hj c' hc' out hout
    rcases hsplit j hj c' hc' with hlt | ⟨rfl, rfl⟩
    · rw [hu j (Nat.ne_of_lt hlt)]
      exact hvarOld j hlt out _ (h.var j hlt c' hc' out hout)
    · exact hvarNew out hout
  · intro j hj c' hc' out hout
    rcases hsplit j hj c' hc' with hlt | ⟨rfl, rfl⟩
    · obtain ⟨k, hlow, hhigh, heq⟩ := h.fresh j hlt c' hc' out hout
      exact ⟨k, hlow, Nat.lt_of_lt_of_le hhigh hcell.emits.vars, by rw [hu j (Nat.ne_of_lt hlt),
        heq]⟩
    · refine ⟨m + out, Nat.le_trans h.emits.vars (Nat.le_trans hcell.low (Nat.le_add_right _ _)),
        Nat.lt_of_lt_of_le (Nat.add_lt_add_left hout m) hcell.high, ?_⟩
      rw [hui, hids]
  · intro j hj c' hc' out hout j' hj' c'' hc'' out' hout' heq
    -- a variable of an earlier cell is older than one of the cell `i`
    have hold : ∀ k < i, ∀ b, S.getCell k = some b → ∀ o < b.outputs types, ∀ o' : ℕ,
        u' k o ≠ u' i o' := by
      intro k hk b hb o ho o' heq
      obtain ⟨p, -, hp, hpv⟩ := h.fresh k hk b hb o ho
      rw [hu k (Nat.ne_of_lt hk), hpv, hui, hids] at heq
      have hp' : p = m + o' := hinj heq
      have := hcell.low
      omega
    rcases hsplit j hj c' hc' with hlt | ⟨rfl, rfl⟩
    · rcases hsplit j' hj' c'' hc'' with hlt' | ⟨rfl, rfl⟩
      · rw [hu j (Nat.ne_of_lt hlt), hu j' (Nat.ne_of_lt hlt')] at heq
        exact h.inj j hlt c' hc' out hout j' hlt' c'' hc'' out' hout' heq
      · exact absurd heq (hold j hlt c' hc' out hout out')
    · rcases hsplit j' hj' c'' hc'' with hlt' | ⟨rfl, rfl⟩
      · exact absurd heq.symm (hold j' hlt' c'' hc'' out' hout' out)
      · rw [hui, hui, hids] at heq
        exact ⟨rfl, Nat.add_left_cancel (hinj heq)⟩
  · intro α x hα hx j hj c' hc' out hout
    rw [sat_append] at hα
    have hxOld : ∀ j < i, j < S.nIn → valueOf u α j 0 = x j := by
      intro j hj hjn
      rw [← hvalue α j hj]
      exact hx j (Nat.lt_of_lt_of_le hj (Nat.le_add_right i (c.more + 1))) hjn
    rcases hsplit j hj c' hc' with hlt | ⟨rfl, rfl⟩
    · rw [hvalue α j hlt]
      exact h.sound α x hα.1 hxOld j hlt c' hc' out hout
    · rw [hS.wellFormed.value_of_links hc (hlinks α x hα.1 hxOld), hvalueNew]
      split
      · rename_i ht
        have hzero : out = 0 := by
          rw [outputs_of_type (.inl ht)] at hout
          exact Nat.lt_one_iff.mp hout
        rw [hzero, ← hvalueNew, hx j hj ((hS.wellFormed.input j c' hc).mp ht)]
      · rename_i ht
        rw [hcell.sound α hα.2 ht out hout]
  · intro α x
    obtain ⟨β, hβ, hsat, hxβ⟩ := h.complete α x
    obtain ⟨γ, hγ, hsatγ, hout⟩ := hcell.complete β
      (fun k => if c.type = .IN then x i
        else c.type.eval (SubnetType.library types) (c.links.map (Link.value (valueOf u β))) k)
      (fun ht k _ => if_neg ht)
    refine ⟨γ, hβ.trans (hγ.mono h.emits.subset), ?_, fun j hj hjn => ?_⟩
    · exact sat_append.mpr ⟨hsat.congr h.emits.within hγ, hsatγ⟩
    · obtain ⟨c', hc'⟩ := Option.isSome_iff_exists.mp (hS.wellFormed.ends j (.inl hjn)
        (Nat.lt_of_lt_of_le hjn (Nat.le_trans (Nat.le_add_right _ _) hS.wellFormed.bounds)))
      rcases hsplit j hj c' hc' with hlt | ⟨rfl, rfl⟩
      · have hkeep : valueOf u β j 0 = valueOf u γ j 0 := by
          obtain ⟨k, -, hk, heq⟩ :=
            h.fresh j hlt c' hc' 0 (outputs_pos hvalid (hS.supported j c' hc'))
          have hmem : u j 0 ∈ context.solver.used := ⟨k, hk, by rw [hids]; exact heq.symm⟩
          exact Literal.holds_congr (l := makeLit (u j 0) true) hmem hγ
        rw [hvalue γ j hlt, ← hkeep]
        exact hxβ j hlt hjn
      · have ht : c'.type = .IN := (hS.wellFormed.input j c' hc).mpr hjn
        rw [hvalueNew, hout 0 (outputs_pos hvalid (hS.supported j c' hc)), if_pos ht]

private theorem encodeLoop_eq (hS : S.Encodable types n) (hvalid : SubnetType.Valid types)
    (hinj : Function.Injective s.varID) {encode : Subnet → Solver → Option SubnetEncoderContext}
    (henc : ∀ sid < n, ∀ T : SubnetType, types[sid]? = some T → ∀ s' : Solver,
      Function.Injective s'.varID → ∃ inner u₁ cs₁, encode T.subnet s' = some inner ∧
        SubnetEncoded types T.subnet s' inner u₁ cs₁) :
    ∀ {k : ℕ} {i : EntryID} {context : SubnetEncoderContext} {u : EntryID → ℕ → Variable}
      {cs : List (Clause Variable)}, PrefixEncoded types S s i context u cs → S.size ≤ i + k →
      ∃ context' u' cs', encodeLoop types encode S k i context = some context' ∧
        SubnetEncoded types S s context' u' cs' := by
  intro k
  have hdone : ∀ {i : EntryID} {context : SubnetEncoderContext} {u : EntryID → ℕ → Variable}
      {cs : List (Clause Variable)}, S.size ≤ i → PrefixEncoded types S s i context u cs →
      SubnetEncoded types S s context u cs := by
    intro i context u cs hi h
    have hlt : ∀ {j c}, S.getCell j = some c → j < i := fun hc =>
      Nat.lt_of_lt_of_le (Subnet.lt_of_getCell hc) hi
    have hb : S.nIn ≤ i := by
      have := hS.wellFormed.bounds
      exact Nat.le_trans (Nat.le_trans (Nat.le_add_right _ _) this) hi
    refine ⟨h.emits, fun j c hc => h.var j (hlt hc) c hc, fun j c hc => h.fresh j (hlt hc) c hc,
      fun j c hc out hout j' c' hc' => h.inj j (hlt hc) c hc out hout j' (hlt hc') c' hc',
      fun α x hα hx j c hc => h.sound α x hα (fun j _ hj => hx j hj) j (hlt hc) c hc, fun α x => ?_⟩
    obtain ⟨β, hβ, hsat, hx⟩ := h.complete α x
    exact ⟨β, hβ, hsat, fun j hj => hx j (Nat.lt_of_lt_of_le hj hb) hj⟩
  induction k with
  | zero =>
    intro i context u cs h hi
    have hle : S.size ≤ i := by simpa using hi
    refine ⟨context, u, cs, ?_, hdone hle h⟩
    rw [encodeLoop, if_neg (Nat.not_lt.mpr hle)]
  | succ k ih =>
    intro i context u cs h hi
    by_cases hlt : i < S.size
    · obtain ⟨c, hc⟩ := Option.isSome_iff_exists.mp (h.here hlt).2
      have hsupp := hS.supported i c hc
      have hready := h.ready hS hinj hc
      obtain ⟨context₁, m, cs₁, hrun, hcell⟩ := hready.encodeCell hvalid hsupp
        (fun sid T ht hT => henc sid (by
          simp only [SubnetCell.Supported, ht] at hsupp
          exact hsupp.1) T hT context.solver hready.inj)
      obtain ⟨context₂, u', hskip, h'⟩ := h.step hS hvalid hinj hc hcell
      have hleft : S.size ≤ i + c.more + 1 + k := by omega
      obtain ⟨context', u'', cs', hloop, henc'⟩ := ih h' hleft
      refine ⟨context', u'', cs', ?_, henc'⟩
      simp only [encodeLoop, hlt, if_true, hc, hrun, hskip, bind_eq_bind, bind_some, hloop]
    · refine ⟨context, u, cs, ?_, hdone (Nat.not_lt.mp hlt) h⟩
      rw [encodeLoop, if_neg hlt]

theorem encodeNested_eq (hvalid : SubnetType.Valid types) : ∀ {d : ℕ} {S : Subnet} {s : Solver},
    S.Encodable types d → Function.Injective s.varID →
    ∃ context u cs, encodeNested types d S s = some context ∧
      SubnetEncoded types S s context u cs := by
  intro d
  induction d with
  | zero =>
    intro S s hS hinj
    exact encodeLoop_eq hS hvalid hinj (fun sid hsid => absurd hsid (Nat.not_lt_zero sid))
      (.init hS s (u := fun _ _ => 0)) (Nat.le_add_left _ _)
  | succ d ih =>
    intro S s hS hinj
    refine encodeLoop_eq hS hvalid hinj (fun sid hsid T hT s' hinj' => ?_)
      (.init hS s (u := fun _ _ => 0)) (Nat.le_add_left _ _)
    have hT' := (hvalid sid T hT).2.2.2
    exact ih (hT'.mono (Nat.lt_succ_iff.mp hsid)) hinj'

/-- The literals of the inputs are true exactly where `x` is. -/
def InputsAre (S : Subnet) (context : SubnetEncoderContext) (x : EntryID → Bool)
    (α : Variable → Bool) : Prop :=
  ∀ i < S.nIn, ∃ l, context.lit i 0 true = some l ∧ l.holds α = x i

/-- Every output of a cell has a variable that is new and belongs to no other output. -/
def DistinctVars (types : List SubnetType) (S : Subnet) (s : Solver)
    (context : SubnetEncoderContext) : Prop :=
  ∀ i c, S.getCell i = some c → ∀ out < c.outputs types, ∃ v, context.var i out = some v ∧
    v ∉ s.used ∧ ∀ j c', S.getCell j = some c' → ∀ out' < c'.outputs types,
    context.var j out' = some v →
      j = i ∧ out' = out

/-- `encode` yields clauses that every assignment of the inputs can be extended to, and each of
its extensions makes the literal of a link true exactly when the link has the value 1. -/
theorem encode_faithful (hvalid : SubnetType.Valid types) (hS : S.Encodable types types.length)
    (s : Solver) (hinj : Function.Injective s.varID) :
    ∃ context cs, encode types S s = some context ∧ context.solver.clauses = s.clauses ++ cs ∧
      DistinctVars types S s context ∧ ∀ x : EntryID → Bool,
        (∀ α, ∃ β, Set.EqOn α β s.used ∧ Sat β cs ∧ InputsAre S context x β) ∧
        ∀ α, Sat α cs → InputsAre S context x α → ∀ link c, S.getCell link.idx = some c →
          link.out < c.outputs types → ∃ l, context.linkLit link true = some l ∧
            (S.value (SubnetType.library types) x link.idx link.out).map (xor · link.inv) =
              some (l.holds α) := by
  obtain ⟨context, u, cs, hrun, henc⟩ := encodeNested_eq hvalid hS hinj
  have hlit : ∀ i < S.nIn, context.lit i 0 true = some (innerLit u i) := fun i hi =>
    (henc.single (inner_input hS.wellFormed hi)).1
  refine ⟨context, cs, hrun, henc.emits.clauses, fun i c hc out hout => ?_,
    fun x => ⟨fun α => ?_, ?_⟩⟩
  · obtain ⟨k, hlow, -, heq⟩ := henc.fresh i c hc out hout
    refine ⟨u i out, henc.var i c hc out hout, ?_, fun j c' hc' out' hout' hv => ?_⟩
    · intro hmem
      obtain ⟨k', hk', heq'⟩ := hmem
      exact Nat.not_lt.mpr hlow (hinj (heq'.trans heq) ▸ hk')
    · rw [henc.var j c' hc' out' hout', Option.some.injEq] at hv
      exact henc.inj j c' hc' out' hout' i c hc out hout hv
  · obtain ⟨β, hβ, hsat, hx⟩ := henc.complete α x
    exact ⟨β, hβ, hsat, fun i hi => ⟨_, hlit i hi, hx i hi⟩⟩
  · intro α hα hx link c hc hout
    have hvalues : ∀ i < S.nIn, valueOf u α i 0 = x i := by
      intro i hi
      obtain ⟨l, hl, hlx⟩ := hx i hi
      rw [hlit i hi, Option.some.injEq] at hl
      rw [← hlx, ← hl]
      rfl
    refine ⟨litOf u true link, ?_, ?_⟩
    · simp [linkLit, SubnetEncoderContext.lit, henc.var link.idx c hc link.out hout, litOf]
    · rw [henc.sound α x hα hvalues link.idx c hc link.out hout, litOf_true]
      rfl

/-- An executable condition for `Encodable`. -/
def checkEncodable (types : List SubnetType) (bound : ℕ) (S : Subnet) : Bool :=
  decide (S.nIn + S.nOut ≤ S.size) && decide (0 < S.size → (S.getCell 0).isSome) &&
  (range S.size).all fun i =>
    match S.getCell i with
    | none => decide (S.nIn ≤ i ∧ i < S.size - S.nOut)
    | some c => decide (c.type = .IN ↔ i < S.nIn) && decide (c.type = .OUT ↔ S.size - S.nOut ≤ i) &&
      decide (c.Supported types bound) && decide (i + c.more < S.size) &&
      (range c.more).all (fun k => (S.getCell (i + 1 + k)).isNone) &&
      decide (i + c.more + 1 < S.size → (S.getCell (i + c.more + 1)).isSome) &&
      c.links.all fun l => decide (l.idx < i) &&
        (S.getCell l.idx).any fun c' => decide (c'.type ≠ .OUT) && decide (l.out < c'.outputs types)

theorem encodable_of_check (h : checkEncodable types n S = true) : S.Encodable types n := by
  simp only [checkEncodable, Bool.and_eq_true, decide_eq_true_eq, all_eq_true, mem_range] at h
  obtain ⟨⟨hbounds, hfirst⟩, hcells⟩ := h
  have hcell := fun i c (hc : S.getCell i = some c) => by
    have := hcells i (Subnet.lt_of_getCell hc)
    simpa only [hc, Bool.and_eq_true, decide_eq_true_eq, all_eq_true, mem_range,
      Option.isNone_iff_eq_none, Option.any_eq_true] using this
  have hlinks : ∀ i c, S.getCell i = some c → ∀ l ∈ c.links, l.idx < i ∧
      ∃ c', S.getCell l.idx = some c' ∧ c'.type ≠ .OUT ∧ l.out < c'.outputs types := by
    intro i c hc l hl
    exact (hcell i c hc).2 l hl
  have hsupp : ∀ i c, S.getCell i = some c → c.Supported types n := fun i c hc =>
    (hcell i c hc).1.1.1.1.2
  refine ⟨⟨?_, ?_, ?_, ?_, hbounds, ?_, ?_, ?_, ?_⟩, hsupp, ?_, hfirst, ?_, ?_, ?_⟩
  · exact fun i c hc => (hcell i c hc).1.1.1.1.1.1
  · intro i c hc ht
    have := hsupp i c hc
    simp only [SubnetCell.Supported, ht] at this
    exact length_eq_zero_iff.mp this
  · exact fun i c hc => (hcell i c hc).1.1.1.1.1.2
  · intro i c hc ht
    have := hsupp i c hc
    simpa only [SubnetCell.Supported, ht] using this
  · intro i hi hlt
    have := hcells i hlt
    cases hc : S.getCell i with
    | some c => rfl
    | none =>
      simp only [hc, decide_eq_true_eq] at this
      omega
  · intro i c hc l hl
    obtain ⟨hlt, c', hc', ht, -⟩ := hlinks i c hc l hl
    exact ⟨hlt, c', hc', ht⟩
  · intro i c hc l hl c' hc'
    obtain ⟨-, c'', hc'', -, hout⟩ := hlinks i c hc l hl
    rw [hc', Option.some.injEq] at hc''
    subst hc''
    unfold SubnetCell.outputs at hout
    split at hout
    · rename_i sid ht
      exact .inr ⟨sid, ht⟩
    · exact .inl (Nat.lt_one_iff.mp hout)
  · intro i c hc
    have := hsupp i c hc
    unfold SubnetCell.Supported at this
    cases ht : c.type <;> simp_all [CellTypeID.isNegative]
  · intro i c hc l hl c' hc'
    obtain ⟨-, c'', hc'', -, hout⟩ := hlinks i c hc l hl
    rw [hc', Option.some.injEq] at hc''
    exact hc'' ▸ hout
  · exact fun i c hc => (hcell i c hc).1.1.1.2
  · intro i c hc k hik hk
    obtain ⟨j, rfl⟩ := Nat.exists_eq_add_of_lt hik
    have := (hcell i c hc).1.1.2 j (Nat.lt_of_add_lt_add_left (show i + j < i + c.more from hk))
    rwa [Nat.add_right_comm] at this
  · exact fun i c hc => (hcell i c hc).1.2

def halfAdder : SubnetType := ⟨2, 2, ⟨2, 2, 6, 0, [.cell ⟨.IN, [], 2⟩, .cell ⟨.IN, [], 2⟩,
  .cell ⟨.XOR, [⟨0, 0, false⟩, ⟨1, 0, false⟩], 1⟩, .cell ⟨.AND, [⟨0, 0, false⟩, ⟨1, 0, false⟩], 1⟩,
  .cell ⟨.OUT, [⟨2, 0, false⟩], 0⟩, .cell ⟨.OUT, [⟨3, 0, false⟩], 0⟩]⟩⟩

def adderParity : Subnet := ⟨2, 1, 5, 0, [.cell ⟨.IN, [], 2⟩, .cell ⟨.IN, [], 2⟩,
  .cell ⟨.soft 0, [⟨0, 0, false⟩, ⟨1, 0, true⟩], 2⟩,
  .cell ⟨.XOR, [⟨0, 0, false⟩, ⟨2, 0, true⟩, ⟨2, 1, false⟩, ⟨1, 0, false⟩], 1⟩, .links [],
  .cell ⟨.OUT, [⟨3, 0, true⟩], 0⟩]⟩

theorem valid_halfAdder : SubnetType.Valid [halfAdder] := by
  intro sid T hT
  cases sid with
  | zero =>
    cases hT
    exact ⟨rfl, rfl, by decide, encodable_of_check (by decide)⟩
  | succ sid => cases hT

theorem encode_faithful_adderParity : ∃ context cs,
    encode [halfAdder] adderParity ⟨Int.ofNat, 0, []⟩ = some context ∧ context.solver.clauses = cs ∧
      DistinctVars [halfAdder] adderParity ⟨Int.ofNat, 0, []⟩ context ∧
      ∀ x : EntryID → Bool, ∃ β, Sat β cs ∧ InputsAre adderParity context x β := by
  obtain ⟨context, cs, hrun, hcs, hvars, hall⟩ := encode_faithful valid_halfAdder
    (encodable_of_check (by decide) : adderParity.Encodable [halfAdder] 1) ⟨Int.ofNat, 0, []⟩
    (fun _ _ h => Int.ofNat.inj h)
  refine ⟨context, cs, hrun, hcs, hvars, fun x => ?_⟩
  obtain ⟨β, -, hsat, hx⟩ := (hall x).1 (fun _ => false)
  exact ⟨β, hsat, hx⟩

end SubnetEncoder

end UtopiaEda
