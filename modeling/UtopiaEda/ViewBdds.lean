import UtopiaEda.FanoutLists
import UtopiaEda.SatChecker
import UtopiaEda.ViewSchedules

/-!
# Decision diagrams of a view

`convertBdd` traverses a view and keeps a diagram for every visited cell; the variables of the
diagrams are the inputs of the view, numbered by their entries. `BddChecker` compares the diagram of
the only output of a subnet with the constant zero. The operations on diagrams are those of a
package.
-/
namespace UtopiaEda

open List
open Option (bind_eq_bind bind_some isSome_iff_exists map_eq_some_iff map_some some.inj)
open PostorderSearches SubnetBuilder

/-- The operations of the package on its nodes, and the functions of the nodes. -/
structure Cudd (DdNode : Type) where
  eval : DdNode → (ℕ → Bool) → Bool
  readOne : DdNode
  readLogicZero : DdNode
  bddIthVar : ℕ → DdNode
  not : DdNode → DdNode
  bddAnd : DdNode → DdNode → DdNode
  bddOr : DdNode → DdNode → DdNode
  bddXor : DdNode → DdNode → DdNode

/-- The operations are right, and each function has one node. -/
structure Cudd.Correct {DdNode : Type} (cudd : Cudd DdNode) : Prop where
  readOne : ∀ x, cudd.eval cudd.readOne x = true
  readLogicZero : ∀ x, cudd.eval cudd.readLogicZero x = false
  bddIthVar : ∀ i x, cudd.eval (cudd.bddIthVar i) x = x i
  not : ∀ f x, cudd.eval (cudd.not f) x = !cudd.eval f x
  bddAnd : ∀ f g x, cudd.eval (cudd.bddAnd f g) x = and (cudd.eval f x) (cudd.eval g x)
  bddOr : ∀ f g x, cudd.eval (cudd.bddOr f g) x = or (cudd.eval f x) (cudd.eval g x)
  bddXor : ∀ f g x, cudd.eval (cudd.bddXor f g) x = xor (cudd.eval f x) (cudd.eval g x)
  canonical : ∀ f g, (∀ x, cudd.eval f x = cudd.eval g x) → f = g

variable {DdNode : Type}

def linkNode (cudd : Cudd DdNode) (dataPtr : EntryID → Option DdNode) (link : Link) :
    Option DdNode :=
  (dataPtr link.idx).map (fun node => if link.inv then cudd.not node else node)

def applyBinaryOperation (cudd : Cudd DdNode) (inputList : List Link)
    (dataPtr : EntryID → Option DdNode) (binaryOp : DdNode → DdNode → DdNode)
    (invertResult : Bool) : Option DdNode :=
  match inputList with
  | [] => none
  | link :: links => do
    let first ← linkNode cudd dataPtr link
    let result ← links.foldlM (fun result link => (linkNode cudd dataPtr link).map
      (binaryOp result)) first
    some (if invertResult then cudd.not result else result)

/-- `NOT` does not look at the inverter of its link. -/
def applyGateFunc (func : CellTypeID) (inputList : List Link) (cudd : Cudd DdNode)
    (dataPtr : EntryID → Option DdNode) : Option DdNode :=
  match func with
  | .ZERO => some cudd.readLogicZero
  | .ONE => some cudd.readOne
  | .BUF | .IN | .OUT =>
    match inputList with
    | [link] => linkNode cudd dataPtr link
    | _ => none
  | .NOT =>
    match inputList with
    | [link] => (dataPtr link.idx).map cudd.not
    | _ => none
  | .AND => applyBinaryOperation cudd inputList dataPtr cudd.bddAnd false
  | .OR => applyBinaryOperation cudd inputList dataPtr cudd.bddOr false
  | .XOR => applyBinaryOperation cudd inputList dataPtr cudd.bddXor false
  | .NAND => applyBinaryOperation cudd inputList dataPtr cudd.bddAnd true
  | .NOR => applyBinaryOperation cudd inputList dataPtr cudd.bddOr true
  | .XNOR => applyBinaryOperation cudd inputList dataPtr cudd.bddXor true
  | .MAJ =>
    match inputList with
    | [link1, link2, link3] => do
      let x1 ← linkNode cudd dataPtr link1
      let x2 ← linkNode cudd dataPtr link2
      let x3 ← linkNode cudd dataPtr link3
      let temp := cudd.bddOr (cudd.bddAnd x1 x2) (cudd.bddAnd x1 x3)
      some (cudd.bddOr temp (cudd.bddAnd x2 x3))
    | _ => none
  | .soft _ => none

namespace SubnetView

/-- The visitor of `convertBdd`: the data of the cells and the diagrams of the outputs. -/
def convertCell (cudd : Cudd DdNode) (builder : SubnetBuilder) (isIn isOut : Bool) (id : EntryID)
    (st : (EntryID → Option DdNode) × (EntryID → Option DdNode)) :
    Option ((EntryID → Option DdNode) × (EntryID → Option DdNode)) := do
  let cell ← builder.getCell id
  let bddNode ← if isIn then some (cudd.bddIthVar id)
    else (builder.getLinks id).bind (fun links => applyGateFunc cell.type links cudd st.1)
  some (Function.update st.1 id (some bddNode), if isOut then
    Function.update st.2 id (some bddNode) else st.2)

/-- An output that is not in the map gets an empty diagram. -/
def convertBdd (sv : SubnetView) (cudd : Cudd DdNode) : Option (List (Option DdNode)) := do
  let (_, _, st) ← sv.walker.run
    (fun isIn isOut id (st : Option ((EntryID → Option DdNode) × (EntryID → Option DdNode))) =>
      (true, st.bind (convertCell cudd sv.parent isIn isOut id))) .FORWARD false
        (some (fun _ => none, fun _ => none))
  st.map (fun st => sv.outputs.map st.2)

/-- `SubnetView(builder)`: the view of the whole network. -/
def ofBuilder (builder : SubnetBuilder) : Option SubnetView := do
  let inputs ← builder.viewInputs builder.nIn (some builder.order.getSubnetBegin)
  let outputs ← builder.viewOutputs builder.nOut (builder.order.getPrev .upperBoundID)
  some ⟨builder, inputs.map (fun i => ⟨i, 0, false⟩), outputs.map (fun i => ⟨i, 0, false⟩)⟩

end SubnetView

def BddChecker.isSat [DecidableEq DdNode] (cudd : Cudd DdNode) (types : List SubnetType)
    (subnet : Subnet) : Option CheckerResult := do
  if subnet.nOut = 1 then
    let sv ← SubnetView.ofBuilder (← SubnetBuilder.ofSubnet types subnet)
    let netBdd ← (← (← sv.convertBdd cudd)[0]?)
    some (if netBdd = cudd.readLogicZero then .equal else .notEqual [])
  else none

/-! ### The diagrams of gates -/

def Gate.Convertible (g : Gate) : Prop :=
  match g.type with
  | .ZERO | .ONE => True
  | .BUF | .OUT => g.links.length = 1
  | .AND | .OR | .XOR => g.links ≠ []
  | .MAJ => g.links.length = 3
  | _ => False

section Nodes

/-! `V` relates assignments of the variables to values of the outputs of all cells. -/

variable {cudd : Cudd DdNode} {V : (ℕ → Bool) → (EntryID → ℕ → Bool) → Prop}
  {dataPtr : EntryID → Option DdNode} {links : List Link} {link : Link} {g : Gate}

def HasNode (cudd : Cudd DdNode) (V : (ℕ → Bool) → (EntryID → ℕ → Bool) → Prop)
    (dataPtr : EntryID → Option DdNode) (link : Link) : Prop :=
  ∃ f, linkNode cudd dataPtr link = some f ∧ ∀ x ρ, V x ρ → cudd.eval f x = link.value ρ

/-- The links of the first cell have diagrams as soon as it has one. -/
theorem hasNode_of_data (hc : cudd.Correct) {f : DdNode} (hf : dataPtr link.idx = some f)
    (hvalue : ∀ x ρ, V x ρ → ∀ out, cudd.eval f x = ρ link.idx out) :
    HasNode cudd V dataPtr link := by
  refine ⟨if link.inv then cudd.not f else f, by rw [linkNode, hf, map_some], fun x ρ hρ => ?_⟩
  rw [Link.value]
  cases link.inv with
  | false => rw [if_neg Bool.false_ne_true, hvalue x ρ hρ link.out, Bool.xor_false]
  | true => rw [if_pos rfl, hc.not, hvalue x ρ hρ link.out, Bool.xor_true]

private theorem foldlM_node {binaryOp : DdNode → DdNode → DdNode} {b : Bool → Bool → Bool}
    (hop : ∀ f g x, cudd.eval (binaryOp f g) x = b (cudd.eval f x) (cudd.eval g x)) :
    ∀ {links : List Link} (f : DdNode), (∀ link ∈ links, HasNode cudd V dataPtr link) → ∃ r,
      links.foldlM (fun result link => (linkNode cudd dataPtr link).map (binaryOp result)) f =
      some r ∧
        ∀ x ρ, V x ρ → cudd.eval r x = (links.map (Link.value ρ)).foldl b (cudd.eval f x) := by
  intro links
  induction links with
  | nil => exact fun f _ => ⟨f, rfl, fun _ _ _ => rfl⟩
  | cons link links ih =>
    intro f h
    obtain ⟨node, hnode, hvalue⟩ := h link mem_cons_self
    obtain ⟨r, hr, hvalues⟩ := ih (binaryOp f node) (fun k hk => h k (mem_cons_of_mem link hk))
    refine ⟨r, ?_, fun x ρ hρ => ?_⟩
    · rw [foldlM_cons, hnode]
      exact hr
    · rw [hvalues x ρ hρ, hop, hvalue x ρ hρ]
      rfl

/-- The links are combined one after the other. -/
theorem exists_applyBinaryOperation {binaryOp : DdNode → DdNode → DdNode} {b : Bool → Bool → Bool}
    (hop : ∀ f g x, cudd.eval (binaryOp f g) x = b (cudd.eval f x) (cudd.eval g x))
    (hne : links ≠ []) (h : ∀ link ∈ links, HasNode cudd V dataPtr link) :
    ∃ f, applyBinaryOperation cudd links dataPtr binaryOp false = some f ∧
      ∀ x ρ, V x ρ → ∃ v vs, links.map (Link.value ρ) = v :: vs ∧ cudd.eval f x = vs.foldl b v := by
  obtain ⟨link, rest, rfl⟩ := exists_cons_of_ne_nil hne
  obtain ⟨first, hfirst, hvalue⟩ := h link mem_cons_self
  obtain ⟨r, hr, hvalues⟩ := foldlM_node hop first (fun k hk => h k (mem_cons_of_mem link hk))
  refine ⟨r, ?_, fun x ρ hρ => ⟨_, _, map_cons, ?_⟩⟩
  · simp only [applyBinaryOperation, hfirst, hr, bind_eq_bind, bind_some, Bool.false_eq_true,
      if_false]
  · rw [hvalues x ρ hρ, hvalue x ρ hρ]

/-- The diagram of a gate has its Boolean function. -/
theorem exists_applyGateFunc (hc : cudd.Correct) (hg : g.Convertible)
    (h : ∀ link ∈ g.links, HasNode cudd V dataPtr link) :
    ∃ f, applyGateFunc g.type g.links cudd dataPtr = some f ∧
      ∀ lib x ρ, V x ρ → ∀ out, cudd.eval f x =
      g.type.eval lib (g.links.map (Link.value ρ)) out := by
  obtain ⟨type, links⟩ := g
  cases type with
  | ZERO => exact ⟨_, rfl, fun _ x _ _ _ => hc.readLogicZero x⟩
  | ONE => exact ⟨_, rfl, fun _ x _ _ _ => hc.readOne x⟩
  | BUF | OUT =>
    obtain ⟨link, rfl⟩ := length_eq_one_iff.mp hg
    obtain ⟨f, hf, hvalue⟩ := h link (mem_singleton_self link)
    exact ⟨f, hf, fun _ x ρ hρ _ => hvalue x ρ hρ⟩
  | AND =>
    obtain ⟨f, hf, hvalue⟩ := exists_applyBinaryOperation hc.bddAnd hg h
    refine ⟨f, hf, fun lib x ρ hρ out => ?_⟩
    obtain ⟨v, vs, hvs, hfold⟩ := hvalue x ρ hρ
    rw [hfold, CellTypeID.foldl_and, hvs]
    rfl
  | OR =>
    obtain ⟨f, hf, hvalue⟩ := exists_applyBinaryOperation hc.bddOr hg h
    refine ⟨f, hf, fun lib x ρ hρ out => ?_⟩
    obtain ⟨v, vs, hvs, hfold⟩ := hvalue x ρ hρ
    rw [hfold, CellTypeID.foldl_or, hvs]
    rfl
  | XOR =>
    obtain ⟨f, hf, hvalue⟩ := exists_applyBinaryOperation hc.bddXor hg h
    refine ⟨f, hf, fun lib x ρ hρ out => ?_⟩
    obtain ⟨v, vs, hvs, hfold⟩ := hvalue x ρ hρ
    rw [hfold, CellTypeID.foldl_xor, hvs]
    rfl
  | MAJ =>
    obtain ⟨link1, link2, link3, rfl⟩ := length_eq_three.mp hg
    obtain ⟨x1, hx1, hvalue1⟩ := h link1 (by simp)
    obtain ⟨x2, hx2, hvalue2⟩ := h link2 (by simp)
    obtain ⟨x3, hx3, hvalue3⟩ := h link3 (by simp)
    refine ⟨cudd.bddOr (cudd.bddOr (cudd.bddAnd x1 x2) (cudd.bddAnd x1 x3)) (cudd.bddAnd x2 x3),
      by simp only [applyGateFunc, hx1, hx2, hx3, bind_eq_bind,
      bind_some], fun lib x ρ hρ out => ?_⟩
    rw [hc.bddOr, hc.bddOr, hc.bddAnd, hc.bddAnd, hc.bddAnd, hvalue1 x ρ hρ, hvalue2 x ρ hρ,
      hvalue3 x ρ hρ]
    -- two of the three values decide
    simp only [map_cons, map_nil]
    cases link1.value ρ <;> cases link2.value ρ <;> cases link3.value ρ <;> rfl
  | _ => exact hg.elim

end Nodes

namespace SubnetView

variable {v : SubnetView} {cudd : Cudd DdNode} {i j o : EntryID} {V E : List EntryID}
  {es : List ViewEntry} {g : Gate}

structure Convertible (v : SubnetView) : Prop where
  net : v.parent.NetOk
  inputs : ∀ i ∈ v.inputs, (v.parent.netlist i).isSome
  outputs : ∀ o ∈ v.outputs, (v.parent.netlist o).isSome
  nonempty : v.outputs ≠ []
  gates : ∀ o ∈ v.outputs, ∀ i g, v.parent.netlist.InCone v.inputs o i → v.parent.netlist i =
    some g → g.Convertible

theorem Convertible.covered (h : v.Convertible) : v.Covered Gate.Convertible :=
  ⟨h.net, h.inputs, h.outputs, h.nonempty, h.gates⟩

/-- What the visitor needs of an entry when the cells `V` have been visited. -/
def Ready (v : SubnetView) (V : List EntryID) (e : ViewEntry) : Prop :=
  if e.isIn then e.entryID ∈ v.inputs
  else v.Above e.entryID ∧ ∃ g, v.parent.netlist e.entryID = some g ∧ g.Convertible ∧
    ∀ l ∈ g.links, l.idx ∈ V

structure Scheduled (v : SubnetView) (es : List ViewEntry) : Prop where
  ready : ∀ A e B, es = A ++ e :: B → v.Ready (A.map ViewEntry.entryID) e
  outputs : ∀ o ∈ v.outputs, o ∈ (es.filter ViewEntry.isOut).map ViewEntry.entryID

/-- The traversal goes over the inputs and then over the gates, every gate after its fanins. -/
theorem exists_scheduled (h : v.Convertible) (hr : v.Readable) : ∃ es, v.Scheduled es ∧
    ∀ {τ : Type} (f : Visitor τ) (st : τ), v.walker.iterate (some f) none st =
      some (!(calls (some f) es (false, st)).1, (calls (some f) es (false, st)).2) := by
  obtain ⟨ps, hps, hrun⟩ := exists_schedule h.covered hr
  refine ⟨v.inputEntries ++ ps, ⟨fun A e B hl => ?_, hps.outputs⟩, hrun⟩
  rcases append_eq_append_iff.mp hl with ⟨C, hA, hC⟩ | ⟨C, hA, hC⟩
  · obtain ⟨hin, habove, g, hg, hgate, hvisited⟩ := hps.gates C e B hC
    rw [Ready, hin, if_neg Bool.false_ne_true, hA, map_append, inputEntries_ids]
    exact ⟨habove, g, hg, hgate, hvisited⟩
  · cases C with
    | nil =>
      obtain ⟨hin, habove, g, hg, hgate, hvisited⟩ := hps.gates [] e B hC.symm
      rw [append_nil] at hA
      rw [Ready, hin, if_neg Bool.false_ne_true, ← hA, inputEntries_ids]
      exact ⟨habove, g, hg, hgate, fun l hl => (append_nil v.inputs) ▸ hvisited l hl⟩
    | cons b C =>
      obtain ⟨rfl, -⟩ := cons.inj hC
      have he : e ∈ v.inputEntries := hA ▸ mem_append_right A mem_cons_self
      obtain ⟨i, hi, rfl⟩ := mem_map.mp he
      exact hi

/-! ### The conversion -/

def Values (v : SubnetView) (x : ℕ → Bool) (σ : EntryID → ℕ → Bool) : Prop :=
  ∃ lib, v.window.Solves lib x σ

def HasBdd (cudd : Cudd DdNode) (v : SubnetView) (bdd : Option DdNode) (i : EntryID) : Prop :=
  ∃ f, bdd = some f ∧ ∀ x σ, v.Values x σ → ∀ out, cudd.eval f x = σ i out

structure Converted (cudd : Cudd DdNode) (v : SubnetView) (V E : List EntryID)
    (st : (EntryID → Option DdNode) × (EntryID → Option DdNode)) : Prop where
  data : ∀ i ∈ V, HasBdd cudd v (st.1 i) i
  map : ∀ o ∈ E, HasBdd cudd v (st.2 o) o

private theorem hasBdd_update {f : EntryID → Option DdNode} {b : DdNode}
    (hb : HasBdd cudd v (some b) i) (hf : ∀ j ∈ V, HasBdd cudd v (f j) j) : ∀ j ∈ V ++ [i],
    HasBdd cudd v (Function.update f i (some b) j) j := by
  intro j hj
  by_cases hji : j = i
  · rw [hji, Function.update_self]
    exact hb
  · rw [Function.update_of_ne hji]
    exact hf j ((mem_append.mp hj).resolve_right (fun hj => hji (mem_singleton.mp hj)))

private theorem exists_node (hc : cudd.Correct) (h : v.Convertible) (hr : v.Readable)
    {st : (EntryID → Option DdNode) × (EntryID → Option DdNode)}
    {e : ViewEntry} (hst : Converted cudd v V E st) (he : v.Ready V e) :
    ∃ b, HasBdd cudd v (some b) e.entryID ∧
      convertCell cudd v.parent e.isIn e.isOut e.entryID st =
      some (Function.update st.1 e.entryID (some b),
        if e.isOut then Function.update st.2 e.entryID (some b) else st.2) := by
  rw [Ready] at he
  cases hin : e.isIn with
  | true =>
    rw [hin, if_pos rfl] at he
    obtain ⟨g, hg⟩ := isSome_iff_exists.mp (h.inputs e.entryID he)
    obtain ⟨c, hcell, -⟩ := liveCell_of_netlist hg
    refine ⟨cudd.bddIthVar e.entryID, ⟨_, rfl, fun x σ ⟨lib, hσ⟩ out => ?_⟩, ?_⟩
    · rw [hc.bddIthVar, hσ e.entryID _ (if_pos he)]
      rfl
    · simp only [convertCell, getCell_of_live hcell, bind_eq_bind, bind_some, if_true]
  | false =>
    rw [hin, if_neg Bool.false_ne_true] at he
    obtain ⟨habove, g, hg, hgate, hvisited⟩ := he
    obtain ⟨c, hcell, hct, hcl⟩ := liveCell_of_netlist hg
    have hlinks : v.parent.getLinks e.entryID = some g.links := hcl ▸ (hr _ c habove hcell).getLinks
    have hnodes : ∀ l ∈ g.links, HasNode cudd v.Values st.1 l := by
      intro l hl
      obtain ⟨f, hf, heval⟩ := hst.data l.idx (hvisited l hl)
      exact hasNode_of_data hc hf heval
    obtain ⟨b, hb, hvalue⟩ := exists_applyGateFunc hc hgate hnodes
    refine ⟨b, ⟨_, rfl, fun x σ hσ out => ?_⟩, ?_⟩
    · obtain ⟨lib, hsolves⟩ := id hσ
      have hwin : v.window e.entryID = some g := by rw [window, if_neg habove.not_mem, hg]
      have hne : g.type ≠ .IN := by
        intro ht
        rw [Gate.Convertible, ht] at hgate
        exact hgate
      rw [hsolves e.entryID g hwin, Netlist.gateValue, if_neg hne, hvalue lib x σ hσ out]
    · simp only [convertCell, getCell_of_live hcell, hct, hlinks, hb, bind_eq_bind, bind_some,
        Bool.false_eq_true, if_false]

private theorem convertCells (hc : cudd.Correct) (h : v.Convertible) (hr : v.Readable) :
    ∀ {es : List ViewEntry} {V E : List EntryID}
    {st : (EntryID → Option DdNode) × (EntryID → Option DdNode)}, Converted cudd v V E st →
    (∀ A e B, es = A ++ e :: B → v.Ready (V ++ A.map ViewEntry.entryID) e) →
    ∃ st', es.foldlM (fun st e => convertCell cudd v.parent e.isIn e.isOut e.entryID st) st =
    some st' ∧
      Converted cudd v (V ++ es.map ViewEntry.entryID)
      (E ++ (es.filter ViewEntry.isOut).map ViewEntry.entryID) st' := by
  intro es
  induction es with
  | nil =>
    intro V E st hst _
    exact ⟨st, rfl, by simpa using hst⟩
  | cons e es ih =>
    intro V E st hst hready
    obtain ⟨b, hb, hrun⟩ := exists_node hc h hr hst (by simpa using hready [] e es rfl)
    have hnew : Converted cudd v (V ++ [e.entryID]) (E ++ if e.isOut then [e.entryID] else [])
        (Function.update st.1 e.entryID (some b), if e.isOut then
          Function.update st.2 e.entryID (some b) else st.2) := by
      refine ⟨hasBdd_update hb hst.data, ?_⟩
      cases e.isOut with
      | true => exact hasBdd_update hb hst.map
      | false =>
        rw [if_neg Bool.false_ne_true, append_nil]
        exact hst.map
    obtain ⟨st', hrest, hconverted⟩ := ih hnew (fun A e' B hl => by
      have hmem := hready (e :: A) e' B (by rw [hl, cons_append])
      rwa [map_cons, ← singleton_append, ← append_assoc] at hmem)
    refine ⟨st', ?_, ?_⟩
    · rw [foldlM_cons, hrun]
      exact hrest
    · have hV : V ++ (e :: es).map ViewEntry.entryID =
          V ++ [e.entryID] ++ es.map ViewEntry.entryID := by simp
      have hE : E ++ ((e :: es).filter ViewEntry.isOut).map ViewEntry.entryID =
          E ++ (if e.isOut then [e.entryID] else []) ++
          (es.filter ViewEntry.isOut).map ViewEntry.entryID := by
        cases ho : e.isOut <;> simp [ho]
      rw [hV, hE]
      exact hconverted

/-- `convertBdd` answers, and the diagrams are those of the outputs in their order. -/
def Converts (cudd : Cudd DdNode) (v : SubnetView) : Prop :=
  ∃ bdds, v.convertBdd cudd = some bdds ∧ List.Forall₂ (HasBdd cudd v) bdds v.outputs

theorem convertBdd_eq : v.convertBdd cudd = ((v.walker.iterate (some (fun isIn isOut id
    (st : Option ((EntryID → Option DdNode) × (EntryID → Option DdNode))) =>
      (true, st.bind (convertCell cudd v.parent isIn isOut id)))) none
        (some (fun _ => none, fun _ => none))).bind (fun p => p.2)).map
        (fun st => v.outputs.map st.2) := by
  rw [convertBdd, SubnetViewWalker.run, SubnetViewWalker.runForward_fresh]
  cases v.walker.iterate _ none _ with
  | none => rfl
  | some p => cases hp : p.2 <;> simp [hp]

theorem converts_of_readable (hc : cudd.Correct) (h : v.Convertible) (hr : v.Readable) :
    v.Converts cudd := by
  obtain ⟨es, hes, hrun⟩ := exists_scheduled h hr
  have hinit : Converted cudd v [] [] (fun _ => none, fun _ => none) :=
    ⟨fun i hi => absurd hi not_mem_nil, fun o ho => absurd ho not_mem_nil⟩
  obtain ⟨st, hst, hconverted⟩ := convertCells hc h hr hinit (fun A e B hl => by
    rw [nil_append]
    exact hes.ready A e B hl)
  refine ⟨v.outputs.map st.2, ?_, ?_⟩
  · rw [convertBdd_eq, hrun, calls_bind, bind_some, bind_some, hst, map_some]
  · refine forall₂_map_left_iff.mpr (forall₂_same.mpr (fun o ho => hconverted.map o ?_))
    rw [nil_append]
    exact hes.outputs o ho

theorem exists_ofBuilder (types : List SubnetType) {S : Subnet} (hS : S.Arranged) :
    ∃ s v, ofSubnet types S = some s ∧ ofBuilder s = some v ∧ v.parent.netlist = S.netlist ∧
    v.parent.NetOk ∧ v.Readable ∧
      v.inputs = range S.nIn ∧ v.outputs = (range S.nOut).map S.getOutIdx := by
  obtain ⟨s, mid, hs, hgrown, hnet, -, hin, hout⟩ := ofSubnet_eq types hS
  obtain ⟨hinputs, houtputs⟩ := Simulator.view_eq hgrown (by rw [hin, length_range])
    (by rw [hout, length_map, length_range])
  have hids : ∀ is : List EntryID, (is.map (fun i => (⟨i, 0, false⟩ : Link))).map Link.idx =
      is := by
    intro is
    rw [map_map]
    exact map_id _
  refine ⟨s, ⟨s, _, _⟩, hs, ?_, hnet, hgrown.netOk, readable_of_grown hgrown, hids _, hids _⟩
  rw [ofBuilder, hinputs, houtputs]
  rfl

/-- The view of a whole subnet can be converted if its gates can. -/
theorem convertible_of_subnet {S : Subnet} (hS : S.WellFormed) (hout : 0 < S.nOut)
    (hgates : ∀ i g, S.netlist i = some g → g.type = .IN ∨ g.Convertible)
    (hnet : v.parent.netlist = S.netlist) (hok : v.parent.NetOk)
    (hins : v.inputs = range S.nIn) (houts : v.outputs = (range S.nOut).map S.getOutIdx) :
    v.Convertible := by
  have hb := hS.bounds
  have hlive : ∀ i, (i < S.nIn ∨ S.size - S.nOut ≤ i) → i < S.size →
      (v.parent.netlist i).isSome := by
    intro i hi hlt
    rw [hnet, Subnet.netlist, Option.isSome_map]
    exact hS.ends i hi hlt
  refine ⟨hok, fun i hi => ?_, fun o ho => ?_, ?_, fun o ho i g hi hg => ?_⟩
  · rw [hins, mem_range] at hi
    exact hlive i (.inl hi) (Nat.lt_of_lt_of_le hi (Nat.le_trans (Nat.le_add_right _ _) hb))
  · rw [houts] at ho
    obtain ⟨k, hk, rfl⟩ := mem_map.mp ho
    have hk := mem_range.mp hk
    exact hlive _ (.inr (Nat.le_add_right _ _)) (by rw [Subnet.getOutIdx]; omega)
  · rw [houts]
    exact fun hnil => absurd (map_eq_nil_iff.mp hnil) (by rw [range_eq_nil]; omega)
  · rw [hnet] at hg
    refine (hgates i g hg).resolve_left (fun ht => hi.not_mem ?_)
    obtain ⟨c, hc, rfl⟩ := map_eq_some_iff.mp hg
    rw [hins, mem_range]
    exact (hS.input i c hc).mp ht

end SubnetView

namespace BddChecker
open SubnetView

variable {cudd : Cudd DdNode} {types : List SubnetType} {S : Subnet}

/-- The checker answers, and the answer is EQUAL exactly if the output is always 0. -/
def Right [DecidableEq DdNode] (cudd : Cudd DdNode) (types : List SubnetType) (S : Subnet) : Prop :=
  ∃ result, isSat cudd types S = some result ∧
    (result = .equal ↔ ∀ x, SatChecker.output types S x = some false)

private theorem eq_zero_iff (types : List SubnetType) (hc : cudd.Correct) (hS : S.WellFormed)
    (hout : S.nOut = 1) {v : SubnetView} {f : DdNode} (hnet : v.parent.netlist = S.netlist)
    (hins : v.inputs = range S.nIn) (hf : HasBdd cudd v (some f) (S.getOutIdx 0)) :
    f = cudd.readLogicZero ↔ ∀ x, SatChecker.output types S x = some false := by
  obtain ⟨f', heq, hvalue⟩ := hf
  obtain rfl := some.inj heq
  have houtput : ∀ x, SatChecker.output types S x = some (cudd.eval f x) := by
    intro x
    obtain ⟨ρ, hρ, hval⟩ := hS.exists_values (SubnetType.library types) x
    obtain ⟨c, hcell⟩ := isSome_iff_exists.mp
      (hS.ends (S.getOutIdx 0) (.inr (Nat.le_add_right _ _))
        (by have hb := hS.bounds; rw [Subnet.getOutIdx]; omega))
    have hwindow : v.window.Solves (SubnetType.library types) x ρ := by
      intro i g hg
      rw [window] at hg
      split at hg
      · rename_i hi
        rw [hins, mem_range] at hi
        obtain ⟨a, ha⟩ := isSome_iff_exists.mp
          (hS.ends i (.inl hi)
            (Nat.lt_of_lt_of_le hi (Nat.le_trans (Nat.le_add_right _ _) hS.bounds)))
        obtain rfl := some.inj hg
        rw [hρ i ⟨a.type, a.links⟩ (by rw [Subnet.netlist, ha]; rfl)]
        funext out
        rw [Netlist.gateValue, if_pos ((hS.input i a ha).mpr hi), Netlist.gateValue, if_pos rfl]
      · rw [hnet] at hg
        exact hρ i g hg
    rw [SatChecker.output, hval _ c hcell 0, hvalue x ρ ⟨_, hwindow⟩ 0]
  simp only [houtput, Option.some.injEq]
  constructor
  · rintro rfl x
    exact hc.readLogicZero x
  · intro h
    exact hc.canonical _ _ (fun x => by rw [h x, hc.readLogicZero])

/-- The conversion is right for the views whose cells are read right, the check for all subnets. -/
theorem convertBdd_exact [DecidableEq DdNode] (hc : cudd.Correct) :
    (∀ v : SubnetView, v.Convertible → v.Readable → v.Converts cudd) ∧
      ∀ types S, S.Arranged → S.nOut = 1 →
      (∀ i g, S.netlist i = some g → g.type = .IN ∨ g.Convertible) →
        Right cudd types S := by
  refine ⟨fun v hv hr => converts_of_readable hc hv hr, fun types S hS hout hgates => ?_⟩
  have hwf := hS.wellFormed
  obtain ⟨s, v, hs, hv, hnet, hok, hr, hins, houts⟩ := exists_ofBuilder types hS
  have hconv := convertible_of_subnet hwf (by omega) hgates hnet hok hins houts
  have hone : v.outputs = [S.getOutIdx 0] := by rw [houts, hout]; rfl
  obtain ⟨bdds, hbdds, hall⟩ := converts_of_readable hc hconv hr
  rw [hone] at hall
  obtain ⟨bdd, rfl⟩ := length_eq_one_iff.mp hall.length_eq
  have hbdd := (forall₂_cons.mp hall).1
  obtain ⟨f, rfl, -⟩ := id hbdd
  have hzero := eq_zero_iff types hc hwf hout hnet hins hbdd
  refine ⟨if f = cudd.readLogicZero then .equal else .notEqual [], ?_, ?_⟩
  · rw [isSat, if_pos hout, hs, bind_eq_bind, bind_some, hv, bind_eq_bind, bind_some, hbdds]
    rfl
  · rw [← hzero]
    split
    · exact iff_of_true rfl ‹_›
    · exact iff_of_false (fun heq => by cases heq) ‹_›

theorem isSat_decides [DecidableEq DdNode] (hc : cudd.Correct) (hS : S.Arranged) (hout : S.nOut = 1)
    (hgates : ∀ i g, S.netlist i = some g → g.type = .IN ∨ g.Convertible) :
    SatChecker.Decides (∀ x, SatChecker.output types S x = some false) (isSat cudd types S) := by
  obtain ⟨s, v, hs, hv, hnet, hok, hr, hins, houts⟩ := exists_ofBuilder types hS
  have hconv := convertible_of_subnet hS.wellFormed (by omega) hgates hnet hok hins houts
  have hone : v.outputs = [S.getOutIdx 0] := by rw [houts, hout]; rfl
  obtain ⟨bdds, hbdds, hall⟩ := converts_of_readable hc hconv hr
  rw [hone] at hall
  obtain ⟨bdd, rfl⟩ := length_eq_one_iff.mp hall.length_eq
  have hbdd := (forall₂_cons.mp hall).1
  obtain ⟨f, rfl, -⟩ := id hbdd
  have hrun : isSat cudd types S = some (if f = cudd.readLogicZero then .equal else
      .notEqual []) := by
    rw [isSat, if_pos hout, hs, bind_eq_bind, bind_some, hv, bind_eq_bind, bind_some, hbdds]
    rfl
  rw [hrun, ← eq_zero_iff types hc hS.wellFormed hout hnet hins hbdd]
  by_cases hf : f = cudd.readLogicZero
  · rw [if_pos hf]
    exact .inl ⟨rfl, hf⟩
  · rw [if_neg hf]
    exact .inr ⟨_, rfl, hf⟩

def functions : Cudd ((ℕ → Bool) → Bool) where
  eval f := f
  readOne _ := true
  readLogicZero _ := false
  bddIthVar i x := x i
  not f x := !f x
  bddAnd f g x := f x && g x
  bddOr f g x := f x || g x
  bddXor f g x := xor (f x) (g x)

theorem functions_correct : functions.Correct :=
  ⟨fun _ => rfl, fun _ => rfl, fun _ _ => rfl, fun _ _ => rfl, fun _ _ _ => rfl, fun _ _ _ => rfl,
    fun _ _ _ => rfl, fun _ _ h => funext h⟩

theorem mem_gates {i : EntryID} {g : Gate} (h : S.netlist i = some g) :
    g ∈ S.entries.filterMap Entry.gate := by
  obtain ⟨c, hc, rfl⟩ := map_eq_some_iff.mp h
  rw [Subnet.getCell] at hc
  split at hc
  · rename_i a ha
    rw [← some.inj hc]
    exact mem_filterMap.mpr ⟨.cell a, mem_of_getElem? ha, rfl⟩
  · cases hc

/-- A gate of one input and `n` links, every other one inverted. -/
def wide (n : ℕ) (more : List Entry) : Subnet :=
  ⟨1, 1, 3, 0, [.cell ⟨.IN, [], 1⟩, .cell ⟨.AND, (range n).map (fun j => ⟨0, 0, j % 2 = 1⟩),
    1⟩] ++ more ++ [.cell ⟨.OUT, [⟨1, 0, false⟩], 0⟩]⟩

theorem gates_wide {n : ℕ} (hn : n ≠ 0) {more : List Entry}
    (hmore : more.filterMap Entry.gate = []) : ∀ i g, (wide n more).netlist i = some g →
    g.type = .IN ∨ g.Convertible := by
  intro i g hg
  have hmem := mem_gates hg
  simp only [wide, filterMap_append, hmore, append_nil] at hmem
  rcases mem_cons.mp hmem with rfl | hmem
  · exact .inl rfl
  · refine .inr ?_
    rcases mem_cons.mp hmem with rfl | hmem
    · exact fun hnil => hn (range_eq_nil.mp (map_eq_nil_iff.mp hnil))
    · rw [mem_singleton.mp hmem]
      exact rfl

/-- The links of a gate of eight links stand in two more entries. -/
def wideEight : Subnet :=
  wide 8 [.links ((range 4).map (fun j => ⟨0, 0, j % 2 = 0⟩)), .links [⟨0, 0, true⟩]]

theorem arranged_wideEight : wideEight.Arranged :=
  (SubnetEncoder.encodable_of_check (by decide) : wideEight.Encodable [] 0).arranged

/-- The diagram of a conjunction of eight links to an input and its inverse is the zero. -/
theorem convertBdd_exact_and :
    (∃ s v, ofSubnet [] wideEight = some s ∧ ofBuilder s = some v ∧ v.outputs = [4] ∧
    v.Converts functions) ∧ @isSat _ (Classical.decEq _) functions [] wideEight = some .equal := by
  have hS := arranged_wideEight
  have hgates : ∀ i g, wideEight.netlist i = some g → g.type = .IN ∨ g.Convertible :=
    gates_wide (by decide) rfl
  obtain ⟨hviews, hsubnets⟩ := @convertBdd_exact _ functions (Classical.decEq _) functions_correct
  constructor
  · obtain ⟨s, v, hs, hv, hnet, hok, hr, hins, houts⟩ := exists_ofBuilder [] hS
    exact ⟨s, v, hs, hv, houts,
      hviews v (convertible_of_subnet hS.wellFormed (by decide) hgates hnet hok hins houts) hr⟩
  · obtain ⟨result, hrun, hequal⟩ := hsubnets [] _ hS rfl hgates
    have hzero : ∀ x, SatChecker.output [] wideEight x = some false := by
      intro x
      rw [SatChecker.output_congr hS.wellFormed (y := fun _ => x 0)
        (fun i hi => by rw [Nat.lt_one_iff.mp hi])]
      cases x 0 <;> decide
    rw [hrun, hequal.mpr hzero]

/-- A conjunction of four links at an entry that was used before. The next cell of its depth stands
between it and the entry of its fourth link. -/
def recycled : List Operation :=
  [.addInput, .addInput, .addCell .AND [⟨0, 0, false⟩, ⟨1, 0, false⟩],
  .addCell .OR [⟨0, 0, false⟩, ⟨2, 0, false⟩], .addOutput ⟨3, 0, false⟩,
  .replaceCell 3 .BUF [⟨0, 0, false⟩] true,
  .addCell .AND [⟨0, 0, false⟩, ⟨1, 0, false⟩, ⟨0, 0, true⟩, ⟨1, 0, true⟩],
  .addCell .OR [⟨0, 0, false⟩, ⟨1, 0, false⟩]]

def recycledView (s : SubnetBuilder) : SubnetView :=
  ⟨s, [⟨0, 0, false⟩, ⟨1, 0, false⟩], [⟨2, 0, false⟩]⟩

/-- The walker takes the next cell for the entry of the fourth link. -/
theorem not_convertBdd_exact : ¬ ∀ (DdNode : Type) (cudd : Cudd DdNode), cudd.Correct →
    ∀ v : SubnetView, v.Convertible → v.Converts cudd := by
  intro h
  have hrun : (checkRun .empty recycled {}).map
      (fun s => (((recycledView s).convertBdd functions).isSome, s.netlist 0,
      s.netlist 1, s.netlist 2)) = some (false, some ⟨.IN, []⟩, some ⟨.IN, []⟩,
        some ⟨.AND, [⟨0, 0, false⟩, ⟨1, 0, false⟩, ⟨0, 0, true⟩, ⟨1, 0, true⟩]⟩) := by decide +kernel
  obtain ⟨s, hs, heq⟩ := map_eq_some_iff.mp hrun
  simp only [Prod.mk.injEq] at heq
  obtain ⟨hnone, h₀, h₁, h₂⟩ := heq
  have hinputs : ∀ i ∈ (recycledView s).inputs, i = 0 ∨ i = 1 := by
    intro i hi
    simpa [recycledView, SubnetView.inputs] using hi
  have hconv : (recycledView s).Convertible := by
    refine ⟨netOk_of_checkRun (by simp [recycled, KeepsFanouts]) .init hs, fun i hi => ?_,
      fun o ho => ?_, cons_ne_nil _ _, fun o ho i g hi hg => ?_⟩
    · rcases hinputs i hi with rfl | rfl
      · exact isSome_iff_exists.mpr ⟨_, h₀⟩
      · exact isSome_iff_exists.mpr ⟨_, h₁⟩
    · rw [mem_singleton.mp ho]
      exact isSome_iff_exists.mpr ⟨_, h₂⟩
    · have htwo : i = 2 := by
        obtain ⟨-, hpath⟩ := hi
        rw [mem_singleton.mp ho] at hpath
        clear hg
        induction hpath with
        | refl => rfl
        | tail _ hstep ih =>
          obtain ⟨⟨g', hg', l, hl, rfl⟩, hnot⟩ := hstep
          rw [ih] at hg'
          obtain rfl := some.inj (h₂.symm.trans hg')
          refine absurd ?_ hnot
          simp only [mem_cons, not_mem_nil, or_false] at hl
          rcases hl with rfl | rfl | rfl | rfl <;> simp [recycledView, SubnetView.inputs]
      rw [htwo] at hg
      obtain rfl := some.inj (h₂.symm.trans hg)
      exact cons_ne_nil _ _
  obtain ⟨bdds, hbdds, -⟩ := h _ functions functions_correct _ hconv
  rw [hbdds] at hnone
  cases hnone

end BddChecker

end UtopiaEda
