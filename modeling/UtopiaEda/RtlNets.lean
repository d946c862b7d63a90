import UtopiaEda.RtlNodes
import UtopiaEda.TopologicalSort
import Mathlib.Tactic.IntervalCases

/-!
# Register-transfer nets

A net collects the phi-node and the definitions of every variable. `create` joins the definitions
by multiplexors and sorts the nodes. A result `none` means that an assertion of the source fails
or that a node outside the storage is read.
-/
namespace UtopiaEda.Rtl

open List
open Option (bind_eq_bind bind_eq_some_iff some.inj)
open TopologicalSort

structure Usage where
  name : String
  phi : Option VNodeId := none
  defines : List VNodeId := []
  deriving DecidableEq, Repr

/-- A net with the storage and the counter of `unique_name`, which all nets share. The numbers and
sets that only describe the created net are left out. -/
structure Net where
  storage : Storage := []
  names : ℕ := 0
  vnodes : List VNodeId := []
  pnodes : List PNode := []
  vnodesTemp : List Usage := []
  released : List VNodeId := []
  isCreated : Bool := false

def addUsage (kind : Kind) (name : String) (id : VNodeId) : List Usage → List Usage
  | [] => [if kind = .MUX then { name, phi := some id } else { name, defines := [id] }]
  | usage :: usages =>
    if usage.name = name then
      (if kind = .MUX then { usage with phi := some id } else
        { usage with defines := usage.defines ++ [id] }) :: usages
    else usage :: addUsage kind name id usages

namespace Net

def addVNode (net : Net) (kind : Kind) (var : Variable) (func : FuncSymbol) (inputs : List Signal)
    (value : List Bool) : Option (Net × VNodeId) := do
  let (storage, id) ← net.storage.newVNode kind var func inputs value
  if net.isCreated then none
  else some ({ net with storage, vnodesTemp := addUsage kind var.name id net.vnodesTemp }, id)

def addSrc (net : Net) (var : Variable) : Option (Net × VNodeId) := net.addVNode .SRC var .NOP [] []

def addVal (net : Net) (var : Variable) (value : List Bool) : Option (Net × VNodeId) :=
  net.addVNode .VAL var .NOP [] value

def addFun (net : Net) (var : Variable) (func : FuncSymbol) (inputs : List Signal) :
    Option (Net × VNodeId) :=
  net.addVNode .FUN var func inputs []

def addPhi (net : Net) (var : Variable) : Option (Net × VNodeId) := net.addVNode .MUX var .NOP [] []

def addMux (net : Net) (var : Variable) (inputs : List Signal) : Option (Net × VNodeId) :=
  net.addVNode .MUX var .NOP inputs []

/-- Both versions of `addReg`: with an input and without. -/
def addReg (net : Net) (var : Variable) (input : Option Signal) : Option (Net × VNodeId) :=
  net.addVNode .REG var .NOP input.toList []

def addPNode (net : Net) (pnode : PNode) : Option Net := do
  let storage ← Storage.setPNodes pnode pnode.guard net.storage
  let storage ← Storage.setPNodes pnode pnode.action storage
  if net.isCreated then none else some { net with storage, pnodes := net.pnodes ++ [pnode] }

def addCmb (net : Net) (guard action : List VNodeId) : Option Net :=
  net.addPNode ⟨always INVALID, guard, action⟩

def addSeq (net : Net) (signal : Signal) (guard action : List VNodeId) : Option Net :=
  net.addPNode ⟨signal, guard, action⟩

def update (net : Net) (id : VNodeId) (inputs : List Signal) : Option Net := do
  let vnode ← net.storage[id]?
  let storage ← net.storage.replaceWith id vnode.kind vnode.var vnode.func inputs vnode.value
  some { net with storage }

def addVNodeFinal (net : Net) (id : VNodeId) : Net := { net with vnodes := net.vnodes ++ [id] }

def scheduleRelease (net : Net) (id : VNodeId) : Net :=
  { net with released := net.released ++ [id] }

def release (net : Net) (id : VNodeId) : Option Net := do
  let storage ← net.storage.setInputs id []
  let vnode ← storage[id]?
  if vnode.links = [] then some { net with storage } else none

def applyRelease : List VNodeId → Net → Option Net
  | [], net => some { net with released := [] }
  | id :: ids, net => do applyRelease ids (← net.release id)

/-- `unique_name`. -/
def uniqueName (names : ℕ) (pre : String) : String := pre ++ "_" ++ toString names

/-- The loop of `muxWireDefines`; it yields the guards and the copies of the definitions. -/
def copyDefines : List VNodeId → List Signal → List Signal → Net → Option (Net × List Signal)
  | [], guards, wires, net => some (net, guards ++ wires)
  | oldVNode :: defines, guards, wires, net => do
    let vnode ← net.storage[oldVNode]?
    let pnode ← vnode.pnode
    let guard ← pnode.guard.getLast?
    let (storage, newVNode) ← net.storage.duplicate oldVNode (uniqueName net.names vnode.var.name)
    let net := { net with storage, names := net.names + 1 }
    copyDefines defines (guards ++ [always guard]) (wires ++ [always newVNode])
      ((net.addVNodeFinal newVNode).scheduleRelease oldVNode)

def muxWireDefines (net : Net) (phi : VNodeId) : List VNodeId → Option Net
  | [] => none
  | [vnode] => some (net.addVNodeFinal vnode)
  | defines => do
    let (net, inputs) ← copyDefines defines [] [] net
    let vnode ← net.storage[phi]?
    let storage ← net.storage.replaceWith phi .MUX vnode.var .NOP inputs []
    some ({ net with storage }.addVNodeFinal phi)

def addDefine (signal : Signal) (vnode : VNodeId) :
    Option (Signal × List VNodeId) → Option (Signal × List VNodeId)
  | none => some (signal, [vnode])
  | some (trigger, defines) => if trigger = signal then some (signal, defines ++ [vnode]) else none

def groupRegDefines (storage : Storage) : List VNodeId → Option (Signal × List VNodeId) →
    Option (Signal × List VNodeId) → Option (List (Signal × List VNodeId))
  | [], clock, level => some (clock.toList ++ level.toList)
  | id :: defines, clock, level => do
    let vnode ← storage[id]?
    let pnode ← vnode.pnode
    if pnode.signal.isEdge then
      groupRegDefines storage defines (some (← addDefine pnode.signal id clock)) level
    else if pnode.signal.isLevel then
      groupRegDefines storage defines clock (some (← addDefine pnode.signal id level))
    else none

def muxInputs (storage : Storage) : List VNodeId → List Signal → List Signal → Option (List Signal)
  | [], guards, wires => some (guards ++ wires)
  | id :: defines, guards, wires => do
    let vnode ← storage[id]?
    let pnode ← vnode.pnode
    let guard ← pnode.guard.getLast?
    muxInputs storage defines (guards ++ [always guard]) (wires ++ [← vnode.inputs[0]?])

def createMux (net : Net) (output : Variable) : List VNodeId → Option (Net × VNodeId)
  | [] => none
  | [id] => do
    let vnode ← net.storage[id]?
    let input ← vnode.inputs[0]?
    let (storage, mux) ← net.storage.newVNode .FUN output .NOP [input] []
    some ({ net with storage }.scheduleRelease id, mux)
  | defines => do
    let inputs ← muxInputs net.storage defines [] []
    let (storage, mux) ← net.storage.newVNode .MUX output .NOP inputs []
    some ({ net with storage, released := net.released ++ defines }, mux)

/-- The loop of `muxRegDefines`; it yields the control signals and the data signals. -/
def muxGroups (output : Variable) : List (Signal × List VNodeId) → List Signal → List Signal → Net →
    Option (Net × List Signal)
  | [], controls, data, net => some (net, controls ++ data)
  | (signal, defines) :: groups, controls, data, net => do
    let vnode ← net.storage[signal.node]?
    let (net, mux) ← net.createMux { name := output.name ++ "$" ++ vnode.var.name, kind := .WIRE } defines
    muxGroups output groups (controls ++ [signal]) (data ++ [always mux]) (net.addVNodeFinal mux)

def muxRegDefines (net : Net) (phi : VNodeId) (defines : List VNodeId) : Option Net := do
  let groups ← groupRegDefines net.storage defines none none
  let output ← net.storage[phi]?
  let (net, inputs) ← muxGroups output.var groups [] [] net
  let storage ← net.storage.replaceWith phi .REG output.var .NOP inputs []
  some ({ net with storage }.addVNodeFinal phi)

def phiNode : Usage → Option VNodeId
  | ⟨_, some phi, _ :: _ :: _⟩ => some phi
  | ⟨_, none, [vnode]⟩ => some vnode
  | _ => none

/-- The loop of `create` over the variables. -/
def muxDefines : List Usage → Net → Option Net
  | [], net => some net
  | usage :: usages, net => do
    if usage.name = "" then none
    else
      let phi ← phiNode usage
      let vnode ← net.storage[phi]?
      match vnode.var.kind with
      | .WIRE => muxDefines usages (← net.muxWireDefines phi usage.defines)
      | .REG => muxDefines usages (← net.muxRegDefines phi usage.defines)

/-- The part of `create` before the sorting. The variables come in an order of the hash table. -/
def connect (net : Net) (usages : List Usage) : Option Net :=
  if net.isCreated then none
  else do
    let net ← muxDefines usages net
    let net ← applyRelease net.released net
    some { net with vnodesTemp := [], pnodes := [] }

/-! The graph of the nodes. -/

def kindAt (net : Net) (id : VNodeId) : Option Kind := (net.storage[id]?).map VNode.kind

def isSource (net : Net) (id : VNodeId) : Bool :=
  net.kindAt id = some .SRC || net.kindAt id = some .VAL || net.kindAt id = some .REG

def getSources (net : Net) : List VNodeId := (net.vnodes.filter net.isSource).dedup

def graph (net : Net) (sources : List VNodeId) : TopologicalSort.Graph VNodeId Link where
  nNodes := net.vnodes.length
  hasNode _ := true
  hasEdge link := net.kindAt link.target ≠ some .REG
  getSources := sources
  getOutEdges id := ((net.storage[id]?).map VNode.links).getD []
  leadsTo := Link.target

/-- `fuel` bounds the rounds of the search. -/
def sortTopologically (fuel : ℕ) (net : Net) (sources : List VNodeId) : Option Net :=
  if net.isCreated then none
  else do some { net with vnodes := ← topologicalSort (net.graph sources) fuel }

def create (fuel : ℕ) (net : Net) (usages : List Usage → List Usage)
    (sources : List VNodeId → List VNodeId) : Option Net := do
  let net ← net.connect (usages net.vnodesTemp)
  let net ← sortTopologically fuel net (sources net.getSources)
  some { net with isCreated := true }

/-! Every input has its link in every state. -/

variable {net net' : Net} {id : VNodeId} {ids defines : List VNodeId} {inputs : List Signal}

theorem linked_addVNode {kind : Kind} {var : Variable} {func : FuncSymbol} {value : List Bool}
    (h : Linked net.storage) (hs : net.addVNode kind var func inputs value = some (net', id)) :
    Linked net'.storage := by
  simp only [addVNode, bind_eq_bind, bind_eq_some_iff, Prod.exists] at hs
  obtain ⟨storage, k, hnew, hs⟩ := hs
  split at hs
  · cases hs
  · cases hs
    exact h.newVNode hnew

theorem linked_addPNode {pnode : PNode} (h : Linked net.storage)
    (hs : net.addPNode pnode = some net') : Linked net'.storage := by
  simp only [addPNode, bind_eq_bind, bind_eq_some_iff] at hs
  obtain ⟨st₁, hst₁, st₂, hst₂, hs⟩ := hs
  split at hs
  · cases hs
  · cases hs
    exact (h.setPNodes hst₁).setPNodes hst₂

theorem linked_update (h : Linked net.storage) (hs : net.update id inputs = some net') :
    Linked net'.storage := by
  simp only [update, bind_eq_bind, bind_eq_some_iff] at hs
  obtain ⟨vnode, -, st, hst, hs⟩ := hs
  cases hs
  exact h.replaceWith hst

structure Keeps (net net' : Net) : Prop where
  linked : Linked net.storage → Linked net'.storage
  isCreated : net'.isCreated = net.isCreated

variable {net'' : Net}

theorem Keeps.refl (net : Net) : Keeps net net := ⟨id, rfl⟩

theorem Keeps.trans (h : Keeps net net') (h' : Keeps net' net'') : Keeps net net'' :=
  ⟨h'.linked ∘ h.linked, h'.isCreated.trans h.isCreated⟩

theorem keeps_applyRelease : ∀ {ids : List VNodeId} {net : Net}, applyRelease ids net = some net' →
    Keeps net net' := by
  intro ids
  induction ids with
  | nil =>
    intro net hs
    cases hs
    exact ⟨id, rfl⟩
  | cons id ids ih =>
    intro net hs
    simp only [applyRelease, release, bind_eq_bind, bind_eq_some_iff] at hs
    obtain ⟨net₁, ⟨st, hst, vnode, -, hnet₁⟩, hs⟩ := hs
    split at hnet₁
    · cases hnet₁
      have hrest := ih hs
      exact ⟨fun h => hrest.linked (h.setInputs hst), hrest.isCreated⟩
    · cases hnet₁

theorem keeps_copyDefines : ∀ {defines : List VNodeId} {guards wires : List Signal} {net : Net},
    copyDefines defines guards wires net = some (net', inputs) → Keeps net net' := by
  intro defines
  induction defines with
  | nil =>
    intro guards wires net hs
    cases hs
    exact .refl _
  | cons id defines ih =>
    intro guards wires net hs
    simp only [copyDefines, bind_eq_bind, bind_eq_some_iff, Prod.exists] at hs
    obtain ⟨vnode, -, pnode, -, guard, -, st, k, hst, hs⟩ := hs
    have hrest := ih hs
    exact ⟨fun h => hrest.linked (h.duplicate hst), hrest.isCreated⟩

theorem keeps_muxWireDefines (hs : net.muxWireDefines id defines = some net') : Keeps net net' := by
  unfold muxWireDefines at hs
  split at hs
  · cases hs
  · cases hs
    exact ⟨fun h => h, rfl⟩
  · simp only [bind_eq_bind, bind_eq_some_iff, Prod.exists] at hs
    obtain ⟨net₁, inputs, hnet₁, vnode, -, st, hst, hs⟩ := hs
    cases hs
    exact (keeps_copyDefines hnet₁).trans ⟨fun h => h.replaceWith hst, rfl⟩

theorem keeps_createMux {output : Variable} (hs : net.createMux output defines = some (net', id)) :
    Keeps net net' := by
  unfold createMux at hs
  split at hs
  · cases hs
  · simp only [bind_eq_bind, bind_eq_some_iff, Prod.exists] at hs
    obtain ⟨vnode, -, input, -, st, k, hst, hs⟩ := hs
    cases hs
    exact ⟨fun h => h.newVNode hst, rfl⟩
  · simp only [bind_eq_bind, bind_eq_some_iff, Prod.exists] at hs
    obtain ⟨inputs, -, st, k, hst, hs⟩ := hs
    cases hs
    exact ⟨fun h => h.newVNode hst, rfl⟩

theorem keeps_muxGroups {output : Variable} : ∀ {groups : List (Signal × List VNodeId)}
    {controls data : List Signal} {net : Net},
    muxGroups output groups controls data net = some (net', inputs) → Keeps net net' := by
  intro groups
  induction groups with
  | nil =>
    intro controls data net hs
    cases hs
    exact .refl _
  | cons group groups ih =>
    intro controls data net hs
    simp only [muxGroups, bind_eq_bind, bind_eq_some_iff, Prod.exists] at hs
    obtain ⟨vnode, -, net₁, mux, hnet₁, hs⟩ := hs
    have hrest := ih hs
    exact (keeps_createMux hnet₁).trans ⟨hrest.linked, hrest.isCreated⟩

theorem keeps_muxRegDefines (hs : net.muxRegDefines id defines = some net') : Keeps net net' := by
  simp only [muxRegDefines, bind_eq_bind, bind_eq_some_iff, Prod.exists] at hs
  obtain ⟨groups, -, output, -, net₁, inputs, hnet₁, st, hst, hs⟩ := hs
  cases hs
  exact (keeps_muxGroups hnet₁).trans ⟨fun h => h.replaceWith hst, rfl⟩

theorem keeps_muxDefines : ∀ {usages : List Usage} {net : Net}, muxDefines usages net = some net' →
    Keeps net net' := by
  intro usages
  induction usages with
  | nil =>
    intro net hs
    cases hs
    exact .refl _
  | cons usage usages ih =>
    intro net hs
    rw [muxDefines] at hs
    split at hs
    · cases hs
    · simp only [bind_eq_bind, bind_eq_some_iff] at hs
      obtain ⟨phi, -, vnode, -, hs⟩ := hs
      split at hs
      · obtain ⟨net₁, hnet₁, hs⟩ := bind_eq_some_iff.mp hs
        exact (keeps_muxWireDefines hnet₁).trans (ih hs)
      · obtain ⟨net₁, hnet₁, hs⟩ := bind_eq_some_iff.mp hs
        exact (keeps_muxRegDefines hnet₁).trans (ih hs)

theorem keeps_connect {usages : List Usage} (hs : net.connect usages = some net') :
    Keeps net net' ∧ net'.isCreated = false := by
  unfold connect at hs
  split at hs
  · cases hs
  · rename_i hnot
    simp only [bind_eq_bind, bind_eq_some_iff] at hs
    obtain ⟨net₁, hnet₁, net₂, hnet₂, hs⟩ := hs
    have h := (keeps_muxDefines hnet₁).trans (keeps_applyRelease hnet₂)
    cases hs
    exact ⟨⟨h.linked, h.isCreated⟩, h.isCreated.trans (Bool.eq_false_iff.mpr hnot)⟩

inductive Operation where
  | addSrc (var : Variable)
  | addVal (var : Variable) (value : List Bool)
  | addFun (var : Variable) (func : FuncSymbol) (inputs : List Signal)
  | addPhi (var : Variable)
  | addMux (var : Variable) (inputs : List Signal)
  | addReg (var : Variable) (input : Option Signal)
  | addCmb (guard action : List VNodeId)
  | addSeq (signal : Signal) (guard action : List VNodeId)
  | update (id : VNodeId) (inputs : List Signal)

def apply (net : Net) : Operation → Option Net
  | .addSrc var => (net.addSrc var).map Prod.fst
  | .addVal var value => (net.addVal var value).map Prod.fst
  | .addFun var func inputs => (net.addFun var func inputs).map Prod.fst
  | .addPhi var => (net.addPhi var).map Prod.fst
  | .addMux var inputs => (net.addMux var inputs).map Prod.fst
  | .addReg var input => (net.addReg var input).map Prod.fst
  | .addCmb guard action => net.addCmb guard action
  | .addSeq signal guard action => net.addSeq signal guard action
  | .update id inputs => net.update id inputs

inductive Run : Net → Prop where
  | init : Run {}
  | step {net net' : Net} {op : Operation} (run : Run net) (eq : net.apply op = some net') :
      Run net'
  | next {net : Net} (run : Run net) : Run { storage := net.storage, names := net.names }
  | create {net net' : Net} {fuel : ℕ} {usages : List Usage → List Usage} {sources : List VNodeId →
      List VNodeId}
    (run : Run net) (eq : net.create fuel usages sources = some net') : Run net'

theorem linked_apply {op : Operation} (h : Linked net.storage) (hs : net.apply op = some net') :
    Linked net'.storage := by
  have hadd : ∀ {r : Option (Net × VNodeId)}, r.map Prod.fst = some net' →
      ∃ id, r = some (net', id) := by
    intro r hr
    obtain ⟨p, hp, rfl⟩ := Option.map_eq_some_iff.mp hr
    exact ⟨p.2, hp⟩
  cases op with
  | addCmb guard action => exact linked_addPNode h hs
  | addSeq signal guard action => exact linked_addPNode h hs
  | update id inputs => exact linked_update h hs
  | _ =>
    obtain ⟨id, hid⟩ := hadd hs
    exact linked_addVNode h hid

theorem storage_of_create {fuel : ℕ} {usages : List Usage → List Usage}
    {sources : List VNodeId → List VNodeId} (hs : net.create fuel usages sources = some net') :
    ∃ net₁, net.connect (usages net.vnodesTemp) = some net₁ ∧ net'.storage = net₁.storage := by
  simp only [create, sortTopologically, bind_eq_bind, bind_eq_some_iff] at hs
  obtain ⟨net₁, hnet₁, net₂, hnet₂, hs⟩ := hs
  split at hnet₂
  · cases hnet₂
  · obtain ⟨vnodes, -, heq⟩ := bind_eq_some_iff.mp hnet₂
    cases heq
    cases hs
    exact ⟨net₁, hnet₁, rfl⟩

theorem Run.linked (h : Run net) : Linked net.storage := by
  induction h with
  | init => exact fun id node h => by cases h
  | step _ eq ih => exact linked_apply ih eq
  | next _ ih => exact ih
  | create _ eq ih =>
    obtain ⟨net₁, hnet₁, heq⟩ := storage_of_create eq
    rw [heq]
    exact (keeps_connect hnet₁).1.linked ih

theorem arc_of_input {sources : List VNodeId} {vnode : VNode} {signal : Signal}
    (h : Linked net.storage) (hnode : net.storage[id]? = some vnode) (hreg : vnode.kind ≠ .REG)
    (hmem : signal ∈ vnode.inputs) : (net.graph sources).Arc signal.node id := by
  obtain ⟨i, hi⟩ := List.mem_iff_getElem?.mp hmem
  obtain ⟨driver, hdriver, hlink⟩ := h id vnode hnode i signal hi
  refine ⟨⟨signal.node, id, i⟩, ?_, ?_, rfl⟩
  · simpa [graph, hdriver] using hlink
  · simp [TopologicalSort.Graph.admits, graph, kindAt, hnode, hreg]

theorem Run.create_sorted {usages : List Usage → List Usage} {sources : List VNodeId → List VNodeId}
    {net₁ : Net} (h : Run net) (hsources : ∀ l, (sources l).Perm l)
    (hconnect : net.connect (usages net.vnodesTemp) = some net₁)
    (hg : (net₁.graph net₁.getSources).Sortable net₁.vnodes) :
    ∃ net', (∀ fuel, 2 * net₁.vnodes.length ≤ fuel → net.create fuel usages sources = some net') ∧
      net'.storage = net₁.storage ∧ net'.vnodes.Perm net₁.vnodes ∧
      ∀ A id B, net'.vnodes = A ++ id :: B → ∀ vnode, net'.storage[id]? = some vnode →
      vnode.kind ≠ .REG →
        ∀ signal ∈ vnode.inputs, signal.node ∈ net₁.vnodes → signal.node ∈ A := by
  obtain ⟨hkeeps, hcreated⟩ := keeps_connect hconnect
  have hg' : (net₁.graph (sources net₁.getSources)).Sortable net₁.vnodes := hg.perm (hsources _)
  obtain ⟨sortedNodes, hsort, hperm, hforward⟩ := hg'.topologicalSort
  refine ⟨{ net₁ with vnodes := sortedNodes, isCreated := true }, fun fuel hfuel => ?_, rfl,
    hperm, ?_⟩
  · simp only [Net.create, sortTopologically, hconnect, hcreated, bind_eq_bind, Option.bind_some,
      Bool.false_eq_true, if_false, hsort fuel hfuel]
  · intro A id B heq vnode hnode hreg signal hmem hin
    exact hforward.mem_before (hperm.nodup_iff.mpr hg.nodup) heq (hperm.mem_iff.mpr hin)
      (arc_of_input (hkeeps.linked h.linked) hnode hreg hmem)

theorem Run.foldlM : ∀ {ops : List Operation} {net : Net}, Run net → ops.foldlM apply net =
    some net' → Run net' := by
  intro ops
  induction ops with
  | nil =>
    intro net h hs
    cases hs
    exact h
  | cons op ops ih =>
    intro net h hs
    rw [foldlM_cons, bind_eq_bind] at hs
    obtain ⟨net₁, hnet₁, hs⟩ := bind_eq_some_iff.mp hs
    exact ih (h.step hnet₁) hs

/-- Topological sorting yields every node once, with every admitted edge leading forward; in a
created net the nodes that are no registers stand behind their inputs. -/
theorem topologicalSort_linear :
    (∀ {V E : Type} [DecidableEq V] (g : TopologicalSort.Graph V E) (nodes : List V),
      g.Sortable nodes → ∃ sortedNodes, (∀ fuel, 2 * nodes.length ≤ fuel →
      topologicalSort g fuel = some sortedNodes) ∧
        sortedNodes.Perm nodes ∧ g.Forward sortedNodes) ∧
    ∀ (net net₁ : Net) (usages : List Usage → List Usage) (sources : List VNodeId → List VNodeId),
    Run net →
      (∀ l, (sources l).Perm l) → net.connect (usages net.vnodesTemp) = some net₁ →
      (net₁.graph net₁.getSources).Sortable net₁.vnodes →
      ∃ net', (∀ fuel, 2 * net₁.vnodes.length ≤ fuel → net.create fuel usages sources = some net') ∧
        net'.storage = net₁.storage ∧ net'.vnodes.Perm net₁.vnodes ∧
        ∀ A id B, net'.vnodes = A ++ id :: B → ∀ vnode, net'.storage[id]? = some vnode →
        vnode.kind ≠ .REG →
          ∀ signal ∈ vnode.inputs, signal.node ∈ net₁.vnodes → signal.node ∈ A :=
  ⟨fun _ _ hg => hg.topologicalSort,
    fun _ _ _ _ h hsources hconnect hg => h.create_sorted hsources hconnect hg⟩

/-- A wire is computed from a register, which has two guarded definitions. -/
def registerOps : List Operation :=
  [.addSrc ⟨"clk", .WIRE, .INPUT⟩, .addSrc ⟨"x", .WIRE, .INPUT⟩, .addPhi ⟨"r", .REG, .INNER⟩,
    .addFun ⟨"w", .WIRE, .OUTPUT⟩ .NOT [always 2], .addReg ⟨"r", .REG, .INNER⟩ (some (always 3)),
    .addReg ⟨"r", .REG, .INNER⟩ (some (always 1)), .addSeq ⟨.POSEDGE, 0, 0⟩ [1] [4],
    .addSeq ⟨.POSEDGE, 0, 0⟩ [3] [5]]

private theorem sortable_registerOps : ∃ net net₁, registerOps.foldlM apply {} = some net ∧
    net.connect net.vnodesTemp = some net₁ ∧ (net₁.graph net₁.getSources).Sortable net₁.vnodes := by
  let connected : Option Net :=
    (registerOps.foldlM apply {}).bind (fun net => net.connect net.vnodesTemp)
  have hnodes : connected.map Net.vnodes = some [0, 1, 6, 2, 3] := by decide
  have hsources : connected.map Net.getSources = some [0, 1, 2] := by decide
  have hedges : connected.map (fun net => net.storage.map (fun vnode =>
      (vnode.links.filter (fun link => net.kindAt link.target ≠ some .REG)).map Link.target)) =
      some [[], [6, 6], [3], [6, 6], [], [], []] := by decide
  obtain ⟨net₁, hnet₁, hnodes⟩ := Option.map_eq_some_iff.mp hnodes
  obtain ⟨net, hnet, hconnect⟩ := bind_eq_some_iff.mp hnet₁
  rw [hnet₁] at hsources hedges
  have hsources : net₁.getSources = [0, 1, 2] := some.inj hsources
  have hedges := some.inj hedges
  have harc : ∀ (sources : List VNodeId) (u v : ℕ), (net₁.graph sources).Arc u v ↔
      (u = 1 ∧ v = 6) ∨ (u = 2 ∧ v = 3) ∨ (u = 3 ∧ v = 6) := by
    intro sources u v
    have hout : (net₁.graph sources).Arc u v ↔
        v ∈ (([[], [6, 6], [3], [6, 6], [], [], []] : List (List ℕ))[u]?).getD [] := by
      rw [← hedges, getElem?_map]
      cases hu : net₁.storage[u]? with
      | none => simp [TopologicalSort.Graph.Arc, graph, hu]
      | some vnode =>
        simp only [TopologicalSort.Graph.Arc, TopologicalSort.Graph.admits, graph, hu,
          Option.map_some, Option.getD_some, mem_map, mem_filter, Bool.and_true, and_assoc]
    rw [hout]
    by_cases hu : u < 7
    · interval_cases u <;> simp
    · rw [getElem?_eq_none (by simpa using hu)]
      simp only [Option.getD_none, not_mem_nil, false_iff]
      omega
  have hlt : ∀ u v : ℕ, Relation.TransGen (net₁.graph net₁.getSources).Arc u v → u < v := by
    intro u v h
    induction h with
    | single h =>
      have h := (harc _ _ _).mp h
      omega
    | tail _ h ih =>
      have h := (harc _ _ _).mp h
      omega
  refine ⟨net, net₁, hnet, hconnect, ?_⟩
  rw [hnodes]
  refine ⟨by decide, by rw [graph, hnodes], fun _ _ => rfl, fun u _ v huv => ?_,
    fun v _ hcycle => Nat.lt_irrefl v (hlt v v hcycle), ?_, fun v => ?_⟩
  · rcases (harc _ u v).mp huv with h | h | h <;> simp [h.2]
  · change net₁.getSources.Nodup
    rw [hsources]
    decide
  · change v ∈ net₁.getSources ↔ _
    simp only [harc, hsources, mem_cons, not_mem_nil, or_false]
    constructor
    · rintro (rfl | rfl | rfl) <;> simp
    · rintro ⟨rfl | rfl | rfl | rfl | rfl, hnone⟩
      · exact .inl rfl
      · exact .inr (.inl rfl)
      · exact absurd (.inl ⟨rfl, rfl⟩) (hnone 1 (by simp))
      · exact .inr (.inr rfl)
      · exact absurd (.inr (.inl ⟨rfl, rfl⟩)) (hnone 2 (by simp))

/-- The nodes of the example are sorted. -/
theorem topologicalSort_registerOps : ∃ net net₁, registerOps.foldlM apply {} = some net ∧
    net.connect net.vnodesTemp = some net₁ ∧
    (∃ sortedNodes, (∀ fuel, 2 * net₁.vnodes.length ≤ fuel →
        topologicalSort (net₁.graph net₁.getSources) fuel = some sortedNodes) ∧
      sortedNodes.Perm net₁.vnodes ∧ (net₁.graph net₁.getSources).Forward sortedNodes) ∧
    ∃ net', (∀ fuel, 2 * net₁.vnodes.length ≤ fuel →
    net.create fuel (fun usages => usages) List.reverse = some net') ∧
      net'.storage = net₁.storage ∧ net'.vnodes.Perm net₁.vnodes ∧
      ∀ A id B, net'.vnodes = A ++ id :: B → ∀ vnode, net'.storage[id]? = some vnode →
      vnode.kind ≠ .REG →
        ∀ signal ∈ vnode.inputs, signal.node ∈ net₁.vnodes → signal.node ∈ A := by
  obtain ⟨net, net₁, hnet, hconnect, hg⟩ := sortable_registerOps
  exact ⟨net, net₁, hnet, hconnect, topologicalSort_linear.1 _ _ hg,
    topologicalSort_linear.2 net net₁ (fun usages => usages) List.reverse (Run.init.foldlM hnet)
    reverse_perm hconnect hg⟩

end Net

end UtopiaEda.Rtl
