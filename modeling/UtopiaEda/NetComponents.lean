import UtopiaEda.NetDecomposer

/-!
# The components of a net

What the depth-first search of `extractComponents` yields. Its stack holds the cells from an output
down to the one that is visited; the combinational cells have a rank, so a link never leads back to
the stack.
-/
namespace UtopiaEda.NetDecomposer

open Option (bind_eq_bind bind_eq_some_iff bind_some some.inj)
open NetTraversalContext
open List (append_assoc append_nil getElem?_eq_getElem getElem?_eq_none getElem_mem map_append
  map_cons mem_append mem_cons mem_cons_of_mem mem_cons_self mem_of_getElem? mem_singleton
  mem_union_iff)

variable {net : Net} {context context' : NetTraversalContext} {entry : NetTraversalEntry}
  {stack : List NetTraversalEntry} {components : List NetComponent} {component : NetComponent}
  {c k n index : ℕ} {cell : NetCell} {source : LinkEnd} {link : NetLink} {desc : SignalType}
  {links : LinkDescVec} {isOutput isInput : Bool}

/-! ### What a step can do -/

namespace NetTraversalContext

/-- A link changes the component and nothing else; it is no inner cell. -/
theorem addEnds_eq (context : NetTraversalContext) (isOutput isInput : Bool) (link : NetLink)
    (desc : SignalType) : ∃ component, context.addEnds isOutput isInput link desc =
    { context with component := component } ∧ component.inners = context.component.inners := by
  cases isOutput <;> cases isInput <;> exact ⟨_, rfl, rfl⟩

theorem push_cases (h : context.push net c desc = some context') :
    (∃ i, context.belongsTo c = some i ∧ context' = { context with merging :=
      if i ∈ context.merging then context.merging else context.merging.orderedInsert (· ≤ ·) i }) ∨
    (context.belongsTo c = none ∧ c ∈ context.componentCells ∧ context' = context) ∨
    (context.belongsTo c = none ∧ c ∉ context.componentCells ∧
      ∃ links, getLinks net c (some desc) = some links ∧
      context' = { context with componentCells := c :: context.componentCells
                                stack := ⟨some c, links, 0⟩ :: context.stack }) := by
  rw [push] at h
  split at h
  · rename_i i hi
    exact .inl ⟨i, hi, (some.inj h).symm⟩
  · rename_i hnone
    split at h
    · rename_i hmem
      exact .inr (.inl ⟨hnone, hmem, (some.inj h).symm⟩)
    · rename_i hmem
      obtain ⟨links, hlinks, h⟩ := bind_eq_some_iff.mp h
      exact .inr (.inr ⟨hnone, hmem, links, hlinks, (some.inj h).symm⟩)

theorem push_of_belongsTo (context : NetTraversalContext) {i : ℕ}
    (h : context.belongsTo c = some i) : context.push net c desc = some { context with
      merging := if i ∈ context.merging then context.merging else
      context.merging.orderedInsert (· ≤ ·) i } := by
  rw [push, h]

theorem push_of_mem (context : NetTraversalContext) (h : context.belongsTo c = none)
    (hmem : c ∈ context.componentCells) : context.push net c desc = some context := by
  rw [push, h]
  exact if_pos hmem

theorem push_of_new (context : NetTraversalContext) (h : context.belongsTo c = none)
    (hmem : c ∉ context.componentCells) (hlinks : getLinks net c (some desc) = some links) :
    context.push net c desc = some ({ context with
      componentCells := c :: context.componentCells,
      stack := ⟨some c, links, 0⟩ :: context.stack }) := by
  rw [push, h]
  simp only [if_neg hmem, hlinks, bind_eq_bind, bind_some]

theorem visitLink_cases (h : context.visitLink net entry stack link desc = some context') :
    ∃ cell, net.cells link.source.cellID = some cell ∧
      let visited := { context.addEnds (entry.cellID = none) (isInputType cell.type) link desc with
        stack := { entry with linkIndex := entry.linkIndex + 1 } :: stack }
      (isInputType cell.type = true ∧ context' = visited) ∨
        (isInputType cell.type = false ∧ visited.push net link.source.cellID desc =
          some context') := by
  obtain ⟨isInput, hinput, h⟩ := bind_eq_some_iff.mp h
  obtain ⟨cell, hcell, hinput⟩ := bind_eq_some_iff.mp hinput
  cases hinput
  refine ⟨cell, hcell, ?_⟩
  split at h
  · rename_i htype
    exact .inl ⟨htype, (some.inj h).symm⟩
  · rename_i htype
    exact .inr ⟨Bool.eq_false_of_not_eq_true htype, h⟩

theorem mergeComponents_frame : ∀ {merging : List ℕ} {context context' : NetTraversalContext},
    mergeComponents index merging context = some context' → context'.component = context.component ∧
      context'.stack = context.stack ∧ context'.merging = context.merging ∧
      context'.componentCells = context.componentCells := by
  intro merging
  induction merging with
  | nil =>
    intro context context' h
    cases h
    exact ⟨rfl, rfl, rfl, rfl⟩
  | cons i merging ih =>
    intro context context' h
    rw [mergeComponents] at h
    split at h
    · exact ih h
    · obtain ⟨root, -, h⟩ := bind_eq_some_iff.mp h
      obtain ⟨next, -, h⟩ := bind_eq_some_iff.mp h
      have hrest := ih h
      exact hrest

/-- Behind an output the next component is empty. -/
theorem makeComponent_frame (h : context.makeComponent = some context') :
    context'.component = {} ∧ context'.merging = [] ∧ context'.componentCells = [] ∧
    context'.stack = context.stack := by
  obtain ⟨stored, hstored, h⟩ := bind_eq_some_iff.mp h
  cases h
  refine ⟨rfl, rfl, rfl, ?_⟩
  rw [storeComponent] at hstored
  split at hstored
  · cases hstored
    rfl
  · obtain ⟨merged, hmerged, hstored⟩ := bind_eq_some_iff.mp hstored
    obtain ⟨root, -, hstored⟩ := bind_eq_some_iff.mp hstored
    cases hstored
    exact (mergeComponents_frame hmerged).2.1

end NetTraversalContext

/-! ### Inner cells -/

/-- The outputs of the cell are no inputs of components. -/
def Inner (net : Net) (c : ℕ) : Prop :=
  ∀ cell, net.cells c = some cell → isInputType cell.type = false

structure Inside (net : Net) (context : NetTraversalContext) : Prop where
  components : ∀ component ∈ context.components, ∀ c ∈ component.inners, Inner net c
  component : ∀ c ∈ context.component.inners, Inner net c
  stack : ∀ entry ∈ context.stack, ∀ c, entry.cellID = some c → Inner net c

private theorem inners_merge {rhs : NetComponent} (h : ∀ c ∈ component.inners, Inner net c)
    (h' : ∀ c ∈ rhs.inners, Inner net c) : ∀ c ∈ (component.merge rhs).inners, Inner net c := by
  intro c hc
  rcases mem_append.mp hc with hc | hc
  · exact h c hc
  · exact h' c hc

private theorem inners_mergeComponents :
    ∀ {merging : List ℕ} {context context' : NetTraversalContext},
    (∀ component ∈ context.components, ∀ c ∈ component.inners, Inner net c) →
    mergeComponents index merging context = some context' → ∀ component ∈ context'.components,
    ∀ c ∈ component.inners, Inner net c := by
  intro merging
  induction merging with
  | nil =>
    intro context context' h hrun
    cases hrun
    exact h
  | cons i merging ih =>
    intro context context' h hrun
    rw [mergeComponents] at hrun
    split at hrun
    · exact ih h hrun
    · obtain ⟨root, hroot, hrun⟩ := bind_eq_some_iff.mp hrun
      obtain ⟨next, hnext, hrun⟩ := bind_eq_some_iff.mp hrun
      refine ih (fun comp hcomp => ?_) hrun
      rcases List.mem_or_eq_of_mem_set hcomp with hcomp | rfl
      · rcases List.mem_or_eq_of_mem_set hcomp with hcomp | rfl
        · exact h comp hcomp
        · exact inners_merge (h root (mem_of_getElem? hroot))
            (h next (mem_of_getElem? hnext))
      · exact fun c hc => by cases hc

theorem Inside.makeComponent (h : Inside net context)
    (hrun : context.makeComponent = some context') : Inside net context' := by
  obtain ⟨hcomponent, -, -, hstack⟩ := makeComponent_frame hrun
  refine ⟨?_, by rw [hcomponent]; exact fun c hc => (by cases hc), hstack ▸ h.stack⟩
  obtain ⟨stored, hstored, hrun⟩ := bind_eq_some_iff.mp hrun
  cases hrun
  rw [storeComponent] at hstored
  split at hstored
  · cases hstored
    intro comp hcomp
    rcases mem_append.mp hcomp with hcomp | hcomp
    · exact h.components comp hcomp
    · exact mem_singleton.mp hcomp ▸ h.component
  · obtain ⟨merged, hmerged, hstored⟩ := bind_eq_some_iff.mp hstored
    obtain ⟨root, hroot, hstored⟩ := bind_eq_some_iff.mp hstored
    cases hstored
    intro comp hcomp
    have hinners := inners_mergeComponents h.components hmerged
    rcases List.mem_or_eq_of_mem_set hcomp with hcomp | rfl
    · exact hinners comp hcomp
    · exact inners_merge (hinners root (mem_of_getElem? hroot)) h.component

private theorem Inside.push (h : Inside net context) (hinner : Inner net c)
    (hrun : context.push net c desc = some context') : Inside net context' := by
  rcases push_cases hrun with ⟨i, -, rfl⟩ | ⟨-, -, rfl⟩ | ⟨-, -, links, -, rfl⟩
  · exact ⟨h.components, h.component, h.stack⟩
  · exact h
  · refine ⟨h.components, h.component, fun e he c' hc' => ?_⟩
    rcases mem_cons.mp he with rfl | he
    · cases hc'
      exact hinner
    · exact h.stack e he c' hc'

private theorem Inside.visitLink (h : Inside net context)
    (hentry : ∀ c, entry.cellID = some c → Inner net c)
    (hstack : ∀ e ∈ stack, ∀ c, e.cellID = some c → Inner net c)
    (hrun : context.visitLink net entry stack link desc = some context') : Inside net context' := by
  obtain ⟨cell, hcell, hcases⟩ := visitLink_cases hrun
  obtain ⟨component, heq, hinners⟩ :=
    addEnds_eq context (entry.cellID = none) (isInputType cell.type) link desc
  simp only [heq] at hcases
  have hvisited : Inside net ({ context with
      component := component
      stack := { entry with linkIndex := entry.linkIndex + 1 } :: stack }) := by
    refine ⟨h.components, fun c hc => h.component c (hinners ▸ hc), fun e he c hc => ?_⟩
    rcases mem_cons.mp he with rfl | he
    · exact hentry c hc
    · exact hstack e he c hc
  rcases hcases with ⟨-, rfl⟩ | ⟨htype, hrun⟩
  · exact hvisited
  · refine hvisited.push (fun cell' hcell' => ?_) hrun
    cases hcell.symm.trans hcell'
    exact htype

theorem Inside.iterate (h : Inside net context) (hstack : context.stack = entry :: stack)
    (hrun : context.iterate net entry stack = some context') : Inside net context' := by
  obtain ⟨closed, hclosed, hrun⟩ := bind_eq_some_iff.mp hrun
  have hinside : Inside net closed := by
    rw [closeComponent] at hclosed
    split at hclosed
    · exact h.makeComponent hclosed
    · cases hclosed
      exact h
  have hentry := h.stack entry (hstack ▸ mem_cons_self)
  have hrest := fun e he => h.stack e (hstack ▸ mem_cons_of_mem entry he)
  split at hrun
  · exact hinside.visitLink hentry hrest hrun
  · split at hrun
    · cases hrun
      exact ⟨hinside.components, hinside.component, fun e he => by cases he⟩
    · obtain ⟨c, hc, hrun⟩ := bind_eq_some_iff.mp hrun
      cases hrun
      refine ⟨hinside.components, fun c' hc' => ?_, hrest⟩
      rcases mem_append.mp hc' with hc' | hc'
      · exact hinside.component c' hc'
      · exact mem_singleton.mp hc' ▸ hentry c hc

theorem Inside.run : ∀ {n : ℕ} {context : NetTraversalContext}, Inside net context →
    run net n context = some components → ∀ component ∈ components, ∀ c ∈ component.inners,
    Inner net c := by
  intro n
  induction n with
  | zero => exact fun _ h => by cases h
  | succ n ih =>
    intro context h hrun
    rw [NetTraversalContext.run] at hrun
    split at hrun
    · cases hrun
      exact h.components
    · rename_i entry stack hstack
      obtain ⟨context', h', hrun⟩ := bind_eq_some_iff.mp hrun
      exact ih (h.iterate hstack h') hrun

theorem inner_of_extractComponents {fuel : ℕ} (h : extractComponents net fuel = some components) :
    ∀ component ∈ components, ∀ c ∈ component.inners, Inner net c := by
  obtain ⟨context, hcontext, h⟩ := bind_eq_some_iff.mp h
  have hinside : Inside net context := by
    obtain ⟨outputs, -, hcontext⟩ := bind_eq_some_iff.mp hcontext
    cases hcontext
    refine ⟨fun comp hcomp => (by cases hcomp), fun c hc => (by cases hc), fun e he c hc => ?_⟩
    split at he
    · obtain rfl := mem_singleton.mp he
      cases hc
    · cases he
  exact hinside.run h

/-! ### Links -/

def Signalled (cell : NetCell) (desc : Option SignalType) : Prop :=
  cell.type.isSeqGate = true → desc = none → ∀ j < cell.links.length,
    (getSignalType cell.type j).isSome

private theorem exists_fillLinksLoop {desc : Option SignalType} (hlen : cell.links.length < 2 ^ 16)
    (hsignal : Signalled cell desc) : ∀ (n j : ℕ), cell.links.length - j < n →
    j ≤ cell.links.length → ∃ ls, fillLinksLoop c cell desc n j = some ls ∧
      ls.map (fun x => x.1.source) = cell.links.drop j ∧
      ∀ link, link ∈ ls.map Prod.fst ↔ ∃ k l, j ≤ k ∧ cell.links[k]? = some l ∧
      link = ⟨l, ⟨c, k⟩⟩ := by
  intro n
  induction n with
  | zero => exact fun _ h => absurd h (Nat.not_lt_zero _)
  | succ n ih =>
    intro j hn hj
    rw [fillLinksLoop]
    rcases hj.eq_or_lt with rfl | hlt
    · refine ⟨[], if_pos rfl, by simp, fun link => ⟨fun h => (by cases h), ?_⟩⟩
      rintro ⟨k, l, hk, hl, -⟩
      exact absurd (List.getElem?_eq_some_iff.mp hl).1 (Nat.not_lt.mpr hk)
    · obtain ⟨signal, hsig⟩ : ∃ signal, (if cell.type.isSeqGate = true ∧ desc = none then
        getSignalType cell.type j
          else some (desc.getD .DATA)) = some signal := by
        split
        · rename_i h
          exact Option.isSome_iff_exists.mp (hsignal h.1 h.2 j hlt)
        · exact ⟨_, rfl⟩
      have hmod : (j + 1) % 2 ^ 16 = j + 1 := Nat.mod_eq_of_lt (by omega)
      obtain ⟨ls, hls, hsources, hlinks⟩ := ih (j + 1) (by omega) hlt
      refine ⟨(⟨cell.links[j], ⟨c, j⟩⟩, signal) :: ls, ?_, ?_, fun link => ?_⟩
      · rw [if_neg hlt.ne, getElem?_eq_getElem hlt, hmod, hls]
        split at hsig
        · rename_i h
          rw [if_pos h, hsig]
          rfl
        · rename_i h
          rw [if_neg h, hsig]
          rfl
      · rw [map_cons, hsources, List.drop_eq_getElem_cons hlt]
      · rw [map_cons, mem_cons, hlinks]
        constructor
        · rintro (rfl | ⟨k, l, hk, hl, rfl⟩)
          · exact ⟨j, _, Nat.le_refl _, getElem?_eq_getElem hlt, rfl⟩
          · exact ⟨k, l, by omega, hl, rfl⟩
        · rintro ⟨k, l, hk, hl, rfl⟩
          rcases hk.eq_or_lt with rfl | hk
          · rw [getElem?_eq_getElem hlt] at hl
            cases hl
            exact .inl rfl
          · exact .inr ⟨k, l, hk, hl, rfl⟩

theorem exists_getLinks (desc : Option SignalType) (hcell : net.cells c = some cell)
    (hlen : cell.links.length < 2 ^ 16) (hsignal : Signalled cell desc) :
    ∃ ls, getLinks net c desc = some ls ∧ ls.map (fun x => x.1.source) = cell.links ∧
      ∀ link, link ∈ ls.map Prod.fst ↔ ∃ k l, cell.links[k]? = some l ∧ link = ⟨l, ⟨c, k⟩⟩ := by
  obtain ⟨ls, hls, hsources, hlinks⟩ :=
    exists_fillLinksLoop (c := c) hlen hsignal (2 ^ 16 + 1) 0 (by omega) (Nat.zero_le _)
  refine ⟨ls, by rw [getLinks, hcell]; exact hls, hsources, fun link => ?_⟩
  rw [hlinks]
  exact exists_congr fun k => exists_congr fun l => by simp

def LinksOf (net : Net) (cells : List ℕ) (link : NetLink) : Prop :=
  ∃ c ∈ cells, ∃ cell, net.cells c = some cell ∧
    ¬(cell.type.isSoft = true ∧ cell.type.isSubnet = true) ∧ ∃ k, cell.links[k]? =
    some link.source ∧ link.target = ⟨c, k⟩

theorem linksOf_append {cells cells' : List ℕ} :
    LinksOf net (cells ++ cells') link ↔ LinksOf net cells link ∨ LinksOf net cells' link := by
  simp only [LinksOf, mem_append, or_and_right, exists_or]

theorem exists_fillLinks : ∀ (cells : List ℕ), (∀ c ∈ cells, ∃ cell, net.cells c = some cell ∧
    cell.links.length < 2 ^ 16 ∧ Signalled cell none) → ∃ ls, fillLinks net none cells = some ls ∧
    ∀ link, link ∈ ls.map Prod.fst ↔ LinksOf net cells link := by
  intro cells
  induction cells with
  | nil => exact fun _ => ⟨[], rfl, fun link => by simp [LinksOf]⟩
  | cons c cells ih =>
    intro h
    obtain ⟨cell, hcell, hlen, hsignal⟩ := h c mem_cons_self
    obtain ⟨rest, hrest, hmem⟩ := ih fun c' hc' => h c' (mem_cons_of_mem c hc')
    obtain ⟨ls, hls, hlinks⟩ : ∃ ls, (if cell.type.isSoft ∧ cell.type.isSubnet then some [] else
      getLinks net c none) = some ls ∧
        ∀ link, link ∈ ls.map Prod.fst ↔ LinksOf net [c] link := by
      split
      · rename_i hsoft
        refine ⟨[], rfl, fun link => ⟨fun h => (by cases h), ?_⟩⟩
        rintro ⟨c', hc', cell', hcell', hnot, -⟩
        obtain rfl := mem_singleton.mp hc'
        cases hcell.symm.trans hcell'
        exact absurd hsoft hnot
      · rename_i hsoft
        obtain ⟨ls, hls, -, hlinks⟩ := exists_getLinks none hcell hlen hsignal
        refine ⟨ls, hls, fun link => (hlinks link).trans ⟨?_, ?_⟩⟩
        · rintro ⟨k, l, hl, rfl⟩
          exact ⟨c, List.mem_singleton_self c, cell, hcell, hsoft, k, hl, rfl⟩
        · rintro ⟨c', hc', cell', hcell', -, k, hl, ht⟩
          obtain rfl := mem_singleton.mp hc'
          cases hcell.symm.trans hcell'
          exact ⟨k, _, hl, by rw [← ht]⟩
    refine ⟨ls ++ rest, ?_, fun link => ?_⟩
    · rw [fillLinks, hcell, bind_eq_bind, bind_some]
      split at hls
      · rename_i hsoft
        cases hls
        simp only [if_pos hsoft, hrest, bind_eq_bind, bind_some]
      · rename_i hsoft
        simp only [if_neg hsoft, hls, hrest, bind_eq_bind, bind_some]
    · rw [map_append, mem_append, hlinks, hmem, ← linksOf_append, List.singleton_append]

/-! ### The search -/

def Reaches (net : Net) (context context' : NetTraversalContext) : Prop :=
  ∃ n, ∀ m, run net (n + m) context = run net m context'

theorem Reaches.refl (context : NetTraversalContext) : Reaches net context context :=
  ⟨0, fun m => by rw [Nat.zero_add]⟩

theorem Reaches.trans {context'' : NetTraversalContext} (h : Reaches net context context')
    (h' : Reaches net context' context'') : Reaches net context context'' := by
  obtain ⟨n, hn⟩ := h
  obtain ⟨n', hn'⟩ := h'
  exact ⟨n + n', fun m => by rw [Nat.add_assoc, hn, hn']⟩

theorem Reaches.step (hstack : context.stack = entry :: stack)
    (h : context.iterate net entry stack = some context') : Reaches net context context' := by
  refine ⟨1, fun m => ?_⟩
  rw [Nat.add_comm, run, hstack]
  simp only [h, bind_eq_bind, bind_some]

def Found (net : Net) (context : NetTraversalContext) (cells : List ℕ) (source : LinkEnd) : Prop :=
  ∃ cell, net.cells source.cellID = some cell ∧ source.port < cell.type.nOut ∧
    (isInputType cell.type = true → makeInputLink ⟨source, source⟩ ∈ context.component.inputs) ∧
    (isInputType cell.type = false → source.cellID ∈ cells ∨
    ∃ k, context.belongsTo source.cellID = some k ∧ k ∈ context.merging)

def InputsKnown (net : Net) (component : NetComponent) : Prop :=
  ∀ l ∈ component.inputs, (component.inputsDesc l).isSome ∧ (net.cells l.source.cellID).isSome

structure Explored (net : Net) (context context' : NetTraversalContext) (visited : List ℕ)
    (sources : List LinkEnd) : Prop where
  components : context'.components = context.components
  belongsTo : context'.belongsTo = context.belongsTo
  outputs : context'.component.outputs = context.component.outputs
  outputsDesc : context'.component.outputsDesc = context.component.outputsDesc
  inners : context'.component.inners = context.component.inners ++ visited
  cells : ∀ c, c ∈ context'.componentCells ↔ c ∈ context.componentCells ∨ c ∈ visited
  fresh : ∀ c ∈ visited, context.belongsTo c = none
  inputs : ∀ l ∈ context.component.inputs, l ∈ context'.component.inputs
  known : InputsKnown net context.component → InputsKnown net context'.component
  merging : ∀ k ∈ context.merging, k ∈ context'.merging
  merged : ∀ k ∈ context'.merging, k ∈ context.merging ∨ ∃ c, context.belongsTo c = some k
  order : ∀ A c B, visited = A ++ c :: B → ∃ cell, net.cells c = some cell ∧
    isInputType cell.type = false ∧ ∀ l ∈ cell.links,
    Found net context' (context.component.inners ++ A) l
  found : ∀ source ∈ sources, Found net context' context'.component.inners source

variable {context'' : NetTraversalContext} {visited visited' : List ℕ}
  {sources sources' : List LinkEnd}

theorem Explored.refl (context : NetTraversalContext) : Explored net context context [] [] where
  components := rfl
  belongsTo := rfl
  outputs := rfl
  outputsDesc := rfl
  inners := (append_nil _).symm
  cells _ := by simp
  fresh _ h := by cases h
  inputs _ h := h
  known h := h
  merging _ h := h
  merged _ h := .inl h
  order A c B h := by cases A <;> cases h
  found _ h := by cases h

theorem Found.mono {cells cells' : List ℕ} (h : Explored net context context' visited sources)
    (hf : Found net context cells source) (hsub : ∀ c ∈ cells, c ∈ cells') :
    Found net context' cells' source := by
  obtain ⟨cell, hcell, hport, hin, hinner⟩ := hf
  refine ⟨cell, hcell, hport, fun htype => h.inputs _ (hin htype), fun htype => ?_⟩
  rcases hinner htype with hmem | ⟨k, hk, hmem⟩
  · exact .inl (hsub _ hmem)
  · exact .inr ⟨k, h.belongsTo ▸ hk, h.merging k hmem⟩

theorem Explored.trans (h : Explored net context context' visited sources)
    (h' : Explored net context' context'' visited' sources') :
    Explored net context context'' (visited ++ visited') (sources ++ sources') where
  components := h'.components.trans h.components
  belongsTo := h'.belongsTo.trans h.belongsTo
  outputs := h'.outputs.trans h.outputs
  outputsDesc := h'.outputsDesc.trans h.outputsDesc
  inners := by rw [h'.inners, h.inners, append_assoc]
  cells c := by rw [h'.cells, h.cells, mem_append, or_assoc]
  fresh c hc := by
    rcases mem_append.mp hc with hc | hc
    · exact h.fresh c hc
    · exact h.belongsTo ▸ h'.fresh c hc
  inputs l hl := h'.inputs l (h.inputs l hl)
  known hk := h'.known (h.known hk)
  merging k hk := h'.merging k (h.merging k hk)
  merged k hk := by
    rcases h'.merged k hk with hk | ⟨c, hc⟩
    · exact h.merged k hk
    · exact .inr ⟨c, h.belongsTo ▸ hc⟩
  order A c B heq := by
    rcases List.append_eq_append_iff.mp heq with ⟨A', rfl, hA'⟩ | ⟨B', hA, hB⟩
    · obtain ⟨cell, hcell, htype, hfound⟩ := h'.order A' c B hA'
      rw [h.inners] at hfound
      exact ⟨cell, hcell, htype, fun l hl => append_assoc _ _ _ ▸ hfound l hl⟩
    · cases B' with
      | nil =>
        obtain ⟨cell, hcell, htype, hfound⟩ := h'.order [] c B hB.symm
        rw [h.inners] at hfound
        rw [append_nil] at hA
        subst hA
        exact ⟨cell, hcell, htype, fun l hl => by simpa using hfound l hl⟩
      | cons b B' =>
        cases hB
        obtain ⟨cell, hcell, htype, hfound⟩ := h.order A c B' hA
        exact ⟨cell, hcell, htype, fun l hl => (hfound l hl).mono h' fun _ hc => hc⟩
  found source hs := by
    rcases mem_append.mp hs with hs | hs
    · refine (h.found source hs).mono h' fun c hc => ?_
      rw [h'.inners]
      exact List.mem_append_left _ hc
    · exact h'.found source hs

/-- A port of a cell, of one with a smaller rank if it is an inner cell. -/
def Ranked (net : Net) (rank : ℕ → ℕ) (r : ℕ) (source : LinkEnd) : Prop :=
  ∃ cell, net.cells source.cellID = some cell ∧ source.port < cell.type.nOut ∧
    (isInputType cell.type = false → rank source.cellID < r)

/-- The cells that are not visited yet have greater ranks; they are on the stack. -/
def Pending (rank : ℕ → ℕ) (r : ℕ) (context : NetTraversalContext) : Prop :=
  ∀ c ∈ context.componentCells, rank c < r → c ∈ context.component.inners

variable {rank : ℕ → ℕ} {r : ℕ}

theorem Explored.pending (h : Explored net context context' visited sources)
    (hp : Pending rank r context) : Pending rank r context' := by
  intro c hc hr
  rw [h.inners, mem_append]
  rcases (h.cells c).mp hc with hc | hc
  · exact .inl (hp c hc hr)
  · exact .inr hc

def Explores (net : Net) (rank : ℕ → ℕ) (r : ℕ) : Prop :=
  ∀ (context : NetTraversalContext) (c : ℕ) (links : LinkDescVec) (idx : ℕ)
    (stack : List NetTraversalEntry), context.stack = ⟨some c, links, idx⟩ :: stack →
    idx ≤ links.length → (∀ x ∈ links.drop idx, Ranked net rank r x.1.source) →
    Pending rank r context → ∃ context' visited, Reaches net context context' ∧ context'.stack =
    ⟨some c, links, links.length⟩ :: stack ∧
      Explored net context context' visited ((links.drop idx).map fun x => x.1.source)

private theorem explored_single {source : LinkEnd}
    (hinners : context'.component.inners = context.component.inners)
    (hcomponents : context'.components = context.components)
    (hbelongs : context'.belongsTo = context.belongsTo)
    (houtputs : context'.component.outputs = context.component.outputs)
    (hdesc : context'.component.outputsDesc = context.component.outputsDesc)
    (hcells : context'.componentCells = context.componentCells)
    (hinputs : ∀ l ∈ context.component.inputs, l ∈ context'.component.inputs)
    (hknown : InputsKnown net context.component → InputsKnown net context'.component)
    (hmerging : ∀ k ∈ context.merging, k ∈ context'.merging)
    (hmerged : ∀ k ∈ context'.merging, k ∈ context.merging ∨ ∃ c, context.belongsTo c = some k)
    (hfound : Found net context' context'.component.inners source) :
    Explored net context context' [] [source] where
  components := hcomponents
  belongsTo := hbelongs
  outputs := houtputs
  outputsDesc := hdesc
  inners := hinners.trans (append_nil _).symm
  cells c := by simp [hcells]
  fresh _ h := by cases h
  inputs := hinputs
  known := hknown
  merging := hmerging
  merged := hmerged
  order A c B h := by cases A <;> cases h
  found s hs := mem_singleton.mp hs ▸ hfound

private theorem explored_cell {c : ℕ} {start : NetTraversalContext}
    (hfresh : start.belongsTo c = none) (hcell : net.cells c = some cell)
    (htype : isInputType cell.type = false) (hport : source.port < cell.type.nOut)
    (hc : source.cellID = c) (h : Explored net context context' visited cell.links)
    (hmid : context.components = start.components ∧ context.belongsTo = start.belongsTo ∧
      context.component = start.component ∧ context.merging = start.merging ∧
      context.componentCells = c :: start.componentCells)
    (heq : context'' = { context'.addInner c with stack := stack }) :
    Explored net start context'' (visited ++ [c]) [source] := by
  obtain ⟨hcomponents, hbelongs, hcomponent, hmerging, hcells⟩ := hmid
  have hinners : context''.component.inners = context'.component.inners ++ [c] := by rw [heq]; rfl
  have hfound : ∀ {cells : List ℕ} {s : LinkEnd}, Found net context' cells s →
      Found net context'' cells s := by
    rw [heq]
    exact fun h => h
  refine ⟨?_, ?_, ?_, ?_, ?_, fun d => ?_, fun d hd => ?_, fun l hl => ?_, fun hk => ?_,
    fun k hk => ?_, fun k hk => ?_, fun A d B hAB => ?_, fun s hs => ?_⟩
  · rw [heq]
    exact h.components.trans hcomponents
  · rw [heq]
    exact h.belongsTo.trans hbelongs
  · rw [heq]
    exact h.outputs.trans (hcomponent ▸ rfl)
  · rw [heq]
    exact h.outputsDesc.trans (hcomponent ▸ rfl)
  · rw [hinners, h.inners, hcomponent, append_assoc]
  · have hd : d ∈ context''.componentCells ↔ d ∈ context'.componentCells := by rw [heq]; rfl
    rw [hd, h.cells, hcells, mem_cons, mem_append, mem_singleton]
    tauto
  · rcases mem_append.mp hd with hd | hd
    · exact hbelongs ▸ h.fresh d hd
    · exact mem_singleton.mp hd ▸ hfresh
  · rw [heq]
    exact h.inputs l (hcomponent ▸ hl)
  · rw [heq]
    exact h.known (hcomponent ▸ hk)
  · rw [heq]
    exact h.merging k (hmerging ▸ hk)
  · rw [heq] at hk
    rcases h.merged k hk with hk | ⟨d, hd⟩
    · exact .inl (hmerging ▸ hk)
    · exact .inr ⟨d, hbelongs ▸ hd⟩
  · rcases List.append_eq_append_iff.mp hAB with ⟨A', rfl, hA'⟩ | ⟨B', hA, hB⟩
    · cases A' with
      | nil =>
        cases hA'
        refine ⟨cell, hcell, htype, fun l hl => hfound ?_⟩
        rw [append_nil, ← hcomponent, ← h.inners]
        exact h.found l hl
      | cons a A' =>
        rw [List.cons_append, List.cons.injEq] at hA'
        exact absurd hA'.2 (by simp)
    · cases B' with
      | nil =>
        rw [append_nil] at hA
        cases hB
        subst hA
        refine ⟨cell, hcell, htype, fun l hl => hfound ?_⟩
        rw [← hcomponent, ← h.inners]
        exact h.found l hl
      | cons b B' =>
        cases hB
        obtain ⟨cell', hcell', htype', hlinks⟩ := h.order A d B' hA
        exact ⟨cell', hcell', htype', fun l hl => hfound (hcomponent ▸ hlinks l hl)⟩
  · obtain rfl := mem_singleton.mp hs
    refine ⟨cell, hc ▸ hcell, hport, fun h => absurd (htype.symm.trans h) (by decide),
      fun _ => .inl ?_⟩
    rw [hinners, hc]
    exact List.mem_append_right _ (List.mem_singleton_self c)

structure Searchable (net : Net) (rank : ℕ → ℕ) : Prop where
  width : ∀ c cell, net.cells c = some cell → cell.links.length < 2 ^ 16
  source : ∀ c cell, net.cells c = some cell → ∀ l ∈ cell.links, ∃ source, net.cells l.cellID =
    some source ∧ l.port < source.type.nOut
  rank : ∀ c cell, net.cells c = some cell → isInputType cell.type = false →
    ∀ l ∈ cell.links, ∀ source, net.cells l.cellID = some source → isInputType source.type = false →
    rank l.cellID < rank c

theorem Searchable.ranked (h : Searchable net rank) (hcell : net.cells c = some cell)
    (htype : isInputType cell.type = false) : ∀ l ∈ cell.links, Ranked net rank (rank c) l := by
  intro l hl
  obtain ⟨source, hsource, hport⟩ := h.source c cell hcell l hl
  exact ⟨source, hsource, hport, h.rank c cell hcell htype l hl source hsource⟩

theorem exists_visitLink (hnet : Searchable net rank) (hr : ∀ r' < r, Explores net rank r')
    (context : NetTraversalContext) (desc : SignalType) (entry : NetTraversalEntry)
    (stack : List NetTraversalEntry) (hsource : Ranked net rank r link.source)
    (hp : Pending rank r context) : ∃ context₁ context' visited, context.visitLink net entry stack
    link desc = some context₁ ∧ Reaches net context₁ context' ∧
      context'.stack = { entry with linkIndex := entry.linkIndex + 1 } :: stack ∧
      Explored net (context.addEnds (entry.cellID = none) false link desc) context' visited
      [link.source] := by
  obtain ⟨cell, hcell, hport, hrank⟩ := hsource
  have hinputLink : isInputLink net link = some (isInputType cell.type) := by
    rw [isInputLink, hcell]; rfl
  set start := context.addEnds (entry.cellID = none) false link desc with hstart
  set stack' := { entry with linkIndex := entry.linkIndex + 1 } :: stack with hstack'
  have hvisit : context.visitLink net entry stack link desc = if isInputType cell.type then
      some { start.addInput (makeInputLink link) desc with stack := stack' } else
      { start with stack := stack' }.push net link.source.cellID desc := by
    rw [visitLink, hinputLink, bind_eq_bind, bind_some]
    cases isInputType cell.type <;> rfl
  rw [hvisit]
  cases htype : isInputType cell.type with
  | true =>
    refine ⟨_, _, [], rfl, .refl _, rfl, explored_single rfl rfl rfl rfl rfl rfl
      (fun l hl => List.mem_insert_of_mem hl) (fun hk l hl => ?_) (fun _ h => h)
        (fun _ h => .inl h) ?_⟩
    · change (Function.update start.component.inputsDesc (makeInputLink link)
        (some desc) l).isSome ∧ _
      rw [Function.update_apply]
      rcases List.mem_insert_iff.mp hl with rfl | hl
      · exact ⟨by rw [if_pos rfl]; rfl, by rw [makeInputLink, hcell]; rfl⟩
      · obtain ⟨hdesc, hcell'⟩ := hk l hl
        refine ⟨?_, hcell'⟩
        split
        · rfl
        · exact hdesc
    · exact ⟨cell, hcell, hport, fun _ => List.mem_insert_self, fun h => absurd (htype.symm.trans h)
        (by decide)⟩
  | false =>
    rw [if_neg (by decide)]
    cases hbelongs : start.belongsTo link.source.cellID with
    | some i =>
      have hmem : ∀ k, k ∈ (if i ∈ start.merging then start.merging else
          start.merging.orderedInsert (· ≤ ·) i) ↔ k = i ∨ k ∈ start.merging := by
        intro k
        split
        · rename_i hi
          exact ⟨.inr, fun h => h.elim (fun h => h ▸ hi) id⟩
        · exact List.mem_orderedInsert _
      rw [push_of_belongsTo { start with stack := stack' } hbelongs]
      refine ⟨_, _, [], rfl, .refl _, rfl, explored_single rfl rfl rfl rfl rfl rfl
        (fun _ h => h) (fun h => h) (fun k hk => (hmem k).mpr (.inr hk)) (fun k hk => ?_) ?_⟩
      · rcases (hmem k).mp hk with rfl | hk
        · exact .inr ⟨_, hbelongs⟩
        · exact .inl hk
      · exact ⟨cell, hcell, hport, fun h => absurd (htype.symm.trans h) (by decide),
          fun _ => .inr ⟨i, hbelongs, (hmem i).mpr (.inl rfl)⟩⟩
    | none =>
      have hp' : Pending rank r start := by
        intro d hd hlt
        have hinners : start.component.inners = context.component.inners ∧ start.componentCells =
            context.componentCells := by
          rw [hstart]
          cases decide (entry.cellID = none) <;> exact ⟨rfl, rfl⟩
        exact hinners.1 ▸ hp d (hinners.2 ▸ hd) hlt
      by_cases hmem : link.source.cellID ∈ start.componentCells
      · rw [push_of_mem { start with stack := stack' } hbelongs hmem]
        refine ⟨_, _, [], rfl, .refl _, rfl, explored_single rfl rfl rfl rfl rfl rfl (fun _ h => h)
          (fun h => h) (fun _ h => h) (fun _ h => .inl h) ?_⟩
        exact ⟨cell, hcell, hport, fun h => absurd (htype.symm.trans h) (by decide),
          fun _ => .inl (hp' _ hmem (hrank htype))⟩
      · obtain ⟨links, hlinks, hsources, -⟩ :=
          exists_getLinks (some desc) hcell (hnet.width _ _ hcell)
          fun _ h => by cases h
        rw [push_of_new { start with stack := stack' } hbelongs hmem hlinks]
        set context₁ : NetTraversalContext := { start with
          componentCells := link.source.cellID :: start.componentCells
          stack := ⟨some link.source.cellID, links, 0⟩ :: stack' } with hcontext₁
        have hlower : ∀ x ∈ links.drop 0, Ranked net rank (rank link.source.cellID) x.1.source := by
          intro x hx
          refine hnet.ranked hcell htype _ ?_
          rw [← hsources]
          exact List.mem_map_of_mem hx
        have hp₁ : Pending rank (rank link.source.cellID) context₁ := by
          intro d hd hlt
          rcases mem_cons.mp hd with rfl | hd
          · exact absurd hlt (Nat.lt_irrefl _)
          · exact hp' d hd (hlt.trans (hrank htype))
        obtain ⟨context₂, visited, hreach, hstack, hexplored⟩ :=
          hr (rank link.source.cellID) (hrank htype) context₁ link.source.cellID
          links 0 stack' rfl (Nat.zero_le _) hlower hp₁
        rw [List.drop_zero, hsources] at hexplored
        refine ⟨context₁, { context₂.addInner link.source.cellID with stack := stack' }, _, rfl,
          hreach.trans (Reaches.step hstack ?_), rfl,
          explored_cell hbelongs hcell htype hport rfl hexplored
            ⟨rfl, rfl, rfl, rfl, rfl⟩ rfl⟩
        rw [iterate, closeComponent, if_neg (by simp), bind_eq_bind, bind_some,
          getElem?_eq_none (Nat.le_refl _)]
        simp

theorem explores (hnet : Searchable net rank) : ∀ r, Explores net rank r := by
  intro r
  induction r using Nat.strong_induction_on with
  | _ r ih =>
    intro context c links idx stack hstack hidx hranked hp
    induction hn : links.length - idx generalizing context idx with
    | zero =>
      obtain rfl : idx = links.length := by omega
      refine ⟨context, [], .refl _, hstack, ?_⟩
      rw [List.drop_length]
      exact .refl context
    | succ n ihn =>
      have hlt : idx < links.length := by omega
      rw [List.drop_eq_getElem_cons hlt] at hranked ⊢
      obtain ⟨context₁, context₂, visited, hvisit, hreach, hstack₂, hexplored⟩ :=
        exists_visitLink hnet ih context links[idx].2
        ⟨some c, links, idx⟩ stack (hranked _ mem_cons_self) hp
      obtain ⟨context', visited', hreach', hstack', hexplored'⟩ :=
        ihn context₂ (idx + 1) hstack₂ hlt
        (fun x hx => hranked x (mem_cons_of_mem _ hx)) (hexplored.pending hp) (by omega)
      refine ⟨context', visited ++ visited', (Reaches.step hstack ?_).trans (hreach.trans hreach'),
        hstack', hexplored.trans hexplored'⟩
      rw [iterate, closeComponent, if_neg (by simp), bind_eq_bind, bind_some]
      simp only [getElem?_eq_getElem hlt]
      exact hvisit

/-! ### Closed components -/

def Available (net : Net) (component : NetComponent) (old : ℕ → Prop) (cells : List ℕ)
    (source : LinkEnd) : Prop :=
  ∃ cell, net.cells source.cellID = some cell ∧ source.port < cell.type.nOut ∧
    (isInputType cell.type = true → makeInputLink ⟨source, source⟩ ∈ component.inputs) ∧
    (isInputType cell.type = false → source.cellID ∈ cells ∨ old source.cellID)

structure ClosedOver (net : Net) (old : ℕ → Prop) (component : NetComponent) : Prop where
  order : ∀ A c B, component.inners = A ++ c :: B → ∃ cell, net.cells c = some cell ∧
    isInputType cell.type = false ∧ ∀ l ∈ cell.links, Available net component old A l
  outputs : ∀ o ∈ component.outputs, Available net component old component.inners o.source ∧
    (component.outputsDesc o).isSome ∧ (net.cells o.target.cellID).isSome
  inputs : InputsKnown net component

abbrev Closed (net : Net) (component : NetComponent) : Prop :=
  ClosedOver net (fun _ => False) component

variable {root next : NetComponent} {old old' : ℕ → Prop} {cells cells' : List ℕ}

theorem closed_empty (net : Net) : Closed net {} where
  order A c B h := by cases A <;> cases h
  outputs o h := by cases h
  inputs l h := by cases h

theorem Available.mono (h : Available net component old cells source)
    (hinputs : ∀ l ∈ component.inputs, l ∈ root.inputs) (hcells : ∀ c, c ∈ cells ∨ old c →
    c ∈ cells' ∨ old' c) : Available net root old' cells' source := by
  obtain ⟨cell, hcell, hport, hin, hinner⟩ := h
  exact ⟨cell, hcell, hport, fun htype => hinputs _ (hin htype),
    fun htype => hcells _ (hinner htype)⟩

theorem ClosedOver.mono (h : ClosedOver net old component) (hold : ∀ c, old c → old' c) :
    ClosedOver net old' component := by
  refine ⟨fun A c B hAB => ?_, fun o ho => ?_, h.inputs⟩
  · obtain ⟨cell, hcell, htype, hlinks⟩ := h.order A c B hAB
    exact ⟨cell, hcell, htype,
      fun l hl => (hlinks l hl).mono (fun _ h => h) fun c hc => hc.imp_right (hold c)⟩
  · obtain ⟨havail, hrest⟩ := h.outputs o ho
    exact ⟨havail.mono (fun _ h => h) fun c hc => hc.imp_right (hold c), hrest⟩

/-- A component can be merged into one that has the older cells. -/
theorem ClosedOver.merge (h : Closed net root) (h' : ClosedOver net (· ∈ root.inners) next) :
    Closed net (root.merge next) := by
  have hleft : ∀ l ∈ root.inputs, l ∈ (root.merge next).inputs :=
    fun l hl => mem_union_iff.mpr (.inr hl)
  have hright : ∀ l ∈ next.inputs, l ∈ (root.merge next).inputs :=
    fun l hl => mem_union_iff.mpr (.inl hl)
  refine ⟨fun A c B hAB => ?_, fun o ho => ?_, fun l hl => ?_⟩
  · rcases List.append_eq_append_iff.mp hAB with ⟨A', rfl, hA'⟩ | ⟨B', hA, hB⟩
    · obtain ⟨cell, hcell, htype, hlinks⟩ := h'.order A' c B hA'
      exact ⟨cell, hcell, htype,
        fun l hl => (hlinks l hl).mono hright fun c hc => .inl (by rw [mem_append]; tauto)⟩
    · cases B' with
      | nil =>
        rw [append_nil] at hA
        obtain ⟨cell, hcell, htype, hlinks⟩ := h'.order [] c B hB.symm
        exact ⟨cell, hcell, htype,
          fun l hl => (hlinks l hl).mono hright fun c hc => .inl (by simpa [hA] using hc)⟩
      | cons b B' =>
        cases hB
        obtain ⟨cell, hcell, htype, hlinks⟩ := h.order A c B' hA
        exact ⟨cell, hcell, htype, fun l hl => (hlinks l hl).mono hleft fun c hc => hc⟩
  · rcases mem_union_iff.mp ho with ho | ho
    · obtain ⟨havail, hdesc, htarget⟩ := h'.outputs o ho
      refine ⟨havail.mono hright fun c hc => .inl (mem_append.mpr hc.symm), ?_, htarget⟩
      change ((root.outputsDesc o).or (next.outputsDesc o)).isSome
      rw [Option.isSome_or, hdesc, Bool.or_true]
    · obtain ⟨havail, hdesc, htarget⟩ := h.outputs o ho
      refine ⟨havail.mono hleft fun c hc => hc.imp_left (List.mem_append_left _), ?_, htarget⟩
      change ((root.outputsDesc o).or (next.outputsDesc o)).isSome
      rw [Option.isSome_or, hdesc, Bool.true_or]
  · change ((root.inputsDesc l).or (next.inputsDesc l)).isSome ∧ _
    rw [Option.isSome_or]
    rcases mem_union_iff.mp hl with hl | hl
    · obtain ⟨hdesc, hcell⟩ := h'.inputs l hl
      exact ⟨by rw [hdesc, Bool.or_true], hcell⟩
    · obtain ⟨hdesc, hcell⟩ := h.inputs l hl
      exact ⟨by rw [hdesc, Bool.true_or], hcell⟩

structure Covers (net : Net) (done : LinkDescVec) (components : List NetComponent)
    (belongsTo : ℕ → Option ℕ) : Prop where
  closed : ∀ comp ∈ components, Closed net comp
  belongs : ∀ c k, belongsTo c = some k ↔ ∃ comp, components[k]? = some comp ∧ c ∈ comp.inners
  covered : ∀ link, link ∈ done.map Prod.fst ↔ ∃ comp ∈ components, link ∈ comp.outputs

variable {done : LinkDescVec} {belongsTo : ℕ → Option ℕ}

theorem Covers.merge (done' : LinkDescVec) (h : Covers net done components belongsTo)
    (hroot : components[index]? = some root) (hnext : ClosedOver net (· ∈ root.inners) next)
    (hne : k ≠ index) (hk : ∀ comp, components[k]? = some comp → comp = next)
    (hcells : ∀ c ∈ next.inners, ∀ i, belongsTo c = some i → i = k)
    (hdone : ∀ link, link ∈ done'.map Prod.fst ↔ link ∈ next.outputs ∨ link ∈ done.map Prod.fst) :
    Covers net done' ((components.set index (root.merge next)).set k {})
    (assign belongsTo next.inners index) := by
  have hindex := (List.getElem?_eq_some_iff.mp hroot).1
  have hget : ∀ m comp, ((components.set index (root.merge next)).set k {})[m]? = some comp ↔
      (m = k ∧ k < components.length ∧ comp = {}) ∨ (m = index ∧ comp = root.merge next) ∨
        (m ≠ k ∧ m ≠ index ∧ components[m]? = some comp) := by
    intro m comp
    rw [List.getElem?_set, List.length_set, List.getElem?_set]
    by_cases hmk : k = m
    · subst hmk
      rw [if_pos rfl]
      split <;> simp_all [eq_comm]
    · rw [if_neg hmk]
      by_cases hmi : index = m
      · subst hmi
        rw [if_pos rfl, if_pos hindex]
        simp_all [eq_comm]
      · rw [if_neg hmi]
        simp_all [eq_comm]
  refine ⟨fun comp hcomp => ?_, fun c m => ?_, fun link => ?_⟩
  · obtain ⟨m, hm⟩ := List.mem_iff_getElem?.mp hcomp
    rcases (hget m comp).mp hm with ⟨-, -, rfl⟩ | ⟨-, rfl⟩ | ⟨-, -, hm⟩
    · exact closed_empty net
    · exact (h.closed root (mem_of_getElem? hroot)).merge hnext
    · exact h.closed comp (mem_of_getElem? hm)
  · rw [assign]
    split
    · rename_i hc
      constructor
      · intro heq
        cases heq
        exact ⟨_, (hget index _).mpr (.inr (.inl ⟨rfl, rfl⟩)), List.mem_append_right _ hc⟩
      · rintro ⟨comp, hcomp, hmem⟩
        rcases (hget m comp).mp hcomp with ⟨-, -, rfl⟩ | ⟨rfl, -⟩ | ⟨hmk, -, hm⟩
        · cases hmem
        · rfl
        · exact absurd (hcells c hc m ((h.belongs c m).mpr ⟨comp, hm, hmem⟩)) hmk
    · rename_i hc
      constructor
      · intro hbelongs
        obtain ⟨comp, hcomp, hmem⟩ := (h.belongs c m).mp hbelongs
        by_cases hmk : m = k
        · subst hmk
          exact absurd (hk comp hcomp ▸ hmem) hc
        · by_cases hmi : m = index
          · subst hmi
            cases hroot.symm.trans hcomp
            exact ⟨_, (hget m _).mpr (.inr (.inl ⟨rfl, rfl⟩)), List.mem_append_left _ hmem⟩
          · exact ⟨comp, (hget m comp).mpr (.inr (.inr ⟨hmk, hmi, hcomp⟩)), hmem⟩
      · rintro ⟨comp, hcomp, hmem⟩
        rcases (hget m comp).mp hcomp with ⟨-, -, rfl⟩ | ⟨rfl, rfl⟩ | ⟨-, -, hm⟩
        · cases hmem
        · exact (h.belongs c m).mpr ⟨root, hroot, (mem_append.mp hmem).resolve_right hc⟩
        · exact (h.belongs c m).mpr ⟨comp, hm, hmem⟩
  · rw [hdone, h.covered]
    constructor
    · rintro (hlink | ⟨comp, hcomp, hlink⟩)
      · exact ⟨_, mem_of_getElem? ((hget index _).mpr (.inr (.inl ⟨rfl, rfl⟩))),
          mem_union_iff.mpr (.inl hlink)⟩
      · obtain ⟨m, hm⟩ := List.mem_iff_getElem?.mp hcomp
        by_cases hmk : m = k
        · subst hmk
          exact ⟨_, mem_of_getElem? ((hget index _).mpr (.inr (.inl ⟨rfl, rfl⟩))),
            mem_union_iff.mpr (.inl (hk comp hm ▸ hlink))⟩
        · by_cases hmi : m = index
          · subst hmi
            cases hroot.symm.trans hm
            exact ⟨_, mem_of_getElem? ((hget m _).mpr (.inr (.inl ⟨rfl, rfl⟩))),
              mem_union_iff.mpr (.inr hlink)⟩
          · exact ⟨comp, mem_of_getElem? ((hget m comp).mpr (.inr (.inr ⟨hmk, hmi, hm⟩))),
              hlink⟩
    · rintro ⟨comp, hcomp, hlink⟩
      obtain ⟨m, hm⟩ := List.mem_iff_getElem?.mp hcomp
      rcases (hget m comp).mp hm with ⟨-, -, rfl⟩ | ⟨rfl, rfl⟩ | ⟨-, -, hm⟩
      · cases hlink
      · rcases mem_union_iff.mp hlink with hlink | hlink
        · exact .inl hlink
        · exact .inr ⟨root, mem_of_getElem? hroot, hlink⟩
      · exact .inr ⟨comp, mem_of_getElem? hm, hlink⟩

theorem Covers.mergeComponents : ∀ (merging : List ℕ) (context : NetTraversalContext),
    Covers net done context.components context.belongsTo → index < context.components.length →
    (∀ i ∈ merging, i < context.components.length) →
    ∃ context', mergeComponents index merging context = some context' ∧
      Covers net done context'.components context'.belongsTo ∧ context'.components.length =
      context.components.length ∧ ∀ c, context'.belongsTo c = (context.belongsTo c).map fun i =>
      if i ∈ merging then index else i := by
  intro merging
  induction merging with
  | nil => exact fun context h _ _ => ⟨context, rfl, h, rfl, fun c => by simp⟩
  | cons i merging ih =>
    intro context h hindex hmerging
    have hrest := fun j hj => hmerging j (mem_cons_of_mem i hj)
    rw [NetTraversalContext.mergeComponents]
    by_cases hi : i = index
    · subst hi
      obtain ⟨context', hrun, hcovers, hlen, hbelongs⟩ := ih context h hindex hrest
      refine ⟨context', by rw [if_pos rfl]; exact hrun, hcovers, hlen, fun c => (hbelongs
        c).trans (congrFun (congrArg _ ?_) _)⟩
      funext j
      by_cases hj : j = i <;> simp [hj]
    · have hlt := hmerging i mem_cons_self
      have hroot := getElem?_eq_getElem hindex
      have hnext := getElem?_eq_getElem hlt
      have hunique : ∀ c ∈ (context.components[i]).inners, context.belongsTo c = some i :=
        fun c hc => (h.belongs c i).mpr ⟨_, hnext, hc⟩
      have hstep := h.merge done hroot ((h.closed _ (getElem_mem hlt)).mono fun _ h => h.elim)
        hi (fun comp hcomp => some.inj (hcomp.symm.trans hnext))
        (fun c hc j hj => some.inj (hj.symm.trans (hunique c hc)))
        (fun link => ⟨.inr, fun hlink => hlink.elim (fun hlink => (h.covered link).mpr ⟨_,
          getElem_mem hlt, hlink⟩) id⟩)
      obtain ⟨context', hrun, hcovers, hlen, hbelongs⟩ := ih ({ context with
        components := (context.components.set index
        ((context.components[index]).merge context.components[i])).set i {},
        belongsTo := assign context.belongsTo (context.components[i]).inners index }) hstep
        (by simpa using hindex) (by simpa using hrest)
      refine ⟨context', ?_, hcovers, by simpa using hlen, fun c => (hbelongs c).trans ?_⟩
      · rw [if_neg hi, hroot, hnext]
        exact hrun
      · change (assign context.belongsTo (context.components[i]).inners index c).map _ = _
        rw [assign]
        split
        · rename_i hc
          rw [hunique c hc]
          simp
        · rename_i hc
          cases hb : context.belongsTo c with
          | none => rfl
          | some j =>
            have hj : j ≠ i := by
              rintro rfl
              obtain ⟨comp, hcomp, hmem⟩ := (h.belongs c j).mp hb
              cases hnext.symm.trans hcomp
              exact hc hmem
            simp [hj]

/-- A component without older cells goes to the end of the list. -/
theorem Covers.append {done' : LinkDescVec} (h : Covers net done components belongsTo)
    (hclosed : Closed net component) (hfresh : ∀ c ∈ component.inners, belongsTo c = none)
    (hdone : ∀ link, link ∈ done'.map Prod.fst ↔ link ∈ component.outputs ∨
      link ∈ done.map Prod.fst) :
    Covers net done' (components ++ [component])
    (assign belongsTo component.inners components.length) := by
  have hget : ∀ m comp, (components ++ [component])[m]? = some comp ↔
      components[m]? = some comp ∨ (m = components.length ∧ comp = component) := by
    intro m comp
    rcases Nat.lt_trichotomy m components.length with hlt | rfl | hlt
    · rw [List.getElem?_append_left hlt]
      exact ⟨.inl, fun h => h.elim id fun h => absurd h.1 hlt.ne⟩
    · simp [eq_comm]
    · have hnone : (components ++ [component])[m]? = none :=
        getElem?_eq_none (by simpa using Nat.succ_le_of_lt hlt)
      rw [hnone, getElem?_eq_none hlt.le]
      exact ⟨.inl, fun h => h.elim id fun h => absurd h.1.symm hlt.ne⟩
  refine ⟨fun comp hcomp => ?_, fun c m => ?_, fun link => ?_⟩
  · rcases mem_append.mp hcomp with hcomp | hcomp
    · exact h.closed comp hcomp
    · exact mem_singleton.mp hcomp ▸ hclosed
  · simp only [hget, assign]
    split
    · rename_i hc
      constructor
      · intro heq
        cases heq
        exact ⟨component, .inr ⟨rfl, rfl⟩, hc⟩
      · rintro ⟨comp, hcomp | ⟨rfl, -⟩, hmem⟩
        · exact absurd ((h.belongs c m).mpr ⟨comp, hcomp, hmem⟩) (by rw [hfresh c hc]; simp)
        · rfl
    · rename_i hc
      rw [h.belongs]
      constructor
      · rintro ⟨comp, hcomp, hmem⟩
        exact ⟨comp, .inl hcomp, hmem⟩
      · rintro ⟨comp, hcomp | ⟨-, rfl⟩, hmem⟩
        · exact ⟨comp, hcomp, hmem⟩
        · exact absurd hmem hc
  · rw [hdone, h.covered]
    simp only [mem_append, mem_singleton, or_and_right, exists_or, exists_eq_left]
    exact or_comm

theorem Covers.makeComponent {done' : LinkDescVec}
    (h : Covers net done context.components context.belongsTo)
    (hclosed : ClosedOver net (fun c => ∃ k, context.belongsTo c = some k ∧
      k ∈ context.merging) context.component)
    (hmerging : ∀ k ∈ context.merging, ∃ c, context.belongsTo c = some k)
    (hfresh : ∀ c ∈ context.component.inners, context.belongsTo c = none)
    (hdone : ∀ link, link ∈ done'.map Prod.fst ↔ link ∈ context.component.outputs ∨
      link ∈ done.map Prod.fst) :
    ∃ context', context.makeComponent = some context' ∧
    Covers net done' context'.components context'.belongsTo := by
  cases hm : context.merging with
  | nil =>
    rw [hm] at hclosed
    refine ⟨_, by rw [NetTraversalContext.makeComponent, storeComponent, hm]; rfl, ?_⟩
    exact h.append (hclosed.mono fun c hc => by simp at hc) hfresh hdone
  | cons index merging =>
    have hlt : ∀ k ∈ context.merging, k < context.components.length := by
      intro k hk
      obtain ⟨c, hc⟩ := hmerging k hk
      obtain ⟨comp, hcomp, -⟩ := (h.belongs c k).mp hc
      exact (List.getElem?_eq_some_iff.mp hcomp).1
    have hindex : index < context.components.length := hlt index (hm ▸ mem_cons_self)
    obtain ⟨merged, hmerged, hcovers, hlen, hbelongs⟩ :=
      h.mergeComponents context.merging context hindex hlt
    obtain ⟨root, hroot⟩ : ∃ root, merged.components[index]? = some root :=
      ⟨_, getElem?_eq_getElem (hlen ▸ hindex)⟩
    have hstored : context.storeComponent = some { merged with
        components := merged.components.set index (root.merge context.component) } := by
      rw [hm] at hmerged
      rw [storeComponent, hm]
      simp only [hmerged, hroot, bind_eq_bind, bind_some]
    refine ⟨_, by rw [NetTraversalContext.makeComponent, hstored, hm]; rfl, ?_⟩
    have hold : ∀ c, (∃ k, context.belongsTo c = some k ∧ k ∈ context.merging) →
        c ∈ root.inners := by
      rintro c ⟨k, hk, hmem⟩
      obtain ⟨comp, hcomp, hmem⟩ :=
        (hcovers.belongs c index).mp (by rw [hbelongs, hk, Option.map_some, if_pos hmem])
      cases hroot.symm.trans hcomp
      exact hmem
    have hmake := hcovers.merge (k := merged.components.length) done' hroot (hclosed.mono hold)
      (by omega) (fun comp hcomp => by simp at hcomp)
      (fun c hc i hi => by rw [hbelongs, hfresh c hc] at hi; cases hi) hdone
    rw [List.set_eq_of_length_le (by simp)] at hmake
    exact hmake

/-! ### The loop over the outputs -/

structure Cleared (context : NetTraversalContext) : Prop where
  component : context.component = {}
  merging : context.merging = []
  componentCells : context.componentCells = []

private theorem Covers.explored (done' : LinkDescVec)
    (h : Covers net done context.components context.belongsTo)
    (hclear : Cleared context) (htarget : (net.cells link.target.cellID).isSome)
    (hexplored : Explored net (context.addEnds true false link desc) context' visited [link.source])
    (hdone : ∀ l, l ∈ done'.map Prod.fst ↔ l = link ∨ l ∈ done.map Prod.fst) :
    ∃ context'', context'.makeComponent = some context'' ∧
    Covers net done' context''.components context''.belongsTo := by
  have houtputs : context'.component.outputs = [link] := by
    rw [hexplored.outputs]
    change context.component.outputs.insert link = _
    rw [hclear.component]
    rfl
  have hdesc : context'.component.outputsDesc link = some desc := by
    rw [hexplored.outputsDesc]
    exact Function.update_self link _ _
  have hinners : context'.component.inners = visited := by
    rw [hexplored.inners]
    change context.component.inners ++ visited = _
    rw [hclear.component]
    rfl
  have hbelongs : context'.belongsTo = context.belongsTo := hexplored.belongsTo
  have hcomponents : context'.components = context.components := hexplored.components
  have hfound : ∀ {cells : List ℕ} {source : LinkEnd}, Found net context' cells source →
      Available net context'.component (fun c => ∃ k, context'.belongsTo c = some k ∧
      k ∈ context'.merging) cells source := fun h => h
  rw [← hbelongs, ← hcomponents] at h
  refine h.makeComponent ⟨fun A c B hAB => ?_, fun o ho => ?_, ?_⟩ (fun k hk => ?_) (fun c hc => ?_)
    (fun l => ?_)
  · obtain ⟨cell, hcell, htype, hlinks⟩ := hexplored.order A c B (hinners ▸ hAB)
    refine ⟨cell, hcell, htype, fun l hl => hfound ?_⟩
    have hl' := hlinks l hl
    change Found net context' (context.component.inners ++ A) l at hl'
    rw [hclear.component] at hl'
    exact hl'
  · rw [houtputs] at ho
    obtain rfl := mem_singleton.mp ho
    exact ⟨hfound (hexplored.found _ (List.mem_singleton_self _)), by rw [hdesc]; rfl, htarget⟩
  · refine hexplored.known fun l hl => ?_
    change l ∈ context.component.inputs at hl
    rw [hclear.component] at hl
    cases hl
  · rcases hexplored.merged k hk with hk | hk
    · change k ∈ context.merging at hk
      rw [hclear.merging] at hk
      cases hk
    · exact hbelongs ▸ hk
  · rw [hbelongs]
    exact hexplored.fresh c (hinners ▸ hc)
  · rw [hdone, houtputs, mem_singleton]

private theorem exists_stop (hnet : Searchable net rank) (outputs : LinkDescVec)
    (hne : outputs ≠ []) (hsources : ∀ x ∈ outputs, ∃ r, Ranked net rank r x.1.source)
    (htargets : ∀ x ∈ outputs, (net.cells x.1.target.cellID).isSome) :
    ∀ (n idx : ℕ) (context closed : NetTraversalContext), idx + n = outputs.length →
    context.stack = [⟨none, outputs, idx⟩] →
      context.closeComponent ⟨none, outputs, idx⟩ = some closed → Cleared closed →
      Covers net (outputs.take idx) closed.components closed.belongsTo →
      ∃ final, Reaches net context final ∧ final.stack = [] ∧
      Covers net outputs final.components final.belongsTo := by
  intro n
  induction n with
  | zero =>
    intro idx context closed hidx hstack hclosed hclear hcovers
    rw [Nat.add_zero] at hidx
    subst hidx
    rw [List.take_length] at hcovers
    refine ⟨{ closed with stack := [] }, Reaches.step hstack ?_, rfl, hcovers⟩
    rw [iterate, hclosed, bind_eq_bind, bind_some, getElem?_eq_none (Nat.le_refl _)]
    exact if_pos ⟨rfl, List.length_pos_iff.mpr hne⟩
  | succ n ih =>
    intro idx context closed hidx hstack hclosed hclear hcovers
    have hlt : idx < outputs.length := by omega
    obtain ⟨r, hranked⟩ := hsources _ (getElem_mem hlt)
    obtain ⟨context₁, context₂, visited, hvisit, hreach, hstack₂, hexplored⟩ :=
      exists_visitLink hnet
      (fun r' _ => explores hnet r') closed outputs[idx].2 ⟨none, outputs, idx⟩
      [] hranked fun c hc => by
        rw [hclear.componentCells] at hc
        cases hc
    obtain ⟨context₃, hmake, hcovers₃⟩ := hcovers.explored (outputs.take (idx + 1)) hclear
      (htargets _ (getElem_mem hlt)) hexplored fun l => by
        rw [← List.take_concat_get' outputs idx hlt, map_append, mem_append,
          List.map_singleton, mem_singleton, or_comm]
    obtain ⟨hcomponent, hmerging, hcells, -⟩ := makeComponent_frame hmake
    obtain ⟨final, hfinal, hempty, hall⟩ := ih (idx + 1) context₂ context₃ (by omega) hstack₂
      (by rw [closeComponent, if_pos ⟨rfl, Nat.succ_pos _⟩]; exact hmake)
      ⟨hcomponent, hmerging, hcells⟩ hcovers₃
    refine ⟨final, (Reaches.step hstack ?_).trans (hreach.trans hfinal), hempty, hall⟩
    rw [iterate, hclosed, bind_eq_bind, bind_some, getElem?_eq_getElem hlt]
    exact hvisit

structure Decomposed (net : Net) (components : List NetComponent) : Prop where
  closed : ∀ comp ∈ components, Closed net comp
  disjoint : ∀ (i j : ℕ) comp comp', components[i]? = some comp → components[j]? = some comp' →
    ∀ c ∈ comp.inners, c ∈ comp'.inners → i = j
  outputs : ∀ link, (∃ comp ∈ components, link ∈ comp.outputs) ↔
    LinksOf net (net.outputs ++ net.flipFlops ++ net.softBlocks ++ net.hardBlocks) link

/-- The search of a net without combinational loops ends and yields its components. -/
theorem exists_extractComponents (hnet : Searchable net rank)
    (hends : ∀ c ∈ net.outputs ++ net.flipFlops ++ net.softBlocks ++ net.hardBlocks,
      ∃ cell, net.cells c = some cell ∧ Signalled cell none) :
    ∃ components fuel, Decomposed net components ∧ ∀ m, extractComponents net (fuel + m) =
    some components := by
  have hlists : ∀ cells, (∀ c ∈ cells, c ∈ net.outputs ++ net.flipFlops ++ net.softBlocks ++
      net.hardBlocks) → ∃ ls, fillLinks net none cells = some ls ∧ ∀ link, link ∈ ls.map Prod.fst ↔
      LinksOf net cells link := by
    intro cells hsub
    refine exists_fillLinks cells fun c hc => ?_
    obtain ⟨cell, hcell, hsignal⟩ := hends c (hsub c hc)
    exact ⟨cell, hcell, hnet.width c cell hcell, hsignal⟩
  obtain ⟨ls₁, h₁, hmem₁⟩ := hlists net.outputs (by simp +contextual)
  obtain ⟨ls₂, h₂, hmem₂⟩ := hlists net.flipFlops (by simp +contextual)
  obtain ⟨ls₃, h₃, hmem₃⟩ := hlists net.softBlocks (by simp +contextual)
  obtain ⟨ls₄, h₄, hmem₄⟩ := hlists net.hardBlocks (by simp +contextual)
  set outputs := ls₁ ++ ls₂ ++ ls₃ ++ ls₄ with houtputs
  have hextract : extractOutputs net = some outputs := by rw [extractOutputs, h₁, h₂, h₃, h₄]; rfl
  have hmem : ∀ link, link ∈ outputs.map Prod.fst ↔
      LinksOf net (net.outputs ++ net.flipFlops ++ net.softBlocks ++ net.hardBlocks) link := by
    intro link
    simp only [houtputs, map_append, mem_append, hmem₁, hmem₂, hmem₃, hmem₄,
      linksOf_append]
  have hdecomposed : ∀ final : NetTraversalContext,
      Covers net outputs final.components final.belongsTo → Decomposed net final.components := by
    intro final h
    refine ⟨h.closed, fun i j comp comp' hi hj c hc hc' => ?_, fun link => ?_⟩
    · exact some.inj (((h.belongs c i).mpr ⟨comp, hi, hc⟩).symm.trans
        ((h.belongs c j).mpr ⟨comp', hj, hc'⟩))
    · rw [← h.covered, hmem]
  have hcovers : Covers net [] [] (fun _ => none) :=
    ⟨fun comp h => (by cases h), fun c k => by simp, fun link => by simp⟩
  by_cases hne : outputs = []
  · have hmake : NetTraversalContext.make net = some { stack := [] } := by
      rw [NetTraversalContext.make, hextract, hne]
      rfl
    refine ⟨[], 1, hdecomposed { stack := [] } (hne ▸ hcovers), fun m => ?_⟩
    rw [extractComponents, hmake, Nat.add_comm]
    rfl
  · have hmake : NetTraversalContext.make net = some { stack := [⟨none, outputs, 0⟩] } := by
      rw [NetTraversalContext.make, hextract]
      simp only [bind_eq_bind, bind_some, if_pos hne]
    have hlinks : ∀ x ∈ outputs, ∃ c cell, net.cells c = some cell ∧ x.1.source ∈ cell.links ∧
        x.1.target.cellID = c := by
      intro x hx
      obtain ⟨c, -, cell, hcell, -, k, hk, ht⟩ := (hmem x.1).mp (List.mem_map_of_mem hx)
      exact ⟨c, cell, hcell, mem_of_getElem? hk, by rw [ht]⟩
    obtain ⟨final, ⟨n, hreach⟩, hstack, hall⟩ := exists_stop hnet outputs hne (fun x hx => by
        obtain ⟨c, cell, hcell, hlink, -⟩ := hlinks x hx
        obtain ⟨source, hsource, hport⟩ := hnet.source c cell hcell _ hlink
        exact ⟨rank x.1.source.cellID + 1, source, hsource, hport, fun _ => Nat.lt_succ_self _⟩)
      (fun x hx => by
        obtain ⟨c, cell, hcell, -, rfl⟩ := hlinks x hx
        rw [hcell]
        rfl)
      outputs.length 0 { stack := [⟨none, outputs, 0⟩] } { stack := [⟨none, outputs, 0⟩] }
        (Nat.zero_add _) rfl rfl
      ⟨rfl, rfl, rfl⟩ hcovers
    refine ⟨final.components, n + 1, hdecomposed final hall, fun m => ?_⟩
    rw [extractComponents, hmake, bind_eq_bind, bind_some, Nat.add_assoc, hreach, Nat.add_comm,
      run, hstack]

end UtopiaEda.NetDecomposer
