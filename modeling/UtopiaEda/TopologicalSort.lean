import Mathlib.Data.Set.Finite.Basic
import Mathlib.Data.Fintype.Card
import Mathlib.Logic.Relation

/-!
# Topological sorting

`topologicalSort` is a depth-first search in postorder whose stack holds an iterator for every
node. All sources are on the stack from the beginning. The array of the sorted nodes is filled
from its end.
-/
namespace UtopiaEda.TopologicalSort
open List

/-- The graphs that the search works on. -/
structure Graph (V E : Type*) where
  nNodes : ℕ
  hasNode : V → Bool
  hasEdge : E → Bool
  getSources : List V
  getOutEdges : V → List E
  leadsTo : E → V

variable {V E : Type*}

/-- The edge is admitted and leads to a node. -/
def Graph.admits (g : Graph V E) (e : E) : Bool := g.hasEdge e && g.hasNode (g.leadsTo e)

section Algorithm
variable [DecidableEq V] (g : Graph V E)

def skipEdges (visitedNodes : List V) : List E → List E
  | [] => []
  | e :: es =>
    if g.admits e ∧ g.leadsTo e ∉ visitedNodes then e :: es else skipEdges visitedNodes es

/-- The traversal. A place on the stack is a node with its edges from the iterator on. Nothing: the
fuel does not suffice, or there are more nodes than places in the array. -/
def traverse : ℕ → List (V × List E) → List V → List V → Option (List V)
  | _, [], _, sortedNodes => some sortedNodes
  | 0, _ :: _, _, _ => none
  | n + 1, (v, i) :: searchStack, visitedNodes, sortedNodes =>
    match skipEdges g visitedNodes i with
    | e :: es =>
      let next := g.leadsTo e
      traverse n ((next, g.getOutEdges next) :: (v, e :: es) :: searchStack)
        (next :: visitedNodes) sortedNodes
    | [] =>
      if g.hasNode v then
        if sortedNodes.length < g.nNodes then
          traverse n searchStack visitedNodes (v :: sortedNodes) else none
      else traverse n searchStack visitedNodes sortedNodes

/-- `topologicalSort`; the last source comes to the top of the stack. -/
def topologicalSort (fuel : ℕ) : Option (List V) := do
  let sources := g.getSources.reverse
  if sources.isEmpty ≠ (g.nNodes == 0) then none
  else do
    let sortedNodes ← traverse g fuel (sources.map (fun v => (v, g.getOutEdges v))) sources []
    if sortedNodes.length = g.nNodes then some sortedNodes else none

end Algorithm

/-! The nodes of a graph. -/

/-- An admitted edge leads from `u` to `v`. -/
def Graph.Arc (g : Graph V E) (u v : V) : Prop :=
  ∃ e ∈ g.getOutEdges u, g.admits e ∧ g.leadsTo e = v

/-- The finite graph has the listed nodes; its admitted edges form no cycle, and its sources are the
nodes without admitted incoming edges. -/
structure Graph.Sortable (g : Graph V E) (nodes : List V) : Prop where
  nodup : nodes.Nodup
  nNodes : g.nNodes = nodes.length
  hasNode : ∀ v ∈ nodes, g.hasNode v
  closed : ∀ u ∈ nodes, ∀ v, g.Arc u v → v ∈ nodes
  acyclic : ∀ v ∈ nodes, ¬ Relation.TransGen g.Arc v v
  nodup_sources : g.getSources.Nodup
  sources : ∀ v, v ∈ g.getSources ↔ v ∈ nodes ∧ ∀ u ∈ nodes, ¬ g.Arc u v

theorem Graph.Sortable.perm {g : Graph V E} {nodes sources : List V} (h : g.Sortable nodes)
    (hs : sources.Perm g.getSources) : { g with getSources := sources }.Sortable nodes :=
  ⟨h.nodup, h.nNodes, h.hasNode, h.closed, h.acyclic, hs.nodup_iff.mpr h.nodup_sources,
    fun v => hs.mem_iff.trans (h.sources v)⟩

def Graph.Forward (g : Graph V E) (l : List V) : Prop :=
  ∀ A u B, l = A ++ u :: B → ∀ v, g.Arc u v → v ∈ B

variable {g : Graph V E} {nodes : List V}

/-- A set that contains the sources and what its elements lead to contains all nodes. -/
theorem Graph.Sortable.reached (h : g.Sortable nodes) {P : V → Prop} (hs : ∀ v ∈ g.getSources, P v)
    (hstep : ∀ u v, P u → g.Arc u v → P v) : ∀ v ∈ nodes, P v := by
  let r : {v // v ∈ nodes} → {v // v ∈ nodes} → Prop := fun a b => Relation.TransGen g.Arc a.1 b.1
  have hfin : Finite {v // v ∈ nodes} := finite_toSet nodes
  have htrans : IsTrans _ r := ⟨fun _ _ _ hab hbc => hab.trans hbc⟩
  have hirrefl : Std.Irrefl r := ⟨fun a => h.acyclic a.1 a.2⟩
  have hwf : WellFounded r := Finite.wellFounded_of_trans_of_irrefl r
  intro v hv
  suffices hall : ∀ a : {v // v ∈ nodes}, P a.1 from hall ⟨v, hv⟩
  intro a
  induction a using hwf.induction with
  | _ a ih =>
    by_cases hsource : a.1 ∈ g.getSources
    · exact hs _ hsource
    · obtain ⟨u, hu, harc⟩ : ∃ u ∈ nodes, g.Arc u a.1 := by
        by_contra hnone
        exact hsource ((h.sources _).mpr ⟨a.2, fun u hu harc => hnone ⟨u, hu, harc⟩⟩)
      exact hstep u a.1 (ih ⟨u, hu⟩ (.single harc)) harc

variable {stack : List (V × List E)} {visited sorted : List V} {v : V} {e : E} {es : List E}

/-- What the traversal keeps. The nodes on the stack that are not sources are reached from the
nodes below them. -/
structure Searching (g : Graph V E) (nodes : List V) (stack : List (V × List E))
    (visited sorted : List V) :
    Prop where
  nodup : (stack.map Prod.fst ++ sorted).Nodup
  mem : ∀ v, v ∈ visited ↔ v ∈ stack.map Prod.fst ∨ v ∈ sorted
  node : ∀ v ∈ visited, v ∈ nodes
  sources : ∀ v ∈ g.getSources, v ∈ visited
  below : (stack.map Prod.fst).Pairwise (fun a b => b ∈ g.getSources ∨ Relation.TransGen g.Arc b a)
  passed : ∀ p ∈ stack, ∃ before, g.getOutEdges p.1 = before ++ p.2 ∧
    ∀ e ∈ before, g.admits e → g.leadsTo e ∈ visited
  forward : g.Forward sorted

theorem Graph.Forward.nil (g : Graph V E) : g.Forward [] := fun A u B h => by simp at h

theorem Graph.Forward.cons (h : g.Forward sorted) (hv : ∀ w, g.Arc v w → w ∈ sorted) :
    g.Forward (v :: sorted) := by
  intro A u B heq w hw
  cases A with
  | nil =>
    obtain ⟨rfl, rfl⟩ := cons.inj heq
    exact hv w hw
  | cons a A => exact h A u B (cons.inj heq).2 w hw

theorem Graph.Forward.mem_before {l A B : List V} {u : V} (h : g.Forward l) (hnd : l.Nodup)
    (heq : l = A ++ v :: B) (hu : u ∈ l) (harc : g.Arc u v) : u ∈ A := by
  rw [heq, mem_append, mem_cons] at hu
  rcases hu with hu | rfl | hu
  · exact hu
  · have hself := h A u B heq u harc
    rw [heq] at hnd
    exact absurd hself (nodup_cons.mp (nodup_append.mp hnd).2.1).1
  · obtain ⟨B₁, B₂, rfl⟩ := append_of_mem hu
    have hlater := h (A ++ v :: B₁) u B₂ (by rw [heq]; simp) v harc
    rw [heq] at hnd
    exact absurd (mem_append_right B₁ (mem_cons_of_mem u hlater))
      (nodup_cons.mp (nodup_append.mp hnd).2.1).1

theorem Searching.init (h : g.Sortable nodes) :
    Searching g nodes (g.getSources.reverse.map (fun v => (v, g.getOutEdges v)))
    g.getSources.reverse [] := by
  have hfst : (g.getSources.reverse.map (fun v => (v, g.getOutEdges v))).map Prod.fst =
      g.getSources.reverse := by
    rw [map_map]
    exact map_id _
  refine ⟨?_, fun v => ?_, fun v hv => ?_, fun v hv => mem_reverse.mpr hv, ?_,
    fun p hp => ?_, .nil g⟩
  · rw [hfst, append_nil]
    exact nodup_reverse.mpr h.nodup_sources
  · rw [hfst]
    simp
  · exact ((h.sources v).mp (mem_reverse.mp hv)).1
  · rw [hfst]
    exact pairwise_iff_forall_sublist.mpr (fun hsub =>
      .inl (mem_reverse.mp (hsub.subset (by simp))))
  · obtain ⟨v, -, rfl⟩ := mem_map.mp hp
    exact ⟨[], rfl, fun e he => absurd he not_mem_nil⟩

theorem skipEdges_spec [DecidableEq V] (visited : List V) : ∀ i : List E, ∃ skipped,
    i = skipped ++ skipEdges g visited i ∧ (∀ e ∈ skipped, g.admits e → g.leadsTo e ∈ visited) ∧
      ∀ e es, skipEdges g visited i = e :: es → g.admits e ∧ g.leadsTo e ∉ visited := by
  intro i
  induction i with
  | nil => exact ⟨[], rfl, fun e he => absurd he not_mem_nil, fun e es h => by cases h⟩
  | cons e i ih =>
    rw [skipEdges]
    split
    · rename_i hstop
      refine ⟨[], rfl, fun e he => absurd he not_mem_nil, fun e' es h => ?_⟩
      obtain ⟨rfl, -⟩ := cons.inj h
      exact hstop
    · rename_i hpass
      obtain ⟨skipped, heq, hvisited, hstop⟩ := ih
      refine ⟨e :: skipped, by rw [cons_append, ← heq], fun e' he hadm => ?_, hstop⟩
      rcases mem_cons.mp he with rfl | he
      · by_contra hnot
        exact hpass ⟨hadm, hnot⟩
      · exact hvisited e' he hadm

/-- The iterator of the node on the top moves. -/
theorem Searching.skip {i i' skipped : List E}
    (h : Searching g nodes ((v, i) :: stack) visited sorted) (hi : i = skipped ++ i')
    (hs : ∀ e ∈ skipped, g.admits e → g.leadsTo e ∈ visited) :
    Searching g nodes ((v, i') :: stack) visited sorted := by
  refine ⟨h.nodup, h.mem, h.node, h.sources, h.below, fun p hp => ?_, h.forward⟩
  rcases mem_cons.mp hp with rfl | hp
  · obtain ⟨before, hout, hbefore⟩ := h.passed (v, i) (mem_cons_self ..)
    refine ⟨before ++ skipped, by rw [hout, hi, append_assoc], fun e he hadm => ?_⟩
    rcases mem_append.mp he with he | he
    · exact hbefore e he hadm
    · exact hs e he hadm
  · exact h.passed p (mem_cons_of_mem _ hp)

theorem Searching.push (hg : g.Sortable nodes)
    (h : Searching g nodes ((v, e :: es) :: stack) visited sorted)
    (hadm : g.admits e) (hnew : g.leadsTo e ∉ visited) :
    Searching g nodes ((g.leadsTo e, g.getOutEdges (g.leadsTo e)) :: (v, e :: es) :: stack)
      (g.leadsTo e :: visited) sorted := by
  obtain ⟨before, hout, -⟩ := h.passed (v, e :: es) (mem_cons_self ..)
  have harc : g.Arc v (g.leadsTo e) := ⟨e, by rw [hout]; simp, hadm, rfl⟩
  have hv : v ∈ visited := (h.mem v).mpr (.inl (by simp))
  refine ⟨?_, fun w => ?_, fun w hw => ?_, fun w hw => mem_cons_of_mem _ (h.sources w hw), ?_,
    fun p hp => ?_, h.forward⟩
  · refine nodup_cons.mpr ⟨fun hmem => hnew ((h.mem _).mpr (mem_append.mp hmem)), h.nodup⟩
  · simp only [mem_cons, h.mem w, map_cons, or_assoc]
  · rcases mem_cons.mp hw with rfl | hw
    · exact hg.closed v (h.node v hv) _ harc
    · exact h.node w hw
  · refine pairwise_cons.mpr ⟨fun b hb => ?_, h.below⟩
    rcases mem_cons.mp hb with rfl | hb
    · exact .inr (.single harc)
    · exact ((pairwise_cons.mp h.below).1 b hb).imp_right (fun hreach => hreach.tail harc)
  · rcases mem_cons.mp hp with rfl | hp
    · exact ⟨[], rfl, fun e he => absurd he not_mem_nil⟩
    · obtain ⟨before, hout, hbefore⟩ := h.passed p hp
      exact ⟨before, hout, fun e he hadm => mem_cons_of_mem _ (hbefore e he hadm)⟩

/-- A node whose edges were passed leads to sorted nodes only: the nodes below it are sources or
lead to it. -/
theorem Searching.pop (hg : g.Sortable nodes)
    (h : Searching g nodes ((v, []) :: stack) visited sorted) :
    Searching g nodes stack visited (v :: sorted) := by
  obtain ⟨before, hout, hbefore⟩ := h.passed (v, []) (mem_cons_self ..)
  have hv : v ∈ nodes := h.node v ((h.mem v).mpr (.inl (by simp)))
  have hsorted : ∀ w, g.Arc v w → w ∈ sorted := by
    intro w hw
    obtain ⟨e, he, hadm, rfl⟩ := hw
    rw [hout, append_nil] at he
    have harc : g.Arc v (g.leadsTo e) := ⟨e, by rw [hout, append_nil]; exact he, hadm, rfl⟩
    rcases (h.mem _).mp (hbefore e he hadm) with hstack | hdone
    · exfalso
      rcases mem_cons.mp hstack with hself | hbelow
      · rw [show g.leadsTo e = v from hself] at harc
        exact hg.acyclic v hv (.single harc)
      · rcases (pairwise_cons.mp h.below).1 _ hbelow with hsource | hreach
        · exact ((hg.sources _).mp hsource).2 v hv harc
        · exact hg.acyclic v hv (.head harc hreach)
    · exact hdone
  refine ⟨?_, fun w => ?_, h.node, h.sources, (pairwise_cons.mp h.below).2,
    fun p hp => h.passed p (mem_cons_of_mem _ hp), h.forward.cons hsorted⟩
  · exact perm_middle.nodup_iff.mpr h.nodup
  · rw [h.mem w, map_cons, mem_cons, mem_cons, or_left_comm, or_assoc]

theorem Searching.length_le (h : Searching g nodes stack visited sorted) :
    stack.length + sorted.length ≤ nodes.length := by
  have hsub : stack.map Prod.fst ++ sorted ⊆ nodes := fun w hw =>
    h.node w ((h.mem w).mpr (mem_append.mp hw))
  simpa using (subperm_of_subset h.nodup hsub).length_le

theorem Searching.traverse [DecidableEq V] (hg : g.Sortable nodes) :
    ∀ {n : ℕ} {stack : List (V × List E)} {visited sorted : List V},
    Searching g nodes stack visited sorted →
    2 * nodes.length ≤ n + 2 * sorted.length + stack.length →
    ∃ sortedNodes, TopologicalSort.traverse g n stack visited sorted = some sortedNodes ∧
      ∃ visitedNodes, Searching g nodes [] visitedNodes sortedNodes := by
  intro n
  induction n with
  | zero =>
    intro stack visited sorted h hn
    have hle := h.length_le
    obtain rfl : stack = [] := eq_nil_of_length_eq_zero (by omega)
    exact ⟨sorted, rfl, visited, h⟩
  | succ n ih =>
    intro stack visited sorted h hn
    cases stack with
    | nil => exact ⟨sorted, rfl, visited, h⟩
    | cons p stack =>
      obtain ⟨v, i⟩ := p
      obtain ⟨skipped, hi, hskipped, hstop⟩ := skipEdges_spec (g := g) visited i
      have hle := h.length_le
      have h₁ := h.skip hi hskipped
      rw [length_cons] at hn hle
      rw [TopologicalSort.traverse]
      cases hrest : skipEdges g visited i with
      | cons e es =>
        obtain ⟨hadm, hnew⟩ := hstop e es hrest
        rw [hrest] at h₁
        exact ih (h₁.push hg hadm hnew) (by simp only [length_cons]; omega)
      | nil =>
        have hv : g.hasNode v := hg.hasNode v (h.node v ((h.mem v).mpr (.inl (by simp))))
        have hroom : sorted.length < g.nNodes := by
          rw [hg.nNodes]
          omega
        rw [hrest] at h₁
        simp only [hv, if_true, if_pos hroom]
        exact ih (h₁.pop hg) (by rw [length_cons]; omega)

theorem traverse_mono [DecidableEq V] {sortedNodes : List V} :
    ∀ {n m : ℕ} {stack : List (V × List E)} {visited sorted : List V},
    TopologicalSort.traverse g n stack visited sorted = some sortedNodes → n ≤ m →
    TopologicalSort.traverse g m stack visited sorted = some sortedNodes := by
  intro n
  induction n with
  | zero =>
    intro m stack visited sorted h _
    cases stack with
    | nil => cases m <;> exact h
    | cons p stack => cases h
  | succ n ih =>
    intro m stack visited sorted h hm
    obtain ⟨m, rfl⟩ : ∃ k, m = k + 1 := ⟨m - 1, by omega⟩
    have hm := Nat.le_of_succ_le_succ hm
    cases stack with
    | nil => exact h
    | cons p stack =>
      rw [TopologicalSort.traverse] at h ⊢
      cases hrest : skipEdges g visited p.2 with
      | cons e es =>
        rw [hrest] at h
        exact ih h hm
      | nil =>
        rw [hrest] at h
        dsimp only at h ⊢
        split at h
        · rename_i hv
          rw [if_pos hv]
          split at h
          · rename_i hroom
            rw [if_pos hroom]
            exact ih h hm
          · cases h
        · rename_i hv
          rw [if_neg hv]
          exact ih h hm

theorem Graph.Sortable.isEmpty_sources (hg : g.Sortable nodes) :
    g.getSources.reverse.isEmpty = (g.nNodes == 0) := by
  rw [Bool.eq_iff_iff, List.isEmpty_iff, reverse_eq_nil_iff, beq_iff_eq, hg.nNodes,
    length_eq_zero_iff]
  constructor
  · intro hnone
    have hreached := hg.reached (P := fun _ => False) (fun v hv => by rw [hnone] at hv; cases hv)
      (fun u v hu _ => hu)
    exact eq_nil_iff_forall_not_mem.mpr hreached
  · rintro rfl
    exact eq_nil_iff_forall_not_mem.mpr (fun v hv => not_mem_nil ((hg.sources v).mp hv).1)

theorem Graph.Sortable.topologicalSort [DecidableEq V] (hg : g.Sortable nodes) :
    ∃ sortedNodes, (∀ fuel, 2 * nodes.length ≤ fuel →
    TopologicalSort.topologicalSort g fuel = some sortedNodes) ∧
      sortedNodes.Perm nodes ∧ g.Forward sortedNodes := by
  obtain ⟨sortedNodes, hrun, visitedNodes, h⟩ :=
    (Searching.init hg).traverse hg (n := 2 * nodes.length)
    (by simp only [length_nil]; omega)
  have hdone : ∀ v ∈ visitedNodes, v ∈ sortedNodes :=
    fun v hv => ((h.mem v).mp hv).resolve_left not_mem_nil
  have hall : ∀ v ∈ nodes, v ∈ sortedNodes := by
    refine hg.reached (fun v hv => hdone v (h.sources v hv)) (fun u v hu harc => ?_)
    obtain ⟨A, B, heq⟩ := append_of_mem hu
    rw [heq]
    exact mem_append_right A (mem_cons_of_mem u (h.forward A u B heq v harc))
  have hperm : sortedNodes.Perm nodes := by
    refine (perm_ext_iff_of_nodup h.nodup hg.nodup).mpr (fun v => ⟨fun hv => ?_, hall v⟩)
    exact h.node v ((h.mem v).mpr (.inr hv))
  refine ⟨sortedNodes, fun fuel hfuel => ?_, hperm, h.forward⟩
  have hlen : sortedNodes.length = g.nNodes := by rw [hperm.length_eq, hg.nNodes]
  simp only [TopologicalSort.topologicalSort, hg.isEmpty_sources, ne_eq, not_true_eq_false,
    if_false, traverse_mono hrun hfuel, Option.bind_eq_bind, Option.bind_some, hlen, if_true]

end UtopiaEda.TopologicalSort
