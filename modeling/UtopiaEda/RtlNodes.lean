import Mathlib.Algebra.GroupWithZero.Nat
import Mathlib.Data.List.Basic
import Mathlib.Logic.Basic

/-!
# Nodes of register-transfer nets

The nodes of all nets are in one storage; a node is known by its index there. A node holds its
inputs, and for each input of another node that it drives a link.
-/
namespace UtopiaEda.Rtl
open List
open Option (bind_eq_bind bind_eq_some_iff map_eq_some_iff)

abbrev VNodeId := ℕ

/-- `Node::INVALID`. -/
def INVALID : ℕ := 2 ^ 32 - 1

inductive Event where
  | POSEDGE | NEGEDGE | LEVEL0 | LEVEL1 | ALWAYS | DELAY
  deriving DecidableEq, Repr

structure Signal where
  event : Event
  node : VNodeId
  delay : ℕ := 0
  deriving DecidableEq, Repr

def Signal.isEdge (s : Signal) : Bool := s.event = .POSEDGE || s.event = .NEGEDGE

def Signal.isLevel (s : Signal) : Bool := s.event = .LEVEL0 || s.event = .LEVEL1

/-- `Signal::always`. -/
def always (node : VNodeId) : Signal := ⟨.ALWAYS, node, 0⟩

structure Link where
  source : VNodeId
  target : VNodeId
  input : ℕ
  deriving DecidableEq, Repr

inductive FuncSymbol where
  | NOP | NOT | AND | OR | XOR | ADD | SUB | MUL | MUX
  deriving DecidableEq, Repr

inductive Kind where
  | SRC | VAL | FUN | MUX | REG
  deriving DecidableEq, Repr

inductive VariableKind where
  | WIRE | REG
  deriving DecidableEq, Repr

inductive Bind where
  | INPUT | OUTPUT | INNER
  deriving DecidableEq, Repr

structure Variable where
  name : String
  kind : VariableKind
  bind : Bind := .INNER
  deriving DecidableEq, Repr

structure PNode where
  signal : Signal
  guard : List VNodeId
  action : List VNodeId
  deriving DecidableEq, Repr

structure VNode where
  kind : Kind
  var : Variable
  func : FuncSymbol
  inputs : List Signal
  value : List Bool
  links : List Link
  pnode : Option PNode := none
  deriving DecidableEq, Repr

abbrev Storage := List VNode

namespace Storage

def update (st : Storage) (id : VNodeId) (f : VNode → VNode) : Option Storage :=
  if id < st.length then some (st.modify id f) else none

def appendLink (st : Storage) (id dst : VNodeId) (i : ℕ) : Option Storage :=
  st.update id (fun node => { node with links := node.links ++ [⟨id, dst, i⟩] })

def removeLink (st : Storage) (id dst : VNodeId) (i : ℕ) : Option Storage :=
  st.update id (fun node => { node with links := node.links.filter (· ≠ ⟨id, dst, i⟩) })

/-- Appends the links for the inputs from the index `i` on. -/
def appendLinks (id : VNodeId) : List Signal → ℕ → Storage → Option Storage
  | [], _, st => some st
  | signal :: inputs, i, st => do appendLinks id inputs (i + 1) (← st.appendLink signal.node id i)

def removeLinks (id : VNodeId) : List Signal → ℕ → Storage → Option Storage
  | [], _, st => some st
  | signal :: inputs, i, st => do removeLinks id inputs (i + 1) (← st.removeLink signal.node id i)

def setInputs (st : Storage) (id : VNodeId) (inputs : List Signal) : Option Storage := do
  let node ← st[id]?
  let st ← removeLinks id node.inputs 0 st
  let st ← st.update id (fun node => { node with inputs := inputs })
  appendLinks id inputs 0 st

/-- The assertion of the constructors; `INVALID` is compared as a delay. -/
def validInputs (inputs : List Signal) : Bool := ⟨.DELAY, 0, INVALID⟩ ∉ inputs

/-- `new VNode(kind, var, func, inputs, value)`. -/
def newVNode (st : Storage) (kind : Kind) (var : Variable) (func : FuncSymbol)
    (inputs : List Signal) (value : List Bool) : Option (Storage × VNodeId) := do
  let id := st.length
  let st ← appendLinks id inputs 0 (st ++ [⟨kind, var, func, inputs, value, [], none⟩])
  if validInputs inputs then some (st, id) else none

def duplicate (st : Storage) (id : VNodeId) (newName : String) : Option (Storage × VNodeId) := do
  let node ← st[id]?
  st.newVNode node.kind { node.var with name := newName } node.func node.inputs node.value

def replaceWith (st : Storage) (id : VNodeId) (kind : Kind) (var : Variable) (func : FuncSymbol)
    (inputs : List Signal) (value : List Bool) : Option Storage := do
  let oldNode ← st[id]?
  let st ← st.setInputs id []
  let st ← st.update id (fun _ => ⟨kind, var, func, inputs, value, oldNode.links, none⟩)
  let st ← appendLinks id inputs 0 st
  if validInputs inputs then some st else none

/-- `setPNode` for each of the nodes. -/
def setPNodes (pnode : PNode) : List VNodeId → Storage → Option Storage
  | [], st => some st
  | id :: ids, st => do setPNodes pnode ids (← st.update id (fun node => { node with pnode := some pnode }))

end Storage

/-! Inputs and links. -/

/-- The node `src` has a link to the input `i` of the node `dst`. -/
def HasLink (st : Storage) (src dst : VNodeId) (i : ℕ) : Prop :=
  ∃ node, st[src]? = some node ∧ ⟨src, dst, i⟩ ∈ node.links

def Linked (st : Storage) : Prop := ∀ (id : VNodeId) node, st[id]? = some node →
  ∀ (i : ℕ) (signal : Signal), node.inputs[i]? = some signal → HasLink st signal.node id i

def inputsAt (st : Storage) (id : VNodeId) : Option (List Signal) := st[id]?.map VNode.inputs

variable {st st' st'' : Storage} {id src dst k : VNodeId} {inputs : List Signal} {i j : ℕ}
  {signal : Signal}

theorem linked_iff : Linked st ↔ ∀ (id : VNodeId) inputs, inputsAt st id = some inputs →
    ∀ (i : ℕ) signal, inputs[i]? = some signal → HasLink st signal.node id i := by
  constructor
  · intro h id inputs hinputs
    obtain ⟨node, hnode, rfl⟩ := map_eq_some_iff.mp hinputs
    exact h id node hnode
  · intro h id node hnode
    exact h id node.inputs (by rw [inputsAt, hnode]; rfl)

theorem Storage.getElem?_update {f : VNode → VNode} (h : st.update id f = some st') (k : VNodeId) :
    st'[k]? = if k = id then st[k]?.map f else st[k]? := by
  unfold Storage.update at h
  split at h
  · cases h
    rw [getElem?_modify]
    by_cases hk : id = k
    · simp [hk]
    · simp [hk, Ne.symm hk]
  · cases h

structure Kept (id : VNodeId) (st st' : Storage) : Prop where
  inputs : ∀ k, inputsAt st' k = inputsAt st k
  links : ∀ src dst i, dst ≠ id → HasLink st src dst i → HasLink st' src dst i

theorem Kept.refl (id : VNodeId) (st : Storage) : Kept id st st :=
  ⟨fun _ => rfl, fun _ _ _ _ h => h⟩

theorem Kept.trans (h : Kept id st st') (h' : Kept id st' st'') : Kept id st st'' :=
  ⟨fun k => (h'.inputs k).trans (h.inputs k),
    fun src dst i hne hl => h'.links src dst i hne (h.links src dst i hne hl)⟩

private theorem hasLink_update {f : VNode → VNode} (h : st.update k f = some st')
    (hf : ∀ node, st[k]? = some node → src = k → ⟨src, dst, i⟩ ∈ node.links →
      ⟨src, dst, i⟩ ∈ (f node).links)
    (hl : HasLink st src dst i) : HasLink st' src dst i := by
  obtain ⟨node, hnode, hmem⟩ := hl
  by_cases hk : src = k
  · refine ⟨f node, ?_, hf node (hk ▸ hnode) hk hmem⟩
    rw [Storage.getElem?_update h, if_pos hk, hnode]
    rfl
  · exact ⟨node, by rw [Storage.getElem?_update h, if_neg hk, hnode], hmem⟩

private theorem inputsAt_update {f : VNode → VNode} (h : st.update k f = some st')
    (hf : ∀ node, (f node).inputs = node.inputs) (id : VNodeId) : inputsAt st' id =
    inputsAt st id := by
  rw [inputsAt, inputsAt, Storage.getElem?_update h]
  split
  · rw [Option.map_map]
    congr 1
    funext node
    exact hf node
  · rfl

theorem Storage.appendLinks_spec : ∀ {inputs : List Signal} {i : ℕ} {st : Storage},
    appendLinks id inputs i st = some st' →
    (∀ k, inputsAt st' k = inputsAt st k) ∧
    (∀ src dst j, HasLink st src dst j → HasLink st' src dst j) ∧
      ∀ (j : ℕ) signal, inputs[j]? = some signal → HasLink st' signal.node id (i + j) := by
  intro inputs
  induction inputs with
  | nil =>
    intro i st h
    cases h
    exact ⟨fun _ => rfl, fun _ _ _ hl => hl, fun j signal hj => by cases hj⟩
  | cons signal inputs ih =>
    intro i st h
    simp only [appendLinks, bind_eq_bind] at h
    obtain ⟨st₁, hst₁, h⟩ := bind_eq_some_iff.mp h
    obtain ⟨hin, hold, hnew⟩ := ih h
    have hfirst : HasLink st₁ signal.node id i := by
      have hlt : signal.node < st.length := by
        unfold appendLink update at hst₁
        split at hst₁
        · assumption
        · cases hst₁
      refine ⟨{ st[signal.node] with links := st[signal.node].links ++ [⟨signal.node, id, i⟩] },
        ?_, by simp⟩
      rw [getElem?_update hst₁, if_pos rfl, getElem?_eq_getElem hlt]
      rfl
    refine ⟨fun k => (hin k).trans (inputsAt_update hst₁ (fun _ => rfl) k), fun src dst j hl => ?_,
      fun j signal' hj => ?_⟩
    · exact hold src dst j (hasLink_update hst₁ (fun node _ _ hmem => mem_append_left _ hmem) hl)
    · cases j with
      | zero =>
        cases hj
        exact hold _ _ _ hfirst
      | succ j =>
        have hlink := hnew j signal' hj
        rwa [Nat.add_assoc, Nat.add_comm 1 j] at hlink

theorem Storage.removeLinks_spec : ∀ {inputs : List Signal} {i : ℕ} {st : Storage},
    removeLinks id inputs i st = some st' → Kept id st st' := by
  intro inputs
  induction inputs with
  | nil =>
    intro i st h
    cases h
    exact .refl id _
  | cons signal inputs ih =>
    intro i st h
    simp only [removeLinks, bind_eq_bind] at h
    obtain ⟨st₁, hst₁, h⟩ := bind_eq_some_iff.mp h
    refine Kept.trans ⟨inputsAt_update hst₁ (fun _ => rfl), fun src dst j hne hl => ?_⟩ (ih h)
    refine hasLink_update hst₁ (fun node _ _ hmem => List.mem_filter.mpr ⟨hmem, ?_⟩) hl
    simp [hne]

/-! The operations keep the links of the inputs. -/

theorem Linked.appendLinks (hs : Storage.appendLinks id inputs 0 st = some st')
    (h : ∀ k, k ≠ id → ∀ inputs, inputsAt st k = some inputs →
      ∀ (i : ℕ) signal, inputs[i]? = some signal → HasLink st signal.node k i)
    (hinputs : ∀ ls, inputsAt st id = some ls → ls = inputs) : Linked st' := by
  obtain ⟨hin, hold, hnew⟩ := Storage.appendLinks_spec hs
  refine linked_iff.mpr (fun k ls hk i signal hi => ?_)
  rw [hin k] at hk
  by_cases hid : k = id
  · subst hid
    obtain rfl := hinputs ls hk
    have hlink := hnew i signal hi
    rwa [Nat.zero_add] at hlink
  · exact hold _ _ _ (h k hid ls hk i signal hi)

theorem Linked.setInputs (h : Linked st) (hs : st.setInputs id inputs = some st') : Linked st' := by
  simp only [Storage.setInputs, bind_eq_bind] at hs
  obtain ⟨node, -, hs⟩ := bind_eq_some_iff.mp hs
  obtain ⟨st₁, hst₁, hs⟩ := bind_eq_some_iff.mp hs
  obtain ⟨st₂, hst₂, hs⟩ := bind_eq_some_iff.mp hs
  have hkept := Storage.removeLinks_spec hst₁
  have hat : ∀ k, inputsAt st₂ k = if k = id then st₁[k]?.map (fun _ => inputs) else
      inputsAt st k := by
    intro k
    rw [← hkept.inputs k, inputsAt, inputsAt, Storage.getElem?_update hst₂]
    split
    · rw [Option.map_map]
      rfl
    · rfl
  refine Linked.appendLinks hs (fun k hk ls hls i signal hi => ?_) fun ls hls => ?_
  · rw [hat k, if_neg hk] at hls
    exact hasLink_update hst₂ (fun _ _ _ hmem => hmem)
      (hkept.links _ _ _ hk (linked_iff.mp h k ls hls i signal hi))
  · rw [hat id, if_pos rfl] at hls
    obtain ⟨_, -, rfl⟩ := map_eq_some_iff.mp hls
    rfl

/-- `setInputs` leaves the inputs of the other nodes as they are. -/
theorem Storage.inputsAt_setInputs (hs : st.setInputs id inputs = some st') (hk : k ≠ id) :
    inputsAt st' k = inputsAt st k := by
  simp only [setInputs, bind_eq_bind] at hs
  obtain ⟨node, -, hs⟩ := bind_eq_some_iff.mp hs
  obtain ⟨st₁, hst₁, hs⟩ := bind_eq_some_iff.mp hs
  obtain ⟨st₂, hst₂, hs⟩ := bind_eq_some_iff.mp hs
  rw [(appendLinks_spec hs).1 k, ← (removeLinks_spec hst₁).inputs k, inputsAt, inputsAt,
    getElem?_update hst₂, if_neg hk]

theorem Linked.newVNode {kind : Kind} {var : Variable} {func : FuncSymbol} {value : List Bool}
    (h : Linked st) (hs : st.newVNode kind var func inputs value = some (st', id)) :
    Linked st' := by
  simp only [Storage.newVNode, bind_eq_bind] at hs
  obtain ⟨st₁, hst₁, hs⟩ := bind_eq_some_iff.mp hs
  split at hs
  · cases hs
    refine Linked.appendLinks hst₁ (fun k hk ls hls i signal hi => ?_) fun ls hls => ?_
    · have hlt : k < st.length := by
        obtain ⟨node, hnode, -⟩ := map_eq_some_iff.mp hls
        obtain ⟨hlen, -⟩ := List.getElem?_eq_some_iff.mp hnode
        rw [length_append, length_singleton] at hlen
        exact Nat.lt_of_le_of_ne (Nat.le_of_lt_succ hlen) hk
      rw [inputsAt, getElem?_append_left hlt] at hls
      obtain ⟨node, hnode, hmem⟩ := linked_iff.mp h k ls hls i signal hi
      obtain ⟨hdriver, -⟩ := List.getElem?_eq_some_iff.mp hnode
      exact ⟨node, by rw [getElem?_append_left hdriver, hnode], hmem⟩
    · rw [inputsAt, getElem?_concat_length] at hls
      cases hls
      rfl
  · cases hs

theorem Linked.duplicate {newName : String} (h : Linked st)
    (hs : st.duplicate id newName = some (st', k)) : Linked st' := by
  simp only [Storage.duplicate, bind_eq_bind] at hs
  obtain ⟨node, -, hs⟩ := bind_eq_some_iff.mp hs
  exact h.newVNode hs

/-- The node that is replaced keeps the links that it had before it was disconnected. -/
theorem Linked.replaceWith {kind : Kind} {var : Variable} {func : FuncSymbol} {value : List Bool}
    (h : Linked st) (hs : st.replaceWith id kind var func inputs value = some st') :
    Linked st' := by
  simp only [Storage.replaceWith, bind_eq_bind] at hs
  obtain ⟨oldNode, hold, hs⟩ := bind_eq_some_iff.mp hs
  obtain ⟨st₁, hst₁, hs⟩ := bind_eq_some_iff.mp hs
  obtain ⟨st₂, hst₂, hs⟩ := bind_eq_some_iff.mp hs
  obtain ⟨st₃, hst₃, hs⟩ := bind_eq_some_iff.mp hs
  split at hs
  · cases hs
    have h₁ := h.setInputs hst₁
    have hother : ∀ k, k ≠ id → inputsAt st₂ k = inputsAt st₁ k := by
      intro k hk
      rw [inputsAt, inputsAt, Storage.getElem?_update hst₂, if_neg hk]
    refine Linked.appendLinks hst₃ (fun k hk ls hls i signal hi => ?_) fun ls hls => ?_
    · rw [hother k hk] at hls
      obtain ⟨driver, hdriver, hmem⟩ := linked_iff.mp h₁ k ls hls i signal hi
      refine hasLink_update hst₂ (fun node _ hid _ => ?_) ⟨driver, hdriver, hmem⟩
      rw [Storage.inputsAt_setInputs hst₁ hk] at hls
      obtain ⟨node', hnode', hmem'⟩ := linked_iff.mp h k ls hls i signal hi
      rw [hid, hold] at hnode'
      cases hnode'
      exact hmem'
    · rw [inputsAt, Storage.getElem?_update hst₂, if_pos rfl, Option.map_map] at hls
      obtain ⟨_, -, rfl⟩ := map_eq_some_iff.mp hls
      rfl
  · cases hs

theorem Linked.setPNodes {pnode : PNode} : ∀ {ids : List VNodeId} {st : Storage}, Linked st →
    Storage.setPNodes pnode ids st = some st' → Linked st' := by
  intro ids
  induction ids with
  | nil =>
    intro st h hs
    cases hs
    exact h
  | cons id ids ih =>
    intro st h hs
    simp only [Storage.setPNodes, bind_eq_bind] at hs
    obtain ⟨st₁, hst₁, hs⟩ := bind_eq_some_iff.mp hs
    refine ih (linked_iff.mpr (fun k ls hk i signal hi => ?_)) hs
    rw [inputsAt_update hst₁ (fun _ => rfl)] at hk
    exact hasLink_update hst₁ (fun _ _ _ hmem => hmem) (linked_iff.mp h k ls hk i signal hi)

end UtopiaEda.Rtl
