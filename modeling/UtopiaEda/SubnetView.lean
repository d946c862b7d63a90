import UtopiaEda.LinkAccess
import UtopiaEda.Replacement

/-!
# Views of a network

A `SubnetView` is a window of a builder with its inputs and outputs. `SubnetViewIterator` goes over
its cells by a depth-first search with an explicit stack, `SubnetViewWalker` applies visitors to
them. The visitors keep a state of their own and do not change the network. The provider yields the
links of a cell; `none` means that an assertion fails or that there is no such cell.
-/
namespace UtopiaEda

structure SubnetView where
  parent : SubnetBuilder
  iomapping : InOutMapping

def SubnetView.inputs (v : SubnetView) : List EntryID := v.iomapping.inputs.map Link.idx

def SubnetView.outputs (v : SubnetView) : List EntryID := v.iomapping.outputs.map Link.idx

/-- Called with `isIn`, `isOut` and the entry; the traversal is aborted if the result is false. -/
abbrev Visitor (σ : Type) := Bool → Bool → EntryID → σ → Bool × σ

abbrev LinkProvider := EntryID → Option (List Link)

def defaultLinkProvider (s : SubnetBuilder) : LinkProvider := fun i => do
  let cell ← s.getCell i
  (List.range cell.arity).mapM (fun j => (s.getLink i j).bind some)

structure Traversal (σ : Type) where
  inputs : List EntryID
  outputs : List EntryID
  links : LinkProvider
  onBackwardDfsPop : Option (Visitor σ)
  onBackwardDfsPush : Option (Visitor σ)

structure SubnetViewIterator (σ : Type) where
  /-- The current cell; `none` at the end. -/
  entryLink : Option EntryID := none
  isAborted : Bool := false
  marked : List EntryID
  inout : List EntryID := []
  nInLeft : ℕ := 0
  nOutLeft : ℕ := 0
  /-- Entries and the links to look at; the top comes first. -/
  stack : List (EntryID × ℕ) := []
  state : σ

namespace SubnetViewIterator
variable {σ : Type}

def call (visitor : Option (Visitor σ)) (isIn isOut : Bool) (i : EntryID)
    (it : SubnetViewIterator σ) : SubnetViewIterator σ :=
  match visitor with
  | none => it
  | some f => if it.isAborted then it else
    { it with isAborted := !(f isIn isOut i it.state).1, state := (f isIn isOut i it.state).2 }

def onPop (t : Traversal σ) := call t.onBackwardDfsPop

def onPush (t : Traversal σ) := call t.onBackwardDfsPush

/-- The loop of `prepareIteration` over the outputs. -/
def prepareOutputs (t : Traversal σ) : List EntryID → SubnetViewIterator σ → SubnetViewIterator σ
  | [], it => it
  | i :: is, it => prepareOutputs t is (if i ∈ it.marked then { it with inout := i :: it.inout }
    else { it.onPush t false true i with stack := (i, 0) :: it.stack })

def prepareIteration (t : Traversal σ) (state : σ) : Option (SubnetViewIterator σ) :=
  if t.outputs = [] then none
  else
    let it := prepareOutputs t t.outputs { marked := t.inputs.reverse, state := state }
    some { it with nOutLeft := it.stack.length, nInLeft := t.inputs.length }

def nextPI (t : Traversal σ) (it : SubnetViewIterator σ) : Option (SubnetViewIterator σ) := do
  let inEntry ← t.inputs[t.inputs.length - it.nInLeft]?
  some { it.onPop t true (decide (inEntry ∈ it.inout)) inEntry with
    entryLink := some inEntry, nInLeft := it.nInLeft - 1 }

/-- The first of the links, the links from number `j` on, to an entry that is not marked. -/
def findUnmarked (marked : List EntryID) : List Link → ℕ → Option (ℕ × EntryID)
  | [], _ => none
  | l :: ls, j => if l.idx ∈ marked then findUnmarked marked ls (j + 1) else some (j, l.idx)

/-- The loop of `operator++` that pushes entries until all links of the top are marked. A path has
at most as many cells as the network has entries. -/
def descend (t : Traversal σ) : ℕ → SubnetViewIterator σ → Option (SubnetViewIterator σ)
  | 0, _ => none
  | n + 1, it =>
    match it.stack with
    | [] => none
    | (i, j) :: rest => do
      let links ← t.links i
      match findUnmarked it.marked (links.drop j) j with
      | none => some { it with stack := (i, links.length) :: rest }
      | some (k, target) =>
        descend t n { it.onPush t false false target with stack := (target, 0) :: (i, k) :: rest }

/-- The end of `operator++`: the top of the stack is visited. -/
def pop (t : Traversal σ) (it : SubnetViewIterator σ) : Option (SubnetViewIterator σ) :=
  match it.stack with
  | [] => none
  | (savedID, _) :: rest =>
    let isOut := decide (it.stack.length ≤ it.nOutLeft)
    some { it.onPop t false isOut savedID with
      marked := savedID :: it.marked
      entryLink := some savedID
      stack := rest
      nOutLeft := it.nOutLeft - isOut.toNat }

/-- `operator++`; the first argument bounds the loop. -/
def next (t : Traversal σ) (size : ℕ) (it : SubnetViewIterator σ) : Option (SubnetViewIterator σ) :=
  if 0 < it.nInLeft then it.nextPI t
  else if it.stack = [] then
    if it.entryLink = none then none else some { it with entryLink := none }
  else (it.descend t size).bind (pop t)

def begin (t : Traversal σ) (size : ℕ) (state : σ) : Option (SubnetViewIterator σ) := do
  let it ← prepareIteration t state
  if 0 < it.nInLeft then it.nextPI t else it.next t size

/-- The loop of `runForward`. -/
def walk (t : Traversal σ) (size : ℕ) : ℕ → SubnetViewIterator σ → Option (SubnetViewIterator σ)
  | 0, _ => none
  | n + 1, it =>
    if it.entryLink = none ∨ it.isAborted then some it
    else do walk t size n (← it.next t size)

end SubnetViewIterator

structure ViewEntry where
  isIn : Bool
  isOut : Bool
  entryID : EntryID
  deriving DecidableEq, Repr

structure SubnetViewWalker where
  view : SubnetView
  linkProvider : LinkProvider
  entries : Option (List ViewEntry) := none

def SubnetView.walker (view : SubnetView) : SubnetViewWalker :=
  ⟨view, defaultLinkProvider view.parent, none⟩

namespace SubnetViewWalker
variable {σ : Type}

/-- `traverseForward` over saved entries; `traverseBackward` reverses them. -/
def traverse (visitor : Visitor σ) : List ViewEntry → σ → Bool × σ
  | [], st => (true, st)
  | e :: es, st =>
    match visitor e.isIn e.isOut e.entryID st with
    | (false, st) => (false, st)
    | (true, st) => traverse visitor es st

def traversal (w : SubnetViewWalker) (pop push : Option (Visitor σ)) : Traversal σ :=
  ⟨w.view.inputs, w.view.outputs, w.linkProvider, pop, push⟩

def iterate (w : SubnetViewWalker) (pop push : Option (Visitor σ)) (st : σ) :
    Option (Bool × σ) := do
  let it ← SubnetViewIterator.begin (w.traversal pop push) w.view.parent.size st
  let it ← it.walk (w.traversal pop push) w.view.parent.size
    (w.view.inputs.length + w.view.parent.size + w.view.outputs.length + 1)
  some (!it.isAborted, it.state)

/-- What the visitors of `runForward` that save the entries refer to. A variable has no value when
the block that declares it has ended. -/
structure Saving (σ : Type) where
  doPop : Option Bool
  doPush : Option Bool
  entries : List ViewEntry
  state : σ

/-- `doPop = doPop && onBackwardDfsPop(...)`; nothing is known after a read of a variable without a
value. -/
def Saving.pop (visitor : Option (Visitor σ)) : Visitor (Option (Saving σ)) :=
  fun isIn isOut i saving =>
  (true, do
    let st ← saving
    let doPop ← st.doPop
    let entries := st.entries ++ [⟨isIn, isOut, i⟩]
    match doPop, visitor with
    | true, some f => some { st with doPop := some (f isIn isOut i st.state).1
                                     state := (f isIn isOut i st.state).2
                                     entries := entries }
    | _, _ => some { st with doPop := some false, entries := entries })

def Saving.push (visitor : Option (Visitor σ)) : Visitor (Option (Saving σ)) :=
  fun isIn isOut i saving =>
  (true, do
    let st ← saving
    let doPush ← st.doPush
    match doPush, visitor with
    | true, some f => some { st with doPush := some (f isIn isOut i st.state).1
                                     state := (f isIn isOut i st.state).2 }
    | _, _ => some { st with doPush := some false })

def runForward (w : SubnetViewWalker) (onBackwardDfsPop onBackwardDfsPush : Option (Visitor σ))
    (saveEntries : Bool) (st : σ) : Option (SubnetViewWalker × Bool × σ) :=
  match onBackwardDfsPop, onBackwardDfsPush, w.entries with
  | none, none, _ => none
  | some visitor, none, some entries => some (w, traverse visitor entries st)
  | _, _, _ =>
    if saveEntries then do
      -- the block with `doPop` and `doPush` ends before the traversal
      let (result, saving) ← w.iterate (some (Saving.pop onBackwardDfsPop))
        (some (Saving.push onBackwardDfsPush)) (some ⟨none, none, [], st⟩)
      let saving ← saving
      some ({ w with entries := some saving.entries }, result, saving.state)
    else do
      let (result, st) ← w.iterate onBackwardDfsPop onBackwardDfsPush st
      some (w, result, st)

def collect (w : SubnetViewWalker) : Option (List ViewEntry) :=
  (w.iterate (some (fun isIn isOut i es => (true, es ++ [⟨isIn, isOut, i⟩]))) none []).map Prod.snd

/-- The entries are saved in any case. -/
def runBackward (w : SubnetViewWalker) (visitor : Visitor σ) (st : σ) :
    Option (SubnetViewWalker × Bool × σ) := do
  let entries ← match w.entries with
    | some entries => some entries
    | none => w.collect
  some ({ w with entries := some entries }, traverse visitor entries.reverse st)

inductive Direction where
  | FORWARD | BACKWARD
  deriving DecidableEq, Repr

def run (w : SubnetViewWalker) (visitor : Visitor σ) (direction : Direction) (saveEntries : Bool)
    (st : σ) : Option (SubnetViewWalker × Bool × σ) :=
  match direction with
  | .FORWARD => w.runForward (some visitor) none saveEntries st
  | .BACKWARD => w.runBackward visitor st

end SubnetViewWalker

namespace SubnetView

def emitOutput (isOut : Bool) (newLink : Link) (s : SubnetBuilder) : Option SubnetBuilder :=
  if isOut then (s.addOutput newLink).map Prod.fst else some s

def copyCell (parent : SubnetBuilder) (isIn : Bool) (i : EntryID) (oldCell : SubnetCell)
    (st : SubnetBuilder × (EntryID → Option EntryID)) : Option (SubnetBuilder × Link) :=
  if isIn then st.1.addInput
  else if oldCell.links = [] then none
  else do
    let newLinks ← (List.range oldCell.arity).mapM (fun j => (parent.getLink i j).bind (fun l =>
      (st.2 l.idx).map (fun newIdx => ⟨newIdx, 0, l.inv⟩)))
    st.1.addCell oldCell.type newLinks

/-- The visitor of `getSubnet`. -/
def extract (parent : SubnetBuilder) (isIn isOut : Bool) (i : EntryID)
    (st : SubnetBuilder × (EntryID → Option EntryID)) :
    Option (SubnetBuilder × (EntryID → Option EntryID)) := do
  let oldCell ← parent.getCell i
  let (subnetBuilder, newLink) ← copyCell parent isIn i oldCell st
  let notAddedAsOutput := isIn || !oldCell.isOut
  let subnetBuilder ← emitOutput (isOut && notAddedAsOutput) newLink subnetBuilder
  some (subnetBuilder, Function.update st.2 i (some newLink.idx))

def getSubnet (v : SubnetView) : Option SubnetBuilder := do
  let (_, _, st) ← v.walker.run
    (fun isIn isOut i (st : Option (SubnetBuilder × (EntryID → Option EntryID))) =>
      (true, st.bind (extract v.parent isIn isOut i))) .FORWARD false (some ({}, fun _ => none))
  st.map Prod.fst

end SubnetView

end UtopiaEda
