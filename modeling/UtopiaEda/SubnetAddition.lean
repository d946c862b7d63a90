import UtopiaEda.CellTraversal
import UtopiaEda.SubnetTypes

/-!
# Adding a subnet to a builder

`addSubnet` copies the cells of a subnet. The links between them are shifted by a fixed offset,
so every cell has to fill as many entries of the builder as it fills in the subnet: a cell with
an existing key is added all the same, after the key has left the hash table.
-/
namespace UtopiaEda.SubnetBuilder

/-- `addMultiOutputCell`: the links to the outputs of the new cell, at least one. -/
def addMultiOutputCell (types : List SubnetType) (s : SubnetBuilder) (typeID : CellTypeID)
    (links : List Link) : Option (SubnetBuilder × List Link) := do
  let (s, link) ← s.addCell typeID links
  some (s, link :: (List.range' 1 (typeID.getOutNum (SubnetType.library types) - 1)).map
    (fun i => ⟨link.idx, i, false⟩))

def shiftLink (nIn : ℕ) (links : List Link) (size : ℕ) (l : Link) : Option Link :=
  if l.idx < nIn then (links[l.idx]?).map (fun k => { k with inv := xor k.inv l.inv })
  else some { l with idx := l.idx + size - nIn }

def destrashKey (s : SubnetBuilder) (typeID : CellTypeID) (links : List Link) :
    Option SubnetBuilder :=
  if StrashKey.isEnabled typeID links then match s.strash (StrashKey.make typeID links) with
    | some i => s.destrashEntry i
    | none => some s
  else some s

/-- The loop of `addSubnet` from the entry `i` on; `size` is the number of the entries before
the loop, `n` bounds the number of the cells that are left. -/
def addSubnetLoop (addInner : SubnetBuilder → CellTypeID → List Link →
    Option (SubnetBuilder × List Link)) (subnet : Subnet) (links : List Link) (size : ℕ) :
    ℕ → EntryID → SubnetBuilder → List Link → Option (SubnetBuilder × List Link)
  | 0, i, s, outs => if i < subnet.size then none else some (s, outs)
  | n + 1, i, s, outs =>
    if i < subnet.size then do
      let cell ← subnet.getCell i
      let newLinks ← cell.links.mapM (shiftLink subnet.nIn links size)
      if cell.isOut then
        addSubnetLoop addInner subnet links size n (i + cell.more + 1) s (outs ++ [← newLinks[0]?])
      else do
        let (s, cellLinks) ← addInner (← s.destrashKey cell.type newLinks) cell.type newLinks
        -- the weight of the cell is set through the first link
        let _ ← cellLinks[0]?
        addSubnetLoop addInner subnet links size n (i + cell.more + 1) s outs
    else some (s, outs)

/-- `addSubnet` without inlining. -/
def addSubnet (types : List SubnetType) (s : SubnetBuilder) (subnet : Subnet) (links : List Link) :
    Option (SubnetBuilder × List Link) :=
  addSubnetLoop (addMultiOutputCell types) subnet links s.size subnet.size subnet.nIn s []

/-- `addCellRecursively`; the cells inside have older types, so `d` bounds the nesting. -/
def addCellNested (types : List SubnetType) (inlinePredicate : CellTypeID → Bool) :
    ℕ → SubnetBuilder → CellTypeID → List Link → Option (SubnetBuilder × List Link)
  | 0, s, typeID, links => match typeID with
    | .soft sid => if sid < types.length ∧ inlinePredicate typeID then none
      else s.addMultiOutputCell types typeID links
    | _ => s.addMultiOutputCell types typeID links
  | d + 1, s, typeID, links => match typeID with
    | .soft sid => match types[sid]? with
      | some type =>
        if inlinePredicate typeID then addSubnetLoop (addCellNested types inlinePredicate d)
          type.subnet links s.size type.subnet.size type.subnet.nIn s []
        else s.addMultiOutputCell types typeID links
      | none => s.addMultiOutputCell types typeID links
    | _ => s.addMultiOutputCell types typeID links

def addCellRecursively (types : List SubnetType) (s : SubnetBuilder) (typeID : CellTypeID)
    (links : List Link) (inlinePredicate : CellTypeID → Bool) :
    Option (SubnetBuilder × List Link) :=
  addCellNested types inlinePredicate types.length s typeID links

def addInputs : ℕ → SubnetBuilder → Option (SubnetBuilder × List Link)
  | 0, s => some (s, [])
  | n + 1, s => do
    let (s, link) ← s.addInput
    let (s, links) ← addInputs n s
    some (s, link :: links)

def addOutputs : List Link → SubnetBuilder → Option SubnetBuilder
  | [], s => some s
  | l :: ls, s => do
    let (s, _) ← s.addOutput l
    addOutputs ls s

/-- `SubnetBuilder(subnet)`. -/
def ofSubnet (types : List SubnetType) (subnet : Subnet) : Option SubnetBuilder := do
  let (s, inputs) ← addInputs subnet.nIn {}
  let (s, outputs) ← s.addSubnet types subnet inputs
  addOutputs outputs s

variable {types : List SubnetType} {S : Subnet} {links ls : List Link} {s s' s₀ : SubnetBuilder}
  {ins mid outs : List EntryID} {i j : EntryID} {c : SubnetCell} {l : Link}

def shift (nIn : ℕ) (links : List Link) (size : ℕ) (l : Link) : Link :=
  (shiftLink nIn links size l).getD l

theorem shiftLink_eq {nIn size : ℕ} (h : nIn ≤ links.length) :
    shiftLink nIn links size l = some (shift nIn links size l) := by
  unfold shift shiftLink
  by_cases hl : l.idx < nIn
  · rw [if_pos hl, List.getElem?_eq_getElem (Nat.lt_of_lt_of_le hl h)]
    rfl
  · rw [if_neg hl]
    rfl

theorem shift_input {nIn size : ℕ} (hl : l.idx < nIn) (h : nIn ≤ links.length) :
    ∃ k ∈ links, links[l.idx]? = some k ∧
      shift nIn links size l = { k with inv := xor k.inv l.inv } := by
  have hlt : l.idx < links.length := Nat.lt_of_lt_of_le hl h
  refine ⟨links[l.idx], List.getElem_mem hlt, List.getElem?_eq_getElem hlt, ?_⟩
  rw [shift, shiftLink, if_pos hl, List.getElem?_eq_getElem hlt]
  rfl

theorem shift_inner {nIn size : ℕ} (hl : ¬ l.idx < nIn) :
    shift nIn links size l = { l with idx := l.idx + size - nIn } := by
  rw [shift, shiftLink, if_neg hl]
  rfl

end UtopiaEda.SubnetBuilder
