import UtopiaEda.NetDecomposer

/-!
# Building nets

Cells are in a storage that numbers them with a 32-bit counter; the number stands for the
identifier. A builder sorts the cells by their types and counts the links from each cell.
-/
namespace UtopiaEda

open List
open Function (update update_self update_of_ne)

/-- Number of inputs and properties of the types that are not standard gates. -/
structure CellAttributes where
  inNum : ℕ → ℕ
  props : ℕ → CellProperties

/-- The number of inputs of the types that leave it open. -/
def AnyArity : ℕ := 0xffff

namespace CellTypeID
variable (lib : CellAttributes)

def getInNum : CellTypeID → ℕ
  | .IN | .ZERO | .ONE => 0
  | .OUT | .BUF | .NOT => 1
  | .AND | .OR | .XOR | .NAND | .NOR | .XNOR | .MAJ => AnyArity
  | .soft sid => lib.inNum sid % 2 ^ 16

def isInNumFixed (typeID : CellTypeID) : Bool := typeID.getInNum lib ≠ AnyArity

def props : CellTypeID → CellProperties
  | .soft sid => lib.props sid
  | typeID => (NetCellType.standard typeID).props

def isSoft (typeID : CellTypeID) : Bool := !(typeID.props lib).cell && (typeID.props lib).soft

def isHard (typeID : CellTypeID) : Bool := !(typeID.props lib).cell && !(typeID.props lib).soft

def isCombinational (typeID : CellTypeID) : Bool := (typeID.props lib).combinational

variable {lib}

end CellTypeID

namespace GateNet

structure Cell where
  typeID : CellTypeID
  links : List LinkEnd
  fanout : ℕ := 0
  deriving DecidableEq

def MaxFanout : ℕ := 2 ^ 32 - 1

/-- `Storage<Cell>`; the counter has 32 bits. -/
structure CellStorage where
  objSID : ℕ := 0
  cells : ℕ → Option Cell := fun _ => none

def makeCell (st : CellStorage) (typeID : CellTypeID) (links : List LinkEnd) : CellStorage × ℕ :=
  (⟨(st.objSID + 1) % 2 ^ 32, update st.cells st.objSID (some ⟨typeID, links, 0⟩)⟩, st.objSID)

structure NetBuilder where
  inputs : List ℕ := []
  outputs : List ℕ := []
  combCells : List ℕ := []
  flipFlops : List ℕ := []
  hardBlocks : List ℕ := []
  softBlocks : List ℕ := []

structure Net extends NetBuilder where
  nInputs : ℕ
  nOutputs : ℕ
  nCells : ℕ

def incRefCount (st : CellStorage) (link : LinkEnd) : Option CellStorage := do
  let source ← st.cells link.cellID
  if source.fanout ≠ MaxFanout then
    some { st with cells := update st.cells link.cellID (some { source with fanout := source.fanout + 1 }) }
  else none

namespace NetBuilder

def insert (lib : CellAttributes) (b : NetBuilder) (cellID : ℕ) (typeID : CellTypeID) :
    NetBuilder :=
  if typeID = .IN then { b with inputs := b.inputs ++ [cellID] }
  else if typeID = .OUT then { b with outputs := b.outputs ++ [cellID] }
  else if typeID.isSoft lib then { b with softBlocks := b.softBlocks ++ [cellID] }
  else if typeID.isHard lib then { b with hardBlocks := b.hardBlocks ++ [cellID] }
  else if typeID.isCombinational lib then { b with combCells := b.combCells ++ [cellID] }
  else { b with flipFlops := b.flipFlops ++ [cellID] }

def addCell (lib : CellAttributes) (st : CellStorage) (b : NetBuilder) (cellID : ℕ) :
    Option (CellStorage × NetBuilder) := do
  let cell ← st.cells cellID
  let st ← cell.links.foldlM incRefCount st
  some (st, b.insert lib cellID cell.typeID)

/-- The assertions compare the 32-bit numbers with the sizes of the lists. -/
def make (b : NetBuilder) : Option Net :=
  if b.inputs.length < 2 ^ 32 ∧ b.outputs.length < 2 ^ 32 ∧ b.combCells.length < 2 ^ 32 ∧
      b.flipFlops.length < 2 ^ 32 ∧ b.hardBlocks.length < 2 ^ 32 ∧ b.softBlocks.length < 2 ^ 32 then
    some { b with
      nInputs := b.inputs.length
      nOutputs := b.outputs.length
      nCells := (b.inputs.length + b.outputs.length + b.combCells.length + b.flipFlops.length +
        b.hardBlocks.length + b.softBlocks.length) % 2 ^ 32 }
  else none

def inners (b : NetBuilder) : List ℕ := b.combCells ++ b.flipFlops ++ b.hardBlocks ++ b.softBlocks

def allCells (b : NetBuilder) : List ℕ := b.inputs ++ b.outputs ++ b.inners

end NetBuilder

def CellStorage.content (st : CellStorage) (id : ℕ) : Option (CellTypeID × List LinkEnd) :=
  (st.cells id).map fun c => (c.typeID, c.links)

variable {lib : CellAttributes} {st st' : CellStorage} {b : NetBuilder} {id k n : ℕ}
  {typeID : CellTypeID} {links : List LinkEnd}

theorem cells_makeCell : (makeCell st typeID links).1.cells (makeCell st typeID links).2 =
    some ⟨typeID, links, 0⟩ :=
  update_self _ _ _

theorem content_incRefCount {link : LinkEnd} (h : incRefCount st link = some st') :
    st'.content = st.content := by
  rw [incRefCount, Option.bind_eq_bind, Option.bind_eq_some_iff] at h
  obtain ⟨source, hsource, h⟩ := h
  split at h
  · cases h
    funext id
    dsimp only [CellStorage.content]
    by_cases hid : id = link.cellID
    · rw [hid, update_self, hsource]
      rfl
    · rw [update_of_ne hid]
  · cases h

theorem exists_incRefCounts (st : CellStorage) (hnodup : (links.map (·.cellID)).Nodup)
    (hlinks : ∀ l ∈ links, ∃ c, st.cells l.cellID = some c ∧ c.fanout < MaxFanout) :
    ∃ st', links.foldlM incRefCount st = some st' ∧ st'.objSID = st.objSID ∧
    st'.content = st.content ∧
      ∀ id c, st.cells id = some c → ∃ c', st'.cells id = some c' ∧ c'.fanout ≤ c.fanout + 1 ∧
        (id ∉ links.map (·.cellID) → c' = c) := by
  induction links generalizing st with
  | nil => exact ⟨st, rfl, rfl, rfl, fun id c hc => ⟨c, hc, Nat.le_succ _, fun _ => rfl⟩⟩
  | cons l links ih =>
    obtain ⟨source, hsource, hfanout⟩ := hlinks l mem_cons_self
    rw [map_cons, nodup_cons] at hnodup
    have hinc : incRefCount st l = some { st with
        cells := update st.cells l.cellID (some { source with fanout := source.fanout + 1 }) } := by
      rw [incRefCount, hsource]
      exact if_pos hfanout.ne
    have hother : ∀ id, id ≠ l.cellID → update st.cells l.cellID
        (some { source with fanout := source.fanout + 1 }) id = st.cells id :=
        fun id hid => update_of_ne hid _ _
    obtain ⟨st', hst', hsid, hcontent, hcells⟩ := ih
      { st with cells := update st.cells l.cellID (some { source with fanout := source.fanout + 1 })
        } hnodup.2 (by
        intro l' hl'
        obtain ⟨c, hc, hlt⟩ := hlinks l' (mem_cons_of_mem _ hl')
        have hne : l'.cellID ≠ l.cellID := by
          intro heq
          exact hnodup.1 (heq ▸ mem_map_of_mem hl')
        exact ⟨c, (hother _ hne).trans hc, hlt⟩)
    refine ⟨st', ?_, hsid, hcontent.trans (content_incRefCount hinc), fun id c hc => ?_⟩
    · rw [foldlM_cons, hinc]
      exact hst'
    · by_cases hid : id = l.cellID
      · -- the rest of the links does not lead to this cell
        subst hid
        obtain rfl := Option.some.inj (hsource.symm.trans hc)
        obtain ⟨c', hc', -, heq⟩ := hcells l.cellID _ (update_self _ _ _)
        rw [heq hnodup.1] at hc'
        exact ⟨_, hc', Nat.le_refl _, fun h => absurd mem_cons_self h⟩
      · obtain ⟨c', hc', hle, heq⟩ := hcells id c ((hother id hid).trans hc)
        exact ⟨c', hc', hle, fun h => heq fun hmem => h (mem_cons_of_mem _ hmem)⟩

structure Building (k n : ℕ) (st : CellStorage) (b : NetBuilder) : Prop where
  counter : st.objSID = (k + n) % 2 ^ 32
  cells : ∀ id, k ≤ id → id < k + n → ∃ c, st.cells id = some c ∧ c.fanout + id < k + n
  all : b.allCells.Perm (List.range' k n)

theorem perm_insert : (b.insert lib id typeID).allCells.Perm (b.allCells ++ [id]) := by
  have hmid : ∀ xs ys : List ℕ, (xs ++ [id] ++ ys).Perm (xs ++ ys ++ [id]) := fun xs ys => by
    rw [append_assoc, append_assoc]
    exact List.perm_append_comm.append_left xs
  unfold NetBuilder.insert NetBuilder.allCells NetBuilder.inners
  split_ifs
  · simpa only [append_assoc] using hmid b.inputs
      (b.outputs ++ (b.combCells ++ b.flipFlops ++ b.hardBlocks ++ b.softBlocks))
  · simpa only [append_assoc] using hmid (b.inputs ++ b.outputs)
      (b.combCells ++ b.flipFlops ++ b.hardBlocks ++ b.softBlocks)
  · simp only [append_assoc, List.Perm.refl]
  · simpa only [append_assoc] using hmid (b.inputs ++ b.outputs ++ b.combCells ++ b.flipFlops ++
      b.hardBlocks) b.softBlocks
  · simpa only [append_assoc] using hmid (b.inputs ++ b.outputs ++ b.combCells)
      (b.flipFlops ++ b.hardBlocks ++ b.softBlocks)
  · simpa only [append_assoc] using hmid (b.inputs ++ b.outputs ++ b.combCells ++ b.flipFlops)
      (b.hardBlocks ++ b.softBlocks)

theorem insert_in : b.insert lib id .IN = { b with inputs := b.inputs ++ [id] } := rfl

theorem insert_out : b.insert lib id .OUT = { b with outputs := b.outputs ++ [id] } := rfl

theorem insert_inner (hin : typeID ≠ .IN) (hout : typeID ≠ .OUT) :
    (b.insert lib id typeID).inputs = b.inputs ∧ (b.insert lib id typeID).outputs = b.outputs ∧
      ∀ x, x ∈ (b.insert lib id typeID).inners ↔ x ∈ b.inners ∨ x = id := by
  unfold NetBuilder.insert NetBuilder.inners
  rw [if_neg hin, if_neg hout]
  split_ifs <;> refine ⟨rfl, rfl, fun x => ?_⟩ <;> simp only [mem_append, mem_singleton] <;> tauto

theorem outputs_insert (hout : typeID ≠ .OUT) : (b.insert lib id typeID).outputs = b.outputs := by
  by_cases hin : typeID = .IN
  · rw [hin, insert_in]
  · exact (insert_inner hin hout).2.1

theorem inputs_insert (hout : typeID ≠ .OUT) :
    (b.insert lib id typeID).inputs = b.inputs ++ if typeID = .IN then [id] else [] := by
  split_ifs with hin
  · rw [hin, insert_in]
  · rw [(insert_inner hin hout).1, append_nil]

theorem mem_inners_insert {x : ℕ} (hout : typeID ≠ .OUT) :
    x ∈ (b.insert lib id typeID).inners ↔ x ∈ b.inners ∨ (x = id ∧ typeID ≠ .IN) := by
  by_cases hin : typeID = .IN
  · rw [hin, insert_in]
    simp [NetBuilder.inners]
  · rw [(insert_inner hin hout).2.2]
    simp [hin]

theorem Building.addCell (lib : CellAttributes) (typeID : CellTypeID) (h : Building k n st b)
    (hn : k + n < 2 ^ 32) (hlinks : ∀ l ∈ links, k ≤ l.cellID ∧ l.cellID < k + n)
    (hnodup : (links.map (·.cellID)).Nodup) : (makeCell st typeID links).2 = k + n ∧
      ∃ st', b.addCell lib (makeCell st typeID links).1 (makeCell st typeID links).2 =
          some (st', b.insert lib (k + n) typeID) ∧
        Building k (n + 1) st' (b.insert lib (k + n) typeID) ∧ st'.content (k + n) =
          some (typeID, links) ∧
        ∀ id, k ≤ id → id < k + n → st'.content id = st.content id := by
  have hsid : st.objSID = k + n := h.counter.trans (Nat.mod_eq_of_lt hn)
  refine ⟨hsid, ?_⟩
  have hold : ∀ id, id < k + n → (makeCell st typeID links).1.cells id = st.cells id := by
    intro id hid
    exact update_of_ne (by omega) _ _
  have hnew : (makeCell st typeID links).1.cells (k + n) = some ⟨typeID, links, 0⟩ := by
    rw [← hsid]
    exact cells_makeCell
  obtain ⟨st', hst', hobj, hcontent, hcells⟩ :=
    exists_incRefCounts (makeCell st typeID links).1 hnodup (by
    intro l hl
    obtain ⟨hk, hlt⟩ := hlinks l hl
    obtain ⟨c, hc, hfanout⟩ := h.cells l.cellID hk hlt
    refine ⟨c, (hold _ hlt).trans hc, ?_⟩
    unfold MaxFanout
    omega)
  have hnotin : k + n ∉ links.map (·.cellID) := by
    rw [mem_map]
    rintro ⟨l, hl, hid⟩
    exact absurd (hlinks l hl).2 (by omega)
  refine ⟨st', ?_, ⟨?_, fun id hk hid => ?_, ?_⟩, ?_, fun id hk hid => ?_⟩
  · rw [show (makeCell st typeID links).2 = k + n from hsid, NetBuilder.addCell, hnew]
    change (links.foldlM incRefCount (makeCell st typeID links).1).bind _ = _
    rw [hst']
    rfl
  · rw [hobj, show (makeCell st typeID links).1.objSID = (st.objSID + 1) % 2 ^ 32 from rfl, hsid,
      Nat.add_assoc]
  · by_cases hlt : id < k + n
    · obtain ⟨c, hc, hfanout⟩ := h.cells id hk hlt
      obtain ⟨c', hc', hle, -⟩ := hcells id c ((hold id hlt).trans hc)
      exact ⟨c', hc', by omega⟩
    · obtain rfl : id = k + n := by omega
      obtain ⟨c', hc', -, heq⟩ := hcells (k + n) _ hnew
      rw [heq hnotin] at hc'
      exact ⟨_, hc', by dsimp only; omega⟩
  · refine perm_insert.trans ?_
    rw [range'_1_concat]
    exact h.all.append_right [k + n]
  · rw [hcontent, CellStorage.content, hnew]
    rfl
  · rw [hcontent, CellStorage.content, hold id hid, CellStorage.content]
end GateNet
end UtopiaEda
