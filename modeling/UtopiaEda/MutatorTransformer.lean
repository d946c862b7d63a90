import UtopiaEda.BreadthFirstSearch
import UtopiaEda.KeyedLists
import UtopiaEda.SubnetCopying
import UtopiaEda.SubnetReplay

/-!
# The mutation of cells

The transformer adds the cells of a subnet to a builder and gives some of them another type: those
in a list that have a type to look for and that an output depends on. A library cell has the symbol
`UNDEF`, which is `none` here; `gates` says which of the other cells are gates with a symbol of
their own.
-/
namespace UtopiaEda

open List
open Option (bind_eq_bind bind_eq_some_iff bind_some map_eq_some_iff map_some some.inj)

abbrev CellSymbol := Option CellTypeID

def CellTypeID.getSymbol (gates : ℕ → Bool) : CellTypeID → CellSymbol
  | .soft sid => if gates sid then some (.soft sid) else none
  | t => some t

/-- The type that `addMutatedCell` gives to a cell. -/
def CellTypeID.mutate : CellTypeID → Option CellTypeID
  | .AND | .XOR | .NAND => some .OR
  | .OR | .NOR => some .AND
  | .XNOR => some .NOR
  | _ => none

/-- The members of the transformer that are read afterwards, and the builder that it fills. -/
structure MutatorTransformer where
  subnetBuilder : SubnetBuilder
  replacedCells : List EntryID
  numMutated : ℕ

namespace MutatorTransformer

/-- The body of the loop of `findChildren`: the cells that link to a cell, one time for each
link. -/
def findCellChildren (inputNet : Subnet) (childCellList : KeyedLists EntryID EntryID)
    (i : EntryID) : Option (KeyedLists EntryID EntryID) := do
  let cell ← inputNet.getCell i
  some (cell.links.foldl (fun childCellList link => childCellList.add link.idx i) childCellList)

def findChildren (inputNet : Subnet) : Option (KeyedLists EntryID EntryID) :=
  (range inputNet.size).foldlM (findCellChildren inputNet) []

def connectedWithOut (inputNet : Subnet) (childCellList : KeyedLists EntryID EntryID)
    (startCell : EntryID) : Option Bool :=
  BreadthFirstSearch.search childCellList.get
    (fun cellID => (inputNet.getCell cellID).map SubnetCell.isOut)
    inputNet.size [startCell] [startCell]

/-- The body of the loop of `filterListCell`. -/
def filterCell (gates : ℕ → Bool) (inputNet : Subnet) (childCellList : KeyedLists EntryID EntryID)
    (replacedFunc : List CellSymbol) (numCells : ℕ) (answerList : List EntryID) (cellID : EntryID) :
    Option (List EntryID) := do
  let cell ← inputNet.getCell cellID
  let cellHasOut ← connectedWithOut inputNet childCellList cellID
  some (if answerList.length < numCells ∧ cell.type.getSymbol gates ∈ replacedFunc ∧ cellHasOut then
    answerList ++ [cellID] else answerList)

def filterListCell (gates : ℕ → Bool) (inputNet : Subnet)
    (childCellList : KeyedLists EntryID EntryID) (replacedCells : List EntryID)
    (replacedFunc : List CellSymbol) (numCells : ℕ) : Option (List EntryID) :=
  replacedCells.foldlM (filterCell gates inputNet childCellList replacedFunc numCells) []

def addMutatedCell (subnetBuilder : SubnetBuilder) (cell : SubnetCell) : Option SubnetBuilder :=
  match cell.type.mutate with
  | some t => (subnetBuilder.addCell t cell.links).map Prod.fst
  | none => some subnetBuilder

def addCell (gates : ℕ → Bool) (inputNet : Subnet) (replacedCells : List EntryID)
    (subnetBuilder : SubnetBuilder) (i : EntryID) : Option SubnetBuilder := do
  let cell ← inputNet.getCell i
  if i ∈ replacedCells then addMutatedCell subnetBuilder cell
  else (subnetBuilder.addCell (← cell.type.getSymbol gates) cell.links).map Prod.fst

/-- The constructor. The number of cells goes from `int` to `unsigned`. -/
def transform (gates : ℕ → Bool) (inputNet : Subnet) (numOfCells : ℕ) (cellIdList : List EntryID)
    (function : List CellSymbol) : Option MutatorTransformer := do
  let childCellList ← findChildren inputNet
  let replacedCells ← filterListCell gates inputNet childCellList cellIdList function
    (numOfCells % 2 ^ 32)
  let subnetBuilder ← (range inputNet.size).foldlM (addCell gates inputNet replacedCells) {}
  some ⟨subnetBuilder, replacedCells, replacedCells.length⟩

end MutatorTransformer

/-! ### The network that is meant -/

variable {S : Subnet} {i j : EntryID} {gates : ℕ → Bool} {function : List CellSymbol}
  {cells : List EntryID}

structure CellTypeID.HasMutant (t t' : CellTypeID) : Prop where
  ne : t' ≠ t
  gate : t ≠ .IN ∧ t ≠ .OUT
  mutant : t' ≠ .IN ∧ t' ≠ .OUT
  standard : ∀ sid, t ≠ .soft sid
  positive : t.isNegative = false → t'.isNegative = false

theorem CellTypeID.hasMutant {t t' : CellTypeID} (h : t.mutate = some t') : t.HasMutant t' := by
  cases t <;> cases h <;> exact
    ⟨by decide, by decide, by decide, fun _ => CellTypeID.noConfusion, by decide⟩

def SubnetCell.mutated (c : SubnetCell) : SubnetCell := { c with type := c.type.mutate.getD c.type }

def Subnet.mutated (S : Subnet) (cells : List EntryID) : Subnet :=
  { S with entries := S.entries.mapIdx fun i e => match e with
      | .cell c => .cell (if i ∈ cells then c.mutated else c)
      | .links ls => .links ls }

structure Subnet.Selected (gates : ℕ → Bool) (S : Subnet) (function : List CellSymbol)
    (i : EntryID) : Prop where
  symbol : ∃ c, S.getCell i = some c ∧ c.type.getSymbol gates ∈ function
  connected : ∃ o ≠ i, (∃ c, S.getCell o = some c ∧ c.type = .OUT) ∧ S.netlist.Reaches o i

/-- The subnet `T` computes what `S` does after the mutation of the cells, which are selected
ones. -/
structure Subnet.MutatesTo (gates : ℕ → Bool) (S : Subnet) (function : List CellSymbol)
    (cells : List EntryID) (T : Subnet) :
    Prop where
  selected : ∀ i ∈ cells, S.Selected gates function i
  replaced : ∀ i ∈ cells, ∃ c t, S.getCell i = some c ∧ c.type.mutate = some t ∧ t ≠ c.type
  same : (S.mutated cells).Same T

theorem Subnet.size_mutated : (S.mutated cells).size = S.size := length_mapIdx

theorem Subnet.getCell_mutated (S : Subnet) (cells : List EntryID) (i : EntryID) :
    (S.mutated cells).getCell i = (S.getCell i).map fun c => if i ∈ cells then
    c.mutated else c := by
  rw [Subnet.getCell, Subnet.getCell, Subnet.mutated, getElem?_mapIdx]
  cases S.entries[i]? with
  | none => rfl
  | some e => cases e <;> rfl

theorem Subnet.exists_of_mutated {c' : SubnetCell} (h : (S.mutated cells).getCell i = some c') :
    ∃ c, S.getCell i = some c ∧ c'.links = c.links ∧
    (c'.type = c.type ∨ c.type.mutate = some c'.type) := by
  rw [getCell_mutated] at h
  obtain ⟨c, hc, rfl⟩ := map_eq_some_iff.mp h
  refine ⟨c, hc, ?_, ?_⟩
  · split <;> rfl
  · split
    · cases ht : c.type.mutate with
      | none =>
        rw [SubnetCell.mutated, ht]
        exact .inl rfl
      | some t =>
        rw [SubnetCell.mutated, ht]
        exact .inr rfl
    · exact .inl rfl

/-- The inputs and outputs are the ones that were there. -/
theorem Subnet.exists_mutated (cells : List EntryID) {c : SubnetCell} (h : S.getCell i = some c) :
    ∃ c', (S.mutated cells).getCell i = some c' ∧ (c'.type = .OUT ↔ c.type = .OUT) ∧
    (c'.type = .IN ↔ c.type = .IN) := by
  have hget := getCell_mutated S cells i
  rw [h, map_some] at hget
  obtain ⟨c₀, hc₀, -, ht⟩ := exists_of_mutated hget
  obtain rfl := some.inj (h.symm.trans hc₀)
  refine ⟨_, hget, ?_⟩
  rcases ht with ht | ht
  · rw [ht]
    exact ⟨Iff.rfl, Iff.rfl⟩
  · have hmutant := CellTypeID.hasMutant ht
    exact ⟨iff_of_false hmutant.mutant.2 hmutant.gate.2,
      iff_of_false hmutant.mutant.1 hmutant.gate.1⟩

theorem Subnet.WellFormed.mutated (hS : S.WellFormed) (cells : List EntryID) :
    (S.mutated cells).WellFormed := by
  have hkind : ∀ i c', (S.mutated cells).getCell i = some c' → ∃ c, S.getCell i = some c ∧
      c'.links = c.links ∧ (c'.type = .OUT ↔ c.type = .OUT) ∧ (c'.type = .IN ↔ c.type = .IN) := by
    intro i c' hc'
    obtain ⟨c, hc, hl, -⟩ := exists_of_mutated hc'
    obtain ⟨c'', hc'', ht⟩ := exists_mutated cells hc
    obtain rfl := some.inj (hc'.symm.trans hc'')
    exact ⟨c, hc, hl, ht⟩
  refine ⟨fun i c' hc' => ?_, fun i c' hc' ht => ?_, fun i c' hc' => ?_, fun i c' hc' ht => ?_, ?_,
    fun i hi hlt => ?_, fun i c' hc' l hl => ?_, fun i c' hc' l hl d' hd' => ?_, fun i c' hc' => ?_⟩
  · obtain ⟨c, hc, -, -, hin⟩ := hkind i c' hc'
    exact hin.trans (hS.input i c hc)
  · obtain ⟨c, hc, hl, -, hin⟩ := hkind i c' hc'
    exact hl.trans (hS.noLinks i c hc (hin.mp ht))
  · obtain ⟨c, hc, -, hout, -⟩ := hkind i c' hc'
    rw [size_mutated]
    exact hout.trans (hS.output i c hc)
  · obtain ⟨c, hc, hl, hout, -⟩ := hkind i c' hc'
    rw [hl]
    exact hS.outLink i c hc (hout.mp ht)
  · rw [size_mutated]
    exact hS.bounds
  · rw [size_mutated] at hi hlt
    obtain ⟨c, hc⟩ := Option.isSome_iff_exists.mp (hS.ends i hi hlt)
    obtain ⟨c', hc', -⟩ := exists_mutated cells hc
    rw [hc']
    rfl
  · obtain ⟨c, hc, hlinks, -⟩ := hkind i c' hc'
    rw [hlinks] at hl
    obtain ⟨hlt, d, hd, hne⟩ := hS.links i c hc l hl
    obtain ⟨d', hd', hout, -⟩ := exists_mutated cells hd
    exact ⟨hlt, d', hd', fun heq => hne (hout.mp heq)⟩
  · obtain ⟨c, hc, hlinks, -⟩ := hkind i c' hc'
    rw [hlinks] at hl
    obtain ⟨d, hd, -, ht⟩ := exists_of_mutated hd'
    rcases hS.port i c hc l hl d hd with hzero | ⟨sid, hsid⟩
    · exact .inl hzero
    · rcases ht with ht | ht
      · exact .inr ⟨sid, ht.trans hsid⟩
      · exact absurd hsid ((CellTypeID.hasMutant ht).standard sid)
  · obtain ⟨c, hc, -, ht⟩ := exists_of_mutated hc'
    rcases ht with ht | ht
    · rw [ht]
      exact hS.positive i c hc
    · exact (CellTypeID.hasMutant ht).positive (hS.positive i c hc)

open Classical in
noncomputable def Subnet.chosen (gates : ℕ → Bool) (S : Subnet) (function : List CellSymbol)
    (list : List EntryID) (n : ℕ) :
    List EntryID := (list.filter fun i => S.Selected gates function i).take (n % 2 ^ 32)

theorem Subnet.Arranged.narrow (hS : S.Arranged) (h : ∀ i < S.size, ∃ c, S.getCell i = some c) :
    S.Narrow := by
  intro i hi
  obtain ⟨c, hc⟩ := h i hi
  refine ⟨c, hc, Nat.not_lt.mp fun hlt => ?_⟩
  have hmore : 0 < c.more := by
    simp only [SubnetCell.more, InPlaceLinks, InEntryLinks] at hlt ⊢
    omega
  obtain ⟨c', hc'⟩ := h (i + 1) (Nat.lt_of_le_of_lt (Nat.add_le_add_left hmore i)
    (hS.within i c hc))
  have hnone := hS.skipped i c hc (i + 1) (Nat.lt_succ_self i) (Nat.add_le_add_left hmore i)
  rw [hc'] at hnone
  cases hnone

theorem CellTypeID.getSymbol_eq {t t' : CellTypeID} (h : t.getSymbol gates = some t') : t' = t := by
  unfold getSymbol at h
  split at h
  · split at h <;> cases h
    rfl
  · exact (some.inj h).symm

namespace MutatorTransformer

variable {m : KeyedLists EntryID EntryID} {list : List EntryID} {n : ℕ} {t : MutatorTransformer}

theorem exists_findChildren (h : ∀ i < S.size, ∃ c, S.getCell i = some c) :
    ∃ m, findChildren S = some m ∧ ∀ i j, j ∈ m.get i ↔ S.netlist.Fanin j i := by
  have hloop : ∀ k ≤ S.size, ∃ m, (range k).foldlM (findCellChildren S) [] = some m ∧
      ∀ i j, j ∈ m.get i ↔ j < k ∧ S.netlist.Fanin j i := by
    intro k
    induction k with
    | zero => exact fun _ => ⟨[], rfl,
        fun i j => iff_of_false not_mem_nil fun hj => Nat.not_lt_zero j hj.1⟩
    | succ k ih =>
      intro hk
      obtain ⟨m, hm, hmem⟩ := ih (Nat.le_of_succ_le hk)
      obtain ⟨c, hc⟩ := h k hk
      rw [range_succ, foldlM_append, hm]
      simp only [foldlM_cons, foldlM_nil, findCellChildren, hc, bind_eq_bind, bind_some,
        Option.pure_def]
      refine ⟨_, rfl, fun i j => ?_⟩
      have hfanin : S.netlist.Fanin k i ↔ ∃ l ∈ c.links, l.idx = i := by
        rw [Netlist.Fanin, Subnet.netlist, hc]
        constructor
        · rintro ⟨g, hg, hl⟩
          cases hg
          exact hl
        · exact fun hl => ⟨_, rfl, hl⟩
      rw [KeyedLists.get_foldl_add, mem_append, hmem, mem_map, Nat.lt_succ_iff_lt_or_eq]
      constructor
      · rintro (⟨hj, hf⟩ | ⟨l, hl, rfl⟩)
        · exact ⟨.inl hj, hf⟩
        · obtain ⟨hl, hidx⟩ := mem_filter.mp hl
          exact ⟨.inr rfl, hfanin.mpr ⟨l, hl, of_decide_eq_true hidx⟩⟩
      · rintro ⟨hj | rfl, hf⟩
        · exact .inl ⟨hj, hf⟩
        · obtain ⟨l, hl, hidx⟩ := hfanin.mp hf
          exact .inr ⟨l, mem_filter.mpr ⟨hl, decide_eq_true hidx⟩, rfl⟩
  obtain ⟨m, hm, hmem⟩ := hloop S.size (Nat.le_refl _)
  refine ⟨m, hm, fun i j => (hmem i j).trans (and_iff_right_of_imp ?_)⟩
  rintro ⟨g, hg, -⟩
  obtain ⟨c, hc, -⟩ := map_eq_some_iff.mp hg
  exact Subnet.lt_of_getCell hc

/-- The search through the users of a cell finds an output that depends on it. -/
theorem connectedWithOut_eq (h : ∀ i < S.size, ∃ c, S.getCell i = some c)
    (hm : ∀ i j, j ∈ m.get i ↔ S.netlist.Fanin j i) (hi : i < S.size) :
    ∃ found, connectedWithOut S m i = some found ∧
      (found = true ↔ ∃ o ≠ i, (∃ c, S.getCell o = some c ∧ c.type = .OUT) ∧
        S.netlist.Reaches o i) := by
  have hreach : ∀ o, BreadthFirstSearch.Reaches m.get i o ↔ S.netlist.Reaches o i := by
    intro o
    have hswap : (fun a b => b ∈ m.get a) = Function.swap S.netlist.Fanin := by
      funext a b
      exact propext (hm a b)
    rw [BreadthFirstSearch.Reaches, hswap]
    exact Relation.reflTransGen_swap
  have hlt : ∀ o, BreadthFirstSearch.Reaches m.get i o → o < S.size := by
    intro o ho
    cases (hreach o).mp ho using Relation.ReflTransGen.head_induction_on with
    | refl => exact hi
    | head hf _ =>
      obtain ⟨g, hg, -⟩ := hf
      obtain ⟨c, hc, -⟩ := map_eq_some_iff.mp hg
      exact Subnet.lt_of_getCell hc
  obtain ⟨found, hfound, hiff⟩ := BreadthFirstSearch.search_eq m.get
    (fun cellID => (S.getCell cellID).map SubnetCell.isOut) i (Finset.range S.size)
    (fun o ho => Finset.mem_range.mpr (hlt o ho))
    (fun o ho => by
      obtain ⟨c, hc⟩ := h o (hlt o ho)
      rw [hc]
      rfl) (Nat.le_of_eq (Finset.card_range _))
  refine ⟨found, hfound, hiff.trans ?_⟩
  refine exists_congr fun o => and_congr_right fun _ => ?_
  rw [hreach, and_comm]
  refine and_congr_left fun _ => ?_
  rw [map_eq_some_iff]
  exact exists_congr fun c => and_congr_right fun _ => decide_eq_true_iff

open Classical in
theorem filterListCell_eq (gates : ℕ → Bool) (function : List CellSymbol) (n : ℕ)
    (h : ∀ i < S.size, ∃ c, S.getCell i = some c) (hm : ∀ i j, j ∈ m.get i ↔ S.netlist.Fanin j i)
    (hlist : ∀ i ∈ list, i < S.size) : filterListCell gates S m list function n =
    some ((list.filter fun i => S.Selected gates function i).take n) := by
  have hloop : ∀ (list : List EntryID), (∀ i ∈ list, i < S.size) → ∀ answerList : List EntryID,
      list.foldlM (filterCell gates S m function n) answerList =
        some (answerList ++ (list.filter fun i => S.Selected gates function i).take
        (n - answerList.length)) := by
    intro list
    induction list with
    | nil => exact fun _ answerList => by simp
    | cons i list ih =>
      intro hlist answerList
      obtain ⟨c, hc⟩ := h i (hlist i mem_cons_self)
      obtain ⟨found, hfound, hiff⟩ := connectedWithOut_eq h hm (hlist i mem_cons_self)
      have hselected : S.Selected gates function i ↔ c.type.getSymbol gates ∈ function ∧
          found = true := by
        rw [hiff]
        exact ⟨fun ⟨⟨c', hc', hsymbol⟩, hout⟩ => ⟨some.inj (hc.symm.trans hc') ▸ hsymbol,
          hout⟩, fun ⟨hsymbol, hout⟩ => ⟨⟨c, hc, hsymbol⟩, hout⟩⟩
      have hstep : filterCell gates S m function n answerList i =
          some (if answerList.length < n ∧ S.Selected gates function i then answerList ++ [i] else
          answerList) := by
        simp only [filterCell, hc, hfound, hselected, bind_eq_bind, bind_some]
      rw [foldlM_cons, hstep, bind_eq_bind, bind_some,
        ih (fun j hj => hlist j (mem_cons_of_mem i hj)), filter_cons]
      by_cases hsel : S.Selected gates function i
      · rw [if_pos (decide_eq_true hsel)]
        by_cases hlt : answerList.length < n
        · obtain ⟨k, hk⟩ := Nat.exists_eq_add_of_lt hlt
          have hrest : n - answerList.length = k + 1 := by omega
          have hrest' : n - (answerList ++ [i]).length = k := by
            rw [length_append, length_singleton]
            omega
          rw [if_pos ⟨hlt, hsel⟩, hrest, hrest', take_succ_cons, append_assoc]
          rfl
        · rw [if_neg (fun hcon => hlt hcon.1), Nat.sub_eq_zero_of_le (Nat.not_lt.mp hlt), take_zero,
            take_zero]
      · rw [if_neg (fun hcon => hsel hcon.2), if_neg (by simpa using hsel)]
  rw [filterListCell, hloop list hlist [], nil_append, length_nil, Nat.sub_zero]

theorem foldlM_addCell (hnarrow : S.Narrow)
    (hsymbol : ∀ i c, S.getCell i = some c → i ∉ cells → (c.type.getSymbol gates).isSome)
    (hmutate : ∀ i ∈ cells, ∃ c t, S.getCell i = some c ∧ c.type.mutate = some t)
    (s : SubnetBuilder) : (range S.size).foldlM (addCell gates S cells) s =
    (S.mutated cells).entries.foldlM SubnetBuilder.addEntry s := by
  rw [range_eq_range']
  refine foldlM_range' Subnet.size_mutated fun s i hi => ?_
  obtain ⟨c, hc, harity⟩ := hnarrow i hi
  have hget := Subnet.getCell_mutated S cells i
  rw [hc, map_some] at hget
  refine ⟨_, Subnet.entries_of_getCell hget, ?_⟩
  rw [Nat.zero_add, addCell, SubnetBuilder.addEntry]
  simp only [hc, bind_eq_bind, bind_some]
  by_cases hi : i ∈ cells
  · obtain ⟨c', t, hc', ht⟩ := hmutate i hi
    obtain rfl := some.inj (hc.symm.trans hc')
    simp only [if_pos hi, addMutatedCell, ht, SubnetCell.mutated, Option.getD_some]
    exact (if_neg (Nat.not_lt.mpr harity)).symm
  · obtain ⟨t, ht⟩ := Option.isSome_iff_exists.mp (hsymbol i c hc hi)
    simp only [if_neg hi, ht, bind_some]
    rw [if_neg (Nat.not_lt.mpr harity), CellTypeID.getSymbol_eq ht]

theorem transform_eq (hnarrow : S.Narrow) (hlist : ∀ i ∈ list, i < S.size)
    (hsymbol : ∀ i c, S.getCell i = some c → (c.type.getSymbol gates).isSome)
    (hmutate : ∀ i ∈ S.chosen gates function list n, ∃ c t, S.getCell i = some c ∧
      c.type.mutate = some t) :
    transform gates S n list function =
      ((S.mutated (S.chosen gates function list n)).entries.foldlM SubnetBuilder.addEntry {}).map
        fun s => ⟨s, S.chosen gates function list n, (S.chosen gates function list n).length⟩ := by
  have hcells : ∀ i < S.size, ∃ c, S.getCell i = some c :=
    fun i hi => (hnarrow i hi).imp fun _ h => h.1
  obtain ⟨m, hm, hchildren⟩ := exists_findChildren hcells
  have hfilter := filterListCell_eq gates function (n % 2 ^ 32) hcells hchildren hlist
  rw [transform, hm, bind_eq_bind, bind_some, hfilter, bind_eq_bind, bind_some]
  rw [← Subnet.chosen, foldlM_addCell hnarrow (fun i c hc _ => hsymbol i c hc) hmutate]
  cases (S.mutated (S.chosen gates function list n)).entries.foldlM SubnetBuilder.addEntry
    {} <;> rfl

theorem of_transform (hS : S.Arranged) (h : transform gates S n list function = some t) :
    S.Narrow ∧ (∀ i ∈ list, i < S.size) ∧ t.replacedCells = S.chosen gates function list n ∧
      ∀ i c, S.getCell i = some c → i ∉ t.replacedCells → (c.type.getSymbol gates).isSome := by
  obtain ⟨m, hm, h⟩ := bind_eq_some_iff.mp h
  obtain ⟨replacedCells, hfilter, h⟩ := bind_eq_some_iff.mp h
  obtain ⟨s, hs, h⟩ := bind_eq_some_iff.mp h
  cases h
  have hcells : ∀ i < S.size, ∃ c, S.getCell i = some c := by
    intro i hi
    obtain ⟨m₀, m₁, hstep⟩ := exists_of_foldlM hm i (mem_range.mpr hi)
    obtain ⟨c, hc, -⟩ := bind_eq_some_iff.mp hstep
    exact ⟨c, hc⟩
  have hlist : ∀ i ∈ list, i < S.size := by
    intro i hi
    obtain ⟨l₀, l₁, hstep⟩ := exists_of_foldlM hfilter i hi
    obtain ⟨c, hc, -⟩ := bind_eq_some_iff.mp hstep
    exact Subnet.lt_of_getCell hc
  obtain ⟨m', hm', hchildren⟩ := exists_findChildren hcells
  obtain rfl := some.inj (hm.symm.trans hm')
  rw [filterListCell_eq gates function (n % 2 ^ 32) hcells hchildren hlist] at hfilter
  refine ⟨hS.narrow hcells, hlist, (some.inj hfilter).symm, fun i c hc hi => ?_⟩
  obtain ⟨s₀, s₁, hstep⟩ := exists_of_foldlM hs i (mem_range.mpr (Subnet.lt_of_getCell hc))
  obtain ⟨c', hc', hstep⟩ := bind_eq_some_iff.mp hstep
  obtain rfl := some.inj (hc.symm.trans hc')
  rw [if_neg hi] at hstep
  cases ht : c.type.getSymbol gates with
  | none =>
    rw [ht] at hstep
    cases hstep
  | some t => rfl

end MutatorTransformer

end UtopiaEda
