import UtopiaEda.MutatorTransformer
import UtopiaEda.SubnetCuts
import UtopiaEda.SubnetEncoding
import UtopiaEda.SubnetSerialization
import Mathlib.Data.Finset.Sort

/-!
# The mutator

Given are the cells to mutate or the number of cells. In the mode `CUT` the leaves of the cuts of
the cells are taken as well, and a number stands for that many last cells. The numbers of a subnet's
entries are unsigned, so the loop that looks for the last cells goes from the first entry to one
that does not exist.
-/
namespace UtopiaEda

open List
open Option (bind_eq_bind bind_eq_some_iff bind_some map_some some.inj)

inductive MutatorMode where
  | CELL | CUT
  deriving DecidableEq, Repr

namespace Mutator

/-- Neither `isOut` nor `isIn`. -/
def isInner (entries : Subnet) (cellID : EntryID) : Option Bool := do
  let cell ← entries.getCell cellID
  some (!cell.isOut && !cell.isIn)

/-- The loop of `makeListCell` that looks for cells; the entries before the first number are
left. -/
def collectCells (net : Subnet) (numOfCuts : ℕ) : ℕ → ℕ → List EntryID → Option (List EntryID)
  | 0, count, cellIdList => if count < numOfCuts then none else some cellIdList
  | cellID + 1, count, cellIdList =>
    if count < numOfCuts then do
      if ← isInner net cellID then collectCells net numOfCuts cellID (count + 1) (cellIdList ++ [cellID])
      else collectCells net numOfCuts cellID count cellIdList
    else some cellIdList

def pushNew (answerList : List EntryID) (cellID : EntryID) : List EntryID :=
  if cellID ∈ answerList then answerList else answerList ++ [cellID]

/-- The body of the loop of `makeListCell` over the cells. -/
def listCell (net : Subnet) (cutExtractor : CutExtractor) (answerList : List EntryID)
    (cellID : EntryID) : Option (List EntryID) := do
  if ← isInner net cellID then
    some ((cutExtractor.getCuts cellID).foldl
      (fun answerList cut => (cut.leafIDs.sort (· ≤ ·)).foldl pushNew answerList)
      (pushNew answerList cellID))
  else some answerList

/-- The size of the cuts goes from `unsigned` to `uint16_t`. -/
def makeListCell (net : Subnet) (numOfCuts : ℕ) (cellIdList : List EntryID) (cutSize : ℕ) :
    Option (List EntryID) :=
  if net.size = 0 then some []
  else do
    let cutExtractor ← CutExtractor.ofSubnet net (cutSize % 2 ^ 16)
    let cellIdList ← (if cellIdList = [] then collectCells net numOfCuts net.size 0 [] else
      some cellIdList : Option (List EntryID))
    cellIdList.foldlM (listCell net cutExtractor) []

def paramForTransformer (mode : MutatorMode) (inputNet : Subnet) (number cutSize : ℕ) :
    Option (ℕ × List EntryID) :=
  match mode with
  | .CUT => do
    let cellIdList ← makeListCell inputNet number [] cutSize
    some (cellIdList.length % 2 ^ 32, cellIdList)
  | .CELL => some (number, range inputNet.size)

/-- `mutate` for a list of cells. The second result is the list of the transformer. -/
def mutate (gates : ℕ → Bool) (mode : MutatorMode) (inputNet : Subnet) (cellIdList : List EntryID)
    (function : List CellSymbol) (cutSize : ℕ) : Option (Subnet × List EntryID) := do
  let cellIdList ← (match mode with
    | .CUT => makeListCell inputNet (cellIdList.length % 2 ^ 32) cellIdList cutSize
    | .CELL => some cellIdList : Option (List EntryID))
  let transformer ← MutatorTransformer.transform gates inputNet cellIdList.length
    cellIdList function
  some (← transformer.subnetBuilder.make, transformer.replacedCells)

/-- `mutate` for a number of cells, with the number and the list of the mutated cells. -/
def mutateNumber (gates : ℕ → Bool) (mode : MutatorMode) (inputNet : Subnet) (num : ℕ)
    (function : List CellSymbol) (cutSize : ℕ) : Option (Subnet × ℕ × List EntryID) := do
  let (num, cellIdList) ← paramForTransformer mode inputNet num cutSize
  let transformer ← MutatorTransformer.transform gates inputNet num cellIdList function
  some (← transformer.subnetBuilder.make, transformer.numMutated, transformer.replacedCells)

variable {gates : ℕ → Bool} {S : Subnet} {function : List CellSymbol}
  {ids cells list : List EntryID} {i j : EntryID} {n cutSize : ℕ} {x : CutExtractor}
  {mode : MutatorMode}

/-! ### The listed cells -/

def innerCells (S : Subnet) (n : ℕ) : List EntryID :=
  (range n).filter fun i => isInner S i = some true

theorem exists_isInner {c : SubnetCell} (hc : S.getCell i = some c) :
    ∃ b, isInner S i = some b := by
  rw [isInner, hc]
  exact ⟨_, rfl⟩

/-- The loop finds the last inner cells, or it leaves the array. -/
theorem collectCells_eq (hnarrow : S.Narrow) :
    ∀ {rest count : ℕ} {cellIdList : List EntryID}, rest ≤ S.size → count ≤ n →
    collectCells S n rest count cellIdList = if n ≤ count + (innerCells S rest).length
      then some (cellIdList ++ (innerCells S rest).reverse.take (n - count)) else none := by
  intro rest
  induction rest with
  | zero =>
    intro count cellIdList _ hcount
    rw [collectCells, innerCells, range_zero, filter_nil, length_nil, Nat.add_zero, reverse_nil,
      take_nil, append_nil]
    rcases Nat.lt_or_ge count n with hlt | hle
    · rw [if_pos hlt, if_neg (Nat.not_le.mpr hlt)]
    · rw [if_neg (Nat.not_lt.mpr hle), if_pos hle]
  | succ rest ih =>
    intro count cellIdList hrest hcount
    rw [collectCells]
    rcases Nat.lt_or_ge count n with hlt | hle
    · obtain ⟨c, hc, -⟩ := hnarrow rest hrest
      obtain ⟨b, hb⟩ := exists_isInner hc
      have hinner : innerCells S (rest + 1) = innerCells S rest ++ if b then [rest] else [] := by
        rw [innerCells, innerCells, range_succ, filter_append, filter_singleton, hb]
        cases b <;> rfl
      rw [if_pos hlt, hb, hinner, bind_eq_bind, bind_some]
      cases b with
      | true =>
        obtain ⟨k, rfl⟩ := Nat.exists_eq_add_of_lt hlt
        have hdiff : count + k + 1 - (count + 1) = k := by omega
        have hdiff' : count + k + 1 - count = k + 1 := by omega
        rw [if_pos rfl, if_pos rfl, ih (Nat.le_of_succ_le hrest) hlt, length_append,
          length_singleton, reverse_append, reverse_singleton, hdiff, hdiff', singleton_append,
          take_succ_cons, append_assoc, singleton_append]
        refine if_congr ?_ rfl rfl
        omega
      | false =>
        rw [if_neg Bool.false_ne_true, if_neg Bool.false_ne_true, ih (Nat.le_of_succ_le hrest) hcount, append_nil]
    · obtain rfl := Nat.le_antisymm hcount hle
      rw [if_neg (Nat.lt_irrefl _), if_pos (Nat.le_add_right _ _), Nat.sub_self, take_zero,
        append_nil]

theorem mem_pushNew : i ∈ pushNew list j ↔ i ∈ list ∨ i = j := by
  rw [pushNew]
  split
  · exact ⟨.inl, fun h => h.elim id fun heq => heq ▸ ‹j ∈ list›⟩
  · rw [mem_append, mem_singleton]

theorem nodup_pushNew (h : list.Nodup) : (pushNew list j).Nodup := by
  rw [pushNew]
  split
  · exact h
  · exact h.append (nodup_singleton j) (disjoint_singleton.mpr ‹j ∉ list›)

theorem mem_pushLeaves : ∀ {cuts : List Cut} {list : List EntryID},
    i ∈ cuts.foldl (fun list cut => (cut.leafIDs.sort (· ≤ ·)).foldl pushNew list) list ↔
      i ∈ list ∨ ∃ cut ∈ cuts, i ∈ cut.leafIDs := by
  have hinner : ∀ {leaves list : List EntryID}, i ∈ leaves.foldl pushNew list ↔ i ∈ list ∨
      i ∈ leaves := by
    intro leaves
    induction leaves with
    | nil => simp
    | cons l leaves ih =>
      intro list
      rw [foldl_cons, ih, mem_pushNew, mem_cons, or_assoc]
  intro cuts
  induction cuts with
  | nil => simp
  | cons cut cuts ih =>
    intro list
    rw [foldl_cons, ih, hinner, Finset.mem_sort, exists_mem_cons_iff, or_assoc]

theorem nodup_pushLeaves (cuts : List Cut) : ∀ {list : List EntryID}, list.Nodup →
    (cuts.foldl (fun list cut => (cut.leafIDs.sort (· ≤ ·)).foldl pushNew list) list).Nodup := by
  have hinner : ∀ {leaves list : List EntryID}, list.Nodup → (leaves.foldl pushNew list).Nodup := by
    intro leaves
    induction leaves with
    | nil => exact fun h => h
    | cons l leaves ih => exact fun h => ih (nodup_pushNew h)
  induction cuts with
  | nil => exact fun h => h
  | cons cut cuts ih => exact fun h => ih (hinner h)

/-- The cell is one of the given inner cells or a leaf of one of their cuts. -/
def Listed (S : Subnet) (x : CutExtractor) (ids : List EntryID) (i : EntryID) : Prop :=
  ∃ j ∈ ids, isInner S j = some true ∧ (i = j ∨ ∃ cut ∈ x.getCuts j, i ∈ cut.leafIDs)

theorem exists_listed (x : CutExtractor) :
    ∀ {ids list : List EntryID}, (∀ i ∈ ids, ∃ c, S.getCell i = some c) → list.Nodup →
    ∃ list', ids.foldlM (listCell S x) list = some list' ∧ list'.Nodup ∧ ∀ i, i ∈ list' ↔ i ∈ list ∨
    Listed S x ids i := by
  intro ids
  induction ids with
  | nil => exact fun _ h => ⟨_, rfl, h, fun i => by simp [Listed]⟩
  | cons j ids ih =>
    intro list hids hnd
    obtain ⟨c, hc⟩ := hids j mem_cons_self
    obtain ⟨b, hb⟩ := exists_isInner hc
    have hrest : ∀ i ∈ ids, ∃ c, S.getCell i = some c := fun i hi => hids i (mem_cons_of_mem j hi)
    have hlisted : ∀ i, Listed S x (j :: ids) i ↔
        (isInner S j = some true ∧ (i = j ∨ ∃ cut ∈ x.getCuts j, i ∈ cut.leafIDs)) ∨
        Listed S x ids i :=
      fun i => exists_mem_cons_iff _ _ _
    rw [foldlM_cons, listCell, hb]
    simp only [bind_eq_bind, bind_some]
    cases b with
    | true =>
      obtain ⟨list', hrun, hnd', hmem⟩ :=
        ih hrest (nodup_pushLeaves (x.getCuts j) (nodup_pushNew hnd))
      refine ⟨list', hrun, hnd', fun i => ?_⟩
      rw [hmem, mem_pushLeaves, mem_pushNew, hlisted, hb, eq_self, true_and, or_assoc,
        or_assoc, or_assoc]
    | false =>
      obtain ⟨list', hrun, hnd', hmem⟩ := ih hrest hnd
      refine ⟨list', hrun, hnd', fun i => ?_⟩
      have hno : ¬ (isInner S j = some true ∧ (i = j ∨ ∃ cut ∈ x.getCuts j, i ∈ cut.leafIDs)) := by
        rw [hb]
        exact fun hcon => Bool.noConfusion (some.inj hcon.1)
      rw [hmem, hlisted, or_iff_right hno]

/-! ### Mutants -/

theorem exists_makeListCell (hS : S.WellFormed) (hnarrow : S.Narrow) (hpos : 0 < S.size)
    (hk : cutSize % 2 ^ 16 ≠ 0) (hids : ∀ i ∈ ids, i < S.size)
    (hn : ids = [] → n ≤ (innerCells S S.size).length) : ∃ x list, CutExtractor.ofSubnet S
    (cutSize % 2 ^ 16) = some x ∧ makeListCell S n ids cutSize = some list ∧ list.Nodup ∧
      (∀ i ∈ list, i < S.size) ∧
      ∀ i, i ∈ list ↔ Listed S x (if ids = [] then (innerCells S S.size).reverse.take n else
      ids) i := by
  obtain ⟨x, hx, hleaves⟩ := CutExtractor.exists_ofSubnet hS hnarrow hk
  have hcollect : (if ids = [] then collectCells S n S.size 0 [] else some ids) =
      some (if ids = [] then (innerCells S S.size).reverse.take n else ids) := by
    by_cases hnil : ids = []
    · rw [if_pos hnil, if_pos hnil, collectCells_eq hnarrow (Nat.le_refl _) (Nat.zero_le n),
        Nat.zero_add, if_pos (hn hnil), nil_append, Nat.sub_zero]
    · rw [if_neg hnil, if_neg hnil]
  have hcells : ∀ i ∈ (if ids = [] then (innerCells S S.size).reverse.take n else ids),
      i < S.size := by
    intro i hi
    split at hi
    · exact mem_range.mp (mem_of_mem_filter (mem_reverse.mp (mem_of_mem_take hi)))
    · exact hids i hi
  obtain ⟨list, hlist, hnd, hmem⟩ := exists_listed x
    (fun i hi => (hnarrow i (hcells i hi)).imp fun _ h => h.1) nodup_nil
  have hlisted : ∀ i, i ∈ list ↔
      Listed S x (if ids = [] then (innerCells S S.size).reverse.take n else ids) i :=
    fun i => (hmem i).trans (or_iff_right not_mem_nil)
  refine ⟨x, list, hx, ?_, hnd, fun i hi => ?_, hlisted⟩
  · simp only [makeListCell, if_neg (Nat.ne_of_gt hpos), hx, hcollect, hlist, bind_eq_bind,
      bind_some]
  · obtain ⟨j, hj, -, rfl | ⟨cut, hcut, hi⟩⟩ := (hlisted i).mp hi
    · exact hcells i hj
    · exact hleaves.leaves j cut hcut i hi

/-- What a list that was made says about the arguments. -/
theorem of_makeListCell (hnarrow : S.Narrow) (hpos : 0 < S.size)
    (h : makeListCell S n ids cutSize = some list) : cutSize % 2 ^ 16 ≠ 0 ∧
    (∀ i ∈ ids, i < S.size) ∧ (ids = [] → n ≤ (innerCells S S.size).length) := by
  rw [makeListCell, if_neg (Nat.ne_of_gt hpos)] at h
  obtain ⟨x, hx, h⟩ := bind_eq_some_iff.mp h
  obtain ⟨all, hall, h⟩ := bind_eq_some_iff.mp h
  refine ⟨fun hk => ?_, fun i hi => ?_, fun hnil => ?_⟩
  · rw [hk, CutExtractor.ofSubnet_zero hpos] at hx
    cases hx
  · rw [if_neg (ne_nil_of_mem hi)] at hall
    cases hall
    obtain ⟨l₀, l₁, hstep⟩ := exists_of_foldlM h i hi
    obtain ⟨b, hb, -⟩ := bind_eq_some_iff.mp hstep
    obtain ⟨c, hc, -⟩ := bind_eq_some_iff.mp hb
    exact Subnet.lt_of_getCell hc
  · rw [if_pos hnil, collectCells_eq hnarrow (Nat.le_refl _) (Nat.zero_le n), Nat.zero_add] at hall
    by_contra hgt
    rw [if_neg hgt] at hall
    cases hall

open Classical in
theorem selected_of_chosen (h : i ∈ S.chosen gates function list n) :
    i ∈ list ∧ S.Selected gates function i := by
  obtain ⟨hmem, hselected⟩ := mem_filter.mp (mem_of_mem_take h)
  exact ⟨hmem, of_decide_eq_true hselected⟩

open Classical in
theorem mem_chosen (h : list.length ≤ n % 2 ^ 32) :
    i ∈ S.chosen gates function list n ↔ S.Selected gates function i ∧ i ∈ list := by
  rw [Subnet.chosen, take_of_length_le (Nat.le_trans (length_filter_le _ _) h), mem_filter,
    decide_eq_true_iff, and_comm]

theorem nodup_chosen (h : list.Nodup) : (S.chosen gates function list n).Nodup :=
  (h.filter _).sublist (take_sublist _ _)

theorem mutated_congr (h : ∀ i, i ∈ cells ↔ i ∈ list) : S.mutated cells = S.mutated list := by
  simp only [Subnet.mutated, h]

theorem exists_mutant (hS : S.WellFormed) (hout : 0 < S.nOut) (hnarrow : S.Narrow)
    (hlist : ∀ i ∈ list, i < S.size) (hsymbol : ∀ i c, S.getCell i = some c →
    (c.type.getSymbol gates).isSome) (hmutate : ∀ i ∈ S.chosen gates function list n,
    ∃ c t, S.getCell i = some c ∧ c.type.mutate = some t)
    (hr : (S.mutated (S.chosen gates function list n)).Replayable) :
    ∃ t T, MutatorTransformer.transform gates S n list function = some t ∧
    t.subnetBuilder.make = some T ∧
      (t.numMutated, t.replacedCells) =
      ((S.chosen gates function list n).length, S.chosen gates function list n) ∧
      S.MutatesTo gates function t.replacedCells T := by
  obtain ⟨s, T, hs, hT, hreplayed⟩ :=
    SubnetBuilder.exists_replay (hS.mutated (S.chosen gates function list n)) hout hr
  refine ⟨⟨s, S.chosen gates function list n, (S.chosen gates function list n).length⟩, T,
    ?_, hT, rfl, fun i hi => (selected_of_chosen hi).2, fun i hi => ?_, hreplayed.same⟩
  · rw [MutatorTransformer.transform_eq hnarrow hlist hsymbol hmutate, hs, map_some]
  · obtain ⟨c, t, hc, ht⟩ := hmutate i hi
    exact ⟨c, t, hc, ht, (CellTypeID.hasMutant ht).ne⟩

/-- A right result comes from cells with symbols, and those that were chosen have a mutation. -/
theorem of_mutant (hS : S.Arranged) {t : MutatorTransformer} {T : Subnet}
    (ht : MutatorTransformer.transform gates S n list function = some t)
    (hT : S.MutatesTo gates function t.replacedCells T) :
    S.Narrow ∧ (∀ i ∈ list, i < S.size) ∧
    (∀ i c, S.getCell i = some c → (c.type.getSymbol gates).isSome) ∧
      ∀ i ∈ S.chosen gates function list n, ∃ c t, S.getCell i = some c ∧ c.type.mutate =
      some t := by
  obtain ⟨hnarrow, hlist, hreplaced, hsymbol⟩ := MutatorTransformer.of_transform hS ht
  refine ⟨hnarrow, hlist, fun i c hc => ?_, fun i hi => ?_⟩
  · by_cases hi : i ∈ t.replacedCells
    · obtain ⟨c', t', hc', ht', -⟩ := hT.replaced i hi
      obtain rfl := some.inj (hc.symm.trans hc')
      have hstandard := (CellTypeID.hasMutant ht').standard
      unfold CellTypeID.getSymbol
      split
      · rename_i sid heq
        exact absurd heq (hstandard sid)
      · rfl
    · exact hsymbol i c hc hi
  · obtain ⟨c, t', hc, ht', -⟩ := hT.replaced i (hreplaced ▸ hi)
    exact ⟨c, t', hc, ht'⟩

/-- The cells that are to be mutated, where `ids` are given and `n` cells are wanted. -/
def Chosen (gates : ℕ → Bool) (mode : MutatorMode) (S : Subnet) (function : List CellSymbol)
    (ids : List EntryID) (n cutSize : ℕ) (i : EntryID) : Prop :=
  match mode with
  | .CELL => i ∈ S.chosen gates function ids n
  | .CUT => S.Selected gates function i ∧ ∃ x, CutExtractor.ofSubnet S (cutSize % 2 ^ 16) = some x ∧
      Listed S x ids i

structure Mutable (gates : ℕ → Bool) (mode : MutatorMode) (S : Subnet) (function : List CellSymbol)
    (ids : List EntryID)
    (n cutSize : ℕ) : Prop where
  narrow : S.Narrow
  symbol : ∀ i c, S.getCell i = some c → (c.type.getSymbol gates).isSome
  exist : ∀ i ∈ ids, i < S.size
  positive : mode = .CUT → cutSize % 2 ^ 16 ≠ 0
  mutate : ∀ i, Chosen gates mode S function ids n cutSize i → ∃ c t, S.getCell i = some c ∧
    c.type.mutate = some t

def Replays (gates : ℕ → Bool) (mode : MutatorMode) (S : Subnet) (function : List CellSymbol)
    (ids : List EntryID) (n cutSize : ℕ) : Prop :=
  ∃ cells, (∀ i, i ∈ cells ↔ Chosen gates mode S function ids n cutSize i) ∧
    (S.mutated cells).Replayable

def Mutates (gates : ℕ → Bool) (mode : MutatorMode) (S : Subnet) (function : List CellSymbol)
    (ids : List EntryID) (cutSize : ℕ) : Prop :=
  ∃ T cells, mutate gates mode S ids function cutSize = some (T, cells) ∧
    (ids.Nodup → cells.Nodup) ∧ S.MutatesTo gates function cells T

def MutatesNumber (gates : ℕ → Bool) (mode : MutatorMode) (S : Subnet) (function : List CellSymbol)
    (num cutSize : ℕ) : Prop :=
  ∃ T cells, mutateNumber gates mode S num function cutSize = some (T, cells.length, cells) ∧
    cells.Nodup ∧ (mode = .CELL → cells.length ≤ num) ∧ S.MutatesTo gates function cells T

def numbered (mode : MutatorMode) (S : Subnet) (num : ℕ) : List EntryID :=
  match mode with
  | .CELL => range S.size
  | .CUT => (innerCells S S.size).reverse.take num

theorem Mutable.exists_mutant {num : ℕ} (h : Mutable gates mode S function ids num cutSize)
    (hS : S.WellFormed) (hout : 0 < S.nOut) (hlist : ∀ i ∈ list, i < S.size)
    (hchosen : ∀ i, i ∈ S.chosen gates function list n ↔
      Chosen gates mode S function ids num cutSize i)
    (hr : Replays gates mode S function ids num cutSize) :
    ∃ t T, MutatorTransformer.transform gates S n list function = some t ∧
    t.subnetBuilder.make = some T ∧
      (t.numMutated, t.replacedCells) =
      ((S.chosen gates function list n).length, S.chosen gates function list n) ∧
      S.MutatesTo gates function t.replacedCells T := by
  obtain ⟨cells, hcells, hr⟩ := hr
  rw [mutated_congr fun i => (hcells i).trans (hchosen i).symm] at hr
  exact Mutator.exists_mutant hS hout h.narrow hlist h.symbol
    (fun i hi => h.mutate i ((hchosen i).mp hi)) hr

theorem mutable_of_run (hS : S.Arranged) {num : ℕ} {t : MutatorTransformer} {T : Subnet}
    (ht : MutatorTransformer.transform gates S n list function = some t)
    (hT : S.MutatesTo gates function t.replacedCells T)
    (hchosen : ∀ i, i ∈ S.chosen gates function list n ↔
      Chosen gates mode S function ids num cutSize i)
    (hids : ∀ i ∈ ids, i < S.size) (hk : mode = .CUT → cutSize % 2 ^ 16 ≠ 0) :
    Mutable gates mode S function ids num cutSize := by
  obtain ⟨hnarrow, -, hsymbol, hmutate⟩ := of_mutant hS ht hT
  exact ⟨hnarrow, hsymbol, hids, hk, fun i hi => hmutate i ((hchosen i).mpr hi)⟩

theorem exists_cutList (hS : S.WellFormed) (hnarrow : S.Narrow) (hpos : 0 < S.size)
    (hsize : S.size < 2 ^ 32) (hk : cutSize % 2 ^ 16 ≠ 0) (hids : ∀ i ∈ ids, i < S.size)
    (hn : ids = [] → n ≤ (innerCells S S.size).length) (num : ℕ) (gates : ℕ → Bool)
    (function : List CellSymbol) : ∃ list, makeListCell S n ids cutSize = some list ∧ list.Nodup ∧
    (∀ i ∈ list, i < S.size) ∧ list.length < 2 ^ 32 ∧
      ∀ i, i ∈ S.chosen gates function list list.length ↔ Chosen gates .CUT S function
        (if ids = [] then (innerCells S S.size).reverse.take n else ids) num cutSize i := by
  obtain ⟨x, list, hx, hlist, hnd, hlt, hmem⟩ := exists_makeListCell hS hnarrow hpos hk hids hn
  have hlength : list.length < 2 ^ 32 := by
    have hsub : list.length ≤ (range S.size).length :=
      (hnd.subperm fun i hi => mem_range.mpr (hlt i hi)).length_le
    rw [length_range] at hsub
    exact Nat.lt_of_le_of_lt hsub hsize
  refine ⟨list, hlist, hnd, hlt, hlength, fun i => ?_⟩
  rw [mem_chosen (Nat.le_of_eq (Nat.mod_eq_of_lt hlength).symm), Chosen, hmem]
  refine and_congr_right fun _ => ⟨fun h => ⟨x, hx, h⟩, ?_⟩
  rintro ⟨x', hx', h⟩
  cases some.inj (hx.symm.trans hx')
  exact h

/-- No cells are collected for an empty list. -/
theorem given_eq : (if ids = [] then (innerCells S S.size).reverse.take (ids.length % 2 ^ 32) else
    ids) = ids := by
  split
  · rename_i hnil
    rw [hnil]
    rfl
  · rfl

/-- The mutator does what it should only on subnets that are mutable, and it does so on those whose
mutated network can be added cell by cell. -/
theorem mutate_faithful (gates : ℕ → Bool) (S : Subnet) (hS : S.Arranged) (hout : 0 < S.nOut)
    (hsize : S.size < 2 ^ 32) (mode : MutatorMode) (function : List CellSymbol) (cutSize : ℕ) :
    (∀ ids : List EntryID, (Mutates gates mode S function ids cutSize →
      Mutable gates mode S function ids ids.length cutSize) ∧
      (Mutable gates mode S function ids ids.length cutSize →
        Replays gates mode S function ids ids.length cutSize →
        Mutates gates mode S function ids cutSize)) ∧
    ∀ num : ℕ, (MutatesNumber gates mode S function num cutSize →
        (mode = .CUT → num ≤ (innerCells S S.size).length) ∧
          Mutable gates mode S function (numbered mode S num) num cutSize) ∧
      ((mode = .CUT → num ≤ (innerCells S S.size).length) →
        Mutable gates mode S function (numbered mode S num) num cutSize →
        Replays gates mode S function (numbered mode S num) num cutSize →
        MutatesNumber gates mode S function num cutSize) := by
  have hb := hS.wellFormed.bounds
  have hpos : 0 < S.size := Nat.lt_of_lt_of_le hout (Nat.le_trans (Nat.le_add_left _ _) hb)
  refine ⟨fun ids => ⟨?_, fun h hr => ?_⟩, fun num => ⟨?_, fun hnum h hr => ?_⟩⟩
  · rintro ⟨T, cells, hrun, -, hT⟩
    obtain ⟨list, hlist, hrun⟩ := bind_eq_some_iff.mp hrun
    obtain ⟨t, ht, hrun⟩ := bind_eq_some_iff.mp hrun
    obtain ⟨T', hT', hrun⟩ := bind_eq_some_iff.mp hrun
    cases hrun
    cases mode with
    | CELL =>
      cases hlist
      exact mutable_of_run hS ht hT (fun i => Iff.rfl)
        (of_mutant hS ht hT).2.1 (fun h => by cases h)
    | CUT =>
      have hnarrow := (of_mutant hS ht hT).1
      obtain ⟨hk, hids, hn⟩ := of_makeListCell hnarrow hpos hlist
      obtain ⟨list', hlist', -, -, -, hchosen⟩ :=
        exists_cutList hS.wellFormed hnarrow hpos hsize hk hids hn ids.length gates function
      obtain rfl := some.inj (hlist.symm.trans hlist')
      rw [given_eq] at hchosen
      exact mutable_of_run hS ht hT hchosen hids (fun _ => hk)
  · cases mode with
    | CELL =>
      obtain ⟨t, T, ht, hT, hcells, hmutant⟩ :=
        h.exists_mutant hS.wellFormed hout h.exist (fun i => Iff.rfl) hr
      obtain ⟨-, hcells⟩ := Prod.mk.inj hcells
      refine ⟨T, t.replacedCells, ?_, fun hnd => hcells ▸ nodup_chosen hnd, hmutant⟩
      simp only [mutate, ht, hT, bind_eq_bind, bind_some]
    | CUT =>
      obtain ⟨list, hlist, hnd, hlt, -, hchosen⟩ :=
        exists_cutList hS.wellFormed h.narrow hpos hsize (h.positive rfl) h.exist
        (fun hnil => by rw [hnil]; exact Nat.zero_le _) ids.length gates function
        (n := ids.length % 2 ^ 32)
      rw [given_eq] at hchosen
      obtain ⟨t, T, ht, hT, hcells, hmutant⟩ := h.exists_mutant hS.wellFormed hout hlt hchosen hr
      obtain ⟨-, hcells⟩ := Prod.mk.inj hcells
      refine ⟨T, t.replacedCells, ?_, fun _ => hcells ▸ nodup_chosen hnd, hmutant⟩
      simp only [mutate, hlist, ht, hT, bind_eq_bind, bind_some]
  · rintro ⟨T, cells, hrun, -, -, hT⟩
    obtain ⟨⟨n, list⟩, hlist, hrun⟩ := bind_eq_some_iff.mp hrun
    obtain ⟨t, ht, hrun⟩ := bind_eq_some_iff.mp hrun
    obtain ⟨T', hT', hrun⟩ := bind_eq_some_iff.mp hrun
    simp only [Option.some.injEq, Prod.mk.injEq] at hrun
    obtain ⟨rfl, -, rfl⟩ := hrun
    cases mode with
    | CELL =>
      cases hlist
      exact ⟨(fun h => by cases h), mutable_of_run hS ht hT (fun i => Iff.rfl)
        (of_mutant hS ht hT).2.1 (fun h => by cases h)⟩
    | CUT =>
      have hnarrow := (of_mutant hS ht hT).1
      obtain ⟨list', hlist', hparam⟩ := bind_eq_some_iff.mp hlist
      cases hparam
      obtain ⟨hk, hids, hn⟩ := of_makeListCell hnarrow hpos hlist'
      obtain ⟨list'', hlist'', -, -, hlength, hchosen⟩ :=
        exists_cutList hS.wellFormed hnarrow hpos hsize hk hids hn num gates function
      obtain rfl := some.inj (hlist'.symm.trans hlist'')
      rw [Nat.mod_eq_of_lt hlength] at ht
      refine ⟨fun _ => hn rfl, mutable_of_run hS ht hT hchosen (fun i hi => ?_) (fun _ => hk)⟩
      exact mem_range.mp (mem_of_mem_filter (mem_reverse.mp (mem_of_mem_take hi)))
  · cases mode with
    | CELL =>
      obtain ⟨t, T, ht, hT, hcells, hmutant⟩ :=
        h.exists_mutant hS.wellFormed hout h.exist (fun i => Iff.rfl) hr
      rw [numbered] at ht hcells
      obtain ⟨hnum, hcells⟩ := Prod.mk.inj hcells
      refine ⟨T, t.replacedCells, ?_, hcells ▸ nodup_chosen nodup_range, fun _ => ?_, hmutant⟩
      · simp only [mutateNumber, paramForTransformer, ht, hT, hnum, hcells, bind_eq_bind, bind_some]
      · rw [hcells, Subnet.chosen]
        exact Nat.le_trans (length_take_le _ _) (Nat.mod_le _ _)
    | CUT =>
      obtain ⟨list, hlist, hnd, hlt, hlength, hchosen⟩ :=
        exists_cutList hS.wellFormed h.narrow hpos hsize
        (h.positive rfl) (fun i (hi : i ∈ []) => absurd hi not_mem_nil)
        (fun _ => hnum rfl) num gates function
      obtain ⟨t, T, ht, hT, hcells, hmutant⟩ := h.exists_mutant hS.wellFormed hout hlt hchosen hr
      obtain ⟨hnum, hcells⟩ := Prod.mk.inj hcells
      refine ⟨T, t.replacedCells, ?_, hcells ▸ nodup_chosen hnd, (fun h => by cases h), hmutant⟩
      simp only [mutateNumber, paramForTransformer, hlist, Nat.mod_eq_of_lt hlength, ht, hT, hnum,
        hcells, bind_eq_bind, bind_some]

/-! ### Examples -/

private theorem replayable_smallAnd (cells : List EntryID) :
    (SubnetSerializer.smallAnd.mutated cells).Replayable := by
  have hcell : ∀ (i : ℕ) c', (SubnetSerializer.smallAnd.mutated cells).getCell i = some c' →
      c'.arity ≤ InPlaceLinks ∧ (c'.isEnabled → i = 2) := by
    intro i c' hc'
    obtain ⟨c, hc, hl, -⟩ := Subnet.exists_of_mutated hc'
    obtain ⟨c'', hc'', hout, hin⟩ := Subnet.exists_mutated cells hc
    obtain rfl := some.inj (hc'.symm.trans hc'')
    have hi : i < 4 := Subnet.lt_of_getCell hc
    obtain rfl | rfl | rfl | rfl : i = 0 ∨ i = 1 ∨ i = 2 ∨ i = 3 := by omega
    all_goals cases hc
    · rw [SubnetCell.isEnabled, SubnetCell.isIn, hin.mpr rfl, SubnetCell.arity, hl]
      exact ⟨by decide, by simp⟩
    · rw [SubnetCell.isEnabled, SubnetCell.isIn, hin.mpr rfl, SubnetCell.arity, hl]
      exact ⟨by decide, by simp⟩
    · rw [SubnetCell.arity, hl]
      exact ⟨by decide, fun _ => rfl⟩
    · rw [SubnetCell.isEnabled, SubnetCell.isOut, hout.mpr rfl, SubnetCell.arity, hl]
      exact ⟨by decide, by simp⟩
  refine ⟨fun i hi => ?_, fun k hk => ?_⟩
  · rw [Subnet.size_mutated] at hi
    have hget := Subnet.getCell_mutated SubnetSerializer.smallAnd cells i
    have hi' : i < 4 := hi
    obtain ⟨c, hc⟩ : ∃ c, SubnetSerializer.smallAnd.getCell i = some c := by
      obtain rfl | rfl | rfl | rfl : i = 0 ∨ i = 1 ∨ i = 2 ∨ i = 3 := by omega
      all_goals exact ⟨_, rfl⟩
    rw [hc, map_some] at hget
    exact ⟨_, hget, (hcell i _ hget).1⟩
  · obtain ⟨c, hc, hen, e, he, c', hc', hen', -⟩ := hk
    rw [(hcell k c hc).2 hen, (hcell e c' hc').2 hen'] at he
    exact absurd he (Nat.lt_irrefl 2)

theorem mutate_faithful_and :
    MutatesNumber (fun _ => false) .CELL SubnetSerializer.smallAnd [some .AND] 1 1 := by
  have hS : SubnetSerializer.smallAnd.Arranged :=
    (SubnetEncoder.encodable_of_check (by decide) : SubnetSerializer.smallAnd.Encodable []
      0).arranged
  refine ((mutate_faithful (fun _ => false) _ hS (by decide) (by decide) .CELL [some .AND] 1).2 1).2
    (fun h => by cases h) ⟨fun (i : ℕ) hi => ?_, fun (i : ℕ) c hc => ?_,
    fun i hi => mem_range.mp hi, (fun h => by cases h), fun i hi => ?_⟩
    ⟨_, fun i => Iff.rfl, replayable_smallAnd _⟩
  · have hi : i < 4 := hi
    obtain rfl | rfl | rfl | rfl : i = 0 ∨ i = 1 ∨ i = 2 ∨ i = 3 := by omega
    all_goals exact ⟨_, rfl, by decide⟩
  · have hi : i < 4 := Subnet.lt_of_getCell hc
    obtain rfl | rfl | rfl | rfl : i = 0 ∨ i = 1 ∨ i = 2 ∨ i = 3 := by omega
    all_goals cases hc
    all_goals rfl
  · obtain ⟨c, hc, hsymbol⟩ := (selected_of_chosen hi).2.symbol
    refine ⟨c, .OR, hc, ?_⟩
    rw [← CellTypeID.getSymbol_eq (mem_singleton.mp hsymbol)]
    rfl

/-- An `AND` and an `OR` of the same inputs. -/
def andOr : Subnet :=
  ⟨2, 2, 6, 0, [.cell ⟨.IN, [], 2⟩, .cell ⟨.IN, [], 2⟩,
    .cell ⟨.AND, [⟨0, 0, false⟩, ⟨1, 0, false⟩], 1⟩, .cell ⟨.OR, [⟨0, 0, false⟩, ⟨1, 0, false⟩], 1⟩,
    .cell ⟨.OUT, [⟨2, 0, false⟩], 0⟩, .cell ⟨.OUT, [⟨3, 0, false⟩], 0⟩]⟩

/-- The mutated `AND` becomes the `OR` that is added next, so the outputs miss a cell. -/
theorem not_mutate_faithful : ¬ ∀ (gates : ℕ → Bool) (S : Subnet), S.Arranged → 0 < S.nOut →
    S.size < 2 ^ 32 → ∀ (mode : MutatorMode) (function : List CellSymbol) (num cutSize : ℕ),
      MutatesNumber gates mode S function num cutSize := by
  intro h
  have hS : andOr.Arranged := (SubnetEncoder.encodable_of_check (by decide) : andOr.Encodable []
    0).arranged
  obtain ⟨T, cells, hrun, -⟩ :=
    h (fun _ => false) andOr hS (by decide) (by decide) .CELL [some .AND] 1 1
  have hnone : mutateNumber (fun _ => false) .CELL andOr 1 [some .AND] 1 = none := by decide
  rw [hnone] at hrun
  cases hrun

end Mutator

end UtopiaEda
