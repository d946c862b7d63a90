import UtopiaEda.CellTrees
import Mathlib.Algebra.GroupWithZero.Nat

/-!
# The work list of `addCellTree`

The loop of `addCellTree` reads the list with an index of 32 bits and appends the link of every new
cell; the links before the index are not removed. The reference counts of the cells have 20 bits,
and `incRefCount` asserts that they do not overflow.
-/
namespace UtopiaEda
open Option (bind_eq_bind bind_eq_some_iff bind_some)

/-- The `associative` property of the table of standard cell types. -/
def CellTypeID.isAssociative : CellTypeID → Bool
  | .AND | .OR | .XOR | .XNOR => true
  | _ => false

namespace SubnetBuilder
open Incidence Finset

/-- `SubnetCell::MaxRefCount`. -/
def maxRefCount : ℕ := 2 ^ 20 - 1

/-- `addNewLinks` with the assertion of `incRefCount`. -/
def addCountedLinks (user : EntryID) : List Link → SubnetBuilder → Option SubnetBuilder
  | [], s => some s
  | l :: ls, s => do
    let c ← s.getCell l.idx
    if c.isOut ∨ maxRefCount ≤ c.refcount then none else
      addCountedLinks user ls (← s.addLink user l.idx)

def refcountAt (s : SubnetBuilder) (i : EntryID) : ℕ :=
  ((s.getCell i).map SubnetCell.refcount).getD 0

/-- The cells of the links have reference counts of 20 bits. -/
def linksFit (s : SubnetBuilder) (links : List Link) : Bool :=
  links.all (fun l => decide (s.refcountAt l.idx ≤ maxRefCount))

/-- `addCell` with the assertions of `incRefCount`. The counts only grow while the links of a cell
are registered, so the assertions are looked at in the end. -/
def addCountedCell (s : SubnetBuilder) (typeID : CellTypeID) (links : List Link) :
    Option (SubnetBuilder × Link) := do
  let (s, link) ← s.addCell typeID links
  if s.linksFit links then some (s, link) else none

namespace WorkLists

/-- Reads `linkList[i++]` for every argument. -/
def readArgs (linkList : List Link) : ℕ → ℕ → Option (List Link × ℕ)
  | 0, i => some ([], i)
  | n + 1, i => do
    let arg ← linkList[i]?
    let (args, i) ← readArgs linkList n ((i + 1) % 2 ^ 32)
    some (arg :: args, i)

/-- The loop of `addCellTree`. There is no result if it runs longer than the fuel lasts; the
result is `none` if an assertion fails. -/
def addCellTreeLoop (symbol : CellTypeID) (maxTreeArity : ℕ) :
    ℕ → SubnetBuilder → List Link → ℕ → Option (Option (SubnetBuilder × Link))
  | 0, _, _, _ => none
  | n + 1, s, linkList, i =>
    if i < linkList.length - 1 then
      let nRest := (linkList.length - i) % 2 ^ 32
      let nArgs := if nRest > maxTreeArity then maxTreeArity else nRest
      match readArgs linkList nArgs i with
      | none => some none
      | some (args, i) =>
        match s.addCountedCell symbol args with
        | none => some none
        | some (s, link) => addCellTreeLoop symbol maxTreeArity n s (linkList ++ [link]) i
    else some (linkList.getLast?.map (s, ·))

def addCellTree (fuel : ℕ) (s : SubnetBuilder) (symbol : CellTypeID) (links : List Link) (k : ℕ) :
    Option (Option (SubnetBuilder × Link)) :=
  let maxTreeArity := if k > maxCellArity then maxCellArity else k
  if links.length ≤ maxTreeArity then some (s.addCountedCell symbol links)
  else if symbol.isRegroupable then addCellTreeLoop symbol maxTreeArity fuel s links 0
  else some none

end WorkLists

variable {s s₁ s' : SubnetBuilder} {ins mid outs : List EntryID} {t : CellTypeID}
  {links : List Link} {k n i : ℕ} {l : Link} {user : EntryID}

/-! The assertions of `incRefCount`. -/

theorem refcountAt_of_getCell {c : SubnetCell} (h : s.getCell i = some c) :
    s.refcountAt i = c.refcount := by
  rw [refcountAt, h]
  rfl

private theorem refcountAt_setCell {c c' : SubnetCell} {j : EntryID} (h : s.getCell j = some c) :
    (s.setCell j c').refcountAt i = if i = j then c'.refcount else s.refcountAt i := by
  split
  · rename_i hi
    exact refcountAt_of_getCell (getCell_eq_some.mpr ⟨hi ▸ (getCell_eq_some.mp h).1,
      hi ▸ Function.update_self ..⟩)
  · rename_i hi
    simp only [refcountAt, getCell, setCell, Function.update_of_ne hi]
    rfl

theorem refcountAt_addLink {u j : EntryID} (h : s.addLink u j = some s₁) (i : EntryID) :
    s₁.refcountAt i = s.refcountAt i + if i = j then 1 else 0 := by
  simp only [SubnetBuilder.addLink, addFanout, incRefCount, bind_eq_bind] at h
  obtain ⟨s₂, hs₂, h⟩ := bind_eq_some_iff.mp h
  obtain ⟨c, hc, h⟩ := bind_eq_some_iff.mp h
  split at hs₂
  · cases hs₂
  · have hsame : ∀ i, s₂.refcountAt i = s.refcountAt i := by
      cases hs₂
      exact fun _ => rfl
    cases h
    rw [refcountAt_setCell hc, ← hsame i]
    split
    · rename_i hi
      rw [hi, refcountAt_of_getCell hc]
    · rfl

theorem refcountAt_addNewLinks : ∀ {links : List Link} {s : SubnetBuilder},
    addNewLinks user links s = some s' → ∀ i, s'.refcountAt i =
    s.refcountAt i + (links.map Link.idx).count i := by
  intro links
  induction links with
  | nil =>
    intro s h i
    cases h
    rfl
  | cons l links ih =>
    intro s h i
    simp only [addNewLinks, bind_eq_bind] at h
    obtain ⟨c, -, h⟩ := bind_eq_some_iff.mp h
    split at h
    · cases h
    · obtain ⟨s₁, hs₁, h⟩ := bind_eq_some_iff.mp h
      rw [ih h i, refcountAt_addLink hs₁ i, List.map_cons, List.count_cons, Nat.add_assoc,
        Nat.add_comm (if i = l.idx then 1 else 0)]
      simp only [beq_iff_eq, @eq_comm _ i]

/-- It makes no difference whether the assertion is looked at for every link or in the end. -/
theorem addCountedLinks_eq : ∀ (links : List Link) (s : SubnetBuilder),
    addCountedLinks user links s =
    (addNewLinks user links s).filter (fun s' => s'.linksFit links) := by
  intro links
  induction links with
  | nil => exact fun s => rfl
  | cons l links ih =>
    intro s
    rw [addCountedLinks, addNewLinks]
    cases hc : s.getCell l.idx with
    | none => rfl
    | some c =>
      have hcount : s.refcountAt l.idx = c.refcount := by rw [refcountAt, hc]; rfl
      simp only [bind_eq_bind, bind_some]
      by_cases hout : c.isOut
      · simp [hout]
      · rw [if_neg hout]
        cases hs₁ : s.addLink user l.idx with
        | none => simp
        | some s₁ =>
          have hlink := refcountAt_addLink hs₁ l.idx
          rw [bind_some, bind_some, ih s₁]
          cases hs' : addNewLinks user links s₁ with
          | none => simp
          | some s' =>
            have hall := refcountAt_addNewLinks hs' l.idx
            rw [if_pos rfl, hcount] at hlink
            by_cases hmax : maxRefCount ≤ c.refcount
            · have hover : ¬ s'.refcountAt l.idx ≤ maxRefCount := by omega
              simp [hmax, Option.filter, linksFit, hover]
            · -- A link that occurs again is looked at again.
              have hhere : s'.linksFit links = true → s'.refcountAt l.idx ≤ maxRefCount := by
                intro hfit
                by_cases hmem : l.idx ∈ links.map Link.idx
                · obtain ⟨l', hl', heq⟩ := List.mem_map.mp hmem
                  rw [← heq]
                  exact of_decide_eq_true (List.all_eq_true.mp hfit l' hl')
                · rw [List.count_eq_zero_of_not_mem hmem] at hall
                  omega
              have heq : s'.linksFit (l :: links) = s'.linksFit links := by
                cases hfit : s'.linksFit links with
                | true => simpa [linksFit, hhere hfit] using hfit
                | false => simp [linksFit] at hfit ⊢; tauto
              simp only [hout, hmax, or_self, Bool.false_eq_true, if_false, Option.filter, heq]

theorem addCountedCell_eq_some : s.addCountedCell t links = some (s', l) ↔
    s.addCell t links = some (s', l) ∧ s'.linksFit links = true := by
  simp only [addCountedCell, bind_eq_bind, bind_eq_some_iff, Prod.exists,
    Option.ite_none_right_eq_some, Option.some.injEq, Prod.mk.injEq]
  constructor
  · rintro ⟨s₁, l₁, hadd, hfit, rfl, rfl⟩
    exact ⟨hadd, hfit⟩
  · rintro ⟨hadd, hfit⟩
    exact ⟨s', l, hadd, hfit, rfl, rfl⟩

/-! The loop over the links that are left. -/

/-- The loop of `addCellTree` with the assertions of `incRefCount`, over the links that are left. -/
def addCountedTreeLoop (symbol : CellTypeID) (maxTreeArity : ℕ) :
    ℕ → SubnetBuilder → List Link → Option (SubnetBuilder × Link)
  | 0, _, _ => none
  | n + 1, s, linkList =>
    if 2 ≤ linkList.length then do
      let (s, link) ← s.addCountedCell symbol (linkList.take maxTreeArity)
      addCountedTreeLoop symbol maxTreeArity n s (linkList.drop maxTreeArity ++ [link])
    else do some (s, ← linkList[0]?)

theorem addCountedTreeLoop_fuel (hk : 2 ≤ k) {m : ℕ} (hn : links.length ≤ n) (hm : n ≤ m) :
    addCountedTreeLoop t k m s links = addCountedTreeLoop t k n s links := by
  induction n generalizing m s links with
  | zero =>
    rw [List.eq_nil_of_length_eq_zero (Nat.le_zero.mp hn)]
    cases m <;> rfl
  | succ n ih =>
    obtain ⟨m, rfl⟩ : ∃ m', m = m' + 1 := ⟨m - 1, by omega⟩
    rw [addCountedTreeLoop, addCountedTreeLoop]
    split
    · refine bind_congr (fun r => ih ?_ (Nat.le_of_succ_le_succ hm))
      rw [List.length_append, List.length_drop, List.length_singleton]
      omega
    · rfl

namespace WorkLists

/-- Number of the cells of a tree with `n` leaves. -/
def treeCells (n k : ℕ) : ℕ := (n + k - 3) / (k - 1)

theorem treeCells_step (hk : 2 ≤ k) (hn : 2 ≤ n) :
    treeCells n k = treeCells (n - min n k + 1) k + 1 := by
  obtain ⟨m, rfl⟩ : ∃ m, k = m + 2 := ⟨k - 2, by omega⟩
  simp only [treeCells, show m + 2 - 1 = m + 1 by omega]
  rcases Nat.le_total n (m + 2) with h | h
  · rw [Nat.min_eq_left h, show n - n + 1 + (m + 2) - 3 =
      m by omega, Nat.div_eq_of_lt (by omega : m < m + 1), show n + (m + 2) - 3 = (n - 2) + (m +
      1) by omega, Nat.add_div_right _ (by omega), Nat.div_eq_of_lt (by omega)]
  · rw [Nat.min_eq_right h, show n + (m + 2) - 3 =
      (n - (m + 2) + 1 + (m + 2) - 3) + (m + 1) by omega, Nat.add_div_right _ (by omega)]

theorem readArgs_eq {linkList : List Link} : ∀ {n i : ℕ}, i + n ≤ linkList.length → i + n < 2 ^ 32 →
    readArgs linkList n i = some ((linkList.drop i).take n, i + n) := by
  intro n
  induction n with
  | zero =>
    intro i _ _
    simp [readArgs]
  | succ n ih =>
    intro i hlen hsize
    have hi : i < linkList.length := by omega
    rw [readArgs, List.getElem?_eq_getElem hi, Nat.mod_eq_of_lt (by omega),
      ih (by omega : i + 1 + n ≤ _) (by omega), List.drop_eq_getElem_cons hi, List.take_succ_cons,
      Nat.add_assoc, Nat.add_comm 1 n]
    rfl

/-- The links before the index are never read again. -/
theorem addCellTreeLoop_eq (hk : 2 ≤ k) :
    ∀ {n : ℕ} {s : SubnetBuilder} {linkList : List Link} {i : ℕ},
    i < linkList.length → linkList.length - i ≤ n →
    linkList.length + treeCells (linkList.length - i) k ≤ 2 ^ 32 →
    addCellTreeLoop t k n s linkList i = some (addCountedTreeLoop t k n s (linkList.drop i)) := by
  intro n
  induction n with
  | zero =>
    intro s linkList i hi hn
    omega
  | succ n ih =>
    intro s linkList i hi hn hsize
    rw [addCellTreeLoop, addCountedTreeLoop, List.length_drop]
    by_cases hrest : 2 ≤ linkList.length - i
    · have hstep := treeCells_step hk hrest
      have hmin : (if linkList.length - i > k then k else linkList.length - i) =
          min (linkList.length - i) k := by
        split <;> omega
      have htake : (linkList.drop i).take (min (linkList.length - i) k) =
          (linkList.drop i).take k := by
        rw [← List.length_drop, Nat.min_comm, ← List.take_eq_take_min]
      rw [if_pos (by omega), if_pos hrest]
      simp only [Nat.mod_eq_of_lt (show linkList.length - i < 2 ^ 32 by omega), hmin]
      rw [readArgs_eq (by omega) (by omega), htake]
      simp only [bind_eq_bind]
      cases hadd : s.addCountedCell t ((linkList.drop i).take k) with
      | none => rfl
      | some r =>
        have hnext : (linkList ++ [r.2]).drop (i + min (linkList.length - i) k) =
            (linkList.drop i).drop k ++ [r.2] := by
          rw [List.drop_append_of_le_length (by omega), List.drop_drop]
          rcases Nat.le_total (linkList.length - i) k with h | h
          · rw [Nat.min_eq_left h, List.drop_eq_nil_of_le (by omega),
              List.drop_eq_nil_of_le (by omega)]
          · rw [Nat.min_eq_right h]
        have hlen : (linkList ++ [r.2]).length - (i + min (linkList.length - i) k) =
            linkList.length - i - min (linkList.length - i) k + 1 := by
          rw [List.length_append, List.length_singleton]
          omega
        have hlen' : (linkList ++ [r.2]).length = linkList.length + 1 := by simp
        rw [bind_some, ← hnext]
        exact ih (by omega) (by omega) (by rw [hlen]; omega)
    · obtain ⟨l, hl⟩ : ∃ l, linkList.drop i = [l] := List.length_eq_one_iff.mp (by
        rw [List.length_drop]
        omega)
      have hlast : linkList.getLast? = some l := by
        rw [← List.take_append_drop i linkList, hl, List.getLast?_concat]
      rw [if_neg (by omega), if_neg hrest, hlast, hl]
      rfl

end WorkLists

/-! The reference counts of a builder. -/

def CountsFit (s : SubnetBuilder) : Prop := ∀ i c, s.liveCell i = some c → c.refcount ≤ maxRefCount

theorem targets_le (hle : s.netlist.Le s'.netlist) (i j : EntryID) :
    (s.targets j).count i ≤ (s'.targets j).count i := by
  rw [targets_eq_netlist, targets_eq_netlist]
  cases hg : s.netlist j with
  | none => exact Nat.zero_le _
  | some g => rw [hle j g hg]

theorem NetInv.card_users_mono (h' : NetInv s' s'.targets) (hle : s.netlist.Le s'.netlist)
    (i : EntryID) : (users (range s.size) s.targets i).card ≤
    (users (range s'.size) s'.targets i).card := by
  refine card_users_le (targets_le hle i) (fun j _ hj => mem_range.mpr (h'.user j (fun hnil => ?_)))
  have hcount := targets_le hle i j
  rw [hnil, List.count_nil] at hcount
  exact Nat.not_le.mpr (List.count_pos_iff.mpr hj) hcount

theorem CountsFit.of_le (h : NetInv s s.targets) (h' : NetInv s' s'.targets)
    (hle : s.netlist.Le s'.netlist) (hfit : s'.CountsFit) : s.CountsFit := by
  intro i c hc
  obtain ⟨c', hc', -⟩ := liveCell_of_netlist (hle i _ (netlist_of_live hc))
  rw [h.refcount i c hc]
  exact Nat.le_trans (h'.card_users_mono hle i) (h'.refcount i c' hc' ▸ hfit i c' hc')

private theorem Added.count_targets {idx : EntryID} (h : Added s s' t links idx)
    (hi : i ∉ links.map Link.idx) (j : EntryID) : (s'.targets j).count i =
    (s.targets j).count i := by
  by_cases hj : j = idx
  · rcases h.old with hnone | ⟨hsame, -⟩
    · obtain ⟨ls, hls, hkey⟩ := h.here
      have hperm := ((StrashKey.make_eq hkey).2.1.map Link.idx).count_eq i
      rw [hj, targets_eq_netlist, targets_eq_netlist, hls, hnone]
      simpa using hperm.trans (List.count_eq_zero_of_not_mem hi)
    · rw [hj, targets_eq_netlist, targets_eq_netlist, hsame]
  · rw [targets_eq_netlist, targets_eq_netlist, h.other j hj]

/-- The assertions of `incRefCount` keep the counts in their range. -/
theorem NetInv.linksFit_iff (h : NetInv s s.targets) (hl : s.ValidLinks links) (hfit : s.CountsFit)
    (hadd : s.addCell t links = some (s', l)) : s'.linksFit links = true ↔ s'.CountsFit := by
  obtain ⟨h', -, hadded⟩ := h.of_addCell hl hadd
  have hvalid : s'.ValidLinks links := hl.mono (fun i g hg => hadded.of_old hg)
  constructor
  · intro hlinks i c hc
    by_cases hi : i ∈ links.map Link.idx
    · obtain ⟨k, hk, rfl⟩ := List.mem_map.mp hi
      rw [← refcountAt_of_getCell (getCell_of_live hc)]
      exact of_decide_eq_true (List.all_eq_true.mp hlinks k hk)
    · have hsame := hadded.count_targets hi
      have hcard : (users (range s'.size) s'.targets i).card ≤
          (users (range s.size) s.targets i).card := by
        refine card_users_le (fun j => Nat.le_of_eq (hsame j))
          (fun j _ hj => mem_range.mpr (h.user j ?_))
        have hpos := List.count_pos_iff.mpr hj
        rw [hsame j] at hpos
        exact List.ne_nil_of_mem (List.count_pos_iff.mp hpos)
      rw [h'.refcount i c hc]
      refine Nat.le_trans hcard ?_
      cases hold : s.liveCell i with
      | some c₀ => exact h.refcount i c₀ hold ▸ hfit i c₀ hold
      | none =>
        -- A new cell has no users yet.
        have hzero : users (range s.size) s.targets i = 0 := by
          rw [users_eq_zero]
          intro j _ hj
          obtain ⟨c₁, hc₁, -⟩ := h.target j i hj
          rw [hold] at hc₁
          cases hc₁
        rw [hzero]
        exact Nat.zero_le _
  · intro hcounts
    refine List.all_eq_true.mpr (fun k hk => decide_eq_true ?_)
    obtain ⟨c, hc, -⟩ := hvalid k hk
    rw [refcountAt_of_getCell (getCell_of_live hc)]
    exact hcounts _ c hc

/-- The assertions stop the loop exactly where a count of the tree has more than 20 bits. -/
theorem NetOk.addCountedTreeLoop_iff (ht : t.isRegroupable) :
    ∀ {n : ℕ} {s : SubnetBuilder} {links : List Link}, NetOk s → s.ValidLinks links → s.CountsFit →
    (addCountedTreeLoop t k n s links = some (s', l) ↔
      SubnetBuilder.addCellTreeLoop t k n s links = some (s', l) ∧ s'.CountsFit) := by
  obtain ⟨-, hin, hout, hsoft⟩ := regroupable_gate ht
  intro n
  induction n with
  | zero =>
    intro s links _ _ _
    simp [addCountedTreeLoop, SubnetBuilder.addCellTreeLoop]
  | succ n ih =>
    intro s links h hl hfit
    rw [addCountedTreeLoop, SubnetBuilder.addCellTreeLoop]
    by_cases hlen : 2 ≤ links.length
    · rw [if_pos hlen, if_pos hlen]
      simp only [bind_eq_bind, bind_eq_some_iff, Prod.exists]
      have hsplit := hl
      rw [← List.take_append_drop k links, validLinks_append] at hsplit
      have hstep : ∀ {s₁ l₁}, s.addCell t (links.take k) = some (s₁, l₁) →
          NetOk s₁ ∧ s₁.ValidLinks (links.drop k ++ [l₁]) := by
        intro s₁ l₁ hadd
        have hl₁ := h.net.addGateLink hsplit.1 hin hout hsoft hadd
        exact ⟨h.addCell hsplit.1 hadd, validLinks_append.mpr ⟨hsplit.2.mono hl₁.le, hl₁.valid⟩⟩
      constructor
      · rintro ⟨s₁, l₁, hadd, hrun⟩
        obtain ⟨hadd, hlinks⟩ := addCountedCell_eq_some.mp hadd
        obtain ⟨h₁, hvalid⟩ := hstep hadd
        have hfit₁ := (h.net.linksFit_iff hsplit.1 hfit hadd).mp hlinks
        obtain ⟨hrun, hfit'⟩ := (ih h₁ hvalid hfit₁).mp hrun
        exact ⟨⟨s₁, l₁, hadd, hrun⟩, hfit'⟩
      · rintro ⟨⟨s₁, l₁, hadd, hrun⟩, hfit'⟩
        obtain ⟨h₁, hvalid⟩ := hstep hadd
        obtain ⟨h', hl'⟩ := NetOk.of_addCellTreeLoop ht h₁ hvalid hrun
        have hfit₁ := hfit'.of_le h₁.net h'.net hl'.le
        exact ⟨s₁, l₁, addCountedCell_eq_some.mpr ⟨hadd,
          (h.net.linksFit_iff hsplit.1 hfit hadd).mpr hfit₁⟩,
          (ih h₁ hvalid hfit₁).mpr ⟨hrun, hfit'⟩⟩
    · rw [if_neg hlen, if_neg hlen, iff_self_and]
      intro hrun
      obtain ⟨l₀, -, heq⟩ := bind_eq_some_iff.mp hrun
      cases heq
      exact hfit

/-- `addCellTree` ends. What it returns has the function of the operation, and it returns unless a
reference count of the tree has more than 20 bits. -/
theorem NetOk.addCellTree_returns (h : NetOk s) (hfit : s.CountsFit) (hl : s.ValidLinks links)
    (ht : t.isRegroupable) (hk : 2 ≤ k)
    (hsize : links.length + WorkLists.treeCells links.length (min k maxCellArity) ≤ 2 ^ 32) :
    ∃ r, (∀ fuel, links.length ≤ fuel → WorkLists.addCellTree fuel s t links k = some r) ∧
      (∀ s' l, r = some (s', l) →
        LinkAdded s s' l (fun ρ => gateFunction t (links.map (Link.value ρ)))
        (fun g => g.type = t ∧ g.links.length ≤ min k maxCellArity)) ∧
      (∀ s' l, r = some (s', l) ↔ s.addCellTree t links k = some (s', l) ∧ s'.CountsFit) ∧
      ∀ ins mid outs, Grown s ins mid outs → (s.addCellTree t links k).isSome := by
  obtain ⟨-, hin, hout, hsoft⟩ := regroupable_gate ht
  have hmax : 2 ≤ min k maxCellArity := Nat.le_min.mpr ⟨hk, by decide⟩
  have hbound : (if k > maxCellArity then maxCellArity else k) = min k maxCellArity := by
    split <;> omega
  have hsome : ∀ ins mid outs, Grown s ins mid outs → (s.addCellTree t links k).isSome := by
    intro ins mid outs hg
    obtain ⟨s', l, -, hrun, -⟩ := hg.addCellTree hl ht hk
    rw [hrun]
    rfl
  by_cases hlen : links.length ≤ min k maxCellArity
  · have htree : s.addCellTree t links k = s.addCell t links := if_pos hlen
    have hiff : ∀ s' l, s.addCountedCell t links = some (s', l) ↔
        s.addCellTree t links k = some (s', l) ∧ s'.CountsFit := by
      intro s' l
      rw [addCountedCell_eq_some, htree]
      exact and_congr_right (fun hadd => h.net.linksFit_iff hl hfit hadd)
    refine ⟨s.addCountedCell t links, fun fuel _ => ?_, fun s' l hr => ?_, hiff, hsome⟩
    · simp only [WorkLists.addCellTree, hbound, if_pos hlen]
    · exact (h.net.addGateLink hl hin hout hsoft (addCountedCell_eq_some.mp hr).1).weaken
        (fun g hg => ⟨hg.1, hg.2 ▸ hlen⟩)
  · have hpos : 0 < links.length := by omega
    have hloop : ∀ n, links.length ≤ n →
        WorkLists.addCellTreeLoop t (min k maxCellArity) n s links 0 =
        some (addCountedTreeLoop t (min k maxCellArity) n s links) :=
      fun n hn => WorkLists.addCellTreeLoop_eq hmax hpos hn hsize
    have hdone : ∀ n, links.length ≤ n → addCountedTreeLoop t (min k maxCellArity) n s links =
        addCountedTreeLoop t (min k maxCellArity) links.length s links :=
      fun n hn => addCountedTreeLoop_fuel hmax (Nat.le_refl _) hn
    have htree : s.addCellTree t links k =
        SubnetBuilder.addCellTreeLoop t (min k maxCellArity) links.length s links := by
      simp only [SubnetBuilder.addCellTree, if_neg hlen, if_pos ht]
    have hiff : ∀ s' l, addCountedTreeLoop t (min k maxCellArity) links.length s links =
        some (s', l) ↔ s.addCellTree t links k = some (s', l) ∧ s'.CountsFit := by
      intro s' l
      rw [htree]
      exact h.addCountedTreeLoop_iff ht hl hfit
    refine ⟨_, fun fuel hfuel => ?_, fun s' l hr => ?_, hiff, hsome⟩
    · simp only [WorkLists.addCellTree, hbound, if_neg hlen, if_pos ht]
      rw [hloop fuel hfuel, hdone fuel hfuel]
    · exact (NetOk.of_addCellTreeLoop ht h hl (htree ▸ ((hiff s' l).mp hr).1)).2

private theorem exists_oneInput : ∃ s, SubnetBuilder.addInput {} = some (s, ⟨0, 0, false⟩) ∧
    Grown s [0] [] [] ∧ s.CountsFit ∧ s.ValidLinks [⟨0, 0, false⟩] := by
  obtain ⟨s, hs, h, happ⟩ := Grown.init.addInput
  refine ⟨s, hs, h, fun i c hc => ?_, validLinks_of_netlist (fun l hl => ?_)⟩
  · rw [h.net.refcount i c hc, users_eq_zero.mpr (fun j _ => ?_)]
    · exact Nat.zero_le _
    · rw [targets_eq_netlist, happ.netlist]
      by_cases hj : j = ({} : SubnetBuilder).size
      · simp [hj]
      · rw [Function.update_of_ne hj]
        exact List.not_mem_nil
  · rw [List.mem_singleton.mp hl]
    exact ⟨_, happ.here, by simp⟩

/-- The tree of a link, its complement and the link again. -/
theorem addCellTree_three : ∃ s l, SubnetBuilder.addInput {} = some (s, l) ∧
    ∃ r, (∀ fuel, 3 ≤ fuel → WorkLists.addCellTree fuel s .AND [l, l.not, l] 2 = some r) ∧
      (∀ s' l', r = some (s', l') → LinkAdded s s' l'
        (fun ρ => gateFunction .AND ([l, l.not, l].map (Link.value ρ)))
        (fun g => g.type = .AND ∧ g.links.length ≤ min 2 maxCellArity)) ∧
      (∀ s' l', r = some (s', l') ↔ s.addCellTree .AND [l, l.not, l] 2 = some (s', l') ∧
        s'.CountsFit) ∧
      ∀ ins mid outs, Grown s ins mid outs → (s.addCellTree .AND [l, l.not, l] 2).isSome := by
  obtain ⟨s, hs, h, hfit, hl⟩ := exists_oneInput
  have hvalid : s.ValidLinks [⟨0, 0, false⟩, ⟨0, 0, true⟩, ⟨0, 0, false⟩] := by
    intro l hmem
    have hidx : l.idx = 0 := by
      simp only [List.mem_cons, List.not_mem_nil, or_false] at hmem
      rcases hmem with rfl | rfl | rfl <;> rfl
    obtain ⟨c, hc, hout⟩ := hl _ (List.mem_singleton_self _)
    exact ⟨c, hidx ▸ hc, hout⟩
  exact ⟨s, ⟨0, 0, false⟩, hs,
    h.netOk.addCellTree_returns (t := .AND) hfit hvalid rfl (Nat.le_refl 2)
    (by simp [WorkLists.treeCells, maxCellArity])⟩

/-! Lists that need more than 20 bits. -/

private theorem Appended.card_users (h : Appended s s' t links) (i : EntryID) :
    (users (range s.size) s.targets i).card + (links.map Link.idx).count i ≤
      (users (range s'.size) s'.targets i).card := by
  have htargets : s'.targets = Function.update s.targets s.size (links.map Link.idx) := by
    funext j
    rw [targets_eq_netlist, h.netlist]
    by_cases hj : j = s.size
    · simp [hj]
    · rw [Function.update_of_ne hj, Function.update_of_ne hj, ← targets_eq_netlist]
  have hlt : s.size < s'.size := by
    rw [h.size]
    exact Nat.lt_add_of_pos_right (Nat.succ_pos _)
  rw [htargets, users_update (mem_range.mpr hlt), Multiset.card_add, Multiset.card_replicate,
    Nat.add_comm]
  refine Nat.add_le_add_left (card_users_le (fun _ => Nat.le_refl _) (fun j hj _ => ?_)) _
  have hj := mem_range.mp hj
  exact mem_erase.mpr ⟨Nat.ne_of_lt hj, mem_range.mpr (Nat.lt_trans hj hlt)⟩

/-- All links but those of the last cell, which may be in the hash table, are registered. -/
theorem Grown.count_addCellTreeLoop (ht : t.isRegroupable) (hk : InPlaceLinks < k) :
    ∀ {n : ℕ} {s : SubnetBuilder} {mid : List EntryID} {links : List Link}, Grown s ins mid outs →
      s.ValidLinks links → SubnetBuilder.addCellTreeLoop t k n s links = some (s', l) → ∀ i,
      (users (range s.size) s.targets i).card + (links.map Link.idx).count i ≤
        (users (range s'.size) s'.targets i).card + InPlaceLinks := by
  obtain ⟨hneg, hin, hout, hsoft⟩ := regroupable_gate ht
  intro n
  induction n with
  | zero =>
    intro s mid links _ _ hrun
    cases hrun
  | succ n ih =>
    intro s mid links h hl hrun i
    have hcount : (links.map Link.idx).count i ≤ links.length :=
      Nat.le_trans List.count_le_length (Nat.le_of_eq (List.length_map _))
    obtain ⟨h', hl'⟩ := NetOk.of_addCellTreeLoop ht h.netOk hl hrun
    by_cases hshort : links.length ≤ InPlaceLinks
    · exact Nat.add_le_add (h'.net.card_users_mono hl'.le i) (Nat.le_trans hcount hshort)
    · have hlen : 2 ≤ links.length := by
        have : InPlaceLinks = 3 := rfl
        omega
      have hsplit := hl
      rw [← List.take_append_drop k links, validLinks_append] at hsplit
      rw [SubnetBuilder.addCellTreeLoop, if_pos hlen, bind_eq_bind] at hrun
      obtain ⟨⟨s₁, l₁⟩, hadd, hrun⟩ := bind_eq_some_iff.mp hrun
      have hl₁ := h.net.addGateLink hsplit.1 hin hout hsoft hadd
      obtain ⟨s₂, idx, mid₁, hadd₂, h₁, hcases⟩ := h.addCell hsplit.1 hneg hin hout
      cases hadd.symm.trans hadd₂
      rcases hcases with ⟨he, -⟩ | ⟨-, happ⟩
      · simp only [StrashKey.isEnabled, Bool.and_eq_true, decide_eq_true_eq, List.length_take] at he
        omega
      · have hvalid : s₁.ValidLinks (links.drop k ++ [⟨idx, 0, false⟩]) :=
          validLinks_append.mpr ⟨hsplit.2.mono hl₁.le, hl₁.valid⟩
        have hrest := ih h₁ hvalid hrun i
        have hfirst := happ.card_users i
        have hparts : (links.map Link.idx).count i =
            ((links.take k).map Link.idx).count i + ((links.drop k).map Link.idx).count i := by
          rw [← List.count_append, ← List.map_append, List.take_append_drop]
        rw [List.map_append, List.count_append] at hrest
        omega

/-- A link that occurs too often stops `addCellTree`. -/
theorem Grown.addCellTree_overflow (h : Grown s ins mid outs) (hfit : s.CountsFit)
    (hl : s.ValidLinks links) (ht : t.isRegroupable) (hk : InPlaceLinks < k)
    (hsize : links.length + WorkLists.treeCells links.length (min k maxCellArity) ≤ 2 ^ 32)
    (hi : maxRefCount + InPlaceLinks < (links.map Link.idx).count i) {fuel : ℕ}
    (hfuel : links.length ≤ fuel) : WorkLists.addCellTree fuel s t links k = some none := by
  have hthree : InPlaceLinks = 3 := rfl
  obtain ⟨r, hrun, -, hiff, -⟩ := h.netOk.addCellTree_returns hfit hl ht (by omega) hsize
  rw [hrun fuel hfuel, Option.some.injEq, Option.eq_none_iff_forall_ne_some]
  rintro ⟨s', l⟩ hr
  obtain ⟨htree, hfit'⟩ := (hiff s' l).mp hr
  have hlong : ¬ links.length ≤ min k maxCellArity := by
    have hcount : (links.map Link.idx).count i ≤ links.length :=
      Nat.le_trans List.count_le_length (Nat.le_of_eq (List.length_map _))
    have hmax : maxCellArity < maxRefCount := by decide
    omega
  simp only [SubnetBuilder.addCellTree, if_neg hlong, if_pos ht] at htree
  have hkmax : InPlaceLinks < min k maxCellArity := Nat.lt_min.mpr ⟨hk, by decide⟩
  have hcount := h.count_addCellTreeLoop ht hkmax hl htree i
  have h' := (NetOk.of_addCellTreeLoop ht h.netOk hl htree).1
  have hmany : maxRefCount < (users (range s'.size) s'.targets i).card := by omega
  obtain ⟨j, hj⟩ := Multiset.card_pos_iff_exists_mem.mp (Nat.lt_of_le_of_lt (Nat.zero_le _) hmany)
  obtain ⟨c, hc, -⟩ := h'.net.target j i (mem_users.mp hj).2
  exact Nat.not_le.mpr hmany (h'.net.refcount i c hc ▸ hfit' i c hc)

theorem WorkLists.addCellTree_xnor (fuel : ℕ) (s : SubnetBuilder) (links : List Link) (k : ℕ) :
    WorkLists.addCellTree fuel s .XNOR links k = some none := by
  have hadd : s.addCountedCell .XNOR links = none := rfl
  simp [WorkLists.addCellTree, hadd, CellTypeID.isRegroupable]

/-- No tree of the associative XNOR is built, and none for a list with too many copies of a link. -/
theorem addCellTree_stops : ∃ s l, SubnetBuilder.addInput {} = some (s, l) ∧ NetOk s ∧ s.CountsFit ∧
    s.ValidLinks [l] ∧ CellTypeID.isAssociative .XNOR = true ∧
    (∀ fuel, WorkLists.addCellTree fuel s .XNOR [l, l] 2 = some none) ∧
    ∀ fuel, 2 ^ 20 + 3 ≤ fuel →
      WorkLists.addCellTree fuel s .AND (List.replicate (2 ^ 20 + 3) l) 63 = some none := by
  obtain ⟨s, hs, h, hfit, hl⟩ := exists_oneInput
  refine ⟨s, ⟨0, 0, false⟩, hs, h.netOk, hfit, hl, rfl,
    fun fuel => WorkLists.addCellTree_xnor fuel s _ 2, fun fuel hfuel => ?_⟩
  generalize hn : 2 ^ 20 + 3 = n at hfuel ⊢
  have hlen : (List.replicate n (⟨0, 0, false⟩ : Link)).length = n := List.length_replicate
  refine h.addCellTree_overflow (i := 0) hfit (fun l hmem => ?_) rfl (by decide) ?_ ?_
    (Nat.le_trans (Nat.le_of_eq hlen) hfuel)
  · exact hl l (by rw [List.eq_of_mem_replicate hmem]; exact List.mem_singleton_self _)
  · rw [hlen, ← hn]
    decide
  · rw [List.map_replicate, List.count_replicate_self, ← hn]
    decide

end SubnetBuilder

end UtopiaEda
