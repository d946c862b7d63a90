import UtopiaEda.MadeSubnets
import UtopiaEda.Zhegalkin

/-!
# The truth tables of a subnet

The cells are evaluated one after the other; the tables of their outputs are kept. The loop is the
same whether a cell that is not a standard gate has the function of a library or a subnet of its
own.
-/
namespace UtopiaEda
open List

variable {n : ℕ}

abbrev TTs (n : ℕ) := List (List (TruthTable n))

/-- The tables of a cell of a soft type for those of its links. -/
abbrev SoftTables (n : ℕ) := ℕ → SubnetCell → TTs n → Option (List (TruthTable n))

namespace TruthTable

def ofBits (f : ℕ → Bool) : TruthTable n :=
  (BitVec.ofBoolListLE ((List.range (2 ^ n)).map f)).cast (by rw [length_map, length_range])

def create_nth_var (i : ℕ) : TruthTable n := ofBits (fun k => k.testBit i)

end TruthTable

def getLinkTable (link : Link) (tables : TTs n) : Option (TruthTable n) := do
  let table ← (← tables[link.idx]?)[link.out]?
  some (if link.inv then ~~~ table else table)

/-- `evaluateAnd`, `evaluateOr` and `evaluateXor`: the first link, then the others. -/
def evaluateChain (op : TruthTable n → TruthTable n → TruthTable n) (cell : SubnetCell)
    (tables : TTs n) : Option (TruthTable n) :=
  match cell.links with
  | [] => none
  | link :: links => do
    links.foldlM (fun table link => (getLinkTable link tables).map (op table))
      (← getLinkTable link tables)

def evaluateAnd (cell : SubnetCell) (tables : TTs n) : Option (TruthTable n) :=
  evaluateChain (· &&& ·) cell tables

def evaluateOr (cell : SubnetCell) (tables : TTs n) : Option (TruthTable n) :=
  evaluateChain (· ||| ·) cell tables

def evaluateXor (cell : SubnetCell) (tables : TTs n) : Option (TruthTable n) :=
  evaluateChain (· ^^^ ·) cell tables

def evaluateMaj (cell : SubnetCell) (tables : TTs n) : Option (TruthTable n) := do
  let args ← cell.links.mapM (getLinkTable · tables)
  let threshold := cell.links.length / 2
  some (.ofBits (fun k => threshold < args.countP (fun arg => arg.get_bit k)))

def evaluateCell (soft : SoftTables n) (i : EntryID) (cell : SubnetCell) (tables : TTs n) :
    Option (List (TruthTable n)) :=
  match cell.type with
  | .soft sid => soft sid cell tables
  | .IN => some [.create_nth_var i]
  | .OUT | .BUF => do some [← getLinkTable (← cell.links[0]?) tables]
  | .ZERO => some [0#(2 ^ n)]
  | .ONE => some [~~~ 0#(2 ^ n)]
  | .AND => (evaluateAnd cell tables).map ([·])
  | .OR => (evaluateOr cell tables).map ([·])
  | .XOR => (evaluateXor cell tables).map ([·])
  | .MAJ => (evaluateMaj cell tables).map ([·])
  | _ => none

/-- The loop of `evaluate`. Entries that have tables are passed over, and the entries of additional
links get an empty list each. -/
def evaluateEntries (soft : SoftTables n) (subnet : Subnet) :
    ℕ → EntryID → TTs n → List (TruthTable n) → Option (List (TruthTable n))
  | 0, i, _, result => if i < subnet.size then none else some result
  | m + 1, i, tables, result =>
    if i < subnet.size then
      if i < tables.length then evaluateEntries soft subnet m (i + 1) tables result
      else do
        let cell ← subnet.getCell i
        let outs ← evaluateCell soft i cell tables
        let tables := tables ++ [outs]
        evaluateEntries soft subnet m (i + cell.more + 1)
          (if i + cell.more < subnet.size then tables ++ .replicate cell.more [] else tables)
          (if cell.isOut then result ++ outs else result)
    else some result

/-- The function that the library gives to a type. -/
def tabulate (lib : CellLibrary) : SoftTables n := fun sid cell tables => do
  let args ← cell.links.mapM (getLinkTable · tables)
  some ((List.range (lib.outNum sid)).map
    (fun out => .ofBits (fun k => lib.eval sid (args.map (·.get_bit k)) out)))

/-- `model::evaluate`: the truth tables of the outputs. -/
def evaluate (lib : CellLibrary) (subnet : Subnet) : Option (List (TruthTable subnet.nIn)) :=
  evaluateEntries (tabulate lib) subnet subnet.size 0 [] []

open ProductSums

namespace TruthTable

variable {f g : TruthTable n} {x : ℕ → Bool}

@[simp] theorem value_and : value (f &&& g) x = (f.value x && g.value x) := BitVec.getLsbD_and

@[simp] theorem value_or : value (f ||| g) x = (f.value x || g.value x) := BitVec.getLsbD_or

@[simp] theorem value_xor : value (f ^^^ g) x = xor (f.value x) (g.value x) := BitVec.getLsbD_xor

@[simp] theorem value_not : value (~~~ f) x = !f.value x := by
  change (~~~ f).getLsbD _ = _
  rw [BitVec.getLsbD_not, decide_eq_true point_lt, Bool.true_and]
  rfl

@[simp] theorem value_zero : value (0#(2 ^ n) : TruthTable n) x = false := BitVec.getLsbD_zero

@[simp] theorem value_ofBits {b : ℕ → Bool} :
    value (ofBits b : TruthTable n) x = b (point x n) := by
  change (BitVec.cast _ _).getLsbD _ = _
  rw [BitVec.getLsbD_cast, BitVec.getLsbD_ofBoolListLE, getD_eq_getElem?_getD, getElem?_map,
    getElem?_range point_lt]
  rfl

theorem value_create_nth_var {i : ℕ} (hi : i < n) :
    value (create_nth_var i : TruthTable n) x = x i := by
  rw [create_nth_var, value_ofBits, testBit_point hi]

/-- Tables with equal values at all assignments are equal. -/
theorem ext_value (h : ∀ x, f.value x = g.value x) : f = g := by
  apply BitVec.eq_of_getLsbD_eq
  intro i hi
  have hx := h i.testBit
  rwa [value, value, get_bit, get_bit, point_testBit hi] at hx

end TruthTable

structure Subnet.Evaluable (lib : CellLibrary) (S : Subnet) : Prop where
  links : ∀ i c, S.getCell i = some c → c.type ∈ [.BUF, .AND, .OR, .XOR] → c.links ≠ []
  ports : ∀ i c, S.getCell i = some c → ∀ l ∈ c.links, ∀ c' sid, S.getCell l.idx = some c' →
    c'.type = .soft sid → l.out < lib.outNum sid

def SubnetCell.tableNum (lib : CellLibrary) (c : SubnetCell) : ℕ :=
  match c.type with
  | .soft sid => lib.outNum sid
  | _ => 1

/-- The links have tables, and the entries behind a cell are those of its links. -/
structure Subnet.Walkable (lib : CellLibrary) (S : Subnet) : Prop where
  wellFormed : S.WellFormed
  links : ∀ i c, S.getCell i = some c → c.type ∈ [.BUF, .AND, .OR, .XOR] → c.links ≠ []
  ports : ∀ i c, S.getCell i = some c → ∀ l ∈ c.links, ∀ c', S.getCell l.idx = some c' →
    l.out < c'.tableNum lib
  first : 0 < S.size → (S.getCell 0).isSome
  within : ∀ i c, S.getCell i = some c → i + c.more < S.size
  skipped : ∀ i c, S.getCell i = some c → ∀ k, i < k → k ≤ i + c.more → S.getCell k = none
  following : ∀ i c, S.getCell i = some c → i + c.more + 1 < S.size →
    (S.getCell (i + c.more + 1)).isSome

theorem Subnet.Evaluable.walkable {lib : CellLibrary} {S : Subnet} (he : S.Evaluable lib)
    (hS : S.WellFormed) (hn : S.Narrow) : S.Walkable lib := by
  have hsome : ∀ i < S.size, (S.getCell i).isSome := fun i hi => by
    obtain ⟨c, hc, -⟩ := hn i hi
    exact Option.isSome_iff_exists.mpr ⟨c, hc⟩
  have hmore : ∀ i c, S.getCell i = some c → c.more = 0 := by
    intro i c hc
    obtain ⟨c', hc', harity⟩ := hn i (Subnet.lt_of_getCell hc)
    obtain rfl := Option.some.inj (hc.symm.trans hc')
    simp only [SubnetCell.more, InPlaceLinks, InEntryLinks] at harity ⊢
    omega
  refine ⟨hS, he.links, fun i c hc l hl c' hc' => ?_, hsome 0, fun i c hc => ?_,
    fun i c hc k hik hki => ?_, fun i c hc hlt => hsome _ hlt⟩
  · unfold SubnetCell.tableNum
    split
    · rename_i sid hsid
      exact he.ports i c hc l hl c' sid hc' hsid
    · rename_i hnot
      rcases hS.port i c hc l hl c' hc' with hzero | ⟨sid, hsid⟩
      · rw [hzero]
        exact Nat.one_pos
      · exact absurd hsid (hnot sid)
  · rw [hmore i c hc]
    exact Subnet.lt_of_getCell hc
  · rw [hmore i c hc] at hki
    exact absurd hik (Nat.not_lt.mpr hki)

namespace Evaluation

section Tables

/-! ### Tables that belong to values of the cells

`V` relates assignments to values of the outputs of all cells. -/

variable {V : (ℕ → Bool) → (EntryID → ℕ → Bool) → Prop} {tables : TTs n} {c : SubnetCell}

def Shows (V : (ℕ → Bool) → (EntryID → ℕ → Bool) → Prop) (tables : TTs n) (l : Link)
    (f : TruthTable n) : Prop :=
  getLinkTable l tables = some f ∧ ∀ x ρ, V x ρ → f.value x = l.value ρ

/-- A link to an output whose cell was evaluated has a table. -/
theorem exists_shows {l : Link} {outs : List (TruthTable n)} (houts : tables[l.idx]? = some outs)
    (hout : l.out < outs.length)
    (hvalues : ∀ out f, outs[out]? = some f → ∀ x ρ, V x ρ → f.value x = ρ l.idx out) :
    ∃ f, Shows V tables l f := by
  have hget : outs[l.out]? = some outs[l.out] := getElem?_eq_getElem hout
  refine ⟨if l.inv then ~~~ outs[l.out] else outs[l.out], ?_, fun x ρ hρ => ?_⟩
  · simp only [getLinkTable, houts, Option.bind_eq_bind, Option.bind_some, hget]
  · have hvalue := hvalues l.out _ hget x ρ hρ
    cases hinv : l.inv with
    | false =>
      rw [if_neg Bool.false_ne_true, hvalue, Link.value, hinv, Bool.xor_false]
    | true =>
      rw [if_pos rfl, TruthTable.value_not, hvalue, Link.value, hinv, Bool.xor_true]

theorem exists_tables : ∀ {links : List Link}, (∀ l ∈ links, ∃ f, Shows V tables l f) →
    ∃ fs, links.mapM (getLinkTable · tables) = some fs ∧
      ∀ x ρ, V x ρ → fs.map (·.value x) = links.map (Link.value ρ) := by
  intro links
  induction links with
  | nil => exact fun _ => ⟨[], rfl, fun _ _ _ => rfl⟩
  | cons l links ih =>
    intro h
    obtain ⟨f, hf, hvalue⟩ := h l mem_cons_self
    obtain ⟨fs, hfs, hvalues⟩ := ih (fun k hk => h k (mem_cons_of_mem l hk))
    refine ⟨f :: fs, ?_, fun x ρ hρ => ?_⟩
    · rw [mapM_cons, hf, hfs]
      rfl
    · rw [map_cons, map_cons, hvalue x ρ hρ, hvalues x ρ hρ]

private theorem foldlM_op {op : TruthTable n → TruthTable n → TruthTable n} {b : Bool → Bool → Bool}
    (hop : ∀ f g x, (op f g).value x = b (f.value x) (g.value x)) : ∀ {links : List Link}
    (f : TruthTable n), (∀ l ∈ links, ∃ f, Shows V tables l f) →
    ∃ g, links.foldlM (fun table link => (getLinkTable link tables).map (op table)) f = some g ∧
      ∀ x ρ, V x ρ → g.value x = (links.map (Link.value ρ)).foldl b (f.value x) := by
  intro links
  induction links with
  | nil => exact fun f _ => ⟨f, rfl, fun _ _ _ => rfl⟩
  | cons l links ih =>
    intro f h
    obtain ⟨f', hf', hvalue⟩ := h l mem_cons_self
    obtain ⟨g, hg, hvalues⟩ := ih (op f f') (fun k hk => h k (mem_cons_of_mem l hk))
    refine ⟨g, ?_, fun x ρ hρ => ?_⟩
    · rw [foldlM_cons, hf']
      exact hg
    · rw [hvalues x ρ hρ, hop, hvalue x ρ hρ]
      rfl

/-- A gate that combines its links one after the other. -/
theorem exists_chain {op : TruthTable n → TruthTable n → TruthTable n} {b : Bool → Bool → Bool}
    (hop : ∀ f g x, (op f g).value x = b (f.value x) (g.value x)) (hlinks : c.links ≠ [])
    (h : ∀ l ∈ c.links, ∃ f, Shows V tables l f) :
    ∃ g, evaluateChain op c tables = some g ∧ ∀ x ρ, V x ρ →
      ∃ v vs, c.links.map (Link.value ρ) = v :: vs ∧ g.value x = vs.foldl b v := by
  obtain ⟨l, links, hl⟩ := exists_cons_of_ne_nil hlinks
  rw [hl] at h
  obtain ⟨f, hf, hvalue⟩ := h l mem_cons_self
  obtain ⟨g, hg, hvalues⟩ := foldlM_op hop f (fun k hk => h k (mem_cons_of_mem l hk))
  refine ⟨g, ?_, fun x ρ hρ => ⟨l.value ρ, links.map (Link.value ρ), by rw [hl, map_cons], ?_⟩⟩
  · rw [evaluateChain, hl]
    exact Option.bind_eq_some_iff.mpr ⟨f, hf, hg⟩
  · rw [hvalues x ρ hρ, hvalue x ρ hρ]

theorem exists_gate (soft : SoftTables n) (lib : CellLibrary) (i : EntryID)
    (hpositive : c.type.isNegative = false) (hin : c.type ≠ .IN)
    (hsoft : ∀ sid, c.type ≠ .soft sid) (hout : c.type = .OUT → c.links.length = 1)
    (hlinks : c.type ∈ [.BUF, .AND, .OR, .XOR] → c.links ≠ [])
    (htables : ∀ l ∈ c.links, ∃ f, Shows V tables l f) : ∃ f, evaluateCell soft i c tables =
    some [f] ∧
      ∀ x ρ, V x ρ → f.value x = c.type.eval lib (c.links.map (Link.value ρ)) 0 := by
  unfold evaluateCell
  cases ht : c.type with
  | IN => exact absurd ht hin
  | soft sid => exact absurd ht (hsoft sid)
  | ZERO =>
    refine ⟨_, rfl, fun x ρ _ => ?_⟩
    rw [TruthTable.value_zero]
    rfl
  | ONE =>
    refine ⟨_, rfl, fun x ρ _ => ?_⟩
    rw [TruthTable.value_not, TruthTable.value_zero]
    rfl
  | OUT =>
    obtain ⟨l, hl⟩ := length_eq_one_iff.mp (hout ht)
    obtain ⟨f, hf, hvalue⟩ := htables l (by simp [hl])
    refine ⟨f, by simp [hl, hf], fun x ρ hρ => ?_⟩
    rw [hl, hvalue x ρ hρ]
    rfl
  | BUF =>
    obtain ⟨l, links, hl⟩ := exists_cons_of_ne_nil (hlinks (by simp [ht]))
    obtain ⟨f, hf, hvalue⟩ := htables l (by simp [hl])
    refine ⟨f, by simp [hl, hf], fun x ρ hρ => ?_⟩
    rw [hl, hvalue x ρ hρ]
    rfl
  | AND =>
    obtain ⟨g, hg, hvalue⟩ := exists_chain (b := and) (fun _ _ _ => TruthTable.value_and)
      (hlinks (by simp [ht])) htables
    refine ⟨g, by rw [evaluateAnd, hg]; rfl, fun x ρ hρ => ?_⟩
    obtain ⟨v, vs, hvs, hgv⟩ := hvalue x ρ hρ
    rw [hgv, CellTypeID.foldl_and, hvs]
    rfl
  | OR =>
    obtain ⟨g, hg, hvalue⟩ := exists_chain (b := or) (fun _ _ _ => TruthTable.value_or)
      (hlinks (by simp [ht])) htables
    refine ⟨g, by rw [evaluateOr, hg]; rfl, fun x ρ hρ => ?_⟩
    obtain ⟨v, vs, hvs, hgv⟩ := hvalue x ρ hρ
    rw [hgv, CellTypeID.foldl_or, hvs]
    rfl
  | XOR =>
    obtain ⟨g, hg, hvalue⟩ := exists_chain (b := xor) (fun _ _ _ => TruthTable.value_xor)
      (hlinks (by simp [ht])) htables
    refine ⟨g, by rw [evaluateXor, hg]; rfl, fun x ρ hρ => ?_⟩
    obtain ⟨v, vs, hvs, hgv⟩ := hvalue x ρ hρ
    rw [hgv, CellTypeID.foldl_xor, hvs]
    rfl
  | MAJ =>
    obtain ⟨fs, hfs, hvalue⟩ := exists_tables htables
    refine ⟨_, by rw [evaluateMaj, hfs]; rfl, fun x ρ hρ => ?_⟩
    have hcount : fs.countP (fun arg => arg.get_bit (point x n)) =
        (c.links.map (Link.value ρ)).count true := by
      rw [← hvalue x ρ hρ, count_eq_countP, countP_map]
      exact countP_congr (fun f _ => by simp [TruthTable.value])
    rw [TruthTable.value_ofBits, hcount, CellTypeID.eval, length_map]
    exact decide_eq_decide.mpr (by omega)
  | _ =>
    rw [ht] at hpositive
    cases hpositive

end Tables

variable {lib : CellLibrary} {soft : SoftTables n} {S : Subnet} {tables : TTs n} {i k : ℕ}
  {c : SubnetCell} {y : (ℕ → Bool) → EntryID → Bool}

/-- The first `k` inputs have the given tables, and `y` has their values. -/
structure Starts (S : Subnet) (tables : TTs n) (k : ℕ) (y : (ℕ → Bool) → EntryID → Bool) :
    Prop where
  length : tables.length = k
  le : k ≤ S.nIn
  given : ∀ i < k, ∃ f, tables[i]? = some [f] ∧ ∀ x, y x i = f.value x
  other : ∀ i, k ≤ i → i < S.nIn → i < n ∧ ∀ x, y x i = x i

def Yields (lib : CellLibrary) (S : Subnet) (y : (ℕ → Bool) → EntryID → Bool)
    (result : Option (List (TruthTable n))) : Prop :=
  ∃ fs, result = some fs ∧ fs.length = S.nOut ∧ ∀ j f, fs[j]? = some f → ∀ x,
    S.value lib (y x) (S.getOutIdx j) 0 = some (f.value x)

abbrev Fits (lib : CellLibrary) (S : Subnet) (y : (ℕ → Bool) → EntryID → Bool) (x : ℕ → Bool)
    (ρ : EntryID → ℕ → Bool) : Prop :=
  S.netlist.Solves lib (y x) ρ

structure HasTables (lib : CellLibrary) (S : Subnet) (y : (ℕ → Bool) → EntryID → Bool) (i : EntryID)
    (c : SubnetCell) (outs : List (TruthTable n)) : Prop where
  length : outs.length = c.tableNum lib
  values : ∀ out f, outs[out]? = some f → ∀ x ρ, Fits lib S y x ρ → f.value x = ρ i out

structure Done (lib : CellLibrary) (S : Subnet) (y : (ℕ → Bool) → EntryID → Bool) (i : EntryID)
    (tables : TTs n) : Prop where
  length : tables.length = i
  cells : ∀ e < i, ∀ c, S.getCell e = some c → ∃ outs, tables[e]? = some outs ∧
    HasTables lib S y e c outs

def Tabulates (lib : CellLibrary) (S : Subnet) (y : (ℕ → Bool) → EntryID → Bool)
    (soft : SoftTables n) : Prop :=
  ∀ i c sid, S.getCell i = some c → c.type = .soft sid →
    ∀ tables, (∀ l ∈ c.links, ∃ f, Shows (Fits lib S y) tables l f) →
    ∃ outs, soft sid c tables = some outs ∧ HasTables lib S y i c outs

theorem Done.exists_shows (h : Done lib S y i tables) (hS : S.Walkable lib)
    (hc : S.getCell i = some c) : ∀ l ∈ c.links, ∃ f, Shows (Fits lib S y) tables l f := by
  intro l hl
  obtain ⟨hlt, c', hc', -⟩ := hS.wellFormed.links i c hc l hl
  obtain ⟨outs, houts, hlen, hvalues⟩ := h.cells l.idx hlt c' hc'
  exact Evaluation.exists_shows houts (hlen ▸ hS.ports i c hc l hl c' hc') hvalues

theorem eq_eval {x : ℕ → Bool} {ρ : EntryID → ℕ → Bool} (hc : S.getCell i = some c)
    (hρ : Fits lib S y x ρ) (out : ℕ) : ρ i out = if c.type = .IN then y x i
      else c.type.eval lib (c.links.map (Link.value ρ)) out := by
  have hgate : S.netlist i = some ⟨c.type, c.links⟩ := by
    rw [Subnet.netlist, hc]
    rfl
  rw [hρ i _ hgate, Netlist.gateValue]

theorem tabulates_tabulate : Tabulates lib S y (tabulate lib : SoftTables n) := by
  intro i c sid hc ht tables htables
  obtain ⟨fs, hfs, hvalue⟩ := exists_tables htables
  refine ⟨(List.range (lib.outNum sid)).map fun out => .ofBits fun k => lib.eval sid
    (fs.map (·.get_bit k)) out, by simp [tabulate, hfs], ?_, fun out f hf x ρ hρ => ?_⟩
  · rw [length_map, length_range, SubnetCell.tableNum, ht]
  · obtain ⟨hlt, rfl⟩ := List.getElem?_eq_some_iff.mp hf
    rw [getElem_map, getElem_range, TruthTable.value_ofBits, eq_eval hc hρ, ht, if_neg (by simp),
      ← hvalue x ρ hρ]
    rfl

theorem Done.exists_outs (h : Done lib S y i tables) (hS : S.Walkable lib)
    (hsoft : Tabulates lib S y soft) (hc : S.getCell i = some c) (hin : i < S.nIn → i < n ∧
    ∀ x, y x i = x i) : ∃ outs, evaluateCell soft i c tables = some outs ∧
    HasTables lib S y i c outs := by
  have hwf := hS.wellFormed
  have htables := h.exists_shows hS hc
  by_cases hsid : ∃ sid, c.type = .soft sid
  · obtain ⟨sid, hsid⟩ := hsid
    rw [evaluateCell, hsid]
    exact hsoft i c sid hc hsid tables htables
  have hnot : ∀ sid, c.type ≠ .soft sid := fun sid ht => hsid ⟨sid, ht⟩
  -- the only output of a gate
  have hsingle : ∀ f : TruthTable n, (∀ x ρ, Fits lib S y x ρ → f.value x = ρ i 0) →
      HasTables lib S y i c [f] := by
    intro f hf
    refine ⟨?_, fun out g hg x ρ hρ => ?_⟩
    · unfold SubnetCell.tableNum
      split
      · rename_i sid hsid
        exact absurd hsid (hnot sid)
      · rfl
    · obtain ⟨hlt, rfl⟩ := List.getElem?_eq_some_iff.mp hg
      have hzero : out = 0 := Nat.lt_one_iff.mp hlt
      subst hzero
      exact hf x ρ hρ
  by_cases hIN : c.type = .IN
  · obtain ⟨hi, hy⟩ := hin ((hwf.input i c hc).mp hIN)
    refine ⟨[.create_nth_var i], by simp [evaluateCell, hIN], hsingle _ fun x ρ hρ => ?_⟩
    rw [eq_eval hc hρ, if_pos hIN, hy, TruthTable.value_create_nth_var hi]
  · obtain ⟨f, hf, hvalue⟩ := exists_gate soft lib i (hwf.positive i c hc) hIN hnot
      (hwf.outLink i c hc) (hS.links i c hc) htables
    refine ⟨[f], hf, hsingle f fun x ρ hρ => ?_⟩
    rw [eq_eval hc hρ, if_neg hIN, hvalue x ρ hρ]

theorem Done.next (h : Done lib S y i tables) (hS : S.Walkable lib) (hc : S.getCell i = some c)
    {outs : List (TruthTable n)} (hcell : HasTables lib S y i c outs) :
    Done lib S y (i + c.more + 1) (tables ++ [outs] ++ .replicate c.more []) := by
  refine ⟨?_, fun e he a ha => ?_⟩
  · rw [length_append, length_append, h.length, length_replicate, length_singleton]
    omega
  · rcases Nat.lt_trichotomy e i with hlt | rfl | hgt
    · rw [append_assoc, getElem?_append_left (h.length ▸ hlt)]
      exact h.cells e hlt a ha
    · obtain rfl := Option.some.inj (hc.symm.trans ha)
      refine ⟨outs, ?_, hcell⟩
      rw [append_assoc, getElem?_append_right (Nat.le_of_eq h.length), h.length, Nat.sub_self]
      rfl
    · have hnone := hS.skipped i c hc e hgt (Nat.lt_succ_iff.mp he)
      rw [hnone] at ha
      cases ha

theorem evaluateEntries_skip (soft : SoftTables n) (S : Subnet) (result : List (TruthTable n)) :
    ∀ (k i m : ℕ), i + k ≤ tables.length → i + k ≤ S.size →
      evaluateEntries soft S (m + k) i tables result =
        evaluateEntries soft S m (i + k) tables result := by
  intro k
  induction k with
  | zero => exact fun i m _ _ => rfl
  | succ k ih =>
    intro i m hlen hsize
    have hstep : i < i + (k + 1) := Nat.lt_add_of_pos_right (Nat.succ_pos k)
    rw [← Nat.add_assoc, evaluateEntries, if_pos (Nat.lt_of_lt_of_le hstep hsize),
      if_pos (Nat.lt_of_lt_of_le hstep hlen), ih (i + 1) m (by omega) (by omega),
      Nat.add_assoc i 1 k, Nat.add_comm 1 k]

theorem evaluateEntries_eq (hS : S.Walkable lib) (hsoft : Tabulates lib S y soft)
    (hin : ∀ i, k ≤ i → i < S.nIn → i < n ∧ ∀ x, y x i = x i) :
    ∀ (m i : ℕ) (tables : TTs n) (result : List (TruthTable n)), Done lib S y i tables → k ≤ i →
      (i < S.size → (S.getCell i).isSome) → S.size ≤ i + m →
      ∃ fs, evaluateEntries soft S m i tables result = some (result ++ fs) ∧
        fs.length = S.size - max i (S.size - S.nOut) ∧
        ∀ j f, fs[j]? = some f → ∀ x ρ, Fits lib S y x ρ →
        f.value x = ρ (max i (S.size - S.nOut) + j) 0 := by
  have hwf := hS.wellFormed
  intro m
  induction m with
  | zero =>
    intro i tables result h hk hi hm
    have hle : S.size ≤ max i (S.size - S.nOut) := Nat.le_trans hm (Nat.le_max_left _ _)
    refine ⟨[], ?_, (Nat.sub_eq_zero_of_le hle).symm, fun j f hf => by cases hf⟩
    have hend : ¬ i < S.size := Nat.not_lt.mpr hm
    rw [evaluateEntries, if_neg hend, append_nil]
  | succ m ih =>
    intro i tables result h hk hi hm
    rw [evaluateEntries]
    by_cases hlt : i < S.size
    · obtain ⟨c, hc⟩ := Option.isSome_iff_exists.mp (hi hlt)
      obtain ⟨outs, houts, hcell⟩ := h.exists_outs hS hsoft hc (hin i hk)
      have hwithin := hS.within i c hc
      obtain ⟨fs, hfs, hlen, hvalues⟩ :=
        ih (i + c.more + 1) _ (if c.isOut then result ++ outs else result)
        (h.next hS hc hcell) (by omega) (hS.following i c hc) (by omega)
      rw [if_pos hlt, if_neg (Nat.not_lt.mpr (Nat.le_of_eq h.length)), hc]
      simp only [Option.bind_eq_bind, Option.bind_some, houts]
      rw [if_pos hwithin, hfs]
      by_cases hout : c.type = .OUT
      · have hle : S.size - S.nOut ≤ i := (hwf.output i c hc).mp hout
        have hmore : c.more = 0 := by
          have := hwf.outLink i c hc hout
          simp only [SubnetCell.more, SubnetCell.arity, InPlaceLinks, InEntryLinks]
          omega
        have houtlen : outs.length = 1 := by rw [hcell.length, SubnetCell.tableNum, hout]
        obtain ⟨g, rfl⟩ := length_eq_one_iff.mp houtlen
        rw [hmore, Nat.add_zero] at hlen hvalues
        rw [if_pos (by simp [SubnetCell.isOut, hout]), append_assoc]
        refine ⟨g :: fs, rfl, ?_, fun j f hf x ρ hρ => ?_⟩
        · rw [length_cons, hlen, Nat.max_eq_left hle, Nat.max_eq_left (Nat.le_succ_of_le hle)]
          omega
        · rw [Nat.max_eq_left hle]
          cases j with
          | zero => exact hcell.values 0 f hf x ρ hρ
          | succ j =>
            have hvalue := hvalues j f hf x ρ hρ
            rwa [Nat.max_eq_left (Nat.le_succ_of_le hle), Nat.succ_add] at hvalue
      · -- the additional entries of a cell are in front of the outputs
        have hbefore : i + c.more < S.size - S.nOut := by
          by_contra hnot
          rcases Nat.eq_zero_or_pos c.more with hzero | hpos
          · rw [hzero, Nat.add_zero] at hnot
            exact hout ((hwf.output i c hc).mpr (Nat.not_lt.mp hnot))
          · have hsome := hwf.ends (i + c.more) (.inr (Nat.not_lt.mp hnot)) hwithin
            rw [hS.skipped i c hc (i + c.more) (Nat.lt_add_of_pos_right hpos)
              (Nat.le_refl _)] at hsome
            cases hsome
        rw [if_neg (by simp [SubnetCell.isOut, hout])]
        rw [Nat.max_eq_right (Nat.succ_le_of_lt hbefore)] at hlen hvalues
        rw [Nat.max_eq_right (Nat.le_of_lt (Nat.lt_of_le_of_lt (Nat.le_add_right i c.more) hbefore))]
        exact ⟨fs, rfl, hlen, hvalues⟩
    · rw [if_neg hlt]
      have hle : S.size ≤ max i (S.size - S.nOut) :=
        Nat.le_trans (Nat.not_lt.mp hlt) (Nat.le_max_left _ _)
      exact ⟨[], by rw [append_nil], (Nat.sub_eq_zero_of_le hle).symm, fun j f hf => by cases hf⟩

theorem Starts.done (h : Starts S tables k y) (hS : S.Walkable lib) : Done lib S y k tables := by
  have hwf := hS.wellFormed
  refine ⟨h.length, fun e he c hc => ?_⟩
  have hIN : c.type = .IN := (hwf.input e c hc).mpr (Nat.lt_of_lt_of_le he h.le)
  obtain ⟨f, hf, hy⟩ := h.given e he
  refine ⟨[f], hf, ?_, fun out g hg x ρ hρ => ?_⟩
  · rw [SubnetCell.tableNum, hIN]
    rfl
  · obtain ⟨-, rfl⟩ := List.getElem?_eq_some_iff.mp hg
    rw [eq_eval hc hρ, if_pos hIN, hy, getElem_singleton]

theorem isSome_behind_inputs (hS : S.Walkable lib) (hk : k ≤ S.nIn) (hlt : k < S.size) :
    (S.getCell k).isSome := by
  have hwf := hS.wellFormed
  cases k with
  | zero => exact hS.first hlt
  | succ k =>
    obtain ⟨c, hc⟩ := Option.isSome_iff_exists.mp (hwf.ends k (.inl hk) (Nat.lt_of_succ_lt hlt))
    have hIN : c.type = .IN := (hwf.input k c hc).mpr hk
    have hmore : c.more = 0 := by
      rw [SubnetCell.more, SubnetCell.arity, hwf.noLinks k c hc hIN]
      rfl
    have hnext := hS.following k c hc
    rw [hmore, Nat.add_zero] at hnext
    exact hnext hlt

theorem Starts.yields (h : Starts S tables k y) (hS : S.Walkable lib)
    (hsoft : Tabulates lib S y soft) :
    Yields lib S y (evaluateEntries soft S S.size 0 tables []) := by
  have hwf := hS.wellFormed
  have hb := hwf.bounds
  have hk : k ≤ S.size := Nat.le_trans h.le (Nat.le_trans (Nat.le_add_right _ _) hb)
  have hskip := evaluateEntries_skip soft S [] k 0 (S.size - k)
    (by rw [Nat.zero_add, h.length]) (by rwa [Nat.zero_add])
  rw [Nat.sub_add_cancel hk, Nat.zero_add] at hskip
  obtain ⟨fs, hfs, hlen, hvalues⟩ := evaluateEntries_eq hS hsoft h.other (S.size - k) k tables []
    (h.done hS) (Nat.le_refl k) (isSome_behind_inputs hS h.le) (by omega)
  have hmax : max k (S.size - S.nOut) = S.size - S.nOut := by
    have := h.le
    omega
  rw [hmax] at hlen hvalues
  have hcount : fs.length = S.nOut := by omega
  refine ⟨fs, hskip.trans hfs, hcount, fun j f hf x => ?_⟩
  obtain ⟨ρ, hρ, hvalue⟩ := hwf.exists_values lib (y x)
  have hj : j < S.nOut := hcount ▸ (List.getElem?_eq_some_iff.mp hf).1
  obtain ⟨c, hc⟩ := Option.isSome_iff_exists.mp (hwf.ends (S.getOutIdx j)
    (.inr (Nat.le_add_right _ _)) (by
    rw [Subnet.getOutIdx]
    omega))
  rw [hvalue _ c hc, hvalues j f hf x ρ hρ]
  rfl

theorem starts_nil (S : Subnet) : Starts S ([] : TTs S.nIn) 0 (fun x => x) :=
  ⟨rfl, Nat.zero_le _, fun i hi => absurd hi (Nat.not_lt_zero i), fun _ _ hi => ⟨hi, fun _ => rfl⟩⟩

end Evaluation

/-- `evaluate` yields the truth tables of the outputs. -/
theorem evaluate_eq {lib : CellLibrary} {S : Subnet} (hS : S.WellFormed) (hn : S.Narrow)
    (he : S.Evaluable lib) : ∃ fs, evaluate lib S = some fs ∧ fs.length = S.nOut ∧
      ∀ j f, fs[j]? = some f → ∀ x, S.value lib x (S.getOutIdx j) 0 = some (f.value x) :=
  (Evaluation.starts_nil S).yields (he.walkable hS hn) Evaluation.tabulates_tabulate

end UtopiaEda
