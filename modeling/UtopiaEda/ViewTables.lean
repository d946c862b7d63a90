import UtopiaEda.SubnetReplay
import UtopiaEda.SubnetTruthTables
import UtopiaEda.ViewBdds

/-!
# Truth tables of a view

`evaluateTruthTables` traverses a view and keeps a truth table for every visited cell. Tables of at
most six variables are words of 64 bits in the data of the cells. Larger ones are elements of a
vector, and the data of the cells are pointers to them: they are lost when the vector moves to a
larger memory block.
-/
namespace UtopiaEda

open List
open Option (bind_eq_bind bind_eq_some_iff bind_some getD_some isSome_iff_exists map_eq_some_iff
  map_some some.inj)
open Function (update update_self update_of_ne)
open SubnetBuilder

namespace TruthTables

variable {w : ℕ}

/-- `getVarTruthTable<TT6>`. -/
def getVarTruthTable6 (i : ℕ) : Option (BitVec 64) :=
  [0xaaaaAAAAaaaaAAAA#64, 0xccccCCCCccccCCCC#64, 0xF0F0F0F0F0F0F0F0#64, 0xFF00FF00FF00FF00#64,
    0xFFFF0000FFFF0000#64, 0xffffFFFF00000000#64][i]?

/-- `getMaskTruthTable<TT6>`. -/
def getMaskTruthTable6 (arity : ℕ) : BitVec 64 :=
  if arity = 6 then -1#64 else 1#64 <<< (1 <<< arity) - 1#64

/-- `convertTruthTable<TT6>`: the bits of the word are those of the only block of the table. -/
def convertTruthTable6 (arity : ℕ) (tt : BitVec 64) : TruthTable arity :=
  (tt &&& getMaskTruthTable6 arity).setWidth (2 ^ arity)

def getTruthTable (data : EntryID → Option (BitVec w)) (link : Link) : Option (BitVec w) :=
  (data link.idx).map (fun tt => if link.inv then ~~~ tt else tt)

def getBufTruthTable (data : EntryID → Option (BitVec w)) (cell : SubnetCell) :
    Option (BitVec w) := do
  getTruthTable data (← cell.links[0]?)

/-- `getAndTruthTable`, `getOrTruthTable` and `getXorTruthTable`: only the first link is taken from
the cell. -/
def getChainTruthTable (op : BitVec w → BitVec w → BitVec w) (builder : SubnetBuilder)
    (data : EntryID → Option (BitVec w))
    (cell : SubnetCell) (i : EntryID) : Option (BitVec w) := do
  let tt ← getTruthTable data (← cell.links[0]?)
  (range' 1 (cell.arity - 1)).foldlM (fun tt j => do
    some (op tt (← getTruthTable data (← builder.getLink i j)))) tt

def getAndTruthTable (builder : SubnetBuilder) (data : EntryID → Option (BitVec w))
    (cell : SubnetCell) (i : EntryID) :
    Option (BitVec w) := getChainTruthTable (· &&& ·) builder data cell i

def getOrTruthTable (builder : SubnetBuilder) (data : EntryID → Option (BitVec w))
    (cell : SubnetCell) (i : EntryID) :
    Option (BitVec w) := getChainTruthTable (· ||| ·) builder data cell i

def getXorTruthTable (builder : SubnetBuilder) (data : EntryID → Option (BitVec w))
    (cell : SubnetCell) (i : EntryID) :
    Option (BitVec w) := getChainTruthTable (· ^^^ ·) builder data cell i

/-- The bits that more than `threshold` of the tables have are set one after the other. -/
def majority (threshold : ℕ) (args : List (BitVec w)) : BitVec w :=
  (range w).foldl (fun tt k => if threshold < args.countP (·.getLsbD k) then
    tt ||| .twoPow w k else tt) 0#w

def getMajTruthTable (builder : SubnetBuilder) (data : EntryID → Option (BitVec w))
    (cell : SubnetCell) (i : EntryID) : Option (BitVec w) := do
  let _ ← getTruthTable data (← cell.links[0]?)
  let args ← (range cell.arity).mapM (fun j => (builder.getLink i j).bind (getTruthTable data))
  some (majority (cell.arity >>> 1) args)

/-- The table of the cell `i`; inputs have the tables of the variables. -/
def getCellTruthTable (vars : ℕ → Option (BitVec w)) (builder : SubnetBuilder)
    (data : EntryID → Option (BitVec w)) (i : EntryID) (isIn : Bool) (nIn : ℕ) :
    Option (BitVec w) := do
  let cell ← builder.getCell i
  if isIn then vars nIn
  else match cell.type with
  | .ZERO => some 0#w
  | .ONE => some (~~~ 0#w)
  | .OUT | .BUF => getBufTruthTable data cell
  | .AND => getAndTruthTable builder data cell i
  | .OR => getOrTruthTable builder data cell i
  | .XOR => getXorTruthTable builder data cell i
  | .MAJ => getMajTruthTable builder data cell i
  | _ => none

/-! ### The tables of gates -/

def tableLinks (g : Gate) : List Link := if g.type ∈ [.ZERO, .ONE] then [] else g.links

def combine (t : CellTypeID) (args : List (BitVec w)) : BitVec w :=
  match t, args with
  | .ONE, _ => ~~~ 0#w
  | .BUF, tt :: _ | .OUT, tt :: _ => tt
  | .AND, tt :: args => args.foldl (· &&& ·) tt
  | .OR, tt :: args => args.foldl (· ||| ·) tt
  | .XOR, tt :: args => args.foldl (· ^^^ ·) tt
  | .MAJ, args => majority (args.length / 2) args
  | _, _ => 0#w

end TruthTables

def Gate.Tabulable (g : Gate) : Prop :=
  match g.type with
  | .ZERO | .ONE => True
  | .BUF | .OUT => g.links.length = 1
  | .AND | .OR | .XOR | .MAJ => g.links ≠ []
  | _ => False

namespace TruthTables

variable {b : ℕ} {args : List (BitVec w)} {tt : BitVec w} {g : Gate}
  {data : EntryID → Option (BitVec w)} {builder : SubnetBuilder} {c : SubnetCell} {i : EntryID}

private theorem getLsbD_foldl {op : BitVec w → BitVec w → BitVec w} {f : Bool → Bool → Bool}
    (hop : ∀ x y : BitVec w, (op x y).getLsbD b = f (x.getLsbD b) (y.getLsbD b)) :
    (args.foldl op tt).getLsbD b = (args.map (·.getLsbD b)).foldl f (tt.getLsbD b) := by
  induction args generalizing tt with
  | nil => rfl
  | cons arg args ih =>
    rw [foldl_cons, ih, hop]
    rfl

theorem getLsbD_majority {threshold : ℕ} (hb : b < w) :
    (majority threshold args).getLsbD b = decide (threshold < args.countP (·.getLsbD b)) := by
  have hloop : ∀ n ≤ w, ((range n).foldl (fun tt k => if threshold < args.countP
      (·.getLsbD k) then tt ||| .twoPow w k
      else tt) 0#w).getLsbD b =
      (decide (b < n) && decide (threshold < args.countP (·.getLsbD b))) := by
    intro n
    induction n with
    | zero => exact fun _ => BitVec.getLsbD_zero
    | succ n ih =>
      intro hn
      have hbit : ∀ tt : BitVec w, (if threshold < args.countP (·.getLsbD n) then
          tt ||| .twoPow w n else tt).getLsbD b =
          (tt.getLsbD b || (decide (n = b) && decide (threshold < args.countP (·.getLsbD b)))) := by
        intro tt
        by_cases hnb : n = b
        · subst hnb
          split
          · rename_i hlt
            rw [BitVec.getLsbD_or, BitVec.getLsbD_twoPow, decide_eq_true hb, decide_eq_true hlt,
              Bool.true_and,
                Bool.and_true]
          · rename_i hlt
            rw [decide_eq_false hlt, Bool.and_false, Bool.or_false]
        · split
          · rw [BitVec.getLsbD_or, BitVec.getLsbD_twoPow, decide_eq_false hnb, Bool.and_false,
              Bool.false_and]
          · rw [decide_eq_false hnb, Bool.false_and, Bool.or_false]
      rw [range_succ, foldl_append, foldl_cons, foldl_nil, hbit, ih (Nat.le_of_succ_le hn)]
      have hlt : (b < n + 1) ↔ b < n ∨ n = b := by omega
      rw [decide_eq_decide.mpr hlt, Bool.decide_or, Bool.and_or_distrib_right]
  rw [majority, hloop w (Nat.le_refl w), decide_eq_true hb, Bool.true_and]

/-- The bits of the table are the values of the gate. -/
theorem getLsbD_combine (hg : g.Tabulable) (hlen : args.length = (tableLinks g).length) (hb : b < w)
    (lib : CellLibrary) (out : ℕ) :
    (combine g.type args).getLsbD b = g.type.eval lib (args.map (·.getLsbD b)) out := by
  obtain ⟨type, links⟩ := g
  have hcons : links ≠ [] → type ∉ [.ZERO, .ONE] → ∃ tt args', args = tt :: args' := by
    intro hne htype
    rw [tableLinks, if_neg htype] at hlen
    refine exists_cons_of_ne_nil (fun hnil => hne ?_)
    rw [hnil] at hlen
    exact eq_nil_of_length_eq_zero hlen.symm
  have hone : links.length = 1 → links ≠ [] := by
    rintro hlen rfl
    cases hlen
  cases type with
  | ZERO =>
    exact BitVec.getLsbD_zero
  | ONE =>
    change (~~~ 0#w).getLsbD b = true
    rw [BitVec.getLsbD_not, decide_eq_true hb, BitVec.getLsbD_zero]
    rfl
  | BUF | OUT =>
    obtain ⟨tt, args', rfl⟩ := hcons (hone hg) (by decide)
    rfl
  | AND =>
    obtain ⟨tt, args', rfl⟩ := hcons hg (by decide)
    exact (getLsbD_foldl (fun _ _ => BitVec.getLsbD_and)).trans (CellTypeID.foldl_and _ _)
  | OR =>
    obtain ⟨tt, args', rfl⟩ := hcons hg (by decide)
    exact (getLsbD_foldl (fun _ _ => BitVec.getLsbD_or)).trans (CellTypeID.foldl_or _ _)
  | XOR =>
    obtain ⟨tt, args', rfl⟩ := hcons hg (by decide)
    exact (getLsbD_foldl (fun _ _ => BitVec.getLsbD_xor)).trans (CellTypeID.foldl_xor _ _)
  | MAJ =>
    change (majority (args.length / 2) args).getLsbD b = decide _
    have hcount : (args.map (·.getLsbD b)).count true = args.countP (·.getLsbD b) := by
      rw [count, countP_map]
      apply countP_congr
      intro arg _
      simp
    rw [getLsbD_majority hb, hcount, length_map, decide_eq_decide]
    omega
  | _ => exact hg.elim

private theorem foldlM_eq_mapM {α : Type} {f : α → Option (BitVec w)}
    {op : BitVec w → BitVec w → BitVec w} : ∀ {ls : List α} {tt : BitVec w},
    ls.foldlM (fun tt a => (f a).map (op tt)) tt = (ls.mapM f).map
    (fun args => args.foldl op tt) := by
  intro ls
  induction ls with
  | nil => exact fun {_} => rfl
  | cons a ls ih =>
    intro tt
    rw [foldlM_cons, mapM_cons]
    cases f a with
    | none => rfl
    | some arg =>
      rw [map_some, bind_eq_bind, bind_some, ih]
      cases ls.mapM f <;> rfl

private theorem getChainTruthTable_eq {op : BitVec w → BitVec w → BitVec w} {l : Link}
    {ls : List Link} (hcl : c.links = l :: ls) (hlinks : ∀ j (hj : j < c.links.length),
    builder.getLink i j = some c.links[j]) : getChainTruthTable op builder data c i =
      ((l :: ls).mapM (getTruthTable data)).map
      (fun args => args.tail.foldl op (args.headD 0#w)) := by
  have hloop : ∀ tt, (range' 1 (c.arity - 1)).foldlM (fun tt j => do
      some (op tt (← getTruthTable data (← builder.getLink i j)))) tt =
        ls.foldlM (fun tt l => (getTruthTable data l).map (op tt)) tt := by
    intro tt
    apply foldlM_range' (l := ls) (by rw [SubnetCell.arity, hcl]; rfl)
    intro tt j hj
    rw [SubnetCell.arity, hcl, length_cons, Nat.add_sub_cancel] at hj
    have hj' : 1 + j < c.links.length := by
      rw [hcl, length_cons]
      omega
    have hget : c.links[1 + j] = ls[j] := by simp [hcl, Nat.add_comm 1 j]
    refine ⟨ls[j], getElem?_eq_getElem hj, ?_⟩
    rw [hlinks (1 + j) hj', hget]
    simp only [bind_eq_bind, bind_some]
    cases getTruthTable data ls[j] <;> rfl
  rw [getChainTruthTable, hcl, getElem?_cons_zero, mapM_cons]
  simp only [bind_eq_bind, bind_some]
  cases getTruthTable data l with
  | none => rfl
  | some tt =>
    rw [bind_some, bind_some]
    refine (hloop tt).trans (foldlM_eq_mapM.trans ?_)
    cases ls.mapM (getTruthTable data) <;> rfl

theorem getCellTruthTable_eq (hg : g.Tabulable) (hc : builder.getCell i = some c)
    (hct : c.type = g.type) (hcl : c.links = g.links) (hlinks : ∀ j (hj : j < c.links.length),
    builder.getLink i j = some c.links[j]) (vars : ℕ → Option (BitVec w)) (nIn : ℕ) :
    getCellTruthTable vars builder data i false nIn =
      ((tableLinks g).mapM (getTruthTable data)).map (combine g.type) := by
  obtain ⟨type, links⟩ := g
  change c.type = type at hct
  change c.links = links at hcl
  have hsplit : links ≠ [] → ∃ l ls, links = l :: ls ∧ c.links = l :: ls := by
    intro hne
    obtain ⟨l, ls, hl⟩ := exists_cons_of_ne_nil hne
    exact ⟨l, ls, hl, hcl.trans hl⟩
  have hchain : ∀ {op}, links ≠ [] → ∀ {t}, (∀ args : List (BitVec w), args ≠ [] →
      args.tail.foldl op (args.headD 0#w) = combine t args) →
      getChainTruthTable op builder data c i =
      (links.mapM (getTruthTable data)).map (combine t) := by
    intro op hne t ht
    obtain ⟨l, ls, rfl, hl⟩ := hsplit hne
    rw [getChainTruthTable_eq hl hlinks]
    cases hargs : (l :: ls).mapM (getTruthTable data) with
    | none => rfl
    | some args =>
      have hne' : args ≠ [] := by
        rintro rfl
        exact absurd (Netlist.length_of_mapM hargs) (by simp)
      rw [map_some, map_some, ht args hne']
  have hbuf : links.length = 1 → ∀ {t}, (∀ tt : BitVec w, combine t [tt] = tt) →
      getBufTruthTable data c = (links.mapM (getTruthTable data)).map (combine t) := by
    intro hlen t ht
    obtain ⟨l, rfl⟩ := length_eq_one_iff.mp hlen
    rw [getBufTruthTable, hcl, getElem?_cons_zero, mapM_cons, mapM_nil]
    simp only [bind_eq_bind, bind_some]
    cases getTruthTable data l with
    | none => rfl
    | some tt => exact congrArg some (ht tt).symm
  have hcons : ∀ args : List (BitVec w), args ≠ [] → ∃ tt args', args = tt :: args' :=
    fun _ => exists_cons_of_ne_nil
  simp only [getCellTruthTable, hc, hct, bind_eq_bind, bind_some, Bool.false_eq_true, if_false]
  cases type with
  | ZERO | ONE => rfl
  | BUF | OUT => exact hbuf hg (fun _ => rfl)
  | AND | OR | XOR =>
    refine hchain hg (fun args hne => ?_)
    obtain ⟨tt, args', rfl⟩ := hcons args hne
    rfl
  | MAJ =>
    obtain ⟨l, ls, rfl, hl⟩ := hsplit hg
    have hargs : (range c.arity).mapM
        (fun j => (builder.getLink i j).bind (getTruthTable data)) =
        (l :: ls).mapM (getTruthTable data) := by
      rw [SubnetCell.arity, Netlist.mapM_range_bind _ hlinks, hl]
    change getMajTruthTable builder data c i =
      ((l :: ls).mapM (getTruthTable data)).map (combine .MAJ)
    rw [getMajTruthTable, hargs, hl, getElem?_cons_zero, mapM_cons]
    simp only [bind_eq_bind, bind_some]
    cases getTruthTable data l with
    | none => rfl
    | some tt =>
      cases hls : ls.mapM (getTruthTable data) with
      | none => rfl
      | some args =>
        have hlen : c.arity = (tt :: args).length := by
          rw [SubnetCell.arity, hl, length_cons, length_cons, Netlist.length_of_mapM hls]
        rw [hlen, Nat.shiftRight_one]
        rfl
  | _ => exact hg.elim

end TruthTables

open TruthTables

/-- Where the tables of the cells are kept: `getTruthTable` and `setTruthTable`. -/
structure TableStorage (w : ℕ) (σ : Type) where
  get : σ → EntryID → Option (BitVec w)
  set : EntryID → BitVec w → σ → σ

def TableStorage.words : TableStorage 64 (EntryID → Option (BitVec 64)) where
  get data := data
  set i tt data := update data i (some tt)

/-- A vector of tables with the pointers to its elements. A pointer is a memory block and an index;
only the pointers to the last memory block can be used. -/
structure TableVector (n : ℕ) where
  tables : List (TruthTable n) := []
  capacity : ℕ
  block : ℕ := 0
  dataPtr : EntryID → Option (ℕ × ℕ) := fun _ => none

/-- `push_back`, then the pointer to the last element is stored. A full vector moves; `grow` is its
next capacity. -/
def TableVector.push {n : ℕ} (grow : ℕ → ℕ) (i : EntryID) (tt : TruthTable n)
    (vec : TableVector n) : TableVector n :=
  let full := vec.tables.length = vec.capacity
  let block := if full then vec.block + 1 else vec.block
  { tables := vec.tables ++ [tt], capacity := if full then grow vec.capacity else vec.capacity,
    block := block,
    dataPtr := update vec.dataPtr i (some (block, vec.tables.length)) }

def TableStorage.vector (n : ℕ) (grow : ℕ → ℕ) : TableStorage (2 ^ n) (TableVector n) where
  get vec i := (vec.dataPtr i).bind (fun p => if p.1 = vec.block then vec.tables[p.2]? else none)
  set := TableVector.push grow

namespace SubnetView

variable {w : ℕ} {σ : Type}

/-- The visitor of `evaluateTruthTables`; the number `nIn` counts the visited cells. -/
def visitTable (storage : TableStorage w σ) (vars : ℕ → Option (BitVec w)) (builder : SubnetBuilder)
    (isIn _isOut : Bool) (i : EntryID) (st : σ × ℕ) : Option (σ × ℕ) := do
  let tt ← getCellTruthTable vars builder (storage.get st.1) i isIn st.2
  some (storage.set i tt st.1, st.2 + 1)

def runTables (v : SubnetView) (storage : TableStorage w σ) (vars : ℕ → Option (BitVec w))
    (init : σ) : Option (List (BitVec w)) := do
  let (_, _, st) ← v.walker.run (fun isIn isOut i (st : Option (σ × ℕ)) =>
    (true, st.bind (visitTable storage vars v.parent isIn isOut i))) .FORWARD false (some (init, 0))
  v.outputs.mapM (storage.get (← st).1)

def evaluateWords (v : SubnetView) : Option (List (TruthTable v.inputs.length)) :=
  (v.runTables .words getVarTruthTable6 (fun _ => none)).map
    (map (convertTruthTable6 v.inputs.length))

def evaluateVector (grow : ℕ → ℕ) (v : SubnetView) : Option (List (TruthTable v.inputs.length)) :=
  v.runTables (.vector v.inputs.length grow) (fun i => some (TruthTable.create_nth_var i))
    { capacity := v.parent.nCell }

def evaluateTruthTables (grow : ℕ → ℕ) (v : SubnetView) :
    Option (List (TruthTable v.inputs.length)) :=
  if v.inputs.length ≤ 6 then v.evaluateWords else v.evaluateVector grow

/-! ### The cells with usable tables

Whether a table can be used depends on the visited cells only, not on the tables. -/

/-- The links that are read for the table of a cell lead there. -/
def reads (v : SubnetView) (i : EntryID) : List EntryID :=
  (((v.parent.netlist i).map tableLinks).getD []).map Link.idx

def Kept {κ : Type} (v : SubnetView) (next : EntryID → κ → κ) (usable : κ → List EntryID) :
    List ViewEntry → κ → Prop
  | [], k => ∀ o ∈ v.outputs, o ∈ usable k
  | e :: es, k => (e.isIn = false → ∀ j ∈ v.reads e.entryID, j ∈ usable k) ∧
      v.Kept next usable es (next e.entryID k)

structure TableRoom where
  capacity : ℕ
  count : ℕ := 0
  usable : List EntryID := []

def TableRoom.push (grow : ℕ → ℕ) (i : EntryID) (room : TableRoom) : TableRoom :=
  if room.count = room.capacity then ⟨grow room.capacity, room.count + 1, [i]⟩
  else ⟨room.capacity, room.count + 1, i :: room.usable⟩

/-- No table is used after the vector moved away from it. -/
def Unmoved (grow : ℕ → ℕ) (v : SubnetView) : Prop :=
  ∃ es, v.walker.collect = some es ∧
    v.Kept (TableRoom.push grow) TableRoom.usable es { capacity := v.parent.nCell }

end SubnetView

structure TableStorage.Tracks {w : ℕ} {σ κ : Type} (storage : TableStorage w σ)
    (next : EntryID → κ → κ)
    (usable : κ → List EntryID)
    (R : σ → κ → Prop) : Prop where
  isSome : ∀ st k i, R st k → ((storage.get st i).isSome ↔ i ∈ usable k)
  next : ∀ st k i tt, R st k → R (storage.set i tt st) (next i k)
  self : ∀ st i tt, storage.get (storage.set i tt st) i = some tt
  other : ∀ st k i tt j t, R st k → j ≠ i → storage.get (storage.set i tt st) j = some t →
    storage.get st j = some t

theorem TableStorage.words_tracks : TableStorage.words.Tracks (fun i V => i :: V) id
    (fun data (V : List EntryID) => ∀ i, (data i).isSome ↔ i ∈ V) := by
  refine ⟨fun st k i h => h i, fun st V i tt h j => ?_, fun st i tt => update_self ..,
      fun st k i tt j t _ hne ht => ?_⟩
  · change (update st i (some tt) j).isSome ↔ j ∈ i :: V
    by_cases hji : j = i
    · rw [hji, update_self]
      exact iff_of_true rfl mem_cons_self
    · rw [update_of_ne hji, h j, mem_cons, or_iff_right hji]
  · change update st i (some tt) j = some t at ht
    rwa [update_of_ne hne] at ht

/-- The pointers lead to elements of this memory block or to earlier blocks. -/
structure TableVector.Fits {n : ℕ} (vec : TableVector n) (room : SubnetView.TableRoom) : Prop where
  capacity : vec.capacity = room.capacity
  count : vec.tables.length = room.count
  block : ∀ i p, vec.dataPtr i = some p → p.1 ≤ vec.block
  index : ∀ i p, vec.dataPtr i = some p → p.1 = vec.block → p.2 < vec.tables.length
  usable : ∀ i, (∃ p, vec.dataPtr i = some p ∧ p.1 = vec.block) ↔ i ∈ room.usable

namespace TableVector

variable {n : ℕ} {vec : TableVector n} {room : SubnetView.TableRoom} {grow : ℕ → ℕ} {i j : EntryID}
  {tt : TruthTable n}

/-- The pointer of the cell leads to the last element, the other ones stay. -/
theorem dataPtr_push {p : ℕ × ℕ} : (vec.push grow i tt).dataPtr j = some p ↔
    (j = i ∧ p = ((vec.push grow i tt).block, vec.tables.length)) ∨
    (j ≠ i ∧ vec.dataPtr j = some p) := by
  change update vec.dataPtr i (some ((vec.push grow i tt).block, vec.tables.length)) j = some p ↔ _
  by_cases hji : j = i
  · rw [hji, update_self, Option.some.injEq]
    simp [eq_comm]
  · rw [update_of_ne hji]
    simp [hji]

theorem block_push : (vec.push grow i tt).block = if vec.tables.length = vec.capacity then
    vec.block + 1 else vec.block := rfl

theorem length_push : (vec.push grow i tt).tables.length = vec.tables.length + 1 := by
  change (vec.tables ++ [tt]).length = _
  rw [length_append, length_singleton]

theorem block_le_push : vec.block ≤ (vec.push grow i tt).block := by
  rw [block_push]
  split
  · exact Nat.le_succ _
  · exact Nat.le_refl _

theorem Fits.push (h : vec.Fits room) : (vec.push grow i tt).Fits (room.push grow i) := by
  have hfull : room.count = room.capacity ↔ vec.tables.length = vec.capacity := by
    rw [h.count, h.capacity]
  refine ⟨?_, ?_, fun j p hp => ?_, fun j p hp hblock => ?_, fun j => ?_⟩
  · change (if vec.tables.length = vec.capacity then grow vec.capacity else vec.capacity) = _
    rw [SubnetView.TableRoom.push]
    simp only [hfull]
    split
    · exact congrArg grow h.capacity
    · exact h.capacity
  · rw [length_push, h.count, SubnetView.TableRoom.push]
    split <;> rfl
  · rcases dataPtr_push.mp hp with ⟨-, rfl⟩ | ⟨-, hp⟩
    · exact Nat.le_refl _
    · exact Nat.le_trans (h.block j p hp) block_le_push
  · rw [length_push]
    rcases dataPtr_push.mp hp with ⟨-, rfl⟩ | ⟨-, hp⟩
    · exact Nat.lt_succ_self _
    · have hsame : p.1 = vec.block := Nat.le_antisymm (h.block j p hp) (hblock ▸ block_le_push)
      exact Nat.lt_succ_of_lt (h.index j p hp hsame)
  · rw [SubnetView.TableRoom.push]
    by_cases hji : j = i
    · have hptr : ∃ p, (vec.push grow i tt).dataPtr j = some p ∧ p.1 = (vec.push grow i tt).block :=
        ⟨_, dataPtr_push.mpr (.inl ⟨hji, rfl⟩), rfl⟩
      refine iff_of_true hptr ?_
      split
      · exact mem_singleton.mpr hji
      · exact mem_cons.mpr (.inl hji)
    · have hptr : (∃ p, (vec.push grow i tt).dataPtr j = some p ∧
          p.1 = (vec.push grow i tt).block) ↔ ∃ p, vec.dataPtr j = some p ∧
          p.1 = (vec.push grow i tt).block := by
        simp only [dataPtr_push, hji, false_and, false_or, not_false_eq_true, true_and, ne_eq]
      rw [hptr]
      split
      · rename_i hroom
        rw [block_push, if_pos (hfull.mp hroom), mem_singleton]
        refine iff_of_false (fun ⟨p, hp, hblock⟩ => ?_) hji
        exact Nat.not_succ_le_self vec.block (Nat.le_trans (Nat.le_of_eq hblock.symm)
          (h.block j p hp))
      · rename_i hroom
        rw [block_push, if_neg (fun hcap => hroom (hfull.mpr hcap)), h.usable j, mem_cons,
          or_iff_right hji]

end TableVector

theorem TableStorage.vector_tracks (n : ℕ) (grow : ℕ → ℕ) : (TableStorage.vector n grow).Tracks
    (SubnetView.TableRoom.push grow) SubnetView.TableRoom.usable TableVector.Fits := by
  refine ⟨fun vec room i h => ?_, fun vec room i tt h => h.push, fun vec i tt => ?_,
    fun vec room i tt j t h hne ht => ?_⟩
  · rw [← h.usable i]
    change ((vec.dataPtr i).bind _).isSome ↔ _
    cases hp : vec.dataPtr i with
    | none => simp
    | some p =>
      by_cases hblock : p.1 = vec.block
      · simp [hblock, h.index i p hp hblock]
      · simp [hblock]
  · have hptr : (vec.push grow i tt).dataPtr i =
        some ((vec.push grow i tt).block, vec.tables.length) :=
      TableVector.dataPtr_push.mpr (.inl ⟨rfl, rfl⟩)
    change ((vec.push grow i tt).dataPtr i).bind _ = some tt
    rw [hptr, bind_some]
    exact (if_pos rfl).trans getElem?_concat_length
  · change ((vec.push grow i tt).dataPtr j).bind _ = some t at ht
    obtain ⟨p, hp, ht⟩ := bind_eq_some_iff.mp ht
    obtain ⟨hblock, ht⟩ := Option.ite_none_right_eq_some.mp ht
    have hold := (TableVector.dataPtr_push.mp hp).resolve_left (fun hself => hne hself.1)
    have hsame : p.1 = vec.block :=
      Nat.le_antisymm (h.block j p hold.2) (hblock ▸ TableVector.block_le_push)
    change (vec.tables ++ [tt])[p.2]? = some t at ht
    rw [getElem?_append_left (h.index j p hold.2 hsame)] at ht
    change (vec.dataPtr j).bind _ = some t
    rw [hold.2, bind_some, if_pos hsame, ht]

namespace SubnetView

variable {v : SubnetView} {i o : EntryID} {ps : List ViewEntry} {κ : Type}
  {storage : TableStorage w σ}
    {next : EntryID → κ → κ}
  {usable : κ → List EntryID} {R : σ → κ → Prop} {vars : ℕ → Option (BitVec w)} {st : σ} {k : κ}
    {c : ℕ} {g : Gate}

/-- The last position of an input among the inputs `is`. -/
def position (is : List EntryID) (i : EntryID) : ℕ := is.length - 1 - is.reverse.idxOf i

def IsTable (v : SubnetView) (tt : BitVec w) (i : EntryID) : Prop :=
  ∀ b < w, ∀ x τ, v.Values x τ → (∀ j ∈ v.inputs, x j = b.testBit (position v.inputs j)) →
    ∀ out, tt.getLsbD b = τ i out

def TablesOk (v : SubnetView) (storage : TableStorage w σ) (st : σ) : Prop :=
  ∀ i tt, storage.get st i = some tt → v.IsTable tt i

def Variables (w n : ℕ) (vars : ℕ → Option (BitVec w)) : Prop :=
  ∀ k < n, ∃ tt, vars k = some tt ∧ ∀ b < w, tt.getLsbD b = b.testBit k

theorem position_append_self (is : List EntryID) (i : EntryID) :
    position (is ++ [i]) i = is.length := by
  rw [position, reverse_append, reverse_singleton, singleton_append, idxOf_cons_self,
      length_append]
  rfl

theorem position_append_of_ne {is : List EntryID} {i j : EntryID} (h : j ≠ i) : position
    (is ++ [i]) j = position is j := by
  rw [position, position, reverse_append, reverse_singleton, singleton_append,
    idxOf_cons_ne _ h.symm, length_append, length_singleton]
  omega

theorem getElem_position {is : List EntryID} (h : i ∈ is) : is[position is i]? = some i := by
  have hlt : is.reverse.idxOf i < is.reverse.length :=
    idxOf_lt_length_of_mem (mem_reverse.mpr h)
  have hget : is.reverse[is.reverse.idxOf i]? = some i := by
    rw [getElem?_eq_getElem hlt, getElem_idxOf]
  rwa [getElem?_reverse (by rwa [length_reverse] at hlt)] at hget

theorem exists_inputs (h : storage.Tracks next usable R) (hvars : Variables w v.inputs.length vars)
    (hlive : ∀ i ∈ v.inputs, (v.parent.netlist i).isSome) : ∀ {B A : List EntryID} {st : σ} {k : κ},
    v.inputs = A ++ B → R st k →
    (∀ j tt, storage.get st j = some tt → j ∈ A ∧ vars (position A j) = some tt) →
    ∃ st', (B.map (fun i => (⟨true, decide (i ∈ v.outputs), i⟩ : ViewEntry))).foldlM
        (fun st e => visitTable storage vars v.parent e.isIn e.isOut e.entryID st) (st, A.length) =
        some (st', v.inputs.length) ∧
      R st' (B.foldl (fun k i => next i k) k) ∧
      ∀ j tt, storage.get st' j = some tt → j ∈ v.inputs ∧ vars (position v.inputs j) =
        some tt := by
  intro B
  induction B with
  | nil =>
    intro A st k hA hR hst
    rw [append_nil] at hA
    exact ⟨st, by rw [hA]; rfl, hR, hA ▸ hst⟩
  | cons i B ih =>
    intro A st k hA hR hst
    obtain ⟨g, hg⟩ := isSome_iff_exists.mp (hlive i (by rw [hA]; simp))
    obtain ⟨c, hc, -⟩ := liveCell_of_netlist hg
    obtain ⟨tt, htt, -⟩ := hvars A.length (by rw [hA]; simp)
    have hvisit : visitTable storage vars v.parent true (decide (i ∈ v.outputs)) i (st, A.length) =
        some (storage.set i tt st, A.length + 1) := by
      simp only [visitTable, getCellTruthTable, getCell_of_live hc, htt, bind_eq_bind,
        bind_some, if_true]
    have hnew : ∀ j t, storage.get (storage.set i tt st) j = some t →
        j ∈ A ++ [i] ∧ vars (position (A ++ [i]) j) = some t := by
      intro j t ht
      by_cases hji : j = i
      · rw [hji, h.self] at ht
        rw [hji, position_append_self, ← ht]
        exact ⟨mem_append_right A (mem_singleton_self i), htt⟩
      · obtain ⟨hmem, hvar⟩ := hst j t (h.other st k i tt j t hR hji ht)
        rw [position_append_of_ne hji]
        exact ⟨mem_append_left [i] hmem, hvar⟩
    obtain ⟨st', hrun, hR', hst'⟩ := ih (A := A ++ [i]) (by rw [hA, append_assoc, singleton_append])
      (h.next st k i tt hR) hnew
    refine ⟨st', ?_, hR', hst'⟩
    rw [length_append, length_singleton] at hrun
    rw [map_cons, foldlM_cons, hvisit]
    exact hrun

theorem tablesOk_of_inputs (hvars : Variables w v.inputs.length vars)
    (h : ∀ j tt, storage.get st j = some tt → j ∈ v.inputs ∧ vars (position v.inputs j) = some tt) :
    v.TablesOk storage st := by
  intro i tt htt b hb x τ ⟨lib, hτ⟩ hx out
  obtain ⟨hi, hvar⟩ := h i tt htt
  obtain ⟨tt', hvar', hbits⟩ := hvars _ (List.getElem?_eq_some_iff.mp (getElem_position hi)).1
  obtain rfl := some.inj (hvar.symm.trans hvar')
  rw [hbits b hb, ← hx i hi, hτ i _ (if_pos hi)]
  rfl

private theorem isSome_of_mapM {α : Type} {f : α → Option (BitVec w)} :
    ∀ {l : List α}, (l.mapM f).isSome → ∀ a ∈ l, (f a).isSome := by
  intro l
  induction l with
  | nil => exact fun _ a ha => absurd ha not_mem_nil
  | cons b l ih =>
    intro h
    obtain ⟨bs, hbs⟩ := isSome_iff_exists.mp h
    rw [mapM_cons] at hbs
    obtain ⟨c, hb, hbs⟩ := bind_eq_some_iff.mp hbs
    obtain ⟨cs, hcs, -⟩ := bind_eq_some_iff.mp hbs
    exact forall_mem_cons.mpr ⟨by rw [hb]; rfl, ih (by rw [hcs]; rfl)⟩

private theorem isSome_mapM_iff {α : Type} {f : α → Option (BitVec w)} {l : List α} :
    (l.mapM f).isSome ↔ ∀ a ∈ l, (f a).isSome := by
  refine ⟨isSome_of_mapM, fun h => ?_⟩
  have hall : ∀ a ∈ l, f a = some ((f a).getD 0#w) := by
    intro a ha
    obtain ⟨b, hb⟩ := isSome_iff_exists.mp (h a ha)
    rw [hb, getD_some]
  rw [Netlist.mapM_eq_some hall]
  rfl

private theorem getLsbD_args (hok : v.TablesOk storage st) {ls : List Link} {args : List (BitVec w)}
    (hargs : ls.mapM (getTruthTable (storage.get st)) = some args) {b : ℕ} (hb : b < w)
    {x : ℕ → Bool} {τ : EntryID → ℕ → Bool} (hτ : v.Values x τ)
    (hx : ∀ j ∈ v.inputs, x j = b.testBit (position v.inputs j)) :
    args.map (·.getLsbD b) = ls.map (Link.value τ) := by
  induction ls generalizing args with
  | nil =>
    obtain rfl := some.inj hargs
    rfl
  | cons l ls ih =>
    rw [mapM_cons] at hargs
    obtain ⟨arg, harg, hargs⟩ := bind_eq_some_iff.mp hargs
    obtain ⟨rest, hrest, hargs⟩ := bind_eq_some_iff.mp hargs
    obtain rfl := some.inj hargs
    obtain ⟨tt, htt, rfl⟩ := map_eq_some_iff.mp harg
    have hbit : tt.getLsbD b = τ l.idx l.out := hok l.idx tt htt b hb x τ hτ hx l.out
    rw [map_cons, map_cons, ih hrest, Link.value]
    cases l.inv with
    | false => rw [if_neg Bool.false_ne_true, hbit, Bool.xor_false]
    | true => rw [if_pos rfl, BitVec.getLsbD_not, decide_eq_true hb, Bool.true_and, hbit,
        Bool.xor_true]

theorem visitTable_gate (h : storage.Tracks next usable R) (hr : v.Readable) (hR : R st k)
    (hok : v.TablesOk storage st) (habove : v.Above i) (hg : v.parent.netlist i = some g)
    (hgate : g.Tabulable) (vars : ℕ → Option (BitVec w)) (c : ℕ) (isOut : Bool) :
    (∀ st', visitTable storage vars v.parent false isOut i (st, c) = some st' →
    ∀ j ∈ v.reads i, j ∈ usable k) ∧
      ((∀ j ∈ v.reads i, j ∈ usable k) → ∃ tt, v.IsTable tt i ∧
        visitTable storage vars v.parent false isOut i (st, c) = some (storage.set i tt st,
        c + 1)) := by
  obtain ⟨cell, hcell, hct, hcl⟩ := liveCell_of_netlist hg
  have hlinks := (hr i cell habove hcell).getLink
  have hvisit : visitTable storage vars v.parent false isOut i (st, c) =
      (((tableLinks g).mapM (getTruthTable (storage.get st))).map (combine g.type)).map
        (fun tt => (storage.set i tt st, c + 1)) := by
    rw [visitTable, getCellTruthTable_eq hgate (getCell_of_live hcell) hct hcl hlinks]
    cases ((tableLinks g).mapM (getTruthTable (storage.get st))).map (combine g.type) <;> rfl
  have hreads : (∀ j ∈ v.reads i, j ∈ usable k) ↔
      ((tableLinks g).mapM (getTruthTable (storage.get st))).isSome := by
    rw [isSome_mapM_iff, reads, hg, map_some, getD_some, forall_mem_map]
    simp only [getTruthTable, Option.isSome_map, h.isSome st k _ hR]
  constructor
  · intro st' hst'
    rw [hvisit] at hst'
    obtain ⟨tt, htt, -⟩ := map_eq_some_iff.mp hst'
    obtain ⟨args, hargs, -⟩ := map_eq_some_iff.mp htt
    rw [hreads, hargs]
    rfl
  · intro hall
    obtain ⟨args, hargs⟩ := isSome_iff_exists.mp (hreads.mp hall)
    refine ⟨combine g.type args, fun b hb x τ hτ hx out => ?_, by rw [hvisit, hargs]; rfl⟩
    obtain ⟨lib, hsolves⟩ := id hτ
    have hwin : v.window i = some g := by rw [window, if_neg habove.not_mem, hg]
    have hne : g.type ≠ .IN := by
      intro ht
      rw [Gate.Tabulable, ht] at hgate
      exact hgate
    rw [getLsbD_combine hgate (Netlist.length_of_mapM hargs) hb lib out,
      getLsbD_args hok hargs hb hτ hx,
        hsolves i g hwin,
      Netlist.gateValue, if_neg hne, tableLinks]
    split
    · rename_i ht
      obtain ht | ht := by simpa using ht
      all_goals
        rw [ht]
        rfl
    · rfl

private theorem forall₂_of_mapM {α β : Type} {f : α → Option β} :
    ∀ {l : List α} {l' : List β}, l.mapM f = some l' →
    List.Forall₂ (fun b a => f a = some b) l' l := by
  intro l
  induction l with
  | nil =>
    intro l' h
    obtain rfl := some.inj h
    exact .nil
  | cons a l ih =>
    intro l' h
    rw [mapM_cons] at h
    obtain ⟨b, hb, h⟩ := bind_eq_some_iff.mp h
    obtain ⟨bs, hbs, h⟩ := bind_eq_some_iff.mp h
    obtain rfl := some.inj h
    exact .cons hb (ih hbs)

theorem gates_iff (h : storage.Tracks next usable R) (hr : v.Readable) :
    ∀ {ps : List ViewEntry} {st : σ} {c : ℕ} {k : κ}, R st k → v.TablesOk storage st →
    (∀ e ∈ ps, e.isIn = false ∧ v.Above e.entryID ∧
      ∃ g, v.parent.netlist e.entryID = some g ∧ g.Tabulable) →
      ∀ (result : Option (List (BitVec w))),
    result = (ps.foldlM (fun st e => visitTable storage vars v.parent e.isIn e.isOut e.entryID st)
    (st, c)).bind
      (fun st => v.outputs.mapM (storage.get st.1)) →
    (result.isSome ↔ v.Kept next usable ps k) ∧ ∀ tts, result = some tts →
    List.Forall₂ v.IsTable tts v.outputs := by
  intro ps
  induction ps with
  | nil =>
    rintro st c k hR hok - _ rfl
    change ((v.outputs.mapM (storage.get st)).isSome ↔ _) ∧ _
    refine ⟨?_, fun tts htts => ?_⟩
    · rw [isSome_mapM_iff]
      simp only [h.isSome st k _ hR]
      rfl
    · refine (forall₂_of_mapM htts).imp (fun tt o htt => hok o tt htt)
  | cons e ps ih =>
    rintro st c k hR hok hps _ rfl
    obtain ⟨hin, habove, g, hg, hgate⟩ := hps e mem_cons_self
    obtain ⟨hneeds, hgives⟩ := visitTable_gate h hr hR hok habove hg hgate vars c e.isOut
    rw [foldlM_cons, hin, Kept]
    by_cases hall : ∀ j ∈ v.reads e.entryID, j ∈ usable k
    · obtain ⟨tt, htt, hvisit⟩ := hgives hall
      have hok' : v.TablesOk storage (storage.set e.entryID tt st) := by
        intro j t ht
        by_cases hji : j = e.entryID
        · rw [hji, h.self] at ht
          rw [hji, ← some.inj ht]
          exact htt
        · exact hok j t (h.other st k e.entryID tt j t hR hji ht)
      obtain ⟨hiff, hright⟩ := ih (c := c + 1) (h.next st k e.entryID tt hR) hok'
        (fun e' he' => hps e' (mem_cons_of_mem e he')) _ rfl
      rw [hvisit, bind_eq_bind, bind_some]
      exact ⟨hiff.trans ⟨fun hkept => ⟨fun _ => hall, hkept⟩, fun hkept => hkept.2⟩, hright⟩
    · have hvisit : visitTable storage vars v.parent false e.isOut e.entryID (st, c) = none :=
        Option.eq_none_iff_forall_ne_some.mpr (fun st' hst' => hall (hneeds st' hst'))
      rw [hvisit]
      exact ⟨iff_of_false (fun hsome => by cases hsome) (fun hkept => hall (hkept.1 hin)),
        fun tts htts => by cases htts⟩

private theorem kept_inputs {is : List EntryID} : ∀ {k : κ}, v.Kept next usable
    (is.map (fun i => (⟨true, decide (i ∈ v.outputs), i⟩ : ViewEntry)) ++ ps) k ↔
      v.Kept next usable ps (is.foldl (fun k i => next i k) k) := by
  induction is with
  | nil => exact fun {_} => Iff.rfl
  | cons i is ih =>
    intro k
    rw [map_cons, cons_append, Kept, foldl_cons, ← ih]
    exact ⟨fun hkept => hkept.2, fun hkept => ⟨(fun hin => by cases hin), hkept⟩⟩

theorem runTables_eq {es : List ViewEntry}
    (hrun : ∀ {τ : Type} (f : Visitor τ) (st : τ), v.walker.iterate (some f) none st =
    some (!(calls (some f) es (false, st)).1, (calls (some f) es (false, st)).2)) (init : σ) :
    v.runTables storage vars init =
    (es.foldlM (fun st e => visitTable storage vars v.parent e.isIn e.isOut e.entryID st)
      (init, 0)).bind (fun st => v.outputs.mapM (storage.get st.1)) := by
  rw [runTables, SubnetViewWalker.run, SubnetViewWalker.runForward_fresh, hrun, calls_bind]
  simp only [bind_eq_bind, bind_some]

theorem collect_eq {es : List ViewEntry}
    (hrun : ∀ {τ : Type} (f : Visitor τ) (st : τ), v.walker.iterate (some f) none st =
    some (!(calls (some f) es (false, st)).1, (calls (some f) es (false, st)).2)) :
    v.walker.collect = some es := by
  rw [SubnetViewWalker.collect, hrun, SubnetViewWalker.calls_record]
  rfl

/-- In the data of the cells the tables of all visited cells can be used. -/
theorem exists_kept {P : Gate → Prop} (hcov : v.Covered P) (hr : v.Readable) :
    ∃ es, v.walker.collect = some es ∧ v.Kept (fun i V => i :: V) id es [] := by
  obtain ⟨ps, hps, hrun⟩ := exists_schedule hcov hr
  refine ⟨v.inputEntries ++ ps, collect_eq hrun, ?_⟩
  have hkept : ∀ {B A : List ViewEntry} {V : List EntryID}, ps = A ++ B →
      (∀ i ∈ v.inputs ++ A.map ViewEntry.entryID, i ∈ V) →
      v.Kept (fun i V => i :: V) id B V := by
    intro B
    induction B with
    | nil =>
      intro A V hA hV o ho
      rw [append_nil] at hA
      obtain ⟨e, he, rfl⟩ := mem_map.mp (hps.outputs o ho)
      have hmem := mem_map_of_mem (f := ViewEntry.entryID) (mem_filter.mp he).1
      rw [map_append, inputEntries_ids, hA] at hmem
      exact hV _ hmem
    | cons e B ih =>
      intro A V hA hV
      obtain ⟨-, -, g, hg, -, hvisited⟩ := hps.gates A e B hA
      refine ⟨fun _ j hj => ?_, ih (A := A ++ [e]) (by rw [hA, append_assoc, singleton_append])
          (fun i hi => ?_)⟩
      · rw [reads, hg, map_some, getD_some] at hj
        obtain ⟨l, hl, rfl⟩ := mem_map.mp hj
        rw [tableLinks] at hl
        split at hl
        · cases hl
        · exact hV _ (hvisited l hl)
      · rw [map_append, ← append_assoc, mem_append] at hi
        rcases hi with hi | hi
        · exact mem_cons_of_mem _ (hV i hi)
        · exact mem_cons.mpr (.inl (mem_singleton.mp hi))
  rw [inputEntries, kept_inputs]
  refine hkept (A := []) rfl (fun i hi => ?_)
  rw [map_nil, append_nil] at hi
  have hfold : ∀ (is V : List EntryID), i ∈ is ∨ i ∈ V → i ∈ is.foldl (fun k i => i :: k) V := by
    intro is
    induction is with
    | nil => exact fun V hV => hV.resolve_left not_mem_nil
    | cons j is ih =>
      intro V hV
      apply ih
      rcases hV with hV | hV
      · rcases mem_cons.mp hV with rfl | hV
        · exact .inr mem_cons_self
        · exact .inl hV
      · exact .inr (mem_cons_of_mem j hV)
  exact hfold v.inputs [] (.inl hi)

theorem runTables_iff (h : storage.Tracks next usable R) (hcov : v.Covered Gate.Tabulable)
    (hr : v.Readable) {init : σ} {k : κ} (hR : R init k) (hempty : ∀ i, storage.get init i = none)
    (hvars : Variables w v.inputs.length vars) : ((v.runTables storage vars init).isSome ↔
    ∃ es, v.walker.collect = some es ∧ v.Kept next usable es k) ∧
      ∀ tts, v.runTables storage vars init = some tts → List.Forall₂ v.IsTable tts v.outputs := by
  obtain ⟨ps, hps, hrun⟩ := exists_schedule hcov hr
  obtain ⟨st, hinputs, hRst, hst⟩ :=
    exists_inputs h hvars hcov.inputs (A := []) (B := v.inputs) rfl hR
    (fun j tt htt => by rw [hempty j] at htt; cases htt)
  have hgates : ∀ e ∈ ps, e.isIn = false ∧ v.Above e.entryID ∧ ∃ g, v.parent.netlist e.entryID =
      some g ∧ g.Tabulable := by
    intro e he
    obtain ⟨A, B, hsplit⟩ := append_of_mem he
    obtain ⟨hin, habove, g, hg, hgate, -⟩ := hps.gates A e B hsplit
    exact ⟨hin, habove, g, hg, hgate⟩
  have hresult : v.runTables storage vars init = (ps.foldlM (fun st e =>
      visitTable storage vars v.parent e.isIn e.isOut e.entryID st) (st, v.inputs.length)).bind
        (fun st => v.outputs.mapM (storage.get st.1)) := by
    rw [runTables_eq hrun, foldlM_append]
    change (Option.bind (foldlM _ (init, ([] : List EntryID).length) _) _).bind _ = _
    rw [inputEntries, hinputs, bind_some]
  obtain ⟨hiff, hright⟩ := gates_iff h hr hRst (tablesOk_of_inputs hvars hst) hgates _ hresult
  refine ⟨hiff.trans ?_, hright⟩
  rw [collect_eq hrun]
  simp only [Option.some.injEq, exists_eq_left', inputEntries, kept_inputs]

theorem variables_words {n : ℕ} (hn : n ≤ 6) : Variables 64 n getVarTruthTable6 := by
  intro k hk
  obtain rfl | rfl | rfl | rfl | rfl | rfl : k = 0 ∨ k = 1 ∨ k = 2 ∨ k = 3 ∨ k = 4 ∨ k = 5 := by
    omega
  all_goals exact ⟨_, rfl, by decide⟩

theorem variables_vector (n : ℕ) :
    Variables (2 ^ n) n (fun k => some (TruthTable.create_nth_var k : TruthTable n)) := by
  intro k hk
  refine ⟨_, rfl, fun b hb => ?_⟩
  have hvalue : (TruthTable.create_nth_var k : TruthTable n).value b.testBit = b.testBit k :=
      TruthTable.value_create_nth_var hk
  rwa [TruthTable.value, ProductSums.point_testBit hb] at hvalue

private theorem getLsbD_mask : ∀ n ≤ 6, ∀ b < 2 ^ n, (getMaskTruthTable6 n).getLsbD b = true := by
  decide

theorem getLsbD_convert {n b : ℕ} (hn : n ≤ 6) (hb : b < 2 ^ n) (tt : BitVec 64) :
    (convertTruthTable6 n tt).getLsbD b = tt.getLsbD b := by
  change ((tt &&& getMaskTruthTable6 n).setWidth (2 ^ n)).getLsbD b = _
  rw [BitVec.getLsbD_setWidth, BitVec.getLsbD_and, getLsbD_mask n hn b hb, decide_eq_true hb,
    Bool.and_true,
      Bool.true_and]

theorem IsTable.convert_eq (hcov : v.Covered Gate.Tabulable) (hn : v.inputs.length ≤ 6)
    {tt : BitVec 64} {tt' : TruthTable v.inputs.length} (h : v.IsTable tt i)
    (h' : v.IsTable tt' i) : convertTruthTable6 v.inputs.length tt = tt' := by
  apply BitVec.eq_of_getLsbD_eq
  intro b hb
  obtain ⟨τ, hτ⟩ := (acyclic_window hcov.net.acyclic).exists_solves .empty
    (fun i => b.testBit (position v.inputs i))
  have hword : b < 64 := Nat.lt_of_lt_of_le hb (Nat.pow_le_pow_right Nat.two_pos hn)
  rw [getLsbD_convert hn hb, h b hword _ τ ⟨_, hτ⟩ (fun _ _ => rfl) 0]
  exact (h' b hb _ τ ⟨_, hτ⟩ (fun _ _ => rfl) 0).symm

private theorem map_convert_eq (hcov : v.Covered Gate.Tabulable) (hn : v.inputs.length ≤ 6)
    {words : List (BitVec 64)} {os : List EntryID} (h : List.Forall₂ v.IsTable words os) :
    ∀ {tts : List (TruthTable v.inputs.length)}, List.Forall₂ v.IsTable tts os →
    words.map (convertTruthTable6 v.inputs.length) = tts := by
  induction h with
  | nil =>
    intro tts htts
    cases htts
    rfl
  | cons hword _ ih =>
    intro tts htts
    cases htts with
    | cons htt htts => rw [map_cons, hword.convert_eq hcov hn htt, ih htts]

def HasTable (v : SubnetView) (tt : TruthTable v.inputs.length) (o : EntryID) : Prop :=
  ∀ b < 2 ^ v.inputs.length, ∀ x τ, v.Values x τ →
    (∀ (k : ℕ) i, v.inputs[k]? = some i → x i = b.testBit k) → ∀ out, tt.get_bit b = τ o out

def Tabulates (v : SubnetView) (result : Option (List (TruthTable v.inputs.length))) : Prop :=
  ∃ tts, result = some tts ∧ List.Forall₂ v.HasTable tts v.outputs

theorem IsTable.hasTable {tt : TruthTable v.inputs.length} (h : v.IsTable tt i) : v.HasTable tt i :=
  fun b hb x τ hτ hx out => h b hb x τ hτ (fun j hj => hx _ j (getElem_position hj)) out

/-- The calculator with words is always right. -/
theorem exists_evaluateWords (hcov : v.Covered Gate.Tabulable) (hr : v.Readable)
    (hn : v.inputs.length ≤ 6) : ∃ tts, v.evaluateWords = some tts ∧
    List.Forall₂ v.HasTable tts v.outputs ∧
      ∀ tts' : List (TruthTable v.inputs.length), List.Forall₂ v.IsTable tts' v.outputs →
      tts = tts' := by
  have hempty : ∀ i, ((none : Option (BitVec 64))).isSome ↔ i ∈ ([] : List EntryID) :=
    fun i => iff_of_false (fun hsome => by cases hsome) not_mem_nil
  obtain ⟨hiff, hright⟩ := runTables_iff TableStorage.words_tracks hcov hr hempty (fun _ => rfl)
    (variables_words hn)
  obtain ⟨words, hwords⟩ := isSome_iff_exists.mp (hiff.mpr (exists_kept hcov hr))
  have hall := hright words hwords
  refine ⟨_, congrArg (Option.map _) hwords,
    forall₂_map_left_iff.mpr (hall.imp (fun tt o htt => ?_)),
    fun tts' htts' => map_convert_eq hcov hn hall htts'⟩
  intro b hb x τ hτ hx out
  have hword : b < 64 := Nat.lt_of_lt_of_le hb (Nat.pow_le_pow_right Nat.two_pos hn)
  rw [TruthTable.get_bit, getLsbD_convert hn hb]
  exact htt b hword x τ hτ (fun j hj => hx _ j (getElem_position hj)) out

/-- The calculator with the vector is right for the views whose tables stay where they are. -/
theorem evaluateVector_iff (hcov : v.Covered Gate.Tabulable) (hr : v.Readable) (grow : ℕ → ℕ) :
    ((v.evaluateVector grow).isSome ↔ v.Unmoved grow) ∧
      ∀ tts, v.evaluateVector grow = some tts → List.Forall₂ v.IsTable tts v.outputs :=
  runTables_iff (TableStorage.vector_tracks v.inputs.length grow) hcov hr
    ⟨rfl, rfl, fun _ _ hp => (by cases hp), fun _ _ hp => (by cases hp), fun i =>
    ⟨fun ⟨_, hp, _⟩ => (by cases hp), fun hi => (by cases hi)⟩⟩
    (fun _ => rfl) (variables_vector v.inputs.length)

/-- The tables stay where they are if no more cells are visited than the vector has places
reserved. -/
theorem unmoved_of_length_le (hcov : v.Covered Gate.Tabulable) (hr : v.Readable)
    {es : List ViewEntry} (hes : v.walker.collect = some es) (hle : es.length ≤ v.parent.nCell)
    (grow : ℕ → ℕ) : v.Unmoved grow := by
  have hsame : ∀ {es : List ViewEntry} {room : TableRoom}, room.count + es.length ≤ room.capacity →
      (v.Kept (TableRoom.push grow) TableRoom.usable es room ↔
        v.Kept (fun i V => i :: V) id es room.usable) := by
    intro es
    induction es with
    | nil => exact fun _ => Iff.rfl
    | cons e es ih =>
      intro room hle
      rw [length_cons] at hle
      have hpush : room.push grow e.entryID =
          ⟨room.capacity, room.count + 1, e.entryID :: room.usable⟩ :=
        if_neg (by omega)
      rw [Kept, Kept, hpush, ih (by change room.count + 1 + es.length ≤ room.capacity; omega)]
      rfl
  obtain ⟨es', hes', hkept⟩ := exists_kept hcov hr
  obtain rfl := some.inj (hes.symm.trans hes')
  exact ⟨es, hes, (hsame (by change 0 + es.length ≤ v.parent.nCell; omega)).mpr hkept⟩

/-- The tables are right exactly for the views that have at most six inputs or whose tables stay
where they are; both calculators yield the same tables. -/
theorem evaluateTruthTables_iff (hcov : v.Covered Gate.Tabulable) (hr : v.Readable) (grow : ℕ → ℕ) :
    (v.Tabulates (v.evaluateTruthTables grow) ↔ (6 < v.inputs.length → v.Unmoved grow)) ∧
      (v.Tabulates (v.evaluateVector grow) ↔ v.Unmoved grow) ∧
      (v.inputs.length ≤ 6 → ∀ tts, v.evaluateVector grow = some tts →
        v.evaluateTruthTables grow = some tts) := by
  obtain ⟨hiff, hright⟩ := evaluateVector_iff hcov hr grow
  have hvector : v.Tabulates (v.evaluateVector grow) ↔ v.Unmoved grow := by
    constructor
    · rintro ⟨tts, htts, -⟩
      exact hiff.mp (isSome_iff_exists.mpr ⟨tts, htts⟩)
    · intro hkept
      obtain ⟨tts, htts⟩ := isSome_iff_exists.mp (hiff.mpr hkept)
      exact ⟨tts, htts, (hright tts htts).imp (fun _ _ => IsTable.hasTable)⟩
  refine ⟨?_, hvector, fun hn tts htts => ?_⟩
  · rw [evaluateTruthTables]
    split
    · rename_i hn
      obtain ⟨tts, htts, hall, -⟩ := exists_evaluateWords hcov hr hn
      exact iff_of_true ⟨tts, htts, hall⟩ (fun hlt => absurd hn (Nat.not_le.mpr hlt))
    · rename_i hn
      rw [hvector]
      exact ⟨fun hkept _ => hkept, fun hkept => hkept (Nat.not_le.mp hn)⟩
  · obtain ⟨tts', htts', -, hsame⟩ := exists_evaluateWords hcov hr hn
    rw [evaluateTruthTables, if_pos hn, htts', hsame tts (hright tts htts)]

/-- A conjunction of two of seven inputs. -/
def repeated : Subnet := ⟨7, 1, 9, 0, (replicate 7 (.cell ⟨.IN, [], 1⟩)) ++
  [.cell ⟨.AND, [⟨0, 0, false⟩, ⟨1, 0, false⟩], 1⟩, .cell ⟨.OUT, [⟨7, 0, false⟩], 0⟩]⟩

def repeatedView (s : SubnetBuilder) (os : List EntryID) : SubnetView :=
  ⟨s, (range 7).map (fun i => ⟨i, 0, false⟩), os.map (fun i => ⟨i, 0, false⟩)⟩

private theorem repeatedView_inputs {s : SubnetBuilder} {os : List EntryID} :
    (repeatedView s os).inputs = range 7 := rfl

private theorem repeatedView_outputs {s : SubnetBuilder} {os : List EntryID} :
    (repeatedView s os).outputs = os := by
  rw [SubnetView.outputs, repeatedView, map_map]
  exact map_id os

private theorem exists_repeated :
    ∃ s, ofSubnet [] repeated = some s ∧ ∀ os, os ≠ [] → (∀ o ∈ os, o < 9) →
    (repeatedView s os).Covered Gate.Tabulable ∧ (repeatedView s os).Readable := by
  have hS : repeated.Arranged :=
    (SubnetEncoder.encodable_of_check (by decide) : repeated.Encodable [] 0).arranged
  obtain ⟨s, mid, hs, hgrown, hnet, -⟩ := ofSubnet_eq [] hS
  have hlive : ∀ i < 9, (s.netlist i).isSome := by
    rw [hnet]
    decide
  have hgate : ∀ (i : ℕ) g, ¬ i < 7 → s.netlist i = some g → g.Tabulable := by
    intro i g hnot hg
    rw [hnet] at hg
    have hlt : i < 9 := by
      obtain ⟨c, hc, -⟩ := map_eq_some_iff.mp hg
      exact Subnet.lt_of_getCell hc
    obtain rfl | rfl : i = 7 ∨ i = 8 := by omega
    · have hseven : repeated.netlist 7 = some ⟨.AND, [⟨0, 0, false⟩, ⟨1, 0, false⟩]⟩ := rfl
      rw [← some.inj (hseven.symm.trans hg)]
      exact cons_ne_nil _ _
    · have height : repeated.netlist 8 = some ⟨.OUT, [⟨7, 0, false⟩]⟩ := rfl
      rw [← some.inj (height.symm.trans hg)]
      exact rfl
  refine ⟨s, hs, fun os hne hos => ⟨⟨hgrown.netOk, fun i hi => hlive i ?_, fun o ho => hlive o ?_,
    ?_, fun o ho i g hi hg => hgate i g ?_ hg⟩, readable_of_grown hgrown⟩⟩
  · rw [repeatedView_inputs, mem_range] at hi
    exact Nat.lt_trans hi (by decide)
  · rw [repeatedView_outputs] at ho
    exact hos o ho
  · rwa [repeatedView_outputs]
  · have hnot := hi.not_mem
    rwa [repeatedView_inputs, mem_range] at hnot

/-- The tables of two outputs; the vector has places for all visited cells. -/
theorem evaluateTruthTables_and : ∃ s, ofSubnet [] repeated = some s ∧
    ∀ grow, (repeatedView s [0, 8]).Tabulates
    ((repeatedView s [0, 8]).evaluateTruthTables grow) := by
  obtain ⟨s, hs, hviews⟩ := exists_repeated
  obtain ⟨hcov, hr⟩ := hviews [0, 8] (by decide) (by decide)
  refine ⟨s, hs, fun grow => (evaluateTruthTables_iff hcov hr grow).1.mpr (fun _ => ?_)⟩
  have hrun : (ofSubnet [] repeated).map
      (fun s => ((repeatedView s [0, 8]).walker.collect.map List.length, s.nCell)) =
      some (some 9, 9) := by decide +kernel
  rw [hs, map_some, Option.some.injEq, Prod.mk.injEq] at hrun
  obtain ⟨es, hes, hlen⟩ := map_eq_some_iff.mp hrun.1
  have hplaces : es.length ≤ s.nCell := by rw [hlen, hrun.2]
  exact unmoved_of_length_le hcov hr hes hplaces grow

private theorem not_unmoved_repeated {s : SubnetBuilder} (hs : ofSubnet [] repeated = some s)
    (grow : ℕ → ℕ) : ¬ (repeatedView s [0, 7, 7, 7]).Unmoved grow := by
  have hrun : ((ofSubnet [] repeated).map
      (fun s => (s.nCell, (repeatedView s [0, 7, 7, 7]).walker.collect.map
      (map ViewEntry.entryID)))) =
      some (9, some [0, 1, 2, 3, 4, 5, 6, 7, 7, 7]) := by decide +kernel
  rw [hs, map_some, Option.some.injEq, Prod.mk.injEq] at hrun
  rintro ⟨es, hes, hkept⟩
  rw [hes, map_some, Option.some.injEq] at hrun
  obtain ⟨hcells, hids⟩ := hrun
  have hend : ∀ {es : List ViewEntry} {room : TableRoom}, (repeatedView s [0, 7, 7, 7]).Kept
      (TableRoom.push grow) TableRoom.usable es room →
      0 ∈ ((es.map ViewEntry.entryID).foldl (fun room i => room.push grow i) room).usable := by
    intro es
    induction es with
    | nil => exact fun hkept => hkept 0 mem_cons_self
    | cons e es ih => exact fun hkept => ih hkept.2
  have hzero := hend hkept
  change 0 ∈ (foldl _ (⟨s.nCell, 0, []⟩ : TableRoom) _).usable at hzero
  rw [hids, hcells] at hzero
  simp [TableRoom.push] at hzero

/-- An output that is listed three times is visited three times: the table of the other output is
lost when the vector moves. -/
theorem not_evaluateTruthTables : ∃ v :
    SubnetView, v.Covered Gate.Tabulable ∧ v.Readable ∧ v.inputs.length = 7 ∧
    ∀ grow, ¬ v.Tabulates (v.evaluateTruthTables grow) := by
  obtain ⟨s, hs, hviews⟩ := exists_repeated
  obtain ⟨hcov, hr⟩ := hviews [0, 7, 7, 7] (by decide) (by decide)
  have hlen : (repeatedView s [0, 7, 7, 7]).inputs.length = 7 := by
    rw [repeatedView_inputs, length_range]
  refine ⟨_, hcov, hr, hlen, fun grow hright => not_unmoved_repeated hs grow ?_⟩
  exact (evaluateTruthTables_iff hcov hr grow).1.mp hright (by omega)

end SubnetView

end UtopiaEda
