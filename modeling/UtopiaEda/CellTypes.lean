import Mathlib.Data.List.Sort
import Mathlib.Data.List.Perm.Basic

/-!
# Cell types, links and cells

The gates of a logic network with their Boolean functions, the links between
cells, the keys of the structural hash table, and the cell record shared by
`Subnet` and `SubnetBuilder`. Cell types other than the standard gates (cells with
a subnet implementation, library cells) come from a `CellLibrary`; none of them is
declared commutative in the source.
-/
namespace UtopiaEda

abbrev EntryID := ℕ

/-- Identifiers of the cell types; `soft sid` is any type that is not a standard gate. -/
inductive CellTypeID where
  | IN | OUT | ZERO | ONE | BUF | NOT | AND | OR | XOR | NAND | NOR | XNOR | MAJ
  | soft (sid : ℕ)
  deriving DecidableEq, Repr

/-- Number of outputs and Boolean function of the non-standard cell types. -/
structure CellLibrary where
  outNum : ℕ → ℕ
  eval : ℕ → List Bool → ℕ → Bool

def CellLibrary.empty : CellLibrary := ⟨fun _ => 0, fun _ _ _ => false⟩

namespace CellTypeID

/-- The `commutative` property of the table of standard cell types. -/
def isCommutative : CellTypeID → Bool
  | .AND | .OR | .XOR | .NAND | .NOR | .XNOR | .MAJ => true
  | _ => false

/-- The `negative` property of the table of standard cell types. -/
def isNegative : CellTypeID → Bool
  | .NOT | .NAND | .NOR | .XNOR => true
  | _ => false

def getOutNum (lib : CellLibrary) : CellTypeID → ℕ
  | .OUT => 0
  | .soft sid => lib.outNum sid
  | _ => 1

/-- Value of an output port for the given input values. Standard gates have one
output, so they ignore the port. The value of `IN` comes from the assignment of the
primary inputs and is never read from here. -/
def eval (lib : CellLibrary) : CellTypeID → List Bool → ℕ → Bool
  | .IN, _, _ => false
  | .ZERO, _, _ => false
  | .ONE, _, _ => true
  | .OUT, xs, _ | .BUF, xs, _ => xs.headD false
  | .NOT, xs, _ => !xs.headD false
  | .AND, xs, _ => xs.all id
  | .OR, xs, _ => xs.any id
  | .XOR, xs, _ => xs.foldr xor false
  | .NAND, xs, _ => !xs.all id
  | .NOR, xs, _ => !xs.any id
  | .XNOR, xs, _ => !xs.foldr xor false
  | .MAJ, xs, _ => xs.length < 2 * xs.count true
  | .soft sid, xs, out => lib.eval sid xs out

theorem foldl_and (us : List Bool) : ∀ u, us.foldl and u = (u && us.all id) := by
  induction us with
  | nil => exact fun u => (Bool.and_true u).symm
  | cons v us ih =>
    intro u
    rw [List.foldl_cons, ih, List.all_cons, Bool.and_assoc]
    rfl

theorem foldl_or (us : List Bool) : ∀ u, us.foldl or u = (u || us.any id) := by
  induction us with
  | nil => exact fun u => (Bool.or_false u).symm
  | cons v us ih =>
    intro u
    rw [List.foldl_cons, ih, List.any_cons, Bool.or_assoc]
    rfl

theorem foldl_xor (us : List Bool) : ∀ u, us.foldl xor u = xor u (us.foldr xor false) := by
  induction us with
  | nil => exact fun u => (Bool.xor_false u).symm
  | cons v us ih =>
    intro u
    rw [List.foldl_cons, ih, List.foldr_cons, Bool.xor_assoc]

private theorem foldr_xor_perm {xs ys : List Bool} (h : xs.Perm ys) :
    xs.foldr xor false = ys.foldr xor false :=
  have : LeftCommutative xor := ⟨fun a b c => by cases a <;> cases b <;> cases c <;> rfl⟩
  h.foldr_eq false

/-- Commutative types do not see the order of their inputs. -/
theorem eval_perm {lib : CellLibrary} {t : CellTypeID} (ht : t.isCommutative)
    {xs ys : List Bool} (h : xs.Perm ys) (out : ℕ) : t.eval lib xs out = t.eval lib ys out := by
  have hall : xs.all id = ys.all id := by
    rw [Bool.eq_iff_iff]
    simp [h.mem_iff]
  have hany : xs.any id = ys.any id := by
    rw [Bool.eq_iff_iff]
    simp [h.mem_iff]
  cases t <;> simp [isCommutative] at ht <;>
    simp only [eval, hall, hany, foldr_xor_perm h, h.length_eq, h.count_eq]

end CellTypeID

/-- Link source: a cell, its output port and an inverter flag. -/
structure Link where
  idx : EntryID
  out : ℕ := 0
  inv : Bool := false
  deriving DecidableEq, Repr

namespace Link

/-- `operator~`. -/
def not (l : Link) : Link := { l with inv := !l.inv }

def lt (lhs rhs : Link) : Bool :=
  if lhs.idx ≠ rhs.idx then lhs.idx < rhs.idx
  else if lhs.out ≠ rhs.out then lhs.out < rhs.out
  else !lhs.inv && rhs.inv

/-- Value of a link when the cell outputs have the values `ρ`. -/
def value (ρ : EntryID → ℕ → Bool) (l : Link) : Bool := xor (ρ l.idx l.out) l.inv

end Link

/-- Links stored in the cell entry itself. -/
def InPlaceLinks : ℕ := 3

def InEntryLinks : ℕ := 4

structure StrashKey where
  typeID : CellTypeID
  links : List Link
  deriving DecidableEq, Repr

namespace StrashKey

/-- Inputs, outputs and cells with more than `InPlaceLinks` links are not hashed. -/
def isEnabled (t : CellTypeID) (links : List Link) : Bool :=
  t ≠ .IN && t ≠ .OUT && links.length ≤ InPlaceLinks

def make (t : CellTypeID) (links : List Link) : StrashKey :=
  ⟨t, if t.isCommutative then links.insertionSort (fun a b => ¬ b.lt a) else links⟩

@[simp] theorem make_typeID (t : CellTypeID) (links : List Link) : (make t links).typeID = t := rfl

theorem links_perm (t : CellTypeID) (links : List Link) : (make t links).links.Perm links := by
  unfold make
  split
  · exact List.perm_insertionSort _ links
  · exact .refl _

theorem make_eq {t t' : CellTypeID} {ls ls' : List Link} (h : make t ls = make t' ls') :
    t = t' ∧ ls.Perm ls' ∧ (t.isCommutative = false → ls = ls') := by
  have ht : t = t' := congrArg typeID h
  subst ht
  have hp := (links_perm t ls).symm.trans ((congrArg links h) ▸ links_perm t ls')
  refine ⟨rfl, hp, fun hc => ?_⟩
  simpa [make, hc] using h

/-- A key determines the function of the cell. -/
theorem eval_eq {lib : CellLibrary} {t t' : CellTypeID} {ls ls' : List Link}
    (h : make t ls = make t' ls') (ρ : EntryID → ℕ → Bool) (out : ℕ) :
    t.eval lib (ls.map (Link.value ρ)) out = t'.eval lib (ls'.map (Link.value ρ)) out := by
  obtain ⟨rfl, hp, hn⟩ := make_eq h
  cases hc : t.isCommutative with
  | true => exact CellTypeID.eval_perm hc (hp.map _) out
  | false => rw [hn hc]

end StrashKey

/-- Cell of a subnet. The source keeps the first `InPlaceLinks` links in the cell and
the others in the `more` entries that follow it; `links` lists all of them. -/
structure SubnetCell where
  type : CellTypeID
  links : List Link
  refcount : ℕ := 0
  deriving DecidableEq, Repr

namespace SubnetCell

def arity (c : SubnetCell) : ℕ := c.links.length

def more (c : SubnetCell) : ℕ := (c.arity + (InEntryLinks - 1) - InPlaceLinks) / InEntryLinks

def isIn (c : SubnetCell) : Bool := c.type = .IN
def isOut (c : SubnetCell) : Bool := c.type = .OUT
def isBuf (c : SubnetCell) : Bool := c.type = .BUF

/-- The key of the cell, as `StrashKey(cell)` builds it. -/
def key (c : SubnetCell) : StrashKey := StrashKey.make c.type (c.links.take InPlaceLinks)

def isEnabled (c : SubnetCell) : Bool := !c.isIn && !c.isOut && c.arity ≤ InPlaceLinks

end SubnetCell

inductive Entry where
  | cell (c : SubnetCell)
  | links (ls : List Link)
  deriving DecidableEq, Repr

end UtopiaEda
