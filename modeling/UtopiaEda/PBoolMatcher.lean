import UtopiaEda.NpnDatabaseContents
import Mathlib.Data.Fintype.Pi
import Mathlib.Data.Fintype.Perm

/-!
# Boolean matching

A `PBoolMatcher` finds the cells of a library that compute a truth table when its inputs are
connected in some order. The cells are kept by the canonical tables of their outputs; the inputs of
a cell are connected by the permutations that lead to the canonical table from the table of the
request and from that of the cell.
-/
namespace UtopiaEda
open List

abbrev ExactPCanonization := (n : ℕ) → TruthTable n → TruthTable n × NpnTransformation

structure StandardCell where
  cellTypeID : CellTypeID
  /-- The canonical tables of the outputs. -/
  ctt : List DynamicTruthTable
  transform : List NpnTransformation
  deriving DecidableEq

structure Match where
  typeID : CellTypeID
  links : List Link
  output : ℕ
  deriving DecidableEq

/-- The loops with which a library characterizes a cell with `inNum` inputs by the tables of its
outputs. -/
def StandardCell.ofTables (canonize : ExactPCanonization) (cellTypeID : CellTypeID) (inNum : ℕ)
    (tt : List (TruthTable inNum)) : StandardCell where
  cellTypeID := cellTypeID
  ctt := tt.map (fun f => ⟨inNum, (canonize inNum f).1⟩)
  transform := tt.map (fun f => (canonize inNum f).2)

namespace PBoolMatcher

abbrev CellMap := KeyedLists DynamicTruthTable (StandardCell × ℕ)

variable {canonize : ExactPCanonization} {n : ℕ} {k : DynamicTruthTable} {cells : List StandardCell}
  {leaves : List EntryID}

structure LibraryCell where
  cellTypeID : CellTypeID
  inNum : ℕ
  functions : List (TruthTable inNum)

def LibraryCell.standardCell (canonize : ExactPCanonization) (c : LibraryCell) : StandardCell :=
  .ofTables canonize c.cellTypeID c.inNum c.functions

def LibraryCell.function (c : LibraryCell) (output : ℕ) : Option DynamicTruthTable :=
  c.functions[output]?.map (fun f => ⟨c.inNum, f⟩)

variable {c : LibraryCell} {f g : TruthTable n} {output : ℕ}

private theorem transform_eq : (c.standardCell canonize).transform[output]? =
    (c.function output).map (fun k => (canonize k.1 k.2).2) := by
  simp only [LibraryCell.standardCell, StandardCell.ofTables, LibraryCell.function, getElem?_map,
    Option.map_map]
  rfl

private theorem exists_mapM {α β : Type} {h : α → Option β} :
    ∀ {l : List α}, (∀ a ∈ l, (h a).isSome) → ∃ bs, l.mapM h = some bs ∧ ∀ b, b ∈ bs ↔
    ∃ a ∈ l, h a = some b := by
  intro l
  induction l with
  | nil => exact fun _ => ⟨[], rfl, by simp⟩
  | cons a l ih =>
    intro hl
    obtain ⟨b, hb⟩ := Option.isSome_iff_exists.mp (hl a mem_cons_self)
    obtain ⟨bs, hbs, hmem⟩ := ih (fun a' ha' => hl a' (mem_cons_of_mem a ha'))
    refine ⟨b :: bs, by rw [mapM_cons, hb, hbs]; rfl, fun b' => ?_⟩
    rw [mem_cons, hmem, exists_mem_cons_iff, hb, Option.some.injEq, eq_comm]

end PBoolMatcher

end UtopiaEda
