import UtopiaEda.Netlists
import Mathlib.Data.List.GetD

/-!
# Subnets

A finished network: the array of entries in topological order, inputs first and outputs
last. A cell with more than `InPlaceLinks` links is followed by the entries of its
additional links.
-/
namespace UtopiaEda

structure Subnet where
  nIn : ℕ
  nOut : ℕ
  nCell : ℕ
  nBuf : ℕ
  entries : List Entry
  deriving DecidableEq, Repr

namespace Subnet

/-- `nEntry`. -/
def size (S : Subnet) : ℕ := S.entries.length

def getCell (S : Subnet) (i : EntryID) : Option SubnetCell :=
  match S.entries[i]? with
  | some (.cell c) => some c
  | _ => none

def getInIdx (_ : Subnet) (i : ℕ) : EntryID := i

def getOutIdx (S : Subnet) (i : ℕ) : EntryID := S.size - S.nOut + i

/-- The link that output `i` passes on. -/
def getOut (S : Subnet) (i : ℕ) : Option Link := do (← S.getCell (S.getOutIdx i)).links[0]?

def getLink (S : Subnet) (i : EntryID) (j : ℕ) : Option Link := do (← S.getCell i).links[j]?

def netlist (S : Subnet) : Netlist := fun i => (S.getCell i).map (fun c => ⟨c.type, c.links⟩)

/-- The value of an output port of a cell for the values `x` of the inputs. -/
def value (lib : CellLibrary) (S : Subnet) (x : EntryID → Bool) (i : EntryID) (out : ℕ) :
    Option Bool := S.netlist.value lib S.size x i out

/-- What a subnet made by a builder looks like: the inputs come first and the outputs last,
links point back to output ports of cells other than outputs, and every cell is followed by the
entries of its additional links. -/
structure WellFormed (S : Subnet) : Prop where
  input : ∀ i c, S.getCell i = some c → (c.type = .IN ↔ i < S.nIn)
  noLinks : ∀ i c, S.getCell i = some c → c.type = .IN → c.links = []
  output : ∀ i c, S.getCell i = some c → (c.type = .OUT ↔ S.size - S.nOut ≤ i)
  outLink : ∀ i c, S.getCell i = some c → c.type = .OUT → c.links.length = 1
  bounds : S.nIn + S.nOut ≤ S.size
  ends : ∀ i, i < S.nIn ∨ S.size - S.nOut ≤ i → i < S.size → (S.getCell i).isSome
  links : ∀ i c, S.getCell i = some c → ∀ l ∈ c.links, l.idx < i ∧
    ∃ c', S.getCell l.idx = some c' ∧ c'.type ≠ .OUT
  port : ∀ i c, S.getCell i = some c → ∀ l ∈ c.links, ∀ c', S.getCell l.idx = some c' →
    l.out = 0 ∨ ∃ sid, c'.type = .soft sid
  positive : ∀ i c, S.getCell i = some c → c.type.isNegative = false

variable {S : Subnet} {i : EntryID} {c : SubnetCell}

theorem lt_of_getCell (h : S.getCell i = some c) : i < S.size := by
  unfold getCell at h
  cases he : S.entries[i]? with
  | none => simp [he] at h
  | some e => exact (List.getElem?_eq_some_iff.mp he).1

theorem WellFormed.fanin (h : S.WellFormed) {j : EntryID} (hij : S.netlist.Fanin i j) :
    j < i ∧ (S.netlist j).isSome := by
  obtain ⟨g, hg, l, hl, rfl⟩ := hij
  obtain ⟨c, hc, rfl⟩ := Option.map_eq_some_iff.mp hg
  obtain ⟨hlt, c', hc', -⟩ := h.links i c hc l hl
  exact ⟨hlt, by simp [netlist, hc']⟩

theorem WellFormed.exists_values (h : S.WellFormed) (lib : CellLibrary) (x : EntryID → Bool) :
    ∃ ρ, Netlist.Solves lib S.netlist x ρ ∧
      ∀ i c, S.getCell i = some c → ∀ out, S.value lib x i out = some (ρ i out) := by
  have hacyclic : S.netlist.Acyclic := ⟨id, fun i j hij => (h.fanin hij).1⟩
  obtain ⟨ρ, hρ⟩ := hacyclic.exists_solves lib x
  refine ⟨ρ, hρ, fun i c hc out => ?_⟩
  refine Netlist.value_eq hacyclic (fun i j hij => (h.fanin hij).2) (fun j hj => ?_) hρ ?_ out
  · obtain ⟨g, hg⟩ := Option.isSome_iff_exists.mp hj
    obtain ⟨c', hc', -⟩ := Option.map_eq_some_iff.mp hg
    exact lt_of_getCell hc'
  · simp [netlist, hc]

theorem WellFormed.value_of_links {lib : CellLibrary} (hS : S.WellFormed)
    (hc : S.getCell i = some c) {x : EntryID → Bool} {ρ : EntryID → ℕ → Bool}
    (hl : ∀ l ∈ c.links, S.value lib x l.idx l.out = some (ρ l.idx l.out))
    (out : ℕ) : S.value lib x i out = some (if c.type = .IN then x i
      else c.type.eval lib (c.links.map (Link.value ρ)) out) := by
  obtain ⟨σ, hσ, hval⟩ := hS.exists_values lib x
  have hg : S.netlist i = some ⟨c.type, c.links⟩ := by simp [netlist, hc]
  have hmap : c.links.map (Link.value σ) = c.links.map (Link.value ρ) := by
    apply List.map_congr_left
    intro l hmem
    obtain ⟨-, c', hc', -⟩ := hS.links i c hc l hmem
    have heq := (hval l.idx c' hc' l.out).symm.trans (hl l hmem)
    rw [Link.value, Link.value, Option.some.inj heq]
  rw [hval i c hc, hσ i _ hg, Netlist.gateValue, hmap]

end Subnet

end UtopiaEda
