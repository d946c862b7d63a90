import UtopiaEda.CellTypes
import UtopiaEda.AcyclicSystems
import Mathlib.Data.List.Basic
import Mathlib.Data.List.GetD

/-!
# Netlists and their Boolean functions

What a subnet or a builder means: a partial map from entries to gates, solved by the
assignments of values to cell outputs that satisfy every gate. An acyclic, closed
netlist has exactly one solution on its cells for each assignment of the inputs, and
`Netlist.value` computes it.
-/
namespace UtopiaEda
open List

structure Gate where
  type : CellTypeID
  links : List Link
  deriving DecidableEq, Repr

def Entry.gate : Entry → Option Gate
  | .cell c => some ⟨c.type, c.links⟩
  | .links _ => none

abbrev Netlist := EntryID → Option Gate

namespace Netlist

/-- Cell `i` has a link to entry `j`. -/
def Fanin (N : Netlist) (i j : EntryID) : Prop := ∃ g, N i = some g ∧ ∃ l ∈ g.links, l.idx = j

/-- `j` is in the transitive fanout of `i` (`i` itself included). -/
def Reaches (N : Netlist) (j i : EntryID) : Prop := Relation.ReflTransGen N.Fanin j i

def Ranked (N : Netlist) (r : EntryID → ℕ) : Prop := ∀ i j, N.Fanin i j → r j < r i

def Acyclic (N : Netlist) : Prop := ∃ r, N.Ranked r

def Closed (N : Netlist) : Prop := ∀ i j, N.Fanin i j → (N j).isSome

def redirect (N : Netlist) (f : EntryID → Option EntryID) : Netlist := fun i =>
  (N i).map (fun g => ⟨g.type, g.links.map (fun l => { l with idx := (f l.idx).getD l.idx })⟩)

/-- The value that gate `g` of cell `i` takes when the cell outputs have the values `ρ`. -/
def gateValue (lib : CellLibrary) (x : EntryID → Bool) (ρ : EntryID → ℕ → Bool) (i : EntryID)
    (g : Gate) (out : ℕ) : Bool :=
  if g.type = .IN then x i else g.type.eval lib (g.links.map (Link.value ρ)) out

/-- The values `ρ` satisfy every gate when the input cells have the values `x`. -/
def Solves (lib : CellLibrary) (N : Netlist) (x : EntryID → Bool) (ρ : EntryID → ℕ → Bool) : Prop :=
  ∀ i g, N i = some g → ρ i = gateValue lib x ρ i g

/-- The value of an output, computed from the inputs upward; `none` past the recursion
depth, so a cell on a cycle has no value. -/
def eval (lib : CellLibrary) (N : Netlist) (x : EntryID → Bool) : ℕ → EntryID → ℕ → Option Bool
  | 0, _, _ => none
  | n + 1, i, out =>
    match N i with
    | none => none
    | some g => if g.type = .IN then some (x i) else
        (g.links.mapM (fun l => (eval lib N x n l.idx l.out).map (xor · l.inv))).map
          (fun xs => g.type.eval lib xs out)

variable {lib : CellLibrary} {N N' : Netlist} {x : EntryID → Bool} {ρ ρ' : EntryID → ℕ → Bool}

theorem gateValue_congr {i : EntryID} {g : Gate} (h : ∀ l ∈ g.links, ρ l.idx = ρ' l.idx) :
    gateValue lib x ρ i g = gateValue lib x ρ' i g := by
  funext out
  have hm : g.links.map (Link.value ρ) = g.links.map (Link.value ρ') :=
    map_congr_left (fun l hl => by simp [Link.value, h l hl])
  simp [gateValue, hm]

/-- Only the values of the inputs matter. -/
theorem Solves.congr_inputs {y : EntryID → Bool} (h : ∀ i g, N i = some g → g.type = .IN →
    x i = y i) (hρ : N.Solves lib x ρ) : N.Solves lib y ρ := by
  intro i g hg
  rw [hρ i g hg]
  funext out
  unfold Netlist.gateValue
  split
  · rename_i ht
    exact h i g hg ht
  · rfl

/-- The system of equations of a netlist, with `false` at the entries that hold no cell. -/
private def system (lib : CellLibrary) (N : Netlist) (x : EntryID → Bool) (i : EntryID)
    (ρ : EntryID → ℕ → Bool) : ℕ → Bool :=
  match N i with
  | none => fun _ => false
  | some g => gateValue lib x ρ i g

private theorem system_local (lib : CellLibrary) (N : Netlist) (x : EntryID → Bool) :
    AcyclicSystems.Local N.Fanin (system lib N x) := by
  intro i ρ ρ' h
  cases hg : N i with
  | none => simp [system, hg]
  | some g =>
    simp only [system, hg]
    exact gateValue_congr (fun l hl => h l.idx ⟨g, hg, l, hl, rfl⟩)

theorem Acyclic.exists_solves (lib : CellLibrary) (h : N.Acyclic) (x : EntryID → Bool) :
    ∃ ρ, Solves lib N x ρ := by
  obtain ⟨r, hr⟩ := h
  obtain ⟨ρ, hρ⟩ := AcyclicSystems.exists_solution (system_local lib N x) hr
  refine ⟨ρ, fun i g hg => ?_⟩
  have h := hρ i
  simp only [system, hg] at h
  exact h

theorem mapM_eq_some {α β : Type} {f : α → Option β} {v : α → β} :
    ∀ {ls : List α}, (∀ l ∈ ls, f l = some (v l)) → ls.mapM f = some (ls.map v)
  | [], _ => rfl
  | l :: ls, h => by
    have ht : ls.mapM f = some (ls.map v) :=
      mapM_eq_some (fun l' hl' => h l' (mem_cons_of_mem _ hl'))
    simp [mapM_cons, h l (by simp), ht]

theorem length_of_mapM {α β : Type} {f : α → Option β} {ls : List α} {ys : List β}
    (h : ls.mapM f = some ys) : ys.length = ls.length := by
  induction ls generalizing ys with
  | nil =>
    cases h
    rfl
  | cons l ls ih =>
    rw [mapM_cons] at h
    obtain ⟨y, -, h⟩ := Option.bind_eq_some_iff.mp h
    obtain ⟨ys, hys, h⟩ := Option.bind_eq_some_iff.mp h
    cases h
    rw [length_cons, length_cons, ih hys]

theorem mapM_range_eq_some {α β : Type} {f : ℕ → Option β} {g : α → β} {ls : List α}
    (h : ∀ j (hj : j < ls.length), f j = some (g ls[j])) :
    (range ls.length).mapM f = some (ls.map g) := by
  cases ls with
  | nil => rfl
  | cons a ls =>
    have hex : (range (a :: ls).length).mapM f =
        some ((range (a :: ls).length).map (fun j => g ((a :: ls).getD j a))) := by
      apply mapM_eq_some
      intro j hj
      have hlt := mem_range.mp hj
      rw [h j hlt, getD_eq_getElem _ _ hlt]
    rw [hex]
    congr 1
    apply ext_getElem
    · simp
    · intro j hj hj'
      simp only [length_map, length_range] at hj
      rw [getElem_map, getElem_map, getElem_range, getD_eq_getElem _ _ hj]

theorem mapM_range_bind {α β : Type} (f : α → Option β) : ∀ {ls : List α} {g : ℕ → Option α},
    (∀ j (hj : j < ls.length), g j = some ls[j]) →
    (range ls.length).mapM (fun j => (g j).bind f) = ls.mapM f := by
  intro ls
  induction ls with
  | nil =>
    intro g _
    rfl
  | cons a ls ih =>
    intro g h
    have hhead : g 0 = some a := h 0 (Nat.succ_pos _)
    have htail := ih (g := fun j => g (j + 1)) (fun j hj => h (j + 1) (Nat.succ_lt_succ hj))
    rw [length_cons, range_succ_eq_map, mapM_cons, mapM_cons, mapM_map, hhead]
    simp only [Option.bind_some, Function.comp_def]
    rw [show (fun j => (g j.succ).bind f) = (fun j => (g (j + 1)).bind f) from rfl, htail]

/-- Enough recursion depth computes the solution. -/
theorem eval_eq (hc : N.Closed) (hρ : Solves lib N x ρ) {r : EntryID → ℕ} (hr : N.Ranked r) :
    ∀ n i out, (N i).isSome → r i < n → N.eval lib x n i out = some (ρ i out) := by
  intro n
  induction n with
  | zero => intro i out _ h; omega
  | succ n ih =>
    intro i out hi hn
    obtain ⟨g, hg⟩ := Option.isSome_iff_exists.mp hi
    rw [hρ i g hg]
    by_cases hin : g.type = .IN
    · simp [eval, hg, hin, gateValue]
    · have hl : ∀ l ∈ g.links,
          (N.eval lib x n l.idx l.out).map (xor · l.inv) = some (Link.value ρ l) := by
        intro l hl
        have hf : N.Fanin i l.idx := ⟨g, hg, l, hl, rfl⟩
        have := hr i l.idx hf
        rw [ih l.idx l.out (hc i _ hf) (by omega)]
        rfl
      simp [eval, hg, hin, gateValue, mapM_eq_some hl]

theorem eval_congr_inputs {y : EntryID → Bool} (h : ∀ i g, N i = some g → g.type = .IN →
    x i = y i) : ∀ {n i out}, N.eval lib x n i out = N.eval lib y n i out := by
  intro n
  induction n with
  | zero => intro i out; rfl
  | succ n ih =>
    intro i out
    cases hg : N i with
    | none => simp only [eval, hg]
    | some g =>
      simp only [eval, hg, ih]
      split
      · rename_i ht
        rw [h i g hg ht]
      · rfl

/-- Value of an output port in a netlist whose cells have entries below `size`. -/
def value (lib : CellLibrary) (N : Netlist) (size : ℕ) (x : EntryID → Bool) (i : EntryID)
    (out : ℕ) : Option Bool :=
  N.eval lib x (size + 1) i out

theorem Acyclic.exists_bounded_rank {size : ℕ} (h : N.Acyclic)
    (hs : ∀ i, (N i).isSome → i < size) :
    ∃ r : EntryID → ℕ, N.Ranked r ∧ ∀ i, (N i).isSome → r i < size + 1 := by
  obtain ⟨r, hr⟩ := h
  obtain ⟨r', hlt, hmono⟩ := AcyclicSystems.exists_rank_lt_card (Finset.range size) r
  simp only [Finset.card_range, Finset.mem_range] at hlt hmono
  refine ⟨fun i => if i < size then r' i + 1 else 0, fun i j hij => ?_, fun i hi => ?_⟩
  · have hi : i < size := hs i (by obtain ⟨g, hg, -⟩ := hij; simp [hg])
    simp only [hi, if_true]
    split
    · rename_i hj
      have := hmono j hj i (hr i j hij)
      omega
    · omega
  · have := hlt i (hs i hi)
    simp only [hs i hi, if_true]
    omega

theorem value_eq {size : ℕ} (h : N.Acyclic) (hc : N.Closed) (hs : ∀ i, (N i).isSome → i < size)
    (hρ : Solves lib N x ρ) {i : EntryID} (hi : (N i).isSome) (out : ℕ) :
    N.value lib size x i out = some (ρ i out) := by
  obtain ⟨r, hr, hlt⟩ := h.exists_bounded_rank hs
  exact eval_eq hc hρ hr _ i out hi (hlt i hi)

end Netlist

end UtopiaEda
