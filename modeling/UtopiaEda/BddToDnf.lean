import UtopiaEda.DecisionDiagrams
import Mathlib.Data.List.Perm.Basic

/-!
# Disjunctive normal forms of decision diagrams

`BddToDnf` collects the paths of a diagram that lead to one and writes each of them as a cube.
The children of a node are read before the node is known to have some: on a constant this reads
what is not there.
-/
namespace UtopiaEda
open Diagram List

/-- `kitty::cube`: its constructor from a string, and which assignments a cube covers. -/
structure CubeLibrary where
  Cube : Type
  ofString : List Char → Cube
  covers : Cube → (ℕ → Bool) → Prop

/-- A cube of at most 32 variables covers what its string says. -/
structure CubeLibrary.Documented (K : CubeLibrary) : Prop where
  covers_ofString : ∀ str : List Char, str.length ≤ 32 → ∀ x, K.covers (K.ofString str) x ↔
    ∀ i, (str[i]? = some '1' → x i = true) ∧ (str[i]? = some '0' → x i = false)

namespace BddToDnf

/-- `Cudd_IsConstant`, which looks behind the complement of an edge. -/
def isConstant : Diagram → Bool
  | .one => true
  | .node .. => false

/-- `collectPaths` for an edge to a diagram. The children of a constant are unpredictable. -/
def collectPaths : Diagram → Bool → List Path → Path → Bool → Option (List Path)
  | .one, _, _, _, _ => none
  | .node index t e c, complement, paths, path, targetConst =>
    let targetConst := if complement then !targetConst else targetConst
    if (!isConstant e && isConstant t) || (isConstant e && !isConstant t) then
      if isConstant e then
        let paths := if targetConst == !c then paths ++ [path ++ [(index, true)]] else paths
        collectPaths t false paths (path ++ [(index, false)]) targetConst
      else
        let paths := if targetConst then paths ++ [path ++ [(index, false)]] else paths
        collectPaths e c paths (path ++ [(index, true)]) targetConst
    else if isConstant e && isConstant t then
      some (paths ++ [path ++ [if targetConst then (index, false) else (index, true)]])
    else do
      let paths ← collectPaths t false paths (path ++ [(index, false)]) targetConst
      collectPaths e c paths (path ++ [(index, true)]) targetConst

def put (result : List Char) (pair : ℕ × Bool) : List Char :=
  result.set pair.1 (if pair.2 then '0' else '1')

def toString (varCount : ℕ) (path : Path) : List Char :=
  (path.mergeSort (fun a b => decide (a.1 ≤ b.1))).foldl put (replicate varCount '-')

def convertToCubes (K : CubeLibrary) (varCount : ℕ) (paths : List Path) : List K.Cube :=
  paths.map fun path => K.ofString (toString varCount path)

/-- `getDnf` for a manager with `varCount` variables. -/
def getDnf (K : CubeLibrary) {varCount : ℕ} (bdd : Bdd varCount) : Option (List K.Cube) :=
  (collectPaths bdd.node bdd.complement [] [] true).map (convertToCubes K varCount)

/-- The cubes are disjoint and together cover where the function is true. -/
def Exact (K : CubeLibrary) {varCount : ℕ} (bdd : Bdd varCount) (result : Option (List K.Cube)) :
    Prop :=
  ∃ cubes, result = some cubes ∧
    cubes.Pairwise (fun c c' => ∀ x, ¬ (K.covers c x ∧ K.covers c' x)) ∧
    ∀ x, (∃ c ∈ cubes, K.covers c x) ↔ bdd.eval x = true

variable {n : ℕ} {d t e : Diagram} {path : Path} {paths : List Path} {x : ℕ → Bool}

theorem eq_one_of_isConstant (h : isConstant d = true) : d = .one := by
  cases d with
  | one => rfl
  | node => cases h

theorem ne_one_of_isConstant (h : isConstant d = false) : d ≠ .one := by
  rintro rfl
  cases h

theorem collectPaths_eq (h : d.WellFormed n) (hd : d ≠ .one) : ∀ complement paths path targetConst,
    ∃ new, collectPaths d complement paths path targetConst = some (paths ++ new) ∧
      new.Perm ((d.pathsTo (xor targetConst complement)).map (path ++ ·)) := by
  induction d with
  | one => exact absurd rfl hd
  | node index t e c iht ihe =>
    obtain ⟨-, -, -, hne, ht, he⟩ := h
    intro complement paths path targetConst
    have htarget : (if complement then !targetConst else targetConst) =
        xor targetConst complement := by
      cases complement <;> cases targetConst <;> rfl
    generalize xor targetConst complement = target at htarget
    have hmap : ∀ (b : Bool) (ps : List Path),
        (ps.map ((index, b) :: ·)).map (path ++ ·) = ps.map (path ++ [(index, b)] ++ ·) := by
      intro b ps
      simp [map_map, Function.comp_def]
    simp only [collectPaths, htarget, pathsTo, map_append, hmap]
    cases hce : isConstant e with
    | true =>
      obtain rfl := eq_one_of_isConstant hce
      cases hct : isConstant t with
      | true =>
        -- both children are one, so the second edge is complemented
        obtain rfl := eq_one_of_isConstant hct
        have hc : c = true := by
          rw [← Bool.not_eq_false]
          exact fun hc => hne ⟨rfl, hc⟩
        refine ⟨[path ++ [if target then (index, false) else (index, true)]], ?_, ?_⟩
        · simp
        · cases target <;> simp [pathsTo, hc]
      | false =>
        obtain ⟨new, hrun, hperm⟩ := iht ht (ne_one_of_isConstant hct) false
          (if target == !c then paths ++ [path ++ [(index, true)]] else paths)
          (path ++ [(index, false)]) target
        rw [Bool.xor_false] at hperm
        simp only [Bool.not_true, Bool.not_false, Bool.and_self, Bool.false_or, if_true,
          hrun]
        by_cases htc : (target == !c) = true
        · have hone : pathsTo .one (xor target c) = [[]] := by
            cases target <;> cases c <;> first | rfl | cases htc
          refine ⟨(path ++ [(index, true)]) :: new, ?_, ?_⟩
          · simp [htc]
          · rw [hone]
            simpa using (hperm.cons (path ++ [(index, true)])).trans
              (perm_append_singleton _ _).symm
        · have hone : pathsTo .one (xor target c) = [] := by
            cases target <;> cases c <;> first | rfl | exact absurd rfl htc
          refine ⟨new, ?_, ?_⟩
          · simp [htc]
          · simpa [hone] using hperm
    | false =>
      cases hct : isConstant t with
      | true =>
        obtain rfl := eq_one_of_isConstant hct
        obtain ⟨new, hrun, hperm⟩ := ihe he (ne_one_of_isConstant hce) c
          (if target then paths ++ [path ++ [(index, false)]] else paths)
          (path ++ [(index, true)]) target
        simp only [Bool.not_false, Bool.and_self, Bool.true_or, if_true, Bool.false_eq_true,
          if_false, hrun]
        cases target with
        | true => exact ⟨(path ++ [(index, false)]) :: new, by simp, by simpa [pathsTo] using hperm⟩
        | false => exact ⟨new, by simp, by simpa [pathsTo] using hperm⟩
      | false =>
        obtain ⟨new, hrun, hperm⟩ := iht ht (ne_one_of_isConstant hct) false paths
          (path ++ [(index, false)]) target
        obtain ⟨new', hrun', hperm'⟩ := ihe he (ne_one_of_isConstant hce) c (paths ++ new)
          (path ++ [(index, true)]) target
        rw [Bool.xor_false] at hperm
        refine ⟨new ++ new', ?_, hperm.append hperm'⟩
        simp [hrun, hrun']

theorem foldl_put_getElem? {i : ℕ} : ∀ (path : Path) (str : List Char), (path.map Prod.fst).Nodup →
    (∀ s ∈ path, s.1 < str.length) → (path.foldl put str)[i]? =
      if (i, true) ∈ path then some '0' else if (i, false) ∈ path then some '1' else str[i]? := by
  intro path
  induction path with
  | nil => simp
  | cons s path ih =>
    intro str hnodup hlt
    obtain ⟨j, b⟩ := s
    rw [map_cons, nodup_cons] at hnodup
    have hj : j < str.length := hlt (j, b) mem_cons_self
    rw [foldl_cons, ih (put str (j, b)) hnodup.2 (fun s hs => by
      rw [put, length_set]
      exact hlt s (mem_cons_of_mem _ hs))]
    by_cases hij : i = j
    · subst hij
      have hnot : ∀ b', (i, b') ∉ path := fun b' hmem => hnodup.1 (mem_map.mpr ⟨_, hmem, rfl⟩)
      cases b <;> simp [hnot, put, hj]
    · cases b <;> simp [hij, put, Ne.symm hij]

theorem covers_toString {K : CubeLibrary} (hK : K.Documented) (hn : n ≤ 32)
    (hnodup : (path.map Prod.fst).Nodup) (hlt : ∀ s ∈ path, s.1 < n) :
    K.covers (K.ofString (toString n path)) x ↔ Follows x path := by
  have hperm := path.mergeSort_perm (fun a b => decide (a.1 ≤ b.1))
  have hget : ∀ i, (toString n path)[i]? = if (i, true) ∈ path then some '0' else
      if (i, false) ∈ path then some '1' else (replicate n '-')[i]? := by
    intro i
    rw [toString, foldl_put_getElem?]
    · simp only [hperm.mem_iff]
    · exact (hperm.map Prod.fst).nodup_iff.mpr hnodup
    · intro s hs
      rw [length_replicate]
      exact hlt s (hperm.mem_iff.mp hs)
  have hlen : (toString n path).length = n := by
    have hfold : ∀ (p : Path) (str : List Char), (p.foldl put str).length = str.length := by
      intro p
      induction p with
      | nil => exact fun _ => rfl
      | cons s p ih => exact fun str => (ih _).trans length_set
    rw [toString, hfold, length_replicate]
  have hnotBoth : ∀ i, (i, true) ∈ path → (i, false) ∉ path := by
    intro i ht hf
    have := inj_on_of_nodup_map hnodup ht hf rfl
    cases this
  have hdash : ∀ (i : ℕ) (c : Char), (replicate n '-')[i]? = some c → c = '-' := by
    intro i c hc
    exact eq_of_mem_replicate (mem_of_getElem? hc)
  rw [hK.covers_ofString _ (Nat.le_trans (Nat.le_of_eq hlen) hn)]
  simp only [hget]
  constructor
  · intro h s hs
    obtain ⟨i, b⟩ := s
    cases b with
    | true => exact (h i).2 (if_pos hs)
    | false =>
      have hnot : (i, true) ∉ path := fun ht => hnotBoth i ht hs
      exact (h i).1 (by rw [if_neg hnot, if_pos hs])
  · intro h i
    by_cases ht : (i, true) ∈ path
    · simpa [ht] using h _ ht
    · by_cases hf : (i, false) ∈ path
      · simpa [ht, hf] using h _ hf
      · simp only [ht, hf, if_false]
        constructor
        · intro hc
          have := hdash i _ hc
          cases this
        · intro hc
          have := hdash i _ hc
          cases this

/-- The conversion is exact for every function but the constants. -/
theorem getDnf_exact_iff {K : CubeLibrary} (hK : K.Documented) (hn : n ≤ 32) (bdd : Bdd n) :
    Exact K bdd (getDnf K bdd) ↔ bdd.node ≠ .one := by
  constructor
  · intro hexact hone
    obtain ⟨cubes, hrun, -⟩ := hexact
    rw [getDnf, hone, collectPaths, Option.map_none] at hrun
    cases hrun
  · intro hne
    obtain ⟨paths, hrun, hperm⟩ := collectPaths_eq bdd.wellFormed hne bdd.complement [] [] true
    have hmem : ∀ path, path ∈ paths ↔ path ∈ bdd.node.pathsTo (xor true bdd.complement) := by
      intro path
      rw [hperm.mem_iff]
      simp
    have hcovers : ∀ path ∈ paths, ∀ x, K.covers (K.ofString (toString n path)) x ↔
        Follows x path := by
      intro path hpath x
      have hp := (hmem path).mp hpath
      exact covers_toString hK hn (bdd.wellFormed.nodup_path hp) fun s hs =>
        bdd.wellFormed.lt_of_mem (mem_support_of_path hp s hs)
    have hpart : paths.Pairwise Part := by
      refine (hperm.pairwise_iff Part.symm).mpr ?_
      exact ((pathsTo_pairwise bdd.node _).map _ fun p q h => h.append [])
    refine ⟨convertToCubes K n paths, ?_, ?_, fun x => ?_⟩
    · rw [getDnf, hrun, nil_append, Option.map_some]
    · rw [convertToCubes, pairwise_map]
      refine hpart.imp_of_mem (fun hp hq h x hboth => h.not_follows (x := x) ?_)
      exact ⟨(hcovers _ hp x).mp hboth.1, (hcovers _ hq x).mp hboth.2⟩
    · have hvalue : bdd.eval x = true ↔ bdd.node.eval x = xor true bdd.complement := by
        rw [Bdd.eval]
        cases bdd.node.eval x <;> cases bdd.complement <;> decide
      rw [hvalue, ← exists_path]
      constructor
      · rintro ⟨_, hmap, hx⟩
        obtain ⟨path, hpath, rfl⟩ := mem_map.mp hmap
        exact ⟨path, (hmem path).mp hpath, (hcovers path hpath x).mp hx⟩
      · rintro ⟨path, hpath, hx⟩
        have hmem' : path ∈ paths := (hmem path).mpr hpath
        exact ⟨_, mem_map_of_mem hmem', (hcovers path hmem' x).mpr hx⟩

def words : CubeLibrary where
  Cube := (Fin 32 → Bool) × (Fin 32 → Bool)
  ofString str := (fun i => str[i.val]? == some '1',
    fun i => str[i.val]? == some '1' || str[i.val]? == some '0')
  covers c x := ∀ i, c.2 i = true → x i = c.1 i

theorem words_documented : words.Documented := by
  constructor
  intro str hlen x
  constructor
  · intro h i
    have hi : ∀ c, str[i]? = some c → i < 32 := fun c hc =>
      Nat.lt_of_lt_of_le (List.getElem?_eq_some_iff.mp hc).1 hlen
    constructor
    · intro hc
      have := h ⟨i, hi _ hc⟩ (by simp [words, hc])
      simpa [words, hc] using this
    · intro hc
      have := h ⟨i, hi _ hc⟩ (by simp [words, hc])
      simpa [words, hc] using this
  · intro h i hmask
    have hboth : str[i.val]? = some '1' ∨ str[i.val]? = some '0' := by
      simpa [words] using hmask
    rcases hboth with hc | hc
    · simpa [words, hc] using (h i).1 hc
    · simpa [words, hc] using (h i).2 hc

/-- The conjunction of two variables. -/
theorem getDnf_exact_and : ∃ bdd : Bdd 2, bdd.node ≠ .one ∧ Exact words bdd (getDnf words bdd) :=
  have hne : Diagram.node 0 (.node 1 .one .one true) .one true ≠ .one := by simp
  ⟨⟨_, false, by simp [WellFormed, support]⟩, hne,
    (getDnf_exact_iff words_documented (by decide) _).mpr hne⟩

/-- The constant one. -/
theorem not_getDnf_exact_one : ¬ ∀ (K : CubeLibrary) (n : ℕ) (bdd : Bdd n), K.Documented → n ≤ 32 →
    Exact K bdd (getDnf K bdd) := by
  intro h
  obtain ⟨cubes, hrun, -⟩ := h words 0 ⟨.one, false, trivial⟩ words_documented (Nat.zero_le _)
  cases hrun

end BddToDnf

end UtopiaEda
