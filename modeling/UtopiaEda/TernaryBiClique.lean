import UtopiaEda.CommonCubes
import UtopiaEda.HittingSets
import UtopiaEda.SetBits

/-!
# Bi-cliques of cubes

For a cube of the onset, `findIndices` looks for the fewest variables that tell it from all cubes of
the offset. The variables in which it differs from a cube of the offset are a clause; the clauses
are kept in an ordered set, the superfluous ones are absorbed, and the others are multiplied out.
-/
namespace UtopiaEda
open List
open Option (bind_eq_bind bind_some)
open BitVec (getLsbD_and lt_def twoPow)

/-- The bits outside of the mask are zero. -/
def Cube.Valid (c : Cube) : Prop := c.bits &&& ~~~c.mask = 0#32

instance (c : Cube) : Decidable c.Valid := inferInstanceAs (Decidable (_ = _))

structure TernaryBiClique where
  onSet : SOP
  offSet : SOP
  onValid : ∀ c ∈ onSet, c.Valid
  offValid : ∀ c ∈ offSet, c.Valid

namespace TernaryBiClique

abbrev NormalForm := List (BitVec 32)

def NormalForm.insert (q : BitVec 32) : NormalForm → NormalForm
  | [] => [q]
  | p :: form => if q < p then q :: p :: form else if q = p then p :: form else p :: insert q form

/-- `merge` moves the elements that are not there. -/
def NormalForm.merge (form other : NormalForm) : NormalForm :=
  other.foldl (fun form q => form.insert q) form

/-- `__builtin_popcount`. -/
def popcount (q : BitVec 32) : ℕ := (range 32).countP (fun i => q.getLsbD i)

/-- The second `rhs.bits` stands for the mask. -/
def findCubeOrthogonality (lhs rhs : Cube) : BitVec 32 :=
  (lhs.bits &&& lhs.mask &&& rhs.mask) ^^^ (rhs.bits &&& lhs.mask &&& rhs.bits)

/-- The absorption of a clause: the position of the one that goes, and the clauses at which the
iterators stand behind it. -/
def absorbClause (cnf : NormalForm) (i j : ℕ) : Option (NormalForm × ℕ × ℕ) := do
  let p ← cnf[i]?
  let q ← cnf[j]?
  if p &&& q = q then
    let newI ← cnf[i + 1]?
    let newJ ← if i + 2 = cnf.length then cnf[j]? else cnf[i + 2]?
    let cnf := cnf.eraseIdx i
    some (cnf, cnf.idxOf newI, cnf.idxOf newJ)
  else
    let newJ ← if j + 1 = cnf.length then cnf[j]? else cnf[j + 1]?
    let cnf := cnf.eraseIdx j
    some (cnf, cnf.idxOf p, cnf.idxOf newJ)

/-- The body of the loop of the absorption law; iterators are positions, the end is the length. -/
def absorbStep (cnf : NormalForm) (i j : ℕ) : Option (NormalForm × ℕ × ℕ) := do
  let p ← cnf[i]?
  let q ← cnf[j]?
  let (cnf, i, j) ← if p &&& q = p ∨ p &&& q = q then absorbClause cnf i j else some (cnf, i, j + 1)
  if j = cnf.length ∧ i + 1 ≠ cnf.length then some (cnf, i + 1, i + 2) else some (cnf, i, j)

def absorbLoop : ℕ → NormalForm → ℕ → ℕ → Option NormalForm
  | 0, _, _, _ => none
  | n + 1, cnf, i, j =>
    if i + 1 = cnf.length then some cnf
    else do
      let (cnf, i, j) ← absorbStep cnf i j
      absorbLoop n cnf i j

/-- `multiplyDisjuncts` for a single variable. -/
def multiplyVariable (dnf : NormalForm) (disjunct : BitVec 32) : NormalForm :=
  dnf.foldl (fun newDNF conjunct => newDNF.insert (conjunct ||| disjunct)) []

def multiplyDisjuncts (dnf : NormalForm) (disjunct : BitVec 32) : NormalForm :=
  if popcount disjunct = 1 then multiplyVariable dnf disjunct
  else (SetBits.setBits disjunct).foldl (fun newDNF bit => newDNF.merge (multiplyVariable dnf bit))
    []

/-- `std::min_element` by the number of variables. -/
def minElement : NormalForm → Option (BitVec 32)
  | [] => none
  | q :: form => some (form.foldl (fun best q => if popcount q < popcount best then q else best) q)

def findIndices (T : TernaryBiClique) (vector : Cube) : Option (BitVec 32) := do
  let cnf := T.offSet.foldl (fun cnf v => NormalForm.insert (findCubeOrthogonality vector v) cnf) []
  let cnf ← absorbLoop ((cnf.length + 1) * (cnf.length + 3)) cnf 0 1
  let first ← cnf[0]?
  let dnf := (SetBits.setBits first).foldl (fun dnf bit => NormalForm.insert bit dnf) []
  minElement (cnf.tail.foldl multiplyDisjuncts dnf)

abbrev Coverage := SOP × BitVec 32

def getStarCoverage (T : TernaryBiClique) : Option (List Coverage) :=
  if T.onSet = [] ∨ T.offSet = [] then none
  else T.onSet.mapM (fun vector => (T.findIndices vector).map (fun vars => ([vector], vars)))

/-! ### Words as sets of variables -/

open HittingSets

variable {p q r : BitVec 32} {form cnf dnf : NormalForm} {i j v : ℕ}

def vars (q : BitVec 32) : Finset ℕ := (Finset.range 32).filter (fun i => q.getLsbD i = true)

def family (form : NormalForm) : Set (Finset ℕ) := {s | ∃ q ∈ form, s = vars q}

theorem mem_vars : v ∈ vars q ↔ q.getLsbD v = true := by
  rw [vars, Finset.mem_filter, Finset.mem_range, and_iff_right_iff_imp]
  intro h
  apply Nat.lt_of_not_le
  intro hle
  rw [BitVec.getLsbD_of_ge q v hle] at h
  cases h

theorem vars_injective (h : vars p = vars q) : p = q := by
  apply BitVec.eq_of_getLsbD_eq
  intro v _
  rw [Bool.eq_iff_iff, ← mem_vars, h, mem_vars]

theorem vars_or : vars (p ||| q) = vars p ∪ vars q := by
  ext v
  rw [Finset.mem_union, mem_vars, mem_vars, mem_vars, BitVec.getLsbD_or, Bool.or_eq_true]

theorem vars_twoPow (hv : v < 32) : vars (twoPow 32 v) = {v} := by
  ext u
  rw [mem_vars, BitVec.getLsbD_twoPow, Finset.mem_singleton, decide_eq_true hv, Bool.true_and,
    decide_eq_true_iff, eq_comm]

theorem card_vars : (vars q).card = popcount q := by
  rw [popcount, countP_eq_length_filter, vars, Finset.card_def, Finset.filter_val, Finset.range_val,
    Multiset.range, Multiset.filter_coe, Multiset.coe_card]
  simp only [Bool.decide_eq_true]

theorem and_eq_left_iff : p &&& q = p ↔ vars p ⊆ vars q := by
  constructor
  · intro h v hv
    rw [mem_vars, ← h, getLsbD_and, Bool.and_eq_true] at hv
    exact mem_vars.mpr hv.2
  · intro h
    apply vars_injective
    ext v
    rw [mem_vars, getLsbD_and, Bool.and_eq_true, ← mem_vars, ← mem_vars]
    exact ⟨fun hv => hv.1, fun hv => ⟨hv, h hv⟩⟩

theorem mem_setBits : r ∈ SetBits.setBits q ↔ ∃ v ∈ vars q, r = twoPow 32 v := by
  rw [SetBits.setBits_eq, mem_map]
  constructor
  · rintro ⟨v, hv, rfl⟩
    exact ⟨v, mem_vars.mpr (mem_filter.mp hv).2, rfl⟩
  · rintro ⟨v, hv, rfl⟩
    have hlt : v < 32 := Finset.mem_range.mp (Finset.mem_filter.mp hv).1
    exact ⟨v, mem_filter.mpr ⟨mem_range.mpr hlt, mem_vars.mp hv⟩, rfl⟩

/-! ### Ordered sets -/

theorem mem_insert : r ∈ form.insert q ↔ r = q ∨ r ∈ form := by
  induction form with
  | nil => rw [NormalForm.insert, mem_singleton, or_iff_left not_mem_nil]
  | cons p form ih =>
    rw [NormalForm.insert]
    split
    · rw [mem_cons]
    · split
      · rename_i h
        rw [h, mem_cons, or_self_left]
      · rw [mem_cons, ih, mem_cons, or_left_comm]

theorem mem_foldl_insert {α : Type} (f : α → BitVec 32) (xs : List α) :
    r ∈ xs.foldl (fun form x => NormalForm.insert (f x) form) form ↔ r ∈ form ∨ ∃ x ∈ xs,
    r = f x := by
  induction xs generalizing form with
  | nil => simp
  | cons x xs ih =>
    rw [foldl_cons, ih, mem_insert]
    simp only [mem_cons, exists_eq_or_imp]
    rw [or_assoc, or_left_comm]

theorem sorted_insert (h : form.Pairwise (· < ·)) : (form.insert q).Pairwise (· < ·) := by
  induction form with
  | nil => exact pairwise_singleton _ _
  | cons p form ih =>
    rw [NormalForm.insert]
    split
    · rename_i hlt
      refine pairwise_cons.mpr ⟨fun r hr => ?_, h⟩
      rcases mem_cons.mp hr with rfl | hr
      · exact hlt
      · exact BitVec.lt_trans hlt (rel_of_pairwise_cons h hr)
    · split
      · exact h
      · rename_i hnlt hne
        refine pairwise_cons.mpr ⟨fun r hr => ?_, ih h.of_cons⟩
        rcases mem_insert.mp hr with rfl | hr
        · exact lt_def.mpr (Nat.lt_of_le_of_ne (BitVec.le_def.mp (BitVec.not_lt.mp hnlt))
            (fun heq => hne (BitVec.eq_of_toNat_eq heq.symm)))
        · exact rel_of_pairwise_cons h hr

theorem sorted_foldl_insert {α : Type} (f : α → BitVec 32) (xs : List α)
    (h : form.Pairwise (· < ·)) :
    (xs.foldl (fun form x => NormalForm.insert (f x) form) form).Pairwise (· < ·) := by
  induction xs generalizing form with
  | nil => exact h
  | cons x xs ih => exact ih (sorted_insert h)

/-! ### Multiplying out -/

theorem mem_multiplyVariable : r ∈ multiplyVariable dnf q ↔ ∃ c ∈ dnf, r = c ||| q := by
  rw [multiplyVariable, mem_foldl_insert (fun c => c ||| q), or_iff_right not_mem_nil]

private theorem mem_foldl_merge (bits : List (BitVec 32)) :
    r ∈ bits.foldl (fun newDNF bit => NormalForm.merge newDNF (multiplyVariable dnf bit)) form ↔
      r ∈ form ∨ ∃ bit ∈ bits, ∃ c ∈ dnf, r = c ||| bit := by
  induction bits generalizing form with
  | nil => simp
  | cons bit bits ih =>
    rw [foldl_cons, ih, NormalForm.merge, mem_foldl_insert (fun q => q)]
    simp only [mem_cons, exists_eq_or_imp, exists_eq_right', mem_multiplyVariable]
    rw [or_assoc]

theorem mem_multiplyDisjuncts :
    r ∈ multiplyDisjuncts dnf q ↔ ∃ c ∈ dnf, ∃ v ∈ vars q, r = c ||| twoPow 32 v := by
  rw [multiplyDisjuncts]
  split
  · rename_i hone
    rw [← card_vars, Finset.card_eq_one] at hone
    obtain ⟨v, hv⟩ := hone
    have hlt : v < 32 := by
      have hmem : v ∈ vars q := by rw [hv]; exact Finset.mem_singleton_self v
      exact Finset.mem_range.mp (Finset.mem_filter.mp hmem).1
    have hq : q = twoPow 32 v := vars_injective (by rw [hv, vars_twoPow hlt])
    rw [mem_multiplyVariable, hv, hq]
    simp only [Finset.mem_singleton, exists_eq_left]
  · rw [mem_foldl_merge, or_iff_right not_mem_nil]
    simp only [mem_setBits]
    constructor
    · rintro ⟨bit, ⟨v, hv, rfl⟩, c, hc, rfl⟩
      exact ⟨c, hc, v, hv, rfl⟩
    · rintro ⟨c, hc, v, hv, rfl⟩
      exact ⟨_, ⟨v, hv, rfl⟩, c, hc, rfl⟩

theorem family_multiplyDisjuncts :
    family (multiplyDisjuncts dnf q) = product (family dnf) (vars q) := by
  ext s
  constructor
  · rintro ⟨r, hr, rfl⟩
    obtain ⟨c, hc, v, hv, rfl⟩ := mem_multiplyDisjuncts.mp hr
    have hlt : v < 32 := Finset.mem_range.mp (Finset.mem_filter.mp hv).1
    exact ⟨vars c, ⟨c, hc, rfl⟩, v, hv, by rw [vars_or, vars_twoPow hlt, Finset.union_comm,
      Finset.insert_eq]⟩
  · rintro ⟨d, ⟨c, hc, rfl⟩, v, hv, rfl⟩
    have hlt : v < 32 := Finset.mem_range.mp (Finset.mem_filter.mp hv).1
    exact ⟨c ||| twoPow 32 v, mem_multiplyDisjuncts.mpr ⟨c, hc, v, hv, rfl⟩,
      by rw [vars_or, vars_twoPow hlt, Finset.union_comm, Finset.insert_eq]⟩

theorem family_cons : family (q :: form) = insert (vars q) (family form) := by
  ext s
  simp only [family, Set.mem_ofPred_eq, mem_cons, exists_eq_or_imp, Set.mem_insert_iff]

theorem expands_foldl {F : Set (Finset ℕ)} (h : Expands (family dnf) F) (form : NormalForm) :
    Expands (family (form.foldl multiplyDisjuncts dnf)) (F ∪ family form) := by
  induction form generalizing dnf F with
  | nil =>
    have hempty : F ∪ family [] = F := by
      rw [Set.union_eq_left]
      rintro s ⟨q, hq, -⟩
      cases hq
    rw [hempty]
    exact h
  | cons q form ih =>
    have hproduct : Expands (family (multiplyDisjuncts dnf q)) (insert (vars q) F) := by
      rw [family_multiplyDisjuncts]
      exact h.product (vars q)
    have hstep := ih hproduct
    rwa [family_cons, Set.union_insert, ← Set.insert_union]

theorem expands_first : Expands
    (family ((SetBits.setBits q).foldl (fun dnf bit => dnf.insert bit) [])) {vars q} := by
  have hfamily : family ((SetBits.setBits q).foldl (fun dnf bit => dnf.insert bit) []) =
      {e | ∃ v ∈ vars q, e = {v}} := by
    ext s
    simp only [family, Set.mem_ofPred_eq, mem_foldl_insert (fun bit => bit), not_mem_nil, false_or,
      exists_eq_right', mem_setBits]
    constructor
    · rintro ⟨r, ⟨v, hv, rfl⟩, rfl⟩
      exact ⟨v, hv, vars_twoPow (Finset.mem_range.mp (Finset.mem_filter.mp hv).1)⟩
    · rintro ⟨v, hv, rfl⟩
      exact ⟨_, ⟨v, hv, rfl⟩, (vars_twoPow (Finset.mem_range.mp (Finset.mem_filter.mp hv).1)).symm⟩
  rw [hfamily]
  exact Expands.one (vars q)

theorem minElement_spec (hne : form ≠ []) :
    ∃ r ∈ form, minElement form = some r ∧ ∀ q ∈ form, popcount r ≤ popcount q := by
  obtain ⟨q, form, rfl⟩ := exists_cons_of_ne_nil hne
  have hfold : ∀ (form : NormalForm) (best : BitVec 32),
      form.foldl (fun best q => if popcount q < popcount best then q else best) best ∈
      best :: form ∧
        ∀ q ∈ best :: form, popcount (form.foldl (fun best q => if popcount q < popcount best then
        q else best) best) ≤
          popcount q := by
    intro form
    induction form with
    | nil => exact fun best =>
        ⟨mem_singleton_self best, fun q hq => by rw [mem_singleton.mp hq]; rfl⟩
    | cons p form ih =>
      intro best
      rw [foldl_cons]
      obtain ⟨hmem, hle⟩ := ih (if popcount p < popcount best then p else best)
      have hbest : popcount (if popcount p < popcount best then p else best) ≤ popcount best ∧
          popcount (if popcount p < popcount best then p else best) ≤ popcount p := by
        split
        · rename_i hlt
          exact ⟨Nat.le_of_lt hlt, Nat.le_refl _⟩
        · rename_i hnlt
          exact ⟨Nat.le_refl _, Nat.not_lt.mp hnlt⟩
      have hfirst := hle _ mem_cons_self
      refine ⟨?_, fun q hq => ?_⟩
      · rcases mem_cons.mp hmem with h | h
        · rw [h]
          split <;> simp
        · exact mem_cons_of_mem best (mem_cons_of_mem p h)
      · rcases mem_cons.mp hq with rfl | hq
        · exact hfirst.trans hbest.1
        · rcases mem_cons.mp hq with rfl | hq
          · exact hfirst.trans hbest.2
          · exact hle q (mem_cons_of_mem _ hq)
  exact ⟨_, (hfold form q).1, rfl, (hfold form q).2⟩

/-! ### The absorption law -/

/-- The first iterator stands at the last clause, or the second one behind the first. -/
structure Absorbing (cnf : NormalForm) (i j : ℕ) : Prop where
  sorted : cnf.Pairwise (· < ·)
  lt : i < cnf.length
  place : i + 1 = cnf.length ∨ i < j ∧ j < cnf.length

def turns (bound : ℕ) (cnf : NormalForm) (i j : ℕ) : ℕ :=
  (cnf.length - i) * bound + (cnf.length - j)

theorem nodup_of_sorted (h : cnf.Pairwise (· < ·)) : cnf.Nodup := by
  apply h.imp
  rintro p q hlt rfl
  exact Nat.lt_irrefl _ (lt_def.mp hlt)

/-- No clause behind another one is contained in it. -/
theorem not_and_eq_of_lt (h : p < q) : ¬ p &&& q = q := by
  intro heq
  have hle : (p &&& q).toNat ≤ p.toNat := by
    rw [BitVec.toNat_and]
    exact Nat.and_le_left
  rw [heq] at hle
  exact Nat.not_lt.mpr hle (lt_def.mp h)

private theorem idxOf_of_getElem? {l : NormalForm} (hnd : l.Nodup) {k : ℕ} (h : l[k]? = some q) :
    l.idxOf q = k := by
  obtain ⟨hk, rfl⟩ := List.getElem?_eq_some_iff.mp h
  exact hnd.idxOf_getElem k hk

theorem absorbed_eraseIdx (hp : cnf[i]? = some p) (hq : cnf[j]? = some q) (hij : i ≠ j)
    (hsub : vars p ⊆ vars q) : Absorbed (family cnf) (family (cnf.eraseIdx j)) := by
  constructor
  · rintro s ⟨r, hr, rfl⟩
    exact ⟨r, mem_of_mem_eraseIdx hr, rfl⟩
  · rintro s ⟨r, hr, rfl⟩
    obtain ⟨k, hk, rfl⟩ := mem_iff_getElem.mp hr
    obtain ⟨hi, rfl⟩ := List.getElem?_eq_some_iff.mp hp
    obtain ⟨hj, rfl⟩ := List.getElem?_eq_some_iff.mp hq
    by_cases hkj : k = j
    · subst hkj
      exact ⟨_, ⟨cnf[i], mem_eraseIdx_iff_getElem.mpr ⟨i, hi, hij, rfl⟩, rfl⟩, hsub⟩
    · exact ⟨_, ⟨cnf[k], mem_eraseIdx_iff_getElem.mpr ⟨k, hk, hkj, rfl⟩, rfl⟩, subset_rfl⟩

/-- The iterators stay where they are when a clause goes. -/
theorem absorbClause_eq (h : cnf.Pairwise (· < ·)) (hij : i < j) (hj : j < cnf.length) :
    absorbClause cnf i j = some (cnf.eraseIdx j, i, j) := by
  have hi : i < cnf.length := Nat.lt_trans hij hj
  have hnd := nodup_of_sorted h
  have herase := (eraseIdx_sublist cnf j).nodup hnd
  have hnot := not_and_eq_of_lt (pairwise_iff_getElem.mp h i j hi hj hij)
  have hfirst : (cnf.eraseIdx j).idxOf cnf[i] = i :=
    idxOf_of_getElem? herase (by rw [getElem?_eraseIdx_of_lt hij, getElem?_eq_getElem hi])
  simp only [absorbClause, getElem?_eq_getElem hi, getElem?_eq_getElem hj, bind_eq_bind,
    bind_some, if_neg hnot, hfirst]
  by_cases hlast : j + 1 = cnf.length
  · have hgone : cnf[j] ∉ cnf.eraseIdx j := by
      intro hmem
      obtain ⟨k, hk, hkj, heq⟩ := mem_eraseIdx_iff_getElem.mp hmem
      exact hkj ((hnd.getElem_inj_iff).mp heq)
    have hend : (cnf.eraseIdx j).idxOf cnf[j] = j := by
      rw [idxOf_eq_length hgone, length_eraseIdx_of_lt hj]
      omega
    simp only [if_pos hlast, hend]
  · have hnext : j + 1 < cnf.length := by omega
    have hend : (cnf.eraseIdx j).idxOf cnf[j + 1] = j :=
      idxOf_of_getElem? herase (by rw [getElem?_eraseIdx_of_ge (Nat.le_refl j),
        getElem?_eq_getElem hnext])
    simp only [if_neg hlast, getElem?_eq_getElem hnext, bind_some, hend]

private theorem turns_lt {bound a a' b b' : ℕ} (ha : a' < a) (hb : b' < bound) :
    a' * bound + b' < a * bound + b := by
  have hle : (a' + 1) * bound ≤ a * bound := Nat.mul_le_mul_right bound ha
  rw [Nat.add_mul, Nat.one_mul] at hle
  omega

theorem absorbStep_spec {bound : ℕ} (h : Absorbing cnf i j) (hbound : cnf.length < bound)
    (hi : i + 1 ≠ cnf.length) : ∃ cnf' i' j', absorbStep cnf i j = some (cnf', i', j') ∧
    Absorbing cnf' i' j' ∧
      Absorbed (family cnf) (family cnf') ∧ cnf'.length ≤ cnf.length ∧ turns bound cnf' i' j' <
      turns bound cnf i j := by
  obtain ⟨hij, hj⟩ := h.place.resolve_left hi
  have hlt := h.lt
  simp only [absorbStep, getElem?_eq_getElem hlt, getElem?_eq_getElem hj, bind_eq_bind,
    bind_some]
  by_cases habsorb : cnf[i] &&& cnf[j] = cnf[i] ∨ cnf[i] &&& cnf[j] = cnf[j]
  · have hlen : (cnf.eraseIdx j).length = cnf.length - 1 := length_eraseIdx_of_lt hj
    have hnot := not_and_eq_of_lt (pairwise_iff_getElem.mp h.sorted i j hlt hj hij)
    have hsub : vars cnf[i] ⊆ vars cnf[j] := and_eq_left_iff.mp (habsorb.resolve_right hnot)
    have hsorted := h.sorted.sublist (eraseIdx_sublist cnf j)
    have hab := absorbed_eraseIdx (getElem?_eq_getElem hlt) (getElem?_eq_getElem hj)
      (Nat.ne_of_lt hij) hsub
    simp only [if_pos habsorb, absorbClause_eq h.sorted hij hj, bind_some]
    by_cases hwrap : j = (cnf.eraseIdx j).length ∧ i + 1 ≠ (cnf.eraseIdx j).length
    · rw [if_pos hwrap]
      refine ⟨_, _, _, rfl, ⟨hsorted, by omega, by omega⟩, hab, by omega, ?_⟩
      exact turns_lt (by omega) (by omega)
    · rw [if_neg hwrap]
      refine ⟨_, _, _, rfl, ⟨hsorted, by omega, by omega⟩, hab, by omega, ?_⟩
      exact turns_lt (by omega) (by omega)
  · simp only [if_neg habsorb]
    by_cases hwrap : j + 1 = cnf.length ∧ i + 1 ≠ cnf.length
    · rw [if_pos hwrap]
      refine ⟨_, _, _, rfl, ⟨h.sorted, by omega, by omega⟩, Absorbed.refl _, Nat.le_refl _, ?_⟩
      exact turns_lt (by omega) (by omega)
    · rw [if_neg hwrap]
      refine ⟨_, _, _, rfl, ⟨h.sorted, hlt, by omega⟩, Absorbed.refl _, Nat.le_refl _, ?_⟩
      rw [turns, turns]
      omega

theorem absorbLoop_spec {bound n : ℕ} (h : Absorbing cnf i j) (hbound : cnf.length < bound)
    (hn : turns bound cnf i j < n) : ∃ cnf', absorbLoop n cnf i j = some cnf' ∧ cnf' ≠ [] ∧
    Absorbed (family cnf) (family cnf') := by
  induction n generalizing cnf i j with
  | zero => exact absurd hn (Nat.not_lt_zero _)
  | succ n ih =>
    rw [absorbLoop]
    by_cases hi : i + 1 = cnf.length
    · rw [if_pos hi]
      refine ⟨cnf, rfl, ?_, Absorbed.refl _⟩
      rintro rfl
      exact absurd h.lt (Nat.not_lt_zero i)
    · rw [if_neg hi]
      obtain ⟨cnf₁, i₁, j₁, hstep, h₁, hab, hlen, hturns⟩ := absorbStep_spec h hbound hi
      obtain ⟨cnf', hloop, hne, hab'⟩ := ih h₁ (by omega) (by omega)
      refine ⟨cnf', ?_, hne, hab.trans hab'⟩
      rw [hstep]
      exact hloop

/-! ### The variables that are found -/

def conflict (lhs rhs : Cube) : BitVec 32 := (lhs.bits ^^^ rhs.bits) &&& lhs.mask &&& rhs.mask

/-- Of a valid cube the bits say as much as the bits under the mask. -/
theorem findCubeOrthogonality_eq (lhs : Cube) {rhs : Cube} (hr : rhs.Valid) :
    findCubeOrthogonality lhs rhs = conflict lhs rhs := by
  apply BitVec.eq_of_getLsbD_eq
  intro v hv
  have hbit := congrArg (fun q => q.getLsbD v) hr
  simp only [getLsbD_and, BitVec.getLsbD_not, decide_eq_true hv, Bool.true_and,
    BitVec.getLsbD_zero] at hbit
  simp only [findCubeOrthogonality, conflict, getLsbD_and, BitVec.getLsbD_xor]
  revert hbit
  cases lhs.bits.getLsbD v <;> cases rhs.bits.getLsbD v <;> cases lhs.mask.getLsbD v <;>
    cases rhs.mask.getLsbD v <;> decide

/-- Every cube of the onset conflicts with every cube of the offset. -/
def Orthogonal (T : TernaryBiClique) : Prop :=
  ∀ u ∈ T.onSet, ∀ w ∈ T.offSet, ∃ v, v ∈ vars (conflict u w)

def clauses (T : TernaryBiClique) (vector : Cube) : Set (Finset ℕ) :=
  {s | ∃ w ∈ T.offSet, s = vars (conflict vector w)}

variable {T : TernaryBiClique} {vector : Cube}

/-- The first cover and the clauses of the others, multiplied out. -/
theorem exists_minElement (hne : cnf ≠ []) (hhit : ∃ t, Hits t (family cnf)) :
    ∃ first r, cnf[0]? = some first ∧
    minElement (cnf.tail.foldl multiplyDisjuncts
    ((SetBits.setBits first).foldl (fun dnf bit => dnf.insert bit) [])) = some r ∧
      IsMinimum (vars r) (family cnf) := by
  obtain ⟨first, rest, rfl⟩ := exists_cons_of_ne_nil hne
  have hexp := expands_foldl (expands_first (q := first)) rest
  rw [Set.singleton_union, ← family_cons] at hexp
  obtain ⟨t, ht⟩ := hhit
  obtain ⟨d, ⟨q, hq, -⟩, -⟩ := hexp.below t ht
  obtain ⟨r, hr, hmin, hle⟩ := minElement_spec (ne_nil_of_mem hq)
  refine ⟨first, r, rfl, hmin, hexp.minimum ⟨r, hr, rfl⟩ ?_⟩
  rintro d ⟨q, hq, rfl⟩
  rw [card_vars, card_vars]
  exact hle q hq

theorem exists_findIndices (h : T.Orthogonal) (hne : T.offSet ≠ []) (hv : vector ∈ T.onSet) :
    ∃ r, T.findIndices vector = some r ∧ IsMinimum (vars r) (T.clauses vector) := by
  obtain ⟨cnf, hcnf⟩ : ∃ cnf, cnf =
    T.offSet.foldl (fun cnf v => NormalForm.insert (findCubeOrthogonality vector v) cnf) [] :=
    ⟨_, rfl⟩
  have hmem : ∀ q, q ∈ cnf ↔ ∃ w ∈ T.offSet, q = conflict vector w := by
    intro q
    rw [hcnf, mem_foldl_insert (findCubeOrthogonality vector), or_iff_right not_mem_nil]
    constructor
    · rintro ⟨w, hw, rfl⟩
      exact ⟨w, hw, findCubeOrthogonality_eq vector (T.offValid w hw)⟩
    · rintro ⟨w, hw, rfl⟩
      exact ⟨w, hw, (findCubeOrthogonality_eq vector (T.offValid w hw)).symm⟩
  have hfamily : family cnf = T.clauses vector := by
    ext s
    constructor
    · rintro ⟨q, hq, rfl⟩
      obtain ⟨w, hw, rfl⟩ := (hmem q).mp hq
      exact ⟨w, hw, rfl⟩
    · rintro ⟨w, hw, rfl⟩
      exact ⟨_, (hmem _).mpr ⟨w, hw, rfl⟩, rfl⟩
  have hsorted : cnf.Pairwise (· < ·) := hcnf ▸ sorted_foldl_insert _ T.offSet List.Pairwise.nil
  have hpos : 0 < cnf.length := by
    obtain ⟨w, ws, hw⟩ := exists_cons_of_ne_nil hne
    exact length_pos_of_mem ((hmem _).mpr ⟨w, hw ▸ mem_cons_self, rfl⟩)
  have hturns : turns (cnf.length + 2) cnf 0 1 < (cnf.length + 1) * (cnf.length + 3) := by
    rw [turns, Nat.sub_zero, Nat.add_mul, Nat.mul_add, Nat.mul_add]
    omega
  obtain ⟨cnf', hloop, hne', hab⟩ := absorbLoop_spec ⟨hsorted, hpos, by omega⟩ (by omega) hturns
  -- all variables together hit the clauses
  have hhit : ∃ t, Hits t (family cnf') := by
    refine ⟨Finset.range 32, hab.hits_iff.mpr ?_⟩
    rw [hfamily]
    rintro s ⟨w, hw, rfl⟩
    obtain ⟨v, hv⟩ := h vector hv w hw
    exact ⟨v, hv, (Finset.mem_filter.mp hv).1⟩
  obtain ⟨first, r, hfirst, hmin, hminimum⟩ := exists_minElement hne' hhit
  refine ⟨r, ?_, hfamily ▸ hab.minimum hminimum⟩
  simp only [findIndices, ← hcnf, hloop, hfirst, bind_eq_bind, bind_some]
  exact hmin

private theorem exists_getStarCoverage (h : T.Orthogonal) (hon : T.onSet ≠ [])
    (hoff : T.offSet ≠ []) : ∃ coverage, T.getStarCoverage = some coverage ∧
    List.Forall₂ (fun vector c => T.findIndices vector = some c.2 ∧
      c.1 = [vector] ∧ IsMinimum (vars c.2) (T.clauses vector)) T.onSet coverage := by
  have hall : ∀ vectors : SOP, vectors ⊆ T.onSet → ∃ coverage : List Coverage,
      vectors.mapM (fun vector => (T.findIndices vector).map (fun vars => ([vector], vars))) =
      some coverage ∧
        List.Forall₂ (fun vector c => T.findIndices vector = some c.2 ∧ c.1 = [vector] ∧
          IsMinimum (vars c.2) (T.clauses vector)) vectors coverage := by
    intro vectors
    induction vectors with
    | nil => exact fun _ => ⟨[], rfl, .nil⟩
    | cons vector vectors ih =>
      intro hsub
      obtain ⟨r, hr, hmin⟩ := exists_findIndices h hoff (hsub mem_cons_self)
      obtain ⟨coverage, hmap, hrest⟩ := ih (fun u hu => hsub (mem_cons_of_mem vector hu))
      refine ⟨([vector], r) :: coverage, ?_, .cons ⟨hr, rfl, hmin⟩ hrest⟩
      rw [mapM_cons, hr, hmap]
      rfl
  rw [getStarCoverage, if_neg (not_or.mpr ⟨hon, hoff⟩)]
  exact hall T.onSet (List.Subset.refl _)

/-- For covers that are orthogonal, the search finds a minimum hitting set of the clauses of each
cube. -/
theorem findIndices_minimum (T : TernaryBiClique) (h : T.Orthogonal) (hoff : T.offSet ≠ []) :
    (∀ vector ∈ T.onSet, ∃ r, T.findIndices vector = some r ∧
      IsMinimum (vars r) (T.clauses vector)) ∧
      (T.onSet ≠ [] → ∃ coverage, T.getStarCoverage = some coverage ∧ List.Forall₂ (fun vector c =>
        T.findIndices vector = some c.2 ∧ c.1 = [vector] ∧ IsMinimum (vars c.2) (T.clauses vector))
          T.onSet coverage) :=
  ⟨fun _ hv => exists_findIndices h hoff hv, fun hon => exists_getStarCoverage h hon hoff⟩

def conjunction : TernaryBiClique :=
  ⟨[⟨3#32, 3#32⟩], [⟨0#32, 1#32⟩, ⟨0#32, 2#32⟩], by decide, by decide⟩

theorem findIndices_minimum_conjunction :
    ∃ r, conjunction.findIndices ⟨3#32, 3#32⟩ = some r ∧
    IsMinimum (vars r) (conjunction.clauses ⟨3#32, 3#32⟩) := by
  refine (findIndices_minimum conjunction (fun u hu w hw => ?_) (cons_ne_nil _ _)).1 ⟨3#32,
    3#32⟩ mem_cons_self
  rw [mem_singleton.mp hu]
  rcases mem_cons.mp hw with rfl | hw
  · exact ⟨0, mem_vars.mpr (by decide)⟩
  · rw [mem_singleton.mp hw]
    exact ⟨1, mem_vars.mpr (by decide)⟩

end TernaryBiClique

end UtopiaEda
