import UtopiaEda.ReedMullerPolarities

/-!
# The networks of Reed-Muller polynomials

The first call of an object builds the network of its table. Later calls append the table to the
polynomial that the first one left behind.
-/
namespace UtopiaEda.Synthesizer.ReedMuller

open List
open Option (bind_eq_bind bind_some)
open ProductSums

variable {n m i : ℕ} {P pol : ℕ → Bool} {f : TruthTable n} {metric : Polynomial → UInt64}
  {r r' : ReedMuller}

/-! ### The best polarity -/

structure Walked (f : TruthTable n) (metric : Polynomial → UInt64) (m : ℕ) (w : Walk) : Prop where
  current : ∃ P, w.polynomial = coded n P ∧ Expands f P (toggles m)
  best : ∃ P, w.optimum = coded n P ∧ Expands f P (toggles (if w.flag then 0 else w.version + 1))
  step : (if w.flag then 0 else w.version + 1) < 2 ^ n
  least : w.minMetric ≤ metric w.polynomial

theorem Walked.walk {w : Walk} (h : Walked f metric i w) (h31 : n < 31) (hi : i < 2 ^ n) :
    ∃ w', w.step metric i = some w' ∧ Walked f metric (i + 1) w' := by
  obtain ⟨P, hP, hcurrent⟩ := h.current
  obtain ⟨p, Q, hp, hchange, hQ, hlast⟩ := hcurrent.changePolarity h31 hi
  by_cases hless : metric (coded n Q) < w.minMetric
  · refine ⟨⟨coded n Q, metric (coded n Q), coded n Q, i, false⟩, ?_, ⟨Q, rfl, hQ⟩, ⟨Q, rfl, hQ⟩,
      ?_, Std.le_refl _⟩
    · rw [Walk.step, hp, hP]
      simp only [bind_eq_bind, bind_some, hchange, if_pos hless]
    · -- the last step leaves the polynomial as it is
      by_contra hge
      have heq : i + 1 = 2 ^ n := Nat.le_antisymm hi (Nat.not_lt.mp hge)
      rw [hlast heq, ← hP] at hless
      exact absurd h.least (UInt64.not_le.mpr hless)
  · refine ⟨{ w with polynomial := coded n Q }, ?_, ⟨Q, rfl, hQ⟩, h.best, h.step,
      UInt64.not_lt.mp hless⟩
    rw [Walk.step, hp, hP]
    simp only [bind_eq_bind, bind_some, hchange, if_neg hless]

theorem Walked.run {w : Walk} (h : Walked f metric 0 w) (h31 : n < 31) (hm : m ≤ 2 ^ n) :
    ∃ w', (range m).foldlM (Walk.step metric) w = some w' ∧ Walked f metric m w' := by
  induction m with
  | zero => exact ⟨w, rfl, h⟩
  | succ m ih =>
    obtain ⟨w₁, hrun, h₁⟩ := ih (Nat.le_of_succ_le hm)
    obtain ⟨w₂, hstep, h₂⟩ := h₁.walk h31 hm
    refine ⟨w₂, ?_, h₂⟩
    rw [range_succ, foldlM_append, hrun, bind_eq_bind, bind_some, foldlM_cons, hstep]
    rfl

theorem getPolarized_eq (metric : Polynomial → UInt64) (h : Expands f P (fun _ => false))
    (h31 : n < 31) : ∃ Q step, getPolarized metric (coded n P) = some (coded n Q, step) ∧
    step < 2 ^ n ∧ Expands f Q (toggles step) := by
  have hstart : Walked f metric 0 ⟨coded n P, metric (coded n P), coded n P, 0, true⟩ :=
    ⟨⟨P, rfl, h⟩, ⟨P, rfl, h⟩, Nat.two_pow_pos n, Std.le_refl _⟩
  obtain ⟨w, hrun, hw⟩ := hstart.run h31 (Nat.le_refl _)
  obtain ⟨Q, hQ, hbest⟩ := hw.best
  refine ⟨Q, _, ?_, hw.step, hbest⟩
  rw [getPolarized, coded_length, hrun, ← hQ]
  rfl

/-- The loop that computes the polarity of a step again. -/
theorem toggles_run (h31 : n < 31) (hm : m < 2 ^ n) : ∃ polarized : Polarization,
    (range m).foldlM (fun (polarized : Polarization) i => do
      let p ← firstOnePos i
      some (polarized.set p !(← polarized[p]?))) (.replicate n false) = some polarized ∧
    ∀ k < n, polarized[k]? = some (toggles m k) := by
  induction m with
  | zero =>
    refine ⟨.replicate n false, rfl, fun k hk => ?_⟩
    rw [getElem?_replicate, if_pos hk]
    rfl
  | succ m ih =>
    obtain ⟨polarized, hrun, hpol⟩ := ih (Nat.lt_of_succ_lt hm)
    obtain ⟨p, hp, -, hlt, -⟩ := firstOnePos_eq h31 (Nat.lt_of_succ_lt hm)
    refine ⟨polarized.set p !(toggles m p), ?_, fun k hk => ?_⟩
    · rw [range_succ, foldlM_append, hrun]
      simp only [bind_eq_bind, bind_some, foldlM_cons, foldlM_nil, hp, hpol p (hlt hm)]
      rfl
    · rw [toggles_succ hp]
      have hk' := hpol k hk
      by_cases hpk : p = k
      · subst hpk
        rw [Function.update_self, getElem?_set_self (List.getElem?_eq_some_iff.mp hk').1]
      · rw [Function.update_of_ne (Ne.symm hpk), getElem?_set_ne hpk, hk']

theorem expand_eq (f : TruthTable n) (hr : r.polynomial = []) (h31 : n < 31) :
    ∃ r' P pol polarization, r.expand f = some (r', coded n P, polarization) ∧
    (∀ k < n, polarization[k]? = some (pol k)) ∧ Expands f P pol := by
  obtain ⟨P, hrun, hP⟩ := polarize_expands f h31
  cases hmetric : r.currentMetricFunction with
  | none =>
    refine ⟨{ r with polynomial := coded n P }, P, _, .replicate (2 ^ n) false, ?_,
      fun k hk => ?_, hP⟩
    · rw [expand, hr, nil_append, hmetric]
      change (foldlM polarize (coded n f.get_bit) (range n)).bind _ = _
      rw [hrun]
      simp only [bind_some, coded_length, bind_eq_bind]
    · rw [getElem?_replicate, if_pos (Nat.lt_trans hk Nat.lt_two_pow_self)]
  | some metric =>
    obtain ⟨Q, step, hwalk, hstep, hQ⟩ := getPolarized_eq metric hP h31
    obtain ⟨polarized, hloop, hpol⟩ := toggles_run h31 hstep
    refine ⟨{ r with polynomial := coded n Q }, Q, toggles step, polarized, ?_, hpol, hQ⟩
    rw [expand, hr, nil_append, hmetric]
    change (foldlM polarize (coded n f.get_bit) (range n)).bind _ = _
    rw [hrun]
    simp only [bind_some, bind_eq_bind, getOptimal, hwalk] at hloop ⊢
    rw [hloop]
    rfl

/-! ### Runs of an object -/

structure Call where
  n : ℕ
  func : TruthTable n
  maxArity : UInt16

def Always (p : ReedMuller → Call → Prop) : ReedMuller → List Call → Prop
  | _, [] => True
  | r, c :: cs => p r c ∧ ∀ r' S, r.synthesize c.func c.maxArity = some (r', S) → Always p r' cs

/-- The polynomial with its polarity, and the network, have the values of the table. -/
def Right (r : ReedMuller) (c : Call) : Prop :=
  ∃ r' result S, r.expand c.func = some (r', result) ∧ r.synthesize c.func c.maxArity =
    some (r', S) ∧ (∃ pol : ℕ → Bool, (∀ k < c.n, result.2[k]? = some (pol k)) ∧
      ∀ x, ProductSums.polynomial c.n (fun i => decide (result.1.getD i 0 ≠ 0))
      (fun k => xor (x k) (pol k)) = c.func.value x) ∧
    Realizes S c.func

def Meets (r : ReedMuller) (c : Call) : Prop :=
  r.polynomial = [] ∧ c.n < 31 ∧ (c.func ≠ 0#(2 ^ c.n) ∨ c.n = 2)

theorem polynomial_coded (lit : ℕ → Bool) :
    ProductSums.polynomial n (fun i => decide ((coded n P).getD i 0 ≠ 0)) lit =
    ProductSums.polynomial n P lit := by
  rw [polynomial_eq, polynomial_eq]
  refine productSum_congr (fun i hi => ?_) (fun _ _ => rfl)
  rw [coded_getD hi]
  cases P i with
  | false => rfl
  | true => rfl

theorem monomials_coded : monomials (coded n P) n = [] ↔ ∀ i < 2 ^ n, P i = false := by
  rw [monomials_eq_nil]
  refine forall₂_congr (fun i hi => ?_)
  rw [coded_getD hi]
  exact Bool.toNat_eq_zero

theorem Expands.monomials (h : Expands f P pol) : monomials (coded n P) n = [] ↔ f = 0#(2 ^ n) := by
  rw [monomials_coded]
  constructor
  · intro hzero
    refine table_eq_zero.mpr (fun i hi => ?_)
    have hvalue := h.sum i.testBit
    rw [polynomial_zero hzero, TruthTable.value, point_testBit hi] at hvalue
    exact hvalue.symm
  · exact h.zero

/-- The first call of an object is right for every table but the zero tables of other than two
variables. -/
theorem right_iff {c : Call} (hr : r.polynomial = []) (hk : 2 ≤ c.maxArity.toNat) :
    Right r c ↔ c.n < 31 ∧ (c.func ≠ 0#(2 ^ c.n) ∨ c.n = 2) := by
  by_cases hn : c.n < 31
  · obtain ⟨r', P, pol, polarization, hexpand, hpol, hP⟩ := expand_eq c.func hr hn
    have hsynthesize : r.synthesize c.func c.maxArity =
        (createScheme (coded c.n P) polarization c.maxArity.toNat c.n).map (r', ·) := by
      rw [synthesize, hexpand, Option.map_eq_bind]
      rfl
    have hsum : ∀ x, ProductSums.polynomial c.n (fun i => decide ((coded c.n P).getD i 0 ≠ 0))
        (fun k => xor (x k) (pol k)) = c.func.value x := fun x => by rw [polynomial_coded, hP.sum]
    constructor
    · intro hright
      obtain ⟨r₁, result, S, -, hS, -, himp⟩ := hright
      refine ⟨hn, ?_⟩
      by_contra hzero
      obtain ⟨hf, htwo⟩ := not_or.mp hzero
      have hnil := hP.monomials.mpr (not_not.mp hf)
      rcases Nat.eq_zero_or_pos c.n with hempty | hpos
      · rw [hempty] at hnil
        rw [hsynthesize, hempty, createScheme_empty hnil] at hS
        cases hS
      · obtain ⟨S', hS', himp'⟩ := createScheme_zero pol hn hk hpos htwo hpol hnil
        rw [hsynthesize, hS'] at hS
        cases hS
        exact not_realizes_input himp' (not_not.mp hf ▸ himp)
    · intro ⟨_, hf⟩
      have hnetwork : ∃ S, createScheme (coded c.n P) polarization c.maxArity.toNat c.n = some S ∧
          Realizes S c.func := by
        by_cases hzero : c.func = 0#(2 ^ c.n)
        · have htwo := hf.resolve_left (not_not.mpr hzero)
          have hnil := hP.monomials.mpr hzero
          rw [htwo] at hnil
          obtain ⟨S, hS, himp⟩ := createScheme_two polarization c.maxArity.toNat hnil
          rw [← htwo] at hS himp
          refine ⟨S, hS, himp.congr (fun x => ?_)⟩
          rw [hzero]
          exact BitVec.getLsbD_zero.symm
        · obtain ⟨S, hS, himp⟩ :=
            createScheme_eq pol hn hk hpol (fun hnil => hzero (hP.monomials.mp hnil))
          exact ⟨S, hS, himp.congr hsum⟩
      obtain ⟨S, hS, himp⟩ := hnetwork
      exact ⟨r', _, S, hexpand, by rw [hsynthesize, hS]; rfl, ⟨pol, hpol, hsum⟩, himp⟩
  · refine iff_of_false (fun hright => ?_) (fun h => hn h.1)
    obtain ⟨r', result, S, hexpand, hS, -⟩ := hright
    rw [synthesize, hexpand] at hS
    simp only [bind_eq_bind, bind_some, createScheme_none (Nat.not_lt.mp hn),
      Option.bind_none] at hS
    cases hS

/-- A run is right when all its calls meet the condition. -/
theorem synthesize_run (r : ReedMuller) (cs : List Call) (hk : ∀ c ∈ cs, 2 ≤ c.maxArity.toNat)
    (h : Always Meets r cs) : Always Right r cs := by
  induction cs generalizing r with
  | nil => trivial
  | cons c cs ih =>
    obtain ⟨⟨hr, hmeets⟩, hrest⟩ := h
    refine ⟨(right_iff hr (hk c mem_cons_self)).mpr hmeets, fun r' S hS => ?_⟩
    exact ih r' (fun c' hc' => hk c' (mem_cons_of_mem c hc')) (hrest r' S hS)

theorem synthesize_run_one : Always Right {} [⟨2, 0b0110#4, 3⟩] :=
  synthesize_run {} [⟨2, 0b0110#4, 3⟩] (fun c hc => by rw [mem_singleton.mp hc]; decide)
    ⟨⟨rfl, by decide, .inr rfl⟩, fun _ _ _ => trivial⟩

/-- The network of a second call is constant, although its table is not. -/
theorem second_call : ¬ Always Right {} [⟨1, 0b01#2, 3⟩, ⟨1, 0b10#2, 3⟩] := by
  intro h
  obtain ⟨⟨r₁, result₁, S₁, hexpand₁, hS₁, -⟩, hrest⟩ := h
  obtain ⟨⟨r₂, result₂, S₂, hexpand₂, hS₂, -, himp⟩, -⟩ := hrest r₁ S₁ hS₁
  have hfirst : expand (n := 1) {} 0b01#2 = some ({ polynomial := [1, 1] }, [1, 1], [false]) := rfl
  cases hfirst.symm.trans hexpand₁
  have hsecond : expand (n := 1) { polynomial := [1, 1] } 0b10#2 =
      some ({ polynomial := [1, 0, 0, 1] }, [1, 0, 0, 1], [false]) := rfl
  cases hsecond.symm.trans hexpand₂
  obtain ⟨S, hS, himp'⟩ := createScheme_eq (n := 1) (fun _ => false) (by decide)
    (show 2 ≤ 3 by decide) (show ∀ i < 1, [false][i]? = some false by decide)
    (show monomials [1, 0, 0, 1] 1 ≠ [] by decide)
  rw [synthesize, hexpand₂] at hS₂
  simp only [bind_eq_bind, bind_some] at hS₂
  rw [show createScheme [1, 0, 0, 1] [false] (3 : UInt16).toNat 1 = some S from hS] at hS₂
  cases hS₂
  have h₁ := himp.values CellLibrary.empty (fun _ => false) 0 Nat.one_pos
  have h₂ := himp'.values CellLibrary.empty (fun _ => false) 0 Nat.one_pos
  rw [h₁] at h₂
  revert h₂
  decide

end UtopiaEda.Synthesizer.ReedMuller
