import UtopiaEda.ZhegalkinPolynomials

/-!
# The networks of Zhegalkin polynomials

Links that spell the literals are joined to monomials and these to their sum. Without monomials the
output of the network is its first input, unless there are two variables.
-/
namespace UtopiaEda.SubnetBuilder

variable {s s' s'' : SubnetBuilder} {n : ℕ} {l : Link} {F : (EntryID → ℕ → Bool) → Bool}

theorem addCell_link {t : CellTypeID} {links : List Link} (h : s.addCell t links = some (s', l)) :
    l = ⟨l.idx, 0, false⟩ := by
  rw [addCell] at h
  split at h
  · cases h
  · obtain ⟨p, -, hp⟩ := Option.bind_eq_some_iff.mp h
    cases hp
    rfl

theorem HasInputs.make_output {f : (ℕ → Bool) → Bool} (h : HasInputs s n)
    (hs : Enlarged (.range' 0 n) [] s s') (hl : s'.Computes l F)
    (hf : ∀ (ρ : EntryID → ℕ → Bool) (x : ℕ → Bool), (∀ i < n, ρ i 0 = x i) → F ρ = f x) :
    ∃ s'' l' S, s'.addOutput l = some (s'', l') ∧ s''.make = some S ∧
    S.Implements n 1 (fun x _ => f x) := by
  obtain ⟨s'', S, hadd, hmake, himp⟩ :=
    h.make (f := fun x _ => f x) hs (Spells.singleton hl) Nat.one_pos
    (fun ρ x hx _ _ => hf ρ x hx)
  obtain ⟨⟨s₁, l'⟩, hout, hrest⟩ :=
    Option.bind_eq_some_iff.mp (show (s'.addOutput l).bind _ = _ from hadd)
  cases hrest
  exact ⟨_, l', S, hout, hmake, himp⟩

end UtopiaEda.SubnetBuilder

namespace UtopiaEda

open List
open Option (bind_eq_bind bind_some)

theorem Subnet.Implements.congr {n : ℕ} {S : Subnet} {f g : (ℕ → Bool) → ℕ → Bool}
    (h : S.Implements n 1 f) (hfg : ∀ x, f x 0 = g x 0) : S.Implements n 1 g :=
  ⟨h.nIn, h.nOut, fun lib x j hj => by
    rw [h.values lib x j hj, Nat.lt_one_iff.mp hj, hfg]⟩

namespace Synthesizer
open SubnetBuilder ProductSums

variable {n m i k : ℕ} {s s' s'' : SubnetBuilder} {ins outs : List EntryID} {l : Link}
  {links : List Link} {es idx : List EntryID} {X L : (EntryID → ℕ → Bool) → ℕ → Bool}
  {pol : ℕ → Bool} {polarization : Polarization} {resultFunction : Polynomial}

def Realizes (S : Subnet) (f : TruthTable n) : Prop := S.Implements n 1 (fun x _ => f.value x)

def plain (es : List EntryID) : List Link := es.map (fun e => ⟨e, 0, false⟩)

theorem makeConstSubnet_eq (b : Bool) (n : ℕ) :
    ∃ S, makeConstSubnet (if b then .ONE else .ZERO) n = some S ∧
    S.Implements n 1 (fun _ _ => b) := by
  obtain ⟨s, hin, h⟩ := HasInputs.init.addInputs n
  rw [Nat.zero_add] at h
  obtain ⟨s₁, l, hadd, -, hs, hl⟩ := (Enlarged.refl h.grown).addConstant b
  obtain ⟨s₂, l', S, hout, hmake, himp⟩ := h.make_output (f := fun _ => b) hs hl (fun _ _ _ => rfl)
  refine ⟨S, ?_, himp⟩
  rw [makeConstSubnet]
  simp only [hin, hadd, hout, hmake, bind_eq_bind, bind_some]

theorem addPolarized_eq (X : (EntryID → ℕ → Bool) → ℕ → Bool) (pol : ℕ → Bool)
    (polarization : Polarization) (h : Enlarged ins outs s s')
    (hX : s'.Spells m (fun ρ j => X ρ (i + j)) (plain es))
    (hpol : ∀ j < m, polarization[i + j]? = some (pol (i + j))) :
    ∃ s'' es', addPolarized polarization es i s' = some (s'', es') ∧ Enlarged ins outs s' s'' ∧
      s''.Spells m (fun ρ j => xor (X ρ (i + j)) (pol (i + j))) (plain es') := by
  induction es generalizing i m s' with
  | nil =>
    have hm : m = 0 := hX.length.symm
    subst hm
    exact ⟨s', [], rfl, .refl h.grown.choose_spec, .nil⟩
  | cons e es ih =>
    obtain ⟨m, rfl⟩ : ∃ m', m = m' + 1 :=
      ⟨es.length, by rw [← hX.length]; exact congrArg (· + 1) (length_map _)⟩
    obtain ⟨l, hl, hc⟩ := hX.bits 0 (Nat.succ_pos m)
    cases hl
    have hstep : ∃ s₁ e', (if pol i then do
        let r ← s'.addCell .BUF [⟨e, 0, true⟩]
        some (r.1, r.2.idx)
      else some (s', e) : Option (SubnetBuilder × EntryID)) = some (s₁, e') ∧
        Enlarged ins outs s' s₁ ∧ s₁.Computes ⟨e', 0, false⟩ (fun ρ => xor (X ρ i) (pol i)) := by
      cases hp : pol i with
      | false => exact ⟨s', e, rfl, .refl h.grown.choose_spec,
          hc.congr (fun ρ => (Bool.xor_false _).symm)⟩
      | true =>
        have hnot : s'.Computes ⟨e, 0, true⟩ (fun ρ => !X ρ i) := hc.not
        obtain ⟨s₁, l, hadd, -, hs, hl⟩ :=
          h.addGate (t := .BUF) hnot.1 rfl (by decide) (by decide) (fun _ => by simp)
        refine ⟨s₁, l.idx, ?_, hs, ?_⟩
        · rw [if_pos rfl, hadd]
          rfl
        · rw [← addCell_link hadd]
          refine ⟨hl.1, fun lib x ρ hρ => ?_⟩
          apply (hl.2 lib x ρ hρ).trans
          simp only [map_singleton, (hnot.mono hs).2 lib x ρ hρ, Bool.xor_true]
          rfl
    obtain ⟨s₁, e', hrun, hs, hl⟩ := hstep
    have htail : s₁.Spells m (fun ρ j => X ρ (i + 1 + j)) (plain es) :=
      ((hX.drop 1).mono hs).congr (fun ρ j _ => by rw [Nat.add_assoc, Nat.add_comm 1])
    obtain ⟨s₂, es', hrest, hs₂, hspell⟩ := ih (h.trans hs) htail (fun j hj => by
      have hj' := hpol (j + 1) (by omega)
      rwa [Nat.add_comm j, ← Nat.add_assoc] at hj')
    refine ⟨s₂, e' :: es', ?_, hs.trans hs₂, (hspell.cons (hl.mono hs₂)).congr (fun ρ j _ => ?_)⟩
    · have h₀ := hpol 0 (Nat.succ_pos m)
      rw [Nat.add_zero] at h₀
      rw [addPolarized, h₀]
      simp only [bind_eq_bind, bind_some] at hrun ⊢
      refine Option.bind_eq_some_iff.mpr ⟨_, hrun, ?_⟩
      simp only [hrest, bind_some]
    · cases j with
      | zero => rfl
      | succ j =>
        rw [if_neg (Nat.succ_ne_zero j), Nat.add_sub_cancel, Nat.add_assoc, Nat.add_comm 1]

theorem literals_eq (hL : s.Spells n L (plain idx)) (places : List ℕ) (hp : ∀ p ∈ places, p < n) :
    ∃ links, places.mapM (fun p => do some (⟨← idx[p]?, 0, false⟩ : Link)) = some links ∧
      List.Forall₂ s.Computes links (places.map (fun p ρ => L ρ p)) := by
  induction places with
  | nil => exact ⟨[], rfl, .nil⟩
  | cons p places ih =>
    obtain ⟨links, hrun, hlinks⟩ := ih (fun q hq => hp q (mem_cons_of_mem p hq))
    obtain ⟨l, hl, hc⟩ := hL.bits p (hp p mem_cons_self)
    rw [plain, getElem?_map] at hl
    obtain ⟨e, he, rfl⟩ := Option.map_eq_some_iff.mp hl
    refine ⟨⟨e, 0, false⟩ :: links, ?_, .cons hc hlinks⟩
    rw [mapM_cons, hrun, he]
    rfl

theorem addMonomials_eq (resultFunction : Polynomial) (h : Enlarged ins outs s s')
    (hL : s'.Spells n L (plain idx)) (hk : 2 ≤ k) (is : List ℕ) (his : ∀ i ∈ is, i < 2 ^ n) :
    ∃ s'' links, addMonomials resultFunction idx k is s' = some (s'', links) ∧
    Enlarged ins outs s' s'' ∧
      List.Forall₂ s''.Computes links
      ((is.filter (fun i => decide (resultFunction.getD i 0 ≠ 0))).map
        (fun i ρ => (ones i n).all (L ρ))) := by
  induction is generalizing s' with
  | nil => exact ⟨s', [], rfl, .refl h.grown.choose_spec, .nil⟩
  | cons i is ih =>
    have hrest : ∀ j ∈ is, j < 2 ^ n := fun j hj => his j (mem_cons_of_mem i hj)
    by_cases hzero : resultFunction.getD i 0 = 0
    · rw [addMonomials, if_pos hzero, filter_cons_of_neg (by rw [hzero]; decide)]
      exact ih h hL hrest
    · have hi := his i mem_cons_self
      obtain ⟨currentNode, hlits, hcomp⟩ := literals_eq hL (ones i n) (fun p hp => mem_ones hp)
      obtain ⟨s₁, l, hadd, h₁, hs₁, hl⟩ := h.addTreeOf (t := .AND) hcomp rfl hk
      obtain ⟨s₂, links, hrun, hs₂, hlinks⟩ := ih h₁ (hL.mono hs₁) hrest
      refine ⟨s₂, l :: links, ?_, hs₁.trans hs₂, ?_⟩
      · rw [addMonomials, if_neg hzero, popcnt_eq hi]
        simp only [bind_eq_bind] at hlits ⊢
        rw [hlits, bind_some, hadd, bind_some, hrun]
        rfl
      · rw [filter_cons_of_pos (by simpa using hzero), map_cons]
        refine .cons ((hl.mono hs₂).congr (fun ρ => ?_)) hlinks
        rw [map_map]
        change ((ones i n).map (L ρ)).all id = _
        rw [all_map]
        rfl

def monomials (resultFunction : Polynomial) (n : ℕ) : List ℕ :=
  (range (2 ^ n)).filter (fun i => decide (resultFunction.getD i 0 ≠ 0))

theorem monomials_eq_nil : monomials resultFunction n = [] ↔
    ∀ i < 2 ^ n, resultFunction.getD i 0 = 0 := by
  rw [monomials, filter_eq_nil_iff]
  simp

private theorem addTerms_eq (h : Enlarged ins outs s s') (hL : s'.Spells n L (plain idx))
    (hk : 2 ≤ k) : ∃ s₁ s₂ one links, (if resultFunction.getD 0 0 = 0 then some (s', []) else do
      let (s, one) ← s'.addCell .ONE []
      some (s, [one]) : Option (SubnetBuilder × List Link)) = some (s₁, one) ∧
    addMonomials resultFunction idx k (.range' 1 (2 ^ n - 1)) s₁ = some (s₂, links) ∧
    Enlarged ins outs s' s₂ ∧ List.Forall₂ s₂.Computes (one ++ links)
    ((monomials resultFunction n).map (fun i ρ => (ones i n).all (L ρ))) := by
  have hone : ∃ s₁ one, (if resultFunction.getD 0 0 = 0 then some (s', []) else do
      let (s, one) ← s'.addCell .ONE []
      some (s, [one]) : Option (SubnetBuilder × List Link)) = some (s₁, one) ∧
        Enlarged ins outs s' s₁ ∧
      List.Forall₂ s₁.Computes one (([0].filter (fun i => decide (resultFunction.getD i 0 ≠ 0))).map
        (fun i ρ => (ones i n).all (L ρ))) := by
    by_cases hzero : resultFunction.getD 0 0 = 0
    · rw [if_pos hzero, filter_cons_of_neg (by rw [hzero]; decide)]
      exact ⟨s', [], rfl, .refl h.grown.choose_spec, .nil⟩
    · obtain ⟨s₁, l, hadd, -, hs, hl⟩ := h.addConstant true
      rw [if_neg hzero, filter_cons_of_pos (by simpa using hzero)]
      refine ⟨s₁, [l], ?_, hs, .cons (hl.congr (fun ρ => ?_)) .nil⟩
      · rw [show s'.addCell .ONE [] = some (s₁, l) from hadd]
        rfl
      · change true = (ones 0 n).all (L ρ)
        rw [ones_zero]
        rfl
  obtain ⟨s₁, one, hrun, hs₁, hone⟩ := hone
  have hpos := Nat.two_pow_pos n
  obtain ⟨s₂, links, hrun₂, hs₂, hlinks⟩ :=
    addMonomials_eq resultFunction (h.trans hs₁) (hL.mono hs₁) hk
    (.range' 1 (2 ^ n - 1)) (fun i hi => by
      have hrange := mem_range'_1.mp hi
      omega)
  refine ⟨s₁, s₂, one, links, hrun, hrun₂, hs₁.trans hs₂, ?_⟩
  have hrange : range (2 ^ n) = [0] ++ range' 1 (2 ^ n - 1) := by
    rw [range_eq_range']
    conv_lhs => rw [← Nat.sub_add_cancel hpos]
    exact range'_succ ..
  rw [monomials, hrange, filter_append, map_append]
  exact rel_append (hone.imp (fun l F hl => hl.mono hs₂)) hlinks

private theorem addSum_eq (h : Enlarged ins outs s s') {resultOutput : List Link}
    {Fs : List ((EntryID → ℕ → Bool) → Bool)} (hF : List.Forall₂ s'.Computes resultOutput Fs)
    (hne : Fs ≠ []) (hk : 2 ≤ k) : ∃ s'' l, (if 2 ≤ resultOutput.length then
    s'.addCellTree .XOR resultOutput k
      else some (s', resultOutput.headD ⟨0, 0, false⟩) : Option (SubnetBuilder × Link)) =
      some (s'', l) ∧ Enlarged ins outs s' s'' ∧
      s''.Computes l (fun ρ => (Fs.map (· ρ)).foldr xor false) := by
  by_cases hlen : 2 ≤ resultOutput.length
  · obtain ⟨s'', l, hadd, -, hs, hl⟩ := h.addTreeOf (t := .XOR) hF rfl hk
    exact ⟨s'', l, by rw [if_pos hlen, hadd], hs, hl⟩
  · rw [if_neg hlen]
    cases hF with
    | nil => exact absurd rfl hne
    | cons hl hrest =>
      cases hrest with
      | nil => exact ⟨s', _, rfl, .refl h.grown.choose_spec,
          hl.congr (fun ρ => (Bool.xor_false _).symm)⟩
      | cons _ _ => exact absurd (Nat.le_add_left 2 _) hlen

private theorem createScheme_run {maxArity : ℕ} (hn : n < 31) (hk : 2 ≤ maxArity)
    (hpol : ∀ i < n, polarization[i]? = some (pol i))
    (hfull : ¬ (n = 2 ∧ monomials resultFunction n = [])) :
    ∃ s s' resultOutput maxSize, HasInputs s n ∧ Enlarged (.range' 0 n) [] s s' ∧ 2 ≤ maxSize ∧
      List.Forall₂ s'.Computes resultOutput ((monomials resultFunction n).map
        (fun i ρ => (ones i n).all (fun p => xor (ρ p 0) (pol p)))) ∧
      createScheme resultFunction polarization maxArity n = (do
        let (s, out) ← (if 2 ≤ resultOutput.length then s'.addCellTree .XOR resultOutput maxSize
          else some (s', resultOutput.headD ⟨0, 0, false⟩) : Option (SubnetBuilder × Link))
        let (s, _) ← s.addOutput out
        s.make) := by
  obtain ⟨s, hin, h⟩ := HasInputs.init.addInputs n
  rw [Nat.zero_add] at h
  have hplain : plain ((inputsFrom 0 n).map Link.idx) = inputsFrom 0 n := by
    rw [plain, inputsFrom, map_map, map_map]
    rfl
  have hX := h.spells 0 n (Nat.le_of_eq (Nat.zero_add n))
  rw [← hplain] at hX
  obtain ⟨s₁, idx, hpolarized, hs₁, hidx⟩ := addPolarized_eq (fun ρ j => ρ j 0) pol polarization
    (.refl h.grown) hX (fun j hj => by rw [Nat.zero_add]; exact hpol j hj)
  have hidx : s₁.Spells n (fun ρ p => xor (ρ p 0) (pol p)) (plain idx) :=
    hidx.congr (fun ρ j _ => by rw [Nat.zero_add])
  obtain ⟨maxSize, hmaxSize⟩ : ∃ k, k = if maxArity < InPlaceLinks then maxArity else
    InPlaceLinks := ⟨_, rfl⟩
  have hsize : 2 ≤ maxSize := by
    rw [hmaxSize]
    split
    · exact hk
    · exact Nat.le_succ 2
  obtain ⟨s₂, s₃, one, links, hone, hmonomials, hs₃, hterms⟩ := addTerms_eq hs₁ hidx hsize
  refine ⟨s, s₃, one ++ links, maxSize, h, hs₁.trans hs₃, hsize, hterms, ?_⟩
  have hshl : intShl n = some (2 ^ n) := if_pos hn
  rw [createScheme, if_neg (fun hz => hfull ⟨hz.1, monomials_eq_nil.mpr hz.2⟩)]
  simp only [bind_eq_bind, bind_some, hin, hpolarized, ← hmaxSize, hshl] at hone ⊢
  rw [hone]
  simp only [bind_some, hmonomials]

theorem createScheme_eq {maxArity : ℕ} (pol : ℕ → Bool) (hn : n < 31) (hk : 2 ≤ maxArity)
    (hpol : ∀ i < n, polarization[i]? = some (pol i)) (hne : monomials resultFunction n ≠ []) :
    ∃ S, createScheme resultFunction polarization maxArity n = some S ∧ S.Implements n 1
      (fun x _ => polynomial n (fun i => decide (resultFunction.getD i 0 ≠ 0))
        (fun k => xor (x k) (pol k))) := by
  obtain ⟨s, s', resultOutput, maxSize, h, hs, htwo, hterms, hrun⟩ :=
    createScheme_run hn hk hpol (fun hz => hne hz.2)
  obtain ⟨s₁, out, hout, hs₁, hsum⟩ :=
    addSum_eq hs hterms (fun hnil => hne (map_eq_nil_iff.mp hnil)) htwo
  obtain ⟨s₂, l', S, hadd, hmake, himp⟩ := h.make_output (f := fun x =>
    polynomial n (fun i => decide (resultFunction.getD i 0 ≠ 0)) (fun k => xor (x k) (pol k)))
      (hs.trans hs₁) hsum
    (fun ρ x hx => by
      rw [map_map, ← polynomial_congr (fun p hp => by rw [← hx p hp])]
      rfl)
  refine ⟨S, ?_, himp⟩
  rw [hrun, hout]
  simp only [bind_eq_bind, bind_some, hadd, hmake]

/-- Without monomials the output leads to the first input. -/
theorem createScheme_zero {maxArity : ℕ} (pol : ℕ → Bool) (hn : n < 31) (hk : 2 ≤ maxArity)
    (hpos : 0 < n) (htwo : n ≠ 2) (hpol : ∀ i < n, polarization[i]? = some (pol i))
    (hnil : monomials resultFunction n = []) : ∃ S, createScheme resultFunction polarization
    maxArity n = some S ∧ S.Implements n 1 (fun x _ => x 0) := by
  obtain ⟨s, s', resultOutput, maxSize, h, hs, -, hterms, hrun⟩ :=
    createScheme_run hn hk hpol (fun hz => htwo hz.1)
  rw [hnil, map_nil] at hterms
  cases hterms
  have hfirst : s.Computes ⟨0, 0, false⟩ (fun ρ => ρ 0 0) :=
    ⟨h.validLinks_default hpos, fun lib x ρ _ => Bool.xor_false _⟩
  obtain ⟨s₂, l', S, hadd, hmake, himp⟩ :=
    h.make_output (f := fun x => x 0) hs (hfirst.mono hs) (fun ρ x hx => hx 0 hpos)
  refine ⟨S, ?_, himp⟩
  rw [hrun, if_neg (by decide), headD_nil]
  simp only [bind_eq_bind, bind_some, hadd, hmake]

theorem createScheme_none {maxArity : ℕ} (hn : 31 ≤ n) :
    createScheme resultFunction polarization maxArity n = none := by
  have hshl : intShl n = none := if_neg (Nat.not_lt.mpr hn)
  rw [createScheme, if_neg (fun h => by omega)]
  simp only [hshl, bind_eq_bind, Option.bind_none, Option.bind_fun_none]

theorem createScheme_two (polarization : Polarization) (maxArity : ℕ)
    (hnil : monomials resultFunction 2 = []) : ∃ S, createScheme resultFunction polarization
    maxArity 2 = some S ∧ S.Implements 2 1 (fun _ _ => false) := by
  obtain ⟨S, hS, himp⟩ := makeConstSubnet_eq false 2
  exact ⟨S, by rw [createScheme, if_pos ⟨rfl, monomials_eq_nil.mp hnil⟩, ← hS]; rfl, himp⟩

/-- Without variables the link leads to the output itself. -/
theorem createScheme_empty {maxArity : ℕ} (hnil : monomials resultFunction 0 = []) :
    createScheme resultFunction polarization maxArity 0 = none := by
  have hzero := monomials_eq_nil.mp hnil 0 Nat.one_pos
  rw [createScheme, if_neg (fun h => absurd h.1 (by decide))]
  simp only [hzero]
  rfl

theorem table_eq_zero {f : TruthTable n} : f = 0#(2 ^ n) ↔ ∀ i < 2 ^ n, f.get_bit i = false := by
  constructor
  · intro h i _
    rw [h]
    exact BitVec.getLsbD_zero
  · intro h
    refine BitVec.eq_of_getLsbD_eq (fun i hi => ?_)
    rw [BitVec.getLsbD_zero]
    exact h i hi

/-- A network whose output is its first input does not have the zero table. -/
theorem not_realizes_input {S : Subnet} (h : S.Implements n 1 (fun x _ => x 0)) :
    ¬ Realizes S (0#(2 ^ n) : TruthTable n) := by
  intro hzero
  have h₁ := h.values CellLibrary.empty (fun _ => true) 0 Nat.one_pos
  have h₂ := hzero.values CellLibrary.empty (fun _ => true) 0 Nat.one_pos
  rw [h₁] at h₂
  have hvalue : TruthTable.value (n := n) 0#(2 ^ n) (fun _ => true) = false := BitVec.getLsbD_zero
  simp only [hvalue] at h₂
  cases h₂

namespace ZhegalkinSynthesizer

theorem getTT_decide {f : TruthTable n} (hi : i < 2 ^ n) :
    decide ((getTT f).getD i 0 ≠ 0) = coefficient n f.get_bit i := by
  rw [getTT_getD hi]
  cases coefficient n f.get_bit i with
  | false => rfl
  | true => rfl

theorem monomials_getTT {f : TruthTable n} : monomials (getTT f) n = [] ↔ f = 0#(2 ^ n) := by
  rw [monomials_eq_nil, table_eq_zero, ← coefficient_eq_zero]
  refine forall₂_congr (fun i hi => ?_)
  rw [getTT_getD hi]
  exact Bool.toNat_eq_zero

/-- The network is right for every table but the zero tables of other than two variables. -/
theorem synthesize_realizes_iff (f : TruthTable n) {maxArity : UInt16} (hk : 2 ≤ maxArity.toNat) :
    (∃ S, synthesize f maxArity = some S ∧ Realizes S f) ↔ n < 31 ∧ (f ≠ 0#(2 ^ n) ∨ n = 2) := by
  have hpol : ∀ i < n, (replicate (getTT f).length false)[i]? = some false := by
    intro i hi
    rw [getElem?_replicate, if_pos]
    rw [getTT_length]
    exact Nat.lt_succ_of_lt (Nat.lt_trans hi Nat.lt_two_pow_self)
  constructor
  · intro ⟨S, hS, himp⟩
    have hn : n < 31 := by
      by_contra hn
      rw [synthesize, createScheme_none (Nat.not_lt.mp hn)] at hS
      cases hS
    refine ⟨hn, ?_⟩
    by_contra hzero
    obtain ⟨hf, htwo⟩ := not_or.mp hzero
    have hf := not_not.mp hf
    have hnil := monomials_getTT.mpr hf
    rcases Nat.eq_zero_or_pos n with rfl | hpos
    · rw [synthesize, createScheme_empty hnil] at hS
      cases hS
    · obtain ⟨S', hS', himp'⟩ := createScheme_zero (fun _ => false) hn hk hpos htwo hpol hnil
      rw [synthesize, hS'] at hS
      cases hS
      exact not_realizes_input himp' (hf ▸ himp)
  · intro ⟨hn, hf⟩
    by_cases hzero : f = 0#(2 ^ n)
    · obtain rfl := hf.resolve_left (not_not.mpr hzero)
      obtain ⟨S, hS, himp⟩ := createScheme_two (.replicate (getTT f).length false) maxArity.toNat
        (monomials_getTT.mpr hzero)
      refine ⟨S, hS, himp.congr (fun x => ?_)⟩
      rw [hzero]
      exact BitVec.getLsbD_zero.symm
    · obtain ⟨S, hS, himp⟩ := createScheme_eq (fun _ => false) hn hk hpol
        (fun hnil => hzero (monomials_getTT.mp hnil))
      refine ⟨S, hS, himp.congr (fun x => ?_)⟩
      rw [polynomial_eq, productSum_congr (fun i hi => getTT_decide hi) (fun _ _ => rfl),
        ← polynomial_eq, polynomial_congr (fun k _ => Bool.xor_false (x k)), polynomial_coefficient]
      rfl

theorem synthesize_realizes_two :
    ∃ S, synthesize (n := 2) 0b0110#4 3 = some S ∧ Realizes (n := 2) S 0b0110#4 :=
  (synthesize_realizes_iff (n := 2) 0b0110#4 (by decide)).mpr ⟨by decide, .inl (by decide)⟩

/-- The output of the network for the zero table of one variable is its input. -/
theorem synthesize_zero : ¬ ∃ S, synthesize (n := 1) 0#2 3 = some S ∧ Realizes (n := 1) S 0#2 := by
  intro ⟨S, hS, himp⟩
  have hnil : monomials (getTT (n := 1) 0#2) 1 = [] := monomials_getTT.mpr rfl
  have hpol : ∀ i < 1, (replicate 3 false)[i]? = some false := by decide
  obtain ⟨S', hS', himp'⟩ := createScheme_zero (fun _ => false) (by decide)
    (show 2 ≤ 3 by decide) Nat.one_pos (by decide) hpol hnil
  rw [show synthesize (n := 1) 0#2 3 = some S' from hS'] at hS
  cases hS
  exact not_realizes_input himp' himp

end ZhegalkinSynthesizer

end Synthesizer

end UtopiaEda
