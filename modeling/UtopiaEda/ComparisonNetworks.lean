import UtopiaEda.AdditionNetworks
import UtopiaEda.BitOrder
import UtopiaEda.Comparisons

/-!
# The networks of comparisons

The cascade of `generateComparison` has a link for every bit of the first word: one if the word
exceeds the other one at that bit. The loops with 16-bit counters end for words of less than
`2 ^ 16` bits.
-/
namespace UtopiaEda.Synthesizer

open List
open Option (bind_eq_bind bind_eq_none_iff bind_eq_some_iff bind_none bind_some some.inj)
open SubnetBuilder BitOrder

variable {s s' s'' : SubnetBuilder} {ins outs : List EntryID} {fuel n m k i nA nB : ℕ}
  {A B P links : List Link} {l l₁ l₂ : Link} {F F₁ F₂ F₃ : (EntryID → ℕ → Bool) → Bool}
  {a b W : (EntryID → ℕ → Bool) → ℕ → Bool}

/-! ### The loops with 16-bit counters -/

theorem countLinks_eq {f : ℕ → Option Link} {g : ℕ → Link} {bound : ℕ} (hb : bound < 2 ^ 16) :
    ∀ {fuel : ℕ} {i : UInt16}, (∀ j, i.toNat ≤ j → j < bound → f j = some (g j)) →
    bound - i.toNat < fuel →
      countLinks f bound fuel i = some ((List.range' i.toNat (bound - i.toNat)).map g) := by
  intro fuel
  induction fuel with
  | zero => exact fun _ h => absurd h (Nat.not_lt_zero _)
  | succ fuel ih =>
    intro i hf hfuel
    rw [countLinks]
    split
    · rename_i hlt
      have hnext : (i + 1).toNat = i.toNat + 1 := by
        rw [UInt16.toNat_add]
        exact Nat.mod_eq_of_lt (Nat.lt_of_le_of_lt hlt hb)
      have hrest := ih (i := i + 1) (fun j hj => hf j (by omega)) (by omega)
      rw [hf i.toNat (Nat.le_refl _) hlt, hrest, hnext]
      have hrange : bound - i.toNat = bound - (i.toNat + 1) + 1 := by omega
      rw [hrange, range'_succ]
      rfl
    · rename_i hge
      rw [Nat.sub_eq_zero_of_le (Nat.not_lt.mp hge)]
      rfl

/-- The counter does not reach the bound. -/
theorem countLinks_none {f : ℕ → Option Link} {bound : ℕ} (hb : 2 ^ 16 ≤ bound) :
    ∀ {fuel : ℕ} {i : UInt16}, countLinks f bound fuel i = none := by
  intro fuel
  induction fuel with
  | zero => exact rfl
  | succ fuel ih =>
    intro i
    have hi : i.toNat < 2 ^ 16 := i.toNat_lt
    rw [countLinks, if_pos (Nat.lt_of_lt_of_le hi hb)]
    simp only [ih, bind_eq_bind, bind_none]
    exact bind_eq_none_iff.mpr (fun _ _ => rfl)

/-! ### Propagates -/

theorem Computes.invertedIf (h : s.Computes l F) (inverse : Bool) :
    s.Computes (invertedIf inverse l) (fun ρ => xor inverse (F ρ)) := by
  cases inverse with
  | false => exact h.congr (fun ρ => (Bool.false_xor _).symm)
  | true => exact h.not.congr (fun ρ => (Bool.true_xor _).symm)

theorem addPropagates_eq (inverse : Bool) :
    ∀ {A B : List Link} {n : ℕ} {a b : (EntryID → ℕ → Bool) → ℕ → Bool}
    {s' : SubnetBuilder}, Enlarged ins outs s s' → s'.Spells n a A → s'.Spells n b B →
      ∃ s'' links, addPropagates inverse A B s' = some (s'', links) ∧ Enlarged ins outs s' s'' ∧
        s''.Spells n (fun ρ i => xor inverse (xor (a ρ i) (b ρ i))) links := by
  intro A
  induction A with
  | nil =>
    intro B n a b s' h hA hB
    obtain rfl : 0 = n := hA.length
    exact ⟨s', [], rfl, .refl h.grown.choose_spec, .nil⟩
  | cons l₁ A ih =>
    intro B n a b s' h hA hB
    obtain rfl : A.length + 1 = n := hA.length
    obtain ⟨l₂, B, rfl⟩ := exists_cons_of_length_eq_add_one hB.length
    obtain ⟨l₁', hl₁, hc₁⟩ := hA.bits 0 (Nat.succ_pos _)
    obtain ⟨l₂', hl₂, hc₂⟩ := hB.bits 0 (Nat.succ_pos _)
    obtain rfl := some.inj hl₁
    obtain rfl := some.inj hl₂
    obtain ⟨s₁, l, hadd, h₁, hs₁, hl⟩ := h.addXor hc₁ hc₂
    obtain ⟨s₂, links, hrun, hs₂, hlinks⟩ := ih h₁ ((hA.drop 1).mono hs₁) ((hB.drop 1).mono hs₁)
    change addPropagates inverse A B s₁ = _ at hrun
    refine ⟨s₂, invertedIf inverse l :: links, ?_, hs₁.trans hs₂,
      (hlinks.cons ((Computes.invertedIf hl inverse).mono hs₂)).congr (fun ρ i _ => ?_)⟩
    · rw [addPropagates]
      simp only [hadd, hrun, bind_eq_bind, bind_some]
    · cases i with
      | zero => rfl
      | succ i => rw [if_neg (Nat.succ_ne_zero i), Nat.add_sub_cancel, Nat.add_comm 1 i]

/-- The words with the bits of the longer one behind those of the shorter one. -/
theorem generatePropagate_eq (h : Enlarged ins outs s s') (inverse : Bool) (hA : s'.Spells nA a A)
    (hB : s'.Spells nB b B) (hlt : max nA nB < 2 ^ 16) (hfuel : max nA nB < fuel)
    (ha : ∀ ρ i, nA ≤ i → i < nB → a ρ i = false) (hb : ∀ ρ i, nB ≤ i → i < nA → b ρ i = false) :
    ∃ s'' links, generatePropagate fuel A B s' inverse = some (s'', links) ∧
    Enlarged ins outs s' s'' ∧
      s''.Spells (max nA nB) (fun ρ i => xor inverse (xor (a ρ i) (b ρ i))) links := by
  have hmin : (min nA nB).toUInt16.toNat = min nA nB := by
    exact Nat.mod_eq_of_lt (Nat.lt_of_le_of_lt (Nat.le_trans (Nat.min_le_left _ _)
      (Nat.le_max_left _ _)) hlt)
  obtain ⟨s₁, xors, hadd, hs₁, hxors⟩ :=
    addPropagates_eq inverse h (hA.take (Nat.min_le_left nA nB))
    (hB.take (Nat.min_le_right nA nB))
  have hbigger : ∃ big w, (if max nA nB = nA then A else B) = big ∧ s'.Spells (max nA nB) w big ∧
      ∀ ρ i, min nA nB ≤ i → i < max nA nB → w ρ i = xor (a ρ i) (b ρ i) := by
    by_cases hle : nB ≤ nA
    · rw [Nat.max_eq_left hle, Nat.min_eq_right hle, if_pos rfl]
      refine ⟨A, a, rfl, hA, fun ρ i hge hi => ?_⟩
      rw [hb ρ i hge hi, Bool.xor_false]
    · have hle : nA ≤ nB := by omega
      rw [Nat.max_eq_right hle, Nat.min_eq_left hle, if_neg (by omega)]
      refine ⟨B, b, rfl, hB, fun ρ i hge hi => ?_⟩
      rw [ha ρ i hge hi, Bool.false_xor]
  obtain ⟨big, w, hbig, hspell, hw⟩ := hbigger
  have hsurplus : countLinks (fun i => (big[i]?).map (invertedIf inverse))
      (max nA nB) fuel (min nA nB).toUInt16 =
      some ((big.drop (min nA nB)).map (invertedIf inverse)) := by
    have hlen := hspell.length
    rw [countLinks_eq (g := fun i => invertedIf inverse (big[i]?.getD ⟨0, 0, false⟩)) hlt
      (fun j _ hj => ?_) (by omega), hmin]
    · congr 1
      apply ext_getElem
      · rw [length_map, length_range', length_map, length_drop, hlen]
      · intro j hj hj'
        rw [length_map, length_range'] at hj
        simp only [getElem_map, getElem_range', getElem_drop, Nat.one_mul]
        rw [getElem?_eq_getElem (by omega), Option.getD_some]
    · rw [getElem?_eq_getElem (by omega)]
      rfl
  have hrest : s₁.Spells (max nA nB - min nA nB) (fun ρ i => xor inverse (w ρ (min nA nB + i)))
      ((big.drop (min nA nB)).map (invertedIf inverse)) := by
    have hdrop := (hspell.drop (min nA nB)).mono hs₁
    refine ⟨by rw [length_map, hdrop.length], fun i hi => ?_⟩
    obtain ⟨l, hl, hc⟩ := hdrop.bits i hi
    refine ⟨invertedIf inverse l, ?_, Computes.invertedIf hc inverse⟩
    rw [getElem?_map, hl, Option.map_some]
  refine ⟨s₁, xors ++ (big.drop (min nA nB)).map (invertedIf inverse), ?_, hs₁, ?_⟩
  · unfold generatePropagate
    simp only [hA.length, hB.length, hmin, hadd, hbig, hsurplus, bind_eq_bind, bind_some]
  · have happ := hxors.append hrest
    have hsum : min nA nB + (max nA nB - min nA nB) = max nA nB := by omega
    rw [hsum] at happ
    apply happ.congr
    intro ρ i hi
    by_cases hlow : i < min nA nB
    · rw [if_pos hlow]
    · rw [if_neg hlow, Nat.add_sub_cancel' (Nat.not_lt.mp hlow), hw ρ i (Nat.not_lt.mp hlow) hi]

theorem generatePropagate_none {inverse : Bool} (hge : 2 ^ 16 ≤ max A.length B.length) :
    generatePropagate fuel A B s inverse = none := by
  unfold generatePropagate
  simp only [countLinks_none hge, bind_eq_bind, bind_none]
  exact bind_eq_none_iff.mpr (fun _ _ => rfl)

/-! ### Trees over words -/

theorem addAll_eq (h : Enlarged ins outs s s') (hl : s'.Spells n W links) (hpos : 0 < n) :
    ∃ s'' l, addAll s' links = some (s'', l) ∧ Enlarged ins outs s' s'' ∧
      s''.Computes l (fun ρ => decide (∀ i < n, W ρ i = true)) := by
  unfold addAll
  by_cases hlt : 1 < n
  · obtain ⟨s'', l, hadd, -, hs, hlink⟩ := h.addAndTree hl
    rw [if_pos (hl.length.symm ▸ hlt)]
    exact ⟨s'', l, hadd, hs, hlink⟩
  · obtain rfl : n = 1 := by omega
    obtain ⟨l, hlast, hc⟩ := hl.getLast hpos
    rw [if_neg (by rw [hl.length]; exact hlt), hlast]
    refine ⟨s', l, rfl, .refl h.grown.choose_spec, hc.congr (fun ρ => ?_)⟩
    simp

theorem addAny_eq (h : Enlarged ins outs s s') (hl : s'.Spells n W links) (hpos : 0 < n) :
    ∃ s'' l, ((if 1 < links.length then s'.addCellTree .OR links 2
        else do some (s', ← links.getLast?) : Option (SubnetBuilder × Link)) = some (s'', l)) ∧
      Enlarged ins outs s' s'' ∧ s''.Computes l (fun ρ => decide (∃ i < n, W ρ i = true)) := by
  by_cases hlt : 1 < n
  · obtain ⟨s'', l, hadd, -, hs, hlink⟩ := h.addOrTree hl
    rw [if_pos (hl.length.symm ▸ hlt)]
    exact ⟨s'', l, hadd, hs, hlink⟩
  · obtain rfl : n = 1 := by omega
    obtain ⟨l, hlast, hc⟩ := hl.getLast hpos
    rw [if_neg (by rw [hl.length]; exact hlt), hlast]
    refine ⟨s', l, rfl, .refl h.grown.choose_spec, hc.congr (fun ρ => ?_)⟩
    simp

theorem addNone_eq (h : Enlarged ins outs s s') (hl : s'.Spells n W links) (hpos : 0 < n) :
    ∃ s'' l, addNone s' links = some (s'', l) ∧ Enlarged ins outs s' s'' ∧
      s''.Computes l (fun ρ => !decide (∃ i < n, W ρ i = true)) := by
  obtain ⟨s'', l, hadd, hs, hlink⟩ := addAny_eq h hl hpos
  refine ⟨s'', l.not, ?_, hs, hlink.not⟩
  unfold addNone
  split
  · rename_i hlt
    rw [if_pos hlt] at hadd
    rw [hadd]
    rfl
  · rename_i hlt
    rw [if_neg hlt] at hadd
    obtain ⟨l', hl', heq⟩ := bind_eq_some_iff.mp hadd
    obtain ⟨rfl, rfl⟩ := Prod.mk.inj (some.inj heq)
    rw [hl']
    rfl

/-! ### The cascade -/

structure Cascaded (ins outs : List EntryID) (s : SubnetBuilder)
    (a b : (EntryID → ℕ → Bool) → ℕ → Bool)
    (nA M d : ℕ) (c : Cascade) (i : ℕ) : Prop where
  enlarged : Enlarged ins outs s c.builder
  terms : c.builder.Spells (nA - i) (fun ρ j => exceedsAt (a ρ) (b ρ) M (i + j)) c.orResult
  endP : c.endP = i - d
  currAnd : 0 < i → i < M → c.builder.Computes c.currAnd (fun ρ => agree (a ρ)
    (b ρ) M (min (i + 1) (M - 1)))

variable {M d : ℕ} {c : Cascade}

theorem Cascaded.extendAnd (h : Cascaded ins outs s a b nA M d c (i + 1)) (hd : d ≤ 1)
    (hP : s.Spells (M - d) (fun ρ j => xor true (xor (a ρ (d + j)) (b ρ (d + j)))) P)
    (hi : i + 1 < M) : ∃ c', c.extendAnd P M i = some c' ∧ Enlarged ins outs c.builder c'.builder ∧
    c'.endP = c.endP ∧
      c'.orResult = c.orResult ∧
      c'.builder.Computes c'.currAnd (fun ρ => agree (a ρ) (b ρ) M (i + 1)) := by
  have hcurr := h.currAnd (Nat.succ_pos i) hi
  unfold Cascade.extendAnd
  split
  · rename_i hlt
    have hmin : min (i + 1 + 1) (M - 1) = i + 1 + 1 := by omega
    rw [hmin] at hcurr
    obtain ⟨l, hl, hc⟩ := (hP.mono h.enlarged).bits (i + 1 - d) (by omega)
    have hplace : d + (i + 1 - d) = i + 1 := by omega
    simp only [hplace] at hc
    obtain ⟨s', l', hadd, -, hs, hl'⟩ := h.enlarged.addAnd hcurr hc
    refine ⟨{ c with builder := s', currAnd := l' }, ?_, hs, rfl, rfl, hl'.congr (fun ρ => ?_)⟩
    · rw [h.endP, hl, bind_eq_bind, bind_some, hadd]
      rfl
    · rw [agree_eq hi, Bool.and_comm]
      cases a ρ (i + 1) <;> cases b ρ (i + 1) <;> rfl
  · have hmin : min (i + 1 + 1) (M - 1) = i + 1 := by omega
    rw [hmin] at hcurr
    exact ⟨c, rfl, .refl h.enlarged.grown.choose_spec, rfl, rfl, hcurr⟩

theorem Cascaded.moveIterator (hs : Enlarged ins outs s c.builder) (hd : d ≤ 1)
    (hP : s.Spells (M - d) (fun ρ j => xor true (xor (a ρ (d + j)) (b ρ (d + j)))) P) (hi : i < M)
    (hterms : c.builder.Spells (nA - i) (fun ρ j => exceedsAt (a ρ) (b ρ) M (i + j)) c.orResult)
    (hend : c.endP = i + 1 - d)
    (hcurr : i + 1 < M → c.builder.Computes c.currAnd (fun ρ => agree (a ρ) (b ρ) M (i + 1))) :
    ∃ c', c.moveIterator P M i = some c' ∧ Cascaded ins outs s a b nA M d c' i := by
  have hendP : c.endP - 1 = i - d := by omega
  unfold Cascade.moveIterator
  simp only [hendP, hP.length]
  by_cases hlast : i + 1 = M ∧ i - d ≠ M - d
  · rw [if_pos hlast]
    obtain ⟨rfl, hne⟩ := hlast
    obtain ⟨l, hl, hc⟩ := (hP.mono hs).bits (i - d) (by omega)
    rw [hl]
    refine ⟨_, rfl, hs, hterms, rfl, fun hpos _ => hc.congr (fun ρ => ?_)⟩
    have hplace : d + (i - d) = i := by omega
    have hmin : min (i + 1) (i + 1 - 1) = i := by omega
    rw [hplace, hmin, agree_eq (Nat.lt_succ_self i), agree_self, Bool.and_true]
    cases a ρ i <;> cases b ρ i <;> rfl
  · rw [if_neg hlast]
    refine ⟨_, rfl, hs, hterms, rfl, fun hpos _ => ?_⟩
    have hlt : i + 1 < M := by omega
    rw [Nat.min_eq_left (by omega)]
    exact hcurr hlt

private theorem Cascaded.consTerm
    (h : s.Spells (nA - (i + 1)) (fun ρ j => exceedsAt (a ρ) (b ρ) M (i + 1 + j)) links)
    (hi : i < nA) (hl : s.Computes l (fun ρ => exceedsAt (a ρ) (b ρ) M i)) :
    s.Spells (nA - i) (fun ρ j => exceedsAt (a ρ) (b ρ) M (i + j)) (l :: links) := by
  have hcons := h.cons hl
  have hlen : nA - (i + 1) + 1 = nA - i := by omega
  rw [hlen] at hcons
  apply hcons.congr
  intro ρ j _
  cases j with
  | zero => rfl
  | succ j => rw [if_neg (Nat.succ_ne_zero j), Nat.add_sub_cancel, Nat.add_right_comm,
      Nat.add_assoc i]

theorem Cascaded.surplusStep (h : Cascaded ins outs s a b nA M d c (i + 1)) (hd : d ≤ 1)
    (hP : s.Spells (M - d) (fun ρ j => xor true (xor (a ρ (d + j)) (b ρ (d + j)))) P)
    (hA : s.Spells nA a A) (hi : i < nA) (hM : nA ≤ M) (hb : ∀ ρ, b ρ i = false) :
    ∃ c', c.surplusStep P A M i = some c' ∧ Cascaded ins outs s a b nA M d c' i := by
  obtain ⟨l, hl, hc⟩ := (hA.mono h.enlarged).bits i hi
  unfold Cascade.surplusStep
  rw [hl, bind_eq_bind, bind_some]
  split
  · rename_i hlast
    have hterms : c.builder.Spells (nA - i) (fun ρ j => exceedsAt (a ρ) (b ρ) M (i + j))
        (l :: c.orResult) := by
      apply Cascaded.consTerm h.terms hi
      apply hc.congr
      intro ρ
      rw [exceedsAt, hlast, agree_self, hb ρ]
      simp
    exact Cascaded.moveIterator (c := { c with orResult := l :: c.orResult }) h.enlarged hd hP
      (by omega) hterms h.endP (fun hlt => absurd hlt (by omega))
  · obtain ⟨c', hext, hs, hend, hor, hcurr⟩ := h.extendAnd hd hP (by omega)
    obtain ⟨s', l', hadd, h', hs', hl'⟩ := (h.enlarged.trans hs).addAnd hcurr (hc.mono hs)
    simp only [hext, bind_eq_bind, bind_some, hadd]
    have hterms : s'.Spells (nA - i) (fun ρ j => exceedsAt (a ρ) (b ρ) M (i + j))
        (l' :: c'.orResult) := by
      rw [hor]
      apply Cascaded.consTerm ((h.terms.mono hs).mono hs') hi
      apply hl'.congr
      intro ρ
      rw [exceedsAt, hb ρ, Bool.not_false, Bool.and_true, Bool.and_comm]
    exact Cascaded.moveIterator (c := { c' with builder := s', orResult := l' :: c'.orResult }) h'
      hd hP (by omega) hterms (hend.trans h.endP) (fun _ => hcurr.mono hs')

theorem Cascaded.commonStep (h : Cascaded ins outs s a b nA M d c (i + 1)) (hd : d ≤ 1)
    (hP : s.Spells (M - d) (fun ρ j => xor true (xor (a ρ (d + j)) (b ρ (d + j)))) P)
    (hA : s.Spells nA a A) (hB : s.Spells nB b B) (hi : i < nA) (hiB : i < nB) (hM : nA ≤ M) :
    ∃ c', c.commonStep P A B M i = some c' ∧ Cascaded ins outs s a b nA M d c' i := by
  obtain ⟨l₁, hl₁, hc₁⟩ := (hA.mono h.enlarged).bits i hi
  obtain ⟨l₂, hl₂, hc₂⟩ := (hB.mono h.enlarged).bits i hiB
  unfold Cascade.commonStep
  rw [hl₁, hl₂, bind_eq_bind, bind_some, bind_eq_bind, bind_some]
  by_cases hlast : i + 1 < M
  · obtain ⟨c', hext, hs, hend, hor, hcurr⟩ := h.extendAnd hd hP hlast
    obtain ⟨s', l', hadd, h', hs', hl'⟩ := (h.enlarged.trans hs).addTreeOf (t := .AND)
      (.cons hcurr (.cons (hc₁.mono hs) (.cons (hc₂.mono hs).not .nil))) rfl (Nat.le_refl 2)
    simp only [if_pos hlast, hext, bind_eq_bind, bind_some, hadd]
    have hterms : s'.Spells (nA - i) (fun ρ j => exceedsAt (a ρ) (b ρ) M (i + j))
        (l' :: c'.orResult) := by
      rw [hor]
      apply Cascaded.consTerm ((h.terms.mono hs).mono hs') hi
      apply hl'.congr
      intro ρ
      rw [exceedsAt, Bool.and_comm]
      simp [gateFunction, CellTypeID.eval]
    exact Cascaded.moveIterator (c := { c' with builder := s', orResult := l' :: c'.orResult }) h'
      hd hP (by omega) hterms (hend.trans h.endP) (fun _ => hcurr.mono hs')
  · obtain ⟨s', l', hadd, h', hs', hl'⟩ :=
      h.enlarged.addTreeOf (t := .AND) (.cons hc₁ (.cons hc₂.not .nil)) rfl
      (Nat.le_refl 2)
    simp only [if_neg hlast, bind_eq_bind, bind_some, hadd]
    have hterms : s'.Spells (nA - i) (fun ρ j => exceedsAt (a ρ) (b ρ) M (i + j))
        (l' :: c.orResult) := by
      apply Cascaded.consTerm (h.terms.mono hs') hi
      apply hl'.congr
      intro ρ
      have htop : i + 1 = M := by omega
      rw [exceedsAt, htop, agree_self]
      simp [gateFunction, CellTypeID.eval]
    exact Cascaded.moveIterator (c := { c with builder := s', orResult := l' :: c.orResult }) h' hd
      hP (by omega) hterms h.endP (fun hlt => absurd hlt hlast)

theorem Cascaded.surplusLoop (hd : d ≤ 1)
    (hP : s.Spells (M - d) (fun ρ j => xor true (xor (a ρ (d + j)) (b ρ (d + j)))) P)
    (hA : s.Spells nA a A) (hM : nA ≤ M) (hb : ∀ ρ i, m ≤ i → i < nA → b ρ i = false) :
    ∀ {k : ℕ} {c : Cascade}, m + k ≤ nA → Cascaded ins outs s a b nA M d c (m + k) →
      ∃ c', c.surplusLoop P A M m k = some c' ∧ Cascaded ins outs s a b nA M d c' m := by
  intro k
  induction k with
  | zero => exact fun _ h => ⟨_, rfl, h⟩
  | succ k ih =>
    intro c hk h
    obtain ⟨c₁, hstep, h₁⟩ := Cascaded.surplusStep (i := m + k) h hd hP hA (Nat.lt_of_succ_le hk) hM
      (fun ρ => hb ρ (m + k) (Nat.le_add_right m k) (Nat.lt_of_succ_le hk))
    obtain ⟨c', hrun, h'⟩ := ih (Nat.le_of_succ_le hk) h₁
    refine ⟨c', ?_, h'⟩
    rw [Cascade.surplusLoop, hstep]
    exact hrun

theorem Cascaded.commonLoop (hd : d ≤ 1)
    (hP : s.Spells (M - d) (fun ρ j => xor true (xor (a ρ (d + j)) (b ρ (d + j)))) P)
    (hA : s.Spells nA a A) (hB : s.Spells nB b B) (hM : nA ≤ M) :
    ∀ {i : ℕ} {c : Cascade}, i ≤ nA → i ≤ nB → Cascaded ins outs s a b nA M d c i →
      ∃ c', c.commonLoop P A B M i = some c' ∧ Cascaded ins outs s a b nA M d c' 0 := by
  intro i
  induction i with
  | zero => exact fun _ _ h => ⟨_, rfl, h⟩
  | succ i ih =>
    intro c hi hiB h
    obtain ⟨c₁, hstep, h₁⟩ := h.commonStep hd hP hA hB (Nat.lt_of_succ_le hi)
      (Nat.lt_of_succ_le hiB) hM
    obtain ⟨c', hrun, h'⟩ := ih (Nat.le_of_succ_le hi) (Nat.le_of_succ_le hiB) h₁
    refine ⟨c', ?_, h'⟩
    rw [Cascade.commonLoop, hstep]
    exact hrun

/-- The product for the bits that the second word alone has. -/
theorem surplusAnd_eq (h : Enlarged ins outs s s') (hd : d ≤ 1) (hA : d ≤ nA) (hlt : nA < M)
    (hP : s'.Spells (M - d) (fun ρ j => xor true (xor (a ρ (d + j)) (b ρ (d + j)))) P) :
    ∃ s'' l, surplusAnd P (M - nA) s' = some (s'', l) ∧ Enlarged ins outs s' s'' ∧
      s''.Computes l (fun ρ => agree (a ρ) (b ρ) M (min (nA + 1) (M - 1))) := by
  unfold surplusAnd
  rw [hP.length]
  by_cases hdelta : 2 < M - nA
  · rw [if_pos hdelta]
    have hplace : M - d + 1 - (M - nA) = nA + 1 - d := by omega
    have hdrop := hP.drop (M - d + 1 - (M - nA))
    rw [hplace] at hdrop ⊢
    obtain ⟨s'', l, hadd, -, hs, hlink⟩ := h.addAndTree hdrop
    refine ⟨s'', l, hadd, hs, hlink.congr (fun ρ => ?_)⟩
    rw [Nat.min_eq_left (by omega), agree, decide_eq_decide]
    constructor
    · intro hall i hi hge
      have hbit := hall (i - (nA + 1)) (by omega)
      have hi' : d + (nA + 1 - d + (i - (nA + 1))) = i := by omega
      simpa [hi'] using hbit
    · intro hall i hi
      have hbit := hall (d + (nA + 1 - d + i)) (by omega) (by omega)
      simp [hbit]
  · rw [if_neg hdelta]
    obtain ⟨l, hlast, hc⟩ := hP.getLast (by omega)
    rw [hlast]
    refine ⟨s', l, rfl, .refl h.grown.choose_spec, hc.congr (fun ρ => ?_)⟩
    have hplace : d + (M - d - 1) = M - 1 := by omega
    have hmin : min (nA + 1) (M - 1) = M - 1 := by omega
    have hnext : M - 1 + 1 = M := by omega
    rw [hplace, hmin, agree_eq (by omega), hnext, agree_self, Bool.and_true]
    cases a ρ (M - 1) <;> cases b ρ (M - 1) <;> rfl

private theorem propagates_eq (h : Enlarged ins outs s s') (hd : d ≤ 1) (hA : s'.Spells nA a A)
    (hB : s'.Spells nB b B) (hpos : 0 < nA) (hzero : d ≤ nB ∨ nA = 1) (hlt : max nA nB - d < 2 ^ 16)
    (hfuel : max nA nB < fuel) (ha : ∀ ρ i, nA ≤ i → i < nB → a ρ i = false) (hb : ∀ ρ i, nB ≤ i →
    i < nA → b ρ i = false) : ∃ s'' P, ((if d < A.length ∨ d < B.length then
        if A.length < d ∨ B.length < d then none else generatePropagate fuel (A.drop d)
          (B.drop d) s' true
      else some (s', []) : Option (SubnetBuilder × List Link)) = some (s'', P)) ∧
        Enlarged ins outs s' s'' ∧
      s''.Spells (max nA nB - d) (fun ρ j => xor true (xor (a ρ (d + j)) (b ρ (d + j)))) P := by
  rw [hA.length, hB.length]
  split
  · rw [if_neg (by omega)]
    have hmax : max (nA - d) (nB - d) = max nA nB - d := by omega
    rw [← hmax] at hlt ⊢
    exact generatePropagate_eq h true (hA.drop d) (hB.drop d) hlt (by omega)
      (fun ρ i hge hi => ha ρ (d + i) (by omega) (by omega))
      (fun ρ i hge hi => hb ρ (d + i) (by omega) (by omega))
  · have hnone : max nA nB - d = 0 := by omega
    rw [hnone]
    exact ⟨s', [], rfl, .refl h.grown.choose_spec, .nil⟩

/-- The comparison of two words; the shorter one goes on with zeros. -/
theorem generateComparison_eq (h : Enlarged ins outs s s') (useEquality : Bool)
    (hd : d = if useEquality then 0 else 1) (hA : s'.Spells nA a A) (hB : s'.Spells nB b B)
    (hpos : 0 < nA) (hzero : d ≤ nB ∨ nA = 1) (hlt : max nA nB - d < 2 ^ 16)
    (hfuel : max nA nB < fuel) (ha : ∀ ρ i, nA ≤ i → i < nB → a ρ i = false) (hb : ∀ ρ i, nB ≤ i →
    i < nA → b ρ i = false) : ∃ s'' more P, generateComparison fuel A B s' useEquality =
    some (s'', more, P) ∧ Enlarged ins outs s' s'' ∧
      s''.Computes more (fun ρ => exceeds (a ρ) (b ρ) (max nA nB)) ∧
      s''.Spells (max nA nB - d) (fun ρ j => xor true (xor (a ρ (d + j)) (b ρ (d + j)))) P := by
  have hd1 : d ≤ 1 := by
    rw [hd]
    split <;> decide
  obtain ⟨s₁, P, hprop, hs₁, hP⟩ := propagates_eq h hd1 hA hB hpos hzero hlt hfuel ha hb
  have h₁ := h.trans hs₁
  have hA₁ := hA.mono hs₁
  have hB₁ := hB.mono hs₁
  have hrefl : Enlarged ins outs s₁ s₁ := .refl h₁.grown.choose_spec
  have hcascade : ∃ c, ((if A.length < B.length then do
        let r ← surplusAnd P (max nA nB - min nA nB) s₁
        some ⟨r.1, r.2, P.length - (max nA nB - min nA nB), []⟩
      else Cascade.surplusLoop P A (max nA nB) (min nA nB) (max nA nB - min nA nB)
        ⟨s₁, ⟨0, 0, false⟩, P.length, []⟩ : Option Cascade) = some c) ∧
      Cascaded ins outs s₁ a b nA (max nA nB) d c (min nA nB) := by
    rw [hA.length, hB.length, hP.length]
    by_cases hlt : nA < nB
    · rw [if_pos hlt, Nat.max_eq_right (Nat.le_of_lt hlt), Nat.min_eq_left (Nat.le_of_lt hlt)]
      rw [Nat.max_eq_right (Nat.le_of_lt hlt)] at hP
      obtain ⟨s₂, l, hadd, hs₂, hl⟩ := surplusAnd_eq h₁ hd1 (by omega) hlt hP
      refine ⟨⟨s₂, l, _, []⟩, by rw [hadd]; rfl, hs₂, ?_, ?_, fun _ _ => hl⟩
      · rw [Nat.sub_self]
        exact .nil
      · change nB - d - (nB - nA) = nA - d
        omega
    · have hle := Nat.not_lt.mp hlt
      rw [if_neg hlt, Nat.max_eq_left hle, Nat.min_eq_right hle]
      rw [Nat.max_eq_left hle] at hP
      have hsum : nB + (nA - nB) = nA := Nat.add_sub_cancel' hle
      apply Cascaded.surplusLoop hd1 hP hA₁ (Nat.le_refl nA) hb (Nat.le_of_eq hsum)
      rw [hsum]
      refine ⟨hrefl, ?_, rfl, fun _ hi => absurd hi (Nat.lt_irrefl nA)⟩
      rw [Nat.sub_self]
      exact .nil
  obtain ⟨c, hc, hcas⟩ := hcascade
  obtain ⟨c', hc', hcas'⟩ := Cascaded.commonLoop hd1 hP hA₁ hB₁ (Nat.le_max_left nA nB)
    (Nat.min_le_left nA nB) (Nat.min_le_right nA nB) hcas
  obtain ⟨s₂, more, hadd, hs₂, hmore⟩ := addAny_eq hcas'.enlarged hcas'.terms hpos
  refine ⟨s₂, more, P, ?_, hs₁.trans (hcas'.enlarged.trans hs₂), hmore.congr (fun ρ => ?_),
    hP.mono (hcas'.enlarged.trans hs₂)⟩
  · unfold generateComparison
    simp only [← hd, hprop, bind_eq_bind, bind_some]
    rw [hA.length, hB.length] at hc ⊢
    simp only [bind_eq_bind] at hc hadd
    apply bind_eq_some_iff.mpr ⟨c, hc, ?_⟩
    rw [hc', bind_some, hadd, bind_some]
  · rw [exceeds, decide_eq_decide]
    constructor
    · rintro ⟨i, hi, hat⟩
      rw [Nat.zero_add] at hat
      exact ⟨i, by omega, hat⟩
    · rintro ⟨i, hi, hat⟩
      refine ⟨i, ?_, by rwa [Nat.zero_add]⟩
      by_contra hge
      rw [exceedsAt, ha ρ i (by omega) (by omega)] at hat
      simp at hat

/-- Words that are too long are never compared. -/
theorem generateComparison_wide {useEquality : Bool}
    (hge : 2 ^ 16 ≤ max A.length B.length - (if useEquality then 0 else 1)) :
    generateComparison fuel A B s useEquality = none := by
  unfold generateComparison
  simp only
  generalize (if useEquality then 0 else 1) = d at *
  apply bind_eq_none_iff.mpr
  intro r hr
  exfalso
  rw [if_pos (by omega)] at hr
  split at hr
  · cases hr
  · rw [generatePropagate_none (by rw [length_drop, length_drop]; omega)] at hr
    cases hr

theorem generateComparison_nil {useEquality : Bool} :
    generateComparison fuel [] B s useEquality = none := by
  unfold generateComparison
  simp only [length_nil, Nat.zero_min, Nat.zero_max]
  apply bind_eq_none_iff.mpr
  intro r _
  apply bind_eq_none_iff.mpr
  intro c hc
  have hor : c.orResult = [] := by
    split at hc
    · obtain ⟨r', _, heq⟩ := bind_eq_some_iff.mp hc
      rw [← some.inj heq]
    · rename_i hB
      rw [Nat.sub_zero, Nat.eq_zero_of_not_pos hB] at hc
      rw [← some.inj hc]
  simp only [Cascade.commonLoop, bind_eq_bind, bind_some, hor, length_nil,
    if_neg (Nat.not_lt_zero 1), getLast?_nil, bind_none]

/-- A second word without bits; without equality the first bit of both words is left out. -/
theorem generateComparison_empty (hA : 1 < A.length) :
    generateComparison fuel A [] s false = none := by
  unfold generateComparison
  simp only [Bool.false_eq_true, if_false, length_nil]
  rw [if_pos (.inl hA), if_pos (.inr Nat.one_pos)]
  rfl

end UtopiaEda.Synthesizer
