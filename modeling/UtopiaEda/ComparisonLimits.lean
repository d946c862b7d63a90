import UtopiaEda.BuilderLimits
import UtopiaEda.ComparisonNetworks

/-!
# The limits of comparisons

All cells of a comparison are gates of two links, at most five for every bit of the longer operand.
So no counter overflows in the comparison itself; the outputs behind the first one are links to one
constant.
-/
namespace UtopiaEda.Synthesizer
open SubnetBuilder List
open Option (bind_eq_bind bind_eq_some_iff bind_some)

/-- At most `n` gates of two links are added, and no constant. -/
structure Gates (n : ℕ) (s s' : SubnetBuilder) : Prop where
  count : ∀ i, s'.refcountAt i ≤ s.refcountAt i + 2 * n
  size : s'.size ≤ s.size + n
  constant : s'.strash (StrashKey.make .ZERO []) = s.strash (StrashKey.make .ZERO [])

variable {s s' s'' : SubnetBuilder} {t : CellTypeID} {l : Link} {m n k fuel : ℕ}
  {A B P links : List Link}

namespace Gates

theorem refl (n : ℕ) (s : SubnetBuilder) : Gates n s s :=
  ⟨fun _ => Nat.le_add_right _ _, Nat.le_add_right _ _, rfl⟩

theorem trans (h : Gates m s s') (h' : Gates n s' s'') : Gates (m + n) s s'' := by
  refine ⟨fun i => ?_, ?_, h'.constant.trans h.constant⟩
  · have := h.count i
    have := h'.count i
    omega
  · have := h.size
    have := h'.size
    omega

theorem mono (h : Gates m s s') (hle : m ≤ n) : Gates n s s' := by
  refine ⟨fun i => ?_, ?_, h.constant⟩
  · have := h.count i
    omega
  · have := h.size
    omega

theorem addCell (ht : t ≠ .ZERO) (h : s.addCell t links = some (s', l)) (hlen : links.length ≤ 2) :
    Gates 1 s s' := by
  have hcount : ∀ i, (links.map Link.idx).count i ≤ 2 := fun i =>
    List.count_le_length.trans ((length_map _).trans_le hlen)
  have hkey : StrashKey.make .ZERO [] ≠ StrashKey.make t links :=
    fun heq => ht (StrashKey.make_eq heq).1.symm
  have hstrash : s'.strash (StrashKey.make .ZERO []) = s.strash (StrashKey.make .ZERO []) := by
    rw [strash_of_addCell h]
    split
    · rw [Function.update_of_ne hkey]
    · rfl
  rcases refcountAt_addCell (Nat.le_succ_of_le hlen) h with ⟨hsize, hsame⟩ | ⟨hsize, hnew⟩
  · exact ⟨fun i => by rw [hsame i]; exact Nat.le_add_right _ _, by omega, hstrash⟩
  · refine ⟨fun i => ?_, hsize, hstrash⟩
    have := hcount i
    rw [hnew i]
    split <;> omega

theorem addCellTreeLoop (ht : t ≠ .ZERO) : ∀ {n : ℕ} {s : SubnetBuilder} {links : List Link},
    SubnetBuilder.addCellTreeLoop t 2 n s links = some (s', l) → Gates (links.length - 1) s s' := by
  intro n
  induction n with
  | zero =>
    intro s links h
    cases h
  | succ n ih =>
    intro s links h
    rw [SubnetBuilder.addCellTreeLoop] at h
    split at h
    · obtain ⟨⟨s₁, l₁⟩, hadd, hrest⟩ := bind_eq_some_iff.mp h
      have hfirst := addCell ht hadd (length_take_le 2 links)
      refine (hfirst.trans (ih hrest)).mono ?_
      rw [length_append, length_drop, length_singleton]
      omega
    · obtain ⟨l₀, -, heq⟩ := bind_eq_some_iff.mp h
      cases heq
      exact refl _ _

theorem addCellTree (ht : t ≠ .ZERO) (h : s.addCellTree t links 2 = some (s', l)) :
    Gates (max 1 (links.length - 1)) s s' := by
  have hmin : min 2 maxCellArity = 2 := by decide
  simp only [SubnetBuilder.addCellTree, hmin] at h
  split at h
  · rename_i hlen
    exact (addCell ht h hlen).mono (Nat.le_max_left _ _)
  · split at h
    · exact (addCellTreeLoop ht h).mono (Nat.le_max_right _ _)
    · cases h

end Gates

/-! ### Propagates -/

theorem countLinks_length {f : ℕ → Option Link} {bound : ℕ} (hb : bound < 2 ^ 16) :
    ∀ {fuel : ℕ} {i : UInt16} {links : List Link}, countLinks f bound fuel i = some links →
      links.length = bound - i.toNat := by
  intro fuel
  induction fuel with
  | zero =>
    intro i links h
    cases h
  | succ fuel ih =>
    intro i links h
    rw [countLinks] at h
    split at h
    · rename_i hlt
      obtain ⟨l, -, h⟩ := bind_eq_some_iff.mp h
      obtain ⟨rest, hrest, heq⟩ := bind_eq_some_iff.mp h
      cases heq
      have hnext : (i + 1).toNat = i.toNat + 1 := by
        rw [UInt16.toNat_add]
        exact Nat.mod_eq_of_lt (by rw [UInt16.toNat_one]; omega)
      have hlen := ih hrest
      rw [hnext] at hlen
      rw [length_cons, hlen]
      omega
    · cases h
      rw [length_nil]
      omega

theorem addPropagates_gates {inverse : Bool} : ∀ {A B P : List Link} {s : SubnetBuilder},
    addPropagates inverse A B s = some (s', P) → Gates A.length s s' ∧
    P.length = min A.length B.length := by
  intro A
  induction A with
  | nil =>
    intro B P s h
    cases h
    exact ⟨.refl _ _, (Nat.zero_min _).symm⟩
  | cons a A ih =>
    intro B P s h
    cases B with
    | nil =>
      cases h
      exact ⟨.refl _ _, (Nat.min_zero _).symm⟩
    | cons b B =>
      rw [addPropagates] at h
      obtain ⟨⟨s₁, l⟩, hadd, h⟩ := bind_eq_some_iff.mp h
      obtain ⟨⟨s₂, links⟩, hrest, heq⟩ := bind_eq_some_iff.mp h
      cases heq
      obtain ⟨hgates, hlen⟩ := ih hrest
      have hfirst := Gates.addCell (by decide) hadd (Nat.le_refl 2)
      refine ⟨(hfirst.trans hgates).mono (by rw [length_cons, Nat.add_comm]), ?_⟩
      simp only [length_cons, hlen]
      omega

theorem generatePropagate_gates {inverse : Bool}
    (h : generatePropagate fuel A B s inverse = some (s', P)) :
    Gates (min A.length B.length) s s' ∧ P.length = max A.length B.length := by
  have hlt : max A.length B.length < 2 ^ 16 := by
    by_contra hge
    rw [generatePropagate_none (Nat.not_lt.mp hge)] at h
    cases h
  have hmin : (min A.length B.length).toUInt16.toNat = min A.length B.length :=
    Nat.mod_eq_of_lt (by omega)
  unfold generatePropagate at h
  simp only [hmin] at h
  obtain ⟨⟨s₁, xors⟩, hadd, h⟩ := bind_eq_some_iff.mp h
  obtain ⟨surplus, hsurplus, heq⟩ := bind_eq_some_iff.mp h
  cases heq
  obtain ⟨hgates, hlen⟩ := addPropagates_gates hadd
  have hrest := countLinks_length hlt hsurplus
  rw [hmin] at hrest
  rw [length_take, length_take] at hlen
  rw [length_take] at hgates
  refine ⟨hgates.mono (by omega), ?_⟩
  rw [length_append, hlen, hrest]
  omega

/-! ### The cascade -/

theorem surplusAnd_gates {delta : ℕ} (h : surplusAnd P delta s = some (s', l)) :
    Gates delta s s' := by
  unfold surplusAnd at h
  split at h
  · refine (Gates.addCellTree (by decide) h).mono ?_
    rw [length_drop]
    omega
  · obtain ⟨l', -, heq⟩ := bind_eq_some_iff.mp h
    cases heq
    exact .refl _ _

namespace Cascade

variable {c c' : Cascade} {maxSize minSize i : ℕ}

theorem extendAnd_gates (h : extendAnd P maxSize i c = some c') :
    Gates 1 c.builder c'.builder ∧ c'.orResult = c.orResult := by
  unfold extendAnd at h
  split at h
  · obtain ⟨p, -, h⟩ := bind_eq_some_iff.mp h
    obtain ⟨⟨s, l⟩, hadd, heq⟩ := bind_eq_some_iff.mp h
    cases heq
    exact ⟨Gates.addCell (by decide) hadd (Nat.le_refl 2), rfl⟩
  · cases h
    exact ⟨.refl _ _, rfl⟩

theorem moveIterator_gates (h : moveIterator P maxSize i c = some c') :
    c'.builder = c.builder ∧ c'.orResult = c.orResult := by
  unfold moveIterator at h
  dsimp only at h
  split at h
  · obtain ⟨p, -, heq⟩ := bind_eq_some_iff.mp h
    cases heq
    exact ⟨rfl, rfl⟩
  · cases h
    exact ⟨rfl, rfl⟩

theorem surplusStep_gates (h : surplusStep P A maxSize i c = some c') :
    Gates 2 c.builder c'.builder ∧ c'.orResult.length = c.orResult.length + 1 := by
  unfold surplusStep at h
  obtain ⟨a, -, h⟩ := bind_eq_some_iff.mp h
  split at h
  · obtain ⟨hb, ho⟩ := moveIterator_gates h
    rw [hb, ho]
    exact ⟨.refl _ _, rfl⟩
  · obtain ⟨c₁, hext, h⟩ := bind_eq_some_iff.mp h
    obtain ⟨⟨s, l⟩, hadd, h⟩ := bind_eq_some_iff.mp h
    obtain ⟨hgates, ho₁⟩ := extendAnd_gates hext
    obtain ⟨hb, ho⟩ := moveIterator_gates h
    rw [hb, ho, ← ho₁]
    exact ⟨hgates.trans (Gates.addCell (by decide) hadd (Nat.le_refl 2)), rfl⟩

theorem commonStep_gates (h : commonStep P A B maxSize i c = some c') :
    Gates 3 c.builder c'.builder ∧ c'.orResult.length = c.orResult.length + 1 := by
  unfold commonStep at h
  obtain ⟨a, -, h⟩ := bind_eq_some_iff.mp h
  obtain ⟨b, -, h⟩ := bind_eq_some_iff.mp h
  obtain ⟨c₁, hext, h⟩ := bind_eq_some_iff.mp h
  obtain ⟨⟨s, l⟩, hadd, h⟩ := bind_eq_some_iff.mp h
  have hfirst : Gates 1 c.builder c₁.builder ∧ c₁.orResult = c.orResult := by
    split at hext
    · exact extendAnd_gates hext
    · cases hext
      exact ⟨.refl _ _, rfl⟩
  obtain ⟨hgates, ho₁⟩ := hfirst
  obtain ⟨hb, ho⟩ := moveIterator_gates h
  rw [hb, ho, ← ho₁]
  refine ⟨(hgates.trans (Gates.addCellTree (by decide) hadd)).mono ?_, rfl⟩
  split <;> simp only [length_cons, length_nil] <;> omega

theorem surplusLoop_gates : ∀ {k : ℕ} {c : Cascade}, surplusLoop P A maxSize minSize k c = some c' →
    Gates (2 * k) c.builder c'.builder ∧ c'.orResult.length = c.orResult.length + k := by
  intro k
  induction k with
  | zero =>
    intro c h
    cases h
    exact ⟨.refl _ _, rfl⟩
  | succ k ih =>
    intro c h
    obtain ⟨c₁, hstep, h⟩ := bind_eq_some_iff.mp h
    obtain ⟨hfirst, hlen₁⟩ := surplusStep_gates hstep
    obtain ⟨hrest, hlen⟩ := ih h
    exact ⟨(hfirst.trans hrest).mono (by omega), by omega⟩

theorem commonLoop_gates : ∀ {k : ℕ} {c : Cascade}, commonLoop P A B maxSize k c = some c' →
    Gates (3 * k) c.builder c'.builder ∧ c'.orResult.length = c.orResult.length + k := by
  intro k
  induction k with
  | zero =>
    intro c h
    cases h
    exact ⟨.refl _ _, rfl⟩
  | succ k ih =>
    intro c h
    obtain ⟨c₁, hstep, h⟩ := bind_eq_some_iff.mp h
    obtain ⟨hfirst, hlen₁⟩ := commonStep_gates hstep
    obtain ⟨hrest, hlen⟩ := ih h
    exact ⟨(hfirst.trans hrest).mono (by omega), by omega⟩

end Cascade

private theorem propagate_gates {first : ℕ}
    (h : (if first < A.length ∨ first < B.length then
      if A.length < first ∨ B.length < first then none
      else generatePropagate fuel (A.drop first) (B.drop first) s true
      else some (s, []) : Option (SubnetBuilder × List Link)) = some (s', P)) :
    Gates (min A.length B.length) s s' ∧ P.length ≤ max A.length B.length := by
  split at h
  · split at h
    · cases h
    · obtain ⟨hgates, hlen⟩ := generatePropagate_gates h
      simp only [length_drop] at hgates hlen
      exact ⟨hgates.mono (by omega), by omega⟩
  · cases h
    exact ⟨.refl _ _, Nat.zero_le _⟩

theorem generateComparison_gates {useEquality : Bool} {more : Link}
    (h : generateComparison fuel A B s useEquality = some (s', more, P)) :
    Gates (5 * max A.length B.length) s s' ∧ P.length ≤ max A.length B.length := by
  unfold generateComparison at h
  dsimp only at h
  obtain ⟨⟨s₁, propagate⟩, hpropagate, h⟩ := bind_eq_some_iff.mp h
  obtain ⟨c₁, hfirst, h⟩ := bind_eq_some_iff.mp h
  obtain ⟨c₂, hcommon, h⟩ := bind_eq_some_iff.mp h
  obtain ⟨⟨s₃, output⟩, hor, heq⟩ := bind_eq_some_iff.mp h
  cases heq
  have hgates := propagate_gates hpropagate
  have hhigh : Gates (2 * (max A.length B.length - min A.length B.length)) s₁ c₁.builder ∧
      c₁.orResult.length + min A.length B.length = A.length := by
    split at hfirst
    · obtain ⟨⟨s₂, l⟩, hand, heq⟩ := bind_eq_some_iff.mp hfirst
      cases heq
      refine ⟨(surplusAnd_gates hand).mono (by omega), ?_⟩
      simp only [length_nil]
      omega
    · obtain ⟨hgates, hlen⟩ := Cascade.surplusLoop_gates hfirst
      refine ⟨hgates, ?_⟩
      simp only [length_nil] at hlen
      omega
  obtain ⟨hlow, hlen⟩ := Cascade.commonLoop_gates hcommon
  have hlast : Gates A.length c₂.builder s₃ := by
    split at hor
    · exact (Gates.addCellTree (by decide) hor).mono (by omega)
    · obtain ⟨l, -, heq⟩ := bind_eq_some_iff.mp hor
      cases heq
      exact .refl _ _
  exact ⟨(((hgates.1.trans hhigh.1).trans hlow).trans hlast).mono (by omega), hgates.2⟩

theorem addAll_gates (h : addAll s P = some (s', l)) : Gates P.length s s' := by
  unfold addAll at h
  split at h
  · exact (Gates.addCellTree (by decide) h).mono (by omega)
  · obtain ⟨l', -, heq⟩ := bind_eq_some_iff.mp h
    cases heq
    exact .refl _ _

theorem addNone_gates (h : addNone s P = some (s', l)) : Gates P.length s s' := by
  unfold addNone at h
  split at h
  · obtain ⟨⟨s₁, l₁⟩, hadd, heq⟩ := bind_eq_some_iff.mp h
    cases heq
    exact (Gates.addCellTree (by decide) hadd).mono (by omega)
  · obtain ⟨l', -, heq⟩ := bind_eq_some_iff.mp h
    cases heq
    exact .refl _ _

theorem generateSignedComparison_gates {more signA signB : Link}
    (h : generateSignedComparison more signA signB s = some (s', l)) : Gates 5 s s' := by
  obtain ⟨⟨s₁, l₁⟩, hadd₁, h⟩ := bind_eq_some_iff.mp h
  obtain ⟨⟨s₂, l₂⟩, hadd₂, h⟩ := bind_eq_some_iff.mp h
  obtain ⟨⟨s₃, l₃⟩, hadd₃, h⟩ := bind_eq_some_iff.mp h
  have hands := ((Gates.addCell (by decide) hadd₁ (Nat.le_refl 2)).trans
    (Gates.addCell (by decide) hadd₂ (Nat.le_refl 2))).trans
    (Gates.addCell (by decide) hadd₃ (Nat.le_refl 2))
  exact hands.trans (Gates.addCellTree (by decide) h)

/-! ### The outputs -/

/-- All outputs but the first are links to one constant. -/
theorem makeRelation_counts {S : Subnet} {outWidth : UInt32} (h : HasInputs s n)
    (hs : Enlarged (.range' 0 n) [] s s') (hl : s'.ValidLinks [l])
    (hS : makeRelation s' l outWidth = some S) : ∃ s₃ outs z, (∃ W, Drawn s₃ n outs W) ∧
    s₃.make = some S ∧ s₃.size ≤ s'.size + 1 + max 1 outWidth.toNat ∧
      (∀ i, s₃.refcountAt i ≤ s'.refcountAt i + [l.idx].count i + if i = z then
        outWidth.toNat - 1 else 0) ∧
      (1 < outWidth.toNat → (s₃.liveCell z).isSome ∧ outWidth.toNat - 1 ≤ s₃.refcountAt z ∧
        (s'.strash (StrashKey.make .ZERO []) = none → s'.size ≤ z)) := by
  have hdrawn : Drawn s' n [] (fun _ _ => false) := h.drawn.enlarge hs
  obtain ⟨mid, hgrown⟩ := hdrawn.grown
  obtain ⟨s₁, outs₁, hadd₁, hlen₁, hle₁, hdrawn₁⟩ :=
    hdrawn.addOutputs (Spells.singleton (Computes.of_valid hl))
  obtain ⟨⟨s₁', o⟩, hout, hrest⟩ :=
    bind_eq_some_iff.mp (show (s'.addOutput l).bind _ = _ from hadd₁)
  obtain rfl := Option.some.inj hrest
  obtain ⟨hsize₁, hcount₁⟩ := hgrown.addOutput_counts hl hout
  change outs₁.length = 1 at hlen₁
  have hcounts := hdrawn₁.counts
  simp only [Prod.mk.injEq, hlen₁] at hcounts
  unfold makeRelation at hS
  rw [bind_eq_bind, hout, bind_some] at hS
  unfold extendOutput at hS
  simp only [hcounts.2] at hS
  by_cases hle : outWidth.toNat ≤ 1
  · rw [if_pos hle] at hS
    refine ⟨_, outs₁, 0, ⟨_, hdrawn₁⟩,
      hS, by omega, fun i => ?_, fun hlt => absurd hlt (Nat.not_lt.mpr hle)⟩
    rw [hcount₁ i]
    exact Nat.le_add_right _ _
  · obtain ⟨mid₁, hgrown₁⟩ := hdrawn₁.grown
    obtain ⟨s₂, zero, hzero, -, hs₂, hcz⟩ := hdrawn₁.enlarged.addConstant false
    have hdrawn₂ := hdrawn₁.enlarge hs₂
    obtain ⟨mid₂, hgrown₂⟩ := hdrawn₂.grown
    have hzeros := Spells.replicate (n := outWidth.toNat - 1) hcz
    obtain ⟨s₃, outs₃, hadd₃, -, hle₃, hdrawn₃⟩ := hdrawn₂.addOutputs hzeros
    obtain ⟨hsize₃, hcount₃⟩ := hgrown₂.addOutputs_counts hzeros.valid hadd₃
    have hcounts₂ := hdrawn₂.counts
    simp only [Prod.mk.injEq, hlen₁] at hcounts₂
    simp only [Bool.false_eq_true, if_false] at hzero
    have hv : s₁'.ValidLinks [] := fun k hk => by cases hk
    have hfresh := hgrown₁.addCell_counts hv (Nat.zero_le _) rfl (by decide) (by decide) hzero
    have hcount₂ : ∀ i, s₂.refcountAt i = s₁'.refcountAt i := by
      rcases hfresh with ⟨rfl, -⟩ | ⟨-, -, hcount⟩
      · exact fun i => rfl
      · exact fun i => hcount i
    have hsize₂ : s₂.size ≤ s₁'.size + 1 := by
      rcases hfresh with ⟨rfl, -⟩ | ⟨-, hsize, -⟩
      · exact Nat.le_succ _
      · exact Nat.le_of_eq hsize
    have hreps : ∀ i, ((List.replicate (outWidth.toNat - 1) zero).map Link.idx).count i =
        if i = zero.idx then outWidth.toNat - 1 else 0 := by
      intro i
      rw [map_replicate, count_replicate]
      simp only [beq_iff_eq, @eq_comm _ i]
    rw [if_neg hle] at hS
    simp only [Bool.false_and, Bool.false_eq_true, if_false, hzero, bind_eq_bind,
      bind_some, hcounts₂.2, hadd₃] at hS
    refine ⟨s₃, outs₃, zero.idx, ⟨_, hdrawn₃⟩, hS, ?_, fun i => ?_,
      fun _ => ⟨?_, ?_, fun hnone => ?_⟩⟩
    · rw [hsize₃, length_replicate]
      omega
    · rw [hcount₃ i, hcount₂ i, hcount₁ i, hreps i]
    · obtain ⟨c, hc, -⟩ := (hcz.1.mono hle₃) zero (mem_singleton_self _)
      rw [hc]
      rfl
    · rw [hcount₃, hreps, if_pos rfl]
      exact Nat.le_add_left _ _
    · rcases hfresh with ⟨-, hk⟩ | ⟨hidx, -, -⟩
      · rw [strash_of_addCell hout, if_neg (by simp [StrashKey.isEnabled]), hnone] at hk
        cases hk
      · rw [hidx, hsize₁]
        exact Nat.le_succ _

/-- With gates that fit, the counter of the constant is the first one to overflow. -/
theorem makeRelation_fits {S : Subnet} {outWidth : UInt32} (h : HasInputs s n)
    (hs : Enlarged (.range' 0 n) [] s s') (hl : s'.ValidLinks [l]) (hg : Gates k s s')
    (hn : n + k < 2 ^ 20 - 2) (hk : k < 2 ^ 19 - 1) (hS : makeRelation s' l outWidth = some S) :
    S.FitsLimits ↔ outWidth.toNat ≤ 2 ^ 20 := by
  have hlimit : maxRefCount = 1048575 := by decide
  have hblock : maxEntries = 2097151 := by decide
  have hlt := lt_size_of_valid hl (mem_singleton_self l)
  have hsize := hg.size
  rw [h.size] at hsize
  obtain ⟨s₃, outs, z, ⟨W, hdrawn⟩, hmade, hsize₃, hcount, hz⟩ := makeRelation_counts h hs hl hS
  have hgate : ∀ i, s'.refcountAt i ≤ 2 * k := by
    intro i
    have := hg.count i
    rwa [h.refcountAt_eq, Nat.zero_add] at this
  have hlink : ∀ i, [l.idx].count i ≤ 1 := fun i => count_le_length
  rw [hdrawn.fits_iff hmade]
  constructor
  · rintro ⟨-, hfit⟩
    by_contra hwide
    obtain ⟨hlive, hle, -⟩ := hz (by omega)
    obtain ⟨c, hc⟩ := Option.isSome_iff_exists.mp hlive
    have := hfit z c hc
    rw [refcountAt_of_getCell (getCell_of_live hc)] at hle
    omega
  · intro hwidth
    refine ⟨by omega, .of_refcountAt fun i => ?_⟩
    have hall := hcount i
    have hgates := hgate i
    have hone := hlink i
    split at hall
    · rename_i hi
      by_cases hmany : 1 < outWidth.toNat
      · have hnew := (hz hmany).2.2 (hg.constant.trans h.strash_constant)
        rw [hi, refcountAt_of_size_le hnew, count_eq_zero_of_not_mem (fun hmem =>
          absurd (List.mem_singleton.mp hmem) (Nat.ne_of_gt (Nat.lt_of_lt_of_le hlt hnew)))] at hall
        rw [hi]
        omega
      · omega
    · omega

end UtopiaEda.Synthesizer
