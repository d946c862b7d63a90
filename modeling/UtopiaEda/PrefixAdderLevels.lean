import UtopiaEda.LinkFunctions
import UtopiaEda.PrefixAdder
import UtopiaEda.PrefixCarries

/-!
# The levels of the prefix adder

Every position stands for a block of positions that ends there. A batch lets the blocks of its
children begin where the block of the parent begins, a level doubles the width of the blocks, and
behind the last level the even positions have the carries.
-/
namespace UtopiaEda.Synthesizer

open List
open Option (bind_eq_bind bind_eq_some_iff bind_some some.inj)
open Function (update update_self update_of_ne)
open SubnetBuilder PrefixCarries

variable {s s' s'' : SubnetBuilder} {ins outs : List EntryID} {st st' : PrefixState}
  {n b c size front : ℕ} {lo lo' : ℕ → ℕ} {p g : (EntryID → ℕ → Bool) → ℕ → Bool} {P G : List Link}
  {Z : List Bool} {parentP parentG childP childG : Link}

def Propagating (s : SubnetBuilder) (p : (EntryID → ℕ → Bool) → ℕ → Bool) (n : ℕ) (lo : ℕ → ℕ)
    (P : List Link) : Prop :=
  ∀ i < n, ∃ l, P[i]? = some l ∧
    (0 < lo i → s.Computes l (fun ρ => propagates (p ρ) (lo i) (i + 1)))

/-- The blocks generate what their links say; the positions from `front` on generate nothing, and
blocks of them have no link. -/
def Generating (s : SubnetBuilder) (p g : (EntryID → ℕ → Bool) → ℕ → Bool) (n front : ℕ)
    (lo : ℕ → ℕ) (G : List Link) (Z : List Bool) : Prop :=
  ∀ i < n, ∃ l z, G[i]? = some l ∧ Z[i]? = some z ∧
    if z then s.Computes l (fun ρ => generates (p ρ) (g ρ) (lo i) (i + 1))
    else l = ⟨0, 0, false⟩ ∧ front ≤ lo i ∧ ∀ ρ, generates (p ρ) (g ρ) (lo i) (i + 1) = false

theorem Propagating.mono (h : Propagating s p n lo P) (hs : Enlarged ins outs s s') :
    Propagating s' p n lo P := by
  intro i hi
  obtain ⟨l, hl, hc⟩ := h i hi
  exact ⟨l, hl, fun hpos => (hc hpos).mono hs⟩

theorem Generating.mono (h : Generating s p g n front lo G Z) (hs : Enlarged ins outs s s') :
    Generating s' p g n front lo G Z := by
  intro i hi
  obtain ⟨l, z, hl, hz, hc⟩ := h i hi
  refine ⟨l, z, hl, hz, ?_⟩
  cases z with
  | false => exact hc
  | true => exact Computes.mono hc hs

theorem Propagating.congr (h : Propagating s p n lo P) (hlo : ∀ i < n, lo i = lo' i) :
    Propagating s p n lo' P := by
  intro i hi
  rw [← hlo i hi]
  exact h i hi

theorem Generating.congr (h : Generating s p g n front lo G Z) (hlo : ∀ i < n, lo i = lo' i) :
    Generating s p g n front lo' G Z := by
  intro i hi
  rw [← hlo i hi]
  exact h i hi

private theorem Propagating.set {l : Link} (h : Propagating s p n lo P) {a : ℕ}
    (hl : 0 < a → s.Computes l (fun ρ => propagates (p ρ) a (c + 1))) :
    Propagating s p n (update lo c a) (P.set c l) := by
  intro i hi
  obtain ⟨k, hk, hc⟩ := h i hi
  have hlen := (List.getElem?_eq_some_iff.mp hk).1
  by_cases hic : i = c
  · subst hic
    refine ⟨l, by rw [getElem?_set_self hlen], ?_⟩
    rw [update_self]
    exact hl
  · refine ⟨k, by rw [getElem?_set_ne (Ne.symm hic), hk], ?_⟩
    rw [update_of_ne hic]
    exact hc

private theorem Generating.set {l : Link} (h : Generating s p g n front lo G Z) {a : ℕ}
    (hl : s.Computes l (fun ρ => generates (p ρ) (g ρ) a (c + 1))) :
    Generating s p g n front (update lo c a) (G.set c l) (Z.set c true) := by
  intro i hi
  obtain ⟨k, z, hk, hz, hc⟩ := h i hi
  have hlen := (List.getElem?_eq_some_iff.mp hk).1
  have hlenz := (List.getElem?_eq_some_iff.mp hz).1
  by_cases hic : i = c
  · subst hic
    refine ⟨l, true, by rw [getElem?_set_self hlen], by rw [getElem?_set_self hlenz], ?_⟩
    rw [update_self]
    exact hl
  · refine ⟨k, z, by rw [getElem?_set_ne (Ne.symm hic), hk], by rw [getElem?_set_ne (Ne.symm hic),
      hz], ?_⟩
    rw [update_of_ne hic]
    exact hc

private theorem propagateChild_eq {basicStep : ℕ} (h : Enlarged ins outs s s')
    (hP : Propagating s' p n lo st.pOutputs) (hc : c < n) (hb : 0 < b) (hbc : b ≤ c)
    (hlo : lo c = b) (hle : lo (b - 1) ≤ b) (hfirst : b + 1 = basicStep ↔ lo (b - 1) = 0)
    (hchild : st.pOutputs[c]? = some childP) (hparent : st.pOutputs[b - 1]? = some parentP) :
    ∃ s'' st', propagateChild basicStep b parentP childP c s' st = some (s'', st') ∧
    Enlarged ins outs s s'' ∧
      Enlarged ins outs s' s'' ∧ Propagating s'' p n (update lo c (lo (b - 1))) st'.pOutputs ∧
      st'.pOutputs[b - 1]? = some parentP ∧ st'.gOutputs = st.gOutputs ∧ st'.isNotZero =
      st.isNotZero := by
  obtain ⟨mid, hgrown⟩ := h.grown
  unfold propagateChild
  by_cases hstep : b + 1 = basicStep
  · rw [if_pos hstep]
    refine ⟨s', st, rfl, h, .refl hgrown, ?_, hparent, rfl, rfl⟩
    have hset := hP.set (c := c) (l := childP) (a := lo (b - 1))
      (fun hpos => absurd (hfirst.mp hstep) (Nat.ne_of_gt hpos))
    have hsame : st.pOutputs.set c childP = st.pOutputs := by
      obtain ⟨hlen, hget⟩ := List.getElem?_eq_some_iff.mp hchild
      rw [← hget]
      exact set_getElem_self hlen
    rwa [hsame] at hset
  · rw [if_neg hstep]
    obtain ⟨l, hl, hchildC⟩ := hP c hc
    obtain rfl := some.inj (hchild.symm.trans hl)
    obtain ⟨l', hl', hparentC⟩ := hP (b - 1) (by omega)
    obtain rfl := some.inj (hparent.symm.trans hl')
    have hpos : 0 < lo (b - 1) := Nat.pos_of_ne_zero (fun hzero => hstep (hfirst.mpr hzero))
    rw [hlo] at hchildC
    rw [Nat.sub_add_cancel hb] at hparentC
    obtain ⟨s'', l'', hadd, h', hs, hlink⟩ := h.addAnd (hchildC hb) (hparentC hpos)
    refine ⟨s'', { st with pOutputs := st.pOutputs.set c l'' }, by
      rw [hadd]; rfl, h', hs, ?_, ?_, rfl, rfl⟩
    · apply (hP.mono hs).set
      intro _
      exact hlink.congr (fun ρ => (propagates_join hle (Nat.le_succ_of_le hbc)).symm)
    · have hne : c ≠ b - 1 := by omega
      rw [getElem?_set_ne hne]
      exact hparent

theorem generateChild_eq {parentNotZero : Bool} {a : ℕ} {z : Bool} (h : Enlarged ins outs s s')
    (hG : Generating s' p g n front lo st.gOutputs st.isNotZero) (hc : c < n) (hbc : b ≤ c)
    (hlo : lo c = b) (hle : a ≤ b)
    (hchildP : s'.Computes childP (fun ρ => propagates (p ρ) b (c + 1)))
    (hchildG : st.gOutputs[c]? = some childG) (hz : st.isNotZero[c]? = some z)
    (hparent : if parentNotZero then s'.Computes parentG (fun ρ => generates (p ρ) (g ρ) a b)
      else front ≤ a ∧ ∀ ρ, generates (p ρ) (g ρ) a b = false) :
    ∃ s'' st', generateChild parentG childP childG parentNotZero z c s' st = some (s'', st') ∧
      Enlarged ins outs s s'' ∧ Enlarged ins outs s' s'' ∧
      Generating s'' p g n front (update lo c a) st'.gOutputs st'.isNotZero ∧
      st'.pOutputs = st.pOutputs ∧ st'.gOutputs.length = st.gOutputs.length ∧ ∀ i, i ≠ c →
      st'.gOutputs[i]? = st.gOutputs[i]? := by
  obtain ⟨mid, hgrown⟩ := h.grown
  obtain ⟨l, z', hl, hz', hchild⟩ := hG c hc
  obtain rfl := some.inj (hchildG.symm.trans hl)
  obtain rfl := some.inj (hz.symm.trans hz')
  rw [hlo] at hchild
  have hjoin : ∀ ρ, generates (p ρ) (g ρ) a (c + 1) =
      (generates (p ρ) (g ρ) b (c + 1) || (propagates (p ρ) b (c + 1) && generates (p ρ)
        (g ρ) a b)) :=
    fun ρ => generates_join hle (Nat.le_succ_of_le hbc)
  cases parentNotZero with
  | false =>
    have hparent : front ≤ a ∧ ∀ ρ, generates (p ρ) (g ρ) a b = false := hparent
    refine ⟨s', st, rfl, h, .refl hgrown, fun i hi => ?_, rfl, rfl, fun i _ => rfl⟩
    by_cases hic : i = c
    · subst hic
      refine ⟨childG, z, hchildG, hz, ?_⟩
      rw [update_self]
      simp only [hjoin, hparent.2, Bool.and_false, Bool.or_false]
      cases z with
      | false => exact ⟨And.left hchild, hparent.1, hchild.2.2⟩
      | true => exact hchild
    · rw [update_of_ne hic]
      exact hG i hi
  | true =>
    have hparent : s'.Computes parentG (fun ρ => generates (p ρ) (g ρ) a b) := hparent
    obtain ⟨s₁, l₁, hadd₁, h₁, hs₁, hlink₁⟩ := h.addAnd hchildP hparent
    cases z with
    | false =>
      have hchild : ∀ ρ, generates (p ρ) (g ρ) b (c + 1) = false := And.right (And.right hchild)
      refine ⟨s₁, ⟨st.pOutputs, st.gOutputs.set c l₁, st.isNotZero.set c true⟩, ?_, h₁,
        hs₁, ?_, rfl, length_set, fun i hi => getElem?_set_ne (Ne.symm hi)⟩
      · rw [generateChild, if_pos rfl, hadd₁]
        rfl
      · apply (hG.mono hs₁).set
        apply hlink₁.congr
        intro ρ
        rw [hjoin, hchild, Bool.false_or]
    | true =>
      have hchild : s'.Computes childG (fun ρ => generates (p ρ) (g ρ) b (c + 1)) := hchild
      obtain ⟨s₂, l₂, hadd₂, h₂, hs₂, hlink₂⟩ := h₁.addOr (hchild.mono hs₁) hlink₁
      refine ⟨s₂, ⟨st.pOutputs, st.gOutputs.set c l₂, st.isNotZero.set c true⟩, ?_, h₂,
        hs₁.trans hs₂, ?_, rfl, length_set, fun i hi => getElem?_set_ne (Ne.symm hi)⟩
      · rw [generateChild, if_pos rfl, hadd₁]
        simp only [bind_eq_bind, bind_some, if_true, hadd₂]
      · apply (hG.mono (hs₁.trans hs₂)).set
        exact hlink₂.congr (fun ρ => (hjoin ρ).symm)

structure Covering (s : SubnetBuilder) (p g : (EntryID → ℕ → Bool) → ℕ → Bool) (n front size : ℕ)
    (lo : ℕ → ℕ)
    (st : PrefixState) : Prop where
  propagating : Propagating s p n lo st.pOutputs
  generating : Generating s p g n front lo st.gOutputs st.isNotZero
  size : st.gOutputs.length = size

theorem Covering.congr (h : Covering s p g n front size lo st) (hlo : ∀ i < n, lo i = lo' i) :
    Covering s p g n front size lo' st :=
  ⟨h.propagating.congr hlo, h.generating.congr hlo, h.size⟩

private theorem addChild_eq {basicStep : ℕ} (h : Enlarged ins outs s s')
    (hst : Covering s' p g n front size lo st) (hc : c < n) (hb : 0 < b) (hbc : b ≤ c)
    (hlo : lo c = b) (hle : lo (b - 1) ≤ b) (hfirst : b + 1 = basicStep ↔ lo (b - 1) = 0)
    (hP : st.pOutputs[b - 1]? = some parentP) (hG : st.gOutputs[b - 1]? = some parentG) :
    ∃ s'' st', addChild basicStep b parentP parentG c s' st = some (s'', st') ∧
    Enlarged ins outs s s'' ∧
      Covering s'' p g n front size (update lo c (lo (b - 1))) st' ∧ st'.pOutputs[b - 1]? =
      some parentP ∧ st'.gOutputs[b - 1]? = some parentG := by
  obtain ⟨childP, hchildP, hprop⟩ := hst.propagating c hc
  obtain ⟨childG, z, hchildG, hz, -⟩ := hst.generating c hc
  obtain ⟨parentG', z', hG', hz', hparent⟩ := hst.generating (b - 1) (by omega)
  obtain rfl := some.inj (hG.symm.trans hG')
  obtain ⟨s₁, st₁, hrun₁, h₁, hs₁, hP₁, hparentP₁, hG₁, hZ₁⟩ :=
    propagateChild_eq h hst.propagating hc hb hbc hlo hle hfirst hchildP hP
  rw [hlo] at hprop
  have hgen₁ : Generating s₁ p g n front lo st₁.gOutputs st₁.isNotZero := by
    rw [hG₁, hZ₁]
    exact hst.generating.mono hs₁
  rw [Nat.sub_add_cancel hb] at hparent
  have hparent₁ : if z' then s₁.Computes parentG (fun ρ => generates (p ρ) (g ρ) (lo (b - 1)) b)
      else front ≤ lo (b - 1) ∧ ∀ ρ, generates (p ρ) (g ρ) (lo (b - 1)) b = false := by
    cases z' with
    | false => exact And.right hparent
    | true => exact Computes.mono hparent hs₁
  obtain ⟨s₂, st₂, hrun₂, h₂, hs₂, hgen₂, hP₂, hlen, hother⟩ :=
    generateChild_eq h₁ hgen₁ hc hbc hlo hle
    ((hprop hb).mono hs₁) (hG₁ ▸ hchildG) (hZ₁ ▸ hz) hparent₁
  have hne : b - 1 ≠ c := by omega
  refine ⟨s₂, st₂, ?_, h₂, ⟨?_,
    hgen₂, by rw [hlen, hG₁, hst.size]⟩, by rw [hP₂]; exact hparentP₁, ?_⟩
  · simp only [addChild, hchildP, hchildG, hrun₁, hZ₁, hz, hz', hrun₂, bind_eq_bind, bind_some]
  · rw [hP₂]
    exact hP₁.mono hs₂
  · rw [hother _ hne, hG₁]
    exact hG

private theorem addChildren_eq {basicStep : ℕ} (hb : 0 < b) (hle : lo (b - 1) ≤ b)
    (hfirst : b + 1 = basicStep ↔ lo (b - 1) = 0) : ∀ {c : ℕ} {lo' : ℕ → ℕ} {s' : SubnetBuilder}
    {st : PrefixState}, c < n → Enlarged ins outs s s' → Covering s' p g n front size lo' st →
    lo' (b - 1) = lo (b - 1) → (∀ i ≤ c, b ≤ i → i % 2 = c % 2 → lo' i = b) → st.pOutputs[b - 1]? =
    some parentP → st.gOutputs[b - 1]? = some parentG → ∃ s'' st', addChildren basicStep b parentP
    parentG c s' st = some (s'', st') ∧ Enlarged ins outs s s'' ∧
      Covering s'' p g n front size (fun i => if b ≤ i ∧ i ≤ c ∧ i % 2 = c % 2 then lo (b - 1) else
      lo' i) st' := by
  have hlast : ∀ {c : ℕ} {lo' : ℕ → ℕ} {s' : SubnetBuilder} {st : PrefixState}, c < b →
      Enlarged ins outs s s' → Covering s' p g n front size lo' st → ∃ s'' st', some (s', st) =
      some (s'', st') ∧
        Enlarged ins outs s s'' ∧
        Covering s'' p g n front size (fun i => if b ≤ i ∧ i ≤ c ∧ i % 2 = c % 2 then
        lo (b - 1) else lo' i) st' := by
    intro c lo' s' st hlt h hst
    refine ⟨s', st, rfl, h, hst.congr (fun i _ => ?_)⟩
    rw [if_neg (by omega)]
  intro c
  induction c using Nat.twoStepInduction with
  | zero =>
    intro lo' s' st _ h hst _ _ _ _
    have hrun : addChildren basicStep b parentP parentG 0 s' st = some (s', st) :=
      if_neg (Nat.not_le.mpr hb)
    rw [hrun]
    exact hlast hb h hst
  | one =>
    intro lo' s' st hc h hst hpar hchild hP hG
    have hrun : addChildren basicStep b parentP parentG 1 s' st =
        if b ≤ 1 then addChild basicStep b parentP parentG 1 s' st else some (s', st) := rfl
    rw [hrun]
    by_cases hbc : b ≤ 1
    · rw [if_pos hbc]
      obtain ⟨s₁, st₁, hrun, h₁, hst₁, -, -⟩ :=
        addChild_eq h hst hc hb hbc (hchild 1 (Nat.le_refl 1) hbc rfl)
        (hpar ▸ hle) (hpar ▸ hfirst) hP hG
      refine ⟨s₁, st₁, hrun, h₁, hst₁.congr (fun i _ => ?_)⟩
      by_cases hi : i = 1
      · subst hi
        rw [update_self, if_pos ⟨hbc, Nat.le_refl 1, rfl⟩, hpar]
      · rw [update_of_ne hi, if_neg (by omega)]
    · rw [if_neg hbc]
      exact hlast (Nat.not_le.mp hbc) h hst
  | more c ih =>
    intro lo' s' st hc h hst hpar hchild hP hG
    rw [addChildren]
    by_cases hbc : b ≤ c + 2
    · rw [if_pos hbc]
      obtain ⟨s₁, st₁, hrun, h₁, hst₁, hP₁, hG₁⟩ :=
        addChild_eq h hst hc hb hbc (hchild _ (Nat.le_refl _) hbc rfl)
        (hpar ▸ hle) (hpar ▸ hfirst) hP hG
      obtain ⟨s₂, st₂, hrun₂, h₂, hst₂⟩ := ih (by omega) h₁ hst₁
        (by rw [update_of_ne (by omega)]; exact hpar) (fun i hi hbi hpar' => by
          rw [update_of_ne (by omega)]
          exact hchild i (by omega) hbi (by omega)) hP₁ hG₁
      refine ⟨s₂, st₂, ?_, h₂, hst₂.congr (fun i _ => ?_)⟩
      · simp only [hrun, bind_eq_bind, bind_some, hrun₂]
      · by_cases hi : i = c + 2
        · subst hi
          rw [if_neg (by omega), if_pos ⟨hbc, Nat.le_refl _, rfl⟩, update_self, hpar]
        · by_cases hin : b ≤ i ∧ i ≤ c ∧ i % 2 = c % 2
          · rw [if_pos hin, if_pos ⟨hin.1, by omega, by omega⟩]
          · rw [if_neg hin, update_of_ne hi, if_neg (by omega)]
    · rw [if_neg hbc]
      exact hlast (Nat.not_le.mp hbc) h hst

/-- Where the blocks begin on the level with blocks of width `d`, behind `k` batches. -/
def levelStart (d k i : ℕ) : ℕ :=
  if i % 2 = 1 then i else if (i + 1) / (2 * d) < k then blockStart (2 * d) i else blockStart d i

private theorem div_eq_odd {d k i : ℕ} (hd : 0 < d) :
    (i + 1) / d = 2 * k + 1 ↔ d * (2 * k) + d ≤ i + 1 ∧ i + 1 < d * (2 * k) + 2 * d := by
  rw [Nat.div_eq_iff hd, Nat.add_mul, Nat.mul_comm (2 * k) d]
  omega

private theorem div_eq_even {d k i : ℕ} (hd : 0 < d) :
    (i + 1) / d = 2 * k ↔ d * (2 * k) ≤ i + 1 ∧ i + 1 < d * (2 * k) + d := by
  rw [Nat.div_eq_iff hd, Nat.mul_comm (2 * k) d]
  omega

private theorem levelStart_child {d k i : ℕ} (hi : i % 2 = 0) (hq : (i + 1) / d = 2 * k + 1) :
    levelStart d k i = d * (2 * k) + d - 1 ∧ levelStart d (k + 1) i = d * (2 * k) - 1 := by
  have hhalf : (i + 1) / (2 * d) = k := by
    rw [div_double]
    omega
  have heven : ¬ i % 2 = 1 := by omega
  constructor
  · rw [levelStart, if_neg heven, hhalf, if_neg (Nat.lt_irrefl k), blockStart_of_div hq,
      Nat.mul_add, Nat.mul_one]
  · rw [levelStart, if_neg heven, hhalf, if_pos (Nat.lt_succ_self k), blockStart_double (.inr hq)]

private theorem levelStart_other {d k i : ℕ} (hq : (i + 1) / d ≠ 2 * k + 1) :
    levelStart d (k + 1) i = levelStart d k i := by
  unfold levelStart
  split
  · rfl
  · by_cases hlt : (i + 1) / (2 * d) < k
    · rw [if_pos hlt, if_pos (Nat.lt_succ_of_lt hlt)]
    · rw [if_neg hlt]
      split
      · have heven : (i + 1) / d = 2 * k := by
          rw [div_double] at *
          omega
        rw [blockStart_double (.inl heven), blockStart_of_div heven]
      · rfl

private theorem levelStart_parent {d k : ℕ} (hd : d = 1 ∨ d % 2 = 0) (hd0 : 0 < d)
    (hb : 0 < d * (2 * k) + d - 1) : levelStart d k (d * (2 * k) + d - 1 - 1) =
    d * (2 * k) - 1 := by
  rcases hd with rfl | hd
  · rw [levelStart, if_pos (by omega)]
    omega
  · have hmod : d * (2 * k) % 2 = 0 := by
      rw [Nat.mul_mod, hd, Nat.zero_mul]
    have hq : (d * (2 * k) + d - 1 - 1 + 1) / d = 2 * k := by
      rw [div_eq_even hd0]
      omega
    have hhalf : (d * (2 * k) + d - 1 - 1 + 1) / (2 * d) = k := by
      rw [div_double, hq]
      omega
    rw [levelStart, if_neg (by omega), hhalf, if_neg (Nat.lt_irrefl k), blockStart_of_div hq]

private theorem addBatch_eq {d k : ℕ} (h : Enlarged ins outs s s') (hd : d = 1 ∨ d % 2 = 0)
    (hd0 : 0 < d) (hb : d * (2 * k) + d - 1 ≤ n)
    (hst : Covering s' p g n front size (levelStart d k) st) :
    ∃ s'' st', addBatch n d (d * (2 * k) + d - 1) s' st = some (s'', st') ∧
    Enlarged ins outs s s'' ∧
      Covering s'' p g n front size (levelStart d (k + 1)) st' := by
  unfold addBatch
  by_cases hzero : d * (2 * k) + d - 1 = 0
  · rw [if_pos hzero]
    refine ⟨s', st, rfl, h, hst.congr (fun i _ => ?_)⟩
    have hd1 : d = 1 := by omega
    have hk : k = 0 := by
      subst hd1
      omega
    subst hd1 hk
    by_cases hq : (i + 1) / 1 = 2 * 0 + 1
    · obtain rfl : i = 0 := by omega
      rfl
    · exact (levelStart_other hq).symm
  · rw [if_neg hzero]
    have hpos := Nat.pos_of_ne_zero hzero
    have hparent := levelStart_parent hd hd0 hpos
    obtain ⟨parentP, hP, -⟩ := hst.propagating (d * (2 * k) + d - 1 - 1) (by omega)
    obtain ⟨parentG, z, hG, -, -⟩ := hst.generating (d * (2 * k) + d - 1 - 1) (by omega)
    have hmod : d * (2 * k) % 2 = 0 := by
      rw [Nat.mul_comm, Nat.mul_assoc, Nat.mul_mod_right]
    generalize htop : min (d - 1 + (d * (2 * k) + d - 1)) (n - 1 - (if n % 2 = 0 then 1 else 0)) =
      top
    have heven : top % 2 = 0 := by
      rw [← htop]
      split <;> omega
    have hlt : top < n := by
      rw [← htop]
      omega
    have hin : ∀ i < n, i % 2 = 0 →
        (d * (2 * k) + d - 1 ≤ i ∧ i ≤ top ↔ (i + 1) / d = 2 * k + 1) := by
      intro i hi hpar
      rw [div_eq_odd hd0, ← htop]
      split <;> omega
    have hfirst : d * (2 * k) + d - 1 + 1 = d ↔ d * (2 * k) - 1 = 0 := by omega
    obtain ⟨s₁, st₁, hrun, h₁, hst₁⟩ := addChildren_eq hpos (hparent.trans_le (by omega))
      (hparent ▸ hfirst) hlt h hst rfl (fun i hi hbi hpar => by
        have hq := (hin i (by omega) (by omega)).mp ⟨hbi, hi⟩
        exact (levelStart_child (by omega) hq).1) hP hG
    refine ⟨s₁, st₁, ?_, h₁, hst₁.congr (fun i hi => ?_)⟩
    · simp only [hP, hG, hrun, bind_eq_bind, bind_some]
    · by_cases hchild : d * (2 * k) + d - 1 ≤ i ∧ i ≤ top ∧ i % 2 = top % 2
      · obtain ⟨hbi, hit, hpar⟩ := hchild
        have hi0 : i % 2 = 0 := hpar.trans heven
        have hq := (hin i hi hi0).mp ⟨hbi, hit⟩
        rw [if_pos ⟨hbi, hit, hpar⟩, hparent, (levelStart_child hi0 hq).2]
      · rw [if_neg hchild]
        by_cases hq : (i + 1) / d = 2 * k + 1
        · have hodd : i % 2 = 1 := by
            by_contra hne
            have hi0 : i % 2 = 0 := by omega
            obtain ⟨hbi, hit⟩ := (hin i hi hi0).mpr hq
            exact hchild ⟨hbi, hit, hi0.trans heven.symm⟩
          rw [levelStart, levelStart, if_pos hodd, if_pos hodd]
        · exact (levelStart_other hq).symm

private theorem levelStart_done {d k i : ℕ} (hd0 : 0 < d) (hb : n < d * (2 * k) + d - 1)
    (hi : i < n) : levelStart d k i = levelStart (2 * d) 0 i := by
  unfold levelStart
  split
  · rfl
  · rw [if_neg (Nat.not_lt_zero _)]
    split
    · rfl
    · rename_i hlt
      have hle : k * (2 * d) ≤ i + 1 := (Nat.le_div_iff_mul_le (by omega)).mp (Nat.not_lt.mp hlt)
      have hmul : k * (2 * d) = d * (2 * k) := by
        rw [Nat.mul_left_comm, Nat.mul_comm k d, Nat.mul_left_comm]
      have hq : (i + 1) / d = 2 * k := by
        rw [div_eq_even hd0]
        omega
      rw [blockStart_of_div hq, blockStart_double (.inl hq)]

private theorem addBatches_eq {d : ℕ} (hd : d = 1 ∨ d % 2 = 0) (hd0 : 0 < d)
    (hwrap : ∀ k, d * (2 * k) + d - 1 ≤ n → d * (2 * k) + d - 1 + 2 * d < 2 ^ 16) :
    ∀ {N k : ℕ} {s' : SubnetBuilder} {st : PrefixState}, n + 2 ≤ d * (2 * k) + d - 1 + N → 1 ≤ N →
      Enlarged ins outs s s' → Covering s' p g n front size (levelStart d k) st →
      ∃ s'' st', addBatches n d (2 * d) N (d * (2 * k) + d - 1) s' st = some (s'', st') ∧
      Enlarged ins outs s s'' ∧
        Covering s'' p g n front size (levelStart (2 * d) 0) st' := by
  intro N
  induction N with
  | zero =>
    intro k s' st _ hN
    exact absurd hN (by decide)
  | succ N ih =>
    intro k s' st hfuel _ h hst
    rw [addBatches]
    by_cases hb : d * (2 * k) + d - 1 ≤ n
    · rw [if_pos hb]
      obtain ⟨s₁, st₁, hrun, h₁, hst₁⟩ := addBatch_eq h hd hd0 hb hst
      have hmul : d * (2 * (k + 1)) = d * (2 * k) + 2 * d := by
        rw [Nat.mul_add 2, Nat.mul_add d, Nat.mul_one, Nat.mul_comm d 2]
      have hnext : (d * (2 * k) + d - 1 + 2 * d) % 2 ^ 16 = d * (2 * (k + 1)) + d - 1 := by
        rw [Nat.mod_eq_of_lt (hwrap k hb), hmul]
        omega
      obtain ⟨s₂, st₂, hrun₂, h₂, hst₂⟩ := ih (k := k + 1) (by omega) (by omega) h₁ hst₁
      refine ⟨s₂, st₂, ?_, h₂, hst₂⟩
      simp only [hrun, bind_eq_bind, bind_some, hnext, hrun₂]
    · rw [if_neg hb]
      exact ⟨s', st, rfl, h, hst.congr (fun i hi => levelStart_done hd0 (Nat.not_le.mp hb) hi)⟩

theorem level_bound {m : ℕ} (hn : n ≤ 2 ^ 15) (hm : 2 ^ m < n) :
    2 * 2 ^ m < 2 ^ 16 ∧ ∀ k, 2 ^ m * (2 * k) + 2 ^ m - 1 ≤ n →
    2 ^ m * (2 * k) + 2 ^ m - 1 + 2 * 2 ^ m < 2 ^ 16 := by
  have hm14 : m ≤ 14 := by
    have hlt : 2 ^ m < 2 ^ 15 := Nat.lt_of_lt_of_le hm hn
    have := (Nat.pow_lt_pow_iff_right (by decide : 1 < 2)).mp hlt
    omega
  rcases Nat.lt_or_eq_of_le hm14 with hlt | rfl
  · have hle : 2 ^ m ≤ 2 ^ 13 := Nat.pow_le_pow_right (by decide) (Nat.le_of_lt_succ hlt)
    refine ⟨by omega, fun k hk => ?_⟩
    generalize 2 ^ m * (2 * k) = e at hk
    omega
  · refine ⟨by decide, fun k hk => ?_⟩
    omega

private theorem addLevels_from {fuel : ℕ} (hn : n ≤ 2 ^ 15) (hfuel : n + 2 ≤ fuel) :
    ∀ {N m : ℕ} {s' : SubnetBuilder} {st : PrefixState}, n + 1 ≤ 2 ^ m + N → 1 ≤ N →
    Enlarged ins outs s s' → Covering s' p g n front size (levelStart (2 ^ m) 0) st →
    ∃ s'' st', addLevels fuel n N (2 ^ m) s' st = some (s'', st') ∧ Enlarged ins outs s s'' ∧
      Covering s'' p g n front size (fun i => if i % 2 = 1 then i else 0) st' := by
  intro N
  induction N with
  | zero =>
    intro m s' st _ hN
    exact absurd hN (by decide)
  | succ N ih =>
    intro m s' st hN _ h hst
    have hpos : 0 < 2 ^ m := Nat.two_pow_pos m
    have hd : 2 ^ m = 1 ∨ 2 ^ m % 2 = 0 := by
      cases m with
      | zero => exact .inl rfl
      | succ m => exact .inr (by rw [Nat.pow_succ, Nat.mul_mod_left])
    rw [addLevels]
    by_cases hlt : 2 ^ m < n
    · rw [if_pos hlt]
      obtain ⟨hdelta, hwrap⟩ := level_bound hn hlt
      have hmod : 2 ^ m * 2 % 2 ^ 16 = 2 * 2 ^ m := by
        rw [Nat.mul_comm]
        exact Nat.mod_eq_of_lt hdelta
      obtain ⟨s₁, st₁, hrun, h₁, hst₁⟩ :=
        addBatches_eq (k := 0) (N := fuel) hd hpos hwrap (by omega) (by omega) h hst
      have hstart : 2 ^ m * (2 * 0) + 2 ^ m - 1 = 2 ^ m - 1 := by omega
      have hdouble : 2 * 2 ^ m = 2 ^ (m + 1) := by rw [Nat.pow_succ, Nat.mul_comm]
      rw [hstart] at hrun
      rw [hdouble] at hst₁
      obtain ⟨s₂, st₂, hrun₂, h₂, hst₂⟩ := ih (m := m + 1) (by omega) (by omega) h₁ hst₁
      refine ⟨s₂, st₂, ?_, h₂, hst₂⟩
      simp only [hmod, hrun, bind_eq_bind, bind_some]
      rw [hdouble]
      exact hrun₂
    · rw [if_neg hlt]
      refine ⟨s', st, rfl, h, hst.congr (fun i hi => ?_)⟩
      unfold levelStart
      split
      · rfl
      · rw [if_neg (Nat.not_lt_zero _)]
        exact blockStart_of_lt (by omega) hi (Nat.not_lt.mp hlt) hd

theorem addLevels_eq {fuel : ℕ} (hn : n ≤ 2 ^ 15) (hfuel : n + 2 ≤ fuel)
    (h : Enlarged ins outs s s') (hst : Covering s' p g n front size id st) :
    ∃ s'' st', addLevels fuel n fuel 1 s' st = some (s'', st') ∧ Enlarged ins outs s s'' ∧
      Covering s'' p g n front size (fun i => if i % 2 = 1 then i else 0) st' := by
  refine addLevels_from (m := 0) hn hfuel (by omega) (by omega) h (hst.congr (fun i _ => ?_))
  unfold levelStart
  split
  · rfl
  · rw [if_neg (Nat.not_lt_zero _)]
    exact (blockStart_one i).symm

/-- With more than `2 ^ 15` bits the step of the batches gets zero, and the loop never ends. -/
theorem addLevels_none {fuel : ℕ} (hn : 2 ^ 15 < n) :
    ∀ {N m : ℕ} {s' : SubnetBuilder} {st : PrefixState}, m ≤ 15 →
    addLevels fuel n N (2 ^ m) s' st = none := by
  have hstuck : ∀ {N : ℕ} {s' : SubnetBuilder} {st : PrefixState},
      addBatches n (2 ^ 15) 0 N (2 ^ 15 - 1) s' st = none := by
    intro N
    induction N with
    | zero =>
      intro s' st
      rfl
    | succ N ih =>
      intro s' st
      rw [addBatches, if_pos (by omega)]
      apply Option.bind_eq_none_iff.mpr
      intro r _
      exact ih
  intro N
  induction N with
  | zero =>
    intro m s' st _
    rfl
  | succ N ih =>
    intro m s' st hm
    have hlt : 2 ^ m < n := Nat.lt_of_le_of_lt (Nat.pow_le_pow_right (by decide) hm) hn
    rw [addLevels, if_pos hlt]
    apply Option.bind_eq_none_iff.mpr
    intro r hr
    rcases Nat.lt_or_eq_of_le hm with hm | rfl
    · have hdelta : 2 ^ m * 2 % 2 ^ 16 = 2 ^ (m + 1) := by
        rw [← Nat.pow_succ]
        exact Nat.mod_eq_of_lt (Nat.pow_lt_pow_right (by decide) (by omega))
      rw [hdelta]
      exact ih hm
    · have hdelta : 2 ^ 15 * 2 % 2 ^ 16 = 0 := rfl
      rw [hdelta, hstuck] at hr
      cases hr

/-! ### More fuel -/

theorem addBatches_mono {basicStep delta N N' : ℕ} {r : SubnetBuilder × PrefixState} (hN : N ≤ N') :
    addBatches n basicStep delta N b s st = some r → addBatches n basicStep delta N' b s st =
    some r := by
  induction N generalizing N' b s st with
  | zero =>
    intro h
    cases h
  | succ N ih =>
    obtain ⟨N', rfl⟩ := Nat.exists_eq_add_of_le' (Nat.le_trans (Nat.le_add_left 1 N) hN)
    rw [addBatches, addBatches]
    split
    · intro h
      obtain ⟨r', hr', h⟩ := bind_eq_some_iff.mp h
      exact bind_eq_some_iff.mpr ⟨r', hr', ih (Nat.le_of_succ_le_succ hN) h⟩
    · exact id

theorem addLevels_mono {basicStep fuel fuel' N N' : ℕ} {r : SubnetBuilder × PrefixState}
    (hfuel : fuel ≤ fuel') (hN : N ≤ N') : addLevels fuel n N basicStep s st = some r →
    addLevels fuel' n N' basicStep s st = some r := by
  induction N generalizing N' basicStep s st with
  | zero =>
    intro h
    cases h
  | succ N ih =>
    obtain ⟨N', rfl⟩ := Nat.exists_eq_add_of_le' (Nat.le_trans (Nat.le_add_left 1 N) hN)
    rw [addLevels, addLevels]
    split
    · intro h
      obtain ⟨r', hr', h⟩ := bind_eq_some_iff.mp h
      exact bind_eq_some_iff.mpr ⟨r', addBatches_mono hfuel hr',
        ih (Nat.le_of_succ_le_succ hN) h⟩
    · exact id

end UtopiaEda.Synthesizer
