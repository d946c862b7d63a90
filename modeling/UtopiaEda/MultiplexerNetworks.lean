import UtopiaEda.Multiplexers
import UtopiaEda.BuilderLimits

/-!
# The networks of multiplexers and demultiplexers

The multiplexer takes the first bit of the selection as the most significant one. The demultiplexer
writes one place of the upper half only, so it is right for no selection but the empty one.
-/
namespace UtopiaEda.Synthesizer

open List
open Option (bind_eq_bind bind_eq_some_iff bind_some some.inj)
open SubnetBuilder

variable {s s' s'' : SubnetBuilder} {ins outs : List EntryID} {n k : ℕ} {sel x y : Link}
  {sels xs ys links : List Link} {F X Y : (EntryID → ℕ → Bool) → Bool}
  {W V : (EntryID → ℕ → Bool) → ℕ → Bool}

theorem addMux2_eq (h : Enlarged ins outs s s') (hs : s'.Computes sel F) (hx : s'.Computes x X)
    (hy : s'.Computes y Y) : ∃ s'' l, addMux2 s' sel x y = some (s'', l) ∧
    Enlarged ins outs s' s'' ∧
      s''.Computes l (fun ρ => if F ρ then Y ρ else X ρ) := by
  obtain ⟨s₁, l₁, hadd₁, h₁, hs₁, hl₁⟩ := h.addAnd hs.not hx
  obtain ⟨s₂, l₂, hadd₂, h₂, hs₂, hl₂⟩ := h₁.addAnd (hs.mono hs₁) (hy.mono hs₁)
  obtain ⟨s₃, l, hadd₃, h₃, hs₃, hl⟩ := h₂.addOr (hl₁.mono hs₂) hl₂
  refine ⟨s₃, l, ?_, hs₁.trans (hs₂.trans hs₃), hl.congr (fun ρ => ?_)⟩
  · simp only [addMux2, hadd₁, hadd₂, hadd₃, bind_eq_bind, bind_some]
  · cases F ρ <;> simp

theorem addMux2Words_eq (hs : s.Computes sel F) : ∀ {n : ℕ} {xs ys : List Link}
    {V W : (EntryID → ℕ → Bool) → ℕ → Bool} {s' : SubnetBuilder}, Enlarged ins outs s s' →
    s'.Spells n V xs →
      s'.Spells n W ys → ∃ s'' links, addMux2Words sel xs ys s' = some (s'', links) ∧
      Enlarged ins outs s' s'' ∧
        s''.Spells n (fun ρ i => if F ρ then W ρ i else V ρ i) links := by
  intro n
  induction n with
  | zero =>
    intro xs ys V W s' h hV hW
    rw [eq_nil_of_length_eq_zero hV.length, eq_nil_of_length_eq_zero hW.length]
    exact ⟨s', [], rfl, .refl h.grown.choose_spec, .nil⟩
  | succ n ih =>
    intro xs ys V W s' h hV hW
    obtain ⟨x, xs, rfl⟩ := exists_cons_of_length_eq_add_one hV.length
    obtain ⟨y, ys, rfl⟩ := exists_cons_of_length_eq_add_one hW.length
    obtain ⟨x', hx', hcx⟩ := hV.bits 0 (Nat.succ_pos n)
    obtain rfl := some.inj hx'
    obtain ⟨y', hy', hcy⟩ := hW.bits 0 (Nat.succ_pos n)
    obtain rfl := some.inj hy'
    obtain ⟨s₁, l, hadd, hs₁, hl⟩ := addMux2_eq h (hs.mono h) hcx hcy
    obtain ⟨s₂, links, hrun, hs₂, hlinks⟩ := ih (h.trans hs₁)
      (show s₁.Spells n _ xs from (hV.drop 1).mono hs₁)
      (show s₁.Spells n _ ys from (hW.drop 1).mono hs₁)
    refine ⟨s₂, l :: links, ?_, hs₁.trans hs₂, (hlinks.cons (hl.mono hs₂)).congr (fun ρ i _ => ?_)⟩
    · rw [addMux2Words]
      simp only [hadd, hrun, bind_eq_bind, bind_some]
    · cases i with
      | zero => rfl
      | succ i => rw [if_neg (Nat.succ_ne_zero i), Nat.add_sub_cancel, Nat.add_comm 1 i]

/-- The index of the word that the multiplexer selects: the first bit counts most. -/
def muxIndex (b : ℕ → Bool) : ℕ → ℕ
  | 0 => 0
  | k + 1 => 2 * muxIndex b k + (b k).toNat

theorem muxIndex_succ {b : ℕ → Bool} :
    muxIndex b (k + 1) = (b 0).toNat * 2 ^ k + muxIndex (fun i => b (i + 1)) k := by
  induction k with
  | zero => simp [muxIndex]
  | succ k ih =>
    rw [muxIndex, ih, muxIndex, Nat.mul_add, Nat.pow_succ, Nat.add_assoc]
    congr 1
    rw [Nat.mul_left_comm, Nat.mul_comm 2]

private theorem addMuxes_eq (w : ℕ) (hw : 0 < w) : ∀ {sels : List Link} {k : ℕ}
    {V W : (EntryID → ℕ → Bool) → ℕ → Bool} {s' : SubnetBuilder} {xs : List Link},
    Enlarged ins outs s s' →
      s'.Spells k V sels → s'.Spells (w * 2 ^ k) W xs → ∃ s'' links, addMuxes sels xs s' =
      some (s'', links) ∧
        Enlarged ins outs s' s'' ∧
        s''.Spells w (fun ρ i => W ρ (muxIndex (V ρ) k * w + i)) links := by
  intro sels
  induction sels with
  | nil =>
    intro k V W s' xs h hV hW
    obtain rfl : 0 = k := hV.length
    rw [Nat.pow_zero, Nat.mul_one] at hW
    refine ⟨s', xs, rfl, .refl h.grown.choose_spec, hW.congr (fun ρ i _ => ?_)⟩
    rw [muxIndex, Nat.zero_mul, Nat.zero_add]
  | cons sel sels ih =>
    intro k V W s' xs h hV hW
    obtain rfl : sels.length + 1 = k := hV.length
    obtain ⟨sel', hsel', hcsel⟩ := hV.bits 0 (Nat.succ_pos _)
    obtain rfl := some.inj hsel'
    generalize hk : sels.length = k at *
    have hdouble : w * 2 ^ (k + 1) = 2 * (w * 2 ^ k) := by
      rw [Nat.pow_succ, ← Nat.mul_assoc, Nat.mul_comm]
    have hpos : 0 < w * 2 ^ k := Nat.mul_pos hw (Nat.two_pow_pos k)
    have hlen : xs.length = 2 * (w * 2 ^ k) := hW.length.trans hdouble
    have hhalf : xs.length / 2 = w * 2 ^ k := by omega
    have htake : s'.Spells (w * 2 ^ k) W (xs.take (w * 2 ^ k)) := hW.take (by omega)
    have hdrop : s'.Spells (w * 2 ^ k) (fun ρ i => W ρ (w * 2 ^ k + i)) (xs.drop (w * 2 ^ k)) := by
      have hdrop := hW.drop (w * 2 ^ k)
      rwa [hdouble, Nat.two_mul, Nat.add_sub_cancel] at hdrop
    obtain ⟨s₁, links, hadd, hs₁, hlinks⟩ :=
      addMux2Words_eq hcsel (.refl h.grown.choose_spec) htake hdrop
    have hsels : s₁.Spells k (fun ρ i => V ρ (i + 1)) sels := by
      apply (show s₁.Spells k _ sels from (hV.drop 1).mono hs₁).congr
      intro ρ i _
      rw [Nat.add_comm]
    obtain ⟨s₂, links', hrun, hs₂, hlinks'⟩ := ih (h.trans hs₁) hsels hlinks
    refine ⟨s₂, links', ?_, hs₁.trans hs₂, hlinks'.congr (fun ρ i _ => ?_)⟩
    · rw [addMuxes, addMux2Halves, if_neg (by omega), hhalf, hadd]
      exact hrun
    · rw [muxIndex_succ]
      cases V ρ 0 with
      | false => simp
      | true =>
        simp only [if_true, Bool.toNat_true, Nat.one_mul]
        rw [Nat.add_mul, Nat.mul_comm (2 ^ k) w, Nat.add_assoc]

/-! ### Demultiplexers -/

private theorem addDemux2_eq (h : Enlarged ins outs s s') (hs : s'.Computes sel F)
    (hx : s'.Computes x X) : ∃ s'' l r, addDemux2 s' sel x = some (s'', l, r) ∧
    Enlarged ins outs s' s'' ∧
      s''.Computes l (fun ρ => !F ρ && X ρ) ∧ s''.Computes r (fun ρ => F ρ && X ρ) := by
  obtain ⟨s₁, l, hadd₁, h₁, hs₁, hl⟩ := h.addAnd hs.not hx
  obtain ⟨s₂, r, hadd₂, h₂, hs₂, hr⟩ := h₁.addAnd (hs.mono hs₁) (hx.mono hs₁)
  refine ⟨s₂, l, r, ?_, hs₁.trans hs₂, hl.mono hs₂, hr⟩
  simp only [addDemux2, hadd₁, hadd₂, bind_eq_bind, bind_some]

/-- The word with the first `i` bits passed on: the upper half has one bit, the other links are the
default ones, to the first cell. -/
def demuxed (F : (EntryID → ℕ → Bool) → Bool) (W : (EntryID → ℕ → Bool) → ℕ → Bool) (n i : ℕ)
    (ρ : EntryID → ℕ → Bool) (j : ℕ) : Bool :=
  if j < i then !F ρ && W ρ j else if j = n + 1 ∧ 0 < i then F ρ && W ρ (i - 1) else ρ 0 0

private theorem addDemux2Loop_eq (hn : 2 ≤ n) (hs : s.Computes sel F) (hW : s.Spells n W xs) :
    ∀ {rest : List Link} {i : ℕ} {s' : SubnetBuilder} {links : List Link}, rest = xs.drop i →
    i ≤ n →
      Enlarged ins outs s s' → s'.Spells (2 * n) (demuxed F W n i) links →
      ∃ s'' links', addDemux2Loop sel n i rest s' links = some (s'', links') ∧
      Enlarged ins outs s s'' ∧
        s''.Spells (2 * n) (demuxed F W n n) links' := by
  intro rest
  induction rest with
  | nil =>
    intro i s' links hrest hi h hl
    have hlen : 0 = n - i := by
      rw [← hW.length, ← length_drop, ← hrest]
      rfl
    obtain rfl : i = n := by omega
    exact ⟨s', links, rfl, h, hl⟩
  | cons x rest ih =>
    intro i s' links hrest hi h hl
    have hlen : rest.length + 1 = n - i := by
      rw [← hW.length, ← length_drop, ← hrest]
      rfl
    obtain ⟨x', hx', hcx⟩ := hW.bits i (by omega)
    have hxi : xs[i]? = some x := by
      have hzero := congrArg (fun ls => ls[0]?) hrest
      simp only [getElem?_cons_zero, getElem?_drop, Nat.add_zero] at hzero
      exact hzero.symm
    obtain rfl := some.inj (hxi.symm.trans hx')
    obtain ⟨s₁, l, r, hadd, hs₁, hl₁, hr₁⟩ := addDemux2_eq h (hs.mono h) (hcx.mono h)
    have hset : s₁.Spells (2 * n) (demuxed F W n (i + 1)) ((links.set i l).set (n + 1) r) := by
      apply (((hl.mono hs₁).set (k := i) hl₁).set (k := n + 1) hr₁).congr
      intro ρ j _
      unfold demuxed
      by_cases hj : j = n + 1
      · rw [if_pos hj, if_neg (by omega), if_pos ⟨hj, Nat.succ_pos i⟩, Nat.add_sub_cancel]
      · rw [if_neg hj]
        by_cases hji : j = i
        · rw [if_pos hji, if_pos (by omega), hji]
        · rw [if_neg hji]
          by_cases hlt : j < i
          · rw [if_pos hlt, if_pos (by omega)]
          · rw [if_neg hlt, if_neg (fun hc => hj hc.1), if_neg (by omega),
              if_neg (fun hc => hj hc.1)]
    obtain ⟨s₂, links', hrun, h₂, hlinks'⟩ :=
      ih (i := i + 1) (by rw [← tail_drop, ← hrest]; rfl) (by omega)
      (h.trans hs₁) hset
    refine ⟨s₂, links', ?_, h₂, hlinks'⟩
    rw [addDemux2Loop]
    simp only [hadd, bind_eq_bind, bind_some]
    rw [if_pos (by rw [hl.length]; omega), hrun]

private theorem addDemux2Word_eq (h : Enlarged ins outs s s') (hn : 2 ≤ n) (hs : s'.Computes sel F)
    (hW : s'.Spells n W xs) (hzero : s'.ValidLinks [⟨0, 0, false⟩]) :
    ∃ s'' links, addDemux2Word sel xs s' = some (s'', links) ∧ Enlarged ins outs s' s'' ∧
      s''.Spells (2 * n) (demuxed F W n n) links := by
  have hdefault : s'.Computes ⟨0, 0, false⟩ (fun ρ => ρ 0 0) :=
    (Computes.of_valid hzero).congr (fun ρ => Bool.xor_false _)
  have hstart : s'.Spells (2 * n) (demuxed F W n 0) (.replicate (2 * n) ⟨0, 0, false⟩) := by
    apply (Spells.replicate hdefault).congr
    intro ρ j _
    rw [demuxed, if_neg (Nat.not_lt_zero j), if_neg (fun hc => Nat.lt_irrefl 0 hc.2)]
  rw [addDemux2Word, hW.length]
  exact addDemux2Loop_eq hn hs hW rfl (Nat.zero_le n) (.refl h.grown.choose_spec) hstart

private theorem addDemux2Word_none : addDemux2Word sel [x] s = none := by
  unfold addDemux2Word addDemux2Loop
  apply Option.bind_eq_none_iff.mpr
  intro r _
  exact if_neg (Nat.lt_irrefl 2)

private theorem addDemuxes_eq {w : ℕ} (hw : 2 ≤ w) : ∀ {sels : List Link} {m : ℕ}
    {V W : (EntryID → ℕ → Bool) → ℕ → Bool} {s' : SubnetBuilder} {xs : List Link}, 0 < m →
    Enlarged ins outs s s' →
      s'.ValidLinks [⟨0, 0, false⟩] → s'.Spells sels.length V sels → s'.Spells (m * w) W xs →
      ∃ s'' links W', addDemuxes sels xs s' = some (s'', links) ∧ Enlarged ins outs s' s'' ∧
        s''.Spells (m * 2 ^ sels.length * w) W' links ∧
        (sels = [] → W' = W) ∧ (sels ≠ [] → ∀ ρ, W' ρ (m * 2 ^ sels.length * w - w) = ρ 0 0) := by
  intro sels
  induction sels with
  | nil =>
    intro m V W s' xs _ h _ _ hW
    rw [length_nil, Nat.pow_zero, Nat.mul_one]
    exact ⟨s', xs, W, rfl, .refl h.grown.choose_spec, hW, fun _ => rfl, fun hne => absurd rfl hne⟩
  | cons sel sels ih =>
    intro m V W s' xs hm h hzero hV hW
    obtain ⟨sel', hsel', hcsel⟩ := hV.bits 0 (Nat.succ_pos _)
    obtain rfl := some.inj hsel'
    have hmw : w ≤ m * w := Nat.le_mul_of_pos_left w hm
    obtain ⟨s₁, links, hadd, hs₁, hlinks⟩ := addDemux2Word_eq h (Nat.le_trans hw hmw) hcsel hW hzero
    rw [← Nat.mul_assoc] at hlinks
    have hsels : s₁.Spells sels.length (fun ρ i => V ρ (1 + i)) sels := (hV.drop 1).mono hs₁
    obtain ⟨s₂, links', W', hrun, hs₂, hW', hsame, hlast⟩ :=
      ih (m := 2 * m) (by omega) (h.trans hs₁) (hzero.mono hs₁.le)
      hsels hlinks
    have hpow : 2 * m * 2 ^ sels.length = m * 2 ^ (sels.length + 1) := by
      rw [Nat.pow_succ, Nat.mul_comm 2 m, Nat.mul_assoc, Nat.mul_comm 2]
    rw [hpow] at hW' hlast
    refine ⟨s₂, links', W', ?_, hs₁.trans hs₂, hW', fun hnil => (cons_ne_nil _ _ hnil).elim,
      fun _ ρ => ?_⟩
    · rw [addDemuxes, hadd]
      exact hrun
    · by_cases hne : sels = []
      · have hlen : m * 2 ^ (sels.length + 1) * w = 2 * (m * w) := by
          rw [hne, length_nil, Nat.zero_add, Nat.pow_one, Nat.mul_comm m 2, Nat.mul_assoc]
        have hplace : 2 * (m * w) - w ≠ m * w + 1 := by
          rcases Nat.lt_or_eq_of_le (Nat.succ_le_of_lt hm) with hlt | heq
          · have hle : 2 * w ≤ m * w := Nat.mul_le_mul_right w (Nat.succ_le_of_lt hlt)
            omega
          · rw [← heq]
            omega
        rw [length_cons, hlen, hsame hne, demuxed, if_neg (by omega),
          if_neg (fun hc => hplace hc.1)]
      · exact hlast hne ρ

/-! ### The networks -/

/-- The word that the selection stands for, least significant bit first. -/
def selected (x : ℕ → Bool) (k : ℕ) : ℕ := (inputWord x 0 k).toNat

/-- The multiplexer selects the word with the index of the selection. -/
def muxWord (k w : ℕ) (x : ℕ → Bool) (j : ℕ) : Bool := x (k + (selected x k * w + j))

/-- The demultiplexer passes the word on to the place with the index of the selection. -/
def demuxWord (k w : ℕ) (x : ℕ → Bool) (j : ℕ) : Bool :=
  if j / w = selected x k then x (k + j % w) else false

def MuxSelects (sizeS sizeX width : UInt32) : Prop :=
  ∃ S, synthMux sizeS sizeX width = some S ∧ S.FitsLimits ∧
    S.Implements (sizeS.toNat + sizeX.toNat) width.toNat (muxWord sizeS.toNat width.toNat)

def DemuxPlaces (sizeS width : UInt32) : Prop :=
  ∃ S, synthDemux sizeS width = some S ∧ S.FitsLimits ∧
    S.Implements (sizeS.toNat + width.toNat) (width.toNat * 2 ^ sizeS.toNat)
    (demuxWord sizeS.toNat width.toNat)

/-- The multiplexer gives the word back that the demultiplexer passed on with the same selection. -/
def MuxInvertsDemux (sizeS sizeX width : UInt32) : Prop :=
  ∃ S S', synthDemux sizeS width = some S ∧ synthMux sizeS sizeX width = some S' ∧
    (S.FitsLimits ∧ S'.FitsLimits) ∧ ∀ lib x y, (∀ i < sizeS.toNat, y i = x i) →
    (∀ j < sizeX.toNat, S.value lib x (S.getOutIdx j) 0 = some (y (sizeS.toNat + j))) →
    ∀ j < width.toNat, S'.value lib y (S'.getOutIdx j) 0 = some (x (sizeS.toNat + j))

theorem selected_succ {x : ℕ → Bool} : selected x (k + 1) = (x k).toNat * 2 ^ k + selected x k := by
  rw [selected, inputWord, BitVec.toNat_cons', Nat.shiftLeft_eq, Nat.zero_add]
  rfl

private theorem index_first {x : ℕ → Bool} (hzero : x 0 = true) :
    ∀ {k : ℕ}, (∀ i, 0 < i → i < k + 1 → x i = false) → muxIndex x (k + 1) = 2 ^ k ∧
    selected x (k + 1) = 1 := by
  intro k
  induction k with
  | zero =>
    intro _
    rw [selected_succ, hzero]
    exact ⟨by rw [muxIndex, muxIndex, hzero]; rfl, rfl⟩
  | succ k ih =>
    intro hrest
    obtain ⟨hmux, hsel⟩ := ih (fun i hi hlt => hrest i hi (by omega))
    rw [muxIndex, selected_succ, hmux, hsel, hrest (k + 1) (Nat.succ_pos k) (Nat.lt_succ_self _),
      Nat.pow_succ]
    constructor
    · rw [Bool.toNat_false, Nat.add_zero, Nat.mul_comm]
    · rw [Bool.toNat_false, Nat.zero_mul, Nat.zero_add]

private theorem index_all {x : ℕ → Bool} : ∀ {k : ℕ}, (∀ i < k, x i = true) →
    muxIndex x k = 2 ^ k - 1 ∧ selected x k = 2 ^ k - 1 := by
  intro k
  induction k with
  | zero =>
    intro _
    exact ⟨rfl, rfl⟩
  | succ k ih =>
    intro hall
    obtain ⟨hmux, hsel⟩ := ih (fun i hi => hall i (by omega))
    have hpos := Nat.two_pow_pos k
    rw [muxIndex, selected_succ, hmux, hsel, hall k (Nat.lt_succ_self k), Bool.toNat_true,
      Nat.pow_succ]
    omega

private theorem muxIndex_congr {b b' : ℕ → Bool} (h : ∀ i < k, b i = b' i) :
    muxIndex b k = muxIndex b' k := by
  induction k with
  | zero => rfl
  | succ k ih => rw [muxIndex, muxIndex, h k (Nat.lt_succ_self k),
      ih (fun i hi => h i (Nat.lt_succ_of_lt hi))]

private theorem muxIndex_lt {b : ℕ → Bool} : muxIndex b k < 2 ^ k := by
  induction k with
  | zero => exact Nat.one_pos
  | succ k ih =>
    rw [muxIndex, Nat.pow_succ]
    have hbit := Bool.toNat_le (b k)
    omega

private theorem place_lt {i j w : ℕ} (hi : i < 2 ^ k) (hj : j < w) : i * w + j < w * 2 ^ k := by
  have hle : (i + 1) * w ≤ 2 ^ k * w := Nat.mul_le_mul_right w hi
  rw [Nat.add_mul, Nat.one_mul] at hle
  rw [Nat.mul_comm w]
  omega

/-- What the network of the multiplexer computes. -/
theorem synthMux_eq {sizeS sizeX width : UInt32} (hX : sizeX.toNat = width.toNat * 2 ^ sizeS.toNat)
    (hw : 0 < width.toNat) : ∃ S, synthMux sizeS sizeX width = some S ∧
      S.Implements (sizeS.toNat + sizeX.toNat) width.toNat
        (fun x j => x (sizeS.toNat + (muxIndex x sizeS.toNat * width.toNat + j))) := by
  obtain ⟨s₁, s₂, hadd₁, hadd₂, h⟩ := addInputs_two sizeS.toNat sizeX.toNat
  have hS := h.spells 0 sizeS.toNat (by omega)
  have hword := h.spells sizeS.toNat sizeX.toNat (Nat.le_refl _)
  rw [hX] at hword
  obtain ⟨s₃, links, hrun, hs, hlinks⟩ := addMuxes_eq width.toNat hw (.refl h.grown) hS hword
  obtain ⟨s₄, S, hout, hmake, himp⟩ := h.make
    (f := fun x j => x (sizeS.toNat + (muxIndex x sizeS.toNat * width.toNat + j))) hs hlinks hw
    (fun ρ x hx j hj => by
      have hindex : muxIndex (fun i => ρ (0 + i) 0) sizeS.toNat = muxIndex x sizeS.toNat := by
        apply muxIndex_congr
        intro i hi
        simp only [Nat.zero_add]
        exact hx i (by omega)
      rw [hindex]
      apply hx
      rw [hX]
      exact Nat.add_lt_add_left (place_lt muxIndex_lt hj) _)
  refine ⟨S, ?_, himp⟩
  rw [← hX] at hrun
  simp only [synthMux, hadd₁, hadd₂, hrun, hlinks.length, if_true, hout, hmake, bind_eq_bind,
    bind_some]

/-! ### Counts of links -/

private theorem validLinks_pair {a b : Link} (ha : s.ValidLinks [a]) (hb : s.ValidLinks [b]) :
    s.ValidLinks [a, b] :=
  validLinks_append.mpr ⟨ha, hb⟩

private theorem count_mux {a b c i new : ℕ} (hab : a ≠ b) (hac : a ≠ c) (hbc : b ≠ c) (ha : a < new)
    (hb : b < new) (hc : c < new) : [a, b].count i + [a, c].count i + [new, new + 1].count i ≤ 2 ∧
      (i ≠ a → i ≠ b → i ≠ c → i < new →
        [a, b].count i + [a, c].count i + [new, new + 1].count i = 0) := by
  simp only [count_cons, count_nil, beq_iff_eq]
  constructor
  · split <;> split <;> split <;> split <;> split <;> omega
  · intro h₁ h₂ h₃ h₄
    rw [if_neg (Ne.symm h₁), if_neg (Ne.symm h₂), if_neg (Ne.symm h₃), if_neg (by omega),
      if_neg (by omega)]

/-- A selection between bits without links adds three cells. -/
theorem addMux2_counts {mid : List EntryID} {l : Link} (h : Grown s ins mid outs)
    (hs : s.ValidLinks [sel]) (hx : s.ValidLinks [x]) (hy : s.ValidLinks [y])
    (hsx : sel.idx ≠ x.idx) (hsy : sel.idx ≠ y.idx) (hxy : x.idx ≠ y.idx)
    (hzx : s.refcountAt x.idx = 0) (hzy : s.refcountAt y.idx = 0)
    (hrun : addMux2 s sel x y = some (s', l)) : (∃ mid', Grown s' ins mid' outs) ∧
    s.netlist.Le s'.netlist ∧ s'.size = s.size + 3 ∧
      (∀ i, s'.refcountAt i ≤ s.refcountAt i + 2) ∧
      ∀ i < s.size, i ≠ sel.idx → i ≠ x.idx → i ≠ y.idx → s'.refcountAt i = s.refcountAt i := by
  unfold addMux2 at hrun
  have hnot : s.ValidLinks [sel.not, x] := by
    refine validLinks_pair (fun k hk => ?_) hx
    rw [mem_singleton.mp hk]
    exact hs sel (mem_singleton_self _)
  have hx' := lt_size_of_valid hx (mem_singleton_self _)
  have hy' := lt_size_of_valid hy (mem_singleton_self _)
  have hs' := lt_size_of_valid hs (mem_singleton_self _)
  obtain ⟨⟨s₁, left⟩, hadd₁, hrun⟩ := bind_eq_some_iff.mp hrun
  obtain ⟨⟨s₂, right⟩, hadd₂, hadd₃⟩ := bind_eq_some_iff.mp hrun
  have h₁ := h.addGate_new rfl hnot (Nat.le_succ 2) ⟨x, by simp, hzx⟩ hadd₁
  obtain ⟨mid₁, hgrown₁⟩ := h₁.grown
  have hpair : s₁.ValidLinks [sel, y] := (validLinks_pair hs hy).mono h₁.le
  have hzy₁ : s₁.refcountAt y.idx = 0 := by
    rw [h₁.count, hzy, Nat.zero_add]
    exact count_eq_zero_of_not_mem (by simp [Link.not, hsy.symm, hxy.symm])
  have h₂ := hgrown₁.addGate_new rfl hpair (Nat.le_succ 2) ⟨y, by simp, hzy₁⟩ hadd₂
  obtain ⟨mid₂, hgrown₂⟩ := h₂.grown
  have hparts : s₂.ValidLinks [left, right] := validLinks_pair (h₁.valid.mono h₂.le) h₂.valid
  have h₃ := hgrown₂.addGate_new rfl hparts (Nat.le_succ 2)
    ⟨right, by simp, h₂.refcountAt_idx hpair⟩ hadd₃
  have hcount : ∀ i, s'.refcountAt i =
      s.refcountAt i + ([sel.idx, x.idx].count i + [sel.idx, y.idx].count i +
      [s.size, s.size + 1].count i) := by
    intro i
    have hlinks : [left, right].map Link.idx = [s.size, s.size + 1] := by
      rw [map_cons, map_singleton, h₁.idx, h₂.idx, h₁.size]
    rw [h₃.count i, h₂.count i, h₁.count i, hlinks, Nat.add_assoc, Nat.add_assoc,
      ← Nat.add_assoc (count _ _)]
    rfl
  refine ⟨h₃.grown, h₁.le.trans (h₂.le.trans h₃.le), ?_, fun i => ?_, fun i hi hsel hix hiy => ?_⟩
  · rw [h₃.size, h₂.size, h₁.size]
  · rw [hcount i]
    exact Nat.add_le_add_left (count_mux hsx hsy hxy hs' hx' hy').1 _
  · rw [hcount i, (count_mux hsx hsy hxy hs' hx' hy').2 hsel hix hiy hi, Nat.add_zero]

theorem addMux2Words_counts : ∀ {xs ys links : List Link} {s : SubnetBuilder} {mid : List EntryID},
    Grown s ins mid outs → s.ValidLinks [sel] → s.ValidLinks (xs ++ ys) →
      (sel.idx :: (xs.map Link.idx ++ ys.map Link.idx)).Nodup →
      (∀ k ∈ xs ++ ys, s.refcountAt k.idx = 0) → addMux2Words sel xs ys s = some (s', links) →
      s'.size = s.size + 3 * xs.length ∧ ∀ i, s'.refcountAt i ≤ s.refcountAt i + 2 * xs.length := by
  intro xs
  induction xs with
  | nil =>
    intro ys links s mid _ _ _ _ _ hrun
    cases ys with
    | nil =>
      cases hrun
      exact ⟨rfl, fun i => Nat.le_refl _⟩
    | cons y ys => cases hrun
  | cons x xs ih =>
    intro ys links s mid h hs hv hnodup hzero hrun
    cases ys with
    | nil => cases hrun
    | cons y ys =>
      rw [addMux2Words, bind_eq_bind] at hrun
      obtain ⟨⟨s₁, l⟩, hmux, hrun⟩ := bind_eq_some_iff.mp hrun
      obtain ⟨⟨s₂, links'⟩, hrest, heq⟩ := bind_eq_some_iff.mp hrun
      cases heq
      simp only [map_cons, cons_append, nodup_cons, nodup_middle, mem_cons, mem_append,
        not_or] at hnodup
      obtain ⟨⟨hsx, hsxs, hsy, hsys⟩, ⟨⟨hxxs, hxy, hxys⟩, ⟨hyxs, hyys⟩, hrestNodup⟩⟩ := hnodup
      have hvx : s.ValidLinks [x] := fun k hk => hv k (by rw [mem_singleton.mp hk]; simp)
      have hvy : s.ValidLinks [y] := fun k hk => hv k (by rw [mem_singleton.mp hk]; simp)
      obtain ⟨⟨mid₁, h₁⟩, hle, hsize, hcount, hsame⟩ :=
        addMux2_counts h hs hvx hvy hsx hsy hxy (hzero x (by simp))
        (hzero y (by simp)) hmux
      have hsub : ∀ k ∈ xs ++ ys, k ∈ (x :: xs) ++ (y :: ys) := by
        intro k hk
        rcases mem_append.mp hk with hk | hk
        · simp [hk]
        · simp [hk]
      obtain ⟨hsize', hcount'⟩ := ih h₁ (hs.mono hle) (fun k hk => (hv.mono hle) k (hsub k hk))
        (nodup_cons.mpr ⟨by rw [mem_append, not_or]; exact ⟨hsxs, hsys⟩, hrestNodup⟩)
        (fun k hk => by
          have hidx : k.idx ∈ xs.map Link.idx ∨ k.idx ∈ ys.map Link.idx :=
            (mem_append.mp hk).imp (mem_map_of_mem) (mem_map_of_mem)
          rw [hsame k.idx (lt_size_of_valid hv (hsub k hk)) ?_ ?_ ?_, hzero k (hsub k hk)]
          · rintro heq
            exact hidx.elim (heq ▸ hsxs) (heq ▸ hsys)
          · rintro heq
            exact hidx.elim (heq ▸ hxxs) (heq ▸ hxys)
          · rintro heq
            exact hidx.elim (heq ▸ hyxs) (heq ▸ hyys)) hrest
      rw [length_cons]
      refine ⟨by omega, fun i => ?_⟩
      have hfirst := hcount i
      have hrest := hcount' i
      omega

/-- The multiplexer of no bit or one bit has six cells for every bit of data, and the limit of the
entries is the first one that it meets. -/
theorem synthMux_fits {sizeS sizeX width : UInt32} {S : Subnet}
    (hX : sizeX.toNat = width.toNat * 2 ^ sizeS.toNat) (hw : 0 < width.toNat)
    (hbits : sizeS.toNat ≤ 1) (hS : synthMux sizeS sizeX width = some S) :
    S.FitsLimits ↔ (if sizeS.toNat = 0 then 2 * width.toNat else 6 * width.toNat + 1) ≤
    maxEntries := by
  have hlimit : maxRefCount = 1048575 := by decide
  have hblock : maxEntries = 2097151 := by decide
  obtain ⟨s₁, s₂, hadd₁, hadd₂, h⟩ := addInputs_two sizeS.toNat sizeX.toNat
  have hsels := h.spells 0 sizeS.toNat (by omega)
  have hword := h.spells sizeS.toNat sizeX.toNat (Nat.le_refl _)
  rw [hX] at hword
  obtain ⟨s₃, links, hrun, hs, hlinks⟩ := addMuxes_eq width.toNat hw (.refl h.grown) hsels hword
  have hdrawn : Drawn s₃ (sizeS.toNat + sizeX.toNat) [] (fun _ _ => false) := h.drawn.enlarge hs
  obtain ⟨s₄, outs, hout, -, -, hdrawn'⟩ := hdrawn.addOutputs hlinks
  obtain ⟨mid, hgrown⟩ := hdrawn.grown
  obtain ⟨hsize, hcount⟩ := hgrown.addOutputs_counts hlinks.valid hout
  have hmade : s₄.make = some S := by
    rw [← hX] at hrun
    simp only [synthMux, hadd₁, hadd₂, hrun, hlinks.length, if_true, hout, bind_eq_bind,
      bind_some] at hS
    exact hS
  have hle : ∀ i, (links.map Link.idx).count i ≤ width.toNat := fun i =>
    count_le_length.trans (Nat.le_of_eq ((length_map _).trans hlinks.length))
  have hcells : s₃.size + width.toNat = (if sizeS.toNat = 0 then 2 * width.toNat else
      6 * width.toNat + 1) ∧ ∀ i, s₃.refcountAt i ≤ if sizeS.toNat = 0 then 0 else
      2 * width.toNat := by
    have hsize₂ := h.size
    rcases Nat.le_one_iff_eq_zero_or_eq_one.mp hbits with hk | hk
    · rw [hk, Nat.pow_zero, Nat.mul_one] at hX
      have hnil : inputsFrom 0 sizeS.toNat = [] := by
        rw [hk]
        rfl
      rw [hnil, addMuxes] at hrun
      cases hrun
      rw [if_pos hk, if_pos hk]
      exact ⟨by omega, fun i => Nat.le_of_eq (h.refcountAt_eq i)⟩
    · rw [hk, Nat.pow_one] at hX hrun hword
      have hone : inputsFrom 0 1 = [⟨0, 0, false⟩] := rfl
      have hlen : (inputsFrom 1 (width.toNat * 2)).length = width.toNat * 2 := inputsFrom_length
      have hidx : (inputsFrom 1 (width.toNat * 2)).map Link.idx =
          range' 1 (width.toNat * 2) := by
        rw [inputsFrom, map_map]
        exact map_id _
      rw [hone, addMuxes, addMux2Halves, hlen, if_neg (by omega),
        Nat.mul_div_cancel _ (Nat.succ_pos 1)] at hrun
      obtain ⟨⟨s₅, links'⟩, hwords, hrest⟩ := bind_eq_some_iff.mp hrun
      cases hrest
      obtain ⟨hsize₃, hcount₃⟩ := addMux2Words_counts h.grown (h.validLinks_default (by omega))
        (by rw [take_append_drop]; exact hword.valid)
        (by
          rw [← map_append, take_append_drop, hidx, nodup_cons, mem_range'_1]
          exact ⟨fun hc => Nat.not_succ_le_zero 0 hc.1, nodup_range'⟩)
        (fun k _ => h.refcountAt_eq k.idx) hwords
      rw [length_take, hlen, Nat.min_eq_left (by omega)] at hsize₃ hcount₃
      rw [if_neg (by omega), if_neg (by omega)]
      refine ⟨by omega, fun i => ?_⟩
      have hle₃ := hcount₃ i
      rw [h.refcountAt_eq i] at hle₃
      omega
  rw [hdrawn'.fits_iff hmade, hsize, hlinks.length, hcells.1]
  refine ⟨And.left, fun hentries => ⟨hentries, .of_refcountAt fun i => ?_⟩⟩
  have hlinked := hcells.2 i
  have hlast := hle i
  rw [hcount i]
  split at hentries <;> rename_i hk
  · rw [if_pos hk] at hlinked
    omega
  · rw [if_neg hk] at hlinked
    omega

/-- Without a bit of data there is no network. -/
theorem synthMux_none {sizeS sizeX width : UInt32}
    (hX : sizeX.toNat = width.toNat * 2 ^ sizeS.toNat) (hw : width.toNat = 0) :
    synthMux sizeS sizeX width = none := by
  obtain ⟨s₁, s₂, hadd₁, hadd₂, h⟩ := addInputs_two sizeS.toNat sizeX.toNat
  have hX : sizeX.toNat = 0 := by rw [hX, hw, Nat.zero_mul]
  simp only [synthMux, hadd₁, hadd₂, bind_eq_bind, bind_some]
  rw [hX]
  cases hS : sizeS.toNat with
  | zero =>
    have hnil : ∀ {i : ℕ}, inputsFrom i 0 = [] := rfl
    rw [hnil, addMuxes, bind_some]
    exact (if_pos hw.symm).trans h.make_none
  | succ k =>
    have hcons : inputsFrom 0 (k + 1) = ⟨0, 0, false⟩ :: inputsFrom 1 k := by
      rw [inputsFrom, range'_succ]
      rfl
    rw [hcons, addMuxes, addMux2Halves, if_pos (.inl inputsFrom_length)]
    rfl

/-- The multiplexer takes the selection as documented exactly for at most one bit, as far as the
entries suffice. -/
theorem muxSelects_iff {sizeS sizeX width : UInt32}
    (hX : sizeX.toNat = width.toNat * 2 ^ sizeS.toNat) : MuxSelects sizeS sizeX width ↔
    sizeS.toNat ≤ 1 ∧ 0 < width.toNat ∧
      (if sizeS.toNat = 0 then 2 * width.toNat else 6 * width.toNat + 1) ≤ maxEntries := by
  constructor
  · rintro ⟨S, hS, hfit, himp⟩
    have hw : 0 < width.toNat := by
      apply Nat.pos_of_ne_zero
      intro hzero
      rw [synthMux_none hX hzero] at hS
      cases hS
    suffices hbits : sizeS.toNat ≤ 1 from ⟨hbits, hw, (synthMux_fits hX hw hbits hS).mp hfit⟩
    by_contra hbits
    obtain ⟨S', hS', himp'⟩ := synthMux_eq hX hw
    obtain rfl := some.inj (hS.symm.trans hS')
    obtain ⟨k, hk⟩ : ∃ k, sizeS.toNat = k + 1 + 1 := ⟨sizeS.toNat - 2, by omega⟩
    generalize hwdef : width.toNat = w at *
    -- only the first bit of the selection is set, and only the first bit of the word that the code
    -- selects
    let x : ℕ → Bool := fun i => decide (i = 0) || decide (i = sizeS.toNat + 2 ^ (k + 1) * w)
    have hrest : ∀ i, 0 < i → i < k + 1 + 1 → x i = false := by
      intro i hi hlt
      simp only [x, hk, Bool.or_eq_false_iff, decide_eq_false_iff_not]
      omega
    obtain ⟨hmux, hsel⟩ := index_first rfl hrest
    have hval := himp.values CellLibrary.empty x 0 hw
    rw [himp'.values CellLibrary.empty x 0 hw, muxWord, hk, hmux, hsel] at hval
    have hbit : x (k + 1 + 1 + (2 ^ (k + 1) * w + 0)) = true := by
      simp only [x, hk, Nat.add_zero, decide_true, Bool.or_true]
    have hother : x (k + 1 + 1 + (1 * w + 0)) = false := by
      have hlt : 1 * w < 2 ^ (k + 1) * w :=
        Nat.mul_lt_mul_of_pos_right (Nat.one_lt_two_pow (Nat.succ_ne_zero k)) hw
      simp only [x, hk, Nat.add_zero, Bool.or_eq_false_iff, decide_eq_false_iff_not]
      omega
    rw [hbit, hother] at hval
    cases hval
  · rintro ⟨hbits, hw, hentries⟩
    obtain ⟨S, hS, himp⟩ := synthMux_eq hX hw
    refine ⟨S, hS, (synthMux_fits hX hw hbits hS).mpr hentries, himp.nIn, himp.nOut,
      fun lib x j hj => ?_⟩
    rw [himp.values lib x j hj, muxWord]
    rcases Nat.le_one_iff_eq_zero_or_eq_one.mp hbits with hk | hk
    · rw [hk]
      rfl
    · rw [hk, selected_succ, muxIndex]
      simp [muxIndex, selected, inputWord]

private theorem addDemuxes_nil :
    ∀ {sels : List Link} {s : SubnetBuilder}, addDemuxes sels [] s = some (s, []) := by
  intro sels
  induction sels with
  | nil =>
    intro s
    rfl
  | cons sel sels ih =>
    intro s
    exact ih

private theorem synthDemux_of_zero {sizeS width : UInt32} (hS : sizeS.toNat = 0)
    (hw : 0 < width.toNat) : ∃ S, synthDemux sizeS width = some S ∧
    (S.FitsLimits ↔ 2 * width.toNat ≤ maxEntries) ∧
      S.Implements (sizeS.toNat + width.toNat) (width.toNat * 2 ^ sizeS.toNat)
        (demuxWord sizeS.toNat width.toNat) := by
  obtain ⟨s₁, s₂, hadd₁, hadd₂, h⟩ := addInputs_two sizeS.toNat width.toNat
  have hword := h.spells sizeS.toNat width.toNat (Nat.le_refl _)
  obtain ⟨s₃, S, hout, hmake, himp⟩ :=
    h.make (f := demuxWord sizeS.toNat width.toNat) (.refl h.grown) hword hw
    (fun ρ x hx j hj => by
      have hsel : selected x 0 = 0 := rfl
      rw [demuxWord, hS, hsel, if_pos (Nat.div_eq_of_lt hj), Nat.mod_eq_of_lt hj]
      exact hx _ (by omega))
  have hfits : S.FitsLimits ↔ 2 * width.toNat ≤ maxEntries := by
    have hdrawn : Drawn s₂ (sizeS.toNat + width.toNat) [] (fun _ _ => false) := h.drawn
    obtain ⟨s₄, outs, hout', -, -, hdrawn'⟩ := hdrawn.addOutputs hword
    obtain rfl := some.inj (hout.symm.trans hout')
    obtain ⟨hsize, hcount⟩ := h.grown.addOutputs_counts hword.valid hout
    rw [hdrawn'.fits_iff hmake, hsize, h.size, hword.length, hS, Nat.zero_add, Nat.two_mul]
    refine ⟨And.left, fun hentries => ⟨hentries, .of_refcountAt fun i => ?_⟩⟩
    have hlimit : maxRefCount = 1048575 := by decide
    have hblock : maxEntries = 2097151 := by decide
    have hle : ((inputsFrom sizeS.toNat width.toNat).map Link.idx).count i ≤ width.toNat :=
      count_le_length.trans (Nat.le_of_eq ((length_map _).trans hword.length))
    rw [hcount i, h.refcountAt_eq i]
    omega
  have hnil : inputsFrom 0 0 = [] := rfl
  refine ⟨S, ?_, hfits, by rw [hS] at himp ⊢; rwa [Nat.pow_zero, Nat.mul_one]⟩
  simp only [synthDemux, hadd₁, hadd₂, bind_eq_bind, bind_some]
  rw [hS, hnil, addDemuxes, bind_some]
  rw [hS] at hout
  simp only [hout, hmake, bind_some]

private theorem synthDemux_last {sizeS width : UInt32} {S : Subnet}
    (hS : synthDemux sizeS width = some S) (hbits : 0 < sizeS.toNat) : 2 ≤ width.toNat ∧ ∀ lib x,
      S.value lib x (S.getOutIdx (2 ^ sizeS.toNat * width.toNat - width.toNat)) 0 = some (x 0) ∧
      ∀ j < 2 ^ sizeS.toNat * width.toNat, (S.value lib x (S.getOutIdx j) 0).isSome := by
  obtain ⟨s₁, s₂, hadd₁, hadd₂, h⟩ := addInputs_two sizeS.toNat width.toNat
  simp only [synthDemux, hadd₁, hadd₂, bind_eq_bind, bind_some] at hS
  have hsels := h.spells 0 sizeS.toNat (by omega)
  have hword := h.spells sizeS.toNat width.toNat (Nat.le_refl _)
  have hlen : (inputsFrom 0 sizeS.toNat).length = sizeS.toNat := inputsFrom_length
  have hne : inputsFrom 0 sizeS.toNat ≠ [] := by
    intro hnil
    rw [hnil] at hlen
    exact absurd hlen (Nat.ne_of_lt hbits)
  have hw : 2 ≤ width.toNat := by
    by_contra hw
    rcases Nat.le_one_iff_eq_zero_or_eq_one.mp (Nat.le_of_lt_succ (Nat.not_le.mp hw)) with
      hzero | hone
    · have hnil : inputsFrom sizeS.toNat width.toNat = [] := by
        rw [hzero]
        rfl
      rw [hnil, addDemuxes_nil, bind_some] at hS
      exact Option.some_ne_none S (hS.symm.trans h.make_none)
    · obtain ⟨sel, sels, hcons⟩ := exists_cons_of_ne_nil hne
      rw [hcons, addDemuxes] at hS
      have hsingle : inputsFrom sizeS.toNat width.toNat = [⟨sizeS.toNat, 0, false⟩] := by
        rw [hone]
        rfl
      rw [hsingle, addDemux2Word_none] at hS
      cases hS
  refine ⟨hw, fun lib x => ?_⟩
  have hsels : s₂.Spells (inputsFrom 0 sizeS.toNat).length (fun ρ i => ρ (0 + i) 0)
      (inputsFrom 0 sizeS.toNat) := by
    rw [hlen]
    exact hsels
  rw [← Nat.one_mul width.toNat] at hword
  obtain ⟨s₃, links, W, hrun, hs, hlinks, -, hlast⟩ := addDemuxes_eq hw Nat.one_pos (.refl h.grown)
    (h.validLinks_default (by omega)) hsels hword
  rw [Nat.one_mul] at hrun
  rw [hlen, Nat.one_mul] at hlinks hlast
  rw [hrun, bind_some] at hS
  have hdrawn : Drawn s₃ (sizeS.toNat + width.toNat) [] W := h.drawn.enlarge hs
  obtain ⟨s₄, outs, hout, hlenOuts, -, hdrawn'⟩ := hdrawn.addOutputs hlinks
  simp only [hout, bind_some] at hS
  obtain ⟨-, -, hvalues⟩ := hdrawn'.exists_values hS
  obtain ⟨ρ, hx, hvalue⟩ := hvalues lib x
  have hle : width.toNat ≤ 2 ^ sizeS.toNat * width.toNat :=
    Nat.le_mul_of_pos_left _ (Nat.two_pow_pos _)
  have hsize : outs.length = 2 ^ sizeS.toNat * width.toNat := by
    rw [hlenOuts, length_nil, Nat.zero_add]
  constructor
  · rw [hvalue _ (by rw [hsize]; omega), length_nil, if_neg (Nat.not_lt_zero _), Nat.sub_zero,
      hlast hne, hx 0 (by omega)]
  · intro j hj
    rw [hvalue j (hsize ▸ hj)]
    rfl

private theorem synthDemux_pos {sizeS width : UInt32} {S : Subnet}
    (hS : synthDemux sizeS width = some S) : 0 < width.toNat := by
  obtain ⟨s₁, s₂, hadd₁, hadd₂, h⟩ := addInputs_two sizeS.toNat width.toNat
  apply Nat.pos_of_ne_zero
  intro hzero
  have hnil : inputsFrom sizeS.toNat width.toNat = [] := by
    rw [hzero]
    rfl
  simp only [synthDemux, hadd₁, hadd₂, bind_eq_bind, bind_some, hnil, addDemuxes_nil] at hS
  exact Option.some_ne_none S (hS.symm.trans h.make_none)

/-- The demultiplexer is right exactly without a selection, as far as the entries suffice. -/
theorem demuxPlaces_iff {sizeS width : UInt32} :
    DemuxPlaces sizeS width ↔ sizeS.toNat = 0 ∧ 0 < width.toNat ∧ 2 * width.toNat ≤ maxEntries := by
  constructor
  · rintro ⟨S, hS, hfit, himp⟩
    have hpos := synthDemux_pos hS
    suffices hzero : sizeS.toNat = 0 by
      obtain ⟨S', hS', hfits, -⟩ := synthDemux_of_zero hzero hpos
      obtain rfl := some.inj (hS.symm.trans hS')
      exact ⟨hzero, hpos, hfits.mp hfit⟩
    by_contra hbits
    obtain ⟨hw, hlast⟩ := synthDemux_last hS (Nat.pos_of_ne_zero hbits)
    generalize sizeS.toNat = k at *
    generalize width.toNat = w at *
    have hpow : 1 < 2 ^ k := Nat.one_lt_two_pow hbits
    -- all bits of the selection are set, and the bits of the word are not
    let x : ℕ → Bool := fun i => decide (i < k)
    have hsel := (index_all (x := x) (k := k) (fun i hi => decide_eq_true hi)).2
    have hplace : 2 ^ k * w - w = (2 ^ k - 1) * w := by rw [Nat.sub_mul, Nat.one_mul]
    have hlt : 2 ^ k * w - w < w * 2 ^ k := by
      rw [Nat.mul_comm w]
      have hle : w ≤ 2 ^ k * w := Nat.le_mul_of_pos_left _ (by omega)
      omega
    have hval := himp.values CellLibrary.empty x _ hlt
    rw [(hlast CellLibrary.empty x).1, demuxWord, hplace, Nat.mul_div_cancel _ (by omega), hsel,
      if_pos rfl, Nat.mul_mod_left] at hval
    have hfirst : x 0 = true := decide_eq_true (Nat.pos_of_ne_zero hbits)
    have hbit : x (k + 0) = false := decide_eq_false (Nat.lt_irrefl k)
    rw [hfirst, hbit] at hval
    cases hval
  · rintro ⟨hzero, hw, hentries⟩
    obtain ⟨S, hS, hfits, himp⟩ := synthDemux_of_zero hzero hw
    exact ⟨S, hS, hfits.mpr hentries, himp⟩

/-- The multiplexer undoes the demultiplexer exactly without a selection, as far as the entries
suffice. -/
theorem muxInvertsDemux_iff {sizeS sizeX width : UInt32}
    (hX : sizeX.toNat = width.toNat * 2 ^ sizeS.toNat) : MuxInvertsDemux sizeS sizeX width ↔
    sizeS.toNat = 0 ∧ 0 < width.toNat ∧ 2 * width.toNat ≤ maxEntries := by
  constructor
  · rintro ⟨S, S', hS, hS', hfit, hinv⟩
    have hw := synthDemux_pos hS
    suffices hzero : sizeS.toNat = 0 by
      obtain ⟨S'', hS'', hfits, -⟩ := synthDemux_of_zero hzero hw
      obtain rfl := some.inj (hS.symm.trans hS'')
      exact ⟨hzero, hw, hfits.mp hfit.1⟩
    by_contra hbits
    obtain ⟨-, hlast⟩ := synthDemux_last hS (Nat.pos_of_ne_zero hbits)
    obtain ⟨S'', hS'', himp⟩ := synthMux_eq hX hw
    obtain rfl := some.inj (hS'.symm.trans hS'')
    rw [hX] at hinv
    generalize sizeS.toNat = k at *
    generalize width.toNat = w at *
    let x : ℕ → Bool := fun i => decide (i < k)
    let y : ℕ → Bool := fun i => if i < k then x i else
      (S.value CellLibrary.empty x (S.getOutIdx (i - k)) 0).getD false
    obtain ⟨hfirst, hsome⟩ := hlast CellLibrary.empty x
    have hy : ∀ i < k, y i = x i := fun i hi => if_pos hi
    have hplace : (2 ^ k - 1) * w + 0 = 2 ^ k * w - w := by
      rw [Nat.sub_mul, Nat.one_mul, Nat.add_zero]
    have hword : ∀ j, y (k + j) = (S.value CellLibrary.empty x (S.getOutIdx j) 0).getD false := by
      intro j
      have hge : ¬ k + j < k := by omega
      simp only [y, if_neg hge, Nat.add_sub_cancel_left]
    have hback := hinv CellLibrary.empty x y hy (fun j hj => by
      rw [hword]
      obtain ⟨b, hb⟩ := Option.isSome_iff_exists.mp (hsome j (by rwa [Nat.mul_comm] at hj))
      rw [hb]
      rfl) 0 hw
    have hmux := (index_all (x := y) (k := k) (fun i hi => (hy i hi).trans (decide_eq_true hi))).1
    rw [himp.values CellLibrary.empty y 0 hw, hmux, hplace, hword, hfirst] at hback
    have hset : x 0 = true := decide_eq_true (Nat.pos_of_ne_zero hbits)
    have hbit : x (k + 0) = false := decide_eq_false (Nat.lt_irrefl k)
    rw [hset, hbit] at hback
    cases hback
  · rintro ⟨hzero, hw, hentries⟩
    obtain ⟨S, hS, hfits, himp⟩ := synthDemux_of_zero hzero hw
    obtain ⟨S', hS', himp'⟩ := synthMux_eq hX hw
    have hfits' := (synthMux_fits hX hw (Nat.le_of_eq hzero |>.trans (Nat.zero_le 1)) hS').mpr
      (by rw [if_pos hzero]; exact hentries)
    refine ⟨S, S', hS, hS', ⟨hfits.mpr hentries, hfits'⟩, fun lib x y hsel hword j hj => ?_⟩
    rw [hzero] at himp himp' hword ⊢
    rw [hX, hzero, Nat.pow_zero, Nat.mul_one] at hword
    have hval := hword j hj
    have hnone : selected x 0 = 0 := rfl
    rw [himp.values lib x j (by rwa [Nat.pow_zero, Nat.mul_one]), demuxWord, hnone,
      if_pos (Nat.div_eq_of_lt hj), Nat.mod_eq_of_lt hj] at hval
    rw [himp'.values lib y j hj, muxIndex, Nat.zero_mul, Nat.zero_add, ← some.inj hval]

/-- The multiplexer is right for at most one bit of selection, the demultiplexer for none, as far as
the entries of a subnet suffice. -/
theorem mux_demux_exact (sizeS sizeX width : UInt32)
    (hX : sizeX.toNat = width.toNat * 2 ^ sizeS.toNat) : (MuxSelects sizeS sizeX width ↔
    sizeS.toNat ≤ 1 ∧ 0 < width.toNat ∧
      (if sizeS.toNat = 0 then 2 * width.toNat else 6 * width.toNat + 1) ≤ maxEntries) ∧
    (DemuxPlaces sizeS width ↔ sizeS.toNat = 0 ∧ 0 < width.toNat ∧ 2 * width.toNat ≤ maxEntries) ∧
    (MuxInvertsDemux sizeS sizeX width ↔ sizeS.toNat = 0 ∧ 0 < width.toNat ∧
      2 * width.toNat ≤ maxEntries) :=
  ⟨muxSelects_iff hX, demuxPlaces_iff, muxInvertsDemux_iff hX⟩

theorem mux_demux_exact_bit : MuxSelects 1 6 3 ∧ DemuxPlaces 0 3 ∧ MuxInvertsDemux 0 3 3 :=
  ⟨(mux_demux_exact 1 6 3 rfl).1.mpr (by decide), (mux_demux_exact 0 3 3 rfl).2.1.mpr (by decide),
    (mux_demux_exact 0 3 3 rfl).2.2.mpr (by decide)⟩

/-- Two bits select the wrong one of four words, and one bit passes a word of two bits on to the
wrong place. -/
theorem mux_demux_not_exact : ¬ MuxSelects 2 4 1 ∧ ¬ DemuxPlaces 1 2 ∧ ¬ MuxInvertsDemux 1 4 2 := by
  refine ⟨fun h => ?_, fun h => ?_, fun h => ?_⟩
  · exact absurd ((muxSelects_iff rfl).mp h) (by decide)
  · exact absurd (demuxPlaces_iff.mp h) (by decide)
  · exact absurd ((muxInvertsDemux_iff rfl).mp h) (by decide)

end UtopiaEda.Synthesizer
