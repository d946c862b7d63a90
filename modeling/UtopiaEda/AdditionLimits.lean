import UtopiaEda.BuilderLimits
import UtopiaEda.PrefixAdderSums

/-!
# The limits of sums

A level of the prefix adder adds at most three gates for half of the bits, and there are at most 15
levels. So the entries of a sum are linear in its bits.
-/
namespace UtopiaEda.Synthesizer

open List SubnetBuilder
open Option (bind_eq_bind bind_eq_some_iff)

/-- No fewer than the cells that the adder adds for `n` bits. -/
def adderCells (n : ℕ) : ℕ := 27 * n + 60

variable {s s' s'' : SubnetBuilder} {st st' : PrefixState} {t : CellTypeID} {l p g : Link}
  {A A' B links : List Link} {fuel n m k child batch : ℕ}

theorem addCell_size (h : s.addCell t links = some (s', l))
    (hlen : links.length ≤ InPlaceLinks) : s'.size ≤ s.size + 1 := by
  rcases refcountAt_addCell hlen h with ⟨hsize, -⟩ | ⟨hsize, -⟩
  · omega
  · exact hsize

/-! ### The levels -/

private theorem generateChild_size {parent own : Bool}
    (h : generateChild g p l parent own child s st = some (s', st')) : s'.size ≤ s.size + 2 := by
  unfold generateChild at h
  split at h
  · simp only [bind_eq_bind, bind_eq_some_iff] at h
    obtain ⟨⟨s₁, g₁⟩, hand, ⟨s₂, g₂⟩, hor, heq⟩ := h
    cases heq
    have hfirst := addCell_size hand (Nat.le_succ 2)
    split at hor
    · exact (addCell_size hor (Nat.le_succ 2)).trans (Nat.succ_le_succ hfirst)
    · cases hor
      exact Nat.le_succ_of_le hfirst
  · cases h
    exact Nat.le_add_right _ 2

private theorem addChild_size (h : addChild k batch p g child s st = some (s', st')) :
    s'.size ≤ s.size + 3 := by
  simp only [addChild, bind_eq_bind, bind_eq_some_iff] at h
  obtain ⟨childP, -, childG, -, ⟨s₁, st₁⟩, hprop, parent, -, own, -, hlast⟩ := h
  have hpropagate : s₁.size ≤ s.size + 1 := by
    unfold propagateChild at hprop
    split at hprop
    · cases hprop
      exact Nat.le_succ _
    · obtain ⟨⟨s₂, q⟩, hadd, heq⟩ := bind_eq_some_iff.mp hprop
      cases heq
      exact addCell_size hadd (Nat.le_succ 2)
  exact (generateChild_size hlast).trans (Nat.add_le_add_right hpropagate 2)

private theorem addChildren_size (child : ℕ) : ∀ {s : SubnetBuilder} {st : PrefixState},
    addChildren k batch p g child s st = some (s', st') →
    s'.size ≤ s.size + 3 * ((child + 2 - batch) / 2) := by
  have hend : ∀ {child : ℕ} {s : SubnetBuilder} {st : PrefixState},
      (if batch ≤ child then addChild k batch p g child s st else some (s, st)) = some (s', st') →
      s'.size ≤ s.size + 3 * ((child + 2 - batch) / 2) := by
    intro child s st h
    split at h
    · have := addChild_size h
      omega
    · cases h
      omega
  induction child using Nat.twoStepInduction with
  | zero => exact hend
  | one => exact hend
  | more child ih _ =>
    intro s st h
    rw [addChildren] at h
    split at h
    · obtain ⟨⟨s₁, st₁⟩, hfirst, h⟩ := bind_eq_some_iff.mp h
      have := addChild_size hfirst
      have := ih h
      omega
    · cases h
      omega

private theorem addBatch_size (hk : 0 < k) (h : addBatch n k batch s st = some (s', st')) :
    s'.size ≤ s.size + 3 * ((k + 1) / 2) := by
  unfold addBatch at h
  split at h
  · cases h
    omega
  · obtain ⟨parentP, -, h⟩ := bind_eq_some_iff.mp h
    obtain ⟨parentG, -, h⟩ := bind_eq_some_iff.mp h
    have hpos := Nat.min_le_left (k - 1 + batch) (n - 1 - (if n % 2 = 0 then 1 else 0))
    have := addChildren_size _ h
    omega

/-- The batches of a level, counted by the steps between them. -/
private theorem addBatches_size {d : ℕ} (hd : 0 < d)
    (hwrap : ∀ k, d * (2 * k) + d - 1 ≤ n → d * (2 * k) + d - 1 + 2 * d < 2 ^ 16) :
    ∀ {N k : ℕ} {s : SubnetBuilder} {st : PrefixState},
    addBatches n d (2 * d) N (d * (2 * k) + d - 1) s st = some (s', st') →
    s'.size ≤ s.size + 3 * ((d + 1) / 2) * ((n + 2 * d - (d * (2 * k) + d - 1)) / (2 * d)) := by
  intro N
  induction N with
  | zero =>
    intro k s st h
    cases h
  | succ N ih =>
    intro k s st h
    rw [addBatches] at h
    split at h
    · rename_i hle
      obtain ⟨⟨s₁, st₁⟩, hfirst, h⟩ := bind_eq_some_iff.mp h
      have hmul : d * (2 * (k + 1)) = d * (2 * k) + 2 * d := by
        rw [Nat.mul_add 2, Nat.mul_add d, Nat.mul_one, Nat.mul_comm d 2]
      have hnext : (d * (2 * k) + d - 1 + 2 * d) % 2 ^ 16 = d * (2 * (k + 1)) + d - 1 := by
        rw [Nat.mod_eq_of_lt (hwrap k hle), hmul]
        omega
      have hbatch := addBatch_size hd hfirst
      simp only [hnext] at h
      have hrest := ih h
      have hrounds : (n + 2 * d - (d * (2 * k) + d - 1)) / (2 * d) =
          (n + 2 * d - (d * (2 * (k + 1)) + d - 1)) / (2 * d) + 1 := by
        rw [← Nat.add_div_right _ (by omega)]
        congr 1
        omega
      rw [hrounds, Nat.mul_succ]
      omega
    · cases h
      exact Nat.le_add_right _ _

private theorem level_size (hk : 2 ^ k < n) :
    2 * (3 * ((2 ^ k + 1) / 2) * ((n + 2 * 2 ^ k - (2 ^ k - 1)) / (2 * 2 ^ k))) ≤ 3 * n + 6 := by
  cases k with
  | zero => simp only [Nat.pow_zero]; omega
  | succ k =>
    rw [Nat.pow_succ] at hk ⊢
    generalize 2 ^ k = c at hk ⊢
    have hhalf : (c * 2 + 1) / 2 = c := by omega
    have hle := Nat.mul_div_le (n + 2 * (c * 2) - (c * 2 - 1)) (2 * (c * 2))
    rw [hhalf]
    generalize (n + 2 * (c * 2) - (c * 2 - 1)) / (2 * (c * 2)) = q at hle ⊢
    have hcomm : 2 * (c * 2) * q = 4 * (c * q) := by
      rw [Nat.mul_comm c, ← Nat.mul_assoc, Nat.mul_assoc]
    rw [hcomm] at hle
    rw [Nat.mul_assoc 3]
    omega

private theorem addLevels_size (hn : n ≤ 2 ^ 15) : ∀ {N k : ℕ} {s : SubnetBuilder}
    {st : PrefixState}, k ≤ 15 → addLevels fuel n N (2 ^ k) s st = some (s', st') →
    2 * s'.size ≤ 2 * s.size + (15 - k) * (3 * n + 6) := by
  intro N
  induction N with
  | zero =>
    intro k s st _ h
    cases h
  | succ N ih =>
    intro k s st hk h
    rw [addLevels] at h
    split at h
    · rename_i hlt
      have hk' : k < 15 := by
        by_contra hge
        obtain rfl : k = 15 := by omega
        omega
      obtain ⟨hwrap, hrounds⟩ := level_bound hn hlt
      have hdelta : 2 ^ k * 2 % 2 ^ 16 = 2 * 2 ^ k := by
        rw [Nat.mul_comm, Nat.mod_eq_of_lt hwrap]
      simp only [hdelta] at h
      obtain ⟨⟨s₁, st₁⟩, hfirst, h⟩ := bind_eq_some_iff.mp h
      have hstart : 2 ^ k - 1 = 2 ^ k * (2 * 0) + 2 ^ k - 1 := by omega
      rw [hstart] at hfirst
      have hlevel := addBatches_size (Nat.two_pow_pos k) hrounds hfirst
      rw [← hstart] at hlevel
      have hdouble : 2 * 2 ^ k = 2 ^ (k + 1) := by rw [Nat.pow_succ, Nat.mul_comm]
      have hrest : 2 * s'.size ≤ 2 * s₁.size + (15 - (k + 1)) * (3 * n + 6) := ih hk' (hdouble ▸ h)
      have hbound := level_size hlt
      have hsplit : (15 - k) * (3 * n + 6) = (15 - (k + 1)) * (3 * n + 6) + (3 * n + 6) := by
        rw [← Nat.succ_mul]
        congr 1
        omega
      rw [hsplit]
      omega
    · cases h
      exact Nat.le_add_right _ _

/-! ### The adder -/

private theorem addBits_size : ∀ {is : List ℕ} {s : SubnetBuilder} {st : PrefixState},
    addBits A B is s st = some (s', st') → s'.size ≤ s.size + 2 * is.length := by
  intro is
  induction is with
  | nil =>
    intro s st h
    cases h
    exact Nat.le_refl _
  | cons i is ih =>
    intro s st h
    simp only [addBits, bind_eq_bind, bind_eq_some_iff] at h
    obtain ⟨a, -, b, -, ⟨s₁, p⟩, hxor, ⟨s₂, g⟩, hand, hrest⟩ := h
    have := addCell_size hxor (Nat.le_succ 2)
    have hnext : s₂.size ≤ s₁.size + 1 := addCell_size hand (Nat.le_succ 2)
    have hle : s'.size ≤ s₂.size + _ := ih hrest
    rw [length_cons]
    omega

private theorem addOddCarries_size : ∀ {is : List ℕ} {s : SubnetBuilder} {st : PrefixState},
    addOddCarries k is s st = some (s', st') → s'.size ≤ s.size + 2 * is.length := by
  intro is
  induction is with
  | nil =>
    intro s st h
    cases h
    exact Nat.le_refl _
  | cons i is ih =>
    intro s st h
    simp only [addOddCarries, bind_eq_bind, bind_eq_some_iff] at h
    obtain ⟨childG, -, childP, -, parentG, -, used, -, own, -, ⟨s₁, st₁⟩, hchild, hrest⟩ := h
    have := generateChild_size hchild
    have hle : s'.size ≤ s₁.size + _ := ih hrest
    rw [length_cons]
    omega

private theorem addSums_size : ∀ {is : List ℕ} {s : SubnetBuilder} {links : List Link},
    addSums A st is s = some (s', links) → s'.size ≤ s.size + is.length := by
  intro is
  induction is with
  | nil =>
    intro s links h
    cases h
    exact Nat.le_refl _
  | cons i is ih =>
    intro s links h
    simp only [addSums, bind_eq_bind, bind_eq_some_iff] at h
    obtain ⟨p, -, g, -, used, -, ⟨s₁, sum⟩, hsum, ⟨s₂, sums⟩, hrest, heq⟩ := h
    cases heq
    have hle : s₂.size ≤ s₁.size + _ := ih hrest
    rw [length_cons]
    change s₂.size ≤ _
    split at hsum
    · have := addCell_size hsum (Nat.le_succ 2)
      omega
    · cases hsum
      omega

private theorem addSign_size {a b : Link} (h : addSign s l a b g = some (s', p)) :
    s'.size ≤ s.size + 7 := by
  obtain ⟨⟨s₁, x⟩, h₁, h⟩ := bind_eq_some_iff.mp h
  obtain ⟨⟨s₂, y⟩, h₂, h⟩ := bind_eq_some_iff.mp h
  obtain ⟨⟨s₃, z⟩, h₃, h⟩ := bind_eq_some_iff.mp h
  obtain ⟨⟨s₄, u⟩, h₄, h⟩ := bind_eq_some_iff.mp h
  obtain ⟨⟨s₅, v⟩, h₅, h⟩ := bind_eq_some_iff.mp h
  obtain ⟨⟨s₆, w⟩, h₆, h⟩ := bind_eq_some_iff.mp h
  obtain ⟨⟨s₇, o⟩, h₇, h⟩ := bind_eq_some_iff.mp h
  cases h
  have := addCell_size h₁ (Nat.le_succ 2)
  have := addCell_size h₂ (Nat.le_succ 2)
  have := addCell_size h₃ (Nat.le_succ 2)
  have := addCell_size h₄ (Nat.le_refl 3)
  have := addCell_size h₅ (Nat.le_succ 2)
  have := addCell_size h₆ (Nat.le_succ 2)
  have := addCell_size h₇ (Nat.le_succ 2)
  omega

private theorem addCarryOut_size {useSign isUnsignedSub : Bool} (h : addCarryOut s A B st links n k
    useSign isUnsignedSub = some (s', A')) : s'.size ≤ s.size + 7 := by
  simp only [addCarryOut, bind_eq_bind, bind_eq_some_iff] at h
  obtain ⟨notZero, -, g, -, sum, -, ⟨s₁, zeroCell⟩, hzero, heq⟩ := h
  cases heq
  change s₁.size ≤ _
  split at hzero
  · exact (addCell_size hzero (Nat.zero_le 3)).trans (Nat.add_le_add_left (by decide) _)
  · split at hzero
    · obtain ⟨⟨s₂, both⟩, hand, hzero⟩ := bind_eq_some_iff.mp hzero
      have := addCell_size hand (Nat.le_succ 2)
      have hor : s₁.size ≤ s₂.size + 1 := addCell_size hzero (Nat.le_succ 2)
      omega
    · split at hzero
      · obtain ⟨a, -, hzero⟩ := bind_eq_some_iff.mp hzero
        obtain ⟨b, -, hzero⟩ := bind_eq_some_iff.mp hzero
        exact addSign_size hzero
      · cases hzero
        exact Nat.le_add_right _ 7

private theorem addSwapped_size {outSize : UInt16} {useSign isUnsignedSub : Bool}
    (h : addSwapped fuel s A B outSize useSign isUnsignedSub = some (s', links)) :
    s'.size ≤ s.size + adderCells (min outSize.toNat (A.length % 2 ^ 16)) := by
  have hn : min outSize.toNat (A.length % 2 ^ 16) ≤ 2 ^ 15 := by
    by_contra hbig
    rw [addSwapped_none (.inl (Nat.not_le.mp hbig))] at h
    cases h
  unfold addSwapped at h
  dsimp only at h
  generalize min outSize.toNat (A.length % 2 ^ 16) = n at h hn ⊢
  split at h
  · cases h
  · obtain ⟨⟨s₁, st₁⟩, hbits, h⟩ := bind_eq_some_iff.mp h
    obtain ⟨st₂, -, h⟩ := bind_eq_some_iff.mp h
    obtain ⟨⟨s₃, st₃⟩, hlevels, h⟩ := bind_eq_some_iff.mp h
    obtain ⟨⟨s₄, st₄⟩, hodd, h⟩ := bind_eq_some_iff.mp h
    obtain ⟨⟨s₅, sums⟩, hsums, h⟩ := bind_eq_some_iff.mp h
    obtain ⟨first, -, h⟩ := bind_eq_some_iff.mp h
    have h₁ := addBits_size hbits
    have h₃ : 2 * s₃.size ≤ 2 * s₁.size + 15 * (3 * n + 6) :=
      addLevels_size (k := 0) hn (Nat.zero_le _) hlevels
    have h₄ : s₄.size ≤ s₃.size + _ := addOddCarries_size hodd
    have h₅ : s₅.size ≤ s₄.size + _ := addSums_size hsums
    have hlast : s'.size ≤ s₅.size + 7 := by
      split at h
      · exact addCarryOut_size h
      · cases h
        exact Nat.le_add_right _ 7
    rw [length_range] at h₁
    rw [length_map, length_range] at h₄
    rw [length_range'] at h₅
    rw [adderCells]
    omega

theorem synthLadnerFisherAdd_size {outSize : UInt16} {useSign isUnsignedSub : Bool}
    (h : synthLadnerFisherAdd fuel s A B outSize useSign isUnsignedSub = some (s', links)) :
    s'.size ≤ s.size + adderCells (min outSize.toNat (max (A.length % 2 ^ 16)
      (B.length % 2 ^ 16))) := by
  unfold synthLadnerFisherAdd at h
  dsimp only at h
  split at h
  · rename_i hlt
    rw [Nat.max_eq_right (Nat.le_of_lt hlt)]
    exact addSwapped_size h
  · rename_i hlt
    rw [Nat.max_eq_left (Nat.not_lt.mp hlt)]
    exact addSwapped_size h

/-- A made network has entries for the inputs, the cells and the outputs. -/
theorem size_made {W : (EntryID → ℕ → Bool) → ℕ → Bool} {S : Subnet} (h : HasInputs s n)
    (hs : Enlarged (.range' 0 n) [] s s') (hl : s'.Spells k W links)
    (hout : addOutputs links s' = some s'') (hS : s''.make = some S) :
    n + k ≤ S.size ∧ S.size = s'.size + k := by
  have hdrawn : Drawn s' n [] W := h.drawn.enlarge hs
  obtain ⟨mid, hgrown⟩ := hdrawn.grown
  have hsize := (hgrown.addOutputs_counts hl.valid hout).1
  obtain ⟨s₂, outs, hrun, -, -, hdrawn₂⟩ := hdrawn.addOutputs hl
  cases hout.symm.trans hrun
  obtain ⟨mid', -, hmade⟩ := hdrawn₂.made hS
  rw [hmade.size, hsize, hl.length]
  refine ⟨Nat.add_le_add_right ?_ k, rfl⟩
  by_contra hlt
  obtain ⟨c, hc, -⟩ := liveCell_of_netlist (hdrawn.input s'.size (Nat.not_le.mp hlt))
  exact Nat.lt_irrefl _ (lt_of_live hc)

end UtopiaEda.Synthesizer
