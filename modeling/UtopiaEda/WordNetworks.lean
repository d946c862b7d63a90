import UtopiaEda.EntryRearrangement
import UtopiaEda.LinkFunctions
import UtopiaEda.SubnetCopying

/-!
# Networks of words

The networks of operations: inputs first, then gates and outputs, then the subnet is made. The
subnet has the bits that the links of the outputs spell.
-/
namespace UtopiaEda
open List

/-- The subnet has `k` outputs that compute the bits of `f` of its `n` inputs. -/
structure Subnet.Implements (S : Subnet) (n k : ℕ) (f : (ℕ → Bool) → ℕ → Bool) : Prop where
  nIn : S.nIn = n
  nOut : S.nOut = k
  values : ∀ lib x, ∀ j < k, S.value lib x (S.getOutIdx j) 0 = some (f x j)

/-- The word of the inputs from `first` on, least significant bit first. -/
def inputWord (x : ℕ → Bool) (first : ℕ) : (n : ℕ) → BitVec n
  | 0 => 0#0
  | n + 1 => .cons (x (first + n)) (inputWord x first n)

theorem inputWord_getLsbD {x : ℕ → Bool} {first n i : ℕ} :
    (inputWord x first n).getLsbD i = if i < n then x (first + i) else false := by
  induction n with
  | zero => rw [if_neg (Nat.not_lt_zero i), inputWord, BitVec.getLsbD_zero]
  | succ n ih =>
    rw [inputWord, BitVec.getLsbD_cons, ih]
    by_cases hi : i = n
    · rw [if_pos hi, if_pos (hi ▸ Nat.lt_succ_self n), hi]
    · rw [if_neg hi]
      by_cases hlt : i < n
      · rw [if_pos hlt, if_pos (Nat.lt_succ_of_lt hlt)]
      · rw [if_neg hlt, if_neg (by omega)]

namespace SubnetBuilder

variable {s s' s'' : SubnetBuilder} {ins mid outs : List EntryID} {n m p k : ℕ}
  {links links' : List Link} {W W' : (EntryID → ℕ → Bool) → ℕ → Bool}

structure HasInputs (s : SubnetBuilder) (n : ℕ) : Prop where
  grown : Grown s (.range' 0 n) [] []
  size : s.size = n
  counts : (s.nIn, s.nOut) = (n, 0)
  input : ∀ i < n, s.netlist i = some ⟨.IN, []⟩

theorem HasInputs.init : HasInputs {} 0 :=
  ⟨Grown.init, rfl, rfl, fun i hi => absurd hi (Nat.not_lt_zero i)⟩

/-- The links to the inputs from `first` on. -/
def inputsFrom (first m : ℕ) : List Link := (List.range' first m).map (fun i => ⟨i, 0, false⟩)

theorem HasInputs.addInputs (h : HasInputs s n) (m : ℕ) :
    ∃ s', SubnetBuilder.addInputs m s = some (s', inputsFrom n m) ∧ HasInputs s' (n + m) := by
  obtain ⟨s', hadd, hgrown, hsize, hcounts, hle, hin⟩ := h.grown.addInputs (n := m)
  have hcounts₀ := h.counts
  simp only [Prod.mk.injEq] at hcounts hcounts₀
  rw [h.size] at hadd hgrown hsize hin
  have hrange : List.range' 0 n ++ List.range' n m = List.range' 0 (n + m) := by
    have happ := range'_append_1 (s := 0) (m := n) (n := m)
    rwa [Nat.zero_add] at happ
  rw [hrange] at hgrown
  refine ⟨s', hadd, hgrown, hsize, ?_, fun i hi => ?_⟩
  · rw [hcounts.1, hcounts.2, hcounts₀.1, hcounts₀.2]
  · by_cases hlt : i < n
    · exact hle i _ (h.input i hlt)
    · exact hin i (mem_range'_1.mpr ⟨Nat.not_lt.mp hlt, hi⟩)

theorem HasInputs.make_none (h : HasInputs s n) : s.make = none := by
  have hcounts := h.counts
  simp only [Prod.mk.injEq] at hcounts
  rw [SubnetBuilder.make, if_pos (.inl hcounts.2)]

theorem HasInputs.validLinks_default (h : HasInputs s n) (hn : 0 < n) :
    s.ValidLinks [⟨0, 0, false⟩] := by
  obtain ⟨c, hc, ht, -⟩ := liveCell_of_netlist (h.input 0 hn)
  intro l hl
  rw [mem_singleton.mp hl]
  exact ⟨c, hc, by rw [ht]; decide⟩

theorem inputsFrom_length {first : ℕ} : (inputsFrom first m).length = m := by
  rw [inputsFrom, length_map, length_range']

theorem addInputs_two (n m : ℕ) :
    ∃ s₁ s₂, SubnetBuilder.addInputs n {} = some (s₁, inputsFrom 0 n) ∧
    SubnetBuilder.addInputs m s₁ = some (s₂, inputsFrom n m) ∧ HasInputs s₂ (n + m) := by
  obtain ⟨s₁, hadd₁, h₁⟩ := HasInputs.init.addInputs n
  rw [Nat.zero_add] at h₁
  obtain ⟨s₂, hadd₂, h₂⟩ := h₁.addInputs m
  exact ⟨s₁, s₂, hadd₁, hadd₂, h₂⟩

theorem HasInputs.spells (h : HasInputs s n) (first m : ℕ) (hm : first + m ≤ n) :
    s.Spells m (fun ρ i => ρ (first + i) 0) (inputsFrom first m) := by
  refine ⟨inputsFrom_length, fun i hi => ⟨⟨first + i, 0, false⟩, ?_, ?_, ?_⟩⟩
  · rw [inputsFrom, getElem?_map, getElem?_range' hi, Option.map_some, Nat.one_mul]
  · intro l hl
    rw [mem_singleton.mp hl]
    obtain ⟨c, hc, ht, -⟩ := liveCell_of_netlist (h.input (first + i) (by omega))
    exact ⟨c, hc, by rw [ht]; decide⟩
  · intro lib x ρ _
    exact Bool.xor_false _

structure Drawn (s : SubnetBuilder) (n : ℕ) (outs : List EntryID)
    (W : (EntryID → ℕ → Bool) → ℕ → Bool) :
    Prop where
  grown : ∃ mid, Grown s (.range' 0 n) mid outs
  counts : (s.nIn, s.nOut) = (n, outs.length)
  input : ∀ i < n, s.netlist i = some ⟨.IN, []⟩
  values : ∀ j e, outs[j]? = some e → ∀ lib x ρ, s.netlist.Solves lib x ρ → ρ e 0 = W ρ j

theorem HasInputs.drawn (h : HasInputs s n) : Drawn s n [] W := by
  exact ⟨⟨[], h.grown⟩, h.counts, h.input, fun j e he => by cases he⟩

theorem Drawn.enlarge (h : Drawn s n outs W) (hs : Enlarged (.range' 0 n) outs s s') :
    Drawn s' n outs W := by
  exact ⟨hs.grown, hs.counts.trans h.counts, fun i hi => hs.le i _ (h.input i hi),
    fun j e he lib x ρ hρ => h.values j e he lib x ρ (Solves.mono hρ hs.le)⟩

theorem Drawn.enlarged (h : Drawn s n outs W) : Enlarged (.range' 0 n) outs s s :=
  .refl h.grown.choose_spec

theorem Drawn.addOutputs (h : Drawn s n outs W) (hl : s.Spells m W' links) :
    ∃ s' outs', SubnetBuilder.addOutputs links s = some s' ∧ outs'.length = outs.length + m ∧
      s.netlist.Le s'.netlist ∧ Drawn s' n outs' (fun ρ j => if j < outs.length then W ρ j else
      W' ρ (j - outs.length)) := by
  obtain ⟨mid, hgrown⟩ := h.grown
  obtain ⟨s', hadd, hgrown', hsize, hcounts, hle, hout, honly⟩ := hgrown.addOutputs hl.valid
  have hcounts₀ := h.counts
  simp only [Prod.mk.injEq] at hcounts hcounts₀
  have hlen := hl.length
  have hgate : ∀ j, j < m → ∃ l, links[j]? = some l ∧ s.Computes l (W' · j) ∧
      s'.netlist (s.size + j) = some ⟨.OUT, [l]⟩ := by
    intro j hj
    obtain ⟨l, hlj, hc⟩ := hl.bits j hj
    exact ⟨l, hlj, hc, hout j l hlj⟩
  refine ⟨s', _, hadd, by rw [length_append, length_range', hlen], hle, ⟨mid, hgrown'⟩, ?_,
    fun i hi => hle i _ (h.input i hi), fun j e he lib x ρ hρ => ?_⟩
  · rw [hcounts.1, hcounts.2, hcounts₀.1, hcounts₀.2, length_append, length_range']
  · by_cases hlt : j < outs.length
    · rw [getElem?_append_left hlt] at he
      rw [if_pos hlt]
      exact h.values j e he lib x ρ (Solves.mono hρ hle)
    · rw [getElem?_append_right (Nat.not_lt.mp hlt)] at he
      rw [if_neg hlt]
      obtain ⟨hj, rfl⟩ := List.getElem?_eq_some_iff.mp he
      rw [length_range', hlen] at hj
      obtain ⟨l, -, hc, hgate⟩ := hgate _ hj
      rw [getElem_range', Nat.one_mul, hρ _ _ hgate]
      exact hc.2 lib x ρ (Solves.mono hρ hle)

private theorem Drawn.exists_made (h : Drawn s n outs W) (hpos : 0 < outs.length) :
    ∃ mid S, Grown s (.range' 0 n) mid outs ∧ s.make = some S ∧
    Made s (s.position (.range' 0 n ++ mid ++ outs)) S := by
  obtain ⟨mid, hgrown⟩ := h.grown
  have hcounts := h.counts
  simp only [Prod.mk.injEq] at hcounts
  obtain ⟨S, hS, hmade⟩ := hgrown.make_eq (by rw [hcounts.1, length_range']) hcounts.2
    (hcounts.2 ▸ hpos)
  exact ⟨mid, S, hgrown, hS, hmade⟩

theorem Drawn.made {S : Subnet} (h : Drawn s n outs W) (hS : s.make = some S) :
    ∃ mid, Grown s (.range' 0 n) mid outs ∧ Made s (s.position (.range' 0 n ++ mid ++ outs)) S := by
  have hpos : 0 < outs.length := by
    apply Nat.pos_of_ne_zero
    intro hzero
    have hcounts := h.counts
    simp only [Prod.mk.injEq] at hcounts
    rw [SubnetBuilder.make, if_pos (.inl (hcounts.2.trans hzero))] at hS
    cases hS
  obtain ⟨mid, S', hgrown, hS', hmade⟩ := h.exists_made hpos
  obtain rfl := Option.some.inj (hS.symm.trans hS')
  exact ⟨mid, hgrown, hmade⟩

theorem Drawn.exists_values {S : Subnet} (h : Drawn s n outs W) (hS : s.make = some S) :
    S.nIn = n ∧ S.nOut = outs.length ∧ ∀ lib x, ∃ ρ : EntryID → ℕ → Bool, (∀ i < n, ρ i 0 = x i) ∧
      ∀ j < outs.length, S.value lib x (S.getOutIdx j) 0 = some (W ρ j) := by
  have hcounts := h.counts
  simp only [Prod.mk.injEq] at hcounts
  obtain ⟨mid, hgrown, hmade⟩ := h.made hS
  have hmcounts := hmade.counts
  simp only [Prod.mk.injEq] at hmcounts
  refine ⟨hmcounts.1.trans hcounts.1, hmcounts.2.1.trans hcounts.2, fun lib x => ?_⟩
  obtain ⟨ρ, hρ, hvalues⟩ := hmade.exists_values hgrown lib x
  refine ⟨ρ, fun i hi => ?_, fun j hj => ?_⟩
  · have hplace := hgrown.position_input (getElem?_range' hi)
    rw [Nat.one_mul, Nat.zero_add] at hplace
    have hval := congrFun (hρ i _ (h.input i hi)) 0
    rw [hval, Netlist.gateValue, if_pos rfl, hplace]
  · have he : outs[j]? = some outs[j] := getElem?_eq_getElem hj
    have hlive := (hgrown.mem outs[j]).mp (mem_append_right _ (getElem_mem hj))
    have hval := hvalues _ hlive 0
    rw [hgrown.position_output he, h.values j _ he lib _ ρ hρ] at hval
    rw [Subnet.getOutIdx, hmade.size, hmcounts.2.1, hcounts.2]
    exact hval

/-- The subnet that is made has the inputs and the outputs. -/
theorem Drawn.make {f : (ℕ → Bool) → ℕ → Bool} (h : Drawn s n outs W) (hpos : 0 < outs.length)
    (hf : ∀ (ρ : EntryID → ℕ → Bool) (x : ℕ → Bool), (∀ i < n, ρ i 0 = x i) → ∀ j < outs.length,
      W ρ j = f x j) :
    ∃ S, s.make = some S ∧ S.Implements n outs.length f := by
  obtain ⟨mid, S, -, hS, -⟩ := h.exists_made hpos
  obtain ⟨hin, hout, hvalues⟩ := h.exists_values hS
  refine ⟨S, hS, hin, hout, fun lib x j hj => ?_⟩
  obtain ⟨ρ, hx, hvalue⟩ := hvalues lib x
  rw [hvalue j hj, hf ρ x hx j hj]

theorem HasInputs.make {f : (ℕ → Bool) → ℕ → Bool} (h : HasInputs s n)
    (hs : Enlarged (.range' 0 n) [] s s') (hl : s'.Spells k W links) (hpos : 0 < k)
    (hf : ∀ (ρ : EntryID → ℕ → Bool) (x : ℕ → Bool), (∀ i < n, ρ i 0 = x i) →
      ∀ j < k, W ρ j = f x j) :
    ∃ s'' S, SubnetBuilder.addOutputs links s' = some s'' ∧ s''.make = some S ∧
    S.Implements n k f := by
  have hdrawn : Drawn s' n [] W := h.drawn.enlarge hs
  obtain ⟨s'', outs', hadd, hlen, -, hdrawn'⟩ := hdrawn.addOutputs hl
  have hlen : outs'.length = k := by rw [hlen, length_nil, Nat.zero_add]
  obtain ⟨S, hS, himp⟩ := hdrawn'.make (f := f) (by rw [hlen]; exact hpos)
    (fun ρ x hx j hj => hf ρ x hx j (hlen ▸ hj))
  rw [hlen] at himp
  exact ⟨s'', S, hadd, hS, himp⟩

/-- The word of the inputs from `first` on, and zeros behind it. -/
def zeroExtended (first n : ℕ) (ρ : EntryID → ℕ → Bool) (i : ℕ) : Bool :=
  if i < n then ρ (first + i) 0 else false

/-- The word of the inputs from `first` on, and its last bit behind it. -/
def signExtended (first n : ℕ) (ρ : EntryID → ℕ → Bool) (i : ℕ) : Bool :=
  ρ (first + min i (n - 1)) 0

theorem HasInputs.spells_zeroExtended (h : HasInputs s n) (first m : ℕ) (hm : first + m ≤ n) :
    s.Spells m (zeroExtended first m) (inputsFrom first m) :=
  (h.spells first m hm).congr (fun _ _ hi => (if_pos hi).symm)

theorem HasInputs.spells_signExtended (h : HasInputs s n) {first : ℕ} (hm : first + m ≤ n) :
    s.Spells m (signExtended first m) (inputsFrom first m) := by
  apply (h.spells first m hm).congr
  intro ρ i hi
  rw [signExtended, Nat.min_eq_left (by omega)]

theorem zeroExtended_eq {first n m i : ℕ} {ρ : EntryID → ℕ → Bool} {x : ℕ → Bool}
    (hx : ∀ i < m, ρ i 0 = x i) (hm : first + n ≤ m) : zeroExtended first n ρ i =
    (inputWord x first n).getLsbD i := by
  rw [zeroExtended, inputWord_getLsbD]
  split
  · exact hx _ (by omega)
  · rfl

theorem signExtended_eq {first n m i : ℕ} {ρ : EntryID → ℕ → Bool} {x : ℕ → Bool}
    (hx : ∀ i < m, ρ i 0 = x i) (hm : first + n ≤ m) (hn : 0 < n) {v : ℕ} (hi : i < v) :
    signExtended first n ρ i = ((inputWord x first n).signExtend v).getLsbD i := by
  rw [signExtended, BitVec.getLsbD_signExtend, decide_eq_true hi, Bool.true_and,
    BitVec.msb_eq_getLsbD_last, inputWord_getLsbD, inputWord_getLsbD, if_pos (by omega : n - 1 < n)]
  by_cases hlt : i < n
  · rw [if_pos hlt, if_pos hlt, Nat.min_eq_left (by omega)]
    exact hx _ (by omega)
  · rw [if_neg hlt, Nat.min_eq_right (by omega)]
    exact hx _ (by omega)

theorem HasInputs.addInput (h : HasInputs s n) :
    ∃ s', s.addInput = some (s', ⟨n, 0, false⟩) ∧ HasInputs s' (n + 1) := by
  obtain ⟨s', hadd, h'⟩ := h.addInputs 1
  obtain ⟨⟨s₁, l⟩, hin, hrest⟩ := Option.bind_eq_some_iff.mp (show s.addInput.bind _ = _ from hadd)
  obtain ⟨hs, hl⟩ := Prod.mk.inj (Option.some.inj hrest)
  refine ⟨s', ?_, h'⟩
  rw [hin]
  subst hs
  rw [(cons.inj hl).1]

theorem HasInputs.spells_signs {first : ℕ} (h : HasInputs s n) (hpos : 0 < p) (hn : first + p ≤ n)
    (hm : p - 1 ≤ m) : s.Spells m (signExtended first p)
    (inputsFrom first (p - 1) ++ .replicate (m - (p - 1)) ⟨first + (p - 1), 0, false⟩) := by
  have hword := h.spells first (p - 1) (by omega)
  obtain ⟨l, hl, hc⟩ := (h.spells (first + (p - 1)) 1 (by omega)).bits 0 Nat.one_pos
  obtain rfl := Option.some.inj hl
  have happ := hword.append (Spells.replicate (n := m - (p - 1)) hc)
  rw [Nat.add_sub_cancel' hm] at happ
  apply happ.congr
  intro ρ i _
  rw [signExtended]
  split
  · rw [Nat.min_eq_left (by omega)]
  · rw [Nat.min_eq_right (by omega), Nat.add_zero]

theorem HasInputs.computes_sign (h : HasInputs s n) (hpos : 0 < p) (hn : first + p ≤ n)
    (hm : p ≤ m + 1) : s.Computes ⟨first + (p - 1), 0, false⟩
    (fun ρ => signExtended first p ρ m) := by
  obtain ⟨l, hl, hc⟩ := (h.spells (first + (p - 1)) 1 (by omega)).bits 0 Nat.one_pos
  obtain rfl := Option.some.inj hl
  apply hc.congr
  intro ρ
  rw [signExtended, Nat.min_eq_right (by omega), Nat.add_zero]

end SubnetBuilder
end UtopiaEda
