import UtopiaEda.MiterCopies

/-!
# What a miter computes

The inputs are shared, the cells of both networks are carried, and the output is 1 where a pair of
outputs differs.
-/
namespace UtopiaEda.BaseChecker
open SubnetBuilder
open Option (bind_eq_bind bind_some)

variable {s s' : SubnetBuilder} {ins mid outs : List EntryID} {mapping : CellToCell}
  {map1 map2 : IdxToLink} {size nOut : ℕ}

structure InputsMade (mapping : CellToCell) (n : ℕ) (s : SubnetBuilder) (map1 map2 : IdxToLink) :
    Prop where
  grown : Grown s (List.range n) [] []
  size : s.size = n
  input : ∀ i < n, s.netlist i = some ⟨.IN, []⟩
  first : ∀ i < n, map1 i = ⟨i, 0, false⟩
  firstRest : ∀ j, n ≤ j → map1 j = ⟨0, 0, false⟩
  second : ∀ i < n, ∀ j, mapping i = some j → ∃ i' < n, mapping i' = some j ∧
    map2 j = ⟨i', 0, false⟩
  secondRest : ∀ j, (∀ i < n, mapping i ≠ some j) → map2 j = ⟨0, 0, false⟩

private theorem InputsMade.step {n : ℕ} (h : InputsMade mapping n s map1 map2) {j : EntryID}
    (hj : mapping n = some j) : ∃ s', s.addInput = some (s', ⟨n, 0, false⟩) ∧
      InputsMade mapping (n + 1) s' (Function.update map1 n ⟨n, 0, false⟩)
        (Function.update map2 j ⟨n, 0, false⟩) := by
  obtain ⟨s', hadd, hgrown, happ⟩ := h.grown.addInput
  rw [h.size] at hadd hgrown
  refine ⟨s', hadd, ?_, ?_, fun i hi => ?_, fun i hi => ?_, fun k hk => ?_, fun i hi k hk => ?_,
    fun k hk => ?_⟩
  · rw [List.range_succ]
    exact hgrown
  · rw [happ.size_of_le (Nat.zero_le _), h.size]
  · rcases Nat.lt_succ_iff_lt_or_eq.mp hi with hi | rfl
    · exact happ.le _ _ (h.input i hi)
    · rw [← h.size]
      exact happ.here
  · rcases Nat.lt_succ_iff_lt_or_eq.mp hi with hi | rfl
    · rw [Function.update_of_ne (Nat.ne_of_lt hi), h.first i hi]
    · rw [Function.update_self]
  · rw [Function.update_of_ne (Nat.ne_of_gt hk), h.firstRest k (Nat.le_of_succ_le hk)]
  · by_cases hkj : k = j
    · exact ⟨n, Nat.lt_succ_self n, hkj ▸ hj, by rw [hkj, Function.update_self]⟩
    · rcases Nat.lt_succ_iff_lt_or_eq.mp hi with hi | rfl
      · obtain ⟨i', hi', hm, hmap⟩ := h.second i hi k hk
        exact ⟨i', Nat.lt_succ_of_lt hi', hm, by rw [Function.update_of_ne hkj, hmap]⟩
      · rw [hj] at hk
        exact absurd (Option.some.inj hk).symm hkj
  · have hkj : k ≠ j := fun he => hk n (Nat.lt_succ_self n) (he ▸ hj)
    rw [Function.update_of_ne hkj, h.secondRest k (fun i hi => hk i (Nat.lt_succ_of_lt hi))]

private theorem makeInputs_eq : ∀ {n i : ℕ} {s : SubnetBuilder} {map1 map2 : IdxToLink},
    InputsMade mapping i s map1 map2 → (∀ k < i + n, ∃ j, mapping k = some j) →
    ∃ s' map1' map2', makeInputs mapping n i s map1 map2 = some (s', map1', map2') ∧
      InputsMade mapping (i + n) s' map1' map2' := by
  intro n
  induction n with
  | zero => exact fun h _ => ⟨_, _, _, rfl, h⟩
  | succ n ih =>
    intro i s map1 map2 h hm
    obtain ⟨j, hj⟩ := hm i (by omega)
    obtain ⟨s₁, hadd, h₁⟩ := h.step hj
    obtain ⟨s', map1', map2', hrun, h'⟩ := ih h₁ (fun k hk => hm k (by omega))
    refine ⟨s', map1', map2', ?_, by rw [Nat.add_comm n 1, ← Nat.add_assoc]; exact h'⟩
    rw [makeInputs, hj]
    simp only [bind_eq_bind, bind_some, hadd, hrun]

theorem makeXors_eq {f : ℕ → EntryID} : ∀ (is : List ℕ) {s : SubnetBuilder} {mid : List EntryID},
    Grown s ins mid outs → (∀ k ∈ is, mapping (size + k - nOut) = some (f k) ∧
      s.ValidLinks [map1 (size + k - nOut), map2 (f k)]) →
    ∃ s' ls mid', makeXors size nOut mapping map1 map2 is s = some (s', ls) ∧
    Grown s' ins mid' outs ∧
      s.netlist.Le s'.netlist ∧ s'.ValidLinks ls ∧ ∀ lib x σ, s'.netlist.Solves lib x σ →
        ls.map (Link.value σ) =
          is.map (fun k => xor ((map1 (size + k - nOut)).value σ) ((map2 (f k)).value σ)) := by
  intro is
  induction is with
  | nil =>
    intro s mid h _
    exact ⟨s, [], mid, rfl, h, .refl _, fun l hl => (List.not_mem_nil hl).elim, fun _ _ _ _ => rfl⟩
  | cons k is ih =>
    intro s mid h hk
    obtain ⟨hm, hvalid⟩ := hk k (by simp)
    obtain ⟨s₁, l, mid₁, hadd, h₁, hl⟩ :=
      h.addGateLink hvalid (t := .XOR) rfl (by decide) (by decide)
      (fun sid hsid => by cases hsid)
    obtain ⟨s', ls, mid', hrun, h', hle, hls, hvals⟩ := ih h₁ (fun j hj =>
      ⟨(hk j (by simp [hj])).1, (hk j (by simp [hj])).2.mono hl.le⟩)
    refine ⟨s', l :: ls, mid', ?_, h', hl.le.trans hle,
      validLinks_cons.mpr ⟨hl.valid.mono hle, hls⟩, fun lib x σ hσ => ?_⟩
    · rw [makeXors, hm]
      simp only [bind_eq_bind, bind_some, hadd, hrun]
    · rw [List.map_cons, List.map_cons, hvals lib x σ hσ, hl.value lib x σ (Solves.mono hσ hle)]
      simp [gateFunction, CellTypeID.eval]

theorem makeMiterOutputs_eq {ls : List Link} (h : Grown s ins mid []) (hl : s.ValidLinks ls) :
    ∃ s' mid' o, makeMiterOutputs s ls = some s' ∧ Grown s' ins mid' [o] ∧ s.netlist.Le s'.netlist ∧
      ∀ lib x σ, s'.netlist.Solves lib x σ → σ o 0 = (ls.map (Link.value σ)).any id := by
  have houtput : ∀ {s₁ : SubnetBuilder} {mid₁ : List EntryID} {l : Link}, Grown s₁ ins mid₁ [] →
      s₁.ValidLinks [l] → ∃ s', (∃ o, s₁.addOutput l = some (s', o)) ∧ Grown s' ins mid₁ [s₁.size] ∧
        s₁.netlist.Le s'.netlist ∧ ∀ lib x σ, s'.netlist.Solves lib x σ →
        σ s₁.size 0 = l.value σ := by
    intro s₁ mid₁ l h₁ hl₁
    obtain ⟨s', hadd, h', happ⟩ := h₁.addOutput hl₁
    refine ⟨s', ⟨_, hadd⟩, h', happ.le, fun lib x σ hσ => ?_⟩
    rw [hσ _ _ happ.here]
    rfl
  by_cases hlen : ls.length = 1
  · obtain ⟨l, rfl⟩ := List.length_eq_one_iff.mp hlen
    obtain ⟨s', ⟨o, hadd⟩, h', hle, hval⟩ := houtput h hl
    refine ⟨s', mid, s.size, ?_, h', hle, fun lib x σ hσ => ?_⟩
    · rw [makeMiterOutputs, if_pos hlen]
      simp only [List.getElem?_cons_zero, bind_eq_bind, bind_some, hadd]
    · rw [hval lib x σ hσ]
      simp
  · obtain ⟨s₁, l, mid₁, htree, h₁, hl₁⟩ := h.addCellTree hl (t := .OR) (k := 2) rfl (Nat.le_refl _)
    obtain ⟨s', ⟨o, hadd⟩, h', hle, hval⟩ := houtput h₁ hl₁.valid
    refine ⟨s', mid₁, s₁.size, ?_, h', hl₁.le.trans hle, fun lib x σ hσ => ?_⟩
    · rw [makeMiterOutputs, if_neg hlen]
      simp only [bind_eq_bind, htree, bind_some, hadd]
    · rw [hval lib x σ hσ, hl₁.value lib x σ (Solves.mono hσ hle)]
      rfl

def Source.Copies (source : Source) (N : Netlist) : Prop :=
  ∀ (R : (EntryID → Bool) → (EntryID → Bool) → Prop) (s : SubnetBuilder) (map : IdxToLink)
    (ins mid outs : List EntryID), Grown s ins mid outs →
    (∀ i g, N i = some g → g.type = .IN → Carries N R s map i g) →
    ∃ s' map' mid', source.buildCells s map = some (s', map') ∧ Grown s' ins mid' outs ∧
      s.netlist.Le s'.netlist ∧ ∀ i g, N i = some g → Carries N R s' map' i g

private theorem InputsMade.carries {n : ℕ} {N : Netlist} {map : IdxToLink}
    {R : (EntryID → Bool) → (EntryID → Bool) → Prop} (h : InputsMade mapping n s map1 map2)
    {i j : EntryID} {g : Gate} (hi : i < n) (hmap : map j = ⟨i, 0, false⟩) (hg : N j = some g)
    (hin : g.type = .IN) (hR : ∀ x y, R x y → y j = x i) : Carries N R s map j g := by
  refine ⟨validLinks_of_netlist (fun l hl => ?_), fun lib x y σ ρ hxy hσ hρ => ?_⟩
  · obtain rfl := List.mem_singleton.mp hl
    rw [hmap]
    exact ⟨_, h.input i hi, by simp⟩
  · rw [if_neg (by simp [hin])]
    intro out
    rw [hmap, hσ i _ (h.input i hi), hρ j g hg, Netlist.gateValue, Netlist.gateValue, if_pos rfl,
      if_pos hin, hR x y hxy]

theorem exists_inputs {n : ℕ} (hm : ∀ i < n, ∃ j, mapping i = some j) : ∃ s map1 map2,
    makeInputs mapping n 0 {} emptyMap emptyMap = some (s, map1, map2) ∧
      InputsMade mapping n s map1 map2 := by
  have hinit : InputsMade mapping 0 {} emptyMap emptyMap :=
    ⟨Grown.init, rfl, fun _ hi => absurd hi (Nat.not_lt_zero _),
      fun _ hi => absurd hi (Nat.not_lt_zero _), fun _ _ => rfl,
      fun _ hi => absurd hi (Nat.not_lt_zero _), fun _ _ => rfl⟩
  obtain ⟨s, map1, map2, hinputs, hmade⟩ := makeInputs_eq (n := n) hinit
    (fun k hk => hm k (by rw [Nat.zero_add] at hk; exact hk))
  rw [Nat.zero_add] at hmade
  exact ⟨s, map1, map2, hinputs, hmade⟩

theorem makeMiter_eq {source1 source2 : Source} {N₁ N₂ : Netlist} {f : ℕ → EntryID}
    (hnIn : source2.nIn = source1.nIn) (hnOut : source2.nOut = source1.nOut)
    (hwide : source1.nOut < 2 ^ 16) (h₁ : source1.Copies N₁) (h₂ : source2.Copies N₂)
    (hin₁ : ∀ i g, N₁ i = some g → g.type = .IN → i < source1.nIn)
    (hin₂ : ∀ j g, N₂ j = some g → g.type = .IN → ∃ i < source1.nIn, mapping i = some j)
    (hm : ∀ i < source1.nIn, ∃ j, mapping i = some j)
    (hout₁ : ∀ k < source1.nOut, ∃ g, N₁ (source1.size + k - source1.nOut) = some g ∧ g.type = .OUT)
    (hout₂ : ∀ k < source1.nOut, mapping (source1.size + k - source1.nOut) = some (f k) ∧
      ∃ g, N₂ (f k) = some g ∧ g.type = .OUT) :
    ∃ s mid o, makeMiter source1 source2 mapping = some s ∧
      Grown s (List.range source1.nIn) mid [o] ∧ ∀ lib x y σ ρ₁ ρ₂,
        (∀ i < source1.nIn, ∀ j, mapping i = some j → y j = x i) → s.netlist.Solves lib x σ →
        N₁.Solves lib x ρ₁ → N₂.Solves lib y ρ₂ → σ o 0 = (List.range source1.nOut).any (fun k =>
          xor (ρ₁ (source1.size + k - source1.nOut) 0) (ρ₂ (f k) 0)) := by
  obtain ⟨s₀, map1₀, map2₀, hinputs, hmade⟩ := exists_inputs hm
  let R₁ : (EntryID → Bool) → (EntryID → Bool) → Prop := fun x y => y = x
  let R₂ : (EntryID → Bool) → (EntryID → Bool) → Prop :=
    fun x y => ∀ i < source1.nIn, ∀ j, mapping i = some j → y j = x i
  obtain ⟨s₁, map1, mid₁, hbuild₁, hgrown₁, hle₁, hcarry₁⟩ := h₁ R₁ s₀ map1₀ _ _ _ hmade.grown
    (fun i g hg hin => hmade.carries (hin₁ i g hg hin) (hmade.first i (hin₁ i g hg hin)) hg hin
      (fun x y hR => congrFun hR i))
  have hsecond : ∀ j g, N₂ j = some g → g.type = .IN → Carries N₂ R₂ s₁ map2₀ j g := by
    intro j g hg hin
    obtain ⟨i, hi, hij⟩ := hin₂ j g hg hin
    obtain ⟨i', hi', hij', hmap⟩ := hmade.second i hi j hij
    exact (hmade.carries hi' hmap hg hin (fun x y hR => hR i' hi' j hij')).mono hle₁ rfl
  obtain ⟨s₂, map2, mid₂, hbuild₂, hgrown₂, hle₂, hcarry₂⟩ := h₂ R₂ s₁ map2₀ _ _ _ hgrown₁ hsecond
  have hcarry₁' : ∀ i g, N₁ i = some g → Carries N₁ R₁ s₂ map1 i g :=
    fun i g hg => (hcarry₁ i g hg).mono hle₂ rfl
  obtain ⟨s₃, ls, mid₃, hxors, hgrown₃, hle₃, hls, hvals⟩ := makeXors_eq
    (List.range source1.nOut) hgrown₂ (fun k hk => by
      have hk := List.mem_range.mp hk
      obtain ⟨g₁, hg₁, -⟩ := hout₁ k hk
      obtain ⟨hmk, g₂, hg₂, -⟩ := hout₂ k hk
      exact ⟨hmk, validLinks_cons.mpr ⟨(hcarry₁' _ g₁ hg₁).valid, (hcarry₂ _ g₂ hg₂).valid⟩⟩)
  obtain ⟨s, mid, o, houtputs, hgrown, hle, hval⟩ := makeMiterOutputs_eq hgrown₃ hls
  refine ⟨s, mid, o, ?_, hgrown, fun lib x y σ ρ₁ ρ₂ hxy hσ hρ₁ hρ₂ => ?_⟩
  · rw [makeMiter, makeNoOutMiter, if_pos ⟨hnIn, hnOut⟩]
    simp only [bind_eq_bind, bind_some, hinputs, hbuild₁, hbuild₂,
      Nat.mod_eq_of_lt hwide, hxors, houtputs]
  · have hσ₃ := Solves.mono hσ hle
    have hσ₂ := Solves.mono hσ₃ hle₃
    have hpair : ∀ k ∈ List.range source1.nOut,
        xor ((map1 (source1.size + k - source1.nOut)).value σ) ((map2 (f k)).value σ) =
          xor (ρ₁ (source1.size + k - source1.nOut) 0) (ρ₂ (f k) 0) := by
      intro k hk
      obtain ⟨g₁, hg₁, ht₁⟩ := hout₁ k (List.mem_range.mp hk)
      obtain ⟨-, g₂, hg₂, ht₂⟩ := hout₂ k (List.mem_range.mp hk)
      have hv₁ := (hcarry₁' _ g₁ hg₁).value lib x x σ ρ₁ rfl hσ₂ hρ₁
      have hv₂ := (hcarry₂ _ g₂ hg₂).value lib x y σ ρ₂ hxy hσ₂ hρ₂
      rw [if_pos ht₁] at hv₁
      rw [if_pos ht₂] at hv₂
      rw [hv₁, hv₂]
    rw [hval lib x σ hσ, hvals lib x σ hσ₃, List.map_congr_left hpair, List.any_map,
      Function.id_comp]

end UtopiaEda.BaseChecker
