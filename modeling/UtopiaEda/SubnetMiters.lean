import UtopiaEda.MiterCorrectness

/-!
# Miters of subnets

With indices of 16 bits the miter is exact for subnets of up to `2 ^ 16` entries. In a larger subnet
an output is looked up by an index that was never stored, and its default link is compared.
-/
namespace UtopiaEda.BaseChecker
open SubnetBuilder List
open Option (bind_eq_bind bind_some map_eq_some_iff map_some some.inj)

structure ValidMapping (subnet1 subnet2 : Subnet) (mapping : CellToCell) : Prop where
  inputs : ∀ i < subnet1.nIn, ∃ j < subnet2.nIn, mapping (subnet1.getInIdx i) =
    some (subnet2.getInIdx j)
  onto : ∀ j < subnet2.nIn, ∃ i < subnet1.nIn, mapping (subnet1.getInIdx i) =
    some (subnet2.getInIdx j)
  outputs : ∀ k < subnet1.nOut, ∃ m < subnet2.nOut,
    mapping (subnet1.getOutIdx k) = some (subnet2.getOutIdx m)

/-- The builder has the inputs of the first subnet and one output, which is 1 exactly when a mapped
pair of outputs differs; `y` are the values of the mapped inputs. -/
def Exact (subnet1 subnet2 : Subnet) (mapping : CellToCell) (result : Option SubnetBuilder) :
    Prop :=
  ∃ miter o, result = some miter ∧ (miter.netlist o).isSome ∧
    (∀ i g, miter.netlist i = some g → (g.type = .OUT ↔ i = o)) ∧
    (∀ i g, miter.netlist i = some g → (g.type = .IN ↔ i < subnet1.nIn)) ∧
    ∀ lib x y, (∀ i < subnet1.nIn, ∀ j, mapping (subnet1.getInIdx i) = some j → y j = x i) →
      ∃ b, miter.value lib x o 0 = some b ∧ (b = true ↔ ∃ k < subnet1.nOut, ∃ j,
        mapping (subnet1.getOutIdx k) = some j ∧
          subnet1.value lib x (subnet1.getOutIdx k) 0 ≠ subnet2.value lib y j 0)

variable {S S₁ S₂ : Subnet} {mapping : CellToCell}

theorem ofSubnet_copies (hS : S.Arranged) (hsize : S.size ≤ 2 ^ 16) :
    (Source.ofSubnet S).Copies S.netlist := by
  intro R s map ins mid outs h hin
  have hcopied : Copied S R s map S.nIn := by
    constructor
    intro j c hc hj
    exact hin j _ (by rw [Subnet.netlist, hc, map_some])
      ((hS.wellFormed.input j c hc).mpr hj)
  obtain ⟨s', map', mid', hrun, h', hle, -, hdone⟩ :=
    buildCellsLoop_eq hS hsize h hcopied (Nat.le_refl _)
    hS.behind_inputs (Nat.le_add_right _ _)
  refine ⟨s', map', mid', hrun, h', hle, fun i g hg => ?_⟩
  obtain ⟨c, hc, rfl⟩ := map_eq_some_iff.mp hg
  exact hdone.carries i c hc (Subnet.lt_of_getCell hc)

theorem output_gate (hS : S.WellFormed) {k : ℕ} (hk : k < S.nOut) :
    ∃ g, S.netlist (S.getOutIdx k) = some g ∧ g.type = .OUT := by
  obtain ⟨f, hf⟩ := exists_outLinks hS
  obtain ⟨-, c, hc, ht, -⟩ := hf k hk
  exact ⟨⟨c.type, c.links⟩, by rw [Subnet.netlist, hc, map_some], ht⟩

/-- An output without a cell before it is not well formed. -/
theorem nOut_lt (hS : S.WellFormed) (hsize : S.size ≤ 2 ^ 16) : S.nOut < 2 ^ 16 := by
  have hb := hS.bounds
  by_contra hle
  have hzero : S.size - S.nOut = 0 := by omega
  have hpos : 0 < S.size := by omega
  obtain ⟨c, hc⟩ := Option.isSome_iff_exists.mp (hS.ends 0 (.inr (Nat.le_of_eq hzero)) hpos)
  have hout : c.type = .OUT := (hS.output 0 c hc).mpr (Nat.le_of_eq hzero)
  obtain ⟨l, hl⟩ := length_eq_one_iff.mp (hS.outLink 0 c hc hout)
  obtain ⟨hlt, -⟩ := hS.links 0 c hc l (by rw [hl]; exact mem_singleton_self l)
  exact Nat.not_lt_zero _ hlt

/-- The miter of subnets whose indices fit into 16 bits is exact. -/
theorem makeMiter_exact (h₁ : S₁.Arranged) (h₂ : S₂.Arranged) (hnIn : S₂.nIn = S₁.nIn)
    (hnOut : S₂.nOut = S₁.nOut) (hmapping : ValidMapping S₁ S₂ mapping) (hsize₁ : S₁.size ≤ 2 ^ 16)
    (hsize₂ : S₂.size ≤ 2 ^ 16) :
    Exact S₁ S₂ mapping (makeMiter (.ofSubnet S₁) (.ofSubnet S₂) mapping) := by
  have hwf₁ := h₁.wellFormed
  have hwf₂ := h₂.wellFormed
  have hb := hwf₁.bounds
  choose! m hm hmout using hmapping.outputs
  have hidx : ∀ k, S₁.size + k - S₁.nOut = S₁.getOutIdx k := by
    intro k
    rw [Subnet.getOutIdx]
    omega
  have hin₁ : ∀ i g, S₁.netlist i = some g → g.type = .IN → i < S₁.nIn := by
    intro i g hg hin
    obtain ⟨c, hc, rfl⟩ := map_eq_some_iff.mp hg
    exact (hwf₁.input i c hc).mp hin
  have hin₂ : ∀ j g, S₂.netlist j = some g → g.type = .IN → ∃ i < S₁.nIn, mapping i = some j := by
    intro j g hg hin
    obtain ⟨c, hc, rfl⟩ := map_eq_some_iff.mp hg
    exact hmapping.onto j ((hwf₂.input j c hc).mp hin)
  obtain ⟨s, mid, o, hrun, hgrown, hval⟩ := @makeMiter_eq mapping (.ofSubnet S₁) (.ofSubnet S₂)
    S₁.netlist S₂.netlist (fun k => S₂.getOutIdx (m k)) hnIn hnOut
    (nOut_lt hwf₁ hsize₁) (ofSubnet_copies h₁ hsize₁) (ofSubnet_copies h₂ hsize₂) hin₁ hin₂
    (fun i hi => (hmapping.inputs i hi).imp (fun j hj => hj.2))
    (fun k hk => by
      have hgate := output_gate hwf₁ hk
      rw [← hidx k] at hgate
      exact hgate)
    (fun k hk => ⟨by
      have hmk := hmout k hk
      rw [← hidx k] at hmk
      exact hmk, output_gate hwf₂ (hm k hk)⟩)
  have hlive : (s.netlist o).isSome := (hgrown.mem o).mp (by simp)
  refine ⟨s, o, hrun, hlive, fun i g hg => ?_, fun i g hg => ?_, fun lib x y hxy => ?_⟩
  · rw [hgrown.output i g hg, mem_singleton]
  · rw [hgrown.input i g hg, mem_range]
    rfl
  · obtain ⟨σ, hσ⟩ := hgrown.netOk.exists_solves lib x
    obtain ⟨ρ₁, hρ₁, hval₁⟩ := hwf₁.exists_values lib x
    obtain ⟨ρ₂, hρ₂, hval₂⟩ := hwf₂.exists_values lib y
    refine ⟨σ o 0, hgrown.netOk.value_eq hσ hlive 0, ?_⟩
    rw [hval lib x y σ ρ₁ ρ₂ hxy hσ hρ₁ hρ₂, any_eq_true]
    have hpair : ∀ k < S₁.nOut, S₁.value lib x (S₁.getOutIdx k) 0 = some (ρ₁ (S₁.getOutIdx k) 0) ∧
        S₂.value lib y (S₂.getOutIdx (m k)) 0 = some (ρ₂ (S₂.getOutIdx (m k)) 0) := by
      intro k hk
      obtain ⟨g₁, hg₁, -⟩ := output_gate hwf₁ hk
      obtain ⟨g₂, hg₂, -⟩ := output_gate hwf₂ (hm k hk)
      obtain ⟨c₁, hc₁, -⟩ := map_eq_some_iff.mp hg₁
      obtain ⟨c₂, hc₂, -⟩ := map_eq_some_iff.mp hg₂
      exact ⟨hval₁ _ c₁ hc₁ 0, hval₂ _ c₂ hc₂ 0⟩
    constructor
    · rintro ⟨k, hk, hne⟩
      have hk : k < S₁.nOut := mem_range.mp hk
      refine ⟨k, hk, _, hmout k hk, ?_⟩
      rw [(hpair k hk).1, (hpair k hk).2]
      have hne : xor (ρ₁ (S₁.size + k - S₁.nOut) 0) (ρ₂ (S₂.getOutIdx (m k)) 0) = true := hne
      rw [hidx k, bne_iff_ne] at hne
      simpa using hne
    · rintro ⟨k, hk, j, hj, hne⟩
      obtain rfl : S₂.getOutIdx (m k) = j := some.inj ((hmout k hk).symm.trans hj)
      rw [(hpair k hk).1, (hpair k hk).2] at hne
      refine ⟨k, mem_range.mpr hk, ?_⟩
      change xor (ρ₁ (S₁.size + k - S₁.nOut) 0) (ρ₂ (S₂.getOutIdx (m k)) 0) = true
      rw [hidx k, bne_iff_ne]
      simpa using hne

def Flat (S : Subnet) : Prop :=
  ∀ i < S.size, ∃ c, S.getCell i = some c ∧ c.links.length ≤ InPlaceLinks

variable {s : SubnetBuilder} {map : IdxToLink} {ins mid outs : List EntryID} {i : EntryID}
  {c : SubnetCell}

private theorem newLink_mapValid (h : ∀ j, s.ValidLinks [map j]) (links : List Link) :
    s.ValidLinks (links.map (newLink map)) := by
  intro k hk
  obtain ⟨l, -, rfl⟩ := mem_map.mp hk
  exact h l.idx (map l.idx) (mem_singleton_self _)

private theorem exists_readLinks (hflat : Flat S) (hi : i < S.size)
    (hc : c.links.length ≤ InPlaceLinks) (map : IdxToLink) : ∃ links : List Link,
    (range c.arity).mapM (fun j => (readLink S (i % 2 ^ 16) j).map (newLink map)) =
      some (links.map (newLink map)) ∧ links.length = c.arity := by
  obtain ⟨a, ha, -⟩ := hflat (i % 2 ^ 16) (Nat.lt_of_le_of_lt (Nat.mod_le _ _) hi)
  refine ⟨(range c.arity).map (fun j => a.links.getD j ⟨0, 0, false⟩), ?_, by simp⟩
  rw [map_map]
  apply Netlist.mapM_eq_some
  intro j hj
  have hj' : j < InPlaceLinks := Nat.lt_of_lt_of_le (mem_range.mp hj) hc
  rw [readLink, ha, bind_eq_bind, bind_some, if_pos hj', Function.comp_apply,
    getD_eq_getElem?_getD]
  cases a.links[j]? <;> rfl

private theorem buildCellsLoop_wide (hS : S.WellFormed) (hflat : Flat S) :
    ∀ {n i : ℕ} {s : SubnetBuilder} {map : IdxToLink} {mid : List EntryID}, Grown s ins mid outs →
    (∀ j, s.ValidLinks [map j]) →
      S.nIn ≤ i → S.size ≤ n + i →
      ∃ s' map' mid', buildCellsLoop S n i s map = some (s', map') ∧ Grown s' ins mid' outs ∧
        s.netlist.Le s'.netlist ∧ (∀ j, s'.ValidLinks [map' j]) ∧ ∀ j, 2 ^ 16 ≤ j →
        map' j = map j := by
  intro n
  induction n with
  | zero =>
    intro i s map mid h hv _ hn
    have hi : ¬ i < S.size := Nat.not_lt.mpr (by omega)
    exact ⟨s, map, mid, by rw [buildCellsLoop, if_neg hi], h, .refl _, hv, fun _ _ => rfl⟩
  | succ n ih =>
    intro i s map mid h hv hin hn
    by_cases hi : i < S.size
    · obtain ⟨c, hc, hlen⟩ := hflat i hi
      have hmore : c.more = 0 := by
        simp only [SubnetCell.more, SubnetCell.arity, InPlaceLinks, InEntryLinks] at hlen ⊢
        omega
      have hmod : i % 2 ^ 16 < 2 ^ 16 := Nat.mod_lt _ (by decide)
      obtain ⟨links, hread, hlinks⟩ := exists_readLinks hflat hi hlen map
      have hvalid := newLink_mapValid hv links
      have hstep : ∃ s₁ mid₁ l, buildCell c i (readLink S) s map =
          some (s₁, Function.update map (i % 2 ^ 16) l) ∧ Grown s₁ ins mid₁ outs ∧
            s.netlist.Le s₁.netlist ∧ s₁.ValidLinks [l] := by
        by_cases hout : c.type = .OUT
        · obtain ⟨l, rfl⟩ := length_eq_one_iff.mp (hlinks.trans (hS.outLink i c hc hout))
          have hisOut : c.isOut = true := by simp [SubnetCell.isOut, hout]
          refine ⟨s, mid, newLink map l, ?_, h, .refl _, hvalid⟩
          rw [buildCell, hread]
          simp [hisOut]
        · have htin : c.type ≠ .IN :=
            fun ht => absurd ((hS.input i c hc).mp ht) (Nat.not_lt.mpr hin)
          have hisOut : c.isOut = false := by simp [SubnetCell.isOut, hout]
          obtain ⟨s₁, idx, mid₁, hadd, h₁, hgate⟩ := h.addGate hvalid (hS.positive i c hc) htin hout
          obtain ⟨ls, hls, -⟩ := hgate.here
          refine ⟨s₁, mid₁, ⟨idx, 0, false⟩, ?_, h₁, hgate.le,
            validLinks_of_netlist (fun l hl => ?_)⟩
          · rw [buildCell, hread]
            simp [hisOut, hadd]
          · obtain rfl := mem_singleton.mp hl
            exact ⟨_, hls, hout⟩
      obtain ⟨s₁, mid₁, l, hbuild, h₁, hle₁, hl⟩ := hstep
      have hv₁ : ∀ j, s₁.ValidLinks [Function.update map (i % 2 ^ 16) l j] := by
        intro j
        by_cases hj : j = i % 2 ^ 16
        · rw [hj, Function.update_self]
          exact hl
        · rw [Function.update_of_ne hj]
          exact (hv j).mono hle₁
      obtain ⟨s', map', mid', hrun, h', hle, hv', hrest⟩ :=
        ih h₁ hv₁ (by omega : S.nIn ≤ i + c.more + 1)
        (by omega)
      refine ⟨s', map', mid', ?_, h', hle₁.trans hle, hv', fun j hj => ?_⟩
      · rw [buildCellsLoop, if_pos hi, hc]
        simp only [bind_eq_bind, bind_some, hbuild, hrun]
      · rw [hrest j hj, Function.update_of_ne (Nat.ne_of_gt (Nat.lt_of_lt_of_le hmod hj))]
    · exact ⟨s, map, mid, by rw [buildCellsLoop, if_neg hi], h, .refl _, hv, fun _ _ => rfl⟩

/-- Where all outputs have larger indices, the miter compares default links: its output is 0,
whatever the subnets compute. -/
theorem makeMiter_wide (h₁ : S₁.WellFormed) (h₂ : S₂.WellFormed) (hflat₁ : Flat S₁)
    (hflat₂ : Flat S₂) (hnIn : S₂.nIn = S₁.nIn) (hnOut : S₂.nOut = S₁.nOut)
    (hmapping : ValidMapping S₁ S₂ mapping) (hpos : 0 < S₁.nIn) (hin : S₁.nIn ≤ 2 ^ 16)
    (hout : S₁.nOut < 2 ^ 16) (hsize₁ : 2 ^ 16 ≤ S₁.size - S₁.nOut)
    (hsize₂ : 2 ^ 16 ≤ S₂.size - S₂.nOut) : ∃ s mid o, makeMiter (.ofSubnet S₁)
    (.ofSubnet S₂) mapping = some s ∧
      Grown s (range S₁.nIn) mid [o] ∧ ∀ lib x σ, s.netlist.Solves lib x σ →
      σ o 0 = false := by
  choose! m hm hmout using hmapping.outputs
  obtain ⟨s₀, map1₀, map2₀, hinputs, hmade⟩ := exists_inputs (n := S₁.nIn)
    (fun i hi => (hmapping.inputs i hi).imp (fun j hj => hj.2))
  have hinput : ∀ i < S₁.nIn, s₀.ValidLinks [⟨i, 0, false⟩] := by
    intro i hi
    apply validLinks_of_netlist
    intro l hl
    obtain rfl := mem_singleton.mp hl
    exact ⟨_, hmade.input i hi, by simp⟩
  have hv₁ : ∀ j, s₀.ValidLinks [map1₀ j] := by
    intro j
    rcases Nat.lt_or_ge j S₁.nIn with hj | hj
    · rw [hmade.first j hj]
      exact hinput j hj
    · rw [hmade.firstRest j hj]
      exact hinput 0 hpos
  have hv₂ : ∀ j, s₀.ValidLinks [map2₀ j] := by
    intro j
    by_cases hj : ∃ i < S₁.nIn, mapping i = some j
    · obtain ⟨i, hi, hij⟩ := hj
      obtain ⟨i', hi', -, hmap⟩ := hmade.second i hi j hij
      rw [hmap]
      exact hinput i' hi'
    · rw [hmade.secondRest j (fun i hi hij => hj ⟨i, hi, hij⟩)]
      exact hinput 0 hpos
  obtain ⟨s₁, map1, mid₁, hbuild₁, hgrown₁, hle₁, hvalid₁, hrest₁⟩ := buildCellsLoop_wide h₁ hflat₁
    hmade.grown hv₁ (Nat.le_refl S₁.nIn) (Nat.le_add_right _ _)
  obtain ⟨s₂, map2, mid₂, hbuild₂, hgrown₂, hle₂, hvalid₂, hrest₂⟩ := buildCellsLoop_wide h₂ hflat₂
    hgrown₁ (fun j => (hv₂ j).mono hle₁) (Nat.le_refl S₂.nIn) (Nat.le_add_right _ _)
  have hidx : ∀ k, S₁.size + k - S₁.nOut = S₁.getOutIdx k := by
    intro k
    rw [Subnet.getOutIdx]
    omega
  obtain ⟨s₃, ls, mid₃, hxors, hgrown₃, hle₃, hls, hvals⟩ :=
    @makeXors_eq _ _ mapping map1 map2 S₁.size
    S₁.nOut (fun k => S₂.getOutIdx (m k)) (range S₁.nOut) s₂ mid₂ hgrown₂ (fun k hk => by
      rw [hidx]
      exact ⟨hmout k (mem_range.mp hk),
        validLinks_cons.mpr ⟨(hvalid₁ _).mono hle₂, hvalid₂ _⟩⟩)
  obtain ⟨s, mid, o, houtputs, hgrown, hle, hval⟩ := makeMiterOutputs_eq hgrown₃ hls
  refine ⟨s, mid, o, ?_, hgrown, fun lib x σ hσ => ?_⟩
  · have hrun₁ : (Source.ofSubnet S₁).buildCells s₀ map1₀ = some (s₁, map1) := hbuild₁
    have hrun₂ : (Source.ofSubnet S₂).buildCells s₁ map2₀ = some (s₂, map2) := hbuild₂
    have hxors' : makeXors (Source.ofSubnet S₁).size S₁.nOut mapping map1 map2 (range S₁.nOut)
        s₂ = some (s₃, ls) := hxors
    have hinputs' : makeInputs mapping (Source.ofSubnet S₁).nIn 0 {} emptyMap emptyMap =
        some (s₀, map1₀, map2₀) := hinputs
    have hmod : (Source.ofSubnet S₁).nOut % 2 ^ 16 = S₁.nOut := Nat.mod_eq_of_lt hout
    rw [makeMiter, makeNoOutMiter, if_pos ⟨hnIn, hnOut⟩]
    simp only [bind_eq_bind, bind_some, hinputs', hrun₁, hrun₂, hmod,
      hxors', houtputs]
  · have hfalse : ∀ k ∈ range S₁.nOut,
        xor ((map1 (S₁.size + k - S₁.nOut)).value σ) ((map2 (S₂.getOutIdx (m k))).value σ) =
        false := by
      intro k hk
      have hd₁ : map1 (S₁.size + k - S₁.nOut) = ⟨0, 0, false⟩ := by
        have hle : 2 ^ 16 ≤ S₁.size + k - S₁.nOut := by omega
        rw [hrest₁ _ hle, hmade.firstRest _ (Nat.le_trans hin hle)]
      have hd₂ : map2 (S₂.getOutIdx (m k)) = ⟨0, 0, false⟩ := by
        have hle : S₂.size - S₂.nOut ≤ S₂.getOutIdx (m k) := Nat.le_add_right _ _
        rw [hrest₂ _ (Nat.le_trans hsize₂ hle), hmade.secondRest]
        intro i hi hij
        obtain ⟨j, hj, hij'⟩ := hmapping.inputs i hi
        obtain rfl : j = S₂.getOutIdx (m k) := some.inj (hij'.symm.trans hij)
        exact absurd (Nat.lt_of_lt_of_le hj (hnIn ▸ hin)) (Nat.not_lt.mpr (Nat.le_trans hsize₂ hle))
      rw [hd₁, hd₂, Bool.xor_self]
    rw [hval lib x σ hσ, hvals lib x σ (Solves.mono hσ hle), map_congr_left hfalse]
    simp

/-- A chain of `AND` cells behind one input; the output may be inverted. -/
def chainCell (n : ℕ) (inv : Bool) (i : ℕ) : SubnetCell :=
  if i = 0 then ⟨.IN, [], n + 1⟩
  else if i ≤ n then ⟨.AND, [⟨i - 1, 0, false⟩, ⟨0, 0, false⟩], 1⟩
  else ⟨.OUT, [⟨i - 1, 0, inv⟩], 0⟩

def chain (n : ℕ) (inv : Bool) : Subnet :=
  ⟨1, 1, n + 2, 0, (range (n + 2)).map (fun i => .cell (chainCell n inv i))⟩

variable {n : ℕ} {inv : Bool}

private theorem chain_size : (chain n inv).size = n + 2 := by
  rw [Subnet.size, chain, length_map, length_range]

private theorem chain_getCell (inv : Bool) (hi : i < n + 2) :
    (chain n inv).getCell i = some (chainCell n inv i) := by
  rw [Subnet.getCell, chain, getElem?_map, getElem?_range hi]
  rfl

private theorem chain_cases (h : (chain n inv).getCell i = some c) :
    (i = 0 ∧ c = ⟨.IN, [], n + 1⟩) ∨
    (0 < i ∧ i < n + 1 ∧ c = ⟨.AND, [⟨i - 1, 0, false⟩, ⟨0, 0, false⟩], 1⟩) ∨
    (i = n + 1 ∧ c = ⟨.OUT, [⟨i - 1, 0, inv⟩], 0⟩) := by
  have hi : i < n + 2 := by
    have hlt := Subnet.lt_of_getCell h
    rwa [chain_size] at hlt
  rw [chain_getCell inv hi] at h
  obtain rfl := some.inj h
  unfold chainCell
  rcases Nat.eq_zero_or_pos i with rfl | hpos
  · exact .inl ⟨rfl, rfl⟩
  · rw [if_neg (Nat.ne_of_gt hpos)]
    rcases Nat.lt_or_ge i (n + 1) with hlt | hge
    · rw [if_pos (Nat.le_of_lt_succ hlt)]
      exact .inr (.inl ⟨hpos, hlt, rfl⟩)
    · rw [if_neg (Nat.not_le.mpr hge)]
      exact .inr (.inr ⟨Nat.le_antisymm (Nat.le_of_lt_succ hi) hge, rfl⟩)

private theorem chain_target {j : EntryID} (hj : j < n + 1) :
    ∃ c, (chain n inv).getCell j = some c ∧ c.type ≠ .OUT := by
  have hc := chain_getCell inv (Nat.lt_succ_of_lt hj)
  refine ⟨_, hc, ?_⟩
  rcases chain_cases hc with ⟨-, he⟩ | ⟨-, -, he⟩ | ⟨he, -⟩
  · simp [he]
  · simp [he]
  · exact absurd he (Nat.ne_of_lt hj)

private theorem chain_wellFormed (n : ℕ) (inv : Bool) : (chain n inv).WellFormed := by
  have hsub : (chain n inv).size - (chain n inv).nOut = n + 1 := by
    rw [chain_size]
    rfl
  refine ⟨fun i c hc => ?_, fun i c hc ht => ?_, fun i c hc => ?_, fun i c hc ht => ?_, ?_,
    fun i _ hi => ?_, fun i c hc l hl => ?_, fun i c hc l hl c' hc' => ?_, fun i c hc => ?_⟩
  · have hone : (chain n inv).nIn = 1 := rfl
    rw [hone]
    rcases chain_cases hc with ⟨rfl, rfl⟩ | ⟨hpos, -, rfl⟩ | ⟨rfl, rfl⟩
    · simp
    · exact iff_of_false (by simp) (Nat.not_lt.mpr hpos)
    · exact iff_of_false (by simp) (by simp)
  · rcases chain_cases hc with ⟨rfl, rfl⟩ | ⟨hpos, -, rfl⟩ | ⟨rfl, rfl⟩
    · rfl
    · cases ht
    · cases ht
  · rw [hsub]
    rcases chain_cases hc with ⟨rfl, rfl⟩ | ⟨-, hlt, rfl⟩ | ⟨rfl, rfl⟩
    · exact iff_of_false (by simp) (by simp)
    · exact iff_of_false (by simp) (Nat.not_le.mpr hlt)
    · exact iff_of_true rfl (Nat.le_refl _)
  · rcases chain_cases hc with ⟨rfl, rfl⟩ | ⟨-, -, rfl⟩ | ⟨rfl, rfl⟩
    · cases ht
    · cases ht
    · rfl
  · rw [chain_size]
    exact Nat.le_add_left 2 n
  · rw [chain_size] at hi
    rw [chain_getCell inv hi]
    rfl
  · rcases chain_cases hc with ⟨rfl, rfl⟩ | ⟨hpos, hlt, rfl⟩ | ⟨rfl, rfl⟩
    · cases hl
    · simp only [mem_cons, not_mem_nil, or_false] at hl
      rcases hl with rfl | rfl
      · exact ⟨Nat.sub_lt hpos Nat.one_pos, chain_target (Nat.lt_of_le_of_lt (Nat.sub_le _ _) hlt)⟩
      · exact ⟨hpos, chain_target (Nat.succ_pos n)⟩
    · obtain rfl := mem_singleton.mp hl
      exact ⟨Nat.lt_succ_self n, chain_target (Nat.lt_succ_self n)⟩
  · refine .inl ?_
    rcases chain_cases hc with ⟨rfl, rfl⟩ | ⟨-, -, rfl⟩ | ⟨rfl, rfl⟩
    · cases hl
    · simp only [mem_cons, not_mem_nil, or_false] at hl
      rcases hl with rfl | rfl <;> rfl
    · obtain rfl := mem_singleton.mp hl
      rfl
  · rcases chain_cases hc with ⟨-, rfl⟩ | ⟨-, -, rfl⟩ | ⟨-, rfl⟩ <;> rfl

private theorem chain_flat : Flat (chain n inv) := by
  intro i hi
  rw [chain_size] at hi
  refine ⟨_, chain_getCell inv hi, ?_⟩
  rcases chain_cases (chain_getCell inv hi) with ⟨-, he⟩ | ⟨-, -, he⟩ | ⟨-, he⟩ <;>
    simp [he, InPlaceLinks]

private theorem arranged_of_flat (hS : S.WellFormed) (h : Flat S) : S.Arranged := by
  have hmore : ∀ i c, S.getCell i = some c → c.more = 0 := by
    intro i c hc
    obtain ⟨c', hc', hlen⟩ := h i (Subnet.lt_of_getCell hc)
    obtain rfl := some.inj (hc.symm.trans hc')
    simp only [SubnetCell.more, SubnetCell.arity, InPlaceLinks, InEntryLinks] at hlen ⊢
    omega
  refine ⟨hS, fun hpos => ?_, fun i c hc => ?_, fun i c hc k hk hle => ?_, fun i c hc hlt => ?_⟩
  · obtain ⟨c, hc, -⟩ := h 0 hpos
    rw [hc]
    rfl
  · rw [hmore i c hc]
    exact Subnet.lt_of_getCell hc
  · rw [hmore i c hc] at hle
    exact absurd hk (Nat.not_lt.mpr hle)
  · obtain ⟨c', hc', -⟩ := h _ hlt
    rw [hc']
    rfl

private theorem chain_value (x : EntryID → Bool) : ∀ i < n + 1, ∀ out,
    (chain n inv).value CellLibrary.empty x i out = some (x 0) := by
  intro i
  induction i using Nat.strong_induction_on with
  | _ i ih =>
    intro hi out
    have hc := chain_getCell inv (Nat.lt_succ_of_lt hi)
    have hwf := chain_wellFormed n inv
    obtain ⟨ρ, hρ⟩ : ∃ ρ : EntryID → ℕ → Bool, ρ = fun _ _ => x 0 := ⟨_, rfl⟩
    have hlinks : ∀ l ∈ (chainCell n inv i).links,
        (chain n inv).value CellLibrary.empty x l.idx l.out = some (ρ l.idx l.out) := by
      intro l hl
      rw [hρ]
      obtain ⟨hlt, -⟩ := hwf.links i _ hc l hl
      exact ih l.idx hlt (Nat.lt_trans hlt hi) l.out
    rw [hwf.value_of_links hc hlinks]
    rcases chain_cases hc with ⟨rfl, he⟩ | ⟨-, -, he⟩ | ⟨he, -⟩
    · rw [he, if_pos rfl]
    · rw [he, if_neg (by simp), hρ]
      simp [CellTypeID.eval, Link.value]
    · exact absurd he (Nat.ne_of_lt hi)

private theorem chain_output (x : EntryID → Bool) :
    (chain n inv).value CellLibrary.empty x ((chain n inv).getOutIdx 0) 0 =
    some (xor (x 0) inv) := by
  have hidx : (chain n inv).getOutIdx 0 = n + 1 := by
    rw [Subnet.getOutIdx, chain_size]
    rfl
  have hc := chain_getCell inv (Nat.lt_succ_self (n + 1))
  have hwf := chain_wellFormed n inv
  obtain ⟨ρ, hρ⟩ : ∃ ρ : EntryID → ℕ → Bool, ρ = fun _ _ => x 0 := ⟨_, rfl⟩
  have hlinks : ∀ l ∈ (chainCell n inv (n + 1)).links,
      (chain n inv).value CellLibrary.empty x l.idx l.out = some (ρ l.idx l.out) := by
    intro l hl
    rw [hρ]
    obtain ⟨hlt, -⟩ := hwf.links _ _ hc l hl
    exact chain_value x l.idx hlt l.out
  rw [hidx, hwf.value_of_links hc hlinks]
  rcases chain_cases hc with ⟨he, -⟩ | ⟨-, he, -⟩ | ⟨-, he⟩
  · cases he
  · exact absurd he (Nat.lt_irrefl _)
  · rw [he, if_neg (by simp), hρ]
    rfl

private theorem chain_getOutIdx (k : ℕ) : (chain n inv).getOutIdx k = n + 1 + k := by
  rw [Subnet.getOutIdx, chain_size]
  rfl

private theorem chain_mapping : ValidMapping (chain n false) (chain n true) some := by
  refine ⟨fun i hi => ⟨i, hi, rfl⟩, fun i hi => ⟨i, hi, rfl⟩, fun k hk => ⟨k, hk, ?_⟩⟩
  rw [chain_getOutIdx, chain_getOutIdx]

/-- Short chains have an exact miter. -/
theorem makeMiter_exact_chain :
    Exact (chain 2 false) (chain 2 true) some (makeMiter (.ofSubnet (chain 2 false))
    (.ofSubnet (chain 2 true)) some) :=
  makeMiter_exact (arranged_of_flat (chain_wellFormed 2 false) chain_flat)
    (arranged_of_flat (chain_wellFormed 2 true) chain_flat) rfl rfl chain_mapping
    (by rw [chain_size]; decide) (by rw [chain_size]; decide)

/-- Two chains of `2 ^ 16` cells whose outputs are the input and its complement differ everywhere,
but their miter is 0. -/
theorem not_makeMiter_exact : ¬ ∀ S₁ S₂ mapping, S₁.Arranged → S₂.Arranged → S₂.nIn = S₁.nIn →
    S₂.nOut = S₁.nOut → ValidMapping S₁ S₂ mapping →
      Exact S₁ S₂ mapping (makeMiter (.ofSubnet S₁) (.ofSubnet S₂) mapping) := by
  intro h
  obtain ⟨n, hn⟩ : ∃ n, n = 2 ^ 16 := ⟨_, rfl⟩
  have hwf := chain_wellFormed n
  have harr := fun inv => arranged_of_flat (hwf inv) chain_flat
  have hsize : ∀ inv, 2 ^ 16 ≤ (chain n inv).size - (chain n inv).nOut := by
    intro inv
    rw [chain_size, ← hn]
    exact Nat.le_succ n
  obtain ⟨s, mid, o, hrun, hgrown, hzero⟩ :=
    makeMiter_wide (hwf false) (hwf true) chain_flat chain_flat
    rfl rfl chain_mapping Nat.one_pos (by decide : 1 ≤ 2 ^ 16) (by decide : 1 < 2 ^ 16)
    (hsize false) (hsize true)
  obtain ⟨s', o', hrun', hlive, hout, -, hval⟩ :=
    h _ _ some (harr false) (harr true) rfl rfl chain_mapping
  obtain rfl : s = s' := some.inj (hrun.symm.trans hrun')
  obtain ⟨g, hg⟩ := Option.isSome_iff_exists.mp hlive
  obtain rfl : o' = o := mem_singleton.mp ((hgrown.output o' g hg).mp ((hout o' g hg).mpr rfl))
  obtain ⟨σ, hσ⟩ := hgrown.netOk.exists_solves CellLibrary.empty (fun _ => false)
  obtain ⟨b, hb, hiff⟩ := hval CellLibrary.empty (fun _ => false) (fun _ => false)
    (fun _ _ _ _ => rfl)
  rw [hgrown.netOk.value_eq hσ hlive 0, hzero _ _ σ hσ] at hb
  obtain rfl := some.inj hb
  refine Bool.false_ne_true (hiff.mpr ⟨0, Nat.one_pos, (chain n true).getOutIdx 0, ?_, ?_⟩)
  · rw [chain_getOutIdx, chain_getOutIdx]
  · rw [chain_output, chain_output]
    simp

end UtopiaEda.BaseChecker
