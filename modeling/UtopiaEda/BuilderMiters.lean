import UtopiaEda.MiterCorrectness
import UtopiaEda.ValidityChecks

/-!
# Miters of builders

The default mapping of two builders takes the first indices for the inputs and the last of
`getCellNum()` indices for the outputs. That is where the inputs and outputs of a subnet are, but
the indices of a builder are those of its entries, in the order of their allocation.
-/
namespace UtopiaEda
open List
open Option (bind_eq_bind bind_some isSome_iff_exists map_some some.inj)

namespace BaseChecker
open SubnetBuilder

/-- `mapInputs` and `makeDefaultMapping`; the number of the outputs is a `uint16_t`. -/
def makeDefaultMapping (source1 source2 : Source) : CellToCell :=
  let nOut := source1.nOut % 2 ^ 16
  (range nOut).foldl (fun mapping i => Function.update mapping (source1.size + i - nOut)
      (some (source2.size + i - nOut)))
    ((range source1.nIn).foldl (fun mapping i => Function.update mapping i (some i))
      (fun _ => none))

/-- The miter of builders has one output, which is 1 exactly when the outputs with some number
differ; `y₁` and `y₂` give the inputs with the number `i` the value `x i`. -/
def ExactBuilders (builder1 builder2 : SubnetBuilder) (result : Option SubnetBuilder) : Prop :=
  ∃ miter o, result = some miter ∧ (miter.netlist o).isSome ∧
    (∀ i g, miter.netlist i = some g → (g.type = .OUT ↔ i = o)) ∧
    (∀ i g, miter.netlist i = some g → (g.type = .IN ↔ i < builder1.nIn)) ∧
    ∀ lib x y₁ y₂, (∀ (i : ℕ) j, builder1.inputIDs[i]? = some j → y₁ j = x i) →
      (∀ (i : ℕ) j, builder2.inputIDs[i]? = some j → y₂ j = x i) →
      ∃ b, miter.value lib x o 0 = some b ∧ (b = true ↔ ∃ (k : ℕ) (j₁ j₂ : EntryID),
        builder1.outputIDs[k]? = some j₁ ∧ builder2.outputIDs[k]? = some j₂ ∧
          builder1.value lib y₁ j₁ 0 ≠ builder2.value lib y₂ j₂ 0)

/-- What the miter needs of a builder: the cells are visited behind the cells they link to, links
and arities are those of a network, `getLink` reads the links, and the indices are those of the
default mapping and fit into 16 bits. -/
structure Comparable (s : SubnetBuilder) : Prop where
  cells : ∃ l, s.cellIDs = some l ∧ (∀ i, i ∈ l ↔ (s.netlist i).isSome) ∧
    ∀ A i B, l = A ++ i :: B → ∀ j, s.netlist.Fanin i j → j ∈ A
  links : ∀ i g, s.netlist i = some g → (g.type = .OUT → g.links.length = 1) ∧
    g.type.isNegative = false ∧ ∀ l ∈ g.links, ∃ g', s.netlist l.idx = some g' ∧ g'.type ≠ .OUT
  read : s.LinksRead
  small : ∀ i, (s.netlist i).isSome → i < 2 ^ 16
  enough : s.nIn + s.nOut ≤ s.nCell
  inputs : s.inputIDs = range s.nIn
  outputs : s.outputIDs = (range s.nOut).map (fun k => s.nCell - s.nOut + k)

variable {s b₁ b₂ : SubnetBuilder} {i : EntryID} {g : Gate}

private theorem foldl_update {f : ℕ → EntryID} {v : ℕ → Option EntryID}
    (hf : Function.Injective f) : ∀ (n : ℕ) (m : CellToCell),
      (∀ k < n, (range n).foldl (fun m i => Function.update m (f i) (v i)) m (f k) = v k) ∧
      ∀ j, (∀ k < n, j ≠ f k) →
      (range n).foldl (fun m i => Function.update m (f i) (v i)) m j = m j := by
  intro n
  induction n with
  | zero => exact fun m => ⟨fun k hk => absurd hk (Nat.not_lt_zero k), fun j _ => rfl⟩
  | succ n ih =>
    intro m
    obtain ⟨hset, hrest⟩ := ih m
    rw [range_succ, foldl_append, foldl_cons, foldl_nil]
    refine ⟨fun k hk => ?_, fun j hj => ?_⟩
    · rcases Nat.lt_succ_iff_lt_or_eq.mp hk with hk | rfl
      · rw [Function.update_of_ne (fun he => Nat.ne_of_lt hk (hf he)), hset k hk]
      · rw [Function.update_self]
    · rw [Function.update_of_ne (hj n (Nat.lt_succ_self n)),
        hrest j (fun k hk => hj k (Nat.lt_succ_of_lt hk))]

private theorem mem_ids (h : Comparable s) {t : CellTypeID} :
    i ∈ (s.cellIDs.getD []).filter (fun i => s.getTypeID i = t) ↔
      ∃ g, s.netlist i = some g ∧ g.type = t := by
  obtain ⟨l, hl, hmem, -⟩ := h.cells
  rw [hl, Option.getD_some, mem_filter, hmem, decide_eq_true_eq, isSome_iff_exists]
  constructor
  · rintro ⟨⟨g, hg⟩, ht⟩
    obtain ⟨c, hc, hct, -⟩ := liveCell_of_netlist hg
    rw [getTypeID_of_live hc, hct] at ht
    exact ⟨g, hg, ht⟩
  · rintro ⟨g, hg, ht⟩
    obtain ⟨c, hc, hct, -⟩ := liveCell_of_netlist hg
    exact ⟨⟨g, hg⟩, by rw [getTypeID_of_live hc, hct, ht]⟩

private theorem input_iff (h : Comparable s) (hg : s.netlist i = some g) :
    g.type = .IN ↔ i < s.nIn := by
  rw [← mem_range, ← h.inputs, inputIDs, mem_ids h]
  refine ⟨fun ht => ⟨g, hg, ht⟩, ?_⟩
  rintro ⟨g', hg', ht⟩
  rw [hg] at hg'
  rw [some.inj hg', ht]

private theorem live_output (h : Comparable s) {k : ℕ} (hk : k < s.nOut) :
    ∃ g, s.netlist (s.nCell - s.nOut + k) = some g ∧ g.type = .OUT := by
  rw [← mem_ids h, ← outputIDs, h.outputs]
  exact mem_map.mpr ⟨k, mem_range.mpr hk, rfl⟩

private theorem exists_values (h : Comparable s) (lib : CellLibrary) (x : EntryID → Bool) :
    ∃ ρ, s.netlist.Solves lib x ρ ∧ ∀ i, (s.netlist i).isSome → ∀ out, s.value lib x i out =
    some (ρ i out) := by
  obtain ⟨l, -, hmem, hbefore⟩ := h.cells
  have hacyclic : s.netlist.Acyclic := by
    apply AcyclicSystems.exists_rank_of_list (l := l) (fun i j hij => ?_) hbefore
    obtain ⟨g, hg, -⟩ := hij
    exact (hmem i).mpr (by rw [hg]; rfl)
  have hclosed : s.netlist.Closed := by
    rintro i j ⟨g, hg, l, hl, rfl⟩
    obtain ⟨g', hg', -⟩ := (h.links i g hg).2.2 l hl
    rw [hg']
    rfl
  obtain ⟨ρ, hρ⟩ := hacyclic.exists_solves lib x
  refine ⟨ρ, hρ, fun i hi out => Netlist.value_eq hacyclic hclosed (fun j hj => ?_) hρ hi out⟩
  obtain ⟨g, hg⟩ := isSome_iff_exists.mp hj
  exact lt_of_netlist hg

private theorem buildCellsOf_eq (h : Comparable s) {R : (EntryID → Bool) → (EntryID → Bool) → Prop}
    {l : List EntryID} (hmem : ∀ i, i ∈ l → (s.netlist i).isSome)
    (hbefore : ∀ A i B, l = A ++ i :: B → ∀ j, s.netlist.Fanin i j → j ∈ A)
    {ins outs : List EntryID} : ∀ {B A : List EntryID} {m : SubnetBuilder} {map : IdxToLink}
      {mid : List EntryID}, l = A ++ B → Grown m ins mid outs →
      (∀ i g, s.netlist i = some g → g.type = .IN ∨ i ∈ A → Carries s.netlist R m map i g) →
      ∃ m' map' mid', buildCellsOf s B m map = some (m', map') ∧ Grown m' ins mid' outs ∧
        m.netlist.Le m'.netlist ∧
        ∀ i g, s.netlist i = some g → g.type = .IN ∨ i ∈ l → Carries s.netlist R m' map' i g := by
  intro B
  induction B with
  | nil =>
    intro A m map mid hl hm hcarry
    rw [append_nil] at hl
    exact ⟨m, map, mid, rfl, hm, .refl _, hl ▸ hcarry⟩
  | cons i B ih =>
    intro A m map mid hl hm hcarry
    have hl' : l = (A ++ [i]) ++ B := by rw [hl, append_assoc]; rfl
    obtain ⟨g, hg⟩ := isSome_iff_exists.mp (hmem i (by rw [hl]; simp))
    obtain ⟨c, hc, ht, hcl⟩ := liveCell_of_netlist hg
    have hcell := getCell_of_live hc
    by_cases hin : g.type = .IN
    · have hisIn : c.isIn = true := by simp [SubnetCell.isIn, ht, hin]
      obtain ⟨m', map', mid', hrun, hrest⟩ := ih hl' hm (fun j g' hg' hj => by
        rcases hj with hj | hj
        · exact hcarry j g' hg' (.inl hj)
        · rcases mem_append.mp hj with hj | hj
          · exact hcarry j g' hg' (.inr hj)
          · obtain rfl := mem_singleton.mp hj
            rw [hg] at hg'
            exact hcarry j g' (hg.trans hg') (.inl (some.inj hg' ▸ hin)))
      refine ⟨m', map', mid', ?_, hrest⟩
      rw [buildCellsOf, hcell]
      simp only [bind_eq_bind, bind_some, hisIn, if_true, hrun]
    · have hisIn : c.isIn = false := by simp [SubnetCell.isIn, ht, hin]
      have hgate : s.netlist i = some ⟨c.type, c.links⟩ := by rw [ht, hcl, hg]
      obtain ⟨hone, hneg, hlinks⟩ := h.links i _ hgate
      have hlinked : Linked s.netlist R m map c.links := by
        intro l' hl''
        obtain ⟨g', hg', hne⟩ := hlinks l' hl''
        exact ⟨g', hne, hcarry _ g' hg' (.inr (hbefore A i B hl _ ⟨_, hgate, l', hl'', rfl⟩))⟩
      obtain ⟨m₁, map₁, mid₁, hbuild, hm₁, hbuilt, hcarry₁⟩ := buildCell_carries hm
        (h.small i (by rw [hg]; rfl)) hgate
        (fun j hj => h.read i c hc j hj) hneg (ht ▸ hin) hone hlinked
      obtain ⟨m', map', mid', hrun, hm', hle, hdone⟩ := ih hl' hm₁ (fun j g' hg' hj => by
        by_cases hji : j = i
        · subst hji
          rw [hgate] at hg'
          rw [← some.inj hg']
          exact hcarry₁
        · have hj' : g'.type = .IN ∨ j ∈ A := hj.imp_right (fun hj =>
            (mem_append.mp hj).resolve_right (fun he => hji (mem_singleton.mp he)))
          exact (hcarry j g' hg' hj').mono hbuilt.le (hbuilt.other j hji))
      refine ⟨m', map', mid', ?_, hm', hbuilt.le.trans hle, hdone⟩
      rw [buildCellsOf, hcell]
      simp only [bind_eq_bind, bind_some, hisIn, Bool.false_eq_true, if_false]
      rw [hbuild, bind_some, hrun]

private theorem ofBuilder_copies (h : Comparable s) : (Source.ofBuilder s).Copies s.netlist := by
  obtain ⟨l, hl, hmem, hbefore⟩ := h.cells
  intro R m map ins mid outs hm hin
  obtain ⟨m', map', mid', hrun, hm', hle, hcarry⟩ := buildCellsOf_eq h (R := R)
    (fun i hi => (hmem i).mp hi) hbefore (nil_append l).symm hm (fun i g hg hi =>
      hin i g hg (hi.resolve_right (not_mem_nil)))
  refine ⟨m', map', mid', ?_, hm', hle,
    fun i g hg => hcarry i g hg (.inr ((hmem i).mpr (by rw [hg]; rfl)))⟩
  simp only [Source.ofBuilder, hl, bind_eq_bind, bind_some]
  exact hrun

private theorem live_nOut_lt (h : Comparable s) : s.nOut < 2 ^ 16 := by
  by_contra hle
  have henough := h.enough
  obtain ⟨g, hg, -⟩ := live_output h (k := s.nOut - 1) (by omega)
  have hsmall : s.nCell - s.nOut + (s.nOut - 1) < 2 ^ 16 := h.small _ (by rw [hg]; rfl)
  have hfirst : s.nCell - s.nOut = 0 := by omega
  obtain ⟨g₀, hg₀, ht₀⟩ := live_output h (k := 0) (by omega)
  rw [hfirst] at hg₀
  obtain ⟨l, hl⟩ := length_eq_one_iff.mp ((h.links _ g₀ hg₀).1 ht₀)
  obtain ⟨g₁, hg₁, ht₁⟩ := (h.links _ g₀ hg₀).2.2 l (by rw [hl]; exact mem_singleton_self l)
  have hlt := h.small l.idx (by rw [hg₁]; rfl)
  obtain ⟨g₂, hg₂, ht₂⟩ := live_output h (k := l.idx) (Nat.lt_of_lt_of_le hlt (Nat.not_lt.mp hle))
  rw [hfirst, Nat.zero_add, hg₁] at hg₂
  rw [some.inj hg₂] at ht₁
  exact ht₁ ht₂

theorem makeDefaultMapping_eq {source1 source2 : Source}
    (henough : source1.nIn + source1.nOut ≤ source1.size) (hwide : source1.nOut < 2 ^ 16) :
    (∀ i < source1.nIn, makeDefaultMapping source1 source2 i = some i) ∧
      ∀ k < source1.nOut, makeDefaultMapping source1 source2 (source1.size + k - source1.nOut) =
        some (source2.size + k - source1.nOut) := by
  have hinj : Function.Injective (fun k : ℕ => (source1.size + k - source1.nOut : EntryID)) := by
    intro k k' hk
    have hk' : source1.size + k - source1.nOut = source1.size + k' - source1.nOut := hk
    omega
  unfold makeDefaultMapping
  rw [Nat.mod_eq_of_lt hwide]
  constructor
  · intro i hi
    have hne : ∀ k < source1.nOut, i ≠ source1.size + k - source1.nOut := by
      intro k _
      omega
    refine ((foldl_update hinj source1.nOut _).2 i hne).trans ?_
    exact (foldl_update (f := id) (v := some) Function.injective_id source1.nIn _).1 i hi
  · intro k hk
    exact (foldl_update hinj source1.nOut _).1 k hk

private theorem defaultMapping_eq (h₁ : Comparable b₁) :
    (∀ i < b₁.nIn, makeDefaultMapping (.ofBuilder b₁) (.ofBuilder b₂) i = some i) ∧
    ∀ k < b₁.nOut, makeDefaultMapping (.ofBuilder b₁) (.ofBuilder b₂) (b₁.nCell + k - b₁.nOut) =
      some (b₂.nCell + k - b₁.nOut) :=
  @makeDefaultMapping_eq (.ofBuilder b₁) (.ofBuilder b₂) h₁.enough (live_nOut_lt h₁)

/-- The miter of comparable builders is exact. -/
theorem makeMiter_builders_exact (h₁ : Comparable b₁) (h₂ : Comparable b₂) (hnIn : b₂.nIn = b₁.nIn)
    (hnOut : b₂.nOut = b₁.nOut) : ExactBuilders b₁ b₂ (makeMiter (.ofBuilder b₁) (.ofBuilder b₂)
      (makeDefaultMapping (.ofBuilder b₁) (.ofBuilder b₂))) := by
  have henough₁ := h₁.enough
  have henough₂ := h₂.enough
  obtain ⟨hins, houts⟩ := @defaultMapping_eq b₁ b₂ h₁
  have hidx₁ : ∀ k, b₁.nCell + k - b₁.nOut = b₁.nCell - b₁.nOut + k := by
    intro k
    omega
  have hidx₂ : ∀ k, b₂.nCell + k - b₁.nOut = b₂.nCell - b₂.nOut + k := by
    intro k
    omega
  obtain ⟨s, mid, o, hrun, hgrown, hval⟩ := @makeMiter_eq
    (makeDefaultMapping (.ofBuilder b₁) (.ofBuilder b₂)) (.ofBuilder b₁) (.ofBuilder b₂) b₁.netlist
    b₂.netlist (fun k => b₂.nCell + k - b₁.nOut) hnIn hnOut (live_nOut_lt h₁) (ofBuilder_copies h₁)
    (ofBuilder_copies h₂) (fun i g hg hin => (input_iff h₁ hg).mp hin)
    (fun j g hg hin => by
      have hj : j < b₁.nIn := hnIn ▸ (input_iff h₂ hg).mp hin
      exact ⟨j, hj, hins j hj⟩)
    (fun i hi => ⟨i, hins i hi⟩)
    (fun k hk => by
      have hgate := live_output h₁ hk
      rwa [← hidx₁ k] at hgate)
    (fun k hk => ⟨houts k hk, by
      have hk₂ : k < b₂.nOut := lt_of_lt_of_eq hk hnOut.symm
      have hgate := live_output h₂ hk₂
      rwa [← hidx₂ k] at hgate⟩)
  have hlive : (s.netlist o).isSome := (hgrown.mem o).mp (by simp)
  refine ⟨s, o, hrun, hlive, fun i g hg => ?_, fun i g hg => ?_, fun lib x y₁ y₂ hy₁ hy₂ => ?_⟩
  · rw [hgrown.output i g hg, mem_singleton]
  · rw [hgrown.input i g hg, mem_range]
    rfl
  · have hx₁ : ∀ i < b₁.nIn, y₁ i = x i := fun i hi =>
      hy₁ i i (by rw [h₁.inputs, getElem?_range hi])
    have hx₂ : ∀ i < b₁.nIn, y₂ i = x i := fun i hi =>
      hy₂ i i (by rw [h₂.inputs, getElem?_range (hnIn ▸ hi)])
    obtain ⟨σ, hσ⟩ := hgrown.netOk.exists_solves lib x
    obtain ⟨ρ₁, hρ₁, hval₁⟩ := exists_values h₁ lib y₁
    obtain ⟨ρ₂, hρ₂, hval₂⟩ := exists_values h₂ lib y₂
    have hρ₁' : b₁.netlist.Solves lib x ρ₁ :=
      Netlist.Solves.congr_inputs (fun i g hg ht => hx₁ i ((input_iff h₁ hg).mp ht)) hρ₁
    refine ⟨σ o 0, hgrown.netOk.value_eq hσ hlive 0, ?_⟩
    have hany : σ o 0 = (range b₁.nOut).any (fun k =>
        xor (ρ₁ (b₁.nCell - b₁.nOut + k) 0) (ρ₂ (b₂.nCell - b₂.nOut + k) 0)) := by
      rw [hval lib x y₂ σ ρ₁ ρ₂ (fun i hi j hij => ?_) hσ hρ₁' hρ₂]
      · refine congrArg (range b₁.nOut).any (funext fun k => ?_)
        rw [← hidx₁, ← hidx₂]
        rfl
      · rw [hins i hi] at hij
        rw [← some.inj hij]
        exact hx₂ i hi
    have hids₁ : ∀ k j, b₁.outputIDs[k]? = some j ↔ k < b₁.nOut ∧ j = b₁.nCell - b₁.nOut + k := by
      intro k j
      rw [h₁.outputs, getElem?_map]
      rcases Nat.lt_or_ge k b₁.nOut with hk | hk
      · rw [getElem?_range hk, map_some, Option.some.injEq]
        exact ⟨fun he => ⟨hk, he.symm⟩, fun he => he.2.symm⟩
      · rw [getElem?_eq_none (by simpa using hk)]
        simp [Nat.not_lt.mpr hk]
    have hids₂ : ∀ k j, b₂.outputIDs[k]? = some j ↔ k < b₁.nOut ∧ j = b₂.nCell - b₂.nOut + k := by
      intro k j
      rw [h₂.outputs, getElem?_map, hnOut]
      rcases Nat.lt_or_ge k b₁.nOut with hk | hk
      · rw [getElem?_range hk, map_some, Option.some.injEq]
        exact ⟨fun he => ⟨hk, he.symm⟩, fun he => he.2.symm⟩
      · rw [getElem?_eq_none (by simpa using hk)]
        simp [Nat.not_lt.mpr hk]
    have hpair : ∀ k < b₁.nOut,
        b₁.value lib y₁ (b₁.nCell - b₁.nOut + k) 0 = some (ρ₁ (b₁.nCell - b₁.nOut + k) 0) ∧
        b₂.value lib y₂ (b₂.nCell - b₂.nOut + k) 0 = some (ρ₂ (b₂.nCell - b₂.nOut + k) 0) := by
      intro k hk
      obtain ⟨g₁, hg₁, -⟩ := live_output h₁ hk
      obtain ⟨g₂, hg₂, -⟩ := live_output h₂ (lt_of_lt_of_eq hk hnOut.symm)
      exact ⟨hval₁ _ (by rw [hg₁]; rfl) 0, hval₂ _ (by rw [hg₂]; rfl) 0⟩
    rw [hany, any_eq_true]
    constructor
    · rintro ⟨k, hk, hne⟩
      have hk := mem_range.mp hk
      refine ⟨k, _, _, (hids₁ k _).mpr ⟨hk, rfl⟩, (hids₂ k _).mpr ⟨hk, rfl⟩, ?_⟩
      rw [(hpair k hk).1, (hpair k hk).2]
      rw [bne_iff_ne] at hne
      simpa using hne
    · rintro ⟨k, j₁, j₂, hj₁, hj₂, hne⟩
      obtain ⟨hk, rfl⟩ := (hids₁ k j₁).mp hj₁
      obtain ⟨-, rfl⟩ := (hids₂ k j₂).mp hj₂
      rw [(hpair k hk).1, (hpair k hk).2] at hne
      refine ⟨k, mem_range.mpr hk, ?_⟩
      rw [bne_iff_ne]
      simpa using hne

/-- A builder that was filled with its inputs first, then with cells of one entry and with its
outputs at last has the indices of the default mapping. -/
theorem comparable_of_grown {mid : List EntryID}
    (h : Grown s (range s.nIn) mid ((range s.nOut).map (fun k => s.nCell - s.nOut + k)))
    (hneg : ∀ i g, s.netlist i = some g → g.type.isNegative = false) (hpos : 0 < s.nIn)
    (henough : s.nIn + s.nOut ≤ s.nCell) (hsize : s.size ≤ 2 ^ 16) : Comparable s := by
  have hne : range s.nIn ++ mid ++ (range s.nOut).map (fun k => s.nCell - s.nOut + k) ≠
      [] :=
    ne_nil_of_mem (a := 0) (by simp [hpos])
  have hcells := h.cellIDs hne
  refine ⟨⟨_, hcells, h.mem, fun A i B hl j hij => h.fanin_before hl hij⟩, fun i g hg =>
    ⟨h.outLink i g hg, hneg i g hg, fun l hl => ?_⟩, fun i c hc j hj => ?_, fun i hi => ?_, henough,
      h.inputIDs_eq,
    h.outputIDs_eq⟩
  · obtain ⟨g', hg', ht⟩ := h.net.closed ⟨g, hg, l, hl, rfl⟩
    exact ⟨g', hg', ht⟩
  · exact h.getLink hc hj
  · obtain ⟨g, hg⟩ := isSome_iff_exists.mp hi
    exact Nat.lt_of_lt_of_le (lt_of_netlist hg) hsize

private theorem comparable_of_check (hnarrow : s.isNarrow = true)
    (hcells : s.cellIDs = some (range s.size)) (hgates : ∀ i < s.size,
    ((s.netlist i).any fun g => decide (g.type = .OUT → g.links.length = 1) &&
      !g.type.isNegative && s.checkLinks g.links && g.links.all fun l => decide (l.idx < i)) = true)
    (hsize : s.size ≤ 2 ^ 16) (henough : s.nIn + s.nOut ≤ s.nCell)
    (hin : s.inputIDs = range s.nIn) (hout : s.outputIDs =
    (range s.nOut).map (fun k => s.nCell - s.nOut + k)) : Comparable s := by
  have hgate : ∀ i g, s.netlist i = some g → (g.type = .OUT → g.links.length = 1) ∧
      g.type.isNegative = false ∧ s.checkLinks g.links = true ∧ ∀ l ∈ g.links, l.idx < i := by
    intro i g hg
    have h := hgates i (lt_of_netlist hg)
    simp only [hg, Option.any_some, Bool.and_eq_true, decide_eq_true_eq, Bool.not_eq_true',
      all_eq_true] at h
    exact ⟨h.1.1.1, h.1.1.2, h.1.2, h.2⟩
  refine ⟨⟨_, hcells, fun i => ⟨fun hi => ?_, fun hi => ?_⟩, fun A i B hl j hij => ?_⟩,
    fun i g hg => ?_, linksRead_of_isNarrow hnarrow, fun i hi => ?_, henough, hin, hout⟩
  · obtain ⟨g, hg, -⟩ := (Option.any_eq_true _ _).mp (hgates i (mem_range.mp hi))
    rw [hg]
    rfl
  · obtain ⟨g, hg⟩ := isSome_iff_exists.mp hi
    exact mem_range.mpr (lt_of_netlist hg)
  · obtain ⟨g, hg, l, hmem, rfl⟩ := hij
    have hlt := (hgate i g hg).2.2.2 l hmem
    have hsorted : (range s.size).Pairwise (· < ·) := pairwise_lt_range
    rw [hl] at hsorted
    have hrange : l.idx ∈ A ++ i :: B :=
      hl ▸ mem_range.mpr (Nat.lt_trans hlt (lt_of_netlist hg))
    refine (mem_append.mp hrange).resolve_right (fun hj => ?_)
    rcases mem_cons.mp hj with heq | hj
    · exact absurd hlt (heq ▸ Nat.lt_irrefl _)
    · exact Nat.lt_asymm hlt ((pairwise_cons.mp (pairwise_append.mp hsorted).2.1).1 _ hj)
  · obtain ⟨hone, hneg, hlinks, -⟩ := hgate i g hg
    exact ⟨hone, hneg, fun l hl => (validLinks_of_check hlinks).netlist hl⟩
  · obtain ⟨g, hg⟩ := isSome_iff_exists.mp hi
    exact Nat.lt_of_lt_of_le (lt_of_netlist hg) hsize

/-- A gate of two inputs, which passes on the first of them as well. -/
def gateAndWire (t : CellTypeID) (inv : Bool) : SubnetBuilder :=
  (checkRun .empty [.addInput, .addInput, .addCell t [⟨0, 0, inv⟩, ⟨1, 0, inv⟩],
    .addOutput ⟨2, 0, inv⟩, .addOutput ⟨0, 0, false⟩] {}).getD {}

/-- A conjunction and the negated disjunction of the negated inputs. -/
theorem makeMiter_builders_exact_and : ExactBuilders (gateAndWire .AND false) (gateAndWire .OR true)
    (makeMiter (.ofBuilder (gateAndWire .AND false)) (.ofBuilder (gateAndWire .OR true))
      (makeDefaultMapping (.ofBuilder (gateAndWire .AND false))
        (.ofBuilder (gateAndWire .OR true)))) :=
  makeMiter_builders_exact
    (comparable_of_check (by decide +kernel) (by decide +kernel) (by decide +kernel) (by decide)
      (by decide) (by decide +kernel) (by decide +kernel))
    (comparable_of_check (by decide +kernel) (by decide +kernel) (by decide +kernel) (by decide)
      (by decide) (by decide +kernel) (by decide +kernel)) (by decide) (by decide)

/-- Two builders whose first outputs were added before their last cell; the outputs pass on
different inputs, but the default mapping compares the cell 3 in the place of the output 2. -/
theorem not_makeMiter_builders_exact :
    ¬ ∀ lib b₁ b₂, Run lib (Valid lib) b₁ → Run lib (Valid lib) b₂ →
    b₂.nIn = b₁.nIn → b₂.nOut = b₁.nOut →
    ExactBuilders b₁ b₂ (makeMiter (.ofBuilder b₁) (.ofBuilder b₂)
      (makeDefaultMapping (.ofBuilder b₁) (.ofBuilder b₂))) := by
  intro h
  let ops : EntryID → List Operation := fun i => [.addInput, .addInput, .addOutput ⟨i, 0, false⟩,
    .addCell .AND [⟨0, 0, false⟩, ⟨1, 0, false⟩], .addOutput ⟨3, 0, false⟩]
  let x : EntryID → Bool := fun i => i = 0
  have hrun : (do
      let b₁ ← checkRun .empty (ops 0) {}
      let b₂ ← checkRun .empty (ops 1) {}
      let m ← makeMiter (.ofBuilder b₁) (.ofBuilder b₂)
        (makeDefaultMapping (.ofBuilder b₁) (.ofBuilder b₂))
      some (m.netlist 5, m.value .empty x 5 0)) =
        some (some ⟨.OUT, [⟨4, 0, false⟩]⟩, some false) := by
    decide +kernel
  have hsource : ∀ i < 2, (checkRun .empty (ops i) {}).map (fun b =>
      ([[b.nIn, b.nOut], b.inputIDs, b.outputIDs], b.value .empty x 2 0)) =
        some ([[2, 2], [0, 1], [2, 4]], some (x i)) := by decide +kernel
  obtain ⟨b₁, hb₁, hv₁⟩ := Option.map_eq_some_iff.mp (hsource 0 (by decide))
  obtain ⟨b₂, hb₂, hv₂⟩ := Option.map_eq_some_iff.mp (hsource 1 (by decide))
  simp only [Prod.mk.injEq, cons.injEq, and_true] at hv₁ hv₂
  obtain ⟨⟨⟨hnIn₁, hnOut₁⟩, hin₁, hout₁⟩, hval₁⟩ := hv₁
  obtain ⟨⟨⟨hnIn₂, hnOut₂⟩, hin₂, hout₂⟩, hval₂⟩ := hv₂
  obtain ⟨m, o, hm, hlive, hout, -, hexact⟩ := h .empty b₁ b₂ (run_of_checkRun .init hb₁)
    (run_of_checkRun .init hb₂) (hnIn₂.trans hnIn₁.symm) (hnOut₂.trans hnOut₁.symm)
  simp only [hb₁, hb₂, bind_eq_bind, bind_some, hm, Option.some.injEq,
    Prod.mk.injEq] at hrun
  obtain rfl : 5 = o := (hout 5 _ hrun.1).mp rfl
  have hinputs : ∀ (b : SubnetBuilder), b.inputIDs = [0, 1] → ∀ (i : ℕ) j, b.inputIDs[i]? = some j →
      x j = x i := by
    intro b hb i j hij
    rw [hb] at hij
    rcases i with _ | _ | i
    · rw [← some.inj hij]
    · rw [← some.inj hij]
    · simp at hij
  obtain ⟨v, hv, hiff⟩ := hexact .empty x x x (hinputs b₁ hin₁) (hinputs b₂ hin₂)
  rw [hrun.2] at hv
  obtain rfl := some.inj hv
  refine Bool.false_ne_true (hiff.mpr ⟨0, 2, 2, by rw [hout₁]; rfl, by rw [hout₂]; rfl, ?_⟩)
  rw [hval₁, hval₂]
  decide

end BaseChecker

end UtopiaEda
