import UtopiaEda.MiterConstruction

/-!
# The gates of a miter

The cells of a miter are inputs, copies of cells of the two subnets, comparisons, disjunctions and
the output. Their types and numbers of links are read off the entries alone, whether or not the
links lead anywhere.
-/
namespace UtopiaEda
open List
open Option (bind_eq_some_iff)

namespace SubnetBuilder

structure Holds (P : Gate → Prop) (n k : ℕ) (s : SubnetBuilder) : Prop where
  gates : ∀ i c, s.entries i = .cell c → P ⟨c.type, c.links⟩
  counts : (s.nIn, s.nOut) = (n, k)

variable {P : Gate → Prop} {n k : ℕ} {s s' : SubnetBuilder} {t : CellTypeID} {links : List Link}
  {l : Link} {i idx : EntryID}

theorem Holds.init (P : Gate → Prop) : Holds P 0 0 {} := ⟨fun i c hc => (by cases hc), rfl⟩

private theorem Holds.setCell {c : SubnetCell} (h : Holds P n k s) (hc : P ⟨c.type, c.links⟩) :
    Holds P n k (s.setCell i c) := by
  refine ⟨fun j a ha => ?_, h.counts⟩
  change Function.update s.entries i (.cell c) j = .cell a at ha
  by_cases hj : j = i
  · rw [hj, Function.update_self] at ha
    cases ha
    exact hc
  · rw [Function.update_of_ne hj] at ha
    exact h.gates j a ha

private theorem Holds.addNewLinks : ∀ {links : List Link} {s : SubnetBuilder}, Holds P n k s →
    SubnetBuilder.addNewLinks i links s = some s' → Holds P n k s' := by
  intro links
  induction links with
  | nil =>
    intro s h hs
    cases hs
    exact h
  | cons l links ih =>
    intro s h hs
    obtain ⟨c, hc, hs⟩ := bind_eq_some_iff.mp hs
    split at hs
    · cases hs
    · obtain ⟨s₁, hlink, hs⟩ := bind_eq_some_iff.mp hs
      obtain ⟨s₀, hfan, hinc⟩ := bind_eq_some_iff.mp hlink
      unfold addFanout at hfan
      split at hfan <;> cases hfan
      obtain ⟨a, ha, hinc⟩ := bind_eq_some_iff.mp hinc
      cases hinc
      have hfanouts : Holds P n k (s.setFanouts (if s.fanoutsEnabled then
          Function.update s.fanouts l.idx (s.fanouts l.idx ++ [i]) else s.fanouts)) :=
            ⟨h.gates, h.counts⟩
      have hcell : P ⟨a.type, a.links⟩ := hfanouts.gates l.idx a (getCell_eq_some.mp ha).2
      exact ih (hfanouts.setCell (c := { a with refcount := a.refcount + 1 }) hcell) hs

private theorem Holds.fillEntry (h : Holds P n k s) (hlen : links.length ≤ InPlaceLinks)
    (hP : P ⟨t, links⟩) (hs : s.fillEntry idx t links = some s') : Holds P n k s' := by
  obtain ⟨s₁, hlinks, hs⟩ := bind_eq_some_iff.mp hs
  obtain ⟨o, -, hs⟩ := bind_eq_some_iff.mp hs
  rw [if_pos hlen] at hs
  cases hs
  have h₁ := (h.addNewLinks hlinks).setCell (i := idx) (c := ⟨t, links, 0⟩) hP
  exact ⟨h₁.gates, h₁.counts⟩

private theorem Holds.allocID (h : Holds P n k s) (isBuf : Bool) :
    Holds P n k (s.allocID isBuf).1 := by
  unfold SubnetBuilder.allocID
  dsimp only
  split <;> exact ⟨h.gates, h.counts⟩

private theorem Holds.strashEntry (h : Holds P n k s) : Holds P n k (s.strashEntry t links).1 := by
  unfold SubnetBuilder.strashEntry
  split
  · split
    · exact h
    · have hfresh := h.allocID (decide (t = .BUF))
      exact ⟨hfresh.gates, hfresh.counts⟩
  · exact h

private theorem Holds.allocEntry (h : Holds P n k s) (hlen : links.length ≤ InPlaceLinks)
    (hP : P ⟨t, links⟩) (hs : s.allocEntry t links = some (s', idx)) : Holds P n k s' := by
  have hfill : ∀ {s₁ : SubnetBuilder} {i : EntryID}, Holds P n k s₁ →
      (s₁.fillEntry i t links).map (·, i) = some (s', idx) → Holds P n k s' := by
    intro s₁ i h₁ hs₁
    obtain ⟨s₂, hs₂, heq⟩ := Option.map_eq_some_iff.mp hs₁
    cases heq
    exact h₁.fillEntry hlen hP hs₂
  have hends : Holds P n k s.withEnds := ⟨h.gates, h.counts⟩
  have hentry : Holds P n k (s.withEnds.strashEntry t links).1 := hends.strashEntry
  unfold SubnetBuilder.withEnds at hentry
  unfold SubnetBuilder.allocEntry at hs
  dsimp only at hs
  split at hs <;> rename_i heq <;> rw [heq] at hentry
  · cases hs
    exact hentry
  · exact hfill hentry hs
  · exact hfill (hentry.allocID _) hs

theorem Holds.addCell (h : Holds P n k s) (hlen : links.length ≤ InPlaceLinks) (hP : P ⟨t, links⟩)
    (hs : s.addCell t links = some (s', l)) :
    Holds P (n + (decide (t = .IN)).toNat) (k + (decide (t = .OUT)).toNat) s' ∧ l.out = 0 := by
  unfold SubnetBuilder.addCell at hs
  split at hs
  · cases hs
  · obtain ⟨⟨s₁, idx⟩, halloc, hs⟩ := bind_eq_some_iff.mp hs
    cases hs
    have hcounts := h.counts
    simp only [Prod.mk.injEq] at hcounts
    suffices h₁ : Holds P n k s₁ by
      have hcounts := h₁.counts
      simp only [Prod.mk.injEq] at hcounts
      exact ⟨⟨h₁.gates, by rw [hcounts.1, hcounts.2]⟩, rfl⟩
    exact h.allocEntry hlen hP halloc

end SubnetBuilder

namespace BaseChecker
open SubnetBuilder

structure MiterGates (P : Gate → Prop) : Prop where
  narrow : ∀ g, P g → g.links.length ≤ InPlaceLinks
  port : ∀ g, P g → ∀ l ∈ g.links, l.out = 0
  congr : ∀ t ls ls', P ⟨t, ls⟩ → ls'.length = ls.length → (∀ l ∈ ls', l.out = 0) → P ⟨t, ls'⟩
  input : P ⟨.IN, []⟩
  output : P ⟨.OUT, [⟨0, 0, false⟩]⟩
  comparison : P ⟨.XOR, [⟨0, 0, false⟩, ⟨0, 0, false⟩]⟩
  disjunction : P ⟨.OR, [⟨0, 0, false⟩, ⟨0, 0, false⟩]⟩

variable {P : Gate → Prop} {n k i size nOut : ℕ} {s s' : SubnetBuilder}
  {map map' map1 map2 map1' map2' : IdxToLink} {mapping : CellToCell} {cell : SubnetCell}
  {getLink : EntryID → ℕ → Option Link} {links ls : List Link} {l : Link}
  {S S₁ S₂ : Subnet}

def FirstPorts (map : IdxToLink) : Prop := ∀ j, (map j).out = 0

theorem FirstPorts.update (h : FirstPorts map) (hl : l.out = 0) :
    FirstPorts (Function.update map i l) := by
  intro j
  by_cases hj : j = i
  · rw [hj, Function.update_self, hl]
  · rw [Function.update_of_ne hj, h j]

theorem makeInputs_holds (hP : MiterGates P) :
    ∀ {m i : ℕ} {s : SubnetBuilder} {map1 map2 : IdxToLink}, Holds P i 0 s → FirstPorts map1 →
    FirstPorts map2 → makeInputs mapping m i s map1 map2 = some (s', map1', map2') →
    Holds P (i + m) 0 s' ∧ FirstPorts map1' ∧ FirstPorts map2' := by
  intro m
  induction m with
  | zero =>
    intro i s map1 map2 h h₁ h₂ hrun
    cases hrun
    exact ⟨h, h₁, h₂⟩
  | succ m ih =>
    intro i s map1 map2 h h₁ h₂ hrun
    obtain ⟨j, -, hrun⟩ := bind_eq_some_iff.mp hrun
    obtain ⟨⟨s₁, l⟩, hadd, hrun⟩ := bind_eq_some_iff.mp hrun
    obtain ⟨h', hl⟩ := h.addCell (hP.narrow _ hP.input) hP.input hadd
    obtain ⟨hs', hmaps⟩ := ih h' (h₁.update hl) (h₂.update hl) hrun
    refine ⟨?_, hmaps⟩
    rw [Nat.add_comm m 1, ← Nat.add_assoc]
    exact hs'

theorem buildCell_holds (hP : MiterGates P) (h : Holds P n k s) (hmap : FirstPorts map)
    (hcell : P ⟨cell.type, cell.links⟩) (hin : cell.type ≠ .IN) (hi : i < 2 ^ 16)
    (hread : ∀ j (h : j < cell.links.length), getLink i j = some cell.links[j])
    (hrun : buildCell cell i getLink s map = some (s', map')) : Holds P n k s' ∧
    FirstPorts map' := by
  have hlinks : (range cell.arity).mapM (fun j => (getLink i j).map (newLink map)) =
      some (cell.links.map (newLink map)) :=
    Netlist.mapM_range_eq_some (fun j hj => by rw [hread j hj, Option.map_some])
  have hports : ∀ l ∈ cell.links.map (newLink map), l.out = 0 := by
    intro l hl
    obtain ⟨l', hl', rfl⟩ := mem_map.mp hl
    exact hP.port _ hcell l' hl'
  have hnew : P ⟨cell.type, cell.links.map (newLink map)⟩ :=
    hP.congr _ _ _ hcell (length_map _) hports
  rw [buildCell, Nat.mod_eq_of_lt hi, hlinks] at hrun
  simp only [Option.bind_eq_bind, Option.bind_some] at hrun
  split at hrun
  · obtain ⟨l, hl, hrun⟩ := bind_eq_some_iff.mp hrun
    cases hrun
    exact ⟨h, hmap.update (hports l (mem_of_getElem? hl))⟩
  · rename_i hout
    have hout : cell.type ≠ .OUT := by simpa [SubnetCell.isOut] using hout
    obtain ⟨⟨s₁, l⟩, hadd, hrun⟩ := bind_eq_some_iff.mp hrun
    cases hrun
    obtain ⟨h', hl⟩ := h.addCell (hP.narrow _ hnew) hnew hadd
    simp only [decide_eq_false hin, decide_eq_false hout, Bool.toNat_false, Nat.add_zero] at h'
    exact ⟨h', hmap.update hl⟩

theorem buildCellsLoop_holds (hP : MiterGates P) (hS : S.WellFormed) (hsize : S.size ≤ 2 ^ 16)
    (hcells : ∀ i c, S.getCell i = some c → P ⟨c.type, c.links⟩) : ∀ {m i : ℕ} {s : SubnetBuilder}
    {map : IdxToLink}, Holds P n k s → FirstPorts map → S.nIn ≤ i → buildCellsLoop S m i s map =
    some (s', map') → Holds P n k s' ∧ FirstPorts map' := by
  intro m
  induction m with
  | zero =>
    intro i s map h hmap _ hrun
    rw [buildCellsLoop] at hrun
    split at hrun <;> cases hrun
    exact ⟨h, hmap⟩
  | succ m ih =>
    intro i s map h hmap hin hrun
    rw [buildCellsLoop] at hrun
    split at hrun
    · rename_i hi
      obtain ⟨c, hc, hrun⟩ := bind_eq_some_iff.mp hrun
      obtain ⟨⟨s₁, map₁⟩, hbuild, hrun⟩ := bind_eq_some_iff.mp hrun
      have ht : c.type ≠ .IN := fun ht => absurd ((hS.input i c hc).mp ht) (Nat.not_lt.mpr hin)
      obtain ⟨h₁, hmap₁⟩ := buildCell_holds hP h hmap (hcells i c hc) ht
        (Nat.lt_of_lt_of_le hi hsize)
        (fun j hj => by simp [readLink, hc, getElem?_eq_getElem hj]) hbuild
      exact ih h₁ hmap₁ (Nat.le_succ_of_le (Nat.le_add_right_of_le hin)) hrun
    · cases hrun
      exact ⟨h, hmap⟩

theorem makeXors_holds (hP : MiterGates P) (h₁ : FirstPorts map1) (h₂ : FirstPorts map2) :
    ∀ {is : List ℕ} {s s' : SubnetBuilder} {ls : List Link}, Holds P n k s →
      makeXors size nOut mapping map1 map2 is s = some (s', ls) →
      Holds P n k s' ∧ ls.length = is.length ∧ ∀ l ∈ ls, l.out = 0 := by
  intro is
  induction is with
  | nil =>
    intro s s' ls h hrun
    cases hrun
    exact ⟨h, rfl, fun l hl => (not_mem_nil hl).elim⟩
  | cons i is ih =>
    intro s s' ls h hrun
    obtain ⟨j, -, hrun⟩ := bind_eq_some_iff.mp hrun
    obtain ⟨⟨s₁, l⟩, hadd, hrun⟩ := bind_eq_some_iff.mp hrun
    obtain ⟨⟨s₂, ls₁⟩, hrest, hrun⟩ := bind_eq_some_iff.mp hrun
    cases hrun
    have hgate : P ⟨.XOR, [map1 (size + i - nOut), map2 j]⟩ :=
      hP.congr _ _ _ hP.comparison rfl (by simp [h₁ _, h₂ _])
    obtain ⟨h', hl⟩ := h.addCell (hP.narrow _ hgate) hgate hadd
    obtain ⟨hs', hlen, hls⟩ := ih h' hrest
    refine ⟨hs', congrArg (· + 1) hlen, fun l' hl' => ?_⟩
    rcases mem_cons.mp hl' with rfl | hl'
    · exact hl
    · exact hls l' hl'

theorem addCellTreeLoop_holds (hP : MiterGates P) :
    ∀ {m : ℕ} {s : SubnetBuilder} {links : List Link}, Holds P n k s →
    (∀ l ∈ links, l.out = 0) → addCellTreeLoop .OR 2 m s links = some (s', l) → Holds P n k s' ∧
    l.out = 0 := by
  intro m
  induction m with
  | zero =>
    intro s links _ _ hrun
    cases hrun
  | succ m ih =>
    intro s links h hports hrun
    rw [addCellTreeLoop] at hrun
    split at hrun
    · rename_i hlen
      obtain ⟨⟨s₁, l₁⟩, hadd, hrun⟩ := bind_eq_some_iff.mp hrun
      have hgate : P ⟨.OR, links.take 2⟩ := hP.congr _ _ _ hP.disjunction
        (by rw [length_take]; exact Nat.min_eq_left hlen)
        (fun l hl => hports l (mem_of_mem_take hl))
      obtain ⟨h₁, hl₁⟩ := h.addCell (hP.narrow _ hgate) hgate hadd
      refine ih h₁ (fun l hl => ?_) hrun
      rcases mem_append.mp hl with hl | hl
      · exact hports l (mem_of_mem_drop hl)
      · rw [mem_singleton.mp hl, hl₁]
    · obtain ⟨l₀, hl₀, hrun⟩ := bind_eq_some_iff.mp hrun
      cases hrun
      exact ⟨h, hports _ (mem_of_getElem? hl₀)⟩

theorem makeMiterOutputs_holds (hP : MiterGates P) (h : Holds P n 0 s) (hne : ls ≠ [])
    (hports : ∀ l ∈ ls, l.out = 0) (hrun : makeMiterOutputs s ls = some s') : Holds P n 1 s' := by
  have houtput : ∀ {s₁ : SubnetBuilder} {l : Link} {r : SubnetBuilder × Link}, Holds P n 0 s₁ →
      l.out = 0 → s₁.addOutput l = some r → Holds P n 1 r.1 := by
    intro s₁ l r h₁ hl hadd
    have hgate : P ⟨.OUT, [l]⟩ := hP.congr _ _ _ hP.output rfl (by simpa using hl)
    exact (h₁.addCell (hP.narrow _ hgate) hgate hadd).1
  rw [makeMiterOutputs] at hrun
  split at hrun
  · obtain ⟨l, hl, hrun⟩ := bind_eq_some_iff.mp hrun
    obtain ⟨r, hadd, hrun⟩ := bind_eq_some_iff.mp hrun
    cases hrun
    exact houtput h (hports l (mem_of_getElem? hl)) hadd
  · rename_i hlen
    obtain ⟨⟨s₁, l⟩, htree, hrun⟩ := bind_eq_some_iff.mp hrun
    obtain ⟨r, hadd, hrun⟩ := bind_eq_some_iff.mp hrun
    cases hrun
    have h₁ : Holds P n 0 s₁ ∧ l.out = 0 := by
      unfold addCellTree at htree
      dsimp only at htree
      split at htree
      · rename_i hle
        have hgate : P ⟨.OR, ls⟩ := hP.congr _ _ _ hP.disjunction
          (Nat.le_antisymm hle (Nat.lt_of_le_of_ne (length_pos_of_ne_nil hne) (Ne.symm hlen)))
          hports
        exact h.addCell (hP.narrow _ hgate) hgate htree
      · exact addCellTreeLoop_holds hP h hports htree
    exact houtput h₁.1 h₁.2 hadd

theorem makeMiter_holds (hP : MiterGates P) (h₁ : S₁.WellFormed) (h₂ : S₂.WellFormed)
    (hsize₁ : S₁.size ≤ 2 ^ 16) (hsize₂ : S₂.size ≤ 2 ^ 16)
    (hcells₁ : ∀ i c, S₁.getCell i = some c → P ⟨c.type, c.links⟩)
    (hcells₂ : ∀ i c, S₂.getCell i = some c → P ⟨c.type, c.links⟩) (hpos : S₁.nOut % 2 ^ 16 ≠ 0)
    (hrun : makeMiter (.ofSubnet S₁) (.ofSubnet S₂) mapping = some s) : Holds P S₁.nIn 1 s := by
  obtain ⟨⟨s₀, map1, map2, nOut⟩, hmaps, hrest⟩ := bind_eq_some_iff.mp hrun
  obtain ⟨⟨s₃, ls⟩, hxors, houtputs⟩ := bind_eq_some_iff.mp hrest
  unfold makeNoOutMiter at hmaps
  split at hmaps
  · rename_i heq
    obtain ⟨⟨s₁, map1', map2'⟩, hinputs, hmaps⟩ := bind_eq_some_iff.mp hmaps
    obtain ⟨⟨s₂, map1''⟩, hbuild₁, hmaps⟩ := bind_eq_some_iff.mp hmaps
    obtain ⟨⟨s₂', map2''⟩, hbuild₂, hmaps⟩ := bind_eq_some_iff.mp hmaps
    cases hmaps
    obtain ⟨hs₁, hmap1', hmap2'⟩ :=
      makeInputs_holds hP (.init P) (fun _ => rfl) (fun _ => rfl) hinputs
    obtain ⟨hs₂, hmap1⟩ := buildCellsLoop_holds hP h₁ hsize₁ hcells₁ hs₁ hmap1'
      (Nat.le_refl _) hbuild₁
    obtain ⟨hs₀, hmap2⟩ := buildCellsLoop_holds hP h₂ hsize₂ hcells₂ hs₂ hmap2'
      (Nat.le_refl _) hbuild₂
    obtain ⟨hs₃, hlen, hports⟩ := makeXors_holds hP hmap1 hmap2 hs₀ hxors
    rw [Nat.zero_add] at hs₃
    refine makeMiterOutputs_holds hP hs₃ ?_ hports houtputs
    rintro rfl
    rw [length_range] at hlen
    exact hpos hlen.symm
  · cases hmaps

end BaseChecker

end UtopiaEda
