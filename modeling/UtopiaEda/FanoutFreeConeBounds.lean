import UtopiaEda.FanoutFreeCones

/-!
# The border of a fanout-free cone

The second search follows the links that were followed before and gives the references back, so that
the builder is the one from before. The border that it collects cuts off exactly the fanout-free
cone.
-/
namespace UtopiaEda

open List
open Option (bind_eq_bind bind_some)
open Function (update update_self update_of_ne)
open Incidence SubnetBuilder

namespace Mffc

variable {s : SubnetBuilder} {marks : ℕ → Bool} {root i j : EntryID} {M stops : List EntryID}
  {E X X' : Finset EntryID} {W W' W₀ : EntryID → List EntryID} {st st' st₀ : State} {n : ℕ}

def Input (s : SubnetBuilder) (i : EntryID) : Prop := ∃ g, s.netlist i = some g ∧ g.type = .IN

/-- Inputs and constants have no links, as their types say. -/
def PlainSources (s : SubnetBuilder) : Prop :=
  ∀ i g, s.netlist i = some g → g.type ∈ [.IN, .ZERO, .ONE] → g.links = []

open Reconvergence in
/-- The state while references are given back: `X` are the cells whose links are followed, `W` are
the links that count again or still. -/
structure Bounded (s : SubnetBuilder) (root : EntryID) (E : Finset EntryID)
    (W₀ : EntryID → List EntryID)
    (X : Finset EntryID) (W : EntryID → List EntryID) (st : State) : Prop where
  builder : st.builder = s.withCounts (refs s W)
  counter : st.counter + total s W = total s s.targets
  source : root ∈ X
  subset : X ⊆ E
  cells : ∀ i ∈ X, i ≠ root → ¬ Constant s i ∧ ¬ Input s i
  reached : ∀ i ∈ X, Relation.ReflTransGen (fun a b => s.netlist.Fanin a b ∧ b ∈ X) root i
  untouched : ∀ i, i ∉ X → W i = W₀ i
  seen : ∀ i ∈ X, ∀ j ∈ W i, j ∈ st.marked ∨ Constant s j
  marked : ∀ j, j ∈ st.marked ↔ (j ∈ X ∧ j ≠ root) ∨ j ∈ st.bounds
  nodup : st.bounds.Nodup
  bound : ∀ b ∈ st.bounds, b ∉ X ∧ ¬ Constant s b ∧ (∃ i ∈ X, s.netlist.Fanin i b) ∧
    (b ∈ E → Input s b)

structure Restored (s : SubnetBuilder) (X X' : Finset EntryID) (W W' : EntryID → List EntryID)
    (i : EntryID) : Prop where
  subset : X ⊆ X'
  cell : W' i = (s.targets i).reverse
  new : ∀ j ∈ X', j ∉ X → W' j = (s.targets j).reverse
  old : ∀ j ∈ X, j ≠ i → W' j = W j

structure Released (s : SubnetBuilder) (root : EntryID) (stops : List EntryID) (E : Finset EntryID)
    (W₀ : EntryID → List EntryID) :
    Prop where
  source : root ∈ E
  cells : ∀ i ∈ E, i < s.size
  path : ∀ i ∈ E, ∃ n, Below s root (· ∈ E) n i
  followed : ∀ i ∈ E, W₀ i = []
  untouched : ∀ i, i ∉ E → W₀ i = s.targets i
  below : ∀ i ∈ E, ∀ j, s.netlist.Fanin i j → j ≠ root
  closed : ∀ i ∈ E, ∀ j, s.netlist.Fanin i j → j ∈ E ∨ 0 < refs s W₀ j ∨ j ∈ stops
  zero : ∀ i ∈ E, i ≠ root → refs s W₀ i = 0 ∧ i ∉ stops

theorem Dereferenced.released (h : Dereferenced s marks root M E W₀ st) (hs : s.NetOk)
    (hroot : (s.netlist root).isSome) (hE : ∀ i ∈ E, W₀ i = []) :
    Released s root st.marked E W₀ := by
  refine ⟨h.source, fun i hi => ?_, fun i hi => (h.cells i hi).imp (fun n hn => hn.1), hE,
    h.untouched, fun i hi j hij => ?_, h.closed, h.zero⟩
  · obtain ⟨n, hpath, -⟩ := h.cells i hi
    obtain ⟨g, hg⟩ := Option.isSome_iff_exists.mp (hpath.isSome hs hroot)
    obtain ⟨c, hc, -⟩ := liveCell_of_netlist hg
    exact lt_of_live hc
  · obtain ⟨n, hpath, -⟩ := h.cells i hi
    exact hpath.ne_root hs hij

theorem refs_cons (hi : i < s.size) : refs s (update W i (j :: W i)) j = refs s W j + 1 := by
  rw [refs, users_cons (Finset.mem_range.mpr hi), Multiset.card_cons]
  rfl

theorem refs_cons_of_ne {k : EntryID} (hi : i < s.size) (hk : k ≠ j) :
    refs s (update W i (j :: W i)) k = refs s W k := by
  rw [refs, users_cons_of_ne (Finset.mem_range.mpr hi) hk]
  rfl

/-- The state with the link from `i` to `j` counted again. -/
def State.counted (s : SubnetBuilder) (W : EntryID → List EntryID) (i j : EntryID) (st : State) :
    State :=
  { st with builder := s.withCounts (refs s (update W i (j :: W i))), counter := st.counter - 1 }

theorem reference_eq (h : st.builder = s.withCounts (refs s W)) (hi : i < s.size) {c : SubnetCell}
    (hc : s.liveCell j = some c) :
    st.reference j = some (st.counted s W i j) := by
  rw [State.reference, h, incRefCount_withCounts hc (refs_cons hi)
    (fun k hk => refs_cons_of_ne hi hk)]
  rfl

/-- A link to a cell that has been seen counts again. -/
theorem Bounded.counted (h : Bounded s root E W₀ X W st) (hE : Released s root stops E W₀)
    (hi : i ∈ X) (hj : j ∈ st.marked ∨ Reconvergence.Constant s j) :
    Bounded s root E W₀ X (update W i (j :: W i)) (st.counted s W i j) := by
  have hilt : i < s.size := hE.cells i (h.subset hi)
  have htotal := total_update (s := s) (W := W) (l := j :: W i) hilt
  have hcounter := h.counter
  rw [length_cons] at htotal
  refine ⟨rfl, ?_, h.source, h.subset, h.cells, h.reached, fun k hk => ?_, fun k hk m hm => ?_,
    h.marked, h.nodup, h.bound⟩
  · change st.counter - 1 + _ = _
    omega
  · have hki : k ≠ i := fun heq => hk (heq ▸ hi)
    rw [update_of_ne hki, h.untouched k hk]
  · by_cases hki : k = i
    · rw [hki, update_self] at hm
      rcases mem_cons.mp hm with rfl | hm
      · exact hj
      · exact h.seen i hi m hm
    · rw [update_of_ne hki] at hm
      exact h.seen k hk m hm

/-- A cell that is not marked has got no reference back. -/
theorem Bounded.refs_eq (h : Bounded s root E W₀ X W st) (hE : Released s root stops E W₀)
    (hj : j ∉ st.marked) (hconst : ¬ Reconvergence.Constant s j) : refs s W j = refs s W₀ j := by
  refine congrArg Multiset.card (users_congr (fun k _ => ?_))
  by_cases hk : k ∈ X
  · rw [hE.followed k (h.subset hk), count_nil, count_eq_zero]
    exact fun hin => (h.seen k hk j hin).elim hj hconst
  · rw [h.untouched k hk]

theorem Bounded.addBound (h : Bounded s root E W₀ X W st) (hE : Released s root stops E W₀)
    (hi : i ∈ X) (hij : s.netlist.Fanin i j) (hj : j ∉ st.marked)
    (hconst : ¬ Reconvergence.Constant s j) (hin : j ∈ E → Input s j) :
    Bounded s root E W₀ X W { st with marked := j :: st.marked, bounds := st.bounds ++ [j] } := by
  have hne : j ≠ root := hE.below i (h.subset hi) j hij
  have hjX : j ∉ X := fun hX => hj ((h.marked j).mpr (.inl ⟨hX, hne⟩))
  have hjB : j ∉ st.bounds := fun hB => hj ((h.marked j).mpr (.inr hB))
  refine ⟨h.builder, h.counter, h.source, h.subset, h.cells, h.reached, h.untouched,
    fun k hk m hm => ?_, fun k => ?_, ?_, fun b hb => ?_⟩
  · exact (h.seen k hk m hm).imp (mem_cons_of_mem j) id
  · change k ∈ j :: st.marked ↔ _ ∨ k ∈ st.bounds ++ [j]
    rw [mem_cons, h.marked k, mem_append, mem_singleton]
    tauto
  · exact nodup_append.mpr ⟨h.nodup, nodup_singleton j, fun a ha b hb hab => hjB
        (mem_singleton.mp hb ▸ hab ▸ ha)⟩
  · rcases mem_append.mp hb with hb | hb
    · exact h.bound b hb
    · rw [mem_singleton.mp hb]
      exact ⟨hjX, hconst, ⟨i, hi, hij⟩, hin⟩

theorem Bounded.addCell (h : Bounded s root E W₀ X W st) (hE : Released s root stops E W₀)
    (hi : i ∈ X) (hij : s.netlist.Fanin i j) (hj : j ∉ st.marked)
    (hconst : ¬ Reconvergence.Constant s j) (hin : ¬ Input s j) (hjE : j ∈ E) :
    Bounded s root E W₀ (insert j X) W { st with marked := j :: st.marked } ∧ j ∉ X ∧ W j = [] := by
  have hne : j ≠ root := hE.below i (h.subset hi) j hij
  have hjX : j ∉ X := fun hX => hj ((h.marked j).mpr (.inl ⟨hX, hne⟩))
  have hWj : W j = [] := (h.untouched j hjX).trans (hE.followed j hjE)
  have hsub : X ⊆ insert j X := Finset.subset_insert j X
  have hmono : ∀ k, Relation.ReflTransGen (fun a b => s.netlist.Fanin a b ∧ b ∈ X) root k →
      Relation.ReflTransGen (fun a b => s.netlist.Fanin a b ∧ b ∈ insert j X) root k :=
    fun k hk => hk.lift id (fun a b hab => ⟨hab.1, hsub hab.2⟩)
  refine ⟨⟨h.builder, h.counter, hsub h.source, Finset.insert_subset hjE h.subset,
    fun k hk hkr => ?_, fun k hk => ?_, fun k hk => ?_, fun k hk m hm => ?_, fun k => ?_, h.nodup,
    fun b hb => ?_⟩, hjX, hWj⟩
  · rcases Finset.mem_insert.mp hk with rfl | hk
    · exact ⟨hconst, hin⟩
    · exact h.cells k hk hkr
  · rcases Finset.mem_insert.mp hk with rfl | hk
    · exact (hmono i (h.reached i hi)).tail ⟨hij, Finset.mem_insert_self k X⟩
    · exact hmono k (h.reached k hk)
  · exact h.untouched k (fun hX => hk (hsub hX))
  · rcases Finset.mem_insert.mp hk with rfl | hk
    · rw [hWj] at hm
      cases hm
    · exact (h.seen k hk m hm).imp (mem_cons_of_mem j) id
  · change k ∈ j :: st.marked ↔ (k ∈ insert j X ∧ k ≠ root) ∨ k ∈ st.bounds
    rw [mem_cons, h.marked k, Finset.mem_insert]
    constructor
    · rintro (rfl | ⟨hk, hkr⟩ | hk)
      · exact .inl ⟨.inl rfl, hne⟩
      · exact .inl ⟨.inr hk, hkr⟩
      · exact .inr hk
    · rintro (⟨rfl | hk, hkr⟩ | hk)
      · exact .inl rfl
      · exact .inr (.inl ⟨hk, hkr⟩)
      · exact .inr (.inr hk)
  · obtain ⟨hbX, hbc, ⟨k, hk, hkb⟩, hbE⟩ := h.bound b hb
    refine ⟨fun hin => ?_, hbc, ⟨k, hsub hk, hkb⟩, hbE⟩
    rcases Finset.mem_insert.mp hin with rfl | hin
    · exact hj ((h.marked b).mpr (.inr hb))
    · exact hbX hin

/-- The recursive call gives the references of a new cell back. -/
def VisitsBack (s : SubnetBuilder) (root : EntryID) (E : Finset EntryID)
    (W₀ : EntryID → List EntryID) (fuel : ℕ) (visit : EntryID → State → Option State) : Prop :=
  ∀ i X W st, Bounded s root E W₀ X W st → i ∈ X → W i = [] → s.size < fuel + X.card →
    ∃ X' W' st', visit i st = some st' ∧ Bounded s root E W₀ X' W' st' ∧ Restored s X X' W W' i ∧
    (∀ m ∈ st.marked, m ∈ st'.marked)

/-- A step of the loop: a cell of the border, a cell that has been seen, or a new cell of the
cone. -/
theorem Bounded.link (hs : s.NetOk) (h : Bounded s root E W₀ X W st)
    (hE : Released s root stops E W₀) {fuel : ℕ} {visit : EntryID → State → Option State}
    (hvisit : VisitsBack s root E W₀ fuel visit) (hi : i ∈ X) {link : Link}
    (hij : s.netlist.Fanin i link.idx) (hfuel : s.size < fuel + 1 + X.card) (links : List Link) :
    ∃ X' W' st', boundLinks visit stops (link :: links) st = boundLinks visit stops links st' ∧
    Bounded s root E W₀ X' W' st' ∧
      X ⊆ X' ∧ W' i = link.idx :: W i ∧ (∀ j ∈ X', j ∉ X → W' j = (s.targets j).reverse) ∧
      (∀ j ∈ X, j ≠ i → W' j = W j) ∧
        ∀ m ∈ st.marked, m ∈ st'.marked := by
  obtain ⟨g, hg⟩ := Option.isSome_iff_exists.mp (hs.net.closed' _ _ hij)
  obtain ⟨c, hc, hct, -⟩ := liveCell_of_netlist hg
  have hilt : i < s.size := hE.cells i (h.subset hi)
  obtain ⟨cell, hcell, htype, hcount⟩ : ∃ cell, st.builder.getCell link.idx = some cell ∧
    cell.type = g.type ∧
      cell.refcount = refs s W link.idx := ⟨{ c with refcount := refs s W link.idx },
      by rw [h.builder, getCell_withCounts hc], hct, rfl⟩
  have hconst : Reconvergence.Constant s link.idx ↔ cell.type = .ZERO ∨ cell.type = .ONE := by
    rw [Reconvergence.Constant, hg]
    simp [htype]
  have hinput : Input s link.idx ↔ cell.isIn = true := by
    rw [Input, hg]
    simp [htype, SubnetCell.isIn]
  have hmark : link.idx < st.builder.size := (getCell_eq_some.mp hcell).1
  have href : ∀ st' : State, st'.builder = st.builder → st'.reference link.idx =
      some (st'.counted s W i link.idx) :=
    fun st' hst' => reference_eq (hst'.trans h.builder) hilt hc
  have hsame : ∀ j ∈ X, j ≠ i → update W i (link.idx :: W i) j = W j :=
      fun j _ hji => update_of_ne hji _ _
  have hnone : ∀ j ∈ X, j ∉ X → update W i (link.idx :: W i) j = (s.targets j).reverse :=
      fun j hj hnot => absurd hj hnot
  rw [boundLinks, hcell]
  dsimp only [bind_eq_bind, bind_some]
  by_cases hseen : link.idx ∈ st.marked ∨ cell.type = .ZERO ∨ cell.type = .ONE
  · rw [if_pos hseen, href st rfl]
    exact ⟨X, _, _, rfl, h.counted hE hi (hseen.imp id hconst.mpr), subset_rfl, update_self ..,
      hnone, hsame, fun m hm => hm⟩
  · rw [if_neg hseen]
    obtain ⟨hnew, hnc⟩ := not_or.mp hseen
    have hnc' : ¬ Reconvergence.Constant s link.idx := fun hcon => hnc (hconst.mp hcon)
    have hne : link.idx ≠ root := hE.below i (h.subset hi) _ hij
    have hpush : (link.idx ∈ E → Input s link.idx) →
        Bounded s root E W₀ X (update W i (link.idx :: W i)) (State.counted s W i link.idx { st with
        marked := link.idx :: st.marked, bounds := st.bounds ++ [link.idx] }) :=
      fun hin => (h.addBound hE hi hij hnew hnc' hin).counted hE hi (.inl mem_cons_self)
    by_cases hstop : link.idx ∈ stops ∨ cell.isIn = true
    · have hb := hpush (fun hin => hinput.mpr (hstop.resolve_left (hE.zero _ hin hne).2))
      rw [if_pos hstop, mark_eq hmark, bind_some,
        href { st with marked := link.idx :: st.marked, bounds := st.bounds ++ [link.idx] } rfl]
      exact ⟨X, _, _, rfl, hb, subset_rfl, update_self .., hnone, hsame,
        fun m hm => mem_cons_of_mem _ hm⟩
    · rw [if_neg hstop, mark_eq hmark, bind_some]
      obtain ⟨hnostop, hnoin⟩ := not_or.mp hstop
      rw [hcount, h.refs_eq hE hnew hnc']
      by_cases hzero : refs s W₀ link.idx = 0
      · have hjE : link.idx ∈ E := by
          rcases hE.closed i (h.subset hi) _ hij with hj | hj | hj
          · exact hj
          · exact absurd hzero hj.ne'
          · exact absurd hj hnostop
        obtain ⟨h₁, hout, hWj⟩ :=
          h.addCell hE hi hij hnew hnc' (fun hin => hnoin (hinput.mp hin)) hjE
        have hcard : (insert link.idx X).card = X.card + 1 := Finset.card_insert_of_notMem hout
        obtain ⟨X₂, W₂, st₂, hst₂, h₂, hrestored, hmarks⟩ :=
          hvisit _ _ _ _ h₁ (Finset.mem_insert_self _ X) hWj (by omega)
        have hsub : X ⊆ X₂ := (Finset.subset_insert _ X).trans hrestored.subset
        have hij' : i ≠ link.idx := fun heq => hout (heq ▸ hi)
        have hWi : W₂ i = W i := hrestored.old i (Finset.mem_insert_of_mem hi) hij'
        rw [if_pos hzero, hst₂, bind_some, reference_eq h₂.builder hilt hc]
        refine ⟨X₂, _, _, rfl, h₂.counted hE (hsub hi) (.inl (hmarks _ mem_cons_self)), hsub,
          by rw [update_self, hWi],
          fun j hj hnot => ?_, fun j hj hji => ?_, fun m hm => hmarks m (mem_cons_of_mem _ hm)⟩
        · have hji : j ≠ i := fun heq => hnot (heq ▸ hi)
          rw [update_of_ne hji]
          by_cases hjl : j = link.idx
          · rw [hjl, hrestored.cell]
          · exact hrestored.new j hj (fun hin => (Finset.mem_insert.mp hin).elim hjl hnot)
        · have hjl : j ≠ link.idx := fun heq => hout (heq ▸ hj)
          rw [update_of_ne hji, hrestored.old j (Finset.mem_insert_of_mem hj) hjl]
      · have hb := hpush (fun hin => absurd (hE.zero _ hin hne).1 hzero)
        rw [if_neg hzero, href { st with marked := link.idx :: st.marked } rfl]
        exact ⟨X, _, _, rfl, hb, subset_rfl, update_self .., hnone, hsame,
          fun m hm => mem_cons_of_mem _ hm⟩

theorem Bounded.links (hs : s.NetOk) (hE : Released s root stops E W₀) {fuel : ℕ}
    {visit : EntryID → State → Option State} (hvisit : VisitsBack s root E W₀ fuel visit) :
    ∀ {links : List Link} {X W st}, Bounded s root E W₀ X W st → i ∈ X →
      (∀ l ∈ links, s.netlist.Fanin i l.idx) → (s.targets i).reverse =
      (links.map Link.idx).reverse ++ W i → s.size < fuel + 1 + X.card →
      ∃ X' W' st', boundLinks visit stops links st = some st' ∧ Bounded s root E W₀ X' W' st' ∧
      Restored s X X' W W' i ∧
        ∀ m ∈ st.marked, m ∈ st'.marked := by
  intro links
  induction links with
  | nil =>
    intro X W st h hi _ hW _
    exact ⟨X, W, st, rfl, h, ⟨subset_rfl, hW.symm, fun j hj hnot => absurd hj hnot,
      fun j _ _ => rfl⟩, fun m hm => hm⟩
  | cons link links ih =>
    intro X W st h hi hlinks hW hfuel
    obtain ⟨X₁, W₁, st₁, hrun, h₁, hsub, hcell, hnew, hold, hmarks⟩ :=
      h.link hs hE hvisit hi (hlinks link mem_cons_self) hfuel links
    have hW₁ : (s.targets i).reverse = (links.map Link.idx).reverse ++ W₁ i := by
      rw [hcell, hW, map_cons, reverse_cons, append_assoc]
      rfl
    obtain ⟨X₂, W₂, st₂, hrun', h₂, hrestored, hmarks'⟩ := ih h₁ (hsub hi)
      (fun l hl => hlinks l (mem_cons_of_mem link hl)) hW₁
      (Nat.lt_of_lt_of_le hfuel (Nat.add_le_add_left (Finset.card_le_card hsub) _))
    refine ⟨X₂, W₂, st₂, hrun.trans hrun', h₂,
      ⟨hsub.trans hrestored.subset, hrestored.cell, fun j hj hnot => ?_, fun j hj hji => ?_⟩,
      fun m hm => hmarks' m (hmarks m hm)⟩
    · by_cases hj₁ : j ∈ X₁
      · have hji : j ≠ i := fun heq => hnot (heq ▸ hi)
        rw [hrestored.old j hj₁ hji, hnew j hj₁ hnot]
      · exact hrestored.new j hj hj₁
    · rw [hrestored.old j (hsub hj) hji, hold j hj hji]

theorem visitsBack_getMffcBounds (hs : s.NetOk) (hstored : s.LinksStored)
    (hE : Released s root stops E W₀) (hlive : ∀ i ∈ E, (s.netlist i).isSome) :
    ∀ fuel, VisitsBack s root E W₀ fuel (getMffcBounds stops fuel) := by
  intro fuel
  induction fuel with
  | zero =>
    intro i X W st h _ _ hlt
    have hsub : X ⊆ Finset.range s.size :=
      fun j hj => Finset.mem_range.mpr (hE.cells j (h.subset hj))
    have hle : X.card ≤ s.size := (Finset.card_le_card hsub).trans (Finset.card_range _).le
    omega
  | succ fuel ih =>
    intro i X W st h hi hW hlt
    obtain ⟨links, hlinks, htargets, hfanins⟩ :=
      getLinks_eq (i := i) hstored (hlive i (h.subset hi)) h.builder
    obtain ⟨X', W', st', hrun, h', hrestored, hmarks⟩ := h.links hs hE ih hi hfanins
      (by rw [htargets, hW, append_nil]) hlt
    refine ⟨X', W', st', ?_, h', hrestored, hmarks⟩
    rw [getMffcBounds, hlinks]
    exact hrun

open Reconvergence in
/-- The cells `X` are the fanout-free cone of the root that the stops leave: a cell belongs to it if
and only if all its fanouts do. The border consists of the other fanins that are not constant. -/
structure IsCone (s : SubnetBuilder) (root : EntryID) (stops : List EntryID) (X : Finset EntryID)
    (bounds : List EntryID) : Prop where
  source : root ∈ X
  reached : ∀ i ∈ X, Relation.ReflTransGen (fun a b => s.netlist.Fanin a b ∧ b ∈ X) root i
  cells : ∀ i ∈ X, i ≠ root → ¬ Constant s i ∧ ¬ Input s i ∧ i ∉ stops
  fanouts : ∀ i ∈ X, i ≠ root → ∀ p, s.netlist.Fanin p i → p ∈ X
  maximal : ∀ j, ¬ Constant s j → ¬ Input s j → j ∉ stops → (∃ p, s.netlist.Fanin p j) →
  (∀ p, s.netlist.Fanin p j → p ∈ X) → j ∈ X
  fanins : ∀ i ∈ X, ∀ j, s.netlist.Fanin i j → j ∈ X ∨ j ∈ bounds ∨ Constant s j
  nodup : bounds.Nodup
  bound : ∀ b ∈ bounds, b ∉ X ∧ ¬ Constant s b ∧ ∃ i ∈ X, s.netlist.Fanin i b

theorem PlainSources.not_source (hplain : PlainSources s) (hij : s.netlist.Fanin i j) :
    ¬ (Reconvergence.Constant s i ∨ Input s i) := by
  obtain ⟨g, hg, l, hl, -⟩ := hij
  rintro (⟨g', hg', ht⟩ | ⟨g', hg', ht⟩)
  · obtain rfl := Option.some.inj (hg.symm.trans hg')
    rw [hplain i g hg (mem_cons_of_mem _ ht)] at hl
    cases hl
  · obtain rfl := Option.some.inj (hg.symm.trans hg')
    rw [hplain i g hg (ht ▸ mem_cons_self)] at hl
    cases hl

/-- The first search follows the links of no other cells than the second one, apart from cells
without links. -/
theorem Bounded.mem_or (h : Bounded s root E W₀ X W st) (hE : Released s root stops E W₀)
    (hplain : PlainSources s) (hX : ∀ i ∈ X, W i = (s.targets i).reverse) (hi : i ∈ E) : i ∈ X ∨
    Reconvergence.Constant s i ∨ Input s i := by
  obtain ⟨n, hpath⟩ := hE.path i hi
  induction hpath with
  | root => exact .inl h.source
  | @link n i j hpath hiE hij ih =>
    have hiX : i ∈ X := (ih hiE).resolve_right (hplain.not_source hij)
    have hW : j ∈ W i := by
      rw [hX i hiX, mem_reverse]
      exact fanin_iff.mp hij
    rcases h.seen i hiX j hW with hm | hconst
    · rcases (h.marked j).mp hm with ⟨hX, -⟩ | hb
      · exact .inl hX
      · exact .inr (.inr ((h.bound j hb).2.2.2 hi))
    · exact .inr (.inl hconst)

theorem Bounded.perm (h : Bounded s root E W₀ X W st) (hE : Released s root stops E W₀)
    (hplain : PlainSources s) (hX : ∀ i ∈ X, W i = (s.targets i).reverse) (i : EntryID) :
    (W i).Perm (s.targets i) := by
  by_cases hi : i ∈ X
  · rw [hX i hi]
    exact reverse_perm _
  · rw [h.untouched i hi]
    by_cases hiE : i ∈ E
    · have htargets : s.targets i = [] := by
        rw [eq_nil_iff_forall_not_mem]
        intro j hj
        exact hplain.not_source (fanin_iff.mpr hj) ((h.mem_or hE hplain hX hiE).resolve_left hi)
      rw [hE.followed i hiE, htargets]
    · rw [hE.untouched i hiE]

/-- The links that still count after the first search are those of the other cells. -/
theorem Released.refs_eq_zero_iff (hE : Released s root stops E W₀) (hs : s.NetOk) :
    refs s W₀ j = 0 ↔ ∀ p, s.netlist.Fanin p j → p ∈ E := by
  rw [refs, Multiset.card_eq_zero, users_eq_zero]
  constructor
  · intro h p hp
    by_contra hpE
    refine h p (Finset.mem_range.mpr (hs.net.user p (ne_nil_of_mem (fanin_iff.mp hp)))) ?_
    rw [hE.untouched p hpE]
    exact fanin_iff.mp hp
  · intro h p _ hp
    by_cases hpE : p ∈ E
    · rw [hE.followed p hpE] at hp
      cases hp
    · rw [hE.untouched p hpE] at hp
      exact hpE (h p (fanin_iff.mpr hp))

theorem Bounded.isCone (h : Bounded s root E W₀ X W st) (hs : s.NetOk)
    (hE : Released s root stops E W₀) (hplain : PlainSources s)
    (hX : ∀ i ∈ X, W i = (s.targets i).reverse) : IsCone s root stops X st.bounds := by
  -- a cell with links is followed in both searches or in none
  have hlinked : ∀ p j, s.netlist.Fanin p j → p ∈ E → p ∈ X :=
    fun p j hpj hp => (h.mem_or hE hplain hX hp).resolve_right (hplain.not_source hpj)
  refine ⟨h.source, h.reached, fun i hi hne => ?_, fun i hi hne p hp => ?_,
    fun j hconst hin hstop ⟨p, hp⟩ hall => ?_, fun i hi j hij => ?_, h.nodup, fun b hb => ?_⟩
  · exact ⟨(h.cells i hi hne).1, (h.cells i hi hne).2, (hE.zero i (h.subset hi) hne).2⟩
  · exact hlinked p i hp ((hE.refs_eq_zero_iff hs).mp (hE.zero i (h.subset hi) hne).1 p hp)
  · have hzero : refs s W₀ j = 0 := (hE.refs_eq_zero_iff hs).mpr (fun p hp => h.subset (hall p hp))
    have hj : j ∈ E := by
      rcases hE.closed p (h.subset (hall p hp)) j hp with hj | hj | hj
      · exact hj
      · exact absurd hzero hj.ne'
      · exact absurd hj hstop
    exact (h.mem_or hE hplain hX hj).resolve_right (fun hsource => hsource.elim hconst hin)
  · have hW : j ∈ W i := by
      rw [hX i hi, mem_reverse]
      exact fanin_iff.mp hij
    rcases h.seen i hi j hW with hm | hconst
    · rcases (h.marked j).mp hm with ⟨hjX, -⟩ | hb
      · exact .inl hjX
      · exact .inr (.inl hb)
    · exact .inr (.inr hconst)
  · obtain ⟨hX, hconst, hfanout, -⟩ := h.bound b hb
    exact ⟨hX, hconst, hfanout⟩

open Reconvergence in
/-- The fanout-free cone of the root without the stops: every way from one of its cells along the
fanouts leads to the root and meets no stop before. -/
inductive FanoutFree (s : SubnetBuilder) (root : EntryID) (stops : List EntryID) :
    EntryID → Prop where
  | root : FanoutFree s root stops root
  | cell {i : EntryID} (constant : ¬ Constant s i) (input : ¬ Input s i) (stop : i ∉ stops)
      (used : ∃ p, s.netlist.Fanin p i)
    (fanouts : ∀ p, s.netlist.Fanin p i → FanoutFree s root stops p) : FanoutFree s root stops i

theorem IsCone.fanoutFree_iff {bounds : List EntryID} (h : IsCone s root stops X bounds)
    (hs : s.NetOk) : FanoutFree s root stops i ↔ i ∈ X := by
  constructor
  · intro hi
    induction hi with
    | root => exact h.source
    | cell hconst hin hstop hused _ ih => exact h.maximal _ hconst hin hstop hused ih
  · -- the fanouts of a cell of the cone are nearer to the top
    obtain ⟨rank, hrank⟩ := hs.acyclic
    have hall : ∀ n i, i ∈ X → X.sup rank < n + rank i → FanoutFree s root stops i := by
      intro n
      induction n with
      | zero =>
        intro i hi hlt
        have hle : rank i ≤ X.sup rank := Finset.le_sup hi
        omega
      | succ n ih =>
        intro i hi hlt
        by_cases hne : i = root
        · rw [hne]
          exact .root
        · obtain ⟨hconst, hin, hstop⟩ := h.cells i hi hne
          refine .cell hconst hin hstop ?_ (fun p hp => ih p (h.fanouts i hi hne p hp) ?_)
          · rcases Relation.ReflTransGen.cases_tail (h.reached i hi) with heq | ⟨p, -, hp, -⟩
            · exact absurd heq hne
            · exact ⟨p, hp⟩
          · have hlt' := hrank p i hp
            omega
    exact fun hi => hall (X.sup rank + 1) i hi (by omega)

theorem IsCone.inCone_iff {bounds : List EntryID} (h : IsCone s root stops X bounds)
    (hplain : PlainSources s) (hroot : root ∉ bounds) (hi : ¬ Reconvergence.Constant s i) :
    s.netlist.InCone bounds root i ↔ i ∈ X := by
  constructor
  · rintro ⟨-, hpath⟩
    have hall : i ∈ X ∨ Reconvergence.Constant s i := by
      clear hi
      induction hpath with
      | refl => exact .inl h.source
      | @tail a b _ hab ih =>
        have ha : a ∈ X := ih.resolve_right (fun hc => hplain.not_source hab.1 (.inl hc))
        rcases h.fanins a ha b hab.1 with hb | hb | hb
        · exact .inl hb
        · exact absurd hb hab.2
        · exact .inr hb
    exact hall.resolve_right hi
  · intro hiX
    exact ⟨hroot, (h.reached i hiX).lift id
      (fun a b hab => ⟨hab.1, fun hb => (h.bound b hb).1 hab.2⟩)⟩

/-- All ways from a cell of the cone to the outputs pass through the root. -/
theorem IsCone.dominated {bounds : List EntryID} (h : IsCone s root stops X bounds) (hs : s.NetOk)
    (hi : i ∈ X) {o : EntryID} {g : Gate} (ho : s.netlist o = some g) (ht : g.type = .OUT) :
    ¬ s.netlist.InCone [root] o i := by
  rintro ⟨hne, hpath⟩
  have hall : o ∈ X := by
    clear ho hne
    induction hpath using Relation.ReflTransGen.head_induction_on with
    | refl => exact hi
    | head hab _ ih => exact h.fanouts _ ih (fun heq => hab.2 (mem_singleton.mpr heq)) _ hab.1
  -- no cell is above an output
  rcases Relation.ReflTransGen.cases_tail (h.reached o hall) with heq | ⟨p, -, hp, -⟩
  · exact hne (mem_singleton.mpr heq)
  · obtain ⟨c, hc, hct⟩ := hs.net.target p o (fanin_iff.mp hp)
    rw [netlist_of_live hc, Option.some.injEq] at ho
    exact hct (by rw [← ht, ← ho])

open Reconvergence in
structure Exact (s : SubnetBuilder) (root : EntryID) (stops bounds : List EntryID) : Prop where
  nodup : bounds.Nodup
  nonconstant : ∀ b ∈ bounds, ¬ Constant s b
  interior : ∀ i, ¬ Constant s i → (s.netlist.InCone bounds root i ↔ FanoutFree s root stops i)
  dominated : ∀ i, FanoutFree s root stops i → ∀ o g, s.netlist o = some g → g.type = .OUT →
    ¬ s.netlist.InCone [root] o i

theorem IsCone.exact {bounds : List EntryID} (h : IsCone s root stops X bounds) (hs : s.NetOk)
    (hplain : PlainSources s) : Exact s root stops bounds := by
  have hroot : root ∉ bounds := fun hb => (h.bound root hb).1 h.source
  refine ⟨h.nodup, fun b hb => (h.bound b hb).2.1, fun i hi => ?_, fun i hi o g ho ht => ?_⟩
  · rw [h.inCone_iff hplain hroot hi, h.fanoutFree_iff hs]
  · exact h.dominated hs ((h.fanoutFree_iff hs).mp hi) ho ht

/-- The view has the border as inputs and the root as output; a border without cells is refused. -/
def Result (s : SubnetBuilder) (root : EntryID) (bounds : List EntryID) :
    Option (SubnetBuilder × SubnetView) :=
  if bounds = [] then none else some (s, ⟨s, .ofIDs bounds [root]⟩)

theorem result_eq (s : SubnetBuilder) (root : EntryID) (bounds : List EntryID) :
    (do some (s, ← SubnetView.ofMapping s (.ofIDs bounds [root]))) = Result s root bounds := by
  have hempty : ((InOutMapping.ofIDs bounds [root]).inputs = [] ∨
      (InOutMapping.ofIDs bounds [root]).outputs = []) ↔ bounds = [] := by
    constructor
    · rintro (hnil | hnil)
      · exact map_eq_nil_iff.mp hnil
      · cases hnil
    · rintro rfl
      exact .inl rfl
  rw [SubnetView.ofMapping, Result]
  by_cases hb : bounds = []
  · rw [if_pos (hempty.mpr hb), if_pos hb]
    rfl
  · rw [if_neg (fun h => hb (hempty.mp h)), if_neg hb]
    rfl

theorem exists_findMffcBounds (hs : s.NetOk) (hstored : s.LinksStored) (hplain : PlainSources s)
    (hroot : (s.netlist root).isSome)
    (h : Dereferenced s marks root M E W₀ st) (hE : ∀ i ∈ E, W₀ i = []) :
    ∃ X found, findMffcBounds root st = some found ∧ found.builder = s ∧ X ⊆ E ∧
    IsCone s root st.marked X found.bounds ∧
      ∀ i j, s.netlist.Fanin i j → i ∈ E → i ∈ X := by
  have hreleased := h.released hs hroot hE
  have hlive : ∀ i ∈ E, (s.netlist i).isSome := by
    intro i hi
    obtain ⟨n, hpath⟩ := hreleased.path i hi
    exact hpath.isSome hs hroot
  have hinit : Bounded s root E W₀ {root} W₀ { st with marked := [] } := by
    refine ⟨h.builder, h.counter, Finset.mem_singleton_self root,
      Finset.singleton_subset_iff.mpr h.source, fun i hi hne => ?_,
      fun i hi => ?_, fun i _ => rfl, fun i hi j hj => ?_, fun j => ?_, ?_, fun b hb => ?_⟩
    · exact absurd (Finset.mem_singleton.mp hi) hne
    · rw [Finset.mem_singleton.mp hi]
    · rw [Finset.mem_singleton.mp hi, hE root h.source] at hj
      cases hj
    · rw [h.bounds]
      constructor
      · intro hj
        cases hj
      · rintro (⟨hj, hne⟩ | hj)
        · exact absurd (Finset.mem_singleton.mp hj) hne
        · cases hj
    · exact h.bounds ▸ nodup_nil
    · rw [show ({ st with marked := [] } : State).bounds = [] from h.bounds] at hb
      cases hb
  obtain ⟨X, W, found, hrun, hfound, hrestored, -⟩ :=
    visitsBack_getMffcBounds hs hstored hreleased hlive
    (s.size + 1) root _ _ _ hinit (Finset.mem_singleton_self root) (hE root h.source) (by omega)
  have hX : ∀ i ∈ X, W i = (s.targets i).reverse := by
    intro i hi
    by_cases hir : i = root
    · rw [hir, hrestored.cell]
    · exact hrestored.new i hi (fun hin => hir (Finset.mem_singleton.mp hin))
  have hperm := hfound.perm hreleased hplain hX
  have hrefs : refs s W = refs s s.targets := by
    funext j
    exact congrArg Multiset.card (users_congr (fun k _ => (hperm k).count_eq j))
  have htotal : total s W = total s s.targets :=
    Finset.sum_congr rfl (fun k _ => (hperm k).length_eq)
  have hcounter : found.counter = 0 := by
    have hsum := hfound.counter
    rw [htotal] at hsum
    omega
  refine ⟨X, found, ?_, ?_, hfound.subset, hfound.isCone hs hreleased hplain hX,
    fun i j hij hi => (hfound.mem_or hreleased hplain hX hi).resolve_right (hplain.not_source hij)⟩
  · have hsize : st.builder.size = s.size := by
      rw [h.builder]
      rfl
    rw [findMffcBounds, hsize, hrun]
    exact if_pos hcounter
  · rw [hfound.builder, hrefs, withCounts_eq_self (refcount_eq_refs hs)]

/-- The shared part: the builder is left as it was, and the border is exact. -/
theorem exists_getMffcFrom (hs : s.NetOk) (hstored : s.LinksStored) (hplain : PlainSources s)
    (hroot : (s.netlist root).isSome)
    (marks : ℕ → Bool) (M : List EntryID) : ∃ stops bounds, Exact s root stops bounds ∧
      getMffcFrom marks root { builder := s, marked := M } = Result s root bounds ∧
      (∀ m ∈ M, m ∈ stops) ∧
      (∀ m ∈ stops, m ∈ M ∨ ∃ n, (n = 0 ∨ marks n = false) ∧ marks (n + 1) = true ∧ Below s root
      (FanoutFree s root stops) (n + 1) m) ∧
      ∀ i, FanoutFree s root stops i → ∃ n, Below s root (FanoutFree s root stops) n i ∧
      (n = 0 ∨ marks n = false) := by
  obtain ⟨E, W₀, st, hrun, h, hE⟩ := exists_dereferenceCells hs hstored hroot marks M
  obtain ⟨X, found, hfound, hbuilder, hsub, hcone, hlinked⟩ :=
    exists_findMffcBounds hs hstored hplain hroot h hE
  have hfree := fun i => hcone.fanoutFree_iff (i := i) hs
  have hbelow : ∀ n i, Below s root (· ∈ E) n i →
      Below s root (FanoutFree s root st.marked) n i := by
    intro n i hpath
    induction hpath with
    | root => exact .root
    | link _ hi hij ih => exact .link ih ((hfree _).mpr (hlinked _ _ hij hi)) hij
  refine ⟨st.marked, found.bounds, hcone.exact hs hplain, ?_, h.given, fun m hm => ?_,
    fun i hi => ?_⟩
  · rw [getMffcFrom, hrun, bind_eq_bind, bind_some, hfound, bind_eq_bind, bind_some, hbuilder]
    exact result_eq s root found.bounds
  · exact (h.marked m hm).imp id (fun ⟨n, hn, hmark, hpath⟩ => ⟨n, hn, hmark, hbelow _ _ hpath⟩)
  · obtain ⟨n, hpath, hn⟩ := h.cells i (hsub ((hfree i).mp hi))
    exact ⟨n, hbelow _ _ hpath, hn⟩

theorem markAll_eq : ∀ (cut : List EntryID) (st : State), (∀ i ∈ cut, i < st.builder.size) →
    State.markAll cut st = some { st with marked := cut.reverse ++ st.marked }
  | [], _, _ => rfl
  | i :: cut, st, h => by
    have hrest := markAll_eq cut { st with marked := i :: st.marked }
      (fun j hj => h j (mem_cons_of_mem i hj))
    rw [State.markAll, mark_eq (h i mem_cons_self), bind_eq_bind, bind_some, hrest, reverse_cons,
      append_assoc]
    rfl

theorem FanoutFree.congr {stops' : List EntryID} (h : FanoutFree s root stops i)
    (hmem : ∀ m ∈ stops', m ∈ stops) : FanoutFree s root stops' i := by
  induction h with
  | root => exact .root
  | cell hconst hin hstop hused _ ih =>
      exact .cell hconst hin (fun hm => hstop (hmem _ hm)) hused ih

theorem Exact.congr {stops' bounds : List EntryID} (h : Exact s root stops bounds)
    (hmem : ∀ m, m ∈ stops ↔ m ∈ stops') : Exact s root stops' bounds :=
  have hfree : ∀ i, FanoutFree s root stops i ↔ FanoutFree s root stops' i :=
    fun _ => ⟨fun hi => hi.congr (fun m hm => (hmem m).mpr hm),
      fun hi => hi.congr (fun m hm => (hmem m).mp hm)⟩
  ⟨h.nodup, h.nonconstant, fun i hi => (h.interior i hi).trans (hfree i),
    fun _ hi => h.dominated _ ((hfree _).mpr hi)⟩

theorem getMffc_self (s : SubnetBuilder) (root : EntryID) :
    getMffc s root [root] = Result s root [root] := by
  rw [getMffc, if_pos rfl]
  exact result_eq s root [root]

theorem exists_getMffc (hs : s.NetOk) (hstored : s.LinksStored) (hplain : PlainSources s)
    (hroot : (s.netlist root).isSome)
    {cut : List EntryID} (hcut : ∀ i ∈ cut, i < s.size) (hne : cut ≠ [root]) :
    ∃ bounds, Exact s root cut bounds ∧ getMffc s root cut = Result s root bounds := by
  obtain ⟨stops, bounds, hexact, hrun, hgiven, hmarked, -⟩ :=
    exists_getMffcFrom hs hstored hplain hroot (fun _ => false) (cut.reverse ++ [])
  have hmem : ∀ m, m ∈ stops ↔ m ∈ cut := by
    intro m
    constructor
    · intro hm
      rcases hmarked m hm with hm | ⟨n, -, hfalse, -⟩
      · simpa using hm
      · cases hfalse
    · exact fun hm => hgiven m (by simpa using hm)
  refine ⟨bounds, hexact.congr hmem, ?_⟩
  rw [getMffc, if_neg hne, markAll_eq cut { builder := s } hcut, bind_eq_bind, bind_some, hrun]

theorem exists_getMffcOfDepth (hs : s.NetOk) (hstored : s.LinksStored) (hplain : PlainSources s)
    (hroot : (s.netlist root).isSome)
    {maxDepth : ℕ} (hne : maxDepth ≠ 0) : ∃ stops bounds, Exact s root stops bounds ∧
      getMffcOfDepth s root maxDepth = Result s root bounds ∧
      (∀ m ∈ stops, Below s root (FanoutFree s root stops) maxDepth m) ∧
      ∀ i, FanoutFree s root stops i → ∃ n < maxDepth,
      Below s root (FanoutFree s root stops) n i := by
  obtain ⟨stops, bounds, hexact, hrun, -, hmarked, hfree⟩ :=
    exists_getMffcFrom hs hstored hplain hroot (fun depth => maxDepth ≤ depth) []
  refine ⟨stops, bounds, hexact, ?_, fun m hm => ?_, fun i hi => ?_⟩
  · rw [getMffcOfDepth, if_neg hne, hrun]
  · obtain ⟨n, hn, hmark, hpath⟩ := (hmarked m hm).resolve_left not_mem_nil
    have hle : maxDepth ≤ n + 1 := of_decide_eq_true hmark
    have hlt : n = 0 ∨ n < maxDepth := hn.imp id (fun h => Nat.not_le.mp (of_decide_eq_false h))
    obtain rfl : n + 1 = maxDepth := by omega
    exact hpath
  · obtain ⟨n, hpath, hn⟩ := hfree i hi
    have hlt : n = 0 ∨ n < maxDepth := hn.imp id (fun h => Nat.not_le.mp (of_decide_eq_false h))
    exact ⟨n, by omega, hpath⟩

/-- `getMffc` leaves the builder as it was, and the border is exact: for a cut the cone ends at its
cells, for a depth it ends where a way from the root gets that long. A cut that is the root alone
and the depth zero are handled apart. -/
theorem getMffc_exact (hs : s.NetOk) (hstored : s.LinksStored) (hplain : PlainSources s)
    (hroot : (s.netlist root).isSome) :
    (∀ cut, (∀ i ∈ cut, i < s.size) → if cut = [root] then getMffc s root cut = Result s root [root]
      else ∃ bounds, Exact s root cut bounds ∧ getMffc s root cut = Result s root bounds) ∧
    ∀ maxDepth, if maxDepth = 0 then getMffcOfDepth s root maxDepth = Result s root [root]
      else ∃ stops bounds, Exact s root stops bounds ∧ getMffcOfDepth s root maxDepth =
      Result s root bounds ∧
        (∀ m ∈ stops, Below s root (FanoutFree s root stops) maxDepth m) ∧
        ∀ i, FanoutFree s root stops i → ∃ n < maxDepth,
        Below s root (FanoutFree s root stops) n i := by
  refine ⟨fun cut hcut => ?_, fun maxDepth => ?_⟩
  · split
    · rename_i hself
      rw [hself]
      exact getMffc_self s root
    · rename_i hne
      exact exists_getMffc hs hstored hplain hroot hcut hne
  · split
    · rename_i hzero
      rw [getMffcOfDepth, if_pos hzero]
      exact result_eq s root [root]
    · rename_i hne
      exact exists_getMffcOfDepth hs hstored hplain hroot hne

def shared : Subnet := ⟨1, 2, 5, 0, [.cell ⟨.IN, [], 1⟩, .cell ⟨.ONE, [], 2⟩,
    .cell ⟨.AND, [⟨0, 0, false⟩, ⟨1, 0, false⟩], 1⟩,
  .cell ⟨.OUT, [⟨2, 0, false⟩], 0⟩, .cell ⟨.OUT, [⟨1, 0, false⟩], 0⟩]⟩

private theorem exists_shared : ∃ s, ofSubnet [] shared = some s ∧ s.NetOk ∧ s.LinksStored ∧
    s.netlist = shared.netlist ∧ PlainSources s := by
  have hS : shared.Arranged :=
    (SubnetEncoder.encodable_of_check (by decide) : shared.Encodable [] 0).arranged
  obtain ⟨s, mid, hs, hgrown, hnet, -⟩ := ofSubnet_eq [] hS
  refine ⟨s, hs, hgrown.netOk, hgrown.linksStored, hnet, fun i g hg ht => ?_⟩
  rw [hnet] at hg
  obtain ⟨c, hc, rfl⟩ := Option.map_eq_some_iff.mp hg
  have hall : ∀ i < 5, ((shared.netlist i).map (fun g => decide (g.type ∉ [.IN, .ZERO, .ONE] ∨
      g.links = []))).getD true = true := by decide
  have hi := hall i (Subnet.lt_of_getCell hc)
  rw [hg] at hi
  exact (of_decide_eq_true hi).resolve_left (not_not.mpr ht)

/-- The cone of the conjunction. -/
theorem getMffc_shared : ∃ s, ofSubnet [] shared = some s ∧ ∃ bounds, Exact s 2 [0] bounds ∧
    getMffc s 2 [0] = Result s 2 bounds := by
  obtain ⟨s, hs, hok, hstored, hnet, hplain⟩ := exists_shared
  have hroot : (s.netlist 2).isSome := by rw [hnet]; rfl
  have hcut : ∀ i ∈ [0], i < s.size := by
    intro i hi
    obtain ⟨c, hc, -⟩ := liveCell_of_netlist
      (by rw [hnet, mem_singleton.mp hi]; rfl : s.netlist i = some ⟨.IN, []⟩)
    exact lt_of_live hc
  exact ⟨s, hs, (getMffc_exact hok hstored hplain hroot).1 [0] hcut⟩

/-- The constant is the border of its own cone. It lies between the border and the conjunction, but
another way leads from it to an output. -/
theorem not_getMffc_shared : ∃ s, ofSubnet [] shared = some s ∧ s.NetOk ∧ s.LinksStored ∧
    PlainSources s ∧ (∃ v, getMffc s 1 [1] = some (s, v) ∧ ¬ ∀ b ∈ v.inputs,
    ¬ Reconvergence.Constant s b) ∧ ∃ v, (getMffc s 2 [0]).map Prod.snd = some v ∧
    s.netlist.InCone v.inputs 2 1 ∧
      ∃ o g, s.netlist o = some g ∧ g.type = .OUT ∧ s.netlist.InCone [2] o 1 := by
  obtain ⟨s, hs, hok, hstored, hnet, hplain⟩ := exists_shared
  have hgate : ∀ i g, shared.netlist i = some g → s.netlist i = some g := fun i g hg => by
    rw [hnet, hg]
  have hone := hgate 1 ⟨.ONE, []⟩ rfl
  have hrun : (ofSubnet [] shared).map (fun s => (getMffc s 2 [0]).map (fun r => r.2.inputs)) =
      some (some [0]) :=
      by decide +kernel
  rw [hs, Option.map_some, Option.some.injEq] at hrun
  obtain ⟨r, hr, hinputs⟩ := Option.map_eq_some_iff.mp hrun
  refine ⟨s, hs, hok, hstored, hplain, ⟨_, (getMffc_self s 1).trans (if_neg (cons_ne_nil _ _)),
    fun h => ?_⟩, r.2, by rw [hr]; rfl, ?_, 4, ⟨.OUT, [⟨1, 0, false⟩]⟩, hgate 4 _ rfl, rfl, ?_⟩
  · exact h 1 (mem_singleton_self 1) ⟨_, hone, by decide⟩
  · rw [hinputs]
    exact ⟨by decide, .single ⟨⟨_, hgate 2 ⟨.AND, [⟨0, 0, false⟩, ⟨1, 0, false⟩]⟩ rfl,
      ⟨1, 0, false⟩, by decide, rfl⟩, by decide⟩⟩
  · exact ⟨by decide, .single ⟨⟨_, hgate 4 ⟨.OUT, [⟨1, 0, false⟩]⟩ rfl,
      ⟨1, 0, false⟩, by decide, rfl⟩, by decide⟩⟩

end Mffc

end UtopiaEda
