import UtopiaEda.MatrixPlans
import UtopiaEda.Netlists
import Mathlib.Logic.Relation

/-!
# Nets made from a plan

The cells are made in an order in which each one comes after those it is linked to. Where the
storage has numbers for all cells, the net has the inputs and outputs asked for, no cycles and no
idle cells, and every cell has as many links as its type allows.
-/
namespace UtopiaEda.MatrixGenerator
open Drawing GateNet List
open Option (bind_eq_bind bind_eq_some_iff bind_some)

structure NetState where
  st : CellStorage
  netBuilder : NetBuilder := {}
  mp : ℕ → Option ℕ := fun _ => none

namespace NetState

/-- `makeCell` and `addCell`. -/
def addCell (lib : CellAttributes) (s : NetState) (typeID : CellTypeID) (links : List LinkEnd) :
    Option (NetState × ℕ) := do
  let made := makeCell s.st typeID links
  let added ← s.netBuilder.addCell lib made.1 made.2
  some ({ s with st := added.1, netBuilder := added.2 }, made.2)

def mark (s : NetState) (j id : ℕ) : NetState := { s with mp := Function.update s.mp j (some id) }

def addInput (lib : CellAttributes) (s : NetState) (input : ℕ) : Option NetState := do
  let r ← s.addCell lib .IN []
  some (r.1.mark input r.2)

def columns (g : MatrixGenerator) (m : ℕ → ℕ → Bool) (curCellN : ℕ) : List ℕ :=
  (List.range g.matrixNCells).reverse.filter (m curCellN)

def getLinks (g : MatrixGenerator) (m : ℕ → ℕ → Bool) (mp : ℕ → Option ℕ) (curCellN : ℕ) :
    Option (List LinkEnd) :=
  (columns g m curCellN).mapM fun j => (mp j).map fun cellID => ⟨cellID, 0⟩

def addInner (lib : CellAttributes) (g : MatrixGenerator) (t : Tables) (s : NetState)
    (curCellN : ℕ) : Option NetState :=
  match t.cellIdxCellTID curCellN with
  | none => some s
  | some cellTID => do
    let links ← getLinks g t.m s.mp curCellN
    let r ← s.addCell lib cellTID links
    some (r.1.mark curCellN r.2)

def addOutput (lib : CellAttributes) (s : NetState) (output : ℕ) : Option NetState := do
  let cellID ← s.mp output
  let r ← s.addCell lib .OUT [⟨cellID, 0⟩]
  some r.1

end NetState

/-- The part of `generateValid` that follows `genM`; `order` is the order in which the set of inputs
is enumerated. -/
def buildNet (lib : CellAttributes) (g : MatrixGenerator) (order : List ℕ → List ℕ)
    (st : CellStorage) (plan : NetPlan) : Option (CellStorage × GateNet.Net) := do
  let s ← (order plan.inputs).foldlM (NetState.addInput lib) { st := st }
  let s ← (List.range g.matrixNCells).reverse.foldlM (NetState.addInner lib g plan.toTables) s
  let s ← plan.outputs.foldlM (NetState.addOutput lib) s
  let net ← s.netBuilder.make
  some (s.st, net)

/-- `none` is the null net. -/
def generateValid (lib : CellAttributes) (g : MatrixGenerator) (order : List ℕ → List ℕ)
    (st : CellStorage) : Drawing (Option (CellStorage × GateNet.Net)) := do
  match ← g.genM lib with
  | none => pure none
  | some plan =>
    let r ← ofOption (g.buildNet lib order st plan)
    pure (some r)

/-! ### The state of the construction -/

variable {lib : CellAttributes} {g : MatrixGenerator} {t : Tables} {k : ℕ} {done outs : List ℕ}
  {s s' : NetState}

def linkOf (mp : ℕ → Option ℕ) (j : ℕ) : LinkEnd := ⟨(mp j).getD 0, 0⟩

structure CellOf (g : MatrixGenerator) (t : Tables) (mp : ℕ → Option ℕ) (j id : ℕ)
    (r : CellTypeID × List LinkEnd) : Prop where
  input : g.matrixNCells - g.nIn ≤ j → r = (.IN, [])
  inner : j < g.matrixNCells - g.nIn → t.cellIdxCellTID j = some r.1 ∧
    r.2 = (NetState.columns g t.m j).map (linkOf mp)
  sources : j < g.matrixNCells - g.nIn → ∀ c ∈ NetState.columns g t.m j, ∃ source, mp c =
    some source ∧ source < id

/-- The output of an index, one of the first `n` cells. -/
def OutputOf (n : ℕ) (s : NetState) (j id : ℕ) : Prop :=
  ∃ source, s.mp j = some source ∧ source < id ∧ id < n ∧ s.st.content id =
    some (.OUT, [⟨source, 0⟩])

structure Built (g : MatrixGenerator) (t : Tables) (k : ℕ) (done outs : List ℕ) (s : NetState) :
    Prop where
  building : Building k (done.length + outs.length) s.st s.netBuilder
  mem : ∀ j, j ∈ done ↔ ∃ id, s.mp j = some id
  range : ∀ j id, s.mp j = some id → k ≤ id ∧ id < k + (done.length + outs.length)
  injective : ∀ j j' id, s.mp j = some id → s.mp j' = some id → j = j'
  cells : ∀ j id, s.mp j = some id → ∃ r, s.st.content id = some r ∧ CellOf g t s.mp j id r
  inputs : ∀ id, id ∈ s.netBuilder.inputs ↔ ∃ j, g.matrixNCells - g.nIn ≤ j ∧ s.mp j = some id
  nInputs : s.netBuilder.inputs.length = done.countP (g.matrixNCells - g.nIn ≤ ·)
  inners : ∀ id, id ∈ s.netBuilder.inners ↔ ∃ j, j < g.matrixNCells - g.nIn ∧ s.mp j = some id
  outputs : List.Forall₂ (OutputOf (k + (done.length + outs.length)) s) outs s.netBuilder.outputs

structure Added (lib : CellAttributes) (k n : ℕ) (typeID : CellTypeID) (links : List LinkEnd)
    (s s' : NetState) : Prop where
  building : Building k (n + 1) s'.st s'.netBuilder
  netBuilder : s'.netBuilder = s.netBuilder.insert lib (k + n) typeID
  mp : s'.mp = s.mp
  new : s'.st.content (k + n) = some (typeID, links)
  old : ∀ id, k ≤ id → id < k + n → s'.st.content id = s.st.content id

theorem exists_addCell (lib : CellAttributes) (typeID : CellTypeID) (links : List LinkEnd) {n : ℕ}
    (h : Building k n s.st s.netBuilder) (hn : k + n < 2 ^ 32)
    (hlinks : ∀ l ∈ links, k ≤ l.cellID ∧ l.cellID < k + n)
    (hnodup : (links.map (·.cellID)).Nodup) : ∃ s', s.addCell lib typeID links = some (s', k + n) ∧
    Added lib k n typeID links s s' := by
  obtain ⟨hid, st', hadd, hbuilding, hnew, hold⟩ := h.addCell lib typeID hn hlinks hnodup
  refine ⟨{ s with st := st', netBuilder := s.netBuilder.insert lib (k + n) typeID }, ?_, hbuilding,
    rfl, rfl, hnew, hold⟩
  rw [NetState.addCell, hadd, hid]
  rfl

variable {typeID : CellTypeID} {links : List LinkEnd} {j : ℕ} {mp mp' : ℕ → Option ℕ}

theorem linkOf_eq {source : ℕ} (h : mp j = some source) : linkOf mp j = ⟨source, 0⟩ := by
  rw [linkOf, h]
  rfl

theorem CellOf.congr {id : ℕ} {r : CellTypeID × List LinkEnd} (h : CellOf g t mp j id r)
    (hmp : ∀ c source, mp c = some source → mp' c = some source) : CellOf g t mp' j id r := by
  refine ⟨h.input, fun hj => ⟨(h.inner hj).1, (h.inner hj).2.trans (map_congr_left fun c hc => ?_)⟩,
    fun hj c hc => ?_⟩
  · obtain ⟨source, hsource, -⟩ := h.sources hj c hc
    rw [linkOf_eq hsource, linkOf_eq (hmp c source hsource)]
  · obtain ⟨source, hsource, hlt⟩ := h.sources hj c hc
    exact ⟨source, hmp c source hsource, hlt⟩

theorem mp_mark_iff {c id id' : ℕ} (hnone : ∀ id, s.mp j ≠ some id) :
    (s.mark j id).mp c = some id' ↔ (c = j ∧ id' = id) ∨ s.mp c = some id' := by
  dsimp only [NetState.mark]
  by_cases hc : c = j
  · rw [hc, Function.update_self, Option.some_inj, eq_comm]
    simp [hnone]
  · rw [Function.update_of_ne hc]
    simp [hc]

theorem Built.mark (h : Built g t k done outs s) (hnotin : j ∉ done) (hout : typeID ≠ .OUT)
    (hadded : Added lib k (done.length + outs.length) typeID links s s')
    (hkind : typeID = .IN ↔ g.matrixNCells - g.nIn ≤ j)
    (hcell : CellOf g t s.mp j (k + (done.length + outs.length)) (typeID, links)) :
    Built g t k (done ++ [j]) outs (s'.mark j (k + (done.length + outs.length))) := by
  have hlen : (done ++ [j]).length + outs.length = done.length + outs.length + 1 := by
    rw [length_append, length_singleton]
    omega
  have hnone : ∀ id, s'.mp j ≠ some id := by
    rw [hadded.mp]
    exact fun id hid => hnotin ((h.mem j).mpr ⟨id, hid⟩)
  -- an index is the new one or has had its cell before
  have hcases : ∀ c id, (s'.mark j (k + (done.length + outs.length))).mp c = some id ↔
      (c = j ∧ id = k + (done.length + outs.length)) ∨ s.mp c = some id := by
    intro c id
    rw [mp_mark_iff hnone, hadded.mp]
  have hold : ∀ c source, s.mp c = some source →
      (s'.mark j (k + (done.length + outs.length))).mp c = some source := fun c source hsource =>
    (hcases c source).mpr (.inr hsource)
  have hbuilder : (s'.mark j (k + (done.length + outs.length))).netBuilder =
      s.netBuilder.insert lib (k + (done.length + outs.length)) typeID := hadded.netBuilder
  constructor
  · rw [hlen]
    exact hadded.building
  · intro c
    simp only [hcases]
    rw [mem_append, mem_singleton, h.mem, exists_or, exists_and_left, or_comm]
    simp
  · intro c id hid
    rw [hlen]
    rcases (hcases c id).mp hid with ⟨-, rfl⟩ | hid
    · omega
    · have hrange := h.range c id hid
      omega
  · intro c c' id hc hc'
    rcases (hcases c id).mp hc with ⟨hcj, hid⟩ | hc
    · rcases (hcases c' id).mp hc' with ⟨hcj', -⟩ | hc'
      · rw [hcj, hcj']
      · exact absurd (h.range c' id hc').2 (by omega)
    · rcases (hcases c' id).mp hc' with ⟨-, hid⟩ | hc'
      · exact absurd (h.range c id hc).2 (by omega)
      · exact h.injective c c' id hc hc'
  · intro c id hid
    rcases (hcases c id).mp hid with ⟨rfl, rfl⟩ | hid
    · exact ⟨_, hadded.new, hcell.congr hold⟩
    · obtain ⟨r, hr, hof⟩ := h.cells c id hid
      obtain ⟨hk, hlt⟩ := h.range c id hid
      exact ⟨r, (hadded.old id hk hlt).trans hr, hof.congr hold⟩
  · intro id
    simp only [hcases]
    rw [hbuilder, inputs_insert hout, mem_append, h.inputs]
    constructor
    · rintro (⟨c, hc, hid⟩ | hid)
      · exact ⟨c, hc, .inr hid⟩
      · split_ifs at hid with hin
        · exact ⟨j, hkind.mp hin, .inl ⟨rfl, mem_singleton.mp hid⟩⟩
        · cases hid
    · rintro ⟨c, hc, ⟨rfl, rfl⟩ | hid⟩
      · exact .inr (by rw [if_pos (hkind.mpr hc)]; exact mem_singleton.mpr rfl)
      · exact .inl ⟨c, hc, hid⟩
  · rw [hbuilder, inputs_insert hout, length_append, h.nInputs, countP_append, countP_singleton]
    simp only [hkind, decide_eq_true_eq]
    split_ifs <;> rfl
  · intro id
    simp only [hcases]
    rw [hbuilder, mem_inners_insert hout, h.inners]
    constructor
    · rintro (⟨c, hc, hid⟩ | ⟨hid, hin⟩)
      · exact ⟨c, hc, .inr hid⟩
      · exact ⟨j, Nat.lt_of_not_le fun hj => hin (hkind.mpr hj), .inl ⟨rfl, hid⟩⟩
    · rintro ⟨c, hc, ⟨rfl, rfl⟩ | hid⟩
      · exact .inr ⟨rfl, fun hin => absurd hc (Nat.not_lt.mpr (hkind.mp hin))⟩
      · exact .inl ⟨c, hc, hid⟩
  · rw [hbuilder, outputs_insert hout, hlen]
    refine h.outputs.imp fun c id => ?_
    rintro ⟨source, hsource, hlt, hid, hcontent⟩
    have hrange := h.range c source hsource
    exact ⟨source, hold c source hsource,
      hlt, by omega, (hadded.old id (by omega) hid).trans hcontent⟩

/-! ### The cells one after the other -/

theorem Built.exists_addInput (lib : CellAttributes) (h : Built g t k done outs s)
    (hn : k + (done.length + outs.length) < 2 ^ 32) (hnotin : j ∉ done)
    (hj : g.matrixNCells - g.nIn ≤ j) : ∃ s', s.addInput lib j = some s' ∧
    Built g t k (done ++ [j]) outs s' := by
  obtain ⟨s', hadd, hadded⟩ := exists_addCell lib .IN [] h.building hn (by simp) .nil
  refine ⟨s'.mark j (k + (done.length + outs.length)), ?_,
    h.mark hnotin (by simp) hadded (iff_of_true rfl hj) ?_⟩
  · rw [NetState.addInput, hadd]
    rfl
  · exact ⟨fun _ => rfl, fun hlt => absurd hj (Nat.not_le.mpr hlt),
      fun hlt => absurd hj (Nat.not_le.mpr hlt)⟩

theorem mem_columns {m : ℕ → ℕ → Bool} {c : ℕ} :
    c ∈ NetState.columns g m j ↔ c < g.matrixNCells ∧ m j c = true := by
  rw [NetState.columns, mem_filter, mem_reverse, mem_range]

theorem nodup_columns {m : ℕ → ℕ → Bool} : (NetState.columns g m j).Nodup :=
  (nodup_reverse.mpr nodup_range).filter _

theorem length_columns (h : Consistent g t) : (NetState.columns g t.m j).length = t.cellNIn j := by
  rw [h.nIn, ← toFinset_card_of_nodup nodup_columns]
  congr 1
  ext c
  rw [mem_toFinset, mem_columns, mem_ones]

theorem Built.exists_addInner (h : Built g t k done outs s)
    (hn : k + (done.length + outs.length) < 2 ^ 32) (hnotin : j ∉ done)
    (hj : j < g.matrixNCells - g.nIn) (hlinks : ∀ c, t.m j c = true → c ∈ done)
    (htyped : Typed lib g t j) :
    ∃ s', s.addInner lib g t j = some s' ∧ Built g t k (done ++ [j]) outs s' := by
  obtain ⟨cellTID, hTID, hfits⟩ := htyped
  have hsources : ∀ c ∈ NetState.columns g t.m j, ∃ source, s.mp c = some source ∧
      k ≤ source ∧ source < k + (done.length + outs.length) := by
    intro c hc
    obtain ⟨source, hsource⟩ := (h.mem c).mp (hlinks c (mem_columns.mp hc).2)
    exact ⟨source, hsource, h.range c source hsource⟩
  have hget : NetState.getLinks g t.m s.mp j =
      some ((NetState.columns g t.m j).map (linkOf s.mp)) := by
    refine Netlist.mapM_eq_some fun c hc => ?_
    obtain ⟨source, hsource, -⟩ := hsources c hc
    rw [linkOf_eq hsource, hsource]
    rfl
  have hrange : ∀ l ∈ (NetState.columns g t.m j).map (linkOf s.mp), k ≤ l.cellID ∧
      l.cellID < k + (done.length + outs.length) := by
    intro l hl
    obtain ⟨c, hc, rfl⟩ := mem_map.mp hl
    obtain ⟨source, hsource, hsources⟩ := hsources c hc
    rw [linkOf_eq hsource]
    exact hsources
  have hnodup : (((NetState.columns g t.m j).map (linkOf s.mp)).map (·.cellID)).Nodup := by
    rw [map_map]
    refine nodup_columns.map_on fun c hc c' hc' heq => ?_
    obtain ⟨source, hsource, -⟩ := hsources c hc
    obtain ⟨source', hsource', -⟩ := hsources c' hc'
    rw [Function.comp, Function.comp, linkOf_eq hsource, linkOf_eq hsource'] at heq
    rw [← show source = source' from heq] at hsource'
    exact h.injective c c' source hsource hsource'
  obtain ⟨s', hadd, hadded⟩ := exists_addCell lib cellTID _ h.building hn hrange hnodup
  have hkind : cellTID = .IN ↔ g.matrixNCells - g.nIn ≤ j := by
    refine iff_of_false ?_ (Nat.not_le.mpr hj)
    rintro rfl
    cases hfits.operation
  have hout : cellTID ≠ .OUT := by
    rintro rfl
    cases hfits.operation
  refine ⟨s'.mark j (k + (done.length + outs.length)), ?_, h.mark hnotin hout hadded hkind ?_⟩
  · rw [NetState.addInner, hTID]
    dsimp only
    rw [hget, bind_eq_bind, bind_some, hadd]
    rfl
  · refine ⟨fun hle => absurd hj (Nat.not_lt.mpr hle), fun _ => ⟨hTID, rfl⟩, fun _ c hc => ?_⟩
    obtain ⟨source, hsource, -, hlt⟩ := hsources c hc
    exact ⟨source, hsource, hlt⟩

theorem Built.exists_addOutput (lib : CellAttributes) (h : Built g t k done outs s)
    (hn : k + (done.length + outs.length) < 2 ^ 32) (hj : j ∈ done) : ∃ s', s.addOutput lib j =
    some s' ∧ Built g t k done (outs ++ [j]) s' := by
  obtain ⟨source, hsource⟩ := (h.mem j).mp hj
  obtain ⟨hk, hlt⟩ := h.range j source hsource
  obtain ⟨s', hadd, hadded⟩ := exists_addCell lib .OUT [⟨source, 0⟩] h.building hn
    (by simpa using ⟨hk, hlt⟩) (nodup_singleton _)
  have hlen : done.length + (outs ++ [j]).length = done.length + outs.length + 1 := by
    rw [length_append, length_singleton]
    omega
  have hcontent : ∀ c id, s.mp c = some id → s'.st.content id = s.st.content id := fun c id hid =>
    hadded.old id (h.range c id hid).1 (h.range c id hid).2
  refine ⟨s', ?_, ?_, ?_, ?_, ?_, ?_, ?_, ?_, ?_, ?_⟩
  · rw [NetState.addOutput, hsource, bind_eq_bind, bind_some, hadd]
    rfl
  · rw [hlen]
    exact hadded.building
  · rw [hadded.mp]
    exact h.mem
  · intro c id hid
    rw [hadded.mp] at hid
    have hrange := h.range c id hid
    omega
  · rw [hadded.mp]
    exact h.injective
  · intro c id hid
    rw [hadded.mp] at hid ⊢
    obtain ⟨r, hr, hof⟩ := h.cells c id hid
    exact ⟨r, (hcontent c id hid).trans hr, hof⟩
  · rw [hadded.mp, hadded.netBuilder, insert_out]
    exact h.inputs
  · rw [hadded.netBuilder, insert_out]
    exact h.nInputs
  · rw [hadded.mp, hadded.netBuilder, insert_out]
    exact h.inners
  · rw [hadded.netBuilder, insert_out, hlen]
    refine rel_append (h.outputs.imp fun c id => ?_) (.cons ?_ .nil)
    · rintro ⟨source', hsource', hlt', hid, hcell⟩
      have hrange := h.range c source' hsource'
      exact ⟨source', by rw [hadded.mp]; exact hsource', hlt', by omega, (hadded.old id (by omega)
        hid).trans hcell⟩
    · exact ⟨source, by rw [hadded.mp]; exact hsource, hlt, Nat.lt_succ_self _, hadded.new⟩

/-! ### The loops -/

theorem Built.exists_addInputs (lib : CellAttributes) {inputs : List ℕ}
    (h : Built g t k done outs s) (hnodup : (done ++ inputs).Nodup)
    (hn : k + ((done ++ inputs).length + outs.length) ≤ 2 ^ 32)
    (hinputs : ∀ j ∈ inputs, g.matrixNCells - g.nIn ≤ j) : ∃ s', inputs.foldlM
    (NetState.addInput lib) s = some s' ∧ Built g t k (done ++ inputs) outs s' := by
  induction inputs generalizing done s with
  | nil => exact ⟨s, rfl, by rwa [append_nil]⟩
  | cons j inputs ih =>
    rw [append_cons] at hnodup hn ⊢
    have hlen : done.length < (done ++ [j] ++ inputs).length := by
      simp only [length_append, length_singleton]
      omega
    have hnotin : j ∉ done := fun hmem =>
      disjoint_of_nodup_append hnodup.of_append_left hmem (mem_singleton.mpr rfl)
    obtain ⟨s₁, hs₁, h₁⟩ := h.exists_addInput lib (by omega) hnotin (hinputs j mem_cons_self)
    obtain ⟨s₂, hs₂, h₂⟩ := ih h₁ hnodup hn fun j' hj' => hinputs j' (mem_cons_of_mem _ hj')
    refine ⟨s₂, ?_, h₂⟩
    rw [foldlM_cons, hs₁]
    exact hs₂

theorem Built.exists_addInners {a : ℕ} (hcons : Consistent g t)
    (htyped : ∀ i < g.matrixNCells - g.nIn, Typed lib g t i) (h : Built g t k done outs s)
    (hn : k + (done.length + min a (g.matrixNCells - g.nIn) + outs.length) ≤ 2 ^ 32)
    (hdone : ∀ j, j ∈ done ↔ min a (g.matrixNCells - g.nIn) ≤ j ∧ j < g.matrixNCells) :
    ∃ s', (List.range a).reverse.foldlM (NetState.addInner lib g t) s = some s' ∧
      Built g t k (done ++ (List.range (min a (g.matrixNCells - g.nIn))).reverse) outs s' := by
  induction a generalizing done s with
  | zero =>
    rw [Nat.zero_min, range_zero, reverse_nil, append_nil]
    exact ⟨s, rfl, h⟩
  | succ a ih =>
    rw [range_succ, reverse_append, reverse_singleton, singleton_append, foldlM_cons]
    by_cases ha : a < g.matrixNCells - g.nIn
    · have hmin : min a (g.matrixNCells - g.nIn) = a := by omega
      rw [show min (a + 1) (g.matrixNCells - g.nIn) = a + 1 by omega] at hn hdone ⊢
      obtain ⟨s₁, hs₁, h₁⟩ := h.exists_addInner (by omega)
        (fun hmem => absurd ((hdone a).mp hmem).1 (by omega)) ha
        (fun c hc => (hdone c).mpr ⟨(hcons.upper a c hc).2.1, (hcons.upper a c hc).2.2⟩)
        (htyped a ha)
      rw [hmin] at ih
      obtain ⟨s₂, hs₂, h₂⟩ := ih h₁ (by rw [length_append, length_singleton]; omega) fun j => by
        rw [mem_append, mem_singleton, hdone]
        omega
      refine ⟨s₂, ?_, ?_⟩
      · rw [hs₁]
        exact hs₂
      · rw [range_succ, reverse_append, reverse_singleton, ← append_assoc]
        exact h₂
    · rw [show min (a + 1) (g.matrixNCells - g.nIn) = min a (g.matrixNCells - g.nIn) by omega] at hn hdone ⊢
      have hskip : s.addInner lib g t a = some s := by
        rw [NetState.addInner, hcons.untyped a (Nat.not_lt.mp ha)]
      rw [hskip]
      exact ih h hn hdone

theorem Built.exists_addOutputs (lib : CellAttributes) (outputs : List ℕ)
    (h : Built g t k done outs s) (hn : k + (done.length + (outs ++ outputs).length) ≤ 2 ^ 32)
    (houtputs : ∀ j ∈ outputs, j ∈ done) : ∃ s', outputs.foldlM (NetState.addOutput lib) s =
    some s' ∧ Built g t k done (outs ++ outputs) s' := by
  induction outputs generalizing outs s with
  | nil => exact ⟨s, rfl, by rwa [append_nil]⟩
  | cons j outputs ih =>
    rw [append_cons] at hn ⊢
    have hlen : outs.length < (outs ++ [j] ++ outputs).length := by
      simp only [length_append, length_singleton]
      omega
    obtain ⟨s₁, hs₁, h₁⟩ := h.exists_addOutput lib (by omega) (houtputs j mem_cons_self)
    obtain ⟨s₂, hs₂, h₂⟩ := ih h₁ hn fun j' hj' => houtputs j' (mem_cons_of_mem _ hj')
    refine ⟨s₂, ?_, h₂⟩
    rw [foldlM_cons, hs₁]
    exact hs₂

/-! ### Generated nets -/

def LinkedTo (st : CellStorage) (a b : ℕ) : Prop :=
  ∃ r, st.content a = some r ∧ ∃ l ∈ r.2, l.cellID = b

/-- A net of the size asked for without cycles and idle cells, in which all cells have the right
number of links. -/
structure WellFormed (lib : CellAttributes) (g : MatrixGenerator) (st : CellStorage)
    (net : GateNet.Net) : Prop where
  nInputs : net.inputs.length = g.nIn ∧ net.nInputs = g.nIn
  nOutputs : net.outputs.length = g.nOut ∧ net.nOutputs = g.nOut
  nInners : net.inners.length = g.matrixNCells - g.nIn
  nodup : net.allCells.Nodup
  inputs : ∀ id ∈ net.inputs, st.content id = some (.IN, [])
  outputs : ∀ id ∈ net.outputs, ∃ link, st.content id = some (.OUT, [link])
  inners : ∀ id ∈ net.inners, ∃ cellTID links, st.content id = some (cellTID, links) ∧
    g.Fits lib cellTID links.length
  sources : ∀ a ∈ net.allCells, ∀ b, LinkedTo st a b → b ∈ net.inputs ∨ b ∈ net.inners
  acyclic : ∀ a ∈ net.allCells, ¬ Relation.TransGen (LinkedTo st) a a
  used : ∀ b, b ∈ net.inputs ∨ b ∈ net.inners → ∃ a, (a ∈ net.inners ∨ a ∈ net.outputs) ∧
    LinkedTo st a b

theorem Built.empty (st : CellStorage) (hst : st.objSID < 2 ^ 32) :
    Built g t st.objSID [] [] { st := st } := by
  refine ⟨⟨(Nat.mod_eq_of_lt hst).symm, fun id hk hid => absurd hk (by simpa using hid), .refl _⟩,
    ?_, ?_, ?_, ?_, ?_, rfl, ?_, .nil⟩ <;> simp [NetBuilder.inners]

theorem Built.content_inner (h : Built g t k done outs s) (hcons : Consistent g t)
    (htyped : ∀ i < g.matrixNCells - g.nIn, Typed lib g t i) (hj : j < g.matrixNCells - g.nIn)
    {id : ℕ} (hid : s.mp j = some id) : ∃ cellTID links, s.st.content id = some (cellTID, links) ∧
    g.Fits lib cellTID links.length ∧
      links = (NetState.columns g t.m j).map (linkOf s.mp) := by
  obtain ⟨r, hr, hof⟩ := h.cells j id hid
  obtain ⟨hTID, hlinks⟩ := hof.inner hj
  obtain ⟨cellTID, hTID', hfits⟩ := htyped j hj
  rw [hTID'] at hTID
  cases hTID
  refine ⟨r.1, r.2, hr, ?_, hlinks⟩
  rw [hlinks, length_map, length_columns hcons]
  exact hfits

private theorem exists_of_forall₂ {R : ℕ → ℕ → Prop} {xs ys : List ℕ} {y : ℕ}
    (h : List.Forall₂ R xs ys) (hy : y ∈ ys) : ∃ x ∈ xs, R x y := by
  induction h with
  | nil => cases hy
  | cons hxy _ ih =>
    rcases mem_cons.mp hy with rfl | hy
    · exact ⟨_, mem_cons_self, hxy⟩
    · obtain ⟨x, hx, hR⟩ := ih hy
      exact ⟨x, mem_cons_of_mem _ hx, hR⟩

theorem Built.earlier (h : Built g t k done outs s) {a b : ℕ} (ha : a ∈ s.netBuilder.allCells)
    (hab : LinkedTo s.st a b) : b < a ∧ (b ∈ s.netBuilder.inputs ∨ b ∈ s.netBuilder.inners) := by
  have hmade : ∀ c id, s.mp c = some id → id ∈ s.netBuilder.inputs ∨ id ∈ s.netBuilder.inners := by
    intro c id hid
    by_cases hc : g.matrixNCells - g.nIn ≤ c
    · exact .inl ((h.inputs id).mpr ⟨c, hc, hid⟩)
    · exact .inr ((h.inners id).mpr ⟨c, Nat.lt_of_not_le hc, hid⟩)
  obtain ⟨r, hr, l, hl, rfl⟩ := hab
  rcases List.mem_append.mp ha with ha | ha
  · rcases List.mem_append.mp ha with ha | ha
    · obtain ⟨j, hj, hid⟩ := (h.inputs a).mp ha
      obtain ⟨r', hr', hof⟩ := h.cells j a hid
      rw [hr, hof.input hj] at hr'
      cases hr'
      cases hl
    · obtain ⟨j, -, source, hsource, hlt, -, hcontent⟩ := exists_of_forall₂ h.outputs ha
      rw [hr] at hcontent
      cases hcontent
      rw [mem_singleton.mp hl]
      exact ⟨hlt, hmade j source hsource⟩
  · obtain ⟨j, hj, hid⟩ := (h.inners a).mp ha
    obtain ⟨r', hr', hof⟩ := h.cells j a hid
    obtain rfl := Option.some.inj (hr.symm.trans hr')
    rw [(hof.inner hj).2] at hl
    obtain ⟨c, hc, rfl⟩ := mem_map.mp hl
    obtain ⟨source, hsource, hlt⟩ := hof.sources hj c hc
    rw [linkOf_eq hsource]
    exact ⟨hlt, hmade c source hsource⟩

theorem Built.acyclic (h : Built g t k done outs s) {a : ℕ} (ha : a ∈ s.netBuilder.allCells) :
    ¬ Relation.TransGen (LinkedTo s.st) a a := by
  have hcell : ∀ b, b ∈ s.netBuilder.inputs ∨ b ∈ s.netBuilder.inners →
      b ∈ s.netBuilder.allCells := by
    rintro b (hb | hb)
    · exact mem_append_left _ (mem_append_left _ hb)
    · exact mem_append_right _ hb
  -- along the links the numbers of the cells fall
  have hfall : ∀ b, Relation.TransGen (LinkedTo s.st) a b → b < a ∧ b ∈ s.netBuilder.allCells := by
    intro b hab
    induction hab with
    | single hab =>
      obtain ⟨hlt, hb⟩ := h.earlier ha hab
      exact ⟨hlt, hcell _ hb⟩
    | tail _ hbc ih =>
      obtain ⟨hlt, hc⟩ := h.earlier ih.2 hbc
      exact ⟨hlt.trans ih.1, hcell _ hc⟩
  exact fun haa => Nat.lt_irrefl a (hfall a haa).1

theorem Built.used (h : Built g t k done outs s) (hplanned : Planned lib g t outs)
    (hdone : ∀ j, j ∈ done ↔ j < g.matrixNCells) {b : ℕ} (hb : b ∈ s.netBuilder.inputs ∨
    b ∈ s.netBuilder.inners) : ∃ a, (a ∈ s.netBuilder.inners ∨ a ∈ s.netBuilder.outputs) ∧
    LinkedTo s.st a b := by
  obtain ⟨j, hid⟩ : ∃ j, s.mp j = some b := by
    rcases hb with hb | hb
    · obtain ⟨j, -, hid⟩ := (h.inputs b).mp hb
      exact ⟨j, hid⟩
    · obtain ⟨j, -, hid⟩ := (h.inners b).mp hb
      exact ⟨j, hid⟩
  rcases hplanned.used j ((hdone j).mp ((h.mem j).mpr ⟨b, hid⟩)) with ⟨i, hm⟩ | hmem
  · obtain ⟨hi, -, hj⟩ := hplanned.consistent.upper i j hm
    obtain ⟨a, ha⟩ := (h.mem i).mp ((hdone i).mpr (by omega))
    obtain ⟨cellTID, links, hcontent, -, hlinks⟩ :=
      h.content_inner hplanned.consistent hplanned.typed hi ha
    refine ⟨a, .inl ((h.inners a).mpr ⟨i, hi, ha⟩), _, hcontent, linkOf s.mp j,
      ?_, by rw [linkOf_eq hid]⟩
    rw [hlinks]
    exact mem_map_of_mem (mem_columns.mpr ⟨hj, hm⟩)
  · obtain ⟨a, ha, source, hsource, -, -, hcontent⟩ := exists_of_forall₂ h.outputs.flip hmem
    rw [hid] at hsource
    cases hsource
    exact ⟨a, .inr ha, _, hcontent, _, mem_singleton.mpr rfl, rfl⟩

/-- Every list is shorter than the counters of the net allow. -/
theorem Built.exists_make (h : Built g t k done outs s)
    (hn : k + (done.length + outs.length) ≤ 2 ^ 32) (hdone : done ≠ [])
    (houts : outs ≠ []) : ∃ net, s.netBuilder.make = some net ∧ net.toNetBuilder = s.netBuilder ∧
      net.nInputs = s.netBuilder.inputs.length ∧ net.nOutputs = s.netBuilder.outputs.length := by
  have hlen := h.building.all.length_eq
  have hdone := List.length_pos_iff.mpr hdone
  have houts := List.length_pos_iff.mpr houts
  have houtputs := h.outputs.length_eq
  simp only [NetBuilder.allCells, NetBuilder.inners, length_append, length_range'] at hlen
  rw [NetBuilder.make, if_pos (by omega)]
  exact ⟨_, rfl, rfl, rfl, rfl⟩

theorem Built.wellFormed {net : GateNet.Net} (h : Built g t k done outs s)
    (hplanned : Planned lib g t outs) (hdone : ∀ j, j ∈ done ↔ j < g.matrixNCells)
    (hlen : done.length = g.matrixNCells) (houts : outs.length = g.nOut)
    (hcount : done.countP (g.matrixNCells - g.nIn ≤ ·) = g.nIn)
    (hnet : net.toNetBuilder = s.netBuilder) (hnIn : net.nInputs = s.netBuilder.inputs.length)
    (hnOut : net.nOutputs = s.netBuilder.outputs.length) : WellFormed lib g s.st net := by
  have hnInputs : s.netBuilder.inputs.length = g.nIn := h.nInputs.trans hcount
  have hnOutputs : s.netBuilder.outputs.length = g.nOut := h.outputs.length_eq.symm.trans houts
  constructor <;> simp only [hnet]
  · exact ⟨hnInputs, hnIn.trans hnInputs⟩
  · exact ⟨hnOutputs, hnOut.trans hnOutputs⟩
  · have hall := h.building.all.length_eq
    rw [NetBuilder.allCells, length_append, length_append, hnInputs, hnOutputs, length_range', hlen,
      houts] at hall
    omega
  · exact h.building.all.nodup_iff.mpr nodup_range'
  · intro id hid
    obtain ⟨j, hj, hmp⟩ := (h.inputs id).mp hid
    obtain ⟨r, hr, hof⟩ := h.cells j id hmp
    rw [hr, hof.input hj]
  · intro id hid
    obtain ⟨j, -, source, -, -, -, hcontent⟩ := exists_of_forall₂ h.outputs hid
    exact ⟨_, hcontent⟩
  · intro id hid
    obtain ⟨j, hj, hmp⟩ := (h.inners id).mp hid
    obtain ⟨cellTID, links, hcontent, hfits, -⟩ :=
      h.content_inner hplanned.consistent hplanned.typed hj hmp
    exact ⟨cellTID, links, hcontent, hfits⟩
  · exact fun a ha b hab => (h.earlier ha hab).2
  · exact fun a ha => h.acyclic ha
  · exact fun b hb => h.used hplanned hdone hb

theorem NetPlan.Complete.exists_buildNet {plan : NetPlan} (h : plan.Complete lib g)
    (hin : g.nIn < g.matrixNCells) (hout : 1 ≤ g.nOut) {order : List ℕ → List ℕ}
    (horder : ∀ l, (order l).Perm l) {st : CellStorage}
    (hst : st.objSID + g.matrixNCells + g.nOut ≤ 2 ^ 32) : ∃ r, g.buildNet lib order st plan =
    some r ∧ WellFormed lib g r.1 r.2 := by
  have hperm := horder plan.inputs
  have hinputs : ∀ j, j ∈ order plan.inputs ↔ g.matrixNCells - g.nIn ≤ j ∧ j < g.matrixNCells :=
    fun j =>
    hperm.mem_iff.trans (h.inputs.mem j)
  have hlen : (order plan.inputs).length = g.nIn := hperm.length_eq.trans h.inputs.length
  have hmin : min g.matrixNCells (g.matrixNCells - g.nIn) = g.matrixNCells - g.nIn :=
    Nat.min_eq_right (Nat.sub_le _ _)
  obtain ⟨s₁, hs₁, h₁⟩ := (Built.empty (g := g) (t := plan.toTables) st (by omega)).exists_addInputs
    lib (hperm.nodup_iff.mpr h.inputs.nodup) (by simp only [nil_append, length_nil]; omega)
    fun j hj => ((hinputs j).mp hj).1
  rw [nil_append] at h₁
  obtain ⟨s₂, hs₂, h₂⟩ := h₁.exists_addInners (a := g.matrixNCells) h.planned.consistent
    h.planned.typed (by rw [hmin, hlen, length_nil]; omega) (by rw [hmin]; exact hinputs)
  rw [hmin] at h₂
  have hdone : ∀ j, j ∈ order plan.inputs ++ (List.range (g.matrixNCells - g.nIn)).reverse ↔
      j < g.matrixNCells := by
    intro j
    rw [mem_append, hinputs, mem_reverse, mem_range]
    omega
  have hdoneLen : (order plan.inputs ++ (List.range (g.matrixNCells - g.nIn)).reverse).length =
      g.matrixNCells := by
    rw [length_append, hlen, length_reverse, length_range]
    omega
  have hcount : (order plan.inputs ++ (List.range (g.matrixNCells - g.nIn)).reverse).countP
      (g.matrixNCells - g.nIn ≤ ·) = g.nIn := by
    rw [countP_append, List.countP_eq_length.mpr, List.countP_eq_zero.mpr, Nat.add_zero, hlen]
    · intro j hj
      rw [mem_reverse, mem_range] at hj
      rw [decide_eq_true_eq]
      omega
    · intro j hj
      simpa using ((hinputs j).mp hj).1
  obtain ⟨s₃, hs₃, h₃⟩ := h₂.exists_addOutputs lib plan.outputs
    (by rw [hdoneLen, nil_append, h.outputs]; omega) fun j hj => (hdone j).mpr (h.planned.lt j hj)
  rw [nil_append] at h₃
  obtain ⟨net, hnet, hbuilder, hnIn, hnOut⟩ := h₃.exists_make (by rw [hdoneLen, h.outputs]; omega)
    (by rw [← length_pos_iff, hdoneLen]; omega) (by rw [← length_pos_iff, h.outputs]; exact hout)
  refine ⟨(s₃.st, net), ?_, h₃.wellFormed h.planned hdone hdoneLen h.outputs hcount hbuilder
    hnIn hnOut⟩
  rw [buildNet]
  simp only [bind_eq_bind, hs₁, hs₂, hs₃, hnet, bind_some]

variable {nCells nIn nOut : ℕ} {base : Generator}

theorem sat_generateValid (hvalid : g.Valid lib) (hin : g.nIn < g.matrixNCells) (hout : 1 ≤ g.nOut)
    {order : List ℕ → List ℕ} (horder : ∀ l, (order l).Perm l) (st : CellStorage)
    (hst : st.objSID + g.matrixNCells + g.nOut ≤ 2 ^ 32) :
    (g.generateValid lib order st).Sat fun o => ∀ r, o = some r → WellFormed lib g r.1 r.2 := by
  refine (sat_genM hvalid (Nat.sub_pos_of_lt hin) hout).bind fun o ho => ?_
  cases o with
  | none => exact .pure fun r hr => by cases hr
  | some plan =>
    obtain ⟨r, hr, hwell⟩ := (ho plan rfl).exists_buildNet hin hout horder hst
    exact (Sat.ofOption (P := fun r => WellFormed lib g r.1 r.2) hr hwell).bind fun r' hr' =>
      .pure fun r'' heq => by
      cases heq
      exact hr'

/-- Where the storage has identifiers for all cells, generation fails on no draws: while its loops
end, it gives the null net or a well-formed one. -/
theorem generateValid_wellFormed (hcells : 1 ≤ nCells) (hout : 1 ≤ nOut)
    (hbase : base.Accepted lib nIn nOut) (order : List ℕ → List ℕ) (horder : ∀ l, (order l).Perm l)
    (st : CellStorage) (hst : st.objSID + (nCells + nIn) + nOut ≤ 2 ^ 32) (draws : List ℕ) :
    (∀ stop, generateValid lib ⟨base, nCells + nIn⟩ order st draws = .error stop → stop = .draws) ∧
      ∀ st' net rest, generateValid lib ⟨base, nCells + nIn⟩ order st draws =
      .ok (some (st', net), rest) →
        WellFormed lib ⟨base, nCells + nIn⟩ st' net := by
  obtain ⟨hnIn, hnOut⟩ := hbase.nIn_eq
  have hsat := sat_generateValid (g := ⟨base, nCells + nIn⟩) hbase.valid (by dsimp only; omega)
    (by dsimp only; omega) horder st (by dsimp only; omega)
  exact ⟨(hsat draws).1, fun st' net rest hrun => (hsat draws).2 _ rest hrun (st', net) rfl⟩

def standardGates : CellAttributes := ⟨fun _ => 0, fun _ => ⟨true, true, true, false⟩⟩

def gates : Generator where
  nIn := 2
  nOut := 2
  netBase := [.AND, .NOT]
  nInCellTIDs := [(1, [.NOT]), (AnyArity, [.AND])]

theorem accepted_gates : gates.Accepted standardGates 2 2 :=
  .create (show Generator.create standardGates 2 2 [some .AND, some .NOT] = some gates from rfl)

/-- The drawn numbers make an input an output, so that a cell loses a link. -/
theorem generateValid_drain : ∃ st net,
    generateValid standardGates ⟨gates, 2 + 2⟩ id {} [0, 0, 0, 0, 0, 0, 0, 0, 0, 1, 3, 0] =
    .ok (some (st, net), []) ∧
      WellFormed standardGates ⟨gates, 2 + 2⟩ st net :=
  ⟨_, _, rfl, (generateValid_wellFormed (by decide) (by decide) accepted_gates id (fun l => .refl l)
    {} (by decide) [0, 0, 0, 0, 0, 0, 0, 0, 0, 1, 3, 0]).2 _ _ [] rfl⟩

/-! ### Too many outputs -/

def inverters (nOut : ℕ) : Generator where
  nIn := 1
  nOut := nOut
  netBase := [.NOT]
  nInCellTIDs := [(1, [.NOT])]

theorem length_addOutput (h : s.addOutput lib j = some s') :
    s'.netBuilder.outputs.length = s.netBuilder.outputs.length + 1 := by
  obtain ⟨cellID, -, h⟩ := bind_eq_some_iff.mp h
  obtain ⟨r, hr, h⟩ := bind_eq_some_iff.mp h
  obtain ⟨added, hadded, hr⟩ := bind_eq_some_iff.mp hr
  obtain ⟨cell, hcell, hadded⟩ := bind_eq_some_iff.mp hadded
  obtain ⟨st, -, hst⟩ := bind_eq_some_iff.mp hadded
  cases h
  cases hr
  cases hst
  rw [cells_makeCell] at hcell
  cases hcell
  exact length_append

theorem length_addOutputs {outputs : List ℕ}
    (h : outputs.foldlM (NetState.addOutput lib) s = some s') :
    s'.netBuilder.outputs.length = s.netBuilder.outputs.length + outputs.length := by
  induction outputs generalizing s with
  | nil =>
    cases h
    rfl
  | cons j outputs ih =>
    rw [foldlM_cons] at h
    obtain ⟨s₁, hs₁, h⟩ := bind_eq_some_iff.mp h
    rw [ih h, length_addOutput hs₁, length_cons]
    omega

/-- The counters of a net do not hold so many outputs. -/
theorem buildNet_eq_none {plan : NetPlan} {order : List ℕ → List ℕ} {st : CellStorage}
    (h : 2 ^ 32 ≤ plan.outputs.length) : g.buildNet lib order st plan = none := by
  rw [Option.eq_none_iff_forall_not_mem]
  intro r hr
  obtain ⟨s₁, -, hr⟩ := bind_eq_some_iff.mp hr
  obtain ⟨s₂, -, hr⟩ := bind_eq_some_iff.mp hr
  obtain ⟨s₃, hs₃, hr⟩ := bind_eq_some_iff.mp hr
  obtain ⟨net, hnet, -⟩ := bind_eq_some_iff.mp hr
  have hlen := length_addOutputs hs₃
  unfold NetBuilder.make at hnet
  split_ifs at hnet with hsizes
  exact absurd hsizes.2.1 (by omega)

theorem randMod_zero {n : ℕ} (hn : n ≠ 0) (draws : List ℕ) :
    randMod n (0 :: draws) = .ok (0, draws) := by
  change (if n = 0 then throw .divisionByZero else pure (0 % n) : Drawing ℕ) draws = _
  rw [if_neg hn, Nat.zero_mod]
  rfl

theorem setDrains_zeros {rest : List ℕ} {n : ℕ} :
    g.setDrains n t outs (replicate n 0 ++ rest) = .ok ((t, outs), rest) := by
  induction n with
  | zero => rfl
  | succ n ih => exact ih

theorem addOutputs_zeros (hpos : g.matrixNCells ≠ 0) {n rounds : ℕ} (hn : outs.length + n = g.nOut)
    (hrounds : n < rounds) :
    loopRounds g.addOutput rounds outs (replicate n 0) =
    .ok (outs ++ replicate n 0, []) := by
  obtain ⟨rounds, rfl⟩ := Nat.exists_eq_succ_of_ne_zero (Nat.ne_zero_of_lt hrounds)
  induction n generalizing outs rounds with
  | zero =>
    have hstop : g.addOutput outs = pure (.inr outs) := if_neg (by omega)
    rw [loopRounds, hstop, replicate_zero, append_nil]
    rfl
  | succ n ih =>
    obtain ⟨rounds, rfl⟩ := Nat.exists_eq_succ_of_ne_zero (show rounds ≠ 0 by omega)
    have hround : g.addOutput outs (0 :: replicate n 0) =
        .ok (.inl (outs ++ [0]), replicate n 0) := by
      rw [addOutput, if_pos (by omega), check, if_pos hpos]
      change (randMod g.matrixNCells (0 :: replicate n 0)).bind _ = _
      rw [randMod_zero hpos]
      rfl
    have hnext : (outs ++ [0]).length + n = g.nOut := by
      rw [length_append, length_singleton]
      omega
    have hloop := ih hnext rounds (by omega)
    rw [append_assoc] at hloop
    rw [replicate_succ, loopRounds, bind_apply, hround]
    exact hloop

theorem setPrimOuts_zeros (hpos : g.matrixNCells ≠ 0) {n : ℕ} (hn : g.nOut = n + 1) :
    g.setPrimOuts t (replicate n 0 ++ replicate n 0) =
    .ok ((t, [0] ++ replicate n 0), []) := by
  rw [setPrimOuts, bind_apply, hn, Nat.add_sub_cancel, setDrains_zeros]
  change (loopRounds g.addOutput _ [0] (replicate n 0)).bind _ = _
  rw [addOutputs_zeros hpos (by rw [hn, length_singleton, Nat.add_comm])
    (by rw [length_replicate]; omega)]
  rfl

theorem accepted_inverters (nOut : ℕ) : (inverters nOut).Accepted standardGates 1 nOut :=
  .create (show Generator.create standardGates 1 nOut [some .NOT] = some (inverters nOut) from rfl)

/-- The numbers drawn for inverters where all are 0. -/
theorem genM_zeros {n : ℕ} (h : nOut = n + 1) :
    ∃ plan, (⟨inverters nOut, 1 + 1⟩ : MatrixGenerator).genM standardGates
    (0 :: 0 :: 0 :: (replicate n 0 ++ replicate n 0)) = .ok (some plan, []) ∧
    plan.outputs.length = n + 1 := by
  have hin : (⟨inverters nOut, 1 + 1⟩ : MatrixGenerator).setPrimIns
      (0 :: 0 :: 0 :: (replicate n 0 ++ replicate n 0)) =
        .ok ([1], 0 :: 0 :: 0 :: (replicate n 0 ++ replicate n 0)) := rfl
  obtain ⟨t, ht⟩ : ∃ t, (⟨inverters nOut, 1 + 1⟩ : MatrixGenerator).setOps standardGates {}
      (0 :: 0 :: 0 :: (replicate n 0 ++ replicate n 0)) =
      .ok (some t, replicate n 0 ++ replicate n 0) :=
    ⟨_, rfl⟩
  have hout := setPrimOuts_zeros (g := ⟨inverters nOut, 1 + 1⟩) (t := t) (Nat.succ_ne_zero 1) h
  refine ⟨{ t with inputs := [1], outputs := [0] ++ replicate n 0 }, ?_, by simp⟩
  rw [genM, bind_apply, hin]
  dsimp only [Except.bind]
  rw [bind_apply, ht]
  dsimp only [Except.bind]
  rw [bind_apply, hout]
  rfl

/-- An assertion fails where there are more outputs than the counters of a net hold. -/
theorem generateValid_zeros {n : ℕ} (hn : nOut = n + 1) (h : 2 ^ 32 ≤ nOut)
    (order : List ℕ → List ℕ) (st : CellStorage) : generateValid standardGates ⟨inverters nOut,
    1 + 1⟩ order st
      (0 :: 0 :: 0 :: (replicate n 0 ++ replicate n 0)) = .error .failure := by
  obtain ⟨plan, hplan, hlen⟩ := genM_zeros hn
  rw [generateValid, bind_apply, hplan]
  dsimp only [Except.bind]
  rw [buildNet_eq_none (by omega)]
  rfl

/-- An inverter with an input and 2^32 outputs; only zeros are drawn. -/
theorem generateValid_stops : (inverters (2 ^ 32)).Accepted standardGates 1 (2 ^ 32) ∧
    generateValid standardGates ⟨inverters (2 ^ 32), 1 + 1⟩ id {}
      (0 :: 0 :: 0 :: (replicate (2 ^ 32 - 1) 0 ++ replicate (2 ^ 32 - 1) 0)) =
      .error .failure :=
  ⟨accepted_inverters (2 ^ 32), generateValid_zeros (by decide) (Nat.le_refl _) id {}⟩

end UtopiaEda.MatrixGenerator
