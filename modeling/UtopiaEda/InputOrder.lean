import UtopiaEda.CellTraversal

/-!
# Inputs among the first cells

Inputs and constants share depth 0. An input that is added late is placed behind the last entry
of depth 0 that is not a constant, so it needs an input to stand behind: if the cells of depth 0
are constants only, the walk back leaves the order. The calls of `addInput` and `addCell` may
come in any other order.
-/
namespace UtopiaEda.SubnetBuilder
open EntryOrder RankedLists List

inductive Creation where
  | addInput
  | addCell (typeID : CellTypeID) (links : List Link)
  deriving DecidableEq

def create (s : SubnetBuilder) : Creation → Option (SubnetBuilder × Link)
  | .addInput => s.addInput
  | .addCell typeID links => s.addCell typeID links

def createAll : List Creation → SubnetBuilder → Option (SubnetBuilder × List EntryID)
  | [], s => some (s, [])
  | c :: cs, s => do
    let (s, link) ← s.create c
    let (s, inputs) ← createAll cs s
    some (s, if c = .addInput then link.idx :: inputs else inputs)

def Creation.Valid (s : SubnetBuilder) : Creation → Prop
  | .addInput => True
  | .addCell typeID links => typeID.isNegative = false ∧ typeID ≠ .IN ∧ typeID ≠ .OUT ∧
      s.ValidLinks links

def Interleaving : List Creation → SubnetBuilder → Prop
  | [], _ => True
  | c :: cs, s => c.Valid s ∧ ∀ s' link, s.create c = some (s', link) → Interleaving cs s'

/-- The cells are visited inputs first, and `depthBounds[0]` covers those of depth 0. -/
def InputsFirst (s : SubnetBuilder) (inputs : List EntryID) : Prop :=
  ∃ cells : List EntryID, (cells ≠ [] → s.cellIDs = some cells) ∧
    (∀ i, i ∈ cells ↔ (s.netlist i).isSome) ∧ (∃ others, cells = inputs ++ others ∧
    (∀ i ∈ inputs, s.getTypeID i = .IN) ∧ ∀ i ∈ others, s.getTypeID i ≠ .IN) ∧
    ∃ zero deep, cells = zero ++ deep ∧ (∀ i ∈ zero, s.order.depth i = some 0) ∧
      (∀ i ∈ deep, s.order.depth i ≠ some 0) ∧ s.order.depthBounds 0 = ends zero

def InputBeforeConstants (cs : List Creation) : Prop :=
  ∀ pre post, cs = pre ++ .addInput :: post → ∀ typeID, .addCell typeID [] ∈ pre →
    (typeID = .ZERO ∨ typeID = .ONE) ∧ .addInput ∈ pre

variable {s s' : SubnetBuilder} {ins mid outs : List EntryID} {pre cs : List Creation} {i : EntryID}

theorem Grown.getTypeID (h : Grown s ins mid outs) (hi : i ∈ ins ++ mid ++ outs) :
    ∃ g, s.netlist i = some g ∧ s.getTypeID i = g.type := by
  obtain ⟨g, hg⟩ := Option.isSome_iff_exists.mp ((h.mem i).mp hi)
  obtain ⟨c, hc, ht, -⟩ := liveCell_of_netlist hg
  exact ⟨g, hg, (getTypeID_of_live hc).trans ht⟩

theorem Grown.depth_iff (h : Grown s ins mid outs) (hi : i ∈ ins ++ mid ++ outs) :
    s.order.depth i = some 0 ↔ s.order.depthOf i = 0 := by
  obtain ⟨g, hg, -⟩ := h.getTypeID hi
  rw [depthOf, h.depth i g hg, Option.getD_some, Option.some.injEq]

theorem Grown.inputsFirst (h : Grown s ins mid []) : InputsFirst s ins := by
  obtain ⟨dep, hlay, hins, hmid⟩ := h.layered
  have hsplit : mid = layer s.order.depthOf mid 0 ++ above s.order.depthOf mid 0 := by
    have hsorted := (h.sorted.sublist (sublist_append_right ins mid)).split 0
    rwa [below_eq_nil (fun _ _ => Nat.zero_le _), nil_append] at hsorted
  have hmem : ∀ {i}, i ∈ ins ++ mid → i ∈ ins ++ mid ++ [] := fun hi => mem_append_left _ hi
  refine ⟨ins ++ mid, fun hne => ?_, fun i => ?_, ⟨mid, rfl, fun i hi => ?_, fun i hi => ?_⟩,
    ins ++ layer s.order.depthOf mid 0, above s.order.depthOf mid 0, ?_, fun i hi => ?_,
    fun i hi => ?_, ?_⟩
  · have hcells := h.cellIDs (by rwa [append_nil])
    rwa [append_nil] at hcells
  · rw [← h.mem i, append_nil]
  · obtain ⟨g, hg, ht⟩ := h.getTypeID (hmem (mem_append_left _ hi))
    exact ht.trans ((h.input i g hg).mpr hi)
  · obtain ⟨g, hg, ht⟩ := h.getTypeID (hmem (mem_append_right _ hi))
    intro hin
    have hnd := h.nodup
    rw [append_nil] at hnd
    exact (nodup_append.mp hnd).2.2 i ((h.input i g hg).mp (ht.symm.trans hin)) i hi rfl
  · rw [append_assoc, ← hsplit]
  · rcases mem_append.mp hi with hi | hi
    · have hmemi := hmem (mem_append_left mid hi)
      obtain ⟨g, hg, -⟩ := h.getTypeID hmemi
      rw [h.depth_iff hmemi, depthOf, h.depth i g hg, h.noLinks i g hg ((h.input i g hg).mpr hi)]
      rfl
    · obtain ⟨hi, hd⟩ := mem_layer.mp hi
      exact (h.depth_iff (hmem (mem_append_right _ hi))).mpr hd
  · obtain ⟨hi, hd⟩ := mem_above.mp hi
    rw [ne_eq, h.depth_iff (hmem (mem_append_right _ hi))]
    exact Nat.ne_of_gt hd
  · rw [hlay.bounds, h.first_layer hins hmid]

structure CreatedBy (pre : List Creation) (s : SubnetBuilder) (ins mid : List EntryID) : Prop where
  grown : Grown s ins mid []
  called : ∀ i ∈ mid, ∀ g, s.netlist i = some g → .addCell g.type g.links ∈ pre
  input : .addInput ∈ pre → ins ≠ []

theorem CreatedBy.addInput (h : CreatedBy pre s ins mid)
    (hpre : ∀ typeID, .addCell typeID [] ∈ pre → (typeID = .ZERO ∨ typeID = .ONE) ∧
      .addInput ∈ pre) :
    ∃ s', s.addInput = some (s', ⟨s.size, 0, false⟩) ∧
    CreatedBy (pre ++ [.addInput]) s' (ins ++ [s.size]) mid := by
  have hzero : ∀ i ∈ mid, s.order.depthOf i = 0 →
      (s.getTypeID i = .ZERO ∨ s.getTypeID i = .ONE) ∧ .addInput ∈ pre := by
    intro i hi hd
    obtain ⟨g, hg, ht⟩ := h.grown.getTypeID (i := i) (by simp [hi])
    have hcalled := h.called i hi g hg
    rw [h.grown.links_of_depth hg hd] at hcalled
    rw [ht]
    exact hpre g.type hcalled
  obtain ⟨s', hs', hgrown, happ⟩ := h.grown.addInput_of_constants (fun i hi hd => (hzero i hi hd).1)
    (fun hnil i hi hd => h.input (hzero i hi hd).2 hnil)
  refine ⟨s', hs', hgrown, fun i hi g hg => ?_, fun _ => by simp⟩
  have hne : i ≠ s.size := by
    obtain ⟨g, hg, -⟩ := h.grown.getTypeID (i := i) (by simp [hi])
    exact Nat.ne_of_lt (lt_of_netlist hg)
  rw [happ.netlist, Function.update_of_ne hne] at hg
  exact mem_append_left _ (h.called i hi g hg)

theorem CreatedBy.addCell {t : CellTypeID} {links : List Link} (h : CreatedBy pre s ins mid)
    (hv : (Creation.addCell t links).Valid s) :
    ∃ s' link mid', s.addCell t links = some (s', link) ∧
    CreatedBy (pre ++ [.addCell t links]) s' ins mid' := by
  obtain ⟨hneg, hin, hout, hl⟩ := hv
  obtain ⟨s', idx, mid', hs', hgrown, hcases⟩ := h.grown.addCell hl hneg hin hout
  refine ⟨s', _, mid', hs', hgrown, fun i hi g hg => ?_, fun hmem => ?_⟩
  · have hnot : i ∉ ins := by
      have hnd := hgrown.nodup
      rw [append_nil] at hnd
      exact fun hmem => (nodup_append.mp hnd).2.2 i hmem i hi rfl
    have hold : ∀ {g}, s.netlist i = some g → .addCell g.type g.links ∈ pre := by
      intro g hg
      have hmem := (h.grown.mem i).mpr (by rw [hg]; rfl)
      rw [append_nil] at hmem
      exact h.called i ((mem_append.mp hmem).resolve_left hnot) g hg
    rcases hcases with ⟨-, -, rfl⟩ | ⟨-, happ⟩
    · exact mem_append_left _ (hold hg)
    · rw [happ.netlist] at hg
      by_cases hi : i = s.size
      · rw [hi, Function.update_self] at hg
        cases hg
        exact mem_append_right _ (mem_singleton_self _)
      · rw [Function.update_of_ne hi] at hg
        exact mem_append_left _ (hold hg)
  · exact h.input (by simpa using hmem)

theorem CreatedBy.createAll (h : CreatedBy pre s ins mid) (hv : Interleaving cs s)
    (hc : InputBeforeConstants (pre ++ cs)) :
    ∃ s' inputs mid', createAll cs s = some (s', inputs) ∧
    CreatedBy (pre ++ cs) s' (ins ++ inputs) mid' := by
  induction cs generalizing pre s ins mid with
  | nil => exact ⟨s, [], mid, rfl, by simpa using h⟩
  | cons c cs ih =>
    obtain ⟨hvalid, hrest⟩ := hv
    rw [append_cons] at hc
    cases c with
    | addInput =>
      obtain ⟨s₁, hs₁, h₁⟩ := h.addInput (hc pre cs (by simp))
      obtain ⟨s', inputs, mid', hall, h'⟩ := ih h₁ (hrest s₁ _ hs₁) hc
      refine ⟨s', s.size :: inputs, mid', ?_, by simpa using h'⟩
      simp only [SubnetBuilder.createAll, create, hs₁, hall, Option.bind_eq_bind, Option.bind_some,
        if_true]
    | addCell t links =>
      obtain ⟨s₁, link, mid₁, hs₁, h₁⟩ := h.addCell hvalid
      obtain ⟨s', inputs, mid', hall, h'⟩ := ih h₁ (hrest s₁ _ hs₁) hc
      refine ⟨s', inputs, mid', ?_, by simpa using h'⟩
      simp only [SubnetBuilder.createAll, create, hs₁, hall, Option.bind_eq_bind, Option.bind_some,
        reduceCtorEq, if_false]

/-- The inputs come first if no constant is created before the first of them and no other cell
without links before the last. -/
theorem createAll_inputsFirst (hv : Interleaving cs {}) (hc : InputBeforeConstants cs) :
    ∃ s inputs, createAll cs {} = some (s, inputs) ∧ InputsFirst s inputs := by
  have hinit : CreatedBy [] {} [] [] :=
    ⟨Grown.init, fun _ hi => (by cases hi), fun hi => (by cases hi)⟩
  obtain ⟨s, inputs, mid, hall, h⟩ := hinit.createAll hv hc
  exact ⟨s, inputs, hall, h.grown.inputsFirst⟩

/-- An input, a constant, a second input. -/
theorem createAll_inputsFirst_zero : ∃ s inputs,
    createAll [.addInput, .addCell .ZERO [], .addInput] {} = some (s, inputs) ∧
    InputsFirst s inputs := by
  refine createAll_inputsFirst ⟨trivial,
    fun _ _ _ => ⟨⟨rfl, by decide, by decide, fun l hl => by cases hl⟩,
    fun _ _ _ => ⟨trivial, fun _ _ _ => trivial⟩⟩⟩ ?_
  intro pre post hcs typeID hmem
  constructor
  · have hall : .addCell typeID [] ∈ [Creation.addInput, .addCell .ZERO [], .addInput] := by
      rw [hcs]
      exact mem_append_left _ hmem
    left
    simpa using hall
  · cases pre with
    | nil => cases hmem
    | cons c pre =>
      obtain ⟨rfl, -⟩ := cons.inj hcs
      exact mem_cons_self

/-- A constant before the first input. -/
theorem not_createAll_inputsFirst : ¬ ∀ cs, Interleaving cs {} →
    ∃ s inputs, createAll cs {} = some (s, inputs) ∧ InputsFirst s inputs := by
  intro h
  obtain ⟨s, inputs, hall, -⟩ := h [.addCell .ZERO [], .addInput]
    ⟨⟨rfl, by decide, by decide, fun l hl => by cases hl⟩,
      fun _ _ _ => ⟨trivial, fun _ _ _ => trivial⟩⟩
  have hnone : createAll [.addCell .ZERO [], .addInput] {} = none := rfl
  rw [hnone] at hall
  cases hall

end UtopiaEda.SubnetBuilder
