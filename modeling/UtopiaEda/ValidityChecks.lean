import UtopiaEda.Operations

/-!
# Checking the validity of operations

Executable conditions for `Valid`. Those for cycles are sufficient only: they ask for links
that lead to smaller entries, or for inputs without links.
-/
namespace UtopiaEda
open List

namespace Subnet

variable {S : Subnet} {i : EntryID} {c : SubnetCell}

def checkCell (S : Subnet) (i : EntryID) (c : SubnetCell) : Bool :=
  decide (c.type = .IN ↔ i < S.nIn) && decide (c.type = .IN → c.links = []) &&
  decide (c.type = .OUT ↔ S.size - S.nOut ≤ i) && decide (c.type = .OUT → c.links.length = 1) &&
  !c.type.isNegative &&
  c.links.all (fun l => decide (l.idx < i) && decide (l.out = 0) &&
    (S.getCell l.idx).any (fun c' => decide (c'.type ≠ .OUT)))

def check (S : Subnet) : Bool :=
  decide (S.nIn + S.nOut ≤ S.size) && (range S.size).all fun i =>
    match S.getCell i with
    | some c => S.checkCell i c
    | none => decide (S.nIn ≤ i ∧ i < S.size - S.nOut)

theorem wellFormed_of_check (h : S.check = true) : S.WellFormed := by
  simp only [check, Bool.and_eq_true, decide_eq_true_eq, all_eq_true, mem_range] at h
  obtain ⟨hbounds, hcells⟩ := h
  have hcell : ∀ i c, S.getCell i = some c → S.checkCell i c = true := by
    intro i c hc
    have := hcells i (lt_of_getCell hc)
    simpa [hc] using this
  simp only [checkCell, Bool.and_eq_true, decide_eq_true_eq, all_eq_true, Option.any_eq_true,
    Bool.not_eq_eq_eq_not, Bool.not_true] at hcell
  refine ⟨fun i c hc => ?_, fun i c hc => ?_, fun i c hc => ?_, fun i c hc => ?_, hbounds,
    fun i hi hlt => ?_, fun i c hc l hl => ?_, fun i c hc l hl c' _ => ?_, fun i c hc => ?_⟩
  · exact (hcell i c hc).1.1.1.1.1
  · exact (hcell i c hc).1.1.1.1.2
  · exact (hcell i c hc).1.1.1.2
  · exact (hcell i c hc).1.1.2
  · have := hcells i hlt
    cases hc : S.getCell i with
    | some c => rfl
    | none =>
      simp only [hc, decide_eq_true_eq] at this
      omega
  · obtain ⟨⟨hlt, -⟩, c', hc', ht⟩ := (hcell i c hc).2 l hl
    exact ⟨hlt, c', hc', ht⟩
  · exact .inl ((hcell i c hc).2 l hl).1.2
  · exact (hcell i c hc).1.2

end Subnet

namespace SubnetBuilder

variable {lib : CellLibrary} {s s' : SubnetBuilder} {i j root : EntryID} {links : List Link}

def linksOf (s : SubnetBuilder) (i : EntryID) : List Link :=
  ((s.netlist i).map Gate.links).getD []

def linksBack (s : SubnetBuilder) (f : EntryID → Option EntryID) : Bool :=
  (range s.size).all fun i => (s.linksOf i).all fun l => decide ((f l.idx).getD l.idx < i)

def checkLinks (s : SubnetBuilder) (links : List Link) : Bool :=
  links.all fun l => (s.netlist l.idx).any fun g => decide (g.type ≠ .OUT)

/-- The cell `i` is not in the transitive fanout of `root`. -/
def checkOutside (s : SubnetBuilder) (root i : EntryID) : Bool :=
  decide (i ≠ root) && ((s.linksOf i).isEmpty || s.linksBack (fun _ => none) && decide (i < root))

def checkMerged (lib : CellLibrary) (s : SubnetBuilder) (ids : List EntryID) : Bool :=
  ids.all fun i => (s.netlist i).any fun g => decide (g.type.getOutNum lib = 1)

def check (lib : CellLibrary) (s : SubnetBuilder) : Operation → Bool
  | .addInput => true
  | .addCell _ links => s.checkLinks links
  | .addOutput link => s.checkLinks [link]
  | .replace rhs iomapping => match iomapping.outputs with
    | [l] => rhs.check && decide (rhs.nIn = iomapping.inputs.length) && decide (rhs.nOut = 1) &&
      (s.netlist l.idx).isSome && s.checkLinks iomapping.inputs &&
      iomapping.inputs.all fun k => s.checkOutside l.idx k.idx
    | _ => false
  | .replaceCell entryID _ links _ =>
    (s.netlist entryID).isSome && s.checkLinks links && links.all fun l =>
      s.checkOutside entryID l.idx
  | .mergeCells entryIDs =>
    s.checkMerged lib (entryIDs.flatMap fun p => p.1 :: p.2) && s.linksBack entryIDs.mergeTo
  | .replaceWithZero entryIDs | .replaceWithOne entryIDs => s.checkMerged lib entryIDs
  | .enableFanouts => false

def checkRun (lib : CellLibrary) : List Operation → SubnetBuilder → Option SubnetBuilder
  | [], s => some s
  | op :: ops, s => if s.check lib op then (s.apply lib op).bind (checkRun lib ops) else none

private theorem fanin_lt {f : EntryID → Option EntryID} (h : s.linksBack f = true) {l : Link}
    {g : Gate} (hg : s.netlist i = some g) (hl : l ∈ g.links) : (f l.idx).getD l.idx < i := by
  simp only [linksBack, all_eq_true, mem_range, decide_eq_true_eq] at h
  refine h i (lt_of_netlist hg) l ?_
  simpa [linksOf, hg] using hl

private theorem reaches_le (h : s.linksBack (fun _ => none) = true) (hij : s.netlist.Reaches i j) :
    j ≤ i := by
  induction hij with
  | refl => exact Nat.le_refl _
  | tail _ hjk ih =>
    obtain ⟨g, hg, l, hl, rfl⟩ := hjk
    exact Nat.le_trans (Nat.le_of_lt (fanin_lt h hg hl)) ih

theorem validLinks_of_check (h : s.checkLinks links = true) : s.ValidLinks links := by
  simp only [checkLinks, all_eq_true, Option.any_eq_true, decide_eq_true_eq] at h
  exact validLinks_of_netlist h

theorem not_reaches_of_check (h : s.checkOutside root i = true) : ¬ s.netlist.Reaches i root := by
  simp only [checkOutside, Bool.and_eq_true, decide_eq_true_eq, Bool.or_eq_true] at h
  obtain ⟨hne, hrest⟩ := h
  intro hreach
  rcases hrest with hempty | ⟨hback, hlt⟩
  · rcases Relation.ReflTransGen.cases_head hreach with heq | ⟨k, ⟨g, hg, l, hl, -⟩, -⟩
    · exact hne heq
    · simp [linksOf, hg] at hempty
      simp [hempty] at hl
  · exact absurd (reaches_le hback hreach) (Nat.not_le.mpr hlt)

private theorem merged_of_check {ids : List EntryID} (h : s.checkMerged lib ids = true) :
    ∀ i ∈ ids, ∃ g, s.netlist i = some g ∧ g.type.getOutNum lib = 1 := by
  simpa only [checkMerged, all_eq_true, Option.any_eq_true, decide_eq_true_eq] using h

theorem valid_of_check {op : Operation} (h : s.check lib op = true) : Valid lib s op := by
  cases op with
  | addInput => trivial
  | addCell t links => exact validLinks_of_check h
  | addOutput link => exact validLinks_of_check h
  | replace rhs iomapping =>
    simp only [check] at h
    split at h
    · rename_i l hl
      simp only [Bool.and_eq_true, decide_eq_true_eq, all_eq_true] at h
      obtain ⟨⟨⟨⟨⟨hwf, hin⟩, hout⟩, hroot⟩, hlinks⟩, hleaf⟩ := h
      exact ⟨l.idx, Subnet.wellFormed_of_check hwf, hin, hout, by simp [hl], hroot,
        fun k hk => ⟨(validLinks_of_check hlinks).netlist hk, not_reaches_of_check (hleaf k hk)⟩⟩
    · cases h
  | replaceCell i t links del =>
    simp only [check, Bool.and_eq_true, all_eq_true] at h
    exact ⟨h.1.1, validLinks_of_check h.1.2, fun l hl => not_reaches_of_check (h.2 l hl)⟩
  | mergeCells entryIDs =>
    simp only [check, Bool.and_eq_true] at h
    refine ⟨fun p hp i hi => merged_of_check h.1 i (mem_flatMap.mpr ⟨p, hp, hi⟩), id, ?_⟩
    rintro i j ⟨g, hg, l, hl, rfl⟩
    obtain ⟨g₀, hg₀, rfl⟩ := Option.map_eq_some_iff.mp hg
    obtain ⟨l₀, hl₀, rfl⟩ := mem_map.mp hl
    exact fanin_lt h.2 hg₀ hl₀
  | replaceWithZero ids => exact merged_of_check h
  | replaceWithOne ids => exact merged_of_check h
  | enableFanouts => cases h

/-- All cells have one entry. -/
def isNarrow (s : SubnetBuilder) : Bool :=
  (range s.size).all fun i => (s.getCell i).all fun c => decide (c.arity ≤ InPlaceLinks)

theorem le_of_isNarrow {c : SubnetCell} (h : s.isNarrow = true) (hc : s.getCell i = some c) :
    c.links.length ≤ InPlaceLinks := by
  simp only [isNarrow, all_eq_true, mem_range, Option.all_eq_true, decide_eq_true_eq] at h
  exact h i (getCell_eq_some.mp hc).1 c hc

theorem linksRead_of_isNarrow (h : s.isNarrow = true) : s.LinksRead := by
  intro i c hc j hj
  have hcell := getCell_of_live hc
  exact getLink_of_lt hcell hj (Nat.lt_of_lt_of_le hj (le_of_isNarrow h hcell))

theorem run_of_checkRun : ∀ {ops : List Operation} {s : SubnetBuilder}, Run lib (Valid lib) s →
    checkRun lib ops s = some s' → Run lib (Valid lib) s' := by
  intro ops
  induction ops with
  | nil =>
    intro s hs h
    cases h
    exact hs
  | cons op ops ih =>
    intro s hs h
    simp only [checkRun] at h
    split at h
    · rename_i hop
      obtain ⟨s₁, hs₁, h⟩ := Option.bind_eq_some_iff.mp h
      exact ih (.step hs (valid_of_check hop) hs₁) h
    · cases h

def build : List (CellTypeID × List Link) → SubnetBuilder → Option SubnetBuilder
  | [], s => some s
  | (t, links) :: cells, s =>
    if s.checkLinks links then (s.addCell t links).bind (fun p => build cells p.1) else none

theorem netOk_of_build : ∀ {cells : List (CellTypeID × List Link)} {s : SubnetBuilder}, NetOk s →
    build cells s = some s' → NetOk s' := by
  intro cells
  induction cells with
  | nil =>
    intro s hs h
    cases h
    exact hs
  | cons cell cells ih =>
    intro s hs h
    rw [build] at h
    split at h
    · rename_i hlinks
      obtain ⟨p, hadd, h⟩ := Option.bind_eq_some_iff.mp h
      exact ih (hs.addCell (validLinks_of_check hlinks) hadd) h
    · cases h

end SubnetBuilder

end UtopiaEda
