import UtopiaEda.SubnetCopying
import UtopiaEda.SubnetEncoding
import UtopiaEda.TableInterpolation
import Mathlib.Tactic.IntervalCases

/-!
# Arrival times

The delay of a mapped subnet is estimated in one pass over its entries. The delay of a cell comes
from the tables of the library; they are read at the largest delay of the sources and at the
capacitance of the output.
-/
namespace UtopiaEda.PpaEstimator

open List
open Option (bind_eq_bind bind_some map_some getD_some)

section
variable {K : Type} [Field K] [LinearOrder K]

structure InputPin (K : Type) where
  capacitance : K

structure OutputPin (K : Type) where
  delayFall : List (LUT K)
  delayRise : List (LUT K)
  slewFall : List (LUT K)
  slewRise : List (LUT K)

structure StandardCell (K : Type) where
  inputPins : List (InputPin K)
  outputPins : List (OutputPin K)

/-- `wireLength` has the lengths for the fanouts from one on. -/
structure WireLoadModel (K : Type) where
  capacitance : K
  slope : K
  wireLength : List K

structure SCLibrary (K : Type) where
  getCellPtr : CellTypeID → Option (StandardCell K)
  defaultWLM : Option (WireLoadModel K)

structure EstimatedSD (K : Type) where
  slew : K
  delay : K

def WireLoadModel.getFanoutLength (wlm : WireLoadModel K) (fanoutCount : ℕ) : Option K :=
  if fanoutCount = 0 then none
  else if wlm.wireLength.length < fanoutCount then do
    some (wlm.slope * ((fanoutCount - wlm.wireLength.length : ℕ) : K) * (← wlm.wireLength.getLast?))
  else wlm.wireLength[fanoutCount - 1]?

def WireLoadModel.getFanoutCapacitance (wlm : WireLoadModel K) (fanoutCount : ℕ) : Option K := do
  some ((← wlm.getFanoutLength fanoutCount) * wlm.capacitance)

def cellOutputCapEstimation (cell : StandardCell K) (fanout : ℕ) : K :=
  let capacitance := cell.inputPins.foldl (fun capacitance pin => capacitance + pin.capacitance) 0
  if cell.inputPins = [] then capacitance else
    capacitance / (cell.inputPins.length : K) * (fanout : K)

def getEstimatedOutCapacitance (cell : StandardCell K) (wlm : Option (WireLoadModel K))
    (fanout : ℕ) : Option K :=
  if fanout = 0 then some 0
  else
    let cellCap := cellOutputCapEstimation cell fanout
    match wlm with
    | none => some cellCap
    | some wlm => do some (cellCap + (← wlm.getFanoutCapacitance fanout))

def estimateArc (eqv : K → K → Bool) (inputTransTime outputTotalCap : K) (pin : OutputPin K)
    (sd : EstimatedSD K) (i : ℕ) : Option (EstimatedSD K) := do
  let pinDelayFall ← getLut2Value eqv (← pin.delayFall[i]?) inputTransTime outputTotalCap
  let pinDelayRise ← getLut2Value eqv (← pin.delayRise[i]?) inputTransTime outputTotalCap
  let pinSlewFall ← getLut2Value eqv (← pin.slewFall[i]?) inputTransTime outputTotalCap
  let pinSlewRise ← getLut2Value eqv (← pin.slewRise[i]?) inputTransTime outputTotalCap
  some ⟨max sd.slew (max pinSlewFall pinSlewRise), max sd.delay (max pinDelayFall pinDelayRise)⟩

/-- The largest delay and the largest slew over all timing arcs. -/
def cellOutputSDEstimation (eqv : K → K → Bool) (cell : StandardCell K)
    (inputTransTime outputTotalCap : K) : Option (EstimatedSD K) :=
  cell.outputPins.foldlM (fun sd pin =>
    (range pin.delayFall.length).foldlM (estimateArc eqv inputTransTime outputTotalCap pin) sd)
      ⟨0, 0⟩

def shouldSkipCell (c : SubnetCell) : Bool :=
  c.type = .IN || c.type = .OUT || c.type = .ONE || c.type = .ZERO

/-- The array `link` of a cell: there are links in it that are not used. -/
def slots (c : SubnetCell) : List Link :=
  c.links.take InPlaceLinks ++ replicate (InPlaceLinks - c.arity) ⟨0, 0, false⟩

/-- What is estimated for a cell of the type `t` whose sources have the delay `delay`. -/
def estimate (lib : CellLibrary) (library : SCLibrary K) (eqv : K → K → Bool) (t : CellTypeID)
    (delay : K) : Option (EstimatedSD K) := do
  let cellPtr ← library.getCellPtr t
  let fanoutCap ← getEstimatedOutCapacitance cellPtr library.defaultWLM (t.getOutNum lib)
  cellOutputSDEstimation eqv cellPtr delay fanoutCap

structure Times (K : Type) where
  arrivalMap : EntryID → Option K
  delayMap : EntryID → Option K
  maxArrivalTime : K

/-- The loop over the array `link`. -/
def Times.ofLinks (t : Times K) (links : List Link) : K × K :=
  links.foldl (fun p link =>
    match t.delayMap link.idx with
    | some d => (max p.1 d, max p.2 ((t.arrivalMap link.idx).getD 0))
    | none => p) (0, 0)

def Times.step (lib : CellLibrary) (library : SCLibrary K) (eqv : K → K → Bool) (i : EntryID)
    (c : SubnetCell) (t : Times K) : Option (Times K) :=
  if shouldSkipCell c then some t
  else do
    let (delay, arrival) := t.ofLinks (slots c)
    let sd ← estimate lib library eqv c.type delay
    some ⟨Function.update t.arrivalMap i (some (sd.slew + arrival)),
      Function.update t.delayMap i (some (sd.delay + delay)),
      max t.maxArrivalTime (sd.delay + delay)⟩

def timesLoop (lib : CellLibrary) (library : SCLibrary K) (eqv : K → K → Bool) (S : Subnet) :
    ℕ → EntryID → Times K → Option (Times K)
  | 0, i, t => if i < S.size then none else some t
  | n + 1, i, t =>
    if i < S.size then do
      let c ← S.getCell i
      timesLoop lib library eqv S n (i + (1 + c.more)) (← t.step lib library eqv i c)
    else some t

def getArrivalTime (lib : CellLibrary) (library : SCLibrary K) (eqv : K → K → Bool) (S : Subnet) :
    Option K := do
  let t ← timesLoop lib library eqv S S.size 0 ⟨fun _ => none, fun _ => none, 0⟩
  some t.maxArrivalTime

/-! ### Longest paths -/

/-- A technology cell. -/
def IsTech (S : Subnet) (i : EntryID) : Prop := ∃ c, S.getCell i = some c ∧ shouldSkipCell c = false

def maxDelay (D : EntryID → K) (links : List Link) : K := links.foldr (fun l m => max (D l.idx) m) 0

/-- `D` are the delays of the cells: that of a technology cell is estimated on top of the largest
delay of its sources, and there is no delay of the others. -/
structure Delays (lib : CellLibrary) (library : SCLibrary K) (eqv : K → K → Bool) (S : Subnet)
    (D : EntryID → K) :
    Prop where
  skipped : ∀ i c, S.getCell i = some c → shouldSkipCell c = true → D i = 0
  estimated : ∀ i c, S.getCell i = some c → shouldSkipCell c = false →
    ∃ sd, estimate lib library eqv c.type (maxDelay D c.links) = some sd ∧
    D i = sd.delay + maxDelay D c.links

/-- The largest of the delays of the technology cells before the entry `n`, and 0 if there is
none. -/
def IsLongest (S : Subnet) (D : EntryID → K) (n : ℕ) (r : K) : Prop :=
  (∀ i : ℕ, i < n → IsTech S i → D i ≤ r) ∧
    ((∃ i : ℕ, i < n ∧ IsTech S i ∧ D i = r) ∨ ((∀ i : ℕ, i < n → ¬ IsTech S i) ∧ r = 0))

def ownDelay (lib : CellLibrary) (library : SCLibrary K) (eqv : K → K → Bool) (S : Subnet)
    (D : EntryID → K) (i : EntryID) : K :=
  ((do (estimate lib library eqv (← S.getCell i).type (maxDelay D (← S.getCell i).links)).map EstimatedSD.delay :
    Option K)).getD 0

/-- Each cell is a source of a link of the next one, and all are technology cells. -/
def IsPath (S : Subnet) (path : List EntryID) : Prop :=
  (∀ i ∈ path, IsTech S i) ∧ path.IsChain fun i j => S.netlist.Fanin j i

/-- There is a path from `j` to `k` through technology cells. -/
def Leads (S : Subnet) : EntryID → EntryID → Prop :=
  Relation.ReflTransGen fun j k => IsTech S k ∧ S.netlist.Fanin k j

/-- The links behind the array `link` show no source that those in it do not see, and the unused
links in it none that the links do not see. -/
structure SlotsSuffice (S : Subnet) : Prop where
  behind : ∀ i c, S.getCell i = some c → shouldSkipCell c = false → ∀ l ∈ c.links, IsTech S l.idx →
    ∃ l' ∈ slots c, Leads S l.idx l'.idx
  unused : ∀ i c, S.getCell i = some c → shouldSkipCell c = false → ∀ l ∈ slots c, l.idx < i →
    IsTech S l.idx → ∃ l' ∈ c.links, Leads S l.idx l'.idx

variable {lib : CellLibrary} {library : SCLibrary K} {eqv : K → K → Bool} {S : Subnet}
  {D : EntryID → K} {t : Times K} {i j k : ℕ} {c : SubnetCell} {links : List Link} {r : K}

omit [Field K] in
private theorem le_foldlM {α : Type} {f : EstimatedSD K → α → Option (EstimatedSD K)}
    (h : ∀ sd a sd', f sd a = some sd' → sd.delay ≤ sd'.delay) : ∀ {l : List α}
    {sd sd' : EstimatedSD K}, l.foldlM f sd = some sd' → sd.delay ≤ sd'.delay := by
  intro l
  induction l with
  | nil =>
    intro sd sd' heq
    rw [foldlM_nil] at heq
    cases heq
    exact le_refl _
  | cons a l ih =>
    intro sd sd' heq
    rw [foldlM_cons] at heq
    obtain ⟨mid, hmid, hrest⟩ := Option.bind_eq_some_iff.mp heq
    exact (h sd a mid hmid).trans (ih hrest)

theorem estimateArc_le {inputTransTime outputTotalCap : K} {pin : OutputPin K}
    {sd sd' : EstimatedSD K} {n : ℕ} (h : estimateArc eqv inputTransTime outputTotalCap pin sd n =
    some sd') : sd.delay ≤ sd'.delay := by
  simp only [estimateArc, bind_eq_bind, Option.bind_eq_some_iff, Option.some.injEq] at h
  obtain ⟨_, -, _, -, _, -, _, -, _, -, _, -, _, -, _, -, rfl⟩ := h
  exact le_max_left _ _

theorem estimate_nonneg {d : K} {ty : CellTypeID} {sd : EstimatedSD K}
    (h : estimate lib library eqv ty d = some sd) : 0 ≤ sd.delay := by
  simp only [estimate, bind_eq_bind, Option.bind_eq_some_iff] at h
  obtain ⟨cell, -, cap, -, h⟩ := h
  exact le_foldlM (fun _ _ _ hpin => le_foldlM (fun _ _ _ => estimateArc_le) hpin) h

/-! ### The largest delay of the sources -/

theorem maxDelay_nonneg : 0 ≤ maxDelay D links := by
  induction links with
  | nil => exact le_refl _
  | cons l links ih => exact ih.trans (le_max_right _ _)

theorem le_maxDelay {l : Link} (h : l ∈ links) : D l.idx ≤ maxDelay D links := by
  induction links with
  | nil => cases h
  | cons _ links ih =>
    rcases mem_cons.mp h with rfl | hmem
    · exact le_max_left _ _
    · exact (ih hmem).trans (le_max_right _ _)

theorem maxDelay_le (hpos : 0 ≤ r) (h : ∀ l ∈ links, D l.idx ≤ r) : maxDelay D links ≤ r := by
  induction links with
  | nil => exact hpos
  | cons a links ih => exact max_le (h a mem_cons_self) (ih fun l hl => h l (mem_cons_of_mem a hl))

theorem ofLinks_fst :
    (t.ofLinks links).1 = maxDelay (fun j => (t.delayMap j).getD 0) links := by
  suffices hfold : ∀ p : K × K, 0 ≤ p.1 → (links.foldl (fun p link =>
      match t.delayMap link.idx with
      | some d => (max p.1 d, max p.2 ((t.arrivalMap link.idx).getD 0))
      | none => p) p).1 = max p.1 (maxDelay (fun j => (t.delayMap j).getD 0) links) by
    rw [Times.ofLinks, hfold _ (le_refl _)]
    exact max_eq_right maxDelay_nonneg
  induction links with
  | nil =>
    intro p hp
    exact (max_eq_left hp).symm
  | cons l links ih =>
    intro p hp
    rw [foldl_cons, maxDelay, foldr_cons]
    cases hd : t.delayMap l.idx with
    | none =>
      rw [ih _ hp, Option.getD_none]
      exact congrArg (max p.1) (max_eq_right maxDelay_nonneg).symm
    | some d =>
      rw [ih _ (hp.trans (le_max_left _ _)), getD_some]
      exact max_assoc _ _ _

/-! ### Delays -/

theorem Delays.eq_ownDelay (h : Delays lib library eqv S D) (hc : S.getCell i = some c)
    (hskip : shouldSkipCell c = false) : D i =
    ownDelay lib library eqv S D i + maxDelay D c.links := by
  obtain ⟨sd, hsd, hD⟩ := h.estimated i c hc hskip
  simp only [ownDelay, hc, bind_eq_bind, bind_some, hsd, map_some, getD_some]
  exact hD

theorem Delays.ownDelay_nonneg (h : Delays lib library eqv S D) (hi : IsTech S i) :
    0 ≤ ownDelay lib library eqv S D i := by
  obtain ⟨c, hc, hskip⟩ := hi
  obtain ⟨sd, hsd, hD⟩ := h.estimated i c hc hskip
  simp only [ownDelay, hc, bind_eq_bind, bind_some, hsd, map_some, getD_some]
  exact estimate_nonneg hsd

variable [IsStrictOrderedRing K]

theorem Delays.nonneg (h : Delays lib library eqv S D) (hc : S.getCell i = some c) : 0 ≤ D i := by
  cases hskip : shouldSkipCell c with
  | true => exact (h.skipped i c hc hskip).symm.le
  | false =>
    obtain ⟨sd, hsd, hD⟩ := h.estimated i c hc hskip
    rw [hD]
    exact add_nonneg (estimate_nonneg hsd) maxDelay_nonneg

theorem Delays.add_le (h : Delays lib library eqv S D) (hk : IsTech S k)
    (hjk : S.netlist.Fanin k j) : ownDelay lib library eqv S D k + D j ≤ D k := by
  obtain ⟨c, hc, hskip⟩ := hk
  obtain ⟨g, hg, l, hl, rfl⟩ := hjk
  simp only [Subnet.netlist, hc, map_some, Option.some.injEq] at hg
  subst hg
  rw [h.eq_ownDelay hc hskip]
  exact add_le_add_right (le_maxDelay hl) _

theorem Delays.le_of_leads (h : Delays lib library eqv S D) (hjk : Leads S j k) : D j ≤ D k := by
  induction hjk with
  | refl => exact le_refl _
  | tail _ hstep ih =>
    exact ih.trans ((le_add_of_nonneg_left (h.ownDelay_nonneg hstep.1)).trans
      (h.add_le hstep.1 hstep.2))

theorem Delays.sum_le (h : Delays lib library eqv S D) {path : List EntryID}
    (hpath : IsPath S (path ++ [i])) : ((path ++ [i]).map (ownDelay lib library eqv S D)).sum ≤
    D i := by
  induction path using reverseRecOn generalizing i with
  | nil =>
    obtain ⟨c, hc, hskip⟩ := hpath.1 i (mem_singleton_self i)
    rw [nil_append, map_singleton, sum_singleton, h.eq_ownDelay hc hskip]
    exact le_add_of_nonneg_right maxDelay_nonneg
  | append_singleton path j ih =>
    have hleft : IsPath S (path ++ [j]) :=
      ⟨fun k hk => hpath.1 k (mem_append_left _ hk), (isChain_append.mp hpath.2).1⟩
    have hlast : S.netlist.Fanin i j := (isChain_append.mp hpath.2).2.2 j (by simp) i (by simp)
    have hi : IsTech S i := hpath.1 i (mem_append_right _ (mem_singleton_self i))
    rw [map_append, sum_append, map_singleton, sum_singleton, add_comm]
    exact (add_le_add_right (ih hleft) _).trans (h.add_le hi hlast)

omit [IsStrictOrderedRing K] in
theorem maxDelay_congr {D' : EntryID → K} (h : ∀ l ∈ links, D l.idx = D' l.idx) :
    maxDelay D links = maxDelay D' links := by
  induction links with
  | nil => rfl
  | cons l links ih =>
    rw [maxDelay, maxDelay, foldr_cons, foldr_cons, h l mem_cons_self]
    exact congrArg (max (D' l.idx)) (ih fun l' hl' => h l' (mem_cons_of_mem l hl'))

omit [IsStrictOrderedRing K] in
theorem exists_delays (hS : S.WellFormed)
    (hest : ∀ i c, S.getCell i = some c → shouldSkipCell c = false →
    ∀ d, (estimate lib library eqv c.type d).isSome) : ∃ D, Delays lib library eqv S D := by
  let F : EntryID → (EntryID → K) → K := fun i ρ =>
    match S.getCell i with
    | some c =>
      if shouldSkipCell c then 0
      else ((estimate lib library eqv c.type (maxDelay ρ c.links)).map EstimatedSD.delay).getD
        0 + maxDelay ρ c.links
    | none => 0
  have hlocal : AcyclicSystems.Local S.netlist.Fanin F := by
    intro i ρ ρ' heq
    simp only [F]
    cases hc : S.getCell i with
    | none => rfl
    | some c =>
      have hmax : maxDelay ρ c.links = maxDelay ρ' c.links :=
        maxDelay_congr fun l hl =>
          heq l.idx ⟨⟨c.type, c.links⟩, by simp [Subnet.netlist, hc], l, hl, rfl⟩
      simp only [hmax]
  have : Inhabited K := ⟨0⟩
  obtain ⟨D, hD⟩ := AcyclicSystems.exists_solution (r := id) hlocal fun i j hij => (hS.fanin hij).1
  refine ⟨D, fun i c hc hskip => ?_, fun i c hc hskip => ?_⟩
  · rw [hD i]
    simp only [F, hc, hskip, if_true]
  · obtain ⟨sd, hsd⟩ := Option.isSome_iff_exists.mp (hest i c hc hskip (maxDelay D c.links))
    refine ⟨sd, hsd, ?_⟩
    rw [hD i]
    simp only [F, hc, hskip, Bool.false_eq_true, if_false, hsd, map_some, getD_some]

omit [IsStrictOrderedRing K] in
theorem Delays.unique {D' : EntryID → K} (hS : S.WellFormed) (h : Delays lib library eqv S D)
    (h' : Delays lib library eqv S D') : ∀ i c, S.getCell i = some c → D i = D' i := by
  intro i
  induction i using Nat.strong_induction_on with
  | _ i ih =>
    intro c hc
    cases hskip : shouldSkipCell c with
    | true => rw [h.skipped i c hc hskip, h'.skipped i c hc hskip]
    | false =>
      obtain ⟨sd, hsd, hD⟩ := h.estimated i c hc hskip
      obtain ⟨sd', hsd', hD'⟩ := h'.estimated i c hc hskip
      have hmax : maxDelay D c.links = maxDelay D' c.links := maxDelay_congr fun l hl => by
        obtain ⟨hlt, c', hc', -⟩ := hS.links i c hc l hl
        exact ih l.idx hlt c' hc'
      rw [hmax, hsd', Option.some.injEq] at hsd
      rw [hD, hD', hmax, hsd]

theorem Leads.isTech (h : Leads S j k) (hj : IsTech S j) : IsTech S k := by
  induction h with
  | refl => exact hj
  | tail _ hstep _ => exact hstep.1

/-! ### The pass -/

structure Tracks (S : Subnet) (D : EntryID → K) (i : ℕ) (t : Times K) : Prop where
  delay : ∀ j : ℕ, j < i → IsTech S j → t.delayMap j = some (D j)
  none : ∀ j : ℕ, ¬ (j < i ∧ IsTech S j) → t.delayMap j = none
  longest : IsLongest S D i t.maxArrivalTime

omit [IsStrictOrderedRing K] in
theorem Tracks.getD (h : Tracks S D i t) (hj : j < i) (ht : IsTech S j) :
    (t.delayMap j).getD 0 = D j := by
  rw [h.delay j hj ht, getD_some]

theorem mem_slots {l : Link} (h : l ∈ slots c) : l ∈ c.links ∨ l.idx = 0 := by
  rcases mem_append.mp h with hmem | hmem
  · exact .inl (mem_of_mem_take hmem)
  · exact .inr (congrArg Link.idx (eq_of_mem_replicate hmem))

/-- The array shows the largest delay of the sources. -/
theorem Tracks.ofLinks (h : Tracks S D i t) (hS : S.WellFormed) (hD : Delays lib library eqv S D)
    (hslots : SlotsSuffice S) (hc : S.getCell i = some c) (hskip : shouldSkipCell c = false) :
    (t.ofLinks (slots c)).1 = maxDelay D c.links := by
  rw [ofLinks_fst]
  apply le_antisymm
  · refine maxDelay_le maxDelay_nonneg fun l hl => ?_
    by_cases hl' : l.idx < i ∧ IsTech S l.idx
    · rw [h.getD hl'.1 hl'.2]
      obtain ⟨l', hmem, hleads⟩ := hslots.unused i c hc hskip l hl hl'.1 hl'.2
      exact (hD.le_of_leads hleads).trans (le_maxDelay hmem)
    · rw [h.none _ hl', Option.getD_none]
      exact maxDelay_nonneg
  · refine maxDelay_le maxDelay_nonneg fun l hl => ?_
    obtain ⟨hlt, c', hc', -⟩ := hS.links i c hc l hl
    cases hskip' : shouldSkipCell c' with
    | true => exact (hD.skipped _ c' hc' hskip').le.trans maxDelay_nonneg
    | false =>
      obtain ⟨l', hmem, hleads⟩ := hslots.behind i c hc hskip l hl ⟨c', hc', hskip'⟩
      have hbefore : l'.idx < i := by
        rcases mem_slots hmem with hlink | hzero
        · exact (hS.links i c hc l' hlink).1
        · rw [hzero]
          exact Nat.zero_lt_of_lt hlt
      have hstored := h.getD hbefore (hleads.isTech ⟨c', hc', hskip'⟩)
      exact (hD.le_of_leads hleads).trans
        (hstored.symm.le.trans (le_maxDelay (D := fun j => (t.delayMap j).getD 0) hmem))

theorem isTech_before_next (hS : S.Arranged) (hc : S.getCell i = some c) (hj : j < i + (1 + c.more))
    (ht : IsTech S j) : j < i ∨ j = i := by
  obtain ⟨c', hc', -⟩ := ht
  have hlt : j < i + c.more + 1 := by omega
  exact hS.before_next hc hc' hlt

theorem Tracks.step (h : Tracks S D i t) (hS : S.Arranged) (hD : Delays lib library eqv S D)
    (hslots : SlotsSuffice S) (hc : S.getCell i = some c) : ∃ t', t.step lib library eqv i c =
    some t' ∧ Tracks S D (i + (1 + c.more)) t' := by
  rw [Times.step]
  cases hskip : shouldSkipCell c with
  | true =>
    have hbefore : ∀ j : ℕ, IsTech S j → (j < i + (1 + c.more) ↔ j < i) := by
      intro j ht
      refine ⟨fun hj => ?_, fun hj => by omega⟩
      rcases isTech_before_next hS hc hj ht with hlt | rfl
      · exact hlt
      · obtain ⟨c', hc', hskip'⟩ := ht
        rw [hc, Option.some.injEq] at hc'
        rw [hc', hskip'] at hskip
        cases hskip
    refine ⟨t, rfl, fun j hj ht => h.delay j ((hbefore j ht).mp hj) ht,
      fun j hj => h.none j fun hlt => hj ?_, fun j hj ht => h.longest.1 j ((hbefore j ht).mp hj) ht,
      ?_⟩
    · exact ⟨(hbefore j hlt.2).mpr hlt.1, hlt.2⟩
    · rcases h.longest.2 with ⟨j, hj, ht, hr⟩ | ⟨hno, hr⟩
      · exact .inl ⟨j, by omega, ht, hr⟩
      · exact .inr ⟨fun j hj ht => hno j ((hbefore j ht).mp hj) ht, hr⟩
  | false =>
    obtain ⟨sd, hsd, hDi⟩ := hD.estimated i c hc hskip
    have hi : IsTech S i := ⟨c, hc, hskip⟩
    have hdelay : (t.ofLinks (slots c)).1 = maxDelay D c.links :=
      h.ofLinks hS.wellFormed hD hslots hc hskip
    have hpos : 0 ≤ D i := hD.nonneg hc
    simp only [Bool.false_eq_true, if_false, hdelay, hsd, bind_eq_bind, bind_some, ← hDi]
    refine ⟨_, rfl, fun j hj ht => ?_, fun j hj => ?_, fun j hj ht => ?_, ?_⟩
    · rcases isTech_before_next hS hc hj ht with hlt | rfl
      · exact (Function.update_of_ne hlt.ne _ _).trans (h.delay j hlt ht)
      · exact Function.update_self ..
    · have hne : j ≠ i := fun heq => hj ⟨by omega, heq ▸ hi⟩
      exact (Function.update_of_ne hne _ _).trans (h.none j fun hlt => hj ⟨by omega, hlt.2⟩)
    · rcases isTech_before_next hS hc hj ht with hlt | rfl
      · exact (h.longest.1 j hlt ht).trans (le_max_left _ _)
      · exact le_max_right _ _
    · left
      -- a delay is the largest one so far, or this one is
      rcases le_total (D i) t.maxArrivalTime with hle | hle
      · rcases h.longest.2 with ⟨j, hj, ht, hr⟩ | ⟨-, hr⟩
        · exact ⟨j, by omega, ht, hr.trans (max_eq_left hle).symm⟩
        · exact ⟨i, by omega, hi, (max_eq_right (hr ▸ hpos)).symm⟩
      · exact ⟨i, by omega, hi, (max_eq_right hle).symm⟩

theorem Tracks.timesLoop (hS : S.Arranged) (hD : Delays lib library eqv S D)
    (hslots : SlotsSuffice S) : ∀ {n i : ℕ} {t : Times K}, Tracks S D i t → S.size ≤ n + i →
    (i < S.size → (S.getCell i).isSome) →
      ∃ t' j, S.size ≤ j ∧ timesLoop lib library eqv S n i t = some t' ∧ Tracks S D j t' := by
  intro n
  induction n with
  | zero =>
    intro i t h hn _
    rw [Nat.zero_add] at hn
    rw [PpaEstimator.timesLoop, if_neg (Nat.not_lt.mpr hn)]
    exact ⟨t, i, hn, rfl, h⟩
  | succ n ih =>
    intro i t h hn hcell
    rw [PpaEstimator.timesLoop]
    by_cases hi : i < S.size
    · obtain ⟨c, hc⟩ := Option.isSome_iff_exists.mp (hcell hi)
      obtain ⟨t', ht', h'⟩ := h.step hS hD hslots hc
      rw [if_pos hi]
      simp only [hc, ht', bind_eq_bind, bind_some]
      refine ih h' (by omega) fun hnext => ?_
      have hsome := hS.following i c hc
      rw [Nat.add_assoc, Nat.add_comm c.more 1] at hsome
      exact hsome hnext
    · rw [if_neg hi]
      exact ⟨t, i, Nat.not_lt.mp hi, rfl, h⟩

/-- The pass finds the longest path if the array of each cell shows the largest delay of its
sources. -/
theorem getArrivalTime_longest (lib : CellLibrary) (library : SCLibrary K) (eqv : K → K → Bool)
    (S : Subnet) (hS : S.Arranged) (hslots : SlotsSuffice S) (D : EntryID → K)
    (hD : Delays lib library eqv S D) : ∃ r, getArrivalTime lib library eqv S = some r ∧
    IsLongest S D S.size r ∧
      ∀ path, IsPath S path → (path.map (ownDelay lib library eqv S D)).sum ≤ r := by
  have hinit : Tracks S D 0 (⟨fun _ => none, fun _ => none, 0⟩ : Times K) :=
    ⟨fun _ hj => absurd hj (Nat.not_lt_zero _), fun _ _ => rfl,
      fun _ hj => absurd hj (Nat.not_lt_zero _),
      .inr ⟨fun _ hj => absurd hj (Nat.not_lt_zero _), rfl⟩⟩
  obtain ⟨t, j, hj, ht, h⟩ := hinit.timesLoop hS hD hslots (n := S.size) (Nat.le_refl _) hS.first
  have hlt : ∀ {i : ℕ}, IsTech S i → i < S.size := fun ⟨_, hc, _⟩ => Subnet.lt_of_getCell hc
  have hlongest : IsLongest S D S.size t.maxArrivalTime := by
    refine ⟨fun i _ hi => h.longest.1 i (Nat.lt_of_lt_of_le (hlt hi) hj) hi, ?_⟩
    rcases h.longest.2 with ⟨i, -, hi, hr⟩ | ⟨hno, hr⟩
    · exact .inl ⟨i, hlt hi, hi, hr⟩
    · exact .inr ⟨fun i hi => hno i (Nat.lt_of_lt_of_le hi hj), hr⟩
  refine ⟨t.maxArrivalTime, by rw [getArrivalTime, ht]; rfl, hlongest, fun path hpath => ?_⟩
  rcases eq_nil_or_concat' path with rfl | ⟨rest, i, rfl⟩
  · rcases hlongest.2 with ⟨i, -, ⟨c, hc, -⟩, hr⟩ | ⟨-, hr⟩
    · exact hr ▸ hD.nonneg hc
    · exact hr.symm.le
  · have hi : IsTech S i := hpath.1 i (mem_append_right _ (mem_singleton_self i))
    exact (hD.sum_le hpath).trans (hlongest.1 i (hlt hi) hi)

end

/-! ### The fourth source -/

/-- A cell with one timing arc, delay 1 and slew 1. -/
def unitCell (n : ℕ) : StandardCell ℚ :=
  let lut := ⟨[[0, 1], [0, 1]], [1, 1, 1, 1]⟩
  ⟨.replicate n ⟨0⟩, [⟨[lut], [lut], [lut], [lut]⟩]⟩

/-- Two cells: a buffer and a conjunction of four inputs. -/
def unitLibrary : SCLibrary ℚ where
  getCellPtr
    | .soft 0 => some (unitCell 1)
    | .soft 1 => some (unitCell 4)
    | _ => none
  defaultWLM := none

def unitTypes : CellLibrary := ⟨fun _ => 1, fun _ xs _ => xs.all id⟩

def conjunction (sources : List Link) : Subnet :=
  ⟨3, 1, 6, 0, [.cell ⟨.IN, [], 2⟩, .cell ⟨.IN, [], 1⟩,
  .cell ⟨.IN, [], 1⟩, .cell ⟨.soft 0, [⟨0, 0, false⟩], 1⟩, .cell ⟨.soft 1, sources, 1⟩,
  .links (sources.drop 3), .cell ⟨.OUT, [⟨4, 0, false⟩], 0⟩]⟩

def bufferLast : Subnet := conjunction [⟨0, 0, false⟩, ⟨1, 0, false⟩, ⟨2, 0, false⟩, ⟨3, 0, false⟩]

def bufferFirst : Subnet := conjunction [⟨3, 0, false⟩, ⟨0, 0, false⟩, ⟨1, 0, false⟩, ⟨2, 0, false⟩]

def unitDelays (i : EntryID) : ℚ := if i = 3 then 1 else if i = 4 then 2 else 0

private theorem arranged_conjunction : bufferLast.Arranged ∧ bufferFirst.Arranged :=
  let types : List SubnetType := [⟨1, 1, ⟨0, 0, 0, 0, []⟩⟩, ⟨4, 1, ⟨0, 0, 0, 0, []⟩⟩]
  ⟨(SubnetEncoder.encodable_of_check (by decide) : bufferLast.Encodable types 2).arranged,
    (SubnetEncoder.encodable_of_check (by decide) : bufferFirst.Encodable types 2).arranged⟩

/-- An executable condition for `Delays`. -/
def checkDelays (lib : CellLibrary) (library : SCLibrary ℚ) (eqv : ℚ → ℚ → Bool) (S : Subnet)
    (D : EntryID → ℚ) : Bool :=
  (range S.size).all fun i => (S.getCell i).all fun c =>
    if shouldSkipCell c then decide (D i = 0)
    else decide ((estimate lib library eqv c.type (maxDelay D c.links)).map
      (fun sd => sd.delay + maxDelay D c.links) = some (D i))

theorem delays_of_check {lib : CellLibrary} {library : SCLibrary ℚ} {eqv : ℚ → ℚ → Bool}
    {S : Subnet} {D : EntryID → ℚ} (h : checkDelays lib library eqv S D = true) :
    Delays lib library eqv S D := by
  simp only [checkDelays, all_eq_true, mem_range, Option.all_eq_true] at h
  refine ⟨fun i c hc hskip => ?_, fun i c hc hskip => ?_⟩
  · have hcell := h i (Subnet.lt_of_getCell hc) c hc
    rw [if_pos hskip] at hcell
    exact of_decide_eq_true hcell
  · have hcell := h i (Subnet.lt_of_getCell hc) c hc
    rw [hskip, if_neg Bool.false_ne_true] at hcell
    obtain ⟨sd, hsd, hD⟩ := Option.map_eq_some_iff.mp (of_decide_eq_true hcell)
    exact ⟨sd, hsd, hD.symm⟩

private theorem isTech_bufferFirst {i : ℕ} (h : IsTech bufferFirst i) : i = 3 ∨ i = 4 := by
  obtain ⟨c, hc, hskip⟩ := h
  have hlt : i < 7 := Subnet.lt_of_getCell hc
  interval_cases i <;> cases hc <;> first | exact absurd hskip (by decide) | decide

private theorem slotsSuffice_bufferFirst : SlotsSuffice bufferFirst := by
  have hidx : ∀ {ls : List Link} {l : Link}, (∀ l' ∈ ls, l'.idx ≠ 3 ∧ l'.idx ≠ 4) → l ∈ ls →
      ¬ IsTech bufferFirst l.idx := by
    intro ls l hls hl ht
    rcases isTech_bufferFirst ht with h | h
    · exact (hls l hl).1 h
    · exact (hls l hl).2 h
  have hbuffer : ∀ {ls : List Link} {l : Link}, (∀ l' ∈ ls, l'.idx ≠ 4) → l ∈ ls →
      IsTech bufferFirst l.idx → Leads bufferFirst l.idx 3 := by
    intro ls l hls hl ht
    rcases isTech_bufferFirst ht with h | h
    · exact h ▸ Relation.ReflTransGen.refl
    · exact absurd h (hls l hl)
  refine ⟨fun i c hc hskip l hl ht => ?_, fun i c hc hskip l hl _ ht => ?_⟩
  all_goals
    rcases isTech_bufferFirst ⟨c, hc, hskip⟩ with rfl | rfl
    · cases hc
      exact absurd ht (hidx (by decide) hl)
    · cases hc
      exact ⟨⟨3, 0, false⟩, by decide, hbuffer (by decide) hl ht⟩

/-- The buffer in front is seen: the conjunction is ready at 2. -/
theorem getArrivalTime_bufferFirst :
    ∃ r, getArrivalTime unitTypes unitLibrary exactly bufferFirst = some r ∧
    IsLongest bufferFirst unitDelays 7 r ∧
      ∀ path, IsPath bufferFirst path →
      (path.map (ownDelay unitTypes unitLibrary exactly bufferFirst unitDelays)).sum ≤ r :=
  getArrivalTime_longest unitTypes unitLibrary exactly bufferFirst arranged_conjunction.2
    slotsSuffice_bufferFirst unitDelays (delays_of_check (by decide +kernel))

/-- The buffer at the end is not: the pass finds 1 where the longest path takes 2. -/
theorem not_getArrivalTime_longest : ¬ ∀ (S : Subnet) (D : EntryID → ℚ), S.Arranged →
    Delays unitTypes unitLibrary exactly S D →
    ∃ r, getArrivalTime unitTypes unitLibrary exactly S = some r ∧ IsLongest S D S.size r := by
  intro h
  obtain ⟨r, hr, hle, -⟩ := h bufferLast unitDelays arranged_conjunction.1
    (delays_of_check (by decide +kernel))
  have hfound : getArrivalTime unitTypes unitLibrary exactly bufferLast = some 1 := by
    decide +kernel
  rw [hfound, Option.some.injEq] at hr
  have htwo : unitDelays 4 ≤ r := hle 4 (by decide) ⟨_, rfl, rfl⟩
  rw [← hr] at htwo
  exact absurd htwo (by decide +kernel)

end UtopiaEda.PpaEstimator
