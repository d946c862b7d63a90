import UtopiaEda.ComponentSubnets

/-!
# The arcs between the subnets of a design

Subnets of a net are connected by flip-flops, latches and blocks, and with the inputs and outputs of
the net. The arcs are found by the descriptors of the inputs and outputs of the subnets.
-/
namespace UtopiaEda.DesignArcs

open List
open Option (bind_eq_bind bind_some)
open NetDecomposer

/-- The entries of a design, and the virtual ones for the inputs and the outputs of the net. -/
inductive SubnetIdx where
  | entry (i : ℕ)
  | PISubnetEntryIdx
  | POSubnetEntryIdx
deriving DecidableEq

def flipFlopPIs (desc : SubnetDesc) : Option (List ℕ) :=
  (range desc.subnet.nIn).foldlM (fun ids inN => do
    let inEntryDesc ← desc.entryToDesc (desc.subnet.getInIdx inN)
    some (if inEntryDesc.flipFlop then ids.insert inEntryDesc.flipFlopID else ids)) []

def findFlipFlopPIs (subnets : List SubnetDesc) : Option (List (List ℕ)) := subnets.mapM flipFlopPIs

/-- The adjacency lists with their descriptors; vectors are functions of the index. -/
structure Arcs where
  adjList : ℕ → List SubnetIdx := fun _ => []
  arcDesc : ℕ → SubnetIdx → Option SignalType := fun _ _ => none

def Arcs.insert (arcs : Arcs) (j : ℕ) (x : SubnetIdx) (desc : SignalType) : Arcs where
  adjList := Function.update arcs.adjList j ((arcs.adjList j).insert x)
  arcDesc := Function.update arcs.arcDesc j (Function.update (arcs.arcDesc j) x (some desc))

def hasType (net : Net) (p : NetCellType → Bool) (cellID : ℕ) : Bool :=
  (net.cells cellID).any fun cell => p cell.type

def getPIConnectionEntry (net : Net) (desc : SubnetDesc) : Option EntryID :=
  (desc.mapping.inputs.entries.find? fun entry => hasType net NetCellType.isIn
    entry.1.source.cellID).map Sigma.snd

def getPOConnectionEntry (net : Net) (desc : SubnetDesc) : Option EntryID :=
  (desc.mapping.outputs.entries.find? fun entry => hasType net NetCellType.isOut
    entry.1.target.cellID).map Sigma.snd

def addVirtual (desc : SubnetDesc) (i : ℕ) (x : SubnetIdx) (linking : Option EntryID)
    (arcs : Arcs) : Option Arcs :=
  match linking with
  | some idx => do some (arcs.insert i x (← desc.entryToDesc idx).connectionDesc)
  | none => some arcs

def addReaders (i : ℕ) (flipFlopID : ℕ) (connectionDesc : SignalType) :
    List (List ℕ) → ℕ → Arcs → Arcs
  | [], _, arcs => arcs
  | ids :: rest, j, arcs =>
    addReaders i flipFlopID connectionDesc rest (j + 1)
      (if flipFlopID ∈ ids then arcs.insert j (.entry i) connectionDesc else arcs)

def visitOutput (net : Net) (flipFlopPIs : List (List ℕ)) (desc : SubnetDesc) (i outN : ℕ)
    (arcs : Arcs) : Option Arcs := do
  let outDesc ← desc.entryToDesc (desc.subnet.getOutIdx outN)
  let arcs ← addVirtual desc i .PISubnetEntryIdx (getPIConnectionEntry net desc) arcs
  let arcs ← addVirtual desc i .POSubnetEntryIdx (getPOConnectionEntry net desc) arcs
  if outDesc.flipFlop then some (addReaders i outDesc.flipFlopID outDesc.connectionDesc
    flipFlopPIs 0 arcs)
  else some arcs

/-- The loop over the outputs. Its counter has 16 bits: if it has not ended after as many steps, it
never ends. -/
def visitOutputs (net : Net) (flipFlopPIs : List (List ℕ)) (desc : SubnetDesc) (i : ℕ) :
    ℕ → ℕ → Arcs → Option Arcs
  | 0, _, _ => none
  | n + 1, outN, arcs =>
    if outN < desc.subnet.nOut then do
      visitOutputs net flipFlopPIs desc i n ((outN + 1) % 2 ^ 16)
        (← visitOutput net flipFlopPIs desc i outN arcs)
    else some arcs

def findArcsLoop (net : Net) (flipFlopPIs : List (List ℕ)) :
    List SubnetDesc → ℕ → Arcs → Option Arcs
  | [], _, arcs => some arcs
  | desc :: rest, i, arcs => do
    findArcsLoop net flipFlopPIs rest (i + 1)
      (← visitOutputs net flipFlopPIs desc i (2 ^ 16 + 1) 0 arcs)

def findArcs (net : Net) (subnets : List SubnetDesc) (flipFlopPIs : List (List ℕ)) : Option Arcs :=
  findArcsLoop net flipFlopPIs subnets 0 {}

structure SubnetEntry where
  subnetID : Subnet
  /-- Connected input subnets. -/
  arcs : List ℕ := []
  arcToDesc : ℕ → Option SignalType := fun _ => none
  /-- Net's primary inputs connection flag. -/
  connectedPI : Bool := false
  PIArcDesc : Option SignalType := none
  /-- Net's primary outputs connection flag. -/
  connectedPO : Bool := false
  POArcDesc : Option SignalType := none

def SubnetEntry.addArcs (arcToDesc : SubnetIdx → Option SignalType) :
    List SubnetIdx → SubnetEntry → Option SubnetEntry
  | [], entry => some entry
  | x :: rest, entry => do
    let desc ← arcToDesc x
    addArcs arcToDesc rest (match x with
      | .PISubnetEntryIdx => { entry with connectedPI := true, PIArcDesc := some desc }
      | .POSubnetEntryIdx => { entry with connectedPO := true, POArcDesc := some desc }
      | .entry i => { entry with arcs := entry.arcs.insert i, arcToDesc := Function.update entry.arcToDesc i (some desc) })

/-- The loop of `setEntries`. -/
def setEntriesLoop (arcs : Arcs) : List SubnetDesc → ℕ → Option (List SubnetEntry)
  | [], _ => some []
  | desc :: rest, i => do
    let entry ← SubnetEntry.addArcs (arcs.arcDesc i) (arcs.adjList i) { subnetID := desc.subnet }
    some (entry :: (← setEntriesLoop arcs rest (i + 1)))

/-- The entries of the design: `setAdjList` and `setEntries`. -/
def makeEntries (net : Net) (result : Result) : Option (List SubnetEntry) := do
  let flipFlopPIs ← findFlipFlopPIs result.subnets
  setEntriesLoop (← findArcs net result.subnets flipFlopPIs) result.subnets 0

def construct (net : Net) (types : List SubnetType) (order : List NetLink → List NetLink)
    (fuel : ℕ) : Option (List SubnetEntry) := do
  makeEntries net (← decompose net types order fuel)

/-! ### Descriptors -/

def Sequential (net : Net) (cellID : ℕ) : Prop :=
  ∃ cell, net.cells cellID = some cell ∧ cell.type.isCombinational = false

variable {net : Net} {component : NetComponent} {desc : SubnetDesc} {arcs arcs' : Arcs}
  {x y : SubnetIdx} {i j k n outN cellID : ℕ} {ffs : List (List ℕ)}

private theorem mem_foldlM_flipFlops (desc : SubnetDesc) :
    ∀ (L ids : List ℕ), (∀ k ∈ L, (desc.entryToDesc k).isSome) → ∃ ids', L.foldlM (fun ids inN => do
        let inEntryDesc ← desc.entryToDesc (desc.subnet.getInIdx inN)
        some (if inEntryDesc.flipFlop then ids.insert inEntryDesc.flipFlopID else ids)) ids =
          some ids' ∧
      ∀ c, c ∈ ids' ↔ c ∈ ids ∨ ∃ k ∈ L, ∃ d, desc.entryToDesc k = some d ∧ d.flipFlop = true ∧
        d.flipFlopID = c := by
  intro L
  induction L with
  | nil => exact fun ids _ => ⟨_, rfl, fun c => by simp⟩
  | cons k L ih =>
    intro ids h
    obtain ⟨d, hd⟩ := Option.isSome_iff_exists.mp (h k mem_cons_self)
    obtain ⟨ids', hids', hmem⟩ := ih (if d.flipFlop then ids.insert d.flipFlopID else ids)
      fun k' hk' => h k' (mem_cons_of_mem k hk')
    refine ⟨ids', ?_, fun c => ?_⟩
    · rw [foldlM_cons, Subnet.getInIdx, hd, bind_eq_bind, bind_eq_bind, bind_some, bind_some]
      exact hids'
    · have hhead : (c ∈ if d.flipFlop then ids.insert d.flipFlopID else ids) ↔
          c ∈ ids ∨ (d.flipFlop = true ∧ d.flipFlopID = c) := by
        cases d.flipFlop
        · simp
        · simp [mem_insert_iff, or_comm, eq_comm]
      rw [hmem, hhead, exists_mem_cons_iff, hd]
      simp [or_assoc]

theorem exists_flipFlopIDs (h : Described net component desc) : ∃ ids, flipFlopPIs desc = some ids ∧
    ∀ c, c ∈ ids ↔ Sequential net c ∧ ∃ l ∈ component.inputs, l.source.cellID = c := by
  obtain ⟨ids, hids, hmem⟩ := mem_foldlM_flipFlops desc (range desc.subnet.nIn)
    [] fun k hk => by
    obtain ⟨l, -, cell, d, -, hd, -⟩ := h.inputDesc k (mem_range.mp hk)
    rw [hd]
    rfl
  refine ⟨ids, hids, fun c => (hmem c).trans ⟨?_, ?_⟩⟩
  · rintro (hnil | ⟨k, hk, d, hd, hflag, rfl⟩)
    · cases hnil
    · obtain ⟨l, hl, cell, d', hcell, hd', hcomb, hid⟩ := h.inputDesc k (mem_range.mp hk)
      cases hd.symm.trans hd'
      rw [hid hflag]
      exact ⟨⟨cell, hcell, by rw [hcomb] at hflag; simpa using hflag⟩, l, hl, rfl⟩
  · rintro ⟨⟨cell, hcell, hcomb⟩, l, hl, rfl⟩
    obtain ⟨k, hk, cell', d, hcell', hd, hflag, hid⟩ := h.input l hl
    cases hcell.symm.trans hcell'
    rw [hcomb] at hflag
    exact .inr ⟨k, mem_range.mpr hk, d, hd, hflag, hid hflag⟩

/-! ### The adjacency lists -/

theorem Arcs.mem_insert {d : SignalType} :
    x ∈ (arcs.insert j y d).adjList k ↔ (k = j ∧ x = y) ∨ x ∈ arcs.adjList k := by
  simp only [Arcs.insert, Function.update_apply]
  by_cases hk : k = j
  · subst hk
    simp [mem_insert_iff]
  · simp [hk]

def Arcs.Full (arcs : Arcs) : Prop := ∀ j, ∀ x ∈ arcs.adjList j, (arcs.arcDesc j x).isSome

theorem Arcs.Full.insert (h : arcs.Full) (j : ℕ) (y : SubnetIdx) (d : SignalType) :
    (arcs.insert j y d).Full := by
  intro k x hx
  rw [Arcs.mem_insert] at hx
  simp only [Arcs.insert, Function.update_apply]
  by_cases hk : k = j
  · subst hk
    rw [if_pos rfl, Function.update_apply]
    by_cases hxy : x = y
    · rw [if_pos hxy]
      rfl
    · rw [if_neg hxy]
      exact h k x (hx.resolve_left fun hx => hxy hx.2)
  · rw [if_neg hk]
    exact h k x (hx.resolve_left fun hx => hk hx.1)

structure Extends (arcs arcs' : Arcs) (P : ℕ → SubnetIdx → Prop) : Prop where
  full : arcs.Full → arcs'.Full
  mem : ∀ k x, x ∈ arcs'.adjList k ↔ x ∈ arcs.adjList k ∨ P k x

theorem Extends.refl (arcs : Arcs) : Extends arcs arcs fun _ _ => False := ⟨id, fun k x => by simp⟩

theorem Extends.insert (arcs : Arcs) (j : ℕ) (y : SubnetIdx) (d : SignalType) :
    Extends arcs (arcs.insert j y d) fun k x => k = j ∧ x = y :=
  ⟨fun h => h.insert j y d, fun _ _ => Arcs.mem_insert.trans or_comm⟩

theorem Extends.trans {arcs'' : Arcs} {P Q : ℕ → SubnetIdx → Prop} (h : Extends arcs arcs' P)
    (h' : Extends arcs' arcs'' Q) : Extends arcs arcs'' fun k x => P k x ∨ Q k x :=
  ⟨fun hfull => h'.full (h.full hfull), fun k x => by rw [h'.mem, h.mem, or_assoc]⟩

theorem Extends.congr {P Q : ℕ → SubnetIdx → Prop} (h : Extends arcs arcs' P)
    (hPQ : ∀ k x, P k x ↔ Q k x) : Extends arcs arcs' Q := ⟨h.full, fun k x => by rw [h.mem, hPQ]⟩

theorem extends_addReaders (i cellID : ℕ) (d : SignalType) :
    ∀ (ffs : List (List ℕ)) (j : ℕ) (arcs : Arcs), Extends arcs (addReaders i cellID d ffs j arcs)
    fun k x => x = .entry i ∧ ∃ m, k = j + m ∧ ∃ ids, ffs[m]? = some ids ∧ cellID ∈ ids := by
  intro ffs
  induction ffs with
  | nil =>
    intro j arcs
    exact (Extends.refl arcs).congr fun k x => by simp
  | cons ids ffs ih =>
    intro j arcs
    have hhead : Extends arcs (if cellID ∈ ids then arcs.insert j (.entry i) d else arcs) fun k x =>
        (k = j ∧ x = .entry i) ∧ cellID ∈ ids := by
      split
      · exact (Extends.insert arcs j (.entry i) d).congr fun k x => by simp [*]
      · exact (Extends.refl arcs).congr fun k x => by simp [*]
    refine (hhead.trans (ih (j + 1) _)).congr fun k x => ⟨?_, ?_⟩
    · rintro (⟨⟨rfl, rfl⟩, hmem⟩ | ⟨rfl, m, rfl, ids', hids', hmem⟩)
      · exact ⟨rfl, 0, rfl, ids, rfl, hmem⟩
      · exact ⟨rfl, m + 1, by omega, ids', hids', hmem⟩
    · rintro ⟨rfl, m, rfl, ids', hids', hmem⟩
      cases m with
      | zero =>
        cases hids'
        exact .inl ⟨⟨rfl, rfl⟩, hmem⟩
      | succ m => exact .inr ⟨rfl, m, by omega, ids', hids', hmem⟩

def AddsVirtual (i : ℕ) (y : SubnetIdx) (linked : Prop) (k : ℕ) (x : SubnetIdx) : Prop :=
  k = i ∧ x = y ∧ linked

theorem exists_addVirtual {linking : Option EntryID}
    (h : ∀ idx ∈ linking, (desc.entryToDesc idx).isSome) (i : ℕ) (y : SubnetIdx)
    (arcs : Arcs) : ∃ arcs', addVirtual desc i y linking arcs = some arcs' ∧
      Extends arcs arcs' (AddsVirtual i y (linking.isSome = true)) := by
  cases linking with
  | none => exact ⟨arcs, rfl, (Extends.refl arcs).congr fun k x => by simp [AddsVirtual]⟩
  | some idx =>
    obtain ⟨d, hd⟩ := Option.isSome_iff_exists.mp (h idx rfl)
    refine ⟨_, by rw [addVirtual, hd]; rfl, (Extends.insert arcs i y d.connectionDesc).congr fun k x => by simp [AddsVirtual]⟩

def ReadsInput (net : Net) (component : NetComponent) : Prop :=
  ∃ l ∈ component.inputs, hasType net NetCellType.isIn l.source.cellID = true

def DrivesOutput (net : Net) (component : NetComponent) : Prop :=
  ∃ o ∈ component.outputs, hasType net NetCellType.isOut o.target.cellID = true

theorem getPIConnectionEntry_isSome (h : Described net component desc) :
    (∀ idx ∈ getPIConnectionEntry net desc, (desc.entryToDesc idx).isSome) ∧
      ((getPIConnectionEntry net desc).isSome = true ↔ ReadsInput net component) := by
  refine ⟨fun idx hidx => ?_, ?_⟩
  · obtain ⟨entry, hentry, rfl⟩ := Option.map_eq_some_iff.mp hidx
    exact (h.mappedInput entry (mem_of_find?_eq_some hentry)).2
  · rw [getPIConnectionEntry, Option.isSome_map, find?_isSome]
    constructor
    · rintro ⟨entry, hentry, htype⟩
      obtain ⟨l, hl, heq⟩ := (h.mappedInput entry hentry).1
      exact ⟨l, hl, heq ▸ htype⟩
    · rintro ⟨l, hl, htype⟩
      obtain ⟨entry, hentry, heq⟩ := h.inputMapped l hl
      exact ⟨entry, hentry, heq ▸ htype⟩

theorem getPOConnectionEntry_isSome (h : Described net component desc) :
    (∀ idx ∈ getPOConnectionEntry net desc, (desc.entryToDesc idx).isSome) ∧
      ((getPOConnectionEntry net desc).isSome = true ↔ DrivesOutput net component) := by
  refine ⟨fun idx hidx => ?_, ?_⟩
  · obtain ⟨entry, hentry, rfl⟩ := Option.map_eq_some_iff.mp hidx
    exact (h.mappedOutput entry (mem_of_find?_eq_some hentry)).2
  · rw [getPOConnectionEntry, Option.isSome_map, find?_isSome]
    constructor
    · rintro ⟨entry, hentry, htype⟩
      obtain ⟨l, hl, heq⟩ := (h.mappedOutput entry hentry).1
      exact ⟨l, hl, heq ▸ htype⟩
    · rintro ⟨l, hl, htype⟩
      obtain ⟨entry, hentry, heq⟩ := h.outputMapped l hl
      exact ⟨entry, hentry, heq ▸ htype⟩

/-- What a visit of the output `outN` adds. -/
def Adds (net : Net) (component : NetComponent) (ffs : List (List ℕ)) (desc : SubnetDesc)
    (i outN k : ℕ) (x : SubnetIdx) : Prop :=
  AddsVirtual i .PISubnetEntryIdx (ReadsInput net component) k x ∨
    AddsVirtual i .POSubnetEntryIdx (DrivesOutput net component) k x ∨
    (x = .entry i ∧ ∃ d, desc.entryToDesc (desc.subnet.getOutIdx outN) = some d ∧
      d.flipFlop = true ∧ ∃ ids, ffs[k]? = some ids ∧ d.flipFlopID ∈ ids)

theorem exists_visitOutput (h : Described net component desc) (ffs : List (List ℕ)) (i : ℕ)
    (hk : outN < desc.subnet.nOut) (arcs : Arcs) : ∃ arcs', visitOutput net ffs desc i outN arcs =
    some arcs' ∧
      Extends arcs arcs' (Adds net component ffs desc i outN) := by
  obtain ⟨o, -, cell, d, -, hd, -⟩ := h.outputDesc outN hk
  obtain ⟨hpi, hpiff⟩ := getPIConnectionEntry_isSome h
  obtain ⟨hpo, hpoff⟩ := getPOConnectionEntry_isSome h
  obtain ⟨arcs₁, h₁, hext₁⟩ := exists_addVirtual hpi i .PISubnetEntryIdx arcs
  obtain ⟨arcs₂, h₂, hext₂⟩ := exists_addVirtual hpo i .POSubnetEntryIdx arcs₁
  have hvirtual := hext₁.trans hext₂
  have hstep : visitOutput net ffs desc i outN arcs =
      if d.flipFlop then some (addReaders i d.flipFlopID d.connectionDesc ffs 0 arcs₂) else
      some arcs₂ := by
    rw [DesignArcs.visitOutput, hd, bind_eq_bind, bind_some, h₁, bind_eq_bind, bind_some, h₂,
      bind_some]
  rw [hstep]
  cases hflag : d.flipFlop with
  | false =>
    refine ⟨arcs₂, rfl, hvirtual.congr fun k x => ?_⟩
    simp only [Adds, AddsVirtual, hpiff, hpoff, hd, Option.some.injEq, exists_eq_left', hflag,
      Bool.false_eq_true, false_and, and_false, or_false]
  | true =>
    refine ⟨_, rfl, (hvirtual.trans (extends_addReaders i d.flipFlopID d.connectionDesc ffs 0 arcs₂)).congr fun k x => ?_⟩
    simp only [Adds, AddsVirtual, hpiff, hpoff, hd, Option.some.injEq, exists_eq_left', hflag,
      true_and, Nat.zero_add, or_assoc]

theorem exists_visitOutputs (h : Described net component desc) (ffs : List (List ℕ)) (i : ℕ)
    (hlt : desc.subnet.nOut < 2 ^ 16) : ∀ (n outN : ℕ) (arcs : Arcs), desc.subnet.nOut - outN < n →
    outN ≤ desc.subnet.nOut →
      ∃ arcs', visitOutputs net ffs desc i n outN arcs = some arcs' ∧
        Extends arcs arcs' fun k x => ∃ m, outN ≤ m ∧ m < desc.subnet.nOut ∧
        Adds net component ffs desc i m k x := by
  intro n
  induction n with
  | zero => exact fun _ _ h => absurd h (Nat.not_lt_zero _)
  | succ n ih =>
    intro outN arcs hn hle
    rw [visitOutputs]
    by_cases hout : outN < desc.subnet.nOut
    · obtain ⟨arcs₁, h₁, hext₁⟩ := exists_visitOutput h ffs i hout arcs
      have hmod : (outN + 1) % 2 ^ 16 = outN + 1 := Nat.mod_eq_of_lt (by omega)
      obtain ⟨arcs', h', hext'⟩ := ih (outN + 1) arcs₁ (by omega) hout
      refine ⟨arcs', ?_, (hext₁.trans hext').congr fun k x => ⟨?_, ?_⟩⟩
      · rw [if_pos hout, h₁, bind_eq_bind, bind_some, hmod]
        exact h'
      · rintro (hadd | ⟨m, hm, hlt, hadd⟩)
        · exact ⟨outN, Nat.le_refl _, hout, hadd⟩
        · exact ⟨m, by omega, hlt, hadd⟩
      · rintro ⟨m, hm, hlt, hadd⟩
        rcases hm.eq_or_lt with rfl | hm
        · exact .inl hadd
        · exact .inr ⟨m, hm, hlt, hadd⟩
    · rw [if_neg hout]
      exact ⟨arcs, rfl, (Extends.refl arcs).congr fun k x => ⟨False.elim,
        fun ⟨m, hm, hlt, _⟩ => by omega⟩⟩

/-- The counter never gets to `2 ^ 16` outputs. -/
theorem visitOutputs_eq_none (hle : 2 ^ 16 ≤ desc.subnet.nOut) :
    ∀ {n outN : ℕ} {arcs : Arcs}, outN < 2 ^ 16 → visitOutputs net ffs desc i n outN arcs =
    none := by
  intro n
  induction n with
  | zero => exact fun _ => rfl
  | succ n ih =>
    intro outN arcs hout
    rw [visitOutputs, if_pos (by omega)]
    cases visitOutput net ffs desc i outN arcs with
    | none => rfl
    | some arcs' => exact ih (Nat.mod_lt _ (by decide))

def AddsFrom (net : Net) (ffs : List (List ℕ)) (components : List NetComponent) (i k : ℕ)
    (x : SubnetIdx) : Prop :=
  ∃ m component, components[m]? = some component ∧
    (AddsVirtual (i + m) .PISubnetEntryIdx (ReadsInput net component) k x ∨
      AddsVirtual (i + m) .POSubnetEntryIdx (DrivesOutput net component) k x ∨
      (x = .entry (i + m) ∧ ∃ o ∈ component.outputs, Sequential net o.target.cellID ∧
        ∃ ids, ffs[k]? = some ids ∧ o.target.cellID ∈ ids))

theorem adds_iff (h : Described net component desc) (k : ℕ) (x : SubnetIdx) :
    (∃ m, 0 ≤ m ∧ m < desc.subnet.nOut ∧ Adds net component ffs desc i m k x) ↔
      AddsVirtual i .PISubnetEntryIdx (ReadsInput net component) k x ∨
        AddsVirtual i .POSubnetEntryIdx (DrivesOutput net component) k x ∨
        (x = .entry i ∧ ∃ o ∈ component.outputs, Sequential net o.target.cellID ∧
          ∃ ids, ffs[k]? = some ids ∧ o.target.cellID ∈ ids) := by
  have hpos : 0 < desc.subnet.nOut := h.nOut ▸ length_pos_iff.mpr h.outputs_ne
  constructor
  · rintro ⟨m, -, hm, hpi | hpo | ⟨hx, d, hd, hflag, ids, hids, hmem⟩⟩
    · exact .inl hpi
    · exact .inr (.inl hpo)
    · obtain ⟨o, ho, cell, d', hcell, hd', hcomb, hid⟩ := h.outputDesc m hm
      cases hd.symm.trans hd'
      rw [hid hflag] at hmem
      rw [hflag] at hcomb
      exact .inr (.inr ⟨hx, o, ho, ⟨cell, hcell, by simpa using hcomb.symm⟩, ids, hids, hmem⟩)
  · rintro (hpi | hpo | ⟨hx, o, ho, ⟨cell, hcell, hcomb⟩, ids, hids, hmem⟩)
    · exact ⟨0, Nat.le_refl _, hpos, .inl hpi⟩
    · exact ⟨0, Nat.le_refl _, hpos, .inr (.inl hpo)⟩
    · obtain ⟨m, hm, cell', d, hcell', hd, hflag, hid⟩ := h.output o ho
      cases hcell.symm.trans hcell'
      rw [hcomb] at hflag
      exact ⟨m, Nat.zero_le _, hm,
        .inr (.inr ⟨hx, d, hd, hflag, ids, hids, (hid hflag).symm ▸ hmem⟩)⟩

theorem exists_findArcsLoop (ffs : List (List ℕ)) {components : List NetComponent}
    {subnets : List SubnetDesc} (h : List.Forall₂ (Described net) components subnets)
    (hlt : ∀ component ∈ components, component.outputs.length < 2 ^ 16) :
    ∀ (i : ℕ) (arcs : Arcs), ∃ arcs', findArcsLoop net ffs subnets i arcs = some arcs' ∧
      Extends arcs arcs' (AddsFrom net ffs components i) := by
  induction h with
  | nil => exact fun i arcs => ⟨arcs, rfl, (Extends.refl arcs).congr fun k x => by simp [AddsFrom]⟩
  | cons hdesc h ih =>
    rename_i component desc components subnets
    intro i arcs
    have hout : desc.subnet.nOut < 2 ^ 16 := hdesc.nOut ▸ hlt component mem_cons_self
    obtain ⟨arcs₁, h₁, hext₁⟩ :=
      exists_visitOutputs hdesc ffs i hout (2 ^ 16 + 1) 0 arcs (by omega) (Nat.zero_le _)
    obtain ⟨arcs', h', hext'⟩ := ih (fun c hc => hlt c (mem_cons_of_mem _ hc)) (i + 1) arcs₁
    refine ⟨arcs', ?_, ((hext₁.congr fun k x => adds_iff hdesc k x).trans hext').congr fun k
      x => ⟨?_, ?_⟩⟩
    · rw [findArcsLoop, h₁, bind_eq_bind, bind_some]
      exact h'
    · rintro (hadd | ⟨m, c, hc, hadd⟩)
      · exact ⟨0, component, rfl, hadd⟩
      · refine ⟨m + 1, c, hc, ?_⟩
        rwa [show i + (m + 1) = i + 1 + m by omega]
    · rintro ⟨m, c, hc, hadd⟩
      cases m with
      | zero =>
        cases hc
        exact .inl hadd
      | succ m =>
        rw [show i + (m + 1) = i + 1 + m by omega] at hadd
        exact .inr ⟨m, c, hc, hadd⟩

theorem findArcsLoop_eq_none {components : List NetComponent} {subnets : List SubnetDesc}
    (h : List.Forall₂ (Described net) components subnets) (hle : ∃ component ∈ components,
      2 ^ 16 ≤ component.outputs.length) :
    ∀ (i : ℕ) (arcs : Arcs), findArcsLoop net ffs subnets i arcs = none := by
  induction h with
  | nil =>
    obtain ⟨component, hmem, -⟩ := hle
    cases hmem
  | cons hdesc h ih =>
    rename_i component desc components subnets
    intro i arcs
    rw [findArcsLoop]
    by_cases hhead : 2 ^ 16 ≤ component.outputs.length
    · rw [visitOutputs_eq_none (hdesc.nOut ▸ hhead) (by decide)]
      rfl
    · obtain ⟨c, hmem, hc⟩ := hle
      rcases mem_cons.mp hmem with rfl | hmem
      · exact absurd hc hhead
      · cases visitOutputs net ffs desc i (2 ^ 16 + 1) 0 arcs with
        | none => rfl
        | some arcs' => exact ih ⟨c, hmem, hc⟩ (i + 1) arcs'

/-! ### The entries -/

theorem SubnetEntry.exists_addArcs {arcToDesc : SubnetIdx → Option SignalType} :
    ∀ (l : List SubnetIdx) (entry : SubnetEntry), (∀ x ∈ l, (arcToDesc x).isSome) →
    ∃ entry', addArcs arcToDesc l entry = some entry' ∧
      (∀ i, i ∈ entry'.arcs ↔ i ∈ entry.arcs ∨ .entry i ∈ l) ∧
      (entry'.connectedPI = true ↔ entry.connectedPI = true ∨ .PISubnetEntryIdx ∈ l) ∧
      (entry'.connectedPO = true ↔ entry.connectedPO = true ∨ .POSubnetEntryIdx ∈ l) := by
  intro l
  induction l with
  | nil => exact fun entry _ => ⟨entry, rfl, by simp, by simp, by simp⟩
  | cons x l ih =>
    intro entry h
    obtain ⟨d, hd⟩ := Option.isSome_iff_exists.mp (h x mem_cons_self)
    have hrest := fun y hy => h y (mem_cons_of_mem x hy)
    rw [addArcs, hd]
    cases x with
    | entry j =>
      obtain ⟨entry', hentry', harcs, hpi, hpo⟩ := ih ⟨entry.subnetID, entry.arcs.insert j,
        Function.update entry.arcToDesc j (some d), entry.connectedPI, entry.PIArcDesc,
        entry.connectedPO, entry.POArcDesc⟩ hrest
      refine ⟨entry', hentry', fun i => ?_, hpi.trans (by simp), hpo.trans (by simp)⟩
      rw [harcs, mem_insert_iff, mem_cons, SubnetIdx.entry.injEq]
      tauto
    | PISubnetEntryIdx =>
      obtain ⟨entry', hentry', harcs, hpi, hpo⟩ :=
        ih { entry with connectedPI := true, PIArcDesc := some d } hrest
      exact ⟨entry', hentry', fun i => (harcs i).trans (by simp), hpi.trans (by simp),
        hpo.trans (by simp)⟩
    | POSubnetEntryIdx =>
      obtain ⟨entry', hentry', harcs, hpi, hpo⟩ :=
        ih { entry with connectedPO := true, POArcDesc := some d } hrest
      exact ⟨entry', hentry', fun i => (harcs i).trans (by simp), hpi.trans (by simp),
        hpo.trans (by simp)⟩

theorem exists_setEntriesLoop (hfull : arcs.Full) :
    ∀ (subnets : List SubnetDesc) (i : ℕ), ∃ entries, setEntriesLoop arcs subnets i = some entries ∧
    entries.length = subnets.length ∧
      ∀ j entry, entries[j]? = some entry →
      (∀ m, m ∈ entry.arcs ↔ .entry m ∈ arcs.adjList (i + j)) ∧
        (entry.connectedPI = true ↔ .PISubnetEntryIdx ∈ arcs.adjList (i + j)) ∧
        (entry.connectedPO = true ↔ .POSubnetEntryIdx ∈ arcs.adjList (i + j)) := by
  intro subnets
  induction subnets with
  | nil => exact fun i => ⟨[], rfl, rfl, fun j entry h => by cases h⟩
  | cons desc subnets ih =>
    intro i
    obtain ⟨entry, hentry, harcs, hpi, hpo⟩ :=
      SubnetEntry.exists_addArcs (arcs.adjList i) { subnetID := desc.subnet } (hfull i)
    obtain ⟨entries, hentries, hlen, hall⟩ := ih (i + 1)
    refine ⟨entry :: entries, ?_, by simp [hlen], fun j e he => ?_⟩
    · rw [setEntriesLoop, hentry, bind_eq_bind, bind_some, hentries]
      rfl
    · cases j with
      | zero =>
        cases he
        exact ⟨fun m => (harcs m).trans (by simp), hpi.trans (by simp), hpo.trans (by simp)⟩
      | succ j =>
        rw [show i + (j + 1) = i + 1 + j by omega]
        exact hall j e he

/-- The graph of the subnets: arcs along the sequential connections and the flags for the interface
of the net. -/
structure Shows (net : Net) (components : List NetComponent) (entries : List SubnetEntry) :
    Prop where
  length : entries.length = components.length
  arcs : ∀ (i j : ℕ) (entry : SubnetEntry) (component : NetComponent), entries[j]? = some entry →
    components[j]? = some component → (i ∈ entry.arcs ↔ ∃ component', components[i]? =
    some component' ∧ ∃ o ∈ component'.outputs, ∃ l ∈ component.inputs,
      o.target.cellID = l.source.cellID ∧ Sequential net l.source.cellID)
  primaryInput : ∀ (j : ℕ) (entry : SubnetEntry) (component : NetComponent), entries[j]? =
    some entry → components[j]? = some component →
    (entry.connectedPI = true ↔ ReadsInput net component)
  primaryOutput : ∀ (j : ℕ) (entry : SubnetEntry) (component : NetComponent), entries[j]? =
    some entry → components[j]? = some component →
    (entry.connectedPO = true ↔ DrivesOutput net component)

private theorem exists_flipFlopPIs {components : List NetComponent} {subnets : List SubnetDesc}
    (h : List.Forall₂ (Described net) components subnets) : ∃ ffs, findFlipFlopPIs subnets =
    some ffs ∧
      ∀ k : ℕ, ffs[k]? = none ∧ components[k]? = none ∨ ∃ (ids : List ℕ) (component : NetComponent),
      ffs[k]? = some ids ∧ components[k]? = some component ∧
        ∀ c, c ∈ ids ↔ Sequential net c ∧ ∃ l ∈ component.inputs, l.source.cellID = c := by
  induction h with
  | nil => exact ⟨[], rfl, fun k => .inl ⟨rfl, rfl⟩⟩
  | cons hdesc h ih =>
    obtain ⟨ids, hids, hmem⟩ := exists_flipFlopIDs hdesc
    obtain ⟨ffs, hffs, hall⟩ := ih
    refine ⟨ids :: ffs, ?_, fun k => ?_⟩
    · rw [findFlipFlopPIs] at hffs
      rw [findFlipFlopPIs, mapM_cons, hids, bind_eq_bind, bind_some, hffs]
      rfl
    · cases k with
      | zero => exact .inr ⟨ids, _, rfl, rfl, hmem⟩
      | succ k => exact hall k

theorem makeEntries_iff {components : List NetComponent} {result : Result}
    (h : List.Forall₂ (Described net) components result.subnets) :
    (∃ entries, makeEntries net result = some entries ∧ Shows net components entries) ↔
      ∀ component ∈ components, component.outputs.length < 2 ^ 16 := by
  obtain ⟨ffs, hffs, hall⟩ := exists_flipFlopPIs h
  constructor
  · rintro ⟨entries, hentries, -⟩ component hmem
    by_contra hle
    rw [makeEntries, hffs, bind_eq_bind, bind_some, findArcs,
      findArcsLoop_eq_none h ⟨component, hmem, Nat.le_of_not_lt hle⟩] at hentries
    cases hentries
  · intro hlt
    obtain ⟨arcs, harcs, hext⟩ := exists_findArcsLoop ffs h hlt 0 {}
    obtain ⟨entries, hentries, hlen, hsets⟩ :=
      exists_setEntriesLoop (hext.full fun _ _ hx => by cases hx) result.subnets 0
    have hadds : ∀ k x, x ∈ arcs.adjList k ↔ AddsFrom net ffs components 0 k x := fun k x => by
      rw [hext.mem]; simp
    refine ⟨entries, ?_, hlen.trans h.length_eq.symm, ?_, ?_, ?_⟩
    · rw [makeEntries, hffs, bind_eq_bind, bind_some, findArcs, harcs, bind_eq_bind, bind_some]
      exact hentries
    · intro i j entry component hentry hcomponent
      rw [((hsets j entry hentry).1 i), Nat.zero_add, hadds]
      constructor
      · rintro ⟨m, c, hc, ⟨-, hx, -⟩ | ⟨-, hx, -⟩ | ⟨hx, o, ho, hseq, ids, hids, hid⟩⟩
        · cases hx
        · cases hx
        · rw [Nat.zero_add, SubnetIdx.entry.injEq] at hx
          subst hx
          rcases hall j with ⟨hnone, -⟩ | ⟨ids', component', hids', hcomponent', hmem⟩
          · rw [hnone] at hids
            cases hids
          · cases hids.symm.trans hids'
            cases hcomponent.symm.trans hcomponent'
            obtain ⟨-, l, hl, heq⟩ := (hmem _).mp hid
            exact ⟨c, hc, o, ho, l, hl, heq.symm, heq ▸ hseq⟩
      · rintro ⟨c, hc, o, ho, l, hl, heq, hseq⟩
        refine ⟨i, c, hc, .inr (.inr ⟨by rw [Nat.zero_add], o, ho, heq ▸ hseq, ?_⟩)⟩
        rcases hall j with ⟨-, hnone⟩ | ⟨ids, component', hids, hcomponent', hmem⟩
        · rw [hnone] at hcomponent
          cases hcomponent
        · cases hcomponent.symm.trans hcomponent'
          exact ⟨ids, hids, (hmem _).mpr ⟨heq ▸ hseq, l, hl, heq.symm⟩⟩
    · intro j entry component hentry hcomponent
      rw [(hsets j entry hentry).2.1, Nat.zero_add, hadds]
      constructor
      · rintro ⟨m, c, hc, ⟨hk, -, hreads⟩ | ⟨-, hx, -⟩ | ⟨hx, -⟩⟩
        · rw [Nat.zero_add] at hk
          subst hk
          cases hc.symm.trans hcomponent
          exact hreads
        · cases hx
        · cases hx
      · exact fun hreads => ⟨j, component, hcomponent, .inl ⟨(Nat.zero_add j).symm, rfl, hreads⟩⟩
    · intro j entry component hentry hcomponent
      rw [(hsets j entry hentry).2.2, Nat.zero_add, hadds]
      constructor
      · rintro ⟨m, c, hc, ⟨-, hx, -⟩ | ⟨hk, -, hdrives⟩ | ⟨hx, -⟩⟩
        · cases hx
        · rw [Nat.zero_add] at hk
          subst hk
          cases hc.symm.trans hcomponent
          exact hdrives
        · cases hx
      · exact fun hdrives => ⟨j, component, hcomponent,
          .inr (.inl ⟨(Nat.zero_add j).symm, rfl, hdrives⟩)⟩

end UtopiaEda.DesignArcs
