import UtopiaEda.BufferDeletion
import UtopiaEda.SubnetCopying
import UtopiaEda.SubnetEncoding

/-!
# Check points of a design

An entry of a design holds either a subnet or a builder, and by name the subnets it had at its check
points. Subnets do not change, so an identifier is modelled by its subnet. Builders do, and whoever
holds one may edit it; they are modelled by their addresses in a list of all builders.
-/
namespace UtopiaEda

open List
open Option (bind_eq_bind bind_eq_some_iff some.inj)
open Function (update update_self update_of_ne)

/-- `make(DeleteBuffers)`: the subnet and the builder as it is afterwards. -/
def SubnetBuilder.convert (s : SubnetBuilder) : Option (Subnet × SubnetBuilder) := do
  let S ← s.make true
  some (S, ← s.rearrangeEntries true)

namespace DesignBuilder

/-- `points.emplace(point, subnetID)`: an element that is there already stays. -/
def emplace (points : String → Option Subnet) (point : String) (subnetID : Subnet) :
    String → Option Subnet :=
  if (points point).isSome then points else update points point (some subnetID)

structure SubnetEntry where
  points : String → Option Subnet := fun _ => none
  subnetID : Option Subnet
  builder : Option ℕ := none

end DesignBuilder

structure DesignBuilder where
  entries : List DesignBuilder.SubnetEntry
  /-- The global check points. -/
  points : List String := []
  /-- The subnets of `result`. -/
  result : List Subnet := []
  /-- All builders, by address. -/
  builders : List SubnetBuilder := []

namespace DesignBuilder

def setEntry (d : DesignBuilder) (i : ℕ) (entry : SubnetEntry) : DesignBuilder :=
  { d with entries := d.entries.set i entry }

def setSubnetID (d : DesignBuilder) (i : ℕ) (subnetID : Subnet) : Option DesignBuilder := do
  let entry ← d.entries[i]?
  some (d.setEntry i { entry with subnetID := some subnetID, builder := none })

/-- `setSubnetID(i, entry.builder->make(DeleteBuffers))`. -/
def makeSubnet (d : DesignBuilder) (i : ℕ) (builder : ℕ) : Option DesignBuilder := do
  let (subnetID, made) ← (← d.builders[builder]?).convert
  { d with builders := d.builders.set builder made }.setSubnetID i subnetID

def getSubnetID (d : DesignBuilder) (i : ℕ) : Option DesignBuilder := do
  let entry ← d.entries[i]?
  if entry.subnetID.isSome then some d else d.makeSubnet i (← entry.builder)

def getSubnetBuilder (types : List SubnetType) (d : DesignBuilder) (i : ℕ) :
    Option DesignBuilder := do
  let entry ← d.entries[i]?
  if entry.builder.isSome then some d
  else do
    let builder ← SubnetBuilder.ofSubnet types (← entry.subnetID)
    some ({ d with builders := d.builders ++ [builder] }.setEntry i
      { entry with subnetID := none, builder := some d.builders.length })

def setSubnetBuilder (d : DesignBuilder) (i : ℕ) (builder : Option ℕ) : Option DesignBuilder := do
  let entry ← d.entries[i]?
  some (d.setEntry i { entry with subnetID := none, builder := builder })

/-- `for (size_t i = 0; i < entries.size(); ++i)`. -/
def forEntries (d : DesignBuilder) (f : DesignBuilder → ℕ → Option DesignBuilder) :
    Option DesignBuilder :=
  (range d.entries.length).foldlM f d

def makeSubnets (d : DesignBuilder) : Option DesignBuilder :=
  d.forEntries fun d i => do
    match (← d.entries[i]?).builder with
    | some builder => d.makeSubnet i builder
    | none => some d

/-- `save(i, point)`. -/
def saveEntry (point : String) (d : DesignBuilder) (i : ℕ) : Option DesignBuilder := do
  let d ← d.getSubnetID i
  let entry ← d.entries[i]?
  some (d.setEntry i { entry with points := emplace entry.points point (← entry.subnetID) })

/-- The global check point gets its name if it is a new one. -/
def addPoint (point : String) (d : DesignBuilder) : DesignBuilder :=
  if point ∈ d.points then d else { d with points := d.points ++ [point] }

/-- `save(point)`. -/
def save (point : String) (d : DesignBuilder) : Option DesignBuilder := do
  some ((← d.forEntries (saveEntry point)).addPoint point)

/-- `getSubnetID(i, point)`. -/
def getSubnetIDAt (d : DesignBuilder) (i : ℕ) (point : String) :
    Option Subnet := do (← d.entries[i]?).points point

/-- `rollback(i, point)`. -/
def rollbackEntry (point : String) (d : DesignBuilder) (i : ℕ) : Option DesignBuilder := do
  let entry ← d.entries[i]?
  some (d.setEntry i { entry with subnetID := some (← d.getSubnetIDAt i point), builder := none })

/-- `rollback(point)`. -/
def rollback (point : String) (d : DesignBuilder) : Option DesignBuilder :=
  d.forEntries (rollbackEntry point)

/-- `updateSubnets()`, the part of `make()` before the composition of the net. -/
def updateSubnets (d : DesignBuilder) : Option DesignBuilder :=
  d.forEntries fun d i => do
    let d ← d.getSubnetID i
    some { d with result := d.result.set i (← (← d.entries[i]?).subnetID) }

/-- `updateSubnets(point)`, the part of `make(point)` before the composition of the net. -/
def updateSubnetsAt (point : String) (d : DesignBuilder) : Option DesignBuilder :=
  d.forEntries fun d i => do some { d with result := d.result.set i (← d.getSubnetIDAt i point) }

/-- What is done with a design: the calls, and what holders of a builder do to it. -/
inductive Call where
  | getSubnetID (i : ℕ)
  | setSubnetID (i : ℕ) (subnetID : Subnet)
  | getSubnetBuilder (i : ℕ)
  | setSubnetBuilder (i : ℕ) (builder : Option ℕ)
  | newBuilder (s : SubnetBuilder)
  | editBuilder (builder : ℕ) (s : SubnetBuilder)
  | makeSubnets
  | saveEntry (i : ℕ) (point : String)
  | save (point : String)
  | rollbackEntry (i : ℕ) (point : String)
  | rollback (point : String)
  | updateSubnets
  | updateSubnetsAt (point : String)

def call (types : List SubnetType) (d : DesignBuilder) : Call → Option DesignBuilder
  | .getSubnetID i => d.getSubnetID i
  | .setSubnetID i subnetID => d.setSubnetID i subnetID
  | .getSubnetBuilder i => d.getSubnetBuilder types i
  | .setSubnetBuilder i builder => d.setSubnetBuilder i builder
  | .newBuilder s => some { d with builders := d.builders ++ [s] }
  | .editBuilder builder s => some { d with builders := d.builders.set builder s }
  | .makeSubnets => d.makeSubnets
  | .saveEntry i point => d.saveEntry point i
  | .save point => d.save point
  | .rollbackEntry i point => d.rollbackEntry point i
  | .rollback point => d.rollback point
  | .updateSubnets => d.updateSubnets
  | .updateSubnetsAt point => d.updateSubnetsAt point

/-- What the entry `i` computes. -/
def function (lib : CellLibrary) (d : DesignBuilder) (i : ℕ) : Option NetFunction := do
  let entry ← d.entries[i]?
  match entry.subnetID with
  | some subnetID => some (subnetID.netFunction lib)
  | none => do some ((← d.builders[← entry.builder]?).netFunction lib)

/-- The entries have a subnet and no check points, as the constructors leave them. -/
def IsNew (d : DesignBuilder) : Prop :=
  d.result.length = d.entries.length ∧
    ∀ entry ∈ d.entries, entry.points = (fun _ => none) ∧ entry.subnetID.isSome ∧
    entry.builder = none

def run (types : List SubnetType) : DesignBuilder → List Call → Option DesignBuilder
  | d, [] => some d
  | d, c :: calls => do run types (← d.call types c) calls

/-! ### Frame conditions -/

/-- Every entry has exactly one of a subnet and a builder. -/
def Exclusive (d : DesignBuilder) : Prop :=
  ∀ entry ∈ d.entries, entry.builder.isSome = !entry.subnetID.isSome

structure Keeps (d d' : DesignBuilder) : Prop where
  length : d'.entries.length = d.entries.length
  result : d'.result.length = d.result.length
  points : ∀ i point, d'.getSubnetIDAt i point = d.getSubnetIDAt i point
  exclusive : d.Exclusive → d'.Exclusive

variable {types : List SubnetType} {lib : CellLibrary} {d d' d'' : DesignBuilder} {i j : ℕ}
  {point : String} {entry entry' : SubnetEntry} {S : Subnet} {calls : List Call}

theorem Keeps.refl (d : DesignBuilder) : Keeps d d := ⟨rfl, rfl, fun _ _ => rfl, id⟩

theorem Keeps.trans (h : Keeps d d') (h' : Keeps d' d'') : Keeps d d'' :=
  ⟨h'.length.trans h.length, h'.result.trans h.result,
    fun i point => (h'.points i point).trans (h.points i point),
    fun hd => h'.exclusive (h.exclusive hd)⟩

theorem Keeps.of_entries (h : d'.entries = d.entries)
    (hresult : d'.result.length = d.result.length) : Keeps d d' := by
  refine ⟨by rw [h], hresult, fun i point => ?_, fun hd => ?_⟩
  · rw [getSubnetIDAt, getSubnetIDAt, h]
  · rwa [Exclusive, h]

theorem getSubnetIDAt_setEntry (hi : d.entries[i]? = some entry) :
    (d.setEntry i entry').getSubnetIDAt j point = if j = i then entry'.points point else
    d.getSubnetIDAt j point := by
  have hlt := (List.getElem?_eq_some_iff.mp hi).1
  rw [getSubnetIDAt, getSubnetIDAt, setEntry, getElem?_set]
  by_cases hj : j = i
  · rw [if_pos hj.symm, if_pos hj, if_pos hlt]
    rfl
  · rw [if_neg (Ne.symm hj), if_neg hj]

theorem getElem?_setEntry (hi : d.entries[i]? = some entry) :
    (d.setEntry i entry').entries[i]? = some entry' := by
  rw [setEntry, getElem?_set_self (List.getElem?_eq_some_iff.mp hi).1]

theorem Exclusive.setEntry (h : d.Exclusive)
    (hone : entry'.builder.isSome = !entry'.subnetID.isSome) : (d.setEntry i entry').Exclusive := by
  intro e he
  rcases mem_or_eq_of_mem_set he with he | rfl
  · exact h e he
  · exact hone

theorem Keeps.setEntry (hi : d.entries[i]? = some entry) (hpoints : entry'.points = entry.points)
    (hone : entry'.builder.isSome = !entry'.subnetID.isSome) : Keeps d (d.setEntry i entry') := by
  refine ⟨length_set, rfl, fun j point => ?_, fun h => h.setEntry hone⟩
  rw [getSubnetIDAt_setEntry hi]
  split
  · rename_i hj
    rw [hj, getSubnetIDAt, hi, hpoints]
    rfl
  · rfl

theorem Keeps.foldlM {f : DesignBuilder → ℕ → Option DesignBuilder}
    (hf : ∀ d i d', f d i = some d' → Keeps d d') : ∀ {l : List ℕ} {d d' : DesignBuilder},
    l.foldlM f d = some d' → Keeps d d' := by
  intro l
  induction l with
  | nil =>
    intro d d' h
    cases h
    exact .refl d
  | cons i l ih =>
    intro d d' h
    rw [foldlM_cons] at h
    obtain ⟨d₁, h₁, h₂⟩ := bind_eq_some_iff.mp h
    exact (hf d i d₁ h₁).trans (ih h₂)

theorem Keeps.of_setSubnetID (h : d.setSubnetID i S = some d') : Keeps d d' := by
  obtain ⟨entry, hi, h⟩ := bind_eq_some_iff.mp h
  cases h
  exact .setEntry hi rfl rfl

theorem Keeps.of_makeSubnet {b : ℕ} (h : d.makeSubnet i b = some d') : Keeps d d' := by
  simp only [makeSubnet, bind_eq_bind, bind_eq_some_iff] at h
  obtain ⟨s, -, made, -, h⟩ := h
  have hbuilders : Keeps d { d with builders := d.builders.set b made.2 } := .of_entries rfl rfl
  exact hbuilders.trans (.of_setSubnetID h)

theorem Keeps.of_getSubnetID (h : d.getSubnetID i = some d') : Keeps d d' := by
  obtain ⟨entry, hi, h⟩ := bind_eq_some_iff.mp h
  split at h
  · cases h
    exact .refl d
  · obtain ⟨b, -, h⟩ := bind_eq_some_iff.mp h
    exact .of_makeSubnet h

theorem Keeps.of_getSubnetBuilder (h : d.getSubnetBuilder types i = some d') : Keeps d d' := by
  obtain ⟨entry, hi, h⟩ := bind_eq_some_iff.mp h
  split at h
  · cases h
    exact .refl d
  · simp only [bind_eq_bind, bind_eq_some_iff] at h
    obtain ⟨S, -, s, -, h⟩ := h
    cases h
    have hbuilders : Keeps d { d with builders := d.builders ++ [s] } := .of_entries rfl rfl
    have hi' : { d with builders := d.builders ++ [s] }.entries[i]? = some entry := hi
    refine hbuilders.trans (.setEntry hi' ?_ ?_) <;> rfl

theorem Keeps.of_setSubnetBuilder {b : ℕ} (h : d.setSubnetBuilder i (some b) = some d') :
    Keeps d d' := by
  obtain ⟨entry, hi, h⟩ := bind_eq_some_iff.mp h
  cases h
  exact .setEntry hi rfl rfl

theorem Keeps.of_rollbackEntry (h : d.rollbackEntry point i = some d') : Keeps d d' := by
  simp only [rollbackEntry, bind_eq_bind, bind_eq_some_iff] at h
  obtain ⟨entry, hi, S, -, h⟩ := h
  cases h
  exact .setEntry hi rfl rfl

theorem Keeps.of_call {c : Call} (hc : ∀ i, c ≠ .setSubnetBuilder i none)
    (hentry : ∀ i point, c ≠ .saveEntry i point) (hsave : ∀ point, c ≠ .save point)
    (h : d.call types c = some d') : Keeps d d' := by
  cases c with
  | getSubnetID i => exact .of_getSubnetID h
  | setSubnetID i S => exact .of_setSubnetID h
  | getSubnetBuilder i => exact .of_getSubnetBuilder h
  | setSubnetBuilder i b =>
    cases b with
    | none => exact absurd rfl (hc i)
    | some b => exact .of_setSubnetBuilder h
  | newBuilder s =>
    cases h
    exact .of_entries rfl rfl
  | editBuilder b s =>
    cases h
    exact .of_entries rfl rfl
  | makeSubnets =>
    refine Keeps.foldlM (fun d i d' h => ?_) h
    obtain ⟨entry, -, h⟩ := bind_eq_some_iff.mp h
    split at h
    · exact .of_makeSubnet h
    · cases h
      exact .refl d
  | saveEntry i point => exact absurd rfl (hentry i point)
  | save point => exact absurd rfl (hsave point)
  | rollbackEntry i point => exact .of_rollbackEntry h
  | rollback point => exact Keeps.foldlM (fun d i d' h => .of_rollbackEntry h) h
  | updateSubnets =>
    refine Keeps.foldlM (fun d i d' h => ?_) h
    simp only [bind_eq_bind, bind_eq_some_iff] at h
    obtain ⟨d₁, h₁, entry, -, S, -, h⟩ := h
    cases h
    exact (Keeps.of_getSubnetID h₁).trans (.of_entries rfl length_set)
  | updateSubnetsAt point =>
    refine Keeps.foldlM (fun d i d' h => ?_) h
    simp only [bind_eq_bind, bind_eq_some_iff] at h
    obtain ⟨S, -, h⟩ := h
    cases h
    exact .of_entries rfl length_set

/-! ### Saving -/

/-- If the entry holds a builder, that one is convertible; if there is a check point of this name
already, the entry computes what it did there. -/
structure SafeToSave (lib : CellLibrary) (point : String) (d : DesignBuilder) (i : ℕ) : Prop where
  convertible : ∀ entry b s, d.entries[i]? = some entry → entry.subnetID = none →
    entry.builder = some b → d.builders[b]? = some s → s.Convertible
  same : ∀ S, d.getSubnetIDAt i point = some S → d.function lib i = some (S.netFunction lib)

theorem of_setSubnetID (h : d.setSubnetID i S = some d') :
    ∃ entry, d'.entries[i]? = some entry ∧ entry.subnetID = some S := by
  obtain ⟨entry, hi, h⟩ := bind_eq_some_iff.mp h
  cases h
  exact ⟨_, getElem?_setEntry hi, rfl⟩

theorem of_getSubnetID (lib : CellLibrary) (h : d.getSubnetID i = some d')
    (hconv : ∀ entry b s, d.entries[i]? = some entry → entry.subnetID = none →
      entry.builder = some b → d.builders[b]? = some s → s.Convertible) :
    ∃ entry S, d'.entries[i]? = some entry ∧ entry.subnetID = some S ∧ d.function lib i =
    some (S.netFunction lib) := by
  obtain ⟨entry, hi, h⟩ := bind_eq_some_iff.mp h
  cases hS : entry.subnetID with
  | some S =>
    rw [hS] at h
    cases h
    refine ⟨entry, S, hi, hS, ?_⟩
    simp [function, hi, hS]
  | none =>
    rw [hS] at h
    simp only [Option.isSome_none, Bool.false_eq_true, if_false, makeSubnet, SubnetBuilder.convert,
      bind_eq_bind, bind_eq_some_iff] at h
    obtain ⟨b, hb, s, hs, made, ⟨S, hmake, s', -, hmade⟩, h⟩ := h
    cases hmade
    obtain ⟨entry', hi', hS'⟩ := of_setSubnetID h
    refine ⟨entry', S, hi', hS', ?_⟩
    have hfunction := (hconv entry b s hi hS hb hs).netFunction_make hmake lib
    simp [function, hi, hS, hb, hs, hfunction]

theorem SafeToSave.of_saveEntry (h : SafeToSave lib point d i)
    (hsave : d.saveEntry point i = some d') : d'.entries.length = d.entries.length ∧
    d'.result.length = d.result.length ∧ (d.Exclusive → d'.Exclusive) ∧
      (∃ S, d'.getSubnetIDAt i point = some S ∧ d.function lib i = some (S.netFunction lib)) ∧
      ∀ j q, (j, q) ≠ (i, point) → d'.getSubnetIDAt j q = d.getSubnetIDAt j q := by
  simp only [DesignBuilder.saveEntry, bind_eq_bind, bind_eq_some_iff] at hsave
  obtain ⟨d₁, h₁, entry, hi, S, hS, hsave⟩ := hsave
  cases hsave
  have hkeeps := Keeps.of_getSubnetID h₁
  obtain ⟨entry₁, S₁, hi₁, hS₁, hfunction⟩ := of_getSubnetID lib h₁ h.convertible
  obtain rfl := some.inj (hi.symm.trans hi₁)
  obtain rfl := some.inj (hS.symm.trans hS₁)
  have hpoint : d.getSubnetIDAt i point = entry.points point := by
    rw [← hkeeps.points, getSubnetIDAt, hi]
    rfl
  refine ⟨length_set.trans hkeeps.length, hkeeps.result, fun hd => ?_, ?_, fun j q hne => ?_⟩
  · have hd₁ := hkeeps.exclusive hd
    exact hd₁.setEntry (hd₁ entry (mem_of_getElem? hi))
  · rw [getSubnetIDAt_setEntry hi, if_pos rfl, emplace]
    cases hp : entry.points point with
    | none => exact ⟨S, by simp, hfunction⟩
    | some S₀ => exact ⟨S₀, by simp [hp], h.same S₀ (hpoint.trans hp)⟩
  · rw [getSubnetIDAt_setEntry hi, ← hkeeps.points]
    split
    · rename_i hj
      subst hj
      have hq : q ≠ point := fun hq => hne (by rw [hq])
      rw [getSubnetIDAt, hi, emplace]
      split
      · rfl
      · exact update_of_ne hq ..
    · rfl

/-- A design with what its entries computed when they were last saved under a name. -/
structure Recorded where
  design : DesignBuilder
  saved : ℕ → String → Option NetFunction := fun _ _ => none

namespace Recorded

def saveEntry (lib : CellLibrary) (point : String) (r : Recorded) (i : ℕ) : Option Recorded := do
  some ⟨← r.design.saveEntry point i,
    update r.saved i (update (r.saved i) point (r.design.function lib i))⟩

def call (lib : CellLibrary) (types : List SubnetType) (r : Recorded) : Call → Option Recorded
  | .saveEntry i point => r.saveEntry lib point i
  | .save point => do
    let r ← (range r.design.entries.length).foldlM (saveEntry lib point) r
    some { r with design := r.design.addPoint point }
  | c => do some { r with design := ← r.design.call types c }

def run (lib : CellLibrary) (types : List SubnetType) : Recorded → List Call → Option Recorded
  | r, [] => some r
  | r, c :: calls => do run lib types (← r.call lib types c) calls

variable {r r' : Recorded}

private theorem foldlM_design (lib : CellLibrary) (point : String) : ∀ {l : List ℕ} {r : Recorded},
    (l.foldlM (saveEntry lib point) r).map design =
    l.foldlM (DesignBuilder.saveEntry point) r.design := by
  intro l
  induction l with
  | nil => exact rfl
  | cons i l ih =>
    intro r
    rw [foldlM_cons, foldlM_cons]
    cases h : r.design.saveEntry point i with
    | none => simp [saveEntry, h]
    | some d => simp [saveEntry, h, ih]

/-- The record does not change what the calls do. -/
theorem call_design (lib : CellLibrary) (types : List SubnetType) (r : Recorded) (c : Call) :
    (r.call lib types c).map design = r.design.call types c := by
  cases c with
  | saveEntry i point =>
    change (r.saveEntry lib point i).map design = r.design.saveEntry point i
    cases h : r.design.saveEntry point i <;> simp [saveEntry, h]
  | save point =>
    have hloop := foldlM_design lib point (l := range r.design.entries.length) (r := r)
    change Option.map design (Option.bind _ _) = Option.bind _ _
    rw [forEntries, ← hloop]
    cases h : (range r.design.entries.length).foldlM (saveEntry lib point) r <;> rfl
  | _ =>
    simp only [call, bind_eq_bind]
    cases h : r.design.call types _ <;> rfl

/-- Every entry has exactly one of a subnet and a builder, and every check point that was saved
computes what the entry did at the last save: read by its name, rolled back to, and given to the
composition of the net. -/
structure Faithful (lib : CellLibrary) (r : Recorded) : Prop where
  exclusive : r.design.Exclusive
  points : ∀ i point f, r.saved i point = some f → ∃ S,
    r.design.getSubnetIDAt i point = some S ∧ S.netFunction lib = f ∧
    (∃ d entry, r.design.rollbackEntry point i = some d ∧ d.entries[i]? = some entry ∧
      entry.subnetID = some S ∧ entry.builder = none) ∧
    ∀ d, r.design.updateSubnetsAt point = some d → d.result[i]? = some S

structure Inv (lib : CellLibrary) (r : Recorded) : Prop where
  result : r.design.result.length = r.design.entries.length
  exclusive : r.design.Exclusive
  points : ∀ i point f, r.saved i point = some f → ∃ S, r.design.getSubnetIDAt i point = some S ∧
    S.netFunction lib = f

private theorem result_of_foldlM : ∀ {l : List ℕ} {d d' : DesignBuilder},
    l.foldlM (fun d i => do some { d with result := d.result.set i (← d.getSubnetIDAt i point) })
    d = some d' → d.getSubnetIDAt i point = some S → i < d.result.length → i ∈ l ∨
    d.result[i]? = some S → d'.result[i]? = some S := by
  intro l
  induction l with
  | nil =>
    intro d d' h _ _ hi
    cases h
    exact hi.resolve_left not_mem_nil
  | cons j l ih =>
    intro d d' h hS hlt hi
    simp only [foldlM_cons, bind_eq_bind, bind_eq_some_iff] at h
    obtain ⟨d₁, ⟨T, hT, hd₁⟩, h⟩ := h
    cases hd₁
    refine ih h hS (by simpa using hlt) ?_
    rw [getElem?_set]
    by_cases hj : j = i
    · subst hj
      obtain rfl := some.inj (hS.symm.trans hT)
      exact .inr (by rw [if_pos rfl, if_pos hlt])
    · rw [if_neg hj]
      exact hi.imp_left (fun hmem => (mem_cons.mp hmem).resolve_left (Ne.symm hj))

theorem Inv.faithful (h : Inv lib r) : Faithful lib r := by
  refine ⟨h.exclusive, fun i point f hf => ?_⟩
  obtain ⟨S, hS, hfunction⟩ := h.points i point f hf
  obtain ⟨entry, hi, -⟩ := bind_eq_some_iff.mp hS
  have hlt := (List.getElem?_eq_some_iff.mp hi).1
  refine ⟨S, hS, hfunction, ⟨_, { entry with subnetID := some S, builder := none }, ?_,
    getElem?_setEntry hi, rfl, rfl⟩, fun d hd => ?_⟩
  · rw [DesignBuilder.rollbackEntry, hi, hS]
    rfl
  · exact result_of_foldlM hd hS (h.result.symm ▸ hlt) (.inl (mem_range.mpr hlt))

theorem Inv.of_isNew (h : d.IsNew) : Inv lib ⟨d, fun _ _ => none⟩ := by
  refine ⟨h.1, fun entry he => ?_, fun i point f hf => by cases hf⟩
  obtain ⟨-, hsome, hnone⟩ := h.2 entry he
  rw [hnone, hsome]
  rfl

theorem Inv.of_keeps (h : Inv lib r) (hd : Keeps r.design d) : Inv lib ⟨d, r.saved⟩ :=
  ⟨by rw [hd.result, hd.length]; exact h.result, hd.exclusive h.exclusive, fun i point f hf => by
    rw [hd.points]
    exact h.points i point f hf⟩

theorem Inv.of_saveEntry (h : Inv lib r) (hsafe : SafeToSave lib point r.design i)
    (hsave : r.saveEntry lib point i = some r') : Inv lib r' := by
  obtain ⟨d, hd, hr'⟩ := bind_eq_some_iff.mp hsave
  cases hr'
  obtain ⟨hlength, hresult, hexclusive, ⟨S, hS, hfunction⟩, hothers⟩ := hsafe.of_saveEntry hd
  refine ⟨by rw [hresult, hlength]; exact h.result, hexclusive h.exclusive, fun j q f hf => ?_⟩
  change update r.saved i (update (r.saved i) point (r.design.function lib i)) j q = some f at hf
  by_cases hjq : (j, q) = (i, point)
  · obtain ⟨rfl, rfl⟩ := Prod.mk.inj hjq
    rw [update_self, update_self, hfunction] at hf
    exact ⟨S, hS, some.inj hf⟩
  · have hsaved : r.saved j q = some f := by
      rw [← hf]
      by_cases hj : j = i
      · subst hj
        have hq : q ≠ point := fun hq => hjq (by rw [hq])
        rw [update_self, update_of_ne hq]
      · rw [update_of_ne hj]
    rw [hothers j q hjq]
    exact h.points j q f hsaved

end Recorded

/-- What a call needs to keep the check points faithful. No other call than these needs anything. -/
def Safe (lib : CellLibrary) (d : DesignBuilder) : Call → Prop
  | .setSubnetBuilder _ builder => builder ≠ none
  | .saveEntry i point => SafeToSave lib point d i
  | .save point => ∀ i < d.entries.length, ∀ d', (range i).foldlM (saveEntry point) d =
      some d' → SafeToSave lib point d' i
  | _ => True

def SafeRun (lib : CellLibrary) (types : List SubnetType) : DesignBuilder → List Call → Prop
  | _, [] => True
  | d, c :: calls => d.Safe lib c ∧ ∀ d', d.call types c = some d' → SafeRun lib types d' calls

namespace Recorded

variable {r r' : Recorded}

private theorem Inv.of_saves (h : Inv lib r) : ∀ {n : ℕ} {r' : Recorded},
    (∀ i < n, ∀ d', (range i).foldlM (DesignBuilder.saveEntry point) r.design = some d' →
      SafeToSave lib point d' i) →
    (range n).foldlM (saveEntry lib point) r = some r' → Inv lib r' := by
  intro n
  induction n with
  | zero =>
    intro r' _ hr'
    cases hr'
    exact h
  | succ n ih =>
    intro r' hsafe hr'
    simp only [range_succ, foldlM_append, foldlM_cons, foldlM_nil, bind_eq_bind,
      bind_eq_some_iff] at hr'
    obtain ⟨r₁, hr₁, r₂, hr₂, hr'⟩ := hr'
    cases hr'
    have hdesign := foldlM_design lib point (l := range n) (r := r)
    rw [hr₁] at hdesign
    exact (ih (fun i hi => hsafe i (Nat.lt_succ_of_lt hi)) hr₁).of_saveEntry
      (hsafe n (Nat.lt_succ_self n) _ hdesign.symm) hr₂

private theorem call_eq {c : Call} (hentry : ∀ i point, c ≠ .saveEntry i point)
    (hsave : ∀ point, c ≠ .save point) : r.call lib types c =
    (r.design.call types c).bind (fun d => some ⟨d, r.saved⟩) := by
  cases c with
  | saveEntry i point => exact absurd rfl (hentry i point)
  | save point => exact absurd rfl (hsave point)
  | _ => rfl

theorem Inv.of_call (h : Inv lib r) {c : Call} (hsafe : r.design.Safe lib c)
    (hc : r.call lib types c = some r') : Inv lib r' := by
  cases c with
  | saveEntry i point => exact h.of_saveEntry hsafe hc
  | save point =>
    obtain ⟨r₁, hr₁, hr'⟩ := bind_eq_some_iff.mp hc
    cases hr'
    have h₁ := h.of_saves hsafe hr₁
    refine h₁.of_keeps ?_
    unfold addPoint
    split
    · exact .refl _
    · exact .of_entries rfl rfl
  | setSubnetBuilder i builder =>
    rw [call_eq (by simp) (by simp)] at hc
    obtain ⟨d, hd, hr'⟩ := bind_eq_some_iff.mp hc
    cases hr'
    exact h.of_keeps (Keeps.of_call (fun j hj => hsafe (Call.setSubnetBuilder.inj hj).2) (by simp)
      (by simp) hd)
  | _ =>
    rw [call_eq (by simp) (by simp)] at hc
    obtain ⟨d, hd, hr'⟩ := bind_eq_some_iff.mp hc
    cases hr'
    exact h.of_keeps (Keeps.of_call (by simp) (by simp) (by simp) hd)

theorem Inv.of_run (calls : List Call) :
    ∀ {r : Recorded}, Inv lib r → SafeRun lib types r.design calls →
    r.run lib types calls = some r' → Inv lib r' := by
  induction calls with
  | nil =>
    intro r h _ hr'
    cases hr'
    exact h
  | cons c calls ih =>
    intro r h hsafe hr'
    obtain ⟨r₁, hr₁, hr'⟩ := bind_eq_some_iff.mp hr'
    have hdesign := r.call_design lib types c
    rw [hr₁] at hdesign
    exact ih (h.of_call hsafe.1 hr₁) (hsafe.2 _ hdesign.symm) hr'

end Recorded

end DesignBuilder

/-! ### Builders made from subnets -/

/-- A builder made from a subnet can be made into a subnet again, unless a buffer is not plain or a
cell too wide. -/
theorem Subnet.Arranged.convertible {S : Subnet} (hS : S.Arranged) (types : List SubnetType)
    (hnarrow : ∀ i c, S.getCell i = some c → c.links.length ≤ InPlaceLinks + InEntryLinks)
    (hbuf : ∀ i c, S.getCell i = some c → c.type = .BUF → ∃ l, c.links = [l] ∧ l.out = 0) :
    ∃ s, SubnetBuilder.ofSubnet types S = some s ∧ s.Convertible ∧ ∀ lib, s.netFunction lib =
    S.netFunction lib := by
  obtain ⟨s, mid, hs, hgrown, hnet, hsize, hin, hout⟩ := SubnetBuilder.ofSubnet_eq types hS
  have hcell : ∀ i c, s.liveCell i = some c → ∃ c', S.getCell i = some c' ∧ c'.type = c.type ∧
      c'.links = c.links := by
    intro i c hc
    have hg := SubnetBuilder.netlist_of_live hc
    rw [hnet, Subnet.netlist] at hg
    obtain ⟨c', hc', heq⟩ := Option.map_eq_some_iff.mp hg
    rw [Gate.mk.injEq] at heq
    exact ⟨c', hc', heq⟩
  have hord : s.Ordered (fun i => (s.block i).tail)
      (range S.nIn) mid ((range S.nOut).map S.getOutIdx) := by
    refine hgrown.ordered (by simp [hin]) (by simp [hout]) (fun i c hc ht => ?_)
      (fun i c hc l hl ht => ?_)
    · obtain ⟨c', hc', ht', hl'⟩ := hcell i c hc
      obtain ⟨l, hl, -⟩ := hbuf i c' hc' (ht'.trans ht)
      rw [← hl', hl, length_singleton]
    · obtain ⟨c', hc', -, hl'⟩ := hcell i c hc
      rw [← hl'] at hl
      obtain ⟨-, cl, hcl, -⟩ := hS.wellFormed.links i c' hc' l hl
      have hg : s.netlist l.idx = some ⟨cl.type, cl.links⟩ := by
        rw [hnet, Subnet.netlist, hcl]
        rfl
      obtain ⟨cs, hcs, htype, -⟩ := SubnetBuilder.liveCell_of_netlist hg
      rw [SubnetBuilder.getTypeID_of_live hcs, htype] at ht
      refine (hS.wellFormed.port i c' hc' l hl cl hcl).resolve_right (fun hsoft => ?_)
      obtain ⟨sid, hsid⟩ := hsoft
      have htypes : (.BUF : CellTypeID) = .soft sid := ht.symm.trans hsid
      cases htypes
  refine ⟨s, hs, ⟨⟨_, _, _, _, hord⟩, fun i c hc => ?_, fun i c hc ht l hl => ?_⟩, fun lib => ?_⟩
  · obtain ⟨c', hc', -, hl'⟩ := hcell i c hc
    rw [← hl']
    exact hnarrow i c' hc'
  · obtain ⟨c', hc', ht', hl'⟩ := hcell i c hc
    obtain ⟨l', hl'', hzero⟩ := hbuf i c' hc' (ht'.trans ht)
    rw [← hl', hl'', mem_singleton] at hl
    rwa [hl]
  · rw [SubnetBuilder.netFunction, Subnet.netFunction, hgrown.inputIDs_eq, hgrown.outputIDs_eq,
      length_range]
    refine Prod.ext rfl (funext fun x => ?_)
    change map _ (map _ _) = map _ _
    rw [map_map]
    refine map_congr_left (fun k _ => ?_)
    have hinputs : ∀ i g, S.netlist i = some g → g.type = .IN →
        x ((range S.nIn).idxOf i) = x i := by
      intro i g hg ht
      obtain ⟨c, hc, rfl⟩ := Option.map_eq_some_iff.mp hg
      have hi := (hS.wellFormed.input i c hc).mp ht
      have hidx := List.Nodup.idxOf_getElem (nodup_range (n := S.nIn)) i (by simpa using hi)
      rw [getElem_range] at hidx
      rw [hidx]
    rw [Function.comp_apply, hnet, hsize, Subnet.value, Netlist.value, Netlist.value]
    exact Netlist.eval_congr_inputs hinputs

namespace DesignBuilder

variable {types : List SubnetType} {lib : CellLibrary} {d : DesignBuilder} {calls : List Call}
  {r : Recorded}

namespace Recorded

/-- In a run of safe calls on a new design the check points are faithful. -/
theorem checkPoints_faithful (h : d.IsNew) (hsafe : SafeRun lib types d calls)
    (hr : run lib types ⟨d, fun _ _ => none⟩ calls = some r) : r.Faithful lib :=
  ((Inv.of_isNew h).of_run calls hsafe hr).faithful

def passing (inv : Bool) : Subnet :=
  ⟨1, 1, 2, 0, [.cell ⟨.IN, [], 1⟩, .cell ⟨.OUT, [⟨0, 0, inv⟩], 0⟩]⟩

def sample : DesignBuilder where
  entries := [{ subnetID := some (passing true) }]
  result := [passing true]

theorem checkPoints_faithful_edited : ∃ r, run .empty [] ⟨sample, fun _ _ => none⟩
    [.getSubnetBuilder 0, .saveEntry 0 "before", .setSubnetID 0 (passing false)] = some r ∧
    r.Faithful .empty := by
  have hcheck : SubnetEncoder.checkEncodable [] 0 (passing true) = true := by decide
  have hcells : ∀ i c, (passing true).getCell i = some c → c.links.length ≤ 1 ∧ c.type ≠ .BUF := by
    intro i c hc
    match i with
    | 0 => cases hc; decide
    | 1 => cases hc; decide
    | i + 2 => cases hc
  obtain ⟨s, hs, hconv, -⟩ := (SubnetEncoder.encodable_of_check hcheck).arranged.convertible []
    (fun i c hc => Nat.le_trans (hcells i c hc).1 (by decide))
    (fun i c hc ht => absurd ht (hcells i c hc).2)
  have hnew : sample.IsNew := ⟨rfl, fun entry he => by
    rw [mem_singleton.mp he]
    exact ⟨rfl, rfl, rfl⟩⟩
  have hsafe : SafeRun .empty [] sample
      [.getSubnetBuilder 0, .saveEntry 0 "before", .setSubnetID 0 (passing false)] := by
    refine ⟨trivial, fun d hd => ?_⟩
    obtain rfl :
        { entries := [{ subnetID := none, builder := some 0 }], result := [passing true],
          builders := [s] } = d := by
      simpa [DesignBuilder.call, getSubnetBuilder, sample, hs, setEntry] using hd
    refine ⟨⟨fun entry b s' hentry _ hb hs' => ?_, fun S hS => by cases hS⟩,
      fun _ _ => ⟨trivial, fun _ _ => trivial⟩⟩
    cases hentry
    cases hb
    cases hs'
    exact hconv
  exact ⟨_, rfl, checkPoints_faithful hnew hsafe rfl⟩

/-- Saving under the same name again keeps the first subnet. -/
theorem not_checkPoints_faithful : ∃ r, run .empty [] ⟨sample, fun _ _ => none⟩
    [.saveEntry 0 "best", .setSubnetID 0 (passing false), .saveEntry 0 "best"] = some r ∧
    ¬ r.Faithful .empty := by
  refine ⟨_, rfl, fun h => ?_⟩
  obtain ⟨S, hS, hfunction, -⟩ := h.points 0 "best" _ rfl
  cases hS
  have hvalues := congrFun (congrArg Prod.snd hfunction) (fun _ => true)
  exact absurd hvalues (by decide)

end Recorded

end DesignBuilder

end UtopiaEda
