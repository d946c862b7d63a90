import Mathlib.Data.List.AList
import Mathlib.Data.List.GetD
import Mathlib.Data.List.Perm.Basic

/-!
# Replacement of a cell in the mappings of a design

The subnets of a design know their inputs and outputs by links of the net. A link joins valid ends,
as the validator of nets demands; the ports are numbers of pins, below 2^23.
-/
namespace UtopiaEda
open List
open Option (bind_eq_bind bind_eq_some_iff)

structure LinkEnd where
  cellID : ℕ
  port : ℕ
deriving DecidableEq

structure NetLink where
  source : LinkEnd
  target : LinkEnd
deriving DecidableEq

abbrev LinkMap := AList (fun _ : NetLink => ℕ)

structure CellMapping where
  /-- Original subnet size. -/
  size : ℕ
  inputs : LinkMap
  outputs : LinkMap

/-- `insert({newLink, idx})`: an element that is there already stays. -/
def LinkMap.insertNew (linkMap : LinkMap) (newLink : NetLink) (idx : ℕ) : LinkMap :=
  if newLink ∈ linkMap then linkMap else linkMap.insert newLink idx

section
variable (oldCellID newCellID : ℕ) (newInputs newOutputs : List ℕ)

/-- The loop over the mapping; both new ends are read before it is known which of them is needed. -/
def collectLinks : List (Σ _ : NetLink, ℕ) → List NetLink → LinkMap →
    Option (List NetLink × LinkMap)
  | [], removeSet, insertMap => some (removeSet, insertMap)
  | ⟨oldLink, idx⟩ :: rest, removeSet, insertMap =>
    let isOldSource := oldLink.source.cellID = oldCellID
    let isOldTarget := oldLink.target.cellID = oldCellID
    if isOldSource ∨ isOldTarget then do
      let newSource : LinkEnd := ⟨newCellID, ← newOutputs[oldLink.source.port]?⟩
      let newTarget : LinkEnd := ⟨newCellID, ← newInputs[oldLink.target.port]?⟩
      let newLink : NetLink := ⟨if isOldSource then newSource else oldLink.source,
        if isOldTarget then newTarget else oldLink.target⟩
      collectLinks rest (removeSet.insert oldLink) (insertMap.insertNew newLink idx)
    else collectLinks rest removeSet insertMap

/-- `replace` with its assertion. -/
def replaceLinks (linkMap : LinkMap) : Option LinkMap :=
  if oldCellID = newCellID then none
  else do
    let (removeSet, insertMap) ← collectLinks oldCellID newCellID newInputs newOutputs
      linkMap.entries [] ∅
    let linkMap := removeSet.foldl (fun linkMap oldLink => linkMap.erase oldLink) linkMap
    some (linkMap ∪ insertMap)

/-- `DesignBuilder::replaceCell` for the mappings of `result.subnets`. -/
def replaceCellInMappings (mappings : List CellMapping) : Option (List CellMapping) :=
  mappings.mapM fun mapping => do
    let inputs ← replaceLinks oldCellID newCellID newInputs newOutputs mapping.inputs
    let outputs ← replaceLinks oldCellID newCellID newInputs newOutputs mapping.outputs
    some { mapping with inputs := inputs, outputs := outputs }

/-! ### Relabelling -/

def relabelEnd (pins : List ℕ) (linkEnd : LinkEnd) : LinkEnd :=
  if linkEnd.cellID = oldCellID then ⟨newCellID, pins.getD linkEnd.port 0⟩ else linkEnd

def relabelLink (link : NetLink) : NetLink :=
  ⟨relabelEnd oldCellID newCellID newOutputs link.source,
    relabelEnd oldCellID newCellID newInputs link.target⟩

def relabelEntry (entry : Σ _ : NetLink, ℕ) : Σ _ : NetLink, ℕ :=
  ⟨relabelLink oldCellID newCellID newInputs newOutputs entry.1, entry.2⟩

structure Relabelled (mapping mapping' : CellMapping) : Prop where
  size : mapping'.size = mapping.size
  inputs : mapping'.inputs.entries.Perm
    (mapping.inputs.entries.map (relabelEntry oldCellID newCellID newInputs newOutputs))
  outputs : mapping'.outputs.entries.Perm
    (mapping.outputs.entries.map (relabelEntry oldCellID newCellID newInputs newOutputs))

def NetLink.Touches (link : NetLink) : Prop :=
  link.source.cellID = oldCellID ∨ link.target.cellID = oldCellID

instance : DecidablePred (NetLink.Touches oldCellID) := fun _ => instDecidableOr

/-- The pin maps have both ports of the link, whichever of them is the replaced cell's. -/
def NetLink.InBounds (link : NetLink) : Prop :=
  link.source.port < newOutputs.length ∧ link.target.port < newInputs.length

structure NetLink.Covered (link : NetLink) : Prop where
  source_ne : link.source.cellID ≠ newCellID
  target_ne : link.target.cellID ≠ newCellID
  source : link.source.cellID = oldCellID → link.source.port < newOutputs.length
  target : link.target.cellID = oldCellID → link.target.port < newInputs.length

variable {oldCellID newCellID newInputs newOutputs}

lemma relabelEnd_injective {pins : List ℕ} (hpins : pins.Nodup) {linkEnd linkEnd' : LinkEnd}
    (hne : linkEnd.cellID ≠ newCellID) (hne' : linkEnd'.cellID ≠ newCellID)
    (hport : linkEnd.cellID = oldCellID → linkEnd.port < pins.length)
    (hport' : linkEnd'.cellID = oldCellID → linkEnd'.port < pins.length)
    (h : relabelEnd oldCellID newCellID pins linkEnd = relabelEnd oldCellID newCellID pins
      linkEnd') :
    linkEnd = linkEnd' := by
  obtain ⟨cellID, port⟩ := linkEnd
  obtain ⟨cellID', port'⟩ := linkEnd'
  simp only [relabelEnd] at h hne hne' hport hport'
  by_cases hold : cellID = oldCellID <;> by_cases hold' : cellID' = oldCellID
  · simp only [hold, hold', if_true, LinkEnd.mk.injEq, true_and] at h ⊢
    rw [getD_eq_getElem _ _ (hport hold), getD_eq_getElem _ _ (hport' hold')] at h
    exact (hpins.getElem_inj_iff).1 h
  · rw [if_pos hold, if_neg hold'] at h
    exact absurd (congrArg LinkEnd.cellID h).symm hne'
  · rw [if_neg hold, if_pos hold'] at h
    exact absurd (congrArg LinkEnd.cellID h) hne
  · rwa [if_neg hold, if_neg hold'] at h

lemma relabelLink_injective (hin : newInputs.Nodup) (hout : newOutputs.Nodup) {link link' : NetLink}
    (hc : link.Covered oldCellID newCellID newInputs newOutputs)
    (hc' : link'.Covered oldCellID newCellID newInputs newOutputs)
    (h : relabelLink oldCellID newCellID newInputs newOutputs link =
      relabelLink oldCellID newCellID newInputs newOutputs link') : link = link' := by
  obtain ⟨source, target⟩ := link
  obtain ⟨source', target'⟩ := link'
  obtain ⟨hsource, htarget⟩ := NetLink.mk.inj h
  exact congrArg₂ NetLink.mk
    (relabelEnd_injective hout hc.source_ne hc'.source_ne hc.source hc'.source hsource)
    (relabelEnd_injective hin hc.target_ne hc'.target_ne hc.target hc'.target htarget)

lemma relabelEntry_of_not_touches {entry : Σ _ : NetLink, ℕ} (h : ¬ entry.1.Touches oldCellID) :
    relabelEntry oldCellID newCellID newInputs newOutputs entry = entry := by
  obtain ⟨⟨source, target⟩, idx⟩ := entry
  obtain ⟨hsource, htarget⟩ := not_or.1 h
  simp only [relabelEntry, relabelLink, relabelEnd]
  rw [if_neg hsource, if_neg htarget]

lemma relabelLink_ne {link link' : NetLink} (ht : link.Touches oldCellID)
    (hc' : link'.Covered oldCellID newCellID newInputs newOutputs) :
    relabelLink oldCellID newCellID newInputs newOutputs link ≠ link' := by
  rintro rfl
  obtain hold | hold := ht
  · exact hc'.source_ne (by simp [relabelLink, relabelEnd, hold])
  · exact hc'.target_ne (by simp [relabelLink, relabelEnd, hold])

/-! ### The loop -/

/-- If the loop succeeds, the pin maps are read inside their bounds. -/
lemma inBounds_of_collectLinks {entries : List (Σ _ : NetLink, ℕ)}
    {removeSet removeSet' : List NetLink} {insertMap insertMap' : LinkMap}
    (h : collectLinks oldCellID newCellID newInputs newOutputs entries removeSet insertMap =
      some (removeSet', insertMap')) :
    ∀ entry ∈ entries, entry.1.Touches oldCellID → entry.1.InBounds newInputs newOutputs := by
  induction entries generalizing removeSet insertMap with
  | nil => simp
  | cons entry rest ih =>
    obtain ⟨link, idx⟩ := entry
    simp only [collectLinks, bind_eq_bind] at h
    split at h
    · obtain ⟨source, hsource, h⟩ := bind_eq_some_iff.1 h
      obtain ⟨target, htarget, h⟩ := bind_eq_some_iff.1 h
      refine forall_mem_cons.2 ⟨fun _ => ?_, ih h⟩
      exact ⟨(List.getElem?_eq_some_iff.1 hsource).1, (List.getElem?_eq_some_iff.1 htarget).1⟩
    · rename_i hout
      exact forall_mem_cons.2 ⟨fun ht => absurd ht hout, ih h⟩

lemma collectLinks_eq (entries : List (Σ _ : NetLink, ℕ)) (removeSet : List NetLink)
    (insertMap : LinkMap) (hbounds : ∀ entry ∈ entries, entry.1.Touches oldCellID →
    entry.1.InBounds newInputs newOutputs) (hnew : ∀ entry ∈ entries, entry.1.Touches oldCellID →
      relabelLink oldCellID newCellID newInputs newOutputs entry.1 ∉ insertMap)
    (hdistinct : entries.Pairwise fun entry entry' =>
      relabelLink oldCellID newCellID newInputs newOutputs entry.1 ≠
        relabelLink oldCellID newCellID newInputs newOutputs entry'.1) :
    ∃ removeSet' insertMap', collectLinks oldCellID newCellID newInputs newOutputs entries removeSet
    insertMap =
        some (removeSet', insertMap') ∧
      (∀ link, link ∈ removeSet' ↔ link ∈ removeSet ∨
        ∃ entry ∈ entries, entry.1 = link ∧ link.Touches oldCellID) ∧
      insertMap'.entries = ((entries.filter (fun entry => entry.1.Touches oldCellID)).map
        (relabelEntry oldCellID newCellID newInputs newOutputs)).reverse ++ insertMap.entries := by
  induction entries generalizing removeSet insertMap with
  | nil => exact ⟨removeSet, insertMap, rfl, by simp, by simp⟩
  | cons entry rest ih =>
    obtain ⟨link, idx⟩ := entry
    obtain ⟨hbound, hbounds⟩ := forall_mem_cons.1 hbounds
    obtain ⟨hfirst, hnew⟩ := forall_mem_cons.1 hnew
    obtain ⟨hne, hdistinct⟩ := pairwise_cons.1 hdistinct
    by_cases ht : link.Touches oldCellID
    · obtain ⟨hsource, htarget⟩ := hbound ht
      let newLink := relabelLink oldCellID newCellID newInputs newOutputs link
      have hinsert : insertMap.insertNew newLink idx = insertMap.insert newLink idx :=
        if_neg (hfirst ht)
      obtain ⟨removeSet', insertMap', heq, hremove, hentries⟩ := ih (removeSet.insert link)
        (insertMap.insert newLink idx) hbounds (fun entry hentry htouch => by
          rw [AList.mem_insert]
          exact not_or.2 ⟨fun heq => hne entry hentry heq.symm, hnew entry hentry htouch⟩) hdistinct
      refine ⟨removeSet', insertMap', ?_, fun link' => ?_, ?_⟩
      · rw [← heq, ← hinsert]
        simp only [collectLinks]
        rw [if_pos (show link.source.cellID = oldCellID ∨ link.target.cellID = oldCellID from ht),
          getElem?_eq_getElem hsource, getElem?_eq_getElem htarget]
        simp only [newLink, relabelLink, relabelEnd, getD_eq_getElem _ _ hsource,
          getD_eq_getElem _ _ htarget]
        rfl
      · rw [hremove, mem_insert_iff]
        constructor
        · rintro ((rfl | hmem) | ⟨entry, hentry, heq', htouch⟩)
          · exact .inr ⟨_, mem_cons_self, rfl, ht⟩
          · exact .inl hmem
          · exact .inr ⟨entry, mem_cons_of_mem _ hentry, heq', htouch⟩
        · rintro (hmem | ⟨entry, hentry, heq', htouch⟩)
          · exact .inl (.inr hmem)
          · obtain rfl | hentry := mem_cons.1 hentry
            · exact .inl (.inl heq'.symm)
            · exact .inr ⟨entry, hentry, heq', htouch⟩
      · rw [hentries, AList.entries_insert_of_notMem (hfirst ht)]
        simp [ht, relabelEntry]
    · obtain ⟨removeSet', insertMap', heq, hremove, hentries⟩ :=
        ih removeSet insertMap hbounds hnew hdistinct
      refine ⟨removeSet', insertMap', ?_, fun link' => ?_, ?_⟩
      · rw [← heq]
        simp only [collectLinks]
        exact if_neg ht
      · rw [hremove]
        refine or_congr_right ⟨?_, ?_⟩
        · rintro ⟨entry, hentry, heq', htouch⟩
          exact ⟨entry, mem_cons_of_mem _ hentry, heq', htouch⟩
        · rintro ⟨entry, hentry, heq', htouch⟩
          obtain rfl | hentry := mem_cons.1 hentry
          · obtain rfl : link = link' := heq'
            exact absurd htouch ht
          · exact ⟨entry, hentry, heq', htouch⟩
      · rw [hentries]
        simp [ht]

private lemma kerase_eq_filter (key : NetLink) {entries : List (Σ _ : NetLink, ℕ)}
    (h : entries.NodupKeys) : entries.kerase key = entries.filter (fun entry => entry.1 ≠ key) := by
  induction entries with
  | nil => rfl
  | cons entry rest ih =>
    obtain ⟨hfirst, hrest⟩ := nodupKeys_cons.1 h
    by_cases hkey : key = entry.1
    · rw [kerase_cons_eq hkey, filter_cons_of_neg (by simp [hkey])]
      refine (filter_eq_self.2 fun other hother => ?_).symm
      have : other.1 ≠ key := fun heq => hfirst (hkey ▸ heq ▸ mem_map_of_mem hother)
      simpa using this
    · rw [kerase_cons_ne hkey, filter_cons_of_pos (by simpa using Ne.symm hkey), ih hrest]

private lemma eraseAll_entries (removeSet : List NetLink) (linkMap : LinkMap) :
    (removeSet.foldl (fun linkMap oldLink => linkMap.erase oldLink) linkMap).entries =
      linkMap.entries.filter (fun entry => entry.1 ∉ removeSet) := by
  induction removeSet generalizing linkMap with
  | nil => simp
  | cons link removeSet ih =>
    rw [foldl_cons, ih]
    change filter _ (linkMap.entries.kerase link) = _
    rw [kerase_eq_filter link linkMap.nodupKeys, filter_filter]
    refine filter_congr fun entry _ => ?_
    simp only [mem_cons, not_or, Bool.decide_and, ne_eq]
    rw [Bool.and_comm]

private lemma kunion_eq_append {entries entries' : List (Σ _ : NetLink, ℕ)}
    (h : ∀ entry ∈ entries, entry.1 ∉ entries'.keys) : entries.kunion entries' =
    entries ++ entries' := by
  induction entries with
  | nil => rfl
  | cons entry rest ih =>
    obtain ⟨hfirst, hrest⟩ := forall_mem_cons.1 h
    rw [kunion_cons, kerase_of_notMem_keys hfirst, ih hrest, cons_append]

lemma replaceLinks_eq {linkMap : LinkMap} (hne : oldCellID ≠ newCellID) (hin : newInputs.Nodup)
    (hout : newOutputs.Nodup) (hc : ∀ link ∈ linkMap,
      link.Covered oldCellID newCellID newInputs newOutputs)
    (hbounds : ∀ link ∈ linkMap, link.Touches oldCellID → link.InBounds newInputs newOutputs) :
    ∃ linkMap', replaceLinks oldCellID newCellID newInputs newOutputs linkMap = some linkMap' ∧
      linkMap'.entries.Perm (linkMap.entries.map
      (relabelEntry oldCellID newCellID newInputs newOutputs)) := by
  have hmem : ∀ entry ∈ linkMap.entries, entry.1 ∈ linkMap := fun entry hentry =>
    AList.mem_keys.2 (mem_map_of_mem hentry)
  have hdistinct : linkMap.entries.Pairwise fun entry entry' =>
      relabelLink oldCellID newCellID newInputs newOutputs entry.1 ≠
        relabelLink oldCellID newCellID newInputs newOutputs entry'.1 := by
    refine (pairwise_map.1 linkMap.nodupKeys).imp_of_mem fun hentry hentry' hkeys heq =>
      hkeys ?_
    exact relabelLink_injective hin hout (hc _ (hmem _ hentry)) (hc _ (hmem _ hentry')) heq
  obtain ⟨removeSet, insertMap, heq, hremove, hentries⟩ := collectLinks_eq linkMap.entries [] ∅
    (fun entry hentry => hbounds entry.1 (hmem entry hentry))
    (fun _ _ _ => AList.notMem_empty _) hdistinct
  rw [AList.empty_entries, append_nil] at hentries
  have hkept : (removeSet.foldl (fun linkMap oldLink => linkMap.erase oldLink) linkMap).entries =
      linkMap.entries.filter (fun entry => ¬ entry.1.Touches oldCellID) := by
    rw [eraseAll_entries]
    refine filter_congr fun entry hentry => ?_
    rw [decide_eq_decide, not_iff_not, hremove]
    simp only [not_mem_nil, false_or]
    exact ⟨fun ⟨_, _, _, ht⟩ => ht, fun ht => ⟨entry, hentry, rfl, ht⟩⟩
  refine ⟨removeSet.foldl (fun linkMap oldLink => linkMap.erase oldLink) linkMap ∪ insertMap, ?_,
    ?_⟩
  · rw [replaceLinks, if_neg hne, heq]
    rfl
  rw [AList.union_entries, hkept, kunion_eq_append]
  · have hfixed : linkMap.entries.filter (fun entry => ¬ entry.1.Touches oldCellID) =
        (linkMap.entries.filter (fun entry => ¬ entry.1.Touches oldCellID)).map
          (relabelEntry oldCellID newCellID newInputs newOutputs) := by
      refine (map_id _).symm.trans (map_congr_left fun entry hentry => ?_)
      exact (relabelEntry_of_not_touches (by simpa using (mem_filter.1 hentry).2)).symm
    rw [hfixed, hentries]
    refine (List.Perm.append_left _ (reverse_perm _)).trans ?_
    rw [← map_append]
    refine List.Perm.map _ (perm_append_comm.trans ?_)
    simpa using filter_append_perm
      (fun entry : (Σ _ : NetLink, ℕ) => decide (entry.1.Touches oldCellID)) linkMap.entries
  · intro entry hentry hkey
    obtain ⟨added, hadded, hlink⟩ := mem_map.1 hkey
    rw [hentries, mem_reverse, mem_map] at hadded
    obtain ⟨old, hold, rfl⟩ := hadded
    obtain ⟨-, ht⟩ := mem_filter.1 hold
    exact relabelLink_ne (by simpa using ht) (hc _ (hmem _ (mem_filter.1 hentry).1)) hlink

lemma inBounds_of_replaceLinks {linkMap linkMap' : LinkMap}
    (h : replaceLinks oldCellID newCellID newInputs newOutputs linkMap = some linkMap') :
    ∀ link ∈ linkMap, link.Touches oldCellID → link.InBounds newInputs newOutputs := by
  intro link hlink ht
  simp only [replaceLinks, bind_eq_bind] at h
  split at h
  · cases h
  obtain ⟨⟨removeSet, insertMap⟩, hcollect, -⟩ := bind_eq_some_iff.1 h
  obtain ⟨entry, hentry, rfl⟩ := mem_map.1 (AList.mem_keys.1 hlink)
  exact inBounds_of_collectLinks hcollect entry hentry ht

/-! ### The design -/

def ForallLinks (mappings : List CellMapping) (P : NetLink → Prop) : Prop :=
  ∀ mapping ∈ mappings, (∀ link ∈ mapping.inputs, P link) ∧ ∀ link ∈ mapping.outputs, P link

/-- `replaceCell` relabels the mappings of all subnets if and only if both pin maps have both ports
of every link at the cell, also the port of the other cell. -/
theorem replaceCell_iff (mappings : List CellMapping) (hne : oldCellID ≠ newCellID)
    (hin : newInputs.Nodup) (hout : newOutputs.Nodup)
    (hc : ForallLinks mappings (NetLink.Covered oldCellID newCellID newInputs newOutputs)) :
    (∃ mappings', replaceCellInMappings oldCellID newCellID newInputs newOutputs mappings =
      some mappings' ∧
        List.Forall₂ (Relabelled oldCellID newCellID newInputs newOutputs) mappings mappings') ↔
      ForallLinks mappings fun link => link.Touches oldCellID →
        link.InBounds newInputs newOutputs := by
  rw [replaceCellInMappings]
  induction mappings with
  | nil => exact ⟨fun _ => by simp [ForallLinks], fun _ => ⟨[], rfl, .nil⟩⟩
  | cons mapping rest ih =>
    obtain ⟨⟨hcin, hcout⟩, hcrest⟩ := forall_mem_cons.1 hc
    have ih := ih hcrest
    constructor
    · rintro ⟨mappings', heq, hrel⟩
      simp only [mapM_cons, bind_eq_bind, Option.pure_def, bind_eq_some_iff] at heq
      obtain ⟨first, ⟨inputs, hinputs, outputs, houtputs, -⟩, rest', hrest, heq⟩ := heq
      obtain rfl := Option.some.inj heq
      obtain ⟨-, hrel⟩ := forall₂_cons.1 hrel
      exact forall_mem_cons.2 ⟨⟨inBounds_of_replaceLinks hinputs,
        inBounds_of_replaceLinks houtputs⟩, ih.1 ⟨rest', hrest, hrel⟩⟩
    · intro h
      obtain ⟨⟨hbin, hbout⟩, hbrest⟩ := forall_mem_cons.1 h
      obtain ⟨inputs, hinputs, hperm⟩ := replaceLinks_eq hne hin hout hcin hbin
      obtain ⟨outputs, houtputs, hperm'⟩ := replaceLinks_eq hne hin hout hcout hbout
      obtain ⟨rest', hrest, hrel⟩ := ih.2 hbrest
      refine ⟨{ mapping with inputs := inputs, outputs := outputs } :: rest', ?_,
        .cons ⟨rfl, hperm, hperm'⟩ hrel⟩
      rw [mapM_cons, hrest]
      simp only [hinputs, houtputs, bind_eq_bind, Option.bind_some, Option.pure_def]

end

/-- A subnet whose input is the output of the flip-flop 1 and drives the pin `port` of the flip-flop
2. -/
def shiftMappings (port : ℕ) : List CellMapping :=
  [⟨2, AList.singleton ⟨⟨1, 0⟩, ⟨0, 0⟩⟩ 0, AList.singleton ⟨⟨1, 0⟩, ⟨2, port⟩⟩ 1⟩]

lemma shiftMappings_covered (port : ℕ) :
    ForallLinks (shiftMappings port) (NetLink.Covered 1 9 [1, 0] [0]) := by
  refine forall_mem_singleton.2 ⟨fun link hlink => ?_, fun link hlink => ?_⟩
  · obtain rfl : link = ⟨⟨1, 0⟩, ⟨0, 0⟩⟩ := by simpa using AList.mem_keys.1 hlink
    exact ⟨by simp, by simp, by simp, by simp⟩
  · obtain rfl : link = ⟨⟨1, 0⟩, ⟨2, port⟩⟩ := by simpa using AList.mem_keys.1 hlink
    exact ⟨by simp, by simp, by simp, by simp⟩

theorem replaceCell_shift : ∃ mappings', replaceCellInMappings 1 9 [1, 0] [0] (shiftMappings 1) =
    some mappings' ∧ List.Forall₂ (Relabelled 1 9 [1, 0] [0]) (shiftMappings 1) mappings' := by
  refine (replaceCell_iff (shiftMappings 1) (by decide) (by decide) (by decide)
    (shiftMappings_covered 1)).2 ?_
  refine forall_mem_singleton.2 ⟨fun link hlink _ => ?_, fun link hlink _ => ?_⟩
  · obtain rfl : link = ⟨⟨1, 0⟩, ⟨0, 0⟩⟩ := by simpa using AList.mem_keys.1 hlink
    exact ⟨by simp, by simp⟩
  · obtain rfl : link = ⟨⟨1, 0⟩, ⟨2, 1⟩⟩ := by simpa using AList.mem_keys.1 hlink
    exact ⟨by simp, by simp⟩

/-- A flip-flop with two inputs drives the set pin, of number 3, of another one: `newInputs[3]` is
read. -/
theorem replaceCell_out_of_bounds : ForallLinks (shiftMappings 3) (NetLink.Covered 1 9 [1, 0] [0]) ∧
    replaceCellInMappings 1 9 [1, 0] [0] (shiftMappings 3) = none :=
  ⟨shiftMappings_covered 3, by decide⟩

end UtopiaEda
