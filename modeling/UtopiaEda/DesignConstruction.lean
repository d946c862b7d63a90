import UtopiaEda.DesignArcs
import UtopiaEda.NetComponents

/-!
# The construction of a design

A component of a net without combinational loops has everything that its cells and outputs read,
each cell behind the cells that it reads. So its subnet can be made, and the entries of the design
show the graph of the components.
-/
namespace UtopiaEda

open List
open Option (bind_eq_bind bind_eq_some_iff bind_some isSome_iff_exists some.inj)

/-- The inner cells that are no blocks are gates of the table; buffers and inverters have a link. -/
structure Net.Gated (net : Net) : Prop extends Net.Regular net where
  gate : ∀ c cell, net.cells c = some cell → NetDecomposer.isInputType cell.type = false →
    cell.type.isSoft = false → ∃ t, cell.type.symbol = .gate t ∧
    (t = .BUF ∨ t = .NOT → cell.links ≠ [])

namespace NetDecomposer
open SubnetBuilder

variable {net : Net} {types : List SubnetType} {order : List NetLink → List NetLink}
  {component : NetComponent} {components : List NetComponent} {s : SubnetBuilder}
  {ins mid : List EntryID} {inputs outputs : LinkMap} {inners : CellMap}
  {entryToDesc front : EntryToDesc} {cells : List ℕ} {cell : NetCell} {source : LinkEnd} {c n a : ℕ}
  {rank : ℕ → ℕ}

/-! ### The loops of a closed component -/

theorem exists_makeEntryDesc (h : (net.cells c).isSome) (signal : SignalType) :
    ∃ d, makeEntryDesc net c signal = some d := by
  obtain ⟨cell, hcell⟩ := isSome_iff_exists.mp h
  rw [makeEntryDesc, hcell, bind_eq_bind, bind_some]
  split
  · exact ⟨_, rfl⟩
  · exact ⟨_, rfl⟩

theorem Fronted.exists_addInputsLoop : ∀ (rest : List NetLink) {done : List NetLink}
    {s : SubnetBuilder} {inputs : LinkMap} {etd : EntryToDesc},
    Fronted net done s inputs etd →
    (∀ l ∈ rest, (component.inputsDesc l).isSome ∧ (net.cells l.source.cellID).isSome) →
      ∃ s' inputs' etd', NetDecomposer.addInputsLoop net component rest s inputs etd =
      some (s', inputs', etd') := by
  intro rest
  induction rest with
  | nil => exact fun _ _ => ⟨_, _, _, rfl⟩
  | cons input rest ih =>
    intro done s inputs etd h hknown
    obtain ⟨hsignal, hcell⟩ := hknown input mem_cons_self
    obtain ⟨signal, hsignal⟩ := isSome_iff_exists.mp hsignal
    obtain ⟨s₁, hadd, -⟩ := h.grown.addInput
    obtain ⟨d, hd⟩ := exists_makeEntryDesc hcell signal
    obtain ⟨s', inputs', etd', hrun⟩ :=
      ih (h.step hadd (names_of_makeEntryDesc hd)) fun l hl => hknown l (mem_cons_of_mem _ hl)
    refine ⟨s', inputs', etd', ?_⟩
    rw [NetDecomposer.addInputsLoop, hadd]
    simp only [bind_eq_bind, bind_some, hsignal, hd]
    exact hrun

structure Placed (net : Net) (cells : List ℕ) (inners : CellMap) : Prop where
  mem : ∀ c ∈ cells, (inners c).isSome
  inner : ∀ c links, inners c = some links → ∃ cell, net.cells c = some cell ∧
    isInputType cell.type = false ∧ links.length = cell.type.nOut

theorem Placed.exists_makeLink (h : Placed net cells inners)
    (hinputs : ∀ l ∈ component.inputs, makeInputLink l ∈ inputs)
    (hs : Available net component (fun _ => False) cells source) :
    ∃ l, makeLink inners inputs source = some l := by
  obtain ⟨cell, hcell, hport, hin, hinner⟩ := hs
  rw [makeLink]
  cases hlinks : inners source.cellID with
  | some links =>
    obtain ⟨cell', hcell', -, hlen⟩ := h.inner _ links hlinks
    cases hcell.symm.trans hcell'
    exact ⟨_, getElem?_eq_getElem (hlen ▸ hport)⟩
  | none =>
    cases htype : isInputType cell.type with
    | true =>
      obtain ⟨idx, hidx⟩ := isSome_iff_exists.mp
        (AList.lookup_isSome.mpr (hinputs _ (hin htype)))
      have hlookup : inputs.lookup (makeInputLink ⟨source, source⟩) = some idx := hidx
      simp only [hlookup, bind_eq_bind, bind_some]
      exact ⟨_, rfl⟩
    | false =>
      rcases hinner htype with hmem | hfalse
      · have hsome := h.mem _ hmem
        rw [hlinks] at hsome
        cases hsome
      · exact hfalse.elim

theorem Placed.emplace {links : List Link} (h : Placed net cells inners)
    (hcell : net.cells c = some cell) (htype : isInputType cell.type = false)
    (hlen : links.length = cell.type.nOut) : Placed net (cells ++ [c]) (if (inners c).isSome then
    inners else Function.update inners c (some links)) := by
  split
  · rename_i hsome
    refine ⟨fun c' hc' => ?_, h.inner⟩
    rcases mem_append.mp hc' with hc' | hc'
    · exact h.mem c' hc'
    · exact mem_singleton.mp hc' ▸ hsome
  · refine ⟨fun c' hc' => ?_, fun c' links' hlinks' => ?_⟩
    · rw [Function.update_apply]
      split
      · rfl
      · rename_i hne
        exact h.mem c' ((mem_append.mp hc').resolve_right fun hc' => hne
          (mem_singleton.mp hc'))
    · rw [Function.update_apply] at hlinks'
      split at hlinks'
      · rename_i heq
        cases hlinks'
        exact ⟨cell, heq ▸ hcell, htype, hlen⟩
      · exact h.inner c' links' hlinks'

private theorem exists_mapM {α β : Type} {f : α → Option β} :
    ∀ {xs : List α}, (∀ x ∈ xs, ∃ y, f x = some y) → ∃ ys, xs.mapM f = some ys := by
  intro xs
  induction xs with
  | nil => exact fun _ => ⟨[], rfl⟩
  | cons x xs ih =>
    intro h
    obtain ⟨y, hy⟩ := h x mem_cons_self
    obtain ⟨ys, hys⟩ := ih fun x' hx' => h x' (mem_cons_of_mem x hx')
    refine ⟨y :: ys, ?_⟩
    rw [mapM_cons, hy, bind_eq_bind, bind_some, hys]
    rfl

theorem exists_addInnersLoop (types : List SubnetType) (hnet : net.Gated) (hwide : Wide net n)
    (hclosed : Closed net component) (hinputs : ∀ l ∈ component.inputs, makeInputLink l ∈ inputs) :
    ∀ {B A : List ℕ} {mid : List EntryID} {s : SubnetBuilder} {inners : CellMap},
    component.inners = A ++ B → Grown s ins mid [] → Mapped s inners inputs → Placed net A inners →
    ∃ s' inners', addInnersLoop net types inputs B s inners = some (s', inners') ∧
      Grows ins (fun g => g.links.length ≤ n) s s' ∧ Mapped s' inners' inputs ∧
      Placed net component.inners inners' := by
  intro B
  induction B with
  | nil =>
    intro A mid s inners hA h hm hp
    rw [append_nil] at hA
    exact ⟨s, inners, rfl, Grows.refl h, hm, hA ▸ hp⟩
  | cons c B ih =>
    intro A mid s inners hA h hm hp
    obtain ⟨cell, hcell, htype, hlinks⟩ := hclosed.order A c B hA
    obtain ⟨ilinks, hilinks⟩ := exists_mapM fun l hl => hp.exists_makeLink hinputs (hlinks l hl)
    obtain ⟨s₁, os, hadd, hgrows, hvalid, hlen⟩ :=
      exists_addInnerCell types hnet.toRegular hcell h (hm.makeLinks hilinks)
      (Netlist.length_of_mapM hilinks) htype (hnet.gate c cell hcell htype)
    obtain ⟨mid₁, hgrown₁⟩ := hgrows.grown
    rw [append_cons] at hA
    obtain ⟨s', inners', hrun, hrest, hm', hp'⟩ :=
      ih hA hgrown₁ ((hm.mono hgrows.le).emplace hvalid) (hp.emplace hcell htype hlen)
    obtain ⟨hcells, hsubnets⟩ := hwide c cell hcell
    refine ⟨s', inners', ?_, (hgrows.weaken fun g hg => ?_).trans hrest, hm', hp'⟩
    · rw [addInnersLoop, hcell]
      simp only [bind_eq_bind, bind_some, hilinks, hadd]
      exact hrun
    · rcases hg with hg | ⟨S, hS, i, c', hc', hg⟩
      · exact hg ▸ hcells
      · exact hg ▸ hsubnets S hS i c' hc'

theorem Ended.exists_addOutputsLoop (hn : n ≤ a) (hp : Placed net component.inners inners)
    (hinputs : ∀ l ∈ component.inputs, makeInputLink l ∈ inputs) : ∀ (rest : List NetLink)
    {done : List NetLink} {s : SubnetBuilder} {outputs : LinkMap} {etd : EntryToDesc},
    Ended net n a mid inners inputs front done s outputs etd →
      (∀ o ∈ rest, Available net component (fun _ => False) component.inners o.source ∧
        (component.outputsDesc o).isSome ∧ (net.cells o.target.cellID).isSome) →
      ∃ s' outputs' etd', NetDecomposer.addOutputsLoop net component inners inputs rest s outputs
      etd = some (s', outputs', etd') ∧
        s.netlist.Le s'.netlist := by
  intro rest
  induction rest with
  | nil => exact fun _ _ => ⟨_, _, _, rfl, .refl _⟩
  | cons output rest ih =>
    intro done s outputs etd h hknown
    obtain ⟨havailable, hsignal, hcell⟩ := hknown output mem_cons_self
    obtain ⟨signal, hsignal⟩ := isSome_iff_exists.mp hsignal
    obtain ⟨ilink, hilink⟩ := hp.exists_makeLink hinputs havailable
    have hvalid := h.links.makeLink hilink
    obtain ⟨s₁, hadd, -, happ⟩ := h.grown.addOutput hvalid
    obtain ⟨d, hd⟩ := exists_makeEntryDesc hcell signal
    obtain ⟨s', outputs', etd', hrun, hle⟩ :=
      ih (h.step hn hvalid hadd (names_of_makeEntryDesc hd)) fun o ho =>
      hknown o (mem_cons_of_mem _ ho)
    refine ⟨s', outputs', etd', ?_, happ.le.trans hle⟩
    rw [NetDecomposer.addOutputsLoop, hilink]
    simp only [bind_eq_bind, bind_some, hadd, hsignal, hd]
    exact hrun

theorem exists_makeSubnet (types : List SubnetType) (hnet : net.Gated)
    (hwide : Wide net (InPlaceLinks + InEntryLinks)) (horder : ∀ l, (order l).Perm l)
    (hclosed : Closed net component) (hne : component.outputs ≠ []) :
    ∃ desc, makeSubnet net types order component = some desc := by
  obtain ⟨s₁, inputs, etd₁, h₁⟩ := (Fronted.init net).exists_addInputsLoop (order component.inputs)
    fun l hl => hclosed.inputs l ((horder _).mem_iff.mp hl)
  have hfront := (Fronted.init net).addInputsLoop h₁
  rw [nil_append] at hfront
  have hinputs : ∀ l ∈ component.inputs, makeInputLink l ∈ inputs :=
    fun l hl => hfront.mem l ((horder _).mem_iff.mpr hl)
  obtain ⟨s₂, inners, h₂, hgrows, hmapped, hplaced⟩ :=
    exists_addInnersLoop types hnet hwide hclosed hinputs
    (A := []) (B := component.inners) (nil_append _) hfront.grown hfront.toMapped
    ⟨fun c hc => (by cases hc), fun c links hc => (by cases hc)⟩
  obtain ⟨mid, hle, hstart⟩ := hfront.exists_ended hgrows hmapped
  obtain ⟨s₃, outputs, etd₃, h₃, hnetlist⟩ :=
    hstart.exists_addOutputsLoop hle hplaced hinputs (order component.outputs)
    fun o ho => hclosed.outputs o ((horder _).mem_iff.mp ho)
  have hend := hstart.addOutputsLoop hle h₃
  rw [nil_append] at hend
  have hcounts := hend.counts
  simp only [Prod.mk.injEq] at hcounts
  have hfirst : ∀ k g, s₂.netlist k = some g → g.links.length ≤ InPlaceLinks + InEntryLinks := by
    intro k g hg
    rcases hgrows.only k g hg with hg | hg
    · have hmem := (hfront.grown.mem k).mpr (by rw [hg]; rfl)
      rw [append_nil, append_nil] at hmem
      rw [hfront.grown.noLinks k g hg ((hfront.grown.input k g hg).mpr hmem)]
      exact Nat.zero_le _
    · exact hg
  obtain ⟨S, hS, -⟩ := hend.grown.make_eq (by rw [hcounts.1, length_range])
    (by rw [hcounts.2, length_range'])
    (by rw [hcounts.2, (horder _).length_eq]; exact length_pos_iff.mpr hne)
  refine ⟨⟨S, ⟨S.size, inputs, outputs⟩, etd₃⟩, ?_⟩
  rw [makeSubnet, h₁]
  simp only [bind_eq_bind, bind_some, h₂, h₃, hS]

def subnetComponents (components : List NetComponent) : List NetComponent :=
  components.filter fun component => component.outputs ≠ []

theorem mem_subnetComponents : component ∈ subnetComponents components ↔ component ∈ components ∧
    component.outputs ≠ [] := by
  simp [subnetComponents]

theorem isSome_decompose {fuel : ℕ} (types : List SubnetType) (hnet : net.Gated)
    (hwide : Wide net (InPlaceLinks + InEntryLinks)) (horder : ∀ l, (order l).Perm l)
    (hcomponents : extractComponents net fuel = some components)
    (hdecomposed : Decomposed net components) : (decompose net types order fuel).isSome = true := by
  obtain ⟨subnets, hsubnets⟩ : ∃ subnets, (subnetComponents components).mapM
    (makeSubnet net types order) = some subnets :=
    exists_mapM fun comp hcomp => by
      obtain ⟨hmem, hne⟩ := mem_subnetComponents.mp hcomp
      exact exists_makeSubnet types hnet hwide horder (hdecomposed.closed comp hmem) hne
  rw [subnetComponents] at hsubnets
  rw [decompose, hcomponents]
  simp only [bind_eq_bind, bind_some, hsubnets]
  rfl

private theorem forall₂_of_mapM {α β : Type} {f : α → Option β} :
    ∀ {xs : List α} {ys : List β}, xs.mapM f = some ys →
    List.Forall₂ (fun x y => f x = some y) xs ys := by
  intro xs
  induction xs with
  | nil =>
    intro ys h
    cases h
    exact .nil
  | cons x xs ih =>
    intro ys h
    rw [mapM_cons] at h
    obtain ⟨y, hy, h⟩ := bind_eq_some_iff.mp h
    obtain ⟨ys', hys, h⟩ := bind_eq_some_iff.mp h
    cases h
    exact .cons hy (ih hys)

theorem described_of_decompose {fuel : ℕ} {result : Result} (hnet : net.Regular)
    (horder : ∀ l, (order l).Perm l) (hcomponents : extractComponents net fuel = some components)
    (hresult : decompose net types order fuel = some result) :
    List.Forall₂ (Described net) (subnetComponents components) result.subnets := by
  rw [decompose, hcomponents, bind_eq_bind, bind_some] at hresult
  obtain ⟨subnets, hsubnets, hresult⟩ := bind_eq_some_iff.mp hresult
  cases hresult
  refine ((forall₂_and_left _ _).mpr ⟨fun comp hcomp => mem_subnetComponents.mp hcomp,
    forall₂_of_mapM hsubnets⟩).imp ?_
  rintro comp desc ⟨⟨hmem, hne⟩, hdesc⟩
  exact described_of_makeSubnet hnet horder (inner_of_extractComponents hcomponents comp hmem) hne
    hdesc

theorem Decomposed.exists_readers (h : Decomposed net components) (hcell : net.cells c = some cell)
    (htype : isInputType cell.type = false) {links : List NetLink} (hnodup : links.Nodup)
    (hne : links ≠ []) (hlinks : ∀ l ∈ links, l.source.cellID = c ∧
      LinksOf net (net.outputs ++ net.flipFlops ++ net.softBlocks ++ net.hardBlocks) l) :
    ∃ component ∈ components, links.length ≤ component.outputs.length := by
  have hinner : ∀ l ∈ links, ∃ (i : ℕ) (component : NetComponent), components[i]? = some component ∧
      l ∈ component.outputs ∧ c ∈ component.inners := by
    intro l hl
    obtain ⟨rfl, hlink⟩ := hlinks l hl
    obtain ⟨component, hmem, hout⟩ := (h.outputs l).mpr hlink
    obtain ⟨⟨cell', hcell', -, -, hinner⟩, -⟩ := (h.closed component hmem).outputs l hout
    cases hcell.symm.trans hcell'
    obtain ⟨i, hi⟩ := getElem?_of_mem hmem
    exact ⟨i, component, hi, hout, (hinner htype).resolve_right id⟩
  obtain ⟨l₀, hl₀⟩ := exists_mem_of_ne_nil links hne
  obtain ⟨i₀, component, hcomponent, -, hc⟩ := hinner l₀ hl₀
  refine ⟨component, mem_of_getElem? hcomponent, (hnodup.subperm fun l hl => ?_).length_le⟩
  obtain ⟨i, component', hcomponent', hout, hc'⟩ := hinner l hl
  obtain rfl := h.disjoint i i₀ component' component hcomponent' hcomponent c hc' hc
  cases hcomponent.symm.trans hcomponent'
  exact hout

end NetDecomposer

namespace DesignArcs
open NetDecomposer

variable {net : Net} {components : List NetComponent} {types : List SubnetType}
  {order : List NetLink → List NetLink} {fuel n : ℕ} {rank : ℕ → ℕ}

/-- The constructor yields the graph if the subnets can be made and their outputs can be counted. -/
theorem exists_entries_iff (hnet : net.Regular) (horder : ∀ l, (order l).Perm l)
    (hcomponents : extractComponents net fuel = some components) :
    (∃ entries, construct net types order fuel = some entries ∧
      Shows net (subnetComponents components) entries) ↔ (decompose net types order fuel).isSome =
      true ∧ ∀ component ∈ components, component.outputs.length < 2 ^ 16 := by
  have hlength : (∀ component ∈ components, component.outputs.length < 2 ^ 16) ↔
      ∀ component ∈ subnetComponents components, component.outputs.length < 2 ^ 16 := by
    refine ⟨fun h comp hcomp => h comp (mem_subnetComponents.mp hcomp).1, fun h comp hcomp => ?_⟩
    by_cases hne : comp.outputs = []
    · rw [hne, length_nil]
      decide
    · exact h comp (mem_subnetComponents.mpr ⟨hcomp, hne⟩)
  rw [hlength]
  cases hresult : decompose net types order fuel with
  | none => simp [construct, hresult]
  | some result =>
    rw [← makeEntries_iff (described_of_decompose hnet horder hcomponents hresult),
      Option.isSome_some]
    simp only [construct, hresult, bind_eq_bind, bind_some, true_and]

/-- The design of a net without combinational loops shows its sequential connections if and only if
the outputs of every component can be counted with 16 bits and the subnets can be made; the cells of
narrow nets always fit. -/
theorem construct_iff (hnet : net.Gated) (hsearch : Searchable net rank)
    (hends : ∀ c ∈ net.outputs ++ net.flipFlops ++ net.softBlocks ++ net.hardBlocks,
      ∃ cell, net.cells c = some cell ∧ Signalled cell none)
    (types : List SubnetType) (horder : ∀ l, (order l).Perm l) :
    ∃ components fuel, Decomposed net components ∧ ∀ m, extractComponents net (fuel + m) =
    some components ∧
      ((∃ entries, construct net types order (fuel + m) = some entries ∧
        Shows net (subnetComponents components) entries) ↔
        (decompose net types order (fuel + m)).isSome = true ∧ ∀ component ∈ components,
        component.outputs.length < 2 ^ 16) ∧
      (Wide net (InPlaceLinks + InEntryLinks) → (decompose net types order (fuel + m)).isSome =
        true) := by
  obtain ⟨components, fuel, hdecomposed, hrun⟩ := exists_extractComponents hsearch hends
  exact ⟨components, fuel, hdecomposed,
    fun m => ⟨hrun m, exists_entries_iff hnet.toRegular horder (hrun m),
    fun hwide => isSome_decompose types hnet hwide horder (hrun m) hdecomposed⟩⟩

/-! ### A cell with many outputs -/

/-- An inverted input that is read by `n` outputs. -/
def fan (n : ℕ) : Net where
  cells
    | 0 => some ⟨.standard .IN, []⟩
    | 1 => some ⟨.standard .NOT, [⟨0, 0⟩]⟩
    | k + 2 => if k < n then some ⟨.standard .OUT, [⟨1, 0⟩]⟩ else none
  inputs := [0]
  outputs := range' 2 n
  flipFlops := []
  softBlocks := []
  hardBlocks := []

theorem fan_cases {c : ℕ} {cell : NetCell} (h : (fan n).cells c = some cell) :
    (c = 0 ∧ cell = ⟨.standard .IN, []⟩) ∨ (c = 1 ∧ cell = ⟨.standard .NOT, [⟨0, 0⟩]⟩) ∨
    cell = ⟨.standard .OUT, [⟨1, 0⟩]⟩ := by
  rcases c with - | - | k
  · exact .inl ⟨rfl, (some.inj h).symm⟩
  · exact .inr (.inl ⟨rfl, (some.inj h).symm⟩)
  · obtain ⟨-, h⟩ := Option.ite_none_right_eq_some.mp h
    exact .inr (.inr (some.inj h).symm)

theorem fan_output {k : ℕ} (hk : k < n) : (fan n).cells (k + 2) = some ⟨.standard .OUT, [⟨1, 0⟩]⟩ :=
  if_pos hk

theorem gated_fan (n : ℕ) : (fan n).Gated := by
  refine ⟨⟨fun c cell t hcell ht => ?_, fun c cell S hcell hsoft => ?_⟩,
    fun c cell hcell htype hsoft => ?_⟩
  · rcases fan_cases hcell with ⟨-, rfl⟩ | ⟨-, rfl⟩ | rfl
    all_goals
      cases ht
      exact ⟨rfl, fun sid h => by cases h⟩
  · rcases fan_cases hcell with ⟨-, rfl⟩ | ⟨-, rfl⟩ | rfl <;> cases hsoft
  · rcases fan_cases hcell with ⟨-, rfl⟩ | ⟨-, rfl⟩ | rfl
    · cases htype
    · exact ⟨.NOT, rfl, fun _ h => by cases h⟩
    · cases htype

theorem searchable_fan (n : ℕ) : Searchable (fan n) fun _ => 0 := by
  refine ⟨fun c cell hcell => ?_, fun c cell hcell l hl => ?_,
    fun c cell hcell htype l hl source hsource hinner => ?_⟩
  · rcases fan_cases hcell with ⟨-, rfl⟩ | ⟨-, rfl⟩ | rfl
    · exact (by decide : 0 < 2 ^ 16)
    · exact (by decide : 1 < 2 ^ 16)
    · exact (by decide : 1 < 2 ^ 16)
  · rcases fan_cases hcell with ⟨-, rfl⟩ | ⟨-, rfl⟩ | rfl
    · cases hl
    · obtain rfl := mem_singleton.mp hl
      exact ⟨_, rfl, by decide⟩
    · obtain rfl := mem_singleton.mp hl
      exact ⟨_, rfl, by decide⟩
  · rcases fan_cases hcell with ⟨-, rfl⟩ | ⟨-, rfl⟩ | rfl
    · cases hl
    · obtain rfl := mem_singleton.mp hl
      cases hsource
      cases hinner
    · cases htype

theorem ends_fan (n : ℕ) : ∀ c ∈ (fan n).outputs ++ (fan n).flipFlops ++ (fan n).softBlocks ++
    (fan n).hardBlocks, ∃ cell, (fan n).cells c = some cell ∧ Signalled cell none := by
  intro c hc
  simp only [fan, append_nil, mem_range'_1] at hc
  obtain ⟨k, rfl⟩ := Nat.exists_eq_add_of_le' hc.1
  exact ⟨_, fan_output (by omega), fun _ _ j _ => rfl⟩

theorem wide_fan (n : ℕ) : Wide (fan n) (InPlaceLinks + InEntryLinks) := by
  intro c cell hcell
  rcases fan_cases hcell with ⟨-, rfl⟩ | ⟨-, rfl⟩ | rfl
  all_goals exact ⟨by decide, fun S hS => by cases hS⟩

theorem exists_component_fan (hn : 0 < n) (h : Decomposed (fan n) components) :
    ∃ component ∈ components, n ≤ component.outputs.length := by
  set links : List NetLink := (range n).map fun k => ⟨⟨1, 0⟩, ⟨k + 2, 0⟩⟩ with hlinks
  have hlen : links.length = n := by rw [hlinks, length_map, length_range]
  have hnodup : links.Nodup := nodup_range.map fun a b hab => by simpa using hab
  have hne : links ≠ [] := by rwa [← length_pos_iff, hlen]
  have hreads := h.exists_readers (c := 1) rfl rfl hnodup hne fun l hl => by
    obtain ⟨k, hk, rfl⟩ := mem_map.mp hl
    have hlt := mem_range.mp hk
    refine ⟨rfl, k + 2, ?_, _, fan_output hlt, by decide, 0, rfl, rfl⟩
    simp only [fan, append_nil, mem_range'_1]
    omega
  rwa [hlen] at hreads

/-- The loop over `2 ^ 16` outputs never ends: the counter of `findArcs` starts again before it. -/
theorem construct_fan : ∃ components fuel, ∀ m, extractComponents (fan (2 ^ 16)) (fuel + m) =
    some components ∧ (decompose (fan (2 ^ 16)) [] id (fuel + m)).isSome = true ∧
    ¬ ∃ entries, construct (fan (2 ^ 16)) [] id (fuel + m) = some entries ∧
      Shows (fan (2 ^ 16)) (subnetComponents components) entries := by
  obtain ⟨components, fuel, hdecomposed, hrun⟩ :=
    exists_extractComponents (searchable_fan (2 ^ 16)) (ends_fan (2 ^ 16))
  obtain ⟨component, hmem, hle⟩ := exists_component_fan (by decide) hdecomposed
  refine ⟨components, fuel, fun m => ⟨hrun m, ?_, ?_⟩⟩
  · exact isSome_decompose [] (gated_fan _) (wide_fan _) List.Perm.refl (hrun m) hdecomposed
  · intro hshows
    have hlt := ((exists_entries_iff (gated_fan _).toRegular List.Perm.refl (hrun m)).mp hshows).2
    exact absurd (hlt component hmem) (Nat.not_lt.mpr hle)

/-- A component with three outputs. -/
theorem construct_iff_fan : ∃ components fuel, Decomposed (fan 3) components ∧
    ∀ m, extractComponents (fan 3) (fuel + m) = some components ∧
      ((∃ entries, construct (fan 3) [] id (fuel + m) = some entries ∧
          Shows (fan 3) (subnetComponents components) entries) ↔
        (decompose (fan 3) [] id (fuel + m)).isSome = true ∧
          ∀ component ∈ components, component.outputs.length < 2 ^ 16) ∧
      (Wide (fan 3) (InPlaceLinks + InEntryLinks) →
        (decompose (fan 3) [] id (fuel + m)).isSome = true) :=
  construct_iff (gated_fan 3) (searchable_fan 3) (ends_fan 3) [] List.Perm.refl

end DesignArcs

end UtopiaEda
