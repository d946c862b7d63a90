import UtopiaEda.ViewCaching
import UtopiaEda.Translations

/-!
# The subnet of a view

`getSubnet` copies the cells of a view into a new builder while it traverses the view. The outputs
come in the order of the traversal, and links lose the number of the output they lead to. A cell
without links that is not an input of the view makes an assertion fail.
-/
namespace UtopiaEda

open List
open Option (bind_eq_bind bind_eq_some_iff bind_some getD_some isSome_iff_exists map_some some.inj)
open PostorderSearches SubnetBuilder

def Netlist.firstPorts (N : Netlist) : Netlist := fun i =>
  (N i).map (fun g => ⟨g.type, g.links.map (fun l => ⟨l.idx, 0, l.inv⟩)⟩)

def Gate.Copyable (g : Gate) : Prop := g.links ≠ [] ∧ g.type.isNegative = false

namespace SubnetView

variable {v : SubnetView} {b b' : SubnetBuilder} {data : EntryID → Option EntryID}
  {es : List ViewEntry} {V E ins ins' mid mid' outs : List EntryID} {i j k o : EntryID}
  {isOut : Bool} {c : SubnetCell} {g : Gate}

/-- The network above the inputs of the view, which take any values. -/
def window (v : SubnetView) : Netlist := fun i =>
  if i ∈ v.inputs then some ⟨.IN, []⟩ else v.parent.netlist i

/-- The outputs in the order in which `getSubnet` emits them. -/
def emitted (v : SubnetView) : List EntryID :=
  v.inputs.filter (· ∈ v.outputs) ++ (v.outputs.filter (· ∉ v.inputs)).reverse

structure Cut (v : SubnetView) : Prop where
  ok : v.Ok
  inputs : ∀ i ∈ v.inputs, (v.parent.netlist i).isSome
  distinct : v.inputs.Nodup ∧ v.outputs.Nodup
  cut : ∀ o ∈ v.outputs, ∀ i g, v.parent.netlist.InCone v.inputs o i → v.parent.netlist i = some g →
    g.type ≠ .IN
  outLink : ∀ i g, v.parent.netlist i = some g → g.type = .OUT → ∃ l, g.links = [l]

structure Extracts (lib : CellLibrary) (v : SubnetView) (b : SubnetBuilder) : Prop where
  inputs : b.inputIDs.length = v.inputs.length
  outputs : b.outputIDs.length = v.outputs.length
  values : ∀ x y σ, v.window.Solves lib x σ →
    (∀ (k : ℕ) i j, v.inputs[k]? = some i → b.inputIDs[k]? = some j → y j = x i) →
    ∀ (k : ℕ) o j, v.outputs[k]? = some o → b.outputIDs[k]? = some j →
    b.value lib y j 0 = some (σ o 0)

/-- The cell `k` of the new builder has the value of the cell `i` of the view. -/
def Agrees (v : SubnetView) (b : SubnetBuilder) (ins : List EntryID) (k i : EntryID) : Prop :=
  ∀ lib x y ρ τ, b.netlist.Solves lib y ρ → v.window.firstPorts.Solves lib x τ →
    (∀ (n : ℕ) m j, v.inputs[n]? = some m → ins[n]? = some j → y j = x m) → ρ k 0 = τ i 0

theorem Agrees.mono (h : v.Agrees b ins k i) (hle : b.netlist.Le b'.netlist) (hins : ins <+: ins') :
    v.Agrees b' ins' k i := by
  intro lib x y ρ τ hρ hτ hxy
  obtain ⟨rest, rfl⟩ := hins
  refine h lib x y ρ τ (Solves.mono hρ hle) hτ (fun n i j hi hj => hxy n i j hi ?_)
  rw [getElem?_append_left (List.getElem?_eq_some_iff.mp hj).1, hj]

/-- The value of a link of the new builder is that of the cell `i`. -/
def LinkAgrees (v : SubnetView) (b : SubnetBuilder) (ins : List EntryID) (l : Link) (i : EntryID) :
    Prop :=
  ∀ lib x y ρ τ, b.netlist.Solves lib y ρ → v.window.firstPorts.Solves lib x τ →
    (∀ (n : ℕ) k j, v.inputs[n]? = some k → ins[n]? = some j → y j = x k) → l.value ρ = τ i 0

structure Extracting (v : SubnetView) (V E : List EntryID) (b : SubnetBuilder)
    (data : EntryID → Option EntryID) (ins mid outs : List EntryID) : Prop where
  grown : Grown b ins mid outs
  data : ∀ i ∈ V, (∀ g, v.window i = some g → g.type ≠ .OUT) →
    ∃ k, data i = some k ∧ b.ValidLinks [⟨k, 0, false⟩] ∧ v.Agrees b ins k i
  outs : List.Forall₂ (v.Agrees b ins) outs E

theorem Extracting.init : v.Extracting [] [] {} (fun _ => none) [] [] [] :=
  ⟨.init, fun _ hi => absurd hi not_mem_nil, .nil⟩

/-- A visited cell has a new cell with its value, unless it is an output of the network. -/
theorem Extracting.visit (h : v.Extracting V E b data ins mid outs)
    (hgrown : Grown b' ins' mid' outs) (hle : b.netlist.Le b'.netlist) (hins : ins <+: ins')
    (hnew : (∀ g, v.window i = some g → g.type ≠ .OUT) → b'.ValidLinks [⟨k, 0, false⟩] ∧
      v.Agrees b' ins' k i) :
    v.Extracting (V ++ [i]) E b' (Function.update data i (some k)) ins' mid' outs := by
  refine ⟨hgrown, fun j hj ht => ?_, h.outs.imp (fun _ _ ha => ha.mono hle hins)⟩
  by_cases hji : j = i
  · subst hji
    exact ⟨k, Function.update_self .., hnew ht⟩
  · have hold : j ∈ V := (mem_append.mp hj).resolve_right
      (fun hj => hji (mem_singleton.mp hj))
    obtain ⟨m, hm, hv, ha⟩ := h.data j hold ht
    exact ⟨m, by rw [Function.update_of_ne hji, hm], hv.mono hle, ha.mono hle hins⟩

theorem Extracting.emit (h : v.Extracting V E b data ins mid outs) {l : Link}
    (hl : b.ValidLinks [l]) (hval : v.LinkAgrees b ins l i) : ∃ b', b.addOutput l =
    some (b', ⟨b.size, 0, false⟩) ∧
      v.Extracting V (E ++ [i]) b' data ins mid (outs ++ [b.size]) := by
  obtain ⟨b', hadd, hgrown, happ⟩ := h.grown.addOutput hl
  refine ⟨b', hadd, hgrown, fun j hj ht => ?_, ?_⟩
  · obtain ⟨m, hm, hv, ha⟩ := h.data j hj ht
    exact ⟨m, hm, hv.mono happ.le, ha.mono happ.le (prefix_refl ins)⟩
  · refine rel_append (h.outs.imp (fun _ _ ha => ha.mono happ.le (prefix_refl ins))) (.cons ?_ .nil)
    intro lib x y ρ τ hρ hτ hxy
    rw [hρ _ _ happ.here, Netlist.gateValue, if_neg (fun ht => by cases ht)]
    exact hval lib x y ρ τ (Solves.mono hρ happ.le) hτ hxy

theorem Agrees.link (h : v.Agrees b ins k i) : v.LinkAgrees b ins ⟨k, 0, false⟩ i := by
  intro lib x y ρ τ hρ hτ hxy
  rw [Link.value, Bool.xor_false]
  exact h lib x y ρ τ hρ hτ hxy

private theorem emit_data (h : v.Extracting V E b data ins mid outs) (hi : i ∈ V)
    (hk : data i = some k) (ht : ∀ g, v.window i = some g → g.type ≠ .OUT) (isOut : Bool) :
    ∃ b' outs', emitOutput isOut ⟨k, 0, false⟩ b = some b' ∧
      v.Extracting V (E ++ if isOut then [i] else []) b' data ins mid outs' := by
  obtain ⟨m, hm, hv, ha⟩ := h.data i hi ht
  obtain rfl : k = m := by
    rw [hk] at hm
    exact some.inj hm
  cases isOut with
  | false => exact ⟨b, outs, rfl, by rw [if_neg Bool.false_ne_true, append_nil]; exact h⟩
  | true =>
    obtain ⟨b', hadd, h'⟩ := h.emit hv ha.link
    exact ⟨b', _, by rw [emitOutput, if_pos rfl, hadd, map_some], h'⟩

theorem Extracting.input (h : v.Extracting V E b data ins [] outs)
    (hi : v.inputs[ins.length]? = some i) (hc : (v.parent.getCell i).isSome) (isOut : Bool) :
    ∃ b' data' outs', extract v.parent true isOut i (b, data) = some (b', data') ∧
      v.Extracting (V ++ [i]) (E ++ if isOut then [i] else []) b' data' (ins ++ [b.size])
      [] outs' := by
  obtain ⟨c, hc⟩ := isSome_iff_exists.mp hc
  obtain ⟨b₁, hadd, hgrown, happ⟩ := h.grown.addInput
  have hmem : i ∈ v.inputs := mem_of_getElem? hi
  have hwin : v.window i = some ⟨.IN, []⟩ := by rw [window, if_pos hmem]
  have hnew : b₁.ValidLinks [⟨b.size, 0, false⟩] ∧ v.Agrees b₁ (ins ++ [b.size]) b.size i := by
    constructor
    · apply validLinks_of_netlist
      intro m hm
      rw [mem_singleton.mp hm]
      exact ⟨_, happ.here, fun ht => by cases ht⟩
    · intro lib x y ρ τ hρ hτ hxy
      have hg : v.window.firstPorts i = some ⟨.IN, []⟩ := by rw [Netlist.firstPorts, hwin]; rfl
      rw [hρ _ _ happ.here, hτ _ _ hg, Netlist.gateValue, Netlist.gateValue, if_pos rfl, if_pos rfl]
      exact hxy ins.length i b.size hi (getElem?_concat_length)
  have h₁ := h.visit hgrown happ.le (prefix_append ins [b.size]) (fun _ => hnew)
  obtain ⟨b', outs', hemit, h'⟩ := emit_data h₁ (mem_append_right _ (mem_singleton_self i))
    (Function.update_self ..) (fun g hg ht => by
      rw [hwin] at hg
      rw [← some.inj hg] at ht
      cases ht) isOut
  refine ⟨b', _, outs', ?_, h'⟩
  simp only [extract, copyCell, hc, hadd, bind_eq_bind, bind_some, if_true, Bool.true_or,
    Bool.and_true, hemit]

private theorem newLinks_eq (h : v.Extracting V E b data ins mid outs) (hv : v.Cut)
    (hg : v.parent.netlist i = some g) (hvisited : ∀ l ∈ g.links, l.idx ∈ V) :
    ∃ ls, g.links.mapM (fun l => (data l.idx).map (fun newIdx => (⟨newIdx, 0, l.inv⟩ : Link))) =
    some ls ∧
      ls.length = g.links.length ∧ b.ValidLinks ls ∧ ∀ lib x y ρ τ, b.netlist.Solves lib y ρ →
      v.window.firstPorts.Solves lib x τ →
        (∀ (n : ℕ) k j, v.inputs[n]? = some k → ins[n]? = some j → y j = x k) →
        ls.map (Link.value ρ) =
        (g.links.map (fun l => (⟨l.idx, 0, l.inv⟩ : Link))).map (Link.value τ) := by
  -- the fanins are no outputs of the network, so they have new cells
  have hnew : ∀ l ∈ g.links, ∃ k, data l.idx = some k ∧ b.ValidLinks [⟨k, 0, false⟩] ∧
      v.Agrees b ins k l.idx := by
    intro l hl
    refine h.data l.idx (hvisited l hl) (fun g' hg' ht => ?_)
    obtain ⟨g'', hg'', hnot⟩ := hv.ok.net.net.closed ⟨g, hg, l, hl, rfl⟩
    rw [window] at hg'
    split at hg'
    · rw [← some.inj hg'] at ht
      cases ht
    · rw [hg''] at hg'
      exact hnot (some.inj hg' ▸ ht)
  refine ⟨g.links.map (fun l => ⟨(data l.idx).getD 0, 0, l.inv⟩), ?_, length_map _, ?_, ?_⟩
  · apply Netlist.mapM_eq_some
    intro l hl
    obtain ⟨k, hk, -⟩ := hnew l hl
    rw [hk, map_some, getD_some]
  · intro m hm
    obtain ⟨l, hl, rfl⟩ := mem_map.mp hm
    obtain ⟨k, hk, hkv, -⟩ := hnew l hl
    rw [hk, getD_some]
    exact hkv ⟨k, 0, false⟩ (mem_singleton_self _)
  · intro lib x y ρ τ hρ hτ hxy
    rw [map_map, map_map]
    refine map_congr_left (fun l hl => ?_)
    obtain ⟨k, hk, -, ha⟩ := hnew l hl
    simp only [Function.comp_apply, hk, getD_some, Link.value, ha lib x y ρ τ hρ hτ hxy]

private theorem extract_cell {ls : List Link} {newLink : Link} (hread : v.parent.LinksRead)
    (hg : v.parent.netlist i = some g)
    (hne : g.links ≠ [])
    (hmap : g.links.mapM (fun l => (data l.idx).map (fun newIdx => (⟨newIdx, 0, l.inv⟩ : Link))) =
      some ls)
    (hadd : b.addCell g.type ls = some (b', newLink)) :
    extract v.parent false isOut i (b, data) =
      (emitOutput (isOut && !decide (g.type = .OUT)) newLink b').map
        (fun b => (b, Function.update data i (some newLink.idx))) := by
  obtain ⟨c, hc, hct, hcl⟩ := liveCell_of_netlist hg
  rw [← hcl] at hne hmap
  rw [← hct] at hadd
  have hout : c.isOut = decide (g.type = .OUT) := by rw [SubnetCell.isOut, hct]
  rw [← hread.mapM hc] at hmap
  simp only [extract, copyCell, getCell_of_live hc, if_neg hne, hmap, hadd, hout, bind_eq_bind,
    bind_some, Bool.false_eq_true, if_false, Bool.false_or]
  cases emitOutput (isOut && !decide (g.type = .OUT)) newLink b' <;> rfl

private theorem extract_out (isOut : Bool) (h : v.Extracting V E b data ins mid outs) (hv : v.Cut)
    (hi : i ∉ v.inputs) (hg : v.parent.netlist i = some g) (hot : g.type = .OUT)
    (hvisited : ∀ l ∈ g.links, l.idx ∈ V) : ∃ b' data' outs', extract v.parent false isOut i (b,
    data) = some (b', data') ∧
      v.Extracting (V ++ [i]) (E ++ [i]) b' data' ins mid outs' := by
  obtain ⟨ls, hmap, hlen, hvalid, hvalue⟩ := newLinks_eq h hv hg hvisited
  have hwin : v.window i = some g := by rw [window, if_neg hi, hg]
  obtain ⟨l, hl⟩ := hv.outLink i g hg hot
  obtain ⟨m, rfl⟩ : ∃ m, ls = [m] := length_eq_one_iff.mp (by rw [hlen, hl, length_singleton])
  have hagree : v.LinkAgrees b ins m i := by
    intro lib x y ρ τ hρ hτ hxy
    have hval := hvalue lib x y ρ τ hρ hτ hxy
    have hfirst : v.window.firstPorts i =
        some ⟨g.type, g.links.map (fun l => ⟨l.idx, 0, l.inv⟩)⟩ := by
      rw [Netlist.firstPorts, hwin, map_some]
    rw [hτ i _ hfirst, Netlist.gateValue, if_neg (by rw [hot]; exact fun h => by cases h),
      ← hval, hot]
    rfl
  obtain ⟨b', hadd, h'⟩ := h.emit hvalid hagree
  have hrun : extract v.parent false isOut i (b, data) =
      some (b', Function.update data i (some b.size)) := by
    rw [extract_cell hv.ok.read hg (by rw [hl]; exact cons_ne_nil _ _) hmap
      (by rw [hot]; exact hadd), hot, decide_eq_true (rfl : CellTypeID.OUT = .OUT), Bool.not_true,
      Bool.and_false]
    rfl
  exact ⟨b', _, _, hrun, h'.visit h'.grown (.refl _) (prefix_refl ins)
    (fun ht => absurd hot (ht g hwin))⟩

private theorem extract_gate (h : v.Extracting V E b data ins mid outs) (hv : v.Cut)
    (hi : i ∉ v.inputs) (hg : v.parent.netlist i = some g) (hin : g.type ≠ .IN)
    (hot : g.type ≠ .OUT) (hok : g.Copyable) (hvisited : ∀ l ∈ g.links, l.idx ∈ V) :
    ∃ b' data' mid' outs', extract v.parent false isOut i (b, data) = some (b', data') ∧
      v.Extracting (V ++ [i]) (E ++ if isOut then [i] else []) b' data' ins mid' outs' := by
  obtain ⟨ls, hmap, -, hvalid, hvalue⟩ := newLinks_eq h hv hg hvisited
  have hwin : v.window i = some g := by rw [window, if_neg hi, hg]
  obtain ⟨b₁, idx, mid', hadd, hgrown, hgate⟩ := h.grown.addGate hvalid hok.2 hin hot
  have hlive : b₁.ValidLinks [⟨idx, 0, false⟩] := by
    apply validLinks_of_netlist
    intro m hm
    obtain ⟨g', hg', ht⟩ := hgate.live
    rw [mem_singleton.mp hm]
    exact ⟨g', hg', ht ▸ hot⟩
  have hagree : v.Agrees b₁ ins idx i := by
    intro lib x y ρ τ hρ hτ hxy
    have hfirst : v.window.firstPorts i =
        some ⟨g.type, g.links.map (fun l => ⟨l.idx, 0, l.inv⟩)⟩ := by
      rw [Netlist.firstPorts, hwin, map_some]
    rw [hτ i _ hfirst, Netlist.gateValue, if_neg hin, hgate.value lib y ρ hρ hin,
      hvalue lib x y ρ τ (Solves.mono hρ hgate.le) hτ hxy]
  have h₁ := h.visit hgrown hgate.le (prefix_refl ins) (fun _ => ⟨hlive, hagree⟩)
  obtain ⟨b', outs', hemit, h'⟩ := emit_data h₁ (mem_append_right _ (mem_singleton_self i))
    (Function.update_self ..) (fun g' hg' => by
      rw [hwin] at hg'
      rw [← some.inj hg']
      exact hot) isOut
  refine ⟨b', _, mid', outs', ?_, h'⟩
  rw [extract_cell hv.ok.read hg hok.1 hmap hadd, decide_eq_false hot, Bool.not_false,
    Bool.and_true, hemit]
  rfl

def extractAll (parent : SubnetBuilder) (es : List ViewEntry)
    (st : SubnetBuilder × (EntryID → Option EntryID)) :
    Option (SubnetBuilder × (EntryID → Option EntryID)) :=
  es.foldlM (fun st e => extract parent e.isIn e.isOut e.entryID st) st

private theorem extract_inputs (hv : v.Cut) : ∀ {B A : List EntryID} {b : SubnetBuilder}
    {data : EntryID → Option EntryID} {ins outs : List EntryID}, v.inputs = A ++ B →
    v.Extracting A (A.filter (· ∈ v.outputs)) b data ins [] outs → ins.length = A.length →
    ∃ b' data' ins' outs', extractAll v.parent (B.map (fun i => ⟨true, decide (i ∈ v.outputs), i⟩))
    (b, data) =
        some (b', data') ∧ ins'.length = v.inputs.length ∧
      v.Extracting v.inputs (v.inputs.filter (· ∈ v.outputs)) b' data' ins' [] outs' := by
  intro B
  induction B with
  | nil =>
    intro A b data ins outs hA h hlen
    rw [append_nil] at hA
    rw [hA]
    exact ⟨b, data, ins, outs, rfl, hlen, h⟩
  | cons i B ih =>
    intro A b data ins outs hA h hlen
    have hi : v.inputs[ins.length]? = some i := by
      rw [hA, hlen, getElem?_append_right (Nat.le_refl _), Nat.sub_self, getElem?_cons_zero]
    have hcell : (v.parent.getCell i).isSome := by
      obtain ⟨g, hg⟩ := isSome_iff_exists.mp (hv.inputs i (mem_of_getElem? hi))
      obtain ⟨c, hc, -⟩ := liveCell_of_netlist hg
      rw [getCell_of_live hc]
      rfl
    obtain ⟨b₁, data₁, outs₁, hrun, h₁⟩ := h.input hi hcell (decide (i ∈ v.outputs))
    have hfilter : (A ++ [i]).filter (· ∈ v.outputs) =
        A.filter (· ∈ v.outputs) ++ if decide (i ∈ v.outputs) then [i] else [] := by
      rw [filter_append, filter_singleton, cond_eq_ite]
    rw [← hfilter] at h₁
    obtain ⟨b', data', ins', outs', hrest, hlen', h'⟩ := ih
      (by rw [hA, append_assoc, singleton_append]) h₁ (by simp [hlen])
    refine ⟨b', data', ins', outs', ?_, hlen', h'⟩
    rw [extractAll, map_cons, foldlM_cons, hrun]
    exact hrest

private theorem extract_cells (hv : v.Cut) :
    ∀ {es : List ViewEntry} {V E : List EntryID} {b : SubnetBuilder}
    {data : EntryID → Option EntryID} {mid outs : List EntryID},
    v.Extracting V E b data ins mid outs →
    (∀ e ∈ es, e.isIn = false ∧ e.entryID ∉ v.inputs ∧ ∃ g, v.parent.netlist e.entryID = some g ∧
      g.type ≠ .IN ∧ g.Copyable ∧ (g.type = .OUT → e.isOut = true)) →
    (∀ A e B, es = A ++ e :: B → ∀ j, v.parent.netlist.Fanin e.entryID j →
      j ∈ V ++ A.map ViewEntry.entryID) →
    ∃ b' data' mid' outs', extractAll v.parent es (b, data) = some (b', data') ∧
      v.Extracting (V ++ es.map ViewEntry.entryID)
        (E ++ (es.filter ViewEntry.isOut).map ViewEntry.entryID) b' data' ins mid' outs' := by
  intro es
  induction es with
  | nil =>
    intro V E b data mid outs h _ _
    exact ⟨b, data, mid, outs, rfl, by simpa using h⟩
  | cons e es ih =>
    intro V E b data mid outs h hes hbefore
    obtain ⟨hin, hni, g, hg, ht, hok, hout⟩ := hes e (mem_cons_self ..)
    have hvisited : ∀ l ∈ g.links, l.idx ∈ V := by
      intro l hl
      have hmem := hbefore [] e es rfl l.idx ⟨g, hg, l, hl, rfl⟩
      simpa using hmem
    have hstep : ∃ b₁ data₁ mid₁ outs₁, extract v.parent e.isIn e.isOut e.entryID (b, data) =
        some (b₁, data₁) ∧ v.Extracting (V ++ [e.entryID])
          (E ++ if e.isOut then [e.entryID] else []) b₁ data₁ ins mid₁ outs₁ := by
      rw [hin]
      by_cases hot : g.type = .OUT
      · obtain ⟨b₁, data₁, outs₁, hrun, h₁⟩ := extract_out e.isOut h hv hni hg hot hvisited
        rw [hout hot, if_pos rfl]
        rw [hout hot] at hrun
        exact ⟨b₁, data₁, mid, outs₁, hrun, h₁⟩
      · exact extract_gate h hv hni hg ht hot hok hvisited
    obtain ⟨b₁, data₁, mid₁, outs₁, hrun, h₁⟩ := hstep
    obtain ⟨b', data', mid', outs', hrest, h'⟩ :=
      ih h₁ (fun e' he' => hes e' (mem_cons_of_mem e he'))
      (fun A e' B hl j hj => by
        have hmem := hbefore (e :: A) e' B (by rw [hl, cons_append]) j hj
        rw [map_cons] at hmem
        rw [append_assoc]
        exact hmem)
    refine ⟨b', data', mid', outs', ?_, ?_⟩
    · rw [extractAll, foldlM_cons, hrun]
      exact hrest
    · have hids : V ++ (e :: es).map ViewEntry.entryID =
          V ++ [e.entryID] ++ es.map ViewEntry.entryID := by simp
      have houts : E ++ ((e :: es).filter ViewEntry.isOut).map ViewEntry.entryID =
          E ++ (if e.isOut then [e.entryID] else []) ++
          (es.filter ViewEntry.isOut).map ViewEntry.entryID := by
        cases ho : e.isOut <;> simp [ho]
      rw [hids, houts]
      exact h'

def Copyable (v : SubnetView) : Prop :=
  ∀ o ∈ v.outputs, ∀ i g, v.parent.netlist.InCone v.inputs o i → v.parent.netlist i = some g →
    g.Copyable

theorem getSubnet_eq (h : v.Ok) {passes : List (List EntryID)} (hp : v.walker.Traverses passes) :
    v.getSubnet = (extractAll v.parent (v.walker.viewEntries passes) ({}, fun _ => none)).map
    Prod.fst := by
  obtain ⟨r, hsound⟩ := h.exists_rank
  rw [getSubnet, SubnetViewWalker.run, SubnetViewWalker.runForward_fresh,
    hsound.iterate_eq hp (fun _ _ _ _ => rfl)]
  change Option.map Prod.fst (calls _ _ _).2 = _
  exact congrArg (fun p => Option.map Prod.fst p.2) calls_bind

private theorem copyable_of_extract {st st' : SubnetBuilder × (EntryID → Option EntryID)}
    (h : extract v.parent false isOut i st = some st') (hg : v.parent.netlist i = some g) :
    g.Copyable := by
  obtain ⟨c, hc, hct, hcl⟩ := liveCell_of_netlist hg
  rw [extract, getCell_of_live hc] at h
  obtain ⟨c', hc', h⟩ := bind_eq_some_iff.mp h
  obtain rfl := some.inj hc'
  obtain ⟨p, hp, -⟩ := bind_eq_some_iff.mp h
  rw [copyCell, if_neg Bool.false_ne_true] at hp
  split at hp
  · cases hp
  · rename_i hne
    obtain ⟨ls, -, hadd⟩ := bind_eq_some_iff.mp hp
    refine ⟨hcl ▸ hne, ?_⟩
    rw [addCell] at hadd
    split at hadd
    · cases hadd
    · rename_i hnot
      rw [not_or, hct, Bool.not_eq_true] at hnot
      exact hnot.1

private theorem copyable_of_extractAll {st st' : SubnetBuilder × (EntryID → Option EntryID)}
    (h : extractAll v.parent es st = some st') : ∀ e ∈ es, e.isIn = false →
    ∀ g, v.parent.netlist e.entryID = some g → g.Copyable := by
  induction es generalizing st with
  | nil => exact fun e he => absurd he not_mem_nil
  | cons e es ih =>
    intro e' he' hin g hg
    rw [extractAll, foldlM_cons] at h
    obtain ⟨st₁, hrun, hrest⟩ := bind_eq_some_iff.mp h
    rcases mem_cons.mp he' with rfl | he'
    · rw [hin] at hrun
      exact copyable_of_extract hrun hg
    · exact ih hrest e' he' hin g hg

private theorem cone_of_visited (hv : v.Cut) {passes : List (List EntryID)}
    (hp : v.walker.Traverses passes) : ∀ i ∈ visits v.walker.roots passes, ∃ o ∈ v.outputs,
    v.parent.netlist.InCone v.inputs o i := by
  intro i hi
  obtain ⟨o, ho, hc⟩ := hp.cone (fun t ht hin => (SubnetViewWalker.mem_roots.mp ht).2
    (mem_reverse.mp hin)) i hi
  have hout := (SubnetViewWalker.mem_roots.mp ho).1
  exact ⟨o, hout, (cone_iff hv.ok.net hv.ok.read (hv.ok.outputs o hout) (fun _ => mem_reverse)).mp
    hc⟩

private theorem inner_of_passEntries {roots : List EntryID} (passes : List (List EntryID)) :
    ∀ e ∈ SubnetViewIterator.passEntries roots passes, e.isOut = false →
    e.entryID ∈ passes.flatten := by
  induction roots generalizing passes with
  | nil => cases passes <;> exact fun e he => absurd he not_mem_nil
  | cons i roots ih =>
    cases passes with
    | nil => exact fun e he => absurd he not_mem_nil
    | cons inner passes =>
      intro e he hout
      rw [SubnetViewIterator.passEntries_cons, mem_append, mem_append] at he
      rw [flatten_cons, mem_append]
      rcases he with (he | he) | he
      · obtain ⟨k, hk, rfl⟩ := mem_map.mp he
        exact .inl hk
      · rw [mem_singleton.mp he] at hout
        cases hout
      · exact .inr (ih passes e he hout)

/-- The extraction of a view whose cells can be copied. -/
theorem exists_extraction (hv : v.Cut) (hlinks : v.Copyable) :
    ∃ b ins mid outs, v.getSubnet = some b ∧ Grown b ins mid outs ∧ ins.length = v.inputs.length ∧
    List.Forall₂ (v.Agrees b ins) outs v.emitted := by
  obtain ⟨r, hsound⟩ := hv.ok.exists_rank
  obtain ⟨passes, hp⟩ := hsound.exists_passes
  obtain ⟨b₁, data₁, ins, outs₁, hrun₁, hlen, h₁⟩ :=
    extract_inputs hv (nil_append v.inputs).symm .init rfl
  have hids : (SubnetViewIterator.passEntries v.walker.roots passes).map ViewEntry.entryID =
      visits v.walker.roots passes := SubnetViewWalker.passEntries_ids passes
  have hvisited : ∀ e ∈ SubnetViewIterator.passEntries v.walker.roots passes,
      e.entryID ∈ visits v.walker.roots passes := fun e he => hids ▸ mem_map_of_mem he
  have hes : ∀ e ∈ SubnetViewIterator.passEntries v.walker.roots passes, e.isIn = false ∧
      e.entryID ∉ v.inputs ∧ ∃ g, v.parent.netlist e.entryID = some g ∧ g.type ≠ .IN ∧ g.Copyable ∧
        (g.type = .OUT → e.isOut = true) := by
    intro e he
    obtain ⟨o, ho, hc⟩ := cone_of_visited hv hp _ (hvisited e he)
    obtain ⟨g, hg⟩ := isSome_iff_exists.mp
      (hc.isSome hv.ok.net.net.closed' (hv.ok.outputs o ho))
    refine ⟨SubnetViewWalker.passEntries_isIn passes e he, hc.not_mem, g, hg, hv.cut o ho _ g hc hg,
      hlinks o ho _ g hc hg, fun hot => ?_⟩
    cases hout : e.isOut with
    | true => rfl
    | false =>
      obtain ⟨a, ha, hnext⟩ :=
        hp.led_to hsound.ranked hsound.roots _ (inner_of_passEntries passes e he hout)
      obtain ⟨g', hg', hnot'⟩ := hv.ok.net.net.closed ((mem_next hv.ok.read ha).mp hnext)
      rw [hg] at hg'
      exact absurd hot (some.inj hg' ▸ hnot')
  have hbefore : ∀ A e B, SubnetViewIterator.passEntries v.walker.roots passes = A ++ e :: B →
      ∀ j, v.parent.netlist.Fanin e.entryID j → j ∈ v.inputs ++ A.map ViewEntry.entryID := by
    intro A e B hl j hj
    have hmap := congrArg (map ViewEntry.entryID) hl
    rw [hids, map_append, map_cons] at hmap
    obtain ⟨g, hg, -⟩ := id hj
    have hmem := hp.topological _ _ _ hmap j ((mem_next hv.ok.read (by rw [hg]; rfl)).mpr hj)
    rw [mem_append]
    exact hmem.imp mem_reverse.mp id
  obtain ⟨b, data, mid, outs, hrun, h⟩ := extract_cells hv h₁ hes hbefore
  refine ⟨b, ins, mid, outs, ?_, h.grown, hlen, ?_⟩
  · have happend : extractAll v.parent (v.walker.viewEntries passes) ({}, fun _ => none) =
        (extractAll v.parent (v.inputs.map (fun i => ⟨true, decide (i ∈ v.outputs), i⟩))
          ({}, fun _ => none)).bind (extractAll v.parent
          (SubnetViewIterator.passEntries v.walker.roots passes)) := foldlM_append
    rw [getSubnet_eq hv.ok hp, happend, hrun₁, bind_some, hrun, map_some]
  · have houts := SubnetViewWalker.passEntries_outs passes hp.length_eq
    rw [houts] at h
    exact h.outs

theorem emitted_perm (hv : v.Cut) : v.emitted.Perm v.outputs := by
  obtain ⟨hins, houts⟩ := hv.distinct
  have hnd : v.emitted.Nodup := by
    refine nodup_append.mpr ⟨hins.filter _, nodup_reverse.mpr (houts.filter _),
      fun a ha b hb hab => ?_⟩
    rw [mem_filter] at ha
    rw [mem_reverse, mem_filter, decide_eq_true_iff] at hb
    exact hb.2 (hab ▸ ha.1)
  rw [perm_ext_iff_of_nodup hnd houts]
  intro i
  rw [emitted, mem_append, mem_reverse, mem_filter, mem_filter, decide_eq_true_iff,
    decide_eq_true_iff]
  tauto

private theorem exists_assignment (is : List EntryID) {js : List EntryID} (hnd : js.Nodup)
    (x : EntryID → Bool) : ∃ y : EntryID → Bool, ∀ (n : ℕ) i j, is[n]? = some i → js[n]? = some j →
    y j = x i := by
  refine ⟨fun j => x ((is[js.idxOf j]?).getD 0), fun n i j hi hj => ?_⟩
  obtain ⟨hlt, rfl⟩ := List.getElem?_eq_some_iff.mp hj
  simp only [hnd.idxOf_getElem n hlt, hi, getD_some]

theorem acyclic_window (h : v.parent.netlist.Acyclic) : v.window.Acyclic := by
  obtain ⟨r, hr⟩ := h
  refine ⟨r, fun i j ⟨g, hg, l, hl, hlj⟩ => hr i j ?_⟩
  rw [window] at hg
  split at hg
  · rw [← some.inj hg] at hl
    cases hl
  · exact ⟨g, hg, l, hl, hlj⟩

private theorem exists_window (h : v.Ok) (lib : CellLibrary) (x : EntryID → Bool) :
    ∃ τ, v.window.firstPorts.Solves lib x τ := by
  obtain ⟨r, hr⟩ := acyclic_window h.net.acyclic
  refine Netlist.Acyclic.exists_solves lib ⟨r, fun i j ⟨g, hg, l, hl, hlj⟩ => hr i j ?_⟩ x
  obtain ⟨g', hg', rfl⟩ := Option.map_eq_some_iff.mp hg
  obtain ⟨l', hl', rfl⟩ := mem_map.mp hl
  exact ⟨g', hg', l', hl', hlj⟩

private theorem getElem?_of_forall₂ {α β : Type} {R : α → β → Prop} {as : List α} {bs : List β}
    (h : List.Forall₂ R as bs) {n : ℕ} {b : β} (hb : bs[n]? = some b) : ∃ a, as[n]? = some a ∧
    R a b := by
  induction h generalizing n with
  | nil => cases hb
  | @cons a b' as bs hab _ ih =>
    cases n with
    | zero =>
      obtain rfl : b' = b := some.inj hb
      exact ⟨a, rfl, hab⟩
    | succ n => exact ih hb

/-- The extracted subnet is right exactly if the cells of the view can be copied, and the outputs in
the order of the traversal have, with all links led to first outputs, the functions of the outputs
in the order of the mapping. -/
theorem getSubnet_exact {lib : CellLibrary} (hv : v.Cut) :
    (∃ b, v.getSubnet = some b ∧ v.Extracts lib b) ↔ v.Copyable ∧
      ∀ x σ τ, v.window.Solves lib x σ → v.window.firstPorts.Solves lib x τ →
        ∀ (k : ℕ) o o', v.outputs[k]? = some o → v.emitted[k]? = some o' → τ o' 0 = σ o 0 := by
  constructor
  · intro ⟨b, hb, hex⟩
    have hlinks : v.Copyable := by
      obtain ⟨r, hsound⟩ := hv.ok.exists_rank
      obtain ⟨passes, hp⟩ := hsound.exists_passes
      rw [getSubnet_eq hv.ok hp] at hb
      obtain ⟨st, hst, -⟩ := Option.map_eq_some_iff.mp hb
      intro o ho i g hc hg
      have hvisit : i ∈ visits v.walker.roots passes := hp.cone_mem
        (SubnetViewWalker.mem_roots.mpr ⟨ho, hc.1⟩)
        ((cone_iff hv.ok.net hv.ok.read (hv.ok.outputs o ho) (fun _ => mem_reverse)).mpr hc)
      rw [← SubnetViewWalker.passEntries_ids] at hvisit
      obtain ⟨e, he, rfl⟩ := mem_map.mp hvisit
      exact copyable_of_extractAll hst e (mem_append_right _ he)
        (SubnetViewWalker.passEntries_isIn passes e he) g hg
    refine ⟨hlinks, fun x σ τ hσ hτ k o o' ho ho' => ?_⟩
    obtain ⟨b', ins, mid, outs, hb', hgrown, hlen, houts⟩ := exists_extraction hv hlinks
    obtain rfl : b = b' := by
      rw [hb] at hb'
      exact some.inj hb'
    have hnd := (nodup_append.mp (nodup_append.mp hgrown.nodup).1).1
    obtain ⟨y, hy⟩ := exists_assignment v.inputs hnd x
    obtain ⟨ρ, hρ, hval⟩ := hgrown.exists_values lib y
    obtain ⟨j, hj, hagree⟩ := getElem?_of_forall₂ houts ho'
    have hlive : (b.netlist j).isSome := (hgrown.mem j).mp (mem_append_right _ (mem_of_getElem? hj))
    have hvalue := hex.values x y σ hσ (by rw [hgrown.inputIDs_eq]; exact hy) k o j ho
      (by rw [hgrown.outputIDs_eq]; exact hj)
    rw [hval j hlive 0, hagree lib x y ρ τ hρ hτ hy] at hvalue
    exact some.inj hvalue
  · intro ⟨hlinks, hsame⟩
    obtain ⟨b, ins, mid, outs, hb, hgrown, hlen, houts⟩ := exists_extraction hv hlinks
    refine ⟨b, hb, by rw [hgrown.inputIDs_eq, hlen], ?_, fun x y σ hσ hy k o j ho hj => ?_⟩
    · rw [hgrown.outputIDs_eq, houts.length_eq, (emitted_perm hv).length_eq]
    · rw [hgrown.inputIDs_eq] at hy
      rw [hgrown.outputIDs_eq] at hj
      obtain ⟨ρ, hρ, hval⟩ := hgrown.exists_values lib y
      obtain ⟨τ, hτ⟩ := exists_window hv.ok lib x
      obtain ⟨o', ho', hagree⟩ := getElem?_of_forall₂ houts.flip hj
      have hlive : (b.netlist j).isSome :=
        (hgrown.mem j).mp (mem_append_right _ (mem_of_getElem? hj))
      rw [hval j hlive 0, hagree lib x y ρ τ hρ hτ hy, hsame x σ τ hσ hτ k o o' ho ho']

private def twoGates : List (CellTypeID × List Link) := [(.IN, []), (.IN, []),
  (.AND, [⟨0, 0, false⟩, ⟨1, 0, false⟩]), (.OR, [⟨0, 0, false⟩, ⟨1, 0, false⟩])]

private def gatesView (s : SubnetBuilder) (outputs : List Link) : SubnetView :=
  ⟨s, [⟨0, 0, false⟩, ⟨1, 0, false⟩], outputs⟩

private theorem gates_netlist : ∃ s, SubnetBuilder.build twoGates {} = some s ∧
    s.netlist 0 = some ⟨.IN, []⟩ ∧ s.netlist 1 = some ⟨.IN, []⟩ ∧
    s.netlist 2 = some ⟨.AND, [⟨0, 0, false⟩, ⟨1, 0, false⟩]⟩ ∧
    s.netlist 3 = some ⟨.OR, [⟨0, 0, false⟩, ⟨1, 0, false⟩]⟩ ∧ s.size = 4 := by
  obtain ⟨s, hs⟩ : ∃ s, SubnetBuilder.build twoGates {} = some s := ⟨_, rfl⟩
  have hnet : (SubnetBuilder.build twoGates {}).map (fun s => ((range 4).map s.netlist,
      s.size)) = some ([some ⟨.IN, []⟩, some ⟨.IN, []⟩, some ⟨.AND, [⟨0, 0, false⟩, ⟨1, 0, false⟩]⟩,
        some ⟨.OR, [⟨0, 0, false⟩, ⟨1, 0, false⟩]⟩], 4) := by decide
  rw [hs, map_some, Option.some.injEq, Prod.mk.injEq] at hnet
  simp only [range_succ, range_zero, nil_append, cons_append, map_cons, map_nil,
    cons.injEq, and_true] at hnet
  exact ⟨s, hs, hnet.1.1, hnet.1.2.1, hnet.1.2.2.1, hnet.1.2.2.2, hnet.2⟩

private theorem window_input {s : SubnetBuilder} {outputs : List Link} (hi : i ∈ [0, 1]) :
    (gatesView s outputs).window i = some ⟨.IN, []⟩ := by
  rw [window]
  exact if_pos hi

private theorem cut_gates {s : SubnetBuilder} (hs : SubnetBuilder.build twoGates {} = some s)
    (outputs : List Link) (hcells : ∀ l ∈ outputs, l.idx < 4) (hne : outputs ≠ [])
    (hnd : (outputs.map Link.idx).Nodup) : (gatesView s outputs).Cut := by
  obtain ⟨s', hs', h0, h1, h2, h3, hsize⟩ := gates_netlist
  obtain rfl : s = s' := some.inj (hs.symm.trans hs')
  have hcell : ∀ i, i < 4 → i = 0 ∨ i = 1 ∨ i = 2 ∨ i = 3 := by decide
  have hgate : ∀ i g, s.netlist i = some g →
      (i ∈ [0, 1] ∨ g.type ≠ .IN ∧ g.links = [⟨0, 0, false⟩, ⟨1, 0, false⟩]) ∧ g.type ≠ .OUT := by
    intro i g hg
    rcases hcell i (hsize ▸ lt_of_netlist hg) with rfl | rfl | rfl | rfl
    · rw [h0] at hg
      exact ⟨.inl (by decide), some.inj hg ▸ (by decide)⟩
    · rw [h1] at hg
      exact ⟨.inl (by decide), some.inj hg ▸ (by decide)⟩
    · rw [h2] at hg
      exact some.inj hg ▸ (by decide)
    · rw [h3] at hg
      exact some.inj hg ▸ (by decide)
  have hnarrow : (SubnetBuilder.build twoGates {}).map SubnetBuilder.isNarrow = some true := by
    decide
  rw [hs, map_some, Option.some.injEq] at hnarrow
  refine ⟨⟨SubnetBuilder.netOk_of_build .init hs, SubnetBuilder.linksRead_of_isNarrow hnarrow,
    fun o ho => ?_, fun h => hne (map_eq_nil_iff.mp h)⟩,
    fun i hi => ?_, ⟨(by decide : [(0 : EntryID), 1].Nodup), hnd⟩, fun o ho i g hc hg hin => ?_,
    fun i g hg hot => absurd hot (hgate i g hg).2⟩
  · obtain ⟨l, hl, rfl⟩ := mem_map.mp ho
    change (s.netlist l.idx).isSome
    rcases hcell l.idx (hcells l hl) with h | h | h | h <;> rw [h]
    · rw [h0]; rfl
    · rw [h1]; rfl
    · rw [h2]; rfl
    · rw [h3]; rfl
  · change i ∈ [0, 1] at hi
    change (s.netlist i).isSome
    simp only [mem_cons, not_mem_nil, or_false] at hi
    rcases hi with rfl | rfl
    · rw [h0]; rfl
    · rw [h1]; rfl
  · exact (hgate i g hg).1.elim (fun hi => hc.not_mem hi) (fun h => h.1 hin)

/-- The outputs of a view may be an input and a gate, in this order. -/
theorem getSubnet_exact_and : ∃ s, SubnetBuilder.build twoGates {} = some s ∧
    ∃ b, (gatesView s [⟨0, 0, false⟩, ⟨2, 0, false⟩]).getSubnet = some b ∧
      (gatesView s [⟨0, 0, false⟩, ⟨2, 0, false⟩]).Extracts .empty b := by
  obtain ⟨s, hs, h0, h1, h2, h3, hsize⟩ := gates_netlist
  have hcut := cut_gates hs [⟨0, 0, false⟩, ⟨2, 0, false⟩] (by decide) (by decide) (by decide)
  have hw2 : (gatesView s [⟨0, 0, false⟩, ⟨2, 0, false⟩]).window 2 =
      some ⟨.AND, [⟨0, 0, false⟩, ⟨1, 0, false⟩]⟩ := h2
  refine ⟨s, hs, (getSubnet_exact hcut).mpr ⟨fun o ho i g hc hg => ?_,
    fun x σ τ hσ hτ k o o' ho ho' => ?_⟩⟩
  · -- only the gate is in its cone
    have hnot := hc.1
    have ho2 : o = 2 := (mem_cons.mp ho).elim
      (fun h => absurd (h ▸ (by decide : (0 : EntryID) ∈ [0, 1])) hnot) mem_singleton.mp
    subst ho2
    obtain rfl : i = 2 := hc.eq_of_fanins (fun j ⟨g', hg', l, hl, hlj⟩ => by
      change s.netlist 2 = some g' at hg'
      rw [h2] at hg'
      obtain rfl := some.inj hg'
      subst hlj
      change l.idx ∈ [0, 1]
      simp only [mem_cons, not_mem_nil, or_false] at hl
      rcases hl with rfl | rfl <;> decide)
    change s.netlist 2 = some g at hg
    rw [h2] at hg
    exact some.inj hg ▸ ⟨cons_ne_nil _ _, rfl⟩
  · have hinput : ∀ i, i ∈ [0, 1] → ∀ out, τ i out = σ i out := by
      intro i hi out
      rw [hσ i _ (window_input hi),
        hτ i ⟨.IN, []⟩ (by rw [Netlist.firstPorts, window_input hi]; rfl)]
      rfl
    have hgate : τ 2 0 = σ 2 0 := by
      rw [hσ 2 _ hw2, hτ 2 ⟨.AND, [⟨0, 0, false⟩, ⟨1, 0, false⟩]⟩
        (by rw [Netlist.firstPorts, hw2]; rfl)]
      simp only [Netlist.gateValue, map_cons, map_nil, Link.value,
        hinput 0 (by decide), hinput 1 (by decide)]
    have hemitted : (gatesView s [⟨0, 0, false⟩, ⟨2, 0, false⟩]).emitted = [0, 2] := rfl
    rw [hemitted] at ho'
    change [0, 2][k]? = some o at ho
    obtain rfl : o = o' := by
      rw [ho] at ho'
      exact some.inj ho'
    have hmem : o ∈ [0, 2] := mem_of_getElem? ho
    simp only [mem_cons, not_mem_nil, or_false] at hmem
    rcases hmem with rfl | rfl
    · exact hinput 0 (by decide) 0
    · exact hgate

/-- The outputs are emitted from last to first. -/
theorem not_getSubnet_exact : ¬ ∀ (lib : CellLibrary) (v : SubnetView), v.Cut →
    ∃ b, v.getSubnet = some b ∧ v.Extracts lib b := by
  intro h
  obtain ⟨s, hs, h0, h1, h2, h3, hsize⟩ := gates_netlist
  have hcut := cut_gates hs [⟨2, 0, false⟩, ⟨3, 0, false⟩] (by decide) (by decide) (by decide)
  obtain ⟨b, hb, hex⟩ := h .empty _ hcut
  have hrun : (SubnetBuilder.build twoGates {}).bind (fun s =>
      (gatesView s [⟨2, 0, false⟩, ⟨3, 0, false⟩]).getSubnet.map (fun b => (b.inputIDs, b.outputIDs,
        b.value .empty (fun i => decide (i = 0)) 3 0))) = some ([0, 1], [3, 5], some true) := by decide
  rw [hs, bind_some, hb, map_some, Option.some.injEq, Prod.mk.injEq, Prod.mk.injEq] at hrun
  obtain ⟨hins, houts, hval⟩ := hrun
  obtain ⟨σ, hσ⟩ : ∃ σ, (gatesView s [⟨2, 0, false⟩, ⟨3, 0, false⟩]).window.Solves .empty
      (fun i => decide (i = 0)) σ := (acyclic_window hcut.ok.net.acyclic).exists_solves .empty _
  have hout := hex.values (fun i => decide (i = 0))
    (fun i => decide (i = 0)) σ hσ (fun k i j hi hj => by
    rw [hins] at hj
    change [0, 1][k]? = some i at hi
    rw [hj] at hi
    rw [some.inj hi]) 0 2 3 rfl (by rw [houts]; rfl)
  rw [hval] at hout
  -- the AND gate is false, the output is true
  have hw2 : (gatesView s [⟨2, 0, false⟩, ⟨3, 0, false⟩]).window 2 =
      some ⟨.AND, [⟨0, 0, false⟩, ⟨1, 0, false⟩]⟩ := h2
  have hfalse : σ 2 0 = false := by
    rw [hσ 2 _ hw2]
    simp only [Netlist.gateValue, map_cons, map_nil, Link.value, hσ 0 _ (window_input (by decide)),
      hσ 1 _ (window_input (by decide))]
    decide
  rw [hfalse] at hout
  exact Bool.noConfusion (some.inj hout)

end SubnetView

end UtopiaEda
