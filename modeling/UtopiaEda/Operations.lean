import UtopiaEda.FanoutEnabling
import UtopiaEda.NetworkReplacement

/-!
# Runs of a builder

A run starts with the empty builder and performs operations one after the other. `Valid` is
what the callers have to respect: links lead to cells in use that are not outputs, and a
replacement does not create a cycle.
-/
namespace UtopiaEda

inductive Operation where
  | addInput
  | addCell (typeID : CellTypeID) (links : List Link)
  | addOutput (link : Link)
  | replace (rhs : Subnet) (iomapping : InOutMapping)
  | replaceCell (entryID : EntryID) (typeID : CellTypeID) (links : List Link)
      (delZeroRefcount : Bool)
  | mergeCells (entryIDs : MergeMap)
  | replaceWithZero (entryIDs : List EntryID)
  | replaceWithOne (entryIDs : List EntryID)
  | enableFanouts

namespace SubnetBuilder

def apply (lib : CellLibrary) (s : SubnetBuilder) : Operation → Option SubnetBuilder
  | .addInput => s.addInput.map Prod.fst
  | .addCell typeID links => (s.addCell typeID links).map Prod.fst
  | .addOutput link => (s.addOutput link).map Prod.fst
  | .replace rhs iomapping => s.replace rhs iomapping
  | .replaceCell entryID typeID links del =>
    (s.replaceCell entryID typeID links del).map Prod.fst
  | .mergeCells entryIDs => s.mergeCells lib entryIDs
  | .replaceWithZero entryIDs => s.replaceWithZero lib entryIDs
  | .replaceWithOne entryIDs => s.replaceWithOne lib entryIDs
  | .enableFanouts => s.enableFanouts

inductive Run (lib : CellLibrary) (P : SubnetBuilder → Operation → Prop) :
    SubnetBuilder → Prop where
  | init : Run lib P {}
  | step {s s' : SubnetBuilder} {op : Operation} (run : Run lib P s) (ok : P s op)
      (eq : s.apply lib op = some s') : Run lib P s'

structure MergeFits (lib : CellLibrary) (s : SubnetBuilder) (entryIDs : MergeMap) : Prop where
  live : ∀ p ∈ entryIDs, ∀ i ∈ p.1 :: p.2, ∃ g, s.netlist i = some g ∧ g.type.getOutNum lib = 1
  acyclic : (s.netlist.redirect entryIDs.mergeTo).Acyclic

structure CellFits (s : SubnetBuilder) (entryID : EntryID) (links : List Link) : Prop where
  live : (s.netlist entryID).isSome
  valid : s.ValidLinks links
  acyclic : ∀ l ∈ links, ¬ s.netlist.Reaches l.idx entryID

/-- What the callers of the operations have to respect. A constant that takes the place of
cells reaches nothing, so it closes no cycle. -/
def Valid (lib : CellLibrary) (s : SubnetBuilder) : Operation → Prop
  | .addInput => True
  | .addCell _ links => s.ValidLinks links
  | .addOutput link => s.ValidLinks [link]
  | .replace rhs iomapping => ∃ root, Fits s rhs iomapping root
  | .replaceCell entryID _ links _ => CellFits s entryID links
  | .mergeCells entryIDs => MergeFits lib s entryIDs
  | .replaceWithZero entryIDs | .replaceWithOne entryIDs =>
    ∀ i ∈ entryIDs, ∃ g, s.netlist i = some g ∧ g.type.getOutNum lib = 1
  | .enableFanouts => s.fanoutsEnabled = false ∧ ∀ i, s.fanouts i = []

variable {lib : CellLibrary} {P Q : SubnetBuilder → Operation → Prop} {s s' : SubnetBuilder}

theorem Run.next (hs : Run lib P s) (op : Operation) (ok : P s op)
    (eq : s.apply lib op = some s') : Run lib P s' := .step hs ok eq

theorem Run.invariant {I : SubnetBuilder → Prop} (h₀ : I {})
    (hstep : ∀ s s' op, I s → P s op → s.apply lib op = some s' → I s')
    (hs : Run lib P s) : I s := by
  induction hs with
  | init => exact h₀
  | step _ ok eq ih => exact hstep _ _ _ ih ok eq

structure NetOk (s : SubnetBuilder) : Prop where
  net : NetInv s s.targets
  acyclic : s.netlist.Acyclic

theorem NetOk.init : NetOk {} := by
  have hdead : ∀ i, ({} : SubnetBuilder).liveCell i = none := fun i => rfl
  refine ⟨⟨List.nodup_nil, by simp, fun i hi => ?_, fun i j hj => ?_, fun i c hc => ?_, by simp,
    fun k i hk => ?_⟩, fun _ => 0, fun i j hij => ?_⟩
  · simp [SubnetBuilder.targets, hdead] at hi
  · simp [SubnetBuilder.targets, hdead] at hj
  · simp [hdead] at hc
  · cases hk
  · obtain ⟨g, hg, -⟩ := hij
    simp [SubnetBuilder.netlist, hdead] at hg

theorem NetOk.addCell {t : CellTypeID} {links : List Link} {r : Link} (h : NetOk s)
    (hl : s.ValidLinks links) (ha : s.addCell t links = some (s', r)) : NetOk s' := by
  obtain ⟨hnet, -, hadded⟩ := h.net.of_addCell hl ha
  exact ⟨hnet, hadded.acyclic h.net h.acyclic hl⟩

theorem NetOk.replaceCell {i : EntryID} {t : CellTypeID} {links : List Link} {del : Bool} {r : Link}
    (h : NetOk s) (hfit : CellFits s i links) (hr : s.replaceCell i t links del = some (s', r)) :
    NetOk s' := by
  obtain ⟨g, hg⟩ := Option.isSome_iff_exists.mp hfit.live
  obtain ⟨c, hc, -⟩ := liveCell_of_netlist hg
  obtain ⟨-, hnet, D, hrep⟩ := h.net.of_replaceCell h.acyclic hc hfit.valid hfit.acyclic hr
  exact ⟨hnet, hrep.acyclic h.acyclic hfit.acyclic⟩

/-- The conditions under which `replace` works: the key of the root leaves the hash table and
the driver of the output comes last. -/
structure ReplaceOk (s : SubnetBuilder) (rhs : Subnet) (root : EntryID) : Prop where
  unhashed : RootUnhashed s rhs root
  last : ∀ c, s.liveCell root = some c → c.isOut = false → DriverLast rhs

theorem NetOk.replace {rhs : Subnet} {iomapping : InOutMapping} {root : EntryID} (h : NetOk s)
    (hfit : Fits s rhs iomapping root) (hok : ReplaceOk s rhs root)
    (hr : s.replace rhs iomapping = some s') : NetOk s' := by
  obtain ⟨g, hg⟩ := Option.isSome_iff_exists.mp hfit.live
  obtain ⟨c, hc, -⟩ := liveCell_of_netlist hg
  obtain ⟨out, st, i, t, links, -, hmapped, -, hroot⟩ :=
    of_replace h.net h.acyclic hfit hok.unhashed hc (hok.last c hc) hr
  obtain ⟨D, hrep⟩ := hroot.replaced
  exact ⟨hroot.net, hrep.acyclic hmapped.acyclic hroot.acyclic⟩

end SubnetBuilder

end UtopiaEda
