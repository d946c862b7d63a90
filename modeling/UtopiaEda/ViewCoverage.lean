import UtopiaEda.ViewTraversal
import UtopiaEda.ValidityChecks
import UtopiaEda.BuilderValues

/-!
# What the iterator of a view visits

Every cell of the view is visited once, after its fanins, if no output lies in the cone of an output
that comes later in the list. Otherwise the first output is visited inside the cone and once more
at the bottom of the stack.
-/
namespace UtopiaEda
open PostorderSearches List
open Option (map_some some.inj)

variable {s : SubnetBuilder} {v : SubnetView} {cut : List EntryID} {i j o : EntryID} {N : Netlist}

/-- The cell `i` is reached from the cell `o` without the cells of the cut. -/
def Netlist.InCone (N : Netlist) (cut : List EntryID) (o i : EntryID) : Prop :=
  o ∉ cut ∧ Relation.ReflTransGen (fun a b => N.Fanin a b ∧ b ∉ cut) o i

theorem Netlist.InCone.not_mem (h : N.InCone cut o i) : i ∉ cut := by
  obtain ⟨ho, hi⟩ := h
  induction hi with
  | refl => exact ho
  | tail _ hab _ => exact hab.2

theorem Netlist.InCone.isSome (h : N.InCone cut o i) (hN : N.Closed) (ho : (N o).isSome) :
    (N i).isSome := by
  obtain ⟨-, hi⟩ := h
  induction hi with
  | refl => exact ho
  | tail _ hab _ => exact hN _ _ hab.1

/-- A cell between the cut and no other cells is alone in its cone. -/
theorem Netlist.InCone.eq_of_fanins (h : N.InCone cut o i) (hfanins : ∀ j, N.Fanin o j → j ∈ cut) :
    i = o := by
  rcases Relation.ReflTransGen.cases_head h.2 with heq | ⟨j, ⟨hj, hcut⟩, -⟩
  · exact heq.symm
  · exact absurd (hfanins j hj) hcut

namespace SubnetView

structure Ok (v : SubnetView) : Prop where
  net : v.parent.NetOk
  read : v.parent.LinksRead
  outputs : ∀ o ∈ v.outputs, (v.parent.netlist o).isSome
  nonempty : v.outputs ≠ []

structure VisitedBy (v : SubnetView) (es : List ViewEntry) : Prop where
  cells : ∀ i, i ∈ es.map ViewEntry.entryID ↔
    i ∈ v.inputs ∨ ∃ o ∈ v.outputs, v.parent.netlist.InCone v.inputs o i
  once : (es.map ViewEntry.entryID).Nodup
  ordered : ∀ A e B, es = A ++ e :: B → e.entryID ∉ v.inputs →
    ∀ j, v.parent.netlist.Fanin e.entryID j → j ∈ A.map ViewEntry.entryID
  isIn : ∀ e ∈ es, e.isIn = true ↔ e.entryID ∈ v.inputs
  isOut : ((es.filter ViewEntry.isOut).map ViewEntry.entryID).Perm v.outputs.dedup

theorem exists_links (hs : s.LinksRead) (h : (s.netlist i).isSome) :
    ∃ ls, defaultLinkProvider s i = some ls ∧ ∀ j, j ∈ ls.map Link.idx ↔ s.netlist.Fanin i j := by
  obtain ⟨g, hg⟩ := Option.isSome_iff_exists.mp h
  obtain ⟨c, hc, -, hl⟩ := SubnetBuilder.liveCell_of_netlist hg
  have hread : defaultLinkProvider s i = some c.links := by
    simp only [defaultLinkProvider, SubnetBuilder.getCell_of_live hc, Option.bind_eq_bind,
      Option.bind_some]
    rw [hs.mapM hc some]
    exact (Netlist.mapM_eq_some (v := id) (fun _ _ => rfl)).trans (by rw [map_id])
  refine ⟨c.links, hread, fun j => ?_⟩
  rw [mem_map, hl]
  constructor
  · intro ⟨l, hl, he⟩
    exact ⟨g, hg, l, hl, he⟩
  · intro ⟨g', hg', l, hl, he⟩
    rw [hg] at hg'
    exact ⟨l, some.inj hg' ▸ hl, he⟩

theorem mem_next (hs : s.LinksRead) (h : (s.netlist i).isSome) :
    j ∈ (defaultLinkProvider s).next i ↔ s.netlist.Fanin i j := by
  obtain ⟨ls, hls, hmem⟩ := exists_links hs h
  rw [LinkProvider.next_eq hls, hmem]

theorem Ok.exists_rank (h : v.Ok) :
    ∃ r : EntryID → ℕ, v.walker.Sound (fun i => (v.parent.netlist i).isSome) r := by
  obtain ⟨r₀, hr₀⟩ := h.net.acyclic
  obtain ⟨r, hlt, hr⟩ := AcyclicSystems.exists_rank_lt_card
    ((Finset.range v.parent.size).filter (fun i => (v.parent.netlist i).isSome)) r₀
  have hsize : ∀ i, (v.parent.netlist i).isSome → i < v.parent.size := by
    intro i hi
    obtain ⟨g, hg⟩ := Option.isSome_iff_exists.mp hi
    exact SubnetBuilder.lt_of_netlist hg
  have hlive : ∀ i, (v.parent.netlist i).isSome →
      i ∈ (Finset.range v.parent.size).filter (fun i => (v.parent.netlist i).isSome) :=
    fun i hi => Finset.mem_filter.mpr ⟨Finset.mem_range.mpr (hsize i hi), hi⟩
  have hcard : ((Finset.range v.parent.size).filter (fun i => (v.parent.netlist i).isSome)).card ≤
      v.parent.size := by
    refine Nat.le_trans (Finset.card_filter_le _ _) ?_
    rw [Finset.card_range]
  refine ⟨r, ⟨fun i hi => ?_, fun i hi j hj => ?_, fun i hi => ?_, hsize⟩, h.outputs, h.nonempty⟩
  · obtain ⟨ls, hls, hmem⟩ := exists_links h.read hi
    exact ⟨ls, hls, fun l hl => h.net.net.closed' i l.idx ((hmem l.idx).mp (mem_map_of_mem hl))⟩
  · have hij := (mem_next h.read hi).mp hj
    exact hr j (hlive j (h.net.net.closed' i j hij)) i (hr₀ i j hij)
  · exact Nat.lt_of_lt_of_le (hlt i (hlive i hi)) hcard

theorem cone_iff (h : v.parent.NetOk) (hs : v.parent.LinksRead) (ho : (v.parent.netlist o).isSome)
    {done : List EntryID} (hdone : ∀ i, i ∈ done ↔ i ∈ cut) :
    Cone (defaultLinkProvider v.parent).next done o i ↔ v.parent.netlist.InCone cut o i := by
  constructor
  · intro hc
    have hmem : (v.parent.netlist i).isSome ∧ v.parent.netlist.InCone cut o i := by
      apply hc.mem (P := fun i => (v.parent.netlist i).isSome ∧ v.parent.netlist.InCone cut o i)
        ⟨ho, fun hcut => hc.1 ((hdone o).mpr hcut), .refl⟩
      intro a b ⟨hlive, hnot, ha⟩ hb hcut
      have hab := (mem_next hs hlive).mp hb
      exact ⟨h.net.closed' a b hab, hnot, .tail ha ⟨hab, fun hb => hcut ((hdone b).mpr hb)⟩⟩
    exact hmem.2
  · intro ⟨hnot, hi⟩
    have hmem : (v.parent.netlist i).isSome ∧
        Cone (defaultLinkProvider v.parent).next done o i := by
      induction hi with
      | refl => exact ⟨ho, .refl (fun hd => hnot ((hdone o).mp hd))⟩
      | tail _ hab ih =>
        exact ⟨h.net.closed' _ _ hab.1, ih.2.1,
          .tail ih.2.2 ⟨(mem_next hs ih.1).mpr hab.1, fun hd => hab.2 ((hdone _).mp hd)⟩⟩
    exact hmem.2

end SubnetView

namespace SubnetViewWalker

variable {w : SubnetViewWalker} {P : EntryID → Prop} {r : EntryID → ℕ}
  {passes : List (List EntryID)} {roots : List EntryID} {es : List ViewEntry}

theorem calls_record {es fs : List ViewEntry} :
    calls (some (fun isIn isOut i es => (true, es ++ [⟨isIn, isOut, i⟩]))) fs (false, es) =
    (false, es ++ fs) := by
  induction fs generalizing es with
  | nil => rw [append_nil, calls]
  | cons e fs ih =>
    rw [calls, if_neg Bool.false_ne_true]
    refine ih.trans ?_
    rw [append_assoc, singleton_append]

theorem Sound.collect_eq (h : w.Sound P r) (hp : w.Traverses passes) :
    w.collect = some (w.viewEntries passes) := by
  rw [collect, h.iterate_eq hp (fun _ _ _ _ => rfl), calls_record]
  rfl

theorem passEntries_ids (passes : List (List EntryID)) :
    (SubnetViewIterator.passEntries roots passes).map ViewEntry.entryID = visits roots passes := by
  induction roots generalizing passes with
  | nil => cases passes <;> rfl
  | cons i roots ih =>
    cases passes with
    | nil => rfl
    | cons inner passes =>
      rw [SubnetViewIterator.passEntries_cons, visits_cons, ← ih passes]
      simp [Function.comp_def]

theorem passEntries_isIn (passes : List (List EntryID)) :
    ∀ e ∈ SubnetViewIterator.passEntries roots passes, e.isIn = false := by
  induction roots generalizing passes with
  | nil => cases passes <;> exact fun e he => absurd he not_mem_nil
  | cons i roots ih =>
    cases passes with
    | nil => exact fun e he => absurd he not_mem_nil
    | cons inner passes =>
      intro e he
      rw [SubnetViewIterator.passEntries_cons, mem_append, mem_append] at he
      rcases he with (he | he) | he
      · obtain ⟨k, -, rfl⟩ := mem_map.mp he
        rfl
      · rw [mem_singleton.mp he]
      · exact ih passes e he

/-- The last elements of the passes are reported as outputs. -/
theorem passEntries_outs (passes : List (List EntryID)) (h : passes.length = roots.length) :
    ((SubnetViewIterator.passEntries roots passes).filter ViewEntry.isOut).map ViewEntry.entryID =
    roots := by
  induction roots generalizing passes with
  | nil => cases passes <;> rfl
  | cons i roots ih =>
    cases passes with
    | nil => cases h
    | cons inner passes =>
      have hinner : (inner.map (fun k => (⟨false, false, k⟩ : ViewEntry))).filter ViewEntry.isOut =
          [] := by
        simp
      rw [SubnetViewIterator.passEntries_cons, filter_append, filter_append, hinner,
        nil_append, map_append, ih passes (Nat.succ.inj h)]
      rfl

theorem viewEntries_ids : (w.viewEntries passes).map ViewEntry.entryID =
    w.view.inputs ++ visits w.roots passes := by
  rw [viewEntries, map_append, passEntries_ids, map_map]
  congr 1
  exact map_id _

theorem viewEntries_outs (h : passes.length = w.roots.length) :
    ((w.viewEntries passes).filter ViewEntry.isOut).map ViewEntry.entryID =
      w.view.inputs.filter (· ∈ w.view.outputs) ++ w.roots := by
  rw [viewEntries, filter_append, map_append, passEntries_outs passes h, filter_map, map_map]
  congr 1
  exact map_id _

theorem mem_roots : i ∈ w.roots ↔ i ∈ w.view.outputs ∧ i ∉ w.view.inputs := by
  rw [roots, mem_reverse, mem_filter, decide_eq_true_iff]

end SubnetViewWalker

namespace SubnetView
open SubnetViewWalker

/-- The inputs are distinct, and no output lies in the cone of an output behind it in the list. -/
structure Unnested (v : SubnetView) : Prop where
  inputs : v.inputs.Nodup
  outputs : v.outputs.Pairwise (fun a o => ¬ v.parent.netlist.InCone v.inputs o a)

private theorem cone_root (h : v.Ok) (ho : o ∈ v.outputs) :
    Cone v.walker.linkProvider.next v.walker.view.inputs.reverse o i ↔
    v.parent.netlist.InCone v.inputs o i :=
  cone_iff h.net h.read (h.outputs o ho) (fun _ => mem_reverse)

private theorem pairwise_roots (h : v.Ok) :
    v.walker.roots.Pairwise (fun a o => ¬ Cone v.walker.linkProvider.next
    v.walker.view.inputs.reverse a o) ↔
      v.outputs.Pairwise (fun a o => ¬ v.parent.netlist.InCone v.inputs o a) := by
  rw [roots, pairwise_reverse, pairwise_filter]
  constructor
  · intro hp
    refine hp.imp_of_mem (fun {a o} _ ho hn hc => ?_)
    have hcone := (cone_root h ho).mpr hc
    have ha : a ∉ v.walker.view.inputs := fun ha => hcone.unmarked (mem_reverse.mpr ha)
    exact hn (decide_eq_true ha) (decide_eq_true hc.1) hcone
  · intro hp
    exact hp.imp_of_mem (fun _ ho hn _ _ hc => hn ((cone_root h ho).mp hc))

private theorem visitedBy_of_search (h : v.Ok) {r : EntryID → ℕ}
    (hsound : v.walker.Sound (fun i => (v.parent.netlist i).isSome) r)
    {passes : List (List EntryID)} (hp : v.walker.Traverses passes) (hins : v.inputs.Nodup)
    (hs : Search v.walker.linkProvider.next v.walker.view.inputs.reverse v.walker.roots
      (visits v.walker.roots passes)) : v.VisitedBy (v.walker.viewEntries passes) := by
  have hids : (v.walker.viewEntries passes).map ViewEntry.entryID =
      v.inputs ++ visits v.walker.roots passes :=
    viewEntries_ids
  have hnew : ∀ i ∈ visits v.walker.roots passes, i ∉ v.inputs := fun i hi hin =>
    hs.unmarked i hi (mem_reverse.mpr hin)
  have honce : ((v.walker.viewEntries passes).map ViewEntry.entryID).Nodup := by
    rw [hids]
    refine nodup_append.mpr ⟨hins, hs.nodup hsound.ranked hsound.roots,
      fun a ha b hb hab => ?_⟩
    exact hnew b hb (hab ▸ ha)
  refine ⟨fun i => ?_, honce, fun A e B hl he j hj => ?_, fun e he => ?_, ?_⟩
  · rw [hids, mem_append]
    refine or_congr Iff.rfl ⟨fun hi => ?_, fun ⟨o, ho, hc⟩ => ?_⟩
    · obtain ⟨o, ho, hc⟩ := hs.cone i hi
      have hout := (mem_roots.mp ho).1
      exact ⟨o, hout, (cone_root h hout).mp hc⟩
    · exact hp.cone_mem (mem_roots.mpr ⟨ho, hc.1⟩) ((cone_root h ho).mpr hc)
  · have hmap := congrArg (map ViewEntry.entryID) hl
    rw [hids, map_append, map_cons] at hmap
    rcases append_eq_append_iff.mp hmap with ⟨C, hA, hC⟩ | ⟨C, hA, hC⟩
    · obtain ⟨g, hg, -⟩ := id hj
      have hbefore := hs.topological C e.entryID (B.map ViewEntry.entryID) hC j
        ((mem_next h.read (by rw [hg]; rfl)).mpr hj)
      rw [hA, mem_append]
      exact hbefore.imp mem_reverse.mp id
    · cases C with
      | nil =>
        rw [append_nil] at hA
        obtain ⟨g, hg, -⟩ := id hj
        have hbefore := hs.topological [] e.entryID (B.map ViewEntry.entryID) hC.symm j
          ((mem_next h.read (by rw [hg]; rfl)).mpr hj)
        rw [← hA]
        exact mem_reverse.mp (hbefore.resolve_right not_mem_nil)
      | cons k C =>
        obtain ⟨rfl, -⟩ := cons.inj hC
        exact absurd (by rw [hA]; simp) he
  · rw [viewEntries, mem_append] at he
    rcases he with he | he
    · obtain ⟨k, hk, rfl⟩ := mem_map.mp he
      exact ⟨fun _ => hk, fun _ => rfl⟩
    · have hmem : e.entryID ∈ visits v.walker.roots passes := by
        rw [← passEntries_ids]
        exact mem_map_of_mem he
      rw [passEntries_isIn passes e he]
      exact ⟨fun hf => Bool.noConfusion hf, fun hin => absurd hin (hnew _ hmem)⟩
  · rw [perm_ext_iff_of_nodup _ (nodup_dedup _)]
    · intro i
      rw [viewEntries_outs hp.length_eq, mem_append, mem_filter, mem_roots, mem_dedup]
      simp only [decide_eq_true_iff]
      by_cases hi : i ∈ v.walker.view.inputs <;> simp [hi]
      · rfl
      · rfl
    · exact honce.sublist (filter_sublist.map _)

/-- Exactly the views without nested outputs are traversed cell by cell. -/
theorem visits_once (h : v.Ok) : (∃ es, v.walker.collect = some es ∧ v.VisitedBy es) ↔
    v.Unnested := by
  obtain ⟨r, hsound⟩ := h.exists_rank
  obtain ⟨passes, hp⟩ := hsound.exists_passes
  have hcollect := hsound.collect_eq hp
  constructor
  · intro ⟨es, hes, hv⟩
    rw [hcollect] at hes
    obtain rfl := some.inj hes
    have honce := hv.once
    rw [viewEntries_ids, nodup_append] at honce
    exact ⟨honce.1, (pairwise_roots h).mp (hp.pairwise honce.2.1)⟩
  · intro hu
    refine ⟨_, hcollect, visitedBy_of_search h hsound hp hu.inputs (hp.search (fun i hi hin => ?_)
      ((pairwise_roots h).mpr hu.outputs))⟩
    exact (mem_roots.mp hi).2 (mem_reverse.mp hin)

/-- A network with a gate behind another one. -/
private def cells : List (CellTypeID × List Link) := [(.IN, []), (.IN, []),
  (.AND, [⟨0, 0, false⟩, ⟨1, 0, false⟩]), (.OR, [⟨0, 0, false⟩, ⟨2, 0, true⟩])]

private def gates (s : SubnetBuilder) (outer inner : EntryID) : SubnetView :=
  ⟨s, [⟨0, 0, false⟩, ⟨1, 0, false⟩], [⟨outer, 0, false⟩, ⟨inner, 0, false⟩]⟩

private theorem ok_gates (hs : SubnetBuilder.build cells {} = some s) {outer inner : EntryID}
    (ho : (s.netlist outer).isSome) (hi : (s.netlist inner).isSome) : (gates s outer inner).Ok := by
  have hnarrow : (SubnetBuilder.build cells {}).map SubnetBuilder.isNarrow = some true := by decide
  rw [hs, map_some, Option.some.injEq] at hnarrow
  refine ⟨SubnetBuilder.netOk_of_build .init hs, SubnetBuilder.linksRead_of_isNarrow hnarrow,
    fun o h => ?_, cons_ne_nil _ _⟩
  rcases mem_cons.mp h with rfl | h
  · exact ho
  · rw [mem_singleton.mp h]
    exact hi

/-- If the outer gate is the first output, every cell is visited once. -/
theorem visits_once_outer : ∃ s, SubnetBuilder.build cells {} = some s ∧
    ∃ es, (gates s 3 2).walker.collect = some es ∧ (gates s 3 2).VisitedBy es := by
  obtain ⟨s, hs⟩ : ∃ s, SubnetBuilder.build cells {} = some s := ⟨_, rfl⟩
  have hnet : (SubnetBuilder.build cells {}).map (fun s => (s.netlist 2, (s.netlist 3).isSome)) =
      some (some ⟨.AND, [⟨0, 0, false⟩, ⟨1, 0, false⟩]⟩, true) := by decide
  rw [hs, map_some, Option.some.injEq, Prod.mk.injEq] at hnet
  refine ⟨s, hs, (visits_once (ok_gates hs hnet.2 (by rw [hnet.1]; rfl))).mpr ⟨?_, ?_⟩⟩
  · exact nodup_cons.mpr ⟨by decide, nodup_singleton _⟩
  · -- the fanins of the cell 2 are inputs, so its cone has no other cell
    refine .cons (fun o ho hc => ?_) (pairwise_singleton _ _)
    obtain rfl : o = 2 := mem_singleton.mp ho
    have heq : (3 : EntryID) = 2 := hc.eq_of_fanins (fun j ⟨g, hg, l, hl, hlj⟩ => by
      change s.netlist 2 = some g at hg
      rw [hnet.1] at hg
      obtain rfl := some.inj hg
      subst hlj
      change l.idx ∈ [0, 1]
      simp only [mem_cons, not_mem_nil, or_false] at hl
      rcases hl with rfl | rfl <;> decide)
    cases heq

/-- If the inner gate is the first output, it is visited twice. -/
theorem not_visits_once : ¬ ∀ v : SubnetView, v.Ok → v.inputs.Nodup →
    ∃ es, v.walker.collect = some es ∧ v.VisitedBy es := by
  intro h
  obtain ⟨s, hs⟩ : ∃ s, SubnetBuilder.build cells {} = some s := ⟨_, rfl⟩
  have hrun : (SubnetBuilder.build cells {}).map (fun s => ((s.netlist 2).isSome,
      (s.netlist 3).isSome, (gates s 2 3).walker.collect.map (map ViewEntry.entryID))) =
      some (true, true, some [0, 1, 2, 3, 2]) := by decide
  rw [hs, map_some, Option.some.injEq, Prod.mk.injEq, Prod.mk.injEq] at hrun
  obtain ⟨es, hes, hv⟩ := h (gates s 2 3) (ok_gates hs hrun.1 hrun.2.1)
    (nodup_cons.mpr ⟨by decide, nodup_singleton _⟩)
  have honce := hv.once
  rw [hes, map_some, Option.some.injEq] at hrun
  rw [hrun.2.2] at honce
  exact absurd honce (by decide)

end SubnetView

end UtopiaEda
