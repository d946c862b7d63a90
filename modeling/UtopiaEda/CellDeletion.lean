import UtopiaEda.BuilderLinks
import UtopiaEda.DepthRecomputation

/-!
# Deleting cells

`deleteCell` frees a cell without users and then, through a queue, every cell that loses its
last user. The cells of the queue have no users and are different from the cell that is being
replaced meanwhile, because that one does not lie in their fanin.
-/
namespace UtopiaEda.SubnetBuilder

open Function (update update_self update_of_ne)
open Incidence Finset
open Option (bind_eq_bind bind_eq_some_iff bind_some isSome_iff_exists)

variable {s s' s'' : SubnetBuilder} {V : EntryID → List EntryID} {i j root : EntryID}
  {c : SubnetCell} {D D' : Finset EntryID}

structure Deleted (s s' : SubnetBuilder) (D : Finset EntryID) : Prop where
  size : s'.size = s.size
  gate : ∀ i, (s'.entries i).gate = (s.entries i).gate
  free : ∀ i, i ∈ s'.emptyEntryIDs ↔ i ∈ s.emptyEntryIDs ∨ i ∈ D
  live : ∀ i ∈ D, (s.liveCell i).isSome
  enabled : s'.fanoutsEnabled = s.fanoutsEnabled
  nIn : s'.nIn = s.nIn
  nOut : s'.nOut = s.nOut
  nCell : s'.nCell = s.nCell - D.card
  nBuf : s'.nBuf = s.nBuf - (D.filter (fun i => s.getTypeID i = .BUF)).card
  strash : ∀ k i, s'.strash k = some i → s.strash k = some i

theorem SameNet.deleted (h : SameNet s s') : Deleted s s' ∅ := by
  have hc := h.counts
  simp only [Prod.mk.injEq] at hc
  exact ⟨h.size, h.gate, by simp [h.free], by simp, h.enabled, hc.1, hc.2.1, by simp [hc.2.2.1],
    by simp [hc.2.2.2], by simp [h.strash]⟩

theorem NetInv.destrash (h : NetInv s V) (hi : s.liveCell i = some c) :
    ∃ f, s.destrashEntry i = some { s with strash := f } ∧ NetInv { s with strash := f } V ∧
      ∀ k j, f k = some j ↔ s.strash k = some j ∧ j ≠ i := by
  let f := if c.isEnabled ∧ s.strash c.key = some i then update s.strash c.key none
    else s.strash
  have hf : ∀ k j, f k = some j ↔ s.strash k = some j ∧ j ≠ i := by
    intro k j
    have huniq : s.strash k = some i → c.isEnabled ∧ c.key = k := by
      intro hk
      obtain ⟨a, ha, he, hkey⟩ := h.strash k i hk
      rw [hi] at ha
      cases ha
      exact ⟨he, hkey⟩
    by_cases hk : s.strash k = some i
    · obtain ⟨he, rfl⟩ := huniq hk
      simp only [f, he, hk, and_self, if_true, update_self]
      grind
    · have hfk : f k = s.strash k := by
        simp only [f]
        split
        · rename_i hcond
          rw [update_of_ne]
          rintro rfl
          exact hk hcond.2
        · rfl
      rw [hfk]
      grind
  refine ⟨f, ?_, ?_, hf⟩
  · simp only [destrashEntry, getCell_of_live hi, bind_eq_bind, bind_some, f]
    split <;> rfl
  · exact ⟨h.nodup, h.free, h.user, h.target, h.refcount, h.fanouts,
      fun k j hk => h.strash k j ((hf k j).mp hk).1⟩

theorem Deleted.liveCell (h : Deleted s s' D) (hi : i ∉ D) (hc : s.liveCell i = some c) :
    ∃ n, s'.liveCell i = some { c with refcount := n } := by
  obtain ⟨hf, hlt, he⟩ := liveCell_eq_some.mp hc
  have hg := h.gate i
  rw [he] at hg
  cases he' : s'.entries i with
  | links ls => simp [he', Entry.gate] at hg
  | cell c' =>
    simp only [he', Entry.gate, Option.some.injEq, Gate.mk.injEq] at hg
    refine ⟨c'.refcount, liveCell_eq_some.mpr ⟨?_, h.size ▸ hlt, ?_⟩⟩
    · rw [h.free]
      tauto
    · rw [he', ← hg.1, ← hg.2]

theorem Deleted.of_liveCell (h : Deleted s s' D) (hc : s'.liveCell i = some c) :
    i ∉ D ∧ ∃ n, s.liveCell i = some { c with refcount := n } := by
  obtain ⟨hf, hlt, he⟩ := liveCell_eq_some.mp hc
  rw [h.free] at hf
  have hg := h.gate i
  rw [he] at hg
  cases he' : s.entries i with
  | links ls => simp [he', Entry.gate] at hg
  | cell c' =>
    simp only [he', Entry.gate, Option.some.injEq, Gate.mk.injEq] at hg
    refine ⟨by tauto, c'.refcount, liveCell_eq_some.mpr ⟨by tauto, h.size ▸ hlt, ?_⟩⟩
    rw [he', hg.1, hg.2]

theorem Deleted.netlist (h : Deleted s s' D) (i : EntryID) :
    s'.netlist i = if i ∈ D then none else s.netlist i := by
  cases hc : s'.liveCell i with
  | some c =>
    obtain ⟨hi, n, hn⟩ := h.of_liveCell hc
    simp [netlist_of_live hc, netlist_of_live hn, hi]
  | none =>
    split
    · simp [SubnetBuilder.netlist, hc]
    · rename_i hi
      cases hc' : s.liveCell i with
      | none => simp [SubnetBuilder.netlist, hc, hc']
      | some c =>
        obtain ⟨n, hn⟩ := h.liveCell hi hc'
        simp [hc] at hn

theorem targets_eq_netlist (s : SubnetBuilder) (i : EntryID) :
    s.targets i = ((s.netlist i).map (fun g => g.links.map Link.idx)).getD [] := by
  simp [SubnetBuilder.targets, SubnetBuilder.netlist, Option.map_map, Function.comp_def]

theorem Deleted.targets (h : Deleted s s' D) (i : EntryID) :
    s'.targets i = if i ∈ D then [] else s.targets i := by
  rw [targets_eq_netlist, h.netlist, targets_eq_netlist]
  split <;> rfl

theorem Deleted.getTypeID (h : Deleted s s' D) : s'.getTypeID = s.getTypeID := by
  funext i
  simp [SubnetBuilder.getTypeID, h.gate]

theorem Deleted.trans (h : Deleted s s' D) (h' : Deleted s' s'' D') : Deleted s s'' (D ∪ D') := by
  have hdis : Disjoint D D' := by
    rw [Finset.disjoint_left]
    intro i hi hi'
    obtain ⟨c, hc⟩ := isSome_iff_exists.mp (h'.live i hi')
    exact (h.of_liveCell hc).1 hi
  refine ⟨h'.size.trans h.size, fun i => (h'.gate i).trans (h.gate i), fun i => ?_, fun i hi => ?_,
    h'.enabled.trans h.enabled, h'.nIn.trans h.nIn, h'.nOut.trans h.nOut, ?_, ?_,
    fun k i hk => h.strash k i (h'.strash k i hk)⟩
  · rw [h'.free, h.free, mem_union, or_assoc]
  · rcases mem_union.mp hi with hi | hi
    · exact h.live i hi
    · obtain ⟨c, hc⟩ := isSome_iff_exists.mp (h'.live i hi)
      obtain ⟨-, n, hn⟩ := h.of_liveCell hc
      simp [hn]
  · rw [h'.nCell, h.nCell, card_union_of_disjoint hdis]
    omega
  · rw [h'.nBuf, h.nBuf, h.getTypeID, filter_union,
      card_union_of_disjoint (disjoint_filter_filter hdis)]
    omega

theorem NetInv.dealloc {o : EntryOrder} (h : NetInv s V) (hi : s.liveCell i = some c)
    (hu : users (range s.size) V i = 0) (ho : s.order.deleteDepthBounds i = some o) :
    ∃ s', s.deallocEntry i = some s' ∧ s'.order = o.setDepth i none ∧
      s'.emptyEntryIDs = i :: s.emptyEntryIDs ∧ NetInv s' V ∧ Deleted s s' {i} := by
  obtain ⟨f, hf, h₁, hf'⟩ := h.destrash hi
  have href : c.refcount = 0 := by rw [h.refcount i c hi, hu, Multiset.card_zero]
  let s' : SubnetBuilder := { s with strash := f, order := o.setDepth i none
                                     emptyEntryIDs := i :: s.emptyEntryIDs
                                     nCell := s.nCell - 1, nBuf := s.nBuf - c.isBuf.toNat }
  have hsize : s'.size = s.size := show o.size = _ from EntryOrder.deleteDepthBounds_size ho
  have hlive : ∀ j, s'.liveCell j = if j = i then none else s.liveCell j := by
    intro j
    unfold SubnetBuilder.liveCell getCell
    simp only [s', List.mem_cons]
    by_cases hj : j = i
    · simp [hj]
    · simp only [hj, false_or, if_false]
      rw [show ({ s with strash := f, order := o.setDepth i none
                         emptyEntryIDs := i :: s.emptyEntryIDs
                         nCell := s.nCell - 1
                         nBuf := s.nBuf - c.isBuf.toNat } : SubnetBuilder).size = s.size from hsize]
  have hne : ∀ k, ∀ j ∈ V k, j ≠ i := by
    rintro k j hj rfl
    exact users_eq_zero.mp hu k (mem_range.mpr (h.user k (List.ne_nil_of_mem hj))) hj
  refine ⟨s', ?_, rfl, rfl, ⟨?_, ?_, ?_, ?_, ?_, ?_, ?_⟩, ?_⟩
  · simp [deallocEntry, getCell_of_live hi, href, hf, ho, s']
  · exact List.nodup_cons.mpr ⟨(liveCell_eq_some.mp hi).1, h.nodup⟩
  · intro j hj
    rw [hsize]
    rcases List.mem_cons.mp hj with rfl | hj
    exacts [lt_of_live hi, h.free j hj]
  · exact fun k hk => hsize ▸ h.user k hk
  · intro k j hj
    obtain ⟨a, ha, ht⟩ := h.target k j hj
    exact ⟨a, by rw [hlive, if_neg (hne k j hj), ha], ht⟩
  · intro j a ha
    rw [hlive] at ha
    split at ha
    · cases ha
    · rw [hsize]
      exact h.refcount j a ha
  · intro he j
    rw [hsize]
    exact h.fanouts he j
  · intro k j hk
    obtain ⟨hk, hji⟩ := (hf' k j).mp hk
    obtain ⟨a, ha, hrest⟩ := h.strash k j hk
    exact ⟨a, by rw [hlive, if_neg hji, ha], hrest⟩
  · refine ⟨hsize, fun _ => rfl, fun j => ?_, fun j hj => ?_, rfl, rfl, rfl, ?_, ?_,
      fun k j hk => ((hf' k j).mp hk).1⟩
    · simp [s', or_comm]
    · rw [mem_singleton.mp hj, hi]
      rfl
    · simp [s']
    · simp only [s', filter_singleton, getTypeID_of_live hi, SubnetCell.isBuf]
      split <;> simp_all

theorem exists_of_dealloc (h : s.deallocEntry i = some s') :
    ∃ o, s.order.deleteDepthBounds i = some o := by
  simp only [deallocEntry, bind_eq_bind, bind_eq_some_iff] at h
  obtain ⟨c, hc, h⟩ := h
  split at h
  · cases h
  · obtain ⟨s₁, hs₁, h⟩ := bind_eq_some_iff.mp h
    obtain ⟨o, ho, -⟩ := bind_eq_some_iff.mp h
    refine ⟨o, ?_⟩
    simp only [destrashEntry, hc, bind_eq_bind, bind_some] at hs₁
    split at hs₁ <;> cases hs₁ <;> exact ho

/-- The cells that wait for their deletion. They have no users; `start`, the
only one that may be an input, reaches them in the
network `N` from which the deletion started. -/
structure Queue (N : Netlist) (start : EntryID) (s : SubnetBuilder) (V : EntryID → List EntryID)
    (q : List EntryID) : Prop where
  nodup : q.Nodup
  live : ∀ e ∈ q, (s.liveCell e).isSome
  unused : ∀ e ∈ q, users (range s.size) V e = 0
  notOut : ∀ e ∈ q, s.getTypeID e ≠ .OUT
  notIn : ∀ e ∈ q, e = start ∨ s.getTypeID e ≠ .IN
  reach : ∀ e ∈ q, N.Reaches start e

theorem NetInv.unlinkDeleted {N : Netlist} {start cur : EntryID} :
    ∀ {links : List Link} {s : SubnetBuilder} {V : EntryID → List EntryID} {q : List EntryID},
    NetInv s V → V cur = links.map Link.idx → Queue N start s V q →
    (∀ l ∈ links, N.Reaches start l.idx) →
    ∃ s' q', SubnetBuilder.unlinkDeleted cur links s q = some (s', q') ∧
      NetInv s' (update V cur []) ∧ SameNet s s' ∧
      Queue N start s' (update V cur []) q' := by
  intro links
  induction links with
  | nil =>
    intro s V q h hV hq _
    have hVu : update V cur [] = V := by
      rw [← show V cur = [] from hV, Function.update_eq_self]
    exact ⟨s, q, rfl, by rwa [hVu], .refl s, by rwa [hVu]⟩
  | cons l links ih =>
    intro s V q h hV hq hreach
    obtain ⟨s₁, hs₁, h₁, hsame₁⟩ := h.delLink hV
    have hcur : cur ∈ range s.size := mem_range.mpr (h.user cur (by simp [hV]))
    obtain ⟨c, hc, hct⟩ := h.target cur l.idx (by simp [hV])
    obtain ⟨n, hn⟩ := hsame₁.liveCell hc
    have hle : ∀ e, users (range s.size) V e = 0 →
        users (range s₁.size) (update V cur (links.map Link.idx)) e = 0 := by
      intro e he
      rw [hsame₁.size]
      by_cases hel : e = l.idx
      · rw [hel, users_tail hcur hV] at he
        simp at he
      · rw [users_tail_of_ne hcur hV hel, he]
    have hq₁ : Queue N start s₁ (update V cur (links.map Link.idx))
        (if n = 0 ∧ c.isIn = false then q ++ [l.idx] else q) := by
      split
      · rename_i hn0
        have hu : users (range s₁.size) (update V cur (links.map Link.idx)) l.idx = 0 := by
          rw [← Multiset.card_eq_zero, ← h₁.refcount _ _ hn]
          exact hn0.1
        refine ⟨?_, fun e he => ?_, fun e he => ?_, fun e he => ?_, fun e he => ?_, fun e he => ?_⟩
        · rw [List.nodup_append]
          refine ⟨hq.nodup, by simp, fun a ha b hb hab => ?_⟩
          have := hq.unused a ha
          rw [hab, List.mem_singleton.mp hb, users_tail hcur hV] at this
          simp at this
        · rw [hsame₁.isSome]
          rcases List.mem_append.mp he with he | he
          · exact hq.live e he
          · simp [List.mem_singleton.mp he, hc]
        · rcases List.mem_append.mp he with he | he
          · exact hle e (hq.unused e he)
          · rw [List.mem_singleton.mp he, hu]
        · rw [hsame₁.getTypeID]
          rcases List.mem_append.mp he with he | he
          · exact hq.notOut e he
          · rw [List.mem_singleton.mp he, getTypeID_of_live hc]
            exact hct
        · rw [hsame₁.getTypeID]
          rcases List.mem_append.mp he with he | he
          · exact hq.notIn e he
          · right
            rw [List.mem_singleton.mp he, getTypeID_of_live hc]
            simpa [SubnetCell.isIn] using hn0.2
        · rcases List.mem_append.mp he with he | he
          · exact hq.reach e he
          · rw [List.mem_singleton.mp he]
            exact hreach l (by simp)
      · exact ⟨hq.nodup, fun e he => hsame₁.isSome ▸ hq.live e he,
          fun e he => hle e (hq.unused e he), fun e he => hsame₁.getTypeID ▸ hq.notOut e he,
          fun e he => hsame₁.getTypeID ▸ hq.notIn e he, hq.reach⟩
    obtain ⟨s', q', hs', h', hsame', hq'⟩ := ih h₁ (by simp) hq₁
      (fun k hk => hreach k (by simp [hk]))
    rw [Function.update_idem] at h' hq'
    refine ⟨s', q', ?_, h', hsame₁.trans hsame', hq'⟩
    have hin : ({ c with refcount := n } : SubnetCell).isIn = c.isIn := rfl
    simp only [SubnetBuilder.unlinkDeleted, hs₁, getCell_of_live hn, bind_eq_bind,
      bind_some, hin]
    rw [← hs']
    cases c.isIn <;> simp

/-- State of the deletion. The links of the entries outside `E` are those of the cells in
use; the cells in use are cells of the network `N`. -/
structure Deleting (N : Netlist) (start : EntryID) (E : Set EntryID) (s : SubnetBuilder)
    (V : EntryID → List EntryID) (q : List EntryID) : Prop where
  net : NetInv s V
  agree : ∀ i, i ∉ E → V i = s.targets i
  sub : ∀ i g, s.netlist i = some g → N i = some g
  queue : Queue N start s V q

theorem Deleting.step {N : Netlist} {start cur : EntryID} {E : Set EntryID} {q : List EntryID}
    {o : EntryOrder} (h : Deleting N start E s V (cur :: q)) (hE : ∀ i ∈ E, ¬ N.Reaches start i)
    (hc : s.liveCell cur = some c) (harity : c.arity ≤ InPlaceLinks)
    (ho : s.order.deleteDepthBounds cur = some o) :
    ∃ s' q' V', s.deleteStep cur q = some (s', q') ∧ s'.order = o.setDepth cur none ∧
      s'.emptyEntryIDs = cur :: s.emptyEntryIDs ∧ Deleting N start E s' V' q' ∧
      Deleted s s' {cur} ∧ ∀ i ∈ E, V' i = V i := by
  obtain ⟨hcq, hqn⟩ := List.nodup_cons.mp h.queue.nodup
  have hreach := h.queue.reach cur (by simp)
  have hcE : cur ∉ E := fun hcE => hE cur hcE hreach
  obtain ⟨s₁, hs₁, ho₁, hf₁, h₁, hdel₁⟩ := h.net.dealloc hc (h.queue.unused cur (by simp)) ho
  have hV : V cur = c.links.map Link.idx := by rw [h.agree cur hcE, targets_of_live hc]
  have hq₁ : Queue N start s₁ V q := by
    refine ⟨hqn, fun e he => ?_, fun e he => ?_, fun e he => ?_, fun e he => ?_, fun e he =>
      h.queue.reach e (by simp [he])⟩
    · obtain ⟨a, ha⟩ := isSome_iff_exists.mp (h.queue.live e (by simp [he]))
      have hne : e ∉ ({cur} : Finset EntryID) := by
        rw [mem_singleton]
        rintro rfl
        exact hcq he
      obtain ⟨n, hn⟩ := hdel₁.liveCell hne ha
      simp [hn]
    · rw [hdel₁.size]
      exact h.queue.unused e (by simp [he])
    · rw [hdel₁.getTypeID]
      exact h.queue.notOut e (by simp [he])
    · rw [hdel₁.getTypeID]
      exact h.queue.notIn e (by simp [he])
  have hlinks : ∀ l ∈ c.links, N.Reaches start l.idx := fun l hl =>
    hreach.tail ⟨_, h.sub cur _ (netlist_of_live hc), l, hl, rfl⟩
  obtain ⟨s', q', hs', h', hsame', hq'⟩ := h₁.unlinkDeleted hV hq₁ hlinks
  have hdel : Deleted s s' {cur} := by simpa using hdel₁.trans hsame'.deleted
  refine ⟨s', q', _, ?_, by rw [hsame'.order, ho₁], by rw [hsame'.free, hf₁],
    ⟨h', fun i hi => ?_, fun i g hg => ?_, hq'⟩, hdel, fun i hi => ?_⟩
  · simp [deleteStep, getCell_of_live hc, Nat.not_lt.mpr harity, hs₁, hs']
  · rw [hdel.targets]
    split
    · rename_i hic
      rw [mem_singleton.mp hic, update_self]
    · rename_i hic
      rw [update_of_ne (fun heq => hic (mem_singleton.mpr heq)), h.agree i hi]
  · rw [hdel.netlist] at hg
    split at hg
    · cases hg
    · exact h.sub i g hg
  · rw [update_of_ne]
    rintro rfl
    exact hcE hi

theorem exists_of_deleteStep {q : List EntryID} {r : SubnetBuilder × List EntryID}
    (hc : s.liveCell i = some c) (h : s.deleteStep i q = some r) :
    c.arity ≤ InPlaceLinks ∧ ∃ o, s.order.deleteDepthBounds i = some o := by
  simp only [deleteStep, getCell_of_live hc, bind_eq_bind, bind_some] at h
  split at h
  · cases h
  · rename_i harity
    obtain ⟨s₁, hs₁, -⟩ := bind_eq_some_iff.mp h
    exact ⟨Nat.not_lt.mp harity, exists_of_dealloc hs₁⟩

/-- A deletion that ends has freed cells that the first one reaches. -/
theorem Deleting.of_deleteQueue {N : Netlist} {start : EntryID} {E : Set EntryID}
    (hE : ∀ i ∈ E, ¬ N.Reaches start i) :
    ∀ {n : ℕ} {s : SubnetBuilder} {V : EntryID → List EntryID} {q : List EntryID},
    Deleting N start E s V q → deleteQueue n s q = some s' →
    ∃ D V', Deleting N start E s' V' [] ∧ Deleted s s' D ∧ (∀ i ∈ E, V' i = V i) ∧
      ∀ i ∈ D, N.Reaches start i ∧ (i = start ∨ s.getTypeID i ≠ .IN) := by
  intro n
  induction n with
  | zero =>
    intro s V q h hs
    cases q with
    | nil =>
      cases hs
      exact ⟨∅, V, h, (SameNet.refl _).deleted, fun _ _ => rfl, by simp⟩
    | cons cur q => simp [deleteQueue] at hs
  | succ n ih =>
    intro s V q h hs
    cases q with
    | nil =>
      cases hs
      exact ⟨∅, V, h, (SameNet.refl _).deleted, fun _ _ => rfl, by simp⟩
    | cons cur q =>
      simp only [deleteQueue, bind_eq_bind] at hs
      obtain ⟨⟨s₁, q₁⟩, hs₁, hs⟩ := bind_eq_some_iff.mp hs
      obtain ⟨c, hc⟩ := isSome_iff_exists.mp (h.queue.live cur (by simp))
      obtain ⟨harity, o, ho⟩ := exists_of_deleteStep hc hs₁
      obtain ⟨s₂, q₂, V₂, hs₂, -, -, h₂, hdel₂, hE₂⟩ := h.step hE hc harity ho
      rw [hs₁] at hs₂
      cases hs₂
      obtain ⟨D, V', h', hdel', hE', hD⟩ := ih h₂ hs
      refine ⟨{cur} ∪ D, V', h', hdel₂.trans hdel', fun i hi => by rw [hE' i hi, hE₂ i hi],
        fun i hi => ?_⟩
      rcases mem_union.mp hi with hi | hi
      · rw [mem_singleton.mp hi]
        exact ⟨h.queue.reach cur (by simp), h.queue.notIn cur (by simp)⟩
      · rw [← hdel₂.getTypeID]
        exact hD i hi

structure OrderInv (s : SubnetBuilder) (l outs : List EntryID) : Prop where
  layered : s.order.Layered s.order.depthOf l outs
  mem : ∀ i, i ∈ l ++ outs ↔ (s.liveCell i).isSome
  out : ∀ i ∈ l ++ outs, s.getTypeID i = .OUT ↔ i ∈ outs
  depth : ∀ i ∈ l ++ outs, (s.order.depth i).isSome

theorem OrderInv.mem_left {l outs : List EntryID} (h : OrderInv s l outs)
    (hc : s.liveCell i = some c) (ht : c.type ≠ .OUT) : i ∈ l := by
  have hmem := (h.mem i).mpr (by simp [hc])
  have hout := h.out i hmem
  rw [getTypeID_of_live hc] at hout
  exact (List.mem_append.mp hmem).resolve_right (fun ho => ht (hout.mpr ho))

theorem OrderInv.delete {l outs : List EntryID} (h : OrderInv s l outs) (hi : i ∈ l) :
    ∃ o, s.order.deleteDepthBounds i = some o ∧ ∀ s', Deleted s s' {i} →
      s'.order = o.setDepth i none → OrderInv s' (l.filter (· ≠ i)) outs ∧
        ∀ j, j ≠ i → s'.order.depth j = s.order.depth j := by
  have hnd : (l ++ outs).Nodup := h.layered.lists.nodup
  obtain ⟨A, B, rfl⟩ := List.append_of_mem hi
  have hperm : (i :: (A ++ B ++ outs)).Nodup := (List.Perm.nodup_iff (by simp)).mp hnd
  obtain ⟨hni, -⟩ := List.nodup_cons.mp hperm
  have hfilter : (A ++ i :: B).filter (· ≠ i) = A ++ B := by
    have hA : ∀ a ∈ A, a ≠ i := by rintro a ha rfl; simp [ha] at hni
    have hB : ∀ a ∈ B, a ≠ i := by rintro a ha rfl; simp [ha] at hni
    rw [List.filter_append, List.filter_cons, if_neg (by simp),
      List.filter_eq_self.mpr (fun a ha => by simpa using hA a ha),
      List.filter_eq_self.mpr (fun a ha => by simpa using hB a ha)]
  obtain ⟨o, ho, hs, hd, hl⟩ :=
    h.layered.delete (EntryOrder.depth_eq (h.depth i (by simp)))
  refine ⟨o, ho, fun s' hdel hord => ?_⟩
  have hdepth : ∀ j, j ≠ i → s'.order.depth j = s.order.depth j := fun j hj => by
    rw [hord, EntryOrder.setDepth_of_ne hj, hd]
  have hne : ∀ j ∈ A ++ B ++ outs, j ≠ i := by rintro j hj rfl; exact hni hj
  refine ⟨?_, hdepth⟩
  rw [hfilter]
  refine ⟨?_, fun j => ?_, fun j hj => ?_, fun j hj => ?_⟩
  · rw [hord]
    refine (hl.setDepth i none).congr (fun j hj => ?_)
    rw [EntryOrder.depthOf_of_ne (hne j (List.mem_append_left _ hj)), EntryOrder.depthOf,
      EntryOrder.depthOf, hd]
  · constructor
    · intro hj
      obtain ⟨c, hc⟩ := isSome_iff_exists.mp ((h.mem j).mp (by simp at hj ⊢; tauto))
      obtain ⟨n, hn⟩ := hdel.liveCell (by simpa using hne j hj) hc
      simp [hn]
    · intro hj
      obtain ⟨c, hc⟩ := isSome_iff_exists.mp hj
      obtain ⟨hji, n, hn⟩ := hdel.of_liveCell hc
      have := (h.mem j).mpr (by simp [hn])
      simp only [mem_singleton] at hji
      simp at this ⊢
      tauto
  · rw [hdel.getTypeID]
    exact h.out j (by simp at hj ⊢; tauto)
  · rw [hdepth j (hne j hj)]
    exact h.depth j (by simp at hj ⊢; tauto)

/-- The freed entries can be told from the cells in use. -/
theorem Deleted.mem_iff (h : Deleted s s' D) :
    i ∈ D ↔ (s.liveCell i).isSome ∧ s'.liveCell i = none := by
  constructor
  · intro hi
    refine ⟨h.live i hi, ?_⟩
    cases hc : s'.liveCell i with
    | none => rfl
    | some c => exact absurd hi (h.of_liveCell hc).1
  · rintro ⟨hlive, hdead⟩
    by_contra hi
    obtain ⟨c, hc⟩ := isSome_iff_exists.mp hlive
    obtain ⟨n, hn⟩ := h.liveCell hi hc
    rw [hdead] at hn
    cases hn

theorem Deleted.unique (h : Deleted s s' D) (h' : Deleted s s' D') : D = D' := by
  ext i
  rw [h.mem_iff, h'.mem_iff]

theorem OrderInv.of_deleteQueue {N : Netlist} {start : EntryID} {E : Set EntryID}
    {outs : List EntryID} (hE : ∀ i ∈ E, ¬ N.Reaches start i) :
    ∀ {n : ℕ} {s : SubnetBuilder} {V : EntryID → List EntryID} {q l : List EntryID}
    {D : Finset EntryID}, Deleting N start E s V q → OrderInv s l outs →
    deleteQueue n s q = some s' → Deleted s s' D → OrderInv s' (l.filter (· ∉ D)) outs ∧
    ∀ i, i ∉ D → s'.order.depth i = s.order.depth i := by
  have hnone : ∀ {s : SubnetBuilder} {l : List EntryID} {D : Finset EntryID}, OrderInv s l outs →
      Deleted s s D → OrderInv s (l.filter (· ∉ D)) outs ∧ ∀ i, i ∉ D →
      s.order.depth i = s.order.depth i := by
    intro s l D hord hD
    obtain rfl := hD.unique (SameNet.refl s).deleted
    rw [List.filter_eq_self.mpr (by simp)]
    exact ⟨hord, fun _ _ => rfl⟩
  intro n
  induction n with
  | zero =>
    intro s V q l D _ hord hs hD
    cases q with
    | nil =>
      cases hs
      exact hnone hord hD
    | cons cur q => simp [deleteQueue] at hs
  | succ n ih =>
    intro s V q l D h hord hs hD
    cases q with
    | nil =>
      cases hs
      exact hnone hord hD
    | cons cur q =>
      obtain ⟨⟨s₁, q₁⟩, hs₁, hs⟩ := bind_eq_some_iff.mp hs
      obtain ⟨c, hc⟩ := isSome_iff_exists.mp (h.queue.live cur (by simp))
      have hct : c.type ≠ .OUT := by
        rw [← getTypeID_of_live hc]
        exact h.queue.notOut cur (by simp)
      obtain ⟨harity, -⟩ := exists_of_deleteStep hc hs₁
      obtain ⟨o, ho, hrest⟩ := hord.delete (hord.mem_left hc hct)
      obtain ⟨s₂, q₂, V₂, hs₂, hord₂, -, h₂, hdel₂, -⟩ := h.step hE hc harity ho
      obtain ⟨rfl, rfl⟩ : s₁ = s₂ ∧ q₁ = q₂ := by
        rw [hs₁] at hs₂
        exact Prod.mk.inj (Option.some.inj hs₂)
      obtain ⟨hinv₁, hdep₁⟩ := hrest s₁ hdel₂ hord₂
      obtain ⟨D₁, -, -, hdel₁, -⟩ := h₂.of_deleteQueue hE hs
      obtain ⟨hinv, hdep⟩ := ih h₂ hinv₁ hs hdel₁
      obtain rfl := hD.unique (hdel₂.trans hdel₁)
      refine ⟨?_, fun i hi => ?_⟩
      · rw [List.filter_filter] at hinv
        have hkeep : (fun a => decide (a ∉ {cur} ∪ D₁)) = fun a => decide (a ∉ D₁) &&
            decide (a ≠ cur) := by
          funext a
          simp only [mem_union, mem_singleton, not_or, Bool.decide_and, ne_eq]
          rw [Bool.and_comm]
        rw [hkeep]
        exact hinv
      · rw [mem_union, mem_singleton, not_or] at hi
        rw [hdep i hi.2, hdep₁ i hi.1]

end UtopiaEda.SubnetBuilder
