import UtopiaEda.DepthRecomputation
import UtopiaEda.EntrySegments
import UtopiaEda.GrowingBuilders

/-!
# Entries of links

A cell with more than `InPlaceLinks` links is followed by the entries of its further links. The
invariant says that these entries stand behind the cell in the order of the builder. It survives
deletions, and moves of cells that are not followed by entries of links.
-/
namespace UtopiaEda

open List
open Function (update update_self update_of_ne)
open Option (bind_eq_bind bind_eq_some_iff bind_some isSome_iff_exists some.inj)

def SubnetCell.IsWide (c : SubnetCell) : Prop := InPlaceLinks < c.arity

/-- The loop of `recomputeFanoutDepths` moves no wide cell. -/
def EntryOrder.MovesNarrow (getCell : EntryID → Option SubnetCell) (type : EntryID → CellTypeID) :
    ℕ → EntryOrder → List EntryID → ℕ → Place → Prop
  | n + 1, o, toRecompute, toRecomputeN + 1, .entry i =>
    if i ∈ toRecompute then ∀ p, o.getNext (.entry i) = some p →
      MovesNarrow getCell type n o toRecompute (toRecomputeN + 1) p
    else ∀ curCell p, getCell i = some curCell → o.getNext (.entry i) = some p →
      let used := curCell.links.countP (fun l => l.idx ∈ toRecompute)
      let newDepth := o.linksDepth curCell.links
      if o.depth i = some newDepth ∨ curCell.isOut then
        MovesNarrow getCell type n (o.setDepth i (some newDepth)) toRecompute
          (toRecomputeN + 1 - used) p
      else ¬ curCell.IsWide ∧ ∀ o', o.moveToDepth type i newDepth = some o' →
        MovesNarrow getCell type n o' (i :: toRecompute)
        (toRecomputeN + 1 - used + curCell.refcount) p
  | _, _, _, _, _ => True

namespace SubnetBuilder
open EntryOrder SegmentedLists

variable {s s' : SubnetBuilder} {l u v : List EntryID} {i j root : EntryID} {c : SubnetCell} {d : ℕ}
  {o : EntryOrder} {t : CellTypeID} {links : List Link} {chain chain' : EntryID → List EntryID}
  {seg seg' : ℕ → List EntryID}

def Block (s : SubnetBuilder) (chain : EntryID → List EntryID) (b : List EntryID) : Prop :=
  ∃ i c, s.liveCell i = some c ∧ c.IsWide ∧ b = i :: chain i

structure Chained (s : SubnetBuilder) (chain : EntryID → List EntryID) (l : List EntryID)
    (seg : ℕ → List EntryID) : Prop where
  segments : s.order.Segments (s.Block chain) l seg
  mem : ∀ i, (s.liveCell i).isSome → i ∈ l ∧ (s.order.depth i).isSome
  free : ∀ i ∈ s.emptyEntryIDs, i ∉ l ∧ s.getTypeID i ≠ .OUT ∧ s.order.depth i = none
  cells : ∀ d, ∀ i ∈ seg d, ∀ c, s.liveCell i = some c → s.order.depth i = some d ∧ c.type ≠ .OUT
  stored : ∀ i c, s.liveCell i = some c → c.IsWide →
    Stored s.entries (chain i) (c.links.drop InPlaceLinks) ∧ c.type ≠ .ZERO ∧ c.type ≠ .ONE

theorem not_live_of_links {ls : List Link} (he : s.entries i = .links ls) :
    s.liveCell i = none := by
  cases hc : s.liveCell i with
  | none => rfl
  | some c =>
    have hcell := (liveCell_eq_some.mp hc).2.2
    rw [he] at hcell
    cases hcell

theorem Chained.not_mem_block (h : Chained s chain l seg) (hc : s.liveCell i = some c)
    (hn : ¬ c.IsWide) : ∀ b, s.Block chain b → i ∉ b := by
  intro b ⟨j, a, ha, haw, hb⟩ hi
  subst hb
  rcases mem_cons.mp hi with rfl | hi
  · rw [hc] at ha
    exact hn (some.inj ha ▸ haw)
  · obtain ⟨ls, hls⟩ := (h.stored j a ha haw).1.mem i hi
    rw [not_live_of_links hls] at hc
    cases hc

theorem Chained.block_type (h : Chained s chain l seg) : ∀ b, s.Block chain b → ∀ i ∈ b,
    ¬ (s.getTypeID i = .ZERO ∨ s.getTypeID i = .ONE) := by
  intro b ⟨j, a, ha, haw, hb⟩ i hi
  subst hb
  obtain ⟨hstored, hz, ho⟩ := h.stored j a ha haw
  rcases mem_cons.mp hi with rfl | hi
  · rw [getTypeID_of_live ha]
    exact fun hor => hor.elim hz ho
  · obtain ⟨ls, hls⟩ := hstored.mem i hi
    rw [getTypeID, hls]
    exact fun hor => hor.elim (fun h => by cases h) (fun h => by cases h)

theorem block_setOrder (ho : o.size = s.order.size) (b : List EntryID) :
    ({ s with order := o } : SubnetBuilder).Block chain b ↔ s.Block chain b := by
  simp only [Block, liveCell_setOrder ho]

theorem Chained.deleteDepthBounds (h : Chained s chain l seg) (hc : s.liveCell i = some c)
    (hn : ¬ c.IsWide) : ∃ o u v seg', l = u ++ i :: v ∧ s.order.deleteDepthBounds i = some o ∧
    o.size = s.order.size ∧
      o.depth = s.order.depth ∧ o.Segments (s.Block chain) (u ++ v) seg' ∧ ∀ d, seg' d ⊆ seg d := by
  obtain ⟨hi, hdepth⟩ := h.mem i (by rw [hc]; rfl)
  obtain ⟨d, hd⟩ := isSome_iff_exists.mp hdepth
  obtain ⟨u, v, rfl⟩ := append_of_mem hi
  have hseg : ∀ d', i ∈ seg d' → d' = d := by
    intro d' hi'
    have heq := (h.cells d' i hi' c hc).1
    rw [hd] at heq
    exact (some.inj heq).symm
  obtain ⟨o, seg', ho, hsize, hdep, hsegs, hsub⟩ :=
    h.segments.delete (h.not_mem_block hc hn) hd hseg
  exact ⟨o, u, v, seg', rfl, ho, hsize, hdep, hsegs, hsub⟩

/-- The entry `i` has another place in the list. -/
def Relocated (i : EntryID) (l l' : List EntryID) : Prop :=
  ∃ u v u' v', l = u ++ i :: v ∧ l' = u' ++ i :: v' ∧ u ++ v = u' ++ v'

theorem Relocated.mem {l' : List EntryID} (h : Relocated i l l') : j ∈ l' ↔ j ∈ l := by
  obtain ⟨u, v, u', v', rfl, rfl, huv⟩ := h
  rw [perm_middle.mem_iff, perm_middle.mem_iff, mem_cons, mem_cons, huv]

theorem Chained.moveToDepth (h : Chained s chain l seg) (hc : s.liveCell i = some c)
    (hn : ¬ c.IsWide) (hm : s.order.moveToDepth s.getTypeID i d = some o) :
    ∃ l' seg', Chained { s with order := o } chain l' seg' ∧ Relocated i l l' ∧
      o.depth = update s.order.depth i (some d) := by
  obtain ⟨o₁, u, v, seg₁, rfl, ho₁, hsize₁, hdep₁, hsegs₁, hsub⟩ := h.deleteDepthBounds hc hn
  rw [EntryOrder.moveToDepth, ho₁, bind_eq_bind, bind_some] at hm
  have hnotin : i ∉ u ++ v := (nodup_cons.mp
    (perm_middle.nodup_iff.mp h.segments.lists.nodup)).1
  have hlt : i < o₁.size := hsize₁ ▸ lt_of_live hc
  obtain ⟨u', v', m, hp, hmem, -⟩ := (hsegs₁.setDepth i (some d)).add hnotin hlt (update_self ..)
    h.block_type hm
  have hsize : o.size = s.order.size := hp.size.trans hsize₁
  have hlive := liveCell_setOrder hsize
  have hdepth : ∀ j, o.depth j = if j = i then some d else s.order.depth j := by
    intro j
    rw [hp.depth]
    by_cases hj : j = i
    · rw [if_pos hj, hj]
      exact update_self ..
    · rw [if_neg hj, ← hdep₁]
      exact update_of_ne hj ..
  have hmoved : Relocated i (u ++ i :: v) (u' ++ i :: v') := ⟨u, v, u', v', rfl, rfl, hp.split⟩
  have hupdate : o.depth = update s.order.depth i (some d) := by
    rw [hp.depth, ← hdep₁]
    rfl
  refine ⟨u' ++ i :: v', update seg₁ d m, ⟨?_, ?_, ?_, ?_, ?_⟩, hmoved, hupdate⟩
  · refine ⟨hp.segments.lists,
      hp.segments.segmented.mono (fun b hb => (block_setOrder hsize b).mp hb),
      hp.segments.bounds, hp.segments.first⟩
  · intro j hj
    rw [hlive] at hj
    obtain ⟨hjl, hjd⟩ := h.mem j hj
    refine ⟨hmoved.mem.mpr hjl, ?_⟩
    change (o.depth j).isSome
    rw [hdepth]
    split
    · rfl
    · exact hjd
  · intro j hj
    obtain ⟨hjl, hjt, hjd⟩ := h.free j hj
    refine ⟨fun hj' => hjl (hmoved.mem.mp hj'), hjt, ?_⟩
    change o.depth j = none
    rw [hdepth, if_neg, hjd]
    rintro rfl
    exact hjl (by simp)
  · intro d' j hj a ha
    rw [hlive] at ha
    change o.depth j = some d' ∧ _
    -- an entry of the segment was there before, or is the moved one
    have hold : ∀ d', j ∈ seg₁ d' → o.depth j = some d' ∧ a.type ≠ .OUT := by
      intro d' hj
      have hji : j ≠ i := by
        rintro rfl
        exact hnotin ((hsegs₁.segmented.segment_infix d').subset hj)
      rw [hdepth, if_neg hji]
      exact h.cells d' j (hsub d' hj) a ha
    by_cases hdd : d' = d
    · subst hdd
      rw [update_self] at hj
      rcases hmem j hj with hj | ⟨rfl, ht⟩
      · exact hold d' hj
      · rw [hdepth, if_pos rfl]
        rw [getTypeID_of_live ha] at ht
        exact ⟨rfl, ht⟩
    · rw [update_of_ne hdd] at hj
      exact hold d' hj
  · intro j a ha haw
    rw [hlive] at ha
    exact h.stored j a ha haw

theorem Chained.setDepth (h : Chained s chain l seg) (hc : s.liveCell i = some c)
    (hd : s.order.depth i = some d ∨ c.type = .OUT) :
    Chained { s with order := s.order.setDepth i (some d) } chain l seg := by
  have hlive := liveCell_setOrder (s := s) (o := s.order.setDepth i (some d)) rfl
  constructor
  · exact ⟨(h.segments.setDepth i (some d)).lists,
      h.segments.segmented.mono (fun b hb => (block_setOrder rfl b).mp hb),
      h.segments.bounds, h.segments.first⟩
  · intro j hj
    rw [hlive] at hj
    refine ⟨(h.mem j hj).1, ?_⟩
    change (update s.order.depth i (some d) j).isSome
    by_cases hji : j = i
    · rw [hji, update_self]
      rfl
    · rw [update_of_ne hji]
      exact (h.mem j hj).2
  · intro j hj
    obtain ⟨hjl, hjt, hjd⟩ := h.free j hj
    have hji : j ≠ i := by
      rintro rfl
      exact hjl (h.mem j (by rw [hc]; rfl)).1
    exact ⟨hjl, hjt, (update_of_ne hji ..).trans hjd⟩
  · intro d' j hj a ha
    rw [hlive] at ha
    obtain ⟨hjd, hjt⟩ := h.cells d' j hj a ha
    refine ⟨?_, hjt⟩
    by_cases hji : j = i
    · subst hji
      rw [hc] at ha
      obtain rfl := some.inj ha
      exact (update_self ..).trans ((hd.resolve_right hjt).symm.trans hjd)
    · exact (update_of_ne hji ..).trans hjd
  · intro j a ha haw
    rw [hlive] at ha
    exact h.stored j a ha haw

theorem Chained.of_getNext (h : Chained s chain l seg) (hi : i ∈ l) {p : Place}
    (hp : s.order.getNext (.entry i) = some p) : ∀ j, p = .entry j → j ∈ l := by
  obtain ⟨u, v, rfl⟩ := append_of_mem hi
  have hnext := Lists.getNext (o := s.order) (u := u ++ [i]) (v := v)
    (by simpa using h.segments.lists)
  rw [before_concat, hp] at hnext
  obtain rfl := some.inj hnext
  intro j hj
  cases v with
  | nil => cases hj
  | cons a v =>
    obtain rfl := Place.entry.inj hj
    simp

/-- The steps of `recomputeFanoutDepths` keep `J`, and by `J` they move no wide cell. -/
structure RecomputeInvariant (s : SubnetBuilder)
    (J : ℕ → EntryOrder → List EntryID → List EntryID → ℕ → Place → Prop) : Prop where
  skip : ∀ {n o l S N i p}, J (n + 1) o l S (N + 1) (.entry i) → i ∈ S →
    o.getNext (.entry i) = some p → J n o l S (N + 1) p
  keep : ∀ {n o l S N i p c}, J (n + 1) o l S (N + 1) (.entry i) → i ∉ S → s.liveCell i = some c →
    o.getNext (.entry i) = some p → c.links.countP (fun k => k.idx ∈ S) ≤ N + 1 →
    (o.depth i = some (o.linksDepth c.links) ∨ c.isOut) →
    J n (o.setDepth i (some (o.linksDepth c.links))) l S
    (N + 1 - c.links.countP (fun k => k.idx ∈ S)) p
  narrow : ∀ {n o l S N i p c}, J (n + 1) o l S (N + 1) (.entry i) → i ∉ S → s.liveCell i = some c →
    o.getNext (.entry i) = some p → ¬ (o.depth i = some (o.linksDepth c.links) ∨ c.isOut) →
    ¬ c.IsWide
  move : ∀ {n o l S N i p c o' l'}, J (n + 1) o l S (N + 1) (.entry i) → i ∉ S →
    s.liveCell i = some c → o.getNext (.entry i) = some p → c.links.countP (fun k => k.idx ∈ S) ≤
    N + 1 → ¬ (o.depth i = some (o.linksDepth c.links) ∨ c.isOut) →
    o.moveToDepth s.getTypeID i (o.linksDepth c.links) = some o' → o'.Lists l' → Relocated i l l' →
    o'.depth = update o.depth i (some (o.linksDepth c.links)) →
    J n o' l' (i :: S) (N + 1 - c.links.countP (fun k => k.idx ∈ S) + c.refcount) p

theorem Chained.recomputeLoop {J : ℕ → EntryOrder → List EntryID → List EntryID → ℕ → Place → Prop}
    (hJ : RecomputeInvariant s J) : ∀ {n : ℕ} {o o' : EntryOrder} {l S : List EntryID}
    {seg : ℕ → List EntryID} {N : ℕ} {p : Place}, Chained { s with order := o } chain l seg →
    o.size = s.order.size → (∀ j ∈ S, j ∈ l) → (∀ i, p = .entry i → i ∈ l ∨ i ∈ s.emptyEntryIDs) →
    J n o l S N p → EntryOrder.recomputeLoop s.getCell s.getTypeID n o S N p = some o' →
    ∃ n' l' seg' S' p', Chained { s with order := o' } chain l' seg' ∧ o'.size = s.order.size ∧
    J n' o' l' S' 0 p' := by
  intro n
  induction n with
  | zero =>
    intro o o' l S seg N p h hsize _ _ hj hloop
    cases N with
    | zero =>
      cases hloop
      exact ⟨_, l, seg, S, p, h, hsize, hj⟩
    | succ N => simp [EntryOrder.recomputeLoop] at hloop
  | succ n ih =>
    intro o o' l S seg N p h hsize hS hp hj hloop
    cases N with
    | zero =>
      cases hloop
      exact ⟨_, l, seg, S, p, h, hsize, hj⟩
    | succ N =>
      cases p with
      | entry i =>
        rw [EntryOrder.recomputeLoop] at hloop
        by_cases hi : i ∈ S
        · rw [if_pos hi] at hloop
          obtain ⟨q, hq, hloop⟩ := bind_eq_some_iff.mp hloop
          exact ih h hsize hS (fun j hj => .inl (h.of_getNext (hS i hi) hq j hj))
            (hJ.skip hj hi hq) hloop
        · rw [if_neg hi] at hloop
          obtain ⟨c, hc, hloop⟩ := bind_eq_some_iff.mp hloop
          obtain ⟨q, hq, hloop⟩ := bind_eq_some_iff.mp hloop
          dsimp only at hloop
          have htype : s.getTypeID i = c.type := by
            rw [getTypeID, (getCell_eq_some.mp hc).2]
            rfl
          split at hloop
          · cases hloop
          · rename_i hlt
            have hle := Nat.not_lt.mp hlt
            by_cases hfree : i ∈ s.emptyEntryIDs
            · -- a free entry has no depth
              obtain ⟨-, hft, hfd⟩ := h.free i hfree
              change o.depth i = none at hfd
              change s.getTypeID i ≠ .OUT at hft
              have hcond : ¬ (o.depth i = some (o.linksDepth c.links) ∨ c.isOut = true) := by
                rw [hfd, SubnetCell.isOut, decide_eq_true_iff, ← htype]
                exact fun hor => hor.elim (fun h => by cases h) hft
              rw [if_neg hcond] at hloop
              obtain ⟨o₁, ho₁, -⟩ := bind_eq_some_iff.mp hloop
              simp only [EntryOrder.moveToDepth, EntryOrder.deleteDepthBounds, hfd,
                bind_eq_bind, Option.bind_none] at ho₁
              cases ho₁
            · have hil : i ∈ l := (hp i rfl).resolve_right hfree
              have hlive : ({ s with order := o } : SubnetBuilder).liveCell i = some c := by
                rw [liveCell_setOrder hsize]
                exact (if_neg hfree).trans hc
              have hcell : s.liveCell i = some c := (if_neg hfree).trans hc
              have hnext := h.of_getNext hil hq
              by_cases hcond : o.depth i = some (o.linksDepth c.links) ∨ c.isOut = true
              · rw [if_pos hcond] at hloop
                refine ih (h.setDepth hlive (hcond.imp id of_decide_eq_true)) hsize hS
                  (fun j hj => .inl (hnext j hj)) (hJ.keep hj hi hcell hq hle hcond) hloop
              · rw [if_neg hcond] at hloop
                obtain ⟨o₁, ho₁, hloop⟩ := bind_eq_some_iff.mp hloop
                obtain ⟨l₁, seg₁, h₁, hmoved, hdepth⟩ :=
                  h.moveToDepth hlive (hJ.narrow hj hi hcell hq hcond) ho₁
                refine ih h₁ ((moveToDepth_size ho₁).trans hsize) (fun j hj => hmoved.mem.mpr ?_)
                  (fun j hj => .inl (hmoved.mem.mpr (hnext j hj)))
                  (hJ.move hj hi hcell hq hle hcond ho₁ h₁.segments.lists hmoved hdepth) hloop
                rcases mem_cons.mp hj with rfl | hj
                · exact hil
                · exact hS j hj
      | _ => simp [EntryOrder.recomputeLoop] at hloop

theorem recomputeInvariant_movesNarrow :
    RecomputeInvariant s (fun n o _ S N p => o.MovesNarrow s.getCell s.getTypeID n S N p) := by
  constructor
  · intro n o l S N i p h hi hp
    rw [EntryOrder.MovesNarrow, if_pos hi] at h
    exact h p hp
  · intro n o l S N i p c h hi hc hp _ hcond
    rw [EntryOrder.MovesNarrow, if_neg hi] at h
    have hrest := h c p (getCell_of_live hc) hp
    dsimp only at hrest
    rwa [if_pos hcond] at hrest
  · intro n o l S N i p c h hi hc hp hcond
    rw [EntryOrder.MovesNarrow, if_neg hi] at h
    have hrest := h c p (getCell_of_live hc) hp
    dsimp only at hrest
    rw [if_neg hcond] at hrest
    exact hrest.1
  · intro n o l S N i p c o' l' h hi hc hp _ hcond ho' _ _ _
    rw [EntryOrder.MovesNarrow, if_neg hi] at h
    have hrest := h c p (getCell_of_live hc) hp
    dsimp only at hrest
    rw [if_neg hcond] at hrest
    exact hrest.2 o' ho'

private theorem SameLinks.of_destrash (h : s.destrashEntry i = some s') : SameLinks s s' := by
  obtain ⟨c, -, h⟩ := bind_eq_some_iff.mp h
  split at h
  · cases h
    exact .refl s
  · cases h
    exact .refl s

private theorem SameLinks.of_unlinkDeleted :
    ∀ {links : List Link} {s : SubnetBuilder} {q : List EntryID}
    {r : SubnetBuilder × List EntryID}, SubnetBuilder.unlinkDeleted i links s q = some r →
    SameLinks s r.1 := by
  intro links
  induction links with
  | nil =>
    intro s q r h
    cases h
    exact .refl s
  | cons l links ih =>
    intro s q r h
    obtain ⟨s₁, h₁, h⟩ := bind_eq_some_iff.mp h
    obtain ⟨c, -, h⟩ := bind_eq_some_iff.mp h
    exact (SameLinks.of_delLink h₁).trans (ih h)

theorem SameLinks.of_deleteStep {q : List EntryID} {r : SubnetBuilder × List EntryID}
    (h : s.deleteStep i q = some r) : SameLinks s r.1 := by
  obtain ⟨c, -, h⟩ := bind_eq_some_iff.mp h
  split at h
  · cases h
  · obtain ⟨s₁, h₁, h⟩ := bind_eq_some_iff.mp h
    obtain ⟨a, -, h₁⟩ := bind_eq_some_iff.mp h₁
    split at h₁
    · cases h₁
    · obtain ⟨s₂, h₂, h₁⟩ := bind_eq_some_iff.mp h₁
      obtain ⟨o, -, h₁⟩ := bind_eq_some_iff.mp h₁
      cases h₁
      have hrest := SameLinks.of_unlinkDeleted h
      have hsame : SameLinks s₂ r.1 := hrest
      exact (SameLinks.of_destrash h₂).trans hsame

/-- Reference counts and fanout lists do not matter. -/
theorem Chained.sameNet (h : Chained s chain l seg) (hsame : SameNet s s')
    (hlinks : SameLinks s s') : Chained s' chain l seg := by
  have hlive : ∀ i c, s'.liveCell i = some c → ∃ n, s.liveCell i = some { c with refcount := n } :=
    fun i c hc => hsame.symm.liveCell hc
  have hblock : ∀ b, s'.Block chain b → s.Block chain b := by
    intro b ⟨i, c, hc, hw, hb⟩
    obtain ⟨n, hn⟩ := hlive i c hc
    exact ⟨i, _, hn, hw, hb⟩
  constructor
  · rw [hsame.order]
    exact ⟨h.segments.lists, h.segments.segmented.mono hblock, h.segments.bounds, h.segments.first⟩
  · intro i hi
    rw [hsame.order]
    exact h.mem i (hsame.isSome ▸ hi)
  · intro i hi
    rw [hsame.order, hsame.getTypeID]
    exact h.free i (hsame.free ▸ hi)
  · intro d i hi c hc
    rw [hsame.order]
    obtain ⟨n, hn⟩ := hlive i c hc
    have hcell := h.cells d i hi _ hn
    exact hcell
  · intro i c hc hw
    obtain ⟨n, hn⟩ := hlive i c hc
    obtain ⟨hstored, ht⟩ := h.stored i _ hn hw
    exact ⟨hstored.congr (fun e _ ls he => hlinks e ls he), ht⟩

theorem Chained.deleted (h : Chained s chain l seg) (hc : s.liveCell i = some c) (hn : ¬ c.IsWide)
    (ht : c.type ≠ .OUT) (ho : s.order.deleteDepthBounds i = some o) (hdel : Deleted s s' {i})
    (hord : s'.order = o.setDepth i none) (hfree : s'.emptyEntryIDs = i :: s.emptyEntryIDs)
    (hlinks : SameLinks s s') :
    ∃ l' seg', Chained s' chain l' seg' ∧ (∀ j ∈ l, j ∈ l' ∨ j ∈ s'.emptyEntryIDs) ∧
      ∀ j, j ∉ s'.emptyEntryIDs → s'.order.depth j = s.order.depth j := by
  obtain ⟨o', u, v, seg', rfl, ho', hsize, hdep, hsegs, hsub⟩ := h.deleteDepthBounds hc hn
  obtain rfl : o = o' := some.inj (ho.symm.trans ho')
  have hnotin : i ∉ u ++ v := (nodup_cons.mp
    (perm_middle.nodup_iff.mp h.segments.lists.nodup)).1
  have hlive : ∀ j a, s'.liveCell j = some a → j ≠ i ∧ ∃ n, s.liveCell j =
      some { a with refcount := n } := by
    intro j a ha
    obtain ⟨hj, n, hn⟩ := hdel.of_liveCell ha
    exact ⟨fun hji => hj (Finset.mem_singleton.mpr hji), n, hn⟩
  have hblock : ∀ b, s'.Block chain b → s.Block chain b := by
    intro b ⟨j, a, ha, haw, hb⟩
    obtain ⟨-, n, hn⟩ := hlive j a ha
    exact ⟨j, _, hn, haw, hb⟩
  have hold : ∀ j, j ≠ i → s'.order.depth j = s.order.depth j := by
    intro j hj
    rw [hord, ← hdep]
    exact update_of_ne hj ..
  refine ⟨u ++ v, seg', ⟨?_, ?_, ?_, ?_, ?_⟩, fun j hj => ?_, fun j hj => hold j ?_⟩
  · rw [hord]
    have hseg := hsegs.setDepth i none
    exact ⟨hseg.lists, hseg.segmented.mono hblock, hseg.bounds, hseg.first⟩
  · intro j hj
    obtain ⟨a, ha⟩ := isSome_iff_exists.mp hj
    obtain ⟨hji, n, hn⟩ := hlive j a ha
    obtain ⟨hmem, hd⟩ := h.mem j (by rw [hn]; rfl)
    refine ⟨?_, by rw [hold j hji]; exact hd⟩
    rw [perm_middle.mem_iff, mem_cons] at hmem
    exact hmem.resolve_left hji
  · intro j hj
    rw [hdel.getTypeID]
    rw [hfree] at hj
    by_cases hji : j = i
    · subst hji
      rw [hord, getTypeID_of_live hc]
      exact ⟨hnotin, ht, update_self ..⟩
    · obtain ⟨hjl, hjt, hjd⟩ := h.free j ((mem_cons.mp hj).resolve_left hji)
      refine ⟨fun hmem => hjl (perm_middle.mem_iff.mpr (mem_cons_of_mem i hmem)), hjt, ?_⟩
      rw [hold j hji, hjd]
  · intro d j hj a ha
    obtain ⟨hji, n, hn⟩ := hlive j a ha
    rw [hold j hji]
    have hcell := h.cells d j (hsub d hj) _ hn
    exact hcell
  · intro j a ha haw
    obtain ⟨-, n, hn⟩ := hlive j a ha
    obtain ⟨hstored, hjt⟩ := h.stored j _ hn haw
    exact ⟨hstored.congr (fun e _ ls he => hlinks e ls he), hjt⟩
  · rw [perm_middle.mem_iff, mem_cons] at hj
    rw [hfree, mem_cons]
    exact hj.elim (fun hji => .inr (.inl hji)) .inl
  · rintro rfl
    exact hj (by rw [hfree]; exact mem_cons_self ..)

theorem Chained.of_deleteQueue {N : Netlist} {start : EntryID} {E : Set EntryID}
    (hE : ∀ i ∈ E, ¬ N.Reaches start i) : ∀ {n : ℕ} {s : SubnetBuilder} {V : EntryID → List EntryID}
    {q l : List EntryID} {seg : ℕ → List EntryID}, Deleting N start E s V q →
    Chained s chain l seg → deleteQueue n s q = some s' → ∃ l' seg', Chained s' chain l' seg' ∧
    (∀ j ∈ l, j ∈ l' ∨ j ∈ s'.emptyEntryIDs) ∧
      ∀ j, j ∉ s'.emptyEntryIDs → s'.order.depth j = s.order.depth j := by
  intro n
  induction n with
  | zero =>
    intro s V q l seg hd h hs
    cases q with
    | nil =>
      cases hs
      exact ⟨l, seg, h, fun _ hj => .inl hj, fun _ _ => rfl⟩
    | cons cur q => simp [deleteQueue] at hs
  | succ n ih =>
    intro s V q l seg hd h hs
    cases q with
    | nil =>
      cases hs
      exact ⟨l, seg, h, fun _ hj => .inl hj, fun _ _ => rfl⟩
    | cons cur q =>
      obtain ⟨⟨s₁, q₁⟩, hs₁, hs⟩ := bind_eq_some_iff.mp hs
      obtain ⟨c, hc⟩ := isSome_iff_exists.mp (hd.queue.live cur (mem_cons_self ..))
      obtain ⟨harity, o, ho⟩ := exists_of_deleteStep hc hs₁
      obtain ⟨s₂, q₂, V₂, hs₂, hord, hfree, h₂, hdel₂, -⟩ := hd.step hE hc harity ho
      have hlinks := SameLinks.of_deleteStep hs₁
      obtain ⟨rfl, rfl⟩ : s₁ = s₂ ∧ q₁ = q₂ := by
        rw [hs₁] at hs₂
        exact Prod.mk.inj (some.inj hs₂)
      have ht : c.type ≠ .OUT := by
        rw [← getTypeID_of_live hc]
        exact hd.queue.notOut cur (mem_cons_self ..)
      obtain ⟨l₁, seg₁, h₁, hmem₁, hdep₁⟩ :=
        h.deleted hc (Nat.not_lt.mpr harity) ht ho hdel₂ hord hfree hlinks
      obtain ⟨D, -, -, hdel, -⟩ := h₂.of_deleteQueue hE hs
      obtain ⟨l', seg', h', hmem', hdep'⟩ := ih h₂ h₁ hs
      have hfree' : ∀ j ∈ s₁.emptyEntryIDs, j ∈ s'.emptyEntryIDs :=
        fun j hj => (hdel.free j).mpr (.inl hj)
      exact ⟨l', seg', h', fun j hj => (hmem₁ j hj).elim (hmem' j) (fun hf => .inr (hfree' j hf)),
        fun j hj => (hdep' j hj).trans (hdep₁ j (fun hf => hj (hfree' j hf)))⟩

theorem Chained.of_delLinks {N : Netlist} {del : Bool} {new : List EntryID} : ∀ {links : List Link}
    {s : SubnetBuilder} {V : EntryID → List EntryID} {l : List EntryID} {seg : ℕ → List EntryID},
    Relinking N root (links.map Link.idx) new s V → Chained s chain l seg →
    (∀ l ∈ links, ¬ N.Reaches l.idx root) → delLinks root del links s = some s' →
    ∃ l' seg', Chained s' chain l' seg' ∧ (∀ j ∈ l, j ∈ l' ∨ j ∈ s'.emptyEntryIDs) ∧
      ∀ j, j ∉ s'.emptyEntryIDs → s'.order.depth j = s.order.depth j := by
  intro links
  induction links with
  | nil =>
    intro s V l seg _ h _ hs
    cases hs
    exact ⟨l, seg, h, fun _ hj => .inl hj, fun _ _ => rfl⟩
  | cons k links ih =>
    intro s V l seg hrel h hr hs
    obtain ⟨s₁, V₁, c, hs₁, hsame, hc, h₁, hdel⟩ := hrel.delLink
    have hchain₁ := h.sameNet hsame (SameLinks.of_delLink hs₁)
    have hr' : ∀ m ∈ links, ¬ N.Reaches m.idx root := fun m hm => hr m (mem_cons_of_mem k hm)
    simp only [SubnetBuilder.delLinks, hs₁, getCell_of_live hc, bind_eq_bind,
      bind_some] at hs
    split at hs
    · rename_i hcond
      obtain ⟨s₂, hs₂, hs⟩ := bind_eq_some_iff.mp hs
      have hE : ∀ i ∈ ({root} : Set EntryID), ¬ N.Reaches k.idx i := by
        intro i hi
        rw [hi]
        exact hr k (mem_cons_self ..)
      obtain ⟨D, V₂, h₂, -, hV₂, -⟩ := (hdel hcond.1).of_deleteQueue hE hs₂
      obtain ⟨l₂, seg₂, hchain₂, hmem₂, hdep₂⟩ := hchain₁.of_deleteQueue hE (hdel hcond.1) hs₂
      have hrel₂ : Relinking N root (links.map Link.idx) new s₂ V₂ :=
        ⟨h₂.net, by rw [hV₂ root rfl, h₁.here], fun i hi => h₂.agree i hi, h₂.sub⟩
      obtain ⟨D', -, -, hdel', -⟩ := hrel₂.of_delLinks hr' hs
      obtain ⟨l', seg', h', hmem', hdep'⟩ := ih hrel₂ hchain₂ hr' hs
      have hfree' : ∀ j ∈ s₂.emptyEntryIDs, j ∈ s'.emptyEntryIDs :=
        fun j hj => (hdel'.free j).mpr (.inl hj)
      refine ⟨l', seg', h', fun j hj => (hmem₂ j hj).elim (hmem' j) (fun hf => .inr (hfree' j hf)),
        fun j hj => ?_⟩
      rw [hdep' j hj, hdep₂ j (fun hf => hj (hfree' j hf)), hsame.order]
    · obtain ⟨l', seg', h', hmem', hdep'⟩ := ih h₁ hchain₁ hr' hs
      exact ⟨l', seg', h', hmem', fun j hj => by rw [hdep' j hj, hsame.order]⟩

end SubnetBuilder

end UtopiaEda
