import UtopiaEda.BlockListPushing

/-!
# Erasing from lists of blocks

An element may be erased when no item of its block stands before it; the last index is then right in
the block, and the iterator to the element behind is returned, except behind a final block that is
released.
-/
namespace UtopiaEda.BlockList

open List
open Option (bind_eq_bind bind_some map_eq_some_iff map_some some.inj)
open ListBlock LinkedLists
open Prod (fst snd)

variable {α : Type} {i n : ℕ} {a : α} {t : ItemSize} {s s' : BlockList α} {r sid z : ℕ}
  {sids A B : List ℕ} {b : ListBlock α} {pos next : ListIterator}
  {l l₁ l₂ : List (ListIterator × α)}

def removed (s : BlockList α) (sid i : ℕ) : BlockList α :=
  (s.modify sid (·.remove i)).counted (· - 1)

/-- The list without the block `b`. -/
def unlinked (s : BlockList α) (b : ListBlock α) : BlockList α :=
  ((s.modify b.prevSID (fun c => { c with nextSID := b.nextSID })).modify b.nextSID
    (fun c => { c with prevSID := b.prevSID })).modify b.prevSID
    (fun c => { c with final := b.final })

/-- The last index of a block is moved before `i`. -/
def relasted (s : BlockList α) (sid i : ℕ) (b : ListBlock α) : BlockList α :=
  s.modify sid (fun c => { c with last := (lastOccupied b.items i).elim b.last Nat.cast })

theorem erase_unlinked (hb : s.blocks sid = some b) (hget : b.items[i]? = some (some a))
    {c : ListBlock α} (hc : (s.removed sid i).blocks sid = some c) (hsize : c.size = 0)
    (hfirst : c.first = false) : s.erase ⟨some sid, i⟩ =
      (((s.removed sid i).unlinked c).iterator (some c.nextSID)).map
      (fun next => ((s.removed sid i).unlinked c, next)) := by
  have hd : s.deref ⟨some sid, i⟩ = some a := by
    rw [deref_eq hb, hget]
    rfl
  rw [erase]
  simp only [bind_eq_bind, bind_some, hd]
  change ((s.removed sid i).blocks sid).bind _ = _
  rw [hc, bind_some, if_pos ⟨hsize, by rw [hfirst]; rfl⟩]
  exact (Option.map_eq_bind ..).symm

theorem erase_relasted (hb : s.blocks sid = some b) (hget : b.items[i]? = some (some a))
    {c : ListBlock α} (hc : (s.removed sid i).blocks sid = some c) (hkept : c.size = 0 →
    c.first = true) : s.erase ⟨some sid, i⟩ =
    (((s.removed sid i).relasted sid i c).next ⟨some sid, i⟩).map
      (fun next => ((s.removed sid i).relasted sid i c, next)) := by
  have hd : s.deref ⟨some sid, i⟩ = some a := by
    rw [deref_eq hb, hget]
    rfl
  have hcond : ¬ (c.size = 0 ∧ (!c.first) = true) := by
    intro ⟨hsize, hfirst⟩
    rw [hkept hsize] at hfirst
    cases hfirst
  rw [erase]
  simp only [bind_eq_bind, bind_some, hd]
  change ((s.removed sid i).blocks sid).bind _ = _
  rw [hc, bind_some, if_neg hcond]
  exact (Option.map_eq_bind ..).symm

/-- The iterator to the first element of `l`. -/
def follower (l : List (ListIterator × α)) : ListIterator := (l.head?.map fst).getD back

theorem Yields.follower (h : s.Yields pos l) : pos = follower l := by
  obtain ⟨n, hn⟩ := h
  cases n with
  | zero => cases hn
  | succ n =>
    rw [walk] at hn
    by_cases hback : pos = back
    · rw [if_pos hback] at hn
      cases hn
      exact hback
    · rw [if_neg hback] at hn
      simp only [bind_eq_bind, Option.bind_eq_some_iff] at hn
      obtain ⟨a, -, it, -, rest, -, heq⟩ := hn
      cases heq
      rfl

theorem Represents.locate (h : s.Represents sids) (hmem : (pos, a) ∈ s.live sids) :
    ∃ A sid B b i, sids = A ++ sid :: B ∧ s.blocks sid = some b ∧ pos = ⟨some sid, i⟩ ∧ i < b.used ∧
    b.items[i]? = some (some a) := by
  obtain ⟨sid, hsid, hplace⟩ := mem_flatMap.mp hmem
  obtain ⟨A, B, hAB⟩ := append_of_mem hsid
  obtain ⟨b, hb⟩ := h.ring.stored sid hsid
  rw [places_eq hb] at hplace
  obtain ⟨⟨i, c⟩, hp, heq⟩ := mem_map.mp hplace
  cases heq
  obtain ⟨hi, hget⟩ := mem_elements.mp hp
  exact ⟨A, sid, B, b, i, hAB, hb, rfl, hi, hget⟩

structure Lacks (s : BlockList α) (A : List ℕ) (sid : ℕ) (B : List ℕ) (c : ListBlock α) : Prop where
  ring : s.Ring (A ++ sid :: B)
  block : s.blocks sid = some c
  filled : ∀ r ∈ A ++ sid :: B, r ≠ sid → ∀ d, s.blocks r = some d → d.Sound ∧
    (d.size = 0 → r = s.listID)

theorem live_removed_of_notMem (h : sid ∉ A) : (s.removed sid i).live A = s.live A := by
  rw [removed, live_counted, live_modify_of_notMem h]

theorem Represents.lacks (h : s.Represents (A ++ sid :: B)) (hb : s.blocks sid = some b) (i : ℕ) :
    ∃ n, (s.removed sid i).Lacks A sid B { b.remove i with totalSize := n } := by
  obtain ⟨n, hn⟩ := blocks_counted (· - 1) (blocks_modify_self (f := (·.remove i)) hb)
  have hring : (s.modify sid (·.remove i)).Ring (A ++ sid :: B) :=
    h.ring.modify (fun _ => rfl) (fun _ => rfl) (fun _ => rfl) (fun _ => rfl)
  refine ⟨n, hring.counted _, hn, ?_⟩
  intro r hr hne c hc
  obtain ⟨d, hd⟩ := h.ring.stored r hr
  obtain ⟨m, hm⟩ := blocks_counted (· - 1) (s := s.modify sid (·.remove i))
    (by rw [blocks_modify_of_ne hne]; exact hd)
  rw [removed, hm] at hc
  cases hc
  obtain ⟨hsound, hlist⟩ := h.filled r hr d hd
  exact ⟨hsound.counted, hlist⟩

theorem size_removed (h : s.Represents (A ++ sid :: B)) (hb : s.blocks sid = some b)
    (hi : i < b.used) (hget : b.items[i]? = some (some a)) : (s.removed sid i).size =
      some (s.live A ++ ((b.before i ++ b.behind i).map (fun p => ((⟨some sid, p.1⟩ : ListIterator),
      p.2)) ++ s.live B)).length := by
  have hsize : (s.modify sid (·.remove i)).size = s.size := size_modify (fun _ => rfl)
  rw [removed, size_counted, hsize, h.size, live_append, live_cons, places_eq hb,
    elements_split hi hget]
  simp only [map_some, length_append, length_map, length_cons]
  exact congrArg some (by omega)

theorem live_removed (h : s.Represents (A ++ sid :: B)) (hb : s.blocks sid = some b)
    (hi : i < b.used) (hget : b.items[i]? = some (some a)) :
    (s.removed sid i).live (A ++ sid :: B) =
      s.live A ++ ((b.before i ++ b.behind i).map (fun p => (⟨some sid, p.1⟩, p.2)) ++
      s.live B) := by
  rw [removed, live_counted, live_modify_at h.ring.nodup hb, elements_remove hi hget]

theorem map_blocks_unlinked {β : Type} {g : ListBlock α → β}
    (hnext : ∀ d n, g { d with nextSID := n } = g d) (hprev : ∀ d n, g { d with prevSID := n } =
    g d) (hfinal : r = b.prevSID → ∀ d v, g { d with final := v } = g d) :
    ((s.unlinked b).blocks r).map g = (s.blocks r).map g := by
  have hstart : (((s.modify b.prevSID (fun c => { c with nextSID := b.nextSID })).modify b.nextSID
      (fun c => { c with prevSID := b.prevSID })).blocks r).map g = (s.blocks r).map g := by
    rw [map_blocks_modify (fun d => hprev d _), map_blocks_modify (fun d => hnext d _)]
  rw [unlinked]
  by_cases hr : r = b.prevSID
  · rw [map_blocks_modify (fun d => hfinal hr d _), hstart]
  · rw [blocks_modify_of_ne hr, hstart]

theorem nextOf_unlinked_of_ne (hr : r ≠ b.prevSID) : (s.unlinked b).nextOf r = s.nextOf r := by
  rw [nextOf, unlinked, blocks_modify_of_ne hr]
  refine Eq.trans (map_blocks_modify (fun _ => rfl)) ?_
  rw [blocks_modify_of_ne hr, nextOf]

theorem prevOf_unlinked_of_ne (hr : r ≠ b.nextSID) : (s.unlinked b).prevOf r = s.prevOf r := by
  rw [prevOf, unlinked]
  refine Eq.trans (map_blocks_modify (fun _ => rfl)) ?_
  rw [blocks_modify_of_ne hr]
  exact map_blocks_modify (fun _ => rfl)

theorem nextOf_unlinked (h : ∃ d, s.blocks b.prevSID = some d) :
    (s.unlinked b).nextOf b.prevSID = some b.nextSID := by
  obtain ⟨d, hd⟩ := h
  rw [nextOf, unlinked]
  refine Eq.trans (map_blocks_modify (fun _ => rfl)) ?_
  refine Eq.trans (map_blocks_modify (fun _ => rfl)) ?_
  rw [blocks_modify_self hd, map_some]

theorem prevOf_unlinked (h : ∃ d, s.blocks b.nextSID = some d) :
    (s.unlinked b).prevOf b.nextSID = some b.prevSID := by
  obtain ⟨d, hd⟩ := h
  have hstored : ∃ d, (s.modify b.prevSID (fun c => { c with nextSID := b.nextSID })).blocks
      b.nextSID = some d := by
    rw [blocks_modify]
    by_cases heq : b.nextSID = b.prevSID
    · exact ⟨_, by rw [if_pos heq, ← heq, hd, map_some]⟩
    · exact ⟨d, by rw [if_neg heq, hd]⟩
  obtain ⟨d', hd'⟩ := hstored
  rw [prevOf, unlinked]
  refine Eq.trans (map_blocks_modify (fun _ => rfl)) ?_
  rw [blocks_modify_self hd', map_some]

theorem final_unlinked (h : ∃ d, s.blocks b.prevSID = some d) :
    ((s.unlinked b).blocks b.prevSID).map ListBlock.final = some b.final := by
  have hstored : ∃ d, ((s.modify b.prevSID (fun c => { c with nextSID := b.nextSID })).modify
      b.nextSID (fun c => { c with prevSID := b.prevSID })).blocks b.prevSID = some d := by
    obtain ⟨d, hd⟩ := h
    rw [blocks_modify]
    by_cases heq : b.prevSID = b.nextSID
    · exact ⟨_, by rw [if_pos heq, ← heq, blocks_modify_self hd, map_some]⟩
    · exact ⟨_, by rw [if_neg heq, blocks_modify_self hd]⟩
  obtain ⟨d, hd⟩ := hstored
  rw [unlinked, blocks_modify_self hd, map_some]

theorem Lacks.unlinked {p : ℕ} {c : ListBlock α} (h : s.Lacks (A ++ [p]) sid B c)
    (hempty : c.elements = []) (hsize : s.size = some (s.live (A ++ [p] ++ sid :: B)).length) :
    (s.unlinked c).Represents (A ++ p :: B) ∧ ∀ r ∈ A ++ p :: B, (s.unlinked c).places r =
    s.places r := by
  have hflat : A ++ [p] ++ sid :: B = A ++ p :: sid :: B := append_cons A p (sid :: B) ▸ rfl
  have hring := h.ring
  have hfilled := h.filled
  rw [hflat] at hring hfilled
  have hnd := hring.nodup
  have hsub : (A ++ p :: B).Sublist (A ++ p :: sid :: B) :=
    (List.Sublist.refl A).append ((sublist_cons_self sid B).cons_cons p)
  have hnd' := hnd.sublist hsub
  obtain ⟨hndA, hndB, hdis⟩ := nodup_append.mp hnd
  have hpB := (nodup_cons.mp hndB).1
  have hsidB := (nodup_cons.mp (nodup_cons.mp hndB).2).1
  have hsidA : sid ∉ A ++ p :: B := by
    intro hmem
    rcases mem_append.mp hmem with hA | hB
    · exact hdis sid hA sid (mem_cons_of_mem p mem_cons_self) rfl
    · rcases mem_cons.mp hB with rfl | hB
      · exact hpB mem_cons_self
      · exact hsidB hB
  have hhead : (A ++ p :: B).head? = some s.listID := by
    rw [← hring.head]
    cases A with
    | nil => rfl
    | cons q A => rfl
  obtain ⟨rest, hrest⟩ := head?_eq_some_iff.mp hhead
  have hlinked := hring.linked
  have hpq := (linked_split.mp hlinked).2.1
  have hprev : c.prevSID = p := by
    rw [prevOf, h.block] at hpq
    exact some.inj hpq.2
  have hpstored : ∃ d, s.blocks c.prevSID = some d := by
    rw [hprev]
    exact hring.stored p (mem_append_right A mem_cons_self)
  have hstored : ∀ r ∈ A ++ p :: B, ∃ d d', s.blocks r = some d ∧ (s.unlinked c).blocks r =
      some d' := by
    intro r hr
    obtain ⟨d, hd⟩ := hring.stored r (hsub.subset hr)
    have hmap : ((s.unlinked c).blocks r).map (fun _ => ()) = (s.blocks r).map (fun _ => ()) :=
      map_blocks_unlinked (fun _ _ => rfl) (fun _ _ => rfl) (fun _ _ _ => rfl)
    rw [hd] at hmap
    obtain ⟨d', hd', -⟩ := map_eq_some_iff.mp hmap
    exact ⟨d, d', hd, hd'⟩
  -- what stands behind the block: another one, or the first one again
  have hbehind : c.nextSID = B.head?.getD s.listID ∧ (∃ d, s.blocks c.nextSID = some d) := by
    cases B with
    | nil =>
      have hlast : (A ++ [p] ++ [sid]).getLast? = some sid := getLast?_concat
      have hnext : c.nextSID = s.listID := h.ring.next_of_last h.block
      rw [hnext]
      exact ⟨rfl, hring.stored _ hring.mem_listID⟩
    | cons n B =>
      have hlinked' := (linked_cons_cons sid n B).mp (linked_split.mp hlinked).2.2
      have hnext : c.nextSID = n := by
        have h1 := hlinked'.1.1
        rw [nextOf, h.block] at h1
        exact some.inj h1
      rw [hnext]
      exact ⟨rfl, hring.stored n (by simp)⟩
  have hplaces : ∀ r ∈ A ++ p :: B, (s.unlinked c).places r = s.places r := by
    intro r hr
    obtain ⟨d, d', hd, hd'⟩ := hstored r hr
    have hmap : ((s.unlinked c).blocks r).map elements = (s.blocks r).map elements :=
      map_blocks_unlinked (fun _ _ => rfl) (fun _ _ => rfl) (fun _ _ _ => rfl)
    rw [hd, hd'] at hmap
    rw [places_eq hd, places_eq hd', some.inj hmap]
  have hfirst : s.listID ∈ A ++ [p] := by
    cases A with
    | nil =>
      cases hhead
      exact mem_singleton_self _
    | cons q A =>
      cases hhead
      exact mem_cons_self
  have hB : ∀ r ∈ B, r ≠ s.listID := by
    intro r hr heq
    have hndB' : (A ++ [p] ++ B).Nodup := by rwa [← append_cons A p B]
    exact (nodup_append.mp hndB').2.2 s.listID hfirst r hr heq.symm
  have hnextp := nextOf_unlinked hpstored
  have hprevn := prevOf_unlinked hbehind.2
  have hne : ∀ r, r ≠ p → (s.unlinked c).nextOf r = s.nextOf r :=
    fun r hr => nextOf_unlinked_of_ne (hprev ▸ hr)
  have hpe : ∀ r, r ≠ c.nextSID → (s.unlinked c).prevOf r = s.prevOf r :=
    fun r hr => prevOf_unlinked_of_ne hr
  have hfinalp := final_unlinked hpstored
  rw [hprev] at hnextp hprevn hfinalp
  have hfinal := h.ring.final sid (mem_append_right _ mem_cons_self) c h.block
  rw [hflat] at hfinal
  have hshow : s.live (A ++ [p] ++ sid :: B) = s.live (A ++ p :: B) := by
    rw [hflat, live_append, live_append, live_cons, live_cons, live_cons, places_eq h.block, hempty]
    rfl
  refine ⟨⟨⟨hhead, hnd', fun r hr => hring.lt r (hsub.subset hr), ?_, ?_, ?_, ?_, ?_⟩, ?_, ?_⟩,
    hplaces⟩
  · cases B with
    | nil =>
      refine (linked_split.mp hlinked).1.congr (fun r hr => hne r ?_) (fun r hr => hpe r ?_)
      · rw [dropLast_concat] at hr
        exact fun heq => hdis r hr p mem_cons_self heq
      · rw [hbehind.1]
        rw [hrest] at hr hnd'
        intro heq
        have hlist : r = s.listID := heq
        exact (nodup_cons.mp hnd').1 (hlist ▸ hr)
    | cons n B =>
      have hn : c.nextSID = n := hbehind.1
      rw [hn] at hnextp hprevn hpe
      exact hlinked.remove hnd' hnextp hprevn hne hpe
  · intro z hz
    cases B with
    | nil =>
      rw [getLast?_concat] at hz
      cases hz
      have hn : c.nextSID = s.listID := hbehind.1
      rw [hn] at hnextp hprevn
      exact ⟨hnextp, hprevn⟩
    | cons n B =>
      have hn : c.nextSID = n := hbehind.1
      rw [getLast?_append_of_ne_nil _ (cons_ne_nil _ _), getLast?_cons_cons] at hz
      have hzp : z ≠ p := fun heq => hpB (mem_cons_of_mem sid (heq ▸ mem_of_getLast? hz))
      have hclosed := hring.closed z (by
        rw [getLast?_append_of_ne_nil _ (cons_ne_nil _ _), getLast?_cons_cons, getLast?_cons_cons,
          hz])
      have hln : s.listID ≠ c.nextSID := by
        rw [hn]
        exact (hB n mem_cons_self).symm
      exact ⟨(hne z hzp).trans hclosed.1, (hpe s.listID hln).trans hclosed.2⟩
  · intro r hr
    obtain ⟨d, d', hd, hd'⟩ := hstored r hr
    exact ⟨d', hd'⟩
  · intro r hr d' hd'
    have hmap : ((s.unlinked c).blocks r).map ListBlock.first = (s.blocks r).map ListBlock.first :=
      map_blocks_unlinked (fun _ _ => rfl) (fun _ _ => rfl) (fun _ _ _ => rfl)
    obtain ⟨d, -, hd, -⟩ := hstored r hr
    rw [hd', hd] at hmap
    rw [some.inj hmap]
    exact hring.first r (hsub.subset hr) d hd
  · intro r hr d' hd'
    by_cases hrp : r = p
    · subst hrp
      rw [hd', map_some] at hfinalp
      rw [some.inj hfinalp, hfinal]
      cases B with
      | nil => exact iff_of_true (by rw [← hflat, getLast?_concat]) getLast?_concat
      | cons n B =>
        have hlast : ∀ x, (A ++ r :: sid :: n :: B).getLast? = some x → x ∈ n :: B := by
          intro x hx
          rw [getLast?_append_of_ne_nil _ (cons_ne_nil _ _), getLast?_cons_cons,
            getLast?_cons_cons] at hx
          exact mem_of_getLast? hx
        refine iff_of_false (fun heq => hsidB (hlast sid heq)) (fun heq => ?_)
        rw [getLast?_append_of_ne_nil _ (cons_ne_nil _ _), getLast?_cons_cons] at heq
        exact hpB (mem_cons_of_mem sid (mem_of_getLast? heq))
    · have hmap : ((s.unlinked c).blocks r).map ListBlock.final =
          (s.blocks r).map ListBlock.final :=
        map_blocks_unlinked (fun _ _ => rfl) (fun _ _ => rfl)
          (fun heq => absurd (heq.trans hprev) hrp)
      obtain ⟨d, -, hd, -⟩ := hstored r hr
      rw [hd', hd] at hmap
      rw [some.inj hmap, hring.final r (hsub.subset hr) d hd]
      cases B with
      | nil =>
        rw [← hflat, getLast?_concat, getLast?_concat]
        exact iff_of_false (fun heq => hsidA (some.inj heq ▸ hr))
          (fun heq => hrp (some.inj heq).symm)
      | cons n B =>
        rw [getLast?_append_of_ne_nil _ (cons_ne_nil _ _), getLast?_cons_cons, getLast?_cons_cons,
          getLast?_append_of_ne_nil _ (cons_ne_nil _ _), getLast?_cons_cons]
  · intro r hr d' hd'
    have hmap : ((s.unlinked c).blocks r).map (fun c => (c.capacity, c.size, c.last, c.items)) =
        (s.blocks r).map (fun c => (c.capacity, c.size, c.last, c.items)) :=
      map_blocks_unlinked (fun _ _ => rfl) (fun _ _ => rfl) (fun _ _ _ => rfl)
    obtain ⟨d, -, hd, -⟩ := hstored r hr
    rw [hd', hd] at hmap
    have hrsid : r ≠ sid := fun heq => hsidA (heq ▸ hr)
    obtain ⟨hsound, hlist⟩ := hfilled r (hsub.subset hr) hrsid d hd
    refine ⟨hsound.congr (some.inj hmap), fun hzero => hlist ?_⟩
    rw [← hzero]
    exact (congrArg (fun q => q.2.1) (some.inj hmap)).symm
  · rw [show (s.unlinked c).live (A ++ p :: B) = _ from flatMap_congr hplaces]
    refine Eq.trans ?_ (hsize.trans (congrArg (fun l => some (length l)) hshow))
    exact map_blocks_unlinked (fun _ _ => rfl) (fun _ _ => rfl) (fun _ _ _ => rfl)

/-! ### One item -/

theorem live_nodup (h : s.Represents sids) : ((s.live sids).map fst).Nodup := by
  rw [live, map_flatMap, nodup_flatMap]
  have hmem : ∀ r ∈ sids, ∀ p ∈ (s.places r).map fst, p.blockID = some r := by
    intro r _ p hp
    rw [places, map_map] at hp
    obtain ⟨q, -, rfl⟩ := mem_map.mp hp
    rfl
  constructor
  · intro r hr
    obtain ⟨b, hb⟩ := h.ring.stored r hr
    rw [places_eq hb, map_map]
    have hnd : (b.elements.map fst).Nodup := occupied_nodup
    have hmap : b.elements.map (fst ∘ fun p => ((⟨some r, p.1⟩ : ListIterator), p.2)) =
        (b.elements.map fst).map (fun j => ⟨some r, j⟩) := by
      rw [map_map]
      rfl
    rw [hmap]
    exact hnd.map (fun j k hjk => by cases hjk; rfl)
  · refine h.ring.nodup.imp_of_mem (fun {r r'} hr hr' hne p hp hp' => ?_)
    have heq := hmem r hr p hp
    rw [hmem r' hr' p hp'] at heq
    exact hne (some.inj heq).symm

theorem split_unique {p p' : ListIterator × α} {l₁' l₂' : List (ListIterator × α)}
    (h : l₁ ++ p :: l₂ = l₁' ++ p' :: l₂') (hnd : ((l₁ ++ p :: l₂).map fst).Nodup)
    (hp : p.1 = p'.1) : l₁ = l₁' ∧ l₂ = l₂' := by
  rw [map_append, map_cons] at hnd
  obtain ⟨-, hnd₂, hdis⟩ := nodup_append.mp hnd
  have h₁ : p' ∉ l₁ := fun hmem =>
    hdis p'.1 (mem_map_of_mem hmem) p.1 mem_cons_self hp.symm
  have h₂ : p' ∉ l₂ := fun hmem =>
    (nodup_cons.mp hnd₂).1 (hp ▸ mem_map_of_mem hmem)
  obtain ⟨h₁, -, h₂⟩ := (append_cons_inj_of_notMem h₁ h₂).mp h
  exact ⟨h₁, h₂⟩

/-- An element whose block has no element before it, and which is not the only one of a final block
behind others. -/
def Erasable (s : BlockList α) (pos : ListIterator) : Prop :=
  ∀ sid b, pos.blockID = some sid → s.blocks sid = some b →
    (∀ k < pos.index, b.items[k]?.join = none) ∧ (b.size = 1 → b.first = false → b.final = true →
    s.size = some 1)

/-- The element at `pos` is erased, and the iterator to the one behind it is returned. -/
def Erases (s : BlockList α) (l : List (ListIterator × α)) (pos : ListIterator) : Prop :=
  ∃ s' l₁ a l₂, l = l₁ ++ (pos, a) :: l₂ ∧ s.erase pos = some (s', follower l₂) ∧
    s'.Shows (l₁ ++ l₂)

theorem Follows.suffix (h : s.Follows (A ++ B)) : s.Follows B where
  stored := fun r hr => h.stored r (mem_append_right A hr)
  next := fun l₁ r rest b heq hb => h.next (A ++ l₁) r rest b (by rw [heq, append_assoc]) hb

theorem Represents.yields_suffix (h : s.Represents (A ++ B)) (hB : ∀ r ∈ B, r ≠ s.listID) :
    ∃ it, s.enter B = some it ∧ s.Yields it (s.live B) :=
  yields_blocks h.ring.follows.suffix (fun r hr b hb => by
    obtain ⟨hsound, hlist⟩ := h.filled r (mem_append_right A hr) b hb
    have hsize : b.size ≠ 0 := fun hzero => hB r hr (hlist hzero)
    exact ⟨hsize, hsound.topped hsize⟩)

theorem Represents.erase_sole {p : ℕ} (h : s.Represents (A ++ [p] ++ sid :: B))
    (hb : s.blocks sid = some b) (hi : i < b.used) (hget : b.items[i]? = some (some a))
    (hsize : b.size = 1) (hfirst : b.first = false) : ∃ s', s'.Represents (A ++ [p] ++ B) ∧
    s'.live (A ++ [p]) = s.live (A ++ [p]) ∧ s'.live B = s.live B ∧
      s.erase ⟨some sid, i⟩ = some (s', if B = [] then follower (s.live (A ++ [p])) else
      follower (s.live B)) := by
  obtain ⟨n, hlacks⟩ := h.lacks hb i
  have hsplit := (h.filled sid (mem_append_right _ mem_cons_self) b hb).1.size_eq hi hget
  have hbefore : b.before i = [] := length_eq_zero_iff.mp (by omega)
  have hbehind : b.behind i = [] := length_eq_zero_iff.mp (by omega)
  have hempty : (b.remove i).elements = [] := by
    rw [elements_remove hi hget, hbefore, hbehind]
    rfl
  obtain ⟨hrep, hplaces⟩ := hlacks.unlinked hempty
    (by rw [size_removed h hb hi hget, live_removed h hb hi hget])
  have hzero : (b.remove i).size = 0 := by
    change b.size - 1 = 0
    omega
  have herase := erase_unlinked hb hget hlacks.block hzero hfirst
  rw [append_cons A p B] at hrep hplaces
  have hnd := h.ring.nodup
  obtain ⟨-, hndB, hdis⟩ := nodup_append.mp hnd
  have hsidA : sid ∉ A ++ [p] := fun hmem => hdis sid hmem sid mem_cons_self rfl
  have hA : ((s.removed sid i).unlinked { b.remove i with totalSize := n }).live (A ++ [p]) =
      s.live (A ++ [p]) :=
    Eq.trans (flatMap_congr (fun r hr => hplaces r (mem_append_left B hr)))
      (live_removed_of_notMem hsidA)
  have hB : ((s.removed sid i).unlinked { b.remove i with totalSize := n }).live B = s.live B :=
    Eq.trans (flatMap_congr (fun r hr => hplaces r (mem_append_right _ hr)))
      (live_removed_of_notMem (nodup_cons.mp hndB).1)
  refine ⟨_, hrep, hA, hB, ?_⟩
  rw [herase]
  cases B with
  | nil =>
    have hnext : b.nextSID = s.listID := h.ring.next_of_last hb
    rw [append_nil] at hrep
    obtain ⟨⟨it, hit, hyields⟩, -⟩ := hrep.shows
    rw [hA] at hyields
    rw [if_pos rfl, ← hyields.follower]
    exact map_eq_some_iff.mpr ⟨it,
      Eq.trans (congrArg (fun x => iterator _ (some x)) hnext) hit, rfl⟩
  | cons m B =>
    have hnext : b.nextSID = m := by
      have hlinked := ((linked_cons_cons sid m B).mp h.ring.linked.right).1.1
      rw [nextOf, hb] at hlinked
      exact some.inj hlinked
    have hlist : ∀ r ∈ m :: B, r ≠ s.listID := by
      intro r hr heq
      have hmem := hrep.ring.head
      cases A with
      | nil =>
        cases hmem
        exact hdis _ mem_cons_self r (mem_cons_of_mem sid hr) heq.symm
      | cons q A =>
        cases hmem
        exact hdis _ mem_cons_self r (mem_cons_of_mem sid hr) heq.symm
    obtain ⟨it, hit, hyields⟩ := hrep.yields_suffix hlist
    rw [hB] at hyields
    rw [if_neg (cons_ne_nil m B), ← hyields.follower]
    refine map_eq_some_iff.mpr ⟨it, ?_, rfl⟩
    rw [iterator, ← hit]
    refine Eq.trans (congrArg _ (congrArg some hnext))
      (skipEmptyBlocks_enter hrep.ring.follows.suffix ?_)
    intro r hr c hc hzero
    exact hlist r hr ((hrep.filled r (mem_append_right _ hr) c hc).2 hzero)

theorem used_of_behind (hbehind : b.behind i ≠ []) (hle : b.used ≤ b.items.length) :
    i + 1 < b.used := by
  by_contra hlast
  apply hbehind
  rw [behind, drop_eq_nil_of_le (by rw [length_take_of_le hle]; omega)]
  rfl

/-- The block of an element stays, with another last index. -/
theorem Represents.erase_kept (h : s.Represents (A ++ sid :: B)) (hb : s.blocks sid = some b)
    (hi : i < b.used) (hget : b.items[i]? = some (some a)) (hkept : b.size = 1 → b.first = true) :
    ∃ (s' : BlockList α) (n : ℕ), s.erase ⟨some sid, i⟩ =
    (s'.next ⟨some sid, i⟩).map (fun next => (s', next)) ∧ s'.listID = s.listID ∧
    s'.Lacks A sid B { b.remove i with totalSize := n, last := (lastOccupied b.items i).elim b.last Nat.cast } ∧
    s'.live A = s.live A ∧ s'.live B = s.live B ∧ s'.size =
      some (s.live A ++ ((b.before i ++ b.behind i).map (fun p => ((⟨some sid, p.1⟩ : ListIterator), p.2)) ++ s.live B)).length := by
  obtain ⟨n, hlacks⟩ := h.lacks hb i
  have hnd := h.ring.nodup
  obtain ⟨-, hndB, hdis⟩ := nodup_append.mp hnd
  have hsidA : sid ∉ A := fun hmem => hdis sid hmem sid mem_cons_self rfl
  have hsidB := (nodup_cons.mp hndB).1
  have hlast : lastOccupied (b.remove i).items i = lastOccupied b.items i :=
    lastOccupied_set.resolve_right (Nat.lt_irrefl i)
  have hsize1 := (h.filled sid (mem_append_right A mem_cons_self) b hb).1.size_eq hi hget
  have herase := erase_relasted hb hget hlacks.block (fun hzero => hkept (by
    have hzero' : b.size - 1 = 0 := hzero
    omega))
  refine ⟨_, n, herase, rfl, ⟨?_, ?_, ?_⟩, ?_, ?_, ?_⟩
  · exact hlacks.ring.modify (fun _ => rfl) (fun _ => rfl) (fun _ => rfl) (fun _ => rfl)
  · rw [BlockList.relasted, blocks_modify_self hlacks.block]
    change some { b.remove i with totalSize := n, last := (lastOccupied (b.remove i).items i).elim b.last Nat.cast } = _
    rw [hlast]
  · intro r hr hne d hd
    rw [BlockList.relasted, blocks_modify_of_ne hne] at hd
    exact hlacks.filled r hr hne d hd
  · rw [BlockList.relasted, live_modify_of_notMem hsidA, live_removed_of_notMem hsidA]
  · rw [BlockList.relasted, live_modify_of_notMem hsidB, live_removed_of_notMem hsidB]
  · rw [← size_removed h hb hi hget]
    exact size_modify (fun _ => rfl)

theorem Lacks.places_eq {c : ListBlock α} (h : s.Lacks A sid B c) :
    s.live (A ++ sid :: B) = s.live A ++
    (c.elements.map (fun p => (⟨some sid, p.1⟩, p.2)) ++ s.live B) := by
  rw [live_append, live_cons, BlockList.places_eq h.block]

theorem Represents.erase_first (h : s.Represents (A ++ sid :: B)) (hb : s.blocks sid = some b)
    (hi : i < b.used) (hget : b.items[i]? = some (some a)) (hkept : b.size = 1 → b.first = true)
    (hfirst : b.before i = []) : ∃ s', s'.Represents (A ++ sid :: B) ∧
      s'.live (A ++ sid :: B) =
      s.live A ++ ((b.behind i).map (fun p => (⟨some sid, p.1⟩, p.2)) ++ s.live B) ∧
      s.erase ⟨some sid, i⟩ = some (s',
      follower ((b.behind i).map (fun p => (⟨some sid, p.1⟩, p.2)) ++ s.live B)) := by
  obtain ⟨s', n, herase, hlist, hlacks, hA, hB, hsize⟩ := h.erase_kept hb hi hget hkept
  have hsid : sid ∈ A ++ sid :: B := mem_append_right A mem_cons_self
  have hsound := (h.filled sid hsid b hb).1
  have hsplit := hsound.size_eq hi hget
  rw [hfirst, nil_append] at hsize
  rw [hfirst, length_nil, Nat.zero_add] at hsplit
  rw [lastOccupied_eq_none.mpr (before_eq_nil.mp hfirst), Option.elim_none] at hlacks
  have hsound' : (b.remove i).Sound := hsound.remove hi hget (fun hlast => by
    by_contra hne
    have hbehind : b.behind i ≠ [] := fun hnil => hne (by rw [hsplit, hnil]; rfl)
    have hlt := used_of_behind hbehind hsound.used_le
    omega)
  have helem : (b.remove i).elements = b.behind i := by
    rw [elements_remove hi hget, hfirst, nil_append]
  have hlive : s'.live (A ++ sid :: B) =
      s.live A ++ ((b.behind i).map (fun p => (⟨some sid, p.1⟩, p.2)) ++ s.live B) := by
    rw [hlacks.places_eq, hA, hB, ← helem]
    rfl
  have hrep : s'.Represents (A ++ sid :: B) := by
    refine ⟨hlacks.ring, ?_, by rw [hsize, hlive]⟩
    intro r hr d hd
    by_cases hne : r = sid
    · subst hne
      rw [hlacks.block] at hd
      cases hd
      refine ⟨hsound'.counted, fun hzero => ?_⟩
      have hzero' : b.size - 1 = 0 := hzero
      rw [hlist]
      exact (h.ring.first r hr b hb).mp (hkept (by omega))
    · exact hlacks.filled r hr hne d hd
  refine ⟨s', hrep, hlive, ?_⟩
  rw [herase]
  refine map_eq_some_iff.mpr ⟨_, ?_, rfl⟩
  by_cases hone : b.size = 1
  · -- the first block of the list is left empty
    have hnil : b.behind i = [] := length_eq_zero_iff.mp (by omega)
    have heq := (h.ring.first sid hsid b hb).mp (hkept hone)
    have hBne : ∀ r ∈ B, r ≠ s'.listID := by
      intro r hr hr'
      rw [hlist, ← heq] at hr'
      exact (nodup_cons.mp (nodup_append.mp h.ring.nodup).2.1).1 (hr' ▸ hr)
    have hrep' := hrep
    rw [append_cons] at hrep'
    obtain ⟨it, hit, hyields⟩ := hrep'.yields_suffix hBne
    rw [hrep.ring.follows.suffix.leave hlacks.block (.inl (show b.size - 1 = 0 by omega)), hit,
      hnil, ← hB]
    exact congrArg some hyields.follower
  · have hbehind : b.behind i ≠ [] := fun hnil => hone (by rw [hsplit, hnil]; rfl)
    have hused := used_of_behind hbehind hsound.used_le
    have hsize' : (b.remove i).size ≠ 0 := by
      change b.size - 1 ≠ 0
      omega
    have hnext := next_inside hlacks.block hsize' (hsound'.topped hsize').counted hused
    refine hnext.trans ?_
    change ((b.remove i).behind i).head?.map _ = _
    rw [behind_remove]
    obtain ⟨q, qs, hq⟩ := exists_cons_of_ne_nil hbehind
    rw [hq]
    rfl

theorem blockID_of_mem (h : (pos, a) ∈ s.live sids) : ∃ r ∈ sids, pos.blockID = some r := by
  obtain ⟨r, hr, hplace⟩ := mem_flatMap.mp h
  obtain ⟨q, -, heq⟩ := mem_map.mp hplace
  cases heq
  exact ⟨r, hr, rfl⟩

theorem follower_blockID (s : BlockList α) (sids : List ℕ) :
    (follower (s.live sids)).blockID = none ∨ ∃ r ∈ sids, (follower (s.live sids)).blockID =
    some r := by
  cases hl : s.live sids with
  | nil => exact .inl rfl
  | cons q l => exact .inr (blockID_of_mem (a := q.2) (hl ▸ mem_cons_self))

/-- Where an element stands in the list. -/
theorem live_split (A B : List ℕ) (hb : s.blocks sid = some b) (hi : i < b.used)
    (hget : b.items[i]? = some (some a)) : s.live (A ++ sid :: B) =
      (s.live A ++ (b.before i).map (fun p => (⟨some sid, p.1⟩, p.2))) ++
        (⟨some sid, i⟩, a) :: ((b.behind i).map (fun p => (⟨some sid, p.1⟩, p.2)) ++ s.live B) := by
  rw [live_append, live_cons, places_eq hb, elements_split hi hget, map_append, map_cons,
    append_assoc, append_assoc, cons_append]

theorem topped_of_last {k : ℕ} (hlast : b.last = (k : ℤ)) (hget : b.items[k]? = some (some a)) :
    b.used = k + 1 ∧ b.Topped := by
  have hused : b.used = k + 1 := by
    rw [used, hlast]
    omega
  obtain ⟨hlt, -⟩ := List.getElem?_eq_some_iff.mp hget
  refine ⟨hused, by rw [hused]; omega, by rw [hused]; exact hlt, a, ?_⟩
  rw [hused, take_add_one, hget]
  exact getLast?_concat

/-- An element behind another one of its block: either the walk behind it starts in the block, or
the last index hides what stands there. -/
theorem Represents.not_erases (h : s.Represents (A ++ sid :: B)) (hb : s.blocks sid = some b)
    (hi : i < b.used) (hget : b.items[i]? = some (some a)) (hbefore : b.before i ≠ []) :
    ¬ s.Erases (s.live (A ++ sid :: B)) ⟨some sid, i⟩ := by
  intro ⟨s₁, l₁, a', l₂, hl, herase', hshows⟩
  have hsid : sid ∈ A ++ sid :: B := mem_append_right A mem_cons_self
  have hsound := (h.filled sid hsid b hb).1
  have hsplit := hsound.size_eq hi hget
  have hpos := length_pos_iff.mpr hbefore
  have hlive := live_split A B hb hi hget
  have hnd := live_nodup h
  rw [hlive] at hl hnd
  obtain ⟨rfl, rfl⟩ := split_unique hl hnd rfl
  obtain ⟨s', n, herase, hlist, hlacks, hA, hB, -⟩ := h.erase_kept hb hi hget (fun hone => absurd hone (by omega))
  rw [herase'] at herase
  obtain ⟨next, hnext, heq⟩ := map_eq_some_iff.mp herase.symm
  cases heq
  obtain ⟨k, hk⟩ := Option.ne_none_iff_exists'.mp
    (fun hnone => hbefore (before_eq_nil.mpr (lastOccupied_eq_none.mp hnone)))
  obtain ⟨hki, ⟨c, hc⟩, -⟩ := lastOccupied_eq_some hk
  rw [hk, Option.elim_some] at hlacks
  generalize hd : ({ b.remove i with totalSize := n, last := (k : ℤ) } : ListBlock α) = d at hlacks
  have hditems : d.items = b.items.set i none := by
    rw [← hd]
    rfl
  have hdlast : d.last = (k : ℤ) := by
    rw [← hd]
  have hdsize : d.size = b.size - 1 := by
    rw [← hd]
    rfl
  by_cases hnil : b.behind i = []
  · -- the iterator stays in the block
    rw [hnil, map_nil, nil_append] at hnext
    have hstay : ¬ (d.size = 0 ∨ (i : ℤ) = d.last) := by omega
    rw [BlockList.next] at hnext
    simp only [bind_eq_bind, bind_some, hlacks.block] at hnext
    rw [if_neg hstay] at hnext
    obtain ⟨j, -, hj⟩ := Option.bind_eq_some_iff.mp hnext
    have hblock : (follower (s.live B)).blockID = some sid := by
      rw [← some.inj hj]
    rcases follower_blockID s B with hback | ⟨r, hr, hr'⟩
    · rw [hblock] at hback
      cases hback
    · rw [hblock] at hr'
      cases hr'
      exact (nodup_cons.mp (nodup_append.mp h.ring.nodup).2.1).1 hr
  · -- the walk leaves the block too early
    have hitems : d.items.take (k + 1) = b.items.take (k + 1) := by
      rw [hditems]
      exact take_set_of_le hki
    have htop : d.items[k]? = some (some c) := by
      rw [hditems, getElem?_set_ne (Nat.ne_of_gt hki), hc]
    obtain ⟨hused, htopped⟩ := topped_of_last hdlast htop
    have hblocks : ∀ r ∈ A ++ sid :: B, ∀ d, s₁.blocks r = some d →
        (d.size = 0 ∧ d.elements = [] ∧ r = s₁.listID) ∨ (d.size ≠ 0 ∧ d.Topped) := by
      intro r hr d hd
      by_cases hne : r = sid
      · rw [hne, hlacks.block] at hd
        cases hd
        exact .inr ⟨by omega, htopped⟩
      · obtain ⟨hd', hlist'⟩ := hlacks.filled r hr hne d hd
        by_cases hzero : d.size = 0
        · exact .inl ⟨hzero, length_eq_zero_iff.mp (hd'.size ▸ hzero), hlist' hzero⟩
        · exact .inr ⟨hzero, hd'.topped hzero⟩
    obtain ⟨rest, hrest⟩ := hlacks.ring.exists_tail
    have hnd' := hlacks.ring.nodup
    have hlt := hlacks.ring.lt
    have hfollows := hlacks.ring.follows
    have hlive' := hlacks.places_eq
    rw [hrest] at hblocks hnd' hlt hfollows hlive'
    have hwalk : s₁.Walkable rest := by
      refine ⟨hfollows, Nat.zero_lt_of_lt (hlt _ mem_cons_self), fun d hd => ?_,
        fun r hr d hd => ?_⟩
      · exact (hblocks _ mem_cons_self d hd).imp_left (fun hempty => ⟨hempty.1, hempty.2.1⟩)
      · refine (hblocks r (mem_cons_of_mem _ hr) d hd).resolve_left (fun hempty => ?_)
        exact (nodup_cons.mp hnd').1 (hempty.2.2 ▸ hr)
    obtain ⟨it, hit, hyields⟩ := hwalk.yields
    obtain ⟨⟨it', hit', hyields'⟩, -⟩ := hshows
    rw [hit] at hit'
    cases hit'
    have hcount := congrArg length (hyields.unique hyields')
    change (s₁.live (s₁.listID :: rest)).length = _ at hcount
    have hprefix : d.elements.length ≤ (b.before i).length := by
      rw [elements, hused, hitems, before, ← take_append_drop (k + 1) (b.items.take i), take_take,
        Nat.min_eq_left hki, occupied_append, length_append]
      exact Nat.le_add_right _ _
    have hmore := length_pos_iff.mpr hnil
    rw [hlive', hA, hB] at hcount
    simp only [length_append, length_map] at hcount
    omega

theorem Ring.exists_before (h : s.Ring (A ++ sid :: B)) (hb : s.blocks sid = some b)
    (hfirst : b.first = false) : ∃ A' p, A = A' ++ [p] := by
  refine (eq_nil_or_concat' A).resolve_left (fun hnil => ?_)
  have hhead := h.head
  rw [hnil] at hhead
  have hsid := (h.first sid (mem_append_right A mem_cons_self) b hb).mpr (some.inj hhead)
  rw [hfirst] at hsid
  cases hsid

theorem Ring.final_iff (h : s.Ring (A ++ sid :: B)) (hb : s.blocks sid = some b) :
    b.final = true ↔ B = [] := by
  rw [h.final sid (mem_append_right A mem_cons_self) b hb]
  cases B with
  | nil => exact iff_of_true getLast?_concat rfl
  | cons r B =>
    refine iff_of_false (fun hlast => ?_) (cons_ne_nil r B)
    rw [getLast?_append_of_ne_nil _ (cons_ne_nil _ _), getLast?_cons_cons] at hlast
    exact (nodup_cons.mp (nodup_append.mp h.nodup).2.1).1 (mem_of_getLast? hlast)

theorem Represents.erase_eq (h : s.Represents sids) (hl : s.live sids = l₁ ++ (pos, a) :: l₂)
    (he : s.Erasable pos) : ∃ s' sids', s.erase pos = some (s', follower l₂) ∧ s'.Represents sids' ∧
    s'.live sids' = l₁ ++ l₂ := by
  obtain ⟨A, sid, B, b, i, rfl, hb, rfl, hi, hget⟩ :=
    h.locate (hl ▸ mem_append_right l₁ mem_cons_self)
  obtain ⟨hnone, hsole⟩ := he sid b rfl hb
  have hbefore := before_eq_nil.mpr hnone
  have hlive := live_split A B hb hi hget
  have hnd := live_nodup h
  rw [hlive] at hnd
  obtain ⟨rfl, rfl⟩ := split_unique (hlive.symm.trans hl) hnd rfl
  rw [hbefore, map_nil, append_nil]
  have hsplit := (h.filled sid (mem_append_right A mem_cons_self) b hb).1.size_eq hi hget
  rw [hbefore, length_nil, Nat.zero_add] at hsplit
  by_cases hout : b.size = 1 ∧ b.first = false
  · obtain ⟨hone, hfirst⟩ := hout
    obtain ⟨A', p, rfl⟩ := h.ring.exists_before hb hfirst
    obtain ⟨s', hrep, hA, hB, herase⟩ := h.erase_sole hb hi hget hone hfirst
    have hbehind : b.behind i = [] := length_eq_zero_iff.mp (by omega)
    rw [hbehind, map_nil, nil_append]
    refine ⟨s', A' ++ [p] ++ B, ?_, hrep, by rw [live_append, hA, hB]⟩
    rw [herase]
    by_cases hnil : B = []
    · -- the final block: the list has no other element
      have hsize := hsole hone hfirst ((h.ring.final_iff hb).mpr hnil)
      rw [h.size, live_append, live_cons, places_eq hb, elements_split hi hget] at hsize
      simp only [length_append, length_map, length_cons] at hsize
      have hrest : s.live (A' ++ [p]) = [] := length_eq_zero_iff.mp (by
        have hsum := some.inj hsize
        omega)
      rw [if_pos hnil, hrest, hnil]
      rfl
    · rw [if_neg hnil]
  · have hkept : b.size = 1 → b.first = true := fun hone => by
      by_contra hfirst
      exact hout ⟨hone, Bool.eq_false_iff.mpr hfirst⟩
    obtain ⟨s', hrep, hlive', herase⟩ := h.erase_first hb hi hget hkept hbefore
    exact ⟨s', A ++ sid :: B, herase, hrep, hlive'⟩

theorem Represents.erases_iff (h : s.Represents sids) (hmem : (pos, a) ∈ s.live sids) :
    s.Erases (s.live sids) pos ↔ s.Erasable pos := by
  constructor
  · intro herases
    obtain ⟨A, sid, B, b, i, rfl, hb, rfl, hi, hget⟩ := h.locate hmem
    intro r c hr hc
    cases hr
    rw [hb] at hc
    cases hc
    refine ⟨before_eq_nil.mp (by_contra (fun hbefore => h.not_erases hb hi hget hbefore herases)),
      ?_⟩
    intro hone hfirst hfinal
    obtain ⟨A', p, rfl⟩ := h.ring.exists_before hb hfirst
    obtain ⟨s', hrep, hA, -, herase⟩ := h.erase_sole hb hi hget hone hfirst
    obtain rfl := (h.ring.final_iff hb).mp hfinal
    obtain ⟨s₁, l₁, a', l₂, hl, herase', -⟩ := herases
    have hlive := live_split (A' ++ [p]) [] hb hi hget
    have hnd := live_nodup h
    have hsplit := (h.filled sid (mem_append_right _ mem_cons_self) b hb).1.size_eq hi hget
    have hbefore : b.before i = [] := length_eq_zero_iff.mp (by omega)
    have hbehind : b.behind i = [] := length_eq_zero_iff.mp (by omega)
    rw [hlive] at hnd
    obtain ⟨-, rfl⟩ := split_unique (hlive.symm.trans hl) hnd rfl
    rw [herase', if_pos rfl, hbehind] at herase
    have hback : follower (s.live (A' ++ [p])) = back :=
      (congrArg snd (some.inj herase)).symm
    rw [h.size, hlive, hbefore, hbehind]
    cases hrest : s.live (A' ++ [p]) with
    | nil => rfl
    | cons q l =>
      -- the first element of the list is no end
      obtain ⟨r, -, hr⟩ := blockID_of_mem (show (q.1, q.2) ∈ s.live (A' ++ [p]) from hrest ▸
        mem_cons_self)
      rw [hrest] at hback
      have hq : q.1 = back := hback
      rw [hq] at hr
      cases hr
  · intro he
    obtain ⟨l₁, l₂, hl⟩ := append_of_mem hmem
    obtain ⟨s', sids', herase, hrep, hlive⟩ := h.erase_eq hl he
    exact ⟨s', l₁, a, l₂, hl, herase, hlive ▸ hrep.shows⟩

/-! ### Runs -/

/-- A list and the elements that were pushed and not erased, in the order they were pushed; an
element is erased through an iterator that points to it. -/
inductive Run (t : ItemSize) (cond : BlockList α → ListIterator → Prop) :
    BlockList α → List (ListIterator × α) → Prop
  | create (storage : BlockStorage α) (capacity : UInt32) : Run t cond (create storage t capacity)
      []
  | push_back {s s' : BlockList α} {l : List (ListIterator × α)} {a : α} {pos : ListIterator}
      (h : Run t cond s l) (hpush : s.push_back t a = some (s', pos)) :
      Run t cond s' (l ++ [(pos, a)])
  | erase {s s' : BlockList α} {l₁ l₂ : List (ListIterator × α)} {a : α} {pos next : ListIterator}
      (h : Run t cond s (l₁ ++ (pos, a) :: l₂)) (hcond : cond s pos)
      (herase : s.erase pos = some (s', next)) : Run t cond s' (l₁ ++ l₂)

theorem Run.represents (h : Run t Erasable s l) : ∃ sids, s.Represents sids ∧ s.live sids = l := by
  induction h with
  | create storage capacity =>
    obtain ⟨hrep, hlive⟩ := create_represents storage t capacity
    exact ⟨_, hrep, hlive⟩
  | push_back _ hpush ih =>
    obtain ⟨sids, hrep, rfl⟩ := ih
    obtain ⟨s', sids', pos, hpush', hrep', hlive⟩ := hrep.push_back_eq t _
    rw [hpush] at hpush'
    cases hpush'
    exact ⟨sids', hrep', hlive⟩
  | erase _ hcond herase ih =>
    obtain ⟨sids, hrep, hl⟩ := ih
    obtain ⟨s', sids', herase', hrep', hlive⟩ := hrep.erase_eq hl hcond
    rw [herase] at herase'
    cases herase'
    exact ⟨sids', hrep', hlive⟩

/-- The list is the sequence of its elements as long as every erased element is erasable, and an
element of it is erased correctly only then. -/
theorem sequence_exact (h : Run t Erasable s l) : s.Shows l ∧
    (∀ a, ∃ s' pos, s.push_back t a = some (s', pos) ∧ s'.Shows (l ++ [(pos, a)])) ∧
    ∀ p ∈ l, s.Erases l p.1 ↔ s.Erasable p.1 := by
  obtain ⟨sids, hrep, rfl⟩ := h.represents
  refine ⟨hrep.shows, fun a => ?_, fun p hp => hrep.erases_iff hp⟩
  obtain ⟨s', sids', pos, hpush, hrep', hlive⟩ := hrep.push_back_eq t a
  exact ⟨s', pos, hpush, hlive ▸ hrep'.shows⟩

def emptyStorage : BlockStorage ℕ := ⟨fun _ => none, 0, fun _ _ => none⟩

/-- The first of three elements is erased, and another one is appended. -/
theorem sequence_exact_erased :
    ∃ s, Run .bytes8 Erasable s [(⟨some 0, 1⟩, 2), (⟨some 0, 2⟩, 3), (⟨some 0, 3⟩, 4)] ∧
    s.Shows [(⟨some 0, 1⟩, 2), (⟨some 0, 2⟩, 3), (⟨some 0, 3⟩, 4)] := by
  have hcreate : Run .bytes8 Erasable (create emptyStorage .bytes8 4) [] := .create emptyStorage 4
  have hthree := ((hcreate.push_back (a := 1) rfl).push_back (a := 2) rfl).push_back (a := 3) rfl
  have hsplit : Run .bytes8 Erasable _ ([] ++ (⟨some 0, 0⟩, 1) :: [(⟨some 0, 1⟩, 2),
      (⟨some 0, 2⟩, 3)]) := hthree
  have herased := hsplit.erase (fun sid b hsid hb => ?_) rfl
  · have h := herased.push_back (a := 4) rfl
    exact ⟨_, h, (sequence_exact h).1⟩
  · cases hsid
    cases hb
    exact ⟨fun k hk => absurd hk (Nat.not_lt_zero k), fun h => absurd h (by decide)⟩

/-- The last index of the block is put before the second of three elements, which hides the third
one. -/
theorem erase_hides : ¬ ∀ (s : BlockList ℕ) (l : List (ListIterator × ℕ)), Run .bytes8
    (fun _ _ => True) s l → s.Shows l := by
  intro hall
  have hcreate : Run .bytes8 (fun _ _ => True) (create emptyStorage .bytes8 4) [] :=
    .create emptyStorage 4
  have hthree := ((hcreate.push_back (a := 1) rfl).push_back (a := 2) rfl).push_back (a := 3) rfl
  have hsplit : Run .bytes8 (fun _ _ => True) _ ([(⟨some 0, 0⟩, 1)] ++ (⟨some 0, 1⟩, 2) ::
      [(⟨some 0, 2⟩, 3)]) := hthree
  have h := hsplit.erase trivial rfl
  obtain ⟨⟨front, hfront, hyields⟩, -⟩ := hall _ _ h
  cases hfront
  have hwalk := hyields.unique ⟨2, rfl⟩
  cases hwalk

end UtopiaEda.BlockList
