import UtopiaEda.EntryOrderLayers
import UtopiaEda.SegmentedLists

/-!
# The segments of a builder

What `depthBounds` says in every reachable state: the bounds of a depth are the ends of a segment of
the order, the segments are disjoint, and the one of depth 0 comes first. A cell of the depth may
stand outside of the segment. Cells that are followed by entries with their links are blocks.
-/
namespace UtopiaEda.EntryOrder

open List
open Function (update update_self update_of_ne)
open SegmentedLists
open Option (bind_eq_bind bind_some some.inj)

variable {o o' : EntryOrder} {l u v s w m : List EntryID} {e i : EntryID} {d : ℕ}
  {type : EntryID → CellTypeID} {blocks blocks' : List EntryID → Prop} {seg seg' : ℕ → List EntryID}

structure Segments (o : EntryOrder) (blocks : List EntryID → Prop) (l : List EntryID)
    (seg : ℕ → List EntryID) : Prop where
  lists : Lists o l
  segmented : Segmented blocks l seg
  bounds : ∀ d, o.depthBounds d = ends (seg d)
  first : seg 0 <+: l

theorem Segments.setDepth (h : Segments o blocks l seg) (i : EntryID) (x : Option ℕ) :
    Segments (o.setDepth i x) blocks l seg :=
  ⟨h.lists.congr rfl rfl rfl rfl rfl, h.segmented, h.bounds, h.first⟩

theorem Segments.part (h : Segments o blocks l seg) (hd : seg d ≠ []) :
    ∃ u v, l = u ++ seg d ++ v ∧ Splits blocks (u ++ seg d) v ∧ (d = 0 → u = []) := by
  obtain ⟨u, v, hl, hsplit⟩ := h.segmented.part d hd
  refine ⟨u, v, hl, hsplit, fun h0 => ?_⟩
  subst h0
  obtain ⟨w, hw⟩ := h.first
  have hnd := h.lists.nodup
  rw [← hw] at hnd
  rcases around (hw.trans hl) hnd (.inl (List.Subset.refl _)) with ⟨t, ht, -⟩ | ⟨t, ht, -⟩
  · have hlen := congrArg length ht
    simp only [length_append] at hlen
    exact length_eq_zero_iff.mp (by omega)
  · obtain ⟨a, s, hs⟩ := exists_cons_of_ne_nil hd
    rw [ht] at hnd
    exact absurd rfl ((nodup_append.mp hnd).2.2 a (by simp [hs]) a (by simp [hs]))

/-- The segment of depth 0 stays the first one if an entry is put in behind an entry. -/
theorem Segments.first_insert (h : Segments o blocks (u ++ v) seg) (hu : u ≠ [])
    (hside : seg 0 ⊆ u ∨ seg 0 ⊆ v) : seg 0 <+: u ++ w ++ v := by
  obtain ⟨y, hy⟩ := h.first
  rcases around (hy.symm.trans (by rw [nil_append])) h.lists.nodup hside with
    ⟨t, ht, -⟩ | ⟨t, -, ht⟩
  · exact ⟨t ++ w ++ v, by rw [ht]; simp⟩
  · exact absurd (append_eq_nil_iff.mp ht.symm).1 hu

private theorem deleteBounds_segment (h : Segments o blocks (u ++ e :: v) seg) (d : ℕ) :
    ∃ m, (m = (seg d).filter (· ≠ e) ∨ m = []) ∧ o.deleteBounds e d =
    some (o.setBounds d (ends m)) := by
  have hnext : o.getNext (.entry e) = some (after v) := by
    have hnext := Lists.getNext (o := o) (u := u ++ [e]) (v := v) (by simpa using h.lists)
    rwa [before_concat] at hnext
  have hprev : o.getPrev (.entry e) = some (before u) := Lists.getPrev h.lists
  have hbounds := h.bounds d
  have hnd : (seg d).Nodup := h.lists.nodup.sublist (h.segmented.segment_infix d).sublist
  match hs : seg d with
  | [] =>
    refine ⟨[], .inr rfl, ?_⟩
    rw [hs, ends_nil] at hbounds
    rw [deleteBounds, hbounds, if_pos rfl, ends_nil]
  | [x] =>
    refine ⟨[], .inr rfl, ?_⟩
    rw [hs] at hbounds
    rw [deleteBounds, hbounds, ends_cons, before_singleton, if_pos rfl, ends_nil]
  | x :: y :: t =>
    obtain ⟨r, z, hrz⟩ := (eq_nil_or_concat' (y :: t)).resolve_left (cons_ne_nil y t)
    rw [hs, hrz] at hbounds hnd
    rw [hrz]
    rw [ends_cons, before_cons_concat] at hbounds
    have hxz : x ≠ z := by
      rintro rfl
      simp at hnd
    obtain ⟨a, b, hl, -, -⟩ := h.part (d := d) (by rw [hs]; exact cons_ne_nil _ _)
    rw [hs, hrz] at hl
    refine ⟨(x :: (r ++ [z])).filter (· ≠ e), .inl rfl, ?_⟩
    by_cases hxe : x = e
    · -- the first entry of the segment
      subst hxe
      have hfilter : (x :: (r ++ [z])).filter (· ≠ x) = r ++ [z] := by
        rw [filter_cons_of_neg (by simp)]
        apply filter_eq_self.mpr
        intro i hi
        exact decide_eq_true (fun hix => (nodup_cons.mp hnd).1 (hix ▸ hi))
      have hv : v = r ++ [z] ++ b := by
        have hnotin : x ∉ u ++ v :=
          (nodup_cons.mp (perm_middle.nodup_iff.mp h.lists.nodup)).1
        have hl' : u ++ x :: v = a ++ x :: (r ++ [z] ++ b) := by rw [hl]; simp
        exact (append_cons_inj_of_notMem (fun hx => hnotin (mem_append_left v hx))
          (fun hx => hnotin (mem_append_right u hx)) |>.mp hl').2.2
      have hafter : after v = after (r ++ [z]) := by rw [hv, after_append (by simp)]
      have hends : ends (r ++ [z]) = (after (r ++ [z]), .entry z) := by
        rw [ends_of_ne_nil (by simp), before_concat]
      have hne : Place.entry x ≠ .entry z := fun heq => hxz (Place.entry.inj heq)
      rw [deleteBounds, hbounds, if_neg hne, if_pos rfl, hnext, hfilter, hends, hafter]
      rfl
    · by_cases hze : z = e
      · -- the last entry of the segment
        subst hze
        have hfilter : (x :: (r ++ [z])).filter (· ≠ z) = x :: r := by
          rw [← cons_append] at hnd ⊢
          have hkeep : (x :: r).filter (· ≠ z) = x :: r := by
            apply filter_eq_self.mpr
            intro i hi
            exact decide_eq_true (fun hiz => (nodup_append.mp hnd).2.2 i hi z (by simp) hiz)
          have hnil : [z].filter (· ≠ z) = [] := by simp
          rw [filter_append, hkeep, hnil, append_nil]
        have hu : u = a ++ x :: r := by
          have hnotin : z ∉ u ++ v :=
            (nodup_cons.mp (perm_middle.nodup_iff.mp h.lists.nodup)).1
          have hl' : u ++ z :: v = (a ++ x :: r) ++ z :: b := by rw [hl]; simp
          exact (append_cons_inj_of_notMem (fun hz => hnotin (mem_append_left v hz))
            (fun hz => hnotin (mem_append_right u hz)) |>.mp hl').1
        have hbefore : before u = before (x :: r) := by rw [hu, before_append_cons]
        have hne : Place.entry x ≠ .entry z := fun heq => hxz (Place.entry.inj heq)
        rw [deleteBounds, hbounds, if_neg hne, if_neg hne, if_pos rfl, hprev, hfilter,
          ends_cons, hbefore]
        rfl
      · -- the bounds do not change
        have hfilter : (x :: (r ++ [z])).filter (· ≠ e) = x :: (r.filter (· ≠ e) ++ [z]) := by
          rw [filter_cons_of_pos (by simpa using hxe), filter_append,
            filter_cons_of_pos (by simpa using hze), filter_nil]
        have hne : Place.entry x ≠ .entry z := fun heq => hxz (Place.entry.inj heq)
        have hnx : Place.entry x ≠ .entry e := fun heq => hxe (Place.entry.inj heq)
        have hnz : Place.entry z ≠ .entry e := fun heq => hze (Place.entry.inj heq)
        rw [deleteBounds, hbounds, if_neg hne, if_neg hnx, if_neg hnz, hfilter, ends_cons,
          before_cons_concat, setBounds, ← hbounds, Function.update_eq_self]

theorem Segments.delete (h : Segments o blocks (u ++ e :: v) seg) (he : ∀ b, blocks b → e ∉ b)
    (hd : o.depth e = some d) (hseg : ∀ d', e ∈ seg d' → d' = d) :
    ∃ o' seg', o.deleteDepthBounds e = some o' ∧ o'.size = o.size ∧ o'.depth = o.depth ∧
      Segments o' blocks (u ++ v) seg' ∧ ∀ d', seg' d' ⊆ seg d' := by
  obtain ⟨m, hm, hbounds⟩ := deleteBounds_segment h d
  let seg' := update seg d m
  have hseg' : ∀ d', seg' d' = (seg d').filter (· ≠ e) ∨ seg' d' = [] := by
    intro d'
    by_cases hdd : d' = d
    · subst hdd
      rwa [show seg' d' = m from update_self ..]
    · left
      rw [show seg' d' = seg d' from update_of_ne hdd ..]
      symm
      apply filter_eq_self.mpr
      intro i hi
      exact decide_eq_true (fun hie => hdd (hseg d' (hie ▸ hi)))
  obtain ⟨o', ho', hsame, hl'⟩ := (h.lists.setBounds d (ends m)).remove
  have hprev := Lists.getPrev (h.lists.setBounds d (ends m))
  have hnext := Lists.getNext (o := o.setBounds d (ends m)) (u := u ++ [e]) (v := v)
    (by simpa using h.lists.setBounds d (ends m))
  rw [before_concat] at hnext
  refine ⟨o', seg', ?_, hsame.size, hsame.depth, ⟨hl', ?_, ?_, ?_⟩, ?_⟩
  · rw [after_cons] at hprev
    simp only [deleteDepthBounds, hd, hbounds, hprev, hnext, bind_eq_bind, bind_some,
      ho']
  · exact h.segmented.delete h.lists.nodup he hseg'
  · intro d'
    rw [hsame.bounds]
    by_cases hdd : d' = d
    · subst hdd
      rw [show seg' d' = m from update_self ..]
      exact update_self ..
    · rw [show seg' d' = seg d' from update_of_ne hdd .., ← h.bounds]
      exact update_of_ne hdd ..
  · have hnd := h.lists.nodup
    have hne : e ∉ u ++ v := (nodup_cons.mp (perm_middle.nodup_iff.mp hnd)).1
    have hfilter : (u ++ e :: v).filter (· ≠ e) = u ++ v := by
      rw [filter_append, filter_cons_of_neg (by simp), ← filter_append]
      exact filter_eq_self.mpr (fun a ha => decide_eq_true (fun hae => hne (hae ▸ ha)))
    rcases hseg' 0 with h0 | h0
    · rw [h0, ← hfilter]
      exact h.first.filter _
    · rw [h0]
      exact nil_prefix
  · intro d' a ha
    rcases hseg' d' with h0 | h0
    · rw [h0] at ha
      exact mem_of_mem_filter ha
    · rw [h0] at ha
      cases ha

theorem Segments.insert (h : Segments o blocks (u ++ v) seg) (hsplit : Splits blocks u v)
    (hside : ∀ d', d' ≠ d → seg d' ⊆ u ∨ seg d' ⊆ v)
    (hm : m ≠ [] → ∃ x y, u ++ w ++ v = x ++ m ++ y ∧ Splits blocks (x ++ m) y)
    (hmem : ∀ a ∈ m, a ∈ w ∨ a ∈ seg d) (hfirst : d = 0 ∧ m <+: u ++ w ++ v ∨ d ≠ 0 ∧ u ≠ [])
    (hl : Lists o' (u ++ w ++ v)) (hb : o'.depthBounds = update o.depthBounds d (ends m)) :
    Segments o' blocks (u ++ w ++ v) (update seg d m) := by
  constructor
  · exact hl
  · apply h.segmented.insert h.lists.nodup _ hsplit hside hm hmem
    intro a ha hmem
    have hnd := hl.nodup
    rw [append_assoc] at hnd
    rcases mem_append.mp hmem with hau | hav
    · exact (nodup_append.mp hnd).2.2 a hau a (mem_append_left v ha) rfl
    · exact (nodup_append.mp (nodup_append.mp hnd).2.1).2.2 a ha a hav rfl
  · intro d'
    rw [hb]
    by_cases hdd : d' = d
    · subst hdd
      rw [update_self, update_self]
    · rw [update_of_ne hdd, update_of_ne hdd, h.bounds]
  · rcases hfirst with ⟨rfl, hpre⟩ | ⟨hd, hu⟩
    · rw [update_self]
      exact hpre
    · rw [update_of_ne (Ne.symm hd)]
      exact h.first_insert hu (hside 0 (Ne.symm hd))

private theorem of_skipConstants {q : Place} : ∀ {s w : List EntryID} {n : ℕ}, Lists o (s ++ w) →
    o.skipConstants type n (before s) = some q →
    ∃ a p b, s = a ++ p :: b ∧ q = .entry p ∧ ∀ i ∈ b, type i = .ZERO ∨ type i = .ONE := by
  intro s
  induction s using reverseRecOn with
  | nil =>
    intro w n _ h
    cases n with
    | zero => cases h
    | succ n => cases h
  | append_singleton s c ih =>
    intro w n hl h
    rw [before_concat] at h
    cases n with
    | zero => cases h
    | succ n =>
      rw [skipConstants] at h
      split at h
      · rename_i hconst
        have hl' : Lists o (s ++ c :: w) := by simpa using hl
        have hprev : o.getPrev (.entry c) = some (before s) := Lists.getPrev hl'
        rw [hprev, bind_eq_bind, bind_some] at h
        obtain ⟨a, p, b, rfl, hq, hb⟩ := ih hl' h
        refine ⟨a, p, b ++ [c], by simp, hq, fun i hi => ?_⟩
        rcases mem_append.mp hi with hi | hi
        · exact hb i hi
        · rw [mem_singleton.mp hi]
          exact hconst
      · exact ⟨s, c, [], rfl, (some.inj h).symm, fun i hi => absurd hi not_mem_nil⟩

structure Placed (o o' : EntryOrder) (blocks : List EntryID → Prop) (l : List EntryID)
    (seg : ℕ → List EntryID) (e : EntryID) (d : ℕ) (u v m : List EntryID) : Prop where
  split : l = u ++ v
  size : o'.size = o.size
  depth : o'.depth = o.depth
  segments : Segments o' blocks (u ++ e :: v) (update seg d m)

private theorem Segments.behind (h : Segments o blocks (u ++ seg d ++ v) seg) (hne : seg d ≠ [])
    {d' : ℕ} (hd : d' ≠ d) : seg d' ⊆ u ++ seg d ∨ seg d' ⊆ v := by
  obtain ⟨s, z, hs⟩ := (eq_nil_or_concat' (seg d)).resolve_left hne
  have hl : u ++ seg d ++ v = (u ++ s) ++ z :: v := by rw [hs]; simp
  have hseg := h.segmented
  rw [hl] at hseg
  refine (hseg.segment_side (by rw [hs]; simp) hd).imp (fun hsub => List.Subset.trans hsub ?_) id
  rw [hs, ← append_assoc]
  exact subset_append_left _ _

private theorem Segments.add_out (h : Segments o blocks l seg) (he : e ∉ l) (hes : e < o.size)
    (hadd : o.placeAfter (.entry e) o.getSubnetEnd = some o') :
    Placed o o' blocks l seg e d l [] (seg d) := by
  have hne : l ≠ [] := by
    rintro rfl
    rw [h.lists.getSubnetEnd, if_pos rfl] at hadd
    cases hadd
  have hl : Lists o (l ++ []) := by rw [append_nil]; exact h.lists
  obtain ⟨o₁, ho₁, hsame, hl₁⟩ := hl.placeAfter (by rw [append_nil]; exact he) hes
  rw [h.lists.getSubnetEnd, if_neg hne, ho₁] at hadd
  obtain rfl := some.inj hadd
  refine ⟨(append_nil l).symm, hsame.size, hsame.depth, ?_⟩
  have hseg : Segments o blocks (l ++ []) seg := by rw [append_nil]; exact h
  have hall : ∀ d', seg d' ⊆ l := fun d' => (h.segmented.segment_infix d').subset
  have hnew : l ++ [e] ++ [] = l ++ [e] := append_nil _
  rw [← hnew]
  apply hseg.insert
  · exact fun b hb => .inl (h.segmented.whole b hb).subset
  · exact fun d' _ => .inl (hall d')
  · intro hd
    obtain ⟨x, y, hxy, hsplit, -⟩ := h.part hd
    refine ⟨x, y ++ [e], by rw [hxy]; simp, hsplit.mono (List.Subset.refl _) (subset_append_left _
      _)⟩
  · exact fun a ha => .inr ha
  · by_cases hd : d = 0
    · refine .inl ⟨hd, ?_⟩
      rw [hd, hnew]
      exact h.first.trans (prefix_append l [e])
    · exact .inr ⟨hd, hne⟩
  · rw [hnew]
    exact hl₁
  · rw [hsame.bounds, ← h.bounds, Function.update_eq_self]

private theorem Segments.add_first (h : Segments o blocks l seg) (he : e ∉ l) (hes : e < o.size)
    (hd : seg d = []) (hadd : (o.setBounds d (.entry e, .entry e)).placeAfter (.entry e)
      (if d = 0 then .lowerBoundID else (o.depthBounds (d - 1)).2) = some o') :
    ∃ u v, Placed o o' blocks l seg e d u v [e] := by
  by_cases h0 : d = 0
  · subst h0
    obtain ⟨o₁, ho₁, hsame, hl₁⟩ := Lists.placeAfter (u := []) (v := l)
      (h.lists.setBounds 0 (.entry e, .entry e)) he hes
    rw [before_nil] at ho₁
    rw [if_pos rfl, ho₁] at hadd
    obtain rfl := some.inj hadd
    refine ⟨[], l, rfl, hsame.size, hsame.depth, ?_⟩
    apply Segments.insert (u := []) (w := [e]) h
    · exact fun b hb => .inr (h.segmented.whole b hb).subset
    · exact fun d' _ => .inr (h.segmented.segment_infix d').subset
    · exact fun _ => ⟨[], l, rfl, fun b hb => .inr (h.segmented.whole b hb).subset⟩
    · exact fun a ha => .inl ha
    · exact .inl ⟨rfl, prefix_append [e] l⟩
    · exact hl₁
    · exact hsame.bounds
  · rw [if_neg h0] at hadd
    have hprev : seg (d - 1) ≠ [] := by
      intro hnil
      rw [h.bounds, hnil, ends_nil] at hadd
      cases hadd
    obtain ⟨x, y, hxy, hsplit, -⟩ := h.part hprev
    subst hxy
    obtain ⟨o₁, ho₁, hsame, hl₁⟩ :=
      Lists.placeAfter (h.lists.setBounds d (.entry e, .entry e)) he hes
    rw [before_append hprev] at ho₁
    rw [h.bounds, ends_of_ne_nil hprev, ho₁] at hadd
    obtain rfl := some.inj hadd
    have hnew : x ++ seg (d - 1) ++ e :: y = x ++ seg (d - 1) ++ [e] ++ y := by simp
    refine ⟨x ++ seg (d - 1), y, rfl, hsame.size, hsame.depth, ?_⟩
    rw [hnew]
    apply h.insert hsplit
    · intro d' hd'
      by_cases hdd : d' = d - 1
      · subst hdd
        exact .inl (subset_append_right _ _)
      · exact h.behind hprev hdd
    · exact fun _ => ⟨x ++ seg (d - 1), y, rfl, hsplit.mono (subset_append_left _ _)
        (List.Subset.refl _)⟩
    · exact fun a ha => .inl ha
    · exact .inr ⟨h0, fun hnil => hprev (append_eq_nil_iff.mp hnil).2⟩
    · rw [← hnew]
      exact hl₁
    · exact hsame.bounds

private theorem Segments.add_last (h : Segments o blocks l seg) (he : e ∉ l) (hes : e < o.size)
    (hd : seg d ≠ []) (hadd : o.placeInDepth e d (o.depthBounds d).2 = some o') :
    ∃ u v, Placed o o' blocks l seg e d u v (seg d ++ [e]) := by
  obtain ⟨x, y, hxy, hsplit, hx⟩ := h.part hd
  subst hxy
  obtain ⟨o₁, ho₁, hsame, hl₁⟩ := Lists.placeAfter h.lists he hes
  rw [before_append hd] at ho₁
  have hbounds : o.depthBounds d = (after (seg d), before (seg d)) := by
    rw [h.bounds, ends_of_ne_nil hd]
  rw [placeInDepth, hbounds, ho₁, bind_eq_bind, bind_some, hsame.bounds, hbounds,
    if_pos rfl] at hadd
  obtain rfl := some.inj hadd
  have hnew : x ++ seg d ++ e :: y = x ++ seg d ++ [e] ++ y := by simp
  refine ⟨x ++ seg d, y, rfl, hsame.size, hsame.depth, ?_⟩
  rw [hnew]
  apply h.insert hsplit
  · exact fun d' hd' => h.behind hd hd'
  · exact fun _ => ⟨x, y, by simp, hsplit.mono (by simp) (List.Subset.refl _)⟩
  · intro a ha
    exact (mem_append.mp ha).symm
  · by_cases h0 : d = 0
    · refine .inl ⟨h0, ?_⟩
      rw [hx h0]
      simp
    · exact .inr ⟨h0, fun hnil => hd (append_eq_nil_iff.mp hnil).2⟩
  · rw [← hnew]
    exact hl₁.setBounds _ _
  · rw [setBounds, hsame.bounds, ends_of_ne_nil (by simp), before_concat, after_append hd]

private theorem Segments.add_in (h : Segments o blocks l seg) (he : e ∉ l) (hes : e < o.size)
    (hconst : ∀ b, blocks b → ∀ i ∈ b, ¬ (type i = .ZERO ∨ type i = .ONE)) (hd : seg 0 ≠ []) {n : ℕ}
    {q : Place} (hskip : o.skipConstants type n (o.depthBounds 0).2 = some q)
    (hadd : o.placeInDepth e 0 q = some o') : ∃ u v m, Placed o o' blocks l seg e 0 u v m ∧ ∀ a ∈ m,
    a ∈ seg 0 ∨ a = e := by
  obtain ⟨x, y, hxy, hsplit, hx⟩ := h.part hd
  obtain rfl := hx rfl
  rw [nil_append] at hxy hsplit
  have hbounds : o.depthBounds 0 = (after (seg 0), before (seg 0)) := by
    rw [h.bounds, ends_of_ne_nil hd]
  rw [hbounds] at hskip
  obtain ⟨a, p, b, hs, rfl, hb⟩ := of_skipConstants (hxy ▸ h.lists) hskip
  have hl : l = a ++ [p] ++ (b ++ y) := by rw [hxy, hs]; simp
  have hlp : l = a ++ p :: (b ++ y) := by rw [hxy, hs]; simp
  subst hl
  obtain ⟨o₁, ho₁, hsame, hl₁⟩ := Lists.placeAfter h.lists he hes
  rw [before_concat] at ho₁
  rw [placeInDepth, ho₁, bind_eq_bind, bind_some, hsame.bounds, hbounds] at hadd
  have hnew : a ++ [p] ++ e :: (b ++ y) = a ++ [p] ++ [e] ++ (b ++ y) := by simp
  have hends : ends (a ++ p :: e :: b) = (after (seg 0), if b = [] then .entry e else
      before (seg 0)) := by
    have hafter : after (a ++ p :: e :: b) = after (seg 0) := by rw [hs]; cases a <;> rfl
    rw [ends_of_ne_nil (by simp), hafter, before_append_cons, before_cons_cons, hs,
      before_append_cons]
    by_cases hnil : b = []
    · rw [if_pos hnil, hnil, before_singleton]
    · obtain ⟨c, t, rfl⟩ := exists_cons_of_ne_nil hnil
      rw [if_neg hnil, before_cons_cons, before_cons_cons]
  have hbefore : before (seg 0) = .entry p ↔ b = [] := by
    rw [hs, before_append_cons]
    constructor
    · intro heq
      rcases eq_nil_or_concat' b with hnil | ⟨t, z, rfl⟩
      · exact hnil
      · rw [before_cons_concat] at heq
        have hnd := h.lists.nodup
        rw [hlp, Place.entry.inj heq] at hnd
        simp [nodup_append] at hnd
    · rintro rfl
      rfl
  have hsplit' : Splits blocks (a ++ [p]) (b ++ y) := by
    cases b with
    | nil => rwa [hs] at hsplit
    | cons c t =>
      -- the next entry is a constant
      have hseg := h.segmented
      have hlc : a ++ [p] ++ (c :: t ++ y) = a ++ [p] ++ c :: (t ++ y) := rfl
      rw [hlc] at hseg
      have hc := hb c (mem_cons_self ..)
      refine (hseg.splits_of_not_mem (fun t ht hct => hconst t ht c hct hc)).mono
        (List.Subset.refl _) ?_
      exact subset_cons_self c (t ++ y)
  refine ⟨a ++ [p], b ++ y, a ++ p :: e :: b, ⟨rfl, ?_, ?_, ?_⟩, fun i hi => ?_⟩
  · obtain rfl := some.inj hadd
    split <;> exact hsame.size
  · obtain rfl := some.inj hadd
    split <;> exact hsame.depth
  · rw [hnew]
    apply h.insert hsplit'
    · intro d' hd'
      have hseg := h.segmented
      rw [hlp] at hseg
      exact (hseg.segment_side (by rw [hs]; simp) hd').imp
        (fun hsub => List.Subset.trans hsub (subset_append_left a [p])) id
    · refine fun _ => ⟨[], y, by simp, hsplit.mono ?_ (List.Subset.refl _)⟩
      rw [hs]
      intro i hi
      simp only [nil_append, mem_append, mem_cons] at hi ⊢
      tauto
    · intro i hi
      rw [hs]
      simp only [mem_append, mem_cons, not_mem_nil, or_false] at hi ⊢
      tauto
    · exact .inl ⟨rfl, ⟨y, by simp⟩⟩
    · rw [← hnew]
      obtain rfl := some.inj hadd
      split
      · exact hl₁.setBounds _ _
      · exact hl₁
    · obtain rfl := some.inj hadd
      rw [hends]
      by_cases hnil : b = []
      · rw [if_pos (hbefore.mpr hnil), if_pos hnil, setBounds, hsame.bounds]
      · rw [if_neg (fun heq => hnil (hbefore.mp heq)), if_neg hnil, hsame.bounds, ← hbounds,
          Function.update_eq_self]
  · rw [hs]
    simp only [mem_append, mem_cons] at hi ⊢
    tauto

theorem Segments.add (h : Segments o blocks l seg) (he : e ∉ l) (hes : e < o.size)
    (hd : o.depth e = some d) (hconst : ∀ b, blocks b → ∀ i ∈ b, ¬ (type i = .ZERO ∨ type i = .ONE))
    (hadd : o.addDepthBounds type e = some o') :
    ∃ u v m, Placed o o' blocks l seg e d u v m ∧ (∀ a ∈ m, a ∈ seg d ∨ a = e ∧ type e ≠ .OUT) ∧
      (type e ≠ .IN → type e ≠ .OUT → m = seg d ++ [e]) := by
  rw [addDepthBounds, hd, bind_eq_bind, bind_some] at hadd
  split at hadd
  · rename_i hout
    exact ⟨l, [], seg d, h.add_out he hes hadd, fun a ha => .inl ha, fun _ hnot => absurd hout hnot⟩
  · rename_i hout
    split at hadd
    · rename_i hfirst
      have hnil : seg d = [] := by
        by_contra hne
        obtain ⟨a, s, hs⟩ := exists_cons_of_ne_nil hne
        rw [h.bounds, hs, ends_cons] at hfirst
        cases hfirst
      obtain ⟨u, v, hp⟩ := h.add_first he hes hnil hadd
      refine ⟨u, v, [e], hp, fun a ha => .inr ⟨mem_singleton.mp ha, hout⟩,
        fun _ _ => by rw [hnil]; rfl⟩
    · rename_i hfirst
      have hne : seg d ≠ [] := by
        intro hnil
        rw [h.bounds, hnil] at hfirst
        exact hfirst rfl
      split at hadd
      · rename_i hin
        obtain ⟨rfl, hin⟩ := hin
        obtain ⟨q, hq, hadd⟩ := Option.bind_eq_some_iff.mp hadd
        obtain ⟨u, v, m, hp, hm⟩ := h.add_in he hes hconst hne hq hadd
        exact ⟨u, v, m, hp, fun a ha => (hm a ha).imp id (fun hae => ⟨hae, hout⟩),
          fun hnot => absurd hin hnot⟩
      · obtain ⟨u, v, hp⟩ := h.add_last he hes hne hadd
        refine ⟨u, v, _, hp, fun a ha => ?_, fun _ _ => rfl⟩
        exact (mem_append.mp ha).imp id (fun hae => ⟨mem_singleton.mp hae, hout⟩)

theorem Segments.chain {t b : List EntryID} (h : Segments o blocks (u ++ e :: v) seg)
    (he : ∀ t, blocks t → e ∉ t) (hd : seg d = t ++ [e]) (hl : Lists o' (u ++ e :: b ++ v))
    (hbounds : o'.depthBounds = update o.depthBounds d ((o.depthBounds d).1, before (e :: b)))
    (hblocks : ∀ t, blocks' t → blocks t ∨ t = e :: b) :
    Segments o' blocks' (u ++ e :: b ++ v) (update seg d (t ++ e :: b)) := by
  have hne : seg d ≠ [] := by
    rw [hd]
    simp
  have heseg : e ∈ seg d := by
    rw [hd]
    simp
  obtain ⟨x, y, hxy, hsplit, hx⟩ := h.part hne
  have hnotin : e ∉ u ++ v := (nodup_cons.mp (perm_middle.nodup_iff.mp h.lists.nodup)).1
  obtain ⟨hu, -, hv⟩ : u = x ++ t ∧ e = e ∧ v = y := by
    apply (append_cons_inj_of_notMem (fun hu => hnotin (mem_append_left v hu))
      (fun hv => hnotin (mem_append_right u hv))).mp
    rw [hxy, hd]
    simp
  have hlist : u ++ e :: v = u ++ [e] ++ v := by simp
  have hnew : u ++ e :: b ++ v = u ++ [e] ++ b ++ v := by simp
  have hside : ∀ d', d' ≠ d → seg d' ⊆ u ++ [e] ∨ seg d' ⊆ v := fun d' hd' =>
    (h.segmented.segment_side heseg hd').imp
      (fun hsub => List.Subset.trans hsub (subset_append_left u [e])) id
  have hcut : Splits blocks (u ++ [e]) v :=
    (h.segmented.splits_of_not_mem he).mono (subset_append_left u [e]) (List.Subset.refl v)
  have h₁ : Segments o blocks (u ++ [e] ++ v) seg := hlist ▸ h
  have h₂ : Segments o' blocks (u ++ [e] ++ b ++ v) (update seg d (t ++ e :: b)) := by
    apply h₁.insert hcut hside
    · refine fun _ => ⟨x, v, by rw [hu]; simp, hcut.mono ?_ (List.Subset.refl v)⟩
      rw [hu]
      intro i hi
      simp only [mem_append, mem_cons, not_mem_nil, or_false] at hi ⊢
      tauto
    · intro i hi
      rw [hd]
      simp only [mem_append, mem_cons, not_mem_nil, or_false] at hi ⊢
      tauto
    · by_cases h0 : d = 0
      · refine .inl ⟨h0, v, ?_⟩
        rw [hu, hx h0]
        simp
      · exact .inr ⟨h0, by simp⟩
    · exact hnew ▸ hl
    · rw [hbounds, ends_of_ne_nil (by simp), before_append_cons, h.bounds, hd,
        ends_of_ne_nil (by simp)]
      cases t <;> rfl
  rw [hnew]
  refine ⟨h₂.lists, h₂.segmented.addBlock ⟨u, v, by simp⟩ (fun d' => ?_) hblocks,
    h₂.bounds, h₂.first⟩
  by_cases hdd : d' = d
  · subst hdd
    rw [update_self]
    exact .inl (subset_append_right _ _)
  · refine .inr (fun a ha ha' => h₂.segmented.disjoint d d' (Ne.symm hdd) ?_ ha')
    rw [update_self]
    exact mem_append_right t ha

end UtopiaEda.EntryOrder
