import UtopiaEda.EntryOrderLists
import UtopiaEda.RankedLists
import Mathlib.Data.List.Perm.Subperm

/-!
# The layers of a builder

`Layered o dep l outs` says that the order of `o` lists the entries `l` by increasing
depth, then the output cells `outs`, and that `depthBounds` holds the first and the last
entry of each layer of `l`. Taking an entry out and placing an entry at the end of its
layer keep this.
-/
namespace UtopiaEda.EntryOrder
open RankedLists List
open Option (bind_eq_bind bind_some)

variable {o o' : EntryOrder} {d : ℕ} {dep dep' : EntryID → ℕ} {l l₁ l₂ outs : List EntryID}
  {e : EntryID}

/-- The first and the last place of a list, as `depthBounds` stores them. -/
def ends (l : List EntryID) : Place × Place :=
  if l = [] then (.invalidID, .invalidID) else (after l, before l)

@[simp] theorem ends_nil : ends [] = (.invalidID, .invalidID) := rfl

@[simp] theorem ends_cons (a : EntryID) (l : List EntryID) :
    ends (a :: l) = (.entry a, before (a :: l)) := rfl

theorem ends_of_ne_nil (h : l ≠ []) : ends l = (after l, before l) := if_neg h

structure Layered (o : EntryOrder) (dep : EntryID → ℕ) (l outs : List EntryID) : Prop where
  lists : Lists o (l ++ outs)
  sorted : Sorted dep l
  bounds : ∀ d, o.depthBounds d = ends (layer dep l d)

theorem Layered.congr (h : Layered o dep l outs) (hdep : ∀ i ∈ l, dep i = dep' i) :
    Layered o dep' l outs :=
  ⟨h.lists, h.sorted.congr hdep, fun d => by rw [h.bounds, layer_congr hdep]⟩

theorem Layered.setDepth (h : Layered o dep l outs) (i : EntryID) (d : Option ℕ) :
    Layered (o.setDepth i d) dep l outs :=
  ⟨h.lists.congr rfl rfl rfl rfl rfl, h.sorted, h.bounds⟩

theorem after_append (h : l₁ ≠ []) : after (l₁ ++ l₂) = after l₁ := by
  cases l₁ <;> simp_all

theorem before_append {u v : List EntryID} (h : v ≠ []) : before (u ++ v) = before v := by
  cases v <;> simp_all

private theorem ends_remove (hd : (l₁ ++ e :: l₂).Nodup) :
    ((ends (l₁ ++ e :: l₂)).1 = .entry e ↔ l₁ = []) ∧
      ((ends (l₁ ++ e :: l₂)).2 = .entry e ↔ l₂ = []) := by
  rw [ends_of_ne_nil (by simp)]
  constructor
  · cases l₁ with
    | nil => simp
    | cons a l₁ =>
      have : a ≠ e := by rintro rfl; simp at hd
      simp [this]
  · rcases eq_nil_or_concat' l₂ with rfl | ⟨l₂, a, rfl⟩
    · simp
    · have : a ≠ e := by rintro rfl; simp [nodup_append] at hd
      simp [this]

theorem Lists.setBounds (h : Lists o l) (d : ℕ) (b : Place × Place) :
    Lists (o.setBounds d b) l := h.congr rfl rfl rfl rfl rfl

private theorem setOrder_around (h : Lists o (l₁ ++ e :: l₂)) :
    (do o.setOrder (← o.getPrev (.entry e)) (← o.getNext (.entry e))) =
      o.setOrder (before l₁) (after l₂) := by
  have hprev := Lists.getPrev h
  have hnext := Lists.getNext (u := l₁ ++ [e]) (v := l₂) (by simpa using h)
  simp only [after_cons, before_concat] at hprev hnext
  simp [hprev, hnext]

private theorem deleteBounds_eq (h : Layered o dep (l₁ ++ e :: l₂) outs) :
    o.deleteBounds e (dep e) = some (o.setBounds (dep e)
      (ends (layer dep l₁ (dep e) ++ layer dep l₂ (dep e)))) := by
  have hlay : layer dep (l₁ ++ e :: l₂) (dep e) =
      layer dep l₁ (dep e) ++ e :: layer dep l₂ (dep e) := by
    rw [layer_append, layer_cons_of_eq rfl]
  have hnd : (layer dep l₁ (dep e) ++ e :: layer dep l₂ (dep e)).Nodup :=
    hlay ▸ (h.lists.nodup.sublist (by simp)).filter _
  have hl : Lists o (l₁ ++ e :: (l₂ ++ outs)) := by simpa using h.lists
  have hnext : o.getNext (.entry e) = some (after (l₂ ++ outs)) := by
    simpa using Lists.getNext (u := l₁ ++ [e]) (v := l₂ ++ outs) (by simpa using hl)
  have hprev : o.getPrev (.entry e) = some (before l₁) := by simpa using Lists.getPrev hl
  have hbounds : o.depthBounds (dep e) =
      (after (layer dep l₁ (dep e) ++ e :: layer dep l₂ (dep e)),
        before (e :: layer dep l₂ (dep e))) := by
    rw [h.bounds, hlay, ends_of_ne_nil (by simp), before_append_cons]
  obtain ⟨hfst, hsnd⟩ := ends_remove hnd
  rw [← hlay, ← h.bounds] at hfst hsnd
  have hleft : layer dep l₁ (dep e) ≠ [] → before l₁ = before (layer dep l₁ (dep e)) := by
    intro h₁
    conv_lhs => rw [h.sorted.left_split, before_append h₁]
  have hright : layer dep l₂ (dep e) ≠ [] →
      after (l₂ ++ outs) = after (layer dep l₂ (dep e)) := by
    intro h₂
    conv_lhs => rw [h.sorted.right_split, append_assoc, after_append h₂]
  generalize layer dep l₁ (dep e) = y₁ at *
  generalize layer dep l₂ (dep e) = y₂ at *
  simp only [EntryOrder.deleteBounds, hnext, hprev, bind_eq_bind, bind_some]
  by_cases h₁ : y₁ = []
  · by_cases h₂ : y₂ = []
    · rw [if_pos (by rw [hfst.mpr h₁, hsnd.mpr h₂]), h₁, h₂]
      rfl
    · have hne : (o.depthBounds (dep e)).1 ≠ (o.depthBounds (dep e)).2 := by
        rw [hfst.mpr h₁]
        exact fun heq => h₂ (hsnd.mp heq.symm)
      have hb : before (e :: y₂) = before y₂ := before_append (u := [e]) h₂
      rw [if_neg hne, if_pos (hfst.mpr h₁), hright h₂, hbounds, h₁, nil_append,
        nil_append, ends_of_ne_nil h₂, hb]
  · have hne : (o.depthBounds (dep e)).1 ≠ .entry e := fun heq => h₁ (hfst.mp heq)
    have ha : after (y₁ ++ e :: y₂) = after y₁ := after_append h₁
    by_cases h₂ : y₂ = []
    · rw [if_neg (by rw [hsnd.mpr h₂]; exact hne), if_neg hne, if_pos (hsnd.mpr h₂), hleft h₁,
        hbounds, h₂, append_nil, ends_of_ne_nil h₁, ← h₂, ha]
    · have hne' : (o.depthBounds (dep e)).2 ≠ .entry e := fun heq => h₂ (hsnd.mp heq)
      have hb : before (e :: y₂) = before y₂ := before_append (u := [e]) h₂
      have hends : ends (y₁ ++ y₂) = o.depthBounds (dep e) := by
        rw [ends_of_ne_nil (by simp [h₁]), after_append h₁, before_append h₂, hbounds, ha, hb]
      -- the layer has an entry before `e` and one behind it
      have hdiff : (o.depthBounds (dep e)).1 ≠ (o.depthBounds (dep e)).2 := by
        rw [hbounds, ha, hb]
        obtain ⟨a, y₁, rfl⟩ := exists_cons_of_ne_nil h₁
        obtain ⟨y₂, c, rfl⟩ := (eq_nil_or_concat' y₂).resolve_left h₂
        intro heq
        simp only [after_cons, before_concat, Place.entry.injEq] at heq
        simp [heq, nodup_append] at hnd
      rw [if_neg hdiff, if_neg hne, if_neg hne', hends]
      simp [EntryOrder.setBounds]

theorem Layered.delete (h : Layered o dep (l₁ ++ e :: l₂) outs) (he : o.depth e = some (dep e)) :
    ∃ o', o.deleteDepthBounds e = some o' ∧ o'.size = o.size ∧ o'.depth = o.depth ∧
      Layered o' dep (l₁ ++ l₂) outs := by
  have hl : Lists o (l₁ ++ e :: (l₂ ++ outs)) := by simpa using h.lists
  obtain ⟨o', ho', hs', hl'⟩ := (hl.setBounds (dep e)
    (ends (layer dep l₁ (dep e) ++ layer dep l₂ (dep e)))).remove
  refine ⟨o', ?_, hs'.size, hs'.depth, ?_, ?_, fun d => ?_⟩
  · rw [← ho', ← setOrder_around (hl.setBounds _ _)]
    simp only [deleteDepthBounds, he, bind_eq_bind, bind_some, deleteBounds_eq h]
  · simpa using hl'
  · exact h.sorted.sublist (by simp)
  · rw [hs'.bounds]
    by_cases hd : d = dep e
    · subst hd
      simp [EntryOrder.setBounds]
    · simp only [EntryOrder.setBounds]
      rw [Function.update_of_ne hd, h.bounds, layer_append, layer_append,
        layer_cons_of_ne (Ne.symm hd)]

private theorem before_below (h : Sorted dep l) (hd : 0 < d → layer dep l (d - 1) ≠ []) :
    before (below dep l d) = if d = 0 then .lowerBoundID else before (layer dep l (d - 1)) := by
  split
  · rename_i h0
    rw [below_eq_nil (fun a _ => by omega), before_nil]
  · have hne := hd (by omega)
    have hb : Sorted dep (below dep l d) := h.sublist filter_sublist
    have hlay : layer dep (below dep l d) (d - 1) = layer dep l (d - 1) := by
      simp only [layer, below, filter_filter]
      congr 1
      funext a
      grind
    have ha : above dep (below dep l d) (d - 1) = [] :=
      above_eq_nil (fun a ha => by have := (mem_below.mp ha).2; omega)
    rw [hb.split (d - 1), hlay, ha, append_nil, before_append hne]

private theorem Layered.insert {p : EntryOrder} {y z : List EntryID} (h : Layered o dep l outs)
    (hy : layer dep l (dep e) = y ++ z)
    (hl : Lists p (below dep l (dep e) ++ y ++ e :: (z ++ above dep l (dep e) ++ outs)))
    (hb : p.depthBounds = Function.update o.depthBounds (dep e) (ends (y ++ e :: z))) :
    Layered p dep (below dep l (dep e) ++ y ++ e :: (z ++ above dep l (dep e))) outs := by
  have hs := h.sorted.split (dep e)
  rw [hy] at hs
  have hmem : ∀ a ∈ y ++ z, dep a = dep e := fun a ha => (mem_layer.mp (hy ▸ ha)).2
  refine ⟨by simpa using hl, ?_, fun d => ?_⟩
  · refine Sorted.insert ?_ (fun a ha => ?_) (fun a ha => ?_)
    · rw [append_assoc _ y, ← append_assoc y, ← append_assoc, ← hs]
      exact h.sorted
    · rcases mem_append.mp ha with ha | ha
      · exact Nat.le_of_lt (mem_below.mp ha).2
      · exact Nat.le_of_eq (hmem a (by simp [ha]))
    · rcases mem_append.mp ha with ha | ha
      · exact Nat.le_of_eq (hmem a (by simp [ha])).symm
      · exact Nat.le_of_lt (mem_above.mp ha).2
  · rw [hb]
    by_cases hd : d = dep e
    · subst hd
      have h₁ : layer dep (below dep l (dep e)) (dep e) = [] :=
        layer_eq_nil (fun a ha => Nat.ne_of_lt (mem_below.mp ha).2)
      have h₂ : layer dep (above dep l (dep e)) (dep e) = [] :=
        layer_eq_nil (fun a ha => Nat.ne_of_gt (mem_above.mp ha).2)
      rw [Function.update_self, layer_append, layer_append, layer_cons_of_eq rfl, layer_append, h₁,
        h₂, layer_eq_self (fun a ha => hmem a (by simp [ha])),
        layer_eq_self (fun a ha => hmem a (by simp [ha])), append_nil, nil_append]
    · rw [Function.update_of_ne hd, h.bounds]
      conv_lhs => rw [hs]
      simp [layer_cons_of_ne (Ne.symm hd)]

theorem Layered.add (h : Layered o dep l outs) (he : e ∉ l ++ outs) (hes : e < o.size)
    (hde : o.depth e = some (dep e)) {type : EntryID → CellTypeID} (ht : type e ≠ .OUT)
    (hin : type e ≠ .IN) (hprev : 0 < dep e → layer dep l (dep e - 1) ≠ []) :
    ∃ o', o.addDepthBounds type e = some o' ∧ o'.size = o.size ∧ o'.depth = o.depth ∧
      Layered o' dep (below dep l (dep e) ++ layer dep l (dep e) ++ e :: above dep l (dep e))
        outs := by
  have hs := h.sorted.split (dep e)
  by_cases hy : layer dep l (dep e) = []
  · have hs' : l = below dep l (dep e) ++ above dep l (dep e) := by simpa [hy] using hs
    have hl : Lists (o.setBounds (dep e) (.entry e, .entry e))
        (below dep l (dep e) ++ (above dep l (dep e) ++ outs)) := by
      rw [← append_assoc, ← hs']
      exact h.lists.setBounds _ _
    obtain ⟨o', ho', hs', hl'⟩ := hl.placeAfter (e := e) (by
      rw [← append_assoc, ← hs']
      exact he) hes
    have hbounds := h.bounds (dep e)
    rw [hy, ends_nil] at hbounds
    refine ⟨o', ?_, hs'.size, hs'.depth, ?_⟩
    · have hpivot := before_below h.sorted hprev
      simp only [addDepthBounds, hde, ht, hbounds, bind_eq_bind, bind_some, if_false,
        if_true]
      rw [← ho', hpivot]
      split
      · rfl
      · rename_i h0
        rw [h.bounds, ends_of_ne_nil (hprev (by omega))]
    · have := h.insert (p := o') (e := e) (y := []) (z := []) (by simp [hy]) (by simpa using hl')
        (by simp [hs'.bounds, EntryOrder.setBounds])
      simpa [hy] using this
  · have hl : Lists o (below dep l (dep e) ++ layer dep l (dep e) ++
        (above dep l (dep e) ++ outs)) := by
      rw [← append_assoc, ← hs]
      exact h.lists
    obtain ⟨o', ho', hs', hl'⟩ := hl.placeAfter (e := e) (by
      rw [← append_assoc, ← hs]
      exact he) hes
    have hbounds := h.bounds (dep e)
    rw [ends_of_ne_nil hy] at hbounds
    rw [before_append hy] at ho'
    have hinv : after (layer dep l (dep e)) ≠ .invalidID := by
      obtain ⟨a, y, hay⟩ := exists_cons_of_ne_nil hy
      simp [hay]
    refine ⟨o'.setBounds (dep e) (after (layer dep l (dep e)), .entry e), ?_, hs'.size,
      hs'.depth, ?_⟩
    · simp [addDepthBounds, placeInDepth, hde, ht, hbounds, hin, hinv, ho', hs'.bounds]
    · have := h.insert (p := o'.setBounds (dep e) (after (layer dep l (dep e)), .entry e))
        (e := e) (y := layer dep l (dep e)) (z := []) (by simp)
        (by simpa using hl'.setBounds _ _) (by
          rw [ends_of_ne_nil (by simp), after_append hy, before_append_cons]
          simp [EntryOrder.setBounds, hs'.bounds])
      simpa using this

theorem Lists.length_le (h : Lists o l) : l.length ≤ o.size := by
  have hs : l ⊆ range o.size := fun i hi => mem_range.mpr (h.lt i hi)
  simpa using (h.nodup.subperm hs).length_le

private theorem skipConstants_eq {type : EntryID → CellTypeID} {a : EntryID}
    (ha : ¬ (type a = .ZERO ∨ type a = .ONE)) {y : List EntryID}
    (hy : ∀ i ∈ y, type i = .ZERO ∨ type i = .ONE) :
    ∀ {n : ℕ} {m : List EntryID}, Lists o (l₁ ++ a :: (y ++ m)) → y.length < n →
      o.skipConstants type n (before (a :: y)) = some (.entry a) := by
  induction y using reverseRecOn with
  | nil =>
    intro n m _ hn
    obtain ⟨n, rfl⟩ := Nat.exists_eq_add_of_lt hn
    simp [skipConstants, ha]
  | append_singleton y c ih =>
    intro n m hl hn
    obtain ⟨n, rfl⟩ := Nat.exists_eq_add_of_lt hn
    have hprev : o.getPrev (.entry c) = some (before (a :: y)) := by
      have := Lists.getPrev (o := o) (u := l₁ ++ a :: y) (v := c :: m) (by simpa using hl)
      simpa using this
    have ih := ih (fun i hi => hy i (by simp [hi])) (n := y.length + 1 + n) (m := c :: m)
      (by simpa using hl) (by omega)
    have hc := hy c (by simp)
    rw [length_append, length_singleton, before_cons_concat]
    simp [skipConstants, hc, hprev, ih]

theorem Layered.add_in {y₁ y₂ : List EntryID} (h : Layered o dep l outs) (he : e ∉ l ++ outs)
    (hes : e < o.size) (hde : o.depth e = some 0) (hdep : dep e = 0) {type : EntryID → CellTypeID}
    (ht : type e = .IN) (hy : layer dep l 0 = y₁ ++ y₂) (hy₁ : y₁ = [] → y₂ = [])
    (hlast : ∀ a ∈ y₁.getLast?, ¬ (type a = .ZERO ∨ type a = .ONE))
    (hy₂ : ∀ i ∈ y₂, type i = .ZERO ∨ type i = .ONE) :
    ∃ o', o.addDepthBounds type e = some o' ∧ o'.size = o.size ∧ o'.depth = o.depth ∧
      Layered o' dep (y₁ ++ e :: (y₂ ++ above dep l 0)) outs := by
  have hs := h.sorted.split 0
  have hbelow : below dep l 0 = [] := below_eq_nil (fun a _ => Nat.zero_le _)
  rw [hbelow, nil_append] at hs
  have hbounds := h.bounds 0
  rcases eq_nil_or_concat' y₁ with rfl | ⟨y₁, a, rfl⟩
  · obtain rfl := hy₁ rfl
    rw [hy, nil_append, ends_nil] at hbounds
    rw [hy, nil_append, nil_append] at hs
    obtain ⟨o', ho', hs', hl'⟩ :=
      Lists.placeAfter (o := o.setBounds 0 (.entry e, .entry e)) (e := e)
      (u := []) (v := l ++ outs) (h.lists.setBounds _ _) he hes
    refine ⟨o', ?_, hs'.size, hs'.depth, ?_⟩
    · rw [before_nil] at ho'
      simp [addDepthBounds, hde, ht, hbounds, ho']
    · have := h.insert (p := o') (e := e) (y := []) (z := []) (by simp [hdep, hy])
        (by rw [hdep, hbelow, nil_append, nil_append, ← hs]; exact hl')
        (by simp [hs'.bounds, EntryOrder.setBounds, hdep])
      simpa [hdep, hbelow] using this
  · have ha : ¬ (type a = .ZERO ∨ type a = .ONE) := hlast a (by simp)
    have hall : l ++ outs = (y₁ ++ [a]) ++ (y₂ ++ (above dep l 0 ++ outs)) := by
      conv_lhs => rw [hs, hy]
      simp
    have hl : Lists o (y₁ ++ a :: (y₂ ++ (above dep l 0 ++ outs))) := by
      have := h.lists
      rw [hall] at this
      simpa using this
    obtain ⟨o', ho', hs', hl'⟩ := Lists.placeAfter (hall ▸ h.lists) (hall ▸ he) hes
    have hlen : y₂.length < o.size + 1 := by
      have := hl.length_le
      simp only [length_append, length_cons] at this
      omega
    have hskip := skipConstants_eq ha hy₂ hl hlen
    rw [hy, append_assoc, singleton_append, ends_of_ne_nil (by simp), before_append_cons] at hbounds
    rw [before_concat] at ho'
    have hinv : after (y₁ ++ a :: y₂) ≠ .invalidID := by cases y₁ <;> simp
    have hnd : ((y₁ ++ [a]) ++ y₂).Nodup := by
      have := hl.nodup
      rw [append_cons, ← append_assoc] at this
      exact this.sublist (by simp)
    refine ⟨if before (a :: y₂) = .entry a then
      o'.setBounds 0 (after (y₁ ++ a :: y₂), .entry e) else o', ?_, ?_, ?_, ?_⟩
    · simp only [addDepthBounds, hde, ht, hbounds, hinv, bind_eq_bind, bind_some,
        reduceCtorEq, if_false, and_self, if_true, hskip, placeInDepth, ho', hs'.bounds]
    · split <;> exact hs'.size
    · split <;> exact hs'.depth
    · have := h.insert (p := if before (a :: y₂) = .entry a then
        o'.setBounds 0 (after (y₁ ++ a :: y₂), .entry e) else o') (e := e)
          (y := y₁ ++ [a]) (z := y₂)
        (by simpa [hdep] using hy) (by
          rw [hdep, hbelow, nil_append]
          split
          · simpa using hl'.setBounds _ _
          · simpa using hl') (by
          have haft : after (y₁ ++ [a] ++ e :: y₂) = after (y₁ ++ a :: y₂) := by
            cases y₁ <;> simp
          rw [hdep, ends_of_ne_nil (by simp), haft, before_append_cons]
          rcases eq_nil_or_concat' y₂ with rfl | ⟨y₂, c, rfl⟩
          · rw [before_singleton, if_pos rfl, EntryOrder.setBounds, hs'.bounds, before_singleton]
          · have hca : c ≠ a := by
              rintro rfl
              simp [nodup_append] at hnd
            rw [before_cons_concat, if_neg (by simpa using hca), hs'.bounds]
            refine (Function.update_eq_self_iff.mpr ?_).symm
            rw [hbounds, before_cons_concat, before_cons_concat])
      simpa [hdep, hbelow] using this

theorem Layered.add_out (h : Layered o dep l outs) (he : e ∉ l ++ outs) (hes : e < o.size)
    (hde : (o.depth e).isSome) {type : EntryID → CellTypeID} (ht : type e = .OUT)
    (hne : l ++ outs ≠ []) :
    ∃ o', o.addDepthBounds type e = some o' ∧ o'.size = o.size ∧ o'.depth = o.depth ∧
      Layered o' dep l (outs ++ [e]) := by
  obtain ⟨d, hd⟩ := Option.isSome_iff_exists.mp hde
  obtain ⟨o', ho', hs', hl'⟩ := Lists.placeAfter (u := l ++ outs) (v := []) (by simpa using h.lists)
    (by simpa using he) hes
  refine ⟨o', ?_, hs'.size, hs'.depth, by simpa using hl', h.sorted, fun d => ?_⟩
  · simp only [addDepthBounds, hd, ht, bind_eq_bind, bind_some, if_true]
    rw [h.lists.getSubnetEnd, if_neg hne, ho']
  · rw [hs'.bounds, h.bounds]

theorem Layered.chain {p : EntryOrder} {b : List EntryID} (h : Layered o dep (l₁ ++ e :: l₂) outs)
    (hl : Lists p (l₁ ++ e :: b ++ l₂ ++ outs)) (h₂ : ∀ i ∈ l₂, dep e < dep i)
    (hb : ∀ i ∈ b, dep i = dep e)
    (hbounds : p.depthBounds = Function.update o.depthBounds (dep e)
      ((o.depthBounds (dep e)).1, before (e :: b))) :
    Layered p dep (l₁ ++ e :: b ++ l₂) outs := by
  have hsorted := h.sorted
  obtain ⟨hle, -⟩ := hsorted.le_of_split
  refine ⟨hl, ?_, fun d => ?_⟩
  · have hs₁ : Sorted dep l₁ := hsorted.sublist (by simp)
    have hs₂ : Sorted dep l₂ := hsorted.sublist (by simp)
    have heb : ∀ i ∈ e :: b, dep i = dep e := by
      intro i hi
      rcases mem_cons.mp hi with rfl | hi
      exacts [rfl, hb i hi]
    have hsb : Sorted dep (e :: b) := by
      apply pairwise_of_forall_mem_list
      intro i hi j hj
      rw [heb i hi, heb j hj]
    rw [append_assoc]
    refine hs₁.append (hsb.append hs₂ fun i hi j hj => ?_) (fun i hi j hj => ?_)
    · rw [heb i hi]
      exact Nat.le_of_lt (h₂ j hj)
    · rcases mem_append.mp hj with hj | hj
      · rw [heb j hj]
        exact hle i hi
      · exact Nat.le_trans (hle i hi) (Nat.le_of_lt (h₂ j hj))
  · rw [hbounds]
    by_cases hd : d = dep e
    · subst hd
      have habove : layer dep l₂ (dep e) = [] :=
        layer_eq_nil (fun i hi => Nat.ne_of_gt (h₂ i hi))
      rw [Function.update_self, h.bounds]
      simp only [layer_append, layer_cons_of_eq, habove, append_nil, layer_eq_self hb]
      rw [ends_of_ne_nil (by simp), ends_of_ne_nil (by simp),
        before_append_cons (layer dep l₁ (dep e)) b e]
      cases layer dep l₁ (dep e) <;> rfl
    · rw [Function.update_of_ne hd, h.bounds]
      have hb' : layer dep b d = [] := layer_eq_nil (fun i hi => by rw [hb i hi]; exact Ne.symm hd)
      simp [layer_cons_of_ne (Ne.symm hd), hb']

end UtopiaEda.EntryOrder
