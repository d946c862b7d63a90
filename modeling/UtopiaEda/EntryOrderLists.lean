import UtopiaEda.EntryOrder

/-!
# The order of a builder as a list

`Lists o l` says that the pointers of `o` represent the list `l`. Taking an entry out of
the order and placing one after a pivot are removal and insertion on the list; depths and
depth bounds are left alone.
-/
namespace UtopiaEda.EntryOrder
open LinkedLists List
open Option (bind_eq_bind bind_some)

variable {o o' : EntryOrder} {l l₁ l₂ : List EntryID} {a e f t : EntryID}

/-- The successor pointer, with `normalOrderID` read as the next index. -/
def nextID (o : EntryOrder) (i : EntryID) : Option EntryID :=
  match o.next i with
  | .normalOrderID => some (i + 1)
  | .entry j => some j
  | _ => none

def prevID (o : EntryOrder) (i : EntryID) : Option EntryID :=
  match o.prev i with
  | .normalOrderID => some (i - 1)
  | .entry j => some j
  | _ => none

/-- The place before which nothing of `l` stands to the left. -/
def before (l : List EntryID) : Place :=
  match l.getLast? with
  | none => .lowerBoundID
  | some a => .entry a

def after : List EntryID → Place
  | [] => .upperBoundID
  | a :: _ => .entry a

@[simp] theorem before_nil : before [] = .lowerBoundID := rfl
@[simp] theorem before_concat (l : List EntryID) (a : EntryID) : before (l ++ [a]) = .entry a := by
  simp [before]
@[simp] theorem before_cons_concat (a b : EntryID) (l : List EntryID) :
    before (a :: (l ++ [b])) = .entry b := before_concat (a :: l) b
@[simp] theorem before_append_cons (l l' : List EntryID) (a : EntryID) :
    before (l ++ a :: l') = before (a :: l') := by
  rcases eq_nil_or_concat' l' with rfl | ⟨l', b, rfl⟩
  · exact before_concat l a
  · rw [before_cons_concat, ← cons_append, ← append_assoc, before_concat]
@[simp] theorem before_cons_cons (a b : EntryID) (l : List EntryID) :
    before (a :: b :: l) = before (b :: l) := by simp [before]
@[simp] theorem before_singleton (a : EntryID) : before [a] = .entry a := rfl
@[simp] theorem after_nil : after [] = .upperBoundID := rfl
@[simp] theorem after_cons (a : EntryID) (l : List EntryID) : after (a :: l) = .entry a := rfl

structure Lists (o : EntryOrder) (l : List EntryID) : Prop where
  first : o.subnetBegin = if l = [] then .invalidID else after l
  last : o.subnetEnd = if l = [] then .invalidID else before l
  linked : Linked o.nextID o.prevID l
  lt : ∀ i ∈ l, i < o.size
  nodup : l.Nodup

structure SameTable (o o' : EntryOrder) : Prop where
  size : o'.size = o.size
  depth : o'.depth = o.depth
  bounds : o'.depthBounds = o.depthBounds

theorem SameTable.trans {o'' : EntryOrder} (h : SameTable o o') (h' : SameTable o' o'') :
    SameTable o o'' :=
  ⟨h'.1.trans h.1, h'.2.trans h.2, h'.3.trans h.3⟩

theorem Lists.extend (h : Lists o l) (hb : o'.subnetBegin = o.subnetBegin)
    (he : o'.subnetEnd = o.subnetEnd) (hn : o'.next = o.next) (hp : o'.prev = o.prev)
    (hs : o.size ≤ o'.size) : Lists o' l := by
  have hn' : o'.nextID = o.nextID := by funext i; simp [nextID, hn]
  have hp' : o'.prevID = o.prevID := by funext i; simp [prevID, hp]
  exact ⟨hb ▸ h.first, he ▸ h.last, hn' ▸ hp' ▸ h.linked,
    fun i hi => Nat.lt_of_lt_of_le (h.lt i hi) hs, h.nodup⟩

theorem Lists.congr (h : Lists o l) (hb : o'.subnetBegin = o.subnetBegin)
    (he : o'.subnetEnd = o.subnetEnd) (hn : o'.next = o.next) (hp : o'.prev = o.prev)
    (hs : o'.size = o.size) : Lists o' l :=
  h.extend hb he hn hp (Nat.le_of_eq hs.symm)

theorem Lists.getSubnetBegin (h : Lists o l) :
    o.getSubnetBegin = if l = [] then .invalidID else after l := by
  have hf := h.first
  unfold EntryOrder.getSubnetBegin
  cases l with
  | nil => simp_all
  | cons a l => simp_all

theorem Lists.getSubnetEnd (h : Lists o l) :
    o.getSubnetEnd = if l = [] then .invalidID else before l := by
  have hf := h.last
  unfold EntryOrder.getSubnetEnd
  rcases eq_nil_or_concat' l with rfl | ⟨l, a, rfl⟩
  · simp_all
  · simp_all

private theorem next_eq {j : EntryID} (h : o.nextID a = some j) :
    (if o.next a = .normalOrderID then Place.entry (a + 1) else o.next a) = .entry j := by
  unfold nextID at h
  split at h <;> simp_all

private theorem prev_eq {j : EntryID} (h : o.prevID a = some j) :
    (if o.prev a = .normalOrderID then Place.entry (a - 1) else o.prev a) = .entry j := by
  unfold prevID at h
  split at h <;> simp_all

private theorem nextID_eq {j : EntryID}
    (h : (if o.next a = .normalOrderID then Place.entry (a + 1) else o.next a) = .entry j) :
    o.nextID a = some j := by
  unfold nextID
  split at h <;> simp_all

private theorem prevID_eq {j : EntryID}
    (h : (if o.prev a = .normalOrderID then Place.entry (a - 1) else o.prev a) = .entry j) :
    o.prevID a = some j := by
  unfold prevID
  split at h <;> simp_all

theorem Lists.getNext {u v : List EntryID} (h : Lists o (u ++ v)) :
    o.getNext (before u) = some (after v) := by
  have hb := h.getSubnetBegin
  have he := h.getSubnetEnd
  rcases eq_nil_or_concat' u with rfl | ⟨u, a, rfl⟩
  · cases v with
    | nil => simp_all [EntryOrder.getNext]
    | cons b v => simp_all [EntryOrder.getNext]
  · have ha : a < o.size := h.lt a (by simp)
    cases v with
    | nil =>
      simp [EntryOrder.getNext, he, Nat.not_le.mpr ha]
    | cons b v =>
      rw [show u ++ [a] ++ b :: v = u ++ a :: b :: v by simp] at h he
      have hd := h.nodup
      have hlink := (linked_split.mp h.linked).2.1.1
      have hne : Place.entry a ≠ o.getSubnetEnd := by
        rw [he]
        rcases eq_nil_or_concat' v with rfl | ⟨v, c, rfl⟩
        · have := before_concat (u ++ [a]) b
          simp_all [nodup_append]
        · have := before_concat (u ++ a :: b :: v) c
          simp_all [nodup_append]
      simp [EntryOrder.getNext, Nat.not_le.mpr ha, hne, next_eq hlink]

structure Visits (o : EntryOrder) (l : List EntryID) : Prop where
  begins : l ≠ [] → o.getSubnetBegin = after l
  next : ∀ {u v : List EntryID} {a : EntryID}, l = u ++ a :: v → o.getNext (.entry a) =
    some (after v)
  lt : ∀ i ∈ l, i < o.size
  nodup : l.Nodup

theorem Lists.visits (h : Lists o l) : Visits o l := by
  refine ⟨fun hne => by rw [h.getSubnetBegin, if_neg hne], fun {u v a} hl => ?_, h.lt, h.nodup⟩
  rw [hl, append_cons] at h
  have hnext := h.getNext
  rwa [before_concat] at hnext

theorem Lists.getPrev {u v : List EntryID} (h : Lists o (u ++ v)) :
    o.getPrev (after v) = some (before u) := by
  have hb := h.getSubnetBegin
  have he := h.getSubnetEnd
  cases v with
  | nil =>
    rcases eq_nil_or_concat' u with rfl | ⟨u, a, rfl⟩
    · simp_all [EntryOrder.getPrev]
    · simp_all [EntryOrder.getPrev]
      cases u <;> simp
  | cons b v =>
    have hb' : b < o.size := h.lt b (by simp)
    rcases eq_nil_or_concat' u with rfl | ⟨u, a, rfl⟩
    · simp only [nil_append, reduceCtorEq, if_false, after_cons] at hb
      simp [EntryOrder.getPrev, hb, Nat.not_le.mpr hb']
    · rw [show u ++ [a] ++ b :: v = u ++ a :: b :: v by simp] at h hb
      have hd := h.nodup
      have hlink := (linked_split.mp h.linked).2.1.2
      have hne : Place.entry b ≠ o.getSubnetBegin := by
        rw [hb]
        cases u <;> grind [after]
      simp [EntryOrder.getPrev, Nat.not_le.mpr hb', hne, prev_eq hlink]

private theorem getSubnetBegin_entry {o : EntryOrder} (h : o.subnetBegin ≠ .normalOrderID) :
    o.getSubnetBegin = o.subnetBegin := by simp [EntryOrder.getSubnetBegin, h]

private theorem getSubnetEnd_entry {o : EntryOrder} (h : o.subnetEnd ≠ .normalOrderID) :
    o.getSubnetEnd = o.subnetEnd := by simp [EntryOrder.getSubnetEnd, h]

private theorem linkPrev_entry (hb : o.getSubnetBegin ≠ .entry t) (ht : t < o.size) :
    ∃ o', linkPrev o (.entry f) (.entry t) = some o' ∧ SameTable o o' ∧
      o'.subnetBegin = o.subnetBegin ∧ o'.subnetEnd = o.subnetEnd ∧ o'.next = o.next ∧
      o'.prevID t = some f ∧ ∀ a, a ≠ t → o'.prevID a = o.prevID a := by
  have hp : o.getPrev (.entry t) =
      some (if o.prev t = .normalOrderID then .entry (t - 1) else o.prev t) := by
    simp [EntryOrder.getPrev, Nat.not_le.mpr ht, hb.symm]
  simp only [linkPrev, hp, bind_eq_bind, bind_some]
  by_cases h : (if o.prev t = .normalOrderID then Place.entry (t - 1) else o.prev t) = .entry f
  · exact ⟨o, by simp [h], ⟨rfl, rfl, rfl⟩, rfl, rfl, rfl, prevID_eq h, fun a _ => rfl⟩
  · refine ⟨{ o with isDisassembled := true, prev := Function.update o.prev t (.entry f) },
      by simp [h], ⟨rfl, rfl, rfl⟩, rfl, rfl, rfl, ?_, ?_⟩
    · simp [prevID]
    · intro a ha
      simp [prevID, Function.update_of_ne ha]

private theorem linkNext_entry (he : o.getSubnetEnd ≠ .entry f) (hf : f < o.size) :
    ∃ o', linkNext o (.entry t) (.entry f) = some o' ∧ SameTable o o' ∧
      o'.subnetBegin = o.subnetBegin ∧ o'.subnetEnd = o.subnetEnd ∧ o'.prev = o.prev ∧
      o'.nextID f = some t ∧ ∀ a, a ≠ f → o'.nextID a = o.nextID a := by
  have hn : o.getNext (.entry f) =
      some (if o.next f = .normalOrderID then .entry (f + 1) else o.next f) := by
    simp [EntryOrder.getNext, Nat.not_le.mpr hf, he.symm]
  simp only [linkNext, hn, bind_eq_bind, bind_some]
  by_cases h : (if o.next f = .normalOrderID then Place.entry (f + 1) else o.next f) = .entry t
  · exact ⟨o, by simp [h], ⟨rfl, rfl, rfl⟩, rfl, rfl, rfl, nextID_eq h, fun a _ => rfl⟩
  · refine ⟨{ o with isDisassembled := true, next := Function.update o.next f (.entry t) },
      by simp [h], ⟨rfl, rfl, rfl⟩, rfl, rfl, rfl, ?_, ?_⟩
    · simp [nextID]
    · intro a ha
      simp [nextID, Function.update_of_ne ha]

/-- Linking two entries makes them point to each other and moves the ends of the list. -/
theorem setOrder_entries (hb : o.subnetBegin ≠ .normalOrderID) (he : o.subnetEnd ≠ .normalOrderID)
    (hf : f < o.size) (ht : t < o.size) (hne : f ≠ t) :
    ∃ o', o.setOrder (.entry f) (.entry t) = some o' ∧ SameTable o o' ∧
      o'.subnetBegin = (if o.subnetBegin = .entry t then .entry f else o.subnetBegin) ∧
      o'.subnetEnd = (if o.subnetEnd = .entry f then .entry t else o.subnetEnd) ∧
      o'.nextID f = some t ∧ (∀ a, a ≠ f → o'.nextID a = o.nextID a) ∧
      o'.prevID t = some f ∧ ∀ a, a ≠ t → o'.prevID a = o.prevID a := by
  let o₁ := moveEnd (moveBegin o (.entry f) (.entry t)) (.entry f) (.entry t)
  have hb₁ : o₁.subnetBegin = if o.subnetBegin = .entry t then .entry f else o.subnetBegin := by
    simp only [o₁, moveEnd, moveBegin, getSubnetBegin_entry hb]
    grind
  have he₁ : o₁.subnetEnd = if o.subnetEnd = .entry f then .entry t else o.subnetEnd := by
    simp only [o₁, moveEnd, moveBegin, getSubnetBegin_entry hb, EntryOrder.getSubnetEnd]
    grind
  have hs₁ : SameTable o o₁ ∧ o₁.next = o.next ∧ o₁.prev = o.prev := by
    simp only [o₁, moveEnd, moveBegin]
    repeat' split
    all_goals exact ⟨⟨rfl, rfl, rfl⟩, rfl, rfl⟩
  obtain ⟨hs₁, hnext₁, hprev₁⟩ := hs₁
  have hbeg : o₁.getSubnetBegin ≠ .entry t := by
    rw [getSubnetBegin_entry (by rw [hb₁]; grind), hb₁]
    grind
  obtain ⟨o₂, h₂, hs₂, hb₂, he₂, hn₂, hpt, hpo⟩ := linkPrev_entry (f := f) hbeg (hs₁.size ▸ ht)
  have hend : o₂.getSubnetEnd ≠ .entry f := by
    rw [getSubnetEnd_entry (by rw [he₂, he₁]; grind), he₂, he₁]
    grind
  obtain ⟨o₃, h₃, hs₃, hb₃, he₃, hp₃, hnf, hno⟩ :=
    linkNext_entry (t := t) hend ((hs₁.trans hs₂).size ▸ hf)
  have hn₂' : o₂.nextID = o.nextID := by funext a; simp [nextID, hn₂, hnext₁]
  have hp₁' : o₁.prevID = o.prevID := by funext a; simp [prevID, hprev₁]
  have hp₃' : o₃.prevID = o₂.prevID := by funext a; simp [prevID, hp₃]
  refine ⟨o₃, ?_, (hs₁.trans hs₂).trans hs₃, by rw [hb₃, hb₂, hb₁], by rw [he₃, he₂, he₁], hnf,
    fun a ha => (hno a ha).trans (by rw [hn₂']), by rw [hp₃', hpt],
    fun a ha => by rw [hp₃', hpo a ha, hp₁']⟩
  simp only [setOrder, isProper, reduceCtorEq, or_self, if_false, Bool.not_true, false_and]
  exact (congrArg (fun x => x >>= fun o => linkNext o (.entry t) (.entry f)) h₂).trans h₃

theorem setOrder_upper (hb : o.subnetBegin ≠ .normalOrderID) (hu : o.subnetBegin ≠ .upperBoundID)
    (hf : f < o.size) :
    o.setOrder (.entry f) .upperBoundID = some { o with subnetEnd := .entry f } := by
  have h : moveEnd (moveBegin o (.entry f) .upperBoundID) (.entry f) .upperBoundID =
      { o with subnetEnd := .entry f } := by
    simp [moveEnd, moveBegin, getSubnetBegin_entry hb, hu.symm]
  simp [setOrder, isProper, h, linkPrev, linkNext, EntryOrder.getNext, EntryOrder.getSubnetEnd,
    Nat.not_le.mpr hf]

theorem setOrder_lower (he : o.subnetEnd ≠ .normalOrderID) (hl : o.subnetEnd ≠ .lowerBoundID)
    (ht : t < o.size) :
    o.setOrder .lowerBoundID (.entry t) = some { o with subnetBegin := .entry t } := by
  have h : moveEnd (moveBegin o .lowerBoundID (.entry t)) .lowerBoundID (.entry t) =
      { o with subnetBegin := .entry t } := by
    simp [moveEnd, moveBegin, EntryOrder.getSubnetEnd, he, hl.symm]
  simp [setOrder, isProper, h, linkPrev, linkNext, EntryOrder.getPrev, EntryOrder.getSubnetBegin,
    Nat.not_le.mpr ht]

@[simp] theorem setOrder_bounds : o.setOrder .lowerBoundID .upperBoundID =
    some { o with subnetBegin := .invalidID, subnetEnd := .invalidID } := by
  simp [setOrder, isProper]

theorem Lists.begin_ne (h : Lists o l) :
    o.subnetBegin ≠ .normalOrderID ∧ o.subnetBegin ≠ .upperBoundID := by
  rw [h.first]
  cases l <;> simp

theorem Lists.end_ne (h : Lists o l) :
    o.subnetEnd ≠ .normalOrderID ∧ o.subnetEnd ≠ .lowerBoundID := by
  rw [h.last]
  rcases eq_nil_or_concat' l with rfl | ⟨l, a, rfl⟩ <;> simp

theorem Lists.remove (h : Lists o (l₁ ++ e :: l₂)) :
    ∃ o', o.setOrder (before l₁) (after l₂) = some o' ∧ SameTable o o' ∧ Lists o' (l₁ ++ l₂) := by
  obtain ⟨hb, hbu⟩ := h.begin_ne
  obtain ⟨he, hel⟩ := h.end_ne
  have hd : (l₁ ++ l₂).Nodup := h.nodup.sublist (by simp)
  have hlt : ∀ i ∈ l₁ ++ l₂, i < o.size := fun i hi => h.lt i (by simp at hi ⊢; tauto)
  have hfirst := h.first
  have hlast := h.last
  rcases eq_nil_or_concat' l₁ with rfl | ⟨l₁, p, rfl⟩
  · cases l₂ with
    | nil => exact ⟨_, setOrder_bounds,
        ⟨rfl, rfl, rfl⟩, by simp, by simp, by simp, by simp, by simp⟩
    | cons n l₂ =>
      refine ⟨_, setOrder_lower he hel (hlt n (by simp)), ⟨rfl, rfl, rfl⟩, by simp, ?_, ?_, hlt, hd⟩
      · rw [hlast]
        rcases eq_nil_or_concat' l₂ with rfl | ⟨l₂, c, rfl⟩
        · simp [before]
        · simp [before]
      · exact ((linked_cons_cons e n l₂).mp h.linked).2
  · cases l₂ with
    | nil =>
      simp only [before_concat, after_nil]
      refine ⟨_, setOrder_upper hb hbu (hlt p (by simp)), ⟨rfl, rfl, rfl⟩, ?_, by simp, ?_, hlt, hd⟩
      · rw [hfirst]
        cases l₁ <;> simp
      · rw [append_nil]
        exact h.linked.left
    | cons n l₂ =>
      have hpn : p ≠ n := by
        rintro rfl
        simp [nodup_append] at hd
      obtain ⟨o', ho', hs, hb', he', hnp, hn, hpn', hp⟩ :=
        setOrder_entries hb he (hlt p (by simp)) (hlt n (by simp)) hpn
      refine ⟨o', by simpa using ho', hs, ?_, ?_, ?_, by rw [hs.size]; exact hlt, hd⟩
      · rw [hb', hfirst]
        have := h.nodup
        cases l₁ <;> simp_all
      · rw [he', hlast]
        have := h.nodup
        rcases eq_nil_or_concat' l₂ with rfl | ⟨l₂, c, rfl⟩
        · simp_all [before]
        · simp_all [before]
          grind
      · have hl := h.linked
        simp only [append_assoc, singleton_append] at hl hd ⊢
        exact hl.remove hd hnp hpn' hn hp

theorem Lists.placeAfter {u v : List EntryID} (h : Lists o (u ++ v)) (he : e ∉ u ++ v)
    (hes : e < o.size) : ∃ o', o.placeAfter (.entry e) (before u) = some o' ∧ SameTable o o' ∧
      Lists o' (u ++ e :: v) := by
  obtain ⟨hb, hbu⟩ := h.begin_ne
  obtain ⟨hend, hel⟩ := h.end_ne
  have hd : (u ++ e :: v).Nodup :=
    (perm_middle.nodup_iff).mpr (nodup_cons.mpr ⟨he, h.nodup⟩)
  have hlt : ∀ i ∈ u ++ e :: v, i < o.size := by
    intro i hi
    rcases mem_cons.mp (perm_middle.mem_iff.mp hi) with rfl | hi
    exacts [hes, h.lt i hi]
  have hfirst := h.first
  have hlast := h.last
  have hne : before u ≠ .upperBoundID := by
    rcases eq_nil_or_concat' u with rfl | ⟨u, p, rfl⟩ <;> simp
  have hplace : o.placeAfter (.entry e) (before u) = (o.setOrder (.entry e) (after v)).bind
      (fun o => o.setOrder (before u) (.entry e)) := by
    simp [EntryOrder.placeAfter, hne, h.getNext]
  rw [hplace]
  have hel₁ : ∀ a ∈ u ++ v, a ≠ e := fun a ha hae => he (hae ▸ ha)
  rcases eq_nil_or_concat' u with rfl | ⟨u, p, rfl⟩
  · cases v with
    | nil =>
      rw [after_nil, setOrder_upper hb hbu hes, bind_some, before_nil]
      refine ⟨_, setOrder_lower (o := { o with subnetEnd := .entry e }) (by simp) (by simp) hes,
        ⟨rfl, rfl, rfl⟩, by simp, by simp [before], by simp, hlt, hd⟩
    | cons n v =>
      obtain ⟨o₁, ho₁, hs, hb₁, he₁, hne, hn, hpn, hp⟩ :=
        setOrder_entries hb hend hes (h.lt n (by simp)) (hel₁ n (by simp)).symm
      have hend₁ : o₁.subnetEnd = o.subnetEnd := by
        rw [he₁, hlast]
        rcases eq_nil_or_concat' v with rfl | ⟨v, c, rfl⟩
        · simp [hel₁ n (by simp)]
        · simp [hel₁ c (by simp)]
      rw [after_cons, ho₁, bind_some, before_nil,
        setOrder_lower (hend₁ ▸ hend) (hend₁ ▸ hel) (hs.size ▸ hes)]
      refine ⟨_, rfl, ⟨hs.size, hs.depth,
        hs.bounds⟩, by simp, ?_, ?_, by rw [hs.size]; exact hlt, hd⟩
      · simp [hend₁, hlast, before]
      · exact h.linked.insert_first hd hne hpn hn (fun a _ ha => hp a ha)
  · have hep : p ≠ e := hel₁ p (by simp)
    have hpo : p < o.size := h.lt p (by simp)
    cases v with
    | nil =>
      rw [after_nil, setOrder_upper hb hbu hes, bind_some, before_concat]
      obtain ⟨o₂, ho₂, hs, hb₂, he₂, hpe, hn, hpe', hp⟩ :=
        setOrder_entries (o := { o with subnetEnd := .entry e }) hb (by simp) hpo hes hep
      refine ⟨o₂, ho₂, ⟨hs.size, hs.depth, hs.bounds⟩, ?_, ?_, ?_, by rw [hs.size]; exact hlt, hd⟩
      · rw [hb₂, hfirst]
        cases u with
        | nil => simp [hep]
        | cons c u => simp [hel₁ c (by simp)]
      · simp [he₂, hep.symm]
      · have hl := h.linked
        simp only [append_nil, append_assoc, singleton_append] at hl hd ⊢
        exact hl.insert_last hd hpe hpe' (fun a ha _ => hn a ha) hp
    | cons n v =>
      obtain ⟨o₁, ho₁, hs₁, hb₁, he₁, hne, hn, hpn, hp⟩ :=
        setOrder_entries hb hend hes (h.lt n (by simp)) (hel₁ n (by simp)).symm
      have hbeg₁ : o₁.subnetBegin = o.subnetBegin := by
        rw [hb₁, hfirst]
        have := h.nodup
        cases u <;> simp_all
      have hend₁ : o₁.subnetEnd = o.subnetEnd := by
        rw [he₁, hlast]
        rcases eq_nil_or_concat' v with rfl | ⟨v, c, rfl⟩
        · simp [hel₁ n (by simp)]
        · simp [hel₁ c (by simp)]
      obtain ⟨o₂, ho₂, hs₂, hb₂, he₂, hpe, hn₂, hpe', hp₂⟩ :=
        setOrder_entries (hbeg₁ ▸ hb) (hend₁ ▸ hend) (hs₁.size ▸ hpo) (hs₁.size ▸ hes) hep
      rw [after_cons, ho₁, bind_some, before_concat, ho₂]
      refine ⟨o₂, rfl, hs₁.trans hs₂, ?_, ?_, ?_, by rw [(hs₁.trans hs₂).size]; exact hlt, hd⟩
      · rw [hb₂, hbeg₁, hfirst]
        cases u with
        | nil => simp [hep]
        | cons c u => simp [hel₁ c (by simp)]
      · have hp₂ : ∀ a ∈ n :: v, a ≠ p := by
          rintro a ha rfl
          exact (nodup_append.mp h.nodup).2.2 a (by simp) a ha rfl
        rw [he₂, hend₁, hlast]
        rcases eq_nil_or_concat' v with rfl | ⟨v, c, rfl⟩
        · simp [hp₂ n (by simp)]
        · simp [hp₂ c (by simp)]
      · have hl := h.linked
        simp only [append_assoc, singleton_append] at hl hd ⊢
        refine hl.insert hd hpe ((hn₂ e hep.symm).trans hne) hpe' ?_ ?_ ?_
        · rw [hp₂ n (hel₁ n (by simp)), hpn]
        · intro a ha hae
          rw [hn₂ a ha, hn a hae]
        · intro a hae han
          rw [hp₂ a hae, hp a han]

structure Parted (o : EntryOrder) (u v : List EntryID) : Prop where
  first : o.subnetBegin = after (u ++ v)
  last : o.subnetEnd = before (u ++ v)
  left : Linked o.nextID o.prevID u
  right : Linked o.nextID o.prevID v
  lt : ∀ i ∈ u ++ v, i < o.size
  nodup : (u ++ v).Nodup

theorem Lists.parted {u v : List EntryID} (h : Lists o (u ++ v)) (hu : u ≠ []) : Parted o u v := by
  have hne : u ++ v ≠ [] := by simp [hu]
  exact ⟨by rw [h.first, if_neg hne], by rw [h.last, if_neg hne], h.linked.left, h.linked.right,
    h.lt, h.nodup⟩

theorem Parted.congr {u v : List EntryID} (h : Parted o u v) (hb : o'.subnetBegin = o.subnetBegin)
    (he : o'.subnetEnd = o.subnetEnd) (hn : o'.next = o.next) (hp : o'.prev = o.prev)
    (hs : o.size ≤ o'.size) : Parted o' u v := by
  have hn' : o'.nextID = o.nextID := by funext i; simp [nextID, hn]
  have hp' : o'.prevID = o.prevID := by funext i; simp [prevID, hp]
  exact ⟨hb ▸ h.first, he ▸ h.last, hn' ▸ hp' ▸ h.left, hn' ▸ hp' ▸ h.right,
    fun i hi => Nat.lt_of_lt_of_le (h.lt i hi) hs, h.nodup⟩

theorem Parted.extend {u v : List EntryID} {b : EntryID} (h : Parted o (u ++ [a]) v)
    (hb : b ∉ u ++ [a] ++ v) (hbs : b < o.size) :
    ∃ o', o.setOrder (.entry a) (.entry b) = some o' ∧ SameTable o o' ∧
      Parted o' (u ++ [a] ++ [b]) v := by
  have hne : ∀ i ∈ u ++ [a] ++ v, i ≠ b := fun i hi hib => hb (hib ▸ hi)
  have hnd : (u ++ [a] ++ [b] ++ v).Nodup := by
    rw [append_assoc, singleton_append]
    exact perm_middle.nodup_iff.mpr (nodup_cons.mpr ⟨hb, h.nodup⟩)
  have hfirst : o.subnetBegin = after (u ++ [a]) := by
    rw [h.first]
    cases u <;> rfl
  have hbegin : o.subnetBegin ≠ .normalOrderID ∧ o.subnetBegin ≠ .entry b := by
    rw [hfirst]
    cases u with
    | nil => simpa using hne a (by simp)
    | cons c u => simpa using hne c (by simp)
  have hend : o.subnetEnd ≠ .normalOrderID := by
    rw [h.last]
    rcases eq_nil_or_concat' v with rfl | ⟨v, c, rfl⟩
    · simp
    · rw [← append_assoc, before_concat]
      simp
  obtain ⟨o', ho', hs, hb', he', hna, hn, hpb, hp⟩ :=
    setOrder_entries hbegin.1 hend (h.lt a (by simp)) hbs (hne a (by simp))
  refine ⟨o', ho', hs, ?_, ?_, ?_, ?_, fun i hi => ?_, hnd⟩
  · rw [hb', if_neg hbegin.2, hfirst]
    cases u <;> rfl
  · rw [he', h.last]
    rcases eq_nil_or_concat' v with rfl | ⟨v, c, rfl⟩
    · simp
    · have hca : c ≠ a := by
        rintro rfl
        have := h.nodup
        simp [nodup_append] at this
      rw [← append_assoc, ← append_assoc, before_concat, before_concat]
      simp [hca]
  · have hnd' : (u ++ [a] ++ [b]).Nodup := hnd.sublist (by simp)
    rw [append_assoc, singleton_append] at hnd' ⊢
    exact h.left.insert_last hnd' hna hpb (fun i hi _ => hn i hi) hp
  · apply h.right.congr
    · intro i hi
      apply hn
      rintro rfl
      have hi := dropLast_subset _ hi
      have := h.nodup
      simp [nodup_append, hi] at this
    · intro i hi
      exact hp i (hne i (by simp [mem_of_mem_tail hi]))
  · rw [hs.size]
    simp only [mem_append, mem_singleton] at hi
    rcases hi with ((hi | rfl) | rfl) | hi
    · exact h.lt i (by simp [hi])
    · exact h.lt i (by simp)
    · exact hbs
    · exact h.lt i (by simp [hi])

theorem Parted.join {u v : List EntryID} (h : Parted o (u ++ [a]) v) :
    ∃ o', o.setOrder (.entry a) (after v) = some o' ∧ SameTable o o' ∧
      Lists o' (u ++ [a] ++ v) := by
  have hne : u ++ [a] ++ v ≠ [] := by simp
  have hbegin : o.subnetBegin ≠ .normalOrderID ∧ o.subnetBegin ≠ .upperBoundID := by
    rw [h.first]
    cases u <;> simp
  cases v with
  | nil =>
    refine ⟨_, setOrder_upper hbegin.1 hbegin.2 (h.lt a (by simp)), ⟨rfl, rfl, rfl⟩, ?_, ?_, ?_,
      h.lt, h.nodup⟩
    · rw [if_neg hne]
      exact h.first
    · simp
    · rw [append_nil]
      exact h.left
  | cons b v =>
    have hend : o.subnetEnd ≠ .normalOrderID ∧ o.subnetEnd ≠ .entry a := by
      have hnd := h.nodup
      rw [h.last]
      rcases eq_nil_or_concat' v with rfl | ⟨v, c, rfl⟩
      · rw [before_concat]
        simp only [ne_eq, reduceCtorEq, not_false_eq_true, Place.entry.injEq, true_and]
        rintro rfl
        simp [nodup_append] at hnd
      · rw [← cons_append, ← append_assoc, before_concat]
        simp only [ne_eq, reduceCtorEq, not_false_eq_true, Place.entry.injEq, true_and]
        rintro rfl
        simp [nodup_append] at hnd
    have hab : a ≠ b := by
      rintro rfl
      have hnd := h.nodup
      simp [nodup_append] at hnd
    have hbu : ∀ i ∈ u ++ [a], i ≠ b := by
      rintro i hi rfl
      exact (nodup_append.mp h.nodup).2.2 i hi i (by simp) rfl
    have hav : ∀ i ∈ b :: v, i ≠ a := by
      rintro i hi rfl
      exact (nodup_append.mp h.nodup).2.2 i (by simp) i hi rfl
    have hua : ∀ i ∈ u, i ≠ a := by
      rintro i hi rfl
      have hnd := (nodup_append.mp h.nodup).1
      exact (nodup_append.mp hnd).2.2 i hi i (by simp) rfl
    obtain ⟨o', ho', hs, hb', he', hna, hn, hpb, hp⟩ :=
      setOrder_entries hbegin.1 hend.1 (h.lt a (by simp)) (h.lt b (by simp)) hab
    refine ⟨o', ho', hs, ?_, ?_, ?_, fun i hi => hs.size ▸ h.lt i hi, h.nodup⟩
    · rw [hb', if_neg hne]
      have hfirst : o.subnetBegin ≠ .entry b := by
        rw [h.first]
        cases u with
        | nil => simpa using hab
        | cons c u => simpa using hbu c (by simp)
      rw [if_neg hfirst, h.first]
    · rw [he', if_neg hend.2, if_neg hne, h.last]
    · rw [append_assoc, singleton_append, linked_split]
      refine ⟨h.left.congr (fun i hi => ?_) (fun i hi => ?_), ⟨hna, hpb⟩,
        h.right.congr (fun i hi => ?_) (fun i hi => ?_)⟩
      · rw [dropLast_concat] at hi
        exact hn i (hua i hi)
      · exact hp i (hbu i (mem_of_mem_tail hi))
      · exact hn i (hav i (dropLast_subset _ hi))
      · apply hp
        rintro rfl
        have := (nodup_append.mp h.nodup).2.1
        simp only [tail_cons] at hi
        simp [hi] at this

end UtopiaEda.EntryOrder
