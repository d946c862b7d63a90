import UtopiaEda.EntryRearrangement

/-!
# Orders that were never disassembled

An operation either disassembles the order or leaves the successors of all entries as they were. So
an order that is not disassembled leads through consecutive entries.
-/
namespace UtopiaEda
open Option (bind_eq_some_iff)
namespace EntryOrder

variable {o o₁ o' : EntryOrder} {a b p : Place} {e : EntryID} {d : ℕ} {type : EntryID → CellTypeID}
  {cell : EntryID → Option SubnetCell}

/-- Unless the order is disassembled afterwards, it was not before and has the same successors. -/
def Stays (o o' : EntryOrder) : Prop :=
  o'.isDisassembled = false → o.isDisassembled = false ∧ o'.next = o.next

theorem Stays.refl (o : EntryOrder) : Stays o o := fun h => ⟨h, rfl⟩

theorem Stays.of_eq (hd : o'.isDisassembled = o.isDisassembled) (hn : o'.next = o.next) :
    Stays o o' :=
  fun h => ⟨hd ▸ h, hn⟩

theorem Stays.trans (h : Stays o o₁) (h' : Stays o₁ o') : Stays o o' := by
  intro hd
  obtain ⟨hd₁, hn₁⟩ := h' hd
  obtain ⟨hd₀, hn₀⟩ := h hd₁
  exact ⟨hd₀, hn₁.trans hn₀⟩

theorem stays_setDepth (o : EntryOrder) (e : EntryID) (d : Option ℕ) : Stays o (o.setDepth e d) :=
  .of_eq rfl rfl

theorem stays_setBounds (o : EntryOrder) (d : ℕ) (q : Place × Place) : Stays o (o.setBounds d q) :=
  .of_eq rfl rfl

theorem Stays.assembled (h : Stays o o') (ho : o.Assembled) : o'.Assembled := by
  intro hd i
  obtain ⟨hd₀, hn⟩ := h hd
  rw [hn]
  exact ho hd₀ i

theorem Lists.consecutive {l : List EntryID} (h : o.Lists l) (ho : o.Assembled)
    (hd : o.isDisassembled = false) : ∃ a, l = List.range' a l.length := by
  apply SubnetBuilder.eq_range'_of_isChain
  apply List.IsChain.imp _ h.linked
  intro a b hab
  have hnext := hab.1
  rw [nextID, ho hd a] at hnext
  exact (Option.some.inj hnext).symm

private theorem stays_linkPrev (h : linkPrev o a b = some o') : Stays o o' := by
  unfold linkPrev at h
  cases b with
  | entry i =>
    obtain ⟨x, -, h⟩ := bind_eq_some_iff.mp h
    split at h <;> cases h
    · exact .refl o
    · exact fun hd => by cases hd
  | _ =>
    cases h
    exact .refl o

private theorem stays_linkNext (h : linkNext o a b = some o') : Stays o o' := by
  unfold linkNext at h
  cases b with
  | entry i =>
    obtain ⟨x, -, h⟩ := bind_eq_some_iff.mp h
    split at h <;> cases h
    · exact .refl o
    · exact fun hd => by cases hd
  | _ =>
    cases h
    exact .refl o

theorem stays_setOrder (h : o.setOrder a b = some o') : Stays o o' := by
  have hmove : Stays o (moveEnd (moveBegin o a b) a b) := by
    unfold moveEnd moveBegin
    repeat' split
    all_goals exact .of_eq rfl rfl
  unfold setOrder at h
  split at h
  · cases h
  · split at h
    · cases h
    · split at h
      · cases h
        exact .of_eq rfl rfl
      · obtain ⟨o₁, h₁, h₂⟩ := bind_eq_some_iff.mp h
        exact hmove.trans ((stays_linkPrev h₁).trans (stays_linkNext h₂))

theorem stays_placeAfter (h : o.placeAfter a b = some o') : Stays o o' := by
  unfold placeAfter at h
  split at h
  · cases h
  · obtain ⟨n, -, h⟩ := bind_eq_some_iff.mp h
    obtain ⟨o₁, h₁, h₂⟩ := bind_eq_some_iff.mp h
    exact (stays_setOrder h₁).trans (stays_setOrder h₂)

private theorem stays_placeInDepth (h : o.placeInDepth e d p = some o') : Stays o o' := by
  obtain ⟨o₁, h₁, h₂⟩ := bind_eq_some_iff.mp h
  have hplace := stays_placeAfter h₁
  cases h₂
  split
  · exact hplace.trans (.of_eq rfl rfl)
  · exact hplace

theorem stays_addDepthBounds (h : o.addDepthBounds type e = some o') : Stays o o' := by
  obtain ⟨d, -, h⟩ := bind_eq_some_iff.mp h
  split at h
  · exact stays_placeAfter h
  · split at h
    · exact (stays_setBounds o _ _).trans (stays_placeAfter h)
    · split at h
      · obtain ⟨q, -, h⟩ := bind_eq_some_iff.mp h
        exact stays_placeInDepth h
      · exact stays_placeInDepth h

private theorem stays_deleteBounds (h : o.deleteBounds e d = some o') : Stays o o' := by
  unfold deleteBounds at h
  split at h
  · cases h
    exact .of_eq rfl rfl
  · split at h
    · obtain ⟨n, -, h⟩ := bind_eq_some_iff.mp h
      cases h
      exact .of_eq rfl rfl
    · split at h
      · obtain ⟨n, -, h⟩ := bind_eq_some_iff.mp h
        cases h
        exact .of_eq rfl rfl
      · cases h
        exact .refl o

theorem stays_deleteDepthBounds (h : o.deleteDepthBounds e = some o') : Stays o o' := by
  obtain ⟨d, -, h⟩ := bind_eq_some_iff.mp h
  obtain ⟨o₁, h₁, h⟩ := bind_eq_some_iff.mp h
  obtain ⟨x, -, h⟩ := bind_eq_some_iff.mp h
  obtain ⟨y, -, h⟩ := bind_eq_some_iff.mp h
  exact (stays_deleteBounds h₁).trans (stays_setOrder h)

theorem stays_moveToDepth (h : o.moveToDepth type e d = some o') : Stays o o' := by
  obtain ⟨o₁, h₁, h₂⟩ := bind_eq_some_iff.mp h
  exact (stays_deleteDepthBounds h₁).trans ((stays_setDepth o₁ _ _).trans (stays_addDepthBounds h₂))

private theorem stays_recomputeLoop :
    ∀ {n : ℕ} {o : EntryOrder} {S : List EntryID} {N : ℕ} {p : Place},
    recomputeLoop cell type n o S N p = some o' → Stays o o' := by
  intro n
  induction n with
  | zero =>
    intro o S N p h
    cases N with
    | zero =>
      cases h
      exact .refl _
    | succ N => cases h
  | succ n ih =>
    intro o S N p h
    cases N with
    | zero =>
      cases h
      exact .refl _
    | succ N =>
      cases p with
      | entry i =>
        rw [recomputeLoop] at h
        split at h
        · obtain ⟨q, -, h⟩ := bind_eq_some_iff.mp h
          exact ih h
        · obtain ⟨c, -, h⟩ := bind_eq_some_iff.mp h
          obtain ⟨q, -, h⟩ := bind_eq_some_iff.mp h
          dsimp only at h
          split at h
          · cases h
          · split at h
            · exact (stays_setDepth o i _).trans (ih h)
            · obtain ⟨o₁, h₁, h⟩ := bind_eq_some_iff.mp h
              exact (stays_moveToDepth h₁).trans (ih h)
      | _ => cases h

theorem stays_recomputeFanoutDepths (h : o.recomputeFanoutDepths cell type e p = some o') :
    Stays o o' := by
  obtain ⟨c, -, h⟩ := bind_eq_some_iff.mp h
  exact stays_recomputeLoop h

end EntryOrder

namespace SubnetBuilder
open EntryOrder

variable {s s₁ s' : SubnetBuilder} {i j idx user : EntryID} {t : CellTypeID} {links : List Link}
  {r : Link} {del : Bool}

/-! ### The operations of a builder -/

private theorem addLink_order (h : s.addLink user j = some s') : s'.order = s.order := by
  obtain ⟨s₁, h₁, h⟩ := bind_eq_some_iff.mp h
  obtain ⟨c, -, h⟩ := bind_eq_some_iff.mp h
  cases h
  unfold addFanout at h₁
  split at h₁ <;> cases h₁
  rfl

private theorem delLink_order (h : s.delLink user j = some s') : s'.order = s.order := by
  obtain ⟨s₁, h₁, h⟩ := bind_eq_some_iff.mp h
  obtain ⟨c, -, h⟩ := bind_eq_some_iff.mp h
  split at h <;> cases h
  unfold delFanout at h₁
  split at h₁ <;> cases h₁
  rfl

private theorem destrashEntry_order (h : s.destrashEntry i = some s') : s'.order = s.order := by
  obtain ⟨c, -, h⟩ := bind_eq_some_iff.mp h
  split at h <;> cases h <;> rfl

private theorem addLinks_order :
    ∀ {links : List Link} {s : SubnetBuilder}, addLinks user links s = some s' →
    s'.order = s.order := by
  intro links
  induction links with
  | nil =>
    intro s h
    cases h
    rfl
  | cons l links ih =>
    intro s h
    obtain ⟨s₁, h₁, h⟩ := bind_eq_some_iff.mp h
    exact (ih h).trans (addLink_order h₁)

private theorem addNewLinks_order :
    ∀ {links : List Link} {s : SubnetBuilder}, addNewLinks user links s = some s' →
    s'.order = s.order := by
  intro links
  induction links with
  | nil =>
    intro s h
    cases h
    rfl
  | cons l links ih =>
    intro s h
    obtain ⟨c, -, h⟩ := bind_eq_some_iff.mp h
    split at h
    · cases h
    · obtain ⟨s₁, h₁, h⟩ := bind_eq_some_iff.mp h
      exact (ih h).trans (addLink_order h₁)

private theorem unlinkDeleted_order :
    ∀ {links : List Link} {s : SubnetBuilder} {queue queue' : List EntryID},
    unlinkDeleted user links s queue = some (s', queue') → s'.order = s.order := by
  intro links
  induction links with
  | nil =>
    intro s queue queue' h
    cases h
    rfl
  | cons l links ih =>
    intro s queue queue' h
    obtain ⟨s₁, h₁, h⟩ := bind_eq_some_iff.mp h
    obtain ⟨c, -, h⟩ := bind_eq_some_iff.mp h
    exact (ih h).trans (delLink_order h₁)

private theorem stays_deallocEntry (h : s.deallocEntry i = some s') : Stays s.order s'.order := by
  obtain ⟨c, -, h⟩ := bind_eq_some_iff.mp h
  split at h
  · cases h
  · obtain ⟨s₁, h₁, h⟩ := bind_eq_some_iff.mp h
    obtain ⟨o, ho, h⟩ := bind_eq_some_iff.mp h
    cases h
    rw [destrashEntry_order h₁] at ho
    exact (stays_deleteDepthBounds ho).trans (.of_eq rfl rfl)

private theorem stays_deleteQueue : ∀ {n : ℕ} {s : SubnetBuilder} {queue : List EntryID},
    deleteQueue n s queue = some s' → Stays s.order s'.order := by
  intro n
  induction n with
  | zero =>
    intro s queue h
    cases queue with
    | nil =>
      cases h
      exact .refl _
    | cons i queue => cases h
  | succ n ih =>
    intro s queue h
    cases queue with
    | nil =>
      cases h
      exact .refl _
    | cons i queue =>
      obtain ⟨⟨s₁, queue₁⟩, h₁, h⟩ := bind_eq_some_iff.mp h
      obtain ⟨c, -, h₁⟩ := bind_eq_some_iff.mp h₁
      split at h₁
      · cases h₁
      · obtain ⟨s₂, h₂, h₁⟩ := bind_eq_some_iff.mp h₁
        have hstay := stays_deallocEntry h₂
        rw [← unlinkDeleted_order h₁] at hstay
        exact hstay.trans (ih h)

private theorem stays_delLinks :
    ∀ {links : List Link} {s : SubnetBuilder}, delLinks user del links s = some s' →
    Stays s.order s'.order := by
  intro links
  induction links with
  | nil =>
    intro s h
    cases h
    exact .refl _
  | cons l links ih =>
    intro s h
    obtain ⟨s₁, h₁, h⟩ := bind_eq_some_iff.mp h
    obtain ⟨c, -, h⟩ := bind_eq_some_iff.mp h
    split at h
    · obtain ⟨s₂, h₂, h⟩ := bind_eq_some_iff.mp h
      have hstay := stays_deleteQueue h₂
      rw [delLink_order h₁] at hstay
      exact hstay.trans (ih h)
    · have hstay := ih h
      rwa [delLink_order h₁] at hstay

private theorem strashRoot_order : (s.strashRoot i t links).order = s.order := by
  rw [strashRoot]
  split <;> rfl

theorem stays_replaceCell (h : s.replaceCell i t links del = some (s', r)) :
    Stays s.order s'.order := by
  obtain ⟨c, -, h⟩ := bind_eq_some_iff.mp h
  split at h
  · cases h
  · obtain ⟨s₁, h₁, h⟩ := bind_eq_some_iff.mp h
    obtain ⟨p, -, h⟩ := bind_eq_some_iff.mp h
    obtain ⟨s₂, h₂, h⟩ := bind_eq_some_iff.mp h
    obtain ⟨s₃, h₃, h⟩ := bind_eq_some_iff.mp h
    obtain ⟨s₄, h₄, h⟩ := bind_eq_some_iff.mp h
    cases h
    have hstay := stays_delLinks h₃
    rw [addLinks_order h₂] at hstay
    change Stays s₁.order s₃.order at hstay
    rw [destrashEntry_order h₁] at hstay
    refine hstay.trans ?_
    rw [reorder] at h₄
    split at h₄
    · cases h₄
      rw [strashRoot_order]
      exact .refl _
    · obtain ⟨o₁, ho₁, h₄⟩ := bind_eq_some_iff.mp h₄
      obtain ⟨o₂, ho₂, h₄⟩ := bind_eq_some_iff.mp h₄
      cases h₄
      rw [strashRoot_order] at ho₁
      exact (stays_moveToDepth ho₁).trans (stays_recomputeFanoutDepths ho₂)

private theorem stays_addLinkEntries {d : ℕ} :
    ∀ {n : ℕ} {idx : EntryID} {links : List Link} {s : SubnetBuilder},
    addLinkEntries d n idx links s = some s' → Stays s.order s'.order := by
  intro n
  induction n with
  | zero =>
    intro idx links s h
    cases h
    exact .refl _
  | succ n ih =>
    intro idx links s h
    obtain ⟨o, ho, h⟩ := bind_eq_some_iff.mp h
    refine Stays.trans ?_ (ih h)
    refine Stays.trans ?_ (stays_setOrder ho)
    split
    · exact .of_eq rfl rfl
    · exact .of_eq rfl rfl

private theorem stays_fillEntry (h : s.fillEntry idx t links = some s') :
    Stays s.order s'.order := by
  obtain ⟨s₁, h₁, h⟩ := bind_eq_some_iff.mp h
  obtain ⟨o, ho, h⟩ := bind_eq_some_iff.mp h
  change (s₁.order.setDepth idx _).addDepthBounds _ idx = some o at ho
  rw [addNewLinks_order h₁] at ho
  have hstay := (stays_setDepth s.order idx _).trans (stays_addDepthBounds ho)
  dsimp only at h
  split at h
  · cases h
    exact hstay
  · obtain ⟨p, -, h⟩ := bind_eq_some_iff.mp h
    obtain ⟨s₂, h₂, h⟩ := bind_eq_some_iff.mp h
    obtain ⟨o', ho', h⟩ := bind_eq_some_iff.mp h
    cases h
    exact hstay.trans ((stays_addLinkEntries h₂).trans (stays_setOrder ho'))

theorem stays_addCell {V : EntryID → List EntryID} (h : NetInv s V)
    (ha : s.addCell t links = some (s', r)) : Stays s.order s'.order := by
  unfold addCell at ha
  split at ha
  · cases ha
  · obtain ⟨⟨s₁, i⟩, h₁, ha⟩ := bind_eq_some_iff.mp ha
    cases ha
    change Stays s.order s₁.order
    rcases h.allocEntry t links with ⟨j, -, -, hall⟩ | ⟨s₂, j, f, halloc, hall, -⟩
    · rw [hall] at h₁
      cases h₁
      exact .of_eq rfl rfl
    · rw [hall] at h₁
      obtain ⟨s₃, h₃, heq⟩ := Option.map_eq_some_iff.mp h₁
      cases heq
      have hstay : Stays s.order ({ s₂ with strash := f } : SubnetBuilder).order := by
        change Stays s.order s₂.order
        rw [halloc.order]
        exact .of_eq rfl rfl
      exact hstay.trans (stays_fillEntry h₃)

theorem addCell_size {V : EntryID → List EntryID} (h : NetInv s V)
    (hlen : links.length ≤ InPlaceLinks) (ha : s.addCell t links = some (s', r)) : s'.size =
    s.size ∨ s'.size = s.size + 1 ∧ r.idx = s.size := by
  unfold addCell at ha
  split at ha
  · cases ha
  · obtain ⟨⟨s₁, i⟩, h₁, ha⟩ := bind_eq_some_iff.mp ha
    cases ha
    change s₁.size = s.size ∨ s₁.size = s.size + 1 ∧ i = s.size
    rcases h.allocEntry t links with ⟨j, -, -, hall⟩ | ⟨s₂, j, f, halloc, hall, -⟩
    · rw [hall] at h₁
      cases h₁
      exact .inl rfl
    · rw [hall] at h₁
      obtain ⟨s₃, h₃, heq⟩ := Option.map_eq_some_iff.mp h₁
      cases heq
      have hsize : s₁.size = s₂.size := by
        obtain ⟨s₄, h₄, h₃⟩ := bind_eq_some_iff.mp h₃
        obtain ⟨o, ho, h₃⟩ := bind_eq_some_iff.mp h₃
        dsimp only at h₃
        rw [if_pos hlen] at h₃
        cases h₃
        have horder := addNewLinks_order h₄
        have hsize : s₄.order.size = s₂.order.size := congrArg EntryOrder.size horder
        exact (addDepthBounds_size ho).trans hsize
      have hle : s.size ≤ s₂.size := halloc.le
      have hlt : i < s₂.size := halloc.lt
      have hused : ∀ k : ℕ, k ≠ i → k < s₂.size → k < s.size := fun k hk => (halloc.used k hk).mp
      rw [hsize]
      by_cases hi : i = s.size
      · refine .inr ⟨Nat.le_antisymm (Nat.not_lt.mp fun hgt => ?_) (hi ▸ hlt), hi⟩
        exact absurd (hused (s.size + 1) (by rw [hi]; exact Nat.succ_ne_self _) hgt)
          (Nat.not_lt.mpr (Nat.le_succ _))
      · refine .inl (Nat.le_antisymm (Nat.not_lt.mp fun hgt => ?_) hle)
        exact absurd (hused s.size (fun heq => hi heq.symm) hgt) (Nat.lt_irrefl _)

end SubnetBuilder

end UtopiaEda
