import UtopiaEda.CellDeletion
import UtopiaEda.LinkAccess

/-!
# Adding cells

`addCell` returns an existing cell with the same key or fills a free entry. Either way the
old cells stay as they are and the returned entry holds a cell with the requested function.
-/
namespace UtopiaEda.SubnetBuilder

open Option (bind_eq_bind bind_eq_some_iff bind_some)
open Function (update update_self update_of_ne)
open Incidence Finset

variable {s s' s₁ : SubnetBuilder} {V V' : EntryID → List EntryID} {i j u idx : EntryID}
  {c : SubnetCell} {t : CellTypeID} {links : List Link}

theorem NetInv.setOrder {o : EntryOrder} (h : NetInv s V) (ho : o.size = s.order.size) :
    NetInv { s with order := o } V := by
  have hlive : ∀ i, ({ s with order := o } : SubnetBuilder).liveCell i = s.liveCell i := by
    intro i
    unfold SubnetBuilder.liveCell getCell SubnetBuilder.size
    rw [ho]
  have hsize : ({ s with order := o } : SubnetBuilder).size = s.size := ho
  refine ⟨h.nodup, fun i hi => hsize ▸ h.free i hi, fun i hi => hsize ▸ h.user i hi,
    fun i j hj => ?_, fun i c hc => ?_, fun he i => ?_, fun k i hk => ?_⟩
  · obtain ⟨c, hc, ht⟩ := h.target i j hj
    exact ⟨c, by rw [hlive, hc], ht⟩
  · rw [hlive] at hc
    rw [hsize]
    exact h.refcount i c hc
  · rw [hsize]
    exact h.fanouts he i
  · obtain ⟨c, hc, hrest⟩ := h.strash k i hk
    exact ⟨c, by rw [hlive, hc], hrest⟩

theorem liveCell_setOrder {o : EntryOrder} (ho : o.size = s.order.size) :
    ({ s with order := o } : SubnetBuilder).liveCell = s.liveCell := by
  funext i
  unfold SubnetBuilder.liveCell getCell SubnetBuilder.size
  rw [ho]

/-- What `allocEntry(isBuf)` returns. -/
structure Allocated (s s₁ : SubnetBuilder) (b : Bool) (idx : EntryID) : Prop where
  entries : s₁.entries = s.entries
  order : s₁.order = { s.order with size := s₁.size }
  fanouts : s₁.fanouts = s.fanouts
  enabled : s₁.fanoutsEnabled = s.fanoutsEnabled
  strash : s₁.strash = s.strash
  counts : (s₁.nIn, s₁.nOut, s₁.nCell, s₁.nBuf) = (s.nIn, s.nOut, s.nCell + 1, s.nBuf + b.toNat)
  le : s.size ≤ s₁.size
  lt : idx < s₁.size
  nodup : s₁.emptyEntryIDs.Nodup
  free : ∀ i, i ∈ s₁.emptyEntryIDs ↔ i ∈ s.emptyEntryIDs ∧ i ≠ idx
  used : ∀ i, i ≠ idx → (i < s₁.size ↔ i < s.size)
  fresh : idx ∈ s.emptyEntryIDs ∨ idx = s.size

theorem NetInv.allocID (h : NetInv s V) (b : Bool) :
    Allocated s (s.allocID b).1 b (s.allocID b).2 := by
  cases he : s.emptyEntryIDs with
  | nil =>
    have hA : s.allocID b = ({ s with nCell := s.nCell + 1, nBuf := s.nBuf + b.toNat
                                      order := { s.order with size := s.size + 1 } }, s.size) := by
      simp [SubnetBuilder.allocID, he, SubnetBuilder.size]
    rw [hA]
    refine ⟨rfl, rfl, rfl, rfl, rfl, rfl, ?_, ?_, h.nodup, fun i => ?_, fun i hi => ?_, .inr rfl⟩
    · simp [SubnetBuilder.size]
    · simp [SubnetBuilder.size]
    · simp [he]
    · exact ⟨fun h => Nat.lt_of_le_of_ne (Nat.lt_succ_iff.mp h) hi, Nat.lt_succ_of_lt⟩
  | cons a rest =>
    have hA : s.allocID b = ({ s with nCell := s.nCell + 1, nBuf := s.nBuf + b.toNat
                                      emptyEntryIDs := rest }, a) := by
      simp [SubnetBuilder.allocID, he]
    have hnd := h.nodup
    rw [he] at hnd
    obtain ⟨ha, hrest⟩ := List.nodup_cons.mp hnd
    rw [hA]
    refine ⟨rfl, rfl, rfl, rfl, rfl, rfl, Nat.le_refl _, h.free a (by simp [he]), hrest,
      fun i => ?_, fun _ _ => Iff.rfl, .inl (by simp [he])⟩
    simp only [he, List.mem_cons]
    constructor
    · intro hi
      exact ⟨.inr hi, by rintro rfl; exact ha hi⟩
    · rintro ⟨rfl | hi, hne⟩
      exacts [absurd rfl hne, hi]

theorem Allocated.dead {b : Bool} (h : Allocated s s₁ b idx) : s.liveCell idx = none := by
  unfold SubnetBuilder.liveCell getCell
  rcases h.fresh with hf | hf
  · simp [hf]
  · simp [hf]

private theorem Allocated.liveCell {b : Bool} (h : Allocated s s₁ b idx)
    (f : StrashKey → Option EntryID) (c : SubnetCell) (i : EntryID) :
    (({ s₁ with strash := f } : SubnetBuilder).setCell idx c).liveCell i =
      if i = idx then some c else s.liveCell i := by
  have hf := h.free i
  by_cases hi : i = idx
  · subst hi
    rw [if_pos rfl]
    apply liveCell_eq_some.mpr
    refine ⟨fun hmem => ((h.free i).mp hmem).2 rfl, h.lt, ?_⟩
    simp [setCell]
  · rw [if_neg hi]
    unfold SubnetBuilder.liveCell getCell
    have hu := h.used i hi
    have he : (({ s₁ with strash := f } : SubnetBuilder).setCell idx c).entries i =
        s.entries i := by
      simp [setCell, update_of_ne hi, h.entries]
    have hm : i ∈ (({ s₁ with strash := f } : SubnetBuilder).setCell idx c).emptyEntryIDs ↔
        i ∈ s.emptyEntryIDs := by
      simp [setCell, hf, hi]
    have hs : i < (({ s₁ with strash := f } : SubnetBuilder).setCell idx c).size ↔ i < s.size := hu
    simp only [hm, hs, he]

theorem NetInv.allocated {b : Bool} {f : StrashKey → Option EntryID} (h : NetInv s V)
    (ha : Allocated s s₁ b idx) (hc : c.refcount = 0)
    (hf : ∀ k i, f k = some i → s.strash k = some i ∨ i = idx ∧ c.isEnabled ∧ c.key = k) :
    NetInv (({ s₁ with strash := f } : SubnetBuilder).setCell idx c) V := by
  let s' := ({ s₁ with strash := f } : SubnetBuilder).setCell idx c
  have hlive := ha.liveCell f c
  have hne : ∀ i, ∀ j ∈ V i, j ≠ idx := by
    rintro i j hj rfl
    obtain ⟨c, hc, -⟩ := h.target i j hj
    rw [ha.dead] at hc
    cases hc
  have husers : ∀ j, users (range s₁.size) V j = users (range s.size) V j := fun j =>
    (users_subset (range_subset_range.mpr ha.le) (fun i _ hi => by
      by_contra hV
      exact hi (mem_range.mpr (h.user i hV)))).symm
  have hzero : users (range s.size) V idx = 0 :=
    users_eq_zero.mpr (fun i _ hmem => hne i idx hmem rfl)
  refine ⟨ha.nodup, fun i hi => ?_, fun i hi => Nat.lt_of_lt_of_le (h.user i hi) ha.le,
    fun i j hj => ?_, fun i a hia => ?_, fun he i => ?_, fun k i hk => ?_⟩
  · exact Nat.lt_of_lt_of_le (h.free i ((ha.free i).mp hi).1) ha.le
  · obtain ⟨a, haj, ht⟩ := h.target i j hj
    exact ⟨a, by rw [hlive, if_neg (hne i j hj), haj], ht⟩
  · change a.refcount = (users (range s₁.size) V i).card
    rw [husers]
    rw [hlive] at hia
    split at hia
    · rename_i hi
      cases hia
      rw [hi, hzero, hc, Multiset.card_zero]
    · exact h.refcount i a hia
  · change (s₁.fanouts i : Multiset EntryID) = users (range s₁.size) V i
    rw [husers, ha.fanouts]
    exact h.fanouts (ha.enabled ▸ he) i
  · rcases hf k i hk with hk | ⟨rfl, he, hkey⟩
    · obtain ⟨a, haj, hrest⟩ := h.strash k i hk
      have hi : i ≠ idx := by
        rintro rfl
        rw [ha.dead] at haj
        cases haj
      exact ⟨a, by rw [hlive, if_neg hi, haj], hrest⟩
    · exact ⟨c, by rw [hlive, if_pos rfl], he, hkey⟩

private theorem getCell_setCell_of_ne (h : j ≠ idx) :
    (s.setCell idx c).getCell j = s.getCell j := by
  unfold getCell setCell
  simp only [update_of_ne h]
  rfl

private theorem addLink_setCell (h : j ≠ idx) :
    (s.setCell idx c).addLink u j = (s.addLink u j).map (fun s => s.setCell idx c) := by
  unfold SubnetBuilder.addLink addFanout
  have hsize : (s.setCell idx c).size = s.size := rfl
  simp only [hsize, bind_eq_bind]
  split
  · rfl
  · simp only [bind_some, incRefCount]
    have hcell : ∀ f, ((s.setCell idx c).setFanouts f).getCell j = (s.setFanouts f).getCell j :=
      fun f => getCell_setCell_of_ne (s := s.setFanouts f) h
    rw [show (s.setCell idx c).fanoutsEnabled = s.fanoutsEnabled from rfl,
      show (s.setCell idx c).fanouts = s.fanouts from rfl, hcell]
    cases (s.setFanouts (if s.fanoutsEnabled then
      update s.fanouts j (s.fanouts j ++ [u]) else s.fanouts)).getCell j with
    | none => rfl
    | some a =>
      simp only [bind_eq_bind, bind_some, Option.map_some, Option.some.injEq]
      simp [setCell, setFanouts, Function.update_comm h]

private theorem addNewLinks_setCell : ∀ {links : List Link} {s : SubnetBuilder},
    (∀ l ∈ links, l.idx ≠ idx) → addNewLinks u links (s.setCell idx c) =
      (addNewLinks u links s).map (fun s => s.setCell idx c) := by
  intro links
  induction links with
  | nil => intro s _; rfl
  | cons l links ih =>
    intro s h
    have hl := h l (by simp)
    simp only [addNewLinks, getCell_setCell_of_ne hl, addLink_setCell hl, bind_eq_bind]
    cases s.getCell l.idx with
    | none => rfl
    | some a =>
      simp only [bind_some]
      split
      · rfl
      · cases s.addLink u l.idx with
        | none => rfl
        | some s₁ => exact ih (fun k hk => h k (by simp [hk]))

structure Extended (s s' : SubnetBuilder) : Prop where
  le : s.size ≤ s'.size
  entries : ∀ i, i < s.size → s'.entries i = s.entries i
  links : ∀ i, s.size ≤ i → i < s'.size → (s'.entries i).gate = none
  free : s'.emptyEntryIDs = s.emptyEntryIDs
  strash : s'.strash = s.strash
  fanouts : s'.fanouts = s.fanouts
  enabled : s'.fanoutsEnabled = s.fanoutsEnabled
  counts : (s'.nIn, s'.nOut, s'.nCell, s'.nBuf) = (s.nIn, s.nOut, s.nCell, s.nBuf)

theorem Extended.liveCell (h : Extended s s') : s'.liveCell = s.liveCell := by
  funext i
  unfold SubnetBuilder.liveCell getCell
  rw [h.free]
  split
  · rfl
  · by_cases hi : i < s.size
    · rw [if_pos hi, if_pos (Nat.lt_of_lt_of_le hi h.le), h.entries i hi]
    · rw [if_neg hi]
      split
      · rename_i hi'
        have hg := h.links i (Nat.not_lt.mp hi) hi'
        cases he : s'.entries i with
        | links ls => rfl
        | cell c => simp [he, Entry.gate] at hg
      · rfl

theorem NetInv.extended (h : NetInv s V) (he : Extended s s') : NetInv s' V := by
  have husers : ∀ j, users (range s'.size) V j = users (range s.size) V j := fun j =>
    (users_subset (range_subset_range.mpr he.le) (fun i _ hi => by
      by_contra hV
      exact hi (mem_range.mpr (h.user i hV)))).symm
  refine ⟨he.free ▸ h.nodup, fun i hi => Nat.lt_of_lt_of_le (h.free i (he.free ▸ hi)) he.le,
    fun i hi => Nat.lt_of_lt_of_le (h.user i hi) he.le, fun i j hj => ?_, fun i c hc => ?_,
    fun hen i => ?_, fun k i hk => ?_⟩
  · rw [he.liveCell]
    exact h.target i j hj
  · rw [he.liveCell] at hc
    rw [husers]
    exact h.refcount i c hc
  · rw [husers, he.fanouts]
    exact h.fanouts (he.enabled ▸ hen) i
  · rw [he.liveCell]
    exact h.strash k i (he.strash ▸ hk)

theorem Extended.addLinkEntries {d : ℕ} : ∀ {n : ℕ} {p : EntryID} {links : List Link}
    {s : SubnetBuilder}, addLinkEntries d n p links s = some s' → Extended s s' := by
  intro n
  induction n with
  | zero =>
    intro p links s h
    cases h
    exact ⟨Nat.le_refl _, fun _ _ => rfl, fun i h₁ h₂ => absurd h₁ (Nat.not_le.mpr h₂),
      rfl, rfl, rfl, rfl, rfl⟩
  | succ n ih =>
    intro p links s h
    simp only [SubnetBuilder.addLinkEntries, bind_eq_bind] at h
    obtain ⟨o, ho, h⟩ := bind_eq_some_iff.mp h
    have hsize := EntryOrder.setOrder_size ho
    have ih := ih h
    have hs : ({ s with order := o
                        entries := update s.entries s.size
                          (.links (links.take InEntryLinks)) } : SubnetBuilder).size = s.size + 1 :=
      hsize
    have hle := ih.le
    rw [hs] at hle
    refine ⟨Nat.le_of_succ_le hle, fun i hi => ?_, fun i h₁ h₂ => ?_, ih.free, ih.strash,
      ih.fanouts, ih.enabled, ih.counts⟩
    · rw [ih.entries i (by rw [hs]; exact Nat.lt_succ_of_lt hi)]
      exact update_of_ne (Nat.ne_of_lt hi) _ _
    · by_cases hi : i = s.size
      · subst hi
        rw [ih.entries s.size (by rw [hs]; exact Nat.lt_succ_self _)]
        simp [Entry.gate]
      · exact ih.links i (by rw [hs]; exact Nat.succ_le_of_lt (Nat.lt_of_le_of_ne h₁ (Ne.symm hi)))
          h₂

theorem Stored.of_addLinkEntries {d : ℕ} :
    ∀ {n : ℕ} {p : EntryID} {links : List Link} {s : SubnetBuilder},
    addLinkEntries d n p links s = some s' →
    n = (links.length + (InEntryLinks - 1)) / InEntryLinks →
    Stored s'.entries (List.range' s.size n) links := by
  intro n
  induction n with
  | zero =>
    intro p links s _ hlen
    apply List.length_eq_zero_iff.mp
    simp only [InEntryLinks] at hlen
    omega
  | succ n ih =>
    intro p links s h hlen
    simp only [addLinkEntries, bind_eq_bind] at h
    obtain ⟨o, ho, h⟩ := bind_eq_some_iff.mp h
    have hsize : o.size = s.size + 1 := EntryOrder.setOrder_size ho
    have hext := Extended.addLinkEntries h
    have hrest := ih h (by
      rw [List.length_drop]
      simp only [InEntryLinks] at hlen ⊢
      omega)
    rw [List.range'_succ]
    refine ⟨?_, ?_, ?_⟩
    · rintro rfl
      cases hlen
    · have hold := hext.entries s.size (Nat.lt_of_lt_of_eq (Nat.lt_succ_self _) hsize.symm)
      exact hold.trans (update_self ..)
    · rw [← hsize]
      exact hrest

/-- A cell was put into the entry `idx`, which was not in use. -/
structure Created (s s' : SubnetBuilder) (t : CellTypeID) (links : List Link) (idx : EntryID) :
    Prop where
  dead : s.liveCell idx = none
  here : s'.liveCell idx = some ⟨t, links, 0⟩
  old : ∀ i c, s.liveCell i = some c → ∃ n, s'.liveCell i = some { c with refcount := n }
  only : ∀ i c, s'.liveCell i = some c → i ≠ idx → ∃ n, s.liveCell i = some { c with refcount := n }
  strash : ∀ k i, s'.strash k = some i → s.strash k = some i ∨ i = idx
  enabled : s'.fanoutsEnabled = s.fanoutsEnabled
  counts : (s'.nIn, s'.nOut, s'.nCell, s'.nBuf) =
    (s.nIn, s.nOut, s.nCell + 1, s.nBuf + (decide (t = .BUF)).toNat)
  le : s.size ≤ s'.size
  fresh : idx ∈ s.emptyEntryIDs ∨ idx = s.size
  free : ∀ i, i ∈ s'.emptyEntryIDs ↔ i ∈ s.emptyEntryIDs ∧ i ≠ idx

theorem Created.congr {s₂ : SubnetBuilder} (h : Created s s₂ t links idx)
    (hlive : s'.liveCell = s₂.liveCell) (hstrash : s'.strash = s₂.strash)
    (he : s'.fanoutsEnabled = s₂.fanoutsEnabled)
    (hc : (s'.nIn, s'.nOut, s'.nCell, s'.nBuf) = (s₂.nIn, s₂.nOut, s₂.nCell, s₂.nBuf))
    (hle : s₂.size ≤ s'.size) (hf : s'.emptyEntryIDs = s₂.emptyEntryIDs) :
    Created s s' t links idx :=
  ⟨h.dead, by rw [hlive, h.here], fun i c hi => hlive ▸ h.old i c hi,
    fun i c hi => h.only i c (hlive ▸ hi), fun k i hk => h.strash k i (hstrash ▸ hk),
    he.trans h.enabled, hc.trans h.counts, Nat.le_trans h.le hle, h.fresh, fun i => hf ▸ h.free i⟩

theorem linksDepth_allocated {b : Bool} (h : Allocated s s₁ b idx) (links : List Link) :
    s₁.order.linksDepth links = s.order.linksDepth links := by
  rw [h.order]
  rfl

private theorem NetInv.registered {f : StrashKey → Option EntryID} (h : NetInv s V)
    (ha : Allocated s s₁ (decide (t = .BUF)) idx) (hV : V idx = []) (hl : s.ValidLinks links)
    (hf : ∀ k i, f k = some i → s.strash k = some i ∨
      i = idx ∧ StrashKey.isEnabled t links ∧ StrashKey.make t links = k) :
    ∃ s₂ s₃, addNewLinks idx links { s₁ with strash := f } = some s₂ ∧
      s₂.setCell idx ⟨t, links, 0⟩ = s₃ ∧
      NetInv s₃ (update V idx (links.map Link.idx)) ∧ Created s s₃ t links idx ∧
      s₃.order = s₁.order ∧ s₃.strash = f := by
  let c : SubnetCell := ⟨t, links, 0⟩
  let sA : SubnetBuilder := { s₁ with strash := f }
  have hne : ∀ l ∈ links, l.idx ≠ idx := by
    intro l hmem heq
    obtain ⟨c, hc, -⟩ := hl l hmem
    rw [heq, ha.dead] at hc
    cases hc
  have hlive := ha.liveCell f c
  have hkey : StrashKey.isEnabled t links → c.isEnabled ∧ c.key = StrashKey.make t links := by
    intro he
    simp only [StrashKey.isEnabled, Bool.and_eq_true, decide_eq_true_eq] at he
    refine ⟨?_, ?_⟩
    · simp [SubnetCell.isEnabled, SubnetCell.isIn, SubnetCell.isOut, SubnetCell.arity, c, he]
    · simp [SubnetCell.key, c, List.take_of_length_le he.2]
  have hA : NetInv (sA.setCell idx c) V := by
    refine h.allocated ha rfl (fun k i hk => ?_)
    rcases hf k i hk with hk | ⟨hi, he, hk⟩
    · exact .inl hk
    · exact .inr ⟨hi, (hkey he).1, (hkey he).2.trans hk⟩
  have hlA : (sA.setCell idx c).ValidLinks links := by
    intro l hmem
    rw [hlive, if_neg (hne l hmem)]
    exact hl l hmem
  obtain ⟨s₃, -, hs₃, h₃, hsame⟩ := hA.addLinks (u := idx) ha.lt hlA
  rw [addNewLinks_setCell hne] at hs₃
  obtain ⟨s₂, hs₂, hset⟩ := Option.map_eq_some_iff.mp hs₃
  rw [hV, List.append_nil] at h₃
  obtain ⟨n, hn⟩ := hsame.liveCell (i := idx) (c := c) (by rw [hlive, if_pos rfl])
  have hn0 : n = 0 := by
    have hcard := h₃.refcount idx _ hn
    have hzero : users (range s₃.size) (update V idx (links.map Link.idx)) idx = 0 := by
      rw [users_eq_zero]
      intro i _ hmem
      by_cases hi : i = idx
      · rw [hi, update_self] at hmem
        obtain ⟨l, hlm, hli⟩ := List.mem_map.mp hmem
        exact hne l hlm hli
      · rw [update_of_ne hi] at hmem
        obtain ⟨a, haa, -⟩ := h.target i idx hmem
        rw [ha.dead] at haa
        cases haa
    rw [hzero, Multiset.card_zero] at hcard
    exact hcard
  subst hn0
  refine ⟨s₂, s₃, hs₂, hset, h₃, ?_, hsame.order, hsame.strash⟩
  have hcounts := ha.counts
  refine ⟨ha.dead, hn, fun i a hi => ?_, fun i a hi hidx => ?_, fun k i hk => ?_,
    hsame.enabled.trans ha.enabled, hsame.counts.trans hcounts, ?_, ha.fresh, fun i => ?_⟩
  · refine hsame.liveCell (c := a) ?_
    rw [hlive, if_neg (by rintro rfl; rw [ha.dead] at hi; cases hi), hi]
  · obtain ⟨k, hk⟩ := hsame.symm.liveCell hi
    rw [hlive, if_neg hidx] at hk
    exact ⟨k, hk⟩
  · rw [hsame.strash] at hk
    rcases hf k i hk with hk | ⟨hi, -⟩
    exacts [.inl hk, .inr hi]
  · rw [hsame.size]
    exact ha.le
  · rw [hsame.free]
    exact ha.free i

/-- The end of `fillEntry`: the entries of the links that do not fit into the cell. -/
def chainLinks (s : SubnetBuilder) (d : ℕ) (idx : EntryID) (t : CellTypeID) (links : List Link) :
    Option SubnetBuilder :=
  if links.length ≤ InPlaceLinks then some s
  else do
    let saveNextEntryID ← s.order.getNext (.entry idx)
    let s ← addLinkEntries d (SubnetCell.more ⟨t, links, 0⟩) idx (links.drop InPlaceLinks) s
    some { s with order := ← s.order.setOrder (.entry (s.size - 1)) saveNextEntryID }

theorem NetInv.fillEntry {f : StrashKey → Option EntryID} (h : NetInv s V)
    (ha : Allocated s s₁ (decide (t = .BUF)) idx) (hV : V idx = []) (hl : s.ValidLinks links)
    (hf : ∀ k i, f k = some i → s.strash k = some i ∨
      i = idx ∧ StrashKey.isEnabled t links ∧ StrashKey.make t links = k) :
    ∃ s₃, NetInv s₃ (update V idx (links.map Link.idx)) ∧ Created s s₃ t links idx ∧
      s₃.order = s₁.order ∧
      (∀ s', ({ s₁ with strash := f } : SubnetBuilder).fillEntry idx t links = some s' →
        NetInv s' (update V idx (links.map Link.idx)) ∧ Created s s' t links idx) ∧
      s₃.strash = f ∧ (∃ s₂, addNewLinks idx links { s₁ with strash := f } = some s₂ ∧
        s₂.setCell idx ⟨t, links, 0⟩ = s₃) ∧
      ({ s₁ with strash := f } : SubnetBuilder).fillEntry idx t links =
        ((s₁.order.setDepth idx (some (s.order.linksDepth links))).addDepthBounds
          s₃.getTypeID idx).bind (fun o => ({ s₃ with order := o } : SubnetBuilder).chainLinks
            (s.order.linksDepth links) idx t links) := by
  obtain ⟨s₂, s₃, hs₂, hs₃, h₃, hc₃, ho₃, hf₃⟩ := h.registered ha hV hl hf
  have hdepth : ({ s₁ with strash := f } : SubnetBuilder).order.linksDepth links =
      s.order.linksDepth links := linksDepth_allocated ha links
  refine ⟨s₃, h₃, hc₃, ho₃, fun s' hs' => ?_, hf₃, ⟨s₂, hs₂, hs₃⟩, ?_⟩
  · simp only [SubnetBuilder.fillEntry, hs₂, bind_eq_bind, bind_some, hs₃] at hs'
    obtain ⟨o, ho, hs'⟩ := bind_eq_some_iff.mp hs'
    have hsize : o.size = s₃.order.size := (EntryOrder.addDepthBounds_size ho).trans rfl
    have h₄ := h₃.setOrder hsize
    have hc₄ : Created s { s₃ with order := o } t links idx :=
      hc₃.congr (liveCell_setOrder hsize) rfl rfl rfl (Nat.le_of_eq hsize.symm) rfl
    split at hs'
    · cases hs'
      exact ⟨h₄, hc₄⟩
    · obtain ⟨n, -, hs'⟩ := bind_eq_some_iff.mp hs'
      obtain ⟨s₅, hs₅, hs'⟩ := bind_eq_some_iff.mp hs'
      obtain ⟨o', ho', hs'⟩ := bind_eq_some_iff.mp hs'
      cases hs'
      have hext := Extended.addLinkEntries hs₅
      have hsize' := EntryOrder.setOrder_size ho'
      refine ⟨(h₄.extended hext).setOrder hsize',
        hc₄.congr ?_ hext.strash hext.enabled hext.counts ?_ hext.free⟩
      · rw [liveCell_setOrder hsize', hext.liveCell]
      · exact Nat.le_trans hext.le (Nat.le_of_eq hsize'.symm)
  · simp only [SubnetBuilder.fillEntry, hs₂, bind_eq_bind, bind_some, hs₃, hdepth, ho₃,
      chainLinks]

/-- `allocEntry` reads the ends of the order anew. -/
def withEnds (s : SubnetBuilder) : SubnetBuilder :=
  { s with order := { s.order with
    subnetBegin := s.order.getSubnetBegin, subnetEnd := s.order.getSubnetEnd } }

theorem NetInv.withEnds (h : NetInv s V) : NetInv s.withEnds V := h.setOrder rfl

theorem liveCell_withEnds : s.withEnds.liveCell = s.liveCell := liveCell_setOrder rfl

theorem netlist_withEnds : s.withEnds.netlist = s.netlist := by
  funext i
  simp only [SubnetBuilder.netlist, liveCell_withEnds]

/-- Without a key the cell gets an entry of its own. -/
theorem allocEntry_unhashed (h : s.withEnds.strashEntry t links = (s₁, none)) :
    s.allocEntry t links = ((s₁.allocID (t = .BUF)).1.fillEntry (s₁.allocID (t = .BUF)).2 t
    links).map (·, (s₁.allocID (t = .BUF)).2) := by
  unfold SubnetBuilder.withEnds at h
  simp only [SubnetBuilder.allocEntry, h]

private theorem allocEntry_hashed {found : Bool}
    (h : s.withEnds.strashEntry t links = (s₁, some (idx, found))) :
    s.allocEntry t links = if found then (s₁.fillEntry idx t links).map (·, idx) else
    some (s₁, idx) := by
  unfold SubnetBuilder.withEnds at h
  cases found <;> simp [SubnetBuilder.allocEntry, h]

theorem NetInv.allocEntry (h : NetInv s V) (t : CellTypeID) (links : List Link) :
    (∃ idx, StrashKey.isEnabled t links = true ∧ s.strash (StrashKey.make t links) = some idx ∧
      s.allocEntry t links = some (s.withEnds, idx)) ∨
    ∃ s₁ idx f, Allocated s.withEnds s₁ (decide (t = .BUF)) idx ∧
      s.allocEntry t links =
        (({ s₁ with strash := f } : SubnetBuilder).fillEntry idx t links).map (·, idx) ∧
      ∀ k i, f k = some i → s.strash k = some i ∨
        i = idx ∧ StrashKey.isEnabled t links ∧ StrashKey.make t links = k := by
  have h₀ : NetInv s.withEnds V := h.withEnds
  have ha := h₀.allocID (decide (t = .BUF))
  cases he : StrashKey.isEnabled t links with
  | false =>
    have hs : s.withEnds.strashEntry t links = (s.withEnds, none) := by simp [strashEntry, he]
    rw [allocEntry_unhashed hs]
    exact .inr ⟨_, _, s.strash,
      ha, by rw [← show _ = s.strash from ha.strash], fun k i hk => .inl hk⟩
  | true =>
    cases hk : s.strash (StrashKey.make t links) with
    | some idx =>
      have hk₀ : s.withEnds.strash (StrashKey.make t links) = some idx := hk
      have hs : s.withEnds.strashEntry t links = (s.withEnds, some (idx, false)) := by
        simp [strashEntry, he, hk₀]
      exact .inl ⟨idx, rfl, rfl, allocEntry_hashed hs⟩
    | none =>
      have hk₀ : s.withEnds.strash (StrashKey.make t links) = none := hk
      have hs : s.withEnds.strashEntry t links =
          ({ (s.withEnds.allocID (t = .BUF)).1 with
              strash := update (s.withEnds.allocID (t = .BUF)).1.strash
                (StrashKey.make t links) (some (s.withEnds.allocID (t = .BUF)).2) },
            some ((s.withEnds.allocID (t = .BUF)).2, true)) := by
        simp [strashEntry, he, hk₀]
      refine .inr ⟨_, _, _, ha, allocEntry_hashed hs, fun k i hki => ?_⟩
      by_cases hkey : k = StrashKey.make t links
      · rw [hkey, update_self] at hki
        cases hki
        exact .inr ⟨rfl, rfl, hkey.symm⟩
      · rw [update_of_ne hkey, show _ = s.strash from ha.strash] at hki
        exact .inl hki

theorem Created.netlist (h : Created s s' t links idx) (i : EntryID) :
    s'.netlist i = if i = idx then some ⟨t, links⟩ else s.netlist i := by
  split
  · rename_i hi
    rw [hi, netlist_of_live h.here]
  · rename_i hi
    cases hc : s.liveCell i with
    | some c =>
      obtain ⟨n, hn⟩ := h.old i c hc
      rw [netlist_of_live hn, netlist_of_live hc]
    | none =>
      cases hc' : s'.liveCell i with
      | none => simp [SubnetBuilder.netlist, hc, hc']
      | some c =>
        obtain ⟨n, hn⟩ := h.only i c hc' hi
        simp [hc] at hn

theorem Created.targets (h : Created s s' t links idx) :
    s'.targets = update s.targets idx (links.map Link.idx) := by
  funext i
  rw [targets_eq_netlist, h.netlist]
  split
  · rename_i hi
    simp [hi]
  · rename_i hi
    rw [update_of_ne hi, targets_eq_netlist]

/-- The entry `idx` holds a cell with the requested function, an old or a new one; the other
cells are as before. -/
structure Added (s s' : SubnetBuilder) (t : CellTypeID) (links : List Link) (idx : EntryID) :
    Prop where
  other : ∀ i, i ≠ idx → s'.netlist i = s.netlist i
  here : ∃ ls, s'.netlist idx = some ⟨t, ls⟩ ∧ StrashKey.make t ls = StrashKey.make t links
  old : s.netlist idx = none ∨
    s'.netlist idx = s.netlist idx ∧ s.strash (StrashKey.make t links) = some idx
  strash : ∀ k i, s'.strash k = some i → s.strash k = some i ∨ i = idx
  enabled : s'.fanoutsEnabled = s.fanoutsEnabled

theorem NetInv.setCounts {a b : ℕ} (h : NetInv s V) : NetInv { s with nIn := a, nOut := b } V :=
  ⟨h.nodup, h.free, h.user, h.target, h.refcount, h.fanouts, h.strash⟩

private theorem NetInv.found (h : NetInv s V) (hk : s.strash (StrashKey.make t links) = some idx) :
    Added s s t links idx := by
  obtain ⟨c, hc, he, hkey⟩ := h.strash _ _ hk
  have hlen : c.links.take InPlaceLinks = c.links := by
    simp only [SubnetCell.isEnabled, SubnetCell.arity, Bool.and_eq_true] at he
    exact List.take_of_length_le (of_decide_eq_true he.2)
  rw [SubnetCell.key, hlen] at hkey
  have ht : c.type = t := congrArg StrashKey.typeID hkey
  exact ⟨fun _ _ => rfl, ⟨c.links, by rw [netlist_of_live hc, ht], ht ▸ hkey⟩, .inr ⟨rfl, hk⟩,
    fun _ _ hk => .inl hk, rfl⟩

private theorem Created.added (h : Created s s' t links idx) : Added s s' t links idx :=
  ⟨fun i hi => by rw [h.netlist, if_neg hi], ⟨links, by rw [h.netlist, if_pos rfl], rfl⟩,
    .inl (by simp [SubnetBuilder.netlist, h.dead]), h.strash, h.enabled⟩

theorem targets_of_dead (h : s.liveCell i = none) : s.targets i = [] := by
  simp [SubnetBuilder.targets, h]

theorem Created.of_withEnds (h : Created s.withEnds s' t links idx) :
    Created s s' t links idx := by
  have hlive := liveCell_withEnds (s := s)
  refine ⟨hlive ▸ h.dead, h.here, fun j c hj => h.old j c (hlive ▸ hj), fun j c hj hne => ?_,
    h.strash, h.enabled, h.counts, h.le, h.fresh, h.free⟩
  obtain ⟨n, hn⟩ := h.only j c hj hne
  exact ⟨n, hlive ▸ hn⟩

theorem NetInv.of_allocEntry (h : NetInv s s.targets) (hl : s.ValidLinks links)
    (hs₁ : s.allocEntry t links = some (s₁, idx)) :
    (s₁ = s.withEnds ∧ s.strash (StrashKey.make t links) = some idx) ∨
      (NetInv s₁ s₁.targets ∧ Created s s₁ t links idx) := by
  rcases h.allocEntry t links with ⟨i, -, hk, hall⟩ | ⟨sA, i, f, ha, hall, hf⟩
  · rw [hall] at hs₁
    cases hs₁
    exact .inl ⟨rfl, hk⟩
  · rw [hall] at hs₁
    obtain ⟨s₂, hs₂, heq⟩ := Option.map_eq_some_iff.mp hs₁
    cases heq
    have hdead : s.liveCell idx = none := by
      rw [← liveCell_withEnds]
      exact ha.dead
    have hvalid : s.withEnds.ValidLinks links := by
      intro l hmem
      rw [liveCell_withEnds]
      exact hl l hmem
    obtain ⟨-, -, -, -, hfill, -⟩ :=
      NetInv.fillEntry h.withEnds ha (targets_of_dead hdead) hvalid hf
    obtain ⟨h₂, hc₂⟩ := hfill _ hs₂
    have hc : Created s s₁ t links idx := hc₂.of_withEnds
    exact .inr ⟨hc.targets ▸ h₂, hc⟩

theorem NetInv.of_addCell {r : Link} (h : NetInv s s.targets) (hl : s.ValidLinks links)
    (hadd : s.addCell t links = some (s', r)) :
    NetInv s' s'.targets ∧ r = ⟨r.idx, 0, false⟩ ∧ Added s s' t links r.idx := by
  unfold SubnetBuilder.addCell at hadd
  split at hadd
  · cases hadd
  · simp only [bind_eq_bind] at hadd
    obtain ⟨⟨s₁, idx⟩, hs₁, hadd⟩ := bind_eq_some_iff.mp hadd
    cases hadd
    suffices hnet : NetInv s₁ s₁.targets ∧ Added s s₁ t links idx from
      ⟨hnet.1.setCounts, rfl, ⟨hnet.2.other, hnet.2.here, hnet.2.old, hnet.2.strash,
        hnet.2.enabled⟩⟩
    rcases h.of_allocEntry hl hs₁ with ⟨rfl, hk⟩ | ⟨h₁, hc⟩
    · have htar : s.withEnds.targets = s.targets := by
        funext j
        simp only [SubnetBuilder.targets, liveCell_withEnds]
      have hfound := h.found hk
      refine ⟨htar ▸ h.withEnds, fun j _ => ?_, ?_, ?_, hfound.strash, rfl⟩
      · rw [netlist_withEnds]
      · exact netlist_withEnds ▸ hfound.here
      · exact .inr ⟨by rw [netlist_withEnds], hk⟩
    · exact ⟨h₁, hc.added⟩

theorem NetInv.addCell_counts {r : Link} (h : NetInv s s.targets) (hl : s.ValidLinks links)
    (hadd : s.addCell t links = some (s', r)) :
    (s'.nIn, s'.nOut) = (s.nIn + (decide (t = .IN)).toNat, s.nOut + (decide (t = .OUT)).toNat) := by
  unfold SubnetBuilder.addCell at hadd
  split at hadd
  · cases hadd
  · simp only [bind_eq_bind] at hadd
    obtain ⟨⟨s₁, idx⟩, hs₁, hadd⟩ := bind_eq_some_iff.mp hadd
    cases hadd
    rcases h.of_allocEntry hl hs₁ with ⟨rfl, -⟩ | ⟨-, hc⟩
    · rfl
    · have hcounts := hc.counts
      simp only [Prod.mk.injEq] at hcounts
      simp only [hcounts]

end UtopiaEda.SubnetBuilder
