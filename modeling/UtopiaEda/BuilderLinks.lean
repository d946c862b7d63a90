import UtopiaEda.SubnetBuilder
import UtopiaEda.Incidence

/-!
# Links, reference counts and fanouts of a builder

`NetInv s V` relates the reference counts, the fanout lists and the hash table of `s` to
the links `V` between the entries. Between the steps of an operation `V` may differ from the
links that the cells hold; `targets` gives the latter.
-/
namespace UtopiaEda.SubnetBuilder

open Function (update update_self update_of_ne)
open Incidence Finset

variable {s s' s'' : SubnetBuilder} {V V' : EntryID → List EntryID} {i j u : EntryID}
  {c : SubnetCell}

def liveCell (s : SubnetBuilder) (i : EntryID) : Option SubnetCell :=
  if i ∈ s.emptyEntryIDs then none else s.getCell i

def netlist (s : SubnetBuilder) : Netlist :=
  fun i => (s.liveCell i).map (fun c => ⟨c.type, c.links⟩)

def targets (s : SubnetBuilder) (i : EntryID) : List EntryID :=
  ((s.liveCell i).map (fun c => c.links.map Link.idx)).getD []

/-- The links `V` are registered: reference counts and fanout lists follow them, and the
hash table leads to cells with the right key. -/
structure NetInv (s : SubnetBuilder) (V : EntryID → List EntryID) : Prop where
  nodup : s.emptyEntryIDs.Nodup
  free : ∀ i ∈ s.emptyEntryIDs, i < s.size
  user : ∀ i, V i ≠ [] → i < s.size
  target : ∀ i, ∀ j ∈ V i, ∃ c, s.liveCell j = some c ∧ c.type ≠ .OUT
  refcount : ∀ i c, s.liveCell i = some c → c.refcount = (users (range s.size) V i).card
  fanouts : s.fanoutsEnabled = true →
    ∀ i, (s.fanouts i : Multiset EntryID) = users (range s.size) V i
  strash : ∀ k i, s.strash k = some i → ∃ c, s.liveCell i = some c ∧ c.isEnabled ∧ c.key = k

/-- Nothing but reference counts and fanout lists differs. -/
structure SameNet (s s' : SubnetBuilder) : Prop where
  gate : ∀ i, (s'.entries i).gate = (s.entries i).gate
  order : s'.order = s.order
  free : s'.emptyEntryIDs = s.emptyEntryIDs
  strash : s'.strash = s.strash
  enabled : s'.fanoutsEnabled = s.fanoutsEnabled
  counts : (s'.nIn, s'.nOut, s'.nCell, s'.nBuf) = (s.nIn, s.nOut, s.nCell, s.nBuf)

theorem SameNet.refl (s : SubnetBuilder) : SameNet s s := ⟨fun _ => rfl, rfl, rfl, rfl, rfl, rfl⟩

theorem SameNet.trans (h : SameNet s s') (h' : SameNet s' s'') : SameNet s s'' :=
  ⟨fun i => (h'.gate i).trans (h.gate i), h'.order.trans h.order, h'.free.trans h.free,
    h'.strash.trans h.strash, h'.enabled.trans h.enabled, h'.counts.trans h.counts⟩

theorem SameNet.size (h : SameNet s s') : s'.size = s.size := congrArg EntryOrder.size h.order

theorem getCell_eq_some : s.getCell i = some c ↔ i < s.size ∧ s.entries i = .cell c := by
  unfold getCell
  cases he : s.entries i <;> simp

theorem liveCell_eq_some :
    s.liveCell i = some c ↔ i ∉ s.emptyEntryIDs ∧ i < s.size ∧ s.entries i = .cell c := by
  unfold liveCell
  split
  · simp_all
  · rw [getCell_eq_some]
    simp_all

theorem getCell_of_live (h : s.liveCell i = some c) : s.getCell i = some c :=
  getCell_eq_some.mpr (liveCell_eq_some.mp h).2

theorem lt_of_live (h : s.liveCell i = some c) : i < s.size := (liveCell_eq_some.mp h).2.1

theorem getTypeID_of_live (h : s.liveCell i = some c) : s.getTypeID i = c.type := by
  simp [getTypeID, (liveCell_eq_some.mp h).2.2, Entry.gate]

theorem targets_of_live (h : s.liveCell i = some c) : s.targets i = c.links.map Link.idx := by
  simp [targets, h]

theorem netlist_of_live (h : s.liveCell i = some c) : s.netlist i = some ⟨c.type, c.links⟩ := by
  simp [netlist, h]

theorem netlist_isSome : (s.netlist i).isSome = (s.liveCell i).isSome := by simp [netlist]

theorem SameNet.liveCell (h : SameNet s s') (hc : s.liveCell i = some c) :
    ∃ n, s'.liveCell i = some { c with refcount := n } := by
  obtain ⟨hf, hlt, he⟩ := liveCell_eq_some.mp hc
  have hg := h.gate i
  rw [he] at hg
  cases he' : s'.entries i with
  | links ls => simp [he', Entry.gate] at hg
  | cell c' =>
    simp only [he', Entry.gate, Option.some.injEq, Gate.mk.injEq] at hg
    refine ⟨c'.refcount, liveCell_eq_some.mpr ⟨h.free ▸ hf, h.size ▸ hlt, ?_⟩⟩
    rw [he', ← hg.1, ← hg.2]

theorem SameNet.symm (h : SameNet s s') : SameNet s' s :=
  ⟨fun i => (h.gate i).symm, h.order.symm, h.free.symm, h.strash.symm, h.enabled.symm,
    h.counts.symm⟩

theorem SameNet.isSome (h : SameNet s s') : (s'.liveCell i).isSome = (s.liveCell i).isSome := by
  cases hc : s.liveCell i with
  | some c =>
    obtain ⟨n, hn⟩ := h.liveCell hc
    simp [hn]
  | none =>
    cases hc' : s'.liveCell i with
    | none => rfl
    | some c' =>
      obtain ⟨n, hn⟩ := h.symm.liveCell hc'
      simp [hc] at hn

theorem SameNet.netlist (h : SameNet s s') : s'.netlist = s.netlist := by
  funext i
  cases hc : s.liveCell i with
  | some c =>
    obtain ⟨n, hn⟩ := h.liveCell hc
    simp [SubnetBuilder.netlist, hn, hc]
  | none =>
    have := h.isSome (i := i)
    simp only [hc, Option.isSome_none] at this
    simpa [SubnetBuilder.netlist, hc] using this

theorem SameNet.targets (h : SameNet s s') : s'.targets = s.targets := by
  have key : ∀ s : SubnetBuilder, s.targets =
      fun i => ((s.netlist i).map (fun g => g.links.map Link.idx)).getD [] := by
    intro s
    funext i
    simp [SubnetBuilder.targets, SubnetBuilder.netlist, Option.map_map, Function.comp_def]
  rw [key, key, h.netlist]

theorem SameNet.getTypeID (h : SameNet s s') : s'.getTypeID = s.getTypeID := by
  funext i
  simp [SubnetBuilder.getTypeID, h.gate]

theorem NetInv.perm (h : NetInv s V) (hp : ∀ i, (V i).Perm (V' i)) : NetInv s V' := by
  have hu : ∀ i, users (range s.size) V' i = users (range s.size) V i := fun i =>
    users_congr (fun j _ => (hp j).symm.count_eq i)
  refine ⟨h.nodup, h.free, fun i hi => h.user i (fun hnil => hi ?_), fun i j hj =>
    h.target i j ((hp i).mem_iff.mpr hj), fun i c hc => ?_, fun he i => ?_, h.strash⟩
  · have := hp i
    rw [hnil] at this
    exact this.nil_eq.symm
  · rw [h.refcount i c hc, hu]
  · rw [h.fanouts he i, hu]

theorem NetInv.congr (h : NetInv s V) (hV : ∀ i, V' i = V i) : NetInv s V' :=
  h.perm (fun i => .of_eq (hV i).symm)

private theorem setCell_entries (i j : EntryID) (c : SubnetCell) :
    (s.setCell i c).entries j = if j = i then .cell c else s.entries j := by
  simp [setCell, Function.update_apply]

private theorem setCell_same (hc : s.getCell i = some c) (n : ℕ) :
    SameNet s (s.setCell i { c with refcount := n }) := by
  refine ⟨fun j => ?_, rfl, rfl, rfl, rfl, rfl⟩
  rw [setCell_entries]
  split
  · rename_i hj
    subst hj
    simp [(getCell_eq_some.mp hc).2, Entry.gate]
  · rfl

private theorem setCell_live (hc : s.getCell i = some c) (n : ℕ) (j : EntryID) :
    (s.setCell i { c with refcount := n }).liveCell j =
      if j = i ∧ i ∉ s.emptyEntryIDs then some { c with refcount := n } else s.liveCell j := by
  obtain ⟨hlt, he⟩ := getCell_eq_some.mp hc
  by_cases hj : j = i
  · subst hj
    by_cases hf : j ∈ s.emptyEntryIDs
    · simp [hf, liveCell, setCell]
    · have hlt' : j < (s.setCell j { c with refcount := n }).size := hlt
      simp [hf, liveCell, setCell, getCell, update_self]
      exact hlt
  · simp only [hj, false_and, if_false]
    unfold liveCell getCell
    rw [setCell_entries]
    simp only [hj, if_false]
    rfl

private theorem NetInv.relink (h : NetInv s V) (hj : s.liveCell j = some c)
    (hout : c.type ≠ .OUT) (huser : ∀ i, V' i ≠ [] → i < s.size)
    (htarget : ∀ i, ∀ k ∈ V' i, k = j ∨ k ∈ V i)
    (hother : ∀ i, i ≠ j → users (range s.size) V' i = users (range s.size) V i)
    {F : EntryID → List EntryID}
    (hF : s.fanoutsEnabled = true → ∀ i, (F i : Multiset EntryID) = users (range s.size) V' i) :
    NetInv ((s.setFanouts F).setCell j
      { c with refcount := (users (range s.size) V' j).card }) V' := by
  let s' := (s.setFanouts F).setCell j
    { c with refcount := (users (range s.size) V' j).card }
  have hnf : j ∉ s.emptyEntryIDs := (liveCell_eq_some.mp hj).1
  have hlive : ∀ i, s'.liveCell i = if i = j then
      some { c with refcount := (users (range s.size) V' j).card } else s.liveCell i := by
    intro i
    have := setCell_live (s := s.setFanouts F) (getCell_of_live hj)
      (users (range s.size) V' j).card i
    have hnf' : j ∉ (s.setFanouts F).emptyEntryIDs := hnf
    simp only [hnf', not_false_eq_true, and_true] at this
    exact this
  have hgate : ∀ i a, s.liveCell i = some a →
      ∃ n, s'.liveCell i = some { a with refcount := n } := by
    intro i a ha
    by_cases hij : i = j
    · subst hij
      rw [hj] at ha
      cases ha
      exact ⟨_, by rw [hlive, if_pos rfl]⟩
    · exact ⟨a.refcount, by rw [hlive, if_neg hij, ha]⟩
  refine ⟨h.nodup, h.free, huser, fun i k hk => ?_, fun i a ha => ?_, hF, fun k i hk => ?_⟩
  · obtain ⟨a, ha, ht⟩ : ∃ a, s.liveCell k = some a ∧ a.type ≠ .OUT := by
      rcases htarget i k hk with rfl | hk
      exacts [⟨c, hj, hout⟩, h.target i k hk]
    obtain ⟨n, hn⟩ := hgate k a ha
    exact ⟨_, hn, ht⟩
  · rw [hlive] at ha
    split at ha
    · rename_i hij
      cases ha
      rw [hij]
      rfl
    · rename_i hij
      rw [h.refcount i a ha, ← hother i hij]
      rfl
  · obtain ⟨a, ha, he, hkey⟩ := h.strash k i hk
    obtain ⟨n, hn⟩ := hgate i a ha
    exact ⟨_, hn, he, hkey⟩

theorem NetInv.addLink (h : NetInv s V) (hu : u < s.size) (hj : s.liveCell j = some c)
    (hout : c.type ≠ .OUT) : ∃ s', s.addLink u j = some s' ∧
      NetInv s' (update V u (j :: V u)) ∧ SameNet s s' := by
  have huA : u ∈ range s.size := mem_range.mpr hu
  have hcard : (users (range s.size) (update V u (j :: V u)) j).card = c.refcount + 1 := by
    rw [users_cons huA, Multiset.card_cons, ← h.refcount j c hj]
  let F := if s.fanoutsEnabled then update s.fanouts j (s.fanouts j ++ [u]) else s.fanouts
  refine ⟨(s.setFanouts F).setCell j { c with refcount := c.refcount + 1 }, ?_, ?_,
    ?_⟩
  · have hlt := Nat.not_le.mpr (lt_of_live hj)
    have hcell : (s.setFanouts F).getCell j = some c := getCell_of_live hj
    simp only [SubnetBuilder.addLink, SubnetBuilder.addFanout, incRefCount, hlt, Nat.not_le.mpr hu,
      or_self, if_false, Option.bind_eq_bind, Option.bind_some]
    rw [hcell, Option.bind_some]
  · rw [← hcard]
    refine h.relink hj hout (fun i hi => ?_) (fun i k hk => ?_) (fun i hi => ?_) (fun he i => ?_)
    · by_cases hiu : i = u
      · exact hiu ▸ hu
      · rw [update_of_ne hiu] at hi
        exact h.user i hi
    · by_cases hiu : i = u
      · subst hiu
        rw [update_self] at hk
        exact List.mem_cons.mp hk
      · rw [update_of_ne hiu] at hk
        exact .inr hk
    · exact users_cons_of_ne huA hi
    · simp only [F, he, if_true]
      by_cases hij : i = j
      · subst hij
        rw [update_self, users_cons huA, ← h.fanouts he i, ← Multiset.coe_add,
          Multiset.coe_singleton, Multiset.add_comm, Multiset.singleton_add]
      · rw [update_of_ne hij, users_cons_of_ne huA hij, h.fanouts he i]
  · exact (⟨fun _ => rfl, rfl, rfl, rfl, rfl, rfl⟩ : SameNet s (s.setFanouts F)).trans
      (setCell_same (s := s.setFanouts F) (getCell_of_live hj) _)

theorem NetInv.delLink {ls : List EntryID} (h : NetInv s V) (hV : V u = j :: ls) :
    ∃ s', s.delLink u j = some s' ∧ NetInv s' (update V u ls) ∧ SameNet s s' := by
  have hu : u < s.size := h.user u (by simp [hV])
  have huA : u ∈ range s.size := mem_range.mpr hu
  obtain ⟨c, hj, hout⟩ := h.target u j (by simp [hV])
  have hcard : c.refcount = (users (range s.size) (update V u ls) j).card + 1 := by
    rw [h.refcount j c hj, users_tail huA hV, Multiset.card_cons]
  let F := if s.fanoutsEnabled then update s.fanouts j ((s.fanouts j).erase u) else s.fanouts
  refine ⟨(s.setFanouts F).setCell j { c with refcount := c.refcount - 1 }, ?_, ?_,
    ?_⟩
  · have hlt := Nat.not_le.mpr (lt_of_live hj)
    have hcell : (s.setFanouts F).getCell j = some c := getCell_of_live hj
    have hpos : c.refcount ≠ 0 := by omega
    simp only [SubnetBuilder.delLink, SubnetBuilder.delFanout, decRefCount, hlt, Nat.not_le.mpr hu,
      or_self, if_false, Option.bind_eq_bind, Option.bind_some]
    rw [hcell, Option.bind_some, if_neg hpos]
  · rw [hcard, Nat.add_sub_cancel]
    refine h.relink hj hout (fun i hi => ?_) (fun i k hk => ?_) (fun i hi => ?_) (fun he i => ?_)
    · by_cases hiu : i = u
      · exact hiu ▸ hu
      · rw [update_of_ne hiu] at hi
        exact h.user i hi
    · by_cases hiu : i = u
      · subst hiu
        rw [update_self] at hk
        exact .inr (by simp [hV, hk])
      · rw [update_of_ne hiu] at hk
        exact .inr hk
    · exact users_tail_of_ne huA hV hi
    · simp only [F, he, if_true]
      by_cases hij : i = j
      · subst hij
        rw [update_self, ← Multiset.coe_erase, h.fanouts he i, users_tail huA hV,
          Multiset.erase_cons_head]
      · rw [update_of_ne hij, users_tail_of_ne huA hV hij, h.fanouts he i]
  · exact (⟨fun _ => rfl, rfl, rfl, rfl, rfl, rfl⟩ : SameNet s (s.setFanouts F)).trans
      (setCell_same (s := s.setFanouts F) (getCell_of_live hj) _)

/-- The links may be registered: they point to cells in use that are not outputs. -/
def ValidLinks (s : SubnetBuilder) (links : List Link) : Prop :=
  ∀ l ∈ links, ∃ c, s.liveCell l.idx = some c ∧ c.type ≠ .OUT

theorem SameNet.validLinks {links : List Link} (h : SameNet s s') (hl : s.ValidLinks links) :
    s'.ValidLinks links := by
  intro l hmem
  obtain ⟨c, hc, ht⟩ := hl l hmem
  obtain ⟨n, hn⟩ := h.liveCell hc
  exact ⟨_, hn, ht⟩

theorem NetInv.addLinks : ∀ {links : List Link} {s : SubnetBuilder} {V : EntryID → List EntryID},
    NetInv s V → u < s.size → s.ValidLinks links →
    ∃ s', SubnetBuilder.addLinks u links s = some s' ∧ addNewLinks u links s = some s' ∧
      NetInv s' (update V u (links.map Link.idx ++ V u)) ∧ SameNet s s' := by
  intro links
  induction links with
  | nil =>
    intro s V h _ _
    exact ⟨s, rfl, rfl, by simpa using h, .refl s⟩
  | cons l links ih =>
    intro s V h hu hl
    obtain ⟨c, hc, ht⟩ := hl l (by simp)
    obtain ⟨s₁, hs₁, h₁, hsame₁⟩ := h.addLink hu hc ht
    obtain ⟨s', hs', hn', h', hsame'⟩ := ih h₁ (hsame₁.size ▸ hu)
      (hsame₁.validLinks (fun k hk => hl k (by simp [hk])))
    have hout : c.isOut = false := by simpa [SubnetCell.isOut] using ht
    refine ⟨s', ?_, ?_, h'.perm (fun i => ?_), hsame₁.trans hsame'⟩
    · simp [SubnetBuilder.addLinks, hs₁, hs']
    · simp [addNewLinks, getCell_of_live hc, hout, hs₁, hn']
    · by_cases hi : i = u
      · subst hi
        simp [List.perm_middle]
      · simp [update_of_ne hi]

end UtopiaEda.SubnetBuilder
