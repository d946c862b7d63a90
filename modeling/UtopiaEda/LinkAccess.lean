import UtopiaEda.BuilderLinks
import UtopiaEda.EntryOrderLists
import UtopiaEda.Subnet

/-!
# Access to the links of a cell

`getLink` and `getLinks` as they read the entries, for builders and for subnets. In a builder the
position of a link behind the cell is found by a walk over the entries of links.
-/
namespace UtopiaEda
open List
open Option (bind_eq_bind bind_eq_some_iff bind_some)

def Entry.capacity : Entry → ℕ
  | .cell _ => InPlaceLinks
  | .links _ => InEntryLinks

/-- The `k`-th link in the memory of an entry. The links of a cell stand behind its other data,
which is as large as one link and is none. -/
def Entry.link : Entry → ℕ → Option Link
  | .cell _, 0 => none
  | .cell c, k + 1 => (c.links.take InPlaceLinks)[k]?
  | .links ls, k => ls[k]?

theorem SubnetCell.more_eq {c : SubnetCell} (h : InPlaceLinks < c.links.length) :
    c.more = ((c.links.drop InPlaceLinks).length + (InEntryLinks - 1)) / InEntryLinks := by
  rw [SubnetCell.more, SubnetCell.arity, length_drop]
  simp only [InPlaceLinks, InEntryLinks] at h ⊢
  omega

namespace SubnetBuilder
open EntryOrder

variable {s s' s'' : SubnetBuilder} {i j : EntryID} {c : SubnetCell}

def entryAt (s : SubnetBuilder) : Place → Option Entry
  | .entry i => some (s.entries i)
  | _ => none

/-- The loop of `getLinkIndices`. -/
def seekLink (s : SubnetBuilder) (n : Place) (k : ℕ) : Option (Place × ℕ) :=
  if InEntryLinks < k then (s.order.getNext n).bind (fun n => seekLink s n (k - InEntryLinks)) else
    some (n, k)
termination_by k
decreasing_by
  simp only [InEntryLinks] at *
  omega

/-- The entry and the offset of the `j`-th link. -/
def getLinkIndices (s : SubnetBuilder) (i : EntryID) (j : ℕ) : Option (Place × ℕ) :=
  if j < InPlaceLinks then some (.entry i, j)
  else (s.order.getNext (.entry i)).bind (fun n => s.seekLink n (j - InPlaceLinks))

/-- `entries[n].link[k]`. The entries stand one after the other in memory: behind the last link of
an entry comes the first one of the next entry. -/
def linkAt (s : SubnetBuilder) : Place → ℕ → Option Link
  | .entry n, k => if n + k / InEntryLinks < s.size then
      (s.entries (n + k / InEntryLinks)).link (k % InEntryLinks)
    else none
  | _, _ => none

def getLink (s : SubnetBuilder) (i : EntryID) (j : ℕ) : Option Link := do
  let cell ← s.getCell i
  if j < InPlaceLinks then cell.links[j]?
  else do
    let (n, k) ← s.getLinkIndices i j
    s.linkAt n k

/-- The second loop of `getLinks`: the other `m` links, from the `k`-th one of `n` on. -/
def readLinks (s : SubnetBuilder) : ℕ → Place → ℕ → Option (List Link)
  | 0, _, _ => some []
  | m + 1, n, k => do
    let link ← (← s.entryAt n).link k
    let links ← if k + 1 = InEntryLinks then (s.order.getNext n).bind (fun n => readLinks s m n 0)
      else readLinks s m n (k + 1)
    some (link :: links)

def getLinks (s : SubnetBuilder) (i : EntryID) : Option (List Link) := do
  let cell ← s.getCell i
  let n ← s.order.getNext (.entry i)
  let links ← s.readLinks (cell.arity - InPlaceLinks) n 0
  some (cell.links.take InPlaceLinks ++ links)

/-! ### The entries of links -/

/-- The entries hold the links, `InEntryLinks` each; no entry is empty. -/
def Stored (f : EntryID → Entry) : List EntryID → List Link → Prop
  | [], links => links = []
  | e :: es, links =>
    links ≠ [] ∧ f e = .links (links.take InEntryLinks) ∧ Stored f es (links.drop InEntryLinks)

theorem Stored.mem {f : EntryID → Entry} :
    ∀ {es : List EntryID} {links : List Link}, Stored f es links →
    ∀ e ∈ es, ∃ ls, f e = .links ls := by
  intro es
  induction es with
  | nil => exact fun _ e he => absurd he not_mem_nil
  | cons a es ih =>
    intro links hst e he
    obtain ⟨-, ha, h⟩ := hst
    rcases mem_cons.mp he with rfl | he
    · exact ⟨_, ha⟩
    · exact ih h e he

theorem Stored.congr {f g : EntryID → Entry} :
    ∀ {es : List EntryID} {links : List Link}, Stored f es links →
    (∀ e ∈ es, ∀ ls, f e = .links ls → g e = .links ls) → Stored g es links := by
  intro es
  induction es with
  | nil => exact fun h _ => h
  | cons a es ih =>
    intro links ⟨hne, ha, h⟩ hg
    exact ⟨hne, hg a (mem_cons_self ..) _ ha, ih h (fun e he => hg e (mem_cons_of_mem a he))⟩

theorem Stored.length {f : EntryID → Entry} : ∀ {es : List EntryID} {links : List Link},
    Stored f es links → es.length = (links.length + (InEntryLinks - 1)) / InEntryLinks := by
  intro es
  induction es with
  | nil =>
    intro links h
    obtain rfl : links = [] := h
    rfl
  | cons e es ih =>
    intro links h
    obtain ⟨hne, -, hrest⟩ := h
    have hpos := length_pos_of_ne_nil hne
    have hlen := ih hrest
    rw [length_drop] at hlen
    simp only [length_cons, InEntryLinks] at hlen ⊢
    omega

theorem link_of_stored {f : EntryID → Entry} :
    ∀ {es : List EntryID} {links : List Link}, Stored f es links →
    ∀ k < links.length, ∃ e ls, es[k / InEntryLinks]? = some e ∧ f e = .links ls ∧
      ls[k % InEntryLinks]? = links[k]? := by
  intro es
  induction es with
  | nil =>
    intro links h k hk
    have hnil : links = [] := h
    rw [hnil] at hk
    exact absurd hk (Nat.not_lt_zero _)
  | cons e es ih =>
    intro links h k hk
    obtain ⟨-, he, hrest⟩ := h
    by_cases hlt : k < InEntryLinks
    · refine ⟨e, _, ?_, he, ?_⟩
      · rw [Nat.div_eq_of_lt hlt]
        rfl
      · rw [Nat.mod_eq_of_lt hlt, getElem?_take, if_pos hlt]
    · have hle := Nat.not_lt.mp hlt
      have hadd : InEntryLinks + (k - InEntryLinks) = k := Nat.add_sub_cancel' hle
      obtain ⟨e', ls, he', hls, hget⟩ := ih hrest (k - InEntryLinks) (by
        rw [length_drop]
        exact Nat.sub_lt_sub_right hle hk)
      refine ⟨e', ls, ?_, hls, ?_⟩
      · rw [Nat.div_eq_sub_div (by decide) hle, getElem?_cons_succ]
        exact he'
      · rw [Nat.mod_eq_sub_mod hle, hget, getElem?_drop, hadd]

theorem getLinkIndices_of_le (hj : j < InPlaceLinks + InEntryLinks + 1) :
    s.getLinkIndices i j = if j < InPlaceLinks then some (.entry i, j)
      else (s.order.getNext (.entry i)).map (fun n => (n, j - InPlaceLinks)) := by
  rw [getLinkIndices]
  split
  · rfl
  · cases s.order.getNext (.entry i) with
    | none => rfl
    | some n =>
      have hle : ¬ InEntryLinks < j - InPlaceLinks := by
        have hsub : j - InPlaceLinks < InEntryLinks + 1 := by
          apply Nat.sub_lt_left_of_lt_add (Nat.not_lt.mp ‹_›)
          exact hj
        exact Nat.not_lt.mpr (Nat.le_of_lt_succ hsub)
      rw [bind_some, seekLink, if_neg hle]
      rfl

theorem getLink_of_lt (hc : s.getCell i = some c) (hj : j < c.links.length)
    (hlt : j < InPlaceLinks) : s.getLink i j = some c.links[j] := by
  simp [getLink, hc, hlt, getElem?_eq_getElem hj]

theorem getNext_of_lists {e : EntryID} {u v : List EntryID}
    (hl : s.order.Lists (u ++ i :: e :: v)) : s.order.getNext (.entry i) = some (.entry e) := by
  have hnext := Lists.getNext (o := s.order) (u := u ++ [i]) (v := e :: v) (by simpa using hl)
  rwa [before_concat] at hnext

/-- The walk over entries that stand one after the other in memory ends at the position, or at the
one behind the last link of the entry before it. -/
theorem seekLink_eq {k : ℕ} : ∀ {a : EntryID},
    (∀ m < k / InEntryLinks, s.order.getNext (.entry (a + m)) =
    some (.entry (a + m + 1))) → ∃ n k', s.seekLink (.entry a) k = some (.entry n, k') ∧
      n + k' / InEntryLinks = a + k / InEntryLinks ∧ k' % InEntryLinks = k % InEntryLinks := by
  induction k using Nat.strong_induction_on with
  | _ k ih =>
    intro a hnext
    rw [seekLink]
    by_cases hk : InEntryLinks < k
    · have hdiv : k / InEntryLinks = (k - InEntryLinks) / InEntryLinks + 1 :=
        Nat.div_eq_sub_div (by decide) (Nat.le_of_lt hk)
      obtain ⟨n, k', hseek, hn, hmod⟩ := ih (k - InEntryLinks)
        (Nat.sub_lt (Nat.zero_lt_of_lt hk) (by decide)) (a := a + 1) (fun m hm => by
        have hstep := hnext (m + 1) (by rw [hdiv]; exact Nat.succ_lt_succ hm)
        rwa [← Nat.add_assoc, Nat.add_right_comm a m 1] at hstep)
      refine ⟨n, k', ?_, ?_, ?_⟩
      · have hfirst : s.order.getNext (.entry a) = some (.entry (a + 1)) :=
          hnext 0 (by rw [hdiv]; exact Nat.succ_pos _)
        rw [if_pos hk, hfirst]
        exact hseek
      · rw [hn, hdiv, Nat.add_assoc, Nat.add_comm 1]
      · rw [hmod, Nat.mod_eq_sub_mod (Nat.le_of_lt hk)]
    · rw [if_neg hk]
      exact ⟨a, k, rfl, rfl, rfl⟩

/-- The links of the cell `i` fit into one further entry, or the entries stand behind it in
memory. -/
def InReach (i : EntryID) (es : List EntryID) (n : ℕ) : Prop :=
  n ≤ InPlaceLinks + InEntryLinks ∨ es = range' (i + 1) es.length

theorem inReach_range' {n k : ℕ} : InReach i (range' (i + 1) n) k := by
  right
  rw [length_range']

/-- The position of a link behind the first ones. -/
theorem getLinkIndices_of_stored {f : EntryID → Entry} {es u v : List EntryID} {links : List Link}
    (hst : Stored f es (links.drop InPlaceLinks)) (hl : s.order.Visits (u ++ i :: es ++ v))
    (hreach : InReach i es links.length) {j : ℕ} (hj : j < links.length)
    (hge : ¬ j < InPlaceLinks) : ∃ n k e ls, s.getLinkIndices i j = some (.entry n, k) ∧
    n + k / InEntryLinks = e ∧
      k % InEntryLinks = (j - InPlaceLinks) % InEntryLinks ∧
      es[(j - InPlaceLinks) / InEntryLinks]? = some e ∧ f e = .links ls ∧ ls[k % InEntryLinks]? =
      links[j]? := by
  have hadd : InPlaceLinks + (j - InPlaceLinks) = j := Nat.add_sub_cancel' (Nat.not_lt.mp hge)
  obtain ⟨e, ls, he, hls, hget⟩ := link_of_stored hst (j - InPlaceLinks) (by
    rw [length_drop]
    exact Nat.sub_lt_sub_right (Nat.not_lt.mp hge) hj)
  rw [getElem?_drop, hadd] at hget
  obtain ⟨n, k, hindices, hn, hmod⟩ : ∃ n k, s.getLinkIndices i j = some (.entry n, k) ∧
    n + k / InEntryLinks = e ∧
      k % InEntryLinks = (j - InPlaceLinks) % InEntryLinks := by
    rcases hreach with hlen | hes
    · have hk : j - InPlaceLinks < InEntryLinks :=
        Nat.sub_lt_left_of_lt_add (Nat.not_lt.mp hge) (Nat.lt_of_lt_of_le hj hlen)
      rw [Nat.div_eq_of_lt hk] at he
      cases es with
      | nil => cases he
      | cons e' es =>
        obtain rfl := Option.some.inj he
        have hnext : s.order.getNext (.entry i) = some (.entry e') :=
          hl.next (u := u) (v := e' :: (es ++ v)) (by simp)
        refine ⟨e', j - InPlaceLinks, ?_, by rw [Nat.div_eq_of_lt hk]; rfl, rfl⟩
        rw [getLinkIndices_of_le (Nat.lt_succ_of_lt (Nat.lt_of_lt_of_le hj hlen)),
          if_neg hge, hnext]
        rfl
    · have hlt := (List.getElem?_eq_some_iff.mp he).1
      have hnext : ∀ m < es.length, s.order.getNext (.entry (i + m)) =
          some (.entry (i + m + 1)) := by
        intro m hm
        have hsplit : i :: es = range' i m ++ (i + m) :: (i + m + 1) :: range' (i + m + 2)
            (es.length - m - 1) := by
          have htwo : range' (i + m) (es.length + 1 - m) = (i + m) :: (i + m + 1) ::
              range' (i + m + 2) (es.length - m - 1) := by
            rw [show es.length + 1 - m = es.length - m - 1 + 1 + 1 by omega]
            rfl
          calc i :: es = range' i (m + (es.length + 1 - m)) := by
                rw [Nat.add_sub_cancel' (Nat.le_succ_of_le (Nat.le_of_lt hm)), range'_succ, ← hes]
            _ = range' i m ++ range' (i + m) (es.length + 1 - m) := by
                rw [range'_append_1]
            _ = _ := by rw [htwo]
        refine hl.next (u := u ++ range' i m)
          (v := (i + m + 1) :: range' (i + m + 2) (es.length - m - 1) ++ v) ?_
        rw [append_assoc u, hsplit]
        simp
      obtain ⟨n, k, hseek, hn, hmod⟩ :=
        seekLink_eq (s := s) (k := j - InPlaceLinks) (a := i + 1) (fun m hm => by
        have hstep := hnext (m + 1) (Nat.lt_of_le_of_lt hm hlt)
        rwa [← Nat.add_assoc, Nat.add_right_comm i m 1] at hstep)
      refine ⟨n, k, ?_, ?_, hmod⟩
      · have hfirst : s.order.getNext (.entry i) = some (.entry (i + 1)) :=
          hnext 0 (Nat.lt_of_le_of_lt (Nat.zero_le _) hlt)
        rw [getLinkIndices, if_neg hge, hfirst]
        exact hseek
      · have hval := he
        rw [hes, getElem?_range' hlt, Nat.one_mul, Option.some.injEq] at hval
        rw [hn, hval]
  exact ⟨n, k, e, ls, hindices, hn, hmod, he, hls, by rw [hmod, hget]⟩

theorem getLink_of_stored {es u v : List EntryID} (hc : s.getCell i = some c)
    (hst : Stored s.entries es (c.links.drop InPlaceLinks))
    (hl : s.order.Visits (u ++ i :: es ++ v)) (hreach : InReach i es c.links.length)
    (hj : j < c.links.length) : s.getLink i j = some c.links[j] := by
  by_cases hlt : j < InPlaceLinks
  · exact getLink_of_lt hc hj hlt
  · obtain ⟨n, k, e, ls, hindices, hn, -, he, hls, hget⟩ :=
      getLinkIndices_of_stored hst hl hreach hj hlt
    have hsize : e < s.size := hl.lt e (by simp [mem_of_getElem? he])
    simp only [getLink, hc, hlt, hindices, linkAt, hn, hsize, hls, Entry.link, hget,
      bind_eq_bind, bind_some, if_false, if_true, getElem?_eq_getElem hj]

theorem readLinks_of_stored : ∀ {es : List EntryID} {links : List Link} {i : EntryID}
    {u v : List EntryID}, Stored s.entries es links → s.order.Visits (u ++ i :: es ++ v) →
    ∃ n, s.order.getNext (.entry i) = some n ∧ s.readLinks links.length n 0 = some links := by
  intro es
  induction es with
  | nil =>
    intro links i u v h hl
    have hnil : links = [] := h
    subst hnil
    exact ⟨_, hl.next (u := u) (v := v) (by simp), rfl⟩
  | cons e es ih =>
    intro links i u v h hl
    obtain ⟨hne, he, hrest⟩ := h
    have hnext : s.order.getNext (.entry i) = some (.entry e) :=
      hl.next (u := u) (v := e :: (es ++ v)) (by simp)
    refine ⟨.entry e, hnext, ?_⟩
    have hrest := ih (u := u ++ [i]) (v := v) hrest (by simpa using hl)
    match links with
    | [a] => simp [readLinks, entryAt, he, Entry.link, InEntryLinks]
    | [a, b] => simp [readLinks, entryAt, he, Entry.link, InEntryLinks]
    | [a, b, c] => simp [readLinks, entryAt, he, Entry.link, InEntryLinks]
    | a :: b :: c :: d :: rest =>
      obtain ⟨n, hn, hread⟩ := hrest
      simp only [InEntryLinks, drop_succ_cons, drop_zero] at hread
      simp [readLinks, entryAt, he, Entry.link, InEntryLinks, hn, hread]

theorem getLinks_of_stored {es u v : List EntryID} (hc : s.getCell i = some c)
    (hst : Stored s.entries es (c.links.drop InPlaceLinks))
    (hl : s.order.Visits (u ++ i :: es ++ v)) : s.getLinks i = some c.links := by
  obtain ⟨n, hn, hread⟩ := readLinks_of_stored hst hl
  rw [length_drop] at hread
  simp only [getLinks, hc, hn, SubnetCell.arity, hread, bind_eq_bind, bind_some,
    take_append_drop]

/-- `getLink` finds the links of the cells. -/
def LinksRead (s : SubnetBuilder) : Prop :=
  ∀ i c, s.liveCell i = some c → ∀ j (h : j < c.links.length), s.getLink i j = some c.links[j]

theorem LinksRead.mapM (h : s.LinksRead) (hc : s.liveCell i = some c) {β : Type}
    (f : Link → Option β) : (range c.arity).mapM (fun j => (s.getLink i j).bind f) =
    c.links.mapM f :=
  Netlist.mapM_range_bind f (h i c hc)

/-! ### Registering links does not touch the entries of links -/

def SameLinks (s s' : SubnetBuilder) : Prop :=
  ∀ i ls, s.entries i = .links ls → s'.entries i = .links ls

theorem SameLinks.refl (s : SubnetBuilder) : SameLinks s s := fun _ _ h => h

theorem SameLinks.trans (h : SameLinks s s') (h' : SameLinks s' s'') : SameLinks s s'' :=
  fun i ls he => h' i ls (h i ls he)

theorem SameLinks.setCell {a : SubnetCell} (hc : s.getCell i = some c) :
    SameLinks s (s.setCell i a) := by
  intro j ls hj
  have hji : j ≠ i := by
    rintro rfl
    rw [(getCell_eq_some.mp hc).2] at hj
    cases hj
  exact (Function.update_of_ne hji ..).trans hj

private theorem SameLinks.of_addLink (h : s.addLink i j = some s') : SameLinks s s' := by
  obtain ⟨s₁, h₁, h⟩ := bind_eq_some_iff.mp h
  obtain ⟨c, hc, h⟩ := bind_eq_some_iff.mp h
  cases h
  rw [addFanout] at h₁
  split at h₁
  · cases h₁
  · cases h₁
    exact (SameLinks.refl s).trans (SameLinks.setCell hc)

theorem SameLinks.of_delLink (h : s.delLink i j = some s') : SameLinks s s' := by
  obtain ⟨s₁, h₁, h⟩ := bind_eq_some_iff.mp h
  obtain ⟨c, hc, h⟩ := bind_eq_some_iff.mp h
  split at h
  · cases h
  · cases h
    rw [delFanout] at h₁
    split at h₁
    · cases h₁
    · cases h₁
      exact (SameLinks.refl s).trans (SameLinks.setCell hc)

theorem SameLinks.of_addLinks : ∀ {links : List Link} {s : SubnetBuilder},
    SubnetBuilder.addLinks i links s = some s' → SameLinks s s' := by
  intro links
  induction links with
  | nil =>
    intro s h
    cases h
    exact .refl _
  | cons l links ih =>
    intro s h
    obtain ⟨s₁, h₁, h⟩ := bind_eq_some_iff.mp h
    exact (SameLinks.of_addLink h₁).trans (ih h)

theorem SameLinks.of_addNewLinks : ∀ {links : List Link} {s : SubnetBuilder},
    SubnetBuilder.addNewLinks i links s = some s' → SameLinks s s' := by
  intro links
  induction links with
  | nil =>
    intro s h
    cases h
    exact .refl _
  | cons l links ih =>
    intro s h
    obtain ⟨c, -, h⟩ := bind_eq_some_iff.mp h
    split at h
    · cases h
    · obtain ⟨s₁, h₁, h⟩ := bind_eq_some_iff.mp h
      exact (SameLinks.of_addLink h₁).trans (ih h)

end SubnetBuilder

namespace Subnet
open SubnetBuilder

variable {S : Subnet} {i : EntryID} {j : ℕ} {c : SubnetCell}

/-- The entry and the offset of the `j`-th link. -/
def getLinkIndices (i : EntryID) (j : ℕ) : EntryID × ℕ :=
  if j < InPlaceLinks then (i, j)
  else (i + 1 + (j - InPlaceLinks) / InEntryLinks, (j - InPlaceLinks) % InEntryLinks)

/-- `getLink`, as it reads the entries. -/
def getLinkAt (S : Subnet) (i : EntryID) (j : ℕ) : Option Link := do
  let cell ← S.getCell i
  if j < InPlaceLinks then cell.links[j]?
  else (← S.entries[(getLinkIndices i j).1]?).link (getLinkIndices i j).2

/-- `getLinks`, as it reads the entries. -/
def getLinksAt (S : Subnet) (i : EntryID) : Option (List Link) := do
  let cell ← S.getCell i
  let links ← (range' InPlaceLinks (cell.arity - InPlaceLinks)).mapM (fun j =>
    (S.entries[(getLinkIndices i j).1]?).bind (fun e => e.link (getLinkIndices i j).2))
  some (cell.links.take InPlaceLinks ++ links)

def LinksBehind (S : Subnet) : Prop := ∀ i c, S.getCell i = some c →
  Stored (fun j => (S.entries[j]?).getD (.links [])) (range' (i + 1) c.more)
  (c.links.drop InPlaceLinks)

end Subnet

end UtopiaEda
