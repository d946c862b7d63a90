import UtopiaEda.ReconvergentCuts

/-!
# Fanout-free cones

`getMffc` takes back the references of the root and, recursively, of every cell that is left without
references and is not marked. Then it follows the same links again, gives the references back and
collects the cells at the border. The marks are the cells of a cut, or they are set from a certain
depth on.
-/
namespace UtopiaEda

open Function (update update_self update_of_ne)
open Incidence SubnetBuilder
open Option (bind_eq_bind bind_some isSome_iff_exists)

namespace Mffc

structure State where
  builder : SubnetBuilder
  marked : List EntryID := []
  counter : ℤ := 0
  bounds : List EntryID := []

namespace State

def mark (st : State) (i : EntryID) : Option State :=
  if i < st.builder.size then some { st with marked := i :: st.marked } else none

/-- `cell.decRefCount()` and `counter++`. -/
def dereference (st : State) (i : EntryID) : Option State := do
  some { st with builder := ← st.builder.decRefCount i, counter := st.counter + 1 }

/-- `cell.incRefCount()` and `counter--`. -/
def reference (st : State) (i : EntryID) : Option State := do
  some { st with builder := ← st.builder.incRefCount i, counter := st.counter - 1 }

/-- The reference is taken back, and the cell is marked where `marks` says so. -/
def release (st : State) (marks : Bool) (i : EntryID) : Option State := do
  let st ← st.dereference i
  if marks then st.mark i else some st

def markAll : List EntryID → State → Option State
  | [], st => some st
  | i :: is, st => do markAll is (← st.mark i)

end State

/-- The loop of `dereferenceCells` over the links of a cell; `visit` is the recursive call. -/
def dereferenceLinks (visit : EntryID → State → Option State) (marks : Bool) :
    List Link → State → Option State
  | [], st => some st
  | link :: links, st => do
    let st ← st.release marks link.idx
    let cell ← st.builder.getCell link.idx
    dereferenceLinks visit marks links (← if cell.refcount = 0 ∧ link.idx ∉ st.marked then
      visit link.idx st else some st)

/-- The cells are marked at the depths where `marks` says so. The first argument bounds the depth of
the recursion. -/
def dereferenceCells (marks : ℕ → Bool) : ℕ → EntryID → ℕ → State → Option State
  | 0, _, _, _ => none
  | n + 1, idx, depth, st => do
    let links ← st.builder.getLinks idx
    dereferenceLinks (fun idx st => dereferenceCells marks n idx (depth + 1) st)
      (marks depth) links st

/-- The loop of `getMffcBounds`; the cells of `stops` were marked in the session before. -/
def boundLinks (visit : EntryID → State → Option State) (stops : List EntryID) :
    List Link → State → Option State
  | [], st => some st
  | link :: links, st => do
    let cell ← st.builder.getCell link.idx
    let st ←
      if link.idx ∈ st.marked ∨ cell.type = .ZERO ∨ cell.type = .ONE then st.reference link.idx
      else if link.idx ∈ stops ∨ cell.isIn then do
        let st ← st.mark link.idx
        { st with bounds := st.bounds ++ [link.idx] }.reference link.idx
      else do
        let st ← st.mark link.idx
        if cell.refcount = 0 then do (← visit link.idx st).reference link.idx
        else do
          let st ← st.reference link.idx
          some { st with bounds := st.bounds ++ [link.idx] }
    boundLinks visit stops links st

def getMffcBounds (stops : List EntryID) : ℕ → EntryID → State → Option State
  | 0, _, _ => none
  | n + 1, idx, st => do boundLinks (getMffcBounds stops n) stops (← st.builder.getLinks idx) st

/-- References are given back in a new session; as many as were taken have to be given back. -/
def findMffcBounds (rootID : EntryID) (st : State) : Option State := do
  let found ← getMffcBounds st.marked (st.builder.size + 1) rootID { st with marked := [] }
  if found.counter = 0 then some found else none

end Mffc

open Mffc

/-- The part that the variants of `getMffc` share: the builder afterwards, and the view. -/
def getMffcFrom (marks : ℕ → Bool) (root : EntryID) (st : State) :
    Option (SubnetBuilder × SubnetView) := do
  let found ← findMffcBounds root (← dereferenceCells marks (st.builder.size + 1) root 1 st)
  some (found.builder, ← SubnetView.ofMapping found.builder (.ofIDs found.bounds [root]))

/-- `getMffc(builder, root, cut)`. -/
def getMffc (builder : SubnetBuilder) (root : EntryID) (cut : List EntryID) :
    Option (SubnetBuilder × SubnetView) :=
  if cut = [root] then do some (builder, ← SubnetView.ofMapping builder (.ofIDs [root] [root]))
  else do getMffcFrom (fun _ => false) root (← State.markAll cut { builder })

/-- `getMffc(builder, view)`; multiple outputs are not supported. -/
def getMffcOfView (builder : SubnetBuilder) (view : SubnetView) :
    Option (SubnetBuilder × SubnetView) :=
  match view.outputs with
  | [root] => getMffc builder root view.inputs
  | _ => none

/-- `getMffc(builder, rootID)`. -/
def getMffcOfRoot (builder : SubnetBuilder) (rootID : EntryID) :
    Option (SubnetBuilder × SubnetView) :=
  getMffc builder rootID []

/-- `getMffc(builder, root, maxDepth)`. -/
def getMffcOfDepth (builder : SubnetBuilder) (root : EntryID) (maxDepth : ℕ) :
    Option (SubnetBuilder × SubnetView) :=
  if maxDepth = 0 then do some (builder, ← SubnetView.ofMapping builder (.ofIDs [root] [root]))
  else getMffcFrom (fun depth => maxDepth ≤ depth) root { builder }

def SubnetBuilder.withCounts (s : SubnetBuilder) (f : EntryID → ℕ) : SubnetBuilder :=
  { s with entries := fun i => match s.liveCell i with
      | some c => .cell { c with refcount := f i }
      | none => s.entries i }

namespace SubnetBuilder

variable {s : SubnetBuilder} {f f' : EntryID → ℕ} {i : EntryID} {c : SubnetCell}

theorem getCell_withCounts (h : s.liveCell i = some c) : (s.withCounts f).getCell i = some
    { c with refcount := f i } := by
  refine getCell_eq_some.mpr ⟨(getCell_eq_some.mp (getCell_of_live h)).1, ?_⟩
  simp only [withCounts, h]

theorem withCounts_eq_self (h : ∀ i c, s.liveCell i = some c → c.refcount = f i) :
    s.withCounts f = s := by
  have hentries : (s.withCounts f).entries = s.entries := by
    funext i
    cases hc : s.liveCell i with
    | none => simp only [withCounts, hc]
    | some c =>
      simp only [withCounts, hc]
      rw [(liveCell_eq_some.mp hc).2.2, ← h i c hc]
  exact congrArg (fun e => { s with entries := e }) hentries

theorem setCell_withCounts (h : s.liveCell i = some c) (n : ℕ) :
    (s.withCounts f).setCell i { c with refcount := n } = s.withCounts (update f i n) := by
  have hentries : ((s.withCounts f).setCell i { c with refcount := n }).entries =
      (s.withCounts (update f i n)).entries := by
    funext j
    by_cases hj : j = i
    · subst hj
      simp only [setCell, withCounts, h, update_self]
    · cases hc : s.liveCell j <;> simp only [setCell, withCounts, hc, update_of_ne hj]
  exact congrArg (fun e => { s with entries := e }) hentries

theorem decRefCount_withCounts (h : s.liveCell i = some c) (hf : f i = f' i + 1)
    (hne : ∀ j, j ≠ i → f' j = f j) : (s.withCounts f).decRefCount i = some (s.withCounts f') := by
  rw [decRefCount, getCell_withCounts h, bind_eq_bind, bind_some,
    if_neg (by rw [hf]; exact Nat.succ_ne_zero _)]
  have hupdate : update f i (f i - 1) = f' := by
    funext j
    by_cases hj : j = i
    · rw [hj, update_self, hf, Nat.add_sub_cancel]
    · rw [update_of_ne hj, hne j hj]
  exact congrArg some ((setCell_withCounts h _).trans (congrArg s.withCounts hupdate))

theorem incRefCount_withCounts (h : s.liveCell i = some c) (hf : f' i = f i + 1)
    (hne : ∀ j, j ≠ i → f' j = f j) : (s.withCounts f).incRefCount i = some (s.withCounts f') := by
  rw [incRefCount, getCell_withCounts h, bind_eq_bind, bind_some]
  have hupdate : update f i (f i + 1) = f' := by
    funext j
    by_cases hj : j = i
    · rw [hj, update_self, hf]
    · rw [update_of_ne hj, hne j hj]
  exact congrArg some ((setCell_withCounts h _).trans (congrArg s.withCounts hupdate))

theorem getLinks_withCounts (hs : s.LinksStored) (h : s.liveCell i = some c) :
    (s.withCounts f).getLinks i = some c.links := by
  obtain ⟨es, u, v, hst, hl⟩ := hs i c h
  have hstored : Stored (s.withCounts f).entries es (c.links.drop InPlaceLinks) := by
    refine hst.congr (fun e _ ls he => ?_)
    have hdead : s.liveCell e = none := by
      by_contra hlive
      obtain ⟨c', hc'⟩ := Option.ne_none_iff_exists'.mp hlive
      rw [(liveCell_eq_some.mp hc').2.2] at he
      cases he
    simp only [withCounts, hdead, he]
  exact getLinks_of_stored (c := { c with refcount := f i })
    (getCell_withCounts h) hstored hl.visits

end SubnetBuilder

namespace Mffc

variable {s : SubnetBuilder} {marks : ℕ → Bool} {root i j : EntryID} {M : List EntryID}
  {E E' E'' : Finset EntryID} {W W' W'' : EntryID → List EntryID} {st : State} {n : ℕ}

/-- The references that the links `W` stand for. -/
def refs (s : SubnetBuilder) (W : EntryID → List EntryID) (j : EntryID) : ℕ :=
  (users (Finset.range s.size) W j).card

def total (s : SubnetBuilder) (W : EntryID → List EntryID) : ℕ :=
  ∑ i ∈ Finset.range s.size, (W i).length

inductive Below (s : SubnetBuilder) (root : EntryID) (P : EntryID → Prop) : ℕ → EntryID → Prop where
  | root : Below s root P 0 root
  | link {n : ℕ} {i j : EntryID} (path : Below s root P n i) (mem : P i)
      (fanin : s.netlist.Fanin i j) :
    Below s root P (n + 1) j

theorem Below.mono {P Q : EntryID → Prop} (h : Below s root P n i) (hPQ : ∀ ⦃i⦄, P i → Q i) :
    Below s root Q n i := by
  induction h with
  | root => exact .root
  | link _ hi hij ih => exact .link ih (hPQ hi) hij

theorem Below.isSome {P : EntryID → Prop} (h : Below s root P n i) (hs : s.NetOk)
    (hroot : (s.netlist root).isSome) : (s.netlist i).isSome := by
  induction h with
  | root => exact hroot
  | link _ _ hij _ => exact hs.net.closed' _ _ hij

theorem Below.reaches {P : EntryID → Prop} (h : Below s root P n i) : s.netlist.Reaches root i := by
  induction h with
  | root => exact .refl
  | link _ _ hij ih => exact ih.tail hij

theorem Below.ne_root {P : EntryID → Prop} (h : Below s root P n i) (hs : s.NetOk)
    (hij : s.netlist.Fanin i j) : j ≠ root := by
  rintro rfl
  obtain ⟨rank, hrank⟩ := hs.acyclic
  have hle : rank i ≤ rank j := by
    have hpath := h.reaches
    clear h hij
    induction hpath with
    | refl => exact Nat.le_refl _
    | tail _ hab ih => exact (hrank _ _ hab).le.trans ih
  exact Nat.not_lt.mpr hle (hrank i j hij)

/-- The state while references are taken back: `E` are the cells whose links are followed, `W` are
the links that still count. -/
structure Dereferenced (s : SubnetBuilder) (marks : ℕ → Bool) (root : EntryID) (M : List EntryID)
    (E : Finset EntryID)
    (W : EntryID → List EntryID) (st : State) : Prop where
  builder : st.builder = s.withCounts (refs s W)
  counter : st.counter + total s W = total s s.targets
  bounds : st.bounds = []
  source : root ∈ E
  cells : ∀ i ∈ E, ∃ n, Below s root (· ∈ E) n i ∧ (n = 0 ∨ marks n = false)
  untouched : ∀ i, i ∉ E → W i = s.targets i
  closed : ∀ i ∈ E, ∀ j, s.netlist.Fanin i j → j ∈ E ∨ 0 < refs s W j ∨ j ∈ st.marked
  zero : ∀ i ∈ E, i ≠ root → refs s W i = 0 ∧ i ∉ st.marked
  given : ∀ m ∈ M, m ∈ st.marked
  marked : ∀ m ∈ st.marked, m ∈ M ∨ ∃ n, (n = 0 ∨ marks n = false) ∧ marks (n + 1) = true ∧
    Below s root (· ∈ E) (n + 1) m

structure Followed (E E' : Finset EntryID) (W W' : EntryID → List EntryID) (i : EntryID) :
    Prop where
  subset : E ⊆ E'
  cell : W' i = []
  new : ∀ j ∈ E', j ∉ E → W' j = []
  old : ∀ j ∈ E, j ≠ i → W' j = W j

theorem fanin_iff : s.netlist.Fanin i j ↔ j ∈ s.targets i := by
  rw [SubnetBuilder.targets_eq_netlist]
  constructor
  · rintro ⟨g, hg, l, hl, rfl⟩
    rw [hg]
    exact List.mem_map_of_mem hl
  · intro hj
    cases hg : s.netlist i with
    | none =>
      rw [hg] at hj
      cases hj
    | some g =>
      rw [hg] at hj
      obtain ⟨l, hl, rfl⟩ := List.mem_map.mp hj
      exact ⟨g, hg, l, hl, rfl⟩

theorem Dereferenced.card_le (h : Dereferenced s marks root M E W st) (hs : s.NetOk)
    (hroot : (s.netlist root).isSome) : E.card ≤ s.size := by
  have hsub : E ⊆ Finset.range s.size := by
    intro i hi
    obtain ⟨n, hpath, -⟩ := h.cells i hi
    obtain ⟨g, hg⟩ := isSome_iff_exists.mp (hpath.isSome hs hroot)
    obtain ⟨c, hc, -⟩ := liveCell_of_netlist hg
    exact Finset.mem_range.mpr (lt_of_live hc)
  exact (Finset.card_le_card hsub).trans (Finset.card_range _).le

theorem refs_tail {l : List EntryID} (hi : i < s.size) (hW : W i = j :: l) : refs s W j = refs s
    (update W i l) j + 1 := by
  rw [refs, users_tail (Finset.mem_range.mpr hi) hW, Multiset.card_cons]
  rfl

theorem refs_tail_of_ne {l : List EntryID} {k : EntryID} (hi : i < s.size) (hW : W i = j :: l)
    (hk : k ≠ j) : refs s (update W i l) k = refs s W k := by
  rw [refs, users_tail_of_ne (Finset.mem_range.mpr hi) hW hk]
  rfl

theorem total_update {l : List EntryID} (hi : i < s.size) : total s (update W i l) +
    (W i).length = total s W + l.length := by
  have hmem := Finset.mem_range.mpr hi
  rw [total, total, ← Finset.add_sum_erase _ _ hmem, ← Finset.add_sum_erase (Finset.range s.size)
    (fun i => (W i).length) hmem,
    update_self]
  have hrest : ∑ x ∈ (Finset.range s.size).erase i, (update W i l x).length = ∑ x ∈
      (Finset.range s.size).erase i, (W x).length :=
    Finset.sum_congr rfl (fun x hx => by rw [update_of_ne (Finset.ne_of_mem_erase hx)])
  rw [hrest]
  omega

theorem mark_eq (h : i < st.builder.size) : st.mark i = some { st with marked := i :: st.marked } :=
  if_pos h

theorem Dereferenced.link (hs : s.NetOk) (hroot : (s.netlist root).isSome)
    (h : Dereferenced s marks root M E W st) {l : List EntryID} (hi : i ∈ E) (hW : W i = j :: l)
    (hij : s.netlist.Fanin i j) (hpath : Below s root (· ∈ E) n i)
    (hn : n = 0 ∨ marks n = false) : ∃ st' c, st.release (marks (n + 1)) j = some st' ∧
    st'.builder.getCell j = some c ∧
      c.refcount = refs s (update W i l) j ∧
      if c.refcount = 0 ∧ j ∉ st'.marked then
        Dereferenced s marks root M (insert j E) (update W i l) st' ∧ j ∉ E ∧ j ≠ i ∧
          W j = s.targets j ∧ Below s root (· ∈ insert j E) (n + 1) j ∧ marks (n + 1) = false
      else Dereferenced s marks root M E (update W i l) st' := by
  have hne : j ≠ root := hpath.ne_root hs hij
  obtain ⟨g, hg⟩ := isSome_iff_exists.mp (hpath.isSome hs hroot)
  obtain ⟨ci, hci, -⟩ := liveCell_of_netlist hg
  have hilt : i < s.size := lt_of_live hci
  obtain ⟨gj, hgj⟩ := isSome_iff_exists.mp (hs.net.closed' _ _ hij)
  obtain ⟨cj, hcj, -⟩ := liveCell_of_netlist hgj
  have hrefs := refs_tail (s := s) hilt hW
  have hother := fun k hk => refs_tail_of_ne (s := s) (k := k) hilt hW hk
  -- a cell of the cone has lost all its references already
  have hout : j ∉ E := fun hj => by
    have hzero := (h.zero j hj hne).1
    omega
  have htotal := total_update (s := s) (W := W) (l := l) hilt
  rw [hW, List.length_cons] at htotal
  have hcounter := h.counter
  have hderef : st.dereference j = some { st with builder := s.withCounts (refs s (update W i l)), counter :=
      st.counter + 1 } := by
    rw [State.dereference, h.builder, decRefCount_withCounts hcj hrefs hother]
    rfl
  have hsize : j < (s.withCounts (refs s (update W i l))).size :=
    (getCell_eq_some.mp (getCell_of_live hcj)).1
  obtain ⟨st', hst', hbuilder, hcount, hbounds, hmarked⟩ : ∃ st', st.release (marks (n + 1)) j =
    some st' ∧
      st'.builder = s.withCounts (refs s (update W i l)) ∧ st'.counter = st.counter + 1 ∧
      st'.bounds = st.bounds ∧
        st'.marked = if marks (n + 1) then j :: st.marked else st.marked := by
    rw [State.release, hderef]
    by_cases hmark : marks (n + 1) = true
    · refine ⟨_, (if_pos hmark).trans (if_pos hsize), rfl, rfl, rfl, (if_pos hmark).symm⟩
    · refine ⟨_, if_neg hmark, rfl, rfl, rfl, (if_neg hmark).symm⟩
  have hmem : ∀ m, m ∈ st'.marked ↔ (m = j ∧ marks (n + 1) = true) ∨ m ∈ st.marked := by
    intro m
    rw [hmarked]
    split <;> simp_all
  refine ⟨st', { cj with refcount := refs s (update W i l) j }, hst',
    by rw [hbuilder]; exact getCell_withCounts hcj, rfl, ?_⟩
  have hzero : ∀ c ∈ E, c ≠ root → refs s (update W i l) c = 0 ∧ c ∉ st'.marked := by
    intro c hc hcr
    have hcj : c ≠ j := fun heq => hout (heq ▸ hc)
    obtain ⟨hrefs, hun⟩ := h.zero c hc hcr
    refine ⟨by rw [hother c hcj, hrefs], fun hin => ?_⟩
    rcases (hmem c).mp hin with ⟨heq, -⟩ | hin
    · exact hcj heq
    · exact hun hin
  have huntouched : ∀ c, c ∉ E → update W i l c = s.targets c := by
    intro c hc
    have hci : c ≠ i := fun heq => hc (heq ▸ hi)
    rw [update_of_ne hci, h.untouched c hc]
  have hclosed : ∀ c ∈ E, ∀ k, s.netlist.Fanin c k → k ∈ E ∨ 0 < refs s (update W i l) k ∨
      k ∈ st'.marked ∨ k = j := by
    intro c hc k hck
    by_cases hkj : k = j
    · exact .inr (.inr (.inr hkj))
    · rcases h.closed c hc k hck with hk | hk | hk
      · exact .inl hk
      · exact .inr (.inl (by rwa [hother k hkj]))
      · exact .inr (.inr (.inl ((hmem k).mpr (.inr hk))))
  have hgiven : ∀ m ∈ M, m ∈ st'.marked := fun m hm => (hmem m).mpr (.inr (h.given m hm))
  have hmarks : ∀ m ∈ st'.marked, m ∈ M ∨ ∃ n, (n = 0 ∨ marks n = false) ∧ marks (n + 1) = true ∧
      Below s root (· ∈ E) (n + 1) m := by
    intro m hm
    rcases (hmem m).mp hm with ⟨rfl, hmark⟩ | hm
    · exact .inr ⟨n, hn, hmark, .link hpath hi hij⟩
    · exact h.marked m hm
  split
  · rename_i hlast
    have hnomark : marks (n + 1) = false := by
      rw [← Bool.not_eq_true]
      exact fun hmark => hlast.2 ((hmem j).mpr (.inl ⟨rfl, hmark⟩))
    have hsub : E ⊆ insert j E := Finset.subset_insert j E
    have hbelow : Below s root (· ∈ insert j E) (n + 1) j := (Below.link hpath hi hij).mono hsub
    refine ⟨⟨hbuilder, by omega, hbounds.trans h.bounds, hsub h.source, fun c hc => ?_, fun c hc => ?_,
      fun c hc k hck => ?_, fun c hc hcr => ?_,
      hgiven, fun m hm => ?_⟩, hout, fun heq => hout (heq ▸ hi), h.untouched j hout,
      hbelow, hnomark⟩
    · rcases Finset.mem_insert.mp hc with rfl | hc
      · exact ⟨n + 1, hbelow, .inr hnomark⟩
      · obtain ⟨m, hm, hm'⟩ := h.cells c hc
        exact ⟨m, hm.mono hsub, hm'⟩
    · exact huntouched c (fun hin => hc (hsub hin))
    · rcases Finset.mem_insert.mp hc with rfl | hc
      · -- the links of the new cell still count
        refine .inr (.inl (Multiset.card_pos_iff_exists_mem.mpr
          ⟨c, mem_users.mpr ⟨Finset.mem_range.mpr (lt_of_live hcj), ?_⟩⟩))
        rw [huntouched c hout]
        exact fanin_iff.mp hck
      · rcases hclosed c hc k hck with hk | hk | hk | rfl
        · exact .inl (hsub hk)
        · exact .inr (.inl hk)
        · exact .inr (.inr hk)
        · exact .inl (Finset.mem_insert_self k E)
    · rcases Finset.mem_insert.mp hc with rfl | hc
      · exact hlast
      · exact hzero c hc hcr
    · exact (hmarks m hm).imp id (fun ⟨m', h1, h2, h3⟩ => ⟨m', h1, h2, h3.mono hsub⟩)
  · rename_i hlast
    refine ⟨hbuilder, by omega, hbounds.trans h.bounds, h.source, h.cells, huntouched, fun c hc k hck => ?_, hzero,
      hgiven, hmarks⟩
    rcases hclosed c hc k hck with hk | hk | hk | rfl
    · exact .inl hk
    · exact .inr (.inl hk)
    · exact .inr (.inr hk)
    · rcases not_and_or.mp hlast with hpos | hin
      · exact .inr (.inl (Nat.pos_of_ne_zero hpos))
      · exact .inr (.inr (not_not.mp hin))

def Visits (s : SubnetBuilder) (marks : ℕ → Bool) (root : EntryID) (M : List EntryID)
    (fuel depth : ℕ) (visit : EntryID → State → Option State) : Prop :=
  ∀ i E W st, Dereferenced s marks root M E W st → i ∈ E → W i = s.targets i →
    Below s root (· ∈ E) depth i → (depth = 0 ∨ marks depth = false) → s.size < fuel + E.card →
    ∃ E' W' st', visit i st = some st' ∧ Dereferenced s marks root M E' W' st' ∧
    Followed E E' W W' i

theorem Dereferenced.links (hs : s.NetOk) (hroot : (s.netlist root).isSome) {fuel : ℕ}
    {visit : EntryID → State → Option State}
    (hvisit : Visits s marks root M fuel (n + 1) visit) : ∀ {links : List Link} {E W st},
    Dereferenced s marks root M E W st →
      i ∈ E → W i = links.map Link.idx → (∀ l ∈ links, s.netlist.Fanin i l.idx) →
      Below s root (· ∈ E) n i → (n = 0 ∨ marks n = false) → s.size < fuel + 1 + E.card →
      ∃ E' W' st', dereferenceLinks visit (marks (n + 1)) links st = some st' ∧
      Dereferenced s marks root M E' W' st' ∧
        Followed E E' W W' i := by
  intro links
  induction links with
  | nil =>
    intro E W st h hi hW _ _ _ _
    exact ⟨E, W, st, rfl, h, ⟨subset_rfl, hW, fun j hj hnot => absurd hj hnot, fun j _ _ => rfl⟩⟩
  | cons link links ih =>
    intro E W st h hi hW hlinks hpath hn hfuel
    have hrest : ∀ l ∈ links, s.netlist.Fanin i l.idx :=
      fun l hl => hlinks l (List.mem_cons_of_mem link hl)
    obtain ⟨st₁, c, hstep, hcell, -, hcases⟩ :=
      h.link hs hroot hi hW (hlinks link List.mem_cons_self) hpath hn
    have hrun : ∀ {st₂}, (if c.refcount = 0 ∧ link.idx ∉ st₁.marked then visit link.idx st₁ else
        some st₁) = some st₂ → dereferenceLinks visit (marks (n + 1)) (link :: links) st =
        dereferenceLinks visit (marks (n + 1)) links st₂ := by
      intro st₂ hst₂
      rw [dereferenceLinks, hstep, bind_eq_bind, bind_some, hcell,
        bind_eq_bind, bind_some]
      dsimp only
      split at hst₂
      · rename_i hlast
        rw [if_pos hlast, hst₂]
        rfl
      · rename_i hlast
        rw [if_neg hlast, hst₂]
        rfl
    by_cases hlast : c.refcount = 0 ∧ link.idx ∉ st₁.marked
    · rw [if_pos hlast] at hcases
      obtain ⟨h₁, hout, hne, hWj, hbelow, hmark⟩ := hcases
      have hcard : (insert link.idx E).card = E.card + 1 := Finset.card_insert_of_notMem hout
      obtain ⟨E₂, W₂, st₂, hst₂, h₂, hfollowed⟩ :=
        hvisit link.idx _ _ _ h₁ (Finset.mem_insert_self _ E)
        (by rw [update_of_ne hne, hWj]) hbelow (.inr hmark) (by omega)
      have hsub : E ⊆ E₂ := (Finset.subset_insert _ E).trans hfollowed.subset
      have hWi : W₂ i = links.map Link.idx := by
        rw [hfollowed.old i (Finset.mem_insert_of_mem hi) hne.symm, update_self]
      obtain ⟨E₃, W₃, st₃, hst₃, h₃, hfollowed'⟩ := ih h₂ (hsub hi) hWi hrest (hpath.mono hsub) hn
        (Nat.lt_of_lt_of_le hfuel (Nat.add_le_add_left (Finset.card_le_card hsub) _))
      refine ⟨E₃, W₃, st₃, (hrun ((if_pos hlast).trans hst₂)).trans hst₃, h₃,
        hsub.trans hfollowed'.subset, hfollowed'.cell, fun j hj hnot => ?_, fun j hj hji => ?_⟩
      · by_cases hj₂ : j ∈ E₂
        · have hji : j ≠ i := fun heq => hnot (heq ▸ hi)
          rw [hfollowed'.old j hj₂ hji]
          by_cases hjl : j = link.idx
          · rw [hjl, hfollowed.cell]
          · exact hfollowed.new j hj₂ (fun hin => (Finset.mem_insert.mp hin).elim hjl hnot)
        · exact hfollowed'.new j hj hj₂
      · have hjl : j ≠ link.idx := fun heq => hout (heq ▸ hj)
        rw [hfollowed'.old j (hsub hj) hji, hfollowed.old j (Finset.mem_insert_of_mem hj) hjl,
          update_of_ne hji]
    · rw [if_neg hlast] at hcases
      obtain ⟨E₃, W₃, st₃, hst₃, h₃, hfollowed'⟩ :=
        ih hcases hi (update_self ..) hrest hpath hn hfuel
      refine ⟨E₃, W₃, st₃, (hrun (if_neg hlast)).trans hst₃, h₃, hfollowed'.subset, hfollowed'.cell,
        hfollowed'.new, fun j hj hji => ?_⟩
      rw [hfollowed'.old j hj hji, update_of_ne hji]

theorem getLinks_eq (hs : s.LinksStored) (h : (s.netlist i).isSome)
    (hb : st.builder = s.withCounts (refs s W)) : ∃ links, st.builder.getLinks i = some links ∧
    s.targets i = links.map Link.idx ∧ ∀ l ∈ links, s.netlist.Fanin i l.idx := by
  obtain ⟨g, hg⟩ := isSome_iff_exists.mp h
  obtain ⟨c, hc, -, hcl⟩ := liveCell_of_netlist hg
  refine ⟨c.links, by rw [hb, getLinks_withCounts hs hc], targets_of_live hc, fun l hl => ⟨g, hg, l,
    hcl ▸ hl, rfl⟩⟩

theorem visits_dereferenceCells (hs : s.NetOk) (hstored : s.LinksStored)
    (hroot : (s.netlist root).isSome) : ∀ fuel depth, Visits s marks root M fuel depth
    (fun idx st => dereferenceCells marks fuel idx (depth + 1) st) := by
  intro fuel
  induction fuel with
  | zero =>
    intro depth i E W st h _ _ _ _ hlt
    have hle := h.card_le hs hroot
    omega
  | succ fuel ih =>
    intro depth i E W st h hi hW hpath hn hlt
    obtain ⟨links, hlinks, htargets, hfanins⟩ :=
      getLinks_eq (i := i) hstored (hpath.isSome hs hroot) h.builder
    obtain ⟨E', W', st', hrun, h', hfollowed⟩ := h.links hs hroot (ih (depth + 1)) hi
      (hW.trans htargets) hfanins hpath hn hlt
    refine ⟨E', W', st', ?_, h', hfollowed⟩
    change dereferenceCells marks (fuel + 1) i (depth + 1) st = some st'
    rw [dereferenceCells, hlinks]
    exact hrun

theorem refcount_eq_refs (hs : s.NetOk) :
    ∀ i c, s.liveCell i = some c → c.refcount = refs s s.targets i :=
    hs.net.refcount

theorem exists_dereferenceCells (hs : s.NetOk) (hstored : s.LinksStored)
    (hroot : (s.netlist root).isSome) (marks : ℕ → Bool) (M : List EntryID) :
    ∃ E W st, dereferenceCells marks (s.size + 1) root 1 { builder := s, marked := M } = some st ∧
      Dereferenced s marks root M E W st ∧ ∀ i ∈ E, W i = [] := by
  have hinit : Dereferenced s marks root M {root} s.targets { builder := s, marked := M } := by
    refine ⟨(withCounts_eq_self (refcount_eq_refs hs)).symm, zero_add _, rfl,
      Finset.mem_singleton_self root, fun i hi => ?_, fun i _ => rfl, fun i hi j hij => ?_,
      fun i hi hne => ?_, fun m hm => hm, fun m hm => .inl hm⟩
    · rw [Finset.mem_singleton.mp hi]
      exact ⟨0, .root, .inl rfl⟩
    · refine .inr (.inl (Multiset.card_pos_iff_exists_mem.mpr
          ⟨i, mem_users.mpr ⟨Finset.mem_range.mpr ?_, fanin_iff.mp hij⟩⟩))
      exact hs.net.user i (List.ne_nil_of_mem (fanin_iff.mp hij))
    · exact absurd (Finset.mem_singleton.mp hi) hne
  obtain ⟨E, W, st, hrun, h, hfollowed⟩ :=
    visits_dereferenceCells hs hstored hroot (s.size + 1) 0 root _ _ _ hinit
    (Finset.mem_singleton_self root) rfl .root (.inl rfl) (by omega)
  refine ⟨E, W, st, hrun, h, fun i hi => ?_⟩
  by_cases hir : i = root
  · rw [hir, hfollowed.cell]
  · exact hfollowed.new i hi (fun hin => hir (Finset.mem_singleton.mp hin))

end Mffc

end UtopiaEda
