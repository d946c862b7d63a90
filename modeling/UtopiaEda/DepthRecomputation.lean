import UtopiaEda.EntryOrderLayers
import Mathlib.Logic.Relation
import Mathlib.Algebra.BigOperators.Group.List.Basic
import Mathlib.Algebra.GroupWithZero.Nat

/-!
# Recomputing the depths of a fanout

`recomputeFanoutDepths` walks along the order behind the place the root had, gives the
cells with a changed input their new depth and moves them to its layer. The cells that were
not visited yet keep their old order, so every user of a changed cell is still ahead; when
no unvisited link to a changed cell is left, all depths are right again.
-/
namespace UtopiaEda.EntryOrder
open RankedLists List

variable {cell : EntryID → Option SubnetCell} {type : EntryID → CellTypeID}
  {o o' : EntryOrder} {l l' outs V R S : List EntryID} {i j c e root : EntryID} {d N : ℕ}

def depthOf (o : EntryOrder) (i : EntryID) : ℕ := (o.depth i).getD 0

/-- The cell `i` has a link to the cell `j`. -/
def LinksTo (cell : EntryID → Option SubnetCell) (i j : EntryID) : Prop :=
  ∃ c, cell i = some c ∧ ∃ k ∈ c.links, k.idx = j

/-- The depth of `i` is one more than the largest depth of its inputs. -/
def HasDepth (cell : EntryID → Option SubnetCell) (o : EntryOrder) (i : EntryID) : Prop :=
  ∀ c, cell i = some c → o.depth i = some (o.linksDepth c.links)

/-- The order lists the cells `l` in layers and then the output cells `outs`; no cell spans
several entries. -/
structure Ordered (cell : EntryID → Option SubnetCell) (type : EntryID → CellTypeID)
    (o : EntryOrder) (l outs : List EntryID) : Prop where
  layered : o.Layered o.depthOf l outs
  depth : ∀ i ∈ l ++ outs, (o.depth i).isSome
  isCell : ∀ i ∈ l ++ outs, ∃ c, cell i = some c ∧ c.type = type i ∧ c.arity ≤ InPlaceLinks
  out : ∀ i ∈ l ++ outs, type i = .OUT ↔ i ∈ outs
  input : ∀ i ∈ l ++ outs, type i = .IN → ∀ j, ¬ LinksTo cell i j
  closed : ∀ i ∈ l ++ outs, ∀ j, LinksTo cell i j → j ∈ l

theorem depth_eq (h : (o.depth i).isSome) : o.depth i = some (o.depthOf i) := by
  obtain ⟨d, hd⟩ := Option.isSome_iff_exists.mp h
  simp [depthOf, hd]

@[simp] theorem setDepth_depth {x : Option ℕ} : (o.setDepth i x).depth i = x := by
  simp [EntryOrder.setDepth]

@[simp] theorem setDepth_self : (o.setDepth i (some d)).depthOf i = d := by
  simp [depthOf, EntryOrder.setDepth]

theorem setDepth_of_ne (h : j ≠ i) {x : Option ℕ} :
    (o.setDepth i x).depth j = o.depth j := by
  simp [EntryOrder.setDepth, h]

theorem depthOf_of_ne (h : j ≠ i) {x : Option ℕ} : (o.setDepth i x).depthOf j = o.depthOf j := by
  simp [depthOf, setDepth_of_ne h]

theorem linksDepth_congr {links : List Link} (h : ∀ k ∈ links, o'.depth k.idx = o.depth k.idx) :
    o'.linksDepth links = o.linksDepth links := by
  induction links with
  | nil => rfl
  | cons k links ih =>
    simp only [linksDepth, foldr_cons] at ih ⊢
    rw [h k (by simp), ih (fun k hk => h k (by simp [hk]))]

theorem le_linksDepth {links : List Link} {k : Link} (h : k ∈ links) :
    incDepth (o.depth k.idx) ≤ o.linksDepth links := by
  induction links with
  | nil => simp at h
  | cons a links ih =>
    simp only [linksDepth, foldr_cons] at ih ⊢
    rcases mem_cons.mp h with rfl | h
    · omega
    · have := ih h
      omega

theorem exists_linksDepth {links : List Link} (h : 0 < o.linksDepth links) :
    ∃ k ∈ links, incDepth (o.depth k.idx) = o.linksDepth links := by
  induction links with
  | nil => simp [linksDepth] at h
  | cons a links ih =>
    simp only [linksDepth, foldr_cons] at ih h ⊢
    by_cases ha : incDepth (o.depth a.idx) ≤
      foldr (fun l d => max (incDepth (o.depth l.idx)) d) 0 links
    · obtain ⟨k, hk, hkd⟩ := ih (by omega)
      exact ⟨k, by simp [hk], by omega⟩
    · exact ⟨a, by simp, by omega⟩

theorem HasDepth.lt (h : HasDepth cell o i) (hij : LinksTo cell i j) (hj : (o.depth j).isSome) :
    o.depthOf j < o.depthOf i := by
  obtain ⟨c, hc, k, hk, rfl⟩ := hij
  have hle := le_linksDepth (o := o) hk
  rw [depth_eq hj, incDepth] at hle
  have hi := h c hc
  simp only [depthOf, hi, Option.getD_some] at hle ⊢
  omega

theorem HasDepth.congr (h : HasDepth cell o i) (hi : o'.depth i = o.depth i)
    (hj : ∀ j, LinksTo cell i j → o'.depth j = o.depth j) : HasDepth cell o' i := by
  intro c hc
  rw [hi, h c hc, linksDepth_congr (fun k hk => hj k.idx ⟨c, hc, k, hk, rfl⟩)]

theorem Ordered.nodup (h : Ordered cell type o l outs) : (l ++ outs).Nodup := h.layered.lists.nodup

theorem Ordered.not_out (h : Ordered cell type o l outs) (hi : i ∈ l) : type i ≠ .OUT := by
  intro ht
  have hout := (h.out i (by simp [hi])).mp ht
  exact (nodup_append.mp h.nodup).2.2 i hi i hout rfl

theorem Ordered.moveToDepth (h : Ordered cell type o (l ++ c :: l') outs) (hin : type c ≠ .IN)
    (hd : 0 < d → ∃ j ∈ l ++ l', o.depthOf j = d - 1) :
    ∃ o' X Y, o.moveToDepth type c d = some o' ∧ l ++ l' = X ++ Y ∧
      Ordered cell type o' (X ++ c :: Y) outs ∧ o'.size = o.size ∧ o'.depth c = some d ∧
      (∀ i, i ≠ c → o'.depth i = o.depth i) ∧
      ∀ A, A <+: l ++ l' → (∀ i ∈ A, o.depthOf i = 0) → A <+: X := by
  obtain ⟨o₁, ho₁, hs₁, hd₁, hl₁⟩ := h.layered.delete (depth_eq (h.depth c (by simp)))
  have hnd : (c :: (l ++ l' ++ outs)).Nodup := by
    refine (List.Perm.nodup_iff ?_).mp h.nodup
    simp
  obtain ⟨hc, -⟩ := nodup_cons.mp hnd
  have hcl : ∀ i ∈ l ++ l', i ≠ c := fun i hi hic => hc (by simp [← hic] at hi ⊢; tauto)
  have hdep : ∀ i, i ≠ c → (o₁.setDepth c (some d)).depth i = o.depth i := fun i hi => by
    rw [setDepth_of_ne hi, hd₁]
  have hdepOf : ∀ i, i ≠ c → (o₁.setDepth c (some d)).depthOf i = o.depthOf i := fun i hi => by
    simp [depthOf, hdep i hi]
  have hl₂ : (o₁.setDepth c (some d)).Layered (o₁.setDepth c (some d)).depthOf (l ++ l') outs :=
    (hl₁.setDepth c (some d)).congr (fun i hi => (hdepOf i (hcl i hi)).symm)
  have hcs : c < o.size := h.layered.lists.lt c (by simp)
  obtain ⟨o', ho', hs', hd', hl'⟩ := hl₂.add (e := c) hc (hs₁ ▸ hcs)
    (by simp) (h.not_out (by simp)) hin (by
      simp only [setDepth_self]
      intro hpos hnil
      obtain ⟨j, hj, hjd⟩ := hd hpos
      have : j ∈ layer (o₁.setDepth c (some d)).depthOf (l ++ l') (d - 1) := by
        rw [mem_layer, hdepOf j (hcl j hj)]
        exact ⟨hj, hjd⟩
      simp [hnil] at this)
  simp only [setDepth_self] at hl'
  have hsplit := hl₂.sorted.split d
  have hdepth' : ∀ i, i ≠ c → o'.depth i = o.depth i := fun i hi => by rw [hd', hdep i hi]
  have hdc : o'.depth c = some d := by simp [hd']
  refine ⟨o', _, _, ?_, hsplit, ?_, hs'.trans hs₁, hdc, hdepth', fun A hA hzero => ?_⟩
  · simp [EntryOrder.moveToDepth, ho₁, ho']
  · have hperm : ∀ i, i ∈ below (o₁.setDepth c (some d)).depthOf (l ++ l') d ++
        layer (o₁.setDepth c (some d)).depthOf (l ++ l') d ++
        c :: above (o₁.setDepth c (some d)).depthOf (l ++ l') d ↔ i ∈ l ++ c :: l' := by
      intro i
      rw [perm_middle.mem_iff, mem_cons, ← hsplit, perm_middle.mem_iff, mem_cons]
    have hperm' : ∀ i, i ∈ (below (o₁.setDepth c (some d)).depthOf (l ++ l') d ++
        layer (o₁.setDepth c (some d)).depthOf (l ++ l') d ++
        c :: above (o₁.setDepth c (some d)).depthOf (l ++ l') d) ++ outs ↔
        i ∈ (l ++ c :: l') ++ outs := by
      intro i
      rw [mem_append, hperm, ← mem_append]
    refine ⟨?_, fun i hi => ?_, fun i hi => h.isCell i ((hperm' i).mp hi),
      fun i hi => h.out i ((hperm' i).mp hi), fun i hi => h.input i ((hperm' i).mp hi),
      fun i hi j hij => (hperm j).mpr (h.closed i ((hperm' i).mp hi) j hij)⟩
    · have : o'.depthOf = (o₁.setDepth c (some d)).depthOf := by
        funext i
        simp [depthOf, hd']
      rw [this]
      exact hl'
    · by_cases hic : i = c
      · rw [hic, hdc]
        rfl
      · rw [hdepth' i hic]
        exact h.depth i ((hperm' i).mp hi)
  · refine hl₂.sorted.prefix_of_le hA (fun i hi => ?_)
    rw [hdepOf i (hcl i (hA.subset hi)), hzero i hi]
    exact Nat.zero_le d

/-- Number of links from the cell `u` to cells of `S`. -/
def uses (cell : EntryID → Option SubnetCell) (S : List EntryID) (u : EntryID) : ℕ :=
  ((cell u).map (fun c => c.links.countP (fun k => k.idx ∈ S))).getD 0

theorem uses_cons (hc : c ∉ S) (u : EntryID) :
    uses cell (c :: S) u = uses cell S u + uses cell [c] u := by
  unfold uses
  cases cell u with
  | none => rfl
  | some a =>
    simp only [Option.map_some, Option.getD_some]
    induction a.links with
    | nil => rfl
    | cons k links ih =>
      simp only [countP_cons, ih]
      by_cases hk : k.idx = c
      · simp [hk, hc]
        omega
      · simp [hk]
        omega

theorem uses_eq_zero : uses cell S i = 0 ↔ ∀ j ∈ S, ¬ LinksTo cell i j := by
  unfold uses LinksTo
  cases hc : cell i with
  | none => simp
  | some a =>
    simp only [Option.map_some, Option.getD_some, countP_eq_zero, decide_eq_true_eq]
    constructor
    · rintro h j hj ⟨c, hc, k, hk, rfl⟩
      cases hc
      exact h k hk hj
    · exact fun h k hk hj => h k.idx hj ⟨a, rfl, k, hk, rfl⟩

def unvisited (S R : List EntryID) : List EntryID := R.filter (· ∉ S)

@[simp] theorem mem_unvisited : i ∈ unvisited S R ↔ i ∈ R ∧ i ∉ S := by simp [unvisited]

theorem unvisited_cons_of_mem (h : c ∈ S) : unvisited S (c :: R) = unvisited S R := by
  simp [unvisited, h]

theorem unvisited_cons_of_not_mem (h : c ∉ S) : unvisited S (c :: R) = c :: unvisited S R := by
  simp [unvisited, h]

theorem unvisited_insert (h : c ∉ R) : unvisited (c :: S) R = unvisited S R := by
  apply filter_congr
  intro i hi
  have : i ≠ c := by rintro rfl; exact h hi
  simp [this]

/-- State of the loop: the entries `V` lie behind, `R` ahead, the cells `S` got a new depth.
The depth of a tracked cell is right unless the cell is still to be visited. -/
structure Pending (cell : EntryID → Option SubnetCell) (type : EntryID → CellTypeID)
    (root : EntryID) (tracked : EntryID → Prop) (o : EntryOrder) (l outs V R S : List EntryID)
    (N : ℕ) : Prop where
  ordered : Ordered cell type o l outs
  split : l ++ outs = V ++ R
  changed : ∀ j ∈ S, Relation.ReflTransGen (LinksTo cell) j root
  later : (unvisited S R).Pairwise (fun a b => ¬ LinksTo cell a b)
  users : ∀ c ∈ unvisited S R, ∀ u ∈ l ++ outs, LinksTo cell u c → u = root ∨ u ∈ unvisited S R
  formula : ∀ i ∈ l ++ outs, tracked i →
    HasDepth cell o i ∨ i ∈ unvisited S R ∧ ∃ j ∈ S, LinksTo cell i j
  count : N = ((unvisited S R).map (uses cell S)).sum

variable {tracked : EntryID → Prop}

theorem Pending.skip (h : Pending cell type root tracked o l outs V (c :: R) S N) (hc : c ∈ S) :
    Pending cell type root tracked o l outs (V ++ [c]) R S N := by
  have hu := unvisited_cons_of_mem (R := R) hc
  refine ⟨h.ordered, by simp [h.split], h.changed, ?_, ?_, ?_, ?_⟩
  · exact hu ▸ h.later
  · exact hu ▸ h.users
  · exact hu ▸ h.formula
  · exact hu ▸ h.count

theorem Pending.after_append (h : Pending cell type root tracked o l outs V (c :: R) S N) :
    o.getNext (.entry c) = some (after R) := by
  have hl := h.ordered.layered.lists
  rw [h.split] at hl
  have := Lists.getNext (u := V ++ [c]) (v := R) (by simpa using hl)
  simpa using this

private theorem Pending.users_tail (h : Pending cell type root tracked o l outs V (c :: R) S N)
    (hc : c ∉ S) : ∀ a ∈ unvisited S R, ∀ u ∈ l ++ outs, LinksTo cell u a →
      u = root ∨ u ∈ unvisited S R := by
  intro a ha u hu hua
  have hcons := unvisited_cons_of_not_mem (R := R) hc
  have hlater := h.later
  rw [hcons] at hlater
  rcases h.users a (by rw [hcons]; exact mem_cons_of_mem _ ha) u hu hua with hr | hr
  · exact .inl hr
  · rw [hcons] at hr
    rcases mem_cons.mp hr with rfl | hr
    · exact absurd hua ((pairwise_cons.mp hlater).1 a ha)
    · exact .inr hr

/-- Changing the depth of an output cell does not touch the layers. -/
theorem Ordered.setDepth_out (h : Ordered cell type o l outs) (hc : c ∈ outs) (d : ℕ) :
    Ordered cell type (o.setDepth c (some d)) l outs := by
  have hne : ∀ i ∈ l, i ≠ c := by
    rintro i hi rfl
    exact (nodup_append.mp h.nodup).2.2 i hi i hc rfl
  refine ⟨(h.layered.setDepth c (some d)).congr (fun i hi => (depthOf_of_ne (hne i hi)).symm),
    fun i hi => ?_, h.isCell, h.out, h.input, h.closed⟩
  by_cases hic : i = c
  · simp [hic]
  · rw [setDepth_of_ne hic]
    exact h.depth i hi

theorem Pending.uses_le (h : Pending cell type root tracked o l outs V (c :: R) S N) (hc : c ∉ S) :
    N = uses cell S c + ((unvisited S R).map (uses cell S)).sum := by
  rw [h.count, unvisited_cons_of_not_mem hc, map_cons, sum_cons]

theorem Pending.keep {a : SubnetCell}
    (h : Pending cell type root tracked o l outs V (c :: R) S N) (hc : c ∉ S)
    (ha : cell c = some a) (hd : o.depth c = some (o.linksDepth a.links) ∨ c ∈ outs) :
    Pending cell type root tracked (o.setDepth c (some (o.linksDepth a.links))) l outs
      (V ++ [c]) R S (N - uses cell S c) := by
  have hcmem : c ∈ l ++ outs := by simp [h.split]
  -- nothing links to an output, so a new depth of one concerns no other cell
  have hsame : ∀ i ∈ l ++ outs, ∀ j, LinksTo cell i j →
      (o.setDepth c (some (o.linksDepth a.links))).depth j = o.depth j := by
    intro i hi j hij
    by_cases hjc : j = c
    · subst hjc
      rcases hd with hd | hd
      · simp [hd]
      · have hj := h.ordered.closed i hi j hij
        exact absurd rfl ((nodup_append.mp h.ordered.nodup).2.2 j hj j hd)
    · exact setDepth_of_ne hjc
  refine ⟨?_, by simp [h.split], h.changed, ?_, h.users_tail hc, fun i hi ht => ?_, ?_⟩
  · rcases hd with hd | hd
    · have : o.setDepth c (some (o.linksDepth a.links)) = o := by simp [EntryOrder.setDepth, ← hd]
      rw [this]
      exact h.ordered
    · exact h.ordered.setDepth_out hd _
  · have := h.later
    rw [unvisited_cons_of_not_mem hc] at this
    exact (pairwise_cons.mp this).2
  · by_cases hic : i = c
    · subst hic
      left
      intro b hb
      rw [ha] at hb
      cases hb
      rw [setDepth_depth, linksDepth_congr (fun k hk => hsame i hcmem k.idx ⟨a, ha, k, hk, rfl⟩)]
    · rcases h.formula i hi ht with hf | ⟨hu, hj⟩
      · exact .inl (hf.congr (setDepth_of_ne hic) (hsame i hi))
      · right
        rw [unvisited_cons_of_not_mem hc] at hu
        exact ⟨(mem_cons.mp hu).resolve_left hic, hj⟩
  · have := h.uses_le hc
    omega

/-- What the loop needs to know about the links: nothing that the root reaches uses it, and
the reference counts are the numbers of links. -/
structure Rooted (cell : EntryID → Option SubnetCell) (root : EntryID) (tracked : EntryID → Prop)
    (l outs : List EntryID) : Prop where
  loop : ∀ i ∈ l, ¬ LinksTo cell i i
  above : ∀ i ∈ l, Relation.ReflTransGen (LinksTo cell) i root → ¬ LinksTo cell root i
  tracked : ∀ i ∈ l, tracked i
  refcount : ∀ i ∈ l, ∀ a, cell i = some a → a.refcount = ((l ++ outs).map (uses cell [i])).sum

theorem Rooted.perm (h : Rooted cell root tracked l outs) (hp : l'.Perm l) :
    Rooted cell root tracked l' outs := by
  refine ⟨fun i hi => h.loop i (hp.mem_iff.mp hi), fun i hi => h.above i (hp.mem_iff.mp hi),
    fun i hi => h.tracked i (hp.mem_iff.mp hi), fun i hi a ha => ?_⟩
  rw [h.refcount i (hp.mem_iff.mp hi) a ha]
  exact (((hp.append_right outs).map _).sum_eq).symm

private theorem sum_filter {f : EntryID → ℕ} {p : EntryID → Bool}
    (h : ∀ i ∈ R, p i = false → f i = 0) : ((R.filter p).map f).sum = (R.map f).sum := by
  induction R with
  | nil => rfl
  | cons a R ih =>
    have ih := ih (fun i hi => h i (by simp [hi]))
    cases hp : p a with
    | true => simp [hp, ih]
    | false => simp [hp, ih, h a (by simp) hp]

theorem Pending.refcount {a : SubnetCell}
    (h : Pending cell type root tracked o l outs V (c :: R) S N)
    (hr : Rooted cell root tracked l outs) (hc : c ∉ S) (hcl : c ∈ l)
    (hreach : Relation.ReflTransGen (LinksTo cell) c root) (ha : cell c = some a) :
    a.refcount = ((unvisited S R).map (uses cell [c])).sum := by
  rw [hr.refcount c hcl a ha, h.split]
  have hzero : ∀ u ∈ l ++ outs, u ∉ unvisited S R → uses cell [c] u = 0 := by
    intro u hu hnot
    rw [uses_eq_zero]
    intro j hj huj
    rw [mem_singleton.mp hj] at huj
    have hcons := unvisited_cons_of_not_mem (R := R) hc
    rcases h.users c (by simp [hc]) u hu huj with rfl | hmem
    · exact hr.above c hcl hreach huj
    · rw [hcons] at hmem
      rcases mem_cons.mp hmem with rfl | hmem
      exacts [hr.loop u hcl huj, hnot hmem]
  have hnd : (V ++ c :: R).Nodup := h.split ▸ h.ordered.nodup
  have hR : ((unvisited S R).map (uses cell [c])).sum = (R.map (uses cell [c])).sum := by
    apply sum_filter
    intro i hi hp
    have hS : i ∈ S := by simpa using hp
    exact hzero i (by simp [h.split, hi]) (by simp [hS])
  have hV : (V.map (uses cell [c])).sum = 0 := by
    apply sum_eq_zero
    intro n hn
    obtain ⟨u, hu, rfl⟩ := mem_map.mp hn
    refine hzero u (by simp [h.split, hu]) (fun hmem => ?_)
    exact (nodup_append.mp hnd).2.2 u hu u (by simp [(mem_unvisited.mp hmem).1]) rfl
  have hcz : uses cell [c] c = 0 := hzero c (by simp [h.split]) (fun hmem => by
    have hcR := (mem_unvisited.mp hmem).1
    exact (nodup_cons.mp (nodup_append.mp hnd).2.1).1 hcR)
  rw [map_append, sum_append, map_cons, sum_cons, hV, hcz, hR]
  omega

private theorem split_insert {X Y B : List EntryID} (h : V ++ B = X ++ Y) (c : EntryID)
    (outs : List EntryID) : ∃ V' R', X ++ c :: Y ++ outs = V' ++ R' ∧
      after R' = after (B ++ outs) ∧ R'.length ≤ (B ++ outs).length + 1 ∧
      ∀ p : EntryID → Bool, p c = false → R'.filter p = (B ++ outs).filter p := by
  rcases append_eq_append_iff.mp h with ⟨T, rfl, rfl⟩ | ⟨T, rfl, rfl⟩
  · cases T with
    | nil => exact ⟨V ++ [c], Y ++ outs, by simp, by simp, by simp, by simp⟩
    | cons t T =>
      refine ⟨V, t :: T ++ c :: Y ++ outs, by simp, by simp, by simp; omega, fun p hp => ?_⟩
      simp [filter_cons, hp]
  · exact ⟨X ++ c :: T, B ++ outs, by simp, rfl, by simp, fun _ _ => rfl⟩

private theorem prefix_of_not_mem {A V B : List EntryID} (hA : A <+: V ++ c :: B) (hc : c ∉ A) :
    A <+: V := by
  rcases prefix_or_prefix_of_prefix hA (prefix_append V (c :: B)) with h | ⟨T, rfl⟩
  · exact h
  · rw [prefix_append_right_inj] at hA
    cases T with
    | nil => simp
    | cons t T =>
      rw [cons_prefix_cons] at hA
      exact absurd (by simp [hA.1]) hc

theorem Pending.move {a : SubnetCell}
    (h : Pending cell type root tracked o l outs V (c :: R) S N)
    (hr : Rooted cell root tracked l outs) (hc : c ∉ S) (ha : cell c = some a)
    (hd : o.depth c ≠ some (o.linksDepth a.links)) (hout : c ∉ outs) :
    ∃ o' l' V' R', o.moveToDepth type c (o.linksDepth a.links) = some o' ∧ o'.size = o.size ∧
      (∀ i, i ≠ c → o'.depth i = o.depth i) ∧ after R' = after R ∧ R'.length ≤ R.length + 1 ∧
      unvisited (c :: S) R' = unvisited S R ∧ l'.Perm l ∧
      (∀ p : EntryID → Bool, p c = false → l'.filter p = l.filter p) ∧
      (∀ A, A <+: l → c ∉ A → (∀ i ∈ A, o.depthOf i = 0) → A <+: l') ∧
      Relation.ReflTransGen (LinksTo cell) c root ∧
      Pending cell type root tracked o' l' outs V' R' (c :: S)
        (N - uses cell S c + a.refcount) := by
  have hcons := unvisited_cons_of_not_mem (R := R) hc
  have hcmem : c ∈ l ++ outs := by simp [h.split]
  have hcl : c ∈ l := (mem_append.mp hcmem).resolve_right hout
  obtain ⟨B, rfl, rfl⟩ : ∃ B, l = V ++ c :: B ∧ R = B ++ outs := by
    rcases append_eq_append_iff.mp h.split with ⟨T, rfl, hT⟩ | ⟨T, rfl, hT⟩
    · rw [hT] at hout
      simp at hout
    · cases T with
      | nil =>
        rw [nil_append] at hT
        rw [← hT] at hout
        simp at hout
      | cons t B =>
        simp only [cons_append, cons.injEq] at hT
        exact ⟨B, by rw [hT.1], hT.2⟩
  -- the depth is wrong, so an input of the cell was changed
  obtain ⟨j, hj, hcj⟩ : ∃ j ∈ S, LinksTo cell c j := by
    rcases h.formula c hcmem (hr.tracked c hcl) with hf | ⟨-, hj⟩
    · exact absurd (hf a ha) hd
    · exact hj
  have hreach : Relation.ReflTransGen (LinksTo cell) c root := (h.changed j hj).head hcj
  have hin : type c ≠ .IN := fun ht => h.ordered.input c hcmem ht j hcj
  have hnd : (c :: (V ++ B ++ outs)).Nodup := (List.Perm.nodup_iff (by simp)).mp h.ordered.nodup
  obtain ⟨hcVB, -⟩ := nodup_cons.mp hnd
  obtain ⟨o', X, Y, ho', hXY, hord, hs', hdc, hdo, hkept⟩ := h.ordered.moveToDepth hin (by
    intro hpos
    obtain ⟨k, hk, hkd⟩ := exists_linksDepth hpos
    have hck : LinksTo cell c k.idx := ⟨a, ha, k, hk, rfl⟩
    have hkl := h.ordered.closed c hcmem k.idx hck
    have hkc : k.idx ≠ c := fun hkc => hr.loop c hcl (by rw [hkc] at hck; exact hck)
    refine ⟨k.idx, ?_, ?_⟩
    · simp only [mem_append, mem_cons] at hkl ⊢
      tauto
    · rw [depth_eq (h.ordered.depth k.idx (by simp at hkl ⊢; tauto)), incDepth] at hkd
      omega)
  obtain ⟨V', R', hsplit, hafter, hlen, hfilter⟩ := split_insert hXY c outs
  have hperm : (X ++ c :: Y).Perm (V ++ c :: B) :=
    perm_middle.trans ((List.Perm.cons c (.of_eq hXY.symm)).trans perm_middle.symm)
  have hunv : unvisited (c :: S) R' = unvisited S (B ++ outs) := by
    rw [← unvisited_insert (c := c) (S := S) (R := B ++ outs) 
      (fun hcB => hcVB (by rw [append_assoc]; exact mem_append_right _ hcB))]
    exact hfilter (fun i => decide (i ∉ c :: S)) (by simp)
  have hmem : ∀ i, i ∈ X ++ c :: Y ++ outs ↔ i ∈ V ++ c :: B ++ outs := fun i =>
    (hperm.append_right outs).mem_iff
  refine ⟨o', X ++ c :: Y, V', R', ho', hs', hdo, hafter, hlen, hunv, hperm, fun p hp => ?_,
    fun A hA hcA hzero => ?_, hreach,
    hord, hsplit, ?_, ?_, fun b hb u hu hub => ?_, fun i hi ht => ?_, ?_⟩
  · have := congrArg (filter p) hXY
    simp only [filter_append, filter_cons, hp] at this ⊢
    simpa using this.symm
  · have hAV : A <+: V ++ B := (prefix_of_not_mem hA hcA).trans (prefix_append V B)
    exact (hkept A hAV hzero).trans (prefix_append X _)
  · intro i hi
    rcases mem_cons.mp hi with rfl | hi
    exacts [hreach, h.changed i hi]
  · rw [hunv]
    have := h.later
    rw [hcons] at this
    exact (pairwise_cons.mp this).2
  · rw [hunv] at hb ⊢
    exact h.users_tail hc b hb u ((hmem u).mp hu) hub
  · have hi' := (hmem i).mp hi
    rw [hunv]
    by_cases hic : i = c
    · subst hic
      left
      intro b hb
      rw [ha] at hb
      cases hb
      rw [hdc, linksDepth_congr
        (fun k hk => hdo k.idx (fun hk' => hr.loop i hcl ⟨a, ha, k, hk, hk'⟩))]
    · by_cases hlink : LinksTo cell i c
      · -- a user of the moved cell is still ahead
        right
        refine ⟨?_, c, by simp, hlink⟩
        rcases h.users c (by simp [hc]) i hi' hlink with rfl | hu
        · exact absurd hlink (hr.above c hcl hreach)
        · rw [hcons] at hu
          exact (mem_cons.mp hu).resolve_left hic
      · rcases h.formula i hi' ht with hf | ⟨hu, k, hk, hik⟩
        · left
          refine hf.congr (hdo i hic) (fun k hik => hdo k ?_)
          rintro rfl
          exact hlink hik
        · right
          rw [hcons] at hu
          exact ⟨(mem_cons.mp hu).resolve_left hic, k, by simp [hk], hik⟩
  · have hle := h.uses_le hc
    have href := h.refcount hr hc hcl hreach ha
    have hsum : ∀ L : List EntryID, (L.map (uses cell (c :: S))).sum =
        (L.map (uses cell S)).sum + (L.map (uses cell [c])).sum := by
      intro L
      rw [← sum_map_add]
      exact congrArg sum (map_congr_left (fun u _ => uses_cons hc u))
    rw [hunv, hsum]
    omega

theorem Pending.done (h : Pending cell type root tracked o l outs V R S 0) :
    ∀ i ∈ l ++ outs, tracked i → HasDepth cell o i := by
  intro i hi ht
  rcases h.formula i hi ht with hf | ⟨hu, j, hj, hij⟩
  · exact hf
  · have hzero := List.sum_eq_zero_iff_forall_eq_nat.mp h.count.symm
    have := hzero _ (mem_map_of_mem (f := uses cell S) hu)
    exact absurd hij (uses_eq_zero.mp this j hj)

theorem recomputeLoop_spec : ∀ {n : ℕ} {o : EntryOrder} {l V R S : List EntryID} {N : ℕ},
    Pending cell type root tracked o l outs V R S N → Rooted cell root tracked l outs →
    R.length + (unvisited S R).length ≤ n →
    ∃ o' l', recomputeLoop cell type n o S N (after R) = some o' ∧ l'.Perm l ∧
      Ordered cell type o' l' outs ∧ o'.size = o.size ∧
      (∀ i ∈ l' ++ outs, tracked i → HasDepth cell o' i) ∧
      (∀ p : EntryID → Bool, (∀ i ∈ l, Relation.ReflTransGen (LinksTo cell) i root → p i = false) →
        l'.filter p = l.filter p) ∧ (∀ i, i ∉ l ++ outs → o'.depth i = o.depth i) ∧
      ∀ A, A <+: l → (∀ i ∈ A, ¬ Relation.ReflTransGen (LinksTo cell) i root ∧ o.depthOf i = 0) →
      A <+: l' := by
  intro n
  induction n with
  | zero =>
    intro o l V R S N h hr hn
    have hR : R = [] := length_eq_zero_iff.mp (by omega)
    subst hR
    have hN : N = 0 := by simp [h.count, unvisited]
    subst hN
    exact ⟨o, l, rfl, .refl _, h.ordered, rfl, h.done, fun _ _ => rfl, fun _ _ => rfl,
      fun _ hA _ => hA⟩
  | succ n ih =>
    intro o l V R S N h hr hn
    cases N with
    | zero => exact ⟨o, l, rfl, .refl _, h.ordered, rfl, h.done, fun _ _ => rfl, fun _ _ => rfl,
        fun _ hA _ => hA⟩
    | succ N =>
      cases R with
      | nil => simpa [unvisited] using h.count
      | cons c R =>
        have hcmem : c ∈ l ++ outs := by simp [h.split]
        obtain ⟨a, ha, hat, haL⟩ := h.ordered.isCell c hcmem
        have hnext := h.after_append
        by_cases hc : c ∈ S
        · have hu := unvisited_cons_of_mem (R := R) hc
          rw [hu, length_cons] at hn
          obtain ⟨o', l', ho', hrest⟩ := ih (h.skip hc) hr (by omega)
          refine ⟨o', l', ?_, hrest⟩
          simp [recomputeLoop, hc, hnext, ho']
        · have hu := unvisited_cons_of_not_mem (R := R) hc
          rw [hu, length_cons, length_cons] at hn
          have hused : a.links.countP (fun k => decide (k.idx ∈ S)) = uses cell S c := by
            simp [uses, ha]
          have hle := h.uses_le hc
          have hlt : ¬ N + 1 < uses cell S c := by omega
          have hisOut : a.isOut = true ↔ c ∈ outs := by
            rw [← h.ordered.out c hcmem, ← hat]
            simp [SubnetCell.isOut]
          by_cases hd : o.depth c = some (o.linksDepth a.links) ∨ c ∈ outs
          · obtain ⟨o', l', ho', hp, hord, hs, hdep, hf, hframe, hkept⟩ :=
              ih (h.keep hc ha hd) hr (by omega)
            refine ⟨o', l', ?_, hp, hord, hs, hdep, hf, fun i hi => ?_,
              fun A hA hzero => hkept A hA (fun i hi => ?_)⟩
            · simp [recomputeLoop, hc, hnext, ha, hused, hlt, hisOut, hd, ho']
            · rw [hframe i hi, setDepth_of_ne (by rintro rfl; exact hi hcmem)]
            · refine ⟨(hzero i hi).1, ?_⟩
              by_cases hic : i = c
              · subst hic
                rcases hd with hd | hd
                · rw [setDepth_self, ← (hzero i hi).2, depthOf, hd, Option.getD_some]
                · exact absurd rfl
                    ((nodup_append.mp h.ordered.nodup).2.2 i (hA.subset hi) i hd)
              · rw [depthOf_of_ne hic, (hzero i hi).2]
          · obtain ⟨hd, hout⟩ := not_or.mp hd
            obtain ⟨o₁, l₁, V₁, R₁, ho₁, hs₁, hdo, hafter, hlen, hunv, hperm, hfilter, hmoved,
              hreach, h₁⟩ :=
              h.move hr hc ha hd hout
            obtain ⟨o', l', ho', hp, hord, hs, hdep, hf, hframe, hkept⟩ :=
              ih h₁ (hr.perm hperm) (by rw [hunv]; omega)
            have hcl : c ∈ l := (mem_append.mp hcmem).resolve_right hout
            refine ⟨o', l', ?_, hp.trans hperm, hord, hs.trans hs₁, hdep, fun p hpr => ?_,
              fun i hi => ?_, fun A hA hzero => ?_⟩
            · rw [hafter] at ho'
              simp [recomputeLoop, hc, hnext, ha, hused, hlt, hisOut, hd, hout, ho₁, ho']
            · rw [hf p (fun i hi => hpr i (hperm.mem_iff.mp hi)), hfilter p (hpr c hcl hreach)]
            · rw [hframe i (fun hmem => hi ((hperm.append_right outs).mem_iff.mp hmem)),
                hdo i (by rintro rfl; exact hi hcmem)]
            · have hcA : c ∉ A := fun hcA => (hzero c hcA).1 hreach
              refine hkept A (hmoved A hA hcA (fun i hi => (hzero i hi).2))
                (fun i hi => ⟨(hzero i hi).1, ?_⟩)
              rw [depthOf, hdo i (fun hic => hcA (hic ▸ hi)), ← depthOf, (hzero i hi).2]

theorem Ordered.pairwise {r : EntryID} (h : Ordered cell type o l outs)
    (hF : ∀ i ∈ l, i ≠ r → HasDepth cell o i) :
    (l ++ outs).Pairwise (fun a b => a ≠ r → ¬ LinksTo cell a b) := by
  have hclosed : ∀ a ∈ l ++ outs, ∀ b ∈ outs, ¬ LinksTo cell a b := by
    intro a ha b hb hab
    exact (nodup_append.mp h.nodup).2.2 b (h.closed a ha b hab) b hb rfl
  refine pairwise_append.mpr ⟨?_, ?_, ?_⟩
  · refine h.layered.sorted.imp_of_mem (fun {a b} ha hb hle hne hab => ?_)
    have := (hF a ha hne).lt hab (h.depth b (mem_append_left _ hb))
    omega
  · exact pairwise_of_forall_mem_list (fun a ha b hb _ =>
      hclosed a (mem_append_right _ ha) b hb)
  · exact fun a ha b hb _ => hclosed a (mem_append_left _ ha) b hb

theorem Ordered.relocate {a : SubnetCell} (h : Ordered cell type o (l ++ root :: l') outs)
    (hr : Rooted cell root tracked (l ++ root :: l') outs) (ha : cell root = some a)
    (hF : ∀ i ∈ l ++ root :: l' ++ outs, tracked i → i ≠ root → HasDepth cell o i)
    (hin : type root ≠ .IN) :
    ∃ o₁ o' m, o.moveToDepth type root (o.linksDepth a.links) = some o₁ ∧
      o₁.recomputeFanoutDepths cell type root (after (l' ++ outs)) = some o' ∧
      m.Perm (l ++ root :: l') ∧ Ordered cell type o' m outs ∧ o'.size = o.size ∧
      (∀ i ∈ m ++ outs, tracked i → HasDepth cell o' i) ∧
      (∀ p : EntryID → Bool, (∀ i ∈ l ++ root :: l',
        Relation.ReflTransGen (LinksTo cell) i root → p i = false) →
        m.filter p = (l ++ root :: l').filter p) ∧
      (∀ i, i ∉ l ++ root :: l' ++ outs → o'.depth i = o.depth i) ∧
      ∀ A, A <+: l ++ l' → (∀ i ∈ A, ¬ Relation.ReflTransGen (LinksTo cell) i root ∧
      o.depthOf i = 0) → A <+: m := by
  have hmem : root ∈ l ++ root :: l' ++ outs := by simp
  have hrl : root ∈ l ++ root :: l' := by simp
  have hnd : (root :: (l ++ l' ++ outs)).Nodup := (List.Perm.nodup_iff (by simp)).mp h.nodup
  obtain ⟨hroot, -⟩ := nodup_cons.mp hnd
  have hnr : ∀ i ∈ l' ++ outs, i ≠ root := by
    rintro i hi rfl
    exact hroot (by rw [append_assoc]; exact mem_append_right _ hi)
  have hnl : ∀ i ∈ l, i ≠ root := by
    rintro i hi rfl
    exact hroot (by simp [hi])
  obtain ⟨o₁, X, Y, ho₁, hXY, hord, hs₁, hdc, hdo, hmoved⟩ := h.moveToDepth hin (by
    intro hpos
    obtain ⟨k, hk, hkd⟩ := exists_linksDepth hpos
    have hck : LinksTo cell root k.idx := ⟨a, ha, k, hk, rfl⟩
    have hkl := h.closed root hmem k.idx hck
    have hkc : k.idx ≠ root := fun hkc => hr.loop root hrl (by rw [hkc] at hck; exact hck)
    refine ⟨k.idx, ?_, ?_⟩
    · simp only [mem_append, mem_cons] at hkl ⊢
      tauto
    · rw [depth_eq (h.depth k.idx (mem_append_left _ hkl)), incDepth] at hkd
      omega)
  obtain ⟨V', R', hsplit, hafter, hlen, hfilter⟩ := split_insert hXY root outs
  have hperm : (X ++ root :: Y).Perm (l ++ root :: l') :=
    perm_middle.trans ((List.Perm.cons root (.of_eq hXY.symm)).trans perm_middle.symm)
  have hmem' : ∀ i, i ∈ X ++ root :: Y ++ outs ↔ i ∈ l ++ root :: l' ++ outs := fun i =>
    (hperm.append_right outs).mem_iff
  have hunv : unvisited [root] R' = l' ++ outs := by
    have : unvisited [root] (l' ++ outs) = l' ++ outs := by
      simp only [unvisited, filter_eq_self]
      exact fun i hi => by simp [hnr i hi]
    rw [← this]
    exact hfilter (fun i => decide (i ∉ [root])) (by simp)
  have hpair := h.pairwise (r := root)
    (fun i hi => hF i (mem_append_left _ hi) (hr.tracked i hi))
  rw [append_assoc, pairwise_append] at hpair
  obtain ⟨-, hpair₂, hpair₁⟩ := hpair
  have huse : ∀ i ∈ l ++ root :: l' ++ outs, LinksTo cell i root → i ∈ l' ++ outs := by
    intro i hi hir
    rw [append_assoc, mem_append, cons_append, mem_cons] at hi
    rcases hi with hi | rfl | hi
    · exact absurd hir (hpair₁ i hi root (by simp) (hnl i hi))
    · exact absurd hir (hr.loop i hrl)
    · exact hi
  have hp : Pending cell type root tracked o₁ (X ++ root :: Y) outs V' R' [root] a.refcount := by
    refine ⟨hord, hsplit, ?_, ?_, ?_, ?_, ?_⟩
    · intro j hj
      rw [mem_singleton.mp hj]
    · rw [hunv]
      refine (pairwise_cons.mp hpair₂).2.imp_of_mem (fun {a b} ha _ hab => ?_)
      exact hab (hnr a ha)
    · rw [hunv]
      intro c hc u hu huc
      have hu := (hmem' u).mp hu
      rw [append_assoc, mem_append, cons_append, mem_cons] at hu
      rcases hu with hu | hu | hu
      · exact absurd huc (hpair₁ u hu c (mem_cons_of_mem _ hc) (hnl u hu))
      · exact .inl hu
      · exact .inr hu
    · intro i hi ht
      have hi := (hmem' i).mp hi
      rw [hunv]
      by_cases hir : i = root
      · subst hir
        left
        intro b hb
        rw [ha] at hb
        cases hb
        rw [hdc, linksDepth_congr
          (fun k hk => hdo k.idx (fun hk' => hr.loop i hrl ⟨a, ha, k, hk, hk'⟩))]
      · by_cases hlink : LinksTo cell i root
        · exact .inr ⟨huse i hi hlink, root, by simp, hlink⟩
        · left
          refine (hF i hi ht hir).congr (hdo i hir) (fun j hij => hdo j ?_)
          rintro rfl
          exact hlink hij
    · have hzero : ((l ++ [root]).map (uses cell [root])).sum = 0 := by
        apply sum_eq_zero
        intro n hn
        obtain ⟨u, hu, rfl⟩ := mem_map.mp hn
        rw [uses_eq_zero]
        intro j hj huj
        rw [mem_singleton.mp hj] at huj
        rcases mem_append.mp hu with hu | hu
        · exact hpair₁ u hu root (by simp) (hnl u hu) huj
        · rw [mem_singleton.mp hu] at huj
          exact hr.loop root hrl huj
      rw [hr.refcount root hrl a ha, hunv, show l ++ root :: l' ++ outs = (l ++ [root]) ++
        (l' ++ outs) by
        simp, map_append, sum_append, hzero, Nat.zero_add]
  have hlen' : R'.length + (unvisited [root] R').length ≤ 2 * o₁.size := by
    have h₁ := hord.layered.lists.length_le
    have h₂ : R'.length ≤ (X ++ root :: Y ++ outs).length := by
      rw [hsplit, length_append]
      omega
    have h₃ : (unvisited [root] R').length ≤ R'.length := length_filter_le _ _
    omega
  obtain ⟨o', m, ho', hpm, hord', hs', hdep, hf, hframe, hkept⟩ :=
    recomputeLoop_spec hp (hr.perm hperm) hlen'
  refine ⟨o₁, o', m, ho₁, ?_, hpm.trans hperm, hord', hs'.trans hs₁, hdep, fun p hpr => ?_,
    fun i hi => ?_, fun A hA hzero => ?_⟩
  · simp [recomputeFanoutDepths, ha, ← hafter, ho']
  · rw [hf p (fun i hi => hpr i (hperm.mem_iff.mp hi))]
    have := congrArg (filter p) hXY
    simp only [filter_append, filter_cons, hpr root hrl .refl] at this ⊢
    simpa using this.symm
  · rw [hframe i (fun hmem => hi ((hmem' i).mp hmem)), hdo i (by rintro rfl; exact hi hmem)]
  · have hA' : A <+: X ++ root :: Y :=
      (hmoved A hA (fun i hi => (hzero i hi).2)).trans (prefix_append X _)
    refine hkept A hA' (fun i hi => ⟨(hzero i hi).1, ?_⟩)
    rw [depthOf, hdo i (by rintro rfl; exact (hzero i hi).1 .refl), ← depthOf, (hzero i hi).2]

end UtopiaEda.EntryOrder
