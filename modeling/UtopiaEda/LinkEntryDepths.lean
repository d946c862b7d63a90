import UtopiaEda.LinkEntryOperations

/-!
# Depths and entries of links

If the depths are exact, `recomputeFanoutDepths` moves only cells that reach the root. It counts the
links to the moved cells that it has not met yet, so the depths are exact again when none is left.
-/
namespace UtopiaEda.SubnetBuilder

open Function (update update_self update_of_ne)
open EntryOrder Finset Incidence

variable {s s' s₁ : SubnetBuilder} {l S : List EntryID} {i j k root : EntryID}
  {c : SubnetCell} {d N : ℕ} {o o' : EntryOrder} {t : CellTypeID} {links : List Link}
  {chain : EntryID → List EntryID} {seg : ℕ → List EntryID} {w : EntryID → ℕ} {D : Finset EntryID}

/-! ### Counting links -/

theorem linksTo_iff : LinksTo s.liveCell i j ↔ s.netlist.Fanin i j := by
  constructor
  · rintro ⟨a, ha, m, hm, rfl⟩
    exact ⟨_, netlist_of_live ha, m, hm, rfl⟩
  · rintro ⟨g, hg, m, hm, rfl⟩
    obtain ⟨a, ha, -, hal⟩ := liveCell_of_netlist hg
    exact ⟨a, ha, m, hal ▸ hm, rfl⟩

theorem NetOk.not_linksTo_self (h : NetOk s) : ¬ LinksTo s.liveCell i i := fun hii =>
  not_reaches_of_fanin h.acyclic (linksTo_iff.mp hii) .refl

theorem NetOk.target (h : NetOk s) (hij : LinksTo s.liveCell i j) :
    ∃ a, s.liveCell j = some a ∧ a.type ≠ .OUT :=
  h.net.target i j (mem_targets.mpr (linksTo_iff.mp hij))

theorem NetOk.refcount (h : NetOk s) (hc : s.liveCell i = some c) :
    c.refcount = ∑ k ∈ range s.size, uses s.liveCell [i] k := by
  rw [h.net.refcount i c hc, card_users]
  refine sum_congr rfl (fun k _ => ?_)
  cases hk : s.liveCell k with
  | none =>
    rw [targets_of_dead hk, uses, hk]
    rfl
  | some a =>
    rw [uses, hk, targets_of_live hk, Option.map_some, Option.getD_some, List.count,
      List.countP_map]
    refine List.countP_congr (fun m _ => ?_)
    simp

theorem uses_of_live (hc : s.liveCell i = some c) :
    uses s.liveCell S i = c.links.countP (fun k => k.idx ∈ S) := by
  rw [uses, hc]
  rfl

private theorem sum_update (hi : i < N) (hw : w i = 0) (n : ℕ) :
    ∑ k ∈ range N, update w i n k = n + ∑ k ∈ range N, w k := by
  rw [sum_update_of_mem (mem_range.mpr hi), sdiff_singleton_eq_erase, sum_erase _ hw]

/-! ### The depths -/

private theorem hasDepth_self (hs : NetOk s) (hc : s.liveCell i = some c)
    (ho : o'.depth = update o.depth i (some (o.linksDepth c.links))) :
    HasDepth s.liveCell o' i := by
  intro b hb
  obtain rfl := Option.some.inj (hc.symm.trans hb)
  rw [ho, update_self, linksDepth_congr (fun m hm => ?_)]
  rw [ho, update_of_ne]
  rintro rfl
  exact hs.not_linksTo_self ⟨c, hc, m, hm, rfl⟩

private theorem hasDepth_of_ne {x : Option ℕ} (h : HasDepth s.liveCell o k) (hk : k ≠ i)
    (hki : ¬ LinksTo s.liveCell k i) (ho : o'.depth = update o.depth i x) :
    HasDepth s.liveCell o' k := by
  refine h.congr (by rw [ho, update_of_ne hk]) (fun j hj => ?_)
  rw [ho, update_of_ne]
  rintro rfl
  exact hki hj

/-- Of the links of a cell `i` to the moved cells `S`, `w i` were met; `N` are left. -/
structure Recounted (s : SubnetBuilder) (root : EntryID) (o : EntryOrder) (S : List EntryID) (N : ℕ)
    (w : EntryID → ℕ) : Prop where
  mem : root ∈ S
  live : ∀ j ∈ S, (s.liveCell j).isSome
  reaches : ∀ j ∈ S, s.netlist.Reaches j root
  le : ∀ i, w i ≤ uses s.liveCell S i
  count : N + ∑ i ∈ range s.size, w i = ∑ i ∈ range s.size, uses s.liveCell S i
  depth : ∀ i, w i = uses s.liveCell S i → HasDepth s.liveCell o i

theorem Recounted.start (hs : NetOk s) (hc : s.liveCell root = some c)
    (hexact : ∀ i, i ≠ root → HasDepth s.liveCell s.order i)
    (ho : o.depth = update s.order.depth root (some (s.order.linksDepth c.links))) :
    Recounted s root o [root] c.refcount (fun _ => 0) := by
  refine ⟨List.mem_singleton_self root, fun j hj => ?_, fun j hj => ?_, fun i => Nat.zero_le _, ?_,
    fun i hi => ?_⟩
  · rw [List.mem_singleton.mp hj, hc]
    rfl
  · rw [List.mem_singleton.mp hj]
    exact .refl
  · rw [sum_const_zero, Nat.add_zero, hs.refcount hc]
  · by_cases hir : i = root
    · rw [hir]
      exact hasDepth_self hs hc ho
    · exact hasDepth_of_ne (hexact i hir) hir
        (uses_eq_zero.mp hi.symm root (List.mem_singleton_self root)) ho

/-- A cell with a wrong depth has a fanin that was moved. -/
theorem Recounted.exists_fanin (h : Recounted s root o S N w) (hc : s.liveCell i = some c)
    (hi : w i = 0) (hd : o.depth i ≠ some (o.linksDepth c.links)) : ∃ j ∈ S,
    LinksTo s.liveCell i j := by
  by_contra hno
  have hzero : uses s.liveCell S i = 0 := uses_eq_zero.mpr (fun j hj hij => hno ⟨j, hj, hij⟩)
  exact hd (h.depth i (hi.trans hzero.symm) c hc)

theorem Recounted.keep (h : Recounted s root o S N w) (hs : NetOk s) (hc : s.liveCell i = some c)
    (hi : w i = 0) (hle : c.links.countP (fun k => k.idx ∈ S) ≤ N)
    (hcond : o.depth i = some (o.linksDepth c.links) ∨ c.isOut) :
    Recounted s root (o.setDepth i (some (o.linksDepth c.links))) S
    (N - c.links.countP (fun k => k.idx ∈ S))
      (update w i (uses s.liveCell S i)) := by
  refine ⟨h.mem, h.live, h.reaches, fun k => ?_, ?_, fun k hk => ?_⟩
  · by_cases hki : k = i
    · rw [hki, update_self]
    · rw [update_of_ne hki]
      exact h.le k
  · have hcount := h.count
    rw [sum_update (lt_of_live hc) hi, uses_of_live hc]
    omega
  · by_cases hki : k = i
    · rw [hki]
      exact hasDepth_self hs hc rfl
    · rw [update_of_ne hki] at hk
      rcases hcond with hd | hout
      · -- nothing changes
        have hsame : (o.setDepth i (some (o.linksDepth c.links))).depth = o.depth := by
          rw [← hd]
          exact Function.update_eq_self ..
        exact (h.depth k hk).congr (by rw [hsame]) (fun j _ => by rw [hsame])
      · refine hasDepth_of_ne (h.depth k hk) hki (fun hlink => ?_) rfl
        obtain ⟨a, ha, hat⟩ := hs.target hlink
        obtain rfl := Option.some.inj (hc.symm.trans ha)
        exact hat (of_decide_eq_true hout)

theorem Recounted.move (h : Recounted s root o S N w) (hs : NetOk s) (hc : s.liveCell i = some c)
    (hi : w i = 0) (hS : i ∉ S) (hle : c.links.countP (fun k => k.idx ∈ S) ≤ N)
    (hd : o.depth i ≠ some (o.linksDepth c.links))
    (ho : o'.depth = update o.depth i (some (o.linksDepth c.links))) :
    Recounted s root o' (i :: S) (N - c.links.countP (fun k => k.idx ∈ S) + c.refcount)
      (update w i (uses s.liveCell S i)) := by
  obtain ⟨m, hm, him⟩ := h.exists_fanin hc hi hd
  have huses : ∀ k, uses s.liveCell (i :: S) k = _ := uses_cons hS
  refine ⟨List.mem_cons_of_mem i h.mem, fun j hj => ?_, fun j hj => ?_, fun k => ?_, ?_,
    fun k hk => ?_⟩
  · rcases List.mem_cons.mp hj with rfl | hj
    · rw [hc]
      rfl
    · exact h.live j hj
  · rcases List.mem_cons.mp hj with rfl | hj
    · exact (h.reaches m hm).head (linksTo_iff.mp him)
    · exact h.reaches j hj
  · rw [huses]
    by_cases hki : k = i
    · rw [hki, update_self]
      exact Nat.le_add_right _ _
    · rw [update_of_ne hki]
      exact Nat.le_add_right_of_le (h.le k)
  · have hcount := h.count
    have hrefcount := hs.refcount hc
    have hsplit : ∑ k ∈ range s.size, uses s.liveCell (i :: S) k =
        ∑ k ∈ range s.size, uses s.liveCell S k + ∑ k ∈ range s.size, uses s.liveCell [i] k := by
      rw [← sum_add_distrib]
      exact sum_congr rfl (fun k _ => huses k)
    rw [sum_update (lt_of_live hc) hi, uses_of_live hc, hsplit]
    omega
  · by_cases hki : k = i
    · rw [hki]
      exact hasDepth_self hs hc ho
    · rw [update_of_ne hki, huses] at hk
      have hwk := h.le k
      have hzero : uses s.liveCell [i] k = 0 := by omega
      exact hasDepth_of_ne (h.depth k (by omega)) hki
        (uses_eq_zero.mp hzero i (List.mem_singleton_self i)) ho

theorem Recounted.done (h : Recounted s root o S 0 w) (i : EntryID) : HasDepth s.liveCell o i := by
  intro c hc
  have hall := (sum_eq_sum_iff_of_le (fun i _ => h.le i)).mp ((Nat.zero_add _).symm.trans h.count)
  exact h.depth i (hall i (mem_range.mpr (lt_of_live hc))) c hc

/-! ### The loop -/

/-- No other cell with entries of links reaches the root. -/
def NarrowAbove (s : SubnetBuilder) (root : EntryID) : Prop :=
  ∀ i c, s.liveCell i = some c → c.IsWide → i ≠ root → ¬ s.netlist.Reaches i root

/-- The walk goes on at `p`; no link of a cell behind `p` was met. -/
def Walking (s : SubnetBuilder) (root : EntryID) (_ : ℕ) (o : EntryOrder) (l S : List EntryID)
    (N : ℕ) (p : Place) : Prop :=
  o.Lists l ∧ ∃ w u v, Recounted s root o S N w ∧ l = u ++ v ∧
    (∀ i, p = .entry i → i ∉ s.emptyEntryIDs → p = after v) ∧ ∀ i ∈ v, i ∉ S → w i = 0

private theorem Walking.at_live {n : ℕ} (h : Walking s root n o l S N (.entry i))
    (hi : (s.liveCell i).isSome) : ∃ w u v, Recounted s root o S N w ∧ l = u ++ i :: v ∧ o.Lists l ∧
    (i ∉ S → w i = 0) ∧
      (∀ k ∈ v, k ∉ S → w k = 0) ∧ ∀ p, o.getNext (.entry i) = some p → p = after v := by
  obtain ⟨hl, w, u, v, h, rfl, hp, hw⟩ := h
  obtain ⟨c, hc⟩ := Option.isSome_iff_exists.mp hi
  have hafter := hp i rfl (liveCell_eq_some.mp hc).1
  cases v with
  | nil => cases hafter
  | cons a v =>
    obtain rfl := Place.entry.inj hafter
    refine ⟨w, u, v, h, rfl, hl, hw i (List.mem_cons_self ..),
      fun k hk => hw k (List.mem_cons_of_mem i hk), fun p hnext => ?_⟩
    have hget := Lists.getNext (o := o) (u := u ++ [i]) (v := v) (by simpa using hl)
    rw [before_concat, hnext] at hget
    exact Option.some.inj hget

/-- The moved entry may be put behind the place where the walk goes on. -/
private theorem Relocated.rest {u v : List EntryID} {l' : List EntryID}
    (h : Relocated i (u ++ i :: v) l') (hnd : (u ++ i :: v).Nodup) : ∃ u' v', l' = u' ++ v' ∧
    after v' = after v ∧ ∀ k ∈ v', k = i ∨ k ∈ v := by
  obtain ⟨a, b, x, y, hab, rfl, hxy⟩ := h
  obtain ⟨rfl, rfl⟩ : u = a ∧ v = b := by
    obtain ⟨-, hv, hdisjoint⟩ := List.nodup_append.mp hnd
    have hu : i ∉ u := fun hmem => hdisjoint i hmem i (List.mem_cons_self ..) rfl
    obtain ⟨hua, -, hvb⟩ := (List.append_cons_inj_of_notMem hu (List.nodup_cons.mp hv).1).mp hab
    exact ⟨hua, hvb⟩
  rcases List.append_eq_append_iff.mp hxy with ⟨T, rfl, rfl⟩ | ⟨T, rfl, rfl⟩
  · cases T with
    | nil => exact ⟨u ++ [i], y, by simp, by simp, fun k hk => .inr (by simpa using hk)⟩
    | cons e T =>
      refine ⟨u, e :: T ++ i :: y, by simp, rfl, fun k hk => ?_⟩
      simp only [List.cons_append, List.mem_cons, List.mem_append] at hk ⊢
      tauto
  · exact ⟨x ++ i :: T, v, by simp, rfl, fun k hk => .inr hk⟩

theorem recomputeInvariant_walking (hs : NetOk s) (hnarrow : s.NarrowAbove root) :
    RecomputeInvariant s (Walking s root) := by
  constructor
  · intro n o l S N i p h hi hp
    obtain ⟨w, u, v, hw, rfl, hl, -, hrest, hnext⟩ := h.at_live (by
      obtain ⟨-, w, u, v, hw, -⟩ := h
      exact hw.live i hi)
    exact ⟨hl, w, u ++ [i], v, hw, by simp, fun _ _ _ => hnext p hp, hrest⟩
  · intro n o l S N i p c h hi hc hp hle hcond
    obtain ⟨w, u, v, hw, rfl, hl, hwi, hrest, hnext⟩ := h.at_live (by rw [hc]; rfl)
    have hnot : i ∉ v := (List.nodup_cons.mp (List.nodup_append.mp hl.nodup).2.1).1
    refine ⟨hl.congr rfl rfl rfl rfl rfl, _, u ++ [i], v,
      hw.keep hs hc (hwi hi) hle hcond, by simp, fun _ _ _ => hnext p hp,
      fun k hk hkS => ?_⟩
    rw [update_of_ne (fun hki : k = i => hnot (hki ▸ hk))]
    exact hrest k hk hkS
  · intro n o l S N i p c h hi hc hp hcond hwide
    obtain ⟨w, u, v, hw, -, -, hwi, -⟩ := h.at_live (by rw [hc]; rfl)
    obtain ⟨m, hm, him⟩ := hw.exists_fanin hc (hwi hi) (fun hd => hcond (.inl hd))
    refine hnarrow i c hc hwide (fun hir => hi (hir ▸ hw.mem)) ?_
    exact (hw.reaches m hm).head (linksTo_iff.mp him)
  · intro n o l S N i p c o' l' h hi hc hp hle hcond ho' hl' hmoved hdepth
    obtain ⟨w, u, v, hw, rfl, hl, hwi, hrest, hnext⟩ := h.at_live (by rw [hc]; rfl)
    have hnot : i ∉ v := (List.nodup_cons.mp (List.nodup_append.mp hl.nodup).2.1).1
    obtain ⟨u', v', rfl, hafter, hsub⟩ := hmoved.rest hl.nodup
    refine ⟨hl', _, u', v', hw.move hs hc (hwi hi) hi hle (fun hd => hcond (.inl hd)) hdepth, rfl,
      fun _ _ _ => (hnext p hp).trans hafter.symm, fun k hk hkS => ?_⟩
    obtain ⟨hki, hkS⟩ := not_or.mp (mt List.mem_cons.mpr hkS)
    rw [update_of_ne hki]
    exact hrest k ((hsub k hk).resolve_left hki) hkS

/-! ### Replacing a cell -/

theorem Replaced.reaches_root (h : Replaced s s₁ root t links D) (hi : s₁.netlist.Reaches i root) :
    s.netlist.Reaches i root := by
  induction hi using Relation.ReflTransGen.head_induction_on with
  | refl => exact .refl
  | @head a b hab _ ih =>
    by_cases har : a = root
    · rw [har]
      exact .refl
    · obtain ⟨g, hg, hab⟩ := hab
      rw [h.netlist, if_neg har] at hg
      split at hg
      · cases hg
      · exact ih.head ⟨g, hg, hab⟩

theorem Replaced.of_liveCell (h : Replaced s s₁ root t links D) (hi : i ≠ root)
    (hc : s₁.liveCell i = some c) : ∃ a, s.liveCell i = some a ∧ a.type = c.type ∧
    a.links = c.links := by
  have hg := netlist_of_live hc
  rw [h.netlist, if_neg hi] at hg
  split at hg
  · cases hg
  · obtain ⟨a, ha, hat, hal⟩ := liveCell_of_netlist hg
    exact ⟨a, ha, hat, hal⟩

theorem Replaced.narrowAbove (h : Replaced s s₁ root t links D) (hnarrow : s.NarrowAbove root) :
    s₁.NarrowAbove root := by
  intro i c hc hw hi hreach
  obtain ⟨a, ha, -, hal⟩ := h.of_liveCell hi hc
  refine hnarrow i a ha ?_ hi (h.reaches_root hreach)
  rwa [SubnetCell.IsWide, SubnetCell.arity, hal]

/-- Replacing a cell keeps the depths exact and the entries of links behind their cells if the root
keeps its depth or no cell with such entries is above it. -/
theorem Chained.replaceCell_exact {del : Bool} {r : Link} (h : Chained s chain l seg) (hs : NetOk s)
    (hexact : s.DepthsExact) (hfit : CellFits s root links) (hlen : links.length ≤ InPlaceLinks)
    (hkeep : s.order.depth root = some (s.order.linksDepth links) ∨ s.NarrowAbove root)
    (hrep : s.replaceCell root t links del = some (s', r)) :
    ∃ l' seg', Chained s' chain l' seg' ∧ s'.DepthsExact := by
  obtain ⟨g, hg⟩ := Option.isSome_iff_exists.mp hfit.live
  obtain ⟨a, ha, -⟩ := liveCell_of_netlist hg
  obtain ⟨hen, s₁, p, hrel, hp, hreorder⟩ := of_replaceCell_relinked (getCell_of_live ha) hrep
  have ht : t = .OUT → a.type = .OUT := by
    rintro rfl
    exact hen.elim (fun hen => by cases hen) And.right
  obtain ⟨l₁, seg₁, D, h₁, hmem, hs₁, hrepl, hdep⟩ := h.relinked hs hfit ha ht hlen hrel
  obtain ⟨n, hroot⟩ := hrepl.liveCell_root
  have hlive : ∀ {j b}, s₁.liveCell j = some b → s₁.order.depth j = s.order.depth j := fun hj =>
    hdep _ (liveCell_eq_some.mp hj).1
  have hlinks : ∀ {j b}, s₁.liveCell j = some b → s₁.order.linksDepth b.links =
      s.order.linksDepth b.links := by
    intro j b hj
    refine linksDepth_congr (fun m hm => ?_)
    obtain ⟨e, he, -⟩ := hs₁.target ⟨b, hj, m, hm, rfl⟩
    exact hlive he
  have hother : ∀ i, i ≠ root → HasDepth s₁.liveCell s₁.order i := by
    intro i hi b hb
    obtain ⟨e, he, -, hel⟩ := hrepl.of_liveCell hi hb
    rw [hlive hb, hlinks hb, hexact i e he, hel]
  have hd := hlinks hroot
  dsimp only at hd
  by_cases hdepth : s₁.order.depth root = some (s.order.linksDepth links)
  · rw [SubnetBuilder.reorder, if_pos hdepth] at hreorder
    cases hreorder
    refine ⟨l₁, seg₁, h₁, fun i => ?_⟩
    by_cases hi : i = root
    · subst hi
      intro b hb
      obtain rfl := Option.some.inj (hroot.symm.trans hb)
      rw [hdepth, hd]
    · exact hother i hi
  · have hn : ¬ (⟨t, links, n⟩ : SubnetCell).IsWide := Nat.not_lt.mpr hlen
    have hnarrow := hkeep.resolve_left (fun heq => hdepth ((hlive hroot).trans heq))
    have hnext : ∀ j, p = .entry j → j ∈ l₁ ∨ j ∈ s₁.emptyEntryIDs := fun j hj =>
      hmem j (h.of_getNext (h.mem root (by rw [ha]; rfl)).1 hp j hj)
    obtain ⟨o₂, hsize, rfl⟩ := reorder_eq hreorder
    obtain ⟨-, l₂, seg₂, S, q, h₂, -, w, -, -, hw, -⟩ := h₁.reorder
      (recomputeInvariant_walking hs₁ (hrepl.narrowAbove hnarrow)) hroot hn hnext hdepth
      (fun o l' _ hl' hmoved ho => by
        have hstart := Recounted.start hs₁ hroot hother (by rw [ho, hd])
        refine ⟨hl', fun _ => 0, ?_⟩
        by_cases hused : ∃ i, p = .entry i ∧ i ∉ s₁.emptyEntryIDs
        · obtain ⟨i, rfl, hi⟩ := hused
          obtain ⟨u, v, rfl⟩ := List.append_of_mem (hmoved.mem.mpr ((hnext i rfl).resolve_right hi))
          exact ⟨u, i :: v, hstart, rfl, fun _ _ _ => rfl, fun _ _ _ => rfl⟩
        · exact ⟨l', [], hstart, (List.append_nil l').symm,
            fun i hi hfree => absurd ⟨i, hi, hfree⟩ hused, fun _ _ _ => rfl⟩) hreorder
    refine ⟨l₂, seg₂, h₂, fun i => ?_⟩
    rw [liveCell_setOrder hsize]
    exact hw.done i

end UtopiaEda.SubnetBuilder
