import UtopiaEda.BlockListRings

/-!
# Pushing to lists of blocks

An element goes behind the last one of the final block, or into a new block behind it, and is found
by every later walk.
-/
namespace UtopiaEda.BlockList
open ListBlock LinkedLists List
open Option (bind_eq_bind bind_some map_eq_some_iff map_some some.inj)

variable {α : Type} {i n : ℕ} {a : α} {t : ItemSize} {s s' : BlockList α} {r sid z : ℕ}
  {sids A B : List ℕ} {b : ListBlock α} {pos next : ListIterator} {f : ListBlock α → ListBlock α}
  {l l₁ l₂ : List (ListIterator × α)}

/-! ### A new list -/

theorem getSizeInItems_pos (t : ItemSize) (n : ℕ) :
    0 < getSizeInItems t (min (getSizeInBytes t n) LARGE_PAGE_SIZE) := by
  have hle : 64 ≤ getSizeInBytes t n := by
    rw [getSizeInBytes]
    by_cases hn : n ≤ MinCapacity t
    · rw [if_pos hn]
      exact Nat.le_refl 64
    · rw [if_neg hn]
      exact Nat.le_add_right 64 _
  have hpage : 64 ≤ LARGE_PAGE_SIZE := by decide
  have hhead : HeadSize = 32 := rfl
  have ht : 0 < t.toNat ∧ t.toNat ≤ 32 := by cases t <;> decide
  rw [getSizeInItems, if_neg (by omega)]
  exact Nat.div_pos (by omega) ht.1

theorem create_represents (storage : BlockStorage α) (t : ItemSize) (capacity : UInt32) :
    (create storage t capacity).Represents [storage.objSID] ∧
    (create storage t capacity).live [storage.objSID] = [] := by
  have hpos := getSizeInItems_pos t capacity.toNat
  generalize hn : getSizeInItems t (min (getSizeInBytes t capacity.toNat) LARGE_PAGE_SIZE) =
    n at hpos
  have hb : (create storage t capacity).blocks storage.objSID =
      some ⟨0, n, 0, -1, storage.objSID, storage.objSID, true, true,
      (range n).map (storage.memory storage.objSID)⟩ := by
    rw [← hn]
    simp only [create, blocks, BlockStorage.allocate, BlockStorage.modify, Function.update_self,
      map_some]
  have hsound : Sound ⟨0, n, 0, -1, storage.objSID, storage.objSID, true, true,
      (range n).map (storage.memory storage.objSID)⟩ :=
    ⟨by rw [length_map, length_range], hpos, rfl, Nat.zero_le _, rfl, fun h => absurd rfl h⟩
  have hlive : (create storage t capacity).live [storage.objSID] = [] := by
    rw [live, flatMap_singleton, places_eq hb]
    rfl
  have hone : ∀ {sid}, sid ∈ [storage.objSID] → sid = storage.objSID :=
    fun hsid => mem_singleton.mp hsid
  have hlist : (create storage t capacity).listID = storage.objSID := rfl
  refine ⟨⟨⟨rfl, nodup_singleton _, ?_, linked_singleton _, ?_, ?_, ?_, ?_⟩, ?_, ?_⟩, hlive⟩
  · intro sid hsid
    rw [hone hsid]
    exact Nat.lt_succ_self _
  · intro z hz
    rw [getLast?_singleton] at hz
    cases hz
    rw [nextOf, prevOf, hlist, hb]
    exact ⟨rfl, rfl⟩
  · intro sid hsid
    rw [hone hsid]
    exact ⟨_, hb⟩
  · intro sid hsid b hbsid
    rw [hone hsid] at hbsid ⊢
    rw [hb] at hbsid
    cases hbsid
    exact iff_of_true rfl rfl
  · intro sid hsid b hbsid
    rw [hone hsid] at hbsid ⊢
    rw [hb] at hbsid
    cases hbsid
    exact iff_of_true rfl rfl
  · intro sid hsid b hbsid
    rw [hone hsid] at hbsid ⊢
    rw [hb] at hbsid
    cases hbsid
    exact ⟨hsound, fun _ => rfl⟩
  · rw [hlive, size, hlist, hb]
    rfl

/-! ### Pushing -/

structure Open (s : BlockList α) (sids : List ℕ) (tail : ℕ) (b : ListBlock α) : Prop where
  ring : s.Ring sids
  last : sids.getLast? = some tail
  block : s.blocks tail = some b
  sound : b.Sound
  free : b.used < b.capacity
  filled : ∀ r ∈ sids, r ≠ tail → ∀ c, s.blocks r = some c → c.Sound ∧ (c.size = 0 → r = s.listID)
  size : s.size = some (s.live sids).length

theorem Represents.tail (h : s.Represents sids) :
    ∃ A z c b, sids = A ++ [z] ∧ s.blocks s.listID = some c ∧
    c.prevSID = z ∧ s.blocks z = some b ∧ b.final = true ∧ b.nextSID = s.listID := by
  have hne : sids ≠ [] := ne_nil_of_mem h.ring.mem_listID
  obtain ⟨A, z, rfl⟩ := (eq_nil_or_concat' sids).resolve_left hne
  obtain ⟨c, hc⟩ := h.ring.stored _ h.ring.mem_listID
  obtain ⟨b, hb⟩ := h.ring.stored z mem_concat_self
  have hclosed := h.ring.closed z getLast?_concat
  rw [nextOf, prevOf, hb, hc] at hclosed
  exact ⟨A, z, c, b, rfl, hc, some.inj hclosed.2, hb,
    (h.ring.final z mem_concat_self b hb).mpr getLast?_concat, some.inj hclosed.1⟩

def grown (s : BlockList α) (t : ItemSize) (z : ℕ) (b : ListBlock α) : BlockList α :=
  ((({ s with storage := (s.storage.allocate t b.capacity false true).1 } : BlockList α).modify
    s.storage.objSID (fun c => { c with nextSID := b.nextSID, prevSID := z })).modify s.listID
    (fun c => { c with prevSID := s.storage.objSID })).modify z
    (fun c => { c with nextSID := s.storage.objSID, final := false })

theorem map_blocks_grown {β : Type} {g : ListBlock α → β} (hr : r ≠ s.storage.objSID)
    (hprev : ∀ c n, g { c with prevSID := n } = g c)
    (hnext : r = z → ∀ c n, g { c with nextSID := n, final := false } = g c) :
    ((s.grown t z b).blocks r).map g = (s.blocks r).map g := by
  have hstart : (((({ s with storage := (s.storage.allocate t b.capacity false true).1 } : BlockList α).modify
      s.storage.objSID (fun c => { c with nextSID := b.nextSID, prevSID := z })).modify s.listID
      (fun c => { c with prevSID := s.storage.objSID })).blocks r).map g = (s.blocks r).map g := by
    rw [map_blocks_modify (fun c => hprev c _), blocks_modify_of_ne hr]
    exact congrArg (Option.map g) (Function.update_of_ne hr ..)
  rw [grown]
  by_cases hz : r = z
  · rw [map_blocks_modify (fun c => hnext hz c _), hstart]
  · rw [blocks_modify_of_ne hz, hstart]

theorem Represents.grown (h : s.Represents (A ++ [z])) (hb : s.blocks z = some b) :
    ∃ c, (s.grown t z b).Open (A ++ [z, s.storage.objSID]) s.storage.objSID c ∧ c.elements = [] ∧
      (s.grown t z b).live (A ++ [z, s.storage.objSID]) = s.live (A ++ [z]) := by
  generalize hnew : s.storage.objSID = new
  have hlt := h.ring.lt
  rw [hnew] at hlt
  have hne : ∀ r ∈ A ++ [z], r ≠ new := fun r hr heq => Nat.lt_irrefl _ (heq ▸ hlt r hr)
  have hzmem : z ∈ A ++ [z] := mem_concat_self
  have hznew : new ≠ z := (hne z hzmem).symm
  have hlist : new ≠ s.listID := (hne _ h.ring.mem_listID).symm
  have hpos := getSizeInItems_pos t b.capacity
  generalize hn : getSizeInItems t (min (getSizeInBytes t b.capacity) LARGE_PAGE_SIZE) = n at hpos
  have hblock : (s.grown t z b).blocks new = some ⟨0, n, 0, -1, b.nextSID, z, false, true,
      (range n).map (s.storage.memory new)⟩ := by
    rw [BlockList.grown, hnew, blocks_modify_of_ne hznew, blocks_modify_of_ne hlist,
      blocks_modify_self (b := ⟨0, n, 0, -1, 0, 0, false, true,
      (range n).map (s.storage.memory new)⟩)]
    rw [← hn, ← hnew]
    simp only [blocks, BlockStorage.allocate, Function.update_self]
  have hsound : Sound ⟨0, n, 0, -1, b.nextSID, z, false, true,
      (range n).map (s.storage.memory new)⟩ :=
    ⟨by rw [length_map, length_range], hpos, rfl, Nat.zero_le _, rfl, fun h => absurd rfl h⟩
  have hstored : ∀ r ∈ A ++ [z], ∃ c, (s.grown t z b).blocks r = some c := by
    intro r hr
    obtain ⟨c, hc⟩ := h.ring.stored r hr
    have hmap := map_blocks_grown (t := t) (z := z) (b := b) (g := fun _ => ()) (hnew ▸ hne r hr)
      (fun _ _ => rfl) (fun _ _ _ => rfl)
    rw [hc] at hmap
    obtain ⟨c', hc', -⟩ := map_eq_some_iff.mp hmap
    exact ⟨c', hc'⟩
  have hsplit : A ++ [z, new] = A ++ [z] ++ [new] := append_cons A z [new]
  have hmem : ∀ r ∈ A ++ [z, new], r ∈ A ++ [z] ∨ r = new := by
    intro r hr
    rw [hsplit] at hr
    exact (mem_append.mp hr).imp_right mem_singleton.mp
  have hlast : (A ++ [z, new]).getLast? = some new := by rw [hsplit, getLast?_concat]
  have hend : ∀ c, (s.grown t z b).blocks z = some c → c.nextSID = new ∧ c.final = false := by
    intro c hc
    rw [BlockList.grown, hnew, blocks_modify, if_pos rfl] at hc
    obtain ⟨c₀, -, rfl⟩ := map_eq_some_iff.mp hc
    exact ⟨rfl, rfl⟩
  have hfirst : (s.grown t z b).prevOf s.listID = some new := by
    obtain ⟨c, hc⟩ := hstored _ h.ring.mem_listID
    rw [prevOf, BlockList.grown, hnew]
    refine Eq.trans (map_blocks_modify (fun _ => rfl)) ?_
    rw [blocks_modify, if_pos rfl, Option.map_map]
    rw [BlockList.grown, hnew] at hc
    obtain ⟨c', hc'⟩ := exists_blocks_modify ⟨c, hc⟩
    rw [blocks_modify, if_pos rfl] at hc'
    obtain ⟨c₀, hc₀, -⟩ := map_eq_some_iff.mp hc'
    rw [hc₀]
    rfl
  have hlive : (s.grown t z b).live (A ++ [z, new]) = s.live (A ++ [z]) := by
    rw [hsplit, live_append]
    have hnil : (s.grown t z b).live [new] = [] := by
      rw [live, flatMap_singleton, places_eq hblock]
      rfl
    rw [hnil, append_nil]
    refine flatMap_congr (fun r hr => ?_)
    have hmap : ((s.grown t z b).blocks r).map elements = (s.blocks r).map elements :=
      map_blocks_grown (hnew ▸ hne r hr) (fun _ _ => rfl) (fun _ _ _ => rfl)
    obtain ⟨c, hc⟩ := h.ring.stored r hr
    obtain ⟨c', hc'⟩ := hstored r hr
    rw [hc, hc'] at hmap
    rw [places_eq hc, places_eq hc', some.inj hmap]
  refine ⟨_, ⟨⟨?_, ?_, ?_, ?_, ?_, ?_, ?_, ?_⟩, hlast, hblock, hsound, hpos, ?_, ?_⟩, rfl, hlive⟩
  · rw [hsplit, head?_append_of_ne_nil _ (ne_nil_of_mem hzmem)]
    exact h.ring.head
  · rw [hsplit]
    exact h.ring.nodup.append (nodup_singleton new)
      (disjoint_singleton.mpr (fun hmem => hne new hmem rfl))
  · intro r hr
    have hobj : (s.grown t z b).storage.objSID = new + 1 := by rw [← hnew]; rfl
    rw [hobj]
    rcases hmem r hr with hr | rfl
    · exact Nat.lt_succ_of_lt (hlt r hr)
    · exact Nat.lt_succ_self r
  · have hnd := h.ring.nodup
    obtain ⟨rest, hrest⟩ := h.ring.exists_tail
    obtain ⟨c, hc⟩ := hstored z hzmem
    refine linked_split.mpr ⟨h.ring.linked.congr (fun r hr => ?_) (fun r hr => ?_), ⟨?_, ?_⟩,
      linked_singleton new⟩
    · have hrA : r ∈ A := by rwa [dropLast_concat] at hr
      have hrz : r ≠ z := fun heq => (nodup_append.mp hnd).2.2 r hrA z mem_cons_self heq
      exact map_blocks_grown (hnew ▸ hne r (mem_append_left _ hrA)) (fun _ _ => rfl)
        (fun heq => absurd heq hrz)
    · have hrl : r ≠ s.listID := by
        rw [hrest] at hnd hr
        exact fun heq => (nodup_cons.mp hnd).1 (heq ▸ hr)
      have hrn : r ≠ s.storage.objSID := hnew ▸ hne r (mem_of_mem_tail hr)
      rw [prevOf, BlockList.grown]
      refine Eq.trans (map_blocks_modify (fun _ => rfl)) ?_
      rw [blocks_modify_of_ne hrl, blocks_modify_of_ne hrn, prevOf]
      exact congrArg (Option.map prevSID) (Function.update_of_ne hrn ..)
    · rw [nextOf, hc, map_some, (hend c hc).1]
    · rw [prevOf, hblock, map_some]
  · intro z' hz'
    rw [hlast] at hz'
    cases hz'
    refine ⟨?_, hfirst⟩
    rw [nextOf, hblock, map_some, h.ring.next_of_last hb]
    rfl
  · intro r hr
    rcases hmem r hr with hr | rfl
    · exact hstored r hr
    · exact ⟨_, hblock⟩
  · intro r hr c hc
    rcases hmem r hr with hr | rfl
    · have hmap : ((s.grown t z b).blocks r).map ListBlock.first =
          (s.blocks r).map ListBlock.first :=
        map_blocks_grown (hnew ▸ hne r hr) (fun _ _ => rfl) (fun _ _ _ => rfl)
      obtain ⟨c₀, hc₀⟩ := h.ring.stored r hr
      rw [hc, hc₀] at hmap
      rw [some.inj hmap]
      exact h.ring.first r hr c₀ hc₀
    · rw [hblock] at hc
      cases hc
      exact iff_of_false Bool.false_ne_true hlist
  · intro r hr c hc
    rw [hlast]
    rcases hmem r hr with hr | rfl
    · refine iff_of_false ?_ (fun heq => hne r hr (some.inj heq).symm)
      by_cases hrz : r = z
      · rw [hrz] at hc
        rw [(hend c hc).2]
        exact Bool.false_ne_true
      · have hmap : ((s.grown t z b).blocks r).map ListBlock.final =
            (s.blocks r).map ListBlock.final :=
          map_blocks_grown (hnew ▸ hne r hr) (fun _ _ => rfl) (fun heq => absurd heq hrz)
        obtain ⟨c₀, hc₀⟩ := h.ring.stored r hr
        rw [hc, hc₀] at hmap
        rw [some.inj hmap, h.ring.final r hr c₀ hc₀, getLast?_concat]
        exact fun heq => hrz (some.inj heq).symm
    · rw [hblock] at hc
      cases hc
      exact iff_of_true rfl rfl
  · intro r hr hrn c hc
    have hr' := (hmem r hr).resolve_right hrn
    have hmap : ((s.grown t z b).blocks r).map (fun c => (c.capacity, c.size, c.last, c.items)) =
        (s.blocks r).map (fun c => (c.capacity, c.size, c.last, c.items)) :=
      map_blocks_grown (hnew ▸ hrn) (fun _ _ => rfl) (fun _ _ _ => rfl)
    obtain ⟨c₀, hc₀⟩ := h.ring.stored r hr'
    rw [hc, hc₀] at hmap
    obtain ⟨hsound, hlist⟩ := h.filled r hr' c₀ hc₀
    refine ⟨hsound.congr (some.inj hmap), fun hzero => hlist ?_⟩
    rw [← hzero]
    exact (congrArg (fun q => q.2.1) (some.inj hmap)).symm
  · rw [hlive, ← h.size]
    exact map_blocks_grown (hnew ▸ hlist.symm) (fun _ _ => rfl) (fun _ _ _ => rfl)

theorem Represents.openBlock_eq (t : ItemSize) (h : s.Represents sids) :
    ∃ s' sids' tail b, s.openBlock t = some (s', tail) ∧ s'.Open sids' tail b ∧ s'.live sids' =
    s.live sids := by
  obtain ⟨A, z, c, b, rfl, hc, hprev, hb, hfinal, -⟩ := h.tail
  obtain ⟨hsound, -⟩ := h.filled z mem_concat_self b hb
  have hlast := hsound.last
  rw [openBlock, hc]
  simp only [bind_eq_bind, bind_some, hprev, hb, hfinal, Bool.not_true,
    Bool.false_eq_true, if_false]
  by_cases hfull : b.last + 1 = b.capacity
  · rw [if_pos hfull]
    obtain ⟨d, hopen, -, hlive⟩ := h.grown hb
    exact ⟨_, _, _, d, rfl, hopen, hlive⟩
  · rw [if_neg hfull]
    refine ⟨s, A ++ [z], z, b, rfl,
      ⟨h.ring, getLast?_concat, hb, hsound, ?_, fun r hr _ d hd => h.filled r hr d hd,
      h.size⟩, rfl⟩
    have hle := hsound.used_le
    rw [hsound.length] at hle
    omega

theorem Represents.push_back_eq (h : s.Represents sids) (t : ItemSize) (a : α) : ∃ s' sids' pos,
    s.push_back t a = some (s', pos) ∧ s'.Represents sids' ∧ s'.live sids' =
    s.live sids ++ [(pos, a)] := by
  obtain ⟨s₁, sids₁, tail, b, hrun, ho, hlive⟩ := h.openBlock_eq t
  obtain ⟨A, rfl⟩ := getLast?_eq_some_iff.mp ho.last
  have hfree : b.used < b.items.length := by
    rw [ho.sound.length]
    exact ho.free
  obtain ⟨f, hf⟩ : ∃ f : ListBlock α → ListBlock α, f = fun c => { c with
    items := c.items.set (b.last + 1).toNat (some a), last := c.last + 1, size := c.size + 1 } :=
    ⟨_, rfl⟩
  have hfb : f b = b.put a := by
    rw [hf]
    rfl
  have hpush : s.push_back t a =
      some ((s₁.modify tail f).counted (· + 1), ⟨some tail, b.used⟩) := by
    rw [push_back, hrun]
    simp only [bind_eq_bind, bind_some, ho.block]
    rw [if_neg (show ¬ b.items.length ≤ (b.last + 1).toNat from Nat.not_le_of_lt hfree), hf]
    rfl
  have hring : (s₁.modify tail f).Ring (A ++ [tail]) := by
    rw [hf]
    exact ho.ring.modify (fun _ => rfl) (fun _ => rfl) (fun _ => rfl) (fun _ => rfl)
  have hnew : ((s₁.modify tail f).counted (· + 1)).live (A ++ [tail]) =
      s.live sids ++ [(⟨some tail, b.used⟩, a)] := by
    rw [live_counted, live_modify_at ho.ring.nodup ho.block, hfb, ho.sound.elements_put hfree,
      ← hlive, live_append, live_cons, places_eq ho.block, map_append, append_assoc, append_assoc,
      append_assoc]
    rfl
  have hsize : (s₁.modify tail f).size = s₁.size := size_modify (fun _ => by rw [hf])
  refine ⟨_, A ++ [tail], _, hpush, ⟨hring.counted _, Filled.counted _ ?_, ?_⟩, hnew⟩
  · intro r hr c hc
    by_cases htail : r = tail
    · rw [htail, blocks_modify_self ho.block, hfb] at hc
      cases hc
      exact ⟨ho.sound.put hfree, fun hzero => absurd hzero (Nat.succ_ne_zero _)⟩
    · rw [blocks_modify_of_ne htail] at hc
      exact ho.filled r hr htail c hc
  · rw [size_counted, hsize, ho.size, hnew, hlive, length_append, length_singleton, map_some]

end UtopiaEda.BlockList
