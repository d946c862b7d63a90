import UtopiaEda.BlockListWalks
import Mathlib.Data.List.Nodup

/-!
# The rings of lists of blocks

The blocks of a list form a ring, and a list represents the elements of its blocks in their order. A
walk meets exactly these.
-/
namespace UtopiaEda
open List

variable {α : Type} {items xs ys : List (Option α)} {i j k n : ℕ} {a : α} {t : ItemSize}

namespace ListBlock

variable {b : ListBlock α} {P Q : List (ℕ × α)}

structure Sound (b : ListBlock α) : Prop where
  length : b.items.length = b.capacity
  pos : 0 < b.capacity
  last : b.last = (b.used : ℤ) - 1
  used_le : b.used ≤ b.items.length
  size : b.size = b.elements.length
  top : b.size ≠ 0 → ∃ a, (b.items.take b.used).getLast? = some (some a)

theorem Sound.topped (h : b.Sound) (hsize : b.size ≠ 0) : b.Topped :=
  ⟨h.last, h.used_le, h.top hsize⟩

/-- The list's counter is no part of a block's own state. -/
theorem Sound.counted (h : b.Sound) : Sound { b with totalSize := n } :=
  ⟨h.length, h.pos, h.last, h.used_le, h.size, h.top⟩

theorem Topped.counted (h : b.Topped) : Topped { b with totalSize := n } :=
  ⟨h.last, h.used_le, h.top⟩

theorem Sound.congr {c : ListBlock α} (h : b.Sound)
    (heq : (c.capacity, c.size, c.last, c.items) = (b.capacity, b.size, b.last, b.items)) :
    c.Sound := by
  obtain ⟨total, capacity, size, last, nextSID, prevSID, first, final, items⟩ := c
  simp only [Prod.mk.injEq] at heq
  obtain ⟨rfl, rfl, rfl, rfl⟩ := heq
  exact ⟨h.length, h.pos, h.last, h.used_le, h.size, h.top⟩

def put (b : ListBlock α) (a : α) : ListBlock α :=
  { b with items := b.items.set (b.last + 1).toNat (some a), last := b.last + 1, size := b.size + 1 }

theorem Sound.used_put (h : b.Sound) : (b.put a).used = b.used + 1 := by
  have hlast := h.last
  simp only [used, put] at hlast ⊢
  omega

theorem Sound.take_put (h : b.Sound) (hfree : b.used < b.items.length) :
    (b.put a).items.take (b.put a).used = b.items.take b.used ++ [some a] := by
  have hitems : (b.put a).items = b.items.set b.used (some a) := rfl
  rw [h.used_put, hitems, take_add_one, take_set_of_le (Nat.le_refl _),
    getElem?_set_self hfree, Option.toList_some]

theorem Sound.elements_put (h : b.Sound) (hfree : b.used < b.items.length) :
    (b.put a).elements = b.elements ++ [(b.used, a)] := by
  rw [elements, h.take_put hfree, occupied_append, length_take_of_le h.used_le, Nat.zero_add]
  rfl

theorem Sound.put (h : b.Sound) (hfree : b.used < b.items.length) : (b.put a).Sound where
  length := by
    change (b.items.set _ _).length = b.capacity
    rw [length_set, h.length]
  pos := h.pos
  last := by
    have hlast := h.last
    rw [h.used_put]
    change b.last + 1 = _
    omega
  used_le := by
    rw [h.used_put]
    change b.used + 1 ≤ (b.items.set _ _).length
    rw [length_set]
    exact hfree
  size := by
    rw [h.elements_put hfree, length_append, ← h.size]
    rfl
  top := fun _ => ⟨a, by rw [h.take_put hfree, getLast?_concat]⟩

def before (b : ListBlock α) (i : ℕ) : List (ℕ × α) := occupied 0 (b.items.take i)

def behind (b : ListBlock α) (i : ℕ) : List (ℕ × α) :=
  occupied (i + 1) ((b.items.take b.used).drop (i + 1))

theorem elements_split (hi : i < b.used) (hget : b.items[i]? = some (some a)) :
    b.elements = b.before i ++ (i, a) :: b.behind i := by
  obtain ⟨hlt, hitem⟩ := List.getElem?_eq_some_iff.mp hget
  have hlen : i < (b.items.take b.used).length := by
    rw [length_take]
    omega
  have hcons : (b.items.take b.used).drop i = some a :: (b.items.take b.used).drop (i + 1) := by
    rw [drop_eq_getElem_cons hlen, getElem_take, hitem]
  have htake : (b.items.take b.used).take i = b.items.take i := by
    rw [take_take, Nat.min_eq_left (Nat.le_of_lt hi)]
  have hsplit : b.items.take b.used = b.items.take i ++ some a ::
      (b.items.take b.used).drop (i + 1) := by
    rw [← htake, ← hcons, take_append_drop]
  rw [elements]
  conv_lhs => rw [hsplit, occupied_append, length_take_of_le (Nat.le_of_lt hlt), Nat.zero_add]
  rfl

def remove (b : ListBlock α) (i : ℕ) : ListBlock α :=
  { b with items := b.items.set i none, size := b.size - 1 }

@[simp] theorem used_remove : (b.remove i).used = b.used := rfl

theorem take_remove : (b.remove i).items.take (b.remove i).used =
    (b.items.take b.used).set i none :=
  take_set ..

theorem elements_remove (hi : i < b.used) (hget : b.items[i]? = some (some a)) :
    (b.remove i).elements = b.before i ++ b.behind i := by
  obtain ⟨hlt, -⟩ := List.getElem?_eq_some_iff.mp hget
  have hlen : i < (b.items.take b.used).length := by
    rw [length_take]
    omega
  have htake : (b.items.take b.used).take i = b.items.take i := by
    rw [take_take, Nat.min_eq_left (Nat.le_of_lt hi)]
  rw [elements, take_remove, set_eq_take_append_cons_drop, if_pos hlen, occupied_append, htake,
    length_take_of_le (Nat.le_of_lt hlt), Nat.zero_add]
  rfl

theorem mem_elements : (i, a) ∈ b.elements ↔ i < b.used ∧ b.items[i]? = some (some a) := by
  rw [elements, mem_occupied, Nat.sub_zero]
  constructor
  · rintro ⟨_, hget⟩
    rw [getElem?_take] at hget
    by_cases hi : i < b.used
    · rw [if_pos hi] at hget
      exact ⟨hi, hget⟩
    · rw [if_neg hi] at hget
      cases hget
  · rintro ⟨hi, hget⟩
    exact ⟨Nat.zero_le i, by rw [getElem?_take_of_lt hi, hget]⟩

theorem Sound.size_eq (h : b.Sound) (hi : i < b.used) (hget : b.items[i]? = some (some a)) :
    b.size = (b.before i).length + 1 + (b.behind i).length := by
  rw [h.size, elements_split hi hget, length_append, length_cons]
  omega

theorem before_eq_nil : b.before i = [] ↔ ∀ k < i, b.items[k]?.join = none := by
  constructor
  · intro hnil k hk
    cases hget : b.items[k]?.join with
    | none => rfl
    | some c =>
      have hmem : (k, c) ∈ b.before i := by
        rw [before, mem_occupied, Nat.sub_zero, getElem?_take_of_lt hk]
        exact ⟨Nat.zero_le k, Option.join_eq_some_iff.mp hget⟩
      rw [hnil] at hmem
      cases hmem
  · intro hnone
    refine occupied_eq_nil (fun k hk => ?_)
    rw [length_take] at hk
    rw [getElem?_take_of_lt (by omega)]
    exact hnone k (by omega)

/-- What stands behind an item is not touched when it is removed. -/
theorem behind_remove : (b.remove i).behind i = b.behind i := by
  rw [behind, take_remove, drop_set_of_lt (Nat.lt_succ_self i), behind]

theorem Sound.remove (h : b.Sound) (hi : i < b.used) (hget : b.items[i]? = some (some a))
    (hlast : i + 1 = b.used → b.size = 1) : (b.remove i).Sound where
  length := by
    change (b.items.set i none).length = b.capacity
    rw [length_set, h.length]
  pos := h.pos
  last := h.last
  used_le := by
    change b.used ≤ (b.items.set i none).length
    rw [length_set]
    exact h.used_le
  size := by
    have hsize := h.size_eq hi hget
    change b.size - 1 = _
    rw [elements_remove hi hget, length_append]
    omega
  top := by
    intro hne
    have hsize : b.size - 1 ≠ 0 := hne
    obtain ⟨c, hc⟩ := h.top (by omega)
    refine ⟨c, ?_⟩
    have hlen : (b.items.take b.used).length = b.used := length_take_of_le h.used_le
    rw [getLast?_eq_getElem?] at hc ⊢
    rw [take_remove, length_set, getElem?_set_ne (by rw [hlen]; omega), hc]

theorem lastOccupied_set : lastOccupied (items.set n none) i = lastOccupied items i ∨ n < i := by
  induction i with
  | zero => exact .inl rfl
  | succ i ih =>
    rcases ih with ih | hlt
    · rcases Nat.lt_or_ge n (i + 1) with hn | hn
      · exact .inr hn
      · left
        rw [lastOccupied, lastOccupied, getElem?_set_ne (by omega), ih]
    · exact .inr (Nat.lt_succ_of_lt hlt)

theorem occupied_nodup : ((occupied i xs).map Prod.fst).Nodup := by
  induction xs generalizing i with
  | nil => exact nodup_nil
  | cons x xs ih =>
    cases x with
    | none => exact ih
    | some a =>
      refine nodup_cons.mpr ⟨fun hmem => ?_, ih⟩
      obtain ⟨⟨j, c⟩, hp, hj⟩ := mem_map.mp hmem
      have hle := (mem_occupied.mp hp).1
      have hij : j = i := hj
      omega

theorem lastOccupied_eq_none : lastOccupied items i = none ↔ ∀ k < i, items[k]?.join = none := by
  induction i with
  | zero => exact ⟨fun _ k hk => absurd hk (Nat.not_lt_zero k), fun _ => rfl⟩
  | succ i ih =>
    rw [lastOccupied]
    by_cases hi : items[i]?.join.isSome
    · rw [if_pos hi]
      constructor
      · intro h
        cases h
      · intro h
        rw [h i (Nat.lt_succ_self i)] at hi
        cases hi
    · rw [if_neg hi, ih]
      constructor
      · intro h k hk
        rcases Nat.lt_succ_iff_lt_or_eq.mp hk with hlt | rfl
        · exact h k hlt
        · exact Option.not_isSome_iff_eq_none.mp hi
      · intro h k hk
        exact h k (Nat.lt_succ_of_lt hk)

theorem lastOccupied_eq_some (h : lastOccupied items i = some k) :
    k < i ∧ (∃ a, items[k]? = some (some a)) ∧ ∀ m, k < m → m < i → items[m]?.join = none := by
  induction i with
  | zero => cases h
  | succ i ih =>
    rw [lastOccupied] at h
    by_cases hi : items[i]?.join.isSome
    · rw [if_pos hi] at h
      cases h
      obtain ⟨a, ha⟩ := Option.isSome_iff_exists.mp hi
      exact ⟨Nat.lt_succ_self k, ⟨a, Option.join_eq_some_iff.mp ha⟩,
        fun m hm hm' => absurd hm' (by omega)⟩
    · rw [if_neg hi] at h
      obtain ⟨hlt, ha, hnone⟩ := ih h
      refine ⟨Nat.lt_succ_of_lt hlt, ha, fun m hm hm' => ?_⟩
      rcases Nat.lt_succ_iff_lt_or_eq.mp hm' with hlt' | rfl
      · exact hnone m hm hlt'
      · exact Option.not_isSome_iff_eq_none.mp hi

end ListBlock

namespace BlockList
open ListBlock LinkedLists

variable {s s' : BlockList α} {r sid : ℕ} {sids A B : List ℕ} {b : ListBlock α}
  {pos next : ListIterator} {f : ListBlock α → ListBlock α} {l l₁ l₂ : List (ListIterator × α)}

/-! ### Pointers -/

def nextOf (s : BlockList α) (sid : ℕ) : Option ℕ := (s.blocks sid).map nextSID

def prevOf (s : BlockList α) (sid : ℕ) : Option ℕ := (s.blocks sid).map prevSID

theorem blocks_modify : (s.modify sid f).blocks r = if r = sid then (s.blocks sid).map f else
    s.blocks r :=
  Function.update_apply ..

theorem blocks_modify_self (hb : s.blocks sid = some b) :
    (s.modify sid f).blocks sid = some (f b) := by
  rw [blocks_modify, if_pos rfl, hb, Option.map_some]

theorem blocks_modify_of_ne (h : r ≠ sid) : (s.modify sid f).blocks r = s.blocks r := by
  rw [blocks_modify, if_neg h]

@[simp] theorem listID_modify : (s.modify sid f).listID = s.listID := rfl

@[simp] theorem objSID_modify : (s.modify sid f).storage.objSID = s.storage.objSID := rfl

/-- What `f` leaves alone is left alone. -/
theorem map_blocks_modify {β : Type} {g : ListBlock α → β} (h : ∀ b, g (f b) = g b) :
    ((s.modify sid f).blocks r).map g = (s.blocks r).map g := by
  rw [blocks_modify]
  by_cases hr : r = sid
  · rw [if_pos hr, hr, Option.map_map]
    cases s.blocks sid with
    | none => rfl
    | some b => exact congrArg some (h b)
  · rw [if_neg hr]

theorem exists_blocks_modify (h : ∃ b, (s.modify sid f).blocks r = some b) :
    ∃ b, s.blocks r = some b := by
  obtain ⟨b, hb⟩ := h
  rw [blocks_modify] at hb
  by_cases hr : r = sid
  · rw [if_pos hr] at hb
    obtain ⟨c, hc, -⟩ := Option.map_eq_some_iff.mp hb
    exact ⟨c, by rw [hr, hc]⟩
  · rw [if_neg hr] at hb
    exact ⟨b, hb⟩

structure Ring (s : BlockList α) (sids : List ℕ) : Prop where
  head : sids.head? = some s.listID
  nodup : sids.Nodup
  lt : ∀ sid ∈ sids, sid < s.storage.objSID
  linked : Linked s.nextOf s.prevOf sids
  closed : ∀ z, sids.getLast? = some z → s.nextOf z = some s.listID ∧ s.prevOf s.listID = some z
  stored : ∀ sid ∈ sids, ∃ b, s.blocks sid = some b
  first : ∀ sid ∈ sids, ∀ b, s.blocks sid = some b → (b.first = true ↔ sid = s.listID)
  final : ∀ sid ∈ sids, ∀ b, s.blocks sid = some b → (b.final = true ↔ sids.getLast? = some sid)

theorem Ring.modify (h : s.Ring sids) (hnext : ∀ b, (f b).nextSID = b.nextSID)
    (hprev : ∀ b, (f b).prevSID = b.prevSID) (hfirst : ∀ b, (f b).first = b.first)
    (hfinal : ∀ b, (f b).final = b.final) : (s.modify sid f).Ring sids := by
  have hN : (s.modify sid f).nextOf = s.nextOf := funext fun r => map_blocks_modify hnext
  have hP : (s.modify sid f).prevOf = s.prevOf := funext fun r => map_blocks_modify hprev
  refine ⟨h.head, h.nodup, h.lt, by rw [hN, hP]; exact h.linked, by rw [hN, hP]; exact h.closed, ?_, ?_, ?_⟩
  · intro r hr
    obtain ⟨b, hb⟩ := h.stored r hr
    rw [blocks_modify]
    by_cases heq : r = sid
    · exact ⟨f b, by rw [if_pos heq, ← heq, hb, Option.map_some]⟩
    · exact ⟨b, by rw [if_neg heq, hb]⟩
  · intro r hr b hb
    have hflag : ((s.modify sid f).blocks r).map ListBlock.first =
        (s.blocks r).map ListBlock.first :=
      map_blocks_modify hfirst
    obtain ⟨c, hc⟩ := h.stored r hr
    rw [hb, hc] at hflag
    rw [Option.some.inj hflag]
    exact h.first r hr c hc
  · intro r hr b hb
    have hflag : ((s.modify sid f).blocks r).map ListBlock.final =
        (s.blocks r).map ListBlock.final :=
      map_blocks_modify hfinal
    obtain ⟨c, hc⟩ := h.stored r hr
    rw [hb, hc] at hflag
    rw [Option.some.inj hflag]
    exact h.final r hr c hc

theorem Ring.mem_listID (h : s.Ring sids) : s.listID ∈ sids := mem_of_head? h.head

theorem Ring.exists_tail (h : s.Ring sids) : ∃ rest, sids = s.listID :: rest :=
  head?_eq_some_iff.mp h.head

theorem Ring.follows (h : s.Ring sids) : s.Follows sids where
  stored := h.stored
  next := by
    intro l₁ sid rest b heq hb
    have hmem : sid ∈ sids := by
      rw [heq]
      exact mem_append_cons_self
    have hfinal := h.final sid hmem b hb
    cases rest with
    | nil =>
      rw [heq, getLast?_concat] at hfinal
      rw [moveNextBlock, hfinal.mpr rfl, if_pos rfl, head?_nil]
    | cons r rest =>
      have hnd := h.nodup
      rw [heq] at hnd hfinal
      have hne : (l₁ ++ sid :: r :: rest).getLast? ≠ some sid := by
        intro hlast
        rw [getLast?_append_of_ne_nil _ (cons_ne_nil _ _), getLast?_cons_cons] at hlast
        exact (nodup_cons.mp (nodup_append.mp hnd).2.1).1 (mem_of_getLast? hlast)
      have hlinked := h.linked
      rw [heq, linked_split, nextOf, hb] at hlinked
      rw [moveNextBlock, if_neg (fun htrue => hne (hfinal.mp htrue)), head?_cons]
      exact hlinked.2.1.1

theorem Ring.next_of_last (h : s.Ring (A ++ [sid])) (hb : s.blocks sid = some b) :
    b.nextSID = s.listID := by
  have hclosed := (h.closed sid getLast?_concat).1
  rw [nextOf, hb] at hclosed
  exact Option.some.inj hclosed

/-! ### Elements -/

/-- The blocks hold what their counters say; only the first one may be empty. -/
def Filled (s : BlockList α) (sids : List ℕ) : Prop :=
  ∀ sid ∈ sids, ∀ b, s.blocks sid = some b → b.Sound ∧ (b.size = 0 → sid = s.listID)

def live (s : BlockList α) (sids : List ℕ) : List (ListIterator × α) := sids.flatMap s.places

structure Represents (s : BlockList α) (sids : List ℕ) : Prop where
  ring : s.Ring sids
  filled : s.Filled sids
  size : s.size = some (s.live sids).length

theorem live_append : s.live (A ++ B) = s.live A ++ s.live B := flatMap_append

theorem live_cons : s.live (sid :: B) = s.places sid ++ s.live B := flatMap_cons

theorem places_modify_of_ne (h : r ≠ sid) : (s.modify sid f).places r = s.places r := by
  rw [places, places, blocks_modify_of_ne h]

theorem places_modify (h : ∀ b, (f b).elements = b.elements) :
    (s.modify sid f).places = s.places := by
  funext r
  have hmap : ((s.modify sid f).blocks r).map elements = (s.blocks r).map elements :=
    map_blocks_modify h
  rw [places, places]
  cases hb : s.blocks r with
  | none =>
    rw [hb] at hmap
    rw [Option.map_eq_none_iff.mp hmap]
  | some b =>
    rw [hb] at hmap
    obtain ⟨c, hc, helem⟩ := Option.map_eq_some_iff.mp hmap
    rw [hc, Option.elim_some, helem, Option.elim_some]

theorem live_modify (h : ∀ b, (f b).elements = b.elements) :
    (s.modify sid f).live sids = s.live sids := by
  rw [live, places_modify h, live]

theorem live_modify_of_notMem (h : sid ∉ sids) : (s.modify sid f).live sids = s.live sids := by
  refine flatMap_congr (fun r hr => places_modify_of_ne ?_)
  intro heq
  exact h (heq ▸ hr)

theorem live_modify_at (h : (A ++ sid :: B).Nodup) (hb : s.blocks sid = some b) :
    (s.modify sid f).live (A ++ sid :: B) =
      s.live A ++ ((f b).elements.map (fun p => (⟨some sid, p.1⟩, p.2)) ++ s.live B) := by
  obtain ⟨-, hB, hdis⟩ := nodup_append.mp h
  have hA : sid ∉ A := fun hmem => hdis sid hmem sid mem_cons_self rfl
  rw [live_append, live_cons, live_modify_of_notMem hA,
    live_modify_of_notMem (nodup_cons.mp hB).1, places_eq (blocks_modify_self hb)]

theorem size_modify (h : ∀ b, (f b).totalSize = b.totalSize) : (s.modify sid f).size = s.size :=
  map_blocks_modify h

def counted (s : BlockList α) (g : ℕ → ℕ) : BlockList α :=
  s.modify s.listID (fun b => { b with totalSize := g b.totalSize })

theorem size_counted (g : ℕ → ℕ) : (s.counted g).size = s.size.map g := by
  rw [size, counted, listID_modify, blocks_modify, if_pos rfl, size, Option.map_map, Option.map_map]
  rfl

theorem blocks_counted (g : ℕ → ℕ) (hb : s.blocks sid = some b) :
    ∃ n, (s.counted g).blocks sid = some { b with totalSize := n } := by
  rw [counted, blocks_modify]
  by_cases heq : sid = s.listID
  · exact ⟨g b.totalSize, by rw [if_pos heq, ← heq, hb, Option.map_some]⟩
  · exact ⟨b.totalSize, by rw [if_neg heq, hb]⟩

theorem Filled.counted (g : ℕ → ℕ) (h : s.Filled sids) : (s.counted g).Filled sids := by
  intro sid hsid c hc
  obtain ⟨b, hb⟩ := exists_blocks_modify ⟨c, hc⟩
  obtain ⟨n, hn⟩ := blocks_counted g hb
  rw [hc] at hn
  cases hn
  exact ⟨(h sid hsid b hb).1.counted, (h sid hsid b hb).2⟩

theorem Ring.counted (g : ℕ → ℕ) (h : s.Ring sids) : (s.counted g).Ring sids :=
  h.modify (fun _ => rfl) (fun _ => rfl) (fun _ => rfl) (fun _ => rfl)

theorem live_counted (g : ℕ → ℕ) : (s.counted g).live sids = s.live sids :=
  live_modify (fun _ => rfl)

theorem Represents.walkable (h : s.Represents sids) :
    ∃ rest, sids = s.listID :: rest ∧ s.Walkable rest := by
  obtain ⟨rest, rfl⟩ := h.ring.exists_tail
  refine ⟨rest, rfl, h.ring.follows, Nat.zero_lt_of_lt (h.ring.lt _ mem_cons_self), ?_, ?_⟩
  · intro b hb
    have hsound := (h.filled _ mem_cons_self b hb).1
    by_cases hsize : b.size = 0
    · exact .inl ⟨hsize, length_eq_zero_iff.mp (hsound.size ▸ hsize)⟩
    · exact .inr ⟨hsize, hsound.topped hsize⟩
  · intro r hr b hb
    obtain ⟨hsound, hlist⟩ := h.filled r (mem_cons_of_mem _ hr) b hb
    have hsize : b.size ≠ 0 := fun hzero => (nodup_cons.mp h.ring.nodup).1 (hlist hzero ▸ hr)
    exact ⟨hsize, hsound.topped hsize⟩

/-- The list has exactly the elements `l`, at these places. -/
def Shows (s : BlockList α) (l : List (ListIterator × α)) : Prop :=
  (∃ front, s.front = some front ∧ s.Yields front l) ∧ s.size = some l.length

theorem Represents.shows (h : s.Represents sids) : s.Shows (s.live sids) := by
  obtain ⟨rest, rfl, hwalk⟩ := h.walkable
  exact ⟨hwalk.yields, h.size⟩

end BlockList

end UtopiaEda
