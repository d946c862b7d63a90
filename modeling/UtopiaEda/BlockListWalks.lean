import UtopiaEda.BlockLists

/-!
# Walks over lists of blocks

What an iterator meets: in a block the occupied items up to the last one, then the blocks behind it.
A walk only needs the pointers to the next blocks, the flags of the final one, and that a block
other than the first has an item at its last index.
-/
namespace UtopiaEda

open List
open Option (bind_eq_bind bind_some)

variable {α : Type} {items xs ys : List (Option α)} {i j n : ℕ} {a : α} {t : ItemSize}

namespace ListBlock

/-- The items that are not null, with their indices from `i` on. -/
def occupied : ℕ → List (Option α) → List (ℕ × α)
  | _, [] => []
  | i, none :: items => occupied (i + 1) items
  | i, some a :: items => (i, a) :: occupied (i + 1) items

theorem occupied_append : occupied i (xs ++ ys) = occupied i xs ++ occupied (i + xs.length) ys := by
  induction xs generalizing i with
  | nil => rfl
  | cons x xs ih =>
    have hi : i + 1 + xs.length = i + (x :: xs).length := by
      rw [length_cons]
      omega
    cases x with
    | none => rw [cons_append, occupied, ih, occupied, hi]
    | some a => rw [cons_append, occupied, ih, occupied, hi, cons_append]

theorem occupied_ne_nil (h : xs.getLast? = some (some a)) : occupied i xs ≠ [] := by
  obtain ⟨ys, rfl⟩ := List.getLast?_eq_some_iff.mp h
  rw [occupied_append]
  exact append_ne_nil_of_right_ne_nil _ (cons_ne_nil _ _)

theorem mem_occupied : (j, a) ∈ occupied i xs ↔ i ≤ j ∧ xs[j - i]? = some (some a) := by
  induction xs generalizing i with
  | nil => simp [occupied]
  | cons x xs ih =>
    have hcons : i < j → (x :: xs)[j - i]? = xs[j - (i + 1)]? := fun hlt => by
      rw [show j - i = j - (i + 1) + 1 by omega, getElem?_cons_succ]
    cases x with
    | none =>
      rw [occupied, ih]
      constructor
      · intro ⟨hle, hget⟩
        exact ⟨Nat.le_of_succ_le hle, by rw [hcons hle, hget]⟩
      · intro ⟨hle, hget⟩
        rcases Nat.eq_or_lt_of_le hle with rfl | hlt
        · rw [Nat.sub_self, getElem?_cons_zero] at hget
          cases hget
        · exact ⟨hlt, by rw [← hcons hlt, hget]⟩
    | some b =>
      rw [occupied, mem_cons, ih]
      constructor
      · intro h
        rcases h with h | ⟨hle, hget⟩
        · cases h
          exact ⟨Nat.le_refl j, by rw [Nat.sub_self, getElem?_cons_zero]⟩
        · exact ⟨Nat.le_of_succ_le hle, by rw [hcons hle, hget]⟩
      · intro ⟨hle, hget⟩
        rcases Nat.eq_or_lt_of_le hle with rfl | hlt
        · rw [Nat.sub_self, getElem?_cons_zero] at hget
          cases hget
          exact .inl rfl
        · exact .inr ⟨hlt, by rw [← hcons hlt, hget]⟩

theorem occupied_eq_nil (h : ∀ k < xs.length, xs[k]?.join = none) : occupied i xs = [] := by
  rw [eq_nil_iff_forall_not_mem]
  intro p hp
  have hget := (mem_occupied.mp hp).2
  obtain ⟨hlt, -⟩ := List.getElem?_eq_some_iff.mp hget
  have hnone := h _ hlt
  rw [hget] at hnone
  cases hnone

theorem skipNullItems_eq : skipNullItems xs i = (occupied i xs).head?.map Prod.fst := by
  induction xs generalizing i with
  | nil => rfl
  | cons x xs ih =>
    cases x with
    | none => exact ih
    | some a => rfl

theorem skipNullItems_append (h : occupied i xs ≠ []) :
    skipNullItems (xs ++ ys) i = (occupied i xs).head?.map Prod.fst := by
  rw [skipNullItems_eq, occupied_append, head?_append_of_ne_nil _ h]

def used (b : ListBlock α) : ℕ := (b.last + 1).toNat

def elements (b : ListBlock α) : List (ℕ × α) := occupied 0 (b.items.take b.used)

structure Topped (b : ListBlock α) : Prop where
  last : b.last = (b.used : ℤ) - 1
  used_le : b.used ≤ b.items.length
  top : ∃ a, (b.items.take b.used).getLast? = some (some a)

theorem Topped.elements_ne_nil {b : ListBlock α} (h : b.Topped) : b.elements ≠ [] := by
  obtain ⟨a, ha⟩ := h.top
  exact occupied_ne_nil ha

end ListBlock

namespace BlockList
open ListBlock

variable {s : BlockList α} {sid : ℕ} {sids rest : List ℕ} {b : ListBlock α}
  {pos it it' : ListIterator} {l l' : List (ListIterator × α)}

/-- The loop from `pos` to `end()` terminates and meets `l`. -/
def Yields (s : BlockList α) (pos : ListIterator) (l : List (ListIterator × α)) : Prop :=
  ∃ n, s.walk n pos = some l

theorem Yields.nil : s.Yields back [] := ⟨1, by rw [walk, if_pos rfl]⟩

theorem Yields.cons (hd : s.deref pos = some a) (hn : s.next pos = some it) (h : s.Yields it l) :
    s.Yields pos ((pos, a) :: l) := by
  obtain ⟨n, hwalk⟩ := h
  have hne : pos ≠ back := fun heq => by
    rw [heq] at hd
    cases hd
  refine ⟨n + 1, ?_⟩
  rw [walk, if_neg hne]
  simp only [hd, hn, hwalk, bind_eq_bind, bind_some]

theorem walk_mono (h : s.walk n pos = some l) : s.walk (n + 1) pos = some l := by
  induction n generalizing pos l with
  | zero => cases h
  | succ n ih =>
    rw [walk] at h ⊢
    by_cases hback : pos = back
    · rw [if_pos hback] at h ⊢
      exact h
    · rw [if_neg hback] at h ⊢
      simp only [bind_eq_bind, Option.bind_eq_some_iff] at h ⊢
      obtain ⟨a, ha, it, hit, l', hl', heq⟩ := h
      exact ⟨a, ha, it, hit, l', ih hl', heq⟩

theorem walk_le {m : ℕ} (hle : n ≤ m) (h : s.walk n pos = some l) : s.walk m pos = some l := by
  induction hle with
  | refl => exact h
  | step _ ih => exact walk_mono ih

theorem Yields.unique (h : s.Yields pos l) (h' : s.Yields pos l') : l = l' := by
  obtain ⟨n, hn⟩ := h
  obtain ⟨m, hm⟩ := h'
  have hn' := walk_le (Nat.le_max_left n m) hn
  have hm' := walk_le (Nat.le_max_right n m) hm
  rw [hn'] at hm'
  exact Option.some.inj hm'

def places (s : BlockList α) (sid : ℕ) : List (ListIterator × α) :=
  ((s.blocks sid).elim [] elements).map (fun p => (⟨some sid, p.1⟩, p.2))

theorem places_eq (hb : s.blocks sid = some b) :
    s.places sid = b.elements.map (fun p => (⟨some sid, p.1⟩, p.2)) := by
  rw [places, hb]
  rfl

def enter (s : BlockList α) : List ℕ → Option ListIterator
  | [] => some back
  | sid :: _ => do some ⟨some sid, ← skipNullItems (← s.blocks sid).items 0⟩

structure Follows (s : BlockList α) (sids : List ℕ) : Prop where
  stored : ∀ sid ∈ sids, ∃ b, s.blocks sid = some b
  next : ∀ l₁ sid rest b, sids = l₁ ++ sid :: rest → s.blocks sid = some b →
    moveNextBlock b = rest.head?

theorem Follows.tail (h : s.Follows (sid :: rest)) : s.Follows rest where
  stored := fun r hr => h.stored r (mem_cons_of_mem sid hr)
  next := fun l₁ r rest' b heq hb => h.next (sid :: l₁) r rest' b (by rw [heq, cons_append]) hb

theorem Follows.leave (h : s.Follows (sid :: rest)) (hb : s.blocks sid = some b)
    (hend : b.size = 0 ∨ (i : ℤ) = b.last) : s.next ⟨some sid, i⟩ = s.enter rest := by
  rw [BlockList.next]
  simp only [bind_eq_bind, bind_some, hb]
  rw [if_pos hend, h.next [] sid rest b rfl hb]
  cases rest with
  | nil => rfl
  | cons r rest => rfl

theorem next_inside (hb : s.blocks sid = some b) (hsize : b.size ≠ 0) (ht : b.Topped)
    (hi : i + 1 < b.used) : s.next ⟨some sid, i⟩ =
      (occupied (i + 1) ((b.items.take b.used).drop (i + 1))).head?.map
      (fun p => ⟨some sid, p.1⟩) := by
  obtain ⟨a, ha⟩ := ht.top
  have hlast := ht.last
  have hne : ¬ (b.size = 0 ∨ (i : ℤ) = b.last) := by omega
  have hlen : (b.items.take b.used).length = b.used := length_take_of_le ht.used_le
  have htop : ((b.items.take b.used).drop (i + 1)).getLast? = some (some a) := by
    rw [getLast?_drop, if_neg (by rw [hlen]; omega), ha]
  have hsplit : b.items.drop (i + 1) = (b.items.take b.used).drop (i + 1) ++
      b.items.drop b.used := by
    rw [← drop_append_of_le_length (by rw [hlen]; omega), take_append_drop]
  rw [BlockList.next]
  simp only [bind_eq_bind, bind_some, hb]
  rw [if_neg hne, hsplit, skipNullItems_append (occupied_ne_nil htop)]
  cases (occupied (i + 1) ((b.items.take b.used).drop (i + 1))).head? with
  | none => rfl
  | some p => rfl

theorem deref_eq (hb : s.blocks sid = some b) : s.deref ⟨some sid, i⟩ = b.items[i]?.join := by
  rw [deref]
  simp only [bind_eq_bind, bind_some, hb]

private theorem yields_suffix (hb : s.blocks sid = some b) (hsize : b.size ≠ 0) (ht : b.Topped)
    (hleave : ∀ i : ℕ, (i : ℤ) = b.last → s.next ⟨some sid, i⟩ = some it) (h : s.Yields it l) :
    ∀ {ys xs : List (Option α)} {p : ℕ × α} {ps : List (ℕ × α)}, b.items.take b.used = xs ++ ys →
      occupied xs.length ys = p :: ps →
      s.Yields ⟨some sid, p.1⟩ ((p :: ps).map (fun p => (⟨some sid, p.1⟩, p.2)) ++ l) := by
  have hlen : (b.items.take b.used).length = b.used := length_take_of_le ht.used_le
  have hlast := ht.last
  obtain ⟨a, ha⟩ := ht.top
  intro ys
  induction ys with
  | nil =>
    intro xs p ps _ hocc
    cases hocc
  | cons y ys ih =>
    intro xs p ps hU hocc
    have hU' : b.items.take b.used = (xs ++ [y]) ++ ys := by rw [hU, append_assoc, singleton_append]
    have hlen' : (xs ++ [y]).length = xs.length + 1 := by rw [length_append, length_singleton]
    cases y with
    | none => exact ih hU' (by rw [hlen', ← hocc, occupied])
    | some c =>
      rw [occupied] at hocc
      cases hocc
      have hused : b.used = xs.length + 1 + ys.length := by
        rw [← hlen, hU', length_append, hlen']
      have hget : b.items[xs.length]? = some (some c) := by
        rw [← getElem?_take_of_lt (show xs.length < b.used by omega), hU,
          getElem?_append_right (Nat.le_refl _), Nat.sub_self, getElem?_cons_zero]
      have hd : s.deref ⟨some sid, xs.length⟩ = some c := by
        rw [deref_eq hb, hget]
        rfl
      cases ys with
      | nil =>
        rw [length_nil] at hused
        exact Yields.cons hd (hleave xs.length (by omega)) h
      | cons y ys =>
        rw [length_cons] at hused
        have hdrop : (b.items.take b.used).drop (xs.length + 1) = y :: ys := by
          rw [hU', ← hlen', drop_left]
        have htop : (y :: ys).getLast? = some (some a) := by
          rw [← hdrop, getLast?_drop, if_neg (by rw [hlen]; omega), ha]
        have hnext := next_inside hb hsize ht (show xs.length + 1 < b.used by omega)
        rw [hdrop] at hnext
        obtain ⟨q, qs, hq⟩ := exists_cons_of_ne_nil (occupied_ne_nil (i := xs.length + 1) htop)
        rw [hq] at hnext ⊢
        exact Yields.cons hd hnext (ih hU' (by rw [hlen', hq]))

theorem yields_block (hF : s.Follows (sid :: rest)) (hb : s.blocks sid = some b)
    (hsize : b.size ≠ 0) (ht : b.Topped) (hrest : s.enter rest = some it) (h : s.Yields it l) :
    ∃ it', s.enter (sid :: rest) = some it' ∧ s.Yields it' (s.places sid ++ l) := by
  obtain ⟨p, ps, hp⟩ := exists_cons_of_ne_nil ht.elements_ne_nil
  refine ⟨⟨some sid, p.1⟩, ?_, ?_⟩
  · rw [enter, hb]
    simp only [bind_eq_bind, bind_some]
    rw [← take_append_drop b.used b.items, skipNullItems_append ht.elements_ne_nil]
    rw [elements] at hp
    rw [hp]
    rfl
  · rw [places_eq hb, hp]
    exact yields_suffix hb hsize ht (fun i hi => by rw [hF.leave hb (.inr hi), hrest]) h
      (nil_append _).symm hp

theorem yields_blocks (hF : s.Follows sids) (ht : ∀ sid ∈ sids, ∀ b, s.blocks sid = some b →
    b.size ≠ 0 ∧ b.Topped) : ∃ it, s.enter sids = some it ∧
    s.Yields it (sids.flatMap s.places) := by
  induction sids with
  | nil => exact ⟨back, rfl, .nil⟩
  | cons sid rest ih =>
    obtain ⟨it, hit, hy⟩ := ih hF.tail (fun r hr => ht r (mem_cons_of_mem sid hr))
    obtain ⟨b, hb⟩ := hF.stored sid mem_cons_self
    obtain ⟨hsize, htop⟩ := ht sid mem_cons_self b hb
    exact yields_block hF hb hsize htop hit hy

theorem skipEmptyBlocks_enter (hF : s.Follows sids)
    (ht : ∀ sid ∈ sids, ∀ b, s.blocks sid = some b → b.size ≠ 0) :
    s.skipEmptyBlocks (n + 1) sids.head? = s.enter sids := by
  cases sids with
  | nil => rfl
  | cons sid rest =>
    obtain ⟨b, hb⟩ := hF.stored sid mem_cons_self
    rw [head?_cons, skipEmptyBlocks, enter, hb]
    exact if_neg (ht sid mem_cons_self b hb)

/-- The state a walk from `begin()` needs: only the first block may be empty. -/
structure Walkable (s : BlockList α) (rest : List ℕ) : Prop where
  follows : s.Follows (s.listID :: rest)
  allocated : 0 < s.storage.objSID
  first : ∀ b, s.blocks s.listID = some b → b.size = 0 ∧ b.elements = [] ∨ b.size ≠ 0 ∧ b.Topped
  behind : ∀ sid ∈ rest, ∀ b, s.blocks sid = some b → b.size ≠ 0 ∧ b.Topped

theorem Walkable.yields (h : s.Walkable rest) :
    ∃ it, s.front = some it ∧ s.Yields it ((s.listID :: rest).flatMap s.places) := by
  obtain ⟨it, hit, hy⟩ := yields_blocks h.follows.tail h.behind
  obtain ⟨b, hb⟩ := h.follows.stored s.listID mem_cons_self
  have hobj := h.allocated
  rw [flatMap_cons]
  rcases h.first b hb with ⟨hsize, hnil⟩ | ⟨hsize, htop⟩
  · refine ⟨it, ?_, ?_⟩
    · obtain ⟨n, hn⟩ := Nat.exists_eq_add_of_lt hobj
      rw [Nat.zero_add] at hn
      rw [front, iterator, skipEmptyBlocks, hb]
      simp only [bind_eq_bind, bind_some]
      rw [if_pos hsize, h.follows.next [] _ _ b rfl hb, hn,
        skipEmptyBlocks_enter h.follows.tail (fun r hr c hc => (h.behind r hr c hc).1), hit]
    · rw [places_eq hb, hnil]
      exact hy
  · obtain ⟨it', hit', hy'⟩ := yields_block h.follows hb hsize htop hit hy
    refine ⟨it', ?_, hy'⟩
    rw [front, iterator, ← hit', ← head?_cons (a := s.listID) (l := rest)]
    rw [head?_cons, skipEmptyBlocks, enter, hb]
    exact if_neg hsize

end BlockList

end UtopiaEda
