import UtopiaEda.BoundedSet

/-!
# Merging bounded sets

The loops of `merge` write the union of the elements to the other half of the buffer. Whether it
fits is checked before; the counter of that check has 16 bits.
-/
namespace UtopiaEda.BoundedSet
open List

variable {s s' other : BoundedSet} {a i j k n : ℕ} {mem : ℕ → ℕ}

theorem drop_elems (hi : i < s.setSize) : s.elems.drop i = s.get i :: s.elems.drop (i + 1) := by
  rw [drop_eq_getElem_cons (by rw [length_elems]; exact hi)]
  simp [elems]

theorem drop_elems_end (hi : ¬ i < s.setSize) : s.elems.drop i = [] := by
  rw [drop_eq_nil_iff, length_elems]
  exact Nat.not_lt.mp hi

def written (newOffset k : ℕ) (mem : ℕ → ℕ) : List ℕ :=
  (range k).map (fun p => mem (newOffset + p))

private theorem written_update {o v : ℕ} :
    written o (k + 1) (Function.update mem (o + k) v) = written o k mem ++ [v] := by
  rw [written, range_succ, map_append, map_singleton, Function.update_self]
  congr 1
  apply map_congr_left
  intro p hp
  have hp := mem_range.mp hp
  exact Function.update_of_ne (by omega) _ _

private theorem put_eq {o v : ℕ} (hk : k < s.maxSize) (ho : o ≤ s.maxSize)
    (hs : s.maxSize < 2 ^ 16) : s.put o k v mem = some (k + 1, Function.update mem (o + k) v) := by
  rw [put, if_neg (by omega), Nat.mod_eq_of_lt (by omega)]

theorem mergeLoop_spec {o : ℕ} (ho : o ≤ s.maxSize) (hmax : s.maxSize < 2 ^ 16)
    (hsize : s.setSize ≤ s.maxSize) (hhalf : o + s.maxSize ≤ s.offset ∨ s.offset + s.maxSize ≤ o)
    (hmem : ∀ p < s.setSize, mem (s.offset + p) = s.get p)
    (hk : k + (SortedUnions.union (s.elems.drop i) (other.elems.drop j)).length ≤ s.maxSize)
    (hn : (s.setSize - i) + (other.setSize - j) ≤ n) :
    ∃ mem', s.mergeLoop other o n i j k mem =
        some (k + (SortedUnions.union (s.elems.drop i) (other.elems.drop j)).length, mem') ∧
      written o (k + (SortedUnions.union (s.elems.drop i) (other.elems.drop j)).length) mem' =
        written o k mem ++ SortedUnions.union (s.elems.drop i) (other.elems.drop j) := by
  induction n generalizing i j k mem with
  | zero =>
    rw [drop_elems_end (by omega), drop_elems_end (by omega)]
    exact ⟨mem, by simp [mergeLoop], by simp⟩
  | succ n ih =>
    -- one turn of a loop writes the first element of the union
    have hturn : ∀ {v i' j' : ℕ}, SortedUnions.union (s.elems.drop i) (other.elems.drop j) =
        v :: SortedUnions.union (s.elems.drop i') (other.elems.drop j') →
        (s.setSize - i') + (other.setSize - j') ≤ n →
        ∃ mem', ((s.put o k v mem).bind fun r => s.mergeLoop other o n i' j' r.1 r.2) =
          some (k + (SortedUnions.union (s.elems.drop i) (other.elems.drop j)).length, mem') ∧
        written o (k + (SortedUnions.union (s.elems.drop i) (other.elems.drop j)).length) mem' =
          written o k mem ++ SortedUnions.union (s.elems.drop i) (other.elems.drop j) := by
      intro v i' j' hcons hfuel
      rw [hcons, length_cons] at hk
      have hmem₁ : ∀ p < s.setSize, Function.update mem (o + k) v (s.offset + p) = s.get p := by
        intro p hp
        rw [Function.update_of_ne (by omega), hmem p hp]
      obtain ⟨mem', hloop, hwritten⟩ := ih (k := k + 1) hmem₁ (by omega) hfuel
      refine ⟨mem', ?_, ?_⟩
      · rw [put_eq (by omega) ho hmax, hcons, length_cons, ← Nat.add_assoc, Nat.add_right_comm]
        exact hloop
      · rw [hcons, length_cons, ← Nat.add_assoc, Nat.add_right_comm, hwritten, written_update,
          append_assoc]
        rfl
    rw [mergeLoop]
    by_cases hi : i < s.setSize
    · have hgi := hmem i hi
      by_cases hj : j < other.setSize
      · rw [if_pos ⟨hi, hj⟩, hgi]
        have hdrop := drop_elems hi
        have hdrop' := drop_elems hj
        by_cases heq : s.get i = other.get j
        · rw [if_pos heq]
          exact hturn (by rw [hdrop, hdrop', SortedUnions.union, if_pos heq]) (by omega)
        · rw [if_neg heq]
          by_cases hlt : s.get i < other.get j
          · rw [if_pos hlt]
            exact hturn (by rw [hdrop, hdrop', SortedUnions.union, if_neg heq, if_pos hlt])
              (by omega)
          · rw [if_neg hlt]
            exact hturn (by rw [hdrop, hdrop', SortedUnions.union, if_neg heq, if_neg hlt])
              (by omega)
      · rw [if_neg (fun hc => hj hc.2), if_pos hi, hgi]
        exact hturn (by rw [drop_elems hi, drop_elems_end hj, SortedUnions.union_nil,
          SortedUnions.union_nil]) (by omega)
    · by_cases hj : j < other.setSize
      · rw [if_neg (fun hc => hi hc.1), if_neg hi, if_pos hj]
        exact hturn (by rw [drop_elems hj, drop_elems_end hi, SortedUnions.nil_union,
          SortedUnions.nil_union]) (by omega)
      · rw [if_neg (fun hc => hi hc.1), if_neg hi, if_neg hj, drop_elems_end hi, drop_elems_end hj]
        exact ⟨mem, by simp, by simp⟩

/-- The counter of `unionCheck` counts the union modulo 2¹⁶. -/
theorem countLoop_spec (hn : (s.setSize - i) + (other.setSize - j) ≤ n) :
    let (i', j', k') := s.countLoop other n i j k
    (k' + ((s.setSize - i') + (other.setSize - j'))) % 2 ^ 16 =
      (k + (SortedUnions.union (s.elems.drop i) (other.elems.drop j)).length) % 2 ^ 16 := by
  induction n generalizing i j k with
  | zero =>
    rw [drop_elems_end (by omega), drop_elems_end (by omega), SortedUnions.union_nil, countLoop,
      length_nil]
    simp only
    congr 2
    omega
  | succ n ih =>
    rw [countLoop]
    by_cases hboth : i < s.setSize ∧ j < other.setSize
    · have hturn : ∀ {v i' j' : ℕ}, SortedUnions.union (s.elems.drop i) (other.elems.drop j) =
          v :: SortedUnions.union (s.elems.drop i') (other.elems.drop j') →
          (s.setSize - i') + (other.setSize - j') ≤ n →
          let (i₂, j₂, k₂) := s.countLoop other n i' j' ((k + 1) % 2 ^ 16)
          (k₂ + ((s.setSize - i₂) + (other.setSize - j₂))) % 2 ^ 16 =
            (k + (SortedUnions.union (s.elems.drop i) (other.elems.drop j)).length) % 2 ^ 16 := by
        intro v i' j' hcons hfuel
        refine (ih hfuel).trans ?_
        rw [hcons, length_cons, Nat.mod_add_mod, Nat.add_assoc, Nat.add_comm 1]
      rw [if_pos hboth]
      by_cases heq : s.get i = other.get j
      · rw [if_pos heq]
        exact hturn (by rw [drop_elems hboth.1, drop_elems hboth.2, SortedUnions.union, if_pos heq])
          (by omega)
      · rw [if_neg heq]
        by_cases hlt : s.get i < other.get j
        · rw [if_pos hlt]
          exact hturn (by rw [drop_elems hboth.1, drop_elems hboth.2, SortedUnions.union,
            if_neg heq, if_pos hlt]) (by omega)
        · rw [if_neg hlt]
          exact hturn (by rw [drop_elems hboth.1, drop_elems hboth.2, SortedUnions.union,
            if_neg heq, if_neg hlt]) (by omega)
    · rw [if_neg hboth]
      simp only
      congr 2
      by_cases hi : i < s.setSize
      · have hj : ¬ j < other.setSize := fun hj => hboth ⟨hi, hj⟩
        rw [drop_elems_end hj, SortedUnions.union_nil, length_drop, length_elems]
        omega
      · rw [drop_elems_end hi, SortedUnions.nil_union, length_drop, length_elems]
        omega

theorem Valid.card (h : s.Valid) : s.toSet.card = s.setSize := by
  rw [toSet, SortedUnions.card_toFinset h.sorted, length_elems]

theorem mem_toSet : a ∈ s.toSet ↔ a ∈ s.elems := mem_toFinset

theorem Valid.length_union (h : s.Valid) (h' : other.Valid) :
    (SortedUnions.union s.elems other.elems).length = (s.toSet ∪ other.toSet).card :=
  SortedUnions.length_union h.sorted h'.sorted

theorem Valid.getLsbD_signature (h : s.Valid) (hk : k < 64) :
    s.signature.getLsbD k = true ↔ ∃ a ∈ s.toSet, a % 64 = k := by
  rw [h.signature, getLsbD_unionSignature hk]
  simp only [mem_toSet]

theorem Valid.signature_ne (h : s.Valid) (h' : other.Valid) (ha : a ∈ s.toSet)
    (ha' : a ∈ other.toSet) : s.signature &&& other.signature ≠ 0#64 := by
  have hlt : a % 64 < 64 := Nat.mod_lt a (by decide)
  intro hzero
  have hbit := congrArg (fun w : BitVec 64 => w.getLsbD (a % 64)) hzero
  simp only [BitVec.getLsbD_and, BitVec.getLsbD_zero] at hbit
  rw [(h.getLsbD_signature hlt).mpr ⟨a, ha, rfl⟩,
    (h'.getLsbD_signature hlt).mpr ⟨a, ha', rfl⟩] at hbit
  cases hbit

/-- The union has at least as many elements as its signature has bits. -/
theorem Valid.countUnits_le (h : s.Valid) (h' : other.Valid) :
    UnitCounts.countUnits (s.signature ||| other.signature) ≤ (s.toSet ∪ other.toSet).card := by
  have hsub : (Finset.range 64).filter (fun k => (s.signature ||| other.signature).getLsbD k =
      true) ⊆ (s.toSet ∪ other.toSet).image (· % 64) := by
    intro k hk
    obtain ⟨hk, hbit⟩ := Finset.mem_filter.mp hk
    rw [BitVec.getLsbD_or, Bool.or_eq_true, h.getLsbD_signature (Finset.mem_range.mp hk),
      h'.getLsbD_signature (Finset.mem_range.mp hk)] at hbit
    rw [Finset.mem_image]
    rcases hbit with ⟨a, ha, hak⟩ | ⟨a, ha, hak⟩
    · exact ⟨a, Finset.mem_union_left _ ha, hak⟩
    · exact ⟨a, Finset.mem_union_right _ ha, hak⟩
  have hcard : UnitCounts.countUnits (s.signature ||| other.signature) =
      ((Finset.range 64).filter (fun k => (s.signature ||| other.signature).getLsbD k =
        true)).card := by
    rw [UnitCounts.countUnits_eq, countP_eq_length_filter, Finset.card_def, Finset.filter_val,
      Finset.range_val, Multiset.range, Multiset.filter_coe, Multiset.coe_card]
    simp only [Bool.decide_eq_true]
  rw [hcard]
  exact Nat.le_trans (Finset.card_le_card hsub) Finset.card_image_le

/-- The merge of the sets does not hit a union of 2¹⁶ elements or more whose size looks small
in 16 bits and whose signatures do not tell. -/
def Fits (s other : BoundedSet) : Prop :=
  (s.toSet ∪ other.toSet).card < 2 ^ 16 ∨ s.maxSize < (s.toSet ∪ other.toSet).card % 2 ^ 16 ∨
    s.signature &&& other.signature = 0#64 ∨
    s.maxSize < UnitCounts.countUnits (s.signature ||| other.signature)

theorem Valid.unionCheck (h : s.Valid) (h' : other.Valid) :
    ((s.toSet ∪ other.toSet).card ≤ s.maxSize → s.unionCheck other = true) ∧
      (s.maxSize < (s.toSet ∪ other.toSet).card → (s.unionCheck other = false ↔ Fits s other)) := by
  have hcount := countLoop_spec (s := s) (i := 0) (j := 0) (k := 0)
    (Nat.le_refl (s.setSize + other.setSize))
  rw [drop_zero, drop_zero, h.length_union h', Nat.zero_add] at hcount
  have hsum := Finset.card_union_add_card_inter s.toSet other.toSet
  rw [h.card, h'.card] at hsum
  simp only at hcount
  rw [BoundedSet.unionCheck]
  constructor
  · intro hle
    by_cases hfit : s.setSize + other.setSize ≤ s.maxSize
    · rw [if_pos hfit]
    · have hcommon : (s.toSet ∩ other.toSet).Nonempty := by
        rw [← Finset.card_pos]
        omega
      obtain ⟨a, ha⟩ := hcommon
      rw [Finset.mem_inter] at ha
      rw [if_neg hfit, if_neg (h.signature_ne h' ha.1 ha.2),
        if_neg (Nat.not_lt.mpr ((h.countUnits_le h').trans hle))]
      simp only [hcount, decide_eq_true_iff]
      exact Nat.le_trans (Nat.mod_le _ _) hle
  · intro hlt
    rw [if_neg (by omega)]
    by_cases hsig : s.signature &&& other.signature = 0#64
    · simp [hsig, Fits]
    · by_cases hunits : s.maxSize < UnitCounts.countUnits (s.signature ||| other.signature)
      · simp [hsig, hunits, Fits]
      · rw [if_neg hsig, if_neg hunits]
        simp only [hcount, decide_eq_false_iff_not, Nat.not_le, Fits, hsig, hunits, or_false]
        constructor
        · exact .inr
        · rintro (hsmall | hmod)
          · rwa [Nat.mod_eq_of_lt hsmall]
          · exact hmod

/-- `merge` yields the union if it has at most `maxSize` elements and otherwise leaves the set
unchanged. -/
def MergesRight (s other : BoundedSet) : Prop :=
  if (s.toSet ∪ other.toSet).card ≤ s.maxSize then
    ∃ s', s.merge other = some (true, s') ∧ s'.Valid ∧ s'.maxSize = s.maxSize ∧ s'.isImmutable =
      s.isImmutable ∧ s'.toSet = s.toSet ∪ other.toSet
  else s.merge other = some (false, s)

theorem Valid.merge (h : s.Valid) (h' : other.Valid) (hm : s.isImmutable = false)
    (hle : (s.toSet ∪ other.toSet).card ≤ s.maxSize) :
    ∃ s', s.merge other = some (true, s') ∧ s'.Valid ∧ s'.maxSize = s.maxSize ∧ s'.isImmutable =
    s.isImmutable ∧
      s'.toSet = s.toSet ∪ other.toSet := by
  have hoffset : ∃ o, (s.offset + s.maxSize) % (2 * s.maxSize) = o ∧ (o = 0 ∨ o = s.maxSize) ∧
      (o + s.maxSize ≤ s.offset ∨ s.offset + s.maxSize ≤ o) := by
    refine ⟨_, rfl, ?_⟩
    rcases h.half with ho | ho
    · rw [ho, Nat.zero_add, Nat.mod_eq_of_lt (by have := h.pos; omega)]
      exact ⟨.inr rfl, .inr (by omega)⟩
    · rw [ho, ← Nat.two_mul, Nat.mod_self]
      exact ⟨.inl rfl, .inl (by omega)⟩
  obtain ⟨o, ho, hhalf, hdisjoint⟩ := hoffset
  have hlen := h.length_union h'
  obtain ⟨mem', hloop, hwritten⟩ := mergeLoop_spec (s := s) (i := 0) (j := 0) (k := 0)
    (n := s.setSize + other.setSize) (o := o) (by omega) h.bound h.size hdisjoint (fun p _ => rfl)
    (show 0 + (SortedUnions.union (s.elems.drop 0) (other.elems.drop 0)).length ≤ s.maxSize by
      rw [drop_zero, drop_zero, hlen, Nat.zero_add]
      exact hle) (Nat.le_refl _)
  rw [drop_zero, drop_zero, Nat.zero_add] at hloop hwritten
  let s' := { s with mem := mem'
                     offset := o
                     setSize := (SortedUnions.union s.elems other.elems).length
                     signature := s.signature ||| other.signature }
  have helems : s'.elems = SortedUnions.union s.elems other.elems := hwritten
  refine ⟨s', ?_, ⟨h.pos, h.bound, by rw [← hlen] at hle; exact hle, hhalf, ?_, ?_⟩, rfl, rfl, ?_⟩
  · rw [BoundedSet.merge, if_neg (by simp [hm]), (h.unionCheck h').1 hle, if_neg (by simp)]
    simp only [ho, hloop, Option.bind_eq_bind, Option.bind_some]
    rfl
  · rw [helems]
    exact SortedUnions.pairwise_union h.sorted h'.sorted
  · have hsig : unionSignature (s.elems ++ other.elems) = s.signature ||| other.signature := by
      rw [unionSignature_append, ← h.signature, ← h'.signature]
    refine hsig.symm.trans (unionSignature_congr (fun a => ?_))
    rw [helems, SortedUnions.mem_union, mem_append]
  · rw [toSet, helems, SortedUnions.toFinset_union]
    rfl

/-- Merging is right exactly where the size of the union is told in 16 bits or by the signatures. -/
theorem Valid.mergesRight_iff (h : s.Valid) (h' : other.Valid) (hm : s.isImmutable = false) :
    MergesRight s other ↔ Fits s other := by
  rw [MergesRight]
  split
  · rename_i hle
    exact ⟨fun _ => .inl (Nat.lt_of_le_of_lt hle h.bound), fun _ => h.merge h' hm hle⟩
  · rename_i hlt
    rw [← (h.unionCheck h').2 (Nat.not_le.mp hlt), BoundedSet.merge, if_neg (by simp [hm])]
    cases s.unionCheck other with
    | false => simp
    | true =>
      simp only [Bool.not_true, Bool.false_eq_true, if_false, Bool.true_eq_false, iff_false]
      intro heq
      obtain ⟨_, -, heq⟩ := Option.bind_eq_some_iff.mp heq
      cases heq

theorem Valid.contains_iff (h : s.Valid) (h' : other.Valid) :
    s.contains other = true ↔ other.toSet ⊆ s.toSet := by
  rw [contains]
  constructor
  · intro hc
    split at hc
    · cases hc
    · split at hc
      · cases hc
      · intro a ha
        have hfind := all_eq_true.mp hc a (mem_toSet.mp ha)
        rw [decide_eq_true_iff, ne_eq, h.find_eq, not_not] at hfind
        exact mem_toSet.mpr hfind
  · intro hsub
    have hcard := Finset.card_le_card hsub
    rw [h.card, h'.card] at hcard
    have hsig : s.signature = s.signature ||| other.signature := by
      apply BitVec.eq_of_getLsbD_eq
      intro k hk
      rw [BitVec.getLsbD_or, Bool.eq_iff_iff, Bool.or_eq_true, h.getLsbD_signature hk,
        h'.getLsbD_signature hk]
      refine ⟨.inl, ?_⟩
      rintro (hs | ⟨a, ha, hak⟩)
      exacts [hs, ⟨a, hsub ha, hak⟩]
    rw [if_neg (Nat.not_lt.mpr hcard), if_neg (not_not.mpr hsig), all_eq_true]
    intro a ha
    rw [decide_eq_true_iff, ne_eq, h.find_eq, not_not]
    exact mem_toSet.mp (hsub (mem_toSet.mpr ha))

theorem Valid.beq_iff (h : s.Valid) (h' : other.Valid) :
    s.beq other = true ↔ s.toSet = other.toSet := by
  rw [beq]
  constructor
  · intro hc
    split at hc
    · cases hc
    · rename_i hsize
      split at hc
      · cases hc
      · have helems : s.elems = other.elems := by
          rw [elems, elems, ← not_not.mp hsize]
          apply map_congr_left
          intro i hi
          exact of_decide_eq_true (all_eq_true.mp hc i hi)
        rw [toSet, toSet, helems]
  · intro heq
    have helems : s.elems = other.elems := SortedUnions.eq_of_toFinset_eq h.sorted h'.sorted heq
    have hsize : s.setSize = other.setSize := by rw [← length_elems, helems, length_elems]
    rw [if_neg (not_not.mpr hsize),
      if_neg (not_not.mpr (by rw [h.signature, h'.signature, helems])), all_eq_true]
    intro i hi
    have hget := map_inj_left.mp (show (range s.setSize).map s.get =
      (range s.setSize).map other.get by
      rw [← elems, helems, elems, hsize])
    exact decide_eq_true (hget i hi)

end UtopiaEda.BoundedSet
