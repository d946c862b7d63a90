import UtopiaEda.BoundedSetMerges

/-!
# Runs of bounded sets

Constructors, insertions, assignments and merges in any order keep the elements increasing and the
signature right.
-/
namespace UtopiaEda.BoundedSet
open List

variable {s other : BoundedSet} {mem : ℕ → ℕ}

/-- The elements of an `std::unordered_set` fill a set that has room for them. -/
theorem Valid.insertAll {set : List ℕ} (h : s.Valid) (hnd : set.Nodup)
    (hnew : ∀ x ∈ set, x ∉ s.toSet) (hfit : s.setSize + set.length ≤ s.maxSize) :
    (s.insertAll set).Valid ∧ (s.insertAll set).maxSize = s.maxSize ∧
      (s.insertAll set).isImmutable = s.isImmutable ∧ (s.insertAll set).toSet =
      s.toSet ∪ set.toFinset := by
  induction set generalizing s with
  | nil => exact ⟨h, rfl, rfl, by simp [BoundedSet.insertAll]⟩
  | cons x set ih =>
    obtain ⟨hx, hnd⟩ := List.nodup_cons.mp hnd
    have hxs : x ∉ s.elems := fun hmem => hnew x mem_cons_self (mem_toSet.mpr hmem)
    have hinsert := h.insertRaw (x := x) (b := true) (fun _ => hxs)
    rw [length_cons] at hfit
    rw [if_pos ⟨by omega, hxs⟩] at hinsert
    obtain ⟨s₁, hs₁, hv, hmax, himm, hset⟩ := hinsert
    have hsize : s₁.setSize = s.setSize + 1 := by
      rw [← hv.card, hset, Finset.card_union_of_disjoint, h.card, Finset.card_singleton]
      rw [Finset.disjoint_singleton_right, mem_toSet]
      exact hxs
    obtain ⟨hv', hmax', himm', hset'⟩ := ih hv hnd (fun y hy hmem => by
      rw [hset, Finset.mem_union, Finset.mem_singleton] at hmem
      rcases hmem with hmem | rfl
      exacts [hnew y (mem_cons_of_mem _ hy) hmem, hx hy]) (by omega)
    have hall : s.insertAll (x :: set) = s₁.insertAll set := by
      rw [BoundedSet.insertAll, foldl_cons, hs₁]
      rfl
    rw [hall]
    refine ⟨hv', hmax'.trans hmax, himm'.trans himm, ?_⟩
    rw [hset', hset, toFinset_cons, Finset.union_assoc, Finset.insert_eq]

inductive Reached (P : BoundedSet → BoundedSet → Prop) : BoundedSet → Prop where
  | empty {maxSize : ℕ} {isImmutable : Bool} {mem : ℕ → ℕ} {s : BoundedSet}
      (bound : maxSize < 2 ^ 16) (h : empty maxSize isImmutable mem = some s) : Reached P s
  | singleton {maxSize x : ℕ} {isImmutable : Bool} {mem : ℕ → ℕ} {s : BoundedSet}
      (bound : maxSize < 2 ^ 16) (h : singleton maxSize x isImmutable mem = some s) : Reached P s
  | ofSet {maxSize : ℕ} {set : List ℕ} {isImmutable : Bool} {mem : ℕ → ℕ} {s : BoundedSet}
      (bound : maxSize < 2 ^ 16) (nodup : set.Nodup)
      (h : ofSet maxSize set isImmutable mem = some s) : Reached P s
  | copy {other : BoundedSet} {mem : ℕ → ℕ} (hother : Reached P other) : Reached P (other.copy mem)
  | insert {s s' : BoundedSet} {x : ℕ} {isChecked b : Bool} (hs : Reached P s)
      (checked : isChecked = true → x ∉ s.elems) (h : s.insert x isChecked = some (b, s')) :
      Reached P s'
  | assign {s s' : BoundedSet} {set : List ℕ} (hs : Reached P s) (nodup : set.Nodup)
      (h : s.assign set = some s') : Reached P s'
  | merge {s s' other : BoundedSet} {b : Bool} (hs : Reached P s) (hother : Reached P other)
      (hP : P s other) (h : s.merge other = some (b, s')) : Reached P s'

theorem valid_empty {maxSize : ℕ} {isImmutable : Bool} (hpos : maxSize ≠ 0)
    (bound : maxSize < 2 ^ 16) : Valid { maxSize, isImmutable, mem } :=
  ⟨Nat.pos_of_ne_zero hpos, bound, Nat.zero_le _, .inl rfl, List.Pairwise.nil, rfl⟩

theorem Reached.valid (h : Reached Fits s) : s.Valid := by
  induction h with
  | empty bound h =>
    rw [BoundedSet.empty] at h
    split at h
    · cases h
    · rename_i hpos
      cases h
      exact valid_empty hpos bound
  | @singleton maxSize x _ mem _ bound h =>
    rw [BoundedSet.singleton] at h
    split at h
    · cases h
    · rename_i hpos
      cases h
      refine ⟨Nat.pos_of_ne_zero hpos, bound, Nat.pos_of_ne_zero hpos, .inl rfl,
        pairwise_singleton _ _, ?_⟩
      change getSignature x = unionSignature [Function.update mem 0 x 0]
      rw [Function.update_self, unionSignature, foldr_cons, foldr_nil, BitVec.or_zero]
  | ofSet bound nodup h =>
    rw [BoundedSet.ofSet] at h
    split at h
    · cases h
    · rename_i hpos
      rw [not_or, Nat.not_lt] at hpos
      cases h
      exact ((valid_empty hpos.1 bound).insertAll nodup (fun x _ hx => by simp [toSet, elems] at hx)
        (by simpa using hpos.2)).1
  | @copy other mem _ ih =>
    have helems : (other.copy mem).elems = other.elems := by
      rw [elems, elems]
      apply map_congr_left
      intro p hp
      have hp : p < other.setSize := List.mem_range.mp hp
      change (if 0 + p < other.setSize then other.get (0 + p) else mem (0 + p)) = other.get p
      rw [Nat.zero_add, if_pos hp]
    exact ⟨ih.pos, ih.bound, ih.size, .inl rfl, helems ▸ ih.sorted, helems ▸ ih.signature⟩
  | @insert s s' x isChecked b _ checked h ih =>
    rw [BoundedSet.insert] at h
    split at h
    · cases h
    · have hraw := ih.insertRaw checked
      have h := Option.some.inj h
      split at hraw
      · obtain ⟨s₁, hs₁, hv, -⟩ := hraw
        cases hs₁.symm.trans h
        exact hv
      · cases hraw.symm.trans h
        exact ih
  | @assign s s' set _ nodup h ih =>
    rw [BoundedSet.assign] at h
    split at h
    · cases h
    · rename_i hfit
      rw [not_or, Nat.not_lt] at hfit
      cases h
      have hcleared : Valid { s with setSize := 0, signature := 0#64 } :=
        ⟨ih.pos, ih.bound, Nat.zero_le _, ih.half, List.Pairwise.nil, rfl⟩
      exact (hcleared.insertAll nodup (fun x _ hx => by simp [toSet, elems] at hx)
        (by simpa using hfit.2)).1
  | @merge s s' other b _ _ hP h ih ih' =>
    have hm : s.isImmutable = false := by
      rw [← Bool.not_eq_true]
      intro himm
      rw [BoundedSet.merge, if_pos himm] at h
      cases h
    have hright := (ih.mergesRight_iff ih' hm).mpr hP
    rw [MergesRight] at hright
    split at hright
    · obtain ⟨s₁, hs₁, hv, -⟩ := hright
      cases hs₁.symm.trans h
      exact hv
    · cases hright.symm.trans h
      exact ih

/-- Bounded sets are sets, as long as no merge meets a union of 2¹⁶ elements or more that passes the
check. -/
theorem reached_spec (hs : Reached Fits s) (hother : Reached Fits other) :
    s.Valid ∧ (s.contains other = true ↔ other.toSet ⊆ s.toSet) ∧
    (s.beq other = true ↔ s.toSet = other.toSet) ∧
      (s.isImmutable = false → (MergesRight s other ↔ Fits s other)) :=
  ⟨hs.valid, hs.valid.contains_iff hother.valid, hs.valid.beq_iff hother.valid,
    hs.valid.mergesRight_iff hother.valid⟩

/-- A set after a merge, and the set that it was merged with. -/
theorem reached_spec_merged : ∃ s other, s.elems = [2, 5, 66] ∧ other.elems = [5, 66] ∧ s.Valid ∧
    (s.contains other = true ↔ other.toSet ⊆ s.toSet) ∧
    (s.beq other = true ↔ s.toSet = other.toSet) ∧
      (s.isImmutable = false → (MergesRight s other ↔ Fits s other)) := by
  have hs : Reached Fits _ := @Reached.singleton Fits 4 2 false (fun _ => 7) _ (by decide) rfl
  have hother : Reached Fits _ :=
    @Reached.ofSet Fits 4 [66, 5] true (fun _ => 7) _ (by decide) (by decide) rfl
  exact ⟨_, _, rfl, rfl, reached_spec (hs.merge hother (.inl (by decide)) rfl) hother⟩

def multiples : List ℕ := (List.range 65535).map (fun p => 64 * (p + 1))

private theorem exists_multiples : ∃ other, ofSet 65535 multiples true (fun _ => 7) = some other ∧
    multiples.Nodup ∧ other.Valid ∧ other.toSet = multiples.toFinset := by
  have hlen : multiples.length = 65535 := by rw [multiples, length_map, length_range]
  have hnd : multiples.Nodup := by
    refine List.Nodup.map (fun p q hpq => ?_) nodup_range
    have hpq : 64 * (p + 1) = 64 * (q + 1) := hpq
    omega
  have hcond : ¬ (65535 = 0 ∨ 65535 < multiples.length) := by
    rw [hlen]
    decide
  have hempty : Valid { maxSize := 65535, isImmutable := true, mem := fun _ => 7 } :=
    valid_empty (by decide) (by decide)
  obtain ⟨hv, -, -, hset⟩ := hempty.insertAll hnd (fun x _ hx => by simp [toSet, elems] at hx)
    (by rw [hlen])
  refine ⟨_, by rw [ofSet, if_neg hcond], hnd, hv, hset.trans ?_⟩
  rw [show toSet { maxSize := 65535, isImmutable := true, mem := fun _ => 7 } = ∅ from rfl,
    Finset.empty_union]

/-- Merging them to `{0}` of capacity 1. -/
theorem not_mergesRight : ¬ ∀ s other, Reached (fun _ _ => True) s →
    Reached (fun _ _ => True) other → s.isImmutable = false → MergesRight s other := by
  intro h
  obtain ⟨other, hother, hnd, hv', hset'⟩ := exists_multiples
  have hs : singleton 1 0 false (fun _ => 7) = some { maxSize := 1, isImmutable := false
                                                      mem := Function.update (fun _ => 7) 0 0
                                                      setSize := 1
                                                      signature := getSignature 0 } := rfl
  have hv := (Reached.singleton (P := Fits) (show 1 < 2 ^ 16 by decide) hs).valid
  have hright := h _ other (.singleton (show 1 < 2 ^ 16 by decide) hs)
    (.ofSet (show 65535 < 2 ^ 16 by decide) hnd hother) rfl
  rw [hv.mergesRight_iff hv' rfl] at hright
  generalize hs₀ : ({ maxSize := 1, isImmutable := false
                      mem := Function.update (fun _ => 7) 0 0
                      setSize := 1
                      signature := getSignature 0 } : BoundedSet) = s at *
  have hset : s.toSet = {0} := by
    rw [← hs₀]
    rfl
  have hunion : s.toSet ∪ other.toSet = (Finset.range 65536).image (64 * ·) := by
    rw [hset, hset']
    ext a
    simp only [Finset.mem_union, Finset.mem_singleton, mem_toFinset, multiples, mem_map, mem_range,
      Finset.mem_image, Finset.mem_range]
    constructor
    · rintro (rfl | ⟨p, hp, rfl⟩)
      exacts [⟨0, by decide, rfl⟩, ⟨p + 1, by omega, rfl⟩]
    · rintro ⟨p, hp, rfl⟩
      cases p with
      | zero => exact .inl rfl
      | succ p => exact .inr ⟨p, by omega, rfl⟩
  have hcard : (s.toSet ∪ other.toSet).card = 65536 := by
    rw [hunion, Finset.card_image_of_injective _
      (fun p q hpq => Nat.eq_of_mul_eq_mul_left (by decide) hpq), Finset.card_range]
  have hbit : ∀ k < 64, other.signature.getLsbD k = decide (k = 0) := by
    intro k hk
    rw [Bool.eq_iff_iff, hv'.getLsbD_signature hk, decide_eq_true_iff, hset']
    simp only [mem_toFinset, multiples, mem_map, mem_range]
    constructor
    · rintro ⟨_, ⟨p, -, rfl⟩, hpk⟩
      omega
    · rintro rfl
      exact ⟨64, ⟨0, by decide, rfl⟩, rfl⟩
  have hsig' : other.signature = 1#64 := by
    apply BitVec.eq_of_getLsbD_eq
    intro k hk
    rw [hbit k hk, BitVec.getLsbD_one]
    simp
  have hsig : s.signature = 1#64 := by
    rw [← hs₀]
    rfl
  have hmax : s.maxSize = 1 := by
    rw [← hs₀]
  rw [Fits, hcard, hmax, hsig, hsig'] at hright
  revert hright
  decide

end UtopiaEda.BoundedSet
