import UtopiaEda.SortedUnions
import UtopiaEda.UnitCounts
import Mathlib.Logic.Function.Basic

/-!
# Bounded sets

`BoundedSet` keeps the elements of a set in increasing order in one half of a buffer. A merge
writes to the other half, and a word with a bit for each residue of the elements modulo 64
answers some questions early. What the memory holds outside the set is arbitrary. A result
`none` means that an assertion of the source fails or that a merge writes outside the buffer.
-/
namespace UtopiaEda

open List
open Function (update update_self update_of_ne)

/-- `mem` is the memory from `setPtr - offset` on. -/
structure BoundedSet where
  maxSize : ℕ
  isImmutable : Bool
  mem : ℕ → ℕ
  offset : ℕ := 0
  setSize : ℕ := 0
  signature : BitVec 64 := 0#64

namespace BoundedSet

def getSignature (elem : ℕ) : BitVec 64 := 1#64 <<< (elem % 64)

/-- `setPtr[i]`. -/
def get (s : BoundedSet) (i : ℕ) : ℕ := s.mem (s.offset + i)

/-- The elements from `begin()` to `end()`. -/
def elems (s : BoundedSet) : List ℕ := (List.range s.setSize).map s.get

/-- The index of the element in the set, or of the end. `std::lower_bound` finds the first
element that is not less. -/
def find (s : BoundedSet) (num : ℕ) : ℕ :=
  let r := s.elems.findIdx (fun elem => num ≤ elem)
  if s.get r = num then r else s.setSize

/-- The first loop of `insertRaw`: the position of the new element. -/
def position (s : BoundedSet) (newElement : ℕ) : ℕ → ℕ → ℕ
  | 0, i => i
  | n + 1, i => if s.get i < newElement ∧ i < s.setSize then position s newElement n (i + 1) else i

/-- The second loop of `insertRaw`: moves the elements from position `i` on. -/
def shift (s : BoundedSet) (i : ℕ) : ℕ → (ℕ → ℕ) → ℕ → ℕ
  | 0, mem => mem
  | j + 1, mem =>
    if i < j + 1 then shift s i j (update mem (s.offset + (j + 1)) (mem (s.offset + j))) else mem

def insertRaw (s : BoundedSet) (newElement : ℕ) (isChecked : Bool) : Bool × BoundedSet :=
  if s.setSize + 1 ≤ s.maxSize ∧ (isChecked ∨ s.find newElement = s.setSize) then
    let i := s.position newElement s.setSize 0
    (true, { s with mem := update (s.shift i s.setSize s.mem) (s.offset + i) newElement
                    setSize := s.setSize + 1
                    signature := s.signature ||| getSignature newElement })
  else (false, s)

/-- Adds a new element if there is a place for it and it is not there yet. The caller may have
checked the latter. -/
def insert (s : BoundedSet) (newElement : ℕ) (isChecked : Bool) : Option (Bool × BoundedSet) :=
  if s.isImmutable then none else some (s.insertRaw newElement isChecked)

/-- Constructs an empty set; `mem` is the allocated memory. -/
def empty (maxSize : ℕ) (isImmutable : Bool) (mem : ℕ → ℕ) : Option BoundedSet :=
  if maxSize = 0 then none else some { maxSize, isImmutable, mem }

def singleton (maxSize singleElement : ℕ) (isImmutable : Bool) (mem : ℕ → ℕ) : Option BoundedSet :=
  if maxSize = 0 then none
  else some { maxSize, isImmutable
              mem := update mem 0 singleElement
              setSize := 1
              signature := getSignature singleElement }

/-- Inserts the elements of an `std::unordered_set` in the order of its iterators. -/
def insertAll (s : BoundedSet) (set : List ℕ) : BoundedSet :=
  set.foldl (fun s elem => (s.insertRaw elem true).2) s

/-- Constructs a set with the elements of an `std::unordered_set`. -/
def ofSet (maxSize : ℕ) (set : List ℕ) (isImmutable : Bool) (mem : ℕ → ℕ) : Option BoundedSet :=
  if maxSize = 0 ∨ maxSize < set.length then none
  else some (insertAll { maxSize, isImmutable, mem } set)

/-- `operator=`. -/
def assign (s : BoundedSet) (set : List ℕ) : Option BoundedSet :=
  if s.isImmutable ∨ s.maxSize < set.length then none
  else some (insertAll { s with setSize := 0, signature := 0#64 } set)

/-- The copy constructor; `mem` is the allocated memory. -/
def copy (other : BoundedSet) (mem : ℕ → ℕ) : BoundedSet :=
  { other with mem := fun p => if p < other.setSize then other.get p else mem p
               offset := 0 }

def contains (s other : BoundedSet) : Bool :=
  if s.setSize < other.setSize then false
  else if s.signature ≠ s.signature ||| other.signature then false
  else other.elems.all (fun elem => s.find elem ≠ s.setSize)

/-- `operator==`. -/
def beq (s other : BoundedSet) : Bool :=
  if s.setSize ≠ other.setSize then false
  else if s.signature ≠ other.signature then false
  else (List.range s.setSize).all (fun i => s.get i = other.get i)

/-- The loop of `unionCheck`. The counter `k` has 16 bits. -/
def countLoop (s other : BoundedSet) : ℕ → ℕ → ℕ → ℕ → ℕ × ℕ × ℕ
  | 0, i, j, k => (i, j, k)
  | n + 1, i, j, k =>
    if i < s.setSize ∧ j < other.setSize then
      if s.get i = other.get j then countLoop s other n (i + 1) (j + 1) ((k + 1) % 2 ^ 16)
      else if s.get i < other.get j then countLoop s other n (i + 1) j ((k + 1) % 2 ^ 16)
      else countLoop s other n i (j + 1) ((k + 1) % 2 ^ 16)
    else (i, j, k)

/-- Checks whether it is possible to merge two sets into one with a valid size. -/
def unionCheck (s other : BoundedSet) : Bool :=
  if s.setSize + other.setSize ≤ s.maxSize then true
  else if s.signature &&& other.signature = 0#64 then false
  else if s.maxSize < UnitCounts.countUnits (s.signature ||| other.signature) then false
  else
    let (i, j, k) := s.countLoop other (s.setSize + other.setSize) 0 0 0
    (k + ((s.setSize - i) + (other.setSize - j))) % 2 ^ 16 ≤ s.maxSize

/-- `newPtr[k++] = elem`. -/
def put (s : BoundedSet) (newOffset k elem : ℕ) (mem : ℕ → ℕ) : Option (ℕ × (ℕ → ℕ)) :=
  if 2 * s.maxSize ≤ newOffset + k then none
  else some ((k + 1) % 2 ^ 16, update mem (newOffset + k) elem)

/-- The loops of `merge`. -/
def mergeLoop (s other : BoundedSet) (newOffset : ℕ) :
    ℕ → ℕ → ℕ → ℕ → (ℕ → ℕ) → Option (ℕ × (ℕ → ℕ))
  | 0, _, _, k, mem => some (k, mem)
  | n + 1, i, j, k, mem =>
    if i < s.setSize ∧ j < other.setSize then
      if mem (s.offset + i) = other.get j then do
        let (k, mem) ← s.put newOffset k (mem (s.offset + i)) mem
        mergeLoop s other newOffset n (i + 1) (j + 1) k mem
      else if mem (s.offset + i) < other.get j then do
        let (k, mem) ← s.put newOffset k (mem (s.offset + i)) mem
        mergeLoop s other newOffset n (i + 1) j k mem
      else do
        let (k, mem) ← s.put newOffset k (other.get j) mem
        mergeLoop s other newOffset n i (j + 1) k mem
    else if i < s.setSize then do
      let (k, mem) ← s.put newOffset k (mem (s.offset + i)) mem
      mergeLoop s other newOffset n (i + 1) j k mem
    else if j < other.setSize then do
      let (k, mem) ← s.put newOffset k (other.get j) mem
      mergeLoop s other newOffset n i (j + 1) k mem
    else some (k, mem)

def merge (s other : BoundedSet) : Option (Bool × BoundedSet) :=
  if s.isImmutable then none
  else if !s.unionCheck other then some (false, s)
  else do
    let offset := (s.offset + s.maxSize) % (2 * s.maxSize)
    let (k, mem) ← s.mergeLoop other offset (s.setSize + other.setSize) 0 0 0 s.mem
    some (true, { s with mem, offset
                         setSize := k
                         signature := s.signature ||| other.signature })

def unionSignature (l : List ℕ) : BitVec 64 := l.foldr (fun elem r => getSignature elem ||| r) 0#64

structure Valid (s : BoundedSet) : Prop where
  pos : 0 < s.maxSize
  bound : s.maxSize < 2 ^ 16
  size : s.setSize ≤ s.maxSize
  half : s.offset = 0 ∨ s.offset = s.maxSize
  sorted : s.elems.Pairwise (· < ·)
  signature : s.signature = unionSignature s.elems

def toSet (s : BoundedSet) : Finset ℕ := s.elems.toFinset

variable {s s' other : BoundedSet} {x a i j k n p q : ℕ} {mem : ℕ → ℕ} {b : Bool} {l l' : List ℕ}

theorem mem_elems : a ∈ s.elems ↔ ∃ p < s.setSize, s.get p = a := by
  simp [elems]

theorem length_elems : s.elems.length = s.setSize := by
  simp [elems]

theorem pairwise_iff : s.elems.Pairwise (· < ·) ↔ ∀ p q, p < q → q < s.setSize →
    s.get p < s.get q := by
  rw [elems, pairwise_map, pairwise_iff_getElem]
  constructor
  · intro h p q hpq hq
    have hlt := h p q (by simpa using hpq.trans hq) (by simpa using hq) hpq
    rwa [getElem_range, getElem_range] at hlt
  · intro h p q hp hq hpq
    rw [getElem_range, getElem_range]
    exact h p q hpq (by simpa using hq)

theorem getLsbD_getSignature (h : k < 64) : (getSignature x).getLsbD k = decide (x % 64 = k) := by
  rw [getSignature, BitVec.getLsbD_shiftLeft, BitVec.getLsbD_one]
  have hx : x % 64 < 64 := Nat.mod_lt x (by decide)
  by_cases hxk : x % 64 = k
  · simp [h, hxk]
  · simp [h, hxk]
    omega

theorem getLsbD_unionSignature (h : k < 64) :
    (unionSignature l).getLsbD k = true ↔ ∃ a ∈ l, a % 64 = k := by
  induction l with
  | nil => simp [unionSignature]
  | cons x l ih =>
    rw [unionSignature, foldr_cons, BitVec.getLsbD_or, Bool.or_eq_true, getLsbD_getSignature h,
      decide_eq_true_iff]
    simp only [mem_cons, or_and_right, exists_or, exists_eq_left]
    exact or_congr_right ih

theorem unionSignature_congr (h : ∀ a, a ∈ l ↔ a ∈ l') : unionSignature l = unionSignature l' := by
  apply BitVec.eq_of_getLsbD_eq
  intro k hk
  rw [Bool.eq_iff_iff, getLsbD_unionSignature hk, getLsbD_unionSignature hk]
  simp only [h]

theorem unionSignature_append :
    unionSignature (l ++ l') = unionSignature l ||| unionSignature l' := by
  apply BitVec.eq_of_getLsbD_eq
  intro k hk
  rw [BitVec.getLsbD_or, Bool.eq_iff_iff, Bool.or_eq_true, getLsbD_unionSignature hk,
    getLsbD_unionSignature hk, getLsbD_unionSignature hk]
  simp only [mem_append, or_and_right, exists_or]

theorem Valid.find_eq (h : s.Valid) : s.find x = s.setSize ↔ x ∉ s.elems := by
  have hle : s.elems.findIdx (fun elem => x ≤ elem) ≤ s.setSize := by
    rw [← length_elems]
    exact findIdx_le_length
  have hget : ∀ {p} (hp : p < s.elems.length), s.elems[p] = s.get p := by
    intro p hp
    simp [elems]
  rw [find]
  generalize hr : s.elems.findIdx (fun elem => x ≤ elem) = r at hle
  constructor
  · intro heq hmem
    obtain ⟨p, hp, hpx⟩ := mem_elems.mp hmem
    have hrp : r ≤ p := by
      apply Nat.le_of_not_lt
      intro hlt
      have hfalse := not_of_lt_findIdx (hr ▸ hlt)
      rw [hget, hpx] at hfalse
      simp at hfalse
    have hrlt : r < s.elems.length := by
      rw [length_elems]
      omega
    have hxr : x ≤ s.get r := by
      have hlt : s.elems.findIdx (fun elem => x ≤ elem) < s.elems.length := hr ▸ hrlt
      have htrue := findIdx_getElem (w := hlt)
      rw [hget, hr] at htrue
      exact of_decide_eq_true htrue
    have hrx : s.get r = x := by
      rcases Nat.eq_or_lt_of_le hrp with rfl | hlt
      · exact hpx
      · have := pairwise_iff.mp h.sorted r p hlt hp
        omega
    rw [if_pos hrx] at heq
    omega
  · intro hmem
    split
    · rename_i hrx
      rcases Nat.eq_or_lt_of_le hle with heq | hlt
      · exact heq
      · exact absurd (mem_elems.mpr ⟨r, hlt, hrx⟩) hmem
    · rfl

theorem position_spec (hi : i + n = s.setSize) : let r := s.position x n i
    i ≤ r ∧ r ≤ s.setSize ∧ (∀ p, i ≤ p → p < r → s.get p < x) ∧
    (r < s.setSize → ¬ s.get r < x) := by
  induction n generalizing i with
  | zero =>
    rw [position]
    exact ⟨Nat.le_refl i, Nat.le_of_eq hi, fun p hp hpi => by omega, fun hlt => by omega⟩
  | succ n ih =>
    rw [position]
    by_cases hlt : s.get i < x
    · rw [if_pos ⟨hlt, by omega⟩]
      obtain ⟨hle, hsize, hbelow, hend⟩ := ih (i := i + 1) (by omega)
      refine ⟨by omega, hsize, fun p hp hpr => ?_, hend⟩
      rcases Nat.eq_or_lt_of_le hp with rfl | hp
      exacts [hlt, hbelow p hp hpr]
    · rw [if_neg (fun hc => hlt hc.1)]
      exact ⟨Nat.le_refl i, by omega, fun p hp hpi => by omega, fun _ => hlt⟩

theorem shift_spec : s.shift i j mem p =
    if s.offset + i < p ∧ p ≤ s.offset + j then mem (p - 1) else mem p := by
  induction j generalizing mem with
  | zero => rw [shift, if_neg (by omega)]
  | succ j ih =>
    rw [shift]
    by_cases hij : i < j + 1
    · rw [if_pos hij, ih]
      by_cases hp : p = s.offset + (j + 1)
      · rw [if_neg (by omega), if_pos (by omega), hp, update_self]
        rfl
      · rw [update_of_ne hp]
        by_cases hin : s.offset + i < p ∧ p ≤ s.offset + j
        · rw [if_pos hin, if_pos (by omega), update_of_ne (by omega)]
        · rw [if_neg hin, if_neg (by omega)]
    · rw [if_neg hij, if_neg (by omega)]

private theorem get_inserted (hmem : s'.mem = update (s.shift i s.setSize s.mem) (s.offset + i) x)
    (ho : s'.offset = s.offset) (hp : p ≤ s.setSize) :
    s'.get p = if p < i then s.get p else if p = i then x else s.get (p - 1) := by
  rw [get, hmem, ho]
  by_cases hpi : p = i
  · rw [hpi, update_self, if_neg (Nat.lt_irrefl i), if_pos rfl]
  · rw [update_of_ne (by omega), shift_spec, if_neg hpi]
    by_cases hlt : p < i
    · rw [if_neg (by omega), if_pos hlt]
      rfl
    · rw [if_pos (by omega), if_neg hlt, get, show s.offset + p - 1 = s.offset + (p - 1) by omega]

private theorem mem_inserted (hi : i ≤ s.setSize) (hn : s'.setSize = s.setSize + 1)
    (hget : ∀ p ≤ s.setSize, s'.get p = if p < i then s.get p else if p = i then x else
      s.get (p - 1)) :
    a ∈ s'.elems ↔ a ∈ s.elems ∨ a = x := by
  rw [mem_elems, mem_elems, hn]
  constructor
  · rintro ⟨p, hp, rfl⟩
    rw [hget p (Nat.le_of_lt_succ hp)]
    by_cases hlt : p < i
    · rw [if_pos hlt]
      exact .inl ⟨p, by omega, rfl⟩
    · rw [if_neg hlt]
      by_cases hpi : p = i
      · rw [if_pos hpi]
        exact .inr rfl
      · rw [if_neg hpi]
        exact .inl ⟨p - 1, by omega, rfl⟩
  · rintro (⟨p, hp, rfl⟩ | rfl)
    · by_cases hlt : p < i
      · exact ⟨p, by omega, by rw [hget p (by omega), if_pos hlt]⟩
      · refine ⟨p + 1, by omega, ?_⟩
        rw [hget (p + 1) (by omega), if_neg (by omega), if_neg (by omega), Nat.add_sub_cancel]
    · exact ⟨i, by omega, by rw [hget i hi, if_neg (Nat.lt_irrefl i), if_pos rfl]⟩

theorem Valid.insertRaw (h : s.Valid) (hx : b = true → x ∉ s.elems) :
    if s.setSize < s.maxSize ∧ x ∉ s.elems then
      ∃ s', s.insertRaw x b = (true, s') ∧ s'.Valid ∧ s'.maxSize = s.maxSize ∧ s'.isImmutable =
        s.isImmutable ∧ s'.toSet = s.toSet ∪ {x}
    else s.insertRaw x b = (false, s) := by
  have hcond : (s.setSize + 1 ≤ s.maxSize ∧ (b = true ∨ s.find x = s.setSize)) ↔
      s.setSize < s.maxSize ∧ x ∉ s.elems := by
    rw [h.find_eq]
    exact and_congr_right (fun _ => or_iff_right_of_imp hx)
  rw [BoundedSet.insertRaw]
  simp only [hcond]
  split
  · rename_i hfit
    obtain ⟨-, hsize, hbelow, hend⟩ := position_spec (s := s) (x := x) (Nat.zero_add s.setSize)
    generalize s.position x s.setSize 0 = i at *
    let s₁ := { s with mem := update (s.shift i s.setSize s.mem) (s.offset + i) x
                       setSize := s.setSize + 1
                       signature := s.signature ||| getSignature x }
    have hget : ∀ p ≤ s.setSize, s₁.get p = if p < i then s.get p else if p = i then x else
        s.get (p - 1) :=
      fun p hp => get_inserted rfl rfl hp
    have hmem : ∀ a, a ∈ s₁.elems ↔ a ∈ s.elems ∨ a = x := fun a => mem_inserted hsize rfl hget
    have hincreasing := pairwise_iff.mp h.sorted
    have hgt : ∀ p, i ≤ p → p < s.setSize → x < s.get p := by
      intro p hip hp
      have hle : s.get i ≤ s.get p := by
        rcases Nat.eq_or_lt_of_le hip with rfl | hlt
        · exact Nat.le_refl _
        · exact Nat.le_of_lt (hincreasing i p hlt hp)
      have hne : x ≠ s.get i := by
        intro heq
        exact hfit.2 (mem_elems.mpr ⟨i, by omega, heq.symm⟩)
      have hnot := hend (by omega)
      omega
    refine ⟨s₁, rfl, ⟨h.pos, h.bound, hfit.1, h.half, ?_, ?_⟩, rfl, rfl, ?_⟩
    · rw [pairwise_iff]
      intro p q hpq hq
      have hq : q < s.setSize + 1 := hq
      rw [hget p (by omega), hget q (by omega)]
      rcases Nat.lt_trichotomy p i with hp | rfl | hp
      · rw [if_pos hp]
        rcases Nat.lt_trichotomy q i with hqi | rfl | hqi
        · rw [if_pos hqi]
          exact hincreasing p q hpq (by omega)
        · rw [if_neg (Nat.lt_irrefl q), if_pos rfl]
          exact hbelow p (Nat.zero_le p) hp
        · rw [if_neg (by omega), if_neg (by omega)]
          exact hincreasing p (q - 1) (by omega) (by omega)
      · rw [if_neg (Nat.lt_irrefl p), if_pos rfl, if_neg (by omega), if_neg (by omega)]
        exact hgt (q - 1) (by omega) (by omega)
      · rw [if_neg (by omega), if_neg (by omega), if_neg (by omega), if_neg (by omega)]
        exact hincreasing (p - 1) (q - 1) (by omega) (by omega)
    · have hsig : unionSignature (s.elems ++ [x]) = s.signature ||| getSignature x := by
        rw [unionSignature_append, ← h.signature, unionSignature, foldr_cons, foldr_nil,
          BitVec.or_zero]
      refine hsig.symm.trans (unionSignature_congr (fun a => ?_))
      rw [hmem, mem_append, mem_singleton]
    · ext a
      rw [toSet, mem_toFinset, hmem, Finset.mem_union, toSet, mem_toFinset, Finset.mem_singleton]
  · rfl

end BoundedSet

end UtopiaEda
