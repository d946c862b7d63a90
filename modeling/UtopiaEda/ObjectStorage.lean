import Mathlib.Data.List.Nodup
import Mathlib.Data.Nat.Bitwise
import Mathlib.Tactic.Linarith
import Mathlib.Tactic.Ring

/-!
# Storage of objects

The objects of a kind stand one behind the other in pages of `LargePageSize` bytes. An identifier
consists of a tag and the number of the allocation; a table leads from the number to the address.
Machine integers are natural numbers with the wraps that the source relies on.
-/
namespace UtopiaEda
open List
open Option (bind_eq_bind bind_eq_some_iff bind_some some.inj)

def SmallPageSize : ℕ := 1 * 1024 * 1024

def LargePageSize : ℕ := 64 * 1024 * 1024

/-- The arguments of `ObjectID<T, S, V, Z>` with its assertions. The table of the descriptors has a
page. -/
structure ObjectKind where
  tag : ℕ
  /-- Width of the short identifiers. -/
  bits : ℕ
  /-- Number of alignment zeros. -/
  log2 : ℕ
  le_tag : 0x01 ≤ tag
  tag_le : tag ≤ 0xff
  size_le : 2 ^ log2 ≤ LargePageSize
  width_le : bits + log2 ≤ 64 - 8
  le_bits : 15 ≤ bits

/-- `aligned_alloc(pageSize, pageSize)`: no two pages have the same address. -/
structure PageManager where
  address : ℕ → ℕ
  aligned : ∀ n, LargePageSize ∣ address n
  fresh : Function.Injective address

namespace ObjectKind

/-- The kind of `CellID`. -/
def cell : ObjectKind := ⟨1, 40, 5, by decide, by decide, by decide, by decide, by decide⟩

/-- The kind of `SubnetID`. -/
def subnet : ObjectKind := ⟨7, 32, 6, by decide, by decide, by decide, by decide, by decide⟩

def size (k : ObjectKind) : ℕ := 2 ^ k.log2

def nullSID (k : ObjectKind) : ℕ := 2 ^ k.bits - 1

def makeTaggedFID (k : ObjectKind) (objectFID : ℕ) : ℕ := k.tag <<< (64 - 8) ||| objectFID

def makeUntaggedFID (objectFID : ℕ) : ℕ := objectFID &&& (2 ^ 64 - 1 - 0xff <<< (64 - 8))

/-- The identifier of the allocation; 0 is the null identifier. -/
def makeFID (k : ObjectKind) (objectSID : ℕ) : ℕ :=
  if objectSID = k.nullSID then 0 else k.makeTaggedFID ((objectSID <<< k.log2) % 2 ^ 64)

def makeSID (k : ObjectKind) (objectFID : ℕ) : ℕ :=
  if objectFID = 0 then k.nullSID else makeUntaggedFID objectFID >>> k.log2

/-! ### The table of the descriptors -/

def ObjDescPerPage : ℕ := SmallPageSize / 32

def objDescPageNum (k : ObjectKind) : ℕ := 2 ^ k.bits / ObjDescPerPage

def getLocation (k : ObjectKind) (objID : ℕ) : ℕ × ℕ :=
  (k.makeSID objID / ObjDescPerPage, k.makeSID objID &&& (ObjDescPerPage - 1))

end ObjectKind

structure StoredObject where
  id : ℕ
  location : ℕ
  size : ℕ

structure Storage where
  /-- A 32-bit counter. -/
  objSID : ℕ := 0
  /-- Number of the pages allocated so far. -/
  pages : ℕ := 0
  page : Option ℕ := none
  offset : ℕ := 0
  /-- `objPtr` of the descriptors, by page and index. -/
  table : ℕ → Option (ℕ → Option ℕ) := fun _ => none

namespace Storage
open ObjectKind

/-- `accessAlloc(objID)->objPtr = location`. -/
def setLocation (k : ObjectKind) (s : Storage) (objID location : ℕ) : Option Storage :=
  let (page, idx) := k.getLocation objID
  if page < k.objDescPageNum then
    let descs := Function.update ((s.table page).getD (fun _ => none)) idx (some location)
    some { s with table := Function.update s.table page (some descs) }
  else none

def access (k : ObjectKind) (s : Storage) (objID : ℕ) : Option ℕ :=
  if objID = 0 then none
  else
    let (page, idx) := k.getLocation objID
    s.table page >>= fun descs => descs idx

/-- Aligns the offset; `offset - 1` wraps at 0. -/
def align (k : ObjectKind) (offset : ℕ) : ℕ :=
  (((offset + (2 ^ 64 - 1)) % 2 ^ 64 &&& (2 ^ 64 - 1 - (k.size - 1))) + k.size) % 2 ^ 64

def place (k : ObjectKind) (m : PageManager) (s : Storage) (objSize : ℕ) : Storage × ℕ :=
  match s.page with
  | some page =>
    if LargePageSize < align k s.offset + objSize then
      ({ s with pages := s.pages + 1, page := some (m.address s.pages), offset := 0 },
        m.address s.pages)
    else ({ s with offset := align k s.offset }, page)
  | none => ({ s with pages := s.pages + 1, page := some (m.address s.pages), offset := 0 },
      m.address s.pages)

def allocateExt (k : ObjectKind) (m : PageManager) (s : Storage) (objSize : ℕ) :
    Option (Storage × StoredObject) :=
  if k.size ≤ objSize ∧ objSize ≤ LargePageSize then do
    let (s, page) := s.place k m objSize
    let location := page + s.offset
    let objID := k.makeFID s.objSID
    let s := { s with offset := s.offset + objSize, objSID := (s.objSID + 1) % 2 ^ 32 }
    let s ← s.setLocation k objID location
    some (s, ⟨objID, location, objSize⟩)
  else none

def allocateAll (k : ObjectKind) (m : PageManager) :
    List ℕ → Storage → Option (Storage × List StoredObject)
  | [], s => some (s, [])
  | objSize :: sizes, s => do
    let (s, object) ← s.allocateExt k m objSize
    let (s, objects) ← allocateAll k m sizes s
    some (s, object :: objects)

/-! ### Identifiers -/

end Storage

namespace ObjectKind

lemma size_pos (k : ObjectKind) : 0 < k.size := Nat.two_pow_pos k.log2

lemma shifted_lt (k : ObjectKind) {sid : ℕ} (h : sid < 2 ^ k.bits) : sid * 2 ^ k.log2 < 2 ^ 56 := by
  calc sid * 2 ^ k.log2 < 2 ^ k.bits * 2 ^ k.log2 :=
    Nat.mul_lt_mul_of_pos_right h (Nat.two_pow_pos _)
    _ = 2 ^ (k.bits + k.log2) := (pow_add 2 _ _).symm
    _ ≤ 2 ^ 56 := Nat.pow_le_pow_right (by norm_num) k.width_le

/-- The parts of an identifier stand in different bits. -/
lemma makeFID_eq (k : ObjectKind) {sid : ℕ} (h : sid < k.nullSID) :
    k.makeFID sid = k.tag * 2 ^ 56 + sid * 2 ^ k.log2 := by
  have hlt := k.shifted_lt (show sid < 2 ^ k.bits by simp only [nullSID] at h; omega)
  have h64 : sid * 2 ^ k.log2 < 2 ^ 64 := hlt.trans (by norm_num)
  simp only [makeFID, makeTaggedFID]
  rw [if_neg h.ne, Nat.shiftLeft_eq sid, Nat.mod_eq_of_lt h64, ← Nat.shiftLeft_add_eq_or_of_lt hlt,
    Nat.shiftLeft_eq]

lemma makeUntaggedFID_eq (objectFID : ℕ) : makeUntaggedFID objectFID = objectFID % 2 ^ 56 := by
  have h : 2 ^ 64 - 1 - 0xff <<< (64 - 8) = 2 ^ 56 - 1 := by decide
  rw [makeUntaggedFID, h, Nat.and_two_pow_sub_one_eq_mod]

lemma makeFID_ne_zero (k : ObjectKind) {sid : ℕ} (h : sid < k.nullSID) : k.makeFID sid ≠ 0 := by
  have := k.le_tag
  rw [k.makeFID_eq h]
  omega

lemma makeSID_makeFID (k : ObjectKind) {sid : ℕ} (h : sid < k.nullSID) :
    k.makeSID (k.makeFID sid) = sid := by
  have hlt := k.shifted_lt (show sid < 2 ^ k.bits by simp only [nullSID] at h; omega)
  rw [makeSID, if_neg (k.makeFID_ne_zero h), makeUntaggedFID_eq, k.makeFID_eq h,
    Nat.shiftRight_eq_div_pow, Nat.mul_add_mod_self_right, Nat.mod_eq_of_lt hlt]
  exact Nat.mul_div_cancel _ (Nat.two_pow_pos _)

lemma makeFID_nullSID (k : ObjectKind) : k.makeFID k.nullSID = 0 := if_pos rfl

lemma getLocation_eq (k : ObjectKind) (objID : ℕ) :
    k.getLocation objID = (k.makeSID objID / 2 ^ 15, k.makeSID objID % 2 ^ 15) := by
  have h : ObjDescPerPage = 2 ^ 15 := by decide
  rw [getLocation, h, Nat.and_two_pow_sub_one_eq_mod]

/-- The descriptors of an identifier's page exist in the table. -/
lemma page_lt (k : ObjectKind) {sid : ℕ} (h : sid < k.nullSID) :
    (k.getLocation (k.makeFID sid)).1 < k.objDescPageNum := by
  have hb : 2 ^ k.bits = 2 ^ (k.bits - 15) * 2 ^ 15 := by
    rw [← pow_add, Nat.sub_add_cancel k.le_bits]
  have hd : ObjDescPerPage = 2 ^ 15 := by decide
  rw [getLocation_eq, k.makeSID_makeFID h, objDescPageNum, hd, hb,
    Nat.mul_div_cancel _ (by norm_num)]
  refine Nat.div_lt_of_lt_mul ?_
  have : sid < 2 ^ k.bits := by simp only [nullSID] at h; omega
  rwa [hb, mul_comm] at this

lemma getLocation_injective (k : ObjectKind) {i j : ℕ} (hi : i < k.nullSID) (hj : j < k.nullSID)
    (h : k.getLocation (k.makeFID i) = k.getLocation (k.makeFID j)) : i = j := by
  simp only [getLocation_eq, k.makeSID_makeFID hi, k.makeSID_makeFID hj, Prod.mk.injEq] at h
  omega

end ObjectKind

namespace Storage
open ObjectKind

/-! ### Places -/

private lemma pred_div_mul_add {n d : ℕ} (hd : 0 < d) (hn : 0 < n) (h : d ∣ n) :
    (n - 1) / d * d + d = n := by
  obtain ⟨q, rfl⟩ := h
  obtain ⟨q, rfl⟩ := Nat.exists_eq_succ_of_ne_zero (Nat.pos_of_mul_pos_left hn).ne'
  have hpred : d * (q + 1) - 1 = d * q + (d - 1) := by
    rw [Nat.mul_succ]
    omega
  rw [Nat.succ_eq_add_one, hpred, Nat.mul_add_div hd, Nat.div_eq_of_lt (Nat.sub_lt hd one_pos),
    Nat.add_zero, mul_comm q, ← Nat.mul_succ]

lemma align_eq (k : ObjectKind) {offset : ℕ} (h : offset ≤ LargePageSize) :
    align k offset = (offset + (k.size - 1)) / k.size * k.size := by
  have hsize : k.size ≤ LargePageSize := k.size_le
  have hpos := k.size_pos
  simp only [LargePageSize] at h hsize
  have hmask : ∀ x < 2 ^ 64, x &&& (2 ^ 64 - 1 - (k.size - 1)) = x / k.size * k.size := by
    intro x hx
    have hw : 2 ^ 64 - 1 - (k.size - 1) = 2 ^ 64 - (2 ^ k.log2 - 1 + 1) := by
      change 2 ^ 64 - 1 - (k.size - 1) = 2 ^ 64 - (k.size - 1 + 1)
      omega
    have hlt : 2 ^ k.log2 - 1 < 2 ^ 64 := by
      change k.size - 1 < 2 ^ 64
      omega
    change _ = x / 2 ^ k.log2 * 2 ^ k.log2
    rw [hw, ← Nat.shiftRight_eq_div_pow, ← Nat.shiftLeft_eq]
    refine Nat.eq_of_testBit_eq fun i => ?_
    rw [Nat.testBit_and, Nat.testBit_two_pow_sub_succ hlt, Nat.testBit_two_pow_sub_one,
      Nat.testBit_shiftLeft, Nat.testBit_shiftRight]
    by_cases hi : k.log2 ≤ i
    · have : k.log2 + (i - k.log2) = i := by omega
      rw [this]
      by_cases h64 : i < 64
      · simp [hi, h64, Nat.not_lt.2 hi]
      · have : x.testBit i = false :=
          Nat.testBit_lt_two_pow (hx.trans_le (Nat.pow_le_pow_right (by norm_num) (by omega)))
        simp [this]
    · simp [hi, Nat.lt_of_not_le hi]
  obtain rfl | hoff := Nat.eq_zero_or_pos offset
  · -- `offset - 1` is the greatest number; the sum wraps to 0
    have hdvd : k.size ∣ 2 ^ 64 := Nat.pow_dvd_pow 2 (by have := k.width_le; omega)
    have hmod : (0 + (2 ^ 64 - 1)) % 2 ^ 64 = 2 ^ 64 - 1 := by norm_num
    rw [align, hmod, hmask _ (by norm_num), pred_div_mul_add hpos (by norm_num) hdvd, Nat.mod_self,
      Nat.zero_add, Nat.div_eq_of_lt (Nat.sub_lt hpos one_pos), zero_mul]
  · have hsub : (offset + (2 ^ 64 - 1)) % 2 ^ 64 = offset - 1 := by omega
    have hsum : offset + (k.size - 1) = offset - 1 + k.size := by omega
    have hround := Nat.div_mul_le_self (offset - 1) k.size
    rw [align, hsub, hmask _ (by omega), hsum, Nat.add_div_right _ hpos, Nat.succ_mul,
      Nat.mod_eq_of_lt (by omega)]

lemma le_align (k : ObjectKind) {offset : ℕ} (h : offset ≤ LargePageSize) :
    offset ≤ align k offset := by
  have hpos := k.size_pos
  have hlt := Nat.lt_div_mul_add hpos (a := offset + (k.size - 1))
  rw [align_eq k h]
  omega

lemma dvd_align (k : ObjectKind) {offset : ℕ} (h : offset ≤ LargePageSize) :
    k.size ∣ align k offset := by
  rw [align_eq k h]
  exact Nat.dvd_mul_left _ _

structure Placed (k : ObjectKind) (m : PageManager) (p off : ℕ) (o : StoredObject) : Prop where
  location : o.location = m.address p + off
  dvd : k.size ∣ off
  fits : off + o.size ≤ LargePageSize

def Apart (o o' : StoredObject) : Prop :=
  o.location + o.size ≤ o'.location ∨ o'.location + o'.size ≤ o.location

lemma Placed.apart_of_page_ne {k : ObjectKind} {m : PageManager} {p p' off off' : ℕ}
    {o o' : StoredObject} (h : Placed k m p off o) (h' : Placed k m p' off' o') (hp : p ≠ p') :
    Apart o o' := by
  obtain ⟨q, hq⟩ := m.aligned p
  obtain ⟨q', hq'⟩ := m.aligned p'
  have hne : q ≠ q' := fun heq => hp (m.fresh (by rw [hq, hq', heq]))
  have hfits := h.fits
  have hfits' := h'.fits
  rw [Apart, h.location, h'.location, hq, hq']
  obtain hlt | hlt := hne.lt_or_gt
  · have := Nat.mul_le_mul_left LargePageSize hlt
    rw [Nat.succ_eq_add_one, Nat.mul_add_one] at this
    omega
  · have := Nat.mul_le_mul_left LargePageSize hlt
    rw [Nat.succ_eq_add_one, Nat.mul_add_one] at this
    omega

lemma Placed.apart_of_le {k : ObjectKind} {m : PageManager} {p off off' : ℕ} {o o' : StoredObject}
    (h : Placed k m p off o) (h' : Placed k m p off' o') (hle : off + o.size ≤ off') :
    Apart o o' := by
  rw [Apart, h.location, h'.location]
  omega

structure Allocated (k : ObjectKind) (m : PageManager) (s : Storage) (objects : List StoredObject) :
    Prop where
  objSID : s.objSID = objects.length % 2 ^ 32
  page : s.page = if s.pages = 0 then none else some (m.address (s.pages - 1))
  offset : s.offset ≤ LargePageSize
  ids : objects.map (·.id) = (range objects.length).map k.makeFID
  access : ∀ o ∈ objects, s.access k o.id = some o.location
  placed : ∀ o ∈ objects, ∃ p off, Placed k m p off o ∧ p < s.pages ∧
    (p + 1 = s.pages → off + o.size ≤ s.offset)
  apart : objects.Pairwise Apart

lemma Allocated.empty (k : ObjectKind) (m : PageManager) : Allocated k m {} [] where
  objSID := rfl
  page := rfl
  offset := Nat.zero_le _
  ids := rfl
  access := by simp
  placed := by simp
  apart := .nil

lemma Allocated.place {k : ObjectKind} {m : PageManager} {s : Storage} {objects : List StoredObject}
    (h : Allocated k m s objects) {objSize : ℕ} (hsize : objSize ≤ LargePageSize) :
    ∃ p off, s.place k m objSize =
        ({ s with pages := p + 1, page := some (m.address p), offset := off }, m.address p) ∧
      k.size ∣ off ∧ off + objSize ≤ LargePageSize ∧
        (s.pages = p ∨ s.pages = p + 1 ∧ s.offset ≤ off) := by
  have hpage := h.page
  by_cases hpages : s.pages = 0
  · rw [if_pos hpages] at hpage
    exact ⟨0, 0, by simp [Storage.place, hpage, hpages], Nat.dvd_zero _, by omega, .inl hpages⟩
  rw [if_neg hpages] at hpage
  by_cases hplace : LargePageSize < align k s.offset + objSize
  · exact ⟨s.pages, 0, by simp [Storage.place, hpage, hplace], Nat.dvd_zero _, by omega, .inl rfl⟩
  · have hpred : s.pages - 1 + 1 = s.pages := by omega
    refine ⟨s.pages - 1, align k s.offset, ?_, dvd_align k h.offset, by omega,
      .inr ⟨hpred.symm, le_align k h.offset⟩⟩
    simp only [Storage.place, hpage, hplace, if_false, hpred]

/-- The descriptor of the identifier is written; those of the other identifiers stay. -/
lemma exists_setLocation (k : ObjectKind) (s : Storage) {i : ℕ} (hi : i < k.nullSID)
    (location : ℕ) : ∃ s', s.setLocation k (k.makeFID i) location = some s' ∧ s'.objSID = s.objSID ∧
    s'.pages = s.pages ∧
      s'.page = s.page ∧ s'.offset = s.offset ∧ s'.access k (k.makeFID i) = some location ∧
      ∀ j < k.nullSID, j ≠ i → s'.access k (k.makeFID j) = s.access k (k.makeFID j) := by
  let loc := k.getLocation (k.makeFID i)
  let descs := Function.update ((s.table loc.1).getD (fun _ => none)) loc.2 (some location)
  refine ⟨{ s with table := Function.update s.table loc.1 (some descs) }, if_pos (k.page_lt hi),
    rfl, rfl, rfl, rfl, ?_, ?_⟩
  · simp [Storage.access, k.makeFID_ne_zero hi, loc, descs]
  · intro j hj hne
    have hloc : k.getLocation (k.makeFID j) ≠ k.getLocation (k.makeFID i) :=
      fun heq => hne (k.getLocation_injective hj hi heq)
    simp only [Storage.access, k.makeFID_ne_zero hj, if_false]
    by_cases hp : (k.getLocation (k.makeFID j)).1 = (k.getLocation (k.makeFID i)).1
    · have hidx : (k.getLocation (k.makeFID j)).2 ≠ (k.getLocation (k.makeFID i)).2 :=
        fun heq => hloc (Prod.ext hp heq)
      cases htable : s.table (k.getLocation (k.makeFID i)).1 <;>
        simp [hp, hidx, htable, loc, descs]
    · simp [hp, loc]

lemma Allocated.allocateExt {k : ObjectKind} {m : PageManager} {s : Storage}
    {objects : List StoredObject} (h : Allocated k m s objects) {objSize : ℕ}
    (hsize : k.size ≤ objSize ∧ objSize ≤ LargePageSize) (hnull : objects.length < k.nullSID)
    (hcounter : objects.length < 2 ^ 32) : ∃ s' o, s.allocateExt k m objSize = some (s', o) ∧
    o.size = objSize ∧ Allocated k m s' (objects ++ [o]) := by
  obtain ⟨p, off, hplace, hdvd, hfits, hpages⟩ := h.place hsize.2
  have hsid : s.objSID = objects.length := h.objSID.trans (Nat.mod_eq_of_lt hcounter)
  obtain ⟨s', hset, hsid', hpages', hpage', hoffset', hnew, hold⟩ := exists_setLocation k
    { s with pages := p + 1, page := some (m.address p), offset := off + objSize,
             objSID := (s.objSID + 1) % 2 ^ 32 } hnull (m.address p + off)
  have hids : ∀ o ∈ objects, ∃ j < objects.length, o.id = k.makeFID j := by
    intro o ho
    have hmem : o.id ∈ objects.map (·.id) := mem_map_of_mem ho
    rw [h.ids, mem_map] at hmem
    obtain ⟨j, hj, hid⟩ := hmem
    exact ⟨j, mem_range.1 hj, hid.symm⟩
  have hplaced : Placed k m p off ⟨k.makeFID objects.length, m.address p + off, objSize⟩ :=
    ⟨rfl, hdvd, hfits⟩
  refine ⟨s', ⟨k.makeFID objects.length, m.address p + off, objSize⟩, ?_, rfl, ?_, ?_, ?_, ?_,
    ?_, ?_, ?_⟩
  · rw [Storage.allocateExt, if_pos hsize, hplace]
    simp only [hsid] at hset ⊢
    simp only [hset, bind_eq_bind, bind_some]
  · rw [hsid', hsid, length_append, length_singleton]
  · rw [hpage', hpages']
    simp
  · rw [hoffset']
    exact hfits
  · simp [h.ids, range_succ]
  · intro o ho
    obtain ho | ho := mem_append.1 ho
    · obtain ⟨j, hj, hid⟩ := hids o ho
      rw [hid, hold j (hj.trans hnull) hj.ne]
      exact hid ▸ h.access o ho
    · rw [mem_singleton.1 ho]
      exact hnew
  · intro o ho
    rw [hpages', hoffset']
    obtain ho | ho := mem_append.1 ho
    · obtain ⟨q, off', hat, hlt, hbound⟩ := h.placed o ho
      refine ⟨q, off', hat, ?_, fun (hq : q + 1 = p + 1) => ?_⟩
      · change q < p + 1
        omega
      · change off' + o.size ≤ off + objSize
        obtain hp | ⟨hp, hle⟩ := hpages
        · omega
        · have := hbound (by omega)
          omega
    · rw [mem_singleton.1 ho]
      exact ⟨p, off, hplaced, Nat.lt_succ_self p, fun _ => le_rfl⟩
  · refine pairwise_append.2 ⟨h.apart, pairwise_singleton _ _, fun o ho o' ho' => ?_⟩
    rw [mem_singleton.1 ho']
    obtain ⟨q, off', hat, hlt, hbound⟩ := h.placed o ho
    by_cases hq : q = p
    · subst hq
      obtain hp | ⟨hp, hle⟩ := hpages
      · omega
      · exact hat.apart_of_le hplaced ((hbound hp.symm).trans hle)
    · exact hat.apart_of_page_ne hplaced hq

/-- A run that neither reaches the null identifier nor wraps the counter. -/
lemma Allocated.allocateAll {k : ObjectKind} {m : PageManager} (sizes : List ℕ) {s : Storage}
    {objects : List StoredObject} (h : Allocated k m s objects)
    (hsizes : ∀ objSize ∈ sizes, k.size ≤ objSize ∧ objSize ≤ LargePageSize)
    (hnull : objects.length + sizes.length < 2 ^ k.bits)
    (hcounter : objects.length + sizes.length ≤ 2 ^ 32) : ∃ s' added, allocateAll k m sizes s =
    some (s', added) ∧ added.map (·.size) = sizes ∧
      Allocated k m s' (objects ++ added) := by
  induction sizes generalizing s objects with
  | nil => exact ⟨s, [], rfl, rfl, by rwa [append_nil]⟩
  | cons objSize sizes ih =>
    rw [length_cons] at hnull hcounter
    obtain ⟨s', o, hone, hsize, h'⟩ := h.allocateExt (hsizes objSize mem_cons_self)
      (by simp only [nullSID]; omega) (by omega)
    have hlen : (objects ++ [o]).length = objects.length + 1 := by simp
    obtain ⟨s'', added, hall, hmap, h''⟩ := ih h' (fun n hn => hsizes n (mem_cons_of_mem _ hn))
      (by omega) (by omega)
    refine ⟨s'', o :: added, ?_, by rw [map_cons, hsize, hmap], by simpa using h''⟩
    simp only [Storage.allocateAll, hone, hall, bind_eq_bind, bind_some]

lemma place_objSID (k : ObjectKind) (m : PageManager) (s : Storage) (objSize : ℕ) :
    (s.place k m objSize).1.objSID = s.objSID := by
  cases hpage : s.page with
  | none => simp only [Storage.place, hpage]
  | some page =>
    simp only [Storage.place, hpage]
    exact apply_ite (fun place : Storage × ℕ => place.1.objSID) _ _ _ |>.trans (ite_self _)

lemma id_of_allocateExt {k : ObjectKind} {m : PageManager} {s s' : Storage} {objSize : ℕ}
    {o : StoredObject} (h : s.allocateExt k m objSize = some (s', o)) :
    o.id = k.makeFID s.objSID ∧ s'.objSID = (s.objSID + 1) % 2 ^ 32 := by
  have hplace := place_objSID k m s objSize
  simp only [Storage.allocateExt, bind_eq_bind] at h
  split at h
  · obtain ⟨s₁, hset, heq⟩ := bind_eq_some_iff.1 h
    obtain ⟨rfl, rfl⟩ := Prod.mk.inj (some.inj heq)
    simp only [setLocation] at hset
    split at hset
    · obtain rfl := some.inj hset
      simp only [hplace, and_self]
    · cases hset
  · cases h

/-- The identifiers of a run follow the counter, with its wraps. -/
lemma ids_of_allocateAll {k : ObjectKind} {m : PageManager} (sizes : List ℕ) {s s' : Storage}
    {objects : List StoredObject} (h : allocateAll k m sizes s = some (s', objects))
    (hsid : s.objSID < 2 ^ 32) : objects.map (·.id) =
    (range sizes.length).map (fun i => k.makeFID ((s.objSID + i) % 2 ^ 32)) := by
  induction sizes generalizing s objects with
  | nil =>
    obtain ⟨-, rfl⟩ := Prod.mk.inj (some.inj h)
    rfl
  | cons objSize sizes ih =>
    simp only [Storage.allocateAll, bind_eq_bind, bind_eq_some_iff] at h
    obtain ⟨⟨s₁, o⟩, hone, ⟨s₂, rest⟩, hall, heq⟩ := h
    obtain ⟨rfl, rfl⟩ := Prod.mk.inj (some.inj heq)
    obtain ⟨hid, hsid₁⟩ := id_of_allocateExt hone
    rw [map_cons, ih hall (by change s₁.objSID < 2 ^ 32; omega), hid, length_cons,
      range_succ_eq_map, map_cons, map_map, Nat.add_zero, Nat.mod_eq_of_lt hsid]
    refine congrArg _ (map_congr_left fun i _ => ?_)
    simp only [Function.comp, hsid₁, Nat.mod_add_mod]
    congr 2
    omega

lemma allocateAll_append {k : ObjectKind} {m : PageManager} (sizes sizes' : List ℕ)
    {s s₁ s₂ : Storage} {objects objects' : List StoredObject}
    (h : allocateAll k m sizes s = some (s₁, objects))
    (h' : allocateAll k m sizes' s₁ = some (s₂, objects')) : allocateAll k m (sizes ++ sizes') s =
    some (s₂, objects ++ objects') := by
  induction sizes generalizing s objects with
  | nil =>
    obtain ⟨rfl, rfl⟩ := Prod.mk.inj (some.inj h)
    exact h'
  | cons objSize sizes ih =>
    simp only [Storage.allocateAll, bind_eq_bind, bind_eq_some_iff] at h
    obtain ⟨⟨s', o⟩, hone, ⟨s'', rest⟩, hall, heq⟩ := h
    obtain ⟨rfl, rfl⟩ := Prod.mk.inj (some.inj heq)
    simp only [cons_append, Storage.allocateAll, hone, ih hall, bind_eq_bind,
      bind_some]

/-! ### Aliases -/

/-- The run succeeds; the identifiers differ and are not null; after every prefix of the run each
identifier leads to its own object; the objects are disjoint, aligned in their pages and inside
them. -/
structure NeverAliases (k : ObjectKind) (m : PageManager) (sizes : List ℕ)
    (objects : List StoredObject) : Prop where
  map_size : objects.map (·.size) = sizes
  nodup : (objects.map (·.id)).Nodup
  nonnull : ∀ o ∈ objects, o.id ≠ 0
  access : ∀ n ≤ sizes.length, ∃ s, allocateAll k m (sizes.take n) {} = some (s, objects.take n) ∧
    ∀ o ∈ objects.take n, s.access k o.id = some o.location
  placed : ∀ o ∈ objects, ∃ p off, Placed k m p off o
  apart : objects.Pairwise Apart

/-- A run without aliases exhausts neither the identifiers nor the counter. -/
lemma NeverAliases.length_lt {k : ObjectKind} {m : PageManager} {sizes : List ℕ}
    {objects : List StoredObject} (h : NeverAliases k m sizes objects) : sizes.length < 2 ^ k.bits ∧
    sizes.length ≤ 2 ^ 32 := by
  obtain ⟨s, hrun, -⟩ := h.access sizes.length le_rfl
  have hlen : objects.length = sizes.length := by rw [← h.map_size, length_map]
  rw [take_length, ← hlen, take_length] at hrun
  have hids := ids_of_allocateAll sizes hrun (by norm_num : (0 : ℕ) < 2 ^ 32)
  simp only [Nat.zero_add] at hids
  have hcounter : sizes.length ≤ 2 ^ 32 := by
    by_contra hlt
    -- the counter begins again
    have hnodup := h.nodup
    rw [hids] at hnodup
    have := inj_on_of_nodup_map hnodup (mem_range.2 (by omega : 0 < sizes.length))
      (mem_range.2 (by omega : 2 ^ 32 < sizes.length)) (by norm_num)
    omega
  refine ⟨?_, hcounter⟩
  by_contra hge
  -- the last identifier is the null identifier
  have hpos := Nat.two_pow_pos k.bits
  have hmem : k.makeFID ((2 ^ k.bits - 1) % 2 ^ 32) ∈ objects.map (·.id) := by
    rw [hids]
    exact mem_map.2 ⟨_, mem_range.2 (by omega), rfl⟩
  obtain ⟨o, ho, hid⟩ := mem_map.1 hmem
  refine h.nonnull o ho ?_
  rw [hid, Nat.mod_eq_of_lt (by omega)]
  exact k.makeFID_nullSID

lemma exists_neverAliases (k : ObjectKind) (m : PageManager) {sizes : List ℕ}
    (hsizes : ∀ objSize ∈ sizes, k.size ≤ objSize ∧ objSize ≤ LargePageSize)
    (hnull : sizes.length < 2 ^ k.bits) (hcounter : sizes.length ≤ 2 ^ 32) :
    ∃ objects, NeverAliases k m sizes objects := by
  obtain ⟨s, objects, hrun, hmap, h⟩ := (Allocated.empty k m).allocateAll sizes hsizes
    (by simpa using hnull) (by simpa using hcounter)
  rw [nil_append] at h
  have hlen : objects.length = sizes.length := by rw [← hmap, length_map]
  have hvalid : ∀ i ∈ range objects.length, i < k.nullSID := by
    intro i hi
    have := mem_range.1 hi
    simp only [nullSID]
    omega
  refine ⟨objects, hmap, ?_, ?_, ?_, ?_, h.apart⟩
  · rw [h.ids]
    refine List.Nodup.map_on (fun i hi j hj heq => ?_) nodup_range
    have := congrArg k.makeSID heq
    rwa [k.makeSID_makeFID (hvalid i hi), k.makeSID_makeFID (hvalid j hj)] at this
  · intro o ho
    have hmem : o.id ∈ objects.map (·.id) := mem_map_of_mem ho
    rw [h.ids, mem_map] at hmem
    obtain ⟨i, hi, hid⟩ := hmem
    exact hid ▸ k.makeFID_ne_zero (hvalid i hi)
  · intro n hn
    obtain ⟨s₁, first, hfirst, hmap₁, h₁⟩ := (Allocated.empty k m).allocateAll (sizes.take n)
      (fun x hx => hsizes x (mem_of_mem_take hx)) (by simp; omega) (by simp; omega)
    rw [nil_append] at h₁
    have hlen₁ : first.length = n := by
      have := congrArg length hmap₁
      rwa [length_map, length_take, Nat.min_eq_left hn] at this
    obtain ⟨s₂, rest, hrest, -, -⟩ := h₁.allocateAll (sizes.drop n)
      (fun x hx => hsizes x (mem_of_mem_drop hx)) (by simp; omega) (by simp; omega)
    have happ := allocateAll_append _ _ hfirst hrest
    rw [take_append_drop, hrun] at happ
    obtain ⟨-, heq⟩ := Prod.mk.inj (some.inj happ)
    have htake : objects.take n = first := by
      rw [heq, ← hlen₁, take_left]
    exact ⟨s₁, htake ▸ hfirst, htake ▸ h₁.access⟩
  · intro o ho
    obtain ⟨p, off, hat, -⟩ := h.placed o ho
    exact ⟨p, off, hat⟩

/-- Objects never alias exactly as long as neither the identifiers nor the 32-bit counter are
exhausted. -/
theorem neverAliases_iff (k : ObjectKind) (m : PageManager) (sizes : List ℕ)
    (hsizes : ∀ objSize ∈ sizes, k.size ≤ objSize ∧ objSize ≤ LargePageSize) :
    (∃ objects, NeverAliases k m sizes objects) ↔ sizes.length < 2 ^ k.bits ∧
    sizes.length ≤ 2 ^ 32 := by
  constructor
  · rintro ⟨objects, h⟩
    exact h.length_lt
  · rintro ⟨hnull, hcounter⟩
    exact exists_neverAliases k m hsizes hnull hcounter

def consecutivePages : PageManager where
  address n := (n + 1) * LargePageSize
  aligned _ := Nat.dvd_mul_left _ _
  fresh i j h := by
    have := Nat.eq_of_mul_eq_mul_right (by decide : 0 < LargePageSize) h
    omega

theorem neverAliases_cells : ∃ objects, NeverAliases .cell consecutivePages [32, 64, 32] objects :=
  (neverAliases_iff .cell consecutivePages [32, 64, 32] (by decide)).2 (by decide)

lemma cells_alias_of_lt {n : ℕ} (hn : 2 ^ 32 < n) (m : PageManager) :
    ¬ ∃ objects, NeverAliases .cell m (replicate n 32) objects := by
  rintro ⟨objects, h⟩
  have := h.length_lt.2
  rw [length_replicate] at this
  omega

lemma cell_sizes (n : ℕ) : ∀ objSize ∈ replicate n 32,
    ObjectKind.cell.size ≤ objSize ∧ objSize ≤ LargePageSize := by
  intro objSize h
  rw [eq_of_mem_replicate h]
  decide

/-- The identifiers of the cells have 40 bits, but the counter has 32. -/
theorem cells_alias : (replicate (2 ^ 32 + 1) 32).length < 2 ^ ObjectKind.cell.bits ∧
    (∀ objSize ∈ replicate (2 ^ 32 + 1) 32, ObjectKind.cell.size ≤ objSize ∧
      objSize ≤ LargePageSize) ∧
    ¬ ∃ objects, NeverAliases .cell consecutivePages (replicate (2 ^ 32 + 1) 32) objects := by
  refine ⟨?_, cell_sizes _, cells_alias_of_lt (by decide) consecutivePages⟩
  rw [length_replicate]
  decide

end Storage

end UtopiaEda
