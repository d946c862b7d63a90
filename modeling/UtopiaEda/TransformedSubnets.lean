import UtopiaEda.NpnEquivalence
import UtopiaEda.NpnTransformation
import UtopiaEda.SubnetRenumbering

/-!
# The functions of transformed subnets

A mask and a permutation stand for a transformation of functions, and the inverse ones for its
inverse. The copy that `npnTransform` makes has the transformed function if no cell of the subnet
uses the inputs that are dropped.
-/
namespace UtopiaEda

open List
open Option (bind_eq_bind bind_eq_some_iff bind_some)

variable {n m : ℕ} {t : NpnTransformation} {τ : Npn.Transformation (Fin n)} {S T : Subnet}

namespace Npn.Transformation

/-- What a mask of 16 bits holds of the negations; the bit of the value is the one behind the
arguments. -/
def held (τ : Transformation (Fin n)) : Transformation (Fin n) :=
  ⟨τ.perm, fun i => decide ((i : ℕ) < 16) && τ.neg i, decide (n < 16) && τ.out⟩

theorem held_of_lt (hn : n < 16) : τ.held = τ := by
  have hneg : (fun i : Fin n => decide ((i : ℕ) < 16) && τ.neg i) = τ.neg := by
    funext i
    rw [decide_eq_true (Nat.lt_trans i.isLt hn), Bool.true_and]
  rw [held, hneg, decide_eq_true hn, Bool.true_and]

end Npn.Transformation

structure NpnTransformation.Represents (t : NpnTransformation) (τ : Npn.Transformation (Fin n)) :
    Prop where
  permutation : t.permutation = List.ofFn (fun j => (τ.perm j : ℕ))
  neg : ∀ i : Fin n, t.negationMask.getLsbD i = τ.neg i
  out : t.negationMask.getLsbD n = τ.out

namespace NpnTransformation

theorem Represents.length (h : t.Represents τ) : t.permutation.length = n := by
  rw [h.permutation, length_ofFn]

theorem Represents.getElem (h : t.Represents τ) (j : Fin n) :
    t.permutation[(j : ℕ)]? = some (τ.perm j : ℕ) := by
  rw [h.permutation, List.getElem?_ofFn, dif_pos j.isLt]

structure Inverted (τ : Npn.Transformation (Fin n)) (k : ℕ) (r : NpnTransformation) : Prop where
  length : r.permutation.length = n
  permutation : ∀ i : Fin n, i < k → r.permutation[(τ.perm i : ℕ)]? = some (i : ℕ)
  neg : ∀ i : Fin n, r.negationMask.getLsbD i = (decide (i < k) && τ.neg (τ.perm i))
  out : r.negationMask.getLsbD n = false

theorem Inverted.step {k : ℕ} {r : NpnTransformation} (h : t.Represents τ) (hr : Inverted τ k r)
    (hn : n ≤ 32) (hk : k < n) : ∃ r', t.inverseStep r k = some r' ∧ Inverted τ (k + 1) r' := by
  have hget := h.getElem ⟨k, hk⟩
  have hlt : (τ.perm ⟨k, hk⟩ : ℕ) < r.permutation.length := by
    rw [hr.length]
    exact (τ.perm ⟨k, hk⟩).isLt
  have hmask : ∀ b, (if t.negationMask.getLsbD (τ.perm ⟨k, hk⟩) then
      r.negationMask ||| .twoPow 32 k else r.negationMask).getLsbD b =
      (r.negationMask.getLsbD b || (decide (k = b) && τ.neg (τ.perm ⟨k, hk⟩))) := by
    intro b
    rw [h.neg]
    cases τ.neg (τ.perm ⟨k, hk⟩) with
    | false =>
      rw [if_neg Bool.false_ne_true, Bool.and_false, Bool.or_false]
    | true =>
      rw [if_pos rfl, BitVec.getLsbD_or, BitVec.getLsbD_twoPow,
        decide_eq_true (Nat.lt_of_lt_of_le hk hn), Bool.true_and, Bool.and_true]
  refine ⟨⟨if t.negationMask.getLsbD (τ.perm ⟨k, hk⟩) then r.negationMask ||| .twoPow 32 k else
    r.negationMask, r.permutation.set (τ.perm ⟨k, hk⟩) (k % 256)⟩, ?_, ?_, fun i hi => ?_,
    fun i => ?_, ?_⟩
  · simp only [inverseStep, hget, bind_eq_bind, bind_some, if_pos hlt]
  · rw [length_set]
    exact hr.length
  · rw [Nat.mod_eq_of_lt (Nat.lt_of_lt_of_le hk (Nat.le_trans hn (by decide)))]
    rcases Nat.lt_succ_iff_lt_or_eq.mp hi with hi | rfl
    · have hne : (τ.perm ⟨k, hk⟩ : ℕ) ≠ (τ.perm i : ℕ) := by
        intro heq
        have hik := congrArg Fin.val (τ.perm.injective (Fin.ext heq))
        exact absurd hik.symm (Nat.ne_of_lt hi)
      rw [getElem?_set_ne hne]
      exact hr.permutation i hi
    · exact getElem?_set_self hlt
  · rw [hmask, hr.neg]
    by_cases hik : k = i
    · subst hik
      simp
    · have hiff : (i : ℕ) < k + 1 ↔ (i : ℕ) < k := by omega
      rw [decide_eq_false hik, Bool.false_and, Bool.or_false, decide_eq_decide.mpr hiff]
  · rw [hmask, hr.out, decide_eq_false (Nat.ne_of_lt hk)]
    rfl

theorem Represents.inverse (h : t.Represents τ) (hn : n < 32) :
    ∃ r, t.inverse = some r ∧ r.Represents τ.symm := by
  have hloop : ∀ k ≤ n, ∃ r, (range k).foldlM t.inverseStep ⟨0#32, .replicate n 0⟩ = some r ∧
      Inverted τ k r := by
    intro k
    induction k with
    | zero =>
      intro _
      refine ⟨_, rfl, length_replicate, fun i hi => absurd hi (Nat.not_lt_zero _), fun i => ?_, ?_⟩
      · exact BitVec.getLsbD_zero
      · exact BitVec.getLsbD_zero
    | succ k ih =>
      intro hk
      obtain ⟨r, hr, hinv⟩ := ih (Nat.le_of_succ_le hk)
      obtain ⟨r', hr', hinv'⟩ := hinv.step h (Nat.le_of_lt hn) hk
      refine ⟨r', ?_, hinv'⟩
      rw [range_succ, foldlM_append, hr]
      simp only [foldlM_cons, foldlM_nil, bind_eq_bind, bind_some, hr', Option.pure_def]
  obtain ⟨r, hr, hinv⟩ := hloop n (Nat.le_refl n)
  have hmask : ∀ b, (r.negationMask ||| (t.negationMask &&& .twoPow 32 n)).getLsbD b =
      (r.negationMask.getLsbD b || (t.negationMask.getLsbD b && decide (n = b))) := by
    intro b
    rw [BitVec.getLsbD_or, BitVec.getLsbD_and, BitVec.getLsbD_twoPow, decide_eq_true hn,
      Bool.true_and]
  refine ⟨⟨r.negationMask ||| (t.negationMask &&& .twoPow 32 n), r.permutation⟩, ?_, ?_,
    fun i => ?_, ?_⟩
  · simp only [NpnTransformation.inverse, h.length, hr, bind_eq_bind, bind_some]
  · apply ext_getElem?
    intro j
    rw [List.getElem?_ofFn]
    by_cases hj : j < n
    · have hget := hinv.permutation (τ.perm.symm ⟨j, hj⟩) (Fin.isLt _)
      rw [Equiv.apply_symm_apply] at hget
      rw [dif_pos hj]
      exact hget
    · rw [dif_neg hj]
      exact getElem?_eq_none (Nat.le_trans (Nat.le_of_eq hinv.length) (Nat.not_lt.mp hj))
  · rw [hmask, hinv.neg, decide_eq_true i.isLt, decide_eq_false (Nat.ne_of_gt i.isLt),
      Bool.and_false, Bool.or_false, Bool.true_and]
    rfl
  · rw [hmask, hinv.out, h.out, decide_eq_true rfl, Bool.and_true, Bool.false_or]
    rfl

section Loop

variable {permutation r : List ℕ} {p : ℕ → ℕ} {j : ℕ} {c : SubnetCell}

private theorem permuteLoop_step (hperm : permutation[j]? = some (p j)) (hp : p j < r.length)
    (hc : S.getCell (p j) = some c) (hzero : m ≤ j → c.refcount = 0) (hm : m ≤ n) (hj : j < n) :
    permuteLoop S permutation (n - m) (j + 1) r ((min (j + 1) m + 255) % 256) (n - max (j + 1) m) =
      if j = 0 then some (r.set (p j) ((min (j + 1) m + 255) % 256), n - max j m)
      else permuteLoop S permutation (n - m) j (r.set (p j) ((min (j + 1) m + 255) % 256))
      ((min j m + 255) % 256)
        (n - max j m) := by
  rw [permuteLoop]
  simp only [hperm, hc, bind_eq_bind, bind_some, if_pos hp]
  rcases Nat.lt_or_ge j m with hlt | hge
  · have hkeep : c.refcount ≠ 0 ∨ n - max (j + 1) m = n - m := .inr (by rw [Nat.max_eq_right hlt])
    have hid : ((min (j + 1) m + 255) % 256 + 255) % 256 = (min j m + 255) % 256 := by
      rw [Nat.min_eq_left hlt, Nat.min_eq_left (Nat.le_of_lt hlt)]
      omega
    rw [if_pos hkeep, if_pos hkeep, hid, Nat.max_eq_right hlt, Nat.max_eq_right (Nat.le_of_lt hlt)]
  · have hkeep : ¬ (c.refcount ≠ 0 ∨ n - max (j + 1) m = n - m) := by
      rw [Nat.max_eq_left (Nat.le_succ_of_le hge)]
      rintro (hne | heq)
      · exact hne (hzero hge)
      · omega
    have hrem : n - max (j + 1) m + 1 = n - max j m := by
      rw [Nat.max_eq_left (Nat.le_succ_of_le hge), Nat.max_eq_left hge]
      omega
    rw [if_neg hkeep, if_neg hkeep, hrem, Nat.min_eq_right (Nat.le_succ_of_le hge),
      Nat.min_eq_right hge]

private theorem getElem_set (hp : p j < n) (hinj : ∀ i < n, p j = p i → j = i) (hm : m ≤ n)
    (hn : n ≤ 256) (hr : r.length = n) (hdone : ∀ i, j < i → i < m → r[p i]? = some i) {i : ℕ}
    (hji : j ≤ i) (hi : i < m) : (r.set (p j) ((min (j + 1) m + 255) % 256))[p i]? = some i := by
  rcases Nat.lt_or_eq_of_le hji with hlt | rfl
  · have hne : p j ≠ p i := fun heq => Nat.ne_of_lt hlt (hinj i (Nat.lt_of_lt_of_le hi hm) heq)
    rw [getElem?_set_ne hne]
    exact hdone i hlt hi
  · have hvalue : (min (j + 1) m + 255) % 256 = j := by
      rw [Nat.min_eq_left hi]
      omega
    rw [hvalue]
    exact getElem?_set_self (hr ▸ hp)

/-- The loop numbers the inputs that are kept by their positions. -/
theorem permuteLoop_eq (hperm : ∀ j < n, permutation[j]? = some (p j)) (hp : ∀ j < n, p j < n)
    (hinj : ∀ i < n, ∀ j < n, p i = p j → i = j)
    (hcell : ∀ j < n, ∃ c, S.getCell (p j) = some c ∧ (m ≤ j → c.refcount = 0)) (hm : m ≤ n)
    (hn : n ≤ 256) : ∀ {j : ℕ}, j < n → ∀ {r : List ℕ}, r.length = n →
    (∀ i, j < i → i < m → r[p i]? = some i) → ∃ r', permuteLoop S permutation (n - m)
    (j + 1) r ((min (j + 1) m + 255) % 256) (n - max (j + 1) m) = some (r', n - m) ∧
      r'.length = n ∧ ∀ i < m, r'[p i]? = some i := by
  intro j
  induction j with
  | zero =>
    intro hj r hr hdone
    obtain ⟨c, hc, hzero⟩ := hcell 0 hj
    rw [permuteLoop_step (hperm 0 hj) (hr ▸ hp 0 hj) hc hzero hm hj, if_pos rfl,
      Nat.max_eq_right (Nat.zero_le m)]
    exact ⟨_, rfl, by rw [length_set, hr],
      fun i hi => getElem_set (hp 0 hj) (hinj 0 hj) hm hn hr hdone (Nat.zero_le i) hi⟩
  | succ j ih =>
    intro hj r hr hdone
    obtain ⟨c, hc, hzero⟩ := hcell (j + 1) hj
    rw [permuteLoop_step (hperm _ hj) (hr ▸ hp _ hj) hc hzero hm hj, if_neg (Nat.succ_ne_zero j)]
    apply ih (Nat.lt_of_succ_lt hj)
    · rw [length_set, hr]
    · exact fun i hij hi => getElem_set (hp _ hj) (hinj _ hj) hm hn hr hdone hij hi

end Loop

section Entries

variable {r : List ℕ} {mask : BitVec 16} {u i : ℕ} {R : Renumbering} {c : SubnetCell}
  {s : SubnetBuilder}

structure Renumbers (S : Subnet) (r : List ℕ) (mask : BitVec 16) (R : Renumbering) : Prop where
  number : ∀ i < R.inputs, S.Reads i → r[i]? = some (R.number i)
  neg : ∀ i < R.inputs, mask.getLsbD i = R.neg i
  out : mask.getLsbD R.inputs = R.out

theorem transformLink_eq (h : Renumbers S r mask R) (hc : S.getCell i = some c) {l : Link}
    (hl : l ∈ c.links) (isOut : Bool) : transformLink r mask R.inputs R.dropped isOut l =
    some (R.link isOut l) := by
  rw [transformLink, Renumbering.link, Renumbering.target]
  by_cases hin : l.idx < R.inputs
  · rw [if_pos hin, if_pos hin, h.number _ hin ⟨_, c, hc, l, hl, rfl⟩, h.neg _ hin, h.out]
    rfl
  · rw [if_neg hin, if_neg hin, h.out]
    rfl

theorem transformEntry_input (r : List ℕ) (mask : BitVec 16) (s : SubnetBuilder) (h : S.Fits R)
    (hi : i < R.inputs) (hu : min R.inputs u = R.left) : ∃ e, S.entries[i]? = some e ∧
      transformEntry S r mask R.inputs R.dropped u s i = if i < R.left then s.addEntry e else
      some s := by
  obtain ⟨⟨type, links, refcount⟩, hc, ht, hl⟩ :=
    SubnetBuilder.input_of_lt h.wellFormed (h.inputs ▸ hi)
  change type = .IN at ht
  change links = [] at hl
  subst ht hl
  refine ⟨_, Subnet.entries_of_getCell hc, ?_⟩
  simp only [transformEntry, hc, bind_eq_bind, bind_some, SubnetCell.isIn, decide_true,
    Bool.not_true, Bool.false_eq_true, if_false, hi, true_and]
  by_cases hleft : i < R.left
  · rw [if_pos hleft, if_neg (show ¬ u ≤ i by omega)]
    rfl
  · rw [if_neg hleft, if_pos (show u ≤ i by omega)]

theorem transformEntry_inner (h : S.Fits R) (hnum : Renumbers S r mask R) (hi : R.inputs ≤ i)
    (hlt : i < S.size) : ∃ e, S.entries[i]? = some e ∧
      transformEntry S r mask R.inputs R.dropped u s i = s.addEntry (R.entry e) := by
  obtain ⟨c, hc, -⟩ := h.narrow i hlt
  have hlinks : c.links.mapM (transformLink r mask R.inputs R.dropped c.isOut) =
      some (c.links.map (R.link c.isOut)) :=
    Netlist.mapM_eq_some (fun l hl => transformLink_eq hnum hc hl c.isOut)
  refine ⟨_, Subnet.entries_of_getCell hc, ?_⟩
  simp only [transformEntry, hc, bind_eq_bind, bind_some, Nat.not_lt.mpr hi, false_and,
    if_false, hlinks]
  rfl

private theorem foldlM_skip {α β : Type} {f : β → α → Option β} :
    ∀ {l : List α} {s : β}, (∀ i ∈ l, f s i = some s) → l.foldlM f s = some s := by
  intro l
  induction l with
  | nil => exact fun _ => rfl
  | cons i l ih =>
    intro s h
    rw [foldlM_cons, h i mem_cons_self]
    exact ih (fun j hj => h j (mem_cons_of_mem i hj))

theorem foldlM_transformEntry (h : S.Fits R) (hnum : Renumbers S r mask R)
    (hu : min R.inputs u = R.left) :
    (range S.size).foldlM (transformEntry S r mask R.inputs R.dropped u) s =
      (S.renumber R).entries.foldlM SubnetBuilder.addEntry s := by
  have hleft := h.left
  have hsize : R.inputs ≤ S.size := Nat.le_trans (Nat.le_add_right _ _) h.size_le
  have htake : (S.entries.take R.left).length = R.left := by
    rw [length_take]
    exact Nat.min_eq_left (Nat.le_trans hleft hsize)
  have hdrop : ((S.entries.drop R.inputs).map R.entry).length = S.size - R.inputs := by
    rw [length_map, length_drop]
    rfl
  have hfirst : ∀ s, (range' 0 R.left).foldlM (transformEntry S r mask R.inputs R.dropped u)
      s = (S.entries.take R.left).foldlM SubnetBuilder.addEntry s := by
    intro s
    apply foldlM_range' htake
    intro s i hi
    obtain ⟨e, he, hstep⟩ := transformEntry_input r mask s h (Nat.lt_of_lt_of_le hi hleft) hu
    rw [if_pos hi] at hstep
    exact ⟨e, by rw [getElem?_take_of_lt hi, he], by rw [Nat.zero_add, hstep]⟩
  have hskip : ∀ s, (range' R.left R.dropped).foldlM
      (transformEntry S r mask R.inputs R.dropped u) s = some s := by
    intro s
    apply foldlM_skip
    intro i hi
    obtain ⟨hge, hlt⟩ := mem_range'_1.mp hi
    obtain ⟨e, -, hstep⟩ := transformEntry_input r mask s h (i := i)
      (by rwa [Renumbering.dropped, Nat.add_sub_cancel' hleft] at hlt) hu
    rwa [if_neg (Nat.not_lt.mpr hge)] at hstep
  have hlast : ∀ s, (range' R.inputs (S.size - R.inputs)).foldlM
      (transformEntry S r mask R.inputs R.dropped u) s =
      ((S.entries.drop R.inputs).map R.entry).foldlM SubnetBuilder.addEntry s := by
    intro s
    apply foldlM_range' hdrop
    intro s i hi
    obtain ⟨e, he, hstep⟩ := transformEntry_inner (u := u)
      (s := s) h hnum (Nat.le_add_right R.inputs i) (Nat.add_lt_of_lt_sub' hi)
    exact ⟨_, by rw [getElem?_map, getElem?_drop, he]; rfl, hstep⟩
  have hrange : range S.size =
      range' 0 R.left ++ range' R.left R.dropped ++
      range' R.inputs (S.size - R.inputs) := by
    have hinputs : R.left + R.dropped = R.inputs := Nat.add_sub_cancel' hleft
    have hsum : R.inputs + (S.size - R.inputs) = S.size := Nat.add_sub_cancel' hsize
    have hkept := range'_append_1 (s := 0) (m := R.left) (n := R.dropped)
    have hall := range'_append_1 (s := 0) (m := R.inputs) (n := S.size - R.inputs)
    rw [Nat.zero_add, hinputs] at hkept
    rw [Nat.zero_add, hsum] at hall
    rw [hkept, hall, range_eq_range']
  have hmiddle : ∀ o : Option SubnetBuilder,
      (o >>= (range' R.left R.dropped).foldlM (transformEntry S r mask R.inputs R.dropped u)) =
      o := by
    intro o
    cases o with
    | none => rfl
    | some s => exact hskip s
  rw [hrange, foldlM_append, foldlM_append, hmiddle, hfirst, Subnet.renumber, foldlM_append,
    funext hlast]

end Entries

end NpnTransformation

/-- The inputs get the numbers of the arguments; the first `m` are kept. -/
def Npn.Transformation.renumbering (τ : Npn.Transformation (Fin n)) (m : ℕ) : Renumbering where
  inputs := n
  left := m
  number i := if h : i < n then τ.perm.symm ⟨i, h⟩ else 0
  neg i := if h : i < n then τ.neg ⟨i, h⟩ else false
  out := τ.out

structure Subnet.TransformedAs (S T : Subnet) (τ : Npn.Transformation (Fin n)) (m : ℕ) : Prop where
  nIn : T.nIn = m
  nOut : T.nOut = S.nOut
  wellFormed : T.WellFormed
  replayable : T.Replayable
  reads : ∀ j : Fin n, j < m → T.Reads j → S.Reads (τ.perm j)
  unread : ∀ j : Fin n, j < m → ¬ S.Reads (τ.perm j) → ∃ c, T.getCell j = some c ∧ c.refcount = 0
  values : ∀ lib x, ∀ j < S.nOut, T.value lib x (T.getOutIdx j) 0 =
    (S.value lib ((τ.renumbering m).arguments x) (S.getOutIdx j) 0).map (xor τ.out)

/-- No cell of the subnet uses the inputs that are dropped. -/
def Subnet.Drops (S : Subnet) (τ : Npn.Transformation (Fin n)) (m : ℕ) : Prop :=
  ∀ j : Fin n, m ≤ j → ¬ S.Reads (τ.perm j) ∧ ∃ c, S.getCell (τ.perm j) = some c ∧ c.refcount = 0

namespace NpnTransformation

theorem number_perm (j : Fin n) : (τ.renumbering m).number (τ.perm j) = j := by
  change (if h : (τ.perm j : ℕ) < n then (τ.perm.symm ⟨τ.perm j, h⟩ : ℕ) else 0) = j
  rw [dif_pos (τ.perm j).isLt, Fin.eta, Equiv.symm_apply_apply]

theorem exists_perm (τ : Npn.Transformation (Fin n)) {i : ℕ} (hi : i < n) : ∃ j :
    Fin n, (τ.perm j : ℕ) = i :=
  ⟨τ.perm.symm ⟨i, hi⟩, by rw [Equiv.apply_symm_apply]⟩

theorem fits_renumbering (hS : S.WellFormed) (hn : S.Narrow) (hin : S.nIn = n) (hm : m ≤ n)
    (hdrops : S.Drops τ m) : S.Fits (τ.renumbering m) := by
  refine ⟨hS, hn, hin.symm, hm, fun i hi hreads => ?_, fun i hi j hj _ _ heq => ?_⟩
  · obtain ⟨j, rfl⟩ := exists_perm τ (hin ▸ hi)
    rw [number_perm]
    by_contra hle
    exact (hdrops j (Nat.not_lt.mp hle)).1 hreads
  · obtain ⟨a, rfl⟩ := exists_perm τ (hin ▸ hi)
    obtain ⟨b, rfl⟩ := exists_perm τ (hin ▸ hj)
    rw [number_perm, number_perm] at heq
    rw [Fin.ext heq]

/-- The subnet that is built from the cells of the renumbered one. -/
theorem transformedAs (hfits : S.Fits (τ.renumbering m))
    (h : (S.renumber (τ.renumbering m)).ReplayedAs T) : S.TransformedAs T τ m := by
  refine ⟨h.same.nIn, h.same.nOut, h.wellFormed, h.replayable, fun j hj hreads => ?_,
    fun j hj hnot => ?_, fun lib x j hj => ?_⟩
  · obtain ⟨i, hi, hiS, hnum⟩ := hfits.exists_reads hj (h.reads j hj hreads)
    obtain ⟨a, rfl⟩ := exists_perm τ (Nat.lt_of_lt_of_eq hi hfits.inputs.symm)
    rw [number_perm] at hnum
    rwa [← Fin.ext hnum]
  · apply h.unread j hj
    intro hreads
    obtain ⟨i, hi, hiS, hnum⟩ := hfits.exists_reads hj hreads
    obtain ⟨a, rfl⟩ := exists_perm τ (Nat.lt_of_lt_of_eq hi hfits.inputs.symm)
    rw [number_perm] at hnum
    exact hnot (Fin.ext hnum ▸ hiS)
  · rw [h.same.values lib x j hj]
    exact hfits.value_output hj

theorem exists_numbers (hS : S.WellFormed) (hin : S.nIn = n) (ht : t.Represents τ) (hpos : 0 < n)
    (hn : n < 256) (hm : m ≤ n) (hdrops : S.Drops τ m) : ∃ r, permuteLoop S t.permutation (n - m) n
    (.replicate n 0) ((n - (n - m) + 255) % 256) 0 = some (r, n - m) ∧
      Renumbers S r (t.negationMask.setWidth 16) (τ.held.renumbering m) := by
  obtain ⟨k, rfl⟩ := Nat.exists_eq_succ_of_ne_zero (Nat.ne_of_gt hpos)
  let p : ℕ → ℕ := fun j => if h : j < k + 1 then τ.perm ⟨j, h⟩ else 0
  have hp : ∀ j : Fin (k + 1), p j = τ.perm j := fun j => dif_pos j.isLt
  obtain ⟨r, hloop, hlen, hr⟩ := permuteLoop_eq (S := S) (m := m) (p := p) (n := k + 1)
    (fun j hj => by rw [ht.getElem ⟨j, hj⟩, ← hp]) (fun j hj => hp ⟨j, hj⟩ ▸ Fin.isLt _)
    (fun i hi j hj heq => by
      rw [hp ⟨i, hi⟩, hp ⟨j, hj⟩] at heq
      exact congrArg Fin.val (τ.perm.injective (Fin.ext heq)))
    (fun j hj => by
      obtain ⟨c, hc, -⟩ := SubnetBuilder.input_of_lt hS
        (Nat.lt_of_lt_of_eq (τ.perm ⟨j, hj⟩).isLt hin.symm)
      refine ⟨c, by rw [hp ⟨j, hj⟩, hc], fun hle => ?_⟩
      obtain ⟨c', hc', hzero⟩ := (hdrops ⟨j, hj⟩ hle).2
      rw [Option.some.inj (hc.symm.trans hc'), hzero])
    hm (Nat.le_of_lt hn) (Nat.lt_succ_self k) (r := .replicate (k + 1) 0) length_replicate
    (fun i hki hi => by omega)
  rw [Nat.min_eq_right hm, Nat.max_eq_left hm, Nat.sub_self] at hloop
  rw [Nat.sub_sub_self hm]
  refine ⟨r, hloop, fun i hi hreads => ?_, fun i hi => ?_, ?_⟩
  · obtain ⟨j, rfl⟩ := exists_perm τ hi
    have hj : (j : ℕ) < m := by
      by_contra hle
      exact (hdrops j (Nat.not_lt.mp hle)).1 hreads
    have hnum : (τ.held.renumbering m).number (τ.perm j) = j := number_perm j
    rw [hnum, ← hp]
    exact hr j hj
  · change _ = if h : i < k + 1 then τ.held.neg ⟨i, h⟩ else false
    have hi : i < k + 1 := hi
    rw [dif_pos hi, BitVec.getLsbD_setWidth, ht.neg ⟨i, hi⟩]
    rfl
  · change (t.negationMask.setWidth 16).getLsbD (k + 1) = τ.held.out
    rw [BitVec.getLsbD_setWidth, ht.out]
    rfl

/-- `npnTransform` copies the subnet with the negations that its mask holds. -/
theorem exists_npnTransform_held {u : ℕ} (hS : S.WellFormed) (hr : S.Replayable) (hin : S.nIn = n)
    (hout : 0 < S.nOut) (ht : t.Represents τ) (hpos : 0 < n) (hn : n < 256) (hu : min n u = m)
    (hdrops : S.Drops τ m) : ∃ T, npnTransform S t u = some T ∧ S.TransformedAs T τ.held m := by
  have hm : m ≤ n := hu ▸ Nat.min_le_left n u
  have hfits : S.Fits (τ.held.renumbering m) := fits_renumbering hS hr.narrow hin hm hdrops
  obtain ⟨r, hloop, hnum⟩ := exists_numbers hS hin ht hpos hn hm hdrops
  obtain ⟨s, T, hs, hT, hreplayed⟩ :=
    SubnetBuilder.exists_replay hfits.renumber_wellFormed hout (hfits.renumber_replayable hr)
  refine ⟨T, ?_, transformedAs hfits hreplayed⟩
  have hfold := foldlM_transformEntry (s := {}) hfits hnum hu
  have hsize : ¬ S.size < n := Nat.not_lt.mpr (hin ▸ Nat.le_trans (Nat.le_add_right _ _) hS.bounds)
  have hnotUsed : (if n ≤ u then 0 else (n - u) % 256) = n - m := by
    split
    · omega
    · omega
  rw [npnTransform]
  simp only [ht.length, if_neg hsize, hnotUsed, hloop, bind_eq_bind, bind_some]
  rw [if_neg (not_not.mpr rfl)]
  change ((range S.size).foldlM (transformEntry S r (t.negationMask.setWidth 16) n (n - m) u)
    {}).bind _ = _
  rw [show (range S.size).foldlM (transformEntry S r (t.negationMask.setWidth 16) n (n - m) u)
    {} = some s from hfold.trans hs]
  exact hT

theorem exists_npnTransform {u : ℕ} (hS : S.WellFormed) (hr : S.Replayable) (hin : S.nIn = n)
    (hout : 0 < S.nOut) (ht : t.Represents τ) (hpos : 0 < n) (hn : n < 16) (hu : min n u = m)
    (hdrops : S.Drops τ m) : ∃ T, npnTransform S t u = some T ∧ S.TransformedAs T τ m := by
  have hheld := exists_npnTransform_held hS hr hin hout ht hpos (Nat.lt_trans hn (by decide)) hu
    hdrops
  rwa [Npn.Transformation.held_of_lt hn] at hheld

theorem narrow_of_transformEntry {r : List ℕ} {mask : BitVec 16} {e d u i : ℕ}
    {s s' : SubnetBuilder} (hS : S.WellFormed) (h : transformEntry S r mask e d u s i = some s') :
    ∃ c, S.getCell i = some c ∧ c.arity ≤ InPlaceLinks := by
  obtain ⟨c, hc, h⟩ := bind_eq_some_iff.mp h
  refine ⟨c, hc, ?_⟩
  by_cases hin : c.type = .IN
  · rw [SubnetCell.arity, hS.noLinks i c hc hin]
    exact Nat.zero_le _
  · have hnot : ¬ (i < e) := by
      intro hlt
      rw [if_pos ⟨hlt, by simp [SubnetCell.isIn, hin]⟩] at h
      cases h
    rw [if_neg (fun hcon => hnot hcon.1), if_neg (fun hcon => hnot hcon.1)] at h
    obtain ⟨links, hlinks, h⟩ := bind_eq_some_iff.mp h
    by_contra hlt
    have hlong : InPlaceLinks < ({ c with links := links } : SubnetCell).arity := by
      rw [SubnetCell.arity, Netlist.length_of_mapM hlinks]
      exact Nat.not_le.mp hlt
    rw [SubnetBuilder.addEntry, if_pos hlong] at h
    cases h

/-- A subnet that is copied has inputs and no cells with further entries. -/
theorem narrow_of_npnTransform {u : ℕ} (hS : S.WellFormed) (h : npnTransform S t u = some T) :
    0 < t.permutation.length ∧ S.Narrow := by
  rw [npnTransform] at h
  by_cases hsize : S.size < t.permutation.length
  · rw [if_pos hsize] at h
    cases h
  · rw [if_neg hsize] at h
    obtain ⟨⟨r, removed⟩, hloop, h⟩ := bind_eq_some_iff.mp h
    by_cases hremoved : removed ≠ if t.permutation.length ≤ u then 0 else
      (t.permutation.length - u) % 256
    · simp only [if_pos hremoved] at h
      cases h
    · simp only [if_neg hremoved] at h
      obtain ⟨s, hs, -⟩ := bind_eq_some_iff.mp h
      constructor
      · by_contra hzero
        rw [Nat.eq_zero_of_not_pos hzero] at hloop
        cases hloop
      · intro i hi
        obtain ⟨a, b, hab⟩ := exists_of_foldlM hs i (mem_range.mpr hi)
        exact narrow_of_transformEntry hS hab

end NpnTransformation

end UtopiaEda
