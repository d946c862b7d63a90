import UtopiaEda.CellTraversal
import UtopiaEda.StrashKeys
import Mathlib.Algebra.GroupWithZero.Nat

/-!
# Marks and attachments

`desc` keeps, beside the position of an entry, what the passes attach to its cell: the session
in which it was marked, a data pointer, a weight and simulation bits. When `desc` outgrows its
capacity, the descriptors are copied (the move constructor may throw), and a copy takes over
the weight only.
-/
namespace UtopiaEda

open List
open Function (update update_self update_of_ne)
open Option (bind_eq_some_iff some.inj)

/-- The attachments of an entry; `simN` is the number of the simulation bits. -/
structure EntryDescriptor (Weight Data : Type) [Zero Weight] where
  weight : Weight := 0
  data : Option Data := none
  session : ℕ := 0
  simNext : Place := .invalidID
  simBits : Option (List (BitVec 64)) := none

variable {Weight Data : Type} [Zero Weight]

namespace EntryDescriptor

def copy (other : EntryDescriptor Weight Data) : EntryDescriptor Weight Data :=
  { weight := other.weight }

/-- The part of `allocEntry` that clears the descriptor of the new cell. -/
def restart (d : EntryDescriptor Weight Data) : EntryDescriptor Weight Data :=
  { d with session := 0
           simNext := if d.simBits.isSome then .invalidID else d.simNext
           simBits := none }

end EntryDescriptor

/-- A builder with the attachments of its entries; `capacity` is `desc.capacity()`. -/
structure Session (Weight Data : Type) [Zero Weight] where
  builder : SubnetBuilder := {}
  desc : EntryID → EntryDescriptor Weight Data := fun _ => {}
  capacity : ℕ := 1024
  sessionID : ℕ := 0

namespace Session

/-- Writes to `desc[i]`. -/
def modify (s : Session Weight Data) (i : EntryID)
    (f : EntryDescriptor Weight Data → EntryDescriptor Weight Data) :
    Option (Session Weight Data) :=
  if s.builder.size ≤ i then none else some { s with desc := update s.desc i (f (s.desc i)) }

def mark (s : Session Weight Data) (i : EntryID) : Option (Session Weight Data) :=
  s.modify i (fun d => { d with session := s.sessionID })

def isMarked (s : Session Weight Data) (i : EntryID) : Bool := (s.desc i).session = s.sessionID

def setDataPtr (s : Session Weight Data) (i : EntryID) (data : Option Data) :
    Option (Session Weight Data) :=
  s.modify i (fun d => { d with data := data })

def setWeight (s : Session Weight Data) (i : EntryID) (weight : Weight) :
    Option (Session Weight Data) :=
  s.modify i (fun d => { d with weight := weight })

def hasSim (s : Session Weight Data) : Place → Bool
  | .entry i => i < s.builder.size && (s.desc i).simBits.isSome
  | _ => false

def setNextWithSim (s : Session Weight Data) (i : EntryID) (next : Place) :
    Option (Session Weight Data) :=
  if s.hasSim (.entry i) ∧ (next = .invalidID ∨ s.hasSim next) then
    s.modify i (fun d => { d with simNext := next })
  else none

def setSim (lib : CellLibrary) (s : Session Weight Data) (i : EntryID) (outI : ℕ)
    (signature : BitVec 64) : Option (Session Weight Data) :=
  let bits := (s.desc i).simBits.getD (replicate ((s.builder.getTypeID i).getOutNum lib) 0#64)
  if bits.length ≤ outI then none
  else s.modify i (fun d => { d with simBits := some (bits.set outI signature) })

/-- `desc.resize(n + 1)` for `n` entries. The new capacity is chosen by the library. -/
def resize (newCapacity : ℕ → ℕ) (s : Session Weight Data) (n : ℕ) : Session Weight Data :=
  let s := if n < s.capacity then s else
    { s with desc := fun i => (s.desc i).copy
             capacity := max (n + 1) (newCapacity s.capacity) }
  { s with desc := update s.desc n {} }

def isHashed (b : SubnetBuilder) (t : CellTypeID) (links : List Link) : Bool :=
  StrashKey.isEnabled t links && (b.strash (StrashKey.make t links)).isSome

def addCell (newCapacity : ℕ → ℕ) (s : Session Weight Data) (t : CellTypeID) (links : List Link) :
    Option (Session Weight Data) := do
  let (b, link) ← s.builder.addCell t links
  if isHashed s.builder t links then some { s with builder := b }
  else
    let (s, n) := if s.builder.emptyEntryIDs = [] then
      (s.resize newCapacity s.builder.size, s.builder.size + 1) else (s, s.builder.size)
    let s := { s with desc := update s.desc link.idx (s.desc link.idx).restart }
    let s := (range' n (b.size - n)).foldl (resize newCapacity) s
    some { s with builder := b }

end Session

inductive Action (Weight Data : Type) where
  | mark (i : EntryID)
  | setDataPtr (i : EntryID) (data : Option Data)
  | setWeight (i : EntryID) (weight : Weight)
  | setNextWithSim (i : EntryID) (next : Place)
  | setSim (i : EntryID) (outI : ℕ) (signature : BitVec 64)
  | addCell (t : CellTypeID) (links : List Link)

def Session.apply (newCapacity : ℕ → ℕ) (lib : CellLibrary) (s : Session Weight Data) :
    Action Weight Data → Option (Session Weight Data)
  | .mark i => s.mark i
  | .setDataPtr i data => s.setDataPtr i data
  | .setWeight i weight => s.setWeight i weight
  | .setNextWithSim i next => s.setNextWithSim i next
  | .setSim i outI signature => s.setSim lib i outI signature
  | .addCell t links => s.addCell newCapacity t links

def Session.run (newCapacity : ℕ → ℕ) (lib : CellLibrary) :
    List (Action Weight Data) → Session Weight Data → Option (Session Weight Data)
  | [], s => some s
  | a :: actions, s => do run newCapacity lib actions (← s.apply newCapacity lib a)

inductive Slot where
  | session (i : EntryID)
  | data (i : EntryID)
  | weight (i : EntryID)
  | simNext (i : EntryID)
  | sim (i : EntryID) (outI : ℕ)
  deriving DecidableEq

namespace Slot

def entry : Slot → EntryID
  | session i | data i | weight i | simNext i | sim i _ => i

def isWeight : Slot → Bool
  | weight _ => true
  | _ => false

def Value (Weight Data : Type) : Slot → Type
  | session _ => ℕ
  | data _ => Option Data
  | weight _ => Weight
  | simNext _ => Place
  | sim _ _ => BitVec 64

/-- `getSessionID`, `getDataPtr`, `getWeight`, `getNextWithSim` and `getSim`. -/
def get : (slot : Slot) → EntryDescriptor Weight Data → slot.Value Weight Data
  | session _, d => d.session
  | data _, d => d.data
  | weight _, d => d.weight
  | simNext _, d => d.simNext
  | sim _ outI, d => match d.simBits with
    | none => 0#64
    | some bits => bits.getD outI 0#64

def initial (Weight Data : Type) [Zero Weight] (slot : Slot) : slot.Value Weight Data := slot.get {}

end Slot

def Session.read (s : Session Weight Data) (slot : Slot) : slot.Value Weight Data :=
  slot.get (s.desc slot.entry)

theorem Session.isMarked_iff {s : Session Weight Data} {i : EntryID} :
    s.isMarked i = true ↔ s.read (.session i) = s.sessionID := decide_eq_true_iff

def Action.written (sessionID : ℕ) :
    Action Weight Data → (slot : Slot) → Option (slot.Value Weight Data)
  | .mark i, .session j => if i = j then some sessionID else none
  | .setDataPtr i data, .data j => if i = j then some data else none
  | .setWeight i weight, .weight j => if i = j then some weight else none
  | .setNextWithSim i next, .simNext j => if i = j then some next else none
  | .setSim i outI signature, .sim j outJ => if i = j ∧ outI = outJ then some signature else none
  | _, _ => none

namespace SubnetBuilder

variable {b b' : SubnetBuilder} {t : CellTypeID} {links : List Link} {l : Link} {i idx : EntryID}

private theorem size_of_fillEntry (h : b.fillEntry idx t links = some b') :
    b.size ≤ b'.size ∧ b'.emptyEntryIDs = b.emptyEntryIDs := by
  obtain ⟨b₁, h₁, h⟩ := bind_eq_some_iff.mp h
  obtain ⟨o, ho, h⟩ := bind_eq_some_iff.mp h
  obtain ⟨hsize, hfree, -⟩ := same_of_addNewLinks h₁
  have hos : o.size = b.size := (EntryOrder.addDepthBounds_size ho).trans hsize
  split at h
  · cases h
    exact ⟨Nat.le_of_eq hos.symm, hfree⟩
  · obtain ⟨n, -, h⟩ := bind_eq_some_iff.mp h
    obtain ⟨b₂, h₂, h⟩ := bind_eq_some_iff.mp h
    obtain ⟨o', ho', h⟩ := bind_eq_some_iff.mp h
    cases h
    have hext := Extended.addLinkEntries h₂
    refine ⟨?_, hext.free.trans hfree⟩
    calc b.size = o.size := hos.symm
      _ ≤ b₂.size := hext.le
      _ = o'.size := (EntryOrder.setOrder_size ho').symm

theorem entry_of_addCell (h : b.addCell t links = some (b', l)) :
    (Session.isHashed b t links = true ∧ b'.size = b.size ∧ b'.emptyEntryIDs = b.emptyEntryIDs) ∨
    (Session.isHashed b t links = false ∧ b.emptyEntryIDs = [] ∧ l.idx = b.size ∧
      b.size + 1 ≤ b'.size ∧ b'.emptyEntryIDs = []) ∨
    (Session.isHashed b t links = false ∧ b.emptyEntryIDs = l.idx :: b'.emptyEntryIDs ∧
      b.size ≤ b'.size) := by
  unfold addCell at h
  split at h
  · cases h
  · obtain ⟨⟨b₁, idx⟩, hb₁, h⟩ := bind_eq_some_iff.mp h
    cases h
    unfold allocEntry strashEntry at hb₁
    have halloc : ∀ {b₀ b₂ : SubnetBuilder}, b₀.size = b.size → b₀.emptyEntryIDs = b.emptyEntryIDs →
        idx = (b₀.allocID (t = .BUF)).2 → (b₀.allocID (t = .BUF)).1.size ≤ b₂.size →
        b₂.emptyEntryIDs = (b₀.allocID (t = .BUF)).1.emptyEntryIDs →
        (b.emptyEntryIDs = [] ∧ idx = b.size ∧ b.size + 1 ≤ b₂.size ∧ b₂.emptyEntryIDs = []) ∨
          (b.emptyEntryIDs = idx :: b₂.emptyEntryIDs ∧ b.size ≤ b₂.size) := by
      intro b₀ b₂ hsize hfree hidx hle hfree'
      unfold allocID at hidx hle hfree'
      cases he : b₀.emptyEntryIDs with
      | nil =>
        simp only [he] at hidx hle hfree'
        exact .inl ⟨hfree ▸ he, hidx.trans hsize, hsize ▸ hle, hfree'⟩
      | cons a rest =>
        simp only [he] at hidx hle hfree'
        exact .inr ⟨by rw [← hfree, he, hidx, hfree'], hsize ▸ hle⟩
    by_cases hen : StrashKey.isEnabled t links = true
    · simp only [if_pos hen] at hb₁
      cases hk : b.strash (StrashKey.make t links) with
      | some i =>
        simp only [hk] at hb₁
        cases hb₁
        exact .inl ⟨by rw [Session.isHashed, hen, hk]; rfl, rfl, rfl⟩
      | none =>
        simp only [hk] at hb₁
        obtain ⟨b₂, hb₂, heq⟩ := Option.map_eq_some_iff.mp hb₁
        cases heq
        obtain ⟨hle, hfree⟩ := size_of_fillEntry hb₂
        have hhash : Session.isHashed b t links = false := by
          rw [Session.isHashed, hk, Option.isSome_none, Bool.and_false]
        exact .inr ((@halloc b.withEnds b₁ rfl rfl rfl hle hfree).imp (fun h => ⟨hhash, h⟩)
          (fun h => ⟨hhash, h⟩))
    · simp only [if_neg hen] at hb₁
      obtain ⟨b₂, hb₂, heq⟩ := Option.map_eq_some_iff.mp hb₁
      cases heq
      obtain ⟨hle, hfree⟩ := size_of_fillEntry hb₂
      have hhash : Session.isHashed b t links = false := by
        rw [Session.isHashed, Bool.eq_false_of_not_eq_true hen, Bool.false_and]
      exact .inr ((@halloc b.withEnds b₁ rfl rfl rfl hle hfree).imp (fun h => ⟨hhash, h⟩)
        (fun h => ⟨hhash, h⟩))

end SubnetBuilder

namespace Session

variable {newCapacity : ℕ → ℕ} {lib : CellLibrary} {s s₁ s' : Session Weight Data} {slot : Slot}
  {i : EntryID} {a : Action Weight Data} {actions : List (Action Weight Data)}

theorem get_copy (d : EntryDescriptor Weight Data) :
    slot.get d.copy = if slot.isWeight then slot.get d else slot.initial Weight Data := by
  cases slot <;> rfl

/-- The descriptor of an old entry after the entries `n`, ..., `n + k - 1` were added. -/
theorem foldl_resize (newCapacity : ℕ → ℕ) (k : ℕ) {n : ℕ} (hi : i < n) (s : Session Weight Data) :
    let s' := (range' n k).foldl (resize newCapacity) s
    s'.builder = s.builder ∧ s'.sessionID = s.sessionID ∧
      if n + k ≤ max s.capacity n then s'.desc i = s.desc i ∧ s'.capacity = s.capacity
      else s'.desc i = (s.desc i).copy ∧ n + k ≤ s'.capacity := by
  induction k generalizing n s with
  | zero => exact ⟨rfl, rfl, by simp⟩
  | succ k ih =>
    have hresize : (s.resize newCapacity n).desc i = (if n < s.capacity then s else
        { s with desc := fun i => (s.desc i).copy
                 capacity := max (n + 1) (newCapacity s.capacity) }).desc i :=
      update_of_ne (Nat.ne_of_lt hi) _ _
    obtain ⟨hb, hid, hrest⟩ := @ih (n + 1) (Nat.lt_succ_of_lt hi) (s.resize newCapacity n)
    rw [range'_succ, foldl_cons]
    by_cases hlt : n < s.capacity
    · rw [if_pos hlt] at hresize
      have hcap : (s.resize newCapacity n).capacity = s.capacity := by
        simp only [resize, if_pos hlt]
      refine ⟨hb.trans (by simp only [resize, if_pos hlt]),
        hid.trans (by simp only [resize, if_pos hlt]), ?_⟩
      rw [hresize, hcap] at hrest
      have hiff : n + 1 + k ≤ max s.capacity (n + 1) ↔ n + (k + 1) ≤ max s.capacity n := by omega
      simp only [hiff] at hrest
      rwa [Nat.add_right_comm n 1 k] at hrest
    · rw [if_neg hlt] at hresize
      have hcap : n + 1 ≤ (s.resize newCapacity n).capacity := by
        simp only [resize, if_neg hlt]
        exact Nat.le_max_left _ _
      refine ⟨hb.trans (by simp only [resize, if_neg hlt]),
        hid.trans (by simp only [resize, if_neg hlt]), ?_⟩
      rw [hresize] at hrest
      rw [if_neg (by omega)]
      split at hrest
      · obtain ⟨hd, hc⟩ := hrest
        refine ⟨hd, ?_⟩
        omega
      · obtain ⟨hd, hc⟩ := hrest
        exact ⟨hd, by omega⟩

structure Kept (s s' : Session Weight Data) (slot : Slot) : Prop where
  id : s'.sessionID = s.sessionID
  size : s.builder.size ≤ s'.builder.size
  free : slot.entry ∉ s'.builder.emptyEntryIDs
  value : if slot.isWeight ∨ s'.builder.size ≤ max s.capacity s.builder.size then
    s'.read slot = s.read slot else s'.read slot = slot.initial Weight Data
  capacity : if s'.builder.size ≤ max s.capacity s.builder.size then s'.capacity = s.capacity
    else s'.builder.size ≤ s'.capacity

private theorem Kept.of_desc (hid : s'.sessionID = s.sessionID)
    (hsize : s.builder.size ≤ s'.builder.size) (hfree : slot.entry ∉ s'.builder.emptyEntryIDs)
    (h : if s'.builder.size ≤ max s.capacity s.builder.size then
        s'.desc slot.entry = s.desc slot.entry ∧ s'.capacity = s.capacity
      else s'.desc slot.entry = (s.desc slot.entry).copy ∧ s'.builder.size ≤ s'.capacity) :
        Kept s s' slot := by
  by_cases hle : s'.builder.size ≤ max s.capacity s.builder.size
  · rw [if_pos hle] at h
    refine ⟨hid, hsize, hfree, ?_, by rw [if_pos hle, h.2]⟩
    rw [if_pos (.inr hle), read, read, h.1]
  · rw [if_neg hle] at h
    refine ⟨hid, hsize, hfree, ?_, by rw [if_neg hle]; exact h.2⟩
    rw [read, read, h.1, get_copy]
    by_cases hw : slot.isWeight = true
    · rw [if_pos hw, if_pos (.inl hw)]
    · rw [if_neg hw, if_neg (fun h => h.elim hw hle)]

theorem Kept.addCell {t : CellTypeID} {links : List Link} (hi : slot.entry < s.builder.size)
    (hfree : slot.entry ∉ s.builder.emptyEntryIDs) (h : s.addCell newCapacity t links = some s') :
    Kept s s' slot := by
  obtain ⟨⟨b, l⟩, hb, h⟩ := bind_eq_some_iff.mp h
  rcases SubnetBuilder.entry_of_addCell hb with
    ⟨hh, hsize, hempty⟩ | ⟨hh, hempty, hidx, hle, hempty'⟩ | ⟨hh, hempty, hle⟩
  · simp only [hh, if_true] at h
    cases h
    refine Kept.of_desc rfl (Nat.le_of_eq hsize.symm) (hempty ▸ hfree) ?_
    rw [if_pos (hsize ▸ Nat.le_max_right _ _)]
    exact ⟨rfl, rfl⟩
  · simp only [hh, hempty, if_true, Bool.false_eq_true, if_false] at h
    obtain ⟨-, hid₁, h₁⟩ := foldl_resize newCapacity 1 hi s
    let s₁ := s.resize newCapacity s.builder.size
    let s₂ : Session Weight Data := { s₁ with desc := update s₁.desc l.idx (s₁.desc l.idx).restart }
    have hne : slot.entry ≠ l.idx := hidx ▸ Nat.ne_of_lt hi
    have hd₂ : s₂.desc slot.entry = s₁.desc slot.entry := update_of_ne hne _ _
    obtain ⟨-, hid₂, h₂⟩ := foldl_resize newCapacity (b.size - (s.builder.size + 1))
      (Nat.lt_succ_of_lt hi) s₂
    cases h
    refine Kept.of_desc (hid₂.trans hid₁) (Nat.le_of_succ_le hle) (by simp [hempty']) ?_
    rw [Nat.add_sub_of_le hle, hd₂] at h₂
    change if b.size ≤ max s.capacity s.builder.size then _ else _
    change if s.builder.size + 1 ≤ max s.capacity s.builder.size then s₁.desc slot.entry = _ ∧
      s₁.capacity = _ else s₁.desc slot.entry = _ ∧ s.builder.size + 1 ≤ s₁.capacity at h₁
    change if b.size ≤ max s₁.capacity (s.builder.size + 1) then _ ∧ _ = s₁.capacity else _ at h₂
    by_cases hfit : b.size ≤ max s.capacity s.builder.size
    · have hfit₁ : s.builder.size + 1 ≤ max s.capacity s.builder.size := Nat.le_trans hle hfit
      rw [if_pos hfit₁] at h₁
      have hfit₂ : b.size ≤ max s₁.capacity (s.builder.size + 1) := by
        rw [h₁.2]
        exact Nat.le_trans hfit (max_le_max_left _ (Nat.le_succ _))
      rw [if_pos hfit₂] at h₂
      rw [if_pos hfit]
      exact ⟨h₂.1.trans h₁.1, h₂.2.trans h₁.2⟩
    · rw [if_neg hfit]
      split at h₁
      · rename_i hfit₁
        rw [h₁.2, if_neg (by omega), h₁.1] at h₂
        exact h₂
      · split at h₂
        · rename_i hfit₂
          rw [max_eq_left h₁.2] at hfit₂
          exact ⟨h₂.1.trans h₁.1, hfit₂.trans_eq h₂.2.symm⟩
        · refine ⟨?_, h₂.2⟩
          rw [h₂.1, h₁.1]
          rfl
  · have hne : s.builder.emptyEntryIDs ≠ [] := by simp [hempty]
    simp only [hh, hne, Bool.false_eq_true, if_false] at h
    let s₂ : Session Weight Data := { s with desc := update s.desc l.idx (s.desc l.idx).restart }
    have hidx : slot.entry ≠ l.idx := by
      rintro heq
      rw [hempty, heq] at hfree
      exact hfree mem_cons_self
    have hd₂ : s₂.desc slot.entry = s.desc slot.entry := update_of_ne hidx _ _
    obtain ⟨-, hid₂, h₂⟩ := foldl_resize newCapacity (b.size - s.builder.size) hi s₂
    cases h
    rw [Nat.add_sub_of_le hle, hd₂] at h₂
    refine Kept.of_desc hid₂ hle (fun hmem => ?_) h₂
    rw [hempty] at hfree
    exact hfree (mem_cons_of_mem _ hmem)

theorem Kept.refl (hfree : slot.entry ∉ s.builder.emptyEntryIDs) : Kept s s slot := by
  refine ⟨rfl, Nat.le_refl _, hfree, ?_, ?_⟩
  · rw [if_pos (.inr (Nat.le_max_right _ _))]
  · rw [if_pos (Nat.le_max_right _ _)]

theorem Kept.trans (h : Kept s s₁ slot) (h' : Kept s₁ s' slot) : Kept s s' slot := by
  have hsize := h.size
  have hsize' := h'.size
  have hcap := h.capacity
  have hcap' := h'.capacity
  have hv := h.value
  have hv' := h'.value
  refine ⟨h'.id.trans h.id, Nat.le_trans hsize hsize', h'.free, ?_, ?_⟩
  · by_cases hw : slot.isWeight = true
    · rw [if_pos (.inl hw)] at hv hv' ⊢
      exact hv'.trans hv
    · simp only [hw, Bool.false_eq_true, false_or] at hv hv' ⊢
      by_cases hfit : s'.builder.size ≤ max s.capacity s.builder.size
      · have hfit₁ : s₁.builder.size ≤ max s.capacity s.builder.size := Nat.le_trans hsize' hfit
        rw [if_pos hfit₁] at hcap hv
        have hfit' : s'.builder.size ≤ max s₁.capacity s₁.builder.size := by omega
        rw [if_pos hfit'] at hv'
        rw [if_pos hfit]
        exact hv'.trans hv
      · rw [if_neg hfit]
        split at hv'
        · -- the storage was moved before
          have hmoved : ¬ s₁.builder.size ≤ max s.capacity s.builder.size := by
            intro hle
            rw [if_pos hle] at hcap
            omega
          rw [if_neg hmoved] at hv
          exact hv'.trans hv
        · exact hv'
  · split at hcap <;> split at hcap' <;> split <;> omega

private theorem Kept.modify {f : EntryDescriptor Weight Data → EntryDescriptor Weight Data}
    (hfree : slot.entry ∉ s.builder.emptyEntryIDs) (h : s.modify i f = some s')
    (hget : i = slot.entry → slot.get (f (s.desc slot.entry)) = slot.get (s.desc slot.entry)) :
    Kept s s' slot := by
  rw [Session.modify] at h
  split at h
  · cases h
  · cases h
    refine ⟨rfl, Nat.le_refl _, hfree, ?_, ?_⟩
    · rw [if_pos (.inr (Nat.le_max_right _ _))]
      change slot.get (update s.desc i (f (s.desc i)) slot.entry) = slot.get (s.desc slot.entry)
      by_cases hi : i = slot.entry
      · subst hi
        rw [update_self, hget rfl]
      · rw [update_of_ne (Ne.symm hi)]
    · rw [if_pos (Nat.le_max_right _ _)]

private theorem getD_set {bits : List (BitVec 64)} {k m : ℕ} {x : BitVec 64} (h : k ≠ m) :
    (bits.set k x).getD m 0#64 = bits.getD m 0#64 := by
  rw [getD_eq_getElem?_getD, getElem?_set_ne h, getD_eq_getElem?_getD]

theorem Kept.apply (hi : slot.entry < s.builder.size) (hfree : slot.entry ∉ s.builder.emptyEntryIDs)
    (hw : a.written s.sessionID slot = none) (h : s.apply newCapacity lib a = some s') :
    Kept s s' slot := by
  cases a with
  | mark i =>
    rw [Session.apply, mark] at h
    refine Kept.modify hfree h (fun heq => ?_)
    cases slot <;> first | rfl | cases (if_pos heq).symm.trans hw
  | setDataPtr i data =>
    rw [Session.apply, setDataPtr] at h
    refine Kept.modify hfree h (fun heq => ?_)
    cases slot <;> first | rfl | cases (if_pos heq).symm.trans hw
  | setWeight i weight =>
    rw [Session.apply, setWeight] at h
    refine Kept.modify hfree h (fun heq => ?_)
    cases slot <;> first | rfl | cases (if_pos heq).symm.trans hw
  | setNextWithSim i next =>
    rw [Session.apply, setNextWithSim] at h
    split at h
    · refine Kept.modify hfree h (fun heq => ?_)
      cases slot <;> first | rfl | cases (if_pos heq).symm.trans hw
    · cases h
  | setSim i outI signature =>
    simp only [Session.apply, setSim] at h
    split at h
    · cases h
    · refine Kept.modify hfree h (fun heq => ?_)
      cases slot with
      | sim j outJ =>
        obtain rfl : i = j := heq
        have hne : outI ≠ outJ := by
          intro hout
          cases (if_pos ⟨rfl, hout⟩).symm.trans hw
        change (((s.desc i).simBits.getD _).set outI signature).getD outJ 0#64 =
          match (s.desc i).simBits with
          | none => 0#64
          | some bits => bits.getD outJ 0#64
        rw [getD_set hne]
        cases (s.desc i).simBits with
        | none =>
          rw [Option.getD_none, getD_eq_getElem?_getD, getElem?_replicate]
          split <;> rfl
        | some bits => rfl
      | _ => rfl
  | addCell t links => exact Kept.addCell hi hfree h

theorem Kept.run (hi : slot.entry < s.builder.size) (hfree : slot.entry ∉ s.builder.emptyEntryIDs)
    (hw : ∀ a ∈ actions, a.written s.sessionID slot = none)
    (h : run newCapacity lib actions s = some s') : Kept s s' slot := by
  induction actions generalizing s with
  | nil =>
    cases h
    exact Kept.refl hfree
  | cons a actions ih =>
    obtain ⟨s₁, h₁, h⟩ := bind_eq_some_iff.mp h
    have hstep := Kept.apply hi hfree (hw a mem_cons_self) h₁
    exact hstep.trans (ih (Nat.lt_of_lt_of_le hi hstep.size) hstep.free
      (fun b hb => hstep.id ▸ hw b (mem_cons_of_mem _ hb)) h)

private theorem of_modify {f : EntryDescriptor Weight Data → EntryDescriptor Weight Data}
    (h : s.modify i f = some s') : i < s.builder.size ∧
    s' = { s with desc := update s.desc i (f (s.desc i)) } := by
  rw [Session.modify] at h
  split at h
  · cases h
  · rename_i hi
    exact ⟨Nat.not_le.mp hi, (some.inj h).symm⟩

private theorem of_ite {β : Type} {P : Prop} [Decidable P] {x y : β}
    (h : (if P then some x else none) = some y) :
    P ∧ x = y := Option.ite_none_right_eq_some.mp h |>.imp_right some.inj

theorem read_apply {v : slot.Value Weight Data} (hv : a.written s.sessionID slot = some v)
    (h : s.apply newCapacity lib a = some s') :
    s'.read slot = v ∧ slot.entry < s.builder.size ∧ s'.builder = s.builder ∧
    s'.capacity = s.capacity ∧
      s'.sessionID = s.sessionID := by
  have hself : ∀ (i : EntryID) (d : EntryDescriptor Weight Data), update s.desc i d i = d :=
    fun i d => update_self _ _ _
  cases a with
  | mark i =>
    rw [Session.apply, mark] at h
    obtain ⟨hi, rfl⟩ := of_modify h
    cases slot with
    | session j =>
      obtain ⟨rfl, rfl⟩ := of_ite hv
      exact ⟨congrArg EntryDescriptor.session (hself _ _), hi, rfl, rfl, rfl⟩
    | _ => cases hv
  | setDataPtr i data =>
    rw [Session.apply, setDataPtr] at h
    obtain ⟨hi, rfl⟩ := of_modify h
    cases slot with
    | data j =>
      obtain ⟨rfl, rfl⟩ := of_ite hv
      exact ⟨congrArg EntryDescriptor.data (hself _ _), hi, rfl, rfl, rfl⟩
    | _ => cases hv
  | setWeight i weight =>
    rw [Session.apply, setWeight] at h
    obtain ⟨hi, rfl⟩ := of_modify h
    cases slot with
    | weight j =>
      obtain ⟨rfl, rfl⟩ := of_ite hv
      exact ⟨congrArg EntryDescriptor.weight (hself _ _), hi, rfl, rfl, rfl⟩
    | _ => cases hv
  | setNextWithSim i next =>
    rw [Session.apply, setNextWithSim] at h
    split at h
    · obtain ⟨hi, rfl⟩ := of_modify h
      cases slot with
      | simNext j =>
        obtain ⟨rfl, rfl⟩ := of_ite hv
        exact ⟨congrArg EntryDescriptor.simNext (hself _ _), hi, rfl, rfl, rfl⟩
      | _ => cases hv
    · cases h
  | setSim i outI signature =>
    simp only [Session.apply, setSim] at h
    split at h
    · cases h
    · rename_i hlt
      obtain ⟨hi, rfl⟩ := of_modify h
      cases slot with
      | sim j outJ =>
        obtain ⟨⟨rfl, rfl⟩, rfl⟩ := of_ite hv
        refine ⟨?_, hi, rfl, rfl, rfl⟩
        change Slot.get (.sim i outI) (update s.desc i _ i) = signature
        rw [hself]
        change (set _ outI signature).getD outI 0#64 = signature
        rw [getD_eq_getElem?_getD, getElem?_set_self (Nat.not_le.mp hlt), Option.getD_some]
      | _ => cases hv
  | addCell t links => cases slot <;> cases hv

/-- The last value written to a slot of a cell is read, unless it differs from the value in a new
descriptor, is no weight and `desc` has outgrown its capacity. -/
theorem read_iff {v : slot.Value Weight Data} (hfree : slot.entry ∉ s.builder.emptyEntryIDs)
    (hv : a.written s.sessionID slot = some v) (ha : s.apply newCapacity lib a = some s₁)
    (hw : ∀ b ∈ actions, b.written s.sessionID slot = none)
    (hrun : run newCapacity lib actions s₁ = some s') : s'.read slot = v ↔ slot.isWeight = true ∨
    v = slot.initial Weight Data ∨
      s'.builder.size ≤ max s.capacity s.builder.size := by
  obtain ⟨hread, hi, hb, hcap, hid⟩ := read_apply hv ha
  have hkept := Kept.run (hb ▸ hi) (hb ▸ hfree) (hid ▸ hw) hrun
  have hvalue := hkept.value
  rw [hb, hcap, hread] at hvalue
  split at hvalue
  · rename_i hfit
    exact ⟨fun _ => hfit.imp id .inr, fun _ => hvalue⟩
  · rename_i hfit
    rw [hvalue]
    constructor
    · exact fun heq => .inr (.inl heq.symm)
    · rintro (hweight | heq | hle)
      · exact absurd (.inl hweight) hfit
      · exact heq.symm
      · exact absurd (.inr hle) hfit

private theorem exists_run_addInput (newCapacity : ℕ → ℕ) (lib : CellLibrary) (n : ℕ)
    {ins : List EntryID} (h : SubnetBuilder.Grown s.builder ins [] []) :
    ∃ s', run newCapacity lib (replicate n (.addCell .IN [])) s = some s' ∧
      s'.builder.size = s.builder.size + n := by
  induction n generalizing s ins with
  | zero => exact ⟨s, rfl, rfl⟩
  | succ n ih =>
    obtain ⟨b, hb, hgrown, happ⟩ := h.addInput
    have hadd : ∃ s₁, s.addCell newCapacity .IN [] = some s₁ ∧ s₁.builder = b := by
      rw [SubnetBuilder.addInput] at hb
      simp only [Session.addCell, hb, Option.bind_eq_bind, Option.bind_some]
      split
      · exact ⟨_, rfl, rfl⟩
      · exact ⟨_, rfl, rfl⟩
    obtain ⟨s₁, hs₁, rfl⟩ := hadd
    obtain ⟨s', hs', hsize⟩ := ih hgrown
    refine ⟨s', ?_, ?_⟩
    · rw [replicate_succ, Session.run, Session.apply, hs₁]
      exact hs'
    · rw [hsize, happ.size, SubnetBuilder.Gate.width_of_le (Nat.zero_le _)]
      omega

private theorem exists_marked (n : ℕ) : ∃ s s₁ s' : Session ℕ ℕ,
    (s.sessionID = 1 ∧ s.capacity = 1024 ∧ s.builder.size = 1 ∧ s.builder.emptyEntryIDs = []) ∧
    s.apply (2 * ·) .empty (.mark 0) = some s₁ ∧
    run (2 * ·) .empty (replicate n (.addCell .IN [])) s₁ = some s' ∧ s'.builder.size =
    1 + n := by
  obtain ⟨b, -, hgrown, happ⟩ := SubnetBuilder.Grown.init.addInput
  have hsize : b.size = 1 := by
    rw [happ.size, SubnetBuilder.Gate.width_of_le (Nat.zero_le _)]
    rfl
  obtain ⟨s₁, hs₁, hb⟩ : ∃ s₁, Session.apply (2 * ·) .empty
    ({ builder := b, sessionID := 1 } : Session ℕ ℕ) (.mark 0) =
      some s₁ ∧ s₁.builder = b := by
    refine ⟨_, if_neg ?_, rfl⟩
    rw [hsize]
    decide
  obtain ⟨s', hs', hsize'⟩ := exists_run_addInput (2 * ·) .empty n (hb ▸ hgrown)
  exact ⟨_, s₁, s', ⟨rfl, rfl, hsize, hgrown.kept⟩, hs₁, hs', by rw [hsize', hb, hsize]⟩

private theorem written_replicate (n : ℕ) : ∀ b ∈ replicate n (.addCell .IN [] : Action ℕ ℕ),
    b.written 1 (.session 0) = none := by
  intro b hb
  rw [eq_of_mem_replicate hb]
  rfl

/-- The mark of an input after one more input. -/
theorem read_iff_mark : ∃ s s₁ s' : Session ℕ ℕ, s.apply (2 * ·) .empty (.mark 0) = some s₁ ∧
    run (2 * ·) .empty [.addCell .IN []] s₁ = some s' ∧ (s'.read (.session 0) = (1 : ℕ) ↔
      Slot.isWeight (.session 0) = true ∨ (1 : ℕ) = Slot.initial ℕ ℕ (.session 0) ∨
        s'.builder.size ≤ max s.capacity s.builder.size) := by
  obtain ⟨s, s₁, s', ⟨hid, -, -, hfree⟩, hs₁, hs', -⟩ := exists_marked 1
  exact ⟨s, s₁, s', hs₁, hs', read_iff (by simp [hfree])
    (hid ▸ rfl) hs₁ (hid ▸ written_replicate 1) hs'⟩

/-- The mark of an input after 1024 more inputs. -/
theorem not_read_eq : ¬ ∀ (newCapacity : ℕ → ℕ) (lib : CellLibrary) (s s₁ s' : Session ℕ ℕ)
    (slot : Slot) (v : slot.Value ℕ ℕ) (a : Action ℕ ℕ) (actions : List (Action ℕ ℕ)),
    slot.entry ∉ s.builder.emptyEntryIDs → a.written s.sessionID slot = some v →
    s.apply newCapacity lib a = some s₁ → (∀ b ∈ actions, b.written s.sessionID slot = none) →
    run newCapacity lib actions s₁ = some s' → s'.read slot = v := by
  intro h
  obtain ⟨s, s₁, s', ⟨hid, hcap, hsize, hfree⟩, hs₁, hs', hsize'⟩ := exists_marked 1024
  have hv : (.mark 0 : Action ℕ ℕ).written s.sessionID (.session 0) = some (1 : ℕ) := hid ▸ rfl
  have hw : ∀ b ∈ replicate 1024 (.addCell .IN [] : Action ℕ ℕ),
    b.written s.sessionID (.session 0) = none := hid ▸ written_replicate 1024
  have hread := h _ _ s s₁ s' (.session 0) (1 : ℕ) (.mark 0) _ (by simp [hfree]) hv hs₁ hw hs'
  obtain ⟨-, hi, hb, hcap₁, hid₁⟩ := read_apply hv hs₁
  have hvalue := (Kept.run (hb ▸ hi) (by simp [hb, hfree]) (hid₁ ▸ hw) hs').value
  rw [hb, hcap₁, hsize', hcap, hsize, if_neg (by decide), hread] at hvalue
  cases hvalue

end Session

end UtopiaEda
