import Mathlib.Data.Int.Notation
import UtopiaEda.LinkedLists

/-!
# Lists of blocks

The items of a list stand in blocks that form a ring. An erased item leaves a null item behind; a
block that loses its only item leaves the ring, unless it is the first one. Blocks are never given
back, so every SID is used once, and a released block can still be read.

The memory of a fresh block is not initialised. Reading behind the items of a block, a failed
assertion and a walk that goes round for ever give no result.
-/
namespace UtopiaEda

/-- `sizeof(T)`, as `ListBlock` asserts it. -/
inductive ItemSize
  | bytes8 | bytes16 | bytes32
deriving DecidableEq, Repr

def ItemSize.toNat : ItemSize → ℕ
  | .bytes8 => 8
  | .bytes16 => 16
  | .bytes32 => 32

/-- Null items are `none`; the flags `begin` and `end` are `first` and `final`. -/
structure ListBlock (α : Type) where
  /-- Number of items in the entire list (for the first block only). -/
  totalSize : ℕ
  capacity : ℕ
  /-- Number of items in the block. -/
  size : ℕ
  /-- Index of the last occupied item. -/
  last : ℤ
  nextSID : ℕ
  prevSID : ℕ
  first : Bool
  final : Bool
  items : List (Option α)

namespace ListBlock

def Size : ℕ := 64

def HeadSize : ℕ := 32

def LARGE_PAGE_SIZE : ℕ := 64 * 1024 * 1024

def MinCapacity (t : ItemSize) : ℕ := (Size - HeadSize) / t.toNat

def getSizeInBytes (t : ItemSize) (sizeInItems : ℕ) : ℕ :=
  if sizeInItems ≤ MinCapacity t then Size else Size + t.toNat * (sizeInItems - MinCapacity t)

def getSizeInItems (t : ItemSize) (sizeInBytes : ℕ) : ℕ :=
  if sizeInBytes ≤ HeadSize then 0 else (sizeInBytes - HeadSize) / t.toNat

/-- The last occupied item before `index`. -/
def lastOccupied {α : Type} (items : List (Option α)) : ℕ → Option ℕ
  | 0 => none
  | i + 1 => if items[i]?.join.isSome then some i else lastOccupied items i

/-- The index of the first item that is not null; the list is what the block has from `index` on. -/
def skipNullItems {α : Type} : List (Option α) → ℕ → Option ℕ
  | [], _ => none
  | none :: items, index => skipNullItems items (index + 1)
  | some _ :: _, index => some index

end ListBlock

/-- The blocks of all lists, and what a block has in its memory before something is written
there. -/
structure BlockStorage (α : Type) where
  blocks : ℕ → Option (ListBlock α)
  objSID : ℕ
  memory : ℕ → ℕ → Option α

namespace BlockStorage

variable {α : Type}

def modify (s : BlockStorage α) (sid : ℕ) (f : ListBlock α → ListBlock α) : BlockStorage α :=
  { s with blocks := Function.update s.blocks sid ((s.blocks sid).map f) }

/-- `ListBlock<T>::allocate`. -/
def allocate (s : BlockStorage α) (t : ItemSize) (capacity : ℕ) (first final : Bool) :
    BlockStorage α × ℕ :=
  let sizeInBytes := min (ListBlock.getSizeInBytes t capacity) ListBlock.LARGE_PAGE_SIZE
  let sizeInItems := ListBlock.getSizeInItems t sizeInBytes
  ({ s with
      blocks := Function.update s.blocks s.objSID (some
        { totalSize := 0, capacity := sizeInItems, size := 0, last := -1, nextSID := 0,
          prevSID := 0,
          first := first, final := final,
          items := (List.range sizeInItems).map (s.memory s.objSID) })
      objSID := s.objSID + 1 }, s.objSID)

end BlockStorage

structure ListIterator where
  blockID : Option ℕ
  index : ℕ
deriving DecidableEq, Repr

structure BlockList (α : Type) where
  storage : BlockStorage α
  listID : ℕ

namespace BlockList
open ListBlock

variable {α : Type}

def create (storage : BlockStorage α) (t : ItemSize) (capacity : UInt32) : BlockList α :=
  let (storage, listID) := storage.allocate t capacity.toNat true true
  ⟨storage.modify listID (fun b => { b with prevSID := listID, nextSID := listID }), listID⟩

def blocks (s : BlockList α) : ℕ → Option (ListBlock α) := s.storage.blocks

def modify (s : BlockList α) (sid : ℕ) (f : ListBlock α → ListBlock α) : BlockList α :=
  { s with storage := s.storage.modify sid f }

def size (s : BlockList α) : Option ℕ := (s.blocks s.listID).map ListBlock.totalSize

def moveNextBlock (block : ListBlock α) : Option ℕ :=
  if block.final then none else some block.nextSID

def skipEmptyBlocks (s : BlockList α) : ℕ → Option ℕ → Option ListIterator
  | _, none => some ⟨none, 0⟩
  | 0, some _ => none
  | n + 1, some sid => do
    let block ← s.blocks sid
    if block.size = 0 then s.skipEmptyBlocks n (moveNextBlock block)
    else some ⟨some sid, ← skipNullItems block.items 0⟩

def iterator (s : BlockList α) (blockID : Option ℕ) : Option ListIterator :=
  s.skipEmptyBlocks (s.storage.objSID + 1) blockID

/-- `begin()`. -/
def front (s : BlockList α) : Option ListIterator := s.iterator (some s.listID)

/-- `end()`. -/
def back : ListIterator := ⟨none, 0⟩

/-- `operator++`. -/
def next (s : BlockList α) (pos : ListIterator) : Option ListIterator := do
  let block ← s.blocks (← pos.blockID)
  if block.size = 0 ∨ (pos.index : ℤ) = block.last then
    match moveNextBlock block with
    | none => some back
    | some sid => some ⟨some sid, ← skipNullItems (← s.blocks sid).items 0⟩
  else some ⟨pos.blockID, ← skipNullItems (block.items.drop (pos.index + 1)) (pos.index + 1)⟩

/-- `operator*`. -/
def deref (s : BlockList α) (pos : ListIterator) : Option α := do
  let block ← s.blocks (← pos.blockID)
  block.items[pos.index]?.join

/-- A loop from `pos` to `end()`, with the iterators it meets and the elements they point to. -/
def walk (s : BlockList α) : ℕ → ListIterator → Option (List (ListIterator × α))
  | 0, _ => none
  | n + 1, pos => if pos = back then some [] else do
    let value ← s.deref pos
    let rest ← s.walk n (← s.next pos)
    some ((pos, value) :: rest)

/-- The block that takes the next element: the last one, or a new one behind it. -/
def openBlock (s : BlockList α) (t : ItemSize) : Option (BlockList α × ℕ) := do
  let head ← s.blocks s.listID
  let tail ← s.blocks head.prevSID
  if !tail.final then none
  else if tail.last + 1 = tail.capacity then
    let (storage, nextSID) := s.storage.allocate t tail.capacity false true
    let s := (({ s with storage := storage } : BlockList α).modify nextSID
      (fun b => { b with nextSID := tail.nextSID, prevSID := head.prevSID })).modify s.listID
      (fun b => { b with prevSID := nextSID })
    some (s.modify head.prevSID (fun b => { b with nextSID := nextSID, final := false }), nextSID)
  else some (s, head.prevSID)

/-- The iterator to the new element stands beside the list; the source has no use for it. -/
def push_back (s : BlockList α) (t : ItemSize) (value : α) :
    Option (BlockList α × ListIterator) := do
  let (s, sid) ← s.openBlock t
  let tail ← s.blocks sid
  let index := (tail.last + 1).toNat
  if tail.items.length ≤ index then none
  else
    let s := s.modify sid
      (fun b => { b with items := b.items.set index (some value), last := b.last + 1, size := b.size + 1 })
    some (s.modify s.listID (fun b => { b with totalSize := b.totalSize + 1 }), ⟨some sid, index⟩)

def erase (s : BlockList α) (pos : ListIterator) : Option (BlockList α × ListIterator) := do
  let sid ← pos.blockID
  let _ ← s.deref pos
  let s := s.modify sid (fun b => { b with items := b.items.set pos.index none, size := b.size - 1 })
  let s := s.modify s.listID (fun b => { b with totalSize := b.totalSize - 1 })
  let block ← s.blocks sid
  if block.size = 0 ∧ !block.first then
    let s := s.modify block.prevSID (fun b => { b with nextSID := block.nextSID })
    let s := s.modify block.nextSID (fun b => { b with prevSID := block.prevSID })
    let s := s.modify block.prevSID (fun b => { b with final := block.final })
    -- the block is released here, and read once more
    some (s, ← s.iterator (some block.nextSID))
  else
    let last := (lastOccupied block.items pos.index).elim block.last Nat.cast
    let s := s.modify sid (fun b => { b with last := last })
    some (s, ← s.next pos)

end BlockList

end UtopiaEda
