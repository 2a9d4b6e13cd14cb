import RtosKernel.Lib.Window
import RtosKernel.RtThread.Def

/-! # The small memory heap (`mem.c`)

The heap is one region cut into blocks, each with a header that holds the
offsets of the blocks before and behind it. Pointers into the region are offsets
from `heap_ptr`; the pointers handed to the caller are addresses, and 0 is
`RT_NULL`. The low bit of `pool_ptr` says that a block is used. -/
namespace RtosKernel.RtThread.SmallMem
open Lib.Word Lib.Window RtThread.Def

/-- What the build fixes: the alignment, and `RT_USING_MEMTRACE`, which adds a
thread name to the header. -/
structure Board extends Align where
  memtrace : Bool
  sizeofSmallMem : Nat

def Board.sizeofStructMem (c : Board) : Nat :=
  rtAlign (if c.memtrace then 16 else 12) c.alignSize

def minSize : Nat := 12

def Board.minSizeAligned (c : Board) : Nat := rtAlign minSize c.alignSize

structure RtSmallMemItem where
  poolPtr : Nat
  next : Nat
  prev : Nat

/-- `struct rt_small_mem`, with the headers in its region by offset and the bytes
of the memory by address. `self` is the address of the object. -/
structure RtSmallMem where
  self : Nat
  total : Nat
  used : Nat
  max : Nat
  heapPtr : Nat
  heapEnd : Nat
  lfree : Nat
  memSizeAligned : Nat
  item : Nat → RtSmallMemItem
  data : Nat → UInt8

def memMask : Nat := 0xfffffffe

def memUsed (m : RtSmallMem) : Nat := (m.self &&& memMask) ||| 1

def memFreed (m : RtSmallMem) : Nat := (m.self &&& memMask) ||| 0

def memIsused (it : RtSmallMemItem) : Bool := it.poolPtr &&& 1 ≠ 0

def memPool (it : RtSmallMemItem) : Nat := it.poolPtr &&& memMask

/-! ## Writing a header field -/

def setPoolPtr (item : Nat → RtSmallMemItem) (p v : Nat) : Nat → RtSmallMemItem :=
  Function.update item p { item p with poolPtr := v }

def setNext (item : Nat → RtSmallMemItem) (p v : Nat) : Nat → RtSmallMemItem :=
  Function.update item p { item p with next := v }

def setPrev (item : Nat → RtSmallMemItem) (p v : Nat) : Nat → RtSmallMemItem :=
  Function.update item p { item p with prev := v }

/-- The three writes that make the block at `right` part of the one at `left`. -/
def joinBlocks (m : RtSmallMem) (left right : Nat) : RtSmallMem :=
  let next := (m.item right).next
  { m with item := setPrev (setNext (setPoolPtr m.item right 0) left next) next left }

/-- "plug hole forward" of `plug_holes`. -/
def plugForward (m : RtSmallMem) (mem : Nat) : RtSmallMem :=
  let nmem := (m.item mem).next
  if mem ≠ nmem ∧ ¬ memIsused (m.item nmem) ∧ nmem ≠ m.heapEnd then
    joinBlocks (if m.lfree = nmem then { m with lfree := mem } else m) mem nmem
  else m

/-- "plug hole backward" of `plug_holes`. -/
def plugBackward (m : RtSmallMem) (mem : Nat) : RtSmallMem :=
  let pmem := (m.item mem).prev
  if pmem ≠ mem ∧ ¬ memIsused (m.item pmem) then
    joinBlocks (if m.lfree = mem then { m with lfree := pmem } else m) pmem mem
  else m

def plugHoles (m : RtSmallMem) (mem : Nat) : Option RtSmallMem := do
  rtAssert (m.heapPtr ≤ add32 m.heapPtr mem)
  rtAssert (add32 m.heapPtr mem < add32 m.heapPtr m.heapEnd)
  return plugBackward (plugForward m mem) mem

/-! ## The interface -/

variable (c : Board)

/-- `rt_smem_init` over `size` bytes at `beginAddr`; `none` is `RT_NULL`. The
headers and bytes are what the memory holds before. -/
def rtSmemInit (beginAddr size : Nat) (item : Nat → RtSmallMemItem) (data : Nat → UInt8) :
    Option RtSmallMem :=
  let smallMem := rtAlign beginAddr c.alignSize
  let startAddr := add32 smallMem c.sizeofSmallMem
  let beginAlign := rtAlign startAddr c.alignSize
  let endAlign := rtAlignDown (add32 beginAddr size) c.alignSize
  if 2 * c.sizeofStructMem < endAlign ∧
      startAddr ≤ sub32 endAlign (2 * c.sizeofStructMem) then
    let memSize := sub32 (sub32 endAlign beginAlign) (2 * c.sizeofStructMem)
    let heapEnd := add32 memSize c.sizeofStructMem
    let m : RtSmallMem :=
      { self := smallMem, total := memSize, used := 0, max := 0, heapPtr := beginAlign, heapEnd,
        lfree := 0, memSizeAligned := memSize, item, data }
    let m := { m with item := Function.update m.item 0 ⟨memFreed m, heapEnd, 0⟩ }
    some { m with item := Function.update m.item heapEnd ⟨memUsed m, heapEnd, heapEnd⟩ }
  else none

/-- Cut the block at `ptr` behind `size` bytes: the rest becomes a free block. -/
def splitBlock (m : RtSmallMem) (ptr size : Nat) : RtSmallMem :=
  let ptr2 := add32 (add32 ptr c.sizeofStructMem) size
  let next := (m.item ptr).next
  let item := setNext (Function.update m.item ptr2 ⟨memFreed m, next, ptr⟩) ptr ptr2
  { m with item :=
      if next ≠ add32 m.memSizeAligned c.sizeofStructMem then setPrev item next ptr2 else item }

/-- `parent.used += n`, and `parent.max` follows. -/
def addUsed (m : RtSmallMem) (n : Nat) : RtSmallMem :=
  let used := add32 m.used n
  { m with used, max := if m.max < used then used else m.max }

/-- The loop that moves `lfree` up to the next free block. A loop that uses up its
fuel has not ended. -/
def advanceLfree : Nat → RtSmallMem → Option RtSmallMem
  | 0, _ => none
  | fuel + 1, m =>
    if memIsused (m.item m.lfree) ∧ m.lfree ≠ m.heapEnd then
      advanceLfree fuel { m with lfree := (m.item m.lfree).next }
    else some m

/-- "Find next free block after mem and update lowest free pointer". -/
def updateLfree (fuel : Nat) (m : RtSmallMem) (mem : Nat) : Option RtSmallMem :=
  if mem = m.lfree then do
    let m ← advanceLfree fuel m
    rtAssert (m.lfree = m.heapEnd ∨ ¬ memIsused (m.item m.lfree))
    return m
  else some m

/-- The two cases of `rt_smem_alloc` at a block that fits: cut it, or take it
whole. -/
def carveBlock (m : RtSmallMem) (ptr size : Nat) : RtSmallMem :=
  if add32 (add32 size c.sizeofStructMem) c.minSizeAligned ≤
      sub32 (m.item ptr).next (add32 ptr c.sizeofStructMem) then
    addUsed (splitBlock c m ptr size) (add32 size c.sizeofStructMem)
  else addUsed m (sub32 (m.item ptr).next ptr)

/-- The body of the search loop of `rt_smem_alloc` at a block that fits. -/
def allocBlock (fuel : Nat) (m : RtSmallMem) (ptr size : Nat) : Option (RtSmallMem × Nat) := do
  let m := carveBlock c m ptr size
  let m := { m with item := setPoolPtr m.item ptr (memUsed m) }
  let m ← updateLfree fuel m ptr
  let mem := add32 m.heapPtr ptr
  rtAssert (add32 (add32 mem c.sizeofStructMem) size ≤ add32 m.heapPtr m.heapEnd)
  rtAssert (add32 mem c.sizeofStructMem % c.alignSize = 0)
  rtAssert (mem &&& (c.alignSize - 1) = 0)
  return (m, add32 mem c.sizeofStructMem)

/-- The search loop of `rt_smem_alloc`. -/
def allocLoop (m : RtSmallMem) (size : Nat) : Nat → Nat → Option (RtSmallMem × Nat)
  | 0, _ => none
  | fuel + 1, ptr =>
    if ptr ≤ sub32 m.memSizeAligned size then
      if ¬ memIsused (m.item ptr) ∧
          size ≤ sub32 (m.item ptr).next (add32 ptr c.sizeofStructMem) then
        allocBlock c (fuel + 1) m ptr size
      else allocLoop m size fuel (m.item ptr).next
    else some (m, 0)

/-- `rt_smem_alloc`. Each loop runs at most `fuel` rounds. -/
def rtSmemAlloc (fuel : Nat) (m : RtSmallMem) (size : Nat) : Option (RtSmallMem × Nat) :=
  if size = 0 then some (m, 0)
  else
    let size := rtAlign size c.alignSize
    if m.memSizeAligned < size then some (m, 0)
    else
      let size := if size < c.minSizeAligned then c.minSizeAligned else size
      allocLoop c m size fuel m.lfree

/-- The writes of `rt_smem_free` before the merge. -/
def releaseBlock (m : RtSmallMem) (mem : Nat) : RtSmallMem :=
  { m with
    item := setPoolPtr m.item mem (memFreed m)
    lfree := if mem < m.lfree then mem else m.lfree
    used := sub32 m.used (sub32 (m.item mem).next mem) }

/-- `rt_smem_free`. The pool of the header must be this heap. -/
def rtSmemFree (m : RtSmallMem) (rmem : Nat) : Option RtSmallMem :=
  if rmem = 0 then some m
  else do
    rtAssert (rmem &&& (c.alignSize - 1) = 0)
    let mem := sub32 (sub32 rmem c.sizeofStructMem) m.heapPtr
    rtAssert (memPool (m.item mem) ≠ 0)
    rtAssert (memPool (m.item mem) = m.self)
    rtAssert (memIsused (m.item mem))
    rtAssert (m.heapPtr ≤ rmem ∧ rmem < add32 m.heapPtr m.heapEnd)
    rtAssert (memPool (m.item (m.item mem).next) = m.self)
    plugHoles (releaseBlock m mem) mem

/-- The shrinking branch of `rt_smem_realloc`. -/
def shrinkBlock (m : RtSmallMem) (ptr size newsize : Nat) : Option RtSmallMem :=
  let m := { m with used := sub32 m.used (sub32 size newsize) }
  let m := splitBlock c m ptr newsize
  let mem2 := add32 (add32 ptr c.sizeofStructMem) newsize
  plugHoles { m with lfree := if mem2 < m.lfree then mem2 else m.lfree } mem2

def rtSmemRealloc (fuel : Nat) (m : RtSmallMem) (rmem newsize : Nat) :
    Option (RtSmallMem × Nat) :=
  let newsize := rtAlign newsize c.alignSize
  if m.memSizeAligned < newsize then some (m, 0)
  else if newsize = 0 then do
    let m ← rtSmemFree c m rmem
    return (m, 0)
  else if rmem = 0 then rtSmemAlloc c fuel m newsize
  else do
    rtAssert (rmem &&& (c.alignSize - 1) = 0)
    rtAssert (m.heapPtr ≤ rmem)
    rtAssert (rmem < add32 m.heapPtr m.heapEnd)
    let ptr := sub32 (sub32 rmem c.sizeofStructMem) m.heapPtr
    let size := sub32 (sub32 (m.item ptr).next ptr) c.sizeofStructMem
    if size = newsize then return (m, rmem)
    else if add32 (add32 newsize c.sizeofStructMem) minSize < size then do
      let m ← shrinkBlock c m ptr size newsize
      return (m, rmem)
    else do
      let (m, nmem) ← rtSmemAlloc c fuel m newsize
      if nmem ≠ 0 then do
        let copied := (List.range (if size < newsize then size else newsize)).map fun i =>
          m.data (rmem + i)
        let m ← rtSmemFree c { m with data := memcpy m.data nmem copied } rmem
        return (m, nmem)
      else return (m, 0)

end RtosKernel.RtThread.SmallMem
