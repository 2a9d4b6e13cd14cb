import RtosKernel.Lib.Window
import RtosKernel.RtThread.Def

/-! # The memheap (`memheap.c`)

A pool is cut into blocks that a header each links into two lists: the block list, in the order of the addresses
and closed by a used block at the end of the pool, and the free list, whose header lies in the memheap object. A
call has the memheap to itself: the semaphore is not modelled. -/
namespace RtosKernel.RtThread.Memheap
open Lib.Word Lib.Window RtThread.Def
open Function (update)

/-- What the build fixes: the alignment, `RT_USING_MEMTRACE`, which adds a thread
name to the header, and `RT_MEMHEAP_BSET_MODE`, which sorts the free list. -/
structure Board extends Align where
  memtrace : Bool
  bsetMode : Bool

def Board.memheapSize (c : Board) : Nat := rtAlign (if c.memtrace then 28 else 24) c.alignSize

def memheapMinialloc : Nat := 12

def memheapMagic : Nat := 0x1ea01ea0

def memheapMask : Nat := 0xfffffffe

/-- `RT_MEMHEAP_MAGIC | RT_MEMHEAP_FREED`. -/
def magicFreed : Nat := memheapMagic ||| 0

/-- `RT_MEMHEAP_MAGIC | RT_MEMHEAP_USED`. -/
def magicUsed : Nat := memheapMagic ||| 1

/-- `struct rt_memheap`, with the fields of the headers in memory by address.
`self` is the address of the object. -/
structure RtMemheap where
  self : Nat
  startAddr : Nat
  poolSize : Nat
  availableSize : Nat
  maxUsedSize : Nat
  blockList : Nat
  freeList : Nat
  magic : Nat → Nat
  poolPtr : Nat → Nat
  next : Nat → Nat
  prev : Nat → Nat
  nextFree : Nat → Nat
  prevFree : Nat → Nat
  data : Nat → UInt8

def isUsed (h : RtMemheap) (item : Nat) : Prop := h.magic item &&& 1 ≠ 0

instance (h : RtMemheap) (item : Nat) : Decidable (isUsed h item) :=
  inferInstanceAs (Decidable (_ ≠ _))

variable (c : Board)

def memitemSize (h : RtMemheap) (item : Nat) : Nat :=
  sub32 (sub32 (h.next item) item) c.memheapSize

/-! ## The writes to the lists -/

/-- `p->next_free->prev_free = p->prev_free; p->prev_free->next_free = p->next_free`. -/
def freeRemove (h : RtMemheap) (p : Nat) : RtMemheap :=
  let prevFree := update h.prevFree (h.nextFree p) (h.prevFree p)
  { h with prevFree, nextFree := update h.nextFree (prevFree p) (h.nextFree p) }

/-- Put a block at the front of the free list. -/
def freeInsert (h : RtMemheap) (p : Nat) : RtMemheap :=
  let nextFree := update h.nextFree p (h.nextFree h.freeList)
  let prevFree := update h.prevFree p h.freeList
  { h with
    prevFree := update prevFree (nextFree h.freeList) p
    nextFree := update nextFree h.freeList p }

/-- Put a block before the node `n` of the free list. -/
def freeInsertBefore (h : RtMemheap) (p n : Nat) : RtMemheap :=
  let nextFree := update h.nextFree p n
  let prevFree := update h.prevFree p (h.prevFree n)
  { h with
    nextFree := update nextFree (prevFree n) p
    prevFree := update prevFree n p }

/-- Make a free block at `p` and link it behind `header` in the block list. -/
def insertBlock (h : RtMemheap) (header p : Nat) : RtMemheap :=
  let prev := update h.prev p header
  let next := update h.next p (h.next header)
  { h with
    magic := update h.magic p magicFreed
    poolPtr := update h.poolPtr p h.self
    prev := update prev (next header) p
    next := update next header p }

/-- Unlink the block at `p`, which lies behind `header`, from the block list. -/
def mergeNext (h : RtMemheap) (header p : Nat) : RtMemheap :=
  { h with
    prev := update h.prev (h.next p) header
    next := update h.next header (h.next p) }

def removeNextPtr (h : RtMemheap) (p : Nat) : RtMemheap :=
  let h := freeRemove h p
  let prev := update h.prev (h.next p) (h.prev p)
  { h with prev, next := update h.next (prev p) (h.next p) }

/-- Set `available_size`, and let `max_used_size` follow. -/
def charge (h : RtMemheap) (availableSize : Nat) : RtMemheap :=
  let used := sub32 h.poolSize availableSize
  { h with availableSize, maxUsedSize := if h.maxUsedSize < used then used else h.maxUsedSize }

/-! ## The interface -/

/-- Where `rt_memheap_init` is asked to make a memheap. The object and the pool
are two objects in the address space, and the header of the free list lies in
the first. -/
structure Place where
  self : Nat
  sizeofMemheap : Nat
  freeHeader : Nat
  startAddr : Nat
  size : Nat
  sizeof_le : 64 ≤ sizeofMemheap
  object_le : self + sizeofMemheap ≤ 2 ^ 32
  pool_le : startAddr + size ≤ 2 ^ 32
  apart : self + sizeofMemheap ≤ startAddr ∨ startAddr + size ≤ self
  header_mem : self ≤ freeHeader ∧ freeHeader < self + sizeofMemheap

/-- `rt_memheap_init`, where the memory holds what it held before. -/
def rtMemheapInit (l : Place) (mem : RtMemheap) : Option RtMemheap := do
  rtAssert (l.self ≠ 0)
  let poolSize := rtAlignDown l.size c.alignSize
  let availableSize := sub32 poolSize (2 * c.memheapSize)
  let header := l.freeHeader
  let item := l.startAddr
  let tail := add32 (add32 item availableSize) c.memheapSize
  -- the header of the free list, the first block and the tailer, as they are written
  let magic := update (update (update mem.magic header magicFreed)
    item magicFreed) tail magicUsed
  let poolPtr := update (update (update mem.poolPtr header l.self)
    item l.self) tail l.self
  let next := update (update (update mem.next header 0) item tail)
    tail item
  let prev := update (update (update mem.prev header 0) item tail)
    tail item
  let nextFree := update (update mem.nextFree header header) item header
  let prevFree := update (update mem.prevFree header header) item header
  let prevFree := update prevFree (nextFree header) item
  let nextFree := update nextFree header item
  return { mem with
    self := l.self
    startAddr := item
    poolSize, availableSize
    maxUsedSize := sub32 poolSize availableSize
    blockList := item
    freeList := header
    magic, poolPtr, next, prev
    nextFree := update nextFree tail 0
    prevFree := update prevFree tail 0 }

/-- The search loop of `rt_memheap_alloc`: the block found and its size. -/
def freeSearch (h : RtMemheap) (size : Nat) : Nat → Nat → Nat → Option (Nat × Nat)
  | 0, _, _ => none
  | fuel + 1, headerPtr, freeSize =>
    if headerPtr ≠ h.freeList ∧ freeSize < size then
      let freeSize := memitemSize c h headerPtr
      freeSearch h size fuel (if freeSize < size then h.nextFree headerPtr else headerPtr) freeSize
    else some (headerPtr, freeSize)

/-- Remove a block from the free list and clear its links. -/
def freeTake (h : RtMemheap) (p : Nat) : RtMemheap :=
  let h := freeRemove h p
  { h with
    nextFree := update h.nextFree p 0
    prevFree := update h.prevFree p 0 }

/-- The two ways a free block is allocated: cut, or taken whole. -/
def allocBlock (h : RtMemheap) (headerPtr size freeSize : Nat) : RtMemheap :=
  let h :=
    if add32 (add32 size c.memheapSize) memheapMinialloc ≤ freeSize then
      let newPtr := add32 (add32 headerPtr size) c.memheapSize
      let h := insertBlock h headerPtr newPtr
      let h := freeInsert (freeTake h headerPtr) newPtr
      charge h (sub32 (sub32 h.availableSize size) c.memheapSize)
    else freeTake (charge h (sub32 h.availableSize freeSize)) headerPtr
  { h with magic := update h.magic headerPtr magicUsed }

def allocSize (size : Nat) : Nat :=
  let size := rtAlign size c.alignSize
  if size < memheapMinialloc then memheapMinialloc else size

/-- `rt_memheap_alloc`. The loop runs at most `fuel` rounds. -/
def rtMemheapAlloc (fuel : Nat) (h : RtMemheap) (size : Nat) : Option (RtMemheap × Nat) :=
  let size := allocSize c size
  if size < h.availableSize then do
    let (headerPtr, freeSize) ← freeSearch c h size fuel (h.nextFree h.freeList) 0
    if size ≤ freeSize then
      return (allocBlock c h headerPtr size freeSize, add32 headerPtr c.memheapSize)
    else return (h, 0)
  else some (h, 0)

/-- The loop of `RT_MEMHEAP_BSET_MODE`: the first free block that is no smaller. -/
def insertPosition (h : RtMemheap) (blkSize : Nat) : Nat → Nat → Option Nat
  | 0, _ => none
  | fuel + 1, n =>
    if n ≠ h.freeList then
      if blkSize ≤ memitemSize c h n then some n else insertPosition h blkSize fuel (h.nextFree n)
    else some n

/-- The end of `rt_memheap_free`: the block enters the free list. -/
def insertHeader (fuel : Nat) (h : RtMemheap) (headerPtr : Nat) : Option RtMemheap := do
  let n ← if c.bsetMode then
      insertPosition c h (memitemSize c h headerPtr) fuel (h.nextFree h.freeList)
    else some (h.nextFree h.freeList)
  return freeInsertBefore h headerPtr n

/-- "Determine if the block can be merged with the previous neighbor": the header
from there on, and whether it must be inserted. -/
def mergeLeft (h : RtMemheap) (headerPtr : Nat) : RtMemheap × Nat × Bool :=
  let left := h.prev headerPtr
  if isUsed h left then (h, headerPtr, true)
  else
    ({ h with
        availableSize := add32 h.availableSize c.memheapSize
        next := update h.next left (h.next headerPtr)
        prev := update h.prev (h.next headerPtr) left }, left, false)

/-- "determine if the block can be merged with the next neighbor". -/
def mergeRight (h : RtMemheap) (headerPtr : Nat) : RtMemheap :=
  let newPtr := h.next headerPtr
  if isUsed h newPtr then h
  else
    let h := { h with availableSize := add32 h.availableSize c.memheapSize }
    freeRemove (mergeNext h headerPtr newPtr) newPtr

/-- `rt_memheap_free`. The pool of the header must be this memheap. -/
def rtMemheapFree (fuel : Nat) (h : RtMemheap) (ptr : Nat) : Option RtMemheap :=
  if ptr = 0 then some h
  else do
    let headerPtr := sub32 ptr c.memheapSize
    rtAssert (h.magic headerPtr = magicUsed)
    rtAssert (h.magic (h.next headerPtr) &&& memheapMask = memheapMagic)
    rtAssert (h.poolPtr headerPtr ≠ 0)
    rtAssert (h.poolPtr headerPtr = h.self)
    let h := { h with
      magic := update h.magic headerPtr magicFreed
      availableSize := add32 h.availableSize (memitemSize c h headerPtr) }
    let (h, headerPtr, insert) := mergeLeft c h headerPtr
    let h := mergeRight c h headerPtr
    if insert then insertHeader c fuel h headerPtr else return h

/-- The branch of `rt_memheap_realloc` that grows a block into the free one behind
it. -/
def growBlock (h : RtMemheap) (headerPtr ptr oldsize newsize : Nat) : RtMemheap :=
  let nextPtr := h.next headerPtr
  let h := charge h (sub32 h.availableSize (sub32 newsize oldsize))
  let h := removeNextPtr h nextPtr
  let nextPtr := add32 ptr newsize
  freeInsert (insertBlock h headerPtr nextPtr) nextPtr

/-- "merge block with next neighbor", for a block just cut off. -/
def mergeSplit (h : RtMemheap) (newPtr : Nat) : RtMemheap :=
  let freePtr := h.next newPtr
  if isUsed h freePtr then h
  else
    let h := { h with availableSize := sub32 h.availableSize (memitemSize c h freePtr) }
    freeRemove (mergeNext h newPtr freePtr) freePtr

/-- The branch of `rt_memheap_realloc` that cuts a block. -/
def shrinkBlock (h : RtMemheap) (headerPtr newsize : Nat) : RtMemheap :=
  let newPtr := add32 (add32 headerPtr newsize) c.memheapSize
  let h := freeInsert (mergeSplit c (insertBlock h headerPtr newPtr) newPtr) newPtr
  { h with availableSize := add32 h.availableSize (memitemSize c h newPtr) }

/-- The end of a growing `rt_memheap_realloc`: allocate, copy and free. -/
def moveBlock (fuel : Nat) (h : RtMemheap) (ptr oldsize newsize : Nat) :
    Option (RtMemheap × Nat) := do
  let (h, newPtr) ← rtMemheapAlloc c fuel h newsize
  if newPtr ≠ 0 then do
    let copied := (List.range (if oldsize < newsize then oldsize else newsize)).map fun i =>
      h.data (ptr + i)
    let h ← rtMemheapFree c fuel { h with data := memcpy h.data newPtr copied } ptr
    return (h, newPtr)
  else return (h, 0)

def rtMemheapRealloc (fuel : Nat) (h : RtMemheap) (ptr newsize : Nat) :
    Option (RtMemheap × Nat) :=
  if newsize = 0 then do
    let h ← rtMemheapFree c fuel h ptr
    return (h, 0)
  else
    let newsize := allocSize c newsize
    if ptr = 0 then rtMemheapAlloc c fuel h newsize
    else
      let headerPtr := sub32 ptr c.memheapSize
      let oldsize := memitemSize c h headerPtr
      if oldsize < newsize then do
        let nextPtr := h.next headerPtr
        rtAssert (headerPtr < nextPtr)
        if ¬ isUsed h nextPtr ∧ add32 newsize memheapMinialloc <
            add32 (memitemSize c h nextPtr) oldsize then
          return (growBlock h headerPtr ptr oldsize newsize, ptr)
        else moveBlock c fuel h ptr oldsize newsize
      else if oldsize ≤ add32 (add32 newsize c.memheapSize) memheapMinialloc then
        some (h, ptr)
      else some (shrinkBlock c h headerPtr newsize, ptr)

end RtosKernel.RtThread.Memheap
