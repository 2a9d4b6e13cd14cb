import RtosKernel.Lib.Word
import RtosKernel.FreeRTOS.Def

/-! # The heap with merged blocks (`heap_4.c`)

Every block starts with a `BlockLink_t`. The free ones are linked in the order of their addresses, from
`xStart`, which lies outside of the heap, to `*pxEnd`, which is at its end. -/
namespace RtosKernel.FreeRTOS.Heap4
open Lib.Word FreeRTOS.Def

/-- The build: `size_t` has `sizeBits` bits, `portBYTE_ALIGNMENT` is `2 ^ alignBits`,
and where the linker put `ucHeap` and `xStart`. -/
structure Board where
  sizeBits : Nat
  alignBits : Nat
  /-- `sizeof( BlockLink_t )` -/
  linkSize : Nat
  /-- `configTOTAL_HEAP_SIZE` -/
  totalHeapSize : Nat
  ucHeap : Nat
  xStart : Nat
  bits_pos : 0 < sizeBits
  link_pos : 0 < linkSize
  link_le : 2 * (linkSize + 2 ^ alignBits) ≤ 2 ^ sizeBits
  /-- the objects lie in the address space, apart from one another -/
  heap_le : ucHeap + totalHeapSize ≤ 2 ^ sizeBits
  xStart_lt : xStart < 2 ^ sizeBits
  apart : xStart < ucHeap ∨ ucHeap + totalHeapSize ≤ xStart

/-- `BlockLink_t`. -/
structure BlockLink where
  pxNextFreeBlock : Nat
  xBlockSize : Nat
  deriving DecidableEq, Repr

/-- The variables of the file and the headers in memory. -/
structure Heap where
  link : Nat → BlockLink
  pxEnd : Nat
  xFreeBytesRemaining : Nat
  xMinimumEverFreeBytesRemaining : Nat
  xNumberOfSuccessfulAllocations : Nat
  xNumberOfSuccessfulFrees : Nat
  xBlockAllocatedBit : Nat

def Heap.setLink (h : Heap) (a : Nat) (v : BlockLink) : Heap :=
  { h with link := Function.update h.link a v }

def Heap.setNext (h : Heap) (a v : Nat) : Heap :=
  h.setLink a { h.link a with pxNextFreeBlock := v }

def Heap.setSize (h : Heap) (a v : Nat) : Heap :=
  h.setLink a { h.link a with xBlockSize := v }

variable (c : Board)

def Board.byteAlignment : Nat := 2 ^ c.alignBits

def Board.byteAlignmentMask : Nat := c.byteAlignment - 1

/-- `x & ~portBYTE_ALIGNMENT_MASK`. -/
def Board.alignDown (x : Nat) : Nat := x &&& (2 ^ c.sizeBits - c.byteAlignment)

def Board.heapStructSize : Nat := c.alignDown (addw c.sizeBits c.linkSize (c.byteAlignment - 1))

def Board.minimumBlockSize : Nat := c.heapStructSize <<< 1 % 2 ^ c.sizeBits

/-- The start of the heap, aligned, and `xTotalHeapSize` from there on. -/
def Board.alignedHeap : Nat × Nat :=
  if c.ucHeap &&& c.byteAlignmentMask ≠ 0 then
    let uxAddress := c.alignDown (addw c.sizeBits c.ucHeap (c.byteAlignment - 1))
    (uxAddress, subw c.sizeBits c.totalHeapSize (subw c.sizeBits uxAddress c.ucHeap))
  else (c.ucHeap, c.totalHeapSize)

/-- The address given to `pxEnd`. -/
def Board.endAddress : Nat :=
  c.alignDown (subw c.sizeBits (addw c.sizeBits c.alignedHeap.1 c.alignedHeap.2) c.heapStructSize)

def prvHeapInit (h : Heap) : Heap :=
  let pucAlignedHeap := c.alignedHeap.1
  let h := h.setLink c.xStart ⟨pucAlignedHeap, 0⟩
  let uxAddress := c.endAddress
  let h := { h with pxEnd := uxAddress }
  let h := h.setLink uxAddress ⟨0, 0⟩
  let size := subw c.sizeBits uxAddress pucAlignedHeap
  let h := h.setLink pucAlignedHeap ⟨uxAddress, size⟩
  { h with
    xMinimumEverFreeBytesRemaining := size
    xFreeBytesRemaining := size
    xBlockAllocatedBit := 2 ^ (c.sizeBits - 1) }

/-- The fuel with which every walk of the free list ends. -/
def Board.enough : Nat := 2 ^ c.sizeBits + 1

/-- The loop of `prvInsertBlockIntoFreeList`. -/
def seekInsert (h : Heap) (pxBlockToInsert : Nat) : Nat → Nat → Option Nat
  | 0, _ => none
  | fuel + 1, pxIterator =>
    if (h.link pxIterator).pxNextFreeBlock < pxBlockToInsert then
      seekInsert h pxBlockToInsert fuel (h.link pxIterator).pxNextFreeBlock
    else some pxIterator

/-- Merge the block with the one before it, if the two are contiguous. -/
def mergeBefore (h : Heap) (pxIterator pxBlockToInsert : Nat) : Heap × Nat :=
  if addw c.sizeBits pxIterator (h.link pxIterator).xBlockSize = pxBlockToInsert then
    (h.setSize pxIterator (addw c.sizeBits (h.link pxIterator).xBlockSize
      (h.link pxBlockToInsert).xBlockSize), pxIterator)
  else (h, pxBlockToInsert)

/-- Merge the block with the one behind it, if the two are contiguous, and link it to
what follows. -/
def mergeBehind (h : Heap) (pxIterator pxBlockToInsert : Nat) : Heap :=
  let next := (h.link pxIterator).pxNextFreeBlock
  if addw c.sizeBits pxBlockToInsert (h.link pxBlockToInsert).xBlockSize = next then
    if next ≠ h.pxEnd then
      let h := h.setSize pxBlockToInsert
        (addw c.sizeBits (h.link pxBlockToInsert).xBlockSize (h.link next).xBlockSize)
      h.setNext pxBlockToInsert (h.link next).pxNextFreeBlock
    else h.setNext pxBlockToInsert h.pxEnd
  else h.setNext pxBlockToInsert next

def prvInsertBlockIntoFreeList (h : Heap) (pxBlockToInsert : Nat) : Option Heap := do
  let pxIterator ← seekInsert h pxBlockToInsert c.enough c.xStart
  let (h, pxBlockToInsert) := mergeBefore c h pxIterator pxBlockToInsert
  let h := mergeBehind c h pxIterator pxBlockToInsert
  return if pxIterator ≠ pxBlockToInsert then h.setNext pxIterator pxBlockToInsert else h

/-- What `xWantedSize` becomes: with a header, aligned, and 0 where that overflows. -/
def wantedSize (xWantedSize : Nat) : Option Nat :=
  if 0 < xWantedSize ∧ xWantedSize < addw c.sizeBits xWantedSize c.heapStructSize then
    let xWantedSize := addw c.sizeBits xWantedSize c.heapStructSize
    if xWantedSize &&& c.byteAlignmentMask ≠ 0 then
      let aligned := addw c.sizeBits xWantedSize
        (c.byteAlignment - (xWantedSize &&& c.byteAlignmentMask))
      if xWantedSize < aligned then do
        configAssert (aligned &&& c.byteAlignmentMask = 0)
        return aligned
      else some 0
    else some xWantedSize
  else some 0

/-- The loop of `pvPortMalloc`: `pxPreviousBlock` and `pxBlock` at its end. -/
def seekBlock (h : Heap) (xWantedSize : Nat) : Nat → Nat → Nat → Option (Nat × Nat)
  | 0, _, _ => none
  | fuel + 1, pxPreviousBlock, pxBlock =>
    if (h.link pxBlock).xBlockSize < xWantedSize ∧ (h.link pxBlock).pxNextFreeBlock ≠ 0 then
      seekBlock h xWantedSize fuel pxBlock (h.link pxBlock).pxNextFreeBlock
    else some (pxPreviousBlock, pxBlock)

/-- Split the block if it is larger than required. -/
def splitBlock (h : Heap) (pxBlock xWantedSize : Nat) : Option Heap :=
  if c.minimumBlockSize < subw c.sizeBits (h.link pxBlock).xBlockSize xWantedSize then do
    let pxNewBlockLink := addw c.sizeBits pxBlock xWantedSize
    configAssert (pxNewBlockLink &&& c.byteAlignmentMask = 0)
    let h := h.setSize pxNewBlockLink (subw c.sizeBits (h.link pxBlock).xBlockSize xWantedSize)
    let h := h.setSize pxBlock xWantedSize
    prvInsertBlockIntoFreeList c h pxNewBlockLink
  else some h

/-- The part of `pvPortMalloc` for a size that may fit. -/
def takeBlock (h : Heap) (xWantedSize : Nat) : Option (Heap × Nat) := do
  let (pxPreviousBlock, pxBlock) ← seekBlock h xWantedSize c.enough c.xStart
    (h.link c.xStart).pxNextFreeBlock
  if pxBlock ≠ h.pxEnd then
    let pvReturn := addw c.sizeBits (h.link pxPreviousBlock).pxNextFreeBlock c.heapStructSize
    let h := h.setNext pxPreviousBlock (h.link pxBlock).pxNextFreeBlock
    let h ← splitBlock c h pxBlock xWantedSize
    let free := subw c.sizeBits h.xFreeBytesRemaining (h.link pxBlock).xBlockSize
    let h := { h with
      xFreeBytesRemaining := free
      xMinimumEverFreeBytesRemaining :=
        if free < h.xMinimumEverFreeBytesRemaining then free else h.xMinimumEverFreeBytesRemaining }
    let h := h.setLink pxBlock ⟨0, (h.link pxBlock).xBlockSize ||| h.xBlockAllocatedBit⟩
    return ({ h with
      xNumberOfSuccessfulAllocations := addw c.sizeBits h.xNumberOfSuccessfulAllocations 1 }, pvReturn)
  else return (h, 0)

/-- `pvPortMalloc` on an initialised heap, up to the last assertion. -/
def allocate (h : Heap) (xWantedSize : Nat) : Option (Heap × Nat) :=
  if xWantedSize &&& h.xBlockAllocatedBit = 0 then do
    let xWantedSize ← wantedSize c xWantedSize
    if 0 < xWantedSize ∧ xWantedSize ≤ h.xFreeBytesRemaining then takeBlock c h xWantedSize
    else return (h, 0)
  else some (h, 0)

/-- The heap is initialised by the first call. -/
def initialised (h : Heap) : Heap := if h.pxEnd = 0 then prvHeapInit c h else h

/-- `pvPortMalloc`: the heap, and `pvReturn`. -/
def pvPortMalloc (h : Heap) (xWantedSize : Nat) : Option (Heap × Nat) := do
  let r ← allocate c (initialised c h) xWantedSize
  configAssert (r.2 &&& c.byteAlignmentMask = 0)
  return r

/-- `vPortFree` up to the insertion: the block is no longer allocated. -/
def releaseBlock (h : Heap) (pxLink : Nat) : Heap :=
  let h := h.setSize pxLink ((h.link pxLink).xBlockSize &&& (2 ^ c.sizeBits - 1 - h.xBlockAllocatedBit))
  { h with xFreeBytesRemaining := addw c.sizeBits h.xFreeBytesRemaining (h.link pxLink).xBlockSize }

def vPortFree (h : Heap) (pv : Nat) : Option Heap :=
  if pv ≠ 0 then do
    let pxLink := subw c.sizeBits pv c.heapStructSize
    configAssert ((h.link pxLink).xBlockSize &&& h.xBlockAllocatedBit ≠ 0)
    configAssert ((h.link pxLink).pxNextFreeBlock = 0)
    if (h.link pxLink).xBlockSize &&& h.xBlockAllocatedBit ≠ 0 then
      if (h.link pxLink).pxNextFreeBlock = 0 then do
        let h ← prvInsertBlockIntoFreeList c (releaseBlock c h pxLink) pxLink
        return { h with xNumberOfSuccessfulFrees := addw c.sizeBits h.xNumberOfSuccessfulFrees 1 }
      else some h
    else some h
  else some h

end RtosKernel.FreeRTOS.Heap4
