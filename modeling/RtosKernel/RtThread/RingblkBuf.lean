import RtosKernel.RtThread.Def
import RtosKernel.RtThread.Service

/-! # The ring block buffer (`ringblk_buf.c`)

Block descriptors are numbered; each is on `free_list` or on `blk_list` through
its `list` node. A function returns `none` where an `RT_ASSERT` fails or a list
walk does not end, and `some (rbb, none)` where it returns `RT_NULL`. -/
namespace RtosKernel.RtThread.RingblkBuf
open Lib.Word Lib.LinkedList RtThread.Def
open RtThread.Service

/-- `rt_rbb_status_t`. -/
inductive RtRbbStatus where
  | unused
  | inited
  | put
  | get
  deriving DecidableEq, Repr

/-- `struct rt_rbb_blk` without its list node; `buf` is an address. -/
structure RtRbbBlk where
  status : RtRbbStatus
  size : Nat
  buf : Nat
  deriving DecidableEq, Repr

/-- A list node: one of the two headers, or the `list` field of a descriptor. -/
inductive Node where
  | blkList
  | freeList
  | blk (i : Nat)
  deriving DecidableEq, Repr

/-- A byte array of the 32-bit address space. -/
structure Buffer where
  addr : Nat
  size : Nat
  inSpace : addr + size < 2 ^ 32

structure RtRbb where
  buf : Nat
  bufSize : Nat
  blkSet : Nat → RtRbbBlk
  blkMaxNum : Nat
  next : Node → Option Node
  tail : Node

/-- `rt_slist_entry`: the descriptor a node belongs to. -/
def entry : Node → Option Nat
  | .blk i => some i
  | _ => none

/-- One round of the loop of `rt_rbb_init`. -/
def initBlk (rbb : RtRbb) (i : Nat) : RtRbb :=
  { rbb with
    blkSet := Function.update rbb.blkSet i { rbb.blkSet i with status := .unused }
    next := rtSlistInsert (rtSlistInit rbb.next (.blk i)) .freeList (.blk i) }

/-- The fields of `blockSet` other than the status stay what they were. -/
def rtRbbInit (buf : Buffer) (blockSet : Nat → RtRbbBlk) (blkMaxNum : Nat) : RtRbb :=
  (List.range blkMaxNum).foldl initBlk
    { buf := buf.addr
      bufSize := buf.size
      blkSet := blockSet
      blkMaxNum := blkMaxNum
      next := fun _ => none
      tail := .blkList }

def findEmptyBlkInSet (rbb : RtRbb) : Option (RtRbb × Option Nat) :=
  match rbb.next .freeList with
  | none => some (rbb, none)
  | some first => do
    let blk ← entry first
    let next ← rtSlistRemove (rbb.blkMaxNum + 1) rbb.next .freeList first
    rtAssert ((rbb.blkSet blk).status = .unused)
    some ({ rbb with next := next }, some blk)

def listAppend (rbb : RtRbb) (n : Node) : RtRbb :=
  { rbb with
    next := Function.update (Function.update rbb.next rbb.tail (some n)) n none
    tail := n }

def listRemove (rbb : RtRbb) (n : Node) : Option RtRbb := do
  let node ← seekPrev rbb.next n (rbb.blkMaxNum + 1) .blkList
  match rbb.next node with
  | none => some rbb
  | some x => some { rbb with
      next := Function.update (Function.update rbb.next node (rbb.next x)) n none
      tail := if rbb.tail = n then node else rbb.tail }

/-- The lines each successful branch of `rt_rbb_blk_alloc` ends with: append the descriptor and set its fields.
-/
def place (rbb : RtRbb) (new buf blkSize : Nat) : RtRbb × Option Nat :=
  let rbb := listAppend rbb (.blk new)
  ({ rbb with blkSet := Function.update rbb.blkSet new ⟨.inited, blkSize % 2 ^ 24, buf⟩ }, some new)

def rtRbbBlkAlloc (rbb : RtRbb) (blkSize : Nat) : Option (RtRbb × Option Nat) := do
  rtAssert (blkSize < 2 ^ 24)
  let (rbb, newRbb) ← findEmptyBlkInSet rbb
  match newRbb with
  | none => some (rbb, none)
  | some new =>
    match rbb.next .blkList with
    | none => some (place rbb new rbb.buf blkSize)
    | some first => do
      let head := rbb.blkSet (← entry first)
      let tail := rbb.blkSet (← entry rbb.tail)
      if head.buf ≤ tail.buf then
        let empty1 := sub32 (add32 rbb.buf rbb.bufSize) (add32 tail.buf tail.size)
        let empty2 := sub32 head.buf rbb.buf
        if empty1 ≥ blkSize then some (place rbb new (add32 tail.buf tail.size) blkSize)
        else if empty2 ≥ blkSize then some (place rbb new rbb.buf blkSize)
        -- no space: the descriptor is off the free list and on no other
        else some (rbb, none)
      else
        let empty1 := sub32 head.buf (add32 tail.buf tail.size)
        if empty1 ≥ blkSize then some (place rbb new (add32 tail.buf tail.size) blkSize)
        else some (rbb, none)

def rtRbbBlkPut (rbb : RtRbb) (block : Nat) : Option RtRbb := do
  rtAssert ((rbb.blkSet block).status = .inited)
  some { rbb with
    blkSet := Function.update rbb.blkSet block { rbb.blkSet block with status := .put } }

/-- The loop of `rt_rbb_blk_get`: the first block with status `PUT`. -/
def findPut (rbb : RtRbb) : Nat → Option Node → Option (Option Nat)
  | 0, _ => none
  | _ + 1, none => some none
  | fuel + 1, some node => do
    let block ← entry node
    if (rbb.blkSet block).status = .put then some (some block)
    else findPut rbb fuel (rbb.next node)

def rtRbbBlkGet (rbb : RtRbb) : Option (RtRbb × Option Nat) := do
  match ← findPut rbb (rbb.blkMaxNum + 1) (rbb.next .blkList) with
  | none => some (rbb, none)
  | some block => some ({ rbb with
      blkSet := Function.update rbb.blkSet block { rbb.blkSet block with status := .get } },
      some block)

def rtRbbBlkFree (rbb : RtRbb) (block : Nat) : Option RtRbb := do
  rtAssert ((rbb.blkSet block).status ≠ .unused)
  let rbb ← listRemove rbb (.blk block)
  some { rbb with
    blkSet := Function.update rbb.blkSet block { rbb.blkSet block with status := .unused }
    next := rtSlistInsert rbb.next .freeList (.blk block) }

/-- A call; `put` and `free` are given a descriptor of the set. -/
inductive Op where
  | alloc (blkSize : Nat)
  | put (block : Nat)
  | get
  | free (block : Nat)

def exec (rbb : RtRbb) : Op → Option RtRbb
  | .alloc blkSize => (rtRbbBlkAlloc rbb blkSize).map Prod.fst
  | .put block => rtRbbBlkPut rbb block
  | .get => (rtRbbBlkGet rbb).map Prod.fst
  | .free block => rtRbbBlkFree rbb block

end RtosKernel.RtThread.RingblkBuf
