import RtosKernel.Lib.Word
import RtosKernel.FreeRTOS.Def

/-! # Queues (`queue.c`)

A queue keeps its items by copy in a storage area of `uxLength` places.
`pcWriteTo` is the next place to write, `pcReadFrom` the place that was read last,
one behind the front. The functions are the critical sections of the calls; a
call that waits tries again. -/
namespace RtosKernel.FreeRTOS.Queues
open Lib.Word FreeRTOS.Def

/-- The build: the width of `size_t` and `UBaseType_t`, and `sizeof( Queue_t )`. -/
structure Build where
  sizeBits : Nat
  structSize : Nat

def Build.sizeMax (c : Build) : Nat := 2 ^ c.sizeBits - 1

/-- `Queue_t` of a queue that is no mutex. Pointers are addresses, and `mem` is the memory they
point into. -/
structure Queue where
  pcHead : Int
  pcWriteTo : Int
  pcTail : Int
  pcReadFrom : Int
  uxMessagesWaiting : Nat
  uxLength : Nat
  uxItemSize : Nat
  mem : Int → UInt8

inductive CopyPosition where
  | sendToBack
  | sendToFront
  | overwrite
  deriving DecidableEq

/-- `memcpy` into memory. -/
def memcpyTo (mem : Int → UInt8) (p : Int) (item : List UInt8) : Int → UInt8 := fun a =>
  if p ≤ a ∧ a < p + item.length then item.getD (a - p).toNat 0 else mem a

/-- `memcpy` of `n` bytes out of memory. -/
def memcpyFrom (mem : Int → UInt8) (p : Int) (n : Nat) : List UInt8 :=
  (List.range n).map fun (i : Nat) => mem (p + i)

variable (c : Build)

/-- `xQueueGenericReset`, which fails an assertion where it would return `pdFAIL`. -/
def xQueueGenericReset (q : Queue) : Option Queue := do
  configAssert (q.uxLength ≥ 1 ∧ c.sizeMax / q.uxLength ≥ q.uxItemSize)
  return { q with
    pcTail := q.pcHead + (q.uxLength * q.uxItemSize % 2 ^ c.sizeBits : Nat)
    uxMessagesWaiting := 0
    pcWriteTo := q.pcHead
    pcReadFrom := q.pcHead + ((q.uxLength - 1) * q.uxItemSize % 2 ^ c.sizeBits : Nat) }

/-- `prvInitialiseNewQueue` of the structure at `pxNewQueue`. -/
def prvInitialiseNewQueue (mem : Int → UInt8) (uxQueueLength uxItemSize : Nat) (pucQueueStorage pxNewQueue : Int) :
    Option Queue :=
  let pcHead := if uxItemSize = 0 then pxNewQueue else pucQueueStorage
  xQueueGenericReset c ⟨pcHead, pcHead, pcHead, pcHead, 0, uxQueueLength, uxItemSize, mem⟩

/-- `xQueueGenericCreate`, where `pvPortMalloc` gives the block at `pxNewQueue`. -/
def xQueueGenericCreate (mem : Int → UInt8) (pxNewQueue : Int) (uxQueueLength uxItemSize : Nat) : Option Queue := do
  configAssert (uxQueueLength > 0 ∧ c.sizeMax / uxQueueLength ≥ uxItemSize ∧
    c.sizeMax - c.structSize ≥ uxQueueLength * uxItemSize % 2 ^ c.sizeBits)
  prvInitialiseNewQueue c mem uxQueueLength uxItemSize (pxNewQueue + c.structSize) pxNewQueue

def prvCopyDataToQueue (q : Queue) (item : List UInt8) (xPosition : CopyPosition) : Queue :=
  if q.uxItemSize = 0 then { q with uxMessagesWaiting := addw c.sizeBits q.uxMessagesWaiting 1 }
  else match xPosition with
    | .sendToBack =>
      let pcWriteTo := q.pcWriteTo + q.uxItemSize
      { q with
        mem := memcpyTo q.mem q.pcWriteTo item
        pcWriteTo := if pcWriteTo ≥ q.pcTail then q.pcHead else pcWriteTo
        uxMessagesWaiting := addw c.sizeBits q.uxMessagesWaiting 1 }
    | .sendToFront | .overwrite =>
      let pcReadFrom := q.pcReadFrom - q.uxItemSize
      let uxMessagesWaiting :=
        if xPosition = .overwrite ∧ q.uxMessagesWaiting > 0 then q.uxMessagesWaiting - 1 else q.uxMessagesWaiting
      { q with
        mem := memcpyTo q.mem q.pcReadFrom item
        pcReadFrom := if pcReadFrom < q.pcHead then q.pcTail - q.uxItemSize else pcReadFrom
        uxMessagesWaiting := addw c.sizeBits uxMessagesWaiting 1 }

/-- `prvCopyDataFromQueue`, and the bytes in `pvBuffer`. -/
def prvCopyDataFromQueue (q : Queue) : Queue × List UInt8 :=
  if q.uxItemSize = 0 then (q, [])
  else
    let pcReadFrom := q.pcReadFrom + q.uxItemSize
    let q := { q with pcReadFrom := if pcReadFrom ≥ q.pcTail then q.pcHead else pcReadFrom }
    (q, memcpyFrom q.mem q.pcReadFrom q.uxItemSize)

inductive Result where
  | pdPass
  | errQueueFull
  | errQueueEmpty
  /-- `pdPASS` and the item in `pvBuffer` -/
  | item (pvBuffer : List UInt8)
  deriving DecidableEq

def xQueueGenericSend (q : Queue) (pvItemToQueue : List UInt8) (xCopyPosition : CopyPosition) :
    Option (Queue × Result) := do
  configAssert (¬ (xCopyPosition = .overwrite ∧ q.uxLength ≠ 1))
  if q.uxMessagesWaiting < q.uxLength ∨ xCopyPosition = .overwrite then
    return (prvCopyDataToQueue c q pvItemToQueue xCopyPosition, .pdPass)
  else return (q, .errQueueFull)

def xQueueReceive (q : Queue) : Queue × Result :=
  if q.uxMessagesWaiting > 0 then
    let (q, pvBuffer) := prvCopyDataFromQueue q
    ({ q with uxMessagesWaiting := q.uxMessagesWaiting - 1 }, .item pvBuffer)
  else (q, .errQueueEmpty)

def xQueuePeek (q : Queue) : Queue × Result :=
  if q.uxMessagesWaiting > 0 then
    let pcOriginalReadPosition := q.pcReadFrom
    let (q, pvBuffer) := prvCopyDataFromQueue q
    ({ q with pcReadFrom := pcOriginalReadPosition }, .item pvBuffer)
  else (q, .errQueueEmpty)

/-! ## Runs -/

inductive Op where
  | send (pvItemToQueue : List UInt8) (xCopyPosition : CopyPosition)
  | receive
  | peek
  | reset
  deriving DecidableEq

/-- One call; none where an assertion fails. -/
def step (q : Queue) : Op → Option (Queue × Result)
  | .send item p => xQueueGenericSend c q item p
  | .receive => some (xQueueReceive q)
  | .peek => some (xQueuePeek q)
  | .reset => (xQueueGenericReset c q).map fun q => (q, .pdPass)

/-- A sequence of calls and what they return. -/
def run (q : Queue) : List Op → Option (Queue × List Result)
  | [] => some (q, [])
  | op :: ops => (step c q op).bind fun r => (run r.1 ops).map fun s => (s.1, r.2 :: s.2)

end RtosKernel.FreeRTOS.Queues
