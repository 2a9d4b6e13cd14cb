import RtosKernel.Lib.Window
import RtosKernel.Zephyr.WaitQ

/-! # Pipes (`pipes.c`)

A pipe has a circular buffer, and two wait queues: of readers and of writers. A call copies
while the scheduler is locked, so that only timeouts can come in between, and is cut where
it waits. `num_bytes_written` and `num_bytes_read` of a call are kept in its descriptor from
the start: `buffer` is how far into the data the call has come, and `bytes_to_xfer` is what
is left. -/
namespace RtosKernel.Zephyr.Pipes
open Lib.Window Zephyr.WaitQ

def eio : Int := -5
def eagain : Int := -11
def einval : Int := -22

inductive Call where
  | put
  | get
  deriving DecidableEq

/-- `k_timeout_t`. -/
inductive KTimeout where
  | noWait
  | ticks
  | forever
  deriving DecidableEq

/-- `struct k_pipe`. In `wait_q`, readers are at `.get` and writers at `.put`. -/
structure KPipe (T : Type) where
  buffer : Nat → UInt8
  size : Nat
  bytesUsed : Nat
  readIndex : Nat
  writeIndex : Nat
  waitQ : Call → List T

/-- `struct k_pipe_desc`, with a place in the data of the call for the pointer. -/
structure KPipeDesc where
  buffer : Nat
  bytesToXfer : Nat

/-- A call of `k_pipe_put` or `k_pipe_get`. -/
structure Request where
  call : Call
  /-- The memory at `data`. -/
  data : Nat → UInt8
  bytes : Nat
  minXfer : Nat
  timeout : KTimeout
  pipeDesc : KPipeDesc
  /-- The memory at `data` when the call began. -/
  before : Nat → UInt8
  /-- How much had been moved in calls of this kind when the call began. -/
  mark : Nat

inductive Phase where
  | idle
  | running
  | pending
  /-- Taken out of the wait queue, and not ready yet. -/
  | unpended
  | ready
  deriving DecidableEq

/-- A call that has returned `ret`. -/
structure Returned (T : Type) where
  thread : T
  request : Request
  /-- What was taken from the caller by a put, or copied out to the caller by a get. -/
  moved : List UInt8
  /-- What the call stored at `bytes_written` or `bytes_read`, if anything. -/
  stored : Option Nat
  ret : Int

structure System (T : Type) where
  pipe : KPipe T
  prio : T → Int
  phase : T → Phase
  request : T → Request
  /-- All bytes taken in from writers, and all copied out to readers, each with the thread whose call it was in. -/
  log : Call → List (T × UInt8)
  results : List (Returned T)

variable {T : Type} [DecidableEq T]

/-! ## Copying -/

def bytesAt (mem : Nat → UInt8) (off n : Nat) : List UInt8 := (List.range n).map fun i => mem (off + i)

def pipeXfer (dest : Nat → UInt8) (destOff destSize : Nat) (src : Nat → UInt8) (srcOff srcSize : Nat) :
    (Nat → UInt8) × Nat :=
  let numBytes := min destSize srcSize
  (memcpy dest destOff (bytesAt src srcOff numBytes), numBytes)

/-- One pass through the loop of `pipe_buffer_put`. -/
def putRun (pipe : KPipe T) (src : Nat → UInt8) (off srcSize : Nat) : KPipe T × Nat :=
  let runLength := min (pipe.size - pipe.bytesUsed) (pipe.size - pipe.writeIndex)
  let (buffer, bytesCopied) := pipeXfer pipe.buffer pipe.writeIndex runLength src off srcSize
  let writeIndex := pipe.writeIndex + bytesCopied
  ({ pipe with
      buffer
      bytesUsed := pipe.bytesUsed + bytesCopied
      writeIndex := if writeIndex = pipe.size then 0 else writeIndex }, bytesCopied)

def pipeBufferPut (pipe : KPipe T) (src : Nat → UInt8) (off srcSize : Nat) : KPipe T × Nat :=
  let (pipe, n) := putRun pipe src off srcSize
  let (pipe, n') := putRun pipe src (off + n) (srcSize - n)
  (pipe, n + n')

/-- One pass through the loop of `pipe_buffer_get`. -/
def getRun (pipe : KPipe T) (dest : Nat → UInt8) (off destSize : Nat) : KPipe T × (Nat → UInt8) × Nat :=
  let runLength := min pipe.bytesUsed (pipe.size - pipe.readIndex)
  let (dest, bytesCopied) := pipeXfer dest off destSize pipe.buffer pipe.readIndex runLength
  let readIndex := pipe.readIndex + bytesCopied
  ({ pipe with
      bytesUsed := pipe.bytesUsed - bytesCopied
      readIndex := if readIndex = pipe.size then 0 else readIndex }, dest, bytesCopied)

def pipeBufferGet (pipe : KPipe T) (dest : Nat → UInt8) (off destSize : Nat) : KPipe T × (Nat → UInt8) × Nat :=
  let (pipe, dest, n) := getRun pipe dest off destSize
  let (pipe, dest, n') := getRun pipe dest (off + n) (destSize - n)
  (pipe, dest, n + n')

/-- A call has moved `bs`, and its data is `data` now. -/
def System.advance (s : System T) (t : T) (data : Nat → UInt8) (bs : List UInt8) : System T :=
  let r := s.request t
  let pipeDesc :=
    { buffer := r.pipeDesc.buffer + bs.length, bytesToXfer := r.pipeDesc.bytesToXfer - bs.length }
  { s with
    request := Function.update s.request t { r with data, pipeDesc }
    log := Function.update s.log r.call (s.log r.call ++ bs.map (t, ·)) }

/-- Copy from the data of a writer to the data of a reader. -/
def System.xfer (s : System T) (writer reader : T) : System T :=
  let src := s.request writer
  let dest := s.request reader
  let (data, bytesCopied) := pipeXfer dest.data dest.pipeDesc.buffer dest.pipeDesc.bytesToXfer
    src.data src.pipeDesc.buffer src.pipeDesc.bytesToXfer
  let bs := bytesAt src.data src.pipeDesc.buffer bytesCopied
  (s.advance writer src.data bs).advance reader data bs

/-- Copy from the data of a writer to the circular buffer. -/
def System.bufferPut (s : System T) (writer : T) : System T :=
  let src := s.request writer
  let (pipe, bytesCopied) := pipeBufferPut s.pipe src.data src.pipeDesc.buffer src.pipeDesc.bytesToXfer
  { s with pipe }.advance writer src.data (bytesAt src.data src.pipeDesc.buffer bytesCopied)

/-- Copy from the circular buffer to the data of a reader. -/
def System.bufferGet (s : System T) (reader : T) : System T :=
  let dest := s.request reader
  let (pipe, data, bytesCopied) := pipeBufferGet s.pipe dest.data dest.pipeDesc.buffer dest.pipeDesc.bytesToXfer
  { s with pipe }.advance reader data (bytesAt data dest.pipeDesc.buffer bytesCopied)

def System.setPhase (s : System T) (t : T) (p : Phase) : System T := { s with phase := Function.update s.phase t p }

def System.setWaitQ (s : System T) (c : Call) (q : List T) : System T :=
  { s with pipe := { s.pipe with waitQ := Function.update s.pipe.waitQ c q } }

def System.zReadyThread (s : System T) (t : T) : System T := s.setPhase t .ready

def System.zUnpendThread (s : System T) (t : T) : System T :=
  let c := (s.request t).call
  (s.setWaitQ c ((s.pipe.waitQ c).erase t)).setPhase t .unpended

/-- `z_pend_curr`, up to the swap. -/
def System.zPendCurr (s : System T) (t : T) : System T :=
  let c := (s.request t).call
  (s.setWaitQ c (zPriqDumbAdd s.prio t (s.pipe.waitQ c))).setPhase t .pending

/-- `z_thread_timeout`, if the timeout of the thread can fire. -/
def System.zThreadTimeout (s : System T) (t : T) : System T :=
  if s.phase t = .pending ∧ (s.request t).timeout = .ticks then (s.zUnpendThread t).zReadyThread t else s

def System.timeouts (s : System T) : List T → System T
  | [] => s
  | t :: expired => (s.zThreadTimeout t).timeouts expired

def System.moved (s : System T) (t : T) (r : Request) : List UInt8 :=
  (((s.log r.call).drop r.mark).filter (·.1 = t)).map (·.2)

def System.returns (s : System T) (t : T) (r : Request) (stored : Option Nat) (ret : Int) : System T :=
  { s with
    phase := Function.update s.phase t .idle
    results := s.results ++ [{ thread := t, request := r, moved := s.moved t r, stored, ret }] }

/-- The first loop of `pipe_xfer_prepare`: how much a wait queue asks for, up to the request. `w` is the number
of bits of a `size_t`. -/
def numRequested (w bytesToXfer : Nat) (need : T → Nat) (numBytes : Nat) : List T → Nat
  | [] => numBytes
  | thread :: waitQ =>
    let numBytes := (numBytes + need thread) % 2 ^ w
    if numBytes ≥ bytesToXfer then numBytes else numRequested w bytesToXfer need numBytes waitQ

/-- The second loop of `pipe_xfer_prepare`: `xfer_list` and `waiter`. -/
def workingSet (w bytesToXfer : Nat) (need : T → Nat) (numBytes : Nat) : List T → List T × Option T
  | [] => ([], none)
  | thread :: waitQ =>
    let numBytes := (numBytes + need thread) % 2 ^ w
    if numBytes > bytesToXfer then ([], some thread)
    else
      let (xferList, waiter) := workingSet w bytesToXfer need numBytes waitQ
      (thread :: xferList, waiter)

/-- The threads of the working set leave the wait queue. -/
def System.unpendAll (s : System T) : List T → System T
  | [] => s
  | thread :: xferList => (s.zUnpendThread thread).unpendAll xferList

/-- `bytes_to_xfer` in the descriptor at `swap_data`. -/
def System.need (s : System T) (t : T) : Nat := (s.request t).pipeDesc.bytesToXfer

/-- `pipe_xfer_prepare`, for the wait queue of the calls of kind `c`. -/
def pipeXferPrepare (w : Nat) (s : System T) (c : Call) (pipeSpace bytesToXfer minXfer : Nat) (timeout : KTimeout) :
    Option (System T × List T × Option T) :=
  if timeout = .noWait ∧ (numRequested w bytesToXfer s.need 0 (s.pipe.waitQ c) + pipeSpace) % 2 ^ w < minXfer then none
  else
    let (xferList, waiter) := workingSet w bytesToXfer s.need 0 (s.pipe.waitQ c)
    some (s.unpendAll xferList, xferList, waiter)

def pipeReturnCode (minXfer bytesRemaining bytesRequested : Nat) : Int :=
  if bytesRequested - bytesRemaining ≥ minXfer then 0 else eagain

/-! ## The calls -/

/-- The arguments of a call; nothing is moved yet. -/
def System.newRequest (s : System T) (call : Call) (data : Nat → UInt8) (bytes minXfer : Nat) (timeout : KTimeout) :
    Request :=
  { call, data, bytes, minXfer, timeout
    pipeDesc := { buffer := 0, bytesToXfer := bytes }
    before := data
    mark := (s.log call).length }

/-- The call goes on with its working set. -/
def System.begin (s : System T) (t : T) (r : Request) : System T :=
  { s with request := Function.update s.request t r }.setPhase t .running

/-- The end of a call that did not move all: `bytes_written` or `bytes_read`, and the return value. -/
def System.leave (s : System T) (t : T) : System T :=
  let r := s.request t
  s.returns t r (some (r.bytes - r.pipeDesc.bytesToXfer)) (pipeReturnCode r.minXfer r.pipeDesc.bytesToXfer r.bytes)

/-- What both calls do after copying, up to where they wait. -/
def System.finish (s : System T) (t : T) : System T :=
  let r := s.request t
  let numBytes := r.pipeDesc.buffer
  if numBytes = r.bytes then s.returns t r (some numBytes) 0
  else if r.timeout ≠ .noWait ∧ numBytes ≥ r.minXfer ∧ r.minXfer > 0 then s.returns t r (some numBytes) 0
  else if r.timeout ≠ .noWait then s.zPendCurr t
  else s.leave t

def System.putToReaders (s : System T) (t : T) : List T → System T
  | [] => s
  | thread :: xferList => ((s.xfer t thread).zReadyThread thread).putToReaders t xferList

/-- Copy to the reader that was left on the wait queue. -/
def System.putToWaiter (s : System T) (t : T) : Option T → System T
  | some reader => s.xfer t reader
  | none => s

/-- `z_impl_k_pipe_put`, up to where it waits. While it copies, the timeouts of `expired` fire. -/
def kPipePut (w : Nat) (s : System T) (t : T) (data : Nat → UInt8) (bytesToWrite minXfer : Nat)
    (timeout : KTimeout) (expired : List T) : System T :=
  let r := s.newRequest .put data bytesToWrite minXfer timeout
  if minXfer > bytesToWrite then s.returns t r none einval
  else
    match pipeXferPrepare w s .get (s.pipe.size - s.pipe.bytesUsed) bytesToWrite minXfer timeout with
    | none => s.returns t r (some 0) eio
    | some (s, xferList, reader) =>
      let s := ((s.begin t r).timeouts expired).putToReaders t xferList
      let s := s.putToWaiter t reader
      (s.bufferPut t).finish t

/-- Copy from the working writers until the request is satisfied; the rest of them is left. -/
def System.getFromWriters (s : System T) (t : T) : List T → System T × List T
  | [] => (s, [])
  | thread :: xferList =>
    if (s.request t).pipeDesc.buffer < (s.request t).bytes then
      let s := s.xfer thread t
      if (s.request t).pipeDesc.buffer = (s.request t).bytes then (s, thread :: xferList)
      else (s.zReadyThread thread).getFromWriters t xferList
    else (s, thread :: xferList)

/-- Copy from the writer that was left on the wait queue, if the request is not satisfied. -/
def System.getFromWaiter (s : System T) (t : T) : Option T → System T
  | some writer => if (s.request t).pipeDesc.buffer < (s.request t).bytes then s.xfer writer t else s
  | none => s

/-- Copy from the rest of the working writers to the circular buffer. -/
def System.refill (s : System T) : List T → System T
  | [] => s
  | thread :: xferList => ((s.bufferPut thread).zReadyThread thread).refill xferList

/-- Copy from the writer that was left on the wait queue to the circular buffer. -/
def System.refillFromWaiter (s : System T) : Option T → System T
  | some writer => s.bufferPut writer
  | none => s

/-- `pipe_get_internal`, up to where it waits. While it copies, the timeouts of `expired` fire. -/
def pipeGetInternal (w : Nat) (s : System T) (t : T) (data : Nat → UInt8) (bytesToRead minXfer : Nat)
    (timeout : KTimeout) (expired : List T) : System T :=
  let r := s.newRequest .get data bytesToRead minXfer timeout
  match pipeXferPrepare w s .put s.pipe.bytesUsed bytesToRead minXfer timeout with
  | none => s.returns t r (some 0) eio
  | some (s, xferList, writer) =>
    let s := ((s.begin t r).timeouts expired).bufferGet t
    let (s, xferList) := s.getFromWriters t xferList
    let s := s.getFromWaiter t writer
    let s := (s.refill xferList).refillFromWaiter writer
    s.finish t

/-- `z_impl_k_pipe_get`, up to where it waits. -/
def kPipeGet (w : Nat) (s : System T) (t : T) (data : Nat → UInt8) (bytesToRead minXfer : Nat)
    (timeout : KTimeout) (expired : List T) : System T :=
  if minXfer > bytesToRead then
    s.returns t (s.newRequest .get data bytesToRead minXfer timeout) none einval
  else pipeGetInternal w s t data bytesToRead minXfer timeout expired

inductive Event (T : Type) where
  | put (thread : T) (data : Nat → UInt8) (bytesToWrite minXfer : Nat) (timeout : KTimeout) (expired : List T)
  | get (thread : T) (data : Nat → UInt8) (bytesToRead minXfer : Nat) (timeout : KTimeout) (expired : List T)
  | timeout (thread : T)
  /-- A thread that was made ready runs again, and its call returns. -/
  | resume (thread : T)
  | setPrio (thread : T) (prio : Int)

/-- One event; `none` if it cannot happen in this state. -/
def step (w : Nat) (s : System T) : Event T → Option (System T)
  | .put t data bytes minXfer timeout expired =>
    if s.phase t = .idle then some (kPipePut w s t data bytes minXfer timeout expired) else none
  | .get t data bytes minXfer timeout expired =>
    if s.phase t = .idle then some (kPipeGet w s t data bytes minXfer timeout expired) else none
  | .timeout t => some (s.zThreadTimeout t)
  | .resume t => if s.phase t = .ready then some (s.leave t) else none
  | .setPrio t prio => some { s with prio := Function.update s.prio t prio }

def run (w : Nat) (s : System T) : List (Event T) → Option (System T)
  | [] => some s
  | e :: es => (step w s e).bind fun s => run w s es

def kPipeInit (buffer : Nat → UInt8) (size : Nat) : KPipe T :=
  { buffer, size, bytesUsed := 0, readIndex := 0, writeIndex := 0, waitQ := fun _ => [] }

def start (pipe : KPipe T) (prio : T → Int) (request : T → Request) : System T :=
  { pipe, prio, phase := fun _ => .idle, request, log := fun _ => [], results := [] }

end RtosKernel.Zephyr.Pipes
