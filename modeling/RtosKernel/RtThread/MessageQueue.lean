import RtosKernel.Lib.LinkedList
import RtosKernel.Lib.Window
import RtosKernel.RtThread.Def
import RtosKernel.RtThread.IpcList

/-! # The message queue (`ipc.c`)

A pool of `max_msgs` blocks, each a `next` pointer and `msg_size` bytes. A send takes a block off the free list
in one interrupt-disabled section, fills it with interrupts enabled, and links it in a second section; a receive
unlinks, copies out and gives the block back. -/
namespace RtosKernel.RtThread.MessageQueue
open Lib.LinkedList Lib.Window
open RtThread.Def RtThread.IpcList
open Function (update)

/-- `struct rt_messagequeue` with its pool: blocks are numbered by their position,
`next` is the header of a block and `data` the bytes behind it. -/
structure RtMessagequeue (Tid : Type) where
  flag : IpcFlag
  msgSize : Nat
  maxMsgs : Nat
  entry : Nat
  msgQueueHead : Option Nat
  msgQueueTail : Option Nat
  msgQueueFree : Option Nat
  suspendThread : List Tid
  suspendSenderThread : List Tid
  next : Nat → Option Nat
  data : Nat → Nat → UInt8

variable {Tid : Type}

/-! ## Creation -/

def rtMqEntryMax : Nat := 2 ^ 16 - 1

/-- The loop that puts block `0 … n - 1` on the free list, each in front of the last: the free pointer and the
`next` pointers. -/
def freeListInit (next : Nat → Option Nat) : Nat → Option Nat × (Nat → Option Nat)
  | 0 => (none, next)
  | temp + 1 =>
    let (msgQueueFree, next) := freeListInit next temp
    (some temp, update next temp msgQueueFree)

/-- An empty queue over a pool that holds whatever it held. -/
def emptyQueue (flag : IpcFlag) (msgSize maxMsgs : Nat) (next : Nat → Option Nat)
    (data : Nat → Nat → UInt8) : RtMessagequeue Tid :=
  let (msgQueueFree, next) := freeListInit next maxMsgs
  { flag, msgSize, maxMsgs, entry := 0, msgQueueHead := none, msgQueueTail := none, msgQueueFree,
    suspendThread := [], suspendSenderThread := [], next, data }

/-- `rt_mq_init` over a pool of `poolSize` bytes. The header of a block is one
pointer; `msg_size` and `max_msgs` are `rt_uint16_t`. -/
def rtMqInit (alignSize msgSize poolSize : Nat) (flag : IpcFlag) (next : Nat → Option Nat)
    (data : Nat → Nat → UInt8) : RtMessagequeue Tid :=
  let msgSize := rtAlign msgSize alignSize % 2 ^ 16
  emptyQueue flag msgSize (poolSize / (msgSize + 4) % 2 ^ 16) next data

/-- `rt_mq_create`. `msgPool` is what `RT_KERNEL_MALLOC` returned. -/
def rtMqCreate (alignSize msgSize maxMsgs : Nat) (flag : IpcFlag) (msgPool : Option Unit)
    (next : Nat → Option Nat) (data : Nat → Nat → UInt8) : Option (RtMessagequeue Tid) := do
  let _ ← msgPool
  return emptyQueue flag (rtAlign msgSize alignSize % 2 ^ 16) (maxMsgs % 2 ^ 16) next data

inductive Created : RtMessagequeue Tid → Prop
  | init (alignSize msgSize poolSize flag next data) :
      Created (rtMqInit alignSize msgSize poolSize flag next data)
  | create {alignSize msgSize maxMsgs flag msgPool next data mq} :
      rtMqCreate alignSize msgSize maxMsgs flag msgPool next data = some mq → Created mq

/-! ## The sections -/

/-- `mq->msg_queue_free = msg->next`. -/
def moveFree (mq : RtMessagequeue Tid) (msg : Nat) : RtMessagequeue Tid :=
  { mq with msgQueueFree := mq.next msg }

/-- `rt_memcpy(msg + 1, buffer, size)`. -/
def fill (mq : RtMessagequeue Tid) (msg : Nat) (buffer : List UInt8) : RtMessagequeue Tid :=
  { mq with data := update mq.data msg (memcpy (mq.data msg) 0 buffer) }

/-- The unprotected part of a normal send. -/
def sendFill (mq : RtMessagequeue Tid) (msg : Nat) (buffer : List UInt8) : RtMessagequeue Tid :=
  fill { mq with next := update mq.next msg none } msg buffer

/-- The end of both link sections: count the message and resume a receiver. -/
def countEntry (mq : RtMessagequeue Tid) : RtMessagequeue Tid × RtErr :=
  if mq.entry < rtMqEntryMax then
    ({ mq with entry := mq.entry + 1, suspendThread := mq.suspendThread.tail }, .eok)
  else (mq, .efull)

def appendMsg (mq : RtMessagequeue Tid) (msg : Nat) : RtMessagequeue Tid :=
  { mq with
    next := match mq.msgQueueTail with
      | some tail => update mq.next tail (some msg)
      | none => mq.next
    msgQueueTail := some msg
    msgQueueHead := match mq.msgQueueHead with
      | some head => some head
      | none => some msg }

def pushMsg (mq : RtMessagequeue Tid) (msg : Nat) : RtMessagequeue Tid :=
  { mq with
    next := update mq.next msg mq.msgQueueHead
    msgQueueHead := some msg
    msgQueueTail := match mq.msgQueueTail with
      | some tail => some tail
      | none => some msg }

/-- Unlink the first message. Taking it through a null head has no result. -/
def unlinkHead (mq : RtMessagequeue Tid) : Option (Nat × RtMessagequeue Tid) := do
  let msg ← mq.msgQueueHead
  return (msg, { mq with
    msgQueueHead := mq.next msg
    msgQueueTail := if mq.msgQueueTail = some msg then none else mq.msgQueueTail })

/-- `if (mq->entry > 0) mq->entry --`. -/
def discountEntry (mq : RtMessagequeue Tid) : RtMessagequeue Tid :=
  if 0 < mq.entry then { mq with entry := mq.entry - 1 } else mq

def giveBack (mq : RtMessagequeue Tid) (msg : Nat) : RtMessagequeue Tid :=
  { mq with next := update mq.next msg mq.msgQueueFree, msgQueueFree := some msg }

/-- The loop of `rt_mq_control(RT_IPC_CMD_RESET)`. A loop that uses up its fuel
has not ended. -/
def releaseAll : Nat → RtMessagequeue Tid → Option (RtMessagequeue Tid)
  | 0, _ => none
  | fuel + 1, mq =>
    if mq.msgQueueHead = none then some mq
    else do
      let (msg, mq) ← unlinkHead mq
      releaseAll fuel (giveBack mq msg)

/-- `rt_mq_control(RT_IPC_CMD_RESET)` on the queue. -/
def resetQueue (mq : RtMessagequeue Tid) : Option (RtMessagequeue Tid) := do
  let mq ← releaseAll (mq.maxMsgs + 1) { mq with suspendThread := [], suspendSenderThread := [] }
  return { mq with entry := 0 }

/-! ## Threads -/

/-- The calls. `size` is the length of the buffer sent, or the room of the buffer
received into. -/
inductive Call
  | sendWait (buffer : List UInt8) (timeout : Int32)
  | urgent (buffer : List UInt8)
  | recv (size : Nat) (timeout : Int32)

inductive Pc
  /-- outside the queue, with what the last call returned and received -/
  | idle (ret : RtErr) (received : List UInt8)
  /-- before the first section of `rt_mq_send_wait` -/
  | sendEnter (buffer : List UInt8) (timeout : Int32)
  /-- suspended in `rt_mq_send_wait` at the tick given, or resumed from there -/
  | sendWait (buffer : List UInt8) (timeout : Int32) (tickDelta : UInt32)
  /-- owns a block that it is about to fill -/
  | sendFill (buffer : List UInt8) (msg : Nat)
  /-- owns a full block that it is about to link -/
  | sendLink (buffer : List UInt8) (msg : Nat)
  | urgentEnter (buffer : List UInt8)
  | urgentFill (buffer : List UInt8) (msg : Nat)
  | urgentLink (buffer : List UInt8) (msg : Nat)
  | recvEnter (size : Nat) (timeout : Int32)
  | recvWait (size : Nat) (timeout : Int32) (tickDelta : UInt32)
  /-- owns an unlinked block that it is about to copy out -/
  | recvCopy (size msg : Nat)
  /-- owns a block that it is about to give back -/
  | recvReturn (received : List UInt8) (msg : Nat)
  deriving DecidableEq

/-- The block a call holds privately. -/
def Pc.held : Pc → Option Nat
  | .sendFill _ msg | .sendLink _ msg => some msg
  | .urgentFill _ msg | .urgentLink _ msg => some msg
  | .recvCopy _ msg | .recvReturn _ msg => some msg
  | _ => none

/-- One queue and the threads that use it. -/
structure State (Tid : Type) where
  mq : RtMessagequeue Tid
  pc : Tid → Pc
  error : Tid → RtErr
  currentPriority : Tid → Nat
  tick : UInt32

/-- A message in the queue: the block and the bytes that were sent. -/
structure Message where
  msg : Nat
  buffer : List UInt8
  deriving DecidableEq, Repr

/-- What a section did to the queue of messages. -/
inductive Event
  | link (message : Message)
  | linkUrgent (message : Message)
  | unlink (msg : Nat)
  | reset
  deriving DecidableEq, Repr

inductive Act (Tid : Type)
  | call (t : Tid) (c : Call)
  | run (t : Tid)
  /-- the timer of a suspended thread fires -/
  | timeout (t : Tid)
  /-- `rt_mq_control(RT_IPC_CMD_RESET)` -/
  | reset
  | tick

variable [DecidableEq Tid]

def State.goto (s : State Tid) (t : Tid) (pc : Pc) : State Tid :=
  { s with pc := update s.pc t pc }

/-- `timeout` after a wait: `timeout -= rt_tick_get() - tick_delta`, cut off at 0. -/
def remaining (timeout : Int32) (now tickDelta : UInt32) : Int32 :=
  if 0 < timeout then
    let timeout := (timeout.toUInt32 - (now - tickDelta)).toInt32
    if timeout < 0 then 0 else timeout
  else timeout

/-- One round of the loop of `rt_mq_send_wait`: take a block, or suspend. -/
def sendLoop (s : State Tid) (t : Tid) (buffer : List UInt8) (timeout : Int32) : State Tid :=
  match s.mq.msgQueueFree with
  | some msg => { s with mq := moveFree s.mq msg }.goto t (.sendFill buffer msg)
  | none =>
    let s := { s with error := update s.error t .eok }
    if timeout = 0 then s.goto t (.idle .efull [])
    else
      let waiting := ipcListSuspend s.currentPriority s.mq.flag t s.mq.suspendSenderThread
      { s with mq := { s.mq with suspendSenderThread := waiting } }.goto t
        (.sendWait buffer timeout s.tick)

/-- One round of the loop of `rt_mq_recv`: unlink a message, or suspend. -/
def recvLoop (s : State Tid) (t : Tid) (size : Nat) (timeout : Int32) :
    Option (State Tid × List Event) :=
  if s.mq.entry = 0 then
    let s := { s with error := update s.error t .eok }
    if timeout = 0 then
      some ({ s with error := update s.error t .etimeout }.goto t (.idle .etimeout []), [])
    else
      let waiting := ipcListSuspend s.currentPriority s.mq.flag t s.mq.suspendThread
      some ({ s with mq := { s.mq with suspendThread := waiting } }.goto t
        (.recvWait size timeout s.tick), [])
  else do
    let (msg, mq) ← unlinkHead s.mq
    return ({ s with mq := discountEntry mq }.goto t (.recvCopy size msg), [.unlink msg])

/-- A thread enters a call: the assertions and the checks before the first
section. -/
def enter (s : State Tid) (t : Tid) : Call → State Tid
  | .sendWait buffer timeout =>
    if buffer = [] then s
    else if s.mq.msgSize < buffer.length then s.goto t (.idle .error [])
    else s.goto t (.sendEnter buffer timeout)
  | .urgent buffer =>
    if buffer = [] then s
    else if s.mq.msgSize < buffer.length then s.goto t (.idle .error [])
    else s.goto t (.urgentEnter buffer)
  | .recv size timeout =>
    if size = 0 then s
    else s.goto t (.recvEnter size timeout)

/-- A thread runs its next section. A suspended thread does not run, and `none`
is a null dereference. -/
def run (s : State Tid) (t : Tid) : Option (State Tid × List Event) :=
  match s.pc t with
  | .idle _ _ => some (s, [])
  | .sendEnter buffer timeout =>
    if s.mq.msgQueueFree = none ∧ timeout = 0 then some (s.goto t (.idle .efull []), [])
    else some (sendLoop s t buffer timeout, [])
  | .sendWait buffer timeout tickDelta =>
    if t ∈ s.mq.suspendSenderThread then some (s, [])
    else if s.error t ≠ .eok then some (s.goto t (.idle (s.error t) []), [])
    else some (sendLoop s t buffer (remaining timeout s.tick tickDelta), [])
  | .sendFill buffer msg =>
    some ({ s with mq := sendFill s.mq msg buffer }.goto t (.sendLink buffer msg), [])
  | .sendLink buffer msg =>
    let (mq, err) := countEntry (appendMsg s.mq msg)
    some ({ s with mq }.goto t (.idle err []), [.link ⟨msg, buffer⟩])
  | .urgentEnter buffer =>
    match s.mq.msgQueueFree with
    | none => some (s.goto t (.idle .efull []), [])
    | some msg => some ({ s with mq := moveFree s.mq msg }.goto t (.urgentFill buffer msg), [])
  | .urgentFill buffer msg =>
    some ({ s with mq := fill s.mq msg buffer }.goto t (.urgentLink buffer msg), [])
  | .urgentLink buffer msg =>
    let (mq, err) := countEntry (pushMsg s.mq msg)
    some ({ s with mq }.goto t (.idle err []), [.linkUrgent ⟨msg, buffer⟩])
  | .recvEnter size timeout =>
    if s.mq.entry = 0 ∧ timeout = 0 then some (s.goto t (.idle .etimeout []), [])
    else recvLoop s t size timeout
  | .recvWait size timeout tickDelta =>
    if t ∈ s.mq.suspendThread then some (s, [])
    else if s.error t ≠ .eok then some (s.goto t (.idle (s.error t) []), [])
    else recvLoop s t size (remaining timeout s.tick tickDelta)
  | .recvCopy size msg =>
    let received := (List.range (min size s.mq.msgSize)).map (s.mq.data msg)
    some (s.goto t (.recvReturn received msg), [])
  | .recvReturn received msg =>
    let mq := giveBack s.mq msg
    some ({ s with mq := { mq with suspendSenderThread := mq.suspendSenderThread.tail } }.goto t
      (.idle .eok received), [])

/-- A thread whose wait has a limit is timed out: `_thread_timeout` takes it off
the waiting list with the error set. -/
def timeout (s : State Tid) (t : Tid) : State Tid :=
  match s.pc t with
  | .sendWait _ timeout _ =>
    if t ∈ s.mq.suspendSenderThread ∧ 0 < timeout then
      { s with
        error := update s.error t .etimeout
        mq := { s.mq with suspendSenderThread := s.mq.suspendSenderThread.erase t } }
    else s
  | .recvWait _ timeout _ =>
    if t ∈ s.mq.suspendThread ∧ 0 < timeout then
      { s with
        error := update s.error t .etimeout
        mq := { s.mq with suspendThread := s.mq.suspendThread.erase t } }
    else s
  | _ => s

/-- `_ipc_list_resume_all` on both lists marks every waiting thread. -/
def resumeErrors (s : State Tid) : Tid → RtErr := fun t =>
  if t ∈ s.mq.suspendThread ∨ t ∈ s.mq.suspendSenderThread then .error else s.error t

def step (s : State Tid) : Act Tid → Option (State Tid × List Event)
  | .call t c =>
    match s.pc t with
    | .idle _ _ => some (enter s t c, [])
    | _ => some (s, [])
  | .run t => run s t
  | .timeout t => some (timeout s t, [])
  | .reset => do
    let mq ← resetQueue s.mq
    return ({ s with mq, error := resumeErrors s }, [.reset])
  | .tick => some ({ s with tick := s.tick + 1 }, [])

end RtosKernel.RtThread.MessageQueue
