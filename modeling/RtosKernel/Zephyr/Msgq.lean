import RtosKernel.Lib.Window
import RtosKernel.Zephyr.WaitQ

/-! # Message queues (`msg_q.c`)

Messages of `msg_size` bytes are kept in a ring. Threads that find no space and threads
that find no message wait in one wait queue, with `swap_data` pointing to their own
message. A call that waits is cut there: what it returns is set by whoever wakes it. -/
namespace RtosKernel.Zephyr.Msgq
open Lib.Window Zephyr.WaitQ

abbrev Msg := List UInt8

def eagain : Int := -11
def enomsg : Int := -35

/-- `struct k_msgq`; pointers are offsets from `buffer_start`. -/
structure KMsgq (T : Type) where
  msgSize : Nat
  maxMsgs : Nat
  buffer : Nat → UInt8
  bufferEnd : Nat
  readPtr : Nat
  writePtr : Nat
  usedMsgs : Nat
  waitQ : List T

inductive Call where
  | put
  | get
  deriving DecidableEq

/-- Where a thread is: in no call, waiting in one, or woken up with what the call will return. -/
inductive Phase where
  | idle
  | pending (call : Call)
  | ready (call : Call) (ret : Int)
  deriving DecidableEq

structure System (T : Type) where
  msgq : KMsgq T
  prio : T → Int
  /-- The bytes at `swap_data`. -/
  swapData : T → Msg
  phase : T → Phase

inductive Obs (T : Type) where
  | putBegan (thread : T) (data : Msg)
  | putEnded (thread : T) (ret : Int)
  | getBegan (thread : T)
  | getEnded (thread : T) (ret : Int) (data : Msg)
  | accepted (thread : T) (data : Msg)
  | delivered (thread : T) (data : Msg)
  | peeked (ret : Int) (data : Msg)
  | purged
  deriving DecidableEq

variable {T : Type} [DecidableEq T]

def kMsgqInit (buffer : Nat → UInt8) (msgSize maxMsgs : Nat) : KMsgq T :=
  { msgSize, maxMsgs, buffer, bufferEnd := maxMsgs * msgSize, readPtr := 0, writePtr := 0, usedMsgs := 0, waitQ := [] }

/-- `msg_size` bytes from a place of the ring on. -/
def memcpyFrom (buffer : Nat → UInt8) (off msgSize : Nat) : Msg := (List.range msgSize).map fun i => buffer (off + i)

/-- Go on by one message, and back to the start at the end. -/
def KMsgq.next (q : KMsgq T) (p : Nat) : Nat := if p + q.msgSize = q.bufferEnd then 0 else p + q.msgSize

def KMsgq.write (q : KMsgq T) (data : Msg) : KMsgq T :=
  { q with buffer := memcpy q.buffer q.writePtr data, writePtr := q.next q.writePtr, usedMsgs := q.usedMsgs + 1 }

def KMsgq.first (q : KMsgq T) : Msg := memcpyFrom q.buffer q.readPtr q.msgSize

/-- Take the first message out of the ring. -/
def KMsgq.read (q : KMsgq T) : KMsgq T := { q with readPtr := q.next q.readPtr, usedMsgs := q.usedMsgs - 1 }

def System.setPhase (s : System T) (t : T) (p : Phase) : System T := { s with phase := Function.update s.phase t p }

def System.setSwapData (s : System T) (t : T) (data : Msg) : System T :=
  { s with swapData := Function.update s.swapData t data }

/-- `z_pend_curr`, up to the swap. -/
def System.zPendCurr (s : System T) (t : T) (call : Call) : System T :=
  { s.setPhase t (.pending call) with msgq := { s.msgq with waitQ := zPriqDumbAdd s.prio t s.msgq.waitQ } }

/-- Take a thread out of the wait queue and make it ready with a return value. -/
def System.unpend (s : System T) (t : T) (ret : Int) : System T :=
  match s.phase t with
  | .pending call => { s.setPhase t (.ready call ret) with msgq := { s.msgq with waitQ := s.msgq.waitQ.erase t } }
  | _ => s

/-- `z_impl_k_msgq_put`, up to where it waits. -/
def kMsgqPut (s : System T) (t : T) (data : Msg) (noWait : Bool) : System T × List (Obs T) :=
  if s.msgq.usedMsgs < s.msgq.maxMsgs then
    match zPriqDumbBest s.msgq.waitQ with
    | some pendingThread =>
      -- give the message to the waiting thread
      ((s.setSwapData pendingThread data).unpend pendingThread 0,
        [.accepted t data, .delivered pendingThread data, .putEnded t 0])
    | none => ({ s with msgq := s.msgq.write data }, [.accepted t data, .putEnded t 0])
  else if noWait then (s, [.putEnded t enomsg])
  else ((s.setSwapData t data).zPendCurr t .put, [])

/-- `z_impl_k_msgq_get`, up to where it waits. -/
def kMsgqGet (s : System T) (t : T) (buf : Msg) (noWait : Bool) : System T × List (Obs T) :=
  if s.msgq.usedMsgs > 0 then
    let data := s.msgq.first
    let s := { s with msgq := s.msgq.read }
    match zPriqDumbBest s.msgq.waitQ with
    | some pendingThread =>
      -- add the waiting thread's message to the queue
      let s := { s with msgq := s.msgq.write (s.swapData pendingThread) }
      (s.unpend pendingThread 0,
        [.delivered t data, .accepted pendingThread (s.swapData pendingThread), .getEnded t 0 data])
    | none => (s, [.delivered t data, .getEnded t 0 data])
  else if noWait then (s, [.getEnded t enomsg buf])
  else ((s.setSwapData t buf).zPendCurr t .get, [])

def kMsgqPeek (s : System T) (buf : Msg) : Obs T :=
  if s.msgq.usedMsgs > 0 then .peeked 0 s.msgq.first else .peeked enomsg buf

/-- The loop of `z_impl_k_msgq_purge`, over the threads that wait. -/
def wakeAll (s : System T) : List T → System T
  | [] => s
  | pendingThread :: pq => wakeAll (s.unpend pendingThread enomsg) pq

def kMsgqPurge (s : System T) : System T :=
  let s := wakeAll s s.msgq.waitQ
  { s with msgq := { s.msgq with usedMsgs := 0, readPtr := s.msgq.writePtr } }

inductive Event (T : Type) where
  | put (thread : T) (data : Msg) (noWait : Bool)
  | get (thread : T) (buf : Msg) (noWait : Bool)
  | peek (thread : T) (buf : Msg)
  | purge (thread : T)
  /-- `z_thread_timeout` of a waiting thread. -/
  | timeout (thread : T)
  /-- A thread that was woken up runs again and its call returns. -/
  | resume (thread : T)
  | setPrio (thread : T) (prio : Int)
  deriving DecidableEq

/-- One event; `none` if it cannot happen in this state. -/
def step (s : System T) : Event T → Option (System T × List (Obs T))
  | .put t data noWait =>
    if s.phase t = .idle ∧ data.length = s.msgq.msgSize then
      let (s, os) := kMsgqPut s t data noWait
      some (s, .putBegan t data :: os)
    else none
  | .get t buf noWait =>
    if s.phase t = .idle ∧ buf.length = s.msgq.msgSize then
      let (s, os) := kMsgqGet s t buf noWait
      some (s, .getBegan t :: os)
    else none
  | .peek t buf =>
    if s.phase t = .idle ∧ buf.length = s.msgq.msgSize then some (s, [kMsgqPeek s buf]) else none
  | .purge t => if s.phase t = .idle then some (kMsgqPurge s, [.purged]) else none
  | .timeout t =>
    match s.phase t with
    | .pending _ => some (s.unpend t eagain, [])
    | _ => none
  | .resume t =>
    match s.phase t with
    | .ready .put ret => some (s.setPhase t .idle, [.putEnded t ret])
    | .ready .get ret => some (s.setPhase t .idle, [.getEnded t ret (s.swapData t)])
    | _ => none
  | .setPrio t prio => some ({ s with prio := Function.update s.prio t prio }, [])

/-- A run of events, with all that is seen. -/
def run (s : System T) : List (Event T) → Option (System T × List (Obs T))
  | [] => some (s, [])
  | e :: es => do
    let (s, os) ← step s e
    let (s, os') ← run s es
    return (s, os ++ os')

def start (msgq : KMsgq T) (prio : T → Int) : System T :=
  { msgq, prio, swapData := fun _ => [], phase := fun _ => .idle }

end RtosKernel.Zephyr.Msgq
