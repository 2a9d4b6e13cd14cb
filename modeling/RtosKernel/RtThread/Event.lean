import RtosKernel.Lib.BitSet
import RtosKernel.RtThread.Def
import RtosKernel.RtThread.IpcList

/-! # Event objects (`ipc.c`)

A thread waits for bits of an event object. What it waits for, and how, is in the thread: `event_set` and
`event_info`. Every call runs with the interrupts off, up to where the thread is suspended. -/
namespace RtosKernel.RtThread.Event
open RtThread.Def RtThread.IpcList
open Function (update)

def eventFlagAnd : BitVec 8 := 0x01#8

def eventFlagOr : BitVec 8 := 0x02#8

def eventFlagClear : BitVec 8 := 0x04#8

/-- The event object, and of each thread what the calls read and write. -/
structure State (Tid : Type) where
  set : BitVec 32
  suspendThread : List Tid
  flag : IpcFlag
  currentPriority : Tid → Nat
  eventSet : Tid → BitVec 32
  eventInfo : Tid → BitVec 8
  error : Tid → RtErr
  /-- the timer of the thread is started -/
  threadTimer : Tid → Bool
  /-- the thread is inside of `rt_event_recv` -/
  receiving : Tid → Bool

variable {Tid : Type} [DecidableEq Tid]

/-- `rt_thread_resume`: the thread leaves the list and its timer is stopped. -/
def rtThreadResume (s : State Tid) (t : Tid) : State Tid :=
  { s with
    suspendThread := s.suspendThread.erase t
    threadTimer := update s.threadTimer t false }

/-- The condition is satisfied: clear the event, resume the thread. -/
def satisfy (s : State Tid) (t : Tid) : State Tid :=
  rtThreadResume (if s.eventInfo t &&& eventFlagClear ≠ 0#_ then { s with set := s.set &&& ~~~s.eventSet t } else s) t

/-- The walk of `rt_event_send` over the waiting list. -/
def sendLoop (s : State Tid) : List Tid → State Tid × RtErr
  | [] => (s, .eok)
  | t :: l =>
    if s.eventInfo t &&& eventFlagAnd ≠ 0#_ then
      if s.eventSet t &&& s.set = s.eventSet t then sendLoop (satisfy s t) l else sendLoop s l
    else if s.eventInfo t &&& eventFlagOr ≠ 0#_ then
      if s.eventSet t &&& s.set ≠ 0#_ then
        -- save the received event set
        sendLoop (satisfy { s with eventSet := update s.eventSet t (s.eventSet t &&& s.set) } t) l
      else sendLoop s l
    else (s, .einval)

def rtEventSend (s : State Tid) (set : BitVec 32) : State Tid × RtErr :=
  if set = 0#_ then (s, .error)
  else sendLoop { s with set := s.set ||| set } s.suspendThread

/-- The test of `rt_event_recv`; one of the two flags should be set. -/
def checkEventSet (eventSet set : BitVec 32) (option : BitVec 8) : Option Bool :=
  if option &&& eventFlagAnd ≠ 0#_ then some (eventSet &&& set = set)
  else if option &&& eventFlagOr ≠ 0#_ then some (eventSet &&& set ≠ 0#_)
  else none

/-- What a call returns: the error code, and the bits stored through `recved`. -/
structure Ret where
  err : RtErr
  recved : Option (BitVec 32)
  deriving DecidableEq, Repr

/-- `rt_event_recv` up to where the thread is suspended, and what it returns if it is not. -/
def rtEventRecv (s : State Tid) (t : Tid) (set : BitVec 32) (option : BitVec 8) (timeout : Int) :
    Option (State Tid × Option Ret) :=
  if set = 0#_ then some (s, some ⟨.error, none⟩)
  else do
    let s := { s with error := update s.error t .eok }
    let status ← checkEventSet s.set set option
    if status then
      let recved := s.set &&& set
      let s := { s with
        eventSet := update s.eventSet t recved
        eventInfo := update s.eventInfo t option
        set := if option &&& eventFlagClear ≠ 0#_ then s.set &&& ~~~set else s.set }
      return (s, some ⟨s.error t, some recved⟩)
    else if timeout = 0 then
      return ({ s with error := update s.error t .etimeout }, some ⟨.etimeout, none⟩)
    else
      return ({ s with
        eventSet := update s.eventSet t set
        eventInfo := update s.eventInfo t option
        suspendThread := ipcListSuspend s.currentPriority s.flag t s.suspendThread
        threadTimer := if 0 < timeout then update s.threadTimer t true else s.threadTimer
        receiving := update s.receiving t true }, none)

/-- The end of `rt_event_recv` of a thread that was suspended. -/
def rtEventRecvEnd (s : State Tid) (t : Tid) : State Tid × Ret :=
  let s := { s with receiving := update s.receiving t false }
  if s.error t ≠ .eok then (s, ⟨s.error t, none⟩) else (s, ⟨s.error t, some (s.eventSet t)⟩)

def ipcListResumeAll (s : State Tid) : List Tid → State Tid
  | [] => s
  | t :: l => ipcListResumeAll (rtThreadResume { s with error := update s.error t .error } t) l

/-- `rt_event_control` with `RT_IPC_CMD_RESET`. -/
def rtEventReset (s : State Tid) : State Tid :=
  { ipcListResumeAll s s.suspendThread with set := 0#_ }

def threadTimeout (s : State Tid) (t : Tid) : State Tid :=
  { s with
    error := update s.error t .etimeout
    suspendThread := s.suspendThread.erase t
    threadTimer := update s.threadTimer t false }

/-! ## Runs -/

/-- What can happen to the event object. -/
inductive Act (Tid : Type)
  | send (set : BitVec 32)
  | recv (t : Tid) (set : BitVec 32) (option : BitVec 8) (timeout : Int)
  /-- the timer of a suspended thread fires -/
  | timeout (t : Tid)
  /-- a thread that is resumed runs again -/
  | recvEnd (t : Tid)
  | reset
  /-- `rt_thread_control(RT_THREAD_CTRL_CHANGE_PRIORITY)` -/
  | changePriority (t : Tid) (priority : Nat)
  deriving DecidableEq

/-- One step, and the thread that returns from `rt_event_recv` with the result. None where it cannot happen or
an assertion fails. -/
def step (s : State Tid) : Act Tid → Option (State Tid × Option (Tid × Ret))
  | .send set => some ((rtEventSend s set).1, none)
  | .recv t set option timeout => if s.receiving t then none
    else (rtEventRecv s t set option timeout).map fun r => (r.1, r.2.map fun v => (t, v))
  | .timeout t => if t ∈ s.suspendThread ∧ s.threadTimer t then some (threadTimeout s t, none) else none
  | .recvEnd t => if s.receiving t ∧ t ∉ s.suspendThread then
      some ((rtEventRecvEnd s t).1, some (t, (rtEventRecvEnd s t).2))
    else none
  | .reset => some (rtEventReset s, none)
  | .changePriority t priority =>
    some ({ s with currentPriority := update s.currentPriority t priority }, none)

/-- A sequence of steps, and the calls that return. -/
def run (s : State Tid) : List (Act Tid) → Option (State Tid × List (Tid × Ret))
  | [] => some (s, [])
  | a :: as => (step s a).bind fun r => (run r.1 as).map fun q => (q.1, r.2.toList ++ q.2)

/-- `rt_event_init`, with the threads as they are. -/
def rtEventInit (flag : IpcFlag) (s : State Tid) : State Tid :=
  { s with set := 0#_, suspendThread := [], flag, receiving := fun _ => false }

end RtosKernel.RtThread.Event
