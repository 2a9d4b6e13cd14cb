import RtosKernel.Lib.Runs
import RtosKernel.RtThread.MessageQueue

/-! # The mailbox (`ipc.c`)

A ring of words that is filled at `in_offset`, or before `out_offset`, and is
emptied at `out_offset`. A thread that finds the mailbox full, or empty, is
suspended on one of two lists, and looks again when it is resumed: what it was
resumed for may be gone. A step is one interrupt-disabled section. -/
namespace RtosKernel.RtThread.Mailbox
open RtThread.IpcList
open RtThread.MessageQueue (remaining)

/-- `struct rt_mailbox`. The words are not looked at. -/
structure RtMailbox (Tid V : Type) where
  flag : IpcFlag
  msgPool : Nat → V
  size : Nat
  entry : Nat
  inOffset : Nat
  outOffset : Nat
  suspendThread : List Tid
  suspendSenderThread : List Tid

variable {Tid V : Type}

def rtMbEntryMax : Nat := 2 ^ 16 - 1

/-- `rt_mb_init`, and `rt_mb_create` over the pool that it allocates. `mb->size` is a `rt_uint16_t`. -/
def rtMbInit (msgPool : Nat → V) (size : Nat) (flag : IpcFlag) : RtMailbox Tid V :=
  { flag, msgPool, size := size % 2 ^ 16, entry := 0, inOffset := 0, outOffset := 0, suspendThread := []
    suspendSenderThread := [] }

/-- Store a mail at `in_offset`, count it and resume a receiver. -/
def putMail (mb : RtMailbox Tid V) (value : V) : RtMailbox Tid V × RtErr :=
  let mb := { mb with
    msgPool := Function.update mb.msgPool mb.inOffset value
    inOffset := if mb.inOffset + 1 ≥ mb.size then 0 else mb.inOffset + 1 }
  if mb.entry < rtMbEntryMax then
    ({ mb with entry := mb.entry + 1, suspendThread := mb.suspendThread.tail }, .eok)
  else (mb, .efull)

/-- Store a mail before `out_offset`, count it and resume a receiver. -/
def putUrgent (mb : RtMailbox Tid V) (value : V) : RtMailbox Tid V :=
  let outOffset := if mb.outOffset > 0 then mb.outOffset - 1 else mb.size - 1
  { mb with
    outOffset
    msgPool := Function.update mb.msgPool outOffset value
    entry := mb.entry + 1
    suspendThread := mb.suspendThread.tail }

/-- Take the mail at `out_offset` and resume a sender. -/
def getMail (mb : RtMailbox Tid V) : V × RtMailbox Tid V :=
  (mb.msgPool mb.outOffset, { mb with
    outOffset := if mb.outOffset + 1 ≥ mb.size then 0 else mb.outOffset + 1
    entry := if mb.entry > 0 then mb.entry - 1 else mb.entry
    suspendSenderThread := mb.suspendSenderThread.tail })

/-! ## Threads -/

inductive Call (V : Type)
  | sendWait (value : V) (timeout : Int32)
  | urgent (value : V)
  | recv (timeout : Int32)

inductive Pc (V : Type)
  /-- outside the mailbox, with what the last call returned and received -/
  | idle (ret : RtErr) (received : Option V)
  /-- suspended in `rt_mb_send_wait` at the tick given, or resumed from there -/
  | sendWait (value : V) (timeout : Int32) (tickDelta : UInt32)
  /-- suspended in `rt_mb_recv` at the tick given, or resumed from there -/
  | recvWait (timeout : Int32) (tickDelta : UInt32)
  deriving DecidableEq

inductive Event (Tid V : Type)
  | sent (t : Tid) (value : V)
  | sentUrgent (t : Tid) (value : V)
  | received (t : Tid) (value : V)
  | reset
  deriving DecidableEq, Repr

/-- One mailbox and the threads that use it. -/
structure State (Tid V : Type) where
  mb : RtMailbox Tid V
  pc : Tid → Pc V
  error : Tid → RtErr
  currentPriority : Tid → Nat
  tick : UInt32
  /-- what the sections did, last first -/
  history : List (Event Tid V)

inductive Act (Tid V : Type)
  /-- an idle thread calls, and runs the first section -/
  | call (t : Tid) (c : Call V)
  | run (t : Tid)
  /-- the timer of a suspended thread fires -/
  | timeout (t : Tid)
  /-- `rt_mb_control(RT_IPC_CMD_RESET)` -/
  | reset
  | setPriority (t : Tid) (priority : Nat)
  | tick

variable [DecidableEq Tid]

def State.goto (s : State Tid V) (t : Tid) (pc : Pc V) : State Tid V :=
  { s with pc := Function.update s.pc t pc }

/-- `thread->error = err`. -/
def State.setError (s : State Tid V) (t : Tid) (err : RtErr) : State Tid V :=
  { s with error := Function.update s.error t err }

/-- One round of the loop of `rt_mb_send_wait`: store the mail, or suspend. -/
def sendLoop (s : State Tid V) (t : Tid) (value : V) (timeout : Int32) : State Tid V :=
  if s.mb.entry = s.mb.size then
    let s := s.setError t .eok
    if timeout = 0 then s.goto t (.idle .efull none)
    else
      let waiting := ipcListSuspend s.currentPriority s.mb.flag t s.mb.suspendSenderThread
      { s with mb := { s.mb with suspendSenderThread := waiting } }.goto t (.sendWait value timeout s.tick)
  else
    let r := putMail s.mb value
    { s with mb := r.1, history := if r.2 = RtErr.eok then .sent t value :: s.history else s.history }.goto t (.idle r.2 none)

/-- One round of the loop of `rt_mb_recv`: take a mail, or suspend. -/
def recvLoop (s : State Tid V) (t : Tid) (timeout : Int32) : State Tid V :=
  if s.mb.entry = 0 then
    let s := s.setError t .eok
    if timeout = 0 then (s.setError t .etimeout).goto t (.idle .etimeout none)
    else
      let waiting := ipcListSuspend s.currentPriority s.mb.flag t s.mb.suspendThread
      { s with mb := { s.mb with suspendThread := waiting } }.goto t (.recvWait timeout s.tick)
  else
    let r := getMail s.mb
    { s with mb := r.2, history := .received t r.1 :: s.history }.goto t (.idle .eok (some r.1))

def enter (s : State Tid V) (t : Tid) : Call V → State Tid V
  | .sendWait value timeout =>
    if s.mb.entry = s.mb.size ∧ timeout = 0 then s.goto t (.idle .efull none) else sendLoop s t value timeout
  | .urgent value =>
    if s.mb.entry = s.mb.size then s.goto t (.idle .efull none)
    else
      { s with mb := putUrgent s.mb value, history := .sentUrgent t value :: s.history }.goto t (.idle .eok none)
  | .recv timeout =>
    if s.mb.entry = 0 ∧ timeout = 0 then s.goto t (.idle .etimeout none) else recvLoop s t timeout

/-- What a resumed thread does next: it returns its error, or looks again. -/
def resumed (s : State Tid V) (t : Tid) : Option (State Tid V) :=
  match s.pc t with
  | .idle _ _ => none
  | .sendWait value timeout tickDelta =>
    if t ∈ s.mb.suspendSenderThread then none
    else if s.error t ≠ .eok then some (s.goto t (.idle (s.error t) none))
    else some (sendLoop s t value (remaining timeout s.tick tickDelta))
  | .recvWait timeout tickDelta =>
    if t ∈ s.mb.suspendThread then none
    else if s.error t ≠ .eok then some (s.goto t (.idle (s.error t) none))
    else some (recvLoop s t (remaining timeout s.tick tickDelta))

/-- A thread whose wait has a limit is timed out: `_thread_timeout` takes it off the list with the error set. -/
def timedOut (s : State Tid V) (t : Tid) : Option (State Tid V) :=
  match s.pc t with
  | .idle _ _ => none
  | .sendWait _ timeout _ =>
    if t ∈ s.mb.suspendSenderThread ∧ 0 < timeout then
      some ({ s with mb := { s.mb with suspendSenderThread := s.mb.suspendSenderThread.erase t } }.setError t .etimeout)
    else none
  | .recvWait timeout _ =>
    if t ∈ s.mb.suspendThread ∧ 0 < timeout then
      some ({ s with mb := { s.mb with suspendThread := s.mb.suspendThread.erase t } }.setError t .etimeout)
    else none

/-- `rt_mb_control` with `RT_IPC_CMD_RESET`: `_ipc_list_resume_all` marks every waiting thread. -/
def rtMbReset (s : State Tid V) : State Tid V :=
  { s with
    mb := { s.mb with entry := 0, inOffset := 0, outOffset := 0, suspendThread := [], suspendSenderThread := [] }
    error := fun t => if t ∈ s.mb.suspendThread ∨ t ∈ s.mb.suspendSenderThread then .error else s.error t
    history := .reset :: s.history }

/-- One step. It is an error if it cannot happen. -/
def step (s : State Tid V) : Act Tid V → Except Unit (State Tid V)
  | .call t c =>
    match s.pc t with
    | .idle _ _ => .ok (enter s t c)
    | _ => .error ()
  | .run t => (resumed s t).elim (.error ()) .ok
  | .timeout t => (timedOut s t).elim (.error ()) .ok
  | .reset => .ok (rtMbReset s)
  | .setPriority t priority => .ok { s with currentPriority := Function.update s.currentPriority t priority }
  | .tick => .ok { s with tick := s.tick + 1 }

def start (mb : RtMailbox Tid V) (error : Tid → RtErr) (currentPriority : Tid → Nat) (tick : UInt32) : State Tid V :=
  { mb, pc := fun _ => .idle .eok none, error, currentPriority, tick, history := [] }

end RtosKernel.RtThread.Mailbox
