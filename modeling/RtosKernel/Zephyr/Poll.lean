import Mathlib.Data.List.Basic
import Mathlib.Logic.Function.Basic
import RtosKernel.Lib.Runs

/-! # Polling several objects (`poll.c`)

One step is one holding of the lock of `poll.c` by a call of `k_poll`, one call of another function, or one
timeout. Every call of `k_poll` has an array of events of its own. -/
namespace RtosKernel.Zephyr.Poll
open Lib.Runs

def EINTR : Int := 4
def EAGAIN : Int := 11

def K_POLL_STATE_NOT_READY : Nat := 0
def K_POLL_STATE_SIGNALED : Nat := 1
def K_POLL_STATE_SEM_AVAILABLE : Nat := 2
def K_POLL_STATE_DATA_AVAILABLE : Nat := 4
def K_POLL_STATE_CANCELLED : Nat := 8
def K_POLL_STATE_MSGQ_DATA_AVAILABLE : Nat := 16

/-- The objects that an event can be about, with the `limit` of a semaphore and the `max_msgs` of a message queue. -/
inductive Kind where
  | sem (limit : Nat)
  | queue
  | msgq (maxMsgs : Nat)
  | signal
  deriving DecidableEq

/-- The state that `is_condition_met` stores. -/
def Kind.ready : Kind → Nat
  | .sem _ => K_POLL_STATE_SEM_AVAILABLE
  | .queue => K_POLL_STATE_DATA_AVAILABLE
  | .msgq _ => K_POLL_STATE_MSGQ_DATA_AVAILABLE
  | .signal => K_POLL_STATE_SIGNALED

/-- An object of the kernel. A node of `poll_events` is a thread and an index into its array of events. -/
structure Obj (T : Type) where
  kind : Kind
  /-- `count`, the items in `data_q`, `used_msgs` or `signaled`. -/
  avail : Nat
  /-- The threads in `wait_q`. -/
  waiting : Nat
  pollEvents : List (T × Nat)

/-- `struct k_poll_event`. The type `K_POLL_TYPE_IGNORE` is no object. -/
structure Event (O T : Type) where
  obj : Option O
  poller : Option T
  state : Nat
  deriving DecidableEq

/-- `K_NO_WAIT`, some ticks, or `K_FOREVER`. -/
inductive Timeout where
  | noWait
  | ticks
  | forever
  deriving DecidableEq

/-- Where a thread is in `k_poll`. -/
inductive Phase where
  | idle
  /-- before the section of `register_events` for the event `ii` -/
  | registering (ii : Nat)
  | pending
  /-- in `clear_event_registrations`, with the value to return -/
  | clearing (numEvents : Nat) (rc : Int)
  deriving DecidableEq

/-- A thread, with its poller and the variables of its call. -/
structure Thread (O T : Type) where
  prio : Int
  isPolling : Bool
  events : List (Event O T)
  timeout : Timeout
  eventsRegistered : Nat
  phase : Phase
  /-- What its calls have returned, the last one first. No code reads this. -/
  results : List Int

structure State (O T : Type) where
  obj : O → Obj T
  thread : T → Thread O T

variable {O T : Type} [DecidableEq O] [DecidableEq T]

def State.updateObj (s : State O T) (o : O) (f : Obj T → Obj T) : State O T :=
  { s with obj := Function.update s.obj o (f (s.obj o)) }

def State.updateThread (s : State O T) (t : T) (f : Thread O T → Thread O T) : State O T :=
  { s with thread := Function.update s.thread t (f (s.thread t)) }

/-- Positive when the first thread is more urgent. -/
def zSchedPrioCmp (s : State O T) (t₁ t₂ : T) : Int := (s.thread t₂).prio - (s.thread t₁).prio

def isConditionMet (s : State O T) (e : Event O T) : Bool :=
  match e.obj with
  | some o => decide (0 < (s.obj o).avail)
  | none => false

/-- The state that goes with a met condition. -/
def readyState (s : State O T) (e : Event O T) : Nat :=
  match e.obj with
  | some o => (s.obj o).kind.ready
  | none => K_POLL_STATE_NOT_READY

/-- `add_event`. The poller of a linked event is the thread whose array it is in. -/
def addEvent (s : State O T) (events : List (T × Nat)) (event : T × Nat) : List (T × Nat) :=
  match events.getLast? with
  | none => events ++ [event]
  | some pending =>
    if 0 < zSchedPrioCmp s pending.1 event.1 then events ++ [event]
    else
      let stays := fun pending : T × Nat => !decide (0 < zSchedPrioCmp s event.1 pending.1)
      events.takeWhile stays ++ event :: events.dropWhile stays

def registerEvent (s : State O T) (t : T) (ii : Nat) (e : Event O T) : State O T :=
  let s := match e.obj with
    | some o => s.updateObj o fun obj => { obj with pollEvents := addEvent s obj.pollEvents (t, ii) }
    | none => s
  s.updateThread t fun th => { th with events := th.events.modify ii fun e => { e with poller := some t } }

def clearEventRegistration (s : State O T) (t : T) (k : Nat) : State O T :=
  let linked := ((s.thread t).events[k]?).bind Event.obj
  let s := s.updateThread t fun th => { th with events := th.events.modify k fun e => { e with poller := none } }
  match linked with
  | some o => s.updateObj o fun obj => { obj with pollEvents := obj.pollEvents.erase (t, k) }
  | none => s

def setEventReady (s : State O T) (t : T) (k : Nat) (state : Nat) : State O T :=
  s.updateThread t fun th =>
    { th with events := th.events.modify k fun e => { e with poller := none, state := e.state ||| state } }

/-! ## Notifying -/

/-- `signal_poller`. Nothing stores `_EXPIRED`, so that `z_is_thread_timeout_expired` is false. -/
def signalPoller (s : State O T) (t : T) (state : Nat) : State O T :=
  if (s.thread t).phase = .pending then
    s.updateThread t fun th =>
      { th with
        phase := .clearing th.eventsRegistered (if state = K_POLL_STATE_CANCELLED then -EINTR else 0) }
  else s

def signalPollEvent (s : State O T) (event : T × Nat) (state : Nat) : State O T :=
  let s := match ((s.thread event.1).events[event.2]?).bind Event.poller with
    | some t => (signalPoller s t state).updateThread t fun th => { th with isPolling := false }
    | none => s
  setEventReady s event.1 event.2 state

def zHandleObjPollEvents (s : State O T) (o : O) (state : Nat) : State O T :=
  match (s.obj o).pollEvents with
  | [] => s
  | event :: rest => signalPollEvent (s.updateObj o fun obj => { obj with pollEvents := rest }) event state

/-- The start of `z_impl_k_poll`. -/
def zImplKPoll (s : State O T) (t : T) (objs : List (Option O)) (timeout : Timeout) : State O T :=
  s.updateThread t fun th =>
    { th with
      isPolling := true
      events := objs.map fun o => { obj := o, poller := none, state := K_POLL_STATE_NOT_READY }
      timeout := timeout
      eventsRegistered := 0
      phase := .registering 0 }

/-- One turn of the loop of `register_events`. -/
def registerEvents (s : State O T) (t : T) (ii : Nat) (e : Event O T) : State O T :=
  let s := if isConditionMet s e then
      (setEventReady s t ii (readyState s e)).updateThread t fun th => { th with isPolling := false }
    else if (s.thread t).timeout ≠ .noWait ∧ (s.thread t).isPolling then
      (registerEvent s t ii e).updateThread t fun th => { th with eventsRegistered := th.eventsRegistered + 1 }
    else s
  s.updateThread t fun th => { th with phase := .registering (ii + 1) }

def returns (s : State O T) (t : T) (rc : Int) : State O T :=
  s.updateThread t fun th => { th with phase := .idle, results := rc :: th.results }

/-- One section of `clear_event_registrations`. The last one finds nothing left. -/
def clearEventRegistrations (s : State O T) (t : T) (numEvents : Nat) (rc : Int) : State O T :=
  match numEvents with
  | 0 => returns s t rc
  | k + 1 => (clearEventRegistration s t k).updateThread t fun th => { th with phase := .clearing k rc }

/-- The section after `register_events`, with the first one of `clear_event_registrations`. -/
def endOfRegistration (s : State O T) (t : T) : State O T :=
  if (s.thread t).isPolling = false then clearEventRegistrations s t (s.thread t).eventsRegistered 0
  else
    let s := s.updateThread t fun th => { th with isPolling := false }
    if (s.thread t).timeout = .noWait then returns s t (-EAGAIN)
    else s.updateThread t fun th => { th with phase := .pending }

/-! ## The functions of the objects -/

def zImplKSemGive (s : State O T) (o : O) (limit : Nat) : State O T :=
  if 0 < (s.obj o).waiting then s.updateObj o fun obj => { obj with waiting := obj.waiting - 1 }
  else
    zHandleObjPollEvents
      (s.updateObj o fun obj => { obj with avail := obj.avail + if obj.avail ≠ limit then 1 else 0 }) o
      K_POLL_STATE_SEM_AVAILABLE

def zImplKSemReset (s : State O T) (o : O) : State O T :=
  zHandleObjPollEvents (s.updateObj o fun obj => { obj with waiting := 0, avail := 0 }) o
    K_POLL_STATE_SEM_AVAILABLE

/-- `queue_insert`, with whether it needs no memory or gets it. -/
def queueInsert (s : State O T) (o : O) (allocated : Bool) : State O T :=
  if 0 < (s.obj o).waiting then s.updateObj o fun obj => { obj with waiting := obj.waiting - 1 }
  else if allocated = false then s
  else
    zHandleObjPollEvents (s.updateObj o fun obj => { obj with avail := obj.avail + 1 }) o
      K_POLL_STATE_DATA_AVAILABLE

/-- `k_queue_append_list`, with the length of the list: a thread for each item is unpended, and one more. -/
def kQueueAppendList (s : State O T) (o : O) (n : Nat) : State O T :=
  zHandleObjPollEvents
    (s.updateObj o fun obj =>
      { obj with waiting := obj.waiting - (n + 1), avail := obj.avail + (n - obj.waiting) }) o
    K_POLL_STATE_DATA_AVAILABLE

def zImplKQueueCancelWait (s : State O T) (o : O) : State O T :=
  zHandleObjPollEvents (s.updateObj o fun obj => { obj with waiting := obj.waiting - 1 }) o
    K_POLL_STATE_CANCELLED

/-- `z_impl_k_msgq_put`, up to where it may wait. -/
def zImplKMsgqPut (s : State O T) (o : O) (maxMsgs : Nat) : State O T :=
  if (s.obj o).avail < maxMsgs then
    if 0 < (s.obj o).waiting then s.updateObj o fun obj => { obj with waiting := obj.waiting - 1 }
    else
      zHandleObjPollEvents (s.updateObj o fun obj => { obj with avail := obj.avail + 1 }) o
        K_POLL_STATE_MSGQ_DATA_AVAILABLE
  else s

def zImplKPollSignalRaise (s : State O T) (o : O) : State O T :=
  zHandleObjPollEvents (s.updateObj o fun obj => { obj with avail := 1 }) o K_POLL_STATE_SIGNALED

/-- What takes a unit, an item or a message; the message of a thread that waits to put one takes the place of
that. -/
def take (s : State O T) (o : O) : State O T :=
  s.updateObj o fun obj =>
    match obj.kind with
    | .msgq _ =>
      if 0 < obj.waiting then { obj with waiting := obj.waiting - 1 } else { obj with avail := obj.avail - 1 }
    | _ => { obj with avail := obj.avail - 1 }

/-! ## Steps -/

inductive Op (O T : Type) where
  /-- A thread calls `k_poll`. -/
  | kPoll (t : T) (objs : List (Option O)) (timeout : Timeout)
  /-- A thread in `k_poll` goes through its next section. -/
  | pollSection (t : T)
  /-- The timeout of a thread that waits in `k_poll`. -/
  | threadTimeout (t : T)
  | kSemGive (o : O)
  | kSemReset (o : O)
  | queueInsert (o : O) (allocated : Bool)
  | kQueueAppendList (o : O) (n : Nat)
  | kQueueCancelWait (o : O)
  | kMsgqPut (o : O)
  | kMsgqPurge (o : O)
  | kPollSignalRaise (o : O)
  | kPollSignalReset (o : O)
  | take (o : O)
  /-- A thread starts to wait on an object itself. -/
  | wait (o : O)
  /-- The timeout of a thread that waits on an object itself. -/
  | leave (o : O)
  | kThreadPrioritySet (t : T) (prio : Int)
  deriving DecidableEq

inductive Stop where
  /-- The operation is not one of this object, or it cannot happen in this state. -/
  | refused
  deriving DecidableEq

/-- The next section of a call of `k_poll`. -/
def pollSection (s : State O T) (t : T) : Except Stop (State O T) :=
  match (s.thread t).phase with
  | .registering ii =>
    match (s.thread t).events[ii]? with
    | some e => .ok (registerEvents s t ii e)
    | none => .ok (endOfRegistration s t)
  | .clearing numEvents rc => .ok (clearEventRegistrations s t numEvents rc)
  | .idle | .pending => .error .refused

def perform (s : State O T) : Op O T → Except Stop (State O T)
  | .kPoll t objs timeout =>
    if (s.thread t).phase = .idle then .ok (zImplKPoll s t objs timeout) else .error .refused
  | .pollSection t => pollSection s t
  | .threadTimeout t =>
    if (s.thread t).phase = .pending ∧ (s.thread t).timeout = .ticks then
      .ok (s.updateThread t fun th => { th with phase := .clearing th.eventsRegistered (-EAGAIN) })
    else .error .refused
  | .kSemGive o =>
    match (s.obj o).kind with
    | .sem limit => .ok (zImplKSemGive s o limit)
    | _ => .error .refused
  | .kSemReset o =>
    match (s.obj o).kind with
    | .sem _ => .ok (zImplKSemReset s o)
    | _ => .error .refused
  | .queueInsert o allocated =>
    match (s.obj o).kind with
    | .queue => .ok (queueInsert s o allocated)
    | _ => .error .refused
  | .kQueueAppendList o n =>
    match (s.obj o).kind with
    | .queue => if 0 < n then .ok (kQueueAppendList s o n) else .error .refused
    | _ => .error .refused
  | .kQueueCancelWait o =>
    match (s.obj o).kind with
    | .queue => .ok (zImplKQueueCancelWait s o)
    | _ => .error .refused
  | .kMsgqPut o =>
    match (s.obj o).kind with
    | .msgq maxMsgs => .ok (zImplKMsgqPut s o maxMsgs)
    | _ => .error .refused
  | .kMsgqPurge o =>
    match (s.obj o).kind with
    | .msgq _ => .ok (s.updateObj o fun obj => { obj with waiting := 0, avail := 0 })
    | _ => .error .refused
  | .kPollSignalRaise o =>
    match (s.obj o).kind with
    | .signal => .ok (zImplKPollSignalRaise s o)
    | _ => .error .refused
  | .kPollSignalReset o =>
    match (s.obj o).kind with
    | .signal => .ok (s.updateObj o fun obj => { obj with avail := 0 })
    | _ => .error .refused
  | .take o =>
    if (s.obj o).kind ≠ .signal ∧ 0 < (s.obj o).avail then .ok (take s o) else .error .refused
  | .wait o =>
    if (s.obj o).kind ≠ .signal ∧ ((s.obj o).avail = 0 ∨ (s.obj o).kind = .msgq (s.obj o).avail) then
      .ok (s.updateObj o fun obj => { obj with waiting := obj.waiting + 1 })
    else .error .refused
  | .leave o =>
    if 0 < (s.obj o).waiting then .ok (s.updateObj o fun obj => { obj with waiting := obj.waiting - 1 })
    else .error .refused
  | .kThreadPrioritySet t prio => .ok (s.updateThread t fun th => { th with prio := prio })

def initial (kind : O → Kind) (prio : T → Int) : State O T where
  obj o := { kind := kind o, avail := 0, waiting := 0, pollEvents := [] }
  thread t :=
    { prio := prio t
      isPolling := false
      events := []
      timeout := .noWait
      eventsRegistered := 0
      phase := .idle
      results := [] }

end RtosKernel.Zephyr.Poll
