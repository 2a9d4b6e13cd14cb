import RtosKernel.Lib.Runs
import RtosKernel.RtThread.IpcList

/-! # The data queue (`dataqueue.c`)

A ring of items whose indices are bit fields of 15 bits, with a flag that says that it is empty and one that
says that it is full. A step is one interrupt-disabled section; `rt_data_queue_reset` has one for the indices
and one for each thread that it resumes, and it tests the lists outside of them. -/
namespace RtosKernel.RtThread.DataQueue
open RtThread.IpcList

/-- `struct rt_data_queue`. An item is a pointer and a size, which are not looked at. -/
structure RtDataQueue (Tid V : Type) where
  size : Nat
  lwm : Nat
  getIndex : Nat
  isEmpty : Bool
  putIndex : Nat
  isFull : Bool
  queue : Nat → V
  suspendedPushList : List Tid
  suspendedPopList : List Tid

variable {Tid V : Type}

/-- `rt_data_queue_init`: `size` and `lwm` are `rt_uint16_t`. -/
def rtDataQueueInit (queue : Nat → V) (size lwm : Nat) : RtDataQueue Tid V :=
  { size := size % 2 ^ 16, lwm := lwm % 2 ^ 16, getIndex := 0, isEmpty := true, putIndex := 0, isFull := false, queue
    suspendedPushList := [], suspendedPopList := [] }

/-- `index += 1; if (index == size) index = 0`, in a field of 15 bits. -/
def nextIndex (size index : Nat) : Nat :=
  let index := (index + 1) % 2 ^ 15
  if index = size then 0 else index

/-- `rt_data_queue_len`: a `rt_int16_t` that is returned as a `rt_uint16_t`. -/
def rtDataQueueLen (q : RtDataQueue Tid V) : Nat :=
  if q.isEmpty then 0
  else if q.putIndex > q.getIndex then q.putIndex - q.getIndex
  else (q.size + q.putIndex + 2 ^ 16 - q.getIndex) % 2 ^ 16

/-- Store an item and resume a popper. -/
def pushItem (q : RtDataQueue Tid V) (item : V) : RtDataQueue Tid V :=
  let putIndex := nextIndex q.size q.putIndex
  { q with
    queue := Function.update q.queue q.putIndex item
    putIndex
    isEmpty := false
    isFull := if putIndex = q.getIndex then true else q.isFull
    suspendedPopList := q.suspendedPopList.tail }

/-- Take an item, and resume a pusher if no more than `lwm` are left. -/
def popItem (q : RtDataQueue Tid V) : V × RtDataQueue Tid V :=
  let getIndex := nextIndex q.size q.getIndex
  let q' := { q with getIndex, isFull := false, isEmpty := if q.putIndex = getIndex then true else q.isEmpty }
  (q.queue q.getIndex,
    if rtDataQueueLen q' ≤ q'.lwm then { q' with suspendedPushList := q'.suspendedPushList.tail } else q')

/-- The first section of `rt_data_queue_reset`. -/
def resetIndices (q : RtDataQueue Tid V) : RtDataQueue Tid V :=
  { q with getIndex := 0, putIndex := 0, isEmpty := true, isFull := false }

/-! ## Threads -/

inductive Call (V : Type)
  | push (item : V) (timeout : Int32)
  | pop (timeout : Int32)
  | reset

inductive Pc (V : Type)
  /-- outside the queue, with what the last call returned and received -/
  | idle (ret : RtErr) (received : Option V)
  /-- suspended in `rt_data_queue_push`, or resumed from there -/
  | pushWait (item : V) (timeout : Int32)
  /-- suspended in `rt_data_queue_pop`, or resumed from there -/
  | popWait (timeout : Int32)
  /-- about to test the list of the poppers, and to resume one of them -/
  | resetPopTest
  | resetPop
  /-- about to test the list of the pushers, and to resume one of them -/
  | resetPushTest
  | resetPush
  deriving DecidableEq

inductive Event (Tid V : Type)
  | pushed (t : Tid) (item : V)
  | popped (t : Tid) (item : V)
  | reset
  deriving DecidableEq, Repr

/-- One queue and the threads that use it. -/
structure State (Tid V : Type) where
  q : RtDataQueue Tid V
  pc : Tid → Pc V
  error : Tid → RtErr
  /-- what the sections did, last first -/
  history : List (Event Tid V)

inductive Act (Tid V : Type)
  /-- an idle thread calls, and runs the first section -/
  | call (t : Tid) (c : Call V)
  | run (t : Tid)
  /-- the timer of a suspended thread fires -/
  | timeout (t : Tid)

inductive Stop
  /-- the step cannot happen: the thread is elsewhere, or suspended -/
  | notNow
  /-- `rt_list_entry` of an empty list -/
  | emptyList
  deriving DecidableEq, Repr

variable [DecidableEq Tid]

def State.goto (s : State Tid V) (t : Tid) (pc : Pc V) : State Tid V :=
  { s with pc := Function.update s.pc t pc }

/-- `thread->error = err`. -/
def State.setError (s : State Tid V) (t : Tid) (err : RtErr) : State Tid V :=
  { s with error := Function.update s.error t err }

/-- One round of the loop of `rt_data_queue_push`: store the item, or suspend. -/
def pushLoop (s : State Tid V) (t : Tid) (item : V) (timeout : Int32) : State Tid V :=
  if s.q.isFull then
    if timeout = 0 then s.goto t (.idle .etimeout none)
    else
      let q := { s.q with suspendedPushList := s.q.suspendedPushList ++ [t] }
      { s.setError t .eok with q }.goto t (.pushWait item timeout)
  else { s with q := pushItem s.q item, history := .pushed t item :: s.history }.goto t (.idle .eok none)

/-- One round of the loop of `rt_data_queue_pop`: take an item, or suspend. -/
def popLoop (s : State Tid V) (t : Tid) (timeout : Int32) : State Tid V :=
  if s.q.isEmpty then
    if timeout = 0 then s.goto t (.idle .etimeout none)
    else
      let q := { s.q with suspendedPopList := s.q.suspendedPopList ++ [t] }
      { s.setError t .eok with q }.goto t (.popWait timeout)
  else
    let r := popItem s.q
    { s with q := r.2, history := .popped t r.1 :: s.history }.goto t (.idle .eok (some r.1))

def enter (s : State Tid V) (t : Tid) : Call V → State Tid V
  | .push item timeout => pushLoop s t item timeout
  | .pop timeout => popLoop s t timeout
  | .reset => { s with q := resetIndices s.q, history := .reset :: s.history }.goto t .resetPopTest

def runOn (s : State Tid V) (t : Tid) : Except Stop (State Tid V) :=
  match s.pc t with
  | .idle _ _ => .error .notNow
  | .pushWait item timeout =>
    if t ∈ s.q.suspendedPushList then .error .notNow
    else if s.error t ≠ .eok then .ok (s.goto t (.idle (s.error t) none))
    else .ok (pushLoop s t item timeout)
  | .popWait timeout =>
    if t ∈ s.q.suspendedPopList then .error .notNow
    else if s.error t ≠ .eok then .ok (s.goto t (.idle (s.error t) none))
    else .ok (popLoop s t timeout)
  | .resetPopTest => .ok (s.goto t (if s.q.suspendedPopList = [] then .resetPushTest else .resetPop))
  | .resetPop => match s.q.suspendedPopList with
    | [] => .error .emptyList
    | u :: rest => .ok ({ s.setError u .error with q := { s.q with suspendedPopList := rest } }.goto t .resetPopTest)
  | .resetPushTest => .ok (s.goto t (if s.q.suspendedPushList = [] then .idle .eok none else .resetPush))
  | .resetPush => match s.q.suspendedPushList with
    | [] => .error .emptyList
    | u :: rest => .ok ({ s.setError u .error with q := { s.q with suspendedPushList := rest } }.goto t .resetPushTest)

/-- A thread whose wait has a limit is timed out: `_thread_timeout` takes it off the list with the error set. -/
def timedOut (s : State Tid V) (t : Tid) : Except Stop (State Tid V) :=
  match s.pc t with
  | .pushWait _ timeout =>
    if t ∈ s.q.suspendedPushList ∧ 0 < timeout then
      .ok ({ s with q := { s.q with suspendedPushList := s.q.suspendedPushList.erase t } }.setError t .etimeout)
    else .error .notNow
  | .popWait timeout =>
    if t ∈ s.q.suspendedPopList ∧ 0 < timeout then
      .ok ({ s with q := { s.q with suspendedPopList := s.q.suspendedPopList.erase t } }.setError t .etimeout)
    else .error .notNow
  | _ => .error .notNow

def step (s : State Tid V) : Act Tid V → Except Stop (State Tid V)
  | .call t c =>
    match s.pc t with
    | .idle _ _ => .ok (enter s t c)
    | _ => .error .notNow
  | .run t => runOn s t
  | .timeout t => timedOut s t

def start (q : RtDataQueue Tid V) (error : Tid → RtErr) : State Tid V :=
  { q, pc := fun _ => .idle .eok none, error, history := [] }

end RtosKernel.RtThread.DataQueue
