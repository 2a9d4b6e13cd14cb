import RtosKernel.Lib.Containers
import RtosKernel.Lib.Runs

/-! # The work queue (`workqueue.c`)

One queue with its thread, and any number of work items. An item has one list
node, which is in `work_list`, in `delayed_list` or in neither; two flags that
are meant to say in which; a timer for its delay; and a pointer to the queue.
Every function is one interrupt-disabled section, and so is each step of the
work thread. A submission starts its timer behind its section, and the handler of
a timer reads the queue before: here each is one step with its section. The function
of an item runs with interrupts enabled, between the two steps of the thread: whatever
it calls comes there. -/
namespace RtosKernel.RtThread.WorkQueue
open Lib.Containers Lib.Runs

inductive ListName
  | workList
  | delayedList
  deriving DecidableEq, Repr

inductive Err
  | eok
  | ebusy
  | error
  deriving DecidableEq, Repr

/-- `work->workqueue`: `RT_NULL`, or the queue. -/
inductive Owner
  | null
  | queue
  deriving DecidableEq, Repr

/-- What put an item into `work_list`: a call, or the delay of a call. The calls that submit an item are counted. -/
inductive Cause
  | call (submission : Nat)
  | delay (submission : Nat)
  deriving DecidableEq, Repr

/-- `struct rt_work` without its list node and its function. -/
structure RtWork where
  /-- `RT_WORK_STATE_PENDING` -/
  pending : Bool
  /-- `RT_WORK_STATE_SUBMITTING` -/
  submitting : Bool
  workqueue : Owner
  /-- `RT_TIMER_FLAG_ACTIVATED` of `work->timer` -/
  timerActive : Bool
  /-- how many calls have submitted the item -/
  submissions : Nat
  /-- the call whose delay the timer counts -/
  timerOf : Nat
  /-- what put the item into `work_list` -/
  cause : Cause
  deriving DecidableEq, Repr

/-- An item that the thread has taken: why it was queued, and how many calls had submitted it by then. -/
structure Ran (W : Type) where
  work : W
  cause : Cause
  submissions : Nat
  deriving DecidableEq, Repr

/-- The queue, its thread and the items. -/
structure State (W : Type) where
  lists : Lists ListName W
  work : W → RtWork
  workCurrent : Option W
  /-- the thread is suspended, with nothing to do -/
  suspended : Bool
  ran : List (Ran W)

inductive Stop
  /-- `RT_ASSERT(queue != RT_NULL)` of `_delayed_work_timeout_handler` -/
  | assertQueue
  /-- the step cannot happen: the timer is not active, or the thread is elsewhere -/
  | notNow
  | endless
  deriving DecidableEq, Repr

def rtTickMax : Nat := 2 ^ 32 - 1

variable {W : Type} [DecidableEq W]

def State.update (s : State W) (w : W) (f : RtWork → RtWork) : State W :=
  { s with work := Function.update s.work w (f (s.work w)) }

/-- `rt_list_remove(&(work->list))`. -/
def rtListRemove (s : State W) (w : W) : State W := { s with lists := s.lists.remove w }

/-- `rt_list_insert_after(list.prev, &(work->list))`: at the end. -/
def insertLast (s : State W) (k : ListName) (w : W) : State W := { s with lists := s.lists.pushBack k w }

/-- `rt_list_insert_after(&list, &(work->list))`: at the front. -/
def insertFirst (s : State W) (k : ListName) (w : W) : State W :=
  { s with lists := s.lists.put k w (w :: s.lists.items k) }

/-- Whether the workqueue is doing work; else the thread is resumed if it is suspended. -/
def resumeThread (s : State W) : State W :=
  if s.workCurrent = none ∧ s.suspended then { s with suspended := false } else s

/-- One more call that submits the item. -/
def RtWork.submitted (r : RtWork) : RtWork := { r with submissions := r.submissions + 1 }

/-- Queued by the call that is counted last. -/
def RtWork.called (r : RtWork) : RtWork := { r with cause := .call r.submissions }

/-- `_workqueue_submit_work` with interrupts disabled. -/
def workqueueSubmitSection (s : State W) (w : W) (ticks : Nat) : State W × Err :=
  let s := s.update w RtWork.submitted
  let s := (rtListRemove s w).update w fun r => { r with pending := false }
  if ticks = 0 then
    if s.workCurrent ≠ some w then
      let s := (insertLast s .workList w).update w fun r => { r.called with pending := true, workqueue := .queue }
      (resumeThread s, .eok)
    else (resumeThread s, .ebusy)
  else if ticks < rtTickMax / 2 then
    let s := if (s.work w).submitting then
        -- rt_timer_stop, and the new time
        s.update w fun r => { r with timerActive := false }
      else
        -- rt_timer_init
        s.update w fun r => { r with timerActive := false, submitting := true }
    (insertLast (s.update w fun r => { r with workqueue := .queue }) .delayedList w, .eok)
  else (s, .error)

def rtTimerStart (s : State W) (w : W) : State W :=
  s.update w fun r => { r with timerActive := true, timerOf := r.submissions }

def workqueueSubmitWork (s : State W) (w : W) (ticks : Nat) : State W × Err :=
  let r := workqueueSubmitSection s w ticks
  if ticks ≠ 0 ∧ ticks < rtTickMax / 2 then (rtTimerStart r.1 w, r.2) else r

def rtWorkqueueDowork (s : State W) (w : W) : State W × Err := workqueueSubmitWork s w 0

def rtWorkqueueSubmitWork (s : State W) (w : W) (ticks : Nat) : State W × Err := workqueueSubmitWork s w ticks

def rtWorkqueueUrgentWork (s : State W) (w : W) : State W × Err :=
  let s := s.update w fun r => r.submitted.called
  (resumeThread (insertFirst (rtListRemove s w) .workList w), .eok)

def workqueueCancelWork (s : State W) (w : W) : State W × Err :=
  let s := (rtListRemove s w).update w fun r => { r with pending := false }
  let s := if (s.work w).submitting then
      -- rt_timer_stop and rt_timer_detach
      s.update w fun r => { r with timerActive := false, submitting := false }
    else s
  (s.update w fun r => { r with workqueue := .null }, if s.workCurrent ≠ some w then .eok else .ebusy)

/-- A loop of `rt_workqueue_cancel_all_work`, until the list is empty. A loop that uses up its fuel has not
ended. -/
def cancelList (k : ListName) : Nat → State W → Option (State W)
  | 0, _ => none
  | fuel + 1, s =>
    match s.lists.items k with
    | [] => some s
    | w :: _ => cancelList k fuel (workqueueCancelWork s w).1

def rtWorkqueueCancelAllWork (s : State W) : Option (State W) := do
  let s ← cancelList .workList ((s.lists.items .workList).length + 1) s
  cancelList .delayedList ((s.lists.items .delayedList).length + 1) s

/-- `_delayed_work_timeout_handler` with interrupts disabled. -/
def delayedWorkTimeoutSection (s : State W) (w : W) : State W :=
  -- rt_timer_detach
  let s := rtListRemove (s.update w fun r => { r with timerActive := false, submitting := false }) w
  let s := if s.workCurrent ≠ some w then
      (insertLast s .workList w).update w fun r => { r with pending := true, cause := .delay r.timerOf }
    else s
  resumeThread s

def delayedWorkTimeoutHandler (s : State W) (w : W) : Except Stop (State W) :=
  if (s.work w).workqueue = .null then .error .assertQueue else .ok (delayedWorkTimeoutSection s w)

/-- One round of `_workqueue_thread_entry`, up to where the function of the item is called. -/
def threadTake (s : State W) : State W :=
  match s.lists.items .workList with
  | [] => { s with suspended := true }
  | w :: _ =>
    let s := { rtListRemove s w with
      workCurrent := some w
      ran := ⟨w, (s.work w).cause, (s.work w).submissions⟩ :: s.ran }
    s.update w fun r => { r with pending := false, workqueue := .null }

inductive Act (W : Type)
  | dowork (w : W)
  | submitWork (w : W) (ticks : Nat)
  | urgentWork (w : W)
  | cancelWork (w : W)
  | cancelAllWork
  | expire (w : W)
  | take
  /-- the function of the current item has returned -/
  | done
  deriving DecidableEq, Repr

def step (s : State W) : Act W → Except Stop (State W)
  | .dowork w => .ok (rtWorkqueueDowork s w).1
  | .submitWork w ticks => .ok (rtWorkqueueSubmitWork s w ticks).1
  | .urgentWork w => .ok (rtWorkqueueUrgentWork s w).1
  | .cancelWork w => .ok (workqueueCancelWork s w).1
  | .cancelAllWork => match rtWorkqueueCancelAllWork s with
    | some s => .ok s
    | none => .error .endless
  | .expire w =>
    if (s.work w).timerActive then delayedWorkTimeoutHandler (s.update w fun r => { r with timerActive := false }) w
    else .error .notNow
  | .take => if s.workCurrent = none ∧ ¬s.suspended then .ok (threadTake s) else .error .notNow
  | .done => if s.workCurrent = none then .error .notNow else .ok { s with workCurrent := none }

def rtWorkInit : RtWork := ⟨false, false, .null, false, 0, 0, .call 0⟩

/-- `rt_workqueue_create`, with items that are initialised. -/
def rtWorkqueueCreate : State W := ⟨⟨fun _ => [], fun _ => none⟩, fun _ => rtWorkInit, none, false, []⟩

end RtosKernel.RtThread.WorkQueue
