import RtosKernel.RtThread.SchedulerQueues

/-! # The mutex (`ipc.c`)

A thread that waits raises the owner to its own priority, and the owner gets the
priority back that it had when it took the mutex once it holds the mutex no more.
Without `RT_DEBUG_CONTEXT_CHECK` the calls do not check the context. -/
namespace RtosKernel.RtThread.Mutex
open Lib.Containers RtThread.Def RtThread.IpcList RtThread.Scheduler

variable {Tid Mid : Type} [DecidableEq Tid] [DecidableEq Mid]

def rtMutexHoldMax : Nat := 255

def rtMutexValueMax : Nat := 65535

def rtMutexInit : RtMutex Tid := { value := 1, owner := none, originalPriority := 0xff, hold := 0 }

/-- `_ipc_list_suspend` for a mutex, the timer, and the scheduler. -/
def suspendOn (c : Board) (k : Kernel Tid Mid) (m : Mid) (thread : Tid) (time : Int) : Option (Kernel Tid Mid) :=
  let k := (rtThreadSuspend c k thread).1
  let waiting := ipcListSuspend (fun t => (k.thread t).currentPriority) .prio thread (k.suspendThread m)
  let k := { k with lists := k.lists.put (.mutex m) thread waiting }
  rtSchedule c (if 0 < time then k.setThread thread { k.thread thread with threadTimer := true } else k)

/-- `rt_mutex_take`. With no result the thread waits for the mutex, and returns its
`error` when it runs again. -/
def rtMutexTake (c : Board) (k : Kernel Tid Mid) (m : Mid) (time : Int) :
    Option (Kernel Tid Mid × Option RtErr) := do
  let thread ← k.currentThread
  let k := k.setThread thread { k.thread thread with error := .eok }
  let mutex := k.mutex m
  if mutex.owner = some thread then
    if mutex.hold < rtMutexHoldMax then some (k.setMutex m { mutex with hold := mutex.hold + 1 }, some .eok)
    else some (k, some .efull)
  else if 0 < mutex.value then
    let mutex := { mutex with
      value := mutex.value - 1
      owner := some thread
      originalPriority := (k.thread thread).currentPriority }
    if mutex.hold < rtMutexHoldMax then some (k.setMutex m { mutex with hold := mutex.hold + 1 }, some .eok)
    else some (k.setMutex m mutex, some .efull)
  else if time = 0 then
    some (k.setThread thread { k.thread thread with error := .etimeout }, some .etimeout)
  else
    let owner ← mutex.owner
    let k := if (k.thread thread).currentPriority < (k.thread owner).currentPriority then
        rtThreadChangePriority c k owner (k.thread thread).currentPriority
      else k
    (suspendOn c k m thread time).map fun k => (k, none)

/-- `rt_mutex_release` when nothing holds the mutex any more: the owner goes back to its priority, and the first
waiter becomes the owner. -/
def releaseLast (c : Board) (k : Kernel Tid Mid) (m : Mid) (thread : Tid) : Option (Kernel Tid Mid × RtErr) :=
  let mutex := k.mutex m
  let k := if mutex.originalPriority ≠ (k.thread thread).currentPriority then
      rtThreadChangePriority c k thread mutex.originalPriority
    else k
  match k.suspendThread m with
  | waiter :: _ =>
    let mutex := { mutex with owner := some waiter, originalPriority := (k.thread waiter).currentPriority }
    if mutex.hold < rtMutexHoldMax then
      let k := k.setMutex m { mutex with hold := mutex.hold + 1 }
      (rtSchedule c (rtThreadResume c k waiter).1).map fun k => (k, .eok)
    else some (k.setMutex m mutex, .efull)
  | [] =>
    if mutex.value < rtMutexValueMax then
      some (k.setMutex m { mutex with value := mutex.value + 1, owner := none, originalPriority := 0xff }, .eok)
    else some (k, .efull)

def rtMutexRelease (c : Board) (k : Kernel Tid Mid) (m : Mid) : Option (Kernel Tid Mid × RtErr) := do
  let thread ← k.currentThread
  if (k.mutex m).owner ≠ some thread then
    some (k.setThread thread { k.thread thread with error := .error }, .error)
  else
    let k := k.setMutex m { k.mutex m with hold := ((k.mutex m).hold + 255) % 256 }
    if (k.mutex m).hold = 0 then releaseLast c k m thread else some (k, .eok)

/-! ## Runs -/

inductive Act (Tid Mid : Type)
  | startup (t : Tid)
  | start
  | yield
  | take (m : Mid) (time : Int)
  | release (m : Mid)
  | timeout (t : Tid)
  /-- the current thread suspends itself, with a timer or without -/
  | suspend (timer : Bool)
  | resume (t : Tid)
  | changePriority (t : Tid) (priority : Nat)
  | exit
  | enterCritical
  | exitCritical
  | schedule

/-- One call. A thread that has suspended itself waits for a mutex only when it has been resumed, and there is a
list for the priority that a caller sets. -/
def step (c : Board) (k : Kernel Tid Mid) : Act Tid Mid → Option (Kernel Tid Mid)
  | .startup t => rtThreadStartup c k t
  | .start => do
    rtAssert (k.currentThread = none)
    rtSystemSchedulerStart c k
  | .yield => rtThreadYield c k
  | .take m time => do
    let thread ← k.currentThread
    rtAssert ((k.thread thread).stat = .running)
    (rtMutexTake c k m time).map Prod.fst
  | .release m => (rtMutexRelease c k m).map Prod.fst
  | .timeout t => do
    rtAssert ((k.thread t).threadTimer = true)
    rtAssert (k.currentThread ≠ none)
    threadTimeout c k t
  | .suspend timer => do
    let thread ← k.currentThread
    let r := rtThreadSuspend c k thread
    some (if r.2 = .eok then r.1.setThread thread { r.1.thread thread with threadTimer := timer } else r.1)
  | .resume t => some (rtThreadResume c k t).1
  | .changePriority t priority => do
    rtAssert (priority < c.priorityMax)
    some (rtThreadChangePriority c k t priority)
  | .exit => threadExit c k
  | .enterCritical => some (rtEnterCritical k)
  | .exitCritical => rtExitCritical c k
  | .schedule => do
    rtAssert (k.currentThread ≠ none)
    rtSchedule c k

/-- Before the scheduler starts: `rt_system_scheduler_init`, `_thread_init` and
`rt_mutex_init`. -/
def initial (priority : Tid → Nat) : Kernel Tid Mid :=
  { thread := fun t => { stat := .init, yield := false, currentPriority := priority t, number := 0, numberMask := 0
                         highMask := 0, error := .eok, threadTimer := false }
    mutex := fun _ => rtMutexInit
    lists := { items := fun _ => [], container := fun _ => none }
    map := { group := 0, table := fun _ => 0 }
    currentThread := none
    currentPriority := 0
    schedulerLockNest := 0 }

/-- What calls reach. `_thread_init` asserts that there is a list for the priority. -/
inductive Reachable (c : Board) : Kernel Tid Mid → Prop
  | init {priority : Tid → Nat} (h : ∀ t, priority t < c.priorityMax) : Reachable c (initial priority)
  | step {k k' : Kernel Tid Mid} {a : Act Tid Mid} (h : Reachable c k) (hs : step c k a = some k') : Reachable c k'

def calls (c : Board) : Kernel Tid Mid → List (Act Tid Mid) → Option (Kernel Tid Mid)
  | k, [] => some k
  | k, a :: as => (step c k a).bind fun k => calls c k as

theorem Reachable.calls {c : Board} {k k' : Kernel Tid Mid} {as : List (Act Tid Mid)} (h : Reachable c k)
    (hs : Mutex.calls c k as = some k') : Reachable c k' := by
  induction as generalizing k with
  | nil =>
    cases hs
    exact h
  | cons a as ih =>
    obtain ⟨k1, h1, h2⟩ := Option.bind_eq_some_iff.mp hs
    exact ih (h.step h1) h2

end RtosKernel.RtThread.Mutex
