import Mathlib.Algebra.Order.Group.Nat
import RtosKernel.Lib.Runs

/-! # The uniprocessor scheduler (`sched.c`, `ksched.h`)

Every operation changes some bits of a thread's state and decides for itself whether the thread
enters or leaves the run queue and whether `_kernel.ready_q.cache`, the thread that runs next, is
computed again. The queues are the lists of `z_priq_dumb_add`, the first thread the best one; there
are no meta-IRQ priorities.

One step is one operation, from the running thread or from an interrupt handler. A call that ends in
`z_swap` takes the switch to the cached thread with it; after any other call `switch` may follow, as
`z_reschedule` or the end of an interrupt takes it. -/

namespace RtosKernel.Zephyr.Sched
open Lib.Runs

/-- A wait queue: of a kernel object, or the `join_queue` of a thread. -/
inductive WaitQ (T O : Type) where
  | object (obj : O)
  | joinQueue (thread : T)
  deriving DecidableEq

/-- The bits of `thread_state`. One processor never sets `_THREAD_ABORTING`. -/
structure ThreadState where
  dummy : Bool := false
  pending : Bool := false
  prestart : Bool := false
  dead : Bool := false
  suspended : Bool := false
  queued : Bool := false
  deriving DecidableEq

/-- `struct k_thread`, as far as the scheduler reads it. -/
structure Thread (T O : Type) where
  state : ThreadState
  prio : BitVec 8
  schedLocked : BitVec 8
  prioDeadline : BitVec 32
  sliceTicks : Nat
  pendedOn : Option (WaitQ T O)
  /-- Whether its timeout is in the timeout queue. -/
  timeout : Bool
  /-- Whether its last wait was started with a finite timeout. No code reads this. -/
  finite : Bool
  /-- When it last entered the run queue. No code reads this. -/
  queuedAt : Nat

structure Kernel (T O : Type) where
  thread : T → Thread T O
  runq : List T
  cache : T
  current : T
  waitq : WaitQ T O → List T
  /-- Counts what enters the run queue. No code reads this. -/
  clock : Nat
  /-- A node was taken out of a list it is not in, or put where it already is. No code reads this. -/
  fault : Bool

/-- `&z_idle_threads[0]` and the options of the build. -/
structure Config (T : Type) where
  idle : T
  schedDeadline : Bool
  swapNonatomic : Bool
  sliceTicks : Nat
  sliceMaxPrio : Int

/-- `k_timeout_t`: `K_NO_WAIT`, a number of ticks, or `K_FOREVER`. -/
inductive KTimeout where
  | noWait
  | ticks
  | forever
  deriving DecidableEq

/-- Why there is no next state: the event cannot happen in this state. -/
inductive Stop where
  | refused
  deriving DecidableEq

variable {T O : Type} [DecidableEq T] [DecidableEq O]

def Kernel.update (k : Kernel T O) (t : T) (f : Thread T O → Thread T O) : Kernel T O :=
  { k with thread := Function.update k.thread t (f (k.thread t)) }

section Predicates

/-- `is_preempt`: the priority and the lock count, read as one number, are at most `_PREEMPT_THRESHOLD`. -/
def isPreempt (thread : Thread T O) : Bool := (thread.schedLocked ++ thread.prio).toNat ≤ 0x7f

def zIsThreadPreventedFromRunning (thread : Thread T O) : Bool :=
  thread.state.pending || thread.state.prestart || thread.state.dead || thread.state.dummy || thread.state.suspended

def zIsThreadReady (thread : Thread T O) : Bool := !(zIsThreadPreventedFromRunning thread || thread.timeout)

variable (cfg : Config T) (k : Kernel T O)

def zSchedPrioCmp (thread1 thread2 : Thread T O) : Int :=
  if thread1.prio ≠ thread2.prio then thread2.prio.toInt - thread1.prio.toInt
  else if cfg.schedDeadline ∧ thread1.prioDeadline ≠ thread2.prioDeadline then
    (thread2.prioDeadline - thread1.prioDeadline).toInt
  else 0

def shouldPreempt (thread : T) (preemptOk : Bool) : Bool :=
  preemptOk || zIsThreadPreventedFromRunning (k.thread k.current) ||
    (cfg.swapNonatomic && (k.thread thread).timeout) || isPreempt (k.thread k.current)

def sliceable (t : T) : Bool :=
  (isPreempt (k.thread t) && !zIsThreadPreventedFromRunning (k.thread t) &&
    !decide ((k.thread t).prio.toInt < cfg.sliceMaxPrio) && !decide (t = cfg.idle)) ||
    decide ((k.thread t).sliceTicks ≠ 0)

def sliceTime (t : T) : Nat := if (k.thread t).sliceTicks ≠ 0 then (k.thread t).sliceTicks else cfg.sliceTicks

end Predicates

section Queues
variable (cfg : Config T)

def zPriqDumbAdd (thread : T → Thread T O) (t : T) : List T → List T
  | [] => [t]
  | u :: pq => if zSchedPrioCmp cfg (thread t) (thread u) > 0 then t :: u :: pq else u :: zPriqDumbAdd thread t pq

def queueThread (k : Kernel T O) (t : T) : Kernel T O :=
  let k := k.update t fun th => { th with state.queued := true, queuedAt := k.clock }
  { k with runq := zPriqDumbAdd cfg k.thread t k.runq, clock := k.clock + 1, fault := k.fault || decide (t ∈ k.runq) }

def dequeueThread (k : Kernel T O) (t : T) : Kernel T O :=
  let k := k.update t fun th => { th with state.queued := false }
  { k with runq := k.runq.erase t, fault := k.fault || decide (t ∉ k.runq) }

/-- `if (z_is_thread_queued(thread)) dequeue_thread(thread)`. -/
def dequeueIfQueued (k : Kernel T O) (t : T) : Kernel T O :=
  if (k.thread t).state.queued then dequeueThread k t else k

def nextUp (k : Kernel T O) : T := k.runq.head?.getD cfg.idle

def updateCache (k : Kernel T O) (preemptOk : Bool) : Kernel T O :=
  { k with cache := if shouldPreempt cfg k (nextUp cfg k) preemptOk then nextUp cfg k else k.current }

/-- `z_swap`: the cached thread runs. -/
def zSwap (k : Kernel T O) : Kernel T O := { k with current := k.cache }

def readyThread (k : Kernel T O) (t : T) : Kernel T O :=
  if !(k.thread t).state.queued && zIsThreadReady (k.thread t) then updateCache cfg (queueThread cfg k t) false else k

def unreadyThread (k : Kernel T O) (t : T) : Kernel T O := updateCache cfg (dequeueIfQueued k t) (t = k.current)

def moveThreadToEndOfPrioQ (k : Kernel T O) (t : T) : Kernel T O :=
  updateCache cfg (queueThread cfg (dequeueIfQueued k t) t) (t = k.current)

/-- `z_add_thread_timeout`: a timeout that is already in the queue must not be added. -/
def zAddThreadTimeout (k : Kernel T O) (t : T) : Kernel T O :=
  { k.update t fun th => { th with timeout := true } with fault := k.fault || (k.thread t).timeout }

def zAbortThreadTimeout (k : Kernel T O) (t : T) : Kernel T O := k.update t fun th => { th with timeout := false }

def addToWaitqLocked (k : Kernel T O) (t : T) (waitQ : Option (WaitQ T O)) : Kernel T O :=
  let k := (unreadyThread cfg k t).update t fun th => { th with state.pending := true }
  match waitQ with
  | none => k
  | some q =>
    let k := k.update t fun th => { th with pendedOn := some q }
    { k with
      waitq := Function.update k.waitq q (zPriqDumbAdd cfg k.thread t (k.waitq q))
      fault := k.fault || decide (t ∈ k.waitq q) }

def addThreadTimeout (k : Kernel T O) (t : T) (timeout : KTimeout) : Kernel T O :=
  let k := k.update t fun th => { th with finite := timeout ≠ .forever }
  if timeout = .forever then k else zAddThreadTimeout k t

def pend (k : Kernel T O) (t : T) (waitQ : Option (WaitQ T O)) (timeout : KTimeout) : Kernel T O :=
  addThreadTimeout (addToWaitqLocked cfg k t waitQ) t timeout

def unpendThreadNoTimeout (k : Kernel T O) (t : T) : Kernel T O :=
  match (k.thread t).pendedOn with
  | none => { k with fault := true }
  | some q =>
    { k.update t fun th => { th with state.pending := false, pendedOn := none } with
      waitq := Function.update k.waitq q ((k.waitq q).erase t)
      fault := k.fault || decide (t ∉ k.waitq q) }

/-- `z_unpend_thread`, then `z_ready_thread`. -/
def unpendAndReady (k : Kernel T O) (t : T) : Kernel T O :=
  readyThread cfg (zAbortThreadTimeout (unpendThreadNoTimeout k t) t) t

/-- The loop of `unpend_all` and `z_unpend_all`, on as many threads as wait. -/
def unpendLoop (q : WaitQ T O) : Nat → Kernel T O → Kernel T O
  | 0, k => k
  | n + 1, k => match (k.waitq q).head? with
    | none => k
    | some t => unpendLoop q n (unpendAndReady cfg k t)

def unpendAll (k : Kernel T O) (q : WaitQ T O) : Kernel T O := unpendLoop cfg q (k.waitq q).length k

end Queues

section Calls
variable (cfg : Config T) (k : Kernel T O)

def zSchedStart (t : T) : Kernel T O :=
  if (k.thread t).state.prestart then readyThread cfg (k.update t fun th => { th with state.prestart := false }) t else k

/-- The timeout is aborted in front of the lock, which is the same step here. -/
def kThreadSuspend (t : T) : Kernel T O :=
  updateCache cfg
    ((dequeueIfQueued (zAbortThreadTimeout k t) t).update t fun th => { th with state.suspended := true })
    (t = k.current)

def kThreadResume (t : T) : Kernel T O :=
  if (k.thread t).state.suspended then readyThread cfg (k.update t fun th => { th with state.suspended := false }) t
  else k

def zThreadTimeout (t : T) : Kernel T O :=
  if (k.thread t).state.dead then k
  else
    let k := if (k.thread t).pendedOn ≠ none then unpendThreadNoTimeout k t else k
    readyThread cfg (k.update t fun th => { th with state.prestart := false, state.suspended := false }) t

/-- `z_sched_wake`, or `_ready_one_thread`. -/
def zSchedWake (q : WaitQ T O) : Kernel T O :=
  match (k.waitq q).head? with
  | none => k
  | some t => unpendAndReady cfg k t

def zSetPrio (t : T) (prio : BitVec 8) : Kernel T O :=
  if zIsThreadReady (k.thread t) then
    updateCache cfg (queueThread cfg ((dequeueThread k t).update t fun th => { th with prio := prio }) t) true
  else k.update t fun th => { th with prio := prio }

def kSchedLock : Kernel T O := k.update k.current fun th => { th with schedLocked := th.schedLocked - 1 }

def kSchedUnlock : Kernel T O :=
  updateCache cfg (k.update k.current fun th => { th with schedLocked := th.schedLocked + 1 }) false

/-- `k_thread_deadline_set`, with the deadline the cycle counter and the argument give. -/
def kThreadDeadlineSet (t : T) (deadline : BitVec 32) : Kernel T O :=
  let k := k.update t fun th => { th with prioDeadline := deadline }
  if (k.thread t).state.queued then queueThread cfg (dequeueThread k t) t else k

def kYield : Kernel T O := zSwap (updateCache cfg (queueThread cfg (dequeueThread k k.current) k.current) true)

/-- `z_tick_sleep`, for more than no ticks. -/
def zTickSleep : Kernel T O :=
  zSwap ((zAddThreadTimeout (unreadyThread cfg k k.current) k.current).update k.current
    fun th => { th with state.suspended := true })

def kSleep : KTimeout → Kernel T O
  | .noWait => kYield cfg k
  | .ticks => zTickSleep cfg k
  | .forever => kThreadSuspend cfg k k.current

def kWakeup (t : T) : Kernel T O :=
  if (k.thread t).state.pending then k
  else if !(k.thread t).timeout && (k.thread t).state ≠ { suspended := true } then k
  else readyThread cfg ((zAbortThreadTimeout k t).update t fun th => { th with state.suspended := false }) t

/-- `z_time_slice`, when the slice of the running thread is over. -/
def zTimeSlice : Kernel T O :=
  if sliceTime cfg k k.current ≠ 0 && sliceable cfg k k.current &&
      !zIsThreadPreventedFromRunning (k.thread k.current) then
    moveThreadToEndOfPrioQ cfg k k.current
  else k

/-- What `end_thread` does to the thread itself: it is dead, in no queue, and has no timeout. -/
def endSelf (t : T) : Kernel T O :=
  let k := dequeueIfQueued (k.update t fun th => { th with state.dead := true }) t
  zAbortThreadTimeout (if (k.thread t).pendedOn ≠ none then unpendThreadNoTimeout k t else k) t

def endThread (t : T) : Kernel T O :=
  if (k.thread t).state.dead then k
  else updateCache cfg (unpendAll cfg (endSelf k t) (.joinQueue t)) true

def kThreadJoin (t : T) (timeout : KTimeout) : Kernel T O :=
  if (k.thread t).state.dead then k
  else if timeout = .noWait then k
  else if t = k.current ∨ (k.thread t).pendedOn = some (.joinQueue k.current) then k
  else zSwap (pend cfg k k.current (some (.joinQueue t)) timeout)

end Calls

/-- What can happen. The first group are calls of the running thread. -/
inductive Event (T O : Type) where
  | yield
  | sleep (timeout : KTimeout)
  | pend (waitQ : Option (WaitQ T O)) (timeout : KTimeout)
  | join (t : T) (timeout : KTimeout)
  | lock
  | unlock
  | setPrio (t : T) (prio : BitVec 8)
  | start (t : T)
  | startDelayed (t : T)
  | suspend (t : T)
  | resume (t : T)
  | wake (q : WaitQ T O)
  | wakeAll (q : WaitQ T O)
  | wakeThread (t : T)
  | dispose (t : T)
  | timeout (t : T)
  | wakeup (t : T)
  | abort (t : T)
  | timeSlice
  | deadlineSet (t : T) (deadline : BitVec 32)
  | switch

section Steps
variable (cfg : Config T) (k : Kernel T O)

/-- The running thread makes a call only while it can run; the idle thread makes none. -/
def Calling : Prop := k.current ≠ cfg.idle ∧ zIsThreadPreventedFromRunning (k.thread k.current) = false

instance : Decidable (Calling cfg k) := inferInstanceAs (Decidable (_ ∧ _))

/-- When an event can happen. A wait in no queue (`mailbox.c`) is without a timeout and ended by the thread that
disposes of the message; a delayed start is one of a new thread. -/
def Enabled : Event T O → Prop
  | .yield | .sleep _ | .join _ _ => Calling cfg k
  | .pend waitQ timeout => Calling cfg k ∧ timeout ≠ .noWait ∧ (waitQ = none → timeout = .forever)
  | .lock => Calling cfg k ∧ (k.thread k.current).schedLocked ≠ 1
  | .unlock => Calling cfg k ∧ (k.thread k.current).schedLocked ≠ 0
  | .setPrio t _ => Calling cfg k ∧ t ≠ cfg.idle
  | .start t | .suspend t | .resume t | .wakeup t | .abort t | .deadlineSet t _ => t ≠ cfg.idle
  | .startDelayed t =>
    t ≠ cfg.idle ∧ t ≠ k.current ∧ (k.thread t).state.prestart ∧ ¬(k.thread t).state.dead ∧ ¬(k.thread t).timeout
  | .wakeThread t => (k.thread t).pendedOn ≠ none
  | .dispose t => t ≠ cfg.idle ∧ (k.thread t).state.pending ∧ (k.thread t).pendedOn = none
  | .timeout t => (k.thread t).timeout
  | .wake _ | .wakeAll _ | .timeSlice | .switch => True

instance Enabled.instDecidable (e : Event T O) : Decidable (Enabled cfg k e) := by
  cases e <;> dsimp only [Enabled] <;> infer_instance

def perform : Event T O → Kernel T O
  | .yield => kYield cfg k
  | .sleep timeout => kSleep cfg k timeout
  | .pend waitQ timeout => zSwap (pend cfg k k.current waitQ timeout)
  | .join t timeout => kThreadJoin cfg k t timeout
  | .lock => kSchedLock k
  | .unlock => kSchedUnlock cfg k
  | .setPrio t prio => zSetPrio cfg k t prio
  | .start t => zSchedStart cfg k t
  | .startDelayed t => zAddThreadTimeout k t
  | .suspend t => kThreadSuspend cfg k t
  | .resume t => kThreadResume cfg k t
  | .wake q => zSchedWake cfg k q
  | .wakeAll q => unpendAll cfg k q
  | .wakeThread t => unpendAndReady cfg k t
  | .dispose t => readyThread cfg (k.update t fun th => { th with state.pending := false }) t
  | .timeout t => zThreadTimeout cfg (zAbortThreadTimeout k t) t
  | .wakeup t => kWakeup cfg k t
  | .abort t => endThread cfg k t
  | .timeSlice => zTimeSlice cfg k
  | .deadlineSet t deadline => kThreadDeadlineSet cfg k t deadline
  | .switch => zSwap k

def step (e : Event T O) : Except Stop (Kernel T O) :=
  if Enabled cfg k e then .ok (perform cfg k e) else .error .refused

end Steps

end RtosKernel.Zephyr.Sched
