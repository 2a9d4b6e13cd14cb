import Mathlib.Data.List.Basic
import Mathlib.Logic.Function.Basic
import RtosKernel.Lib.Runs

/-! # Work queues (`work.c`)

One step is one holding of the work lock, by any thread, queue thread or interrupt. A handler is the steps
that its queue thread makes between the two sections of `work_queue_main`; what it does under the lock are
calls like those of any other thread. -/

namespace RtosKernel.Zephyr.Works
open Lib.Runs

def EBUSY : Int := 16
def ENODEV : Int := 19
def EINVAL : Int := 22

/-- What a pending list links: a work item, or the flusher in a `struct k_work_sync`. -/
inductive Node (I S : Type) where
  | item (i : I)
  | flusher (f : S)
  deriving DecidableEq

structure Work (Q : Type) where
  running : Bool
  canceling : Bool
  queued : Bool
  delayed : Bool
  queue : Option Q
  /-- The submissions that were accepted. No code reads this. -/
  accepted : Nat
  /-- The submission that the handler runs for. No code reads this. -/
  serial : Nat

/-- `work_busy_get_locked`, whether it is not 0. -/
def Work.busy {Q : Type} (w : Work Q) : Bool := w.delayed || w.queued || w.running || w.canceling

/-- The rest of `struct k_work_delayable`. -/
structure Delayable (Q : Type) where
  queue : Option Q
  /-- The tick its timeout is due, if that is linked. -/
  timeout : Option Nat
  /-- The first tick at which the last call allows a submission, or none. No code reads this. -/
  promised : Option Nat

/-- Where the thread of a work queue is in `work_queue_main`. -/
inductive Phase (N : Type) where
  | ready
  /-- on `notifyq` -/
  | asleep
  | handling (n : N)
  /-- back from it, before it takes the lock -/
  | returned (n : N)
  deriving DecidableEq

/-- The variable `work`, while it is not NULL. -/
def Phase.current {N : Type} : Phase N → Option N
  | .ready | .asleep => none
  | .handling n | .returned n => some n

structure WorkQ (I S T : Type) where
  started : Bool
  busy : Bool
  drain : Bool
  plugged : Bool
  pending : List (Node I S)
  drainq : List T
  phase : Phase (Node I S)

/-- A call that may wait on the semaphore of its `struct k_work_sync`, with its item and the submissions of
that until then. -/
inductive Call (I Q : Type) where
  | flush (i : I) (q : Q) (accepted : Nat)
  | cancel (i : I) (accepted : Nat)
  deriving DecidableEq

structure System (I Q S T : Type) where
  work : Node I S → Work Q
  dwork : I → Delayable Q
  workq : Q → WorkQ I S T
  /-- The cancellers, with their `work`. -/
  pendingCancels : List (S × I)
  sem : S → Bool
  call : S → Option (Call I Q)
  clock : Nat
  /-- The timeouts that `sys_clock_announce` has taken off the queue and not called yet. -/
  inFlight : List I
  /-- Whether an expiry has submitted an item before the tick promised. No code reads this. -/
  early : Bool
  /-- Whether `z_add_timeout` was called for a linked timeout. No code reads this. -/
  relinked : Bool

/-- Who calls. An interrupt counts as another thread, also on the processor of the queue thread. -/
inductive Caller (Q : Type) where
  | worker (q : Q)
  | other
  deriving DecidableEq

/-- `k_timeout_t`. -/
inductive Delay where
  | noWait
  | ticks (n : Nat)
  | absolute (tick : Nat)
  | forever
  deriving DecidableEq

variable {I Q S T : Type} [DecidableEq I] [DecidableEq Q] [DecidableEq S] [DecidableEq T]

section Calls
variable (s : System I Q S T)

def System.update (n : Node I S) (g : Work Q → Work Q) : System I Q S T :=
  { s with work := Function.update s.work n (g (s.work n)) }

def System.updateDelayable (i : I) (g : Delayable Q → Delayable Q) : System I Q S T :=
  { s with dwork := Function.update s.dwork i (g (s.dwork i)) }

def System.updateQueue (q : Q) (g : WorkQ I S T → WorkQ I S T) : System I Q S T :=
  { s with workq := Function.update s.workq q (g (s.workq q)) }

/-! ## Items and queues -/

def notifyQueueLocked (q : Q) : System I Q S T :=
  s.updateQueue q fun wq => { wq with phase := if wq.phase = .asleep then .ready else wq.phase }

/-- `sys_slist_insert`, where `prev` is in the list. -/
def insertAfter (prev n : Node I S) : List (Node I S) → List (Node I S)
  | [] => []
  | x :: l => if x = prev then x :: n :: l else x :: insertAfter prev n l

/-- `k_work_init`, as `init_flusher` calls it. -/
def initFlusher (w : Work Q) : Work Q :=
  { w with running := false, canceling := false, queued := false, delayed := false, queue := none }

def queueFlusherLocked (q : Q) (i : I) (f : S) : System I Q S T :=
  { s.update (.flusher f) initFlusher with
    sem := Function.update s.sem f false
    workq := Function.update s.workq q { s.workq q with
      pending := if .item i ∈ (s.workq q).pending then insertAfter (.item i) (.flusher f) (s.workq q).pending
        else .flusher f :: (s.workq q).pending } }

/-- `queue_remove_locked`, for `work->queue`. -/
def queueRemoveLocked (i : I) : System I Q S T :=
  if (s.work (.item i)).queued then
    let s := s.update (.item i) fun w => { w with queued := false }
    match (s.work (.item i)).queue with
    | some q => s.updateQueue q fun wq => { wq with pending := wq.pending.erase (.item i) }
    | none => s
  else s

def queueSubmitLocked (c : Caller Q) (queue : Option Q) (n : Node I S) : System I Q S T × Int :=
  match queue with
  | none => (s, -EINVAL)
  | some q =>
    let chained := decide (c = .worker q)
    let draining := (s.workq q).drain
    let plugged := (s.workq q).plugged
    if !(s.workq q).started then (s, -ENODEV)
    else if draining && !chained then (s, -EBUSY)
    else if plugged && !draining then (s, -EBUSY)
    else (notifyQueueLocked (s.updateQueue q fun wq => { wq with pending := wq.pending ++ [n] }) q, 1)

def submitToQueueLocked (c : Caller Q) (i : I) (queuep : Option Q) : System I Q S T × Int :=
  let w := s.work (.item i)
  if w.canceling then (s, -EBUSY)
  else if w.queued then (s, 0)
  else
    let queuep := if queuep = none then w.queue else queuep
    -- work that runs is queued behind itself, whatever queue the caller names
    let queuep := if w.running then w.queue else queuep
    let r := queueSubmitLocked s c queuep (.item i)
    if r.2 < 0 then r
    else
      (r.1.update (.item i) fun w => { w with queued := true, queue := queuep, accepted := w.accepted + 1 },
        if w.running then 2 else 1)

def workFlushLocked (i : I) (f : S) : System I Q S T × Bool :=
  let w := s.work (.item i)
  if w.queued || w.running then
    match w.queue with
    | some q => (notifyQueueLocked (queueFlusherLocked s q i f) q, true)
    -- excluded by the assertion
    | none => (s, true)
  else (s, false)

/-- `cancel_async_locked`, and whether it returns other than 0. -/
def cancelAsyncLocked (i : I) : System I Q S T × Bool :=
  let s := if (s.work (.item i)).canceling then s else queueRemoveLocked s i
  if (s.work (.item i)).busy then (s.update (.item i) fun w => { w with canceling := true }, true) else (s, false)

def cancelSyncLocked (i : I) (f : S) : System I Q S T × Bool :=
  if (s.work (.item i)).canceling then
    ({ s with sem := Function.update s.sem f false, pendingCancels := s.pendingCancels ++ [(f, i)] }, true)
  else (s, false)

/-- The semaphores of the cancellers that `finalize_cancel_locked` takes out of the list are given. -/
def giveAll (released : List (S × I)) (sem : S → Bool) : S → Bool :=
  fun f => sem f || released.any fun wc => decide (wc.1 = f)

def finalizeCancelLocked (n : Node I S) : System I Q S T :=
  { s.update n fun w => { w with canceling := false } with
    sem := giveAll (s.pendingCancels.filter fun wc => .item wc.2 = n) s.sem
    pendingCancels := s.pendingCancels.filter fun wc => .item wc.2 ≠ n }

def zAddTimeout (i : I) : Delay → System I Q S T
  | .noWait | .forever => s
  | .ticks n =>
    { s.updateDelayable i fun d => { d with timeout := some (s.clock + n + 1) } with
      relinked := s.relinked || (s.dwork i).timeout.isSome }
  | .absolute tick =>
    -- the first announcement from then on, behind the last one, which may lie behind the clock
    { s.updateDelayable i fun d => { d with timeout := some tick } with
      relinked := s.relinked || (s.dwork i).timeout.isSome }

def zAbortTimeout (i : I) : System I Q S T := s.updateDelayable i fun d => { d with timeout := none }

/-- The first tick at which a call with this delay, made now, allows a submission. -/
def Delay.promise (clock : Nat) : Delay → Option Nat
  | .noWait => some clock
  | .ticks n => some (clock + n)
  | .absolute tick => some tick
  | .forever => none

def scheduleForQueueLocked (c : Caller Q) (queuep : Option Q) (i : I) (delay : Delay) : System I Q S T × Int :=
  if delay = .noWait then submitToQueueLocked s c i queuep
  else
    let s := s.update (.item i) fun w => { w with delayed := true }
    let s := s.updateDelayable i fun d => { d with queue := queuep, promised := delay.promise s.clock }
    (zAddTimeout s i delay, 1)

def unscheduleLocked (i : I) : System I Q S T × Bool :=
  if (s.work (.item i)).delayed then
    (zAbortTimeout (s.update (.item i) fun w => { w with delayed := false }) i, true)
  else (s, false)

def cancelDelayableAsyncLocked (i : I) : System I Q S T × Bool := cancelAsyncLocked (unscheduleLocked s i).1 i

/-- `sys_clock_announce`, where it takes a timeout off the queue. -/
def announce (i : I) : System I Q S T := { zAbortTimeout s i with inFlight := i :: s.inFlight }

/-- Whether it is before the tick promised. -/
def isEarly (clock : Nat) : Option Nat → Bool
  | some tick => decide (clock < tick)
  | none => true

def workTimeout (i : I) : System I Q S T :=
  let s := { s with inFlight := s.inFlight.erase i }
  if (s.work (.item i)).delayed then
    let s := { s.update (.item i) fun w => { w with delayed := false } with
      early := s.early || isEarly s.clock (s.dwork i).promised }
    (submitToQueueLocked s .other i (s.dwork i).queue).1
  else s

/-! ## Functions of the interface -/

def kWorkScheduleForQueue (c : Caller Q) (q : Option Q) (i : I) (delay : Delay) : System I Q S T × Int :=
  let w := s.work (.item i)
  if { w with running := false }.busy then (s, 0) else scheduleForQueueLocked s c q i delay

def kWorkRescheduleForQueue (c : Caller Q) (q : Option Q) (i : I) (delay : Delay) : System I Q S T × Int :=
  scheduleForQueueLocked (unscheduleLocked s i).1 c q i delay

/-- The call waits: on `work->queue` for a flush. -/
def System.wait (f : S) (call : Option (Call I Q)) : System I Q S T :=
  { s with call := Function.update s.call f call }

/-- The call of a flusher that was just queued. -/
def flushCall (i : I) : Option (Call I Q) :=
  (s.work (.item i)).queue.map fun q => .flush i q (s.work (.item i)).accepted

/-- `k_work_flush`, until it waits. -/
def kWorkFlush (f : S) (i : I) : System I Q S T :=
  let r := workFlushLocked s i f
  if r.2 then r.1.wait f (flushCall r.1 i) else r.1

/-- `k_work_flush_delayable`, until it waits. -/
def kWorkFlushDelayable (c : Caller Q) (f : S) (i : I) : System I Q S T :=
  if !(s.work (.item i)).busy then s
  else
    let r := unscheduleLocked s i
    let s := if r.2 then (submitToQueueLocked r.1 c i (r.1.dwork i).queue).1 else r.1
    kWorkFlush s f i

/-- The rest of a synchronous cancel, until it waits. -/
def cancelWait (f : S) (i : I) : System I Q S T :=
  let r := cancelSyncLocked s i f
  if r.2 then r.1.wait f (some (.cancel i (s.work (.item i)).accepted)) else r.1

/-- `k_work_cancel_sync`, until it waits. -/
def kWorkCancelSync (f : S) (i : I) : System I Q S T :=
  if (s.work (.item i)).busy then cancelWait (cancelAsyncLocked s i).1 f i else s

/-- `k_work_cancel_delayable_sync`, until it waits. -/
def kWorkCancelDelayableSync (f : S) (i : I) : System I Q S T :=
  if (s.work (.item i)).busy then cancelWait (cancelDelayableAsyncLocked s i).1 f i else s

/-- `k_sem_take` gets the semaphore, and the call returns. -/
def resume (f : S) : System I Q S T :=
  { s with sem := Function.update s.sem f false, call := Function.update s.call f none }

/-- `k_work_queue_drain`, until it waits. -/
def kWorkQueueDrain (t : T) (q : Q) (plug : Bool) : System I Q S T :=
  let wq := s.workq q
  if wq.busy || wq.drain || plug || !wq.pending.isEmpty then
    let s := s.updateQueue q fun wq => { wq with drain := true, plugged := wq.plugged || plug }
    (notifyQueueLocked s q).updateQueue q fun wq => { wq with drainq := wq.drainq ++ [t] }
  else s

def kWorkQueueUnplug (q : Q) : System I Q S T := s.updateQueue q fun wq => { wq with plugged := false }

/-- The first section of `work_queue_main`. -/
def take (q : Q) : System I Q S T :=
  match (s.workq q).pending with
  | n :: pending =>
    (s.updateQueue q fun wq => { wq with pending := pending, busy := true, phase := .handling n }).update n
      fun w => { w with running := true, queued := false, serial := w.accepted }
  | [] =>
    s.updateQueue q fun wq =>
      { wq with drain := false, drainq := if wq.drain then [] else wq.drainq, phase := .asleep }

/-- The handler returns. That of a flusher is `handle_flush`. -/
def handlerReturn (q : Q) (n : Node I S) : System I Q S T :=
  let s := s.updateQueue q fun wq => { wq with phase := .returned n }
  match n with
  | .item _ => s
  | .flusher f => { s with sem := Function.update s.sem f true }

/-- The second section of `work_queue_main`. -/
def finish (q : Q) (n : Node I S) : System I Q S T :=
  let s := s.update n fun w => { w with running := false }
  let s := if (s.work n).canceling then finalizeCancelLocked s n else s
  s.updateQueue q fun wq => { wq with busy := false, phase := .ready }

end Calls

/-! ## Steps -/

inductive Event (I Q S T : Type) where
  | submit (c : Caller Q) (q : Option Q) (i : I)
  | schedule (c : Caller Q) (q : Option Q) (i : I) (delay : Delay)
  | reschedule (c : Caller Q) (q : Option Q) (i : I) (delay : Delay)
  | cancel (i : I)
  | cancelDelayable (i : I)
  | cancelSync (f : S) (i : I)
  | cancelDelayableSync (f : S) (i : I)
  | flush (f : S) (i : I)
  | flushDelayable (c : Caller Q) (f : S) (i : I)
  | resume (f : S)
  | drain (t : T) (q : Q) (plug : Bool)
  | unplug (q : Q)
  | announce (i : I)
  | timeout (i : I)
  | take (q : Q)
  | handlerReturn (q : Q) (n : Node I S)
  | finish (q : Q) (n : Node I S)
  | tick

inductive Stop where
  /-- The event cannot happen in this state. -/
  | refused
  deriving DecidableEq

def Phase.runsItem : Phase (Node I S) → Bool
  | .handling (.item _) => true
  | _ => false

/-- A queue thread calls from the handler of an item. -/
def Caller.Runs (s : System I Q S T) : Caller Q → Prop
  | .worker q => (s.workq q).phase.runsItem = true
  | .other => True

instance (s : System I Q S T) (c : Caller Q) : Decidable (c.Runs s) := by
  cases c <;> dsimp only [Caller.Runs] <;> infer_instance

/-- When an event can happen; `delayable` are the items with `K_WORK_DELAYABLE`. A `struct k_work_sync` is in
one call at a time. -/
def Enabled (delayable : I → Bool) (s : System I Q S T) : Event I Q S T → Prop
  | .submit c _ _ => c.Runs s
  | .schedule c _ i _ | .reschedule c _ i _ => c.Runs s ∧ delayable i = true
  | .cancel i => delayable i = false
  | .cancelDelayable i => delayable i = true
  | .cancelSync f i | .flush f i => delayable i = false ∧ s.call f = none
  | .cancelDelayableSync f i => delayable i = true ∧ s.call f = none
  | .flushDelayable c f i => c.Runs s ∧ delayable i = true ∧ s.call f = none
  | .resume f => s.call f ≠ none ∧ s.sem f = true
  | .drain t q _ => t ∉ (s.workq q).drainq
  | .unplug _ | .timeout _ | .tick => True
  | .announce i => (s.dwork i).timeout ≠ none
  | .take q => (s.workq q).started = true ∧ (s.workq q).phase = .ready
  | .handlerReturn q n => (s.workq q).phase = .handling n
  | .finish q n => (s.workq q).phase = .returned n

instance (delayable : I → Bool) (s : System I Q S T) (e : Event I Q S T) : Decidable (Enabled delayable s e) := by
  cases e <;> dsimp only [Enabled] <;> infer_instance

def perform (s : System I Q S T) : Event I Q S T → System I Q S T
  | .submit c q i => (submitToQueueLocked s c i q).1
  | .schedule c q i delay => (kWorkScheduleForQueue s c q i delay).1
  | .reschedule c q i delay => (kWorkRescheduleForQueue s c q i delay).1
  | .cancel i => (cancelAsyncLocked s i).1
  | .cancelDelayable i => (cancelDelayableAsyncLocked s i).1
  | .cancelSync f i => kWorkCancelSync s f i
  | .cancelDelayableSync f i => kWorkCancelDelayableSync s f i
  | .flush f i => kWorkFlush s f i
  | .flushDelayable c f i => kWorkFlushDelayable s c f i
  | .resume f => resume s f
  | .drain t q plug => kWorkQueueDrain s t q plug
  | .unplug q => kWorkQueueUnplug s q
  | .announce i => announce s i
  | .timeout i => workTimeout s i
  | .take q => take s q
  | .handlerReturn q n => handlerReturn s q n
  | .finish q n => finish s q n
  | .tick => { s with clock := s.clock + 1 }

def step (delayable : I → Bool) (s : System I Q S T) (e : Event I Q S T) : Except Stop (System I Q S T) :=
  if Enabled delayable s e then .ok (perform s e) else .error .refused

/-- Every item is idle, and nothing was called yet. -/
def initial (started : Q → Bool) : System I Q S T where
  work _ := ⟨false, false, false, false, none, 0, 0⟩
  dwork _ := ⟨none, none, none⟩
  workq q := ⟨started q, false, false, false, [], [], .ready⟩
  pendingCancels := []
  sem _ := false
  call _ := none
  clock := 0
  inFlight := []
  early := false
  relinked := false

end RtosKernel.Zephyr.Works
