import RtosKernel.Zephyr.Mutex
import RtosKernel.Zephyr.Priq

/-! # Threads that wait, and their priorities (`sched.c`, `mutex.c`)

A wait queue is a list (`CONFIG_WAITQ_DUMB`) or a red-black tree (`CONFIG_WAITQ_SCALABLE`), in the order of the
priorities that the threads had when they began to wait. Mutexes raise and lower their owners, which may wait for
something else at that time.

A thread is in one queue at most, so that each tree has the nodes of its own threads. A call that waits is cut
there. -/
namespace RtosKernel.Zephyr.Pend
open Lib.Runs
open Zephyr.WaitQ (zPriqDumbAdd zPriqDumbBest)
open Zephyr.Priq
open Zephyr.Rb (Heap Fault)
open Zephyr.Mutexes (zIsPrioHigher newPrioForInheritance ebusy eagain einval eperm)

/-! ## Wait queues -/

inductive Backend where
  | dumb
  | scalable
  deriving DecidableEq

/-- `_wait_q_t`. -/
def WaitQueue (T : Type) : Backend → Type
  | .dumb => List T
  | .scalable => PriqRb T

variable {T M O : Type} [LinearOrder T] [DecidableEq M] [DecidableEq O] {b : Backend}

/-- `Z_WAIT_Q_INIT`. The nodes of the threads have what they have. -/
def zWaitqInit (heap : Heap T) : (b : Backend) → WaitQueue T b
  | .dumb => []
  | .scalable => ⟨⟨heap, none, 0⟩, 0⟩

def zPriqWaitAdd (base : T → ThreadBase) (thread : T) :
    {b : Backend} → WaitQueue T b → Except Fault ((T → ThreadBase) × WaitQueue T b)
  | .dumb, pq => .ok (base, zPriqDumbAdd (fun t => (base t).prio) thread pq)
  | .scalable, pq => zPriqRbAdd base pq thread

def priqWaitRemove (base : T → ThreadBase) (thread : T) : {b : Backend} → WaitQueue T b → Except Fault (WaitQueue T b)
  | .dumb, pq => .ok (zPriqDumbRemove pq thread)
  | .scalable, pq => zPriqRbRemove base pq thread

/-- `_priq_wait_best`; none if the way down a tree is longer than `max_depth`. -/
def priqWaitBest : {b : Backend} → WaitQueue T b → Option (Option T)
  | .dumb, pq => some (zPriqDumbBest pq)
  | .scalable, pq => zPriqRbBest pq

/-- The threads in a queue in its order. -/
def waiters : {b : Backend} → WaitQueue T b → Except Fault (List T)
  | .dumb, pq => .ok pq
  | .scalable, pq => Rb.rbForEach pq.tree (2 ^ pq.tree.maxDepth) []

/-! ## Threads and mutexes -/

inductive Object (M O : Type) where
  | mutex (m : M)
  /-- a semaphore, a message queue or the like -/
  | other (o : O)
  deriving DecidableEq

/-- `struct k_mutex`, but for its wait queue. -/
structure Mutex (T : Type) where
  owner : Option T
  lockCount : Nat
  ownerOrigPrio : Int

structure System (T M O : Type) (b : Backend) where
  base : T → ThreadBase
  waitq : Object M O → WaitQueue T b
  pendedOn : T → Option (Object M O)
  mutex : M → Mutex T
  /-- The mutex whose wait has timed out, while the rest of `k_mutex_lock` is still to run. -/
  lockTimedOut : T → Option M

inductive Stop where
  /-- The operation cannot happen in this state. -/
  | refused
  /-- `mutex->owner` is used while it is NULL. -/
  | nullOwner
  | fault (f : Fault)
  deriving DecidableEq

def orStop {α : Type} : Except Fault α → Except Stop α
  | .ok a => .ok a
  | .error f => .error (.fault f)

variable (s : System T M O b)

def addToWaitqLocked (thread : T) (w : Object M O) : Except Stop (System T M O b) := do
  let (base, pq) ← orStop (zPriqWaitAdd s.base thread (s.waitq w))
  return { s with
    base, waitq := Function.update s.waitq w pq, pendedOn := Function.update s.pendedOn thread (some w) }

/-- `unpend_thread_no_timeout`, for a thread that waits in `w`. -/
def unpendThreadNoTimeout (thread : T) (w : Object M O) : Except Stop (System T M O b) := do
  let pq ← orStop (priqWaitRemove s.base thread (s.waitq w))
  return { s with
    waitq := Function.update s.waitq w pq, pendedOn := Function.update s.pendedOn thread none }

def zUnpendFirstThread (w : Object M O) : Except Stop (System T M O b × Option T) :=
  match priqWaitBest (s.waitq w) with
  | none => .error (.fault .loop)
  | some none => .ok (s, none)
  | some (some thread) => (unpendThreadNoTimeout s thread w).map fun s => (s, some thread)

/-- The thread with another priority. -/
def setPrio (base : T → ThreadBase) (thread : T) (prio : Int) : T → ThreadBase :=
  Function.update base thread { base thread with prio }

/-- `z_set_prio`, on what a wait queue depends on. The wait queue of the thread is not touched. -/
def zSetPrio (thread : T) (prio : Int) : System T M O b := { s with base := setPrio s.base thread prio }

def zThreadTimeout (thread : T) (w : Object M O) : Except Stop (System T M O b) :=
  (unpendThreadNoTimeout s thread w).map fun s =>
    match w with
    | .mutex m => { s with lockTimedOut := Function.update s.lockTimedOut thread (some m) }
    | .other _ => s

/-! ## Mutexes -/

def setMutex (m : M) (v : Mutex T) : System T M O b := { s with mutex := Function.update s.mutex m v }

def adjustOwnerPrio (m : M) (newPrio : Int) : Except Stop (System T M O b) :=
  match (s.mutex m).owner with
  | none => .error .nullOwner
  | some owner => .ok (if (s.base owner).prio ≠ newPrio then zSetPrio s owner newPrio else s)

section Ceiling
-- `CONFIG_PRIORITY_CEILING`
variable (ceiling : Int)

/-- `z_impl_k_mutex_lock`, up to where it waits. -/
def zImplKMutexLock (m : M) (current : T) (noWait : Bool) : Except Stop (System T M O b × Option Int) :=
  let mutex := s.mutex m
  if mutex.lockCount = 0 ∨ mutex.owner = some current then
    let ownerOrigPrio := if mutex.lockCount = 0 then (s.base current).prio else mutex.ownerOrigPrio
    .ok (setMutex s m { owner := some current, lockCount := (mutex.lockCount + 1) % 2 ^ 32, ownerOrigPrio }, some 0)
  else if noWait then .ok (s, some ebusy)
  else
    match mutex.owner with
    | none => .error .nullOwner
    | some owner => do
      let newPrio := newPrioForInheritance ceiling (s.base current).prio (s.base owner).prio
      let s ← if zIsPrioHigher newPrio (s.base owner).prio then adjustOwnerPrio s m newPrio else .ok s
      let s ← addToWaitqLocked s current (.mutex m)
      return (s, none)

/-- The priority that `z_impl_k_mutex_lock` leaves to the owner after a timeout. -/
def loweredPrio (m : M) : Int :=
  match priqWaitBest (s.waitq (.mutex m)) with
  | some (some waiter) => newPrioForInheritance ceiling (s.base waiter).prio (s.mutex m).ownerOrigPrio
  | _ => (s.mutex m).ownerOrigPrio

/-- The rest of `z_impl_k_mutex_lock` after a timeout. -/
def mutexLockTimedOut (m : M) (current : T) : Except Stop (System T M O b × Int) := do
  let s ← adjustOwnerPrio s m (loweredPrio s ceiling m)
  return ({ s with lockTimedOut := Function.update s.lockTimedOut current none }, eagain)

end Ceiling

def zImplKMutexUnlock (m : M) (current : T) : Except Stop (System T M O b × Int) :=
  let mutex := s.mutex m
  match mutex.owner with
  | none => .ok (s, einval)
  | some owner =>
    if owner ≠ current then .ok (s, eperm)
    else if mutex.lockCount > 1 then .ok (setMutex s m { mutex with lockCount := mutex.lockCount - 1 }, 0)
    else do
      let s ← adjustOwnerPrio s m mutex.ownerOrigPrio
      let (s, newOwner) ← zUnpendFirstThread s (.mutex m)
      match newOwner with
      | some newOwner =>
        return (setMutex s m
          { mutex with owner := some newOwner, ownerOrigPrio := (s.base newOwner).prio }, 0)
      | none => return (setMutex s m { mutex with owner := none, lockCount := 0 }, 0)

inductive Op (T M O : Type) where
  /-- A thread begins to wait in `z_pend_curr` for something that is not a mutex. -/
  | pend (thread : T) (o : O)
  | unpendFirst (o : O)
  /-- `z_unpend_thread`, for a thread that waits for something that is not a mutex. -/
  | unpend (thread : T)
  | timeout (thread : T)
  | prioritySet (thread : T) (prio : Int)
  | lock (thread : T) (m : M) (noWait : Bool)
  /-- A thread whose wait for a mutex has timed out runs again. -/
  | lockTimedOut (thread : T)
  | unlock (thread : T) (m : M)
  deriving DecidableEq

def Runs (thread : T) : Prop := s.pendedOn thread = none ∧ s.lockTimedOut thread = none
  deriving Decidable

/-- One operation. Any wait may have a timeout. -/
def perform (ceiling : Int) (s : System T M O b) : Op T M O → Except Stop (System T M O b)
  | .pend thread o => if Runs s thread then addToWaitqLocked s thread (.other o) else .error .refused
  | .unpendFirst o => (zUnpendFirstThread s (.other o)).map Prod.fst
  | .unpend thread =>
    match s.pendedOn thread with
    | some (.other o) => unpendThreadNoTimeout s thread (.other o)
    | _ => .error .refused
  | .timeout thread =>
    match s.pendedOn thread with
    | some w => zThreadTimeout s thread w
    | none => .error .refused
  | .prioritySet thread prio => .ok (zSetPrio s thread prio)
  | .lock thread m noWait =>
    if Runs s thread then (zImplKMutexLock s ceiling m thread noWait).map Prod.fst else .error .refused
  | .lockTimedOut thread =>
    match s.lockTimedOut thread with
    | some m => (mutexLockTimedOut s ceiling m thread).map Prod.fst
    | none => .error .refused
  | .unlock thread m =>
    if Runs s thread then (zImplKMutexUnlock s m thread).map Prod.fst else .error .refused

/-- Before any operation. `k_mutex_init` does not set `owner_orig_prio`. -/
def initial (b : Backend) (base : T → ThreadBase) (heap : Object M O → Heap T) (orig : M → Int) : System T M O b where
  base := base
  waitq w := zWaitqInit (heap w) b
  pendedOn _ := none
  mutex m := { owner := none, lockCount := 0, ownerOrigPrio := orig m }
  lockTimedOut _ := none

end RtosKernel.Zephyr.Pend
