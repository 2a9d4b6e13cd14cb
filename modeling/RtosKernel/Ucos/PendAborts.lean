import RtosKernel.Ucos.MutexOwners

/-! # Aborting waits (`os_core.c`, `os_sem.c`, `os_q.c`, `os_flag.c`, `os_mutex.c`, `os_task.c`)

A task waits for an object, which then has it in its pend list, or for its own semaphore or message queue. Whether a
call has to wait is left open, and so is which of the ready tasks runs. `OSTaskSemPendAbort` has two critical sections,
with steps of other tasks and of interrupts between them. -/

namespace RtosKernel.Ucos.PendAborts
open Lib.Containers Lib.Runs List

def OS_OPT_PEND_ABORT_1 : Nat := 0x0000
def OS_OPT_PEND_ABORT_ALL : Nat := 0x0100
def OS_OPT_POST_NONE : Nat := 0x0000
def OS_OPT_POST_NO_SCHED : Nat := 0x8000

/-- What `OS_TASK_STATE_…` says of a task that may be suspended besides. -/
inductive Wait where
  | rdy
  | dly
  | pend
  | pendTimeout
  deriving DecidableEq

inductive Kind where
  | sem
  | q
  | flag
  | mutex
  deriving DecidableEq

/-- `OS_TASK_PEND_ON_…`. -/
inductive PendOn where
  | nothing
  | taskSem
  | taskQ
  | obj (kind : Kind)
  deriving DecidableEq

inductive Status where
  | ok
  | abort
  | timeout
  deriving DecidableEq

/-- The part of `OS_TCB` that waiting uses; `PendObjPtr` is with the pend lists. -/
structure Tcb where
  prio : Nat
  wait : Wait
  suspendCtr : Nat
  pendOn : PendOn
  pendStatus : Status
  msgPtr : Nat
  msgSize : Nat
  ts : Nat
  deriving DecidableEq

structure Kernel (T O : Type) where
  tcb : T → Tcb
  pend : Lists O T
  /-- The target of a task that is between the critical sections of `OSTaskSemPendAbort`. -/
  aborting : T → Option T

inductive Err where
  | errNone
  | errOptInvalid
  | errPendAbortNone
  | errPendAbortSelf
  deriving DecidableEq

inductive Stop where
  /-- The event cannot happen in this state. -/
  | refused
  deriving DecidableEq

variable {T O : Type} [DecidableEq T] [DecidableEq O]

def Kernel.setTcb (k : Kernel T O) (t : T) (v : Tcb) : Kernel T O := { k with tcb := Function.update k.tcb t v }

def Tcb.waits (v : Tcb) : Prop := v.wait = .pend ∨ v.wait = .pendTimeout

instance (v : Tcb) : Decidable v.waits := inferInstanceAs (Decidable (_ ∨ _))

def os_Pend (k : Kernel T O) (o : Option O) (t : T) (pendOn : PendOn) (timeout : Bool) : Kernel T O :=
  let k := k.setTcb t
    { k.tcb t with pendOn, pendStatus := .ok, wait := if timeout then .pendTimeout else .pend }
  match o with
  | some o => { k with pend := k.pend.insert (fun t => (k.tcb t).prio) o t }
  | none => k

/-- What `OS_PendAbort`, `OS_Post` and `OS_TickListUpdate` do to a task that waits. A suspended one stays so. -/
def Kernel.readied (k : Kernel T O) (t : T) (msgPtr msgSize ts : Nat) (pendStatus : Status) : Kernel T O :=
  if (k.tcb t).waits then
    { k with pend := k.pend.remove t }.setTcb t
      { k.tcb t with wait := .rdy, pendOn := .nothing, pendStatus, msgPtr, msgSize, ts }
  else k

def os_PendAbort (k : Kernel T O) (t : T) (ts : Nat) (reason : Status) : Kernel T O := k.readied t 0 0 ts reason

def os_Post (k : Kernel T O) (t : T) (msgPtr msgSize ts : Nat) : Kernel T O := k.readied t msgPtr msgSize ts .ok

/-! ## Aborting the waits for an object -/

/-- What a call returns: with the tasks it readied, the error, and whether it calls `OSSched`. -/
structure Result (K : Type) where
  kernel : K
  nbrTasks : Nat
  err : Err
  sched : Bool

section Loop
variable {K X : Type} (pendList : K → List T) (abort : K → T → Except X K)

/-- The loop of the functions; every round takes a task out of the pend list, which bounds their number. -/
def abortLoop (opt : Nat) : Nat → K → Nat → Except X (K × Nat)
  | 0, k, nbrTasks => .ok (k, nbrTasks)
  | n + 1, k, nbrTasks =>
    match pendList k with
    | [] => .ok (k, nbrTasks)
    | t :: _ => (abort k t).bind fun k =>
      if opt ≠ OS_OPT_PEND_ABORT_ALL then .ok (k, nbrTasks + 1) else abortLoop opt n k (nbrTasks + 1)

/-- `OSSemPendAbort`, `OSQPendAbort`, `OSFlagPendAbort` and `OSMutexPendAbort`, by what they do to one task. -/
def pendAbort (opt : Nat) (k : K) : Except X (Result K) :=
  if opt ≠ OS_OPT_PEND_ABORT_1 ∧ opt ≠ OS_OPT_PEND_ABORT_ALL ∧ opt ≠ OS_OPT_PEND_ABORT_1 ||| OS_OPT_POST_NO_SCHED ∧
      opt ≠ OS_OPT_PEND_ABORT_ALL ||| OS_OPT_POST_NO_SCHED then
    .ok ⟨k, 0, .errOptInvalid, false⟩
  else if pendList k = [] then .ok ⟨k, 0, .errPendAbortNone, false⟩
  else (abortLoop pendList abort opt (pendList k).length k 0).map fun (k, nbrTasks) =>
    ⟨k, nbrTasks, .errNone, opt &&& OS_OPT_POST_NO_SCHED = 0⟩

end Loop

def osSemPendAbort (k : Kernel T O) (sem : O) (opt ts : Nat) : Except Stop (Result (Kernel T O)) :=
  pendAbort (fun k => k.pend.items sem) (fun k t => .ok (os_PendAbort k t ts .abort)) opt k

def osQPendAbort (k : Kernel T O) (q : O) (opt ts : Nat) : Except Stop (Result (Kernel T O)) :=
  pendAbort (fun k => k.pend.items q) (fun k t => .ok (os_PendAbort k t ts .abort)) opt k

def osFlagPendAbort (k : Kernel T O) (grp : O) (opt ts : Nat) : Except Stop (Result (Kernel T O)) :=
  pendAbort (fun k => k.pend.items grp) (fun k t => .ok (os_PendAbort k t ts .abort)) opt k

/-- `OSMutexPendAbort`, over the kernel with mutexes and their owners. -/
def osMutexPendAbort (c : Mutexes.Config) (fuel : Nat) (k : Mutexes.Kernel T O) (mutex : O) (opt : Nat) :
    Except Mutexes.Stop (Result (Mutexes.Kernel T O)) :=
  pendAbort (fun k => k.pend.items mutex) (fun k t => Mutexes.abortFirst c fuel k mutex t) opt k

/-- The first critical section of `OSTaskSemPendAbort`, with what the call returns if it ends there. -/
def osTaskSemPendAbort (k : Kernel T O) (cur : T) (target : Option T) (opt : Nat) : Kernel T O × Option (Bool × Err) :=
  if opt ≠ OS_OPT_POST_NONE ∧ opt ≠ OS_OPT_POST_NO_SCHED then (k, some (false, .errOptInvalid))
  else
    match target with
    | none => (k, some (false, .errPendAbortSelf))
    | some t =>
      if t = cur then (k, some (false, .errPendAbortSelf))
      else if (k.tcb t).pendOn ≠ .taskSem then (k, some (false, .errPendAbortNone))
      else ({ k with aborting := Function.update k.aborting cur (some t) }, none)

/-- The second critical section of `OSTaskSemPendAbort`; the call returns `OS_TRUE`. -/
def taskSemPendAbortEnd (k : Kernel T O) (cur t : T) (ts : Nat) : Kernel T O × Bool × Err :=
  ({ os_PendAbort k t ts .abort with aborting := Function.update k.aborting cur none }, true, .errNone)

/-! ## Runs -/

inductive Event (T O : Type) where
  /-- `OSSemPend`, `OSQPend`, `OSFlagPend` or `OSMutexPend`, when the task has to wait. -/
  | pend (cur : T) (obj : O) (timeout : Bool)
  /-- `OSTaskSemPend` or `OSTaskQPend`, when the task has to wait. -/
  | taskPend (cur : T) (sem timeout : Bool)
  | timeDly (cur : T)
  /-- A function that posts finds the task waiting. -/
  | post (task : T) (msgPtr msgSize ts : Nat)
  | timeout (task : T) (ts : Nat)
  | suspend (task : T)
  | resume (task : T)
  /-- A wait for an object is aborted, by the function for its kind. -/
  | pendAbort (obj : O) (opt ts : Nat)
  | taskSemPendAbort (cur : T) (target : Option T) (opt : Nat)
  | taskSemPendAbortEnd (cur : T) (ts : Nat)
  deriving DecidableEq

/-- The task can run, and is not between two critical sections. -/
def Kernel.Runs (k : Kernel T O) (t : T) : Prop :=
  (k.tcb t).wait = .rdy ∧ (k.tcb t).suspendCtr = 0 ∧ k.aborting t = none

instance (k : Kernel T O) (t : T) : Decidable (k.Runs t) := inferInstanceAs (Decidable (_ ∧ _))

def step (kind : O → Kind) (k : Kernel T O) : Event T O → Except Stop (Kernel T O)
  | .pend cur o timeout => if k.Runs cur then .ok (os_Pend k (some o) cur (.obj (kind o)) timeout) else .error .refused
  | .taskPend cur sem timeout =>
    if k.Runs cur then .ok (os_Pend k none cur (if sem then .taskSem else .taskQ) timeout) else .error .refused
  | .timeDly cur => if k.Runs cur then .ok (k.setTcb cur { k.tcb cur with wait := .dly }) else .error .refused
  | .post t msgPtr msgSize ts => .ok (os_Post k t msgPtr msgSize ts)
  | .timeout t ts =>
    match (k.tcb t).wait with
    | .dly => .ok (k.setTcb t { k.tcb t with wait := .rdy })
    | .pendTimeout => .ok (k.readied t 0 0 ts .timeout)
    | .rdy | .pend => .error .refused
  | .suspend t => .ok (k.setTcb t { k.tcb t with suspendCtr := (k.tcb t).suspendCtr + 1 })
  | .resume t => .ok (k.setTcb t { k.tcb t with suspendCtr := (k.tcb t).suspendCtr - 1 })
  | .pendAbort o opt ts =>
    match kind o with
    | .sem => (osSemPendAbort k o opt ts).map Result.kernel
    | .q => (osQPendAbort k o opt ts).map Result.kernel
    | .flag => (osFlagPendAbort k o opt ts).map Result.kernel
    | .mutex => .error .refused
  | .taskSemPendAbort cur target opt =>
    if k.Runs cur then .ok (osTaskSemPendAbort k cur target opt).1 else .error .refused
  | .taskSemPendAbortEnd cur ts =>
    match k.aborting cur with
    | some t =>
      if (k.tcb cur).wait = .rdy ∧ (k.tcb cur).suspendCtr = 0 then .ok (taskSemPendAbortEnd k cur t ts).1
      else .error .refused
    | none => .error .refused

/-- Tasks as `OSTaskCreate` leaves them. -/
def start (prio : T → Nat) : Kernel T O where
  tcb t :=
    { prio := prio t, wait := .rdy, suspendCtr := 0, pendOn := .nothing, pendStatus := .ok, msgPtr := 0, msgSize := 0,
      ts := 0 }
  pend := { items := fun _ => [], container := fun _ => none }
  aborting _ := none

end RtosKernel.Ucos.PendAborts
