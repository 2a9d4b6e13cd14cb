import RtosKernel.Lib.Containers

/-! # Mutexes and task priorities (`os_mutex.c`, `os_task.c`, `os_tick.c`, `os_core.c`)

A mutex knows its owner, every task has a list of the mutexes it owns, and the tasks that
wait for a mutex are in its pend list in the order of their priorities. A task that waits
raises the owner, and if the owner waits itself the change goes on to the next owner. A
smaller number is a higher priority. Only tasks that are ready, or wait for a mutex, are
modelled; which of the ready tasks runs is left open. -/

namespace RtosKernel.Ucos.Mutexes
open Lib.Containers

inductive TaskState where
  | rdy
  | pend (timeout : Bool)
  | del
  deriving DecidableEq

/-- The part of `OS_TCB` that mutexes use; `PendObjPtr` is with the pend lists. -/
structure Tcb (M : Type) where
  prio : Nat
  basePrio : Nat
  taskState : TaskState
  /-- `MutexGrpHeadPtr` and the mutexes linked from there. -/
  mutexGrp : List M

/-- `OS_MUTEX` without its pend list. -/
structure Mutex (T : Type) where
  ownerTCBPtr : Option T
  ownerNestingCtr : Nat
  deriving DecidableEq

structure Kernel (T M : Type) where
  tcb : T → Tcb M
  mutex : M → Mutex T
  pend : Lists M T

structure Config where
  osCfgPrioMax : Nat
  /-- `(OS_NESTING_CTR)-1`. -/
  nestingCtrMax : Nat

inductive Err where
  | errNone
  | errMutexOwner
  | errMutexOvf
  | errPendWouldBlock
  | errPendAbortNone
  | errMutexNotOwner
  | errMutexNesting
  | errPrioInvalid
  | errStateInvalid
  deriving DecidableEq

inductive Stop where
  /-- The event cannot happen in this state. -/
  | refused
  | nullPtr
  /-- The loop of `OS_TaskChangePrio` has not ended within the number of rounds. -/
  | noReturn
  deriving DecidableEq

variable {T M : Type} [dT : DecidableEq T] [dM : DecidableEq M]

def Kernel.setTcb (k : Kernel T M) (t : T) (v : Tcb M) : Kernel T M := { k with tcb := Function.update k.tcb t v }

def Kernel.setPrio (k : Kernel T M) (t : T) (prio : Nat) : Kernel T M := k.setTcb t { k.tcb t with prio }

def Kernel.setState (k : Kernel T M) (t : T) (taskState : TaskState) : Kernel T M :=
  k.setTcb t { k.tcb t with taskState }

def Kernel.setGrp (k : Kernel T M) (t : T) (mutexGrp : List M) : Kernel T M := k.setTcb t { k.tcb t with mutexGrp }

def Kernel.setMutex (k : Kernel T M) (m : M) (v : Mutex T) : Kernel T M :=
  { k with mutex := Function.update k.mutex m v }

section Fields
variable {k : Kernel T M} {t u : T} {m m' : M} {v : Tcb M} {w : Mutex T}

omit dM in
@[simp] theorem tcb_setTcb : (k.setTcb t v).tcb u = if u = t then v else k.tcb u := Function.update_apply ..
omit dM in
@[simp] theorem pend_setTcb : (k.setTcb t v).pend = k.pend := rfl
section
omit dT

@[simp] theorem tcb_setMutex : (k.setMutex m w).tcb = k.tcb := rfl
@[simp] theorem mutex_setMutex : (k.setMutex m w).mutex m' = if m' = m then w else k.mutex m' :=
  Function.update_apply ..

theorem owner_setCtr (n : Nat) (m' : M) :
    ((k.setMutex m { k.mutex m with ownerNestingCtr := n }).mutex m').ownerTCBPtr = (k.mutex m').ownerTCBPtr := by
  rw [mutex_setMutex]
  split
  · rename_i hm
    rw [hm]
  · rfl

end

end Fields

def os_PendListRemove (k : Kernel T M) (t : T) : Kernel T M := { k with pend := k.pend.remove t }

def os_PendListInsertPrio (k : Kernel T M) (m : M) (t : T) : Kernel T M :=
  { k with pend := k.pend.insert (fun t => (k.tcb t).prio) m t }

def os_PendListChangePrio (k : Kernel T M) (m : M) (t : T) : Kernel T M :=
  match k.pend.items m with
  | _ :: _ :: _ => os_PendListInsertPrio (os_PendListRemove k t) m t
  | _ => k

def os_MutexGrpAdd (k : Kernel T M) (t : T) (m : M) : Kernel T M := k.setGrp t (m :: (k.tcb t).mutexGrp)

def os_MutexGrpRemove (k : Kernel T M) (t : T) (m : M) : Except Stop (Kernel T M) :=
  if m ∈ (k.tcb t).mutexGrp then .ok (k.setGrp t ((k.tcb t).mutexGrp.erase m)) else .error .nullPtr

/-- What `OS_PendAbort` and `OS_Post` do to a task that waits. -/
def Kernel.readied (k : Kernel T M) (t : T) : Kernel T M :=
  match (k.tcb t).taskState with
  | .pend _ => (os_PendListRemove k t).setState t .rdy
  | _ => k

def os_PendAbort (k : Kernel T M) (t : T) : Kernel T M := k.readied t

def os_Post (k : Kernel T M) (t : T) : Kernel T M := k.readied t

section Calls
variable (c : Config)

/-- The loop of `OS_MutexGrpPrioFindHighest`. -/
def grpHighest (k : Kernel T M) (highestPrio : Nat) : List M → Nat
  | [] => highestPrio
  | m :: grp =>
    match (k.pend.items m).head? with
    | some head => grpHighest k (if (k.tcb head).prio < highestPrio then (k.tcb head).prio else highestPrio) grp
    | none => grpHighest k highestPrio grp

def os_MutexGrpPrioFindHighest (k : Kernel T M) (t : T) : Nat := grpHighest k (c.osCfgPrioMax - 1) (k.tcb t).mutexGrp

/-- The priority a task goes back to: the highest that waits, but at least its own. -/
def prioOwn (k : Kernel T M) (t : T) : Nat :=
  let prioNew := os_MutexGrpPrioFindHighest c k t
  if prioNew > (k.tcb t).basePrio then (k.tcb t).basePrio else prioNew

/-- `OS_TaskChangePrio`; the number bounds the rounds of its loop. -/
def os_TaskChangePrio : Nat → Kernel T M → T → Nat → Except Stop (Kernel T M)
  | 0, _, _, _ => .error .noReturn
  | fuel + 1, k, t, prioNew =>
    let prioCur := (k.tcb t).prio
    match (k.tcb t).taskState with
    | .del => .ok k
    | .rdy => .ok (k.setPrio t prioNew)
    | .pend _ =>
      let k := k.setPrio t prioNew
      match k.pend.container t with
      | none => .ok k
      | some m =>
        let k := os_PendListChangePrio k m t
        match (k.mutex m).ownerTCBPtr with
        | none => .error .nullPtr
        | some owner =>
          if prioCur > prioNew then
            if (k.tcb owner).prio ≤ prioNew then .ok k else os_TaskChangePrio fuel k owner prioNew
          else if (k.tcb owner).prio = prioCur then
            let prioNew := prioOwn c k owner
            if prioNew = (k.tcb owner).prio then .ok k else os_TaskChangePrio fuel k owner prioNew
          else
            -- the owner is more urgent than the task was, and is changed nevertheless
            os_TaskChangePrio fuel k owner prioNew

/-- What `OSMutexPendAbort`, `OS_TickListUpdate` and `OSTaskDel` do to the owner when a task has stopped waiting. -/
def disinherit (fuel : Nat) (k : Kernel T M) (owner t : T) : Except Stop (Kernel T M) :=
  if (k.tcb owner).prio ≠ (k.tcb owner).basePrio ∧ (k.tcb owner).prio = (k.tcb t).prio then
    let prioNew := prioOwn c k owner
    if prioNew ≠ (k.tcb owner).prio then os_TaskChangePrio c fuel k owner prioNew else .ok k
  else .ok k

/-- `OSMutexPend`, up to where it waits. -/
def osMutexPend (fuel : Nat) (k : Kernel T M) (cur : T) (m : M) (nonBlocking timeout : Bool) :
    Except Stop (Kernel T M × Option Err) :=
  let mutex := k.mutex m
  if mutex.ownerNestingCtr = 0 then
    .ok (os_MutexGrpAdd (k.setMutex m ⟨some cur, 1⟩) cur m, some .errNone)
  else if mutex.ownerTCBPtr = some cur then
    if mutex.ownerNestingCtr = c.nestingCtrMax then .ok (k, some .errMutexOvf)
    else .ok (k.setMutex m { mutex with ownerNestingCtr := mutex.ownerNestingCtr + 1 }, some .errMutexOwner)
  else if nonBlocking then .ok (k, some .errPendWouldBlock)
  else
    match mutex.ownerTCBPtr with
    | none => .error .nullPtr
    | some owner =>
      (if (k.tcb owner).prio > (k.tcb cur).prio then os_TaskChangePrio c fuel k owner (k.tcb cur).prio else .ok k).map
        fun k => (os_PendListInsertPrio (k.setState cur (.pend timeout)) m cur, none)

/-- One round of the loop of `OSMutexPendAbort`. -/
def abortFirst (fuel : Nat) (k : Kernel T M) (m : M) (t : T) : Except Stop (Kernel T M) :=
  match (k.mutex m).ownerTCBPtr with
  | none => .error .nullPtr
  | some owner => disinherit c fuel (os_PendAbort k t) owner t

/-- The loop of `OSMutexPendAbort`; every round takes a task out of the pend list. -/
def abortLoop (fuel : Nat) (all : Bool) (m : M) : Nat → Kernel T M → Except Stop (Kernel T M)
  | 0, k => .ok k
  | n + 1, k =>
    match k.pend.items m with
    | [] => .ok k
    | t :: _ => (abortFirst c fuel k m t).bind fun k => if all then abortLoop fuel all m n k else .ok k

/-- `OSMutexPendAbort`; `all` is `opt == OS_OPT_PEND_ABORT_ALL`. -/
def osMutexPendAbort (fuel : Nat) (k : Kernel T M) (m : M) (all : Bool) : Except Stop (Kernel T M × Err) :=
  match k.pend.items m with
  | [] => .ok (k, .errPendAbortNone)
  | l => (abortLoop c fuel all m l.length k).map fun k => (k, .errNone)

def osMutexPost (k : Kernel T M) (cur : T) (m : M) : Except Stop (Kernel T M × Err) :=
  let mutex := k.mutex m
  if mutex.ownerTCBPtr ≠ some cur then .ok (k, .errMutexNotOwner)
  else
    let ownerNestingCtr := (mutex.ownerNestingCtr + c.nestingCtrMax) % (c.nestingCtrMax + 1)
    let k := k.setMutex m { mutex with ownerNestingCtr }
    if ownerNestingCtr > 0 then .ok (k, .errMutexNesting)
    else do
      let k ← os_MutexGrpRemove k cur m
      match (k.pend.items m).head? with
      | none => return (k.setMutex m ⟨none, 0⟩, .errNone)
      | some t =>
        let k :=
          if (k.tcb cur).prio ≠ (k.tcb cur).basePrio then
            let prioNew := prioOwn c k cur
            if prioNew > (k.tcb cur).prio then k.setPrio cur prioNew else k
          else k
        return (os_Post (os_MutexGrpAdd (k.setMutex m ⟨some t, 1⟩) t m) t, .errNone)

/-- What `OS_TickListUpdate` does to a task that waits for a mutex and whose timeout has expired. -/
def tickPendTimeout (fuel : Nat) (k : Kernel T M) (t : T) : Except Stop (Kernel T M) :=
  match k.pend.container t with
  | none => .error .nullPtr
  | some m =>
    let pTcbOwner := (k.mutex m).ownerTCBPtr
    let k := (os_PendListRemove k t).setState t .rdy
    match pTcbOwner with
    | none => .ok k
    | some owner => disinherit c fuel k owner t

def osTaskChangePrio (fuel : Nat) (k : Kernel T M) (t : T) (prioNew : Nat) : Except Stop (Kernel T M × Err) :=
  if (k.tcb t).taskState = .del then .ok (k, .errStateInvalid)
  else if prioNew ≥ c.osCfgPrioMax - 1 then .ok (k, .errPrioInvalid)
  else
    let k := k.setTcb t { k.tcb t with basePrio := prioNew }
    let prioHigh := os_MutexGrpPrioFindHighest c k t
    let prioNew :=
      if (k.tcb t).mutexGrp ≠ [] ∧ prioNew > (k.tcb t).prio ∧ prioNew > prioHigh then prioHigh else prioNew
    (os_TaskChangePrio c fuel k t prioNew).map fun k => (k, .errNone)

/-- The loop of `OS_MutexGrpPostAll`. -/
def grpPostAll (k : Kernel T M) (t : T) : List M → Except Stop (Kernel T M)
  | [] => .ok k
  | m :: grp => do
    let k ← os_MutexGrpRemove k t m
    match (k.pend.items m).head? with
    | none => grpPostAll (k.setMutex m ⟨none, 0⟩) t grp
    | some new =>
      -- the owner is the task that is being deleted, not the one that gets the mutex
      grpPostAll (os_Post (os_MutexGrpAdd (k.setMutex m ⟨some t, 1⟩) new m) new) t grp

def os_MutexGrpPostAll (k : Kernel T M) (t : T) : Except Stop (Kernel T M) := grpPostAll k t (k.tcb t).mutexGrp

/-- The part of `OSTaskDel` for a task that waits. -/
def delPending (fuel : Nat) (k : Kernel T M) (t : T) : Except Stop (Kernel T M) :=
  match k.pend.container t with
  | none => .ok k
  | some m =>
    match (k.mutex m).ownerTCBPtr with
    | none => .error .nullPtr
    | some owner => disinherit c fuel (os_PendListRemove k t) owner t

def osTaskDel (fuel : Nat) (k : Kernel T M) (t : T) : Except Stop (Kernel T M × Err) :=
  match (k.tcb t).taskState with
  | .del => .ok (k, .errStateInvalid)
  | s =>
    let leave := match s with
      | .pend _ => delPending c fuel k t
      | _ => .ok k
    let post := leave.bind fun k => if (k.tcb t).mutexGrp ≠ [] then os_MutexGrpPostAll k t else .ok k
    -- `OS_TaskInitTCB`
    post.map fun k => (k.setTcb t ⟨c.osCfgPrioMax, c.osCfgPrioMax, .del, []⟩, .errNone)

inductive Event (T M : Type) where
  | pend (cur : T) (mutex : M) (nonBlocking timeout : Bool)
  | post (cur : T) (mutex : M)
  | pendAbort (cur : T) (mutex : M) (all : Bool)
  /-- The timeout of a task that waits expires. -/
  | timeout (task : T)
  | changePrio (cur task : T) (prioNew : Nat)
  | del (cur task : T)
  deriving DecidableEq

/-- A call of a task that is ready, or the end of a timeout. -/
def step (fuel : Nat) (k : Kernel T M) : Event T M → Except Stop (Kernel T M)
  | .pend cur m nonBlocking timeout =>
    if (k.tcb cur).taskState = .rdy then (osMutexPend c fuel k cur m nonBlocking timeout).map Prod.fst
    else .error .refused
  | .post cur m =>
    if (k.tcb cur).taskState = .rdy then (osMutexPost c k cur m).map Prod.fst else .error .refused
  | .pendAbort cur m all =>
    if (k.tcb cur).taskState = .rdy then (osMutexPendAbort c fuel k m all).map Prod.fst else .error .refused
  | .timeout t => if (k.tcb t).taskState = .pend true then tickPendTimeout c fuel k t else .error .refused
  | .changePrio cur t prioNew =>
    if (k.tcb cur).taskState = .rdy then (osTaskChangePrio c fuel k t prioNew).map Prod.fst else .error .refused
  | .del cur t =>
    if (k.tcb cur).taskState = .rdy then (osTaskDel c fuel k t).map Prod.fst else .error .refused

/-- Tasks as `OSTaskCreate` and mutexes as `OSMutexCreate` leave them. -/
def start (prio : T → Nat) : Kernel T M where
  tcb t := { prio := prio t, basePrio := prio t, taskState := .rdy, mutexGrp := [] }
  mutex _ := { ownerTCBPtr := none, ownerNestingCtr := 0 }
  pend := { items := fun _ => [], container := fun _ => none }

/-! ## What a step can do -/

def Kernel.release (k : Kernel T M) (t : T) (m : M) : Kernel T M :=
  (k.setGrp t ((k.tcb t).mutexGrp.erase m)).setMutex m ⟨none, 0⟩

/-- A task gets a mutex that nobody owns. -/
def Kernel.take (k : Kernel T M) (t : T) (m : M) : Kernel T M := os_MutexGrpAdd (k.setMutex m ⟨some t, 1⟩) t m

/-- A task that runs goes back to the priority it is left with, if this is lower. -/
def Kernel.lowered (k : Kernel T M) (t : T) : Kernel T M :=
  if (k.tcb t).prio ≠ (k.tcb t).basePrio ∧ prioOwn c k t > (k.tcb t).prio then k.setPrio t (prioOwn c k t) else k

/-- A task leaves its pend list and is ready. -/
def Kernel.woken (k : Kernel T M) (t : T) : Kernel T M := (os_PendListRemove k t).setState t .rdy

/-- The owner a waiting task finds is raised if it is less urgent. -/
def raise (fuel : Nat) (k : Kernel T M) (owner : T) (prio : Nat) : Except Stop (Kernel T M) :=
  if (k.tcb owner).prio > prio then os_TaskChangePrio c fuel k owner prio else .ok k

/-- The priority `OSTaskChangePrio` passes on. -/
def changedPrio (k : Kernel T M) (t : T) (prioNew : Nat) : Nat :=
  let prioHigh := os_MutexGrpPrioFindHighest c k t
  if (k.tcb t).mutexGrp ≠ [] ∧ prioNew > (k.tcb t).prio ∧ prioNew > prioHigh then prioHigh else prioNew

inductive Outcome (fuel : Nat) (k : Kernel T M) : Event T M → Kernel T M → Prop where
  | same {e} : Outcome fuel k e k
  | taken {cur m nonBlocking timeout} (hrdy : (k.tcb cur).taskState = .rdy)
      (hfree : (k.mutex m).ownerNestingCtr = 0) : Outcome fuel k (.pend cur m nonBlocking timeout) (k.take cur m)
  | nested {cur m nonBlocking timeout} (hheld : (k.mutex m).ownerNestingCtr ≠ 0) :
      Outcome fuel k (.pend cur m nonBlocking timeout)
        (k.setMutex m { k.mutex m with ownerNestingCtr := (k.mutex m).ownerNestingCtr + 1 })
  | waits {cur m owner timeout k₁} (hrdy : (k.tcb cur).taskState = .rdy) (howner : (k.mutex m).ownerTCBPtr = some owner)
      (hother : owner ≠ cur) (hraise : raise c fuel k owner (k.tcb cur).prio = .ok k₁) :
      Outcome fuel k (.pend cur m false timeout) (os_PendListInsertPrio (k₁.setState cur (.pend timeout)) m cur)
  | unnested {cur m n} (howner : (k.mutex m).ownerTCBPtr = some cur) (hpos : n > 0) :
      Outcome fuel k (.post cur m) (k.setMutex m { k.mutex m with ownerNestingCtr := n })
  | freed {cur m} (howner : (k.mutex m).ownerTCBPtr = some cur) (hnone : k.pend.items m = []) :
      Outcome fuel k (.post cur m) (k.release cur m)
  | handedOver {cur m t} (hrdy : (k.tcb cur).taskState = .rdy) (howner : (k.mutex m).ownerTCBPtr = some cur)
      (hhead : (k.pend.items m).head? = some t) :
      Outcome fuel k (.post cur m) ((((k.release cur m).lowered c cur).take t m).readied t)
  | aborted {cur m all k'} (hloop : abortLoop c fuel all m (k.pend.items m).length k = .ok k') :
      Outcome fuel k (.pendAbort cur m all) k'
  | timedOut {t m owner k'} (hpend : k.pend.container t = some m) (howner : (k.mutex m).ownerTCBPtr = some owner)
      (hdis : disinherit c fuel (k.woken t) owner t = .ok k') : Outcome fuel k (.timeout t) k'
  | left {t m} (hpend : k.pend.container t = some m) (howner : (k.mutex m).ownerTCBPtr = none) :
      Outcome fuel k (.timeout t) (k.woken t)
  | changed {cur t p k'} (halive : (k.tcb t).taskState ≠ .del) (hlt : p < c.osCfgPrioMax - 1)
      (hchange : os_TaskChangePrio c fuel (k.setTcb t { k.tcb t with basePrio := p }) t
        (changedPrio c (k.setTcb t { k.tcb t with basePrio := p }) t p) = .ok k') :
      Outcome fuel k (.changePrio cur t p) k'
  | deleted {cur t k₁ k₂} (halive : (k.tcb t).taskState ≠ .del)
      (hleave : (∃ timeout, (k.tcb t).taskState = .pend timeout ∧ delPending c fuel k t = .ok k₁) ∨
        (k.tcb t).taskState = .rdy ∧ k₁ = k)
      (hpost : grpPostAll k₁ t (k₁.tcb t).mutexGrp = .ok k₂) :
      Outcome fuel k (.del cur t) (k₂.setTcb t ⟨c.osCfgPrioMax, c.osCfgPrioMax, .del, []⟩)

end Calls

end RtosKernel.Ucos.Mutexes
