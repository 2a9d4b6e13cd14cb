import RtosKernel.Lib.Word
import RtosKernel.Lib.Containers
import RtosKernel.FreeRTOS.Def

/-! # Tasks: ready lists, delays and mutexes (`tasks.c`, `queue.c`)

The scheduler keeps one ready list for each priority, with a bitmap of those that are not empty, and two lists
of delayed tasks that change places when the tick count overflows. The scheduler is running whenever the
functions are called. -/
namespace RtosKernel.FreeRTOS.Tasks
open Lib.Word Lib.Containers FreeRTOS.Def

/-- The build: the width of `TickType_t`, `configMAX_PRIORITIES` and `INCLUDE_vTaskSuspend`. With
`configUSE_PORT_OPTIMISED_TASK_SELECTION` a port has at most 32 priorities. -/
structure Config where
  tickBits : Nat
  configMaxPriorities : Nat
  includeVTaskSuspend : Bool
  bits_pos : 0 < tickBits
  priorities_le : configMaxPriorities ≤ 32

def Config.portMaxDelay (c : Config) : Nat := 2 ^ c.tickBits - 1

def Config.eventListItemValueInUse (c : Config) : Nat := 2 ^ (c.tickBits - 1)

/-- The lists that the state list item of a task can be in. -/
inductive StateList where
  /-- `pxReadyTasksLists[ uxPriority ]` -/
  | ready (uxPriority : Nat)
  /-- `xDelayedTaskList1` and `xDelayedTaskList2` -/
  | delayed (second : Bool)
  /-- `xSuspendedTaskList` -/
  | suspended
  deriving DecidableEq

structure Tcb where
  uxPriority : Nat
  uxBasePriority : Nat
  uxMutexesHeld : Nat
  /-- the value of `xStateListItem`: the time to wake -/
  xStateItemValue : Nat
  /-- the value of `xEventListItem`: the priority in reverse -/
  xEventItemValue : Nat
  deriving DecidableEq

/-- The queue of a mutex; its `xTasksWaitingToReceive` is one of the event lists. -/
structure Mutex (Tid : Type) where
  uxMessagesWaiting : Nat
  xMutexHolder : Option Tid

structure Kernel (Tid Mid : Type) where
  tcb : Tid → Tcb
  pxCurrentTCB : Tid
  /-- the lists of the state list items -/
  states : Lists StateList Tid
  /-- `xTasksWaitingToReceive` of each mutex, the lists of the event list items -/
  events : Lists Mid Tid
  uxTopReadyPriority : BitVec 32
  /-- which of the two lists `pxDelayedTaskList` points to -/
  pxDelayedTaskList : Bool
  xTickCount : Nat
  xNextTaskUnblockTime : Nat
  mutex : Mid → Mutex Tid
  /-- the `xQueueSemaphoreTake` a task is in, with `xInheritanceOccurred` -/
  taking : Tid → Option (Mid × Bool)

variable {Tid Mid : Type} [DecidableEq Tid] [DecidableEq Mid]

def Kernel.setTcb (k : Kernel Tid Mid) (t : Tid) (v : Tcb) : Kernel Tid Mid :=
  { k with tcb := Function.update k.tcb t v }

def Kernel.ready (k : Kernel Tid Mid) (uxPriority : Nat) : List Tid := k.states.items (.ready uxPriority)

/-- `*pxDelayedTaskList`. -/
def Kernel.delayed (k : Kernel Tid Mid) : List Tid := k.states.items (.delayed k.pxDelayedTaskList)

/-- `*pxOverflowDelayedTaskList`. -/
def Kernel.overflowDelayed (k : Kernel Tid Mid) : List Tid := k.states.items (.delayed (!k.pxDelayedTaskList))

/-! ## The ready lists -/

def portRecordReadyPriority (uxPriority : Nat) (uxReadyPriorities : BitVec 32) : BitVec 32 :=
  uxReadyPriorities ||| (1#32 <<< uxPriority)

def portResetReadyPriority (uxPriority : Nat) (uxReadyPriorities : BitVec 32) : BitVec 32 :=
  uxReadyPriorities &&& ~~~(1#32 <<< uxPriority)

/-- `portGET_HIGHEST_PRIORITY`: 31 less the leading zeros. -/
def portGetHighestPriority (uxReadyPriorities : BitVec 32) : Nat := 31 - uxReadyPriorities.clz.toNat

/-- `prvAddTaskToReadyList`. Which task of a list is next is left to the switch, so that the place does not
matter. -/
def prvAddTaskToReadyList (k : Kernel Tid Mid) (t : Tid) : Kernel Tid Mid :=
  { k with
    uxTopReadyPriority := portRecordReadyPriority (k.tcb t).uxPriority k.uxTopReadyPriority
    states := k.states.pushBack (.ready (k.tcb t).uxPriority) t }

/-- `uxListRemove` of a state list item, and the number of items left. -/
def uxListRemove (k : Kernel Tid Mid) (t : Tid) : Kernel Tid Mid × Nat :=
  let states := k.states.remove t
  ({ k with states }, match k.states.container t with
    | some l => (states.items l).length
    | none => 0)

/-- Take a task out of its ready list and clear bit `uxPriority` if the list is empty then. -/
def removeReady (k : Kernel Tid Mid) (t : Tid) (uxPriority : Nat) : Kernel Tid Mid :=
  let r := uxListRemove k t
  { r.1 with
    uxTopReadyPriority := if r.2 = 0 then portResetReadyPriority uxPriority k.uxTopReadyPriority
      else k.uxTopReadyPriority }

/-- `taskSELECT_HIGHEST_PRIORITY_TASK`; `t` is the task that `listGET_OWNER_OF_NEXT_ENTRY` gives. -/
def taskSelectHighestPriorityTask (k : Kernel Tid Mid) (t : Tid) : Option (Kernel Tid Mid) := do
  let uxTopPriority := portGetHighestPriority k.uxTopReadyPriority
  configAssert ((k.ready uxTopPriority).length > 0)
  if t ∈ k.ready uxTopPriority then return { k with pxCurrentTCB := t } else none

/-! ## Delays -/

section Delay
variable (c : Config)

/-- Insert the current task into the delayed list for its time to wake. -/
def insertDelayed (k : Kernel Tid Mid) (xTimeToWake : Nat) : Kernel Tid Mid :=
  let t := k.pxCurrentTCB
  let k := k.setTcb t { k.tcb t with xStateItemValue := xTimeToWake }
  let value := fun x => (k.tcb x).xStateItemValue
  if xTimeToWake < k.xTickCount then
    { k with states := k.states.insert value (.delayed (!k.pxDelayedTaskList)) t }
  else
    { k with
      states := k.states.insert value (.delayed k.pxDelayedTaskList) t
      xNextTaskUnblockTime := if xTimeToWake < k.xNextTaskUnblockTime then xTimeToWake else k.xNextTaskUnblockTime }

def prvAddCurrentTaskToDelayedList (k : Kernel Tid Mid) (xTicksToWait : Nat) (xCanBlockIndefinitely : Bool) :
    Kernel Tid Mid :=
  let t := k.pxCurrentTCB
  let k := removeReady k t (k.tcb t).uxPriority
  if c.includeVTaskSuspend ∧ xTicksToWait = c.portMaxDelay ∧ xCanBlockIndefinitely then
    { k with states := k.states.pushBack .suspended t }
  else insertDelayed k (addw c.tickBits k.xTickCount xTicksToWait)

def vTaskDelay (k : Kernel Tid Mid) (xTicksToDelay : Nat) : Kernel Tid Mid :=
  if xTicksToDelay > 0 then prvAddCurrentTaskToDelayedList c k xTicksToDelay false else k

/-- Whether `xTaskDelayUntil` delays. -/
def shouldDelay (xConstTickCount pxPreviousWakeTime xTimeToWake : Nat) : Bool :=
  if xConstTickCount < pxPreviousWakeTime then
    xTimeToWake < pxPreviousWakeTime ∧ xTimeToWake > xConstTickCount
  else xTimeToWake < pxPreviousWakeTime ∨ xTimeToWake > xConstTickCount

/-- `xTaskDelayUntil`: the kernel, `*pxPreviousWakeTime`, and what it returns. -/
def xTaskDelayUntil (k : Kernel Tid Mid) (pxPreviousWakeTime xTimeIncrement : Nat) :
    Option (Kernel Tid Mid × Nat × Bool) := do
  configAssert (xTimeIncrement > 0)
  let xTimeToWake := addw c.tickBits pxPreviousWakeTime xTimeIncrement
  let xShouldDelay := shouldDelay k.xTickCount pxPreviousWakeTime xTimeToWake
  let k := if xShouldDelay then
      prvAddCurrentTaskToDelayedList c k (subw c.tickBits xTimeToWake k.xTickCount) false
    else k
  return (k, xTimeToWake, xShouldDelay)

def prvResetNextTaskUnblockTime (k : Kernel Tid Mid) : Kernel Tid Mid :=
  { k with xNextTaskUnblockTime := match k.delayed with
      | [] => c.portMaxDelay
      | t :: _ => (k.tcb t).xStateItemValue }

def taskSwitchDelayedLists (k : Kernel Tid Mid) : Option (Kernel Tid Mid) := do
  configAssert (k.delayed = [])
  return prvResetNextTaskUnblockTime c { k with pxDelayedTaskList := !k.pxDelayedTaskList }

/-- The delayed task at the head of the list is unblocked. -/
def unblock (k : Kernel Tid Mid) (t : Tid) : Kernel Tid Mid :=
  prvAddTaskToReadyList { k with states := k.states.remove t, events := k.events.remove t } t

/-- The loop of `xTaskIncrementTick`. -/
def unblockExpired : Nat → Kernel Tid Mid → Kernel Tid Mid
  | 0, k => k
  | fuel + 1, k =>
    match k.delayed with
    | [] => { k with xNextTaskUnblockTime := c.portMaxDelay }
    | t :: _ =>
      if k.xTickCount < (k.tcb t).xStateItemValue then
        { k with xNextTaskUnblockTime := (k.tcb t).xStateItemValue }
      else unblockExpired fuel (unblock k t)

/-- The new tick count, and the lists switched if it has overflowed. -/
def countTick (k : Kernel Tid Mid) : Option (Kernel Tid Mid) :=
  let k := { k with xTickCount := addw c.tickBits k.xTickCount 1 }
  if k.xTickCount = 0 then taskSwitchDelayedLists c k else some k

def xTaskIncrementTick (k : Kernel Tid Mid) : Option (Kernel Tid Mid) :=
  (countTick c k).map fun k =>
    if k.xTickCount ≥ k.xNextTaskUnblockTime then unblockExpired c (k.delayed.length + 1) k else k

end Delay

end RtosKernel.FreeRTOS.Tasks
