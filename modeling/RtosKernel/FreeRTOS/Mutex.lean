import RtosKernel.FreeRTOS.Tasks

/-! # Priority inheritance (`tasks.c`, `queue.c`)

A task that has to wait for a mutex raises the holder to its own priority. The
holder goes back when it has given its last mutex, or when the wait times out and
it holds no other. `xQueueSemaphoreTake` is cut where other tasks can run. -/
namespace RtosKernel.FreeRTOS.Tasks
open Lib.Containers FreeRTOS.Def

variable {Tid Mid : Type} [DecidableEq Tid] [DecidableEq Mid]

def Kernel.setPriority (k : Kernel Tid Mid) (t : Tid) (uxPriority : Nat) : Kernel Tid Mid :=
  k.setTcb t { k.tcb t with uxPriority }

def Kernel.setMutex (k : Kernel Tid Mid) (m : Mid) (v : Mutex Tid) : Kernel Tid Mid :=
  { k with mutex := Function.update k.mutex m v }

def Kernel.setTaking (k : Kernel Tid Mid) (t : Tid) (v : Option (Mid × Bool)) : Kernel Tid Mid :=
  { k with taking := Function.update k.taking t v }

variable (c : Config)

/-- The value of the event list item for a priority. -/
def eventItemValue (uxPriority : Nat) : Nat := c.configMaxPriorities - uxPriority

/-- Set the value of the event list item, unless it is in use for something else. -/
def setEventItemValue (k : Kernel Tid Mid) (t : Tid) (uxPriority : Nat) : Kernel Tid Mid :=
  if (k.tcb t).xEventItemValue &&& c.eventListItemValueInUse = 0 then
    k.setTcb t { k.tcb t with xEventItemValue := eventItemValue c uxPriority }
  else k

/-- `xTaskPriorityInherit`, and what it returns. -/
def xTaskPriorityInherit (k : Kernel Tid Mid) : Option Tid → Kernel Tid Mid × Bool
  | none => (k, false)
  | some holder =>
    let uxPriority := (k.tcb k.pxCurrentTCB).uxPriority
    if (k.tcb holder).uxPriority < uxPriority then
      let k := setEventItemValue c k holder uxPriority
      if k.states.container holder = some (.ready (k.tcb holder).uxPriority) then
        let k := removeReady k holder (k.tcb holder).uxPriority
        (prvAddTaskToReadyList (k.setPriority holder uxPriority) holder, true)
      else (k.setPriority holder uxPriority, true)
    else (k, (k.tcb holder).uxBasePriority < uxPriority)

/-- `xTaskPriorityDisinherit`, and what it returns. -/
def xTaskPriorityDisinherit (k : Kernel Tid Mid) : Option Tid → Option (Kernel Tid Mid × Bool)
  | none => some (k, false)
  | some holder => do
    configAssert (holder = k.pxCurrentTCB)
    configAssert ((k.tcb holder).uxMutexesHeld ≠ 0)
    let k := k.setTcb holder { k.tcb holder with uxMutexesHeld := (k.tcb holder).uxMutexesHeld - 1 }
    let v := k.tcb holder
    if v.uxPriority ≠ v.uxBasePriority ∧ v.uxMutexesHeld = 0 then
      let k := removeReady k holder v.uxPriority
      let k := k.setTcb holder { v with
        uxPriority := v.uxBasePriority, xEventItemValue := eventItemValue c v.uxBasePriority }
      return (prvAddTaskToReadyList k holder, true)
    else return (k, false)

def vTaskPriorityDisinheritAfterTimeout (k : Kernel Tid Mid) (uxHighestPriorityWaitingTask : Nat) :
    Option Tid → Option (Kernel Tid Mid)
  | none => some k
  | some holder => do
    let v := k.tcb holder
    configAssert (v.uxMutexesHeld ≠ 0)
    let uxPriorityToUse := if v.uxBasePriority < uxHighestPriorityWaitingTask then uxHighestPriorityWaitingTask
      else v.uxBasePriority
    if v.uxPriority ≠ uxPriorityToUse ∧ v.uxMutexesHeld = 1 then
      configAssert (holder ≠ k.pxCurrentTCB)
      let uxPriorityUsedOnEntry := v.uxPriority
      let k := setEventItemValue c (k.setPriority holder uxPriorityToUse) holder uxPriorityToUse
      if k.states.container holder = some (.ready uxPriorityUsedOnEntry) then
        -- the priority has been overwritten: the bit that is cleared is the new one's
        return prvAddTaskToReadyList (removeReady k holder (k.tcb holder).uxPriority) holder
      else return k
    else return k

def prvGetDisinheritPriorityAfterTimeout (k : Kernel Tid Mid) (m : Mid) : Nat :=
  match k.events.items m with
  | [] => 0
  | t :: _ => c.configMaxPriorities - (k.tcb t).xEventItemValue

/-! ## Taking and giving -/

def xTaskRemoveFromEventList (k : Kernel Tid Mid) (t : Tid) : Kernel Tid Mid :=
  prvAddTaskToReadyList { k with events := k.events.remove t, states := k.states.remove t } t

def vTaskPlaceOnEventList (k : Kernel Tid Mid) (m : Mid) (xTicksToWait : Nat) : Kernel Tid Mid :=
  prvAddCurrentTaskToDelayedList c
    { k with events := k.events.insert (fun x => (k.tcb x).xEventItemValue) m k.pxCurrentTCB } xTicksToWait true

def pvTaskIncrementMutexHeldCount (k : Kernel Tid Mid) : Kernel Tid Mid × Tid :=
  let t := k.pxCurrentTCB
  (k.setTcb t { k.tcb t with uxMutexesHeld := (k.tcb t).uxMutexesHeld + 1 }, t)

/-- The first critical section in the loop of `xQueueSemaphoreTake`. -/
def takeCheck (k : Kernel Tid Mid) (m : Mid) : Kernel Tid Mid :=
  if (k.mutex m).uxMessagesWaiting > 0 then
    let (k, holder) := pvTaskIncrementMutexHeldCount k
    (k.setMutex m ⟨(k.mutex m).uxMessagesWaiting - 1, some holder⟩).setTaking k.pxCurrentTCB none
  else k

/-- The loop without a block time, behind the check: the call fails. -/
def takeFail (k : Kernel Tid Mid) (xInheritanceOccurred : Bool) : Option (Kernel Tid Mid) := do
  configAssert (xInheritanceOccurred = false)
  return k.setTaking k.pxCurrentTCB none

/-- The second part of the loop while the time has not run out. -/
def takeWait (k : Kernel Tid Mid) (m : Mid) (xTicksToWait : Nat) : Kernel Tid Mid :=
  if (k.mutex m).uxMessagesWaiting = 0 then
    let (k, xInheritanceOccurred) := xTaskPriorityInherit c k (k.mutex m).xMutexHolder
    vTaskPlaceOnEventList c (k.setTaking k.pxCurrentTCB (some (m, xInheritanceOccurred))) m xTicksToWait
  else k

/-- The second part of the loop when the time has run out: the critical section of `prvIsQueueEmpty` and the one
that disinherits, as one step. -/
def takeTimeout (k : Kernel Tid Mid) (m : Mid) (xInheritanceOccurred : Bool) : Option (Kernel Tid Mid) :=
  if (k.mutex m).uxMessagesWaiting = 0 then
    (if xInheritanceOccurred then
        vTaskPriorityDisinheritAfterTimeout c k (prvGetDisinheritPriorityAfterTimeout c k m) (k.mutex m).xMutexHolder
      else some k).map fun k => k.setTaking k.pxCurrentTCB none
  else some k

/-- `prvCopyDataToQueue` of a mutex. -/
def prvCopyDataToQueue (k : Kernel Tid Mid) (m : Mid) : Option (Kernel Tid Mid) :=
  (xTaskPriorityDisinherit c k (k.mutex m).xMutexHolder).map fun r =>
    r.1.setMutex m ⟨(k.mutex m).uxMessagesWaiting + 1, none⟩

/-- `xQueueGenericSend` of a mutex, whose queue has the length 1, without a block time. -/
def xQueueGenericSend (k : Kernel Tid Mid) (m : Mid) : Option (Kernel Tid Mid) :=
  if (k.mutex m).uxMessagesWaiting < 1 then
    (prvCopyDataToQueue c k m).map fun k => match k.events.items m with
      | [] => k
      | t :: _ => xTaskRemoveFromEventList k t
  else some k

/-! ## Runs -/

inductive Call (Mid : Type) where
  | delay (xTicksToDelay : Nat)
  | delayUntil (pxPreviousWakeTime xTimeIncrement : Nat)
  /-- enter `xQueueSemaphoreTake` -/
  | take (m : Mid)
  | takeCheck
  | takeFail
  | takeWait (xTicksToWait : Nat)
  | takeTimeout
  | give (m : Mid)
  deriving DecidableEq

/-- A call of the running task; none where it cannot be made or an assertion fails. -/
def call (k : Kernel Tid Mid) : Call Mid → Option (Kernel Tid Mid)
  | .delay d => match k.taking k.pxCurrentTCB with
    | none => some (vTaskDelay c k d)
    | some _ => none
  | .delayUntil prev inc => match k.taking k.pxCurrentTCB with
    | none => (xTaskDelayUntil c k prev inc).map fun r => r.1
    | some _ => none
  | .take m => match k.taking k.pxCurrentTCB with
    | none => some (k.setTaking k.pxCurrentTCB (some (m, false)))
    | some _ => none
  | .takeCheck => match k.taking k.pxCurrentTCB with
    | some (m, _) => some (takeCheck k m)
    | none => none
  | .takeFail => match k.taking k.pxCurrentTCB with
    | some (_, xInheritanceOccurred) => takeFail k xInheritanceOccurred
    | none => none
  | .takeWait d => match k.taking k.pxCurrentTCB with
    | some (m, _) => some (takeWait c k m d)
    | none => none
  | .takeTimeout => match k.taking k.pxCurrentTCB with
    | some (m, xInheritanceOccurred) => takeTimeout c k m xInheritanceOccurred
    | none => none
  | .give m => match k.taking k.pxCurrentTCB with
    | none => xQueueGenericSend c k m
    | some _ => none

inductive Event (Tid Mid : Type) where
  | switchContext (t : Tid)
  | tick
  | call (call : Call Mid)
  deriving DecidableEq

/-- The current task is in a ready list: one that has blocked runs on only until the switch. -/
def Kernel.Running (k : Kernel Tid Mid) : Prop :=
  k.states.container k.pxCurrentTCB = some (.ready (k.tcb k.pxCurrentTCB).uxPriority)
  deriving Decidable

def step (k : Kernel Tid Mid) : Event Tid Mid → Option (Kernel Tid Mid)
  | .switchContext t => taskSelectHighestPriorityTask k t
  | .tick => xTaskIncrementTick c k
  | .call e => if k.Running then call c k e else none

def run (k : Kernel Tid Mid) : List (Event Tid Mid) → Option (Kernel Tid Mid)
  | [] => some k
  | e :: es => (step c k e).bind fun k' => run k' es

/-- A kernel without tasks, as the scheduler starts it at `xTickCount`. -/
def emptyKernel (uxPriority : Tid → Nat) (first : Tid) (xTickCount : Nat) : Kernel Tid Mid where
  tcb t := ⟨uxPriority t, uxPriority t, 0, 0, eventItemValue c (uxPriority t)⟩
  pxCurrentTCB := first
  states := ⟨fun _ => [], fun _ => none⟩
  events := ⟨fun _ => [], fun _ => none⟩
  uxTopReadyPriority := 0
  pxDelayedTaskList := false
  xTickCount := xTickCount
  xNextTaskUnblockTime := c.portMaxDelay
  mutex _ := ⟨1, none⟩
  taking _ := none

/-- A kernel with the tasks `ts`, created in this order. -/
def startKernel (uxPriority : Tid → Nat) (first : Tid) (xTickCount : Nat) (ts : List Tid) : Kernel Tid Mid :=
  ts.foldl prvAddTaskToReadyList (emptyKernel c uxPriority first xTickCount)

end RtosKernel.FreeRTOS.Tasks
