import RtosKernel.Lib.Containers
import RtosKernel.Lib.Runs
import RtosKernel.FreeRTOS.QueueDeque

/-! # Tasks and interrupts on queues (`queue.c`)

A task that finds a queue full, or empty, suspends the scheduler and locks the queue, looks again and joins one
of the queue's two event lists. Interrupts that come in between leave the event lists alone, and count what they
did in the lock counters for the task that unlocks the queue. A queue may be in a set, which is a queue of
handles to which every post is reported. -/
namespace RtosKernel.FreeRTOS.QueueTasks
open Lib.Containers
open FreeRTOS.Queues (CopyPosition)

/-! ## Queues -/

def queueUnlocked : Int := -1

def queueLockedUnmodified : Int := 0

def queueInt8Max : Int := 127

inductive Side
  /-- `xTasksWaitingToSend` -/
  | toSend
  /-- `xTasksWaitingToReceive` -/
  | toReceive
  deriving DecidableEq

inductive Item (Q V : Type)
  | data (v : V)
  /-- `&pxQueue`, in a set -/
  | handle (q : Q)
  deriving DecidableEq

/-- The fields of `Queue_t` that change. `uxMessagesWaiting` is the number of items; where `uxItemSize` is 0 nothing is
stored, and the items are only counted. -/
structure Queue (Q V : Type) where
  items : List (Item Q V)
  cRxLock : Int
  cTxLock : Int

/-- What does not change: the queues as they were created and added to sets, and the tasks' priorities. -/
structure Setup (Q Tid : Type) where
  uxLength : Q → Nat
  uxItemSize : Q → Nat
  pxQueueSetContainer : Q → Option Q
  configMaxPriorities : Nat
  uxPriority : Tid → Nat

/-! ## Tasks -/

inductive Call (Q V : Type)
  /-- `xQueueGenericSend` -/
  | send (q : Q) (pvItemToQueue : V) (xCopyPosition : CopyPosition)
  /-- `xQueueReceive`, and `xQueueSelectFromSet` on a set -/
  | receive (q : Q)
  /-- `xQueuePeek` -/
  | peek (q : Q)
  deriving DecidableEq

inductive Result (Q V : Type)
  | pdPass
  | errQueueFull
  | errQueueEmpty
  /-- `pdPASS` and what was copied to `pvBuffer`, which is nothing where `uxItemSize` is 0 -/
  | item (pvBuffer : Option (Item Q V))
  deriving DecidableEq

/-- What a task inside of a call does next. -/
inductive Phase
  /-- the critical section at the top of the loop -/
  | top
  /-- `vTaskSuspendAll` -/
  | suspendAll
  /-- `prvLockQueue` -/
  | lockQueue
  /-- `xTaskCheckForTimeOut` -/
  | checkForTimeOut
  /-- `prvIsQueueFull`, or `prvIsQueueEmpty` -/
  | test
  /-- `vTaskPlaceOnEventList` -/
  | placeOnEventList
  /-- the first critical section of `prvUnlockQueue` -/
  | unlockTx (expired : Bool)
  | unlockRx (expired : Bool)
  /-- `xTaskResumeAll` -/
  | resumeAll (expired : Bool)
  /-- `prvIsQueueEmpty` after the time-out -/
  | lastTest
  deriving DecidableEq

inductive Pc (Q V : Type)
  /-- outside, with what the last call returned -/
  | idle (ret : Result Q V)
  /-- inside of a call; `wait` tells that `xTicksToWait` is not 0 -/
  | inCall (call : Call Q V) (wait : Bool) (phase : Phase)
  deriving DecidableEq

/-- What took a task from an event list. -/
inductive Waker
  | send
  | receive
  | peek
  deriving DecidableEq

def Waker.side : Waker → Side
  | .send | .peek => .toReceive
  | .receive => .toSend

/-- The queues, the tasks and the scheduler. -/
structure State (Q Tid V : Type) where
  queue : Q → Queue Q V
  /-- the event lists, and the one that each task's `xEventListItem` is in -/
  lists : Lists (Q × Side) Tid
  /-- the task that has suspended the scheduler -/
  uxSchedulerSuspended : Option Tid
  pc : Tid → Pc Q V
  /-- what took a task from an event list, until the task looks at the queue again -/
  woken : Tid → Option (Q × Waker)
  /-- the queues that were selected and not received from since, and by whom; `none` is an interrupt -/
  selections : List (Option Tid × Q)

inductive Stop (Q : Type)
  | disabled
  /-- a `configASSERT` fails -/
  | configAssert
  /-- the `configASSERT` of `prvNotifyQueueSetContainer` fails: the set is full -/
  | setFull (pxQueueSetContainer : Q)
  deriving DecidableEq

variable {Q Tid V : Type}

def Call.queue : Call Q V → Q
  | .send q _ _ | .receive q | .peek q => q

/-- The event list that a call waits on. -/
def Call.side : Call Q V → Side
  | .send _ _ _ => .toSend
  | .receive _ | .peek _ => .toReceive

variable (c : Setup Q Tid)

def prvCopyDataToQueue (q : Q) (items : List (Item Q V)) (item : Item Q V) : CopyPosition → List (Item Q V)
  | .sendToBack => items ++ [item]
  | .sendToFront => if c.uxItemSize q = 0 then items ++ [item] else item :: items
  | .overwrite => if c.uxItemSize q = 0 then items ++ [item] else item :: items.tail

/-- `prvCopyDataFromQueue` of the first item: what is in `pvBuffer`. -/
def prvCopyDataFromQueue (q : Q) (item : Item Q V) : Option (Item Q V) :=
  if c.uxItemSize q = 0 then none else some item

variable {c} in
theorem prvCopyDataToQueue_deque {q : Q} {l : List (List UInt8)} {x : List UInt8} {p : CopyPosition}
    (hsize : c.uxItemSize q ≠ 0) (hroom : l.length < c.uxLength q ∨ p = .overwrite) (hone : p = .overwrite → l.length ≤ 1) :
    prvCopyDataToQueue c q (l.map .data) (.data x) p =
      (Queues.dequeStep (c.uxLength q) l (.send x p)).1.map .data := by
  cases p with
  | sendToBack =>
    have hlt : l.length < c.uxLength q := by simpa using hroom
    simp [prvCopyDataToQueue, Queues.dequeStep, hlt]
  | sendToFront =>
    have hlt : l.length < c.uxLength q := by simpa using hroom
    simp [prvCopyDataToQueue, Queues.dequeStep, hlt, hsize]
  | overwrite =>
    have hnil : l.tail = [] := List.length_eq_zero_iff.mp (by have := hone rfl; rw [List.length_tail]; omega)
    simp [prvCopyDataToQueue, hsize, Queues.dequeStep, ← List.map_tail, hnil]

variable {c} in
theorem length_prvCopyDataToQueue (q : Q) (items : List (Item Q V)) (item : Item Q V) (p : CopyPosition) :
    (prvCopyDataToQueue c q items item p).length =
      if p = .overwrite ∧ items.length ≠ 0 ∧ c.uxItemSize q ≠ 0 then items.length else items.length + 1 := by
  cases p with
  | sendToBack => simp [prvCopyDataToQueue]
  | sendToFront =>
    simp only [prvCopyDataToQueue]
    split <;> simp
  | overwrite =>
    simp only [prvCopyDataToQueue]
    by_cases hsize : c.uxItemSize q = 0
    · simp [hsize]
    · cases items with
      | nil => simp [hsize]
      | cons _ _ => simp [hsize]

variable [DecidableEq Q] [DecidableEq Tid] (s : State Q Tid V)

def State.setQueue (q : Q) (queue : Queue Q V) : State Q Tid V := { s with queue := Function.update s.queue q queue }

def State.goto (t : Tid) (pc : Pc Q V) : State Q Tid V := { s with pc := Function.update s.pc t pc }

def State.look (t : Tid) : State Q Tid V := { s with woken := Function.update s.woken t none }

def State.copyTo (q : Q) (item : Item Q V) (xPosition : CopyPosition) : State Q Tid V :=
  s.setQueue q { s.queue q with items := prvCopyDataToQueue c q (s.queue q).items item xPosition }

/-- Take the first item of a queue, which is the handle of a queue that is now selected, or ends a selection. -/
def State.take (holder : Option Tid) (q : Q) (item : Item Q V) (rest : List (Item Q V)) : State Q Tid V :=
  let selections := s.selections.erase (holder, q)
  { s.setQueue q { s.queue q with items := rest } with
    selections := match item with
      | .handle m => (holder, m) :: selections
      | .data _ => selections }

/-- `xTaskRemoveFromEventList`, if the event list is not empty. -/
def xTaskRemoveFromEventList (q : Q) (waker : Waker) : State Q Tid V :=
  match s.lists.items (q, waker.side) with
  | [] => s
  | t :: _ => { s with lists := s.lists.remove t, woken := Function.update s.woken t (some (q, waker)) }

def vTaskPlaceOnEventList (t : Tid) (q : Q) (side : Side) : State Q Tid V :=
  { s with lists := s.lists.insert (fun x => c.configMaxPriorities - c.uxPriority x) (q, side) t }

/-! ## Locked queues -/

def prvLockQueue (q : Q) : State Q Tid V :=
  let queue := s.queue q
  s.setQueue q { queue with
    cRxLock := if queue.cRxLock = queueUnlocked then queueLockedUnmodified else queue.cRxLock
    cTxLock := if queue.cTxLock = queueUnlocked then queueLockedUnmodified else queue.cTxLock }

def countTx (q : Q) : Except (Stop Q) (State Q Tid V) :=
  if (s.queue q).cTxLock = queueInt8Max then .error .configAssert
  else .ok (s.setQueue q { s.queue q with cTxLock := (s.queue q).cTxLock + 1 })

/-- Count an item that was taken from a locked queue. -/
def countRx (q : Q) : Except (Stop Q) (State Q Tid V) :=
  if (s.queue q).cRxLock = queueInt8Max then .error .configAssert
  else .ok (s.setQueue q { s.queue q with cRxLock := (s.queue q).cRxLock + 1 })

def prvNotifyQueueSetContainer (pxQueue : Q) : Except (Stop Q) (State Q Tid V) :=
  match c.pxQueueSetContainer pxQueue with
  | none => .error .configAssert
  | some set =>
    if (s.queue set).items.length < c.uxLength set then
      let s := s.copyTo c set (.handle pxQueue) .sendToBack
      if (s.queue set).cTxLock = queueUnlocked then .ok (xTaskRemoveFromEventList s set .send) else countTx s set
    else .error (.setFull set)

/-- After a post to a queue: its set is told, or a task that waits to receive is woken. -/
def posted (q : Q) (overwritten : Bool) : Except (Stop Q) (State Q Tid V) :=
  match c.pxQueueSetContainer q with
  | some _ => if overwritten then .ok s else prvNotifyQueueSetContainer c s q
  | none => .ok (xTaskRemoveFromEventList s q .send)

/-- The loop over `cTxLock` in `prvUnlockQueue`. -/
def unlockTxLoop (s : State Q Tid V) (q : Q) : Nat → Except (Stop Q) (State Q Tid V)
  | 0 => .ok s
  | n + 1 => match c.pxQueueSetContainer q with
    | some _ => (prvNotifyQueueSetContainer c s q).bind fun s => unlockTxLoop s q n
    | none => match s.lists.items (q, .toReceive) with
      | [] => .ok s
      | _ :: _ => unlockTxLoop (xTaskRemoveFromEventList s q .send) q n

/-- The loop over `cRxLock` in `prvUnlockQueue`, where `waker` is `.receive`. -/
def wakeLoop (s : State Q Tid V) (q : Q) (waker : Waker) : Nat → State Q Tid V
  | 0 => s
  | n + 1 => match s.lists.items (q, waker.side) with
    | [] => s
    | _ :: _ => wakeLoop (xTaskRemoveFromEventList s q waker) q waker n

/-- The first critical section of `prvUnlockQueue`. -/
def prvUnlockQueueTx (q : Q) : Except (Stop Q) (State Q Tid V) :=
  (unlockTxLoop c s q (s.queue q).cTxLock.toNat).map fun s =>
    s.setQueue q { s.queue q with cTxLock := queueUnlocked }

/-- The second critical section of `prvUnlockQueue`. -/
def prvUnlockQueueRx (q : Q) : State Q Tid V :=
  let s := wakeLoop s q .receive (s.queue q).cRxLock.toNat
  s.setQueue q { s.queue q with cRxLock := queueUnlocked }

/-! ## Calls -/

/-- An item is there that `queueOVERWRITE` replaces. -/
def overwrites (q : Q) (xCopyPosition : CopyPosition) : Bool :=
  xCopyPosition = .overwrite ∧ (s.queue q).items.length ≠ 0

/-- The critical section of `xQueueGenericSend`. -/
def xQueueGenericSend (t : Tid) (q : Q) (pvItemToQueue : V) (wait : Bool) (xCopyPosition : CopyPosition) :
    Except (Stop Q) (State Q Tid V) :=
  if (s.queue q).items.length < c.uxLength q ∨ xCopyPosition = .overwrite then
    (posted c (s.copyTo c q (.data pvItemToQueue) xCopyPosition) q (overwrites s q xCopyPosition)).map fun s =>
      s.goto t (.idle .pdPass)
  else if wait then .ok (s.goto t (.inCall (.send q pvItemToQueue xCopyPosition) wait .suspendAll))
  else .ok (s.goto t (.idle .errQueueFull))

/-- The critical section of `xQueueReceive`. -/
def xQueueReceive (t : Tid) (q : Q) (wait : Bool) : State Q Tid V :=
  match (s.queue q).items with
  | item :: rest =>
    (xTaskRemoveFromEventList (s.take (some t) q item rest) q .receive).goto t
      (.idle (.item (prvCopyDataFromQueue c q item)))
  | [] =>
    if wait then s.goto t (.inCall (.receive q) wait .suspendAll) else s.goto t (.idle .errQueueEmpty)

/-- The critical section of `xQueuePeek`. -/
def xQueuePeek (t : Tid) (q : Q) (wait : Bool) : State Q Tid V :=
  match (s.queue q).items with
  | item :: _ =>
    (xTaskRemoveFromEventList s q .peek).goto t (.idle (.item (prvCopyDataFromQueue c q item)))
  | [] =>
    if wait then s.goto t (.inCall (.peek q) wait .suspendAll) else s.goto t (.idle .errQueueEmpty)

/-- The critical section at the top of the loop. -/
def topOfLoop (t : Tid) (wait : Bool) : Call Q V → Except (Stop Q) (State Q Tid V)
  | .send q pvItemToQueue xCopyPosition => xQueueGenericSend c (s.look t) t q pvItemToQueue wait xCopyPosition
  | .receive q => .ok (xQueueReceive c (s.look t) t q wait)
  | .peek q => .ok (xQueuePeek c (s.look t) t q wait)

/-- `prvIsQueueFull` of a sender, `prvIsQueueEmpty` of the others. -/
def mustWait : Call Q V → Bool
  | .send q _ _ => (s.queue q).items.length = c.uxLength q
  | .receive q | .peek q => (s.queue q).items.length = 0

/-- What follows `xTaskResumeAll`: the top of the loop, or the end of a call that has timed out. -/
def afterResume (call : Call Q V) (wait expired : Bool) : Pc Q V :=
  match expired, call with
  | false, _ => .inCall call wait .top
  | true, .send _ _ _ => .idle .errQueueFull
  | true, _ => .inCall call wait .lastTest

/-- A task inside of a call takes its next step. Whether its time-out has expired is up to the clock. -/
def stepCall (t : Tid) (call : Call Q V) (wait expired : Bool) : Phase → Except (Stop Q) (State Q Tid V)
  | .top => topOfLoop c s t wait call
  | .suspendAll => .ok ({ s with uxSchedulerSuspended := some t }.goto t (.inCall call wait .lockQueue))
  | .lockQueue => .ok ((prvLockQueue s call.queue).goto t (.inCall call wait .checkForTimeOut))
  | .checkForTimeOut =>
    if expired then .ok (s.goto t (.inCall call false (.unlockTx true))) else .ok (s.goto t (.inCall call wait .test))
  | .test => .ok (s.goto t (.inCall call wait (if mustWait c s call then .placeOnEventList else .unlockTx false)))
  | .placeOnEventList =>
    .ok ((vTaskPlaceOnEventList c s t call.queue call.side).goto t (.inCall call wait (.unlockTx false)))
  | .unlockTx timedOut => (prvUnlockQueueTx c s call.queue).map fun s => s.goto t (.inCall call wait (.unlockRx timedOut))
  | .unlockRx timedOut => .ok ((prvUnlockQueueRx s call.queue).goto t (.inCall call wait (.resumeAll timedOut)))
  | .resumeAll timedOut => .ok ({ s with uxSchedulerSuspended := none }.goto t (afterResume call wait timedOut))
  | .lastTest =>
    if (s.queue call.queue).items.length = 0 then .ok (s.goto t (.idle .errQueueEmpty))
    else .ok (s.goto t (.inCall call wait .top))

def xQueueGenericSendFromISR (q : Q) (pvItemToQueue : V) (xCopyPosition : CopyPosition) : Except (Stop Q) (State Q Tid V) :=
  if (s.queue q).items.length < c.uxLength q ∨ xCopyPosition = .overwrite then
    let cTxLock := (s.queue q).cTxLock
    let copied := s.copyTo c q (.data pvItemToQueue) xCopyPosition
    if cTxLock = queueUnlocked then posted c copied q (overwrites s q xCopyPosition) else countTx copied q
  else .ok s

def xQueueReceiveFromISR (q : Q) : Except (Stop Q) (State Q Tid V) :=
  match (s.queue q).items with
  | item :: rest =>
    let cRxLock := (s.queue q).cRxLock
    let taken := s.take none q item rest
    if cRxLock = queueUnlocked then .ok (xTaskRemoveFromEventList taken q .receive) else countRx taken q
  | [] => .ok s

/-! ## Runs -/

inductive Event (Q Tid V : Type)
  | call (t : Tid) (call : Call Q V) (wait : Bool)
  /-- a task inside of a call takes its next step -/
  | step (t : Tid) (expired : Bool)
  | timeout (t : Tid)
  | sendFromISR (q : Q) (pvItemToQueue : V) (xCopyPosition : CopyPosition)
  | receiveFromISR (q : Q)
  deriving DecidableEq

/-- `configASSERT` on the arguments of a send. -/
def badOverwrite (q : Q) (xCopyPosition : CopyPosition) : Prop := xCopyPosition = .overwrite ∧ c.uxLength q ≠ 1
  deriving Decidable

/-- The arguments of the call fail its `configASSERT`. -/
def badCall : Call Q V → Prop
  | .send q _ xCopyPosition => badOverwrite c q xCopyPosition
  | .receive _ | .peek _ => False

instance (call : Call Q V) : Decidable (badCall c call) := by
  cases call <;> dsimp only [badCall] <;> infer_instance

/-- The scheduler can run the task: it has suspended the scheduler, or waits for nothing. -/
def runnable (t : Tid) : Prop :=
  s.uxSchedulerSuspended = some t ∨ (s.uxSchedulerSuspended = none ∧ s.lists.container t = none)

instance (t : Tid) : Decidable (runnable s t) := inferInstanceAs (Decidable (_ ∨ _))

def step : Event Q Tid V → Except (Stop Q) (State Q Tid V)
  | .call t call wait => match s.pc t with
    | .idle _ =>
      if ¬runnable s t then .error .disabled
      else if badCall c call then .error .configAssert
      else .ok (s.goto t (.inCall call wait .top))
    | .inCall _ _ _ => .error .disabled
  | .step t expired => match s.pc t with
    | .idle _ => .error .disabled
    | .inCall call wait phase => if runnable s t then stepCall c s t call wait expired phase else .error .disabled
  | .timeout t =>
    if s.uxSchedulerSuspended = none ∧ s.lists.container t ≠ none then .ok { s with lists := s.lists.remove t }
    else .error .disabled
  | .sendFromISR q pvItemToQueue xCopyPosition =>
    if badOverwrite c q xCopyPosition then .error .configAssert
    else xQueueGenericSendFromISR c s q pvItemToQueue xCopyPosition
  | .receiveFromISR q => xQueueReceiveFromISR s q

/-- All queues are empty, and no task has called yet. -/
def start : State Q Tid V where
  queue _ := ⟨[], queueUnlocked, queueUnlocked⟩
  lists := ⟨fun _ => [], fun _ => none⟩
  uxSchedulerSuspended := none
  pc _ := .idle .pdPass
  woken _ := none
  selections := []

end RtosKernel.FreeRTOS.QueueTasks
