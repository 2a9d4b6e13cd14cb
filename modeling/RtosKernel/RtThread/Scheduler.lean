import RtosKernel.Lib.Bits
import RtosKernel.Lib.Containers
import RtosKernel.RtThread.Def
import RtosKernel.RtThread.IpcList

/-! # Threads and the scheduler (`scheduler.c`, `thread.c`)

One core, built without signals. The node `tlist` of a thread is in one list at
most: the ready list of its priority, or the waiting list of a mutex. Which ready
lists have a thread is kept in a bitmap, of one level or, above 32 priorities, of
two. Interrupts are off inside of each function, so a call is one step. -/
namespace RtosKernel.RtThread.Scheduler
open Lib.Bits Lib.Containers RtThread.Def RtThread.IpcList

/-- What is configured: `RT_THREAD_PRIORITY_MAX`. -/
structure Board where
  priorityMax : Nat
  priorityMax_le : priorityMax ≤ 256

/-- `RT_THREAD_PRIORITY_MAX > 32`. -/
def Board.twoLevel (c : Board) : Bool := decide (32 < c.priorityMax)

/-- The states under `RT_THREAD_STAT_MASK`. -/
inductive ThreadStat
  | init
  | ready
  | suspend
  | running
  | close
  deriving DecidableEq, Repr

/-- The fields of `struct rt_thread` that scheduling looks at: `yield` is
`RT_THREAD_STAT_YIELD`, and `threadTimer` whether the timer of the thread runs. -/
structure Thread where
  stat : ThreadStat
  yield : Bool
  currentPriority : Nat
  number : Nat
  numberMask : BitVec 32
  highMask : BitVec 8
  error : RtErr
  threadTimer : Bool

/-- `struct rt_mutex`, less the list of the threads that wait. -/
structure RtMutex (Tid : Type) where
  value : Nat
  originalPriority : Nat
  hold : Nat
  owner : Option Tid

inductive ThreadList (Mid : Type)
  | ready (priority : Nat)
  | mutex (m : Mid)
  deriving DecidableEq

/-- `rt_thread_ready_priority_group` and `rt_thread_ready_table`. -/
structure ReadyMap where
  group : BitVec 32
  table : Nat → BitVec 8

/-- The threads, the mutexes and the scheduler. -/
structure Kernel (Tid Mid : Type) where
  thread : Tid → Thread
  mutex : Mid → RtMutex Tid
  lists : Lists (ThreadList Mid) Tid
  map : ReadyMap
  currentThread : Option Tid
  currentPriority : Nat
  schedulerLockNest : Nat

variable {Tid Mid : Type} [DecidableEq Tid] [DecidableEq Mid]

/-- `rt_thread_priority_table[priority]`. -/
def Kernel.ready (k : Kernel Tid Mid) (priority : Nat) : List Tid := k.lists.items (.ready priority)

/-- `mutex->parent.suspend_thread`. -/
def Kernel.suspendThread (k : Kernel Tid Mid) (m : Mid) : List Tid := k.lists.items (.mutex m)

def Kernel.setThread (k : Kernel Tid Mid) (t : Tid) (v : Thread) : Kernel Tid Mid :=
  { k with thread := Function.update k.thread t v }

def Kernel.setStat (k : Kernel Tid Mid) (t : Tid) (stat : ThreadStat) : Kernel Tid Mid :=
  k.setThread t { k.thread t with stat }

def Kernel.setMutex (k : Kernel Tid Mid) (m : Mid) (v : RtMutex Tid) : Kernel Tid Mid :=
  { k with mutex := Function.update k.mutex m v }

/-! ## The bitmap -/

def lowestBitBitmap : List Nat :=
  [0, 0, 1, 0, 2, 0, 1, 0, 3, 0, 1, 0, 2, 0, 1, 0,
   4, 0, 1, 0, 2, 0, 1, 0, 3, 0, 1, 0, 2, 0, 1, 0,
   5, 0, 1, 0, 2, 0, 1, 0, 3, 0, 1, 0, 2, 0, 1, 0,
   4, 0, 1, 0, 2, 0, 1, 0, 3, 0, 1, 0, 2, 0, 1, 0,
   6, 0, 1, 0, 2, 0, 1, 0, 3, 0, 1, 0, 2, 0, 1, 0,
   4, 0, 1, 0, 2, 0, 1, 0, 3, 0, 1, 0, 2, 0, 1, 0,
   5, 0, 1, 0, 2, 0, 1, 0, 3, 0, 1, 0, 2, 0, 1, 0,
   4, 0, 1, 0, 2, 0, 1, 0, 3, 0, 1, 0, 2, 0, 1, 0,
   7, 0, 1, 0, 2, 0, 1, 0, 3, 0, 1, 0, 2, 0, 1, 0,
   4, 0, 1, 0, 2, 0, 1, 0, 3, 0, 1, 0, 2, 0, 1, 0,
   5, 0, 1, 0, 2, 0, 1, 0, 3, 0, 1, 0, 2, 0, 1, 0,
   4, 0, 1, 0, 2, 0, 1, 0, 3, 0, 1, 0, 2, 0, 1, 0,
   6, 0, 1, 0, 2, 0, 1, 0, 3, 0, 1, 0, 2, 0, 1, 0,
   4, 0, 1, 0, 2, 0, 1, 0, 3, 0, 1, 0, 2, 0, 1, 0,
   5, 0, 1, 0, 2, 0, 1, 0, 3, 0, 1, 0, 2, 0, 1, 0,
   4, 0, 1, 0, 2, 0, 1, 0, 3, 0, 1, 0, 2, 0, 1, 0]

/-- `(value & (0xff << shift)) >> shift`. -/
def byteAt (value : BitVec 32) (shift : Nat) : BitVec 32 := (value &&& (0xff#32 <<< shift)) >>> shift

/-- `__rt_ffs`, without `RT_USING_TINY_FFS`: the first bit that is set, counted from 1. -/
def rtFfs (value : BitVec 32) : Nat :=
  if value = 0#32 then 0
  else if byteAt value 0 ≠ 0#32 then lowestBitBitmap.getD (byteAt value 0).toNat 0 + 1
  else if byteAt value 8 ≠ 0#32 then lowestBitBitmap.getD (byteAt value 8).toNat 0 + 9
  else if byteAt value 16 ≠ 0#32 then lowestBitBitmap.getD (byteAt value 16).toNat 0 + 17
  else lowestBitBitmap.getD (byteAt value 24).toNat 0 + 25

/-- `highest_ready_priority` in `_scheduler_get_highest_priority_thread`. -/
def ReadyMap.highest (c : Board) (m : ReadyMap) : Nat :=
  let number := rtFfs m.group - 1
  if c.twoLevel then 8 * number + rtFfs ((m.table number).setWidth 32) - 1 else number

def ReadyMap.set (c : Board) (m : ReadyMap) (v : Thread) : ReadyMap :=
  { table := if c.twoLevel then Function.update m.table v.number (m.table v.number ||| v.highMask) else m.table
    group := m.group ||| v.numberMask }

/-- The masks of a thread are cleared. -/
def ReadyMap.clear (c : Board) (m : ReadyMap) (v : Thread) : ReadyMap :=
  if c.twoLevel then
    let entry := m.table v.number &&& ~~~v.highMask
    { table := Function.update m.table v.number entry
      group := if entry = 0#8 then m.group &&& ~~~v.numberMask else m.group }
  else { m with group := m.group &&& ~~~v.numberMask }

/-- Recalculate the priority attributes. -/
def Thread.setPriority (c : Board) (v : Thread) (priority : Nat) : Thread :=
  if c.twoLevel then
    { v with
      currentPriority := priority
      number := priority / 8
      numberMask := 1#32 <<< (priority / 8)
      highMask := 1#8 <<< (priority % 8) }
  else { v with currentPriority := priority, numberMask := 1#32 <<< priority }

/-! ## The functions -/

def rtScheduleInsertThread (c : Board) (k : Kernel Tid Mid) (thread : Tid) : Kernel Tid Mid :=
  if k.currentThread = some thread then k.setStat thread .running
  else
    let k := k.setStat thread .ready
    { k with
      lists := k.lists.pushBack (.ready (k.thread thread).currentPriority) thread
      map := k.map.set c (k.thread thread) }

def rtScheduleRemoveThread (c : Board) (k : Kernel Tid Mid) (thread : Tid) : Kernel Tid Mid :=
  let k := { k with lists := k.lists.remove thread }
  if k.ready (k.thread thread).currentPriority = [] then { k with map := k.map.clear c (k.thread thread) }
  else k

/-- The switch of `rt_schedule`, to a thread that is not the current one. -/
def switchTo (c : Board) (k : Kernel Tid Mid) (fromThread toThread : Tid) (highestReadyPriority : Nat)
    (needInsertFromThread : Bool) : Kernel Tid Mid :=
  let k := { k with currentPriority := highestReadyPriority % 256, currentThread := some toThread }
  let k := if needInsertFromThread then rtScheduleInsertThread c k fromThread else k
  (rtScheduleRemoveThread c k toThread).setStat toThread .running

/-- `rt_schedule`. There is no next thread in an empty list, nor a current one before
the scheduler has started: `none`. -/
def rtSchedule (c : Board) (k : Kernel Tid Mid) : Option (Kernel Tid Mid) :=
  if k.schedulerLockNest = 0 ∧ k.map.group ≠ 0#32 then do
    let current ← k.currentThread
    let highestReadyPriority := k.map.highest c
    let toThread ← (k.ready highestReadyPriority).head?
    let v := k.thread current
    if v.stat = .running then
      let k := k.setThread current { v with yield := false }
      if v.currentPriority < highestReadyPriority ∨
          v.currentPriority = highestReadyPriority ∧ v.yield = false ∨ toThread = current then
        some ((rtScheduleRemoveThread c k current).setStat current .running)
      else some (switchTo c k current toThread highestReadyPriority true)
    else if toThread = current then some ((rtScheduleRemoveThread c k current).setStat current .running)
    else some (switchTo c k current toThread highestReadyPriority false)
  else some k

def rtSystemSchedulerStart (c : Board) (k : Kernel Tid Mid) : Option (Kernel Tid Mid) := do
  let toThread ← (k.ready (k.map.highest c)).head?
  some ((rtScheduleRemoveThread c { k with currentThread := some toThread } toThread).setStat toThread .running)

def rtThreadResume (c : Board) (k : Kernel Tid Mid) (thread : Tid) : Kernel Tid Mid × RtErr :=
  if (k.thread thread).stat = .suspend then
    let k := { k with lists := k.lists.remove thread }
    (rtScheduleInsertThread c (k.setThread thread { k.thread thread with threadTimer := false }) thread, .eok)
  else (k, .error)

/-- `rt_thread_suspend`, of the thread that runs. -/
def rtThreadSuspend (c : Board) (k : Kernel Tid Mid) (thread : Tid) : Kernel Tid Mid × RtErr :=
  if (k.thread thread).stat = .ready ∨ (k.thread thread).stat = .running then
    let k := rtScheduleRemoveThread c k thread
    (k.setThread thread { k.thread thread with stat := .suspend, threadTimer := false }, .eok)
  else (k, .error)

/-- `rt_thread_control` with `RT_THREAD_CTRL_CHANGE_PRIORITY`. -/
def rtThreadChangePriority (c : Board) (k : Kernel Tid Mid) (thread : Tid) (priority : Nat) : Kernel Tid Mid :=
  if (k.thread thread).stat = .ready then
    let k := rtScheduleRemoveThread c k thread
    rtScheduleInsertThread c (k.setThread thread ((k.thread thread).setPriority c priority)) thread
  else k.setThread thread ((k.thread thread).setPriority c priority)

def rtThreadStartup (c : Board) (k : Kernel Tid Mid) (thread : Tid) : Option (Kernel Tid Mid) := do
  rtAssert ((k.thread thread).stat = .init)
  let v := (k.thread thread).setPriority c (k.thread thread).currentPriority
  let k := (rtThreadResume c (k.setThread thread { v with stat := .suspend, yield := false }) thread).1
  if k.currentThread = none then some k else rtSchedule c k

def rtThreadYield (c : Board) (k : Kernel Tid Mid) : Option (Kernel Tid Mid) := do
  let thread ← k.currentThread
  rtSchedule c (k.setThread thread { k.thread thread with yield := true })

def threadTimeout (c : Board) (k : Kernel Tid Mid) (thread : Tid) : Option (Kernel Tid Mid) := do
  rtAssert ((k.thread thread).stat = .suspend)
  let k := k.setThread thread { k.thread thread with error := .etimeout, threadTimer := false }
  rtSchedule c (rtScheduleInsertThread c { k with lists := k.lists.remove thread } thread)

/-- `_thread_exit`. The list of defunct threads is not looked at. -/
def threadExit (c : Board) (k : Kernel Tid Mid) : Option (Kernel Tid Mid) := do
  let thread ← k.currentThread
  let k := rtScheduleRemoveThread c k thread
  rtSchedule c (k.setThread thread { k.thread thread with stat := .close, threadTimer := false })

def rtEnterCritical (k : Kernel Tid Mid) : Kernel Tid Mid :=
  { k with schedulerLockNest := k.schedulerLockNest + 1 }

def rtExitCritical (c : Board) (k : Kernel Tid Mid) : Option (Kernel Tid Mid) :=
  let k := { k with schedulerLockNest := k.schedulerLockNest - 1 }
  if k.schedulerLockNest = 0 then
    if k.currentThread = none then some k else rtSchedule c k
  else some k

end RtosKernel.RtThread.Scheduler
