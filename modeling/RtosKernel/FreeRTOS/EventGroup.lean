import RtosKernel.Lib.BitSet
import RtosKernel.FreeRTOS.Def

/-! # Event groups (`event_groups.c`)

Tasks wait for bits of an event group. What a task waits for, and how, is in the value of its event list item:
the bits waited for, and in the upper byte the control bits. -/
namespace RtosKernel.FreeRTOS.EventGroups
open Lib.BitSet FreeRTOS.Def

/-- `EventBits_t` with `n` event bits: 8 with `configUSE_16_BIT_TICKS`, else 24. -/
abbrev EventBits (n : Nat) : Type := BitVec (n + 8)

section Constants
variable (n : Nat)

def clearEventsOnExitBit : EventBits n := BitVec.twoPow (n + 8) n

def unblockedDueToBitSet : EventBits n := BitVec.twoPow (n + 8) (n + 1)

def waitForAllBits : EventBits n := BitVec.twoPow (n + 8) (n + 2)

def eventListItemValueInUse : EventBits n := BitVec.twoPow (n + 8) (n + 7)

def eventBitsControlBytes : EventBits n := BitVec.ofNat (n + 8) 0xff <<< n

end Constants

/-- The arguments of a call that waits. -/
structure Wait (n : Nat) where
  uxBitsToWaitFor : EventBits n
  xClearOnExit : Bool
  xWaitForAllBits : Bool
  deriving DecidableEq

/-- The event group, the event list item of each task, and the call that a task is in. -/
structure EventGroup (Tid : Type) (n : Nat) where
  uxEventBits : EventBits n
  xTasksWaitingForBits : List Tid
  /-- the value of `xEventListItem` -/
  item : Tid → EventBits n
  waits : Tid → Option (Wait n)

variable {Tid : Type} [DecidableEq Tid] {n : Nat}

def prvTestWaitCondition (uxCurrentEventBits uxBitsToWaitFor : EventBits n) (xWaitForAllBits : Bool) : Bool :=
  if xWaitForAllBits = false then uxCurrentEventBits &&& uxBitsToWaitFor ≠ 0#_
  else uxCurrentEventBits &&& uxBitsToWaitFor = uxBitsToWaitFor

def vTaskPlaceOnUnorderedEventList (g : EventGroup Tid n) (t : Tid) (xItemValue : EventBits n) : EventGroup Tid n :=
  { g with
    item := Function.update g.item t (xItemValue ||| eventListItemValueInUse n)
    xTasksWaitingForBits := g.xTasksWaitingForBits ++ [t] }

def vTaskRemoveFromUnorderedEventList (g : EventGroup Tid n) (t : Tid) (xItemValue : EventBits n) : EventGroup Tid n :=
  { g with
    item := Function.update g.item t (xItemValue ||| eventListItemValueInUse n)
    xTasksWaitingForBits := g.xTasksWaitingForBits.erase t }

/-- Whether the walk of `xEventGroupSetBits` finds a match. -/
def matchFound (uxEventBits itemValue : EventBits n) : Bool :=
  let uxControlBits := itemValue &&& eventBitsControlBytes n
  let uxBitsWaitedFor := itemValue &&& ~~~eventBitsControlBytes n
  if uxControlBits &&& waitForAllBits n = 0#_ then uxBitsWaitedFor &&& uxEventBits ≠ 0#_
  else uxBitsWaitedFor &&& uxEventBits = uxBitsWaitedFor

/-- The walk over the list, with `uxBitsToClear`. -/
def setBitsLoop (g : EventGroup Tid n) (uxBitsToClear : EventBits n) : List Tid → EventGroup Tid n × EventBits n
  | [] => (g, uxBitsToClear)
  | t :: l =>
    let uxControlBits := g.item t &&& eventBitsControlBytes n
    let uxBitsWaitedFor := g.item t &&& ~~~eventBitsControlBytes n
    if matchFound g.uxEventBits (g.item t) then
      let uxBitsToClear := if uxControlBits &&& clearEventsOnExitBit n ≠ 0#_ then uxBitsToClear ||| uxBitsWaitedFor
        else uxBitsToClear
      setBitsLoop (vTaskRemoveFromUnorderedEventList g t (g.uxEventBits ||| unblockedDueToBitSet n)) uxBitsToClear l
    else setBitsLoop g uxBitsToClear l

def xEventGroupSetBits (g : EventGroup Tid n) (uxBitsToSet : EventBits n) : Option (EventGroup Tid n) := do
  configAssert (uxBitsToSet &&& eventBitsControlBytes n = 0#_)
  let r := setBitsLoop { g with uxEventBits := g.uxEventBits ||| uxBitsToSet } 0 g.xTasksWaitingForBits
  return { r.1 with uxEventBits := r.1.uxEventBits &&& ~~~r.2 }

def xEventGroupClearBits (g : EventGroup Tid n) (uxBitsToClear : EventBits n) : Option (EventGroup Tid n) := do
  configAssert (uxBitsToClear &&& eventBitsControlBytes n = 0#_)
  return { g with uxEventBits := g.uxEventBits &&& ~~~uxBitsToClear }

def block (g : EventGroup Tid n) (t : Tid) (v : Wait n) : EventGroup Tid n :=
  let uxControlBits := (if v.xClearOnExit then clearEventsOnExitBit n else 0#_) |||
    (if v.xWaitForAllBits then waitForAllBits n else 0#_)
  { vTaskPlaceOnUnorderedEventList g t (v.uxBitsToWaitFor ||| uxControlBits) with
    waits := Function.update g.waits t (some v) }

/-- `xEventGroupWaitBits` up to where the task may block, and what it returns if it does not. -/
def xEventGroupWaitBits (g : EventGroup Tid n) (t : Tid) (v : Wait n) (xTicksToWait : Nat) :
    Option (EventGroup Tid n × Option (EventBits n)) := do
  configAssert (v.uxBitsToWaitFor &&& eventBitsControlBytes n = 0#_)
  configAssert (v.uxBitsToWaitFor ≠ 0#_)
  let uxCurrentEventBits := g.uxEventBits
  if prvTestWaitCondition uxCurrentEventBits v.uxBitsToWaitFor v.xWaitForAllBits then
    return (if v.xClearOnExit then { g with uxEventBits := g.uxEventBits &&& ~~~v.uxBitsToWaitFor } else g,
      some uxCurrentEventBits)
  else if xTicksToWait = 0 then return (g, some uxCurrentEventBits)
  else return (block g t v, none)

/-- `xEventGroupSync` up to where the task may block, and what it returns if it does not. -/
def xEventGroupSync (g : EventGroup Tid n) (t : Tid) (uxBitsToSet uxBitsToWaitFor : EventBits n) (xTicksToWait : Nat) :
    Option (EventGroup Tid n × Option (EventBits n)) := do
  configAssert (uxBitsToWaitFor &&& eventBitsControlBytes n = 0#_)
  configAssert (uxBitsToWaitFor ≠ 0#_)
  let uxOriginalBitValue := g.uxEventBits
  let g ← xEventGroupSetBits g uxBitsToSet
  if (uxOriginalBitValue ||| uxBitsToSet) &&& uxBitsToWaitFor = uxBitsToWaitFor then
    return ({ g with uxEventBits := g.uxEventBits &&& ~~~uxBitsToWaitFor }, some (uxOriginalBitValue ||| uxBitsToSet))
  else if xTicksToWait ≠ 0 then return (block g t ⟨uxBitsToWaitFor, true, true⟩, none)
  else return (g, some g.uxEventBits)

/-- The end of a call that has blocked: the task is not in the list any more. The value its item
is set back to is `normal`. -/
def finish (normal : EventBits n) (g : EventGroup Tid n) (t : Tid) (v : Wait n) : EventGroup Tid n × EventBits n :=
  -- `uxTaskResetEventItemValue`
  let uxReturn := g.item t
  let g := { g with item := Function.update g.item t normal, waits := Function.update g.waits t none }
  if uxReturn &&& unblockedDueToBitSet n = 0#_ then
    let uxReturn := g.uxEventBits
    (if prvTestWaitCondition uxReturn v.uxBitsToWaitFor v.xWaitForAllBits ∧ v.xClearOnExit then
        { g with uxEventBits := g.uxEventBits &&& ~~~v.uxBitsToWaitFor }
      else g,
      uxReturn &&& ~~~eventBitsControlBytes n)
  else (g, uxReturn &&& ~~~eventBitsControlBytes n)

/-! ## Runs -/

/-- What can happen to the event group. -/
inductive Event (Tid : Type) (n : Nat) where
  | setBits (uxBitsToSet : EventBits n)
  | clearBits (uxBitsToClear : EventBits n)
  | waitBits (t : Tid) (v : Wait n) (xTicksToWait : Nat)
  | sync (t : Tid) (uxBitsToSet uxBitsToWaitFor : EventBits n) (xTicksToWait : Nat)
  /-- the tick takes a task out of the list -/
  | timeout (t : Tid)
  /-- a task that does not wait any more runs again -/
  | finish (t : Tid) (normal : EventBits n)
  deriving DecidableEq

/-- One event, and the task that returns from a call, with the value. None where it cannot happen
or an assertion fails. -/
def step (g : EventGroup Tid n) : Event Tid n → Option (EventGroup Tid n × Option (Tid × EventBits n))
  | .setBits b => (xEventGroupSetBits g b).map fun g => (g, none)
  | .clearBits b => (xEventGroupClearBits g b).map fun g => (g, none)
  | .waitBits t v d => if g.waits t = none then
      (xEventGroupWaitBits g t v d).map fun r => (r.1, r.2.map fun b => (t, b))
    else none
  | .sync t s b d => if g.waits t = none then
      (xEventGroupSync g t s b d).map fun r => (r.1, r.2.map fun b => (t, b))
    else none
  | .timeout t => if t ∈ g.xTasksWaitingForBits then
      some ({ g with xTasksWaitingForBits := g.xTasksWaitingForBits.erase t }, none)
    else none
  | .finish t normal => match g.waits t with
    | none => none
    | some v => if t ∈ g.xTasksWaitingForBits then none
      else
        let r := finish normal g t v
        some (r.1, some (t, r.2))

/-- A sequence of events, and the calls that return. -/
def run (g : EventGroup Tid n) : List (Event Tid n) → Option (EventGroup Tid n × List (Tid × EventBits n))
  | [] => some (g, [])
  | e :: es => (step g e).bind fun r => (run r.1 es).map fun s => (s.1, r.2.toList ++ s.2)

def xEventGroupCreate (item : Tid → EventBits n) : EventGroup Tid n := ⟨0, [], item, fun _ => none⟩

end RtosKernel.FreeRTOS.EventGroups
