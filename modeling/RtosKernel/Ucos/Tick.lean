import RtosKernel.Lib.DeltaList
import RtosKernel.Lib.Runs
import RtosKernel.Lib.Word

/-! # The tick list (`os_tick.c`)

Tasks that are delayed, or pend with a timeout, are linked in the order in which their time
comes, each with the ticks that remain behind the one before it. With a periodic tick
`OSTickCtr` is the time. With a dynamic tick the time goes on between two interrupts, and
the first task of the list has the ticks that remain from the time of `OSTickCtr` on.
`OS_DynTickGet` and `OS_DynTickSet` belong to the board. -/

namespace RtosKernel.Ucos.Tick
open Lib.Word
open Lib.DeltaList

structure Kernel (T : Type) where
  tickNextPtr : T → Option T
  tickPrevPtr : T → Option T
  tickRemain : T → Nat
  /-- `OSTickList.TCB_Ptr`. -/
  tcbPtr : Option T
  /-- `OSTickList.NbrEntries`; the loops over the list are bounded by it here. -/
  nbrEntries : Nat
  /-- `OSTickCtr`. -/
  tickCtr : Nat
  /-- `OSTickCtrStep`, which `OS_DynTickSet` was given last; 0 for no interrupt. -/
  tickCtrStep : Nat
  dynCount : Nat
  /-- The time in ticks; no code reads it. -/
  now : Nat
  /-- The tasks that have been taken off the list because their time has come, and when; no code reads it. -/
  left : List (T × Nat)

inductive Stop where
  /-- The event cannot happen in this state. -/
  | refused
  | nullPtr
  /-- A loop over the list takes more rounds than the list has entries. -/
  | endless
  deriving DecidableEq

variable {T : Type} [DecidableEq T]

def Kernel.setNext (k : Kernel T) (t : T) (next : Option T) : Kernel T :=
  { k with tickNextPtr := Function.update k.tickNextPtr t next }

def Kernel.setPrev (k : Kernel T) (t : T) (prev : Option T) : Kernel T :=
  { k with tickPrevPtr := Function.update k.tickPrevPtr t prev }

def Kernel.setRemain (k : Kernel T) (t : T) (remain : Nat) : Kernel T :=
  { k with tickRemain := Function.update k.tickRemain t remain }

/-- `OS_DynTickGet`: the ticks since `OSTickCtr` was last advanced. There is none with a periodic tick, where the
callers take 0. -/
def os_DynTickGet (dyn : Bool) (k : Kernel T) : Nat := if dyn then k.dynCount % 2 ^ 32 else 0

/-- `OS_DynTickSet`: the count restarts, and `OS_TickUpdate` is to come after some ticks. -/
def os_DynTickSet (k : Kernel T) (ticks : Nat) : Kernel T := { k with tickCtrStep := ticks, dynCount := 0 }

/-- With a dynamic tick, `OSTickCtr` is brought up to date before a new step is set. -/
def newStep (dyn : Bool) (k : Kernel T) (elapsed step : Nat) : Kernel T :=
  if dyn then os_DynTickSet { k with tickCtr := if elapsed ≠ 0 then add32 k.tickCtr elapsed else k.tickCtr } step else k

/-! ## The list -/

/-- The end of `OS_TickListInsert`, from where its loop has stopped. -/
def insertAt (k : Kernel T) (p : T) : Nat × T × Option T → Except Stop (Kernel T)
  | (delta, _, some tcb2) =>
    match k.tickPrevPtr tcb2 with
    | none => .error .nullPtr
    | some tcb1 =>
      let k := ((k.setRemain p delta).setPrev p (some tcb1)).setNext p (some tcb2)
      .ok (((k.setRemain tcb2 (sub32 (k.tickRemain tcb2) delta)).setPrev tcb2 (some p)).setNext tcb1 (some p))
  | (delta, tcb1, none) => .ok ((((k.setRemain p delta).setPrev p (some tcb1)).setNext p none).setNext tcb1 (some p))

def os_TickListInsert (dyn : Bool) (k : Kernel T) (p : T) (elapsed tickBase time : Nat) : Except Stop (Kernel T × Bool) :=
  let delta := sub32 (add32 time tickBase) (add32 k.tickCtr elapsed)
  if delta = 0 then .ok (k.setRemain p 0, false)
  else
    match k.tcbPtr with
    | none =>
      let k := newStep dyn { ((k.setRemain p delta).setNext p none).setPrev p none with tcbPtr := some p } elapsed delta
      .ok ({ k with nbrEntries := 1 }, true)
    | some tcb2 =>
      let k := { k with nbrEntries := k.nbrEntries + 1 }
      let remain := sub32 (k.tickRemain tcb2) elapsed
      if delta < remain ∧ k.tickPrevPtr tcb2 = none then
        let k := ((((k.setRemain p delta).setRemain tcb2 (remain - delta)).setPrev p none).setNext p (some tcb2)).setPrev tcb2
          (some p)
        .ok (newStep dyn { k with tcbPtr := some p } elapsed delta, true)
      else
        match walk k.tickNextPtr k.tickRemain k.nbrEntries (sub32 delta remain) tcb2 with
        | none => .error .endless
        | some place => (insertAt k p place).map fun k => (k, true)

/-- `OS_TickListRemove` of the first task, with `tcb2` behind it. -/
def removeFirst (dyn : Bool) (k : Kernel T) (p tcb2 : T) (elapsed : Nat) : Kernel T :=
  let k := k.setPrev tcb2 none
  let k := k.setRemain tcb2 (add32 (k.tickRemain tcb2) (k.tickRemain p))
  let k := { k with tcbPtr := some tcb2, nbrEntries := k.nbrEntries - 1 }
  let k := if k.tickRemain tcb2 ≠ k.tickRemain p then
      let k := if dyn ∧ elapsed ≠ 0 then k.setRemain tcb2 (sub32 (k.tickRemain tcb2) elapsed) else k
      newStep dyn k elapsed (k.tickRemain tcb2)
    else k
  (k.setNext p none).setRemain p 0

/-- `OS_TickListRemove` of a task behind `tcb1`, with `tcb2` behind it. -/
def removeLater (k : Kernel T) (p tcb1 : T) (tcb2 : Option T) : Kernel T :=
  let k := k.setNext tcb1 tcb2
  let k := match tcb2 with
    | some tcb2 =>
      let k := k.setPrev tcb2 (some tcb1)
      k.setRemain tcb2 (add32 (k.tickRemain tcb2) (k.tickRemain p))
    | none => k
  let k := { k.setPrev p none with nbrEntries := k.nbrEntries - 1 }
  (k.setNext p none).setRemain p 0

def os_TickListRemove (dyn : Bool) (k : Kernel T) (p : T) : Kernel T :=
  let elapsed := os_DynTickGet dyn k
  match k.tickPrevPtr p, k.tickNextPtr p with
  | none, none => newStep dyn { k.setRemain p 0 with tcbPtr := none, nbrEntries := 0 } elapsed 0
  | none, some tcb2 => removeFirst dyn k p tcb2 elapsed
  | some tcb1, tcb2 => removeLater k p tcb1 tcb2

/-- Ticks are taken off a task, and what is left of them. -/
def takeTicks (k : Kernel T) (p : T) (ticks : Nat) : Kernel T × Nat :=
  if k.tickRemain p ≤ ticks then (k.setRemain p 0, ticks - k.tickRemain p)
  else (k.setRemain p (k.tickRemain p - ticks), ticks)

/-- The loop of `OS_TickListUpdate`, less what it does for a task whose time has come. -/
def updateLoop : Nat → Kernel T → Nat → T → Except Stop (Kernel T)
  | fuel, k, ticks, p =>
    if k.tickRemain p = 0 then
      let k := { k with tcbPtr := k.tickNextPtr p, left := k.left ++ [(p, k.now)] }
      match k.tickNextPtr p with
      | none => .ok { k with nbrEntries := 0 }
      | some q =>
        match fuel with
        | 0 => .error .endless
        | fuel + 1 =>
          let (k, ticks) := takeTicks ({ k with nbrEntries := k.nbrEntries - 1 }.setPrev q none) q ticks
          updateLoop fuel k ticks q
    else .ok k

def os_TickListUpdate (k : Kernel T) (ticks : Nat) : Except Stop (Kernel T) :=
  match k.tcbPtr with
  | none => .ok k
  | some p =>
    let (k, ticks) := takeTicks k p ticks
    updateLoop k.nbrEntries k ticks p

def os_TickUpdate (dyn : Bool) (k : Kernel T) (ticks : Nat) : Except Stop (Kernel T) :=
  (os_TickListUpdate { k with tickCtr := add32 k.tickCtr ticks } ticks).map fun k =>
    if dyn then
      match k.tcbPtr with
      | some p => os_DynTickSet k (k.tickRemain p)
      | none => os_DynTickSet k 0
    else k

/-! ## Runs -/

inductive Event (T : Type) where
  /-- `OS_TickListInsert` with a time relative to the system time, as `OS_TaskBlock` calls it. -/
  | insert (task : T) (time : Nat)
  /-- `OS_TickListRemove`. -/
  | remove (task : T)
  /-- With a dynamic tick, a tick passes without an interrupt. -/
  | pass
  /-- The interrupt that calls `OS_TickUpdate`. -/
  | update
  deriving DecidableEq

def Kernel.Listed (k : Kernel T) (t : T) : Prop := k.tcbPtr = some t ∨ k.tickPrevPtr t ≠ none

instance Kernel.Listed.instDecidable (k : Kernel T) (t : T) : Decidable (k.Listed t) := inferInstanceAs (Decidable (_ ∨ _))

/-- The interrupt comes when as many ticks have passed as `OS_DynTickSet` was given. -/
def step (dyn : Bool) (k : Kernel T) : Event T → Except Stop (Kernel T)
  | .insert p time =>
    if 0 < time ∧ time < 2 ^ 32 ∧ ¬ k.Listed p then
      let elapsed := os_DynTickGet dyn k
      (os_TickListInsert dyn k p elapsed (add32 k.tickCtr elapsed) time).map Prod.fst
    else .error .refused
  | .remove p => if k.Listed p then .ok (os_TickListRemove dyn k p) else .error .refused
  | .pass =>
    if dyn ∧ (k.tickCtrStep = 0 ∨ k.dynCount < k.tickCtrStep) then .ok { k with now := k.now + 1, dynCount := k.dynCount + 1 }
    else .error .refused
  | .update =>
    if dyn then
      if k.tickCtrStep ≠ 0 ∧ k.dynCount = k.tickCtrStep then os_TickUpdate dyn k k.tickCtrStep else .error .refused
    else os_TickUpdate dyn { k with now := k.now + 1 } 1

def start (T : Type) (now : Nat) : Kernel T where
  tickNextPtr _ := none
  tickPrevPtr _ := none
  tickRemain _ := 0
  tcbPtr := none
  nbrEntries := 0
  tickCtr := now % 2 ^ 32
  tickCtrStep := 0
  dynCount := 0
  now := now
  left := []

/-- Tasks that wait for a time, in the order in which they began to wait, and the tasks whose time has come, in
the order in which it came. -/
structure Waiting (T : Type) where
  now : Nat
  waiting : List (T × Nat)
  left : List (T × Nat)

/-- All the tasks leave whose time it is, in the order in which they began to wait. -/
def Waiting.expire (s : Waiting T) : Waiting T :=
  { s with waiting := s.waiting.filter (·.2 ≠ s.now), left := s.left ++ s.waiting.filter (·.2 = s.now) }

def Waiting.step (dyn : Bool) (s : Waiting T) : Event T → Waiting T
  | .insert p time => { s with waiting := s.waiting ++ [(p, s.now + time)] }
  | .remove p => { s with waiting := s.waiting.filter (·.1 ≠ p) }
  | .pass => { s with now := s.now + 1 }
  | .update => if dyn then s.expire else { s with now := s.now + 1 }.expire

end RtosKernel.Ucos.Tick
