import RtosKernel.Lib.DeltaList
import RtosKernel.Lib.Runs
import RtosKernel.Lib.Word

/-! # Software timers (`os_tmr.c`)

The running timers are linked in the order in which they expire, each with the ticks that remain behind the one
before it, the first with the ticks that remain from `OSTmrTaskTickBase` on. Ticks are numbers of 32 bits for
the code; the time itself is counted without an end. -/

namespace RtosKernel.Ucos.Timers
open Lib.Word
open Lib.DeltaList

inductive TmrState where
  | unused
  | stopped
  | running
  | completed
  | timeout
  deriving DecidableEq

structure Tmr (T : Type) where
  /-- `Type` is `OS_OBJ_TYPE_TMR`. -/
  typ : Bool
  state : TmrState
  dly : Nat
  remain : Nat
  period : Nat
  /-- `Opt` is `OS_OPT_TMR_PERIODIC`. -/
  periodic : Bool
  /-- `CallbackPtr` is not NULL. -/
  callback : Bool
  nextPtr : Option T
  prevPtr : Option T
  deriving DecidableEq

inductive Phase (T : Type) where
  /-- It is in `OS_TmrCondWait`, has been signalled or not, and its wait ends at a time. -/
  | waiting (signalled : Bool) (wakeAt : Option Nat)
  /-- It is in its second loop, between two callbacks. -/
  | processing
  /-- It is in the callback of a timer. -/
  | callback (timer : T)
  deriving DecidableEq

structure Kernel (T : Type) where
  tmr : T → Tmr T
  /-- `OSTmrListPtr`. -/
  listPtr : Option T
  /-- `OSTmrListEntries`; the loops over the list are bounded by it here. -/
  listEntries : Nat
  /-- `OSTmrTaskTickBase`. -/
  tickBase : Nat
  /-- The time in ticks; `OSTickCtr` is its remainder. -/
  now : Nat
  phase : Phase T
  /-- When a timer was started last; no code reads it. -/
  startedAt : T → Nat
  /-- When the timer task has found a timer expired since then; no code reads it. -/
  fired : T → List Nat

inductive Err where
  | errNone
  | errOptInvalid
  | errTmrInvalidPeriod
  | errTmrInvalidCallback
  | errTmrInvalidDly
  | errObjCreated
  | errObjType
  | errTmrInactive
  | errTmrStopped
  deriving DecidableEq

inductive Stop where
  /-- The event cannot happen in this state. -/
  | refused
  | nullPtr
  /-- A loop over the list takes more rounds than the list has entries. -/
  | endless
  deriving DecidableEq

variable {T : Type} [DecidableEq T]

def Kernel.setTmr (k : Kernel T) (t : T) (v : Tmr T) : Kernel T := { k with tmr := Function.update k.tmr t v }

def Kernel.setState (k : Kernel T) (t : T) (state : TmrState) : Kernel T := k.setTmr t { k.tmr t with state }

def Kernel.setRemain (k : Kernel T) (t : T) (remain : Nat) : Kernel T := k.setTmr t { k.tmr t with remain }

def Kernel.setNext (k : Kernel T) (t : T) (nextPtr : Option T) : Kernel T := k.setTmr t { k.tmr t with nextPtr }

def Kernel.setPrev (k : Kernel T) (t : T) (prevPtr : Option T) : Kernel T := k.setTmr t { k.tmr t with prevPtr }

/-! ## The timer list -/

def os_TmrCondSignal (k : Kernel T) : Kernel T :=
  match k.phase with
  | .waiting _ wakeAt => { k with phase := .waiting true wakeAt }
  | _ => k

/-- The loops of `OS_TmrUnlink` and `OS_TmrTask` that take the elapsed ticks off the list. -/
def elapse : Nat → Kernel T → Nat → Option T → Except Stop (Kernel T)
  | _, k, 0, _ => .ok k
  | _, k, _ + 1, none => .ok k
  | 0, _, _ + 1, some _ => .error .endless
  | fuel + 1, k, elapsed + 1, some p =>
    let remain := (k.tmr p).remain
    if elapsed + 1 > remain then elapse fuel (k.setRemain p 0) (elapsed + 1 - remain) (k.tmr p).nextPtr
    else elapse fuel (k.setRemain p (remain - (elapsed + 1))) 0 (k.tmr p).nextPtr

/-- The end of `OS_TmrLink`, from where its loop has stopped. -/
def linkAt (k : Kernel T) (p : T) : Nat × T × Option T → Except Stop (Kernel T)
  | (delta, _, some p2) =>
    match (k.tmr p2).prevPtr with
    | none => .error .nullPtr
    | some p1 =>
      let k := ((k.setRemain p delta).setPrev p (some p1)).setNext p (some p2)
      .ok (((k.setRemain p2 (sub32 (k.tmr p2).remain delta)).setPrev p2 (some p)).setNext p1 (some p))
  | (delta, p1, none) => .ok ((((k.setRemain p delta).setPrev p (some p1)).setNext p none).setNext p1 (some p))

def os_TmrLink (k : Kernel T) (p : T) (time : Nat) : Except Stop (Kernel T) :=
  match k.listPtr with
  | none =>
    let k := (k.setNext p none).setPrev p none
    .ok (os_TmrCondSignal { k with listPtr := some p, listEntries := 1, tickBase := time })
  | some head =>
    let k := { k with listEntries := k.listEntries + 1 }
    let delta := sub32 (add32 time (k.tmr p).remain) k.tickBase
    let remain := (k.tmr head).remain
    if delta < remain ∧ (k.tmr head).prevPtr = none then
      let k := (((k.setRemain head (remain - delta)).setPrev p none).setNext p (some head)).setPrev head (some p)
      .ok (os_TmrCondSignal { k with listPtr := some p, tickBase := time })
    else
      match walk (fun t => (k.tmr t).nextPtr) (fun t => (k.tmr t).remain) k.listEntries (sub32 delta remain) head with
      | none => .error .endless
      | some place => linkAt k p place

/-- The end of `OS_TmrUnlink` of the first timer: the timer task waits anew if `p2` has another delay. -/
def unlinkEnd (k : Kernel T) (p p2 : T) (time : Nat) : Kernel T :=
  let k := if (k.tmr p2).remain ≠ (k.tmr p).remain ∨ (k.tmr p2).remain = 0 then
      os_TmrCondSignal { k with tickBase := time }
    else k
  (k.setNext p none).setRemain p 0

/-- `OS_TmrUnlink` of the first timer, with `p2` behind it. -/
def unlinkFirst (k : Kernel T) (p p2 : T) (time : Nat) : Except Stop (Kernel T) :=
  let k := { k with listEntries := k.listEntries - 1 }
  let elapsed := sub32 time k.tickBase
  let k := k.setPrev p2 none
  let k := k.setRemain p2 (add32 (k.tmr p2).remain (k.tmr p).remain)
  (elapse k.listEntries { k with listPtr := some p2 } elapsed (some p2)).map
    fun k => unlinkEnd k p p2 time

/-- `OS_TmrUnlink` of a timer behind `p1`, with `p2` behind it. -/
def unlinkLater (k : Kernel T) (p p1 : T) (p2 : Option T) : Kernel T :=
  let k := { k with listEntries := k.listEntries - 1 }
  let k := k.setNext p1 p2
  let k := match p2 with
    | some p2 =>
      let k := k.setPrev p2 (some p1)
      k.setRemain p2 (add32 (k.tmr p2).remain (k.tmr p).remain)
    | none => k
  ((k.setPrev p none).setNext p none).setRemain p 0

def os_TmrUnlink (k : Kernel T) (p : T) (time : Nat) : Except Stop (Kernel T) :=
  match (k.tmr p).prevPtr, (k.tmr p).nextPtr with
  | none, none =>
    .ok (os_TmrCondSignal { k.setRemain p 0 with listPtr := none, listEntries := 0, tickBase := time })
  | none, some p2 => unlinkFirst k p p2 time
  | some p1, p2 => .ok (unlinkLater k p p1 p2)

/-! ## Calls -/

/-- The `time` of a call: callbacks operate on the tick base of the timer task. -/
def callTime (k : Kernel T) : Nat :=
  match k.phase with
  | .callback _ => k.tickBase
  | _ => k.now % 2 ^ 32

/-- The checks of the arguments of `OSTmrCreate`. -/
def createArgs (dly period opt : Nat) (callback : Bool) : Err :=
  if opt = 2 then
    if period = 0 then .errTmrInvalidPeriod
    else if callback = false then .errTmrInvalidCallback
    else .errNone
  else if opt = 1 then if dly = 0 then .errTmrInvalidDly else .errNone
  else .errOptInvalid

/-- The fields that `OSTmrCreate` writes; `mult` is `OSTmrToTicksMult`. -/
def createTmr (T : Type) (mult dly period opt : Nat) (callback : Bool) : Tmr T where
  typ := true
  state := .stopped
  dly := dly * mult % 2 ^ 32
  remain := 0
  period := period * mult % 2 ^ 32
  periodic := decide (opt = 2)
  callback := callback
  nextPtr := none
  prevPtr := none

def osTmrCreate (mult : Nat) (k : Kernel T) (p : T) (dly period opt : Nat) (callback : Bool) : Kernel T × Err :=
  match createArgs dly period opt callback with
  | .errNone =>
    let k := k.setState p .stopped
    if (k.tmr p).typ then (k, .errObjCreated)
    else (k.setTmr p (createTmr T mult dly period opt callback), .errNone)
  | err => (k, err)

/-- The ticks until a timer expires that is started. -/
def startRemain (v : Tmr T) : Nat := if v.dly = 0 then v.period else v.dly

/-- The end of `OSTmrStart`. -/
def startLink (k : Kernel T) (p : T) (time : Nat) : Except Stop (Kernel T × Err) :=
  (os_TmrLink (k.setRemain p (startRemain (k.tmr p))) p time).map fun k =>
    ({ k with startedAt := Function.update k.startedAt p k.now, fired := Function.update k.fired p [] }, .errNone)

def osTmrStart (k : Kernel T) (p : T) : Except Stop (Kernel T × Err) :=
  if (k.tmr p).typ = false then .ok (k, .errObjType)
  else
    let time := callTime k
    match (k.tmr p).state with
    | .running | .timeout => (os_TmrUnlink (k.setState p .running) p time).bind fun k => startLink k p time
    | .stopped | .completed => startLink (k.setState p .running) p time
    | .unused => .ok (k, .errTmrInactive)

/-- `OSTmrStop`. With two of its options it calls the callback at the end. -/
def osTmrStop (k : Kernel T) (p : T) (opt : Nat) : Except Stop (Kernel T × Err) :=
  if (k.tmr p).typ = false then .ok (k, .errObjType)
  else
    let time := callTime k
    match (k.tmr p).state with
    | .running | .timeout =>
      let k := k.setState p .stopped
      if opt = 3 ∨ opt = 4 ∨ opt = 0 then (os_TmrUnlink k p time).map fun k => (k, .errNone)
      else .ok (k, .errOptInvalid)
    | .completed | .stopped => .ok (k.setState p .stopped, .errTmrStopped)
    | .unused => .ok (k, .errTmrInactive)

def os_TmrClr (k : Kernel T) (p : T) : Kernel T :=
  k.setTmr p { typ := false, state := .unused, dly := 0, remain := 0, period := 0, periodic := false, callback := false,
               nextPtr := none, prevPtr := none }

def osTmrDel (k : Kernel T) (p : T) : Except Stop (Kernel T × Err) :=
  if (k.tmr p).typ = false then .ok (k, .errObjType)
  else
    let time := callTime k
    match (k.tmr p).state with
    | .running | .timeout => (os_TmrUnlink k p time).map fun k => (os_TmrClr k p, .errNone)
    | .stopped | .completed => .ok (os_TmrClr k p, .errNone)
    | .unused => .ok (k, .errTmrInactive)

inductive Call (T : Type) where
  | create (timer : T) (dly period opt : Nat) (callback : Bool)
  | start (timer : T)
  | stop (timer : T) (opt : Nat)
  | del (timer : T)
  deriving DecidableEq

def call (mult : Nat) (k : Kernel T) : Call T → Except Stop (Kernel T × Err)
  | .create p dly period opt callback => .ok (osTmrCreate mult k p dly period opt callback)
  | .start p => osTmrStart k p
  | .stop p opt => osTmrStop k p opt
  | .del p => osTmrDel k p

/-- `OS_TmrTask` from where it is woken to its second loop. -/
def tmrTaskWake (k : Kernel T) : Except Stop (Kernel T) :=
  match k.listPtr with
  | none => .ok { k with phase := .waiting false none }
  | some head =>
    let time := k.now % 2 ^ 32
    let elapsed := sub32 time k.tickBase
    (elapse k.listEntries { k with tickBase := time } elapsed (some head)).map fun k => { k with phase := .processing }

/-- A round of the second loop of `OS_TmrTask` behind the callback. -/
def tmrTaskExpired (k : Kernel T) (p : T) : Except Stop (Kernel T) :=
  if (k.tmr p).state = .timeout then
    (os_TmrUnlink k p k.tickBase).bind fun k =>
      if (k.tmr p).periodic then os_TmrLink ((k.setState p .running).setRemain p (k.tmr p).period) p k.tickBase
      else .ok ((((k.setPrev p none).setNext p none).setRemain p 0).setState p .completed)
  else .ok k

/-- A round of the second loop of `OS_TmrTask` up to the callback, or its end and `OS_TmrCondWait`. -/
def tmrTaskNext (k : Kernel T) : Except Stop (Kernel T) :=
  match k.listPtr with
  | none => .ok { k with phase := .waiting false none }
  | some p =>
    if (k.tmr p).remain = 0 then
      let k := { k.setState p .timeout with fired := Function.update k.fired p (k.fired p ++ [k.now]) }
      if (k.tmr p).callback then .ok { k with phase := .callback p } else tmrTaskExpired k p
    else .ok { k with phase := .waiting false (some (k.now + (k.tmr p).remain)) }

inductive Event (T : Type) where
  | tick
  /-- A task or a callback makes a call. -/
  | call (c : Call T)
  /-- The timer task has been signalled, or its wait has ended. -/
  | wake
  | next
  | return
  deriving DecidableEq

/-- The timer task gets on with its work in the tick in which it is woken, and has the lock until it waits again. -/
def step (mult : Nat) (k : Kernel T) : Event T → Except Stop (Kernel T)
  | .tick =>
    match k.phase with
    | .waiting false wakeAt => if wakeAt = some k.now then .error .refused else .ok { k with now := k.now + 1 }
    | _ => .error .refused
  | .call c =>
    match k.phase with
    | .processing => .error .refused
    | _ => (call mult k c).map Prod.fst
  | .wake =>
    match k.phase with
    | .waiting signalled wakeAt => if signalled ∨ wakeAt = some k.now then tmrTaskWake k else .error .refused
    | _ => .error .refused
  | .next =>
    match k.phase with
    | .processing => tmrTaskNext k
    | _ => .error .refused
  | .return =>
    match k.phase with
    | .callback p => tmrTaskExpired { k with phase := .processing } p
    | _ => .error .refused

/-- After `OS_TmrInit`, when the timer task waits for the first time. -/
def start (T : Type) (now : Nat) : Kernel T where
  tmr _ := { typ := false, state := .unused, dly := 0, remain := 0, period := 0, periodic := false, callback := false,
             nextPtr := none, prevPtr := none }
  listPtr := none
  listEntries := 0
  tickBase := 0
  now := now
  phase := .waiting false none
  startedAt _ := 0
  fired _ := []

end RtosKernel.Ucos.Timers
