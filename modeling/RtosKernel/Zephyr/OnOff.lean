import Mathlib.Algebra.Group.Nat.Defs
import Mathlib.Data.List.Count
import RtosKernel.Lib.Runs

/-! # On-off managers (`onoff.c`)

A step is one holding of the lock of a manager, or one thing that `process_event` does while it has let the lock
go: the monitors, one client, the transition function. Callbacks and transition functions are the steps that
come in between. -/
namespace RtosKernel.Zephyr.OnOff

def EIO : Int := 5
def EAGAIN : Int := 11
def ENOTSUP : Int := 134
def EALREADY : Int := 120

def SERVICE_REFS_MAX : Nat := 65535

/-- `ONOFF_STATE_MASK`. -/
inductive State where
  | off
  | on
  | error
  | toOn
  | toOff
  | resetting
  deriving DecidableEq

/-- `ONOFF_FLAG_ERROR`. -/
def State.isError : State → Bool
  | .error | .resetting => true
  | _ => false

def State.toInt : State → Int
  | .off => 0
  | .error => 1
  | .on => 2
  | .toOff => 4
  | .resetting => 5
  | .toOn => 6

inductive EventType where
  | nop
  | complete
  | recheck
  | start
  | stop
  | reset
  deriving DecidableEq

/-- `struct onoff_transitions`. -/
inductive Transition where
  | start
  | stop
  | reset
  deriving DecidableEq

/-- What `process_event` has still to do before it takes the lock again. -/
structure Unlocked (Cli : Type) where
  doMonitors : Bool
  state : State
  res : Int
  clients : List Cli
  /-- The transition to begin, with the state and the references it was decided on. -/
  transit : Option (Transition × State × Nat)

/-- A transition that was begun, with the one that was under way then. -/
structure Begun where
  transition : Transition
  state : State
  refs : Nat
  underway : Option Transition

/-- `struct onoff_manager`, with what is under way. -/
structure Manager (Cli Mon : Type) where
  state : State
  processing : Bool
  complete : Bool
  recheck : Bool
  refs : Nat
  lastRes : Int
  clients : List Cli
  monitors : List Mon
  /-- `process_event`, while it has let the lock go. -/
  unlocked : Option (Unlocked Cli)
  /-- The clients of `onoff_request`, behind the lock and before `notify_one`. -/
  granting : List Cli
  /-- The transition whose function was called and that has not completed. -/
  underway : Option Transition
  /-- How often a client was accepted and cancelled. No code reads this, nor what follows. -/
  accepted : Cli → Nat
  cancelled : Cli → Nat
  /-- Whom `notify_one` has told which state and which result. -/
  notified : List (Cli × State × Int)
  released : Nat
  begun : List Begun

inductive Stop where
  /-- The step cannot happen in this state. -/
  | refused
  /-- The loop of `process_event` has gone on for too long. -/
  | loop
  deriving DecidableEq

variable {Cli Mon : Type} [DecidableEq Cli] [DecidableEq Mon] (mgr : Manager Cli Mon)

/-! ## The state machine -/

def processRecheck : EventType :=
  if mgr.state = .off ∧ mgr.clients ≠ [] then .start
  else if mgr.state = .on ∧ mgr.refs = 0 then .stop
  else if mgr.state = .error ∧ mgr.clients ≠ [] then .reset
  else .nop

/-- The end of `process_complete`. -/
def recheckLater : Manager Cli Mon :=
  if processRecheck mgr ≠ .nop then { mgr with recheck := true } else mgr

/-- `process_complete`, with the clients to notify. In another state than those of a transition nothing is done. -/
def processComplete (res : Int) : Manager Cli Mon × List Cli :=
  if res < 0 then ({ mgr with clients := [], state := .error }, mgr.clients)
  else
    match mgr.state with
    | .toOn =>
      (recheckLater { mgr with
        clients := [], refs := (mgr.refs + mgr.clients.length) % 2 ^ 16, state := .on }, mgr.clients)
    | .resetting => (recheckLater { mgr with clients := [], state := .off }, mgr.clients)
    | .toOff => (recheckLater { mgr with state := .off }, [])
    | _ => (mgr, [])

/-- What an event of the loop of `process_event` changes: the manager, the clients to notify, their result, and
the transition to begin. -/
def processOne : EventType → Manager Cli Mon × List Cli × Int × Option (Transition × State × Nat)
  | .complete =>
    let (mgr', clients) := processComplete mgr mgr.lastRes
    (mgr', clients, mgr.lastRes, none)
  | .start => ({ mgr with state := .toOn }, [], 0, some (.start, mgr.state, mgr.refs))
  | .stop => ({ mgr with state := .toOff }, [], 0, some (.stop, mgr.state, mgr.refs))
  | .reset => ({ mgr with state := .resetting }, [], 0, some (.reset, mgr.state, mgr.refs))
  | _ => (mgr, [], 0, none)

/-- The deferred event that comes first, without its flag. -/
def takeDeferred : Option (EventType × Manager Cli Mon) :=
  if mgr.complete then some (.complete, { mgr with complete := false })
  else if mgr.recheck then some (.recheck, { mgr with recheck := false })
  else none

/-- The loop of `process_event`, to where it lets the lock go. -/
def processLoop : Nat → Manager Cli Mon → EventType → Except Stop (Manager Cli Mon)
  | 0, _, _ => .error .loop
  | n + 1, mgr, evt =>
    let evt := if evt = .recheck then processRecheck mgr else evt
    if evt = .nop then .ok mgr
    else
      let (mgr', clients, res, transit) := processOne mgr evt
      let doMonitors := decide (mgr.state ≠ mgr'.state ∧ mgr'.monitors ≠ [])
      if doMonitors ∨ clients ≠ [] ∨ transit ≠ none then
        .ok { mgr' with processing := true, unlocked := some ⟨doMonitors, mgr'.state, res, clients, transit⟩ }
      else
        match takeDeferred mgr' with
        | some (evt, mgr') => processLoop n mgr' evt
        | none => .ok mgr'

def processEvent (evt : EventType) : Except Stop (Manager Cli Mon) :=
  if mgr.processing then
    .ok (if evt = .complete then { mgr with complete := true } else { mgr with recheck := true })
  else processLoop 3 mgr evt

def notifyOne (cli : Cli) (state : State) (res : Int) : Manager Cli Mon :=
  { mgr with notified := (cli, state, res) :: mgr.notified }

/-- The next thing that `process_event` does without the lock, and then the rest of its loop. -/
def processUnlocked (u : Unlocked Cli) : Except Stop (Manager Cli Mon) :=
  if u.doMonitors then .ok { mgr with unlocked := some { u with doMonitors := false } }
  else
    match u.clients, u.transit with
    | cli :: clients, _ =>
      .ok { notifyOne mgr cli u.state u.res with unlocked := some { u with clients } }
    | [], some (transition, state, refs) =>
      .ok { mgr with
        unlocked := some { u with transit := none }
        underway := some transition
        begun := ⟨transition, state, refs, mgr.underway⟩ :: mgr.begun }
    | [], none =>
      let mgr := { mgr with processing := false, unlocked := none }
      match takeDeferred mgr with
      | some (evt, mgr) => processLoop 3 mgr evt
      | none => .ok mgr

def transitionComplete (res : Int) : Except Stop (Manager Cli Mon) :=
  processEvent { mgr with lastRes := res, underway := none } .complete

def accept (cli : Cli) : Manager Cli Mon :=
  { mgr with accepted := Function.update mgr.accepted cli (mgr.accepted cli + 1) }

/-- `onoff_request`, up to where it lets the lock go, and what it returns. -/
def onoffRequest (cli : Cli) : Except Stop (Manager Cli Mon × Int) :=
  if mgr.refs = SERVICE_REFS_MAX then .ok (mgr, -EAGAIN)
  else
    let rv := mgr.state.toInt
    match mgr.state with
    | .on => .ok ({ accept mgr cli with refs := (mgr.refs + 1) % 2 ^ 16, granting := cli :: mgr.granting }, rv)
    | .off =>
      (processEvent { accept mgr cli with clients := mgr.clients ++ [cli] } .recheck).map fun mgr => (mgr, rv)
    | .toOff | .toOn => .ok ({ accept mgr cli with clients := mgr.clients ++ [cli] }, rv)
    | .resetting => .ok (mgr, -ENOTSUP)
    | .error => .ok (mgr, - EIO)

def onoffRelease : Except Stop (Manager Cli Mon × Int) :=
  if mgr.state ≠ .on then .ok (mgr, if mgr.state = .error then - EIO else -ENOTSUP)
  else
    let mgr' := { mgr with refs := mgr.refs - 1, released := mgr.released + 1 }
    if mgr'.refs = 0 then (processEvent mgr' .recheck).map fun mgr' => (mgr', mgr.state.toInt)
    else .ok (mgr', mgr.state.toInt)

/-- `onoff_reset`, with a reset function or without. -/
def onoffReset (hasReset : Bool) (cli : Cli) : Except Stop (Manager Cli Mon × Int) :=
  if !hasReset then .ok (mgr, -ENOTSUP)
  else if !mgr.state.isError then .ok (mgr, -EALREADY)
  else
    let mgr' := { accept mgr cli with clients := mgr.clients ++ [cli] }
    if mgr.state ≠ .resetting then (processEvent mgr' .recheck).map fun mgr' => (mgr', mgr.state.toInt)
    else .ok (mgr', mgr.state.toInt)

def onoffCancel (cli : Cli) : Manager Cli Mon × Int :=
  if cli ∈ mgr.clients then
    ({ mgr with
      clients := mgr.clients.erase cli
      cancelled := Function.update mgr.cancelled cli (mgr.cancelled cli + 1) }, mgr.state.toInt)
  else (mgr, -EALREADY)

/-! ## Steps -/

/-- The clients that are to be notified, now or later. -/
def waiting : List Cli := mgr.clients ++ (mgr.unlocked.elim [] fun u => u.clients) ++ mgr.granting

/-- A notification that tells a client of `onoff_request` that the service is on. -/
def Grants (state : State) (res : Int) : Bool := state == .on && decide (0 ≤ res)

/-- The requests that were granted: those that were told so, and those that will be. -/
def granted : Nat :=
  (mgr.notified.filter fun r => Grants r.2.1 r.2.2).length +
    (mgr.unlocked.elim 0 fun u => if Grants u.state u.res then u.clients.length else 0) + mgr.granting.length

inductive Act (Cli Mon : Type) where
  | request (cli : Cli)
  /-- The end of an `onoff_request` that was granted at once. -/
  | grant (cli : Cli)
  | release
  | reset (cli : Cli)
  | cancel (cli : Cli)
  | complete (res : Int)
  | unlocked
  | monitorRegister (mon : Mon)
  | monitorUnregister (mon : Mon)
  deriving DecidableEq

/-- One step. A client is used again only when it was notified or cancelled, and there is one release for each
request granted. -/
def step (hasReset : Bool) (mgr : Manager Cli Mon) : Act Cli Mon → Except Stop (Manager Cli Mon)
  | .request cli => if cli ∈ waiting mgr then .error .refused else (onoffRequest mgr cli).map Prod.fst
  | .grant cli =>
    if cli ∈ mgr.granting then .ok { notifyOne mgr cli .on 0 with granting := mgr.granting.erase cli }
    else .error .refused
  | .release => if mgr.released < granted mgr then (onoffRelease mgr).map Prod.fst else .error .refused
  | .reset cli => if cli ∈ waiting mgr then .error .refused else (onoffReset mgr hasReset cli).map Prod.fst
  | .cancel cli => .ok (onoffCancel mgr cli).1
  | .complete res => if mgr.underway = none then .error .refused else transitionComplete mgr res
  | .unlocked =>
    match mgr.unlocked with
    | some u => processUnlocked mgr u
    | none => .error .refused
  | .monitorRegister mon => .ok { mgr with monitors := mgr.monitors ++ [mon] }
  | .monitorUnregister mon => .ok { mgr with monitors := mgr.monitors.erase mon }

/-- `ONOFF_MANAGER_INITIALIZER`. -/
def initial : Manager Cli Mon where
  state := .off
  processing := false
  complete := false
  recheck := false
  refs := 0
  lastRes := 0
  clients := []
  monitors := []
  unlocked := none
  granting := []
  underway := none
  accepted _ := 0
  cancelled _ := 0
  notified := []
  released := 0
  begun := []

/-- No more requests are pending or granted at once than there are references. -/
def Few (mgr : Manager Cli Mon) : Act Cli Mon → Prop
  | .request _ =>
    mgr.state.isError ∨ mgr.refs = SERVICE_REFS_MAX ∨ mgr.clients.length + mgr.refs < SERVICE_REFS_MAX
  | _ => True

instance Few.instDecidable (mgr : Manager Cli Mon) (a) : Decidable (Few mgr a) := by
  cases a <;> dsimp only [Few] <;> infer_instance

/-- A transition is begun from its state, and alone. -/
def Begun.Ok (b : Begun) : Prop :=
  b.underway = none ∧
    match b.transition with
    | .start => b.state = .off
    | .stop => b.state = .on ∧ b.refs = 0
    | .reset => b.state = .error

structure Sound (mgr : Manager Cli Mon) : Prop where
  begun : ∀ b ∈ mgr.begun, b.Ok
  refs : mgr.refs + mgr.released = granted mgr
  /-- A client that was accepted is cancelled, is notified, or waits for one of the two. -/
  once : ∀ cli, mgr.accepted cli =
    mgr.cancelled cli + (mgr.notified.map Prod.fst).count cli + (waiting mgr).count cli
  apart : (waiting mgr).Nodup
  off : mgr.processing = false → mgr.state = .off → mgr.clients = []
  on : mgr.processing = false → mgr.state = .on → 0 < mgr.refs ∧ mgr.clients = []
  error : mgr.processing = false → mgr.state = .error → mgr.clients = [] ∧ mgr.refs = 0
  /-- In any other state a transition is under way, whose completion goes on with the clients. -/
  underway : mgr.processing = false → mgr.underway = none → mgr.state = .off ∨ mgr.state = .on ∨ mgr.state = .error
  /-- Where no call has to go on and no transition to complete, no client waits. -/
  settled : mgr.unlocked = none → mgr.underway = none → mgr.granting = [] → waiting mgr = []

end RtosKernel.Zephyr.OnOff
