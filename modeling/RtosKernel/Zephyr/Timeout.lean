import RtosKernel.Lib.DeltaQueue

/-! # The timeout queue (`timeout.c`)

The pending timeouts are in a list, each with the ticks from the one before it.
`sys_clock_announce` takes the timeouts that are due out of the list and calls
them with the lock released, so others may be added and aborted in between. -/
namespace RtosKernel.Zephyr.Timeout

/-- `CONFIG_TIMEOUT_64BIT`. -/
structure Config where
  timeout64 : Bool
  deriving DecidableEq

/-- The width of `dticks` and of `k_ticks_t`. -/
def Config.width (cfg : Config) : Nat := if cfg.timeout64 then 64 else 32

/-- Conversion to the type of `dticks`, `int64_t` or `int32_t`. -/
def Config.toDticks (cfg : Config) (x : Int) : Int := x.bmod (2 ^ cfg.width)

/-- Conversion to `k_ticks_t`, `int64_t` or `uint32_t`. -/
def Config.toTicks (cfg : Config) (x : Int) : Int := if cfg.timeout64 then x.bmod (2 ^ 64) else x % 2 ^ 32

/-- Conversion to `int` and `int32_t`. -/
def toInt (x : Int) : Int := x.bmod (2 ^ 32)

/-- Conversion to `uint64_t`. -/
def toUint64 (x : Int) : Int := x % 2 ^ 64

def Config.ticksForever (cfg : Config) : Int := cfg.toTicks (-1)

def Config.tickAbs (cfg : Config) (t : Int) : Int := cfg.toTicks (cfg.ticksForever - 1 - t)

structure State (Id : Type) where
  currTick : Int
  timeoutList : List Id
  announceRemaining : Int
  dticks : Id → Int
  /-- inside of `sys_clock_announce`, a callback is running -/
  announcing : Bool

variable {Id : Type} [DecidableEq Id]

def next (t : Id) : List Id → Option Id
  | [] => none
  | x :: l => if x = t then l.head? else next t l

def removeTimeout (cfg : Config) (s : State Id) (t : Id) : State Id :=
  { s with
    dticks := match next t s.timeoutList with
      | some n => Function.update s.dticks n (cfg.toDticks (s.dticks n + s.dticks t))
      | none => s.dticks
    timeoutList := s.timeoutList.erase t }

/-- `elapsed`, where `sys_clock_elapsed()` is `e`. -/
def elapsed (s : State Id) (e : Nat) : Int := if s.announceRemaining = 0 then toInt e else 0

/-- The loop of `z_add_timeout`. -/
def insertLoop (cfg : Config) (dticks : Id → Int) (timeout : Id) : List Id → (Id → Int) × List Id
  | [] => (dticks, [timeout])
  | t :: l =>
    if dticks t > dticks timeout then
      (Function.update dticks t (cfg.toDticks (dticks t - dticks timeout)), timeout :: t :: l)
    else
      let r := insertLoop cfg (Function.update dticks timeout (cfg.toDticks (dticks timeout - dticks t))) timeout l
      (r.1, t :: r.2)

/-- `to->dticks` before the loop. -/
def initialDticks (cfg : Config) (s : State Id) (ticks : Int) (e : Nat) : Int :=
  if cfg.timeout64 ∧ 0 ≤ cfg.tickAbs ticks then
    max 1 (cfg.toTicks (cfg.tickAbs ticks - s.currTick))
  else cfg.toDticks (ticks + 1 + elapsed s e)

/-- `z_add_timeout`. None is a failed assertion. -/
def zAddTimeout (cfg : Config) (s : State Id) (timeout : Id) (ticks : Int) (e : Nat) : Option (State Id) :=
  if ticks = cfg.ticksForever then some s
  else if timeout ∈ s.timeoutList then none
  else
    let dticks := Function.update s.dticks timeout (initialDticks cfg s ticks e)
    let r := insertLoop cfg dticks timeout s.timeoutList
    some { s with dticks := r.1, timeoutList := r.2 }

/-- `z_abort_timeout`, and whether it returns 0. -/
def zAbortTimeout (cfg : Config) (s : State Id) (timeout : Id) : State Id × Bool :=
  if timeout ∈ s.timeoutList then (removeTimeout cfg s timeout, true) else (s, false)

/-- The sum of `timeout_rem`. -/
def remLoop (cfg : Config) (dticks : Id → Int) (timeout : Id) (ticks : Int) : List Id → Int
  | [] => ticks
  | t :: l =>
    let ticks := cfg.toTicks (ticks + dticks t)
    if timeout = t then ticks else remLoop cfg dticks timeout ticks l

def timeoutRem (cfg : Config) (s : State Id) (e : Nat) (timeout : Id) : Int :=
  if timeout ∉ s.timeoutList then 0
  else cfg.toTicks (remLoop cfg s.dticks timeout 0 s.timeoutList - elapsed s e)

def zTimeoutExpires (cfg : Config) (s : State Id) (e : Nat) (timeout : Id) : Int :=
  cfg.toTicks (s.currTick + timeoutRem cfg s e timeout)

/-- The loop of `sys_clock_announce` up to the next callback, or to the end of the function. -/
def announceLoop (cfg : Config) (s : State Id) : State Id × Option Id :=
  match s.timeoutList with
  | [] =>
    ({ s with
      currTick := toUint64 (s.currTick + s.announceRemaining), announceRemaining := 0, announcing := false }, none)
  | t :: _ =>
    if s.dticks t ≤ s.announceRemaining then
      let dt := toInt (s.dticks t)
      let s := { s with
        currTick := toUint64 (s.currTick + dt)
        announceRemaining := toInt (s.announceRemaining - dt)
        dticks := Function.update s.dticks t 0
        announcing := true }
      (removeTimeout cfg s t, some t)
    else
      ({ s with
        dticks := Function.update s.dticks t (cfg.toDticks (s.dticks t - s.announceRemaining))
        currTick := toUint64 (s.currTick + s.announceRemaining)
        announceRemaining := 0
        announcing := false }, none)

/-! ## Runs -/

/-- What can happen. Between two callbacks, and during one, timeouts are added and aborted. -/
inductive Event (Id : Type) where
  /-- `sys_clock_elapsed()` is `e` -/
  | add (timeout : Id) (ticks : Int) (e : Nat)
  | abort (timeout : Id)
  | announce (ticks : Nat)
  | returned
  deriving DecidableEq

/-- What is seen of it: timeouts that are added, with their time, aborted ones, and calls of `fn`
with the tick. -/
inductive Obs (Id : Type) where
  | added (timeout : Id) (expiry : Int)
  | aborted (timeout : Id)
  | called (timeout : Id) (currTick : Int)
  deriving DecidableEq

/-- The ticks since the last announcement. They are counted already during one. -/
def sinceAnnounced (s : State Id) (e : Nat) : Int := if s.announceRemaining = 0 then (e : Int) else 0

/-- The time that a timeout is added for. Below `K_TICKS_FOREVER` are the absolute times. -/
def expiry (s : State Id) (ticks : Int) (e : Nat) : Int :=
  if 0 ≤ ticks then s.currTick + ticks + 1 + sinceAnnounced s e else max (-2 - ticks) (s.currTick + 1)

/-- `ticks` is a value of `k_ticks_t`. -/
def Config.IsTicks (cfg : Config) (ticks : Int) : Prop := cfg.toTicks ticks = ticks
  deriving Decidable

/-- One step. None where it cannot happen or an assertion fails. -/
def step (cfg : Config) (s : State Id) : Event Id → Option (State Id × Option (Obs Id))
  | .add timeout ticks e =>
    if cfg.IsTicks ticks ∧ e < 2 ^ 32 then
      (zAddTimeout cfg s timeout ticks e).map fun s' =>
        (s', if ticks = cfg.ticksForever then none else some (.added timeout (expiry s ticks e)))
    else none
  | .abort timeout =>
    let r := zAbortTimeout cfg s timeout
    some (r.1, if r.2 then some (.aborted timeout) else none)
  | .announce ticks =>
    if s.announcing = false ∧ ticks < 2 ^ 31 then
      let r := announceLoop cfg { s with announceRemaining := ticks }
      some (r.1, r.2.map fun t => .called t r.1.currTick)
    else none
  | .returned =>
    if s.announcing = true then
      let r := announceLoop cfg s
      some (r.1, r.2.map fun t => .called t r.1.currTick)
    else none

def run (cfg : Config) (s : State Id) : List (Event Id) → Option (State Id × List (Obs Id))
  | [] => some (s, [])
  | ev :: evs => (step cfg s ev).bind fun r => (run cfg r.1 evs).map fun q => (q.1, r.2.toList ++ q.2)

def initial (dticks : Id → Int) : State Id := ⟨0, [], 0, dticks, false⟩

end RtosKernel.Zephyr.Timeout
