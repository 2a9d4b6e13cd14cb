import RtosKernel.Lib.Runs
import RtosKernel.Zephyr.Timeout

/-! # Timers (`timer.c`)

A timer is a timeout whose handler adds it again. The queue is that of `timeout.c`, with 64-bit timeouts, and other
timeouts are in it as well. `sys_clock_elapsed()` may read anything whenever it is read. -/
namespace RtosKernel.Zephyr.KTimer
open Zephyr.Timeout (Config Obs zAddTimeout zAbortTimeout toUint64)
open Function (update)

/-- `CONFIG_TIMEOUT_64BIT`. -/
def cfg : Config := ⟨true⟩

/-- The queue with the timers `K` and other timeouts `O`. -/
structure State (K O : Type) where
  queue : Timeout.State (K ⊕ O)
  /-- The timer whose handler `sys_clock_announce` has called, until it has the lock of the timers. -/
  calling : Option K
  period : K → Int
  status : K → Nat
  /-- The relative period that a timer was started with, while nobody has stopped it. No code reads this. -/
  asked : K → Option Int
  /-- The ticks at which the handler has run since then. -/
  expiries : K → List Int
  /-- How often it has run since `status` was 0. -/
  count : K → Nat
  /-- What `k_timer_status_get` has returned, each time with this number. -/
  results : List (Nat × Nat)

inductive Stop where
  /-- The event cannot happen in this state. -/
  | refused
  /-- `z_add_timeout` asserts that the timeout is not in the queue. -/
  | linked
  deriving DecidableEq

variable {K O : Type} [DecidableEq K] [DecidableEq O] (s : State K O)

def orLinked {α : Type} : Option α → Except Stop α
  | some a => .ok a
  | none => .error .linked

/-- `k_uptime_ticks`, where `sys_clock_elapsed()` is `e`. -/
def zImplKUptimeTicks (e : Nat) : Int := cfg.toTicks (toUint64 (s.queue.currTick + e))

def kTimeoutAbsTicks (t : Int) : Int := cfg.tickAbs (max t 0)

/-- The period asks for more than one expiry. -/
def Periodic (period : Int) : Prop := period ≠ 0 ∧ period ≠ cfg.ticksForever
  deriving Decidable

/-- The `next` of `z_timer_expiration_handler`. -/
def next (k : K) (e : Nat) : Int := kTimeoutAbsTicks (cfg.toTicks (zImplKUptimeTicks s e + 1 + s.period k))

/-- The queue after a handler, with the uptime read when `e` ticks have elapsed and the timeout added when `e'` have. -/
def readded (k : K) (e e' : Nat) : Except Stop (Timeout.State (K ⊕ O)) :=
  if Periodic (s.period k) then orLinked (zAddTimeout cfg s.queue (.inl k) (next s k e) e') else .ok s.queue

/-- `z_timer_expiration_handler`, up to the expiry function. -/
def zTimerExpirationHandler (k : K) (e e' : Nat) : Except Stop (State K O) :=
  (readded s k e e').map fun queue => { s with
    queue
    calling := none
    status := update s.status k ((s.status k + 1) % 2 ^ 32)
    expiries := update s.expiries k (s.expiries k ++ [s.queue.currTick])
    count := update s.count k (s.count k + 1) }

/-- The period that `k_timer_start` stores. -/
def storedPeriod (period : Int) : Int :=
  if period ≠ cfg.ticksForever ∧ period ≠ 0 ∧ cfg.tickAbs period < 0 then max (period - 1) 1 else period

/-- The duration that `k_timer_start` gives to `z_add_timeout`. -/
def startDuration (duration : Int) : Int := if cfg.tickAbs duration < 0 then max (duration - 1) 0 else duration

/-- `k_timer_start`. -/
def zImplKTimerStart (k : K) (duration period : Int) (e : Nat) : Except Stop (State K O) :=
  if duration = cfg.ticksForever then .ok s
  else
    let queue := (zAbortTimeout cfg s.queue (.inl k)).1
    (orLinked (zAddTimeout cfg queue (.inl k) (startDuration duration) e)).map fun queue => { s with
      queue
      period := update s.period k (storedPeriod period)
      status := update s.status k 0
      asked := update s.asked k (if 0 < period ∧ cfg.tickAbs period < 0 then some period else none)
      expiries := update s.expiries k []
      count := update s.count k 0 }

/-- `k_timer_stop`. -/
def zImplKTimerStop (k : K) : State K O :=
  { s with queue := (zAbortTimeout cfg s.queue (.inl k)).1, asked := update s.asked k none }

/-- `k_timer_status_get`. -/
def zImplKTimerStatusGet (k : K) : State K O :=
  { s with
    status := update s.status k 0
    count := update s.count k 0
    results := (s.status k, s.count k) :: s.results }

/-! ## Runs -/

inductive Event (K O : Type) where
  | start (k : K) (duration period : Int) (e : Nat)
  | stop (k : K)
  | statusGet (k : K)
  | add (o : O) (ticks : Int) (e : Nat)
  | abort (o : O)
  | announce (ticks : Nat)
  /-- The handler that was called runs up to the expiry function. -/
  | handler (e e' : Nat)
  /-- The call of the handler returns to `sys_clock_announce`. -/
  | returned
  deriving DecidableEq

def called : Option (Obs (K ⊕ O)) → Option K
  | some (.called (.inl k) _) => some k
  | _ => none

/-- What `sys_clock_announce` does up to the next call. -/
def announced (r : Option (Timeout.State (K ⊕ O) × Option (Obs (K ⊕ O)))) : Except Stop (State K O) :=
  match r with
  | some (queue, o) => .ok { s with queue, calling := called o }
  | none => .error .refused

/-- One event. Between a call and its return there may be others. -/
def step (s : State K O) : Event K O → Except Stop (State K O)
  | .start k duration period e =>
    if cfg.IsTicks duration ∧ cfg.IsTicks period ∧ e < 2 ^ 32 then zImplKTimerStart s k duration period e
    else .error .refused
  | .stop k => .ok (zImplKTimerStop s k)
  | .statusGet k => .ok (zImplKTimerStatusGet s k)
  | .add o ticks e =>
    if cfg.IsTicks ticks ∧ e < 2 ^ 32 then
      (orLinked (zAddTimeout cfg s.queue (.inr o) ticks e)).map fun queue => { s with queue }
    else .error .refused
  | .abort o => .ok { s with queue := (zAbortTimeout cfg s.queue (.inr o)).1 }
  | .announce ticks => if s.calling = none then announced s (Timeout.step cfg s.queue (.announce ticks)) else .error .refused
  | .handler e e' =>
    match s.calling with
    | some k => if e < 2 ^ 32 ∧ e' < 2 ^ 32 then zTimerExpirationHandler s k e e' else .error .refused
    | none => .error .refused
  | .returned => if s.calling = none then announced s (Timeout.step cfg s.queue .returned) else .error .refused

/-- Before any timer is started. `k_timer_init` does not set `period`. -/
def initial (dticks : K ⊕ O → Int) (period : K → Int) : State K O where
  queue := Timeout.initial dticks
  calling := none
  period := period
  status _ := 0
  asked _ := none
  expiries _ := []
  count _ := 0
  results := []

structure Sound (s : State K O) : Prop where
  /-- A later expiry is handled whole periods after the first one. -/
  spaced : ∀ k p, s.asked k = some p → ∀ F, (s.expiries k).head? = some F →
    ∀ (i : Nat) (x : Int), (s.expiries k)[i]? = some x → x = F + i * p
  /-- Outside of an announcement no expiry is due. -/
  onTime : s.queue.announcing = false → ∀ k p, s.asked k = some p → ∀ F, (s.expiries k).head? = some F →
    s.queue.currTick < F + (s.expiries k).length * p
  counted : ∀ r ∈ s.results, r.1 = r.2

end RtosKernel.Zephyr.KTimer
