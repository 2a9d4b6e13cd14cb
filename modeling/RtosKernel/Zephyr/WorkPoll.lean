import Mathlib.Logic.Function.Basic
import RtosKernel.Lib.Runs

/-! # Work that events trigger (`poll.c`, `work.c`)

A step is one holding of the lock of `poll.c`, one call of another function, or what is written without the lock between
two of them; a call that lets the lock go between two events goes on in a later step. A timeout leaves the timeout queue
first and has its handler called then, one handler at a time. Whether the condition of an event is met is up to the
environment. -/
namespace RtosKernel.Zephyr.WorkPoll
open Function (update)

def EAGAIN : Int := 11
def EBUSY : Int := 16
def ENODEV : Int := 19
def EINVAL : Int := 22
def EADDRINUSE : Int := 112
def EINPROGRESS : Int := 119

/-- `K_NO_WAIT`, some ticks, or `K_FOREVER`. -/
inductive Timeout where
  | noWait
  | ticks
  | forever
  deriving DecidableEq

/-- `struct k_work_poll` with its `struct k_work`, and what is known of the submission that it was accepted for last. -/
structure Work (E Q : Type) where
  workq : Option Q
  isPolling : Bool
  /-- `mode` is `MODE_TRIGGERED` and not `MODE_NONE`. -/
  triggered : Bool
  events : List E
  pollResult : Int
  timeoutActive : Bool
  /-- `K_WORK_QUEUED` -/
  queued : Bool
  /-- `K_WORK_RUNNING` -/
  running : Bool
  /-- `queue`, where it was queued last -/
  queue : Option Q
  /-- The number of the submission. No code reads this, nor what follows. -/
  submission : Nat
  byEvent : Bool
  /-- Its timeout has triggered it, `K_NO_WAIT` included. -/
  byTimeout : Bool
  /-- Its ownership is dropped and its handler not called yet. -/
  dropped : Bool
  deriving DecidableEq

/-- `struct k_work_q`. -/
structure Queue (W : Type) where
  pending : List W
  started : Bool
  draining : Bool
  plugged : Bool

/-- A call of `real_handler`. -/
structure Run (W : Type) where
  work : W
  submission : Nat
  byEvent : Bool
  byTimeout : Bool
  pollResult : Int
  deriving DecidableEq

/-- Where the thread of a queue is in `work_queue_main` and `triggered_work_handler`. -/
inductive Handling (W : Type) where
  | idle
  /-- before it reads `mode` -/
  | taken (w : W)
  /-- in `clear_event_registrations` -/
  | clearing (w : W) (numEvents : Nat)
  | calling (w : W)
  /-- behind `workq = NULL`, before the call of `real_handler` -/
  | dropped (r : Run W)
  /-- in `real_handler` -/
  | handler (w : W)
  deriving DecidableEq

/-- The arguments of `k_work_poll_submit_to_queue`. -/
structure Args (E Q : Type) where
  workQ : Q
  events : List E
  timeout : Timeout
  deriving DecidableEq

/-- Where a call of `k_work_poll_submit_to_queue` or `k_work_poll_cancel` is. -/
inductive Phase (E Q : Type) where
  /-- `k_work_poll_cancel`, before it takes the lock -/
  | locking
  /-- in `clear_event_registrations` of `triggered_work_cancel`; a submission goes on after it -/
  | cancelling (numEvents : Nat) (resubmit : Option (Args E Q))
  /-- behind the lock, before it writes what it was called with -/
  | saving (args : Args E Q)
  /-- in `register_events`, before the event `ii` -/
  | registering (args : Args E Q) (ii eventsRegistered : Nat)
  /-- in the last `clear_event_registrations` of a submission -/
  | clearing (args : Args E Q) (numEvents : Nat)
  /-- before `k_work_submit_to_queue` -/
  | submitting (args : Args E Q)
  deriving DecidableEq

structure Call (W E Q : Type) where
  work : W
  phase : Phase E Q
  deriving DecidableEq

structure System (W E Q C : Type) where
  work : W → Work E Q
  /-- `poller` of an event, which is in the list of its object as long. -/
  poller : E → Option W
  queue : Q → Queue W
  thread : Q → Handling W
  /-- The callers, with what they have been returned last. -/
  call : C → Option (Call W E Q)
  returned : C → Int
  /-- The work whose timeout has left the timeout queue, before `triggered_work_expiration_handler`. -/
  firing : Option W
  runs : List (Run W)
  /-- The submissions that `triggered_work_cancel` has returned 0 for. -/
  cancelled : List (W × Nat)

inductive Stop where
  /-- The step cannot happen in this state. -/
  | refused
  deriving DecidableEq

variable {W E Q C : Type} [DecidableEq W] [DecidableEq E] [DecidableEq Q] [DecidableEq C] (s : System W E Q C)

def setWork (w : W) (v : Work E Q) : System W E Q C := { s with work := update s.work w v }

def setCall (c : C) (v : Option (Call W E Q)) : System W E Q C := { s with call := update s.call c v }

def endCall (c : C) (value : Int) : System W E Q C :=
  { setCall s c none with returned := update s.returned c value }

/-! ## Queues -/

/-- `queue_submit_locked`. The call is made by the thread of the queue `current`, or by something else. -/
def queueSubmitLocked (queue : Option Q) (w : W) (current : Option Q) : System W E Q C × Int :=
  match queue with
  | none => (s, -EINVAL)
  | some q =>
    let v := s.queue q
    if !v.started then (s, -ENODEV)
    else if v.draining ∧ current ≠ some q then (s, -EBUSY)
    else if v.plugged ∧ !v.draining then (s, -EBUSY)
    else ({ s with queue := update s.queue q { v with pending := v.pending ++ [w] } }, 1)

/-- `submit_to_queue_locked`, for work that `k_work_cancel` is not used on. -/
def submitToQueueLocked (queue : Option Q) (w : W) (current : Option Q) : System W E Q C × Int :=
  let v := s.work w
  if v.queued then (s, 0)
  else
    let queue := if v.running ∨ queue = none then v.queue else queue
    let (s, rc) := queueSubmitLocked s queue w current
    if rc < 0 then (s, rc) else (setWork s w { v with queued := true, queue }, if v.running then 2 else 1)

/-- `k_work_submit_to_queue`, whose result no caller here uses. -/
def kWorkSubmitToQueue (queue : Option Q) (w : W) (current : Option Q) : System W E Q C :=
  (submitToQueueLocked s queue w current).1

/-- `clear_event_registration`, for `events[ii]`. -/
def clearEventRegistration (events : List E) (ii : Nat) : System W E Q C :=
  match events[ii]? with
  | some event => { s with poller := update s.poller event none }
  | none => s

def signalTriggeredWork (w : W) (current : Option Q) : System W E Q C :=
  let v := s.work w
  if v.isPolling ∧ v.workq ≠ none then
    kWorkSubmitToQueue (setWork s w { v with timeoutActive := false, pollResult := 0 }) v.workq w current
  else s

/-- The poller of a work is signalled. -/
def signalPoller (w : W) (current : Option Q) : System W E Q C :=
  let v := s.work w
  let s := if v.triggered then signalTriggeredWork s w current else s
  setWork s w { s.work w with isPolling := false, byEvent := v.byEvent || v.isPolling }

/-- `signal_poll_event`, for an event of the work `w`. -/
def signalPollEvent (event : E) (w : W) (current : Option Q) : System W E Q C :=
  let s := signalPoller s w current
  { s with poller := update s.poller event none }

def triggeredWorkExpirationHandler (w : W) : System W E Q C :=
  let v := { s.work w with isPolling := false, pollResult := -EAGAIN, byTimeout := true }
  kWorkSubmitToQueue (setWork s w v) v.workq w none

/-! ## Calls -/

/-- `triggered_work_cancel`, up to where it clears the registrations. None if it returns `-EINVAL`. -/
def triggeredWorkCancel (w : W) : Option (System W E Q C) :=
  let v := s.work w
  if v.isPolling ∧ v.triggered then
    some { setWork s w { v with timeoutActive := false, triggered := false } with
      cancelled := (w, v.submission) :: s.cancelled }
  else none

/-- `k_work_poll_submit_to_queue` from where it owns the work, up to where it lets the lock go. -/
def takeOwnership (c : C) (w : W) (args : Args E Q) : System W E Q C :=
  let v := s.work w
  setCall (setWork s w
    { v with
      isPolling := true, workq := some args.workQ, triggered := false, submission := v.submission + 1
      byEvent := false, byTimeout := false }) c
    (some ⟨w, .saving args⟩)

/-- `k_work_poll_submit_to_queue`, up to where it lets the lock go for the first time. -/
def kWorkPollSubmitToQueue (c : C) (w : W) (args : Args E Q) : System W E Q C :=
  match (s.work w).workq with
  | none => takeOwnership s c w args
  | some q =>
    if q = args.workQ then
      match triggeredWorkCancel s w with
      | none => endCall s c (-EINVAL)
      | some s => setCall s c (some ⟨w, .cancelling (s.work w).events.length (some args)⟩)
    else endCall s c (-EADDRINUSE)

/-- `k_work_poll_cancel`, up to the lock. -/
def kWorkPollCancel (c : C) (w : W) : System W E Q C :=
  if (s.work w).workq = none then endCall s c (-EINVAL) else setCall s c (some ⟨w, .locking⟩)

/-- The turn of `register_events` for the event `ii`, whose condition is met if it is `ready`. -/
def registerEvent (c : C) (w : W) (args : Args E Q) (ii eventsRegistered : Nat) (event : E) (ready : Bool) :
    System W E Q C :=
  let v := s.work w
  if ready then
    setCall (setWork s w { v with isPolling := false, byEvent := true }) c
      (some ⟨w, .registering args (ii + 1) eventsRegistered⟩)
  else if v.isPolling then
    setCall { s with poller := update s.poller event (some w) } c
      (some ⟨w, .registering args (ii + 1) (eventsRegistered + 1)⟩)
  else setCall s c (some ⟨w, .registering args (ii + 1) eventsRegistered⟩)

/-- `k_work_poll_submit_to_queue` behind `register_events`. -/
def eventsRegistered (c : C) (w : W) (args : Args E Q) (eventsRegistered : Nat) : System W E Q C :=
  let v := s.work w
  if v.isPolling ∧ args.timeout ≠ .noWait then
    endCall (setWork s w { v with timeoutActive := v.timeoutActive || args.timeout == .ticks, triggered := true }) c 0
  else
    let v := if v.isPolling then { v with isPolling := false, pollResult := -EAGAIN, byTimeout := true }
      else { v with pollResult := 0 }
    setCall (setWork s w v) c (some ⟨w, .clearing args eventsRegistered⟩)

def callStep (c : C) (call : Call W E Q) (ready : Bool) (current : Option Q) : System W E Q C :=
  let w := call.work
  match call.phase with
  | .locking =>
    match triggeredWorkCancel s w with
    | none => endCall s c (-EINVAL)
    | some s => setCall s c (some ⟨w, .cancelling (s.work w).events.length none⟩)
  | .cancelling (ii + 1) resubmit =>
    setCall (clearEventRegistration s (s.work w).events ii) c (some ⟨w, .cancelling ii resubmit⟩)
  | .cancelling 0 resubmit =>
    let s := setWork s w { s.work w with workq := none }
    match resubmit with
    | some args => takeOwnership s c w args
    | none => endCall s c 0
  | .saving args =>
    setCall (setWork s w { s.work w with events := args.events, pollResult := -EINPROGRESS }) c
      (some ⟨w, .registering args 0 0⟩)
  | .registering args ii n =>
    match args.events[ii]? with
    | some event => registerEvent s c w args ii n event ready
    | none => eventsRegistered s c w args n
  | .clearing args (ii + 1) =>
    setCall (clearEventRegistration s args.events ii) c (some ⟨w, .clearing args ii⟩)
  | .clearing args 0 => setCall s c (some ⟨w, .submitting args⟩)
  | .submitting args => endCall (kWorkSubmitToQueue s (some args.workQ) w current) c 0

def setThread (q : Q) (v : Handling W) : System W E Q C := { s with thread := update s.thread q v }

/-- `triggered_work_handler` drops the ownership. -/
def dropOwnership (q : Q) (w : W) : System W E Q C :=
  let v := s.work w
  setThread (setWork s w { v with workq := none, dropped := true }) q
    (.dropped ⟨w, v.submission, v.byEvent, v.byTimeout, v.pollResult⟩)

/-- `real_handler` is called, and finds the `poll_result` of now. -/
def callRealHandler (q : Q) (r : Run W) : System W E Q C :=
  let v := s.work r.work
  { setThread (setWork s r.work { v with dropped := false }) q (.handler r.work) with
    runs := { r with pollResult := v.pollResult } :: s.runs }

/-- The next step of `work_queue_main`. -/
def workQueueMain (q : Q) : Except Stop (System W E Q C) :=
  match s.thread q with
  | .idle =>
    match (s.queue q).pending with
    | [] => .error .refused
    | w :: pending =>
      .ok (setThread { setWork s w { s.work w with running := true, queued := false } with
        queue := update s.queue q { s.queue q with pending } } q (.taken w))
  | .taken w =>
    .ok (setThread s q (if (s.work w).triggered then .clearing w (s.work w).events.length else .calling w))
  | .clearing w (ii + 1) => .ok (setThread (clearEventRegistration s (s.work w).events ii) q (.clearing w ii))
  | .clearing w 0 => .ok (setThread s q (.calling w))
  | .calling w => .ok (dropOwnership s q w)
  | .dropped r => .ok (callRealHandler s q r)
  | .handler w => .ok (setThread (setWork s w { s.work w with running := false }) q .idle)

inductive Act (W E Q C : Type) where
  | submit (c : C) (w : W) (args : Args E Q)
  | cancel (c : C) (w : W)
  | callStep (c : C) (ready : Bool) (current : Option Q)
  /-- Something happens to the object of an event that is watched. -/
  | signal (event : E) (current : Option Q)
  /-- A timeout leaves the timeout queue. -/
  | expire (w : W)
  | expirationHandler
  | queueStep (q : Q)
  /-- The queue is started, drained, plugged or unplugged. -/
  | setQueue (q : Q) (started draining plugged : Bool)
  deriving DecidableEq

def step (s : System W E Q C) : Act W E Q C → Except Stop (System W E Q C)
  | .submit c w args => if s.call c = none then .ok (kWorkPollSubmitToQueue s c w args) else .error .refused
  | .cancel c w => if s.call c = none then .ok (kWorkPollCancel s c w) else .error .refused
  | .callStep c ready current =>
    match s.call c with
    | some call => .ok (callStep s c call ready current)
    | none => .error .refused
  | .signal event current =>
    match s.poller event with
    | some w => .ok (signalPollEvent s event w current)
    | none => .error .refused
  | .expire w =>
    if (s.work w).timeoutActive ∧ s.firing = none then
      .ok { setWork s w { s.work w with timeoutActive := false } with firing := some w }
    else .error .refused
  | .expirationHandler =>
    match s.firing with
    | some w => .ok { triggeredWorkExpirationHandler s w with firing := none }
    | none => .error .refused
  | .queueStep q => workQueueMain s q
  | .setQueue q started draining plugged =>
    .ok { s with queue := update s.queue q { s.queue q with started, draining, plugged } }

/-- After `k_work_poll_init`. -/
def initial : System W E Q C where
  work _ := ⟨none, false, false, [], 0, false, false, false, none, 0, false, false, false⟩
  poller _ := none
  queue _ := ⟨[], false, false, false⟩
  thread _ := .idle
  call _ := none
  returned _ := 0
  firing := none
  runs := []
  cancelled := []

structure Sound (s : System W E Q C) : Prop where
  /-- A submission is executed once at most. -/
  once : (s.runs.map fun r => (r.work, r.submission)).Nodup
  /-- It is executed because an event or its timeout triggered it. -/
  triggered : ∀ r ∈ s.runs, r.byEvent = true ∨ r.byTimeout = true
  byEvent : ∀ r ∈ s.runs, r.byEvent = true → r.pollResult = 0
  byTimeout : ∀ r ∈ s.runs, r.byTimeout = true → r.pollResult = -EAGAIN
  cancelled : ∀ r ∈ s.runs, (r.work, r.submission) ∉ s.cancelled

/-- Between the two steps of the expiry of a timeout no event of its work is signalled and no call cancels the work; and
no work is submitted whose ownership is dropped and whose handler is not called yet. -/
def Orderly (s : System W E Q C) : Act W E Q C → Prop
  | .submit _ w args => (s.firing = some w → (s.work w).workq ≠ some args.workQ) ∧ (s.work w).dropped = false
  | .callStep c _ _ => ∀ call ∈ s.call c, call.phase = .locking → s.firing ≠ some call.work
  | .signal event _ => ∀ w ∈ s.poller event, s.firing ≠ some w
  | _ => True

instance Orderly.instDecidable (s : System W E Q C) (a) : Decidable (Orderly s a) := by
  cases a <;> dsimp only [Orderly] <;> infer_instance

end RtosKernel.Zephyr.WorkPoll
