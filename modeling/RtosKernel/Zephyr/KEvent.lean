import Mathlib.Data.Fintype.Basic
import Mathlib.Logic.Function.Basic
import RtosKernel.Lib.Runs
import RtosKernel.Zephyr.WaitQ

/-! # Event objects (`events.c`)

A post finds its threads under the lock of the event and then takes the scheduler's lock twice for each of them.
Other processors run between these steps: the handler of a timeout takes no lock of an event. -/
namespace RtosKernel.Zephyr.KEvent
open Zephyr.WaitQ (zPriqDumbAdd)

def EAGAIN : Int := 11

/-- `are_wait_conditions_met`, with `K_EVENT_WAIT_ALL` or without. -/
def areWaitConditionsMet (desired current : BitVec 32) (waitAll : Bool) : Bool :=
  let matched := current &&& desired
  if waitAll then matched == desired else matched != 0

/-- `K_NO_WAIT`, some ticks, or `K_FOREVER`. -/
inductive Timeout where
  | noWait
  | ticks
  | forever
  deriving DecidableEq

/-- What ended a call of `k_event_wait`. -/
inductive Cause where
  | atOnce
  | post (posted : BitVec 32)
  | timeout
  deriving DecidableEq

/-- The part of `struct k_thread` that a wait for an event uses, with the call that the thread is in. -/
structure Thread (E : Type) where
  /-- What the thread wants, and after a post what it gets. -/
  events : BitVec 32
  /-- `event_options` -/
  waitAll : Bool
  pendedOn : Option E
  /-- What `z_swap` is to return. -/
  retval : Int
  timeoutActive : Bool
  queued : Bool
  /-- The arguments `event` and `events` of the call that pends. -/
  call : Option (E × BitVec 32)
  /-- What ended the wait. No code reads this. -/
  cause : Cause
  deriving DecidableEq

/-- What `k_event_post_internal` does next with its variable `thread`. -/
inductive Phase where
  | unpend
  /-- the rest of `z_unpend_thread`, and the result of the wait -/
  | serve
  | ready
  /-- `thread->next_event_link` -/
  | advance
  deriving DecidableEq

/-- `k_event_post_internal`, with the lock of its event. -/
structure Post (T : Type) where
  posted : BitVec 32
  phase : Phase
  thread : T
  /-- The threads behind `thread` that were collected. No code reads this. -/
  rest : List T
  deriving DecidableEq

/-- What a call of `k_event_wait` returned. -/
structure Return (T E : Type) where
  thread : T
  event : E
  events : BitVec 32
  cause : Cause
  value : BitVec 32
  deriving DecidableEq

structure System (T E : Type) where
  prio : T → Int
  events : E → BitVec 32
  waitq : E → List T
  /-- The post that holds the lock. Every other section under it is one step. -/
  post : E → Option (Post T)
  thread : T → Thread E
  nextEventLink : T → Option T
  /-- The thread whose timeout has left the timeout queue, before `z_thread_timeout`. -/
  firing : Option T
  returns : List (Return T E)

inductive Stop where
  /-- The step cannot happen in this state. -/
  | refused
  /-- `pended_on_thread` has no wait queue. -/
  | nullWaitQ
  deriving DecidableEq

variable {T E : Type} [DecidableEq T] [DecidableEq E] (s : System T E)

def setThread (t : T) (v : Thread E) : System T E := { s with thread := Function.update s.thread t v }

def setPost (e : E) (p : Option (Post T)) : System T E := { s with post := Function.update s.post e p }

/-! ## The scheduler -/

/-- `unpend_thread_no_timeout`, for a thread that waits in `w`. -/
def unpendThreadNoTimeout (t : T) (w : E) (cause : Cause) : System T E :=
  { setThread s t { s.thread t with pendedOn := none, cause } with
    waitq := Function.update s.waitq w ((s.waitq w).erase t) }

def zReadyThread (t : T) : System T E :=
  let thread := s.thread t
  if !thread.queued && thread.pendedOn.isNone && !thread.timeoutActive then
    setThread s t { thread with queued := true }
  else s

def zThreadTimeout (t : T) : System T E :=
  zReadyThread
    (match (s.thread t).pendedOn with
    | some w => unpendThreadNoTimeout s t w .timeout
    | none => s) t

/-! ## Events -/

def returnAtOnce (t : T) (e : E) (events value : BitVec 32) : System T E :=
  { s with returns := ⟨t, e, events, .atOnce, value⟩ :: s.returns }

/-- `z_pend_curr`; what it returns is `-EAGAIN` unless somebody says otherwise. -/
def zPendCurr (t : T) (e : E) (events : BitVec 32) (waitAll : Bool) (timeout : Timeout) : System T E :=
  { setThread s t
      { s.thread t with
        events, waitAll, pendedOn := some e, retval := -EAGAIN, timeoutActive := decide (timeout ≠ .forever),
        queued := false, call := some (e, events), cause := .atOnce } with
    waitq := Function.update s.waitq e (zPriqDumbAdd s.prio t (s.waitq e)) }

/-- `k_event_wait_internal`, up to where it waits. -/
def kEventWaitInternal (t : T) (e : E) (events : BitVec 32) (waitAll reset : Bool) (timeout : Timeout) : System T E :=
  if events = 0 then returnAtOnce s t e events 0
  else
    let s := if reset then { s with events := Function.update s.events e 0 } else s
    if areWaitConditionsMet events (s.events e) waitAll then returnAtOnce s t e events (s.events e &&& events)
    else if timeout = .noWait then returnAtOnce s t e events (0 &&& events)
    else zPendCurr s t e events waitAll timeout

/-- The rest of `k_event_wait_internal`, behind `z_pend_curr`. -/
def kEventWaitWoken (t : T) (e : E) (events : BitVec 32) : System T E :=
  let rv := if (s.thread t).retval = 0 then (s.thread t).events else 0
  { setThread s t { s.thread t with call := none } with
    returns := ⟨t, e, events, (s.thread t).cause, rv &&& events⟩ :: s.returns }

/-- The wait of a thread is over when its event has these events. -/
def Met (t : T) (events : BitVec 32) : Prop :=
  areWaitConditionsMet (s.thread t).events events (s.thread t).waitAll = true
  deriving Decidable

/-- The walk of `k_event_post_internal` over the wait queue, which links the threads behind `head`. -/
def collect (events : BitVec 32) : List T → Option T → (T → Option T) → Option T × (T → Option T)
  | [], head, link => (head, link)
  | t :: ts, head, link =>
    if Met s t events then collect events ts (some t) (Function.update link t head)
    else collect events ts head link

/-- The threads that the walk finds, the last one first. -/
def collected (e : E) (events : BitVec 32) : List T := ((s.waitq e).filter fun t => Met s t events).reverse

/-- The events that `k_event_post_internal` stores. -/
def postedEvents (e : E) (events : BitVec 32) (accumulate : Bool) : BitVec 32 :=
  if accumulate then events ||| s.events e else events

/-- `k_event_post_internal`, up to the first thread to unpend. -/
def kEventPostInternal (e : E) (events : BitVec 32) (accumulate : Bool) : System T E :=
  let events := postedEvents s e events accumulate
  let (head, nextEventLink) := collect s events (s.waitq e) none s.nextEventLink
  { s with
    events := Function.update s.events e events
    nextEventLink
    post := Function.update s.post e (head.map fun thread =>
      ⟨events, .unpend, thread, (collected s e events).tail⟩) }

/-- The next step of the second loop of `k_event_post_internal`. The last one lets the lock go. -/
def postStep (e : E) (p : Post T) : Except Stop (System T E) :=
  match p.phase with
  | .unpend =>
    match (s.thread p.thread).pendedOn with
    | none => .error .nullWaitQ
    | some w =>
      .ok (setPost (unpendThreadNoTimeout s p.thread w (.post p.posted)) e (some { p with phase := .serve }))
  | .serve =>
    .ok (setPost
      (setThread s p.thread { s.thread p.thread with timeoutActive := false, retval := 0, events := p.posted }) e
      (some { p with phase := .ready }))
  | .ready => .ok (setPost (zReadyThread s p.thread) e (some { p with phase := .advance }))
  | .advance =>
    .ok (setPost s e ((s.nextEventLink p.thread).map fun thread =>
      ⟨p.posted, .unpend, thread, p.rest.tail⟩))

inductive Act (T E : Type) where
  | wait (t : T) (e : E) (events : BitVec 32) (waitAll reset : Bool) (timeout : Timeout)
  /-- A thread runs again after its wait. -/
  | woken (t : T)
  /-- `k_event_post`, which accumulates, or `k_event_set`. -/
  | post (e : E) (events : BitVec 32) (accumulate : Bool)
  | postStep (e : E)
  /-- A timeout leaves the timeout queue. -/
  | expire (t : T)
  | threadTimeout
  deriving DecidableEq

def step (s : System T E) : Act T E → Except Stop (System T E)
  | .wait t e events waitAll reset timeout =>
    if (s.thread t).call = none ∧ (s.thread t).queued ∧ (events = 0 ∨ s.post e = none) then
      .ok (kEventWaitInternal s t e events waitAll reset timeout)
    else .error .refused
  | .woken t =>
    match (s.thread t).call with
    | some (e, events) =>
      if (s.thread t).queued then .ok (kEventWaitWoken s t e events) else .error .refused
    | none => .error .refused
  | .post e events accumulate =>
    if s.post e = none then .ok (kEventPostInternal s e events accumulate) else .error .refused
  | .postStep e =>
    match s.post e with
    | some p => postStep s e p
    | none => .error .refused
  | .expire t =>
    if (s.thread t).timeoutActive ∧ s.firing = none then
      .ok { setThread s t { s.thread t with timeoutActive := false } with firing := some t }
    else .error .refused
  | .threadTimeout =>
    match s.firing with
    | some t => .ok { zThreadTimeout s t with firing := none }
    | none => .error .refused

def initial (prio : T → Int) (nextEventLink : T → Option T) : System T E where
  prio := prio
  events _ := 0
  waitq _ := []
  post _ := none
  thread _ := ⟨0, false, none, 0, false, true, none, .atOnce⟩
  nextEventLink := nextEventLink
  firing := none
  returns := []

structure Sound (s : System T E) : Prop where
  /-- A post unpends only threads that wait for its event. -/
  unpends : ∀ e p, s.post e = some p → p.phase = .unpend →
    (s.thread p.thread).pendedOn = some e ∧ p.thread ∈ s.waitq e
  /-- When no post is under way, nobody waits for what is there. -/
  woken : ∀ e t, s.post e = none → (s.thread t).pendedOn = some e → ¬ Met s t (s.events e)
  posted : ∀ r ∈ s.returns, ∀ events, r.cause = .post events → r.value = events &&& r.events
  timedOut : ∀ r ∈ s.returns, r.cause = .timeout → r.value = 0

/-- The threads that a post has collected and given no result yet. -/
def Post.unserved (p : Post T) : List T :=
  if p.phase = .unpend ∨ p.phase = .serve then p.thread :: p.rest else p.rest

/-- The handler of a timeout does not run for a thread that a post has collected and not served, and no post
collects one whose link another post has still to read. -/
def Orderly (s : System T E) : Act T E → Prop
  | .threadTimeout => ∀ t ∈ s.firing, ∀ e, ∀ p ∈ s.post e, t ∉ p.unserved
  | .post e events accumulate =>
    ∀ t ∈ collected s e (postedEvents s e events accumulate), ∀ e', ∀ p ∈ s.post e', p.thread ≠ t
  | _ => True

instance Orderly.instDecidable [Fintype E] (s : System T E) (a) : Decidable (Orderly s a) := by
  cases a <;> dsimp only [Orderly] <;> infer_instance

end RtosKernel.Zephyr.KEvent
