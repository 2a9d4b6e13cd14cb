import Mathlib.Logic.Function.Basic
import RtosKernel.Lib.Runs

/-! # Expiries of waits on several processors (`sched.c`, `timeout.c`)

`sys_clock_announce` takes an expired timeout off its queue under the timeout lock, drops the lock, and
calls `z_thread_timeout`, which takes the scheduler lock. The handler knows the thread, not the wait, and
in between another processor may wake the thread and run it into its next wait.

One step is one holding of a lock, on any processor. A wait that begins is one step: the lock of its
object is held until the switch. Which waiter is woken is left open, so the order of the wait queues is
not modelled. -/

namespace RtosKernel.Zephyr.Expiry
open Lib.Runs

/-- `struct k_thread`, as far as waits and timeouts go. -/
structure Thread (Q : Type) where
  pendedOn : Option Q
  suspended : Bool
  dead : Bool
  aborting : Bool
  /-- Whether its timeout is in the timeout queue. -/
  timeout : Bool
  /-- How many waits it has begun. No code reads this. -/
  wait : Nat

structure System (T Q : Type) where
  thread : T → Thread Q
  waitq : Q → List T
  /-- The threads whose timeout is off the queue and whose handler is still to run. -/
  inFlight : List T
  /-- The waits whose timeout has expired. No code reads this. -/
  expired : List (T × Nat)
  /-- The waits that `z_thread_timeout` has ended. No code reads this. -/
  ended : List (T × Nat)

inductive Stop where
  /-- The event cannot happen in this state. -/
  | refused
  deriving DecidableEq

variable {T Q : Type} [dT : DecidableEq T] [dQ : DecidableEq Q]

section Calls
variable (s : System T Q)

def System.update (t : T) (f : Thread Q → Thread Q) : System T Q :=
  { s with thread := Function.update s.thread t (f (s.thread t)) }

/-- `add_to_waitq_locked`, then `add_thread_timeout`. -/
def pend (t : T) (q : Q) (finite : Bool) : System T Q :=
  { s.update t fun th => { th with pendedOn := some q, timeout := finite, wait := th.wait + 1 } with
    waitq := Function.update s.waitq q (t :: s.waitq q) }

def unpendThreadNoTimeout (t : T) : System T Q :=
  match (s.thread t).pendedOn with
  | none => s
  | some q =>
    { s.update t fun th => { th with pendedOn := none } with waitq := Function.update s.waitq q ((s.waitq q).erase t) }

def zAbortThreadTimeout (t : T) : System T Q := s.update t fun th => { th with timeout := false }

/-- `z_unpend_first_thread`, or `z_sched_wake`, on the thread they find. -/
def wake (t : T) : System T Q := zAbortThreadTimeout (unpendThreadNoTimeout s t) t

def zTickSleep (t : T) : System T Q := s.update t fun th => { th with timeout := true, suspended := true }

def kWakeup (t : T) : System T Q :=
  if (s.thread t).pendedOn ≠ none then s
  else if !(s.thread t).timeout && !(s.thread t).suspended then s
  else s.update t fun th => { th with timeout := false, suspended := false }

def endThread (t : T) : System T Q :=
  if (s.thread t).dead then s
  else zAbortThreadTimeout (unpendThreadNoTimeout (s.update t fun th => { th with dead := true, aborting := false }) t) t

/-- The first step of an expiry: `sys_clock_announce` takes the timeout off the queue. -/
def announce (t : T) : System T Q :=
  { zAbortThreadTimeout s t with
    inFlight := t :: s.inFlight
    expired := if (s.thread t).pendedOn = none then s.expired else (t, (s.thread t).wait) :: s.expired }

/-- The second step: `z_thread_timeout`. -/
def zThreadTimeout (t : T) : System T Q :=
  let s := { s with inFlight := s.inFlight.erase t }
  if (s.thread t).dead || (s.thread t).aborting then s
  else
    let s := if (s.thread t).pendedOn = none then s
      else { unpendThreadNoTimeout s t with ended := (t, (s.thread t).wait) :: s.ended }
    s.update t fun th => { th with suspended := false }

end Calls

inductive Event (T Q : Type) where
  | pend (t : T) (q : Q) (finite : Bool)
  | sleep (t : T)
  | wake (t : T)
  | unpend (t : T)
  | abortTimeout (t : T)
  | wakeup (t : T)
  | suspend (t : T)
  | resume (t : T)
  | markAborting (t : T)
  | abort (t : T)
  | announce (t : T)
  | handle (t : T)

/-- A thread that runs: it waits for nothing, and its timeout is not in the queue. -/
def Running (th : Thread Q) : Prop :=
  th.pendedOn = none ∧ th.suspended = false ∧ th.dead = false ∧ th.timeout = false
  deriving Decidable

def step (s : System T Q) : Event T Q → Except Stop (System T Q)
  | .pend t q finite => if Running (s.thread t) then .ok (pend s t q finite) else .error .refused
  | .sleep t => if Running (s.thread t) then .ok (zTickSleep s t) else .error .refused
  | .wake t => if (s.thread t).pendedOn ≠ none then .ok (wake s t) else .error .refused
  | .unpend t => if (s.thread t).pendedOn ≠ none then .ok (unpendThreadNoTimeout s t) else .error .refused
  | .abortTimeout t => .ok (zAbortThreadTimeout s t)
  | .wakeup t => .ok (kWakeup s t)
  | .suspend t => .ok (s.update t fun th => { th with suspended := true })
  | .resume t => .ok (s.update t fun th => { th with suspended := false })
  | .markAborting t => .ok (s.update t fun th => { th with aborting := true })
  | .abort t => .ok (endThread s t)
  | .announce t => if (s.thread t).timeout then .ok (announce s t) else .error .refused
  | .handle t => if t ∈ s.inFlight then .ok (zThreadTimeout s t) else .error .refused

/-! ## Waits and their expiries -/

variable {s s' : System T Q} {t u : T} {q : Q}

/-- Every wait that the handler ended had expired, and so has every wait that a handler still to run would end. -/
structure Timely (s : System T Q) : Prop where
  ended : ∀ x ∈ s.ended, x ∈ s.expired
  pending : ∀ t ∈ s.inFlight, (s.thread t).pendedOn ≠ none → (t, (s.thread t).wait) ∈ s.expired

/-- A thread begins a wait only while no expiry of its timeout is to be handled. -/
def PendOk (s : System T Q) : Event T Q → Prop
  | .pend t _ _ => t ∉ s.inFlight
  | _ => True

/-- A thread's wait may end, and nothing else changes for waits. -/
structure Quiet (s s' : System T Q) : Prop where
  inFlight : ∀ t ∈ s'.inFlight, t ∈ s.inFlight
  expired : s'.expired = s.expired
  ended : s'.ended = s.ended
  wait : ∀ t, (s'.thread t).pendedOn ≠ none → (s.thread t).pendedOn ≠ none ∧ (s'.thread t).wait = (s.thread t).wait

omit dT dQ in
theorem Timely.quiet (h : Timely s) (hq : Quiet s s') : Timely s' := by
  refine ⟨fun x hx => ?_, fun t ht hp => ?_⟩
  · rw [hq.expired]
    exact h.ended x (hq.ended ▸ hx)
  · obtain ⟨hp', hw⟩ := hq.wait t hp
    rw [hq.expired, hw]
    exact h.pending t (hq.inFlight t ht) hp'

omit dT dQ in
theorem Quiet.trans {s'' : System T Q} (h : Quiet s s') (h' : Quiet s' s'') : Quiet s s'' where
  inFlight t ht := h.inFlight t (h'.inFlight t ht)
  expired := h'.expired.trans h.expired
  ended := h'.ended.trans h.ended
  wait t hp :=
    have hw := h'.wait t hp
    ⟨(h.wait t hw.1).1, hw.2.trans (h.wait t hw.1).2⟩

omit dQ in
theorem update_thread {f : Thread Q → Thread Q} :
    (s.update t f).thread u = if u = t then f (s.thread t) else s.thread u := Function.update_apply ..

omit dQ in
theorem Quiet.update {f : Thread Q → Thread Q} (hp : (f (s.thread t)).pendedOn ≠ none → (s.thread t).pendedOn ≠ none)
    (hw : (f (s.thread t)).wait = (s.thread t).wait) : Quiet s (s.update t f) := by
  refine ⟨fun _ ht => ht, rfl, rfl, fun u hu => ?_⟩
  rw [update_thread] at hu ⊢
  split
  · next heq =>
    rw [if_pos heq] at hu
    rw [heq]
    exact ⟨hp hu, hw⟩
  · next hne =>
    rw [if_neg hne] at hu
    exact ⟨hu, rfl⟩

theorem Quiet.unpend : Quiet s (unpendThreadNoTimeout s t) := by
  rw [unpendThreadNoTimeout]
  split
  · exact ⟨fun _ ht => ht, rfl, rfl, fun _ hp => ⟨hp, rfl⟩⟩
  · have hu : Quiet s (s.update t fun th => { th with pendedOn := none }) := .update (fun hp => absurd rfl hp) rfl
    exact ⟨hu.inFlight, hu.expired, hu.ended, hu.wait⟩

omit dQ in
theorem Quiet.abortTimeout : Quiet s (zAbortThreadTimeout s t) := .update id rfl

omit dQ in
theorem Quiet.kWakeup : Quiet s (kWakeup s t) := by
  have hsame : Quiet s s := ⟨fun _ ht => ht, rfl, rfl, fun _ hp => ⟨hp, rfl⟩⟩
  rw [Expiry.kWakeup]
  split
  · exact hsame
  · split
    · exact hsame
    · exact .update id rfl

theorem Quiet.endThread : Quiet s (endThread s t) := by
  rw [Expiry.endThread]
  split
  · exact ⟨fun _ ht => ht, rfl, rfl, fun _ hp => ⟨hp, rfl⟩⟩
  · exact ((Quiet.update (t := t) (f := fun th => { th with dead := true, aborting := false }) id rfl).trans .unpend).trans
      .abortTimeout

theorem Timely.pend (h : Timely s) (ht : t ∉ s.inFlight) {finite : Bool} : Timely (pend s t q finite) := by
  refine ⟨h.ended, fun u hu hp => ?_⟩
  have hne : u ≠ t := fun heq => ht (heq ▸ hu)
  have hother : (Expiry.pend s t q finite).thread u = s.thread u := Function.update_of_ne hne _ _
  rw [hother] at hp ⊢
  exact h.pending u hu hp

omit dQ in
theorem Timely.announce (h : Timely s) : Timely (announce s t) := by
  have hrec : ∀ u, ((Expiry.announce s t).thread u).pendedOn = (s.thread u).pendedOn ∧
      ((Expiry.announce s t).thread u).wait = (s.thread u).wait := by
    intro u
    show ((zAbortThreadTimeout s t).thread u).pendedOn = _ ∧ ((zAbortThreadTimeout s t).thread u).wait = _
    rw [zAbortThreadTimeout, update_thread]
    split
    · next heq => exact heq ▸ ⟨rfl, rfl⟩
    · exact ⟨rfl, rfl⟩
  have hexp : ∀ x ∈ s.expired, x ∈ (Expiry.announce s t).expired := by
    intro x hx
    show x ∈ ite _ _ _
    split
    · exact hx
    · exact List.mem_cons_of_mem _ hx
  refine ⟨fun x hx => hexp x (h.ended x hx), fun u hu hp => ?_⟩
  rw [(hrec u).1] at hp
  rw [(hrec u).2]
  rcases List.mem_cons.mp hu with rfl | hu
  · show _ ∈ ite _ _ _
    rw [if_neg hp]
    exact List.mem_cons_self
  · exact hexp _ (h.pending u hu hp)

theorem Timely.zThreadTimeout (h : Timely s) (ht : t ∈ s.inFlight) : Timely (zThreadTimeout s t) := by
  have he : Quiet s { s with inFlight := s.inFlight.erase t } :=
    ⟨fun _ hu => List.mem_of_mem_erase hu, rfl, rfl, fun _ hp => ⟨hp, rfl⟩⟩
  rw [Expiry.zThreadTimeout]
  split
  · exact h.quiet he
  · split
    · exact h.quiet (he.trans (.update id rfl))
    · next hp =>
      have hu := h.quiet (he.trans (Quiet.unpend (t := t)))
      refine Timely.quiet (s := { unpendThreadNoTimeout { s with inFlight := s.inFlight.erase t } t with
        ended := (t, (s.thread t).wait) :: s.ended }) ⟨fun x hx => ?_, hu.pending⟩ (Quiet.update id rfl)
      rcases List.mem_cons.mp hx with rfl | hx
      · rw [(he.trans (Quiet.unpend (t := t))).expired]
        exact h.pending t ht hp
      · exact hu.ended x (by rwa [(he.trans (Quiet.unpend (t := t))).ended])

theorem Timely.step {e : Event T Q} (h : Timely s) (hok : PendOk s e) (hs : step s e = .ok s') : Timely s' := by
  cases e with
  | pend t q finite =>
    rw [Expiry.step] at hs
    split at hs <;> cases hs
    exact h.pend hok
  | sleep t =>
    rw [Expiry.step] at hs
    split at hs <;> cases hs
    exact h.quiet (.update id rfl)
  | wake t =>
    rw [Expiry.step] at hs
    split at hs <;> cases hs
    exact h.quiet (Quiet.unpend.trans .abortTimeout)
  | unpend t =>
    rw [Expiry.step] at hs
    split at hs <;> cases hs
    exact h.quiet .unpend
  | abortTimeout t =>
    cases hs
    exact h.quiet .abortTimeout
  | wakeup t =>
    cases hs
    exact h.quiet .kWakeup
  | suspend t =>
    cases hs
    exact h.quiet (.update id rfl)
  | resume t =>
    cases hs
    exact h.quiet (.update id rfl)
  | markAborting t =>
    cases hs
    exact h.quiet (.update id rfl)
  | abort t =>
    cases hs
    exact h.quiet .endThread
  | announce t =>
    rw [Expiry.step] at hs
    split at hs <;> cases hs
    exact h.announce
  | handle t =>
    rw [Expiry.step] at hs
    split at hs
    · next ht =>
      cases hs
      exact h.zThreadTimeout ht
    · cases hs

/-- As the processors start: no thread waits and no timeout is running. -/
def start (suspended : T → Bool) : System T Q where
  thread t := { pendedOn := none, suspended := suspended t, dead := false, aborting := false, timeout := false, wait := 0 }
  waitq _ := []
  inFlight := []
  expired := []
  ended := []

/-- In every run in which no thread begins a wait while an expiry of its timeout is still to be handled,
`z_thread_timeout` ends only waits whose own timeout has expired. -/
theorem timeout_ends_own_wait {suspended : T → Bool} {es : List (Event T Q)} (hes : Along step PendOk (start suspended) es)
    (hrun : run step (start suspended) es = .ok s) : ∀ x ∈ s.ended, x ∈ s.expired :=
  (run_inv (fun _ _ _ h hok hs => h.step hok hs)
    ⟨fun _ hx => absurd hx List.not_mem_nil, fun _ ht => absurd ht List.not_mem_nil⟩ hes hrun : Timely s).ended

instance PendOk.instDecidable (s : System T Q) (e) : Decidable (PendOk s e) := by
  cases e <;> dsimp only [PendOk] <;> infer_instance

/-- A wait is woken after its timeout was announced; the next one begins when the handler has run, and expires. -/
theorem timeout_ends_own_wait_two : ∃ s, run step (start fun _ : Fin 2 => false)
      [.pend 0 'a' true, .pend 1 'a' false, .announce 0, .wake 0, .handle 0, .pend 0 'b' true, .announce 0, .handle 0] =
        .ok s ∧ ∀ x ∈ s.ended, x ∈ s.expired := by
  refine ⟨_, and_then rfl fun hrun => timeout_ends_own_wait ?_ hrun⟩
  decide +kernel

/-- The timeout of a wait is announced, the thread is woken and waits again, and the handler ends that wait, though
its timeout has only been started. -/
theorem stale_timeout_ends_wait : ∃ s, run step (start fun _ : Fin 2 => false)
      [.pend 0 'a' true, .announce 0, .wake 0, .pend 0 'a' true, .handle 0] = .ok s ∧
    ¬∀ x ∈ s.ended, x ∈ s.expired :=
  ⟨_, rfl, by decide⟩

end RtosKernel.Zephyr.Expiry
