import RtosKernel.Zephyr.SchedMembership

/-! # Waits with a timeout

A timeout expires in two steps: the announcement takes it off the timeout queue, and `z_thread_timeout` runs
later, with anything in between. Suspending a waiting thread cancels its timeout; the thread stays in the wait
queue, and `k_thread_resume` only clears the `_THREAD_SUSPENDED` bit. -/

namespace RtosKernel.Zephyr.Sched
open Lib.Runs

variable {T O : Type} [dT : DecidableEq T] [dO : DecidableEq O] {cfg : Config T} {k k' : Kernel T O} {t u : T}
  {f : Thread T O → Thread T O} {q : WaitQ T O} {b : Bool}

/-- The kernel, and how many expiries of a thread's timeout are off the queue and not handled. -/
structure Clocked (T O : Type) where
  kernel : Kernel T O
  inFlight : T → Nat

/-- An operation, or one of the two steps of an expiry. -/
inductive Tick (T O : Type) where
  | op (e : Event T O)
  | expire (t : T)
  | handle (t : T)

/-- The first step is that of `sys_clock_announce`, the second the handler. -/
def tick (cfg : Config T) (s : Clocked T O) : Tick T O → Except Stop (Clocked T O)
  | .op e => (step cfg s.kernel e).map fun k => { s with kernel := k }
  | .expire t =>
    if (s.kernel.thread t).timeout then
      .ok { kernel := zAbortThreadTimeout s.kernel t, inFlight := Function.update s.inFlight t (s.inFlight t + 1) }
    else .error .refused
  | .handle t =>
    if 0 < s.inFlight t then
      .ok { kernel := zThreadTimeout cfg s.kernel t, inFlight := Function.update s.inFlight t (s.inFlight t - 1) }
    else .error .refused

/-- A thread waits, on a wait that was started with a timeout. -/
def Timed (x : Thread T O) : Prop := x.state.pending = true ∧ x.finite = true
  deriving Decidable

/-- The records of waiting threads and the wait queues agree. -/
structure Pended (k : Kernel T O) : Prop where
  waitq_nodup : ∀ q, (k.waitq q).Nodup
  pendedOn : ∀ q t, t ∈ k.waitq q → (k.thread t).pendedOn = some q
  pending : ∀ t, (k.thread t).pendedOn ≠ none → (k.thread t).state.pending = true
  timed : ∀ t, Timed (k.thread t) → (k.thread t).pendedOn ≠ none
  dead : ∀ t, (k.thread t).state.dead = true → (k.thread t).pendedOn = none

/-- A timed wait that is not suspended has its timeout, or an expiry that is still to be handled. -/
def Armed (n : Nat) (x : Thread T O) : Prop := Timed x → x.state.suspended = false → x.timeout = true ∨ 0 < n

structure Live (n : T → Nat) (k : Kernel T O) : Prop where
  pended : Pended k
  armed : ∀ t, Armed (n t) (k.thread t)

/-! ## What the operations are made of -/

/-- All a wait depends on is the same. -/
structure SameWait (x y : Thread T O) : Prop where
  pending : x.state.pending = y.state.pending
  suspended : x.state.suspended = y.state.suspended
  dead : x.state.dead = y.state.dead
  pendedOn : x.pendedOn = y.pendedOn
  finite : x.finite = y.finite
  timeout : x.timeout = y.timeout

omit dT dO in
theorem SameWait.refl (x : Thread T O) : SameWait x x := ⟨rfl, rfl, rfl, rfl, rfl, rfl⟩

omit dT dO in
theorem SameWait.timed {x y : Thread T O} (h : SameWait x y) : Timed x ↔ Timed y := by
  rw [Timed, Timed, h.pending, h.finite]

variable {n : T → Nat}

omit dT dO in
theorem Live.congr (h : Live n k) (hw : k'.waitq = k.waitq) (ht : ∀ t, SameWait (k'.thread t) (k.thread t)) : Live n k' := by
  refine ⟨⟨fun q => ?_, fun q t hm => ?_, fun t hp => ?_, fun t hp => ?_, fun t hd => ?_⟩, fun t hp hs => ?_⟩
  · rw [hw]
    exact h.pended.waitq_nodup q
  · rw [(ht t).pendedOn]
    exact h.pended.pendedOn q t (hw ▸ hm)
  · rw [(ht t).pendedOn] at hp
    rw [(ht t).pending]
    exact h.pended.pending t hp
  · rw [(ht t).pendedOn]
    exact h.pended.timed t ((ht t).timed.mp hp)
  · rw [(ht t).pendedOn]
    exact h.pended.dead t ((ht t).dead ▸ hd)
  · rw [(ht t).timeout]
    exact h.armed t ((ht t).timed.mp hp) ((ht t).suspended ▸ hs)

omit dO in
theorem Live.change (h : Live n k) (hu : ∀ u, u ≠ t → k'.thread u = k.thread u) (hwn : ∀ q, (k'.waitq q).Nodup)
    (hw : ∀ q u, u ≠ t → u ∈ k'.waitq q → u ∈ k.waitq q) (hwt : ∀ q, t ∈ k'.waitq q → (k'.thread t).pendedOn = some q)
    (hp : (k'.thread t).pendedOn ≠ none → (k'.thread t).state.pending = true)
    (ht : Timed (k'.thread t) → (k'.thread t).pendedOn ≠ none)
    (hd : (k'.thread t).state.dead = true → (k'.thread t).pendedOn = none) (ha : Armed (n t) (k'.thread t)) : Live n k' := by
  refine ⟨⟨hwn, fun q u hm => ?_, fun u => ?_, fun u => ?_, fun u => ?_⟩, fun u => ?_⟩
  · by_cases heq : u = t
    · exact heq ▸ hwt q (heq ▸ hm)
    · rw [hu u heq]
      exact h.pended.pendedOn q u (hw q u heq hm)
  · by_cases heq : u = t
    · exact heq ▸ hp
    · rw [hu u heq]
      exact h.pended.pending u
  · by_cases heq : u = t
    · exact heq ▸ ht
    · rw [hu u heq]
      exact h.pended.timed u
  · by_cases heq : u = t
    · exact heq ▸ hd
    · rw [hu u heq]
      exact h.pended.dead u
  · by_cases heq : u = t
    · exact heq ▸ ha
    · rw [hu u heq]
      exact h.armed u

omit dO in
theorem Live.update (h : Live n k) (hq : (f (k.thread t)).pendedOn = (k.thread t).pendedOn)
    (hp : (k.thread t).pendedOn ≠ none → (f (k.thread t)).state.pending = true)
    (ht : Timed (f (k.thread t)) → (k.thread t).pendedOn ≠ none)
    (hd : (f (k.thread t)).state.dead = true → (k.thread t).pendedOn = none) (ha : Armed (n t) (f (k.thread t))) :
    Live n (k.update t f) := by
  have hself : (k.update t f).thread t = f (k.thread t) := by rw [update_thread, if_pos rfl]
  refine h.change (fun u hu => by rw [update_thread, if_neg hu]) h.pended.waitq_nodup (fun q u _ hm => hm)
    (fun q hm => ?_) ?_ ?_ ?_ ?_
  · rw [hself, hq]
    exact h.pended.pendedOn q t hm
  · rw [hself, hq]
    exact hp
  · rw [hself, hq]
    exact ht
  · rw [hself, hq]
    exact hd
  · rw [hself]
    exact ha

theorem Live.unpend (h : Live n k) (hq : (k.thread t).pendedOn = some q) : Live n (unpendThreadNoTimeout k t) := by
  have hself : (unpendThreadNoTimeout k t).thread t = { k.thread t with state.pending := false, pendedOn := none } := by
    rw [unpend_thread hq, if_pos rfl]
  refine h.change (fun u hu => by rw [unpend_thread hq, if_neg hu]) (fun q' => ?_) (fun q' u hu hm => ?_) (fun q' hm => ?_)
    ?_ ?_ ?_ ?_
  · rw [unpend_waitq hq]
    split
    · exact (h.pended.waitq_nodup q).erase t
    · exact h.pended.waitq_nodup q'
  · rw [unpend_waitq hq] at hm
    split at hm
    · next heq => exact heq ▸ List.mem_of_mem_erase hm
    · exact hm
  · rw [unpend_waitq hq] at hm
    split at hm
    · exact absurd hm (h.pended.waitq_nodup q).not_mem_erase
    · next hne =>
      have := h.pended.pendedOn q' t hm
      rw [hq] at this
      exact absurd (Option.some.inj this).symm hne
  · rw [hself]
    exact fun hp => absurd rfl hp
  · rw [hself]
    exact fun hp => Bool.noConfusion hp.1
  · rw [hself]
    exact fun _ => rfl
  · rw [hself]
    exact fun hp => Bool.noConfusion hp.1

/-! ## The operations -/

section
omit dO

theorem sameWait_queueThread : SameWait ((queueThread cfg k t).thread u) (k.thread u) := by
  rw [queueThread_thread]
  split
  · next heq => exact heq ▸ ⟨rfl, rfl, rfl, rfl, rfl, rfl⟩
  · exact .refl _

theorem sameWait_dequeueThread : SameWait ((dequeueThread k t).thread u) (k.thread u) := by
  rw [dequeueThread_thread]
  split
  · next heq => exact heq ▸ ⟨rfl, rfl, rfl, rfl, rfl, rfl⟩
  · exact .refl _

theorem sameWait_dequeueIfQueued : SameWait ((dequeueIfQueued k t).thread u) (k.thread u) := by
  rw [dequeueIfQueued_thread]
  split
  · next heq => exact heq ▸ ⟨rfl, rfl, rfl, rfl, rfl, rfl⟩
  · exact .refl _

end

section
variable (h : Live n k)
include h

omit dT dO in
theorem Live.updateCache : Live n (updateCache cfg k b) := h.congr rfl fun _ => .refl _

omit dT dO in
theorem Live.zSwap : Live n (zSwap k) := h.congr rfl fun _ => .refl _

section
omit dO

theorem Live.queueThread : Live n (queueThread cfg k t) := h.congr rfl fun _ => sameWait_queueThread

theorem Live.dequeueThread : Live n (dequeueThread k t) := h.congr rfl fun _ => sameWait_dequeueThread

theorem Live.dequeueIfQueued : Live n (dequeueIfQueued k t) :=
  h.congr dequeueIfQueued_waitq fun _ => sameWait_dequeueIfQueued

theorem Live.readyThread : Live n (readyThread cfg k t) := by
  rw [Sched.readyThread]
  split
  · exact h.queueThread.updateCache
  · exact h

theorem Live.updateSame (hs : SameWait (f (k.thread t)) (k.thread t)) : Live n (k.update t f) := by
  refine h.congr rfl fun u => ?_
  rw [update_thread]
  split
  · next heq => exact heq ▸ hs
  · exact .refl _

theorem Live.abortTimeout (ht : Timed (k.thread t) → (k.thread t).state.suspended = false → 0 < n t) :
    Live n (zAbortThreadTimeout k t) :=
  h.update rfl (h.pended.pending t) (h.pended.timed t) (h.pended.dead t) fun hp hs => Or.inr (ht hp hs)

end

theorem Live.unpendAndReady (hq : (k.thread t).pendedOn = some q) : Live n (unpendAndReady cfg k t) := by
  refine ((h.unpend hq).abortTimeout fun hp => ?_).readyThread
  rw [unpend_thread hq, if_pos rfl] at hp
  exact Bool.noConfusion hp.1

theorem Live.zSchedWake : Live n (zSchedWake cfg k q) := by
  rw [Sched.zSchedWake]
  split
  · exact h
  · next t hh => exact h.unpendAndReady (h.pended.pendedOn q t (List.mem_of_mem_head? hh))

theorem Live.unpendLoop (m : Nat) : Live n (unpendLoop cfg q m k) := by
  induction m generalizing k with
  | zero => exact h
  | succ m ih =>
    rw [Sched.unpendLoop]
    split
    · exact h
    · next t hh => exact ih (h.unpendAndReady (h.pended.pendedOn q t (List.mem_of_mem_head? hh)))

omit dO in
theorem Live.zSchedStart : Live n (zSchedStart cfg k t) := by
  rw [Sched.zSchedStart]
  split
  · exact (h.updateSame ⟨rfl, rfl, rfl, rfl, rfl, rfl⟩).readyThread
  · exact h

omit dO in
theorem Live.kThreadSuspend : Live n (kThreadSuspend cfg k t) := by
  have hone : ((Sched.dequeueIfQueued (zAbortThreadTimeout k t) t).update t
      fun th => { th with state.suspended := true }).waitq = k.waitq := dequeueIfQueued_waitq
  have hthread : ∀ u, ((Sched.dequeueIfQueued (zAbortThreadTimeout k t) t).update t
      fun th => { th with state.suspended := true }).thread u =
      if u = t then { k.thread t with state.queued := false, state.suspended := true, timeout := false }
      else k.thread u := by
    intro u
    rw [update_thread, dequeueIfQueued_thread, dequeueIfQueued_thread, zAbortThreadTimeout, update_thread, update_thread]
    split
    · simp
    · rfl
  refine Live.updateCache (h.change (fun u hu => by rw [hthread, if_neg hu]) (fun q => ?_) (fun q u _ hm => ?_)
    (fun q hm => ?_) ?_ ?_ ?_ ?_)
  · rw [hone]
    exact h.pended.waitq_nodup q
  · exact hone ▸ hm
  · rw [hthread, if_pos rfl]
    exact h.pended.pendedOn q t (hone ▸ hm)
  all_goals rw [hthread, if_pos rfl]
  · exact h.pended.pending t
  · exact h.pended.timed t
  · exact h.pended.dead t
  · exact fun _ hs => Bool.noConfusion hs

end

/-- A thread that waits with a timeout is resumed only with that timeout, or an expiry to be handled. -/
def ResumeOk (n : T → Nat) (k : Kernel T O) (t : T) : Prop :=
  (k.thread t).state.suspended = true → Timed (k.thread t) → (k.thread t).timeout = true ∨ 0 < n t

omit dO in
theorem Live.kThreadResume (h : Live n k) (hr : ResumeOk n k t) : Live n (kThreadResume cfg k t) := by
  rw [Sched.kThreadResume]
  split
  · next hs =>
    exact (h.update rfl (h.pended.pending t) (h.pended.timed t) (h.pended.dead t) fun hp _ => hr hs hp).readyThread
  · exact h

omit dO in
theorem Live.kWakeup (h : Live n k) : Live n (kWakeup cfg k t) := by
  rw [Sched.kWakeup]
  split
  · exact h
  · next hp =>
    split
    · exact h
    · have hno : ¬Timed (k.thread t) := fun ht => hp ht.1
      have ha := h.abortTimeout (t := t) fun ht => absurd ht hno
      refine (ha.update rfl (ha.pended.pending t) (ha.pended.timed t) (ha.pended.dead t) fun ht => ?_).readyThread
      rw [zAbortThreadTimeout, update_thread, if_pos rfl] at ht
      exact absurd ht hno

theorem unpendIf_not_timed (h : Pended k) :
    ¬Timed ((if (k.thread t).pendedOn ≠ none then unpendThreadNoTimeout k t else k).thread t) := by
  rw [unpendIf_thread, if_pos rfl]
  intro ht
  have hp := ht.1
  rw [Bool.and_eq_true, decide_eq_true_iff] at hp
  exact h.timed t ⟨hp.1, ht.2⟩ hp.2

theorem Live.unpendIf (h : Live n k) :
    Live n (if (k.thread t).pendedOn ≠ none then unpendThreadNoTimeout k t else k) := by
  split
  · next hp =>
    obtain ⟨q, hq⟩ := Option.ne_none_iff_exists'.mp hp
    exact h.unpend hq
  · exact h

theorem zThreadTimeout_live {m : T → Nat} (h : Live m k) (hm : ∀ u, u ≠ t → n u = m u) : Live n (zThreadTimeout cfg k t) := by
  rw [zThreadTimeout]
  split
  · next hd =>
    refine ⟨h.pended, fun u => ?_⟩
    by_cases hu : u = t
    · intro ht
      rw [hu] at ht
      exact absurd (h.pended.dead t hd) (h.pended.timed t ht)
    · rw [hm u hu]
      exact h.armed u
  · have hu := h.unpendIf (t := t)
    have hno := unpendIf_not_timed (t := t) h.pended
    refine Live.readyThread (Live.update ⟨hu.pended, fun u => ?_⟩ rfl (hu.pended.pending t) (hu.pended.timed t)
      (hu.pended.dead t) fun ht => absurd ht hno)
    by_cases heq : u = t
    · rw [heq]
      exact fun ht => absurd ht hno
    · rw [hm u heq]
      exact hu.armed u

theorem Live.endThread (h : Live n k) : Live n (endThread cfg k t) := by
  rw [Sched.endThread]
  split
  · exact h
  · refine (Live.unpendLoop (h.change (fun u hu => endSelf_other hu) (fun q => ?_) (fun q u _ hm => mem_endSelf_waitq hm)
      (fun q hm => ?_) ?_ ?_ ?_ ?_) _).updateCache
    · rw [endSelf_waitq]
      split
      · exact (h.pended.waitq_nodup q).erase t
      · exact h.pended.waitq_nodup q
    · rw [endSelf_waitq] at hm
      split at hm
      · exact absurd hm (h.pended.waitq_nodup q).not_mem_erase
      · next hne => exact absurd (h.pended.pendedOn q t hm) hne
    all_goals rw [endSelf_thread, if_pos rfl]
    · exact fun hp => absurd rfl hp
    · intro ht
      have hp := ht.1
      rw [Bool.and_eq_true, decide_eq_true_iff] at hp
      exact absurd hp.2 (h.pended.timed t ⟨hp.1, ht.2⟩)
    · exact fun _ => rfl
    · intro ht
      have hp := ht.1
      rw [Bool.and_eq_true, decide_eq_true_iff] at hp
      exact absurd hp.2 (h.pended.timed t ⟨hp.1, ht.2⟩)

section
omit dO

theorem Live.zAddThreadTimeout (h : Live n k) : Live n (zAddThreadTimeout k t) := by
  have hu : Live n (k.update t fun th => { th with timeout := true }) :=
    h.update rfl (h.pended.pending t) (h.pended.timed t) (h.pended.dead t) fun _ _ => Or.inl rfl
  exact hu.congr rfl fun _ => .refl _

theorem addThreadTimeout_thread {timeout : KTimeout} : (addThreadTimeout k t timeout).thread u =
    if u = t then
      { k.thread t with finite := timeout ≠ .forever, timeout := (k.thread t).timeout || decide (timeout ≠ .forever) }
    else k.thread u := by
  rw [addThreadTimeout]
  split
  · next hf =>
    rw [update_thread, hf]
    split
    · simp
    · rfl
  · next hf =>
    simp only [Sched.zAddThreadTimeout, update_thread]
    split
    · simp [hf]
    · rfl

@[simp] theorem addThreadTimeout_waitq {timeout : KTimeout} : (addThreadTimeout k t timeout).waitq = k.waitq := by
  rw [addThreadTimeout]
  split <;> rfl

end

section
variable (h : Live n k)
include h

theorem Live.pend (hc : Calling cfg k) (w : Option (WaitQ T O)) (timeout : KTimeout)
    (hw : w = none → timeout = .forever) : Live n (Sched.zSwap (pend cfg k k.current w timeout)) := by
  have hnone : (k.thread k.current).pendedOn = none := by
    by_contra hp
    have hpp := h.pended.pending _ hp
    have hcc := hc.2
    simp [zIsThreadPreventedFromRunning, hpp] at hcc
  have hno : ∀ q, k.current ∉ k.waitq q := fun q hm => by
    rw [h.pended.pendedOn q _ hm] at hnone
    cases hnone
  have hself : (Sched.pend cfg k k.current w timeout).thread k.current = { k.thread k.current with
        state.queued := false, state.pending := true, pendedOn := w, finite := timeout ≠ .forever,
        timeout := (k.thread k.current).timeout || decide (timeout ≠ .forever) } := by
    rw [Sched.pend, addThreadTimeout_thread, if_pos rfl, addToWaitq_thread, if_pos rfl, hnone, Option.or_none]
  have hdead : (k.thread k.current).state.dead = false := by
    have hcc := hc.2
    simp only [zIsThreadPreventedFromRunning, Bool.or_eq_false_iff] at hcc
    exact hcc.1.1.2
  refine Live.zSwap (h.change (t := k.current) (fun u hu => ?_) (fun q => ?_) (fun q u hu hm => ?_) (fun q hm => ?_) ?_ ?_ ?_ ?_)
  · rw [Sched.pend, addThreadTimeout_thread, if_neg hu, addToWaitq_thread, if_neg hu]
  · rw [Sched.pend, addThreadTimeout_waitq]
    exact addToWaitq_nodup (h.pended.waitq_nodup q) (hno q)
  · rw [Sched.pend, addThreadTimeout_waitq, mem_addToWaitq] at hm
    exact hm.resolve_left fun hut => hu hut.1
  · rw [Sched.pend, addThreadTimeout_waitq, mem_addToWaitq] at hm
    rw [hself]
    exact (hm.resolve_right (hno q)).2
  all_goals rw [hself]
  · exact fun _ => rfl
  · intro ht hwn
    have hf := ht.2
    rw [decide_eq_true_iff] at hf
    exact hf (hw hwn)
  · intro hd
    exact Bool.noConfusion (hdead.symm.trans hd)
  · intro ht _
    refine Or.inl ?_
    have hf := ht.2
    simp only [Bool.or_eq_true]
    exact Or.inr hf

theorem Live.kThreadJoin (hc : Calling cfg k) (timeout : KTimeout) : Live n (kThreadJoin cfg k t timeout) := by
  rw [Sched.kThreadJoin]
  split
  · exact h
  · split
    · exact h
    · split
      · exact h
      · exact h.pend hc _ timeout (by simp)

section
omit dO

theorem Live.zSetPrio {prio : BitVec 8} : Live n (zSetPrio cfg k t prio) := by
  rw [Sched.zSetPrio]
  split
  · exact (h.dequeueThread.updateSame ⟨rfl, rfl, rfl, rfl, rfl, rfl⟩).queueThread.updateCache
  · exact h.updateSame ⟨rfl, rfl, rfl, rfl, rfl, rfl⟩

theorem Live.kThreadDeadlineSet {deadline : BitVec 32} : Live n (kThreadDeadlineSet cfg k t deadline) := by
  have hu : Live n (k.update t fun th => { th with prioDeadline := deadline }) :=
    h.updateSame ⟨rfl, rfl, rfl, rfl, rfl, rfl⟩
  rw [Sched.kThreadDeadlineSet]
  split
  · exact hu.dequeueThread.queueThread
  · exact hu

theorem Live.zTimeSlice : Live n (zTimeSlice cfg k) := by
  rw [Sched.zTimeSlice]
  split
  · exact h.dequeueIfQueued.queueThread.updateCache
  · exact h

theorem Live.zTickSleep : Live n (zTickSleep cfg k) := by
  have ha : Live n (Sched.zAddThreadTimeout (unreadyThread cfg k k.current) k.current) :=
    h.dequeueIfQueued.updateCache.zAddThreadTimeout
  exact (ha.update rfl (ha.pended.pending _) (ha.pended.timed _) (ha.pended.dead _) fun _ hs => Bool.noConfusion hs).zSwap

theorem Live.kSleep : ∀ timeout, Live n (kSleep cfg k timeout)
  | .noWait => h.dequeueThread.queueThread.updateCache.zSwap
  | .ticks => h.zTickSleep
  | .forever => h.kThreadSuspend

theorem Live.expire : Live (Function.update n t (n t + 1)) (zAbortThreadTimeout k t) := by
  have hm : Live (Function.update n t (n t + 1)) k := by
    refine ⟨h.pended, fun u ht hs => (h.armed u ht hs).imp id fun hn => ?_⟩
    rw [Function.update_apply]
    split
    · exact Nat.succ_pos _
    · exact hn
  refine hm.abortTimeout fun _ _ => ?_
  rw [Function.update_self]
  exact Nat.succ_pos _

end

theorem Live.perform {e : Event T O} (hen : Enabled cfg k e) (hr : ∀ t, e = .resume t → ResumeOk n k t) :
    Live n (perform cfg k e) := by
  cases e with
  | yield => exact h.dequeueThread.queueThread.updateCache.zSwap
  | sleep timeout => exact h.kSleep timeout
  | pend w timeout => exact h.pend hen.1 w timeout hen.2.2
  | join t timeout => exact h.kThreadJoin hen timeout
  | lock =>
    exact h.updateSame (f := fun th => { th with schedLocked := th.schedLocked - 1 }) ⟨rfl, rfl, rfl, rfl, rfl, rfl⟩
  | unlock =>
    exact (h.updateSame (f := fun th => { th with schedLocked := th.schedLocked + 1 })
      ⟨rfl, rfl, rfl, rfl, rfl, rfl⟩).updateCache
  | setPrio t prio => exact h.zSetPrio
  | start t => exact h.zSchedStart
  | startDelayed t => exact h.zAddThreadTimeout
  | suspend t => exact h.kThreadSuspend
  | resume t => exact h.kThreadResume (hr t rfl)
  | wake q => exact h.zSchedWake
  | wakeAll q => exact h.unpendLoop _
  | wakeThread t =>
    obtain ⟨q, hq⟩ := Option.ne_none_iff_exists'.mp hen
    exact h.unpendAndReady hq
  | dispose t =>
    refine (h.update rfl (fun hp => absurd hen.2.2 hp) (fun ht => Bool.noConfusion ht.1) (h.pended.dead t)
      fun ht => Bool.noConfusion ht.1).readyThread
  | timeout t => exact zThreadTimeout_live h.expire fun u hu => (Function.update_of_ne hu _ _).symm
  | wakeup t => exact h.kWakeup
  | abort t => exact h.endThread
  | timeSlice => exact h.zTimeSlice
  | deadlineSet t deadline => exact h.kThreadDeadlineSet
  | switch => exact h.zSwap

end

/-! ## Runs -/

/-- No suspended thread is resumed while it still waits with a timeout that has been cancelled. -/
def ResumesOk (s : Clocked T O) : Tick T O → Prop
  | .op (.resume t) => ResumeOk s.inFlight s.kernel t
  | _ => True

theorem Live.tick {s s' : Clocked T O} {e : Tick T O} (h : Live s.inFlight s.kernel) (hr : ResumesOk s e)
    (hs : tick cfg s e = .ok s') : Live s'.inFlight s'.kernel := by
  cases e with
  | op e =>
    obtain ⟨k, hk, rfl⟩ := map_eq_ok hs
    rw [step] at hk
    split at hk
    · next hen =>
      cases hk
      refine h.perform hen fun t heq => ?_
      subst heq
      exact hr
    · cases hk
  | expire t =>
    rw [Sched.tick] at hs
    split at hs <;> cases hs
    exact h.expire
  | handle t =>
    rw [Sched.tick] at hs
    split at hs <;> cases hs
    exact zThreadTimeout_live h fun u hu => Function.update_of_ne hu _ _

omit dO in
theorem Booted.live (h : Booted cfg k) : Live (fun _ => 0) k := by
  have hp : ∀ t, (k.thread t).state.pending = false := by
    intro t
    by_cases hc : t = k.current
    · rw [hc, h.running]
    · by_cases hi : t = cfg.idle
      · rw [hi, h.idle.1]
      · rcases h.others t hc hi with hs | hs <;> rw [hs]
  have hno : ∀ t, ¬Timed (k.thread t) := fun t ht => Bool.noConfusion ((hp t).symm.trans ht.1)
  refine ⟨⟨fun q => ?_, fun q t hm => ?_, fun t hw => absurd (h.waiting t).1 hw, fun t ht => absurd ht (hno t),
    fun t _ => (h.waiting t).1⟩, fun t ht => absurd ht (hno t)⟩
  · rw [h.waitq]
    exact List.nodup_nil
  · rw [h.waitq] at hm
    cases hm

instance ResumesOk.instDecidable (s : Clocked T O) (e) : Decidable (ResumesOk s e) := by
  rcases e with e | _ | _
  · induction e using Event.casesOn <;> dsimp only [ResumesOk, ResumeOk] <;> infer_instance
  all_goals exact instDecidableTrue

end RtosKernel.Zephyr.Sched
