import RtosKernel.Zephyr.SchedCache

/-! # What preempts a thread that must not be preempted

A new priority of another ready thread and the end of another thread are followed by `update_cache(1)`, which
caches the first thread of the run queue whatever the running thread is. -/

namespace RtosKernel.Zephyr.Sched
open Lib.Runs

variable {T O : Type} [dT : DecidableEq T] [dO : DecidableEq O] {cfg : Config T} {k k' : Kernel T O} {t u : T}
  {f : Thread T O → Thread T O} {q : WaitQ T O} {b : Bool}

/-- The running thread can run, and is cooperative or holds the scheduler lock. -/
def Protected (k : Kernel T O) : Prop :=
  zIsThreadPreventedFromRunning (k.thread k.current) = false ∧
    ((k.thread k.current).prio.toInt < 0 ∨ (k.thread k.current).schedLocked ≠ 0)
  deriving Decidable

omit dT dO in
theorem kept_iff : Kept k ↔ k.cache = k.current ∧ Protected k := by
  have hp : isPreempt (k.thread k.current) = false ↔
      (k.thread k.current).prio.toInt < 0 ∨ (k.thread k.current).schedLocked ≠ 0 := by
    rw [← Bool.not_eq_true, isPreempt_iff, not_and_or, not_le, or_comm]
  rw [Kept, Protected, hp]
  exact and_congr_right fun _ => and_comm

/-- What is no call of the running thread that yields, sleeps, waits, gives the lock back, or acts on itself. -/
def Foreign (k : Kernel T O) : Event T O → Prop
  | .yield | .sleep _ | .pend _ _ => False
  | .join t timeout => (k.thread t).state.dead = true ∨ timeout = .noWait ∨ t = k.current ∨
      (k.thread t).pendedOn = some (.joinQueue k.current)
  | .unlock => (k.thread k.current).prio.toInt < 0 ∨ (k.thread k.current).schedLocked + 1 ≠ 0
  | .setPrio t _ | .suspend t | .abort t => t ≠ k.current
  | .timeSlice => (k.thread k.current).sliceTicks = 0
  | .lock | .start _ | .startDelayed _ | .resume _ | .wake _ | .wakeAll _ | .wakeThread _ | .dispose _ | .timeout _
  | .wakeup _ | .deadlineSet _ _ | .switch => True

/-- A waiting thread is ready once its wait is over. -/
def Wakes (x : Thread T O) : Prop := zIsThreadReady { x with state.pending := false, timeout := false } = true
  deriving Decidable

/-- When `update_cache(1)` finds the running thread first in the run queue: nothing else comes before it there,
nor does the thread whose priority changes, or one that waits for the end of the aborted one. -/
def KeepsCurrent (cfg : Config T) (k : Kernel T O) : Event T O → Prop
  | .setPrio t prio => zIsThreadReady (k.thread t) = true → (k.runq.erase t).head? = some k.current ∧
      ¬0 < zSchedPrioCmp cfg { k.thread t with prio := prio } (k.thread k.current)
  | .abort t => (k.thread t).state.dead = false → (k.runq.erase t).head? = some k.current ∧
      ∀ w ∈ k.waitq (.joinQueue t), Wakes (k.thread w) → ¬0 < zSchedPrioCmp cfg (k.thread w) (k.thread k.current)
  | _ => True

/-! ## Steps -/

section
variable (h : Kept k)
include h

omit dT dO in
theorem Kept.updateCache (hf : Full cfg (updateCache cfg k false)) : Kept (updateCache cfg k false) := by
  have hto : (k.thread (nextUp cfg k)).timeout = false := by
    have hnext : nextUp cfg k = cfg.idle ∨ (k.thread (nextUp cfg k)).state.queued = true := hf.lists.nextUp
    rcases hnext with hn | hn
    · have hi := hf.idles.timeout
      rw [← hn] at hi
      exact hi
    · exact hf.timeout_of_queued hn
  refine ⟨?_, h.2⟩
  show (if shouldPreempt cfg k (nextUp cfg k) false then nextUp cfg k else k.current) = k.current
  rw [shouldPreempt, h.2.1, h.2.2, hto, Bool.and_false]
  rfl

omit dO in
theorem Kept.queueThread : Kept (queueThread cfg k t) := by
  refine ⟨h.1, ?_⟩
  rw [queueThread_current, queueThread_thread]
  split
  · next heq =>
    rw [← heq]
    exact h.2
  · exact h.2

omit dO in
theorem Kept.readyThread (hf : Full cfg (readyThread cfg k t)) : Kept (readyThread cfg k t) := by
  rw [Sched.readyThread] at hf ⊢
  split
  · next hr =>
    rw [if_pos hr] at hf
    exact h.queueThread.updateCache hf
  · exact h

theorem Kept.unpendAndReady (hf : Full cfg k) (hq : (k.thread t).pendedOn = some q) : Kept (unpendAndReady cfg k t) :=
  (h.eased (Eased.unpendAbort hq)).readyThread (hf.unpendAndReady (by simp [hq])).1

theorem Kept.unpendLoop {n : Nat} (hf : Full cfg k) : Kept (unpendLoop cfg q n k) := by
  induction n generalizing k with
  | zero => exact h
  | succ n ih =>
    rw [Sched.unpendLoop]
    split
    · exact h
    · next t hh =>
      have hq := hf.lists.pendedOn_of_head hh
      exact ih (h.unpendAndReady hf hq) (hf.unpendAndReady (by simp [hq])).1

section
omit dO

theorem Kept.zSchedStart (hf : Full cfg (zSchedStart cfg k t)) : Kept (zSchedStart cfg k t) := by
  rw [Sched.zSchedStart] at hf ⊢
  split
  · next hp =>
    rw [if_pos hp] at hf
    refine (h.eased (.update ⟨rfl, rfl, rfl⟩ rfl fun hn => ?_)).readyThread hf
    simp [zIsThreadPreventedFromRunning, hp] at hn
  · exact h

theorem Kept.kThreadResume (hf : Full cfg (kThreadResume cfg k t)) : Kept (kThreadResume cfg k t) := by
  rw [Sched.kThreadResume] at hf ⊢
  split
  · next hs =>
    rw [if_pos hs] at hf
    refine (h.eased (.update ⟨rfl, rfl, rfl⟩ rfl fun hn => ?_)).readyThread hf
    simp [zIsThreadPreventedFromRunning, hs] at hn
  · exact h

theorem Kept.dispose (hs : (k.thread t).state.pending = true)
    (hf : Full cfg (Sched.readyThread cfg (k.update t fun th => { th with state.pending := false }) t)) :
    Kept (Sched.readyThread cfg (k.update t fun th => { th with state.pending := false }) t) := by
  refine (h.eased (.update ⟨rfl, rfl, rfl⟩ rfl fun hn => ?_)).readyThread hf
  simp [zIsThreadPreventedFromRunning, hs] at hn

theorem Kept.kWakeup (hf : Full cfg (kWakeup cfg k t)) : Kept (kWakeup cfg k t) := by
  rw [Sched.kWakeup] at hf ⊢
  split
  · exact h
  · next hp =>
    rw [if_neg hp] at hf
    split
    · exact h
    · next hno =>
      rw [if_neg hno] at hf
      refine (h.eased (.trans (.update ⟨rfl, rfl, rfl⟩ rfl id) (.update ⟨rfl, rfl, rfl⟩ rfl fun hn => ?_))).readyThread hf
      simp only [zIsThreadPreventedFromRunning, Bool.or_eq_false_iff] at hn ⊢
      exact ⟨hn.1, trivial⟩

end

theorem Kept.threadTimeout (hf : Full cfg (zThreadTimeout cfg (zAbortThreadTimeout k t) t)) :
    Kept (zThreadTimeout cfg (zAbortThreadTimeout k t) t) := by
  have ha : Eased k (zAbortThreadTimeout k t) := .update ⟨rfl, rfl, rfl⟩ rfl id
  rw [zThreadTimeout] at hf ⊢
  split
  · exact h.eased ha
  · next hd =>
    rw [if_neg hd] at hf
    refine (h.eased ((ha.trans .unpendIf).trans (.update ⟨rfl, rfl, rfl⟩ rfl fun hn => ?_))).readyThread hf
    simp only [zIsThreadPreventedFromRunning, Bool.or_eq_false_iff] at hn ⊢
    exact ⟨⟨⟨⟨hn.1.1.1.1, trivial⟩, hn.1.1.2⟩, hn.1.2⟩, trivial⟩

theorem Kept.zSchedWake (hf : Full cfg k) : Kept (zSchedWake cfg k q) := by
  rw [Sched.zSchedWake]
  split
  · exact h
  · next t hh => exact h.unpendAndReady hf (hf.lists.pendedOn_of_head hh)

omit dT dO in
theorem Kept.of_current (hc : k'.cache = k.cache) (hcur : k'.current = k.current)
    (ht : k'.thread k.current = k.thread k.current) : Kept k' := by
  rw [Kept, hc, hcur, ht]
  exact h

section
omit dO

theorem Kept.kThreadSuspend (hf : Full cfg (kThreadSuspend cfg k t)) (ht : t ≠ k.current) :
    Kept (kThreadSuspend cfg k t) := by
  rw [Sched.kThreadSuspend, decide_eq_false ht] at hf ⊢
  refine Kept.updateCache (h.of_current ?_ ?_ ?_) hf
  · rw [update_cache, dequeueIfQueued_cache]
    rfl
  · rw [update_current, dequeueIfQueued_current]
    rfl
  · rw [update_thread, if_neg ht.symm, dequeueIfQueued_thread, if_neg ht.symm, zAbortThreadTimeout, update_thread,
      if_neg ht.symm]

theorem Kept.kSchedUnlock (hf : Full cfg (kSchedUnlock cfg k))
    (hl : (k.thread k.current).prio.toInt < 0 ∨ (k.thread k.current).schedLocked + 1 ≠ 0) : Kept (kSchedUnlock cfg k) := by
  refine Kept.updateCache ⟨h.1, ?_⟩ hf
  rw [update_current, update_thread, if_pos rfl]
  refine ⟨?_, h.2.2⟩
  rw [← Bool.not_eq_true, isPreempt_iff]
  intro hp
  rcases hl with hl | hl
  · exact absurd hp.2 (not_le.mpr hl)
  · exact hl hp.1

theorem Kept.zTimeSlice (hs : (k.thread k.current).sliceTicks = 0) : Kept (zTimeSlice cfg k) := by
  have hn : sliceable cfg k k.current = false := by
    rw [sliceable, h.2.1, hs]
    rfl
  rw [Sched.zTimeSlice, hn, Bool.and_false, Bool.false_and]
  exact h

end

omit dT dO in
theorem Kept.zSwap : Kept (zSwap k) := by
  refine ⟨rfl, ?_⟩
  show isPreempt (k.thread k.cache) = false ∧ zIsThreadPreventedFromRunning (k.thread k.cache) = false
  rw [h.1]
  exact h.2

end

omit dO in
theorem Kept.zSetPrio {prio : BitVec 8} (h : Kept k) (ht : t ≠ k.current)
    (hk : KeepsCurrent cfg k (.setPrio t prio)) : Kept (zSetPrio cfg k t prio) := by
  rw [Sched.zSetPrio]
  split
  · next hr =>
    obtain ⟨hhead, hcmp⟩ := hk hr
    have hcur : (Sched.queueThread cfg ((dequeueThread k t).update t fun th => { th with prio := prio }) t).thread k.current =
        k.thread k.current := by
      rw [queueThread_thread, if_neg ht.symm, update_thread, if_neg ht.symm, dequeueThread_thread, if_neg ht.symm]
    have hself : (Sched.queueThread cfg ((dequeueThread k t).update t fun th => { th with prio := prio }) t).thread t =
        { { k.thread t with prio := prio } with state.queued := true, queuedAt := k.clock } := by
      rw [queueThread_thread, if_pos rfl, update_thread, if_pos rfl, dequeueThread_thread, if_pos rfl]
      rfl
    refine ⟨?_, ?_⟩
    · show nextUp cfg _ = k.current
      rw [nextUp, queueThread_runq, update_runq, dequeueThread_runq, head_zPriqDumbAdd_of_not hhead]
      · rfl
      · rw [hself, hcur]
        exact hcmp
    · rw [updateCache_current, updateCache_thread, queueThread_current, update_current, dequeueThread_current, hcur]
      exact h.2
  · refine h.of_current rfl rfl ?_
    rw [update_thread, if_neg ht.symm]

/-! ### The end of another thread -/

section
omit dO

theorem readyThread_thread (hu : u ≠ t) : (readyThread cfg k t).thread u = k.thread u := by
  rw [readyThread]
  split
  · rw [updateCache_thread, queueThread_thread, if_neg hu]
  · rfl

@[simp] theorem readyThread_waitq : (readyThread cfg k t).waitq = k.waitq := by
  rw [readyThread]
  split <;> rfl

@[simp] theorem readyThread_current : (readyThread cfg k t).current = k.current := by
  rw [readyThread]
  split <;> rfl

end

theorem unpendAndReady_thread (hq : (k.thread t).pendedOn = some q) (hu : u ≠ t) :
    (unpendAndReady cfg k t).thread u = k.thread u := by
  rw [unpendAndReady, readyThread_thread hu, zAbortThreadTimeout, update_thread, if_neg hu, unpend_thread hq, if_neg hu]

theorem unpendAndReady_waitq (hq : (k.thread t).pendedOn = some q) :
    (unpendAndReady cfg k t).waitq q = (k.waitq q).erase t := by
  rw [unpendAndReady, readyThread_waitq, zAbortThreadTimeout, update_waitq, unpend_waitq hq, if_pos rfl]

@[simp] theorem unpendAndReady_current : (unpendAndReady cfg k t).current = k.current := by
  rw [unpendAndReady, readyThread_current, zAbortThreadTimeout, update_current, unpend_current]

/-- The running thread is first in the run queue, and what waits in `q` will not come before it. -/
structure Ahead (cfg : Config T) (k : Kernel T O) (q : WaitQ T O) : Prop where
  head : k.runq.head? = some k.current
  waiters : ∀ w ∈ k.waitq q, Wakes (k.thread w) → ¬0 < zSchedPrioCmp cfg (k.thread w) (k.thread k.current)

theorem Ahead.unpendAndReady (h : Ahead cfg k q) (hf : Full cfg k) (hk : Kept k) (hh : (k.waitq q).head? = some t) :
    Ahead cfg (unpendAndReady cfg k t) q := by
  have hq := hf.lists.pendedOn_of_head hh
  have hne : k.current ≠ t := fun heq => by
    have hp := hf.lists.pending t (by simp [hq])
    have hcur := hk.2.2
    rw [heq, zIsThreadPreventedFromRunning, hp] at hcur
    cases hcur
  refine ⟨?_, fun w hw => ?_⟩
  · have hself : (zAbortThreadTimeout (unpendThreadNoTimeout k t) t).thread t =
        { k.thread t with state.pending := false, pendedOn := none, timeout := false } := by
      rw [zAbortThreadTimeout, update_thread, if_pos rfl, unpend_thread hq, if_pos rfl]
    have hcur : (zAbortThreadTimeout (unpendThreadNoTimeout k t) t).thread k.current = k.thread k.current := by
      rw [zAbortThreadTimeout, update_thread, if_neg hne, unpend_thread hq, if_neg hne]
    have hrunq : (zAbortThreadTimeout (unpendThreadNoTimeout k t) t).runq = k.runq := by
      rw [zAbortThreadTimeout, update_runq, unpend_runq]
    rw [unpendAndReady_current, Sched.unpendAndReady, readyThread]
    split
    · next hr =>
      rw [Bool.and_eq_true, hself] at hr
      rw [updateCache_runq, queueThread_runq]
      refine head_zPriqDumbAdd_of_not (hrunq ▸ h.head) ?_
      rw [queueThread_thread, if_pos rfl, queueThread_thread, if_neg hne, hself, hcur]
      exact h.waiters t (List.mem_of_mem_head? hh) hr.2
    · exact hrunq ▸ h.head
  · rw [unpendAndReady_waitq hq] at hw
    have hwt : w ≠ t := fun heq => (hf.lists.waitq_nodup q).not_mem_erase (heq ▸ hw)
    rw [unpendAndReady_thread hq hwt, unpendAndReady_current, unpendAndReady_thread hq hne]
    exact h.waiters w (List.mem_of_mem_erase hw)

theorem Ahead.unpendLoop {n : Nat} (h : Ahead cfg k q) (hf : Full cfg k) (hk : Kept k) :
    Ahead cfg (unpendLoop cfg q n k) q := by
  induction n generalizing k with
  | zero => exact h
  | succ n ih =>
    rw [Sched.unpendLoop]
    split
    · exact h
    · next t hh =>
      have hq := hf.lists.pendedOn_of_head hh
      exact ih (h.unpendAndReady hf hk hh) (hf.unpendAndReady (by simp [hq])).1 (hk.unpendAndReady hf hq)

theorem Kept.endThread (h : Kept k) (hi : Inv cfg k) (hidle : t ≠ cfg.idle) (ht : t ≠ k.current)
    (hk : KeepsCurrent cfg k (.abort t)) : Kept (endThread cfg k t) := by
  rw [Sched.endThread]
  split
  · exact h
  · next hd =>
    rw [Bool.not_eq_true] at hd
    obtain ⟨hhead, hwait⟩ := hk hd
    have hf := hi.full.endSelf hidle
    have hself : Kept (endSelf k t) := h.of_current endSelf_cache endSelf_current (endSelf_other ht.symm)
    have ha : Ahead cfg (endSelf k t) (.joinQueue t) := by
      refine ⟨by rw [endSelf_runq hi.full.lists, endSelf_current, hhead], fun w hw => ?_⟩
      rw [endSelf_current, endSelf_other ht.symm]
      by_cases hwt : w = t
      · exfalso
        rw [hf.lists.pendedOn, hwt, endSelf_thread, if_pos rfl] at hw
        cases hw
      · rw [endSelf_other hwt]
        exact hwait w (mem_endSelf_waitq hw)
    have hloop := ha.unpendLoop (n := ((endSelf k t).waitq (.joinQueue t)).length) hf hself
    have hkept := hself.unpendLoop (n := ((endSelf k t).waitq (.joinQueue t)).length) (q := .joinQueue t) hf
    refine ⟨?_, hkept.2⟩
    show nextUp cfg _ = _
    rw [nextUp, unpendAll, hloop.head]
    rfl

/-! ## Runs -/

theorem unpendLoop_current {n : Nat} : (unpendLoop cfg q n k).current = k.current := by
  induction n generalizing k with
  | zero => rfl
  | succ n ih =>
    rw [unpendLoop]
    split
    · rfl
    · rw [ih, unpendAndReady_current]

theorem kThreadJoin_of_foreign {timeout : KTimeout} (hno : Foreign k (.join t timeout)) : kThreadJoin cfg k t timeout = k := by
  rw [kThreadJoin]
  split
  · rfl
  · next hd =>
    split
    · rfl
    · next ht => rw [if_pos ((hno.resolve_left hd).resolve_left ht)]

theorem perform_current {e : Event T O} (h : Kept k) (hno : Foreign k e) : (perform cfg k e).current = k.current := by
  cases e with
  | yield => exact hno.elim
  | sleep timeout => exact hno.elim
  | pend w timeout => exact hno.elim
  | join t timeout => rw [perform, kThreadJoin_of_foreign hno]
  | lock => rfl
  | unlock => rfl
  | setPrio t prio =>
    rw [perform, zSetPrio]
    split <;> rfl
  | start t =>
    rw [perform, zSchedStart]
    split
    · exact readyThread_current
    · rfl
  | startDelayed t => rfl
  | suspend t => exact dequeueIfQueued_current
  | resume t =>
    rw [perform, kThreadResume]
    split
    · exact readyThread_current
    · rfl
  | wake q =>
    rw [perform, zSchedWake]
    split
    · rfl
    · exact unpendAndReady_current
  | wakeAll q => exact unpendLoop_current
  | wakeThread t => exact unpendAndReady_current
  | dispose t => exact readyThread_current
  | timeout t =>
    rw [perform, zThreadTimeout]
    split
    · rfl
    · rw [readyThread_current, update_current, unpendIf_current]
      rfl
  | wakeup t =>
    rw [perform, kWakeup]
    split
    · rfl
    · split
      · rfl
      · exact readyThread_current
  | abort t =>
    rw [perform, endThread]
    split
    · rfl
    · exact unpendLoop_current.trans endSelf_current
  | timeSlice =>
    rw [perform, zTimeSlice]
    split
    · rw [moveThreadToEndOfPrioQ, updateCache_current, queueThread_current, dequeueIfQueued_current]
    · rfl
  | deadlineSet t deadline => exact deadline_current
  | switch => exact h.1

theorem Kept.step {e : Event T O} (h : Kept k) (hi : Inv cfg k) (hno : Foreign k e) (hk : KeepsCurrent cfg k e)
    (hs : step cfg k e = .ok k') : Kept k' := by
  have hf := (hi.step hs).full
  rw [Sched.step] at hs
  split at hs
  · next hen =>
    cases hs
    cases e with
    | yield => exact hno.elim
    | sleep timeout => exact hno.elim
    | pend w timeout => exact hno.elim
    | join t timeout => rw [perform, kThreadJoin_of_foreign hno]; exact h
    | lock => exact h.kSchedLock hen.2
    | unlock => exact h.kSchedUnlock hf hno
    | setPrio t prio => exact h.zSetPrio hno hk
    | start t => exact h.zSchedStart hf
    | startDelayed t => exact h.startDelayed hen.2.1
    | suspend t => exact h.kThreadSuspend hf hno
    | resume t => exact h.kThreadResume hf
    | wake q => exact h.zSchedWake hi.full
    | wakeAll q => exact h.unpendLoop hi.full
    | wakeThread t =>
      obtain ⟨q, hq⟩ := Option.ne_none_iff_exists'.mp hen
      exact h.unpendAndReady hi.full hq
    | dispose t => exact h.dispose hen.2.1 hf
    | timeout t => exact h.threadTimeout hf
    | wakeup t => exact h.kWakeup hf
    | abort t => exact h.endThread hi hen hno hk
    | timeSlice => exact h.zTimeSlice hno
    | deadlineSet t deadline => exact h.deadline
    | switch => exact h.zSwap
  · cases hs

/-- While the running thread can run and is cooperative or holds the scheduler lock, nothing that others do
takes it out of the cache, and a reschedule leaves it running, as long as each new priority of another ready
thread and each end of another thread finds it first in the run queue. -/
theorem running_thread_kept {k₀ : Kernel T O} {es es' : List (Event T O)} (h : Booted cfg k₀)
    (hrun : run (step cfg) k₀ es = .ok k) (hp : Protected k) (hc : k.cache = k.current)
    (hes : Along (step cfg) (fun k e => Foreign k e ∧ KeepsCurrent cfg k e) k es')
    (hrun' : run (step cfg) k es' = .ok k') :
    k'.cache = k.current ∧ k'.current = k.current ∧ (zSwap k').current = k.current := by
  have hstart : Inv cfg k ∧ Kept k ∧ k.current = k.current := ⟨h.inv.run hrun, kept_iff.mpr ⟨hc, hp⟩, rfl⟩
  have hk : Inv cfg k' ∧ Kept k' ∧ k'.current = k.current := by
    refine @run_inv _ _ _ (step cfg) _ (fun k' => Inv cfg k' ∧ Kept k' ∧ k'.current = k.current) _ _ _
      (fun k₁ e k₂ h₁ hf hs => ?_) hstart hes hrun'
    refine ⟨h₁.1.step hs, h₁.2.1.step h₁.1 hf.1 hf.2 hs, ?_⟩
    have hcur : (perform cfg k₁ e).current = k₁.current := perform_current h₁.2.1 hf.1
    rw [← h₁.2.2, ← hcur]
    rw [step] at hs
    split at hs <;> cases hs
    rfl
  have hcache : k'.cache = k.current := hk.2.1.1.trans hk.2.2
  exact ⟨hcache, hk.2.2, hcache⟩

instance Foreign.instDecidable (e : Event T O) : Decidable (Foreign k e) := by
  induction e using Event.casesOn <;> dsimp only [Foreign] <;> infer_instance

instance KeepsCurrent.instDecidable (e : Event T O) : Decidable (KeepsCurrent cfg k e) := by
  induction e using Event.casesOn <;> dsimp only [KeepsCurrent] <;> infer_instance

/-- A preemptible thread takes the scheduler lock; others are started, get a priority below its own, and end. -/
theorem running_thread_kept_four : ∃ k k', run (step exampleConfig) (exampleKernel fun _ => 5) [.lock] = .ok k ∧
    run (step exampleConfig) k [.start 2, .start 3, .setPrio 2 6, .lock, .unlock, .abort 3, .timeSlice, .switch] = .ok k' ∧
    k'.cache = k.current ∧ k'.current = k.current ∧ (zSwap k').current = k.current := by
  refine ⟨_, _, and_then rfl fun hrun => and_then rfl fun hrun' =>
    running_thread_kept (exampleKernel_booted fun _ => 5) hrun (by decide) rfl ?_ hrun'⟩
  decide +kernel

/-- The running thread is cooperative and gives another thread a higher priority than its own: the other thread is
cached, and the next reschedule switches to it. -/
theorem set_prio_preempts : Booted exampleConfig (exampleKernel fun _ => -1) ∧ ∃ k k',
    run (step exampleConfig) (exampleKernel fun _ => -1) [.start 2] = .ok k ∧ Protected k ∧ k.cache = k.current ∧
    Along (step exampleConfig) Foreign k [.setPrio 2 (-2)] ∧ run (step exampleConfig) k [.setPrio 2 (-2)] = .ok k' ∧
    k'.cache ≠ k.current ∧ (zSwap k').current ≠ k.current :=
  ⟨exampleKernel_booted _, _, _, rfl, by decide, rfl, by decide, rfl, by decide, by decide⟩

end RtosKernel.Zephyr.Sched
