import RtosKernel.RtThread.Mutex

/-! # Releasing a mutex and preemption

`rt_mutex_release` calls the scheduler only if it resumes a thread. When it takes the
priority away that a waiting thread had lent, and that thread has left by its timeout,
the lowered thread runs on. -/
namespace RtosKernel.RtThread.Mutex
open Lib.Containers RtThread.Def RtThread.IpcList RtThread.Scheduler Option

variable {Tid Mid : Type} [DecidableEq Tid] [DecidableEq Mid]
variable {c : Board} {k k' : Kernel Tid Mid} {t x a : Tid} {m : Mid}

/-! ## The calls keep the invariant -/

section
variable (h : Inv c k) (hcur : k.currentThread = some a)
include h hcur

theorem suspendOn_inv {time : Int}
    (hrun : (k.thread a).stat = .running) (hs : suspendOn c k m a time = some k') : Inv c k' := by
  have heq : (rtThreadSuspend c k a).1 =
      (rtScheduleRemoveThread c k a).setThread a { k.thread a with stat := .suspend, threadTimer := false } := by
    unfold rtThreadSuspend
    rw [if_pos (.inr hrun)]
    simp only [thread_remove]
  have h1 := rtThreadSuspend_inv h hcur
  have hnone : (rtThreadSuspend c k a).1.lists.container a = none := by
    rw [heq]
    change (rtScheduleRemoveThread c k a).lists.container a = none
    rw [lists_remove, container_remove_self]
  have hst : ((rtThreadSuspend c k a).1.thread a).stat = .suspend := by rw [heq, thread_setThread_self]
  have h2 := h1.wait (m := m) hnone hst
    (@ipcListSuspend_perm Tid (fun t => ((rtThreadSuspend c k a).1.thread t).currentPriority) .prio a _)
  have hcur2 : (rtThreadSuspend c k a).1.currentThread ≠ none := by
    rw [heq]
    change (rtScheduleRemoveThread c k a).currentThread ≠ none
    rw [currentThread_remove, hcur]
    simp
  refine rtSchedule_inv ?_ ?_ hs
  · split
    · exact h2.touch a _ _ true
    · exact h2
  · split <;> exact hcur2

theorem rtMutexTake_inv {time : Int} {r : Option RtErr}
    (hrun : (k.thread a).stat = .running) (hs : rtMutexTake c k m time = some (k', r)) : Inv c k' := by
  unfold rtMutexTake at hs
  rw [hcur] at hs
  simp only [bind, bind_some] at hs
  set k1 := k.setThread a { k.thread a with error := .eok } with hk1
  have h1 : Inv c k1 := h.touch a _ .eok _
  have hrun1 : (k1.thread a).stat = .running := by
    rw [hk1, thread_setThread_self]
    exact hrun
  have hok : (k1.mutex m).Ok c := h1.mutexes m
  split at hs
  · split at hs
    · rename_i hhold
      cases hs
      exact h1.setMutex ⟨hok.original, Nat.succ_lt_succ hhold⟩
    · obtain ⟨rfl, _⟩ := Prod.mk.inj (some.inj hs)
      exact h1
  rename_i hother
  split at hs
  · have horig : (k1.thread a).currentPriority < c.priorityMax := (h1.ranked a).lt
    split at hs
    · rename_i hhold
      cases hs
      exact h1.setMutex ⟨fun _ _ => horig, Nat.succ_lt_succ hhold⟩
    · cases hs
      exact h1.setMutex ⟨fun _ _ => horig, hok.hold_lt⟩
  split at hs
  · cases hs
    exact h1.touch a _ .etimeout _
  obtain ⟨owner, howner, hs⟩ := bind_eq_some_iff.mp hs
  have hne : a ≠ owner := fun he => hother (he ▸ howner)
  by_cases hraise : (k1.thread a).currentPriority < (k1.thread owner).currentPriority
  · rw [if_pos hraise] at hs
    obtain ⟨k2, hgo, hend⟩ := map_eq_some_iff.mp hs
    cases hend
    obtain ⟨hthread, hcurrent⟩ := thread_changePriority (p := (k1.thread a).currentPriority) h1 hne
    refine suspendOn_inv (rtThreadChangePriority_inv h1 owner (h1.ranked a).lt) (hcurrent.trans hcur) ?_ hgo
    rw [hthread]
    exact hrun1
  · rw [if_neg hraise] at hs
    obtain ⟨k2, hgo, hend⟩ := map_eq_some_iff.mp hs
    cases hend
    exact suspendOn_inv h1 hcur hrun1 hgo

theorem lowered {p : Nat} (hp : p < c.priorityMax) :
    ∃ v : Thread, v.stat = (k.thread a).stat ∧ v.Ranked c ∧ v.currentPriority = p ∧
      (if p ≠ (k.thread a).currentPriority then rtThreadChangePriority c k a p else k) = k.setThread a v := by
  by_cases hne : p ≠ (k.thread a).currentPriority
  · refine ⟨(k.thread a).setPriority c p, Thread.setPriority_stat .., Thread.setPriority_ranked hp,
      Thread.setPriority_currentPriority .., ?_⟩
    rw [if_pos hne, rtThreadChangePriority, if_neg ((h.placed a).current hcur).1]
  · refine ⟨k.thread a, rfl, h.ranked a, (not_not.mp hne).symm, ?_⟩
    rw [if_neg hne, Kernel.setThread, Function.update_eq_self]

end

/-- What the thread that runs must not overlook when it releases its last hold. -/
def Keeps (k : Kernel Tid Mid) (m : Mid) : Prop :=
  k.suspendThread m ≠ [] ∨
    ∀ t, (k.thread t).stat = .ready → (k.mutex m).originalPriority ≤ (k.thread t).currentPriority

section
variable (h : Inv c k) (hcur : k.currentThread = some a)
include h hcur

omit [DecidableEq Mid] in
theorem preempts_lowered {u : Thread}
    (hstat : u.stat = (k.thread a).stat) (hthread : k'.thread = (k.setThread a u).thread)
    (hcur' : k'.currentThread = some a) :
    Preempts k' ↔ ∀ t, (k.thread t).stat = .ready → u.currentPriority ≤ (k.thread t).currentPriority := by
  have hnot : (k.thread a).stat ≠ .ready := ((h.placed a).current hcur).1
  constructor
  · intro hpre t ht
    have hta : t ≠ a := by
      rintro rfl
      exact hnot ht
    have hle := hpre a t hcur'
    rw [hthread, thread_setThread_self, thread_setThread_of_ne hta] at hle
    exact hle ht
  · intro hall cur t hc ht
    obtain rfl : cur = a := some.inj (hc.symm.trans hcur')
    have hta : t ≠ cur := by
      rintro rfl
      rw [hthread, thread_setThread_self, hstat] at ht
      exact hnot ht
    rw [hthread, thread_setThread_of_ne hta] at ht
    rw [hthread, thread_setThread_self, thread_setThread_of_ne hta]
    exact hall t ht

theorem releaseLast_spec (hown : (k.mutex m).owner = some a) (hhold : (k.mutex m).hold = 0) :
    ∃ k' r, releaseLast c k m a = some (k', r) ∧ Inv c k' ∧
      (k.schedulerLockNest = 0 → (Preempts k' ↔ Keeps k m)) := by
  have hok := h.mutexes m
  obtain ⟨u, hstat, hranked, hprio, hlow⟩ := lowered h hcur (hok.original a hown)
  unfold releaseLast
  simp only [hlow]
  have h2 : Inv c (k.setThread a u) := h.setThread hstat hranked (.inr ((h.placed a).current hcur).1)
  cases hlist : k.suspendThread m with
  | cons waiter l =>
    have hless : (k.mutex m).hold < rtMutexHoldMax := by
      rw [hhold]
      decide
    rw [show (k.setThread a u).suspendThread m = waiter :: l from hlist]
    simp only [if_pos hless]
    set k3 := (k.setThread a u).setMutex m { k.mutex m with
      owner := some waiter
      originalPriority := ((k.setThread a u).thread waiter).currentPriority
      hold := (k.mutex m).hold + 1 } with hk3
    have h3 : Inv c (rtThreadResume c k3 waiter).1 :=
      rtThreadResume_inv (h2.setMutex ⟨fun _ _ => (h2.ranked waiter).lt, Nat.succ_lt_succ hless⟩) waiter
    obtain ⟨hcur3, hlock3⟩ := currentThread_resume (c := c) (k := k3) (t := waiter)
    obtain ⟨k4, hs, hdone⟩ := rtSchedule_spec h3 (hcur3.trans hcur)
    rw [hs]
    refine ⟨_, _, rfl, hdone.inv, fun hlock => ?_⟩
    refine iff_of_true (hdone.preempts (hlock3.trans hlock)) (.inl ?_)
    rw [hlist]
    exact List.cons_ne_nil _ _
  | nil =>
    have hkeeps : Keeps k m ↔
        ∀ t, (k.thread t).stat = .ready → u.currentPriority ≤ (k.thread t).currentPriority := by
      rw [Keeps, hlist, hprio]
      simp
    rw [show (k.setThread a u).suspendThread m = [] from hlist]
    simp only
    split
    · refine ⟨_, _, rfl, h2.setMutex ⟨fun _ hno => absurd hno (by simp), hok.hold_lt⟩, fun _ => ?_⟩
      exact (preempts_lowered h hcur hstat rfl hcur).trans hkeeps.symm
    · refine ⟨_, _, rfl, h2, fun _ => ?_⟩
      exact (preempts_lowered h hcur hstat rfl hcur).trans hkeeps.symm

/-- **A release returns, keeps the invariant, and keeps the preemption just in case.** -/
theorem rtMutexRelease_spec (hown : (k.mutex m).owner = some a) :
    ∃ k' r, rtMutexRelease c k m = some (k', r) ∧ Inv c k' ∧
      (k.schedulerLockNest = 0 → Preempts k → (Preempts k' ↔ (k.mutex m).hold ≠ 1 ∨ Keeps k m)) := by
  have hok := h.mutexes m
  set v : RtMutex Tid := { k.mutex m with hold := ((k.mutex m).hold + 255) % 256 } with hv
  have hself : (k.setMutex m v).mutex m = v := Function.update_self ..
  have hgo : rtMutexRelease c k m =
      if v.hold = 0 then releaseLast c (k.setMutex m v) m a else some (k.setMutex m v, .eok) := by
    rw [rtMutexRelease, hcur]
    simp only [bind, bind_some]
    rw [if_neg (not_not.mpr hown), hself]
  rw [hgo]
  have h1 : Inv c (k.setMutex m v) := h.setMutex ⟨hok.original, Nat.mod_lt _ (by decide)⟩
  by_cases hhold : v.hold = 0
  · have hone : (k.mutex m).hold = 1 := by
      have hlt := hok.hold_lt
      change ((k.mutex m).hold + 255) % 256 = 0 at hhold
      omega
    rw [if_pos hhold]
    obtain ⟨k', r, hs, hinv, hiff⟩ := releaseLast_spec (m := m) h1 hcur (by rw [hself]; exact hown)
      (by rw [hself]; exact hhold)
    refine ⟨k', r, hs, hinv, fun hlock _ => (hiff hlock).trans ?_⟩
    rw [Keeps, Keeps, hself, hone]
    exact ⟨.inr, fun hor => hor.resolve_left fun hno => hno rfl⟩
  · rw [if_neg hhold]
    refine ⟨_, _, rfl, h1, fun _ hpre => iff_of_true hpre (.inl fun hone => hhold ?_)⟩
    change ((k.mutex m).hold + 255) % 256 = 0
    rw [hone]

end

theorem rtMutexRelease_inv (h : Inv c k) {r : RtErr} (hs : rtMutexRelease c k m = some (k', r)) : Inv c k' := by
  cases hcur : k.currentThread with
  | none =>
    rw [rtMutexRelease, hcur] at hs
    cases hs
  | some a =>
    by_cases hown : (k.mutex m).owner = some a
    · obtain ⟨k1, r1, h1, hinv, _⟩ := rtMutexRelease_spec h hcur hown
      rw [hs] at h1
      cases h1
      exact hinv
    · rw [rtMutexRelease, hcur] at hs
      simp only [bind, bind_some, ne_eq, hown, not_false_eq_true, if_true] at hs
      cases hs
      exact h.touch a _ .error _

/-! ## Runs -/

omit [DecidableEq Tid] [DecidableEq Mid] in
theorem initial_inv {priority : Tid → Nat} (h : ∀ t, priority t < c.priorityMax) :
    Inv c (initial priority : Kernel Tid Mid) := by
  have hbits {w : Nat} (lists : Nat → List Tid) (hl : ∀ p, lists p = []) : Lib.Bits.Recorded (0 : BitVec w) lists := by
    intro p _
    simp [hl p]
  have hplaced : ∀ t, Placed (initial priority : Kernel Tid Mid) t := by
    intro t
    constructor
    · exact iff_of_false ThreadStat.noConfusion (by simp [initial])
    · simp [initial]
    · exact fun hrun => ThreadStat.noConfusion hrun
    · simp [initial]
  exact { ok := ⟨fun t l => by simp [initial], fun _ => List.nodup_nil⟩
          records := ⟨fun _ => hbits _ fun _ => rfl, fun _ n _ => hbits _ fun _ => rfl, fun _ n _ => by simp [initial]⟩
          own := fun t p => by simp [initial]
          ranked := fun t => ⟨h t, fun hno => absurd rfl hno⟩
          placed := hplaced
          mutexes := fun m => ⟨fun t => by simp [initial, rtMutexInit], show 0 < 256 by decide⟩ }

theorem step_inv {a : Act Tid Mid} (h : Inv c k) (hs : step c k a = some k') : Inv c k' := by
  cases a with
  | startup t => exact rtThreadStartup_inv h hs
  | start =>
    obtain ⟨_, hcur, hs⟩ := bind_eq_some_iff.mp hs
    exact rtSystemSchedulerStart_inv h (of_rtAssert hcur) hs
  | yield =>
    obtain ⟨t, ht, hs⟩ := bind_eq_some_iff.mp hs
    exact rtSchedule_inv (h.touch t true _ _) (by change k.currentThread ≠ none; rw [ht]; simp) hs
  | take m time =>
    obtain ⟨t, ht, hs⟩ := bind_eq_some_iff.mp hs
    obtain ⟨_, hrun, hs⟩ := bind_eq_some_iff.mp hs
    obtain ⟨⟨k1, r⟩, htake, rfl⟩ := map_eq_some_iff.mp hs
    exact rtMutexTake_inv h ht (of_rtAssert hrun) htake
  | release m =>
    obtain ⟨⟨k1, r⟩, hrel, rfl⟩ := map_eq_some_iff.mp hs
    exact rtMutexRelease_inv h hrel
  | timeout t =>
    obtain ⟨_, _, hs⟩ := bind_eq_some_iff.mp hs
    obtain ⟨_, hcur, hs⟩ := bind_eq_some_iff.mp hs
    obtain ⟨_, hst, hs⟩ := bind_eq_some_iff.mp hs
    have h1 := h.touch t (k.thread t).yield .etimeout false
    refine rtSchedule_inv (h1.enqueue ?_) ?_ hs
    · rw [thread_setThread_self]
      exact of_rtAssert hst
    · rw [currentThread_insert.1]
      exact of_rtAssert hcur
  | suspend timer =>
    obtain ⟨t, ht, hs⟩ := bind_eq_some_iff.mp hs
    have h1 := rtThreadSuspend_inv h ht
    obtain rfl := some.inj hs
    split
    · exact h1.touch t _ _ timer
    · exact h1
  | resume t =>
    obtain rfl := some.inj hs
    exact rtThreadResume_inv h t
  | changePriority t p =>
    obtain ⟨_, hp, hs⟩ := bind_eq_some_iff.mp hs
    obtain rfl := some.inj hs
    exact rtThreadChangePriority_inv h t (of_rtAssert hp)
  | exit =>
    obtain ⟨t, ht, hs⟩ := bind_eq_some_iff.mp hs
    simp only [thread_remove] at hs
    refine rtSchedule_inv (h.stop ht (.inr rfl)) ?_ hs
    change (rtScheduleRemoveThread c k t).currentThread ≠ none
    rw [currentThread_remove, ht]
    simp
  | enterCritical =>
    obtain rfl := some.inj hs
    exact h.build rfl (h.toQueues.congr rfl rfl rfl) fun x => (h.placed x).congr rfl rfl Iff.rfl
  | exitCritical =>
    have h1 : Inv c { k with schedulerLockNest := k.schedulerLockNest - 1 } :=
      h.build rfl (h.toQueues.congr rfl rfl rfl) fun x => (h.placed x).congr rfl rfl Iff.rfl
    simp only [step, rtExitCritical] at hs
    split at hs
    · split at hs
      · cases hs
        exact h1
      · rename_i hcur
        exact rtSchedule_inv h1 hcur hs
    · cases hs
      exact h1
  | schedule =>
    obtain ⟨_, hcur, hs⟩ := bind_eq_some_iff.mp hs
    exact rtSchedule_inv h (of_rtAssert hcur) hs

theorem Reachable.inv (h : Reachable c k) : Inv c k := by
  induction h with
  | init hp => exact initial_inv hp
  | step _ hs ih => exact step_inv ih hs

/-- **When `rt_mutex_release` preserves preemption.** If the owner runs and is at least as urgent as every
`READY` thread, this holds of the thread that runs after the release exactly if the release is not the last one,
or a thread waits for the mutex, or no `READY` thread is more urgent than the priority that the owner goes back
to. -/
theorem rtMutexRelease_preempts_iff (h : Reachable c k) (hlock : k.schedulerLockNest = 0) (hpre : Preempts k)
    (hcur : k.currentThread = some a) (hown : (k.mutex m).owner = some a) :
    (∃ k' r, rtMutexRelease c k m = some (k', r) ∧ Preempts k') ↔
      (k.mutex m).hold ≠ 1 ∨ k.suspendThread m ≠ [] ∨
        ∀ t, (k.thread t).stat = .ready → (k.mutex m).originalPriority ≤ (k.thread t).currentPriority := by
  obtain ⟨k', r, hrel, _, hiff⟩ := rtMutexRelease_spec h.inv hcur hown
  rw [← Keeps, ← hiff hlock hpre]
  constructor
  · rintro ⟨k1, r1, h1, hpre1⟩
    rw [hrel] at h1
    cases h1
    exact hpre1
  · intro hpre'
    exact ⟨k', r, hrel, hpre'⟩

/-! ## A waiting thread that leaves by its timeout -/

def smallBoard : Board := ⟨32, by decide⟩

/-- A thread of priority 20 and one of priority 5. -/
def smallPriority (t : Bool) : Nat := if t then 20 else 5

/-- The less urgent thread takes the mutex, the other one waits for it with a timer. -/
def lent : List (Act Bool Unit) := [.startup true, .start, .take () (-1), .startup false, .take () 10]

theorem exists_reachable (as : List (Act Bool Unit)) (p : Kernel Bool Unit → Prop) [DecidablePred p]
    (h : (calls smallBoard (initial smallPriority) as).any (fun k => decide (p k)) = true) :
    ∃ k, Reachable smallBoard k ∧ p k := by
  obtain ⟨k, hk, hp⟩ := (Option.any_eq_true _ _).mp h
  have hinit : Reachable smallBoard (initial smallPriority : Kernel Bool Unit) := .init (by decide)
  exact ⟨k, hinit.calls hk, of_decide_eq_true hp⟩

theorem preempts_two {k : Kernel Bool Unit} {current : Bool} (hcur : k.currentThread = some current)
    (hself : (k.thread current).stat ≠ .ready)
    (hp : (k.thread !current).stat = .ready →
      (k.thread current).currentPriority ≤ (k.thread !current).currentPriority) : Preempts k := by
  intro cur t hc ht
  obtain rfl : current = cur := some.inj (hcur.symm.trans hc)
  by_cases htc : t = current
  · rw [htc] at ht
    exact absurd ht hself
  · obtain rfl : t = !current := by cases t <;> cases current <;> simp at htc ⊢
    exact hp ht

/-- While the other thread waits, the release preserves preemption. -/
theorem rtMutexRelease_preempts_lent : ∃ k : Kernel Bool Unit, Reachable smallBoard k ∧
    ∃ k' r, rtMutexRelease smallBoard k () = some (k', r) ∧ Preempts k' := by
  obtain ⟨k, hk, hcur, hself, hp, hlock, hown, hwaits⟩ := exists_reachable lent
    (fun k => k.currentThread = some true ∧ (k.thread true).stat ≠ .ready ∧
      ((k.thread !true).stat = .ready → (k.thread true).currentPriority ≤ (k.thread !true).currentPriority) ∧
      k.schedulerLockNest = 0 ∧ (k.mutex ()).owner = some true ∧ k.suspendThread () ≠ []) (by decide +kernel)
  exact ⟨k, hk, (rtMutexRelease_preempts_iff hk hlock (preempts_two hcur hself hp) hcur hown).mpr (.inr (.inl hwaits))⟩

/-- **Once the waiting thread has left by its timeout**, the release lowers the thread that
runs below a `READY` thread and lets it run on. -/
theorem rtMutexRelease_loses_preemption :
    ¬ ∀ (c : Board) (k : Kernel Bool Unit) (a : Bool) (m : Unit), Reachable c k → k.schedulerLockNest = 0 →
      Preempts k → k.currentThread = some a → (k.mutex m).owner = some a →
      ∃ k' r, rtMutexRelease c k m = some (k', r) ∧ Preempts k' := by
  intro hall
  obtain ⟨k, hk, hcur, hself, hp, hlock, hown, hrel⟩ := exists_reachable (lent ++ [.timeout false])
    (fun k => k.currentThread = some true ∧ (k.thread true).stat ≠ .ready ∧
      ((k.thread !true).stat = .ready → (k.thread true).currentPriority ≤ (k.thread !true).currentPriority) ∧
      k.schedulerLockNest = 0 ∧ (k.mutex ()).owner = some true ∧
      (rtMutexRelease smallBoard k ()).all (fun r => decide (r.1.currentThread = some true ∧
        (r.1.thread false).stat = .ready ∧ (r.1.thread false).currentPriority < (r.1.thread true).currentPriority)) =
        true) (by decide +kernel)
  obtain ⟨k', r, hk', hpre⟩ := hall smallBoard k true () hk hlock (preempts_two hcur hself hp) hcur hown
  rw [hk'] at hrel
  obtain ⟨hcur', hready, hlt⟩ := of_decide_eq_true hrel
  exact absurd (hpre true false hcur' hready) (Nat.not_le.mpr hlt)

end RtosKernel.RtThread.Mutex
