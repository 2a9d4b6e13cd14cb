import RtosKernel.RtThread.MutexPreempt

/-! # The ready lists, the bitmap and `rt_schedule`

What the scheduler's own lookup relies on, in every state that calls reach: the bitmap
tells which lists have a thread, and the lists tell which threads are `READY`. -/
namespace RtosKernel.RtThread.Mutex
open Lib.Containers RtThread.Def RtThread.Scheduler Option

variable {Tid Mid : Type} [DecidableEq Tid] [DecidableEq Mid]
variable {c : Board} {k k' : Kernel Tid Mid} {t : Tid}

/-- The bit of a priority, in the group or, with two levels, in the table. -/
def priorityBit (c : Board) (m : ReadyMap) (p : Nat) : Bool :=
  if c.twoLevel then (m.table (p / 8)).getLsbD (p % 8) else m.group.getLsbD p

/-- **The ready structure agrees with the threads.** -/
structure ReadyExact (c : Board) (k : Kernel Tid Mid) : Prop where
  bit : ∀ p < c.priorityMax, priorityBit c k.map p = true ↔ k.ready p ≠ []
  group : c.twoLevel = true → ∀ n < 32, k.map.group.getLsbD n = true ↔ ∃ b < 8, k.ready (8 * n + b) ≠ []
  mem : ∀ t p, t ∈ k.ready p ↔ (k.thread t).stat = .ready ∧ (k.thread t).currentPriority = p
  once : ∀ p, (k.ready p).Nodup
  running : ∀ t, (k.thread t).stat = .running → k.currentThread = some t ∧ k.lists.container t = none
  current : ∀ t, k.currentThread = some t → ∀ p, t ∉ k.ready p

omit [DecidableEq Tid] [DecidableEq Mid] in
theorem readyExact_of_inv (h : Inv c k) : ReadyExact c k where
  bit p hp := by
    obtain ⟨hlow, hhigh⟩ := c.le_span hp
    unfold priorityBit
    cases h2 : c.twoLevel with
    | false => exact h.records.low h2 p (hlow h2)
    | true =>
      rw [if_pos rfl, h.records.high h2 (p / 8) hhigh (p % 8) (Nat.mod_lt _ (by decide))]
      simp only [Nat.div_add_mod]
  group h2 n hn := by
    rw [h.records.group h2 n hn]
    have htable := h.records.high h2 n hn
    constructor
    · intro hne
      by_contra hno
      push Not at hno
      refine hne (BitVec.eq_of_getLsbD_eq fun b hb => ?_)
      rw [BitVec.getLsbD_zero, Bool.eq_false_iff]
      exact fun hbit => (htable b hb).mp hbit (hno b hb)
    · rintro ⟨b, hb, hne⟩ hz
      have hbit := (htable b hb).mpr hne
      rw [hz, BitVec.getLsbD_zero] at hbit
      cases hbit
  mem _ _ := h.mem_ready
  once p := h.ok.nodup (.ready p)
  running t hrun := ⟨(h.placed t).running hrun, (h.placed t).none_of_running hrun⟩
  current t hcur p hmem := ((h.placed t).current hcur).1 (h.mem_ready.mp hmem).1

/-- The thread that `rt_schedule` chooses runs, unless there is none to choose. -/
theorem rtSchedule_running (h : Inv c k) (hs : rtSchedule c k = some k') (hlock : k.schedulerLockNest = 0)
    (hactive : ∃ t, (k.thread t).stat = .ready ∨ (k.thread t).stat = .running) :
    ∃ current, k'.currentThread = some current ∧ (k'.thread current).stat = .running := by
  unfold rtSchedule at hs
  split at hs
  · obtain ⟨a, ha, hs⟩ := bind_eq_some_iff.mp hs
    obtain ⟨b, -, hs⟩ := bind_eq_some_iff.mp hs
    have hstay (k : Kernel Tid Mid) (hcur : k.currentThread = some a) :
        ((rtScheduleRemoveThread c k a).setStat a .running).currentThread = some a ∧
          (((rtScheduleRemoveThread c k a).setStat a .running).thread a).stat = .running := by
      refine ⟨currentThread_remove.trans hcur, ?_⟩
      rw [Kernel.setStat, thread_setThread_self]
    have hswitch (k : Kernel Tid Mid) (p : Nat) (need : Bool) (hne : b ≠ a) :
        (switchTo c k a b p need).currentThread = some b ∧ ((switchTo c k a b p need).thread b).stat = .running := by
      refine ⟨switchTo_current need hne, ?_⟩
      rw [switchTo, Kernel.setStat, thread_setThread_self]
    dsimp only at hs
    split at hs
    · split at hs <;> rename_i hcase <;> cases hs
      · exact ⟨a, hstay _ ha⟩
      · exact ⟨b, hswitch _ _ _ fun hba => hcase (.inr (.inr hba))⟩
    · split at hs <;> rename_i hcase <;> cases hs
      · exact ⟨a, hstay _ ha⟩
      · exact ⟨b, hswitch _ _ _ hcase⟩
  · rename_i hno
    cases hs
    obtain ⟨t, hready | hrun⟩ := hactive
    · exact absurd hready (h.none_ready (not_not.mp fun hne => hno ⟨hlock, hne⟩))
    · exact ⟨t, (h.placed t).running hrun, hrun⟩

/-- **The ready structure is exact in every state that calls reach**, and `rt_schedule`
then leaves it so, with the most urgent thread running. -/
theorem ready_lists_exact (h : Reachable c k) : ReadyExact c k ∧
    (k.currentThread ≠ none → ∃ k', rtSchedule c k = some k' ∧ ReadyExact c k' ∧
      (k.schedulerLockNest = 0 → (∃ t, (k.thread t).stat = .ready ∨ (k.thread t).stat = .running) →
        ∃ current, k'.currentThread = some current ∧ (k'.thread current).stat = .running ∧
          ∀ t, (k'.thread t).stat = .ready → (k'.thread current).currentPriority ≤ (k'.thread t).currentPriority)) := by
  refine ⟨readyExact_of_inv h.inv, fun hcur => ?_⟩
  obtain ⟨a, ha⟩ := ne_none_iff_exists'.mp hcur
  obtain ⟨k', hs, hdone⟩ := rtSchedule_spec h.inv ha
  refine ⟨k', hs, readyExact_of_inv hdone.inv, fun hlock hactive => ?_⟩
  obtain ⟨current, hcur', hrun⟩ := rtSchedule_running h.inv hs hlock hactive
  exact ⟨current, hcur', hrun, fun t ht => hdone.preempts hlock current t hcur' ht⟩

/-- A thread becomes more urgent than the one that runs while the scheduler is locked. -/
theorem ready_lists_exact_two : ∃ k : Kernel Bool Unit, Reachable smallBoard k ∧ k.ready 3 = [false] ∧
    ReadyExact smallBoard k ∧ ∃ k', rtSchedule smallBoard k = some k' ∧ ReadyExact smallBoard k' := by
  obtain ⟨k, hk, hready, hcur⟩ := exists_reachable
    [.startup true, .start, .enterCritical, .startup false, .changePriority false 3]
    (fun k => k.ready 3 = [false] ∧ k.currentThread ≠ none) (by decide +kernel)
  obtain ⟨hexact, hsched⟩ := ready_lists_exact hk
  obtain ⟨k', hs, hexact', -⟩ := hsched hcur
  exact ⟨k, hk, hready, hexact, k', hs, hexact'⟩

end RtosKernel.RtThread.Mutex
