import RtosKernel.FreeRTOS.Delays

/-! # Delayed tasks wake on time

Each tick takes one from the ticks a delayed task has left, also when the count
overflows and the two lists change places. With the last one the task is in its
ready list, and nothing else that happens in between makes it ready. -/
namespace RtosKernel.FreeRTOS.Tasks
open Lib.Word Lib.Containers FreeRTOS.Def Option

variable {Tid Mid : Type} [dT : DecidableEq Tid] [dM : DecidableEq Mid] {c : Config} {k k' : Kernel Tid Mid} {t : Tid} {r : Nat}

/-! ## A task leaves its lists -/

theorem unblock_delayed (b : Bool) :
    (unblock k t).states.items (.delayed b) = (k.states.remove t).items (.delayed b) :=
  items_put_of_ne _ (by simp)

theorem mem_unblock_delayed (h : k.states.Ok) {x : Tid} {b : Bool} :
    x ∈ (unblock k t).states.items (.delayed b) ↔ x ≠ t ∧ x ∈ k.states.items (.delayed b) := by
  rw [unblock_delayed, mem_items_remove h]

theorem TimesOk.unblock (h : TimesOk c k) (t : Tid) : TimesOk c (unblock k t) where
  states := (h.states.remove t).pushBack container_remove_self
  events := h.events.remove t
  apart x hx := by
    show (k.events.remove t).container x = none
    by_cases hxt : x = t
    · subst hxt; exact container_remove_self
    · rw [container_remove_of_ne hxt]
      obtain ⟨p, hp⟩ := hx
      exact h.apart x ⟨p, ((container_put_of_ne _ hxt).trans (container_remove_of_ne hxt)).symm.trans hp⟩
  tick_lt := h.tick_lt
  sorted b := by
    exact List.Pairwise.sublist items_remove_sublist (h.sorted b)
  wake_lt b x hx := h.wake_lt b x ((mem_unblock_delayed h.states).mp hx).2
  overflow_lt x hx := h.overflow_lt x ((mem_unblock_delayed h.states).mp hx).2

theorem DelayOk.unblock (h : DelayOk c k) (t : Tid) : DelayOk c (unblock k t) where
  toTimesOk := h.toTimesOk.unblock t
  now_lt x hx := h.now_lt x ((mem_unblock_delayed h.states).mp hx).2
  next_le x hx := h.next_le x ((mem_unblock_delayed h.states).mp hx).2

/-! ## The tick -/

/-- What the loop of the tick does: the tasks whose time has come are ready. -/
structure Expired (c : Config) (k k' : Kernel Tid Mid) : Prop where
  ok : DelayOk c k'
  tcb : k'.tcb = k.tcb
  tick : k'.xTickCount = k.xTickCount
  list : k'.pxDelayedTaskList = k.pxDelayedTaskList
  events : ∀ x, k.events.container x = none → k'.events.container x = none
  ready : ∀ p, ∀ x ∈ k.ready p, x ∈ k'.ready p
  due : ∀ x ∈ k.delayed, k.wake x ≤ k.xTickCount → x ∈ k'.ready (k.tcb x).uxPriority
  stay : ∀ x ∈ k.delayed, k.xTickCount < k.wake x → x ∈ k'.delayed
  overflow : ∀ x ∈ k.overflowDelayed, x ∈ k'.overflowDelayed

omit dT dM in
theorem TimesOk.expired_none (h : TimesOk c k) {n : Nat} (hnow : ∀ x ∈ k.delayed, k.xTickCount < k.wake x)
    (hn : ∀ x ∈ k.delayed, n ≤ k.wake x) : Expired c k { k with xNextTaskUnblockTime := n } where
  ok := ⟨⟨h.states, h.events, h.apart, h.tick_lt, h.sorted, h.wake_lt, h.overflow_lt⟩, hnow, hn⟩
  tcb := rfl
  tick := rfl
  list := rfl
  events _ hx := hx
  ready _ _ hx := hx
  due x hx hle := absurd (hnow x hx) (by omega)
  stay _ hx _ := hx
  overflow _ hx := hx

theorem Expired.unblock (h : TimesOk c k) (ht : t ∈ k.delayed) (hdue : k.wake t ≤ k.xTickCount)
    (hgo : Expired c (Tasks.unblock k t) k') : Expired c k k' where
  ok := hgo.ok
  tcb := hgo.tcb
  tick := hgo.tick
  list := hgo.list
  events x hx := by
    refine hgo.events x ?_
    show (k.events.remove t).container x = none
    by_cases hxt : x = t
    · subst hxt; exact container_remove_self
    · rw [container_remove_of_ne hxt]; exact hx
  ready p x hx := by
    refine hgo.ready p x (mem_items_pushBack.mpr (.inr ?_))
    have hne : x ≠ t := fun he => by
      subst he
      have := (h.states.mem_iff x _).mp hx
      rw [(h.states.mem_iff x _).mp ht] at this
      cases this
    exact (mem_items_remove h.states).mpr ⟨hne, hx⟩
  due x hx hle := by
    by_cases hxt : x = t
    · subst hxt
      exact hgo.ready _ x (mem_items_pushBack.mpr (.inl ⟨rfl, rfl⟩))
    · exact hgo.due x ((mem_unblock_delayed h.states).mpr ⟨hxt, hx⟩) hle
  stay x hx hlt := by
    have hne : x ≠ t := fun he => by subst he; omega
    exact hgo.stay x ((mem_unblock_delayed h.states).mpr ⟨hne, hx⟩) hlt
  overflow x hx := by
    have hne : x ≠ t := fun he => by
      subst he
      have := (h.states.mem_iff x _).mp hx
      rw [(h.states.mem_iff x _).mp ht] at this
      simp at this
    exact hgo.overflow x ((mem_unblock_delayed h.states).mpr ⟨hne, hx⟩)

theorem unblockExpired_spec {fuel : Nat} (h : TimesOk c k) (hfuel : k.delayed.length < fuel) :
    Expired c k (unblockExpired c fuel k) := by
  induction fuel generalizing k with
  | zero => omega
  | succ fuel ih =>
    rw [unblockExpired]
    split
    · rename_i hnil
      exact h.expired_none (by simp [hnil]) (by simp [hnil])
    · rename_i t l hcons
      have hmem : t ∈ k.delayed := hcons ▸ List.mem_cons_self ..
      have hsorted := h.sorted k.pxDelayedTaskList
      rw [show k.states.items (.delayed k.pxDelayedTaskList) = t :: l from hcons] at hsorted
      have hhead : ∀ x ∈ k.delayed, k.wake t ≤ k.wake x := by
        intro x hx
        rw [hcons] at hx
        rcases List.mem_cons.mp hx with rfl | hx
        · exact le_refl _
        · exact (List.pairwise_cons.mp hsorted).1 x hx
      split
      · rename_i hlt
        exact h.expired_none (fun x hx => lt_of_lt_of_le hlt (hhead x hx)) hhead
      · rename_i hge
        refine Expired.unblock h hmem (Nat.le_of_not_lt hge) (ih (h.unblock t) ?_)
        have hlist : (unblock k t).delayed = l := by
          show (unblock k t).states.items (.delayed k.pxDelayedTaskList) = l
          rw [unblock_delayed, items_remove_self ((h.states.mem_iff t _).mp hmem)]
          rw [show k.states.items (.delayed k.pxDelayedTaskList) = t :: l from hcons, List.erase_cons_head]
        rw [hlist]
        rw [hcons, List.length_cons] at hfuel
        omega

omit dT dM in
theorem DelayOk.delayed_nil (h : DelayOk c k) (htick : k.xTickCount = 2 ^ c.tickBits - 1) : k.delayed = [] := by
  refine List.eq_nil_iff_forall_not_mem.mpr fun x hx => ?_
  have hnow := h.now_lt x hx
  have hlt := h.wake_lt _ x hx
  omega

/-- The count goes on, and the lists change places at the overflow. -/
structure Counted (c : Config) (k k' : Kernel Tid Mid) : Prop where
  ok : TimesOk c k'
  tcb : k'.tcb = k.tcb
  events : k'.events = k.events
  tick : k'.xTickCount = addw c.tickBits k.xTickCount 1
  next_le : ∀ x ∈ k'.delayed, k'.xNextTaskUnblockTime ≤ k'.wake x
  ready : k'.ready = k.ready
  /-- with one tick less to wait, but not yet out of the lists -/
  waits : ∀ x r, WaitsFor c k x (r + 1) →
    (x ∈ k'.delayed ∧ k'.wake x = k'.xTickCount + r) ∨
      (x ∈ k'.overflowDelayed ∧ k'.wake x + 2 ^ c.tickBits = k'.xTickCount + r)

omit dT dM in
theorem countTick_spec (h : DelayOk c k) : ∃ k', countTick c k = some k' ∧ Counted c k k' := by
  have hlt := h.tick_lt
  rcases Nat.lt_or_ge (k.xTickCount + 1) (2 ^ c.tickBits) with hsmall | hover
  · have hadd : addw c.tickBits k.xTickCount 1 = k.xTickCount + 1 := addw_of_lt hsmall
    refine ⟨{ k with xTickCount := k.xTickCount + 1 }, by simp [countTick, hadd], ?_⟩
    refine ⟨⟨h.states, h.events, h.apart, hsmall, h.sorted, h.wake_lt, fun x hx => ?_⟩, rfl, rfl, hadd.symm, h.next_le,
      rfl, fun x r hx => ?_⟩
    · exact Nat.lt_succ_of_lt (h.overflow_lt x hx)
    · show (_ ∧ k.wake x = k.xTickCount + 1 + r) ∨ (_ ∧ k.wake x + _ = k.xTickCount + 1 + r)
      rw [Nat.add_right_comm, Nat.add_assoc]
      exact hx
  · have hlast : k.xTickCount = 2 ^ c.tickBits - 1 := by omega
    have hadd : addw c.tickBits k.xTickCount 1 = 0 := by
      rw [addw, show k.xTickCount + 1 = 2 ^ c.tickBits by omega, Nat.mod_self]
    have hnil := h.delayed_nil hlast
    have hflip : (!(!k.pxDelayedTaskList)) = k.pxDelayedTaskList := Bool.not_not _
    refine ⟨prvResetNextTaskUnblockTime c { k with xTickCount := 0, pxDelayedTaskList := !k.pxDelayedTaskList }, ?_, ?_⟩
    · simp only [countTick, hadd, if_true, taskSwitchDelayedLists]
      rw [configAssert_of (show ({ k with xTickCount := 0 } : Kernel Tid Mid).delayed = [] from hnil)]
      rfl
    · refine ⟨⟨h.states, h.events, h.apart, Nat.two_pow_pos _, h.sorted, h.wake_lt, fun x hx => ?_⟩, rfl, rfl, hadd.symm,
        fun x hx => ?_, rfl, fun x r hx => ?_⟩
      · have hx : x ∈ k.states.items (.delayed (!(!k.pxDelayedTaskList))) := hx
        rw [hflip] at hx
        rw [Kernel.delayed] at hnil
        rw [hnil] at hx
        cases hx
      · have hx : x ∈ k.states.items (.delayed (!k.pxDelayedTaskList)) := hx
        have hsorted := h.sorted (!k.pxDelayedTaskList)
        unfold prvResetNextTaskUnblockTime Kernel.delayed
        dsimp only
        split
        · rename_i hempty
          rw [hempty] at hx
          cases hx
        · rename_i t l hcons
          rw [hcons] at hx hsorted
          rcases List.mem_cons.mp hx with rfl | hx
          · exact le_refl _
          · exact (List.pairwise_cons.mp hsorted).1 x hx
      · left
        rcases hx with ⟨hx, _⟩ | ⟨hx, hw⟩
        · rw [hnil] at hx
          cases hx
        · refine ⟨hx, ?_⟩
          show k.wake x = 0 + r
          omega

/-- What a tick does to the tasks that wait. -/
structure Ticked (c : Config) (k k' : Kernel Tid Mid) : Prop where
  ok : DelayOk c k'
  tick : k'.xTickCount = addw c.tickBits k.xTickCount 1
  events : ∀ x, k.events.container x = none → k'.events.container x = none
  waits : ∀ x r, 0 < r → WaitsFor c k x (r + 1) → WaitsFor c k' x r
  woken : ∀ x, WaitsFor c k x 1 → x ∈ k'.ready (k'.tcb x).uxPriority

theorem xTaskIncrementTick_spec (h : DelayOk c k) : ∃ k', xTaskIncrementTick c k = some k' ∧ Ticked c k k' := by
  obtain ⟨k1, hk1, hc⟩ := countTick_spec h
  have hexp : ∃ k', xTaskIncrementTick c k = some k' ∧ Expired c k1 k' := by
    simp only [xTaskIncrementTick, hk1, map_some]
    refine ⟨_, rfl, ?_⟩
    split
    · exact unblockExpired_spec hc.ok (Nat.lt_succ_self _)
    · rename_i hnext
      have := hc.ok.expired_none (fun x hx => lt_of_lt_of_le (Nat.lt_of_not_le hnext) (hc.next_le x hx)) hc.next_le
      exact this
  obtain ⟨k', hk', he⟩ := hexp
  have hlt := hc.ok.tick_lt
  have hwake : k'.wake = k1.wake := by
    funext x
    rw [Kernel.wake, he.tcb, Kernel.wake]
  refine ⟨k', hk', ⟨he.ok, he.tick.trans hc.tick, fun x hx => he.events x (hc.events ▸ hx), fun x r hr hx => ?_,
    fun x hx => ?_⟩⟩
  · rw [WaitsFor, hwake, he.tick]
    rcases hc.waits x r hx with ⟨hmem, hw⟩ | ⟨hmem, hw⟩
    · exact .inl ⟨he.stay x hmem (by omega), hw⟩
    · exact .inr ⟨he.overflow x hmem, hw⟩
  · rw [he.tcb]
    rcases hc.waits x 0 hx with ⟨hmem, hw⟩ | ⟨hmem, hw⟩
    · exact he.due x hmem (by omega)
    · omega

/-! ## Everything else -/

/-- A task waits for `r` more ticks, and for nothing else. -/
structure Sleeps (c : Config) (k : Kernel Tid Mid) (t : Tid) (r : Nat) : Prop where
  waits : WaitsFor c k t r
  alone : k.events.container t = none

omit dT dM in
theorem Sleeps.mem (h : Sleeps c k t r) : ∃ b, t ∈ k.states.items (.delayed b) := by
  rcases h.waits with ⟨hmem, _⟩ | ⟨hmem, _⟩
  · exact ⟨_, hmem⟩
  · exact ⟨_, hmem⟩

/-- The delayed lists stay in order and nobody who sleeps is disturbed. -/
structure Keeps (c : Config) (k k' : Kernel Tid Mid) : Prop where
  ok : DelayOk c k'
  tick : k'.xTickCount = k.xTickCount
  sleeps : ∀ t r, Sleeps c k t r → Sleeps c k' t r

section
omit dT dM

theorem Keeps.refl (h : DelayOk c k) : Keeps c k k := ⟨h, rfl, fun _ _ hs => hs⟩

theorem Keeps.trans {k'' : Kernel Tid Mid} (h : Keeps c k k') (h' : Keeps c k' k'') : Keeps c k k'' :=
  ⟨h'.ok, h'.tick.trans h.tick, fun t r hs => h'.sleeps t r (h.sleeps t r hs)⟩

theorem SameDelays.keeps (hs : SameDelays k k') (h : DelayOk c k) : Keeps c k k' := by
  refine ⟨h.same hs, hs.tick, fun t r ht => ⟨?_, hs.events ▸ ht.alone⟩⟩
  rw [WaitsFor, hs.delayed_eq, hs.overflow_eq, hs.wake, hs.tick]
  exact ht.waits

end

omit dM in
theorem DelayOk.block_keeps (h : DelayOk c k) (hr : k.IsReady k.pxCurrentTCB) {ev : Lists Mid Tid}
    (hev : SameWaits k.pxCurrentTCB k.events ev) {n : Nat} (hpos : 0 < n) (hn : n < 2 ^ c.tickBits) (b : Bool) :
    Keeps c k (prvAddCurrentTaskToDelayedList c { k with events := ev } n b) := by
  obtain ⟨hevents, _, htick, hlist, hcase⟩ :=
    prvAddCurrentTaskToDelayedList_cases (c := c) (k := { k with events := ev }) n b
  refine ⟨(h.block hr hev hpos hn b).1, htick, fun t r ht => ?_⟩
  obtain ⟨b', hmem⟩ := ht.mem
  have hne : t ≠ k.pxCurrentTCB := fun he => h.not_mem hr b' (he ▸ hmem)
  set k' := prvAddCurrentTaskToDelayedList c { k with events := ev } n b
  have hwake : k'.wake t = k.wake t := by
    rcases hcase with ⟨_, hwake, _, _⟩ | ⟨hwake, _, _⟩
    · rw [hwake]; rfl
    · rw [hwake]; exact Function.update_of_ne hne _ _
  have hstay : ∀ b, t ∈ k.states.items (.delayed b) → t ∈ k'.states.items (.delayed b) := by
    intro b hb
    have hrem : t ∈ (k.states.remove k.pxCurrentTCB).items (.delayed b) := (mem_items_remove h.states).mpr ⟨hne, hb⟩
    rcases hcase with ⟨_, _, _, hs⟩ | ⟨_, _, hs⟩
    · rw [hs]
      exact mem_items_pushBack.mpr (.inr hrem)
    · rw [hs]
      exact mem_items_insert.mpr (.inr hrem)
  refine ⟨?_, ?_⟩
  · rw [WaitsFor, Kernel.delayed, Kernel.overflowDelayed, hlist, hwake, htick]
    exact ht.waits.imp (And.imp_left (hstay _)) (And.imp_left (hstay _))
  · rw [hevents]
    exact (hev.container t hne).trans ht.alone

theorem DelayOk.unblock_keeps (h : DelayOk c k) (ht : k.events.container t ≠ none) : Keeps c k (Tasks.unblock k t) := by
  refine ⟨h.unblock t, rfl, fun x r hx => ?_⟩
  have hne : x ≠ t := fun he => ht (he ▸ hx.alone)
  refine ⟨?_, ?_⟩
  · exact hx.waits.imp (And.imp_left fun hm => (mem_unblock_delayed h.states).mpr ⟨hne, hm⟩)
      (And.imp_left fun hm => (mem_unblock_delayed h.states).mpr ⟨hne, hm⟩)
  · show (k.events.remove t).container x = none
    rw [container_remove_of_ne hne]
    exact hx.alone

section DelayUntil
variable {w now prev inc : Nat} (hnow : now < 2 ^ w) (hprev : prev < 2 ^ w) (hinc : inc < 2 ^ w) (hpos : 0 < inc)
include hnow hprev hinc hpos

theorem shouldDelay_iff : shouldDelay now prev (addw w prev inc) = true ↔ subw w now prev < inc := by
  unfold shouldDelay
  rcases Nat.lt_or_ge (prev + inc) (2 ^ w) with hs | hs
  · rw [addw_of_lt hs]
    split
    · rename_i hlt
      rw [subw_of_lt hlt hprev]
      simp only [decide_eq_true_eq]
      omega
    · rename_i hge
      rw [subw_of_le (Nat.le_of_not_lt hge) hnow]
      simp only [decide_eq_true_eq]
      omega
  · rw [addw_of_ge hs hprev hinc]
    split
    · rename_i hlt
      rw [subw_of_lt hlt hprev]
      simp only [decide_eq_true_eq]
      omega
    · rename_i hge
      rw [subw_of_le (Nat.le_of_not_lt hge) hnow]
      simp only [decide_eq_true_eq]
      omega

theorem delayUntil_ticks (hd : subw w now prev < inc) :
    0 < subw w (addw w prev inc) now ∧ subw w (addw w prev inc) now < 2 ^ w ∧
      addw w now (subw w (addw w prev inc) now) = addw w prev inc := by
  have hw := addw_lt w prev inc
  have hne : addw w prev inc ≠ now := by
    rcases Nat.lt_or_ge now prev with hlt | hge
    · rw [subw_of_lt hlt hprev] at hd
      rcases Nat.lt_or_ge (prev + inc) (2 ^ w) with hs | hs
      · rw [addw_of_lt hs]; omega
      · rw [addw_of_ge hs hprev hinc]; omega
    · rw [subw_of_le hge hnow] at hd
      rcases Nat.lt_or_ge (prev + inc) (2 ^ w) with hs | hs
      · rw [addw_of_lt hs]; omega
      · rw [addw_of_ge hs hprev hinc]; omega
  rcases Nat.lt_or_ge (addw w prev inc) now with hlt | hge
  · rw [subw_of_lt hlt hnow]
    refine ⟨by omega, by omega, ?_⟩
    rw [addw_of_ge (by omega) hnow (by omega)]
    omega
  · rw [subw_of_le hge hw]
    refine ⟨by omega, by omega, ?_⟩
    rw [addw_of_lt (by omega)]
    omega

end DelayUntil

/-! ## Runs -/

/-- The ticks that a call is given are of `TickType_t`, and a wait is for at least one. -/
def Event.Fits (c : Config) : Event Tid Mid → Prop
  | .call (.delay d) => d < 2 ^ c.tickBits
  | .call (.delayUntil prev inc) => prev < 2 ^ c.tickBits ∧ inc < 2 ^ c.tickBits
  | .call (.takeWait d) => 0 < d ∧ d < 2 ^ c.tickBits
  | _ => True

instance (e : Event Tid Mid) : Decidable (e.Fits c) := by
  refine e.casesOn (fun _ => instDecidableTrue) instDecidableTrue fun call => ?_
  refine call.casesOn ?_ ?_ ?_ ?_ ?_ ?_ ?_ ?_ <;> intros <;> dsimp only [Event.Fits] <;> infer_instance

section
variable (h : DelayOk c k)
include h

omit dT dM in
theorem SameWaits.refl (t : Tid) : SameWaits t k.events k.events := ⟨h.events, fun _ _ => rfl⟩

omit dM in
theorem vTaskDelay_keeps (hrun : k.Running) {d : Nat} (hd : d < 2 ^ c.tickBits) : Keeps c k (vTaskDelay c k d) := by
  unfold vTaskDelay
  split
  · rename_i hpos
    exact h.block_keeps hrun.isReady (.refl h _) hpos hd false
  · exact .refl h

omit dM in
theorem xTaskDelayUntil_keeps (hrun : k.Running) {prev inc : Nat} (hprev : prev < 2 ^ c.tickBits)
    (hinc : inc < 2 ^ c.tickBits) {r : Kernel Tid Mid × Nat × Bool} (hgo : xTaskDelayUntil c k prev inc = some r) :
    Keeps c k r.1 := by
  obtain ⟨_, hpos, hgo⟩ := bind_eq_some_iff.mp hgo
  have hpos : inc > 0 := of_configAssert hpos
  cases hgo
  simp only
  split
  · rename_i hshould
    have hd := (shouldDelay_iff h.tick_lt hprev hinc hpos).mp hshould
    obtain ⟨hlo, hhi, _⟩ := delayUntil_ticks h.tick_lt hprev hinc hpos hd
    exact h.block_keeps hrun.isReady (.refl h _) hlo hhi false
  · exact .refl h

theorem takeWait_keeps (hrun : k.Running) (m : Mid) {d : Nat} (hpos : 0 < d)
    (hd : d < 2 ^ c.tickBits) : Keeps c k (takeWait c k m d) := by
  simp only [takeWait]
  split
  · have hin : SameDelays k (xTaskPriorityInherit c k (k.mutex m).xMutexHolder).1 :=
      xTaskPriorityInherit_sameDelays _
    set k1 := (xTaskPriorityInherit c k (k.mutex m).xMutexHolder).1
    set k2 := k1.setTaking k1.pxCurrentTCB (some (m, (xTaskPriorityInherit c k (k.mutex m).xMutexHolder).2)) with hk2
    have h2 : SameDelays k k2 := ⟨hin.states, hin.events, hin.ready, hin.delayed, hin.wake, hin.list, hin.tick,
      hin.next, hin.current⟩
    have hok : DelayOk c k2 := h.same h2
    have hready : k2.IsReady k2.pxCurrentTCB := by
      rw [h2.current]
      exact (h2.ready _).mpr hrun.isReady
    refine (h2.keeps h).trans (hok.block_keeps hready ?_ hpos hd true)
    have hnone := hok.apart _ hready
    exact ⟨hok.events.insert hnone, fun x hx => container_put_of_ne _ hx⟩
  · exact .refl h

omit dM in
theorem takeTimeout_keeps {m : Mid} {b : Bool} (hgo : takeTimeout c k m b = some k') : Keeps c k k' := by
  simp only [takeTimeout] at hgo
  split at hgo
  · obtain ⟨k1, hk1, rfl⟩ := map_eq_some_iff.mp hgo
    have h1 : SameDelays k k1 := by
      split at hk1
      · exact vTaskPriorityDisinheritAfterTimeout_sameDelays hk1
      · cases hk1
        exact .refl k
    have h2 : SameDelays k (k1.setTaking k1.pxCurrentTCB none) :=
      ⟨h1.states, h1.events, h1.ready, h1.delayed, h1.wake, h1.list, h1.tick, h1.next, h1.current⟩
    exact h2.keeps h
  · cases hgo
    exact .refl h

theorem xQueueGenericSend_keeps (hrun : k.Running) {m : Mid}
    (hgo : xQueueGenericSend c k m = some k') : Keeps c k k' := by
  simp only [xQueueGenericSend] at hgo
  split at hgo
  · obtain ⟨k1, hk1, rfl⟩ := map_eq_some_iff.mp hgo
    obtain ⟨⟨k2, b⟩, hk2, rfl⟩ := map_eq_some_iff.mp hk1
    have h2 : SameDelays k k2 := xTaskPriorityDisinherit_sameDelays hrun hk2
    have h3 : SameDelays k (k2.setMutex m ⟨(k.mutex m).uxMessagesWaiting + 1, none⟩) :=
      ⟨h2.states, h2.events, h2.ready, h2.delayed, h2.wake, h2.list, h2.tick, h2.next, h2.current⟩
    set k3 := k2.setMutex m ⟨(k.mutex m).uxMessagesWaiting + 1, none⟩
    have h4 := h3.keeps h
    split
    · exact h4
    · rename_i t l hcons
      have hmem : t ∈ k3.events.items m := hcons ▸ List.mem_cons_self ..
      refine h4.trans (h4.ok.unblock_keeps ?_)
      rw [(h4.ok.events.mem_iff t m).mp hmem]
      simp
  · cases hgo
    exact .refl h

theorem call_keeps (hrun : k.Running) {e : Call Mid}
    (hfit : (Event.call e : Event Tid Mid).Fits c) (hgo : call c k e = some k') : Keeps c k k' := by
  cases called hgo with
  | delay hk => exact hk ▸ vTaskDelay_keeps h hrun hfit
  | delayUntil hr hk => exact hk ▸ xTaskDelayUntil_keeps h hrun hfit.1 hfit.2 hr
  | setTaking hk => exact hk ▸ SameDelays.keeps ⟨id, rfl, fun _ => Iff.rfl, fun _ => rfl, rfl, rfl, rfl, rfl, rfl⟩ h
  | takeCheck hk => exact hk ▸ (takeCheck_sameDelays _).keeps h
  | takeWait hk => exact hk ▸ takeWait_keeps h hrun _ hfit.1 hfit.2
  | takeTimeout _ hk => exact takeTimeout_keeps h hk
  | give hk => exact xQueueGenericSend_keeps h hrun hk

theorem step_keeps {e : Event Tid Mid} (hfit : e.Fits c) (htick : e ≠ .tick)
    (hgo : step c k e = some k') : Keeps c k k' := by
  cases e with
  | switchContext t =>
    obtain ⟨_, _, hgo⟩ := bind_eq_some_iff.mp hgo
    split at hgo <;> cases hgo
    refine ⟨⟨⟨h.states, h.events, h.apart, h.tick_lt, h.sorted, h.wake_lt, h.overflow_lt⟩, h.now_lt, h.next_le⟩,
      rfl, fun t r hs => ⟨hs.waits, hs.alone⟩⟩
  | tick => exact absurd rfl htick
  | call e =>
    simp only [step] at hgo
    split at hgo
    · rename_i hrun
      exact call_keeps h hrun hfit hgo
    · cases hgo

theorem step_delays {e : Event Tid Mid} (hfit : e.Fits c) (hgo : step c k e = some k') : DelayOk c k' := by
  by_cases he : e = .tick
  · subst he
    obtain ⟨k1, hk1, ht⟩ := xTaskIncrementTick_spec h
    cases hk1.symm.trans hgo
    exact ht.ok
  · exact (step_keeps h hfit he hgo).ok

theorem run_delays {es : List (Event Tid Mid)} (hfit : ∀ e ∈ es, e.Fits c)
    (hgo : run c k es = some k') : DelayOk c k' := by
  induction es generalizing k with
  | nil =>
    cases hgo
    exact h
  | cons e es ih =>
    obtain ⟨k1, hk1, hgo⟩ := bind_eq_some_iff.mp hgo
    exact ih (step_delays h (hfit e (List.mem_cons_self ..)) hk1)
      (fun e he => hfit e (List.mem_cons_of_mem _ he)) hgo

theorem run_sleeps {es : List (Event Tid Mid)} {d : Nat} (hs : Sleeps c k t d)
    (hfit : ∀ e ∈ es, e.Fits c) (hgo : run c k es = some k') (hlt : es.count .tick < d) :
    Sleeps c k' t (d - es.count .tick) := by
  induction es generalizing k d with
  | nil =>
    cases hgo
    exact hs
  | cons e es ih =>
    obtain ⟨k1, hk1, hrest⟩ := bind_eq_some_iff.mp hgo
    have hfe : e.Fits c := hfit e (List.mem_cons_self ..)
    have hfes : ∀ e ∈ es, e.Fits c := fun e he => hfit e (List.mem_cons_of_mem _ he)
    by_cases he : e = .tick
    · subst he
      rw [List.count_cons_self] at hlt ⊢
      obtain ⟨k2, hk2, htick⟩ := xTaskIncrementTick_spec h
      cases hk2.symm.trans hk1
      have hs1 : Sleeps c k1 t (d - 1) := by
        refine ⟨htick.waits t (d - 1) (by omega) ?_, htick.events t hs.alone⟩
        rw [Nat.sub_add_cancel (by omega)]
        exact hs.waits
      have := ih htick.ok hs1 hfes hrest (by omega)
      rwa [show d - 1 - es.count .tick = d - (es.count .tick + 1) by omega] at this
    · rw [List.count_cons_of_ne he] at hlt ⊢
      have hk := step_keeps h hfe he hk1
      exact ih hk.ok (hk.sleeps t d hs) hfes hrest hlt

theorem run_tickCount {es : List (Event Tid Mid)} (hfit : ∀ e ∈ es, e.Fits c)
    (hgo : run c k es = some k') : k'.xTickCount = addw c.tickBits k.xTickCount (es.count .tick) := by
  induction es generalizing k with
  | nil =>
    cases hgo
    exact (Nat.mod_eq_of_lt h.tick_lt).symm
  | cons e es ih =>
    obtain ⟨k1, hk1, hgo⟩ := bind_eq_some_iff.mp hgo
    have hfe : e.Fits c := hfit e (List.mem_cons_self ..)
    have hrest := ih (step_delays h hfe hk1) (fun e he => hfit e (List.mem_cons_of_mem _ he)) hgo
    by_cases he : e = .tick
    · subst he
      obtain ⟨k2, hk2, htick⟩ := xTaskIncrementTick_spec h
      cases hk2.symm.trans hk1
      rw [hrest, htick.tick, List.count_cons_self, addw, addw, addw, Nat.mod_add_mod]
      congr 1
      omega
    · rw [hrest, (step_keeps h hfe he hk1).tick, List.count_cons_of_ne he]

end

/-- From here on the task is not ready before the `d`-th tick, and with that tick it is. -/
def WakesAfter (c : Config) (k : Kernel Tid Mid) (t : Tid) (d : Nat) : Prop :=
  ∀ es k', (∀ e ∈ es, e.Fits c) → run c k es = some k' →
    (es.count .tick < d → ∀ p, t ∉ k'.ready p) ∧
      (es.count .tick + 1 = d → ∃ k'', step c k' .tick = some k'' ∧ t ∈ k''.ready (k''.tcb t).uxPriority ∧
        k''.xTickCount = addw c.tickBits k.xTickCount d)

theorem Sleeps.wakesAfter {d : Nat} (hs : Sleeps c k t d) (h : DelayOk c k) : WakesAfter c k t d := by
  intro es k' hfit hgo
  have hok := run_delays h hfit hgo
  refine ⟨fun hlt p hmem => ?_, fun hlast => ?_⟩
  · obtain ⟨b, hdel⟩ := (run_sleeps h hs hfit hgo hlt).mem
    have hready := (hok.states.mem_iff t _).mp hmem
    rw [(hok.states.mem_iff t _).mp hdel] at hready
    cases hready
  · have hone := (run_sleeps h hs hfit hgo (by omega)).waits
    rw [show d - es.count .tick = 1 by omega] at hone
    obtain ⟨k'', hk'', htick⟩ := xTaskIncrementTick_spec hok
    refine ⟨k'', hk'', htick.woken t hone, ?_⟩
    rw [htick.tick, run_tickCount h hfit hgo, addw, addw, addw, Nat.mod_add_mod]
    congr 1
    omega

theorem DelayOk.block_sleeps (h : DelayOk c k) (hrun : k.Running) {n : Nat} (hpos : 0 < n) (hn : n < 2 ^ c.tickBits) :
    WakesAfter c (prvAddCurrentTaskToDelayedList c k n false) k.pxCurrentTCB n := by
  obtain ⟨hok, hwaits⟩ := h.block hrun.isReady (.refl h _) hpos hn false
  refine Sleeps.wakesAfter ⟨hwaits rfl, ?_⟩ hok
  obtain ⟨hevents, _, _, _, _⟩ := prvAddCurrentTaskToDelayedList_cases (c := c) (k := k) n false
  rw [hevents]
  exact h.apart _ hrun.isReady

/-! ## The started kernel -/

omit dM in
theorem foldl_delays {ts : List Tid} (h : DelayOk c k) (hev : ∀ x, k.events.container x = none)
    (hnone : ∀ t ∈ ts, k.states.container t = none) (hn : ts.Nodup) :
    DelayOk c (ts.foldl prvAddTaskToReadyList k) := by
  induction ts generalizing k with
  | nil => exact h
  | cons t ts ih =>
    obtain ⟨ht, hts⟩ := List.nodup_cons.mp hn
    have hitems : ∀ b, (prvAddTaskToReadyList k t).states.items (.delayed b) = k.states.items (.delayed b) :=
      fun b => items_put_of_ne _ (by simp)
    refine ih ⟨⟨h.states.pushBack (hnone t (List.mem_cons_self ..)), h.events, fun x _ => hev x, h.tick_lt, fun b => ?_,
      fun b x hx => ?_, fun x hx => ?_⟩, fun x hx => ?_, fun x hx => ?_⟩ hev (fun x hx => ?_) hts
    · rw [hitems]; exact h.sorted b
    · rw [hitems] at hx; exact h.wake_lt b x hx
    · rw [Kernel.overflowDelayed, hitems] at hx; exact h.overflow_lt x hx
    · rw [Kernel.delayed, hitems] at hx; exact h.now_lt x hx
    · rw [Kernel.delayed, hitems] at hx; exact h.next_le x hx
    · have hne : x ≠ t := fun he => ht (he ▸ hx)
      exact (container_put_of_ne _ hne).trans (hnone x (List.mem_cons_of_mem _ hx))

omit dM in
theorem startKernel_delays (uxPriority : Tid → Nat) (first : Tid) {xTickCount : Nat}
    (htick : xTickCount < 2 ^ c.tickBits) {ts : List Tid} (hn : ts.Nodup) :
    DelayOk c (startKernel c uxPriority first xTickCount ts : Kernel Tid Mid) := by
  have h0 : DelayOk c (emptyKernel c uxPriority first xTickCount : Kernel Tid Mid) := by
    refine ⟨⟨⟨fun t l => ?_, fun l => List.nodup_nil⟩, ⟨fun t l => ?_, fun l => List.nodup_nil⟩, fun _ _ => rfl, htick,
      fun b => List.Pairwise.nil, fun b x hx => ?_, fun x hx => ?_⟩, fun x hx => ?_, fun x hx => ?_⟩
    · simp [emptyKernel]
    · simp [emptyKernel]
    · cases hx
    · cases hx
    · cases hx
    · cases hx
  exact foldl_delays h0 (fun _ => rfl) (fun _ _ => rfl) hn

/-- **Delays are exact.** Both delayed lists are sorted by the time to wake, and `xNextTaskUnblockTime` is not
behind the first time. A task that delays itself for `d` ticks is ready again with the `d`-th tick and not
before; `xTaskDelayUntil` delays exactly if less than the increment has gone by since `*pxPreviousWakeTime`. -/
theorem delays_exact (uxPriority : Tid → Nat) (first : Tid) {xTickCount : Nat} (htick : xTickCount < 2 ^ c.tickBits)
    {ts : List Tid} (hn : ts.Nodup) {es : List (Event Tid Mid)} (hfit : ∀ e ∈ es, e.Fits c)
    (hrun : run c (startKernel c uxPriority first xTickCount ts) es = some k) :
    Sorted k.wake k.delayed ∧ Sorted k.wake k.overflowDelayed ∧
      (addw c.tickBits k.xTickCount 1 = 0 → k.delayed = []) ∧
      (∀ t ∈ k.delayed.head?, k.xNextTaskUnblockTime ≤ k.wake t) ∧
      (∃ k', step c k .tick = some k') ∧
      (k.Running → ∀ d, 1 ≤ d → d < 2 ^ c.tickBits → WakesAfter c (vTaskDelay c k d) k.pxCurrentTCB d) ∧
      (k.Running → ∀ prev < 2 ^ c.tickBits, ∀ inc, 1 ≤ inc → inc < 2 ^ c.tickBits →
        ∃ k' b, xTaskDelayUntil c k prev inc = some (k', addw c.tickBits prev inc, b) ∧
          (b = true ↔ subw c.tickBits k.xTickCount prev < inc) ∧ (b = false → k' = k) ∧
          (b = true → ∃ d, WakesAfter c k' k.pxCurrentTCB d ∧ 1 ≤ d ∧ d < 2 ^ c.tickBits ∧
            addw c.tickBits k'.xTickCount d = addw c.tickBits prev inc)) := by
  have h := run_delays (startKernel_delays uxPriority first htick hn) hfit hrun
  refine ⟨h.sorted _, h.sorted _, fun hzero => ?_, fun t ht => ?_, ?_, fun hr d hpos hd => ?_,
    fun hr prev hprev inc hpos hinc => ?_⟩
  · have hlt := h.tick_lt
    refine h.delayed_nil ?_
    by_contra hne
    rw [addw_of_lt (by omega)] at hzero
    omega
  · exact h.next_le t (List.mem_of_mem_head? ht)
  · obtain ⟨k', hk', _⟩ := xTaskIncrementTick_spec h
    exact ⟨k', hk'⟩
  · rw [vTaskDelay, if_pos (by omega)]
    exact h.block_sleeps hr hpos hd
  · have hiff := shouldDelay_iff h.tick_lt hprev hinc hpos
    refine ⟨_, _, by rw [xTaskDelayUntil, configAssert_of (by omega)]; rfl, hiff, fun hb => ?_, fun hb => ?_⟩
    · rw [hb]; rfl
    · have hd := hiff.mp hb
      obtain ⟨hlo, hhi, hsum⟩ := delayUntil_ticks h.tick_lt hprev hinc hpos hd
      simp only [hb, if_true]
      refine ⟨_, h.block_sleeps hr hlo hhi, hlo, hhi, ?_⟩
      obtain ⟨_, _, htick, _, _⟩ := prvAddCurrentTaskToDelayedList_cases (c := c) (k := k)
        (subw c.tickBits (addw c.tickBits prev inc) k.xTickCount) false
      rw [htick]
      exact hsum

/-- Two ticks before the overflow task 3 delays itself for 5 ticks, and task 2 is next. -/
def delayOverflow : List (Event (Fin 4) Bool) := [.call (.delay 5), .switchContext 2]

theorem delays_exact_overflow :
    ∃ k, run config32 (startKernel config32 priorities 3 (2 ^ 32 - 2) [0, 1, 2, 3]) delayOverflow = some k ∧
      k.Running ∧ k.overflowDelayed = [3] ∧ Sorted k.wake k.overflowDelayed ∧
      WakesAfter config32 (vTaskDelay config32 k 1) k.pxCurrentTCB 1 ∧
      WakesAfter config32 (vTaskDelay config32 k 2) k.pxCurrentTCB 2 := by
  refine Lib.Runs.exists_some_that (P := fun k => k.Running ∧ k.overflowDelayed = [3]) (by decide +kernel)
    fun k hrun ⟨hr, hover⟩ => ?_
  obtain ⟨_, hsorted, _, _, _, hdelay, _⟩ := delays_exact priorities 3 (by decide) (by decide) (by decide +kernel) hrun
  exact ⟨hr, hover, hsorted, hdelay hr 1 (by decide) (by decide), hdelay hr 2 (by decide) (by decide)⟩

end RtosKernel.FreeRTOS.Tasks
