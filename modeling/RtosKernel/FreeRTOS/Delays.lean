import RtosKernel.FreeRTOS.MutexReady

/-! # Delays are exact across the overflow of the tick count

The tasks in `*pxDelayedTaskList` wake before the tick count overflows, those in `*pxOverflowDelayedTaskList`
after it. -/
namespace RtosKernel.FreeRTOS.Tasks
open Lib.Word Lib.Containers FreeRTOS.Def Function

variable {Tid Mid : Type} [dT : DecidableEq Tid] [dM : DecidableEq Mid] {c : Config} {k k' : Kernel Tid Mid} {t : Tid}

def Kernel.wake (k : Kernel Tid Mid) (t : Tid) : Nat := (k.tcb t).xStateItemValue

/-- The two delayed lists and their times. -/
structure TimesOk (c : Config) (k : Kernel Tid Mid) : Prop where
  states : k.states.Ok
  events : k.events.Ok
  apart : ∀ x, k.IsReady x → k.events.container x = none
  tick_lt : k.xTickCount < 2 ^ c.tickBits
  sorted : ∀ b, Sorted k.wake (k.states.items (.delayed b))
  wake_lt : ∀ b, ∀ x ∈ k.states.items (.delayed b), k.wake x < 2 ^ c.tickBits
  overflow_lt : ∀ x ∈ k.overflowDelayed, k.wake x < k.xTickCount

/-- Moreover no time to wake has come, and the next is not before `xNextTaskUnblockTime`. -/
structure DelayOk (c : Config) (k : Kernel Tid Mid) : Prop extends TimesOk c k where
  now_lt : ∀ x ∈ k.delayed, k.xTickCount < k.wake x
  next_le : ∀ x ∈ k.delayed, k.xNextTaskUnblockTime ≤ k.wake x

/-! ## What leaves the delays alone -/

/-- At most the ready lists, the priorities and the mutexes changed, and no task became ready or
stopped being so. -/
structure SameDelays (k k' : Kernel Tid Mid) : Prop where
  states : k.states.Ok → k'.states.Ok
  events : k'.events = k.events
  ready : ∀ x, k'.IsReady x ↔ k.IsReady x
  delayed : ∀ b, k'.states.items (.delayed b) = k.states.items (.delayed b)
  wake : k'.wake = k.wake
  list : k'.pxDelayedTaskList = k.pxDelayedTaskList
  tick : k'.xTickCount = k.xTickCount
  next : k'.xNextTaskUnblockTime = k.xNextTaskUnblockTime
  current : k'.pxCurrentTCB = k.pxCurrentTCB

section
omit dT dM

theorem SameDelays.refl (k : Kernel Tid Mid) : SameDelays k k :=
  ⟨id, rfl, fun _ => Iff.rfl, fun _ => rfl, rfl, rfl, rfl, rfl, rfl⟩

theorem SameDelays.trans {k'' : Kernel Tid Mid} (h : SameDelays k k') (h' : SameDelays k' k'') : SameDelays k k'' where
  states hs := h'.states (h.states hs)
  events := h'.events.trans h.events
  ready x := (h'.ready x).trans (h.ready x)
  delayed b := (h'.delayed b).trans (h.delayed b)
  wake := h'.wake.trans h.wake
  list := h'.list.trans h.list
  tick := h'.tick.trans h.tick
  next := h'.next.trans h.next
  current := h'.current.trans h.current

theorem SameDelays.delayed_eq (h : SameDelays k k') : k'.delayed = k.delayed := by
  rw [Kernel.delayed, Kernel.delayed, h.list, h.delayed]

theorem SameDelays.overflow_eq (h : SameDelays k k') : k'.overflowDelayed = k.overflowDelayed := by
  rw [Kernel.overflowDelayed, Kernel.overflowDelayed, h.list, h.delayed]

theorem DelayOk.same (h : DelayOk c k) (hs : SameDelays k k') : DelayOk c k' where
  states := hs.states h.states
  events := hs.events ▸ h.events
  apart x hx := hs.events ▸ h.apart x ((hs.ready x).mp hx)
  tick_lt := hs.tick ▸ h.tick_lt
  sorted b := by rw [hs.delayed, hs.wake]; exact h.sorted b
  wake_lt b x hx := by rw [hs.delayed] at hx; rw [hs.wake]; exact h.wake_lt b x hx
  now_lt x hx := by rw [hs.delayed_eq] at hx; rw [hs.wake, hs.tick]; exact h.now_lt x hx
  overflow_lt x hx := by rw [hs.overflow_eq] at hx; rw [hs.wake, hs.tick]; exact h.overflow_lt x hx
  next_le x hx := by rw [hs.delayed_eq] at hx; rw [hs.wake, hs.next]; exact h.next_le x hx

end

section
omit dM

theorem sameDelays_setTcb {v : Tcb} (hv : v.xStateItemValue = (k.tcb t).xStateItemValue) :
    SameDelays k (k.setTcb t v) := by
  refine ⟨id, rfl, fun _ => Iff.rfl, fun _ => rfl, ?_, rfl, rfl, rfl, rfl⟩
  funext x
  by_cases hx : x = t
  · subst hx; rw [Kernel.wake, setTcb_self, hv, Kernel.wake]
  · rw [Kernel.wake, setTcb_of_ne v hx, Kernel.wake]

theorem sameDelays_reprioritise (ht : k.IsReady t) {p : Nat} {v : Tcb}
    (hv : v.xStateItemValue = (k.tcb t).xStateItemValue) :
    SameDelays k (prvAddTaskToReadyList ((removeReady k t p).setTcb t v) t) := by
  obtain ⟨q, hq⟩ := ht
  have hset : SameDelays k (k.setTcb t v) := sameDelays_setTcb hv
  have hp : (((removeReady k t p).setTcb t v).tcb t).uxPriority = v.uxPriority := by rw [setTcb_self]
  have hstates : (prvAddTaskToReadyList ((removeReady k t p).setTcb t v) t).states =
      (k.states.remove t).pushBack (.ready v.uxPriority) t := by
    rw [prvAddTaskToReadyList, hp]; rfl
  refine ⟨fun hs => ?_, rfl, fun x => ?_, fun b => ?_, hset.wake, rfl, rfl, rfl, rfl⟩
  · exact (hs.remove t).pushBack container_remove_self
  · by_cases hx : x = t
    · subst hx
      exact ⟨fun _ => ⟨q, hq⟩, fun _ => isReady_add x fun hne => absurd rfl hne⟩
    · have hc : (prvAddTaskToReadyList ((removeReady k t p).setTcb t v) t).states.container x =
          k.states.container x := by
        exact (container_put_of_ne _ hx).trans (container_remove_of_ne hx)
      rw [Kernel.IsReady, hc, Kernel.IsReady]
  · rw [hstates]
    show (Lists.put _ _ _ _).items _ = _
    rw [items_put_of_ne _ (by simp), items_remove_of_ne (by rw [hq]; simp)]

theorem setEventItemValue_sameDelays (p : Nat) (t : Tid) : SameDelays k (setEventItemValue c k t p) := by
  unfold setEventItemValue
  split
  · exact sameDelays_setTcb rfl
  · exact .refl k

theorem xTaskPriorityInherit_sameDelays (holder : Option Tid) : SameDelays k (xTaskPriorityInherit c k holder).1 := by
  cases holder with
  | none => exact .refl k
  | some t =>
    simp only [xTaskPriorityInherit]
    split
    · have hev : SameDelays k (setEventItemValue c k t (k.tcb k.pxCurrentTCB).uxPriority) :=
        setEventItemValue_sameDelays ..
      split
      · rename_i hready
        exact hev.trans (sameDelays_reprioritise ⟨_, hready⟩ rfl)
      · exact hev.trans (sameDelays_setTcb rfl)
    · exact .refl k

theorem xTaskPriorityDisinherit_sameDelays (hrun : k.Running) {holder : Option Tid} {b : Bool}
    (hgo : xTaskPriorityDisinherit c k holder = some (k', b)) : SameDelays k k' := by
  cases holder with
  | none =>
    cases hgo
    exact .refl k
  | some t =>
    simp only [xTaskPriorityDisinherit, bind, pure, Option.bind_eq_some_iff] at hgo
    obtain ⟨_, hcur, _, _, hgo⟩ := hgo
    have hcur : t = k.pxCurrentTCB := of_configAssert hcur
    set k1 := k.setTcb t { k.tcb t with uxMutexesHeld := (k.tcb t).uxMutexesHeld - 1 } with hk1
    have h1 : SameDelays k k1 := sameDelays_setTcb rfl
    split at hgo
    · cases hgo
      have hready : k1.IsReady t := by rw [hcur]; exact hrun.isReady
      refine h1.trans (sameDelays_reprioritise hready ?_)
      rw [hk1, setTcb_self]
    · simp only [Option.some.injEq, Prod.mk.injEq] at hgo
      obtain ⟨rfl, -⟩ := hgo
      exact h1

theorem vTaskPriorityDisinheritAfterTimeout_sameDelays {p : Nat} {holder : Option Tid}
    (hgo : vTaskPriorityDisinheritAfterTimeout c k p holder = some k') : SameDelays k k' := by
  cases holder with
  | none =>
    cases hgo
    exact .refl k
  | some t =>
    simp only [vTaskPriorityDisinheritAfterTimeout, bind, pure, Option.bind_eq_some_iff] at hgo
    obtain ⟨_, _, hgo⟩ := hgo
    generalize (if (k.tcb t).uxBasePriority < p then p else (k.tcb t).uxBasePriority) = use at hgo
    split at hgo
    · obtain ⟨_, _, hgo⟩ := Option.bind_eq_some_iff.mp hgo
      have hprio : SameDelays k (k.setPriority t use) := sameDelays_setTcb rfl
      have hset : SameDelays k (setEventItemValue c (k.setPriority t use) t use) :=
        hprio.trans (setEventItemValue_sameDelays ..)
      set k1 := setEventItemValue c (k.setPriority t use) t use with hk1
      split at hgo
      · rename_i hready
        cases hgo
        have hmove := sameDelays_reprioritise (k := k1) (t := t) ⟨_, hready⟩ (p := (k1.tcb t).uxPriority)
          (v := k1.tcb t) rfl
        have heq : (removeReady k1 t (k1.tcb t).uxPriority).setTcb t (k1.tcb t) =
            removeReady k1 t (k1.tcb t).uxPriority := by
          simp [Kernel.setTcb, removeReady, uxListRemove]
        rw [heq] at hmove
        exact hset.trans hmove
      · simp only [Option.some.injEq] at hgo
        subst hgo
        exact hset
    · cases hgo
      exact .refl k

end

theorem takeCheck_sameDelays (m : Mid) : SameDelays k (takeCheck k m) := by
  simp only [takeCheck, pvTaskIncrementMutexHeldCount]
  split
  · have h : SameDelays k (k.setTcb k.pxCurrentTCB
        { k.tcb k.pxCurrentTCB with uxMutexesHeld := (k.tcb k.pxCurrentTCB).uxMutexesHeld + 1 }) :=
      sameDelays_setTcb rfl
    exact ⟨h.states, rfl, h.ready, h.delayed, h.wake, rfl, rfl, rfl, rfl⟩
  · exact .refl k

/-! ## Blocking -/

/-- A task waits for `r` more ticks. -/
def WaitsFor (c : Config) (k : Kernel Tid Mid) (t : Tid) (r : Nat) : Prop :=
  (t ∈ k.delayed ∧ k.wake t = k.xTickCount + r) ∨
    (t ∈ k.overflowDelayed ∧ k.wake t + 2 ^ c.tickBits = k.xTickCount + r)

omit dT dM in
theorem DelayOk.not_mem (h : DelayOk c k) (ht : k.IsReady t) (b : Bool) : t ∉ k.states.items (.delayed b) := by
  obtain ⟨p, hp⟩ := ht
  intro hmem
  rw [(h.states.mem_iff t _).mp hmem] at hp
  cases hp

section Block
variable (h : DelayOk c k) (ht : k.IsReady t)
include h ht

omit dM in
theorem DelayOk.leave {l : StateList} (hl : ∀ p, l ≠ .ready p) {xs : List Tid}
    (hxs : xs.Perm (t :: (k.states.remove t).items l)) (hs : k'.states = (k.states.remove t).put l t xs) :
    k'.states.Ok ∧ (∀ x, k'.IsReady x → x ≠ t ∧ k.IsReady x) ∧
      ∀ b, k'.states.items (.delayed b) = if l = .delayed b then xs else k.states.items (.delayed b) := by
  obtain ⟨p, hp⟩ := ht
  refine ⟨?_, fun x hx => ?_, fun b => ?_⟩
  · rw [hs]
    exact (h.states.remove t).put container_remove_self hxs
  · obtain ⟨q, hq⟩ := hx
    rw [hs] at hq
    have hne : x ≠ t := fun he => by
      subst he
      rw [container_put_self] at hq
      exact hl q (Option.some.inj hq)
    rw [container_put_of_ne _ hne, container_remove_of_ne hne] at hq
    exact ⟨hne, q, hq⟩
  · rw [hs]
    split
    · rename_i hb
      rw [← hb, items_put_self]
    · rename_i hb
      rw [items_put_of_ne _ (Ne.symm hb), items_remove_of_ne (by rw [hp]; simp)]

omit dM in
theorem DelayOk.insertBy_sorted (wake : Nat) (b : Bool) :
    Sorted (update k.wake t wake) (insertBy (update k.wake t wake) t (k.states.items (.delayed b))) := by
  refine Lib.Containers.insertBy_sorted (Sorted.congr (h.sorted b) fun x hx => ?_)
  have hne : x ≠ t := fun he => h.not_mem ht b (he ▸ hx)
  exact update_of_ne hne _ _

end Block

/-- Other tasks wait for the same events. -/
structure SameWaits (t : Tid) (ev ev' : Lists Mid Tid) : Prop where
  ok : ev'.Ok
  container : ∀ x, x ≠ t → ev'.container x = ev.container x

omit dM in
theorem prvAddCurrentTaskToDelayedList_cases (n : Nat) (b : Bool) :
    let k' := prvAddCurrentTaskToDelayedList c k n b
    let t := k.pxCurrentTCB
    let w := addw c.tickBits k.xTickCount n
    let i := if w < k.xTickCount then !k.pxDelayedTaskList else k.pxDelayedTaskList
    k'.events = k.events ∧ k'.pxCurrentTCB = t ∧ k'.xTickCount = k.xTickCount ∧
      k'.pxDelayedTaskList = k.pxDelayedTaskList ∧
      ((b = true ∧ k'.wake = k.wake ∧ k'.xNextTaskUnblockTime = k.xNextTaskUnblockTime ∧
          k'.states = (k.states.remove t).put .suspended t ((k.states.remove t).items .suspended ++ [t])) ∨
        (k'.wake = update k.wake t w ∧
          k'.xNextTaskUnblockTime = (if w < k.xTickCount then k.xNextTaskUnblockTime
            else min w k.xNextTaskUnblockTime) ∧
          k'.states = (k.states.remove t).put (.delayed i) t
            (insertBy (update k.wake t w) t ((k.states.remove t).items (.delayed i))))) := by
  intro k' t w i
  have hwake : ∀ v : Nat, (fun x => (((removeReady k t (k.tcb t).uxPriority).setTcb t
      { k.tcb t with xStateItemValue := v }).tcb x).xStateItemValue) = update k.wake t v := by
    intro v
    funext x
    by_cases hx : x = t
    · subst hx; simp
    · rw [setTcb_of_ne _ hx, update_of_ne hx]
      rfl
  simp only [k', prvAddCurrentTaskToDelayedList]
  split
  · rename_i hsus
    exact ⟨rfl, rfl, rfl, rfl, .inl ⟨hsus.2.2, rfl, rfl, rfl⟩⟩
  · simp only [insertDelayed]
    split
    · rename_i hlt
      have hlt : w < k.xTickCount := hlt
      refine ⟨rfl, rfl, rfl, rfl, .inr ⟨hwake w, by rw [if_pos hlt]; rfl, ?_⟩⟩
      simp only [i, if_pos hlt]
      show Lists.insert _ _ _ _ = _
      exact congrArg (fun f => (k.states.remove t).put _ t (insertBy f t _)) (hwake w)
    · rename_i hge
      have hge : ¬ w < k.xTickCount := hge
      refine ⟨rfl, rfl, rfl, rfl, .inr ⟨hwake w, ?_, ?_⟩⟩
      · show (if w < k.xNextTaskUnblockTime then w else k.xNextTaskUnblockTime) = _
        split <;> omega
      · simp only [i, if_neg hge]
        show Lists.insert _ _ _ _ = _
        exact congrArg (fun f => (k.states.remove t).put _ t (insertBy f t _)) (hwake w)

theorem addw_cases {bits now n : Nat} (hnow : now < 2 ^ bits) (hpos : 0 < n) (hn : n < 2 ^ bits) :
    addw bits now n < now ∧ addw bits now n + 2 ^ bits = now + n ∨
      now < addw bits now n ∧ addw bits now n = now + n := by
  rcases Nat.lt_or_ge (now + n) (2 ^ bits) with hlt | hge
  · rw [addw_of_lt hlt]
    omega
  · rw [addw_of_ge hge hnow hn]
    omega

section Block
variable (h : DelayOk c k) (hr : k.IsReady k.pxCurrentTCB) (hev : SameWaits k.pxCurrentTCB k.events k'.events)
  (htick : k'.xTickCount = k.xTickCount) (hlist : k'.pxDelayedTaskList = k.pxDelayedTaskList)
include h hev

omit [DecidableEq Tid] [DecidableEq Mid] in
theorem DelayOk.apart_left (hback : ∀ x, k'.IsReady x → x ≠ k.pxCurrentTCB ∧ k.IsReady x) (x : Tid)
    (hx : k'.IsReady x) : k'.events.container x = none := by
  obtain ⟨hne, hx⟩ := hback x hx
  rw [hev.container x hne]
  exact h.apart x hx

include hr htick hlist

omit dM in
theorem DelayOk.suspend (hwake : k'.wake = k.wake) (hnext : k'.xNextTaskUnblockTime = k.xNextTaskUnblockTime)
    (hstates : k'.states = (k.states.remove k.pxCurrentTCB).put .suspended k.pxCurrentTCB
      ((k.states.remove k.pxCurrentTCB).items .suspended ++ [k.pxCurrentTCB])) : DelayOk c k' := by
  obtain ⟨hok, hback, hitems⟩ := h.leave hr (by simp) (List.perm_append_singleton _ _) hstates
  have hitems : ∀ b, k'.states.items (.delayed b) = k.states.items (.delayed b) := fun b => by
    rw [hitems, if_neg (by simp)]
  refine ⟨⟨hok, hev.ok, h.apart_left hev hback, htick ▸ h.tick_lt, fun b => ?_, fun b x hx => ?_, fun x hx => ?_⟩,
    fun x hx => ?_, fun x hx => ?_⟩
  · rw [hitems, hwake]; exact h.sorted b
  · rw [hitems] at hx; rw [hwake]; exact h.wake_lt b x hx
  · rw [Kernel.overflowDelayed, hlist, hitems] at hx; rw [hwake, htick]; exact h.overflow_lt x hx
  · rw [Kernel.delayed, hlist, hitems] at hx; rw [hwake, htick]; exact h.now_lt x hx
  · rw [Kernel.delayed, hlist, hitems] at hx; rw [hwake, hnext]; exact h.next_le x hx

omit dM in
theorem DelayOk.delay {w : Nat} {i : Bool} (hw : w < 2 ^ c.tickBits) (hnow : w ≠ k.xTickCount)
    (hi : i = if w < k.xTickCount then !k.pxDelayedTaskList else k.pxDelayedTaskList)
    (hwake : k'.wake = update k.wake k.pxCurrentTCB w)
    (hnext : k'.xNextTaskUnblockTime =
      if w < k.xTickCount then k.xNextTaskUnblockTime else min w k.xNextTaskUnblockTime)
    (hstates : k'.states = (k.states.remove k.pxCurrentTCB).put (.delayed i) k.pxCurrentTCB
      (insertBy (update k.wake k.pxCurrentTCB w) k.pxCurrentTCB ((k.states.remove k.pxCurrentTCB).items (.delayed i)))) :
    DelayOk c k' ∧ k.pxCurrentTCB ∈ k'.states.items (.delayed i) := by
  set t := k.pxCurrentTCB
  have hrem : (k.states.remove t).items (.delayed i) = k.states.items (.delayed i) := by
    obtain ⟨p, hp⟩ := hr
    exact items_remove_of_ne (by rw [hp]; simp)
  obtain ⟨hok, hback, hitems⟩ := h.leave hr (by simp) (insertBy_perm ..) hstates
  rw [hrem] at hitems
  have hold : ∀ b, ∀ x ∈ k.states.items (.delayed b), k'.wake x = k.wake x := fun b x hx => by
    have hne : x ≠ t := fun he => h.not_mem hr b (he ▸ hx)
    rw [hwake, update_of_ne hne]
  have hself : k'.wake t = w := by rw [hwake, update_self]
  -- a member of a list after the insertion: the task itself or one from before
  have hmem : ∀ b, ∀ x ∈ k'.states.items (.delayed b), (x = t ∧ b = i) ∨ x ∈ k.states.items (.delayed b) := by
    intro b x hx
    rw [hitems] at hx
    split at hx
    · rename_i hb
      cases hb
      exact (mem_insertBy.mp hx).imp (fun he => ⟨he, rfl⟩) id
    · exact .inr hx
  have hlt : (!k.pxDelayedTaskList) = i → w < k.xTickCount := fun hb => by
    by_contra hge
    rw [hi, if_neg hge] at hb
    simp at hb
  have hge : k.pxDelayedTaskList = i → ¬ w < k.xTickCount := fun hb hlt => by
    rw [hi, if_pos hlt] at hb
    simp at hb
  refine ⟨⟨⟨hok, hev.ok, h.apart_left hev hback, htick ▸ h.tick_lt, fun b => ?_, fun b x hx => ?_, fun x hx => ?_⟩,
    fun x hx => ?_, fun x hx => ?_⟩, ?_⟩
  · rw [hitems, hwake]
    split
    · exact h.insertBy_sorted hr w i
    · exact Sorted.congr (h.sorted b) fun x hx => by rw [← hwake]; exact hold b x hx
  · rcases hmem b x hx with ⟨rfl, _⟩ | hx
    · rw [hself]; exact hw
    · rw [hold b x hx]; exact h.wake_lt b x hx
  · rw [Kernel.overflowDelayed, hlist] at hx
    rw [htick]
    rcases hmem _ x hx with ⟨rfl, hb⟩ | hx
    · rw [hself]; exact hlt hb
    · rw [hold _ x hx]; exact h.overflow_lt x hx
  · rw [Kernel.delayed, hlist] at hx
    rw [htick]
    rcases hmem _ x hx with ⟨rfl, hb⟩ | hx
    · have := hge hb
      rw [hself]; omega
    · rw [hold _ x hx]; exact h.now_lt x hx
  · rw [Kernel.delayed, hlist] at hx
    rw [hnext]
    rcases hmem _ x hx with ⟨rfl, hb⟩ | hx
    · rw [if_neg (hge hb), hself]
      exact Nat.min_le_left ..
    · have hle := h.next_le x hx
      rw [hold _ x hx]
      split
      · exact hle
      · exact le_trans (Nat.min_le_right ..) hle
  · rw [hitems, if_pos rfl]
    exact mem_insertBy.mpr (.inl rfl)

end Block

omit dM in
theorem DelayOk.block (h : DelayOk c k) (hr : k.IsReady k.pxCurrentTCB) {ev : Lists Mid Tid}
    (hev : SameWaits k.pxCurrentTCB k.events ev) {n : Nat} (hpos : 0 < n) (hn : n < 2 ^ c.tickBits) (b : Bool) :
    DelayOk c (prvAddCurrentTaskToDelayedList c { k with events := ev } n b) ∧
      (b = false → WaitsFor c (prvAddCurrentTaskToDelayedList c { k with events := ev } n b) k.pxCurrentTCB n) := by
  obtain ⟨hevents, _, htick, hlist, hcase⟩ :=
    prvAddCurrentTaskToDelayedList_cases (c := c) (k := { k with events := ev }) n b
  set k' := prvAddCurrentTaskToDelayedList c { k with events := ev } n b
  have hev : SameWaits k.pxCurrentTCB k.events k'.events := hevents ▸ hev
  rcases hcase with ⟨hb, hwake, hnext, hstates⟩ | ⟨hwake, hnext, hstates⟩
  · refine ⟨h.suspend hr hev htick hlist hwake hnext hstates, fun he => ?_⟩
    rw [hb] at he
    cases he
  · have hcases := addw_cases h.tick_lt hpos hn
    have hself : k'.wake k.pxCurrentTCB = addw c.tickBits k.xTickCount n := by rw [hwake]; exact update_self ..
    have hne : addw c.tickBits k.xTickCount n ≠ k.xTickCount := by omega
    obtain ⟨hok, hmem⟩ := h.delay hr hev htick hlist (addw_lt ..) hne rfl hwake hnext hstates
    refine ⟨hok, fun _ => ?_⟩
    rw [WaitsFor, hself, htick, Kernel.delayed, Kernel.overflowDelayed, hlist]
    rcases hcases with ⟨hlt, heq⟩ | ⟨hgt, heq⟩
    · rw [if_pos hlt] at hmem
      exact .inr ⟨hmem, heq⟩
    · rw [if_neg (Nat.lt_asymm hgt)] at hmem
      exact .inl ⟨hmem, heq⟩

end RtosKernel.FreeRTOS.Tasks
