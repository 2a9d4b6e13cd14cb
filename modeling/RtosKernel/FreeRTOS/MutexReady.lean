import RtosKernel.Lib.Bits
import RtosKernel.FreeRTOS.MutexAccount

/-! # The bitmap of the ready lists

A bit is set exactly if the ready list of its priority has a task. Each function that moves a task between lists
keeps this, but for `vTaskPriorityDisinheritAfterTimeout` when the holder is alone in its list. -/
namespace RtosKernel.FreeRTOS.Tasks
open Lib.Containers Lib.Bits FreeRTOS.Def Option

variable {Tid Mid : Type} [dT : DecidableEq Tid] [dM : DecidableEq Mid] {c : Config} {k k' : Kernel Tid Mid} {t : Tid}

/-- The ready lists, their bitmap, and priorities that the lists exist for. -/
structure ReadyOk (c : Config) (k : Kernel Tid Mid) : Prop where
  states : k.states.Ok
  own : ∀ t p, k.states.container t = some (.ready p) → p = (k.tcb t).uxPriority
  bits : Recorded k.uxTopReadyPriority k.ready
  priority_lt : ∀ t, (k.tcb t).uxPriority < c.configMaxPriorities
  base_lt : ∀ t, (k.tcb t).uxBasePriority < c.configMaxPriorities
  event_pos : ∀ t, 0 < (k.tcb t).xEventItemValue

omit dT dM in
theorem ReadyOk.congr (h : ReadyOk c k) (hs : k'.states = k.states) (hu : k'.uxTopReadyPriority = k.uxTopReadyPriority)
    (ht : k'.tcb = k.tcb) : ReadyOk c k' := by
  have hr : k'.ready = k.ready := by funext p; rw [Kernel.ready, Kernel.ready, hs]
  exact ⟨hs ▸ h.states, hs ▸ ht ▸ h.own, hu ▸ hr ▸ h.bits, ht ▸ h.priority_lt, ht ▸ h.base_lt, ht ▸ h.event_pos⟩

omit dM in
theorem ReadyOk.setTcb (h : ReadyOk c k) {v : Tcb}
    (hv : (∀ p, k.states.container t ≠ some (.ready p)) ∨ v.uxPriority = (k.tcb t).uxPriority)
    (hp : v.uxPriority < c.configMaxPriorities) (hb : v.uxBasePriority < c.configMaxPriorities)
    (he : 0 < v.xEventItemValue) : ReadyOk c (k.setTcb t v) := by
  refine ⟨h.states, fun x p hx => ?_, h.bits, fun x => ?_, fun x => ?_, fun x => ?_⟩
  · by_cases hxt : x = t
    · subst hxt
      rw [setTcb_self]
      rcases hv with hno | heq
      · exact absurd hx (hno p)
      · rw [heq]; exact h.own x p hx
    · rw [setTcb_of_ne v hxt]; exact h.own x p hx
  · by_cases hxt : x = t
    · subst hxt; rw [setTcb_self]; exact hp
    · rw [setTcb_of_ne v hxt]; exact h.priority_lt x
  · by_cases hxt : x = t
    · subst hxt; rw [setTcb_self]; exact hb
    · rw [setTcb_of_ne v hxt]; exact h.base_lt x
  · by_cases hxt : x = t
    · subst hxt; rw [setTcb_self]; exact he
    · rw [setTcb_of_ne v hxt]; exact h.event_pos x

omit dT in
theorem ne_nil_iff_exists {l : List Tid} : l ≠ [] ↔ ∃ x, x ∈ l := by
  cases l <;> simp

section
omit dM

theorem ReadyOk.removeReady (h : ReadyOk c k) {p : Nat} (ht : k.states.container t = some (.ready p)) :
    ReadyOk c (removeReady k t p) ∧ (Tasks.removeReady k t p).states.container t = none := by
  have hitems : (k.states.remove t).items (.ready p) = (k.ready p).erase t := items_remove_self ht
  have hother : ∀ q, q ≠ p → (k.states.remove t).items (.ready q) = k.ready q := fun q hq =>
    items_remove_of_ne (by rw [ht]; simpa using Ne.symm hq)
  refine ⟨⟨h.states.remove t, fun x q hx => ?_, ?_, h.priority_lt, h.base_lt, h.event_pos⟩, container_remove_self⟩
  · have hxt : x ≠ t := fun he => by
      subst he
      rw [show (Tasks.removeReady k x p).states.container x = none from container_remove_self] at hx
      cases hx
    rw [show (Tasks.removeReady k t p).states.container x = k.states.container x from container_remove_of_ne hxt] at hx
    exact h.own x q hx
  · have hleft : (uxListRemove k t).2 = ((k.ready p).erase t).length := by
      simp only [uxListRemove, ht, hitems]
    show Recorded (if (uxListRemove k t).2 = 0 then _ else _) _
    rw [hleft]
    split
    · rename_i hnil
      refine h.bits.clear (p := p) ?_ fun q hq => ?_
      · show (k.states.remove t).items (.ready p) = []
        rw [hitems]
        exact List.eq_nil_of_length_eq_zero hnil
      · show (k.states.remove t).items (.ready q) ≠ [] ↔ _
        rw [hother q hq]
    · rename_i hne
      refine h.bits.congr fun q => ?_
      show (k.states.remove t).items (.ready q) ≠ [] ↔ _
      by_cases hq : q = p
      · subst hq
        rw [hitems]
        have hmem : t ∈ k.ready q := (h.states.mem_iff t _).mpr ht
        constructor
        · intro _ hnil; rw [hnil] at hmem; cases hmem
        · intro _ hnil; rw [hnil] at hne; exact hne rfl
      · rw [hother q hq]

theorem ReadyOk.readd (h : ReadyOk c k) (t : Tid) :
    ReadyOk c (prvAddTaskToReadyList { k with states := k.states.remove t } t) := by
  refine ⟨(h.states.remove t).pushBack container_remove_self, fun x p hx => ?_, ?_, h.priority_lt, h.base_lt,
    h.event_pos⟩
  · by_cases hxt : x = t
    · subst hxt
      have : some (StateList.ready (k.tcb x).uxPriority) = some (.ready p) :=
        (container_put_self _).symm.trans hx
      cases this
      rfl
    · have : (prvAddTaskToReadyList { k with states := k.states.remove t } t).states.container x =
          k.states.container x := (container_put_of_ne _ hxt).trans (container_remove_of_ne hxt)
      rw [this] at hx
      exact h.own x p hx
  · refine h.bits.set (p := (k.tcb t).uxPriority) ?_ fun q hq => ?_
    · exact ne_nil_iff_exists.mpr ⟨t, mem_items_pushBack.mpr (.inl ⟨rfl, rfl⟩)⟩
    · -- another list loses nothing: the task was in none but its own
      show ((k.states.remove t).pushBack _ t).items (.ready q) ≠ [] ↔ _
      rw [show ((k.states.remove t).pushBack (.ready (k.tcb t).uxPriority) t).items (.ready q) =
        (k.states.remove t).items (.ready q) from items_put_of_ne _ (by simpa using hq),
        items_remove_of_ne fun hc => hq (h.own t q hc)]
      rfl

theorem ReadyOk.add (h : ReadyOk c k) (ht : k.states.container t = none) : ReadyOk c (prvAddTaskToReadyList k t) := by
  have hadd := h.readd t
  rw [remove_of_none ht] at hadd
  exact hadd

theorem ReadyOk.put (h : ReadyOk c k) (ht : k.states.container t = none) {l : StateList} (hl : ∀ p, l ≠ .ready p)
    {xs : List Tid} (hxs : xs.Perm (t :: k.states.items l)) :
    ReadyOk c { k with states := k.states.put l t xs } := by
  refine ⟨h.states.put ht hxs, fun x p hx => ?_, ?_, h.priority_lt, h.base_lt, h.event_pos⟩
  · by_cases hxt : x = t
    · subst hxt
      have : some l = some (.ready p) := (container_put_self _).symm.trans hx
      exact absurd (some.inj this) (hl p)
    · have : (k.states.put l t xs).container x = k.states.container x := container_put_of_ne _ hxt
      rw [this] at hx
      exact h.own x p hx
  · refine h.bits.congr fun q => ?_
    show (k.states.put l t xs).items (.ready q) ≠ [] ↔ _
    rw [items_put_of_ne _ (Ne.symm (hl q))]
    rfl

end

/-! ## The functions -/

def Kernel.IsReady (k : Kernel Tid Mid) (t : Tid) : Prop := ∃ p, k.states.container t = some (.ready p)

omit dT dM in
theorem isReady_congr (hs : k'.states = k.states) (h : k.IsReady t) : k'.IsReady t := by
  rw [Kernel.IsReady, hs]; exact h

omit dM in
theorem isReady_add (x : Tid) (h : x ≠ t → k.IsReady x) : (prvAddTaskToReadyList k t).IsReady x := by
  by_cases hx : x = t
  · subst hx
    exact ⟨_, container_put_self _⟩
  · obtain ⟨p, hp⟩ := h hx
    exact ⟨p, (container_put_of_ne _ hx).trans hp⟩

omit dM in
theorem isReady_of_remove (hs : k'.states = k.states.remove t) {x : Tid} (hx : x ≠ t) (h : k.IsReady x) :
    k'.IsReady x := by
  obtain ⟨p, hp⟩ := h
  exact ⟨p, by rw [hs, container_remove_of_ne hx, hp]⟩

theorem isReady_unblock {x : Tid} (h : k.IsReady x) : (unblock k t).IsReady x :=
  isReady_add x fun hx => isReady_of_remove (k := k) rfl hx h

omit dM in
theorem ReadyOk.reprioritise (h : ReadyOk c k) {p : Nat} {v : Tcb} (ht : k.states.container t = some (.ready p))
    (hp : v.uxPriority < c.configMaxPriorities) (hb : v.uxBasePriority < c.configMaxPriorities)
    (he : 0 < v.xEventItemValue) :
    ReadyOk c (prvAddTaskToReadyList ((Tasks.removeReady k t p).setTcb t v) t) ∧
      ∀ x, k.IsReady x → (prvAddTaskToReadyList ((Tasks.removeReady k t p).setTcb t v) t).IsReady x := by
  obtain ⟨hr, hnone⟩ := h.removeReady ht
  refine ⟨(hr.setTcb (.inl fun q hq => by rw [hnone] at hq; cases hq) hp hb he).add hnone, fun x hx => ?_⟩
  exact isReady_add x fun hne => isReady_of_remove (k := k) rfl hne hx

theorem eventItemValue_pos {p : Nat} (hp : p < c.configMaxPriorities) : 0 < eventItemValue c p := by
  unfold eventItemValue; omega

omit dM in
theorem ReadyOk.setEventItemValue (h : ReadyOk c k) {p : Nat} (hp : p < c.configMaxPriorities) (t : Tid) :
    ReadyOk c (setEventItemValue c k t p) := by
  unfold Tasks.setEventItemValue
  split
  · exact h.setTcb (.inr rfl) (h.priority_lt t) (h.base_lt t) (eventItemValue_pos hp)
  · exact h

omit dT dM in
theorem ReadyOk.not_ready (h : ReadyOk c k) (ht : k.states.container t ≠ some (.ready (k.tcb t).uxPriority)) (p : Nat) :
    k.states.container t ≠ some (.ready p) := fun hp => ht (h.own t p hp ▸ hp)

omit dM in
theorem xTaskPriorityInherit_ready (h : ReadyOk c k) (holder : Option Tid) :
    ReadyOk c (xTaskPriorityInherit c k holder).1 ∧
      ∀ x, k.IsReady x → (xTaskPriorityInherit c k holder).1.IsReady x := by
  cases holder with
  | none => exact ⟨h, fun x hx => hx⟩
  | some t =>
    simp only [xTaskPriorityInherit]
    have hlt := h.priority_lt k.pxCurrentTCB
    split
    · set k1 := setEventItemValue c k t (k.tcb k.pxCurrentTCB).uxPriority with hk1
      have h1 : ReadyOk c k1 := h.setEventItemValue hlt t
      have hs : k1.states = k.states := by rw [hk1, setEventItemValue]; split <;> rfl
      split
      · rename_i hready
        obtain ⟨hok, hstay⟩ := h1.reprioritise (v := { k1.tcb t with uxPriority := (k.tcb k.pxCurrentTCB).uxPriority })
          hready hlt (h1.base_lt t) (h1.event_pos t)
        exact ⟨hok, fun x hx => hstay x (isReady_congr hs hx)⟩
      · rename_i hnot
        refine ⟨h1.setTcb (.inl (h1.not_ready hnot)) hlt (h1.base_lt t) (h1.event_pos t), fun x hx => ?_⟩
        exact isReady_congr (k := k) hs hx
    · exact ⟨h, fun x hx => hx⟩

omit dM in
theorem xTaskPriorityDisinherit_ready (h : ReadyOk c k) (hrun : k.Running) {holder : Option Tid} {b : Bool}
    (hgo : xTaskPriorityDisinherit c k holder = some (k', b)) : ReadyOk c k' ∧ ∀ x, k.IsReady x → k'.IsReady x := by
  cases holder with
  | none =>
    cases hgo
    exact ⟨h, fun x hx => hx⟩
  | some t =>
    simp only [xTaskPriorityDisinherit, bind, pure, bind_eq_some_iff] at hgo
    obtain ⟨_, hcur, _, _, hgo⟩ := hgo
    have hcur : t = k.pxCurrentTCB := of_configAssert hcur
    simp only [setTcb_self] at hgo
    set k1 := k.setTcb t { k.tcb t with uxMutexesHeld := (k.tcb t).uxMutexesHeld - 1 } with hk1
    have h1 : ReadyOk c k1 := h.setTcb (.inr rfl) (h.priority_lt t) (h.base_lt t) (h.event_pos t)
    split at hgo
    · cases hgo
      have hready : k1.states.container t = some (.ready (k.tcb t).uxPriority) := by
        rw [hcur]; exact hrun
      exact h1.reprioritise hready (h.base_lt t) (h.base_lt t) (eventItemValue_pos (h.base_lt t))
    · simp only [some.injEq, Prod.mk.injEq] at hgo
      obtain ⟨rfl, -⟩ := hgo
      exact ⟨h1, fun x hx => hx⟩

/-- The priority a holder goes to when a wait times out. -/
def priorityAfterTimeout (k : Kernel Tid Mid) (h : Tid) (uxHighestPriorityWaitingTask : Nat) : Nat :=
  if (k.tcb h).uxBasePriority < uxHighestPriorityWaitingTask then uxHighestPriorityWaitingTask
  else (k.tcb h).uxBasePriority

/-- A ready holder whose priority changes is not alone in its ready list. -/
def NotAlone (k : Kernel Tid Mid) (h : Tid) (uxHighestPriorityWaitingTask : Nat) : Prop :=
  (k.tcb h).uxPriority ≠ priorityAfterTimeout k h uxHighestPriorityWaitingTask → (k.tcb h).uxMutexesHeld = 1 →
    h ∈ k.ready (k.tcb h).uxPriority → ∃ x ∈ k.ready (k.tcb h).uxPriority, x ≠ h

section
omit dM

theorem setPriority_setEventItemValue (h : ReadyOk c k) {p : Nat} (hp : p < c.configMaxPriorities) (t : Tid) :
    ∃ v : Tcb, setEventItemValue c (k.setPriority t p) t p = k.setTcb t v ∧ v.uxPriority = p ∧
      v.uxBasePriority = (k.tcb t).uxBasePriority ∧ 0 < v.xEventItemValue := by
  unfold setEventItemValue
  split
  · refine ⟨{ k.tcb t with uxPriority := p, xEventItemValue := eventItemValue c p }, ?_, rfl, rfl,
      eventItemValue_pos hp⟩
    simp [Kernel.setPriority, Kernel.setTcb]
  · exact ⟨{ k.tcb t with uxPriority := p }, rfl, rfl, rfl, h.event_pos t⟩

theorem removeReady_setTcb {p q : Nat} {v : Tcb} (ht : k.states.container t = some (.ready p))
    (hleft : (k.ready p).erase t ≠ []) : removeReady (k.setTcb t v) t q = (removeReady k t p).setTcb t v := by
  have hcount : (uxListRemove k t).2 ≠ 0 := by
    simp only [uxListRemove, ht]
    rw [items_remove_self ht]
    exact fun h0 => hleft (List.eq_nil_of_length_eq_zero h0)
  have hcount' : (uxListRemove (k.setTcb t v) t).2 ≠ 0 := hcount
  simp only [removeReady, if_neg hcount, if_neg hcount']
  rfl

theorem vTaskPriorityDisinheritAfterTimeout_ready (h : ReadyOk c k) {p : Nat} (hp : p < c.configMaxPriorities)
    {holder : Option Tid} (hall : ∀ t, holder = some t → NotAlone k t p)
    (hgo : vTaskPriorityDisinheritAfterTimeout c k p holder = some k') :
    ReadyOk c k' ∧ ∀ x, k.IsReady x → k'.IsReady x := by
  cases holder with
  | none =>
    cases hgo
    exact ⟨h, fun x hx => hx⟩
  | some t =>
    simp only [vTaskPriorityDisinheritAfterTimeout, bind, pure, bind_eq_some_iff] at hgo
    obtain ⟨_, _, hgo⟩ := hgo
    have halone := hall t rfl
    rw [show (if (k.tcb t).uxBasePriority < p then p else (k.tcb t).uxBasePriority) = priorityAfterTimeout k t p
      from rfl] at hgo
    have huse : priorityAfterTimeout k t p < c.configMaxPriorities := by
      have := h.base_lt t
      unfold priorityAfterTimeout
      split <;> omega
    obtain ⟨v, hv, hvp, hvb, hve⟩ := setPriority_setEventItemValue h huse t
    have hvp' : v.uxPriority < c.configMaxPriorities := hvp ▸ huse
    have hvb' : v.uxBasePriority < c.configMaxPriorities := hvb ▸ h.base_lt t
    rw [hv] at hgo
    split at hgo
    · rename_i hchange
      obtain ⟨_, _, hgo⟩ := bind_eq_some_iff.mp hgo
      split at hgo
      · rename_i hready
        have hready : k.states.container t = some (.ready (k.tcb t).uxPriority) := hready
        obtain ⟨x, hx, hxt⟩ := halone hchange.1 hchange.2 ((h.states.mem_iff t _).mpr hready)
        have hleft : (k.ready (k.tcb t).uxPriority).erase t ≠ [] :=
          List.ne_nil_of_mem ((List.mem_erase_of_ne hxt).mpr hx)
        rw [removeReady_setTcb hready hleft] at hgo
        cases hgo
        exact h.reprioritise hready hvp' hvb' hve
      · rename_i hnot
        cases hgo
        exact ⟨h.setTcb (.inl (h.not_ready hnot)) hvp' hvb' hve, fun x hx => hx⟩
    · cases hgo
      exact ⟨h, fun x hx => hx⟩

end

/-! ## Blocking and waking -/

omit dM in
theorem prvAddCurrentTaskToDelayedList_ready (h : ReadyOk c k) (hrun : k.Running) (n : Nat) (b : Bool) :
    ReadyOk c (prvAddCurrentTaskToDelayedList c k n b) ∧
      ∀ x, x ≠ k.pxCurrentTCB → k.IsReady x → (prvAddCurrentTaskToDelayedList c k n b).IsReady x := by
  obtain ⟨h1, hnone⟩ := h.removeReady hrun
  set t := k.pxCurrentTCB
  set k1 := removeReady k t (k.tcb t).uxPriority with hk1
  have hready : ∀ x, x ≠ t → k.IsReady x → k1.IsReady x := fun x hx hr => isReady_of_remove (k := k) rfl hx hr
  have hput : ∀ {k2 : Kernel Tid Mid} {l : StateList} {xs : List Tid}, k2.states = k1.states.put l t xs →
      ∀ x, x ≠ t → k.IsReady x → k2.IsReady x := by
    intro k2 l xs hs x hx hr
    obtain ⟨p, hp⟩ := hready x hx hr
    exact ⟨p, by rw [hs, container_put_of_ne _ hx, hp]⟩
  simp only [prvAddCurrentTaskToDelayedList]
  split
  · exact ⟨h1.put hnone (by simp) (List.perm_append_singleton t _), hput rfl⟩
  · simp only [insertDelayed]
    generalize Lib.Word.addw c.tickBits (removeReady k k.pxCurrentTCB (k.tcb k.pxCurrentTCB).uxPriority).xTickCount n =
      wake
    have h2 : ReadyOk c (k1.setTcb t { k1.tcb t with xStateItemValue := wake }) :=
      h1.setTcb (.inr rfl) (h1.priority_lt t) (h1.base_lt t) (h1.event_pos t)
    split
    · exact ⟨h2.put hnone (by simp) (insertBy_perm ..), hput rfl⟩
    · exact ⟨(h2.put hnone (by simp) (insertBy_perm ..)).congr rfl rfl rfl, hput rfl⟩

theorem unblockExpired_ready (h : ReadyOk c k) (fuel : Nat) :
    ReadyOk c (unblockExpired c fuel k) ∧ ∀ x, k.IsReady x → (unblockExpired c fuel k).IsReady x := by
  induction fuel generalizing k with
  | zero => exact ⟨h, fun x hx => hx⟩
  | succ fuel ih =>
    rw [unblockExpired]
    split
    · exact ⟨h.congr rfl rfl rfl, fun x hx => hx⟩
    · rename_i t _ _
      split
      · exact ⟨h.congr rfl rfl rfl, fun x hx => hx⟩
      · have hu : ReadyOk c (unblock k t) :=
          ReadyOk.readd (k := { k with events := k.events.remove t }) (h.congr rfl rfl rfl) t
        obtain ⟨hok, hstay⟩ := ih hu
        exact ⟨hok, fun x hx => hstay x (isReady_unblock hx)⟩

omit dT dM in
theorem countTick_ready (h : ReadyOk c k) (hgo : countTick c k = some k') :
    ReadyOk c k' ∧ ∀ x, k.IsReady x → k'.IsReady x := by
  simp only [countTick, taskSwitchDelayedLists] at hgo
  split at hgo
  · obtain ⟨_, _, hgo⟩ := bind_eq_some_iff.mp hgo
    cases hgo
    exact ⟨h.congr rfl rfl rfl, fun x hx => hx⟩
  · cases hgo
    exact ⟨h.congr rfl rfl rfl, fun x hx => hx⟩

theorem xTaskIncrementTick_ready (h : ReadyOk c k) (hgo : xTaskIncrementTick c k = some k') :
    ReadyOk c k' ∧ ∀ x, k.IsReady x → k'.IsReady x := by
  obtain ⟨k1, hk1, rfl⟩ := map_eq_some_iff.mp hgo
  obtain ⟨h1, hs1⟩ := countTick_ready h hk1
  split
  · obtain ⟨h2, hs2⟩ := unblockExpired_ready h1 (k1.delayed.length + 1)
    exact ⟨h2, fun x hx => hs2 x (hs1 x hx)⟩
  · exact ⟨h1, hs1⟩

/-! ## Runs -/

omit dT dM in
theorem ReadyOk.running (h : ReadyOk c k) (hr : k.IsReady k.pxCurrentTCB) : k.Running := by
  obtain ⟨p, hp⟩ := hr
  rw [Kernel.Running, hp, h.own _ p hp]

omit dT dM in
theorem Kernel.Running.isReady (h : k.Running) : k.IsReady k.pxCurrentTCB := ⟨_, h⟩

omit dM in
@[simp] theorem xTaskPriorityInherit_current (holder : Option Tid) :
    (xTaskPriorityInherit c k holder).1.pxCurrentTCB = k.pxCurrentTCB := by
  cases holder with
  | none => rfl
  | some t =>
    have hev : ∀ p, (setEventItemValue c k t p).pxCurrentTCB = k.pxCurrentTCB := fun p => by
      unfold setEventItemValue; split <;> rfl
    simp only [xTaskPriorityInherit]
    split
    · split
      · exact hev _
      · exact hev _
    · rfl

omit dT dM in
theorem prvGetDisinheritPriorityAfterTimeout_lt (h : ReadyOk c k) (m : Mid) :
    prvGetDisinheritPriorityAfterTimeout c k m < c.configMaxPriorities := by
  have hpos : 0 < c.configMaxPriorities := Nat.zero_lt_of_lt (h.priority_lt k.pxCurrentTCB)
  unfold prvGetDisinheritPriorityAfterTimeout
  split
  · exact hpos
  · rename_i t _ _
    have := h.event_pos t
    omega

/-- When a wait times out, a ready holder whose priority changes shares its ready list. -/
def KeepsList (c : Config) (k : Kernel Tid Mid) : Event Tid Mid → Prop
  | .call .takeTimeout => match k.taking k.pxCurrentTCB with
    | some (m, true) => (k.mutex m).uxMessagesWaiting = 0 →
        ∀ h ∈ (k.mutex m).xMutexHolder, NotAlone k h (prvGetDisinheritPriorityAfterTimeout c k m)
    | _ => True
  | _ => True

/-- The idle task makes no call that may block. -/
def IdleRuns (idle : Tid) (k : Kernel Tid Mid) : Event Tid Mid → Prop
  | .call (.delay _) | .call (.delayUntil _ _) | .call (.takeWait _) => k.pxCurrentTCB ≠ idle
  | _ => True

instance (k : Kernel Tid Mid) (h : Tid) (n : Nat) : Decidable (NotAlone k h n) := by
  unfold NotAlone; infer_instance

instance (k : Kernel Tid Mid) (e : Event Tid Mid) : Decidable (KeepsList c k e) := by
  unfold KeepsList
  split
  · split <;> infer_instance
  · infer_instance

instance (idle : Tid) (k : Kernel Tid Mid) (e : Event Tid Mid) : Decidable (IdleRuns idle k e) := by
  unfold IdleRuns
  split <;> infer_instance

/-- The ready lists are in order and the idle task is in one. -/
structure Sched (c : Config) (idle : Tid) (k : Kernel Tid Mid) : Prop extends ReadyOk c k where
  idle_ready : k.IsReady idle

variable {idle : Tid}

section
variable (h : Sched c idle k)
include h

omit dT dM in
theorem Sched.stay (hr : ReadyOk c k' ∧ ∀ x, k.IsReady x → k'.IsReady x) : Sched c idle k' :=
  ⟨hr.1, hr.2 idle h.idle_ready⟩

omit dT dM in
theorem Sched.congr (hs : k'.states = k.states) (hu : k'.uxTopReadyPriority = k.uxTopReadyPriority)
    (ht : k'.tcb = k.tcb) : Sched c idle k' :=
  ⟨h.toReadyOk.congr hs hu ht, isReady_congr hs h.idle_ready⟩

omit dM in
theorem Sched.block (hrun : k.Running) (hne : k.pxCurrentTCB ≠ idle) (n : Nat) (b : Bool) :
    Sched c idle (prvAddCurrentTaskToDelayedList c k n b) := by
  obtain ⟨hok, hstay⟩ := prvAddCurrentTaskToDelayedList_ready h.toReadyOk hrun n b
  exact ⟨hok, hstay idle (Ne.symm hne) h.idle_ready⟩

theorem takeWait_sched (hrun : k.Running) (hne : k.pxCurrentTCB ≠ idle) (m : Mid) (d : Nat) :
    Sched c idle (takeWait c k m d) := by
  simp only [takeWait]
  split
  · have hin := xTaskPriorityInherit_ready h.toReadyOk (k.mutex m).xMutexHolder
    set k1 := (xTaskPriorityInherit c k (k.mutex m).xMutexHolder).1 with hk1
    have hcur : k1.pxCurrentTCB = k.pxCurrentTCB := xTaskPriorityInherit_current _
    have h1 : Sched c idle k1 := h.stay hin
    have hrun1 : k1.Running := hin.1.running (by rw [hcur]; exact hin.2 _ hrun.isReady)
    refine Sched.block ?_ ?_ ?_ d true
    · exact h1.congr rfl rfl rfl
    · exact hrun1
    · show k1.pxCurrentTCB ≠ idle
      rw [hcur]; exact hne
  · exact h

omit dM in
theorem takeTimeout_sched {m : Mid} {b : Bool}
    (hkeep : b = true → (k.mutex m).uxMessagesWaiting = 0 → ∀ t, (k.mutex m).xMutexHolder = some t →
      NotAlone k t (prvGetDisinheritPriorityAfterTimeout c k m))
    (hgo : takeTimeout c k m b = some k') : Sched c idle k' := by
  simp only [takeTimeout] at hgo
  split at hgo
  · rename_i hzero
    obtain ⟨k1, hk1, rfl⟩ := map_eq_some_iff.mp hgo
    have h1 : Sched c idle k1 := by
      split at hk1
      · rename_i hb
        exact h.stay (vTaskPriorityDisinheritAfterTimeout_ready h.toReadyOk
          (prvGetDisinheritPriorityAfterTimeout_lt h.toReadyOk m) (hkeep hb hzero) hk1)
      · cases hk1
        exact h
    exact h1.congr rfl rfl rfl
  · cases hgo
    exact h

theorem xQueueGenericSend_sched (hrun : k.Running) {m : Mid}
    (hgo : xQueueGenericSend c k m = some k') : Sched c idle k' := by
  simp only [xQueueGenericSend] at hgo
  split at hgo
  · obtain ⟨k1, hk1, rfl⟩ := map_eq_some_iff.mp hgo
    obtain ⟨⟨k2, b⟩, hk2, rfl⟩ := map_eq_some_iff.mp hk1
    have h2 : Sched c idle k2 := h.stay (xTaskPriorityDisinherit_ready h.toReadyOk hrun hk2)
    have h1 : Sched c idle (k2.setMutex m ⟨(k.mutex m).uxMessagesWaiting + 1, none⟩) := h2.congr rfl rfl rfl
    split
    · exact h1
    · rename_i t _ _
      have h3 : Sched c idle { k2.setMutex m ⟨(k.mutex m).uxMessagesWaiting + 1, none⟩ with
          events := k2.events.remove t } := h1.congr rfl rfl rfl
      exact h1.stay ⟨h3.readd t, fun x hx => isReady_add x fun hne => isReady_of_remove (k := k2) rfl hne hx⟩
  · cases hgo
    exact h

theorem takeCheck_sched (m : Mid) : Sched c idle (takeCheck k m) := by
  simp only [takeCheck, pvTaskIncrementMutexHeldCount]
  split
  · have h1 : ReadyOk c (k.setTcb k.pxCurrentTCB
        { k.tcb k.pxCurrentTCB with uxMutexesHeld := (k.tcb k.pxCurrentTCB).uxMutexesHeld + 1 }) :=
      h.setTcb (.inr rfl) (h.priority_lt _) (h.base_lt _) (h.event_pos _)
    exact ⟨h1.congr rfl rfl rfl, h.idle_ready⟩
  · exact h

theorem call_sched (hrun : k.Running) {e : Call Mid} (hkeep : KeepsList c k (.call e))
    (hidle : IdleRuns idle k (.call e)) (hgo : call c k e = some k') : Sched c idle k' := by
  cases called hgo with
  | delay hk =>
    subst hk
    unfold vTaskDelay
    split
    · exact h.block hrun hidle _ _
    · exact h
  | delayUntil hr hk =>
    obtain ⟨_, _, hr⟩ := bind_eq_some_iff.mp hr
    cases hr
    subst hk
    simp only
    split
    · exact h.block hrun hidle _ _
    · exact h
  | setTaking hk => exact hk ▸ h.congr rfl rfl rfl
  | takeCheck hk => exact hk ▸ takeCheck_sched h _
  | takeWait hk => exact hk ▸ takeWait_sched h hrun hidle _ _
  | takeTimeout htaking hk =>
    refine takeTimeout_sched h (fun hb hzero t ht => ?_) hk
    subst hb
    simp only [KeepsList, htaking] at hkeep
    exact hkeep hzero t ht
  | give hk => exact xQueueGenericSend_sched h hrun hk

theorem step_sched {e : Event Tid Mid} (hkeep : KeepsList c k e) (hidle : IdleRuns idle k e)
    (hgo : step c k e = some k') : Sched c idle k' := by
  cases e with
  | switchContext t =>
    obtain ⟨_, _, hgo⟩ := bind_eq_some_iff.mp hgo
    split at hgo <;> cases hgo
    exact h.congr rfl rfl rfl
  | tick => exact h.stay (xTaskIncrementTick_ready h.toReadyOk hgo)
  | call e =>
    simp only [step] at hgo
    split at hgo
    · rename_i hrun
      exact call_sched h hrun hkeep hidle hgo
    · cases hgo

end

/-- Every event of a run happens in a state that meets `p`. -/
def RunMeets (c : Config) (p : Kernel Tid Mid → Event Tid Mid → Prop) (k : Kernel Tid Mid) :
    List (Event Tid Mid) → Prop
  | [] => True
  | e :: es => p k e ∧ match step c k e with
    | none => True
    | some k' => RunMeets c p k' es

def RunMeets.decide {p : Kernel Tid Mid → Event Tid Mid → Prop} [∀ k e, Decidable (p k e)] (k : Kernel Tid Mid) :
    (es : List (Event Tid Mid)) → Decidable (RunMeets c p k es)
  | [] => .isTrue trivial
  | e :: es =>
    have : Decidable (match step c k e with
        | none => True
        | some k' => RunMeets c p k' es) := match step c k e with
      | none => .isTrue trivial
      | some k' => RunMeets.decide k' es
    inferInstanceAs (Decidable (_ ∧ _))

instance {p : Kernel Tid Mid → Event Tid Mid → Prop} [∀ k e, Decidable (p k e)] (k : Kernel Tid Mid)
    (es : List (Event Tid Mid)) : Decidable (RunMeets c p k es) := RunMeets.decide k es

theorem run_sched {es : List (Event Tid Mid)} (h : Sched c idle k)
    (hes : RunMeets c (fun k e => KeepsList c k e ∧ IdleRuns idle k e) k es) (hgo : run c k es = some k') :
    Sched c idle k' := by
  induction es generalizing k with
  | nil =>
    cases hgo
    exact h
  | cons e es ih =>
    obtain ⟨k1, hk1, hgo⟩ := bind_eq_some_iff.mp hgo
    obtain ⟨⟨hkeep, hidle⟩, hrest⟩ := hes
    rw [hk1] at hrest
    exact ih (step_sched h hkeep hidle hk1) hrest hgo

/-! ## The started kernel -/

omit dT dM in
theorem emptyKernel_ready {uxPriority : Tid → Nat} (hp : ∀ t, uxPriority t < c.configMaxPriorities) (first : Tid)
    (xTickCount : Nat) : ReadyOk c (emptyKernel c uxPriority first xTickCount : Kernel Tid Mid) := by
  refine ⟨⟨fun t l => ?_, fun l => List.nodup_nil⟩, fun t p h => ?_, fun p hlt => ?_, hp, hp,
    fun t => eventItemValue_pos (hp t)⟩
  · simp [emptyKernel]
  · simp [emptyKernel] at h
  · simp [emptyKernel, Kernel.ready]

omit dM in
theorem foldl_ready {ts : List Tid} (h : ReadyOk c k) (hnone : ∀ t ∈ ts, k.states.container t = none) (hn : ts.Nodup) :
    ReadyOk c (ts.foldl prvAddTaskToReadyList k) ∧
      ∀ x, x ∈ ts ∨ k.IsReady x → (ts.foldl prvAddTaskToReadyList k).IsReady x := by
  induction ts generalizing k with
  | nil => exact ⟨h, fun x hx => hx.resolve_left (by simp)⟩
  | cons t ts ih =>
    obtain ⟨ht, hts⟩ := List.nodup_cons.mp hn
    have h1 := h.add (hnone t (List.mem_cons_self ..))
    have hnone1 : ∀ x ∈ ts, (prvAddTaskToReadyList k t).states.container x = none := fun x hx => by
      have hne : x ≠ t := fun he => ht (he ▸ hx)
      exact (container_put_of_ne _ hne).trans (hnone x (List.mem_cons_of_mem _ hx))
    obtain ⟨hok, hall⟩ := ih h1 hnone1 hts
    refine ⟨hok, fun x hx => hall x ?_⟩
    rcases hx with hx | hx
    · rcases List.mem_cons.mp hx with rfl | hx
      · exact .inr (isReady_add x fun hne => absurd rfl hne)
      · exact .inl hx
    · exact .inr (isReady_add x fun _ => hx)

omit dM in
theorem startKernel_sched {uxPriority : Tid → Nat} (hp : ∀ t, uxPriority t < c.configMaxPriorities) (first : Tid)
    (xTickCount : Nat) {ts : List Tid} (hn : ts.Nodup) (hidle : idle ∈ ts) :
    Sched c idle (startKernel c uxPriority first xTickCount ts : Kernel Tid Mid) := by
  have h0 : ReadyOk c (emptyKernel c uxPriority first xTickCount : Kernel Tid Mid) :=
    emptyKernel_ready hp first xTickCount
  obtain ⟨hok, hall⟩ := foldl_ready h0 (fun t _ => rfl) hn
  exact ⟨hok, hall idle (.inl hidle)⟩

/-- **The bitmap tells which ready lists have tasks**, if no wait that times out lowers a holder that is alone
in its ready list; each ready task is in the list of its priority, and the list that is selected has a task. -/
theorem ready_bitmap_exact {uxPriority : Tid → Nat} (hp : ∀ t, uxPriority t < c.configMaxPriorities) (first : Tid)
    (xTickCount : Nat) {ts : List Tid} (hn : ts.Nodup) (hidle : idle ∈ ts) {es : List (Event Tid Mid)}
    (hes : RunMeets c (fun k e => KeepsList c k e ∧ IdleRuns idle k e)
      (startKernel c uxPriority first xTickCount ts) es)
    (hrun : run c (startKernel c uxPriority first xTickCount ts) es = some k) :
    (∀ p < 32, k.uxTopReadyPriority.getLsbD p = true ↔ k.ready p ≠ []) ∧
      (∀ p t, t ∈ k.ready p → p = (k.tcb t).uxPriority) ∧
      k.ready (portGetHighestPriority k.uxTopReadyPriority) ≠ [] := by
  have h := run_sched (startKernel_sched hp first xTickCount hn hidle) hes hrun
  refine ⟨h.bits, fun p t ht => h.own t p ((h.states.mem_iff t _).mp ht), ?_⟩
  obtain ⟨p, hr⟩ := h.idle_ready
  have hlist : k.ready p ≠ [] := List.ne_nil_of_mem ((h.states.mem_iff idle _).mpr hr)
  have hlt : p < 32 := by
    have := h.priority_lt idle
    have := c.priorities_le
    rw [h.own idle p hr]
    omega
  have htop := BitVec.getLsbD_true_clz_of_ne_zero (by decide) (h.bits.ne_zero hlt hlist)
  exact (h.bits _ (by unfold portGetHighestPriority; omega)).mp htop

/-- Task 2 waits for the mutex of task 1 and times out, and finds itself in the same ready list. -/
def timeoutShared : List (Event (Fin 4) Bool) :=
  [.call (.delay 9), .switchContext 2, .call (.delay 1), .switchContext 1, .call (.take false), .call .takeCheck,
    .tick, .switchContext 2, .call (.take false), .call .takeCheck, .call (.takeWait 3), .switchContext 1,
    .tick, .tick, .tick, .switchContext 2, .call .takeTimeout]

def priorities (t : Fin 4) : Nat := if t = 3 then 4 else t

theorem ready_bitmap_exact_shared :
    ∃ k, run config32 (startKernel config32 priorities 3 0 [0, 1, 2, 3]) timeoutShared = some k ∧
      (∀ p < 32, k.uxTopReadyPriority.getLsbD p = true ↔ k.ready p ≠ []) ∧
      (∀ p t, t ∈ k.ready p → p = (k.tcb t).uxPriority) ∧
      k.ready (portGetHighestPriority k.uxTopReadyPriority) ≠ [] :=
  Lib.Runs.exists_some_and (by decide +kernel) fun _ hrun => ready_bitmap_exact (by decide) 3 0 (by decide)
    (show (0 : Fin 4) ∈ [0, 1, 2, 3] by decide) (by decide +kernel) hrun

/-- Task 2 holds a mutex that task 3 waits for, and times out at priority 4; task 1 is alone in the list of the
priority that it leaves. -/
def timeoutAlone : List (Event (Fin 4) Bool) :=
  [.call (.delay 3), .switchContext 2, .call (.take true), .call .takeCheck, .call (.delay 1), .switchContext 1,
    .call (.take false), .call .takeCheck, .tick, .switchContext 2, .call (.take false), .call .takeCheck,
    .call (.takeWait 3), .switchContext 1, .tick, .tick, .switchContext 3, .call (.take true), .call .takeCheck,
    .call (.takeWait 10), .switchContext 1, .tick, .switchContext 2, .call .takeTimeout]

/-- Then the bit of priority 2 is set without a task of that priority, and when task 2 blocks next
no task can be selected. -/
theorem ready_bitmap_stale :
    ∃ k k', run config32 (startKernel config32 priorities 3 0 [0, 1, 2, 3]) timeoutAlone = some k ∧
      k.uxTopReadyPriority.getLsbD 2 = true ∧ k.ready 2 = [] ∧
      step config32 k (.call (.delay 100)) = some k' ∧ k'.ready (portGetHighestPriority k'.uxTopReadyPriority) = [] ∧
      k'.ready 1 = [1] := by
  set k := (run config32 (startKernel config32 priorities 3 0 [0, 1, 2, 3]) timeoutAlone).get (by decide +kernel)
  exact ⟨k, _, (some_get _).symm, by decide +kernel, by decide +kernel, (some_get (by decide +kernel)).symm,
    by decide +kernel, by decide +kernel⟩

end RtosKernel.FreeRTOS.Tasks
