import RtosKernel.Lib.Runs
import RtosKernel.FreeRTOS.Mutex

/-! # Priority inheritance is undone

What a task has inherited is bound to the mutexes it holds: the count of held
mutexes is exact, no task is below its base priority, and a task that holds no
mutex runs at its base priority. -/
namespace RtosKernel.FreeRTOS.Tasks
open Lib.Containers FreeRTOS.Def Function Option

variable {Tid Mid : Type} [dT : DecidableEq Tid] [dM : DecidableEq Mid] {c : Config} {k k' : Kernel Tid Mid}

/-! ## What does not touch the account of a task -/

/-- Priorities, counts and mutexes as before. -/
structure SameAccount (k k' : Kernel Tid Mid) : Prop where
  uxPriority : ∀ t, (k'.tcb t).uxPriority = (k.tcb t).uxPriority
  uxBasePriority : ∀ t, (k'.tcb t).uxBasePriority = (k.tcb t).uxBasePriority
  uxMutexesHeld : ∀ t, (k'.tcb t).uxMutexesHeld = (k.tcb t).uxMutexesHeld
  mutex : k'.mutex = k.mutex

section
omit dT dM

theorem SameAccount.refl (k : Kernel Tid Mid) : SameAccount k k := ⟨fun _ => rfl, fun _ => rfl, fun _ => rfl, rfl⟩

theorem SameAccount.trans {k'' : Kernel Tid Mid} (h : SameAccount k k') (h' : SameAccount k' k'') :
    SameAccount k k'' where
  uxPriority t := (h'.uxPriority t).trans (h.uxPriority t)
  uxBasePriority t := (h'.uxBasePriority t).trans (h.uxBasePriority t)
  uxMutexesHeld t := (h'.uxMutexesHeld t).trans (h.uxMutexesHeld t)
  mutex := h'.mutex.trans h.mutex

theorem sameAccount_of_tcb (ht : k'.tcb = k.tcb) (hm : k'.mutex = k.mutex) : SameAccount k k' := by
  refine ⟨fun t => ?_, fun t => ?_, fun t => ?_, hm⟩ <;> rw [ht]

end

section
omit dM

@[simp] theorem setTcb_self (t : Tid) (v : Tcb) : (k.setTcb t v).tcb t = v := update_self ..

theorem setTcb_of_ne {t x : Tid} (v : Tcb) (h : x ≠ t) : (k.setTcb t v).tcb x = k.tcb x :=
  update_of_ne h _ _

theorem sameAccount_setTcb {t : Tid} {v : Tcb} (hp : v.uxPriority = (k.tcb t).uxPriority)
    (hb : v.uxBasePriority = (k.tcb t).uxBasePriority) (hh : v.uxMutexesHeld = (k.tcb t).uxMutexesHeld) :
    SameAccount k (k.setTcb t v) := by
  refine ⟨fun x => ?_, fun x => ?_, fun x => ?_, rfl⟩ <;>
  · by_cases hx : x = t
    · subst hx
      rw [setTcb_self]
      assumption
    · rw [setTcb_of_ne v hx]

theorem insertDelayed_account (n : Nat) : SameAccount k (insertDelayed k n) := by
  have h : SameAccount k (k.setTcb k.pxCurrentTCB { k.tcb k.pxCurrentTCB with xStateItemValue := n }) :=
    sameAccount_setTcb rfl rfl rfl
  simp only [insertDelayed]
  split
  · exact h.trans (sameAccount_of_tcb rfl rfl)
  · exact h.trans (sameAccount_of_tcb rfl rfl)

theorem prvAddCurrentTaskToDelayedList_account (n : Nat) (b : Bool) :
    SameAccount k (prvAddCurrentTaskToDelayedList c k n b) := by
  have h : SameAccount k (removeReady k k.pxCurrentTCB (k.tcb k.pxCurrentTCB).uxPriority) :=
    sameAccount_of_tcb rfl rfl
  simp only [prvAddCurrentTaskToDelayedList]
  split
  · exact h.trans (sameAccount_of_tcb rfl rfl)
  · exact h.trans (insertDelayed_account _)

theorem setTaking_account (t : Tid) (v : Option (Mid × Bool)) : SameAccount k (k.setTaking t v) :=
  sameAccount_of_tcb rfl rfl

end

theorem vTaskPlaceOnEventList_account (m : Mid) (n : Nat) : SameAccount k (vTaskPlaceOnEventList c k m n) := by
  have h : SameAccount k { k with events := k.events.insert (fun x => (k.tcb x).xEventItemValue) m k.pxCurrentTCB } :=
    sameAccount_of_tcb rfl rfl
  exact h.trans (prvAddCurrentTaskToDelayedList_account n true)

theorem unblockExpired_account (fuel : Nat) : SameAccount k (unblockExpired c fuel k) := by
  induction fuel generalizing k with
  | zero => exact .refl k
  | succ fuel ih =>
    rw [unblockExpired]
    split
    · exact sameAccount_of_tcb rfl rfl
    · split
      · exact sameAccount_of_tcb rfl rfl
      · rename_i t _ _ _
        have hu : SameAccount k (unblock k t) := sameAccount_of_tcb rfl rfl
        exact hu.trans ih

omit dT dM in
theorem countTick_account (h : countTick c k = some k') : SameAccount k k' := by
  simp only [countTick, taskSwitchDelayedLists] at h
  split at h
  · obtain ⟨_, _, h⟩ := bind_eq_some_iff.mp h
    cases h
    exact sameAccount_of_tcb rfl rfl
  · cases h
    exact sameAccount_of_tcb rfl rfl

theorem xTaskIncrementTick_account (h : xTaskIncrementTick c k = some k') : SameAccount k k' := by
  obtain ⟨k1, hk1, rfl⟩ := map_eq_some_iff.mp h
  split
  · exact (countTick_account hk1).trans (unblockExpired_account _)
  · exact countTick_account hk1

/-! ## What adjusts one priority -/

/-- Only the priority of task `h` changed, and not to below its base priority. -/
structure Adjusted (k : Kernel Tid Mid) (h : Tid) (k' : Kernel Tid Mid) : Prop where
  uxPriority : ∀ t, t ≠ h → (k'.tcb t).uxPriority = (k.tcb t).uxPriority
  base_le : (k.tcb h).uxBasePriority ≤ (k.tcb h).uxPriority → (k.tcb h).uxBasePriority ≤ (k'.tcb h).uxPriority
  uxBasePriority : ∀ t, (k'.tcb t).uxBasePriority = (k.tcb t).uxBasePriority
  uxMutexesHeld : ∀ t, (k'.tcb t).uxMutexesHeld = (k.tcb t).uxMutexesHeld
  mutex : k'.mutex = k.mutex

omit dT dM in
theorem SameAccount.adjusted (h : SameAccount k k') (t : Tid) : Adjusted k t k' where
  uxPriority x _ := h.uxPriority x
  base_le hb := by rw [h.uxPriority]; exact hb
  uxBasePriority := h.uxBasePriority
  uxMutexesHeld := h.uxMutexesHeld
  mutex := h.mutex

omit dM in
theorem setEventItemValue_account (t : Tid) (p : Nat) : SameAccount k (setEventItemValue c k t p) := by
  unfold setEventItemValue
  split
  · exact sameAccount_setTcb rfl rfl rfl
  · exact .refl k

omit dM in
theorem setPriority_adjusted {t : Tid} {p : Nat}
    (hp : (k.tcb t).uxBasePriority ≤ (k.tcb t).uxPriority → (k.tcb t).uxBasePriority ≤ p) :
    Adjusted k t (k.setPriority t p) where
  uxPriority x hx := by rw [Kernel.setPriority, setTcb_of_ne _ hx]
  base_le hb := by rw [Kernel.setPriority, setTcb_self]; exact hp hb
  uxBasePriority x := by
    by_cases hx : x = t
    · subst hx; rw [Kernel.setPriority, setTcb_self]
    · rw [Kernel.setPriority, setTcb_of_ne _ hx]
  uxMutexesHeld x := by
    by_cases hx : x = t
    · subst hx; rw [Kernel.setPriority, setTcb_self]
    · rw [Kernel.setPriority, setTcb_of_ne _ hx]
  mutex := rfl

omit dT dM in
theorem Adjusted.wrap {k1 k2 k3 : Kernel Tid Mid} {t : Tid} (h1 : SameAccount k k1) (h2 : Adjusted k1 t k2)
    (h3 : SameAccount k2 k3) : Adjusted k t k3 where
  uxPriority x hx := (h3.uxPriority x).trans ((h2.uxPriority x hx).trans (h1.uxPriority x))
  base_le hb := by
    have := h2.base_le (by rw [h1.uxBasePriority, h1.uxPriority]; exact hb)
    rw [h1.uxBasePriority] at this
    rw [h3.uxPriority]
    exact this
  uxBasePriority x := (h3.uxBasePriority x).trans ((h2.uxBasePriority x).trans (h1.uxBasePriority x))
  uxMutexesHeld x := (h3.uxMutexesHeld x).trans ((h2.uxMutexesHeld x).trans (h1.uxMutexesHeld x))
  mutex := h3.mutex.trans (h2.mutex.trans h1.mutex)

omit dM in
theorem xTaskPriorityInherit_adjusted (h : Tid) : Adjusted k h (xTaskPriorityInherit c k (some h)).1 := by
  simp only [xTaskPriorityInherit]
  split
  · set p := (k.tcb k.pxCurrentTCB).uxPriority
    have h1 : SameAccount k (setEventItemValue c k h p) := setEventItemValue_account h p
    have hp : ∀ {k1 : Kernel Tid Mid}, SameAccount k k1 → Adjusted k1 h (k1.setPriority h p) := fun hs =>
      setPriority_adjusted fun hb => by rw [hs.uxBasePriority, hs.uxPriority] at *; omega
    split
    · have h2 := h1.trans (sameAccount_of_tcb rfl rfl)
      exact .wrap h2 (hp h2) (sameAccount_of_tcb rfl rfl)
    · exact .wrap h1 (hp h1) (.refl _)
  · exact (SameAccount.refl k).adjusted h

omit dM in
theorem vTaskPriorityDisinheritAfterTimeout_adjusted {h : Tid} {p : Nat}
    (hgo : vTaskPriorityDisinheritAfterTimeout c k p (some h) = some k') : Adjusted k h k' := by
  simp only [vTaskPriorityDisinheritAfterTimeout, bind, pure, bind_eq_some_iff] at hgo
  obtain ⟨_, _, hgo⟩ := hgo
  set use := if (k.tcb h).uxBasePriority < p then p else (k.tcb h).uxBasePriority with huse
  have hadj : Adjusted k h (k.setPriority h use) := setPriority_adjusted fun _ => by
    rw [huse]; split <;> omega
  have hevent : SameAccount (k.setPriority h use) (setEventItemValue c (k.setPriority h use) h use) :=
    setEventItemValue_account h use
  split at hgo
  · obtain ⟨_, _, hgo⟩ := bind_eq_some_iff.mp hgo
    split at hgo
    · cases hgo
      exact .wrap (.refl k) hadj (hevent.trans (sameAccount_of_tcb rfl rfl))
    · cases hgo
      exact .wrap (.refl k) hadj hevent
  · cases hgo
    exact (SameAccount.refl k).adjusted h

section Account
variable [fM : Fintype Mid]

/-- How many mutexes have the holder `t`. -/
def heldCount (holder : Mid → Option Tid) (t : Tid) : Nat := (Finset.univ.filter fun m => holder m = some t).card

theorem heldCount_clear (holder : Mid → Option Tid) (m : Mid) (t : Tid) :
    heldCount holder t = heldCount (update holder m none) t + if holder m = some t then 1 else 0 := by
  unfold heldCount
  split
  · rename_i hm
    have hinsert : (Finset.univ.filter fun x => holder x = some t) =
        insert m (Finset.univ.filter fun x => update holder m none x = some t) := by
      ext x
      by_cases hx : x = m
      · subst hx; simp [hm]
      · simp [hx]
    rw [hinsert, Finset.card_insert_of_notMem (by simp)]
  · rename_i hm
    congr 2
    ext x
    by_cases hx : x = m
    · subst hx; simp [hm]
    · simp [update_of_ne hx]

theorem heldCount_set {holder : Mid → Option Tid} {m : Mid} (hm : holder m = none) (h t : Tid) :
    heldCount (update holder m (some h)) t = heldCount holder t + if t = h then 1 else 0 := by
  have hclear : update (update holder m (some h)) m none = holder := by
    rw [update_idem, ← hm, update_eq_self]
  rw [heldCount_clear _ m, hclear, update_self]
  simp [eq_comm]

omit dM in
theorem heldCount_pos {holder : Mid → Option Tid} {m : Mid} {t : Tid} (hm : holder m = some t) :
    0 < heldCount holder t :=
  Finset.card_pos.mpr ⟨m, by simp [hm]⟩

def Kernel.holder (k : Kernel Tid Mid) (m : Mid) : Option Tid := (k.mutex m).xMutexHolder

omit dT fM in
theorem holder_setMutex (m : Mid) (v : Mutex Tid) : (k.setMutex m v).holder = update k.holder m v.xMutexHolder := by
  funext x
  by_cases hx : x = m
  · subst hx; simp [Kernel.holder, Kernel.setMutex]
  · simp [Kernel.holder, Kernel.setMutex, update_of_ne hx]

/-- Inheritance is bound to the mutexes a task holds. -/
structure Undone (k : Kernel Tid Mid) : Prop where
  base_le : ∀ t, (k.tcb t).uxBasePriority ≤ (k.tcb t).uxPriority
  held_eq : ∀ t, (k.tcb t).uxMutexesHeld = heldCount k.holder t
  back : ∀ t, (k.tcb t).uxMutexesHeld = 0 → (k.tcb t).uxPriority = (k.tcb t).uxBasePriority
  queue : ∀ m, (k.mutex m).uxMessagesWaiting = if k.holder m = none then 1 else 0

omit dT dM fM in
theorem holder_congr (h : k'.mutex = k.mutex) : k'.holder = k.holder := by
  funext m; rw [Kernel.holder, Kernel.holder, h]

omit dM in
theorem Undone.adjusted (hu : Undone k) {m : Mid} {h : Tid} (hm : k.holder m = some h) (ha : Adjusted k h k') :
    Undone k' := by
  have hpos : 0 < (k.tcb h).uxMutexesHeld := by rw [hu.held_eq]; exact heldCount_pos hm
  refine ⟨fun t => ?_, fun t => ?_, fun t ht => ?_, fun x => ?_⟩
  · rw [ha.uxBasePriority]
    by_cases htm : t = h
    · subst htm; exact ha.base_le (hu.base_le t)
    · rw [ha.uxPriority t htm]; exact hu.base_le t
  · rw [ha.uxMutexesHeld, holder_congr ha.mutex]; exact hu.held_eq t
  · rw [ha.uxMutexesHeld] at ht
    have htm : t ≠ h := fun he => by subst he; omega
    rw [ha.uxPriority t htm, ha.uxBasePriority]
    exact hu.back t ht
  · rw [ha.mutex, holder_congr ha.mutex]; exact hu.queue x

omit dM in
theorem Undone.same (hu : Undone k) (hs : SameAccount k k') : Undone k' where
  base_le t := by rw [hs.uxBasePriority, hs.uxPriority]; exact hu.base_le t
  held_eq t := by rw [hs.uxMutexesHeld, holder_congr hs.mutex]; exact hu.held_eq t
  back t ht := by rw [hs.uxPriority, hs.uxBasePriority]; exact hu.back t (hs.uxMutexesHeld t ▸ ht)
  queue m := by rw [hs.mutex, holder_congr hs.mutex]; exact hu.queue m

/-! ## Taking and giving -/

theorem takeCheck_undone (hu : Undone k) (m : Mid) : Undone (takeCheck k m) := by
  simp only [takeCheck, pvTaskIncrementMutexHeldCount]
  split
  · rename_i hpos
    have hnone : k.holder m = none := by
      by_contra hne
      rw [hu.queue, if_neg hne] at hpos
      omega
    have hone : (k.mutex m).uxMessagesWaiting = 1 := by rw [hu.queue, if_pos hnone]
    set t := k.pxCurrentTCB
    set k1 := k.setTcb t { k.tcb t with uxMutexesHeld := (k.tcb t).uxMutexesHeld + 1 } with hk1
    have hmutex : k1.mutex = k.mutex := rfl
    have hholder : (k1.setMutex m ⟨(k.mutex m).uxMessagesWaiting - 1, some t⟩).holder =
        update k.holder m (some t) := by rw [holder_setMutex, holder_congr hmutex]
    have hk1p : ∀ x, (k1.tcb x).uxPriority = (k.tcb x).uxPriority ∧
        (k1.tcb x).uxBasePriority = (k.tcb x).uxBasePriority ∧
        (k1.tcb x).uxMutexesHeld = (k.tcb x).uxMutexesHeld + if x = t then 1 else 0 := by
      intro x
      by_cases hx : x = t
      · subst hx; simp [hk1]
      · rw [hk1, setTcb_of_ne _ hx]; simp [hx]
    refine Undone.same (k := k1.setMutex m ⟨(k.mutex m).uxMessagesWaiting - 1, some t⟩) ⟨fun x => ?_, fun x => ?_,
      fun x hx => ?_, fun x => ?_⟩ (sameAccount_of_tcb rfl rfl)
    · show (k1.tcb x).uxBasePriority ≤ (k1.tcb x).uxPriority
      rw [(hk1p x).1, (hk1p x).2.1]; exact hu.base_le x
    · show (k1.tcb x).uxMutexesHeld = _
      rw [hholder, heldCount_set hnone, (hk1p x).2.2, hu.held_eq]
    · have hx : (k1.tcb x).uxMutexesHeld = 0 := hx
      rw [(hk1p x).2.2] at hx
      show (k1.tcb x).uxPriority = (k1.tcb x).uxBasePriority
      rw [(hk1p x).1, (hk1p x).2.1]
      exact hu.back x (by omega)
    · rw [hholder]
      by_cases hx : x = m
      · subst hx; simp [Kernel.setMutex, hone]
      · simp only [Kernel.setMutex, update_of_ne hx]
        exact hu.queue x
  · exact hu

theorem takeWait_undone (hu : Undone k) (m : Mid) (d : Nat) : Undone (takeWait c k m d) := by
  simp only [takeWait]
  split
  · have hin : Undone (xTaskPriorityInherit c k (k.mutex m).xMutexHolder).1 := by
      cases hm : (k.mutex m).xMutexHolder with
      | none => exact hu
      | some h => exact hu.adjusted hm (xTaskPriorityInherit_adjusted h)
    exact hin.same ((setTaking_account _ _).trans (vTaskPlaceOnEventList_account m d))
  · exact hu

omit dM in
theorem takeTimeout_undone (hu : Undone k) {m : Mid} {b : Bool} (hgo : takeTimeout c k m b = some k') :
    Undone k' := by
  simp only [takeTimeout] at hgo
  split at hgo
  · obtain ⟨k1, hk1, rfl⟩ := map_eq_some_iff.mp hgo
    have h1 : Undone k1 := by
      split at hk1
      · cases hm : (k.mutex m).xMutexHolder with
        | none =>
          rw [hm] at hk1
          cases hk1
          exact hu
        | some h =>
          rw [hm] at hk1
          exact hu.adjusted hm (vTaskPriorityDisinheritAfterTimeout_adjusted hk1)
      · cases hk1
        exact hu
    exact h1.same (setTaking_account _ _)
  · cases hgo
    exact hu

omit fM dM in
theorem xTaskPriorityDisinherit_spec {h : Tid} {b : Bool} (hgo : xTaskPriorityDisinherit c k (some h) = some (k', b)) :
    k'.mutex = k.mutex ∧ 0 < (k.tcb h).uxMutexesHeld ∧ (∀ t, (k'.tcb t).uxBasePriority = (k.tcb t).uxBasePriority) ∧
      (∀ t, (k'.tcb t).uxMutexesHeld = (k.tcb t).uxMutexesHeld - if t = h then 1 else 0) ∧
      (∀ t, (k'.tcb t).uxPriority = if t = h ∧ (k.tcb h).uxMutexesHeld = 1 then (k.tcb h).uxBasePriority
        else (k.tcb t).uxPriority) := by
  simp only [xTaskPriorityDisinherit, bind, pure, bind_eq_some_iff] at hgo
  obtain ⟨_, _, _, hheld, hgo⟩ := hgo
  have hheld := of_configAssert hheld
  simp only [setTcb_self] at hgo
  have hupdate : ∀ {v : Tcb} {k1 : Kernel Tid Mid}, k1.tcb = (k.setTcb h v).tcb →
      v.uxBasePriority = (k.tcb h).uxBasePriority → v.uxMutexesHeld = (k.tcb h).uxMutexesHeld - 1 →
      v.uxPriority = (if (k.tcb h).uxMutexesHeld = 1 then (k.tcb h).uxBasePriority else (k.tcb h).uxPriority) →
      (∀ t, (k1.tcb t).uxBasePriority = (k.tcb t).uxBasePriority) ∧
        (∀ t, (k1.tcb t).uxMutexesHeld = (k.tcb t).uxMutexesHeld - if t = h then 1 else 0) ∧
        (∀ t, (k1.tcb t).uxPriority = if t = h ∧ (k.tcb h).uxMutexesHeld = 1 then (k.tcb h).uxBasePriority
          else (k.tcb t).uxPriority) := by
    intro v k1 hk1 hb hh hp
    rw [hk1, ← forall_and, ← forall_and]
    intro t
    by_cases ht : t = h
    · subst ht
      rw [setTcb_self, hb, hh, hp]
      simp
    · rw [setTcb_of_ne v ht]
      simp [ht]
  split at hgo
  · cases hgo
    refine ⟨rfl, Nat.pos_of_ne_zero hheld, ?_⟩
    refine hupdate (v := ⟨(k.tcb h).uxBasePriority, (k.tcb h).uxBasePriority, (k.tcb h).uxMutexesHeld - 1,
      (k.tcb h).xStateItemValue, eventItemValue c (k.tcb h).uxBasePriority⟩) (update_idem ..) rfl rfl ?_
    rw [if_pos (by omega)]
  · rename_i hnot
    cases hgo
    refine ⟨rfl, Nat.pos_of_ne_zero hheld, ?_⟩
    refine hupdate (v := { k.tcb h with uxMutexesHeld := (k.tcb h).uxMutexesHeld - 1 }) rfl rfl rfl ?_
    split
    · by_contra hne
      exact hnot ⟨hne, by omega⟩
    · rfl

theorem xQueueGenericSend_undone (hu : Undone k) {m : Mid} (hgo : xQueueGenericSend c k m = some k') : Undone k' := by
  simp only [xQueueGenericSend] at hgo
  split at hgo
  · obtain ⟨k1, hk1, rfl⟩ := map_eq_some_iff.mp hgo
    obtain ⟨⟨k2, b⟩, hk2, rfl⟩ := map_eq_some_iff.mp hk1
    have hzero : (k.mutex m).uxMessagesWaiting = 0 := by omega
    have hheld : k.holder m ≠ none := fun hn => by rw [hu.queue, if_pos hn] at hzero; omega
    obtain ⟨h, hm⟩ := ne_none_iff_exists'.mp hheld
    have hk2' : xTaskPriorityDisinherit c k (some h) = some (k2, b) := by rw [← hk2, ← hm]; rfl
    obtain ⟨hmutex, hpos, hbase, hcount, hprio⟩ := xTaskPriorityDisinherit_spec hk2'
    have hholder : (k2.setMutex m ⟨(k.mutex m).uxMessagesWaiting + 1, none⟩).holder =
        update k.holder m none := by rw [holder_setMutex, holder_congr hmutex]
    have hdone : Undone (k2.setMutex m ⟨(k.mutex m).uxMessagesWaiting + 1, none⟩) := by
      refine ⟨fun t => ?_, fun t => ?_, fun t ht => ?_, fun x => ?_⟩
      · show (k2.tcb t).uxBasePriority ≤ (k2.tcb t).uxPriority
        rw [hbase, hprio]
        split
        · rename_i hlast; rw [hlast.1]
        · exact hu.base_le t
      · show (k2.tcb t).uxMutexesHeld = _
        rw [hholder, hcount, hu.held_eq, heldCount_clear _ m, hm]
        by_cases ht : t = h
        · subst ht; simp
        · simp [ht, Ne.symm ht]
      · have ht : (k2.tcb t).uxMutexesHeld = 0 := ht
        rw [hcount] at ht
        show (k2.tcb t).uxPriority = (k2.tcb t).uxBasePriority
        rw [hbase, hprio]
        split
        · rename_i hlast; rw [hlast.1]
        · rename_i hnot
          by_cases hth : t = h
          · subst hth
            rw [if_pos rfl] at ht
            exact absurd ⟨rfl, by omega⟩ hnot
          · rw [if_neg hth] at ht
            exact hu.back t (by omega)
      · rw [hholder]
        by_cases hx : x = m
        · subst hx; simp [Kernel.setMutex, hzero]
        · simp only [Kernel.setMutex, update_of_ne hx, hmutex]
          exact hu.queue x
    split
    · exact hdone
    · exact hdone.same (sameAccount_of_tcb rfl rfl)
  · cases hgo
    exact hu

/-! ## Runs -/

/-- What a call does. -/
inductive Called (c : Config) (k k' : Kernel Tid Mid) : Call Mid → Prop
  | delay {d : Nat} (h : k' = vTaskDelay c k d) : Called c k k' (.delay d)
  | delayUntil {prev inc : Nat} {r : Kernel Tid Mid × Nat × Bool} (h : xTaskDelayUntil c k prev inc = some r) (hk : k' = r.1) :
      Called c k k' (.delayUntil prev inc)
  | setTaking {e : Call Mid} {v : Option (Mid × Bool)} (h : k' = k.setTaking k.pxCurrentTCB v) : Called c k k' e
  | takeCheck {m : Mid} (h : k' = takeCheck k m) : Called c k k' .takeCheck
  | takeWait {d : Nat} {m : Mid} (h : k' = takeWait c k m d) : Called c k k' (.takeWait d)
  | takeTimeout {m : Mid} {b : Bool} (htaking : k.taking k.pxCurrentTCB = some (m, b)) (h : takeTimeout c k m b = some k') :
      Called c k k' .takeTimeout
  | give {m : Mid} (h : xQueueGenericSend c k m = some k') : Called c k k' (.give m)

omit [Fintype Mid] in
theorem called {e : Call Mid} (hgo : call c k e = some k') : Called c k k' e := by
  unfold call at hgo
  cases e with
  | delayUntil prev inc =>
    simp only at hgo
    split at hgo
    · obtain ⟨r, hr, rfl⟩ := map_eq_some_iff.mp hgo
      exact .delayUntil hr rfl
    · cases hgo
  | takeFail =>
    simp only at hgo
    split at hgo
    · obtain ⟨_, _, hgo⟩ := bind_eq_some_iff.mp hgo
      cases hgo
      exact .setTaking rfl
    · cases hgo
  | takeTimeout =>
    simp only at hgo
    split at hgo
    · exact .takeTimeout ‹_› hgo
    · cases hgo
  | give m =>
    simp only at hgo
    split at hgo
    · exact .give hgo
    · cases hgo
  | delay | take | takeCheck | takeWait =>
    simp only at hgo
    split at hgo <;> cases hgo
    first | exact .delay rfl | exact .setTaking rfl | exact .takeCheck rfl | exact .takeWait rfl

theorem call_undone (hu : Undone k) {e : Call Mid} (hgo : call c k e = some k') : Undone k' := by
  cases called hgo with
  | delay h =>
    subst h
    unfold vTaskDelay
    split
    · exact hu.same (prvAddCurrentTaskToDelayedList_account ..)
    · exact hu
  | delayUntil h hk =>
    obtain ⟨_, _, hr⟩ := bind_eq_some_iff.mp h
    cases hr
    subst hk
    simp only
    split
    · exact hu.same (prvAddCurrentTaskToDelayedList_account ..)
    · exact hu
  | setTaking h => exact h ▸ hu.same (setTaking_account _ _)
  | takeCheck h => exact h ▸ takeCheck_undone hu _
  | takeWait h => exact h ▸ takeWait_undone hu _ _
  | takeTimeout _ h => exact takeTimeout_undone hu h
  | give h => exact xQueueGenericSend_undone hu h

theorem step_undone (hu : Undone k) {e : Event Tid Mid} (hgo : step c k e = some k') : Undone k' := by
  cases e with
  | switchContext t =>
    obtain ⟨_, _, hgo⟩ := bind_eq_some_iff.mp hgo
    split at hgo <;> cases hgo
    exact hu.same (sameAccount_of_tcb rfl rfl)
  | tick => exact hu.same (xTaskIncrementTick_account hgo)
  | call e =>
    simp only [step] at hgo
    split at hgo
    · exact call_undone hu hgo
    · cases hgo

theorem run_undone {es : List (Event Tid Mid)} (hu : Undone k) (hgo : run c k es = some k') : Undone k' := by
  induction es generalizing k with
  | nil =>
    cases hgo
    exact hu
  | cons e es ih =>
    obtain ⟨k1, hk1, hgo⟩ := bind_eq_some_iff.mp hgo
    exact ih (step_undone hu hk1) hgo

omit fM dM in
theorem foldl_account (ts : List Tid) : SameAccount k (ts.foldl prvAddTaskToReadyList k) := by
  induction ts generalizing k with
  | nil => exact .refl k
  | cons t ts ih =>
    have hadd : SameAccount k (prvAddTaskToReadyList k t) := sameAccount_of_tcb rfl rfl
    exact hadd.trans ih

omit dM in
theorem startKernel_undone (uxPriority : Tid → Nat) (first : Tid) (xTickCount : Nat) (ts : List Tid) :
    Undone (startKernel c uxPriority first xTickCount ts : Kernel Tid Mid) := by
  have h0 : Undone (emptyKernel c uxPriority first xTickCount : Kernel Tid Mid) := by
    refine ⟨fun t => Nat.le_refl _, fun t => ?_, fun t _ => rfl, fun m => rfl⟩
    simp [heldCount, emptyKernel, Kernel.holder]
  exact h0.same (foldl_account ts)

/-- **Priority inheritance is always undone.** In every state that a run reaches from a started
kernel, no task is below its base priority, each counts the mutexes it holds, and one that holds
none runs at its base priority. -/
theorem inheritance_undone (uxPriority : Tid → Nat) (first : Tid) (xTickCount : Nat) (ts : List Tid)
    {es : List (Event Tid Mid)} (hrun : run c (startKernel c uxPriority first xTickCount ts) es = some k) (t : Tid) :
    (k.tcb t).uxBasePriority ≤ (k.tcb t).uxPriority ∧
      (k.tcb t).uxMutexesHeld = (Finset.univ.filter fun m => (k.mutex m).xMutexHolder = some t).card ∧
      ((k.tcb t).uxMutexesHeld = 0 → (k.tcb t).uxPriority = (k.tcb t).uxBasePriority) := by
  have hu := run_undone (startKernel_undone uxPriority first xTickCount ts) hrun
  exact ⟨hu.base_le t, hu.held_eq t, hu.back t⟩

end Account

theorem config32_bits : 0 < 32 := by decide

/-- 32-bit ticks and five priorities. -/
def config32 : Config where
  tickBits := 32
  configMaxPriorities := 5
  includeVTaskSuspend := true
  bits_pos := config32_bits
  priorities_le := by decide

/-- Task 1 takes the mutex while task 2 is delayed, task 2 waits for it, and task 1 gives it. -/
def inheritOnce : List (Event (Fin 3) Unit) :=
  [.call (.delay 2), .switchContext 1, .call (.take ()), .call .takeCheck, .tick, .tick, .switchContext 2,
    .call (.take ()), .call .takeCheck, .call (.takeWait 5), .switchContext 1, .call (.give ())]

theorem inheritance_undone_once :
    ∃ k, run config32 (startKernel config32 (fun t : Fin 3 => t) 2 0xFFFFFFFE [0, 1, 2]) inheritOnce = some k ∧
      ∀ t, (k.tcb t).uxBasePriority ≤ (k.tcb t).uxPriority ∧
        (k.tcb t).uxMutexesHeld = (Finset.univ.filter fun m => (k.mutex m).xMutexHolder = some t).card ∧
        ((k.tcb t).uxMutexesHeld = 0 → (k.tcb t).uxPriority = (k.tcb t).uxBasePriority) :=
  Lib.Runs.exists_some_and (by decide +kernel) fun _ hrun t => inheritance_undone _ _ _ _ hrun t

end RtosKernel.FreeRTOS.Tasks
