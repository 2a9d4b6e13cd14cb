import RtosKernel.RtThread.WorkQueue

/-! # What the flags of a work item say

Of an item, everything the functions compare is in one place: the list its node
is in, and its record. As long as a submission stops the timer it replaces, and
`rt_workqueue_urgent_work` is only used to move an item that is pending already,
the flags, the timer and the owner agree with the lists. -/
namespace RtosKernel.RtThread.WorkQueue
open Lib.Containers Lib.Runs

variable {W : Type} [dW : DecidableEq W]

/-! ## What holds of an item -/

/-- The record of an item agrees with the list it is in. -/
structure WorkOk (container : Option ListName) (r : RtWork) : Prop where
  pending : container = some .workList ↔ r.pending = true
  delayed : container = some .delayedList ↔ r.submitting = true
  active : r.timerActive = r.submitting
  owner : container ≠ none → r.workqueue = .queue
  cause : container = some .workList → r.cause = .call r.submissions ∨ r.cause = .delay r.submissions
  timer : r.submitting = true → r.timerOf = r.submissions

theorem WorkOk.idle {c : Option ListName} {r : RtWork} (h : WorkOk c r) (hc : c ≠ some .delayedList) :
    r.submitting = false := by
  rw [Bool.eq_false_iff]
  exact fun hsub => hc (h.delayed.mpr hsub)

theorem WorkOk.unqueued {c : Option ListName} {r : RtWork} (h : WorkOk c r) (hc : c ≠ some .workList) :
    r.pending = false := by
  rw [Bool.eq_false_iff]
  exact fun hp => hc (h.pending.mpr hp)

/-- What the thread has run was asked for last. -/
def Ran.Current (x : Ran W) : Prop := ∀ n, x.cause = .delay n → n = x.submissions

/-- The lists are sound, and so is every item. -/
structure Inv (s : State W) : Prop where
  lists : s.lists.Ok
  work : ∀ w, WorkOk (s.lists.container w) (s.work w)
  ran : ∀ x ∈ s.ran, x.Current

variable {s s' : State W} {w : W} {k : ListName}

theorem container_remove : (s.lists.remove w).container = Function.update s.lists.container w none := by
  funext x
  by_cases hx : x = w
  · subst hx
    simp
  · rw [container_remove_of_ne hx, Function.update_of_ne hx]

theorem Inv.change (h : Inv s) (w : W) (hl : s'.lists.Ok) {c : Option ListName} {r : RtWork}
    (hcontainer : s'.lists.container = Function.update s.lists.container w c)
    (hwork : s'.work = Function.update s.work w r) (hok : WorkOk c r) (hran : ∀ x ∈ s'.ran, x.Current) : Inv s' where
  lists := hl
  work x := by
    rw [hcontainer, hwork]
    by_cases hx : x = w
    · subst hx
      simpa using hok
    · simpa [Function.update_of_ne hx] using h.work x
  ran := hran

section
omit dW

@[simp] theorem resumeThread_lists : (resumeThread s).lists = s.lists := by
  unfold resumeThread
  split <;> rfl

@[simp] theorem resumeThread_work : (resumeThread s).work = s.work := by
  unfold resumeThread
  split <;> rfl

@[simp] theorem resumeThread_ran : (resumeThread s).ran = s.ran := by
  unfold resumeThread
  split <;> rfl

end

theorem removed_pushBack (h : Inv s) (k : ListName) (w : W) : ((s.lists.remove w).pushBack k w).Ok :=
  (h.lists.remove w).pushBack container_remove_self

theorem container_pushBack (k : ListName) (w : W) :
    ((s.lists.remove w).pushBack k w).container = Function.update s.lists.container w (some k) := by
  unfold Lists.pushBack Lists.put
  rw [container_remove, Function.update_idem]

/-! ## The functions -/

/-- The submissions that the code handles: one without a delay, or with one that is too long, is not made while
a delay runs, and an urgent one is of an item that is pending. -/
def Orderly (s : State W) : Act W → Prop
  | .dowork w => ¬(s.work w).submitting
  | .submitWork w ticks => (s.work w).submitting → 0 < ticks ∧ ticks < rtTickMax / 2
  | .urgentWork w => (s.work w).pending
  | _ => True

instance (s : State W) (a : Act W) : Decidable (Orderly s a) := by
  cases a <;> dsimp only [Orderly] <;> infer_instance

theorem Inv.submit (h : Inv s) (ticks : Nat)
    (hdelay : (s.work w).submitting = true → 0 < ticks ∧ ticks < rtTickMax / 2) :
    Inv (workqueueSubmitWork s w ticks).1 := by
  have hactive := (h.work w).active
  unfold workqueueSubmitWork workqueueSubmitSection rtTimerStart
  by_cases hzero : ticks = 0
  · have hidle : (s.work w).submitting = false := by
      rw [Bool.eq_false_iff]
      intro hsub
      have := (hdelay hsub).1
      omega
    by_cases hcurrent : s.workCurrent = some w
    · refine h.change w (c := none) (r := { (s.work w).submitted with pending := false }) ?_ ?_ ?_ ?_ ?_
      · simpa [hzero, hcurrent, rtListRemove, State.update] using h.lists.remove w
      · simp [hzero, hcurrent, rtListRemove, State.update, container_remove]
      · simp [hzero, hcurrent, rtListRemove, State.update]
      · constructor <;> simp [RtWork.submitted, hidle, hactive]
      · simpa [hzero, hcurrent, rtListRemove, State.update] using h.ran
    · refine h.change w (c := some .workList)
        (r := { (s.work w).submitted.called with pending := true, workqueue := .queue }) ?_ ?_ ?_ ?_ ?_
      · simpa [hzero, hcurrent, rtListRemove, State.update, insertLast] using removed_pushBack h .workList w
      · simp [hzero, hcurrent, rtListRemove, State.update, insertLast, container_pushBack]
      · simp [hzero, hcurrent, rtListRemove, State.update, insertLast, RtWork.submitted, RtWork.called]
      · constructor <;> simp [RtWork.submitted, RtWork.called, hidle, hactive]
      · simpa [hzero, hcurrent, rtListRemove, State.update, insertLast] using h.ran
  · by_cases hlong : ticks < rtTickMax / 2
    · refine h.change w (c := some .delayedList)
        (r := { (s.work w).submitted with
          pending := false, submitting := true, workqueue := .queue, timerActive := true
          timerOf := (s.work w).submissions + 1 }) ?_ ?_ ?_ ?_ ?_
      · cases hsub : (s.work w).submitting <;>
          simpa [hzero, hlong, hsub, rtListRemove, State.update, insertLast, RtWork.submitted] using
            removed_pushBack h .delayedList w
      · cases hsub : (s.work w).submitting <;>
          simp [hzero, hlong, hsub, rtListRemove, State.update, insertLast, RtWork.submitted, container_pushBack]
      · cases hsub : (s.work w).submitting <;>
          simp [hzero, hlong, hsub, rtListRemove, State.update, insertLast, RtWork.submitted]
      · constructor <;> simp [RtWork.submitted]
      · cases hsub : (s.work w).submitting <;>
          simpa [hzero, hlong, hsub, rtListRemove, State.update, insertLast, RtWork.submitted] using h.ran
    · have hidle : (s.work w).submitting = false := by
        rw [Bool.eq_false_iff]
        exact fun hsub => hlong (hdelay hsub).2
      refine h.change w (c := none) (r := { (s.work w).submitted with pending := false }) ?_ ?_ ?_ ?_ ?_
      · simpa [hzero, hlong, rtListRemove, State.update] using h.lists.remove w
      · simp [hzero, hlong, rtListRemove, State.update, container_remove]
      · simp [hzero, hlong, rtListRemove, State.update]
      · constructor <;> simp [RtWork.submitted, hidle, hactive]
      · simpa [hzero, hlong, rtListRemove, State.update] using h.ran

theorem Inv.urgent (h : Inv s) (hp : (s.work w).pending = true) : Inv (rtWorkqueueUrgentWork s w).1 := by
  have hin := (h.work w).pending.mpr hp
  have hidle := (h.work w).idle (by rw [hin]; simp)
  have howner := (h.work w).owner (by rw [hin]; simp)
  refine h.change w (c := some .workList) (r := (s.work w).submitted.called) ?_ ?_ ?_ ?_ ?_
  · have hput : ((s.lists.remove w).put .workList w (w :: (s.lists.remove w).items .workList)).Ok :=
      (h.lists.remove w).put container_remove_self (.refl _)
    simpa [rtWorkqueueUrgentWork, insertFirst, rtListRemove, State.update] using hput
  · simp [rtWorkqueueUrgentWork, insertFirst, rtListRemove, State.update, Lists.put, container_remove]
  · simp [rtWorkqueueUrgentWork, insertFirst, rtListRemove, State.update]
  · constructor <;> simp [RtWork.submitted, RtWork.called, hidle, hp, howner, (h.work w).active]
  · simpa [rtWorkqueueUrgentWork, insertFirst, rtListRemove, State.update] using h.ran

theorem workqueueCancelWork_lists : (workqueueCancelWork s w).1.lists = s.lists.remove w := by
  unfold workqueueCancelWork
  by_cases hsub : (s.work w).submitting <;> simp [hsub, rtListRemove, State.update]

theorem Inv.cancel (h : Inv s) (w : W) : Inv (workqueueCancelWork s w).1 := by
  have hactive := (h.work w).active
  refine h.change w (c := none) (r := { s.work w with
    pending := false, submitting := false, timerActive := false, workqueue := .null }) ?_ ?_ ?_ ?_ ?_
  · rw [workqueueCancelWork_lists]
    exact h.lists.remove w
  · rw [workqueueCancelWork_lists, container_remove]
  · unfold workqueueCancelWork
    cases hsub : (s.work w).submitting
    · simp [hsub, hactive, rtListRemove, State.update]
    · simp [hsub, rtListRemove, State.update]
  · constructor <;> simp
  · unfold workqueueCancelWork
    by_cases hsub : (s.work w).submitting <;> simpa [hsub, rtListRemove, State.update] using h.ran

theorem Inv.cancelList (k : ListName) : ∀ (fuel : Nat) {s : State W}, Inv s → (s.lists.items k).length < fuel →
    ∃ s', cancelList k fuel s = some s' ∧ Inv s'
  | 0, _, _, hlt => absurd hlt (Nat.not_lt_zero _)
  | fuel + 1, s, h, hlt => by
    unfold WorkQueue.cancelList
    cases hitems : s.lists.items k with
    | nil => exact ⟨s, rfl, h⟩
    | cons w rest =>
      refine Inv.cancelList k fuel (h.cancel w) ?_
      have hmem : w ∈ s.lists.items k := by rw [hitems]; exact List.mem_cons_self ..
      rw [workqueueCancelWork_lists, items_remove h.lists, List.length_erase_of_mem hmem]
      have := List.length_pos_of_mem hmem
      omega

theorem Inv.cancelAll (h : Inv s) : ∃ s', rtWorkqueueCancelAllWork s = some s' ∧ Inv s' := by
  obtain ⟨s₁, h₁, hinv⟩ := h.cancelList .workList _ (Nat.lt_succ_self _)
  obtain ⟨s₂, h₂, hinv⟩ := hinv.cancelList .delayedList _ (Nat.lt_succ_self _)
  refine ⟨s₂, ?_, hinv⟩
  unfold rtWorkqueueCancelAllWork
  rw [h₁]
  exact h₂

theorem Inv.expire (h : Inv s) (ha : (s.work w).timerActive = true) :
    ∃ s', delayedWorkTimeoutHandler (s.update w fun r => { r with timerActive := false }) w = .ok s' ∧ Inv s' := by
  have hsub : (s.work w).submitting = true := (h.work w).active ▸ ha
  have hin := (h.work w).delayed.mpr hsub
  have howner := (h.work w).owner (by rw [hin]; simp)
  have hpending := (h.work w).unqueued (by rw [hin]; simp)
  have htimer := (h.work w).timer hsub
  refine ⟨_, if_neg (by simp [State.update, howner]), ?_⟩
  unfold delayedWorkTimeoutSection
  by_cases hcurrent : s.workCurrent = some w
  · refine h.change w (c := none) (r := { s.work w with timerActive := false, submitting := false }) ?_ ?_ ?_ ?_ ?_
    · simpa [hcurrent, rtListRemove, State.update] using h.lists.remove w
    · simp [hcurrent, rtListRemove, State.update, container_remove]
    · simp [hcurrent, rtListRemove, State.update]
    · constructor <;> simp [hpending]
    · simpa [hcurrent, rtListRemove, State.update] using h.ran
  · refine h.change w (c := some .workList) (r := { s.work w with
      timerActive := false, submitting := false, pending := true, cause := .delay (s.work w).timerOf }) ?_ ?_ ?_ ?_ ?_
    · simpa [hcurrent, rtListRemove, State.update, insertLast] using removed_pushBack h .workList w
    · simp [hcurrent, rtListRemove, State.update, insertLast, container_pushBack]
    · simp [hcurrent, rtListRemove, State.update, insertLast]
    · constructor <;> simp [howner, htimer]
    · simpa [hcurrent, rtListRemove, State.update, insertLast] using h.ran

theorem Inv.take (h : Inv s) : Inv (threadTake s) := by
  unfold threadTake
  cases hitems : s.lists.items .workList with
  | nil => exact ⟨h.lists, h.work, h.ran⟩
  | cons w rest =>
    have hmem : w ∈ s.lists.items .workList := by rw [hitems]; exact List.mem_cons_self ..
    have hin := (h.lists.mem_iff w .workList).mp hmem
    have hidle := (h.work w).idle (by rw [hin]; simp)
    refine h.change w (c := none) (r := { s.work w with pending := false, workqueue := .null }) ?_ ?_ ?_ ?_ ?_
    · exact h.lists.remove w
    · exact container_remove
    · rfl
    · constructor <;> simp [hidle, (h.work w).active]
    · intro x hx
      rcases List.mem_cons.mp hx with rfl | hx
      · -- the item was queued by the call that is counted last
        intro n hn
        have hcause := (h.work w).cause hin
        change (s.work w).cause = _ at hn
        rw [hn] at hcause
        rcases hcause with hcause | hcause
        · cases hcause
        · cases hcause
          rfl
      · exact h.ran x hx

theorem Inv.step {a : Act W} (h : Inv s) (ha : Orderly s a) (hs : step s a = .ok s') : Inv s' := by
  cases a with
  | dowork w =>
    cases hs
    exact h.submit 0 fun hsub => absurd hsub ha
  | submitWork w ticks =>
    cases hs
    exact h.submit ticks ha
  | urgentWork w =>
    cases hs
    exact h.urgent ha
  | cancelWork w =>
    cases hs
    exact h.cancel w
  | cancelAllWork =>
    obtain ⟨s₁, h₁, hinv⟩ := h.cancelAll
    simp only [WorkQueue.step, h₁] at hs
    cases hs
    exact hinv
  | expire w =>
    simp only [WorkQueue.step] at hs
    split at hs
    · rename_i hactive
      obtain ⟨s₁, h₁, hinv⟩ := h.expire hactive
      rw [h₁] at hs
      cases hs
      exact hinv
    · cases hs
  | take =>
    simp only [WorkQueue.step] at hs
    split at hs <;> cases hs
    exact h.take
  | done =>
    simp only [WorkQueue.step] at hs
    split at hs
    · cases hs
    · cases hs
      exact ⟨h.lists, h.work, h.ran⟩

omit dW in
theorem created_inv : Inv (rtWorkqueueCreate : State W) where
  lists := ⟨by simp [rtWorkqueueCreate], by simp [rtWorkqueueCreate]⟩
  work w := by constructor <;> simp [rtWorkqueueCreate, rtWorkInit]
  ran := by simp [rtWorkqueueCreate]

/-! ## What the flags say -/

/-- The flags, the timer and the owner agree with the lists, and no item has run because of a delay that a later
submission replaced. -/
structure Consistent (s : State W) : Prop where
  pending : ∀ w, w ∈ s.lists.items .workList ↔ (s.work w).pending = true
  active : ∀ w, (s.work w).timerActive = true ↔ (s.work w).submitting = true
  delayed : ∀ w, (s.work w).submitting = true → w ∈ s.lists.items .delayedList
  owner : ∀ w k, w ∈ s.lists.items k → (s.work w).workqueue = .queue
  ran : ∀ x ∈ s.ran, x.Current

omit dW in
theorem Inv.consistent (h : Inv s) : Consistent s where
  pending w := by rw [h.lists.mem_iff, (h.work w).pending]
  active w := by rw [(h.work w).active]
  delayed w hsub := (h.lists.mem_iff w _).mpr ((h.work w).delayed.mpr hsub)
  owner w k hw := by
    rw [h.lists.mem_iff] at hw
    exact (h.work w).owner (by rw [hw]; simp)
  ran := h.ran

/-- After the step everything agrees, and the handler of a timer finds the queue. -/
def Sound (s : State W) (a : Act W) : Prop :=
  step s a ≠ .error .assertQueue ∧ ∀ s', step s a = .ok s' → Consistent s'

theorem Inv.no_assert (h : Inv s) (a : Act W) : WorkQueue.step s a ≠ .error .assertQueue := by
  cases a with
  | expire w =>
    simp only [WorkQueue.step]
    split
    · rename_i hactive
      obtain ⟨s₁, h₁, -⟩ := h.expire hactive
      rw [h₁]
      nofun
    · nofun
  | cancelAllWork =>
    simp only [WorkQueue.step]
    split <;> nofun
  | take | done =>
    simp only [WorkQueue.step]
    split <;> nofun
  | dowork | submitWork | urgentWork | cancelWork => nofun

theorem submit_delayed (h : Inv s) {ticks : Nat} (hsub : (s.work w).submitting = true)
    (hticks : ¬(0 < ticks ∧ ticks < rtTickMax / 2)) : ¬Consistent (workqueueSubmitWork s w ticks).1 := by
  intro hc
  have hstill : ((workqueueSubmitWork s w ticks).1.work w).submitting = true := by
    unfold workqueueSubmitWork workqueueSubmitSection
    by_cases hzero : ticks = 0
    · by_cases hcurrent : s.workCurrent = some w <;>
        simp [hzero, hcurrent, rtListRemove, State.update, insertLast, RtWork.submitted, RtWork.called, hsub]
    · have hlong : ¬ticks < rtTickMax / 2 := fun hlt => hticks ⟨Nat.pos_of_ne_zero hzero, hlt⟩
      simp [hzero, hlong, rtListRemove, State.update, RtWork.submitted, hsub]
  have hgone : w ∉ (s.lists.remove w).items .delayedList := by
    rw [mem_items_remove h.lists]
    simp
  refine hgone ?_
  have hin := hc.delayed w hstill
  unfold workqueueSubmitWork workqueueSubmitSection at hin
  by_cases hzero : ticks = 0
  · by_cases hcurrent : s.workCurrent = some w
    · simpa [hzero, hcurrent, rtListRemove, State.update] using hin
    · have hne : ListName.delayedList ≠ .workList := by decide
      simpa [hzero, hcurrent, rtListRemove, State.update, insertLast, mem_items_pushBack, hne] using hin
  · have hlong : ¬ticks < rtTickMax / 2 := fun hlt => hticks ⟨Nat.pos_of_ne_zero hzero, hlt⟩
    simpa [hzero, hlong, rtListRemove, State.update] using hin

theorem urgent_not_pending (hp : (s.work w).pending = false) : ¬Consistent (rtWorkqueueUrgentWork s w).1 := by
  intro hc
  have hin : w ∈ (rtWorkqueueUrgentWork s w).1.lists.items .workList := by
    simp [rtWorkqueueUrgentWork, insertFirst, rtListRemove, State.update]
  have hnow := (hc.pending w).mp hin
  simp [rtWorkqueueUrgentWork, insertFirst, rtListRemove, State.update, RtWork.submitted, RtWork.called, hp] at hnow

theorem Inv.sound_iff (h : Inv s) (a : Act W) : Orderly s a ↔ Sound s a := by
  refine ⟨fun ha => ⟨h.no_assert a, fun s' hs => (h.step ha hs).consistent⟩, fun hsound => ?_⟩
  cases a with
  | dowork w => exact fun hsub => submit_delayed h hsub (by simp) (hsound.2 _ rfl)
  | submitWork w ticks =>
    intro hsub
    by_contra hticks
    exact submit_delayed h hsub hticks (hsound.2 _ rfl)
  | urgentWork w =>
    by_contra hp
    exact urgent_not_pending (Bool.eq_false_iff.mpr hp) (hsound.2 _ rfl)
  | cancelWork | cancelAllWork | expire | take | done => trivial

/-- In every run, everything agrees after every step, and no timer fires for an item without a queue, exactly if every
submission is an orderly one. -/
theorem work_item_states (acts : List (Act W)) :
    Along step Sound rtWorkqueueCreate acts ↔ Along step Orderly rtWorkqueueCreate acts :=
  (Along.iff (fun _ a h => h.sound_iff a) (fun _ _ _ h ha hs => h.step ha hs) created_inv).symm

/-- A delayed item that is queued at once is run twice: for the call, and for the delay that it replaced. The second
time, the thread may have taken the owner away. And an urgent item is queued without its flag. -/
theorem work_item_states_mixed :
    (∃ s, run step rtWorkqueueCreate [.submitWork () 5, .dowork ()] = .ok s ∧ ¬Consistent s ∧
      (s.work ()).timerActive = true ∧ s.lists.items .delayedList = []) ∧
    run step rtWorkqueueCreate [.submitWork () 5, .dowork (), .take, .done, .expire ()] = .error .assertQueue ∧
    (∃ s, run step rtWorkqueueCreate [.submitWork () 5, .dowork (), .expire (), .take] = .ok s ∧
      s.ran = [⟨(), .delay 1, 2⟩]) ∧
    ∃ s, run step rtWorkqueueCreate [.urgentWork ()] = .ok s ∧ ¬Consistent s ∧
      s.lists.items .workList = [()] ∧ (s.work ()).pending = false := by
  refine ⟨⟨_, rfl, fun h => ?_, rfl, rfl⟩, rfl, ⟨_, rfl, rfl⟩, _, rfl, fun h => ?_, rfl, rfl⟩
  · have := h.delayed () rfl
    exact absurd this (by decide)
  · have := (h.pending ()).mp (by decide)
    exact absurd this (by decide)

end RtosKernel.RtThread.WorkQueue
