import RtosKernel.RtThread.IpcList
import RtosKernel.RtThread.WorkQueueStates

/-! # Cancelling a work item and waiting for it

`rt_workqueue_cancel_work_sync` tests whether its item is the current one, and then, in a step of its own, takes
the semaphore of the queue or cancels. The work thread clears `work_current`, and then, in a step of its own,
gives the semaphore until nobody waits. A delay expires in three steps: the timer thread takes the timer off its
list, the handler reads the queue of the item, and its section follows; and a submission starts the timer behind
its section. -/
namespace RtosKernel.RtThread.WorkQueue
open Lib.Containers Lib.Runs Function
open RtThread.IpcList (RtErr)

/-- `struct rt_semaphore`. That of the queue is an `RT_IPC_FLAG_FIFO` one. -/
structure RtSemaphore (C : Type) where
  value : Nat
  suspendThread : List C

/-- Where a caller of `rt_workqueue_cancel_work_sync` is, with the number of submissions
of its item that were accepted when the call began. -/
inductive Phase (W : Type)
  | idle
  | called (w : W) (since : Nat)
  | taking (w : W) (since : Nat)
  | cancelling (w : W) (since : Nat)
  | blocked (w : W) (since : Nat)
  | returning (w : W) (since : Nat)
  deriving DecidableEq, Repr

/-- Where the timer thread is with the timer of an item. -/
inductive Expiry (W : Type)
  | idle
  /-- off its list, and not active any more -/
  | removed (w : W)
  /-- in `_delayed_work_timeout_handler`, behind its reading of `work->workqueue` -/
  | entered (w : W)
  deriving DecidableEq, Repr

/-- The queue, its semaphore, the timer thread and the callers. -/
structure Sync (W C : Type) where
  queue : State W
  /-- the items whose submission goes on with `rt_timer_start` -/
  starting : List W
  expiry : Expiry W
  /-- how many submissions of an item were not refused -/
  accepted : W → Nat
  sem : RtSemaphore C
  /-- the item whose completion the thread is about to acknowledge -/
  acking : Option W
  phase : C → Phase W

variable {W C : Type} [dW : DecidableEq W] [dC : DecidableEq C]

def rtSemValueMax : Nat := 2 ^ 16 - 1

def Sync.goto (s : Sync W C) (c : C) (phase : Phase W) : Sync W C :=
  { s with phase := update s.phase c phase }

/-- What a caller does that is resumed by the semaphore. -/
def Phase.resumed : Phase W → Phase W
  | .blocked w since => .returning w since
  | phase => phase

def rtSemTrytake (s : Sync W C) : Sync W C × RtErr :=
  if 0 < s.sem.value then ({ s with sem := { s.sem with value := s.sem.value - 1 } }, .eok) else (s, .etimeout)

def rtSemRelease (s : Sync W C) : Sync W C × RtErr :=
  match s.sem.suspendThread with
  | c :: rest => ({ s with sem := { s.sem with suspendThread := rest } }.goto c (s.phase c).resumed, .eok)
  | [] =>
    if s.sem.value < rtSemValueMax then ({ s with sem := { s.sem with value := s.sem.value + 1 } }, .eok)
    else (s, .efull)

/-- `rt_sem_take` with `RT_WAITING_FOREVER`. -/
def rtSemTake (s : Sync W C) (c : C) (w : W) (since : Nat) : Sync W C :=
  if 0 < s.sem.value then { s with sem := { s.sem with value := s.sem.value - 1 } }.goto c (.returning w since)
  else { s with sem := { s.sem with suspendThread := s.sem.suspendThread ++ [c] } }.goto c (.blocked w since)

/-- The loop of `_workqueue_work_completion`. A loop that uses up its fuel has not ended. -/
def workqueueWorkCompletion : Nat → Sync W C → Option (Sync W C)
  | 0, _ => none
  | fuel + 1, s =>
    let r := rtSemTrytake s
    if r.2 = .etimeout then workqueueWorkCompletion fuel (rtSemRelease r.1).1 else some r.1

/-- A submission of the item has returned `r`. -/
def Sync.submit (s : Sync W C) (w : W) (r : State W × Err) : Sync W C :=
  { s with queue := r.1, accepted := if r.2 = .eok then update s.accepted w (s.accepted w + 1) else s.accepted }

/-- A step of the queue, up to where another one may follow. -/
def queueStep (s : Sync W C) : Act W → Except Stop (Sync W C)
  | .dowork w => .ok (s.submit w (workqueueSubmitSection s.queue w 0))
  | .submitWork w ticks =>
    let r := workqueueSubmitSection s.queue w ticks
    .ok { s.submit w r with starting := if ticks ≠ 0 ∧ r.2 = .eok then w :: s.starting else s.starting }
  | .urgentWork w => .ok (s.submit w (rtWorkqueueUrgentWork s.queue w))
  | .cancelWork w => .ok { s with queue := (workqueueCancelWork s.queue w).1 }
  | .cancelAllWork => (step s.queue .cancelAllWork).map fun q => { s with queue := q }
  | .expire w =>
    if (s.queue.work w).timerActive ∧ s.expiry = .idle then
      .ok { s with queue := s.queue.update w fun r => { r with timerActive := false }, expiry := .removed w }
    else .error .notNow
  | .take => if s.acking = none then (step s.queue .take).map fun q => { s with queue := q } else .error .notNow
  | .done => (step s.queue .done).map fun q => { s with queue := q, acking := s.queue.workCurrent }

inductive SyncAct (W C : Type)
  | queue (a : Act W)
  /-- a submission starts the timer -/
  | start (w : W)
  /-- the handler of a timer reads the queue of its item -/
  | enter
  /-- and is in its section -/
  | handle
  /-- the thread acknowledges a completion -/
  | complete
  | call (c : C) (w : W)
  /-- `queue->work_current == work` -/
  | test (c : C)
  | take (c : C)
  | cancel (c : C)
  | ret (c : C)
  deriving DecidableEq, Repr

def syncStep (s : Sync W C) : SyncAct W C → Except Stop (Sync W C)
  | .queue a => queueStep s a
  | .start w =>
    if w ∈ s.starting then .ok { s with queue := rtTimerStart s.queue w, starting := s.starting.erase w }
    else .error .notNow
  | .enter =>
    match s.expiry with
    | .removed w =>
      if (s.queue.work w).workqueue = .null then .error .assertQueue else .ok { s with expiry := .entered w }
    | _ => .error .notNow
  | .handle =>
    match s.expiry with
    | .entered w => .ok { s with queue := delayedWorkTimeoutSection s.queue w, expiry := .idle }
    | _ => .error .notNow
  | .complete =>
    if s.acking = none then .error .notNow
    else match workqueueWorkCompletion (s.sem.suspendThread.length + 2) s with
      | some s => .ok { s with acking := none }
      | none => .error .endless
  | .call c w =>
    match s.phase c with
    | .idle => .ok (s.goto c (.called w (s.accepted w)))
    | _ => .error .notNow
  | .test c =>
    match s.phase c with
    | .called w since => .ok (s.goto c (if s.queue.workCurrent = some w then .taking w since else .cancelling w since))
    | _ => .error .notNow
  | .take c =>
    match s.phase c with
    | .taking w since => .ok (rtSemTake s c w since)
    | _ => .error .notNow
  | .cancel c =>
    match s.phase c with
    | .cancelling w since =>
      .ok ({ s with queue := (workqueueCancelWork s.queue w).1 }.goto c (.returning w since))
    | _ => .error .notNow
  | .ret c =>
    match s.phase c with
    | .returning _ _ => .ok (s.goto c .idle)
    | _ => .error .notNow

/-- `rt_workqueue_create`: nobody waits. -/
def syncCreate : Sync W C := ⟨rtWorkqueueCreate, [], .idle, fun _ => 0, ⟨0, []⟩, none, fun _ => .idle⟩

/-! ## What the steps of the queue leave alone -/

/-- Nothing but a submission brings the item into a list: it is in none, no handler of its delay has read its
queue, and its queue is `RT_NULL` or no timer of it is under way. -/
def Rest (s : Sync W C) (w : W) : Prop :=
  s.queue.lists.container w = none ∧ s.expiry ≠ .entered w ∧
    ((s.queue.work w).workqueue = .null ∨
      (s.queue.work w).timerActive = false ∧ s.expiry ≠ .removed w ∧ w ∉ s.starting)

instance (s : Sync W C) (w : W) : Decidable (Rest s w) :=
  inferInstanceAs (Decidable (_ ∧ _ ∧ (_ ∨ _ ∧ _ ∧ _)))

/-- An item at rest that is not submitted stays at rest, and is not taken. -/
structure Keeps (s s' : Sync W C) : Prop where
  lists : s'.queue.lists.Ok
  accepted : ∀ w, s.accepted w ≤ s'.accepted w
  rest : ∀ w, Rest s w → s'.accepted w = s.accepted w → Rest s' w
  current : ∀ w, s'.queue.workCurrent = some w → s.queue.workCurrent = some w ∨ ¬Rest s w

section Steps
variable {s s' : Sync W C} {w : W}

omit dC in
/-- A step that is about one item, up to what it does to it. -/
theorem Keeps.change (w : W) (hl : s'.queue.lists.Ok)
    (hcontainer : ∀ x ≠ w, s'.queue.lists.container x = s.queue.lists.container x)
    (hwork : ∀ x ≠ w, s'.queue.work x = s.queue.work x) (haccepted : ∀ x ≠ w, s'.accepted x = s.accepted x)
    (hexpiry : s'.expiry = s.expiry ∨ ∀ x ≠ w, s'.expiry ≠ .entered x ∧ s'.expiry ≠ .removed x)
    (hstarting : ∀ x ≠ w, x ∈ s'.starting → x ∈ s.starting) (hle : s.accepted w ≤ s'.accepted w)
    (hrest : Rest s w → s'.accepted w = s.accepted w → Rest s' w)
    (hcurrent : ∀ w, s'.queue.workCurrent = some w → s.queue.workCurrent = some w ∨ ¬Rest s w) : Keeps s s' := by
  refine ⟨hl, fun x => ?_, fun x => ?_, hcurrent⟩
  · by_cases hx : x = w
    · exact hx ▸ hle
    · exact Nat.le_of_eq (haccepted x hx).symm
  · by_cases hx : x = w
    · exact hx ▸ hrest
    · rintro ⟨hc, hentered, hq⟩ -
      rw [Rest, hcontainer x hx, hwork x hx]
      rcases hexpiry with he | he
      · rw [he]
        exact ⟨hc, hentered, hq.imp_right fun ⟨ha, hr, hs⟩ => ⟨ha, hr, fun hin => hs (hstarting x hx hin)⟩⟩
      · exact ⟨hc, (he x hx).1, hq.imp_right fun ⟨ha, _, hs⟩ => ⟨ha, (he x hx).2, fun hin => hs (hstarting x hx hin)⟩⟩

theorem container_other {q : State W} {k : ListName} {x : W} (hx : x ≠ w) :
    ((q.lists.remove w).pushBack k w).container x = q.lists.container x :=
  (container_put_of_ne _ hx).trans (container_remove_of_ne hx)

omit dW in
@[simp] theorem resumeThread_workCurrent {q : State W} : (resumeThread q).workCurrent = q.workCurrent := by
  unfold resumeThread
  split <;> rfl

/-- A submission puts its item into a list, or is refused and takes it out of its list. -/
theorem submitSection_effect (q : State W) (w : W) (ticks : Nat) :
    ∃ r : RtWork, (workqueueSubmitSection q w ticks).1.work = update q.work w r ∧
      (workqueueSubmitSection q w ticks).1.workCurrent = q.workCurrent ∧
      ((∃ k, (workqueueSubmitSection q w ticks).1.lists = (q.lists.remove w).pushBack k w ∧
          (workqueueSubmitSection q w ticks).2 = .eok) ∨
        (workqueueSubmitSection q w ticks).1.lists = q.lists.remove w ∧
          (workqueueSubmitSection q w ticks).2 ≠ .eok ∧
          r.workqueue = (q.work w).workqueue ∧ r.timerActive = (q.work w).timerActive) := by
  unfold workqueueSubmitSection
  by_cases hzero : ticks = 0
  · by_cases hcurrent : q.workCurrent = some w
    · refine ⟨{ (q.work w).submitted with pending := false }, ?_, ?_, .inr ⟨?_, ?_, rfl, rfl⟩⟩ <;>
        simp [hzero, hcurrent, rtListRemove, State.update]
    · refine ⟨{ (q.work w).submitted.called with pending := true, workqueue := .queue }, ?_, ?_, .inl ⟨.workList, ?_, ?_⟩⟩ <;>
        simp [hzero, hcurrent, rtListRemove, State.update, insertLast, RtWork.submitted, RtWork.called]
  · by_cases hlong : ticks < rtTickMax / 2
    · refine ⟨{ (q.work w).submitted with
          pending := false, submitting := true, workqueue := .queue, timerActive := false }, ?_, ?_,
          .inl ⟨.delayedList, ?_, ?_⟩⟩ <;>
        cases hsub : (q.work w).submitting <;>
          simp [hzero, hlong, hsub, rtListRemove, State.update, insertLast, RtWork.submitted]
    · refine ⟨{ (q.work w).submitted with pending := false }, ?_, ?_, .inr ⟨?_, ?_, rfl, rfl⟩⟩ <;>
        simp [hzero, hlong, rtListRemove, State.update]

omit dC in
theorem Keeps.submit (h : s.queue.lists.Ok) (w : W) (ticks : Nat) {starting : List W}
    (hstarting : starting = if ticks ≠ 0 ∧ (workqueueSubmitSection s.queue w ticks).2 = .eok then w :: s.starting
      else s.starting) :
    Keeps s { s.submit w (workqueueSubmitSection s.queue w ticks) with starting } := by
  obtain ⟨r, hwork, hcur, hlists⟩ := submitSection_effect s.queue w ticks
  have hother : ∀ x ≠ w, ∀ v, (if (workqueueSubmitSection s.queue w ticks).2 = .eok then update s.accepted w v
      else s.accepted) x = s.accepted x := by
    intro x hx v
    split
    · exact update_of_ne hx _ _
    · rfl
  refine .change w ?_ (fun x hx => ?_) (fun x hx => ?_) (fun x hx => hother x hx _) (.inl rfl) (fun x hx hin => ?_) ?_ ?_
    fun x hx => .inl (hcur.symm.trans hx)
  · rcases hlists with ⟨k, hl, -⟩ | ⟨hl, -⟩ <;> simp only [Sync.submit, hl]
    · exact (h.remove w).pushBack container_remove_self
    · exact h.remove w
  · rcases hlists with ⟨k, hl, -⟩ | ⟨hl, -⟩ <;> simp only [Sync.submit, hl]
    · exact container_other hx
    · exact container_remove_of_ne hx
  · simp only [Sync.submit, hwork, update_of_ne hx]
  · change x ∈ starting at hin
    rw [hstarting] at hin
    split at hin
    · exact (List.mem_cons.mp hin).resolve_left hx
    · exact hin
  · simp only [Sync.submit]
    split
    · rw [update_self]
      exact Nat.le_succ _
    · exact Nat.le_refl _
  · rintro ⟨-, hentered, hq⟩ heq
    rcases hlists with ⟨k, -, hok⟩ | ⟨hl, hno, hnull, hoff⟩
    · simp [Sync.submit, hok] at heq
    · rw [if_neg fun hand => hno hand.2] at hstarting
      subst hstarting
      refine ⟨?_, hentered, ?_⟩
      · simp only [Sync.submit, hl, container_remove_self]
      · simpa only [Sync.submit, hwork, update_self, hnull, hoff] using hq

omit dC in
theorem Keeps.urgent (h : s.queue.lists.Ok) (w : W) : Keeps s (s.submit w (rtWorkqueueUrgentWork s.queue w)) := by
  have hwork : (rtWorkqueueUrgentWork s.queue w).1.work = update s.queue.work w (s.queue.work w).submitted.called := by
    simp [rtWorkqueueUrgentWork, insertFirst, rtListRemove, State.update]
  have hlists : (rtWorkqueueUrgentWork s.queue w).1.lists =
      (s.queue.lists.remove w).put .workList w (w :: (s.queue.lists.remove w).items .workList) := by
    simp [rtWorkqueueUrgentWork, insertFirst, rtListRemove, State.update]
  have hcur : (rtWorkqueueUrgentWork s.queue w).1.workCurrent = s.queue.workCurrent := by
    simp [rtWorkqueueUrgentWork, insertFirst, rtListRemove, State.update]
  have hacc : (s.submit w (rtWorkqueueUrgentWork s.queue w)).accepted = update s.accepted w (s.accepted w + 1) := rfl
  refine .change w ?_ (fun x hx => ?_) (fun x hx => ?_) (fun x hx => ?_) (.inl rfl) (fun _ _ => id) ?_ (fun _ heq => ?_)
    fun x hx => .inl (hcur.symm.trans hx)
  · simp only [Sync.submit, hlists]
    exact (h.remove w).put container_remove_self (.refl _)
  · simp only [Sync.submit, hlists, container_put_of_ne _ hx, container_remove_of_ne hx]
  · simp only [Sync.submit, hwork, update_of_ne hx]
  · rw [hacc, update_of_ne hx]
  · rw [hacc, update_self]
    exact Nat.le_succ _
  · rw [hacc, update_self] at heq
    exact absurd heq (Nat.succ_ne_self _)

@[simp] theorem workqueueCancelWork_workCurrent {q : State W} : (workqueueCancelWork q w).1.workCurrent = q.workCurrent := by
  unfold workqueueCancelWork
  by_cases hsub : (q.work w).submitting <;> simp [hsub, rtListRemove, State.update]

theorem cancel_work (q : State W) (w : W) :
    ∃ r : RtWork, (workqueueCancelWork q w).1.work = update q.work w r ∧ r.workqueue = .null := by
  unfold workqueueCancelWork
  cases hsub : (q.work w).submitting
  · exact ⟨{ q.work w with pending := false, workqueue := .null }, by simp [hsub, rtListRemove, State.update], rfl⟩
  · exact ⟨{ q.work w with pending := false, timerActive := false, submitting := false, workqueue := .null },
      by simp [hsub, rtListRemove, State.update], rfl⟩

omit dC in
/-- A cancelled item is at rest, unless a handler of its delay has read its queue. -/
theorem Keeps.cancel (h : s.queue.lists.Ok) (w : W) :
    Keeps s { s with queue := (workqueueCancelWork s.queue w).1 } ∧
      (s.expiry ≠ .entered w → Rest { s with queue := (workqueueCancelWork s.queue w).1 } w) := by
  obtain ⟨r, hwork, hnull⟩ := cancel_work s.queue w
  have hrest : s.expiry ≠ .entered w → Rest { s with queue := (workqueueCancelWork s.queue w).1 } w := by
    refine fun he => ⟨?_, he, .inl ?_⟩
    · rw [workqueueCancelWork_lists, container_remove_self]
    · rw [hwork, update_self, hnull]
  refine ⟨.change w ?_ (fun x hx => ?_) (fun x hx => ?_) (fun _ _ => rfl) (.inl rfl) (fun _ _ => id) (Nat.le_refl _)
    (fun hr _ => hrest hr.2.1) fun x hx => .inl (workqueueCancelWork_workCurrent.symm.trans hx), hrest⟩
  · rw [workqueueCancelWork_lists]
    exact h.remove w
  · rw [workqueueCancelWork_lists, container_remove_of_ne hx]
  · rw [hwork, update_of_ne hx]

omit dW dC in
theorem Keeps.refl (h : s.queue.lists.Ok) : Keeps s s :=
  ⟨h, fun _ => Nat.le_refl _, fun _ hr _ => hr, fun _ hc => .inl hc⟩

omit dW dC in
theorem Keeps.trans {s'' : Sync W C} (h : Keeps s s') (h' : Keeps s' s'') (hacc : s'.accepted = s.accepted) :
    Keeps s s'' where
  lists := h'.lists
  accepted w := (h.accepted w).trans (h'.accepted w)
  rest w hr heq := h'.rest w (h.rest w hr (by rw [hacc])) (by rw [hacc, heq])
  current w hc := by
    rcases h'.current w hc with hc | hr
    · exact h.current w hc
    · exact .inr fun hrest => hr (h.rest w hrest (by rw [hacc]))

section
omit dC

theorem Keeps.cancelList (k : ListName) : ∀ (fuel : Nat) {s : Sync W C} {q : State W}, s.queue.lists.Ok →
    cancelList k fuel s.queue = some q → Keeps s { s with queue := q } ∧ q.workCurrent = s.queue.workCurrent
  | 0, _, _, _, hs => by cases hs
  | fuel + 1, s, q, h, hs => by
    rw [WorkQueue.cancelList] at hs
    split at hs
    · cases hs
      exact ⟨.refl h, rfl⟩
    · have hk := (Keeps.cancel h ‹W›).1
      obtain ⟨hk', hcur⟩ := Keeps.cancelList k fuel (s := { s with queue := _ }) hk.lists hs
      exact ⟨hk.trans hk' rfl, hcur.trans workqueueCancelWork_workCurrent⟩

theorem Keeps.cancelAll {q : State W} (h : s.queue.lists.Ok) (hs : rtWorkqueueCancelAllWork s.queue = some q) :
    Keeps s { s with queue := q } ∧ q.workCurrent = s.queue.workCurrent := by
  obtain ⟨q₁, h₁, h₂⟩ := Option.bind_eq_some_iff.mp hs
  obtain ⟨hk₁, hcur₁⟩ := Keeps.cancelList .workList _ h h₁
  obtain ⟨hk₂, hcur₂⟩ := Keeps.cancelList .delayedList _ (s := { s with queue := q₁ }) hk₁.lists h₂
  exact ⟨hk₁.trans hk₂ rfl, hcur₂.trans hcur₁⟩

/-- What the timer of an item does to the item alone. -/
theorem Keeps.timer {expiry : Expiry W} {starting : List W} {f : RtWork → RtWork} (h : s.queue.lists.Ok)
    (hexpiry : expiry = s.expiry ∨ ∀ x ≠ w, expiry ≠ .entered x ∧ expiry ≠ .removed x)
    (hstarting : ∀ x ≠ w, x ∈ starting → x ∈ s.starting) (hrest : Rest s w → Rest { s with
      queue := s.queue.update w f, expiry, starting } w) :
    Keeps s { s with queue := s.queue.update w f, expiry, starting } :=
  .change w h (fun _ _ => rfl) (fun _ hx => update_of_ne hx _ _) (fun _ _ => rfl) hexpiry hstarting (Nat.le_refl _)
    (fun hr _ => hrest hr) fun _ hc => .inl hc

theorem Keeps.handle (h : s.queue.lists.Ok) (he : s.expiry = .entered w) :
    Keeps s { s with queue := delayedWorkTimeoutSection s.queue w, expiry := .idle } ∧
      (delayedWorkTimeoutSection s.queue w).workCurrent = s.queue.workCurrent := by
  have hnot : ¬Rest s w := fun hr => hr.2.1 he
  unfold delayedWorkTimeoutSection
  by_cases hcurrent : s.queue.workCurrent = some w
  · refine ⟨.change w ?_ (fun x hx => ?_) (fun x hx => ?_) (fun _ _ => rfl) (.inr fun _ _ => ⟨nofun, nofun⟩)
      (fun _ _ => id) (Nat.le_refl _) (fun hr => absurd hr hnot) fun x hx => .inl ?_, ?_⟩
    · simpa [hcurrent, rtListRemove, State.update] using h.remove w
    · simp [hcurrent, rtListRemove, State.update, container_remove_of_ne hx]
    · simp [hcurrent, rtListRemove, State.update, hx]
    · simpa [hcurrent, rtListRemove, State.update] using hx
    · simp [hcurrent, rtListRemove, State.update]
  · refine ⟨.change w ?_ (fun x hx => ?_) (fun x hx => ?_) (fun _ _ => rfl) (.inr fun _ _ => ⟨nofun, nofun⟩)
      (fun _ _ => id) (Nat.le_refl _) (fun hr => absurd hr hnot) fun x hx => .inl ?_, ?_⟩
    · simpa [hcurrent, rtListRemove, State.update, insertLast] using
        (h.remove w).pushBack (k := .workList) container_remove_self
    · simp [hcurrent, rtListRemove, State.update, insertLast, container_other hx]
    · simp [hcurrent, rtListRemove, State.update, insertLast, hx]
    · simpa [hcurrent, rtListRemove, State.update, insertLast] using hx
    · simp [hcurrent, rtListRemove, State.update, insertLast]

theorem Keeps.take (h : s.queue.lists.Ok) : Keeps s { s with queue := threadTake s.queue } := by
  unfold threadTake
  cases hitems : s.queue.lists.items .workList with
  | nil => exact ⟨h, fun _ => Nat.le_refl _, fun _ hr _ => hr, fun _ hc => .inl hc⟩
  | cons w rest =>
    have hin : s.queue.lists.container w = some .workList :=
      (h.mem_iff w .workList).mp (by rw [hitems]; exact List.mem_cons_self ..)
    have hnot : ¬Rest s w := fun hr => Option.some_ne_none _ (hin.symm.trans hr.1)
    refine .change w (h.remove w) (fun x hx => container_remove_of_ne hx) (fun x hx => update_of_ne hx _ _)
      (fun _ _ => rfl) (.inl rfl) (fun _ _ => id) (Nat.le_refl _) (fun hr => absurd hr hnot) fun x hx => .inr ?_
    obtain rfl : w = x := Option.some.inj hx
    exact hnot

end

/-- What a step of the queue or of the timer thread leaves alone. The current item is another one only after the steps
of the thread of the queue. -/
structure Frame (s s' : Sync W C) : Prop extends Keeps s s' where
  sem : s'.sem = s.sem
  phase : s'.phase = s.phase

section
omit dC

theorem Frame.queueStep {a : Act W} (h : s.queue.lists.Ok) (hs : queueStep s a = .ok s') : Frame s s' ∧
    (a ≠ .take → a ≠ .done → s'.queue.workCurrent = s.queue.workCurrent ∧ s'.acking = s.acking) := by
  cases a with
  | dowork w =>
    cases hs
    obtain ⟨r, -, hcur, -⟩ := submitSection_effect s.queue w 0
    exact ⟨⟨.submit h w 0 (by simp), rfl, rfl⟩, fun _ _ => ⟨hcur, rfl⟩⟩
  | submitWork w ticks =>
    cases hs
    obtain ⟨r, -, hcur, -⟩ := submitSection_effect s.queue w ticks
    exact ⟨⟨.submit h w ticks rfl, rfl, rfl⟩, fun _ _ => ⟨hcur, rfl⟩⟩
  | urgentWork w =>
    cases hs
    refine ⟨⟨.urgent h w, rfl, rfl⟩, fun _ _ => ⟨?_, rfl⟩⟩
    simp [Sync.submit, rtWorkqueueUrgentWork, insertFirst, rtListRemove, State.update]
  | cancelWork w =>
    cases hs
    exact ⟨⟨(Keeps.cancel h w).1, rfl, rfl⟩, fun _ _ => ⟨workqueueCancelWork_workCurrent, rfl⟩⟩
  | cancelAllWork =>
    obtain ⟨q, hq, rfl⟩ := map_eq_ok hs
    simp only [WorkQueue.step] at hq
    split at hq
    · rename_i q' hgo
      cases hq
      obtain ⟨hk, hcur⟩ := Keeps.cancelAll h hgo
      exact ⟨⟨hk, rfl, rfl⟩, fun _ _ => ⟨hcur, rfl⟩⟩
    · cases hq
  | expire w =>
    obtain ⟨⟨ha, hidle⟩, he⟩ := ok_of_ite hs
    cases he
    refine ⟨⟨.timer h (.inr fun x hx => ⟨by simp, fun he => hx (Expiry.removed.inj he).symm⟩) (fun _ _ => id) ?_,
      rfl, rfl⟩, fun _ _ => ⟨rfl, rfl⟩⟩
    rintro ⟨hc, -, hnull | ⟨hoff, -⟩⟩
    · exact ⟨hc, by simp, .inl (by simpa [State.update] using hnull)⟩
    · cases ha.symm.trans hoff
  | take =>
    obtain ⟨-, hs⟩ := ok_of_ite hs
    obtain ⟨q, hq, rfl⟩ := map_eq_ok hs
    obtain ⟨-, hq⟩ := ok_of_ite hq
    cases hq
    exact ⟨⟨.take h, rfl, rfl⟩, fun ht => absurd rfl ht⟩
  | done =>
    obtain ⟨q, hq, rfl⟩ := map_eq_ok hs
    simp only [WorkQueue.step] at hq
    split at hq
    · cases hq
    · cases hq
      exact ⟨⟨⟨h, fun _ => Nat.le_refl _, fun _ hr _ => hr, by simp⟩, rfl, rfl⟩, fun _ hd => absurd rfl hd⟩

theorem Frame.start (h : s.queue.lists.Ok) (hin : w ∈ s.starting) :
    Frame s { s with queue := rtTimerStart s.queue w, starting := s.starting.erase w } := by
  refine ⟨.timer h (.inl rfl) (fun _ _ => List.mem_of_mem_erase) fun ⟨hc, hentered, hq⟩ => ⟨hc, hentered, .inl ?_⟩, rfl, rfl⟩
  rcases hq with hnull | ⟨-, -, hno⟩
  · simpa [State.update] using hnull
  · exact absurd hin hno

theorem Frame.enter (h : s.queue.lists.Ok) (he : s.expiry = .removed w) (hq : (s.queue.work w).workqueue ≠ .null) :
    Frame s { s with expiry := .entered w } := by
  have hsame : s.queue.update w id = s.queue := by simp [State.update]
  have hk : Keeps s { s with queue := s.queue.update w id, expiry := .entered w, starting := s.starting } := by
    refine .timer h (.inr fun x hx => ⟨fun he => hx (Expiry.entered.inj he).symm, by simp⟩) (fun _ _ => id) ?_
    rintro ⟨-, -, hnull | ⟨-, hno, -⟩⟩
    · exact absurd hnull hq
    · exact absurd he hno
  rw [hsame] at hk
  exact ⟨hk, rfl, rfl⟩

end

end Steps

/-! ## The semaphore -/

section Semaphore
variable {s : Sync W C}

omit dW in
theorem Phase.resumed_resumed (p : Phase W) : p.resumed.resumed = p.resumed := by
  cases p <;> rfl

omit dW in
theorem Phase.resumed_of_not_blocked {p : Phase W} (hp : ∀ w n, p ≠ .blocked w n) : p.resumed = p := by
  cases p with
  | blocked w n => exact absurd rfl (hp w n)
  | idle | called | taking | cancelling | returning => rfl

/-- Those who wait are those who are blocked. -/
def Waiters (s : Sync W C) : Prop :=
  s.sem.suspendThread.Nodup ∧ ∀ c, c ∈ s.sem.suspendThread ↔ ∃ w n, s.phase c = .blocked w n

omit dW in
/-- **The completion resumes everybody who waits** and leaves the semaphore at 0. -/
theorem workqueueWorkCompletion_spec : ∀ (l : List C) {fuel : Nat} {s : Sync W C}, s.sem = ⟨0, l⟩ → Waiters s →
    l.length + 2 ≤ fuel →
      workqueueWorkCompletion fuel s = some { s with sem := ⟨0, []⟩, phase := fun c => (s.phase c).resumed }
  | [], fuel + 2, s, hsem, hw, _ => by
    have hsame : (fun c => (s.phase c).resumed) = s.phase := by
      funext c
      refine Phase.resumed_of_not_blocked fun w n hb => ?_
      have hmem := (hw.2 c).mpr ⟨w, n, hb⟩
      rw [hsem] at hmem
      cases hmem
    rw [hsame]
    simp [workqueueWorkCompletion, rtSemTrytake, rtSemRelease, hsem, rtSemValueMax]
  | c :: l, fuel + 1, s, hsem, hw, hfuel => by
    rw [Waiters, hsem] at hw
    obtain ⟨hnodup, hmem⟩ := hw
    obtain ⟨hc, hl⟩ := List.nodup_cons.mp hnodup
    set s₁ : Sync W C := { s with sem := ⟨0, l⟩ }.goto c (s.phase c).resumed with hs₁
    have hphase (x : C) (hx : x ≠ c) : s₁.phase x = s.phase x := by
      exact update_of_ne hx _ _
    have hself : s₁.phase c = (s.phase c).resumed := by
      exact update_self ..
    have hwait : Waiters s₁ := by
      refine ⟨hl, fun x => ?_⟩
      by_cases hx : x = c
      · subst hx
        refine iff_of_false hc ?_
        rintro ⟨w, n, hb⟩
        rw [hself] at hb
        cases hp : s.phase x <;> rw [hp] at hb <;> cases hb
      · rw [hphase x hx, ← hmem x, List.mem_cons]
        exact ⟨.inr, fun h => h.resolve_left hx⟩
    have hgo := workqueueWorkCompletion_spec l (s := s₁) rfl hwait
      (show l.length + 2 ≤ fuel from Nat.le_of_succ_le_succ hfuel)
    have hall : (fun x => (s₁.phase x).resumed) = fun x => (s.phase x).resumed := by
      funext x
      by_cases hx : x = c
      · rw [hx, hself, Phase.resumed_resumed]
      · rw [hphase x hx]
    rw [hall] at hgo
    have htry : rtSemTrytake s = (s, .etimeout) := by simp [rtSemTrytake, hsem]
    have hrelease : (rtSemRelease s).1 = s₁ := by simp [rtSemRelease, hsem, hs₁]
    rw [workqueueWorkCompletion, htry]
    simp only [hrelease]
    exact hgo
  | [], 0, _, _, _, hfuel | [], 1, _, _, _, hfuel | _ :: _, 0, _, _, _, hfuel => by
    simp at hfuel

end Semaphore

end RtosKernel.RtThread.WorkQueue
