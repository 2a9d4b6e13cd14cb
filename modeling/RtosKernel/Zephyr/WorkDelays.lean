import RtosKernel.Zephyr.WorkStates

/-! # Delays of work items (`work.c`)

An expiry has two steps: `sys_clock_announce` takes the timeout off its queue, and later `work_timeout` takes
the work lock. The `DELAYED` bit cannot tell which delay the expiry was for. -/

namespace RtosKernel.Zephyr.Works
open Lib.Runs Relation

variable {I Q S T : Type} [dI : DecidableEq I] [dQ : DecidableEq Q] [dS : DecidableEq S] [dT : DecidableEq T]
variable {delayable : I → Bool} {s s' : System I Q S T} {e : Event I Q S T} {i j : I} {q : Q} {f : S}

/-- What the timeout queue does: a timeout is taken off when it is due, and called after that. -/
def Timed (s : System I Q S T) : Event I Q S T → Prop
  | .announce i => ((s.dwork i).timeout.any fun due => due ≤ s.clock) = true
  | .timeout i => i ∈ s.inFlight
  | _ => True

instance (s : System I Q S T) (e : Event I Q S T) : Decidable (Timed s e) := by
  induction e using Event.casesOn <;> dsimp only [Timed] <;> infer_instance

/-- No call begins a delay of an item while an expiry of it is under way. -/
def ArmOk (s : System I Q S T) : Event I Q S T → Prop
  | .schedule _ _ i delay =>
    delay ≠ .noWait → { s.work (.item i) with running := false }.busy = false → i ∉ s.inFlight
  | .reschedule _ _ i delay => delay ≠ .noWait → i ∉ s.inFlight
  | _ => True

instance (s : System I Q S T) (e : Event I Q S T) : Decidable (ArmOk s e) := by
  induction e using Event.casesOn <;> dsimp only [ArmOk] <;> infer_instance

/-- Only delays that run are linked, a linked timeout is due no earlier than promised, and an expiry under way
that will submit its item is not early. -/
structure Timely (s : System I Q S T) : Prop where
  linked : ∀ i, (s.work (.item i)).delayed = false → (s.dwork i).timeout = none
  promised : ∀ i due, (s.dwork i).timeout = some due → ∃ tick, (s.dwork i).promised = some tick ∧ tick ≤ due
  unlinked : ∀ i, i ∈ s.inFlight → (s.dwork i).timeout = none
  due : ∀ i, i ∈ s.inFlight → (s.work (.item i)).delayed = true → isEarly s.clock (s.dwork i).promised = false
  early : s.early = false
  relinked : s.relinked = false

/-! ## Calls that leave delays alone -/

structure Still (s s' : System I Q S T) : Prop where
  delayed : ∀ i, (s'.work (.item i)).delayed = (s.work (.item i)).delayed
  dwork : s'.dwork = s.dwork
  inFlight : s'.inFlight = s.inFlight
  clock : s'.clock = s.clock
  early : s'.early = s.early
  relinked : s'.relinked = s.relinked

omit dI dQ dS dT in
theorem Still.trans {s'' : System I Q S T} (h : Still s s') (h' : Still s' s'') : Still s s'' where
  delayed i := (h'.delayed i).trans (h.delayed i)
  dwork := h'.dwork.trans h.dwork
  inFlight := h'.inFlight.trans h.inFlight
  clock := h'.clock.trans h.clock
  early := h'.early.trans h.early
  relinked := h'.relinked.trans h.relinked

omit dI dQ dS dT in
theorem Timely.still (h : Timely s) (hs : Still s s') : Timely s' := by
  refine ⟨fun i hd => ?_, fun i due hdue => ?_, fun i hi => ?_, fun i hi hd => ?_, ?_, ?_⟩
  · rw [hs.dwork]
    exact h.linked i ((hs.delayed i).symm.trans hd)
  · rw [hs.dwork] at hdue ⊢
    exact h.promised i due hdue
  · rw [hs.inFlight] at hi
    rw [hs.dwork]
    exact h.unlinked i hi
  · rw [hs.inFlight] at hi
    rw [hs.dwork, hs.clock]
    exact h.due i hi ((hs.delayed i).symm.trans hd)
  · exact hs.early.trans h.early
  · exact hs.relinked.trans h.relinked

omit dQ dT in
theorem delayed_update {n m : Node I S} {g : Work Q → Work Q} (hg : (g (s.work n)).delayed = (s.work n).delayed) :
    ((s.update n g).work m).delayed = (s.work m).delayed := by
  rw [update_work]
  split
  · next hm => rw [hm, hg]
  · rfl

def Event.still : Event I Q S T → Prop
  | .announce _ | .timeout _ | .tick => False
  | e => e.delays = none

section
omit dT

theorem Move.still (hm : Move delayable e s s') (he : e.still) : Still s s' := by
  cases hm with
  | accept =>
    refine ⟨fun j => delayed_update ?_, rfl, rfl, rfl, rfl, rfl⟩
    rfl
  | @remove e s i q =>
    refine ⟨fun j => ?_, rfl, rfl, rfl, rfl, rfl⟩
    exact delayed_update (s := s) (n := .item i) (g := fun w => { w with queued := false }) rfl
  | mark =>
    refine ⟨fun j => delayed_update ?_, rfl, rfl, rfl, rfl, rfl⟩
    rfl
  | flushOn =>
    refine ⟨fun j => ?_, rfl, rfl, rfl, rfl, rfl⟩
    simp [Works.flushOn, System.wait, queueFlusherLocked]
  | cancelOn => exact ⟨fun _ => rfl, rfl, rfl, rfl, rfl, rfl⟩
  | resume => exact ⟨fun _ => rfl, rfl, rfl, rfl, rfl, rfl⟩
  | drainOn => exact ⟨fun _ => rfl, rfl, rfl, rfl, rfl, rfl⟩
  | unplug => exact ⟨fun _ => rfl, rfl, rfl, rfl, rfl, rfl⟩
  | @take s q =>
    cases hl : (s.workq q).pending with
    | nil =>
      rw [take_nil hl]
      exact ⟨fun _ => rfl, rfl, rfl, rfl, rfl, rfl⟩
    | cons n l =>
      rw [take_cons hl]
      refine ⟨fun j => delayed_update ?_, rfl, rfl, rfl, rfl, rfl⟩
      rfl
  | @handlerReturn s q n => cases n <;> exact ⟨fun _ => rfl, rfl, rfl, rfl, rfl, rfl⟩
  | @finish s q n =>
    refine ⟨fun j => ?_, ?_, ?_, ?_, ?_, ?_⟩
    · rw [finish_work]
      split
      · next hj => rw [← hj]
      · rfl
    all_goals
      unfold Works.finish
      dsimp only
      split <;> rfl
  | arm he' => cases e <;> simp_all [Event.still, Event.delays]
  | disarm he' => cases e <;> simp_all [Event.still, Event.delays]
  | announce => exact he.elim
  | expire => exact he.elim
  | ignore => exact he.elim
  | tick => exact he.elim

theorem Moves.still (hm : Moves delayable e s s') (he : e.still) : Still s s' := by
  induction hm with
  | refl => exact ⟨fun _ => rfl, rfl, rfl, rfl, rfl, rfl⟩
  | tail _ hm ih => exact ih.trans (hm.still he)

theorem still_submit {c : Caller Q} {queuep : Option Q} : Still s (submitToQueueLocked s c i queuep).1 := by
  have hm : Moves (fun _ => true) (.submit c queuep i) s (submitToQueueLocked s c i queuep).1 := submit_moves rfl rfl
  exact hm.still rfl

end

/-! ## Calls that begin and end delays -/

section
omit dQ dT

theorem Timely.unschedule (h : Timely s) : Timely (unscheduleLocked s i).1 := by
  rcases unschedule_cases (s := s) (i := i) with ⟨_, heq⟩ | ⟨_, heq⟩ <;> rw [heq]
  · exact h
  · refine ⟨fun j hd => ?_, fun j due hdue => ?_, fun j hj => ?_, fun j hj hd => ?_, h.early, h.relinked⟩
    all_goals by_cases hji : j = i
    · simp [disarm, zAbortTimeout, System.updateDelayable, hji]
    · simpa [disarm, zAbortTimeout, System.updateDelayable, hji] using
        h.linked j (by simpa [disarm, zAbortTimeout, hji] using hd)
    · simp [disarm, zAbortTimeout, System.updateDelayable, hji] at hdue
    · simpa [disarm, zAbortTimeout, System.updateDelayable, hji] using
        h.promised j due (by simpa [disarm, zAbortTimeout, System.updateDelayable, hji] using hdue)
    · simp [disarm, zAbortTimeout, System.updateDelayable, hji]
    · simpa [disarm, zAbortTimeout, System.updateDelayable, hji] using h.unlinked j hj
    · simp [disarm, zAbortTimeout, hji] at hd
    · have hdue := h.due j hj (by simpa [disarm, zAbortTimeout, hji] using hd)
      simpa [disarm, zAbortTimeout, System.updateDelayable, System.update, hji] using hdue

theorem arm_dwork {queue : Option Q} {delay : Delay} : (arm s i queue delay).dwork j =
    if j = i then ⟨queue, match delay with
      | .noWait | .forever => (s.dwork i).timeout
      | .ticks n => some (s.clock + n + 1)
      | .absolute tick => some tick, delay.promise s.clock⟩
    else s.dwork j := by
  by_cases hj : j = i
  · subst hj
    cases delay <;> simp [arm, zAddTimeout, System.updateDelayable, System.update]
  · cases delay <;> simp [arm, zAddTimeout, System.updateDelayable, System.update, hj]

theorem arm_relinked {queue : Option Q} {delay : Delay} (ht : (s.dwork i).timeout = none) :
    (arm s i queue delay).relinked = s.relinked ∧ (arm s i queue delay).inFlight = s.inFlight ∧
      (arm s i queue delay).clock = s.clock ∧ (arm s i queue delay).early = s.early := by
  cases delay <;> simp [arm, zAddTimeout, System.updateDelayable, System.update, ht]

end

section
variable (h : Timely s)
include h

omit dQ dT in
theorem Timely.arm {queue : Option Q} {delay : Delay} (hd : (s.work (.item i)).delayed = false)
    (hi : i ∉ s.inFlight) : Timely (arm s i queue delay) := by
  have ht := h.linked i hd
  obtain ⟨hr, hf, hc, he⟩ : (Works.arm s i queue delay).relinked = s.relinked ∧
      (Works.arm s i queue delay).inFlight = s.inFlight ∧ (Works.arm s i queue delay).clock = s.clock ∧
      (Works.arm s i queue delay).early = s.early := arm_relinked ht
  refine ⟨fun j hj => ?_, fun j due hdue => ?_, fun j hj => ?_, fun j hj hdj => ?_, he.trans h.early, hr.trans h.relinked⟩
  all_goals by_cases hji : j = i
  · simp [arm_work, hji] at hj
  · rw [arm_dwork, if_neg hji]
    exact h.linked j (by simpa [arm_work, hji] using hj)
  · rw [arm_dwork, if_pos hji] at hdue ⊢
    cases delay with
    | noWait => simp [ht] at hdue
    | forever => simp [ht] at hdue
    | ticks n =>
      have hn : s.clock + n + 1 = due := Option.some.inj hdue
      exact ⟨s.clock + n, rfl, by omega⟩
    | absolute tick =>
      exact ⟨tick, rfl, Nat.le_of_eq (Option.some.inj hdue)⟩
  · rw [arm_dwork, if_neg hji] at hdue ⊢
    exact h.promised j due hdue
  · exact absurd (hji ▸ hf ▸ hj) hi
  · rw [arm_dwork, if_neg hji]
    exact h.unlinked j (hf ▸ hj)
  · exact absurd (hji ▸ hf ▸ hj) hi
  · rw [arm_dwork, if_neg hji, hc]
    exact h.due j (hf ▸ hj) (by simpa [arm_work, hji] using hdj)

omit dT in
theorem Timely.scheduleForQueue {c : Caller Q} {queuep : Option Q} {delay : Delay}
    (hd : (s.work (.item i)).delayed = false) (hi : delay ≠ .noWait → i ∉ s.inFlight) :
    Timely (scheduleForQueueLocked s c queuep i delay).1 := by
  unfold scheduleForQueueLocked
  split
  · exact h.still still_submit
  · next hn => exact h.arm hd (hi hn)

omit dQ dS dT in
theorem Timely.announce (ht : Timed s (.announce i : Event I Q S T)) : Timely (announce s i) := by
  obtain ⟨due, hdue, hle⟩ : ∃ due, (s.dwork i).timeout = some due ∧ due ≤ s.clock := by
    simpa [Timed, Option.any_eq_true] using ht
  refine ⟨fun j hd => ?_, fun j due' hdue' => ?_, fun j hj => ?_, fun j hj hd => ?_, h.early, h.relinked⟩
  all_goals by_cases hji : j = i
  · simp [Works.announce, zAbortTimeout, System.updateDelayable, hji]
  · simpa [Works.announce, zAbortTimeout, System.updateDelayable, hji] using h.linked j hd
  · simp [Works.announce, zAbortTimeout, System.updateDelayable, hji] at hdue'
  · simpa [Works.announce, zAbortTimeout, System.updateDelayable, hji] using
      h.promised j due' (by simpa [Works.announce, zAbortTimeout, System.updateDelayable, hji] using hdue')
  · simp [Works.announce, zAbortTimeout, System.updateDelayable, hji]
  · simpa [Works.announce, zAbortTimeout, System.updateDelayable, hji] using
      h.unlinked j ((List.mem_cons.mp hj).resolve_left hji)
  · obtain ⟨tick, hp, hpd⟩ := h.promised i due hdue
    have hle' : ¬s.clock < tick := by omega
    simpa [Works.announce, zAbortTimeout, System.updateDelayable, hji, hp, isEarly] using hle'
  · simpa [Works.announce, zAbortTimeout, System.updateDelayable, hji] using
      h.due j ((List.mem_cons.mp hj).resolve_left hji) hd

omit dQ dT in
theorem Timely.expire (hd : (s.work (.item i)).delayed = true) (hi : i ∈ s.inFlight) : Timely (expire s i) := by
  refine ⟨fun j hj => ?_, h.promised, fun j hj => h.unlinked j (List.mem_of_mem_erase hj), fun j hj hdj => ?_, ?_,
    h.relinked⟩
  · by_cases hji : j = i
    · rw [hji]
      exact h.unlinked i hi
    · exact h.linked j (by simpa [Works.expire, hji] using hj)
  · by_cases hji : j = i
    · simp [Works.expire, hji] at hdj
    · exact h.due j (List.mem_of_mem_erase hj) (by simpa [Works.expire, hji] using hdj)
  · change (s.early || isEarly s.clock (s.dwork i).promised) = false
    rw [h.early, h.due i hi hd]
    rfl

omit dT in
theorem Timely.workTimeout (hi : i ∈ s.inFlight) : Timely (workTimeout s i) := by
  unfold Works.workTimeout
  dsimp only
  split
  · next hd => exact (h.expire hd hi).still still_submit
  · exact ⟨h.linked, h.promised, fun j hj => h.unlinked j (List.mem_of_mem_erase hj),
      fun j hj => h.due j (List.mem_of_mem_erase hj), h.early, h.relinked⟩

omit dI dQ dS dT in
theorem Timely.tick : Timely { s with clock := s.clock + 1 } := by
  refine ⟨h.linked, h.promised, h.unlinked, fun i hi hd => ?_, h.early, h.relinked⟩
  have hdue := h.due i hi hd
  cases hp : (s.dwork i).promised with
  | none => simp [hp, isEarly] at hdue
  | some tick =>
    have hle : tick ≤ s.clock := by simpa [hp, isEarly] using hdue
    have hle' : tick ≤ s.clock + 1 := by omega
    simpa [hp, isEarly] using hle'

end

/-! ## Every run -/

theorem Timely.step (h : Timely s) (hinv : Inv delayable s) (ht : Timed s e) (ha : ArmOk s e)
    (hs : step delayable s e = .ok s') : Timely s' := by
  have hm := step_moves hinv hs
  obtain ⟨hen, rfl⟩ := step_eq_ok hs
  cases e with
  | schedule c q i delay =>
    change Timely (kWorkScheduleForQueue s c q i delay).1
    unfold kWorkScheduleForQueue
    dsimp only
    split
    · exact h
    · next hb =>
      have hb' : ({ s.work (.item i) with running := false } : Work Q).busy = false := by simpa using hb
      have hd : (s.work (.item i)).delayed = false := by
        simp only [Work.busy, Bool.or_eq_false_iff] at hb'
        exact hb'.1.1.1
      exact h.scheduleForQueue hd fun hn => ha hn hb'
  | reschedule c q i delay =>
    refine h.unschedule.scheduleForQueue unschedule_delayed fun hn => ?_
    have hf : (unscheduleLocked s i).1.inFlight = s.inFlight := by
      rcases unschedule_cases (s := s) (i := i) with ⟨_, heq⟩ | ⟨_, heq⟩
      · rw [heq]
      · rw [heq]
        rfl
    rw [hf]
    exact ha hn
  | cancelDelayable i =>
    have hu : Inv delayable (unscheduleLocked s i).1 := hinv.moves (unschedule_moves (e := .cancelDelayable i) rfl)
    exact h.unschedule.still ((cancelAsync_moves (e := .cancel i) hu unschedule_delayed rfl).still rfl)
  | cancelDelayableSync f i =>
    change Timely (kWorkCancelDelayableSync s f i)
    unfold kWorkCancelDelayableSync
    split
    · have hu : Inv delayable (unscheduleLocked s i).1 := hinv.moves (unschedule_moves (e := .cancelDelayable i) rfl)
      have hc := cancelAsync_moves (e := .cancelSync f i) hu unschedule_delayed rfl
      refine h.unschedule.still (Moves.still (hc.trans (cancelWait_moves ?_)) rfl)
      rw [cancelAsync_call, unschedule_call]
      exact hen.2
    · exact h
  | flushDelayable c f i =>
    change Timely (kWorkFlushDelayable s c f i)
    unfold kWorkFlushDelayable
    split
    · exact h
    · have hu : Inv delayable (unscheduleLocked s i).1 := hinv.moves (unschedule_moves (e := .cancelDelayable i) rfl)
      have hcall : (unscheduleLocked s i).1.call f = none := by
        rw [unschedule_call]
        exact hen.2.2
      dsimp only
      split
      · let queue := ((unscheduleLocked s i).1.dwork i).queue
        have hs : Moves delayable (.submit c queue i) (unscheduleLocked s i).1
            (submitToQueueLocked (unscheduleLocked s i).1 c i queue).1 := submit_moves rfl rfl
        have hf := flush_moves (f := f) (i := i) (e := .flush f i) (hu.moves hs) (by rw [submit_call]; exact hcall)
        exact (h.unschedule.still (hs.still rfl)).still (hf.still rfl)
      · exact h.unschedule.still ((flush_moves (e := .flush f i) hu hcall).still rfl)
  | announce i => exact h.announce ht
  | timeout i => exact h.workTimeout ht
  | tick => exact h.tick
  | submit c q i => exact h.still (hm.still rfl)
  | cancel i => exact h.still (hm.still rfl)
  | cancelSync f i => exact h.still (hm.still rfl)
  | flush f i => exact h.still (hm.still rfl)
  | resume f => exact h.still (hm.still rfl)
  | drain t q plug => exact h.still (hm.still rfl)
  | unplug q => exact h.still (hm.still rfl)
  | take q => exact h.still (hm.still rfl)
  | handlerReturn q n => exact h.still (hm.still rfl)
  | finish q n => exact h.still (hm.still rfl)

/-- If no delay of an item begins while an expiry of it is under way, no expiry submits it early, no timeout is added
twice, and only delays that run have a linked timeout. -/
theorem delays_kept {started : Q → Bool} {es : List (Event I Q S T)}
    (hes : Along (step delayable) (fun s e => Timed s e ∧ ArmOk s e) (initial started) es)
    (hrun : run (step delayable) (initial started) es = .ok s) :
    s.early = false ∧ s.relinked = false ∧ ∀ i, (s.work (.item i)).delayed = false → (s.dwork i).timeout = none := by
  have hstart : Inv delayable (initial (I := I) (S := S) (T := T) started) ∧ Timely (initial (I := I) (S := S) (T := T) started) :=
    ⟨initial_inv, fun _ _ => rfl, nofun, nofun, nofun, rfl, rfl⟩
  have h : Inv delayable s ∧ Timely s := by
    refine @run_inv _ _ _ (step delayable) _ (fun s => Inv delayable s ∧ Timely s) _ _ _
      (fun s₁ e s₂ h₁ hc hs => ?_) hstart hes hrun
    exact ⟨h₁.1.step hs, h₁.2.step h₁.1 hc.1 hc.2 hs⟩
  exact ⟨h.2.early, h.2.relinked, h.2.linked⟩

/-- A delay is begun again before its expiry and after it. -/
def rescheduled : List (Event (Fin 2) (Fin 2) (Fin 1) (Fin 1)) :=
  [.schedule .other (some 0) 0 (.ticks 2), .tick, .reschedule .other (some 1) 0 (.absolute 3), .tick, .tick,
    .announce 0, .schedule .other (some 0) 0 (.ticks 1), .timeout 0, .schedule .other (some 0) 0 (.ticks 1),
    .reschedule .other (some 0) 0 .forever]

theorem delays_kept_two : ∃ s, run (step fun _ => true) (initial fun _ => true) rescheduled = .ok s ∧
    s.early = false ∧ s.relinked = false ∧ ∀ i, (s.work (.item i)).delayed = false → (s.dwork i).timeout = none :=
  exists_ok_and (by decide +kernel) fun _ hs => delays_kept (by decide +kernel) hs

/-- A call between the two steps of an expiry begins a delay of 100 ticks, and the item is submitted at once,
with its timeout still linked, which the next call adds again. -/
def rescheduledInBetween : List (Event (Fin 1) (Fin 1) (Fin 1) (Fin 1)) :=
  [.schedule .other (some 0) 0 (.ticks 2), .tick, .tick, .tick, .announce 0, .reschedule .other (some 0) 0 (.ticks 100),
    .timeout 0]

theorem rescheduled_ends_early : ∃ s s', run (step fun _ => true) (initial fun _ => true) rescheduledInBetween = .ok s ∧
    Along (step fun _ => true) Timed (initial fun _ => true) rescheduledInBetween ∧ s.early = true ∧
    (s.work (.item 0)).delayed = false ∧ (s.work (.item 0)).queued = true ∧ (s.dwork 0).timeout = some 104 ∧
    step (fun _ => true) s (.reschedule .other (some 0) 0 (.ticks 5)) = .ok s' ∧ s'.relinked = true := by
  refine ⟨_, _, rfl, by decide +kernel, rfl, rfl, rfl, rfl, rfl, rfl⟩

end RtosKernel.Zephyr.Works
