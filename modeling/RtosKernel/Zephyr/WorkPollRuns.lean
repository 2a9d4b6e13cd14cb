import Mathlib.Tactic.Set
import RtosKernel.Zephyr.WorkPoll

/-! # Triggered work is executed once at most

While a submission is under way, one thing at most has the work: the call that registers its events, a queue, or the
thread of a queue. Nothing has it while it waits for its events, and then it can be triggered or cancelled, but not
both. -/
namespace RtosKernel.Zephyr.WorkPoll
open Lib.Runs List Function Option

variable {W E Q C : Type} [dW : DecidableEq W] [dE : DecidableEq E] [dQ : DecidableEq Q] [dC : DecidableEq C]
  {s s' s'' : System W E Q C} {u w : W} {q : Q} {c : C}

/-! ## The invariant -/

inductive Holder (Q C : Type) where
  | queue (q : Q)
  | thread (q : Q)
  | call (c : C)

/-- The work that a thread has taken and not called yet. -/
def Handling.work : Handling W → Option W
  | .taken w | .clearing w _ | .calling w => some w
  | .dropped r => some r.work
  | .idle | .handler _ => none

def Call.has (call : Call W E Q) : Option W :=
  match call.phase with
  | .locking => none
  | _ => some call.work

def Holds (s : System W E Q C) (w : W) : Holder Q C → Prop
  | .queue q => w ∈ (s.queue q).pending
  | .thread q => (s.thread q).work = some w
  | .call c => ∃ call, s.call c = some call ∧ call.has = some w

def Quiet (s : System W E Q C) (w : W) : Prop := (s.work w).timeoutActive = false ∧ s.firing ≠ some w

def NotRun (s : System W E Q C) (w : W) : Prop := ∀ r ∈ s.runs, r.work = w → r.submission ≠ (s.work w).submission

structure Idle (s : System W E Q C) (w : W) : Prop where
  free : (s.work w).workq = none
  quiet : Quiet s w
  still : (s.work w).isPolling = true → (s.work w).triggered = false

/-- What a thread knows of the submission whose ownership it has dropped. -/
structure Drops (s : System W E Q C) (r : Run W) : Prop where
  free : (s.work r.work).workq = none
  submission : r.submission = (s.work r.work).submission
  byEvent : r.byEvent = (s.work r.work).byEvent
  byTimeout : r.byTimeout = (s.work r.work).byTimeout

/-- The work is triggered and not executed yet. -/
structure Due (s : System W E Q C) (w : W) : Prop where
  owned : (s.work w).workq ≠ none ∨ (s.work w).dropped = true
  still : (s.work w).isPolling = false
  quiet : Quiet s w
  notRun : NotRun s w
  notCancelled : (w, (s.work w).submission) ∉ s.cancelled
  cause : (s.work w).byEvent = true ∨ (s.work w).byTimeout = true
  byEvent : (s.work w).byEvent = true → (s.work w).pollResult = 0
  byTimeout : (s.work w).byTimeout = true → (s.work w).pollResult = -EAGAIN
  drops : ∀ q r, r.work = w → s.thread q = .dropped r → Drops s r

structure Armed (s : System W E Q C) (w : W) : Prop where
  owned : (s.work w).workq ≠ none
  polling : (s.work w).isPolling = true
  triggered : (s.work w).triggered = true
  notRun : NotRun s w
  notCancelled : (w, (s.work w).submission) ∉ s.cancelled
  byEvent : (s.work w).byEvent = false
  byTimeout : (s.work w).byTimeout = false
  fired : s.firing = some w → (s.work w).timeoutActive = false

/-- The events of the work are being registered. -/
structure Registering (s : System W E Q C) (w : W) : Prop where
  owned : (s.work w).workq ≠ none
  triggered : (s.work w).triggered = false
  quiet : Quiet s w
  notRun : NotRun s w
  notCancelled : (w, (s.work w).submission) ∉ s.cancelled
  byEvent : (s.work w).byEvent = !(s.work w).isPolling
  byTimeout : (s.work w).byTimeout = false

/-- The registrations of a cancelled submission are being cleared. -/
structure Cancelling (s : System W E Q C) (w : W) : Prop where
  owned : (s.work w).workq ≠ none
  triggered : (s.work w).triggered = false
  quiet : Quiet s w
  notRun : NotRun s w

def PhaseOk (s : System W E Q C) (w : W) : Phase E Q → Prop
  | .locking => True
  | .cancelling .. => Cancelling s w
  | .saving _ | .registering .. => Registering s w
  | .clearing .. | .submitting _ => Due s w

/-- How the work stands that nothing, or something, has. -/
def HolderOk (s : System W E Q C) (w : W) : Option (Holder Q C) → Prop
  | none => Idle s w ∨ Armed s w ∨ Due s w
  | some (.queue _) | some (.thread _) => Due s w
  | some (.call c) => ∀ call, s.call c = some call → PhaseOk s w call.phase

structure WorkOk (s : System W E Q C) (w : W) : Prop where
  holder : ∃ h, (∀ x, Holds s w x ↔ h = some x) ∧ HolderOk s w h
  queued : (s.work w).queued = true ↔ ∃ q, w ∈ (s.queue q).pending
  ran : ∀ r ∈ s.runs, r.work = w → r.submission ≤ (s.work w).submission
  cancelled : ∀ n, (w, n) ∈ s.cancelled → n ≤ (s.work w).submission

structure Inv (s : System W E Q C) : Prop where
  work : ∀ w, WorkOk s w
  nodup : ∀ q, (s.queue q).pending.Nodup
  sound : Sound s

/-! ## What does not change -/

/-- What is known of the work has not changed, nor the work, but for where it is queued and whether it runs. -/
structure Facts (u : W) (s s' : System W E Q C) : Prop where
  work : s'.work u = { s.work u with
    queued := (s'.work u).queued, queue := (s'.work u).queue, running := (s'.work u).running }
  firing : s'.firing = some u → s.firing = some u
  runs : ∀ r : Run W, r.work = u → (r ∈ s'.runs ↔ r ∈ s.runs)
  cancelled : ∀ n, (u, n) ∈ s'.cancelled ↔ (u, n) ∈ s.cancelled
  drops : ∀ q r, r.work = u → s'.thread q = .dropped r → s.thread q = .dropped r

structure Same (u : W) (s s' : System W E Q C) : Prop extends Facts u s s' where
  queued : (s'.work u).queued = (s.work u).queued
  queue : ∀ q, u ∈ (s'.queue q).pending ↔ u ∈ (s.queue q).pending
  thread : ∀ q, (s'.thread q).work = some u ↔ (s.thread q).work = some u
  call : ∀ c call, call.has = some u → (s'.call c = some call ↔ s.call c = some call)

section Facts
variable (h : Facts u s s')
include h
omit dW dE dQ dC

theorem Facts.quiet (hq : Quiet s u) : Quiet s' u := by
  rw [Quiet, h.work]
  exact ⟨hq.1, fun hf => hq.2 (h.firing hf)⟩

theorem Facts.notRun (hr : NotRun s u) : NotRun s' u := by
  intro r hin hw
  rw [h.work]
  exact hr r ((h.runs r hw).mp hin) hw

theorem Facts.idle (hi : Idle s u) : Idle s' u := by
  obtain ⟨h₁, h₂, h₃⟩ := hi
  refine ⟨?_, h.quiet h₂, ?_⟩ <;> rw [h.work]
  · exact h₁
  · exact h₃

theorem Facts.due (hd : Due s u) : Due s' u := by
  obtain ⟨h₁, h₂, h₃, h₄, h₅, h₆, h₇, h₈, h₉⟩ := hd
  have hc := h.cancelled (s.work u).submission
  refine ⟨?_, ?_, h.quiet h₃, h.notRun h₄, ?_, ?_, ?_, ?_, fun q r hr hq => ?_⟩
  case refine_7 =>
    obtain ⟨d₁, d₂, d₃, d₄⟩ := h₉ q r hr (h.drops q r hr hq)
    subst hr
    constructor <;> rw [h.work] <;> assumption
  all_goals rw [h.work]
  all_goals first | assumption | exact fun hin => h₅ (hc.mp hin)

theorem Facts.armed (ha : Armed s u) : Armed s' u := by
  obtain ⟨h₁, h₂, h₃, h₄, h₅, h₆, h₇, h₈⟩ := ha
  have hc := h.cancelled (s.work u).submission
  refine ⟨?_, ?_, ?_, h.notRun h₄, ?_, ?_, ?_, ?_⟩ <;> rw [h.work]
  all_goals first | assumption | exact fun hin => h₅ (hc.mp hin) | exact fun hf => h₈ (h.firing hf)

theorem Facts.registering (hr : Registering s u) : Registering s' u := by
  obtain ⟨h₁, h₂, h₃, h₄, h₅, h₆, h₇⟩ := hr
  have hc := h.cancelled (s.work u).submission
  refine ⟨?_, ?_, h.quiet h₃, h.notRun h₄, ?_, ?_, ?_⟩ <;> rw [h.work]
  all_goals first | assumption | exact fun hin => h₅ (hc.mp hin)

theorem Facts.cancelling (hr : Cancelling s u) : Cancelling s' u := by
  obtain ⟨h₁, h₂, h₃, h₄⟩ := hr
  refine ⟨?_, ?_, h.quiet h₃, h.notRun h₄⟩ <;> rw [h.work]
  · exact h₁
  · exact h₂

theorem Facts.phaseOk {phase : Phase E Q} (hp : PhaseOk s u phase) : PhaseOk s' u phase := by
  cases phase with
  | locking => trivial
  | cancelling _ _ => exact h.cancelling hp
  | saving _ | registering _ _ _ => exact h.registering hp
  | clearing _ _ | submitting _ => exact h.due hp

end Facts

variable {v : Option (Call W E Q)}

omit dW dE dQ dC in
theorem Facts.of_work (hwork : s'.work u = { s.work u with
      queued := (s'.work u).queued, queue := (s'.work u).queue, running := (s'.work u).running })
    (hrest : (s'.firing, s'.runs, s'.cancelled, s'.thread) = (s.firing, s.runs, s.cancelled, s.thread)) :
    Facts u s s' := by
  simp only [Prod.mk.injEq] at hrest
  obtain ⟨hfiring, hruns, hcancelled, hthread⟩ := hrest
  refine ⟨hwork, ?_, fun _ _ => ?_, fun _ => ?_, fun _ _ _ => ?_⟩
  · rw [hfiring]
    exact id
  · rw [hruns]
  · rw [hcancelled]
  · rw [hthread]
    exact id

omit dW dE dQ in
theorem Facts.setCall : Facts u s (setCall s c v) := .of_work rfl rfl

omit dW dE dQ in
theorem Facts.endCall {value : Int} : Facts u s (endCall s c value) := .of_work rfl rfl

omit dW dE dC in
theorem Facts.setThread {v : Handling W} (hv : ∀ r, r.work = u → v ≠ .dropped r) : Facts u s (setThread s q v) := by
  refine ⟨rfl, id, fun _ _ => Iff.rfl, fun _ => Iff.rfl, fun q' r hr => ?_⟩
  by_cases hq : q' = q
  · subst hq
    simp only [WorkPoll.setThread, update_self]
    exact fun he => absurd he (hv r hr)
  · simp only [WorkPoll.setThread, update_of_ne hq]
    exact id

omit dW dE dQ dC in
theorem Same.trans (h : Same u s s') (h' : Same u s' s'') : Same u s s'' where
  work := h'.work.trans (by rw [h.work])
  queued := h'.queued.trans h.queued
  queue q := (h'.queue q).trans (h.queue q)
  thread q := (h'.thread q).trans (h.thread q)
  call c call hc := (h'.call c call hc).trans (h.call c call hc)
  firing hf := h.firing (h'.firing hf)
  runs r hr := (h'.runs r hr).trans (h.runs r hr)
  cancelled n := (h'.cancelled n).trans (h.cancelled n)
  drops q r hr hq := h.drops q r hr (h'.drops q r hr hq)

omit dW dE dQ dC in
theorem Same.of_facts (h : Facts u s s') (hqueued : (s'.work u).queued = (s.work u).queued)
    (hqueue : s'.queue = s.queue) (hthread : s'.thread = s.thread) (hcall : s'.call = s.call) : Same u s s' :=
  ⟨h, hqueued, fun q => by rw [hqueue], fun q => by rw [hthread], fun c call _ => by rw [hcall]⟩

omit dE dQ dC in
theorem Same.setWork {v : Work E Q} (hu : u ≠ w) : Same u s (setWork s w v) := by
  have hwork : (WorkPoll.setWork s w v).work u = s.work u := update_of_ne hu _ _
  exact .of_facts (.of_work (by rw [hwork]) rfl) (by rw [hwork]) rfl rfl rfl

omit dE dQ dC in
theorem Same.running {v : Bool} : Same u s (WorkPoll.setWork s w { s.work w with running := v }) := by
  by_cases hu : u = w
  · subst hu
    exact .of_facts (.of_work (by simp [WorkPoll.setWork]) rfl) (by simp [WorkPoll.setWork]) rfl rfl rfl
  · exact .setWork hu

omit dW dE dQ dC in
theorem Same.poller {poller : E → Option W} : Same u s { s with poller } :=
  .of_facts (.of_work rfl rfl) rfl rfl rfl rfl

omit dW dE dQ in
theorem Same.setCall (hold : ∀ call, s.call c = some call → call.has ≠ some u)
    (hnew : ∀ call, v = some call → call.has ≠ some u) : Same u s (setCall s c v) := by
  refine ⟨.setCall, rfl, fun _ => Iff.rfl, fun _ => Iff.rfl, ?_⟩
  intro c' call hc
  by_cases hcc : c' = c
  · subst hcc
    simp only [WorkPoll.setCall, update_self]
    exact iff_of_false (fun h => hnew call h hc) (fun h => hold call h hc)
  · simp only [WorkPoll.setCall, update_of_ne hcc]

omit dW dE dQ in
theorem Same.endCall {value : Int} (hold : ∀ call, s.call c = some call → call.has ≠ some u) :
    Same u s (endCall s c value) := by
  have hset : Same u s (WorkPoll.setCall s c none) := .setCall hold (fun _ hc => by cases hc)
  exact hset.trans (.of_facts (.of_work rfl rfl) rfl rfl rfl rfl)

omit dW dE dC in
theorem Same.setThread {v : Handling W} (hold : (s.thread q).work ≠ some u) (hnew : v.work ≠ some u) :
    Same u s (setThread s q v) := by
  refine ⟨.setThread fun r hr he => hnew ?_, rfl, fun _ => Iff.rfl, fun q' => ?_, fun _ _ _ => Iff.rfl⟩
  · rw [he, ← hr]
    rfl
  · by_cases hq : q' = q
    · subst hq
      simp only [WorkPoll.setThread, update_self]
      exact iff_of_false hnew hold
    · simp only [WorkPoll.setThread, update_of_ne hq]

omit dW dE dC in
theorem Same.setQueue {v : Queue W} (hv : u ∈ v.pending ↔ u ∈ (s.queue q).pending) :
    Same u s { s with queue := update s.queue q v } := by
  refine ⟨.of_work rfl rfl, rfl, ?_, fun _ => Iff.rfl, fun _ _ _ => Iff.rfl⟩
  intro q'
  by_cases hq : q' = q
  · subst hq
    simpa only [update_self] using hv
  · simp only [update_of_ne hq]

omit dE dQ dC in
theorem Same.holds (h : Same u s s') (x : Holder Q C) : Holds s' u x ↔ Holds s u x := by
  cases x with
  | queue q => exact h.queue q
  | thread q => exact h.thread q
  | call c =>
    refine exists_congr fun call => ?_
    by_cases hc : call.has = some u
    · exact and_congr_left' (h.call c call hc)
    · simp only [hc, and_false]

omit dE dQ dC in
theorem Same.workOk (h : Same u s s') (hw : WorkOk s u) : WorkOk s' u := by
  obtain ⟨⟨x, hx, hok⟩, hqueued, hran, hcancelled⟩ := hw
  refine ⟨⟨x, fun y => (h.holds y).trans (hx y), ?_⟩, ?_, ?_, ?_⟩
  · match x, hx, hok with
    | none, _, hok => exact hok.imp h.idle (Or.imp h.armed h.due)
    | some (.queue _), _, hok => exact h.due hok
    | some (.thread _), _, hok => exact h.due hok
    | some (.call c), hx, hok =>
      intro call hc
      obtain ⟨call', hc', hhas⟩ := (h.holds (.call c)).mpr ((hx (.call c)).mpr rfl)
      cases hc.symm.trans hc'
      exact h.phaseOk (hok call ((h.call c call hhas).mp hc))
  · rw [h.queued, hqueued]
    exact exists_congr fun q => (h.queue q).symm
  · intro r hr hw
    rw [h.work]
    exact hran r ((h.runs r hw).mp hr) hw
  · intro n hn
    rw [h.work]
    exact hcancelled n ((h.cancelled n).mp hn)

omit dW dE dQ dC in
theorem Sound.congr (h : Sound s) (hruns : s'.runs = s.runs) (hcancelled : s'.cancelled = s.cancelled) :
    Sound s' := by
  obtain ⟨h₁, h₂, h₃, h₄, h₅⟩ := h
  constructor <;> rw [hruns]
  case cancelled => exact hcancelled ▸ h₅
  all_goals assumption

omit dE dQ dC in
theorem Inv.same (h : Inv s) (hsame : ∀ u, Same u s s') (hnodup : ∀ q, (s'.queue q).pending.Nodup)
    (hruns : s'.runs = s.runs) (hcancelled : s'.cancelled = s.cancelled) : Inv s' :=
  ⟨fun u => (hsame u).workOk (h.work u), hnodup, h.sound.congr hruns hcancelled⟩

omit dE dQ dC in
theorem Inv.move (h : Inv s) (hsame : ∀ u ≠ w, Same u s s') (hw : WorkOk s' w)
    (hnodup : ∀ q, (s'.queue q).pending.Nodup) (hruns : s'.runs = s.runs) (hcancelled : s'.cancelled = s.cancelled) :
    Inv s' := by
  refine ⟨fun u => ?_, hnodup, h.sound.congr hruns hcancelled⟩
  by_cases hu : u = w
  · exact hu ▸ hw
  · exact (hsame u hu).workOk (h.work u)

/-! ## Holders -/

section
omit dW dE dQ dC

theorem WorkOk.only {x y : Holder Q C} (h : WorkOk s w) (hx : Holds s w x) (hy : Holds s w y) : y = x := by
  obtain ⟨o, ho, -⟩ := h.holder
  have hx := (ho x).mp hx
  have hy := (ho y).mp hy
  rw [hx] at hy
  exact (some.inj hy).symm

theorem WorkOk.ok {x : Holder Q C} (h : WorkOk s w) (hx : Holds s w x) : HolderOk s w (some x) := by
  obtain ⟨o, ho, hok⟩ := h.holder
  rw [(ho x).mp hx] at hok
  exact hok

theorem WorkOk.stands (h : WorkOk s w) : (∀ x, ¬ Holds s w x) ∧ (Idle s w ∨ Armed s w ∨ Due s w) ∨
    Due s w ∨ Registering s w ∨ Cancelling s w := by
  obtain ⟨o, ho, hok⟩ := h.holder
  match o, ho, hok with
  | none, ho, hok => exact .inl ⟨fun x hx => (by cases (ho x).mp hx), hok⟩
  | some (.queue _), _, hok => exact .inr (.inl hok)
  | some (.thread _), _, hok => exact .inr (.inl hok)
  | some (.call c), ho, hok =>
    obtain ⟨call, hc, hhas⟩ := (ho (.call c)).mpr rfl
    have hphase := hok call hc
    cases hp : call.phase with
    | locking =>
      rw [Call.has, hp] at hhas
      cases hhas
    | cancelling _ _ => exact .inr (.inr (.inr (hp ▸ hphase :)))
    | saving _ | registering _ _ _ => exact .inr (.inr (.inl (hp ▸ hphase :)))
    | clearing _ _ | submitting _ => exact .inr (.inl (hp ▸ hphase :))

theorem WorkOk.queued_false (h : WorkOk s w) (hno : ∀ q : Q, ¬ Holds s w (.queue q)) : (s.work w).queued = false := by
  rw [← Bool.not_eq_true, h.queued]
  exact fun ⟨q, hq⟩ => hno q hq

theorem not_dropped {r : Run W} (hno : ¬ Holds s w (.thread q)) (hr : r.work = w) : s.thread q ≠ .dropped r := by
  intro hq
  refine hno ?_
  rw [Holds, hq, ← hr]
  rfl

end

omit dW dE dQ in
theorem holds_setCall {x : Holder Q C} (hx : x ≠ .call c) : Holds (setCall s c v) w x ↔ Holds s w x := by
  cases x with
  | queue q => exact Iff.rfl
  | thread q => exact Iff.rfl
  | call c' =>
    have hne : c' ≠ c := fun he => hx (he ▸ rfl)
    simp only [Holds, setCall, update_of_ne hne]

variable {call : Call W E Q}

omit dW dE dQ in
theorem holds_call (hhas : call.has = some w) (hno : ∀ x ≠ Holder.call c, ¬ Holds s w x)
    (x : Holder Q C) : Holds (setCall s c (some call)) w x ↔ some (Holder.call c) = some x := by
  by_cases hx : x = .call c
  · subst hx
    refine iff_of_true ⟨call, ?_, hhas⟩ rfl
    simp [setCall]
  · rw [holds_setCall hx]
    exact iff_of_false (hno x hx) fun he => hx (some.inj he).symm

omit dW dE dQ in
theorem not_holds_call (hno : ∀ x ≠ Holder.call c, ¬ Holds s w x) (x : Holder Q C) : ¬ Holds (setCall s c none) w x := by
  by_cases hx : x = .call c
  · subst hx
    rintro ⟨call, hc, -⟩
    simp [setCall] at hc
  · rw [holds_setCall hx]
    exact hno x hx

omit dW dE dQ dC in
theorem WorkOk.build (h : WorkOk s w) {o : Option (Holder Q C)} (ho : ∀ x, Holds s' w x ↔ o = some x)
    (hok : HolderOk s' w o) (hqueued : (s'.work w).queued = (s.work w).queued)
    (hpending : ∀ q, w ∈ (s'.queue q).pending ↔ w ∈ (s.queue q).pending) (hruns : s'.runs = s.runs)
    (hcancelled : s'.cancelled = s.cancelled) (hsub : (s.work w).submission ≤ (s'.work w).submission) :
    WorkOk s' w := by
  refine ⟨⟨o, ho, hok⟩, ?_, ?_, ?_⟩
  · rw [hqueued, h.queued]
    exact exists_congr fun q => (hpending q).symm
  · rw [hruns]
    exact fun r hr hw => Nat.le_trans (h.ran r hr hw) hsub
  · rw [hcancelled]
    exact fun n hn => Nat.le_trans (h.cancelled n hn) hsub

/-! ## Queues -/

def push (s : System W E Q C) (w : W) (q : Q) : System W E Q C :=
  { setWork s w { s.work w with queued := true, queue := some q } with
    queue := update s.queue q { s.queue q with pending := (s.queue q).pending ++ [w] } }

omit dE dC in
theorem kWorkSubmitToQueue_cases (queue current : Option Q) (hqueued : (s.work w).queued = false) :
    kWorkSubmitToQueue s queue w current = s ∨ ∃ q, kWorkSubmitToQueue s queue w current = push s w q := by
  simp only [kWorkSubmitToQueue, submitToQueueLocked, hqueued, Bool.false_eq_true, if_false]
  generalize (if (s.work w).running = true ∨ queue = none then (s.work w).queue else queue) = queue'
  cases queue' with
  | none => exact .inl rfl
  | some q =>
    simp only [queueSubmitLocked]
    split
    · exact .inl rfl
    · split
      · exact .inl rfl
      · split
        · exact .inl rfl
        · exact .inr ⟨q, rfl⟩

omit dE dC in
theorem Inv.push (h : Inv s) (hdue : Due s w) (hno : ∀ x, ¬ Holds s w x) : Inv (push s w q) := by
  have hwork : (WorkPoll.push s w q).work w = { s.work w with queued := true, queue := some q } :=
    update_self ..
  have hpending : ∀ q', w ∈ ((WorkPoll.push s w q).queue q').pending ↔ q' = q := by
    intro q'
    by_cases hq : q' = q
    · simp [WorkPoll.push, hq]
    · have hnot : w ∉ (s.queue q').pending := hno (.queue q')
      simpa [WorkPoll.push, hq, setWork] using hnot
  refine h.move (w := w) ?_ ⟨⟨some (.queue q), ?_, ?_⟩, ?_, ?_, ?_⟩ ?_ rfl rfl
  · intro u hu
    refine (Same.setWork hu).trans (Same.setQueue ?_)
    simp [hu, setWork]
  · intro x
    cases x with
    | queue q' =>
      refine (hpending q').trans ?_
      simp [eq_comm]
    | thread q' => exact iff_of_false (hno (.thread q')) nofun
    | call c => exact iff_of_false (hno (.call c)) nofun
  · have hfacts : Facts w s (WorkPoll.push s w q) := .of_work (by rw [hwork]) rfl
    exact hfacts.due hdue
  · rw [hwork]
    exact iff_of_true rfl ⟨q, (hpending q).mpr rfl⟩
  · rw [hwork]
    exact (h.work w).ran
  · rw [hwork]
    exact (h.work w).cancelled
  · intro q'
    by_cases hq : q' = q
    · subst hq
      have hnot : w ∉ (s.queue q').pending := hno (.queue q')
      simpa [WorkPoll.push, nodup_append] using ⟨h.nodup q', fun a ha he => hnot (he ▸ ha)⟩
    · simpa [WorkPoll.push, hq, setWork] using h.nodup q'

/-! ## Calls -/

omit dE dQ in
theorem Inv.setCall (h : Inv s) (hold : ∀ call, s.call c = some call → call.has = none)
    (hnew : ∀ call, v = some call → call.has = none) : Inv (setCall s c v) :=
  h.same (fun _ => .setCall (fun call hc => by rw [hold call hc]; nofun) fun call hc => by rw [hnew call hc]; nofun)
    h.nodup rfl rfl

omit dE dQ dC in
theorem Inv.returned (h : Inv s) {f : C → Int} : Inv { s with returned := f } :=
  h.same (fun _ => .of_facts (.of_work rfl rfl) rfl rfl rfl rfl) h.nodup rfl rfl

omit dE dQ in
theorem Inv.endCall (h : Inv s) {value : Int} (hold : ∀ call, s.call c = some call → call.has = none) :
    Inv (endCall s c value) :=
  (h.setCall hold (by nofun)).returned

omit dE dQ dC in
theorem Inv.poller (h : Inv s) {poller : E → Option W} : Inv { s with poller } :=
  h.same (fun _ => .poller) h.nodup rfl rfl

variable {ii n : Nat} {events : List E}

omit dQ dC in
theorem Inv.clearEventRegistration (h : Inv s) : Inv (clearEventRegistration s events ii) := by
  unfold WorkPoll.clearEventRegistration
  split
  · exact h.poller
  · exact h

section
omit dW dQ dC

theorem clearEventRegistration_call : (clearEventRegistration s events ii).call = s.call := by
  unfold clearEventRegistration
  split <;> rfl

theorem clearEventRegistration_facts : Facts u s (clearEventRegistration s events ii) := by
  unfold clearEventRegistration
  split
  · exact Same.poller.toFacts
  · exact .of_work rfl rfl

theorem clearEventRegistration_thread : (clearEventRegistration s events ii).thread = s.thread := by
  unfold clearEventRegistration
  split <;> rfl

end

section
variable (h : Inv s) (hc : s.call c = some call) (hhas : call.has = some w)
include h hc hhas

omit dW dE dQ dC in
theorem Inv.call_only :
    PhaseOk s w call.phase ∧ (∀ x ≠ Holder.call c, ¬ Holds s w x) ∧
      ∀ u ≠ w, ∀ call, s.call c = some call → call.has ≠ some u := by
  have hholds : Holds s w (.call c) := ⟨call, hc, hhas⟩
  refine ⟨(h.work w).ok hholds call hc, fun x hx hin => hx ((h.work w).only hholds hin), ?_⟩
  intro u hu call' hc' he
  cases hc.symm.trans hc'
  exact hu (some.inj (he.symm.trans hhas))

omit dE dQ in
theorem Inv.proceed
    {v : Work E Q} {phase : Phase E Q} (hphase : phase ≠ .locking)
    (hok : PhaseOk (WorkPoll.setCall (setWork s w v) c (some ⟨w, phase⟩)) w phase)
    (hqueued : v.queued = (s.work w).queued) (hsub : v.submission = (s.work w).submission) :
    Inv (WorkPoll.setCall (setWork s w v) c (some ⟨w, phase⟩)) := by
  obtain ⟨-, hno, hother⟩ := h.call_only hc hhas
  have hnew : (⟨w, phase⟩ : Call W E Q).has = some w := by
    cases phase with
    | locking => exact absurd rfl hphase
    | _ => rfl
  have hself : (WorkPoll.setCall (setWork s w v) c (some ⟨w, phase⟩)).work w = v := update_self ..
  refine h.move (w := w) ?_ ((h.work w).build (o := some (.call c)) ?_ ?_ ?_ (fun _ => Iff.rfl) rfl rfl ?_)
    h.nodup rfl rfl
  · intro u hu
    refine (Same.setWork hu).trans (Same.setCall (hother u hu) ?_)
    rintro call ⟨⟩ he
    exact hu (some.inj (he.symm.trans hnew))
  · exact holds_call hnew hno
  · intro call' hc'
    simp only [WorkPoll.setCall, update_self, some.injEq] at hc'
    cases hc'
    exact hok
  · rw [hself, hqueued]
  · rw [hself]
    exact Nat.le_of_eq hsub.symm

omit dE dQ in
theorem Inv.finish
    {v : Work E Q} {value : Int} (hok : HolderOk (WorkPoll.endCall (setWork s w v) c value) w none)
    (hqueued : v.queued = (s.work w).queued) (hsub : v.submission = (s.work w).submission) :
    Inv (WorkPoll.endCall (setWork s w v) c value) := by
  obtain ⟨-, hno, hother⟩ := h.call_only hc hhas
  have hself : (WorkPoll.endCall (setWork s w v) c value).work w = v := update_self ..
  refine h.move (w := w) ?_ ((h.work w).build (o := none) ?_ hok ?_ (fun _ => Iff.rfl) rfl rfl ?_) h.nodup rfl rfl
  · exact fun u hu => (Same.setWork hu).trans (Same.endCall (hother u hu))
  · exact fun x => iff_of_false (not_holds_call (s := setWork s w v) hno x) nofun
  · rw [hself, hqueued]
  · rw [hself]
    exact Nat.le_of_eq hsub.symm

end

variable {args : Args E Q}

omit dE dQ in
theorem Inv.takeOwnership (h : Inv s) (hquiet : Quiet s w) (hno : ∀ x ≠ Holder.call c, ¬ Holds s w x)
    (hother : ∀ u ≠ w, ∀ call, s.call c = some call → call.has ≠ some u) :
    Inv (WorkPoll.takeOwnership s c w args) := by
  have hself : (WorkPoll.takeOwnership s c w args).work w = { s.work w with
        isPolling := true, workq := some args.workQ, triggered := false, submission := (s.work w).submission + 1
        byEvent := false, byTimeout := false } :=
    update_self ..
  have hok : Registering (WorkPoll.takeOwnership s c w args) w := by
    refine ⟨?_, ?_, ⟨?_, hquiet.2⟩, ?_, ?_, ?_, ?_⟩
    · rw [hself]
      nofun
    · rw [hself]
    · rw [hself]
      exact hquiet.1
    · intro r hr hw
      rw [hself]
      exact Nat.ne_of_lt (Nat.lt_succ_of_le ((h.work w).ran r hr hw))
    · rw [hself]
      intro hin
      exact Nat.not_succ_le_self _ ((h.work w).cancelled _ hin)
    · rw [hself]
      rfl
    · rw [hself]
  refine h.move (w := w) ?_ ((h.work w).build (o := some (.call c)) ?_ ?_ ?_ (fun _ => Iff.rfl) rfl rfl ?_)
    h.nodup rfl rfl
  · intro u hu
    refine (Same.setWork hu).trans (Same.setCall (hother u hu) ?_)
    rintro call ⟨⟩ he
    exact hu (some.inj he).symm
  · exact holds_call (s := setWork s w _) rfl hno
  · intro call hc
    simp only [WorkPoll.takeOwnership, WorkPoll.setCall, update_self, some.injEq] at hc
    cases hc
    exact hok
  · rw [hself]
  · rw [hself]
    exact Nat.le_succ _

omit dW dE dQ dC in
theorem Inv.armed (h : Inv s) (hcan : (s.work w).isPolling = true ∧ (s.work w).triggered = true) :
    Armed s w ∧ ∀ x, ¬ Holds s w x := by
  rcases (h.work w).stands with ⟨hno, hidle | ha | hd⟩ | hd | hr | hc
  · cases hcan.2.symm.trans (hidle.still hcan.1)
  · exact ⟨ha, hno⟩
  · cases hcan.1.symm.trans hd.still
  · cases hcan.1.symm.trans hd.still
  · cases hcan.2.symm.trans hr.triggered
  · cases hcan.2.symm.trans hc.triggered

omit dW dE dQ dC in
theorem Inv.idle (h : Inv s) (hfree : (s.work w).workq = none) (hcalled : (s.work w).dropped = false) :
    Idle s w ∧ ∀ x, ¬ Holds s w x := by
  have hnot : ¬ Due s w := fun hd => by
    rcases hd.owned with ho | ho
    · exact ho hfree
    · cases hcalled.symm.trans ho
  rcases (h.work w).stands with ⟨hno, hidle | ha | hd⟩ | hd | hr | hc
  · exact ⟨hidle, hno⟩
  · exact absurd hfree ha.owned
  · exact absurd hd hnot
  · exact absurd hd hnot
  · exact absurd hfree hr.owned
  · exact absurd hfree hc.owned

omit dE dQ in
theorem Inv.triggeredWorkCancel (h : Inv s) (hfiring : s.firing ≠ some w)
    (hold : ∀ call, s.call c = some call → call.has = none) {s₁ : System W E Q C}
    (hs : triggeredWorkCancel s w = some s₁) {resubmit : Option (Args E Q)} :
    Inv (WorkPoll.setCall s₁ c (some ⟨w, .cancelling n resubmit⟩)) := by
  dsimp only [WorkPoll.triggeredWorkCancel] at hs
  split at hs
  · rename_i hcan
    obtain ⟨ha, hno⟩ := h.armed hcan
    cases hs
    set v : Work E Q := { s.work w with timeoutActive := false, triggered := false }
    set t : System W E Q C := { setWork s w v with cancelled := (w, (s.work w).submission) :: s.cancelled }
    have hself : (WorkPoll.setCall t c (some ⟨w, .cancelling n resubmit⟩)).work w = v := update_self ..
    have hsame : ∀ u ≠ w, Same u s (WorkPoll.setCall t c (some ⟨w, .cancelling n resubmit⟩)) := by
      intro u hu
      have hcancel : Same u (setWork s w v) t :=
        .of_facts ⟨rfl, id, fun _ _ => Iff.rfl, fun n => by simp [t, hu, setWork], fun _ _ _ => id⟩ rfl rfl rfl rfl
      refine ((Same.setWork hu).trans hcancel).trans (Same.setCall ?_ ?_)
      · intro call hc
        rw [hold call hc]
        nofun
      · rintro call ⟨⟩ he
        exact hu (some.inj he).symm
    refine ⟨fun u => ?_, h.nodup, ?_⟩
    · by_cases hu : u = w
      · subst hu
        refine ⟨⟨some (.call c), holds_call (s := t) rfl fun x _ => hno x, ?_⟩, ?_, ?_, ?_⟩
        · intro call hc
          simp only [WorkPoll.setCall, update_self, some.injEq] at hc
          cases hc
          refine ⟨?_, ?_, ⟨?_, hfiring⟩, ?_⟩
          · rw [hself]
            exact ha.owned
          · rw [hself]
          · rw [hself]
          · rw [NotRun, hself]
            exact ha.notRun
        · rw [hself]
          exact (h.work u).queued
        · rw [hself]
          exact (h.work u).ran
        · intro k hk
          rw [hself]
          rcases mem_cons.mp hk with he | hk
          · cases he
            exact Nat.le_refl _
          · exact (h.work u).cancelled k hk
      · exact (hsame u hu).workOk (h.work u)
    · obtain ⟨h₁, h₂, h₃, h₄, h₅⟩ := h.sound
      refine ⟨h₁, h₂, h₃, h₄, fun r hr hin => ?_⟩
      rcases mem_cons.mp hin with he | hin
      · obtain ⟨hw, hsub⟩ := Prod.mk.inj he
        exact ha.notRun r hr hw hsub
      · exact h₅ r hr hin
  · cases hs

omit dE in
theorem Inv.kWorkPollSubmitToQueue (h : Inv s) (hc : s.call c = none)
    (ho : Orderly s (.submit c w args)) : Inv (WorkPoll.kWorkPollSubmitToQueue s c w args) := by
  have hold : ∀ call, s.call c = some call → call.has = none := fun call hs => by cases hc.symm.trans hs
  unfold WorkPoll.kWorkPollSubmitToQueue
  cases hq : (s.work w).workq with
  | none =>
    obtain ⟨hidle, hno⟩ := h.idle hq ho.2
    exact h.takeOwnership hidle.quiet (fun x _ => hno x) fun _ _ call hs => by cases hc.symm.trans hs
  | some q =>
    dsimp only
    split
    · rename_i he
      cases hs : WorkPoll.triggeredWorkCancel s w with
      | none => exact h.endCall hold
      | some s₁ =>
        refine h.triggeredWorkCancel (fun hf => ho.1 hf ?_) hold hs
        rw [hq, he]
    · exact h.endCall hold

omit dE dQ dC in
theorem setWork_self : setWork s w (s.work w) = s := by
  simp only [setWork, update_eq_self]

omit dE dQ in
theorem Inv.setPhase (h : Inv s) (hc : s.call c = some call) (hhas : call.has = some w)
    (phase : Phase E Q) (hphase : phase ≠ .locking) (hok : PhaseOk s w phase) :
    Inv (WorkPoll.setCall s c (some ⟨w, phase⟩)) := by
  have hgo := h.proceed (v := s.work w) hc hhas hphase
  rw [setWork_self] at hgo
  exact hgo (Facts.setCall.phaseOk hok) rfl rfl

omit dQ in
theorem Inv.registerEvent (h : Inv s) {event : E} {ready : Bool} (hc : s.call c = some ⟨w, .registering args ii n⟩) :
    Inv (WorkPoll.registerEvent s c w args ii n event ready) := by
  have hok : Registering s w := (h.call_only hc rfl).1
  dsimp only [WorkPoll.registerEvent]
  split
  · refine h.proceed hc rfl nofun ?_ rfl rfl
    obtain ⟨h₁, h₂, h₃, h₄, h₅, -, h₇⟩ := hok
    refine ⟨?_, ?_, ⟨?_, h₃.2⟩, ?_, ?_, ?_, ?_⟩ <;> simp only [NotRun, WorkPoll.setCall, setWork, update_self]
    · exact h₁
    · exact h₂
    · exact h₃.1
    · exact h₄
    · exact h₅
    · rfl
    · exact h₇
  · split
    · have hpoller : Inv { s with poller := update s.poller event (some w) } := h.poller
      exact hpoller.setPhase hc rfl (.registering args (ii + 1) (n + 1)) nofun (Same.poller.registering hok)
    · exact h.setPhase hc rfl (.registering args (ii + 1) n) nofun hok

omit dE dQ in
theorem Inv.eventsRegistered (h : Inv s)
    (hc : s.call c = some ⟨w, .registering args ii n⟩) : Inv (WorkPoll.eventsRegistered s c w args n) := by
  obtain ⟨hok, hno, -⟩ := h.call_only hc rfl
  obtain ⟨h₁, h₂, h₃, h₄, h₅, h₆, h₇⟩ : Registering s w := hok
  dsimp only [WorkPoll.eventsRegistered]
  split
  · rename_i hwait
    refine h.finish hc rfl (.inr (.inl ?_)) rfl rfl
    refine ⟨?_, ?_, ?_, ?_, ?_, ?_, ?_, fun hf => absurd hf h₃.2⟩ <;>
      simp only [NotRun, WorkPoll.endCall, WorkPoll.setCall, setWork, update_self]
    · exact h₁
    · exact hwait.1
    · exact h₄
    · exact h₅
    · rw [h₆, hwait.1]
      rfl
    · exact h₇
  · refine h.proceed hc rfl nofun ?_ ?_ ?_
    · refine ⟨.inl ?_, ?_, ⟨?_, h₃.2⟩, ?_, ?_, ?_, ?_, ?_, fun q r hr hq => absurd hq (not_dropped (hno (.thread q) nofun) hr)⟩ <;>
        simp only [NotRun, WorkPoll.setCall, setWork, update_self]
      all_goals cases hpoll : (s.work w).isPolling <;> rw [hpoll] at h₆
      all_goals simp [h₁, h₃.1, h₅, h₆, h₇]
      all_goals exact h₄
    · split <;> rfl
    · split <;> rfl

variable {current : Option Q}

omit dE in
theorem Inv.submitting (h : Inv s) (hc : s.call c = some ⟨w, .submitting args⟩) :
    Inv (WorkPoll.endCall (kWorkSubmitToQueue s (some args.workQ) w current) c 0) := by
  obtain ⟨hok, hno, -⟩ := h.call_only hc rfl
  have hdue : Due s w := hok
  have hend : Inv (WorkPoll.endCall s c 0) := by
    have hgo : Inv (WorkPoll.endCall (setWork s w (s.work w)) c 0) :=
      h.finish hc rfl (by rw [setWork_self]; exact .inr (.inr (Facts.endCall.due hdue))) rfl rfl
    rwa [setWork_self] at hgo
  have hqueued := (h.work w).queued_false fun q => hno (.queue q) nofun
  rcases kWorkSubmitToQueue_cases (some args.workQ) current hqueued with he | ⟨q, he⟩
  · rw [he]
    exact hend
  · rw [he]
    exact hend.push (Facts.endCall.due hdue) (not_holds_call hno)

theorem Inv.callStep (h : Inv s) {ready : Bool} (hc : s.call c = some call)
    (ho : Orderly s (.callStep c ready current)) : Inv (WorkPoll.callStep s c call ready current) := by
  obtain ⟨w, phase⟩ := call
  cases phase with
  | locking =>
    have hold : ∀ call, s.call c = some call → call.has = none := by
      intro call hs
      cases hc.symm.trans hs
      rfl
    simp only [WorkPoll.callStep]
    cases hs : WorkPoll.triggeredWorkCancel s w with
    | none => exact h.endCall hold
    | some s₁ => exact h.triggeredWorkCancel (ho _ hc rfl) hold hs
  | cancelling n resubmit =>
    obtain ⟨hok, hno, hother⟩ := h.call_only hc rfl
    have hcancel : Cancelling s w := hok
    cases n with
    | succ ii =>
      refine h.clearEventRegistration.setPhase (by rw [clearEventRegistration_call]; exact hc) rfl _ nofun ?_
      exact clearEventRegistration_facts.cancelling hcancel
    | zero =>
      cases resubmit with
      | some args =>
        have he : WorkPoll.takeOwnership (setWork s w { s.work w with workq := none }) c w args =
            WorkPoll.takeOwnership s c w args := by
          simp [WorkPoll.takeOwnership, setWork]
        simp only [WorkPoll.callStep, he]
        exact h.takeOwnership hcancel.quiet hno hother
      | none =>
        refine h.finish hc rfl (.inl ?_) rfl rfl
        refine ⟨?_, ⟨?_, hcancel.quiet.2⟩, fun _ => ?_⟩ <;>
          simp only [WorkPoll.endCall, WorkPoll.setCall, setWork, update_self]
        · exact hcancel.quiet.1
        · exact hcancel.triggered
  | saving args =>
    obtain ⟨h₁, h₂, h₃, h₄, h₅, h₆, h₇⟩ : Registering s w := (h.call_only hc rfl).1
    refine h.proceed hc rfl nofun ?_ rfl rfl
    refine ⟨?_, ?_, ⟨?_, h₃.2⟩, ?_, ?_, ?_, ?_⟩ <;> simp only [NotRun, WorkPoll.setCall, setWork, update_self]
    all_goals first | assumption | exact h₃.1
  | registering args ii n =>
    simp only [WorkPoll.callStep]
    cases args.events[ii]? with
    | some event => exact h.registerEvent hc
    | none => exact h.eventsRegistered hc
  | clearing args n =>
    have hdue : Due s w := (h.call_only hc rfl).1
    cases n with
    | succ ii =>
      refine h.clearEventRegistration.setPhase (by rw [clearEventRegistration_call]; exact hc) rfl _ nofun ?_
      exact clearEventRegistration_facts.due hdue
    | zero => exact h.setPhase hc rfl (.submitting args) nofun hdue
  | submitting args => exact h.submitting hc

/-! ## Events and timeouts -/

omit dE dQ dC in
theorem Inv.change (h : Inv s) (hsame : ∀ u ≠ w, Same u s s') (hqueue : s'.queue = s.queue)
    (hthread : s'.thread = s.thread) (hcall : s'.call = s.call) (hidle : Idle s w → Idle s' w)
    (harmed : Armed s w → Armed s' w ∨ Due s' w) (hdue : Due s w → Due s' w)
    (hregistering : Registering s w → Registering s' w) (hcancelling : Cancelling s w → Cancelling s' w)
    (hqueued : (s'.work w).queued = (s.work w).queued) (hsub : (s'.work w).submission = (s.work w).submission)
    (hruns : s'.runs = s.runs) (hcancelled : s'.cancelled = s.cancelled) : Inv s' := by
  obtain ⟨o, ho, hok⟩ := (h.work w).holder
  have hholds : ∀ x, Holds s' w x ↔ Holds s w x := by
    intro x
    cases x <;> simp only [Holds, hqueue, hthread, hcall]
  refine h.move hsame ((h.work w).build (o := o) (fun x => (hholds x).trans (ho x)) ?_ hqueued
    (fun q => by rw [hqueue]) hruns hcancelled (Nat.le_of_eq hsub.symm)) (by rw [hqueue]; exact h.nodup) hruns
    hcancelled
  match o, hok with
  | none, hok =>
    rcases hok with hi | ha | hd
    · exact .inl (hidle hi)
    · exact .inr (harmed ha)
    · exact .inr (.inr (hdue hd))
  | some (.queue _), hok => exact hdue hok
  | some (.thread _), hok => exact hdue hok
  | some (.call c), hok =>
    intro call hc
    rw [hcall] at hc
    have hphase := hok call hc
    cases hp : call.phase with
    | locking => trivial
    | cancelling _ _ => exact hcancelling (hp ▸ hphase :)
    | saving _ | registering _ _ _ => exact hregistering (hp ▸ hphase :)
    | clearing _ _ | submitting _ => exact hdue (hp ▸ hphase :)

section
omit dE dC

theorem Inv.trigger (h : Inv s) (ha : Armed s w) (hno : ∀ x, ¬ Holds s w x) {v : Work E Q} {f : Option W}
    (hf : ∀ u, f = some u → s.firing = some u ∧ u ≠ w)
    (hdue : Due { setWork s w v with firing := f } w) (hqueued : v.queued = (s.work w).queued)
    (hsub : v.submission = (s.work w).submission) :
    Inv { setWork s w v with firing := f } ∧ ∀ q, Inv (WorkPoll.push { setWork s w v with firing := f } w q) := by
  have hself : ({ setWork s w v with firing := f } : System W E Q C).work w = v := update_self ..
  have hbase : Inv { setWork s w v with firing := f } := by
    refine h.change (w := w) ?_ rfl rfl rfl ?_ (fun _ => .inr hdue) (fun _ => hdue) ?_ ?_ ?_ ?_ rfl rfl
    · intro u hu
      refine (Same.setWork hu).trans
        (.of_facts ⟨rfl, ?_, fun _ _ => Iff.rfl, fun _ => Iff.rfl, fun _ _ _ => id⟩ rfl rfl rfl rfl)
      exact fun he => (hf u he).1
    · exact fun hi => absurd hi.free ha.owned
    · exact fun hr => by cases ha.triggered.symm.trans hr.triggered
    · exact fun hc => by cases ha.triggered.symm.trans hc.triggered
    · rw [hself, hqueued]
    · rw [hself, hsub]
  exact ⟨hbase, fun q => hbase.push hdue hno⟩

theorem signalPoller_eq : signalPoller s w current =
    if (s.work w).triggered = true ∧ (s.work w).isPolling = true ∧ (s.work w).workq ≠ none then
      let t := kWorkSubmitToQueue (setWork s w { s.work w with timeoutActive := false, pollResult := 0 })
        (s.work w).workq w current
      setWork t w { t.work w with isPolling := false, byEvent := (s.work w).byEvent || (s.work w).isPolling }
    else setWork s w
      { s.work w with isPolling := false, byEvent := (s.work w).byEvent || (s.work w).isPolling } := by
  dsimp only [signalPoller, signalTriggeredWork]
  by_cases ht : (s.work w).triggered = true
  · by_cases hp : (s.work w).isPolling = true ∧ (s.work w).workq ≠ none
    · rw [if_pos ht, if_pos hp, if_pos ⟨ht, hp⟩]
    · rw [if_pos ht, if_neg hp, if_neg fun h => hp h.2]
  · rw [if_neg ht, if_neg fun h => ht h.1]

theorem Inv.signalPoller (h : Inv s) (hfiring : s.firing ≠ some w) : Inv (WorkPoll.signalPoller s w current) := by
  rw [signalPoller_eq]
  by_cases hcan : (s.work w).triggered = true ∧ (s.work w).isPolling = true ∧ (s.work w).workq ≠ none
  · rw [if_pos hcan]
    obtain ⟨ha, hno⟩ := h.armed ⟨hcan.2.1, hcan.1⟩
    have hqueued := (h.work w).queued_false fun q => hno (.queue q)
    set v : Work E Q := { s.work w with timeoutActive := false, pollResult := 0 }
    set v' : Work E Q := { v with isPolling := false, byEvent := (s.work w).byEvent || (s.work w).isPolling } with hv'
    have hdue : Due { setWork s w v' with firing := s.firing } w := by
      refine ⟨.inl ?_, ?_, ⟨?_, hfiring⟩, ?_, ?_, ?_, ?_, ?_, fun q r hr hq => absurd hq (not_dropped (hno (.thread q)) hr)⟩ <;>
        simp only [NotRun, setWork, update_self, hv', v]
      · exact hcan.2.2
      · exact ha.notRun
      · exact ha.notCancelled
      · rw [hcan.2.1]
        simp
      · exact fun _ => trivial
      · rw [ha.byTimeout]
        nofun
    obtain ⟨hbase, hpush⟩ := h.trigger ha hno (f := s.firing) (fun u hu => ⟨hu, fun he => hfiring (he ▸ hu)⟩) hdue rfl rfl
    have hq : ((setWork s w v).work w).queued = false := by
      rw [show (setWork s w v).work w = v from update_self ..]
      exact hqueued
    rcases kWorkSubmitToQueue_cases (s.work w).workq current hq with he | ⟨q, he⟩
    · rw [he]
      have hset : setWork (setWork s w v) w { (setWork s w v).work w with
          isPolling := false, byEvent := (s.work w).byEvent || (s.work w).isPolling } = setWork s w v' := by
        simp [setWork, hv']
      rw [hset]
      exact hbase
    · rw [he]
      have hset : setWork (WorkPoll.push (setWork s w v) w q) w { (WorkPoll.push (setWork s w v) w q).work w with
          isPolling := false, byEvent := (s.work w).byEvent || (s.work w).isPolling } =
          WorkPoll.push (setWork s w v') w q := by
        simp [setWork, WorkPoll.push, hv']
      rw [hset]
      exact hpush q
  · rw [if_neg hcan]
    refine h.change (w := w) (fun u hu => .setWork hu) rfl rfl rfl ?_ ?_ ?_ ?_ ?_ ?_ ?_ rfl rfl
    · intro hi
      refine ⟨?_, ⟨?_, hi.quiet.2⟩, ?_⟩ <;> simp only [setWork, update_self]
      · exact hi.free
      · exact hi.quiet.1
      · nofun
    · exact fun ha => absurd ⟨ha.triggered, ha.polling, ha.owned⟩ hcan
    · intro hd
      have hsame : { s.work w with isPolling := false, byEvent := (s.work w).byEvent || (s.work w).isPolling } =
          s.work w := by
        rw [hd.still, Bool.or_false, ← hd.still]
      rw [hsame, setWork_self]
      exact hd
    · intro hr
      obtain ⟨h₁, h₂, h₃, h₄, h₅, h₆, h₇⟩ := hr
      refine ⟨?_, ?_, ⟨?_, h₃.2⟩, ?_, ?_, ?_, ?_⟩ <;> simp only [NotRun, setWork, update_self]
      · exact h₁
      · exact h₂
      · exact h₃.1
      · exact h₄
      · exact h₅
      · rw [h₆]
        cases (s.work w).isPolling <;> rfl
      · exact h₇
    · intro hc
      obtain ⟨h₁, h₂, h₃, h₄⟩ := hc
      refine ⟨?_, ?_, ⟨?_, h₃.2⟩, ?_⟩ <;> simp only [NotRun, setWork, update_self]
      · exact h₁
      · exact h₂
      · exact h₃.1
      · exact h₄
    · simp [setWork]
    · simp [setWork]

end

omit dE dQ dC in
theorem Inv.expire (h : Inv s) (hactive : (s.work w).timeoutActive = true) :
    Inv { setWork s w { s.work w with timeoutActive := false } with firing := some w } := by
  have hnot : ¬ Quiet s w := fun hq => by cases hactive.symm.trans hq.1
  refine h.change (w := w) ?_ rfl rfl rfl ?_ ?_ ?_ ?_ ?_ ?_ ?_ rfl rfl
  · intro u hu
    refine (Same.setWork hu).trans
      (.of_facts ⟨rfl, ?_, fun _ _ => Iff.rfl, fun _ => Iff.rfl, fun _ _ _ => id⟩ rfl rfl rfl rfl)
    exact fun he => absurd (some.inj he).symm hu
  · exact fun hi => absurd hi.quiet hnot
  · intro ha
    obtain ⟨h₁, h₂, h₃, h₄, h₅, h₆, h₇, -⟩ := ha
    refine .inl ⟨?_, ?_, ?_, ?_, ?_, ?_, ?_, fun _ => ?_⟩ <;> simp only [NotRun, setWork, update_self]
    all_goals assumption
  · exact fun hd => absurd hd.quiet hnot
  · exact fun hr => absurd hr.quiet hnot
  · exact fun hc => absurd hc.quiet hnot
  · simp [setWork]
  · simp [setWork]

omit dE dC in
theorem Inv.triggeredWorkExpirationHandler (h : Inv s) (hfiring : s.firing = some w) :
    Inv { WorkPoll.triggeredWorkExpirationHandler s w with firing := none } := by
  have hstands : Armed s w ∧ ∀ x, ¬ Holds s w x := by
    have hnot : ¬ Quiet s w := fun hq => hq.2 hfiring
    rcases (h.work w).stands with ⟨hno, hi | ha | hd⟩ | hd | hr | hc
    · exact absurd hi.quiet hnot
    · exact ⟨ha, hno⟩
    · exact absurd hd.quiet hnot
    · exact absurd hd.quiet hnot
    · exact absurd hr.quiet hnot
    · exact absurd hc.quiet hnot
  obtain ⟨ha, hno⟩ := hstands
  set v : Work E Q := { s.work w with isPolling := false, pollResult := -EAGAIN, byTimeout := true } with hv
  have hdue : Due { setWork s w v with firing := none } w := by
    refine ⟨.inl ?_, ?_, ⟨?_, nofun⟩, ?_, ?_, .inr ?_, ?_, ?_, fun q r hr hq => absurd hq (not_dropped (hno (.thread q)) hr)⟩ <;>
      simp only [NotRun, setWork, update_self, hv]
    · exact ha.owned
    · exact ha.fired hfiring
    · exact ha.notRun
    · exact ha.notCancelled
    · rw [ha.byEvent]
      nofun
    · exact fun _ => trivial
  obtain ⟨hbase, hpush⟩ := h.trigger ha hno (f := none) nofun hdue rfl rfl
  have hq : ((setWork s w v).work w).queued = false := by
    rw [show (setWork s w v).work w = v from update_self ..]
    exact (h.work w).queued_false fun q => hno (.queue q)
  rw [WorkPoll.triggeredWorkExpirationHandler]
  rcases kWorkSubmitToQueue_cases v.workq none hq with he | ⟨q, he⟩
  · rw [he]
    exact hbase
  · rw [he]
    exact hpush q

/-! ## Threads of queues -/

omit dW dE dC in
theorem holds_setThread {v : Handling W} {x : Holder Q C} (hx : x ≠ .thread q) :
    Holds (setThread s q v) w x ↔ Holds s w x := by
  cases x with
  | queue q => exact Iff.rfl
  | call c => exact Iff.rfl
  | thread q' =>
    have hne : q' ≠ q := fun he => hx (he ▸ rfl)
    simp only [Holds, setThread, update_of_ne hne]

omit dW dE dC in
theorem holds_thread {v : Handling W} (hv : v.work = some w) (hno : ∀ x ≠ Holder.thread q, ¬ Holds s w x)
    (x : Holder Q C) : Holds (setThread s q v) w x ↔ some (Holder.thread q) = some x := by
  by_cases hx : x = .thread q
  · subst hx
    refine iff_of_true ?_ rfl
    simp [Holds, setThread, hv]
  · rw [holds_setThread hx]
    exact iff_of_false (hno x hx) fun he => hx (some.inj he).symm

section
omit dE dC

theorem Inv.setThread (h : Inv s) {v : Handling W} (hv : v.work = (s.thread q).work) (hd : ∀ r, v ≠ .dropped r) :
    Inv (setThread s q v) := by
  refine h.same (fun u => ⟨.setThread fun r _ => hd r, rfl, fun _ => Iff.rfl, fun q' => ?_, fun _ _ _ => Iff.rfl⟩)
    h.nodup rfl rfl
  by_cases hq : q' = q
  · subst hq
    simp only [WorkPoll.setThread, update_self, hv]
  · simp only [WorkPoll.setThread, update_of_ne hq]

theorem Inv.take (h : Inv s) (hidle : s.thread q = .idle) {pending : List W} (hp : (s.queue q).pending = w :: pending) :
    Inv (WorkPoll.setThread { setWork s w { s.work w with running := true, queued := false } with
      queue := update s.queue q { s.queue q with pending } } q (.taken w)) := by
  have hholds : Holds s w (.queue q) := by
    show w ∈ (s.queue q).pending
    rw [hp]
    exact mem_cons_self ..
  have hdue : Due s w := (h.work w).ok hholds
  have hnodup := h.nodup q
  rw [hp, nodup_cons] at hnodup
  have hgone : ∀ q', w ∉ (update s.queue q { s.queue q with pending } q').pending := by
    intro q'
    by_cases hq : q' = q
    · subst hq
      simpa using hnodup.1
    · rw [update_of_ne hq]
      intro hin
      have hin : Holds s w (.queue q') := hin
      cases (h.work w).only hholds hin
      exact hq rfl
  refine h.move (w := w) ?_ ⟨⟨some (.thread q), ?_, ?_⟩, ?_, ?_, ?_⟩ ?_ rfl rfl
  · intro u hu
    refine ((Same.setWork hu).trans (Same.setQueue ?_)).trans (Same.setThread ?_ ?_)
    · simp [setWork, hp, hu]
    · simp [setWork, hidle, Handling.work]
    · simpa [Handling.work] using fun he => hu he.symm
  · refine holds_thread rfl fun x hx => ?_
    cases x with
    | queue q' => exact hgone q'
    | thread q' =>
      intro hin
      have hin : Holds s w (.thread q') := hin
      cases (h.work w).only hholds hin
    | call c =>
      intro hin
      have hin : Holds s w (.call c) := hin
      cases (h.work w).only hholds hin
  · have hset : Facts w s { setWork s w { s.work w with running := true, queued := false } with
        queue := update s.queue q { s.queue q with pending } } := .of_work (by simp [setWork]) rfl
    exact Facts.due (.setThread fun _ _ => nofun) (hset.due hdue)
  · refine iff_of_false ?_ fun ⟨q', hin⟩ => hgone q' hin
    simp [WorkPoll.setThread, setWork]
  · simpa [WorkPoll.setThread, setWork] using (h.work w).ran
  · simpa [WorkPoll.setThread, setWork] using (h.work w).cancelled
  · intro q'
    by_cases hq : q' = q
    · subst hq
      simpa [WorkPoll.setThread] using hnodup.2
    · simpa [WorkPoll.setThread, hq] using h.nodup q'

theorem Inv.dropOwnership (h : Inv s) (hcalling : s.thread q = .calling w) :
    Inv (WorkPoll.dropOwnership s q w) := by
  have hholds : Holds s w (.thread q) := by simp [Holds, hcalling, Handling.work]
  have hdue : Due s w := (h.work w).ok hholds
  have hno : ∀ x ≠ Holder.thread q, ¬ Holds s w x := fun x hx hin => hx ((h.work w).only hholds hin)
  have hself : (WorkPoll.dropOwnership s q w).work w = { s.work w with workq := none, dropped := true } := update_self ..
  refine h.move (w := w) ?_ ((h.work w).build (o := some (.thread q)) ?_ ?_ ?_ (fun _ => Iff.rfl) rfl rfl ?_)
    h.nodup rfl rfl
  · intro u hu
    refine (Same.setWork hu).trans (Same.setThread ?_ ?_)
    · simpa [setWork, hcalling, Handling.work] using fun he => hu he.symm
    · simpa [Handling.work] using fun he => hu he.symm
  · exact holds_thread (s := setWork s w _) rfl hno
  · obtain ⟨-, h₂, h₃, h₄, h₅, h₆, h₇, h₈, -⟩ := hdue
    refine ⟨.inr ?_, ?_, ⟨?_, h₃.2⟩, ?_, ?_, ?_, ?_, ?_, fun q' r hr hq => ?_⟩
    case refine_9 =>
      by_cases hqq : q' = q
      · subst hqq
        simp only [WorkPoll.dropOwnership, WorkPoll.setThread, update_self, Handling.dropped.injEq] at hq
        subst hq
        constructor <;> rw [hself]
      · simp only [WorkPoll.dropOwnership, WorkPoll.setThread, update_of_ne hqq] at hq
        exact absurd hq (not_dropped (hno (.thread q') fun he => hqq (Holder.thread.inj he)) hr)
    · rw [hself]
    · rw [hself]
      exact h₂
    · rw [hself]
      exact h₃.1
    · rw [NotRun, hself]
      exact h₄
    · rw [hself]
      exact h₅
    · rw [hself]
      exact h₆
    · rw [hself]
      exact h₇
    · rw [hself]
      exact h₈
  · rw [hself]
  · simp only [hself, Nat.le_refl]

theorem Inv.callRealHandler (h : Inv s) {r : Run W} (hdropped : s.thread q = .dropped r) :
    Inv (WorkPoll.callRealHandler s q r) := by
  obtain ⟨w, hw⟩ : ∃ w, r.work = w := ⟨_, rfl⟩
  have hholds : Holds s w (.thread q) := by simp [Holds, hdropped, Handling.work, hw]
  have hdue : Due s w := (h.work w).ok hholds
  obtain ⟨hfree, hsub, hevent, htimeout⟩ := hdue.drops q r hw hdropped
  set t : System W E Q C := WorkPoll.callRealHandler s q r with ht
  rw [hw] at hfree hsub hevent htimeout
  have hself : t.work w = { s.work w with dropped := false } := by
    rw [← hw]
    exact update_self ..
  have hruns : t.runs = { r with pollResult := (s.work w).pollResult } :: s.runs := by
    rw [← hw]
    rfl
  have hsame : ∀ u ≠ w, Same u s t := by
    intro u hu
    have hthread : Same u s (WorkPoll.setThread (setWork s r.work { s.work r.work with dropped := false }) q
        (.handler r.work)) := by
      refine (Same.setWork (hw ▸ hu)).trans (Same.setThread ?_ ?_)
      · simpa [setWork, hdropped, Handling.work, hw] using fun he => hu he.symm
      · simp [Handling.work]
    refine hthread.trans (.of_facts ⟨rfl, id, ?_, fun _ => Iff.rfl, fun _ _ _ => id⟩ rfl rfl rfl rfl)
    intro r' hr
    refine mem_cons.trans (or_iff_right ?_)
    rintro rfl
    exact hu (hr.symm.trans hw)
  refine ⟨fun u => ?_, h.nodup, ?_⟩
  · by_cases hu : u = w
    · subst hu
      refine ⟨⟨none, ?_, .inl ⟨?_, ⟨?_, hdue.quiet.2⟩, ?_⟩⟩, ?_, ?_, ?_⟩
      · intro x
        refine iff_of_false ?_ nofun
        by_cases hx : x = .thread q
        · subst hx
          simp [Holds, ht, WorkPoll.callRealHandler, WorkPoll.setThread, Handling.work]
        · intro hin
          exact hx ((h.work u).only hholds ((holds_setThread hx).mp hin))
      · rw [hself]
        exact hfree
      · rw [hself]
        exact hdue.quiet.1
      · rw [hself]
        exact fun hp => by cases hdue.still.symm.trans hp
      · rw [hself]
        exact (h.work u).queued
      · rw [hself, hruns]
        intro r' hr hw'
        rcases mem_cons.mp hr with rfl | hr
        · exact Nat.le_of_eq hsub
        · exact (h.work u).ran r' hr hw'
      · rw [hself]
        exact (h.work u).cancelled
    · exact (hsame u hu).workOk (h.work u)
  · obtain ⟨h₁, h₂, h₃, h₄, h₅⟩ := h.sound
    refine ⟨?_, ?_, ?_, ?_, ?_⟩ <;> rw [hruns]
    · refine nodup_cons.mpr ⟨fun hin => ?_, h₁⟩
      obtain ⟨r', hr, he⟩ := List.mem_map.mp hin
      obtain ⟨hw', hsub'⟩ := Prod.mk.inj he
      exact hdue.notRun r' hr (hw'.trans hw) (hsub'.trans hsub)
    · refine forall_mem_cons.mpr ⟨?_, h₂⟩
      rw [hevent, htimeout]
      exact hdue.cause
    · refine forall_mem_cons.mpr ⟨?_, h₃⟩
      rw [hevent]
      exact hdue.byEvent
    · refine forall_mem_cons.mpr ⟨?_, h₄⟩
      rw [htimeout]
      exact hdue.byTimeout
    · refine forall_mem_cons.mpr ⟨?_, h₅⟩
      rw [hw, hsub]
      exact hdue.notCancelled

end

omit dC in
theorem Inv.workQueueMain (h : Inv s) (hs : workQueueMain s q = .ok s') : Inv s' := by
  simp only [WorkPoll.workQueueMain] at hs
  cases hq : s.thread q with
  | idle =>
    simp only [hq] at hs
    cases hp : (s.queue q).pending with
    | nil =>
      simp only [hp] at hs
      cases hs
    | cons w pending =>
      simp only [hp] at hs
      cases hs
      exact h.take hq hp
  | taken w =>
    simp only [hq] at hs
    cases hs
    refine h.setThread ?_ fun r => ?_
    · rw [hq]
      split <;> rfl
    · split <;> simp
  | clearing w n =>
    cases n with
    | succ ii =>
      simp only [hq] at hs
      cases hs
      refine h.clearEventRegistration.setThread ?_ fun _ => by simp
      rw [clearEventRegistration_thread, hq]
      rfl
    | zero =>
      simp only [hq] at hs
      cases hs
      exact h.setThread (by rw [hq]; rfl) fun _ => by simp
  | calling w =>
    simp only [hq] at hs
    cases hs
    exact h.dropOwnership hq
  | dropped r =>
    simp only [hq] at hs
    cases hs
    exact h.callRealHandler hq
  | handler w =>
    simp only [hq] at hs
    cases hs
    have hrun : Inv (setWork s w { s.work w with running := false }) := h.same (fun _ => Same.running) h.nodup rfl rfl
    exact hrun.setThread (by show _ = (s.thread q).work; rw [hq]; rfl) fun _ => by simp

/-! ## Runs -/

theorem Inv.step (h : Inv s) {a : Act W E Q C} (ho : Orderly s a) (hs : step s a = .ok s') : Inv s' := by
  cases a with
  | submit c w args =>
    simp only [WorkPoll.step] at hs
    split at hs
    · rename_i hc
      cases hs
      exact h.kWorkPollSubmitToQueue hc ho
    · cases hs
  | cancel c w =>
    simp only [WorkPoll.step] at hs
    split at hs
    · rename_i hc
      cases hs
      have hold : ∀ call, s.call c = some call → call.has = none := fun call hs => by cases hc.symm.trans hs
      unfold kWorkPollCancel
      split
      · exact h.endCall hold
      · refine h.setCall hold ?_
        rintro call ⟨⟩
        rfl
    · cases hs
  | callStep c ready current =>
    simp only [WorkPoll.step] at hs
    cases hc : s.call c with
    | none =>
      rw [hc] at hs
      cases hs
    | some call =>
      rw [hc] at hs
      cases hs
      exact h.callStep hc ho
  | signal event current =>
    simp only [WorkPoll.step] at hs
    cases hp : s.poller event with
    | none =>
      rw [hp] at hs
      cases hs
    | some w =>
      rw [hp] at hs
      cases hs
      exact (h.signalPoller (ho w hp)).poller
  | expire w =>
    simp only [WorkPoll.step] at hs
    split at hs
    · rename_i hc
      cases hs
      exact h.expire hc.1
    · cases hs
  | expirationHandler =>
    simp only [WorkPoll.step] at hs
    cases hf : s.firing with
    | none =>
      rw [hf] at hs
      cases hs
    | some w =>
      rw [hf] at hs
      cases hs
      exact h.triggeredWorkExpirationHandler hf
  | queueStep q => exact h.workQueueMain hs
  | setQueue q started draining plugged =>
    cases hs
    refine h.same (fun _ => Same.setQueue Iff.rfl) ?_ rfl rfl
    intro q'
    by_cases hq : q' = q
    · subst hq
      simpa using h.nodup q'
    · simpa [hq] using h.nodup q'

omit dW dE dQ dC in
theorem initial_inv : Inv (initial : System W E Q C) := by
  refine ⟨fun w => ⟨⟨none, ?_, .inl ⟨rfl, ⟨rfl, nofun⟩, nofun⟩⟩, ?_, nofun, nofun⟩, fun _ => nodup_nil, ?_⟩
  · intro x
    refine iff_of_false ?_ nofun
    cases x <;> simp [Holds, initial, Handling.work]
  · exact iff_of_false nofun fun ⟨q, hq⟩ => by cases hq
  · exact ⟨nodup_nil, nofun, nofun, nofun, nofun⟩

/-- Whatever is submitted, cancelled and signalled, a submission is executed once at most, with the result of what
triggered it, and not if it was cancelled, as long as nothing triggers or cancels it between the steps of its expiry. -/
theorem triggered_work_sound {acts : List (Act W E Q C)} (ho : Along step Orderly initial acts)
    {s : System W E Q C} (hs : run step initial acts = .ok s) : Sound s :=
  (run_inv (fun _ _ _ h ho hs => Inv.step h ho hs) initial_inv ho hs).sound

/-! ## One work, with two events -/

/-- It is submitted, and its events are registered. -/
def submitted : List (Act Unit (Fin 2) Unit Unit) :=
  .submit () () ⟨(), [0, 1], .ticks⟩ :: replicate 4 (.callStep () false none)

/-- The thread of the queue takes it and drops its ownership. -/
def dropped : List (Act Unit (Fin 2) Unit Unit) := replicate 6 (.queueStep ())

/-- The thread of the queue takes it and calls its handler. -/
def executed : List (Act Unit (Fin 2) Unit Unit) := dropped ++ [.queueStep ()]

/-- An event triggers it; its handler submits it again, and its timeout triggers it; it is cancelled in the end. -/
def orderly : List (Act Unit (Fin 2) Unit Unit) :=
  .setQueue () true false false :: submitted ++ [.signal 1 none] ++ executed ++ submitted ++
    [.expire (), .expirationHandler, .queueStep ()] ++ executed ++ submitted ++
    .cancel () () :: replicate 4 (.callStep () false none)

theorem triggered_work_sound_orderly : ∃ s, run step initial orderly = .ok s ∧
    s.runs = [⟨(), 2, false, true, -11⟩, ⟨(), 1, true, false, 0⟩] ∧ s.cancelled = [((), 3)] ∧ s.returned () = 0 ∧
    Sound s :=
  ⟨_, rfl, by decide, by decide, by decide, @triggered_work_sound Unit (Fin 2) Unit Unit _ _ _ _ orderly
    (by decide +kernel) _ rfl⟩

/-- Its timeout has left the timeout queue when an event triggers it, or when it is cancelled, and the handler
of the timeout submits it to its last queue. Or it is submitted again when its ownership is dropped, and its
handler, which an event has triggered, finds `-EINPROGRESS`. -/
theorem triggered_work_unsound :
    (∃ s, run step initial (.setQueue () true false false :: submitted ++ [.expire (), .signal 1 none] ++ executed ++
        [.queueStep (), .expirationHandler] ++ executed) = .ok s ∧
      s.runs = [⟨(), 1, true, true, -11⟩, ⟨(), 1, true, false, 0⟩] ∧ ¬ Sound s) ∧
    (∃ s, run step initial (.setQueue () true false false :: submitted ++ [.signal 1 none] ++ executed ++
        [.queueStep ()] ++ submitted ++ [.expire (), .cancel () ()] ++ replicate 4 (.callStep () false none) ++
        [.expirationHandler] ++ replicate 4 (.queueStep ())) = .ok s ∧
      s.returned () = 0 ∧ s.cancelled = [((), 2)] ∧
      s.runs = [⟨(), 2, false, true, -11⟩, ⟨(), 1, true, false, 0⟩] ∧ ¬ Sound s) ∧
    ∃ s, run step initial (.setQueue () true false false :: submitted ++ [.signal 1 none] ++ dropped ++
        [.submit () () ⟨(), [0, 1], .forever⟩, .callStep () false none, .queueStep ()]) = .ok s ∧
      s.runs = [⟨(), 1, true, false, -119⟩] ∧ ¬ Sound s := by
  refine ⟨⟨_, rfl, by decide, fun h => ?_⟩, ⟨_, rfl, by decide, by decide, by decide, fun h => ?_⟩, _, rfl, by decide,
    fun h => ?_⟩
  · exact absurd h.once (by decide)
  · exact h.cancelled ⟨(), 2, false, true, -11⟩ (by decide) (by decide)
  · exact absurd (h.byEvent ⟨(), 1, true, false, -119⟩ (by decide) rfl) (by decide)

end RtosKernel.Zephyr.WorkPoll
