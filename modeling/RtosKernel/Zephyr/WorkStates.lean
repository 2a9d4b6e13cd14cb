import Mathlib.Data.List.Nodup
import Mathlib.Logic.Relation
import RtosKernel.Zephyr.Work

/-! # States of work items and queues (`work.c`)

Every step is a few moves: a submission that is accepted, an item taken out of its queue, a flusher put
into one, a section of a queue thread. What holds in every state is proved for one move at a time. -/
namespace RtosKernel.Zephyr.Works
open Lib.Runs Relation Option

variable {I Q S T : Type} [dI : DecidableEq I] [dQ : DecidableEq Q] [dS : DecidableEq S] [dT : DecidableEq T]

/-! ## Moves -/

section Moves
variable (s : System I Q S T)

def accept (i : I) (q : Q) : System I Q S T :=
  (notifyQueueLocked (s.updateQueue q fun wq => { wq with pending := wq.pending ++ [.item i] }) q).update (.item i)
    fun w => { w with queued := true, queue := some q, accepted := w.accepted + 1 }

def remove (i : I) (q : Q) : System I Q S T :=
  (s.update (.item i) fun w => { w with queued := false }).updateQueue q fun wq =>
    { wq with pending := wq.pending.erase (.item i) }

def mark (i : I) : System I Q S T := s.update (.item i) fun w => { w with canceling := true }

def flushOn (f : S) (i : I) (q : Q) : System I Q S T :=
  (notifyQueueLocked (queueFlusherLocked s q i f) q).wait f (some (.flush i q (s.work (.item i)).accepted))

def cancelOn (f : S) (i : I) : System I Q S T :=
  { s with sem := Function.update s.sem f false, pendingCancels := s.pendingCancels ++ [(f, i)] }.wait f
    (some (.cancel i (s.work (.item i)).accepted))

/-- A thread waits on `drainq`. -/
def drainOn (t : T) (q : Q) (plug : Bool) : System I Q S T :=
  (notifyQueueLocked (s.updateQueue q fun wq => { wq with drain := true, plugged := wq.plugged || plug }) q).updateQueue q
    fun wq => { wq with drainq := wq.drainq ++ [t] }

def arm (i : I) (queue : Option Q) (delay : Delay) : System I Q S T :=
  zAddTimeout ((s.update (.item i) fun w => { w with delayed := true }).updateDelayable i fun d =>
    { d with queue := queue, promised := delay.promise s.clock }) i delay

def disarm (i : I) : System I Q S T := zAbortTimeout (s.update (.item i) fun w => { w with delayed := false }) i

def expire (i : I) : System I Q S T :=
  { s.update (.item i) fun w => { w with delayed := false } with
    inFlight := s.inFlight.erase i
    early := s.early || isEarly s.clock (s.dwork i).promised }

end Moves

def Event.caller : Event I Q S T → Caller Q
  | .submit c _ _ | .schedule c _ _ _ | .reschedule c _ _ _ | .flushDelayable c _ _ => c
  | _ => .other

def Event.cancels : Event I Q S T → Option I
  | .cancel i | .cancelDelayable i | .cancelSync _ i | .cancelDelayableSync _ i => some i
  | _ => none

/-- The item that an event may submit. -/
def Event.submits : Event I Q S T → Option I
  | .submit _ _ i | .schedule _ _ i _ | .reschedule _ _ i _ | .flushDelayable _ _ i | .timeout i => some i
  | _ => none

/-- The item whose delay a call may begin or end. -/
def Event.delays : Event I Q S T → Option I
  | .schedule _ _ i _ | .reschedule _ _ i _ | .cancelDelayable i | .cancelDelayableSync _ i | .flushDelayable _ _ i => some i
  | _ => none

/-- One effect of an event, with what the code has tested before it. -/
inductive Move (delayable : I → Bool) : Event I Q S T → System I Q S T → System I Q S T → Prop
  | accept {e s i q} (he : e.submits = some i) (hc : (s.work (.item i)).canceling = false) (hq : (s.work (.item i)).queued = false)
      (hr : (s.work (.item i)).running = true → (s.work (.item i)).queue = some q) (hs : (s.workq q).started = true)
      (hd : (s.workq q).drain = true → e.caller = .worker q)
      (hp : (s.workq q).plugged = true → (s.workq q).drain = true) : Move delayable e s (accept s i q)
  | remove {e s i q} (he : e.cancels = some i) (hc : (s.work (.item i)).canceling = false)
      (hq : (s.work (.item i)).queued = true) (hw : (s.work (.item i)).queue = some q) :
      Move delayable e s (remove s i q)
  | mark {e s i} (he : e.cancels = some i) (hr : (s.work (.item i)).running = true)
      (hq : (s.work (.item i)).queued = false) : Move delayable e s (mark s i)
  | flushOn {e s f i q} (hf : s.call f = none)
      (hb : (s.work (.item i)).queued = true ∨ (s.work (.item i)).running = true)
      (hw : (s.work (.item i)).queue = some q) : Move delayable e s (flushOn s f i q)
  | cancelOn {e s f i} (hf : s.call f = none) (hc : (s.work (.item i)).canceling = true) :
      Move delayable e s (cancelOn s f i)
  | resume {s f} (hf : s.call f ≠ none) (hs : s.sem f = true) : Move delayable (.resume f) s (resume s f)
  | drainOn {s t q plug} : Move delayable (.drain t q plug) s (drainOn s t q plug)
  | unplug {s q} : Move delayable (.unplug q) s (kWorkQueueUnplug s q)
  | take {s q} (hs : (s.workq q).started = true) (hp : (s.workq q).phase = .ready) :
      Move delayable (.take q) s (take s q)
  | handlerReturn {s q n} (hp : (s.workq q).phase = .handling n) :
      Move delayable (.handlerReturn q n) s (handlerReturn s q n)
  | finish {s q n} (hp : (s.workq q).phase = .returned n) : Move delayable (.finish q n) s (finish s q n)
  | arm {e s i queue delay} (he : e.delays = some i) (hd : delayable i = true) :
      Move delayable e s (arm s i queue delay)
  | disarm {e s i} (he : e.delays = some i) (hd : (s.work (.item i)).delayed = true) : Move delayable e s (disarm s i)
  | announce {s i} (ht : (s.dwork i).timeout ≠ none) : Move delayable (.announce i) s (announce s i)
  | expire {s i} (hd : (s.work (.item i)).delayed = true) : Move delayable (.timeout i) s (expire s i)
  | ignore {s i} (hd : (s.work (.item i)).delayed = false) :
      Move delayable (.timeout i) s { s with inFlight := s.inFlight.erase i }
  | tick {s} : Move delayable .tick s { s with clock := s.clock + 1 }

/-! ## What every move keeps -/

def Call.flushQueue : Call I Q → Option Q
  | .flush _ q _ => some q
  | .cancel .. => none

def Call.cancelItem : Call I Q → Option I
  | .flush .. => none
  | .cancel i _ => some i

/-- The flags of an item, against the lists and the queue threads. -/
structure ItemOk (delayable : I → Bool) (s : System I Q S T) (i : I) : Prop where
  pending : ∀ q, (s.workq q).pending.count (.item i) =
    if (s.work (.item i)).queued = true ∧ (s.work (.item i)).queue = some q then 1 else 0
  current : ∀ q, (s.workq q).phase.current = some (.item i) ↔
    (s.work (.item i)).running = true ∧ (s.work (.item i)).queue = some q
  queue : (s.work (.item i)).queued = true ∨ (s.work (.item i)).running = true → (s.work (.item i)).queue ≠ none
  canceling : (s.work (.item i)).canceling = true →
    (s.work (.item i)).running = true ∧ (s.work (.item i)).queued = false
  plain : delayable i = false → (s.work (.item i)).delayed = false

/-- A call waits for its flusher on a queue. -/
def Flushing (s : System I Q S T) (f : S) (q : Q) : Prop := (s.call f).bind Call.flushQueue = some q ∧ s.sem f = false

/-- A call waits for its canceller on an item. -/
def Cancelling (s : System I Q S T) (f : S) (i : I) : Prop := (s.call f).bind Call.cancelItem = some i ∧ s.sem f = false

instance (s : System I Q S T) (f : S) (q : Q) : Decidable (Flushing s f q) := inferInstanceAs (Decidable (_ ∧ _))

instance (s : System I Q S T) (f : S) (i : I) : Decidable (Cancelling s f i) := inferInstanceAs (Decidable (_ ∧ _))

structure SyncOk (s : System I Q S T) (f : S) : Prop where
  cancels : ∀ i, s.pendingCancels.count (f, i) = if Cancelling s f i then 1 else 0
  waits : ∀ i, Cancelling s f i → (s.work (.item i)).canceling = true
  flushers : ∀ q, (s.workq q).pending.count (.flusher f) +
    (if (s.workq q).phase = .handling (.flusher f) then 1 else 0) = if Flushing s f q then 1 else 0

structure QueueOk (s : System I Q S T) (q : Q) : Prop where
  asleep : (s.workq q).phase = .asleep → (s.workq q).pending = [] ∧ (s.workq q).drain = false
  busy : (s.workq q).busy = (s.workq q).phase.current.isSome
  drains : (s.workq q).drainq ≠ [] → (s.workq q).drain = true

structure Inv (delayable : I → Bool) (s : System I Q S T) : Prop where
  item : ∀ i, ItemOk delayable s i
  sync : ∀ f, SyncOk s f
  queue : ∀ q, QueueOk s q

variable {delayable : I → Bool} {s s' : System I Q S T} {e : Event I Q S T} {i j : I} {q q' : Q} {f : S}

/-! ## Fields -/

variable {n m : Node I S}

omit dQ dT in
@[simp] theorem update_work {g : Work Q → Work Q} :
    (s.update n g).work m = if m = n then g (s.work n) else s.work m := Function.update_apply ..

omit dQ dT in
@[simp] theorem update_rest {g : Work Q → Work Q} :
    (s.update n g).workq = s.workq ∧ (s.update n g).dwork = s.dwork ∧ (s.update n g).sem = s.sem ∧
      (s.update n g).call = s.call ∧ (s.update n g).pendingCancels = s.pendingCancels := ⟨rfl, rfl, rfl, rfl, rfl⟩

omit dQ dS dT in
@[simp] theorem updateDelayable_rest {g : Delayable Q → Delayable Q} :
    (s.updateDelayable i g).work = s.work ∧ (s.updateDelayable i g).workq = s.workq ∧
      (s.updateDelayable i g).sem = s.sem ∧ (s.updateDelayable i g).call = s.call ∧
      (s.updateDelayable i g).pendingCancels = s.pendingCancels := ⟨rfl, rfl, rfl, rfl, rfl⟩

omit dI dS dT in
@[simp] theorem updateQueue_workq {q q' : Q} {g : WorkQ I S T → WorkQ I S T} :
    (s.updateQueue q g).workq q' = if q' = q then g (s.workq q) else s.workq q' := Function.update_apply ..

omit dI dS dT in
@[simp] theorem updateQueue_rest {q : Q} {g : WorkQ I S T → WorkQ I S T} :
    (s.updateQueue q g).work = s.work ∧ (s.updateQueue q g).dwork = s.dwork ∧ (s.updateQueue q g).sem = s.sem ∧
      (s.updateQueue q g).call = s.call ∧ (s.updateQueue q g).pendingCancels = s.pendingCancels :=
  ⟨rfl, rfl, rfl, rfl, rfl⟩

section
omit dT

theorem notify_workq {q q' : Q} : (notifyQueueLocked s q).workq q' =
    if q' = q then { s.workq q with phase := if (s.workq q).phase = .asleep then .ready else (s.workq q).phase }
    else s.workq q' := updateQueue_workq

@[simp] theorem notify_rest {q : Q} :
    (notifyQueueLocked s q).work = s.work ∧ (notifyQueueLocked s q).dwork = s.dwork ∧
      (notifyQueueLocked s q).sem = s.sem ∧ (notifyQueueLocked s q).call = s.call ∧
      (notifyQueueLocked s q).pendingCancels = s.pendingCancels := updateQueue_rest

@[simp] theorem notify_queue {q q' : Q} :
    ((notifyQueueLocked s q).workq q').pending = (s.workq q').pending ∧
      ((notifyQueueLocked s q).workq q').started = (s.workq q').started ∧
      ((notifyQueueLocked s q).workq q').busy = (s.workq q').busy ∧
      ((notifyQueueLocked s q).workq q').drain = (s.workq q').drain ∧
      ((notifyQueueLocked s q).workq q').plugged = (s.workq q').plugged ∧
      ((notifyQueueLocked s q).workq q').drainq = (s.workq q').drainq := by
  rw [notify_workq]
  split
  · next h => exact h ▸ ⟨rfl, rfl, rfl, rfl, rfl, rfl⟩
  · exact ⟨rfl, rfl, rfl, rfl, rfl, rfl⟩

@[simp] theorem notify_current : ((notifyQueueLocked s q).workq q').phase.current = (s.workq q').phase.current := by
  rw [notify_workq]
  split
  · next h =>
    subst h
    split
    · next ha => rw [ha]; rfl
    · rfl
  · rfl

@[simp] theorem notify_handling :
    ((notifyQueueLocked s q).workq q').phase = .handling n ↔ (s.workq q').phase = .handling n := by
  rw [notify_workq]
  split
  · next h =>
    subst h
    split
    · next ha => simp [ha]
    · rfl
  · rfl

@[simp] theorem notify_returned :
    ((notifyQueueLocked s q).workq q').phase = .returned n ↔ (s.workq q').phase = .returned n := by
  rw [notify_workq]
  split
  · next h =>
    subst h
    split
    · next ha => simp [ha]
    · rfl
  · rfl

theorem notify_asleep {q q' : Q} (h : ((notifyQueueLocked s q).workq q').phase = .asleep) :
    q' ≠ q ∧ (s.workq q').phase = .asleep := by
  rw [notify_workq] at h
  split at h
  · split at h
    · cases h
    · contradiction
  · next hq => exact ⟨hq, h⟩

end

/-! ## Moves of an item -/

section
omit dT

theorem ItemOk.congr (h : ItemOk delayable s i) (hw : s'.work (.item i) = s.work (.item i))
    (hp : ∀ q, (s'.workq q).pending.count (.item i) = (s.workq q).pending.count (.item i))
    (hc : ∀ q, (s'.workq q).phase.current = some (.item i) ↔ (s.workq q).phase.current = some (.item i)) :
    ItemOk delayable s' i := by
  refine ⟨fun q => ?_, fun q => ?_, ?_, ?_, ?_⟩
  · rw [hp, hw]
    exact h.pending q
  · rw [hc, hw]
    exact h.current q
  · rw [hw]
    exact h.queue
  · rw [hw]
    exact h.canceling
  · rw [hw]
    exact h.plain

theorem ItemOk.of_mem (h : ItemOk delayable s i) (hm : .item i ∈ (s.workq q).pending) :
    (s.work (.item i)).queued = true ∧ (s.work (.item i)).queue = some q := by
  by_contra hno
  exact List.count_eq_zero.mp ((h.pending q).trans (if_neg hno)) hm

theorem ItemOk.accept (h : ItemOk delayable s j) (hi : ItemOk delayable s i)
    (hc : (s.work (.item i)).canceling = false) (hq : (s.work (.item i)).queued = false)
    (hr : (s.work (.item i)).running = true → (s.work (.item i)).queue = some q) :
    ItemOk delayable (accept s i q) j := by
  by_cases hj : j = i
  · subst hj
    refine ⟨fun q' => ?_, fun q' => ?_, ?_, ?_, ?_⟩
    · have hp := h.pending q'
      by_cases hqq : q' = q
      · subst hqq
        simp [Works.accept, hp, hq]
      · simp [Works.accept, hqq, hp, hq, Ne.symm hqq]
    · have hp := h.current q'
      by_cases hqq : q' = q <;> simp [Works.accept, hqq] <;> grind
    · simp [Works.accept]
    · simp [Works.accept, hc]
    · simpa [Works.accept] using h.plain
  · refine h.congr ?_ (fun q' => ?_) fun q' => ?_
    · simp [Works.accept, hj]
    · by_cases hqq : q' = q <;> simp [Works.accept, hqq, Ne.symm hj]
    · by_cases hqq : q' = q <;> simp [Works.accept, hqq]

theorem ItemOk.remove (h : ItemOk delayable s j) (hi : ItemOk delayable s i)
    (hc : (s.work (.item i)).canceling = false) (hq : (s.work (.item i)).queued = true)
    (hw : (s.work (.item i)).queue = some q) : ItemOk delayable (remove s i q) j := by
  by_cases hj : j = i
  · subst hj
    refine ⟨fun q' => ?_, fun q' => ?_, ?_, ?_, ?_⟩
    · have hp := h.pending q'
      by_cases hqq : q' = q
      · subst hqq
        simp [Works.remove, List.count_erase_self, hp, hq, hw]
      · simp [Works.remove, hqq, hp, hq, hw, Ne.symm hqq]
    · have hp := h.current q'
      by_cases hqq : q' = q <;> simp [Works.remove, hqq] <;> grind
    · simp [Works.remove, hw]
    · simp [Works.remove, hc]
    · simpa [Works.remove] using h.plain
  · refine h.congr ?_ (fun q' => ?_) fun q' => ?_
    · simp [Works.remove, hj]
    · by_cases hqq : q' = q
      · simp [Works.remove, hqq, List.count_erase_of_ne (show Node.item j ≠ Node.item i by simpa using hj)]
      · simp [Works.remove, hqq]
    · by_cases hqq : q' = q <;> simp [Works.remove, hqq]

theorem ItemOk.mark (h : ItemOk delayable s j) (hr : (s.work (.item i)).running = true)
    (hq : (s.work (.item i)).queued = false) : ItemOk delayable (mark s i) j := by
  by_cases hj : j = i
  · subst hj
    refine ⟨fun q' => ?_, fun q' => ?_, ?_, ?_, ?_⟩
    · simpa [Works.mark] using h.pending q'
    · simpa [Works.mark] using h.current q'
    · simpa [Works.mark] using h.queue
    · simp [Works.mark, hr, hq]
    · simpa [Works.mark] using h.plain
  · exact h.congr (by simp [Works.mark, hj]) (fun _ => rfl) fun _ => Iff.rfl

end

theorem count_insertAfter {prev n m : Node I S} {l : List (Node I S)} (h : prev ∈ l) :
    (insertAfter prev n l).count m = l.count m + if n = m then 1 else 0 := by
  induction l with
  | nil => cases h
  | cons x l ih =>
    rw [insertAfter]
    split
    · simp only [List.count_cons, beq_iff_eq]
      omega
    · next hx =>
      simp only [List.count_cons, ih ((List.mem_cons.mp h).resolve_left fun he => hx he.symm)]
      omega

section
omit dT

theorem queueFlusher_count : ((queueFlusherLocked s q i f).workq q').pending.count n =
    (s.workq q').pending.count n + if q' = q ∧ Node.flusher f = n then 1 else 0 := by
  by_cases hq : q' = q
  · subst hq
    simp only [queueFlusherLocked, Function.update_self, true_and]
    split
    · next hm => exact count_insertAfter hm
    · simp [List.count_cons]
  · simp [queueFlusherLocked, hq]

theorem queueFlusher_phase : ((queueFlusherLocked s q i f).workq q').phase = (s.workq q').phase := by
  by_cases hq : q' = q
  · subst hq
    simp [queueFlusherLocked]
  · simp [queueFlusherLocked, hq]

theorem queueFlusher_sem : (queueFlusherLocked s q i f).sem f = false := by
  simp [queueFlusherLocked]

theorem ItemOk.flushOn (h : ItemOk delayable s j) : ItemOk delayable (flushOn s f i q) j := by
  refine h.congr ?_ (fun q' => ?_) fun q' => ?_
  · simp [Works.flushOn, System.wait, queueFlusherLocked]
  · simp [Works.flushOn, System.wait, queueFlusher_count]
  · simp [Works.flushOn, System.wait, queueFlusher_phase]

theorem ItemOk.drainOn {t : T} {plug : Bool} (h : ItemOk delayable s j) : ItemOk delayable (drainOn s t q plug) j := by
  refine h.congr rfl (fun q' => ?_) fun q' => ?_
  · by_cases hq : q' = q <;> simp [Works.drainOn, hq]
  · by_cases hq : q' = q <;> simp [Works.drainOn, hq]

theorem ItemOk.unplug (h : ItemOk delayable s j) : ItemOk delayable (kWorkQueueUnplug s q) j := by
  refine h.congr rfl (fun q' => ?_) fun q' => ?_
  · by_cases hq : q' = q <;> simp [kWorkQueueUnplug, hq]
  · by_cases hq : q' = q <;> simp [kWorkQueueUnplug, hq]

theorem take_nil (hp : (s.workq q).pending = []) : take s q = s.updateQueue q fun wq =>
    { wq with drain := false, drainq := if wq.drain then [] else wq.drainq, phase := .asleep } := by
  rw [take, hp]

theorem take_cons {l : List (Node I S)} (hp : (s.workq q).pending = n :: l) : take s q =
    (s.updateQueue q fun wq => { wq with pending := l, busy := true, phase := .handling n }).update n
      fun w => { w with running := true, queued := false, serial := w.accepted } := by
  rw [take, hp]

theorem ItemOk.take (h : ItemOk delayable s j) (hp : (s.workq q).phase = .ready) : ItemOk delayable (take s q) j := by
  cases hl : (s.workq q).pending with
  | nil =>
    rw [take_nil hl]
    refine h.congr rfl (fun q' => ?_) fun q' => ?_
    · by_cases hq : q' = q <;> simp [hq]
    · by_cases hq : q' = q <;> simp [hq, hp, Phase.current]
  | cons n l =>
    rw [take_cons hl]
    have hn := h.pending q
    rw [hl] at hn
    by_cases hj : n = .item j
    · subst hj
      have hq := h.of_mem (hl ▸ List.mem_cons_self)
      rw [if_pos hq] at hn
      have hcount : l.count (.item j) = 0 := by simpa using hn
      refine ⟨fun q' => ?_, fun q' => ?_, ?_, fun hc => ?_, ?_⟩
      · have hp' := h.pending q'
        by_cases hqq : q' = q
        · simp [hqq, hcount]
        · simp [hqq, hp', hq.2, Ne.symm hqq]
      · have hc := h.current q'
        by_cases hqq : q' = q
        · simp [hqq, Phase.current, hq.2]
        · simp [hqq, hc, hq.2, Ne.symm hqq]
      · simp [hq.2]
      · have hq' := (h.canceling (by simpa using hc)).2
        rw [hq.1] at hq'
        cases hq'
      · simpa using h.plain
    · refine h.congr ?_ (fun q' => ?_) fun q' => ?_
      · simp [Ne.symm hj]
      · by_cases hq : q' = q
        · simp [hq, hl, hj]
        · simp [hq]
      · by_cases hq : q' = q
        · simp [hq, hp, Phase.current, hj]
        · simp [hq]

theorem ItemOk.handlerReturn (h : ItemOk delayable s j) (hp : (s.workq q).phase = .handling n) :
    ItemOk delayable (handlerReturn s q n) j := by
  have hs : ItemOk delayable (s.updateQueue q fun wq => { wq with phase := .returned n }) j := by
    refine h.congr rfl (fun q' => ?_) fun q' => ?_
    · by_cases hq : q' = q <;> simp [hq]
    · by_cases hq : q' = q <;> simp [hq, hp, Phase.current]
  cases n with
  | item i => exact hs
  | flusher f => exact hs.congr rfl (fun _ => rfl) fun _ => Iff.rfl

theorem finish_work : (finish s q n).work m =
    if m = n then { s.work n with running := false, canceling := false } else s.work m := by
  unfold finish
  by_cases hm : m = n
  · subst hm
    cases hc : (s.work m).canceling <;> simp [finalizeCancelLocked, hc]
  · cases hc : (s.work n).canceling <;> simp [finalizeCancelLocked, hc, hm]

theorem finish_workq : (finish s q n).workq q' =
    if q' = q then { s.workq q with busy := false, phase := .ready } else s.workq q' := by
  unfold finish
  cases hc : (s.work n).canceling <;> simp [finalizeCancelLocked, hc]

theorem ItemOk.finish (h : ItemOk delayable s j) (hp : (s.workq q).phase = .returned n) :
    ItemOk delayable (finish s q n) j := by
  by_cases hj : n = .item j
  · subst hj
    have hr := (h.current q).mp (by rw [hp]; rfl)
    refine ⟨fun q' => ?_, fun q' => ?_, ?_, ?_, ?_⟩
    · have hp' := h.pending q'
      by_cases hqq : q' = q
      · subst hqq
        simpa [finish_work, finish_workq] using hp'
      · simpa [finish_work, finish_workq, hqq] using hp'
    · have hc := h.current q'
      by_cases hqq : q' = q
      · simp [finish_work, finish_workq, hqq, Phase.current]
      · simp [finish_work, finish_workq, hqq, hc, hr.2, Ne.symm hqq]
    · simpa [finish_work] using fun _ => by simp [hr.2]
    · simp [finish_work]
    · simpa [finish_work] using h.plain
  · refine h.congr ?_ (fun q' => ?_) fun q' => ?_
    · simp [finish_work, Ne.symm hj]
    · by_cases hq : q' = q <;> simp [finish_workq, hq]
    · by_cases hq : q' = q
      · simp [finish_workq, hq, hp, Phase.current, hj]
      · simp [finish_workq, hq]

theorem ItemOk.delay (h : ItemOk delayable s j) (hw : ∀ n, n ≠ .item i → s'.work n = s.work n) {b : Bool}
    (hi : s'.work (.item i) = { s.work (.item i) with delayed := b }) (hb : b = true → delayable i = true)
    (hq : s'.workq = s.workq) : ItemOk delayable s' j := by
  by_cases hj : j = i
  · subst hj
    refine ⟨?_, ?_, ?_, ?_, fun hd => ?_⟩
    · simpa [hi, hq] using h.pending
    · simpa [hi, hq] using h.current
    · simpa [hi] using h.queue
    · simpa [hi] using h.canceling
    · rw [hi]
      cases b with
      | false => rfl
      | true => rw [hb rfl] at hd; cases hd
  · exact h.congr (hw _ (by simpa using hj)) (fun q => by rw [hq]) fun q => by rw [hq]

end

/-! ## Moves of a call -/

omit dT in
theorem SyncOk.congr (h : SyncOk s f) (hc : s'.call f = s.call f) (hs : s'.sem f = s.sem f)
    (hpc : ∀ i, s'.pendingCancels.count (f, i) = s.pendingCancels.count (f, i))
    (hw : ∀ i, Cancelling s f i → (s.work (.item i)).canceling = true → (s'.work (.item i)).canceling = true)
    (hp : ∀ q, (s'.workq q).pending.count (.flusher f) = (s.workq q).pending.count (.flusher f))
    (hh : ∀ q, (s'.workq q).phase = .handling (.flusher f) ↔ (s.workq q).phase = .handling (.flusher f)) :
    SyncOk s' f := by
  have hca : ∀ i, Cancelling s' f i ↔ Cancelling s f i := fun i => by rw [Cancelling, Cancelling, hc, hs]
  have hfl : ∀ q, Flushing s' f q ↔ Flushing s f q := fun q => by rw [Flushing, Flushing, hc, hs]
  refine ⟨fun i => ?_, fun i hi => ?_, fun q => ?_⟩
  · simp only [hpc, hca, h.cancels]
  · exact hw i ((hca i).mp hi) (h.waits i ((hca i).mp hi))
  · simp only [hp, hh, hfl, h.flushers]

omit dT in
theorem SyncOk.quiet (h : SyncOk s f) (hc : s'.call = s.call) (hs : s'.sem = s.sem)
    (hpc : s'.pendingCancels = s.pendingCancels)
    (hw : ∀ i, (s.work (.item i)).canceling = true → (s'.work (.item i)).canceling = true)
    (hp : ∀ q, (s'.workq q).pending.count (.flusher f) = (s.workq q).pending.count (.flusher f))
    (hh : ∀ q, (s'.workq q).phase = .handling (.flusher f) ↔ (s.workq q).phase = .handling (.flusher f)) :
    SyncOk s' f :=
  h.congr (by rw [hc]) (by rw [hs]) (fun i => by rw [hpc]) (fun i _ => hw i) hp hh

omit dI dQ dS dT in
theorem Cancelling.not_flushing (h : Cancelling s f i) : ¬Flushing s f q := fun hf => by
  cases hc : s.call f with
  | none => simp [Cancelling, hc] at h
  | some c => cases c <;> simp [Flushing, Cancelling, Call.flushQueue, Call.cancelItem, hc] at hf h

section
omit dT

theorem SyncOk.flushing (h : SyncOk s f) (hp : (s.workq q).phase = .handling (.flusher f)) : Flushing s f q := by
  by_contra hno
  have hq := (h.flushers q).trans (if_neg hno)
  rw [if_pos hp] at hq
  omega

theorem SyncOk.no_flusher (h : SyncOk s f) (hf : ¬Flushing s f q) : (s.workq q).pending.count (.flusher f) = 0 ∧
    (s.workq q).phase ≠ .handling (.flusher f) := by
  have hq := (h.flushers q).trans (if_neg hf)
  exact ⟨by omega, fun hp => hf (h.flushing hp)⟩

theorem SyncOk.absent (h : SyncOk s f) (hf : s.call f = none ∨ s.sem f = true) :
    (∀ i, s.pendingCancels.count (f, i) = 0) ∧ ∀ q, (s.workq q).pending.count (.flusher f) = 0 ∧
      (s.workq q).phase ≠ .handling (.flusher f) := by
  refine ⟨fun i => (h.cancels i).trans (if_neg fun hc => ?_), fun q => h.no_flusher fun hq => ?_⟩
  · rcases hf with hf | hf <;> simp [Cancelling, hf] at hc
  · rcases hf with hf | hf <;> simp [Flushing, hf] at hq

theorem SyncOk.of_absent (hc : ∀ i, ¬Cancelling s f i) (hf : ∀ q, ¬Flushing s f q)
    (hpc : ∀ i, s.pendingCancels.count (f, i) = 0) (hp : ∀ q, (s.workq q).pending.count (.flusher f) = 0)
    (hh : ∀ q, (s.workq q).phase ≠ .handling (.flusher f)) : SyncOk s f := by
  refine ⟨fun i => ?_, fun i hi => absurd hi (hc i), fun q => ?_⟩
  · rw [hpc, if_neg (hc i)]
  · rw [hp, if_neg (hh q), if_neg (hf q)]

end

section
variable (h : SyncOk s f)
include h
omit dT

theorem SyncOk.accept : SyncOk (accept s i q) f := by
  refine h.quiet rfl rfl rfl (fun j hj => ?_) (fun q' => ?_) fun q' => ?_
  · by_cases hji : j = i
    · subst hji
      simpa [Works.accept] using hj
    · simpa [Works.accept, hji] using hj
  · by_cases hq : q' = q <;> simp [Works.accept, hq]
  · by_cases hq : q' = q <;> simp [Works.accept, hq]

theorem SyncOk.remove : SyncOk (remove s i q) f := by
  refine h.quiet rfl rfl rfl (fun j hj => ?_) (fun q' => ?_) fun q' => ?_
  · by_cases hji : j = i
    · subst hji
      simpa [Works.remove] using hj
    · simpa [Works.remove, hji] using hj
  · by_cases hq : q' = q
    · simp [Works.remove, hq, List.count_erase_of_ne (show Node.flusher f ≠ Node.item i from nofun)]
    · simp [Works.remove, hq]
  · by_cases hq : q' = q <;> simp [Works.remove, hq]

theorem SyncOk.mark : SyncOk (mark s i) f := by
  refine h.quiet rfl rfl rfl (fun j hj => ?_) (fun _ => rfl) fun _ => Iff.rfl
  by_cases hji : j = i
  · simp [Works.mark, hji]
  · simpa [Works.mark, hji] using hj

theorem SyncOk.flushOn {f' : S} (hf : s.call f' = none) : SyncOk (flushOn s f' i q) f := by
  by_cases hff : f = f'
  · subst hff
    obtain ⟨hpc, hp⟩ := h.absent (.inl hf)
    have hno : ∀ j, ¬Cancelling (Works.flushOn s f i q) f j := fun j hj => by
      simp [Works.flushOn, System.wait, Cancelling, Call.cancelItem] at hj
    refine ⟨fun j => ?_, fun j hj => absurd hj (hno j), fun q' => ?_⟩
    · rw [if_neg (hno j)]
      exact hpc j
    · simp [Works.flushOn, System.wait, Flushing, queueFlusher_count, queueFlusher_phase, queueFlusher_sem, hp,
        Call.flushQueue, @eq_comm _ q]
  · refine h.congr ?_ ?_ (fun _ => rfl) (fun j _ hj => ?_) (fun q' => ?_) fun q' => ?_
    · simp [Works.flushOn, System.wait, hff, queueFlusherLocked]
    · simp [Works.flushOn, System.wait, hff, queueFlusherLocked]
    · simpa [Works.flushOn, System.wait, queueFlusherLocked] using hj
    · simp [Works.flushOn, System.wait, queueFlusher_count, Ne.symm hff]
    · simp [Works.flushOn, System.wait, queueFlusher_phase]

theorem SyncOk.cancelOn {f' : S} (hf : s.call f' = none)
    (hc : (s.work (.item i)).canceling = true) : SyncOk (cancelOn s f' i) f := by
  by_cases hff : f = f'
  · subst hff
    obtain ⟨hpc, hp⟩ := h.absent (.inl hf)
    have hno : ∀ q', ¬Flushing (Works.cancelOn s f i) f q' := fun q' hj => by
      simp [Works.cancelOn, System.wait, Flushing, Call.flushQueue] at hj
    refine ⟨fun j => ?_, fun j hj => ?_, fun q' => ?_⟩
    · simp [Works.cancelOn, System.wait, Cancelling, Call.cancelItem, hpc, List.count_singleton]
    · have hj' : i = j := by simpa [Works.cancelOn, System.wait, Cancelling, Call.cancelItem] using hj
      exact hj' ▸ hc
    · rw [if_neg (hno q'), if_neg (show ¬((Works.cancelOn s f i).workq q').phase = .handling (.flusher f) from (hp q').2)]
      exact (hp q').1
  · refine h.congr ?_ ?_ (fun j => ?_) (fun _ _ => id) (fun _ => rfl) fun _ => Iff.rfl
    · simp [Works.cancelOn, System.wait, hff]
    · simp [Works.cancelOn, System.wait, hff]
    · simp [Works.cancelOn, System.wait, Ne.symm hff]

theorem SyncOk.resume {f' : S} (hs : s.sem f' = true) : SyncOk (resume s f') f := by
  by_cases hff : f = f'
  · subst hff
    obtain ⟨hpc, hp⟩ := h.absent (.inr hs)
    exact .of_absent (fun j hj => by simp [Works.resume, Cancelling] at hj)
      (fun q' hj => by simp [Works.resume, Flushing] at hj) hpc (fun q' => (hp q').1) fun q' => (hp q').2
  · refine h.congr ?_ ?_ (fun j => rfl) (fun _ _ => id) (fun _ => rfl) fun _ => Iff.rfl
    · simp [Works.resume, hff]
    · simp [Works.resume, hff]

theorem SyncOk.drainOn {t : T} {plug : Bool} : SyncOk (drainOn s t q plug) f := by
  refine h.quiet rfl rfl rfl (fun _ => id) (fun q' => ?_) fun q' => ?_
  · by_cases hq : q' = q <;> simp [Works.drainOn, hq]
  · by_cases hq : q' = q <;> simp [Works.drainOn, hq]

theorem SyncOk.unplug : SyncOk (kWorkQueueUnplug s q) f := by
  refine h.quiet rfl rfl rfl (fun _ => id) (fun q' => ?_) fun q' => ?_
  · by_cases hq : q' = q <;> simp [kWorkQueueUnplug, hq]
  · by_cases hq : q' = q <;> simp [kWorkQueueUnplug, hq]

theorem SyncOk.take (hp : (s.workq q).phase = .ready) : SyncOk (take s q) f := by
  cases hl : (s.workq q).pending with
  | nil =>
    rw [take_nil hl]
    refine h.quiet rfl rfl rfl (fun _ => id) (fun q' => ?_) fun q' => ?_
    · by_cases hq : q' = q <;> simp [hq]
    · by_cases hq : q' = q <;> simp [hq, hp]
  | cons n l =>
    rw [take_cons hl]
    by_cases hn : n = .flusher f
    · -- the flusher is taken
      subst hn
      refine ⟨h.cancels, fun j hj => by simpa using h.waits j hj, fun q' => ?_⟩
      have hcount := h.flushers q'
      change _ = if Flushing s f q' then 1 else 0
      rw [← hcount]
      by_cases hq : q' = q
      · subst hq
        simp [hl, hp]
      · simp [hq]
    · refine h.quiet rfl rfl rfl (fun j hj => ?_) (fun q' => ?_) fun q' => ?_
      · by_cases hj' : Node.item j = n
        · subst hj'
          simpa using hj
        · simpa [hj'] using hj
      · by_cases hq : q' = q
        · simp [hq, hl, hn]
        · simp [hq]
      · by_cases hq : q' = q
        · simp [hq, hp, hn]
        · simp [hq]

theorem SyncOk.handlerReturn (hp : (s.workq q).phase = .handling n) : SyncOk (handlerReturn s q n) f := by
  by_cases hn : n = .flusher f
  · -- `handle_flush` releases the call
    subst hn
    have hq := h.flushers q
    have hfl := h.flushing hp
    rw [if_pos hp, if_pos hfl] at hq
    have hno : ∀ j, ¬Cancelling s f j := fun j hj => hj.not_flushing hfl
    have hno' : ∀ q', q' ≠ q → ¬Flushing s f q' := fun q' hqq hf => hqq (some.inj (hf.1.symm.trans hfl.1))
    refine .of_absent (fun j hj => ?_) (fun q' hj => ?_) (fun j => (h.cancels j).trans (if_neg (hno j))) (fun q' => ?_)
      fun q' => ?_
    · simp [Works.handlerReturn, Cancelling] at hj
    · simp [Works.handlerReturn, Flushing] at hj
    · by_cases hqq : q' = q
      · subst hqq
        have h0 : (s.workq q').pending.count (.flusher f) = 0 := by omega
        simpa [Works.handlerReturn] using h0
      · simpa [Works.handlerReturn, hqq] using (h.no_flusher (hno' q' hqq)).1
    · by_cases hqq : q' = q
      · simp [Works.handlerReturn, hqq]
      · simpa [Works.handlerReturn, hqq] using (h.no_flusher (hno' q' hqq)).2
  · have hs : SyncOk (s.updateQueue q fun wq => { wq with phase := .returned n }) f := by
      refine h.quiet rfl rfl rfl (fun _ => id) (fun q' => ?_) fun q' => ?_
      · by_cases hq : q' = q <;> simp [hq]
      · by_cases hq : q' = q
        · simp [hq, hp, hn]
        · simp [hq]
    cases n with
    | item i => exact hs
    | flusher f' =>
      have hff : f ≠ f' := fun he => hn (he ▸ rfl)
      exact hs.congr rfl (by simp [Works.handlerReturn, hff]) (fun _ => rfl) (fun _ _ => id) (fun _ => rfl)
        fun _ => Iff.rfl

end

section
omit dT

theorem finish_cancels : (finish s q n).pendingCancels =
    if (s.work n).canceling then s.pendingCancels.filter fun wc => .item wc.2 ≠ n else s.pendingCancels := by
  unfold finish
  cases hc : (s.work n).canceling <;> simp [finalizeCancelLocked, hc]

theorem finish_sem : (finish s q n).sem =
    if (s.work n).canceling then giveAll (s.pendingCancels.filter fun wc => .item wc.2 = n) s.sem else s.sem := by
  unfold finish
  cases hc : (s.work n).canceling <;> simp [finalizeCancelLocked, hc]

theorem finish_call : (finish s q n).call = s.call := by
  unfold finish
  cases hc : (s.work n).canceling <;> simp [finalizeCancelLocked, hc]

theorem giveAll_eq (h : SyncOk s f) (hn : ∀ i, n = .item i → ¬Cancelling s f i) :
    giveAll (s.pendingCancels.filter fun wc => .item wc.2 = n) s.sem f = s.sem f := by
  have hno : ((s.pendingCancels.filter fun wc => .item wc.2 = n).any fun wc => decide (wc.1 = f)) = false := by
    rw [List.any_eq_false]
    rintro ⟨f', i⟩ hm hf
    obtain ⟨hm, hi⟩ := List.mem_filter.mp hm
    have hf' : f' = f := of_decide_eq_true hf
    have hcount := h.cancels i
    rw [if_neg (hn i (of_decide_eq_true hi).symm)] at hcount
    exact List.count_eq_zero.mp hcount (hf' ▸ hm)
  rw [giveAll, hno, Bool.or_false]

theorem SyncOk.finish (h : SyncOk s f) (hp : (s.workq q).phase = .returned n) : SyncOk (finish s q n) f := by
  have hpend : ∀ q', ((Works.finish s q n).workq q').pending.count (.flusher f) =
      (s.workq q').pending.count (.flusher f) := fun q' => by
    by_cases hq : q' = q <;> simp [finish_workq, hq]
  have hhand : ∀ q', ((Works.finish s q n).workq q').phase = .handling (.flusher f) ↔
      (s.workq q').phase = .handling (.flusher f) := fun q' => by
    by_cases hq : q' = q
    · simp [finish_workq, hq, hp]
    · simp [finish_workq, hq]
  by_cases hi : ∃ i, n = .item i ∧ Cancelling s f i
  · -- the canceller of the call is released
    obtain ⟨i, rfl, hi⟩ := hi
    have hc := h.waits i hi
    have hcount := h.cancels i
    rw [if_pos hi] at hcount
    have hm : (f, i) ∈ s.pendingCancels := List.count_pos_iff.mp (by omega)
    have hsem : (Works.finish s q (.item i)).sem f = true := by
      rw [finish_sem, if_pos hc, giveAll, Bool.or_eq_true, List.any_eq_true]
      exact Or.inr ⟨(f, i), List.mem_filter.mpr ⟨hm, by simp⟩, by simp⟩
    have habs := fun q' => h.no_flusher (hi.not_flushing (q := q'))
    refine .of_absent (fun j hj => ?_) (fun q' hq => ?_) (fun j => ?_) (fun q' => (hpend q').trans (habs q').1)
      fun q' hq => (habs q').2 ((hhand q').mp hq)
    · rw [Cancelling, hsem] at hj
      exact absurd hj.2 (by simp)
    · rw [Flushing, hsem] at hq
      exact absurd hq.2 (by simp)
    · rw [finish_cancels, if_pos hc]
      by_cases hji : j = i
      · subst hji
        rw [List.count_eq_zero]
        simp
      · have hj : ¬Cancelling s f j := fun hj => hji (some.inj (hj.1.symm.trans hi.1))
        have h0 := (h.cancels j).trans (if_neg hj)
        have hle := (List.filter_sublist (p := fun wc : S × I => decide (Node.item wc.2 ≠ Node.item (S := S) i))
          (l := s.pendingCancels)).count_le (f, j)
        omega
  · have hn : ∀ i, n = .item i → ¬Cancelling s f i := fun i hni hc => hi ⟨i, hni, hc⟩
    refine h.congr (by rw [finish_call]) ?_ (fun j => ?_) (fun j hj hc => ?_) hpend hhand
    · rw [finish_sem]
      split
      · exact giveAll_eq h hn
      · rfl
    · rw [finish_cancels]
      split
      · by_cases hj : n = .item j
        · rw [h.cancels, if_neg (hn j hj), List.count_eq_zero]
          simp [hj]
        · exact List.count_filter (by simpa using Ne.symm hj)
      · rfl
    · rw [finish_work, if_neg (fun he : Node.item j = n => hn j he.symm hj)]
      exact hc

theorem SyncOk.delay (h : SyncOk s f) (hw : ∀ n, (s'.work n).canceling = (s.work n).canceling)
    (hq : s'.workq = s.workq) (hc : s'.call = s.call) (hs : s'.sem = s.sem)
    (hpc : s'.pendingCancels = s.pendingCancels) : SyncOk s' f :=
  h.quiet hc hs hpc (fun i hi => (hw _).trans hi) (fun q => by rw [hq]) fun q => by rw [hq]

end

/-! ## Moves of a queue -/

omit dI dQ dS dT in
theorem QueueOk.congr (h : QueueOk s q) (hq : s'.workq q = s.workq q) : QueueOk s' q := by
  refine ⟨?_, ?_, ?_⟩
  · rw [hq]
    exact h.asleep
  · rw [hq]
    exact h.busy
  · rw [hq]
    exact h.drains

omit dT in
theorem QueueOk.notify (h : QueueOk s' q) : QueueOk (notifyQueueLocked s' q') q :=
  ⟨fun ha => by simpa using h.asleep (notify_asleep ha).2, by simpa using h.busy, by simpa using h.drains⟩

omit dT in
theorem QueueOk.notifyAdded (hb : (s'.workq q).busy = (s'.workq q).phase.current.isSome)
    (hd : (s'.workq q).drainq ≠ [] → (s'.workq q).drain = true) : QueueOk (notifyQueueLocked s' q) q :=
  ⟨fun ha => absurd rfl (notify_asleep ha).1, by simpa using hb, by simpa using hd⟩

section
variable (h : QueueOk s q')
include h

section
omit dT

theorem QueueOk.accept : QueueOk (accept s i q) q' := by
  by_cases hq : q' = q
  · subst hq
    exact (QueueOk.notifyAdded (by simpa using h.busy) (by simpa using h.drains)).congr rfl
  · exact (h.congr (by simp [hq])).notify.congr rfl

theorem QueueOk.remove : QueueOk (remove s i q) q' := by
  by_cases hq : q' = q
  · subst hq
    refine ⟨fun ha => ?_, by simpa [Works.remove] using h.busy, by simpa [Works.remove] using h.drains⟩
    obtain ⟨hp, hd⟩ := h.asleep (by simpa [Works.remove] using ha)
    simp [Works.remove, hp, hd]
  · exact h.congr (by simp [Works.remove, hq])

theorem QueueOk.flushOn : QueueOk (flushOn s f i q) q' := by
  by_cases hq : q' = q
  · subst hq
    have hs : QueueOk (notifyQueueLocked (queueFlusherLocked s q' i f) q') q' := by
      refine .notifyAdded ?_ ?_
      · simpa [queueFlusherLocked] using h.busy
      · simpa [queueFlusherLocked] using h.drains
    exact hs.congr rfl
  · have hs : QueueOk (queueFlusherLocked s q i f) q' := h.congr (by simp [queueFlusherLocked, hq])
    exact hs.notify.congr rfl

theorem QueueOk.drainOn {t : T} {plug : Bool} : QueueOk (drainOn s t q plug) q' := by
  by_cases hq : q' = q
  · subst hq
    refine ⟨fun ha => ?_, ?_, ?_⟩
    · exact absurd rfl (notify_asleep (by simpa [Works.drainOn] using ha)).1
    · simpa [Works.drainOn] using h.busy
    · simp [Works.drainOn]
  · have hs : QueueOk (notifyQueueLocked (s.updateQueue q fun wq =>
        { wq with drain := true, plugged := wq.plugged || plug }) q) q' := (h.congr (by simp [hq])).notify
    exact hs.congr (by simp [Works.drainOn, hq])

end

omit dI dS dT in
theorem QueueOk.unplug : QueueOk (kWorkQueueUnplug s q) q' := by
  by_cases hq : q' = q
  · subst hq
    exact ⟨by simpa [kWorkQueueUnplug] using h.asleep, by simpa [kWorkQueueUnplug] using h.busy,
      by simpa [kWorkQueueUnplug] using h.drains⟩
  · exact h.congr (by simp [kWorkQueueUnplug, hq])

omit dT in
theorem QueueOk.take (hp : (s.workq q).phase = .ready) : QueueOk (take s q) q' := by
  cases hl : (s.workq q).pending with
  | nil =>
    rw [take_nil hl]
    by_cases hq : q' = q
    · subst hq
      have hb := h.busy
      rw [hp] at hb
      refine ⟨fun _ => by simp [hl], by simpa [Phase.current] using hb, fun hd => ?_⟩
      cases hdr : (s.workq q').drain with
      | true => simp [hdr] at hd
      | false => exact absurd (h.drains (by simpa [hdr] using hd)) (by simp [hdr])
    · exact h.congr (by simp [hq])
  | cons n l =>
    rw [take_cons hl]
    by_cases hq : q' = q
    · subst hq
      exact ⟨by simp, by simp [Phase.current], by simpa using h.drains⟩
    · exact h.congr (by simp [hq])

end

omit dI dT in
theorem handlerReturn_workq : (handlerReturn s q n).workq q' =
    if q' = q then { s.workq q with phase := .returned n } else s.workq q' := by
  cases n <;> simp [Works.handlerReturn]

omit dI dT in
theorem QueueOk.handlerReturn (h : QueueOk s q') (hp : (s.workq q).phase = .handling n) :
    QueueOk (handlerReturn s q n) q' := by
  by_cases hq : q' = q
  · subst hq
    have hb := h.busy
    rw [hp] at hb
    refine ⟨by simp [handlerReturn_workq], ?_, by simpa [handlerReturn_workq] using h.drains⟩
    simpa [handlerReturn_workq, Phase.current] using hb
  · exact h.congr (by simp [handlerReturn_workq, hq])

omit dT in
theorem QueueOk.finish (h : QueueOk s q') : QueueOk (finish s q n) q' := by
  by_cases hq : q' = q
  · subst hq
    exact ⟨by simp [finish_workq], by simp [finish_workq, Phase.current], by simpa [finish_workq] using h.drains⟩
  · exact h.congr (by simp [finish_workq, hq])

/-! ## Every move -/

omit dQ dT in
theorem arm_work {queue : Option Q} {delay : Delay} : (arm s i queue delay).work n =
    if n = .item i then { s.work (.item i) with delayed := true } else s.work n := by
  cases delay <;> simp [arm, zAddTimeout]

omit dQ dT in
theorem arm_rest {queue : Option Q} {delay : Delay} : (arm s i queue delay).workq = s.workq ∧
    (arm s i queue delay).call = s.call ∧ (arm s i queue delay).sem = s.sem ∧
    (arm s i queue delay).pendingCancels = s.pendingCancels := by
  cases delay <;> exact ⟨rfl, rfl, rfl, rfl⟩

omit dT in
theorem Inv.delay (h : Inv delayable s) (hw : ∀ n, n ≠ .item i → s'.work n = s.work n) {b : Bool}
    (hi : s'.work (.item i) = { s.work (.item i) with delayed := b }) (hb : b = true → delayable i = true)
    (hq : s'.workq = s.workq) (hc : s'.call = s.call) (hs : s'.sem = s.sem)
    (hpc : s'.pendingCancels = s.pendingCancels) : Inv delayable s' := by
  refine ⟨fun j => (h.item j).delay hw hi hb hq, fun f => (h.sync f).delay (fun n => ?_) hq hc hs hpc,
    fun q => (h.queue q).congr (by rw [hq])⟩
  by_cases hn : n = .item i
  · rw [hn, hi]
  · rw [hw n hn]

omit dT in
theorem Inv.move (h : Inv delayable s) (hm : Move delayable e s s') : Inv delayable s' := by
  cases hm with
  | @accept e s i q he hc hq hr hs hd hp =>
    exact ⟨fun j => (h.item j).accept (h.item i) hc hq hr, fun f => (h.sync f).accept, fun q => (h.queue q).accept⟩
  | @remove e s i q he hc hq hw =>
    exact ⟨fun j => (h.item j).remove (h.item i) hc hq hw, fun f => (h.sync f).remove, fun q => (h.queue q).remove⟩
  | mark he hr hq =>
    exact ⟨fun j => (h.item j).mark hr hq, fun f => (h.sync f).mark, fun q => (h.queue q).congr rfl⟩
  | flushOn hf hb hw =>
    exact ⟨fun j => (h.item j).flushOn, fun f => (h.sync f).flushOn hf, fun q => (h.queue q).flushOn⟩
  | cancelOn hf hc =>
    exact ⟨fun j => (h.item j).congr rfl (fun _ => rfl) fun _ => Iff.rfl, fun f => (h.sync f).cancelOn hf hc,
      fun q => (h.queue q).congr rfl⟩
  | resume hf hs =>
    exact ⟨fun j => (h.item j).congr rfl (fun _ => rfl) fun _ => Iff.rfl, fun f => (h.sync f).resume hs,
      fun q => (h.queue q).congr rfl⟩
  | drainOn => exact ⟨fun j => (h.item j).drainOn, fun f => (h.sync f).drainOn, fun q => (h.queue q).drainOn⟩
  | unplug => exact ⟨fun j => (h.item j).unplug, fun f => (h.sync f).unplug, fun q => (h.queue q).unplug⟩
  | take hs hp => exact ⟨fun j => (h.item j).take hp, fun f => (h.sync f).take hp, fun q => (h.queue q).take hp⟩
  | handlerReturn hp =>
    exact ⟨fun j => (h.item j).handlerReturn hp, fun f => (h.sync f).handlerReturn hp,
      fun q => (h.queue q).handlerReturn hp⟩
  | finish hp =>
    exact ⟨fun j => (h.item j).finish hp, fun f => (h.sync f).finish hp, fun q => (h.queue q).finish⟩
  | @arm e s i queue delay he hd =>
    exact h.delay (i := i) (b := true) (fun n hn => by rw [arm_work, if_neg hn]) (by rw [arm_work, if_pos rfl])
      (fun _ => hd) arm_rest.1 arm_rest.2.1 arm_rest.2.2.1 arm_rest.2.2.2
  | @disarm e s i he hd =>
    exact h.delay (i := i) (b := false) (fun n hn => by simp [disarm, zAbortTimeout, hn])
      (by simp [disarm, zAbortTimeout]) nofun rfl rfl rfl rfl
  | announce ht =>
    exact ⟨fun j => (h.item j).congr rfl (fun _ => rfl) fun _ => Iff.rfl,
      fun f => (h.sync f).quiet rfl rfl rfl (fun _ => id) (fun _ => rfl) fun _ => Iff.rfl, fun q => (h.queue q).congr rfl⟩
  | @expire s i hd =>
    exact h.delay (i := i) (b := false) (fun n hn => by simp [expire, hn]) (by simp [expire]) nofun rfl rfl rfl rfl
  | ignore hd =>
    exact ⟨fun j => (h.item j).congr rfl (fun _ => rfl) fun _ => Iff.rfl,
      fun f => (h.sync f).quiet rfl rfl rfl (fun _ => id) (fun _ => rfl) fun _ => Iff.rfl, fun q => (h.queue q).congr rfl⟩
  | tick =>
    exact ⟨fun j => (h.item j).congr rfl (fun _ => rfl) fun _ => Iff.rfl,
      fun f => (h.sync f).quiet rfl rfl rfl (fun _ => id) (fun _ => rfl) fun _ => Iff.rfl, fun q => (h.queue q).congr rfl⟩

def Moves (delayable : I → Bool) (e : Event I Q S T) : System I Q S T → System I Q S T → Prop :=
  ReflTransGen (Move delayable e)

omit dT in
theorem Inv.moves (h : Inv delayable s) (hm : Moves delayable e s s') : Inv delayable s' := by
  induction hm with
  | refl => exact h
  | tail _ hm ih => exact ih.move hm

/-! ## The functions as moves -/

variable {p : Option Q} {c : Caller Q}

section
omit dT

theorem queueSubmit_cases :
    ((queueSubmitLocked s c p n).2 < 0 ∧ (queueSubmitLocked s c p n).1 = s) ∨
    ∃ q, p = some q ∧ (s.workq q).started = true ∧ ((s.workq q).drain = true → c = .worker q) ∧
      ((s.workq q).plugged = true → (s.workq q).drain = true) ∧ queueSubmitLocked s c p n =
        (notifyQueueLocked (s.updateQueue q fun wq => { wq with pending := wq.pending ++ [n] }) q, 1) := by
  cases p with
  | none => exact Or.inl ⟨by simp [queueSubmitLocked, EINVAL], rfl⟩
  | some q =>
    by_cases hs : (s.workq q).started = true
    · by_cases hd : (s.workq q).drain = true ∧ c ≠ .worker q
      · exact Or.inl (by simp [queueSubmitLocked, hs, hd, EBUSY])
      · by_cases hp : (s.workq q).plugged = true ∧ (s.workq q).drain = false
        · exact Or.inl (by simp [queueSubmitLocked, hs, hp, EBUSY])
        · refine Or.inr ⟨q, rfl, hs, by grind, by grind, ?_⟩
          rw [queueSubmitLocked, if_neg (by simp [hs]), if_neg (by grind), if_neg (by grind)]
    · exact Or.inl (by simp [queueSubmitLocked, hs, ENODEV])

theorem submit_cases : (submitToQueueLocked s c i p).1 = s ∨
    ∃ q, ((s.work (.item i)).canceling = false ∧ (s.work (.item i)).queued = false ∧
      ((s.work (.item i)).running = true → (s.work (.item i)).queue = some q) ∧ (s.workq q).started = true ∧
      ((s.workq q).drain = true → c = .worker q) ∧ ((s.workq q).plugged = true → (s.workq q).drain = true)) ∧
      (submitToQueueLocked s c i p).1 = accept s i q := by
  by_cases hc : (s.work (.item i)).canceling = true
  · exact Or.inl (by simp [submitToQueueLocked, hc])
  · by_cases hq : (s.work (.item i)).queued = true
    · exact Or.inl (by simp [submitToQueueLocked, hc, hq])
    · let queue := if (s.work (.item i)).running then (s.work (.item i)).queue
        else if p = none then (s.work (.item i)).queue else p
      have heq : (submitToQueueLocked s c i p).1 =
          if (queueSubmitLocked s c queue (.item i)).2 < 0 then (queueSubmitLocked s c queue (.item i)).1
          else (queueSubmitLocked s c queue (.item i)).1.update (.item i) fun w =>
            { w with queued := true, queue := queue, accepted := w.accepted + 1 } := by
        simp only [submitToQueueLocked, hc, hq, Bool.false_eq_true, if_false]
        change (if (queueSubmitLocked s c queue (.item i)).2 < 0 then queueSubmitLocked s c queue (.item i)
          else (_, _)).1 = _
        split <;> rfl
      rw [heq]
      rcases queueSubmit_cases (s := s) (c := c) (p := queue) (n := .item i) with ⟨hneg, hs⟩ | ⟨q, hqq, hs, hd, hp, hr⟩
      · exact Or.inl (by rw [if_pos hneg, hs])
      · refine Or.inr ⟨q, ⟨by simpa using hc, by simpa using hq, fun hrun => ?_, hs, hd, hp⟩, ?_⟩
        · simpa [queue, hrun] using hqq
        · rw [hr, if_neg (by simp), hqq]
          rfl

theorem submit_moves (he : e.caller = c) (hi : e.submits = some i) :
    Moves delayable e s (submitToQueueLocked s c i p).1 := by
  rcases submit_cases (s := s) (i := i) (c := c) (p := p) with h | ⟨q, ⟨hc, hq, hr, hs, hd, hp⟩, h⟩
  · rw [h]
    exact .refl
  · rw [h]
    exact .single (.accept hi hc hq hr hs (fun hdr => he.trans (hd hdr)) hp)

theorem schedule_moves {delay : Delay} (he : e.caller = c) (hs : e.submits = some i)
    (hd : e.delays = some i) (hi : delayable i = true) : Moves delayable e s (scheduleForQueueLocked s c p i delay).1 := by
  unfold scheduleForQueueLocked
  split
  · exact submit_moves he hs
  · exact .single (.arm hd hi)

end

omit dQ dT in
theorem unschedule_cases : ((s.work (.item i)).delayed = false ∧ unscheduleLocked s i = (s, false)) ∨
    (s.work (.item i)).delayed = true ∧ unscheduleLocked s i = (disarm s i, true) := by
  cases h : (s.work (.item i)).delayed
  · exact Or.inl ⟨rfl, by simp [unscheduleLocked, h]⟩
  · exact Or.inr ⟨rfl, by rw [unscheduleLocked, if_pos h]; rfl⟩

omit dT in
theorem unschedule_moves (he : e.delays = some i) : Moves delayable e s (unscheduleLocked s i).1 := by
  rcases unschedule_cases (s := s) (i := i) with ⟨_, h⟩ | ⟨hd, h⟩ <;> rw [h]
  · exact .refl
  · exact .single (.disarm he hd)

omit dQ dT in
theorem unschedule_delayed : ((unscheduleLocked s i).1.work (.item i)).delayed = false := by
  rcases unschedule_cases (s := s) (i := i) with ⟨hd, h⟩ | ⟨hd, h⟩ <;> rw [h]
  · exact hd
  · simp [disarm, zAbortTimeout]

section
omit dT

theorem queueRemove_cases (h : (s.work (.item i)).queued = true → (s.work (.item i)).queue ≠ none) :
    ((s.work (.item i)).queued = false ∧ queueRemoveLocked s i = s) ∨
    ∃ q, (s.work (.item i)).queued = true ∧ (s.work (.item i)).queue = some q ∧ queueRemoveLocked s i = remove s i q := by
  cases hq : (s.work (.item i)).queued with
  | false => exact Or.inl ⟨rfl, by simp [queueRemoveLocked, hq]⟩
  | true =>
    obtain ⟨q, hw⟩ := ne_none_iff_exists'.mp (h hq)
    exact Or.inr ⟨q, rfl, hw, by simp [queueRemoveLocked, hq, hw, remove]⟩

theorem cancelAsync_eq : (cancelAsyncLocked s i).1 =
    if ((if (s.work (.item i)).canceling then s else queueRemoveLocked s i).work (.item i)).busy
    then mark (if (s.work (.item i)).canceling then s else queueRemoveLocked s i) i
    else if (s.work (.item i)).canceling then s else queueRemoveLocked s i := by
  unfold cancelAsyncLocked
  dsimp only
  generalize (if (s.work (.item i)).canceling = true then s else queueRemoveLocked s i) = s₁
  split <;> rfl

theorem cancelAsync_moves (h : Inv delayable s) (hd : (s.work (.item i)).delayed = false) (he : e.cancels = some i) :
    Moves delayable e s (cancelAsyncLocked s i).1 := by
  have hi := h.item i
  rw [cancelAsync_eq]
  by_cases hc : (s.work (.item i)).canceling = true
  · have hr := hi.canceling hc
    rw [if_pos hc]
    split
    · exact .single (.mark he hr.1 hr.2)
    · exact .refl
  · rw [if_neg hc]
    rcases queueRemove_cases fun hq => hi.queue (Or.inl hq) with ⟨hq, hrm⟩ | ⟨q, hq, hw, hrm⟩
    · rw [hrm]
      split
      · next hb => exact .single (.mark he (by simpa [Work.busy, hd, hq, hc] using hb) hq)
      · exact .refl
    · have hwork : (remove s i q).work (.item i) = { s.work (.item i) with queued := false } := by simp [remove]
      have hm : Moves delayable e s (remove s i q) := .single (.remove he (by simpa using hc) hq hw)
      rw [hrm]
      split
      · next hb =>
        refine hm.tail (.mark he ?_ (by rw [hwork]))
        rw [hwork] at hb ⊢
        simpa [Work.busy, hd, hc] using hb
      · exact hm

theorem flush_moves (h : Inv delayable s) (hf : s.call f = none) : Moves delayable e s (kWorkFlush s f i) := by
  unfold kWorkFlush workFlushLocked
  by_cases hb : (s.work (.item i)).queued = true ∨ (s.work (.item i)).running = true
  · obtain ⟨q, hw⟩ := ne_none_iff_exists'.mp ((h.item i).queue hb)
    have heq : (queueFlusherLocked s q i f).work (.item i) = s.work (.item i) := by simp [queueFlusherLocked]
    have hm : Move delayable e s (flushOn s f i q) := .flushOn hf hb hw
    simp only [Bool.or_eq_true, if_pos hb, hw, if_true, flushCall, notify_rest, heq, map_some]
    exact .single hm
  · simp only [Bool.or_eq_true, if_neg hb]
    exact .refl

theorem cancelWait_moves (hf : s.call f = none) : Moves delayable e s (cancelWait s f i) := by
  unfold cancelWait cancelSyncLocked
  by_cases hc : (s.work (.item i)).canceling = true
  · simp only [if_pos hc, if_true]
    exact .single (.cancelOn hf hc)
  · simp only [if_neg hc]
    exact .refl

theorem cancelAsync_call : (cancelAsyncLocked s i).1.call = s.call := by
  unfold cancelAsyncLocked queueRemoveLocked
  grind [System.update, System.updateQueue]

theorem submit_call : (submitToQueueLocked s c i p).1.call = s.call := by
  rcases submit_cases (s := s) (i := i) (c := c) (p := p) with h | ⟨q, _, h⟩ <;> rw [h]
  rfl

end

omit dQ dT in
theorem unschedule_call : (unscheduleLocked s i).1.call = s.call := by
  rcases unschedule_cases (s := s) (i := i) with ⟨_, h⟩ | ⟨_, h⟩ <;> rw [h]
  rfl

omit dT in
theorem perform_moves (h : Inv delayable s) (hen : Enabled delayable s e) : Moves delayable e s (perform s e) := by
  cases e with
  | submit c q i => exact submit_moves rfl rfl
  | schedule c q i delay =>
    change Moves _ _ _ (kWorkScheduleForQueue s c q i delay).1
    unfold kWorkScheduleForQueue
    dsimp only
    split
    · exact .refl
    · exact schedule_moves rfl rfl rfl hen.2
  | reschedule c q i delay => exact (unschedule_moves rfl).trans (schedule_moves rfl rfl rfl hen.2)
  | cancel i => exact cancelAsync_moves h ((h.item i).plain hen) rfl
  | cancelDelayable i =>
    have hu : Moves delayable (.cancelDelayable i) s (unscheduleLocked s i).1 := unschedule_moves rfl
    exact hu.trans (cancelAsync_moves (h.moves hu) unschedule_delayed rfl)
  | cancelSync f i =>
    change Moves _ _ _ (kWorkCancelSync s f i)
    unfold kWorkCancelSync
    split
    · refine (cancelAsync_moves h ((h.item i).plain hen.1) rfl).trans (cancelWait_moves ?_)
      rw [cancelAsync_call]
      exact hen.2
    · exact .refl
  | cancelDelayableSync f i =>
    change Moves _ _ _ (kWorkCancelDelayableSync s f i)
    unfold kWorkCancelDelayableSync
    split
    · have hu : Moves delayable (.cancelDelayableSync f i) s (unscheduleLocked s i).1 := unschedule_moves rfl
      refine (hu.trans (cancelAsync_moves (h.moves hu) unschedule_delayed rfl)).trans (cancelWait_moves ?_)
      rw [cancelAsync_call, unschedule_call]
      exact hen.2
    · exact .refl
  | flush f i => exact flush_moves h hen.2
  | flushDelayable c f i =>
    change Moves _ _ _ (kWorkFlushDelayable s c f i)
    unfold kWorkFlushDelayable
    split
    · exact .refl
    · have hu : Moves delayable (.flushDelayable c f i) s (unscheduleLocked s i).1 := unschedule_moves rfl
      dsimp only
      split
      · have hs := hu.trans (submit_moves (i := i) (c := c) (p := ((unscheduleLocked s i).1.dwork i).queue) rfl rfl)
        refine hs.trans (flush_moves (h.moves hs) ?_)
        rw [submit_call, unschedule_call]
        exact hen.2.2
      · refine hu.trans (flush_moves (h.moves hu) ?_)
        rw [unschedule_call]
        exact hen.2.2
  | resume f => exact .single (.resume hen.1 hen.2)
  | drain t q plug =>
    change Moves _ _ _ (kWorkQueueDrain s t q plug)
    unfold kWorkQueueDrain
    dsimp only
    split
    · exact .single .drainOn
    · exact .refl
  | unplug q => exact .single .unplug
  | announce i => exact .single (.announce hen)
  | timeout i =>
    change Moves _ _ _ (workTimeout s i)
    unfold workTimeout
    dsimp only
    split
    · next hd => exact (ReflTransGen.single (.expire hd)).trans (submit_moves rfl rfl)
    · next hd => exact .single (.ignore (by simpa using hd))
  | take q => exact .single (.take hen.1 hen.2)
  | handlerReturn q n => exact .single (.handlerReturn hen)
  | finish q n => exact .single (.finish hen)
  | tick => exact .single .tick

theorem step_eq_ok (h : step delayable s e = .ok s') : Enabled delayable s e ∧ s' = perform s e := by
  rw [step] at h
  split at h
  · next hen =>
    cases h
    exact ⟨hen, rfl⟩
  · cases h

theorem step_moves (h : Inv delayable s) (hs : step delayable s e = .ok s') : Moves delayable e s s' := by
  obtain ⟨hen, rfl⟩ := step_eq_ok hs
  exact perform_moves h hen

theorem Inv.step (h : Inv delayable s) (hs : step delayable s e = .ok s') : Inv delayable s' := h.moves (step_moves h hs)

theorem Inv.run {es : List (Event I Q S T)} (h : Inv delayable s) (hs : run (Works.step delayable) s es = .ok s') :
    Inv delayable s' :=
  run_inv (fun _ _ _ h _ => h.step) h (.of_all (fun _ _ => trivial) _) hs

omit dT in
theorem initial_inv {started : Q → Bool} : Inv delayable (initial (I := I) (S := S) (T := T) started) := by
  refine ⟨fun i => ⟨fun q => rfl, fun q => ?_, ?_, nofun, fun _ => rfl⟩, fun f => ?_, fun q => ⟨nofun, rfl, fun h => absurd rfl h⟩⟩
  · simp [initial, Phase.current]
  · simp [initial]
  · exact .of_absent (by simp [initial, Cancelling]) (by simp [initial, Flushing]) (fun _ => rfl) (fun _ => rfl)
      (by simp [initial])

/-! ## Every run -/

/-- The flags say where an item is, and who waits. -/
structure Coherent (s : System I Q S T) : Prop where
  queued : ∀ i, (s.work (.item i)).queued = true ↔ ∃ q, (s.work (.item i)).queue = some q ∧
    (s.workq q).pending.count (.item i) = 1 ∧ ∀ q', q' ≠ q → .item i ∉ (s.workq q').pending
  unqueued : ∀ i, (s.work (.item i)).queued = false → ∀ q, .item i ∉ (s.workq q).pending
  running : ∀ i, (s.work (.item i)).running = true ↔ ∃! q, (s.workq q).phase.current = some (.item i)
  stopped : ∀ i, (s.work (.item i)).running = false → ∀ q, (s.workq q).phase.current ≠ some (.item i)
  canceling : ∀ i, (s.work (.item i)).canceling = true →
    (s.work (.item i)).running = true ∧ (s.work (.item i)).queued = false
  cancels : ∀ f i, (f, i) ∈ s.pendingCancels ↔ Cancelling s f i
  once : s.pendingCancels.Nodup
  waits : ∀ f i, Cancelling s f i → (s.work (.item i)).canceling = true
  asleep : ∀ q, (s.workq q).phase = .asleep → (s.workq q).pending = [] ∧ (s.workq q).drain = false

omit dT in
theorem ItemOk.count_other (h : ItemOk delayable s i) (hw : (s.work (.item i)).queue = some q) (hq : q' ≠ q) :
    .item i ∉ (s.workq q').pending := by
  have hp := h.pending q'
  rw [if_neg fun hc => hq (some.inj (hc.2.symm.trans hw))] at hp
  exact List.count_eq_zero.mp hp

omit dT in
theorem Inv.coherent (h : Inv delayable s) : Coherent s where
  queued i := by
    have hi := h.item i
    constructor
    · intro hq
      obtain ⟨q, hw⟩ := ne_none_iff_exists'.mp (hi.queue (Or.inl hq))
      exact ⟨q, hw, (hi.pending q).trans (if_pos ⟨hq, hw⟩), fun q' hqq => hi.count_other hw hqq⟩
    · rintro ⟨q, -, hp, -⟩
      by_contra hq
      have h0 := (hi.pending q).trans (if_neg fun hc => hq hc.1)
      omega
  unqueued i hq q := by
    have hp := (h.item i).pending q
    rw [if_neg fun hc => by simp [hq] at hc] at hp
    exact List.count_eq_zero.mp hp
  running i := by
    have hi := h.item i
    constructor
    · intro hr
      obtain ⟨q, hw⟩ := ne_none_iff_exists'.mp (hi.queue (Or.inr hr))
      refine ⟨q, (hi.current q).mpr ⟨hr, hw⟩, fun q' hc => ?_⟩
      exact some.inj (((hi.current q').mp hc).2.symm.trans hw)
    · rintro ⟨q, hc, -⟩
      exact ((hi.current q).mp hc).1
  stopped i hr q hc := by
    have hr' := ((h.item i).current q).mp hc
    rw [hr] at hr'
    exact absurd hr'.1 (by simp)
  canceling i := (h.item i).canceling
  cancels f i := by
    rw [← List.count_pos_iff, (h.sync f).cancels i]
    split <;> simp_all
  once := by
    refine List.nodup_iff_count_le_one.mpr fun ⟨f, i⟩ => ?_
    rw [(h.sync f).cancels i]
    split <;> omega
  waits f i := (h.sync f).waits i
  asleep q := (h.queue q).asleep

/-- In every state that any calls, expiries and queue threads lead to, the flags say where an item is. -/
theorem work_states {started : Q → Bool} {es : List (Event I Q S T)}
    (hrun : run (step delayable) (initial started) es = .ok s) : Coherent s := (initial_inv.run hrun).coherent

/-- An item is submitted twice, cancelled from its handler and scheduled again. -/
def cancelWhileRunning : List (Event (Fin 2) (Fin 2) (Fin 2) (Fin 1)) :=
  [.take 0, .submit .other (some 0) 1, .take 0, .submit (.worker 0) (some 1) 1, .drain 0 0 true,
    .cancelDelayableSync 0 1, .reschedule .other (some 1) 1 (.ticks 3), .handlerReturn 0 (.item 1), .finish 0 (.item 1),
    .timeout 1, .take 1, .flush 1 0, .take 0, .resume 0]

theorem work_states_two : ∃ s, run (step (fun i => decide (i = (1 : Fin 2)))) (initial fun _ => true) cancelWhileRunning =
    .ok s ∧ Coherent s :=
  exists_ok_and (by decide +kernel) fun _ hs => work_states hs

end RtosKernel.Zephyr.Works
