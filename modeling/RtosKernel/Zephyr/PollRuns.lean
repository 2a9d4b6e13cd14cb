import Mathlib.Data.List.Nodup
import RtosKernel.Zephyr.Poll

/-! # Notifications of `k_poll`

A step is seen from one thread: its record, and the indices of its events that each object links. A section of
the thread itself is one of `Section`; whatever else happens does one of `Turn` to it. -/
namespace RtosKernel.Zephyr.Poll
open Lib.Runs Function

variable {O T : Type} [dO : DecidableEq O] [dT : DecidableEq T]
variable {k ii n state : Nat} {rc : Int}

/-! ## What a step does to one thread -/

/-- The number of events of a call, from the first one, that can still be linked. -/
def Thread.live (th : Thread O T) : Nat :=
  match th.phase with
  | .idle => 0
  | .registering _ | .pending => th.eventsRegistered
  | .clearing n _ => n

/-- All that the call has registered is linked, and a notification is not known to it yet. -/
def Thread.Waits (th : Thread O T) : Prop :=
  match th.phase with
  | .registering _ => th.isPolling = true
  | .pending => True
  | _ => False

/-- The indices of the events of a thread that the objects link. -/
def State.links (s : State O T) (t : T) (o : O) (k : Nat) : Prop := (t, k) ∈ (s.obj o).pollEvents

/-- How an event looks after `set_event_ready`. -/
def Event.ready (state : Nat) (e : Event O T) : Event O T := { e with poller := none, state := e.state ||| state }

def Event.cleared (e : Event O T) : Event O T := { e with poller := none }

def Event.polled (t : T) (e : Event O T) : Event O T := { e with poller := some t }

/-- The events of the call that are left to clear, and what it will return: after the wait, or after
`register_events` once a condition is met. -/
def Thread.Clears (th : Thread O T) (n : Nat) (rc : Int) : Prop :=
  th.phase = .clearing n rc ∨
    ∃ ii, th.phase = .registering ii ∧ th.events[ii]? = none ∧ th.isPolling = false ∧ th.eventsRegistered = n ∧ rc = 0

inductive Section (t : T) (th : Thread O T) (l : O → Nat → Prop) : Thread O T → (O → Nat → Prop) → Prop
  | met (ii : Nat) (e : Event O T) (state : Nat) (hph : th.phase = .registering ii) (he : th.events[ii]? = some e)
    (hst : state ≠ 0) :
    Section t th l
      { th with isPolling := false, events := th.events.modify ii (Event.ready state), phase := .registering (ii + 1) } l
  | registered (ii : Nat) (e : Event O T) (l' : O → Nat → Prop) (hph : th.phase = .registering ii)
    (he : th.events[ii]? = some e) (hwait : th.timeout ≠ .noWait) (hpoll : th.isPolling = true)
    (hl : ∀ o k, l' o k ↔ l o k ∨ e.obj = some o ∧ k = ii) :
    Section t th l
      { th with
        events := th.events.modify ii (Event.polled t)
        eventsRegistered := th.eventsRegistered + 1
        phase := .registering (ii + 1) } l'
  | passed (ii : Nat) (hph : th.phase = .registering ii) (hlt : ii < th.events.length)
    (hno : ¬(th.timeout ≠ .noWait ∧ th.isPolling = true)) :
    Section t th l { th with phase := .registering (ii + 1) } l
  | blocks (ii : Nat) (hph : th.phase = .registering ii) (hpoll : th.isPolling = true) (hwait : th.timeout ≠ .noWait) :
    Section t th l { th with isPolling := false, phase := .pending } l
  | again (ii : Nat) (hph : th.phase = .registering ii) (hpoll : th.isPolling = true) (hwait : th.timeout = .noWait) :
    Section t th l { th with isPolling := false, phase := .idle, results := -EAGAIN :: th.results } l
  | clears (k : Nat) (rc : Int) (l' : O → Nat → Prop) (hc : th.Clears (k + 1) rc)
    (hl : ∀ o j, l' o j ↔ l o j ∧ ¬(j = k ∧ (th.events[k]?.bind Event.obj) = some o)) :
    Section t th l
      { th with events := th.events.modify k Event.cleared, phase := .clearing k rc } l'
  | returns (rc : Int) (hc : th.Clears 0 rc) : Section t th l { th with phase := .idle, results := rc :: th.results } l

/-- What other threads and the timeout do to a thread, and the call of `k_poll` itself. -/
inductive Turn (t : T) (th : Thread O T) (l : O → Nat → Prop) : Thread O T → (O → Nat → Prop) → Prop
  | kept (prio : Int) : Turn t th l { th with prio := prio } l
  | starts (events : List (Event O T)) (timeout : Timeout) (hph : th.phase = .idle)
    (hnew : ∀ e ∈ events, e.poller = none) :
    Turn t th l
      { th with
        isPolling := true, events := events, timeout := timeout, eventsRegistered := 0, phase := .registering 0 } l
  | expires (hph : th.phase = .pending) :
    Turn t th l { th with phase := .clearing th.eventsRegistered (-EAGAIN) } l
  | notified (o : O) (k : Nat) (state : Nat) (rc : Int) (l' : O → Nat → Prop) (hk : l o k)
    (hl : ∀ o' k', l' o' k' ↔ l o' k' ∧ ¬(o' = o ∧ k' = k)) (hst : state ≠ 0) :
    Turn t th l
      { th with
        phase := if th.phase = .pending then .clearing th.eventsRegistered rc else th.phase
        isPolling := false
        events := th.events.modify k (Event.ready state) } l'

/-! ## The invariant -/

/-- The registrations of a call are its first events; those that are linked carry its poller. -/
structure Thread.Ok (t : T) (th : Thread O T) (l : O → Nat → Prop) : Prop where
  count : ∀ ii, th.phase = .registering ii → th.eventsRegistered ≤ ii ∧
    (th.isPolling = true → th.timeout ≠ .noWait → th.eventsRegistered = ii) ∧
    (th.timeout = .noWait → th.eventsRegistered = 0)
  linked : ∀ o k, l o k → k < th.live ∧ ∃ e, th.events[k]? = some e ∧ e.obj = some o ∧ e.poller = some t
  registered : th.Waits → ∀ k < th.eventsRegistered, ∀ e o, th.events[k]? = some e → e.obj = some o → l o k

variable {l l' : O → Nat → Prop} {th th' : Thread O T} {t u : T}

omit dO dT in
theorem Thread.Ok.poller (h : th.Ok t l) {o : O}
    (hk : l o k) : (th.events[k]?).bind Event.poller = some t := by
  obtain ⟨-, e, he, -, hp⟩ := h.linked o k hk
  rw [he]
  exact hp

variable {f : Event O T → Event O T}

omit dO dT in
theorem obj_of_modify (hf : ∀ e, (f e).obj = e.obj) {xs : List (Event O T)} {j : Nat}
    {e : Event O T} (h : (xs.modify j f)[k]? = some e) : ∃ e', xs[k]? = some e' ∧ e'.obj = e.obj := by
  rw [List.getElem?_modify] at h
  obtain ⟨e', he', rfl⟩ := Option.map_eq_some_iff.mp h
  refine ⟨e', he', ?_⟩
  by_cases hj : j = k
  · rw [if_pos hj, hf]
  · rw [if_neg hj]

omit dO dT in
theorem map_obj_modify (hf : ∀ e, (f e).obj = e.obj) (xs : List (Event O T)) (k : Nat) :
    (xs.modify k f).map Event.obj = xs.map Event.obj := by
  refine List.ext_getElem? fun j => ?_
  rw [List.getElem?_map, List.getElem?_map, List.getElem?_modify]
  cases xs[j]? with
  | none => rfl
  | some e =>
    by_cases hk : k = j
    · exact congrArg some ((congrArg Event.obj (if_pos hk)).trans (hf e))
    · exact congrArg some (congrArg Event.obj (if_neg hk))

section Invariant
variable {t : T} {th th' : Thread O T} {l l' : O → Nat → Prop}

section
omit dO dT

theorem Thread.live_registering (hph : th.phase = .registering ii) : th.live = th.eventsRegistered := by
  rw [Thread.live, hph]

theorem Thread.live_pending (hph : th.phase = .pending) : th.live = th.eventsRegistered := by
  rw [Thread.live, hph]

theorem Thread.Clears.live (hc : th.Clears n rc) : th.live = n := by
  rcases hc with hph | ⟨ii, hph, -, -, hn, -⟩
  · rw [Thread.live, hph]
  · rw [Thread.live, hph]
    exact hn

theorem Thread.Ok.linked_modify (h : th.Ok t l) {j : Nat} {o : O} (hk : l o k)
    (hkj : k ≠ j) : ∃ e, (th.events.modify j f)[k]? = some e ∧ e.obj = some o ∧ e.poller = some t := by
  obtain ⟨-, e, he, ho, hp⟩ := h.linked o k hk
  exact ⟨e, (List.getElem?_modify_ne f _ (Ne.symm hkj)).trans he, ho, hp⟩

end

theorem Thread.Ok.of_section (h : th.Ok t l) (hs : Section t th l th' l') : th'.Ok t l' := by
  cases hs with
  | met ii e state hph he hst =>
    obtain ⟨hle, -, hno⟩ := h.count ii hph
    refine ⟨?_, fun o k hk => ?_, nofun⟩
    · rintro _ ⟨⟩
      exact ⟨Nat.le_succ_of_le hle, nofun, hno⟩
    · have hlt := (h.linked o k hk).1
      rw [Thread.live_registering hph] at hlt
      exact ⟨hlt, h.linked_modify hk (by omega)⟩
  | registered ii e l' hph he hwait hpoll hl =>
    obtain ⟨-, hii, -⟩ := h.count ii hph
    replace hii := hii hpoll hwait
    refine ⟨?_, fun o k hk => ?_, fun _ k hk e' o he' ho => ?_⟩
    · rintro _ ⟨⟩
      exact ⟨Nat.succ_le_succ (Nat.le_of_eq hii), fun _ _ => by rw [hii], fun hn => absurd hn hwait⟩
    · change k < th.eventsRegistered + 1 ∧ _
      rcases (hl o k).mp hk with hk | ⟨ho, rfl⟩
      · have hlt := (h.linked o k hk).1
        rw [Thread.live_registering hph] at hlt
        exact ⟨Nat.lt_succ_of_lt hlt, h.linked_modify hk (by omega)⟩
      · refine ⟨by omega, e.polled t, ?_, ho, rfl⟩
        rw [List.getElem?_modify_eq, he]
        rfl
    · obtain ⟨e₀, he₀, ho₀⟩ := obj_of_modify (f := Event.polled t) (fun _ => rfl) he'
      refine (hl o k).mpr ?_
      by_cases hkii : k = ii
      · subst hkii
        rw [he] at he₀
        cases he₀
        exact .inr ⟨ho₀.trans ho, rfl⟩
      · refine .inl (h.registered ?_ k ?_ e₀ o he₀ (ho₀.trans ho))
        · rw [Thread.Waits, hph]
          exact hpoll
        · change k < th.eventsRegistered + 1 at hk
          omega
  | passed ii hph hlt hno =>
    obtain ⟨hle, -, hzero⟩ := h.count ii hph
    have hstop : th.isPolling = true → th.timeout = .noWait := fun hp => by
      by_contra hw
      exact hno ⟨hw, hp⟩
    refine ⟨?_, fun o k hk => ?_, fun hw k hk => ?_⟩
    · rintro _ ⟨⟩
      exact ⟨Nat.le_succ_of_le hle, fun hp hw => absurd (hstop hp) hw, hzero⟩
    · have hlinked := h.linked o k hk
      rw [Thread.live_registering hph] at hlinked
      exact hlinked
    · change k < th.eventsRegistered at hk
      have := hzero (hstop hw)
      omega
  | blocks ii hph hpoll hwait =>
    refine ⟨nofun, fun o k hk => ?_, fun _ => h.registered ?_⟩
    · have hlinked := h.linked o k hk
      rw [Thread.live_registering hph] at hlinked
      exact hlinked
    · rw [Thread.Waits, hph]
      exact hpoll
  | again ii hph hpoll hwait =>
    refine ⟨nofun, fun o k hk => ?_, nofun⟩
    have hlt := (h.linked o k hk).1
    rw [Thread.live_registering hph] at hlt
    have := (h.count ii hph).2.2 hwait
    omega
  | clears k rc l' hc hl =>
    refine ⟨nofun, fun o j hj => ?_, nofun⟩
    obtain ⟨hj, hne⟩ := (hl o j).mp hj
    obtain ⟨hlt, e, he, ho, -⟩ := h.linked o j hj
    rw [hc.live] at hlt
    have hjk : j ≠ k := by
      rintro rfl
      refine hne ⟨rfl, ?_⟩
      rw [he]
      exact ho
    change j < k ∧ _
    exact ⟨by omega, h.linked_modify hj hjk⟩
  | returns rc hc =>
    refine ⟨nofun, fun o k hk => ?_, nofun⟩
    have hlt := (h.linked o k hk).1
    rw [hc.live] at hlt
    omega

omit dO dT in
theorem Thread.Ok.of_turn (h : th.Ok t l) (ht : Turn t th l th' l') : th'.Ok t l' := by
  cases ht with
  | kept prio => exact ⟨h.count, h.linked, h.registered⟩
  | starts events timeout hph hnew =>
    refine ⟨?_, fun o k hk => ?_, fun _ k hk => absurd hk (Nat.not_lt_zero k)⟩
    · rintro _ ⟨⟩
      exact ⟨Nat.le_refl 0, fun _ _ => rfl, fun _ => rfl⟩
    · have hlt := (h.linked o k hk).1
      rw [Thread.live, hph] at hlt
      exact absurd hlt (Nat.not_lt_zero k)
  | expires hph =>
    refine ⟨nofun, fun o k hk => ?_, nofun⟩
    have hlinked := h.linked o k hk
    rw [Thread.live_pending hph] at hlinked
    exact hlinked
  | notified o k state rc l' hk hl hst =>
    refine ⟨fun ii hph => ?_, fun o' k' hk' => ?_, fun hw => ?_⟩
    · by_cases hp : th.phase = .pending
      · rw [if_pos hp] at hph
        cases hph
      · rw [if_neg hp] at hph
        obtain ⟨hle, -, hno⟩ := h.count ii hph
        exact ⟨hle, nofun, hno⟩
    · obtain ⟨hk', hne⟩ := (hl o' k').mp hk'
      obtain ⟨hlt, e', he', ho', hp'⟩ := h.linked o' k' hk'
      obtain ⟨-, e, he, ho, -⟩ := h.linked o k hk
      have hkk : k' ≠ k := by
        rintro rfl
        rw [he] at he'
        cases he'
        rw [ho] at ho'
        exact hne ⟨(Option.some.inj ho').symm, rfl⟩
      refine ⟨?_, e', (List.getElem?_modify_ne _ _ (Ne.symm hkk)).trans he', ho', hp'⟩
      by_cases hp : th.phase = .pending
      · rw [Thread.live, hp] at hlt
        simpa only [Thread.live, if_pos hp] using hlt
      · simpa only [Thread.live, if_neg hp] using hlt
    · exfalso
      by_cases hp : th.phase = .pending
      · simp only [Thread.Waits, if_pos hp] at hw
      · simp only [Thread.Waits, if_neg hp] at hw
        split at hw
        · cases hw
        · exact absurd ‹_› hp
        · exact hw

end Invariant

/-! ## Calls that will return 0 -/

/-- Whatever happens, the call returns 0. -/
def Thread.Bound (th : Thread O T) : Prop :=
  match th.phase with
  | .registering _ => th.isPolling = false
  | .clearing _ rc => rc = 0
  | .idle | .pending => False

/-- The wait has ended with an error, and the registrations are not all removed. -/
def Thread.Lost (th : Thread O T) : Prop :=
  match th.phase with
  | .clearing _ rc => rc ≠ 0
  | _ => False

instance (th : Thread O T) : Decidable th.Bound := by
  unfold Thread.Bound
  split <;> infer_instance

instance (th : Thread O T) : Decidable th.Lost := by
  unfold Thread.Lost
  split <;> infer_instance

/-- The sections that a call that will return 0 has yet to go through. -/
def Thread.remaining (th : Thread O T) : Nat :=
  match th.phase with
  | .registering ii => th.events.length - ii + th.eventsRegistered + 1
  | .clearing n _ => n + 1
  | .idle | .pending => 0

/-- A call of the thread has `o` among its events. -/
def Thread.Polls (th : Thread O T) (o : O) : Prop := th.phase ≠ .idle ∧ some o ∈ th.events.map Event.obj

instance (th : Thread O T) (o : O) : Decidable (th.Polls o) := inferInstanceAs (Decidable (_ ∧ _))

/-- The thread is blocked in a call that has registered an event of `o`. -/
def Thread.Blocked (th : Thread O T) (o : O) : Prop :=
  th.phase = .pending ∧ some o ∈ (th.events.take th.eventsRegistered).map Event.obj

instance (th : Thread O T) (o : O) : Decidable (th.Blocked o) := inferInstanceAs (Decidable (_ ∧ _))

section Bound
variable {t : T} {th th' : Thread O T} {l l' : O → Nat → Prop}

section
variable (hb : th.Bound)
include hb
omit dO dT

theorem Thread.Bound.not_pending : th.phase ≠ .pending := by
  intro hp
  rw [Thread.Bound, hp] at hb
  exact hb

theorem Thread.Bound.not_polling (hph : th.phase = .registering ii) : th.isPolling = false := by
  rw [Thread.Bound, hph] at hb
  exact hb

theorem Thread.Bound.clears (hc : th.Clears n rc) : rc = 0 ∧ th.remaining = n + 1 := by
  rcases hc with hph | ⟨ii, hph, hnone, -, hn, hrc⟩
  · rw [Thread.Bound, hph] at hb
    exact ⟨hb, by rw [Thread.remaining, hph]⟩
  · refine ⟨hrc, ?_⟩
    have := List.getElem?_eq_none_iff.mp hnone
    rw [Thread.remaining, hph]
    change th.events.length - ii + th.eventsRegistered + 1 = n + 1
    omega

theorem Thread.Bound.remaining_pos : 0 < th.remaining := by
  rw [Thread.Bound] at hb
  rw [Thread.remaining]
  cases hph : th.phase with
  | registering ii => exact Nat.succ_pos _
  | clearing n rc => exact Nat.succ_pos n
  | idle | pending =>
    rw [hph] at hb
    exact hb.elim

theorem Thread.Bound.of_section (hs : Section t th l th' l') :
    th'.Bound ∧ th'.remaining + 1 = th.remaining ∧ th'.results = th.results ∨
      th.remaining = 1 ∧ th'.results = 0 :: th.results := by
  cases hs with
  | met ii e state hph he hst =>
    refine .inl ⟨rfl, ?_, rfl⟩
    obtain ⟨hlt, -⟩ := List.getElem?_eq_some_iff.mp he
    rw [Thread.remaining, Thread.remaining, hph]
    change (th.events.modify ii _).length - (ii + 1) + th.eventsRegistered + 1 + 1 =
      th.events.length - ii + th.eventsRegistered + 1
    rw [List.length_modify]
    omega
  | registered ii e l' hph he hwait hpoll hl =>
    rw [hb.not_polling hph] at hpoll
    cases hpoll
  | passed ii hph hlt hno =>
    refine .inl ⟨hb.not_polling hph, ?_, rfl⟩
    rw [Thread.remaining, Thread.remaining, hph]
    change th.events.length - (ii + 1) + th.eventsRegistered + 1 + 1 =
      th.events.length - ii + th.eventsRegistered + 1
    omega
  | blocks ii hph hpoll hwait =>
    rw [hb.not_polling hph] at hpoll
    cases hpoll
  | again ii hph hpoll hwait =>
    rw [hb.not_polling hph] at hpoll
    cases hpoll
  | clears k rc l' hc hl =>
    obtain ⟨hrc, hrem⟩ := hb.clears hc
    exact .inl ⟨hrc, hrem.symm, rfl⟩
  | returns rc hc =>
    obtain ⟨hrc, hrem⟩ := hb.clears hc
    refine .inr ⟨hrem, ?_⟩
    rw [hrc]

theorem Thread.Bound.of_turn (ht : Turn t th l th' l') :
    th'.Bound ∧ th'.remaining = th.remaining ∧ th'.results = th.results := by
  cases ht with
  | kept prio => exact ⟨hb, rfl, rfl⟩
  | starts events timeout hph hnew =>
    rw [Thread.Bound, hph] at hb
    exact hb.elim
  | expires hph => exact absurd hph hb.not_pending
  | notified o k state rc l' hk hl hst =>
    rw [if_neg hb.not_pending]
    refine ⟨?_, ?_, rfl⟩
    · rw [Thread.Bound] at hb ⊢
      cases hph : th.phase with
      | registering ii => rfl
      | idle | pending | clearing n rc =>
        rw [hph] at hb
        exact hb
    · simp only [Thread.remaining, List.length_modify]

end

omit dO dT in
theorem Thread.Ok.bound_of_notified (h : th.Ok t l) {o : O} (hk : l o k) (hlost : ¬th.Lost) :
    Thread.Bound
      { th with
        phase := if th.phase = .pending then .clearing th.eventsRegistered 0 else th.phase
        isPolling := false
        events := th.events.modify k (Event.ready state) } := by
  have hlt := (h.linked o k hk).1
  by_cases hp : th.phase = .pending
  · rw [if_pos hp]
    rfl
  · rw [if_neg hp]
    rw [Thread.Lost] at hlost
    cases hph : th.phase with
    | idle =>
      rw [Thread.live, hph] at hlt
      exact absurd hlt (Nat.not_lt_zero k)
    | registering ii => rfl
    | pending => exact hp hph
    | clearing n rc =>
      rw [hph] at hlost
      exact not_not.mp hlost

end Bound

/-! ## The functions -/

section Functions
variable (s : State O T)

section
omit dO

@[simp] theorem updateThread_self (t : T) (f : Thread O T → Thread O T) :
    (s.updateThread t f).thread t = f (s.thread t) := update_self ..

@[simp] theorem updateThread_ne (h : u ≠ t) (f : Thread O T → Thread O T) :
    (s.updateThread t f).thread u = s.thread u := update_of_ne h ..

@[simp] theorem updateThread_obj (t : T) (f : Thread O T → Thread O T) : (s.updateThread t f).obj = s.obj := rfl

@[simp] theorem updateThread_links (t : T) (f : Thread O T → Thread O T) : (s.updateThread t f).links = s.links := rfl

end

section
omit dT

@[simp] theorem updateObj_self (o : O) (f : Obj T → Obj T) : (s.updateObj o f).obj o = f (s.obj o) :=
  update_self ..

@[simp] theorem updateObj_ne {o o' : O} (h : o' ≠ o) (f : Obj T → Obj T) : (s.updateObj o f).obj o' = s.obj o' :=
  update_of_ne h ..

@[simp] theorem updateObj_thread (o : O) (f : Obj T → Obj T) : (s.updateObj o f).thread = s.thread := rfl

end

omit dO dT in
theorem addEvent_perm (events : List (T × Nat)) (event : T × Nat) :
    (addEvent s events event).Perm (event :: events) := by
  unfold addEvent
  split
  · exact List.perm_append_singleton event events
  · split
    · exact List.perm_append_singleton event events
    · refine List.perm_middle.trans (List.Perm.cons event ?_)
      rw [List.takeWhile_append_dropWhile]

end Functions

/-- No thread but `t` changes, and no links but its own. -/
structure Only (t : T) (s s' : State O T) : Prop where
  thread : ∀ u, u ≠ t → s'.thread u = s.thread u
  links : ∀ u, u ≠ t → ∀ o k, s'.links u o k ↔ s.links u o k
  nodup : (∀ o, (s.obj o).pollEvents.Nodup) → ∀ o, (s'.obj o).pollEvents.Nodup

section Only
variable {t : T} {s s' s'' : State O T}

omit dO dT in
theorem Only.trans (h : Only t s s') (h' : Only t s' s'') : Only t s s'' where
  thread u hu := (h'.thread u hu).trans (h.thread u hu)
  links u hu o k := (h'.links u hu o k).trans (h.links u hu o k)
  nodup hn := h'.nodup (h.nodup hn)

omit dO in
theorem Only.updateThread (f : Thread O T → Thread O T) : Only t s (s.updateThread t f) where
  thread _ hu := updateThread_ne s hu f
  links _ _ _ _ := Iff.rfl
  nodup hn := hn

theorem clearEventRegistration_links (k : Nat) (hn : ∀ o, (s.obj o).pollEvents.Nodup) (u : T) (o : O) (j : Nat) :
    (clearEventRegistration s t k).links u o j ↔
      s.links u o j ∧ ¬(u = t ∧ j = k ∧ ((s.thread t).events[k]?.bind Event.obj) = some o) := by
  unfold clearEventRegistration State.links
  cases hobj : ((s.thread t).events[k]?).bind Event.obj with
  | none => simp
  | some o' =>
    by_cases ho : o = o'
    · subst ho
      simp [(hn o).mem_erase_iff, Prod.mk.injEq, and_comm]
    · simp [ho, Ne.symm ho]

theorem clearEventRegistration_self (k : Nat) :
    (clearEventRegistration s t k).thread t =
      { s.thread t with events := (s.thread t).events.modify k Event.cleared } := by
  unfold clearEventRegistration
  cases ((s.thread t).events[k]?).bind Event.obj <;> simp <;> rfl

theorem clearEventRegistration_only (k : Nat) (hn : ∀ o, (s.obj o).pollEvents.Nodup) :
    Only t s (clearEventRegistration s t k) where
  thread u hu := by
    unfold clearEventRegistration
    cases ((s.thread t).events[k]?).bind Event.obj <;> simp [hu]
  links u hu o j := by
    rw [clearEventRegistration_links k hn]
    exact and_iff_left fun h => hu h.1
  nodup _ o := by
    unfold clearEventRegistration
    cases ((s.thread t).events[k]?).bind Event.obj with
    | none => exact hn o
    | some o' =>
      by_cases ho : o = o'
      · subst ho
        simpa using (hn o).erase _
      · simpa [ho] using hn o

theorem registerEvent_links (ii : Nat) (e : Event O T) (u : T) (o : O) (j : Nat) :
    (registerEvent s t ii e).links u o j ↔ s.links u o j ∨ u = t ∧ e.obj = some o ∧ j = ii := by
  unfold registerEvent State.links
  cases hobj : e.obj with
  | none => simp
  | some o' =>
    by_cases ho : o = o'
    · subst ho
      simp [(addEvent_perm s _ _).mem_iff, or_comm]
    · simp [ho, Ne.symm ho]

theorem registerEvent_self (ii : Nat) (e : Event O T) :
    (registerEvent s t ii e).thread t =
      { s.thread t with events := (s.thread t).events.modify ii (Event.polled t) } := by
  unfold registerEvent
  cases e.obj <;> simp <;> rfl

theorem registerEvent_only (ii : Nat) (e : Event O T) (hnew : ∀ o, ¬s.links t o ii) :
    Only t s (registerEvent s t ii e) where
  thread u hu := by
    unfold registerEvent
    cases e.obj <;> simp [hu]
  links u hu o j := by
    rw [registerEvent_links]
    exact or_iff_left fun h => hu h.1
  nodup hn o := by
    unfold registerEvent
    cases e.obj with
    | none => exact hn o
    | some o' =>
      by_cases ho : o = o'
      · subst ho
        simpa using ((addEvent_perm s _ _).nodup_iff).mpr (List.nodup_cons.mpr ⟨hnew o, hn o⟩)
      · simpa [ho] using hn o

end Only

/-! ## The steps -/

structure Inv (s : State O T) : Prop where
  nodup : ∀ o, (s.obj o).pollEvents.Nodup
  ok : ∀ t, (s.thread t).Ok t (s.links t)

section Steps
variable {s s' s₁ : State O T}

section
omit dO dT

theorem links_eq (h : ∀ o k, s'.links t o k ↔ s.links t o k) : s'.links t = s.links t :=
  funext₂ fun o k => propext (h o k)

theorem Turn.rest (hth : s'.thread t = s.thread t) (hl : ∀ o k, s'.links t o k ↔ s.links t o k) :
    Turn t (s.thread t) (s.links t) (s'.thread t) (s'.links t) := by
  rw [hth, links_eq hl]
  exact .kept (s.thread t).prio

theorem Only.turn (h : Only t s s') (hu : u ≠ t) : Turn u (s.thread u) (s.links u) (s'.thread u) (s'.links u) :=
  Turn.rest (h.thread u hu) (h.links u hu)

theorem readyState_ne_zero {e : Event O T} (h : isConditionMet s e = true) : readyState s e ≠ 0 := by
  unfold isConditionMet at h
  unfold readyState
  cases ho : e.obj with
  | none =>
    rw [ho] at h
    cases h
  | some o =>
    change (s.obj o).kind.ready ≠ 0
    cases (s.obj o).kind with
    | sem | queue | msgq | signal => exact nofun

end

theorem registerEvents_step (h : Inv s) {e : Event O T}
    (hph : (s.thread t).phase = .registering ii) (he : (s.thread t).events[ii]? = some e) :
    Only t s (registerEvents s t ii e) ∧
      Section t (s.thread t) (s.links t) ((registerEvents s t ii e).thread t) ((registerEvents s t ii e).links t) := by
  unfold registerEvents
  by_cases hmet : isConditionMet s e = true
  · rw [if_pos hmet]
    refine ⟨((Only.updateThread _).trans (Only.updateThread _)).trans (Only.updateThread _), ?_⟩
    simp only [updateThread_self, updateThread_links, setEventReady]
    exact .met ii e (readyState s e) hph he (readyState_ne_zero hmet)
  · rw [if_neg hmet]
    by_cases hreg : (s.thread t).timeout ≠ .noWait ∧ (s.thread t).isPolling = true
    · rw [if_pos hreg]
      have hnew : ∀ o, ¬s.links t o ii := fun o hl => by
        have hlt := ((h.ok t).linked o ii hl).1
        rw [Thread.live_registering hph] at hlt
        exact absurd hlt (Nat.not_lt.mpr ((h.ok t).count ii hph).1)
      refine ⟨((registerEvent_only ii e hnew).trans (Only.updateThread _)).trans (Only.updateThread _), ?_⟩
      simp only [updateThread_self, updateThread_links, registerEvent_self]
      refine .registered ii e _ hph he hreg.1 hreg.2 fun o k => ?_
      rw [registerEvent_links]
      exact or_congr_right (and_iff_right rfl)
    · rw [if_neg hreg]
      refine ⟨Only.updateThread _, ?_⟩
      simp only [updateThread_self, updateThread_links]
      exact .passed ii hph (List.getElem?_eq_some_iff.mp he).1 hreg

theorem clearEventRegistrations_step (h : Inv s) (hc : (s.thread t).Clears n rc) :
    Only t s (clearEventRegistrations s t n rc) ∧
      Section t (s.thread t) (s.links t) ((clearEventRegistrations s t n rc).thread t)
        ((clearEventRegistrations s t n rc).links t) := by
  unfold clearEventRegistrations
  cases n with
  | zero =>
    refine ⟨Only.updateThread _, ?_⟩
    simp only [returns, updateThread_self, updateThread_links]
    exact .returns rc hc
  | succ k =>
    refine ⟨(clearEventRegistration_only k h.nodup).trans (Only.updateThread _), ?_⟩
    simp only [updateThread_self, updateThread_links, clearEventRegistration_self]
    refine .clears k rc _ hc fun o j => ?_
    rw [clearEventRegistration_links k h.nodup]
    simp only [true_and]

theorem endOfRegistration_step (h : Inv s) (hph : (s.thread t).phase = .registering ii)
    (he : (s.thread t).events[ii]? = none) :
    Only t s (endOfRegistration s t) ∧
      Section t (s.thread t) (s.links t) ((endOfRegistration s t).thread t) ((endOfRegistration s t).links t) := by
  unfold endOfRegistration
  cases hpoll : (s.thread t).isPolling with
  | false =>
    exact clearEventRegistrations_step h (.inr ⟨ii, hph, he, hpoll, rfl, rfl⟩)
  | true =>
    rw [if_neg (nofun : true ≠ false)]
    simp only [updateThread_self]
    by_cases hwait : (s.thread t).timeout = .noWait
    · rw [if_pos hwait]
      refine ⟨(Only.updateThread _).trans (Only.updateThread _), ?_⟩
      simp only [returns, updateThread_self, updateThread_links]
      exact .again ii hph hpoll hwait
    · rw [if_neg hwait]
      refine ⟨(Only.updateThread _).trans (Only.updateThread _), ?_⟩
      simp only [updateThread_self, updateThread_links]
      exact .blocks ii hph hpoll hwait

theorem pollSection_step (h : Inv s) (hs : pollSection s t = .ok s') :
    Only t s s' ∧ Section t (s.thread t) (s.links t) (s'.thread t) (s'.links t) := by
  unfold pollSection at hs
  cases hph : (s.thread t).phase with
  | idle | pending =>
    rw [hph] at hs
    cases hs
  | registering ii =>
    rw [hph] at hs
    cases he : (s.thread t).events[ii]? with
    | some e =>
      simp only [he] at hs
      cases hs
      exact registerEvents_step h hph he
    | none =>
      simp only [he] at hs
      cases hs
      exact endOfRegistration_step h hph he
  | clearing n rc =>
    rw [hph] at hs
    cases hs
    exact clearEventRegistrations_step h (.inl hph)

/-! ### Notifying -/

/-- The links and the threads are those of another state. -/
structure Same (s s' : State O T) : Prop where
  thread : s'.thread = s.thread
  pollEvents : ∀ o, (s'.obj o).pollEvents = (s.obj o).pollEvents

omit dO dT in
theorem Same.refl : Same s s := ⟨rfl, fun _ => rfl⟩

omit dT in
theorem Same.updateObj (o : O) {f : Obj T → Obj T} (hf : (f (s.obj o)).pollEvents = (s.obj o).pollEvents) :
    Same s (s.updateObj o f) := by
  refine ⟨rfl, fun o' => ?_⟩
  by_cases ho : o' = o
  · subst ho
    rw [updateObj_self, hf]
  · rw [updateObj_ne s ho]

omit dO dT in
theorem Same.links (h : Same s s') (t : T) (o : O) (k : Nat) : s'.links t o k ↔ s.links t o k := by
  rw [State.links, State.links, h.pollEvents]

omit dO dT in
theorem Same.inv (h : Same s s') (hs : Inv s) : Inv s' := by
  refine ⟨fun o => ?_, fun t => ?_⟩
  · rw [h.pollEvents]
    exact hs.nodup o
  · rw [h.thread, links_eq (h.links t)]
    exact hs.ok t

/-- The value that a thread wakes with. -/
def wakeValue (state : Nat) : Int := if state = K_POLL_STATE_CANCELLED then -EINTR else 0

/-- What the first thread that an operation finds registered gets. -/
def Thread.notified (th : Thread O T) (k state : Nat) : Thread O T :=
  { th with
    phase := if th.phase = .pending then .clearing th.eventsRegistered (wakeValue state) else th.phase
    isPolling := false
    events := th.events.modify k (Event.ready state) }

omit dO in
theorem signalPollEvent_eq (hpoller : ((s.thread t).events[k]?).bind Event.poller = some t) :
    (signalPollEvent s (t, k) state).obj = s.obj ∧
      (signalPollEvent s (t, k) state).thread = Function.update s.thread t ((s.thread t).notified k state) := by
  simp only [signalPollEvent, setEventReady, hpoller, signalPoller]
  by_cases hp : (s.thread t).phase = .pending
  · simp only [if_pos hp, State.updateThread, update_self, update_idem, Thread.notified]
    exact ⟨trivial, rfl⟩
  · simp only [if_neg hp, State.updateThread, update_self, update_idem, Thread.notified]
    exact ⟨trivial, rfl⟩

theorem zHandleObjPollEvents_cases (h : Inv s) (o : O) (state : Nat) :
    (s.obj o).pollEvents = [] ∧ zHandleObjPollEvents s o state = s ∨
      ∃ t k rest, (s.obj o).pollEvents = (t, k) :: rest ∧
        Only t s (zHandleObjPollEvents s o state) ∧
        (zHandleObjPollEvents s o state).thread t = (s.thread t).notified k state ∧
        ∀ o' k', (zHandleObjPollEvents s o state).links t o' k' ↔ s.links t o' k' ∧ ¬(o' = o ∧ k' = k) := by
  unfold zHandleObjPollEvents
  cases hevents : (s.obj o).pollEvents with
  | nil => exact .inl ⟨rfl, rfl⟩
  | cons event rest =>
    obtain ⟨t, k⟩ := event
    have hlink : s.links t o k := by
      rw [State.links, hevents]
      exact List.mem_cons_self
    have hpoller := (h.ok t).poller hlink
    have hnodup := h.nodup o
    rw [hevents, List.nodup_cons] at hnodup
    refine .inr ⟨t, k, rest, rfl, ?_⟩
    have hobj : (signalPollEvent (s.updateObj o fun obj => { obj with pollEvents := rest }) (t, k) state).obj =
        (s.updateObj o fun obj => { obj with pollEvents := rest }).obj :=
      (signalPollEvent_eq (s := s.updateObj o fun obj => { obj with pollEvents := rest }) hpoller).1
    have hthread : (signalPollEvent (s.updateObj o fun obj => { obj with pollEvents := rest }) (t, k) state).thread =
        Function.update s.thread t ((s.thread t).notified k state) :=
      (signalPollEvent_eq (s := s.updateObj o fun obj => { obj with pollEvents := rest }) hpoller).2
    have hlinks : ∀ u o' k',
        (signalPollEvent (s.updateObj o fun obj => { obj with pollEvents := rest }) (t, k) state).links u o' k' ↔
          s.links u o' k' ∧ ¬(o' = o ∧ (u, k') = (t, k)) := by
      intro u o' k'
      rw [State.links, hobj, State.links]
      by_cases ho : o' = o
      · subst ho
        rw [updateObj_self, hevents, List.mem_cons]
        by_cases hu : (u, k') = (t, k)
        · rw [hu]
          simp [hnodup.1]
        · simp [hu]
      · simp [ho]
    refine ⟨⟨fun u hu => ?_, fun u hu o' k' => ?_, fun _ o' => ?_⟩, ?_, fun o' k' => ?_⟩
    · rw [hthread, update_of_ne hu]
    · rw [hlinks]
      exact and_iff_left fun hc => hu (congrArg Prod.fst hc.2)
    · rw [hobj]
      by_cases ho : o' = o
      · subst ho
        rw [updateObj_self]
        exact hnodup.2
      · rw [updateObj_ne s ho]
        exact h.nodup o'
    · rw [hthread, update_self]
    · rw [hlinks]
      simp

/-! ### One operation -/

/-- What an operation comes to: a section, a change of one thread, or a change of objects, with or without a
notification. -/
inductive Effect (s : State O T) : Op O T → State O T → Prop
  | goesOn (t : T) (s' : State O T) (hs : pollSection s t = .ok s') : Effect s (.pollSection t) s'
  | alone (op : Op O T) (t : T) (f : Thread O T → Thread O T) (hop : ∀ u, op ≠ .pollSection u)
    (ht : Turn t (s.thread t) (s.links t) (f (s.thread t)) (s.links t)) : Effect s op (s.updateThread t f)
  | quiet (op : Op O T) (s₁ : State O T) (hop : ∀ u, op ≠ .pollSection u) (hsame : Same s s₁) : Effect s op s₁
  | notifies (op : Op O T) (s₁ : State O T) (o : O) (state : Nat) (hop : ∀ u, op ≠ .pollSection u)
    (hsame : Same s s₁) (hst : state ≠ 0) : Effect s op (zHandleObjPollEvents s₁ o state)

theorem zImplKSemGive_effect (o : O) (limit : Nat) : Effect s (.kSemGive o) (zImplKSemGive s o limit) := by
  unfold zImplKSemGive
  split
  · exact .quiet _ _ nofun (Same.updateObj o rfl)
  · exact .notifies _ _ o _ nofun (Same.updateObj o rfl) (by decide)

theorem queueInsert_effect (o : O) (allocated : Bool) :
    Effect s (.queueInsert o allocated) (queueInsert s o allocated) := by
  unfold queueInsert
  split
  · exact .quiet _ _ nofun (Same.updateObj o rfl)
  · split
    · exact .quiet _ _ nofun Same.refl
    · exact .notifies _ _ o _ nofun (Same.updateObj o rfl) (by decide)

theorem zImplKMsgqPut_effect (o : O) (maxMsgs : Nat) : Effect s (.kMsgqPut o) (zImplKMsgqPut s o maxMsgs) := by
  unfold zImplKMsgqPut
  split
  · split
    · exact .quiet _ _ nofun (Same.updateObj o rfl)
    · exact .notifies _ _ o _ nofun (Same.updateObj o rfl) (by decide)
  · exact .quiet _ _ nofun Same.refl

omit dT in
theorem take_same (o : O) : Same s (take s o) := by
  refine Same.updateObj o ?_
  cases (s.obj o).kind with
  | msgq maxMsgs =>
    simp only
    split <;> rfl
  | sem limit | queue | signal => rfl

theorem perform_effect {op : Op O T} (hs : perform s op = .ok s') : Effect s op s' := by
  unfold perform at hs
  cases op with
  | kPoll t objs timeout =>
    obtain ⟨hguard, ⟨⟩⟩ := ok_of_ite hs
    exact .alone _ t _ nofun (.starts _ timeout ‹_› (by simp))
  | pollSection t => exact .goesOn t s' hs
  | threadTimeout t =>
    simp only at hs
    split at hs
    · next hp =>
      cases hs
      exact .alone _ t _ nofun (.expires hp.1)
    · cases hs
  | kSemGive o =>
    simp only at hs
    split at hs <;> cases hs
    exact zImplKSemGive_effect o _
  | kSemReset o =>
    simp only at hs
    split at hs <;> cases hs
    exact .notifies _ _ o _ nofun (Same.updateObj o rfl) (by decide)
  | queueInsert o allocated =>
    simp only at hs
    split at hs <;> cases hs
    exact queueInsert_effect o allocated
  | kQueueAppendList o n =>
    simp only at hs
    split at hs
    · obtain ⟨-, ⟨⟩⟩ := ok_of_ite hs
      exact .notifies _ _ o _ nofun (Same.updateObj o rfl) (by decide)
    · cases hs
  | kQueueCancelWait o =>
    simp only at hs
    split at hs <;> cases hs
    exact .notifies _ _ o _ nofun (Same.updateObj o rfl) (by decide)
  | kMsgqPut o =>
    simp only at hs
    split at hs <;> cases hs
    exact zImplKMsgqPut_effect o _
  | kMsgqPurge o =>
    simp only at hs
    split at hs <;> cases hs
    exact .quiet _ _ nofun (Same.updateObj o rfl)
  | kPollSignalRaise o =>
    simp only at hs
    split at hs <;> cases hs
    exact .notifies _ _ o _ nofun (Same.updateObj o rfl) (by decide)
  | kPollSignalReset o =>
    simp only at hs
    split at hs <;> cases hs
    exact .quiet _ _ nofun (Same.updateObj o rfl)
  | take o =>
    obtain ⟨-, ⟨⟩⟩ := ok_of_ite hs
    exact .quiet _ _ nofun (take_same o)
  | wait o =>
    obtain ⟨-, ⟨⟩⟩ := ok_of_ite hs
    exact .quiet _ _ nofun (Same.updateObj o rfl)
  | leave o =>
    obtain ⟨-, ⟨⟩⟩ := ok_of_ite hs
    exact .quiet _ _ nofun (Same.updateObj o rfl)
  | kThreadPrioritySet t prio =>
    cases hs
    exact .alone _ t _ nofun (.kept prio)

theorem Effect.turn {op : Op O T} (he : Effect s op s') (h : Inv s) (t : T) :
    op = .pollSection t ∧ Section t (s.thread t) (s.links t) (s'.thread t) (s'.links t) ∨
      op ≠ .pollSection t ∧ Turn t (s.thread t) (s.links t) (s'.thread t) (s'.links t) := by
  cases he with
  | goesOn u s' hs =>
    obtain ⟨honly, hsec⟩ := pollSection_step h hs
    by_cases ht : t = u
    · subst ht
      exact .inl ⟨rfl, hsec⟩
    · refine .inr ⟨?_, honly.turn ht⟩
      rintro ⟨⟩
      exact ht rfl
  | alone op u f hop hturn =>
    refine .inr ⟨hop t, ?_⟩
    by_cases ht : t = u
    · subst ht
      rw [updateThread_self, updateThread_links]
      exact hturn
    · exact (Only.updateThread f).turn ht
  | quiet op s₁ hop hsame => exact .inr ⟨hop t, Turn.rest (congrFun hsame.thread t) (hsame.links t)⟩
  | notifies op s₁ o state hop hsame hst =>
    refine .inr ⟨hop t, ?_⟩
    rcases zHandleObjPollEvents_cases (hsame.inv h) o state with ⟨-, heq⟩ | ⟨u, k, rest, hlist, honly, hth, hl⟩
    · rw [heq]
      exact Turn.rest (congrFun hsame.thread t) (hsame.links t)
    · by_cases ht : t = u
      · subst ht
        rw [hth, hsame.thread]
        refine .notified o k state _ _ ?_ (fun o' k' => ?_) hst
        · refine (hsame.links t o k).mp ?_
          rw [State.links, hlist]
          exact List.mem_cons_self
        · rw [hl, hsame.links]
      · have hrest := honly.turn ht
        rw [hsame.thread, links_eq (hsame.links t)] at hrest
        exact hrest

theorem Effect.nodup {op : Op O T} (he : Effect s op s') (h : Inv s) (o : O) : (s'.obj o).pollEvents.Nodup := by
  cases he with
  | goesOn u s' hs => exact (pollSection_step h hs).1.nodup h.nodup o
  | alone op u f hop hturn => exact h.nodup o
  | quiet op s₁ hop hsame => exact (hsame.inv h).nodup o
  | notifies op s₁ o' state hop hsame hst =>
    rcases zHandleObjPollEvents_cases (hsame.inv h) o' state with ⟨-, heq⟩ | ⟨u, k, rest, -, honly, -, -⟩
    · rw [heq]
      exact (hsame.inv h).nodup o
    · exact honly.nodup (hsame.inv h).nodup o

theorem perform_inv {op : Op O T} (h : Inv s) (hs : perform s op = .ok s') : Inv s' := by
  refine ⟨(perform_effect hs).nodup h, fun t => ?_⟩
  rcases (perform_effect hs).turn h t with ⟨-, hsec⟩ | ⟨-, hturn⟩
  · exact (h.ok t).of_section hsec
  · exact (h.ok t).of_turn hturn

omit dO dT in
theorem initial_inv (kind : O → Kind) (prio : T → Int) : Inv (initial kind prio) :=
  ⟨fun _ => List.nodup_nil, fun _ => ⟨nofun, fun _ _ hk => absurd hk List.not_mem_nil, fun hw => hw.elim⟩⟩

theorem run_inv_of_reachable {kind : O → Kind} {prio : T → Int} {ops : List (Op O T)}
    (hr : run perform (initial kind prio) ops = .ok s) : Inv s :=
  run_inv (fun _ _ _ h _ hs => perform_inv h hs) (initial_inv kind prio)
    (Along.of_all (p := fun _ _ => True) (fun _ _ => trivial) _) hr

end Steps

/-! ## What calls return -/

/-- From this state on, in whatever order, the thread is not blocked until it has gone through some number of
sections, and then its call has returned 0. -/
def ReturnsZero (s : State O T) (t : T) : Prop :=
  ∃ n, ∀ later s', run perform s later = .ok s' →
    (later.count (.pollSection t) < n → ∃ s'', perform s' (.pollSection t) = .ok s'') ∧
    (n ≤ later.count (.pollSection t) → ∃ l, (s'.thread t).results = l ++ 0 :: (s.thread t).results)

section Returns
variable {s s' : State O T} {t : T} {op : Op O T}

omit dO dT in
theorem Section.results (hs : Section t th l th' l') : ∃ r, th'.results = r ++ th.results := by
  cases hs with
  | met | registered | passed | blocks | clears => exact ⟨[], rfl⟩
  | again => exact ⟨[-EAGAIN], rfl⟩
  | returns rc => exact ⟨[rc], rfl⟩

omit dO dT in
theorem Turn.results (ht : Turn t th l th' l') : th'.results = th.results := by
  cases ht <;> rfl

theorem results_grow (h : Inv s) {later : List (Op O T)} (hr : run perform s later = .ok s') (t : T) :
    ∃ l, (s'.thread t).results = l ++ (s.thread t).results := by
  induction later generalizing s with
  | nil =>
    cases hr
    exact ⟨[], rfl⟩
  | cons op later ih =>
    obtain ⟨s₁, hs, hr⟩ := bind_eq_ok hr
    obtain ⟨l, hl⟩ := ih (perform_inv h hs) hr
    have hstep : ∃ r, (s₁.thread t).results = r ++ (s.thread t).results := by
      rcases (perform_effect hs).turn h t with ⟨-, hsec⟩ | ⟨-, hturn⟩
      · exact hsec.results
      · exact ⟨[], hturn.results⟩
    obtain ⟨r, hres⟩ := hstep
    exact ⟨l ++ r, by rw [hl, hres, List.append_assoc]⟩

theorem Thread.Bound.goesOn (hb : (s.thread t).Bound) : ∃ s', perform s (.pollSection t) = .ok s' := by
  change ∃ s', pollSection s t = .ok s'
  rw [Thread.Bound] at hb
  unfold pollSection
  cases hph : (s.thread t).phase with
  | idle | pending =>
    rw [hph] at hb
    exact hb.elim
  | registering ii =>
    simp only
    cases (s.thread t).events[ii]? with
    | some e => exact ⟨_, rfl⟩
    | none => exact ⟨_, rfl⟩
  | clearing n rc => exact ⟨_, rfl⟩

theorem Thread.Bound.of_run (h : Inv s) (hb : (s.thread t).Bound) {later : List (Op O T)}
    (hr : run perform s later = .ok s') :
    (later.count (.pollSection t) < (s.thread t).remaining → (s'.thread t).Bound) ∧
      ((s.thread t).remaining ≤ later.count (.pollSection t) →
        ∃ l, (s'.thread t).results = l ++ 0 :: (s.thread t).results) := by
  induction later generalizing s with
  | nil =>
    cases hr
    refine ⟨fun _ => hb, fun hle => ?_⟩
    exact absurd hle (Nat.not_le.mpr hb.remaining_pos)
  | cons op later ih =>
    obtain ⟨s₁, hs, hr₁⟩ := bind_eq_ok hr
    have h₁ := perform_inv h hs
    rcases (perform_effect hs).turn h t with ⟨rfl, hsec⟩ | ⟨hop, hturn⟩
    · rw [List.count_cons_self]
      rcases hb.of_section hsec with ⟨hb₁, hrem, hres⟩ | ⟨hrem, hres⟩
      · obtain ⟨hlt, hle⟩ := ih h₁ hb₁ hr₁
        rw [hres] at hle
        exact ⟨fun hc => hlt (by omega), fun hc => hle (by omega)⟩
      · refine ⟨fun hc => by omega, fun _ => ?_⟩
        obtain ⟨l, hl⟩ := results_grow h₁ hr₁ t
        exact ⟨l, by rw [hl, hres]⟩
    · rw [List.count_cons_of_ne hop]
      obtain ⟨hb₁, hrem, hres⟩ := hb.of_turn hturn
      rw [← hrem, ← hres]
      exact ih h₁ hb₁ hr₁

theorem Thread.Bound.returnsZero (h : Inv s) (hb : (s.thread t).Bound) : ReturnsZero s t := by
  refine ⟨(s.thread t).remaining, fun later s' hr => ?_⟩
  obtain ⟨hlt, hle⟩ := hb.of_run h hr
  exact ⟨fun hc => (hlt hc).goesOn, hle⟩

/-! ### Calls that may return something else -/

/-- In some run the thread comes to where it makes no section, and its call has not returned 0. -/
def Escapes (s : State O T) (t : T) : Prop :=
  ∃ later s', run perform s later = .ok s' ∧ perform s' (.pollSection t) = .error .refused ∧
    ∀ l, (s'.thread t).results ≠ l ++ 0 :: (s.thread t).results

theorem Escapes.not_returnsZero (h : Escapes s t) : ¬ReturnsZero s t := by
  rintro ⟨n, hn⟩
  obtain ⟨later, s', hr, hstop, hres⟩ := h
  obtain ⟨hlt, hle⟩ := hn later s' hr
  by_cases hc : later.count (.pollSection t) < n
  · obtain ⟨s'', hs''⟩ := hlt hc
    rw [hstop] at hs''
    cases hs''
  · obtain ⟨l, hl⟩ := hle (Nat.not_lt.mp hc)
    exact hres l hl

theorem Escapes.step (hs : perform s op = .ok s') (hres : (s'.thread t).results = (s.thread t).results)
    (h : Escapes s' t) : Escapes s t := by
  obtain ⟨later, s'', hr, hstop, hno⟩ := h
  refine ⟨op :: later, s'', (run_cons hs).trans hr, hstop, ?_⟩
  rw [← hres]
  exact hno

theorem ne_append_cons {α : Type} (a : α) (xs l : List α) : xs ≠ l ++ a :: xs := by
  intro heq
  have := congrArg List.length heq
  rw [List.length_append, List.length_cons] at this
  omega

theorem Escapes.of_pending (hph : (s.thread t).phase = .pending) : Escapes s t := by
  refine ⟨[], s, rfl, ?_, ne_append_cons 0 _⟩
  change pollSection s t = _
  unfold pollSection
  rw [hph]

theorem cons_ne_append_cons {α : Type} {a b : α} (h : b ≠ a) (xs l : List α) : b :: xs ≠ l ++ a :: xs := by
  cases l with
  | nil =>
    rintro ⟨⟩
    exact h rfl
  | cons c l =>
    intro heq
    exact ne_append_cons a xs l (List.cons.inj heq).2

theorem pollSection_idle (hph : (s.thread t).phase = .idle) : perform s (.pollSection t) = .error .refused := by
  change pollSection s t = _
  unfold pollSection
  rw [hph]

theorem Escapes.of_clearing (hph : (s.thread t).phase = .clearing n rc) (hrc : rc ≠ 0) : Escapes s t := by
  have hs : ∀ {s : State O T} {n : Nat}, (s.thread t).phase = .clearing n rc →
      perform s (.pollSection t) = .ok (clearEventRegistrations s t n rc) := by
    intro s n hph
    change pollSection s t = _
    unfold pollSection
    rw [hph]
  induction n generalizing s with
  | zero =>
    refine ⟨[.pollSection t], _, run_cons (hs hph), pollSection_idle ?_, ?_⟩
    · simp only [clearEventRegistrations, returns, updateThread_self]
    · simp only [clearEventRegistrations, returns, updateThread_self]
      exact cons_ne_append_cons hrc _
  | succ k ih =>
    refine Escapes.step (hs hph) ?_ (ih ?_)
    · simp only [clearEventRegistrations, updateThread_self, clearEventRegistration_self]
    · simp only [clearEventRegistrations, updateThread_self]

/-! A thread that has found no condition met goes on to block when what is there is taken before it looks. -/

omit dO dT in
theorem isConditionMet_congr {e e' : Event O T} (ho : e'.obj = e.obj)
    (ha : ∀ o, (s'.obj o).avail = (s.obj o).avail) : isConditionMet s' e' = isConditionMet s e := by
  unfold isConditionMet
  rw [ho]
  cases e.obj with
  | none => rfl
  | some o =>
    simp only
    rw [ha]

theorem registerEvent_avail (ii : Nat) (e : Event O T) (o : O) :
    ((registerEvent s t ii e).obj o).avail = (s.obj o).avail := by
  unfold registerEvent
  cases e.obj with
  | none => rfl
  | some o' =>
    by_cases ho : o = o'
    · subst ho
      simp
    · simp [ho]

theorem Escapes.of_unmet (hph : (s.thread t).phase = .registering ii) (hpoll : (s.thread t).isPolling = true)
    (hno : ∀ e ∈ (s.thread t).events, isConditionMet s e = false) : Escapes s t := by
  generalize hm : (s.thread t).events.length - ii = m
  induction m generalizing s ii with
  | zero =>
    have hnone := List.getElem?_eq_none_iff.mpr (Nat.sub_eq_zero_iff_le.mp hm)
    have hs : perform s (.pollSection t) = .ok (endOfRegistration s t) := by
      change pollSection s t = _
      simp only [pollSection, hph, hnone]
    simp only [endOfRegistration, hpoll, Bool.true_eq_false, if_false, updateThread_self] at hs
    by_cases hwait : (s.thread t).timeout = .noWait
    · rw [if_pos hwait] at hs
      refine ⟨[.pollSection t], _, run_cons hs, pollSection_idle ?_, ?_⟩
      · simp only [returns, updateThread_self]
      · simp only [returns, updateThread_self]
        exact cons_ne_append_cons (by decide) _
    · rw [if_neg hwait] at hs
      refine Escapes.step hs ?_ (Escapes.of_pending ?_)
      · simp only [updateThread_self]
      · simp only [updateThread_self]
  | succ m ih =>
    have hlt : ii < (s.thread t).events.length := by omega
    have he := List.getElem?_eq_getElem hlt
    have hs : perform s (.pollSection t) = .ok (registerEvents s t ii (s.thread t).events[ii]) := by
      change pollSection s t = _
      simp only [pollSection, hph, he]
    rw [registerEvents, hno _ (List.getElem_mem hlt), if_neg (nofun : false ≠ true)] at hs
    by_cases hwait : (s.thread t).timeout ≠ .noWait ∧ (s.thread t).isPolling = true
    · rw [if_pos hwait] at hs
      refine Escapes.step hs ?_ (@ih (ii + 1) _ ?_ ?_ ?_ ?_)
      · simp only [updateThread_self, registerEvent_self]
      · simp only [updateThread_self]
      · simp only [updateThread_self, registerEvent_self]
        exact hpoll
      · simp only [updateThread_self, registerEvent_self]
        intro e he'
        obtain ⟨j, hj⟩ := List.getElem?_of_mem he'
        obtain ⟨e₀, he₀, ho⟩ := obj_of_modify (f := Event.polled t) (fun _ => rfl) hj
        refine (isConditionMet_congr (s := s) ho.symm fun o => ?_).trans (hno e₀ (List.mem_of_getElem? he₀))
        exact registerEvent_avail ii _ o
      · simp only [updateThread_self, registerEvent_self, List.length_modify]
        omega
    · rw [if_neg hwait] at hs
      refine Escapes.step hs ?_ (@ih (ii + 1) _ ?_ ?_ ?_ ?_)
      · simp only [updateThread_self]
      · simp only [updateThread_self]
      · simp only [updateThread_self]
        exact hpoll
      · simp only [updateThread_self]
        exact fun e he' => (isConditionMet_congr (s := s) rfl fun _ => rfl).trans (hno e he')
      · simp only [updateThread_self]
        omega

theorem exists_taken (s : State O T) (o : O) :
    ∃ later s', run perform s later = .ok s' ∧ s'.thread = s.thread ∧ (s'.obj o).avail = 0 ∧
      ∀ o', o' ≠ o → (s'.obj o').avail = (s.obj o').avail := by
  by_cases hmsgq : ∃ maxMsgs, (s.obj o).kind = .msgq maxMsgs
  · obtain ⟨maxMsgs, hk⟩ := hmsgq
    have hs : perform s (.kMsgqPurge o) = .ok (s.updateObj o fun obj => { obj with waiting := 0, avail := 0 }) := by
      simp only [perform, hk]
    refine ⟨[.kMsgqPurge o], _, run_cons hs, rfl, ?_, fun o' ho => ?_⟩
    · rw [updateObj_self]
    · rw [updateObj_ne s ho]
  by_cases hsignal : (s.obj o).kind = .signal
  · have hs : perform s (.kPollSignalReset o) = .ok (s.updateObj o fun obj => { obj with avail := 0 }) := by
      simp only [perform, hsignal]
    refine ⟨[.kPollSignalReset o], _, run_cons hs, rfl, ?_, fun o' ho => ?_⟩
    · rw [updateObj_self]
    · rw [updateObj_ne s ho]
  generalize hn : (s.obj o).avail = n
  induction n generalizing s with
  | zero => exact ⟨[], s, rfl, rfl, hn, fun _ _ => rfl⟩
  | succ n ih =>
    have htake : take s o = s.updateObj o fun obj => { obj with avail := obj.avail - 1 } := by
      rw [take, State.updateObj, State.updateObj]
      cases hk : (s.obj o).kind with
      | msgq maxMsgs => exact absurd ⟨maxMsgs, hk⟩ hmsgq
      | sem limit | queue | signal => rfl
    have hs : perform s (.take o) = .ok (s.updateObj o fun obj => { obj with avail := obj.avail - 1 }) := by
      rw [← htake, perform, if_pos ⟨hsignal, by omega⟩]
    obtain ⟨later, s', hr, hth, ha, hrest⟩ := ih (s.updateObj o fun obj => { obj with avail := obj.avail - 1 })
      (by rw [updateObj_self]; exact hmsgq) (by rw [updateObj_self]; exact hsignal)
      (by rw [updateObj_self]; change (s.obj o).avail - 1 = n; omega)
    refine ⟨.take o :: later, s', (run_cons hs).trans hr, hth, ha, fun o' ho => ?_⟩
    rw [hrest o' ho, updateObj_ne s ho]

theorem exists_all_taken (s : State O T) (os : List O) :
    ∃ later s', run perform s later = .ok s' ∧ s'.thread = s.thread ∧ (∀ o ∈ os, (s'.obj o).avail = 0) ∧
      ∀ o, (s.obj o).avail = 0 → (s'.obj o).avail = 0 := by
  induction os generalizing s with
  | nil => exact ⟨[], s, rfl, rfl, nofun, fun _ h => h⟩
  | cons o os ih =>
    obtain ⟨l₁, s₁, hr₁, hth₁, ho₁, hrest₁⟩ := exists_taken s o
    obtain ⟨l₂, s₂, hr₂, hth₂, hos₂, hkeep₂⟩ := ih s₁
    refine ⟨l₁ ++ l₂, s₂, (run_append hr₁).trans hr₂, hth₂.trans hth₁, fun o' ho' => ?_, fun o' ho' => ?_⟩
    · rcases List.mem_cons.mp ho' with rfl | ho'
      · exact hkeep₂ o' ho₁
      · exact hos₂ o' ho'
    · refine hkeep₂ o' ?_
      by_cases heq : o' = o
      · rw [heq]
        exact ho₁
      · rw [hrest₁ o' heq]
        exact ho'

theorem Escapes.of_polling (hph : (s.thread t).phase = .registering ii)
    (hpoll : (s.thread t).isPolling = true) : Escapes s t := by
  obtain ⟨later, s', hr, hth, ha, -⟩ := exists_all_taken s ((s.thread t).events.filterMap Event.obj)
  have hesc : Escapes s' t := by
    refine @Escapes.of_unmet O T _ _ ii s' t ?_ ?_ ?_
    · rw [hth]
      exact hph
    · rw [hth]
      exact hpoll
    · rw [hth]
      intro e he
      unfold isConditionMet
      cases ho : e.obj with
      | none => rfl
      | some o =>
        simp only
        rw [ha o (List.mem_filterMap.mpr ⟨e, he, ho⟩)]
        rfl
  obtain ⟨later', s'', hr', hstop, hres⟩ := hesc
  refine ⟨later ++ later', s'', (run_append hr).trans hr', hstop, ?_⟩
  rw [← hth]
  exact hres

theorem ReturnsZero.bound (hz : ReturnsZero s t) (hcall : (s.thread t).phase ≠ .idle) : (s.thread t).Bound := by
  by_contra hb
  refine Escapes.not_returnsZero ?_ hz
  rw [Thread.Bound] at hb
  cases hph : (s.thread t).phase with
  | idle => exact absurd hph hcall
  | registering ii =>
    simp only [hph, Bool.not_eq_false] at hb
    exact Escapes.of_polling hph hb
  | pending => exact Escapes.of_pending hph
  | clearing n rc =>
    simp only [hph] at hb
    exact Escapes.of_clearing hph hb

end Returns

/-! ## Operations that make a condition true -/

/-- The operations that make the condition of `o` true when no thread waits on `o` itself. -/
def Op.Signals (s : State O T) (o : O) : Op O T → Prop
  | .kSemGive o' | .kPollSignalRaise o' => o' = o
  | .queueInsert o' allocated => o' = o ∧ allocated = true
  | .kQueueAppendList o' _ => o' = o
  | .kMsgqPut o' => o' = o ∧ ∀ maxMsgs, (s.obj o).kind = .msgq maxMsgs → (s.obj o).avail < maxMsgs
  | _ => False

/-- The thread whose event the operation finds first is not one whose wait ended with an error, or another call
with `o` among its events is to return 0 already. -/
def Heard (s : State O T) (o : O) : Prop :=
  (∀ event ∈ (s.obj o).pollEvents.head?, ¬(s.thread event.1).Lost) ∨
    ∃ t, (s.thread t).Polls o ∧ (s.thread t).Bound

section Signals
variable {s s' : State O T} {op : Op O T} {o : O}

theorem Op.Signals.notifies (ho : op.Signals s o) (hw : (s.obj o).waiting = 0) (hs : perform s op = .ok s') :
    (∀ t, op ≠ .pollSection t) ∧ ∃ f state, s' = zHandleObjPollEvents (s.updateObj o f) o state ∧
      (f (s.obj o)).pollEvents = (s.obj o).pollEvents ∧ state ≠ K_POLL_STATE_CANCELLED ∧
      ((∀ limit, (s.obj o).kind = .sem limit → 0 < limit) → 0 < (f (s.obj o)).avail) := by
  unfold perform at hs
  cases op with
  | kSemGive o' =>
    obtain rfl : o' = o := ho
    refine ⟨nofun, ?_⟩
    simp only at hs
    split at hs
    · next limit hk =>
      cases hs
      refine ⟨_, _, by rw [zImplKSemGive, if_neg (by omega)], rfl, by decide, fun hl => ?_⟩
      have := hl limit hk
      simp only
      split <;> omega
    · cases hs
  | kPollSignalRaise o' =>
    obtain rfl : o' = o := ho
    refine ⟨nofun, ?_⟩
    simp only at hs
    split at hs <;> cases hs
    exact ⟨_, _, rfl, rfl, by decide, fun _ => Nat.one_pos⟩
  | queueInsert o' allocated =>
    obtain ⟨rfl, rfl⟩ := ho
    refine ⟨nofun, ?_⟩
    simp only at hs
    split at hs <;> cases hs
    exact ⟨_, _, by rw [Poll.queueInsert, if_neg (by omega), if_neg nofun], rfl, by decide, fun _ => Nat.succ_pos _⟩
  | kQueueAppendList o' n =>
    obtain rfl : o' = o := ho
    refine ⟨nofun, ?_⟩
    simp only at hs
    split at hs
    · obtain ⟨hguard, ⟨⟩⟩ := ok_of_ite hs
      refine ⟨_, _, rfl, rfl, by decide, fun _ => ?_⟩
      simp only
      omega
    · cases hs
  | kMsgqPut o' =>
    obtain ⟨rfl, hfull⟩ := ho
    refine ⟨nofun, ?_⟩
    simp only at hs
    split at hs
    · next maxMsgs hk =>
      cases hs
      exact ⟨_, _, by rw [zImplKMsgqPut, if_pos (hfull maxMsgs hk), if_neg (by omega)], rfl, by decide,
        fun _ => Nat.succ_pos _⟩
    · cases hs
  | kPoll | pollSection | threadTimeout | kSemReset | kQueueCancelWait | kMsgqPurge | kPollSignalReset | take | wait
  | leave | kThreadPrioritySet => exact ho.elim

section
omit dO dT

theorem Thread.Polls.of_turn (hp : th.Polls o)
    (ht : Turn t th l th' l') : th'.Polls o := by
  obtain ⟨hph, hmem⟩ := hp
  cases ht with
  | kept prio => exact ⟨hph, hmem⟩
  | starts events timeout hidle hnew => exact absurd hidle hph
  | expires hpend => exact ⟨nofun, hmem⟩
  | notified o' k state rc l' hk hl hst =>
    refine ⟨?_, ?_⟩
    · simp only
      split
      · nofun
      · exact hph
    · simp only
      rw [map_obj_modify (f := Event.ready state) fun _ => rfl]
      exact hmem

theorem Thread.Ok.polls (h : th.Ok t l) (hk : l o k) : th.Polls o := by
  obtain ⟨hlt, e, he, ho, -⟩ := h.linked o k hk
  refine ⟨fun hph => ?_, List.mem_map.mpr ⟨e, List.mem_of_getElem? he, ho⟩⟩
  rw [Thread.live, hph] at hlt
  exact Nat.not_lt_zero k hlt

theorem Thread.Lost.not_bound_notified (hl : th.Lost) : ¬(th.notified k state).Bound := by
  rw [Thread.Lost] at hl
  cases hph : th.phase with
  | clearing n rc =>
    rw [hph] at hl
    rw [Thread.Bound, Thread.notified, hph, if_neg nofun]
    exact hl
  | idle | registering | pending =>
    rw [hph] at hl
    exact hl.elim

theorem Thread.Blocked.linked (h : Inv s) {b : T} (hb : (s.thread b).Blocked o) : (s.obj o).pollEvents ≠ [] := by
  obtain ⟨hph, hmem⟩ := hb
  obtain ⟨e, he, ho⟩ := List.mem_map.mp hmem
  obtain ⟨k, hk⟩ := List.getElem?_of_mem he
  rw [List.getElem?_take] at hk
  obtain ⟨hlt, hk⟩ := Option.ite_none_right_eq_some.mp hk
  have hl := (h.ok b).registered (by rw [Thread.Waits, hph]; trivial) k hlt e o hk ho
  exact List.ne_nil_of_mem hl

end

/-- An operation that makes the condition of an object true, while a thread is blocked in `k_poll` with that object
among its events, lets some call with the object return 0, exactly when it is heard. -/
theorem notification_kept {kind : O → Kind} {prio : T → Int} {ops : List (Op O T)} {b : T}
    (hr : run perform (initial kind prio) ops = .ok s) (hs : perform s op = .ok s') (ho : op.Signals s o)
    (hw : (s.obj o).waiting = 0) (hb : (s.thread b).Blocked o) :
    (∃ t, (s'.thread t).Polls o ∧ ReturnsZero s' t) ↔ Heard s o := by
  have h := run_inv_of_reachable hr
  have h' := perform_inv h hs
  have heffect := perform_effect hs
  obtain ⟨hop, f, state, heq, hf, hstate, -⟩ := ho.notifies hw hs
  have hsame := Same.updateObj o hf
  rcases zHandleObjPollEvents_cases (hsame.inv h) o state with ⟨hnil, -⟩ | ⟨u, k, rest, hlist, honly, hu, -⟩
  · rw [hsame.pollEvents] at hnil
    exact absurd hnil (hb.linked h)
  rw [← heq, hsame.thread] at hu
  rw [← heq] at honly
  rw [hsame.pollEvents] at hlist
  constructor
  · rintro ⟨t, hpolls, hzero⟩
    have hbound := hzero.bound hpolls.1
    by_cases htu : t = u
    · subst htu
      refine .inl fun event hevent => ?_
      rw [hlist] at hevent
      obtain rfl : (t, k) = event := Option.some.inj hevent
      intro hlost
      rw [hu] at hbound
      exact hlost.not_bound_notified hbound
    · rw [honly.thread t htu, hsame.thread] at hpolls hbound
      exact .inr ⟨t, hpolls, hbound⟩
  · have hturn : ∀ t, Turn t (s.thread t) (s.links t) (s'.thread t) (s'.links t) := fun t =>
      ((heffect.turn h t).resolve_left fun hc => hop t hc.1).2
    rintro (hhead | ⟨t, hpolls, hbound⟩)
    · have hlink : s.links u o k := by
        rw [State.links, hlist]
        exact List.mem_cons_self
      have hbound : (s'.thread u).Bound := by
        rw [hu, Thread.notified, wakeValue, if_neg hstate]
        exact (h.ok u).bound_of_notified hlink (hhead (u, k) (by rw [hlist]; rfl))
      refine ⟨u, Thread.Polls.of_turn ?_ (hturn u), hbound.returnsZero h'⟩
      exact (h.ok u).polls hlink
    · exact ⟨t, hpolls.of_turn (hturn t), (hbound.of_turn (hturn t)).1.returnsZero h'⟩

end Signals

/-- Two threads block in `k_poll` on one semaphore, the first one for some ticks. -/
def bothBlocked : List (Op Unit Bool) :=
  [.kPoll false [some ()] .ticks, .pollSection false, .pollSection false,
    .kPoll true [some ()] .forever, .pollSection true, .pollSection true]

theorem notification_kept_two :
    ∃ s s' : State Unit Bool, run perform (initial (fun _ => .sem 1) fun _ => 0) bothBlocked = .ok s ∧
      perform s (.kSemGive ()) = .ok s' ∧ ∃ t, (s'.thread t).Polls () ∧ ReturnsZero s' t := by
  refine ⟨_, _, and_then rfl fun hr => and_then rfl fun hs => ?_⟩
  exact (notification_kept (o := ()) (b := true) hr hs rfl rfl (by decide)).mpr (.inl (by decide))

/-- The first of the two has timed out when the semaphore is given. Nobody learns of it. -/
theorem notification_lost :
    ∃ s s' : State Unit Bool,
      run perform (initial (fun _ => .sem 1) fun _ => 0) (bothBlocked ++ [.threadTimeout false]) = .ok s ∧
      perform s (.kSemGive ()) = .ok s' ∧ Op.Signals s () (.kSemGive ()) ∧ (s.obj ()).waiting = 0 ∧
      (s.obj ()).avail = 0 ∧ (s'.obj ()).avail = 1 ∧ (s.thread true).Blocked () ∧ (s'.thread true).Blocked () ∧
      ¬∃ t, (s'.thread t).Polls () ∧ ReturnsZero s' t := by
  refine ⟨_, _, rfl, rfl, rfl, rfl, rfl, rfl, by decide, by decide, ?_⟩
  rintro ⟨t, hpolls, hzero⟩
  exact absurd (hzero.bound hpolls.1) (by clear * - t; revert t; decide)

end RtosKernel.Zephyr.Poll
