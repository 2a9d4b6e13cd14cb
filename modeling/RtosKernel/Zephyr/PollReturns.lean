import RtosKernel.Zephyr.PollRuns

/-! # What `k_poll` leaves behind

An event that carries a poller is among those that the call has yet to clear, and a call that will return 0 has made
one of its events ready. -/

namespace RtosKernel.Zephyr.Poll
open Lib.Runs Function List

variable {O T : Type} [dO : DecidableEq O] [dT : DecidableEq T]
variable {k n state : Nat} {rc : Int}

/-- Some event of the call is ready. -/
def Thread.Ready (th : Thread O T) : Prop := ∃ e ∈ th.events, e.state ≠ K_POLL_STATE_NOT_READY

/-- The pollers and the states of the events of a call, and of the last call once it has returned. -/
structure Thread.Settles (th : Thread O T) : Prop where
  poller : ∀ k e, th.events[k]? = some e → e.poller ≠ none → k < th.live
  bound : th.Bound → th.Ready
  result : th.phase = .idle → th.results.head? = some 0 → th.Ready

section Settles
variable {t : T} {th th' : Thread O T} {l l' : O → Nat → Prop} {f : Event O T → Event O T}
omit dO dT

/-- An event with a poller, after one event was changed, is the changed one or was there before. -/
theorem poller_of_modify {xs : List (Event O T)} {j : Nat} {e : Event O T}
    (he : (xs.modify j f)[k]? = some e) (hp : e.poller ≠ none) :
    (k = j ∧ ∃ e₀, xs[k]? = some e₀ ∧ e = f e₀) ∨ k ≠ j ∧ xs[k]? = some e := by
  by_cases hk : k = j
  · subst hk
    rw [getElem?_modify_eq] at he
    obtain ⟨e₀, he₀, rfl⟩ := Option.map_eq_some_iff.mp he
    exact .inl ⟨rfl, e₀, he₀, rfl⟩
  · rw [getElem?_modify_ne f _ (Ne.symm hk)] at he
    exact .inr ⟨hk, he⟩

/-- Changing one event keeps the others' pollers, when that one is left without. -/
theorem Thread.Settles.poller_modify (h : th.Settles) {j : Nat}
    (hf : ∀ e, (f e).poller = none) {e : Event O T} (he : (th.events.modify j f)[k]? = some e)
    (hp : e.poller ≠ none) : k ≠ j ∧ k < th.live := by
  rcases poller_of_modify he hp with ⟨-, e₀, -, rfl⟩ | ⟨hk, he⟩
  · exact absurd (hf e₀) hp
  · exact ⟨hk, h.poller k e he hp⟩

/-- An event that is made ready stays in the array, and its state is not 0. -/
theorem ready_of_modify {xs : List (Event O T)} {j : Nat} {e : Event O T} (he : xs[j]? = some e)
    (hst : state ≠ 0) : ∃ e' ∈ xs.modify j (Event.ready state), e'.state ≠ K_POLL_STATE_NOT_READY := by
  refine ⟨e.ready state, mem_of_getElem? (i := j) ?_, fun hz => hst (Nat.or_eq_zero_iff.mp hz).2⟩
  rw [getElem?_modify_eq, he]
  rfl

/-- No event stops being ready within a call. -/
theorem Thread.Ready.modify (h : th.Ready) (hf : ∀ e, (f e).state = e.state) (j : Nat) :
    ∃ e ∈ th.events.modify j f, e.state ≠ K_POLL_STATE_NOT_READY := by
  obtain ⟨e, he, hst⟩ := h
  obtain ⟨i, hi⟩ := getElem?_of_mem he
  refine ⟨if j = i then f e else e, mem_of_getElem? (i := i) ?_, ?_⟩
  · rw [getElem?_modify, hi]
    rfl
  · split
    · rw [hf]
      exact hst
    · exact hst

theorem Thread.Clears.bound (hc : th.Clears n rc) (hrc : rc = 0) : th.Bound := by
  rcases hc with hph | ⟨ii, hph, -, hpoll, -, -⟩
  · rw [Thread.Bound, hph]
    exact hrc
  · rw [Thread.Bound, hph]
    exact hpoll

theorem Thread.Settles.of_section (hok : th.Ok t l) (h : th.Settles) (hs : Section t th l th' l') : th'.Settles := by
  cases hs with
  | met ii e state hph he hst =>
    refine ⟨fun k e' he' hp => ?_, fun _ => ready_of_modify he hst, by simp⟩
    have hlt := (h.poller_modify (fun _ => rfl) he' hp).2
    rw [Thread.live_registering hph] at hlt
    exact hlt
  | registered ii e l' hph he hwait hpoll hl =>
    refine ⟨fun k e' he' hp => ?_, fun hb => ?_, by simp⟩
    · rcases poller_of_modify he' hp with ⟨rfl, -⟩ | ⟨-, he'⟩
      · rw [(hok.count k hph).2.1 hpoll hwait]
        exact Nat.lt_succ_self k
      · have hlt := h.poller k e' he' hp
        rw [Thread.live_registering hph] at hlt
        exact Nat.lt_succ_of_lt hlt
    · cases hpoll.symm.trans (hb.not_polling rfl)
  | passed ii hph hlt hno =>
    refine ⟨fun k e' he' hp => ?_, fun hb => h.bound ?_, by simp⟩
    · have hlt := h.poller k e' he' hp
      rw [Thread.live_registering hph] at hlt
      exact hlt
    · rw [Thread.Bound, hph]
      exact hb.not_polling rfl
  | blocks ii hph hpoll hwait =>
    refine ⟨fun k e' he' hp => ?_, (fun hb => by cases hb), by simp⟩
    have hlt := h.poller k e' he' hp
    rw [Thread.live_registering hph] at hlt
    exact hlt
  | again ii hph hpoll hwait =>
    refine ⟨fun k e' he' hp => ?_, (fun hb => by cases hb), fun _ hz => by cases hz⟩
    have hlt := h.poller k e' he' hp
    rw [Thread.live_registering hph, (hok.count ii hph).2.2 hwait] at hlt
    exact absurd hlt (Nat.not_lt_zero k)
  | clears k rc l' hc hl =>
    refine ⟨fun j e' he' hp => ?_, fun hb => ?_, by simp⟩
    · obtain ⟨hj, hlt⟩ := h.poller_modify (fun _ => rfl) he' hp
      rw [hc.live] at hlt
      exact Nat.lt_of_le_of_ne (Nat.le_of_lt_succ hlt) hj
    · exact (h.bound (hc.bound hb)).modify (f := Event.cleared) (fun _ => rfl) k
  | returns rc hc =>
    refine ⟨fun k e' he' hp => ?_, (fun hb => by cases hb), fun _ hz => ?_⟩
    · have hlt := h.poller k e' he' hp
      rw [hc.live] at hlt
      exact absurd hlt (Nat.not_lt_zero k)
    · obtain rfl : rc = 0 := Option.some.inj hz
      exact h.bound (hc.bound rfl)

theorem Thread.Settles.of_turn (hok : th.Ok t l) (h : th.Settles) (ht : Turn t th l th' l') : th'.Settles := by
  cases ht with
  | kept prio => exact ⟨h.poller, h.bound, h.result⟩
  | starts events timeout hph hnew =>
    exact ⟨fun k e he hp => absurd (hnew e (mem_of_getElem? he)) hp, nofun, nofun⟩
  | expires hph =>
    refine ⟨fun k e he hp => ?_, (fun hb => by cases hb), nofun⟩
    have hlt := h.poller k e he hp
    rw [Thread.live_pending hph] at hlt
    exact hlt
  | notified o k state rc l' hk hl hst =>
    obtain ⟨-, e, he, -, -⟩ := hok.linked o k hk
    have hready := ready_of_modify he hst
    refine ⟨fun j e' he' hp => ?_, fun _ => hready, fun _ _ => hready⟩
    have hlt := (h.poller_modify (fun _ => rfl) he' hp).2
    by_cases hpend : th.phase = .pending
    · rw [Thread.live_pending hpend] at hlt
      simpa only [Thread.live, if_pos hpend] using hlt
    · simpa only [Thread.live, if_neg hpend] using hlt

end Settles

variable {s s' : State O T}

/-- The invariant, and the calls of all threads. -/
def Settled (s : State O T) : Prop := Inv s ∧ ∀ t, (s.thread t).Settles

/-- Whatever step is taken, and whoever takes it, every call stays as it should. -/
theorem Settled.of_perform {op : Op O T} (h : Settled s) (hs : perform s op = .ok s') : Settled s' := by
  refine ⟨perform_inv h.1 hs, fun t => ?_⟩
  rcases (perform_effect hs).turn h.1 t with ⟨-, hsec⟩ | ⟨-, hturn⟩
  · exact (h.2 t).of_section (h.1.ok t) hsec
  · exact (h.2 t).of_turn (h.1.ok t) hturn

theorem settled_of_reachable {kind : O → Kind} {prio : T → Int} {ops : List (Op O T)}
    (hr : run perform (initial kind prio) ops = .ok s) : Settled s :=
  run_inv (fun _ _ _ h _ hs => h.of_perform hs)
    ⟨initial_inv kind prio, fun _ => ⟨fun _ _ he => (not_mem_nil (mem_of_getElem? he)).elim, nofun, nofun⟩⟩
    (Along.of_all (p := fun _ _ => True) (fun _ _ => trivial) _) hr

/-- **When `k_poll` has returned, no object links an event of it and no event has its poller; one of its events is
ready when it returned 0.** -/
theorem kPoll_leaves_nothing {kind : O → Kind} {prio : T → Int} {ops : List (Op O T)} {t : T}
    (hr : run perform (initial kind prio) ops = .ok s) (hidle : (s.thread t).phase = .idle) :
    (∀ o k, (t, k) ∉ (s.obj o).pollEvents) ∧ (∀ e ∈ (s.thread t).events, e.poller = none) ∧
      ((s.thread t).results.head? = some 0 → ∃ e ∈ (s.thread t).events, e.state ≠ K_POLL_STATE_NOT_READY) := by
  have hlive : (s.thread t).live = 0 := by rw [Thread.live, hidle]
  obtain ⟨hi, h⟩ := settled_of_reachable hr
  refine ⟨fun o k hk => ?_, fun e he => ?_, (h t).result hidle⟩
  · have hlt := ((hi.ok t).linked o k hk).1
    rw [hlive] at hlt
    exact Nat.not_lt_zero k hlt
  · by_contra hp
    obtain ⟨k, hk⟩ := getElem?_of_mem he
    have hlt := (h t).poller k e hk hp
    rw [hlive] at hlt
    exact Nat.not_lt_zero k hlt

/-- A semaphore is given while a thread waits on it and on nothing else of its array, and the thread returns. -/
def givenWhilePolling : List (Op Unit Unit) :=
  [.kPoll () [none, some ()] .forever, .pollSection (), .pollSection (), .pollSection (), .kSemGive (),
    .pollSection (), .pollSection (), .pollSection ()]

theorem kPoll_leaves_nothing_given :
    ∃ s : State Unit Unit, run perform (initial (fun _ => .sem 1) fun _ => 0) givenWhilePolling = .ok s ∧
      (s.thread ()).results = [0] ∧ (∀ o k, ((), k) ∉ (s.obj o).pollEvents) ∧
      ∃ e ∈ (s.thread ()).events, e.state ≠ K_POLL_STATE_NOT_READY := by
  refine ⟨_, and_then rfl fun hr => ⟨rfl, ?_⟩⟩
  obtain ⟨hlinks, -, hready⟩ := kPoll_leaves_nothing (t := ()) hr rfl
  exact ⟨hlinks, hready rfl⟩

end RtosKernel.Zephyr.Poll
