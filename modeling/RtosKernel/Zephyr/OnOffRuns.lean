import Mathlib.Data.List.Perm.Basic
import RtosKernel.Zephyr.OnOff

/-! # Runs of an on-off manager -/
namespace RtosKernel.Zephyr.OnOff
open Lib.Runs List Option

variable {Cli Mon : Type} {mgr mgr' : Manager Cli Mon}

/-! ## Where a transition is -/

/-- The transition a state stands for. -/
def State.transition : State → Option Transition
  | .toOn => some .start
  | .toOff => some .stop
  | .resetting => some .reset
  | _ => none

/-- How far the transition of the state has come. -/
inductive Flight (mgr : Manager Cli Mon) : Prop where
  /-- It is under way, or there is none. -/
  | under (hunder : mgr.underway = mgr.state.transition) (hcomplete : mgr.complete = false)
      (hu : ∀ u, mgr.unlocked = some u → u.transit = none)
  /-- It has completed, and the completion is deferred. -/
  | deferred (u : Unlocked Cli) (hu : mgr.unlocked = some u) (htransit : u.transit = none)
      (hunder : mgr.underway = none) (hcomplete : mgr.complete = true) (hstate : mgr.state.transition ≠ none)
  /-- Its function is still to be called. -/
  | toCall (u : Unlocked Cli) (transition : Transition) (state : State) (refs : Nat) (hu : mgr.unlocked = some u)
      (htransit : u.transit = some (transition, state, refs)) (hok : (Begun.mk transition state refs none).Ok)
      (hunder : mgr.underway = none) (hcomplete : mgr.complete = false)
      (hstate : mgr.state.transition = some transition)

theorem Flight.congr (h : Flight mgr) (hstate : mgr'.state = mgr.state) (hunder : mgr'.underway = mgr.underway)
    (hcomplete : mgr'.complete = mgr.complete)
    (hu : mgr'.unlocked.map (fun u => u.transit) = mgr.unlocked.map (fun u => u.transit)) : Flight mgr' := by
  have hunlocked : ∀ u, mgr.unlocked = some u → ∃ u', mgr'.unlocked = some u' ∧ u'.transit = u.transit := by
    intro u hs
    rw [hs] at hu
    exact map_eq_some_iff.mp hu
  cases h with
  | under h hc hnone =>
    refine .under (by rw [hstate, hunder, h]) (hcomplete.trans hc) fun u' hu' => ?_
    rw [hu'] at hu
    obtain ⟨u, hs, ht⟩ := map_eq_some_iff.mp hu.symm
    exact ht.symm.trans (hnone u hs)
  | deferred u hs ht h hc hst =>
    obtain ⟨u', hs', ht'⟩ := hunlocked u hs
    exact .deferred u' hs' (ht'.trans ht) (hunder.trans h) (hcomplete.trans hc) (hstate ▸ hst)
  | toCall u t s r hs ht hok h hc hst =>
    obtain ⟨u', hs', ht'⟩ := hunlocked u hs
    exact .toCall u' t s r hs' (ht'.trans ht) hok (hunder.trans h) (hcomplete.trans hc) (hstate ▸ hst)

theorem Flight.stable (h : Flight mgr) (hu : mgr.unlocked = none) :
    mgr.underway = mgr.state.transition ∧ mgr.complete = false := by
  cases h with
  | under hunder hcomplete _ => exact ⟨hunder, hcomplete⟩
  | deferred u hs => cases hu.symm.trans hs
  | toCall u t s r hs => cases hu.symm.trans hs

theorem processRecheck_transition (h : mgr.state.transition ≠ none) : processRecheck mgr = .nop := by
  unfold processRecheck
  cases hs : mgr.state <;> simp [State.transition, hs] at h ⊢

/-! ## The invariant -/

variable [DecidableEq Cli]

/-- What holds in every state, also in the middle of `process_event`: the references, and where each client is. -/
structure Books (mgr : Manager Cli Mon) : Prop where
  state : ∀ u, mgr.unlocked = some u → u.state = mgr.state
  refs : mgr.state ≠ .on → mgr.refs = 0
  clients : mgr.state = .on → mgr.clients = []
  few : mgr.state.isError = false → mgr.refs + mgr.clients.length ≤ SERVICE_REFS_MAX
  begun : ∀ b ∈ mgr.begun, b.Ok
  granted : mgr.refs + mgr.released = granted mgr
  once : ∀ cli, mgr.accepted cli =
    mgr.cancelled cli + (mgr.notified.map Prod.fst).count cli + (waiting mgr).count cli
  apart : (waiting mgr).Nodup

structure Inv (mgr : Manager Cli Mon) : Prop extends Books mgr where
  flight : Flight mgr
  processing : mgr.processing = mgr.unlocked.isSome
  /-- What has changed since the last look at the state is looked at again. -/
  wake : processRecheck mgr ≠ .nop → mgr.recheck = true
  idle : mgr.processing = false → mgr.recheck = false ∧ mgr.complete = false

theorem Books.flags (h : Books mgr) (processing complete recheck : Bool) (lastRes : Int) (monitors : List Mon)
    (underway : Option Transition) : Books { mgr with processing, complete, recheck, lastRes, monitors, underway } :=
  ⟨h.state, h.refs, h.clients, h.few, h.begun, h.granted, h.once, h.apart⟩

theorem Inv.sound (h : Inv mgr) : Sound mgr := by
  have hquiet : mgr.processing = false → mgr.unlocked = none := fun hp => by
    rw [h.processing] at hp
    exact isNone_iff_eq_none.mp (by simpa using hp)
  have hnop : mgr.processing = false → processRecheck mgr = .nop := fun hp => by
    by_contra hne
    cases (h.idle hp).1.symm.trans (h.wake hne)
  have hoff : mgr.processing = false → mgr.state = .off → mgr.clients = [] := fun hp hs => by
    by_contra hne
    simpa [processRecheck, hs, hne] using hnop hp
  have herror : mgr.processing = false → mgr.state = .error → mgr.clients = [] ∧ mgr.refs = 0 := fun hp hs =>
    ⟨by_contra fun hne => by simpa [processRecheck, hs, hne] using hnop hp, h.refs (by simp [hs])⟩
  have hunder : mgr.processing = false → mgr.underway = none →
      mgr.state = .off ∨ mgr.state = .on ∨ mgr.state = .error := fun hp hu => by
    have ht := (h.flight.stable (hquiet hp)).1.symm.trans hu
    cases hs : mgr.state <;> simp [State.transition, hs] at ht ⊢
  refine ⟨h.begun, h.granted, h.once, h.apart, hoff, fun hp hs => ⟨?_, h.clients hs⟩, herror, hunder, ?_⟩
  · refine Nat.pos_of_ne_zero fun hz => ?_
    simpa [processRecheck, hs, hz] using hnop hp
  · intro hu hu' hg
    have hp : mgr.processing = false := by rw [h.processing, hu, isSome_none]
    have hc : mgr.clients = [] := by
      rcases hunder hp hu' with hs | hs | hs
      · exact hoff hp hs
      · exact h.clients hs
      · exact (herror hp hs).1
    simp [waiting, hu, hg, hc]

/-! ## The loop of `process_event` -/

omit [DecidableEq Cli] in
theorem processRecheck_cases (mgr : Manager Cli Mon) :
    processRecheck mgr = .start ∧ mgr.state = .off ∨
      processRecheck mgr = .stop ∧ mgr.state = .on ∧ mgr.refs = 0 ∨
        processRecheck mgr = .reset ∧ mgr.state = .error ∨ processRecheck mgr = .nop := by
  unfold processRecheck
  split
  · rename_i h
    exact .inl ⟨rfl, h.1⟩
  split
  · rename_i h
    exact .inr (.inl ⟨rfl, h⟩)
  split
  · rename_i h
    exact .inr (.inr (.inl ⟨rfl, h.1⟩))
  · exact .inr (.inr (.inr rfl))

omit [DecidableEq Cli] in
theorem recheckLater_eq (mgr : Manager Cli Mon) :
    ∃ recheck, recheckLater mgr = { mgr with recheck } ∧ (processRecheck mgr ≠ .nop → recheck = true) := by
  unfold recheckLater
  split
  · exact ⟨true, rfl, fun _ => rfl⟩
  · rename_i h
    exact ⟨mgr.recheck, rfl, fun h' => absurd h' h⟩

theorem Books.begin (h : Books mgr) (hu : mgr.unlocked = none) (hunder : mgr.underway = none)
    (hcomplete : mgr.complete = false) (hrefs : mgr.refs = 0) {state : State} (t : Transition)
    (htransition : state.transition = some t) (hok : (Begun.mk t mgr.state mgr.refs none).Ok)
    (hfew : state.isError = false → mgr.state.isError = false) (doMonitors : Bool) :
    Inv { mgr with
      state, processing := true
      unlocked := some ⟨doMonitors, state, 0, [], some (t, mgr.state, mgr.refs)⟩ } := by
  have hon : state ≠ .on := by
    rintro rfl
    cases htransition
  refine ⟨⟨?_, fun _ => hrefs, fun hs => absurd hs hon, fun hs => h.few (hfew hs), h.begun, ?_, ?_, ?_⟩, ?_, rfl,
    fun hne => absurd (processRecheck_transition (by simp [htransition])) hne, fun hp => by cases hp⟩
  · intro u hs
    cases hs
    rfl
  · simpa [OnOff.granted, hu] using h.granted
  · simpa [waiting, hu] using h.once
  · simpa [waiting, hu] using h.apart
  · exact .toCall _ t mgr.state mgr.refs rfl rfl hok hunder hcomplete htransition

theorem Books.recheck [DecidableEq Mon] (h : Books mgr) (hu : mgr.unlocked = none)
    (hunder : mgr.underway = mgr.state.transition) (hprocessing : mgr.processing = false)
    (hcomplete : mgr.complete = false) (hrecheck : mgr.recheck = false) (n : Nat) :
    ∃ mgr', processLoop (n + 1) mgr .recheck = .ok mgr' ∧ Inv mgr' := by
  rcases processRecheck_cases mgr with ⟨he, hs⟩ | ⟨he, hs, hr⟩ | ⟨he, hs⟩ | he
  · have hr : mgr.refs = 0 := h.refs (by simp [hs])
    refine ⟨_, by simp [processLoop, he, processOne]; rfl, ?_⟩
    exact h.begin hu (by simp [hunder, hs, State.transition]) hcomplete hr .start rfl ⟨rfl, hs⟩
      (by simp [hs, State.isError]) _
  · refine ⟨_, by simp [processLoop, he, processOne]; rfl, ?_⟩
    exact h.begin hu (by simp [hunder, hs, State.transition]) hcomplete hr .stop rfl ⟨rfl, hs, hr⟩
      (by simp [hs, State.isError]) _
  · have hr : mgr.refs = 0 := h.refs (by simp [hs])
    refine ⟨_, by simp [processLoop, he, processOne]; rfl, ?_⟩
    exact h.begin hu (by simp [hunder, hs, State.transition]) hcomplete hr .reset rfl ⟨rfl, hs⟩
      (by simp [hs, State.isError]) _
  · refine ⟨mgr, by simp [processLoop, he], h, .under hunder hcomplete (by simp [hu]), by simp [hprocessing, hu], ?_,
      ?_⟩
    · exact fun hne => absurd he hne
    · exact fun _ => ⟨hrecheck, hcomplete⟩

theorem Books.complete (h : Books mgr) (hu : mgr.unlocked = none) {state : State} {res : Int} {refs : Nat}
    (hon : Grants state res = true → mgr.state = .toOn) (hoff : mgr.state ≠ .on)
    (hrefs : refs = if Grants state res then mgr.clients.length else 0) (doMonitors : Bool) :
    Books { mgr with
      state, refs, clients := []
      unlocked := some ⟨doMonitors, state, res, mgr.clients, none⟩ } := by
  have hzero : mgr.refs = 0 := h.refs hoff
  have hnot : state ≠ .on → Grants state res = false := fun hs => by simp [Grants, hs]
  refine ⟨?_, fun hs => by rw [hrefs, hnot hs]; rfl, fun _ => rfl, fun _ => ?_, h.begun, ?_, ?_, ?_⟩
  · intro u hs
    cases hs
    rfl
  · change refs + 0 ≤ SERVICE_REFS_MAX
    rw [hrefs]
    split
    · rename_i hg
      have := h.few (by rw [hon hg]; rfl)
      omega
    · exact Nat.zero_le _
  · have := h.granted
    simp only [OnOff.granted, hu, hzero, elim_none, elim_some] at this ⊢
    omega
  · simpa [waiting, hu] using h.once
  · simpa [waiting, hu] using h.apart

theorem Books.finish (h : Books mgr) {u : Unlocked Cli} (hu : mgr.unlocked = some u) (hclients : u.clients = []) :
    Books { mgr with unlocked := none } := by
  refine ⟨fun _ hs => (by cases hs), h.refs, h.clients, h.few, h.begun, ?_, ?_, ?_⟩
  · simpa [OnOff.granted, hu, hclients] using h.granted
  · simpa [waiting, hu, hclients] using h.once
  · simpa [waiting, hu, hclients] using h.apart

theorem Books.processComplete (h : Books mgr) (hu : mgr.unlocked = none) (hstate : mgr.state.transition ≠ none)
    (res : Int) : ∃ state refs recheck clients notify,
      processComplete mgr res = ({ mgr with state, refs, recheck, clients }, notify) ∧ state.transition = none ∧
        (processRecheck { mgr with state, refs, clients } ≠ .nop → recheck = true) ∧
          ∀ doMonitors, Books { mgr with
            state, refs, clients
            unlocked := some ⟨doMonitors, state, res, notify, none⟩ } := by
  have hoff : mgr.state ≠ .on := fun hs => by simp [hs, State.transition] at hstate
  have hzero : mgr.refs = 0 := h.refs hoff
  by_cases hres : res < 0
  · refine ⟨.error, mgr.refs, mgr.recheck, [], mgr.clients, by simp [OnOff.processComplete, hres], rfl, ?_, ?_⟩
    · exact fun hne => absurd rfl hne
    · exact h.complete hu (fun hg => by cases hg) hoff hzero
  · cases hs : mgr.state with
    | toOn =>
      obtain ⟨recheck, heq, hwake⟩ := recheckLater_eq
        { mgr with clients := [], refs := (mgr.refs + mgr.clients.length) % 2 ^ 16, state := .on }
      have hfew := h.few (by rw [hs]; rfl)
      have hgrants : Grants .on res = true := by simpa [Grants] using hres
      refine ⟨.on, _, recheck, [], mgr.clients, by rw [OnOff.processComplete, if_neg hres, hs, heq], rfl, hwake, ?_⟩
      refine h.complete hu (fun _ => hs) hoff ?_
      rw [hgrants, hzero, Nat.zero_add, if_pos rfl]
      exact Nat.mod_eq_of_lt (by simp only [SERVICE_REFS_MAX] at hfew; omega)
    | resetting =>
      obtain ⟨recheck, heq, hwake⟩ := recheckLater_eq { mgr with clients := [], state := .off }
      refine ⟨.off, _, recheck, [], mgr.clients, by simp [OnOff.processComplete, hres, hs, heq], rfl, hwake, ?_⟩
      exact h.complete hu (fun hg => by cases hg) hoff hzero
    | toOff =>
      obtain ⟨recheck, heq, hwake⟩ := recheckLater_eq { mgr with state := .off }
      refine ⟨.off, _, recheck, _, [], by simp [OnOff.processComplete, hres, hs, heq], rfl, hwake, fun _ => ?_⟩
      refine ⟨?_, fun _ => hzero, fun hs => (by cases hs), fun _ => h.few (by rw [hs]; rfl), h.begun, ?_, ?_, ?_⟩
      · intro u hs
        cases hs
        rfl
      · simpa [OnOff.granted, hu] using h.granted
      · simpa [waiting, hu] using h.once
      · simpa [waiting, hu] using h.apart
    | off => exact absurd (by rw [hs]; rfl) hstate
    | on => exact absurd hs hoff
    | error => exact absurd (by rw [hs]; rfl) hstate

theorem Books.completion [DecidableEq Mon] (h : Books mgr) (hu : mgr.unlocked = none) (hunder : mgr.underway = none)
    (hprocessing : mgr.processing = false) (hcomplete : mgr.complete = false) (hstate : mgr.state.transition ≠ none)
    (n : Nat) : ∃ mgr', processLoop (n + 2) mgr .complete = .ok mgr' ∧ Inv mgr' := by
  obtain ⟨state, refs, recheck, clients, notify, heq, hst, hwake, hbooks⟩ := h.processComplete hu hstate mgr.lastRes
  rw [processLoop]
  simp only [processOne, heq, reduceCtorEq, if_false, ne_eq, not_true_eq_false, or_false]
  split
  · refine ⟨_, rfl, (hbooks _).flags .., .under (hunder.trans hst.symm) hcomplete fun u hs => ?_, rfl, hwake, ?_⟩
    · cases hs
      rfl
    · exact fun hp => by cases hp
  rename_i hidle
  have hnotify : notify = [] := by_contra fun hne => hidle (.inr hne)
  have hfinish := (hbooks false).finish rfl hnotify
  have hquiet : ∀ recheck, Books ({ mgr with state, refs, recheck, clients, complete := false } : Manager Cli Mon) :=
      fun recheck => by
    have := hfinish.flags mgr.processing false recheck mgr.lastRes mgr.monitors mgr.underway
    rwa [← hu] at this
  simp only [takeDeferred, hcomplete, Bool.false_eq_true, if_false]
  cases recheck with
  | true => exact (hquiet false).recheck hu (hunder.trans hst.symm) hprocessing rfl rfl n
  | false =>
    exact ⟨_, rfl, hquiet false, .under (hunder.trans hst.symm) rfl (by simp [hu]), by simp [hprocessing, hu], hwake,
      fun _ => ⟨rfl, rfl⟩⟩

theorem Books.lookAgain [DecidableEq Mon] (h : Books mgr) (hflight : Flight mgr)
    (hprocessing : mgr.processing = mgr.unlocked.isSome)
    (hidle : mgr.processing = false → mgr.recheck = false ∧ mgr.complete = false) :
    ∃ mgr', processEvent mgr .recheck = .ok mgr' ∧ Inv mgr' := by
  unfold processEvent
  split
  · rename_i hp
    refine ⟨_, rfl, h.flags .., hflight.congr rfl rfl rfl rfl, hprocessing, fun _ => rfl, fun hp' => ?_⟩
    cases hp.symm.trans hp'
  · rename_i hp
    have hp : mgr.processing = false := by simpa using hp
    have hu : mgr.unlocked = none := by simpa [hp] using hprocessing.symm
    exact h.recheck hu (hflight.stable hu).1 hp (hidle hp).2 (hidle hp).1 2

theorem Inv.transitionComplete [DecidableEq Mon] (h : Inv mgr) (hunder : mgr.underway ≠ none) (res : Int) :
    ∃ mgr', transitionComplete mgr res = .ok mgr' ∧ Inv mgr' := by
  have hstate : mgr.underway = mgr.state.transition ∧ mgr.complete = false ∧
      ∀ u, mgr.unlocked = some u → u.transit = none := by
    cases h.flight with
    | under hs hc hu => exact ⟨hs, hc, hu⟩
    | deferred _ _ _ hn => exact absurd hn hunder
    | toCall _ _ _ _ _ _ _ hn => exact absurd hn hunder
  obtain ⟨hs, hc, hu⟩ := hstate
  rw [hs] at hunder
  unfold OnOff.transitionComplete processEvent
  split
  · rename_i hp
    have hsome := h.processing.symm.trans hp
    obtain ⟨u, hs⟩ := isSome_iff_exists.mp hsome
    refine ⟨_, rfl, h.toBooks.flags .., .deferred u hs (hu u hs) rfl rfl hunder, h.processing, ?_, fun hp' => ?_⟩
    · exact fun hne => absurd (processRecheck_transition hunder) hne
    · cases hp.symm.trans hp'
  · rename_i hp
    have hp : mgr.processing = false := by simpa using hp
    have hnone : mgr.unlocked = none := by simpa [hp] using h.processing.symm
    exact (h.toBooks.flags mgr.processing mgr.complete mgr.recheck res mgr.monitors none).completion hnone rfl hp hc
      hunder 1

/-! ## Without the lock -/

variable {cli : Cli}

theorem Books.notify (h : Books mgr) {u : Unlocked Cli} (hu : mgr.unlocked = some u) {clients : List Cli}
    (hclients : u.clients = cli :: clients) :
    Books { notifyOne mgr cli u.state u.res with unlocked := some { u with clients } } := by
  refine ⟨?_, h.refs, h.clients, h.few, h.begun, ?_, fun c => ?_, ?_⟩
  · intro u' hs
    cases hs
    exact h.state u hu
  · have := h.granted
    simp only [OnOff.granted, notifyOne, hu, hclients, elim_some, length_cons, filter_cons] at this ⊢
    split at this <;> rename_i hg <;> simp only [hg, if_true, Bool.false_eq_true, if_false, length_cons] <;> omega
  · have := h.once c
    simp only [waiting, notifyOne, hu, hclients, elim_some, count_append, count_cons, map_cons] at this ⊢
    omega
  · have := h.apart
    simp only [waiting, notifyOne, hu, hclients, elim_some] at this ⊢
    exact this.sublist ((((sublist_cons_self cli clients).append_left _)).append_right _)

theorem Inv.processUnlocked [DecidableEq Mon] (h : Inv mgr) {u : Unlocked Cli} (hu : mgr.unlocked = some u) :
    ∃ mgr', processUnlocked mgr u = .ok mgr' ∧ Inv mgr' := by
  have hp : mgr.processing = true := by rw [h.processing, hu, isSome_some]
  have hbusy : mgr.processing = false → mgr.recheck = false ∧ mgr.complete = false := fun hp' => by
    cases hp.symm.trans hp'
  unfold OnOff.processUnlocked
  split
  · refine ⟨_, rfl, ⟨?_, h.refs, h.clients, h.few, h.begun, ?_, ?_, ?_⟩, h.flight.congr rfl rfl rfl ?_, hp, h.wake,
      hbusy⟩
    · intro u' hs
      cases hs
      exact h.state u hu
    · simpa [OnOff.granted, hu] using h.granted
    · simpa [waiting, hu] using h.once
    · simpa [waiting, hu] using h.apart
    · rw [hu]
      rfl
  split
  · rename_i cli clients hc
    exact ⟨_, rfl, h.toBooks.notify hu hc, h.flight.congr rfl rfl rfl (by rw [hu]; rfl), hp, h.wake, hbusy⟩
  · rename_i t s r hc ht
    cases h.flight with
    | under _ _ hn => cases ht.symm.trans (hn u hu)
    | deferred u' hs hn => cases hu.symm.trans hs; cases ht.symm.trans hn
    | toCall u' t' s' r' hs ht' hok hunder hcomplete hst =>
      cases hu.symm.trans hs
      cases ht.symm.trans ht'
      refine ⟨_, rfl, ⟨?_, h.refs, h.clients, h.few, ?_, ?_, ?_, ?_⟩, .under hst.symm hcomplete ?_, hp, h.wake, hbusy⟩
      · intro u' hs
        cases hs
        exact h.state u hu
      · rw [hunder]
        exact forall_mem_cons.mpr ⟨hok, h.begun⟩
      · simpa [OnOff.granted, hu] using h.granted
      · simpa [waiting, hu] using h.once
      · simpa [waiting, hu] using h.apart
      · intro u' hs
        cases hs
        rfl
  · rename_i hc ht
    have hbooks : ∀ complete recheck,
        Books { mgr with processing := false, unlocked := none, complete, recheck } := fun complete recheck =>
      (h.toBooks.finish hu hc).flags false complete recheck mgr.lastRes mgr.monitors mgr.underway
    cases h.flight with
    | under hunder hcomplete _ =>
      simp only [takeDeferred, hcomplete, Bool.false_eq_true, if_false]
      cases hr : mgr.recheck with
      | true =>
        exact (hbooks false false).recheck rfl hunder rfl rfl rfl 2
      | false =>
        refine ⟨_, rfl, hbooks .., .under hunder rfl (by simp), rfl, ?_, fun _ => ⟨rfl, rfl⟩⟩
        exact fun hne => absurd (h.wake hne) (by simp [hr])
    | deferred u' hs _ hunder hcomplete hst =>
      simp only [takeDeferred, hcomplete, if_true]
      exact (hbooks false mgr.recheck).completion rfl hunder rfl rfl hst 1
    | toCall u' t' s' r' hs ht' =>
      cases hu.symm.trans hs
      cases ht.symm.trans ht'

/-! ## Calls -/

theorem Books.once_accept (h : Books mgr) {l : List Cli} (hl : l.Perm (cli :: waiting mgr)) (c : Cli) :
    (accept mgr cli).accepted c = mgr.cancelled c + (mgr.notified.map Prod.fst).count c + l.count c := by
  rw [hl.count_eq, count_cons, accept, ← Nat.add_assoc, ← h.once c]
  by_cases hc : c = cli
  · simp [hc]
  · simp [hc, Ne.symm hc]

theorem Books.apart_accept (h : Books mgr) {l : List Cli} (hl : l.Perm (cli :: waiting mgr))
    (hcli : cli ∉ waiting mgr) : l.Nodup :=
  hl.nodup_iff.mpr (nodup_cons.mpr ⟨hcli, h.apart⟩)

theorem Books.append (h : Books mgr) (hcli : cli ∉ waiting mgr) (hon : mgr.state ≠ .on)
    (hfew : mgr.state.isError = false → mgr.clients.length + mgr.refs < SERVICE_REFS_MAX) :
    Books { accept mgr cli with clients := mgr.clients ++ [cli] } := by
  have hl : (waiting ({ accept mgr cli with clients := mgr.clients ++ [cli] } : Manager Cli Mon)).Perm
      (cli :: waiting mgr) := by
    simp only [waiting, accept, append_assoc, singleton_append]
    exact perm_middle
  refine ⟨h.state, h.refs, fun hs => absurd hs hon, fun hs => ?_, h.begun, h.granted, h.once_accept hl,
    h.apart_accept hl hcli⟩
  have := hfew hs
  rw [length_append, length_singleton]
  change mgr.refs + _ ≤ _
  omega

theorem Books.grantOne (h : Books mgr) (hcli : cli ∉ waiting mgr) (hon : mgr.state = .on)
    (hrefs : mgr.refs < SERVICE_REFS_MAX) :
    Books { accept mgr cli with refs := (mgr.refs + 1) % 2 ^ 16, granting := cli :: mgr.granting } := by
  have hl : (waiting { accept mgr cli with refs := (mgr.refs + 1) % 2 ^ 16, granting := cli :: mgr.granting }).Perm
      (cli :: waiting mgr) := perm_middle
  have hmod : (mgr.refs + 1) % 2 ^ 16 = mgr.refs + 1 :=
    Nat.mod_eq_of_lt (by simp only [SERVICE_REFS_MAX] at hrefs; omega)
  refine ⟨h.state, fun hs => absurd hon hs, h.clients, fun _ => ?_, h.begun, ?_, h.once_accept hl,
    h.apart_accept hl hcli⟩
  · rw [hmod, accept, h.clients hon]
    exact hrefs
  · have := h.granted
    simp only [OnOff.granted, accept, hmod, length_cons] at this ⊢
    omega

theorem Inv.onoffRequest [DecidableEq Mon] (h : Inv mgr) (hcli : cli ∉ waiting mgr)
    (hfew : Few mgr (.request cli)) : ∃ r, onoffRequest mgr cli = .ok r ∧ Inv r.1 := by
  unfold OnOff.onoffRequest
  split
  · exact ⟨_, rfl, h⟩
  rename_i hmax
  have hroom : mgr.state.isError = false → mgr.clients.length + mgr.refs < SERVICE_REFS_MAX := fun hs => by
    rcases hfew with he | hm | hlt
    · cases he.symm.trans hs
    · exact absurd hm hmax
    · exact hlt
  cases hs : mgr.state with
  | on =>
    have hlt : mgr.refs < SERVICE_REFS_MAX := by
      have := hroom (by rw [hs]; rfl)
      omega
    refine ⟨_, rfl, h.toBooks.grantOne hcli hs hlt, h.flight.congr rfl rfl rfl rfl, h.processing, ?_, h.idle⟩
    refine fun hne => absurd ?_ hne
    have hpos : (mgr.refs + 1) % 2 ^ 16 ≠ 0 := by
      simp only [SERVICE_REFS_MAX] at hlt
      omega
    simp only [processRecheck, accept, hs, hpos, reduceCtorEq, false_and, and_false, if_false]
  | off =>
    obtain ⟨mgr', heq, h'⟩ := (h.toBooks.append hcli (by simp [hs]) hroom).lookAgain
      (h.flight.congr rfl rfl rfl rfl) h.processing h.idle
    exact ⟨(mgr', _), by rw [heq]; rfl, h'⟩
  | toOff | toOn =>
    refine ⟨_, rfl, h.toBooks.append hcli (by simp [hs]) hroom, h.flight.congr rfl rfl rfl rfl, h.processing, ?_,
      h.idle⟩
    exact fun hne => absurd (processRecheck_transition (by simp [accept, hs, State.transition])) hne
  | resetting => exact ⟨_, rfl, h⟩
  | error => exact ⟨_, rfl, h⟩

theorem Inv.onoffRelease [DecidableEq Mon] (h : Inv mgr) (hreleased : mgr.released < granted mgr) :
    ∃ r, onoffRelease mgr = .ok r ∧ Inv r.1 := by
  have hrefs := h.granted
  unfold OnOff.onoffRelease
  split
  · exact ⟨_, rfl, h⟩
  rename_i hs
  have hs : mgr.state = .on := not_not.mp hs
  have hbooks : Books { mgr with refs := mgr.refs - 1, released := mgr.released + 1 } := by
    refine ⟨h.state, fun hne => absurd hs hne, h.clients, fun he => ?_, h.begun, ?_, h.once, h.apart⟩
    · exact Nat.le_trans (Nat.add_le_add_right (Nat.sub_le ..) _) (h.few he)
    · simp only [OnOff.granted] at hrefs hreleased ⊢
      omega
  dsimp only
  split
  · obtain ⟨mgr', heq, h'⟩ := hbooks.lookAgain (h.flight.congr rfl rfl rfl rfl) h.processing h.idle
    exact ⟨(mgr', _), by rw [heq]; rfl, h'⟩
  · rename_i hne
    refine ⟨_, rfl, hbooks, h.flight.congr rfl rfl rfl rfl, h.processing, fun hne' => ?_, h.idle⟩
    exact absurd (by simpa [processRecheck, hs] using hne) hne'

theorem Inv.onoffReset [DecidableEq Mon] (h : Inv mgr) (hcli : cli ∉ waiting mgr) (hasReset : Bool) :
    ∃ r, onoffReset mgr hasReset cli = .ok r ∧ Inv r.1 := by
  unfold OnOff.onoffReset
  split
  · exact ⟨_, rfl, h⟩
  split
  · exact ⟨_, rfl, h⟩
  rename_i _ he
  have he : mgr.state.isError = true := by simpa using he
  have hon : mgr.state ≠ .on := fun hs => by simp [hs, State.isError] at he
  have hbooks := h.toBooks.append hcli hon fun hf => by cases he.symm.trans hf
  dsimp only
  split
  · obtain ⟨mgr', heq, h'⟩ := hbooks.lookAgain (h.flight.congr rfl rfl rfl rfl) h.processing h.idle
    exact ⟨(mgr', _), by rw [heq]; rfl, h'⟩
  · rename_i hs
    have hs : mgr.state = .resetting := not_not.mp hs
    refine ⟨_, rfl, hbooks, h.flight.congr rfl rfl rfl rfl, h.processing, ?_, h.idle⟩
    exact fun hne => absurd (processRecheck_transition (by simp [accept, hs, State.transition])) hne

theorem Inv.onoffCancel (h : Inv mgr) (cli : Cli) : Inv (onoffCancel mgr cli).1 := by
  unfold OnOff.onoffCancel
  split
  · rename_i hmem
    have hperm : (waiting mgr).Perm (cli :: ((mgr.clients.erase cli ++ mgr.unlocked.elim [] fun u => u.clients) ++
        mgr.granting)) :=
      ((perm_cons_erase hmem).append_right _).append_right _
    refine ⟨⟨h.state, h.refs, fun hs => ?_, fun he => ?_, h.begun, h.granted, fun c => ?_, ?_⟩,
      h.flight.congr rfl rfl rfl rfl, h.processing, fun hne => h.wake ?_, h.idle⟩
    · cases (h.clients hs) ▸ hmem
    · exact Nat.le_trans (Nat.add_le_add_left length_erase_le _) (h.few he)
    · have := h.once c
      rw [hperm.count_eq, count_cons] at this
      by_cases hc : c = cli
      · simp only [hc, beq_self_eq_true, if_true, Function.update_self] at this ⊢
        simp only [waiting]
        omega
      · simp only [beq_eq_false_iff_ne.mpr (Ne.symm hc), Bool.false_eq_true, if_false, Nat.add_zero,
          Function.update_of_ne hc] at this ⊢
        exact this
    · exact (nodup_cons.mp (hperm.nodup_iff.mp h.apart)).2
    · -- There were clients before, where there are some now.
      intro hnop
      apply hne
      have hclients : mgr.clients ≠ [] := ne_nil_of_mem hmem
      unfold processRecheck at hnop ⊢
      cases hs : mgr.state <;> simp [hs, hclients] at hnop ⊢
      exact hnop
  · exact h

theorem Books.grant (h : Books mgr) (hmem : cli ∈ mgr.granting) :
    Books { notifyOne mgr cli .on 0 with granting := mgr.granting.erase cli } := by
  have hperm := (perm_cons_erase hmem).append_left
    (mgr.clients ++ mgr.unlocked.elim [] fun u => u.clients)
  refine ⟨h.state, h.refs, h.clients, h.few, h.begun, ?_, fun c => ?_, ?_⟩
  · have := h.granted
    have hlen := length_erase_of_mem hmem
    have hpos := length_pos_of_mem hmem
    simp only [OnOff.granted, notifyOne, filter_cons, show Grants .on 0 = true from rfl, if_true,
      length_cons] at this ⊢
    omega
  · have := h.once c
    rw [waiting, hperm.count_eq] at this
    simp only [waiting, notifyOne, count_append, map_cons, count_cons] at this ⊢
    omega
  · exact h.apart.sublist ((erase_sublist ..).append_left _)

/-! ## Steps and runs -/

theorem Inv.initial : Inv (initial : Manager Cli Mon) := by
  refine ⟨⟨fun _ hs => (by cases hs), fun _ => rfl, fun _ => rfl, fun _ => Nat.zero_le _, fun _ hb => (by cases hb),
    rfl, fun _ => rfl, nodup_nil⟩, .under rfl rfl (fun _ hs => by cases hs), rfl, ?_, fun _ => ⟨rfl, rfl⟩⟩
  exact fun hne => absurd rfl hne

theorem Inv.step [DecidableEq Mon] (h : Inv mgr) {hasReset : Bool} {a : Act Cli Mon} (hfew : Few mgr a) :
    step hasReset mgr a = .error .refused ∨ ∃ mgr', step hasReset mgr a = .ok mgr' ∧ Inv mgr' := by
  cases a with
  | request cli =>
    simp only [OnOff.step]
    split
    · exact .inl rfl
    · rename_i hcli
      obtain ⟨r, heq, h'⟩ := h.onoffRequest hcli hfew
      exact .inr ⟨r.1, by rw [heq]; rfl, h'⟩
  | grant cli =>
    simp only [OnOff.step]
    split
    · rename_i hmem
      exact .inr ⟨_, rfl, h.toBooks.grant hmem, h.flight.congr rfl rfl rfl rfl, h.processing, h.wake, h.idle⟩
    · exact .inl rfl
  | release =>
    simp only [OnOff.step]
    split
    · rename_i hreleased
      obtain ⟨r, heq, h'⟩ := h.onoffRelease hreleased
      exact .inr ⟨r.1, by rw [heq]; rfl, h'⟩
    · exact .inl rfl
  | reset cli =>
    simp only [OnOff.step]
    split
    · exact .inl rfl
    · rename_i hcli
      obtain ⟨r, heq, h'⟩ := h.onoffReset hcli hasReset
      exact .inr ⟨r.1, by rw [heq]; rfl, h'⟩
  | cancel cli => exact .inr ⟨_, rfl, h.onoffCancel cli⟩
  | complete res =>
    simp only [OnOff.step]
    split
    · exact .inl rfl
    · rename_i hunder
      exact .inr (h.transitionComplete hunder res)
  | unlocked =>
    simp only [OnOff.step]
    split
    · rename_i u hu
      exact .inr (h.processUnlocked hu)
    · exact .inl rfl
  | monitorRegister mon =>
    exact .inr ⟨_, rfl, h.toBooks.flags .., h.flight.congr rfl rfl rfl rfl, h.processing, h.wake, h.idle⟩
  | monitorUnregister mon =>
    exact .inr ⟨_, rfl, h.toBooks.flags .., h.flight.congr rfl rfl rfl rfl, h.processing, h.wake, h.idle⟩

/-- Any run with not too many clients at once: `process_event` always comes to an end, and every state is sound. -/
theorem onoff_sound [DecidableEq Mon] (hasReset : Bool) {acts : List (Act Cli Mon)}
    (hfew : Along (step hasReset) Few initial acts) :
    run (step hasReset) initial acts ≠ .error .loop ∧
      ∀ mgr, run (step hasReset) initial acts = .ok mgr → Sound mgr := by
  have hinitial : Inv (initial : Manager Cli Mon) := Inv.initial
  have hstep : ∀ (mgr : Manager Cli Mon) a mgr', Inv mgr → Few mgr a → step hasReset mgr a = .ok mgr' → Inv mgr' := by
    intro mgr a mgr' h ha hs
    rcases h.step ha with he | ⟨mgr'', he, h'⟩
    · cases he.symm.trans hs
    · cases he.symm.trans hs
      exact h'
  refine ⟨run_no_stop hstep (fun mgr a h ha hs => ?_) hinitial hfew, fun mgr hrun => ?_⟩
  · rcases h.step ha with he | ⟨mgr', he, _⟩ <;> cases he.symm.trans hs
  · exact (run_inv hstep hinitial hfew hrun).sound

/-- A start that completes in its function, a stop that fails, and a reset from the callback of the failure. -/
def failedStop : List (Act Nat Nat) :=
  [.monitorRegister 7, .request 1, .unlocked, .unlocked, .complete 0, .unlocked, .unlocked, .unlocked, .request 2,
    .grant 2, .unlocked, .release, .release, .unlocked, .unlocked, .request 3, .request 5, .cancel 5, .unlocked,
    .complete (-5), .unlocked, .unlocked, .reset 4, .unlocked, .unlocked, .unlocked, .unlocked, .complete 0, .unlocked,
    .unlocked, .unlocked]

theorem onoff_sound_failedStop :
    ∃ mgr, run (step true) initial failedStop = .ok mgr ∧ Sound mgr ∧ mgr.processing = false ∧
      mgr.begun.map (fun b => b.transition) = [.reset, .stop, .start] ∧
        mgr.notified = [(4, .off, 0), (3, .error, -5), (2, .on, 0), (1, .on, 0)] :=
  ⟨_, rfl, (@onoff_sound Nat Nat _ _ true failedStop (by decide +kernel)).2 _ rfl, by decide⟩

end RtosKernel.Zephyr.OnOff
