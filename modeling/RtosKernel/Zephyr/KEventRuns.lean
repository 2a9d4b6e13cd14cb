import RtosKernel.Lib.LinkedList
import RtosKernel.Zephyr.KEvent

/-! # A post wakes exactly the threads whose events are there

The threads that a post has collected wait for its event until it unpends them, and its links lead from one to the
next. A handler that takes one of them out of the wait queue, or another post that links one of them anew, is all that
can break this. -/
namespace RtosKernel.Zephyr.KEvent
open Lib.LinkedList Lib.Runs Function Option
open Zephyr.WaitQ (zPriqDumbAdd mem_zPriqDumbAdd nodup_zPriqDumbAdd)
open List (mem_cons mem_cons_of_mem mem_cons_self nodup_cons)

variable {T E : Type} [dT : DecidableEq T] [dE : DecidableEq E] {s s' : System T E} {t u : T} {e w : E} {p : Post T}

theorem areWaitConditionsMet_zero {desired : BitVec 32} {waitAll : Bool} (hne : desired ≠ 0) :
    areWaitConditionsMet desired 0 waitAll = false := by
  cases waitAll with
  | true => simpa [areWaitConditionsMet] using hne.symm
  | false => simp [areWaitConditionsMet]

variable {events : BitVec 32}

omit dT dE in
theorem met_congr (h : s'.thread u = s.thread u) : Met s' u events ↔ Met s u events := by
  rw [Met, Met, h]

/-! ## The walk over the wait queue -/

omit dE in
theorem collect_spec {l acc : List T} {head : Option T} {link : T → Option T} (hl : l.Nodup)
    (hacc : ∀ t ∈ l, t ∉ acc) (h : Chain link head acc) :
    Chain (collect s events l head link).2 (collect s events l head link).1
        ((l.filter fun t => Met s t events).reverse ++ acc) ∧
      ∀ t ∉ l.filter fun t => Met s t events, (collect s events l head link).2 t = link t := by
  induction l generalizing acc head link with
  | nil => exact ⟨h, fun _ _ => rfl⟩
  | cons u l ih =>
    obtain ⟨hu, hl⟩ := nodup_cons.mp hl
    rw [collect]
    by_cases hm : Met s u events
    · have huacc : u ∉ acc := hacc u (by simp)
      have hchain : Chain (update link u head) (some u) (u :: acc) := by
        rw [chain_cons, update_self]
        exact ⟨rfl, h.update huacc⟩
      have hacc' : ∀ t ∈ l, t ∉ u :: acc := by
        intro t ht hmem
        rcases mem_cons.mp hmem with rfl | hmem
        · exact hu ht
        · exact hacc t (by simp [ht]) hmem
      obtain ⟨hc, hother⟩ := ih hl hacc' hchain
      rw [if_pos hm, List.filter_cons_of_pos (by simpa using hm), List.reverse_cons, List.append_assoc]
      refine ⟨hc, fun t ht => ?_⟩
      rw [mem_cons, not_or] at ht
      rw [hother t ht.2, update_of_ne ht.1]
    · rw [if_neg hm, List.filter_cons_of_neg (by simpa using hm)]
      exact ih hl (fun t ht => hacc t (by simp [ht])) h

/-! ## The invariant -/

/-- A post has unpended the thread and given it no result yet. -/
def Unserved (s : System T E) (t : T) : Prop := ∃ e p, s.post e = some p ∧ p.thread = t ∧ p.phase = .serve

/-- How a thread stands whose wait is over and that has not returned. -/
def Ended (s : System T E) (t : T) : Prop :=
  ((s.thread t).cause = .timeout ∧ (s.thread t).retval = -EAGAIN) ∨
  (∃ posted, (s.thread t).cause = .post posted ∧ (s.thread t).retval = 0 ∧ (s.thread t).events = posted) ∨
  ((s.thread t).queued = false ∧ Unserved s t)

structure ThreadOk (s : System T E) (t : T) : Prop where
  listed : ∀ e, t ∈ s.waitq e ↔ (s.thread t).pendedOn = some e
  pends : (s.thread t).pendedOn ≠ none → (s.thread t).events ≠ 0 ∧ (s.thread t).retval = -EAGAIN ∧
    (s.thread t).queued = false ∧ (s.thread t).call ≠ none
  ended : (s.thread t).call ≠ none → (s.thread t).pendedOn = none → Ended s t

structure PostOk (s : System T E) (e : E) (p : Post T) : Prop where
  events : s.events e = p.posted
  chain : Chain s.nextEventLink (some p.thread) (p.thread :: p.rest)
  nodup : (p.thread :: p.rest).Nodup
  rest : ∀ t ∈ p.rest, (s.thread t).pendedOn = some e
  unpend : p.phase = .unpend → (s.thread p.thread).pendedOn = some e
  serve : p.phase = .serve → (s.thread p.thread).pendedOn = none ∧ (s.thread p.thread).cause = .post p.posted ∧
    (s.thread p.thread).call ≠ none ∧ (s.thread p.thread).queued = false
  woken : ∀ t, (s.thread t).pendedOn = some e → Met s t p.posted → t ∈ p.rest ∨ p.phase = .unpend ∧ t = p.thread

/-- A return has the value that what ended the call gives it. -/
def ReturnOk (r : Return T E) : Prop :=
  (∀ events, r.cause = .post events → r.value = events &&& r.events) ∧ (r.cause = .timeout → r.value = 0)

structure Inv (s : System T E) : Prop where
  nodup : ∀ e, (s.waitq e).Nodup
  thread : ∀ t, ThreadOk s t
  post : ∀ e p, s.post e = some p → PostOk s e p
  apart : ∀ e e' p p', s.post e = some p → s.post e' = some p' → e ≠ e' →
    ∀ t ∈ p.thread :: p.rest, t ∉ p'.thread :: p'.rest
  woken : ∀ e t, s.post e = none → (s.thread t).pendedOn = some e → ¬ Met s t (s.events e)
  returns : ∀ r ∈ s.returns, ReturnOk r

omit dT dE in
theorem Inv.sound (h : Inv s) : Sound s where
  unpends e p hp hph := by
    have hpend := (h.post e p hp).unpend hph
    exact ⟨hpend, ((h.thread p.thread).listed e).mpr hpend⟩
  woken := h.woken
  posted r hr := (h.returns r hr).1
  timedOut r hr := (h.returns r hr).2

/-! ## What does not change -/

omit dT dE in
theorem ThreadOk.congr (h : ThreadOk s u) (hwaitq : ∀ e, u ∈ s'.waitq e ↔ u ∈ s.waitq e)
    (hthread : s'.thread u = s.thread u) (hun : Unserved s u → Unserved s' u) : ThreadOk s' u := by
  refine ⟨?_, ?_, ?_⟩
  · intro e
    rw [hwaitq e, hthread]
    exact h.listed e
  · rw [hthread]
    exact h.pends
  · rw [Ended, hthread]
    intro hc hp
    rcases h.ended hc hp with ht | hp | ⟨hq, hs⟩
    · exact .inl ht
    · exact .inr (.inl hp)
    · exact .inr (.inr ⟨hq, hun hs⟩)

/-- Only the timeout of the thread is another. -/
def Keeps (v v' : Thread E) : Prop := v' = { v with timeoutActive := v'.timeoutActive }

section
omit dE

theorem Keeps.refl {v : Thread E} : Keeps v v := rfl

theorem Keeps.of_eq {v v' : Thread E} (h : v' = v) : Keeps v v' := h ▸ rfl

theorem Keeps.fields {v v' : Thread E} (h : Keeps v v') :
    v'.pendedOn = v.pendedOn ∧ v'.cause = v.cause ∧ v'.call = v.call ∧ v'.queued = v.queued := by
  rw [h]
  exact ⟨rfl, rfl, rfl, rfl⟩

end

omit dT dE in
theorem PostOk.congr (h : PostOk s e p) (hevents : s'.events e = s.events e)
    (hlink : ∀ u ∈ p.thread :: p.rest, s'.nextEventLink u = s.nextEventLink u)
    (hkeep : ∀ u ∈ p.unserved, Keeps (s.thread u) (s'.thread u))
    (hpend : ∀ u, (s'.thread u).pendedOn = some e → (s.thread u).pendedOn = some e ∧
      (Met s' u p.posted → Met s u p.posted)) : PostOk s' e p := by
  have hrest : ∀ u ∈ p.rest, u ∈ p.unserved := by
    intro u hu
    unfold Post.unserved
    split
    · exact mem_cons_of_mem _ hu
    · exact hu
  have hthread : p.phase = .unpend ∨ p.phase = .serve → Keeps (s.thread p.thread) (s'.thread p.thread) := by
    intro hph
    exact hkeep _ (by simp [Post.unserved, hph])
  refine ⟨?_, h.chain.frame hlink, h.nodup, ?_, ?_, ?_, ?_⟩
  · rw [hevents]
    exact h.events
  · intro u hu
    rw [(hkeep u (hrest u hu)).fields.1]
    exact h.rest u hu
  · intro hph
    rw [(hthread (.inl hph)).fields.1]
    exact h.unpend hph
  · intro hph
    obtain ⟨h₁, h₂, h₃, h₄⟩ := (hthread (.inr hph)).fields
    rw [h₁, h₂, h₃, h₄]
    exact h.serve hph
  · intro u hu hm
    obtain ⟨hu, hm'⟩ := hpend u hu
    exact h.woken u hu (hm' hm)

omit dE in
theorem Inv.move (h : Inv s) (hthread : ∀ u ≠ t, s'.thread u = s.thread u)
    (hwaitq : ∀ e, ∀ u ≠ t, u ∈ s'.waitq e ↔ u ∈ s.waitq e) (hnodup : ∀ e, (s'.waitq e).Nodup)
    (hevents : s'.events = s.events) (hlink : s'.nextEventLink = s.nextEventLink)
    (hreturns : ∀ r ∈ s'.returns, r ∈ s.returns ∨ ReturnOk r) (ht : ThreadOk s' t)
    (hpost : ∀ e, s'.post e = s.post e ∧ (∀ p, s.post e = some p → t ∈ p.unserved → Keeps (s.thread t) (s'.thread t)) ∨
      ∃ p p', s.post e = some p ∧ s'.post e = some p' ∧ p.thread = t ∧ p'.thread = p.thread ∧ p'.rest = p.rest ∧
        PostOk s' e p')
    (hpend : ∀ e, (s'.thread t).pendedOn = some e → Keeps (s.thread t) (s'.thread t) ∨
      s.post e = none ∧ ¬ Met s' t (s.events e)) : Inv s' := by
  have hback : ∀ e p', s'.post e = some p' → ∃ p, s.post e = some p ∧ p'.thread = p.thread ∧ p'.rest = p.rest := by
    intro e p' hp'
    rcases hpost e with ⟨he, -⟩ | ⟨p, p₁, hp, hp₁, -, hth, hr, -⟩
    · exact ⟨p', he ▸ hp', rfl, rfl⟩
    · cases hp₁.symm.trans hp'
      exact ⟨p, hp, hth, hr⟩
  have hfree : ∀ e, s'.post e = none → s.post e = none := by
    intro e hn
    rcases hpost e with ⟨he, -⟩ | ⟨p, p₁, -, hp₁, -⟩
    · exact he ▸ hn
    · cases hp₁.symm.trans hn
  have hmet : ∀ e u, (s'.thread u).pendedOn = some e → (s.thread u).pendedOn = some e ∧
      (∀ x, Met s' u x → Met s u x) ∨ s.post e = none ∧ ¬ Met s' u (s.events e) := by
    intro e u hu
    by_cases hut : u = t
    · rw [hut] at hu ⊢
      rcases hpend e hu with hk | hn
      · refine .inl ⟨hk.fields.1 ▸ hu, fun x hx => ?_⟩
        rw [Met, hk] at hx
        exact hx
      · exact .inr hn
    · rw [hthread u hut] at hu
      exact .inl ⟨hu, fun x => (met_congr (hthread u hut)).mp⟩
  refine ⟨hnodup, ?_, ?_, ?_, ?_, ?_⟩
  · intro u
    by_cases hut : u = t
    · exact hut ▸ ht
    · refine (h.thread u).congr (fun e => hwaitq e u hut) (hthread u hut) ?_
      rintro ⟨e, p, hp, hpu, hph⟩
      rcases hpost e with ⟨he, -⟩ | ⟨p₁, -, hp₁, -, hpt, -⟩
      · exact ⟨e, p, he.trans hp, hpu, hph⟩
      · cases hp.symm.trans hp₁
        exact absurd (hpu.symm.trans hpt) hut
  · intro e p' hp'
    rcases hpost e with ⟨he, hk⟩ | ⟨-, p₁, -, hp₁, -, -, -, hok⟩
    · have hp : s.post e = some p' := he ▸ hp'
      refine (h.post e p' hp).congr (by rw [hevents]) (fun u _ => by rw [hlink]) ?_ ?_
      · intro u hu
        by_cases hut : u = t
        · rw [hut] at hu ⊢
          exact hk p' hp hu
        · exact .of_eq (hthread u hut)
      · intro u hu
        rcases hmet e u hu with ⟨hu, hm⟩ | ⟨hn, -⟩
        · exact ⟨hu, hm _⟩
        · cases hn.symm.trans hp
    · cases hp₁.symm.trans hp'
      exact hok
  · intro e e' p₁ p₂ hp₁ hp₂ hne u hu
    obtain ⟨q₁, hq₁, hth₁, hr₁⟩ := hback e p₁ hp₁
    obtain ⟨q₂, hq₂, hth₂, hr₂⟩ := hback e' p₂ hp₂
    rw [hth₁, hr₁] at hu
    rw [hth₂, hr₂]
    exact h.apart e e' q₁ q₂ hq₁ hq₂ hne u hu
  · intro e u hn hu
    rw [hevents]
    rcases hmet e u hu with ⟨hu, hm⟩ | ⟨-, hm⟩
    · exact fun hx => h.woken e u (hfree e hn) hu (hm _ hx)
    · exact hm
  · intro r hr
    rcases hreturns r hr with hr | hr
    · exact h.returns r hr
    · exact hr

/-! ## The scheduler -/

omit dE in
theorem zReadyThread_eq : ∃ q, zReadyThread s t = setThread s t { s.thread t with queued := q } ∧
    ((s.thread t).pendedOn ≠ none → q = (s.thread t).queued) := by
  dsimp only [zReadyThread]
  split
  · rename_i hready
    simp only [Bool.and_eq_true, isNone_iff_eq_none] at hready
    exact ⟨true, rfl, fun hp => absurd hready.1.2 hp⟩
  · refine ⟨_, ?_, fun _ => rfl⟩
    simp [setThread]

theorem Inv.erase (h : Inv s) (hw : (s.thread t).pendedOn = some w) :
    (∀ e, (update s.waitq w ((s.waitq w).erase t) e).Nodup) ∧
    (∀ e, t ∉ update s.waitq w ((s.waitq w).erase t) e) ∧
    ∀ e, ∀ u ≠ t, u ∈ update s.waitq w ((s.waitq w).erase t) e ↔ u ∈ s.waitq e := by
  refine ⟨?_, ?_, ?_⟩
  · intro e
    by_cases he : e = w
    · rw [he, update_self]
      exact (h.nodup w).erase t
    · rw [update_of_ne he]
      exact h.nodup e
  · intro e
    by_cases he : e = w
    · rw [he, update_self]
      exact (h.nodup w).not_mem_erase
    · rw [update_of_ne he, (h.thread t).listed e, hw]
      exact fun hc => he (some.inj hc).symm
  · intro e u hu
    by_cases he : e = w
    · rw [he, update_self]
      exact List.mem_erase_of_ne hu
    · rw [update_of_ne he]

theorem Inv.zThreadTimeout (h : Inv s) (hun : ∀ e p, s.post e = some p → t ∉ p.unserved) :
    Inv (KEvent.zThreadTimeout s t) := by
  have hpost : ∀ {s' : System T E}, s'.post = s.post → ∀ e, s'.post e = s.post e ∧
      (∀ p, s.post e = some p → t ∈ p.unserved → Keeps (s.thread t) (s'.thread t)) ∨
      ∃ p p', s.post e = some p ∧ s'.post e = some p' ∧ p.thread = t ∧ p'.thread = p.thread ∧ p'.rest = p.rest ∧
        PostOk s' e p' :=
    fun he e => .inl ⟨by rw [he], fun p hp ht => absurd ht (hun e p hp)⟩
  have hserved : ¬ Unserved s t := by
    rintro ⟨e, p, hp, hpt, hph⟩
    exact hun e p hp (by simp [Post.unserved, hph, hpt])
  unfold KEvent.zThreadTimeout
  split
  · rename_i w hw
    obtain ⟨q, hq, -⟩ := zReadyThread_eq (s := unpendThreadNoTimeout s t w .timeout) (t := t)
    obtain ⟨hnodup, hout, hother⟩ := h.erase hw
    rw [hq]
    refine h.move (t := t) ?_ hother hnodup rfl rfl (fun _ => .inl) ⟨?_, ?_, ?_⟩ (hpost rfl) ?_
    · intro u hu
      simp [setThread, unpendThreadNoTimeout, hu]
    · intro e
      simp [setThread, unpendThreadNoTimeout, hout e]
    · simp [setThread, unpendThreadNoTimeout]
    · intro _ _
      refine .inl ?_
      simp [setThread, unpendThreadNoTimeout, ((h.thread t).pends (by rw [hw]; nofun)).2.1]
    · simp [setThread, unpendThreadNoTimeout]
  · rename_i hw
    obtain ⟨q, hq, -⟩ := zReadyThread_eq (s := s) (t := t)
    rw [hq]
    refine h.move (t := t) ?_ (fun _ _ _ => Iff.rfl) h.nodup rfl rfl (fun _ => .inl) ⟨?_, ?_, ?_⟩ (hpost rfl) ?_
    · intro u hu
      simp [setThread, hu]
    · intro e
      simpa [setThread] using (h.thread t).listed e
    · simp [setThread, hw]
    · intro hc _
      rcases (h.thread t).ended (by simpa [setThread] using hc) hw with ht | hp | ⟨-, hs⟩
      · exact .inl (by simpa [setThread] using ht)
      · exact .inr (.inl (by simpa [setThread] using hp))
      · exact absurd hs hserved
    · simp [setThread, hw]

/-! ## Waits -/

section
variable (h : Inv s)
include h

omit dT dE in
theorem Inv.returned {r : Return T E} (hr : ReturnOk r) : Inv { s with returns := r :: s.returns } := by
  obtain ⟨h₁, h₂, h₃, h₄, h₅, h₆⟩ := h
  refine ⟨h₁, ?_, ?_, h₄, h₅, ?_⟩
  · exact fun t => (h₂ t).congr (fun _ => Iff.rfl) rfl id
  · exact fun e p hp => (h₃ e p hp).congr rfl (fun _ _ => rfl) (fun _ _ => .refl) (fun _ hu => ⟨hu, id⟩)
  · intro r' hr'
    rcases mem_cons.mp hr' with rfl | hr'
    · exact hr
    · exact h₆ r' hr'

omit dT dE in
theorem Inv.returnAtOnce {events value : BitVec 32} : Inv (KEvent.returnAtOnce s t e events value) :=
  h.returned ⟨nofun, nofun⟩

omit dT in
theorem Inv.reset (hfree : s.post e = none) :
    Inv { s with events := update s.events e 0 } := by
  refine ⟨h.nodup, ?_, ?_, h.apart, ?_, h.returns⟩
  · exact fun t => (h.thread t).congr (fun _ => Iff.rfl) rfl id
  · intro e' p hp
    have hne : e' ≠ e := by
      rintro rfl
      cases hfree.symm.trans hp
    exact (h.post e' p hp).congr (update_of_ne hne _ _) (fun _ _ => rfl) (fun _ _ => .refl)
      (fun _ hu => ⟨hu, id⟩)
  · intro e' t hp ht
    by_cases he : e' = e
    · show ¬ Met s t (update s.events e 0 e')
      rw [he, update_self, Met, areWaitConditionsMet_zero ((h.thread t).pends (ht ▸ some_ne_none _)).1]
      exact Bool.false_ne_true
    · show ¬ Met s t (update s.events e 0 e')
      rw [update_of_ne he]
      exact h.woken e' t hp ht

omit dT dE in
theorem Inv.pendedOn_none (hruns : (s.thread t).call = none ∨ (s.thread t).queued = true) :
    (s.thread t).pendedOn = none := by
  by_contra hne
  obtain ⟨-, -, hq, hc⟩ := (h.thread t).pends hne
  rcases hruns with hcall | hqueued
  · exact hc hcall
  · cases hq.symm.trans hqueued

omit dT dE in
theorem Inv.not_unserved (hruns : (s.thread t).call = none ∨ (s.thread t).queued = true)
    (hp : s.post e = some p) : t ∉ p.unserved := by
  have hok := h.post e p hp
  have hpends := h.pendedOn_none hruns
  have hrest : t ∉ p.rest := fun hr => by cases hpends.symm.trans (hok.rest t hr)
  intro ht
  unfold Post.unserved at ht
  split at ht
  · rename_i hph
    rcases mem_cons.mp ht with rfl | hr
    · rcases hph with hph | hph
      · cases hpends.symm.trans (hok.unpend hph)
      · obtain ⟨-, -, hc, hq⟩ := hok.serve hph
        rcases hruns with hcall | hqueued
        · exact hc hcall
        · cases hq.symm.trans hqueued
    · exact hrest hr
  · exact hrest ht

theorem Inv.zPendCurr {waitAll : Bool} {timeout : Timeout}
    (hcall : (s.thread t).call = none) (hfree : s.post e = none) (hne : events ≠ 0)
    (hnot : areWaitConditionsMet events (s.events e) waitAll = false) :
    Inv (KEvent.zPendCurr s t e events waitAll timeout) := by
  have hpends := h.pendedOn_none (.inl hcall)
  have hout : ∀ e, t ∉ s.waitq e := by
    intro e
    rw [(h.thread t).listed e, hpends]
    nofun
  have hself : (KEvent.zPendCurr s t e events waitAll timeout).thread t = { s.thread t with
        events, waitAll, pendedOn := some e, retval := -EAGAIN, timeoutActive := decide (timeout ≠ .forever),
        queued := false, call := some (e, events), cause := .atOnce } :=
    update_self ..
  refine h.move (t := t) ?_ ?_ ?_ rfl rfl (fun _ => .inl) ⟨?_, ?_, ?_⟩ ?_ ?_
  · intro u hu
    exact update_of_ne hu _ _
  · intro e' u hu
    by_cases he : e' = e
    · simp [KEvent.zPendCurr, he, hu]
    · simp [KEvent.zPendCurr, he, setThread]
  · intro e'
    by_cases he : e' = e
    · simpa [KEvent.zPendCurr, he, nodup_zPriqDumbAdd] using ⟨hout e, h.nodup e⟩
    · simpa [KEvent.zPendCurr, he, setThread] using h.nodup e'
  · intro e'
    rw [hself]
    by_cases he : e' = e
    · simp [KEvent.zPendCurr, he]
    · simpa [KEvent.zPendCurr, he, setThread, Ne.symm he] using hout e'
  · rw [hself]
    exact fun _ => ⟨hne, rfl, rfl, nofun⟩
  · rw [hself]
    nofun
  · intro e'
    exact .inl ⟨rfl, fun p hp ht => absurd ht (h.not_unserved (.inl hcall) hp)⟩
  · intro e' he'
    rw [hself] at he'
    cases some.inj he'
    rw [Met, hself]
    exact .inr ⟨hfree, by simpa using hnot⟩

theorem Inv.kEventWaitInternal {waitAll reset : Bool} {timeout : Timeout}
    (hcall : (s.thread t).call = none) (hfree : events = 0 ∨ s.post e = none) :
    Inv (KEvent.kEventWaitInternal s t e events waitAll reset timeout) := by
  unfold KEvent.kEventWaitInternal
  by_cases hne : events = 0
  · rw [if_pos hne]
    exact h.returnAtOnce
  rw [if_neg hne]
  have hfree := hfree.resolve_left hne
  have hreset : ∃ s₁ : System T E, (if reset then { s with events := update s.events e 0 } else s) = s₁ ∧
      Inv s₁ ∧ s₁.thread = s.thread ∧ s₁.post = s.post := by
    cases reset with
    | true => exact ⟨_, rfl, h.reset hfree, rfl, rfl⟩
    | false => exact ⟨_, rfl, h, rfl, rfl⟩
  obtain ⟨s₁, hs₁, h₁, hthread, hpost⟩ := hreset
  simp only [hs₁]
  split
  · exact h₁.returnAtOnce
  · rename_i hnot
    split
    · exact h₁.returnAtOnce
    · exact h₁.zPendCurr (by rw [hthread]; exact hcall) (by rw [hpost]; exact hfree) hne (by simpa using hnot)

omit dE in
theorem Inv.kEventWaitWoken (hcall : (s.thread t).call = some (e, events))
    (hqueued : (s.thread t).queued = true) : Inv (KEvent.kEventWaitWoken s t e events) := by
  have hcall' : (s.thread t).call ≠ none := hcall ▸ nofun
  have hpends := h.pendedOn_none (.inr hqueued)
  have hr : ReturnOk ⟨t, e, events, (s.thread t).cause,
      (if (s.thread t).retval = 0 then (s.thread t).events else 0) &&& events⟩ := by
    rcases (h.thread t).ended hcall' hpends with ⟨hc, hv⟩ | ⟨posted, hc, hv, he⟩ | ⟨hq, -⟩
    · simp [ReturnOk, hc, hv, EAGAIN]
    · simp [ReturnOk, hc, hv, he]
    · cases hqueued.symm.trans hq
  have hmove : Inv (setThread s t { s.thread t with call := none }) := by
    refine h.move (t := t) ?_ (fun _ _ _ => Iff.rfl) h.nodup rfl rfl (fun _ => .inl) ⟨?_, ?_, ?_⟩ ?_ ?_
    · intro u hu
      exact update_of_ne hu _ _
    · intro e'
      simpa [setThread] using (h.thread t).listed e'
    · simp [setThread, hpends]
    · simp [setThread]
    · exact fun e' => .inl ⟨rfl, fun p hp ht => absurd ht (h.not_unserved (.inr hqueued) hp)⟩
    · simp [setThread, hpends]
  exact hmove.returned hr

omit dE in
theorem Inv.expire :
    Inv { setThread s t { s.thread t with timeoutActive := false } with firing := some t } := by
  have hself : (setThread s t { s.thread t with timeoutActive := false }).thread t =
      { s.thread t with timeoutActive := false } := update_self ..
  have hkeep : Keeps (s.thread t) ((setThread s t { s.thread t with timeoutActive := false }).thread t) := by
    rw [Keeps, hself]
  refine h.move (t := t) ?_ (fun _ _ _ => Iff.rfl) h.nodup rfl rfl (fun _ => .inl) ⟨?_, ?_, ?_⟩ ?_ ?_
  · intro u hu
    exact update_of_ne hu _ _
  · rw [hself]
    exact (h.thread t).listed
  · rw [hself]
    exact (h.thread t).pends
  · rw [Ended, hself]
    exact (h.thread t).ended
  · exact fun e => .inl ⟨rfl, fun p _ _ => hkeep⟩
  · exact fun e _ => .inl hkeep

end

/-! ## Posts -/

omit dT dE in
theorem Inv.mem_collected (h : Inv s) :
    t ∈ collected s e events ↔ (s.thread t).pendedOn = some e ∧ Met s t events := by
  simp [collected, (h.thread t).listed e]

omit dE in
theorem Inv.collect (h : Inv s) (events : BitVec 32) :
    Chain (collect s events (s.waitq e) none s.nextEventLink).2 (collect s events (s.waitq e) none s.nextEventLink).1
        (collected s e events) ∧
      ∀ t ∉ collected s e events, (collect s events (s.waitq e) none s.nextEventLink).2 t = s.nextEventLink t := by
  obtain ⟨hchain, hother⟩ := @collect_spec _ _ _ s events _ [] none s.nextEventLink (h.nodup e)
    (fun _ _ => List.not_mem_nil) rfl
  rw [List.append_nil] at hchain
  exact ⟨hchain, fun t ht => hother t fun hin => ht (List.mem_reverse.mpr hin)⟩

omit dT in
theorem nil_of_chain {link : T → Option T} {head : Option T} {l : List T} (h : Chain link head l)
    (hn : head = none) : l = [] := by
  subst hn
  cases l with
  | nil => rfl
  | cons => cases h.1

omit dT in
/-- The post that goes on with a chain of threads has all of them. -/
theorem post_of_chain {link : T → Option T} {head : Option T} {l : List T} (h : Chain link head l) {x : BitVec 32}
    {post : E → Option (Post T)} {e' : E} {p : Post T}
    (hp : update post e (head.map fun thread => (⟨x, .unpend, thread, l.tail⟩ : Post T)) e' = some p) :
    e' ≠ e ∧ post e' = some p ∨
      e' = e ∧ p.posted = x ∧ p.phase = .unpend ∧ head = some p.thread ∧ p.thread :: p.rest = l := by
  by_cases he : e' = e
  · rw [he, update_self, map_eq_some_iff] at hp
    obtain ⟨thread, rfl, rfl⟩ := hp
    refine .inr ⟨he, rfl, rfl, rfl, ?_⟩
    cases l with
    | nil => cases h
    | cons => rw [some.inj h.1, List.tail_cons]
  · rw [update_of_ne he] at hp
    exact .inl ⟨he, hp⟩

theorem Inv.kEventPostInternal (h : Inv s) {accumulate : Bool} (hfree : s.post e = none)
    (hord : ∀ t ∈ collected s e (postedEvents s e events accumulate), ∀ e' p, s.post e' = some p → p.thread ≠ t) :
    Inv (KEvent.kEventPostInternal s e events accumulate) := by
  generalize hx : postedEvents s e events accumulate = x at hord
  obtain ⟨hchain, hother⟩ := h.collect (e := e) x
  generalize hc : KEvent.collect s x (s.waitq e) none s.nextEventLink = c at hchain hother
  obtain ⟨head, link⟩ := c
  have heq : KEvent.kEventPostInternal s e events accumulate = { s with
        events := update s.events e x
        nextEventLink := link
        post := update s.post e (head.map fun thread => ⟨x, .unpend, thread, (collected s e x).tail⟩) } := by
    simp only [KEvent.kEventPostInternal, hx, hc]
  rw [heq]
  -- the threads of another post are not among those that this one collects
  have hapart : ∀ e' p, e' ≠ e → s.post e' = some p → ∀ t ∈ p.thread :: p.rest, t ∉ collected s e x := by
    intro e' p hne hp t ht hin
    rcases mem_cons.mp ht with rfl | ht
    · exact hord p.thread hin e' p hp rfl
    · have hpend := (h.post e' p hp).rest t ht
      cases hpend.symm.trans (h.mem_collected.mp hin).1
      exact hne rfl
  refine ⟨h.nodup, ?_, ?_, ?_, ?_, h.returns⟩
  · intro t
    refine (h.thread t).congr (fun _ => Iff.rfl) rfl ?_
    rintro ⟨e', p, hp, hpt, hph⟩
    have hne : e' ≠ e := by
      rintro rfl
      cases hfree.symm.trans hp
    exact ⟨e', p, (update_of_ne hne _ _).trans hp, hpt, hph⟩
  · intro e' p hp
    rcases post_of_chain hchain hp with ⟨hne, hp⟩ | ⟨rfl, hposted, hph, hth, hrest⟩
    · refine (h.post e' p hp).congr (update_of_ne hne _ _) ?_ (fun _ _ => .refl) (fun _ hu => ⟨hu, id⟩)
      exact fun t ht => hother t (hapart e' p hne hp t ht)
    · have hmem : ∀ t, t ∈ p.thread :: p.rest ↔ (s.thread t).pendedOn = some e' ∧ Met s t x := by
        intro t
        rw [hrest]
        exact h.mem_collected
      refine ⟨?_, ?_, ?_, ?_, ?_, ?_, ?_⟩
      · exact (update_self ..).trans hposted.symm
      · rw [hrest, ← hth]
        exact hchain
      · rw [hrest]
        exact List.nodup_reverse.mpr ((h.nodup e').filter _)
      · exact fun t ht => ((hmem t).mp (mem_cons_of_mem _ ht)).1
      · exact fun _ => ((hmem p.thread).mp (mem_cons_self ..)).1
      · rw [hph]
        nofun
      · intro t ht hm
        rw [hposted] at hm
        rcases mem_cons.mp ((hmem t).mpr ⟨ht, hm⟩) with rfl | hin
        · exact .inr ⟨hph, rfl⟩
        · exact .inl hin
  · intro e₁ e₂ p₁ p₂ hp₁ hp₂ hne t ht
    rcases post_of_chain hchain hp₁ with ⟨hne₁, hold₁⟩ | ⟨rfl, -, -, -, hrest₁⟩
    · rcases post_of_chain hchain hp₂ with ⟨-, hold₂⟩ | ⟨rfl, -, -, -, hrest₂⟩
      · exact h.apart e₁ e₂ p₁ p₂ hold₁ hold₂ hne t ht
      · rw [hrest₂]
        exact hapart e₁ p₁ hne₁ hold₁ t ht
    · rcases post_of_chain hchain hp₂ with ⟨hne₂, hold₂⟩ | ⟨rfl, -⟩
      · rw [hrest₁] at ht
        exact fun hin => hapart e₂ p₂ hne₂ hold₂ t hin ht
      · exact absurd rfl hne
  · intro e' t hp ht
    by_cases he : e' = e
    · subst he
      change update s.post e' _ e' = none at hp
      rw [update_self, map_eq_none_iff] at hp
      show ¬ Met s t (update s.events e' x e')
      rw [update_self]
      intro hm
      have hin := h.mem_collected.mpr ⟨ht, hm⟩
      rw [nil_of_chain hchain hp] at hin
      cases hin
    · change update s.post e _ e' = none at hp
      rw [update_of_ne he] at hp
      show ¬ Met s t (update s.events e x e')
      rw [update_of_ne he]
      exact h.woken e' t hp ht

omit dT in
theorem Post.mem_of_unserved (h : t ∈ p.unserved) : t ∈ p.thread :: p.rest := by
  unfold Post.unserved at h
  split at h
  · exact h
  · exact mem_cons_of_mem _ h

section
variable (h : Inv s) (hp : s.post e = some p)
include h hp

theorem Inv.moved {p' : Post T} {v : Thread E} {waitq : E → List T}
    (hthread : p'.thread = p.thread) (hrest : p'.rest = p.rest) (hposted : p'.posted = p.posted)
    (hphase : p'.phase ≠ .unpend) (hwaitq : ∀ e, ∀ u ≠ p.thread, u ∈ waitq e ↔ u ∈ s.waitq e)
    (hnodup : ∀ e, (waitq e).Nodup)
    (ht : ThreadOk { setPost (setThread s p.thread v) e (some p') with waitq } p.thread)
    (hserve : p'.phase = .serve →
      v.pendedOn = none ∧ v.cause = .post p.posted ∧ v.call ≠ none ∧ v.queued = false)
    (hpend : v.pendedOn = none ∨ p.phase ≠ .unpend ∧ v = s.thread p.thread) :
    Inv { setPost (setThread s p.thread v) e (some p') with waitq } := by
  set s' : System T E := { setPost (setThread s p.thread v) e (some p') with waitq } with hs'
  have hself : s'.thread p.thread = v := update_self ..
  have hother : ∀ u ≠ p.thread, s'.thread u = s.thread u := fun u hu => update_of_ne hu _ _
  have hok := h.post e p hp
  have hnot : p.thread ∉ p.rest := (nodup_cons.mp hok.nodup).1
  have hok' : PostOk s' e p' := by
    refine ⟨?_, ?_, ?_, ?_, fun hph => absurd hph hphase, ?_, ?_⟩
    · rw [hposted]
      exact hok.events
    · rw [hthread, hrest]
      exact hok.chain
    · rw [hthread, hrest]
      exact hok.nodup
    · intro u hu
      rw [hrest] at hu
      rw [hother u fun he => hnot (he ▸ hu)]
      exact hok.rest u hu
    · rw [hthread, hself, hposted]
      exact hserve
    · intro u hu hm
      rw [hposted] at hm
      have hin : u ∈ p.rest := by
        by_cases hut : u = p.thread
        · rw [hut, hself] at hu
          rcases hpend with hn | ⟨hph, hv⟩
          · cases hn.symm.trans hu
          · rw [met_congr (show s'.thread u = s.thread u by rw [hut, hself, hv])] at hm
            rcases hok.woken u (by rw [hut, ← hv]; exact hu) hm with hin | ⟨hun, -⟩
            · exact hin
            · exact absurd hun hph
        · rw [hother u hut] at hu
          rw [met_congr (hother u hut)] at hm
          rcases hok.woken u hu hm with hin | ⟨-, he⟩
          · exact hin
          · exact absurd he hut
      exact .inl (hrest ▸ hin)
  refine h.move (t := p.thread) hother hwaitq hnodup rfl rfl (fun _ => .inl) ht ?_ ?_
  · intro e'
    by_cases he : e' = e
    · rw [he]
      exact .inr ⟨p, p', hp, update_self .., rfl, hthread, hrest, hok'⟩
    · refine .inl ⟨update_of_ne he _ _, fun q hq hin => ?_⟩
      exact absurd (Post.mem_of_unserved hin) (h.apart e e' p q hp hq (Ne.symm he) p.thread (mem_cons_self ..))
  · intro e' he'
    rw [hself] at he' ⊢
    rcases hpend with hn | ⟨-, hv⟩
    · cases hn.symm.trans he'
    · exact .inl (.of_eq hv)

theorem Inv.unpend (hph : p.phase = .unpend) :
    Inv (setPost (unpendThreadNoTimeout s p.thread e (.post p.posted)) e (some { p with phase := .serve })) := by
  have hw := (h.post e p hp).unpend hph
  obtain ⟨-, hret, hqueued, hcall⟩ := (h.thread p.thread).pends (hw ▸ nofun)
  obtain ⟨hnodup, hout, hother⟩ := h.erase hw
  refine @Inv.moved _ _ _ _ s e p h hp _ { s.thread p.thread with pendedOn := none, cause := .post p.posted } _
    rfl rfl rfl nofun hother hnodup ⟨?_, ?_, ?_⟩ (fun _ => ⟨rfl, rfl, hcall, hqueued⟩) (.inl rfl)
  · intro e'
    refine iff_of_false (hout e') ?_
    simp [setPost, setThread]
  · simp [setPost, setThread]
  · refine fun _ _ => .inr (.inr ⟨?_, e, _, update_self .., rfl, rfl⟩)
    simpa [setPost, setThread] using hqueued

theorem Inv.serve (hph : p.phase = .serve) :
    Inv (setPost
      (setThread s p.thread { s.thread p.thread with timeoutActive := false, retval := 0, events := p.posted }) e
      (some { p with phase := .ready })) := by
  obtain ⟨hw, hcause, hcall, hqueued⟩ := (h.post e p hp).serve hph
  refine @Inv.moved _ _ _ _ s e p h hp _
    { s.thread p.thread with timeoutActive := false, retval := 0, events := p.posted } s.waitq rfl rfl rfl nofun
    (fun _ _ _ => Iff.rfl) h.nodup ⟨?_, ?_, ?_⟩ nofun (.inl hw)
  · intro e'
    simpa [setPost, setThread] using (h.thread p.thread).listed e'
  · simp [setPost, setThread, hw]
  · refine fun _ _ => .inr (.inl ⟨p.posted, ?_, ?_, ?_⟩)
    all_goals simp [setPost, setThread, hcause]

theorem Inv.ready (hph : p.phase = .ready) :
    Inv (setPost (zReadyThread s p.thread) e (some { p with phase := .advance })) := by
  obtain ⟨q, hq, hsame⟩ := zReadyThread_eq (s := s) (t := p.thread)
  -- no other post has come to this thread
  have hserved : ¬ Unserved s p.thread := by
    rintro ⟨e', p', hp', hth, hph'⟩
    by_cases he : e = e'
    · cases hp.symm.trans (he ▸ hp')
      cases hph.symm.trans hph'
    · exact h.apart e e' p p' hp hp' he p.thread (mem_cons_self ..) (hth ▸ mem_cons_self ..)
  have hv : (s.thread p.thread).pendedOn ≠ none → { s.thread p.thread with queued := q } = s.thread p.thread :=
    fun hne => by rw [hsame hne]
  rw [hq]
  refine @Inv.moved _ _ _ _ s e p h hp _ { s.thread p.thread with queued := q }
    s.waitq rfl rfl rfl nofun (fun _ _ _ => Iff.rfl) h.nodup ⟨?_, ?_, ?_⟩ nofun ?_
  · intro e'
    simpa [setPost, setThread] using (h.thread p.thread).listed e'
  · intro hne
    have hne : (s.thread p.thread).pendedOn ≠ none := by simpa [setPost, setThread] using hne
    simp only [setPost, setThread, update_self, hv hne]
    exact (h.thread p.thread).pends hne
  · intro hcall hnone
    have hcall : (s.thread p.thread).call ≠ none := by simpa [setPost, setThread] using hcall
    have hnone : (s.thread p.thread).pendedOn = none := by simpa [setPost, setThread] using hnone
    rcases (h.thread p.thread).ended hcall hnone with ht | hpost | ⟨-, hs⟩
    · exact .inl (by simpa [setPost, setThread] using ht)
    · exact .inr (.inl (by simpa [setPost, setThread] using hpost))
    · exact absurd hs hserved
  · by_cases hn : (s.thread p.thread).pendedOn = none
    · exact .inl hn
    · exact .inr ⟨by rw [hph]; nofun, hv hn⟩

omit dT in
theorem Inv.advance (hph : p.phase = .advance) :
    Inv (setPost s e ((s.nextEventLink p.thread).map fun thread => ⟨p.posted, .unpend, thread, p.rest.tail⟩)) := by
  have hok := h.post e p hp
  obtain ⟨hnot, hnodup⟩ := nodup_cons.mp hok.nodup
  have hchain : Chain s.nextEventLink (s.nextEventLink p.thread) p.rest := (chain_cons.mp hok.chain).2
  -- every post that is there has collected no more than before
  have hback : ∀ e' p', update s.post e ((s.nextEventLink p.thread).map fun thread =>
        (⟨p.posted, .unpend, thread, p.rest.tail⟩ : Post T)) e' = some p' →
      ∃ q, s.post e' = some q ∧ ∀ t ∈ p'.thread :: p'.rest, t ∈ q.thread :: q.rest := by
    intro e' p' hp'
    rcases post_of_chain hchain hp' with ⟨-, hold⟩ | ⟨rfl, -, -, -, hrest⟩
    · exact ⟨p', hold, fun _ ht => ht⟩
    · refine ⟨p, hp, fun t ht => ?_⟩
      rw [hrest] at ht
      exact mem_cons_of_mem _ ht
  refine ⟨h.nodup, ?_, ?_, ?_, ?_, h.returns⟩
  · intro t
    refine (h.thread t).congr (fun _ => Iff.rfl) rfl ?_
    rintro ⟨e', q, hq, hqt, hqph⟩
    have hne : e' ≠ e := by
      rintro rfl
      cases hp.symm.trans hq
      cases hph.symm.trans hqph
    exact ⟨e', q, (update_of_ne hne _ _).trans hq, hqt, hqph⟩
  · intro e' p' hp'
    rcases post_of_chain hchain hp' with ⟨-, hold⟩ | ⟨rfl, hposted, hph', hth, hrest⟩
    · exact (h.post e' p' hold).congr rfl (fun _ _ => rfl) (fun _ _ => .refl) (fun _ hu => ⟨hu, id⟩)
    · refine ⟨hok.events.trans hposted.symm, ?_, hrest ▸ hnodup, ?_, ?_, ?_, ?_⟩
      · rw [hrest, ← hth]
        exact hchain
      · exact fun t ht => hok.rest t (hrest ▸ mem_cons_of_mem _ ht)
      · exact fun _ => hok.rest p'.thread (hrest ▸ mem_cons_self ..)
      · rw [hph']
        nofun
      · intro t ht hm
        rw [hposted] at hm
        rcases hok.woken t ht hm with hin | ⟨hun, -⟩
        · rw [← hrest] at hin
          rcases mem_cons.mp hin with rfl | hin
          · exact .inr ⟨hph', rfl⟩
          · exact .inl hin
        · cases hph.symm.trans hun
  · intro e₁ e₂ p₁ p₂ hp₁ hp₂ hne t ht hin
    obtain ⟨q₁, hq₁, hsub₁⟩ := hback e₁ p₁ hp₁
    obtain ⟨q₂, hq₂, hsub₂⟩ := hback e₂ p₂ hp₂
    exact h.apart e₁ e₂ q₁ q₂ hq₁ hq₂ hne t (hsub₁ t ht) (hsub₂ t hin)
  · intro e' t hn ht hm
    by_cases he : e' = e
    · subst he
      change update s.post e' _ e' = none at hn
      rw [update_self, map_eq_none_iff] at hn
      rcases hok.woken t ht (hok.events ▸ hm) with hin | ⟨hun, -⟩
      · rw [nil_of_chain hchain hn] at hin
        cases hin
      · cases hph.symm.trans hun
    · change update s.post e _ e' = none at hn
      rw [update_of_ne he] at hn
      exact h.woken e' t hn ht hm

theorem Inv.postStep : ∃ s', postStep s e p = .ok s' ∧ Inv s' := by
  simp only [KEvent.postStep]
  cases hph : p.phase with
  | unpend =>
    rw [(h.post e p hp).unpend hph]
    exact ⟨_, rfl, h.unpend hp hph⟩
  | serve => exact ⟨_, rfl, h.serve hp hph⟩
  | ready => exact ⟨_, rfl, h.ready hp hph⟩
  | advance => exact ⟨_, rfl, h.advance hp hph⟩

end

/-! ## Runs -/

omit dT dE in
theorem Inv.fired (h : Inv s) (f : Option T) : Inv { s with firing := f } := by
  obtain ⟨h₁, h₂, h₃, h₄, h₅, h₆⟩ := h
  refine ⟨h₁, ?_, ?_, h₄, h₅, h₆⟩
  · exact fun t => (h₂ t).congr (fun _ => Iff.rfl) rfl id
  · exact fun e p hp => (h₃ e p hp).congr rfl (fun _ _ => rfl) (fun _ _ => .refl) (fun _ hu => ⟨hu, id⟩)

theorem Inv.step (h : Inv s) {a : Act T E} (ho : Orderly s a) :
    KEvent.step s a = .error .refused ∨ ∃ s', KEvent.step s a = .ok s' ∧ Inv s' := by
  cases a with
  | wait t e events waitAll reset timeout =>
    simp only [KEvent.step]
    split
    · rename_i hc
      exact .inr ⟨_, rfl, h.kEventWaitInternal hc.1 hc.2.2⟩
    · exact .inl rfl
  | woken t =>
    simp only [KEvent.step]
    cases hc : (s.thread t).call with
    | none => exact .inl rfl
    | some call =>
      by_cases hq : (s.thread t).queued = true
      · exact .inr ⟨_, if_pos hq, h.kEventWaitWoken hc hq⟩
      · exact .inl (if_neg hq)
  | post e events accumulate =>
    simp only [KEvent.step]
    split
    · rename_i hfree
      exact .inr ⟨_, rfl, h.kEventPostInternal hfree ho⟩
    · exact .inl rfl
  | postStep e =>
    simp only [KEvent.step]
    cases hp : s.post e with
    | none => exact .inl rfl
    | some p => exact .inr (h.postStep hp)
  | expire t =>
    simp only [KEvent.step]
    split
    · exact .inr ⟨_, rfl, h.expire⟩
    · exact .inl rfl
  | threadTimeout =>
    simp only [KEvent.step]
    cases hf : s.firing with
    | none => exact .inl rfl
    | some t => exact .inr ⟨_, rfl, (h.zThreadTimeout fun e p hp => ho t hf e p hp).fired none⟩

omit dT dE in
theorem initial_inv {prio : T → Int} {link : T → Option T} : Inv (initial prio link : System T E) where
  nodup _ := List.nodup_nil
  thread _ := ⟨fun _ => iff_of_false List.not_mem_nil nofun, fun h => absurd rfl h, fun h => absurd rfl h⟩
  post _ _ hp := by cases hp
  apart _ _ _ _ hp := by cases hp
  woken _ _ _ ht := by cases ht
  returns _ hr := by cases hr

/-- Whatever happens between the steps of the posts, nobody is unpended who does not wait for the event, nobody goes on
waiting for what a post has left there, and what ended a wait decides what is returned. -/
theorem events_sound (prio : T → Int) (link : T → Option T) {acts : List (Act T E)}
    (ho : Along step Orderly (initial prio link) acts) :
    run step (initial prio link) acts ≠ .error .nullWaitQ ∧
      ∀ s, run step (initial prio link) acts = .ok s → Sound s := by
  have hstep : ∀ s a s', Inv s → Orderly s a → step s a = .ok s' → Inv (s' : System T E) := by
    intro s a s' h ho hs
    rcases h.step ho with hr | ⟨s₁, hs₁, h₁⟩
    · cases hr.symm.trans hs
    · cases hs₁.symm.trans hs
      exact h₁
  constructor
  · refine run_no_stop hstep ?_ initial_inv ho
    intro s a h ho hs
    rcases h.step ho with hr | ⟨s₁, hs₁, -⟩
    · cases hr.symm.trans hs
    · cases hs₁.symm.trans hs
  · exact fun s hs => (run_inv hstep initial_inv ho hs).sound

/-- One post wakes two threads, one of which wants all of its events; the timeout of the other expires meanwhile and
finds it served. A third thread times out. -/
theorem events_sound_three :
    ∃ s, run step (initial (fun _ => 0) fun _ => none : System (Fin 3) Unit)
      [.wait 0 () 1 false false .ticks, .wait 1 () 6 true false .forever, .wait 2 () 8 false true .ticks,
        .post () 7 true, .expire 0, .postStep (), .postStep (), .postStep (), .postStep (), .postStep (), .postStep (),
        .threadTimeout, .postStep (), .postStep (), .expire 2, .threadTimeout, .woken 0, .woken 1, .woken 2] = .ok s ∧
      s.returns.map (fun r => (r.thread, r.cause, r.value)) = [(2, .timeout, 0), (1, .post 7, 6), (0, .post 7, 1)] ∧
      Sound s :=
  ⟨_, and_then rfl fun hrun => ⟨by decide, (events_sound _ _ (by decide)).2 _ hrun⟩⟩

/-- The timeout of a thread that a post has collected takes it out of the queue before the post does. -/
theorem events_sound_timeout :
    run step (initial (fun _ => 0) fun _ => none : System (Fin 1) Unit)
      [.wait 0 () 1 false false .ticks, .post () 1 true, .expire 0, .threadTimeout, .postStep ()] =
      .error .nullWaitQ ∧
    ∃ s, run step (initial (fun _ => 0) fun _ => none : System (Fin 1) Unit)
      [.wait 0 () 1 false false .ticks, .post () 1 true, .expire 0, .threadTimeout] = .ok s ∧ ¬ Sound s := by
  refine ⟨rfl, _, rfl, fun h => ?_⟩
  cases (h.unpends () ⟨1, .unpend, 0, []⟩ rfl rfl).1

end RtosKernel.Zephyr.KEvent
