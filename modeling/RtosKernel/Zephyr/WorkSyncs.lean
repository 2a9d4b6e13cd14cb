import RtosKernel.Zephyr.WorkStates

/-! # Flushes and synchronous cancels (`work.c`)

The submissions of an item are counted. A call notes the count when it takes the lock. A flusher stays behind
those of its item that were accepted until then; a canceller is released by the one that runs. -/

namespace RtosKernel.Zephyr.Works
open Lib.Runs Relation

variable {I Q S T : Type}

variable {delayable : I → Bool} {s s' : System I Q S T} {e : Event I Q S T} {i j : I} {q q' : Q} {f : S} {k m : Nat}

def Queued (s : System I Q S T) (i : I) (k : Nat) : Prop :=
  (s.work (.item i)).queued = true ∧ (s.work (.item i)).accepted = k

/-- The handler runs for the submission. -/
def Runs (s : System I Q S T) (i : I) (k : Nat) : Prop :=
  (s.work (.item i)).running = true ∧ (s.work (.item i)).serial = k

def Live (s : System I Q S T) (i : I) (k : Nat) : Prop := Queued s i k ∨ Runs s i k

/-- None of the first `m` submissions is still to run. -/
structure Dropped (s : System I Q S T) (i : I) (m : Nat) : Prop where
  bound : m ≤ (s.work (.item i)).accepted
  queued : (s.work (.item i)).queued = true → m < (s.work (.item i)).accepted

/-- The first `m` submissions are over. -/
structure Over (s : System I Q S T) (i : I) (m : Nat) : Prop extends Dropped s i m where
  runs : (s.work (.item i)).running = true → m < (s.work (.item i)).serial

theorem Over.not_live (h : Over s i m) (hk : k ≤ m) : ¬Live s i k := by
  rintro (⟨hq, ha⟩ | ⟨hr, hs⟩)
  · have hlt := h.queued hq
    omega
  · have hlt := h.runs hr
    omega

/-! ## Steps of an item -/

/-- What a move does to an item, as to its submissions. -/
inductive Turn (e : Event I Q S T) (i : I) (w w' : Work Q) : Prop
  | same (hq : w'.queued = w.queued) (hr : w'.running = w.running) (ha : w'.accepted = w.accepted)
      (hs : w'.serial = w.serial) (hw : w'.queue = w.queue)
  | accept (hq : w.queued = false) (ha : w'.accepted = w.accepted + 1) (hr : w'.running = w.running)
      (hs : w'.serial = w.serial) (hw : w.running = true → w'.queue = w.queue)
  | remove (he : e.cancels = some i) (hq : w'.queued = false) (hr : w'.running = w.running)
      (ha : w'.accepted = w.accepted) (hs : w'.serial = w.serial) (hw : w'.queue = w.queue)
  | take (hq : w.queued = true) (hr : w.running = false) (hq' : w'.queued = false) (hr' : w'.running = true)
      (ha : w'.accepted = w.accepted) (hs : w'.serial = w.accepted) (hw : w'.queue = w.queue)
  | finish (he : ∃ q, e = .finish q (.item i)) (hr : w'.running = false) (hq : w'.queued = w.queued)
      (ha : w'.accepted = w.accepted) (hs : w'.serial = w.serial) (hw : w'.queue = w.queue)

theorem Turn.refl {w : Work Q} : Turn e i w w := .same rfl rfl rfl rfl rfl

theorem Turn.of_eq {w w' : Work Q} (h : w' = w) : Turn e i w w' := h ▸ .refl

variable [dI : DecidableEq I] [dQ : DecidableEq Q] [dS : DecidableEq S] [dT : DecidableEq T]

omit dT in
theorem Move.turn (h : Inv delayable s) (hm : Move delayable e s s') (i : I) :
    Turn e i (s.work (.item i)) (s'.work (.item i)) := by
  cases hm with
  | @accept e s j q he hc hq hr hs hd hp =>
    by_cases hij : i = j
    · subst hij
      exact .accept hq (by simp [Works.accept]) (by simp [Works.accept]) (by simp [Works.accept]) fun hrun => by
        simp [Works.accept, hr hrun]
    · exact .of_eq (by simp [Works.accept, hij])
  | @remove e s j q he hc hq hw =>
    by_cases hij : i = j
    · subst hij
      exact .remove he (by simp [Works.remove]) (by simp [Works.remove]) (by simp [Works.remove])
        (by simp [Works.remove]) (by simp [Works.remove])
    · exact .of_eq (by simp [Works.remove, hij])
  | @mark e s j he hr hq =>
    by_cases hij : i = j
    · subst hij
      exact .same (by simp [Works.mark]) (by simp [Works.mark]) (by simp [Works.mark]) (by simp [Works.mark])
        (by simp [Works.mark])
    · exact .of_eq (by simp [Works.mark, hij])
  | flushOn => exact .of_eq (by simp [Works.flushOn, System.wait, queueFlusherLocked])
  | @take s q hs hp =>
    cases hl : (s.workq q).pending with
    | nil =>
      rw [take_nil hl]
      exact .refl
    | cons n l =>
      rw [take_cons hl]
      by_cases hn : n = .item i
      · subst hn
        have hq := (h.item i).of_mem (hl ▸ List.mem_cons_self)
        have hr : (s.work (.item i)).running = false := by
          by_contra hr
          have hc := ((h.item i).current q).mpr ⟨by simpa using hr, hq.2⟩
          simp [hp, Phase.current] at hc
        exact .take hq.1 hr (by simp) (by simp) (by simp) (by simp) (by simp)
      · exact .of_eq (by simp [Ne.symm hn])
  | @handlerReturn s q n hp => cases n <;> exact .refl
  | @finish s q n hp =>
    by_cases hn : n = .item i
    · subst hn
      exact .finish ⟨q, rfl⟩ (by simp [finish_work]) (by simp [finish_work]) (by simp [finish_work])
        (by simp [finish_work]) (by simp [finish_work])
    · exact .of_eq (by simp [finish_work, Ne.symm hn])
  | @arm e s j queue delay =>
    by_cases hij : i = j
    · subst hij
      exact .same (by simp [arm_work]) (by simp [arm_work]) (by simp [arm_work]) (by simp [arm_work])
        (by simp [arm_work])
    · exact .of_eq (by simp [arm_work, hij])
  | @disarm e s j =>
    by_cases hij : i = j
    · subst hij
      refine .same ?_ ?_ ?_ ?_ ?_ <;> simp [Works.disarm, zAbortTimeout]
    · exact .of_eq (by simp [Works.disarm, zAbortTimeout, hij])
  | @expire s j =>
    by_cases hij : i = j
    · subst hij
      refine .same ?_ ?_ ?_ ?_ ?_ <;> simp [Works.expire]
    · exact .of_eq (by simp [Works.expire, hij])
  | cancelOn | resume | drainOn | unplug | announce | ignore | tick => exact .refl

section
omit dI dQ dS dT

theorem Dropped.turn (h : Dropped s i m) (ht : Turn e i (s.work (.item i)) (s'.work (.item i))) : Dropped s' i m := by
  obtain ⟨hb, hq⟩ := h
  cases ht with
  | same hq' _ ha => exact ⟨by omega, fun hqq => by have hlt := hq (hq' ▸ hqq); omega⟩
  | accept _ ha => exact ⟨by omega, fun _ => by omega⟩
  | remove _ hq' _ ha => exact ⟨by omega, fun hqq => by rw [hq'] at hqq; cases hqq⟩
  | take _ _ hq' _ ha => exact ⟨by omega, fun hqq => by rw [hq'] at hqq; cases hqq⟩
  | finish _ _ hq' ha => exact ⟨by omega, fun hqq => by have hlt := hq (hq' ▸ hqq); omega⟩

theorem Over.turn (h : Over s i m) (ht : Turn e i (s.work (.item i)) (s'.work (.item i))) : Over s' i m := by
  refine ⟨h.toDropped.turn ht, fun hr => ?_⟩
  cases ht with
  | same _ hr' _ hs => exact hs ▸ h.runs (hr' ▸ hr)
  | accept _ _ hr' hs => exact hs ▸ h.runs (hr' ▸ hr)
  | remove _ _ hr' _ hs => exact hs ▸ h.runs (hr' ▸ hr)
  | take hq _ _ _ _ hs => exact hs ▸ h.queued hq
  | finish _ hr' => rw [hr'] at hr; cases hr

theorem Live.turn (h : Live s i k) (ht : Turn e i (s.work (.item i)) (s'.work (.item i))) :
    Live s' i k ∨ e.cancels = some i ∨ ∃ q, e = .finish q (.item i) := by
  cases ht with
  | same hq hr ha hs => exact Or.inl (by simpa [Live, Queued, Runs, hq, hr, ha, hs] using h)
  | accept hq ha hr hs =>
    rcases h with hl | hl
    · rw [Queued, hq] at hl
      exact absurd hl.1 (by simp)
    · exact Or.inl (Or.inr ⟨hr.trans hl.1, hs.trans hl.2⟩)
  | remove he => exact Or.inr (Or.inl he)
  | take hq hr hq' hr' ha hs =>
    rcases h with hl | hl
    · exact Or.inl (Or.inr ⟨hr', hs.trans hl.2⟩)
    · rw [Runs, hr] at hl
      exact absurd hl.1 (by simp)
  | finish he => exact Or.inr (Or.inr he)

end

/-! ## Flushers behind their item -/

/-- A flusher that is queued is behind the submissions it waits for; once it is taken, they are over. -/
structure FlushOk (s : System I Q S T) (f : S) (i : I) (q : Q) (m : Nat) : Prop where
  bound : m ≤ (s.work (.item i)).accepted
  behind : .flusher f ∈ (s.workq q).pending → (s.work (.item i)).queued = true → (s.work (.item i)).accepted ≤ m →
    [.item i, .flusher f].Sublist (s.workq q).pending
  runs : .flusher f ∈ (s.workq q).pending → (s.work (.item i)).running = true → (s.work (.item i)).serial ≤ m →
    (s.work (.item i)).queue = some q
  ended : .flusher f ∉ (s.workq q).pending → Over s i m

/-- The item of a canceller has nothing queued, and nothing runs when it is released. -/
structure CancelOk (s : System I Q S T) (f : S) (i : I) (m : Nat) : Prop where
  dropped : Dropped s i m
  ended : s.sem f = true → Over s i m

structure CallsOk (s : System I Q S T) : Prop where
  flush : ∀ f i q m, s.call f = some (.flush i q m) → FlushOk s f i q m
  cancel : ∀ f i m, s.call f = some (.cancel i m) → CancelOk s f i m

omit dT in
theorem ItemOk.mem (h : ItemOk delayable s i) (hq : (s.work (.item i)).queued = true)
    (hw : (s.work (.item i)).queue = some q) : .item i ∈ (s.workq q).pending :=
  List.count_pos_iff.mp (by rw [h.pending q, if_pos ⟨hq, hw⟩]; decide)

omit dT in
theorem FlushOk.keep (h : FlushOk s f i q m) (ht : Turn e i (s.work (.item i)) (s'.work (.item i)))
    (hm : .flusher f ∈ (s'.workq q).pending ↔ .flusher f ∈ (s.workq q).pending)
    (hsub : (s'.work (.item i)).queued = true → [.item i, .flusher f].Sublist (s.workq q).pending →
      [.item i, .flusher f].Sublist (s'.workq q).pending)
    (hi : ItemOk delayable s i) : FlushOk s' f i q m := by
  refine ⟨?_, fun hf hq ha => ?_, fun hf hr hs => ?_, fun hf => (h.ended fun hf' => hf (hm.mpr hf')).turn ht⟩
  · have hb := h.bound
    cases ht <;> omega
  · have hb := h.bound
    cases ht with
    | same hq' _ ha' => exact hsub hq (h.behind (hm.mp hf) (hq' ▸ hq) (by omega))
    | accept _ ha' => omega
    | remove _ hq' => rw [hq'] at hq; cases hq
    | take _ _ hq' => rw [hq'] at hq; cases hq
    | finish _ _ hq' ha' => exact hsub hq (h.behind (hm.mp hf) (hq' ▸ hq) (by omega))
  · cases ht with
    | same _ hr' _ hs' hw => exact hw ▸ h.runs (hm.mp hf) (hr' ▸ hr) (hs' ▸ hs)
    | accept _ _ hr' hs' hw => exact hw (hr' ▸ hr) ▸ h.runs (hm.mp hf) (hr' ▸ hr) (hs' ▸ hs)
    | remove _ _ hr' _ hs' hw => exact hw ▸ h.runs (hm.mp hf) (hr' ▸ hr) (hs' ▸ hs)
    | take hq _ hq' _ ha' hs' hw =>
      have hsl := h.behind (hm.mp hf) hq (by omega)
      exact hw ▸ (hi.of_mem (hsl.subset List.mem_cons_self)).2
    | finish _ hr' => rw [hr'] at hr; cases hr

theorem sublist_insertAfter {prev n : Node I S} (l : List (Node I S)) : l.Sublist (insertAfter prev n l) := by
  induction l with
  | nil => exact .refl _
  | cons x l ih =>
    rw [insertAfter]
    split
    · exact ((List.Sublist.refl l).cons n).cons_cons x
    · exact ih.cons_cons x

theorem insertAfter_behind {prev n : Node I S} {l : List (Node I S)} (h : prev ∈ l) :
    [prev, n].Sublist (insertAfter prev n l) := by
  induction l with
  | nil => cases h
  | cons x l ih =>
    rw [insertAfter]
    split
    · next hx =>
      subst hx
      exact (List.Sublist.cons_cons n (List.nil_sublist l)).cons_cons x
    · next hx => exact (ih ((List.mem_cons.mp h).resolve_left fun he => hx he.symm)).cons x

section
omit dT

theorem sublist_queueFlusher : (s.workq q').pending.Sublist ((queueFlusherLocked s q i f).workq q').pending := by
  by_cases hq : q' = q
  · subst hq
    simp only [queueFlusherLocked, Function.update_self]
    split
    · exact sublist_insertAfter _
    · exact (List.Sublist.refl _).cons _
  · simp [queueFlusherLocked, hq]

theorem FlushOk.take (h : FlushOk s f i q m) (hinv : Inv delayable s) (hp : (s.workq q').phase = .ready)
    (hs : (s.workq q').started = true) : FlushOk (Works.take s q') f i q m := by
  have hm : Move delayable (.take q') s (Works.take s q') := .take hs hp
  have ht := hm.turn hinv i
  have hi := hinv.item i
  by_cases hq : q = q'
  · subst hq
    cases hl : (s.workq q).pending with
    | nil =>
      have hpend : ((Works.take s q).workq q).pending = (s.workq q).pending := by simp [take_nil hl]
      exact h.keep ht (by rw [hpend]) (fun _ => by rw [hpend]; exact id) hi
    | cons n l =>
      have hpend : ((Works.take s q).workq q).pending = l := by simp [take_cons hl]
      by_cases hn : n = .flusher f
      · -- the flusher is taken: all it was behind is over
        subst hn
        have hmem : .flusher f ∈ (s.workq q).pending := hl ▸ List.mem_cons_self
        have hcount := (hinv.sync f).flushers q
        have hle : (if Flushing s f q then 1 else 0) ≤ 1 := by split <;> omega
        rw [hl, List.count_cons_self] at hcount
        have hfl : .flusher f ∉ l := List.count_eq_zero.mp (by omega)
        refine ⟨?_, fun hm => absurd (hpend ▸ hm) hfl, fun hm => absurd (hpend ▸ hm) hfl, fun _ => ?_⟩
        · simpa [take_cons hl] using h.bound
        · refine Over.turn ⟨⟨h.bound, fun hqu => ?_⟩, fun hr => ?_⟩ ht
          · by_contra hle
            have hsl := h.behind hmem hqu (by omega)
            rw [hl] at hsl
            cases hsl with
            | cons _ hsl => exact hfl (hsl.subset (by simp))
          · by_contra hle
            have hc := (hi.current q).mpr ⟨hr, h.runs hmem hr (by omega)⟩
            simp [hp, Phase.current] at hc
      · refine h.keep ht ?_ (fun hqu hsl => ?_) hi
        · rw [hpend, hl]
          simp [Ne.symm hn]
        · rw [hpend]
          rw [hl] at hsl
          cases hsl with
          | cons _ hsl => exact hsl
          | cons_cons _ hsl => simp [take_cons hl] at hqu
  · have hpend : ((Works.take s q').workq q).pending = (s.workq q).pending := by
      cases hl : (s.workq q').pending with
      | nil => simp [take_nil hl, hq]
      | cons n l => simp [take_cons hl, hq]
    exact h.keep ht (by rw [hpend]) (fun _ => by rw [hpend]; exact id) hi

theorem FlushOk.move (h : FlushOk s f i q m) (hinv : Inv delayable s) (hc : s.call f = some (.flush i q m))
    (hm : Move delayable e s s') : FlushOk s' f i q m := by
  have ht := hm.turn hinv i
  have hi := hinv.item i
  have hsame : (s'.workq q).pending = (s.workq q).pending → FlushOk s' f i q m := fun hpend =>
    h.keep ht (by rw [hpend]) (fun _ => by rw [hpend]; exact id) hi
  cases hm with
  | @accept e s j q' =>
    by_cases hq : q = q'
    · subst hq
      have hpend : ((Works.accept s j q).workq q).pending = (s.workq q).pending ++ [.item j] := by simp [Works.accept]
      refine h.keep ht (by rw [hpend]; simp) (fun _ hsl => ?_) hi
      rw [hpend]
      exact hsl.trans (List.sublist_append_left _ _)
    · exact hsame (by simp [Works.accept, hq])
  | @remove e s j q' =>
    by_cases hq : q = q'
    · subst hq
      have hpend : ((Works.remove s j q).workq q).pending = (s.workq q).pending.erase (.item j) := by
        simp [Works.remove]
      refine h.keep ht (by rw [hpend]; exact List.mem_erase_of_ne (by simp)) (fun hqu hsl => ?_) hi
      have hij : i ≠ j := fun hij => by simp [Works.remove, hij] at hqu
      rw [hpend]
      have hers := hsl.erase (Node.item j)
      rwa [List.erase_of_not_mem (by simp [Ne.symm hij])] at hers
    · exact hsame (by simp [Works.remove, hq])
  | @flushOn e s f' j q' hf' =>
    have hff : f' ≠ f := fun he => by simp [he, hc] at hf'
    have hpend : ((Works.flushOn s f' j q').workq q).pending = ((queueFlusherLocked s q' j f').workq q).pending := by
      simp [Works.flushOn, System.wait]
    refine h.keep ht ?_ (fun _ hsl => ?_) hi
    · rw [hpend, ← List.count_pos_iff, queueFlusher_count, ← List.count_pos_iff]
      simp [hff]
    · rw [hpend]
      exact hsl.trans sublist_queueFlusher
  | take hs hp => exact h.take hinv hp hs
  | @drainOn s t q' plug => exact hsame (by by_cases hq : q = q' <;> simp [Works.drainOn, hq])
  | @unplug s q' => exact hsame (by by_cases hq : q = q' <;> simp [kWorkQueueUnplug, hq])
  | @handlerReturn s q' n => exact hsame (by by_cases hq : q = q' <;> simp [handlerReturn_workq, hq])
  | @finish s q' n => exact hsame (by by_cases hq : q = q' <;> simp [finish_workq, hq])
  | arm => exact hsame (by rw [arm_rest.1])
  | mark | cancelOn | resume | disarm | announce | expire | ignore | tick => exact hsame rfl

end

/-! ## Calls -/

/-- What a move does to a call. -/
inductive CallTurn (e : Event I Q S T) (s s' : System I Q S T) (f : S) : Prop
  | same (hc : s'.call f = s.call f) (hs : s'.sem f = s.sem f)
  | flush {i : I} {q : Q} (hf : s.call f = none) (hw : (s.work (.item i)).queue = some q) (hs : s' = flushOn s f i q)
  | cancel {i : I} (hf : s.call f = none) (hca : (s.work (.item i)).canceling = true) (hs : s' = cancelOn s f i)
  | resume (he : e = .resume f) (hs : s.sem f = true) (hc : s'.call f = none)
  | release {q : Q} (hc : s'.call f = s.call f) (hp : (s.workq q).phase = .handling (.flusher f))
  | finish {q : Q} {n : Node I S} (hc : s'.call f = s.call f) (he : e = .finish q n) (hs : s' = finish s q n)

omit dT in
theorem Move.callTurn (hm : Move delayable e s s') (f : S) : CallTurn e s s' f := by
  cases hm with
  | @flushOn e s f' i q hf hb hw =>
    by_cases hff : f = f'
    · subst hff
      exact .flush hf hw rfl
    · refine .same ?_ ?_ <;> simp [Works.flushOn, System.wait, hff, queueFlusherLocked]
  | @cancelOn e s f' i hf hca =>
    by_cases hff : f = f'
    · subst hff
      exact .cancel hf hca rfl
    · refine .same ?_ ?_ <;> simp [Works.cancelOn, System.wait, hff]
  | @resume s f' hf hs =>
    by_cases hff : f = f'
    · subst hff
      exact .resume rfl hs (by simp [Works.resume])
    · refine .same ?_ ?_ <;> simp [Works.resume, hff]
  | @take s q =>
    cases hl : (s.workq q).pending with
    | nil => exact .same (by rw [take_nil hl]; rfl) (by rw [take_nil hl]; rfl)
    | cons n l => exact .same (by rw [take_cons hl]; rfl) (by rw [take_cons hl]; rfl)
  | @handlerReturn s q n hp =>
    cases n with
    | item j => exact .same rfl rfl
    | flusher f' =>
      by_cases hff : f = f'
      · subst hff
        exact .release rfl hp
      · exact .same rfl (by simp [Works.handlerReturn, hff])
  | finish => exact .finish (by rw [finish_call]) rfl rfl
  | arm => exact .same (by rw [arm_rest.2.1]) (by rw [arm_rest.2.2.1])
  | accept | remove | mark | drainOn | unplug | disarm | announce | expire | ignore | tick => exact .same rfl rfl

omit dI dQ dS dT in
theorem CancelOk.congr (h : CancelOk s f i m) (ht : Turn e i (s.work (.item i)) (s'.work (.item i)))
    (hs : s'.sem f = true → s.sem f = true) : CancelOk s' f i m :=
  ⟨h.dropped.turn ht, fun hsem => (h.ended (hs hsem)).turn ht⟩

section
omit dT

theorem CancelOk.move (h : CancelOk s f i m) (hinv : Inv delayable s) (hc : s.call f = some (.cancel i m))
    (hm : Move delayable e s s') : CancelOk s' f i m := by
  have ht := hm.turn hinv i
  cases hm.callTurn f with
  | same _ hs => exact h.congr ht fun hsem => hs.symm.trans hsem
  | flush hf | cancel hf => exact absurd (hf.symm.trans hc) nofun
  | resume _ hs => exact h.congr ht fun _ => hs
  | release _ hp =>
    -- the call of a flusher is no cancel
    have hfl := ((hinv.sync f).flushing hp).1
    simp [hc, Call.flushQueue] at hfl
  | @finish q n _ _ hs' =>
    subst hs'
    by_cases hs : s.sem f = true
    · exact h.congr ht fun _ => hs
    · by_cases hn : n = .item i
      · -- it is released by the end of the handler, with nothing queued
        subst hn
        have hd := h.dropped.turn ht
        refine ⟨hd, fun _ => ⟨hd, fun hr => ?_⟩⟩
        simp [finish_work] at hr
      · refine h.congr ht fun hsem => ?_
        rw [finish_sem] at hsem
        split at hsem
        · rwa [giveAll_eq (hinv.sync f) fun j hj hcj => ?_] at hsem
          have hij : j = i := by simpa [Cancelling, hc, Call.cancelItem, eq_comm] using hcj.1
          exact hn (hij ▸ hj)
        · exact hsem

theorem FlushOk.begin (h : ItemOk delayable s i) (hw : (s.work (.item i)).queue = some q) :
    FlushOk (flushOn s f i q) f i q (s.work (.item i)).accepted := by
  have hwork : (flushOn s f i q).work (.item i) = s.work (.item i) := by
    simp [flushOn, System.wait, queueFlusherLocked]
  have hpend : ((flushOn s f i q).workq q).pending = ((queueFlusherLocked s q i f).workq q).pending := by
    simp [flushOn, System.wait]
  refine ⟨Nat.le_of_eq (by rw [hwork]), fun _ hq _ => ?_, fun _ _ _ => by rw [hwork, hw], fun hno => ?_⟩
  · have hm := h.mem hq hw
    rw [hpend]
    simp only [queueFlusherLocked, Function.update_self, if_pos hm]
    exact insertAfter_behind hm
  · rw [hpend, ← List.count_eq_zero, queueFlusher_count] at hno
    simp at hno

theorem CallsOk.move (h : CallsOk s) (hinv : Inv delayable s) (hm : Move delayable e s s') : CallsOk s' := by
  refine ⟨fun f i q m hc => ?_, fun f i m hc => ?_⟩
  · cases hm.callTurn f with
    | same hsame | release hsame | finish hsame =>
      have hcall := hsame.symm.trans hc
      exact (h.flush f i q m hcall).move hinv hcall hm
    | @flush j q' hf hw hs =>
      subst hs
      obtain ⟨rfl, rfl, rfl⟩ : j = i ∧ q' = q ∧ (s.work (.item j)).accepted = m := by
        simpa [Works.flushOn, System.wait] using hc
      exact .begin (hinv.item j) hw
    | cancel _ _ hs => simp [hs, Works.cancelOn, System.wait] at hc
    | resume _ _ hnone => simp [hnone] at hc
  · cases hm.callTurn f with
    | same hsame | release hsame | finish hsame =>
      have hcall := hsame.symm.trans hc
      exact (h.cancel f i m hcall).move hinv hcall hm
    | flush _ _ hs => simp [hs, Works.flushOn, System.wait] at hc
    | @cancel j hf hca hs =>
      subst hs
      obtain ⟨rfl, rfl⟩ : j = i ∧ (s.work (.item j)).accepted = m := by
        simpa [Works.cancelOn, System.wait] using hc
      have hq := ((hinv.item j).canceling hca).2
      refine ⟨⟨Nat.le_refl _, fun hqu => absurd (hq.symm.trans hqu) (by simp)⟩, fun hs => ?_⟩
      simp [Works.cancelOn, System.wait] at hs
    | resume _ _ hnone => simp [hnone] at hc

end

/-! ## Runs from a call on -/

/-- What a call depends on, over a run. -/
structure Tracked (delayable : I → Bool) (s : System I Q S T) : Prop where
  inv : Inv delayable s
  calls : CallsOk s
  serial : ∀ i, (s.work (.item i)).running = true → (s.work (.item i)).serial ≤ (s.work (.item i)).accepted

omit dT in
theorem Tracked.move (h : Tracked delayable s) (hm : Move delayable e s s') : Tracked delayable s' := by
  refine ⟨h.inv.move hm, h.calls.move h.inv hm, fun i hr => ?_⟩
  have hs := h.serial i
  cases hm.turn h.inv i with
  | same _ hr' ha hs' => have hle := hs (hr' ▸ hr); omega
  | accept _ ha hr' hs' => have hle := hs (hr' ▸ hr); omega
  | remove _ _ hr' ha hs' => have hle := hs (hr' ▸ hr); omega
  | take _ _ _ _ ha hs' => omega
  | finish _ hr' => rw [hr'] at hr; cases hr

omit dT in
theorem Tracked.moves (h : Tracked delayable s) (hm : Moves delayable e s s') : Tracked delayable s' := by
  induction hm with
  | refl => exact h
  | tail _ hm ih => exact ih.move hm

theorem Tracked.step (h : Tracked delayable s) (hs : step delayable s e = .ok s') : Tracked delayable s' :=
  h.moves (step_moves h.inv hs)

variable {es : List (Event I Q S T)}

theorem Tracked.run (h : Tracked delayable s)
    (hs : run (Works.step delayable) s es = .ok s') : Tracked delayable s' :=
  run_inv (fun _ _ _ h _ => h.step) h (.of_all (fun _ _ => trivial) _) hs

section
omit dT

theorem initial_tracked {started : Q → Bool} : Tracked delayable (initial (I := I) (S := S) (T := T) started) :=
  ⟨initial_inv, ⟨nofun, nofun⟩, fun _ _ => Nat.le_refl _⟩

theorem Over.moves (hinv : Inv delayable s) (h : Over s i m) (hm : Moves delayable e s s') : Over s' i m := by
  suffices hb : Inv delayable s' ∧ Over s' i m from hb.2
  induction hm with
  | refl => exact ⟨hinv, h⟩
  | tail _ hm ih => exact ⟨ih.1.move hm, ih.2.turn (hm.turn ih.1 i)⟩

theorem call_moves {c : Call I Q} (hc : s.call f = some c) (hm : Moves delayable e s s') (he : e ≠ .resume f) :
    s'.call f = some c := by
  induction hm with
  | refl => exact hc
  | tail _ hm ih =>
    cases hm.callTurn f with
    | same hc' | release hc' | finish hc' => exact hc'.trans ih
    | flush hf | cancel hf => exact absurd (hf.symm.trans ih) nofun
    | resume he' => exact absurd he' he

end

theorem call_run {c : Call I Q} (hinv : Inv delayable s) (hc : s.call f = some c)
    (hes : .resume f ∉ es) (hrun : run (step delayable) s es = .ok s') : s'.call f = some c := by
  induction es generalizing s with
  | nil =>
    cases hrun
    exact hc
  | cons e es ih =>
    obtain ⟨s₁, hs, hrun⟩ := bind_eq_ok hrun
    rw [List.mem_cons, not_or] at hes
    exact ih (hinv.step hs) (call_moves hc (step_moves hinv hs) (Ne.symm hes.1)) hes.2 hrun

omit dT in
theorem Tracked.flush_over (h : Tracked delayable s) (hc : s.call f = some (.flush i q m)) (hs : s.sem f = true) :
    Over s i m := by
  refine (h.calls.flush f i q m hc).ended ?_
  exact List.count_eq_zero.mp (((h.inv.sync f).absent (.inr hs)).2 q).1

/-! ## What the calls promise -/

def Event.flushes (f : S) (i : I) : Event I Q S T → Prop
  | .flush f' i' | .flushDelayable _ f' i' => f' = f ∧ i' = i
  | _ => False

def Event.cancelsSync (f : S) (i : I) : Event I Q S T → Prop
  | .cancelSync f' i' | .cancelDelayableSync f' i' => f' = f ∧ i' = i
  | _ => False

section
omit dT

theorem kWorkFlush_cases (h : Inv delayable s) : ((kWorkFlush s f i).work (.item i) = s.work (.item i)) ∧
    ((∃ q, (kWorkFlush s f i).call f = some (.flush i q (s.work (.item i)).accepted)) ∨
      kWorkFlush s f i = s ∧ (s.work (.item i)).queued = false ∧ (s.work (.item i)).running = false) := by
  unfold kWorkFlush workFlushLocked
  by_cases hb : (s.work (.item i)).queued = true ∨ (s.work (.item i)).running = true
  · obtain ⟨q, hw⟩ := Option.ne_none_iff_exists'.mp ((h.item i).queue hb)
    have heq : (queueFlusherLocked s q i f).work (.item i) = s.work (.item i) := by simp [queueFlusherLocked]
    simp only [Bool.or_eq_true, if_pos hb, hw, if_true, flushCall, notify_rest, heq, Option.map_some, System.wait]
    exact ⟨trivial, Or.inl ⟨q, by simp⟩⟩
  · simp only [Bool.or_eq_true, if_neg hb]
    exact ⟨rfl, Or.inr ⟨rfl, by simpa using hb⟩⟩

theorem Live.le (h : Tracked delayable s) (hl : Live s i k) : k ≤ (s.work (.item i)).accepted := by
  rcases hl with hl | hl
  · exact Nat.le_of_eq hl.2.symm
  · exact hl.2 ▸ h.serial i hl.1

theorem Live.moves (hl : Live s i k) (hinv : Inv delayable s) (hm : Moves delayable e s s') :
    Live s' i k ∨ e.cancels = some i ∨ ∃ q, e = .finish q (.item i) := by
  suffices hb : Inv delayable s' ∧ (Live s' i k ∨ e.cancels = some i ∨ ∃ q, e = .finish q (.item i)) from hb.2
  induction hm with
  | refl => exact ⟨hinv, Or.inl hl⟩
  | tail _ hm ih => exact ⟨ih.1.move hm, ih.2.elim (fun hl => hl.turn (hm.turn ih.1 i)) Or.inr⟩

theorem accepted_moves (hinv : Inv delayable s) (hm : Moves delayable e s s') :
    (s.work (.item i)).accepted ≤ (s'.work (.item i)).accepted := by
  suffices hb : Inv delayable s' ∧ (s.work (.item i)).accepted ≤ (s'.work (.item i)).accepted from hb.2
  induction hm with
  | refl => exact ⟨hinv, Nat.le_refl _⟩
  | tail _ hm ih =>
    refine ⟨ih.1.move hm, Nat.le_trans ih.2 ?_⟩
    cases hm.turn ih.1 i <;> omega

end

theorem flush_called (h : Inv delayable s) (hs : step delayable s e = .ok s') (he : e.flushes f i) :
    (∃ q m, s'.call f = some (.flush i q m) ∧ (s.work (.item i)).accepted ≤ m) ∨
      s'.call f = none ∧ (s'.work (.item i)).queued = false ∧ (s'.work (.item i)).running = false := by
  obtain ⟨hen, rfl⟩ := step_eq_ok hs
  cases e with
  | flush f' i' =>
    obtain ⟨rfl, rfl⟩ := he
    obtain ⟨-, ⟨q, hc⟩ | ⟨hsame, hidle⟩⟩ := kWorkFlush_cases (f := f') (i := i') h
    · exact Or.inl ⟨q, _, hc, Nat.le_refl _⟩
    · exact Or.inr (by rw [perform, hsame]; exact ⟨hen.2, hidle⟩)
  | flushDelayable c f' i' =>
    obtain ⟨rfl, rfl⟩ := he
    have heq : perform s (.flushDelayable c f' i') = kWorkFlushDelayable s c f' i' := rfl
    rw [heq, kWorkFlushDelayable]
    by_cases hb : (s.work (.item i')).busy = true
    · rw [if_neg (by simp [hb])]
      have hu : Moves delayable (.flushDelayable c f' i') s (unscheduleLocked s i').1 := unschedule_moves rfl
      dsimp only
      generalize hs₂ : (if (unscheduleLocked s i').2 then
        (submitToQueueLocked (unscheduleLocked s i').1 c i' ((unscheduleLocked s i').1.dwork i').queue).1
        else (unscheduleLocked s i').1) = s₂
      have hm : Moves delayable (.flushDelayable c f' i') s s₂ := by
        rw [← hs₂]
        split
        · exact hu.trans (submit_moves rfl rfl)
        · exact hu
      obtain ⟨-, ⟨q, hc⟩ | ⟨hsame, hidle⟩⟩ := kWorkFlush_cases (f := f') (i := i') (h.moves hm)
      · exact Or.inl ⟨q, _, hc, accepted_moves h hm⟩
      · have hcall : s₂.call f' = none := by
          rw [← hs₂, ← hen.2.2]
          split
          · rw [submit_call, unschedule_call]
          · rw [unschedule_call]
        exact Or.inr (by rw [hsame]; exact ⟨hcall, hidle⟩)
    · rw [if_pos (by simpa using hb)]
      simp only [Work.busy, Bool.not_eq_true, Bool.or_eq_false_iff] at hb
      exact Or.inr ⟨hen.2.2, hb.1.1.2, hb.1.2⟩
  | _ => exact he.elim

structure Idle (w : Work Q) : Prop where
  queued : w.queued = false
  running : w.running = false
  canceling : w.canceling = false

/-- What is left of an item after the part of a cancel that does not wait. -/
structure Canceled (w w' : Work Q) : Prop where
  queued : w'.queued = false
  running : w'.running = w.running
  serial : w'.serial = w.serial
  accepted : w'.accepted = w.accepted
  canceling : w'.canceling = w.running

omit dT in
theorem cancelAsync_work (h : ItemOk delayable s i) (hd : (s.work (.item i)).delayed = false) :
    Canceled (s.work (.item i)) ((cancelAsyncLocked s i).1.work (.item i)) := by
  rw [cancelAsync_eq]
  by_cases hc : (s.work (.item i)).canceling = true
  · obtain ⟨hr, hq⟩ := h.canceling hc
    rw [if_pos hc, if_pos (by simp [Work.busy, hc])]
    constructor <;> simp [mark, hr, hq]
  · rw [if_neg hc]
    have hc' : (s.work (.item i)).canceling = false := by simpa using hc
    rcases queueRemove_cases fun hq => h.queue (Or.inl hq) with ⟨hq, hrm⟩ | ⟨q, hq, hw, hrm⟩
    · rw [hrm]
      cases hr : (s.work (.item i)).running with
      | true =>
        rw [if_pos (by simp [Work.busy, hr])]
        constructor <;> simp [mark, hr, hq]
      | false =>
        rw [if_neg (by simp [Work.busy, hd, hq, hr, hc'])]
        exact ⟨hq, rfl, rfl, rfl, by rw [hc', hr]⟩
    · have hwork : (remove s i q).work (.item i) = { s.work (.item i) with queued := false } := by simp [remove]
      rw [hrm]
      cases hr : (s.work (.item i)).running with
      | true =>
        rw [if_pos (by simp [hwork, Work.busy, hr])]
        constructor <;> simp [mark, hwork, hr]
      | false =>
        rw [if_neg (by simp [hwork, Work.busy, hd, hr, hc']), hwork]
        exact ⟨rfl, rfl, rfl, rfl, by rw [hc', hr]⟩

omit dI dQ dT in
theorem cancelWait_called (hf : s.call f = none) : (cancelWait s f i).work = s.work ∧
    (((cancelWait s f i).call f = some (.cancel i (s.work (.item i)).accepted) ∧ (cancelWait s f i).sem f = false) ∨
      (cancelWait s f i).call f = none ∧ (s.work (.item i)).canceling = false) := by
  unfold cancelWait cancelSyncLocked
  by_cases hc : (s.work (.item i)).canceling = true
  · simp [hc, System.wait]
  · simp [hc, hf]

omit dQ dT in
theorem unschedule_work : (unscheduleLocked s i).1.work (.item i) = { s.work (.item i) with delayed := false } := by
  rcases unschedule_cases (s := s) (i := i) with ⟨hd, h⟩ | ⟨hd, h⟩ <;> rw [h]
  · rw [← hd]
  · simp [disarm, zAbortTimeout]

theorem cancel_called (h : Inv delayable s) (hs : step delayable s e = .ok s') (he : e.cancelsSync f i) :
    Canceled (s.work (.item i)) (s'.work (.item i)) ∧
      ((s'.call f = some (.cancel i (s.work (.item i)).accepted) ∧ s'.sem f = false) ∨
        s'.call f = none ∧ Idle (s'.work (.item i))) := by
  have hwait : ∀ s₁ : System I Q S T, s₁.call f = none → Canceled (s.work (.item i)) (s₁.work (.item i)) →
      Canceled (s.work (.item i)) ((cancelWait s₁ f i).work (.item i)) ∧
        (((cancelWait s₁ f i).call f = some (.cancel i (s.work (.item i)).accepted) ∧
          (cancelWait s₁ f i).sem f = false) ∨
          (cancelWait s₁ f i).call f = none ∧ Idle ((cancelWait s₁ f i).work (.item i))) := by
    intro s₁ hf hc
    obtain ⟨hw, hcall | ⟨hcall, hca⟩⟩ := cancelWait_called (i := i) hf <;> rw [hw]
    · rw [← hc.accepted]
      exact ⟨hc, Or.inl hcall⟩
    · exact ⟨hc, Or.inr ⟨hcall, hc.queued, hc.running.trans (hc.canceling.symm.trans hca), hca⟩⟩
  have hidle : (s.work (.item i)).busy = false → Canceled (s.work (.item i)) (s.work (.item i)) ∧
      Idle (s.work (.item i)) := fun hb => by
    simp only [Work.busy, Bool.or_eq_false_iff] at hb
    exact ⟨⟨hb.1.1.2, rfl, rfl, rfl, hb.2.trans hb.1.2.symm⟩, hb.1.1.2, hb.1.2, hb.2⟩
  obtain ⟨hen, rfl⟩ := step_eq_ok hs
  cases e with
  | cancelSync f' i' =>
    obtain ⟨rfl, rfl⟩ := he
    have heq : perform s (.cancelSync f' i') = kWorkCancelSync s f' i' := rfl
    rw [heq, kWorkCancelSync]
    split
    · refine hwait _ ?_ (cancelAsync_work (h.item i') ((h.item i').plain hen.1))
      rw [cancelAsync_call]
      exact hen.2
    · next hb =>
      obtain ⟨hc, hi⟩ := hidle (by simpa using hb)
      exact ⟨hc, Or.inr ⟨hen.2, hi⟩⟩
  | cancelDelayableSync f' i' =>
    obtain ⟨rfl, rfl⟩ := he
    have heq : perform s (.cancelDelayableSync f' i') = kWorkCancelDelayableSync s f' i' := rfl
    rw [heq, kWorkCancelDelayableSync]
    split
    · have hu : Moves delayable (.cancelDelayableSync f' i') s (unscheduleLocked s i').1 := unschedule_moves rfl
      have hc := cancelAsync_work ((h.moves hu).item i') unschedule_delayed
      rw [unschedule_work] at hc
      refine hwait _ ?_ ⟨hc.queued, hc.running, hc.serial, hc.accepted, hc.canceling⟩
      rw [cancelDelayableAsyncLocked, cancelAsync_call, unschedule_call]
      exact hen.2
    · next hb =>
      obtain ⟨hc, hi⟩ := hidle (by simpa using hb)
      exact ⟨hc, Or.inr ⟨hen.2, hi⟩⟩
  | _ => exact he.elim

/-! ## After a cancel -/

/-- Of the first `m` submissions only the one that ran in a state `w` is still live. -/
structure Only (w : Work Q) (m : Nat) (s : System I Q S T) (i : I) : Prop extends Dropped s i m where
  runs : (s.work (.item i)).running = true → (s.work (.item i)).serial ≤ m →
    w.running = true ∧ w.serial = (s.work (.item i)).serial

omit dI dQ dS dT in
theorem Only.turn {w : Work Q} (h : Only w m s i) (ht : Turn e i (s.work (.item i)) (s'.work (.item i))) :
    Only w m s' i := by
  refine ⟨h.toDropped.turn ht, fun hr hle => ?_⟩
  cases ht with
  | same _ hr' _ hs => exact hs ▸ h.runs (hr' ▸ hr) (hs ▸ hle)
  | accept _ _ hr' hs => exact hs ▸ h.runs (hr' ▸ hr) (hs ▸ hle)
  | remove _ _ hr' _ hs => exact hs ▸ h.runs (hr' ▸ hr) (hs ▸ hle)
  | take hq _ _ _ _ hs =>
    have hlt := h.queued hq
    omega
  | finish _ hr' => rw [hr'] at hr; cases hr

theorem Only.run {w : Work Q} (h : Only w m s i) (hinv : Inv delayable s)
    (hrun : run (step delayable) s es = .ok s') : Only w m s' i := by
  have hb : Inv delayable s' ∧ Only w m s' i := by
    refine @run_inv _ _ _ (step delayable) (fun _ _ => True) (fun s => Inv delayable s ∧ Only w m s i) _ _ _
      (fun s₁ e s₂ h₁ _ hs => ?_) ⟨hinv, h⟩ (.of_all (fun _ _ => trivial) _) hrun
    have hm := step_moves h₁.1 hs
    clear hs
    induction hm with
    | refl => exact h₁
    | tail _ hm ih => exact ⟨ih.1.move hm, ih.2.turn (hm.turn ih.1 i)⟩
  exact hb.2

omit dT in
theorem Cancelling.moves (hinv : Inv delayable s) (h : Cancelling s f i) (hm : Moves delayable e s s')
    (he : ∀ q n, e ≠ .finish q n) : Cancelling s' f i := by
  suffices hb : Inv delayable s' ∧ Cancelling s' f i from hb.2
  induction hm with
  | refl => exact ⟨hinv, h⟩
  | @tail s₁ s₂ _ hm ih =>
    refine ⟨ih.1.move hm, ?_⟩
    have hcall : s₁.call f ≠ none := fun hno => by simp [Cancelling, hno] at ih
    cases hm.callTurn f with
    | same hc hs =>
      rw [Cancelling, hc, hs]
      exact ih.2
    | flush hf | cancel hf => exact absurd hf hcall
    | resume _ hs => simp [ih.2.2] at hs
    | release _ hp => exact absurd ((ih.1.sync f).flushing hp) ih.2.not_flushing
    | finish _ heq => exact absurd heq (he _ _)

theorem release_idle (hinv : Inv delayable s) (h : Cancelling s f i) (hs : step delayable s e = .ok s')
    (hsem : s'.sem f = true) : Idle (s'.work (.item i)) := by
  by_cases he : ∃ q n, e = .finish q n
  · obtain ⟨q, n, rfl⟩ := he
    obtain ⟨hen, rfl⟩ := step_eq_ok hs
    have hsem' : (finish s q n).sem f = true := hsem
    by_cases hn : n = .item i
    · subst hn
      have hq := ((hinv.item i).canceling ((hinv.sync f).waits i h)).2
      constructor <;> simp [perform, finish_work, hq]
    · rw [finish_sem] at hsem'
      have hff : ∀ j, n = .item j → ¬Cancelling s f j := fun j hj hc => by
        have hij : j = i := Option.some.inj (hc.1.symm.trans h.1)
        exact hn (hij ▸ hj)
      split at hsem'
      · rw [giveAll_eq (hinv.sync f) hff, h.2] at hsem'
        cases hsem'
      · rw [h.2] at hsem'
        cases hsem'
  · have hc := h.moves hinv (step_moves hinv hs) fun q n heq => he ⟨q, n, heq⟩
    rw [hc.2] at hsem
    cases hsem

/-- What `k_work_flush` and `k_work_cancel_sync` promise, whatever happens while they wait. -/
theorem flush_and_cancel_sync {started : Q → Bool} {es₀ es : List (Event I Q S T)} {s₁ s₂ : System I Q S T}
    (h₀ : run (step delayable) (initial started) es₀ = .ok s) (hs : step delayable s e = .ok s₁)
    (hrun : run (step delayable) s₁ es = .ok s₂) :
    (e.flushes f i → (s₁.call f = none → ∀ k, ¬Live s₁ i k) ∧
      (s₁.call f ≠ none → .resume f ∉ es → ∀ s₃, step delayable s₂ (.resume f) = .ok s₃ →
        ∀ k, Live s i k → ¬Live s₃ i k)) ∧
    (e.cancelsSync f i → (s₁.call f = none → Idle (s₁.work (.item i))) ∧
      (∀ k, k ≤ (s.work (.item i)).accepted → Live s₂ i k → Runs s i k ∧ Runs s₂ i k) ∧
      (s₁.call f ≠ none → .resume f ∉ es →
        (∀ s₃, step delayable s₂ (.resume f) = .ok s₃ → ∀ k, k ≤ (s.work (.item i)).accepted → ¬Live s₃ i k) ∧
        ∀ e' s₃, step delayable s₂ e' = .ok s₃ → s₂.sem f = false → s₃.sem f = true → Idle (s₃.work (.item i)))) ∧
    ∀ e' s₃, step delayable s₂ e' = .ok s₃ → ∀ k, Live s₂ i k → ¬Live s₃ i k →
      e'.cancels = some i ∨ ∃ q, e' = .finish q (.item i) := by
  have ht := initial_tracked.run h₀
  have ht₁ := ht.step hs
  have ht₂ := ht₁.run hrun
  refine ⟨fun he => ?_, fun he => ?_, fun e' s₃ hs₃ k hl hno => ?_⟩
  · rcases flush_called ht.inv hs he with ⟨q, m, hc, hm⟩ | ⟨hc, hq, hr⟩
    · refine ⟨fun hno => absurd (hc.symm.trans hno) nofun, fun _ hes s₃ hs₃ k hl => ?_⟩
      have hc₂ := call_run ht₁.inv hc hes hrun
      have hm₃ := step_moves ht₂.inv hs₃
      have hover : Over s₂ i m := ht₂.flush_over hc₂ (step_eq_ok hs₃).1.2
      exact (hover.moves ht₂.inv hm₃).not_live (Nat.le_trans (hl.le ht) hm)
    · refine ⟨fun _ k hl => ?_, fun hno => absurd hc hno⟩
      rcases hl with hl | hl
      · exact absurd (hq.symm.trans hl.1) (by simp)
      · exact absurd (hr.symm.trans hl.1) (by simp)
  · obtain ⟨hcan, hcall⟩ := cancel_called ht.inv hs he
    have honly : Only (s.work (.item i)) (s.work (.item i)).accepted s₁ i := by
      refine ⟨⟨Nat.le_of_eq hcan.accepted.symm, fun hq => ?_⟩, fun hr _ => ⟨hcan.running ▸ hr, hcan.serial.symm⟩⟩
      exact absurd (hcan.queued.symm.trans hq) (by simp)
    refine ⟨fun hno => ?_, fun k hk hl => ?_, fun hwaits hes => ?_⟩
    · rcases hcall with ⟨hc, -⟩ | ⟨-, hidle⟩
      · exact absurd (hc.symm.trans hno) nofun
      · exact hidle
    · have honly₂ := honly.run ht₁.inv hrun
      rcases hl with hl | hl
      · have hlt := honly₂.queued hl.1
        have heq := hl.2
        omega
      · obtain ⟨hr, hser⟩ := honly₂.runs hl.1 (hl.2.symm ▸ hk)
        exact ⟨⟨hr, hser.trans hl.2⟩, hl⟩
    · obtain ⟨hc, -⟩ := hcall.resolve_right fun hno => hwaits hno.1
      have hc₂ := call_run ht₁.inv hc hes hrun
      refine ⟨fun s₃ hs₃ k hk => ?_, fun e' s₃ hs₃ hs₂ hsem => ?_⟩
      · have hover := (ht₂.calls.cancel f i _ hc₂).ended (step_eq_ok hs₃).1.2
        exact (hover.moves ht₂.inv (step_moves ht₂.inv hs₃)).not_live hk
      · exact release_idle ht₂.inv ⟨by simp [hc₂, Call.cancelItem], hs₂⟩ hs₃ hsem
  · exact (hl.moves ht₂.inv (step_moves ht₂.inv hs₃)).resolve_left hno

/-- An item that runs and is queued again is flushed, or cancelled and waited for. -/
theorem flush_and_cancel_sync_two : ∃ s s₁ s₂ s₃ s₁' s₂' s₃' : System (Fin 1) (Fin 2) (Fin 1) (Fin 1),
    run (step fun _ => false) (initial fun _ => true)
      [.submit .other (some 0) 0, .take 0, .submit (.worker 0) (some 1) 0] = .ok s ∧
    step (fun _ => false) s (.flush 0 0) = .ok s₁ ∧
    run (step fun _ => false) s₁ [.handlerReturn 0 (.item 0), .finish 0 (.item 0), .take 0, .handlerReturn 0 (.item 0),
      .finish 0 (.item 0), .submit .other (some 1) 0, .take 0, .handlerReturn 0 (.flusher 0)] = .ok s₂ ∧
    step (fun _ => false) s₂ (.resume 0) = .ok s₃ ∧
    step (fun _ => false) s (.cancelSync 0 0) = .ok s₁' ∧
    run (step fun _ => false) s₁' [.submit .other (some 1) 0, .handlerReturn 0 (.item 0), .finish 0 (.item 0),
      .submit .other (some 1) 0] = .ok s₂' ∧
    step (fun _ => false) s₂' (.resume 0) = .ok s₃' ∧
    (∀ k, Live s 0 k → ¬Live s₃ 0 k) ∧ ∀ k, k ≤ (s.work (.item 0)).accepted → ¬Live s₃' 0 k := by
  refine ⟨_, _, _, _, _, _, _, and_then rfl fun h₀ => and_then rfl fun h₁ => and_then rfl fun h₂ => and_then rfl
    fun h₃ => and_then rfl fun h₁' => and_then rfl fun h₂' => and_then rfl fun h₃' => ⟨?_, ?_⟩⟩
  · exact ((flush_and_cancel_sync h₀ h₁ h₂).1 ⟨rfl, rfl⟩).2 nofun (by simp) _ h₃
  · exact (((flush_and_cancel_sync h₀ h₁' h₂').2.1 ⟨rfl, rfl⟩).2.2 nofun (by simp)).1 _ h₃'

/-! ## The flusher after the call -/

/-- The waiter does not resume before the queue thread has taken the lock after `handle_flush`. -/
def ResumeOk (s : System I Q S T) : Event I Q S T → Prop
  | .resume f => ∀ q ∈ (s.call f).bind Call.flushQueue, (s.workq q).phase ≠ .returned (.flusher f)
  | _ => True

instance (s : System I Q S T) (e : Event I Q S T) : Decidable (ResumeOk s e) := by
  induction e using Event.casesOn <;> dsimp only [ResumeOk] <;> infer_instance

/-- A queue thread is done with a flusher before the call of that returns. -/
def Holding (s : System I Q S T) : Prop :=
  ∀ f q, (s.workq q).phase = .returned (.flusher f) → (s.call f).bind Call.flushQueue = some q

omit dT in
theorem returned_move {n : Node I S} (hm : Move delayable e s s') (hp : (s'.workq q).phase = .returned n) :
    (s.workq q).phase = .returned n ∨ e = .handlerReturn q n := by
  cases hm with
  | @accept e s i q' => exact Or.inl (by by_cases hq : q = q' <;> simpa [accept, hq] using hp)
  | @remove e s i q' => exact Or.inl (by by_cases hq : q = q' <;> simpa [remove, hq] using hp)
  | @flushOn e s f i q' => exact Or.inl (by simpa [flushOn, System.wait, queueFlusher_phase] using hp)
  | @drainOn s t q' plug => exact Or.inl (by by_cases hq : q = q' <;> simpa [drainOn, hq] using hp)
  | @unplug s q' => exact Or.inl (by by_cases hq : q = q' <;> simpa [kWorkQueueUnplug, hq] using hp)
  | @take s q' =>
    refine Or.inl ?_
    cases hl : (s.workq q').pending with
    | nil => by_cases hq : q = q' <;> simp_all [take_nil hl]
    | cons n l => by_cases hq : q = q' <;> simp_all [take_cons hl]
  | @handlerReturn s q' n' =>
    by_cases hq : q = q'
    · subst hq
      have hn : n' = n := by simpa [handlerReturn_workq] using hp
      exact Or.inr (hn ▸ rfl)
    · exact Or.inl (by simpa [handlerReturn_workq, hq] using hp)
  | @finish s q' n' => exact Or.inl (by by_cases hq : q = q' <;> simp_all [finish_workq])
  | arm => exact Or.inl (by simpa [arm_rest.1] using hp)
  | mark | cancelOn | resume | disarm | announce | expire | ignore | tick => exact Or.inl hp

theorem Holding.step (h : Holding s) (hinv : Inv delayable s) (hs : step delayable s e = .ok s') (hok : ResumeOk s e) :
    Holding s' := by
  have hm := step_moves hinv hs
  by_cases he : ∃ q n, e = .handlerReturn q n
  · obtain ⟨q', n, rfl⟩ := he
    obtain ⟨hen, rfl⟩ := step_eq_ok hs
    intro f q hp
    have hcall : (perform s (.handlerReturn q' n)).call = s.call := by cases n <;> rfl
    rw [hcall]
    by_cases hq : q = q'
    · subst hq
      have hn : n = .flusher f := by simpa [perform, handlerReturn_workq] using hp
      exact ((hinv.sync f).flushing (hn ▸ hen)).1
    · exact h f q (by simpa [perform, handlerReturn_workq, hq] using hp)
  · intro f q hp
    have hback : (s.workq q).phase = .returned (.flusher f) := by
      have hback' : ∀ s₂, Moves delayable e s s₂ → (s₂.workq q).phase = .returned (.flusher f) →
          (s.workq q).phase = .returned (.flusher f) := fun s₂ hm => by
        induction hm with
        | refl => exact id
        | tail _ hm ih => exact fun hp => ih ((returned_move hm hp).resolve_right fun heq => he ⟨_, _, heq⟩)
      exact hback' s' hm hp
    have hq := h f q hback
    obtain ⟨c, hc⟩ := Option.ne_none_iff_exists'.mp fun hno : s.call f = none => by simp [hno] at hq
    have hc' := call_moves hc hm fun heq => by
      subst heq
      exact hok q hq hback
    rw [hc', ← hc]
    exact hq

/-- If no waiter resumes between `handle_flush` and the next section of the queue thread, no queue thread has to do
with the flusher of a call that has returned. -/
theorem flusher_released {started : Q → Bool} {es : List (Event I Q S T)}
    (hes : Along (step delayable) ResumeOk (initial started) es) (hrun : run (step delayable) (initial started) es = .ok s)
    (hf : s.call f = none) (q : Q) : (s.workq q).phase.current ≠ some (.flusher f) ∧ .flusher f ∉ (s.workq q).pending := by
  have h : Inv delayable s ∧ Holding s := by
    refine @run_inv _ _ _ (step delayable) ResumeOk (fun s => Inv delayable s ∧ Holding s) _ _ _
      (fun s₁ e s₂ h₁ hok hs => ⟨h₁.1.step hs, h₁.2.step h₁.1 hs hok⟩) ⟨initial_inv, nofun⟩ hes hrun
  obtain ⟨-, hq⟩ := (h.1.sync f).absent (.inl hf)
  refine ⟨fun hc => ?_, List.count_eq_zero.mp (hq q).1⟩
  cases hp : (s.workq q).phase with
  | ready => simp [hp, Phase.current] at hc
  | asleep => simp [hp, Phase.current] at hc
  | handling n =>
    rw [hp] at hc
    exact (hq q).2 (hp.trans (congrArg Phase.handling (Option.some.inj hc)))
  | returned n =>
    rw [hp] at hc
    have hr := h.2 f q (hp.trans (congrArg Phase.returned (Option.some.inj hc)))
    rw [hf] at hr
    cases hr

/-- The same item is flushed twice with one `struct k_work_sync`. -/
def flushedTwice : List (Event (Fin 1) (Fin 1) (Fin 1) (Fin 1)) :=
  [.submit .other (some 0) 0, .flush 0 0, .take 0, .handlerReturn 0 (.item 0), .finish 0 (.item 0), .take 0,
    .handlerReturn 0 (.flusher 0), .finish 0 (.flusher 0), .resume 0, .submit .other (some 0) 0, .take 0, .flush 0 0,
    .handlerReturn 0 (.item 0), .finish 0 (.item 0), .take 0, .handlerReturn 0 (.flusher 0), .finish 0 (.flusher 0),
    .resume 0]

theorem flusher_released_twice : ∃ s, run (step fun _ => false) (initial fun _ => true) flushedTwice = .ok s ∧
    s.call 0 = none ∧ (s.workq 0).phase.current ≠ some (.flusher 0) ∧ .flusher 0 ∉ (s.workq 0).pending :=
  exists_ok_that (P := fun s => s.call 0 = none) (by decide +kernel) fun _ hs hc =>
    ⟨hc, flusher_released (by decide +kernel) hs hc 0⟩

/-- The flush returns while the queue thread still has its flusher as `work`. -/
theorem flusher_held_after_return : ∃ (s : System (Fin 1) (Fin 1) (Fin 1) (Fin 1)),
    run (step fun _ => false) (initial fun _ => true) [.submit .other (some 0) 0, .flush 0 0, .take 0,
      .handlerReturn 0 (.item 0), .finish 0 (.item 0), .take 0, .handlerReturn 0 (.flusher 0), .resume 0] = .ok s ∧
    s.call 0 = none ∧ (s.workq 0).phase.current = some (.flusher 0) :=
  ⟨_, rfl, rfl, rfl⟩

end RtosKernel.Zephyr.Works
