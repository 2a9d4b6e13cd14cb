import RtosKernel.Zephyr.WorkStates

/-! # Drains of work queues (`work.c`)

While a thread is on `drainq`, the queue drains and takes submissions from its own thread only. The queue
thread ends the drain where it finds its list empty, which is the moment that the call waits for. -/

namespace RtosKernel.Zephyr.Works
open Lib.Runs Relation

variable {I Q S T : Type} [DecidableEq I] [DecidableEq Q] [DecidableEq S] [DecidableEq T]
variable {delayable : I → Bool} {s s' : System I Q S T} {e : Event I Q S T} {i j : I} {q q' : Q} {t : T} {plug : Bool}

/-- The queue has accepted a submission of the item. -/
def Accepts (s s' : System I Q S T) (q : Q) (i : I) : Prop :=
  (s.work (.item i)).accepted < (s'.work (.item i)).accepted ∧ (s'.work (.item i)).queue = some q

/-- What the queue accepts in a step is submitted from its own thread. -/
def Chained (delayable : I → Bool) (q : Q) (s : System I Q S T) (e : Event I Q S T) : Prop :=
  ∀ s' i, step delayable s e = .ok s' → Accepts s s' q i → e.caller = .worker q

/-- And that only while the queue drains. -/
def ChainedDrain (delayable : I → Bool) (q : Q) (s : System I Q S T) (e : Event I Q S T) : Prop :=
  ∀ s' i, step delayable s e = .ok s' → Accepts s s' q i → (s.workq q).drain = true ∧ e.caller = .worker q

/-! ## What is accepted -/

omit [DecidableEq T] in
/-- Drains, the unplug and the thread of the queue change its flags and its `drainq`; nothing else does. -/
theorem flags_move (hm : Move delayable e s s') (q : Q) :
    ((s'.workq q).drain = (s.workq q).drain ∧ (s'.workq q).plugged = (s.workq q).plugged ∧
      (s'.workq q).drainq = (s.workq q).drainq) ∨
    (∃ t plug, e = .drain t q plug ∧ s' = drainOn s t q plug) ∨ (e = .unplug q ∧ s' = kWorkQueueUnplug s q) ∨
      (e = .take q ∧ s' = take s q) := by
  cases hm with
  | @accept e s i q' => exact .inl (by by_cases hq : q = q' <;> simp [accept, hq])
  | @remove e s i q' => exact .inl (by by_cases hq : q = q' <;> simp [remove, hq])
  | @flushOn e s f i q' => exact .inl (by by_cases hq : q = q' <;> simp [flushOn, System.wait, queueFlusherLocked, hq])
  | @drainOn s t q' plug =>
    by_cases hq : q = q'
    · exact .inr (.inl ⟨t, plug, hq ▸ rfl, hq ▸ rfl⟩)
    · exact .inl (by simp [drainOn, hq])
  | @unplug s q' =>
    by_cases hq : q = q'
    · exact .inr (.inr (.inl ⟨hq ▸ rfl, hq ▸ rfl⟩))
    · exact .inl (by simp [kWorkQueueUnplug, hq])
  | @take s q' =>
    by_cases hq : q = q'
    · exact .inr (.inr (.inr ⟨hq ▸ rfl, hq ▸ rfl⟩))
    · cases hl : (s.workq q').pending with
      | nil => exact .inl (by simp [take_nil hl, hq])
      | cons n l => exact .inl (by simp [take_cons hl, hq])
  | @handlerReturn s q' n => exact .inl (by by_cases hq : q = q' <;> simp [handlerReturn_workq, hq])
  | @finish s q' n => exact .inl (by by_cases hq : q = q' <;> simp [finish_workq, hq])
  | arm => exact .inl (by simp [arm_rest.1])
  | mark | cancelOn | resume | disarm | announce | expire | ignore | tick => exact .inl ⟨rfl, rfl, rfl⟩

omit [DecidableEq T] in
theorem accepted_move (hm : Move delayable e s s') : ((s'.work (.item i)).accepted = (s.work (.item i)).accepted ∧
      (s'.work (.item i)).queue = (s.work (.item i)).queue) ∨
    ∃ q, (s'.work (.item i)).queue = some q ∧ e.submits = some i ∧
      ((s.workq q).drain = true → e.caller = .worker q) ∧ ((s.workq q).plugged = true → (s.workq q).drain = true) := by
  cases hm with
  | @accept e s j q he hc hq hr hs hd hp =>
    by_cases hij : i = j
    · subst hij
      exact Or.inr ⟨q, by simp [accept], he, hd, hp⟩
    · exact Or.inl (by simp [accept, hij])
  | @remove e s j q => exact Or.inl (by by_cases hij : i = j <;> simp [remove, hij])
  | @mark e s j => exact Or.inl (by by_cases hij : i = j <;> simp [mark, hij])
  | @flushOn e s f j q => exact Or.inl (by simp [flushOn, System.wait, queueFlusherLocked])
  | @take s q =>
    refine Or.inl ?_
    cases hl : (s.workq q).pending with
    | nil => simp [take_nil hl]
    | cons n l => by_cases hn : Node.item i = n <;> simp [take_cons hl, hn]
  | @handlerReturn s q n => exact Or.inl (by cases n <;> exact ⟨rfl, rfl⟩)
  | @finish s q n => exact Or.inl (by by_cases hn : Node.item i = n <;> simp [finish_work, hn])
  | @arm e s j => exact Or.inl (by by_cases hij : i = j <;> simp [arm_work, hij])
  | @disarm e s j => exact Or.inl (by by_cases hij : i = j <;> simp [disarm, zAbortTimeout, hij])
  | @expire s j => exact Or.inl (by by_cases hij : i = j <;> simp [expire, hij])
  | cancelOn | resume | drainOn | unplug | announce | ignore | tick => exact Or.inl ⟨rfl, rfl⟩

theorem Accepts.allowed (hinv : Inv delayable s) (hs : step delayable s e = .ok s') (ha : Accepts s s' q i) :
    ((s.workq q).drain = true → e.caller = .worker q) ∧ ((s.workq q).plugged = true → (s.workq q).drain = true) := by
  have hm := step_moves hinv hs
  clear hs
  induction hm with
  | refl => exact absurd ha.1 (Nat.lt_irrefl _)
  | @tail s₁ s₂ hm₁ hm ih =>
    rcases accepted_move (i := i) hm with ⟨hac, hq⟩ | ⟨q', hq, he, hd, hp⟩
    · exact ih ⟨hac ▸ ha.1, hq ▸ ha.2⟩
    · have hqq : q' = q := Option.some.inj (hq.symm.trans ha.2)
      subst hqq
      have hflags : ∀ s₁, Moves delayable e s s₁ → (s₁.workq q').drain = (s.workq q').drain ∧
          (s₁.workq q').plugged = (s.workq q').plugged := fun s₁ hm₁ => by
        induction hm₁ with
        | refl => exact ⟨rfl, rfl⟩
        | tail _ hm ih =>
          rcases flags_move hm q' with ⟨hd, hp, -⟩ | ⟨_, _, hev, -⟩ | ⟨hev, -⟩ | ⟨hev, -⟩
          · exact ⟨hd.trans ih.1, hp.trans ih.2⟩
          all_goals
            rw [hev] at he
            cases he
      obtain ⟨hd', hp'⟩ := hflags s₁ hm₁
      rw [hd'] at hd hp
      rw [hp'] at hp
      exact ⟨hd, hp⟩

omit [DecidableEq T] in
theorem drainq_move (hm : Move delayable e s s') (he : e ≠ .take q) (ht : t ∈ (s.workq q).drainq) :
    t ∈ (s'.workq q).drainq := by
  rcases flags_move hm q with ⟨-, -, hd⟩ | ⟨_, _, -, rfl⟩ | ⟨-, rfl⟩ | ⟨htake, -⟩
  · rwa [hd]
  · simp [drainOn, ht]
  · simpa [kWorkQueueUnplug] using ht
  · exact absurd htake he

theorem drained_step (hinv : Inv delayable s) (hs : step delayable s e = .ok s') (ht : t ∈ (s.workq q).drainq)
    (ht' : t ∉ (s'.workq q).drainq) : (s'.workq q).pending = [] ∧ (s'.workq q).phase.current = none := by
  have hm := step_moves hinv hs
  by_cases he : e = .take q
  · subst he
    obtain ⟨-, rfl⟩ := step_eq_ok hs
    cases hl : (s.workq q).pending with
    | nil => simp [perform, take_nil hl, hl, Phase.current]
    | cons n l => simp [perform, take_cons hl, ht] at ht'
  · have hkeep : ∀ s₁, Moves delayable e s s₁ → t ∈ (s₁.workq q).drainq := fun s₁ hm => by
      induction hm with
      | refl => exact ht
      | tail _ hm ih => exact drainq_move hm he ih
    exact absurd (hkeep s' hm) ht'

variable {es : List (Event I Q S T)}

theorem drain_moment (hinv : Inv delayable s) (ht : t ∈ (s.workq q).drainq)
    (hrun : run (step delayable) s es = .ok s') (ht' : t ∉ (s'.workq q).drainq) :
    ∃ es₁ es₂ m, es = es₁ ++ es₂ ∧ run (step delayable) s es₁ = .ok m ∧ run (step delayable) m es₂ = .ok s' ∧
      (m.workq q).pending = [] ∧ (m.workq q).phase.current = none ∧
      Along (step delayable) (Chained delayable q) s es₁ := by
  induction es generalizing s with
  | nil =>
    cases hrun
    exact absurd ht ht'
  | cons e es ih =>
    obtain ⟨s₁, hs, hrun⟩ := bind_eq_ok hrun
    have hdrain := (hinv.queue q).drains (List.ne_nil_of_mem ht)
    have hch : Chained delayable q s e := fun s₂ i hs₂ ha => (ha.allowed hinv hs₂).1 hdrain
    by_cases ht₁ : t ∈ (s₁.workq q).drainq
    · obtain ⟨es₁, es₂, m, hes, hrun₁, hrun₂, hp, hc, hal⟩ := ih (hinv.step hs) ht₁ hrun
      exact ⟨e :: es₁, es₂, m, by rw [hes]; rfl, (run_cons hs).trans hrun₁, hrun₂, hp, hc, .cons hch hs hal⟩
    · obtain ⟨hp, hc⟩ := drained_step hinv hs ht ht₁
      exact ⟨[e], es, s₁, rfl, run_cons hs, hrun, hp, hc, .cons hch hs trivial⟩

/-! ## The plug -/

omit [DecidableEq T] in
theorem plugged_move (hm : Move delayable e s s') (he : e ≠ .unplug q) (hp : (s.workq q).plugged = true) :
    (s'.workq q).plugged = true := by
  rcases flags_move hm q with ⟨-, hsame, -⟩ | ⟨_, _, -, rfl⟩ | ⟨hunplug, -⟩ | ⟨-, rfl⟩
  · exact hsame.trans hp
  · simp [drainOn, hp]
  · exact absurd hunplug he
  · cases hl : (s.workq q).pending with
    | nil => simp [take_nil hl, hp]
    | cons n l => simp [take_cons hl, hp]

theorem plugged_step (hinv : Inv delayable s) (hs : step delayable s e = .ok s') (he : e ≠ .unplug q)
    (hp : (s.workq q).plugged = true) : (s'.workq q).plugged = true := by
  have hm := step_moves hinv hs
  clear hs
  induction hm with
  | refl => exact hp
  | tail _ hm ih => exact plugged_move hm he ih

theorem plugged_run (hinv : Inv delayable s) (hrun : run (step delayable) s es = .ok s')
    (hes : .unplug q ∉ es) (hp : (s.workq q).plugged = true) : (s'.workq q).plugged = true := by
  induction es generalizing s with
  | nil =>
    cases hrun
    exact hp
  | cons e es ih =>
    obtain ⟨s₁, hs, hrun⟩ := bind_eq_ok hrun
    rw [List.mem_cons, not_or] at hes
    exact ih (hinv.step hs) hrun hes.2 (plugged_step hinv hs (Ne.symm hes.1) hp)

theorem plugged_chained (hinv : Inv delayable s) (hes : .unplug q ∉ es)
    (hp : (s.workq q).plugged = true) : Along (step delayable) (ChainedDrain delayable q) s es := by
  induction es generalizing s with
  | nil => trivial
  | cons e es ih =>
    rw [List.mem_cons, not_or] at hes
    refine ⟨fun s₁ i hs ha => ?_, ?_⟩
    · obtain ⟨hd, hpd⟩ := ha.allowed hinv hs
      exact ⟨hpd hp, hd (hpd hp)⟩
    · split
      · next s₁ hs => exact ih (hinv.step hs) hes.2 (plugged_step hinv hs (Ne.symm hes.1) hp)
      · trivial

theorem drain_called (hs : step delayable s (.drain t q plug) = .ok s') :
    (t ∈ (s'.workq q).drainq ∧ (plug = true → (s'.workq q).plugged = true)) ∨
      s' = s ∧ plug = false ∧ (s.workq q).pending = [] ∧ (s.workq q).busy = false := by
  obtain ⟨-, rfl⟩ := step_eq_ok hs
  have heq : perform s (.drain t q plug) = kWorkQueueDrain s t q plug := rfl
  rw [heq, kWorkQueueDrain]
  split
  · exact Or.inl ⟨by simp, fun hp => by simp [hp]⟩
  · next hb =>
    simp only [Bool.or_eq_true, not_or, Bool.not_eq_true] at hb
    obtain ⟨⟨⟨hbusy, -⟩, hplug⟩, hpend⟩ := hb
    exact Or.inr ⟨rfl, hplug, by simpa using hpend, hbusy⟩

/-- When a drain returns there was a moment of the call at which the queue had nothing to do. Until then the queue took
submissions from its own thread only, and if it was plugged it takes none until it is unplugged, but for those that its
own thread makes while it drains again. -/
theorem drain_returns {started : Q → Bool} {es₀ es : List (Event I Q S T)} {s₁ s₂ : System I Q S T}
    (h₀ : run (step delayable) (initial started) es₀ = .ok s) (hs : step delayable s (.drain t q plug) = .ok s₁)
    (hrun : run (step delayable) s₁ es = .ok s₂) (ht : t ∉ (s₂.workq q).drainq) :
    ∃ es₁ es₂ m, es = es₁ ++ es₂ ∧ run (step delayable) s₁ es₁ = .ok m ∧ run (step delayable) m es₂ = .ok s₂ ∧
      (m.workq q).pending = [] ∧ (m.workq q).phase.current = none ∧
      Along (step delayable) (Chained delayable q) s₁ es₁ ∧
      (plug = true → ∀ es₃ es₄, es₂ = es₃ ++ es₄ → .unplug q ∉ es₁ ++ es₃ →
        Along (step delayable) (ChainedDrain delayable q) m es₃) := by
  have hinv : Inv delayable s := initial_inv.run h₀
  have hinv₁ := hinv.step hs
  rcases drain_called hs with ⟨ht₁, hplug⟩ | ⟨rfl, hplug, hp, hb⟩
  · obtain ⟨es₁, es₂, m, hes, hrun₁, hrun₂, hp, hc, hal⟩ := drain_moment hinv₁ ht₁ hrun ht
    refine ⟨es₁, es₂, m, hes, hrun₁, hrun₂, hp, hc, hal, fun hpl es₃ es₄ _ hno => ?_⟩
    rw [List.mem_append, not_or] at hno
    exact plugged_chained (hinv₁.run hrun₁) hno.2 (plugged_run hinv₁ hrun₁ hno.1 (hplug hpl))
  · refine ⟨[], es, s₁, rfl, rfl, hrun, hp, ?_, trivial, fun hpl => ?_⟩
    · have hbusy := (hinv.queue q).busy
      rw [hb] at hbusy
      simpa using hbusy.symm
    · rw [hplug] at hpl
      cases hpl

/-- The handler of the last item submits another one while the queue drains, which others cannot. -/
theorem drain_returns_two : ∃ (s s₁ s₂ : System (Fin 2) (Fin 1) (Fin 1) (Fin 1)),
    run (step fun _ => false) (initial fun _ => true) [.submit .other (some 0) 0, .take 0] = .ok s ∧
    step (fun _ => false) s (.drain 0 0 true) = .ok s₁ ∧
    run (step fun _ => false) s₁ [.submit (.worker 0) (some 0) 1, .submit .other (some 0) 0, .handlerReturn 0 (.item 0),
      .finish 0 (.item 0), .take 0, .handlerReturn 0 (.item 1), .finish 0 (.item 1), .take 0,
      .submit .other (some 0) 0] = .ok s₂ ∧
    ∃ es₁ m, run (step fun _ => false) s₁ es₁ = .ok m ∧ (m.workq 0).pending = [] ∧ (m.workq 0).phase.current = none := by
  refine ⟨_, _, _, and_then rfl fun h₀ => and_then rfl fun h₁ => and_then rfl fun h₂ => ?_⟩
  obtain ⟨es₁, -, m, -, hm, -, hp, hc, -⟩ := drain_returns (t := 0) h₀ h₁ h₂ nofun
  exact ⟨es₁, m, hm, hp, hc⟩

end RtosKernel.Zephyr.Works
