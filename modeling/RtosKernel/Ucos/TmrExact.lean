import RtosKernel.Ucos.TmrTimes

/-! # Timers expire on time

A timer that was started at some time is found expired after its delay, and if it is
periodic, after each period from then on, and at no other time, whatever is done with
the other timers. -/

namespace RtosKernel.Ucos.Timers
open Lib.Runs List
open Function (update_of_ne update_self)

variable {T : Type} [dT : DecidableEq T] {k k' k₁ : Kernel T} {t u p q : T} {time mult r B B' : Nat} {s : TmrState}
  {l l' pre post : List T} {due due' : T → Nat}

/-- When a timer that was started at a time expires for the first time, and when after that. -/
def Tmr.expiry (v : Tmr T) (startedAt i : Nat) : Nat := startedAt + startRemain v + i * v.period

/-- The first times at which a timer expires. -/
def Tmr.expiries (v : Tmr T) (startedAt n : Nat) : List Nat := (range n).map (v.expiry startedAt)

/-- How the times at which a timer was found expired go with its state; `due` is when it expires next. -/
def OnTime (v : Tmr T) (startedAt now : Nat) (fired : List Nat) (due : Nat) : Prop :=
  match v.state with
  | .running => due = v.expiry startedAt fired.length ∧ fired = v.expiries startedAt fired.length ∧
      (v.periodic = false → fired = [])
  | .timeout => ∃ n, now = v.expiry startedAt n ∧ fired = v.expiries startedAt (n + 1) ∧ (v.periodic = false → n = 0)
  | .completed => v.periodic = false ∧ fired = v.expiries startedAt 1
  | _ => True

variable {v v' : Tmr T} {startedAt d : Nat} {fired : List Nat}

section
omit dT

theorem expiry_congr (h : v'.core = v.core) : v'.expiry = v.expiry := by
  have hdly : v'.dly = v.dly := congrArg (·.2.1) h
  have hperiod : v'.period = v.period := congrArg (·.2.2.1) h
  funext startedAt i
  rw [Tmr.expiry, Tmr.expiry, startRemain, startRemain, hdly, hperiod]

theorem expiries_congr (h : v'.core = v.core) : v'.expiries = v.expiries := by
  funext startedAt n
  rw [Tmr.expiries, Tmr.expiries, expiry_congr h]

theorem periodic_congr (h : v'.core = v.core) : v'.periodic = v.periodic := congrArg (·.2.2.2.1) h

theorem OnTime.congr (h : OnTime v startedAt time fired d) (hstate : v'.state = v.state) (hcore : v'.core = v.core) :
    OnTime v' startedAt time fired d := by
  rw [OnTime] at h ⊢
  rw [hstate]
  simpa only [expiries_congr hcore, expiry_congr hcore, periodic_congr hcore] using h

theorem OnTime.at (h : OnTime v startedAt time fired d) (hstate : v.state ≠ .timeout) (now : Nat) :
    OnTime v startedAt now fired d := by
  rw [OnTime] at h ⊢
  cases hs : v.state with
  | timeout => exact absurd hs hstate
  | _ =>
    rw [hs] at h
    exact h

end

/-- The list, the times at which its timers expire and the times at which timers have expired. -/
structure Exact (k : Kernel T) (l : List T) (due : T → Nat) (B : Nat) : Prop where
  inv : Inv k l
  timed : Timed k l due B
  dly : ∀ t, (k.tmr t).dly < 2 ^ 31
  period : ∀ t, (k.tmr t).period < 2 ^ 31
  onTime : ∀ t, OnTime (k.tmr t) (k.startedAt t) k.now (k.fired t) (due t)

omit dT in
theorem Exact.start (now : Nat) : Exact (start T now) [] (fun _ => 0) 0 :=
  ⟨Inv.start now, ⟨(Inv.start now).listed, trivial, rfl, Nat.zero_le _, nofun, nofun, nofun, fun _ h => by cases h; rfl,
    fun h => absurd rfl (h _ _)⟩, fun _ => Nat.two_pow_pos 31, fun _ => Nat.two_pow_pos 31, fun _ => trivial⟩

section
omit dT

theorem startRemain_lt (h : Exact k l due B) : startRemain (k.tmr p) < 2 ^ 31 := by
  rw [startRemain]
  by_cases hdly : (k.tmr p).dly = 0
  · rw [if_pos hdly]
    exact h.period p
  · rw [if_neg hdly]
    exact h.dly p

theorem dly_congr (h : v'.core = v.core) : v'.dly = v.dly := congrArg (·.2.1) h

theorem period_congr (h : v'.core = v.core) : v'.period = v.period := congrArg (·.2.2.1) h

theorem startRemain_congr (h : v'.core = v.core) : startRemain v' = startRemain v := by
  rw [startRemain, startRemain, dly_congr h, period_congr h]

end

theorem Exact.update (h : Exact k l due B) (hinv : ∃ l', Inv k' l') (ht : Timed k' l' due' B') (hnow : k'.now = k.now)
    (hstate : ∀ t, t ≠ p → (k'.tmr t).state = (k.tmr t).state) (hcore : ∀ t, t ≠ p → (k'.tmr t).core = (k.tmr t).core)
    (hstartedAt : ∀ t, t ≠ p → k'.startedAt t = k.startedAt t) (hfired : ∀ t, t ≠ p → k'.fired t = k.fired t)
    (hdue : ∀ t, t ≠ p → due' t = due t)
    (hargs : (k'.tmr p).core = (k.tmr p).core ∨ (k'.tmr p).dly < 2 ^ 31 ∧ (k'.tmr p).period < 2 ^ 31)
    (hp : OnTime (k'.tmr p) (k'.startedAt p) k'.now (k'.fired p) (due' p)) : Exact k' l' due' B' := by
  obtain ⟨l₁, hinv⟩ := hinv
  obtain rfl : l₁ = l' := hinv.listed.unique ht.listed
  have hticks : (k'.tmr p).dly < 2 ^ 31 ∧ (k'.tmr p).period < 2 ^ 31 :=
    hargs.elim (fun hc => ⟨(dly_congr hc).trans_lt (h.dly p), (period_congr hc).trans_lt (h.period p)⟩) id
  refine ⟨hinv, ht, fun t => ?_, fun t => ?_, fun t => ?_⟩ <;> by_cases hne : t = p
  · exact hne ▸ hticks.1
  · rw [dly_congr (hcore t hne)]
    exact h.dly t
  · exact hne ▸ hticks.2
  · rw [period_congr (hcore t hne)]
    exact h.period t
  · exact hne ▸ hp
  · rw [hnow, hstartedAt t hne, hfired t hne, hdue t hne]
    exact (h.onTime t).congr (hstate t hne) (hcore t hne)

/-! ## Calls -/

section
variable (h : Timed k l due B)
include h

theorem unlink_timed (hp : p ∈ l) (hcoincides : ¬ Coincides k p) :
    ∃ k' l' B', os_TmrUnlink k p (k.now % 2 ^ 32) = .ok k' ∧ Timed k' l' due B' ∧ Kept k k' ∧ p ∉ l' := by
  obtain ⟨k', heq, hunlinking⟩ := os_TmrUnlink_spec (k.now % 2 ^ 32) h.listed hp
  obtain ⟨l', B', htimed, hkept, hmem⟩ := h.unlink hcoincides hunlinking
  exact ⟨k', l', B', heq, htimed, hkept, fun hp' => ((hmem p).mp hp').1 rfl⟩

theorem link_timed (hp : p ∉ l) (hr : (k.tmr p).remain < 2 ^ 31) :
    ∃ k' l' B', os_TmrLink k p (k.now % 2 ^ 32) = .ok k' ∧ Timed k' l' (Function.update due p (k.now + (k.tmr p).remain)) B' ∧
      Kept k k' := by
  obtain ⟨k', heq, hlinking⟩ := os_TmrLink_spec (k.now % 2 ^ 32) h.listed hp
  obtain ⟨l', B', htimed, hkept, -⟩ := h.link hp hr hlinking
  exact ⟨k', l', B', heq, htimed, hkept⟩

theorem Timed.setRemain (hp : p ∉ l) : Timed (k.setRemain p r) l due B :=
  h.congr h.listed.setRemain (fun t ht => by simp [show t ≠ p from fun heq => hp (heq ▸ ht)]) rfl rfl rfl

theorem Timed.setState : Timed (k.setState p s) l due B :=
  h.congr h.listed.setState (fun _ _ => setState_remain) rfl rfl rfl

theorem startLink_timed (hp : p ∉ l) (hr : startRemain (k.tmr p) < 2 ^ 31) :
    ∃ k₁ k' l' B', startLink k p (k.now % 2 ^ 32) = .ok (k', .errNone) ∧
      Timed k' l' (Function.update due p (k.now + startRemain (k.tmr p))) B' ∧ Kept k k₁ ∧
      k' = { k₁ with startedAt := Function.update k₁.startedAt p k₁.now, fired := Function.update k₁.fired p [] } := by
  have hremain : ((k.setRemain p (startRemain (k.tmr p))).tmr p).remain = startRemain (k.tmr p) := by simp
  obtain ⟨k₁, l', B', heq, htimed, hkept⟩ := link_timed (h.setRemain (r := startRemain (k.tmr p)) hp) hp
    (by rw [hremain]; exact hr)
  refine ⟨k₁, _, l', B', congrArg (Except.map _) heq, ?_, ⟨fun t => (hkept.state t).trans setRemain_state,
    fun t => (hkept.core t).trans setRemain_core, hkept.now, hkept.startedAt, hkept.fired, hkept.phase⟩, rfl⟩
  rw [hremain] at htimed
  exact htimed.congr (htimed.listed.congr (fun _ _ => rfl) (fun _ _ => rfl) rfl rfl) (fun _ _ => rfl) rfl rfl rfl

end

theorem coincides_setState : Coincides (k.setState p s) p ↔ Coincides k p := by
  simp only [Coincides, setState_prevPtr, setState_nextPtr, setState_remain]
  exact Iff.rfl

theorem osTmrStart_exact (h : Exact k l due B) (hcoincides : (k.tmr p).typ = true → (k.tmr p).state.Listed → ¬ Coincides k p) :
    ∃ k' e l' due' B', osTmrStart k p = .ok (k', e) ∧ Exact k' l' due' B' := by
  obtain ⟨k₀, e, l₀, heq, hinv⟩ := osTmrStart_inv (p := p) h.inv
  -- the end of the call, for a timer that is in no list
  have hlink : ∀ k₁ l₁ B₁, Timed k₁ l₁ due B₁ → p ∉ l₁ → Kept (k.setState p .running) k₁ →
      osTmrStart k p = startLink k₁ p (callTime k) → ∃ k' e l' due' B', osTmrStart k p = .ok (k', e) ∧ Exact k' l' due' B' := by
    intro k₁ l₁ B₁ htimed hp hkept hcall
    have hcore : (k₁.tmr p).core = (k.tmr p).core := (hkept.core p).trans setState_core
    have hnow : k₁.now = k.now := hkept.now
    have hr : startRemain (k₁.tmr p) < 2 ^ 31 := by
      rw [startRemain_congr hcore]
      exact startRemain_lt h
    obtain ⟨k₂, k', l', B', hstart, htimed', hkept', rfl⟩ := startLink_timed htimed hp hr
    rw [h.timed.callTime, ← hnow, hstart] at hcall
    have hcore₂ : ∀ t, (k₂.tmr t).core = (k.tmr t).core := fun t => (hkept'.core t).trans ((hkept.core t).trans setState_core)
    have hstate₂ : ∀ t, (k₂.tmr t).state = if t = p then .running else (k.tmr t).state := fun t =>
      (hkept'.state t).trans ((hkept.state t).trans setState_state)
    have hnow₂ : k₂.now = k.now := hkept'.now.trans hnow
    refine ⟨_, _, l', _, B', hcall, h.update (p := p) ⟨l₀, ?_⟩ htimed' hnow₂ (fun t ht => ?_) (fun t _ => hcore₂ t) (fun t ht => ?_)
      (fun t ht => ?_) (fun t ht => update_of_ne ht _ _) (.inl (hcore₂ p)) ?_⟩
    · exact (Prod.mk.inj (Except.ok.inj (heq.symm.trans hcall))).1 ▸ hinv
    · show (k₂.tmr t).state = _
      rw [hstate₂, if_neg ht]
    · show Function.update _ _ _ t = _
      rw [update_of_ne ht, hkept'.startedAt, hkept.startedAt]
      rfl
    · show Function.update _ _ _ t = _
      rw [update_of_ne ht, hkept'.fired, hkept.fired]
      rfl
    · have hstate : (k₂.tmr p).state = .running := by rw [hstate₂, if_pos rfl]
      have hnow' : k₁.now = k₂.now := hkept'.now.symm
      simp only [OnTime, hstate, update_self, length_nil, Tmr.expiry, Tmr.expiries, range_zero, map_nil,
        implies_true, and_true, Nat.zero_mul, Nat.add_zero, hnow', startRemain_congr (hkept'.core p)]
  rcases call_cases k p (show osTmrStart k p = _ from rfl) with ⟨e, heq, -⟩ | ⟨htyp, hlisted, hcall⟩ | ⟨-, hlisted, hcall⟩
  · exact ⟨k, e, l, due, B, heq, h⟩
  · obtain ⟨k₁, l₁, B₁, hunlink, htimed, hkept, hp⟩ := unlink_timed (h.timed.setState (p := p) (s := .running))
      ((h.inv.mem p).mpr hlisted) (fun hc => hcoincides htyp hlisted (coincides_setState.mp hc))
    refine hlink k₁ l₁ B₁ htimed hp hkept ?_
    rw [hcall, h.timed.callTime]
    exact congrArg (Except.bind · _) hunlink
  · exact hlink _ l B h.timed.setState (fun hp => hlisted ((h.inv.mem p).mp hp))
      ⟨fun _ => rfl, fun _ => rfl, rfl, rfl, rfl, .inl rfl⟩ hcall

theorem osTmrStop_exact {opt : Nat} (h : Exact k l due B) (hs : SoundCall k (.stop p opt))
    (hcoincides : (k.tmr p).typ = true → (k.tmr p).state.Listed → ¬ Coincides k p) :
    ∃ k' e l' due' B', osTmrStop k p opt = .ok (k', e) ∧ Exact k' l' due' B' := by
  obtain ⟨k₀, e, l₀, heq, hinv⟩ := osTmrStop_inv h.inv hs
  -- the timer is stopped, and in no list
  have hstop : ∀ k' e' l' B', osTmrStop k p opt = .ok (k', e') → Timed k' l' due B' → Kept (k.setState p .stopped) k' →
      ∃ k' e l' due' B', osTmrStop k p opt = .ok (k', e) ∧ Exact k' l' due' B' := by
    intro k' e' l' B' hcall htimed hkept
    have hcore : ∀ t, (k'.tmr t).core = (k.tmr t).core := fun t => (hkept.core t).trans setState_core
    have hstate : ∀ t, (k'.tmr t).state = if t = p then .stopped else (k.tmr t).state := fun t =>
      (hkept.state t).trans setState_state
    refine ⟨k', e', l', due, B', hcall, h.update (p := p) ⟨l₀, ?_⟩ htimed hkept.now (fun t ht => ?_) (fun t _ => hcore t)
      (fun t _ => ?_) (fun t _ => ?_) (fun _ _ => rfl) (.inl (hcore p)) ?_⟩
    · exact (Prod.mk.inj (Except.ok.inj (heq.symm.trans hcall))).1 ▸ hinv
    · rw [hstate, if_neg ht]
    · rw [hkept.startedAt]
      rfl
    · rw [hkept.fired]
      rfl
    · rw [OnTime, hstate, if_pos rfl]
      trivial
  rcases osTmrStop_cases k p opt with ⟨e, heq, -⟩ | ⟨htyp, hlisted, hcall⟩ | ⟨-, hlisted, hcall⟩
  · exact ⟨k, e, l, due, B, heq, h⟩
  · obtain ⟨k', l', B', hunlink, htimed, hkept, -⟩ := unlink_timed (h.timed.setState (p := p) (s := .stopped))
      ((h.inv.mem p).mpr hlisted) (fun hc => hcoincides htyp hlisted (coincides_setState.mp hc))
    refine hstop k' .errNone l' B' ?_ htimed hkept
    rw [hcall, if_pos (hs htyp hlisted), h.timed.callTime]
    exact congrArg (Except.map _) hunlink
  · exact hstop _ _ l B hcall h.timed.setState ⟨fun _ => rfl, fun _ => rfl, rfl, rfl, rfl, .inl rfl⟩

theorem osTmrDel_exact (h : Exact k l due B) (hcoincides : (k.tmr p).typ = true → (k.tmr p).state.Listed → ¬ Coincides k p) :
    ∃ k' e l' due' B', osTmrDel k p = .ok (k', e) ∧ Exact k' l' due' B' := by
  obtain ⟨k₀, e, l₀, heq, hinv⟩ := osTmrDel_inv (p := p) h.inv
  have hdel : ∀ k₁ e' l' B', osTmrDel k p = .ok (os_TmrClr k₁ p, e') → Timed k₁ l' due B' → p ∉ l' → Kept k k₁ →
      ∃ k' e l' due' B', osTmrDel k p = .ok (k', e) ∧ Exact k' l' due' B' := by
    intro k₁ e' l' B' hcall htimed hp hkept
    have hself : (os_TmrClr k₁ p).tmr p = _ := update_self ..
    have hne : ∀ t, t ≠ p → (os_TmrClr k₁ p).tmr t = k₁.tmr t := fun t ht => update_of_ne ht _ _
    have hmem : ∀ t ∈ l', (os_TmrClr k₁ p).tmr t = k₁.tmr t := fun t ht => hne t fun heq => hp (heq ▸ ht)
    have htimed' : Timed (os_TmrClr k₁ p) l' due B' :=
      htimed.congr (htimed.listed.congr (fun t ht => by rw [hmem t ht]) (fun t ht => by rw [hmem t ht]) rfl rfl)
        (fun t ht => by rw [hmem t ht]) rfl rfl rfl
    refine ⟨_, e', l', due, B', hcall, h.update (p := p) ⟨l₀, ?_⟩ htimed' hkept.now (fun t ht => ?_) (fun t ht => ?_)
      (fun t _ => congrFun hkept.startedAt t) (fun t _ => congrFun hkept.fired t) (fun _ _ => rfl) (.inr ?_) ?_⟩
    · exact (Prod.mk.inj (Except.ok.inj (heq.symm.trans hcall))).1 ▸ hinv
    · rw [hne t ht, hkept.state]
    · rw [hne t ht, hkept.core]
    · rw [hself]
      exact ⟨Nat.two_pow_pos 31, Nat.two_pow_pos 31⟩
    · rw [hself]
      trivial
  rcases call_cases k p (show osTmrDel k p = _ from rfl) with ⟨e, heq, -⟩ | ⟨htyp, hlisted, hcall⟩ | ⟨-, hlisted, hcall⟩
  · exact ⟨k, e, l, due, B, heq, h⟩
  · obtain ⟨k₁, l', B', hunlink, htimed, hkept, hp⟩ := unlink_timed h.timed ((h.inv.mem p).mpr hlisted) (hcoincides htyp hlisted)
    refine hdel k₁ .errNone l' B' ?_ htimed hp hkept
    rw [hcall, h.timed.callTime]
    exact congrArg (Except.map _) hunlink
  · exact hdel k _ l B hcall h.timed (fun hp => hlisted ((h.inv.mem p).mp hp))
      ⟨fun _ => rfl, fun _ => rfl, rfl, rfl, rfl, .inl rfl⟩

theorem osTmrCreate_exact {dly period opt : Nat} {callback : Bool} (h : Exact k l due B)
    (hs : SoundCall k (.create p dly period opt callback))
    (hdly : createArgs dly period opt callback = .errNone → dly * mult % 2 ^ 32 < 2 ^ 31 ∧ period * mult % 2 ^ 32 < 2 ^ 31) :
    Exact (osTmrCreate mult k p dly period opt callback).1 l due B := by
  have hinv := osTmrCreate_inv mult h.inv hs
  rcases osTmrCreate_cases mult hs with ⟨e, heq⟩ | ⟨hargs, htyp, heq⟩
  · rw [heq]
    exact h
  · have hp := h.inv.notMem htyp
    have hself : (k.setTmr p (createTmr T mult dly period opt callback)).tmr p = createTmr T mult dly period opt callback :=
      update_self ..
    have hne : ∀ t, t ≠ p → (k.setTmr p (createTmr T mult dly period opt callback)).tmr t = k.tmr t := fun t ht =>
      update_of_ne ht _ _
    rw [heq] at hinv ⊢
    have hmem : ∀ t ∈ l, (k.setTmr p (createTmr T mult dly period opt callback)).tmr t = k.tmr t := fun t ht =>
      hne t fun heq => hp (heq ▸ ht)
    refine h.update (p := p) ⟨l, hinv⟩ (h.timed.congr hinv.listed (fun t ht => by rw [hmem t ht]) rfl rfl rfl) rfl
      (fun t ht => by rw [hne t ht]) (fun t ht => by rw [hne t ht]) (fun _ _ => rfl) (fun _ _ => rfl) (fun _ _ => rfl)
      (.inr ?_) ?_
    · rw [hself]
      exact hdly hargs
    · rw [hself]
      trivial

/-! ## The timer task -/

omit dT in
theorem Exact.ne_timeout (h : Exact k l due B) (hphase : ∀ t, k.phase ≠ .callback t) : (k.tmr t).state ≠ .timeout :=
  fun ht => hphase t (h.inv.timeout t ht)

omit dT in
theorem Exact.tick {wakeAt : Option Nat} (h : Exact k l due B) (hphase : k.phase = .waiting false wakeAt)
    (hwake : wakeAt ≠ some k.now) : Exact { k with now := k.now + 1 } l due B := by
  have hnone : ∀ t, k.phase ≠ .callback t := by simp [hphase]
  have htimed := h.timed.tick hphase hwake
  exact ⟨h.inv.rest htimed.listed (fun _ => rfl) (fun _ => rfl) hnone, htimed, h.dly, h.period,
    fun t => (h.onTime t).at (h.ne_timeout hnone) _⟩

theorem tmrTaskWake_exact (h : Exact k l due B) (hnone : ∀ t, k.phase ≠ .callback t) :
    ∃ k' B', tmrTaskWake k = .ok k' ∧ Exact k' l due B' := by
  obtain ⟨k₀, heq, hinv⟩ := tmrTaskWake_inv h.inv hnone
  cases hl : l with
  | nil =>
    subst hl
    have hwake : tmrTaskWake k = .ok { k with phase := .waiting false none } := by
      rw [tmrTaskWake, show k.listPtr = none from h.timed.listed.head]
    have hinv' := Except.ok.inj (heq.symm.trans hwake) ▸ hinv
    exact ⟨_, B, hwake, hinv', ⟨hinv'.listed, trivial, h.timed.tickBase, h.timed.le, by simp, by simp, by simp, fun _ hwait => by
      cases hwait; rfl, fun hbusy => absurd rfl (hbusy _ _)⟩, h.dly, h.period, h.onTime⟩
  | cons q tl =>
    subst hl
    obtain ⟨k', hwake, htimed, hstate, hcore, hnow, hstartedAt, hfired, hphase⟩ := h.timed.wake (cons_ne_nil _ _)
    refine ⟨k', k.now, hwake, Except.ok.inj (heq.symm.trans hwake) ▸ hinv, htimed, fun t => ?_, fun t => ?_, fun t => ?_⟩
    · exact (dly_congr (hcore t)).trans_lt (h.dly t)
    · exact (period_congr (hcore t)).trans_lt (h.period t)
    · rw [hnow, hstartedAt, hfired]
      exact (h.onTime t).congr (hstate t) (hcore t)

omit dT in
theorem expiries_succ (v : Tmr T) (startedAt n : Nat) : v.expiries startedAt (n + 1) = v.expiries startedAt n ++ [v.expiry startedAt n] := by
  rw [Tmr.expiries, Tmr.expiries, range_succ, map_append]
  rfl

omit dT in
theorem expiries_length (v : Tmr T) (startedAt n : Nat) : (v.expiries startedAt n).length = n := by
  rw [Tmr.expiries, length_map, length_range]

theorem expired_exact (h : Exact k (p :: l) due B) (hphase : k.phase = .processing) (hremain : (k.tmr p).remain = 0) :
    Exact { ({ k.setState p .timeout with fired := Function.update k.fired p (k.fired p ++ [k.now]) } : Kernel T) with
      phase := .callback p } (p :: l) due B := by
  have hbusy : ∀ signalled wakeAt, k.phase ≠ .waiting signalled wakeAt := by simp [hphase]
  have hinv := h.inv.expired hphase
  have hp : due p = k.now := by
    have htimes : due p = B + (k.tmr p).remain := h.timed.times.1
    have hB := h.timed.busy hbusy
    omega
  have hrunning : (k.tmr p).state = .running := by
    have hlisted := (h.inv.mem p).mp (mem_cons_self ..)
    have htimeout := h.ne_timeout (t := p) (by simp [hphase])
    cases hstate : (k.tmr p).state <;> simp_all [TmrState.Listed]
  refine h.update (p := p) ⟨_, hinv⟩ ?_ rfl (fun t ht => by simp [ht]) (fun t _ => setState_core) (fun _ _ => rfl)
    (fun t ht => update_of_ne ht _ _) (fun _ _ => rfl) (.inl setState_core) ?_
  · exact (h.timed.phase (.callback p) hbusy (by simp)).congr hinv.listed (fun _ _ => setState_remain) rfl rfl rfl
  · have hontime := h.onTime p
    rw [OnTime, hrunning] at hontime
    obtain ⟨hdue, hfired, hperiodic⟩ := hontime
    have hcore : ((k.setState p .timeout).tmr p).core = (k.tmr p).core := setState_core
    rw [OnTime, show ((k.setState p .timeout).tmr p).state = .timeout by simp]
    refine ⟨(k.fired p).length, ?_, ?_, fun hnot => ?_⟩
    · show k.now = ((k.setState p .timeout).tmr p).expiry _ _
      rw [expiry_congr hcore, ← hp, hdue]
      rfl
    · show Function.update _ _ _ p = _
      rw [update_self, expiries_congr hcore, expiries_succ, ← hp, hdue]
      exact congrArg (· ++ [(k.tmr p).expiry (k.startedAt p) (k.fired p).length]) hfired
    · rw [hperiodic ((periodic_congr hcore).symm.trans hnot)]
      rfl

theorem tmrTaskExpired_exact (h : Exact { k with phase := .callback p } l due B) (hphase : k.phase = .processing) :
    ∃ k' l' due' B', tmrTaskExpired k p = .ok k' ∧ Exact k' l' due' B' := by
  obtain ⟨k₀, l₀, heq, hinv⟩ := tmrTaskExpired_inv h.inv
  have hbusy : ∀ signalled wakeAt, k.phase ≠ .waiting signalled wakeAt := by simp [hphase]
  have htimed : Timed k l due B := by
    have := h.timed.phase k.phase nofun hbusy
    exact this
  by_cases hstate : (k.tmr p).state = .timeout
  · obtain ⟨n, hnow, hfired, hperiodic⟩ : ∃ n, k.now = (k.tmr p).expiry (k.startedAt p) n ∧
        k.fired p = (k.tmr p).expiries (k.startedAt p) (n + 1) ∧ ((k.tmr p).periodic = false → n = 0) := by
      have hontime := h.onTime p
      rw [OnTime, show ((({ k with phase := .callback p } : Kernel T).tmr p).state) = .timeout from hstate] at hontime
      exact hontime
    have hp : p ∈ l := (h.inv.mem p).mpr (show TmrState.Listed (k.tmr p).state from hstate ▸ trivial)
    obtain ⟨k₁, l₁, B₁, hunlink, htimed₁, hkept₁, hp₁⟩ := unlink_timed htimed hp (htimed.not_coincides hbusy)
    have hphase₁ : k₁.phase = .processing := by
      rcases hkept₁.phase with heq | heq <;> rw [heq, hphase]
      rfl
    have hcore₁ := hkept₁.core p
    have hcall : tmrTaskExpired k p = if (k₁.tmr p).periodic then
          os_TmrLink ((k₁.setState p .running).setRemain p (k₁.tmr p).period) p k₁.tickBase
        else .ok ((((k₁.setPrev p none).setNext p none).setRemain p 0).setState p .completed) := by
      rw [tmrTaskExpired, if_pos hstate, htimed.tickBase, htimed.busy hbusy, hunlink]
      rfl
    cases hp' : (k₁.tmr p).periodic with
    | true =>
      have hremain : (((k₁.setState p .running).setRemain p (k₁.tmr p).period).tmr p).remain = (k.tmr p).period := by
        simp [period_congr hcore₁]
      obtain ⟨k₂, l₂, B₂, hlink, htimed₂, hkept₂⟩ := link_timed
        ((htimed₁.setState (p := p) (s := .running)).setRemain (r := (k₁.tmr p).period) hp₁) hp₁ (by rw [hremain]; exact h.period p)
      have hbase : k₁.tickBase = k₁.now % 2 ^ 32 := by rw [htimed₁.tickBase, htimed₁.busy (by simp [hphase₁])]
      rw [hp', if_pos rfl, hbase] at hcall
      have hgo : tmrTaskExpired k p = .ok k₂ := hcall.trans hlink
      have hstate₂ : ∀ t, (k₂.tmr t).state = if t = p then .running else (k.tmr t).state := fun t => by
        rw [hkept₂.state, setRemain_state, setState_state, hkept₁.state]
      have hcore₂ : ∀ t, (k₂.tmr t).core = (k.tmr t).core := fun t => by
        rw [hkept₂.core, setRemain_core, setState_core, hkept₁.core]
      have hnow₂ : k₂.now = k.now := hkept₂.now.trans hkept₁.now
      have hstarted₂ : k₂.startedAt = k.startedAt := hkept₂.startedAt.trans hkept₁.startedAt
      have hfired₂ : k₂.fired = k.fired := hkept₂.fired.trans hkept₁.fired
      refine ⟨k₂, l₂, _, B₂, hgo, h.update (p := p) ⟨l₀, Except.ok.inj (heq.symm.trans hgo) ▸ hinv⟩ htimed₂ hnow₂
        (fun t ht => by rw [hstate₂, if_neg ht]) (fun t _ => hcore₂ t) (fun t _ => congrFun hstarted₂ t)
        (fun t _ => congrFun hfired₂ t) (fun t ht => update_of_ne ht _ _) (.inl (hcore₂ p)) ?_⟩
      rw [OnTime, hstate₂, if_pos rfl]
      rw [update_self, hremain, hstarted₂, hfired₂, expiry_congr (hcore₂ p), expiries_congr (hcore₂ p), hfired,
        expiries_length]
      refine ⟨?_, rfl, fun hnot => ?_⟩
      · show k₁.now + _ = _
        rw [hkept₁.now, hnow, Tmr.expiry, Tmr.expiry, Nat.succ_mul, Nat.add_assoc]
      · rw [periodic_congr (hcore₂ p), ← periodic_congr hcore₁, hp'] at hnot
        cases hnot
    | false =>
      rw [hp', if_neg Bool.false_ne_true] at hcall
      have hne : ∀ t ∈ l₁, t ≠ p := fun t ht heq => hp₁ (heq ▸ ht)
      have hnot : (k.tmr p).periodic = false := by rw [← periodic_congr hcore₁, hp']
      have hcore₂ : (((((k₁.setPrev p none).setNext p none).setRemain p 0).setState p .completed).tmr p).core =
          (k.tmr p).core := by simp [hcore₁]
      refine ⟨_, l₁, due, B₁, hcall, h.update (p := p) ⟨l₀, Except.ok.inj (heq.symm.trans hcall) ▸ hinv⟩
        (htimed₁.congr (htimed₁.listed.congr (fun t ht => by simp [hne t ht]) (fun t ht => by simp [hne t ht]) rfl rfl)
          (fun t ht => by simp [hne t ht]) rfl rfl rfl) hkept₁.now (fun t ht => by simp [ht, hkept₁.state])
        (fun t _ => by simp [hkept₁.core]) (fun t _ => congrFun hkept₁.startedAt t) (fun t _ => congrFun hkept₁.fired t)
        (fun _ _ => rfl) (.inl hcore₂) ?_⟩
      rw [OnTime, setState_state, if_pos rfl]
      refine ⟨(periodic_congr hcore₂).trans hnot, ?_⟩
      show k₁.fired p = _
      rw [hkept₁.fired, expiries_congr hcore₂]
      show k.fired p = (k.tmr p).expiries (k₁.startedAt p) 1
      rw [hkept₁.startedAt, hfired, hperiodic hnot]
  · have hgo : tmrTaskExpired k p = .ok k := by rw [tmrTaskExpired, if_neg hstate]
    obtain rfl : k₀ = k := Except.ok.inj (heq.symm.trans hgo)
    obtain rfl : l₀ = l := hinv.listed.unique htimed.listed
    exact ⟨k₀, l₀, due, B, hgo, hinv, htimed, h.dly, h.period, h.onTime⟩

theorem tmrTaskNext_exact (h : Exact k l due B) (hphase : k.phase = .processing) :
    ∃ k' l' due' B', tmrTaskNext k = .ok k' ∧ Exact k' l' due' B' := by
  have hbusy : ∀ signalled wakeAt, k.phase ≠ .waiting signalled wakeAt := by simp [hphase]
  have hnone : ∀ t, k.phase ≠ .callback t := by simp [hphase]
  have hB := h.timed.busy hbusy
  have hhead := h.timed.listed.head
  -- the wait for the first timer, or for ever
  have hwait : ∀ wakeAt, wakeAt = l.head?.map due → Exact { k with phase := .waiting false wakeAt } l due B := by
    intro wakeAt hwake
    have hl : Listed { k with phase := .waiting false wakeAt } l := h.timed.listed.congr (fun _ _ => rfl) (fun _ _ => rfl) rfl rfl
    refine ⟨h.inv.rest hl (fun _ => rfl) (fun _ => rfl) hnone, ⟨hl, h.timed.times, h.timed.tickBase, h.timed.le, h.timed.ahead,
      h.timed.first, h.timed.near, fun _ heq => ?_, fun hbusy => absurd rfl (hbusy _ _)⟩, h.dly, h.period, h.onTime⟩
    cases heq
    exact hwake
  cases l with
  | nil => exact ⟨_, [], due, B, by rw [tmrTaskNext, show k.listPtr = none from hhead], hwait none rfl⟩
  | cons p l =>
    rw [tmrTaskNext]
    simp only [show k.listPtr = some p from hhead]
    by_cases hremain : (k.tmr p).remain = 0
    · rw [if_pos hremain]
      have h₁ := expired_exact h hphase hremain
      by_cases hcallback : ((k.setState p .timeout).tmr p).callback = true
      · exact ⟨_, _, due, B, if_pos hcallback, h₁⟩
      · obtain ⟨k', l', due', B', heq, h'⟩ := tmrTaskExpired_exact h₁ hphase
        exact ⟨k', l', due', B', (if_neg hcallback).trans heq, h'⟩
    · rw [if_neg hremain]
      refine ⟨_, p :: l, due, B, ?_, hwait (some (k.now + (k.tmr p).remain)) ?_⟩
      · rw [show k.listPtr = some p from hhead]
      · have htimes : due p = B + (k.tmr p).remain := h.timed.times.1
        rw [List.head?_cons, Option.map_some, htimes, hB]

/-! ## Runs -/

/-- The delays of a timer are less than 2³¹ ticks, no call refuses anything after it has written the state of a
timer in the list, and no timer leaves the head of the list when as many ticks have elapsed as the one behind it
has. -/
def SteadyCall (mult : Nat) (k : Kernel T) : Call T → Prop
  | .create p dly period opt callback => SoundCall k (.create p dly period opt callback) ∧
      (createArgs dly period opt callback = .errNone → dly * mult % 2 ^ 32 < 2 ^ 31 ∧ period * mult % 2 ^ 32 < 2 ^ 31)
  | .start p => (k.tmr p).typ = true → (k.tmr p).state.Listed → ¬ Coincides k p
  | .stop p opt => SoundCall k (.stop p opt) ∧ ((k.tmr p).typ = true → (k.tmr p).state.Listed → ¬ Coincides k p)
  | .del p => (k.tmr p).typ = true → (k.tmr p).state.Listed → ¬ Coincides k p

def Steady (mult : Nat) (k : Kernel T) : Event T → Prop
  | .call c => SteadyCall mult k c
  | _ => True

instance Coincides.instDecidable (k : Kernel T) (p : T) : Decidable (Coincides k p) := by
  unfold Coincides
  cases (k.tmr p).prevPtr with
  | none =>
    cases (k.tmr p).nextPtr with
    | none => exact inferInstanceAs (Decidable False)
    | some _ => exact inferInstanceAs (Decidable (_ ∧ _))
  | some _ => exact inferInstanceAs (Decidable False)

instance SteadyCall.instDecidable (mult : Nat) (k : Kernel T) (c) : Decidable (SteadyCall mult k c) := by
  induction c using Call.casesOn <;> dsimp only [SteadyCall] <;> infer_instance

instance Steady.instDecidable (mult : Nat) (k : Kernel T) (e) : Decidable (Steady mult k e) := by
  induction e using Event.casesOn <;> dsimp only [Steady] <;> infer_instance

omit dT in
theorem SteadyCall.sound {c : Call T} (h : SteadyCall mult k c) : SoundCall k c := by
  cases c with
  | create p dly period opt callback => exact h.1
  | start p => trivial
  | stop p opt => exact h.1
  | del p => trivial

omit dT in
theorem Steady.sound {e : Event T} (h : Steady mult k e) : Sound k e := by
  cases e with
  | call c => exact SteadyCall.sound h
  | _ => trivial

theorem call_exact {c : Call T} (h : Exact k l due B) (hs : SteadyCall mult k c) :
    ∃ k' e l' due' B', call mult k c = .ok (k', e) ∧ Exact k' l' due' B' := by
  cases c with
  | create p dly period opt callback => exact ⟨_, _, l, due, B, rfl, osTmrCreate_exact h hs.1 hs.2⟩
  | start p => exact osTmrStart_exact h hs
  | stop p opt => exact osTmrStop_exact h hs.1 hs.2
  | del p => exact osTmrDel_exact h hs

inductive Took (mult : Nat) (k k' : Kernel T) : Event T → Prop
  | tick {wakeAt : Option Nat} (hphase : k.phase = .waiting false wakeAt) (hwake : wakeAt ≠ some k.now)
      (h : k' = { k with now := k.now + 1 }) : Took mult k k' .tick
  | call {c : Call T} {e : Err} (h : call mult k c = .ok (k', e)) : Took mult k k' (.call c)
  | wake (hnone : ∀ t, k.phase ≠ .callback t) (h : tmrTaskWake k = .ok k') : Took mult k k' .wake
  | next (hphase : k.phase = .processing) (h : tmrTaskNext k = .ok k') : Took mult k k' .next
  | back {p : T} (hphase : k.phase = .callback p) (h : tmrTaskExpired { k with phase := .processing } p = .ok k') :
      Took mult k k' .return

theorem step_took {e : Event T} (hstep : step mult k e = .ok k') : Took mult k k' e := by
  cases e with
  | tick =>
    cases hphase : k.phase with
    | waiting signalled wakeAt =>
      rw [step, hphase] at hstep
      cases signalled with
      | true => cases hstep
      | false =>
        dsimp only at hstep
        by_cases hwake : wakeAt = some k.now
        · rw [if_pos hwake] at hstep
          cases hstep
        · rw [if_neg hwake] at hstep
          exact .tick hphase hwake (by rw [hphase]; exact (Except.ok.inj hstep).symm)
    | _ =>
      rw [step, hphase] at hstep
      cases hstep
  | call c =>
    have hcall : (call mult k c).map Prod.fst = .ok k' := by
      rw [step] at hstep
      cases hphase : k.phase <;> rw [hphase] at hstep
      case processing => cases hstep
      all_goals exact hstep
    obtain ⟨⟨k₁, e⟩, heq, rfl⟩ := map_eq_ok hcall
    exact .call heq
  | wake =>
    cases hphase : k.phase with
    | waiting signalled wakeAt =>
      rw [step, hphase] at hstep
      dsimp only at hstep
      by_cases hwake : signalled = true ∨ wakeAt = some k.now
      · rw [if_pos hwake] at hstep
        exact .wake (by simp [hphase]) hstep
      · rw [if_neg hwake] at hstep
        cases hstep
    | _ =>
      rw [step, hphase] at hstep
      cases hstep
  | next =>
    cases hphase : k.phase with
    | processing =>
      rw [step, hphase] at hstep
      exact .next hphase hstep
    | _ =>
      rw [step, hphase] at hstep
      cases hstep
  | «return» =>
    cases hphase : k.phase with
    | callback p =>
      rw [step, hphase] at hstep
      exact .back hphase hstep
    | _ =>
      rw [step, hphase] at hstep
      cases hstep

theorem step_exact {e : Event T} (h : ∃ l due B, Exact k l due B) (hs : Steady mult k e) (hstep : step mult k e = .ok k') :
    ∃ l due B, Exact k' l due B := by
  obtain ⟨l, due, B, h⟩ := h
  cases step_took hstep with
  | tick hphase hwake heq => exact ⟨l, due, B, heq ▸ h.tick hphase hwake⟩
  | call hcall =>
    obtain ⟨k₁, e, l', due', B', heq, h'⟩ := call_exact h hs
    obtain ⟨rfl, -⟩ := Prod.mk.inj (Except.ok.inj (heq.symm.trans hcall))
    exact ⟨l', due', B', h'⟩
  | wake hnone hwake =>
    obtain ⟨k₁, B', heq, h'⟩ := tmrTaskWake_exact h hnone
    exact ⟨l, due, B', Except.ok.inj (heq.symm.trans hwake) ▸ h'⟩
  | next hphase hnext =>
    obtain ⟨k₁, l', due', B', heq, h'⟩ := tmrTaskNext_exact h hphase
    exact ⟨l', due', B', Except.ok.inj (heq.symm.trans hnext) ▸ h'⟩
  | @back p hphase hback =>
    have h₁ : Exact { ({ k with phase := .processing } : Kernel T) with phase := .callback p } l due B := by
      rw [← hphase]
      exact h
    obtain ⟨k₁, l', due', B', heq, h'⟩ := tmrTaskExpired_exact h₁ rfl
    exact ⟨l', due', B', Except.ok.inj (heq.symm.trans hback) ▸ h'⟩

theorem run_exact {now : Nat} {events : List (Event T)} (hs : Along (step mult) (Steady mult) (start T now) events)
    (hrun : run (step mult) (start T now) events = .ok k) : ∃ l due B, Exact k l due B :=
  @run_inv _ _ _ (step mult) (Steady mult) (fun k => ∃ l due B, Exact k l due B) _ _ _
    (fun _ _ _ h hs hstep => step_exact h hs hstep) ⟨[], _, 0, Exact.start now⟩ hs hrun

/-- The timer task waits, is not signalled, and its wait ends later. -/
def Settled (k : Kernel T) : Prop := ∃ wakeAt, k.phase = .waiting false wakeAt ∧ wakeAt ≠ some k.now

/-- A timer that was started has been found expired at its expiries up to now and at no other time, and the list
has its next one. -/
def Punctual (k : Kernel T) (t : T) : Prop :=
  match (k.tmr t).state with
  | .running => ∃ n, k.fired t = (k.tmr t).expiries (k.startedAt t) n ∧ ((k.tmr t).periodic = false → n = 0) ∧
      k.now ≤ (k.tmr t).expiry (k.startedAt t) n ∧ (Settled k → k.now < (k.tmr t).expiry (k.startedAt t) n) ∧
      ∃ pre post, Listed k (pre ++ t :: post) ∧
        (k.tickBase + behind k pre + (k.tmr t).remain) % 2 ^ 32 = (k.tmr t).expiry (k.startedAt t) n % 2 ^ 32
  | .timeout => ∃ n, k.fired t = (k.tmr t).expiries (k.startedAt t) (n + 1) ∧ ((k.tmr t).periodic = false → n = 0) ∧
      k.now = (k.tmr t).expiry (k.startedAt t) n
  | .completed => k.fired t = (k.tmr t).expiries (k.startedAt t) 1 ∧ (k.tmr t).periodic = false
  | _ => True

omit dT in
theorem Exact.punctual (h : Exact k l due B) (t : T) : Punctual k t := by
  have hontime := h.onTime t
  rw [OnTime] at hontime
  rw [Punctual]
  cases hstate : (k.tmr t).state with
  | running =>
    rw [hstate] at hontime
    obtain ⟨hdue, hfired, hperiodic⟩ := hontime
    obtain ⟨pre, post, rfl⟩ := append_of_mem ((h.inv.mem t).mpr (show TmrState.Listed _ from hstate ▸ trivial))
    have htime : due t = B + behind k pre + (k.tmr t).remain := h.timed.times.time_eq
    have hbase := h.timed.tickBase
    -- the first timer of the list expires first
    obtain ⟨q, tl, hl⟩ := exists_cons_of_ne_nil (show pre ++ t :: post ≠ [] by simp)
    have hmem : t ∈ q :: tl := hl ▸ by simp
    have hqt := (hl ▸ h.timed : Timed k (q :: tl) due B).head_le t hmem
    have hahead := (hl ▸ h.timed : Timed k (q :: tl) due B).ahead (due q) rfl
    refine ⟨(k.fired t).length, hfired, fun hnot => by rw [hperiodic hnot]; rfl, by omega, fun ⟨wakeAt, hphase, hwake⟩ => ?_, pre,
      post, h.timed.listed, by omega⟩
    have hwait := (hl ▸ h.timed : Timed k (q :: tl) due B).wait wakeAt hphase
    have hne : due q ≠ k.now := fun heq => hwake (by rw [hwait, List.head?_cons, Option.map_some, heq])
    omega
  | timeout =>
    rw [hstate] at hontime
    obtain ⟨n, hnow, hfired, hperiodic⟩ := hontime
    exact ⟨n, hfired, hperiodic, hnow⟩
  | completed =>
    rw [hstate] at hontime
    exact hontime.symm
  | _ => trivial

/-- **Timers expire on time.** In every run whose calls are steady, every timer that was started has been found
expired when it should and at no other time, and the list has its next expiry; and every step returns. -/
theorem timers_on_time {now : Nat} {events : List (Event T)} (hs : Along (step mult) (Steady mult) (start T now) events)
    (hrun : run (step mult) (start T now) events = .ok k) :
    (∀ t, Punctual k t) ∧
      ∀ e, Steady mult k e → step mult k e ≠ .error .nullPtr ∧ step mult k e ≠ .error .endless := by
  obtain ⟨l, due, B, h⟩ := run_exact hs hrun
  refine ⟨h.punctual, fun e hs => ?_⟩
  rcases step_outcome mult h.inv hs.sound with hstep | ⟨k', l', hstep, -⟩ <;> rw [hstep] <;> exact ⟨nofun, nofun⟩

/-- The tick counter wraps, timer 0 goes off after three ticks and then every two, and stops timer 1 before it
goes off. -/
def acrossWrap : List (Event (Fin 2)) :=
  [.call (.create 0 3 2 2 true), .call (.create 1 5 0 1 true), .call (.start 0), .call (.start 1), .wake, .next, .tick, .tick, .tick,
    .wake, .next, .call (.stop 1 0), .return, .next, .tick, .tick, .wake, .next, .return, .next]

theorem timers_on_time_two : ∃ k, run (step 1) (start (Fin 2) 4294967294) acrossWrap = .ok k ∧ ∀ t, Punctual k t := by
  have hs : Along (step 1) (Steady 1) (start (Fin 2) 4294967294) acrossWrap := by decide +kernel
  obtain ⟨k, hrun⟩ := exists_ok (show (run (step 1) (start (Fin 2) 4294967294) acrossWrap).toOption.isSome = true
    by decide +kernel)
  exact ⟨k, hrun, (timers_on_time hs hrun).1⟩

/-- Timer 0 is to go off after 10 ticks and timer 1 after 15. Timer 0 is stopped after 5, and timer 1 goes off
after 10. -/
def stopFirst : List (Event (Fin 2)) :=
  [.call (.create 0 10 0 1 true), .call (.create 1 15 0 1 true), .call (.start 0), .call (.start 1), .wake, .next, .tick, .tick,
    .tick, .tick, .tick, .call (.stop 0 0), .tick, .tick, .tick, .tick, .tick, .wake, .next]

theorem expires_early : ∃ k, run (step 1) (start (Fin 2) 0) stopFirst = .ok k ∧ k.startedAt 1 = 0 ∧ (k.tmr 1).dly = 15 ∧
    k.phase = .callback 1 ∧ k.now = 10 ∧ ¬ Punctual k 1 := by
  refine ⟨_, rfl, by decide, by decide, by decide, by decide, ?_⟩
  rintro ⟨n, -, hn, hnow⟩
  cases hn (by decide)
  exact absurd hnow (by decide)

end RtosKernel.Ucos.Timers
