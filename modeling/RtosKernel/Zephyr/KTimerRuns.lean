import RtosKernel.Zephyr.KTimer
import RtosKernel.Zephyr.TimeoutExact

/-! # When the periods of a timer do not drift

The handler reads the uptime to know when it should have run. What it reads is `curr_tick` only if no ticks have elapsed
since the announcement began, and the stored period is one tick short of the period only from two ticks on. -/
namespace RtosKernel.Zephyr.KTimer
open Lib.Runs
open Zephyr.Timeout (Config Obs Tracks Fits expiry zAddTimeout zAbortTimeout toTicks_of toUint64_of tickAbs_of)
open Function (update_of_ne update_self)

variable {K O : Type} [dK : DecidableEq K] [dO : DecidableEq O] {s s' : State K O} {k : K}
  {b b' : List ((K ⊕ O) × Int)} {p : Int}

/-- The ticks fit their types, and a handler that keeps a period of at least two ticks reads no elapsed ticks. -/
def Orderly (s : State K O) : Event K O → Prop
  | .start k duration _ e => duration = cfg.ticksForever ∨ Fits cfg s.queue (.add (.inl k) (startDuration duration) e)
  | .add o ticks e => Fits cfg s.queue (.add (.inr o) ticks e)
  | .announce ticks => Fits cfg s.queue (.announce ticks)
  | .handler e e' => ∀ k ∈ s.calling, s.count k + 1 < 2 ^ 32 ∧
      (Periodic (s.period k) → Fits cfg s.queue (.add (.inl k) (next s k e) e')) ∧
      ∀ p ∈ s.asked k, 2 ≤ p ∧ e = 0 ∧ s.queue.currTick + p + 1 < 2 ^ 63
  | _ => True

instance Orderly.instDecidable (s : State K O) (ev) : Decidable (Orderly s ev) := by
  cases ev <;> dsimp only [Orderly] <;> infer_instance

theorem orLinked_eq_ok {α : Type} {x : Option α} {a : α} (h : orLinked x = .ok a) : x = some a := by
  cases x with
  | some b =>
    cases h
    rfl
  | none => cases h

/-! ## Ticks -/

theorem isTicks_toTicks (x : Int) : cfg.IsTicks (cfg.toTicks x) := by
  exact Int.bmod_bmod

theorem isTicks_iff {x : Int} : cfg.IsTicks x ↔ -2 ^ 63 ≤ x ∧ x < 2 ^ 63 := by
  simp only [Config.IsTicks, Config.toTicks, cfg, if_true]
  constructor
  · intro h
    have hlow := Int.le_bmod (x := x) (m := 2 ^ 64) (by decide)
    have hhigh := Int.bmod_lt (x := x) (m := 2 ^ 64) (by decide)
    omega
  · rintro ⟨hlow, hhigh⟩
    exact Int.bmod_eq_of_le (by omega) (by omega)

theorem ticksForever_eq : cfg.ticksForever = -1 := by decide

theorem tickAbs_eq {x : Int} (hlow : -2 ^ 63 ≤ x) (hhigh : x ≤ 2 ^ 63 - 2) : cfg.tickAbs x = -2 - x :=
  tickAbs_of rfl hlow hhigh

theorem isTicks_startDuration {duration : Int} (h : cfg.IsTicks duration) : cfg.IsTicks (startDuration duration) := by
  unfold startDuration
  split
  · obtain ⟨hlow, hhigh⟩ := isTicks_iff.mp h
    exact isTicks_iff.mpr (by omega)
  · exact h

omit dK dO in
theorem expiry_next (hp : 2 ≤ p) (hperiod : s.period k = max (p - 1) 1) (hc : 0 ≤ s.queue.currTick)
    (hfits : s.queue.currTick + p + 1 < 2 ^ 63) (e' : Nat) :
    Periodic (s.period k) ∧ next s k 0 ≠ cfg.ticksForever ∧ expiry s.queue (next s k 0) e' = s.queue.currTick + p := by
  have hmax : max (p - 1) 1 = p - 1 := by omega
  have huptime : zImplKUptimeTicks s 0 = s.queue.currTick := by
    rw [zImplKUptimeTicks, Nat.cast_zero, add_zero, toUint64_of hc (by omega)]
    exact toTicks_of hc (by show _ < (2 ^ 63 : Int); omega)
  have hsum : cfg.toTicks (s.queue.currTick + 1 + (p - 1)) = s.queue.currTick + p := by
    rw [toTicks_of (by omega) (by show _ < (2 ^ 63 : Int); omega)]
    omega
  have hnext : next s k 0 = -2 - (s.queue.currTick + p) := by
    rw [next, huptime, hperiod, hmax, hsum, kTimeoutAbsTicks, max_eq_left (show 0 ≤ s.queue.currTick + p by omega)]
    exact tickAbs_eq (by omega) (by omega)
  rw [hperiod, hmax, hnext, Periodic, ticksForever_eq]
  refine ⟨⟨by omega, by omega⟩, by omega, ?_⟩
  rw [expiry, if_neg (by omega)]
  omega

/-! ## The invariant -/

/-- What holds of one timer, when the queue holds the timeouts `b`. -/
structure TimerOk (s : State K O) (b : List ((K ⊕ O) × Int)) (k : K) : Prop where
  status : s.status k = s.count k
  period : ∀ p, s.asked k = some p → s.period k = max (p - 1) 1 ∧ 0 < p
  spaced : ∀ p, s.asked k = some p → ∀ F, (s.expiries k).head? = some F →
    ∀ (i : Nat) (x : Int), (s.expiries k)[i]? = some x → x = F + i * p
  pending : ∀ p, s.asked k = some p → ∀ F, (s.expiries k).head? = some F →
    ∀ time, (.inl k, time) ∈ b → time = F + (s.expiries k).length * p
  calling : ∀ p, s.asked k = some p → ∀ F, (s.expiries k).head? = some F →
    s.calling = some k → s.queue.currTick = F + (s.expiries k).length * p
  armed : ∀ p, s.asked k = some p → s.calling = some k ∨ Sum.inl k ∈ b.map Prod.fst

structure Inv (s : State K O) (b : List ((K ⊕ O) × Int)) : Prop where
  tracks : Tracks cfg s.queue b
  timer : ∀ k, TimerOk s b k
  idle : s.queue.announcing = false → s.calling = none
  results : ∀ r ∈ s.results, r.1 = r.2

section
omit dK dO

theorem Inv.sound (h : Inv s b) : Sound s where
  spaced k p := (h.timer k).spaced p
  onTime := by
    intro hidle k p hk F hF
    rcases (h.timer k).armed p hk with hcall | hin
    · cases (h.idle hidle).symm.trans hcall
    · obtain ⟨⟨t, time⟩, hmem, rfl⟩ := List.mem_map.mp hin
      obtain ⟨q, hq, hb⟩ := h.tracks
      rw [← (h.timer k).pending p hk F hF time hmem]
      exact (hq.idle hidle).2 _ (hb.mem.mpr hmem)
  counted := h.results

theorem TimerOk.congr (h : TimerOk s b k) (hstatus : s'.status k = s.status k) (hcount : s'.count k = s.count k)
    (hperiod : s'.period k = s.period k) (hasked : s'.asked k = s.asked k) (hexp : s'.expiries k = s.expiries k)
    (hsub : ∀ time, (.inl k, time) ∈ b' → (.inl k, time) ∈ b)
    (hcall : s'.calling = some k → s.calling = some k ∧ s'.queue.currTick = s.queue.currTick ∨
      (.inl k, s'.queue.currTick) ∈ b)
    (harmed : s.calling = some k ∨ Sum.inl k ∈ b.map Prod.fst → s'.calling = some k ∨ Sum.inl k ∈ b'.map Prod.fst) :
    TimerOk s' b' k := by
  refine ⟨?_, ?_, ?_, ?_, ?_, ?_⟩
  · rw [hstatus, hcount]
    exact h.status
  · rw [hasked, hperiod]
    exact h.period
  · rw [hasked, hexp]
    exact h.spaced
  · rw [hasked, hexp]
    exact fun p hp F hF time ht => h.pending p hp F hF time (hsub time ht)
  · rw [hasked, hexp]
    intro p hp F hF hc
    rcases hcall hc with ⟨hc, htick⟩ | hin
    · rw [htick]
      exact h.calling p hp F hF hc
    · exact h.pending p hp F hF _ hin
  · rw [hasked]
    exact fun p hp => harmed (h.armed p hp)

theorem mem_keys {t : K ⊕ O} (h : t ∈ b.map Prod.fst) (hsub : ∀ time, (t, time) ∈ b → (t, time) ∈ b') :
    t ∈ b'.map Prod.fst := by
  obtain ⟨⟨t, time⟩, hmem, rfl⟩ := List.mem_map.mp h
  exact List.mem_map_of_mem (hsub time hmem)

end

/-! ## Steps -/

omit dK dO in
theorem Inv.requeue (h : Inv s b) {queue : Timeout.State (K ⊕ O)} (htracks : Tracks cfg queue b')
    (htick : queue.currTick = s.queue.currTick) (hann : queue.announcing = s.queue.announcing)
    (hmem : ∀ k time, (.inl k, time) ∈ b' ↔ (.inl k, time) ∈ b) : Inv { s with queue } b' := by
  refine ⟨htracks, fun k => ?_, ?_, h.results⟩
  · refine (h.timer k).congr rfl rfl rfl rfl rfl (fun time => (hmem k time).mp) ?_ ?_
    · exact fun hc => .inl ⟨hc, htick⟩
    · exact fun harmed => harmed.imp_right fun hin => mem_keys hin fun time => (hmem k time).mpr
  · rw [hann]
    exact h.idle

theorem Inv.announced (h : Inv s b) (hcall : s.calling = none) {ev : Timeout.Event (K ⊕ O)}
    (hev : (∃ ticks, ev = .announce ticks) ∨ ev = .returned) (hfits : Fits cfg s.queue ev)
    (hgo : KTimer.announced s (Timeout.step cfg s.queue ev) = .ok s') : ∃ b', Inv s' b' := by
  cases hstep : Timeout.step cfg s.queue ev with
  | none =>
    rw [hstep] at hgo
    cases hgo
  | some r =>
    obtain ⟨q, o⟩ := r
    rw [hstep] at hgo
    cases hgo
    rcases h.tracks.announced hev hfits hstep with ⟨rfl, ht⟩ | ⟨t, b', rfl, hin, ht, hann, hsub, hkeep⟩
    · refine ⟨b, ht, fun k => ?_, fun _ => rfl, h.results⟩
      refine (h.timer k).congr rfl rfl rfl rfl rfl (fun _ => id) nofun ?_
      exact fun harmed => harmed.imp_left fun hc => by cases hcall.symm.trans hc
    · refine ⟨b', ht, fun k => ?_, fun hidle => (by cases hann.symm.trans hidle), h.results⟩
      refine (h.timer k).congr rfl rfl rfl rfl rfl (fun time => hsub _) ?_ ?_
      · intro hc
        cases t with
        | inl k' =>
          cases hc
          exact .inr hin
        | inr o => cases hc
      · intro harmed
        have hmem := harmed.resolve_left fun hc => by cases hcall.symm.trans hc
        by_cases hk : t = .inl k
        · exact .inl (by rw [hk]; rfl)
        · exact .inr (mem_keys hmem fun time hmem => hkeep _ hmem fun he => hk he.symm)

theorem Inv.zImplKTimerStart (h : Inv s b) {duration period : Int} {e : Nat} (hticks : cfg.IsTicks duration)
    (ho : Orderly s (.start k duration period e))
    (hgo : KTimer.zImplKTimerStart s k duration period e = .ok s') : ∃ b', Inv s' b' := by
  unfold KTimer.zImplKTimerStart at hgo
  split at hgo
  · cases hgo
    exact ⟨b, h⟩
  · rename_i hforever
    obtain ⟨queue, hadd, rfl⟩ := map_eq_ok hgo
    have hadd := orLinked_eq_ok hadd
    obtain ⟨htick, hann, hrem, ht⟩ := h.tracks.aborted (.inl k)
    set q := (zAbortTimeout cfg s.queue (.inl k)).1
    have hfits : Fits cfg q (.add (.inl k) (startDuration duration) e) := by
      have hold := ho.resolve_left hforever
      simp only [Fits, Timeout.sinceAnnounced, htick, hrem] at hold ⊢
      exact hold
    have hne : startDuration duration ≠ cfg.ticksForever := by
      rw [ticksForever_eq] at hforever ⊢
      unfold startDuration
      split
      · omega
      · exact hforever
    obtain ⟨htick', hann', hcases⟩ := ht.added (isTicks_startDuration hticks) hfits hadd
    obtain ⟨-, ht'⟩ := hcases.resolve_left fun hf => hne hf.1
    refine ⟨_, ht', fun k' => ?_, ?_, h.results⟩
    · by_cases hk : k' = k
      · subst hk
        refine ⟨by simp, ?_, by simp, by simp, by simp, fun _ _ => .inr (by simp)⟩
        intro p hp
        simp only [update_self, Option.ite_none_right_eq_some, Option.some.injEq] at hp ⊢
        obtain ⟨⟨hpos, hrel⟩, rfl⟩ := hp
        exact ⟨if_pos ⟨by rw [ticksForever_eq]; omega, by omega, hrel⟩, hpos⟩
      · refine (h.timer k').congr (by simp [hk]) (by simp [hk]) (by simp [hk]) (by simp [hk]) (by simp [hk]) ?_ ?_ ?_
        · intro time hin
          simpa [hk] using hin
        · exact fun hc => .inl ⟨hc, htick'.trans htick⟩
        · exact fun harmed => harmed.imp_right fun hin => mem_keys hin fun time hin => by simp [hin, hk]
    · intro hidle
      exact h.idle (hann.symm.trans (hann'.symm.trans hidle))

theorem Inv.zImplKTimerStop (h : Inv s b) : ∃ b', Inv (KTimer.zImplKTimerStop s k) b' := by
  obtain ⟨htick, hann, -, ht⟩ := h.tracks.aborted (.inl k)
  refine ⟨_, ht, fun k' => ?_, ?_, h.results⟩
  · by_cases hk : k' = k
    · subst hk
      have hnone : (KTimer.zImplKTimerStop s k').asked k' = none := update_self ..
      refine ⟨(h.timer k').status, ?_, ?_, ?_, ?_, ?_⟩ <;> rw [hnone] <;> nofun
    · refine (h.timer k').congr rfl rfl rfl (update_of_ne hk _ _) rfl ?_ ?_ ?_
      · intro time hin
        simpa [hk] using hin
      · exact fun hc => .inl ⟨hc, htick⟩
      · exact fun harmed => harmed.imp_right fun hin => mem_keys hin fun time hin => by simp [hin, hk]
  · intro hidle
    exact h.idle (hann.symm.trans hidle)

omit dO in
theorem Inv.zImplKTimerStatusGet (h : Inv s b) : Inv (KTimer.zImplKTimerStatusGet s k) b := by
  refine ⟨h.tracks, fun k' => ?_, h.idle, ?_⟩
  · obtain ⟨h₁, h₂, h₃, h₄, h₅, h₆⟩ := h.timer k'
    refine ⟨?_, h₂, h₃, h₄, h₅, h₆⟩
    by_cases hk : k' = k
    · simp [KTimer.zImplKTimerStatusGet, hk]
    · simpa [KTimer.zImplKTimerStatusGet, hk] using h₁
  · intro r hr
    rcases List.mem_cons.mp hr with rfl | hr
    · exact (h.timer k).status
    · exact h.results r hr

omit dK dO in
theorem TimerOk.next (h : TimerOk s b k) (hcall : s.calling = some k) (hp : s.asked k = some p) {F : Int}
    (hF : (s.expiries k ++ [s.queue.currTick]).head? = some F) :
    s.queue.currTick = F + (s.expiries k).length * p ∧
      ∀ (i : Nat) (x : Int), (s.expiries k ++ [s.queue.currTick])[i]? = some x → x = F + i * p := by
  have htick : s.queue.currTick = F + (s.expiries k).length * p := by
    cases hexp : s.expiries k with
    | nil =>
      rw [hexp] at hF
      simpa using Option.some.inj hF
    | cons F' xs =>
      rw [hexp] at hF
      have hold := h.calling p hp F (by rw [hexp]; exact hF) hcall
      rwa [hexp] at hold
  refine ⟨htick, fun i x hx => ?_⟩
  rcases Nat.lt_or_ge i (s.expiries k).length with hi | hi
  · rw [List.getElem?_append_left hi] at hx
    refine h.spaced p hp F ?_ i x hx
    cases hexp : s.expiries k with
    | nil => rw [hexp] at hi; cases hi
    | cons F' xs => rw [hexp] at hF; exact hF
  · rw [List.getElem?_append_right hi] at hx
    have hzero : i - (s.expiries k).length = 0 := by
      by_contra hne
      rw [List.getElem?_eq_none (by simp; omega)] at hx
      cases hx
    rw [hzero] at hx
    have hi : i = (s.expiries k).length := by omega
    rw [← Option.some.inj hx, htick, hi]

theorem Inv.zTimerExpirationHandler (h : Inv s b) {e e' : Nat} (hcall : s.calling = some k)
    (ho : Orderly s (.handler e e')) (hgo : KTimer.zTimerExpirationHandler s k e e' = .ok s') : ∃ b', Inv s' b' := by
  obtain ⟨hcount, hfits, hasked⟩ := ho k hcall
  obtain ⟨queue, hqueue, rfl⟩ := map_eq_ok hgo
  -- the timer is in the queue again if it asks for it, with nothing else changed
  have hadd : ∃ b', Tracks cfg queue b' ∧ queue.currTick = s.queue.currTick ∧
      queue.announcing = s.queue.announcing ∧ (∀ k' ≠ k, ∀ time, (.inl k', time) ∈ b' ↔ (.inl k', time) ∈ b) ∧
      (Periodic (s.period k) → next s k e ≠ cfg.ticksForever →
        ∀ time, (.inl k, time) ∈ b' ↔ time = expiry s.queue (next s k e) e') := by
    unfold readded at hqueue
    split at hqueue
    · rename_i hper
      have hticks : cfg.IsTicks (next s k e) := isTicks_toTicks _
      obtain ⟨htick, hann, hcases⟩ := h.tracks.added hticks (hfits hper) (orLinked_eq_ok hqueue)
      rcases hcases with ⟨hforever, rfl⟩ | ⟨hnot, ht⟩
      · exact ⟨b, h.tracks, rfl, rfl, fun _ _ _ => Iff.rfl, fun _ hne => absurd hforever hne⟩
      · refine ⟨_, ht, htick, hann, fun k' hk time => by simp [hk], fun _ _ time => ?_⟩
        have hout : (.inl k, time) ∉ b := fun hin => hnot (List.mem_map_of_mem hin)
        simp [hout]
    · rename_i hper
      cases hqueue
      exact ⟨b, h.tracks, rfl, rfl, fun _ _ _ => Iff.rfl, fun hp => absurd hp hper⟩
  obtain ⟨b', ht, htick, hann, hother, hself⟩ := hadd
  refine ⟨b', ht, fun k' => ?_, fun _ => rfl, h.results⟩
  by_cases hk : k' = k
  · subst hk
    have htimer := h.timer k'
    obtain ⟨q, hq, -⟩ := id h.tracks
    have hadded : ∀ p, s.asked k' = some p → 2 ≤ p ∧ ∀ time, (.inl k', time) ∈ b' ↔ time = s.queue.currTick + p := by
      intro p hp
      obtain ⟨htwo, rfl, hsum⟩ := hasked p hp
      obtain ⟨hper, hne, hexp⟩ := expiry_next htwo (htimer.period p hp).1 hq.tick_nonneg hsum e'
      exact ⟨htwo, fun time => (hself hper hne time).trans (by rw [hexp])⟩
    refine ⟨?_, htimer.period, ?_, ?_, nofun, ?_⟩
    · simp only [update_self]
      rw [htimer.status, Nat.mod_eq_of_lt hcount]
    · intro p hp F hF
      simp only [update_self] at hF ⊢
      exact (htimer.next hcall hp hF).2
    · intro p hp F hF time hin
      simp only [update_self] at hF ⊢
      rw [((hadded p hp).2 time).mp hin, (htimer.next hcall hp hF).1, List.length_append, List.length_singleton,
        Nat.cast_add, Nat.cast_one, add_one_mul, add_assoc]
    · intro p hp
      exact .inr (List.mem_map_of_mem (((hadded p hp).2 _).mpr rfl))
  · refine (h.timer k').congr (update_of_ne hk _ _) (update_of_ne hk _ _) rfl rfl
      (update_of_ne hk _ _) (fun time => (hother k' hk time).mp) nofun ?_
    rintro (hc | hin)
    · cases hcall.symm.trans hc
      exact absurd rfl hk
    · exact .inr (mem_keys hin fun time => (hother k' hk time).mpr)

/-! ## Runs -/

theorem Inv.step (h : Inv s b) {ev : Event K O} (ho : Orderly s ev) (hgo : KTimer.step s ev = .ok s') :
    ∃ b', Inv s' b' := by
  cases ev with
  | start k duration period e =>
    simp only [KTimer.step] at hgo
    split at hgo
    · rename_i hcan
      exact h.zImplKTimerStart hcan.1 ho hgo
    · cases hgo
  | stop k =>
    cases hgo
    exact h.zImplKTimerStop
  | statusGet k =>
    cases hgo
    exact ⟨b, h.zImplKTimerStatusGet⟩
  | add o ticks e =>
    simp only [KTimer.step] at hgo
    split at hgo
    · rename_i hcan
      obtain ⟨queue, hadd, rfl⟩ := map_eq_ok hgo
      obtain ⟨htick, hann, ⟨-, rfl⟩ | ⟨-, ht⟩⟩ := h.tracks.added hcan.1 ho (orLinked_eq_ok hadd)
      · exact ⟨b, h⟩
      · exact ⟨_, h.requeue ht htick hann fun k time => by simp⟩
    · cases hgo
  | abort o =>
    cases hgo
    obtain ⟨htick, hann, -, ht⟩ := h.tracks.aborted (.inr o)
    exact ⟨_, h.requeue ht htick hann fun k time => by simp⟩
  | announce ticks =>
    simp only [KTimer.step] at hgo
    split at hgo
    · rename_i hcall
      exact h.announced hcall (.inl ⟨ticks, rfl⟩) ho hgo
    · cases hgo
  | handler e e' =>
    simp only [KTimer.step] at hgo
    cases hcall : s.calling with
    | none =>
      rw [hcall] at hgo
      cases hgo
    | some k =>
      simp only [hcall] at hgo
      split at hgo
      · exact h.zTimerExpirationHandler hcall ho hgo
      · cases hgo
  | returned =>
    simp only [KTimer.step] at hgo
    split at hgo
    · rename_i hcall
      exact h.announced hcall (.inr rfl) trivial hgo
    · cases hgo

omit dK dO in
theorem initial_inv (dticks : K ⊕ O → Int) (period : K → Int) : Inv (initial dticks period) [] where
  tracks := Timeout.initial_tracks dticks
  timer _ := ⟨rfl, nofun, nofun, nofun, nofun, nofun⟩
  idle _ := rfl
  results _ hr := by cases hr

/-- Whatever is announced, and whichever other timeouts there are, the expiries of a timer are whole periods apart and
none is missed, and its status counts them, as long as its handler reads no elapsed ticks. -/
theorem timers_sound (dticks : K ⊕ O → Int) (period : K → Int) {evs : List (Event K O)} {s : State K O}
    (ho : Along step Orderly (initial dticks period) evs) (hrun : run step (initial dticks period) evs = .ok s) :
    Sound s := by
  have hinv : ∃ b, Inv s b := @run_inv _ _ _ step Orderly (fun s => ∃ b, Inv s b) _ _ _
    (fun _ _ _ h ho hs => h.elim fun _ h => h.step ho hs) ⟨[], initial_inv dticks period⟩ ho hrun
  exact hinv.elim fun _ h => h.sound

/-- The period is two ticks and the first announcement is late; another timeout is called in between. -/
def late : List (Event Unit Unit) :=
  [.start () 1 2 4, .add () 3 0, .announce 6, .returned, .handler 0 9, .returned, .announce 4, .handler 0 0,
    .statusGet (), .returned, .handler 0 0, .returned]

theorem timers_sound_late : ∃ s, run step (initial (fun _ => 0) fun _ => 0) late = .ok s ∧
    s.expiries () = [5, 7, 9] ∧ s.queue.currTick = 10 ∧ s.results = [(2, 2)] ∧ Sound s :=
  ⟨_, rfl, by decide, by decide, by decide, @timers_sound Unit Unit _ _ (fun _ => 0) (fun _ => 0) late _
    (by decide +kernel) rfl⟩

/-- A period of one tick becomes one of two ticks, and a tick that has elapsed when the handler reads the uptime is added
to the period. -/
theorem timers_drift :
    (∃ s, run step (initial (fun _ => 0) fun _ => 0 : State Unit Unit)
      [.start () 1 1 0, .announce 1, .handler 0 0, .returned, .announce 1] = .ok s ∧
      s.asked () = some 1 ∧ s.expiries () = [1] ∧ s.queue.currTick = 2 ∧ ¬ Sound s) ∧
    ∃ s, run step (initial (fun _ => 0) fun _ => 0 : State Unit Unit)
      [.start () 1 3 0, .announce 1, .handler 1 1, .returned, .announce 4, .handler 0 0] = .ok s ∧
      s.asked () = some 3 ∧ s.expiries () = [1, 5] ∧ ¬ Sound s := by
  refine ⟨⟨_, rfl, by decide, by decide, by decide, fun h => ?_⟩, _, rfl, by decide, by decide, fun h => ?_⟩
  · exact absurd (h.onTime (by decide) () 1 (by decide) 1 (by decide)) (by decide)
  · exact absurd (h.spaced () 3 (by decide) 1 (by decide) 1 5 (by decide)) (by decide)

end RtosKernel.Zephyr.KTimer
