import RtosKernel.Ucos.TickExact

/-! # Periodic delays

A periodic delay is to end a whole number of periods behind the tick at which the last one
ended. Where that tick is a period or more ago the code moves it on to the present one, or
past it, and then adds one more period. -/

namespace RtosKernel.Ucos.Tick
open Lib.Word Lib.DeltaList
open Function (update update_self)

variable {T : Type} [DecidableEq T] {dyn : Bool} {k : Kernel T} {p : T} {B time now prev : Nat} {L : List (T × Nat)}

inductive Opt where
  | dly
  | timeout
  | timeMatch
  | periodic
  deriving DecidableEq

inductive Err where
  | errNone
  | errTimeZeroDly
  deriving DecidableEq

/-- The tick list, and the other fields of the tasks that a delay writes. -/
structure Tasks (T : Type) extends Kernel T where
  tickCtrPrev : T → Nat
  /-- `TaskState` is `OS_TASK_STATE_DLY`. -/
  delayed : T → Bool

/-- The tick base of a periodic delay. -/
def periodicBase (now tickCtrPrev time : Nat) : Nat :=
  let baseOffset := sub32 now tickCtrPrev
  if time ≤ baseOffset then
    let tickBase := add32 tickCtrPrev (time * (baseOffset / time))
    if baseOffset % time ≠ 0 then add32 tickBase time else tickBase
  else tickCtrPrev

def os_TickListInsertDly (dyn : Bool) (s : Tasks T) (p : T) (time : Nat) (opt : Opt) : Except Stop (Tasks T × Err) :=
  let elapsed := os_DynTickGet dyn s.toKernel
  if opt = .periodic ∧ time = 0 then .ok (s, .errTimeZeroDly)
  else
    let tickBase := match opt with
      | .timeMatch => 0
      | .periodic => periodicBase (add32 s.tickCtr elapsed) (s.tickCtrPrev p) time
      | .dly | .timeout => add32 s.tickCtr elapsed
    let s := if opt = .periodic then { s with tickCtrPrev := update s.tickCtrPrev p (add32 tickBase time) } else s
    (os_TickListInsert dyn s.toKernel p elapsed tickBase time).map fun (k, valid) =>
      if valid then ({ s with toKernel := k, delayed := update s.delayed p true }, .errNone)
      else ({ s with toKernel := k }, .errTimeZeroDly)

/-- The periods by which the code moves the last tick on. -/
def periodsMissed (baseOffset time : Nat) : Nat :=
  if time ≤ baseOffset ∧ ¬time ∣ baseOffset then baseOffset / time + 1 else baseOffset / time

theorem periodicBase_add : add32 (periodicBase now prev time) time =
    (prev + (periodsMissed (sub32 now prev) time + 1) * time) % 2 ^ 32 := by
  unfold periodicBase periodsMissed add32
  generalize sub32 now prev = offset
  have hsucc : ∀ n, (n + 1) * time = time * n + time := fun n => by ring
  by_cases hle : time ≤ offset
  · by_cases hdvd : time ∣ offset
    · have hmod : offset % time = 0 := Nat.mod_eq_zero_of_dvd hdvd
      simp only [hle, hdvd, hmod, if_true, ne_eq, not_true_eq_false, and_false, if_false, hsucc]
      omega
    · have hmod : offset % time ≠ 0 := fun h => hdvd (Nat.dvd_of_mod_eq_zero h)
      simp only [hle, hdvd, hmod, if_true, ne_eq, not_false_eq_true, and_self, hsucc, Nat.mul_add, Nat.mul_one]
      omega
  · simp only [hle, if_false, false_and, Nat.div_eq_of_lt (Nat.lt_of_not_le hle), Nat.zero_add, Nat.one_mul]

theorem sub32_periodic {n : Nat} (hlo : sub32 now prev < n * time) (hhi : n * time ≤ sub32 now prev + time)
    (htime : time < 2 ^ 32) : sub32 ((prev + n * time) % 2 ^ 32) now = n * time - sub32 now prev := by
  generalize n * time = ahead at hlo hhi ⊢
  unfold sub32 at hlo hhi ⊢
  omega

theorem isLeast_period (h0 : 0 < time) (offset : Nat) : IsLeast {n | offset < n * time} (offset / time + 1) :=
  ⟨(Nat.div_lt_iff_lt_mul h0).mp (Nat.lt_succ_self _), fun _ hn => (Nat.div_lt_iff_lt_mul h0).mpr hn⟩

/-! ## The insertion -/

theorem os_TickListInsert_delta {e base delta : Nat} (hdelta : sub32 (add32 time base) (add32 k.tickCtr e) = delta) :
    os_TickListInsert dyn k p e base time = os_TickListInsert dyn k p e (add32 k.tickCtr e) delta := by
  have hsame : sub32 (add32 delta (add32 k.tickCtr e)) (add32 k.tickCtr e) = delta := by
    rw [← hdelta, add32, sub32, sub32]
    omega
  unfold os_TickListInsert
  rw [hdelta, hsame]

variable {s : Tasks T}

/-- How far the time is from the end of the last period. -/
def baseOffset (s : Tasks T) (p : T) : Nat := sub32 (s.now % 2 ^ 32) (s.tickCtrPrev p)

/-- The task is to wait for the first tick behind the present one that is a whole number of periods behind the
last, no more than a period away. -/
def KeepsPhase (dyn : Bool) (s : Tasks T) (L : List (T × Nat)) (p : T) (time : Nat) (s' : Tasks T) : Prop :=
  ∃ n, IsLeast {n | baseOffset s p < n * time} n ∧ n * time - baseOffset s p ≤ time ∧
    Inserts dyn s.toKernel L p (n * time - baseOffset s p) s'.toKernel ∧
    s'.tickCtrPrev p = (s.tickCtrPrev p + n * time) % 2 ^ 32

theorem os_TickListInsertDly_periodic (h0 : 0 < time) : os_TickListInsertDly dyn s p time .periodic =
    (os_TickListInsert dyn s.toKernel p (os_DynTickGet dyn s.toKernel)
      (periodicBase (add32 s.tickCtr (os_DynTickGet dyn s.toKernel)) (s.tickCtrPrev p) time) time).map fun (k, valid) =>
        let s := { s with
          tickCtrPrev := update s.tickCtrPrev p
            (add32 (periodicBase (add32 s.tickCtr (os_DynTickGet dyn s.toKernel)) (s.tickCtrPrev p) time) time) }
        if valid then ({ s with toKernel := k, delayed := update s.delayed p true }, .errNone)
        else ({ s with toKernel := k }, .errTimeZeroDly) := by
  unfold os_TickListInsertDly
  rw [if_neg fun h => h0.ne' h.2]
  rfl

/-- **When a periodic delay keeps its phase.** The last period is not over, or it ended a whole number of periods ago;
otherwise a tick is left out. -/
theorem keeps_phase_iff (h : Holds dyn s.toKernel L B) (hp : p ∉ L.map Prod.fst) (h0 : 0 < time) (hlt : time < 2 ^ 32) :
    (∃ s', os_TickListInsertDly dyn s p time .periodic = .ok (s', .errNone) ∧ KeepsPhase dyn s L p time s') ↔
      baseOffset s p < time ∨ time ∣ baseOffset s p := by
  have hnow : s.now % 2 ^ 32 < 2 ^ 32 := Nat.mod_lt _ (by decide)
  have hadd : add32 (periodicBase (s.now % 2 ^ 32) (s.tickCtrPrev p) time) time =
    (s.tickCtrPrev p + (periodsMissed (baseOffset s p) time + 1) * time) % 2 ^ 32 := periodicBase_add
  have hleast := isLeast_period h0 (baseOffset s p)
  rw [os_TickListInsertDly_periodic h0, h.clock.systemTime, hadd]
  constructor
  · rintro ⟨s', hs', n, hn, _, _, hprev⟩
    rw [hn.unique hleast] at hprev
    obtain ⟨⟨k', valid⟩, _, hs'⟩ := Lib.Runs.map_eq_ok hs'
    have hctr : s'.tickCtrPrev p = (s.tickCtrPrev p + (periodsMissed (baseOffset s p) time + 1) * time) % 2 ^ 32 := by
      cases valid with
      | false => cases hs'
      | true =>
        cases hs'
        exact update_self ..
    rw [hprev, periodsMissed] at hctr
    by_contra hno
    rw [not_or, Nat.not_lt] at hno
    rw [if_pos hno, Nat.add_mul (_ + 1), Nat.one_mul] at hctr
    generalize (_ + 1) * time = ahead at hctr
    omega
  · intro hok
    have hmissed : periodsMissed (baseOffset s p) time = baseOffset s p / time := by
      refine if_neg fun hno => ?_
      rcases hok with hfirst | hdvd
      · exact absurd hno.1 (Nat.not_le.mpr hfirst)
      · exact hno.2 hdvd
    rw [hmissed]
    have hhi : (baseOffset s p / time + 1) * time ≤ baseOffset s p + time := by
      rw [Nat.add_mul, Nat.one_mul]
      exact Nat.add_le_add_right (Nat.div_mul_le_self ..) _
    have hdelta : sub32 (add32 time (periodicBase (s.now % 2 ^ 32) (s.tickCtrPrev p) time))
        (add32 s.tickCtr (os_DynTickGet dyn s.toKernel)) =
          (baseOffset s p / time + 1) * time - baseOffset s p := by
      rw [add32, Nat.add_comm time, ← add32, hadd, hmissed, h.clock.systemTime]
      exact sub32_periodic hleast.1 hhi hlt
    have hless : baseOffset s p < (baseOffset s p / time + 1) * time := hleast.1
    obtain ⟨k', hk', hins⟩ := os_TickListInsert_spec h hp (Nat.sub_pos_of_lt hless) (by omega)
    rw [os_TickListInsert_delta hdelta, hk']
    exact ⟨_, rfl, _, hleast, Nat.sub_le_iff_le_add'.mpr hhi, hins, update_self ..⟩

/-- The last periods have ended at tick 0, and it is later. -/
def atTick (now : Nat) : Tasks T := { start T now with tickCtrPrev := fun _ => 0, delayed := fun _ => false }

omit [DecidableEq T] in
theorem atTick_holds (now : Nat) : Holds dyn (atTick now : Tasks T).toKernel [] now :=
  ⟨.nil, rfl, rfl, fun _ _ => rfl, trivial, ⟨rfl, fun _ => rfl, fun _ => rfl⟩, fun _ => rfl, nofun, nofun, nofun⟩

/-- While two other tasks are delayed, the delay of a task ends in 10 ticks, two periods of 10 ticks later. -/
theorem keeps_phase_iff_twenty : ∃ s s' : Tasks (Fin 3), s.tcbPtr = some 1 ∧
    os_TickListInsertDly false s 0 10 .periodic = .ok (s', .errNone) ∧ KeepsPhase false s [(1, 24), (2, 35)] 0 10 s' := by
  obtain ⟨k₁, _, ⟨B₁, h₁⟩, hnow₁, _⟩ := os_TickListInsert_spec (atTick_holds 20 : Holds false _ [] 20)
    (show (1 : Fin 3) ∉ [] by decide) (show 0 < 4 by decide) (by decide)
  obtain ⟨k₂, _, ⟨B₂, h₂⟩, hnow₂, _⟩ := os_TickListInsert_spec h₁
    (show (2 : Fin 3) ∉ _ by decide) (show 0 < 15 by decide) (by decide)
  have hnow : k₂.now = 20 := hnow₂.trans hnow₁
  rw [hnow₁] at h₂
  set s : Tasks (Fin 3) := { (atTick 20 : Tasks (Fin 3)) with toKernel := k₂ }
  have hoffset : baseOffset s 0 = 20 := by
    show sub32 (k₂.now % 2 ^ 32) 0 = 20
    rw [hnow]
    rfl
  have hL : Holds false s.toKernel [(1, 24), (2, 35)] B₂ := h₂
  obtain ⟨s', hs', hkeeps⟩ :=
    (keeps_phase_iff hL (show 0 ∉ _ by decide) (show 0 < 10 by decide) (by decide)).mpr (.inr (by rw [hoffset]; decide))
  exact ⟨s, s', hL.head, hs', hkeeps⟩

/-- After 25 ticks the delay ends in 15 ticks, and not in 5. -/
theorem periodic_leaves_out : ∃ s', os_TickListInsertDly false (atTick 25 : Tasks (Fin 1)) 0 10 .periodic = .ok (s', .errNone) ∧
    s'.tickRemain 0 = 15 ∧ s'.tickCtrPrev 0 = 40 ∧ ¬KeepsPhase false (atTick 25) [] 0 10 s' := by
  refine ⟨_, rfl, rfl, rfl, fun ⟨n, hn, _, _, hprev⟩ => ?_⟩
  rw [hn.unique (isLeast_period (by decide) _)] at hprev
  exact absurd hprev (by decide)

end RtosKernel.Ucos.Tick
