import RtosKernel.Lib.Runs
import RtosKernel.RtThread.TimerRuns

/-! # The state a timer reports

`RT_TIMER_FLAG_ACTIVATED` is written by a start, a stop and a check. It says whether the timer is in its list as
long as no timeout function turns its own periodic timer into a one-shot one and leaves it running: the check
then takes the timer off its list but not the flag. -/
namespace RtosKernel.RtThread.Timer
open Lib.Word Lib.Ring RtThread.Def RtThread.Service Function

variable {Tid : Type} [dT : DecidableEq Tid] [fT : Fintype Tid]

/-- A timer is linked in the last row of its list. -/
def InRow (c : Board) (s : Timers Tid) (t : Tid) : Prop :=
  ∃ l : List Tid, IsRing s.links.next s.links.prev (.head (kindOf c (s.timer t)) c.bottom)
    (l.map (.row · c.bottom)) ∧ t ∈ l

/-- A timer that is activated is in its list, or its timeout function runs. -/
def Flagged (c : Board) (s : Timers Tid) (rows : Rows Tid) : Prop :=
  ∀ t, (s.timer t).activated → ∃ k, t ∈ rows (.row k c.bottom) ∨ t ∈ rows (.list k)

/-- When a timeout function returns with its timer still on the list of the check,
the timer is periodic if it is active. -/
def Keeps (s : Timers Tid) (op : Op Tid) : Prop :=
  ∀ k t, op = .resume k → s.phase k = .callback t → ¬ rtListIsempty s.links (.list k) →
    (s.timer t).activated → (s.timer t).periodic

variable {c : Board} {s s' : Timers Tid} {rows rows' : Rows Tid} {k : Kind} {t x : Tid} {op : Op Tid}

section
omit fT

theorem Flagged.erase (h : Flagged c s rows) (hinv : Inv c s rows) (ht : ¬ (s'.timer t).activated)
    (hother : ∀ x, x ≠ t → s'.timer x = s.timer x) : Flagged c s' fun i => (rows i).erase t := by
  intro x hx
  have hne : x ≠ t := fun e => ht (e ▸ hx)
  rw [hother x hne] at hx
  obtain ⟨k, hk⟩ := h x hx
  refine ⟨k, hk.imp (fun hm => ?_) fun hm => ?_⟩
  · exact (hinv.linked.nodup _).mem_erase_iff.mpr ⟨hne, hm⟩
  · exact (hinv.linked.nodup _).mem_erase_iff.mpr ⟨hne, hm⟩

theorem Starts.flagged {ls rs : Nat → List Tid} {lowest : Nat}
    (hs : Starts c s rows t s' rows' ls rs lowest) (h : Flagged c s rows) (hinv : Inv c s rows) :
    Flagged c s' rows' := by
  intro x hx
  by_cases hxt : x = t
  · exact ⟨kindOf c (s.timer t), .inl ((hs.mem_bottom hinv _ x).mpr (.inl ⟨hxt, rfl⟩))⟩
  · rw [hs.timer, update_of_ne hxt] at hx
    obtain ⟨k, hm | hm⟩ := h x hx
    · exact ⟨k, .inl ((hs.mem_bottom hinv k x).mpr (.inr ⟨hxt, hm⟩))⟩
    · refine ⟨k, .inr ?_⟩
      rw [hs.rows_eq]
      exact (hinv.linked.nodup (.list k)).mem_erase_iff.mpr ⟨hxt, hm⟩

/-- **Every move of a step that keeps the timers keeps the flags.** -/
theorem Move.flagged (hm : Move c op s rows s' rows') (h : Flagged c s rows) (hinv : Inv c s rows)
    (hop : Keeps s op) : Flagged c s' rows' := by
  cases hm with
  | @sets t r hr =>
    intro x hx
    rw [read_set RtTimer.activated (propext hr.activated)] at hx
    exact h x hx
  | @erased t _ hs =>
    refine h.erase hinv ?_ fun x hx => by rw [hs.timer, update_of_ne hx]
    rw [hs.timer, update_self]
    exact deactivate_activated
  | starts hs => exact hs.flagged h hinv
  | begins hp hn => exact h
  | ends hp hdue => exact h
  | resumes hp hl => exact h
  | @expires k t _ hnil hs =>
    intro x hx
    by_cases hxt : x = t
    · refine ⟨k, .inr ?_⟩
      rw [update_self, hxt]
      exact List.mem_singleton_self t
    · rw [hs.timer, update_of_ne hxt] at hx
      obtain ⟨k', hm⟩ := h x hx
      refine ⟨k', hm.imp (fun hm => ?_) fun hm => ?_⟩
      · exact (hinv.linked.nodup _).mem_erase_iff.mpr ⟨hxt, hm⟩
      · have hk : Ring.list k' ≠ .list k := fun e => by
          rw [e, hnil] at hm
          simp at hm
        rw [update_of_ne hk]
        exact (hinv.linked.nodup _).mem_erase_iff.mpr ⟨hxt, hm⟩
  | @leaves k t r hp hlist hlinked hr hlost =>
    refine h.erase hinv ?_ fun x hx => set_timer_of_ne (resumed c s k t) r hx
    rw [set_timer_self]
    intro ha
    obtain ⟨he, hact, hper⟩ := hlost ha
    have hempty : ¬ rtListIsempty s.links (headOf (Ring.list k)) := by
      rw [rtListIsempty_iff hinv.linked.holds, hlist]
      simp
    exact hper (hop k t he hp hempty hact)

end

theorem step_flagged (hinv : Inv c s rows) (h : Flagged c s rows) (hop : Keeps s op)
    (hs : step c s op = some s') : ∃ rows', Inv c s' rows' ∧ Flagged c s' rows' := by
  by_cases hclock : ∃ n, op = .clock n
  · obtain ⟨n, rfl⟩ := hclock
    obtain rfl : { s with tick := n % 2 ^ 32 } = s' := Option.some.inj hs
    exact ⟨rows, hinv.keep (hinv.linked.keep rfl (fun _ => rfl) hinv.linked.onList) rfl (fun _ => rfl)
      fun _ ha => ha, h⟩
  · have hno : ∀ n, op ≠ .clock n := by simpa using hclock
    rcases step_moves hinv hs hno with ⟨rows', hm⟩ | ⟨s1, rows1, t, rows', ls, rs, lowest, hm, hst⟩
    · exact ⟨rows', hm.inv hinv, hm.flagged h hinv hop⟩
    · have hinv1 := hm.inv hinv
      exact ⟨rows', hst.inv hinv1, hst.flagged (hm.flagged h hinv hop) hinv1⟩

theorem Runs.flagged {s0 : Timers Tid} {rows0 : Rows Tid} (hinv : Inv c s0 rows0)
    (h : Flagged c s0 rows0) (hr : Runs c Keeps s0 s) : ∃ rows, Inv c s rows ∧ Flagged c s rows := by
  induction hr with
  | init => exact ⟨rows0, hinv, h⟩
  | step hr op hop hs ih =>
    obtain ⟨rows, hi, hf⟩ := ih
    exact step_flagged hi hf hop hs

omit dT fT in
theorem initial_flagged (c : Board) (tick randomNr : Nat) (time : Tid → Nat) (flag : Tid → BitVec 8) :
    Flagged c (initial tick randomNr time flag) fun _ => [] := fun t ht => by
  have hclear : ∀ f : BitVec 8, f &&& ~~~flagActivated &&& flagActivated = 0 := by decide +kernel
  exact absurd (hclear (flag t)) ht

omit dT fT in
theorem Linked.inRow_iff (h : Linked c s rows) (t : Tid) :
    InRow c s t ↔ t ∈ rows (.row (kindOf c (s.timer t)) c.bottom) := by
  have hring := h.ring (kindOf c (s.timer t)) c.bottom
  refine ⟨fun ⟨l, hl, ht⟩ => ?_, fun ht => ⟨_, hring, ht⟩⟩
  have he := hl.links.det hring.links (List.nodup_cons.mp hl.nodup).1 (List.nodup_cons.mp hring.nodup).1
  have hinj : Function.Injective (Node.row · c.bottom : Tid → Node Tid) := fun a b hab =>
    (Node.row.inj hab).1
  rw [← List.map_injective_iff.mpr hinj he]
  exact ht

/-- `RT_TIMER_CTRL_GET_STATE` stores whether the timer is linked. -/
def ReportsState (c : Board) (s : Timers Tid) (t : Tid) (arg : Nat) : Prop :=
  (InRow c s t → rtTimerControl s t .getState arg = some (s, flagActivated.toNat)) ∧
    (¬ InRow c s t → rtTimerControl s t .getState arg = some (s, 0))

/-- **The state of a timer.** If no timeout function leaves its timer active and one-shot on the list of the
check: outside of timeout functions the flag says which timers are linked, and `RT_TIMER_CTRL_GET_STATE` stores
the state of a timer just where that is what `timeout_tick` holds. -/
theorem timer_state_while_kept (c : Board) (tick randomNr : Nat) (time : Tid → Nat)
    (flag : Tid → BitVec 8) (hr : Runs c Keeps (initial tick randomNr time flag) s)
    (hout : ∀ k t, s.phase k ≠ .callback t) :
    (∀ t, (s.timer t).activated ↔ InRow c s t) ∧
    ∀ t arg, ReportsState c s t arg ↔
      (InRow c s t → (s.timer t).timeoutTick = flagActivated.toNat) ∧
        (¬ InRow c s t → (s.timer t).timeoutTick = 0) := by
  obtain ⟨rows, hinv, h⟩ := hr.flagged (initial_inv c tick randomNr time flag)
    (initial_flagged c tick randomNr time flag)
  refine ⟨fun t => ?_, fun t arg => ?_⟩
  · rw [hinv.linked.inRow_iff]
    refine ⟨fun ha => ?_, fun ht => hinv.active _ t ht⟩
    obtain ⟨k, hm | hm⟩ := h t ha
    · rw [hinv.linked.kind k c.bottom t hm]
      exact hm
    · rw [hinv.linked.list_nil (hout k)] at hm
      simp at hm
  · simp [ReportsState, rtTimerControl, getRemainTime]

/-- A timer of 10 ticks, before and after its start. -/
theorem timer_state_while_kept_one : ∃ s : Timers (Fin 1),
    Runs ⟨1, 0, false, by decide⟩ Keeps (initial 0 0 (fun _ => 10) fun _ => 0) s ∧
      ((s.timer 0).activated ↔ InRow ⟨1, 0, false, by decide⟩ s 0) ∧ (s.timer 0).activated := by
  set c : Board := ⟨1, 0, false, by decide⟩
  set s0 : Timers (Fin 1) := initial 0 0 (fun _ => 10) fun _ => 0
  set s1 := (step c s0 (.start 0)).get (by decide +kernel)
  have hr : Runs c Keeps s0 s1 := .step .init (.start 0) (by simp [Keeps]) (Option.some_get _).symm
  have hidle (k : Kind) : s1.phase k = .idle := by cases k <;> decide +kernel
  have hout (k : Kind) (t : Fin 1) : s1.phase k ≠ .callback t := by simp [hidle]
  exact ⟨s1, hr, (timer_state_while_kept c 0 0 (fun _ => 10) (fun _ => 0) hr hout).1 0, by decide +kernel⟩

/-- A timer of 10 ticks that was just started is linked, and its state reads 10. -/
theorem timer_get_state_stores_timeout : ∃ s : Timers (Fin 1),
    Runs ⟨1, 0, false, by decide⟩ (fun _ _ => True) (initial 0 0 (fun _ => 10) fun _ => 0) s ∧
      (∀ k t, s.phase k ≠ .callback t) ∧ InRow ⟨1, 0, false, by decide⟩ s 0 ∧
      rtTimerControl s 0 .getState 0 = some (s, 10) ∧ ¬ ReportsState ⟨1, 0, false, by decide⟩ s 0 0 := by
  set c : Board := ⟨1, 0, false, by decide⟩
  set s0 : Timers (Fin 1) := initial 0 0 (fun _ => 10) fun _ => 0
  have hinv0 : Inv c s0 fun _ => [] := initial_inv c 0 0 (fun _ => 10) fun _ => 0
  obtain ⟨s1, rows, ls, rs, lowest, hgo, hs⟩ := rtTimerStart_spec hinv0.linked 0
  have hinv := hs.inv hinv0
  have hrow : InRow c s1 0 := by
    rw [hinv.linked.inRow_iff, hinv.started, hs.started]
    simp
  have hget : rtTimerControl s1 0 .getState 0 = some (s1, 10) := by
    simp only [rtTimerControl, getRemainTime, hs.timer, update_self]
    rfl
  refine ⟨s1, .step .init (.start 0) trivial hgo, fun k t => ?_, hrow, hget, fun h => ?_⟩
  · have hidle : s0.phase k = .idle := rfl
    rw [hs.phase, hidle]
    simp
  · have hone := (h.1 hrow).symm.trans hget
    simp [flagActivated] at hone

end RtosKernel.RtThread.Timer
