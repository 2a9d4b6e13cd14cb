import RtosKernel.RtThread.TimerInvariant

/-! # Whole runs of the timers

Any thread and any timeout function may start, stop and control timers. A check
of a list goes on in rounds, each of which ends the check or calls a timeout
function. -/
namespace RtosKernel.RtThread.Timer
open Lib.Word Lib.Ring Lib.RingFamily RtThread.Def RtThread.Service List Function Option

variable {Tid : Type} [dT : DecidableEq Tid] [fT : Fintype Tid]

inductive Op (Tid : Type)
  | start (t : Tid)
  | stop (t : Tid)
  | control (t : Tid) (cmd : Cmd) (arg : Nat)
  /-- `rt_tick_increase`: the next tick, and a check of the hard timers -/
  | tick
  | clock (n : Nat)
  | check (k : Kind)
  /-- the check of a list goes through its loop up to the next timeout function -/
  | round (k : Kind)
  | resume (k : Kind)

/-- One step, `none` where it cannot be taken. -/
def step (c : Board) (s : Timers Tid) : Op Tid → Option (Timers Tid)
  | .start t => rtTimerStart c s t
  | .stop t => some (rtTimerStop c s t).1
  | .control t cmd arg => (rtTimerControl s t cmd arg).map Prod.fst
  | .tick =>
    if s.phase .hard = .idle then some (beginCheck { s with tick := add32 s.tick 1 } .hard) else none
  | .clock n => some { s with tick := n % 2 ^ 32 }
  | .check k => if s.phase k = .idle then some (beginCheck s k) else none
  | .round k =>
    match s.phase k with
    | .checking currentTick => checkRound c s k currentTick
    | _ => none
  | .resume k =>
    match s.phase k with
    | .callback t => checkResume c s k t
    | _ => none

/-- `rt_system_timer_init` and `rt_timer_init` of every timer. -/
def initial (tick randomNr : Nat) (time : Tid → Nat) (flag : Tid → BitVec 8) : Timers Tid where
  tick := tick
  randomNr := randomNr
  timer t := timerInit (time t) (flag t)
  links := ⟨fun x => x, fun x => x⟩
  phase _ := .idle
  started := []

/-- The states reached by steps that all meet `P` in the state before them. -/
inductive Runs (c : Board) (P : Timers Tid → Op Tid → Prop) (s0 : Timers Tid) : Timers Tid → Prop
  | init : Runs c P s0 s0
  | step {s s' : Timers Tid} (h : Runs c P s0 s) (op : Op Tid) (hp : P s op)
      (hs : step c s op = some s') : Runs c P s0 s'

variable {c : Board} {s s' : Timers Tid} {rows rows' : Rows Tid} {k : Kind} {t x : Tid}

/-! ## The invariant of every run -/

/-- The last rows hold the timers that were started, all of which are activated. -/
structure Inv (c : Board) (s : Timers Tid) (rows : Rows Tid) : Prop where
  linked : Linked c s rows
  nodup : s.started.Nodup
  started : ∀ k t, t ∈ rows (.row k c.bottom) ↔ t ∈ s.started ∧ kindOf c (s.timer t) = k
  active : ∀ k t, t ∈ rows (.row k c.bottom) → (s.timer t).activated

section
omit dT fT

theorem initial_inv (c : Board) (tick randomNr : Nat) (time : Tid → Nat) (flag : Tid → BitVec 8) :
    Inv c (initial tick randomNr time flag) fun _ => [] where
  linked :=
    { holds := IsFamily.empty headOf_injective
      high := fun _ _ _ => rfl
      below := fun _ _ _ _ ht => by simp at ht
      kind := fun _ _ _ ht => by simp at ht
      onList := fun _ _ ht => by simp at ht }
  nodup := nodup_nil
  started k t := by simp [initial]
  active k t ht := by simp at ht

theorem Linked.list_nil (h : Linked c s rows) (hp : ∀ t, s.phase k ≠ .callback t) : rows (.list k) = [] :=
  eq_nil_iff_forall_not_mem.mpr fun t ht => hp t (h.onList k t ht)

theorem Linked.list_callback (h : Linked c s rows) (hp : s.phase k = .callback t) :
    rows (.list k) = [] ∨ rows (.list k) = [t] := by
  have hall : ∀ x ∈ rows (.list k), x = t := fun x hx => by
    have := h.onList k x hx
    rw [hp] at this
    exact (Phase.callback.inj this).symm
  have hnd := h.nodup (.list k)
  rcases hrow : rows (.list k) with _ | ⟨a, _ | ⟨b, l⟩⟩
  · exact .inl rfl
  · rw [hrow] at hall
    rw [hall a (by simp)]
    exact .inr rfl
  · rw [hrow] at hall hnd
    have hab : a = b := (hall a (by simp)).trans (hall b (by simp)).symm
    simp [hab] at hnd

theorem Linked.keep (h : Linked c s rows) (hlinks : s'.links = s.links)
    (hkind : ∀ t, kindOf c (s'.timer t) = kindOf c (s.timer t))
    (hphase : ∀ k t, t ∈ rows (.list k) → s'.phase k = .callback t) : Linked c s' rows where
  holds := by rw [hlinks]; exact h.holds
  high := h.high
  below := h.below
  kind k lvl t ht := by rw [hkind]; exact h.kind k lvl t ht
  onList := hphase

end

section
omit fT

@[simp] theorem set_timer_self (s : Timers Tid) (t : Tid) (r : RtTimer) : (s.set t r).timer t = r :=
  update_self ..

theorem set_timer_of_ne (s : Timers Tid) (r : RtTimer) (hx : x ≠ t) : (s.set t r).timer x = s.timer x :=
  update_of_ne hx ..

theorem read_set {β : Type} (f : RtTimer → β) {r : RtTimer} (hr : f r = f (s.timer t)) (x : Tid) :
    f ((s.set t r).timer x) = f (s.timer x) := by
  by_cases hx : x = t
  · subst hx
    rw [set_timer_self, hr]
  · rw [set_timer_of_ne s r hx]

theorem Inv.erase (h : Inv c s rows) (t : Tid) (hl : Linked c s' fun i => (rows i).erase t)
    (hstarted : s'.started = s.started.erase t) (hother : ∀ x, x ≠ t → s'.timer x = s.timer x) :
    Inv c s' fun i => (rows i).erase t := by
  refine ⟨hl, ?_, fun k x => ?_, fun k x hx => ?_⟩
  · rw [hstarted]
    exact h.nodup.erase t
  · rw [(h.linked.nodup _).mem_erase_iff, hstarted, h.nodup.mem_erase_iff, h.started k x]
    by_cases hx : x = t
    · simp [hx]
    · rw [hother x hx]
      tauto
  · obtain ⟨hne, hx⟩ := (h.linked.nodup _).mem_erase_iff.mp hx
    rw [hother x hne]
    exact h.active k x hx

end

/-! ## What each step does -/

section
omit dT fT

theorem Linked.bottom_mem (h : Linked c s rows) : ∀ {n lvl : Nat}, lvl + n = c.bottom →
    t ∈ rows (.row k lvl) → t ∈ rows (.row k c.bottom)
  | 0, lvl, hn, ht => by
    obtain rfl : lvl = c.bottom := by omega
    exact ht
  | n + 1, lvl, hn, ht =>
    Linked.bottom_mem h (show lvl + 1 + n = c.bottom by omega) (h.below k lvl t (by omega) ht)

theorem Linked.mem_bottom {lvl : Nat} (h : Linked c s rows) (ht : t ∈ rows (.row k lvl)) :
    t ∈ rows (.row k c.bottom) := by
  by_cases hlvl : lvl ≤ c.bottom
  · exact h.bottom_mem (show lvl + (c.bottom - lvl) = c.bottom by omega) ht
  · rw [h.high k lvl (by omega)] at ht
    simp at ht

theorem Linked.not_row {k' : Kind} {lvl : Nat} (h : Linked c s rows) (ht : t ∈ rows (.list k)) :
    t ∉ rows (.row k' lvl) := by
  intro hrow
  have hb := h.mem_bottom hrow
  have hlist : (Node.row t c.bottom : Node Tid) ∈ headOf (.list k) :: nodes (nodeOf c) rows (.list k) :=
    mem_cons_of_mem _ (List.mem_map_of_mem (f := nodeOf c (.list k)) ht)
  have hnode : (Node.row t c.bottom : Node Tid) ∈
      headOf (.row k' c.bottom) :: nodes (nodeOf c) rows (.row k' c.bottom) :=
    mem_cons_of_mem _ (List.mem_map_of_mem (f := nodeOf c (.row k' c.bottom)) hb)
  have := h.holds.apart _ _ _ hlist hnode
  cases this

end

/-- A timer left every ring; of its record only the flags may have changed. -/
structure Erased (c : Board) (s : Timers Tid) (rows : Rows Tid) (t : Tid) (r : RtTimer)
    (s' : Timers Tid) : Prop where
  linked : Linked c s' fun i => (rows i).erase t
  tick : s'.tick = s.tick
  timer : s'.timer = update s.timer t r
  phase : s'.phase = s.phase
  started : s'.started = s.started.erase t

omit fT in
/-- **`rt_timer_stop`** of an active timer takes it out of its list, of any other it
does nothing. -/
theorem rtTimerStop_spec (h : Inv c s rows) (t : Tid) :
    (¬ (s.timer t).activated ∧ (rtTimerStop c s t).1 = s) ∨
      ((s.timer t).activated ∧ Erased c s rows t (s.timer t).deactivate (rtTimerStop c s t).1) := by
  by_cases ha : (s.timer t).activated
  · refine .inr ⟨ha, ?_⟩
    have hl := timerRemove_linked h.linked t
    have he : rtTimerStop c s t = ({ (timerRemove c s t).set t (s.timer t).deactivate with
        started := s.started.erase t }, true) := if_neg (not_not.mpr ha)
    rw [he]
    exact ⟨hl.keep rfl (read_set (s := timerRemove c s t) (kindOf c) (kindOf_deactivate c)) hl.onList,
      rfl, rfl, rfl, rfl⟩
  · refine .inl ⟨ha, ?_⟩
    have hnot : t ∉ s.started := fun ht => ha (h.active _ t ((h.started _ t).mpr ⟨ht, rfl⟩))
    have he : rtTimerStop c s t = ({ s with started := s.started.erase t }, false) := if_pos ha
    rw [he, erase_of_not_mem hnot]

/-- Whether the check finds a timer due. -/
def expired (currentTick : Nat) (r : RtTimer) : Prop := sub32 currentTick r.timeoutTick < halfTickMax

/-- The timer goes on the list of the check, and its timeout function is called. -/
structure Expires (c : Board) (s : Timers Tid) (rows : Rows Tid) (k : Kind) (t : Tid)
    (s' : Timers Tid) : Prop where
  linked : Linked c s' (update (fun i => (rows i).erase t) (.list k) [t])
  tick : s'.tick = s.tick
  timer : s'.timer = update s.timer t
    (if ¬ (s.timer t).periodic then (s.timer t).deactivate else s.timer t)
  phase : s'.phase = update s.phase k (.callback t)
  started : s'.started = s.started.erase t

/-- The tick a round of a check compares with. -/
def roundTick (s : Timers Tid) (k : Kind) (currentTick : Nat) : Nat :=
  match k with
  | .hard => currentTick
  | .soft => s.tick

section
omit fT

theorem link_list (h : Linked c s rows) (hfresh : ∀ i, t ∉ rows i) (hempty : rows (.list k) = []) :
    Holds (rtListInsertAfter s.links (.list k) (.row t c.bottom)) headOf (nodeOf c)
      (update rows (.list k) [t]) := by
  have hnew : ∀ j, nodeOf c (.list k) t ∉ headOf j :: nodes (nodeOf c) rows j := by
    intro j hm
    rcases mem_cons.mp hm with he | hm
    · cases j <;> simp [nodeOf, headOf] at he
    · obtain ⟨y, hy, he⟩ := List.mem_map.mp hm
      obtain ⟨rfl, _⟩ := Node.row.inj he
      exact hfresh j hy
  have hsplit : rows (.list k) = [] ++ [] := hempty
  exact rtListInsertAfter_holds h.holds hsplit hnew

/-- **A round of a check** ends it, or calls the timeout function of the first timer
of the list, which is due. -/
theorem checkRound_spec {currentTick : Nat} (h : Inv c s rows) (hp : s.phase k = .checking currentTick) :
    (checkRound c s k currentTick = some (s.setPhase k .idle) ∧
      ∀ t, (rows (.row k c.bottom)).head? = some t → ¬ expired (roundTick s k currentTick) (s.timer t)) ∨
    ∃ t s', (rows (.row k c.bottom)).head? = some t ∧
      expired (roundTick s k currentTick) (s.timer t) ∧ checkRound c s k currentTick = some s' ∧
      Expires c s rows k t s' := by
  have hempty : rtListIsempty s.links (headOf (Ring.row k c.bottom)) ↔ rows (.row k c.bottom) = [] :=
    rtListIsempty_iff h.linked.holds
  have hring := h.linked.ring k c.bottom
  rcases hrow : rows (.row k c.bottom) with _ | ⟨t, l⟩
  · refine .inl ⟨?_, by simp⟩
    exact if_pos (hempty.mpr hrow)
  have hne : ¬ rtListIsempty s.links (.head k c.bottom) := fun e => by
    have := hempty.mp e
    simp [hrow] at this
  have hnext : s.links.next (.head k c.bottom) = .row t c.bottom := by
    rw [hring.next_head, hrow]
    rfl
  simp only [checkRound, if_neg hne, hnext, entry, bind, bind_some, List.head?_cons, some.injEq]
  by_cases he : expired (roundTick s k currentTick) (s.timer t)
  · refine .inr ⟨t, _, rfl, he, if_pos he, ?_⟩
    have h1 := timerRemove_linked h.linked t
    have hfresh : ∀ i, t ∉ (rows i).erase t := fun i => by
      rw [(h.linked.nodup i).mem_erase_iff]
      simp
    have hlist : (rows (.list k)).erase t = [] := by
      rw [h.linked.list_nil fun x => by rw [hp]; simp]
      rfl
    have hh := link_list h1 hfresh hlist
    refine ⟨⟨hh, h1.high, h1.below, fun k' lvl x hx => ?_, fun k' x hx => ?_⟩, rfl, rfl, rfl, rfl⟩
    · have hk := h1.kind k' lvl x hx
      have hxt : x ≠ t := fun e => hfresh (.row k' lvl) (e ▸ hx)
      have hx' : (update s.timer t (if ¬ (s.timer t).periodic then (s.timer t).deactivate
          else s.timer t)) x = s.timer x := update_of_ne hxt _ _
      exact (congrArg (kindOf c) hx').trans hk
    · change update s.phase k (.callback t) k' = .callback x
      by_cases hk : k' = k
      · subst hk
        rw [update_self] at hx ⊢
        rw [mem_singleton.mp hx]
      · have hne : Ring.list k' ≠ .list k := fun e => hk (Ring.list.inj e)
        rw [update_of_ne hne] at hx
        rw [update_of_ne hk]
        exact h1.onList k' x hx
  · exact .inl ⟨if_neg he, fun x hx => hx ▸ he⟩

theorem unlink_list (h : Linked c s rows) (hlist : rows (.list k) = [t]) :
    Linked c { s with links := rtListRemove s.links (.row t c.bottom) } fun i => (rows i).erase t := by
  have herase := timerRemove_linked h t
  have hmem : t ∈ rows (.list k) := by simp [hlist]
  refine ⟨?_, herase.high, herase.below, herase.kind, herase.onList⟩
  refine rtListRemove_holds h.holds (fun i => by cases i <;> simp [headOf]) fun i => ?_
  by_cases hi : levelOf c i = c.bottom
  · have hnode : (Node.row t c.bottom : Node Tid) = nodeOf c i t := by rw [nodeOf, hi]
    rw [hnode]
    exact map_erase (nodeOf_injective c i) (rows i)
  · -- the timer is in none of the upper rows either
    have hnot : t ∉ rows i := by
      cases i with
      | row k' lvl => exact h.not_row hmem
      | list k' => exact absurd rfl hi
    have hnode : (Node.row t c.bottom : Node Tid) ∉ nodes (nodeOf c) rows i := by
      intro hm
      obtain ⟨y, _, hy⟩ := List.mem_map.mp hm
      exact hi (Node.row.inj hy).2
    rw [erase_of_not_mem hnode, nodes, erase_of_not_mem hnot, nodes]

end

/-- The state behind the call of a timeout function, with the timer off the list. -/
def resumed (c : Board) (s : Timers Tid) (k : Kind) (t : Tid) : Timers Tid :=
  { s.setPhase k (.checking s.tick) with links := rtListRemove s.links (.row t c.bottom) }

/-- **The rest of a round** does nothing if the timeout function stopped or started
the timer; otherwise it restarts the timer if that is still active and periodic. -/
theorem checkResume_spec (h : Inv c s rows) (hp : s.phase k = .callback t) :
    (rows (.list k) = [] ∧ checkResume c s k t = some (s.setPhase k (.checking s.tick)) ∧
      Linked c (s.setPhase k (.checking s.tick)) rows) ∨
    (rows (.list k) = [t] ∧ Linked c (resumed c s k t) (fun i => (rows i).erase t) ∧
      ((¬ ((s.timer t).periodic ∧ (s.timer t).activated) ∧
          checkResume c s k t = some (resumed c s k t)) ∨
        ((s.timer t).periodic ∧ (s.timer t).activated ∧
          checkResume c s k t = rtTimerStart c ((resumed c s k t).set t (s.timer t).deactivate) t))) := by
  have hempty : rtListIsempty s.links (headOf (Ring.list k)) ↔ rows (.list k) = [] :=
    rtListIsempty_iff h.linked.holds
  have hother : ∀ k' x, k' ≠ k → x ∈ rows (.list k') →
      update s.phase k (.checking s.tick) k' = .callback x := fun k' x hk hx => by
    rw [update_of_ne hk]
    exact h.linked.onList k' x hx
  rcases h.linked.list_callback hp with hrow | hrow
  · refine .inl ⟨hrow, if_pos (hempty.mpr hrow), ?_⟩
    refine h.linked.keep rfl (fun _ => rfl) fun k' x hx => ?_
    by_cases hk : k' = k
    · subst hk
      simp [hrow] at hx
    · exact hother k' x hk hx
  · have hne : ¬ rtListIsempty s.links (.list k) := fun e => by
      have := hempty.mp e
      simp [hrow] at this
    have hl := unlink_list h.linked hrow
    have hlinked : Linked c (resumed c s k t) fun i => (rows i).erase t := by
      refine hl.keep rfl (fun _ => rfl) fun k' x hx => ?_
      by_cases hk : k' = k
      · subst hk
        simp [hrow] at hx
      · exact hother k' x hk (mem_of_mem_erase hx)
    refine .inr ⟨hrow, hlinked, ?_⟩
    have hgo : checkResume c s k t = if (s.timer t).periodic ∧ (s.timer t).activated then
        rtTimerStart c ((resumed c s k t).set t (s.timer t).deactivate) t else some (resumed c s k t) :=
      if_neg hne
    rw [hgo]
    by_cases hr : (s.timer t).periodic ∧ (s.timer t).activated
    · exact .inr ⟨hr.1, hr.2, if_pos hr⟩
    · exact .inl ⟨hr, if_neg hr⟩

/-- What `rt_timer_control` writes: a timeout below `RT_TICK_MAX / 2`, or the periodic
flag. -/
structure Sets (r r' : RtTimer) : Prop where
  timeout : r'.timeoutTick = r.timeoutTick
  initTick : r'.initTick = r.initTick ∨ r'.initTick < halfTickMax
  activated : r'.activated ↔ r.activated
  kind : ∀ c, kindOf c r' = kindOf c r

theorem Sets.refl (r : RtTimer) : Sets r r := ⟨rfl, .inl rfl, Iff.rfl, fun _ => rfl⟩

omit fT in
/-- **`rt_timer_control`** changes the record of the timer at most. -/
theorem rtTimerControl_spec {cmd : Cmd} {arg arg' : Nat} (hc : rtTimerControl s t cmd arg = some (s', arg')) :
    ∃ r, s' = s.set t r ∧ Sets (s.timer t) r := by
  have hset : ∀ r : RtTimer, s = s.set t (s.timer t) := fun _ => by
    rw [Timers.set, update_eq_self]
  have hone : ∀ f : BitVec 8, f &&& ~~~flagPeriodic &&& flagActivated = f &&& flagActivated := by
    decide +kernel
  have hper : ∀ f : BitVec 8, (f ||| flagPeriodic) &&& flagActivated = f &&& flagActivated := by
    decide +kernel
  have hone' : ∀ f : BitVec 8, f &&& ~~~flagPeriodic &&& flagSoftTimer = f &&& flagSoftTimer := by
    decide +kernel
  have hper' : ∀ f : BitVec 8, (f ||| flagPeriodic) &&& flagSoftTimer = f &&& flagSoftTimer := by
    decide +kernel
  cases cmd with
  | setTime =>
    by_cases ha : arg < halfTickMax
    · simp only [rtTimerControl, rtAssert_of ha, bind, bind_some, pure, some.injEq, Prod.mk.injEq] at hc
      exact ⟨_, hc.1.symm, rfl, .inr ha, Iff.rfl, fun _ => rfl⟩
    · simp [rtTimerControl, rtAssert, ha] at hc
  | setOneshot =>
    simp only [rtTimerControl, some.injEq, Prod.mk.injEq] at hc
    refine ⟨_, hc.1.symm, rfl, .inl rfl, ?_, fun c => ?_⟩
    · simp only [RtTimer.activated, hone]
    · simp only [kindOf, hone']
  | setPeriodic =>
    simp only [rtTimerControl, some.injEq, Prod.mk.injEq] at hc
    refine ⟨_, hc.1.symm, rfl, .inl rfl, ?_, fun c => ?_⟩
    · simp only [RtTimer.activated, hper]
    · simp only [kindOf, hper']
  | getTime | getState | getRemainTime | other =>
    simp only [rtTimerControl, some.injEq, Prod.mk.injEq] at hc
    exact ⟨s.timer t, hc.1.symm.trans (hset (s.timer t)), Sets.refl _⟩

/-! ## Moves

Every step but that of the clock is one of these, or one and a start. -/

inductive Move (c : Board) (op : Op Tid) (s : Timers Tid) (rows : Rows Tid) :
    Timers Tid → Rows Tid → Prop
  | sets {t : Tid} {r : RtTimer} (hr : Sets (s.timer t) r) : Move c op s rows (s.set t r) rows
  | erased {t : Tid} {s' : Timers Tid} (hs : Erased c s rows t (s.timer t).deactivate s') :
      Move c op s rows s' fun i => (rows i).erase t
  | starts {t : Tid} {s' : Timers Tid} {rows' : Rows Tid} {ls rs : Nat → List Tid} {lowest : Nat}
      (hs : Starts c s rows t s' rows' ls rs lowest) : Move c op s rows s' rows'
  | begins {k : Kind} {n : Nat} (hp : s.phase k = .idle)
      (hn : n = s.tick ∨ k = .hard ∧ n = add32 s.tick 1) :
      Move c op s rows { s with tick := n, phase := update s.phase k (.checking n) } rows
  | ends {k : Kind} {currentTick : Nat} (hp : s.phase k = .checking currentTick)
      (hdue : ∀ t, (rows (.row k c.bottom)).head? = some t →
        ¬ expired (roundTick s k currentTick) (s.timer t)) :
      Move c op s rows (s.setPhase k .idle) rows
  | expires {k : Kind} {t : Tid} {s' : Timers Tid} (hnil : rows (.list k) = [])
      (hs : Expires c s rows k t s') :
      Move c op s rows s' (update (fun i => (rows i).erase t) (.list k) [t])
  | resumes {k : Kind} {t : Tid} (hp : s.phase k = .callback t) (hl : rows (.list k) = []) :
      Move c op s rows (s.setPhase k (.checking s.tick)) rows
  /-- the timer is lost if it stays active here -/
  | leaves {k : Kind} {t : Tid} {r : RtTimer} (hp : s.phase k = .callback t) (hl : rows (.list k) = [t])
      (hlinked : Linked c (resumed c s k t) fun i => (rows i).erase t)
      (hr : r = s.timer t ∨ r = (s.timer t).deactivate)
      (hlost : r.activated → op = .resume k ∧ (s.timer t).activated ∧ ¬ (s.timer t).periodic) :
      Move c op s rows ((resumed c s k t).set t r) fun i => (rows i).erase t

omit fT in
theorem set_self (s : Timers Tid) (t : Tid) : s.set t (s.timer t) = s := by
  rw [Timers.set, update_eq_self]

omit fT in
theorem beginCheck_eq (h : Linked c s rows) (hp : s.phase k = .idle) :
    beginCheck s k = s.setPhase k (.checking s.tick) := by
  have hnil : rows (.list k) = [] := h.list_nil fun t => by rw [hp]; simp
  have hinit : rtListInit s.links (headOf (Ring.list k)) = s.links := rtListInit_empty h.holds hnil
  change { s.setPhase k (.checking s.tick) with links := rtListInit s.links (.list k) } = _
  have hinit' : rtListInit s.links (.list k) = s.links := hinit
  rw [hinit']
  rfl

/-- **What a step does**: one move, and a start when a periodic timer goes on. -/
theorem step_moves {op : Op Tid} (h : Inv c s rows) (hs : step c s op = some s') (hop : ∀ n, op ≠ .clock n) :
    (∃ rows', Move c op s rows s' rows') ∨
      ∃ s1 rows1 t rows' ls rs lowest, Move c op s rows s1 rows1 ∧
        Starts c s1 rows1 t s' rows' ls rs lowest := by
  cases op with
  | start t =>
    obtain ⟨s1, rows', ls, rs, lowest, he, hst⟩ := rtTimerStart_spec h.linked t
    obtain rfl : s1 = s' := some.inj (he.symm.trans hs)
    exact .inl ⟨rows', .starts hst⟩
  | stop t =>
    obtain rfl : (rtTimerStop c s t).1 = s' := some.inj hs
    rcases rtTimerStop_spec h t with ⟨_, he⟩ | ⟨_, he⟩
    · refine .inl ⟨rows, ?_⟩
      have hm : Move c (.stop t) s rows (s.set t (s.timer t)) rows := .sets (Sets.refl _)
      rw [set_self] at hm
      rw [he]
      exact hm
    · exact .inl ⟨_, .erased he⟩
  | control t cmd arg =>
    obtain ⟨⟨s1, arg'⟩, hc, he⟩ := map_eq_some_iff.mp hs
    obtain ⟨r, hr, hsets⟩ := rtTimerControl_spec hc
    obtain rfl : s.set t r = s' := hr.symm.trans he
    exact .inl ⟨rows, .sets hsets⟩
  | tick =>
    simp only [step] at hs
    split at hs
    · rename_i hp
      have hl : Linked c { s with tick := add32 s.tick 1 } rows :=
        h.linked.keep rfl (fun _ => rfl) h.linked.onList
      rw [beginCheck_eq hl hp] at hs
      obtain rfl := some.inj hs
      exact .inl ⟨rows, .begins hp (.inr ⟨rfl, rfl⟩)⟩
    · cases hs
  | clock n => exact absurd rfl (hop n)
  | check k =>
    simp only [step] at hs
    split at hs
    · rename_i hp
      rw [beginCheck_eq h.linked hp] at hs
      obtain rfl := some.inj hs
      exact .inl ⟨rows, .begins hp (.inl rfl)⟩
    · cases hs
  | round k =>
    rcases hp : s.phase k with _ | currentTick | t
    · simp [step, hp] at hs
    · simp only [step, hp] at hs
      rcases checkRound_spec h hp with ⟨he, hdue⟩ | ⟨t, s1, hhead, _, he, hex⟩
      · obtain rfl := some.inj (he.symm.trans hs)
        exact .inl ⟨rows, .ends hp hdue⟩
      · obtain rfl := some.inj (he.symm.trans hs)
        exact .inl ⟨_, .expires (h.linked.list_nil fun x => by rw [hp]; simp) hex⟩
    · simp [step, hp] at hs
  | resume k =>
    rcases hp : s.phase k with _ | currentTick | t
    · simp [step, hp] at hs
    · simp [step, hp] at hs
    · simp only [step, hp] at hs
      rcases checkResume_spec h hp with ⟨hl, he, _⟩ | ⟨hl, hlinked, ⟨hno, he⟩ | ⟨hper, hact, he⟩⟩
      · obtain rfl := some.inj (he.symm.trans hs)
        exact .inl ⟨rows, .resumes hp hl⟩
      · obtain rfl := some.inj (he.symm.trans hs)
        refine .inl ⟨fun i => (rows i).erase t, ?_⟩
        have hm : Move c (.resume k) s rows ((resumed c s k t).set t (s.timer t)) _ :=
          .leaves hp hl hlinked (.inl rfl) fun ha => ⟨rfl, ha, fun hq => hno ⟨hq, ha⟩⟩
        have hself : (resumed c s k t).set t (s.timer t) = resumed c s k t := set_self (resumed c s k t) t
        rw [hself] at hm
        exact hm
      · have hm : Move c (.resume k) s rows ((resumed c s k t).set t (s.timer t).deactivate) _ :=
          .leaves hp hl hlinked (.inr rfl) fun ha => absurd ha deactivate_activated
        have hl1 : Linked c ((resumed c s k t).set t (s.timer t).deactivate) fun i => (rows i).erase t := by
          exact hlinked.keep rfl (read_set (s := resumed c s k t) (kindOf c) (kindOf_deactivate c)) hlinked.onList
        obtain ⟨s2, rows', ls, rs, lowest, hgo, hst⟩ := rtTimerStart_spec hl1 t
        obtain rfl := some.inj (hgo.symm.trans (he.symm.trans hs))
        exact .inr ⟨_, _, t, rows', ls, rs, lowest, hm, hst⟩

omit dT fT in
theorem Inv.notMem_started (h : Inv c s rows) (ht : t ∈ rows (.list k)) : t ∉ s.started := fun hst =>
  h.linked.not_row ht ((h.started _ t).mpr ⟨hst, rfl⟩)

omit fT in
theorem Starts.mem_bottom {ls rs : Nat → List Tid} {lowest : Nat}
    (hs : Starts c s rows t s' rows' ls rs lowest) (h : Inv c s rows) (k' : Kind) (x : Tid) :
    x ∈ rows' (.row k' c.bottom) ↔
      x = t ∧ k' = kindOf c (s.timer t) ∨ x ≠ t ∧ x ∈ rows (.row k' c.bottom) := by
  have herase := (h.linked.nodup (.row k' c.bottom)).mem_erase_iff (a := x) (b := t)
  rw [hs.rows_eq]
  simp only [placed]
  split
  · rename_i hc
    obtain ⟨rfl, _, hle⟩ := hc
    rw [← herase, hs.split c.bottom hle]
    simp only [mem_append, mem_cons]
    tauto
  · rename_i hc
    have hk : k' ≠ kindOf c (s.timer t) := fun e => hc ⟨e, hs.lowest_le, le_refl _⟩
    tauto

omit fT in
theorem Starts.inv {ls rs : Nat → List Tid} {lowest : Nat} (hs : Starts c s rows t s' rows' ls rs lowest)
    (h : Inv c s rows) : Inv c s' rows' := by
  have hmem := hs.mem_bottom h
  have htimer : ∀ x, x ≠ t → s'.timer x = s.timer x := fun x hx => by
    rw [hs.timer, update_of_ne hx]
  have hmine : s'.timer t = startedTimer s t := by rw [hs.timer, update_self]
  have hkind : kindOf c (s'.timer t) = kindOf c (s.timer t) := by
    rw [hmine, startedTimer, kindOf_activate]
    exact kindOf_deactivate (r := s.timer t) c
  refine ⟨hs.linked, ?_, fun k' x => ?_, fun k' x hx => ?_⟩
  · rw [hs.started]
    refine nodup_append.mpr ⟨h.nodup.erase t, nodup_singleton t, ?_⟩
    intro a ha b hb
    rw [mem_singleton.mp hb]
    exact (h.nodup.mem_erase_iff.mp ha).1
  · rw [hmem, hs.started, mem_append, mem_singleton, h.nodup.mem_erase_iff, h.started k' x]
    by_cases hx : x = t
    · subst hx
      rw [hkind]
      tauto
    · rw [htimer x hx]
      tauto
  · rcases (hmem k' x).mp hx with ⟨rfl, _⟩ | ⟨hne, hx⟩
    · rw [hmine]
      exact activate_activated
    · rw [htimer x hne]
      exact h.active k' x hx

omit dT fT in
theorem Inv.keep (h : Inv c s rows) (hl : Linked c s' rows) (hstarted : s'.started = s.started)
    (hkind : ∀ t, kindOf c (s'.timer t) = kindOf c (s.timer t))
    (hact : ∀ t, (s.timer t).activated → (s'.timer t).activated) : Inv c s' rows where
  linked := hl
  nodup := by rw [hstarted]; exact h.nodup
  started k t := by rw [hstarted, hkind]; exact h.started k t
  active k t ht := hact t (h.active k t ht)

omit fT in
/-- **Every move keeps the invariant.** -/
theorem Move.inv {op : Op Tid} (hm : Move c op s rows s' rows') (h : Inv c s rows) : Inv c s' rows' := by
  have hl := h.linked
  -- the phase of a check changes while its list is empty
  have hphase : ∀ {k : Kind} {p : Phase Tid}, rows (.list k) = [] → ∀ k' t, t ∈ rows (.list k') →
      update s.phase k p k' = .callback t := by
    intro k p hnil k' t ht
    have hk : k' ≠ k := fun e => by
      rw [e, hnil] at ht
      simp at ht
    rw [update_of_ne hk]
    exact hl.onList k' t ht
  cases hm with
  | @sets t r hr =>
    have hkind := read_set (s := s) (kindOf c) (hr.kind c)
    refine h.keep (hl.keep rfl hkind hl.onList) rfl hkind fun x hx => ?_
    rw [read_set RtTimer.activated (propext hr.activated)]
    exact hx
  | erased hs => exact h.erase _ hs.linked hs.started fun x hx => by rw [hs.timer, update_of_ne hx]
  | starts hs => exact hs.inv h
  | begins hp hn =>
    have hnil := hl.list_nil fun t => by rw [hp]; simp
    exact h.keep (hl.keep rfl (fun _ => rfl) (hphase hnil)) rfl (fun _ => rfl) fun _ ha => ha
  | ends hp hdue =>
    have hnil := hl.list_nil fun t => by rw [hp]; simp
    exact h.keep (hl.keep rfl (fun _ => rfl) (hphase hnil)) rfl (fun _ => rfl) fun _ ha => ha
  | resumes hp hnil =>
    exact h.keep (hl.keep rfl (fun _ => rfl) (hphase hnil)) rfl (fun _ => rfl) fun _ ha => ha
  | @expires k t _ hnil hs =>
    have hother : ∀ x, x ≠ t → s'.timer x = s.timer x := fun x hx => by
      rw [hs.timer, update_of_ne hx]
    refine ⟨hs.linked, ?_, fun k' x => ?_, fun k' x hx => ?_⟩
    · rw [hs.started]
      exact h.nodup.erase t
    · rw [update_of_ne (by simp), (hl.nodup _).mem_erase_iff, hs.started, h.nodup.mem_erase_iff, h.started k' x]
      by_cases hx : x = t
      · simp [hx]
      · rw [hother x hx]
        tauto
    · obtain ⟨hne, hx⟩ := (hl.nodup _).mem_erase_iff.mp hx
      rw [hother x hne]
      exact h.active k' x hx
  | @leaves k t r hp hlist hlinked hr hlost =>
    have ht : t ∉ s.started := h.notMem_started (k := k) (by simp [hlist])
    have hkind : kindOf c r = kindOf c (s.timer t) := by
      rcases hr with rfl | rfl
      · rfl
      · exact kindOf_deactivate c
    refine h.erase t (hlinked.keep rfl (read_set (s := resumed c s k t) (kindOf c) hkind) hlinked.onList) ?_ ?_
    · exact (erase_of_not_mem ht).symm
    · exact fun x hx => set_timer_of_ne (resumed c s k t) r hx

end RtosKernel.RtThread.Timer
