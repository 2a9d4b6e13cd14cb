import RtosKernel.Lib.Runs
import RtosKernel.RtThread.TimerCheck

/-! # When `rt_timer_check` does its work -/
namespace RtosKernel.RtThread.Timer
open Lib.Word Lib.Ring Lib.RingFamily RtThread.Def RtThread.Service List Function Option

variable {Tid : Type} [dT : DecidableEq Tid] [fT : Fintype Tid] {c : Board} {s s' : Timers Tid} {rows rows' : Rows Tid}
  {t x : Tid}

variable {fuel tick : Nat} {r : Timers Tid × List Tid} {timer : Tid → RtTimer} {l : List Tid}

/-! ## The loop from a list of this shape -/

/-- A periodic timer has a period, and passes the timer `u` that is due behind it. -/
def Reaches (s : Timers Tid) (t u : Tid) : Prop :=
  (s.timer t).periodic → (s.timer t).initTick + overdue s u ≤ 0x80000001

theorem Draining.ends {Ds : Nat → List Tid} (h : Draining c s rows Ds) (hD : Ds c.bottom = [])
    (hrest : ∀ x ∈ rows (.row .hard c.bottom), remaining s x ≠ 0) (fuel : Nat) :
    checkLoop c (fuel + 2) s = some (s.setPhase .hard .idle, []) := by
  obtain ⟨B, hrow, hB⟩ := h.row c.bottom (le_refl _)
  rcases checkRound_spec h.inv h.phase with ⟨hround, _⟩ | ⟨t, s₁, hhead, hdue, _⟩
  · simp only [checkLoop, h.phase, hround, bind_some, Timers.setPhase, update_self]
  · have hin := List.mem_of_mem_head? hhead
    have hnear : remaining s t < halfTickMax := by
      rw [hrow, hD] at hin
      exact hB.near t hin
    exact absurd ((expired_ahead hnear).mp hdue) (hrest t hin)

/-- What a round of the loop at the due timer `t` leaves: a periodic timer is put back, another one is gone. -/
structure Turned (c : Board) (Ds : Nat → List Tid) (t : Tid) (s : Timers Tid) (rows : Rows Tid) (s₂ : Timers Tid)
    (rows₂ : Rows Tid) : Prop where
  draining : Draining c s₂ rows₂ fun lvl => (Ds lvl).erase t
  tick : s₂.tick = s.tick
  other : ∀ x, x ≠ t → s₂.timer x = s.timer x
  back : (s.timer t).periodic → Restarted s t (s₂.timer t) ∧ t ∈ rows₂ (.row .hard c.bottom)
  off : ¬ (s.timer t).periodic → s₂.timer t = (s.timer t).deactivate ∧ t ∉ rows₂ (.row .hard c.bottom)
  mem : ∀ x, x ≠ t → (x ∈ rows₂ (.row .hard c.bottom) ↔ x ∈ rows (.row .hard c.bottom))

theorem Draining.turned {Ds : Nat → List Tid} {D : List Tid} {s₁ : Timers Tid} (h : Draining c s rows Ds)
    (hD : Ds c.bottom = t :: D) (hf : Fired c s rows t s₁) (hreach : ∀ x ∈ D, Reaches s t x) :
    ∃ s₂ rows₂, (if (s.timer t).periodic then rtTimerStart c s₁ t else some s₁) = some s₂ ∧
      Turned c Ds t s rows s₂ rows₂ := by
  by_cases hp : (s.timer t).periodic
  · obtain ⟨s₂, rows₂, hstart, hdr, htick, hother, hre, hmem⟩ := h.restart hD hf fun x hx => hreach x hx hp
    have ht : t ∈ rows₂ (.row .hard c.bottom) := (hmem t).mpr (h.mem_row t (by simp [hD]))
    exact ⟨s₂, rows₂, by rw [if_pos hp, hstart],
      hdr, htick, hother, fun _ => ⟨hre, ht⟩, fun hno => absurd hp hno, fun x _ => hmem x⟩
  · have herase := fun x => (h.inv.linked.nodup (.row .hard c.bottom)).mem_erase_iff (a := x) (b := t)
    refine ⟨s₁, _, if_neg hp, h.oneshot hD hf, hf.tick, fun x hx => ?_, fun hyes => absurd hyes hp,
      fun _ => ⟨?_, fun hm => ((herase t).mp hm).1 rfl⟩, fun x hx => ?_⟩
    · rw [hf.timer, update_of_ne hx]
    · rw [hf.timer, update_self]
    · simp [hx]

section Turned
variable {Ds : Nat → List Tid} {s₂ : Timers Tid} {rows₂ : Rows Tid} (h : Turned c Ds t s rows s₂ rows₂)
include h
omit fT

theorem Turned.remaining_self (hp : (s.timer t).periodic) (hinit : (s.timer t).initTick < halfTickMax) :
    remaining s₂ t = (s.timer t).initTick := by
  rw [remaining, (h.back hp).1.timeout, h.tick]
  exact ahead_dueTick hinit

theorem Turned.remaining (hx : x ≠ t) : remaining s₂ x = remaining s x := by
  rw [Timer.remaining, Timer.remaining, h.tick, h.other x hx]

theorem Turned.reaches {y : Tid} (hx : x ≠ t) (hy : y ≠ t) : Reaches s₂ x y ↔ Reaches s x y := by
  unfold Reaches overdue
  rw [h.tick, h.other x hx, h.other y hy]

end Turned

/-- **The due timers are fired in order**, once each. -/
theorem Draining.drains : ∀ {D : List Tid} {s : Timers Tid} {rows : Rows Tid} {Ds : Nat → List Tid},
    Draining c s rows Ds → Ds c.bottom = D → (∀ t ∈ D, (s.timer t).periodic → (s.timer t).initTick ≠ 0) →
    D.Pairwise (Reaches s) → (∀ x ∈ rows (.row .hard c.bottom), x ∉ D → remaining s x ≠ 0) →
    ∃ fuel s' rows', checkLoop c fuel s = some (s', D) ∧ Linked c s' rows' ∧
      (∀ x, x ∉ D → s'.timer x = s.timer x ∧
        (x ∈ rows' (.row .hard c.bottom) ↔ x ∈ rows (.row .hard c.bottom))) ∧
      (∀ t ∈ D, (s.timer t).periodic → Restarted s t (s'.timer t) ∧ t ∈ rows' (.row .hard c.bottom)) ∧
      ∀ t ∈ D, ¬ (s.timer t).periodic →
        s'.timer t = (s.timer t).deactivate ∧ t ∉ rows' (.row .hard c.bottom)
  | [], s, rows, Ds, h, hD, _, _, hrest => by
    refine ⟨2, _, rows, h.ends hD (fun x hx => hrest x hx (by simp)) 0, ?_, fun _ _ => ⟨rfl, Iff.rfl⟩, by simp,
      by simp⟩
    exact h.inv.linked.keep rfl (fun _ => rfl) fun k x hx => by
      have hnil : rows (.list .hard) = [] := h.inv.linked.list_nil fun x => by rw [h.phase]; simp
      have hk : k ≠ .hard := fun e => by simp [e, hnil] at hx
      exact (update_of_ne hk _ _).trans (h.inv.linked.onList k x hx)
  | t :: D, s, rows, Ds, h, hD, hperiod, hreach, hrest => by
    obtain ⟨hreach_t, hreach_D⟩ := pairwise_cons.mp hreach
    obtain ⟨hperiod_t, hperiod_D⟩ := forall_mem_cons.mp hperiod
    have hin := h.mem_row
    rw [hD] at hin
    have htD := h.notMem hD
    have hbottom : (Ds c.bottom).erase t = D := by rw [hD, erase_cons_head]
    obtain ⟨s₁, hf, hgo⟩ := h.fires hD
    obtain ⟨s₂, rows₂, hstep, hturn⟩ := h.turned hD hf hreach_t
    have hne : ∀ x ∈ D, x ≠ t := fun x hx => ne_of_mem_of_not_mem hx htD
    have hother : ∀ x ∈ D, s₂.timer x = s.timer x := fun x hx => hturn.other x (hne x hx)
    -- the rest of the loop, from the list that this round leaves
    obtain ⟨fuel, s', rows', hrun, hlinked, hout, hback, hoff⟩ := Draining.drains hturn.draining hbottom
      (fun x hx hp => by rw [hother x hx] at hp ⊢; exact hperiod_D x hx hp)
      (hreach_D.imp_of_mem fun ha hb hab => (hturn.reaches (hne _ ha) (hne _ hb)).mpr hab)
      (fun x hx hxD => by
        by_cases hxt : x = t
        · -- a periodic timer is ahead by its period
          subst hxt
          have hp : (s.timer x).periodic := Classical.byContradiction fun hp => (hturn.off hp).2 hx
          rw [hturn.remaining_self hp (h.initTick_lt x (hin x (mem_cons_self ..)))]
          exact hperiod_t hp
        · rw [hturn.remaining hxt]
          exact hrest x ((hturn.mem x hxt).mp hx) (by simp [hxt, hxD]))
    refine ⟨fuel + 2, s', rows', ?_, hlinked, fun x hx => ?_, fun x hx hp => ?_, fun x hx hp => ?_⟩
    · rw [hgo, hstep]
      simp [hrun]
    · obtain ⟨hxt, hxD⟩ := not_or.mp (mem_cons.not.mp hx)
      obtain ⟨htimer, hiff⟩ := hout x hxD
      exact ⟨htimer.trans (hturn.other x hxt), hiff.trans (hturn.mem x hxt)⟩
    · rcases mem_cons.mp hx with rfl | hxD
      · obtain ⟨htimer, hiff⟩ := hout x htD
        exact ⟨htimer ▸ (hturn.back hp).1, hiff.mpr (hturn.back hp).2⟩
      · obtain ⟨hre, hb⟩ := hback x hxD (by rw [hother x hxD]; exact hp)
        refine ⟨⟨hre.activated, ?_, ?_⟩, hb⟩
        · rw [hre.timeout, hturn.tick, hother x hxD]
        · rw [hre.initTick, hother x hxD]
    · rcases mem_cons.mp hx with rfl | hxD
      · obtain ⟨htimer, hiff⟩ := hout x htD
        exact ⟨htimer.trans (hturn.off hp).1, hiff.not.mpr (hturn.off hp).2⟩
      · obtain ⟨hde, hb⟩ := hoff x hxD (by rw [hother x hxD]; exact hp)
        exact ⟨by rw [hde, hother x hxD], hb⟩

theorem checkLoop_two {currentTick : Nat}
    (hp : s.phase .hard = .checking currentTick) (h : checkLoop c fuel s = some r) : ∃ k, fuel = k + 2 := by
  rcases fuel with _ | _ | k
  · cases h
  · rw [checkLoop, hp] at h
    cases hround : checkRound c s .hard currentTick with
    | none => simp [hround] at h
    | some s₁ => simp [hround, checkLoop] at h
  · exact ⟨k, rfl⟩

theorem checkLoop_front (h : Inv c s rows)
    (hp : s.phase .hard = .checking s.tick) (hhead : (rows (.row .hard c.bottom)).head? = some t)
    (hnot : ¬ expired s.tick (s.timer t)) (hrun : checkLoop c fuel s = some r) : r.2 = [] := by
  obtain ⟨k, rfl⟩ := checkLoop_two hp hrun
  rcases checkRound_spec h hp with ⟨hround, _⟩ | ⟨t', s₁, hhead', hdue, _⟩
  · simp only [checkLoop, hp, hround, bind_some, Timers.setPhase, update_self] at hrun
    exact (some.inj hrun) ▸ rfl
  · obtain rfl : t = t' := some.inj (hhead.symm.trans hhead')
    exact absurd hdue hnot

/-- **A periodic timer cuts the check short** when it does not pass the next due one and is in none
but full rows: it goes to the front of the list. -/
theorem Draining.cut {Ds : Nat → List Tid} {D : List Tid} {y : Tid} {s₁ : Timers Tid} (h : Draining c s rows Ds)
    (hfull : ∀ lvl, lvl ≤ c.bottom → Ds lvl = t :: y :: D)
    (hf : Fired c s rows t s₁) (hno : ¬ Reaches s t y)
    (hrun : (rtTimerStart c s₁ t).bind (checkLoop c fuel) = some r) : r.2 = [] := by
  have hD := hfull c.bottom (le_refl _)
  have hin : t ∈ rows (.row .hard c.bottom) := h.mem_row t (by simp [hD])
  have hp := h.initTick_lt t hin
  have hdue := h.due y (by rw [hD]; simp)
  have hyt : y ≠ t := fun e => h.notMem hD (by simp [e])
  have hkind : kindOf c (s₁.timer t) = .hard := by
    rw [hf.timer_self, kindOf_deactivate]
    exact h.inv.linked.kind .hard c.bottom t hin
  have hdueTick := hf.dueTick
  obtain ⟨s₂, rows₂, ls, rs, lowest, hstart, hs⟩ := rtTimerStart_spec hf.inv.linked t
  have hfar : 0x80000001 < (s.timer t).initTick + overdue s y := by
    exact not_le.mp fun hle => hno fun _ => hle
  have hfront := rtTimerStart_front hf.inv.linked hkind hstart hs fun lvl hlvl => by
    obtain ⟨B, hrow, _⟩ := h.row lvl hlvl
    refine ⟨y, D ++ B, ?_, ?_⟩
    · rw [hrow, hfull lvl hlvl, cons_append, erase_cons_head, cons_append, erase_of_not_mem]
      intro hm
      have hnd := h.inv.linked.nodup (.row .hard lvl)
      rw [hrow, hfull lvl hlvl, cons_append] at hnd
      exact (nodup_cons.mp hnd).1 hm
    · have htimer : s₁.timer y = s.timer y := by rw [hf.timer, update_of_ne hyt]
      rw [hdueTick, htimer, passes_due hp hdue]
      exact not_le.mpr hfar
  have htick : s₂.tick = s.tick := hs.tick.trans hf.tick
  have hahead : remaining s₂ t = (s.timer t).initTick := by
    have htimeout : (s₂.timer t).timeoutTick = add32 s.tick (s.timer t).initTick := by
      rw [hs.timer, update_self]
      exact hdueTick
    rw [remaining, htick, htimeout]
    exact ahead_dueTick hp
  have hnot : ¬ expired s₂.tick (s₂.timer t) := fun he => by
    have hzero := (expired_ahead (hahead ▸ hp : remaining s₂ t < halfTickMax)).mp he
    have hover : overdue s y < halfTickMax := hdue
    have hinit : (s.timer t).initTick = 0 := hahead.symm.trans hzero
    unfold halfTickMax at hover
    omega
  rw [hstart] at hrun
  exact checkLoop_front (hs.inv hf.inv) (by rw [hs.phase, hf.phase, htick]) hfront hnot hrun

omit dT fT in
theorem Draining.reaches_all {Ds : Nat → List Tid} {D : List Tid} (h : Draining c s rows Ds)
    (hD : Ds c.bottom = t :: D) (hhead : ∀ y ∈ D.head?, Reaches s t y) : ∀ x ∈ D, Reaches s t x := by
  intro x hx hp
  cases D with
  | nil => simp at hx
  | cons y l =>
    have hy := hhead y rfl hp
    have hlate := h.late
    rw [hD] at hlate
    rcases mem_cons.mp hx with rfl | hx
    · exact hy
    · have := (pairwise_cons.mp (pairwise_cons.mp hlate).2).1 x hx
      omega

theorem Draining.drained_nil {Ds : Nat → List Tid} (h : Draining c s rows Ds) (hD : Ds c.bottom = [])
    (hrun : checkLoop c fuel s = some (s', [])) (hx : x ∈ rows (.row .hard c.bottom)) : remaining s x ≠ 0 := by
  intro hzero
  obtain ⟨k, rfl⟩ := checkLoop_two h.phase hrun
  obtain ⟨B, hrow, hB⟩ := h.row c.bottom (le_refl _)
  rw [hD, nil_append] at hrow
  -- the first timer of the list is ahead by nothing too, so a round fires it
  obtain ⟨a, l, rfl⟩ : ∃ a l, B = a :: l := by
    rw [hrow] at hx
    cases B with
    | nil => simp at hx
    | cons a l => exact ⟨a, l, rfl⟩
  have ha : remaining s a = 0 := by
    rw [hrow] at hx
    rcases mem_cons.mp hx with rfl | hx
    · exact hzero
    · exact Nat.le_zero.mp (hzero ▸ (pairwise_cons.mp hB.sorted).1 x hx)
  have hdue : expired s.tick (s.timer a) := (expired_ahead (hB.near a (mem_cons_self ..))).mpr ha
  rcases checkRound_spec h.inv h.phase with ⟨_, hno⟩ | ⟨t, s₁, _, _, hround, hex⟩
  · exact hno a (by rw [hrow]; rfl) hdue
  · have hphase₁ : s₁.phase .hard = .callback t := by rw [hex.phase, update_self]
    simp only [checkLoop, h.phase, hround, bind_some, hphase₁] at hrun
    obtain ⟨s₂, _, hrest⟩ := bind_eq_some_iff.mp hrun
    obtain ⟨r, _, he⟩ := map_eq_some_iff.mp hrest
    cases congrArg Prod.snd he

/-- **Nothing else drains a list in full rows**: if the check fires the due timers once each and
ends, each periodic one has a period and passes the next due one. -/
theorem Draining.drained : ∀ {D : List Tid} {s : Timers Tid} {rows : Rows Tid} {Ds : Nat → List Tid}
    {fuel : Nat} {s' : Timers Tid}, Draining c s rows Ds → (∀ lvl, lvl ≤ c.bottom → Ds lvl = D) →
    checkLoop c fuel s = some (s', D) →
    (∀ t ∈ D, (s.timer t).periodic → (s.timer t).initTick ≠ 0) ∧ D.IsChain (Reaches s) ∧
      ∀ x ∈ rows (.row .hard c.bottom), x ∉ D → remaining s x ≠ 0
  | [], s, rows, Ds, fuel, s', h, hfull, hrun =>
    ⟨by simp, isChain_nil, fun _ hx _ => h.drained_nil (hfull c.bottom (le_refl _)) hrun hx⟩
  | t :: D, s, rows, Ds, fuel, s', h, hfull, hrun => by
    obtain ⟨k, rfl⟩ := checkLoop_two h.phase hrun
    have hD := hfull c.bottom (le_refl _)
    have hfull' : ∀ lvl, lvl ≤ c.bottom → (Ds lvl).erase t = D := fun lvl hlvl => by
      rw [hfull lvl hlvl, erase_cons_head]
    obtain ⟨s₁, hf, hgo⟩ := h.fires hD
    rw [hgo] at hrun
    obtain ⟨s₂, hstep, htail⟩ := bind_eq_some_iff.mp hrun
    obtain ⟨r, hloop, he⟩ := map_eq_some_iff.mp htail
    obtain ⟨s₃, D', rfl⟩ : ∃ s₃ D', r = (s₃, D') := ⟨r.1, r.2, rfl⟩
    obtain rfl : D' = D := by simpa using congrArg Prod.snd he
    have htD := h.notMem hD
    have hne : ∀ x ∈ D', x ≠ t := fun x hx => ne_of_mem_of_not_mem hx htD
    -- a timer that does not pass the next one would end the check before that is fired
    have hhead : ∀ y ∈ D'.head?, Reaches s t y := by
      intro y hy
      refine Classical.byContradiction fun hno => ?_
      have hp : (s.timer t).periodic := Classical.byContradiction fun hp => hno fun hyes => absurd hyes hp
      obtain ⟨l, rfl⟩ := head?_eq_some_iff.mp hy
      rw [if_pos hp] at hstep
      cases h.cut hfull hf hno (by rw [hstep]; exact hloop)
    obtain ⟨s₂', rows₂, hstep', hturn⟩ := h.turned hD hf (h.reaches_all hD hhead)
    obtain rfl : s₂' = s₂ := some.inj (hstep'.symm.trans hstep)
    obtain ⟨hperiod, hchain, hrest⟩ := Draining.drained hturn.draining hfull' hloop
    refine ⟨fun x hx hp => ?_, isChain_cons.mpr ⟨hhead, ?_⟩, fun x hx hxD => ?_⟩
    · rcases mem_cons.mp hx with rfl | hxD
      · rw [← hturn.remaining_self hp (h.initTick_lt x (h.mem_row x (by simp [hD])))]
        exact hrest x (hturn.back hp).2 htD
      · rw [← hturn.other x (hne x hxD)] at hp ⊢
        exact hperiod x hxD hp
    · exact hchain.imp_of_mem_imp fun a b ha hb => (hturn.reaches (hne a ha) (hne b hb)).mp
    · obtain ⟨hxt, hxD⟩ := not_or.mp (mem_cons.not.mp hxD)
      rw [← hturn.remaining hxt]
      exact hrest x ((hturn.mem x hxt).mpr hx) hxD

/-! ## Sorted lists -/

/-- The hard timers `l`, started and in the order in which `rt_timer_start` compares them. -/
structure TimerList (c : Board) (timer : Tid → RtTimer) (l : List Tid) : Prop where
  nodup : l.Nodup
  hard : ∀ t ∈ l, kindOf c (timer t) = .hard
  active : ∀ t ∈ l, (timer t).activated
  initTick_lt : ∀ t ∈ l, (timer t).initTick < halfTickMax
  sorted : l.Pairwise fun a b => sub32 (timer b).timeoutTick (timer a).timeoutTick < halfTickMax

/-- The timer list is `l`, in rows that are all in order, and no check runs. -/
structure Holding (c : Board) (tick : Nat) (timer : Tid → RtTimer) (l : List Tid) (s : Timers Tid) : Prop where
  tick_eq : s.tick = tick
  timer_eq : s.timer = timer
  idle : s.phase .hard = .idle
  rows : ∃ rows, Inv c s rows ∧ rows (.row .hard c.bottom) = l ∧ ∀ lvl, (rows (.row .hard lvl)).Pairwise
    fun a b => sub32 (timer b).timeoutTick (timer a).timeoutTick < halfTickMax

instance (tick : Nat) (r : RtTimer) : Decidable (expired tick r) := inferInstanceAs (Decidable (_ < _))

/-- What a check is for: it calls the timeout functions of the due timers in list order, stops the one-shot
ones, and puts the periodic ones back for a period from now. -/
structure Delivered (c : Board) (s : Timers Tid) (l : List Tid) (s' : Timers Tid) (fired : List Tid) : Prop where
  fired_eq : fired = l.filter fun t => expired s.tick (s.timer t)
  oneshot : ∀ t ∈ fired, ¬ (s.timer t).periodic → ¬ (s'.timer t).activated ∧ ¬ InRow c s' t
  periodic : ∀ t ∈ fired, (s.timer t).periodic → (s'.timer t).activated ∧ InRow c s' t ∧
    (s'.timer t).timeoutTick = add32 s.tick (s.timer t).initTick

/-- The check ends, and has done that. -/
def Checks (c : Board) (s : Timers Tid) (l : List Tid) : Prop :=
  ∃ fuel s' fired, rtTimerCheck c fuel s = some (s', fired) ∧ Delivered c s l s' fired

structure Drains (tick : Nat) (timer : Tid → RtTimer) (l : List Tid) : Prop where
  /-- if a timer is due, the first one is -/
  first : (∃ t ∈ l, expired tick (timer t)) → ∀ t ∈ l.head?, expired tick (timer t)
  /-- a due periodic timer has a period -/
  period : ∀ t ∈ l, expired tick (timer t) → (timer t).periodic → (timer t).initTick ≠ 0
  /-- its period and the delay of the next due timer do not exceed half the range -/
  behind : l.IsChain fun t u => expired tick (timer t) → (timer t).periodic → expired tick (timer u) →
    (timer t).initTick + sub32 tick (timer u).timeoutTick ≤ 0x80000001

omit [DecidableEq Tid] [Fintype Tid] in
theorem filter_append_filter {p : Tid → Prop} [DecidablePred p] : ∀ {l : List Tid},
    (l.Pairwise fun a b => p b → p a) → l = l.filter (p ·) ++ l.filter (¬ p ·)
  | [], _ => rfl
  | a :: l, h => by
    obtain ⟨ha, hl⟩ := pairwise_cons.mp h
    by_cases hp : p a
    · rw [filter_cons_of_pos (by simpa using hp), filter_cons_of_neg (by simpa using hp),
        cons_append, ← filter_append_filter hl]
    · have hnone : ∀ b ∈ l, ¬ p b := fun b hb hpb => hp (ha b hb hpb)
      rw [filter_cons_of_neg (by simpa using hp), filter_cons_of_pos (by simpa using hp),
        filter_eq_nil_iff.mpr (by simpa using hnone), List.filter_eq_self.mpr (by simpa using hnone),
        nil_append]

theorem sorted_due {r a b : RtTimer} (hr : expired tick r)
    (ha : sub32 a.timeoutTick r.timeoutTick < halfTickMax) (hb : sub32 b.timeoutTick r.timeoutTick < halfTickMax)
    (hab : sub32 b.timeoutTick a.timeoutTick < halfTickMax) :
    (expired tick b → expired tick a ∧ sub32 tick b.timeoutTick ≤ sub32 tick a.timeoutTick) ∧
      (¬ expired tick a → sub32 a.timeoutTick tick ≤ sub32 b.timeoutTick tick) := by
  unfold expired halfTickMax sub32 at *
  omega

theorem sorted_near {r a : RtTimer} (hr : expired tick r)
    (ha : sub32 a.timeoutTick r.timeoutTick < halfTickMax) (hno : ¬ expired tick a) :
    sub32 a.timeoutTick tick < halfTickMax := by
  unfold expired halfTickMax sub32 at *
  omega

theorem sub32_self (a : Nat) : sub32 a a = 0 := by
  unfold sub32
  omega

omit fT in
/-- **A check of a sorted list whose first timer is due** begins with a list of this shape. -/
theorem Holding.draining {first : Tid}
    (hl : TimerList c timer l) (hrows : Inv c s rows) (hrow : rows (.row .hard c.bottom) = l)
    (hsorted : ∀ lvl, (rows (.row .hard lvl)).Pairwise
      fun a b => sub32 (timer b).timeoutTick (timer a).timeoutTick < halfTickMax)
    (htick : s.tick = tick) (htimer : s.timer = timer) (hidle : s.phase .hard = .idle)
    (hfirst : first ∈ l.head?) (hdue : expired tick (timer first)) :
    Draining c (s.setPhase .hard (.checking s.tick)) rows
      fun lvl => (rows (.row .hard lvl)).filter fun t => expired tick (timer t) := by
  subst htick htimer
  have hm : Move c (.check .hard) s rows (s.setPhase .hard (.checking s.tick)) rows :=
    .begins hidle (.inl rfl)
  have hnear : ∀ x ∈ l, sub32 (s.timer x).timeoutTick (s.timer first).timeoutTick < halfTickMax := by
    intro x hx
    obtain ⟨rest, rfl⟩ : ∃ rest, l = first :: rest := List.head?_eq_some_iff.mp hfirst
    rcases mem_cons.mp hx with rfl | hx
    · rw [sub32_self]
      decide
    · exact (pairwise_cons.mp hl.sorted).1 x hx
  have hin : ∀ lvl, ∀ x ∈ rows (.row .hard lvl), x ∈ l := fun lvl x hx =>
    hrow ▸ hrows.linked.mem_bottom hx
  -- how the timers of a row stand to one another
  have hpair : ∀ lvl, (rows (.row .hard lvl)).Pairwise fun a b =>
      (expired s.tick (s.timer b) → expired s.tick (s.timer a) ∧ overdue s b ≤ overdue s a) ∧
        (¬ expired s.tick (s.timer a) → remaining s a ≤ remaining s b) := fun lvl =>
    List.Pairwise.imp_of_mem (fun {a b} ha hb hab =>
      sorted_due hdue (hnear a (hin lvl a ha)) (hnear b (hin lvl b hb)) hab) (hsorted lvl)
  refine ⟨hm.inv hrows, by simp [Timers.setPhase], fun t ht => hl.initTick_lt t (hrow ▸ ht), fun lvl _ => ?_,
    fun lvl _ x hx => ?_, fun x hx => ?_, ?_⟩
  · refine ⟨_, filter_append_filter ((hpair lvl).imp fun {a b} hab hb => (hab.1 hb).1), fun x hx => ?_, ?_,
      fun x hx hxD => ?_⟩
    · obtain ⟨hx, hno⟩ := mem_filter.mp hx
      exact sorted_near hdue (hnear x (hin lvl x hx)) (of_decide_eq_true hno)
    · refine List.Pairwise.imp_of_mem (fun {a b} ha hb hab => ?_) ((hpair lvl).sublist filter_sublist)
      exact hab.2 (by simpa using (mem_filter.mp ha).2)
    · have hno := (mem_filter.mp hx).2
      have hyes := (mem_filter.mp hxD).2
      simp only [decide_eq_true_eq] at hno hyes
      exact hno hyes
  · obtain ⟨hx, hd⟩ := mem_filter.mp hx
    exact mem_filter.mpr ⟨hrows.linked.mem_bottom hx, hd⟩
  · exact of_decide_eq_true (mem_filter.mp hx).2
  · refine List.Pairwise.imp_of_mem (fun {a b} ha hb hab => ?_) ((hpair c.bottom).sublist filter_sublist)
    exact (hab.1 (by simpa using (mem_filter.mp hb).2)).2

/-! ## A state for every list -/

/-- Every row of the hard timers holds `l`. -/
def fullRows (c : Board) (l : List Tid) : Rows Tid
  | .row .hard lvl => if lvl ≤ c.bottom then l else []
  | _ => []

/-- The same with one more timer at the front of the first `n` rows. -/
def frontRows (c : Board) (t : Tid) (l : List Tid) (n : Nat) : Rows Tid
  | .row .hard lvl => if lvl ≤ c.bottom then if lvl < n then t :: l else l else []
  | _ => []

section
omit fT

theorem frontRows_holds {m : RtList (Node Tid)} (h : Holds m headOf (nodeOf c) (fullRows c l))
    (ht : t ∉ l) : ∀ n, n ≤ c.bottom + 1 → ∃ m, Holds m headOf (nodeOf c) (frontRows c t l n)
  | 0, _ => by
    refine ⟨m, h.congr fun i => ?_⟩
    rcases i with ⟨_ | _, lvl⟩ | k <;> simp [fullRows, frontRows, nodes]
  | n + 1, hn => by
    obtain ⟨m, hm⟩ := frontRows_holds h ht n (Nat.le_of_succ_le hn)
    have hle : n ≤ c.bottom := Nat.le_of_succ_le_succ hn
    have hrow : frontRows c t l n (.row .hard n) = [] ++ l := by simp [frontRows, hle]
    have hnew : ∀ j, nodeOf c (.row .hard n) t ∉ headOf j :: nodes (nodeOf c) (frontRows c t l n) j := by
      intro j hj
      rcases mem_cons.mp hj with he | hj
      · cases j <;> simp [nodeOf, headOf] at he
      · obtain ⟨y, hy, he⟩ := List.mem_map.mp hj
        obtain ⟨rfl, hlvl⟩ := Node.row.inj he
        rcases j with ⟨_ | _, lvl⟩ | k
        · obtain rfl : lvl = n := hlvl
          exact ht (by simpa [frontRows, hle] using hy)
        · simp [frontRows] at hy
        · simp [frontRows] at hy
    refine ⟨_, (rtListInsertAfter_holds hm hrow hnew).congr fun i => ?_⟩
    have hi : Function.update (frontRows c t l n) (.row .hard n) ([] ++ t :: l) i = frontRows c t l (n + 1) i := by
      by_cases he : i = .row .hard n
      · subst he
        simp [frontRows, hle]
      · rw [update_of_ne he]
        rcases i with ⟨_ | _, lvl⟩ | k
        · have hne : lvl ≠ n := fun e => he (by rw [e])
          have hiff : lvl < n + 1 ↔ lvl < n := by omega
          simp only [frontRows, hiff]
        · rfl
        · rfl
    rw [nodes, nodes, hi]

theorem exists_links (c : Board) : ∀ l : List Tid, l.Nodup → ∃ m, Holds m headOf (nodeOf c) (fullRows c l)
  | [], _ => by
    refine ⟨⟨fun x => x, fun x => x⟩, (IsFamily.empty headOf_injective).congr fun i => ?_⟩
    rcases i with ⟨_ | _, lvl⟩ | k <;> simp [fullRows, nodes]
  | t :: l, hnd => by
    obtain ⟨ht, hl⟩ := nodup_cons.mp hnd
    obtain ⟨m, hm⟩ := exists_links c l hl
    obtain ⟨m', hm'⟩ := frontRows_holds hm ht (c.bottom + 1) (le_refl _)
    refine ⟨m', hm'.congr fun i => ?_⟩
    rcases i with ⟨_ | _, lvl⟩ | k
    · by_cases hlvl : lvl ≤ c.bottom
      · have hlt : lvl < c.bottom + 1 := Nat.lt_succ_of_le hlvl
        simp [fullRows, frontRows, nodes, hlvl, hlt]
      · simp [fullRows, frontRows, nodes, hlvl]
    · rfl
    · rfl

theorem exists_holding (tick : Nat) (hl : TimerList c timer l) :
    ∃ s, Holding c tick timer l s ∧ Inv c s (fullRows c l) := by
  obtain ⟨m, hm⟩ := exists_links c l hl.nodup
  have hmem : ∀ {k lvl t}, t ∈ fullRows c l (.row k lvl) → k = .hard ∧ lvl ≤ c.bottom ∧ t ∈ l := by
    intro k lvl t ht
    cases k with
    | hard =>
      by_cases hlvl : lvl ≤ c.bottom
      · exact ⟨rfl, hlvl, by simpa [fullRows, hlvl] using ht⟩
      · simp [fullRows, hlvl] at ht
    | soft => simp [fullRows] at ht
  have hrow : ∀ {lvl}, lvl ≤ c.bottom → fullRows c l (.row .hard lvl) = l := fun hlvl => if_pos hlvl
  have hinv : Inv c ⟨tick, 0, timer, m, fun _ => .idle, l⟩ (fullRows c l) := by
    refine ⟨⟨hm, fun k lvl hlvl => ?_, fun k lvl t hlvl ht => ?_, fun k lvl t ht => ?_, fun k t ht => ?_⟩,
      hl.nodup, fun k t => ?_, fun k t ht => hl.active t (hmem ht).2.2⟩
    · refine eq_nil_iff_forall_not_mem.mpr fun t ht => ?_
      exact absurd (hmem ht).2.1 (Nat.not_le_of_lt hlvl)
    · obtain ⟨rfl, _, hin⟩ := hmem ht
      rw [hrow (Nat.succ_le_of_lt hlvl)]
      exact hin
    · obtain ⟨rfl, _, hin⟩ := hmem ht
      exact hl.hard t hin
    · simp [fullRows] at ht
    · refine ⟨fun ht => ?_, fun ⟨hin, hk⟩ => ?_⟩
      · obtain ⟨rfl, _, hin⟩ := hmem ht
        exact ⟨hin, hl.hard t hin⟩
      · obtain rfl : Kind.hard = k := (hl.hard t hin).symm.trans hk
        rw [hrow (le_refl _)]
        exact hin
  refine ⟨_, ⟨rfl, rfl, rfl, _, hinv, hrow (le_refl _), fun lvl => ?_⟩, hinv⟩
  by_cases hlvl : lvl ≤ c.bottom
  · rw [hrow hlvl]
    exact hl.sorted
  · rw [hinv.linked.high .hard lvl (not_le.mp hlvl)]
    exact List.Pairwise.nil

end

/-! ## Exactly the lists that are drained -/

omit dT fT in
theorem pairwise_reaches : ∀ {D : List Tid}, D.IsChain (Reaches s) →
    (D.Pairwise fun a b => overdue s b ≤ overdue s a) → D.Pairwise (Reaches s)
  | [], _, _ => List.Pairwise.nil
  | [t], _, _ => pairwise_singleton _ t
  | t :: u :: D, hc, hlate => by
    obtain ⟨htu, hc⟩ := isChain_cons_cons.mp hc
    obtain ⟨_, hlate⟩ := pairwise_cons.mp hlate
    refine pairwise_cons.mpr ⟨fun x hx hp => ?_, pairwise_reaches hc hlate⟩
    have hu := htu hp
    rcases mem_cons.mp hx with rfl | hx
    · exact hu
    · have := (pairwise_cons.mp hlate).1 x hx
      omega

theorem rtTimerCheck_idle (h : Inv c s rows) (hidle : s.phase .hard = .idle)
    (hno : ∀ t ∈ (rows (.row .hard c.bottom)).head?, ¬ expired s.tick (s.timer t)) (fuel : Nat) :
    rtTimerCheck c (fuel + 2) s = some ((s.setPhase .hard (.checking s.tick)).setPhase .hard .idle, []) := by
  have hm : Move c (.check .hard) s rows (s.setPhase .hard (.checking s.tick)) rows :=
    .begins hidle (.inl rfl)
  have hphase : (s.setPhase .hard (.checking s.tick)).phase .hard = .checking s.tick := by simp [Timers.setPhase]
  rw [rtTimerCheck, beginCheck_eq h.linked hidle]
  rcases checkRound_spec (hm.inv h) hphase with ⟨hround, _⟩ | ⟨t, s₁, hhead, hdue, _⟩
  · have hend : ((s.setPhase .hard (.checking s.tick)).setPhase .hard .idle).phase .hard = .idle := by
      simp [Timers.setPhase]
    simp only [checkLoop, hphase, hround, bind_some, hend]
  · exact absurd hdue (hno t hhead)

omit [DecidableEq Tid] [Fintype Tid] in
theorem mem_due : t ∈ l.filter (fun t => expired tick (timer t)) ↔ t ∈ l ∧ expired tick (timer t) := by
  simp [mem_filter]

/-- **A list that meets the conditions is drained**, in whatever rows. -/
theorem Holding.checks (hl : TimerList c timer l)
    (h : Holding c tick timer l s) (hd : Drains tick timer l) : Checks c s l := by
  obtain ⟨rfl, rfl, hidle, rows, hinv, hrow, hsorted⟩ := h
  by_cases hany : ∃ t ∈ l, expired s.tick (s.timer t)
  · obtain ⟨first, hfirst⟩ : ∃ first, first ∈ l.head? := ⟨_, head_mem_head? (ne_nil_of_mem hany.choose_spec.1)⟩
    have hdr := Holding.draining hl hinv hrow hsorted rfl rfl hidle hfirst (hd.first hany first hfirst)
    have hbottom : (rows (.row .hard c.bottom)).filter (fun t => expired s.tick (s.timer t)) =
        l.filter fun t => expired s.tick (s.timer t) := by rw [hrow]
    -- what is not due is ahead
    have hahead : ∀ x ∈ rows (.row .hard c.bottom),
        x ∉ l.filter (fun t => expired s.tick (s.timer t)) → remaining s x ≠ 0 := by
      intro x hx hxD hzero
      refine hxD (mem_due.mpr ⟨hrow ▸ hx, ?_⟩)
      obtain ⟨B, hB, hbehind⟩ := hdr.row c.bottom (le_refl _)
      rw [hB, hbottom] at hx
      have hxB : x ∈ B := (mem_append.mp hx).resolve_left hxD
      exact (expired_ahead (hbehind.near x hxB)).mpr hzero
    have hlate := hdr.late
    rw [hbottom] at hlate
    have hchain : (l.filter fun t => expired s.tick (s.timer t)).IsChain
        (Reaches (s.setPhase .hard (.checking s.tick))) := by
      obtain ⟨B, hB, _⟩ := hdr.row c.bottom (le_refl _)
      rw [hbottom, hrow] at hB
      have hleft := hd.behind
      rw [hB] at hleft
      refine List.IsChain.imp_of_mem_imp (fun a b ha hb hab hp => ?_) hleft.left_of_append
      exact hab (mem_due.mp ha).2 hp (mem_due.mp hb).2
    obtain ⟨fuel, s', rows', hrun, hlinked, _, hback, hoff⟩ := hdr.drains hbottom
      (fun t ht => hd.period t (mem_due.mp ht).1 (mem_due.mp ht).2) (pairwise_reaches hchain hlate) hahead
    refine ⟨fuel, s', _, ?_, rfl, fun t ht hp => ?_, fun t ht hp => ?_⟩
    · rw [rtTimerCheck, beginCheck_eq hinv.linked hidle]
      exact hrun
    · obtain ⟨htimer, hnot⟩ := hoff t ht hp
      have hkind : kindOf c (s'.timer t) = .hard := by
        rw [htimer]
        exact (kindOf_deactivate c).trans (hl.hard t (mem_due.mp ht).1)
      rw [hlinked.inRow_iff, hkind]
      exact ⟨htimer ▸ deactivate_activated, hnot⟩
    · obtain ⟨hre, hin⟩ := hback t ht hp
      rw [hlinked.inRow_iff, hlinked.kind .hard c.bottom t hin]
      exact ⟨hre.activated, hin, hre.timeout⟩
  · have hnone : l.filter (fun t => expired s.tick (s.timer t)) = [] := by
      refine filter_eq_nil_iff.mpr fun t ht => ?_
      simpa using fun hdue => hany ⟨t, ht, hdue⟩
    have hrun := rtTimerCheck_idle hinv hidle (fun t ht hdue =>
      hany ⟨t, hrow ▸ List.mem_of_mem_head? ht, hdue⟩) 0
    exact ⟨2, _, [], hrun, hnone.symm, by simp, by simp⟩

/-- **A list in full rows that is drained meets the conditions.** -/
theorem Holding.drains (hl : TimerList c timer l)
    (h : Holding c tick timer l s) (hinv : Inv c s (fullRows c l)) (hc : Checks c s l) : Drains tick timer l := by
  obtain ⟨rfl, rfl, hidle, _⟩ := h
  obtain ⟨fuel, s', fired, hrun, hdel⟩ := hc
  obtain rfl := hdel.fired_eq
  have hrow : ∀ {lvl}, lvl ≤ c.bottom → fullRows c l (.row .hard lvl) = l := fun hlvl => if_pos hlvl
  by_cases hany : ∃ t ∈ l, expired s.tick (s.timer t)
  · obtain ⟨first, hfirst⟩ : ∃ first, first ∈ l.head? := ⟨_, head_mem_head? (ne_nil_of_mem hany.choose_spec.1)⟩
    have hphase : (s.setPhase .hard (.checking s.tick)).phase .hard = .checking s.tick := by simp [Timers.setPhase]
    have hloop := hrun
    rw [rtTimerCheck, beginCheck_eq hinv.linked hidle] at hloop
    -- the first timer is due, or nothing would be fired
    have hdue : expired s.tick (s.timer first) := by
      refine Classical.byContradiction fun hno => ?_
      obtain ⟨k, rfl⟩ := checkLoop_two hphase hloop
      have hidle := rtTimerCheck_idle hinv hidle (fun t ht => by
        rw [hrow (le_refl _)] at ht
        exact (mem_unique hfirst ht) ▸ hno) k
      rw [hidle] at hrun
      obtain ⟨t, ht, hdue⟩ := hany
      have hin : t ∈ l.filter fun t => expired s.tick (s.timer t) := mem_filter.mpr ⟨ht, by simpa using hdue⟩
      rw [← (Prod.mk.inj (some.inj hrun)).2] at hin
      cases hin
    have hsorted : ∀ lvl, (fullRows c l (.row .hard lvl)).Pairwise fun a b =>
        sub32 (s.timer b).timeoutTick (s.timer a).timeoutTick < halfTickMax := by
      intro lvl
      by_cases hlvl : lvl ≤ c.bottom
      · rw [hrow hlvl]
        exact hl.sorted
      · rw [hinv.linked.high .hard lvl (not_le.mp hlvl)]
        exact List.Pairwise.nil
    have hdr := Holding.draining hl hinv (hrow (le_refl _)) hsorted rfl rfl hidle hfirst hdue
    obtain ⟨hperiod, hchain, _⟩ := hdr.drained (fun lvl hlvl => by rw [hrow hlvl]) hloop
    obtain ⟨B, hB, hbehind⟩ := hdr.row c.bottom (le_refl _)
    rw [hrow (le_refl _)] at hB hbehind
    have hlater : ∀ x ∈ B, ¬ expired s.tick (s.timer x) := fun x hx hd =>
      hbehind.apart x hx (mem_due.mpr ⟨hB ▸ mem_append_right _ hx, hd⟩)
    refine ⟨fun _ t ht => mem_unique hfirst ht ▸ hdue, fun t ht hd hp => hperiod t (mem_due.mpr ⟨ht, hd⟩) hp, ?_⟩
    rw [hB]
    refine isChain_append.mpr ⟨?_, ?_, fun t _ u hu _ _ hd => ?_⟩
    · exact hchain.imp fun a b hab _ hp _ => hab hp
    · refine List.Pairwise.isChain (pairwise_of_forall_mem_list fun a ha _ _ hd => ?_)
      exact absurd hd (hlater a ha)
    · exact absurd hd (hlater u (List.mem_of_mem_head? hu))
  · refine ⟨fun hex => absurd hex hany, fun t ht hd => absurd ⟨t, ht, hd⟩ hany, ?_⟩
    refine List.Pairwise.isChain (pairwise_of_forall_mem_list fun a ha _ _ hd => ?_)
    exact absurd ⟨a, ha, hd⟩ hany

/-- **`rt_timer_check` at one tick.** For every sorted list of timers, in whatever rows: the check ends, fires
the due timers once each in order and puts the periodic ones back, if and only if the first timer is due if any
is, no due periodic timer has a period of 0, and none has one that, with the delay of the next due timer,
exceeds half the range. -/
theorem rtTimerCheck_checks_iff (c : Board) (tick : Nat) (timer : Tid → RtTimer) (l : List Tid)
    (hl : TimerList c timer l) : (∀ s, Holding c tick timer l s → Checks c s l) ↔ Drains tick timer l := by
  constructor
  · intro h
    obtain ⟨s, hs, hinv⟩ := exists_holding tick hl
    exact hs.drains hl hinv (h s hs)
  · intro hd s hs
    exact hs.checks hl hd

/-- Three one-shot timers and two periodic ones, by timeout. -/
def fiveTimers : Fin 5 → RtTimer
  | 0 => ⟨0x1, 9, 3⟩
  | 1 => ⟨0x3, 10, 4⟩
  | 2 => ⟨0x3, 2, 5⟩
  | 3 => ⟨0x1, 20, 5⟩
  | 4 => ⟨0x1, 30, 8⟩

theorem fiveTimers_list : TimerList ⟨1, 0, false, by decide⟩ fiveTimers [0, 1, 2, 3, 4] where
  nodup := by decide
  hard := by decide
  active := by decide
  initTick_lt := by decide
  sorted := by decide

/-- At tick 5 the first four are fired, and the two periodic ones put back. -/
theorem rtTimerCheck_checks_five : ∃ s : Timers (Fin 5),
    Holding ⟨1, 0, false, by decide⟩ 5 fiveTimers [0, 1, 2, 3, 4] s ∧
    Checks ⟨1, 0, false, by decide⟩ s [0, 1, 2, 3, 4] := by
  obtain ⟨s, hs, _⟩ := exists_holding 5 fiveTimers_list
  exact ⟨s, hs, (rtTimerCheck_checks_iff _ 5 _ _ fiveTimers_list).mpr ⟨by decide, by decide, by decide⟩ s hs⟩

/-- A timer of 0 ticks that is due at tick 0. -/
def oneTimer : Fin 1 → RtTimer := fun _ => ⟨0x3, 0, 0⟩

theorem oneTimer_list : TimerList ⟨1, 0, false, by decide⟩ oneTimer [0] where
  nodup := by decide
  hard := by decide
  active := by decide
  initTick_lt := by decide
  sorted := by decide

/-- **A periodic timer of 0 ticks is never drained**: put back for now, it is due again. -/
theorem rtTimerCheck_period_zero : ∃ s : Timers (Fin 1),
    Holding ⟨1, 0, false, by decide⟩ 0 oneTimer [0] s ∧ ¬ Checks ⟨1, 0, false, by decide⟩ s [0] := by
  obtain ⟨s, hs, hinv⟩ := exists_holding 0 oneTimer_list
  refine ⟨s, hs, fun hc => ?_⟩
  exact (hs.drains oneTimer_list hinv hc).period 0 (by simp) (by decide) (by decide) rfl

end RtosKernel.RtThread.Timer
