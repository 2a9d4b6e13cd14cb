import RtosKernel.RtThread.TimerOrder
import RtosKernel.RtThread.TimerState

/-! # A check of the hard timers at one tick

`rt_timer_check` drains the front of the very list into which it puts the periodic timers back. As long as each
periodic one has a period, and lands behind the due ones that follow it, a round fires the first of them and
leaves a list of the same shape. -/
namespace RtosKernel.RtThread.Timer
open Lib.Word Lib.Ring Lib.RingFamily RtThread.Def RtThread.Service List Function

variable {Tid : Type} [dT : DecidableEq Tid] [fT : Fintype Tid]
variable {tick p : Nat} {r : RtTimer} {D : List Tid} {Ds : Nat → List Tid} {k : Kind}

/-- The loop of `rt_timer_check` with timeout functions that do nothing, and the timers whose
timeout functions it calls. -/
def checkLoop (c : Board) : Nat → Timers Tid → Option (Timers Tid × List Tid)
  | 0, _ => none
  | fuel + 1, s =>
    match s.phase .hard with
    | .idle => some (s, [])
    | .checking currentTick => (checkRound c s .hard currentTick).bind fun s => checkLoop c fuel s
    | .callback t => (checkResume c s .hard t).bind fun s =>
      (checkLoop c fuel s).map fun r => (r.1, t :: r.2)

def rtTimerCheck (c : Board) (fuel : Nat) (s : Timers Tid) : Option (Timers Tid × List Tid) :=
  checkLoop c fuel (beginCheck s .hard)

/-- `now - timeout_tick`. -/
def overdue (s : Timers Tid) (t : Tid) : Nat := sub32 s.tick (s.timer t).timeoutTick

variable {c : Board} {s s' : Timers Tid} {rows rows' : Rows Tid} {t x : Tid}

/-! ## Where a restarted timer goes -/

/-- The walk passes a due timer unless that is overdue for so long that the wrapped difference of
the two timeouts is below `RT_TICK_MAX / 2`. -/
theorem passes_due (hp : p < halfTickMax) (hdue : expired tick r) :
    passes (add32 tick p) r ↔ p + sub32 tick r.timeoutTick ≤ 0x80000001 := by
  unfold expired halfTickMax sub32 at hdue
  unfold halfTickMax at hp
  unfold passes halfTickMax sub32 add32
  omega

theorem passes_ahead (hp : p < halfTickMax) (hnear : sub32 r.timeoutTick tick < halfTickMax) :
    passes (add32 tick p) r ↔ sub32 r.timeoutTick tick ≤ p := by
  unfold halfTickMax sub32 at hnear
  unfold halfTickMax at hp
  unfold passes halfTickMax sub32 add32
  omega

theorem expired_ahead (hnear : sub32 r.timeoutTick tick < halfTickMax) :
    expired tick r ↔ sub32 r.timeoutTick tick = 0 := by
  unfold halfTickMax sub32 at hnear
  unfold expired halfTickMax sub32
  omega

theorem ahead_dueTick (hp : p < halfTickMax) : sub32 (add32 tick p) tick = p := by
  unfold halfTickMax at hp
  unfold sub32 add32
  omega

/-! ## The shape of the list in a check -/

/-- The part of a row behind the due timers `D`: it is in order and less than half the range ahead. -/
structure Behind (s : Timers Tid) (D B : List Tid) : Prop where
  near : ∀ x ∈ B, remaining s x < halfTickMax
  sorted : B.Pairwise fun a b => remaining s a ≤ remaining s b
  apart : ∀ x ∈ B, x ∉ D

/-- A check at the head of its loop: each row begins with its due timers, `Ds`, which are in the
last row from the most overdue one on. -/
structure Draining (c : Board) (s : Timers Tid) (rows : Rows Tid) (Ds : Nat → List Tid) : Prop where
  inv : Inv c s rows
  phase : s.phase .hard = .checking s.tick
  initTick_lt : ∀ t ∈ rows (.row .hard c.bottom), (s.timer t).initTick < halfTickMax
  row : ∀ lvl, lvl ≤ c.bottom → ∃ B, rows (.row .hard lvl) = Ds lvl ++ B ∧ Behind s (Ds c.bottom) B
  sub : ∀ lvl, lvl ≤ c.bottom → ∀ x ∈ Ds lvl, x ∈ Ds c.bottom
  due : ∀ x ∈ Ds c.bottom, expired s.tick (s.timer x)
  late : (Ds c.bottom).Pairwise fun a b => overdue s b ≤ overdue s a

omit dT fT in
theorem Behind.congr {D' B : List Tid} (h : Behind s D B) (htick : s'.tick = s.tick)
    (htimer : ∀ x ∈ B, s'.timer x = s.timer x) (hD : ∀ x ∈ D', x ∈ D) : Behind s' D' B := by
  have hrem : ∀ x ∈ B, remaining s' x = remaining s x := fun x hx => by
    rw [remaining, remaining, htick, htimer x hx]
  refine ⟨fun x hx => hrem x hx ▸ h.near x hx, ?_, fun x hx hxD => h.apart x hx (hD x hxD)⟩
  refine List.Pairwise.imp_of_mem (fun {a b} ha hb hab => ?_) h.sorted
  rw [hrem a ha, hrem b hb]
  exact hab

omit fT in
theorem Draining.erase_row {lvl : Nat} (h : Draining c s rows Ds)
    (hD : Ds c.bottom = t :: D) (hlvl : lvl ≤ c.bottom) :
    ∃ B, (rows (.row .hard lvl)).erase t = (Ds lvl).erase t ++ B ∧ Behind s (t :: D) B ∧
      (∀ x ∈ (Ds lvl).erase t, x ∈ D) := by
  obtain ⟨B, hrow, hB⟩ := h.row lvl hlvl
  rw [hD] at hB
  have htB : t ∉ B := fun hm => hB.apart t hm (mem_cons_self ..)
  refine ⟨B, ?_, hB, ?_⟩
  · rw [hrow]
    by_cases ht : t ∈ Ds lvl
    · exact erase_append_left _ ht
    · rw [erase_append_right _ ht, erase_of_not_mem ht, erase_of_not_mem htB]
  · intro x hx
    have hnd : (Ds lvl).Nodup := by
      have := h.inv.linked.nodup (.row .hard lvl)
      rw [hrow] at this
      exact (nodup_append.mp this).1
    obtain ⟨hne, hx⟩ := hnd.mem_erase_iff.mp hx
    have := h.sub lvl hlvl x hx
    rw [hD] at this
    exact (mem_cons.mp this).resolve_left hne

omit dT fT in
theorem Draining.mem_row (h : Draining c s rows Ds) : ∀ x ∈ Ds c.bottom, x ∈ rows (.row .hard c.bottom) := by
  obtain ⟨B, hrow, _⟩ := h.row c.bottom (le_refl _)
  rw [hrow]
  exact fun x hx => mem_append_left _ hx

omit dT fT in
theorem Draining.notMem (h : Draining c s rows Ds) (hD : Ds c.bottom = t :: D) : t ∉ D := by
  have hnd := h.inv.linked.nodup (.row .hard c.bottom)
  obtain ⟨B, hrow, _⟩ := h.row c.bottom (le_refl _)
  rw [hrow, hD] at hnd
  exact (nodup_cons.mp (nodup_append.mp hnd).1).1

omit fT in
theorem Draining.next (h : Draining c s rows Ds)
    (hD : Ds c.bottom = t :: D) (hinv : Inv c s' rows') (hphase : s'.phase .hard = .checking s'.tick)
    (htick : s'.tick = s.tick) (hother : ∀ x, x ≠ t → s'.timer x = s.timer x)
    (hmem : ∀ x ∈ rows' (.row .hard c.bottom), x ≠ t → x ∈ rows (.row .hard c.bottom))
    (ht : t ∈ rows' (.row .hard c.bottom) → (s'.timer t).initTick < halfTickMax)
    (hrow : ∀ lvl, lvl ≤ c.bottom →
      ∃ B, rows' (.row .hard lvl) = (Ds lvl).erase t ++ B ∧ Behind s' D B) :
    Draining c s' rows' fun lvl => (Ds lvl).erase t := by
  have hbottom : (Ds c.bottom).erase t = D := by rw [hD, erase_cons_head]
  have hne : ∀ x ∈ D, x ≠ t := fun x hx => ne_of_mem_of_not_mem hx (h.notMem hD)
  have hlate := h.late
  rw [hD] at hlate
  refine ⟨hinv, hphase, fun x hx => ?_, ?_, ?_, ?_, ?_⟩
  · by_cases hxt : x = t
    · subst hxt
      exact ht hx
    · rw [hother x hxt]
      exact h.initTick_lt x (hmem x hx hxt)
  · rw [hbottom]
    exact hrow
  · intro lvl hlvl x hx
    obtain ⟨_, _, _, hsub⟩ := h.erase_row hD hlvl
    rw [hbottom]
    exact hsub x hx
  · rw [hbottom]
    intro x hx
    rw [htick, hother x (hne x hx)]
    exact h.due x (hD ▸ mem_cons_of_mem t hx)
  · rw [hbottom]
    refine List.Pairwise.imp_of_mem (fun {a b} ha hb hab => ?_) (pairwise_cons.mp hlate).2
    rw [overdue, overdue, htick, hother a (hne a ha), hother b (hne b hb)]
    exact hab

/-! ## One round -/

/-- The timer has been fired and its timeout function has returned; whether it is started again is
still to be decided. -/
structure Fired (c : Board) (s : Timers Tid) (rows : Rows Tid) (t : Tid) (s₁ : Timers Tid) : Prop where
  inv : Inv c s₁ fun i => (rows i).erase t
  tick : s₁.tick = s.tick
  phase : s₁.phase .hard = .checking s.tick
  timer : s₁.timer = update s.timer t (s.timer t).deactivate

omit fT in
theorem Fired.timer_self (hf : Fired c s rows t s') : s'.timer t = (s.timer t).deactivate := by
  rw [hf.timer, update_self]

omit fT in
theorem Fired.dueTick (hf : Fired c s rows t s') : dueTick s' t = add32 s.tick (s.timer t).initTick := by
  rw [Timer.dueTick, hf.tick, hf.timer_self]
  rfl

theorem Draining.fires (h : Draining c s rows Ds) (hD : Ds c.bottom = t :: D) :
    ∃ s₁, Fired c s rows t s₁ ∧ ∀ fuel, checkLoop c (fuel + 2) s =
      (if (s.timer t).periodic then rtTimerStart c s₁ t else some s₁).bind fun s =>
        (checkLoop c fuel s).map fun r => (r.1, t :: r.2) := by
  have hlinked := h.inv.linked
  have hnil : rows (.list .hard) = [] := hlinked.list_nil fun x => by rw [h.phase]; simp
  obtain ⟨B, hrow, _⟩ := h.row c.bottom (le_refl _)
  have hhead : (rows (.row .hard c.bottom)).head? = some t := by rw [hrow, hD]; rfl
  have hact : (s.timer t).activated := h.inv.active .hard t (by rw [hrow, hD]; simp)
  have hdue : expired s.tick (s.timer t) := h.due t (by rw [hD]; exact mem_cons_self ..)
  rcases checkRound_spec h.inv h.phase with ⟨_, hno⟩ | ⟨t', s₁, hhead', _, hround, hex⟩
  · exact absurd hdue (hno t hhead)
  obtain rfl : t = t' := Option.some.inj (hhead.symm.trans hhead')
  -- the timer is on the list of the check
  have hm₁ : Move c (.round .hard) s rows s₁ _ := .expires hnil hex
  have hinv₁ := hm₁.inv h.inv
  have hphase₁ : s₁.phase .hard = .callback t := by rw [hex.phase, update_self]
  have hlist : update (fun i => (rows i).erase t) (.list .hard) [t] (.list .hard) = [t] :=
    update_self ..
  have hrows : (fun i => (update (fun i => (rows i).erase t) (Ring.list .hard) [t] i).erase t) =
      fun i => (rows i).erase t := by
    funext i
    by_cases hi : i = .list .hard
    · subst hi
      rw [update_self, erase_cons_head, hnil]
      rfl
    · rw [update_of_ne hi]
      exact erase_of_not_mem fun hmem => ((hlinked.nodup i).mem_erase_iff.mp hmem).1 rfl
  have hgo : ∀ fuel, checkLoop c (fuel + 2) s = (checkResume c s₁ .hard t).bind fun s =>
      (checkLoop c fuel s).map fun r => (r.1, t :: r.2) := by
    intro fuel
    simp only [checkLoop, h.phase, hround, Option.bind_some, hphase₁]
  rcases checkResume_spec hinv₁ hphase₁ with ⟨hl, _⟩ | ⟨hl, hlinked₂, hcase⟩
  · cases hl
  · -- off that list again, with the flag cleared
    have hm₂ : Move c (.resume .hard) s₁ _ ((resumed c s₁ .hard t).set t (s₁.timer t).deactivate) _ :=
      .leaves hphase₁ hl hlinked₂ (.inr rfl) fun ha => absurd ha deactivate_activated
    have hinv₂ := hm₂.inv hinv₁
    rw [hrows] at hinv₂
    have htick : (resumed c s₁ .hard t).tick = s.tick := hex.tick
    have hphase₂ : (resumed c s₁ .hard t).phase .hard = .checking s.tick := by
      rw [← hex.tick]
      exact update_self (Kind.hard) (Phase.checking s₁.tick) s₁.phase
    by_cases hper : (s.timer t).periodic
    · have hsame : s₁.timer t = s.timer t := by rw [hex.timer, update_self, if_neg (not_not.mpr hper)]
      rcases hcase with ⟨hno, _⟩ | ⟨_, _, hstart⟩
      · rw [hsame] at hno
        exact absurd ⟨hper, hact⟩ hno
      · refine ⟨_, ⟨hinv₂, htick, hphase₂, ?_⟩, fun fuel => ?_⟩
        · rw [hsame]
          change update s₁.timer t _ = _
          rw [hex.timer, update_idem]
        · rw [hgo, hstart, if_pos hper]
    · have hsame : s₁.timer t = (s.timer t).deactivate := by rw [hex.timer, update_self, if_pos hper]
      rcases hcase with ⟨_, hstop⟩ | ⟨hp, _, _⟩
      · have hself : (resumed c s₁ .hard t).set t (s₁.timer t).deactivate = resumed c s₁ .hard t := by
          have hidem : (s₁.timer t).deactivate = s₁.timer t := by
            rw [hsame]
            simp [RtTimer.deactivate, BitVec.and_assoc]
          rw [hidem]
          exact set_self (resumed c s₁ .hard t) t
        rw [hself] at hinv₂
        refine ⟨resumed c s₁ .hard t, ⟨hinv₂, htick, hphase₂, ?_⟩, fun fuel => ?_⟩
        · change s₁.timer = _
          rw [hex.timer, if_pos hper]
        · rw [hgo, hstop, if_neg hper]
      · rw [hsame, deactivate_periodic] at hp
        exact absurd hp hper

omit fT in
theorem Draining.oneshot {s₁ : Timers Tid} (h : Draining c s rows Ds)
    (hD : Ds c.bottom = t :: D) (hf : Fired c s rows t s₁) :
    Draining c s₁ (fun i => (rows i).erase t) fun lvl => (Ds lvl).erase t := by
  have hother : ∀ x, x ≠ t → s₁.timer x = s.timer x := fun x hx => by
    rw [hf.timer, update_of_ne hx]
  refine h.next hD hf.inv (hf.tick ▸ hf.phase) hf.tick hother (fun x hx _ => mem_of_mem_erase hx)
    (fun ht => ?_) fun lvl hlvl => ?_
  · exact absurd rfl ((h.inv.linked.nodup _).mem_erase_iff.mp ht).1
  · obtain ⟨B, hrow, hB, _⟩ := h.erase_row hD hlvl
    refine ⟨B, hrow, hB.congr hf.tick (fun x hx => hother x fun e => ?_) fun x hx => mem_cons_of_mem t hx⟩
    exact hB.apart x hx (e ▸ mem_cons_self ..)

omit dT fT in
theorem Behind.insert {a b : List Tid} (h : Behind s (t :: D) (a ++ b)) (htick : s'.tick = s.tick)
    (hother : ∀ x, x ≠ t → s'.timer x = s.timer x) (hD : t ∉ D) (hnear : remaining s' t < halfTickMax)
    (ha : ∀ x ∈ a, remaining s x ≤ remaining s' t) (hb : ∀ x ∈ b, remaining s' t ≤ remaining s x) :
    Behind s' D (a ++ t :: b) := by
  have hsame : ∀ x ∈ a ++ b, s'.timer x = s.timer x := fun x hx =>
    hother x fun e => h.apart x hx (e ▸ mem_cons_self ..)
  have hold : Behind s' D (a ++ b) := h.congr htick hsame fun x hx => mem_cons_of_mem t hx
  have hrem : ∀ x ∈ a ++ b, remaining s' x = remaining s x := fun x hx => by
    rw [remaining, remaining, htick, hsame x hx]
  obtain ⟨hpa, hpb, hpab⟩ := pairwise_append.mp hold.sorted
  have hmem : ∀ x ∈ a ++ t :: b, x = t ∨ x ∈ a ++ b := fun x hx => by
    simp only [mem_append, mem_cons] at hx ⊢
    tauto
  refine ⟨fun x hx => ?_, ?_, fun x hx => ?_⟩
  · rcases hmem x hx with rfl | hx
    · exact hnear
    · exact hold.near x hx
  · refine pairwise_append.mpr ⟨hpa, pairwise_cons.mpr ⟨fun x hx => ?_, hpb⟩, fun x hx y hy => ?_⟩
    · rw [hrem x (mem_append_right _ hx)]
      exact hb x hx
    · rcases mem_cons.mp hy with rfl | hy
      · rw [hrem x (mem_append_left _ hx)]
        exact ha x hx
      · exact hpab x hx y hy
  · rcases hmem x hx with rfl | hx
    · exact hD
    · exact hold.apart x hx

omit [DecidableEq Tid] [Fintype Tid] in
theorem cut_behind {B l r : List Tid} (h : D ++ B = l ++ r) (hr : ∀ x ∈ D, x ∉ r) : ∃ a, l = D ++ a ∧ B = a ++ r := by
  rcases append_eq_append_iff.mp h with ⟨a, hl, hB⟩ | ⟨a, hD, hr'⟩
  · exact ⟨a, hl, hB⟩
  · cases a with
    | nil => exact ⟨[], by simpa using hD.symm, by simpa using hr'.symm⟩
    | cons x a =>
      refine absurd ?_ (hr x (by simp [hD]))
      rw [hr']
      exact mem_cons_self ..

/-- What a check leaves of a periodic timer that was fired. -/
structure Restarted (s : Timers Tid) (t : Tid) (r : RtTimer) : Prop where
  activated : r.activated
  timeout : r.timeoutTick = add32 s.tick (s.timer t).initTick
  initTick : r.initTick = (s.timer t).initTick

/-- **A periodic timer goes back** behind the due ones, when it passes them all. -/
theorem Draining.restart {s₁ : Timers Tid} (h : Draining c s rows Ds)
    (hD : Ds c.bottom = t :: D) (hf : Fired c s rows t s₁)
    (hpass : ∀ x ∈ D, (s.timer t).initTick + overdue s x ≤ 0x80000001) :
    ∃ s₂ rows₂, rtTimerStart c s₁ t = some s₂ ∧ Draining c s₂ rows₂ (fun lvl => (Ds lvl).erase t) ∧
      s₂.tick = s.tick ∧ (∀ x, x ≠ t → s₂.timer x = s.timer x) ∧ Restarted s t (s₂.timer t) ∧
      ∀ x, x ∈ rows₂ (.row .hard c.bottom) ↔ x ∈ rows (.row .hard c.bottom) := by
  have hin : t ∈ rows (.row .hard c.bottom) := h.mem_row t (by simp [hD])
  have hp := h.initTick_lt t hin
  have hmine₁ := hf.timer_self
  have hother₁ : ∀ x, x ≠ t → s₁.timer x = s.timer x := fun x hx => by rw [hf.timer, update_of_ne hx]
  have hkind : kindOf c (s₁.timer t) = .hard := by
    rw [hmine₁, kindOf_deactivate]
    exact h.inv.linked.kind .hard c.bottom t hin
  have hdueTick := hf.dueTick
  obtain ⟨s₂, rows₂, ls, rs, lowest, hstart, hs⟩ := rtTimerStart_spec hf.inv.linked t
  have hinv₂ := hs.inv hf.inv
  have htick : s₂.tick = s.tick := hs.tick.trans hf.tick
  have hother : ∀ x, x ≠ t → s₂.timer x = s.timer x := fun x hx => by
    rw [hs.timer, update_of_ne hx, hother₁ x hx]
  have hre : Restarted s t (s₂.timer t) := by
    rw [hs.timer, update_self]
    have hinit : (s₁.timer t).initTick = (s.timer t).initTick := by rw [hmine₁]; rfl
    exact ⟨activate_activated, hdueTick, hinit⟩
  have hahead : remaining s₂ t = (s.timer t).initTick := by
    rw [remaining, htick, hre.timeout]
    exact ahead_dueTick hp
  -- the rows the timer is put into
  have herase : ∀ lvl, ((rows (.row .hard lvl)).erase t).erase t = (rows (.row .hard lvl)).erase t := fun lvl =>
    erase_of_not_mem fun hm => ((h.inv.linked.nodup _).mem_erase_iff.mp hm).1 rfl
  have hsplit := hs.split
  have hpassed := hs.passed
  have hrows := hs.rows_eq
  rw [hkind] at hsplit hpassed hrows
  simp only [herase] at hsplit hpassed
  rw [hdueTick] at hpassed
  have hdone : ∀ x ∈ D, passes (add32 s.tick (s.timer t).initTick) (s.timer x) := fun x hx =>
    (passes_due hp (h.due x (hD ▸ mem_cons_of_mem t hx))).mpr (hpass x hx)
  have hclosed : ∀ lvl, Closed s₁ (add32 s.tick (s.timer t).initTick) ((rows (.row .hard lvl)).erase t) := by
    intro lvl
    by_cases hlvl : lvl ≤ c.bottom
    · obtain ⟨B, hrow, hB, hsub⟩ := h.erase_row hD hlvl
      have hne : ∀ x ∈ (rows (.row .hard lvl)).erase t, x ≠ t := fun x hx =>
        ((h.inv.linked.nodup _).mem_erase_iff.mp hx).1
      have hfirst : ∀ x ∈ (Ds lvl).erase t, passes (add32 s.tick (s.timer t).initTick) (s₁.timer x) := by
        intro x hx
        rw [hother₁ x (hne x (hrow ▸ mem_append_left _ hx))]
        exact hdone x (hsub x hx)
      rw [hrow]
      refine pairwise_append.mpr ⟨?_, ?_, fun a ha b _ _ => hfirst a ha⟩
      · exact pairwise_of_forall_mem_list fun a ha b _ _ => hfirst a ha
      · refine List.Pairwise.imp_of_mem (fun {a b} ha hb hab hpb => ?_) hB.sorted
        rw [hother₁ a (hne a (hrow ▸ mem_append_right _ ha)), passes_ahead hp (hB.near a ha)]
        rw [hother₁ b (hne b (hrow ▸ mem_append_right _ hb)), passes_ahead hp (hB.near b hb)] at hpb
        exact hab.trans hpb
    · rw [h.inv.linked.high .hard lvl (by omega)]
      exact List.Pairwise.nil
  have hcut := hpassed hclosed
  have hmem := hs.mem_bottom hf.inv .hard
  rw [hkind] at hmem
  have hbottom : ∀ x, x ∈ rows₂ (.row .hard c.bottom) ↔ x ∈ rows (.row .hard c.bottom) := by
    intro x
    rw [hmem, (h.inv.linked.nodup _).mem_erase_iff]
    by_cases hx : x = t
    · simp [hx, hin]
    · simp [hx]
  refine ⟨s₂, rows₂, hstart, ?_, htick, hother, hre, hbottom⟩
  refine h.next hD hinv₂ ?_ htick hother (fun x hx _ => (hbottom x).mp hx) (fun _ => hre.initTick ▸ hp)
    fun lvl hlvl => ?_
  · rw [hs.phase, hf.phase, htick]
  · obtain ⟨B, hrow, hB, hsub⟩ := h.erase_row hD hlvl
    obtain ⟨hl, hr⟩ := hcut lvl hlvl
    have hne : ∀ x ∈ ls lvl ++ rs lvl, x ≠ t := fun x hx => by
      rw [← hsplit lvl hlvl] at hx
      exact ((h.inv.linked.nodup _).mem_erase_iff.mp hx).1
    have hr' : ∀ x ∈ rs lvl, ¬ passes (add32 s.tick (s.timer t).initTick) (s.timer x) := fun x hx => by
      rw [← hother₁ x (hne x (mem_append_right _ hx))]
      exact hr x hx
    obtain ⟨a, ha, rfl⟩ := cut_behind (hrow.symm.trans (hsplit lvl hlvl)) fun x hx hxr =>
      hr' x hxr (hdone x (hsub x hx))
    rw [hrows]
    simp only [placed, true_and, hlvl, and_true]
    split
    · refine ⟨a ++ t :: rs lvl, by rw [ha, append_assoc], ?_⟩
      refine hB.insert htick hother (h.notMem hD) (hahead ▸ hp) (fun x hx => ?_) fun x hx => ?_
      · rw [hahead]
        refine (passes_ahead hp (hB.near x (mem_append_left _ hx))).mp ?_
        have hxl : x ∈ ls lvl := ha ▸ mem_append_right _ hx
        rw [← hother₁ x (hne x (mem_append_left _ hxl))]
        exact hl x hxl
      · rw [hahead]
        have hgt := (passes_ahead hp (hB.near x (mem_append_right _ hx))).not.mp (hr' x hx)
        exact (not_le.mp hgt).le
    · refine ⟨a ++ rs lvl, ?_, hB.congr htick (fun x hx => hother x fun e => ?_) fun x hx => mem_cons_of_mem t hx⟩
      · rw [herase]
        exact hrow
      · exact hB.apart x hx (e ▸ mem_cons_self ..)

/-! ## A timer that goes to the front -/

omit fT in
theorem walkRow_stops {T lvl : Nat} {y : Tid} {l : List Tid} (h : Linked c s rows)
    (hrow : rows (.row k lvl) = y :: l) (hno : ¬ passes T (s.timer y)) (fuel : Nat) :
    walkRow s k T lvl (fuel + 1) (.head k lvl) = some (.head k lvl) := by
  have hnext : s.links.next (.head k lvl) = .row y lvl := by
    rw [(h.ring k lvl).next_head, hrow]
    rfl
  rw [walkRow]
  split
  · simp [hnext, entry, hno]
  · rfl

theorem walkRows_stops {T : Nat} (h : Linked c s rows)
    (hno : ∀ lvl, lvl ≤ c.bottom → ∃ y l, rows (.row k lvl) = y :: l ∧ ¬ passes T (s.timer y)) :
    ∀ {n lvl : Nat} (rowHead : Nat → Node Tid), lvl + (n + 1) = c.skipListLevel → rowHead lvl = .head k lvl →
      ∃ rowHead', walkRows (enough Tid) s k T (n + 1) lvl rowHead = some rowHead' ∧
        (∀ j, j < lvl → rowHead' j = rowHead j) ∧ ∀ j, lvl ≤ j → j ≤ c.bottom → rowHead' j = .head k j
  | n, lvl, rowHead, hn, hstart => by
    have hbottom := c.bottom_add
    obtain ⟨y, l, hrow, hy⟩ := hno lvl (by omega)
    have hwalk : walkRow s k T lvl (enough Tid) (rowHead lvl) = some (.head k lvl) := by
      rw [hstart]
      exact walkRow_stops h hrow hy _
    cases n with
    | zero =>
      refine ⟨update rowHead lvl (.head k lvl), ?_, fun j hj => ?_, fun j hj hj' => ?_⟩
      · simp only [walkRows, hwalk, bind, Option.bind_some, ne_eq, not_true_eq_false, if_false]
      · exact update_of_ne (by omega) _ _
      · obtain rfl : j = lvl := by omega
        exact update_self ..
    | succ n =>
      obtain ⟨rowHead', hw, hlow, hhigh⟩ := walkRows_stops h hno
        (update (update rowHead lvl (.head k lvl)) (lvl + 1) (.head k (lvl + 1)))
        (show lvl + 1 + (n + 1) = c.skipListLevel by omega) (update_self ..)
      refine ⟨rowHead', ?_, fun j hj => ?_, fun j hj hj' => ?_⟩
      · rw [walkRows, hwalk]
        exact hw
      · rw [hlow j (by omega), update_of_ne (by omega), update_of_ne (by omega)]
      · rcases Nat.eq_or_lt_of_le hj with rfl | hlt
        · rw [hlow lvl (by omega), update_of_ne (by omega), update_self]
        · exact hhigh j hlt hj'

omit fT in
theorem insertRows_next {rowHead : Nat → Node Tid} : ∀ {lvl : Nat} (tstNr : Nat) (m : RtList (Node Tid)),
    lvl ≤ c.bottom → (∀ j, j < lvl → rowHead j = .head k j) →
    (insertRows c rowHead t lvl tstNr m).next (.head k c.bottom) = m.next (.head k c.bottom)
  | 0, _, _, _, _ => rfl
  | lvl + 1, tstNr, m, hlvl, hhead => by
    rw [insertRows]
    split
    · rw [insertRows_next _ _ (Nat.le_of_succ_le hlvl) fun j hj => hhead j (Nat.lt_succ_of_lt hj),
        hhead lvl (Nat.lt_succ_self lvl)]
      have hne : (Node.head k c.bottom : Node Tid) ≠ .head k lvl := fun e => by
        have := (Node.head.inj e).2
        omega
      simp [rtListInsertAfter, hne]
    · rfl

theorem rtTimerStart_front {ls rs : Nat → List Tid} {lowest : Nat} (h : Linked c s rows)
    (hk : kindOf c (s.timer t) = k) (hgo : rtTimerStart c s t = some s')
    (hs : Starts c s rows t s' rows' ls rs lowest)
    (hno : ∀ lvl, lvl ≤ c.bottom → ∃ y l, (rows (.row k lvl)).erase t = y :: l ∧
      ¬ passes (dueTick s t) (s.timer y)) : (rows' (.row k c.bottom)).head? = some t := by
  set s₁ := (timerRemove c s t).set t { (s.timer t).deactivate with timeoutTick := dueTick s t } with hs₁
  have hmine : s₁.timer t = { (s.timer t).deactivate with timeoutTick := dueTick s t } := update_self ..
  have hkind : kindOf c (s₁.timer t) = k := by
    rw [hmine, ← hk]
    exact kindOf_deactivate (r := s.timer t) c
  have hfresh : ∀ i, t ∉ (rows i).erase t := fun i hm => ((h.nodup i).mem_erase_iff.mp hm).1 rfl
  have hlinked : Linked c s₁ fun i => (rows i).erase t := by
    have hremove := timerRemove_linked h t
    refine ⟨hremove.holds, hremove.high, hremove.below, fun k' lvl x hx => ?_, hremove.onList⟩
    have hx' : s₁.timer x = s.timer x := update_of_ne (ne_of_mem_of_not_mem hx (hfresh _)) _ _
    rw [hx']
    exact hremove.kind k' lvl x hx
  have hno₁ : ∀ lvl, lvl ≤ c.bottom → ∃ y l, (rows (.row k lvl)).erase t = y :: l ∧
      ¬ passes (dueTick s t) (s₁.timer y) := by
    intro lvl hlvl
    obtain ⟨y, l, hrow, hy⟩ := hno lvl hlvl
    have hyt : y ≠ t := fun e => hfresh (.row k lvl) (by rw [hrow, e]; exact mem_cons_self ..)
    have hy' : s₁.timer y = s.timer y := update_of_ne hyt _ _
    exact ⟨y, l, hrow, hy'.symm ▸ hy⟩
  obtain ⟨rowHead, hwalk, _, hhead⟩ := walkRows_stops hlinked hno₁
    (fun _ => .head k 0) (show 0 + (c.bottom + 1) = c.skipListLevel by have := c.bottom_add; omega) rfl
  -- the last row is linked first
  have hnext : s'.links.next (.head k c.bottom) = .row t c.bottom := by
    have hdo : rtTimerStart c s t = (insertTimer c s₁ t).bind fun s =>
        some { s.set t (s.timer t).activate with started := s.started.erase t ++ [t] } := rfl
    have htick : (s₁.timer t).timeoutTick = dueTick s t := by rw [hmine]
    rw [hdo, insertTimer, hkind, htick, ← c.bottom_add, hwalk] at hgo
    obtain rfl := Option.some.inj hgo
    have hrest := insertRows_next (t := t) (add32 s₁.randomNr 1)
      (rtListInsertAfter s₁.links (rowHead c.bottom) (.row t c.bottom)) (le_refl c.bottom)
      fun j hj => hhead j (Nat.zero_le j) hj.le
    refine hrest.trans ?_
    rw [hhead c.bottom (Nat.zero_le _) (le_refl _)]
    exact update_self ..
  have hring := (hs.linked.ring k c.bottom).next_head
  rw [hnext] at hring
  cases hrow : rows' (.row k c.bottom) with
  | nil =>
    rw [hrow] at hring
    cases hring
  | cons a l =>
    rw [hrow] at hring
    obtain rfl : t = a := (Node.row.inj hring).1
    rfl

end RtosKernel.RtThread.Timer
