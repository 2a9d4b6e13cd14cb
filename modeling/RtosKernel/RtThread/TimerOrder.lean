import RtosKernel.Lib.Runs
import RtosKernel.RtThread.TimerRuns

/-! # The order of the hard timers

`rt_timer_check` runs at every tick, so a timer of the list is due at most one
tick ago and at most `RT_TICK_MAX / 2` ahead: counted from the tick before the
present one, the ticks up to the timeouts do not wrap, and comparing these is
what the wrapped comparisons of `rt_timer_start` and `rt_timer_check` do. -/
namespace RtosKernel.RtThread.Timer
open Lib.Word Lib.Ring RtThread.Def RtThread.Service List Function

variable {Tid : Type}

/-- The ticks from the one before the present to the timeout of a timer. -/
def lead (s : Timers Tid) (t : Tid) : Nat := sub32 ((s.timer t).timeoutTick + 1) s.tick

/-- `timeout_tick - now`. -/
def remaining (s : Timers Tid) (t : Tid) : Nat := sub32 (s.timer t).timeoutTick s.tick

/-- `a` is due before `b`, or at the same tick and was started before. -/
def Precedes (s : Timers Tid) (a b : Tid) : Prop :=
  lead s a < lead s b ∨ lead s a = lead s b ∧ [a, b].Sublist s.started

/-- The rows of the hard timers are in order, each a part of the row below. -/
structure Ordered (c : Board) (s : Timers Tid) (rows : Rows Tid) : Prop where
  tick_lt : s.tick < 2 ^ 32
  timeout_lt : ∀ t, (s.timer t).timeoutTick < 2 ^ 32
  initTick_lt : ∀ t, (s.timer t).initTick < halfTickMax
  current : ∀ currentTick, s.phase .hard = .checking currentTick → currentTick = s.tick
  ahead : s.phase .hard = .idle → ∀ t ∈ rows (.row .hard c.bottom), 1 ≤ lead s t
  near : ∀ t ∈ rows (.row .hard c.bottom), lead s t ≤ halfTickMax
  sorted : (rows (.row .hard c.bottom)).Pairwise (Precedes s)
  sub : ∀ lvl, lvl < c.bottom → (rows (.row .hard lvl)).Sublist (rows (.row .hard (lvl + 1)))

variable {c : Board} {s s' : Timers Tid} {rows rows' : Rows Tid} {k : Kind} {t x a b : Tid}

theorem initial_ordered {tick randomNr : Nat} {time : Tid → Nat} {flag : Tid → BitVec 8}
    (htick : tick < 2 ^ 32) (htime : ∀ t, time t < halfTickMax) :
    Ordered c (initial tick randomNr time flag) fun _ => [] where
  tick_lt := htick
  timeout_lt _ := by simp [initial, timerInit]
  initTick_lt := htime
  current _ hp := by simp [initial] at hp
  ahead _ t ht := by simp at ht
  near t ht := by simp at ht
  sorted := List.Pairwise.nil
  sub _ _ := List.Sublist.refl _

/-! ## Wrapped comparisons -/

theorem lead_congr (htimeout : (s'.timer t).timeoutTick = (s.timer t).timeoutTick)
    (htick : s'.tick = s.tick) : lead s' t = lead s t := by
  rw [lead, lead, htimeout, htick]

section
variable (h : Ordered c s rows)
include h

theorem passes_iff (t : Tid) (hx : lead s x ≤ halfTickMax) :
    passes (dueTick s t) (s.timer x) ↔ lead s x ≤ (s.timer t).initTick + 1 := by
  have h3 := h.initTick_lt t
  unfold lead halfTickMax sub32 at *
  unfold passes dueTick halfTickMax sub32 add32
  omega

omit h in
theorem expired_iff (hx : lead s x ≤ halfTickMax) : expired s.tick (s.timer x) ↔ lead s x ≤ 1 := by
  unfold lead halfTickMax sub32 at *
  unfold expired halfTickMax sub32
  omega

theorem lead_dueTick (t : Tid) : sub32 (dueTick s t + 1) s.tick = (s.timer t).initTick + 1 := by
  have h3 := h.initTick_lt t
  unfold dueTick add32 sub32 halfTickMax at *
  omega

omit h in
theorem lead_next (hx : 1 ≤ lead s x) : sub32 ((s.timer x).timeoutTick + 1) (add32 s.tick 1) = lead s x - 1 := by
  unfold lead sub32 at *
  unfold add32
  omega

omit h in
theorem remaining_eq (hx : 1 ≤ lead s x) : remaining s x = lead s x - 1 := by
  unfold lead sub32 at *
  unfold remaining sub32
  omega

end

theorem Precedes.le (h : Precedes s a b) : lead s a ≤ lead s b := by
  rcases h with h | h
  · exact h.le
  · exact h.1.le

/-! ## Moves keep the order -/

/-- The phase of the check of the hard timers may leave a check's loop. -/
structure SamePhase (s s' : Timers Tid) : Prop where
  current : ∀ currentTick, s'.phase .hard = .checking currentTick → currentTick = s'.tick
  idle : s'.phase .hard = .idle → s.phase .hard = .idle

theorem Ordered.samePhase (h : Ordered c s rows) (hp : s'.phase .hard = s.phase .hard)
    (htick : s'.tick = s.tick) : SamePhase s s' where
  current ct hc := by rw [htick]; exact h.current ct (hp ▸ hc)
  idle hi := hp ▸ hi

theorem Ordered.shrink (h : Ordered c s rows) (hphase : SamePhase s s') (htick : s'.tick = s.tick)
    (htimeout : ∀ x, (s'.timer x).timeoutTick = (s.timer x).timeoutTick)
    (hinit : ∀ x, (s'.timer x).initTick < halfTickMax)
    (hrows : ∀ lvl, (rows' (.row .hard lvl)).Sublist (rows (.row .hard lvl)))
    (hsub : ∀ lvl, lvl < c.bottom → (rows' (.row .hard lvl)).Sublist (rows' (.row .hard (lvl + 1))))
    (hstarted : ∀ a ∈ rows' (.row .hard c.bottom), ∀ b ∈ rows' (.row .hard c.bottom),
      [a, b].Sublist s.started → [a, b].Sublist s'.started) : Ordered c s' rows' := by
  have hlead : ∀ x, lead s' x = lead s x := fun x => lead_congr (htimeout x) htick
  refine ⟨htick ▸ h.tick_lt, fun x => htimeout x ▸ h.timeout_lt x, hinit, hphase.current,
    fun hp x hx => ?_, fun x hx => ?_, ?_, hsub⟩
  · rw [hlead]
    exact h.ahead (hphase.idle hp) x ((hrows _).subset hx)
  · rw [hlead]
    exact h.near x ((hrows _).subset hx)
  · refine List.Pairwise.imp_of_mem (fun {a b} ha hb hab => ?_) (h.sorted.sublist (hrows c.bottom))
    unfold Precedes at hab ⊢
    rw [hlead, hlead]
    exact hab.imp id fun ⟨he, hst⟩ => ⟨he, hstarted a ha b hb hst⟩

variable [dT : DecidableEq Tid] [fT : Fintype Tid]

omit fT in
theorem pair_erase (ha : a ≠ t) (hb : b ≠ t) {l : List Tid} (h : [a, b].Sublist l) : [a, b].Sublist (l.erase t) := by
  have := h.erase t
  rwa [erase_of_not_mem (by simp [ha.symm, hb.symm])] at this

omit fT in
theorem Ordered.erase (h : Ordered c s rows) (hinv : Inv c s rows) (hphase : SamePhase s s')
    (htick : s'.tick = s.tick) (htimeout : ∀ x, (s'.timer x).timeoutTick = (s.timer x).timeoutTick)
    (hinit : ∀ x, (s'.timer x).initTick = (s.timer x).initTick)
    (hrows : ∀ lvl, rows' (.row .hard lvl) = (rows (.row .hard lvl)).erase t)
    (hstarted : s'.started = s.started.erase t) : Ordered c s' rows' := by
  have hne : ∀ x ∈ rows' (.row .hard c.bottom), x ≠ t := fun x hx => by
    rw [hrows, (hinv.linked.nodup _).mem_erase_iff] at hx
    exact hx.1
  refine h.shrink hphase htick htimeout (fun x => hinit x ▸ h.initTick_lt x) (fun lvl => ?_)
    (fun lvl hlvl => ?_) fun a ha b hb hst => ?_
  · rw [hrows]
    exact erase_sublist
  · rw [hrows, hrows]
    exact (h.sub lvl hlvl).erase t
  · rw [hstarted]
    exact pair_erase (hne a ha) (hne b hb) hst

omit dT fT in
theorem Ordered.sub_bottom (h : Ordered c s rows) : ∀ {n lvl : Nat}, lvl + n = c.bottom →
    (rows (.row .hard lvl)).Sublist (rows (.row .hard c.bottom))
  | 0, lvl, hn => by
    obtain rfl : lvl = c.bottom := by omega
    exact List.Sublist.refl _
  | n + 1, lvl, hn =>
    (h.sub lvl (by omega)).trans (h.sub_bottom (show lvl + 1 + n = c.bottom by omega))

omit fT in
theorem Ordered.closed (h : Ordered c s rows) (hinv : Inv c s rows) (t : Tid) (lvl : Nat) :
    Closed s (dueTick s t) ((rows (.row .hard lvl)).erase t) := by
  by_cases hlvl : lvl ≤ c.bottom
  · have hsub : ((rows (.row .hard lvl)).erase t).Sublist (rows (.row .hard c.bottom)) :=
      erase_sublist.trans (h.sub_bottom (show lvl + (c.bottom - lvl) = c.bottom by omega))
    refine List.Pairwise.imp_of_mem (fun {a b} ha hb hab hpass => ?_) (h.sorted.sublist hsub)
    have hb' := h.near b (hsub.subset hb)
    rw [passes_iff h t (h.near a (hsub.subset ha))]
    exact hab.le.trans ((passes_iff h t hb').mp hpass)
  · rw [hinv.linked.high .hard lvl (by omega)]
    exact List.Pairwise.nil

omit [DecidableEq Tid] [Fintype Tid] in
theorem sublist_cut {p : Tid → Prop} [DecidablePred p] {l1 r1 l2 r2 : List Tid}
    (h : (l1 ++ r1).Sublist (l2 ++ r2)) (hl1 : ∀ x ∈ l1, p x) (hr1 : ∀ x ∈ r1, ¬ p x)
    (hl2 : ∀ x ∈ l2, p x) (hr2 : ∀ x ∈ r2, ¬ p x) : l1.Sublist l2 ∧ r1.Sublist r2 := by
  have hl : ∀ {l r : List Tid}, (∀ x ∈ l, p x) → (∀ x ∈ r, ¬ p x) → (l ++ r).filter (p ·) = l := by
    intro l r hl hr
    rw [filter_append, List.filter_eq_self.mpr (by simpa using hl),
      filter_eq_nil_iff.mpr (by simpa using hr), List.append_nil]
  have hr : ∀ {l r : List Tid}, (∀ x ∈ l, p x) → (∀ x ∈ r, ¬ p x) → (l ++ r).filter (¬ p ·) = r := by
    intro l r hl hr
    rw [filter_append, filter_eq_nil_iff.mpr (by simpa using hl),
      List.filter_eq_self.mpr (by simpa using hr), nil_append]
  have hfl := h.filter (p ·)
  have hfr := h.filter (¬ p ·)
  rw [hl hl1 hr1, hl hl2 hr2] at hfl
  rw [hr hl1 hr1, hr hl2 hr2] at hfr
  exact ⟨hfl, hfr⟩

variable {ls rs : Nat → List Tid}

section
variable {lowest : Nat} (hs : Starts c s rows t s' rows' ls rs lowest)
include hs

omit fT in
theorem Starts.lead_eq (hx : x ≠ t) : lead s' x = lead s x :=
  lead_congr (by rw [hs.timer, update_of_ne hx]) hs.tick

omit fT in
theorem Starts.precedes (ha : a ≠ t) (hb : b ≠ t) (h : Precedes s a b) : Precedes s' a b := by
  unfold Precedes at h ⊢
  rw [hs.lead_eq ha, hs.lead_eq hb, hs.started]
  exact h.imp id fun ⟨he, hst⟩ => ⟨he, (pair_erase ha hb hst).trans (sublist_append_left _ _)⟩

variable (h : Ordered c s rows)
include h

omit fT in
theorem Starts.ordered_of
    (hlead : ∀ x ∈ rows' (.row .hard c.bottom), (s.phase .hard = .idle → 1 ≤ lead s' x) ∧ lead s' x ≤ halfTickMax)
    (hsorted : (rows' (.row .hard c.bottom)).Pairwise (Precedes s'))
    (hsub : ∀ lvl, lvl < c.bottom → (rows' (.row .hard lvl)).Sublist (rows' (.row .hard (lvl + 1)))) : Ordered c s' rows' := by
  refine ⟨hs.tick ▸ h.tick_lt, fun x => ?_, fun x => ?_, fun ct hc => ?_, fun hp x hx => (hlead x hx).1 (hs.phase ▸ hp),
    fun x hx => (hlead x hx).2, hsorted, hsub⟩
  · by_cases hx : x = t
    · rw [hx, hs.timer, update_self]
      exact add32_lt _ _
    · rw [hs.timer, update_of_ne hx]
      exact h.timeout_lt x
  · by_cases hx : x = t
    · rw [hx, hs.timer, update_self]
      exact h.initTick_lt t
    · rw [hs.timer, update_of_ne hx]
      exact h.initTick_lt x
  · rw [hs.tick]
    exact h.current ct (hs.phase ▸ hc)

variable (hinv : Inv c s rows)
include hinv

omit fT in
theorem Starts.ordered_hard (hk : kindOf c (s.timer t) = .hard) : Ordered c s' rows' := by
  have hpassed := hs.passed (by rw [hk]; exact h.closed hinv t)
  have hsplit := hs.split
  rw [hk] at hsplit
  have hle := hs.lowest_le
  have hrow : ∀ lvl, lvl ≤ c.bottom → rows' (.row .hard lvl) =
      if lowest ≤ lvl then ls lvl ++ t :: rs lvl else (rows (.row .hard lvl)).erase t := by
    intro lvl hlvl
    rw [hs.rows_eq, hk]
    simp only [placed, true_and, hlvl, and_true]
  have hbottom : rows' (.row .hard c.bottom) = ls c.bottom ++ t :: rs c.bottom := by
    rw [hrow _ (le_refl _), if_pos hle]
  obtain ⟨hl, hr⟩ := hpassed c.bottom (le_refl _)
  -- the timers that were there keep their leads
  have hold : ∀ x ∈ ls c.bottom ++ rs c.bottom, x ≠ t ∧ x ∈ rows (.row .hard c.bottom) := fun x hx => by
    rw [← hsplit c.bottom (le_refl _), (hinv.linked.nodup _).mem_erase_iff] at hx
    exact hx
  have hleadt : lead s' t = (s.timer t).initTick + 1 := by
    rw [lead, hs.timer, update_self, hs.tick]
    exact lead_dueTick h t
  have hinl : ∀ x ∈ ls c.bottom, x ≠ t ∧ x ∈ rows (.row .hard c.bottom) := fun x hx =>
    hold x (mem_append_left _ hx)
  have hinr : ∀ x ∈ rs c.bottom, x ≠ t ∧ x ∈ rows (.row .hard c.bottom) := fun x hx =>
    hold x (mem_append_right _ hx)
  have hmem : ∀ x ∈ rows' (.row .hard c.bottom), x = t ∨ x ≠ t ∧ x ∈ rows (.row .hard c.bottom) := by
    intro x hx
    rw [hbottom, mem_append, mem_cons] at hx
    rcases hx with hx | hx | hx
    · exact .inr (hinl x hx)
    · exact .inl hx
    · exact .inr (hinr x hx)
  have hinit := h.initTick_lt t
  refine hs.ordered_of h (fun x hx => ?_) ?_ fun lvl hlvl => ?_
  · rcases hmem x hx with rfl | ⟨hne, hx⟩
    · omega
    · rw [hs.lead_eq hne]
      exact ⟨fun hp => h.ahead hp x hx, h.near x hx⟩
  · -- the new timer stands behind those due no later and before the others
    have hpair : (ls c.bottom ++ rs c.bottom).Pairwise (Precedes s') := by
      rw [← hsplit c.bottom (le_refl _)]
      refine List.Pairwise.imp_of_mem (fun {a b} ha hb hab => ?_) (h.sorted.sublist erase_sublist)
      rw [(hinv.linked.nodup _).mem_erase_iff] at ha hb
      exact hs.precedes ha.1 hb.1 hab
    obtain ⟨hpl, hpr, hlr⟩ := pairwise_append.mp hpair
    rw [hbottom]
    refine pairwise_append.mpr ⟨hpl, pairwise_cons.mpr ⟨fun x hx => .inl ?_, hpr⟩, fun x hx y hy => ?_⟩
    · obtain ⟨hne, hxrow⟩ := hinr x hx
      have := (passes_iff h t (h.near x hxrow)).not.mp (hr x hx)
      rw [hs.lead_eq hne, hleadt]
      omega
    · rcases mem_cons.mp hy with rfl | hy
      · obtain ⟨hne, hxrow⟩ := hinl x hx
        have hxl := (passes_iff h y (h.near x hxrow)).mp (hl x hx)
        unfold Precedes
        rw [hs.lead_eq hne, hleadt, hs.started]
        rcases Nat.lt_or_eq_of_le hxl with hlt | heq
        · exact .inl hlt
        · have hxst : x ∈ s.started.erase y :=
            hinv.nodup.mem_erase_iff.mpr ⟨hne, ((hinv.started _ x).mp hxrow).1⟩
          exact .inr ⟨heq, (singleton_sublist.mpr hxst).append (List.Sublist.refl [y])⟩
      · exact hlr x hx y hy
  · have hsub := (h.sub lvl hlvl).erase t
    rw [hrow lvl (by omega), hrow (lvl + 1) (by omega)]
    obtain ⟨hl1, hr1⟩ := hpassed lvl (by omega)
    obtain ⟨hl2, hr2⟩ := hpassed (lvl + 1) (by omega)
    by_cases h1 : lowest ≤ lvl
    · rw [if_pos h1, if_pos (by omega)]
      rw [hsplit lvl (by omega), hsplit (lvl + 1) (by omega)] at hsub
      obtain ⟨hsl, hsr⟩ := sublist_cut hsub hl1 hr1 hl2 hr2
      exact hsl.append (hsr.cons_cons t)
    · rw [if_neg h1]
      by_cases h2 : lowest ≤ lvl + 1
      · rw [if_pos h2]
        rw [hsplit (lvl + 1) (by omega)] at hsub
        exact hsub.trans ((List.Sublist.refl _).append (sublist_cons_self t _))
      · rw [if_neg h2]
        exact hsub

omit fT in
theorem Starts.ordered_soft (hk : kindOf c (s.timer t) = .soft) : Ordered c s' rows' := by
  have hnot : ∀ lvl, t ∉ rows (.row .hard lvl) := fun lvl ht => by
    have := hinv.linked.kind .hard lvl t ht
    rw [hk] at this
    cases this
  have hrow : ∀ lvl, rows' (.row .hard lvl) = rows (.row .hard lvl) := by
    intro lvl
    rw [hs.rows_eq, hk]
    simp only [placed]
    rw [if_neg (by simp), erase_of_not_mem (hnot lvl)]
  have hne : ∀ {lvl x}, x ∈ rows (.row .hard lvl) → x ≠ t := fun hx => ne_of_mem_of_not_mem hx (hnot _)
  refine hs.ordered_of h (fun x hx => ?_) ?_ fun lvl hlvl => ?_
  · rw [hrow] at hx
    rw [hs.lead_eq (hne hx)]
    exact ⟨fun hp => h.ahead hp x hx, h.near x hx⟩
  · rw [hrow]
    exact List.Pairwise.imp_of_mem (fun ha hb hab => hs.precedes (hne ha) (hne hb) hab) h.sorted
  · rw [hrow, hrow]
    exact h.sub lvl hlvl

omit fT in
theorem Starts.ordered : Ordered c s' rows' := by
  cases hk : kindOf c (s.timer t) with
  | hard => exact hs.ordered_hard h hinv hk
  | soft => exact hs.ordered_soft h hinv hk

end

omit dT fT in
theorem Ordered.begins {n : Nat} (h : Ordered c s rows) (hp : s.phase k = .idle)
    (hn : n = s.tick ∨ k = .hard ∧ n = add32 s.tick 1) :
    Ordered c { s with tick := n, phase := update s.phase k (.checking n) } rows := by
  set s1 : Timers Tid := { s with tick := n, phase := update s.phase k (.checking n) } with hs1
  rcases hn with rfl | ⟨rfl, rfl⟩
  · refine h.shrink ⟨fun ct hc => ?_, fun hi => ?_⟩ rfl (fun _ => rfl) h.initTick_lt
      (fun _ => List.Sublist.refl _) h.sub fun _ _ _ _ hst => hst
    · cases k with
      | hard => exact (Phase.checking.inj hc).symm
      | soft => exact h.current ct hc
    · cases k with
      | hard => cases hi
      | soft => exact hi
  · have hlead : ∀ x ∈ rows (.row .hard c.bottom), lead s1 x + 1 = lead s x := fun x hx => by
      have h1 := h.ahead hp x hx
      have h2 := lead_next h1
      change sub32 ((s.timer x).timeoutTick + 1) (add32 s.tick 1) + 1 = lead s x
      omega
    refine ⟨add32_lt _ _, h.timeout_lt, h.initTick_lt, fun ct hc => (Phase.checking.inj hc).symm,
      (fun hi => by cases hi), fun x hx => ?_, ?_, h.sub⟩
    · have := h.near x hx
      have := hlead x hx
      omega
    · refine List.Pairwise.imp_of_mem (fun {a b} ha hb hab => ?_) h.sorted
      have h1 := hlead a ha
      have h2 := hlead b hb
      exact hab.imp (by omega) fun ⟨he, hst⟩ => ⟨by omega, hst⟩

omit dT fT in
theorem Ordered.ends {currentTick : Nat} (h : Ordered c s rows) (hp : s.phase k = .checking currentTick)
    (hdue : ∀ t, (rows (.row k c.bottom)).head? = some t → ¬ expired (roundTick s k currentTick) (s.timer t)) :
    Ordered c (s.setPhase k .idle) rows := by
  cases k with
  | soft =>
    exact h.shrink (h.samePhase rfl rfl) rfl (fun _ => rfl) h.initTick_lt
      (fun _ => List.Sublist.refl _) h.sub fun _ _ _ _ hst => hst
  | hard =>
    have hct : currentTick = s.tick := h.current _ hp
    refine ⟨h.tick_lt, h.timeout_lt, h.initTick_lt, (fun ct hc => by cases hc), fun _ x hx => ?_, h.near,
      h.sorted, h.sub⟩
    change 1 ≤ lead s x
    rcases hrow : rows (.row .hard c.bottom) with _ | ⟨y, l⟩
    · simp [hrow] at hx
    · have hy := hdue y (by rw [hrow]; rfl)
      have hnear := h.near y (by simp [hrow])
      have hsorted := h.sorted
      rw [roundTick, hct, expired_iff hnear] at hy
      rw [hrow] at hx hsorted
      rcases mem_cons.mp hx with rfl | hx
      · omega
      · have := ((pairwise_cons.mp hsorted).1 x hx).le
        omega

omit fT in
/-- **Every move keeps the order.** -/
theorem Move.ordered {op : Op Tid} (hm : Move c op s rows s' rows') (h : Ordered c s rows)
    (hinv : Inv c s rows) : Ordered c s' rows' := by
  have hmark : ∀ {k : Kind} {t : Tid} {s1 : Timers Tid}, s1.phase = update s.phase k (.callback t) →
      s1.tick = s.tick → SamePhase s s1 := by
    intro k t s1 hp htick
    cases k with
    | hard =>
      have hph : s1.phase .hard = .callback t := by rw [hp, update_self]
      exact ⟨fun ct hc => by simp [hph] at hc, fun hi => by simp [hph] at hi⟩
    | soft => exact h.samePhase (by rw [hp, update_of_ne (by simp)]) htick
  have hcheck : ∀ {k : Kind} {s1 : Timers Tid},
      s1.phase = update s.phase k (.checking s.tick) → s1.tick = s.tick → SamePhase s s1 := by
    intro k s1 hp htick
    cases k with
    | hard =>
      have hph : s1.phase .hard = .checking s.tick := by rw [hp, update_self]
      refine ⟨fun ct hc => ?_, fun hi => by simp [hph] at hi⟩
      rw [hph] at hc
      rw [htick]
      exact (Phase.checking.inj hc).symm
    | soft => exact h.samePhase (by rw [hp, update_of_ne (by simp)]) htick
  cases hm with
  | @sets t r hr =>
    refine h.shrink (h.samePhase rfl rfl) rfl (read_set (s := s) RtTimer.timeoutTick hr.timeout)
      (fun x => ?_) (fun _ => List.Sublist.refl _) h.sub fun _ _ _ _ hst => hst
    by_cases hx : x = t
    · rw [hx, set_timer_self]
      rcases hr.initTick with he | hlt
      · rw [he]
        exact h.initTick_lt t
      · exact hlt
    · rw [set_timer_of_ne s r hx]
      exact h.initTick_lt x
  | @erased t _ hs =>
    refine h.erase hinv (h.samePhase (by rw [hs.phase]) hs.tick) hs.tick (fun x => ?_) (fun x => ?_)
      (fun _ => rfl) hs.started
    · rw [hs.timer]
      exact read_set (s := s) (r := (s.timer t).deactivate) RtTimer.timeoutTick rfl x
    · rw [hs.timer]
      exact read_set (s := s) (r := (s.timer t).deactivate) RtTimer.initTick rfl x
  | starts hs => exact hs.ordered h hinv
  | begins hp hn => exact h.begins hp hn
  | ends hp hdue => exact h.ends hp hdue
  | resumes hp hl =>
    exact h.shrink (hcheck rfl rfl) rfl (fun _ => rfl) h.initTick_lt (fun _ => List.Sublist.refl _)
      h.sub fun _ _ _ _ hst => hst
  | @expires k t _ hnil hs =>
    refine h.erase hinv (hmark hs.phase hs.tick) hs.tick (fun x => ?_) (fun x => ?_)
      (fun _ => update_of_ne (by simp) _ _) hs.started
    · rw [hs.timer]
      exact read_set (s := s) RtTimer.timeoutTick (by split <;> rfl) x
    · rw [hs.timer]
      exact read_set (s := s) RtTimer.initTick (by split <;> rfl) x
  | @leaves k t r hp hlist hlinked hr hlost =>
    have ht : t ∉ s.started := hinv.notMem_started (k := k) (by simp [hlist])
    have htimeout : r.timeoutTick = (s.timer t).timeoutTick := by rcases hr with rfl | rfl <;> rfl
    have hinit : r.initTick = (s.timer t).initTick := by rcases hr with rfl | rfl <;> rfl
    exact h.erase hinv (hcheck rfl rfl) rfl (read_set (s := resumed c s k t) RtTimer.timeoutTick htimeout)
      (read_set (s := resumed c s k t) RtTimer.initTick hinit) (fun _ => rfl)
      (erase_of_not_mem ht).symm

/-! ## Whole runs -/

/-- A run in which the tick moves with a check of the hard timers only. -/
abbrev Checked (c : Board) (s0 s : Timers Tid) : Prop := Runs c (fun _ op => ∀ n, op ≠ .clock n) s0 s

theorem Checked.ordered {s0 : Timers Tid} {rows0 : Rows Tid} (hinv : Inv c s0 rows0)
    (h : Ordered c s0 rows0) (hr : Checked c s0 s) : ∃ rows, Inv c s rows ∧ Ordered c s rows := by
  induction hr with
  | init => exact ⟨rows0, hinv, h⟩
  | step hr op hp hs ih =>
    obtain ⟨rows, hi, ho⟩ := ih
    rcases step_moves hi hs hp with ⟨rows', hm⟩ | ⟨s1, rows1, t, rows', ls, rs, lowest, hm, hst⟩
    · exact ⟨rows', hm.inv hi, hm.ordered ho hi⟩
    · have hi1 := hm.inv hi
      exact ⟨rows', hst.inv hi1, hst.ordered (hm.ordered ho hi) hi1⟩

/-- The steps that may be taken: the check of a list goes on where it was left, and
`rt_timer_control` asserts a timeout below `RT_TICK_MAX / 2`. -/
def Enabled (s : Timers Tid) : Op Tid → Prop
  | .control _ cmd arg => cmd = .setTime → arg < halfTickMax
  | .tick => s.phase .hard = .idle
  | .check k => s.phase k = .idle
  | .round k => ∃ currentTick, s.phase k = .checking currentTick
  | .resume k => ∃ t, s.phase k = .callback t
  | _ => True

theorem step_returns (h : Inv c s rows) {op : Op Tid} (hop : Enabled s op) : (step c s op).isSome := by
  cases op with
  | start t =>
    obtain ⟨s', _, _, _, _, he, _⟩ := rtTimerStart_spec h.linked t
    simp [step, he]
  | stop t => simp [step]
  | control t cmd arg =>
    cases cmd with
    | setTime =>
      have harg : arg < halfTickMax := hop rfl
      simp [step, rtTimerControl, rtAssert_of harg]
    | getTime | setOneshot | setPeriodic | getState | getRemainTime | other => simp [step, rtTimerControl]
  | tick =>
    have hp : s.phase .hard = .idle := hop
    simp [step, hp]
  | clock n => simp [step]
  | check k =>
    have hp : s.phase k = .idle := hop
    simp [step, hp]
  | round k =>
    obtain ⟨currentTick, hp⟩ := hop
    simp only [step, hp]
    rcases checkRound_spec h hp with ⟨he, _⟩ | ⟨t, s1, _, _, he, _⟩
    · simp [he]
    · simp [he]
  | resume k =>
    obtain ⟨t, hp⟩ := hop
    simp only [step, hp]
    rcases checkResume_spec h hp with ⟨_, he, _⟩ | ⟨_, hlinked, ⟨_, he⟩ | ⟨_, _, he⟩⟩
    · simp [he]
    · simp [he]
    · have hl : Linked c ((resumed c s k t).set t (s.timer t).deactivate) fun i => (rows i).erase t :=
        hlinked.keep rfl (read_set (s := resumed c s k t) (kindOf c) (kindOf_deactivate c)) hlinked.onList
      obtain ⟨s', _, _, _, _, hgo, _⟩ := rtTimerStart_spec hl t
      rw [he, hgo]
      rfl

/-- **The skip list of the timers.** However timers are started, stopped and controlled, and however often the
tick wraps: every step returns, and between two checks the last row holds the timers that were started, in the
order of the time that remains and of their starts; each row is a part of the row below. -/
theorem timer_rows_ordered (c : Board) (tick randomNr : Nat) (time : Tid → Nat) (flag : Tid → BitVec 8)
    (htick : tick < 2 ^ 32) (htime : ∀ t, time t < halfTickMax)
    (hr : Checked c (initial tick randomNr time flag) s) :
    (∀ op, Enabled s op → (step c s op).isSome) ∧
    (s.phase .hard = .idle → ∃ rows : Nat → List Tid,
      (∀ lvl, lvl < c.skipListLevel →
        IsRing s.links.next s.links.prev (.head .hard lvl) ((rows lvl).map (.row · lvl))) ∧
      (∀ t, t ∈ rows c.bottom ↔ t ∈ s.started ∧ kindOf c (s.timer t) = .hard) ∧
      (rows c.bottom).Pairwise (fun a b => remaining s a ≤ remaining s b ∧
        ((s.timer a).timeoutTick = (s.timer b).timeoutTick → [a, b].Sublist s.started)) ∧
      ∀ lvl, lvl < c.bottom → (rows lvl).Sublist (rows (lvl + 1))) := by
  obtain ⟨rows, hinv, h⟩ := Checked.ordered (initial_inv c tick randomNr time flag)
    (initial_ordered htick htime) hr
  refine ⟨fun op hop => step_returns hinv hop, fun hidle => ⟨fun lvl => rows (.row .hard lvl),
    fun lvl _ => hinv.linked.ring .hard lvl, fun t => hinv.started .hard t, ?_, h.sub⟩⟩
  refine List.Pairwise.imp_of_mem (fun {a b} ha hb hab => ⟨?_, fun he => ?_⟩) h.sorted
  · have h1 := h.ahead hidle a ha
    have h2 := h.ahead hidle b hb
    rw [remaining_eq h1, remaining_eq h2]
    have := hab.le
    omega
  · rcases hab with hlt | ⟨_, hst⟩
    · have : lead s a = lead s b := by rw [lead, lead, he]
      omega
    · exact hst

/-- A timer of 5 ticks and one of 3, started at the last tick before the wrap. -/
theorem timer_rows_ordered_wrap : ∃ s : Timers (Fin 2),
    Checked ⟨2, 3, false, by decide⟩ (initial (2 ^ 32 - 1) 0 ![5, 3] fun _ => 0) s ∧
    s.started = [0, 1] ∧ ∃ rows : Nat → List (Fin 2), (∀ t, t ∈ rows 1) ∧
      (rows 1).Pairwise fun a b => remaining s a ≤ remaining s b := by
  set c : Board := ⟨2, 3, false, by decide⟩
  set s0 : Timers (Fin 2) := initial (2 ^ 32 - 1) 0 ![5, 3] fun _ => 0
  set s1 := (step c s0 (.start 0)).get (by decide +kernel) with h1
  set s2 := (step c s1 (.start 1)).get (by decide +kernel) with h2
  have hr : Checked c s0 s2 := .step (.step .init (.start 0) (by simp) (Option.some_get _).symm)
    (.start 1) (by simp) (Option.some_get _).symm
  have hst : s2.started = [0, 1] := by decide +kernel
  have hidle : s2.phase .hard = .idle := by decide +kernel
  have hkind : ∀ t, kindOf c (s2.timer t) = .hard := by decide +kernel
  obtain ⟨_, hrows⟩ := timer_rows_ordered c (2 ^ 32 - 1) 0 ![5, 3] (fun _ => 0) (by decide)
    (by decide) hr
  obtain ⟨rows, _, hmem, hord, _⟩ := hrows hidle
  refine ⟨s2, hr, hst, rows, fun t => ?_, hord.imp And.left⟩
  rw [show 1 = c.bottom from rfl, hmem, hst, hkind]
  revert t
  decide

end RtosKernel.RtThread.Timer
