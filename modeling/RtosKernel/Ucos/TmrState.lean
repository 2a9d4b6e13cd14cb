import RtosKernel.Ucos.TmrList

/-! # Timer states and the timer list

A timer is in the list while its state is `OS_TMR_STATE_RUNNING`, or
`OS_TMR_STATE_TIMEOUT` in its own callback, as long as no call writes the state of a timer
in the list before it refuses its option or the timer. -/

namespace RtosKernel.Ucos.Timers
open Lib.Runs
open Lib.Word
open Lib.DoublyLinked

variable {T : Type} {k k' k₁ : Kernel T} {t u p q : T} {time mult : Nat} {s : TmrState} {l l' : List T}

/-- A timer in this state is in the list. -/
def TmrState.Listed : TmrState → Prop
  | .running => True
  | .timeout => True
  | _ => False

instance TmrState.Listed.instDecidable (s) : Decidable (TmrState.Listed s) := by
  cases s <;> dsimp only [TmrState.Listed] <;> infer_instance

structure Inv (k : Kernel T) (l : List T) : Prop where
  listed : Listed k l
  mem : ∀ t, t ∈ l ↔ (k.tmr t).state.Listed
  timeout : ∀ t, (k.tmr t).state = .timeout → k.phase = .callback t
  unused : ∀ t, (k.tmr t).typ = false → (k.tmr t).state = .unused

theorem Inv.start (now : Nat) : Inv (start T now) [] :=
  ⟨⟨Linked.nil, rfl, rfl⟩, fun _ => ⟨(nomatch ·), False.elim⟩, fun _ => nofun, fun _ _ => rfl⟩

theorem Listed.congr (h : Listed k l) (hnext : ∀ t ∈ l, (k'.tmr t).nextPtr = (k.tmr t).nextPtr)
    (hprev : ∀ t ∈ l, (k'.tmr t).prevPtr = (k.tmr t).prevPtr) (hhead : k'.listPtr = k.listPtr)
    (hentries : k'.listEntries = k.listEntries) : Listed k' l :=
  ⟨h.linked.congr hnext hprev, hhead.trans h.head, hentries.trans h.entries⟩

variable [dT : DecidableEq T]

theorem Inv.update (h : Inv k l) (hl : Listed k' l') (hmem : ∀ t, t ≠ p → (t ∈ l' ↔ t ∈ l))
    (hp : p ∈ l' ↔ (k'.tmr p).state.Listed) (hstate : ∀ t, t ≠ p → (k'.tmr t).state = (k.tmr t).state)
    (htyp : ∀ t, t ≠ p → (k'.tmr t).typ = (k.tmr t).typ) (hphase : ∀ t, t ≠ p → k.phase = .callback t → k'.phase = .callback t)
    (hpt : (k'.tmr p).state = .timeout → k'.phase = .callback p)
    (hpu : (k'.tmr p).typ = false → (k'.tmr p).state = .unused) : Inv k' l' := by
  refine ⟨hl, fun t => ?_, fun t ht => ?_, fun t ht => ?_⟩
  · by_cases hne : t = p
    · exact hne ▸ hp
    · rw [hmem t hne, hstate t hne]
      exact h.mem t
  · by_cases hne : t = p
    · exact hne ▸ hpt (hne ▸ ht)
    · exact hphase t hne (h.timeout t (hstate t hne ▸ ht))
  · by_cases hne : t = p
    · exact hne ▸ hpu (hne ▸ ht)
    · rw [hstate t hne]
      exact h.unused t (htyp t hne ▸ ht)

/-! ## Calls -/

/-- The call refuses nothing after it has written the state of a timer in the list. -/
def SoundCall (k : Kernel T) : Call T → Prop
  | .create p dly period opt callback =>
    createArgs dly period opt callback = .errNone → (k.tmr p).typ = true → (k.tmr p).state = .stopped
  | .stop p opt => (k.tmr p).typ = true → (k.tmr p).state.Listed → opt = 3 ∨ opt = 4 ∨ opt = 0
  | _ => True

instance SoundCall.instDecidable (k : Kernel T) (c) : Decidable (SoundCall k c) := by
  cases c <;> dsimp only [SoundCall] <;> infer_instance

variable (mult) in
theorem osTmrCreate_cases {dly period opt : Nat} {callback : Bool} (hs : SoundCall k (.create p dly period opt callback)) :
    (∃ e, osTmrCreate mult k p dly period opt callback = (k, e)) ∨
      (createArgs dly period opt callback = .errNone ∧ (k.tmr p).typ = false ∧
        osTmrCreate mult k p dly period opt callback = (k.setTmr p (createTmr T mult dly period opt callback), .errNone)) := by
  rw [osTmrCreate]
  cases hargs : createArgs dly period opt callback with
  | errNone =>
    dsimp only
    rw [setState_typ]
    cases htyp : (k.tmr p).typ with
    | true =>
      have hsame : k.setState p .stopped = k := by
        rw [Kernel.setState, Kernel.setTmr, ← hs hargs htyp]
        simp
      exact .inl ⟨_, by rw [if_pos rfl, hsame]⟩
    | false =>
      refine .inr ⟨rfl, rfl, ?_⟩
      rw [if_neg Bool.false_ne_true, Kernel.setState, Kernel.setTmr, Kernel.setTmr, Function.update_idem]
      rfl
  | _ => exact .inl ⟨_, rfl⟩

omit dT in
theorem Inv.notMem (h : Inv k l) (htyp : (k.tmr p).typ = false) : p ∉ l := fun hp => by
  have hlisted := (h.mem p).mp hp
  rw [h.unused p htyp] at hlisted
  exact hlisted

variable (mult) in
theorem osTmrCreate_inv {dly period opt : Nat} {callback : Bool} (h : Inv k l)
    (hs : SoundCall k (.create p dly period opt callback)) : Inv (osTmrCreate mult k p dly period opt callback).1 l := by
  rcases osTmrCreate_cases mult hs with ⟨e, heq⟩ | ⟨-, htyp, heq⟩
  · rw [heq]
    exact h
  · have hp := h.notMem htyp
    have hself : (k.setTmr p (createTmr T mult dly period opt callback)).tmr p = createTmr T mult dly period opt callback :=
      Function.update_self ..
    have hne : ∀ t, t ≠ p → (k.setTmr p (createTmr T mult dly period opt callback)).tmr t = k.tmr t := fun t ht =>
      Function.update_of_ne ht _ _
    rw [heq]
    refine h.update (p := p) (h.listed.congr (fun t ht => ?_) (fun t ht => ?_) rfl rfl) (fun _ _ => Iff.rfl) ?_
      (fun t ht => ?_) (fun t ht => ?_) (fun _ _ hphase => hphase) ?_ ?_
    · rw [hne t fun heq => hp (heq ▸ ht)]
    · rw [hne t fun heq => hp (heq ▸ ht)]
    · rw [hself]
      exact iff_of_false hp id
    · rw [hne t ht]
    · rw [hne t ht]
    · rw [hself]
      nofun
    · rw [hself]
      nofun

/-- The states and the kinds of all timers but one are as they were, and the timer task calls back as before. -/
structure Others (p : T) (k k' : Kernel T) : Prop where
  state : ∀ t, t ≠ p → (k'.tmr t).state = (k.tmr t).state
  typ : ∀ t, t ≠ p → (k'.tmr t).typ = (k.tmr t).typ
  callback : ∀ t, k'.phase = .callback t ↔ k.phase = .callback t

omit dT in
theorem Others.trans (h : Others p k k₁) (h' : Others p k₁ k') : Others p k k' :=
  ⟨fun t ht => (h'.state t ht).trans (h.state t ht), fun t ht => (h'.typ t ht).trans (h.typ t ht),
    fun t => (h'.callback t).trans (h.callback t)⟩

omit dT in
theorem Change.others {remain : T → Nat} {tickBase : Nat} {signal : Bool} (h : Change k k' l remain tickBase signal) :
    Others p k k' :=
  ⟨fun t _ => h.state t, fun t _ => typ_eq_of_core (h.core t), fun _ => h.callback⟩

theorem Others.setState : Others p k (k.setState p s) :=
  ⟨fun t ht => by simp [ht], fun _ _ => setState_typ, fun _ => Iff.rfl⟩

theorem Others.setRemain {r : Nat} : Others p k (k.setRemain p r) :=
  ⟨fun _ _ => setRemain_state, fun _ _ => setRemain_typ, fun _ => Iff.rfl⟩

/-- One timer is in the list now or is not, and keeps its state. -/
structure Placed (p : T) (linked : Prop) (k k' : Kernel T) (l l' : List T) : Prop where
  listed : Listed k' l'
  mem : ∀ t, t ≠ p → (t ∈ l' ↔ t ∈ l)
  self : p ∈ l' ↔ linked
  others : Others p k k'
  state : (k'.tmr p).state = (k.tmr p).state
  core : (k'.tmr p).core = (k.tmr p).core

variable (time) in
theorem os_TmrUnlink_placed (h : Listed k l) (hp : p ∈ l) :
    ∃ k' l', os_TmrUnlink k p time = .ok k' ∧ Placed p False k k' l l' := by
  obtain ⟨k', heq, hunlinking⟩ := os_TmrUnlink_spec time h hp
  obtain ⟨l', _, _, _, hchange, hmem⟩ := hunlinking.change h.linked.nodup
  exact ⟨k', l', heq, hchange.listed, fun t ht => by simp [hmem, ht], by simp [hmem], hchange.others, hchange.state p,
    hchange.core p⟩

variable (time) in
theorem os_TmrLink_placed (h : Listed k l) (hp : p ∉ l) :
    ∃ k' l', os_TmrLink k p time = .ok k' ∧ Placed p True k k' l l' := by
  obtain ⟨k', heq, hlinking⟩ := os_TmrLink_spec time h hp
  obtain ⟨l', _, _, _, hchange, hmem⟩ := hlinking.change
  exact ⟨k', l', heq, hchange.listed, fun t ht => by simp [hmem, ht], by simp [hmem], hchange.others, hchange.state p,
    hchange.core p⟩

theorem Listed.setState (h : Listed k l) : Listed (k.setState p s) l :=
  h.congr (fun _ _ => setState_nextPtr) (fun _ _ => setState_prevPtr) rfl rfl

theorem Listed.setRemain {r : Nat} (h : Listed k l) : Listed (k.setRemain p r) l :=
  h.congr (fun _ _ => setRemain_nextPtr) (fun _ _ => setRemain_prevPtr) rfl rfl

variable (time) in
theorem startLink_placed (h : Listed k l) (hp : p ∉ l) :
    ∃ k' l', startLink k p time = .ok (k', .errNone) ∧ Placed p True k k' l l' := by
  obtain ⟨k', l', heq, hplaced⟩ := os_TmrLink_placed (k := k.setRemain p (startRemain (k.tmr p))) time h.setRemain hp
  refine ⟨_, l', congrArg (Except.map _) heq, ⟨hplaced.listed.congr (fun _ _ => rfl) (fun _ _ => rfl) rfl rfl, hplaced.mem,
    hplaced.self, Others.setRemain.trans ⟨hplaced.others.state, hplaced.others.typ, hplaced.others.callback⟩,
    hplaced.state.trans setRemain_state, hplaced.core.trans setRemain_core⟩⟩

theorem Inv.placed {d : Prop} (h : Inv k l) (hplaced : Placed p d (k.setState p s) k' l l') (hs : s.Listed ↔ d)
    (ht : s ≠ .timeout) (htyp : (k.tmr p).typ = true) : Inv k' l' := by
  have hothers := (Others.setState (s := s)).trans hplaced.others
  have hstate : (k'.tmr p).state = s := by simp [hplaced.state]
  have htyp' : (k'.tmr p).typ = (k.tmr p).typ := typ_eq_of_core (hplaced.core.trans setState_core)
  refine h.update hplaced.listed hplaced.mem ?_ hothers.state hothers.typ (fun t _ => (hothers.callback t).mpr) ?_ ?_
  · rw [hstate, hplaced.self, hs]
  · rw [hstate]
    exact fun heq => absurd heq ht
  · rw [htyp', htyp]
    nofun

omit dT in
/-- A call does what it does in a timer's list to a timer that is in it, and otherwise what it does to a timer
that is not; it refuses any other. -/
theorem call_cases (k : Kernel T) (p : T) {f listed idle : Except Stop (Kernel T × Err)}
    (hf : f = if (k.tmr p).typ = false then .ok (k, .errObjType)
      else match (k.tmr p).state with
        | .running | .timeout => listed
        | .stopped | .completed => idle
        | .unused => .ok (k, .errTmrInactive)) :
    (∃ e, f = .ok (k, e) ∧ (e = .errObjType ∨ e = .errTmrInactive)) ∨
      ((k.tmr p).typ = true ∧ (k.tmr p).state.Listed ∧ f = listed) ∨
      ((k.tmr p).typ = true ∧ ¬ (k.tmr p).state.Listed ∧ f = idle) := by
  rw [hf]
  cases htyp : (k.tmr p).typ with
  | false => exact .inl ⟨_, rfl, .inl rfl⟩
  | true =>
    cases hstate : (k.tmr p).state with
    | running => exact .inr (.inl ⟨rfl, trivial, rfl⟩)
    | timeout => exact .inr (.inl ⟨rfl, trivial, rfl⟩)
    | stopped => exact .inr (.inr ⟨rfl, id, rfl⟩)
    | completed => exact .inr (.inr ⟨rfl, id, rfl⟩)
    | unused => exact .inl ⟨_, rfl, .inr rfl⟩

theorem osTmrStart_inv (h : Inv k l) : ∃ k' e l', osTmrStart k p = .ok (k', e) ∧ Inv k' l' := by
  rcases call_cases k p (show osTmrStart k p = _ from rfl) with ⟨e, heq, -⟩ | ⟨htyp, hlisted, hcall⟩ | ⟨htyp, hlisted, hcall⟩
  · exact ⟨k, e, l, heq, h⟩
  · -- a timer in the list is taken out of it first
    obtain ⟨k₁, l₁, heq₁, hplaced₁⟩ := os_TmrUnlink_placed (callTime k) h.listed.setState ((h.mem p).mpr hlisted)
    obtain ⟨k', l', heq, hplaced⟩ := startLink_placed (callTime k) hplaced₁.listed hplaced₁.self.mp
    have hboth : Placed p True (k.setState p .running) k' l l' :=
      ⟨hplaced.listed, fun t ht => (hplaced.mem t ht).trans (hplaced₁.mem t ht), hplaced.self,
        hplaced₁.others.trans hplaced.others, hplaced.state.trans hplaced₁.state, hplaced.core.trans hplaced₁.core⟩
    exact ⟨k', _, l', by rw [hcall, heq₁]; exact heq, h.placed hboth Iff.rfl nofun htyp⟩
  · obtain ⟨k', l', heq, hplaced⟩ := startLink_placed (callTime k) (h.listed.setState (p := p) (s := .running))
      (fun hp => hlisted ((h.mem p).mp hp))
    exact ⟨k', _, l', hcall.trans heq, h.placed hplaced Iff.rfl nofun htyp⟩

theorem osTmrStop_cases (k : Kernel T) (p : T) (opt : Nat) :
    (∃ e, osTmrStop k p opt = .ok (k, e) ∧ (e = .errObjType ∨ e = .errTmrInactive)) ∨
      ((k.tmr p).typ = true ∧ (k.tmr p).state.Listed ∧ osTmrStop k p opt =
        if opt = 3 ∨ opt = 4 ∨ opt = 0 then
          (os_TmrUnlink (k.setState p .stopped) p (callTime k)).map fun k => (k, Err.errNone)
        else .ok (k.setState p .stopped, .errOptInvalid)) ∨
      ((k.tmr p).typ = true ∧ ¬ (k.tmr p).state.Listed ∧
        osTmrStop k p opt = .ok (k.setState p .stopped, .errTmrStopped)) := by
  refine call_cases k p ?_
  rw [osTmrStop]
  cases (k.tmr p).state <;> rfl

theorem osTmrStop_inv {opt : Nat} (h : Inv k l) (hs : SoundCall k (.stop p opt)) :
    ∃ k' e l', osTmrStop k p opt = .ok (k', e) ∧ Inv k' l' := by
  rcases osTmrStop_cases k p opt with ⟨e, heq, -⟩ | ⟨htyp, hlisted, hcall⟩ | ⟨htyp, hlisted, hcall⟩
  · exact ⟨k, e, l, heq, h⟩
  · obtain ⟨k', l', heq, hplaced⟩ := os_TmrUnlink_placed (callTime k) (h.listed.setState (p := p) (s := .stopped))
      ((h.mem p).mpr hlisted)
    exact ⟨k', _, l', by rw [hcall, if_pos (hs htyp hlisted), heq]; rfl, h.placed hplaced Iff.rfl nofun htyp⟩
  · refine ⟨_, _, l, hcall, h.placed (d := False) ⟨h.listed.setState, fun _ _ => Iff.rfl, ?_,
      ⟨fun _ _ => rfl, fun _ _ => rfl, fun _ => Iff.rfl⟩, rfl, rfl⟩ Iff.rfl nofun htyp⟩
    exact iff_of_false (fun hp => hlisted ((h.mem p).mp hp)) id

theorem Others.os_TmrClr : Others p k (os_TmrClr k p) :=
  ⟨fun t ht => by simp [Timers.os_TmrClr, Kernel.setTmr, ht], fun t ht => by simp [Timers.os_TmrClr, Kernel.setTmr, ht],
    fun _ => Iff.rfl⟩

theorem Inv.clr (h : Inv k l) (hothers : Others p k k') (hl : Listed k' l') (hmem : ∀ t, t ≠ p → (t ∈ l' ↔ t ∈ l)) (hp : p ∉ l') :
    Inv (os_TmrClr k' p) l' := by
  have hothers := hothers.trans Others.os_TmrClr
  have hne : ∀ t ∈ l', (os_TmrClr k' p).tmr t = k'.tmr t := fun t ht => by
    simp [os_TmrClr, Kernel.setTmr, show t ≠ p from fun heq => hp (heq ▸ ht)]
  have hstate : ((os_TmrClr k' p).tmr p).state = .unused := by simp [os_TmrClr, Kernel.setTmr]
  refine h.update (hl.congr (fun t ht => by rw [hne t ht]) (fun t ht => by rw [hne t ht]) rfl rfl) hmem ?_ hothers.state
    hothers.typ (fun t _ => (hothers.callback t).mpr) ?_ fun _ => hstate
  · rw [hstate]
    exact iff_of_false hp id
  · simp [hstate]

theorem osTmrDel_inv (h : Inv k l) : ∃ k' e l', osTmrDel k p = .ok (k', e) ∧ Inv k' l' := by
  rcases call_cases k p (show osTmrDel k p = _ from rfl) with ⟨e, heq, -⟩ | ⟨-, hlisted, hcall⟩ | ⟨-, hlisted, hcall⟩
  · exact ⟨k, e, l, heq, h⟩
  · obtain ⟨k', l', heq, hplaced⟩ := os_TmrUnlink_placed (callTime k) h.listed ((h.mem p).mpr hlisted)
    exact ⟨_, _, l', by rw [hcall, heq]; rfl, h.clr hplaced.others hplaced.listed hplaced.mem hplaced.self.mp⟩
  · exact ⟨_, _, l, hcall, h.clr ⟨fun _ _ => rfl, fun _ _ => rfl, fun _ => Iff.rfl⟩ h.listed (fun _ _ => Iff.rfl)
      fun hp => hlisted ((h.mem p).mp hp)⟩

variable (mult) in
theorem call_inv {c : Call T} (h : Inv k l) (hs : SoundCall k c) : ∃ k' e l', call mult k c = .ok (k', e) ∧ Inv k' l' := by
  cases c with
  | create p dly period opt callback => exact ⟨_, _, l, rfl, osTmrCreate_inv mult h hs⟩
  | start p => exact osTmrStart_inv h
  | stop p opt => exact osTmrStop_inv h hs
  | del p => exact osTmrDel_inv h

/-! ## The timer task -/

omit dT in
theorem Inv.rest (h : Inv k l) (hl : Listed k' l) (hstate : ∀ t, (k'.tmr t).state = (k.tmr t).state)
    (htyp : ∀ t, (k'.tmr t).typ = (k.tmr t).typ) (hphase : ∀ t, k.phase ≠ .callback t) : Inv k' l :=
  ⟨hl, fun t => by rw [hstate]; exact h.mem t, fun t ht => absurd (h.timeout t (hstate t ▸ ht)) (hphase t),
    fun t ht => by rw [hstate]; exact h.unused t (htyp t ▸ ht)⟩

theorem tmrTaskWake_inv (h : Inv k l) (hphase : ∀ t, k.phase ≠ .callback t) : ∃ k', tmrTaskWake k = .ok k' ∧ Inv k' l := by
  have hhead := h.listed.head
  cases l with
  | nil =>
    have hhead : k.listPtr = none := hhead
    refine ⟨{ k with phase := .waiting false none }, by rw [tmrTaskWake, hhead], ?_⟩
    exact h.rest (h.listed.congr (fun _ _ => rfl) (fun _ _ => rfl) rfl rfl) (fun _ => rfl) (fun _ => rfl) hphase
  | cons q l =>
    have hwake : tmrTaskWake k = (elapse k.listEntries { k with tickBase := k.now % 2 ^ 32 }
        (sub32 (k.now % 2 ^ 32) k.tickBase) (some q)).map fun k => { k with phase := .processing } := by
      rw [tmrTaskWake, show k.listPtr = some q from hhead]
    have helapse := elapse_eq (k := { k with tickBase := k.now % 2 ^ 32 }) (fun t => (k.tmr t).remain) [] (q :: l) k.listEntries
      (sub32 (k.now % 2 ^ 32) k.tickBase) h.listed.linked h.listed.entries.ge
    refine ⟨_, hwake.trans (congrArg (Except.map _) helapse), ?_⟩
    exact h.rest (h.listed.congr (fun _ _ => rfl) (fun _ _ => rfl) rfl rfl) (fun _ => rfl) (fun _ => rfl) hphase

theorem tmrTaskExpired_inv (h : Inv { k with phase := .callback p } l) :
    ∃ k' l', tmrTaskExpired k p = .ok k' ∧ Inv k' l' := by
  have hself : ∀ t, (k.tmr t).state = .timeout → t = p := fun t ht => (Phase.callback.inj (h.timeout t ht)).symm
  have hl : Listed k l := h.listed.congr (fun _ _ => rfl) (fun _ _ => rfl) rfl rfl
  rw [tmrTaskExpired]
  by_cases hstate : (k.tmr p).state = .timeout
  · have hp : p ∈ l := (h.mem p).mpr (hstate ▸ trivial : TmrState.Listed (k.tmr p).state)
    obtain ⟨k₁, l₁, heq₁, hplaced₁⟩ := os_TmrUnlink_placed k.tickBase hl hp
    have htyp : (k₁.tmr p).typ ≠ false := fun hfalse => by
      have hunused : (k.tmr p).state = .unused := h.unused p ((typ_eq_of_core hplaced₁.core).symm.trans hfalse)
      simp [hstate] at hunused
    rw [if_pos hstate, heq₁]
    dsimp only [Except.bind]
    by_cases hperiodic : (k₁.tmr p).periodic = true
    · rw [if_pos hperiodic]
      obtain ⟨k', l', heq, hplaced⟩ := os_TmrLink_placed k₁.tickBase
        (k := (k₁.setState p .running).setRemain p (k₁.tmr p).period) hplaced₁.listed.setState.setRemain hplaced₁.self.mp
      have hothers := ((hplaced₁.others.trans Others.setState).trans Others.setRemain).trans hplaced.others
      have hrunning : (k'.tmr p).state = .running := by simp [hplaced.state]
      have hcore : (k'.tmr p).core = (k₁.tmr p).core := hplaced.core.trans (setRemain_core.trans setState_core)
      refine ⟨k', l', heq, h.update hplaced.listed (fun t ht => (hplaced.mem t ht).trans (hplaced₁.mem t ht)) ?_
        hothers.state hothers.typ (fun t ht heq => absurd (Phase.callback.inj heq).symm ht) ?_ ?_⟩
      · rw [hrunning, hplaced.self]
        rfl
      · rw [hrunning]
        nofun
      · exact fun hfalse => absurd ((typ_eq_of_core hcore).symm.trans hfalse) htyp
    · rw [if_neg hperiodic]
      refine ⟨_, l₁, rfl, h.update (p := p) (hplaced₁.listed.congr (fun t ht => ?_) (fun t ht => ?_) rfl rfl) hplaced₁.mem ?_
        (fun t ht => ?_) (fun t ht => ?_) (fun t ht heq => absurd (Phase.callback.inj heq).symm ht) ?_ ?_⟩
      · simp [show t ≠ p from fun heq => hplaced₁.self.mp (heq ▸ ht)]
      · simp [show t ≠ p from fun heq => hplaced₁.self.mp (heq ▸ ht)]
      · simp [hplaced₁.self, TmrState.Listed]
      · simp [ht, hplaced₁.others.state]
      · simp [ht, hplaced₁.others.typ]
      · simp
      · simpa using htyp
  · rw [if_neg hstate]
    refine ⟨k, l, rfl, hl, h.mem, fun t ht => ?_, h.unused⟩
    exact absurd (hself t ht ▸ ht) hstate

theorem Inv.expired (h : Inv k (p :: l)) (hphase : k.phase = .processing) :
    Inv { ({ k.setState p .timeout with fired := Function.update k.fired p (k.fired p ++ [k.now]) } : Kernel T) with
      phase := .callback p } (p :: l) := by
  refine h.update (p := p) (h.listed.congr (fun _ _ => setState_nextPtr) (fun _ _ => setState_prevPtr) rfl rfl)
    (fun _ _ => Iff.rfl) ?_ (fun t ht => by simp [ht]) (fun t _ => by simp) (fun t _ heq => by simp [hphase] at heq)
    (fun _ => rfl) fun hfalse => ?_
  · simp [TmrState.Listed]
  · exact absurd (List.mem_cons_self ..) (h.notMem (by simpa using hfalse))

theorem tmrTaskNext_inv (h : Inv k l) (hphase : k.phase = .processing) : ∃ k' l', tmrTaskNext k = .ok k' ∧ Inv k' l' := by
  have hnone : ∀ t, k.phase ≠ .callback t := by simp [hphase]
  have hhead := h.listed.head
  cases l with
  | nil =>
    have hhead : k.listPtr = none := hhead
    refine ⟨{ k with phase := .waiting false none }, [], by rw [tmrTaskNext, hhead], ?_⟩
    exact h.rest (h.listed.congr (fun _ _ => rfl) (fun _ _ => rfl) rfl rfl) (fun _ => rfl) (fun _ => rfl) hnone
  | cons p l =>
    have hhead : k.listPtr = some p := hhead
    rw [tmrTaskNext]
    simp only [hhead]
    by_cases hremain : (k.tmr p).remain = 0
    · rw [if_pos hremain]
      have h₁ := h.expired hphase
      by_cases hcallback : ((k.setState p .timeout).tmr p).callback = true
      · exact ⟨_, _, if_pos hcallback, h₁⟩
      · obtain ⟨k', l', heq, h'⟩ := tmrTaskExpired_inv h₁
        exact ⟨k', l', (if_neg hcallback).trans heq, h'⟩
    · rw [if_neg hremain]
      exact ⟨_, p :: l, rfl, h.rest (h.listed.congr (fun _ _ => rfl) (fun _ _ => rfl) hhead.symm rfl) (fun _ => rfl) (fun _ => rfl) hnone⟩

/-! ## Runs -/

/-- The event is a call that refuses nothing after it has written the state of a timer in the list, or no call. -/
def Sound (k : Kernel T) : Event T → Prop
  | .call c => SoundCall k c
  | _ => True

instance Sound.instDecidable (k : Kernel T) (e) : Decidable (Sound k e) := by
  cases e <;> dsimp only [Sound] <;> infer_instance

variable (mult) in
theorem step_outcome {e : Event T} (h : Inv k l) (hs : Sound k e) :
    step mult k e = .error .refused ∨ ∃ k' l', step mult k e = .ok k' ∧ Inv k' l' := by
  cases e with
  | tick =>
    cases hphase : k.phase with
    | waiting signalled wakeAt =>
      cases signalled with
      | true => exact .inl (by rw [step, hphase])
      | false =>
        rw [step, hphase]
        by_cases hnow : wakeAt = some k.now
        · exact .inl (if_pos hnow)
        · exact .inr ⟨_, l, if_neg hnow, h.rest (h.listed.congr (fun _ _ => rfl) (fun _ _ => rfl) rfl rfl) (fun _ => rfl)
            (fun _ => rfl) (by simp [hphase])⟩
    | processing => exact .inl (by rw [step, hphase])
    | callback p => exact .inl (by rw [step, hphase])
  | call c =>
    obtain ⟨k', e, l', heq, h'⟩ := call_inv mult h hs
    have hok : (call mult k c).map Prod.fst = .ok k' := by rw [heq]; rfl
    cases hphase : k.phase with
    | waiting _ _ => exact .inr ⟨k', l', by rw [step, hphase]; exact hok, h'⟩
    | processing => exact .inl (by rw [step, hphase])
    | callback p => exact .inr ⟨k', l', by rw [step, hphase]; exact hok, h'⟩
  | wake =>
    cases hphase : k.phase with
    | waiting signalled wakeAt =>
      rw [step, hphase]
      by_cases hwake : signalled = true ∨ wakeAt = some k.now
      · obtain ⟨k', heq, h'⟩ := tmrTaskWake_inv h (by simp [hphase])
        exact .inr ⟨k', l, (if_pos hwake).trans heq, h'⟩
      · exact .inl (if_neg hwake)
    | processing => exact .inl (by rw [step, hphase])
    | callback p => exact .inl (by rw [step, hphase])
  | next =>
    cases hphase : k.phase with
    | waiting _ _ => exact .inl (by rw [step, hphase])
    | processing =>
      obtain ⟨k', l', heq, h'⟩ := tmrTaskNext_inv h hphase
      exact .inr ⟨k', l', by rw [step, hphase]; exact heq, h'⟩
    | callback p => exact .inl (by rw [step, hphase])
  | «return» =>
    cases hphase : k.phase with
    | waiting _ _ => exact .inl (by rw [step, hphase])
    | processing => exact .inl (by rw [step, hphase])
    | callback p =>
      have h₁ : Inv { ({ k with phase := .processing } : Kernel T) with phase := .callback p } l := by
        rw [← hphase]
        exact h
      obtain ⟨k', l', heq, h'⟩ := tmrTaskExpired_inv h₁
      exact .inr ⟨k', l', by rw [step, hphase]; exact heq, h'⟩

theorem step_inv {e : Event T} (h : ∃ l, Inv k l) (hs : Sound k e) (hstep : step mult k e = .ok k') : ∃ l, Inv k' l := by
  obtain ⟨l, h⟩ := h
  rcases step_outcome mult h hs with hrefused | ⟨k₁, l', heq, h'⟩
  · rw [hrefused] at hstep
    cases hstep
  · rw [heq] at hstep
    cases hstep
    exact ⟨l', h'⟩

theorem run_state {now : Nat} {events : List (Event T)} (hs : Along (step mult) Sound (start T now) events)
    (hrun : run (step mult) (start T now) events = .ok k) : ∃ l, Inv k l :=
  @run_inv _ _ _ (step mult) Sound (fun k => ∃ l, Inv k l) _ _ _ (fun _ _ _ h hs hstep => step_inv h hs hstep)
    ⟨[], Inv.start now⟩ hs hrun

theorem startLink_err {e : Err} (h : startLink k p time = .ok (k', e)) : e = .errNone := by
  obtain ⟨k₁, -, heq⟩ := map_eq_ok h
  exact (congrArg Prod.snd heq).symm

theorem osTmrStart_err {e : Err} (h : osTmrStart k p = .ok (k', e)) : e = .errNone ∨ e = .errObjType ∨ e = .errTmrInactive := by
  rcases call_cases k p (show osTmrStart k p = _ from rfl) with ⟨e', heq, he⟩ | ⟨-, -, hcall⟩ | ⟨-, -, hcall⟩
  · cases heq.symm.trans h
    exact .inr he
  · obtain ⟨k₁, -, heq⟩ := bind_eq_ok (hcall.symm.trans h)
    exact .inl (startLink_err heq)
  · exact .inl (startLink_err (hcall.symm.trans h))

theorem osTmrDel_err {e : Err} (h : osTmrDel k p = .ok (k', e)) : e = .errNone ∨ e = .errObjType ∨ e = .errTmrInactive := by
  rcases call_cases k p (show osTmrDel k p = _ from rfl) with ⟨e', heq, he⟩ | ⟨-, -, hcall⟩ | ⟨-, -, hcall⟩
  · cases heq.symm.trans h
    exact .inr he
  · obtain ⟨k₁, -, heq⟩ := map_eq_ok (hcall.symm.trans h)
    exact .inl (congrArg Prod.snd heq).symm
  · cases hcall.symm.trans h
    exact .inl rfl

theorem osTmrStop_err {opt : Nat} {e : Err} (hs : SoundCall k (.stop p opt)) (h : osTmrStop k p opt = .ok (k', e)) :
    e = .errNone ∨ e = .errObjType ∨ e = .errTmrInactive ∨ e = .errTmrStopped := by
  rcases osTmrStop_cases k p opt with ⟨e', heq, he⟩ | ⟨htyp, hlisted, hcall⟩ | ⟨-, -, hcall⟩
  · cases heq.symm.trans h
    rcases he with he | he
    · exact .inr (.inl he)
    · exact .inr (.inr (.inl he))
  · rw [hcall, if_pos (hs htyp hlisted)] at h
    obtain ⟨k₁, -, heq⟩ := map_eq_ok h
    exact .inl (congrArg Prod.snd heq).symm
  · cases hcall.symm.trans h
    exact .inr (.inr (.inr rfl))

/-- The states of the timers and their places in the list are as they were. -/
def SameList (k k' : Kernel T) : Prop :=
  k'.listPtr = k.listPtr ∧ ∀ t, (k'.tmr t).state = (k.tmr t).state ∧ (k'.tmr t).nextPtr = (k.tmr t).nextPtr ∧
    (k'.tmr t).prevPtr = (k.tmr t).prevPtr

theorem refusal_keeps {c : Call T} {e : Err} (hs : SoundCall k c) (hcall : call mult k c = .ok (k', e))
    (he : e = .errOptInvalid ∨ e = .errObjCreated) : SameList k k' := by
  cases c with
  | create p dly period opt callback =>
    replace hcall : osTmrCreate mult k p dly period opt callback = (k', e) := Except.ok.inj hcall
    rcases osTmrCreate_cases mult hs with ⟨e', heq⟩ | ⟨-, -, heq⟩
    · cases heq.symm.trans hcall
      exact ⟨rfl, fun _ => ⟨rfl, rfl, rfl⟩⟩
    · cases heq.symm.trans hcall
      rcases he with he | he <;> cases he
  | start p => rcases osTmrStart_err hcall with rfl | rfl | rfl <;> simp at he
  | stop p opt => rcases osTmrStop_err hs hcall with rfl | rfl | rfl | rfl <;> simp at he
  | del p => rcases osTmrDel_err hcall with rfl | rfl | rfl <;> simp at he

/-- **Timer states and the timer list agree.** If no call refuses an option or a timer after it has written the
state of a timer in the list, a timer is outside of callbacks in the list, once, if and only if it is running; a
call that refuses its option or its timer changes neither; and every step returns. -/
theorem timers_listed {now : Nat} {events : List (Event T)} (hs : Along (step mult) Sound (start T now) events)
    (hrun : run (step mult) (start T now) events = .ok k) :
    (∃ l, Listed k l ∧ ((∀ t, k.phase ≠ .callback t) → ∀ t, t ∈ l ↔ (k.tmr t).state = .running)) ∧
      (∀ c k' e, SoundCall k c → call mult k c = .ok (k', e) → e = .errOptInvalid ∨ e = .errObjCreated → SameList k k') ∧
      ∀ e, Sound k e → step mult k e ≠ .error .nullPtr ∧ step mult k e ≠ .error .endless := by
  obtain ⟨l, h⟩ := run_state hs hrun
  refine ⟨⟨l, h.listed, fun hphase t => ?_⟩, fun c k' e => refusal_keeps, fun e hs => ?_⟩
  · rw [h.mem t]
    have htimeout : (k.tmr t).state ≠ .timeout := fun ht => hphase t (h.timeout t ht)
    cases hstate : (k.tmr t).state <;> simp_all [TmrState.Listed]
  · rcases step_outcome mult h hs with hstep | ⟨k', l', hstep, -⟩ <;> rw [hstep] <;> exact ⟨nofun, nofun⟩

/-- Timer 1 expires and starts timer 0 again from its callback; it is stopped later with an option that does not exist. -/
def startFromCallback : List (Event (Fin 2)) :=
  [.call (.create 0 10 5 2 true), .call (.create 1 2 0 1 true), .call (.start 0), .call (.start 1), .wake, .next, .tick, .tick,
    .wake, .next, .call (.start 0), .return, .next, .call (.stop 1 7), .call (.create 1 2 0 1 true)]

theorem timers_listed_two : ∃ k, run (step 1) (start (Fin 2) 4294967295) startFromCallback = .ok k ∧
    ∃ l, Listed k l ∧ ((∀ t, k.phase ≠ .callback t) → ∀ t, t ∈ l ↔ (k.tmr t).state = .running) := by
  have hs : Along (step 1) Sound (start (Fin 2) 4294967295) startFromCallback := by decide +kernel
  obtain ⟨k, hrun⟩ := exists_ok (show (run (step 1) (start (Fin 2) 4294967295) startFromCallback).toOption.isSome = true
    by decide +kernel)
  exact ⟨k, hrun, (timers_listed hs hrun).1⟩

/-- A running timer is stopped with an option that does not exist: it is refused, and the timer is stopped in the list. -/
theorem stop_refused_late : ∃ k k', run (step 1) (start (Fin 1) 0) [.call (.create 0 10 0 1 false), .call (.start 0)] = .ok k ∧
    (k.tmr 0).state = .running ∧ call 1 k (.stop 0 7) = .ok (k', .errOptInvalid) ∧ (∀ t, k'.phase ≠ .callback t) ∧
    (k'.tmr 0).state = .stopped ∧ ¬ ∃ l, Listed k' l ∧ ∀ t, t ∈ l ↔ (k'.tmr t).state = .running := by
  refine ⟨_, _, rfl, by decide, rfl, by decide, by decide, fun ⟨l, hl, hrunning⟩ => ?_⟩
  have hmem : (0 : Fin 1) ∈ l := List.mem_of_head? (hl.head.symm.trans (by decide))
  exact absurd ((hrunning 0).mp hmem) (by decide)

end RtosKernel.Ucos.Timers
