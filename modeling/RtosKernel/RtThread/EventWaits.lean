import RtosKernel.Lib.Runs
import RtosKernel.RtThread.Event

/-! # No satisfied waiter is left asleep

`rt_event_send` tests every waiter against bits that only become fewer during the walk, so a waiter it leaves in
the list is not satisfied by what is left of them. -/
namespace RtosKernel.RtThread.Event
open Lib.BitSet RtThread.Def RtThread.IpcList List Function Option

variable {Tid : Type} [dT : DecidableEq Tid]
variable {info option : BitVec 8} {eventSet set b : BitVec 32} {s s' s0 : State Tid} {t : Tid} {a : Act Tid}
  {o : Option (Tid × Ret)} {as : List (Act Tid)} {rets : List (Tid × Ret)}

/-- The wait condition: all of the bits, or any of them. -/
def Wanted (info : BitVec 8) (eventSet set : BitVec 32) : Prop :=
  if info &&& eventFlagAnd ≠ 0#_ then eventSet &&& set = eventSet else eventSet &&& set ≠ 0#_

instance (info : BitVec 8) (eventSet set : BitVec 32) : Decidable (Wanted info eventSet set) := by
  unfold Wanted
  infer_instance

/-- The wait condition of a thread is true of the event set. -/
def State.Satisfied (s : State Tid) (t : Tid) : Prop := Wanted (s.eventInfo t) (s.eventSet t) s.set
  deriving Decidable

def Flagged (info : BitVec 8) : Prop := info &&& eventFlagAnd ≠ 0#_ ∨ info &&& eventFlagOr ≠ 0#_

theorem wanted_iff : Wanted info eventSet set ↔ Met (decide (info &&& eventFlagAnd ≠ 0#_)) eventSet set := by
  unfold Wanted Met
  rw [BitVec.and_comm set eventSet]
  by_cases h : info &&& eventFlagAnd ≠ 0#_
  · simp [h]
  · simp [h]

theorem Wanted.mono {x y : BitVec 32} (h : Wanted info eventSet x)
    (hxy : ∀ i, x.getLsbD i = true → y.getLsbD i = true) : Wanted info eventSet y :=
  wanted_iff.mpr ((wanted_iff.mp h).mono fun i _ => hxy i)

theorem checkEventSet_of_flagged (hf : Flagged info) (eventSet set : BitVec 32) :
    checkEventSet set eventSet info = some (decide (Wanted info eventSet set)) := by
  unfold checkEventSet Wanted
  rw [BitVec.and_comm set eventSet]
  by_cases h : info &&& eventFlagAnd ≠ 0#_
  · simp [h]
  · simp [h, hf.resolve_left h]

theorem flagged_of_checkEventSet {b : Bool}
    (h : checkEventSet set eventSet info = some b) : Flagged info := by
  unfold checkEventSet at h
  by_cases hand : info &&& eventFlagAnd ≠ 0#_
  · exact .inl hand
  · by_cases hor : info &&& eventFlagOr ≠ 0#_
    · exact .inr hor
    · simp [hand, hor] at h

/-! ## The walk -/

/-- What a satisfied thread receives. -/
def received (info : BitVec 8) (eventSet set : BitVec 32) : BitVec 32 :=
  if info &&& eventFlagAnd ≠ 0#_ then eventSet else eventSet &&& set

def left (info : BitVec 8) (eventSet set : BitVec 32) : BitVec 32 :=
  if info &&& eventFlagClear ≠ 0#_ then set &&& ~~~received info eventSet set else set

def release (s : State Tid) (t : Tid) : State Tid :=
  { s with
    eventSet := update s.eventSet t (received (s.eventInfo t) (s.eventSet t) s.set)
    set := left (s.eventInfo t) (s.eventSet t) s.set
    suspendThread := s.suspendThread.erase t
    threadTimer := update s.threadTimer t false }

theorem satisfy_update (s : State Tid) (t : Tid) (b : BitVec 32) :
    satisfy { s with eventSet := update s.eventSet t b } t =
      { s with
        eventSet := update s.eventSet t b
        set := if s.eventInfo t &&& eventFlagClear ≠ 0#_ then s.set &&& ~~~b else s.set
        suspendThread := s.suspendThread.erase t
        threadTimer := update s.threadTimer t false } := by
  unfold satisfy rtThreadResume
  by_cases h : s.eventInfo t &&& eventFlagClear ≠ 0#_
  · simp [h]
  · simp only [if_neg h]

theorem sendLoop_cons (hf : Flagged (s.eventInfo t)) (l : List Tid) :
    sendLoop s (t :: l) = if s.Satisfied t then sendLoop (release s t) l else sendLoop s l := by
  unfold State.Satisfied Wanted release left received
  simp only [sendLoop]
  by_cases hand : s.eventInfo t &&& eventFlagAnd ≠ 0#_
  · simp only [if_pos hand]
    rw [← satisfy_update s t (s.eventSet t), update_eq_self]
  · simp only [if_neg hand, if_pos (hf.resolve_left hand), satisfy_update]

theorem left_sub {i : Nat}
    (h : (left info eventSet set).getLsbD i = true) : set.getLsbD i = true := by
  unfold left at h
  split at h
  · rw [getLsbD_andNot, Bool.and_eq_true] at h
    exact h.1
  · exact h

/-- The result of the walk over `l`. -/
structure Walked (s : State Tid) (l : List Tid) (r : State Tid × RtErr) : Prop where
  err : r.2 = .eok
  info : r.1.eventInfo = s.eventInfo
  error : r.1.error = s.error
  receiving : r.1.receiving = s.receiving
  set : ∀ i, r.1.set.getLsbD i = true → s.set.getLsbD i = true
  nodup : r.1.suspendThread.Nodup
  sub : ∀ t ∈ r.1.suspendThread, t ∈ s.suspendThread
  eventSet : ∀ t, t ∈ r.1.suspendThread ∨ t ∉ l → r.1.eventSet t = s.eventSet t
  asleep : ∀ t ∈ l, t ∈ r.1.suspendThread → ¬ r.1.Satisfied t

theorem sendLoop_walked {l : List Tid} (hl : l.Nodup) (hs : s.suspendThread.Nodup)
    (hf : ∀ t ∈ l, Flagged (s.eventInfo t)) : Walked s l (sendLoop s l) := by
  induction l generalizing s with
  | nil => exact ⟨rfl, rfl, rfl, rfl, fun _ h => h, hs, fun _ h => h, fun _ _ => rfl, fun t ht => by cases ht⟩
  | cons a l ih =>
    obtain ⟨ha, hl⟩ := nodup_cons.mp hl
    have hfl : ∀ t ∈ l, Flagged (s.eventInfo t) := fun t ht => hf t (mem_cons_of_mem _ ht)
    rw [sendLoop_cons (hf a (mem_cons_self ..))]
    split
    · -- the thread leaves the list, and the rest is tested against fewer bits
      have h := ih (s := release s a) hl (hs.erase a) hfl
      have hne : ∀ t, t ∈ (sendLoop (release s a) l).1.suspendThread → t ≠ a := fun t ht he =>
        (hs.mem_erase_iff.mp (he ▸ h.sub t ht)).1 rfl
      refine ⟨h.err, h.info, h.error, h.receiving, fun i hi => left_sub (h.set i hi), h.nodup,
        fun t ht => mem_of_mem_erase (h.sub t ht), fun t ht => ?_, fun t ht hmem => ?_⟩
      · have hta : t ≠ a := ht.elim (hne t) fun hno he => hno (he ▸ mem_cons_self ..)
        rw [h.eventSet t (ht.imp id fun hno hm => hno (mem_cons_of_mem _ hm))]
        exact update_of_ne hta _ _
      · exact h.asleep t ((mem_cons.mp ht).resolve_left (hne t hmem)) hmem
    · rename_i hnot
      have h := ih (s := s) hl hs hfl
      refine ⟨h.err, h.info, h.error, h.receiving, h.set, h.nodup, h.sub,
        fun t ht => h.eventSet t (ht.imp id fun hno hm => hno (mem_cons_of_mem _ hm)), fun t ht hmem => ?_⟩
      rcases mem_cons.mp ht with rfl | ht
      · intro hsat
        unfold State.Satisfied at hsat
        rw [h.eventSet t (.inl hmem), h.info] at hsat
        exact hnot (hsat.mono h.set)
      · exact h.asleep t ht hmem

/-! ## The invariant -/

/-- The threads in the list are in a call, with a valid option, and their conditions are not true. -/
structure Inv (s : State Tid) : Prop where
  nodup : s.suspendThread.Nodup
  receiving : ∀ t ∈ s.suspendThread, s.receiving t = true
  flagged : ∀ t ∈ s.suspendThread, Flagged (s.eventInfo t)
  error : ∀ t ∈ s.suspendThread, s.error t = .eok
  asleep : ∀ t ∈ s.suspendThread, ¬ s.Satisfied t

omit dT in
theorem Inv.shrink (h : Inv s) (hn : s'.suspendThread.Nodup)
    (hsub : ∀ t ∈ s'.suspendThread, t ∈ s.suspendThread ∧ s'.receiving t = s.receiving t ∧
      s'.eventInfo t = s.eventInfo t ∧ s'.eventSet t = s.eventSet t ∧ s'.error t = s.error t)
    (hset : ∀ i, s'.set.getLsbD i = true → s.set.getLsbD i = true) : Inv s' where
  nodup := hn
  receiving t ht := (hsub t ht).2.1.trans (h.receiving t (hsub t ht).1)
  flagged t ht := (hsub t ht).2.2.1 ▸ h.flagged t (hsub t ht).1
  error t ht := (hsub t ht).2.2.2.2.trans (h.error t (hsub t ht).1)
  asleep t ht hsat := by
    obtain ⟨hmem, _, hinfo, heset, _⟩ := hsub t ht
    unfold State.Satisfied at hsat
    rw [hinfo, heset] at hsat
    exact h.asleep t hmem (hsat.mono hset)

omit dT in
theorem rtEventInit_inv (flag : IpcFlag) (s : State Tid) : Inv (rtEventInit flag s) :=
  ⟨nodup_nil, fun t ht => (by cases ht), fun t ht => (by cases ht), fun t ht => (by cases ht), fun t ht => (by cases ht)⟩

/-- What a step means to a thread that was resumed and has not run yet. -/
structure Keeps (s s' : State Tid) (t : Tid) : Prop where
  out : t ∉ s'.suspendThread
  receiving : s'.receiving t = true
  eventSet : s'.eventSet t = s.eventSet t
  error : s'.error t = s.error t

/-- A step keeps the invariant, and what the resumed threads will return. -/
def Good (s s' : State Tid) (a : Act Tid) : Prop :=
  Inv s' ∧ ∀ t, s.receiving t = true → t ∉ s.suspendThread → a ≠ .recvEnd t → Keeps s s' t

theorem rtEventSend_good (h : Inv s) (b : BitVec 32) : Good s (rtEventSend s b).1 (.send b) := by
  unfold rtEventSend
  split
  · exact ⟨h, fun t hr ht _ => ⟨ht, hr, rfl, rfl⟩⟩
  · set s1 : State Tid := { s with set := s.set ||| b } with hs1
    have hw : Walked s1 s.suspendThread (sendLoop s1 s.suspendThread) :=
      sendLoop_walked h.nodup h.nodup h.flagged
    refine ⟨⟨hw.nodup, fun t ht => ?_, fun t ht => ?_, fun t ht => ?_, fun t ht => ?_⟩, fun t hr ht _ => ?_⟩
    · rw [hw.receiving]; exact h.receiving t (hw.sub t ht)
    · rw [hw.info]; exact h.flagged t (hw.sub t ht)
    · rw [hw.error]; exact h.error t (hw.sub t ht)
    · exact hw.asleep t (hw.sub t ht) ht
    · exact ⟨fun hm => ht (hw.sub t hm), by rw [hw.receiving]; exact hr, hw.eventSet t (.inr ht), by rw [hw.error]⟩

/-- What `rt_event_recv` does, with a set that is not empty. -/
inductive Received (s : State Tid) (t : Tid) (set : BitVec 32) (option : BitVec 8) (timeout : Int) :
    State Tid × Option Ret → Prop
  | fast (hw : Wanted option set s.set) : Received s t set option timeout
      ({ s with
        error := update s.error t .eok
        eventSet := update s.eventSet t (s.set &&& set)
        eventInfo := update s.eventInfo t option
        set := if option &&& eventFlagClear ≠ 0#_ then s.set &&& ~~~set else s.set },
        some ⟨.eok, some (s.set &&& set)⟩)
  | noWait (hw : ¬ Wanted option set s.set) (htime : timeout = 0) : Received s t set option timeout
      ({ s with error := update s.error t .etimeout }, some ⟨.etimeout, none⟩)
  | blocks (hw : ¬ Wanted option set s.set) (htime : timeout ≠ 0) : Received s t set option timeout
      ({ s with
        error := update s.error t .eok
        eventSet := update s.eventSet t set
        eventInfo := update s.eventInfo t option
        suspendThread := ipcListSuspend s.currentPriority s.flag t s.suspendThread
        threadTimer := if 0 < timeout then update s.threadTimer t true else s.threadTimer
        receiving := update s.receiving t true }, none)

theorem rtEventRecv_flagged {timeout : Int}
    {r : State Tid × Option Ret} (hset : set ≠ 0#_) (hgo : rtEventRecv s t set option timeout = some r) :
    Flagged option := by
  unfold rtEventRecv at hgo
  rw [if_neg hset] at hgo
  obtain ⟨status, hcheck, _⟩ := bind_eq_some_iff.mp hgo
  exact flagged_of_checkEventSet hcheck

theorem rtEventRecv_spec (s : State Tid) (t : Tid) (timeout : Int) (hset : set ≠ 0#_) (hf : Flagged option) :
    ∃ r, rtEventRecv s t set option timeout = some r ∧ Received s t set option timeout r := by
  unfold rtEventRecv
  rw [if_neg hset]
  simp only [checkEventSet_of_flagged hf, bind_eq_bind, bind_some]
  by_cases hw : Wanted option set s.set
  · simp only [hw, decide_true, if_true, update_self]
    exact ⟨_, rfl, .fast hw⟩
  · by_cases htime : timeout = 0
    · simp only [hw, decide_false, Bool.false_eq_true, if_false, if_pos htime, update_idem]
      exact ⟨_, rfl, .noWait hw htime⟩
    · simp only [hw, decide_false, Bool.false_eq_true, if_false, if_neg htime]
      exact ⟨_, rfl, .blocks hw htime⟩

theorem rtEventRecv_cases {timeout : Int} {r : State Tid × Option Ret} (hset : set ≠ 0#_)
    (hgo : rtEventRecv s t set option timeout = some r) : Received s t set option timeout r := by
  obtain ⟨r', hr', hspec⟩ := rtEventRecv_spec s t timeout hset (rtEventRecv_flagged hset hgo)
  cases hr'.symm.trans hgo
  exact hspec

omit dT in
theorem Inv.suspend (h : Inv s) (ht : s.receiving t = false) :
    t ∉ s.suspendThread := fun hm => by
  have := h.receiving t hm
  rw [ht] at this
  cases this

theorem rtEventRecv_good (h : Inv s) (ht : s.receiving t = false) {timeout : Int} {r : State Tid × Option Ret}
    (hgo : rtEventRecv s t set option timeout = some r) : Good s r.1 (.recv t set option timeout) := by
  have hout := h.suspend ht
  have hne : ∀ x ∈ s.suspendThread, x ≠ t := fun x hx he => hout (he ▸ hx)
  have hother : ∀ x, s.receiving x = true → x ≠ t := fun x hx he => by
    rw [he, ht] at hx
    cases hx
  by_cases hset : set = 0#_
  · rw [rtEventRecv, if_pos hset] at hgo
    cases hgo
    exact ⟨h, fun x hr hx _ => ⟨hx, hr, rfl, rfl⟩⟩
  cases rtEventRecv_cases hset hgo with
  | fast hw =>
    refine ⟨h.shrink h.nodup (fun x hx => ⟨hx, rfl, update_of_ne (hne x hx) _ _,
      update_of_ne (hne x hx) _ _, update_of_ne (hne x hx) _ _⟩) fun i hi => ?_, ?_⟩
    · split at hi
      · rw [getLsbD_andNot, Bool.and_eq_true] at hi
        exact hi.1
      · exact hi
    · exact fun x hr hx _ => ⟨hx, hr, update_of_ne (hother x hr) _ _, update_of_ne (hother x hr) _ _⟩
  | noWait hw htime =>
    refine ⟨h.shrink h.nodup (fun x hx => ⟨hx, rfl, rfl, rfl, update_of_ne (hne x hx) _ _⟩) fun _ hi => hi, ?_⟩
    exact fun x hr hx _ => ⟨hx, hr, rfl, update_of_ne (hother x hr) _ _⟩
  | blocks hw htime =>
    have hcase : ∀ x, x ∈ ipcListSuspend s.currentPriority s.flag t s.suspendThread →
        x = t ∨ x ≠ t ∧ x ∈ s.suspendThread := fun x hx =>
      (mem_ipcListSuspend.mp hx).imp id fun hx => ⟨hne x hx, hx⟩
    refine ⟨⟨?_, fun x hx => ?_, fun x hx => ?_, fun x hx => ?_, fun x hx => ?_⟩, fun x hr hx _ => ?_⟩
    · exact (ipcListSuspend_perm s.flag t s.suspendThread).nodup_iff.mpr (nodup_cons.mpr ⟨hout, h.nodup⟩)
    · rcases hcase x hx with rfl | ⟨hxt, hx⟩
      · exact update_self ..
      · exact (update_of_ne hxt _ _).trans (h.receiving x hx)
    · dsimp only
      rcases hcase x hx with rfl | ⟨hxt, hx⟩
      · rw [update_self]; exact (rtEventRecv_flagged hset hgo)
      · rw [update_of_ne hxt]; exact h.flagged x hx
    · rcases hcase x hx with rfl | ⟨hxt, hx⟩
      · exact update_self ..
      · exact (update_of_ne hxt _ _).trans (h.error x hx)
    · unfold State.Satisfied
      dsimp only
      rcases hcase x hx with rfl | ⟨hxt, hx⟩
      · rw [update_self, update_self]
        exact hw
      · rw [update_of_ne hxt, update_of_ne hxt]
        exact h.asleep x hx
    · have hxt := hother x hr
      exact ⟨fun hm => (mem_ipcListSuspend.mp hm).elim hxt hx, (update_of_ne hxt _ _).trans hr,
        update_of_ne hxt _ _, update_of_ne hxt _ _⟩

/-- `_ipc_list_resume_all` of the whole list. -/
structure ResumedAll (s : State Tid) (l : List Tid) (s' : State Tid) : Prop where
  mem : ∀ t, t ∈ s'.suspendThread → t ∈ s.suspendThread ∧ t ∉ l
  receiving : s'.receiving = s.receiving
  eventSet : s'.eventSet = s.eventSet
  error : ∀ t, t ∉ l → s'.error t = s.error t

theorem ipcListResumeAll_spec (hs : s.suspendThread.Nodup) (l : List Tid) :
    ResumedAll s l (ipcListResumeAll s l) := by
  induction l generalizing s with
  | nil => exact ⟨fun t ht => ⟨ht, not_mem_nil⟩, rfl, rfl, fun _ _ => rfl⟩
  | cons a l ih =>
    have h := ih (s := rtThreadResume { s with error := update s.error a .error } a) (hs.erase a)
    refine ⟨fun t ht => ?_, h.receiving, h.eventSet, fun t ht => ?_⟩
    · obtain ⟨hm, hno⟩ := h.mem t ht
      obtain ⟨hta, hm⟩ := hs.mem_erase_iff.mp hm
      exact ⟨hm, fun hc => (mem_cons.mp hc).elim hta hno⟩
    · have hta : t ≠ a := fun he => ht (he ▸ mem_cons_self ..)
      exact (h.error t fun hm => ht (mem_cons_of_mem _ hm)).trans (update_of_ne hta _ _)

theorem rtEventReset_suspendThread (hs : s.suspendThread.Nodup) : (rtEventReset s).suspendThread = [] :=
  eq_nil_iff_forall_not_mem.mpr fun t ht =>
    ((ipcListResumeAll_spec hs s.suspendThread).mem t ht).2 ((ipcListResumeAll_spec hs s.suspendThread).mem t ht).1

theorem rtEventRecvEnd_fst (s : State Tid) (t : Tid) :
    (rtEventRecvEnd s t).1 = { s with receiving := update s.receiving t false } := by
  simp only [rtEventRecvEnd]
  split <;> rfl

theorem step_good (h : Inv s)
    (hgo : step s a = some (s', o)) : Good s s' a := by
  cases a with
  | send b =>
    cases hgo
    exact rtEventSend_good h b
  | recv t set option timeout =>
    simp only [step] at hgo
    split at hgo
    · cases hgo
    rename_i hr
    obtain ⟨r, hrecv, heq⟩ := map_eq_some_iff.mp hgo
    cases heq
    exact rtEventRecv_good h (Bool.not_eq_true _ ▸ hr) hrecv
  | timeout t =>
    simp only [step] at hgo
    split at hgo
    · rename_i hcan
      cases hgo
      have hne : ∀ x, x ∈ s.suspendThread.erase t → x ≠ t := fun x hx => (h.nodup.mem_erase_iff.mp hx).1
      refine ⟨h.shrink (h.nodup.erase t) (fun x hx => ⟨mem_of_mem_erase hx, rfl, rfl, rfl,
        update_of_ne (hne x hx) _ _⟩) fun _ hi => hi, fun x hr hx _ => ?_⟩
      have hxt : x ≠ t := fun he => hx (he ▸ hcan.1)
      exact ⟨fun hm => hx (mem_of_mem_erase hm), hr, rfl, update_of_ne hxt _ _⟩
    · cases hgo
  | recvEnd t =>
    simp only [step] at hgo
    split at hgo
    · rename_i hcan
      cases hgo
      rw [rtEventRecvEnd_fst]
      have hne : ∀ x ∈ s.suspendThread, x ≠ t := fun x hx he => hcan.2 (he ▸ hx)
      refine ⟨h.shrink h.nodup (fun x hx => ⟨hx, update_of_ne (hne x hx) _ _, rfl, rfl, rfl⟩) fun _ hi => hi,
        fun x hr hx hno => ?_⟩
      have hxt : x ≠ t := fun he => hno (he ▸ rfl)
      exact ⟨hx, (update_of_ne hxt _ _).trans hr, rfl, rfl⟩
    · cases hgo
  | reset =>
    cases hgo
    have hall := ipcListResumeAll_spec h.nodup s.suspendThread
    have hnil := rtEventReset_suspendThread h.nodup
    refine ⟨h.shrink (by rw [hnil]; exact nodup_nil) (fun x hx => ?_) fun i hi => ?_, fun x hr hx _ => ?_⟩
    · rw [hnil] at hx
      cases hx
    · simp [rtEventReset] at hi
    · refine ⟨by rw [hnil]; exact not_mem_nil, ?_, ?_, hall.error x hx⟩
      · exact (congrFun hall.receiving x).trans hr
      · exact congrFun hall.eventSet x
  | changePriority t priority =>
    cases hgo
    exact ⟨h.shrink h.nodup (fun x hx => ⟨hx, rfl, rfl, rfl, rfl⟩) fun _ hi => hi,
      fun x hr hx _ => ⟨hx, hr, rfl, rfl⟩⟩

theorem run_inv (h : Inv s)
    (hgo : run s as = some (s', rets)) : Inv s' := by
  induction as generalizing s rets with
  | nil =>
    cases hgo
    exact h
  | cons a as ih =>
    obtain ⟨⟨s1, o⟩, ⟨s2, rets'⟩, hstep, hrun, ⟨⟩⟩ := Lib.Runs.of_bind_map hgo
    exact ih (step_good h hstep).1 hrun

theorem run_keeps (h : Inv s)
    (hgo : run s as = some (s', rets)) (hr : s.receiving t = true) (ht : t ∉ s.suspendThread)
    (hno : .recvEnd t ∉ as) : Keeps s s' t := by
  induction as generalizing s rets with
  | nil =>
    cases hgo
    exact ⟨ht, hr, rfl, rfl⟩
  | cons a as ih =>
    obtain ⟨⟨s1, o⟩, ⟨s2, rets'⟩, hstep, hrun, ⟨⟩⟩ := Lib.Runs.of_bind_map hgo
    obtain ⟨hinv, hkeep⟩ := step_good h hstep
    have h1 := hkeep t hr ht fun he => hno (he ▸ mem_cons_self ..)
    have h2 := ih hinv hrun h1.receiving h1.out fun hm => hno (mem_cons_of_mem _ hm)
    exact ⟨h2.out, h2.receiving, h2.eventSet.trans h1.eventSet, h2.error.trans h1.error⟩

/-! ## A lone waiter -/

/-- The thread `t` is the only one that waits, in every state of a run. -/
def Lone (t : Tid) (s : State Tid) : List (Act Tid) → Prop
  | [] => s.suspendThread = [t]
  | a :: as => s.suspendThread = [t] ∧ ∀ r, step s a = some r → Lone t r.1 as

theorem Lone.now (h : Lone t s as) : s.suspendThread = [t] := by
  cases as with
  | nil => exact h
  | cons a as => exact h.1

/-- `s0` is `s` without the call of the lone waiter `t`. -/
structure Apart (t : Tid) (s s0 : State Tid) : Prop where
  lone : s.suspendThread = [t]
  nobody : s0.suspendThread = []
  inside : s.receiving t = true
  outside : s0.receiving t = false
  set : s0.set = s.set
  others : ∀ x, x ≠ t → s0.receiving x = s.receiving x ∧ s0.eventSet x = s.eventSet x ∧ s0.error x = s.error x

theorem rtEventSend_nobody (hs : s.suspendThread = []) (hb : b ≠ 0#_) :
    rtEventSend s b = ({ s with set := s.set ||| b }, .eok) := by
  rw [rtEventSend, if_neg hb, hs]
  rfl

theorem rtEventSend_lone (hs : s.suspendThread = [t]) (hf : Flagged (s.eventInfo t)) (hb : b ≠ 0#_) :
    rtEventSend s b = if Wanted (s.eventInfo t) (s.eventSet t) (s.set ||| b) then
      (release { s with set := s.set ||| b } t, .eok) else ({ s with set := s.set ||| b }, .eok) := by
  have hcons := sendLoop_cons (s := { s with set := s.set ||| b }) (t := t) hf []
  rw [rtEventSend, if_neg hb]
  simp only [hs] at hcons ⊢
  exact hcons

theorem update_agree {β : Type} {f g : Tid → β} {x y : Tid} {v : β} (h : f y = g y) :
    update f x v y = update g x v y := by
  simp only [update_apply, h]

theorem Apart.step (h : Apart t s s0) (hinv : Inv s) (hgo : step s a = some (s', o)) (hlone : s'.suspendThread = [t]) :
    ∃ s0', Event.step s0 a = some (s0', o) ∧ Apart t s' s0' := by
  have hmem : t ∈ s.suspendThread := by rw [h.lone]; exact mem_singleton_self t
  cases a with
  | send b =>
    cases hgo
    refine ⟨(rtEventSend s0 b).1, rfl, ?_⟩
    by_cases hb : b = 0#_
    · rw [rtEventSend, if_pos hb, rtEventSend, if_pos hb]
      exact h
    rw [rtEventSend_lone h.lone (hinv.flagged t hmem) hb] at hlone ⊢
    rw [rtEventSend_nobody h.nobody hb]
    by_cases hw : Wanted (s.eventInfo t) (s.eventSet t) (s.set ||| b)
    · rw [if_pos hw] at hlone
      simp [release, h.lone] at hlone
    · rw [if_neg hw]
      exact ⟨h.lone, h.nobody, h.inside, h.outside, by rw [h.set], h.others⟩
  | recv x set option timeout =>
    simp only [Event.step] at hgo ⊢
    split at hgo
    · cases hgo
    rename_i hr
    have hxt : x ≠ t := fun he => hr (he ▸ h.inside)
    obtain ⟨r, hrecv, heq⟩ := map_eq_some_iff.mp hgo
    cases heq
    rw [(h.others x hxt).1, if_neg hr]
    by_cases hset : set = 0#_
    · rw [rtEventRecv, if_pos hset] at hrecv
      cases hrecv
      exact ⟨s0, by rw [rtEventRecv, if_pos hset]; rfl, h⟩
    obtain ⟨r0, hr0, hspec0⟩ := rtEventRecv_spec s0 x timeout hset (rtEventRecv_flagged hset hrecv)
    rw [hr0]
    cases rtEventRecv_cases hset hrecv with
    | fast hw =>
      cases hspec0 with
      | fast hw0 =>
        simp only [h.set]
        refine ⟨_, rfl, h.lone, h.nobody, h.inside, h.outside, rfl, fun y hy => ?_⟩
        exact ⟨(h.others y hy).1, update_agree (h.others y hy).2.1, update_agree (h.others y hy).2.2⟩
      | noWait hw0 _ => exact absurd (h.set ▸ hw) hw0
      | blocks hw0 _ => exact absurd (h.set ▸ hw) hw0
    | noWait hw htime =>
      cases hspec0 with
      | fast hw0 => exact absurd (h.set ▸ hw0) hw
      | noWait hw0 _ =>
        refine ⟨_, rfl, h.lone, h.nobody, h.inside, h.outside, h.set, fun y hy => ?_⟩
        exact ⟨(h.others y hy).1, (h.others y hy).2.1, update_agree (h.others y hy).2.2⟩
      | blocks hw0 htime0 => exact absurd htime htime0
    | blocks hw htime =>
      have hx : x ∈ [t] := hlone ▸ mem_ipcListSuspend.mpr (.inl rfl)
      exact absurd (mem_singleton.mp hx) hxt
  | timeout x =>
    simp only [Event.step] at hgo
    split at hgo
    · rename_i hcan
      cases hgo
      have hx : x = t := mem_singleton.mp (h.lone ▸ hcan.1)
      simp [threadTimeout, h.lone, hx] at hlone
    · cases hgo
  | recvEnd x =>
    simp only [Event.step] at hgo ⊢
    split at hgo
    · rename_i hcan
      cases hgo
      have hxt : x ≠ t := fun he => hcan.2 (he ▸ hmem)
      obtain ⟨hrecv, heset, herr⟩ := h.others x hxt
      have hret : (rtEventRecvEnd s0 x).2 = (rtEventRecvEnd s x).2 := by
        simp only [rtEventRecvEnd, herr, heset]
        split <;> rfl
      rw [hrecv, if_pos ⟨hcan.1, by rw [h.nobody]; exact not_mem_nil⟩, hret]
      refine ⟨_, rfl, ?_⟩
      rw [rtEventRecvEnd_fst, rtEventRecvEnd_fst]
      refine ⟨h.lone, h.nobody, (update_of_ne hxt.symm _ _).trans h.inside,
        (update_of_ne hxt.symm _ _).trans h.outside, h.set, fun y hy => ⟨update_agree (h.others y hy).1, (h.others y hy).2⟩⟩
    · cases hgo
  | reset =>
    cases hgo
    rw [rtEventReset_suspendThread hinv.nodup] at hlone
    cases hlone
  | changePriority x priority =>
    cases hgo
    exact ⟨_, rfl, h.lone, h.nobody, h.inside, h.outside, h.set, h.others⟩

theorem Apart.run (h : Apart t s s0) (hinv : Inv s) (hlone : Lone t s as) (hgo : run s as = some (s', rets)) :
    ∃ s0', Event.run s0 as = some (s0', rets) ∧ Apart t s' s0' := by
  induction as generalizing s s0 rets with
  | nil =>
    cases hgo
    exact ⟨s0, rfl, h⟩
  | cons a as ih =>
    obtain ⟨⟨s1, o⟩, ⟨s2, rets'⟩, hstep, hrun, ⟨⟩⟩ := Lib.Runs.of_bind_map hgo
    have hlone1 := hlone.2 _ hstep
    obtain ⟨s01, hstep0, h1⟩ := h.step hinv hstep hlone1.now
    obtain ⟨s02, hrun0, h2⟩ := ih h1 (step_good hinv hstep).1 hlone1 hrun
    exact ⟨s02, by simp [Event.run, hstep0, hrun0], h2⟩

theorem received_eq (h : Wanted info eventSet set) : received info eventSet set = set &&& eventSet := by
  unfold received
  unfold Wanted at h
  rw [BitVec.and_comm set eventSet]
  split
  · rename_i hand
    rw [if_pos hand] at h
    exact h.symm
  · rfl

theorem left_eq (h : Wanted info eventSet set) :
    left info eventSet set = if info &&& eventFlagClear ≠ 0#_ then set &&& ~~~eventSet else set := by
  unfold left
  rw [received_eq h]
  split
  · refine BitVec.eq_of_getLsbD_eq fun i _ => ?_
    rw [getLsbD_andNot, getLsbD_andNot, BitVec.getLsbD_and]
    cases set.getLsbD i <;> simp
  · rfl

/-- What the call of a lone waiter has stored. -/
structure Waiting (s : State Tid) (t : Tid) (set : BitVec 32) (option : BitVec 8) : Prop where
  eventSet : s.eventSet t = set
  eventInfo : s.eventInfo t = option

theorem Waiting.step (h : Waiting s t set option) (hinv : Inv s) (ht : t ∈ s.suspendThread)
    (hgo : step s a = some (s', o)) (ht' : t ∈ s'.suspendThread) : Waiting s' t set option := by
  cases a with
  | send b =>
    cases hgo
    unfold rtEventSend at ht' ⊢
    split at ht'
    · rename_i hb
      rw [if_pos hb]
      exact h
    · rename_i hb
      rw [if_neg hb]
      have hw : Walked { s with set := s.set ||| b } s.suspendThread
          (sendLoop { s with set := s.set ||| b } s.suspendThread) :=
        sendLoop_walked hinv.nodup hinv.nodup hinv.flagged
      exact ⟨(hw.eventSet t (.inl ht')).trans h.eventSet, (congrFun hw.info t).trans h.eventInfo⟩
  | recv x set' option' timeout =>
    simp only [Event.step] at hgo
    split at hgo
    · cases hgo
    rename_i hr
    have hxt : t ≠ x := fun he => hr (he ▸ hinv.receiving t ht)
    obtain ⟨r, hrecv, heq⟩ := map_eq_some_iff.mp hgo
    cases heq
    by_cases hset : set' = 0#_
    · rw [rtEventRecv, if_pos hset] at hrecv
      cases hrecv
      exact h
    cases rtEventRecv_cases hset hrecv with
    | fast hw =>
      exact ⟨(update_of_ne hxt _ _).trans h.eventSet, (update_of_ne hxt _ _).trans h.eventInfo⟩
    | noWait hw htime => exact ⟨h.eventSet, h.eventInfo⟩
    | blocks hw htime =>
      exact ⟨(update_of_ne hxt _ _).trans h.eventSet, (update_of_ne hxt _ _).trans h.eventInfo⟩
  | timeout x =>
    simp only [Event.step] at hgo
    split at hgo <;> cases hgo
    exact ⟨h.eventSet, h.eventInfo⟩
  | recvEnd x =>
    simp only [Event.step] at hgo
    split at hgo <;> cases hgo
    rw [rtEventRecvEnd_fst]
    exact ⟨h.eventSet, h.eventInfo⟩
  | reset =>
    cases hgo
    rw [rtEventReset_suspendThread hinv.nodup] at ht'
    cases ht'
  | changePriority x priority =>
    cases hgo
    exact ⟨h.eventSet, h.eventInfo⟩

theorem Waiting.run (h : Waiting s t set option) (hinv : Inv s) (hlone : Lone t s as)
    (hgo : run s as = some (s', rets)) : Waiting s' t set option := by
  induction as generalizing s rets with
  | nil =>
    cases hgo
    exact h
  | cons a as ih =>
    obtain ⟨⟨s1, o⟩, ⟨s2, rets'⟩, hstep, hrun, ⟨⟩⟩ := Lib.Runs.of_bind_map hgo
    have hlone1 := hlone.2 _ hstep
    have hmem : ∀ x : State Tid, x.suspendThread = [t] → t ∈ x.suspendThread := fun x hx => by
      rw [hx]; exact mem_singleton_self t
    have h1 := h.step hinv (hmem s hlone.now) hstep (hmem s1 hlone1.now)
    exact ih h1 (step_good hinv hstep).1 hlone1 hrun

theorem Apart.recv_after (h : Apart t s s0)
    (timeout : Int) (hset : set ≠ 0#_) (hf : Flagged option) (hb : b ≠ 0#_) (hw : Wanted option set (s.set ||| b)) :
    ∃ s3, rtEventRecv (rtEventSend s0 b).1 t set option timeout = some (s3, some ⟨.eok, some ((s.set ||| b) &&& set)⟩) ∧
      s3.set = left option set (s.set ||| b) := by
  rw [rtEventSend_nobody h.nobody hb, h.set]
  obtain ⟨r, hr, hspec⟩ := rtEventRecv_spec { s0 with set := s.set ||| b } t timeout hset hf
  rw [hr]
  cases hspec with
  | fast _ => exact ⟨_, rfl, (left_eq hw).symm⟩
  | noWait hno _ => exact absurd hw hno
  | blocks hno _ => exact absurd hw hno

/-- **No satisfied waiter is left asleep.** No thread in the list has its wait condition true of the event set.
And a thread that waits alone until a send satisfies it would have received the same bits, and left the same
event set, had the send come before its `rt_event_recv`. -/
theorem no_waiter_left_asleep (flag : IpcFlag) (s₀ : State Tid) {as : List (Act Tid)} {s : State Tid}
    {rets : List (Tid × Ret)} (hrun : run (rtEventInit flag s₀) as = some (s, rets)) :
    (∀ t ∈ s.suspendThread, ¬ s.Satisfied t) ∧
      ∀ t set option timeout s1, s.suspendThread = [] → step s (.recv t set option timeout) = some (s1, none) →
        ∀ bs s2 rets2, Lone t s1 bs → run s1 bs = some (s2, rets2) →
        ∀ b, t ∉ (rtEventSend s2 b).1.suspendThread →
          ∃ s2' s3 bits, run s bs = some (s2', rets2) ∧
            rtEventRecv (rtEventSend s2' b).1 t set option timeout = some (s3, some ⟨.eok, some bits⟩) ∧
            s3.set = (rtEventSend s2 b).1.set ∧
            ∀ cs s4 rets4, run (rtEventSend s2 b).1 cs = some (s4, rets4) → .recvEnd t ∉ cs →
              ∃ s5, step s4 (.recvEnd t) = some (s5, some (t, ⟨.eok, some bits⟩)) := by
  have hinv := run_inv (rtEventInit_inv flag s₀) hrun
  refine ⟨hinv.asleep, fun t set option timeout s1 hnobody hblock bs s2 rets2 hlone hrun2 b hout => ?_⟩
  -- the call blocks
  have hinv1 := (step_good hinv hblock).1
  simp only [step] at hblock
  split at hblock
  · cases hblock
  rename_i hr
  obtain ⟨r, hrecv, heq⟩ := map_eq_some_iff.mp hblock
  have hset : set ≠ 0#_ := by
    intro h0
    rw [rtEventRecv, if_pos h0] at hrecv
    cases hrecv
    cases heq
  have hf := rtEventRecv_flagged hset hrecv
  have hr : s.receiving t = false := Bool.not_eq_true _ ▸ hr
  have hapart : Apart t s1 s ∧ Waiting s1 t set option := by
    cases rtEventRecv_cases hset hrecv with
    | fast hw => cases heq
    | noWait hw htime => cases heq
    | blocks hw htime =>
      cases heq
      refine ⟨⟨hlone.now, hnobody, update_self .., hr, rfl, fun x hx => ?_⟩,
        ⟨update_self .., update_self ..⟩⟩
      exact ⟨(update_of_ne hx _ _).symm, (update_of_ne hx _ _).symm, (update_of_ne hx _ _).symm⟩
  obtain ⟨s2', hrun2', hapart2⟩ := hapart.1.run hinv1 hlone hrun2
  have hwait := hapart.2.run hinv1 hlone hrun2
  have hinv2 := run_inv hinv1 hrun2
  have hmem2 : t ∈ s2.suspendThread := by rw [hapart2.lone]; exact mem_singleton_self t
  -- the send satisfies it
  have hb : b ≠ 0#_ := by
    intro h0
    rw [rtEventSend, if_pos h0] at hout
    exact hout hmem2
  have hsend := rtEventSend_lone hapart2.lone (hinv2.flagged t hmem2) hb
  rw [hwait.eventInfo, hwait.eventSet] at hsend
  have hw : Wanted option set (s2.set ||| b) := by
    by_contra hno
    rw [hsend, if_neg hno] at hout
    exact hout hmem2
  rw [if_pos hw] at hsend
  obtain ⟨s3, hrecv3, hset3⟩ := hapart2.recv_after timeout hset hf hb hw
  have hinv3 : Inv (rtEventSend s2 b).1 := (rtEventSend_good hinv2 b).1
  have hrecving : (rtEventSend s2 b).1.receiving t = true := by rw [hsend]; exact hapart2.inside
  refine ⟨s2', s3, (s2.set ||| b) &&& set, hrun2', hrecv3, ?_, fun cs s4 rets4 hrun4 hno => ?_⟩
  · rw [hset3, hsend]
    show left option set (s2.set ||| b) = left (s2.eventInfo t) (s2.eventSet t) (s2.set ||| b)
    rw [hwait.eventInfo, hwait.eventSet]
  · have hk := run_keeps hinv3 hrun4 hrecving hout hno
    have herr : s4.error t = .eok := by
      rw [hk.error, hsend]
      exact hinv2.error t hmem2
    have heset : s4.eventSet t = (s2.set ||| b) &&& set := by
      rw [hk.eventSet, hsend, ← received_eq hw]
      show update s2.eventSet t (received (s2.eventInfo t) (s2.eventSet t) (s2.set ||| b)) t = _
      rw [update_self, hwait.eventInfo, hwait.eventSet]
    refine ⟨(rtEventRecvEnd s4 t).1, ?_⟩
    simp [step, hk.receiving, hk.out, rtEventRecvEnd, herr, heset]

/-- Two threads, before the event object is there. -/
def twoThreads : State (Fin 2) :=
  ⟨0#_, [], .prio, fun _ => 10, fun _ => 0#_, fun _ => 0#_, fun _ => .eok, fun _ => false, fun _ => false⟩

/-- Thread 0 waits for any of bits 0 and 1 and takes them away, and bit 2 is sent. -/
def waitsForAny : List (Act (Fin 2)) := [.recv 0 3#_ (eventFlagOr ||| eventFlagClear) 10, .send 4#_]

theorem no_waiter_left_asleep_two : ∃ s rets, run (rtEventInit .prio twoThreads) waitsForAny = some (s, rets) ∧
    s.suspendThread = [0] ∧ (∀ t ∈ s.suspendThread, ¬ s.Satisfied t) ∧
    (rtEventSend s 10#_).1.suspendThread = [] ∧ (rtEventSend s 10#_).1.set = 12#_ :=
  Lib.Runs.exists_pair_that (R := fun s _ => s.suspendThread = [0] ∧ (rtEventSend s 10#_).1.suspendThread = [] ∧
    (rtEventSend s 10#_).1.set = 12#_) (by decide +kernel) fun _ _ hrun hend =>
      ⟨hend.1, (no_waiter_left_asleep .prio twoThreads hrun).1, hend.2⟩

end RtosKernel.RtThread.Event
