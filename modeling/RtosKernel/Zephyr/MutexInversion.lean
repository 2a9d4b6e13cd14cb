import Mathlib.Data.Fintype.Pi
import RtosKernel.Zephyr.MutexResidue

/-! # Priority inversion

A mutex knows only its own waiting threads and the one priority it remembers, so the owner falls behind when
this priority is restored while threads wait for other mutexes of the same owner, and when the owner is raised
while it waits for a mutex itself. -/

namespace RtosKernel.Zephyr.Mutexes
open Lib.Runs Zephyr.WaitQ

variable {T M : Type} [DecidableEq T] [DecidableEq M]

section Conditions
variable (ceiling : Int)

/-- A priority is as urgent as that of a thread, up to the ceiling. -/
def Reaches (s : System T M) (prio : Int) (t : T) : Prop := prio ≤ max (s.prio t) ceiling
  deriving Decidable

/-- The owner of each mutex is as urgent as every thread that waits for it. -/
def NoInversion (s : System T M) : Prop :=
  ∀ m o w, (s.mutex m).owner = some o → w ∈ (s.mutex m).waitQ → Reaches ceiling s (s.prio o) w

/-- Who waits for a mutex of this thread is reached by the priority the mutex `m` remembers or by the first thread
that waits for `m`. -/
def Covered (s : System T M) (m : M) (o : T) : Prop :=
  ∀ m' w, (s.mutex m').owner = some o → w ∈ (s.mutex m').waitQ → Reaches ceiling s (s.mutex m).ownerOrigPrio w ∨
    ∃ h, zPriqDumbBest (s.mutex m).waitQ = some h ∧ Reaches ceiling s (s.prio h) w

/-- If this thread waits itself, it waits for owners that reach the thread `t`. -/
def Ahead (s : System T M) (o t : T) : Prop :=
  ∀ m o', o ∈ (s.mutex m).waitQ → (s.mutex m).owner = some o' → Reaches ceiling s (s.prio o') t

/-- When an owner has its priority changed, nothing is forgotten. -/
def Heeds (s : System T M) : Event T M → Prop
  -- the owner that is raised does not wait for a less urgent one
  | .lock t m noWait => noWait = false → ∀ o, (s.mutex m).owner = some o → o ≠ t → Ahead ceiling s o t
  -- the old priority is enough for the other mutexes, and the first thread that waits is enough for the rest
  | .unlock t m => (s.mutex m).owner = some t → (s.mutex m).lockCount ≤ 1 →
      (∀ m' ≠ m, (s.mutex m').owner = some t → ∀ w ∈ (s.mutex m').waitQ,
        Reaches ceiling s (s.mutex m).ownerOrigPrio w) ∧
      ∀ h, zPriqDumbBest (s.mutex m).waitQ = some h → ∀ w ∈ (s.mutex m).waitQ, Reaches ceiling s (s.prio h) w
  | .timeout _ => True
  -- what the owner goes back to is enough for all its mutexes, and not too much for a mutex it waits for
  | .timedOut t => ∀ m o, s.phase t = .timedOut m → (s.mutex m).owner = some o →
      Covered ceiling s m o ∧
      ∀ m' o', o ∈ (s.mutex m').waitQ → (s.mutex m').owner = some o' →
        s.prio o' ≤ max (s.mutex m).ownerOrigPrio ceiling ∧
        ∀ h, zPriqDumbBest (s.mutex m).waitQ = some h → Reaches ceiling s (s.prio o') h

end Conditions

variable {created : T → Int} {ceiling : Int} {s s' : System T M} {t u o : T} {m : M} {p : Int} {e : Event T M}

theorem newPrioForInheritance_eq (target limit : Int) :
    newPrioForInheritance ceiling target limit = max (min target limit) ceiling := by
  have hmin : (if zIsPrioHigher target limit then target else limit) = min target limit := by
    by_cases hup : target < limit
    · rw [if_pos (show zIsPrioHigher target limit from hup)]
      omega
    · rw [if_neg (show ¬zIsPrioHigher target limit from hup)]
      omega
  rw [newPrioForInheritance, hmin, zGetNewPrioWithCeiling]
  split <;> omega

omit [DecidableEq M] in
theorem prio_raise (s : System T M) (o u : T) (p : Int) :
    (s.raise o p).prio u = if u = o then min p (s.prio o) else s.prio u := by
  unfold System.raise
  by_cases hup : p < s.prio o
  · rw [if_pos (show zIsPrioHigher p (s.prio o) from hup), prio_zSetPrio]
    split
    · omega
    · rfl
  · rw [if_neg (show ¬zIsPrioHigher p (s.prio o) from hup)]
    split
    · rename_i huo
      rw [huo]
      omega
    · rfl

omit [DecidableEq M] in
theorem mutex_raise (s : System T M) (o : T) (p : Int) : (s.raise o p).mutex = s.mutex := by
  unfold System.raise
  split <;> rfl

/-- Nobody waits for a mutex without an owner. -/
def Attended (s : System T M) : Prop := ∀ m, (s.mutex m).owner = none → (s.mutex m).waitQ = []

/-- The invariant of runs in which nothing is forgotten. -/
structure Steady (ceiling : Int) (created : T → Int) (s : System T M) : Prop where
  inv : Inv created s
  attended : Attended s
  no_inversion : NoInversion ceiling s

omit [DecidableEq T] in
theorem Attended.setMutex (h : Attended s) {v : Mutex T} (hv : v.owner = none → v.waitQ = []) :
    Attended (s.setMutex m v) := by
  intro m' hnone
  rw [mutex_setMutex] at hnone ⊢
  split at hnone
  · rename_i hm
    rw [if_pos hm]
    exact hv hnone
  · rename_i hm
    rw [if_neg hm]
    exact h m' hnone

theorem Attended.step (h : Attended s) (hstep : Mutexes.step ceiling s e = .ok s') : Attended s' := by
  cases step_outcome hstep with
  | taken hidle hfree => exact h.setMutex (by simp)
  | nested hidle hheld howner => exact h.setMutex (by simp)
  | waits hidle hheld howner hother =>
    refine Attended.setMutex (s := System.raise s _ _) ?_ fun hnone => ?_
    · unfold Attended
      rw [mutex_raise]
      exact h
    · rw [mutex_raise, howner] at hnone
      cases hnone
  | busy => exact h
  | notOwner howner => exact h
  | unnested hidle howner hmany => exact h.setMutex fun hnone => h _ hnone
  | handedOver hidle howner hlast hbest => exact h.setMutex (by simp)
  | freed hidle howner hlast hbest => exact h.setMutex fun _ => List.head?_eq_none_iff.mp hbest
  | timeout hpending =>
    refine h.setMutex fun hnone => ?_
    rw [h _ hnone, List.erase_nil]
  | timedOut hphase howner => exact h

section
variable (h : NoInversion ceiling s)
include h

omit [DecidableEq T] in
theorem NoInversion.setMutex {v : Mutex T} (howner : v.owner = (s.mutex m).owner)
    (hwaitQ : ∀ w ∈ v.waitQ, w ∈ (s.mutex m).waitQ) : NoInversion ceiling (s.setMutex m v) := by
  intro m' o w ho hw
  rw [mutex_setMutex] at ho hw
  split at ho
  · rename_i hm
    rw [if_pos hm] at hw
    exact h m o w (howner ▸ ho) (hwaitQ w hw)
  · rename_i hm
    rw [if_neg hm] at hw
    exact h m' o w ho hw

theorem NoInversion.taken (hempty : (s.mutex m).waitQ = []) (t : T) : NoInversion ceiling (s.taken m t) := by
  intro m' o w ho hw
  simp only [System.taken, mutex_took, mutex_setMutex] at ho hw
  split at hw
  · rw [hempty] at hw
    cases hw
  · rename_i hm
    rw [if_neg hm] at ho
    exact h m' o w ho hw

theorem NoInversion.waits (howner : (s.mutex m).owner = some o) (hother : o ≠ t) (hahead : Ahead ceiling s o t) :
    NoInversion ceiling ((s.raise o (newPrioForInheritance ceiling (s.prio t) (s.prio o))).zPendCurr m t) := by
  have hprio (u : T) : ((s.raise o (newPrioForInheritance ceiling (s.prio t) (s.prio o))).zPendCurr m t).prio u =
      if u = o then min (max (min (s.prio t) (s.prio o)) ceiling) (s.prio o) else s.prio u := by
    rw [← newPrioForInheritance_eq]
    exact prio_raise s o u _
  intro m' o' w howner' hw
  unfold Reaches
  rw [hprio, hprio]
  have hcases : (s.mutex m').owner = some o' ∧ (w ∈ (s.mutex m').waitQ ∨ m' = m ∧ w = t) := by
    simp only [System.zPendCurr, mutex_setPhase, mutex_setMutex, mutex_raise] at howner' hw
    split at hw
    · rename_i hm
      rw [if_pos hm] at howner'
      subst hm
      exact ⟨howner', (mem_zPriqDumbAdd.mp hw).symm.imp_right fun hwt => ⟨rfl, hwt⟩⟩
    · rename_i hm
      rw [if_neg hm] at howner'
      exact ⟨howner', .inl hw⟩
  clear howner' hw
  obtain ⟨howner', hold | ⟨rfl, rfl⟩⟩ := hcases
  · have hle := h m' o' w howner' hold
    unfold Reaches at hle
    by_cases hwo : w = o
    · subst hwo
      have hreach := hahead m' o' hold howner'
      unfold Reaches at hreach
      split
      · omega
      · omega
    · split
      · rename_i ho
        rw [ho] at hle
        omega
      · exact hle
  · rw [howner] at howner'
    cases howner'
    rw [if_pos rfl, if_neg hother.symm]
    omega

section
variable (hnot : ∀ m, t ∉ (s.mutex m).waitQ)
include hnot

theorem NoInversion.restored
    (hcover : ∀ m' ≠ m, (s.mutex m').owner = some t → ∀ w ∈ (s.mutex m').waitQ,
      Reaches ceiling s (s.mutex m).ownerOrigPrio w)
    {m' : M} {w : T} (hm : m' ≠ m) (howner : (s.mutex m').owner = some o) (hw : w ∈ (s.mutex m').waitQ) :
    Reaches ceiling (s.restored m t) ((s.restored m t).prio o) w := by
  have hwt : w ≠ t := fun hwt => hnot m' (hwt ▸ hw)
  unfold Reaches
  simp only [System.restored, prio_gave, prio_zSetPrio, if_neg hwt]
  split
  · rename_i hot
    exact hcover m' hm (hot ▸ howner) w hw
  · exact h m' o w howner hw

theorem NoInversion.freed
    (hcover : ∀ m' ≠ m, (s.mutex m').owner = some t → ∀ w ∈ (s.mutex m').waitQ,
      Reaches ceiling s (s.mutex m).ownerOrigPrio w) : NoInversion ceiling ((s.restored m t).freed m) := by
  intro m' o w howner hw
  simp only [System.freed, mutex_setMutex] at howner hw
  split at howner
  · cases howner
  rename_i hm
  rw [if_neg hm] at hw
  exact h.restored hnot hcover hm howner hw

theorem NoInversion.handedOver
    (hcover : ∀ m' ≠ m, (s.mutex m').owner = some t → ∀ w ∈ (s.mutex m').waitQ,
      Reaches ceiling s (s.mutex m).ownerOrigPrio w)
    (hu : u ∈ (s.mutex m).waitQ) (hfirst : ∀ w ∈ (s.mutex m).waitQ, Reaches ceiling s (s.prio u) w) :
    NoInversion ceiling ((s.restored m t).handedOver m u) := by
  intro m' o w howner hw
  simp only [System.handedOver, mutex_took, mutex_setPhase, mutex_setMutex] at howner hw
  split at howner
  · rename_i hm
    cases howner
    rw [if_pos hm] at hw
    have hwq : w ∈ (s.mutex m).waitQ := List.mem_of_mem_erase hw
    have hut : u ≠ t := fun hut => hnot m (hut ▸ hu)
    have hwt : w ≠ t := fun hwt => hnot m (hwt ▸ hwq)
    have hreach := hfirst w hwq
    simpa only [Reaches, System.handedOver, System.restored, prio_took, prio_setPhase, prio_setMutex, prio_gave,
      prio_zSetPrio, if_neg hut, if_neg hwt] using hreach
  · rename_i hm
    rw [if_neg hm] at hw
    exact h.restored hnot hcover hm howner hw

end

omit [DecidableEq M] in
theorem NoInversion.setPrio
    (hcover : ∀ m w, (s.mutex m).owner = some o → w ∈ (s.mutex m).waitQ → w ≠ o → p ≤ max (s.prio w) ceiling)
    (hahead : ∀ m o', o ∈ (s.mutex m).waitQ → (s.mutex m).owner = some o' → s.prio o' ≤ max p ceiling) :
    NoInversion ceiling (s.zSetPrio o p) := by
  intro m o' w howner hw
  unfold Reaches
  rw [prio_zSetPrio, prio_zSetPrio]
  by_cases hoo : o' = o <;> by_cases hwo : w = o
  · rw [if_pos hoo, if_pos hwo]
    exact le_max_left _ _
  · rw [if_pos hoo, if_neg hwo]
    exact hcover m w (hoo ▸ howner) hw hwo
  · rw [if_neg hoo, if_pos hwo]
    exact hahead m o' (hwo ▸ hw) howner
  · rw [if_neg hoo, if_neg hwo]
    exact h m o' w howner hw

omit [DecidableEq M] in
theorem NoInversion.timedOut (hcover : Covered ceiling s m o)
    (hahead : ∀ m' o', o ∈ (s.mutex m').waitQ → (s.mutex m').owner = some o' →
      s.prio o' ≤ max (s.mutex m).ownerOrigPrio ceiling ∧
      ∀ h, zPriqDumbBest (s.mutex m).waitQ = some h → Reaches ceiling s (s.prio o') h) :
    NoInversion ceiling (s.zSetPrio o (s.lowered ceiling m)) := by
  unfold Covered Reaches at hcover
  unfold Reaches at hahead
  unfold System.lowered
  cases hbest : zPriqDumbBest (s.mutex m).waitQ with
  | none =>
    rw [hbest] at hcover
    refine h.setPrio (fun m' w howner hw _ => ?_) fun m' o' ho howner => (hahead m' o' ho howner).1
    exact (hcover m' w howner hw).resolve_right nofun
  | some waiter =>
    dsimp only
    rw [newPrioForInheritance_eq]
    refine h.setPrio (fun m' w howner hw _ => ?_) fun m' o' ho howner => ?_
    · rcases hcover m' w howner hw with horig | ⟨first, hfirst, hreach⟩
      · omega
      · rw [hbest] at hfirst
        cases hfirst
        omega
    · obtain ⟨horig, hhead⟩ := hahead m' o' ho howner
      have := hhead waiter hbest
      omega

theorem NoInversion.step (hinv : Inv created s) (hattended : Attended s)
    (hheeds : Heeds ceiling s e) (hstep : Mutexes.step ceiling s e = .ok s') : NoInversion ceiling s' := by
  cases step_outcome hstep with
  | taken hidle hfree => exact h.taken (hattended _ (hinv.free_iff.mp hfree)) _
  | nested hidle hheld howner => exact h.setMutex howner.symm fun _ hw => hw
  | waits hidle hheld howner hother => exact h.waits howner hother (hheeds rfl _ howner hother)
  | busy => exact h
  | notOwner howner => exact h
  | unnested hidle howner hmany => exact h.setMutex rfl fun _ hw => hw
  | handedOver hidle howner hlast hbest =>
    obtain ⟨hcover, hfirst⟩ := hheeds howner hlast
    exact h.handedOver (hinv.not_mem (by rw [hidle]; nofun)) hcover (List.mem_of_mem_head? hbest) (hfirst _ hbest)
  | freed hidle howner hlast hbest =>
    exact h.freed (hinv.not_mem (by rw [hidle]; nofun)) (hheeds howner hlast).1
  | timeout hpending => exact h.setMutex rfl fun _ hw => List.mem_of_mem_erase hw
  | timedOut hphase howner =>
    obtain ⟨hcover, hahead⟩ := hheeds _ _ hphase howner
    exact h.timedOut hcover hahead

end

/-- **One step.** -/
theorem Steady.step (h : Steady ceiling created s) (hcounts : Counts s e) (hreverse : Reverse s e)
    (hheeds : Heeds ceiling s e) (hstep : Mutexes.step ceiling s e = .ok s') : Steady ceiling created s' :=
  ⟨h.inv.step hcounts hreverse hstep, h.attended.step hstep, h.no_inversion.step h.inv h.attended hheeds hstep⟩

/-- **No inversion.** In a run in which locks are given back in the reverse order, no count of locks runs over and
nothing is forgotten when the priority of an owner changes, every owner is as urgent as all that wait. -/
theorem k_mutex_no_inversion {orig : M → Int} {prio : T → Int} {es : List (Event T M)}
    (hes : Along (Mutexes.step ceiling) (fun s e => (Counts s e ∧ Reverse s e) ∧ Heeds ceiling s e)
      (Mutexes.start orig prio) es)
    (hrun : run (Mutexes.step ceiling) (Mutexes.start orig prio) es = .ok s) : NoInversion ceiling s := by
  have hstart : Steady ceiling prio (Mutexes.start orig prio : System T M) :=
    ⟨.start orig prio, fun m _ => rfl, fun m o w howner => nomatch howner⟩
  exact (run_inv (fun s e s' h hp hstep => h.step hp.1.1 hp.1.2 hp.2 hstep) hstart hes hrun).no_inversion

section Decide
variable [Fintype T] [Fintype M] (ceiling) (s)

instance (m : M) (o : T) : Decidable (Covered ceiling s m o) := by
  unfold Covered
  infer_instance

instance (o t : T) : Decidable (Ahead ceiling s o t) := by
  unfold Ahead
  infer_instance

instance (e : Event T M) : Decidable (Heeds ceiling s e) := by
  refine e.casesOn ?_ ?_ ?_ ?_ <;> intros <;> dsimp only [Heeds] <;> infer_instance

end Decide

/-- Thread 0 is raised for the first mutex before it takes the second one; thread 2 gives up and thread 1 is served. -/
def raisedFirst : List (Event (Fin 3) (Fin 2)) :=
  [.lock 0 0 false, .lock 1 0 false, .lock 2 0 false, .lock 0 1 false, .timeout 2, .timedOut 2, .unlock 0 1,
    .unlock 0 0]

theorem k_mutex_no_inversion_raised :
    ∃ s, run (Mutexes.step (-127)) (Mutexes.start (fun _ => 0) fun t => 5 - t.val) raisedFirst = .ok s ∧
      NoInversion (-127) s :=
  exists_ok_and (by decide +kernel) fun _ hrun => k_mutex_no_inversion (by decide +kernel) hrun

/-- **Nobody waits for a free mutex**, in any run. -/
theorem k_mutex_attended {orig : M → Int} {prio : T → Int} {es : List (Event T M)}
    (hrun : run (Mutexes.step ceiling) (Mutexes.start orig prio) es = .ok s) : Attended s :=
  run_inv (fun _ _ _ h _ hstep => h.step hstep) (fun _ _ => rfl) (.of_all (fun _ _ => trivial) _) hrun

theorem k_mutex_attended_raised :
    ∃ s, run (Mutexes.step (-127)) (Mutexes.start (fun _ => 0) fun t => 5 - t.val) raisedFirst = .ok s ∧
      Attended s :=
  exists_ok_and (by decide +kernel) fun _ hrun => k_mutex_attended hrun

/-- Thread 0 takes both mutexes; thread 1 waits for the first one when thread 0 gives the second one back. -/
def raisedLater : List (Event (Fin 2) (Fin 2)) :=
  [.lock 0 0 false, .lock 0 1 false, .lock 1 0 false, .unlock 0 1]

theorem k_mutex_inversion :
    ∃ s, Along (Mutexes.step (-127)) Reverse (Mutexes.start (fun _ => 0) fun t => 5 - t.val) raisedLater ∧
      run (Mutexes.step (-127)) (Mutexes.start (fun _ => 0) fun t => 5 - t.val) raisedLater = .ok s ∧
      (∀ t m, s.phase t ≠ .timedOut m) ∧ ¬NoInversion (-127) s := by
  refine ⟨_, ?_, rfl, by decide, fun hno => absurd (hno 0 0 1 rfl (by decide)) (by decide)⟩
  decide +kernel

end RtosKernel.Zephyr.Mutexes
