import RtosKernel.Lib.Runs
import RtosKernel.Ucos.Mutex

/-! # The ways a step can go

Each call is taken apart once: what it leaves is written with the few operations of
`Outcome`, together with what is known about the state before it. -/

namespace RtosKernel.Ucos.Mutexes
open Lib.Containers Lib.Runs

variable {T M : Type} [DecidableEq T] [DecidableEq M]
variable {c : Config} {fuel : Nat} {k k' : Kernel T M} {t cur owner : T} {m : M}

omit [DecidableEq T] [DecidableEq M] in
theorem grpHighest_congr (htcb : k'.tcb = k.tcb) (hpend : k'.pend = k.pend) (p : Nat) (grp : List M) :
    grpHighest k' p grp = grpHighest k p grp := by
  induction grp generalizing p with
  | nil => rfl
  | cons m grp ih => simp only [grpHighest, htcb, hpend, ih]

omit [DecidableEq T] [DecidableEq M] in
theorem prioOwn_congr (htcb : k'.tcb = k.tcb) (hpend : k'.pend = k.pend) (t : T) :
    prioOwn c k' t = prioOwn c k t := by
  unfold prioOwn os_MutexGrpPrioFindHighest
  rw [htcb, grpHighest_congr htcb hpend]

theorem release_setMutex (v : Mutex T) :
    ((k.setMutex m v).setGrp cur ((k.tcb cur).mutexGrp.erase m)).setMutex m ⟨none, 0⟩ = k.release cur m := by
  simp only [Kernel.release, Kernel.setGrp, Kernel.setTcb, Kernel.setMutex, Function.update_idem]

theorem pend_outcome {nonBlocking timeout : Bool} {r : Option Err} (hrdy : (k.tcb cur).taskState = .rdy)
    (h : osMutexPend c fuel k cur m nonBlocking timeout = .ok (k', r)) :
    Outcome c fuel k (.pend cur m nonBlocking timeout) k' := by
  unfold osMutexPend at h
  by_cases hfree : (k.mutex m).ownerNestingCtr = 0
  · rw [if_pos hfree] at h
    cases h
    exact .taken hrdy hfree
  rw [if_neg hfree] at h
  by_cases hmine : (k.mutex m).ownerTCBPtr = some cur
  · rw [if_pos hmine] at h
    split at h
    · cases h
      exact .same
    · cases h
      exact .nested hfree
  rw [if_neg hmine] at h
  cases nonBlocking with
  | true =>
    cases h
    exact .same
  | false =>
    rw [if_neg (by decide)] at h
    split at h
    · cases h
    rename_i owner howner
    obtain ⟨k₁, hraise, hk⟩ := map_eq_ok h
    cases hk
    exact .waits hrdy howner (fun heq => hmine (heq ▸ howner)) hraise

theorem lowered_take (v : Mutex T) {k₁ : Kernel T M} (hk : k₁.setMutex m ⟨none, 0⟩ = k) :
    (if (k₁.tcb cur).prio ≠ (k₁.tcb cur).basePrio then
        let prioNew := prioOwn c k₁ cur
        if prioNew > (k₁.tcb cur).prio then k₁.setPrio cur prioNew else k₁
      else k₁).setMutex m v = (k.lowered c cur).setMutex m v := by
  subst hk
  have htcb : (k₁.setMutex m ⟨none, 0⟩).tcb = k₁.tcb := rfl
  have hown : prioOwn c (k₁.setMutex m ⟨none, 0⟩) cur = prioOwn c k₁ cur := prioOwn_congr htcb rfl cur
  unfold Kernel.lowered
  rw [hown, tcb_setMutex]
  by_cases hne : (k₁.tcb cur).prio ≠ (k₁.tcb cur).basePrio
  · by_cases hlt : prioOwn c k₁ cur > (k₁.tcb cur).prio
    · rw [if_pos hne, if_pos hlt, if_pos ⟨hne, hlt⟩]
      simp only [Kernel.setPrio, Kernel.setTcb, Kernel.setMutex, Function.update_idem]
    · rw [if_pos hne, if_neg hlt, if_neg fun h => hlt h.2]
      simp only [Kernel.setMutex, Function.update_idem]
  · rw [if_neg hne, if_neg (fun h => hne h.1)]
    simp only [Kernel.setMutex, Function.update_idem]

theorem post_outcome {r : Err} (hrdy : (k.tcb cur).taskState = .rdy) (h : osMutexPost c k cur m = .ok (k', r)) :
    Outcome c fuel k (.post cur m) k' := by
  unfold osMutexPost at h
  dsimp only at h
  by_cases howner : (k.mutex m).ownerTCBPtr = some cur
  · rw [if_neg (fun hne => hne howner)] at h
    split at h
    · rename_i hpos
      cases h
      exact .unnested howner hpos
    · obtain ⟨k₁, hgrp, h⟩ := bind_eq_ok h
      obtain ⟨hmem, hk₁⟩ : m ∈ (k.tcb cur).mutexGrp ∧ _ = k₁ := by
        unfold os_MutexGrpRemove at hgrp
        split at hgrp
        · exact ⟨by assumption, Except.ok.inj hgrp⟩
        · cases hgrp
      have hrelease : k₁.setMutex m ⟨none, 0⟩ = k.release cur m := by
        subst hk₁
        exact release_setMutex _
      have hitems : k₁.pend.items m = k.pend.items m := by
        subst hk₁
        rfl
      rw [hitems] at h
      cases hhead : (k.pend.items m).head? with
      | none =>
        rw [hhead] at h
        cases h
        rw [hrelease]
        exact .freed howner (List.head?_eq_none_iff.mp hhead)
      | some t =>
        rw [hhead] at h
        dsimp only at h
        rw [lowered_take ⟨some t, 1⟩ hrelease] at h
        cases h
        exact .handedOver hrdy howner hhead
  · rw [if_pos howner] at h
    cases h
    exact .same

theorem pendAbort_outcome {all : Bool} {r : Err} (h : osMutexPendAbort c fuel k m all = .ok (k', r)) :
    Outcome c fuel k (.pendAbort cur m all) k' := by
  unfold osMutexPendAbort at h
  split at h
  · cases h
    exact .same
  · obtain ⟨k₁, hloop, hk⟩ := map_eq_ok h
    cases hk
    exact .aborted hloop

theorem timeout_outcome (h : tickPendTimeout c fuel k t = .ok k') : Outcome c fuel k (.timeout t) k' := by
  unfold tickPendTimeout at h
  split at h
  · cases h
  rename_i m hpend
  dsimp only at h
  split at h
  · rename_i howner
    cases h
    exact .left hpend howner
  · rename_i owner howner
    exact .timedOut hpend howner h

theorem changePrio_outcome {p : Nat} {r : Err} (h : osTaskChangePrio c fuel k t p = .ok (k', r)) :
    Outcome c fuel k (.changePrio cur t p) k' := by
  unfold osTaskChangePrio at h
  split at h
  · cases h
    exact .same
  · rename_i halive
    split at h
    · cases h
      exact .same
    · rename_i hlt
      obtain ⟨k₁, hchange, hk⟩ := map_eq_ok h
      cases hk
      exact .changed halive (Nat.lt_of_not_le hlt) hchange

theorem postAll_eq (k : Kernel T M) (t : T) :
    (if (k.tcb t).mutexGrp ≠ [] then os_MutexGrpPostAll k t else .ok k) = grpPostAll k t (k.tcb t).mutexGrp := by
  cases hgrp : (k.tcb t).mutexGrp with
  | nil => rfl
  | cons m grp =>
    rw [if_pos (by simp), os_MutexGrpPostAll, hgrp]

theorem del_outcome {r : Err} (h : osTaskDel c fuel k t = .ok (k', r)) : Outcome c fuel k (.del cur t) k' := by
  unfold osTaskDel at h
  split at h
  · cases h
    exact .same
  · rename_i halive
    obtain ⟨k₂, hpost, hk⟩ := map_eq_ok h
    cases hk
    obtain ⟨k₁, hleave, hpost⟩ := bind_eq_ok hpost
    rw [postAll_eq] at hpost
    refine .deleted halive ?_ hpost
    cases hstate : (k.tcb t).taskState with
    | rdy =>
      rw [hstate] at hleave
      cases hleave
      exact .inr ⟨rfl, rfl⟩
    | pend timeout =>
      rw [hstate] at hleave
      exact .inl ⟨timeout, rfl, hleave⟩
    | del => exact absurd hstate halive

/-- **The ways a step can go.** -/
theorem step_outcome {e : Event T M} (h : step c fuel k e = .ok k') : Outcome c fuel k e k' := by
  cases e with
  | timeout t =>
    simp only [step] at h
    split at h
    · exact timeout_outcome h
    · cases h
  | pend cur m nonBlocking timeout =>
    simp only [step] at h
    split at h
    · rename_i hrdy
      obtain ⟨⟨k', r⟩, hgo, rfl⟩ := map_eq_ok h
      exact pend_outcome hrdy hgo
    · cases h
  | post cur m =>
    simp only [step] at h
    split at h
    · rename_i hrdy
      obtain ⟨⟨k', r⟩, hgo, rfl⟩ := map_eq_ok h
      exact post_outcome hrdy hgo
    · cases h
  | pendAbort cur m all =>
    simp only [step] at h
    split at h
    · obtain ⟨⟨k', r⟩, hgo, rfl⟩ := map_eq_ok h
      exact pendAbort_outcome hgo
    · cases h
  | changePrio cur t p =>
    simp only [step] at h
    split at h
    · obtain ⟨⟨k', r⟩, hgo, rfl⟩ := map_eq_ok h
      exact changePrio_outcome hgo
    · cases h
  | del cur t =>
    simp only [step] at h
    split at h
    · obtain ⟨⟨k', r⟩, hgo, rfl⟩ := map_eq_ok h
      exact del_outcome hgo
    · cases h

end RtosKernel.Ucos.Mutexes
