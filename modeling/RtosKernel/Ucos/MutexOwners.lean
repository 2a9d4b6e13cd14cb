import RtosKernel.Ucos.MutexSteps

/-! # Who owns a mutex

Ownership is recorded three times: in the owner pointer, in the nesting counter and in
the groups of the tasks. The three agree as long as no task is deleted that owns a mutex
another task waits for. -/

namespace RtosKernel.Ucos.Mutexes
open Lib.Containers Lib.Runs List

variable {T M : Type} [dT : DecidableEq T] [dM : DecidableEq M]

/-- The three records of who owns what agree, and who is in a pend list waits. -/
structure Owned (k : Kernel T M) : Prop where
  lists : k.pend.Ok
  counts : ∀ m, (k.mutex m).ownerNestingCtr = 0 ↔ (k.mutex m).ownerTCBPtr = none
  grp : ∀ t m, m ∈ (k.tcb t).mutexGrp ↔ (k.mutex m).ownerTCBPtr = some t
  nodup : ∀ t, (k.tcb t).mutexGrp.Nodup
  alive : ∀ m t, (k.mutex m).ownerTCBPtr = some t → (k.tcb t).taskState ≠ .del
  waiting : ∀ t m, k.pend.container t = some m → ∃ timeout, (k.tcb t).taskState = .pend timeout

/-- Nobody waits for a mutex without an owner. -/
def Attended (k : Kernel T M) : Prop := ∀ m, (k.mutex m).ownerTCBPtr = none → k.pend.items m = []

/-- Priorities and the order of the pend lists may differ, the rest does not. -/
structure Similar (k k' : Kernel T M) : Prop where
  mutex : k'.mutex = k.mutex
  grp : ∀ t, (k'.tcb t).mutexGrp = (k.tcb t).mutexGrp
  base : ∀ t, (k'.tcb t).basePrio = (k.tcb t).basePrio
  state : ∀ t, (k'.tcb t).taskState = (k.tcb t).taskState
  container : k'.pend.container = k.pend.container
  items : ∀ m, (k'.pend.items m).Perm (k.pend.items m)

variable {c : Config} {fuel : Nat} {k k' k'' : Kernel T M} {t u cur owner : T} {m : M} {e : Event T M}

section
omit dT dM

theorem Similar.refl (k : Kernel T M) : Similar k k := ⟨rfl, fun _ => rfl, fun _ => rfl, fun _ => rfl, rfl, fun _ => .refl _⟩

theorem Similar.trans (h : Similar k k') (h' : Similar k' k'') : Similar k k'' where
  mutex := h'.mutex.trans h.mutex
  grp t := (h'.grp t).trans (h.grp t)
  base t := (h'.base t).trans (h.base t)
  state t := (h'.state t).trans (h.state t)
  container := h'.container.trans h.container
  items m := (h'.items m).trans (h.items m)

theorem Similar.lists (h : Similar k k') (hok : k.pend.Ok) : k'.pend.Ok where
  mem_iff t m := by rw [(h.items m).mem_iff, h.container, hok.mem_iff]
  nodup m := (h.items m).nodup_iff.mpr (hok.nodup m)

end

/-! ## Who is in a pend list -/

/-- A task is in the pend list it believes to be in, and waits then. Deleting an owner does not change that. -/
structure Listed (k : Kernel T M) : Prop where
  lists : k.pend.Ok
  waiting : ∀ t m, k.pend.container t = some m → ∃ timeout, (k.tcb t).taskState = .pend timeout

section
variable (h : Listed k)
include h

omit dT dM in
theorem Listed.similar (hs : Similar k k') : Listed k' := by
  refine ⟨hs.lists h.lists, fun t m ht => ?_⟩
  rw [hs.state]
  rw [hs.container] at ht
  exact h.waiting t m ht

omit dM in
theorem Listed.setTcb {v : Tcb M} (hv : v.taskState = (k.tcb t).taskState) : Listed (k.setTcb t v) := by
  refine ⟨h.lists, fun u m hu => ?_⟩
  have hwaiting := h.waiting u m hu
  rw [tcb_setTcb]
  split
  · rename_i hut
    rw [hut] at hwaiting
    rw [hv]
    exact hwaiting
  · exact hwaiting

omit dT in
theorem Listed.setMutex (v : Mutex T) : Listed (k.setMutex m v) := ⟨h.lists, h.waiting⟩

omit dM in
theorem Listed.setGrp (grp : List M) : Listed (k.setGrp t grp) := h.setTcb rfl

theorem Listed.remove (t : T) : Listed (os_PendListRemove k t) :=
  ⟨h.lists.remove t, fun u m hu => h.waiting u m (container_remove_eq_some.mp hu).2⟩

omit dM in
theorem Listed.setState (hnone : k.pend.container t = none) (v : Tcb M) : Listed (k.setTcb t v) := by
  refine ⟨h.lists, fun u m hu => ?_⟩
  rw [tcb_setTcb, if_neg]
  · exact h.waiting u m hu
  · rintro rfl
    cases hnone.symm.trans hu

theorem Listed.woken (t : T) : Listed (k.woken t) := (h.remove t).setState container_remove_self _

theorem Listed.readied (t : T) : Listed (k.readied t) := by
  unfold Kernel.readied
  split
  · exact h.woken t
  · exact h

omit dT dM in
theorem Listed.container_of_rdy (hrdy : (k.tcb t).taskState = .rdy) : k.pend.container t = none := by
  refine Option.eq_none_iff_forall_ne_some.mpr fun m hm => ?_
  obtain ⟨b, hb⟩ := h.waiting t m hm
  cases hrdy.symm.trans hb

theorem Listed.wait (hrdy : (k.tcb t).taskState = .rdy) (timeout : Bool) :
    Listed (os_PendListInsertPrio (k.setState t (.pend timeout)) m t) := by
  have hnone := h.container_of_rdy hrdy
  refine ⟨h.lists.insert hnone, fun u m' hu => ?_⟩
  by_cases hut : u = t
  · subst hut
    refine ⟨timeout, ?_⟩
    simp [os_PendListInsertPrio, Kernel.setState]
  · exact (h.setState hnone _).waiting u m' ((container_put_of_ne _ hut).symm.trans hu)

end

section
omit dT dM

theorem Owned.listed (h : Owned k) : Listed k := ⟨h.lists, h.waiting⟩

theorem Owned.congr (h : Owned k) (hl : Listed k') (hmutex : k'.mutex = k.mutex)
    (hgrp : ∀ u, (k'.tcb u).mutexGrp = (k.tcb u).mutexGrp)
    (halive : ∀ u, (k.tcb u).taskState ≠ .del → (k'.tcb u).taskState ≠ .del) : Owned k' where
  lists := hl.lists
  counts m := by rw [hmutex, h.counts]
  grp u m := by rw [hgrp, hmutex, h.grp]
  nodup u := by rw [hgrp]; exact h.nodup u
  alive m u howner := by
    rw [hmutex] at howner
    exact halive u (h.alive m u howner)
  waiting := hl.waiting

theorem Owned.similar (h : Owned k) (hs : Similar k k') : Owned k' :=
  h.congr (h.listed.similar hs) hs.mutex hs.grp fun u hu => by rw [hs.state]; exact hu

theorem Attended.similar (h : Attended k) (hs : Similar k k') : Attended k' := by
  intro m howner
  rw [hs.mutex] at howner
  have hperm := hs.items m
  rw [h m howner] at hperm
  exact hperm.eq_nil

end

/-! ## Changing priorities -/

omit dM in
theorem Similar.setPrio (k : Kernel T M) (t : T) (p : Nat) : Similar k (k.setPrio t p) := by
  refine ⟨rfl, fun u => ?_, fun u => ?_, fun u => ?_, rfl, fun _ => .refl _⟩ <;>
    rw [Kernel.setPrio, tcb_setTcb] <;> split <;> rename_i hu <;> simp [hu]

theorem Similar.move (hok : k.pend.Ok) (ht : k.pend.container t = some m) :
    Similar k (os_PendListInsertPrio (os_PendListRemove k t) m t) := by
  refine ⟨rfl, fun _ => rfl, fun _ => rfl, fun _ => rfl, ?_, fun m' => ?_⟩
  · funext u
    show ((k.pend.remove t).insert _ m t).container u = _
    by_cases hu : u = t
    · subst hu
      rw [Lists.insert, container_put_self, ht]
    · rw [Lists.insert, container_put_of_ne _ hu, container_remove_of_ne hu]
  · show (((k.pend.remove t).insert _ m t).items m').Perm _
    by_cases hm : m' = m
    · subst hm
      rw [Lists.insert, items_put_self, items_remove_self ht]
      refine (insertBy_perm _ _ _).trans (perm_cons_erase ?_).symm
      exact (hok.mem_iff t m').mpr ht
    · rw [Lists.insert, items_put_of_ne _ hm, items_remove_of_ne]
      rw [ht]
      exact fun heq => hm (Option.some.inj heq).symm

theorem Similar.changePrio (hok : k.pend.Ok) (ht : k.pend.container t = some m) :
    Similar k (os_PendListChangePrio k m t) := by
  unfold os_PendListChangePrio
  split
  · exact .move hok ht
  · exact .refl k

theorem Similar.taskChangePrio {p : Nat} (hok : k.pend.Ok) (h : os_TaskChangePrio c fuel k t p = .ok k') :
    Similar k k' := by
  induction fuel generalizing k t p with
  | zero => cases h
  | succ fuel ih =>
    have hset := Similar.setPrio k t p
    simp only [os_TaskChangePrio] at h
    split at h
    · cases h
      exact .refl _
    · cases h
      exact hset
    · split at h
      · cases h
        exact hset
      · rename_i m hm
        have hmoved := hset.trans (.changePrio (hset.lists hok) hm)
        have hrest {owner : T} {p : Nat} (hgo : os_TaskChangePrio c fuel _ owner p = .ok k') : Similar k k' :=
          hmoved.trans (ih (hmoved.lists hok) hgo)
        split at h
        · cases h
        split at h <;> split at h
        · cases h
          exact hmoved
        · exact hrest h
        · split at h
          · cases h
            exact hmoved
          · exact hrest h
        · exact hrest h

theorem Similar.disinherit (hok : k.pend.Ok) (h : disinherit c fuel k owner t = .ok k') : Similar k k' := by
  unfold Mutexes.disinherit at h
  split at h
  · dsimp only at h
    split at h
    · exact .taskChangePrio hok h
    · cases h
      exact .refl k
  · cases h
    exact .refl k

theorem Similar.raise {p : Nat} (hok : k.pend.Ok) (h : raise c fuel k owner p = .ok k') : Similar k k' := by
  unfold Mutexes.raise at h
  split at h
  · exact .taskChangePrio hok h
  · cases h
    exact .refl k

omit dM in
theorem Similar.lowered (k : Kernel T M) (t : T) : Similar k (k.lowered c t) := by
  unfold Kernel.lowered
  split
  · exact .setPrio k t _
  · exact .refl k

/-! ## Giving, taking and waiting -/

theorem Owned.change (h : Owned k) {v : Mutex T} {grp : List M} (hbefore : ∀ u, (k.mutex m).ownerTCBPtr = some u → u = t)
    (hafter : ∀ u, v.ownerTCBPtr = some u → u = t) (hcount : v.ownerNestingCtr = 0 ↔ v.ownerTCBPtr = none)
    (hgrp : ∀ m', m' ∈ grp ↔ if m' = m then v.ownerTCBPtr = some t else m' ∈ (k.tcb t).mutexGrp)
    (hnodup : grp.Nodup) (halive : v.ownerTCBPtr = some t → (k.tcb t).taskState ≠ .del) :
    Owned ((k.setGrp t grp).setMutex m v) := by
  have htcb (u : T) : (((k.setGrp t grp).setMutex m v).tcb u).taskState = (k.tcb u).taskState ∧
      (((k.setGrp t grp).setMutex m v).tcb u).mutexGrp = if u = t then grp else (k.tcb u).mutexGrp := by
    rw [tcb_setMutex, Kernel.setGrp, tcb_setTcb]
    split <;> rename_i hu <;> simp [hu]
  refine ⟨h.lists, fun m' => ?_, fun u m' => ?_, fun u => ?_, fun m' u hu => ?_, fun u m' hu => ?_⟩
  · rw [mutex_setMutex]
    split
    · exact hcount
    · exact h.counts m'
  · rw [(htcb u).2, mutex_setMutex]
    by_cases hut : u = t
    · subst hut
      rw [if_pos rfl, hgrp]
      split
      · rfl
      · exact h.grp u m'
    · rw [if_neg hut]
      split
      · rename_i hm
        rw [hm, h.grp]
        exact ⟨fun ho => absurd (hbefore u ho) hut, fun ho => absurd (hafter u ho) hut⟩
      · exact h.grp u m'
  · rw [(htcb u).2]
    split
    · exact hnodup
    · exact h.nodup u
  · rw [(htcb u).1]
    rw [mutex_setMutex] at hu
    split at hu
    · have hut := hafter u hu
      rw [hut] at hu ⊢
      exact halive hu
    · exact h.alive m' u hu
  · exact (h.listed.setGrp grp).waiting u m' hu

theorem Owned.release (h : Owned k) (howner : (k.mutex m).ownerTCBPtr = some t) : Owned (k.release t m) := by
  refine h.change (fun u hu => ?_) nofun (by simp) (fun m' => ?_) ((h.nodup t).erase m) nofun
  · rw [howner] at hu
    exact (Option.some.inj hu).symm
  · rw [(h.nodup t).mem_erase_iff]
    split
    · rename_i hm
      simp [hm]
    · rename_i hm
      simp [hm]

theorem take_eq : k.take t m = (k.setGrp t (m :: (k.tcb t).mutexGrp)).setMutex m ⟨some t, 1⟩ := rfl

theorem Owned.take (h : Owned k) (hnone : (k.mutex m).ownerTCBPtr = none) (halive : (k.tcb t).taskState ≠ .del) :
    Owned (k.take t m) := by
  have hnot : m ∉ (k.tcb t).mutexGrp := by
    rw [h.grp, hnone]
    nofun
  refine h.change (fun u hu => ?_) (fun u hu => (Option.some.inj hu).symm) (by simp) (fun m' => ?_)
    (nodup_cons.mpr ⟨hnot, h.nodup t⟩) fun _ => halive
  · rw [hnone] at hu
    cases hu
  · split
    · rename_i hm
      simp [hm]
    · rename_i hm
      simp [hm]

omit dT in
theorem Owned.setCtr (h : Owned k) {n : Nat} (howner : (k.mutex m).ownerTCBPtr ≠ none) (hpos : n > 0) :
    Owned (k.setMutex m { k.mutex m with ownerNestingCtr := n }) := by
  refine ⟨h.lists, fun m' => ?_, fun u m' => ?_, h.nodup, fun m' u hu => ?_, h.waiting⟩
  · rw [owner_setCtr, mutex_setMutex]
    split
    · rename_i hm
      rw [hm]
      exact ⟨fun hzero => absurd hzero (Nat.ne_of_gt hpos), fun hnone => absurd hnone howner⟩
    · exact h.counts m'
  · rw [owner_setCtr]
    exact h.grp u m'
  · rw [owner_setCtr] at hu
    exact h.alive m' u hu

section
omit dM

theorem setTcb_grp {v : Tcb M} (hgrp : v.mutexGrp = (k.tcb t).mutexGrp) (u : T) :
    ((k.setTcb t v).tcb u).mutexGrp = (k.tcb u).mutexGrp := by
  rw [tcb_setTcb]
  split
  · rename_i hut
    rw [hut, hgrp]
  · rfl

theorem setTcb_alive {v : Tcb M} (hv : (k.tcb t).taskState ≠ .del → v.taskState ≠ .del) (u : T)
    (hu : (k.tcb u).taskState ≠ .del) : ((k.setTcb t v).tcb u).taskState ≠ .del := by
  rw [tcb_setTcb]
  split
  · rename_i hut
    rw [hut] at hu
    exact hv hu
  · exact hu

theorem Owned.setTcb (h : Owned k) {v : Tcb M} (hgrp : v.mutexGrp = (k.tcb t).mutexGrp)
    (hstate : v.taskState = (k.tcb t).taskState) : Owned (k.setTcb t v) :=
  h.congr (h.listed.setTcb hstate) rfl (setTcb_grp hgrp) (setTcb_alive fun halive => by rw [hstate]; exact halive)

theorem Owned.delete (h : Owned k) (hgrp : (k.tcb t).mutexGrp = []) (hnone : k.pend.container t = none) (p : Nat) :
    Owned (k.setTcb t ⟨p, p, .del, []⟩) := by
  have hother (u : T) (hu : u ≠ t) : (k.setTcb t ⟨p, p, .del, []⟩).tcb u = k.tcb u := by
    rw [tcb_setTcb, if_neg hu]
  have hself : (k.setTcb t ⟨p, p, .del, []⟩).tcb t = ⟨p, p, .del, []⟩ := by
    rw [tcb_setTcb, if_pos rfl]
  have hnot (m : M) : (k.mutex m).ownerTCBPtr ≠ some t := by
    rw [Ne, ← h.grp, hgrp]
    nofun
  refine ⟨h.lists, h.counts, fun u m => ?_, fun u => ?_, fun m u hu => ?_, (h.listed.setState hnone _).waiting⟩ <;>
    by_cases hut : u = t
  · subst hut
    rw [hself]
    exact ⟨nofun, fun howner => absurd howner (hnot m)⟩
  · rw [hother u hut]
    exact h.grp u m
  · subst hut
    rw [hself]
    exact nodup_nil
  · rw [hother u hut]
    exact h.nodup u
  · subst hut
    exact absurd hu (hnot m)
  · rw [hother u hut]
    exact h.alive m u hu

end

theorem Owned.remove (h : Owned k) (t : T) : Owned (os_PendListRemove k t) :=
  h.congr (h.listed.remove t) rfl (fun _ => rfl) fun _ => id

theorem Owned.woken (h : Owned k) (t : T) : Owned (k.woken t) :=
  h.congr (h.listed.woken t) rfl (setTcb_grp rfl) (setTcb_alive nofun)

theorem readied_eq {b : Bool} (h : (k.tcb t).taskState = .pend b) : k.readied t = k.woken t := by
  rw [Kernel.readied, h]
  rfl

theorem Owned.readied (h : Owned k) (t : T) : Owned (k.readied t) := by
  unfold Kernel.readied
  split
  · exact h.woken t
  · exact h

theorem Owned.wait (h : Owned k) (hrdy : (k.tcb t).taskState = .rdy) (timeout : Bool) :
    Owned (os_PendListInsertPrio (k.setState t (.pend timeout)) m t) :=
  h.congr (h.listed.wait hrdy timeout) rfl (setTcb_grp rfl) (setTcb_alive nofun)

/-! ## Nobody waits for nobody -/

omit dT dM in
theorem Attended.mono (h : Attended k)
    (hmono : ∀ m, (k'.mutex m).ownerTCBPtr = none →
      (k.mutex m).ownerTCBPtr = none ∧ ∀ t ∈ k'.pend.items m, t ∈ k.pend.items m) : Attended k' := by
  intro m howner
  obtain ⟨hnone, hsub⟩ := hmono m howner
  rw [h m hnone] at hsub
  exact eq_nil_iff_forall_not_mem.mpr fun t ht => nomatch hsub t ht

theorem Attended.remove (h : Attended k) (t : T) : Attended (os_PendListRemove k t) :=
  h.mono fun _ howner => ⟨howner, fun _ hu => items_remove_sublist.subset hu⟩

theorem Attended.woken (h : Attended k) (t : T) : Attended (k.woken t) :=
  h.mono fun _ howner => ⟨howner, fun _ hu => items_remove_sublist.subset hu⟩

theorem mutex_readied : (k.readied t).mutex = k.mutex := by
  unfold Kernel.readied
  split <;> rfl

theorem mem_readied (h : u ∈ (k.readied t).pend.items m) : u ∈ k.pend.items m := by
  unfold Kernel.readied at h
  split at h
  · exact items_remove_sublist.subset h
  · exact h

section
variable (h : Attended k)
include h

theorem Attended.readied (t : T) : Attended (k.readied t) := by
  refine h.mono fun m howner => ⟨?_, fun u hu => mem_readied hu⟩
  rwa [mutex_readied] at howner

theorem Attended.take : Attended (k.take t m) := by
  refine h.mono fun m' howner => ?_
  rw [take_eq, mutex_setMutex] at howner
  split at howner
  · cases howner
  · exact ⟨howner, fun _ hu => hu⟩

theorem Attended.release (hnone : k.pend.items m = []) : Attended (k.release t m) := by
  intro m' howner
  rw [Kernel.release, mutex_setMutex] at howner
  split at howner
  · rename_i hm
    rw [hm]
    exact hnone
  · exact h m' howner

omit dT in
theorem Attended.setCtr (n : Nat) :
    Attended (k.setMutex m { k.mutex m with ownerNestingCtr := n }) := by
  refine h.mono fun m' howner => ?_
  rw [owner_setCtr] at howner
  exact ⟨howner, fun _ hu => hu⟩

theorem Attended.wait (howner : (k.mutex m).ownerTCBPtr ≠ none) (timeout : Bool) :
    Attended (os_PendListInsertPrio (k.setState t (.pend timeout)) m t) := by
  refine h.mono fun m' hnone => ⟨hnone, fun u hu => ?_⟩
  rcases mem_items_insert.mp hu with ⟨_, hm⟩ | hu
  · rw [hm] at hnone
    exact absurd hnone howner
  · exact hu

theorem Attended.handedOver : Attended ((((k.release cur m).lowered c cur).take t m).readied t) := by
  refine h.mono fun m' hnone => ?_
  rw [mutex_readied, take_eq, mutex_setMutex] at hnone
  have hlow := Similar.lowered (c := c) (k.release cur m) cur
  split at hnone
  · cases hnone
  rename_i hm
  rw [show (((k.release cur m).lowered c cur).setGrp _ _).mutex = _ from hlow.mutex, Kernel.release,
    mutex_setMutex, if_neg hm] at hnone
  refine ⟨hnone, fun u hu => ?_⟩
  have hu := mem_readied hu
  exact (hlow.items m').mem_iff.mp hu

end

/-! ## Steps -/

theorem Owned.handedOver (h : Owned k) (howner : (k.mutex m).ownerTCBPtr = some cur)
    (hhead : (k.pend.items m).head? = some t) : Owned ((((k.release cur m).lowered c cur).take t m).readied t) := by
  have hlow := Similar.lowered (c := c) (k.release cur m) cur
  have hmem : t ∈ k.pend.items m := List.mem_of_mem_head? hhead
  obtain ⟨b, hb⟩ := h.waiting t m ((h.lists.mem_iff t m).mp hmem)
  refine (((h.release howner).similar hlow).take ?_ ?_).readied t
  · rw [hlow.mutex, Kernel.release, mutex_setMutex, if_pos rfl]
  · have hstate : (((k.release cur m).tcb t).taskState) = (k.tcb t).taskState := by
      rw [Kernel.release, tcb_setMutex, Kernel.setGrp, tcb_setTcb]
      split <;> rename_i hu <;> simp [hu]
    simp [hlow.state, hstate, hb]

/-- The three records, and nobody waits for nobody. -/
structure Consistent (k : Kernel T M) : Prop where
  owned : Owned k
  attended : Attended k

omit dT dM in
theorem Consistent.similar (h : Consistent k) (hs : Similar k k') : Consistent k' :=
  ⟨h.owned.similar hs, h.attended.similar hs⟩

theorem Consistent.abortFirst (h : Consistent k) (hgo : abortFirst c fuel k m t = .ok k') : Consistent k' := by
  unfold Mutexes.abortFirst at hgo
  split at hgo
  · cases hgo
  · have hready : Consistent (os_PendAbort k t) := ⟨h.owned.readied t, h.attended.readied t⟩
    exact hready.similar (.disinherit hready.owned.lists hgo)

/-- What every round of the loop of `OSMutexPendAbort` keeps. -/
theorem abortLoop_keeps {p : Kernel T M → Prop} {all : Bool} {n : Nat}
    (hfirst : ∀ k t k', p k → abortFirst c fuel k m t = .ok k' → p k') (h : p k)
    (hgo : abortLoop c fuel all m n k = .ok k') : p k' := by
  induction n generalizing k with
  | zero =>
    cases hgo
    exact h
  | succ n ih =>
    simp only [abortLoop] at hgo
    split at hgo
    · cases hgo
      exact h
    · obtain ⟨k₁, hround, hgo⟩ := bind_eq_ok hgo
      split at hgo
      · exact ih (hfirst k _ k₁ h hround) hgo
      · cases hgo
        exact hfirst k _ _ h hround

/-- Nobody waits for a mutex of this task. -/
def Unneeded (k : Kernel T M) (t : T) : Prop := ∀ m, (k.mutex m).ownerTCBPtr = some t → k.pend.items m = []

theorem Consistent.postAll {grp : List M} (h : Consistent k) (hgrp : (k.tcb t).mutexGrp = grp)
    (hun : Unneeded k t) (hgo : grpPostAll k t grp = .ok k') :
    Consistent k' ∧ (k'.tcb t).mutexGrp = [] ∧ k'.pend = k.pend := by
  induction grp generalizing k with
  | nil =>
    cases hgo
    exact ⟨h, hgrp, rfl⟩
  | cons m grp ih =>
    have hmem : m ∈ (k.tcb t).mutexGrp := by
      rw [hgrp]
      exact mem_cons_self
    have howner := (h.owned.grp t m).mp hmem
    have hempty := hun m howner
    have hgo : grpPostAll (k.release t m) t grp = .ok k' := by
      rw [grpPostAll, os_MutexGrpRemove, if_pos hmem] at hgo
      replace hgo := bind_eq_ok hgo
      obtain ⟨k₁, hk₁, hgo⟩ := hgo
      cases hk₁
      rw [show ((k.setGrp t _).pend.items m).head? = none by rw [Kernel.setGrp, pend_setTcb, hempty]; rfl] at hgo
      exact hgo
    have hrelease : Consistent (k.release t m) := ⟨h.owned.release howner, h.attended.release hempty⟩
    have hrest := ih hrelease
    refine hrest ?_ (fun m' hm' => ?_) hgo
    · rw [Kernel.release, tcb_setMutex, Kernel.setGrp, tcb_setTcb, if_pos rfl, hgrp]
      exact erase_cons_head ..
    · rw [Kernel.release, mutex_setMutex] at hm'
      split at hm'
      · cases hm'
      · exact hun m' hm'

/-- No task is deleted that owns a mutex another task waits for. -/
def DeletesUnneeded (k : Kernel T M) : Event T M → Prop
  | .del _ t => Unneeded k t
  | _ => True

theorem Consistent.leave (h : Consistent k) (hun : Unneeded k t)
    (hleave : (∃ timeout, (k.tcb t).taskState = .pend timeout ∧ delPending c fuel k t = .ok k') ∨
      (k.tcb t).taskState = .rdy ∧ k' = k) : Consistent k' ∧ Unneeded k' t ∧ k'.pend.container t = none := by
  obtain ⟨timeout, hstate, hgo⟩ | ⟨hrdy, rfl⟩ := hleave
  · unfold delPending at hgo
    split at hgo
    · rename_i hnone
      cases hgo
      exact ⟨h, hun, hnone⟩
    · split at hgo
      · cases hgo
      have hremoved : Consistent (os_PendListRemove k t) := ⟨h.owned.remove t, h.attended.remove t⟩
      have hs := Similar.disinherit hremoved.owned.lists hgo
      refine ⟨hremoved.similar hs, fun m howner => ?_, ?_⟩
      · rw [hs.mutex] at howner
        have hperm := hs.items m
        have hsub : ((k.pend.remove t).items m).Sublist (k.pend.items m) := items_remove_sublist
        rw [hun m howner] at hsub
        rw [show (os_PendListRemove k t).pend.items m = [] from sublist_nil.mp hsub] at hperm
        exact hperm.eq_nil
      · rw [hs.container]
        exact container_remove_self
  · exact ⟨h, hun, h.owned.listed.container_of_rdy hrdy⟩

/-- **One step.** -/
theorem Consistent.step (h : Consistent k) (hdel : DeletesUnneeded k e) (hstep : step c fuel k e = .ok k') :
    Consistent k' := by
  cases step_outcome hstep with
  | same => exact h
  | taken hrdy hfree =>
    have hnone := (h.owned.counts _).mp hfree
    exact ⟨h.owned.take hnone (by rw [hrdy]; nofun), h.attended.take⟩
  | nested hheld =>
    have hsome := fun hnone => hheld ((h.owned.counts _).mpr hnone)
    exact ⟨h.owned.setCtr hsome (Nat.succ_pos _), h.attended.setCtr _⟩
  | waits hrdy howner hother hraise =>
    have hs := Similar.raise h.owned.lists hraise
    have h₁ := h.similar hs
    refine ⟨h₁.owned.wait (by rw [hs.state, hrdy]) _, h₁.attended.wait ?_ _⟩
    rw [hs.mutex, howner]
    nofun
  | unnested howner hpos =>
    exact ⟨h.owned.setCtr (by rw [howner]; nofun) hpos, h.attended.setCtr _⟩
  | freed howner hnone => exact ⟨h.owned.release howner, h.attended.release hnone⟩
  | handedOver hrdy howner hhead => exact ⟨h.owned.handedOver howner hhead, h.attended.handedOver⟩
  | aborted hloop => exact abortLoop_keeps (fun _ _ _ h hgo => h.abortFirst hgo) h hloop
  | @timedOut t _ _ _ hpend howner hdis =>
    have hwoken : Consistent (k.woken t) := ⟨h.owned.woken t, h.attended.woken t⟩
    exact hwoken.similar (.disinherit hwoken.owned.lists hdis)
  | left hpend howner => exact ⟨h.owned.woken _, h.attended.woken _⟩
  | @changed _ t p _ halive hlt hchange =>
    have hset : Owned (k.setTcb t { k.tcb t with basePrio := p }) := h.owned.setTcb rfl rfl
    exact Consistent.similar ⟨hset, h.attended⟩ (.taskChangePrio hset.lists hchange)
  | deleted halive hleave hpost =>
    obtain ⟨h₁, hun, hnone⟩ := h.leave hdel hleave
    obtain ⟨h₂, hgrp, hpend⟩ := h₁.postAll rfl hun hpost
    exact ⟨h₂.owned.delete hgrp (by rw [hpend]; exact hnone) _, h₂.attended⟩

omit dT dM in
theorem Consistent.start (prio : T → Nat) : Consistent (start prio : Kernel T M) := by
  refine ⟨⟨⟨fun t m => ?_, fun m => nodup_nil⟩, fun m => ?_, fun t m => ?_, fun t => nodup_nil, nofun, nofun⟩,
    fun m _ => rfl⟩ <;> simp [Mutexes.start]

/-! ## Every run -/

/-- A mutex that is in use is in one group, that of its owner, who has not been deleted; nothing else is anywhere. -/
structure OwnersAgree (k : Kernel T M) : Prop where
  used : ∀ m, 0 < (k.mutex m).ownerNestingCtr →
    ∃ t, (∀ u, m ∈ (k.tcb u).mutexGrp ↔ u = t) ∧ (k.mutex m).ownerTCBPtr = some t ∧ (k.tcb t).taskState ≠ .del
  free : ∀ m, (k.mutex m).ownerNestingCtr = 0 →
    (k.mutex m).ownerTCBPtr = none ∧ (∀ t, m ∉ (k.tcb t).mutexGrp) ∧ k.pend.items m = []

omit dT dM in
theorem Consistent.agree (h : Consistent k) : OwnersAgree k := by
  refine ⟨fun m hpos => ?_, fun m hzero => ?_⟩
  · obtain ⟨t, ht⟩ := Option.ne_none_iff_exists'.mp fun hnone => Nat.ne_of_gt hpos ((h.owned.counts m).mpr hnone)
    refine ⟨t, fun u => ?_, ht, h.owned.alive m t ht⟩
    rw [h.owned.grp, ht, Option.some.injEq]
    exact eq_comm
  · have hnone := (h.owned.counts m).mp hzero
    refine ⟨hnone, fun t => ?_, h.attended m hnone⟩
    rw [h.owned.grp, hnone]
    nofun

/-- **Ownership is consistent** in every run that deletes no task that owns a mutex another task waits for. -/
theorem osMutex_owners_agree {prio : T → Nat} {es : List (Event T M)}
    (hes : Along (step c fuel) DeletesUnneeded (start prio) es) (hrun : run (step c fuel) (start prio) es = .ok k) :
    OwnersAgree k :=
  (run_inv (fun _ _ _ h hdel hgo => Consistent.step h hdel hgo) (.start prio) hes hrun).agree

section Decide
variable [fM : Fintype M] (k)

instance (t : T) : Decidable (Unneeded k t) := inferInstanceAs (Decidable (∀ _, _ → _))

instance (e : Event T M) : Decidable (DeletesUnneeded k e) := by
  cases e <;> unfold DeletesUnneeded <;> infer_instance

end Decide

/-- Task 1 waits for the mutex of task 0 and gives up; task 2 waits too and gets it; then tasks 1 and 0 are deleted. -/
def threeTasks : List (Event (Fin 3) (Fin 1)) :=
  [.pend 0 0 false false, .pend 1 0 false true, .pend 2 0 false false, .timeout 1, .post 0 0, .del 2 1, .del 0 0]

theorem osMutex_owners_agree_three :
    ∃ k, run (step ⟨64, 255⟩ 3) (start fun t : Fin 3 => 5 - t.val) threeTasks = .ok k ∧ OwnersAgree k :=
  exists_ok_and (by decide +kernel) fun _ hrun => osMutex_owners_agree (by decide +kernel) hrun

/-- Two tasks of the same priority; task 1 waits for the mutex of task 0, which deletes itself. -/
theorem osMutex_owner_deleted :
    ∃ k, run (step ⟨64, 255⟩ 2) (start fun _ : Fin 2 => 5)
        [.pend 0 (0 : Fin 1) false false, .pend 1 0 false false, .del 0 0] = .ok k ∧ ¬OwnersAgree k := by
  refine exists_ok_that (P := fun k => k.mutex 0 = ⟨some 0, 1⟩ ∧ (k.tcb 0).taskState = .del) (by decide +kernel)
    fun k _ ⟨hmutex, hstate⟩ hagree => ?_
  obtain ⟨t, _, howner, halive⟩ := hagree.used 0 (by rw [hmutex]; decide)
  rw [hmutex] at howner
  cases howner
  exact halive hstate

/-! ## Who is in a pend list, in every run -/

theorem Listed.abortFirst (h : Listed k) (hgo : abortFirst c fuel k m t = .ok k') : Listed k' := by
  unfold Mutexes.abortFirst at hgo
  split at hgo
  · cases hgo
  · have hready := h.readied t
    exact hready.similar (.disinherit hready.lists hgo)

theorem Listed.postAll {grp : List M} (h : Listed k) (hnone : k.pend.container t = none)
    (hgo : grpPostAll k t grp = .ok k') : Listed k' ∧ k'.pend.container t = none := by
  induction grp generalizing k with
  | nil =>
    cases hgo
    exact ⟨h, hnone⟩
  | cons m grp ih =>
    obtain ⟨k₁, hremove, hgo⟩ := bind_eq_ok hgo
    unfold os_MutexGrpRemove at hremove
    split at hremove <;> cases hremove
    split at hgo
    · exact ih ((h.setGrp _).setMutex _) hnone hgo
    · rename_i new hnew
      refine ih ((((h.setGrp _).setMutex _).setGrp _).readied new) ?_ hgo
      refine Option.eq_none_iff_forall_ne_some.mpr fun m' hm' => ?_
      unfold os_Post Kernel.readied at hm'
      split at hm'
      · cases hnone.symm.trans (container_remove_eq_some.mp hm').2
      · cases hnone.symm.trans hm'

theorem Listed.leave (h : Listed k)
    (hleave : (∃ timeout, (k.tcb t).taskState = .pend timeout ∧ delPending c fuel k t = .ok k') ∨
      (k.tcb t).taskState = .rdy ∧ k' = k) : Listed k' ∧ k'.pend.container t = none := by
  obtain ⟨timeout, hstate, hgo⟩ | ⟨hrdy, rfl⟩ := hleave
  · unfold delPending at hgo
    split at hgo
    · rename_i hnone
      cases hgo
      exact ⟨h, hnone⟩
    · split at hgo
      · cases hgo
      have hs := Similar.disinherit (h.remove t).lists hgo
      refine ⟨(h.remove t).similar hs, ?_⟩
      rw [hs.container]
      exact container_remove_self
  · exact ⟨h, h.container_of_rdy hrdy⟩

theorem Listed.step (h : Listed k) (hstep : step c fuel k e = .ok k') : Listed k' := by
  cases step_outcome hstep with
  | same => exact h
  | taken hrdy hfree => exact (h.setGrp _).setMutex _
  | nested hheld => exact h.setMutex _
  | waits hrdy howner hother hraise =>
    have hs := Similar.raise h.lists hraise
    exact (h.similar hs).wait (by rw [hs.state, hrdy]) _
  | unnested howner hpos => exact h.setMutex _
  | freed howner hnone => exact (h.setGrp _).setMutex _
  | @handedOver cur m t hrdy howner hhead =>
    have hrelease : Listed (k.release cur m) := (h.setGrp _).setMutex _
    exact (((hrelease.similar (.lowered _ _)).setGrp _).setMutex _).readied _
  | aborted hloop => exact abortLoop_keeps (fun _ _ _ h hgo => h.abortFirst hgo) h hloop
  | timedOut hpend howner hdis => exact (h.woken _).similar (.disinherit (h.woken _).lists hdis)
  | left hpend howner => exact h.woken _
  | @changed _ t p _ halive hlt hchange =>
    have hset : Listed (k.setTcb t { k.tcb t with basePrio := p }) := h.setTcb rfl
    exact hset.similar (.taskChangePrio hset.lists hchange)
  | deleted halive hleave hpost =>
    obtain ⟨h₁, hnone⟩ := h.leave hleave
    obtain ⟨h₂, hnone⟩ := h₁.postAll hnone hpost
    exact h₂.setState hnone _

theorem listed_of_reachable {prio : T → Nat} {es : List (Event T M)} (hr : run (Mutexes.step c fuel) (start prio) es = .ok k) :
    Listed k :=
  run_inv (fun _ _ _ h _ hs => Listed.step h hs) ⟨⟨fun t m => by simp [start], fun m => nodup_nil⟩, fun _ _ ht => by cases ht⟩
    (Along.of_all (p := fun _ _ => True) (fun _ _ => trivial) _) hr

end RtosKernel.Ucos.Mutexes
