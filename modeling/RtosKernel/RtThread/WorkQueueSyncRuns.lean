import RtosKernel.RtThread.WorkQueueSync

/-! # What `rt_workqueue_cancel_work_sync` waits for

A caller that takes the semaphore while the item is the current one is resumed when the item is done. The code
does not see to either: the test is not made again before the semaphore is taken or the item cancelled, the
caller that waits cancels nothing, and neither stops a handler of the delay that has read its queue. -/
namespace RtosKernel.RtThread.WorkQueue
open Lib.Containers Lib.Runs

variable {W C : Type} [dW : DecidableEq W] [dC : DecidableEq C]
variable {s s' : Sync W C} {c : C} {w : W} {since : Nat}

/-- A caller is blocked only while its item is current, up to the acknowledgement; when the call returns the
item is neither running nor in a list, unless a submission was accepted after the call began. -/
structure SyncSound (s : Sync W C) : Prop where
  blocked : ∀ c w since, s.phase c = .blocked w since → s.queue.workCurrent = some w ∨ s.acking = some w
  returning : ∀ c w since, s.phase c = .returning w since →
    (s.queue.workCurrent ≠ some w ∧ w ∉ s.queue.lists.items .workList ∧ w ∉ s.queue.lists.items .delayedList) ∨
      since < s.accepted w

/-- The item is still current and nothing else is scheduled for it, or it was submitted since the call began. -/
def MayWait (s : Sync W C) : Phase W → Prop
  | .taking w since => (s.queue.workCurrent = some w ∨ s.acking = some w) ∧ (Rest s w ∨ since < s.accepted w)
  | _ => True

/-- The item does not run and no handler of its delay is in flight, or it was submitted since the call began. -/
def MayCancel (s : Sync W C) : Phase W → Prop
  | .cancelling w since => (s.queue.workCurrent ≠ some w ∧ s.expiry ≠ .entered w) ∨ since < s.accepted w
  | _ => True

instance (s : Sync W C) (p : Phase W) : Decidable (MayWait s p) := by
  cases p <;> dsimp only [MayWait] <;> infer_instance

instance (s : Sync W C) (p : Phase W) : Decidable (MayCancel s p) := by
  cases p <;> dsimp only [MayCancel] <;> infer_instance

/-- What the test found still holds when the caller goes on. -/
def Careful (s : Sync W C) : SyncAct W C → Prop
  | .take c => MayWait s (s.phase c)
  | .cancel c => MayCancel s (s.phase c)
  | _ => True

instance (s : Sync W C) (a : SyncAct W C) : Decidable (Careful s a) := by
  cases a <;> dsimp only [Careful] <;> infer_instance

def PhaseOk (s : Sync W C) : Phase W → Prop
  | .idle => True
  | .called w since | .taking w since | .cancelling w since => since ≤ s.accepted w
  | .blocked w since => since ≤ s.accepted w ∧ (s.queue.workCurrent = some w ∨ s.acking = some w) ∧
    (s.accepted w = since → Rest s w)
  | .returning w since => since ≤ s.accepted w ∧ (s.accepted w = since → Rest s w ∧ s.queue.workCurrent ≠ some w)

structure SyncInv (s : Sync W C) : Prop where
  lists : s.queue.lists.Ok
  acking : s.acking ≠ none → s.queue.workCurrent = none
  value : s.sem.value = 0
  waiters : Waiters s
  phase : ∀ c, PhaseOk s (s.phase c)

omit dW dC in
theorem SyncInv.sound (h : SyncInv s) : SyncSound s where
  blocked c w since hb := by
    have hok := h.phase c
    rw [hb] at hok
    exact hok.2.1
  returning c w since hr := by
    have hok := h.phase c
    rw [hr] at hok
    obtain ⟨hle, hrest⟩ := hok
    by_cases heq : s.accepted w = since
    · obtain ⟨⟨hnone, _⟩, hcur⟩ := hrest heq
      refine .inl ⟨hcur, fun hin => ?_, fun hin => ?_⟩
      · rw [h.lists.mem_iff, hnone] at hin
        cases hin
      · rw [h.lists.mem_iff, hnone] at hin
        cases hin
    · exact .inr (by omega)

/-! ## The steps keep the invariant -/

omit dW in
theorem phase_goto_self (p : Phase W) : (s.goto c p).phase c = p := Function.update_self ..

omit dW in
theorem phase_goto_of_ne {x : C} (hx : x ≠ c) (p : Phase W) : (s.goto c p).phase x = s.phase x :=
  Function.update_of_ne hx _ _

section
variable (h : SyncInv s)
include h

omit dW in
theorem SyncInv.goto {p : Phase W} (hnow : ∀ w n, s.phase c ≠ .blocked w n)
    (hp : ∀ w n, p ≠ .blocked w n) (hok : PhaseOk s p) : SyncInv (s.goto c p) := by
  refine ⟨h.lists, h.acking, h.value, ⟨h.waiters.1, fun x => ?_⟩, fun x => ?_⟩
  · refine (h.waiters.2 x).trans ?_
    by_cases hx : x = c
    · subst hx
      rw [phase_goto_self]
      exact iff_of_false (fun ⟨w, n, hb⟩ => hnow w n hb) fun ⟨w, n, hb⟩ => hp w n hb
    · rw [phase_goto_of_ne hx]
  · change PhaseOk s _
    by_cases hx : x = c
    · subst hx
      rw [phase_goto_self]
      exact hok
    · rw [phase_goto_of_ne hx]
      exact h.phase x

omit dW dC in
theorem SyncInv.move (hf : Frame s s') (hack : s'.acking ≠ none → s'.queue.workCurrent = none)
    (hcur : ∀ w, s.queue.workCurrent = some w ∨ s.acking = some w →
      s'.queue.workCurrent = some w ∨ s'.acking = some w) : SyncInv s' := by
  refine ⟨hf.lists, hack, hf.sem ▸ h.value, ?_, fun c => ?_⟩
  · rw [Waiters, hf.sem, hf.phase]
    exact h.waiters
  have hok := h.phase c
  rw [hf.phase]
  cases hp : s.phase c with
  | idle => trivial
  | called w n | taking w n | cancelling w n =>
    rw [hp] at hok
    exact Nat.le_trans hok (hf.accepted w)
  | blocked w n =>
    rw [hp] at hok
    obtain ⟨hle, hnow, hrest⟩ := hok
    have hmono := hf.accepted w
    refine ⟨hle.trans hmono, hcur w hnow, fun heq => ?_⟩
    exact hf.rest w (hrest (by omega)) (by omega)
  | returning w n =>
    rw [hp] at hok
    obtain ⟨hle, hrest⟩ := hok
    have hmono := hf.accepted w
    refine ⟨hle.trans hmono, fun heq => ?_⟩
    obtain ⟨hrest, hno⟩ := hrest (by omega)
    refine ⟨hf.rest w hrest (by omega), fun hc => ?_⟩
    rcases hf.current w hc with hc | hc
    · exact hno hc
    · exact hc hrest

omit dW dC in
theorem SyncInv.still (hf : Frame s s') (hcur : s'.queue.workCurrent = s.queue.workCurrent)
    (hacking : s'.acking = s.acking) : SyncInv s' := by
  refine h.move hf ?_ fun w hw => ?_
  · rw [hacking, hcur]
    exact h.acking
  · rw [hacking, hcur]
    exact hw

omit dC in
theorem SyncInv.queue {a : Act W} (hs : queueStep s a = .ok s') : SyncInv s' := by
  obtain ⟨hf, hsame⟩ := Frame.queueStep h.lists hs
  by_cases ht : a = .take
  · subst ht
    obtain ⟨hnone, hs⟩ := ok_of_ite hs
    obtain ⟨q, hq, rfl⟩ := map_eq_ok hs
    obtain ⟨⟨hidle, -⟩, -⟩ := ok_of_ite hq
    refine h.move hf (fun hne => absurd hnone hne) fun w hw => ?_
    rw [hidle, hnone] at hw
    rcases hw with hw | hw <;> cases hw
  · by_cases hd : a = .done
    · subst hd
      obtain ⟨q, hq, rfl⟩ := map_eq_ok hs
      simp only [WorkQueue.step] at hq
      split at hq
      · cases hq
      rename_i hcur
      cases hq
      refine h.move hf (fun _ => rfl) fun w hw => .inr ?_
      exact hw.resolve_right fun hack => hcur (h.acking (by simp [hack]))
    · obtain ⟨hcur, hacking⟩ := hsame ht hd
      exact h.still hf hcur hacking

theorem SyncInv.complete (hs : syncStep s .complete = .ok s') : SyncInv s' := by
  simp only [syncStep] at hs
  split at hs
  · cases hs
  rename_i hack
  have hsem : s.sem = ⟨0, s.sem.suspendThread⟩ := by rw [← h.value]
  rw [workqueueWorkCompletion_spec _ hsem h.waiters (Nat.le_refl _)] at hs
  obtain rfl := Except.ok.inj hs
  have hcur : s.queue.workCurrent = none := h.acking hack
  have hnever (c : C) (w : W) (n : Nat) : (s.phase c).resumed ≠ .blocked w n := by
    cases s.phase c <;> nofun
  refine ⟨h.lists, fun hno => absurd rfl hno, rfl, ⟨List.nodup_nil, fun c => ?_⟩, fun c => ?_⟩
  · exact iff_of_false List.not_mem_nil fun ⟨w, n, hb⟩ => hnever c w n hb
  · change PhaseOk _ (s.phase c).resumed
    have hok := h.phase c
    cases hp : s.phase c with
    | idle => trivial
    | called w n | taking w n | cancelling w n | returning w n =>
      rw [hp] at hok
      exact hok
    | blocked w n =>
      rw [hp] at hok
      refine ⟨hok.1, fun heq => ⟨hok.2.2 heq, ?_⟩⟩
      change s.queue.workCurrent ≠ _
      rw [hcur]
      nofun

omit dW in
theorem SyncInv.take (hp : s.phase c = .taking w since)
    (hcare : (s.queue.workCurrent = some w ∨ s.acking = some w) ∧ (Rest s w ∨ since < s.accepted w)) :
    SyncInv (rtSemTake s c w since) := by
  have hle : since ≤ s.accepted w := by
    have hok := h.phase c
    rw [hp] at hok
    exact hok
  have hnot : c ∉ s.sem.suspendThread := by
    intro hin
    obtain ⟨w', n, hb⟩ := (h.waiters.2 c).mp hin
    rw [hp] at hb
    cases hb
  have hzero : ¬0 < s.sem.value := by rw [h.value]; exact Nat.lt_irrefl 0
  rw [rtSemTake, if_neg hzero]
  refine ⟨h.lists, h.acking, h.value, ⟨?_, fun x => ?_⟩, fun x => ?_⟩
  · exact h.waiters.1.append (List.nodup_singleton c) (by simpa using hnot)
  · change x ∈ s.sem.suspendThread ++ [c] ↔ _
    rw [List.mem_append, List.mem_singleton]
    by_cases hx : x = c
    · subst hx
      rw [phase_goto_self]
      exact iff_of_true (.inr rfl) ⟨w, since, rfl⟩
    · rw [phase_goto_of_ne hx]
      exact (or_iff_left hx).trans (h.waiters.2 x)
  · change PhaseOk s _
    by_cases hx : x = c
    · subst hx
      rw [phase_goto_self]
      exact ⟨hle, hcare.1, fun heq => hcare.2.resolve_right fun hlt => Nat.ne_of_gt hlt heq⟩
    · rw [phase_goto_of_ne hx]
      exact h.phase x

theorem SyncInv.cancel (hp : s.phase c = .cancelling w since)
    (hcare : (s.queue.workCurrent ≠ some w ∧ s.expiry ≠ .entered w) ∨ since < s.accepted w) :
    SyncInv ({ s with queue := (workqueueCancelWork s.queue w).1 }.goto c (.returning w since)) := by
  obtain ⟨hk, hrest⟩ := Keeps.cancel h.lists w
  have hle : since ≤ s.accepted w := by
    have hok := h.phase c
    rw [hp] at hok
    exact hok
  have hmove : SyncInv { s with queue := (workqueueCancelWork s.queue w).1 } :=
    h.still ⟨hk, rfl, rfl⟩ workqueueCancelWork_workCurrent rfl
  refine hmove.goto (fun w' n hb => ?_) (fun _ _ => nofun) ⟨hle, fun heq => ?_⟩
  · cases hp.symm.trans hb
  · obtain ⟨hcur, he⟩ := hcare.resolve_right fun hlt => Nat.ne_of_gt hlt heq
    exact ⟨hrest he, fun hc => hcur (workqueueCancelWork_workCurrent.symm.trans hc)⟩

theorem SyncInv.step {a : SyncAct W C} (hcare : Careful s a) (hs : syncStep s a = .ok s') : SyncInv s' := by
  cases a with
  | queue a => exact h.queue hs
  | start w =>
    obtain ⟨hin, hs⟩ := ok_of_ite hs
    cases hs
    exact h.still (.start h.lists hin) rfl rfl
  | enter =>
    simp only [syncStep] at hs
    split at hs
    · rename_i w he
      split at hs
      · cases hs
      · cases hs
        exact h.still (.enter h.lists he ‹_›) rfl rfl
    · cases hs
  | handle =>
    simp only [syncStep] at hs
    split at hs
    · rename_i w he
      cases hs
      obtain ⟨hk, hcur⟩ := Keeps.handle h.lists he
      exact h.still ⟨hk, rfl, rfl⟩ hcur rfl
    · cases hs
  | complete => exact h.complete hs
  | call c w =>
    simp only [syncStep] at hs
    split at hs
    · rename_i hp
      cases hs
      exact h.goto (fun _ _ hb => by rw [hp] at hb; cases hb) (fun _ _ => nofun) (Nat.le_refl _)
    · cases hs
  | test c =>
    simp only [syncStep] at hs
    split at hs
    · rename_i w since hp
      cases hs
      have hok := h.phase c
      rw [hp] at hok
      refine h.goto (fun _ _ hb => by rw [hp] at hb; cases hb) (fun _ _ => ?_) ?_
      · split <;> nofun
      · split <;> exact hok
    · cases hs
  | take c =>
    simp only [syncStep] at hs
    split at hs
    · rename_i w since hp
      cases hs
      rw [Careful, hp] at hcare
      exact h.take hp hcare
    · cases hs
  | cancel c =>
    simp only [syncStep] at hs
    split at hs
    · rename_i w since hp
      cases hs
      rw [Careful, hp] at hcare
      exact h.cancel hp hcare
    · cases hs
  | ret c =>
    simp only [syncStep] at hs
    split at hs
    · rename_i w since hp
      cases hs
      exact h.goto (fun _ _ hb => by rw [hp] at hb; cases hb) (fun _ _ => nofun) trivial
    · cases hs

end

omit dW dC in
theorem syncCreate_inv : SyncInv (syncCreate : Sync W C) where
  lists := created_inv.lists
  acking hno := absurd rfl hno
  value := rfl
  waiters := ⟨List.nodup_nil, fun c => iff_of_false List.not_mem_nil fun ⟨w, n, hb⟩ => by cases hb⟩
  phase _ := trivial

/-- **What cancelling and waiting gives.** If each caller takes the semaphore while its item is still current
and nothing submitted before the call is left of it, and cancels its item while that does not run and no handler
of its delay is in flight, it is blocked only as long as the item is current, and when it returns the item is
neither running nor scheduled, unless it was submitted after the call began. -/
theorem cancel_work_sync_sound {acts : List (SyncAct W C)} (hcare : Along syncStep Careful syncCreate acts)
    (hrun : run syncStep syncCreate acts = .ok s) : SyncSound s :=
  (run_inv (fun _ _ _ h hp hs => h.step hp hs) syncCreate_inv hcare hrun).sound

/-- An item whose delay has expired: one caller cancels it, and, when it was submitted once more, waits for it while it
runs. -/
theorem cancel_work_sync_sound_waits : ∃ s : Sync Unit Unit, SyncSound s ∧ s.phase () = .returning () 2 := by
  obtain ⟨s, hs⟩ : ∃ s, run syncStep (syncCreate : Sync Unit Unit)
      [.queue (.submitWork () 5), .start (), .queue (.expire ()), .enter, .handle, .call () (), .test (), .cancel (),
        .ret (), .queue (.dowork ()), .queue .take, .call () (), .test (), .take (), .queue .done, .complete] = .ok s :=
    ⟨_, rfl⟩
  refine ⟨s, cancel_work_sync_sound (by decide) hs, ?_⟩
  cases hs
  rfl

/-- **The test is not made again.** The item is done before the caller takes the semaphore, and nothing is left
that would resume the caller; it is scheduled again while it runs; or the thread takes it before the caller
cancels it. **And a handler is not stopped** that has read the queue: it schedules the item behind the end of a
call that has waited, or cancelled. -/
theorem cancel_work_sync_unsound :
    (∃ s, run syncStep (syncCreate : Sync Unit Unit) [.queue (.dowork ()), .queue .take, .call () (), .test (),
      .queue .done, .complete, .take ()] = .ok s ∧ ¬SyncSound s) ∧
    (∃ s, run syncStep (syncCreate : Sync Unit Unit) [.queue (.dowork ()), .queue .take, .queue (.submitWork () 5),
      .call () (), .test (), .take (), .queue .done, .complete] = .ok s ∧ ¬SyncSound s) ∧
    (∃ s, run syncStep (syncCreate : Sync Unit Unit) [.queue (.dowork ()), .call () (), .test (), .queue .take,
      .cancel ()] = .ok s ∧ ¬SyncSound s) ∧
    (∃ s, run syncStep (syncCreate : Sync Unit Unit) [.queue (.submitWork () 5), .start (), .queue (.expire ()), .enter,
      .queue (.dowork ()), .queue .take, .call () (), .test (), .take (), .queue .done, .complete, .handle] = .ok s ∧
      ¬SyncSound s) ∧
    ∃ s, run syncStep (syncCreate : Sync Unit Unit) [.queue (.submitWork () 5), .start (), .queue (.expire ()), .enter,
      .call () (), .test (), .cancel (), .handle] = .ok s ∧ ¬SyncSound s := by
  refine ⟨⟨_, rfl, fun h => ?_⟩, ⟨_, rfl, fun h => ?_⟩, ⟨_, rfl, fun h => ?_⟩, ⟨_, rfl, fun h => ?_⟩, _, rfl, fun h => ?_⟩
  · exact absurd (h.blocked () () 1 rfl) (by decide)
  · exact absurd (h.returning () () 2 rfl) (by decide)
  · exact absurd (h.returning () () 1 rfl) (by decide)
  · exact absurd (h.returning () () 2 rfl) (by decide)
  · exact absurd (h.returning () () 1 rfl) (by decide)

end RtosKernel.RtThread.WorkQueue
