import RtosKernel.Zephyr.PipeStream

/-! # The calls of a pipe

The loops of a call copy as much as they can, so that what is left of each request is a difference of sums. -/

namespace RtosKernel.Zephyr.Pipes
open Lib.Window Zephyr.WaitQ List

variable {T : Type} {s s' s₁ : System T} {t u : T} {r : Request} {c : Call} {xs : List T}

/-! ## The loops -/

/-- How much is left of the requests of some threads. -/
def System.needs (s : System T) (xs : List T) : Nat := (xs.map s.need).sum

@[simp] theorem needs_nil : s.needs [] = 0 := rfl

@[simp] theorem needs_cons : s.needs (u :: xs) = s.need u + s.needs xs := by
  simp [System.needs]

theorem needs_congr (h : ∀ u ∈ xs, s'.need u = s.need u) : s'.needs xs = s.needs xs :=
  congrArg List.sum (map_congr_left h)

variable [dT : DecidableEq T]

theorem putToReaders_spec (h : Sound s) (ht : Busy s .put t) (hnodup : xs.Nodup) (hxs : ∀ u ∈ xs, Active s .get u)
    (hempty : xs ≠ [] → s.pipe.bytesUsed = 0) :
    Sound (s.putToReaders t xs) ∧ Frame s (s.putToReaders t xs) ∧
      (s.putToReaders t xs).pipe.bytesUsed = s.pipe.bytesUsed ∧
      (s.putToReaders t xs).need t = s.need t - s.needs xs ∧
      ∀ u, u ≠ t → u ∉ xs → (s.putToReaders t xs).need u = s.need u := by
  induction xs generalizing s with
  | nil => exact ⟨h, .refl, rfl, rfl, fun _ _ _ => rfl⟩
  | cons u xs ih =>
    obtain ⟨hu, hnodup⟩ := nodup_cons.mp hnodup
    have hactive := hxs u mem_cons_self
    obtain ⟨hsound, hframe, hpipe, -, hneed, hother⟩ :=
      xfer_spec h ht hactive.1 (.inr (hempty nofun))
    have hactive' := hframe.active hactive
    have hready := hactive'.frame_zReadyThread
    have hframe' := hframe.trans hready
    have hmem : ∀ v ∈ xs, v ≠ t ∧ v ≠ u := fun v hv =>
      ⟨(ht.ne (hxs v (mem_cons_of_mem _ hv)).1).symm, fun heq => hu (heq ▸ hv)⟩
    obtain ⟨hsound', hframe'', hused', hneed', hother'⟩ := ih (hsound.zReadyThread hactive'.1.1) (hframe'.busy ht) hnodup
      (fun v hv => hframe'.active (hxs v (mem_cons_of_mem _ hv)))
      (fun _ => (congrArg KPipe.bytesUsed hpipe).trans (hempty nofun))
    refine ⟨hsound', hframe'.trans hframe'', hused'.trans (congrArg KPipe.bytesUsed hpipe), ?_, fun v hvt hv => ?_⟩
    · refine hneed'.trans ?_
      have hsum : ((s.xfer t u).zReadyThread u).needs xs = s.needs xs :=
        needs_congr fun v hv => hother v (hmem v hv).1 (hmem v hv).2
      rw [hsum, show ((s.xfer t u).zReadyThread u).need t = _ from hneed, needs_cons]
      omega
    · obtain ⟨hvu, hv⟩ := not_or.mp (mem_cons.not.mp hv)
      exact (hother' v hvt hv).trans (hother v hvt hvu)

theorem Request.Ok.full_iff (h : (s.request t).Ok s t) :
    (s.request t).pipeDesc.buffer = (s.request t).bytes ↔ s.need t = 0 := by
  have := h.sum
  rw [System.need]
  omega

theorem Request.Ok.lt_iff (h : (s.request t).Ok s t) :
    (s.request t).pipeDesc.buffer < (s.request t).bytes ↔ 0 < s.need t := by
  have := h.sum
  rw [System.need]
  omega

theorem getFromWriters_spec (h : Sound s) (ht : Busy s .get t) (hnodup : xs.Nodup) (hxs : ∀ u ∈ xs, Active s .put u)
    (hempty : s.need t = 0 ∨ s.pipe.bytesUsed = 0) :
    Sound (s.getFromWriters t xs).1 ∧ Frame s (s.getFromWriters t xs).1 ∧
      (s.getFromWriters t xs).1.pipe.bytesUsed = s.pipe.bytesUsed ∧
      (s.getFromWriters t xs).2.Sublist xs ∧
      (s.getFromWriters t xs).1.need t = s.need t - s.needs xs ∧
      (s.getFromWriters t xs).1.needs (s.getFromWriters t xs).2 = s.needs xs - s.need t ∧
      ∀ u, u ≠ t → u ∉ xs → (s.getFromWriters t xs).1.need u = s.need u := by
  induction xs generalizing s with
  | nil => exact ⟨h, .refl, rfl, .refl _, rfl, (Nat.zero_sub _).symm, fun _ _ _ => rfl⟩
  | cons u xs ih =>
    have hok := h.calls t ht.1
    rw [System.getFromWriters]
    by_cases hneed : 0 < s.need t
    · rw [if_pos (hok.lt_iff.mpr hneed)]
      obtain ⟨hu, hnodup⟩ := nodup_cons.mp hnodup
      have hactive := hxs u mem_cons_self
      obtain ⟨hsound, hframe, hpipe, hneedr, hneedw, hother⟩ := xfer_spec h hactive.1 ht hempty
      have hmem : ∀ v ∈ xs, v ≠ u ∧ v ≠ t := fun v hv =>
        ⟨fun heq => hu (heq ▸ hv), (hxs v (mem_cons_of_mem _ hv)).1.ne ht⟩
      have hsum : (s.xfer u t).needs xs = s.needs xs :=
        needs_congr fun v hv => hother v (hmem v hv).1 (hmem v hv).2
      have hok' := hsound.calls t (hframe.busy ht).1
      by_cases hfull : (s.xfer u t).need t = 0
      · rw [if_pos (hok'.full_iff.mpr hfull)]
        refine ⟨hsound, hframe, congrArg KPipe.bytesUsed hpipe, .refl _, ?_, ?_, fun v hvt hv => ?_⟩
        · show (s.xfer u t).need t = _
          rw [needs_cons]
          omega
        · show (s.xfer u t).needs (u :: xs) = _
          rw [needs_cons, needs_cons, hneedw, hsum]
          omega
        · obtain ⟨hvu, -⟩ := not_or.mp (mem_cons.not.mp hv)
          exact hother v hvu hvt
      · rw [if_neg fun heq => hfull (hok'.full_iff.mp heq)]
        have hactive' := hframe.active hactive
        have hframe' := hframe.trans hactive'.frame_zReadyThread
        have hused : (s.xfer u t).pipe.bytesUsed = s.pipe.bytesUsed := congrArg KPipe.bytesUsed hpipe
        obtain ⟨hsound', hframe'', hused', hsub, hneedt, hneeds, hother'⟩ := ih (hsound.zReadyThread hactive'.1.1)
          (hframe'.busy ht) hnodup (fun v hv => hframe'.active (hxs v (mem_cons_of_mem _ hv)))
          (.inr (hused.trans (by omega)))
        have hsum' : ((s.xfer u t).zReadyThread u).needs xs = s.needs xs := hsum
        have hneedt' : ((s.xfer u t).zReadyThread u).need t = s.need t - s.need u := hneedr
        refine ⟨hsound', hframe'.trans hframe'', hused'.trans hused, hsub.trans (sublist_cons_self ..), ?_, ?_,
          fun v hvt hv => ?_⟩
        · rw [hneedt, hsum', hneedt', needs_cons]
          omega
        · rw [hneeds, hsum', hneedt', needs_cons]
          omega
        · obtain ⟨hvu, hv⟩ := not_or.mp (mem_cons.not.mp hv)
          exact (hother' v hvt hv).trans (hother v hvu hvt)
    · rw [if_neg fun hlt => hneed (hok.lt_iff.mp hlt)]
      refine ⟨h, .refl, rfl, .refl _, ?_, ?_, fun _ _ _ => rfl⟩
      · show s.need t = _
        omega
      · show s.needs (u :: xs) = _
        omega

theorem refill_spec (h : Sound s) (hnodup : xs.Nodup) (hxs : ∀ u ∈ xs, Active s .put u) :
    Sound (s.refill xs) ∧ Frame s (s.refill xs) ∧
      (s.refill xs).pipe.bytesUsed = min s.pipe.size (s.pipe.bytesUsed + s.needs xs) ∧
      ∀ u, u ∉ xs → (s.refill xs).need u = s.need u := by
  induction xs generalizing s with
  | nil =>
    refine ⟨h, .refl, ?_, fun _ _ => rfl⟩
    show s.pipe.bytesUsed = min s.pipe.size (s.pipe.bytesUsed + 0)
    have := h.ring.used_le
    omega
  | cons u xs ih =>
    obtain ⟨hu, hnodup⟩ := nodup_cons.mp hnodup
    have hactive := hxs u mem_cons_self
    obtain ⟨hsound, hframe, hused, -, hother⟩ := bufferPut_spec h hactive.1
    have hactive' := hframe.active hactive
    have hframe' := hframe.trans hactive'.frame_zReadyThread
    obtain ⟨hsound', hframe'', hused', hother'⟩ := ih (hsound.zReadyThread hactive'.1.1) hnodup
      (fun v hv => hframe'.active (hxs v (mem_cons_of_mem _ hv)))
    refine ⟨hsound', hframe'.trans hframe'', ?_, fun v hv => ?_⟩
    · have hsum : ((s.bufferPut u).zReadyThread u).needs xs = s.needs xs :=
        needs_congr fun v hv => hother v fun heq => hu (heq ▸ hv)
      refine hused'.trans ?_
      rw [hsum, hframe'.size, show ((s.bufferPut u).zReadyThread u).pipe.bytesUsed = _ from hused, needs_cons]
      omega
    · obtain ⟨hvu, hv⟩ := not_or.mp (mem_cons.not.mp hv)
      exact (hother' v hv).trans (hother v hvu)

/-! ## Waiting -/

/-- Exactly the threads that wait are in the wait queues. -/
structure Queues (s : System T) : Prop where
  nodup : ∀ c, (s.pipe.waitQ c).Nodup
  mem : ∀ c t, t ∈ s.pipe.waitQ c ↔ s.phase t = .pending ∧ (s.request t).call = c

/-- Some threads have stopped waiting. -/
structure Leaves (s s' : System T) : Prop where
  pipe : s'.pipe = { s.pipe with waitQ := s'.pipe.waitQ }
  request : s'.request = s.request
  log : s'.log = s.log
  results : s'.results = s.results
  idle : ∀ t, s'.phase t = .idle ↔ s.phase t = .idle
  pending : ∀ t, s'.phase t = .pending → s.phase t = .pending
  waitQ : ∀ c, (s'.pipe.waitQ c).Sublist (s.pipe.waitQ c)

section
omit dT

theorem Leaves.refl : Leaves s s :=
  ⟨rfl, rfl, rfl, rfl, fun _ => Iff.rfl, fun _ h => h, fun _ => .refl _⟩

theorem Leaves.trans (h : Leaves s s₁) (h' : Leaves s₁ s') : Leaves s s' where
  pipe := by rw [h'.pipe, h.pipe]
  request := h'.request.trans h.request
  log := h'.log.trans h.log
  results := h'.results.trans h.results
  idle t := (h'.idle t).trans (h.idle t)
  pending t ht := h.pending t (h'.pending t ht)
  waitQ c := (h'.waitQ c).trans (h.waitQ c)

theorem Ring.setWaitQ {p : KPipe T} {q : Call → List T} (h : Ring p) : Ring { p with waitQ := q } :=
  ⟨h.used_le, h.readIndex_lt, h.writeIndex_eq⟩

end

theorem Leaves.sound (h : Leaves s s') (hs : Sound s) : Sound s' := by
  refine hs.congr ?_ ?_ h.log h.results fun t ht => ?_
  · rw [h.pipe]
    exact hs.ring.setWaitQ
  · rw [h.pipe]
    rfl
  · rw [h.request]
    exact hs.calls t fun hidle => ht ((h.idle t).mpr hidle)

section
omit dT

theorem Leaves.busy (h : Leaves s s') (hb : Busy s c t) : Busy s' c t :=
  ⟨fun hidle => hb.1 ((h.idle t).mp hidle), (congrFun h.request t ▸ hb.2 :)⟩

theorem Leaves.active (h : Leaves s s') (ha : Active s c t) : Active s' c t :=
  ⟨h.busy ha.1, fun hp => ha.2 (h.pending t hp)⟩

theorem Queues.frame (h : Queues s) (hf : Frame s s') : Queues s' where
  nodup c := by rw [hf.waitQ]; exact h.nodup c
  mem c t := by rw [hf.waitQ, hf.pending, hf.call]; exact h.mem c t

end

theorem Queues.zUnpendThread (h : Queues s) : Queues (s.zUnpendThread t) where
  nodup c := by
    by_cases hc : c = (s.request t).call
    · subst hc
      simpa [System.zUnpendThread, System.setPhase, System.setWaitQ] using (h.nodup _).erase t
    · simpa [System.zUnpendThread, System.setPhase, System.setWaitQ, hc] using h.nodup c
  mem c u := by
    have hmem := h.mem c u
    by_cases hc : c = (s.request t).call
    · subst hc
      by_cases hu : u = t
      · subst hu
        simp [System.zUnpendThread, System.setPhase, System.setWaitQ, (h.nodup _).mem_erase_iff]
      · simpa [System.zUnpendThread, System.setPhase, System.setWaitQ, hu, (h.nodup _).mem_erase_iff] using hmem
    · by_cases hu : u = t
      · subst hu
        simpa [System.zUnpendThread, System.setPhase, System.setWaitQ, hc, Ne.symm hc] using hmem
      · simpa [System.zUnpendThread, System.setPhase, System.setWaitQ, hu, hc] using hmem

theorem leaves_zUnpendThread (ht : s.phase t = .pending) : Leaves s (s.zUnpendThread t) where
  pipe := rfl
  request := rfl
  log := rfl
  results := rfl
  idle u := by
    by_cases hu : u = t
    · subst hu
      simp [System.zUnpendThread, System.setPhase, ht]
    · simp [System.zUnpendThread, System.setPhase, System.setWaitQ, hu]
  pending u := by
    by_cases hu : u = t
    · subst hu
      simp [System.zUnpendThread, System.setPhase]
    · simp [System.zUnpendThread, System.setPhase, System.setWaitQ, hu]
  waitQ c := by
    by_cases hc : c = (s.request t).call
    · subst hc
      simpa [System.zUnpendThread, System.setPhase, System.setWaitQ] using erase_sublist
    · simp [System.zUnpendThread, System.setPhase, System.setWaitQ, hc]

theorem active_zUnpendThread : Active (s.zUnpendThread t) (s.request t).call t := by
  refine ⟨⟨?_, rfl⟩, ?_⟩ <;> simp [System.zUnpendThread, System.setPhase]

omit dT in
theorem leaves_frame (h : Frame s s') (hpipe : s'.pipe = s.pipe) (hreq : s'.request = s.request) (hlog : s'.log = s.log) :
    Leaves s s' :=
  ⟨by rw [hpipe], hreq, hlog, h.results, h.idle, fun t => (h.pending t).mp, fun c => by rw [hpipe]⟩

theorem zThreadTimeout_spec (h : Queues s) : Queues (s.zThreadTimeout t) ∧ Leaves s (s.zThreadTimeout t) := by
  rw [System.zThreadTimeout]
  by_cases hp : s.phase t = .pending ∧ (s.request t).timeout = .ticks
  · rw [if_pos hp]
    have hframe := (active_zUnpendThread (s := s) (t := t)).frame_zReadyThread
    exact ⟨h.zUnpendThread.frame hframe, (leaves_zUnpendThread hp.1).trans (leaves_frame hframe rfl rfl rfl)⟩
  · rw [if_neg hp]
    exact ⟨h, .refl⟩

theorem timeouts_spec (expired : List T) (h : Queues s) : Queues (s.timeouts expired) ∧ Leaves s (s.timeouts expired) := by
  induction expired generalizing s with
  | nil => exact ⟨h, .refl⟩
  | cons t expired ih =>
    obtain ⟨hq, hleaves⟩ := zThreadTimeout_spec (t := t) h
    obtain ⟨hq', hleaves'⟩ := ih hq
    exact ⟨hq', hleaves.trans hleaves'⟩

theorem unpendAll_spec {rest : List T} (h : Queues s) (hwait : s.pipe.waitQ c = xs ++ rest) :
    Queues (s.unpendAll xs) ∧ Leaves s (s.unpendAll xs) ∧ (s.unpendAll xs).pipe.waitQ c = rest ∧
      ∀ u ∈ xs, Active (s.unpendAll xs) c u := by
  induction xs generalizing s with
  | nil => exact ⟨h, .refl, hwait, nofun⟩
  | cons u xs ih =>
    obtain ⟨hp, hc⟩ := (h.mem c u).mp (by rw [hwait]; exact mem_cons_self)
    have hwait' : (s.zUnpendThread u).pipe.waitQ c = xs ++ rest := by
      subst hc
      simp [System.zUnpendThread, System.setPhase, System.setWaitQ, hwait]
    obtain ⟨hq, hleaves, hrest, hactive⟩ := ih h.zUnpendThread hwait'
    refine ⟨hq, (leaves_zUnpendThread hp).trans hleaves, hrest, fun v hv => ?_⟩
    obtain rfl | hv := mem_cons.mp hv
    · exact hleaves.active (hc ▸ active_zUnpendThread)
    · exact hactive v hv

omit dT in
/-- The working set is the front of the queue. It is followed by a thread that asks for more than
what the request leaves, or by nobody. -/
theorem workingSet_spec {w bytesToXfer num : Nat} {need : T → Nat} {q xs : List T} {waiter : Option T}
    (hgo : workingSet w bytesToXfer need num q = (xs, waiter)) : ∃ rest, q = xs ++ rest ∧ rest.head? = waiter ∧
      ∀ u, waiter = some u → bytesToXfer < num + (xs.map need).sum + need u := by
  induction q generalizing num xs with
  | nil =>
    cases hgo
    exact ⟨[], rfl, rfl, nofun⟩
  | cons u q ih =>
    have hle := Nat.mod_le (num + need u) (2 ^ w)
    rw [workingSet] at hgo
    by_cases hmore : (num + need u) % 2 ^ w > bytesToXfer
    · rw [if_pos hmore] at hgo
      cases hgo
      refine ⟨u :: q, rfl, rfl, fun v hv => ?_⟩
      cases hv
      omega
    · rw [if_neg hmore] at hgo
      cases hgo
      obtain ⟨rest, hq, hhead, hsome⟩ := ih rfl
      refine ⟨rest, ?_, hhead, fun v hv => ?_⟩
      · rw [cons_append, ← hq]
      · have hlt := hsome v hv
        rw [map_cons, sum_cons]
        omega

end RtosKernel.Zephyr.Pipes
