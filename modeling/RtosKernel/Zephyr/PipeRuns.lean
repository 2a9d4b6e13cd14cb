import RtosKernel.Lib.Runs
import RtosKernel.Zephyr.PipeCalls

/-! # What every run of a pipe keeps

A call takes its working set, copies, and returns or waits. Readers that are left waiting
find the buffer empty, writers find it full, and there are never both. -/

namespace RtosKernel.Zephyr.Pipes
open Lib.Window Zephyr.WaitQ List Option

variable {T : Type} [DecidableEq T] {s s' s₁ : System T} {t u : T} {r : Request} {c c' : Call} {xs : List T}
  {w : Nat} {waiter : Option T} {expired : List T} {ret : Int} {stored : Option Nat}

variable {data : Nat → UInt8} {bytes minXfer : Nat} {timeout : KTimeout}

/-- Readers wait only at an empty buffer and writers only at a full one, and not both. -/
structure Waits (s : System T) : Prop where
  readers : s.pipe.waitQ .get ≠ [] → s.pipe.bytesUsed = 0
  writers : s.pipe.waitQ .put ≠ [] → s.pipe.bytesUsed = s.pipe.size
  one : s.pipe.waitQ .get = [] ∨ s.pipe.waitQ .put = []

structure Inv (s : System T) : Prop where
  sound : Sound s
  queues : Queues s
  waits : Waits s

/-! ## Returning and waiting -/

theorem moved_length (h : r.Ok s t) : (s.moved t r).length = r.pipeDesc.buffer := by
  rw [h.moved, length_bytesAt]

theorem returned_ok (h : r.Ok s t) (hret : ret = 0 ↔ r.minXfer ≤ r.pipeDesc.buffer) (hne : ret ≠ eio) :
    Returned.Ok { thread := t, request := r, moved := s.moved t r, stored := some r.pipeDesc.buffer, ret } where
  stored n hn := by
    cases hn
    have := h.sum
    exact ⟨by dsimp only; omega, h.moved, h.outside⟩
  unstored := nofun
  ret_eq_zero := by rw [moved_length h]; exact hret
  noWait heq := absurd heq hne

theorem Sound.returns (h : Sound s)
    (hx : Returned.Ok { thread := t, request := r, moved := s.moved t r, stored, ret }) :
    Sound (s.returns t r stored ret) where
  ring := h.ring
  stream := h.stream
  calls u hu := by
    refine (h.calls u ?_).congr rfl
    by_cases heq : u = t
    · subst heq
      simp [System.returns] at hu
    · simpa [System.returns, heq] using hu
  results x hx' := by
    obtain hmem | hmem := mem_append.mp hx'
    · exact h.results x hmem
    · rw [mem_singleton.mp hmem]
      exact hx

theorem Queues.returns (h : Queues s) (ht : s.phase t ≠ .pending) : Queues (s.returns t r stored ret) where
  nodup := h.nodup
  mem c u := by
    refine (h.mem c u).trans ?_
    by_cases heq : u = t
    · subst heq
      simp [System.returns, ht]
    · simp [System.returns, heq]

theorem Inv.returns (h : Inv s) (ht : s.phase t ≠ .pending)
    (hx : Returned.Ok { thread := t, request := r, moved := s.moved t r, stored, ret }) :
    Inv (s.returns t r stored ret) :=
  ⟨h.sound.returns hx, h.queues.returns ht, h.waits.readers, h.waits.writers, h.waits.one⟩

theorem Request.Ok.count (h : r.Ok s t) : r.bytes - r.pipeDesc.bytesToXfer = r.pipeDesc.buffer := by
  have := h.sum
  omega

theorem Inv.leave (h : Inv s) (ht : s.phase t ≠ .idle) (hp : s.phase t ≠ .pending) : Inv (s.leave t) := by
  have hok := h.sound.calls t ht
  rw [System.leave, hok.count]
  refine h.returns hp (returned_ok hok ?_ ?_)
  · rw [pipeReturnCode, hok.count]
    by_cases hmin : (s.request t).pipeDesc.buffer ≥ (s.request t).minXfer
    · rw [if_pos hmin]
      exact iff_of_true rfl hmin
    · rw [if_neg hmin]
      exact iff_of_false (by decide) hmin
  · rw [pipeReturnCode]
    split <;> decide

theorem Queues.zPendCurr (h : Queues s) (ht : s.phase t ≠ .pending) : Queues (s.zPendCurr t) where
  nodup c := by
    by_cases hc : c = (s.request t).call
    · subst hc
      have hmem : t ∉ s.pipe.waitQ (s.request t).call := fun hmem => ht ((h.mem _ t).mp hmem).1
      simpa [System.zPendCurr, System.setPhase, System.setWaitQ, nodup_zPriqDumbAdd] using ⟨hmem, h.nodup _⟩
    · simpa [System.zPendCurr, System.setPhase, System.setWaitQ, hc] using h.nodup c
  mem c u := by
    have hmem := h.mem c u
    by_cases hc : c = (s.request t).call
    · subst hc
      by_cases hu : u = t
      · subst hu
        simp [System.zPendCurr, System.setPhase, System.setWaitQ]
      · simpa [System.zPendCurr, System.setPhase, System.setWaitQ, hu] using hmem
    · by_cases hu : u = t
      · subst hu
        simpa [System.zPendCurr, System.setPhase, System.setWaitQ, hc, Ne.symm hc, ht] using hmem
      · simpa [System.zPendCurr, System.setPhase, System.setWaitQ, hu, hc] using hmem

theorem Sound.zPendCurr (h : Sound s) (ht : s.phase t ≠ .idle) : Sound (s.zPendCurr t) := by
  refine h.congr h.ring.setWaitQ rfl rfl rfl fun u hu => h.calls u ?_
  by_cases heq : u = t
  · subst heq
    exact ht
  · simpa [System.zPendCurr, System.setPhase, System.setWaitQ, heq] using hu

theorem waitQ_zPendCurr_other (h : c ≠ (s.request t).call) : (s.zPendCurr t).pipe.waitQ c = s.pipe.waitQ c := by
  simp [System.zPendCurr, System.setPhase, System.setWaitQ, h]

/-- A writer goes to sleep at a full buffer, and a reader at an empty one, with nobody waiting on the other side. -/
def MayWait (s : System T) : Call → Prop
  | .put => s.pipe.bytesUsed = s.pipe.size ∧ s.pipe.waitQ .get = []
  | .get => s.pipe.bytesUsed = 0 ∧ s.pipe.waitQ .put = []

theorem waits_zPendCurr (hcall : (s.request t).call = c) (hmay : MayWait s c) : Waits (s.zPendCurr t) := by
  cases c with
  | put =>
    have hget : (s.zPendCurr t).pipe.waitQ .get = [] := by
      rw [waitQ_zPendCurr_other (by rw [hcall]; decide), hmay.2]
    exact ⟨fun hne => absurd hget hne, fun _ => hmay.1, .inl hget⟩
  | get =>
    have hput : (s.zPendCurr t).pipe.waitQ .put = [] := by
      rw [waitQ_zPendCurr_other (by rw [hcall]; decide), hmay.2]
    exact ⟨fun _ => hmay.1, fun hne => absurd hput hne, .inr hput⟩

theorem Inv.finish (h : Inv s) (ht : Active s c t) (hleft : s.need t ≠ 0 → MayWait s c) : Inv (s.finish t) := by
  have hok := h.sound.calls t ht.1.1
  rw [System.finish]
  by_cases hfull : (s.request t).pipeDesc.buffer = (s.request t).bytes
  · rw [if_pos hfull]
    refine h.returns ht.2 (returned_ok hok (iff_of_true rfl ?_) (by decide))
    rw [hfull]
    exact hok.min_le
  · rw [if_neg hfull]
    by_cases hmin : (s.request t).timeout ≠ .noWait ∧ (s.request t).pipeDesc.buffer ≥ (s.request t).minXfer ∧
        (s.request t).minXfer > 0
    · rw [if_pos hmin]
      exact h.returns ht.2 (returned_ok hok (iff_of_true rfl hmin.2.1) (by decide))
    · rw [if_neg hmin]
      by_cases hwait : (s.request t).timeout ≠ .noWait
      · rw [if_pos hwait]
        have hmay := hleft fun hzero => hfull (hok.full_iff.mpr hzero)
        exact ⟨h.sound.zPendCurr ht.1.1, h.queues.zPendCurr ht.2, waits_zPendCurr ht.1.2 hmay⟩
      · rw [if_neg hwait]
        exact h.leave ht.1.1 ht.2

/-! ## The start of a call -/

/-- A call has taken its working set from the threads that wait in calls of kind `c`. -/
structure Prepared (s s' : System T) (t : T) (r : Request) (c : Call) (xs : List T) (waiter : Option T) : Prop where
  sound : Sound s'
  queues : Queues s'
  active : Active s' r.call t
  pipe : s'.pipe = { s.pipe with waitQ := s'.pipe.waitQ }
  results : s'.results = s.results
  need_self : s'.need t = r.pipeDesc.bytesToXfer
  need_other : ∀ u, u ≠ t → s'.need u = s.need u
  waitQ : ∀ c, (s'.pipe.waitQ c).Sublist (s.pipe.waitQ c)
  nodup : xs.Nodup
  working : ∀ u ∈ xs, Active s' c u ∧ u ∈ s.pipe.waitQ c
  waiter_none : waiter = none → s'.pipe.waitQ c = []
  waiter_some : ∀ u, waiter = some u → Busy s' c u ∧ u ∈ s.pipe.waitQ c ∧ u ∉ xs ∧ r.bytes < s.needs xs + s.need u

theorem begin_leaves (ht : s.phase t = .idle) (h : Sound s) (hr : r.Ok s t) : Sound (s.begin t r) := by
  refine h.congr h.ring rfl rfl rfl fun u hu => ?_
  by_cases heq : u = t
  · subst heq
    simpa [System.begin, System.setPhase] using hr
  · simpa [System.begin, System.setPhase, heq] using h.calls u (by simpa [System.begin, System.setPhase, heq] using hu)

theorem Queues.begin (h : Queues s) (ht : s.phase t = .idle) : Queues (s.begin t r) where
  nodup := h.nodup
  mem c u := by
    refine (h.mem c u).trans ?_
    by_cases heq : u = t
    · subst heq
      simp [System.begin, System.setPhase, ht]
    · simp [System.begin, System.setPhase, heq]

theorem prepared (expired : List T) (h : Inv s) (ht : s.phase t = .idle) (hr : r.Ok s t)
    (hset : workingSet w r.bytes s.need 0 (s.pipe.waitQ c) = (xs, waiter)) :
    Prepared s (((s.unpendAll xs).begin t r).timeouts expired) t r c xs waiter := by
  obtain ⟨rest, hq, hhead, hsome⟩ := workingSet_spec hset
  obtain ⟨hqueues, hleaves, hrest, hactive⟩ := unpendAll_spec h.queues hq
  have hidle : (s.unpendAll xs).phase t = .idle := (hleaves.idle t).mpr ht
  have hsound := begin_leaves hidle (hleaves.sound h.sound) (hr.congr hleaves.log)
  obtain ⟨hqueues', hleaves'⟩ := timeouts_spec expired (hqueues.begin (r := r) hidle)
  -- the threads that were waiting are others than the one that calls
  have hne : ∀ u ∈ s.pipe.waitQ c, u ≠ t := by
    rintro u hu rfl
    have := ((h.queues.mem c u).mp hu).1.symm.trans ht
    cases this
  have hbegin : ∀ u, u ≠ t → ((s.unpendAll xs).begin t r).request u = s.request u := fun u hu => by
    rw [← hleaves.request]
    simp [System.begin, System.setPhase, hu]
  have hphase : ∀ u, u ≠ t → ((s.unpendAll xs).begin t r).phase u = (s.unpendAll xs).phase u := fun u hu => by
    simp [System.begin, System.setPhase, hu]
  have hself : ((s.unpendAll xs).begin t r).request t = r := by
    simp [System.begin, System.setPhase]
  have hmem : ∀ u ∈ xs, u ∈ s.pipe.waitQ c := fun u hu => by
    rw [hq]
    exact mem_append_left _ hu
  have hnodup : (xs ++ rest).Nodup := hq ▸ h.queues.nodup c
  have hbusy : ∀ u, u ≠ t → Busy (s.unpendAll xs) c u → Busy ((s.unpendAll xs).begin t r) c u := fun u hu hb =>
    ⟨by rw [hphase u hu]; exact hb.1, by rw [hbegin u hu, ← hleaves.request]; exact hb.2⟩
  constructor
  · exact hleaves'.sound hsound
  · exact hqueues'
  · refine hleaves'.active ⟨⟨?_, by rw [hself]⟩, ?_⟩ <;> simp [System.begin, System.setPhase]
  · have hpipe : ((s.unpendAll xs).begin t r).pipe =
        { s.pipe with waitQ := ((s.unpendAll xs).begin t r).pipe.waitQ } := hleaves.pipe
    rw [hleaves'.pipe, hpipe]
  · exact hleaves'.results.trans hleaves.results
  · rw [System.need, hleaves'.request, hself]
  · intro u hu
    rw [System.need, hleaves'.request, hbegin u hu, System.need]
  · exact fun c => (hleaves'.waitQ c).trans (hleaves.waitQ c)
  · exact (nodup_append.mp hnodup).1
  · intro u hu
    have hut := hne u (hmem u hu)
    exact ⟨hleaves'.active ⟨hbusy u hut (hactive u hu).1, by rw [hphase u hut]; exact (hactive u hu).2⟩, hmem u hu⟩
  · intro heq
    have hsub := hleaves'.waitQ c
    rw [show ((s.unpendAll xs).begin t r).pipe.waitQ c = rest from hrest, List.head?_eq_none_iff.mp (hhead.trans heq)] at hsub
    exact sublist_nil.mp hsub
  · intro u hu
    have hlt := hsome u hu
    have hmem' : u ∈ rest := List.mem_of_head? (hhead.trans hu)
    have huq : u ∈ s.pipe.waitQ c := by
      rw [hq]
      exact mem_append_right _ hmem'
    obtain ⟨hp, hcall⟩ := (h.queues.mem c u).mp huq
    refine ⟨hleaves'.busy (hbusy u (hne u huq) (hleaves.busy ⟨by rw [hp]; decide, hcall⟩)), huq, fun hux => ?_, ?_⟩
    · exact disjoint_of_nodup_append hnodup hux hmem'
    · rw [Nat.zero_add] at hlt
      exact hlt

/-! ## The calls -/

theorem Prepared.used {waiter : Option T} (hp : Prepared s s' t r c xs waiter) : s'.pipe.bytesUsed = s.pipe.bytesUsed := by
  rw [hp.pipe]

section
variable (hp : Prepared s s' t r c xs waiter)
include hp

theorem Prepared.size : s'.pipe.size = s.pipe.size := by
  rw [hp.pipe]

theorem Prepared.ne_nil (hne : xs ≠ []) : s.pipe.waitQ c ≠ [] := by
  obtain ⟨u, hu⟩ := exists_mem_of_ne_nil xs hne
  exact ne_nil_of_mem (hp.working u hu).2

theorem Prepared.still (hne : s'.pipe.waitQ c' ≠ []) : s.pipe.waitQ c' ≠ [] :=
  fun hnil => hne (sublist_nil.mp (hnil ▸ hp.waitQ c'))

theorem Prepared.one (h : Waits s) : s'.pipe.waitQ .get = [] ∨ s'.pipe.waitQ .put = [] := by
  obtain hnil | hnil := h.one
  · exact .inl (by_contra fun hne => hp.still hne hnil)
  · exact .inr (by_contra fun hne => hp.still hne hnil)

end

/-- What a put does when it has its working set. -/
def putTail (s : System T) (t : T) (xs : List T) (waiter : Option T) : System T :=
  ((s.putToReaders t xs).putToWaiter t waiter).bufferPut t

theorem putTail_spec (h : Inv s) (hr : r.call = .put) (hfresh : r.pipeDesc.bytesToXfer = r.bytes)
    (hp : Prepared s s₁ t r .get xs waiter) : Inv (putTail s₁ t xs waiter) ∧ Frame s₁ (putTail s₁ t xs waiter) ∧
      ((putTail s₁ t xs waiter).need t ≠ 0 → MayWait (putTail s₁ t xs waiter) .put) := by
  have hused := hp.used
  have hsize := hp.size
  have ht : Busy s₁ .put t := hr ▸ hp.active.1
  have hneedt : s₁.need t = r.bytes := hp.need_self.trans hfresh
  have hneeds : s₁.needs xs = s.needs xs := needs_congr fun u hu => hp.need_other u (ht.ne (hp.working u hu).1.1).symm
  obtain ⟨hs₂, hf₂, hused₂, hneed₂, hother₂⟩ := putToReaders_spec hp.sound ht hp.nodup (fun u hu => (hp.working u hu).1)
    fun hne => hused.trans (h.waits.readers (hp.ne_nil hne))
  -- the reader that is left on the queue takes all there is left
  obtain ⟨hs₃, hf₃, hused₃, hzero⟩ : Sound ((s₁.putToReaders t xs).putToWaiter t waiter) ∧
      Frame s₁ ((s₁.putToReaders t xs).putToWaiter t waiter) ∧
      ((s₁.putToReaders t xs).putToWaiter t waiter).pipe.bytesUsed = s.pipe.bytesUsed ∧
      (((s₁.putToReaders t xs).putToWaiter t waiter).need t ≠ 0 → waiter = none) := by
    cases hwaiter : waiter with
    | none => exact ⟨hs₂, hf₂, hused₂.trans hused, fun _ => rfl⟩
    | some u =>
      obtain ⟨hu, hmem, hxs, hlt⟩ := hp.waiter_some u hwaiter
      have hempty := h.waits.readers (ne_nil_of_mem hmem)
      obtain ⟨hs₃, hf₃, hpipe₃, -, hneed₃, -⟩ := xfer_spec hs₂ (hf₂.busy ht) (hf₂.busy hu)
        (.inr ((hused₂.trans hused).trans hempty))
      refine ⟨hs₃, hf₂.trans hf₃, ?_, fun hne => absurd ?_ hne⟩
      · rw [System.putToWaiter, hpipe₃, hused₂, hused]
      · have hut := (ht.ne hu).symm
        rw [System.putToWaiter, hneed₃, hneed₂, hother₂ u hut hxs, hneedt, hneeds, hp.need_other u hut]
        omega
  obtain ⟨s₃, hs₃eq⟩ : ∃ s₃, (s₁.putToReaders t xs).putToWaiter t waiter = s₃ := ⟨_, rfl⟩
  rw [putTail]
  rw [hs₃eq] at hs₃ hf₃ hused₃ hzero ⊢
  obtain ⟨hs₄, hf₄, hused₄, hneed₄, -⟩ := bufferPut_spec hs₃ (hf₃.busy ht)
  have hf := hf₃.trans hf₄
  have hwaitQ := hf.waitQ
  have hsize₃ := hf₃.size
  have hsize₄ := hf.size
  refine ⟨⟨hs₄, hp.queues.frame hf, ?_, ?_, ?_⟩, hf, fun hne => ⟨?_, ?_⟩⟩
  · intro hne
    rw [hwaitQ] at hne
    have hempty := h.waits.readers (hp.still hne)
    have hzero : s₃.need t = 0 := by_contra fun h => hne (hp.waiter_none (hzero h))
    omega
  · intro hne
    rw [hwaitQ] at hne
    have hfull := h.waits.writers (hp.still hne)
    omega
  · rw [hwaitQ]
    exact hp.one h.waits
  · omega
  · rw [hwaitQ]
    exact hp.waiter_none (hzero (by omega))

/-- What a get does when it has its working set. -/
def getTail (s : System T) (t : T) (xs : List T) (waiter : Option T) : System T :=
  let s := s.bufferGet t
  (((s.getFromWriters t xs).1.getFromWaiter t waiter).refill (s.getFromWriters t xs).2).refillFromWaiter waiter

theorem getFromWaiter_spec (h : Sound s) (ht : Busy s .get t) (hu : Busy s .put u)
    (hempty : s.need t = 0 ∨ s.pipe.bytesUsed = 0) :
    Sound (s.getFromWaiter t (some u)) ∧ Frame s (s.getFromWaiter t (some u)) ∧
      (s.getFromWaiter t (some u)).pipe.bytesUsed = s.pipe.bytesUsed ∧
      (s.getFromWaiter t (some u)).need t = s.need t - s.need u ∧
      (s.getFromWaiter t (some u)).need u = s.need u - s.need t ∧
      ∀ v, v ≠ u → v ≠ t → (s.getFromWaiter t (some u)).need v = s.need v := by
  have hok := h.calls t ht.1
  rw [System.getFromWaiter]
  by_cases hlt : (s.request t).pipeDesc.buffer < (s.request t).bytes
  · rw [if_pos hlt]
    obtain ⟨hs, hf, hpipe, hneedt, hneedu, hother⟩ := xfer_spec h hu ht hempty
    exact ⟨hs, hf, congrArg KPipe.bytesUsed hpipe, hneedt, hneedu, hother⟩
  · rw [if_neg hlt]
    have hzero : s.need t = 0 := Nat.eq_zero_of_not_pos fun hpos => hlt (hok.lt_iff.mpr hpos)
    exact ⟨h, .refl, rfl, by omega, by omega, fun _ _ _ => rfl⟩

theorem getTail_spec (h : Inv s) (hr : r.call = .get) (hfresh : r.pipeDesc.bytesToXfer = r.bytes)
    (hp : Prepared s s₁ t r .put xs waiter) : Inv (getTail s₁ t xs waiter) ∧ Frame s₁ (getTail s₁ t xs waiter) ∧
      ((getTail s₁ t xs waiter).need t ≠ 0 → MayWait (getTail s₁ t xs waiter) .get) := by
  have hused := hp.used
  have hsize := hp.size
  have ht : Busy s₁ .get t := hr ▸ hp.active.1
  have hneedt : s₁.need t = r.bytes := hp.need_self.trans hfresh
  have hxst : ∀ u ∈ xs, u ≠ t := fun u hu => (hp.working u hu).1.1.ne ht
  have hneeds : s₁.needs xs = s.needs xs := needs_congr fun u hu => hp.need_other u (hxst u hu)
  obtain ⟨hs₂, hf₂, hused₂, hneed₂, hother₂⟩ := bufferGet_spec hp.sound ht
  have hneeds₂ : (s₁.bufferGet t).needs xs = s.needs xs := (needs_congr fun u hu => hother₂ u (hxst u hu)).trans hneeds
  obtain ⟨hs₃, hf₃, hused₃, hsub, hneed₃, hrest₃, hother₃⟩ := getFromWriters_spec hs₂ (hf₂.busy ht) hp.nodup
    (fun u hu => hf₂.active (hp.working u hu).1) (by omega)
  rw [getTail]
  obtain ⟨⟨s₃, rest⟩, hgo⟩ : ∃ x, (s₁.bufferGet t).getFromWriters t xs = x := ⟨_, rfl⟩
  rw [hgo] at hs₃ hf₃ hused₃ hsub hneed₃ hrest₃ hother₃ ⊢
  dsimp only at hs₃ hf₃ hused₃ hsub hneed₃ hrest₃ hother₃ ⊢
  have hf₃ := hf₂.trans hf₃
  have hrestt : ∀ u ∈ rest, u ≠ t := fun u hu => hxst u (hsub.subset hu)
  have hactive : ∀ u ∈ rest, Active s₁ .put u := fun u hu => (hp.working u (hsub.subset hu)).1
  have hnodup := hsub.nodup hp.nodup
  have htrest : t ∉ rest := fun ht' => hrestt t ht' rfl
  obtain ⟨s₅, hs₅, hf₅, hused₅, hneed₅, hs₅eq⟩ : ∃ s₅, Sound s₅ ∧ Frame s₁ s₅ ∧
      (waiter = none → s₅.pipe.bytesUsed = min s.pipe.size (s₃.pipe.bytesUsed + s₃.needs rest) ∧
        s₅.need t = s₃.need t) ∧
      (∀ u, waiter = some u → s₅.pipe.bytesUsed = s.pipe.size ∧ s₅.need t = 0) ∧
      ((s₃.getFromWaiter t waiter).refill rest).refillFromWaiter waiter = s₅ := by
    cases hwaiter : waiter with
    | none =>
      obtain ⟨hs₅, hf₅, hused₅, hother₅⟩ := refill_spec hs₃ hnodup (fun u hu => hf₃.active (hactive u hu))
      refine ⟨_, hs₅, hf₃.trans hf₅, fun _ => ⟨?_, hother₅ t htrest⟩, nofun, rfl⟩
      rw [hused₅, hf₃.size, hsize]
    | some u =>
      obtain ⟨hu, hmem, hxs, hlt⟩ := hp.waiter_some u hwaiter
      have hfull := h.waits.writers (ne_nil_of_mem hmem)
      have hut := hu.ne ht
      have hurest : u ∉ rest := fun hu' => hxs (hsub.subset hu')
      obtain ⟨hs₄, hf₄, hused₄, hneedt₄, hneedu₄, hother₄⟩ := getFromWaiter_spec hs₃ (hf₃.busy ht) (hf₃.busy hu)
        (by omega)
      have hf₄ := hf₃.trans hf₄
      obtain ⟨hs₅, hf₅, hused₅, hother₅⟩ := refill_spec hs₄ hnodup (fun v hv => hf₄.active (hactive v hv))
      have hf₅ := hf₄.trans hf₅
      obtain ⟨hs₆, hf₆, hused₆, -, hother₆⟩ := bufferPut_spec hs₅ (hf₅.busy hu)
      have hneedu₃ : s₃.need u = s.need u :=
        (hother₃ u hut hxs).trans ((hother₂ u hut).trans (hp.need_other u hut))
      have hneeds₄ : (s₃.getFromWaiter t (some u)).needs rest = s₃.needs rest :=
        needs_congr fun v hv => hother₄ v (fun heq => hurest (heq ▸ hv)) (hrestt v hv)
      have hsize₄ := hf₄.size
      have hsize₅ := hf₅.size
      refine ⟨_, hs₆, hf₅.trans hf₆, nofun, fun v hv => ?_, rfl⟩
      have hneedu₅ := hother₅ u hurest
      have hneedt₅ := hother₅ t htrest
      have hneedt₆ := hother₆ t hut.symm
      have hroom : s₃.need t ≤ s.need u := by
        clear hused₂ hused₅ hused₆ hrest₃ hneedt₄ hneedu₄
        omega
      rw [hneedt₆, hneedt₅, hneedt₄, hneedu₃, Nat.sub_eq_zero_of_le hroom]
      refine ⟨?_, rfl⟩
      clear hneedt₄ hneedt₅ hneedt₆
      omega
  rw [hs₅eq]
  have hwaitQ := hf₅.waitQ
  have hsize₅ := hf₅.size
  have hcases := waiter.eq_none_or_eq_some
  refine ⟨⟨hs₅, hp.queues.frame hf₅, ?_, ?_, ?_⟩, hf₅, fun hne => ?_⟩
  · intro hne
    rw [hwaitQ] at hne
    have hempty := h.waits.readers (hp.still hne)
    have hnil : s.pipe.waitQ .put = [] := h.waits.one.resolve_left (hp.still hne)
    have hxs : xs = [] := by_contra fun hne => hp.ne_nil hne hnil
    obtain hnone | ⟨u, hu⟩ := hcases
    · obtain ⟨hused₅, -⟩ := hused₅ hnone
      rw [hxs] at hneeds₂
      have hzero : s.needs [] = 0 := rfl
      rw [hxs] at hrest₃
      omega
    · exact absurd hnil (ne_nil_of_mem (hp.waiter_some u hu).2.1)
  · intro hne
    rw [hwaitQ] at hne
    obtain hnone | ⟨u, hu⟩ := hcases
    · exact absurd (hp.waiter_none hnone) hne
    · rw [(hneed₅ u hu).1, hsize₅, hsize]
  · rw [hwaitQ]
    exact hp.one h.waits
  · obtain hnone | ⟨u, hu⟩ := hcases
    · obtain ⟨hused₅, hneedt₅⟩ := hused₅ hnone
      refine ⟨by omega, ?_⟩
      rw [hwaitQ]
      exact hp.waiter_none hnone
    · exact absurd (hneed₅ u hu).2 hne

/-! ## One event -/

/-- What one event keeps. A call that returns `-EIO` was not to wait, and has changed nothing. -/
structure Stepped (s s' : System T) : Prop where
  inv : Inv s'
  size : s'.pipe.size = s.pipe.size
  eio : ∀ x, s'.results = s.results ++ [x] → x.ret = eio →
    x.request.timeout = .noWait ∧ s' = { s with results := s.results ++ [x] }

theorem finish_results {x : Returned T} (h : (s.finish t).results = s.results ++ [x]) : x.ret ≠ eio := by
  have hcode : pipeReturnCode (s.request t).minXfer (s.request t).pipeDesc.bytesToXfer (s.request t).bytes ≠ eio := by
    rw [pipeReturnCode]
    split <;> decide
  rw [System.finish] at h
  by_cases hfull : (s.request t).pipeDesc.buffer = (s.request t).bytes
  · rw [if_pos hfull] at h
    rw [← singleton_inj.mp (append_cancel_left h)]
    show (0 : Int) ≠ eio
    decide
  · rw [if_neg hfull] at h
    by_cases hmin : (s.request t).timeout ≠ .noWait ∧ (s.request t).pipeDesc.buffer ≥ (s.request t).minXfer ∧
        (s.request t).minXfer > 0
    · rw [if_pos hmin] at h
      rw [← singleton_inj.mp (append_cancel_left h)]
      show (0 : Int) ≠ eio
      decide
    · rw [if_neg hmin] at h
      by_cases hwait : (s.request t).timeout ≠ .noWait
      · rw [if_pos hwait] at h
        exact absurd h (by simp [System.zPendCurr, System.setPhase, System.setWaitQ])
      · rw [if_neg hwait] at h
        rw [← singleton_inj.mp (append_cancel_left h)]
        exact hcode

theorem size_finish : (s.finish t).pipe.size = s.pipe.size := by
  simp only [System.finish]
  split
  · rfl
  · split
    · rfl
    · split <;> rfl

theorem Prepared.stepped (hp : Prepared s s₁ t r c xs waiter) (hf : Frame s₁ s') (h : Inv (s'.finish t)) :
    Stepped s (s'.finish t) where
  inv := h
  size := size_finish.trans (hf.size.trans hp.size)
  eio x hx := by
    rw [← hp.results, ← hf.results] at hx
    exact fun heq => absurd heq (finish_results hx)

section
variable (h : Inv s) (ht : s.phase t = .idle)
include h ht

theorem stepped_einval
    (hmin : minXfer > bytes) : Stepped s (s.returns t (s.newRequest c data bytes minXfer timeout) none einval) := by
  have hmoved : s.moved t (s.newRequest c data bytes minXfer timeout) = [] := by
    simp [System.moved, System.newRequest]
  have hne : einval ≠ eio := by decide
  refine ⟨h.returns (by rw [ht]; decide) ⟨by simp, fun _ => ⟨hmoved, rfl, rfl⟩, ?_, fun heq => absurd heq hne⟩, rfl,
    fun x hx heq => ?_⟩
  · refine iff_of_false (show einval ≠ 0 by decide) ?_
    show ¬ minXfer ≤ (s.moved t _).length
    rw [hmoved, length_nil]
    omega
  · rw [← singleton_inj.mp (append_cancel_left hx)] at heq
    exact absurd heq hne

theorem stepped_eio
    (hmin : ¬ minXfer > bytes) (hpos : 0 < minXfer) (hwait : timeout = .noWait) :
    Stepped s (s.returns t (s.newRequest c data bytes minXfer timeout) (some 0) eio) := by
  have hok : (s.newRequest c data bytes minXfer timeout).Ok s t := newRequest_ok (Nat.le_of_not_gt hmin)
  refine ⟨h.returns (by rw [ht]; decide) ⟨?_, nofun, ?_, fun _ => hwait⟩, rfl, fun x hx _ => ?_⟩
  · intro n hn
    cases hn
    exact ⟨Nat.zero_le _, hok.moved, hok.outside⟩
  · refine iff_of_false (show eio ≠ 0 by decide) ?_
    show ¬ minXfer ≤ (s.moved t _).length
    rw [moved_length hok]
    exact Nat.not_le.mpr hpos
  · rw [← singleton_inj.mp (append_cancel_left hx)]
    refine ⟨hwait, ?_⟩
    rw [System.returns, Function.update_eq_self_iff.mpr ht.symm]

theorem kPipePut_stepped
    : Stepped s (kPipePut w s t data bytes minXfer timeout expired) := by
  rw [kPipePut]
  by_cases hmin : minXfer > bytes
  · rw [if_pos hmin]
    exact stepped_einval h ht hmin
  · rw [if_neg hmin, pipeXferPrepare]
    by_cases hfew : timeout = .noWait ∧ (numRequested w bytes s.need 0 (s.pipe.waitQ .get) +
        (s.pipe.size - s.pipe.bytesUsed)) % 2 ^ w < minXfer
    · rw [if_pos hfew]
      exact stepped_eio h ht hmin (by omega) hfew.1
    · rw [if_neg hfew]
      obtain ⟨⟨xs, waiter⟩, hset⟩ : ∃ x, workingSet w bytes s.need 0 (s.pipe.waitQ .get) = x := ⟨_, rfl⟩
      rw [hset]
      have hok : (s.newRequest .put data bytes minXfer timeout).Ok s t := newRequest_ok (Nat.le_of_not_gt hmin)
      have hp := prepared expired h ht hok hset
      obtain ⟨hinv, hf, hleft⟩ := putTail_spec h rfl rfl hp
      exact hp.stepped hf (hinv.finish (hf.active hp.active) hleft)

theorem kPipeGet_stepped
    : Stepped s (kPipeGet w s t data bytes minXfer timeout expired) := by
  rw [kPipeGet]
  by_cases hmin : minXfer > bytes
  · rw [if_pos hmin]
    exact stepped_einval h ht hmin
  · rw [if_neg hmin, pipeGetInternal, pipeXferPrepare]
    by_cases hfew : timeout = .noWait ∧
        (numRequested w bytes s.need 0 (s.pipe.waitQ .put) + s.pipe.bytesUsed) % 2 ^ w < minXfer
    · rw [if_pos hfew]
      exact stepped_eio h ht hmin (by omega) hfew.1
    · rw [if_neg hfew]
      obtain ⟨⟨xs, waiter⟩, hset⟩ : ∃ x, workingSet w bytes s.need 0 (s.pipe.waitQ .put) = x := ⟨_, rfl⟩
      rw [hset]
      have hok : (s.newRequest .get data bytes minXfer timeout).Ok s t := newRequest_ok (Nat.le_of_not_gt hmin)
      have hp := prepared expired h ht hok hset
      obtain ⟨hinv, hf, hleft⟩ := getTail_spec h rfl rfl hp
      exact hp.stepped hf (hinv.finish (hf.active hp.active) hleft)

end

omit [DecidableEq T] in
theorem Waits.leaves (h : Waits s) (hl : Leaves s s') : Waits s' := by
  have hstill : ∀ c, s'.pipe.waitQ c ≠ [] → s.pipe.waitQ c ≠ [] := fun c hne hnil =>
    hne (sublist_nil.mp (hnil ▸ hl.waitQ c :))
  refine ⟨fun hne => ?_, fun hne => ?_, ?_⟩
  · rw [hl.pipe]
    exact h.readers (hstill _ hne)
  · rw [hl.pipe]
    exact h.writers (hstill _ hne)
  · obtain hnil | hnil := h.one
    · exact .inl (by_contra fun hne => hstill _ hne hnil)
    · exact .inr (by_contra fun hne => hstill _ hne hnil)

theorem stepped_quiet (h : Inv s') (hsize : s'.pipe.size = s.pipe.size) (hresults : s'.results = s.results) :
    Stepped s s' :=
  ⟨h, hsize, fun x hx => absurd (hresults.symm.trans hx) (by simp)⟩

theorem step_stepped {e : Event T} (h : Inv s) (hstep : step w s e = some s') : Stepped s s' := by
  cases e with
  | put t data bytes minXfer timeout expired =>
    obtain ⟨ht, rfl⟩ := ite_none_right_eq_some.mp hstep |>.imp_right some.inj
    exact kPipePut_stepped h ht
  | get t data bytes minXfer timeout expired =>
    obtain ⟨ht, rfl⟩ := ite_none_right_eq_some.mp hstep |>.imp_right some.inj
    exact kPipeGet_stepped h ht
  | timeout t =>
    cases hstep
    obtain ⟨hq, hl⟩ := zThreadTimeout_spec (t := t) h.queues
    exact stepped_quiet ⟨hl.sound h.sound, hq, h.waits.leaves hl⟩ (by rw [hl.pipe]) hl.results
  | resume t =>
    obtain ⟨ht, rfl⟩ := ite_none_right_eq_some.mp hstep |>.imp_right some.inj
    refine ⟨h.leave (by rw [ht]; decide) (by rw [ht]; decide), rfl, fun x hx => ?_⟩
    rw [← singleton_inj.mp (append_cancel_left hx)]
    show pipeReturnCode _ _ _ = eio → _
    rw [pipeReturnCode]
    split <;> exact fun heq => absurd heq (by decide)
  | setPrio t prio =>
    cases hstep
    exact stepped_quiet ⟨h.sound.congr h.sound.ring rfl rfl rfl h.sound.calls, ⟨h.queues.nodup, h.queues.mem⟩,
      ⟨h.waits.readers, h.waits.writers, h.waits.one⟩⟩ rfl rfl

/-! ## Every run -/

theorem start_inv {buffer : Nat → UInt8} {size : Nat} {prio : T → Int} {request : T → Request} :
    Inv (start (kPipeInit buffer size) prio request) where
  sound :=
    { ring := ⟨Nat.zero_le _, (Nat.eq_zero_or_pos size).symm.imp_right fun hsize => ⟨hsize, rfl⟩, (Nat.zero_mod _).symm⟩
      stream := rfl
      calls := fun _ ht => absurd rfl ht
      results := nofun }
  queues := ⟨fun _ => nodup_nil, fun _ _ => ⟨nofun, nofun⟩⟩
  waits := ⟨fun hne => absurd rfl hne, fun hne => absurd rfl hne, .inl rfl⟩

theorem run_inv {es : List (Event T)} (h : Inv s) (hrun : run w s es = some s') :
    Inv s' ∧ s'.pipe.size = s.pipe.size := by
  induction es generalizing s with
  | nil =>
    cases hrun
    exact ⟨h, rfl⟩
  | cons e es ih =>
    obtain ⟨s₁, hstep, hrun⟩ := bind_eq_some_iff.mp hrun
    have hstepped := step_stepped h hstep
    obtain ⟨hinv, hsize⟩ := ih hstepped.inv hrun
    exact ⟨hinv, hsize.trans hstepped.size⟩

/-- What holds of a call that has returned. -/
structure Conserved (x : Returned T) : Prop where
  /-- A put takes the first `*bytes_written` bytes of its data. -/
  put : ∀ n, x.request.call = .put → x.stored = some n →
    n ≤ x.request.bytes ∧ x.moved.length = n ∧ x.moved = bytesAt x.request.before 0 n
  /-- A get fills the first `*bytes_read` bytes of its buffer, and leaves the others. -/
  get : ∀ n, x.request.call = .get → x.stored = some n →
    n ≤ x.request.bytes ∧ x.moved.length = n ∧ bytesAt x.request.data 0 n = x.moved ∧
      ∀ i, n ≤ i → x.request.data i = x.request.before i
  /-- Only a call with a minimum that is more than it asks for stores no count, and it moves nothing. -/
  unstored : x.stored = none → x.moved = [] ∧ x.request.data = x.request.before ∧ x.ret = einval
  ret_eq_zero : x.ret = 0 ↔ x.request.minXfer ≤ x.moved.length

/-- What holds of a pipe of `size` bytes at any time. -/
structure Accounted (size : Nat) (s : System T) : Prop where
  /-- What was copied out is what was taken in, less what the buffer holds. -/
  stream : (s.log .get).map (·.2) ++ s.pipe.contents = (s.log .put).map (·.2)
  used_le : s.pipe.size = size ∧ s.pipe.bytesUsed ≤ size
  writeIndex_eq : s.pipe.writeIndex = (s.pipe.readIndex + s.pipe.bytesUsed) % size
  indices_zero : size = 0 → s.pipe.readIndex = 0 ∧ s.pipe.writeIndex = 0
  readers_wait : ∀ t, s.phase t = .pending → (s.request t).call = .get → s.pipe.bytesUsed = 0
  writers_wait : ∀ t, s.phase t = .pending → (s.request t).call = .put → s.pipe.bytesUsed = size
  one_side : ∀ t u, s.phase t = .pending → s.phase u = .pending → (s.request t).call = (s.request u).call
  results : ∀ x ∈ s.results, Conserved x

omit [DecidableEq T] in
theorem Returned.Ok.conserved {x : Returned T} (h : x.Ok) : Conserved x where
  put n hput hn := by
    obtain ⟨hle, hmoved, houtside⟩ := h.stored n hn
    refine ⟨hle, by rw [hmoved, length_bytesAt], ?_⟩
    rw [hmoved]
    exact bytesAt_congr fun i _ _ => houtside i (.inl hput)
  get n _ hn := by
    obtain ⟨hle, hmoved, houtside⟩ := h.stored n hn
    exact ⟨hle, by rw [hmoved, length_bytesAt], hmoved.symm, fun i hi => houtside i (.inr hi)⟩
  unstored := h.unstored
  ret_eq_zero := h.ret_eq_zero

theorem Inv.accounted (h : Inv s) : Accounted s.pipe.size s := by
  have hne : ∀ t, s.phase t = .pending → s.pipe.waitQ (s.request t).call ≠ [] := fun t ht =>
    ne_nil_of_mem ((h.queues.mem _ t).mpr ⟨ht, rfl⟩)
  refine ⟨h.sound.stream.symm, ⟨rfl, h.sound.ring.used_le⟩, h.sound.ring.writeIndex_eq, fun hsize => ?_,
    fun t ht hc => ?_, fun t ht hc => ?_, fun t u ht hu => ?_, fun x hx => (h.sound.results x hx).conserved⟩
  · have hread := h.sound.ring.readIndex_lt
    have hused := h.sound.ring.used_le
    have hwrite := h.sound.ring.writeIndex_eq
    rw [hsize, Nat.mod_zero] at hwrite
    omega
  · exact h.waits.readers (hc ▸ hne t ht)
  · exact h.waits.writers (hc ▸ hne t ht)
  · have ht := hne t ht
    have hu := hne u hu
    have hone := h.waits.one
    obtain ⟨ct, hct⟩ : ∃ c, (s.request t).call = c := ⟨_, rfl⟩
    obtain ⟨cu, hcu⟩ : ∃ c, (s.request u).call = c := ⟨_, rfl⟩
    rw [hct] at ht ⊢
    rw [hcu] at hu ⊢
    cases ct with
    | put =>
      cases cu with
      | put => rfl
      | get => exact absurd (hone.resolve_left hu) ht
    | get =>
      cases cu with
      | put => exact absurd (hone.resolve_left ht) hu
      | get => rfl

/-- **A pipe in any run of puts, gets and timeouts.** -/
theorem k_pipe_conserves {buffer : Nat → UInt8} {size : Nat} {prio : T → Int} {request : T → Request}
    {es : List (Event T)} (hrun : run w (start (kPipeInit buffer size) prio request) es = some s) :
    Accounted size s ∧ ∀ e s' x, step w s e = some s' → s'.results = s.results ++ [x] → x.ret = eio →
      x.request.timeout = .noWait ∧ s' = { s with results := s.results ++ [x] } := by
  obtain ⟨hinv, hsize⟩ := run_inv start_inv hrun
  have hsize : s.pipe.size = size := hsize
  exact ⟨hsize ▸ hinv.accounted, fun e s' x hstep => (step_stepped hinv hstep).eio x⟩

def digits (n : Nat) : Nat → UInt8 := fun i => .ofNat (n + i)

/-- A reader is served by a writer, that waits itself; a writer is refused, waits, and gives up while a reader reads. -/
def fourThreads : List (Event (Fin 4)) :=
  [.get 0 (digits 0) 3 3 .forever [], .put 1 (digits 10) 6 6 .ticks [], .get 2 (digits 0) 2 1 .noWait [],
    .resume 0, .resume 1, .put 3 (digits 20) 2 2 .noWait [], .put 3 (digits 20) 4 0 .ticks [],
    .get 2 (digits 0) 1 1 .forever [3], .resume 3, .put 3 (digits 30) 1 2 .ticks []]

def noRequest : Request :=
  { call := .put, data := digits 0, bytes := 0, minXfer := 0, timeout := .noWait, pipeDesc := ⟨0, 0⟩
    before := digits 0, mark := 0 }

theorem k_pipe_conserves_four :
    ∃ s, run 32 (start (kPipeInit (fun _ => 0) 2) (fun _ => 0) fun _ => noRequest) fourThreads = some s ∧
      Accounted 2 s ∧ ∀ e s' x, step 32 s e = some s' → s'.results = s.results ++ [x] → x.ret = eio →
        x.request.timeout = .noWait ∧ s' = { s with results := s.results ++ [x] } :=
  Lib.Runs.exists_some_and (by decide +kernel) fun _ hrun => k_pipe_conserves hrun

end RtosKernel.Zephyr.Pipes
