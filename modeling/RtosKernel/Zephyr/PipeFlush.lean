import RtosKernel.Zephyr.PipeRuns

/-! # Flushing a pipe

Both flushes are reads with a null destination: what is read is counted, and nobody gets
it. The buffer is full while writers wait, so a flush of the buffer takes what it held and
nothing from the writers, who then fill it again. The lock of the pipe is taken before the
pipe is looked at, and released where it is read. -/

namespace RtosKernel.Zephyr.Pipes
open Lib.Window Zephyr.WaitQ List Function Option

/-- `pipe->lock`, and how often the scheduler is locked. -/
structure Locks where
  pipeLock : Bool
  schedLocked : Nat
  deriving DecidableEq

def Locks.kSpinLock (l : Locks) : Locks := { l with pipeLock := true }
def Locks.kSpinUnlock (l : Locks) : Locks := { l with pipeLock := false }
def Locks.zSchedLock (l : Locks) : Locks := { l with schedLocked := l.schedLocked + 1 }
def Locks.kSchedUnlock (l : Locks) : Locks := { l with schedLocked := l.schedLocked - 1 }

structure Locked (T : Type) where
  system : System T
  /-- `pipe->buffer` is not null. -/
  hasBuffer : Bool
  locks : Locks

variable {T : Type} [dT : DecidableEq T]

/-! ## The calls -/

/-- What is stored at a null destination. -/
def nowhere : Nat → UInt8 := fun _ => 0

/-- `pipe_get_internal` with a null destination, without waiting. The result is not looked at. -/
def pipeDiscard (w : Nat) (s : System T) (t : T) (bytesToRead : Nat) (expired : List T) : System T :=
  let s' := pipeGetInternal w s t nowhere bytesToRead 0 .noWait expired
  { s' with request := update s'.request t (s.request t), results := s.results }

/-- The locks in `pipe_get_internal`. Without waiting, each of its ends unlocks the scheduler. -/
def pipeGetInternalLocks (w : Nat) (s : System T) (bytesToRead : Nat) (locks : Locks) : Locks :=
  match pipeXferPrepare w s .put s.pipe.bytesUsed bytesToRead 0 .noWait with
  | none => locks.kSpinUnlock
  | some _ => locks.zSchedLock.kSpinUnlock.kSchedUnlock

def kPipeFlush (w : Nat) (k : Locked T) (t : T) (expired : List T) : Locked T :=
  { k with
    system := pipeDiscard w k.system t (2 ^ w - 1) expired
    locks := pipeGetInternalLocks w k.system (2 ^ w - 1) k.locks.kSpinLock }

def kPipeBufferFlush (w : Nat) (k : Locked T) (t : T) (expired : List T) : Locked T :=
  let locks := k.locks.kSpinLock
  if k.hasBuffer then
    { k with
      system := pipeDiscard w k.system t k.system.pipe.size expired
      locks := pipeGetInternalLocks w k.system k.system.pipe.size locks }
  else { k with locks }

inductive FlushEvent (T : Type) where
  | event (e : Event T)
  | flush (thread : T) (expired : List T)
  | bufferFlush (thread : T) (expired : List T)

/-- One event; `none` if it cannot happen in this state. Nothing is done to a pipe that is locked. -/
def flushStep (w : Nat) (k : Locked T) : FlushEvent T → Option (Locked T)
  | .event e => if k.locks.pipeLock then none else (step w k.system e).map fun system => { k with system }
  | .flush t expired => if k.locks.pipeLock = false ∧ k.system.phase t = .idle then some (kPipeFlush w k t expired) else none
  | .bufferFlush t expired =>
    if k.locks.pipeLock = false ∧ k.system.phase t = .idle then some (kPipeBufferFlush w k t expired) else none

def flushRun (w : Nat) (k : Locked T) : List (FlushEvent T) → Option (Locked T)
  | [] => some k
  | e :: es => (flushStep w k e).bind fun k => flushRun w k es

variable {s s' s₁ : System T} {k k' : Locked T} {t u : T} {xs ys : List T} {w bytes : Nat} {waiter : Option T}
  {expired : List T} {data : Nat → UInt8} {bs : List UInt8}

/-! ## What is left of the requests -/

/-- What is left of the data of a call. -/
def System.rest (s : System T) (u : T) : List UInt8 := bytesAt (s.request u).data (s.request u).pipeDesc.buffer (s.need u)

section
omit dT

@[simp] theorem length_rest : (s.rest u).length = s.need u := length_bytesAt ..

theorem rest_congr (h : s'.request u = s.request u) : s'.rest u = s.rest u := by
  rw [System.rest, System.need, h, System.rest, System.need]

theorem length_flatMap_rest : (xs.flatMap s.rest).length = s.needs xs := by
  simp [length_flatMap, System.needs]

end

theorem bytesAt_take (mem : Nat → UInt8) (off n k : Nat) : (bytesAt mem off n).take k = bytesAt mem off (min k n) := by
  simp [bytesAt, ← map_take, take_range]

theorem bytesAt_drop (mem : Nat → UInt8) (off n k : Nat) : (bytesAt mem off n).drop k = bytesAt mem (off + min k n) (n - min k n) := by
  obtain hle | hlt := le_total k n
  · have hsplit := @bytesAt_add mem off k (n - k)
    rw [Nat.add_sub_cancel' hle] at hsplit
    rw [hsplit, drop_left' (length_bytesAt ..), Nat.min_eq_left hle]
  · rw [drop_of_length_le (by simpa using hlt), Nat.min_eq_right hlt, Nat.sub_self]
    rfl

/-- The threads `xs` have put into the buffer what fits of their data, in this order. -/
structure Refilled (s s' : System T) (xs : List T) : Prop where
  contents : s'.pipe.contents = s.pipe.contents ++ (xs.flatMap s.rest).take (s.pipe.size - s.pipe.bytesUsed)
  rest : xs.flatMap s'.rest = (xs.flatMap s.rest).drop (s.pipe.size - s.pipe.bytesUsed)
  request : ∀ u ∉ xs, s'.request u = s.request u
  size : s'.pipe.size = s.pipe.size
  log : s'.log .get = s.log .get

omit dT in
theorem Refilled.append (h : Refilled s s₁ xs) (h' : Refilled s₁ s' ys) (hdisj : xs.Disjoint ys) :
    Refilled s s' (xs ++ ys) := by
  have hroom : s₁.pipe.size - s₁.pipe.bytesUsed = s.pipe.size - s.pipe.bytesUsed - (xs.flatMap s.rest).length := by
    have hused := congrArg List.length h.contents
    rw [length_append, length_contents, length_contents, length_take] at hused
    rw [h.size, hused]
    omega
  have hys : ys.flatMap s₁.rest = ys.flatMap s.rest :=
    flatMap_congr fun u hu => rest_congr (h.request u fun hx => hdisj hx hu)
  have hxs : xs.flatMap s'.rest = xs.flatMap s₁.rest :=
    flatMap_congr fun u hu => rest_congr (h'.request u fun hy => hdisj hu hy)
  refine ⟨?_, ?_, fun u hu => ?_, h'.size.trans h.size, h'.log.trans h.log⟩
  · rw [h'.contents, h.contents, hys, hroom, flatMap_append, take_append, append_assoc]
  · rw [flatMap_append, flatMap_append, hxs, h.rest, h'.rest, hys, hroom, drop_append]
  · obtain ⟨hx, hy⟩ := not_or.mp (mem_append.not.mp hu)
    exact (h'.request u hy).trans (h.request u hx)

theorem bufferPut_refilled (h : Sound s) (hu : Busy s .put u) : Refilled s (s.bufferPut u) [u] := by
  obtain ⟨hputs, hn⟩ := pipeBufferPut_spec (s.request u).data (s.request u).pipeDesc.buffer (s.need u) h.ring
  obtain ⟨⟨p, n⟩, hput⟩ : ∃ x, pipeBufferPut s.pipe (s.request u).data (s.request u).pipeDesc.buffer (s.need u) = x :=
    ⟨_, rfl⟩
  rw [hput] at hputs hn
  have hgo : s.bufferPut u = { s with pipe := p }.advance u (s.request u).data
      (bytesAt (s.request u).data (s.request u).pipeDesc.buffer n) := by
    have hdef : s.bufferPut u = { s with
        pipe := (pipeBufferPut s.pipe (s.request u).data (s.request u).pipeDesc.buffer (s.need u)).1
      }.advance u (s.request u).data (bytesAt (s.request u).data (s.request u).pipeDesc.buffer
        (pipeBufferPut s.pipe (s.request u).data (s.request u).pipeDesc.buffer (s.need u)).2) := rfl
    rw [hdef, hput]
  rw [hgo]
  refine ⟨?_, ?_, fun v hv => ?_, hputs.size, ?_⟩
  · show p.contents = _
    rw [hputs.contents, flatMap_singleton, System.rest, bytesAt_take, hn]
  · rw [flatMap_singleton, flatMap_singleton, System.rest, System.rest, bytesAt_drop, need_advance_self,
      request_advance_self, length_bytesAt, ← hn]
    rfl
  · exact request_advance_other fun heq => hv (mem_singleton.mpr heq)
  · refine log_advance_other ?_
    show Call.get ≠ (s.request u).call
    rw [hu.2]
    decide

theorem refill_refilled (h : Sound s) (hnodup : xs.Nodup) (hxs : ∀ u ∈ xs, Active s .put u) :
    Refilled s (s.refill xs) xs ∧ ∀ u, (s.refill xs).phase u = if u ∈ xs then .ready else s.phase u := by
  induction xs generalizing s with
  | nil => exact ⟨⟨by simp [System.refill], by simp, fun _ _ => rfl, rfl, rfl⟩, fun u => by simp [System.refill]⟩
  | cons u xs ih =>
    obtain ⟨hu, hnodup⟩ := nodup_cons.mp hnodup
    have hactive := hxs u mem_cons_self
    obtain ⟨hsound, hframe, -⟩ := bufferPut_spec h hactive.1
    have hactive' := hframe.active hactive
    have hframe' := hframe.trans hactive'.frame_zReadyThread
    have hfirst := bufferPut_refilled h hactive.1
    have hready : Refilled s ((s.bufferPut u).zReadyThread u) [u] :=
      ⟨hfirst.contents, hfirst.rest, hfirst.request, hfirst.size, hfirst.log⟩
    obtain ⟨hrest, hphase⟩ := ih (hsound.zReadyThread hactive'.1.1) hnodup
      (fun v hv => hframe'.active (hxs v (mem_cons_of_mem _ hv)))
    refine ⟨hready.append hrest (singleton_disjoint.mpr hu), fun v => ?_⟩
    refine (hphase v).trans ?_
    by_cases hv : v ∈ xs
    · rw [if_pos hv, if_pos (mem_cons_of_mem _ hv)]
    · rw [if_neg hv]
      show update s.phase u .ready v = _
      by_cases hvu : v = u
      · subst hvu
        rw [update_self, if_pos mem_cons_self]
      · rw [update_of_ne hvu, if_neg (by simp [hvu, hv])]

/-! ## Every run with flushes -/

section
variable {timeout : KTimeout}

theorem timeout_advance : ((s.advance t data bs).request u).timeout = (s.request u).timeout := by
  by_cases h : u = t
  · subst h
    rw [request_advance_self]
  · rw [request_advance_other h]

theorem timeout_xfer {v : T} : ((s.xfer t u).request v).timeout = (s.request v).timeout := by
  exact timeout_advance.trans timeout_advance

theorem timeout_bufferPut : ((s.bufferPut t).request u).timeout = (s.request u).timeout := timeout_advance

theorem timeout_getFromWriters : ((s.getFromWriters t xs).1.request u).timeout = (s.request u).timeout := by
  induction xs generalizing s with
  | nil => rfl
  | cons v xs ih =>
    rw [System.getFromWriters]
    split
    · dsimp only
      split
      · exact timeout_xfer
      · exact ih.trans timeout_xfer
    · rfl

theorem timeout_refill : ((s.refill xs).request u).timeout = (s.request u).timeout := by
  induction xs generalizing s with
  | nil => rfl
  | cons v xs ih => exact ih.trans timeout_bufferPut

theorem timeout_getTail : ((getTail s t xs waiter).request u).timeout = (s.request u).timeout := by
  have hwriters : (((s.bufferGet t).getFromWriters t xs).1.request u).timeout = (s.request u).timeout :=
    timeout_getFromWriters.trans timeout_advance
  cases waiter with
  | none => exact timeout_refill.trans hwriters
  | some v =>
    refine timeout_bufferPut.trans (timeout_refill.trans ?_)
    rw [System.getFromWaiter]
    split
    · exact timeout_xfer.trans hwriters
    · exact hwriters

end

theorem finish_noWait (hwait : (s.request t).timeout = .noWait) :
    (s.finish t).phase = update s.phase t .idle ∧ (s.finish t).pipe = s.pipe ∧ (s.finish t).request = s.request ∧
      (s.finish t).log = s.log := by
  rw [System.finish]
  split
  · exact ⟨rfl, rfl, rfl, rfl⟩
  · split
    · rename_i _ h
      exact absurd hwait h.1
    · rw [if_neg fun h => h hwait]
      exact ⟨rfl, rfl, rfl, rfl⟩

/-- The state of a read that does not wait, once it has its working set. -/
def discardStart (s : System T) (t : T) (bytes : Nat) (expired xs : List T) : System T :=
  ((s.unpendAll xs).begin t (s.newRequest .get nowhere bytes 0 .noWait)).timeouts expired

theorem pipeGetInternal_eq (hset : workingSet w bytes s.need 0 (s.pipe.waitQ .put) = (xs, waiter)) :
    pipeGetInternal w s t nowhere bytes 0 .noWait expired =
      (getTail (discardStart s t bytes expired xs) t xs waiter).finish t := by
  rw [pipeGetInternal, pipeXferPrepare, if_neg (by simp), hset]
  rfl

theorem request_timeouts : (s.timeouts expired).request = s.request := by
  induction expired generalizing s with
  | nil => rfl
  | cons v expired ih =>
    rw [System.timeouts, ih, System.zThreadTimeout]
    split <;> rfl

theorem discard_finish (t : T) (expired : List T) (hset : workingSet w bytes s.need 0 (s.pipe.waitQ .put) = (xs, waiter)) :
    (pipeDiscard w s t bytes expired).phase =
        update (getTail (discardStart s t bytes expired xs) t xs waiter).phase t .idle ∧
      (pipeDiscard w s t bytes expired).pipe = (getTail (discardStart s t bytes expired xs) t xs waiter).pipe ∧
      (pipeDiscard w s t bytes expired).request =
        update (getTail (discardStart s t bytes expired xs) t xs waiter).request t (s.request t) ∧
      (pipeDiscard w s t bytes expired).log = (getTail (discardStart s t bytes expired xs) t xs waiter).log := by
  have hwait : ((getTail (discardStart s t bytes expired xs) t xs waiter).request t).timeout = .noWait := by
    rw [timeout_getTail, discardStart, request_timeouts]
    simp [System.begin, System.setPhase, System.newRequest]
  obtain ⟨hphase, hpipe, hrequest, hlog⟩ := finish_noWait hwait
  rw [← pipeGetInternal_eq hset] at hphase hpipe hrequest hlog
  refine ⟨hphase, hpipe, ?_, hlog⟩
  rw [← hrequest]
  rfl

theorem Inv.discard (h : Inv s) (ht : s.phase t = .idle) : Inv (pipeDiscard w s t bytes expired) ∧
    (pipeDiscard w s t bytes expired).pipe.size = s.pipe.size := by
  have hstepped : Stepped s (kPipeGet w s t nowhere bytes 0 .noWait expired) := kPipeGet_stepped h ht
  rw [kPipeGet, if_neg (Nat.not_lt_zero _)] at hstepped
  obtain ⟨hsound, hqueues, hwaits⟩ := hstepped.inv
  obtain ⟨⟨xs, waiter⟩, hset⟩ : ∃ x, workingSet w bytes s.need 0 (s.pipe.waitQ .put) = x := ⟨_, rfl⟩
  have hidle : (pipeDiscard w s t bytes expired).phase t = .idle := by
    rw [(discard_finish t expired hset).1, update_self]
  have hrequest : ∀ u, (pipeDiscard w s t bytes expired).phase u ≠ .idle →
      (pipeDiscard w s t bytes expired).request u = (pipeGetInternal w s t nowhere bytes 0 .noWait expired).request u := by
    intro u hu
    refine update_of_ne ?_ _ _
    intro heq
    rw [heq] at hu
    exact hu hidle
  refine ⟨⟨⟨hsound.ring, hsound.stream, fun u hu => ?_, h.sound.results⟩, ⟨hqueues.nodup, fun c u => ?_⟩,
    ⟨hwaits.readers, hwaits.writers, hwaits.one⟩⟩, hstepped.size⟩
  · rw [hrequest u hu]
    exact (hsound.calls u hu).congr rfl
  · refine (hqueues.mem c u).trans ?_
    refine and_congr_right fun hu => ?_
    have hne : (pipeDiscard w s t bytes expired).phase u ≠ .idle := by
      show (pipeGetInternal w s t nowhere bytes 0 .noWait expired).phase u ≠ .idle
      rw [hu]
      decide
    rw [hrequest u hne]

theorem flushStep_inv {e : FlushEvent T} (h : Inv k.system) (hstep : flushStep w k e = some k') :
    Inv k'.system ∧ k'.system.pipe.size = k.system.pipe.size ∧ k'.hasBuffer = k.hasBuffer := by
  cases e with
  | event e =>
    simp only [flushStep] at hstep
    split at hstep
    · cases hstep
    obtain ⟨s', hgo, rfl⟩ := map_eq_some_iff.mp hstep
    have hstepped := step_stepped h hgo
    exact ⟨hstepped.inv, hstepped.size, rfl⟩
  | flush t expired =>
    obtain ⟨⟨_, ht⟩, rfl⟩ := ite_none_right_eq_some.mp hstep |>.imp_right some.inj
    obtain ⟨hinv, hsize⟩ := h.discard ht
    exact ⟨hinv, hsize, rfl⟩
  | bufferFlush t expired =>
    obtain ⟨⟨_, ht⟩, rfl⟩ := ite_none_right_eq_some.mp hstep |>.imp_right some.inj
    rw [kPipeBufferFlush]
    split
    · obtain ⟨hinv, hsize⟩ := h.discard ht
      exact ⟨hinv, hsize, rfl⟩
    · exact ⟨h, rfl, rfl⟩

theorem flushRun_inv {es : List (FlushEvent T)} (h : Inv k.system) (hrun : flushRun w k es = some k') :
    Inv k'.system ∧ k'.system.pipe.size = k.system.pipe.size ∧ k'.hasBuffer = k.hasBuffer := by
  induction es generalizing k with
  | nil =>
    cases hrun
    exact ⟨h, rfl, rfl⟩
  | cons e es ih =>
    obtain ⟨k₁, hstep, hrun⟩ := bind_eq_some_iff.mp hrun
    obtain ⟨hinv, hsize, hbuf⟩ := flushStep_inv h hstep
    obtain ⟨hinv', hsize', hbuf'⟩ := ih hinv hrun
    exact ⟨hinv', hsize'.trans hsize, hbuf'.trans hbuf⟩

/-! ## What a flush of the buffer does -/

/-- The timeout of the thread is one of those that fire. -/
def System.TimesOut (s : System T) (expired : List T) (u : T) : Prop :=
  u ∈ expired ∧ s.phase u = .pending ∧ (s.request u).timeout = .ticks

instance (expired : List T) (u : T) : Decidable (s.TimesOut expired u) := inferInstanceAs (Decidable (_ ∧ _))

theorem phase_zThreadTimeout : (s.zThreadTimeout t).phase u =
    if u = t ∧ s.phase u = .pending ∧ (s.request u).timeout = .ticks then .ready else s.phase u := by
  rw [System.zThreadTimeout]
  by_cases hp : s.phase t = .pending ∧ (s.request t).timeout = .ticks
  · rw [if_pos hp]
    by_cases hu : u = t
    · subst hu
      rw [if_pos ⟨rfl, hp⟩]
      simp [System.zUnpendThread, System.zReadyThread, System.setPhase]
    · simp [System.zUnpendThread, System.zReadyThread, System.setPhase, System.setWaitQ, hu]
  · rw [if_neg hp, if_neg]
    intro h
    rw [h.1] at h
    exact hp h.2

theorem phase_timeouts : (s.timeouts expired).phase u = if s.TimesOut expired u then .ready else s.phase u := by
  induction expired generalizing s with
  | nil => exact (if_neg fun h => not_mem_nil h.1).symm
  | cons t expired ih =>
    rw [System.timeouts, ih, phase_zThreadTimeout]
    by_cases ht : u = t ∧ s.phase u = .pending ∧ (s.request u).timeout = .ticks
    · have hno : ¬ (s.zThreadTimeout t).TimesOut expired u := by
        intro h
        have hready := h.2.1
        rw [phase_zThreadTimeout, if_pos ht] at hready
        cases hready
      rw [if_neg hno, if_pos ht, if_pos ⟨mem_cons.mpr (.inl ht.1), ht.2⟩]
    · have hrequest : (s.zThreadTimeout t).request = s.request := by
        rw [System.zThreadTimeout]
        split <;> rfl
      have hiff : (s.zThreadTimeout t).TimesOut expired u ↔ s.TimesOut (t :: expired) u := by
        rw [System.TimesOut, System.TimesOut, hrequest, phase_zThreadTimeout, if_neg ht]
        refine ⟨fun h => ⟨mem_cons_of_mem _ h.1, h.2⟩, fun h => ⟨?_, h.2⟩⟩
        exact (mem_cons.mp h.1).resolve_left fun heq => ht ⟨heq, h.2⟩
      rw [if_neg ht]
      exact if_congr hiff rfl rfl

theorem phase_unpendAll (hu : u ∉ xs) : (s.unpendAll xs).phase u = s.phase u := by
  induction xs generalizing s with
  | nil => rfl
  | cons v xs ih =>
    obtain ⟨hv, hxs⟩ := not_or.mp (mem_cons.not.mp hu)
    rw [System.unpendAll, ih hxs]
    simp [System.zUnpendThread, System.setPhase, System.setWaitQ, hv]

theorem request_unpendAll : (s.unpendAll xs).request = s.request ∧ (s.unpendAll xs).log = s.log := by
  induction xs generalizing s with
  | nil => exact ⟨rfl, rfl⟩
  | cons v xs ih => exact ⟨ih.1, ih.2⟩

theorem log_timeouts : (s.timeouts expired).log = s.log := by
  induction expired generalizing s with
  | nil => rfl
  | cons v expired ih =>
    rw [System.timeouts, ih, System.zThreadTimeout]
    split <;> rfl

theorem log_discardStart : (discardStart s t bytes expired xs).log = s.log :=
  log_timeouts.trans request_unpendAll.2

theorem request_discardStart (hu : u ≠ t) : (discardStart s t bytes expired xs).request u = s.request u := by
  rw [discardStart, request_timeouts]
  simp [System.begin, System.setPhase, hu, request_unpendAll.1]

theorem phase_discardStart (hu : u ≠ t) (hxs : u ∉ xs) :
    (discardStart s t bytes expired xs).phase u = if s.TimesOut expired u then .ready else s.phase u := by
  have hphase : ((s.unpendAll xs).begin t (s.newRequest .get nowhere bytes 0 .noWait)).phase u = s.phase u :=
    (update_of_ne hu _ _).trans (phase_unpendAll hxs)
  have hrequest : ((s.unpendAll xs).begin t (s.newRequest .get nowhere bytes 0 .noWait)).request u = s.request u :=
    (update_of_ne hu _ _).trans (congrFun request_unpendAll.1 u)
  rw [discardStart, phase_timeouts, hphase]
  refine if_congr ?_ rfl rfl
  rw [System.TimesOut, hphase, hrequest]
  exact Iff.rfl

theorem log_bufferGet (h : (s.request t).call = .get) : (s.bufferGet t).log .put = s.log .put := by
  have hne : Call.put ≠ (s.request t).call := by
    rw [h]
    decide
  exact update_of_ne hne _ _

/-- The buffer has given up what it held, and was filled again by the writers `xs` and then `ys`. -/
structure Discarded (s s' : System T) (expired xs ys : List T) : Prop where
  contents : s'.pipe.contents = ((xs ++ ys).flatMap s.rest).take s.pipe.size
  first : xs.flatMap s'.rest = (xs.flatMap s.rest).drop s.pipe.size
  second : ys.flatMap s'.rest = (ys.flatMap s.rest).drop (s.pipe.size - s.needs xs)
  request : ∀ u ∉ xs ++ ys, s'.request u = s.request u
  discarded : (s'.log .get).map (·.2) = (s.log .get).map (·.2) ++ s.pipe.contents
  phase : ∀ u, s'.phase u = if u ∈ xs ∨ s.TimesOut expired u then .ready else s.phase u

section
variable (h : Inv s) (ht : s.phase t = .idle)
  (hset : workingSet w s.pipe.size s.need 0 (s.pipe.waitQ .put) = (xs, waiter))
include h ht hset

theorem discard_prepared : Prepared s (discardStart s t s.pipe.size expired xs) t
    (s.newRequest .get nowhere s.pipe.size 0 .noWait) .put xs waiter :=
  prepared expired h ht (newRequest_ok (Nat.zero_le _)) hset

theorem getTail_discard : getTail (discardStart s t s.pipe.size expired xs) t xs waiter =
    (((discardStart s t s.pipe.size expired xs).bufferGet t).refill xs).refillFromWaiter waiter := by
  have hp : Prepared s (discardStart s t s.pipe.size expired xs) t _ .put xs waiter := discard_prepared h ht hset
  obtain ⟨hs₂, hf₂, -, hneed₂, -⟩ := bufferGet_spec hp.sound hp.active.1
  have hok := hs₂.calls t (hf₂.busy hp.active.1).1
  have hdone : s.pipe.waitQ .put ≠ [] → ¬ (((discardStart s t s.pipe.size expired xs).bufferGet t).request t).pipeDesc.buffer <
      (((discardStart s t s.pipe.size expired xs).bufferGet t).request t).bytes := by
    intro hne
    have hneedt : (discardStart s t s.pipe.size expired xs).need t = s.pipe.size := hp.need_self
    rw [hok.lt_iff, hneed₂, hneedt, hp.used, h.waits.writers hne, Nat.sub_self]
    exact Nat.lt_irrefl 0
  have hxs : ((discardStart s t s.pipe.size expired xs).bufferGet t).getFromWriters t xs =
      ((discardStart s t s.pipe.size expired xs).bufferGet t, xs) := by
    cases hcons : xs with
    | nil => rfl
    | cons u xs =>
      rw [hcons] at hp hdone
      rw [System.getFromWriters, if_neg (hdone (hp.ne_nil (by simp)))]
  have hwaiter : ((discardStart s t s.pipe.size expired xs).bufferGet t).getFromWaiter t waiter =
      (discardStart s t s.pipe.size expired xs).bufferGet t := by
    cases waiter with
    | none => rfl
    | some u =>
      rw [System.getFromWaiter, if_neg (hdone (ne_nil_of_mem (hp.waiter_some u rfl).2.1))]
  rw [getTail, hxs]
  rw [hwaiter]

theorem bufferGet_discard (expired : List T) : ∃ s₂, (discardStart s t s.pipe.size expired xs).bufferGet t = s₂ ∧ Sound s₂ ∧
    Frame (discardStart s t s.pipe.size expired xs) s₂ ∧ s₂.pipe.bytesUsed = 0 ∧ s₂.pipe.size = s.pipe.size ∧
    (∀ u, u ≠ t → s₂.request u = s.request u) ∧
    (s₂.log .get).map (·.2) = (s.log .get).map (·.2) ++ s.pipe.contents ∧
    ∀ u, u ≠ t → u ∉ xs → s₂.phase u = if s.TimesOut expired u then .ready else s.phase u := by
  have hp : Prepared s (discardStart s t s.pipe.size expired xs) t _ .put xs waiter := discard_prepared h ht hset
  obtain ⟨hs₂, hf₂, hused₂, -⟩ := bufferGet_spec hp.sound hp.active.1
  have hneedt : (discardStart s t s.pipe.size expired xs).need t = s.pipe.size := hp.need_self
  have hempty : ((discardStart s t s.pipe.size expired xs).bufferGet t).pipe.bytesUsed = 0 := by
    rw [hused₂, hneedt, hp.used]
    exact Nat.sub_eq_zero_of_le h.sound.ring.used_le
  refine ⟨_, rfl, hs₂, hf₂, hempty, hf₂.size.trans hp.size, fun u hu => ?_, ?_, fun u hu hxs => ?_⟩
  · exact (request_advance_other hu).trans (request_discardStart hu)
  · have hcontents : ((discardStart s t s.pipe.size expired xs).bufferGet t).pipe.contents = [] :=
      length_eq_zero_iff.mp (length_contents.trans hempty)
    have hput : ((discardStart s t s.pipe.size expired xs).bufferGet t).log .put = s.log .put := by
      exact (log_bufferGet hp.active.1.2).trans (congrFun log_discardStart _)
    have hstream := hs₂.stream
    rw [hput, hcontents, List.append_nil] at hstream
    exact hstream.symm.trans h.sound.stream
  · exact phase_discardStart hu hxs

theorem discarded : Discarded s (pipeDiscard w s t s.pipe.size expired) expired xs waiter.toList := by
  have hp : Prepared s (discardStart s t s.pipe.size expired xs) t _ .put xs waiter := discard_prepared h ht hset
  obtain ⟨hphase, hpipe, hrequest, hlog⟩ := discard_finish t expired hset
  rw [getTail_discard h ht hset] at hphase hpipe hrequest hlog
  obtain ⟨s₂, hs₂eq, hs₂, hf₂, hused₂, hsize₂, hrequest₂, hlog₂, hphase₂⟩ := bufferGet_discard h ht hset expired
  rw [hs₂eq] at hphase hpipe hrequest hlog
  have hbusy : Busy (discardStart s t s.pipe.size expired xs) .get t := hp.active.1
  have hxst : ∀ u ∈ xs, u ≠ t := fun u hu => (hp.working u hu).1.1.ne hbusy
  have hwaitert : ∀ u ∈ waiter.toList, u ≠ t := fun u hu =>
    (hp.waiter_some u (mem_toList.mp hu)).1.ne hbusy
  -- the working set first, and then the writer behind it
  obtain ⟨hfirst, hready⟩ := refill_refilled hs₂ hp.nodup fun u hu => hf₂.active (hp.working u hu).1
  obtain ⟨hs₃, hf₃, -⟩ := refill_spec hs₂ hp.nodup fun u hu => hf₂.active (hp.working u hu).1
  have hsecond : Refilled (s₂.refill xs) ((s₂.refill xs).refillFromWaiter waiter) waiter.toList ∧
      ((s₂.refill xs).refillFromWaiter waiter).phase = (s₂.refill xs).phase := by
    cases waiter with
    | none => exact ⟨⟨by simp [System.refillFromWaiter], by simp, fun _ _ => rfl, rfl, rfl⟩, rfl⟩
    | some u => exact ⟨bufferPut_refilled hs₃ (hf₃.busy (hf₂.busy (hp.waiter_some u rfl).1)), rfl⟩
  obtain ⟨hsecond, hphase₃⟩ := hsecond
  have hdisj : xs.Disjoint waiter.toList := fun u hx hu => (hp.waiter_some u (mem_toList.mp hu)).2.2.1 hx
  have hboth := hfirst.append hsecond hdisj
  have hrest₂ : ∀ zs : List T, (∀ u ∈ zs, u ≠ t) → zs.flatMap s₂.rest = zs.flatMap s.rest := fun zs hzs =>
    flatMap_congr fun u hu => rest_congr (hrequest₂ u (hzs u hu))
  have hlast : ∀ zs : List T, (∀ u ∈ zs, u ≠ t) → zs.flatMap (pipeDiscard w s t s.pipe.size expired).rest =
      zs.flatMap ((s₂.refill xs).refillFromWaiter waiter).rest := fun zs hzs =>
    flatMap_congr fun u hu => rest_congr (by rw [hrequest, update_of_ne (hzs u hu)])
  have hempty : s₂.pipe.contents = [] := length_eq_zero_iff.mp (length_contents.trans hused₂)
  refine ⟨?_, ?_, ?_, fun u hu => ?_, ?_, fun u => ?_⟩
  · rw [hpipe, hboth.contents, hempty, hused₂, hsize₂, Nat.sub_zero, nil_append, hrest₂]
    intro u hu
    exact (mem_append.mp hu).elim (hxst u) (hwaitert u)
  · have hsame : xs.flatMap ((s₂.refill xs).refillFromWaiter waiter).rest = xs.flatMap (s₂.refill xs).rest :=
      flatMap_congr fun u hu => rest_congr (hsecond.request u fun hu' => hdisj hu hu')
    rw [hlast xs hxst, hsame, hfirst.rest, hused₂, hsize₂, Nat.sub_zero, hrest₂ xs hxst]
  · have hsame : waiter.toList.flatMap (s₂.refill xs).rest = waiter.toList.flatMap s₂.rest :=
      flatMap_congr fun u hu => rest_congr (hfirst.request u fun hu' => hdisj hu' hu)
    have hused₃ := congrArg List.length hfirst.contents
    rw [length_contents, length_append, hempty, length_nil, Nat.zero_add, length_take, hrest₂ xs hxst,
      length_flatMap_rest, hused₂, hsize₂, Nat.sub_zero] at hused₃
    rw [hlast _ hwaitert, hsecond.rest, hsame, hrest₂ _ hwaitert, hfirst.size, hsize₂, hused₃]
    congr 1
    omega
  · rw [hrequest]
    by_cases hut : u = t
    · subst hut
      exact update_self ..
    · rw [update_of_ne hut, hboth.request u hu, hrequest₂ u hut]
  · rw [hlog, hboth.log, hlog₂]
  · rw [hphase]
    by_cases hut : u = t
    · subst hut
      have hno : ¬ (u ∈ xs ∨ s.TimesOut expired u) := by
        rintro (hx | hout)
        · exact hxst u hx rfl
        · cases ht.symm.trans hout.2.1
      rw [update_self, if_neg hno, ht]
    · rw [update_of_ne hut, hphase₃, hready]
      by_cases hx : u ∈ xs
      · rw [if_pos hx, if_pos (.inl hx)]
      · rw [if_neg hx, hphase₂ u hut hx]
        exact if_congr (by simp [hx]) rfl rfl

end

/-! ## When it does what it says -/

/-- The first sum of requests that is more than `size` is still more as a `size_t`. -/
def SumsFit (w size : Nat) (need : T → Nat) : Nat → List T → Prop
  | _, [] => True
  | sum, u :: q =>
    if sum + need u ≤ size then SumsFit w size need (sum + need u) q else size < (sum + need u) % 2 ^ w

instance SumsFit.instDecidable (w size : Nat) (need : T → Nat) : (sum : Nat) → (q : List T) →
    Decidable (SumsFit w size need sum q)
  | _, [] => isTrue trivial
  | sum, u :: q => by
    have := SumsFit.instDecidable w size need (sum + need u) q
    unfold SumsFit
    infer_instance

omit dT in
theorem sumsFit_iff {size num sum : Nat} {need : T → Nat} {q : List T} (hnum : num % 2 ^ w = sum % 2 ^ w) (hsum : sum ≤ size) :
    SumsFit w size need sum q ↔ sum + ((workingSet w size need num q).1.map need).sum ≤ size := by
  induction q generalizing num sum with
  | nil => exact ⟨fun _ => hsum, fun _ => trivial⟩
  | cons u q ih =>
    have hmod : (num + need u) % 2 ^ w = (sum + need u) % 2 ^ w := by
      rw [Nat.add_mod, hnum, ← Nat.add_mod]
    rw [SumsFit, workingSet, hmod]
    by_cases hle : sum + need u ≤ size
    · have hsmall := Nat.mod_le (sum + need u) (2 ^ w)
      rw [if_pos hle, if_neg (by omega), ih (Nat.mod_mod _ _) hle, map_cons, sum_cons, Nat.add_assoc]
    · rw [if_neg hle]
      by_cases hmore : (sum + need u) % 2 ^ w > size
      · rw [if_pos hmore]
        exact iff_of_true hmore hsum
      · rw [if_neg hmore, map_cons, sum_cons]
        exact iff_of_false hmore (by omega)

/-- What a flush of the buffer is to do. -/
structure BufferFlushed (s s' : System T) (expired : List T) : Prop where
  /-- The buffer holds what fits of the data of the writers that waited, in the order of the queue. -/
  contents : s'.pipe.contents = ((s.pipe.waitQ .put).flatMap s.rest).take s.pipe.size
  left : (s.pipe.waitQ .put).flatMap s'.rest = ((s.pipe.waitQ .put).flatMap s.rest).drop s.pipe.size
  /-- What the buffer held is discarded, and nothing else. -/
  discarded : (s'.log .get).map (·.2) = (s.log .get).map (·.2) ++ s.pipe.contents
  readers : ∀ u, Busy s .get u → s'.request u = s.request u
  woken : ∀ u ∈ s.pipe.waitQ .put, s.need u ≠ 0 → s'.need u = 0 → s'.phase u = .ready
  /-- Timeouts apart, only writers whose requests are complete are woken. -/
  complete : ∀ u, s'.phase u ≠ (if s.TimesOut expired u then .ready else s.phase u) →
    u ∈ s.pipe.waitQ .put ∧ s'.phase u = .ready ∧ s'.need u = 0

omit dT in
theorem need_eq_zero (h : xs.flatMap s.rest = []) (hu : u ∈ xs) : s.need u = 0 := by
  rw [← length_rest, flatMap_eq_nil_iff.mp h u hu, length_nil]

theorem Discarded.bufferFlushed {ys : List T} (more : List T) (h : Discarded s s' expired xs ys) (hq : s.pipe.waitQ .put = xs ++ ys ++ more)
    (hphase : ∀ u ∈ s.pipe.waitQ .put, s.phase u = .pending ∧ (s.request u).call = .put) (hnodup : (s.pipe.waitQ .put).Nodup)
    (hone : ys = [] ∨ ∃ u, ys = [u] ∧ s.pipe.size < s.needs xs + s.need u) (hmore : ys = [] → more = [])
    (hfits : s.needs xs ≤ s.pipe.size) : BufferFlushed s s' expired := by
  have hlength : ((xs ++ ys).flatMap s.rest).length = s.needs xs + s.needs ys := by
    rw [flatMap_append, length_append, length_flatMap_rest, length_flatMap_rest]
  have hxs : xs.flatMap s'.rest = [] := by
    rw [h.first]
    exact drop_of_length_le (by rw [length_flatMap_rest]; exact hfits)
  have hbehind : more = [] ∨ s.pipe.size ≤ ((xs ++ ys).flatMap s.rest).length := by
    obtain hnil | ⟨u, rfl, hlt⟩ := hone
    · exact .inl (hmore hnil)
    · right
      rw [hlength, needs_cons, needs_nil]
      omega
  have hall : ∀ f : T → List UInt8, (s.pipe.waitQ .put).flatMap f = (xs ++ ys).flatMap f ++ more.flatMap f := fun f => by
    rw [hq, flatMap_append]
  rw [hq] at hphase hnodup
  have hdisj := nodup_append.mp hnodup
  have hsame : more.flatMap s'.rest = more.flatMap s.rest :=
    flatMap_congr fun u hu => rest_congr (h.request u fun hmem => hdisj.2.2 u hmem u hu rfl)
  refine ⟨?_, ?_, h.discarded, fun u hu => ?_, fun u hu hne hzero => ?_, fun u hu => ?_⟩
  · rw [h.contents, hall]
    obtain hnil | hle := hbehind
    · rw [hnil, flatMap_nil, List.append_nil]
    · rw [take_append_of_le_length hle]
  · have hfront : (xs ++ ys).flatMap s'.rest = ((xs ++ ys).flatMap s.rest).drop s.pipe.size := by
      rw [flatMap_append, h.first, h.second, flatMap_append, drop_append, length_flatMap_rest]
    rw [hall, hall, hfront, hsame]
    obtain hnil | hle := hbehind
    · rw [hnil, flatMap_nil, List.append_nil, List.append_nil]
    · rw [drop_append_of_le_length hle]
  · refine h.request u fun hmem => ?_
    have hcall := (hphase u (mem_append_left _ hmem)).2
    cases hu.2.symm.trans hcall
  · -- a writer that has nothing left is in the working set
    rw [hq] at hu
    have hx : u ∈ xs := by
      obtain hu | hu := mem_append.mp hu
      · refine (mem_append.mp hu).resolve_right fun hy => ?_
        obtain hnil | ⟨v, rfl, hlt⟩ := hone
        · rw [hnil] at hy
          cases hy
        · cases mem_singleton.mp hy
          have hleft := congrArg List.length h.second
          rw [flatMap_singleton, flatMap_singleton, length_rest, length_drop, length_rest, hzero] at hleft
          omega
      · have hrequest := h.request u fun hmem => hdisj.2.2 u hmem u hu rfl
        rw [System.need, hrequest] at hzero
        exact absurd hzero hne
    rw [h.phase, if_pos (.inl hx)]
  · rw [h.phase] at hu ⊢
    by_cases hx : u ∈ xs
    · refine ⟨?_, if_pos (.inl hx), need_eq_zero hxs hx⟩
      rw [hq]
      exact mem_append_left _ (mem_append_left _ hx)
    · exact absurd (if_congr (by simp [hx]) rfl rfl) hu

theorem Discarded.fits {ys : List T} (h : Discarded s s' [] xs ys) (hphase : ∀ u ∈ xs, s.phase u = .pending)
    (hflushed : BufferFlushed s s' []) : s.needs xs ≤ s.pipe.size := by
  have hzero : xs.flatMap s'.rest = [] := by
    refine flatMap_eq_nil_iff.mpr fun u hu => ?_
    have hready : s'.phase u = .ready := by rw [h.phase, if_pos (.inl hu)]
    have hcomplete := hflushed.complete u (by
      rw [if_neg fun hout => not_mem_nil hout.1, hready, hphase u hu]
      decide)
    exact length_eq_zero_iff.mp (length_rest.trans hcomplete.2.2)
  rw [h.first, drop_eq_nil_iff, length_flatMap_rest] at hzero
  exact hzero

theorem pipeGetInternalLocks_eq (l : Locks) (hfree : l.pipeLock = false) :
    pipeGetInternalLocks w s bytes l.kSpinLock = l := by
  obtain ⟨pipeLock, schedLocked⟩ := l
  cases hfree
  rfl

/-- **A flush of the buffer in any run** discards what the buffer holds, fills it again from the writers in
their order, wakes the writers that are then complete, and leaves the locks as they were, if and only if the
pipe has a buffer and the sum of the writers' requests does not wrap. -/
theorem buffer_flush_iff {k₀ k : Locked T} {buffer : Nat → UInt8} {size : Nat} {prio : T → Int} {request : T → Request}
    {es : List (FlushEvent T)} (hstart : k₀.system = start (kPipeInit buffer size) prio request)
    (hrun : flushRun w k₀ es = some k) (hfree : k.locks.pipeLock = false) {t : T} (ht : k.system.phase t = .idle) :
    (∀ expired, BufferFlushed k.system (kPipeBufferFlush w k t expired).system expired ∧
        (kPipeBufferFlush w k t expired).locks = k.locks) ↔
      k₀.hasBuffer = true ∧ SumsFit w size k.system.need 0 (k.system.pipe.waitQ .put) := by
  obtain ⟨hinv, hsize, hbuf⟩ := flushRun_inv (hstart ▸ start_inv) hrun
  rw [hstart] at hsize
  have hsize : k.system.pipe.size = size := hsize
  obtain ⟨s, hasBuffer, locks⟩ := k
  obtain ⟨⟨xs, waiter⟩, hset⟩ : ∃ x, workingSet w s.pipe.size s.need 0 (s.pipe.waitQ .put) = x := ⟨_, rfl⟩
  have hsums : SumsFit w s.pipe.size s.need 0 (s.pipe.waitQ .put) ↔
      0 + ((workingSet w s.pipe.size s.need 0 (s.pipe.waitQ .put)).1.map s.need).sum ≤ s.pipe.size :=
    sumsFit_iff rfl (Nat.zero_le _)
  rw [hset, Nat.zero_add] at hsums
  rw [← hsize, hsums, ← hbuf]
  cases hasBuffer with
  | false =>
    refine ⟨fun h => ?_, fun h => by cases h.1⟩
    have hlocks := congrArg Locks.pipeLock (h []).2
    rw [hfree] at hlocks
    cases hlocks
  | true =>
    have hgo : ∀ expired : List T, (kPipeBufferFlush w ⟨s, true, locks⟩ t expired).system = pipeDiscard w s t s.pipe.size expired :=
      fun _ => rfl
    have hlocks : pipeGetInternalLocks w s s.pipe.size locks.kSpinLock = locks := pipeGetInternalLocks_eq locks hfree
    have hphase : ∀ u ∈ s.pipe.waitQ .put, s.phase u = .pending ∧ (s.request u).call = .put :=
      fun u hu => (hinv.queues.mem .put u).mp hu
    obtain ⟨rest, hq, hhead, hsome⟩ := workingSet_spec hset
    refine ⟨fun h => ⟨rfl, ?_⟩, fun h expired => ⟨?_, hlocks⟩⟩
    · have hflushed := (h []).1
      refine (discarded hinv ht hset).fits (fun u hu => (hphase u ?_).1) hflushed
      rw [hq]
      exact mem_append_left _ hu
    · cases waiter with
      | none =>
        have hrest := List.head?_eq_none_iff.mp hhead
        exact (discarded hinv ht hset).bufferFlushed [] (by simpa [hrest] using hq) hphase (hinv.queues.nodup .put)
          (.inl rfl) (fun _ => rfl) h.2
      | some u =>
        obtain ⟨more, rfl⟩ := List.head?_eq_some_iff.mp hhead
        refine (discarded hinv ht hset).bufferFlushed more (by simpa using hq) hphase (hinv.queues.nodup .put)
          (.inr ⟨u, rfl, ?_⟩) (fun hnil => by cases hnil) h.2
        have hlt := hsome u rfl
        rw [Nat.zero_add] at hlt
        exact hlt

/-- A pipe of two bytes, with or without a buffer. -/
def twoBytes (size : Nat) (hasBuffer : Bool) : Locked (Fin 4) :=
  ⟨start (kPipeInit (fun _ => 0) size) (fun _ => 0) fun _ => noRequest, hasBuffer, ⟨false, 0⟩⟩

/-- Two writers wait, the first with more than fits. -/
def writersWait : List (FlushEvent (Fin 4)) :=
  [.event (.put 1 (digits 10) 5 0 .ticks []), .bufferFlush 0 [], .event (.put 2 (digits 20) 2 2 .forever [])]

theorem buffer_flush_iff_two : ∃ k, flushRun 32 (twoBytes 2 true) writersWait = some k ∧
    k.system.pipe.contents = [12, 13] ∧
    ((∀ expired, BufferFlushed k.system (kPipeBufferFlush 32 k 0 expired).system expired ∧
        (kPipeBufferFlush 32 k 0 expired).locks = k.locks) ↔
      (twoBytes 2 true).hasBuffer = true ∧ SumsFit 32 2 k.system.need 0 (k.system.pipe.waitQ .put)) := by
  set k := (flushRun 32 (twoBytes 2 true) writersWait).get (by decide +kernel)
  have hrun : flushRun 32 (twoBytes 2 true) writersWait = some k := (some_get _).symm
  exact ⟨k, hrun, by decide +kernel, buffer_flush_iff rfl hrun (by decide +kernel) (by decide +kernel)⟩

/-- Without a buffer the lock of the pipe is not released. -/
theorem buffer_flush_keeps_lock : ∃ k, flushRun 32 (twoBytes 0 false) [] = some k ∧
    k.locks.pipeLock = false ∧ k.system.phase 0 = .idle ∧ (kPipeBufferFlush 32 k 0 []).locks ≠ k.locks :=
  ⟨_, rfl, rfl, rfl, by decide⟩

end RtosKernel.Zephyr.Pipes
