import Mathlib.Data.List.Sort
import RtosKernel.Zephyr.Sched

/-! # Which threads are queued

The `_THREAD_QUEUED` bit tells which threads are in the run queue, and between two operations it
is set for exactly the ready threads. During an operation on a thread that thread may be the
exception. -/
namespace RtosKernel.Zephyr.Sched
open Lib.Runs List
open Function (update_apply)

variable {T O : Type} [dT : DecidableEq T] [dO : DecidableEq O] {cfg : Config T} {k k' : Kernel T O} {t u : T}
  {f : Thread T O → Thread T O} {q : WaitQ T O} {pq : List T} {thread : T → Thread T O} {b : Bool}

/-! ## Fields -/

section Fields

section
omit dO

@[simp] theorem update_thread : (k.update t f).thread u = if u = t then f (k.thread t) else k.thread u :=
  update_apply ..
@[simp] theorem update_runq : (k.update t f).runq = k.runq := rfl
@[simp] theorem update_waitq : (k.update t f).waitq = k.waitq := rfl
@[simp] theorem update_cache : (k.update t f).cache = k.cache := rfl
@[simp] theorem update_current : (k.update t f).current = k.current := rfl

@[simp] theorem update_fault : (k.update t f).fault = k.fault := rfl

@[simp] theorem update_clock : (k.update t f).clock = k.clock := rfl

end

section
omit dT dO

@[simp] theorem updateCache_thread : (updateCache cfg k b).thread = k.thread := rfl
@[simp] theorem updateCache_runq : (updateCache cfg k b).runq = k.runq := rfl
@[simp] theorem updateCache_waitq : (updateCache cfg k b).waitq = k.waitq := rfl

@[simp] theorem updateCache_current : (updateCache cfg k b).current = k.current := rfl

@[simp] theorem updateCache_fault : (updateCache cfg k b).fault = k.fault := rfl

@[simp] theorem updateCache_clock : (updateCache cfg k b).clock = k.clock := rfl

end

section
omit dO

@[simp] theorem queueThread_thread : (queueThread cfg k t).thread u =
    if u = t then { k.thread t with state.queued := true, queuedAt := k.clock } else k.thread u :=
  update_apply ..
@[simp] theorem queueThread_waitq : (queueThread cfg k t).waitq = k.waitq := rfl

@[simp] theorem queueThread_current : (queueThread cfg k t).current = k.current := rfl
@[simp] theorem queueThread_fault : (queueThread cfg k t).fault = (k.fault || decide (t ∈ k.runq)) := rfl

@[simp] theorem dequeueThread_thread : (dequeueThread k t).thread u =
    if u = t then { k.thread t with state.queued := false } else k.thread u :=
  update_apply ..
@[simp] theorem dequeueThread_runq : (dequeueThread k t).runq = k.runq.erase t := rfl
@[simp] theorem dequeueThread_waitq : (dequeueThread k t).waitq = k.waitq := rfl

@[simp] theorem dequeueThread_current : (dequeueThread k t).current = k.current := rfl
@[simp] theorem dequeueThread_fault : (dequeueThread k t).fault = (k.fault || decide (t ∉ k.runq)) := rfl

end

section
variable (hq : (k.thread t).pendedOn = some q)
include hq

theorem unpend_thread : (unpendThreadNoTimeout k t).thread u =
    if u = t then { k.thread t with state.pending := false, pendedOn := none } else k.thread u := by
  rw [unpendThreadNoTimeout, hq]
  exact update_apply ..

theorem unpend_waitq {q' : WaitQ T O} :
    (unpendThreadNoTimeout k t).waitq q' = if q' = q then (k.waitq q).erase t else k.waitq q' := by
  rw [unpendThreadNoTimeout, hq]
  exact update_apply ..

theorem unpend_fault : (unpendThreadNoTimeout k t).fault = (k.fault || decide (t ∉ k.waitq q)) := by
  rw [unpendThreadNoTimeout, hq]

end

@[simp] theorem unpend_runq : (unpendThreadNoTimeout k t).runq = k.runq := by
  rw [unpendThreadNoTimeout]
  split <;> rfl

@[simp] theorem unpend_current : (unpendThreadNoTimeout k t).current = k.current := by
  rw [unpendThreadNoTimeout]
  split <;> rfl

@[simp] theorem unpend_cache : (unpendThreadNoTimeout k t).cache = k.cache := by
  rw [unpendThreadNoTimeout]
  split <;> rfl

section
omit dT dO

theorem zPriqDumbAdd_eq_orderedInsert :
    zPriqDumbAdd cfg thread t pq = pq.orderedInsert (fun a b => zSchedPrioCmp cfg (thread a) (thread b) > 0) t := by
  induction pq with
  | nil => rfl
  | cons u pq ih => rw [zPriqDumbAdd, orderedInsert_cons, ih]

theorem perm_zPriqDumbAdd : (zPriqDumbAdd cfg thread t pq).Perm (t :: pq) := by
  rw [zPriqDumbAdd_eq_orderedInsert]
  exact perm_orderedInsert _ _ _

@[simp] theorem mem_zPriqDumbAdd : u ∈ zPriqDumbAdd cfg thread t pq ↔ u = t ∨ u ∈ pq := by
  rw [perm_zPriqDumbAdd.mem_iff, mem_cons]

end

omit dO in
theorem queueThread_runq : (queueThread cfg k t).runq = zPriqDumbAdd cfg (queueThread cfg k t).thread t k.runq := rfl

omit dO in
@[simp] theorem mem_queueThread : u ∈ (queueThread cfg k t).runq ↔ u = t ∨ u ∈ k.runq := mem_zPriqDumbAdd

omit dT dO in
theorem nodup_zPriqDumbAdd : (zPriqDumbAdd cfg thread t pq).Nodup ↔ t ∉ pq ∧ pq.Nodup := by
  rw [perm_zPriqDumbAdd.nodup_iff, nodup_cons]

end Fields

/-! ## The invariant -/

/-- The lists hold the threads whose records say so. -/
structure Lists (k : Kernel T O) : Prop where
  runq_nodup : k.runq.Nodup
  queued : ∀ t, t ∈ k.runq ↔ (k.thread t).state.queued = true
  waitq_nodup : ∀ q, (k.waitq q).Nodup
  pendedOn : ∀ q t, t ∈ k.waitq q ↔ (k.thread t).pendedOn = some q
  pending : ∀ t, (k.thread t).pendedOn ≠ none → (k.thread t).state.pending = true
  fault : k.fault = false

/-- A thread is queued if it is ready and not the idle thread. -/
def Exact (cfg : Config T) (k : Kernel T O) (t : T) : Prop :=
  (k.thread t).state.queued = true ↔ zIsThreadReady (k.thread t) = true ∧ t ≠ cfg.idle

/-- The idle thread never waits and has no slice of its own. -/
structure Idles (cfg : Config T) (k : Kernel T O) : Prop where
  timeout : (k.thread cfg.idle).timeout = false
  pendedOn : (k.thread cfg.idle).pendedOn = none
  slice : (k.thread cfg.idle).sliceTicks = 0

/-- All is in order but for one thread that an operation works on. -/
structure Near (cfg : Config T) (k : Kernel T O) (t : T) : Prop where
  lists : Lists k
  exact : ∀ u, u ≠ t → Exact cfg k u
  idles : Idles cfg k

/-- All is in order, but for the cache. -/
structure Full (cfg : Config T) (k : Kernel T O) : Prop where
  lists : Lists k
  exact : ∀ t, Exact cfg k t
  idles : Idles cfg k
  timer : (k.thread k.current).timeout = false

/-- The thread that runs next is queued, if it is not the idle thread. -/
def CacheOk (cfg : Config T) (k : Kernel T O) : Prop :=
  k.cache = cfg.idle ∨ (k.thread k.cache).state.queued = true

structure Inv (cfg : Config T) (k : Kernel T O) : Prop where
  full : Full cfg k
  cache : CacheOk cfg k

omit dT dO in
theorem Full.near (h : Full cfg k) (t : T) : Near cfg k t := ⟨h.lists, fun u _ => h.exact u, h.idles⟩

omit dO in
theorem Near.full (h : Near cfg k t) (he : Exact cfg k t) (hc : (k.thread k.current).timeout = false) : Full cfg k :=
  ⟨h.lists, fun u => if hu : u = t then hu ▸ he else h.exact u hu, h.idles, hc⟩

section
omit dT dO

theorem exact_of_blocked (hq : (k.thread t).state.queued = false) (hr : zIsThreadReady (k.thread t) = false) :
    Exact cfg k t := by
  simp [Exact, hq, hr]

theorem Full.timeout_of_queued (h : Full cfg k) (hq : (k.thread t).state.queued = true) : (k.thread t).timeout = false := by
  have hr := ((h.exact t).mp hq).1
  simp only [zIsThreadReady, Bool.not_eq_true', Bool.or_eq_false_iff] at hr
  exact hr.2

theorem Full.not_queued (h : Full cfg k) (hr : zIsThreadReady (k.thread t) = false) : (k.thread t).state.queued = false := by
  by_contra hq
  rw [Bool.not_eq_false] at hq
  exact Bool.noConfusion (hr.symm.trans ((h.exact t).mp hq).1)

end

/-! ## What the operations are made of -/

section
omit dO

theorem Near.change (h : Near cfg k t) (ht : t ≠ cfg.idle) (hu : ∀ u, u ≠ t → k'.thread u = k.thread u)
    (hrn : k'.runq.Nodup) (hr : ∀ u, u ≠ t → (u ∈ k'.runq ↔ u ∈ k.runq))
    (hrt : t ∈ k'.runq ↔ (k'.thread t).state.queued = true)
    (hwn : ∀ q, (k'.waitq q).Nodup) (hw : ∀ q u, u ≠ t → (u ∈ k'.waitq q ↔ u ∈ k.waitq q))
    (hwt : ∀ q, t ∈ k'.waitq q ↔ (k'.thread t).pendedOn = some q)
    (hp : (k'.thread t).pendedOn ≠ none → (k'.thread t).state.pending = true) (hf : k'.fault = false) :
    Near cfg k' t := by
  refine ⟨⟨hrn, fun u => ?_, hwn, fun q u => ?_, fun u hpu => ?_, hf⟩, fun u hne => ?_, ?_⟩
  · by_cases heq : u = t
    · rw [heq, hrt]
    · rw [hr u heq, h.lists.queued, hu u heq]
  · by_cases heq : u = t
    · rw [heq, hwt]
    · rw [hw q u heq, h.lists.pendedOn, hu u heq]
  · by_cases heq : u = t
    · rw [heq] at hpu ⊢
      exact hp hpu
    · rw [hu u heq] at hpu ⊢
      exact h.lists.pending u hpu
  · rw [Exact, hu u hne]
    exact h.exact u hne
  · exact ⟨by rw [hu _ ht.symm, h.idles.timeout], by rw [hu _ ht.symm, h.idles.pendedOn],
      by rw [hu _ ht.symm, h.idles.slice]⟩

theorem Near.update (h : Near cfg k t) (ht : t ≠ cfg.idle) (hq : (f (k.thread t)).state.queued = (k.thread t).state.queued)
    (hp : (f (k.thread t)).pendedOn = (k.thread t).pendedOn)
    (hw : (k.thread t).pendedOn ≠ none → (f (k.thread t)).state.pending = true) : Near cfg (k.update t f) t := by
  refine h.change ht (fun u hu => by rw [update_thread, if_neg hu]) h.lists.runq_nodup (fun u _ => Iff.rfl) ?_
    h.lists.waitq_nodup (fun q u _ => Iff.rfl) (fun q => ?_) (fun hpt => ?_) h.lists.fault
  · rw [update_thread, if_pos rfl, hq]
    exact h.lists.queued t
  · rw [update_thread, if_pos rfl, hp]
    exact h.lists.pendedOn q t
  · rw [update_thread, if_pos rfl, hp] at hpt
    rw [update_thread, if_pos rfl]
    exact hw hpt

theorem Full.update (h : Full cfg k) (ht : t ≠ cfg.idle) (hs : (f (k.thread t)).state = (k.thread t).state)
    (hp : (f (k.thread t)).pendedOn = (k.thread t).pendedOn) (ho : (f (k.thread t)).timeout = (k.thread t).timeout) :
    Full cfg (k.update t f) := by
  refine ((h.near t).update ht (congrArg _ hs) hp fun hw => ?_).full ?_ ?_
  · rw [hs]
    exact h.lists.pending t hw
  · have := h.exact t
    rwa [Exact, update_thread, if_pos rfl, zIsThreadReady, zIsThreadPreventedFromRunning, hs, ho]
  · rw [update_current, update_thread]
    split
    · next heq => rw [ho, ← heq, h.timer]
    · exact h.timer

theorem Near.queueThread (h : Near cfg k t) (ht : t ≠ cfg.idle) (hq : (k.thread t).state.queued = false) :
    Near cfg (queueThread cfg k t) t := by
  have hn : t ∉ k.runq := fun hm => by rw [h.lists.queued, hq] at hm; cases hm
  refine h.change ht (fun u hu => by rw [queueThread_thread, if_neg hu]) (nodup_zPriqDumbAdd.mpr ⟨hn, h.lists.runq_nodup⟩)
    (fun u hu => ?_) ?_ h.lists.waitq_nodup (fun q u _ => Iff.rfl) (fun q => ?_) (fun hp => ?_) ?_
  · rw [mem_queueThread]
    exact or_iff_right hu
  · rw [mem_queueThread, queueThread_thread, if_pos rfl]
    exact iff_of_true (Or.inl rfl) rfl
  · rw [queueThread_thread, if_pos rfl]
    exact h.lists.pendedOn q t
  · rw [queueThread_thread, if_pos rfl] at hp ⊢
    exact h.lists.pending t hp
  · rw [queueThread_fault, h.lists.fault, decide_eq_false hn, Bool.or_false]

theorem Near.dequeueThread (h : Near cfg k t) (ht : t ≠ cfg.idle) (hq : (k.thread t).state.queued = true) :
    Near cfg (dequeueThread k t) t := by
  have hm : t ∈ k.runq := (h.lists.queued t).mpr hq
  refine h.change ht (fun u hu => by rw [dequeueThread_thread, if_neg hu]) (h.lists.runq_nodup.erase t)
    (fun u hu => mem_erase_of_ne hu) ?_ h.lists.waitq_nodup (fun q u _ => Iff.rfl) (fun q => ?_) (fun hp => ?_) ?_
  · rw [dequeueThread_thread, if_pos rfl]
    exact iff_of_false h.lists.runq_nodup.not_mem_erase Bool.false_ne_true
  · rw [dequeueThread_thread, if_pos rfl]
    exact h.lists.pendedOn q t
  · rw [dequeueThread_thread, if_pos rfl] at hp ⊢
    exact h.lists.pending t hp
  · rw [dequeueThread_fault, h.lists.fault, decide_eq_false (not_not_intro hm), Bool.or_false]

theorem dequeueIfQueued_thread : (dequeueIfQueued k t).thread u =
    if u = t then { k.thread t with state.queued := false } else k.thread u := by
  rw [dequeueIfQueued]
  split
  · exact dequeueThread_thread
  · next hq =>
    rw [Bool.not_eq_true] at hq
    split
    · next heq =>
      rw [heq]
      cases hth : k.thread t with
      | mk state => cases state; rw [hth] at hq; cases hq; rfl
    · rfl

@[simp] theorem dequeueIfQueued_cache : (dequeueIfQueued k t).cache = k.cache := by
  rw [dequeueIfQueued]
  split <;> rfl

@[simp] theorem dequeueIfQueued_current : (dequeueIfQueued k t).current = k.current := by
  rw [dequeueIfQueued]
  split <;> rfl

theorem Near.dequeueIfQueued (h : Near cfg k t) (ht : t ≠ cfg.idle) : Near cfg (dequeueIfQueued k t) t := by
  rw [Sched.dequeueIfQueued]
  split
  · next hq => exact h.dequeueThread ht hq
  · exact h

end

omit dT dO in
theorem Near.updateCache (h : Near cfg k t) : Near cfg (updateCache cfg k b) t :=
  ⟨⟨h.lists.runq_nodup, h.lists.queued, h.lists.waitq_nodup, h.lists.pendedOn, h.lists.pending, h.lists.fault⟩,
    h.exact, ⟨h.idles.timeout, h.idles.pendedOn, h.idles.slice⟩⟩

omit dO in
theorem Full.updateCache (h : Full cfg k) : Full cfg (updateCache cfg k b) :=
  (h.near k.current).updateCache.full (h.exact _) h.timer

theorem Near.unpend (h : Near cfg k t) (ht : t ≠ cfg.idle) (hp : (k.thread t).pendedOn ≠ none) :
    Near cfg (unpendThreadNoTimeout k t) t := by
  obtain ⟨q, hq⟩ := Option.ne_none_iff_exists'.mp hp
  have hm : t ∈ k.waitq q := (h.lists.pendedOn q t).mpr hq
  refine h.change ht (fun u hu => by rw [unpend_thread hq, if_neg hu]) (by rw [unpend_runq]; exact h.lists.runq_nodup)
    (fun u _ => by rw [unpend_runq]) ?_ (fun q' => ?_) (fun q' u hu => ?_) (fun q' => ?_) (fun hpt => ?_) ?_
  · rw [unpend_thread hq, if_pos rfl, unpend_runq]
    exact h.lists.queued t
  · rw [unpend_waitq hq]
    split
    · exact (h.lists.waitq_nodup q).erase t
    · exact h.lists.waitq_nodup q'
  · rw [unpend_waitq hq]
    split
    · next heq => rw [heq, mem_erase_of_ne hu]
    · rfl
  · rw [unpend_waitq hq, unpend_thread hq, if_pos rfl]
    refine iff_of_false ?_ nofun
    split
    · exact (h.lists.waitq_nodup q).not_mem_erase
    · next hne =>
      rw [h.lists.pendedOn, hq]
      exact fun heq => hne (Option.some.inj heq).symm
  · rw [unpend_thread hq, if_pos rfl] at hpt
    exact absurd rfl hpt
  · rw [unpend_fault hq, h.lists.fault, decide_eq_false (not_not_intro hm), Bool.or_false]

section AddToWaitq
variable {w : Option (WaitQ T O)}

theorem addToWaitq_thread : (addToWaitqLocked cfg k t w).thread u =
    if u = t then
      { k.thread t with state.queued := false, state.pending := true, pendedOn := w.or (k.thread t).pendedOn }
    else k.thread u := by
  cases w with
  | none =>
    simp only [addToWaitqLocked, unreadyThread, update_thread, updateCache_thread, dequeueIfQueued_thread]
    split <;> rfl
  | some q =>
    simp only [addToWaitqLocked, unreadyThread, update_thread, updateCache_thread, dequeueIfQueued_thread]
    split <;> rfl

theorem addToWaitq_runq : (addToWaitqLocked cfg k t w).runq = (dequeueIfQueued k t).runq := by
  cases w <;> rfl

omit dO in
@[simp] theorem dequeueIfQueued_waitq : (dequeueIfQueued k t).waitq = k.waitq := by
  rw [dequeueIfQueued]
  split <;> rfl

theorem mem_addToWaitq : u ∈ (addToWaitqLocked cfg k t w).waitq q ↔ u = t ∧ w = some q ∨ u ∈ k.waitq q := by
  cases w with
  | none => simp [addToWaitqLocked, unreadyThread]
  | some q' =>
    rw [addToWaitqLocked]
    dsimp only
    rw [update_apply]
    split
    · next heq => rw [mem_zPriqDumbAdd, heq]; simp [unreadyThread]
    · next hne => simp [unreadyThread, Ne.symm hne]

theorem addToWaitq_nodup (hn : (k.waitq q).Nodup) (ht : t ∉ k.waitq q) :
    ((addToWaitqLocked cfg k t w).waitq q).Nodup := by
  cases w with
  | none => simpa [addToWaitqLocked, unreadyThread] using hn
  | some q' =>
    rw [addToWaitqLocked]
    dsimp only
    rw [update_apply]
    split
    · next heq =>
      rw [nodup_zPriqDumbAdd, ← heq]
      simpa [unreadyThread] using ⟨ht, hn⟩
    · simpa [unreadyThread] using hn

theorem addToWaitq_fault (hf : (dequeueIfQueued k t).fault = false) (ht : ∀ q, t ∉ k.waitq q) :
    (addToWaitqLocked cfg k t w).fault = false := by
  cases w with
  | none => exact hf
  | some q => simpa [addToWaitqLocked, unreadyThread, hf] using ht q

end AddToWaitq

theorem Near.addToWaitq (h : Near cfg k t) (ht : t ≠ cfg.idle) (hp : (k.thread t).pendedOn = none)
    (w : Option (WaitQ T O)) : Near cfg (addToWaitqLocked cfg k t w) t := by
  have hd := h.dequeueIfQueued ht
  have hnm : ∀ q, t ∉ k.waitq q := fun q hm => by rw [h.lists.pendedOn, hp] at hm; cases hm
  refine hd.change ht (fun u hu => ?_) (by rw [addToWaitq_runq]; exact hd.lists.runq_nodup)
    (fun u _ => by rw [addToWaitq_runq]) ?_
    (fun q => addToWaitq_nodup (h.lists.waitq_nodup q) (hnm q)) (fun q u hu => ?_) (fun q => ?_) (fun _ => ?_)
    (addToWaitq_fault hd.lists.fault hnm)
  · rw [addToWaitq_thread, if_neg hu, dequeueIfQueued_thread, if_neg hu]
  · rw [addToWaitq_runq, hd.lists.queued, addToWaitq_thread, if_pos rfl, dequeueIfQueued_thread, if_pos rfl]
  · rw [mem_addToWaitq, dequeueIfQueued_waitq]
    exact or_iff_right fun hut => hu hut.1
  · rw [mem_addToWaitq, addToWaitq_thread, if_pos rfl, hp, Option.or_none]
    simp [hnm q]
  · rw [addToWaitq_thread, if_pos rfl]

/-! ## The cache -/

omit dT dO in
theorem Lists.nextUp (h : Lists k) : nextUp cfg k = cfg.idle ∨ (k.thread (nextUp cfg k)).state.queued = true := by
  rw [Sched.nextUp]
  cases hr : k.runq with
  | nil => exact Or.inl rfl
  | cons t pq => exact Or.inr ((h.queued t).mp (hr ▸ mem_cons_self))

omit dO in
theorem Full.inv_updateCache (h : Full cfg k) : Inv cfg (Sched.updateCache cfg k b) := by
  refine ⟨h.updateCache, ?_⟩
  rw [CacheOk, updateCache_thread, Sched.updateCache]
  split
  · exact h.lists.nextUp
  · next hno =>
    rw [Bool.not_eq_true, shouldPreempt, Bool.or_eq_false_iff, Bool.or_eq_false_iff, Bool.or_eq_false_iff] at hno
    by_cases hidle : k.current = cfg.idle
    · exact Or.inl hidle
    · refine Or.inr ((h.exact _).mpr ⟨?_, hidle⟩)
      rw [zIsThreadReady, hno.1.1.2, h.timer]
      rfl

omit dT dO in
theorem CacheOk.congr (h : CacheOk cfg k) (hc : k'.cache = k.cache)
    (hq : ∀ u, (k.thread u).state.queued = true → (k'.thread u).state.queued = true) : CacheOk cfg k' := by
  rw [CacheOk, hc]
  exact h.imp_right (hq _)

section
omit dO

theorem Near.readyThread (h : Near cfg k t) (ht : t ≠ cfg.idle) (hq : (k.thread t).state.queued = false)
    (hc : (k.thread k.current).timeout = false) :
    Full cfg (readyThread cfg k t) ∧ (CacheOk cfg k → CacheOk cfg (readyThread cfg k t)) := by
  rw [Sched.readyThread, hq]
  by_cases hr : zIsThreadReady (k.thread t) = true
  · rw [if_pos (by rw [hr]; rfl)]
    have hf : Full cfg (Sched.queueThread cfg k t) := by
      refine (h.queueThread ht hq).full ?_ ?_
      · rw [Exact, queueThread_thread, if_pos rfl]
        exact iff_of_true rfl ⟨hr, ht⟩
      · rw [queueThread_current, queueThread_thread]
        split
        · next heq => exact heq ▸ hc
        · exact hc
    exact ⟨hf.updateCache, fun _ => hf.inv_updateCache.cache⟩
  · rw [Bool.not_eq_true] at hr
    rw [if_neg (by rw [hr]; nofun)]
    exact ⟨h.full (exact_of_blocked hq hr) hc, id⟩

theorem Near.inv_readyThread (h : Near cfg k t) (ht : t ≠ cfg.idle) (hq : (k.thread t).state.queued = false)
    (hc : (k.thread k.current).timeout = false) (hcache : CacheOk cfg k) : Inv cfg (Sched.readyThread cfg k t) :=
  have hr := h.readyThread ht hq hc
  ⟨hr.1, hr.2 hcache⟩

theorem Near.inv_zSwap (h : Near cfg k t) (he : Exact cfg k t) (hc : CacheOk cfg k) : Inv cfg (zSwap k) := by
  refine ⟨⟨⟨h.lists.runq_nodup, h.lists.queued, h.lists.waitq_nodup, h.lists.pendedOn, h.lists.pending, h.lists.fault⟩,
    fun u => if hu : u = t then hu ▸ he else h.exact u hu, ⟨h.idles.timeout, h.idles.pendedOn, h.idles.slice⟩, ?_⟩, hc⟩
  show (k.thread k.cache).timeout = false
  rcases hc with hidle | hq
  · rw [hidle, h.idles.timeout]
  · by_cases hu : k.cache = t
    · have hr := (he.mp (hu ▸ hq)).1
      simp only [zIsThreadReady, Bool.not_eq_true', Bool.or_eq_false_iff] at hr
      exact hu ▸ hr.2
    · have hr := ((h.exact _ hu).mp hq).1
      simp only [zIsThreadReady, Bool.not_eq_true', Bool.or_eq_false_iff] at hr
      exact hr.2

theorem Inv.zSwap (h : Inv cfg k) : Inv cfg (zSwap k) :=
  (h.full.near k.current).inv_zSwap (h.full.exact _) h.cache

end

/-! ## The calls -/

section
omit dT dO

theorem not_ready_of_timeout {th : Thread T O} (h : th.timeout = true) : zIsThreadReady th = false := by
  simp [zIsThreadReady, h]

theorem not_ready_of_prevented {th : Thread T O} (h : zIsThreadPreventedFromRunning th = true) :
    zIsThreadReady th = false := by
  simp [zIsThreadReady, h]

theorem Full.pended_ne_idle (h : Full cfg k) (hp : (k.thread t).pendedOn ≠ none) : t ≠ cfg.idle :=
  fun heq => hp (heq ▸ h.idles.pendedOn)

theorem Full.pended_not_queued (h : Full cfg k) (hp : (k.thread t).pendedOn ≠ none) :
    (k.thread t).state.queued = false :=
  h.not_queued (not_ready_of_prevented (by simp [zIsThreadPreventedFromRunning, h.lists.pending t hp]))

end

section Record
variable (hq : (f (k.thread t)).state.queued = (k.thread t).state.queued)
  (hp : (f (k.thread t)).pendedOn = (k.thread t).pendedOn)
  (hw : (k.thread t).pendedOn ≠ none → (f (k.thread t)).state.pending = true)
  (ho : (f (k.thread t)).timeout = true → (k.thread t).timeout = true)

omit dO in
include ho in
theorem Full.timer_update (hc : (k.thread k.current).timeout = false) :
    ((k.update t f).thread (k.update t f).current).timeout = false := by
  rw [update_current, update_thread, ← Bool.not_eq_true]
  split
  · next heq =>
    intro hto
    rw [heq, ho hto] at hc
    cases hc
  · exact Bool.not_eq_true _ ▸ hc

omit dO in
include hq in
theorem CacheOk.update (h : CacheOk cfg k) : CacheOk cfg (k.update t f) := by
  refine h.congr rfl fun u hu => ?_
  rw [update_thread]
  split
  · next heq => rw [hq, ← heq, hu]
  · exact hu

omit dO in
include hq hp hw ho in
theorem Near.release (h : Near cfg k t) (hc : (k.thread k.current).timeout = false) (hcache : CacheOk cfg k)
    (ht : t ≠ cfg.idle) (hn : (k.thread t).state.queued = false) : Inv cfg (Sched.readyThread cfg (k.update t f) t) := by
  refine (h.update ht hq hp hw).inv_readyThread ht ?_ (Full.timer_update ho hc) (hcache.update hq)
  rw [update_thread, if_pos rfl, hq, hn]

omit dO in
include hq hp hw ho in
theorem Inv.release (h : Inv cfg k) (ht : t ≠ cfg.idle) (hn : (k.thread t).state.queued = false) :
    Inv cfg (readyThread cfg (k.update t f) t) :=
  (h.full.near t).release hq hp hw ho h.full.timer h.cache ht hn

omit dO in
include hq hp hw ho in
theorem Near.block (h : Near cfg k t) (hc : (k.thread k.current).timeout = false) (ht : t ≠ cfg.idle)
    (hn : (k.thread t).state.queued = false) (hr : zIsThreadPreventedFromRunning (f (k.thread t)) = true) :
    Full cfg (k.update t f) := by
  refine (h.update ht hq hp hw).full (exact_of_blocked ?_ ?_) (Full.timer_update ho hc)
  · rw [update_thread, if_pos rfl, hq, hn]
  · rw [update_thread, if_pos rfl, not_ready_of_prevented hr]

end Record

section
variable (h : Inv cfg k) (ht : t ≠ cfg.idle)
include h ht
omit dO

theorem Inv.zSchedStart : Inv cfg (zSchedStart cfg k t) := by
  rw [Sched.zSchedStart]
  split
  · next hp =>
    refine h.release rfl rfl (h.full.lists.pending t) id ht (h.full.not_queued (not_ready_of_prevented ?_))
    simp [zIsThreadPreventedFromRunning, hp]
  · exact h

theorem Inv.kThreadResume : Inv cfg (kThreadResume cfg k t) := by
  rw [Sched.kThreadResume]
  split
  · next hs =>
    refine h.release rfl rfl (h.full.lists.pending t) id ht (h.full.not_queued (not_ready_of_prevented ?_))
    simp [zIsThreadPreventedFromRunning, hs]
  · exact h

theorem Inv.dispose (hs : (k.thread t).state.pending = true)
    (hp : (k.thread t).pendedOn = none) :
    Inv cfg (readyThread cfg (k.update t fun th => { th with state.pending := false }) t) := by
  refine h.release rfl rfl (fun hw => absurd hp hw) id ht (h.full.not_queued (not_ready_of_prevented ?_))
  simp [zIsThreadPreventedFromRunning, hs]

theorem Inv.kWakeup : Inv cfg (kWakeup cfg k t) := by
  rw [Sched.kWakeup]
  split
  · exact h
  · split
    · exact h
    · next hp hno =>
      have hq : (k.thread t).state.queued = false := by
        cases hto : (k.thread t).timeout with
        | true => exact h.full.not_queued (not_ready_of_timeout hto)
        | false =>
          have hs : (k.thread t).state = { suspended := true } := by simpa [hto] using hno
          rw [hs]
      have hone : (zAbortThreadTimeout k t).update t (fun th => { th with state.suspended := false }) =
          k.update t fun th => { th with timeout := false, state.suspended := false } := by
        simp [Kernel.update, zAbortThreadTimeout]
      rw [hone]
      exact h.release rfl rfl (h.full.lists.pending t) nofun ht hq

theorem Inv.kThreadSuspend : Inv cfg (kThreadSuspend cfg k t) := by
  have ha : Near cfg (zAbortThreadTimeout k t) t := (h.full.near t).update ht rfl rfl (h.full.lists.pending t)
  have hd := ha.dequeueIfQueued ht
  refine (hd.block rfl rfl (hd.lists.pending t) id ?_ ht ?_ ?_).inv_updateCache
  · rw [dequeueIfQueued_current, dequeueIfQueued_thread]
    have htimer : ((zAbortThreadTimeout k t).thread (zAbortThreadTimeout k t).current).timeout = false :=
      Full.timer_update nofun h.full.timer
    split
    · next heq => exact heq ▸ htimer
    · exact htimer
  · rw [dequeueIfQueued_thread, if_pos rfl]
  · simp [zIsThreadPreventedFromRunning]

end

section
omit dO

theorem Full.requeue (h : Full cfg k) (hq : (k.thread t).state.queued = true)
    (hs : (f { k.thread t with state.queued := false }).state = { (k.thread t).state with queued := false })
    (hp : (f { k.thread t with state.queued := false }).pendedOn = (k.thread t).pendedOn)
    (ho : (f { k.thread t with state.queued := false }).timeout = (k.thread t).timeout) :
    Full cfg (queueThread cfg ((dequeueThread k t).update t f) t) := by
  have ht : t ≠ cfg.idle := ((h.exact t).mp hq).2
  have hone : ((dequeueThread k t).thread t) = { k.thread t with state.queued := false } := by
    rw [dequeueThread_thread, if_pos rfl]
  have hd := (h.near t).dequeueThread ht hq
  have hu : Near cfg ((dequeueThread k t).update t f) t :=
    hd.update ht (by rw [hone, hs]) (by rw [hone, hp]) fun hw => by
      rw [hone] at hw ⊢
      rw [hs]
      exact h.lists.pending t hw
  have hf : ((dequeueThread k t).update t f).thread t = f { k.thread t with state.queued := false } := by
    rw [update_thread, if_pos rfl, hone]
  refine (hu.queueThread ht ?_).full ?_ ?_
  · rw [hf, hs]
  · rw [Exact, queueThread_thread, if_pos rfl]
    refine iff_of_true rfl ⟨?_, ht⟩
    have hr := ((h.exact t).mp hq).1
    rw [hf]
    simp only [zIsThreadReady, zIsThreadPreventedFromRunning, hs, ho] at hr ⊢
    exact hr
  · rw [queueThread_current, queueThread_thread, update_current, dequeueThread_current]
    split
    · next heq => rw [hf, ho, ← heq, h.timer]
    · next hne => rw [update_thread, if_neg hne, dequeueThread_thread, if_neg hne, h.timer]

theorem Inv.zSetPrio (h : Inv cfg k) (ht : t ≠ cfg.idle) {prio : BitVec 8} : Inv cfg (zSetPrio cfg k t prio) := by
  rw [Sched.zSetPrio]
  split
  · next hr => exact (h.full.requeue ((h.full.exact t).mpr ⟨hr, ht⟩) rfl rfl rfl).inv_updateCache
  · exact ⟨h.full.update ht rfl rfl rfl, h.cache.update rfl⟩

theorem Inv.kSchedLock (h : Inv cfg k) (hc : k.current ≠ cfg.idle) : Inv cfg (kSchedLock k) :=
  ⟨h.full.update hc rfl rfl rfl, h.cache.update rfl⟩

theorem Inv.kSchedUnlock (h : Inv cfg k) (hc : k.current ≠ cfg.idle) : Inv cfg (kSchedUnlock cfg k) :=
  (h.full.update hc rfl rfl rfl).inv_updateCache

theorem Full.requeue_same (h : Full cfg k) (hq : (k.thread t).state.queued = true) :
    Full cfg (queueThread cfg (dequeueThread k t) t) := by
  have hr := h.requeue (f := id) hq rfl rfl rfl
  rwa [Kernel.update, id, Function.update_eq_self] at hr

theorem Inv.kThreadDeadlineSet (h : Inv cfg k) (ht : t ≠ cfg.idle) {deadline : BitVec 32} :
    Inv cfg (kThreadDeadlineSet cfg k t deadline) := by
  have hf : Full cfg (k.update t fun th => { th with prioDeadline := deadline }) := h.full.update ht rfl rfl rfl
  have hc : CacheOk cfg (k.update t fun th => { th with prioDeadline := deadline }) := h.cache.update rfl
  rw [Sched.kThreadDeadlineSet]
  split
  · next hq =>
    refine ⟨hf.requeue_same hq, hc.congr rfl fun u hu => ?_⟩
    rw [queueThread_thread]
    split
    · rfl
    · next hne => rwa [dequeueThread_thread, if_neg hne]
  · exact ⟨hf, hc⟩

end

omit dT dO in
theorem Full.current_queued (h : Full cfg k) (hc : Calling cfg k) : (k.thread k.current).state.queued = true :=
  (h.exact _).mpr ⟨by rw [zIsThreadReady, hc.2, h.timer]; rfl, hc.1⟩

omit dO in
theorem Inv.kYield (h : Inv cfg k) (hc : Calling cfg k) : Inv cfg (kYield cfg k) :=
  (h.full.requeue_same (h.full.current_queued hc)).inv_updateCache.zSwap

omit dO in
theorem Inv.zTimeSlice (h : Inv cfg k) : Inv cfg (zTimeSlice cfg k) := by
  rw [Sched.zTimeSlice]
  split
  · next hs =>
    rw [Bool.and_eq_true, Bool.and_eq_true, Bool.not_eq_true'] at hs
    have hidle : k.current ≠ cfg.idle := fun heq => by
      have hsl := hs.1.2
      rw [heq] at hsl
      simp [sliceable, h.full.idles.slice] at hsl
    have hq := h.full.current_queued ⟨hidle, hs.2⟩
    rw [moveThreadToEndOfPrioQ, dequeueIfQueued, if_pos hq]
    exact (h.full.requeue_same hq).inv_updateCache
  · exact h

/-! ### Calls that wait -/

section
omit dO

theorem zAddThreadTimeout_eq (h : (k.thread t).timeout = false) :
    zAddThreadTimeout k t = k.update t fun th => { th with timeout := true } := by
  rw [zAddThreadTimeout, h, Bool.or_false]
  rfl

theorem Near.zAddThreadTimeout (h : Near cfg k t) (ht : t ≠ cfg.idle) (ho : (k.thread t).timeout = false) :
    Near cfg (zAddThreadTimeout k t) t := by
  rw [zAddThreadTimeout_eq ho]
  exact h.update ht rfl rfl (h.lists.pending t)

theorem Near.addThreadTimeout (h : Near cfg k t) (ht : t ≠ cfg.idle) (ho : (k.thread t).timeout = false)
    (timeout : KTimeout) : Near cfg (addThreadTimeout k t timeout) t := by
  have hf : Near cfg (k.update t fun th => { th with finite := timeout ≠ .forever }) t :=
    h.update ht rfl rfl (h.lists.pending t)
  rw [Sched.addThreadTimeout]
  split
  · exact hf
  · exact hf.zAddThreadTimeout ht (by rw [update_thread, if_pos rfl, ho])

theorem addThreadTimeout_state {timeout : KTimeout} :
    ((addThreadTimeout k t timeout).thread u).state = (k.thread u).state := by
  rw [addThreadTimeout]
  split
  · rw [update_thread]
    split
    · next heq => rw [heq]
    · rfl
  · simp only [Sched.zAddThreadTimeout, update_thread]
    split
    · next heq => simp [heq]
    · rfl

@[simp] theorem addThreadTimeout_cache {timeout : KTimeout} : (addThreadTimeout k t timeout).cache = k.cache := by
  rw [addThreadTimeout]
  split <;> rfl

end

omit dT dO in
theorem Near.cacheOk_updateCache (h : Near cfg k t) : CacheOk cfg (Sched.updateCache cfg k true) := by
  exact h.lists.nextUp

section
omit dO

theorem unreadyThread_thread : (unreadyThread cfg k t).thread u =
    if u = t then { k.thread t with state.queued := false } else k.thread u := dequeueIfQueued_thread

theorem Near.unreadyThread (h : Near cfg k t) (ht : t ≠ cfg.idle) : Near cfg (unreadyThread cfg k t) t :=
  (h.dequeueIfQueued ht).updateCache

theorem Full.cacheOk_unready (h : Full cfg k) (hc : Calling cfg k) : CacheOk cfg (unreadyThread cfg k k.current) := by
  rw [Sched.unreadyThread, decide_eq_true rfl]
  exact ((h.near k.current).dequeueIfQueued hc.1).cacheOk_updateCache

theorem Inv.zTickSleep (h : Inv cfg k) (hc : Calling cfg k) : Inv cfg (zTickSleep cfg k) := by
  have hu := (h.full.near k.current).unreadyThread hc.1
  have hto : ((Sched.unreadyThread cfg k k.current).thread k.current).timeout = false := by
    rw [unreadyThread_thread, if_pos rfl, h.full.timer]
  rw [Sched.zTickSleep, zAddThreadTimeout_eq hto]
  have ha : Near cfg ((Sched.unreadyThread cfg k k.current).update k.current fun th => { th with timeout := true })
      k.current := hu.update hc.1 rfl rfl (hu.lists.pending _)
  refine (ha.update hc.1 rfl rfl (ha.lists.pending _)).inv_zSwap (exact_of_blocked ?_ ?_)
    (((h.full.cacheOk_unready hc).update rfl).update rfl)
  · simp [unreadyThread_thread]
  · exact not_ready_of_prevented (by simp [zIsThreadPreventedFromRunning])

end

omit dT dO in
theorem Full.not_pended (h : Full cfg k) (hc : Calling cfg k) : (k.thread k.current).pendedOn = none := by
  by_contra hp
  have hpp := h.lists.pending _ hp
  have hcc := hc.2
  simp [zIsThreadPreventedFromRunning, hpp] at hcc

theorem addToWaitq_cache {w : Option (WaitQ T O)} : (addToWaitqLocked cfg k t w).cache = (unreadyThread cfg k t).cache := by
  cases w <;> rfl

theorem Inv.pend (h : Inv cfg k) (hc : Calling cfg k) (w : Option (WaitQ T O)) (timeout : KTimeout) :
    Inv cfg (Sched.zSwap (pend cfg k k.current w timeout)) := by
  have hw := (h.full.near k.current).addToWaitq hc.1 (h.full.not_pended hc) w
  have hto : ((addToWaitqLocked cfg k k.current w).thread k.current).timeout = false := by
    rw [addToWaitq_thread, if_pos rfl, h.full.timer]
  refine (hw.addThreadTimeout hc.1 hto timeout).inv_zSwap (exact_of_blocked ?_ (not_ready_of_prevented ?_)) ?_
  · rw [addThreadTimeout_state, addToWaitq_thread, if_pos rfl]
  · rw [zIsThreadPreventedFromRunning, addThreadTimeout_state, addToWaitq_thread, if_pos rfl]
    rfl
  · refine (h.full.cacheOk_unready hc).congr (by rw [addThreadTimeout_cache, addToWaitq_cache]) fun u hu => ?_
    rw [addThreadTimeout_state, addToWaitq_thread]
    rw [unreadyThread_thread] at hu
    split
    · next heq =>
      rw [if_pos heq] at hu
      exact hu
    · next hne => rwa [if_neg hne] at hu

theorem Inv.kThreadJoin (h : Inv cfg k) (hc : Calling cfg k) (timeout : KTimeout) : Inv cfg (kThreadJoin cfg k t timeout) := by
  rw [Sched.kThreadJoin]
  split
  · exact h
  · split
    · exact h
    · split
      · exact h
      · exact h.pend hc _ timeout

omit dO in
theorem Inv.kSleep (h : Inv cfg k) (hc : Calling cfg k) : ∀ timeout, Inv cfg (kSleep cfg k timeout)
  | .noWait => h.kYield hc
  | .ticks => h.zTickSleep hc
  | .forever => h.kThreadSuspend hc.1

/-! ### Wake-ups and the ends of threads -/

theorem Full.unpendAndReady (h : Full cfg k) (hp : (k.thread t).pendedOn ≠ none) :
    Full cfg (unpendAndReady cfg k t) ∧ (CacheOk cfg k → CacheOk cfg (unpendAndReady cfg k t)) := by
  obtain ⟨q, hq⟩ := Option.ne_none_iff_exists'.mp hp
  have ht := h.pended_ne_idle hp
  have hu := (h.near t).unpend ht hp
  have ha : Near cfg (zAbortThreadTimeout (unpendThreadNoTimeout k t) t) t := hu.update ht rfl rfl (hu.lists.pending t)
  have hstate : ∀ u, ((zAbortThreadTimeout (unpendThreadNoTimeout k t) t).thread u).state.queued =
      (k.thread u).state.queued := fun u => by
    rw [zAbortThreadTimeout, update_thread, unpend_thread hq, unpend_thread hq]
    split
    · next heq => rw [if_pos rfl, heq]
    · rfl
  have hr := ha.readyThread ht (by rw [hstate, h.pended_not_queued hp]) <| by
    refine Full.timer_update nofun ?_
    rw [unpend_current, unpend_thread hq]
    split
    · next heq => exact heq ▸ h.timer
    · exact h.timer
  exact ⟨hr.1, fun hc => hr.2 (hc.congr unpend_cache fun u hu => by rw [hstate, hu])⟩

omit dT dO in
theorem Lists.pendedOn_of_head (h : Lists k) (hh : (k.waitq q).head? = some t) : (k.thread t).pendedOn = some q :=
  (h.pendedOn q t).mp (List.mem_of_mem_head? hh)

theorem Full.unpendLoop (h : Full cfg k) (n : Nat) :
    Full cfg (unpendLoop cfg q n k) ∧ (CacheOk cfg k → CacheOk cfg (unpendLoop cfg q n k)) := by
  induction n generalizing k with
  | zero => exact ⟨h, id⟩
  | succ n ih =>
    rw [Sched.unpendLoop]
    split
    · exact ⟨h, id⟩
    · next t hh =>
      have hw := h.unpendAndReady (by rw [h.lists.pendedOn_of_head hh]; nofun)
      exact ⟨(ih hw.1).1, fun hc => (ih hw.1).2 (hw.2 hc)⟩

theorem Inv.zSchedWake (h : Inv cfg k) : Inv cfg (zSchedWake cfg k q) := by
  rw [Sched.zSchedWake]
  split
  · exact h
  · next t hh =>
    have hw := h.full.unpendAndReady (by rw [h.full.lists.pendedOn_of_head hh]; nofun)
    exact ⟨hw.1, hw.2 h.cache⟩

theorem Inv.unpendAll (h : Inv cfg k) : Inv cfg (unpendAll cfg k q) :=
  have hw := h.full.unpendLoop (q := q) (k.waitq q).length
  ⟨hw.1, hw.2 h.cache⟩

theorem Near.unpendIf (h : Near cfg k t) (ht : t ≠ cfg.idle) :
    Near cfg (if (k.thread t).pendedOn ≠ none then unpendThreadNoTimeout k t else k) t := by
  split
  · next hp => exact h.unpend ht hp
  · exact h

theorem unpendIf_thread : ((if (k.thread t).pendedOn ≠ none then unpendThreadNoTimeout k t else k).thread u) =
    if u = t then
      { k.thread t with
        state.pending := (k.thread t).state.pending && (k.thread t).pendedOn = none, pendedOn := none }
    else k.thread u := by
  cases hp : (k.thread t).pendedOn with
  | none =>
    rw [if_neg (not_not_intro rfl)]
    split
    · next heq => rw [heq]; simp [← hp]
    · rfl
  | some q =>
    rw [if_pos nofun, unpend_thread hp]
    simp

@[simp] theorem unpendIf_current :
    (if (k.thread t).pendedOn ≠ none then unpendThreadNoTimeout k t else k).current = k.current := by
  split
  · exact unpend_current
  · rfl

@[simp] theorem unpendIf_cache :
    (if (k.thread t).pendedOn ≠ none then unpendThreadNoTimeout k t else k).cache = k.cache := by
  split
  · exact unpend_cache
  · rfl

theorem unpendIf_timer (hc : (k.thread k.current).timeout = false) :
    ((if (k.thread t).pendedOn ≠ none then unpendThreadNoTimeout k t else k).thread k.current).timeout = false := by
  rw [unpendIf_thread]
  split
  · next heq => exact heq ▸ hc
  · exact hc

theorem Inv.threadTimeout (h : Inv cfg k) (hto : (k.thread t).timeout = true) :
    Inv cfg (zThreadTimeout cfg (zAbortThreadTimeout k t) t) := by
  have ht : t ≠ cfg.idle := fun heq => by
    rw [heq, h.full.idles.timeout] at hto
    cases hto
  have hq := h.full.not_queued (not_ready_of_timeout hto)
  have ha : Near cfg (zAbortThreadTimeout k t) t := (h.full.near t).update ht rfl rfl (h.full.lists.pending t)
  have htimer : ((zAbortThreadTimeout k t).thread (zAbortThreadTimeout k t).current).timeout = false :=
    Full.timer_update nofun h.full.timer
  have hqa : ((zAbortThreadTimeout k t).thread t).state.queued = false := by
    rw [zAbortThreadTimeout, update_thread, if_pos rfl, hq]
  have hca : CacheOk cfg (zAbortThreadTimeout k t) := h.cache.update rfl
  generalize zAbortThreadTimeout k t = k' at ha htimer hqa hca ⊢
  rw [zThreadTimeout]
  split
  · next hd =>
    have hb : zIsThreadReady (k'.thread t) = false := not_ready_of_prevented (by simp [zIsThreadPreventedFromRunning, hd])
    exact ⟨ha.full (exact_of_blocked hqa hb) htimer, hca⟩
  · have hu := ha.unpendIf ht
    refine hu.release rfl rfl (hu.lists.pending t) id ?_ (hca.congr unpendIf_cache fun u hqu => ?_) ht ?_
    · rw [unpendIf_current]
      exact unpendIf_timer htimer
    · rw [unpendIf_thread]
      split
      · next heq => exact heq ▸ hqu
      · exact hqu
    · rw [unpendIf_thread, if_pos rfl, hqa]

theorem unpendIf_waitq : (if (k.thread t).pendedOn ≠ none then unpendThreadNoTimeout k t else k).waitq q =
    if (k.thread t).pendedOn = some q then (k.waitq q).erase t else k.waitq q := by
  cases hp : (k.thread t).pendedOn with
  | none => rw [if_neg (not_not_intro rfl), if_neg nofun]
  | some q' =>
    rw [if_pos nofun, unpend_waitq hp]
    by_cases heq : q = q'
    · rw [if_pos heq, heq, if_pos rfl]
    · rw [if_neg heq, if_neg fun he => heq (Option.some.inj he).symm]

theorem endSelf_thread : (endSelf k t).thread u =
    if u = t then
      { k.thread t with
        state.dead := true, state.queued := false, state.pending := (k.thread t).state.pending && (k.thread t).pendedOn = none,
        pendedOn := none, timeout := false }
    else k.thread u := by
  rw [endSelf]
  rw [zAbortThreadTimeout, update_thread, unpendIf_thread, unpendIf_thread, dequeueIfQueued_thread, dequeueIfQueued_thread,
    update_thread, update_thread]
  split
  · simp
  · rfl

theorem endSelf_other (hu : u ≠ t) : (endSelf k t).thread u = k.thread u := by rw [endSelf_thread, if_neg hu]

theorem endSelf_waitq :
    (endSelf k t).waitq q = if (k.thread t).pendedOn = some q then (k.waitq q).erase t else k.waitq q := by
  rw [endSelf]
  rw [zAbortThreadTimeout, update_waitq, unpendIf_waitq, dequeueIfQueued_waitq, dequeueIfQueued_thread, if_pos rfl,
    update_thread, if_pos rfl]
  rfl

theorem mem_endSelf_waitq (hw : u ∈ (endSelf k t).waitq q) : u ∈ k.waitq q := by
  rw [endSelf_waitq] at hw
  split at hw
  · exact mem_of_mem_erase hw
  · exact hw

@[simp] theorem endSelf_current : (endSelf k t).current = k.current := by
  rw [endSelf]
  rw [zAbortThreadTimeout, update_current, unpendIf_current, dequeueIfQueued_current, update_current]

@[simp] theorem endSelf_cache : (endSelf k t).cache = k.cache := by
  rw [endSelf]
  rw [zAbortThreadTimeout, update_cache, unpendIf_cache, dequeueIfQueued_cache, update_cache]

theorem endSelf_runq (h : Lists k) : (endSelf k t).runq = k.runq.erase t := by
  rw [endSelf]
  rw [zAbortThreadTimeout, update_runq]
  have hu : (if ((dequeueIfQueued (k.update t fun th => { th with state.dead := true }) t).thread t).pendedOn ≠ none then
      unpendThreadNoTimeout (dequeueIfQueued (k.update t fun th => { th with state.dead := true }) t) t
      else dequeueIfQueued (k.update t fun th => { th with state.dead := true }) t).runq =
      (dequeueIfQueued (k.update t fun th => { th with state.dead := true }) t).runq := by
    split
    · exact unpend_runq
    · rfl
  rw [hu, dequeueIfQueued]
  split
  · rfl
  · next hq =>
    rw [update_thread, if_pos rfl] at hq
    have hn : t ∉ k.runq := by rwa [h.queued]
    exact (erase_of_not_mem hn).symm

theorem Full.endSelf (h : Full cfg k) (ht : t ≠ cfg.idle) : Full cfg (endSelf k t) := by
  rw [Sched.endSelf]
  have hm : Near cfg (k.update t fun th => { th with state.dead := true }) t :=
    (h.near t).update ht rfl rfl (h.lists.pending t)
  have hmt : ((k.update t fun th => { th with state.dead := true }).thread k.current).timeout = false :=
    Full.timer_update id h.timer
  have hmd : ((k.update t fun th => { th with state.dead := true }).thread t).state.dead = true := by
    rw [update_thread, if_pos rfl]
  have hmc : (k.update t fun th => { th with state.dead := true }).current = k.current := rfl
  generalize k.update t (fun th => { th with state.dead := true }) = k₁ at hm hmt hmd hmc ⊢
  have hd := hm.dequeueIfQueued ht
  have hdt : ((dequeueIfQueued k₁ t).thread (dequeueIfQueued k₁ t).current).timeout = false := by
    rw [dequeueIfQueued_current, hmc, dequeueIfQueued_thread]
    split
    · next heq => exact heq ▸ hmt
    · exact hmt
  have hdd : ((dequeueIfQueued k₁ t).thread t).state.dead = true ∧
      ((dequeueIfQueued k₁ t).thread t).state.queued = false := by
    rw [dequeueIfQueued_thread, if_pos rfl]
    exact ⟨hmd, rfl⟩
  generalize dequeueIfQueued k₁ t = k₂ at hd hdt hdd ⊢
  have hu := hd.unpendIf ht
  refine hu.block rfl rfl (hu.lists.pending t) nofun ?_ ht ?_ ?_
  · rw [unpendIf_current]
    exact unpendIf_timer hdt
  · rw [unpendIf_thread, if_pos rfl, hdd.2]
  · rw [unpendIf_thread, if_pos rfl]
    simp [zIsThreadPreventedFromRunning, hdd.1]

theorem Inv.endThread (h : Inv cfg k) (ht : t ≠ cfg.idle) : Inv cfg (endThread cfg k t) := by
  rw [Sched.endThread]
  split
  · exact h
  · exact ((h.full.endSelf ht).unpendLoop _).1.inv_updateCache

/-! ## Runs -/

omit dO in
theorem Inv.startDelayed (h : Inv cfg k) (ht : t ≠ cfg.idle) (hc : t ≠ k.current) (hp : (k.thread t).state.prestart = true)
    (ho : (k.thread t).timeout = false) : Inv cfg (zAddThreadTimeout k t) := by
  have hq : (k.thread t).state.queued = false :=
    h.full.not_queued (not_ready_of_prevented (by simp [zIsThreadPreventedFromRunning, hp]))
  have ha := (h.full.near t).zAddThreadTimeout ht ho
  rw [zAddThreadTimeout_eq ho] at ha ⊢
  refine ⟨ha.full (exact_of_blocked ?_ (not_ready_of_prevented ?_)) ?_, h.cache.update rfl⟩
  · rw [update_thread, if_pos rfl, hq]
  · simp [zIsThreadPreventedFromRunning, hp]
  · rw [update_current, update_thread, if_neg hc.symm, h.full.timer]

theorem Inv.step {e : Event T O} (h : Inv cfg k) (hs : step cfg k e = .ok k') : Inv cfg k' := by
  rw [Sched.step] at hs
  split at hs
  · next hen =>
    cases hs
    cases e with
    | yield => exact h.kYield hen
    | sleep timeout => exact h.kSleep hen timeout
    | pend w timeout => exact h.pend hen.1 w timeout
    | join t timeout => exact h.kThreadJoin hen timeout
    | lock => exact h.kSchedLock hen.1.1
    | unlock => exact h.kSchedUnlock hen.1.1
    | setPrio t prio => exact h.zSetPrio hen.2
    | start t => exact h.zSchedStart hen
    | startDelayed t => exact h.startDelayed hen.1 hen.2.1 hen.2.2.1 (Bool.not_eq_true _ ▸ hen.2.2.2.2)
    | suspend t => exact h.kThreadSuspend hen
    | resume t => exact h.kThreadResume hen
    | wake q => exact h.zSchedWake
    | wakeAll q => exact h.unpendAll
    | wakeThread t =>
      have hw := h.full.unpendAndReady hen
      exact ⟨hw.1, hw.2 h.cache⟩
    | dispose t => exact h.dispose hen.1 hen.2.1 hen.2.2
    | timeout t => exact h.threadTimeout hen
    | wakeup t => exact h.kWakeup hen
    | abort t => exact h.endThread hen
    | timeSlice => exact h.zTimeSlice
    | deadlineSet t deadline => exact h.kThreadDeadlineSet hen
    | switch => exact h.zSwap
  · cases hs

/-- The kernel as `main` begins to run: every other thread but the idle one is still to be started, or is a
stand-in that never runs. -/
structure Booted (cfg : Config T) (k : Kernel T O) : Prop where
  current_ne : k.current ≠ cfg.idle
  cache : k.cache = k.current
  runq : k.runq = [k.current]
  running : (k.thread k.current).state = { queued := true }
  idle : (k.thread cfg.idle).state = {} ∧ (k.thread cfg.idle).sliceTicks = 0
  others : ∀ t, t ≠ k.current → t ≠ cfg.idle →
    (k.thread t).state = { prestart := true } ∨ (k.thread t).state = { dummy := true }
  waitq : ∀ q, k.waitq q = []
  waiting : ∀ t, (k.thread t).pendedOn = none ∧ (k.thread t).timeout = false
  clock : (k.thread k.current).queuedAt < k.clock
  fault : k.fault = false

omit dO in
theorem Booted.not_queued (h : Booted cfg k) (ht : t ≠ k.current) : (k.thread t).state.queued = false := by
  by_cases hi : t = cfg.idle
  · rw [hi, h.idle.1]
  · rcases h.others t ht hi with hs | hs <;> rw [hs]

omit dO in
theorem Booted.inv (h : Booted cfg k) : Inv cfg k := by
  refine ⟨⟨⟨?_, fun t => ?_, fun q => ?_, fun q t => ?_, fun t ht => absurd (h.waiting t).1 ht, h.fault⟩, fun t => ?_,
    ⟨(h.waiting _).2, (h.waiting _).1, h.idle.2⟩, (h.waiting _).2⟩, Or.inr ?_⟩
  · rw [h.runq]
    exact nodup_singleton _
  · rw [h.runq, mem_singleton]
    by_cases ht : t = k.current
    · rw [ht, h.running]
      exact iff_of_true rfl rfl
    · rw [h.not_queued ht]
      exact iff_of_false ht nofun
  · rw [h.waitq]
    exact nodup_nil
  · rw [h.waitq, (h.waiting t).1]
    exact iff_of_false nofun nofun
  · by_cases ht : t = k.current
    · have hq : zIsThreadReady (k.thread t) = true := by
        simp [zIsThreadReady, zIsThreadPreventedFromRunning, ht, h.running, (h.waiting k.current).2]
      rw [Exact, hq, ht, h.running]
      exact iff_of_true rfl ⟨rfl, h.current_ne⟩
    · by_cases hi : t = cfg.idle
      · rw [Exact, h.not_queued ht]
        exact iff_of_false nofun fun hr => hr.2 hi
      · refine exact_of_blocked (h.not_queued ht) (not_ready_of_prevented ?_)
        rcases h.others t ht hi with hs | hs <;> rw [zIsThreadPreventedFromRunning, hs] <;> rfl
  · rw [h.cache, h.running]

theorem Inv.run {es : List (Event T O)} (h : Inv cfg k) (hrun : run (Sched.step cfg) k es = .ok k') : Inv cfg k' :=
  run_inv (fun _ _ _ hk _ hs => hk.step hs) h (Along.of_all (fun _ _ => trivial) k) hrun

/-- The idle thread 0, `main`, which is 1, and two threads still to be started. -/
def exampleThread (state : ThreadState) (prio : BitVec 8) : Thread Nat Unit where
  state := state
  prio := prio
  schedLocked := 0
  prioDeadline := 0
  sliceTicks := 0
  pendedOn := none
  timeout := false
  finite := false
  queuedAt := 0

def exampleConfig : Config Nat where
  idle := 0
  schedDeadline := true
  swapNonatomic := false
  sliceTicks := 10
  sliceMaxPrio := 0

def exampleKernel (prio : Nat → BitVec 8) : Kernel Nat Unit where
  thread t := exampleThread (if t = 0 then {} else if t = 1 then { queued := true } else { prestart := true }) (prio t)
  runq := [1]
  cache := 1
  current := 1
  waitq _ := []
  clock := 1
  fault := false

theorem exampleKernel_booted (prio : Nat → BitVec 8) : Booted exampleConfig (exampleKernel prio) where
  current_ne := nofun
  cache := rfl
  runq := rfl
  running := rfl
  idle := ⟨rfl, rfl⟩
  others _ h1 h0 := Or.inl ((if_neg h0).trans (if_neg h1))
  waitq _ := rfl
  waiting _ := ⟨rfl, rfl⟩
  clock := Nat.one_pos
  fault := rfl

/-- The thread that runs next is the idle thread or a ready one in the run queue; the idle thread is in no
queue; and the current thread has no timeout. -/
theorem next_thread_ready {es : List (Event T O)} (h : Booted cfg k) (hrun : run (step cfg) k es = .ok k') :
    (k'.cache = cfg.idle ∨ zIsThreadReady (k'.thread k'.cache) = true ∧ k'.cache ∈ k'.runq) ∧
    cfg.idle ∉ k'.runq ∧ (∀ q, cfg.idle ∉ k'.waitq q) ∧ (k'.thread k'.current).timeout = false := by
  have hi := h.inv.run hrun
  have hl := hi.full.lists
  refine ⟨hi.cache.imp_right fun hq => ⟨((hi.full.exact _).mp hq).1, (hl.queued _).mpr hq⟩, fun hm => ?_,
    fun q hm => ?_, hi.full.timer⟩
  · exact ((hi.full.exact _).mp ((hl.queued _).mp hm)).2 rfl
  · have hq := (hl.pendedOn q _).mp hm
    rw [hi.full.idles.pendedOn] at hq
    cases hq

theorem next_thread_ready_four : ∃ k', run (step exampleConfig) (exampleKernel fun t => BitVec.ofNat 8 (4 - t))
      [.start 2, .switch, .pend (some (.object ())) .ticks, .wake (.object ())] = .ok k' ∧
      zIsThreadReady (k'.thread 2) = true ∧ 2 ∈ k'.runq ∧ 0 ∉ k'.runq :=
  Lib.Runs.exists_ok_that (P := fun k => k.cache = 2) (by decide +kernel) fun k' hrun hcache => by
    obtain ⟨hnext, hidle, -⟩ := next_thread_ready (exampleKernel_booted _) hrun
    rw [hcache] at hnext
    obtain ⟨hready, hin⟩ := hnext.resolve_left (by decide)
    exact ⟨hready, hin, hidle⟩

end RtosKernel.Zephyr.Sched
