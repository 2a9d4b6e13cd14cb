import Mathlib.Algebra.Group.Int.Defs
import RtosKernel.Zephyr.SchedMembership

/-! # The cached thread

The cache holds the first thread of the run queue, or the running one while that must not be preempted. All
operations keep this but one: `k_thread_deadline_set` moves a queued thread and leaves the cache as it is. -/
namespace RtosKernel.Zephyr.Sched
open Lib.Runs List

variable {T O : Type} [dT : DecidableEq T] [dO : DecidableEq O] {cfg : Config T} {k k' : Kernel T O} {t u : T}
  {f : Thread T O → Thread T O} {q : WaitQ T O} {x y z : Thread T O} {b : Bool} {base : BitVec 32}

omit dT dO in
theorem isPreempt_iff : isPreempt x = true ↔ x.schedLocked = 0 ∧ 0 ≤ x.prio.toInt := by
  have hp := x.prio.isLt
  have hn : (x.schedLocked ++ x.prio).toNat = x.schedLocked.toNat * 256 + x.prio.toNat := by
    rw [BitVec.toNat_append, Nat.shiftLeft_eq, Nat.mul_comm, ← Nat.two_pow_add_eq_or_of_lt hp]
  have hz : x.schedLocked = 0 ↔ x.schedLocked.toNat = 0 := BitVec.toNat_inj.symm
  rw [isPreempt, decide_eq_true_iff, hn, hz, BitVec.toInt_eq_toNat_cond]
  split <;> omega

/-! ## The order of the run queue -/

/-- A thread's deadline, counted from `base`. -/
def offset (cfg : Config T) (base : BitVec 32) (x : Thread T O) : Nat :=
  if cfg.schedDeadline then (x.prioDeadline - base).toNat else 0

/-- What `z_sched_prio_cmp` orders by: the priority, then the deadline. -/
def rank (cfg : Config T) (base : BitVec 32) (x : Thread T O) : Int :=
  x.prio.toInt * 2 ^ 31 + offset cfg base x

/-- The deadline lies in the half of the cycle range that begins at `base`. -/
def InHalf (cfg : Config T) (base : BitVec 32) (x : Thread T O) : Prop := offset cfg base x < 2 ^ 31

theorem toInt_sub_of_half {d₁ d₂ : BitVec 32} (h₁ : (d₁ - base).toNat < 2 ^ 31) (h₂ : (d₂ - base).toNat < 2 ^ 31) :
    (d₂ - d₁).toInt = (d₂ - base).toNat - (d₁ - base).toNat := by
  rw [BitVec.toInt_eq_toNat_cond]
  simp only [BitVec.toNat_sub] at h₁ h₂ ⊢
  split <;> omega

omit dT dO in
theorem zSchedPrioCmp_sign (hx : InHalf cfg base x) (hy : InHalf cfg base y) :
    (0 < zSchedPrioCmp cfg x y ↔ rank cfg base x < rank cfg base y) ∧
    (zSchedPrioCmp cfg x y = 0 ↔ rank cfg base x = rank cfg base y) := by
  simp only [InHalf] at hx hy
  rw [zSchedPrioCmp, rank, rank]
  by_cases hp : x.prio = y.prio
  · rw [if_neg (not_not_intro hp), hp]
    split
    · next hd =>
      simp only [offset, hd.1, if_true] at hx hy ⊢
      rw [toInt_sub_of_half hx hy]
      omega
    · next hd =>
      have ho : offset cfg base x = offset cfg base y := by
        rw [offset, offset]
        split
        · next hs => rw [not_not.mp fun hne => hd ⟨hs, hne⟩]
        · rfl
      omega
  · have hne : x.prio.toInt ≠ y.prio.toInt := fun heq => hp (BitVec.toInt_inj.mp heq)
    rw [if_pos hp]
    omega

/-- `x` is chosen before `y`: it compares higher, or the same and was queued earlier. -/
def Before (cfg : Config T) (x y : Thread T O) : Prop :=
  0 < zSchedPrioCmp cfg x y ∨ zSchedPrioCmp cfg x y = 0 ∧ x.queuedAt < y.queuedAt
  deriving Decidable

omit dT dO in
theorem before_iff (hx : InHalf cfg base x) (hy : InHalf cfg base y) :
    Before cfg x y ↔ rank cfg base x < rank cfg base y ∨ rank cfg base x = rank cfg base y ∧ x.queuedAt < y.queuedAt := by
  rw [Before, (zSchedPrioCmp_sign hx hy).1, (zSchedPrioCmp_sign hx hy).2]

/-- The queued threads are in order, and entered the queue in the past. -/
structure Ranked (cfg : Config T) (k : Kernel T O) : Prop where
  sorted : k.runq.Pairwise fun t u => Before cfg (k.thread t) (k.thread u)
  clock : ∀ t ∈ k.runq, (k.thread t).queuedAt < k.clock

/-- The deadlines of the queued threads lie within one half of the cycle range. -/
def Within (cfg : Config T) (base : BitVec 32) (k : Kernel T O) : Prop := ∀ t ∈ k.runq, InHalf cfg base (k.thread t)

/-- What a thread's place in the queue depends on. -/
def SameKey (x y : Thread T O) : Prop :=
  x.prio = y.prio ∧ x.prioDeadline = y.prioDeadline ∧ x.queuedAt = y.queuedAt

omit dT dO in
theorem SameKey.before {x' y' : Thread T O} (hx : SameKey x' x) (hy : SameKey y' y) :
    Before cfg x' y' ↔ Before cfg x y := by
  rw [Before, Before, zSchedPrioCmp, zSchedPrioCmp, hx.1, hx.2.1, hx.2.2, hy.1, hy.2.1, hy.2.2]

/-- Threads may leave the run queue; the places of the others stay. -/
structure Quieter (k k' : Kernel T O) : Prop where
  runq : k'.runq.Sublist k.runq
  clock : k.clock ≤ k'.clock
  key : ∀ t, SameKey (k'.thread t) (k.thread t)

omit dT dO in
theorem SameKey.trans (h : SameKey x y) (h' : SameKey y z) : SameKey x z :=
  ⟨h.1.trans h'.1, h.2.1.trans h'.2.1, h.2.2.trans h'.2.2⟩

omit dT dO in
theorem Quieter.trans {k'' : Kernel T O} (h : Quieter k k') (h' : Quieter k' k'') : Quieter k k'' :=
  ⟨h'.runq.trans h.runq, h.clock.trans h'.clock, fun t => (h'.key t).trans (h.key t)⟩

section
omit dO

theorem Quieter.update (hk : SameKey (f (k.thread t)) (k.thread t)) : Quieter k (k.update t f) := by
  refine ⟨.refl _, Nat.le_refl _, fun u => ?_⟩
  rw [update_thread]
  split
  · next heq => exact heq ▸ hk
  · exact ⟨rfl, rfl, rfl⟩

theorem Quieter.dequeueThread : Quieter k (dequeueThread k t) := by
  refine ⟨erase_sublist, Nat.le_refl _, fun u => ?_⟩
  rw [dequeueThread_thread]
  split
  · next heq => exact heq ▸ ⟨rfl, rfl, rfl⟩
  · exact ⟨rfl, rfl, rfl⟩

theorem Quieter.dequeueIfQueued : Quieter k (dequeueIfQueued k t) := by
  rw [Sched.dequeueIfQueued]
  split
  · exact .dequeueThread
  · exact ⟨.refl _, Nat.le_refl _, fun _ => ⟨rfl, rfl, rfl⟩⟩

end

omit dT dO in
theorem Ranked.quieter (h : Ranked cfg k) (hk : Quieter k k') : Ranked cfg k' := by
  refine ⟨List.Pairwise.imp_of_mem (fun _ _ hab => ?_) (h.sorted.sublist hk.runq), fun t hm => ?_⟩
  · exact (SameKey.before (hk.key _) (hk.key _)).mpr hab
  · rw [(hk.key t).2.2]
    exact Nat.lt_of_lt_of_le (h.clock t (hk.runq.subset hm)) hk.clock

omit dT dO in
theorem zPriqDumbAdd_sorted {thread : T → Thread T O} {pq : List T} (hs : pq.Pairwise fun t u => Before cfg (thread t) (thread u))
    (ht : InHalf cfg base (thread t)) (hw : ∀ u ∈ pq, InHalf cfg base (thread u))
    (hlast : ∀ u ∈ pq, (thread u).queuedAt < (thread t).queuedAt) :
    (zPriqDumbAdd cfg thread t pq).Pairwise fun t u => Before cfg (thread t) (thread u) := by
  induction pq with
  | nil => exact pairwise_singleton _ _
  | cons u pq ih =>
    obtain ⟨hu, hs⟩ := pairwise_cons.mp hs
    have hwu := hw u mem_cons_self
    rw [zPriqDumbAdd]
    split
    · next hgt =>
      refine pairwise_cons.mpr ⟨fun v hv => ?_, pairwise_cons.mpr ⟨hu, hs⟩⟩
      refine Or.inl ((zSchedPrioCmp_sign ht (hw v hv)).1.mpr ?_)
      have htu := (zSchedPrioCmp_sign ht hwu).1.mp hgt
      rcases mem_cons.mp hv with rfl | hv
      · exact htu
      · have huv := (before_iff hwu (hw v (mem_cons_of_mem _ hv))).mp (hu v hv)
        omega
    · next hle =>
      refine pairwise_cons.mpr ⟨fun v hv => ?_, ih hs (fun v hv => hw v (mem_cons_of_mem _ hv))
        (fun v hv => hlast v (mem_cons_of_mem _ hv))⟩
      rcases mem_zPriqDumbAdd.mp hv with rfl | hv
      · have hge : ¬rank cfg base (thread v) < rank cfg base (thread u) := fun h =>
          hle ((zSchedPrioCmp_sign ht hwu).1.mpr h)
        refine (before_iff hwu ht).mpr ?_
        have := hlast u mem_cons_self
        omega
      · exact hu v hv

omit dO in
theorem Ranked.queueThread (h : Ranked cfg k) (hn : t ∉ k.runq) (hw : Within cfg base (queueThread cfg k t)) :
    Ranked cfg (queueThread cfg k t) := by
  have hother : ∀ u ∈ k.runq, (Sched.queueThread cfg k t).thread u = k.thread u := by
    intro u hu
    have hne : u ≠ t := fun heq => hn (heq ▸ hu)
    rw [queueThread_thread, if_neg hne]
  have hself : ((Sched.queueThread cfg k t).thread t).queuedAt = k.clock := by
    rw [queueThread_thread, if_pos rfl]
  refine ⟨?_, fun u hu => ?_⟩
  · refine zPriqDumbAdd_sorted (List.Pairwise.imp_of_mem (fun ha hb hab => ?_) h.sorted)
      (hw t (mem_queueThread.mpr (Or.inl rfl))) (fun u hu => hw u (mem_queueThread.mpr (Or.inr hu))) (fun u hu => ?_)
    · rwa [hother _ ha, hother _ hb]
    · rw [hother u hu, hself]
      exact h.clock u hu
  · rcases mem_queueThread.mp hu with rfl | hu
    · rw [hself]
      exact Nat.lt_succ_self _
    · rw [hother u hu]
      exact Nat.lt_succ_of_lt (h.clock u hu)

/-! ## The invariant -/

/-- The running thread must not be preempted, and is cached. -/
def Kept (k : Kernel T O) : Prop :=
  k.cache = k.current ∧ isPreempt (k.thread k.current) = false ∧
    zIsThreadPreventedFromRunning (k.thread k.current) = false

/-- The cache holds the first thread of the run queue, or the running thread, which must not be preempted. -/
def Fresh (cfg : Config T) (k : Kernel T O) : Prop := k.cache = nextUp cfg k ∨ Kept k

structure Chosen (cfg : Config T) (k : Kernel T O) : Prop where
  ranked : Ranked cfg k
  fresh : Fresh cfg k

omit dT dO in
theorem fresh_updateCache : Fresh cfg (updateCache cfg k b) := by
  show (updateCache cfg k b).cache = nextUp cfg k ∨ _
  rw [updateCache]
  split
  · exact Or.inl rfl
  · next hno =>
    rw [Bool.not_eq_true, shouldPreempt, Bool.or_eq_false_iff, Bool.or_eq_false_iff, Bool.or_eq_false_iff] at hno
    exact Or.inr ⟨rfl, hno.2, hno.1.1.2⟩

omit dT dO in
theorem Ranked.chosen (h : Ranked cfg k) : Chosen cfg (updateCache cfg k b) := ⟨⟨h.sorted, h.clock⟩, fresh_updateCache⟩

/-- Nothing but what blocks a thread changes, and nothing blocks one that was not blocked. -/
structure Eased (k k' : Kernel T O) : Prop where
  runq : k'.runq = k.runq
  clock : k'.clock = k.clock
  cache : k'.cache = k.cache
  current : k'.current = k.current
  key : ∀ t, SameKey (k'.thread t) (k.thread t)
  locked : ∀ t, (k'.thread t).schedLocked = (k.thread t).schedLocked
  eased : ∀ t, zIsThreadPreventedFromRunning (k.thread t) = false → zIsThreadPreventedFromRunning (k'.thread t) = false

omit dT dO in
theorem Eased.quieter (h : Eased k k') : Quieter k k' := ⟨h.runq ▸ .refl _, h.clock.ge, h.key⟩

omit dT dO in
theorem Eased.trans {k'' : Kernel T O} (h : Eased k k') (h' : Eased k' k'') : Eased k k'' where
  runq := h'.runq.trans h.runq
  clock := h'.clock.trans h.clock
  cache := h'.cache.trans h.cache
  current := h'.current.trans h.current
  key t := (h'.key t).trans (h.key t)
  locked t := (h'.locked t).trans (h.locked t)
  eased t hp := h'.eased t (h.eased t hp)

omit dO in
theorem Eased.update (hk : SameKey (f (k.thread t)) (k.thread t))
    (hl : (f (k.thread t)).schedLocked = (k.thread t).schedLocked)
    (hp : zIsThreadPreventedFromRunning (k.thread t) = false →
      zIsThreadPreventedFromRunning (f (k.thread t)) = false) : Eased k (k.update t f) where
  runq := rfl
  clock := rfl
  cache := rfl
  current := rfl
  key u := by
    rw [update_thread]
    split
    · next heq => exact heq ▸ hk
    · exact ⟨rfl, rfl, rfl⟩
  locked u := by
    rw [update_thread]
    split
    · next heq => exact heq ▸ hl
    · rfl
  eased u hu := by
    rw [update_thread]
    split
    · next heq => exact hp (heq ▸ hu)
    · exact hu

theorem Eased.unpend (hq : (k.thread t).pendedOn = some q) : Eased k (unpendThreadNoTimeout k t) where
  runq := unpend_runq
  clock := by rw [unpendThreadNoTimeout, hq]; rfl
  cache := unpend_cache
  current := unpend_current
  key u := by
    rw [unpend_thread hq]
    split
    · next heq => exact heq ▸ ⟨rfl, rfl, rfl⟩
    · exact ⟨rfl, rfl, rfl⟩
  locked u := by
    rw [unpend_thread hq]
    split
    · next heq => exact heq ▸ rfl
    · rfl
  eased u hu := by
    rw [unpend_thread hq]
    split
    · next heq =>
      rw [heq] at hu
      simp only [zIsThreadPreventedFromRunning, Bool.or_eq_false_iff] at hu ⊢
      exact ⟨⟨⟨⟨trivial, hu.1.1.1.2⟩, hu.1.1.2⟩, hu.1.2⟩, hu.2⟩
    · exact hu

section
omit dT dO

theorem isPreempt_congr (hp : x.prio = y.prio) (hs : x.schedLocked = y.schedLocked) : isPreempt x = isPreempt y := by
  rw [isPreempt, isPreempt, hp, hs]

theorem Ranked.eased (h : Ranked cfg k) (he : Eased k k') : Ranked cfg k' := h.quieter he.quieter

theorem Kept.eased (h : Kept k) (he : Eased k k') : Kept k' := by
  rw [Kept, he.cache, he.current, isPreempt_congr (he.key _).1 (he.locked _)]
  exact ⟨h.1, h.2.1, he.eased _ h.2.2⟩

theorem Fresh.eased (h : Fresh cfg k) (he : Eased k k') : Fresh cfg k' := by
  rw [Fresh, he.cache, nextUp, he.runq]
  exact h.imp_right fun hc => hc.eased he

end

/-! ## The operations -/

section
omit dO

theorem Ranked.readyThread (h : Ranked cfg k) (hn : (k.thread t).state.queued = false → t ∉ k.runq)
    (hw : Within cfg base (readyThread cfg k t)) : Ranked cfg (readyThread cfg k t) := by
  rw [Sched.readyThread] at hw ⊢
  split
  · next hr =>
    rw [if_pos hr] at hw
    rw [Bool.and_eq_true, Bool.not_eq_true'] at hr
    have hq := h.queueThread (hn hr.1) hw
    exact ⟨hq.sorted, hq.clock⟩
  · exact h

theorem Fresh.readyThread (h : Fresh cfg k) : Fresh cfg (readyThread cfg k t) := by
  rw [Sched.readyThread]
  split
  · exact fresh_updateCache
  · exact h

theorem Within.of_readyThread (hw : Within cfg base (readyThread cfg k t)) : Within cfg base k := by
  rw [readyThread] at hw
  split at hw
  · intro u hu
    have := hw u (mem_queueThread.mpr (Or.inr hu))
    rw [updateCache_thread, queueThread_thread] at this
    split at this
    · next heq => exact heq ▸ this
    · exact this
  · exact hw

end

omit dT dO in
theorem Within.of_eased (he : Eased k k') (hw : Within cfg base k') : Within cfg base k := by
  intro t ht
  have := hw t (he.runq ▸ ht)
  rwa [InHalf, offset, (he.key t).2.1] at this

theorem Eased.unpendAbort (hq : (k.thread t).pendedOn = some q) :
    Eased k (zAbortThreadTimeout (unpendThreadNoTimeout k t) t) :=
  (Eased.unpend hq).trans (.update ⟨rfl, rfl, rfl⟩ rfl id)

theorem Ranked.unpendAndReady (h : Ranked cfg k) (hf : Full cfg k) (hq : (k.thread t).pendedOn = some q)
    (hw : Within cfg base (unpendAndReady cfg k t)) : Ranked cfg (unpendAndReady cfg k t) := by
  have he := Eased.unpendAbort hq
  refine (h.eased he).readyThread (fun _ => ?_) hw
  rw [he.runq, hf.lists.queued, hf.pended_not_queued (by simp [hq])]
  nofun

theorem Fresh.unpendAndReady (h : Fresh cfg k) (hq : (k.thread t).pendedOn = some q) :
    Fresh cfg (unpendAndReady cfg k t) :=
  (h.eased (Eased.unpendAbort hq)).readyThread

theorem Within.of_unpendAndReady (hq : (k.thread t).pendedOn = some q) (hw : Within cfg base (unpendAndReady cfg k t)) :
    Within cfg base k :=
  (hw.of_readyThread).of_eased (Eased.unpendAbort hq)

theorem Within.of_unpendLoop {n : Nat} (hf : Full cfg k) (hw : Within cfg base (unpendLoop cfg q n k)) :
    Within cfg base k := by
  induction n generalizing k with
  | zero => exact hw
  | succ n ih =>
    rw [unpendLoop] at hw
    split at hw
    · exact hw
    · next t hh =>
      have hq := hf.lists.pendedOn_of_head hh
      exact (ih (hf.unpendAndReady (by simp [hq])).1 hw).of_unpendAndReady hq

theorem Ranked.unpendLoop {n : Nat} (h : Ranked cfg k) (hf : Full cfg k) (hw : Within cfg base (unpendLoop cfg q n k)) :
    Ranked cfg (unpendLoop cfg q n k) := by
  induction n generalizing k with
  | zero => exact h
  | succ n ih =>
    rw [Sched.unpendLoop] at hw ⊢
    split
    · exact h
    · next t hh =>
      rw [hh] at hw
      have hq := hf.lists.pendedOn_of_head hh
      have hf' := (hf.unpendAndReady (by rw [hq]; simp)).1
      exact ih (h.unpendAndReady hf hq (hw.of_unpendLoop hf')) hf' hw

theorem Fresh.unpendLoop {n : Nat} (h : Fresh cfg k) (hf : Full cfg k) : Fresh cfg (unpendLoop cfg q n k) := by
  induction n generalizing k with
  | zero => exact h
  | succ n ih =>
    rw [Sched.unpendLoop]
    split
    · exact h
    · next t hh =>
      have hq := hf.lists.pendedOn_of_head hh
      exact ih (h.unpendAndReady hq) (hf.unpendAndReady (by simp [hq])).1

omit dT dO in
theorem Full.not_mem (h : Full cfg k) (hr : zIsThreadReady (k.thread t) = false) : t ∉ k.runq := by
  rw [h.lists.queued, h.not_queued hr]
  nofun

section
variable (h : Chosen cfg k) (hf : Full cfg k)
include h hf

section
omit dO

theorem Chosen.release (hr : zIsThreadReady (k.thread t) = false)
    (he : Eased k k') (hw : Within cfg base (Sched.readyThread cfg k' t)) : Chosen cfg (Sched.readyThread cfg k' t) :=
  ⟨(h.ranked.eased he).readyThread (fun _ => he.runq ▸ hf.not_mem hr) hw, (h.fresh.eased he).readyThread⟩

theorem Chosen.zSchedStart (hw : Within cfg base (zSchedStart cfg k t)) : Chosen cfg (zSchedStart cfg k t) := by
  rw [Sched.zSchedStart] at hw ⊢
  split
  · next hp =>
    rw [if_pos hp] at hw
    refine h.release hf (not_ready_of_prevented ?_) (.update ⟨rfl, rfl, rfl⟩ rfl fun hn => ?_) hw
    · simp [zIsThreadPreventedFromRunning, hp]
    · simp [zIsThreadPreventedFromRunning, hp] at hn
  · exact h

theorem Chosen.kThreadResume (hw : Within cfg base (kThreadResume cfg k t)) : Chosen cfg (kThreadResume cfg k t) := by
  rw [Sched.kThreadResume] at hw ⊢
  split
  · next hs =>
    rw [if_pos hs] at hw
    refine h.release hf (not_ready_of_prevented ?_) (.update ⟨rfl, rfl, rfl⟩ rfl fun hn => ?_) hw
    · simp [zIsThreadPreventedFromRunning, hs]
    · simp [zIsThreadPreventedFromRunning, hs] at hn
  · exact h

theorem Chosen.dispose (hs : (k.thread t).state.pending = true)
    (hw : Within cfg base (Sched.readyThread cfg (k.update t fun th => { th with state.pending := false }) t)) :
    Chosen cfg (Sched.readyThread cfg (k.update t fun th => { th with state.pending := false }) t) := by
  refine h.release hf (not_ready_of_prevented ?_) (.update ⟨rfl, rfl, rfl⟩ rfl fun hn => ?_) hw
  · simp [zIsThreadPreventedFromRunning, hs]
  · simp [zIsThreadPreventedFromRunning, hs] at hn

theorem Chosen.kWakeup (hw : Within cfg base (kWakeup cfg k t)) : Chosen cfg (kWakeup cfg k t) := by
  rw [Sched.kWakeup] at hw ⊢
  split
  · exact h
  · next hp =>
    rw [if_neg hp] at hw
    split
    · exact h
    · next hno =>
      rw [if_neg hno] at hw
      have hr : zIsThreadReady (k.thread t) = false := by
        cases hto : (k.thread t).timeout with
        | true => exact not_ready_of_timeout hto
        | false =>
          have hs : (k.thread t).state = { suspended := true } := by simpa [hto] using hno
          exact not_ready_of_prevented (by rw [zIsThreadPreventedFromRunning, hs]; rfl)
      refine h.release hf hr (.trans (.update ⟨rfl, rfl, rfl⟩ rfl id) (.update ⟨rfl, rfl, rfl⟩ rfl fun hn => ?_)) hw
      simp only [zIsThreadPreventedFromRunning, Bool.or_eq_false_iff] at hn ⊢
      exact ⟨hn.1, trivial⟩

end

end

theorem Eased.unpendIf : Eased k (if (k.thread t).pendedOn ≠ none then unpendThreadNoTimeout k t else k) := by
  split
  · next hp =>
    obtain ⟨q, hq⟩ := Option.ne_none_iff_exists'.mp hp
    exact .unpend hq
  · exact ⟨rfl, rfl, rfl, rfl, fun _ => ⟨rfl, rfl, rfl⟩, fun _ => rfl, fun _ => id⟩

theorem Chosen.threadTimeout (h : Chosen cfg k) (hf : Full cfg k) (hto : (k.thread t).timeout = true)
    (hw : Within cfg base (zThreadTimeout cfg (zAbortThreadTimeout k t) t)) :
    Chosen cfg (zThreadTimeout cfg (zAbortThreadTimeout k t) t) := by
  have ha : Eased k (zAbortThreadTimeout k t) := .update ⟨rfl, rfl, rfl⟩ rfl id
  rw [zThreadTimeout] at hw ⊢
  split
  · exact ⟨h.ranked.eased ha, h.fresh.eased ha⟩
  · next hd =>
    rw [if_neg hd] at hw
    refine h.release hf (not_ready_of_timeout hto) ((ha.trans .unpendIf).trans (.update ⟨rfl, rfl, rfl⟩ rfl fun hn => ?_)) hw
    simp only [zIsThreadPreventedFromRunning, Bool.or_eq_false_iff] at hn ⊢
    exact ⟨⟨⟨⟨hn.1.1.1.1, trivial⟩, hn.1.1.2⟩, hn.1.2⟩, trivial⟩

theorem Chosen.zSchedWake (h : Chosen cfg k) (hf : Full cfg k) (hw : Within cfg base (zSchedWake cfg k q)) :
    Chosen cfg (zSchedWake cfg k q) := by
  rw [Sched.zSchedWake] at hw ⊢
  split
  · exact h
  · next t hh =>
    rw [hh] at hw
    have hq := hf.lists.pendedOn_of_head hh
    exact ⟨h.ranked.unpendAndReady hf hq hw, h.fresh.unpendAndReady hq⟩

theorem Chosen.unpendAll (h : Chosen cfg k) (hf : Full cfg k) (hw : Within cfg base (unpendAll cfg k q)) :
    Chosen cfg (unpendAll cfg k q) :=
  ⟨h.ranked.unpendLoop hf hw, h.fresh.unpendLoop hf⟩

omit dO in
theorem Chosen.kThreadSuspend (h : Chosen cfg k) : Chosen cfg (kThreadSuspend cfg k t) :=
  (h.ranked.quieter ((Quieter.update ⟨rfl, rfl, rfl⟩).trans
    (Quieter.dequeueIfQueued.trans (.update ⟨rfl, rfl, rfl⟩)))).chosen

theorem Quieter.endSelf : Quieter k (endSelf k t) := by
  rw [Sched.endSelf]
  refine Quieter.trans ?_ (.update ⟨rfl, rfl, rfl⟩)
  exact ((Quieter.update ⟨rfl, rfl, rfl⟩).trans .dequeueIfQueued).trans Eased.unpendIf.quieter

theorem Chosen.endThread (h : Chosen cfg k) (hf : Full cfg k) (ht : t ≠ cfg.idle) (hw : Within cfg base (endThread cfg k t)) :
    Chosen cfg (endThread cfg k t) := by
  rw [Sched.endThread] at hw ⊢
  split
  · exact h
  · next hd =>
    rw [if_neg hd] at hw
    exact ((h.ranked.quieter .endSelf).unpendLoop (hf.endSelf ht) hw).chosen

omit dO in
theorem Ranked.requeue (h : Ranked cfg k) (hn : k.runq.Nodup)
    (hw : Within cfg base (Sched.queueThread cfg ((dequeueThread k t).update t f) t)) :
    Ranked cfg (Sched.queueThread cfg ((dequeueThread k t).update t f) t) := by
  have hd := h.quieter (Quieter.dequeueThread (t := t))
  have ht : t ∉ (dequeueThread k t).runq := hn.not_mem_erase
  have hother : ∀ u ∈ (dequeueThread k t).runq, ((dequeueThread k t).update t f).thread u = (dequeueThread k t).thread u := by
    intro u hu
    have hne : u ≠ t := fun heq => ht (heq ▸ hu)
    rw [update_thread, if_neg hne]
  refine Ranked.queueThread ⟨List.Pairwise.imp_of_mem (fun ha hb hab => ?_) hd.sorted, fun u hu => ?_⟩ ht hw
  · rwa [hother _ ha, hother _ hb]
  · rw [hother u hu]
    exact hd.clock u hu

omit dO in
theorem Ranked.requeue_same (h : Ranked cfg k) (hn : k.runq.Nodup)
    (hw : Within cfg base (Sched.queueThread cfg (dequeueThread k t) t)) :
    Ranked cfg (Sched.queueThread cfg (dequeueThread k t) t) := by
  have hid : (dequeueThread k t).update t id = dequeueThread k t := by
    rw [Kernel.update, id, Function.update_eq_self]
  rw [← hid] at hw ⊢
  exact h.requeue hn hw

omit dT dO in
theorem fresh_zSwap (h : k.cache = nextUp cfg k) : Fresh cfg (zSwap k) := Or.inl h

omit dT dO in
theorem Chosen.zSwap (h : Chosen cfg k) : Chosen cfg (zSwap k) := by
  refine ⟨⟨h.ranked.sorted, h.ranked.clock⟩, ?_⟩
  rcases h.fresh with hc | hc
  · exact fresh_zSwap hc
  · refine Or.inr ⟨rfl, ?_⟩
    show isPreempt (k.thread k.cache) = false ∧ zIsThreadPreventedFromRunning (k.thread k.cache) = false
    rw [hc.1]
    exact hc.2

section
omit dO

theorem Chosen.kYield (h : Chosen cfg k) (hf : Full cfg k) (hw : Within cfg base (kYield cfg k)) :
    Chosen cfg (kYield cfg k) :=
  ((h.ranked.requeue_same hf.lists.runq_nodup hw).chosen (b := true)).zSwap

theorem Chosen.zTimeSlice (h : Chosen cfg k) (hi : Inv cfg k) (hw : Within cfg base (zTimeSlice cfg k)) :
    Chosen cfg (zTimeSlice cfg k) := by
  rw [Sched.zTimeSlice] at hw ⊢
  split
  · next hs =>
    rw [if_pos hs] at hw
    rw [moveThreadToEndOfPrioQ, Sched.dequeueIfQueued] at hw ⊢
    split
    · next hq =>
      rw [if_pos hq] at hw
      exact (h.ranked.requeue_same hi.full.lists.runq_nodup hw).chosen
    · next hq =>
      rw [if_neg hq] at hw
      refine (h.ranked.queueThread ?_ hw).chosen
      rwa [hi.full.lists.queued]
  · exact h

theorem Chosen.kSchedUnlock (h : Chosen cfg k) : Chosen cfg (kSchedUnlock cfg k) :=
  (h.ranked.quieter (.update ⟨rfl, rfl, rfl⟩)).chosen

theorem Kept.kSchedLock (h : Kept k) (hl : (k.thread k.current).schedLocked ≠ 1) : Kept (kSchedLock k) := by
  refine ⟨h.1, ?_⟩
  rw [Sched.kSchedLock, update_current, update_thread, if_pos rfl]
  refine ⟨?_, h.2.2⟩
  rw [← Bool.not_eq_true, isPreempt_iff]
  intro hp
  bv_omega

theorem Chosen.kSchedLock (h : Chosen cfg k) (hl : (k.thread k.current).schedLocked ≠ 1) : Chosen cfg (kSchedLock k) :=
  ⟨h.ranked.quieter (.update ⟨rfl, rfl, rfl⟩), h.fresh.imp id fun hc => hc.kSchedLock hl⟩

theorem Chosen.zSetPrio (h : Chosen cfg k) (hi : Inv cfg k) (hc : Calling cfg k) {prio : BitVec 8}
    (hw : Within cfg base (zSetPrio cfg k t prio)) : Chosen cfg (zSetPrio cfg k t prio) := by
  rw [Sched.zSetPrio] at hw ⊢
  split
  · next hr =>
    rw [if_pos hr] at hw
    exact (h.ranked.requeue hi.full.lists.runq_nodup hw).chosen
  · next hr =>
    rw [Bool.not_eq_true] at hr
    have hn : t ∉ k.runq := hi.full.not_mem hr
    have hne : t ≠ k.current := fun heq => by
      have hq := ((hi.full.exact _).mp (hi.full.current_queued hc)).1
      rw [heq, hq] at hr
      cases hr
    have hother : ∀ u, u ≠ t → (k.update t fun th => { th with prio := prio }).thread u = k.thread u := by
      intro u hu
      rw [update_thread, if_neg hu]
    have hq : ∀ u ∈ k.runq, u ≠ t := fun u hu heq => hn (heq ▸ hu)
    refine ⟨⟨List.Pairwise.imp_of_mem (fun ha hb hab => ?_) h.ranked.sorted, fun u hu => ?_⟩, ?_⟩
    · rwa [hother _ (hq _ ha), hother _ (hq _ hb)]
    · rw [hother u (hq u hu)]
      exact h.ranked.clock u hu
    · rw [Fresh, Kept, update_current, hother _ hne.symm]
      exact h.fresh

theorem Kept.startDelayed (h : Kept k) (hc : t ≠ k.current) : Kept (zAddThreadTimeout k t) := by
  have hcur : (Sched.zAddThreadTimeout k t).thread k.current = k.thread k.current := by
    exact Function.update_of_ne hc.symm _ _
  show _ ∧ isPreempt ((Sched.zAddThreadTimeout k t).thread k.current) = false ∧
    zIsThreadPreventedFromRunning ((Sched.zAddThreadTimeout k t).thread k.current) = false
  rw [hcur]
  exact h

theorem Chosen.startDelayed (h : Chosen cfg k) (hc : t ≠ k.current) : Chosen cfg (zAddThreadTimeout k t) := by
  have hk : Quieter k (k.update t fun th => { th with timeout := true }) := .update ⟨rfl, rfl, rfl⟩
  exact ⟨⟨(h.ranked.quieter hk).sorted, (h.ranked.quieter hk).clock⟩, h.fresh.imp id fun hk => hk.startDelayed hc⟩

end

/-! ### Calls that wait -/

section
omit dO

theorem cache_unready : (unreadyThread cfg k k.current).cache = nextUp cfg (dequeueIfQueued k k.current) := by
  rw [unreadyThread, decide_eq_true rfl]
  rfl

theorem Quieter.zAddThreadTimeout : Quieter k (zAddThreadTimeout k t) :=
  ⟨.refl _, Nat.le_refl _, (Quieter.update (f := fun th => { th with timeout := true }) ⟨rfl, rfl, rfl⟩).key⟩

theorem Quieter.unreadyThread : Quieter k (unreadyThread cfg k t) :=
  ⟨Quieter.dequeueIfQueued.runq, Quieter.dequeueIfQueued.clock, Quieter.dequeueIfQueued.key⟩

theorem Chosen.zTickSleep (h : Chosen cfg k) : Chosen cfg (zTickSleep cfg k) := by
  have hk : Quieter k (Sched.zAddThreadTimeout (Sched.unreadyThread cfg k k.current) k.current) :=
    Quieter.unreadyThread.trans .zAddThreadTimeout
  have hs := h.ranked.quieter (hk.trans (.update (t := k.current) (f := fun th => { th with state.suspended := true })
    ⟨rfl, rfl, rfl⟩))
  exact ⟨⟨hs.sorted, hs.clock⟩, fresh_zSwap cache_unready⟩

end

theorem Quieter.addToWaitq {w : Option (WaitQ T O)} : Quieter k (addToWaitqLocked cfg k t w) := by
  refine ⟨?_, ?_, fun u => ?_⟩
  · rw [addToWaitq_runq]
    exact Quieter.dequeueIfQueued.runq
  · cases w <;> exact Quieter.dequeueIfQueued.clock
  · rw [addToWaitq_thread]
    split
    · next heq => exact heq ▸ ⟨rfl, rfl, rfl⟩
    · exact ⟨rfl, rfl, rfl⟩

omit dO in
theorem Quieter.addThreadTimeout {timeout : KTimeout} : Quieter k (addThreadTimeout k t timeout) := by
  rw [Sched.addThreadTimeout]
  have hf : Quieter k (k.update t fun th => { th with finite := timeout ≠ .forever }) := .update ⟨rfl, rfl, rfl⟩
  split
  · exact hf
  · exact hf.trans .zAddThreadTimeout

omit dO in
theorem addThreadTimeout_runq {timeout : KTimeout} : (addThreadTimeout k t timeout).runq = k.runq := by
  rw [addThreadTimeout]
  split <;> rfl

theorem Chosen.pend (h : Chosen cfg k) (w : Option (WaitQ T O)) (timeout : KTimeout) :
    Chosen cfg (Sched.zSwap (pend cfg k k.current w timeout)) := by
  have hq : Quieter k (addThreadTimeout (addToWaitqLocked cfg k k.current w) k.current timeout) :=
    Quieter.addToWaitq.trans .addThreadTimeout
  have hs := h.ranked.quieter hq
  refine ⟨⟨hs.sorted, hs.clock⟩, fresh_zSwap ?_⟩
  rw [Sched.pend, addThreadTimeout_cache, addToWaitq_cache, cache_unready, nextUp, nextUp, addThreadTimeout_runq,
    addToWaitq_runq]

theorem Chosen.kThreadJoin (h : Chosen cfg k) (timeout : KTimeout) : Chosen cfg (kThreadJoin cfg k t timeout) := by
  rw [Sched.kThreadJoin]
  split
  · exact h
  · split
    · exact h
    · split
      · exact h
      · exact h.pend _ timeout

omit dO in
theorem Chosen.kSleep (h : Chosen cfg k) (hf : Full cfg k) :
    ∀ timeout, Within cfg base (kSleep cfg k timeout) → Chosen cfg (kSleep cfg k timeout)
  | .noWait => h.kYield hf
  | .ticks => fun _ => h.zTickSleep
  | .forever => fun _ => h.kThreadSuspend

/-! ### Deadlines -/

section Head
variable {thread : T → Thread T O} {pq : List T}

omit dT dO in
theorem head_zPriqDumbAdd_self (h : ∀ u, pq.head? = some u → 0 < zSchedPrioCmp cfg (thread t) (thread u)) :
    (zPriqDumbAdd cfg thread t pq).head? = some t := by
  cases pq with
  | nil => rfl
  | cons u pq =>
    rw [zPriqDumbAdd, if_pos (h u rfl)]
    rfl

omit dT dO in
theorem head_zPriqDumbAdd_of_not (hu : pq.head? = some u) (h : ¬0 < zSchedPrioCmp cfg (thread t) (thread u)) :
    (zPriqDumbAdd cfg thread t pq).head? = some u := by
  cases pq with
  | nil => cases hu
  | cons v pq =>
    cases hu
    rw [zPriqDumbAdd, if_neg h]
    rfl

end Head

/-- A change of the deadline leaves the first thread of the run queue first. -/
def KeepsFirst (cfg : Config T) (k : Kernel T O) (t : T) (deadline : BitVec 32) : Prop :=
  if k.runq.head? = some t then
    ∀ u ∈ (k.runq.erase t).take 1, 0 < zSchedPrioCmp cfg { k.thread t with prioDeadline := deadline } (k.thread u)
  else ∀ u ∈ k.runq.take 1, ¬0 < zSchedPrioCmp cfg { k.thread t with prioDeadline := deadline } (k.thread u)
  deriving Decidable

omit dT in
theorem mem_take_one {pq : List T} (h : pq.head? = some u) : u ∈ pq.take 1 := by
  cases pq with
  | nil => cases h
  | cons v pq =>
    cases h
    exact mem_singleton_self _

section
omit dO

theorem dequeue_update_comm {deadline : BitVec 32} :
    dequeueThread (k.update t fun th => { th with prioDeadline := deadline }) t =
      (dequeueThread k t).update t fun th => { th with prioDeadline := deadline } := by
  simp only [dequeueThread, Kernel.update, Function.update_self, Function.update_idem]
  rfl

theorem KeepsFirst.nextUp {deadline : BitVec 32} (h : KeepsFirst cfg k t deadline) (hn : k.runq.Nodup) (ht : t ∈ k.runq) :
    nextUp cfg (Sched.queueThread cfg ((dequeueThread k t).update t fun th => { th with prioDeadline := deadline }) t) =
      nextUp cfg k := by
  have hself : ∀ x, zSchedPrioCmp cfg ((Sched.queueThread cfg ((dequeueThread k t).update t fun th =>
      { th with prioDeadline := deadline }) t).thread t) x =
      zSchedPrioCmp cfg { k.thread t with prioDeadline := deadline } x := by
    intro x
    rw [queueThread_thread, if_pos rfl, update_thread, if_pos rfl, dequeueThread_thread, if_pos rfl]
    rfl
  have hother : ∀ u, u ≠ t → (Sched.queueThread cfg ((dequeueThread k t).update t fun th =>
      { th with prioDeadline := deadline }) t).thread u = k.thread u := by
    intro u hu
    rw [queueThread_thread, if_neg hu, update_thread, if_neg hu, dequeueThread_thread, if_neg hu]
  rw [Sched.nextUp, Sched.nextUp, queueThread_runq]
  congr 1
  rw [KeepsFirst] at h
  split at h
  · next hfirst =>
    rw [hfirst]
    refine head_zPriqDumbAdd_self fun u hu => ?_
    have hne : u ≠ t := fun heq => hn.not_mem_erase (heq ▸ List.mem_of_mem_head? hu)
    rw [hself, hother u hne]
    exact h u (mem_take_one hu)
  · next hfirst =>
    cases hr : k.runq with
    | nil =>
      rw [hr] at ht
      cases ht
    | cons u pq =>
      have hne : u ≠ t := fun heq => hfirst (by rw [hr, heq]; rfl)
      refine head_zPriqDumbAdd_of_not ?_ ?_
      · rw [update_runq, dequeueThread_runq, hr, erase_cons_tail (by simpa using hne)]
        rfl
      · rw [hself, hother u hne]
        exact h u (mem_take_one (by rw [hr]; rfl))

theorem deadline_runs {deadline : BitVec 32} :
    isPreempt ((kThreadDeadlineSet cfg k t deadline).thread u) = isPreempt (k.thread u) ∧
    zIsThreadPreventedFromRunning ((kThreadDeadlineSet cfg k t deadline).thread u) =
      zIsThreadPreventedFromRunning (k.thread u) := by
  rw [kThreadDeadlineSet]
  by_cases hu : u = t
  · subst hu
    split
    · rw [queueThread_thread, if_pos rfl, dequeueThread_thread, if_pos rfl, update_thread, if_pos rfl]
      exact ⟨rfl, rfl⟩
    · rw [update_thread, if_pos rfl]
      exact ⟨rfl, rfl⟩
  · split
    · rw [queueThread_thread, if_neg hu, dequeueThread_thread, if_neg hu, update_thread, if_neg hu]
      exact ⟨rfl, rfl⟩
    · rw [update_thread, if_neg hu]
      exact ⟨rfl, rfl⟩

theorem deadline_cache {deadline : BitVec 32} : (kThreadDeadlineSet cfg k t deadline).cache = k.cache := by
  rw [kThreadDeadlineSet]
  split <;> rfl

theorem deadline_current {deadline : BitVec 32} : (kThreadDeadlineSet cfg k t deadline).current = k.current := by
  rw [kThreadDeadlineSet]
  split <;> rfl

theorem Kept.deadline {deadline : BitVec 32} (h : Kept k) : Kept (kThreadDeadlineSet cfg k t deadline) := by
  rw [Kept, deadline_cache, deadline_current, deadline_runs.1, deadline_runs.2]
  exact h

theorem Chosen.kThreadDeadlineSet {deadline : BitVec 32} (h : Chosen cfg k) (hi : Inv cfg k)
    (hd : (k.thread t).state.queued = true → Kept k ∨ KeepsFirst cfg k t deadline)
    (hw : Within cfg base (kThreadDeadlineSet cfg k t deadline)) : Chosen cfg (kThreadDeadlineSet cfg k t deadline) := by
  have hq : ((k.update t fun th => { th with prioDeadline := deadline }).thread t).state.queued =
      (k.thread t).state.queued := by
    rw [update_thread, if_pos rfl]
  refine ⟨?_, ?_⟩
  · rw [Sched.kThreadDeadlineSet, hq] at hw ⊢
    split
    · next hqt =>
      rw [if_pos hqt, dequeue_update_comm] at hw
      rw [dequeue_update_comm]
      exact h.ranked.requeue hi.full.lists.runq_nodup hw
    · next hqt =>
      have hn : t ∉ k.runq := by rwa [hi.full.lists.queued]
      have hother : ∀ u ∈ k.runq, (k.update t fun th => { th with prioDeadline := deadline }).thread u = k.thread u := by
        intro u hu
        have hne : u ≠ t := fun heq => hn (heq ▸ hu)
        rw [update_thread, if_neg hne]
      refine ⟨List.Pairwise.imp_of_mem (fun ha hb hab => ?_) h.ranked.sorted, fun u hu => ?_⟩
      · rwa [hother _ ha, hother _ hb]
      · rw [hother u hu]
        exact h.ranked.clock u hu
  · rcases h.fresh with hc | hc
    · by_cases hqt : (k.thread t).state.queued = true
      · rcases hd hqt with hk | hf
        · exact Or.inr hk.deadline
        · refine Or.inl ?_
          rw [deadline_cache, hc, Sched.kThreadDeadlineSet, hq, if_pos hqt, dequeue_update_comm]
          exact (hf.nextUp hi.full.lists.runq_nodup ((hi.full.lists.queued t).mpr hqt)).symm
      · refine Or.inl ?_
        rw [deadline_cache, hc, Sched.kThreadDeadlineSet, hq, if_neg hqt]
        rfl
    · exact Or.inr (Kept.deadline hc)

end

/-! ## Runs -/

/-- The first thread of the queue is chosen before every other, and the idle thread when there is none. -/
def IsBest (cfg : Config T) (k : Kernel T O) (t : T) : Prop :=
  k.runq = [] ∧ t = cfg.idle ∨ t ∈ k.runq ∧ ∀ u ∈ k.runq, u ≠ t → Before cfg (k.thread t) (k.thread u)

instance (t : T) : Decidable (IsBest cfg k t) := inferInstanceAs (Decidable (_ ∨ _))

instance : Decidable (Within cfg base k) := inferInstanceAs (Decidable (∀ t ∈ k.runq, offset cfg base (k.thread t) < 2 ^ 31))

instance : Decidable (Kept k) := inferInstanceAs (Decidable (_ ∧ _))

/-- When a new deadline does no harm: the thread is not queued, the running thread is not to be preempted, or
the first of the queue stays first. -/
def DeadlineOk (cfg : Config T) (k : Kernel T O) : Event T O → Prop
  | .deadlineSet t deadline => (k.thread t).state.queued = true → Kept k ∨ KeepsFirst cfg k t deadline
  | _ => True

instance DeadlineOk.instDecidable (e : Event T O) : Decidable (DeadlineOk cfg k e) := by
  induction e using Event.casesOn <;> dsimp only [DeadlineOk] <;> infer_instance

omit dT dO in
theorem Ranked.best (h : Ranked cfg k) : IsBest cfg k (Sched.nextUp cfg k) := by
  rw [IsBest, Sched.nextUp]
  cases hr : k.runq with
  | nil => exact Or.inl ⟨rfl, rfl⟩
  | cons t pq =>
    refine Or.inr ⟨mem_cons_self, fun u hu hne => ?_⟩
    have hs := h.sorted
    rw [hr] at hs
    exact (pairwise_cons.mp hs).1 u ((mem_cons.mp hu).resolve_left hne)

theorem Chosen.step {e : Event T O} (h : Chosen cfg k) (hi : Inv cfg k) (hd : DeadlineOk cfg k e)
    (hs : Sched.step cfg k e = .ok k') (hw : Within cfg base k') : Chosen cfg k' := by
  rw [Sched.step] at hs
  split at hs
  · next hen =>
    cases hs
    cases e with
    | yield => exact h.kYield hi.full hw
    | sleep timeout => exact h.kSleep hi.full timeout hw
    | pend w timeout => exact h.pend w timeout
    | join t timeout => exact h.kThreadJoin timeout
    | lock => exact h.kSchedLock hen.2
    | unlock => exact h.kSchedUnlock
    | setPrio t prio => exact h.zSetPrio hi hen.1 hw
    | start t => exact h.zSchedStart hi.full hw
    | startDelayed t => exact h.startDelayed hen.2.1
    | suspend t => exact h.kThreadSuspend
    | resume t => exact h.kThreadResume hi.full hw
    | wake q => exact h.zSchedWake hi.full hw
    | wakeAll q => exact h.unpendAll hi.full hw
    | wakeThread t =>
      obtain ⟨q, hq⟩ := Option.ne_none_iff_exists'.mp hen
      exact ⟨h.ranked.unpendAndReady hi.full hq hw, h.fresh.unpendAndReady hq⟩
    | dispose t => exact h.dispose hi.full hen.2.1 hw
    | timeout t => exact h.threadTimeout hi.full hen hw
    | wakeup t => exact h.kWakeup hi.full hw
    | abort t => exact h.endThread hi.full hen hw
    | timeSlice => exact h.zTimeSlice hi hw
    | deadlineSet t deadline => exact h.kThreadDeadlineSet hi hd hw
    | switch => exact h.zSwap
  · cases hs

omit dT dO in
theorem Booted.chosen (h : Booted cfg k) : Chosen cfg k := by
  refine ⟨⟨?_, fun t ht => ?_⟩, Or.inl ?_⟩
  · rw [h.runq]
    exact pairwise_singleton _ _
  · rw [h.runq, mem_singleton] at ht
    rw [ht]
    exact h.clock
  · rw [Sched.nextUp, h.runq, h.cache]
    rfl

/-- If the deadlines of the queued threads stay within half of the cycle range, as the documentation asks, and
no call of `k_thread_deadline_set` moves another thread to or from the front of the queue while the cache
follows it: whenever the running thread is preemptible and the scheduler not locked, the cached thread is the
best of the run queue. -/
theorem cache_never_stale {es : List (Event T O)} (h : Booted cfg k)
    (hes : Along (step cfg) (fun k e => DeadlineOk cfg k e ∧ ∀ k', step cfg k e = .ok k' → ∃ base, Within cfg base k') k es)
    (hrun : run (step cfg) k es = .ok k') (hprio : 0 ≤ (k'.thread k'.current).prio.toInt)
    (hlock : (k'.thread k'.current).schedLocked = 0) : IsBest cfg k' k'.cache := by
  have hstart : Inv cfg k ∧ Chosen cfg k := ⟨h.inv, h.chosen⟩
  have hinv : Inv cfg k' ∧ Chosen cfg k' := by
    refine @run_inv _ _ _ (Sched.step cfg) _ (fun k => Inv cfg k ∧ Chosen cfg k) _ _ _ (fun k e k' hk hp hs => ?_)
      hstart hes hrun
    obtain ⟨base, hw⟩ := hp.2 k' hs
    exact ⟨hk.1.step hs, hk.2.step hk.1 hp.1 hs hw⟩
  rcases hinv.2.fresh with hn | hn
  · rw [hn]
    exact hinv.2.ranked.best
  · have hp := isPreempt_iff.mpr ⟨hlock, hprio⟩
    rw [hn.2.1] at hp
    cases hp

/-- `Within` from a given base in the state after a step, as a check that can be run. -/
def WithinAfter (cfg : Config T) (base : BitVec 32) (k : Kernel T O) (e : Event T O) : Prop :=
  match step cfg k e with
  | .ok k' => Within cfg base k'
  | .error _ => True

instance (e : Event T O) : Decidable (WithinAfter cfg base k e) := by
  unfold WithinAfter
  split <;> infer_instance

theorem WithinAfter.exists {e : Event T O} (h : WithinAfter cfg base k e) (hs : step cfg k e = .ok k') :
    ∃ base, Within cfg base k' := by
  rw [WithinAfter, hs] at h
  exact ⟨base, h⟩

/-- A thread of the same priority gets a deadline behind the one of the running thread. -/
theorem cache_never_stale_three : ∃ k', run (step exampleConfig) (exampleKernel fun _ => 5)
      [.start 2, .deadlineSet 2 100, .deadlineSet 1 50, .yield] = .ok k' ∧ IsBest exampleConfig k' k'.cache := by
  refine ⟨_, and_then rfl fun hrun => cache_never_stale (exampleKernel_booted fun _ => 5) ?_ hrun (by decide) (by decide)⟩
  refine Along.mono (p := fun k e => DeadlineOk exampleConfig k e ∧ WithinAfter exampleConfig 0 k e)
    (fun k e h => ⟨h.1, fun k' hs => h.2.exists hs⟩) (by decide +kernel)

/-- The running thread gets a deadline behind the one of another thread of its priority: the other is first in the
run queue, and the running thread stays cached. -/
theorem deadline_leaves_cache_stale : Booted exampleConfig (exampleKernel fun _ => 5) ∧ ∃ es k',
    Along (step exampleConfig) (fun k e => ∀ k', step exampleConfig k e = .ok k' → ∃ base, Within exampleConfig base k')
      (exampleKernel fun _ => 5) es ∧
    run (step exampleConfig) (exampleKernel fun _ => 5) es = .ok k' ∧ 0 ≤ (k'.thread k'.current).prio.toInt ∧
    (k'.thread k'.current).schedLocked = 0 ∧ ¬IsBest exampleConfig k' k'.cache := by
  refine ⟨exampleKernel_booted _, [.start 2, .deadlineSet 1 100], _, ?_, rfl, by decide, by decide, by decide⟩
  exact Along.mono (p := fun k e => WithinAfter exampleConfig 0 k e) (fun k e h k' hs => h.exists hs) (by decide +kernel)

end RtosKernel.Zephyr.Sched
