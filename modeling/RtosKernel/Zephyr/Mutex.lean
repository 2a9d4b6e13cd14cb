import Mathlib.Algebra.Order.Group.Nat
import RtosKernel.Lib.Runs
import RtosKernel.Zephyr.WaitQ

/-! # Mutexes with priority inheritance (`mutex.c`)

A thread that has to wait raises the owner to its own priority. A smaller number is a higher priority. A lock
that waits is cut there. A thread whose wait has timed out is first taken out of the wait queue; it runs the
rest of `k_mutex_lock` whenever the scheduler lets it. -/
namespace RtosKernel.Zephyr.Mutexes
open Lib.Runs Zephyr.WaitQ

def ebusy : Int := -16
def eagain : Int := -11
def einval : Int := -22
def eperm : Int := -1

structure Mutex (T : Type) where
  owner : Option T
  lockCount : Nat
  ownerOrigPrio : Int
  waitQ : List T

/-- Where a thread is: in no call, waiting for a mutex, or out of the wait queue with the rest of its
call still to run. -/
inductive Phase (M : Type) where
  | idle
  | pending (mutex : M)
  | timedOut (mutex : M)
  deriving DecidableEq

structure System (T M : Type) where
  mutex : M → Mutex T
  prio : T → Int
  phase : T → Phase M
  /-- The locks a thread has taken and not given back, the last one first. No code reads this. -/
  held : T → List M

inductive Stop where
  /-- The event cannot happen in this state. -/
  | refused
  /-- `mutex->owner` is used while it is NULL. -/
  | nullOwner
  deriving DecidableEq

variable {T M : Type} [dT : DecidableEq T] [dM : DecidableEq M]

def System.setMutex (s : System T M) (m : M) (v : Mutex T) : System T M :=
  { s with mutex := Function.update s.mutex m v }

def System.setPhase (s : System T M) (t : T) (p : Phase M) : System T M :=
  { s with phase := Function.update s.phase t p }

/-- `z_set_prio`: the wait queue a thread is in is not sorted again. -/
def System.zSetPrio (s : System T M) (t : T) (prio : Int) : System T M :=
  { s with prio := Function.update s.prio t prio }

def System.took (s : System T M) (t : T) (m : M) : System T M :=
  { s with held := Function.update s.held t (m :: s.held t) }

def System.gave (s : System T M) (t : T) (m : M) : System T M :=
  { s with held := Function.update s.held t ((s.held t).erase m) }

section Fields
variable {s : System T M} {t u : T} {m m' : M} {v : Mutex T} {q : Phase M} {p : Int}

section
omit dT

@[simp] theorem mutex_setMutex : (s.setMutex m v).mutex m' = if m' = m then v else s.mutex m' :=
  Function.update_apply ..
@[simp] theorem prio_setMutex : (s.setMutex m v).prio = s.prio := rfl

@[simp] theorem phase_setMutex : (s.setMutex m v).phase = s.phase := rfl

@[simp] theorem held_setMutex : (s.setMutex m v).held = s.held := rfl

end

section
omit dM

@[simp] theorem mutex_setPhase : (s.setPhase t q).mutex = s.mutex := rfl

@[simp] theorem prio_setPhase : (s.setPhase t q).prio = s.prio := rfl

@[simp] theorem phase_setPhase : (s.setPhase t q).phase u = if u = t then q else s.phase u := Function.update_apply ..

@[simp] theorem held_setPhase : (s.setPhase t q).held = s.held := rfl

@[simp] theorem mutex_zSetPrio : (s.zSetPrio t p).mutex = s.mutex := rfl
@[simp] theorem prio_zSetPrio : (s.zSetPrio t p).prio u = if u = t then p else s.prio u := Function.update_apply ..

@[simp] theorem phase_zSetPrio : (s.zSetPrio t p).phase = s.phase := rfl

@[simp] theorem held_zSetPrio : (s.zSetPrio t p).held = s.held := rfl

@[simp] theorem mutex_took : (s.took t m).mutex = s.mutex := rfl

@[simp] theorem prio_took : (s.took t m).prio = s.prio := rfl

@[simp] theorem phase_took : (s.took t m).phase = s.phase := rfl

end

@[simp] theorem mutex_gave : (s.gave t m).mutex = s.mutex := rfl

@[simp] theorem prio_gave : (s.gave t m).prio = s.prio := rfl

@[simp] theorem phase_gave : (s.gave t m).phase = s.phase := rfl

end Fields

def zIsPrioHigher (prio testPrio : Int) : Prop := prio < testPrio
  deriving Decidable

section Calls
-- `CONFIG_PRIORITY_CEILING`
variable (ceiling : Int)

def zGetNewPrioWithCeiling (prio : Int) : Int := if prio ≥ ceiling then prio else ceiling

def newPrioForInheritance (target limit : Int) : Int :=
  zGetNewPrioWithCeiling ceiling (if zIsPrioHigher target limit then target else limit)

def adjustOwnerPrio (s : System T M) (m : M) (newPrio : Int) : Except Stop (System T M) :=
  match (s.mutex m).owner with
  | none => .error .nullOwner
  | some owner => .ok (if s.prio owner ≠ newPrio then s.zSetPrio owner newPrio else s)

/-- `z_pend_curr`, up to the swap. -/
def System.zPendCurr (s : System T M) (m : M) (current : T) : System T M :=
  (s.setMutex m { s.mutex m with waitQ := zPriqDumbAdd s.prio current (s.mutex m).waitQ }).setPhase current (.pending m)

/-- `z_impl_k_mutex_lock`, up to where it waits. -/
def kMutexLock (s : System T M) (m : M) (current : T) (noWait : Bool) : Except Stop (System T M × Option Int) :=
  let mutex := s.mutex m
  if mutex.lockCount = 0 ∨ mutex.owner = some current then
    let ownerOrigPrio := if mutex.lockCount = 0 then s.prio current else mutex.ownerOrigPrio
    let lockCount := (mutex.lockCount + 1) % 2 ^ 32
    .ok ((s.setMutex m { mutex with ownerOrigPrio, lockCount, owner := some current }).took current m, some 0)
  else if noWait then .ok (s, some ebusy)
  else
    match mutex.owner with
    | none => .error .nullOwner
    | some owner => do
      let newPrio := newPrioForInheritance ceiling (s.prio current) (s.prio owner)
      let s ← if zIsPrioHigher newPrio (s.prio owner) then adjustOwnerPrio s m newPrio else .ok s
      return (s.zPendCurr m current, none)

/-- `z_thread_timeout` of a thread that waits for a mutex. -/
def zThreadTimeout (s : System T M) (m : M) (t : T) : System T M :=
  (s.setMutex m { s.mutex m with waitQ := (s.mutex m).waitQ.erase t }).setPhase t (.timedOut m)

/-- The rest of `z_impl_k_mutex_lock` after a timeout. -/
def kMutexLockTimedOut (s : System T M) (m : M) (current : T) : Except Stop (System T M × Int) := do
  let mutex := s.mutex m
  let newPrio := match zPriqDumbBest mutex.waitQ with
    | some waiter => newPrioForInheritance ceiling (s.prio waiter) mutex.ownerOrigPrio
    | none => mutex.ownerOrigPrio
  let s ← adjustOwnerPrio s m newPrio
  return (s.setPhase current .idle, eagain)

def kMutexUnlock (s : System T M) (m : M) (current : T) : Except Stop (System T M × Int) :=
  let mutex := s.mutex m
  match mutex.owner with
  | none => .ok (s, einval)
  | some owner =>
    if owner ≠ current then .ok (s, eperm)
    else if mutex.lockCount > 1 then
      .ok ((s.setMutex m { mutex with lockCount := mutex.lockCount - 1 }).gave current m, 0)
    else do
      let s ← adjustOwnerPrio s m mutex.ownerOrigPrio
      let s := s.gave current m
      match zPriqDumbBest mutex.waitQ with
      | some newOwner =>
        let waitQ := mutex.waitQ.erase newOwner
        let s := s.setMutex m { mutex with owner := some newOwner, ownerOrigPrio := s.prio newOwner, waitQ }
        return ((s.setPhase newOwner .idle).took newOwner m, 0)
      | none => return (s.setMutex m { mutex with owner := none, lockCount := 0 }, 0)

/-! ## Runs -/

inductive Event (T M : Type) where
  | lock (thread : T) (mutex : M) (noWait : Bool)
  | unlock (thread : T) (mutex : M)
  | timeout (thread : T)
  /-- A thread whose wait has timed out runs again. -/
  | timedOut (thread : T)
  deriving DecidableEq

def step (s : System T M) : Event T M → Except Stop (System T M)
  | .lock t m noWait =>
    match s.phase t with
    | .idle => (kMutexLock ceiling s m t noWait).map Prod.fst
    | _ => .error .refused
  | .unlock t m =>
    match s.phase t with
    | .idle => (kMutexUnlock s m t).map Prod.fst
    | _ => .error .refused
  | .timeout t =>
    match s.phase t with
    | .pending m => .ok (zThreadTimeout s m t)
    | _ => .error .refused
  | .timedOut t =>
    match s.phase t with
    | .timedOut m => (kMutexLockTimedOut ceiling s m t).map Prod.fst
    | _ => .error .refused

/-! ## What a step can do -/

/-- The owner a waiting thread finds, raised if the thread is more urgent. -/
def System.raise (s : System T M) (owner : T) (newPrio : Int) : System T M :=
  if zIsPrioHigher newPrio (s.prio owner) then s.zSetPrio owner newPrio else s

/-- What a thread leaves that takes a free mutex. -/
def System.taken (s : System T M) (m : M) (t : T) : System T M :=
  (s.setMutex m { s.mutex m with ownerOrigPrio := s.prio t, lockCount := 1, owner := some t }).took t m

/-- What the owner leaves that takes the mutex once more. -/
def System.nested (s : System T M) (m : M) (t : T) : System T M :=
  (s.setMutex m { s.mutex m with lockCount := ((s.mutex m).lockCount + 1) % 2 ^ 32, owner := some t }).took t m

/-- What the owner leaves that gives one of several locks back. -/
def System.unnested (s : System T M) (m : M) (t : T) : System T M :=
  (s.setMutex m { s.mutex m with lockCount := (s.mutex m).lockCount - 1 }).gave t m

/-- The owner has given the last lock back and its old priority again. -/
def System.restored (s : System T M) (m : M) (t : T) : System T M :=
  (s.zSetPrio t (s.mutex m).ownerOrigPrio).gave t m

/-- The mutex goes to a thread that waits for it. -/
def System.handedOver (s : System T M) (m : M) (newOwner : T) : System T M :=
  ((s.setMutex m { s.mutex m with
    owner := some newOwner, ownerOrigPrio := s.prio newOwner, waitQ := (s.mutex m).waitQ.erase newOwner }).setPhase
      newOwner .idle).took newOwner m

def System.freed (s : System T M) (m : M) : System T M :=
  s.setMutex m { s.mutex m with owner := none, lockCount := 0 }

/-- The priority a thread that stops waiting leaves to the owner. -/
def System.lowered (s : System T M) (m : M) : Int :=
  match zPriqDumbBest (s.mutex m).waitQ with
  | some waiter => newPrioForInheritance ceiling (s.prio waiter) (s.mutex m).ownerOrigPrio
  | none => (s.mutex m).ownerOrigPrio

inductive Outcome (s : System T M) : Event T M → System T M → Prop where
  | taken {t m noWait} (hidle : s.phase t = .idle) (hfree : (s.mutex m).lockCount = 0) :
      Outcome s (.lock t m noWait) (s.taken m t)
  | nested {t m noWait} (hidle : s.phase t = .idle) (hheld : (s.mutex m).lockCount ≠ 0)
      (howner : (s.mutex m).owner = some t) : Outcome s (.lock t m noWait) (s.nested m t)
  | waits {t m o} (hidle : s.phase t = .idle) (hheld : (s.mutex m).lockCount ≠ 0)
      (howner : (s.mutex m).owner = some o) (hother : o ≠ t) :
      Outcome s (.lock t m false) ((s.raise o (newPrioForInheritance ceiling (s.prio t) (s.prio o))).zPendCurr m t)
  | busy {t m} : Outcome s (.lock t m true) s
  | notOwner {t m} (howner : (s.mutex m).owner ≠ some t) : Outcome s (.unlock t m) s
  | unnested {t m} (hidle : s.phase t = .idle) (howner : (s.mutex m).owner = some t)
      (hmany : 1 < (s.mutex m).lockCount) : Outcome s (.unlock t m) (s.unnested m t)
  | handedOver {t m newOwner} (hidle : s.phase t = .idle) (howner : (s.mutex m).owner = some t)
      (hlast : (s.mutex m).lockCount ≤ 1) (hbest : zPriqDumbBest (s.mutex m).waitQ = some newOwner) :
      Outcome s (.unlock t m) ((s.restored m t).handedOver m newOwner)
  | freed {t m} (hidle : s.phase t = .idle) (howner : (s.mutex m).owner = some t)
      (hlast : (s.mutex m).lockCount ≤ 1) (hbest : zPriqDumbBest (s.mutex m).waitQ = none) :
      Outcome s (.unlock t m) ((s.restored m t).freed m)
  | timeout {t m} (hpending : s.phase t = .pending m) : Outcome s (.timeout t) (zThreadTimeout s m t)
  | timedOut {t m o} (hphase : s.phase t = .timedOut m) (howner : (s.mutex m).owner = some o) :
      Outcome s (.timedOut t) ((s.zSetPrio o (s.lowered ceiling m)).setPhase t .idle)

variable {ceiling} {s s' : System T M} {t o : T} {m : M} {p : Int}

omit dM in
theorem zSetPrio_self : s.zSetPrio t (s.prio t) = s := by
  simp only [System.zSetPrio, Function.update_eq_self]

omit dM in
theorem adjustOwnerPrio_eq (h : (s.mutex m).owner = some o) : adjustOwnerPrio s m p = .ok (s.zSetPrio o p) := by
  simp only [adjustOwnerPrio, h]
  split
  · rfl
  · rename_i heq
    rw [← Decidable.not_not.mp heq, zSetPrio_self]

theorem lock_outcome {noWait : Bool} {ret : Option Int} (hidle : s.phase t = .idle)
    (h : kMutexLock ceiling s m t noWait = .ok (s', ret)) : Outcome ceiling s (.lock t m noWait) s' := by
  unfold kMutexLock at h
  by_cases hfast : (s.mutex m).lockCount = 0 ∨ (s.mutex m).owner = some t
  · rw [if_pos hfast] at h
    cases h
    by_cases hfree : (s.mutex m).lockCount = 0
    · rw [if_pos hfree, hfree]
      exact .taken hidle hfree
    · rw [if_neg hfree]
      exact .nested hidle hfree (hfast.resolve_left hfree)
  · rw [if_neg hfast] at h
    obtain ⟨hheld, hother⟩ := not_or.mp hfast
    cases noWait with
    | true =>
      cases h
      exact .busy
    | false =>
      cases howner : (s.mutex m).owner with
      | none =>
        rw [howner] at h
        cases h
      | some o =>
        have hne : o ≠ t := fun heq => hother (heq ▸ howner)
        have hwaits : Outcome ceiling s (.lock t m false)
            ((s.raise o (newPrioForInheritance ceiling (s.prio t) (s.prio o))).zPendCurr m t) :=
          .waits hidle hheld howner hne
        simp only [howner, adjustOwnerPrio_eq howner, Bool.false_eq_true, if_false] at h
        unfold System.raise at hwaits
        split at h <;> rename_i hup
        · rw [if_pos hup] at hwaits
          cases h
          exact hwaits
        · rw [if_neg hup] at hwaits
          cases h
          exact hwaits

theorem timedOut_outcome {ret : Int} (hphase : s.phase t = .timedOut m)
    (h : kMutexLockTimedOut ceiling s m t = .ok (s', ret)) : Outcome ceiling s (.timedOut t) s' := by
  cases howner : (s.mutex m).owner with
  | none =>
    simp only [kMutexLockTimedOut, adjustOwnerPrio, howner] at h
    cases h
  | some o =>
    simp only [kMutexLockTimedOut, adjustOwnerPrio_eq howner] at h
    cases h
    exact .timedOut hphase howner

theorem unlock_outcome {ret : Int} (hidle : s.phase t = .idle) (h : kMutexUnlock s m t = .ok (s', ret)) :
    Outcome ceiling s (.unlock t m) s' := by
  unfold kMutexUnlock at h
  dsimp only at h
  split at h
  · rename_i howner
    cases h
    exact .notOwner (by rw [howner]; nofun)
  · rename_i o howner
    by_cases hot : o = t
    · subst hot
      rw [if_neg (by simp), adjustOwnerPrio_eq howner] at h
      by_cases hmany : 1 < (s.mutex m).lockCount
      · rw [if_pos hmany] at h
        cases h
        exact .unnested hidle howner hmany
      · rw [if_neg hmany] at h
        have hlast : (s.mutex m).lockCount ≤ 1 := Nat.le_of_not_lt hmany
        cases hbest : zPriqDumbBest (s.mutex m).waitQ with
        | some newOwner =>
          rw [hbest] at h
          cases h
          exact .handedOver hidle howner hlast hbest
        | none =>
          rw [hbest] at h
          cases h
          exact .freed hidle howner hlast hbest
    · rw [if_pos hot] at h
      cases h
      exact .notOwner (by rw [howner]; exact fun heq => hot (Option.some.inj heq))

/-- **The ways a step can go.** -/
theorem step_outcome {e : Event T M} (h : step ceiling s e = .ok s') : Outcome ceiling s e s' := by
  cases e with
  | lock t m noWait =>
    simp only [step] at h
    split at h
    · rename_i hidle
      obtain ⟨⟨s', ret⟩, hgo, rfl⟩ := map_eq_ok h
      exact lock_outcome hidle hgo
    · cases h
  | unlock t m =>
    simp only [step] at h
    split at h
    · rename_i hidle
      obtain ⟨⟨s', ret⟩, hgo, rfl⟩ := map_eq_ok h
      exact unlock_outcome hidle hgo
    · cases h
  | timeout t =>
    simp only [step] at h
    split at h
    · rename_i hpending
      cases h
      exact .timeout hpending
    · cases h
  | timedOut t =>
    simp only [step] at h
    split at h
    · rename_i hphase
      obtain ⟨⟨s', ret⟩, hgo, rfl⟩ := map_eq_ok h
      exact timedOut_outcome hphase hgo
    · cases h

theorem step_null {e : Event T M} (h : step ceiling s e = .error .nullOwner) :
    ∃ m, (s.mutex m).owner = none ∧
      ((∃ t, e = .lock t m false ∧ (s.mutex m).lockCount ≠ 0) ∨
        ∃ t, e = .timedOut t ∧ s.phase t = .timedOut m) := by
  cases e with
  | lock t m noWait =>
    simp only [step] at h
    split at h
    · have hgo := map_eq_error h
      unfold kMutexLock at hgo
      by_cases hfast : (s.mutex m).lockCount = 0 ∨ (s.mutex m).owner = some t
      · rw [if_pos hfast] at hgo
        cases hgo
      · rw [if_neg hfast] at hgo
        cases noWait with
        | true => cases hgo
        | false =>
          cases howner : (s.mutex m).owner with
          | none => exact ⟨m, howner, .inl ⟨t, rfl, fun hzero => hfast (.inl hzero)⟩⟩
          | some o =>
            simp only [howner, adjustOwnerPrio_eq howner, Bool.false_eq_true, if_false] at hgo
            split at hgo <;> cases hgo
    · cases h
  | unlock t m =>
    simp only [step] at h
    split at h
    · have hgo := map_eq_error h
      unfold kMutexUnlock at hgo
      dsimp only at hgo
      split at hgo
      · cases hgo
      rename_i o howner
      rw [adjustOwnerPrio_eq howner] at hgo
      split at hgo
      · cases hgo
      split at hgo
      · cases hgo
      · cases hbest : zPriqDumbBest (s.mutex m).waitQ <;> rw [hbest] at hgo <;> cases hgo
    · cases h
  | timeout t =>
    simp only [step] at h
    split at h <;> cases h
  | timedOut t =>
    simp only [step] at h
    split at h
    · rename_i m hphase
      have hgo := map_eq_error h
      cases howner : (s.mutex m).owner with
      | none => exact ⟨m, howner, .inr ⟨t, rfl, hphase⟩⟩
      | some o =>
        simp only [kMutexLockTimedOut, adjustOwnerPrio_eq howner] at hgo
        cases hgo
    · cases h

end Calls

/-- All mutexes as `k_mutex_init` leaves them, which does not set `owner_orig_prio`. -/
def start (ownerOrigPrio : M → Int) (prio : T → Int) : System T M where
  mutex m := { owner := none, lockCount := 0, ownerOrigPrio := ownerOrigPrio m, waitQ := [] }
  prio := prio
  phase _ := .idle
  held _ := []

end RtosKernel.Zephyr.Mutexes
