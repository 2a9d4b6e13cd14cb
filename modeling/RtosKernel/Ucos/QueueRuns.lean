import RtosKernel.Ucos.QueuePool

/-! # Queues hold what was posted

A queue is a list of messages, and a task waits for one as long as the list is empty. The
pool bounds the messages of all the queues together. -/

namespace RtosKernel.Ucos.Queues
open Lib.LinkedList Function
open Lib.Containers
open Lib.Runs

variable {Q T P : Type} [dQ : DecidableEq Q] [dT : DecidableEq T]

/-! ## What the queues are for -/

/-- How far a task has got with `OSQPend`. -/
inductive Wait (P : Type) where
  | none
  | waits (timed : Bool)
  | got (message : Message P)
  | timedOut

/-- The messages that have been accepted and not received, in the order in which they are to be received, and the tasks
that wait, by priority. -/
structure Mail (Q T P : Type) where
  messages : Q → List (Message P)
  waiting : Q → List T
  wait : T → Wait P

def Mail.start : Mail Q T P := ⟨fun _ => [], fun _ => [], fun _ => .none⟩

/-- The limits, and the order of the tasks. -/
structure Limits (Q T : Type) extends Config T where
  size : Nat
  qSize : Q → Nat

variable (c : Limits Q T)

/-- Tasks get a message that they wait for. -/
def Mail.deliver (s : Mail Q T P) (q : Q) (tasks left : List T) (message : Message P) : Mail Q T P :=
  { s with
    waiting := update s.waiting q left
    wait := fun t => if t ∈ tasks then .got message else s.wait t }

def Mail.post [Fintype Q] (s : Mail Q T P) (q : Q) (message : Message P) (opt : OsOpt) : Mail Q T P × Err :=
  if c.osCfgArgChkEn ∧ opt ∉ postOpts then (s, .errOptInvalid)
  else
    match s.waiting q with
    | [] =>
      if c.qSize q ≤ (s.messages q).length then (s, .errQMax)
      else if c.size ≤ ∑ q, (s.messages q).length then (s, .errMsgPoolEmpty)
      else
        let messages := if optLifo opt then message :: s.messages q else s.messages q ++ [message]
        ({ s with messages := update s.messages q messages }, .errNone)
    | t :: left =>
      (if optAll opt then s.deliver q (t :: left) [] message else s.deliver q [t] left message, .errNone)

def Mail.pend (s : Mail Q T P) (q : Q) (cur : T) (timeout : Nat) (opt : OsOpt) (schedLocked : Bool) :
    Mail Q T P × Option (Received P) :=
  if c.osCfgArgChkEn ∧ opt ∉ pendOpts then (s, some (.null, .errOptInvalid))
  else
    match s.messages q with
    | message :: messages => ({ s with messages := update s.messages q messages }, some (message, .errNone))
    | [] =>
      if optNonBlocking opt then (s, some (.null, .errPendWouldBlock))
      else if schedLocked then (s, some (.null, .errSchedLocked))
      else
        ({ s with
          waiting := update s.waiting q (insertBy c.prio cur (s.waiting q))
          wait := update s.wait cur (.waits (0 < timeout)) }, none)

def Mail.resume (s : Mail Q T P) (cur : T) : Mail Q T P × Received P :=
  ({ s with wait := update s.wait cur .none },
    match s.wait cur with
    | .got message => (message, .errNone)
    | _ => (.null, .errTimeout))

def Mail.timeout (s : Mail Q T P) (t : T) : Mail Q T P :=
  { s with
    waiting := fun q => (s.waiting q).erase t
    wait := update s.wait t .timedOut }

def Mail.flush (s : Mail Q T P) (q : Q) : Mail Q T P × Nat :=
  ({ s with messages := update s.messages q [] }, (s.messages q).length)

/-- An event, and what its call returns. -/
def Mail.step [Fintype Q] (s : Mail Q T P) : Event Q T P → Mail Q T P × Output P
  | .post q message opt => ((s.post c q message opt).1, .posted (s.post c q message opt).2)
  | .pend q cur timeout opt schedLocked =>
    ((s.pend c q cur timeout opt schedLocked).1, .ofPend (s.pend c q cur timeout opt schedLocked).2)
  | .resume cur => ((s.resume cur).1, .received (s.resume cur).2)
  | .timeout t _ => (s.timeout t, .nothing)
  | .flush q => ((s.flush q).1, .flushed (s.flush q).2)

/-- What is in the queues after the events. -/
def Mail.after [Fintype Q] (events : List (Event Q T P)) : Mail Q T P :=
  events.foldl (fun s e => (s.step c e).1) .start

/-! ## The queues agree with it -/

section
variable [fQ : Fintype Q] {c} {k k' : Kernel Q T P} {s s' : Mail Q T P} {free : List Nat} {list : Q → List Nat} {q : Q} {t : T}

/-- The control block of a task agrees with how far it has got. -/
def WaitOk (k : Kernel Q T P) (s : Mail Q T P) (t : T) : Prop :=
  match s.wait t with
  | .none => (k.tcb t).taskState = .rdy ∧ k.calls t = false
  | .waits timed => (k.tcb t).taskState = (if timed then .pendTimeout else .pend) ∧ k.calls t = true
  | .got message => (k.tcb t).taskState = .rdy ∧ k.calls t = true ∧ (k.tcb t).pendStatus = .ok ∧ (k.tcb t).message = message
  | .timedOut => (k.tcb t).taskState = .rdy ∧ k.calls t = true ∧ (k.tcb t).pendStatus = .timeout

/-- The blocks of a queue hold its messages, its pend list the tasks that wait, and none does if there is a message. -/
structure Agrees (c : Limits Q T) (k : Kernel Q T P) (s : Mail Q T P) (free : List Nat) (list : Q → List Nat) : Prop where
  held : Held k.store c.size c.qSize free list
  messages : ∀ q, (list q).map k.store.message = s.messages q
  pendOk : k.pend.Ok
  waiting : k.pend.items = s.waiting
  noneWaits : ∀ q, s.waiting q = [] ∨ s.messages q = []
  waits : ∀ t, (k.pend.container t).isSome ↔ ∃ timed, s.wait t = .waits timed
  wait : ∀ t, WaitOk k s t

section
omit dQ dT fQ

theorem WaitOk.congr (h : WaitOk k s t) (hwait : s'.wait t = s.wait t) (htcb : k'.tcb t = k.tcb t)
    (hcalls : k'.calls t = k.calls t) : WaitOk k' s' t := by
  rw [WaitOk] at h ⊢
  rw [hwait, htcb, hcalls]
  exact h

theorem WaitOk.waits {timed : Bool} (h : WaitOk k s t) (hwait : s.wait t = .waits timed) :
    (k.tcb t).taskState = (if timed then .pendTimeout else .pend) ∧ k.calls t = true := by
  rw [WaitOk, hwait] at h
  exact h

theorem WaitOk.rdy_iff (h : WaitOk k s t) : (k.tcb t).taskState = .rdy ↔ ¬ ∃ timed, s.wait t = .waits timed := by
  rw [WaitOk] at h
  cases hwait : s.wait t with
  | waits timed =>
    rw [hwait] at h
    refine iff_of_false ?_ (not_not.mpr ⟨timed, rfl⟩)
    rw [h.1]
    cases timed <;> nofun
  | none =>
    rw [hwait] at h
    exact iff_of_true h.1 nofun
  | got message =>
    rw [hwait] at h
    exact iff_of_true h.1 nofun
  | timedOut =>
    rw [hwait] at h
    exact iff_of_true h.1 nofun

end

section
variable (h : Agrees c k s free list)
include h

section
omit dQ dT

theorem Agrees.keepStore (hstore : k'.store = k.store) (hmessages : s'.messages = s.messages)
    (hpend : k'.pend.Ok) (hwaiting : k'.pend.items = s'.waiting) (hnone : ∀ q, s'.waiting q = [] ∨ s.messages q = [])
    (hwaits : ∀ t, (k'.pend.container t).isSome ↔ ∃ timed, s'.wait t = .waits timed) (hwait : ∀ t, WaitOk k' s' t) :
    Agrees c k' s' free list :=
  ⟨hstore ▸ h.held, fun q => by rw [hstore, hmessages, h.messages], hpend, hwaiting, fun q => hmessages ▸ hnone q, hwaits, hwait⟩

theorem Agrees.keepTasks {free' : List Nat} {list' : Q → List Nat} {store : Store Q P} {messages : Q → List (Message P)}
    (hheld : Held store c.size c.qSize free' list')
    (hmessages : ∀ q, (list' q).map store.message = messages q) (hnone : ∀ q, s.waiting q = [] ∨ messages q = []) :
    Agrees c { k with store } { s with messages } free' list' :=
  ⟨hheld, hmessages, h.pendOk, h.waiting, hnone, h.waits, h.wait⟩

theorem Agrees.container (ht : t ∈ s.waiting q) : k.pend.container t = some q :=
  (h.pendOk.mem_iff t q).mp (h.waiting ▸ ht)

end

theorem Agrees.deliverOne {message : Message P} {left : List T} (ht : s.waiting q = t :: left) :
    Agrees c (os_Post k t message) (s.deliver q [t] left message) free list := by
  have hcontainer := h.container (q := q) (ht ▸ List.mem_cons_self ..)
  obtain ⟨timed, hwaits⟩ := (h.waits t).mp (by rw [hcontainer]; rfl)
  obtain ⟨hstate, hcalls⟩ := (h.wait t).waits hwaits
  have hpost : os_Post k t message =
      { k with pend := k.pend.remove t }.setTcb t { message, taskState := .rdy, pendStatus := .ok } := by
    rw [os_Post, hstate]
    cases timed <;> rfl
  rw [hpost]
  refine h.keepStore rfl rfl (h.pendOk.remove t) (funext fun r => ?_) (fun r => ?_) (fun u => ?_) fun u => ?_
  · show (k.pend.remove t).items r = update s.waiting q left r
    by_cases hr : r = q
    · rw [hr, update_self, items_remove_self hcontainer, h.waiting, ht, List.erase_cons_head]
    · rw [update_of_ne hr, items_remove_of_ne (by rw [hcontainer]; exact fun heq => hr (Option.some.inj heq).symm),
        h.waiting]
  · show update s.waiting q left r = [] ∨ _
    by_cases hr : r = q
    · exact .inr (hr ▸ (h.noneWaits q).resolve_left (by rw [ht]; nofun))
    · rw [update_of_ne hr]
      exact h.noneWaits r
  · show ((k.pend.remove t).container u).isSome ↔ ∃ timed, (if u ∈ [t] then _ else s.wait u) = _
    by_cases hu : u = t
    · rw [hu, container_remove_self, if_pos (List.mem_singleton.mpr rfl)]
      exact ⟨nofun, nofun⟩
    · rw [container_remove_of_ne hu, if_neg (by simpa using hu)]
      exact h.waits u
  · by_cases hu : u = t
    · rw [hu, WaitOk]
      simp [Mail.deliver, Kernel.setTcb, hcalls]
    · exact (h.wait u).congr (if_neg (by simpa using hu)) (update_of_ne hu _ _) rfl

end

theorem Agrees.deliverAll {message : Message P} : ∀ {tasks : List T} {k : Kernel Q T P} {s : Mail Q T P}, Agrees c k s free list →
    s.waiting q = tasks → Agrees c (postLoop message true k tasks) (s.deliver q tasks [] message) free list
  | [], k, s, h, hs => by
    have hsame : s.deliver q [] [] message = s := by
      rw [Mail.deliver, ← hs, update_eq_self, hs]
      simp
    rw [hsame]
    exact h
  | t :: left, k, s, h, hs => by
    have hsame : (s.deliver q [t] left message).deliver q left [] message = s.deliver q (t :: left) [] message := by
      rw [Mail.deliver, Mail.deliver, Mail.deliver, update_idem]
      congr 1
      funext u
      by_cases hu : u = t
      · simp [hu]
      · simp [hu]
    rw [postLoop, if_pos rfl, ← hsame]
    exact Agrees.deliverAll (h.deliverOne hs) (update_self ..)

theorem Agrees.timeout {ts : Nat} (h : Agrees c k s free list) (ht : (k.tcb t).taskState = .pendTimeout) :
    Agrees c (tickPendTimeout k t ts) (s.timeout t) free list := by
  have hnot : ¬ (k.tcb t).taskState = .rdy := by rw [ht]; nofun
  obtain ⟨timed, hwaits⟩ := not_not.mp ((h.wait t).rdy_iff.not.mp hnot)
  obtain ⟨-, hcalls⟩ := (h.wait t).waits hwaits
  refine h.keepStore rfl rfl (h.pendOk.remove t) (funext fun r => ?_) (fun r => ?_) (fun u => ?_) fun u => ?_
  · show (k.pend.remove t).items r = (s.waiting r).erase t
    rw [items_remove h.pendOk, h.waiting]
  · show (s.waiting r).erase t = [] ∨ _
    exact (h.noneWaits r).imp_left fun hr => by rw [hr]; rfl
  · show ((k.pend.remove t).container u).isSome ↔ ∃ timed, update s.wait t _ u = _
    by_cases hu : u = t
    · rw [hu, container_remove_self, update_self]
      exact ⟨nofun, nofun⟩
    · rw [container_remove_of_ne hu, update_of_ne hu]
      exact h.waits u
  · by_cases hu : u = t
    · rw [hu, WaitOk]
      simp [Mail.timeout, tickPendTimeout, Kernel.setTcb, hcalls]
    · exact (h.wait u).congr (update_of_ne hu _ _) (update_of_ne hu _ _) rfl

theorem Agrees.block {timeout : Nat} (h : Agrees c k s free list) (ht : (k.tcb t).taskState = .rdy) (hq : s.messages q = []) :
    Agrees c { os_Pend c.prio k q t timeout with calls := update k.calls t true }
      { s with
        waiting := update s.waiting q (insertBy c.prio t (s.waiting q))
        wait := update s.wait t (.waits (0 < timeout)) } free list := by
  have hnone : k.pend.container t = none :=
    Option.not_isSome_iff_eq_none.mp fun hsome => (h.wait t).rdy_iff.mp ht ((h.waits t).mp hsome)
  refine h.keepStore rfl rfl (h.pendOk.insert hnone) (funext fun r => ?_) (fun r => ?_) (fun u => ?_) fun u => ?_
  · show (k.pend.insert c.prio q t).items r = update s.waiting q _ r
    rw [Lists.insert, Lists.put, h.waiting]
  · show update s.waiting q _ r = [] ∨ _
    by_cases hr : r = q
    · exact .inr (hr ▸ hq)
    · rw [update_of_ne hr]
      exact h.noneWaits r
  · show (update k.pend.container t (some q) u).isSome ↔ ∃ timed, update s.wait t _ u = _
    by_cases hu : u = t
    · rw [hu, update_self, update_self]
      exact iff_of_true rfl ⟨_, rfl⟩
    · rw [update_of_ne hu, update_of_ne hu]
      exact h.waits u
  · by_cases hu : u = t
    · rw [hu, WaitOk]
      simp [os_Pend, Kernel.setTcb]
    · exact (h.wait u).congr (update_of_ne hu _ _) (update_of_ne hu _ _) (update_of_ne hu _ _)

omit dQ in
theorem Agrees.resume (h : Agrees c k s free list) (ht : (k.tcb t).taskState = .rdy) (hcalls : k.calls t = true) :
    osQPendRest k t = (s.resume t).2 ∧
      Agrees c { k with calls := update k.calls t false } (s.resume t).1 free list := by
  have hnot := (h.wait t).rdy_iff.mp ht
  have hwait := h.wait t
  rw [WaitOk] at hwait
  constructor
  · rw [osQPendRest, Mail.resume]
    cases hw : s.wait t with
    | none =>
      rw [hw, hcalls] at hwait
      cases hwait.2
    | waits timed => exact absurd ⟨timed, hw⟩ hnot
    | got message =>
      rw [hw] at hwait
      obtain ⟨-, -, hstatus, hmessage⟩ := hwait
      simp only [hstatus, hmessage]
    | timedOut =>
      rw [hw] at hwait
      simp only [hwait.2.2]
  · refine h.keepStore rfl rfl h.pendOk h.waiting h.noneWaits (fun u => ?_) fun u => ?_
    · show (k.pend.container u).isSome ↔ ∃ timed, update s.wait t _ u = _
      rw [h.waits u]
      by_cases hu : u = t
      · rw [hu, update_self]
        exact iff_of_false hnot nofun
      · rw [update_of_ne hu]
    · by_cases hu : u = t
      · rw [hu, WaitOk]
        simp [Mail.resume, ht]
      · exact (h.wait u).congr (update_of_ne hu _ _) rfl (update_of_ne hu _ _)

/-! ## Calls -/

omit dQ dT in
theorem Agrees.length (h : Agrees c k s free list) (q : Q) : (s.messages q).length = (list q).length := by
  rw [← h.messages, List.length_map]

omit dT in
theorem Agrees.put {i : Nat} {message : Message P} {lifo : Bool} (h : Agrees c k s (i :: free) list) (r : Q) :
    (update list q (if lifo then i :: list q else list q ++ [i]) r).map (update k.store.message i message) =
      update s.messages q (if lifo then message :: s.messages q else s.messages q ++ [message]) r := by
  have hsame : ∀ q, (list q).map (update k.store.message i message) = s.messages q := by
    intro q
    rw [← h.messages]
    refine List.map_congr_left fun j hj => update_of_ne (fun heq => ?_) _ _
    exact h.held.notMem_free hj (heq ▸ List.mem_cons_self ..)
  by_cases hr : r = q
  · rw [hr, update_self, update_self]
    cases lifo <;> simp [hsame]
  · rw [update_of_ne hr, update_of_ne hr, hsame]

theorem osQPost_agrees (q : Q) (message : Message P) (opt : OsOpt) (h : Agrees c k s free list) :
    ∃ k' free' list', osQPost c.toConfig k q message opt = .ok (k', (s.post c q message opt).2) ∧
      Agrees c k' (s.post c q message opt).1 free' list' ∧ ((s.post c q message opt).2 ≠ .errNone → k' = k) := by
  rw [osQPost, Mail.post, h.waiting]
  by_cases hopt : c.osCfgArgChkEn = true ∧ opt ∉ postOpts
  · rw [if_pos hopt, if_pos hopt]
    exact ⟨k, free, list, rfl, h, fun _ => rfl⟩
  · rw [if_neg hopt, if_neg hopt]
    cases hw : s.waiting q with
    | nil =>
      rw [h.length, Finset.sum_congr rfl fun q _ => h.length q]
      by_cases hfull : c.qSize q ≤ (list q).length
      · rw [os_MsgQPut_full message _ h.held hfull, if_pos hfull]
        exact ⟨k, free, list, rfl, h, fun _ => rfl⟩
      · have htotal := h.held.total
        rw [if_neg hfull]
        cases free with
        | nil =>
          rw [os_MsgQPut_none (q := q) message _ h.held (by omega), if_pos (by rw [← htotal]; simp)]
          exact ⟨k, [], list, rfl, h, fun _ => rfl⟩
        | cons i free =>
          obtain ⟨store, hput, hheld, hmessage⟩ := os_MsgQPut_cons (q := q) message (optLifo opt)
            h.held (by omega)
          rw [hput, if_neg (by rw [← htotal, List.length_cons]; omega)]
          refine ⟨_, free, _, rfl, h.keepTasks hheld (fun r => ?_) fun r => ?_, fun hne => absurd rfl hne⟩
          · rw [hmessage]
            exact h.put r
          · by_cases hr : r = q
            · exact .inl (hr ▸ hw)
            · rw [update_of_ne hr]
              exact h.noneWaits r
    | cons t left =>
      refine ⟨_, free, list, rfl, ?_, fun hne => absurd rfl hne⟩
      cases hall : optAll opt with
      | true => exact h.deliverAll hw
      | false => exact h.deliverOne hw

theorem osQPend_agrees (q : Q) (timeout : Nat) (opt : OsOpt) (schedLocked : Bool) (h : Agrees c k s free list)
    (ht : (k.tcb t).taskState = .rdy) :
    ∃ k' free' list', osQPend c.toConfig k q t timeout opt schedLocked = .ok (k', (s.pend c q t timeout opt schedLocked).2) ∧
      Agrees c k' (s.pend c q t timeout opt schedLocked).1 free' list' := by
  rw [osQPend, Mail.pend]
  by_cases hopt : c.osCfgArgChkEn = true ∧ opt ∉ pendOpts
  · rw [if_pos hopt, if_pos hopt]
    exact ⟨k, free, list, rfl, h⟩
  · rw [if_neg hopt, if_neg hopt]
    have hmessages := h.messages q
    cases hl : list q with
    | nil =>
      rw [hl] at hmessages
      rw [os_MsgQGet_nil h.held hl, ← hmessages]
      simp only [List.map_nil, Except.map]
      by_cases hnon : optNonBlocking opt = true
      · rw [if_neg (by nofun), if_pos hnon, if_pos hnon]
        exact ⟨k, free, list, rfl, h⟩
      · by_cases hlocked : schedLocked = true
        · rw [if_neg (by nofun), if_neg hnon, if_neg hnon, if_pos hlocked, if_pos hlocked]
          exact ⟨k, free, list, rfl, h⟩
        · rw [if_neg (by nofun), if_neg hnon, if_neg hnon, if_neg hlocked, if_neg hlocked]
          exact ⟨_, free, list, rfl, h.block ht hmessages.symm⟩
    | cons i tl =>
      obtain ⟨store, hget, hheld, hmessage⟩ := os_MsgQGet_cons h.held hl
      rw [hl, List.map_cons] at hmessages
      rw [hget, ← hmessages]
      refine ⟨_, _, _, rfl, h.keepTasks hheld (fun r => ?_) fun r => ?_⟩
      · rw [hmessage]
        by_cases hr : r = q
        · rw [hr, update_self, update_self]
        · rw [update_of_ne hr, update_of_ne hr, h.messages]
      · by_cases hr : r = q
        · exact .inl (hr ▸ (h.noneWaits q).resolve_right (by rw [← hmessages]; nofun))
        · rw [update_of_ne hr]
          exact h.noneWaits r

omit dT in
theorem osQFlush_agrees (h : Agrees c k s free list) :
    ∃ k' free' list', osQFlush k q = .ok (k', (s.flush q).2) ∧ Agrees c k' (s.flush q).1 free' list' := by
  obtain ⟨store, hflush, hheld, hmessage⟩ := os_MsgQFreeAll_spec h.held q
  rw [osQFlush, hflush, Mail.flush, h.length]
  refine ⟨_, _, _, rfl, h.keepTasks hheld (fun r => ?_) fun r => ?_⟩
  · rw [hmessage]
    by_cases hr : r = q
    · rw [hr, update_self, update_self, List.map_nil]
    · rw [update_of_ne hr, update_of_ne hr, h.messages]
  · by_cases hr : r = q
    · rw [hr, update_self]
      exact .inr rfl
    · rw [update_of_ne hr]
      exact h.noneWaits r

/-! ## Runs -/

theorem perform_agrees (h : Agrees c k s free list) (e : Event Q T P) :
    perform c.toConfig k e = .error .refused ∨
      ∃ k' free' list', perform c.toConfig k e = .ok (k', (s.step c e).2) ∧ Agrees c k' (s.step c e).1 free' list' := by
  cases e with
  | post q message opt =>
    obtain ⟨k', free', list', heq, h', -⟩ := osQPost_agrees q message opt h
    exact .inr ⟨k', free', list', congrArg (Except.map _) heq, h'⟩
  | pend q t timeout opt schedLocked =>
    rw [perform]
    by_cases hrdy : (k.tcb t).taskState = .rdy ∧ k.calls t = false
    · obtain ⟨k', free', list', heq, h'⟩ := osQPend_agrees q timeout opt schedLocked h hrdy.1
      rw [if_pos hrdy]
      exact .inr ⟨k', free', list', congrArg (Except.map _) heq, h'⟩
    · exact .inl (if_neg hrdy)
  | resume t =>
    rw [perform]
    by_cases hrdy : (k.tcb t).taskState = .rdy ∧ k.calls t = true
    · obtain ⟨hout, h'⟩ := h.resume hrdy.1 hrdy.2
      rw [if_pos hrdy, hout]
      exact .inr ⟨_, free, list, rfl, h'⟩
    · exact .inl (if_neg hrdy)
  | timeout t ts =>
    rw [perform]
    by_cases hstate : (k.tcb t).taskState = .pendTimeout
    · rw [if_pos hstate]
      exact .inr ⟨_, free, list, rfl, h.timeout hstate⟩
    · exact .inl (if_neg hstate)
  | flush q =>
    obtain ⟨k', free', list', heq, h'⟩ := osQFlush_agrees (q := q) h
    exact .inr ⟨k', free', list', congrArg (Except.map _) heq, h'⟩

theorem run_agrees {events : List (Event Q T P)} (h : Agrees c k s free list) (hrun : run (step c.toConfig) k events = .ok k') :
    ∃ free' list', Agrees c k' (events.foldl (fun s e => (s.step c e).1) s) free' list' := by
  induction events generalizing k s free list with
  | nil =>
    cases hrun
    exact ⟨free, list, h⟩
  | cons e es ih =>
    obtain ⟨k₁, hstep, hrest⟩ := bind_eq_ok hrun
    rw [step] at hstep
    rcases perform_agrees h e with hrefused | ⟨k₂, free', list', hperform, h'⟩
    · rw [hrefused] at hstep
      cases hstep
    · rw [hperform] at hstep
      obtain rfl : k₂ = k₁ := Except.ok.inj hstep
      exact ih h' hrest

omit dQ dT in
theorem start_agrees {message : Nat → Message P} {nextPtr : Nat → Option Nat} (hsize : 0 < c.size) :
    Agrees c (start T message nextPtr c.size c.qSize) .start (List.range' 0 c.size) fun _ => [] :=
  ⟨os_MsgPoolInit_held hsize, fun _ => rfl, ⟨fun _ _ => ⟨nofun, nofun⟩, fun _ => List.nodup_nil⟩, rfl, fun _ => .inl rfl,
    fun _ => ⟨nofun, nofun⟩, fun _ => ⟨rfl, rfl⟩⟩

/-- **Queues hold what was posted.** After every run the blocks are in the pool or in the queues, once each, the
counters are right, and the list of a queue holds the messages that were accepted and not received; every
further event returns what it is to. -/
theorem queues_hold_messages {message : Nat → Message P} {nextPtr : Nat → Option Nat} {events : List (Event Q T P)}
    (hsize : 0 < c.size) (hrun : run (step c.toConfig) (start T message nextPtr c.size c.qSize) events = .ok k) :
    (∃ free list, Agrees c k (Mail.after c events) free list) ∧
      (∀ e k' output, perform c.toConfig k e = .ok (k', output) → output = ((Mail.after c events).step c e).2) ∧
      (∀ q message opt k' err, osQPost c.toConfig k q message opt = .ok (k', err) → err ≠ .errNone → k' = k) ∧
      ∀ e, perform c.toConfig k e ≠ .error .nullPtr := by
  obtain ⟨free, list, h⟩ := run_agrees (start_agrees hsize) hrun
  refine ⟨⟨free, list, h⟩, fun e k' output hperform => ?_, fun q message opt k' err hpost hne => ?_, fun e => ?_⟩
  · rcases perform_agrees h e with hrefused | ⟨k₁, -, -, hok, -⟩
    · rw [hrefused] at hperform
      cases hperform
    · exact (Prod.mk.inj (Except.ok.inj (hperform.symm.trans hok))).2
  · obtain ⟨k₁, -, -, hok, -, hsame⟩ := osQPost_agrees q message opt h
    obtain ⟨rfl, rfl⟩ := Prod.mk.inj (Except.ok.inj (hpost.symm.trans hok))
    exact hsame hne
  · rcases perform_agrees h e with hrefused | ⟨k₁, -, -, hok, -⟩
    · rw [hrefused]
      nofun
    · rw [hok]
      nofun

end

/-- Two queues share a pool of two blocks, and two tasks of the same priority wait. -/
def twoQueues : Limits (Fin 2) (Fin 2) := { osCfgArgChkEn := true, prio := fun _ => 5, size := 2, qSize := fun _ => 4 }

/-- Task 0 gets the first message, the pool is used up by the next two, the one posted last is received first,
and a queue is flushed. -/
def mixed : List (Event (Fin 2) (Fin 2) Nat) :=
  [.pend 0 0 10 0#16 false, .post 0 ⟨some 7, 4, 0⟩ 0#16, .post 0 ⟨some 8, 4, 0⟩ 0#16, .post 0 ⟨some 9, 4, 0⟩ 0x10#16,
    .post 1 ⟨some 3, 4, 0⟩ 0#16, .resume 0, .pend 0 1 0 0#16 false, .post 1 ⟨some 3, 4, 0⟩ 0#16, .flush 1]

theorem queues_hold_messages_two : ∃ k free list,
    run (step twoQueues.toConfig) (start (Fin 2) (fun _ => .null) (fun _ => none) 2 fun _ => 4) mixed = .ok k ∧
      Agrees twoQueues k (Mail.after twoQueues mixed) free list ∧ (Mail.after twoQueues mixed).messages 0 = [⟨some 8, 4, 0⟩] := by
  obtain ⟨k, hrun, ⟨free, list, h⟩, -⟩ := exists_ok_and
    (x := run (step twoQueues.toConfig) (start (Fin 2) (fun _ => .null) (fun _ => none) 2 fun _ => 4) mixed)
    (by decide +kernel) fun _ hrun => queues_hold_messages (c := twoQueues) (by decide) hrun
  exact ⟨k, free, list, hrun, h, by decide +kernel⟩

end RtosKernel.Ucos.Queues
