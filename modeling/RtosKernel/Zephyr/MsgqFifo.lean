import RtosKernel.Lib.Runs
import RtosKernel.Zephyr.Msgq

/-! # A message queue is a bounded queue of messages

The messages are those in the `used_msgs` places from `read_ptr` on. A thread that waits with a message finds
the queue full, and one that waits for a message finds it empty. -/
namespace RtosKernel.Zephyr.Msgq
open Lib.Window Zephyr.WaitQ List Function Option

variable {T : Type} [dT : DecidableEq T]

/-! ## What a message queue is for -/

inductive Progress where
  | putting (data : Msg) (accepted : Bool)
  | getting (delivered : Option Msg)
  deriving DecidableEq

/-- A queue of messages, and the calls that are going on. -/
structure Spec (T : Type) where
  queue : List Msg
  call : T → Option Progress

def Spec.setCall (s : Spec T) (t : T) (p : Option Progress) : Spec T :=
  { s with call := Function.update s.call t p }

def Spec.setQueue (s : Spec T) (queue : List Msg) : Spec T := { s with queue }

/-- What a queue allows to be seen: messages are accepted at one end and delivered from the other, once in a
call, and a call returns 0 exactly if its message was. -/
def specStep (s : Spec T) : Obs T → Option (Spec T)
  | .putBegan t m => if s.call t = none then some (s.setCall t (some (.putting m false))) else none
  | .getBegan t => if s.call t = none then some (s.setCall t (some (.getting none))) else none
  | .accepted t m =>
    if s.call t = some (.putting m false) then
      some ((s.setCall t (some (.putting m true))).setQueue (s.queue ++ [m]))
    else none
  | .delivered t m =>
    if s.call t = some (.getting none) ∧ s.queue.head? = some m then
      some ((s.setCall t (some (.getting (some m)))).setQueue s.queue.tail)
    else none
  | .putEnded t ret =>
    match s.call t with
    | some (.putting _ accepted) => if accepted = decide (ret = 0) then some (s.setCall t none) else none
    | _ => none
  | .getEnded t ret data =>
    if s.call t = some (.getting (if ret = 0 then some data else none)) then some (s.setCall t none) else none
  | .peeked ret data => if s.queue.head? = (if ret = 0 then some data else none) then some s else none
  | .purged => some (s.setQueue [])

def specRun (s : Spec T) : List (Obs T) → Option (Spec T)
  | [] => some s
  | o :: os => (specStep s o).bind fun s => specRun s os

theorem specRun_append (s : Spec T) (os os' : List (Obs T)) :
    specRun s (os ++ os') = (specRun s os).bind fun s => specRun s os' := by
  induction os generalizing s with
  | nil => rfl
  | cons o os ih =>
    simp only [cons_append, specRun, bind_assoc, ih]

/-- The messages accepted since the last purge, behind those of before. -/
def acceptedSince (l : List Msg) : List (Obs T) → List Msg
  | [] => l
  | .accepted _ m :: os => acceptedSince (l ++ [m]) os
  | .purged :: os => acceptedSince [] os
  | _ :: os => acceptedSince l os

/-- The messages delivered since the last purge, behind those of before. -/
def deliveredSince (l : List Msg) : List (Obs T) → List Msg
  | [] => l
  | .delivered _ m :: os => deliveredSince (l ++ [m]) os
  | .purged :: os => deliveredSince [] os
  | _ :: os => deliveredSince l os

variable {os : List (Obs T)}

theorem acceptedSince_eq {s s' : Spec T} {acc del : List Msg}
    (hrun : specRun s os = some s') (h : acc = del ++ s.queue) :
    acceptedSince acc os = deliveredSince del os ++ s'.queue := by
  induction os generalizing s acc del with
  | nil =>
    cases hrun
    exact h
  | cons o os ih =>
    obtain ⟨s₁, hstep, hrun⟩ := bind_eq_some_iff.mp hrun
    cases o with
    | accepted t m =>
      obtain ⟨_, rfl⟩ := ite_none_right_eq_some.mp hstep |>.imp_right some.inj
      refine ih hrun ?_
      rw [h, append_assoc]
      rfl
    | delivered t m =>
      obtain ⟨⟨_, hhead⟩, rfl⟩ := ite_none_right_eq_some.mp hstep |>.imp_right some.inj
      have hq : s.queue = m :: s.queue.tail := List.eq_cons_of_mem_head? hhead
      refine ih hrun ?_
      rw [h, append_assoc, singleton_append, hq]
      rfl
    | purged =>
      cases hstep
      exact ih hrun rfl
    | putBegan t m =>
      obtain ⟨_, rfl⟩ := ite_none_right_eq_some.mp hstep |>.imp_right some.inj
      exact ih hrun h
    | getBegan t =>
      obtain ⟨_, rfl⟩ := ite_none_right_eq_some.mp hstep |>.imp_right some.inj
      exact ih hrun h
    | getEnded t ret m =>
      obtain ⟨_, rfl⟩ := ite_none_right_eq_some.mp hstep |>.imp_right some.inj
      exact ih hrun h
    | peeked ret m =>
      obtain ⟨_, rfl⟩ := ite_none_right_eq_some.mp hstep |>.imp_right some.inj
      exact ih hrun h
    | putEnded t ret =>
      simp only [specStep] at hstep
      split at hstep
      · obtain ⟨_, rfl⟩ := ite_none_right_eq_some.mp hstep |>.imp_right some.inj
        exact ih hrun h
      · cases hstep

/-! ## Calls as a whole -/

section Calls
variable {s : Spec T} {t u : T} {m m' : Msg} {l : List Msg} {ret : Int} {p p' : Option Progress}

@[simp] theorem queue_setCall : (s.setCall t p).queue = s.queue := rfl

omit dT in
@[simp] theorem queue_setQueue : (s.setQueue l).queue = l := rfl

omit dT in
@[simp] theorem call_setQueue : (s.setQueue l).call = s.call := rfl
@[simp] theorem call_setCall : (s.setCall t p).call t = p := update_self ..

theorem call_setCall_ne (h : u ≠ t) : (s.setCall t p).call u = s.call u := update_of_ne h ..

@[simp] theorem setCall_setCall : (s.setCall t p).setCall t p' = s.setCall t p' := by
  simp only [Spec.setCall, update_idem]

theorem setCall_comm (h : t ≠ u) : (s.setCall t p).setCall u p' = (s.setCall u p').setCall t p := by
  simp only [Spec.setCall, update_comm h]

theorem setCall_self (h : s.call t = p) : s.setCall t p = s := by
  subst h
  simp only [Spec.setCall, update_eq_self]

@[simp] theorem setCall_setQueue : (s.setQueue l).setCall t p = (s.setCall t p).setQueue l := rfl

omit dT in
@[simp] theorem setQueue_setQueue {l' : List Msg} : (s.setQueue l).setQueue l' = s.setQueue l' := rfl

section
variable (h : s.call t = none)
include h

theorem spec_put_wait : specRun s [.putBegan t m] = some (s.setCall t (some (.putting m false))) := by
  simp [specRun, specStep, h]

theorem spec_put_fail (hret : ret ≠ 0) : specRun s [.putBegan t m, .putEnded t ret] = some s := by
  simp [specRun, specStep, h, hret, setCall_self h]

theorem spec_put_store :
    specRun s [.putBegan t m, .accepted t m, .putEnded t 0] = some (s.setQueue (s.queue ++ [m])) := by
  simp [specRun, specStep, h, setCall_self h]

theorem spec_put_give (hu : s.call u = some (.getting none)) (hq : s.queue = []) :
    specRun s [.putBegan t m, .accepted t m, .delivered u m, .putEnded t 0] =
      some (s.setCall u (some (.getting (some m)))) := by
  have htu : t ≠ u := by
    rintro rfl
    rw [h] at hu
    cases hu
  simp [specRun, specStep, h, hu, hq, call_setCall_ne htu.symm, setCall_comm htu,
    setCall_self (call_setCall_ne htu ▸ h)]
  rw [← hq]
  rfl

theorem spec_get_wait : specRun s [.getBegan t] = some (s.setCall t (some (.getting none))) := by
  simp [specRun, specStep, h]

theorem spec_get_fail (hret : ret ≠ 0) : specRun s [.getBegan t, .getEnded t ret m] = some s := by
  simp [specRun, specStep, h, hret, setCall_self h]

theorem spec_get_take (hq : s.queue = m :: l) :
    specRun s [.getBegan t, .delivered t m, .getEnded t 0 m] = some (s.setQueue l) := by
  simp [specRun, specStep, h, hq, setCall_self h]

theorem spec_get_move (hu : s.call u = some (.putting m' false)) (hq : s.queue = m :: l) :
    specRun s [.getBegan t, .delivered t m, .accepted u m', .getEnded t 0 m] =
      some ((s.setCall u (some (.putting m' true))).setQueue (l ++ [m'])) := by
  have htu : t ≠ u := by
    rintro rfl
    rw [h] at hu
    cases hu
  simp [specRun, specStep, h, hu, hq, call_setCall_ne htu.symm, setCall_comm htu,
    setCall_self (call_setCall_ne htu ▸ h)]

end

end Calls

/-! ## Places of the ring -/

def KMsgq.slots (q : KMsgq T) (i : Nat) : Msg := memcpyFrom q.buffer (i * q.msgSize) q.msgSize

variable {q : KMsgq T} {r : Nat} {l : List Msg} {m : Msg}

/-- `read_ptr` is at place `r`, and the messages `l` are from there on. -/
structure Holds (q : KMsgq T) (r : Nat) (l : List Msg) : Prop where
  size_pos : 0 < q.msgSize
  bufferEnd : q.bufferEnd = q.maxMsgs * q.msgSize
  read_lt : r < q.maxMsgs
  read : q.readPtr = r * q.msgSize
  write : q.writePtr = (r + l.length) % q.maxMsgs * q.msgSize
  count : q.usedMsgs = l.length
  length_le : l.length ≤ q.maxMsgs
  items : window q.slots q.maxMsgs r l.length = l

section
omit dT

theorem next_place (hs : 0 < q.msgSize) (hend : q.bufferEnd = q.maxMsgs * q.msgSize) {i : Nat} (hi : i < q.maxMsgs) :
    q.next (i * q.msgSize) = (i + 1) % q.maxMsgs * q.msgSize := by
  unfold KMsgq.next
  rw [← Nat.succ_mul, hend]
  rcases Nat.lt_or_ge (i + 1) q.maxMsgs with hlt | hge
  · rw [if_neg, Nat.mod_eq_of_lt hlt]
    intro h
    have := Nat.eq_of_mul_eq_mul_right hs h
    omega
  · have heq : i + 1 = q.maxMsgs := by omega
    rw [Nat.succ_eq_add_one, heq, if_pos rfl, Nat.mod_self, Nat.zero_mul]

theorem slots_memcpy (hm : m.length = q.msgSize) (j : Nat) :
    ({ q with buffer := memcpy q.buffer (j * q.msgSize) m } : KMsgq T).slots = memcpy q.slots j [m] := by
  funext i
  show memcpyFrom (memcpy q.buffer (j * q.msgSize) m) (i * q.msgSize) q.msgSize = _
  by_cases hij : i = j
  · subst hij
    rw [memcpy_inside (le_refl _) (by simp)]
    refine ext_getElem (by simp [memcpyFrom, hm]) fun b hb hb' => ?_
    have hb : b < m.length := by simpa using hb'
    simp [memcpyFrom, memcpy, hb]
  · rw [memcpy_outside (by simp; omega)]
    refine map_congr_left fun b hb => ?_
    have hb := mem_range.mp hb
    apply memcpy_outside
    rcases Nat.lt_or_gt_of_ne hij with hlt | hgt
    · have := Nat.mul_le_mul_right q.msgSize (show i + 1 ≤ j from hlt)
      rw [Nat.succ_mul] at this
      omega
    · have := Nat.mul_le_mul_right q.msgSize (show j + 1 ≤ i from hgt)
      rw [Nat.succ_mul] at this
      omega

theorem Holds.init {buffer : Nat → UInt8} {msgSize maxMsgs : Nat} (hs : 1 ≤ msgSize) (hm : 1 ≤ maxMsgs) :
    Holds (kMsgqInit buffer msgSize maxMsgs : KMsgq T) 0 [] where
  size_pos := hs
  bufferEnd := rfl
  read_lt := hm
  read := (Nat.zero_mul _).symm
  write := by simp [kMsgqInit]
  count := rfl
  length_le := Nat.zero_le _
  items := rfl

theorem Holds.put (h : Holds q r l) (hm : m.length = q.msgSize) (hlt : q.usedMsgs < q.maxMsgs) :
    Holds (q.write m) r (l ++ [m]) where
  size_pos := h.size_pos
  bufferEnd := h.bufferEnd
  read_lt := h.read_lt
  read := h.read
  write := by
    show q.next q.writePtr = _
    rw [h.write, next_place h.size_pos h.bufferEnd (Nat.mod_lt _ (by omega)), Nat.mod_add_mod]
    simp only [KMsgq.write, length_append, length_singleton, Nat.add_assoc]
  count := by simp [KMsgq.write, h.count]
  length_le := by
    have := h.count
    simp only [KMsgq.write, length_append, length_singleton]
    omega
  items := by
    have hcount := h.count
    have hslots := slots_memcpy hm ((r + l.length) % q.maxMsgs)
    have hpos : (r + l.length) % q.maxMsgs < q.maxMsgs := Nat.mod_lt _ (by omega)
    rw [← h.write] at hslots
    show window ({ q with buffer := memcpy q.buffer q.writePtr m } : KMsgq T).slots q.maxMsgs r _ = _
    rw [hslots, ← store_of_le (n := q.maxMsgs) (by simp only [length_singleton]; omega),
      length_append, window_append h.read_lt (by simp only [length_singleton]; omega), h.items]

theorem Holds.get (h : Holds q r (m :: l)) : q.first = m ∧ Holds q.read ((r + 1) % q.maxMsgs) l := by
  have hlt := h.read_lt
  have hitems := h.items
  rw [length_cons, Nat.add_comm, window_add] at hitems
  have hone : window q.slots q.maxMsgs r 1 = [q.first] := by
    simp [window, Nat.mod_eq_of_lt hlt, KMsgq.slots, KMsgq.first, h.read]
  rw [hone, singleton_append] at hitems
  obtain ⟨hfirst, hrest⟩ := List.cons.inj hitems
  refine ⟨hfirst, h.size_pos, h.bufferEnd, Nat.mod_lt _ (by omega), ?_, ?_, ?_, ?_, ?_⟩
  · show q.next q.readPtr = _
    rw [h.read, next_place h.size_pos h.bufferEnd hlt]
    rfl
  · show q.writePtr = ((r + 1) % q.maxMsgs + l.length) % q.maxMsgs * q.msgSize
    rw [h.write, Nat.mod_add_mod, length_cons, Nat.add_assoc, Nat.add_comm 1]
  · simp [KMsgq.read, h.count]
  · exact Nat.le_of_succ_le h.length_le
  · show window q.slots q.maxMsgs ((r + 1) % q.maxMsgs) l.length = l
    rw [window_mod, hrest]

theorem Holds.purge (h : Holds q r l) :
    Holds { q with usedMsgs := 0, readPtr := q.writePtr } ((r + l.length) % q.maxMsgs) [] where
  size_pos := h.size_pos
  bufferEnd := h.bufferEnd
  read_lt := Nat.mod_lt _ (Nat.zero_lt_of_lt h.read_lt)
  read := h.write
  write := by
    show q.writePtr = _
    rw [h.write, length_nil, Nat.add_zero, Nat.mod_mod]
  count := rfl
  length_le := Nat.zero_le _
  items := rfl

theorem Holds.setWaitQ (h : Holds q r l) (waitQ : List T) : Holds { q with waitQ } r l :=
  ⟨h.size_pos, h.bufferEnd, h.read_lt, h.read, h.write, h.count, h.length_le, h.items⟩

end

/-! ## Threads that wait -/

/-- What a thread's place and the bytes at its `swap_data` say about its call. -/
def progress : Phase → Msg → Option Progress
  | .idle, _ => none
  | .pending .put, m => some (.putting m false)
  | .pending .get, _ => some (.getting none)
  | .ready .put ret, m => some (.putting m (ret = 0))
  | .ready .get ret, m => some (.getting (if ret = 0 then some m else none))

/-- Threads wait for one reason at a time: for a message if there is none, and for space if there is none. -/
structure Waits (s : System T) : Prop where
  nodup : s.msgq.waitQ.Nodup
  mem_iff : ∀ t, t ∈ s.msgq.waitQ ↔ ∃ call, s.phase t = .pending call
  getters : ∀ t, s.phase t = .pending .get → s.msgq.usedMsgs = 0
  putters : ∀ t, s.phase t = .pending .put →
    s.msgq.usedMsgs = s.msgq.maxMsgs ∧ (s.swapData t).length = s.msgq.msgSize

variable {s s' : System T} {a : Spec T} {t u : T} {call : Call} {ret : Int}

theorem unpend_eq (h : s.phase t = .pending call) (ret : Int) :
    s.unpend t ret =
      { s.setPhase t (.ready call ret) with msgq := { s.msgq with waitQ := s.msgq.waitQ.erase t } } := by
  rw [System.unpend, h]

theorem Waits.unpend (h : Waits s) (hp : s.phase t = .pending call) (ret : Int) : Waits (s.unpend t ret) := by
  rw [unpend_eq hp]
  have hother {u : T} {c : Call} (hu : (s.setPhase t (.ready call ret)).phase u = .pending c) :
      u ≠ t ∧ s.phase u = .pending c := by
    by_cases hut : u = t
    · subst hut
      simp [System.setPhase] at hu
    · exact ⟨hut, by simpa [System.setPhase, hut] using hu⟩
  refine ⟨h.nodup.erase t, fun u => ?_, fun u hu => h.getters u (hother hu).2, fun u hu => h.putters u (hother hu).2⟩
  show u ∈ s.msgq.waitQ.erase t ↔ ∃ c, (s.setPhase t (.ready call ret)).phase u = .pending c
  rw [h.nodup.mem_erase_iff, h.mem_iff]
  constructor
  · rintro ⟨hut, c, hc⟩
    exact ⟨c, by simpa [System.setPhase, hut] using hc⟩
  · rintro ⟨c, hc⟩
    exact ⟨(hother hc).1, c, (hother hc).2⟩

theorem Waits.setSwapData (h : Waits s) (hp : s.phase t ≠ .pending .put) (m : Msg) : Waits (s.setSwapData t m) := by
  refine ⟨h.nodup, h.mem_iff, h.getters, fun u hu => ?_⟩
  have hut : u ≠ t := fun hut => hp (hut ▸ hu)
  simpa [System.setSwapData, hut] using h.putters u hu

theorem Waits.pend (h : Waits s) (hp : s.phase t = .idle) (hget : call = .get → s.msgq.usedMsgs = 0)
    (hput : call = .put → s.msgq.usedMsgs = s.msgq.maxMsgs ∧ (s.swapData t).length = s.msgq.msgSize) :
    Waits (s.zPendCurr t call) := by
  have hnot : t ∉ s.msgq.waitQ := by
    rw [h.mem_iff, hp]
    rintro ⟨c, hc⟩
    cases hc
  have hcases {u : T} {c : Call} (hu : (s.zPendCurr t call).phase u = .pending c) :
      u = t ∧ call = c ∨ u ≠ t ∧ s.phase u = .pending c := by
    by_cases hut : u = t
    · subst hut
      exact .inl ⟨rfl, by simpa [System.zPendCurr, System.setPhase] using hu⟩
    · exact .inr ⟨hut, by simpa [System.zPendCurr, System.setPhase, hut] using hu⟩
  refine ⟨nodup_zPriqDumbAdd.mpr ⟨hnot, h.nodup⟩, fun u => ?_, fun u hu => ?_, fun u hu => ?_⟩
  · show u ∈ zPriqDumbAdd s.prio t s.msgq.waitQ ↔ _
    rw [mem_zPriqDumbAdd, h.mem_iff]
    by_cases hut : u = t
    · subst hut
      simp [System.zPendCurr, System.setPhase]
    · simp [System.zPendCurr, System.setPhase, hut]
  · rcases hcases hu with ⟨_, hc⟩ | ⟨_, hc⟩
    · exact hget hc
    · exact h.getters u hc
  · rcases hcases hu with ⟨rfl, hc⟩ | ⟨_, hc⟩
    · exact hput hc
    · exact h.putters u hc

section
omit dT

theorem Waits.best (h : Waits s) (hb : zPriqDumbBest s.msgq.waitQ = some t) : ∃ call, s.phase t = .pending call :=
  (h.mem_iff t).mp (List.mem_of_mem_head? hb)

theorem Waits.none (h : Waits s) (hb : zPriqDumbBest s.msgq.waitQ = none) : ∀ t call, s.phase t ≠ .pending call := by
  intro t call ht
  have hmem := (h.mem_iff t).mpr ⟨call, ht⟩
  rw [List.head?_eq_none_iff.mp hb] at hmem
  cases hmem

theorem Waits.setMsgq (h : Waits s) {q : KMsgq T} (hq : q.waitQ = s.msgq.waitQ)
    (hused : q.usedMsgs = s.msgq.usedMsgs ∧ q.maxMsgs = s.msgq.maxMsgs ∧ q.msgSize = s.msgq.msgSize ∨
      ∀ t call, s.phase t ≠ .pending call) : Waits { s with msgq := q } := by
  refine ⟨hq ▸ h.nodup, fun t => hq ▸ h.mem_iff t, fun t ht => ?_, fun t ht => ?_⟩
  · rcases hused with ⟨hu, _⟩ | hno
    · exact hu.trans (h.getters t ht)
    · exact absurd ht (hno t _)
  · rcases hused with ⟨hu, hm, hs⟩ | hno
    · obtain ⟨hfull, hlen⟩ := h.putters t ht
      exact ⟨hu.trans (hfull.trans hm.symm), hlen.trans hs.symm⟩
    · exact absurd ht (hno t _)

end

/-- The ring holds the queue, and every call is where it has come to. -/
structure Refines (s : System T) (a : Spec T) : Prop where
  holds : ∃ r, Holds s.msgq r a.queue
  waits : Waits s
  call : ∀ t, a.call t = progress (s.phase t) (s.swapData t)

section
variable (h : Refines s a)
include h

section
omit dT

theorem Refines.count : s.msgq.usedMsgs = a.queue.length := by
  obtain ⟨r, hr⟩ := h.holds
  exact hr.count

theorem Refines.best_get (hlt : s.msgq.usedMsgs < s.msgq.maxMsgs)
    (hb : zPriqDumbBest s.msgq.waitQ = some t) : s.phase t = .pending .get := by
  obtain ⟨call, hcall⟩ := h.waits.best hb
  cases call with
  | get => exact hcall
  | put =>
    have := (h.waits.putters t hcall).1
    omega

theorem Refines.best_put (hlt : s.msgq.usedMsgs > 0)
    (hb : zPriqDumbBest s.msgq.waitQ = some t) : s.phase t = .pending .put := by
  obtain ⟨call, hcall⟩ := h.waits.best hb
  cases call with
  | put => exact hcall
  | get =>
    have := h.waits.getters t hcall
    omega

end

theorem Refines.update (queue : List Msg) {p : Option Progress} (hholds : ∃ r, Holds s'.msgq r queue)
    (hwaits : Waits s') (ht : p = progress (s'.phase t) (s'.swapData t))
    (hother : ∀ u ≠ t, s'.phase u = s.phase u ∧ s'.swapData u = s.swapData u) :
    Refines s' ((a.setCall t p).setQueue queue) := by
  refine ⟨hholds, hwaits, fun u => ?_⟩
  by_cases hut : u = t
  · subst hut
    rw [call_setQueue, call_setCall, ht]
  · rw [call_setQueue, call_setCall_ne hut, h.call, (hother u hut).1, (hother u hut).2]

omit dT in
theorem Refines.call_idle (hp : s.phase t = .idle) : a.call t = none := by
  rw [h.call, hp]
  rfl

theorem Refines.unpend (hp : s.phase t = .pending call) (ret : Int) :
    Refines (s.unpend t ret) (a.setCall t (progress (.ready call ret) (s.swapData t))) := by
  obtain ⟨r, hr⟩ := h.holds
  refine h.update a.queue ⟨r, ?_⟩ (h.waits.unpend hp ret) ?_ fun u hu => ?_
  · rw [unpend_eq hp]
    exact hr.setWaitQ _
  · rw [unpend_eq hp]
    simp [System.setPhase]
  · rw [unpend_eq hp]
    simp [System.setPhase, hu]

theorem Refines.pend (hp : s.phase t = .idle) {m : Msg} (hl : m.length = s.msgq.msgSize)
    (hget : call = .get → s.msgq.usedMsgs = 0) (hput : call = .put → s.msgq.usedMsgs = s.msgq.maxMsgs) :
    Refines ((s.setSwapData t m).zPendCurr t call) (a.setCall t (progress (.pending call) m)) := by
  obtain ⟨r, hr⟩ := h.holds
  have hwaits := h.waits.setSwapData (t := t) (by rw [hp]; decide) m
  refine h.update a.queue ⟨r, hr.setWaitQ _⟩ (hwaits.pend hp hget fun hc => ⟨hput hc, ?_⟩) ?_ fun u hu => ?_
  · simpa [System.setSwapData] using hl
  · simp [System.zPendCurr, System.setPhase, System.setSwapData]
  · simp [System.zPendCurr, System.setPhase, System.setSwapData, hu]

theorem put_refines {data : Msg} (hp : s.phase t = .idle) (hl : data.length = s.msgq.msgSize) (noWait : Bool) :
    ∃ a', specRun a (.putBegan t data :: (kMsgqPut s t data noWait).2) = some a' ∧
      Refines (kMsgqPut s t data noWait).1 a' := by
  obtain ⟨r, hr⟩ := h.holds
  have hcall := h.call_idle hp
  unfold kMsgqPut
  by_cases hlt : s.msgq.usedMsgs < s.msgq.maxMsgs
  · rw [if_pos hlt]
    cases hb : zPriqDumbBest s.msgq.waitQ with
    | some p =>
      have hget := h.best_get hlt hb
      have hempty : a.queue = [] := by
        rw [← length_eq_zero_iff, ← h.count]
        exact h.waits.getters p hget
      have hgiven : Refines (s.setSwapData p data) a := by
        refine ⟨h.holds, h.waits.setSwapData (by rw [hget]; decide) data, fun u => ?_⟩
        by_cases hup : u = p
        · subst hup
          rw [h.call, show (s.setSwapData u data).phase u = _ from hget, hget]
          rfl
        · simpa [System.setSwapData, hup] using h.call u
      have hwoken := hgiven.unpend (t := p) hget 0
      refine ⟨_, spec_put_give hcall (by rw [h.call, hget]; rfl) hempty, ?_⟩
      simpa [System.setSwapData, progress] using hwoken
    | none =>
      exact ⟨_, spec_put_store hcall, ⟨r, hr.put hl hlt⟩, h.waits.setMsgq rfl (.inr (h.waits.none hb)), h.call⟩
  · rw [if_neg hlt]
    cases noWait with
    | true => exact ⟨_, spec_put_fail hcall (by decide), h⟩
    | false =>
      have hfull : s.msgq.usedMsgs = s.msgq.maxMsgs := by
        have := hr.length_le
        have := hr.count
        omega
      exact ⟨_, spec_put_wait hcall, h.pend hp hl nofun fun _ => hfull⟩

theorem get_refines {buf : Msg} (hp : s.phase t = .idle) (hl : buf.length = s.msgq.msgSize) (noWait : Bool) :
    ∃ a', specRun a (.getBegan t :: (kMsgqGet s t buf noWait).2) = some a' ∧
      Refines (kMsgqGet s t buf noWait).1 a' := by
  obtain ⟨r, hr⟩ := h.holds
  have hcall := h.call_idle hp
  unfold kMsgqGet
  by_cases hpos : s.msgq.usedMsgs > 0
  · rw [if_pos hpos]
    obtain ⟨m, l, hq⟩ : ∃ m l, a.queue = m :: l := by
      refine exists_cons_of_length_pos ?_
      rw [← h.count]
      exact hpos
    rw [hq] at hr
    obtain ⟨hfirst, hread⟩ := hr.get
    have hcount := hr.count
    have hle := hr.length_le
    rw [hfirst]
    dsimp only
    cases hb : zPriqDumbBest s.msgq.read.waitQ with
    | some p =>
      have hput := h.best_put hpos hb
      obtain ⟨hfull, hlen⟩ := h.waits.putters p hput
      have hwrite := hread.put (m := s.swapData p) hlen (by simp only [KMsgq.read]; omega)
      have hwaits := h.waits.setMsgq (q := s.msgq.read.write (s.swapData p)) rfl
        (.inl ⟨by simp only [KMsgq.read, KMsgq.write]; omega, rfl, rfl⟩)
      have hmoved : Refines { s with msgq := s.msgq.read.write (s.swapData p) } (a.setQueue (l ++ [s.swapData p])) :=
        ⟨⟨_, hwrite⟩, hwaits, h.call⟩
      exact ⟨_, spec_get_move hcall (by rw [h.call, hput]; rfl) hq, hmoved.unpend (t := p) hput 0⟩
    | none =>
      exact ⟨_, spec_get_take hcall hq, ⟨_, hread⟩, h.waits.setMsgq rfl (.inr (h.waits.none hb)), h.call⟩
  · rw [if_neg hpos]
    cases noWait with
    | true => exact ⟨_, spec_get_fail hcall (by decide), h⟩
    | false => exact ⟨_, spec_get_wait hcall, h.pend hp hl (fun _ => by omega) nofun⟩

theorem Refines.dismiss (hp : s.phase t = .pending call) (hret : ret ≠ 0) : Refines (s.unpend t ret) a := by
  have hsame : a.call t = progress (.ready call ret) (s.swapData t) := by
    rw [h.call, hp]
    cases call <;> simp [progress, hret]
  have hwoken := h.unpend hp ret
  rwa [setCall_self hsame] at hwoken

theorem wakeAll_refines {pq : List T} (hpq : s.msgq.waitQ = pq) :
    Refines (wakeAll s pq) a ∧ (wakeAll s pq).msgq.waitQ = [] := by
  induction pq generalizing s with
  | nil => exact ⟨h, hpq⟩
  | cons t pq ih =>
    obtain ⟨call, hcall⟩ := h.waits.best (t := t) (by rw [zPriqDumbBest, hpq]; rfl)
    refine ih (h.dismiss hcall (by decide)) ?_
    rw [unpend_eq hcall]
    simp [hpq]

theorem purge_refines : Refines (kMsgqPurge s) (a.setQueue []) := by
  obtain ⟨hwoken, hempty⟩ := wakeAll_refines h rfl
  obtain ⟨r, hr⟩ := hwoken.holds
  exact ⟨⟨_, hr.purge⟩, hwoken.waits.setMsgq rfl (.inr (hwoken.waits.none (by rw [hempty]; rfl))), hwoken.call⟩

theorem peek_refines (buf : Msg) : specStep a (kMsgqPeek s buf) = some a := by
  obtain ⟨r, hr⟩ := h.holds
  unfold kMsgqPeek
  cases hq : a.queue with
  | nil =>
    rw [if_neg (by rw [h.count, hq]; decide)]
    simp [specStep, hq, enomsg]
  | cons m l =>
    rw [if_pos (by rw [h.count, hq]; exact Nat.succ_pos _)]
    rw [hq] at hr
    simp [specStep, hq, hr.get.1]

theorem Refines.resume (hp : s.phase t = .ready call ret) : Refines (s.setPhase t .idle) (a.setCall t none) := by
  have hwaits : Waits (s.setPhase t .idle) := by
    have hphase {u : T} {c : Call} : (s.setPhase t .idle).phase u = .pending c ↔ s.phase u = .pending c := by
      by_cases hut : u = t
      · subst hut
        simp [System.setPhase, hp]
      · simp [System.setPhase, hut]
    refine ⟨h.waits.nodup, fun u => ?_, fun u hu => h.waits.getters u (hphase.mp hu),
      fun u hu => h.waits.putters u (hphase.mp hu)⟩
    simp only [hphase]
    exact h.waits.mem_iff u
  refine h.update a.queue h.holds hwaits ?_ fun u hu => ?_
  · simp [System.setPhase, progress]
  · simp [System.setPhase, hu]

/-- **One event.** What is seen of it a queue allows. -/
theorem step_refines {e : Event T} (hstep : step s e = some (s', os)) :
    ∃ a', specRun a os = some a' ∧ Refines s' a' := by
  cases e with
  | put t data noWait =>
    obtain ⟨⟨hp, hl⟩, hstep⟩ := ite_none_right_eq_some.mp hstep
    cases hstep
    exact put_refines h hp hl noWait
  | get t buf noWait =>
    obtain ⟨⟨hp, hl⟩, hstep⟩ := ite_none_right_eq_some.mp hstep
    cases hstep
    exact get_refines h hp hl noWait
  | peek t buf =>
    obtain ⟨_, hstep⟩ := ite_none_right_eq_some.mp hstep
    cases hstep
    exact ⟨a, by rw [specRun, peek_refines h]; rfl, h⟩
  | purge t =>
    obtain ⟨_, hstep⟩ := ite_none_right_eq_some.mp hstep
    cases hstep
    exact ⟨_, rfl, purge_refines h⟩
  | timeout t =>
    simp only [step] at hstep
    split at hstep
    · rename_i call hp
      cases hstep
      exact ⟨a, rfl, h.dismiss hp (by decide)⟩
    · cases hstep
  | resume t =>
    simp only [step] at hstep
    split at hstep
    · rename_i ret hp
      cases hstep
      have hcall : a.call t = some (.putting (s.swapData t) (ret = 0)) := by rw [h.call, hp]; rfl
      refine ⟨_, ?_, h.resume hp⟩
      simp [specRun, specStep, hcall]
    · rename_i ret hp
      cases hstep
      have hcall : a.call t = some (.getting (if ret = 0 then some (s.swapData t) else none)) := by rw [h.call, hp]; rfl
      refine ⟨_, ?_, h.resume hp⟩
      simp [specRun, specStep, hcall]
    · cases hstep
  | setPrio t prio =>
    cases hstep
    exact ⟨a, rfl, h.holds, ⟨h.waits.nodup, h.waits.mem_iff, h.waits.getters, h.waits.putters⟩, h.call⟩

end

theorem run_cons {e : Event T} {es : List (Event T)} (hrun : run s (e :: es) = some (s', os)) :
    ∃ s₁ os₁ os₂, step s e = some (s₁, os₁) ∧ run s₁ es = some (s', os₂) ∧ os₁ ++ os₂ = os := by
  obtain ⟨⟨s₁, os₁⟩, hstep, hmore⟩ := bind_eq_some_iff.mp hrun
  obtain ⟨⟨s₂, os₂⟩, hrest, hend⟩ := bind_eq_some_iff.mp hmore
  cases hend
  exact ⟨s₁, os₁, os₂, hstep, hrest, rfl⟩

theorem run_refines (h : Refines s a) {es : List (Event T)} (hrun : run s es = some (s', os)) :
    ∃ a', specRun a os = some a' ∧ Refines s' a' := by
  induction es generalizing s a os with
  | nil =>
    cases hrun
    exact ⟨a, rfl, h⟩
  | cons e es ih =>
    obtain ⟨s₁, os₁, os₂, hstep, hrest, rfl⟩ := run_cons hrun
    obtain ⟨a₁, hspec, h₁⟩ := step_refines h hstep
    obtain ⟨a', hspec', h'⟩ := ih h₁ hrest
    exact ⟨a', by rw [specRun_append, hspec]; exact hspec', h'⟩

/-- The sizes that `k_msgq_init` was given. -/
def KMsgq.sizes (q : KMsgq T) : Nat × Nat := (q.msgSize, q.maxMsgs)

/-- The messages in the ring, the first one first. -/
def KMsgq.messages (q : KMsgq T) : List Msg := window q.slots q.maxMsgs (q.readPtr / q.msgSize) q.usedMsgs

omit dT in
theorem Holds.messages (h : Holds q r l) : q.messages = l := by
  rw [KMsgq.messages, h.read, Nat.mul_div_cancel _ h.size_pos, h.count, h.items]

omit dT in
theorem Holds.writePtr (h : Holds q r l) :
    q.writePtr = (q.readPtr + q.usedMsgs * q.msgSize) % (q.maxMsgs * q.msgSize) := by
  rw [h.write, h.read, h.count, ← Nat.add_mul, Nat.mul_mod_mul_right]

/-- What holds of a message queue after a run in which `os` was seen. -/
structure Sound (s : System T) (os : List (Obs T)) : Prop where
  /-- Threads wait for a message only while there is none. -/
  getters : ∀ t, s.phase t = .pending .get → s.msgq.usedMsgs = 0
  /-- Threads wait for space only while there is none. -/
  putters : ∀ t, s.phase t = .pending .put → s.msgq.usedMsgs = s.msgq.maxMsgs
  /-- All threads in the wait queue wait for the same. -/
  unmixed : ∃ call, ∀ t ∈ s.msgq.waitQ, s.phase t = .pending call
  used_le : s.msgq.usedMsgs ≤ s.msgq.maxMsgs
  writePtr : s.msgq.writePtr = (s.msgq.readPtr + s.msgq.usedMsgs * s.msgq.msgSize) % (s.msgq.maxMsgs * s.msgq.msgSize)
  /-- Since the last purge, what was accepted was delivered in order or is still there. -/
  fifo : acceptedSince [] os = deliveredSince [] os ++ s.msgq.messages
  /-- A queue with the same messages allows what was seen: a call that returns 0 has had its message
  accepted or has been delivered what it returns, once, and a call that returns an error has not. -/
  calls : ∃ call, specRun ⟨[], fun _ => none⟩ os = some ⟨s.msgq.messages, call⟩

theorem Refines.sound (h : Refines s a) (hmax : 1 ≤ s.msgq.maxMsgs)
    (hspec : specRun ⟨[], fun _ => none⟩ os = some a) : Sound s os := by
  obtain ⟨r, hr⟩ := h.holds
  refine ⟨h.waits.getters, fun t ht => (h.waits.putters t ht).1, ?_, ?_, hr.writePtr, ?_, a.call, ?_⟩
  · by_cases hzero : s.msgq.usedMsgs = 0
    · refine ⟨.get, fun t ht => ?_⟩
      obtain ⟨call, hcall⟩ := (h.waits.mem_iff t).mp ht
      cases call with
      | get => exact hcall
      | put =>
        have := (h.waits.putters t hcall).1
        omega
    · refine ⟨.put, fun t ht => ?_⟩
      obtain ⟨call, hcall⟩ := (h.waits.mem_iff t).mp ht
      cases call with
      | put => exact hcall
      | get => exact absurd (h.waits.getters t hcall) hzero
  · rw [hr.count]
    exact hr.length_le
  · rw [hr.messages]
    exact acceptedSince_eq hspec rfl
  · rw [hr.messages, hspec]

/-- Two threads wait for a message, one is given one and one gives up; then two messages come for one place, and
a third thread waits with its own. -/
def fourThreads : List (Event (Fin 4)) :=
  [.get 0 [0, 0] false, .get 1 [0, 0] false, .setPrio 1 5, .put 2 [1, 2] false, .timeout 1, .resume 0, .resume 1,
    .put 2 [3, 4] false, .put 3 [5, 6] false, .peek 0 [0, 0], .get 0 [0, 0] true, .resume 3, .put 1 [7, 8] true,
    .purge 2, .get 1 [0, 0] true]

end RtosKernel.Zephyr.Msgq
