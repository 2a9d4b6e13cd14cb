import RtosKernel.Lib.Wakeups
import RtosKernel.Lib.Window
import RtosKernel.RtThread.DataQueue

/-! # A data queue is a FIFO that wakes enough threads

An item wakes one popper; an empty queue has woken a pusher, but for the time in which a reset has emptied it
and is still resuming those that wait. -/
namespace RtosKernel.RtThread.DataQueue
open Lib.Window Lib.Wakeups Lib.Runs RtThread.IpcList List

variable {Tid V : Type}

/-! ## What a data queue is for -/

inductive Moves : List V → Event Tid V → List V → Prop
  | pushed (l : List V) (t : Tid) (item : V) : Moves l (.pushed t item) (l ++ [item])
  | popped (l : List V) (t : Tid) (item : V) : Moves (item :: l) (.popped t item) l
  | reset (l : List V) : Moves l .reset []

/-- The events, last first, lead from an empty list to `l` over lists of at most `size` items. -/
inductive Replays (size : Nat) : List (Event Tid V) → List V → Prop
  | nil : Replays size [] []
  | cons {l l' : List V} {e : Event Tid V} {es : List (Event Tid V)} (h : Replays size es l) (he : Moves l e l')
      (hle : l'.length ≤ size) : Replays size (e :: es) l'

/-- How many items the indices have room for. -/
def RtDataQueue.room (q : RtDataQueue Tid V) : Nat := min q.size (2 ^ 15)

/-- The indices and the flags represent the list. -/
structure Holds (q : RtDataQueue Tid V) (l : List V) : Prop where
  size_lt : q.size < 2 ^ 16
  get_lt : q.getIndex < q.room
  length_le : l.length ≤ q.room
  put_eq : q.putIndex = (q.getIndex + l.length) % q.room
  empty : q.isEmpty = decide (l = [])
  full : q.isFull = decide (l.length = q.room)
  items : window q.queue q.room q.getIndex l.length = l

variable {q q' : RtDataQueue Tid V} {l : List V} {item : V}

theorem Holds.congr (h : Holds q l) (hqueue : q'.queue = q.queue) (hsize : q'.size = q.size)
    (hget : q'.getIndex = q.getIndex) (hput : q'.putIndex = q.putIndex) (hempty : q'.isEmpty = q.isEmpty)
    (hfull : q'.isFull = q.isFull) : Holds q' l := by
  have hroom : q'.room = q.room := by simp [RtDataQueue.room, hsize]
  obtain ⟨h₁, h₂, h₃, h₄, h₅, h₆, h₇⟩ := h
  constructor <;> simp_all

theorem nextIndex_eq {i : Nat} (h : i < q.room) : nextIndex q.size i = (i + 1) % q.room := by
  rw [← next_cell h]
  unfold nextIndex RtDataQueue.room at *
  rcases Nat.lt_or_ge (i + 1) (2 ^ 15) with hlt | hge
  · rw [Nat.mod_eq_of_lt hlt]
    dsimp only
    split <;> split <;> omega
  · have heq : i + 1 = 2 ^ 15 := by omega
    rw [heq, Nat.mod_self]
    simp only [ite_self]
    rw [if_pos (by omega)]

theorem Holds.pushItem (h : Holds q l) (hfull : q.isFull = false) : Holds (pushItem q item) (l ++ [item]) := by
  have hlt : l.length < q.room := by
    have := h.full
    have := h.length_le
    simp_all
    omega
  have hput : q.putIndex < q.room := by
    rw [h.put_eq]
    exact Nat.mod_lt _ (by omega)
  have hnext : nextIndex q.size q.putIndex = (q.getIndex + (l ++ [item]).length) % q.room := by
    rw [nextIndex_eq hput, h.put_eq, Nat.mod_add_mod, length_append, length_singleton, ← Nat.add_assoc]
  have hlen : (l ++ [item]).length = l.length + 1 := by simp
  refine ⟨h.size_lt, h.get_lt, ?_, hnext, ?_, ?_, ?_⟩
  · show (l ++ [item]).length ≤ q.room
    omega
  · simp [DataQueue.pushItem]
  · show (if nextIndex q.size q.putIndex = q.getIndex then true else q.isFull) = _
    have hget := h.get_lt
    rw [hfull, hnext, hlen, mod_of_lt_two (by omega)]
    show _ = decide (_ = q.room)
    split <;> split <;> simp <;> omega
  · show window (Function.update q.queue q.putIndex item) q.room q.getIndex (l ++ [item]).length = _
    have happ := @window_append _ q.queue _ _ l.length [item] h.get_lt (by simpa using hlt)
    rw [store_of_le (by simp; have := Nat.mod_lt (q.getIndex + l.length) (show 0 < q.room by omega); omega),
      memcpy_singleton, ← h.put_eq, h.items] at happ
    simpa using happ

/-- What a pop leaves, but for the pusher that it resumes. -/
def popped (q : RtDataQueue Tid V) : RtDataQueue Tid V :=
  { q with
    getIndex := nextIndex q.size q.getIndex
    isFull := false
    isEmpty := if q.putIndex = nextIndex q.size q.getIndex then true else q.isEmpty }

theorem popItem_snd : (popItem q).2 = if rtDataQueueLen (popped q) ≤ q.lwm then
    { popped q with suspendedPushList := q.suspendedPushList.tail } else popped q := rfl

theorem Holds.popped (h : Holds q l) (hempty : q.isEmpty = false) :
    ∃ l', l = (popItem q).1 :: l' ∧ Holds (popped q) l' := by
  have hroom : (DataQueue.popped q).room = q.room := rfl
  cases l with
  | nil =>
    have := h.empty
    simp_all
  | cons x l =>
    obtain ⟨hsize, hget, hle, hput, -, -, hitems⟩ := h
    simp only [length_cons] at hle hput hitems
    have hnext := nextIndex_eq hget
    rw [Nat.add_comm l.length 1, window_add] at hitems
    have hone : window q.queue q.room q.getIndex 1 = [q.queue q.getIndex] := by
      simp [window, Nat.mod_eq_of_lt hget]
    rw [hone, singleton_append] at hitems
    obtain ⟨hx, hl⟩ := List.cons.inj hitems
    have hput' : q.putIndex = ((q.getIndex + 1) % q.room + l.length) % q.room := by
      rw [hput, Nat.mod_add_mod]
      congr 1
      omega
    refine ⟨l, by simp [popItem, hx], hsize, ?_, ?_, ?_, ?_, ?_, ?_⟩
    · show nextIndex q.size q.getIndex < q.room
      rw [hnext]
      exact Nat.mod_lt _ (by omega)
    · rw [hroom]
      omega
    · show q.putIndex = (nextIndex q.size q.getIndex + l.length) % q.room
      rw [hnext, hput']
    · show (if q.putIndex = nextIndex q.size q.getIndex then true else q.isEmpty) = decide (l = [])
      have hlt : (q.getIndex + 1) % q.room < q.room := Nat.mod_lt _ (by omega)
      have hsame : q.putIndex = (q.getIndex + 1) % q.room ↔ l = [] := by
        rw [hput', mod_of_lt_two (x := (q.getIndex + 1) % q.room + l.length) (by omega), ← length_eq_zero_iff]
        split <;> omega
      rw [hempty, hnext]
      by_cases hl : l = [] <;> simp [hsame, hl]
    · show false = decide (l.length = q.room)
      simp
      omega
    · show window q.queue q.room (nextIndex q.size q.getIndex) l.length = l
      rw [hnext, window_mod, hl]

theorem Holds.len_eq_iff (h : Holds q l) (hne : l ≠ []) :
    rtDataQueueLen q = l.length ↔ q.size ≤ 2 ^ 15 ∨ q.getIndex < q.putIndex := by
  have hget := h.get_lt
  have hle := h.length_le
  have hsize := h.size_lt
  have hpos : 0 < l.length := length_pos_iff.mpr hne
  have hput := h.put_eq
  have hempty : q.isEmpty = false := by simp [h.empty, hne]
  unfold rtDataQueueLen
  rw [mod_of_lt_two (by omega)] at hput
  rw [hempty]
  unfold RtDataQueue.room at *
  split at hput
  · have hlt : q.putIndex > q.getIndex := by omega
    rw [if_neg Bool.false_ne_true, if_pos hlt]
    omega
  · have hnlt : ¬q.putIndex > q.getIndex := by omega
    rw [if_neg Bool.false_ne_true, if_neg hnlt]
    omega

theorem Holds.len_nil (h : Holds q []) : rtDataQueueLen q = 0 := by
  have := h.empty
  simp_all [rtDataQueueLen]

theorem Holds.len_eq (h : Holds q l) (hsize : q.size ≤ 2 ^ 15) : rtDataQueueLen q = l.length := by
  by_cases hl : l = []
  · subst hl
    exact h.len_nil
  · exact (h.len_eq_iff hl).mpr (.inl hsize)

/-! ## The two sides -/

/-- Those who wait for an item, and those who wait for a place. -/
inductive Side
  | popper
  | pusher

/-- The thread is inside of the loop of its side. -/
def Pc.waits : Side → Pc V → Prop
  | .popper, .popWait _ => True
  | .pusher, .pushWait _ _ => True
  | _, _ => False

/-- The thread is inside of `rt_data_queue_reset`. -/
def Pc.resets : Pc V → Prop
  | .resetPopTest | .resetPop | .resetPushTest | .resetPush => True
  | _ => False

def Resetting (s : State Tid V) : Prop := ∃ t, (s.pc t).resets

open Classical in
/-- A side: the threads inside of its loop that have no error, the list they are suspended on, and what they can count
on. A pusher can count on an empty queue, unless a reset goes on. -/
noncomputable def State.room (s : State Tid V) (l : List V) : Side → Room Tid
  | .popper => ⟨fun t => (s.pc t).waits .popper ∧ s.error t = .eok, s.q.suspendedPopList, l.length⟩
  | .pusher => ⟨fun t => (s.pc t).waits .pusher ∧ s.error t = .eok, s.q.suspendedPushList,
      if l = [] ∧ ¬Resetting s then 1 else 0⟩

structure Inv (s : State Tid V) (l : List V) : Prop where
  replays : Replays s.q.size s.history l
  holds : Holds s.q l
  room : ∀ side, (s.room l side).Ok

section Sides
variable {s s' : State Tid V} {l l' : List V} {side : Side} {t : Tid} [dT : DecidableEq Tid]

def Only (t : Tid) (s s' : State Tid V) : Prop := ∀ x ≠ t, s'.pc x = s.pc x ∧ s'.error x = s.error x

omit dT in
theorem Only.room (h : Only t s s') (l l' : List V) (side : Side) : (s.room l side).Only t (s'.room l' side) := by
  intro x hx
  obtain ⟨hpc, herr⟩ := h x hx
  cases side <;> simp [State.room, hpc, herr]

theorem Only.resetting (h : Only t s s') (hpc : ¬(s.pc t).resets) (hr : Resetting s) : Resetting s' := by
  obtain ⟨u, hu⟩ := hr
  by_cases hut : u = t
  · exact absurd (hut ▸ hu) hpc
  · exact ⟨u, (h u hut).1 ▸ hu⟩

section
omit dT

theorem State.room_pusher_le (s : State Tid V) (l : List V) : (s.room l .pusher).available ≤ 1 := by
  unfold State.room
  dsimp only
  split <;> omega

theorem State.room_pusher_items (s : State Tid V) (l : List V) (h : l ≠ []) : (s.room l .pusher).available = 0 := by
  simp [State.room, h]

theorem room_pusher_mono (hl : l' = [] → l = []) (hr : Resetting s → Resetting s') :
    (s'.room l' .pusher).available ≤ (s.room l .pusher).available := by
  unfold State.room
  dsimp only
  split
  · rename_i hnow
    rw [if_pos ⟨hl hnow.1, fun h => hnow.2 (hr h)⟩]
  · exact Nat.zero_le _

end

/-- The thread is suspended on neither list. -/
def Awake (s : State Tid V) (t : Tid) : Prop := t ∉ s.q.suspendedPopList ∧ t ∉ s.q.suspendedPushList

omit dT in
theorem Inv.moves (h : Inv s l) (ht : Awake s t) (ho : Only t s s') (hq : s'.q = s.q) (hhist : s'.history = s.history)
    (hr : Resetting s → Resetting s' ∨ s.q.suspendedPushList = [])
    (hno : ∀ side, ¬(s.room l side).Woken t ∨ (s'.room l side).available = 0) : Inv s' l where
  replays := by
    rw [hq, hhist]
    exact h.replays
  holds := hq ▸ h.holds
  room side := by
    have hroom := ho.room l l side
    cases side with
    | popper =>
      have hw : s'.q.suspendedPopList = s.q.suspendedPopList := by rw [hq]
      exact (h.room .popper).stay hroom hw ht.1 (le_refl _) (hno .popper)
    | pusher =>
      have hw : s'.q.suspendedPushList = s.q.suspendedPushList := by rw [hq]
      by_cases hnil : s.q.suspendedPushList = []
      · exact Room.ok_nil (hw.trans hnil)
      · exact (h.room .pusher).stay hroom hw ht.2 (room_pusher_mono id fun hrs => (hr hrs).resolve_right hnil)
          (hno .pusher)

theorem only_goto (s : State Tid V) (t : Tid) (q : RtDataQueue Tid V) (history : List (Event Tid V)) (pc : Pc V) :
    Only t s ({ s with q, history }.goto t pc) := by
  intro x hx
  simp [State.goto, hx]

theorem only_setError_goto (s : State Tid V) (t : Tid) (err : RtErr) (q : RtDataQueue Tid V) (pc : Pc V) :
    Only t s ({ s.setError t err with q }.goto t pc) := by
  intro x hx
  simp [State.goto, State.setError, hx]

/-! ## The sections -/

variable {item : V} {timeout : Int32}

theorem pushLoop_inv (h : Inv s l) (ht : Awake s t) (hno : ¬(s.room l .popper).Woken t) (hpc : ¬(s.pc t).resets) :
    ∃ l', Inv (pushLoop s t item timeout) l' := by
  unfold pushLoop
  cases hfull : s.q.isFull with
  | true =>
    have hne : l ≠ [] := by
      rintro rfl
      have hlen : 0 = s.q.room := of_decide_eq_true (h.holds.full.symm.trans hfull)
      have := h.holds.get_lt
      omega
    by_cases htimeout : timeout = 0
    · simp only [htimeout, if_true]
      have ho := only_goto s t s.q s.history (.idle .etimeout none)
      refine ⟨l, h.moves ht ho rfl rfl (fun hr => .inl (ho.resetting hpc hr)) fun side => ?_⟩
      cases side with
      | popper => exact .inl hno
      | pusher => exact .inr (State.room_pusher_items _ l hne)
    · simp only [htimeout, if_false]
      have ho := only_setError_goto s t .eok { s.q with suspendedPushList := s.q.suspendedPushList ++ [t] }
        (.pushWait item timeout)
      refine ⟨l, h.replays, h.holds.congr rfl rfl rfl rfl rfl rfl, fun side => ?_⟩
      cases side with
      | popper => exact (h.room .popper).stay (ho.room l l _) rfl ht.1 (le_refl _) (.inl hno)
      | pusher =>
        refine (h.room .pusher).suspend (ho.room l l _) (perm_append_singleton ..) ht.2 ?_
          (State.room_pusher_items _ l hne)
        simp [State.room, State.goto, State.setError, Pc.waits]
  | false =>
    have ho := only_goto s t (pushItem s.q item) (.pushed t item :: s.history) (.idle .eok none)
    have hholds := @Holds.pushItem _ _ _ _ item h.holds hfull
    refine ⟨l ++ [item], h.replays.cons (.pushed l t item) ?_, hholds, fun side => ?_⟩
    · exact hholds.length_le.trans (Nat.min_le_left ..)
    · cases side with
      | popper => exact (h.room .popper).wake (ho.room l _ _) rfl ht.1 (by simp [State.room]) hno
      | pusher =>
        have hzero := State.room_pusher_items ({ s with
          q := pushItem s.q item, history := .pushed t item :: s.history }.goto t (.idle .eok none)) (l ++ [item])
          (by simp)
        exact (h.room .pusher).stay (ho.room l _ _) rfl ht.2 (hzero.trans_le (Nat.zero_le _)) (.inr hzero)

theorem popLoop_inv (h : Inv s l) (ht : Awake s t) (hno : ¬(s.room l .pusher).Woken t) (hpc : ¬(s.pc t).resets) :
    ∃ l', Inv (popLoop s t timeout) l' := by
  unfold popLoop
  cases hempty : s.q.isEmpty with
  | true =>
    have hnil : l = [] := by
      have := h.holds.empty
      simp_all
    subst hnil
    by_cases htimeout : timeout = 0
    · simp only [htimeout, if_true]
      have ho := only_goto s t s.q s.history (.idle .etimeout none)
      refine ⟨[], h.moves ht ho rfl rfl (fun hr => .inl (ho.resetting hpc hr)) fun side => ?_⟩
      cases side with
      | popper => exact .inr rfl
      | pusher => exact .inl hno
    · simp only [htimeout, if_false]
      have ho := only_setError_goto s t .eok { s.q with suspendedPopList := s.q.suspendedPopList ++ [t] }
        (.popWait timeout)
      refine ⟨[], h.replays, h.holds.congr rfl rfl rfl rfl rfl rfl, fun side => ?_⟩
      cases side with
      | popper =>
        refine (h.room .popper).suspend (ho.room [] [] _) (perm_append_singleton ..) ht.1 ?_ rfl
        simp [State.room, State.goto, State.setError, Pc.waits]
      | pusher =>
        exact (h.room .pusher).stay (ho.room [] [] _) rfl ht.2 (room_pusher_mono id (ho.resetting hpc)) (.inl hno)
  | false =>
    obtain ⟨l', rfl, hpopped⟩ := h.holds.popped hempty
    have hroom : (popItem s.q).2.size = s.q.size ∧ (popItem s.q).2.suspendedPopList = s.q.suspendedPopList ∧
        Holds (popItem s.q).2 l' := by
      rw [popItem_snd]
      split
      · exact ⟨rfl, rfl, hpopped.congr rfl rfl rfl rfl rfl rfl⟩
      · exact ⟨rfl, rfl, hpopped⟩
    obtain ⟨hsize, hpop, hholds⟩ := hroom
    have ho := only_goto s t (popItem s.q).2 (.popped t (popItem s.q).1 :: s.history)
      (.idle .eok (some (popItem s.q).1))
    refine ⟨l', ?_, hholds, fun side => ?_⟩
    · show Replays (popItem s.q).2.size _ l'
      rw [hsize]
      refine h.replays.cons (.popped l' t _) (hholds.length_le.trans ((Nat.min_le_left ..).trans_eq hsize))
    · cases side with
      | popper => exact (h.room .popper).take (ho.room _ l' _) hpop ht.1 (by simp [State.room])
      | pusher =>
        by_cases hlwm : rtDataQueueLen (popped s.q) ≤ s.q.lwm
        · have hw : (popItem s.q).2.suspendedPushList = s.q.suspendedPushList.tail := by
            rw [popItem_snd, if_pos hlwm]
          exact (h.room .pusher).wake (ho.room _ l' _) hw ht.2 ((State.room_pusher_le _ l').trans (by omega)) hno
        · -- nobody is woken, but something is left
          have hw : (popItem s.q).2.suspendedPushList = s.q.suspendedPushList := by
            rw [popItem_snd, if_neg hlwm]
            rfl
          have hne : l' ≠ [] := by
            rintro rfl
            rw [hpopped.len_nil] at hlwm
            exact hlwm (Nat.zero_le _)
          have hzero := State.room_pusher_items ({ s with
            q := (popItem s.q).2, history := .popped t (popItem s.q).1 :: s.history }.goto t
              (.idle .eok (some (popItem s.q).1))) l' hne
          exact (h.room .pusher).stay (ho.room _ l' _) hw ht.2 (hzero.trans_le (Nat.zero_le _)) (.inr hzero)

theorem resetIndices_inv (h : Inv s l) (ht : Awake s t) :
    Inv ({ s with q := resetIndices s.q, history := .reset :: s.history }.goto t .resetPopTest) [] := by
  have hget := h.holds.get_lt
  have ho := only_goto s t (resetIndices s.q) (.reset :: s.history) .resetPopTest
  have hgoes : Resetting ({ s with q := resetIndices s.q, history := .reset :: s.history }.goto t .resetPopTest) :=
    ⟨t, by simp [State.goto, Pc.resets]⟩
  refine ⟨h.replays.cons (.reset l) (Nat.zero_le _), ⟨h.holds.size_lt, ?_, Nat.zero_le _, (Nat.zero_mod _).symm, rfl, ?_,
    rfl⟩, fun side => ?_⟩
  · show 0 < s.q.room
    omega
  · show false = decide (0 = s.q.room)
    simp
    omega
  · cases side with
    | popper => exact (h.room .popper).stay (ho.room l [] _) rfl ht.1 (Nat.zero_le _) (.inr rfl)
    | pusher =>
      have hzero : (({ s with q := resetIndices s.q, history := .reset :: s.history }.goto t
          .resetPopTest).room [] .pusher).available = 0 := by simp [State.room, hgoes]
      exact (h.room .pusher).stay (ho.room l [] _) rfl ht.2 (hzero.trans_le (Nat.zero_le _)) (.inr hzero)

theorem Pc.waits_one {pc : Pc V} {side other : Side} (h : pc.waits side) (h' : pc.waits other) : other = side := by
  cases pc <;> cases side <;> cases other <;> first | rfl | exact h.elim | exact h'.elim

theorem Pc.resets.not_waits {pc : Pc V} (h : pc.resets) (side : Side) : ¬pc.waits side := by
  cases pc <;> cases side <;> first | exact id | exact fun _ => h

variable (side) in
/-- A thread that is suspended leaves its list. -/
theorem Inv.leave (h : Inv s l) {u : Tid} (ho : ∀ other, (s.room l other).Only u (s'.room l other))
    (hin : u ∈ (s.room l side).waiting) (hside : (s'.room l side).waiting = (s.room l side).waiting.erase u)
    (hother : ∀ other ≠ side, (s'.room l other).waiting = (s.room l other).waiting)
    (hr : Resetting s → Resetting s') (hreplays : Replays s'.q.size s'.history l) (hholds : Holds s'.q l) :
    Inv s' l := by
  have hmono : ∀ other, (s'.room l other).available ≤ (s.room l other).available := by
    intro other
    cases other with
    | popper => exact le_refl _
    | pusher => exact room_pusher_mono id hr
  refine ⟨hreplays, hholds, fun other => ?_⟩
  by_cases hos : other = side
  · subst hos
    exact (h.room other).leave (ho other) hside hin (hmono other)
  · have hwants : ∀ x, (s.room l x).wants u → (s.pc u).waits x := by
      intro x hx
      cases x <;> exact hx.1
    have hno : ¬(s.room l other).wants u :=
      fun hw => hos (Pc.waits_one (hwants side ((h.room side).wants u hin)) (hwants other hw))
    exact (h.room other).stay (ho other) (hother other hos) (fun hw => hno ((h.room other).wants u hw)) (hmono other)
      (.inl fun hw => hno hw.1)

variable (side) in
/-- A round of `rt_data_queue_reset` wakes the first thread of a list. -/
theorem resetWake_inv (h : Inv s l) {u : Tid} {rest : List Tid} {q : RtDataQueue Tid V} {pc : Pc V}
    (hpc : (s.pc t).resets) (hgo : pc.resets) (hlist : (s.room l side).waiting = u :: rest)
    (hside : (({ s with q } : State Tid V).room l side).waiting = rest)
    (hother : ∀ other ≠ side, (({ s with q } : State Tid V).room l other).waiting = (s.room l other).waiting)
    (hsize : q.size = s.q.size) (hholds : Holds q l) : Inv ({ s.setError u .error with q }.goto t pc) l := by
  refine h.leave side (fun other x hx => ?_) (hlist ▸ mem_cons_self ..) ?_ (fun other hos => ?_)
    (fun _ => ⟨t, by simpa [State.goto] using hgo⟩) (hsize ▸ h.replays) hholds
  · by_cases hxt : x = t
    · subst hxt
      have hold := hpc.not_waits
      have hnew := hgo.not_waits
      cases other <;> simp [State.room, State.goto, State.setError, hold, hnew]
    · cases other <;> simp [State.room, State.goto, State.setError, hxt, hx]
  · rw [hlist, erase_cons_head, ← hside]
    cases side <;> rfl
  · rw [← hother other hos]
    cases other <;> rfl

/-! ## The steps -/

omit dT in
theorem Inv.elsewhere (h : Inv s l) (side : Side) (hpc : ¬(s.pc t).waits side) :
    t ∉ (s.room l side).waiting ∧ ¬(s.room l side).Woken t := by
  have hno : ¬(s.room l side).wants t := by
    cases side <;> exact fun hw => hpc hw.1
  exact ⟨fun hin => hno ((h.room side).wants t hin), fun hw => hno hw.1⟩

theorem enter_inv (h : Inv s l) {ret : RtErr} {received : Option V} (hpc : s.pc t = .idle ret received) (c : Call V) :
    ∃ l', Inv (enter s t c) l' := by
  obtain ⟨hpop, hnopop⟩ := h.elsewhere (t := t) .popper (by rw [hpc]; exact id)
  obtain ⟨hpush, hnopush⟩ := h.elsewhere (t := t) .pusher (by rw [hpc]; exact id)
  have hres : ¬(s.pc t).resets := by
    rw [hpc]
    exact id
  cases c with
  | push item timeout => exact pushLoop_inv h ⟨hpop, hpush⟩ hnopop hres
  | pop timeout => exact popLoop_inv h ⟨hpop, hpush⟩ hnopush hres
  | reset => exact ⟨[], resetIndices_inv h ⟨hpop, hpush⟩⟩

theorem resetTest_inv (h : Inv s l) (hpc : (s.pc t).resets) (pc : Pc V)
    (hgoes : pc.resets ∨ s.q.suspendedPushList = []) : Inv (s.goto t pc) l := by
  obtain ⟨hpop, hnopop⟩ := h.elsewhere .popper (hpc.not_waits .popper)
  obtain ⟨hpush, hnopush⟩ := h.elsewhere .pusher (hpc.not_waits .pusher)
  refine h.moves ⟨hpop, hpush⟩ (only_goto s t s.q s.history pc) rfl rfl (fun _ => ?_) fun side => .inl ?_
  · exact hgoes.imp (fun hp => ⟨t, by simpa [State.goto] using hp⟩) id
  · cases side with
    | popper => exact hnopop
    | pusher => exact hnopush

theorem runOn_inv (h : Inv s l) (hs : runOn s t = .ok s') : ∃ l', Inv s' l' := by
  unfold runOn at hs
  cases hpc : s.pc t with
  | idle ret received =>
    rw [hpc] at hs
    cases hs
  | pushWait item timeout =>
    obtain ⟨hpop, hnopop⟩ := h.elsewhere (t := t) .popper (by rw [hpc]; exact id)
    have hres : ¬(s.pc t).resets := by
      rw [hpc]
      exact id
    simp only [hpc] at hs
    split at hs
    · cases hs
    rename_i hpush
    split at hs <;> cases hs
    · rename_i herr
      have ho := only_goto s t s.q s.history (.idle (s.error t) none)
      refine ⟨l, h.moves ⟨hpop, hpush⟩ ho rfl rfl (fun hr => .inl (ho.resetting hres hr)) fun side => .inl ?_⟩
      cases side with
      | popper => exact hnopop
      | pusher => exact fun hw => herr hw.1.2
    · exact pushLoop_inv h ⟨hpop, hpush⟩ hnopop hres
  | popWait timeout =>
    obtain ⟨hpush, hnopush⟩ := h.elsewhere (t := t) .pusher (by rw [hpc]; exact id)
    have hres : ¬(s.pc t).resets := by
      rw [hpc]
      exact id
    simp only [hpc] at hs
    split at hs
    · cases hs
    rename_i hpop
    split at hs <;> cases hs
    · rename_i herr
      have ho := only_goto s t s.q s.history (.idle (s.error t) none)
      refine ⟨l, h.moves ⟨hpop, hpush⟩ ho rfl rfl (fun hr => .inl (ho.resetting hres hr)) fun side => .inl ?_⟩
      cases side with
      | popper => exact fun hw => herr hw.1.2
      | pusher => exact hnopush
    · exact popLoop_inv h ⟨hpop, hpush⟩ hnopush hres
  | resetPopTest =>
    simp only [hpc] at hs
    cases hs
    refine ⟨l, resetTest_inv h (by rw [hpc]; trivial) _ (.inl ?_)⟩
    split <;> trivial
  | resetPop =>
    simp only [hpc] at hs
    split at hs
    · cases hs
    rename_i u rest hlist
    cases hs
    exact ⟨l, resetWake_inv .popper h (by rw [hpc]; trivial) trivial hlist rfl
      (fun other hne => by cases other <;> [exact absurd rfl hne; rfl]) rfl (h.holds.congr rfl rfl rfl rfl rfl rfl)⟩
  | resetPushTest =>
    simp only [hpc] at hs
    cases hs
    refine ⟨l, resetTest_inv h (by rw [hpc]; trivial) _ ?_⟩
    split
    · rename_i hnil
      exact .inr hnil
    · exact .inl trivial
  | resetPush =>
    simp only [hpc] at hs
    split at hs
    · cases hs
    rename_i u rest hlist
    cases hs
    exact ⟨l, resetWake_inv .pusher h (by rw [hpc]; trivial) trivial hlist rfl
      (fun other hne => by cases other <;> [rfl; exact absurd rfl hne]) rfl (h.holds.congr rfl rfl rfl rfl rfl rfl)⟩

theorem timedOut_inv (h : Inv s l) (hs : timedOut s t = .ok s') : Inv s' l := by
  have ho : ∀ q, Only t s ({ s with q }.setError t .etimeout) := fun q x hx => by simp [State.setError, hx]
  unfold timedOut at hs
  cases hpc : s.pc t with
  | pushWait item timeout =>
    simp only [hpc] at hs
    split at hs <;> cases hs
    rename_i hin
    refine h.leave .pusher ((ho _).room l l) hin.1 rfl (fun other hne => ?_) id h.replays
      (h.holds.congr rfl rfl rfl rfl rfl rfl)
    cases other <;> [rfl; exact absurd rfl hne]
  | popWait timeout =>
    simp only [hpc] at hs
    split at hs <;> cases hs
    rename_i hin
    refine h.leave .popper ((ho _).room l l) hin.1 rfl (fun other hne => ?_) id h.replays
      (h.holds.congr rfl rfl rfl rfl rfl rfl)
    cases other <;> [exact absurd rfl hne; rfl]
  | idle | resetPopTest | resetPop | resetPushTest | resetPush =>
    rw [hpc] at hs
    cases hs

theorem Inv.step {a : Act Tid V} (h : Inv s l) (hs : step s a = .ok s') : ∃ l', Inv s' l' := by
  cases a with
  | call t c =>
    simp only [DataQueue.step] at hs
    split at hs
    · rename_i ret received hpc
      cases hs
      exact enter_inv h hpc c
    · cases hs
  | run t => exact runOn_inv h hs
  | timeout t => exact ⟨l, timedOut_inv h hs⟩

end Sides

/-! ## What holds of a data queue -/

/-- A thread that was resumed in `rt_data_queue_pop` without an error, and that has not looked again. -/
def ResumedPopper (s : State Tid V) (t : Tid) : Prop :=
  (∃ timeout, s.pc t = .popWait timeout) ∧ s.error t = .eok ∧ t ∉ s.q.suspendedPopList

/-- A thread that was resumed in `rt_data_queue_push` without an error, and that has not looked again. -/
def ResumedPusher (s : State Tid V) (t : Tid) : Prop :=
  (∃ item timeout, s.pc t = .pushWait item timeout) ∧ s.error t = .eok ∧ t ∉ s.q.suspendedPushList

/-- The data queue is a list of at most `size` items, to which the sections did what their events say. There are
no more items beside a suspended popper than poppers on their way, and beside an empty queue and a suspended
pusher another one is on its way, or a reset goes on. -/
structure Sound (s : State Tid V) : Prop where
  items : ∃ l, Replays s.q.size s.history l ∧ Holds s.q l ∧ (s.q.size ≤ 2 ^ 15 → rtDataQueueLen s.q = l.length) ∧
    (s.q.suspendedPopList ≠ [] → (l.length : ℕ∞) ≤ {t | ResumedPopper s t}.encard)
  pushers : s.q.suspendedPushList ≠ [] → s.q.isEmpty = true → (∃ t, ResumedPusher s t) ∨ Resetting s

theorem Inv.sound {s : State Tid V} {l : List V} (h : Inv s l) : Sound s where
  items := by
    refine ⟨l, h.replays, h.holds, h.holds.len_eq, fun hne => ?_⟩
    refine ((h.room .popper).enough hne).trans (Set.encard_le_encard fun t ht => ?_)
    obtain ⟨⟨hpc, herr⟩, hin⟩ := ht
    refine ⟨?_, herr, hin⟩
    cases hcase : s.pc t with
    | popWait timeout => exact ⟨timeout, rfl⟩
    | idle | pushWait | resetPopTest | resetPop | resetPushTest | resetPush => exact (hcase ▸ hpc :).elim
  pushers hne hempty := by
    by_cases hr : Resetting s
    · exact .inr hr
    · have hnil : l = [] := of_decide_eq_true (h.holds.empty.symm.trans hempty)
      have hone := (h.room .pusher).enough hne
      rw [show (s.room l .pusher).available = 1 from if_pos ⟨hnil, hr⟩, Nat.cast_one, Set.one_le_encard_iff_nonempty]
        at hone
      obtain ⟨t, ⟨hpc, herr⟩, hin⟩ := hone
      refine .inl ⟨t, ?_, herr, hin⟩
      cases hcase : s.pc t with
      | pushWait item timeout => exact ⟨item, timeout, rfl⟩
      | idle | popWait | resetPopTest | resetPop | resetPushTest | resetPush => exact (hcase ▸ hpc :).elim

theorem start_inv {queue : Nat → V} {size lwm : Nat} (hsize : 0 < size % 2 ^ 16) (error : Tid → RtErr) :
    Inv (start (rtDataQueueInit queue size lwm) error) [] where
  replays := .nil
  holds := by
    have hroom : 0 < min (size % 2 ^ 16) (2 ^ 15) := by omega
    refine ⟨Nat.mod_lt _ (by decide), hroom, Nat.zero_le _, (Nat.zero_mod _).symm, rfl, ?_, rfl⟩
    exact (decide_eq_false hroom.ne).symm
  room side := by cases side <;> exact Room.ok_nil rfl

/-- Whatever the threads call, and whichever sections and timers come next, as long as no reset has run into a list that
was emptied between its test and its section. -/
theorem data_queue_sound [DecidableEq Tid] {queue : Nat → V} {size lwm : Nat} (hsize : 0 < size % 2 ^ 16)
    (error : Tid → RtErr) {acts : List (Act Tid V)} {s : State Tid V}
    (hrun : run step (start (rtDataQueueInit queue size lwm) error) acts = .ok s) : Sound s := by
  have h : ∃ l, Inv s l := @run_inv _ _ _ _ (fun _ _ => True) (fun s => ∃ l, Inv s l) _ _ _
    (fun _ _ _ h _ hs => h.elim fun _ h => h.step hs) ⟨[], start_inv hsize error⟩
    (Along.of_all (fun _ _ => trivial) _) hrun
  exact h.elim fun _ h => h.sound

/-- A pusher waits for a place in a full queue, is woken by a pop, and stores its item. -/
theorem data_queue_sound_one :
    ∃ s, run step (start (rtDataQueueInit (fun _ => 0) 1 0 : RtDataQueue (Fin 3) Nat) fun _ => .eok)
      [.call 0 (.push 7 0), .call 1 (.push 8 (-1)), .call 2 (.pop 0), .run 1] = .ok s ∧
      s.pc 2 = .idle .eok (some 7) ∧ rtDataQueueLen s.q = 1 ∧ Sound s :=
  ⟨_, and_then rfl fun hrun => ⟨rfl, rfl, data_queue_sound (by decide) _ hrun⟩⟩

/-- A reset empties the queue in one section and resumes the pusher in a later one. -/
theorem data_queue_emptied : ∃ s, run step
    (start (rtDataQueueInit (fun _ => 0) 1 0 : RtDataQueue (Fin 3) Nat) fun _ => .eok)
    [.call 0 (.push 7 0), .call 1 (.push 8 (-1)), .call 2 .reset] = .ok s ∧ s.q.isEmpty = true ∧
    s.q.suspendedPushList = [1] ∧ ∀ t, ¬ResumedPusher s t := by
  refine ⟨_, rfl, rfl, rfl, ?_⟩
  rintro t ⟨⟨item, timeout, hpc⟩, -, hin⟩
  fin_cases t
  · cases hpc
  · exact hin (mem_singleton.mpr rfl)
  · cases hpc

end RtosKernel.RtThread.DataQueue
