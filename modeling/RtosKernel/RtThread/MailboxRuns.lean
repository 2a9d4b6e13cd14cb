import RtosKernel.Lib.Wakeups
import RtosKernel.RtThread.Mailbox

/-! # A mailbox is a bounded deque that wakes enough threads

A mail wakes one receiver and a free place wakes one sender, so that nobody sleeps beside more of them than
there are threads on their way. -/
namespace RtosKernel.RtThread.Mailbox
open Lib.Window Lib.Wakeups Lib.Runs RtThread.IpcList

variable {Tid V : Type}

/-! ## What a mailbox is for -/

inductive Moves : List V → Event Tid V → List V → Prop
  | sent (l : List V) (t : Tid) (value : V) : Moves l (.sent t value) (l ++ [value])
  | sentUrgent (l : List V) (t : Tid) (value : V) : Moves l (.sentUrgent t value) (value :: l)
  | received (l : List V) (t : Tid) (value : V) : Moves (value :: l) (.received t value) l
  | reset (l : List V) : Moves l .reset []

/-- The events, last first, lead from an empty list to `l` over lists of at most `size` values. -/
inductive Replays (size : Nat) : List (Event Tid V) → List V → Prop
  | nil : Replays size [] []
  | cons {l l' : List V} {e : Event Tid V} {es : List (Event Tid V)} (h : Replays size es l) (he : Moves l e l')
      (hle : l'.length ≤ size) : Replays size (e :: es) l'

/-- The offsets and the pool represent the list. -/
structure Holds (mb : RtMailbox Tid V) (l : List V) : Prop where
  size_lt : mb.size < 2 ^ 16
  out_lt : mb.outOffset < mb.size
  count : mb.entry = l.length
  length_le : l.length ≤ mb.size
  in_eq : mb.inOffset = (mb.outOffset + l.length) % mb.size
  items : window mb.msgPool mb.size mb.outOffset l.length = l

variable {mb mb' : RtMailbox Tid V} {l : List V} {value : V}

theorem Holds.congr (h : Holds mb l) (hpool : mb'.msgPool = mb.msgPool) (hsize : mb'.size = mb.size)
    (hentry : mb'.entry = mb.entry) (hin : mb'.inOffset = mb.inOffset) (hout : mb'.outOffset = mb.outOffset) :
    Holds mb' l := by
  obtain ⟨h₁, h₂, h₃, h₄, h₅, h₆⟩ := h
  refine ⟨?_, ?_, ?_, ?_, ?_, ?_⟩ <;> simp_all

/-- A mail at the end, and a receiver resumed. -/
def appended (mb : RtMailbox Tid V) (value : V) : RtMailbox Tid V :=
  { mb with
    msgPool := Function.update mb.msgPool mb.inOffset value
    inOffset := if mb.inOffset + 1 ≥ mb.size then 0 else mb.inOffset + 1
    entry := mb.entry + 1
    suspendThread := mb.suspendThread.tail }

theorem Holds.putMail (h : Holds mb l) (hne : mb.entry ≠ mb.size) :
    putMail mb value = (appended mb value, .eok) ∧ Holds (appended mb value) (l ++ [value]) := by
  have hlt : l.length < mb.size := by have := h.count; have := h.length_le; omega
  have hpos : 0 < mb.size := by omega
  have hmax : mb.entry < rtMbEntryMax := by
    have := h.size_lt
    have := h.count
    unfold rtMbEntryMax
    omega
  have hinlt : mb.inOffset < mb.size := by
    rw [h.in_eq]
    exact Nat.mod_lt _ hpos
  refine ⟨if_pos hmax, h.size_lt, h.out_lt, ?_, ?_, ?_, ?_⟩
  · simp [appended, h.count]
  · simpa [appended] using hlt
  · show (if mb.inOffset + 1 ≥ mb.size then 0 else mb.inOffset + 1) = _
    rw [next_cell hinlt, h.in_eq, Nat.mod_add_mod, List.length_append, List.length_singleton, ← Nat.add_assoc]
    rfl
  · have happ := @window_append _ mb.msgPool _ _ l.length [value] h.out_lt (by simpa using hlt)
    rw [store_of_le (by simp; have := Nat.mod_lt (mb.outOffset + l.length) hpos; omega), memcpy_singleton, ← h.in_eq,
      h.items] at happ
    simpa [appended] using happ

theorem Holds.putUrgent (h : Holds mb l) (hne : mb.entry ≠ mb.size) : Holds (putUrgent mb value) (value :: l) := by
  have hlt : l.length < mb.size := by have := h.count; have := h.length_le; omega
  have hout := h.out_lt
  set o := if mb.outOffset > 0 then mb.outOffset - 1 else mb.size - 1 with ho
  have holt : o < mb.size := by
    rw [ho]
    split <;> omega
  have hnext : (o + 1) % mb.size = mb.outOffset := by
    rw [← next_cell holt, ho]
    split <;> split <;> omega
  refine ⟨h.size_lt, holt, ?_, hlt, ?_, ?_⟩
  · simp [Mailbox.putUrgent, h.count]
  · show mb.inOffset = (o + (l.length + 1)) % mb.size
    rw [h.in_eq, ← hnext, Nat.mod_add_mod]
    congr 1
    omega
  · show window (Function.update mb.msgPool o value) mb.size o (l.length + 1) = value :: l
    rw [← memcpy_singleton, window_prepend holt hlt, hnext, h.items]

theorem Holds.getMail (h : Holds mb l) (hne : mb.entry ≠ 0) :
    ∃ l', l = (getMail mb).1 :: l' ∧ Holds (getMail mb).2 l' ∧ (getMail mb).2.entry + 1 = mb.entry := by
  obtain ⟨h₁, hout, hcount, hle, hin, hitems⟩ := h
  cases l with
  | nil => exact absurd hcount hne
  | cons x l =>
    simp only [List.length_cons] at hcount hle hin hitems
    rw [Nat.add_comm l.length 1, window_add] at hitems
    have hone : window mb.msgPool mb.size mb.outOffset 1 = [mb.msgPool mb.outOffset] := by
      simp [window, Nat.mod_eq_of_lt hout]
    rw [hone, List.singleton_append] at hitems
    obtain ⟨hx, hl⟩ := List.cons.inj hitems
    refine ⟨l, ?_, ⟨h₁, ?_, ?_, ?_, ?_, ?_⟩, ?_⟩
    · simp [Mailbox.getMail, hx]
    · show (if mb.outOffset + 1 ≥ mb.size then 0 else mb.outOffset + 1) < mb.size
      split <;> omega
    · simp [Mailbox.getMail, hcount]
    · show l.length ≤ mb.size
      omega
    · show mb.inOffset = ((if mb.outOffset + 1 ≥ mb.size then 0 else mb.outOffset + 1) + l.length) % mb.size
      rw [next_cell hout, hin, Nat.mod_add_mod]
      congr 1
      omega
    · show window mb.msgPool mb.size (if mb.outOffset + 1 ≥ mb.size then 0 else mb.outOffset + 1) l.length = l
      rw [next_cell hout, window_mod, hl]
    · simp [Mailbox.getMail, hcount]

/-! ## The two sides -/

/-- Those who wait for a mail, and those who wait for a place. -/
inductive Side
  | receiver
  | sender

/-- The thread is inside of the loop of its side. -/
def Pc.waits : Side → Pc V → Prop
  | .receiver, .recvWait _ _ => True
  | .sender, .sendWait _ _ _ => True
  | _, _ => False

/-- A side: the threads inside of its loop without an error, their list, and what they wait for: mails or free
places. -/
def State.room (s : State Tid V) : Side → Room Tid
  | .receiver => ⟨fun t => (s.pc t).waits .receiver ∧ s.error t = .eok, s.mb.suspendThread, s.mb.entry⟩
  | .sender => ⟨fun t => (s.pc t).waits .sender ∧ s.error t = .eok, s.mb.suspendSenderThread, s.mb.size - s.mb.entry⟩

structure Inv (s : State Tid V) : Prop where
  holds : ∃ l, Replays s.mb.size s.history l ∧ Holds s.mb l
  room : ∀ side, (s.room side).Ok

section Sides
variable {s s' : State Tid V} {side : Side} {t : Tid} [dT : DecidableEq Tid]

def Only (t : Tid) (s s' : State Tid V) : Prop := ∀ x ≠ t, s'.pc x = s.pc x ∧ s'.error x = s.error x

omit dT in
theorem Only.room (h : Only t s s') (side : Side) : (s.room side).Only t (s'.room side) := by
  intro x hx
  obtain ⟨hpc, herr⟩ := h x hx
  cases side <;> simp [State.room, hpc, herr]

theorem only_goto (s : State Tid V) (t : Tid) (mb : RtMailbox Tid V) (history : List (Event Tid V)) (pc : Pc V) :
    Only t s ({ s with mb, history }.goto t pc) := by
  intro x hx
  simp [State.goto, hx]

theorem only_setError_goto (s : State Tid V) (t : Tid) (err : RtErr) (mb : RtMailbox Tid V) (pc : Pc V) :
    Only t s ({ s.setError t err with mb }.goto t pc) := by
  intro x hx
  simp [State.goto, State.setError, hx]

/-- The thread is suspended on neither list. -/
def Awake (s : State Tid V) (t : Tid) : Prop := ∀ side, t ∉ (s.room side).waiting

omit dT in
theorem Inv.returns (h : Inv s) (ht : Awake s t) (ho : Only t s s') (hmb : s'.mb = s.mb) (hhist : s'.history = s.history)
    (hno : ∀ side, ¬(s.room side).Woken t ∨ (s.room side).available = 0) : Inv s' where
  holds := by
    rw [hmb, hhist]
    exact h.holds
  room side := by
    have hroom : (s'.room side).waiting = (s.room side).waiting ∧ (s'.room side).available = (s.room side).available := by
      cases side <;> simp [State.room, hmb]
    obtain ⟨hw, ha⟩ := hroom
    exact (h.room side).stay (ho.room side) hw (ht side) ha.le (ha ▸ hno side)

/-! ## The sections -/

variable {value : V} {timeout : Int32}

omit dT in
theorem State.full (hfull : s.mb.entry = s.mb.size) : (s.room .sender).available = 0 := by
  simp [State.room, hfull]

section
variable (h : Inv s) (ht : Awake s t) (hr : ¬(s.room .receiver).Woken t)
include h ht hr

omit dT in
theorem Inv.put (ho : Only t s s')
    {l : List V} (hholds : Holds s'.mb l) (hsize : s'.mb.size = s.mb.size)
    (hhist : Replays s.mb.size s'.history l) (hne : s.mb.entry ≠ s.mb.size) (hentry : s'.mb.entry = s.mb.entry + 1)
    (hwake : s'.mb.suspendThread = s.mb.suspendThread.tail)
    (hsame : s'.mb.suspendSenderThread = s.mb.suspendSenderThread) : Inv s' where
  holds := ⟨l, hsize ▸ hhist, hholds⟩
  room side := by
    cases side with
    | receiver => exact (h.room .receiver).wake (ho.room _) hwake (ht .receiver) hentry.le hr
    | sender =>
      obtain ⟨l, -, hl⟩ := h.holds
      have hlt : s.mb.entry < s.mb.size := by have := hl.count; have := hl.length_le; omega
      refine (h.room .sender).take (ho.room _) hsame (ht .sender) ?_
      simp only [State.room, hentry, hsize]
      omega

theorem sendLoop_inv : Inv (sendLoop s t value timeout) := by
  obtain ⟨l, hhist, hl⟩ := h.holds
  unfold sendLoop
  by_cases hfull : s.mb.entry = s.mb.size
  · rw [if_pos hfull]
    by_cases hzero : timeout = 0
    · simp only [hzero, if_true]
      refine h.returns ht (only_setError_goto s t .eok s.mb _) rfl rfl fun side => ?_
      cases side with
      | receiver => exact .inl hr
      | sender => exact .inr (State.full hfull)
    · simp only [hzero, if_false]
      have ho : ∀ mb pc, Only t s ({ s.setError t .eok with mb }.goto t pc) := only_setError_goto s t .eok
      refine ⟨⟨l, hhist, hl.congr rfl rfl rfl rfl rfl⟩, fun side => ?_⟩
      cases side with
      | receiver => exact (h.room .receiver).stay ((ho _ _).room _) rfl (ht .receiver) (le_refl _) (.inl hr)
      | sender =>
        refine (h.room .sender).suspend ((ho _ _).room _) (ipcListSuspend_perm ..) (ht .sender) ?_ (State.full hfull)
        simp [State.room, State.goto, State.setError, Pc.waits]
  · obtain ⟨hput, hholds⟩ := @Holds.putMail _ _ _ _ value hl hfull
    rw [if_neg hfull]
    simp only [hput, if_true]
    exact h.put ht hr (only_goto _ _ _ _ _) hholds rfl (hhist.cons (.sent l t value) hholds.length_le) hfull rfl rfl rfl

theorem urgent_inv (hne : s.mb.entry ≠ s.mb.size)
    {history : List (Event Tid V)} (hhistory : history = .sentUrgent t value :: s.history) (pc : Pc V) :
    Inv ({ s with mb := putUrgent s.mb value, history }.goto t pc) := by
  obtain ⟨l, hhist, hl⟩ := h.holds
  have hput := @Holds.putUrgent _ _ _ _ value hl hne
  subst hhistory
  exact h.put ht hr (only_goto _ _ _ _ _) hput rfl (hhist.cons (.sentUrgent l t value) hput.length_le) hne rfl rfl rfl

end

theorem recvLoop_inv (h : Inv s) (ht : Awake s t) (hr : ¬(s.room .sender).Woken t) : Inv (recvLoop s t timeout) := by
  obtain ⟨l, hhist, hl⟩ := h.holds
  unfold recvLoop
  by_cases hempty : s.mb.entry = 0
  · rw [if_pos hempty]
    by_cases hzero : timeout = 0
    · simp only [hzero, if_true]
      refine h.returns ht (fun x hx => ?_) rfl rfl fun side => ?_
      · simp [State.goto, State.setError, hx]
      · cases side with
        | receiver => exact .inr hempty
        | sender => exact .inl hr
    · simp only [hzero, if_false]
      have ho : ∀ mb pc, Only t s ({ s.setError t .eok with mb }.goto t pc) := only_setError_goto s t .eok
      refine ⟨⟨l, hhist, hl.congr rfl rfl rfl rfl rfl⟩, fun side => ?_⟩
      cases side with
      | receiver =>
        refine (h.room .receiver).suspend ((ho _ _).room _) (ipcListSuspend_perm ..) (ht .receiver) ?_ hempty
        simp [State.room, State.goto, State.setError, Pc.waits]
      | sender => exact (h.room .sender).stay ((ho _ _).room _) rfl (ht .sender) (le_refl _) (.inl hr)
  · obtain ⟨l', rfl, hget, hentry⟩ := hl.getMail hempty
    rw [if_neg hempty]
    refine ⟨⟨l', hhist.cons (.received l' t _) hget.length_le, hget⟩, fun side => ?_⟩
    have ho := (only_goto s t (getMail s.mb).2 (.received t (getMail s.mb).1 :: s.history)
      (.idle .eok (some (getMail s.mb).1))).room side
    cases side with
    | receiver => exact (h.room .receiver).take ho rfl (ht .receiver) hentry.le
    | sender =>
      refine (h.room .sender).wake ho rfl (ht .sender) ?_ hr
      show s.mb.size - (getMail s.mb).2.entry ≤ s.mb.size - s.mb.entry + 1
      omega

/-! ## The steps -/

section
variable (h : Inv s)
include h

omit dT in
theorem Inv.idle (hpc : ∀ side, ¬(s.pc t).waits side) : Awake s t ∧ ∀ side, ¬(s.room side).Woken t := by
  have hno : ∀ side, ¬(s.room side).wants t := by
    intro side
    cases side with
    | receiver => exact fun hw => hpc .receiver hw.1
    | sender => exact fun hw => hpc .sender hw.1
  exact ⟨fun side hin => hno side ((h.room side).wants t hin), fun side hw => hno side hw.1⟩

theorem enter_inv {ret : RtErr} {received : Option V} (hpc : s.pc t = .idle ret received) (c : Call V) :
    Inv (enter s t c) := by
  obtain ⟨ht, hno⟩ := h.idle (t := t) fun side => by
    rw [hpc]
    cases side <;> exact id
  have hreturns : ∀ pc, Inv (s.goto t pc) := fun pc =>
    h.returns ht (only_goto s t s.mb s.history pc) rfl rfl fun side => .inl (hno side)
  cases c with
  | sendWait value timeout =>
    simp only [enter]
    split
    · exact hreturns _
    · exact sendLoop_inv h ht (hno .receiver)
  | urgent value =>
    simp only [enter]
    split
    · exact hreturns _
    · rename_i hne
      exact urgent_inv h ht (hno .receiver) hne rfl _
  | recv timeout =>
    simp only [enter]
    split
    · exact hreturns _
    · exact recvLoop_inv h ht (hno .sender)

omit dT in
/-- A thread that waits on one side does not wait on the other. -/
theorem Inv.one_side {other : Side} (hpc : (s.pc t).waits side) (hne : other ≠ side) :
    t ∉ (s.room other).waiting ∧ ¬(s.room other).Woken t := by
  have hno : ¬(s.room other).wants t := by
    cases hcase : s.pc t <;> cases side <;> cases other <;> simp_all [State.room, Pc.waits]
  exact ⟨fun hin => hno ((h.room other).wants t hin), fun hw => hno hw.1⟩

omit dT in
theorem Inv.awake (hpc : (s.pc t).waits side) (ht : t ∉ (s.room side).waiting) : Awake s t := by
  intro other
  by_cases hos : other = side
  · rw [hos]
    exact ht
  · exact (h.one_side hpc hos).1

theorem resumed_inv (hs : resumed s t = some s') : Inv s' := by
  have hfailed (ht : Awake s t) (herr : s.error t ≠ .eok) (pc : Pc V) : Inv (s.goto t pc) :=
    h.returns ht (only_goto s t s.mb s.history pc) rfl rfl fun side =>
      .inl fun hw => herr (by cases side <;> exact hw.1.2)
  unfold resumed at hs
  cases hpc : s.pc t with
  | idle ret received =>
    rw [hpc] at hs
    cases hs
  | sendWait value timeout d =>
    simp only [hpc] at hs
    split at hs
    · cases hs
    rename_i hin
    have hwaits : (s.pc t).waits .sender := by rw [hpc]; trivial
    have ht := h.awake hwaits hin
    split at hs <;> cases hs
    · rename_i herr
      exact hfailed ht herr _
    · exact sendLoop_inv h ht (h.one_side hwaits (show Side.receiver ≠ _ from nofun)).2
  | recvWait timeout d =>
    simp only [hpc] at hs
    split at hs
    · cases hs
    rename_i hin
    have hwaits : (s.pc t).waits .receiver := by rw [hpc]; trivial
    have ht := h.awake hwaits hin
    split at hs <;> cases hs
    · rename_i herr
      exact hfailed ht herr _
    · exact recvLoop_inv h ht (h.one_side hwaits (show Side.sender ≠ _ from nofun)).2

theorem timedOut_inv (hs : timedOut s t = some s') : Inv s' := by
  obtain ⟨l, hhist, hl⟩ := h.holds
  have ho : ∀ mb, Only t s ({ s with mb }.setError t .etimeout) := fun mb x hx => by simp [State.setError, hx]
  unfold timedOut at hs
  cases hpc : s.pc t with
  | idle ret received =>
    rw [hpc] at hs
    cases hs
  | sendWait value timeout d =>
    simp only [hpc] at hs
    split at hs <;> cases hs
    rename_i hin
    refine ⟨⟨l, hhist, hl.congr rfl rfl rfl rfl rfl⟩, fun side => ?_⟩
    cases side with
    | receiver =>
      obtain ⟨hout, hno⟩ := h.one_side (show (s.pc t).waits .sender by rw [hpc]; trivial) (show Side.receiver ≠ _ from nofun)
      exact (h.room .receiver).stay ((ho _).room _) rfl hout (le_refl _) (.inl hno)
    | sender => exact (h.room .sender).leave ((ho _).room _) rfl hin.1 (le_refl _)
  | recvWait timeout d =>
    simp only [hpc] at hs
    split at hs <;> cases hs
    rename_i hin
    refine ⟨⟨l, hhist, hl.congr rfl rfl rfl rfl rfl⟩, fun side => ?_⟩
    cases side with
    | receiver => exact (h.room .receiver).leave ((ho _).room _) rfl hin.1 (le_refl _)
    | sender =>
      obtain ⟨hout, hno⟩ := h.one_side (show (s.pc t).waits .receiver by rw [hpc]; trivial) (show Side.sender ≠ _ from nofun)
      exact (h.room .sender).stay ((ho _).room _) rfl hout (le_refl _) (.inl hno)

theorem reset_inv : Inv (rtMbReset s) := by
  obtain ⟨l, hhist, hl⟩ := h.holds
  have hout := hl.out_lt
  refine ⟨⟨[], hhist.cons (.reset l) (Nat.zero_le _), ?_⟩, fun side => ?_⟩
  · exact ⟨hl.size_lt, by show 0 < s.mb.size; omega, rfl, Nat.zero_le _, (Nat.zero_mod _).symm, rfl⟩
  · cases side <;> exact Room.ok_nil rfl

theorem Inv.step {a : Act Tid V} (hs : step s a = .ok s') : Inv s' := by
  cases a with
  | call t c =>
    simp only [Mailbox.step] at hs
    split at hs
    · rename_i ret received hpc
      cases hs
      exact enter_inv h hpc c
    · cases hs
  | run t =>
    simp only [Mailbox.step] at hs
    cases hgo : resumed s t with
    | none => rw [hgo] at hs; cases hs
    | some s₁ =>
      rw [hgo] at hs
      cases hs
      exact resumed_inv h hgo
  | timeout t =>
    simp only [Mailbox.step] at hs
    cases hgo : timedOut s t with
    | none => rw [hgo] at hs; cases hs
    | some s₁ =>
      rw [hgo] at hs
      cases hs
      exact timedOut_inv h hgo
  | reset =>
    cases hs
    exact reset_inv h
  | setPriority t priority | tick =>
    cases hs
    refine ⟨h.holds, fun side => ?_⟩
    have := h.room side
    cases side <;> exact this

end

end Sides

/-! ## What holds of a mailbox -/

/-- A thread that a sender has resumed in `rt_mb_recv`, and that has not looked again. -/
def ResumedReceiver (s : State Tid V) (t : Tid) : Prop :=
  (∃ timeout tickDelta, s.pc t = .recvWait timeout tickDelta) ∧ s.error t = .eok ∧ t ∉ s.mb.suspendThread

/-- A thread that a receiver has resumed in `rt_mb_send_wait`, and that has not looked again. -/
def ResumedSender (s : State Tid V) (t : Tid) : Prop :=
  (∃ value timeout tickDelta, s.pc t = .sendWait value timeout tickDelta) ∧ s.error t = .eok ∧
    t ∉ s.mb.suspendSenderThread

/-- The mailbox is a list of at most `size` mails, to which the sections did what their events say, and on both
sides there are no more mails, or places, beside a suspended thread than threads on their way. -/
structure Sound (s : State Tid V) : Prop where
  mails : ∃ l, Replays s.mb.size s.history l ∧ Holds s.mb l
  receivers : s.mb.suspendThread ≠ [] → (s.mb.entry : ℕ∞) ≤ {t | ResumedReceiver s t}.encard
  senders : s.mb.suspendSenderThread ≠ [] → ((s.mb.size - s.mb.entry : Nat) : ℕ∞) ≤ {t | ResumedSender s t}.encard

theorem Inv.sound {s : State Tid V} (h : Inv s) : Sound s where
  mails := h.holds
  receivers hne := by
    refine ((h.room .receiver).enough hne).trans (Set.encard_le_encard fun t ht => ?_)
    obtain ⟨⟨hpc, herr⟩, hin⟩ := ht
    refine ⟨?_, herr, hin⟩
    cases hcase : s.pc t with
    | recvWait timeout d => exact ⟨timeout, d, rfl⟩
    | idle | sendWait =>
      rw [hcase] at hpc
      exact hpc.elim
  senders hne := by
    refine ((h.room .sender).enough hne).trans (Set.encard_le_encard fun t ht => ?_)
    obtain ⟨⟨hpc, herr⟩, hin⟩ := ht
    refine ⟨?_, herr, hin⟩
    cases hcase : s.pc t with
    | sendWait value timeout d => exact ⟨value, timeout, d, rfl⟩
    | idle | recvWait =>
      rw [hcase] at hpc
      exact hpc.elim

theorem start_inv {msgPool : Nat → V} {size : Nat} {flag : IpcFlag} (hsize : 0 < size % 2 ^ 16) (error : Tid → RtErr)
    (currentPriority : Tid → Nat) (tick : UInt32) :
    Inv (start (rtMbInit msgPool size flag) error currentPriority tick) where
  holds := ⟨[], .nil, Nat.mod_lt _ (by decide), hsize, rfl, Nat.zero_le _, (Nat.zero_mod _).symm, rfl⟩
  room side := by cases side <;> exact Room.ok_nil rfl

/-- Whatever the threads call, and whichever sections and timers come next, a mailbox is a bounded deque, and nobody
sleeps beside a mail or a place that no thread is on its way to. -/
theorem mailbox_refines_deque [DecidableEq Tid] {msgPool : Nat → V} {size : Nat} {flag : IpcFlag}
    (hsize : 0 < size % 2 ^ 16) (error : Tid → RtErr) (currentPriority : Tid → Nat) (tick : UInt32)
    {acts : List (Act Tid V)} {s : State Tid V}
    (hrun : run step (start (rtMbInit msgPool size flag) error currentPriority tick) acts = .ok s) : Sound s := by
  have h : Inv s := run_inv (p := fun _ _ => True) (fun _ _ _ h _ hs => h.step hs)
    (start_inv hsize error currentPriority tick) (Along.of_all (fun _ _ => trivial) _) hrun
  exact h.sound

/-- Two threads on a mailbox for one mail: a receiver is resumed, and its mail is taken by another one. -/
theorem mailbox_refines_deque_one :
    ∃ s, run step (start (rtMbInit (fun _ => 0) 1 .fifo : RtMailbox (Fin 3) Nat) (fun _ => .eok) (fun _ => 0) 0)
      [.call 0 (.recv (-1)), .call 1 (.sendWait 7 0), .call 1 (.recv 0), .run 0] = .ok s ∧ s.mb.suspendThread = [0] ∧
      s.pc 1 = .idle .eok (some 7) ∧ Sound s :=
  ⟨_, and_then rfl fun hrun => ⟨rfl, rfl, mailbox_refines_deque (by decide) _ _ _ hrun⟩⟩

end RtosKernel.RtThread.Mailbox
