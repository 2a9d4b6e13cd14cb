import RtosKernel.RtThread.MessageQueueInvariant

/-! # Whole runs of a message queue

Each section of a call is one lemma about the invariant; a step of the system
is one of them, and a run is a sequence of steps with the events they log. -/
namespace RtosKernel.RtThread.MessageQueue
open Lib.LinkedList Lib.Window Function
open RtThread.Def RtThread.IpcList

variable {Tid : Type} {mq mq' : RtMessagequeue Tid} {pc : Tid → Pc} {t : Tid} {p : Pc}
  {queue queue' : List Message} {free free' : List Nat} {msg : Nat} {buffer : List UInt8}

/-! ## Frames -/

theorem Holds.frame {m : Message} (h : Holds mq m) (hsize : mq'.msgSize = mq.msgSize)
    (hdata : mq'.data m.msg = mq.data m.msg) : Holds mq' m := by
  unfold Holds
  rw [hsize, hdata]
  exact h

theorem Pc.Sound.frame (h : p.Sound mq) (hsize : mq'.msgSize = mq.msgSize)
    (hown : ∀ b, p.held = some b → mq'.next b = mq.next b ∧ mq'.data b = mq.data b) : p.Sound mq' := by
  cases p with
  | sendEnter | sendWait | sendFill | urgentEnter | urgentFill =>
    simpa only [Pc.Sound, hsize] using h
  | sendLink buffer msg =>
    obtain ⟨hnext, hdata⟩ := hown msg rfl
    exact ⟨hnext.trans h.1, h.2.frame hsize hdata⟩
  | urgentLink buffer msg => exact Holds.frame h hsize (hown msg rfl).2
  | idle | recvEnter | recvWait | recvCopy | recvReturn => trivial

variable [DecidableEq Tid]

theorem held_update (pc : Tid → Pc) (t : Tid) (p : Pc) :
    (fun t' => (update pc t p t').held) =
      update (fun t' => (pc t').held) t p.held := by
  funext t'
  by_cases ht : t' = t
  · subst ht; simp
  · simp [update_of_ne ht]

theorem Inv.advance (h : Inv mq pc queue free) (hmax : mq'.maxMsgs = mq.maxMsgs)
    (hsize : mq'.msgSize = mq.msgSize) (hlists : Lists mq' free' (queue'.map Message.msg))
    (hshares : Shares mq.maxMsgs (update (fun t' => (pc t').held) t p.held)
      (free' ++ queue'.map Message.msg))
    (hentry : mq'.entry = queue'.length) (hstored : ∀ m ∈ queue', Holds mq' m)
    (hsound : p.Sound mq')
    (hothers : ∀ t' b, t' ≠ t → (pc t').held = some b →
      mq'.next b = mq.next b ∧ mq'.data b = mq.data b) :
    Inv mq' (update pc t p) queue' free' where
  bound := hmax ▸ h.bound
  lists := hlists
  shares := by rw [hmax, held_update]; exact hshares
  entry := hentry
  stored := hstored
  sound t' := by
    by_cases ht : t' = t
    · subst ht; rw [update_self]; exact hsound
    · rw [update_of_ne ht]
      exact (h.sound t').frame hsize fun b hb => hothers t' b ht hb

/-! ## The sections -/

section
variable (h : Inv mq pc queue free)
include h

theorem Inv.park (ht : (pc t).held = none) (hp : p.held = none)
    (hsound : p.Sound mq) (suspendThread suspendSenderThread : List Tid) :
    Inv { mq with suspendThread, suspendSenderThread } (update pc t p) queue free := by
  have hself : update (fun t' => (pc t').held) t p.held = fun t' => (pc t').held := by
    rw [hp, update_eq_self_iff, ht]
  refine h.advance rfl rfl (h.lists.frame rfl rfl rfl fun _ _ => rfl) ?_ h.entry
    (fun m hm => (h.stored m hm).frame rfl rfl) (hsound.frame rfl fun _ _ => ⟨rfl, rfl⟩)
    fun _ _ _ _ => ⟨rfl, rfl⟩
  rw [hself]
  exact h.shares

theorem Inv.returns (ht : (pc t).held = none) (ret : RtErr)
    (received : List UInt8) : Inv mq (update pc t (.idle ret received)) queue free :=
  h.park (p := .idle ret received) ht rfl trivial mq.suspendThread mq.suspendSenderThread

theorem Inv.take (hfree : mq.msgQueueFree = some msg)
    (ht : (pc t).held = none) (hp : p.held = some msg) (hsound : p.Sound mq) :
    ∃ free', Inv (moveFree mq msg) (update pc t p) queue free' := by
  obtain ⟨rest, rfl⟩ := h.lists.free_cons hfree
  have hnot : msg ∉ rest ++ queue.map Message.msg := (List.nodup_cons.mp h.lists.nodup).1
  refine ⟨rest, h.advance rfl rfl h.lists.moveFree ?_ h.entry
    (fun m hm => (h.stored m hm).frame rfl rfl) (hsound.frame rfl fun _ _ => ⟨rfl, rfl⟩)
    fun _ _ _ _ => ⟨rfl, rfl⟩⟩
  rw [hp]
  exact h.shares.acquire ht hnot

theorem Inv.write (ht : (pc t).held = some msg) (hp : p.held = some msg)
    {next : Nat → Option Nat} {data : Nat → Nat → UInt8} (hnext : ∀ b, b ≠ msg → next b = mq.next b)
    (hdata : ∀ b, b ≠ msg → data b = mq.data b) (hsound : p.Sound { mq with next, data }) :
    Inv { mq with next, data } (update pc t p) queue free := by
  have hnot : msg ∉ free ++ queue.map Message.msg := h.shares.apart ht
  have hself : update (fun t' => (pc t').held) t p.held = fun t' => (pc t').held := by
    rw [hp, update_eq_self_iff, ht]
  refine h.advance rfl rfl ?_ ?_ h.entry ?_ hsound ?_
  · exact h.lists.frame rfl rfl rfl fun b hb => hnext b fun e => hnot (e ▸ hb)
  · rw [hself]; exact h.shares
  · intro m hm
    refine (h.stored m hm).frame rfl (hdata m.msg fun e => hnot ?_)
    exact List.mem_append_right _ (e ▸ List.mem_map_of_mem hm)
  · intro t' b hne hb
    have hbm : b ≠ msg := fun e => hne (h.shares.unique hb (e ▸ ht))
    exact ⟨hnext b hbm, hdata b hbm⟩

end

omit [DecidableEq Tid] in
theorem fill_holds (hsize : buffer.length ≤ mq.msgSize) : Holds (fill mq msg buffer) ⟨msg, buffer⟩ := by
  refine ⟨hsize, List.ext_getElem (by simp) fun i hi _ => ?_⟩
  have hb : i - 0 < buffer.length := by simpa using hi
  simp only [fill, List.getElem_map, List.getElem_range, update_self]
  exact memcpy_inside (Nat.zero_le i) hb

theorem Inv.sendFill (h : Inv mq pc queue free) (ht : pc t = .sendFill buffer msg) :
    Inv (sendFill mq msg buffer) (update pc t (.sendLink buffer msg)) queue free := by
  have hsize : buffer.length ≤ mq.msgSize := by
    have := h.sound t
    rwa [ht] at this
  have hheld : (pc t).held = some msg := by rw [ht]; rfl
  exact h.write (p := .sendLink buffer msg) hheld rfl (fun b hb => update_of_ne hb _ _)
    (fun b hb => update_of_ne hb _ _) ⟨update_self .., fill_holds hsize⟩

theorem Inv.urgentFill (h : Inv mq pc queue free) (ht : pc t = .urgentFill buffer msg) :
    Inv (fill mq msg buffer) (update pc t (.urgentLink buffer msg)) queue free := by
  have hsize : buffer.length ≤ mq.msgSize := by
    have := h.sound t
    rwa [ht] at this
  have hheld : (pc t).held = some msg := by rw [ht]; rfl
  exact h.write (p := .urgentLink buffer msg) hheld rfl (fun _ _ => rfl)
    (fun b hb => update_of_ne hb _ _) (fill_holds hsize)

omit [DecidableEq Tid] in
theorem Inv.entry_lt (h : Inv mq pc queue free) (ht : (pc t).held = some msg) : mq.entry < rtMqEntryMax := by
  have hlt := h.shares.length_lt ht h.lists.nodup
  have hb := h.bound
  rw [List.length_append, List.length_map] at hlt
  rw [h.entry]
  unfold rtMqEntryMax
  omega

section
variable (h : Inv mq pc queue free)
include h

/-- Linking a full block, by whichever end: `linkMsg` changes the pointers of the
block and of listed blocks only. -/
theorem Inv.link (ht : (pc t).held = some msg) (hp : p.held = none)
    (hsound : p.Sound mq) (hholds : Holds mq ⟨msg, buffer⟩) {linked : RtMessagequeue Tid}
    (hperm : (⟨msg, buffer⟩ :: queue).Perm queue')
    (hlists : Lists linked free (queue'.map Message.msg)) (hmax : linked.maxMsgs = mq.maxMsgs)
    (hsize : linked.msgSize = mq.msgSize) (hdata : linked.data = mq.data) (hentry : linked.entry = mq.entry)
    (hnext : ∀ b, b ≠ msg → b ∉ free ++ queue.map Message.msg → linked.next b = mq.next b) :
    (countEntry linked).2 = .eok ∧
      Inv (countEntry linked).1 (update pc t p) queue' free := by
  have hlt : linked.entry < rtMqEntryMax := hentry ▸ h.entry_lt ht
  simp only [countEntry, if_pos hlt, true_and]
  refine h.advance hmax hsize ⟨hlists.1, hlists.2, hlists.3, hlists.4⟩ ?_ ?_ ?_ ?_ ?_
  · rw [hp]
    refine (h.shares.release ht).perm ?_
    have hmap : (msg :: queue.map Message.msg).Perm (queue'.map Message.msg) :=
      hperm.map Message.msg
    exact List.perm_middle.symm.trans (hmap.append_left free)
  · rw [← hperm.length_eq, List.length_cons, ← h.entry, hentry]
  · intro m hm
    have hm' : Holds mq m := by
      rcases List.mem_cons.mp (hperm.mem_iff.mpr hm) with rfl | hm
      · exact hholds
      · exact h.stored m hm
    exact hm'.frame hsize (congrFun hdata m.msg)
  · refine hsound.frame hsize fun b hb => ?_
    rw [hp] at hb
    cases hb
  · intro t' b hne hb
    refine ⟨hnext b ?_ (h.shares.apart hb), congrFun hdata b⟩
    exact fun e => hne (h.shares.unique hb (e ▸ ht))

theorem Inv.sendLink (ht : pc t = .sendLink buffer msg) (hp : p.held = none) (hsound : p.Sound mq) :
    Inv (countEntry (appendMsg mq msg)).1 (update pc t p) (queue ++ [⟨msg, buffer⟩]) free := by
  have hheld : (pc t).held = some msg := by rw [ht]; rfl
  obtain ⟨hnull, hholds⟩ : mq.next msg = none ∧ Holds mq ⟨msg, buffer⟩ := by
    have := h.sound t
    rwa [ht] at this
  have hnot : msg ∉ free ++ queue.map Message.msg := h.shares.apart hheld
  have hlists : Lists (appendMsg mq msg) free
      ((queue ++ [(⟨msg, buffer⟩ : Message)]).map Message.msg) := by
    rw [List.map_append]
    exact h.lists.appendMsg hnot hnull
  refine (h.link hheld hp hsound hholds (List.perm_append_singleton _ _).symm hlists rfl rfl rfl rfl
    fun b _ hl => ?_).2
  -- the only pointer written is that of the tail, a listed block
  have htail := h.lists.tail
  simp only [appendMsg]
  cases htl : mq.msgQueueTail with
  | none => rfl
  | some tail =>
    rw [htl] at htail
    have hmem : tail ∈ queue.map Message.msg := List.mem_of_getLast? htail.symm
    refine update_of_ne (fun e => hl ?_) _ _
    exact List.mem_append_right _ (e ▸ hmem)

theorem Inv.urgentLink (ht : pc t = .urgentLink buffer msg) (hp : p.held = none) (hsound : p.Sound mq) :
    Inv (countEntry (pushMsg mq msg)).1 (update pc t p) (⟨msg, buffer⟩ :: queue) free := by
  have hheld : (pc t).held = some msg := by rw [ht]; rfl
  have hholds : Holds mq ⟨msg, buffer⟩ := by
    have := h.sound t
    rwa [ht] at this
  have hnot : msg ∉ free ++ queue.map Message.msg := h.shares.apart hheld
  have hlists : Lists (pushMsg mq msg) free
      (((⟨msg, buffer⟩ : Message) :: queue).map Message.msg) :=
    h.lists.pushMsg hnot
  exact (h.link hheld hp hsound hholds (.refl _) hlists rfl rfl rfl rfl
    fun b hb _ => update_of_ne hb _ _).2

theorem Inv.unlink (hentry : mq.entry ≠ 0) (ht : (pc t).held = none) :
    ∃ m rest mq', queue = m :: rest ∧ unlinkHead mq = some (m.msg, mq') ∧
      ∀ {p : Pc}, p.held = some m.msg → p.Sound mq →
        Inv (discountEntry mq') (update pc t p) rest free := by
  obtain ⟨m, rest, rfl⟩ : ∃ m rest, queue = m :: rest := by
    cases queue with
    | nil => exact absurd h.entry hentry
    | cons m rest => exact ⟨m, rest, rfl⟩
  obtain ⟨mq', hu, hl, hnext, hdata, hfree, hmax, hsize, hent⟩ := h.lists.unlinkHead
  refine ⟨m, rest, mq', rfl, hu, fun {p} hp hsound => ?_⟩
  have hpos : 0 < mq'.entry := by rw [hent]; omega
  have hnd := List.nodup_middle.mp h.lists.nodup
  simp only [discountEntry, if_pos hpos]
  refine h.advance hmax hsize ⟨hl.1, hl.2, hl.3, hl.4⟩ ?_ ?_ ?_ ?_ ?_
  · rw [hp]
    refine (h.shares.perm List.perm_middle).acquire ht ?_
    exact (List.nodup_cons.mp hnd).1
  · have := h.entry
    rw [List.length_cons] at this
    simp only [hent]
    omega
  · exact fun x hx => (h.stored x (List.mem_cons_of_mem _ hx)).frame hsize (congrFun hdata _)
  · exact hsound.frame hsize fun b _ => ⟨congrFun hnext b, congrFun hdata b⟩
  · exact fun _ b _ _ => ⟨congrFun hnext b, congrFun hdata b⟩

theorem Inv.giveBack (ht : (pc t).held = some msg) (hp : p.held = none)
    (hsound : p.Sound mq) (suspendSenderThread : List Tid) :
    Inv { giveBack mq msg with suspendSenderThread } (update pc t p) queue (msg :: free) := by
  have hnot : msg ∉ free ++ queue.map Message.msg := h.shares.apart ht
  have hl := h.lists.giveBack hnot
  refine h.advance rfl rfl ⟨hl.1, hl.2, hl.3, hl.4⟩ ?_ h.entry
    (fun m hm => (h.stored m hm).frame rfl rfl) ?_ ?_
  · rw [hp]
    exact h.shares.release ht
  · refine hsound.frame rfl fun b hb => ?_
    rw [hp] at hb
    cases hb
  · intro t' b hne hb
    refine ⟨update_of_ne ?_ _ _, rfl⟩
    exact fun e => hne (h.shares.unique hb (e ▸ ht))

end

omit [DecidableEq Tid] in
theorem Inv.reset (h : Inv mq pc queue free) : ∃ mq' free', resetQueue mq = some mq' ∧ Inv mq' pc [] free' := by
  have hlen : (queue.map Message.msg).length < mq.maxMsgs + 1 := by
    have hsub : queue.map Message.msg ⊆ List.range mq.maxMsgs := by
      intro b hb
      rw [List.mem_range, h.shares.cover b]
      exact .inl (List.mem_append_right _ hb)
    have hnd := (List.nodup_append.mp h.lists.nodup).2.1
    have := (List.Nodup.subperm hnd hsub).length_le
    rw [List.length_range] at this
    omega
  have hcleared : Lists { mq with suspendThread := [], suspendSenderThread := [] } free
      (queue.map Message.msg) := h.lists.frame rfl rfl rfl fun _ _ => rfl
  obtain ⟨mq', hr, hl, hnext, hdata, hmax, hsize⟩ := hcleared.releaseAll hlen
  refine ⟨{ mq' with entry := 0 }, (queue.map Message.msg).reverse ++ free, ?_, ?_⟩
  · simp only [resetQueue, hr, bind, Option.bind_some]
    rfl
  · refine ⟨?_, ⟨hl.1, hl.2, hl.3, hl.4⟩, ?_, rfl, fun _ hm => absurd hm List.not_mem_nil, ?_⟩
    · exact hmax.symm ▸ h.bound
    · rw [hmax]
      refine h.shares.perm ?_
      rw [List.map_nil, List.append_nil]
      exact List.perm_append_comm.trans ((List.reverse_perm _).symm.append_right free)
    · intro t
      refine (h.sound t).frame hsize fun b hb => ⟨hnext b fun hm => ?_, congrFun hdata b⟩
      exact h.shares.apart hb (List.mem_append_right _ hm)

/-! ## Steps -/

/-- The messages in the queue after an event: a normal one is appended where it is linked, an urgent one put in
front, and an unlinked one is gone. -/
def Event.apply (queue : List Message) : Event → List Message
  | .link message => queue ++ [message]
  | .linkUrgent message => message :: queue
  | .unlink msg => queue.filter fun message => message.msg ≠ msg
  | .reset => []

/-- The messages linked and not unlinked since the last reset. -/
def replay (history : List Event) : List Message := history.foldl Event.apply []

/-- A step ends in a state that is as good, with the events applied. -/
def Kept (queue : List Message) (r : Option (State Tid × List Event)) : Prop :=
  ∃ s' events free', r = some (s', events) ∧ Inv s'.mq s'.pc (events.foldl Event.apply queue) free'

variable {s : State Tid}

omit [DecidableEq Tid] in
theorem Kept.quiet {s' : State Tid} (h : Inv s'.mq s'.pc queue free) :
    Kept queue (some (s', [])) := ⟨s', [], free, rfl, h⟩

theorem sendLoop_kept (timeout : Int32) (h : Inv s.mq s.pc queue free) (ht : (s.pc t).held = none)
    (hsize : buffer.length ≤ s.mq.msgSize) :
    ∃ free', Inv (sendLoop s t buffer timeout).mq (sendLoop s t buffer timeout).pc queue free' := by
  unfold sendLoop
  cases hfree : s.mq.msgQueueFree with
  | some msg => exact h.take hfree ht rfl hsize
  | none =>
    simp only
    split
    · exact ⟨free, h.returns ht _ _⟩
    · exact ⟨free, h.park (p := .sendWait buffer timeout s.tick) ht rfl hsize _ _⟩

theorem recvLoop_kept {size : Nat} {timeout : Int32} (h : Inv s.mq s.pc queue free)
    (ht : (s.pc t).held = none) : Kept queue (recvLoop s t size timeout) := by
  unfold recvLoop
  split
  · simp only
    split
    · exact .quiet (h.returns ht _ _)
    · exact .quiet (h.park (p := .recvWait size timeout s.tick) ht rfl trivial _ _)
  · rename_i hentry
    obtain ⟨m, rest, mq', rfl, hu, hinv⟩ := h.unlink hentry ht
    have hgone : (m :: rest).filter (fun x => x.msg ≠ m.msg) = rest := by
      have hnd : m.msg ∉ rest.map Message.msg := by
        have := (List.nodup_append.mp h.lists.nodup).2.1
        exact (List.nodup_cons.mp this).1
      rw [List.filter_cons_of_neg (by simp), List.filter_eq_self]
      intro x hx
      simpa using fun e : x.msg = m.msg => hnd (e ▸ List.mem_map_of_mem hx)
    refine ⟨_, _, free, by simp only [hu, bind, Option.bind_some]; rfl, ?_⟩
    simp only [List.foldl_cons, List.foldl_nil, Event.apply, hgone]
    exact hinv rfl trivial

theorem run_kept (h : Inv s.mq s.pc queue free) (t : Tid) : Kept queue (run s t) := by
  have hsound := h.sound t
  unfold run
  cases hpc : s.pc t with
  | idle ret received => exact .quiet h
  | sendEnter buffer timeout =>
    rw [hpc] at hsound
    have ht : (s.pc t).held = none := by rw [hpc]; rfl
    simp only
    split
    · exact .quiet (h.returns ht _ _)
    · obtain ⟨free', hi⟩ := sendLoop_kept timeout h ht hsound
      exact .quiet hi
  | sendWait buffer timeout tickDelta =>
    rw [hpc] at hsound
    have ht : (s.pc t).held = none := by rw [hpc]; rfl
    simp only
    split
    · exact .quiet h
    · split
      · exact .quiet (h.returns ht _ _)
      · obtain ⟨free', hi⟩ := sendLoop_kept (remaining timeout s.tick tickDelta) h ht hsound
        exact .quiet hi
  | sendFill buffer msg => exact .quiet (h.sendFill hpc)
  | sendLink buffer msg =>
    exact ⟨_, _, free, rfl, h.sendLink hpc rfl trivial⟩
  | urgentEnter buffer =>
    rw [hpc] at hsound
    have ht : (s.pc t).held = none := by rw [hpc]; rfl
    cases hfree : s.mq.msgQueueFree with
    | none => exact .quiet (h.returns ht _ _)
    | some msg =>
      obtain ⟨free', hi⟩ := h.take hfree ht (p := .urgentFill buffer msg) rfl hsound
      exact .quiet hi
  | urgentFill buffer msg => exact .quiet (h.urgentFill hpc)
  | urgentLink buffer msg =>
    exact ⟨_, _, free, rfl, h.urgentLink hpc rfl trivial⟩
  | recvEnter size timeout =>
    have ht : (s.pc t).held = none := by rw [hpc]; rfl
    simp only
    split
    · exact .quiet (h.returns ht _ _)
    · exact recvLoop_kept h ht
  | recvWait size timeout tickDelta =>
    have ht : (s.pc t).held = none := by rw [hpc]; rfl
    simp only
    split
    · exact .quiet h
    · split
      · exact .quiet (h.returns ht _ _)
      · exact recvLoop_kept h ht
  | recvCopy size msg =>
    have ht : (s.pc t).held = some msg := by rw [hpc]; rfl
    exact .quiet (h.write ht rfl (fun _ _ => rfl) (fun _ _ => rfl) trivial)
  | recvReturn received msg =>
    have ht : (s.pc t).held = some msg := by rw [hpc]; rfl
    exact .quiet (h.giveBack (p := .idle .eok received) ht rfl trivial _)

theorem enter_kept (h : Inv s.mq s.pc queue free) (ht : (s.pc t).held = none) (c : Call) :
    Inv (enter s t c).mq (enter s t c).pc queue free := by
  cases c with
  | sendWait buffer timeout =>
    simp only [enter]
    split
    · exact h
    · split
      · exact h.returns ht _ _
      · rename_i hsize
        exact h.park (p := .sendEnter buffer timeout) ht rfl (Nat.le_of_not_lt hsize) _ _
  | urgent buffer =>
    simp only [enter]
    split
    · exact h
    · split
      · exact h.returns ht _ _
      · rename_i hsize
        exact h.park (p := .urgentEnter buffer) ht rfl (Nat.le_of_not_lt hsize) _ _
  | recv size timeout =>
    simp only [enter]
    split
    · exact h
    · exact h.park (p := .recvEnter size timeout) ht rfl trivial _ _

omit [DecidableEq Tid] in
theorem Inv.waiting (h : Inv mq pc queue free) (suspendThread suspendSenderThread : List Tid) :
    Inv { mq with suspendThread, suspendSenderThread } pc queue free where
  bound := h.bound
  lists := h.lists.frame rfl rfl rfl fun _ _ => rfl
  shares := h.shares
  entry := h.entry
  stored m hm := (h.stored m hm).frame rfl rfl
  sound t := (h.sound t).frame rfl fun _ _ => ⟨rfl, rfl⟩

theorem timeout_kept (h : Inv s.mq s.pc queue free) (t : Tid) : Inv (timeout s t).mq (timeout s t).pc queue free := by
  unfold timeout
  split
  · split
    · exact h.waiting _ _
    · exact h
  · split
    · exact h.waiting _ _
    · exact h
  · exact h

/-- **One step of any thread, a timeout or a reset keeps the invariant.** -/
theorem step_kept (h : Inv s.mq s.pc queue free) (act : Act Tid) : Kept queue (step s act) := by
  cases act with
  | call t c =>
    simp only [step]
    split
    · rename_i hpc
      exact .quiet (enter_kept h (by rw [hpc]; rfl) c)
    · exact .quiet h
  | run t => exact run_kept h t
  | timeout t => exact .quiet (timeout_kept h t)
  | reset =>
    obtain ⟨mq', free', hr, hi⟩ := h.reset
    exact ⟨_, _, free', by simp only [step, hr, bind, Option.bind_some]; rfl, hi⟩
  | tick => exact .quiet h

/-! ## Runs -/

theorem freeListInit_chain (next : Nat → Option Nat) (n : Nat) :
    Chain (freeListInit next n).2 (freeListInit next n).1 (List.range n).reverse := by
  induction n with
  | zero => rfl
  | succ n ih =>
    rw [List.range_succ, List.reverse_append, List.reverse_singleton, List.singleton_append, chain_cons]
    refine ⟨rfl, ?_⟩
    simp only [freeListInit, update_self]
    exact ih.update (by simp)

omit [DecidableEq Tid] in
theorem Created.inv (h : Created mq) (pc : Tid → Pc) (hpc : ∀ t, ∃ ret, pc t = .idle ret []) :
    Inv mq pc [] (List.range mq.maxMsgs).reverse := by
  obtain ⟨flag, msgSize, maxMsgs, next, data, hmax, rfl⟩ : ∃ flag msgSize maxMsgs next data,
      maxMsgs < 2 ^ 16 ∧ mq = emptyQueue flag msgSize maxMsgs next data := by
    cases h with
    | init alignSize msgSize poolSize flag next data =>
      exact ⟨_, _, _, _, _, Nat.mod_lt _ (by decide), rfl⟩
    | @create alignSize msgSize maxMsgs flag msgPool next data mq hc =>
      cases msgPool with
      | none => cases hc
      | some pool =>
        cases hc
        exact ⟨_, _, _, _, _, Nat.mod_lt _ (by decide), rfl⟩
  have hidle : ∀ t, (pc t).held = none ∧
      (pc t).Sound (emptyQueue flag msgSize maxMsgs next data : RtMessagequeue Tid) := by
    intro t
    obtain ⟨ret, he⟩ := hpc t
    rw [he]
    exact ⟨rfl, trivial⟩
  refine ⟨hmax, ⟨freeListInit_chain next maxMsgs, rfl, rfl, ?_⟩, ?_, rfl,
    fun _ hm => absurd hm List.not_mem_nil, fun t => (hidle t).2⟩
  · rw [List.map_nil, List.append_nil, List.nodup_reverse]
    exact List.nodup_range
  · refine ⟨fun b => ?_, fun {t} _ hb => ?_, fun {t} _ _ hb => ?_⟩
    · rw [List.map_nil, List.append_nil, List.mem_reverse, List.mem_range]
      refine ⟨.inl, fun hb => hb.resolve_right ?_⟩
      rintro ⟨t, ht⟩
      rw [(hidle t).1] at ht
      cases ht
    · rw [(hidle t).1] at hb
      cases hb
    · rw [(hidle t).1] at hb
      cases hb

/-- The states reached from a new queue, with the events logged on the way. -/
inductive Reachable (mq : RtMessagequeue Tid) : State Tid → List Event → Prop
  | init (error : Tid → RtErr) (currentPriority : Tid → Nat) (tick : UInt32) :
      Reachable mq ⟨mq, fun _ => .idle .eok [], error, currentPriority, tick⟩ []
  | step {s s' : State Tid} {history events : List Event} (h : Reachable mq s history)
      (act : Act Tid) (hs : step s act = some (s', events)) : Reachable mq s' (history ++ events)

theorem Reachable.inv {history : List Event} (hmq : Created mq) (h : Reachable mq s history) :
    ∃ free, Inv s.mq s.pc (replay history) free := by
  induction h with
  | init error currentPriority tick => exact ⟨_, hmq.inv _ fun _ => ⟨.eok, rfl⟩⟩
  | step _ act hs ih =>
    obtain ⟨free, hi⟩ := ih
    obtain ⟨s', events, free', he, hi'⟩ := step_kept hi act
    rw [hs] at he
    cases he
    exact ⟨free', by rw [replay, List.foldl_append]; exact hi'⟩

/-- Every block is free, linked or held by one call; counter and tail agree with the list; and the list is
`queue`, byte by byte. -/
def Accounted (s : State Tid) (queue : List Message) : Prop :=
  ∃ free linked : List Nat,
    Chain s.mq.next s.mq.msgQueueFree free ∧ Chain s.mq.next s.mq.msgQueueHead linked ∧
    s.mq.msgQueueTail = linked.getLast? ∧ (free ++ linked).Nodup ∧
    (∀ b, b < s.mq.maxMsgs ↔ b ∈ free ∨ b ∈ linked ∨ ∃ t, (s.pc t).held = some b) ∧
    (∀ t b, (s.pc t).held = some b → b ∉ free ∧ b ∉ linked) ∧
    (∀ t t' b, (s.pc t).held = some b → (s.pc t').held = some b → t = t') ∧
    s.mq.entry = linked.length ∧ (s.mq.msgQueueHead = none ↔ s.mq.msgQueueTail = none) ∧
    linked = queue.map Message.msg ∧
    ∀ m ∈ queue, (List.range m.buffer.length).map (s.mq.data m.msg) = m.buffer

omit [DecidableEq Tid] in
theorem Inv.accounted (h : Inv s.mq s.pc queue free) : Accounted s queue := by
  have hcover : ∀ b, b < s.mq.maxMsgs ↔ b ∈ free ∨ b ∈ queue.map Message.msg ∨ ∃ t, (s.pc t).held = some b := by
    intro b
    rw [h.shares.cover b, List.mem_append, or_assoc]
  have hnull : s.mq.msgQueueHead = none ↔ s.mq.msgQueueTail = none := by
    have hc := h.lists.linkedChain
    rw [h.lists.tail, List.getLast?_eq_none_iff]
    cases hq : queue.map Message.msg with
    | nil => rw [hq] at hc; simpa using hc
    | cons x xs => rw [hq] at hc; simp [hc.1]
  refine ⟨free, queue.map Message.msg, h.lists.freeChain, h.lists.linkedChain, h.lists.tail,
    h.lists.nodup, hcover, fun t b hb => ?_, fun t t' b => h.shares.unique, ?_, hnull, rfl,
    fun m hm => (h.stored m hm).2⟩
  · have := h.shares.apart hb
    rwa [List.mem_append, not_or] at this
  · rw [List.length_map, h.entry]

/-- **The message queue under any interleaving.** In every state that sections of any threads, timeouts and
resets reach, the blocks are accounted for and the queue is what the sections so far leave; and every step from
there is defined. -/
theorem mq_accounted {history : List Event} (hmq : Created mq) (h : Reachable mq s history) :
    Accounted s (replay history) ∧ ∀ act, ∃ s' events, step s act = some (s', events) := by
  obtain ⟨free, hi⟩ := h.inv hmq
  refine ⟨hi.accounted, fun act => ?_⟩
  obtain ⟨s', events, _, he, _⟩ := step_kept hi act
  exact ⟨s', events, he⟩

/-- A pool of two blocks of eight bytes. -/
def smallQueue : RtMessagequeue Nat := rtMqInit 4 8 24 .prio (fun _ => none) (fun _ _ => 0)

/-- Thread 0 sends one byte and thread 1 has begun to send another. -/
theorem mq_accounted_small : ∃ s, Reachable smallQueue s [.link ⟨1, [7]⟩] ∧
    (s.pc 1).held = some 0 ∧ Accounted s [⟨1, [7]⟩] := by
  have h0 : Reachable smallQueue _ [] := .init (fun _ => .eok) (fun t => t) 0
  have h1 := h0.step (.call 0 (.sendWait [7] 0)) rfl
  have h2 := h1.step (.run 0) rfl
  have h3 := h2.step (.call 1 (.urgent [9])) rfl
  have h4 := h3.step (.run 1) rfl
  have h5 := h4.step (.run 0) rfl
  have h6 := h5.step (.run 0) rfl
  exact ⟨_, h6, rfl, (mq_accounted (.init 4 8 24 .prio _ _) h6).1⟩

end RtosKernel.RtThread.MessageQueue
