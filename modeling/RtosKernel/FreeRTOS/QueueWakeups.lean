import RtosKernel.Lib.Wakeups
import RtosKernel.FreeRTOS.QueueTasks

/-! # Queues lose no wake-up

On both sides of a queue there are, while a task waits, no more items (or places) than tasks that were woken for
them and have not looked yet, and events that the lock counter still holds. -/
namespace RtosKernel.FreeRTOS.QueueTasks
open Lib.Containers Lib.Runs Lib.Wakeups Function
open FreeRTOS.Queues (CopyPosition)

variable {Q Tid V : Type}

/-! ## Where tasks are -/

/-- The event list that a call waits on. -/
def Call.key (call : Call Q V) : Q × Side := (call.queue, call.side)

/-- From `vTaskSuspendAll` to `xTaskResumeAll`. -/
def Phase.Suspended : Phase → Prop
  | .lockQueue | .checkForTimeOut | .test | .placeOnEventList | .unlockTx _ | .unlockRx _ | .resumeAll _ => True
  | .top | .suspendAll | .lastTest => False

def Phase.Locks : Phase → Side → Prop
  | .checkForTimeOut, _ | .test, _ | .placeOnEventList, _ | .unlockTx _, _ | .unlockRx _, .toSend => True
  | _, _ => False

/-- The task has joined the event list, and is on its way to the top of the loop. -/
def Phase.Returns : Phase → Prop
  | .unlockTx false | .unlockRx false | .resumeAll false | .top => True
  | _ => False

/-- The task has suspended the scheduler. -/
def Pc.Suspended : Pc Q V → Prop
  | .idle _ => False
  | .inCall _ _ phase => phase.Suspended

/-- The task waits on an event list, or comes from it. -/
def Pc.Waits (k : Q × Side) : Pc Q V → Prop
  | .idle _ => False
  | .inCall call _ phase => call.key = k ∧ phase.Returns

/-! ## What is there -/

def Queue.lock (x : Queue Q V) : Side → Int
  | .toReceive => x.cTxLock
  | .toSend => x.cRxLock

/-- The items, or the places, that the lock counter does not stand for. -/
def Queue.available (uxLength : Nat) (x : Queue Q V) : Side → Nat
  | .toReceive => x.items.length - x.cTxLock.toNat
  | .toSend => uxLength - x.items.length - x.cRxLock.toNat

variable (c : Setup Q Tid)

def available (s : State Q Tid V) (k : Q × Side) : Nat := (s.queue k.1).available (c.uxLength k.1) k.2

def State.lock (s : State Q Tid V) (k : Q × Side) : Int := (s.queue k.1).lock k.2

/-- Tasks that wait to receive are not woken where a set is told instead. -/
def Relevant (k : Q × Side) : Prop := k.2 = .toReceive → c.pxQueueSetContainer k.1 = none

/-- Taken from an event list, and not looked at the queue since. -/
def State.wokenOn (s : State Q Tid V) (k : Q × Side) : Set Tid := {t | ∃ waker, s.woken t = some (k.1, waker) ∧ waker.side = k.2}

/-- While somebody waits, enough tasks are woken. -/
def Account (s : State Q Tid V) (a : Q × Side → Nat) : Prop :=
  ∀ k, Relevant c k → Enough (s.lists.items k) (s.wokenOn k) (a k)

/-- What a task is told by the state: the locks are held, nothing was there as it is to join an event list, and
only a queue of length 1 is overwritten. -/
def Fine (s : State Q Tid V) : Pc Q V → Prop
  | .idle _ => True
  | .inCall call _ phase =>
    ¬badCall c call ∧ (∀ side, phase.Locks side → 0 ≤ s.lock (call.queue, side)) ∧
      (phase = .placeOnEventList → Relevant c call.key → available c s call.key = 0)

variable {c} [dQ : DecidableEq Q] [dT : DecidableEq Tid] {s s' s'' : State Q Tid V} {a b : Q × Side → Nat} {q : Q} {t : Tid}

/-- The event lists and the tasks agree. -/
structure Linked (s : State Q Tid V) : Prop where
  lists : s.lists.Ok
  waits : ∀ t k, s.lists.container t = some k → (s.pc t).Waits k
  woken : ∀ t q waker, s.woken t = some (q, waker) → s.lists.container t = none ∧ (s.pc t).Waits (q, waker.side)

variable (c) in
structure Inv (s : State Q Tid V) : Prop where
  linked : Linked s
  account : Account c s (available c s)
  lock_ge : ∀ k, -1 ≤ s.lock k
  owner : ∀ t, s.uxSchedulerSuspended = some t ↔ (s.pc t).Suspended
  fine : ∀ t, Fine c s (s.pc t)

def owe (k : Q × Side) (a : Q × Side → Nat) : Q × Side → Nat := update a k (a k - 1)

theorem owe_self (k : Q × Side) : owe k a k = a k - 1 := update_self ..

theorem owe_of_ne {k j : Q × Side} (h : j ≠ k) : owe k a j = a j := update_of_ne h ..

omit dQ dT in
theorem Account.mono (h : Account c s a) (hle : ∀ k, Relevant c k → b k ≤ a k) : Account c s b := fun k hk =>
  (h k hk).mono id subset_rfl (hle k hk)

omit dT in
theorem available_setQueue (x : Queue Q V) (k : Q × Side) :
    available c (s.setQueue q x) k = if k.1 = q then x.available (c.uxLength q) k.2 else available c s k := by
  unfold available State.setQueue
  by_cases hk : k.1 = q
  · simp [hk]
  · simp [hk]

omit dT in
theorem lock_setQueue (x : Queue Q V) (k : Q × Side) :
    (s.setQueue q x).lock k = if k.1 = q then x.lock k.2 else s.lock k := by
  unfold State.lock State.setQueue
  by_cases hk : k.1 = q
  · simp [hk]
  · simp [hk]

/-! ## Event lists -/

omit dQ dT in
theorem Linked.mem_wait (h : Linked s) {k : Q × Side} {rest : List Tid} (hk : s.lists.items k = t :: rest) :
    s.lists.container t = some k := by
  refine (h.lists.mem_iff t k).mp ?_
  rw [hk]
  exact List.mem_cons_self ..

omit dQ dT in
theorem Linked.congr (h : Linked s) (hlists : s'.lists = s.lists) (hpc : s'.pc = s.pc) (hwoken : s'.woken = s.woken) :
    Linked s' := by
  refine ⟨hlists ▸ h.lists, ?_, ?_⟩
  · rw [hlists, hpc]
    exact h.waits
  · rw [hlists, hpc, hwoken]
    exact h.woken

theorem Linked.wake (h : Linked s) (waker : Waker) : Linked (xTaskRemoveFromEventList s q waker) := by
  unfold xTaskRemoveFromEventList
  split
  · exact h
  · rename_i t rest hk
    have ht := h.mem_wait hk
    refine ⟨h.lists.remove t, fun x k hx => h.waits x k (container_remove_eq_some.mp hx).2, fun x q' waker' hx => ?_⟩
    · by_cases hne : x = t
      · subst hne
        have he := (update_self x (some (q, waker)) s.woken).symm.trans hx
        cases he
        exact ⟨container_remove_self, h.waits x _ ht⟩
      · obtain ⟨hnone, hwaits⟩ := h.woken x q' waker' ((update_of_ne hne ..).symm.trans hx)
        exact ⟨(container_remove_of_ne hne).trans hnone, hwaits⟩

theorem Account.wake (h : Linked s) (waker : Waker) (ha : Account c s (owe (q, waker.side) a)) :
    Account c (xTaskRemoveFromEventList s q waker) a := by
  intro k hk
  have hown := ha k hk
  unfold xTaskRemoveFromEventList
  split
  · rename_i hnil
    by_cases hkey : k = (q, waker.side)
    · rw [hkey, hnil]
      exact .nil
    · rw [owe_of_ne hkey] at hown
      exact hown
  · rename_i t rest hlist
    have ht := h.mem_wait hlist
    have hfresh : ∀ x ∈ s.wokenOn k, x ≠ t := fun x ⟨w, hw, _⟩ he => by
      rw [he] at hw
      exact absurd (ht.symm.trans (h.woken t _ _ hw).1) nofun
    have hkeep : ∀ x ∈ s.wokenOn k, ∃ w, update s.woken t (some (q, waker)) x = some (k.1, w) ∧ w.side = k.2 :=
      fun x hx => by
        rw [update_of_ne (hfresh x hx)]
        exact hx
    by_cases hkey : k = (q, waker.side)
    · subst hkey
      rw [owe_self] at hown
      have hin : t ∈ s.lists.items (q, waker.side) := by rw [hlist]; exact List.mem_cons_self ..
      refine (hown.wake hin (fun hx => hfresh t hx rfl) ?_).mono id subset_rfl (by omega)
      intro x hx
      rcases Set.mem_insert_iff.mp hx with rfl | hx
      · exact ⟨waker, update_self .., rfl⟩
      · exact hkeep x hx
    · rw [owe_of_ne hkey] at hown
      have hsame : (s.lists.remove t).items k = s.lists.items k :=
        items_remove_of_ne fun he => hkey (Option.some.inj (he.symm.trans ht))
      show Enough ((s.lists.remove t).items k) _ _
      rw [hsame]
      exact hown.mono id hkeep (le_refl _)

theorem Account.look (ha : Account c s a) {k : Q × Side} (ht : ∀ q waker, s.woken t = some (q, waker) → (q, waker.side) = k) :
    Account c (s.look t) (owe k a) := by
  intro j hj
  have hkeep : s.wokenOn j \ {t} ⊆ (s.look t).wokenOn j := fun x ⟨⟨w, hw, hside⟩, hne⟩ =>
    ⟨w, (update_of_ne hne ..).trans hw, hside⟩
  by_cases hkey : j = k
  · subst hkey
    rw [owe_self]
    cases hn : a j with
    | zero => exact .zero
    | succ n =>
      have hown := ha j hj
      rw [hn] at hown
      exact hown.take id hkeep
  · rw [owe_of_ne hkey]
    have hnot : t ∉ s.wokenOn j := fun ⟨w, hw, hside⟩ => hkey (by rw [← ht _ _ hw, hside])
    refine (ha j hj).mono id (fun x hx => hkeep ⟨hx, fun he => ?_⟩) (le_refl _)
    rw [Set.mem_singleton_iff.mp he] at hx
    exact hnot hx

/-! ## What leaves the tasks where they are -/

/-- The task waits on no event list, and nothing has woken it. -/
def Free (s : State Q Tid V) (t : Tid) : Prop := s.lists.container t = none ∧ s.woken t = none

structure Calm (s s' : State Q Tid V) : Prop where
  pc : s'.pc = s.pc
  suspended : s'.uxSchedulerSuspended = s.uxSchedulerSuspended
  linked : Linked s → Linked s'
  free : ∀ t, Linked s → Free s t → Free s' t
  lock_le : ∀ k, s.lock k ≤ s'.lock k

variable (c) in
/-- And locked queues do not get more than their lock counters tell. -/
structure Quiet (s s' : State Q Tid V) : Prop extends Calm s s' where
  held : ∀ k, 0 ≤ s.lock k → available c s' k ≤ available c s k

section
omit dQ dT

theorem Calm.refl (s : State Q Tid V) : Calm s s := ⟨rfl, rfl, id, fun _ _ => id, fun _ => le_refl _⟩

theorem Quiet.refl (s : State Q Tid V) : Quiet c s s := ⟨.refl s, fun _ _ => le_refl _⟩

theorem Calm.trans (h : Calm s s') (h' : Calm s' s'') : Calm s s'' where
  pc := h'.pc.trans h.pc
  suspended := h'.suspended.trans h.suspended
  linked hl := h'.linked (h.linked hl)
  free t hl hf := h'.free t (h.linked hl) (h.free t hl hf)
  lock_le k := (h.lock_le k).trans (h'.lock_le k)

theorem Quiet.trans (h : Quiet c s s') (h' : Quiet c s' s'') : Quiet c s s'' where
  toCalm := h.toCalm.trans h'.toCalm
  held k hk := (h'.held k (hk.trans (h.lock_le k))).trans (h.held k hk)

end

variable {pc : Pc Q V}

omit dQ dT in
theorem Quiet.fine (h : Quiet c s s') (hf : Fine c s pc) : Fine c s' pc := by
  cases pc with
  | idle ret => trivial
  | inCall call wait phase =>
    obtain ⟨hbad, hlock, hplace⟩ := hf
    refine ⟨hbad, fun side hside => (hlock side hside).trans (h.lock_le _), fun hp hrel => ?_⟩
    have hzero := hplace hp hrel
    have hle := h.held call.key (hlock call.side (by rw [hp]; trivial))
    omega

omit dQ dT in
theorem Inv.quiet (h : Inv c s) (hq : Quiet c s s') (ha : Account c s' (available c s')) : Inv c s' where
  linked := hq.linked h.linked
  account := ha
  lock_ge k := (h.lock_ge k).trans (hq.lock_le k)
  owner t := by
    rw [hq.pc, hq.suspended]
    exact h.owner t
  fine t := by
    rw [hq.pc]
    exact hq.fine (h.fine t)

@[simp] theorem queue_wake (waker : Waker) : (xTaskRemoveFromEventList s q waker).queue = s.queue := by
  unfold xTaskRemoveFromEventList
  split <;> rfl

omit dQ dT in
theorem available_congr (h : s'.queue = s.queue) : available c s' = available c s := by
  funext k
  unfold available
  rw [h]

omit dQ dT in
theorem lock_congr (h : s'.queue = s.queue) : s'.lock = s.lock := by
  funext k
  unfold State.lock
  rw [h]

theorem Free.wake (hf : Free s t) (hl : Linked s) (waker : Waker) : Free (xTaskRemoveFromEventList s q waker) t := by
  unfold xTaskRemoveFromEventList
  split
  · exact hf
  · rename_i u rest hk
    have hne : t ≠ u := fun he => by
      have hu := hl.mem_wait hk
      rw [← he, hf.1] at hu
      cases hu
    exact ⟨(container_remove_of_ne hne).trans hf.1, (update_of_ne hne ..).trans hf.2⟩

theorem quiet_wake (waker : Waker) : Quiet c s (xTaskRemoveFromEventList s q waker) where
  pc := by
    unfold xTaskRemoveFromEventList
    split <;> rfl
  suspended := by
    unfold xTaskRemoveFromEventList
    split <;> rfl
  linked h := h.wake waker
  free t hl hf := hf.wake hl waker
  lock_le k := (congrFun (lock_congr (queue_wake waker)) k).ge
  held k _ := (congrFun (available_congr (queue_wake waker)) k).le

structure Changes (s : State Q Tid V) (q : Q) (x : Queue Q V) (s' : State Q Tid V) : Prop where
  pc : s'.pc = s.pc
  suspended : s'.uxSchedulerSuspended = s.uxSchedulerSuspended
  lists : s'.lists = s.lists
  woken : s'.woken = s.woken
  queue : s'.queue = update s.queue q x

section Changes
variable {x y : Queue Q V}

section
variable (h : Changes s q x s')
include h
omit dT

theorem Changes.trans (h' : Changes s' q y s'') : Changes s q y s'' where
  pc := h'.pc.trans h.pc
  suspended := h'.suspended.trans h.suspended
  lists := h'.lists.trans h.lists
  woken := h'.woken.trans h.woken
  queue := by rw [h'.queue, h.queue, update_idem]

theorem Changes.self : s'.queue q = x := by
  rw [h.queue]
  exact update_self ..

theorem Changes.available_eq (k : Q × Side) :
    available c s' k = if k.1 = q then x.available (c.uxLength q) k.2 else available c s k := by
  rw [available_congr (s := s.setQueue q x) h.queue, available_setQueue]

theorem Changes.lock_eq (k : Q × Side) : s'.lock k = if k.1 = q then x.lock k.2 else s.lock k := by
  rw [lock_congr (s := s.setQueue q x) h.queue, lock_setQueue]

theorem Changes.account (ha : Account c s a) : Account c s' a := by
  unfold Account State.wokenOn
  rw [h.lists, h.woken]
  exact ha

theorem Changes.calm (hlock : ∀ side, (s.queue q).lock side ≤ x.lock side) : Calm s s' where
  pc := h.pc
  suspended := h.suspended
  linked hl := hl.congr h.lists h.pc h.woken
  free t _ hf := by
    unfold Free
    rw [h.lists, h.woken]
    exact hf
  lock_le k := by
    rw [h.lock_eq]
    split
    · rename_i hk
      subst hk
      exact hlock k.2
    · exact le_refl _

theorem Changes.quiet (hlock : ∀ side, (s.queue q).lock side ≤ x.lock side)
    (hheld : ∀ side, 0 ≤ (s.queue q).lock side →
      x.available (c.uxLength q) side ≤ (s.queue q).available (c.uxLength q) side) : Quiet c s s' where
  toCalm := h.calm hlock
  held k hk := by
    rw [h.available_eq]
    split
    · rename_i hq
      subst hq
      exact hheld k.2 hk
    · exact le_refl _

theorem Changes.owes (ha : Account c s a) (side : Side) (hother : ∀ k, k.1 ≠ q → available c s k ≤ a k)
    (hsides : ∀ j, (if j = side then x.available (c.uxLength q) j - 1 else x.available (c.uxLength q) j) ≤ a (q, j)) :
    Account c s' (owe (q, side) (available c s')) := by
  refine (h.account ha).mono fun k _ => ?_
  obtain ⟨p, j⟩ := k
  have heq := h.available_eq (c := c) (p, j)
  by_cases hp : p = q
  · subst hp
    have hj := hsides j
    by_cases he : j = side
    · subst he
      rw [owe_self, heq]
      simpa using hj
    · rw [owe_of_ne (fun hk => he (Prod.mk.inj hk).2), heq]
      simpa [he] using hj
  · rw [owe_of_ne (fun hk => hp (Prod.mk.inj hk).1), heq, if_neg hp]
    exact hother (p, j) hp

theorem Changes.keeps (ha : Account c s a) (hother : ∀ k, k.1 ≠ q → available c s k ≤ a k)
    (hsides : ∀ j, x.available (c.uxLength q) j ≤ a (q, j)) : Account c s' (available c s') := by
  refine (h.account ha).mono fun k _ => ?_
  obtain ⟨p, j⟩ := k
  rw [h.available_eq]
  split
  · rename_i hp
    subst hp
    exact hsides j
  · rename_i hp
    exact hother (p, j) hp

/-- An unlocked side gets one more, for which a task is to be woken. -/
theorem Changes.adds (ha : Account c s (available c s)) {d : Side}
    (hlock : x.lock = (s.queue q).lock) (hun : (s.queue q).lock d = queueUnlocked)
    (hle : ∀ j, (if j = d then x.available (c.uxLength q) j - 1 else x.available (c.uxLength q) j) ≤
      (s.queue q).available (c.uxLength q) j) : Quiet c s s' ∧ Account c s' (owe (q, d) (available c s')) := by
  refine ⟨h.quiet (fun j => (congrFun hlock j).ge) fun j hj => ?_, h.owes ha d (fun _ _ => le_refl _) hle⟩
  have hother : j ≠ d := fun he => by
    rw [he, hun] at hj
    exact absurd hj (by decide)
  simpa [hother] using hle j

/-- A locked side gets one more, and counts it. -/
theorem Changes.counts (ha : Account c s (available c s)) (hlock : ∀ side, (s.queue q).lock side ≤ x.lock side)
    (hle : ∀ side, x.available (c.uxLength q) side ≤ (s.queue q).available (c.uxLength q) side) :
    Quiet c s s' ∧ Account c s' (available c s') :=
  ⟨h.quiet hlock fun side _ => hle side, h.keeps ha (fun _ _ => le_refl _) hle⟩

end

omit dQ dT in
theorem locked_nonneg (hge : ∀ k, -1 ≤ s.lock k) {d : Side} (hlocked : (s.queue q).lock d ≠ queueUnlocked) :
    0 ≤ (s.queue q).lock d := by
  have hd : -1 ≤ (s.queue q).lock d := hge (q, d)
  unfold queueUnlocked at hlocked
  omega

end Changes

/-! ## Posting and taking -/

omit dQ dT in
theorem copy_cases (items : List (Item Q V)) (item : Item Q V) (p : CopyPosition) :
    (prvCopyDataToQueue c q items item p).length = items.length + 1 ∨
      (p = .overwrite ∧ (prvCopyDataToQueue c q items item p).length = items.length ∧ 0 < items.length) := by
  rw [length_prvCopyDataToQueue]
  split
  · rename_i hover
    exact .inr ⟨hover.1, rfl, Nat.pos_of_ne_zero hover.2.1⟩
  · exact .inl rfl

omit dT in
theorem changes_copyTo (item : Item Q V) (p : CopyPosition) :
    Changes s q { s.queue q with items := prvCopyDataToQueue c q (s.queue q).items item p } (s.copyTo c q item p) :=
  ⟨rfl, rfl, rfl, rfl, rfl⟩

theorem changes_take (holder : Option Tid) (item : Item Q V) (rest : List (Item Q V)) :
    Changes s q { s.queue q with items := rest } (s.take holder q item rest) := ⟨rfl, rfl, rfl, rfl, rfl⟩

section
omit dT

theorem changes_countTx (h : countTx s q = .ok s') :
    Changes s q { s.queue q with cTxLock := (s.queue q).cTxLock + 1 } s' := by
  unfold countTx at h
  split at h <;> cases h
  exact ⟨rfl, rfl, rfl, rfl, rfl⟩

theorem changes_countRx (h : countRx s q = .ok s') :
    Changes s q { s.queue q with cRxLock := (s.queue q).cRxLock + 1 } s' := by
  unfold countRx at h
  split at h <;> cases h
  exact ⟨rfl, rfl, rfl, rfl, rfl⟩

theorem copyTo_unlocked (ha : Account c s (available c s)) (hun : (s.queue q).cTxLock = queueUnlocked) (item : Item Q V)
    (p : CopyPosition) :
    Quiet c s (s.copyTo c q item p) ∧
      Account c (s.copyTo c q item p) (owe (q, .toReceive) (available c (s.copyTo c q item p))) := by
  have hcopy := copy_cases (c := c) (q := q) (s.queue q).items item p
  refine (changes_copyTo item p).adds ha (funext fun side => by cases side <;> rfl) hun fun side => ?_
  cases side with
  | toReceive => simp only [Queue.available, if_true]; omega
  | toSend => simp only [Queue.available, reduceCtorEq, if_false]; omega

theorem copyTo_locked (hge : ∀ k, -1 ≤ s.lock k) (ha : Account c s (available c s))
    (hlocked : (s.queue q).cTxLock ≠ queueUnlocked) {item : Item Q V} {p : CopyPosition}
    (h : countTx (s.copyTo c q item p) q = .ok s') : Quiet c s s' ∧ Account c s' (available c s') := by
  have hcopy := copy_cases (c := c) (q := q) (s.queue q).items item p
  have hch := (changes_copyTo item p).trans (changes_countTx h)
  rw [(changes_copyTo item p).self] at hch
  have hpos : 0 ≤ (s.queue q).cTxLock := locked_nonneg hge (d := .toReceive) hlocked
  refine hch.counts ha (fun side => ?_) fun side => ?_
  · cases side <;> simp only [Queue.lock] <;> omega
  · cases side <;> simp only [Queue.available] <;> omega

end

theorem prvNotifyQueueSetContainer_spec (hl : Linked s) (hge : ∀ k, -1 ≤ s.lock k) (ha : Account c s (available c s))
    (h : prvNotifyQueueSetContainer c s q = .ok s') : Quiet c s s' ∧ Account c s' (available c s') := by
  unfold prvNotifyQueueSetContainer at h
  cases hset : c.pxQueueSetContainer q with
  | none =>
    rw [hset] at h
    cases h
  | some set =>
    rw [hset] at h
    simp only at h
    split at h
    · have hlock : ((s.copyTo c set (.handle q) .sendToBack).queue set).cTxLock = (s.queue set).cTxLock := by
        rw [(changes_copyTo _ _).self]
      rw [hlock] at h
      split at h
      · rename_i hun
        cases h
        obtain ⟨hq, howe⟩ := copyTo_unlocked ha hun (.handle q) .sendToBack
        refine ⟨hq.trans (quiet_wake .send), ?_⟩
        rw [available_congr (queue_wake _)]
        exact howe.wake (hq.linked hl) .send
      · rename_i hlocked
        exact copyTo_locked hge ha hlocked h
    · cases h

theorem posted_spec (hl : Linked s) (hge : ∀ k, -1 ≤ s.lock k) {overwritten : Bool}
    (ha : Account c s (owe (q, .toReceive) (available c s))) (h : posted c s q overwritten = .ok s') :
    Quiet c s s' ∧ Account c s' (available c s') := by
  unfold posted at h
  cases hset : c.pxQueueSetContainer q with
  | none =>
    rw [hset] at h
    cases h
    refine ⟨quiet_wake .send, ?_⟩
    rw [available_congr (queue_wake _)]
    exact ha.wake hl .send
  | some set =>
    have ha' : Account c s (available c s) := ha.mono fun k hk => by
      by_cases hkey : k = (q, .toReceive)
      · rw [hkey] at hk
        exact absurd (hset.symm.trans (hk rfl)) nofun
      · rw [owe_of_ne hkey]
    rw [hset] at h
    simp only at h
    split at h
    · cases h
      exact ⟨.refl s, ha'⟩
    · exact prvNotifyQueueSetContainer_spec hl hge ha' h

/-! ## Unlocking -/

theorem wakeLoop_spec (waker : Waker) {n : Nat} {m : Nat} (hl : Linked s) (ha : Account c s a)
    (hm : m ≤ a (q, waker.side) + n) :
    Quiet c s (wakeLoop s q waker n) ∧ (wakeLoop s q waker n).queue = s.queue ∧
      Account c (wakeLoop s q waker n) (update a (q, waker.side) m) := by
  induction n generalizing s a with
  | zero =>
    refine ⟨.refl s, rfl, ha.mono fun k _ => ?_⟩
    by_cases hk : k = (q, waker.side)
    · subst hk
      rw [update_self]
      exact hm
    · rw [update_of_ne hk]
  | succ n ih =>
    unfold wakeLoop
    split
    · rename_i hnil
      refine ⟨.refl s, rfl, fun k hk => ?_⟩
      by_cases hkey : k = (q, waker.side)
      · rw [hkey, hnil]
        exact .nil
      · rw [update_of_ne hkey]
        exact ha k hk
    · have hpaid : Account c s (owe (q, waker.side) (update a (q, waker.side) (a (q, waker.side) + 1))) := by
        unfold owe
        rw [update_self, Nat.add_sub_cancel, update_idem, update_eq_self]
        exact ha
      obtain ⟨hq, hqueue, hacc⟩ := ih (s := xTaskRemoveFromEventList s q waker) (hl.wake waker) (hpaid.wake hl waker)
        (by rw [update_self]; omega)
      rw [update_idem] at hacc
      exact ⟨(quiet_wake waker).trans hq, hqueue.trans (queue_wake waker), hacc⟩

theorem unlockTxLoop_of_none (hnone : c.pxQueueSetContainer q = none) (n : Nat) :
    unlockTxLoop c s q n = .ok (wakeLoop s q .send n) := by
  induction n generalizing s with
  | zero => rfl
  | succ n ih =>
    unfold unlockTxLoop wakeLoop
    rw [hnone]
    simp only [Waker.side]
    split
    · rfl
    · exact ih

theorem unlockTxLoop_of_some {set : Q} (hsome : c.pxQueueSetContainer q = some set) {n : Nat} (hl : Linked s)
    (hge : ∀ k, -1 ≤ s.lock k) (ha : Account c s (available c s)) (h : unlockTxLoop c s q n = .ok s') :
    Quiet c s s' ∧ Account c s' (available c s') := by
  induction n generalizing s with
  | zero =>
    cases h
    exact ⟨.refl _, ha⟩
  | succ n ih =>
    unfold unlockTxLoop at h
    rw [hsome] at h
    obtain ⟨s₁, hnotify, h⟩ := bind_eq_ok h
    obtain ⟨hq, hacc⟩ := prvNotifyQueueSetContainer_spec hl hge ha hnotify
    obtain ⟨hq', hacc'⟩ := ih (hq.linked hl) (fun k => (hge k).trans (hq.lock_le k)) hacc h
    exact ⟨hq.trans hq', hacc'⟩

/-- What an unlocked side holds for the tasks: the counter is in the account. -/
structure Unlocks (c : Setup Q Tid) (s : State Q Tid V) (q : Q) (side : Side) (s' : State Q Tid V) : Prop where
  pc : s'.pc = s.pc
  suspended : s'.uxSchedulerSuspended = s.uxSchedulerSuspended
  linked : Linked s'
  lock_ge : ∀ k, -1 ≤ s'.lock k
  lock_other : ∀ j ≠ side, s.lock (q, j) ≤ s'.lock (q, j)
  account : Account c s' (available c s')

omit dT in
theorem Unlocks.of_loop {s₁ : State Q Tid V} {x : Queue Q V} {side : Side} (hq : Quiet c s s₁) (hl : Linked s)
    (hge : ∀ k, -1 ≤ s.lock k) (hch : Changes s₁ q x s') (hx : x.lock side = queueUnlocked)
    (hother : ∀ j ≠ side, x.lock j = s₁.lock (q, j)) (ha : Account c s' (available c s')) : Unlocks c s q side s' where
  pc := hch.pc.trans hq.pc
  suspended := hch.suspended.trans hq.suspended
  linked := (hq.linked hl).congr hch.lists hch.pc hch.woken
  lock_ge k := by
    have hk := (hge k).trans (hq.lock_le k)
    rw [hch.lock_eq]
    split
    · rename_i hkq
      subst hkq
      by_cases hside : k.2 = side
      · rw [hside, hx]
        exact le_refl _
      · rw [hother k.2 hside]
        exact hk
    · exact hk
  lock_other j hj := by
    rw [hch.lock_eq, if_pos rfl, hother j hj]
    exact hq.lock_le (q, j)
  account := ha

theorem prvUnlockQueueTx_spec (hl : Linked s) (hge : ∀ k, -1 ≤ s.lock k) (ha : Account c s (available c s))
    (h : prvUnlockQueueTx c s q = .ok s') : Unlocks c s q .toReceive s' := by
  obtain ⟨s₁, hloop, hs'⟩ := map_eq_ok h
  have hch : Changes s₁ q { s₁.queue q with cTxLock := queueUnlocked } s' := by
    rw [← hs']
    exact ⟨rfl, rfl, rfl, rfl, rfl⟩
  have hother : ∀ j ≠ Side.toReceive, ({ s₁.queue q with cTxLock := queueUnlocked } : Queue Q V).lock j = s₁.lock (q, j) := by
    intro j hj
    cases j with
    | toReceive => exact absurd rfl hj
    | toSend => rfl
  cases hset : c.pxQueueSetContainer q with
  | none =>
    rw [unlockTxLoop_of_none hset] at hloop
    cases hloop
    obtain ⟨hq, hqueue, hacc⟩ := wakeLoop_spec (c := c) (q := q) .send (n := (s.queue q).cTxLock.toNat) hl ha
      (m := (s.queue q).items.length) (by simp only [available, Queue.available, Waker.side]; omega)
    refine .of_loop hq hl hge hch rfl hother (hch.keeps hacc (fun k hk => ?_) fun j => ?_)
    · rw [update_of_ne (fun he => hk (congrArg Prod.fst he)), available_congr hqueue]
    · rw [hqueue]
      cases j with
      | toReceive =>
        rw [Waker.side, update_self]
        exact Nat.sub_le ..
      | toSend =>
        rw [update_of_ne (by simp [Waker.side])]
        exact le_refl _
  | some set =>
    obtain ⟨hq, hacc⟩ := unlockTxLoop_of_some hset hl hge ha hloop
    refine .of_loop hq hl hge hch rfl hother ((hch.account hacc).mono fun k hk => ?_)
    rw [hch.available_eq]
    split
    · rename_i hkq
      obtain ⟨p, j⟩ := k
      cases j with
      | toReceive =>
        subst hkq
        exact absurd (hset.symm.trans (hk rfl)) nofun
      | toSend =>
        subst hkq
        exact le_refl _
    · exact le_refl _

theorem prvUnlockQueueRx_spec (hl : Linked s) (hge : ∀ k, -1 ≤ s.lock k) (ha : Account c s (available c s)) :
    Unlocks c s q .toSend (prvUnlockQueueRx s q) := by
  obtain ⟨hq, hqueue, hacc⟩ := wakeLoop_spec (c := c) (q := q) .receive (n := (s.queue q).cRxLock.toNat) hl ha
    (m := c.uxLength q - (s.queue q).items.length) (by simp only [available, Queue.available, Waker.side]; omega)
  have hch : Changes (wakeLoop s q .receive (s.queue q).cRxLock.toNat) q
      { (wakeLoop s q .receive (s.queue q).cRxLock.toNat).queue q with cRxLock := queueUnlocked }
      (prvUnlockQueueRx s q) := ⟨rfl, rfl, rfl, rfl, rfl⟩
  refine .of_loop hq hl hge hch rfl (fun j hj => ?_) (hch.keeps hacc (fun k hk => ?_) fun j => ?_)
  · cases j with
    | toReceive => rfl
    | toSend => exact absurd rfl hj
  · rw [update_of_ne (fun he => hk (congrArg Prod.fst he)), available_congr hqueue]
  · rw [hqueue]
    cases j with
    | toReceive =>
      rw [update_of_ne (by simp [Waker.side])]
      exact le_refl _
    | toSend =>
      rw [Waker.side, update_self]
      exact Nat.sub_le ..

theorem xQueueGenericSendFromISR_inv (h : Inv c s) {item : V} {p : CopyPosition}
    (hgo : xQueueGenericSendFromISR c s q item p = .ok s') : Inv c s' := by
  unfold xQueueGenericSendFromISR at hgo
  split at hgo
  · simp only at hgo
    split at hgo
    · rename_i hun
      obtain ⟨hq, howe⟩ := copyTo_unlocked h.account hun (.data item) p
      obtain ⟨hq', hacc⟩ := posted_spec (hq.linked h.linked) (fun k => (h.lock_ge k).trans (hq.lock_le k)) howe hgo
      exact h.quiet (hq.trans hq') hacc
    · rename_i hlocked
      obtain ⟨hq, hacc⟩ := copyTo_locked h.lock_ge h.account hlocked hgo
      exact h.quiet hq hacc
  · cases hgo
    exact h

theorem xQueueReceiveFromISR_inv (h : Inv c s) (hgo : xQueueReceiveFromISR s q = .ok s') : Inv c s' := by
  unfold xQueueReceiveFromISR at hgo
  split at hgo
  · rename_i item rest hitems
    have hlen : (s.queue q).items.length = rest.length + 1 := by rw [hitems]; rfl
    have hch := changes_take (s := s) (q := q) none item rest
    simp only at hgo
    split at hgo
    · rename_i hun
      cases hgo
      obtain ⟨hq, howe⟩ := hch.adds h.account (d := .toSend) (funext fun side => by cases side <;> rfl) hun fun side => by
        cases side with
        | toReceive => simp only [Queue.available, reduceCtorEq, if_false]; omega
        | toSend => simp only [Queue.available, if_true]; omega
      refine h.quiet (hq.trans (quiet_wake .receive)) ?_
      rw [available_congr (queue_wake _)]
      exact howe.wake (hq.linked h.linked) .receive
    · rename_i hlocked
      have hch := hch.trans (changes_countRx hgo)
      rw [(changes_take none item rest).self] at hch
      have hpos : 0 ≤ (s.queue q).cRxLock := locked_nonneg h.lock_ge (d := .toSend) hlocked
      obtain ⟨hq, hacc⟩ := hch.counts h.account (fun side => by cases side <;> simp only [Queue.lock] <;> omega)
        fun side => by cases side <;> simp only [Queue.available] <;> omega
      exact h.quiet hq hacc
  · cases hgo
    exact h

/-! ## Tasks -/

theorem Phase.suspended_of_locks {phase : Phase} {side : Side} (h : phase.Locks side) : phase.Suspended := by
  cases phase <;> cases side <;> simp_all [Phase.Locks, Phase.Suspended]

omit dQ dT in
theorem Fine.elsewhere (h : Fine c s pc) (hno : ¬pc.Suspended) : Fine c s' pc := by
  cases pc with
  | idle ret => trivial
  | inCall call wait phase =>
    refine ⟨h.1, fun side hside => absurd (Phase.suspended_of_locks hside) hno, fun hp _ => absurd ?_ hno⟩
    rw [hp]
    trivial

omit dQ in
@[simp] theorem pc_goto_self (pc : Pc Q V) : (s.goto t pc).pc t = pc := update_self ..

omit dQ in
theorem pc_goto_of_ne {x : Tid} (pc : Pc Q V) (hx : x ≠ t) : (s.goto t pc).pc x = s.pc x := update_of_ne hx ..

omit dQ dT in
theorem Linked.not_waits (h : Linked s) (hno : ∀ k, ¬(s.pc t).Waits k) : Free s t := by
  refine ⟨?_, ?_⟩
  · cases hc : s.lists.container t with
    | none => rfl
    | some k => exact absurd (h.waits t k hc) (hno k)
  · cases hw : s.woken t with
    | none => rfl
    | some w => exact absurd (h.woken t w.1 w.2 hw).2 (hno _)

omit dQ in
theorem Linked.goto (h : Linked s) (hf : Free s t) (pc : Pc Q V) : Linked (s.goto t pc) := by
  refine ⟨h.lists, fun x k hx => ?_, fun x q waker hx => ?_⟩
  · have hne : x ≠ t := fun he => by
      rw [he] at hx
      exact absurd (hf.1.symm.trans hx) nofun
    rw [pc_goto_of_ne _ hne]
    exact h.waits x k hx
  · have hne : x ≠ t := fun he => by
      rw [he] at hx
      exact absurd (hf.2.symm.trans hx) nofun
    rw [pc_goto_of_ne _ hne]
    exact h.woken x q waker hx

omit dQ in
theorem Linked.advance (h : Linked s) (hw : ∀ k, (s.pc t).Waits k → pc.Waits k) : Linked (s.goto t pc) := by
  have hpc : ∀ x k, (s.pc x).Waits k → ((s.goto t pc).pc x).Waits k := by
    intro x k hx
    by_cases he : x = t
    · subst he
      rw [pc_goto_self]
      exact hw k hx
    · rw [pc_goto_of_ne _ he]
      exact hx
  exact ⟨h.lists, fun x k hx => hpc x k (h.waits x k hx), fun x q waker hx =>
    ⟨(h.woken x q waker hx).1, hpc x _ (h.woken x q waker hx).2⟩⟩

omit dQ dT in
theorem Inv.not_suspended (h : Inv c s) (hrun : runnable s t) {x : Tid} (hx : x ≠ t) : ¬(s.pc x).Suspended := fun hs => by
  have hown := (h.owner x).mpr hs
  rcases hrun with hr | hr
  · exact hx (Option.some.inj (hown.symm.trans hr))
  · exact absurd (hr.1.symm.trans hown) nofun

omit dQ in
theorem Inv.move (h : Inv c s) (hrun : runnable s t) (hpc : ∀ x ≠ t, s'.pc x = s.pc x) (hl : Linked s')
    (ha : Account c s' (available c s')) (hge : ∀ k, -1 ≤ s'.lock k)
    (howner : s'.uxSchedulerSuspended = some t ∧ (s'.pc t).Suspended ∨ s'.uxSchedulerSuspended = none ∧ ¬(s'.pc t).Suspended)
    (hfine : Fine c s' (s'.pc t)) : Inv c s' where
  linked := hl
  account := ha
  lock_ge := hge
  owner x := by
    by_cases hx : x = t
    · subst hx
      rcases howner with ⟨h₁, h₂⟩ | ⟨h₁, h₂⟩ <;> simp [h₁, h₂]
    · have hno := h.not_suspended hrun hx
      rw [hpc x hx]
      rcases howner with ⟨h₁, -⟩ | ⟨h₁, -⟩ <;> simp [h₁, hno, Ne.symm hx]
  fine x := by
    by_cases hx : x = t
    · subst hx
      exact hfine
    · rw [hpc x hx]
      exact (h.fine x).elsewhere (h.not_suspended hrun hx)

omit dQ dT in
theorem Inv.running (h : Inv c s) (hrun : runnable s t) (hno : ¬(s.pc t).Suspended) :
    s.uxSchedulerSuspended = none ∧ s.lists.container t = none := by
  rcases hrun with hr | hr
  · exact absurd ((h.owner t).mp hr) hno
  · exact hr

omit dQ in
theorem Linked.look (h : Linked s) : Linked (s.look t) := by
  refine ⟨h.lists, h.waits, fun x q waker hx => ?_⟩
  by_cases hne : x = t
  · subst hne
    have hself : (s.look x).woken x = none := update_self ..
    rw [hself] at hx
    cases hx
  · exact h.woken x q waker ((update_of_ne hne ..).symm.trans hx)

omit dQ in
theorem Inv.settle (h : Inv c s) {call : Call Q V} {wait : Bool} (hpc : s.pc t = .inCall call wait .top)
    (hrun : runnable s t) {s₁ : State Q Tid V} (hcalm : Calm (s.look t) s₁)
    (ha : Account c s₁ (available c s₁)) (hto : (∃ ret, pc = .idle ret) ∨ pc = .inCall call wait .suspendAll) :
    Inv c (s₁.goto t pc) := by
  obtain ⟨hnone, hcont⟩ := h.running hrun (by rw [hpc]; exact id)
  have hlook : Linked (s.look t) := h.linked.look
  have hfree : Free s₁ t := hcalm.free t hlook ⟨hcont, update_self ..⟩
  refine h.move hrun (fun x hx => ?_) ((hcalm.linked hlook).goto hfree pc) ha
    (fun k => (h.lock_ge k).trans (hcalm.lock_le k)) (.inr ⟨hcalm.suspended.trans hnone, ?_⟩) ?_
  · rw [pc_goto_of_ne _ hx, hcalm.pc]
    rfl
  · rw [pc_goto_self]
    rcases hto with ⟨ret, rfl⟩ | rfl <;> exact id
  · rw [pc_goto_self]
    have hf := h.fine t
    rw [hpc] at hf
    rcases hto with ⟨ret, rfl⟩ | rfl
    · trivial
    · exact ⟨hf.1, fun side hside => absurd (Phase.suspended_of_locks hside) id, nofun⟩

theorem Inv.look (h : Inv c s) {call : Call Q V} {wait : Bool} (hpc : s.pc t = .inCall call wait .top) :
    Account c (s.look t) (owe call.key (available c s)) :=
  h.account.look fun q waker hw => by
    have hwaits := (h.linked.woken t q waker hw).2
    rw [hpc] at hwaits
    exact hwaits.1.symm

omit dT in
theorem Account.nothing {k : Q × Side} (ha : Account c s (owe k a)) (hzero : a k = 0) : Account c s a :=
  ha.mono fun j _ => by
    by_cases hj : j = k
    · rw [hj, hzero]
      exact Nat.zero_le _
    · rw [owe_of_ne hj]

theorem xQueueGenericSend_inv (h : Inv c s) {item : V} {p : CopyPosition} {wait : Bool}
    (hpc : s.pc t = .inCall (.send q item p) wait .top) (hrun : runnable s t)
    (hgo : xQueueGenericSend c (s.look t) t q item wait p = .ok s') : Inv c s' := by
  have hlook : Account c (s.look t) (owe (q, .toSend) (available c s)) := h.look hpc
  unfold xQueueGenericSend at hgo
  split at hgo
  · obtain ⟨s₁, hpost, hs'⟩ := map_eq_ok hgo
    have hcopy := copy_cases (c := c) (q := q) (s.queue q).items (.data item) p
    have hone : p = .overwrite → c.uxLength q = 1 := by
      have hf := h.fine t
      rw [hpc] at hf
      intro hp
      by_contra hne
      exact hf.1 ⟨hp, hne⟩
    have hch := changes_copyTo (c := c) (s := s.look t) (q := q) (.data item) p
    have hcalm := hch.calm fun side => by cases side <;> exact le_refl _
    have howe := hch.owes hlook .toReceive (fun k hk => ?_) fun side => ?_
    · obtain ⟨hq, hacc⟩ := posted_spec (hcalm.linked h.linked.look) (fun k => (h.lock_ge k).trans (hcalm.lock_le k))
        howe hpost
      rw [← hs']
      exact h.settle hpc hrun (hcalm.trans hq.toCalm) hacc (.inl ⟨_, rfl⟩)
    · rw [owe_of_ne fun he => hk (congrArg Prod.fst he)]
      exact le_refl _
    · cases side with
      | toReceive =>
        rw [owe_of_ne (by simp)]
        simp only [available, Queue.available, if_true, State.look]
        omega
      | toSend =>
        rw [owe_self]
        simp only [available, Queue.available, reduceCtorEq, if_false, State.look]
        rcases hcopy with heq | ⟨hp, heq, hpos⟩
        · omega
        · have := hone hp
          omega
  · rename_i hfull
    have hzero : available c s (q, .toSend) = 0 := by
      have hle : ¬(s.queue q).items.length < c.uxLength q := fun hlt => hfull (.inl hlt)
      simp only [available, Queue.available]
      omega
    split at hgo <;> cases hgo
    · exact h.settle hpc hrun (.refl _) (hlook.nothing hzero) (.inr rfl)
    · exact h.settle hpc hrun (.refl _) (hlook.nothing hzero) (.inl ⟨_, rfl⟩)

omit dQ dT in
theorem available_nil {k : Q × Side} (hk : k.2 = .toReceive) (h : (s.queue k.1).items = []) : available c s k = 0 := by
  obtain ⟨q, side⟩ := k
  subst hk
  simp [available, Queue.available, h]

theorem xQueueReceive_inv (h : Inv c s) {wait : Bool} (hpc : s.pc t = .inCall (.receive q) wait .top)
    (hrun : runnable s t) : Inv c (xQueueReceive c (s.look t) t q wait) := by
  have hlook : Account c (s.look t) (owe (q, .toReceive) (available c s)) := h.look hpc
  unfold xQueueReceive
  split
  · rename_i item rest hitems
    have hlen : (s.queue q).items.length = rest.length + 1 := (congrArg List.length hitems).trans rfl
    have hch := changes_take (s := s.look t) (q := q) (some t) item rest
    have hcalm := hch.calm fun side => by cases side <;> exact le_refl _
    have howe := hch.owes hlook .toSend (fun k hk => ?_) fun side => ?_
    · refine h.settle hpc hrun (hcalm.trans (quiet_wake (c := c) .receive).toCalm) ?_ (.inl ⟨_, rfl⟩)
      rw [available_congr (queue_wake _)]
      exact howe.wake (hcalm.linked h.linked.look) .receive
    · rw [owe_of_ne fun he => hk (congrArg Prod.fst he)]
      exact le_refl _
    · cases side with
      | toReceive =>
        rw [owe_self]
        simp only [available, Queue.available, reduceCtorEq, if_false, State.look]
        omega
      | toSend =>
        rw [owe_of_ne (by simp)]
        simp only [available, Queue.available, if_true, State.look]
        omega
  · rename_i hnil
    have hacc := hlook.nothing (available_nil rfl hnil)
    split
    · rename_i hwait
      subst hwait
      exact h.settle hpc hrun (.refl _) hacc (.inr rfl)
    · exact h.settle hpc hrun (.refl _) hacc (.inl ⟨_, rfl⟩)

theorem xQueuePeek_inv (h : Inv c s) {wait : Bool} (hpc : s.pc t = .inCall (.peek q) wait .top)
    (hrun : runnable s t) : Inv c (xQueuePeek c (s.look t) t q wait) := by
  have hlook : Account c (s.look t) (owe (q, .toReceive) (available c s)) := h.look hpc
  unfold xQueuePeek
  split
  · refine h.settle hpc hrun (quiet_wake (c := c) .peek).toCalm ?_ (.inl ⟨_, rfl⟩)
    rw [available_congr (queue_wake _)]
    exact hlook.wake h.linked.look .peek
  · rename_i hnil
    have hacc := hlook.nothing (available_nil rfl hnil)
    split
    · rename_i hwait
      subst hwait
      exact h.settle hpc hrun (.refl _) hacc (.inr rfl)
    · exact h.settle hpc hrun (.refl _) hacc (.inl ⟨_, rfl⟩)

/-! ## The steps -/

variable {call : Call Q V} {wait : Bool} {phase : Phase}

omit dQ dT in
theorem Linked.not_returns (h : Linked s) (hpc : s.pc t = .inCall call wait phase) (hno : ¬phase.Returns) : Free s t :=
  h.not_waits fun k hk => by
    rw [hpc] at hk
    exact hno hk.2

section
omit dQ

theorem Inv.goto (h : Inv c s) (hrun : runnable s t) (hl : Linked (s.goto t pc))
    (hsus : pc.Suspended ↔ (s.pc t).Suspended) (hfine : Fine c s pc) : Inv c (s.goto t pc) := by
  refine h.move hrun (fun x hx => pc_goto_of_ne _ hx) hl h.account h.lock_ge ?_ ?_
  · rw [pc_goto_self, hsus]
    by_cases hs : (s.pc t).Suspended
    · exact .inl ⟨(h.owner t).mpr hs, hs⟩
    · exact .inr ⟨(h.running hrun hs).1, hs⟩
  · rw [pc_goto_self]
    cases pc with
    | idle ret => trivial
    | inCall call wait phase => exact hfine

theorem Inv.leave (h : Inv c s) (hpc : s.pc t = .inCall call wait phase) (hrun : runnable s t) (hno : ¬phase.Returns)
    (hsus : pc.Suspended ↔ phase.Suspended) (hfine : Fine c s pc) : Inv c (s.goto t pc) :=
  h.goto hrun (h.linked.goto (h.linked.not_returns hpc hno) pc) (by rw [hpc]; exact hsus) hfine

theorem suspendAll_inv (h : Inv c s) (hpc : s.pc t = .inCall call wait .suspendAll) (hrun : runnable s t) :
    Inv c ({ s with uxSchedulerSuspended := some t }.goto t (.inCall call wait .lockQueue)) := by
  have hlinked : Linked { s with uxSchedulerSuspended := some t } := ⟨h.linked.lists, h.linked.waits, h.linked.woken⟩
  have hfine := h.fine t
  rw [hpc] at hfine
  refine h.move hrun (fun x hx => pc_goto_of_ne _ hx) (hlinked.goto (h.linked.not_returns hpc id) _) h.account h.lock_ge
    (.inl ⟨rfl, ?_⟩) ?_
  · rw [pc_goto_self]
    trivial
  · rw [pc_goto_self]
    exact ⟨hfine.1, nofun, nofun⟩

end

theorem lockedValue_spec {n : Int} (hn : -1 ≤ n) :
    0 ≤ (if n = queueUnlocked then queueLockedUnmodified else n) ∧
      n ≤ (if n = queueUnlocked then queueLockedUnmodified else n) ∧
      (if n = queueUnlocked then queueLockedUnmodified else n).toNat = n.toNat := by
  unfold queueUnlocked queueLockedUnmodified
  split <;> omega

theorem prvLockQueue_inv (h : Inv c s) (hpc : s.pc t = .inCall call wait .lockQueue) (hrun : runnable s t) :
    Inv c ((prvLockQueue s call.queue).goto t (.inCall call wait .checkForTimeOut)) := by
  have hown : s.uxSchedulerSuspended = some t := (h.owner t).mpr (by rw [hpc]; trivial)
  have hge : ∀ side, -1 ≤ (s.queue call.queue).lock side := fun side => h.lock_ge (call.queue, side)
  have htx := hge .toReceive
  have hrx := hge .toSend
  set x : Queue Q V := { s.queue call.queue with
    cRxLock := if (s.queue call.queue).cRxLock = queueUnlocked then queueLockedUnmodified else (s.queue call.queue).cRxLock
    cTxLock := if (s.queue call.queue).cTxLock = queueUnlocked then queueLockedUnmodified else (s.queue call.queue).cTxLock }
    with hx
  have hch : Changes s call.queue x (prvLockQueue s call.queue) := ⟨rfl, rfl, rfl, rfl, rfl⟩
  have hlocked : ∀ side, 0 ≤ x.lock side ∧ (s.queue call.queue).lock side ≤ x.lock side ∧
      (x.lock side).toNat = ((s.queue call.queue).lock side).toNat := by
    intro side
    cases side with
    | toSend => exact lockedValue_spec hrx
    | toReceive => exact lockedValue_spec htx
  have hcalm := hch.calm fun side => (hlocked side).2.1
  have hfree := h.linked.not_returns hpc id
  have hfine := h.fine t
  rw [hpc] at hfine
  have hacc : Account c (prvLockQueue s call.queue) (available c (prvLockQueue s call.queue)) := by
    refine hch.keeps h.account (fun k _ => le_refl _) fun side => ?_
    have hsame := (hlocked side).2.2
    cases side <;> simp only [Queue.lock] at hsame <;> simp only [available, Queue.available, hsame] <;> exact le_refl _
  refine h.move hrun (fun x hx => pc_goto_of_ne _ hx) ((hcalm.linked h.linked).goto (hcalm.free t h.linked hfree) _) hacc
    (fun k => (h.lock_ge k).trans (hcalm.lock_le k)) (.inl ⟨hown, ?_⟩) ?_
  · rw [pc_goto_self]
    trivial
  · rw [pc_goto_self]
    refine ⟨hfine.1, fun side _ => ?_, nofun⟩
    show 0 ≤ (prvLockQueue s call.queue).lock (call.queue, side)
    rw [hch.lock_eq, if_pos rfl]
    exact (hlocked side).1

omit dQ dT in
theorem available_of_mustWait (h : mustWait c s call = true) : available c s call.key = 0 := by
  cases call with
  | send q item p =>
    have heq : (s.queue q).items.length = c.uxLength q := of_decide_eq_true h
    simp [available, Call.key, Call.queue, Call.side, Queue.available, heq]
  | receive q | peek q =>
    have heq : (s.queue q).items.length = 0 := of_decide_eq_true h
    simp [available, Call.key, Call.queue, Call.side, Queue.available, heq]

section
variable (h : Inv c s)
include h

omit dQ in
theorem test_inv (hpc : s.pc t = .inCall call wait .test) (hrun : runnable s t) :
    Inv c (s.goto t (.inCall call wait (if mustWait c s call then .placeOnEventList else .unlockTx false))) := by
  have hfine := h.fine t
  rw [hpc] at hfine
  split
  · rename_i hwait
    exact h.leave hpc hrun id Iff.rfl
      ⟨hfine.1, fun side _ => hfine.2.1 side trivial, fun _ _ => available_of_mustWait hwait⟩
  · exact h.leave hpc hrun id Iff.rfl ⟨hfine.1, fun side _ => hfine.2.1 side trivial, nofun⟩

theorem placeOnEventList_inv (hpc : s.pc t = .inCall call wait .placeOnEventList) (hrun : runnable s t) :
    Inv c ((vTaskPlaceOnEventList c s t call.queue call.side).goto t (.inCall call wait (.unlockTx false))) := by
  have hfree := h.linked.not_returns hpc id
  have hfine := h.fine t
  rw [hpc] at hfine
  obtain ⟨hbad, hlocks, hplace⟩ := hfine
  have hown : s.uxSchedulerSuspended = some t := (h.owner t).mpr (by rw [hpc]; trivial)
  have hself : ((vTaskPlaceOnEventList c s t call.queue call.side).goto t
      (.inCall call wait (.unlockTx false))).pc t = .inCall call wait (.unlockTx false) := pc_goto_self _
  have hother : ∀ x ≠ t, ((vTaskPlaceOnEventList c s t call.queue call.side).goto t
      (.inCall call wait (.unlockTx false))).pc x = s.pc x := fun x hx => pc_goto_of_ne _ hx
  refine h.move hrun hother ⟨h.linked.lists.insert hfree.1, fun x k hx => ?_, fun x q waker hx => ?_⟩ (fun k hk => ?_)
    h.lock_ge (.inl ⟨hown, by rw [hself]; trivial⟩) ?_
  · by_cases he : x = t
    · subst he
      change (s.lists.insert (fun y => c.configMaxPriorities - c.uxPriority y) (call.queue, call.side) x).container x =
        some k at hx
      rw [Lists.insert, container_put_self] at hx
      cases hx
      rw [hself]
      exact ⟨rfl, trivial⟩
    · rw [hother x he]
      exact h.linked.waits x k ((container_put_of_ne _ he).symm.trans hx)
  · have he : x ≠ t := fun he => by
      rw [he] at hx
      exact absurd (hfree.2.symm.trans hx) (by simp)
    obtain ⟨hnone, hwaits⟩ := h.linked.woken x q waker hx
    rw [hother x he]
    exact ⟨(container_put_of_ne _ he).trans hnone, hwaits⟩
  · by_cases hkey : k = call.key
    · subst hkey
      show Enough _ _ (available c s call.key)
      rw [hplace rfl hk]
      exact .zero
    · have hsame : (s.lists.insert (fun x => c.configMaxPriorities - c.uxPriority x) (call.queue, call.side) t).items k =
          s.lists.items k := items_put_of_ne _ hkey
      show Enough ((s.lists.insert _ (call.queue, call.side) t).items k) _ _
      rw [hsame]
      exact h.account k hk
  · rw [hself]
    exact ⟨hbad, fun side _ => hlocks side trivial, by simp⟩

omit dQ in
theorem Unlocks.inv {side : Side} (hu : Unlocks c s call.queue side s') (hpc : s.pc t = .inCall call wait phase)
    (hrun : runnable s t) {phase' : Phase} (hsus : phase.Suspended ∧ phase'.Suspended) (hret : phase.Returns → phase'.Returns)
    (hlocks : ∀ j, phase'.Locks j → j ≠ side ∧ phase.Locks j) (hne : phase' ≠ .placeOnEventList) :
    Inv c (s'.goto t (.inCall call wait phase')) := by
  have hown : s.uxSchedulerSuspended = some t := (h.owner t).mpr (by rw [hpc]; exact hsus.1)
  have hfine := h.fine t
  rw [hpc] at hfine
  refine h.move hrun (fun x hx => ?_) (hu.linked.advance fun k hk => ?_) hu.account hu.lock_ge
    (.inl ⟨hu.suspended.trans hown, by rw [pc_goto_self]; exact hsus.2⟩) ?_
  · rw [pc_goto_of_ne _ hx, hu.pc]
  · rw [hu.pc, hpc] at hk
    exact ⟨hk.1, hret hk.2⟩
  · rw [pc_goto_self]
    refine ⟨hfine.1, fun j hj => ?_, fun he => absurd he hne⟩
    obtain ⟨hside, hold⟩ := hlocks j hj
    exact (hfine.2.1 j hold).trans (hu.lock_other j hside)

omit dQ in
theorem resumeAll_inv {timedOut : Bool} (hpc : s.pc t = .inCall call wait (.resumeAll timedOut))
    (hrun : runnable s t) : Inv c ({ s with uxSchedulerSuspended := none }.goto t (afterResume call wait timedOut)) := by
  have hlinked : Linked { s with uxSchedulerSuspended := none } := ⟨h.linked.lists, h.linked.waits, h.linked.woken⟩
  have hfine := h.fine t
  rw [hpc] at hfine
  have hto : ¬(afterResume call wait timedOut).Suspended ∧ Fine c s (afterResume call wait timedOut) := by
    cases timedOut with
    | false => exact ⟨id, hfine.1, nofun, nofun⟩
    | true =>
      cases call with
      | send q item p => exact ⟨id, trivial⟩
      | receive q | peek q => exact ⟨id, hfine.1, nofun, nofun⟩
  refine h.move hrun (fun x hx => pc_goto_of_ne _ hx) (hlinked.advance fun k hk => ?_) h.account h.lock_ge
    (.inr ⟨rfl, by rw [pc_goto_self]; exact hto.1⟩) (by rw [pc_goto_self]; exact hto.2.elsewhere hto.1)
  have hk : (s.pc t).Waits k := hk
  rw [hpc] at hk
  cases timedOut with
  | false => exact ⟨hk.1, trivial⟩
  | true => exact absurd hk.2 id

theorem stepCall_inv {expired : Bool} (hpc : s.pc t = .inCall call wait phase) (hrun : runnable s t)
    (hgo : stepCall c s t call wait expired phase = .ok s') : Inv c s' := by
  have hfine := h.fine t
  rw [hpc] at hfine
  cases phase with
  | top =>
    cases call with
    | send q item p => exact xQueueGenericSend_inv h hpc hrun hgo
    | receive q =>
      cases hgo
      exact xQueueReceive_inv h hpc hrun
    | peek q =>
      cases hgo
      exact xQueuePeek_inv h hpc hrun
  | suspendAll =>
    cases hgo
    exact suspendAll_inv h hpc hrun
  | lockQueue =>
    cases hgo
    exact prvLockQueue_inv h hpc hrun
  | checkForTimeOut =>
    simp only [stepCall] at hgo
    split at hgo <;> cases hgo
    · exact h.leave hpc hrun id Iff.rfl ⟨hfine.1, fun side _ => hfine.2.1 side trivial, nofun⟩
    · exact h.leave hpc hrun id Iff.rfl ⟨hfine.1, fun side _ => hfine.2.1 side trivial, nofun⟩
  | test =>
    cases hgo
    exact test_inv h hpc hrun
  | placeOnEventList =>
    cases hgo
    exact placeOnEventList_inv h hpc hrun
  | unlockTx timedOut =>
    obtain ⟨s₁, hunlock, hs'⟩ := map_eq_ok hgo
    rw [← hs']
    refine (prvUnlockQueueTx_spec h.linked h.lock_ge h.account hunlock).inv h hpc hrun ⟨trivial, trivial⟩
      (fun hr => by cases timedOut <;> exact hr) (fun j hj => ?_) nofun
    cases j with
    | toReceive => exact absurd hj id
    | toSend => exact ⟨nofun, trivial⟩
  | unlockRx timedOut =>
    cases hgo
    exact (prvUnlockQueueRx_spec h.linked h.lock_ge h.account).inv h hpc hrun ⟨trivial, trivial⟩
      (fun hr => by cases timedOut <;> exact hr) (fun j hj => absurd hj id) nofun
  | resumeAll timedOut =>
    cases hgo
    exact resumeAll_inv h hpc hrun
  | lastTest =>
    simp only [stepCall] at hgo
    split at hgo <;> cases hgo
    · exact h.leave hpc hrun id Iff.rfl trivial
    · exact h.leave hpc hrun id Iff.rfl ⟨hfine.1, nofun, nofun⟩

omit dQ in
theorem call_inv {ret : Result Q V} (hpc : s.pc t = .idle ret) (hrun : runnable s t) (hbad : ¬badCall c call) :
    Inv c (s.goto t (.inCall call wait .top)) := by
  have hfree : Free s t := h.linked.not_waits fun k hk => by
    rw [hpc] at hk
    exact hk
  exact h.goto hrun (h.linked.goto hfree _) (by rw [hpc]; exact Iff.rfl) ⟨hbad, nofun, nofun⟩

theorem timeout_inv (ht : s.lists.container t ≠ none) : Inv c { s with lists := s.lists.remove t } := by
  refine ⟨⟨h.linked.lists.remove t, fun x k hx => h.linked.waits x k (container_remove_eq_some.mp hx).2,
    fun x q waker hx => ?_⟩, fun k hk => ?_, h.lock_ge, h.owner, fun x => ?_⟩
  · obtain ⟨hnone, hwaits⟩ := h.linked.woken x q waker hx
    have he : x ≠ t := fun he => ht (he ▸ hnone)
    exact ⟨(container_remove_of_ne he).trans hnone, hwaits⟩
  · refine (h.account k hk).mono (fun hne hnil => hne ?_) subset_rfl (le_refl _)
    show (s.lists.remove t).items k = []
    exact List.eq_nil_of_sublist_nil (hnil ▸ items_remove_sublist)
  · have hf := h.fine x
    show Fine c _ (s.pc x)
    cases hpc : s.pc x with
    | idle ret => trivial
    | inCall call wait phase =>
      rw [hpc] at hf
      exact hf

theorem Inv.step {e : Event Q Tid V} (hgo : step c s e = .ok s') : Inv c s' := by
  cases e with
  | call t call wait =>
    simp only [QueueTasks.step] at hgo
    split at hgo
    · rename_i ret hpc
      split at hgo
      · cases hgo
      rename_i hrun
      split at hgo <;> cases hgo
      rename_i hbad
      exact call_inv h hpc (not_not.mp hrun) hbad
    · cases hgo
  | step t expired =>
    simp only [QueueTasks.step] at hgo
    split at hgo
    · cases hgo
    rename_i call wait phase hpc
    split at hgo
    · rename_i hrun
      exact stepCall_inv h hpc hrun hgo
    · cases hgo
  | timeout t =>
    simp only [QueueTasks.step] at hgo
    split at hgo <;> cases hgo
    rename_i ht
    exact timeout_inv h ht.2
  | sendFromISR q item p =>
    simp only [QueueTasks.step] at hgo
    split at hgo
    · cases hgo
    · exact xQueueGenericSendFromISR_inv h hgo
  | receiveFromISR q => exact xQueueReceiveFromISR_inv h hgo

end

omit dQ dT in
theorem start_inv : Inv c (start : State Q Tid V) where
  linked := ⟨⟨fun t k => by simp [start], fun k => List.nodup_nil⟩, nofun, nofun⟩
  account k _ := .nil
  lock_ge k := by
    obtain ⟨q, side⟩ := k
    cases side <;> exact le_refl _
  owner t := by simp [start, Pc.Suspended]
  fine t := trivial

/-! ## What holds of a queue -/

/-- A task that was taken from an event list of the queue, and is about to look at the queue again. -/
structure OnItsWay (s : State Q Tid V) (q : Q) (side : Side) (t : Tid) : Prop where
  woken : ∃ waker, s.woken t = some (q, waker) ∧ waker.side = side
  ready : s.lists.container t = none
  looks : ∃ call wait phase, s.pc t = .inCall call wait phase ∧ call.queue = q ∧ call.side = side ∧ phase.Returns

variable (c) in
/-- Where a task waits beside an item, or a place, another one is on its way: a send or a peek has taken it from
the list of those that wait to receive, or a receive from the other list. -/
structure NoLostWakeUp (s : State Q Tid V) (q : Q) : Prop where
  receivers : s.lists.items (q, .toReceive) ≠ [] → (s.queue q).items ≠ [] →
    ∃ t, (s.woken t = some (q, .send) ∨ s.woken t = some (q, .peek)) ∧ OnItsWay s q .toReceive t
  senders : s.lists.items (q, .toSend) ≠ [] → (s.queue q).items.length < c.uxLength q →
    ∃ t, s.woken t = some (q, .receive) ∧ OnItsWay s q .toSend t

omit dQ dT in
theorem Inv.onItsWay (h : Inv c s) (side : Side) (hrel : Relevant c (q, side)) (hun : s.lock (q, side) = queueUnlocked)
    (hwait : s.lists.items (q, side) ≠ [])
    (hsome : 0 < match side with
      | .toReceive => (s.queue q).items.length
      | .toSend => c.uxLength q - (s.queue q).items.length) : ∃ t, OnItsWay s q side t := by
  have hpos : 0 < available c s (q, side) := by
    cases side <;> simp only [State.lock, Queue.lock] at hun <;>
      simpa [available, Queue.available, hun, queueUnlocked] using hsome
  have hle := h.account (q, side) hrel hwait
  have hne : (s.wokenOn (q, side)).Nonempty := by
    rw [← Set.one_le_encard_iff_nonempty]
    exact (Nat.one_le_cast.mpr hpos).trans hle
  obtain ⟨t, waker, hw, hside⟩ := hne
  obtain ⟨hnone, hwaits⟩ := h.linked.woken t q waker hw
  refine ⟨t, ⟨waker, hw, hside⟩, hnone, ?_⟩
  cases hpc : s.pc t with
  | idle ret =>
    rw [hpc] at hwaits
    exact hwaits.elim
  | inCall call wait phase =>
    rw [hpc] at hwaits
    obtain ⟨hkey, hret⟩ := hwaits
    obtain ⟨hq, hs⟩ := Prod.mk.inj hkey
    exact ⟨call, wait, phase, rfl, hq, hs.trans hside, hret⟩

/-- **No wake-up is lost.** Whatever tasks call and interrupts do, with whichever time-outs: while a queue that is in no
set is unlocked, a task waits beside an item or a place only if another one is on its way to the queue. -/
theorem queue_no_lost_wakeup (hset : c.pxQueueSetContainer q = none) {es : List (Event Q Tid V)}
    (hrun : run (step c) start es = .ok s) (htx : (s.queue q).cTxLock = queueUnlocked)
    (hrx : (s.queue q).cRxLock = queueUnlocked) : NoLostWakeUp c s q := by
  have h : Inv c s := run_inv (p := fun _ _ => True) (fun _ _ _ h _ hgo => h.step hgo) start_inv
    (Along.of_all (fun _ _ => trivial) _) hrun
  refine ⟨fun hwait hne => ?_, fun hwait hlt => ?_⟩
  · obtain ⟨t, ht⟩ := h.onItsWay .toReceive (fun _ => hset) htx hwait (List.length_pos_of_ne_nil hne)
    obtain ⟨waker, hw, hside⟩ := ht.woken
    refine ⟨t, ?_, ht⟩
    cases waker with
    | send => exact .inl hw
    | peek => exact .inr hw
    | receive => cases hside
  · obtain ⟨t, ht⟩ := h.onItsWay .toSend nofun hrx hwait (Nat.sub_pos_of_lt hlt)
    obtain ⟨waker, hw, hside⟩ := ht.woken
    refine ⟨t, ?_, ht⟩
    cases waker with
    | send | peek => cases hside
    | receive => exact hw

/-- One queue for two items, in no set, and tasks of one priority. -/
def loneQueue : Setup Unit (Fin 4) where
  uxLength _ := 2
  uxItemSize _ := 4
  pxQueueSetContainer _ := none
  configMaxPriorities := 5
  uxPriority _ := 1

/-- A task calls, finds nothing and waits. -/
def waitsFor (t : Fin 4) (call : Call Unit Nat) : List (Event Unit (Fin 4) Nat) :=
  .call t call true :: List.replicate 9 (.step t false)

/-- Three tasks wait, the first one to peek; it is woken by a send, and looks. -/
def peekRun : List (Event Unit (Fin 4) Nat) :=
  waitsFor 0 (.peek ()) ++ waitsFor 1 (.receive ()) ++ waitsFor 2 (.receive ()) ++
    [.call 3 (.send () 7 .sendToBack) false, .step 3 false, .step 0 false]

/-- The third task waits beside the item, and the second one is on its way. -/
theorem queue_no_lost_wakeup_three :
    ∃ s, run (step loneQueue) start peekRun = .ok s ∧ s.lists.items ((), .toReceive) = [2] ∧ NoLostWakeUp loneQueue s () :=
  ⟨_, rfl, rfl, queue_no_lost_wakeup (c := loneQueue) (q := ()) rfl
    (show run (step loneQueue) start peekRun = .ok _ from rfl) rfl rfl⟩

/-- It was the peek that took it from the list: no task that a send has woken is on its way. -/
theorem peek_passes_wakeup :
    ∃ s, run (step loneQueue) start peekRun = .ok s ∧ (s.queue ()).cTxLock = queueUnlocked ∧
      (s.queue ()).cRxLock = queueUnlocked ∧ s.lists.items ((), .toReceive) = [2] ∧ (s.queue ()).items = [.data 7] ∧
      ∀ t, s.woken t ≠ some ((), .send) :=
  ⟨_, rfl, rfl, rfl, rfl, rfl, by decide +kernel⟩

end RtosKernel.FreeRTOS.QueueTasks
