import RtosKernel.RtThread.MessageQueue

/-! # Where the blocks of a message queue are

Every block is on the free list, in the queue, or held by one call. -/
namespace RtosKernel.RtThread.MessageQueue
open Lib.LinkedList Lib.Window Function
open RtThread.Def RtThread.IpcList
open List (mem_cons nodup_append nodup_cons range)

variable {Tid : Type}

/-! ## The two lists -/

/-- The free list and the queue, as the pointers give them. -/
structure Lists (mq : RtMessagequeue Tid) (free linked : List Nat) : Prop where
  freeChain : Chain mq.next mq.msgQueueFree free
  linkedChain : Chain mq.next mq.msgQueueHead linked
  tail : mq.msgQueueTail = linked.getLast?
  nodup : (free ++ linked).Nodup

variable {mq mq' : RtMessagequeue Tid} {free linked : List Nat} {msg : Nat}

theorem Lists.frame (h : Lists mq free linked) (hfree : mq'.msgQueueFree = mq.msgQueueFree)
    (hhead : mq'.msgQueueHead = mq.msgQueueHead) (htail : mq'.msgQueueTail = mq.msgQueueTail)
    (hnext : ∀ b ∈ free ++ linked, mq'.next b = mq.next b) : Lists mq' free linked where
  freeChain := by
    rw [hfree]
    exact h.freeChain.frame fun b hb => hnext b (List.mem_append_left _ hb)
  linkedChain := by
    rw [hhead]
    exact h.linkedChain.frame fun b hb => hnext b (List.mem_append_right _ hb)
  tail := htail.trans h.tail
  nodup := h.nodup

theorem Lists.free_cons (h : Lists mq free linked) (hm : mq.msgQueueFree = some msg) :
    ∃ rest, free = msg :: rest := by
  have hc := h.freeChain
  rw [hm] at hc
  cases free with
  | nil => cases hc
  | cons x rest => cases hc.1; exact ⟨rest, rfl⟩

theorem Lists.moveFree (h : Lists mq (msg :: free) linked) :
    Lists (moveFree mq msg) free linked where
  freeChain := h.freeChain.2
  linkedChain := h.linkedChain
  tail := h.tail
  nodup := (nodup_cons.mp h.nodup).2

theorem Lists.appendMsg (h : Lists mq free linked) (hm : msg ∉ free ++ linked)
    (hnext : mq.next msg = none) : Lists (appendMsg mq msg) free (linked ++ [msg]) := by
  have hnd : (free ++ (linked ++ [msg])).Nodup := by
    rw [← List.append_assoc]
    exact nodup_append.mpr ⟨h.nodup, List.nodup_singleton _, by
      intro a ha b hb; rw [List.mem_singleton.mp hb]; exact fun e => hm (e ▸ ha)⟩
  cases linked with
  | nil =>
    have hhead : mq.msgQueueHead = none := h.linkedChain
    have htail : mq.msgQueueTail = none := h.tail
    refine ⟨?_, ?_, by simp [MessageQueue.appendMsg], hnd⟩
    · simpa only [MessageQueue.appendMsg, htail] using h.freeChain
    · simp [MessageQueue.appendMsg, hhead, htail, hnext]
  | cons x xs =>
    have hhead : mq.msgQueueHead = some x := h.linkedChain.1
    have hlast : mq.msgQueueTail = some ((x :: xs).getLast (by simp)) := by
      rw [h.tail, List.getLast?_eq_some_getLast (List.cons_ne_nil x xs)]
    refine ⟨?_, ?_, by rw [List.getLast?_append]; rfl, hnd⟩
    · simp only [MessageQueue.appendMsg, hlast]
      refine h.freeChain.update fun hf => ?_
      exact (nodup_append.mp h.nodup).2.2 _ hf _ (List.getLast_mem _) rfl
    · simp only [MessageQueue.appendMsg, hlast, hhead]
      have hchain := h.linkedChain
      rw [hhead] at hchain
      exact hchain.append_null (nodup_append.mp h.nodup).2.1
        (fun hx => hm (List.mem_append_right _ hx)) hnext

theorem Lists.pushMsg (h : Lists mq free linked) (hm : msg ∉ free ++ linked) :
    Lists (pushMsg mq msg) free (msg :: linked) := by
  have hnd : (free ++ msg :: linked).Nodup :=
    List.nodup_middle.mpr (nodup_cons.mpr ⟨hm, h.nodup⟩)
  rw [List.mem_append, not_or] at hm
  refine ⟨h.freeChain.update hm.1, chain_cons.mpr ⟨rfl, ?_⟩, ?_, hnd⟩
  · simpa [MessageQueue.pushMsg] using h.linkedChain.update hm.2
  · simp only [MessageQueue.pushMsg, h.tail]
    cases linked with
    | nil => rfl
    | cons x xs => simp [List.getLast?_cons]

theorem Lists.unlinkHead (h : Lists mq free (msg :: linked)) :
    ∃ mq', unlinkHead mq = some (msg, mq') ∧ Lists mq' free linked ∧
      mq'.next = mq.next ∧ mq'.data = mq.data ∧ mq'.msgQueueFree = mq.msgQueueFree ∧
      mq'.maxMsgs = mq.maxMsgs ∧ mq'.msgSize = mq.msgSize ∧ mq'.entry = mq.entry := by
  have hhead : mq.msgQueueHead = some msg := h.linkedChain.1
  have hnd : (msg :: linked).Nodup := (nodup_append.mp h.nodup).2.1
  simp only [MessageQueue.unlinkHead, hhead, bind, Option.bind_some]
  refine ⟨_, rfl, ⟨h.freeChain, h.linkedChain.2, ?_, ?_⟩, rfl, rfl, rfl, rfl, rfl, rfl⟩
  · simp only [h.tail]
    cases linked with
    | nil => simp
    | cons x xs =>
      have hne : (msg :: x :: xs).getLast? ≠ some msg := by
        rw [List.getLast?_cons_cons, List.getLast?_eq_some_getLast (List.cons_ne_nil x xs)]
        exact fun e => (nodup_cons.mp hnd).1 (Option.some.inj e ▸ List.getLast_mem _)
      rw [if_neg hne, List.getLast?_cons_cons]
  · exact h.nodup.sublist ((List.sublist_cons_self msg linked).append_left free)

theorem Lists.giveBack (h : Lists mq free linked) (hm : msg ∉ free ++ linked) :
    Lists (giveBack mq msg) (msg :: free) linked := by
  have hnd : (msg :: free ++ linked).Nodup := nodup_cons.mpr ⟨hm, h.nodup⟩
  rw [List.mem_append, not_or] at hm
  refine ⟨chain_cons.mpr ⟨rfl, ?_⟩, h.linkedChain.update hm.2, h.tail, hnd⟩
  simpa [MessageQueue.giveBack] using h.freeChain.update hm.1

theorem Lists.releaseAll : ∀ {linked free : List Nat} {mq : RtMessagequeue Tid} {fuel : Nat},
    Lists mq free linked → linked.length < fuel →
    ∃ mq', releaseAll fuel mq = some mq' ∧ Lists mq' (linked.reverse ++ free) [] ∧
      (∀ b, b ∉ linked → mq'.next b = mq.next b) ∧ mq'.data = mq.data ∧
      mq'.maxMsgs = mq.maxMsgs ∧ mq'.msgSize = mq.msgSize
  | [], free, mq, fuel + 1, h, _ => by
    have hhead : mq.msgQueueHead = none := h.linkedChain
    exact ⟨mq, by simp [MessageQueue.releaseAll, hhead], h, fun _ _ => rfl, rfl, rfl, rfl⟩
  | x :: xs, free, mq, fuel + 1, h, hf => by
    have hhead : mq.msgQueueHead ≠ none := by rw [h.linkedChain.1]; exact Option.some_ne_none x
    obtain ⟨mq1, hu, h1, hnext, hdata, _, hmax, hsize, _⟩ := h.unlinkHead
    have hx : x ∉ free ++ xs := by
      have := List.nodup_middle.mp h.nodup
      exact (nodup_cons.mp this).1
    have hlt : xs.length < fuel := by rw [List.length_cons] at hf; omega
    obtain ⟨mq2, hr, h2, hnext2, hdata2, hmax2, hsize2⟩ := (h1.giveBack hx).releaseAll hlt
    refine ⟨mq2, ?_, ?_, ?_, hdata2.trans hdata, hmax2.trans hmax, hsize2.trans hsize⟩
    · simp only [MessageQueue.releaseAll, if_neg hhead, hu, bind, Option.bind_some]
      exact hr
    · rw [List.reverse_cons, List.append_assoc, List.singleton_append]
      exact h2
    · intro b hb
      rw [mem_cons, not_or] at hb
      rw [hnext2 b hb.2]
      simp only [MessageQueue.giveBack, update_of_ne hb.1, hnext]

/-! ## Who has which block -/

/-- The listed blocks and those held by calls make up the pool, each once. -/
structure Shares (maxMsgs : Nat) (held : Tid → Option Nat) (listed : List Nat) : Prop where
  cover : ∀ b, b < maxMsgs ↔ b ∈ listed ∨ ∃ t, held t = some b
  apart : ∀ {t b}, held t = some b → b ∉ listed
  unique : ∀ {t t' b}, held t = some b → held t' = some b → t = t'

variable {maxMsgs : Nat} {held : Tid → Option Nat} {listed listed' : List Nat} {t : Tid}

theorem Shares.perm (h : Shares maxMsgs held listed) (hp : listed.Perm listed') :
    Shares maxMsgs held listed' where
  cover b := by rw [h.cover b, hp.mem_iff]
  apart ht hb := h.apart ht (hp.mem_iff.mpr hb)
  unique := h.unique

theorem Shares.length_lt (h : Shares maxMsgs held listed) (ht : held t = some msg)
    (hnd : listed.Nodup) : listed.length < maxMsgs := by
  have hcons : (msg :: listed).Nodup := nodup_cons.mpr ⟨h.apart ht, hnd⟩
  have hsub : msg :: listed ⊆ range maxMsgs := by
    intro b hb
    rw [List.mem_range, h.cover b]
    rcases mem_cons.mp hb with rfl | hb
    · exact .inr ⟨t, ht⟩
    · exact .inl hb
  have := (List.Nodup.subperm hcons hsub).length_le
  rwa [List.length_range, List.length_cons] at this

variable [DecidableEq Tid]

theorem Shares.acquire (h : Shares maxMsgs held (msg :: listed)) (ht : held t = none)
    (hnd : msg ∉ listed) : Shares maxMsgs (update held t (some msg)) listed where
  cover b := by
    rw [h.cover b, mem_cons]
    constructor
    · rintro ((rfl | hb) | ⟨t', ht'⟩)
      · exact .inr ⟨t, update_self ..⟩
      · exact .inl hb
      · have hne : t' ≠ t := by rintro rfl; rw [ht] at ht'; cases ht'
        exact .inr ⟨t', by rwa [update_of_ne hne]⟩
    · rintro (hb | ⟨t', ht'⟩)
      · exact .inl (.inr hb)
      · by_cases hne : t' = t
        · subst hne
          rw [update_self] at ht'
          cases ht'
          exact .inl (.inl rfl)
        · rw [update_of_ne hne] at ht'
          exact .inr ⟨t', ht'⟩
  apart {t' b} ht' := by
    by_cases hne : t' = t
    · subst hne
      rw [update_self] at ht'
      cases ht'
      exact hnd
    · rw [update_of_ne hne] at ht'
      exact fun hb => h.apart ht' (List.mem_cons_of_mem _ hb)
  unique {t1 t2 b} h1 h2 := by
    -- another thread cannot hold the block, since it was listed
    have hother : ∀ t', t' ≠ t → update held t (some msg) t' ≠ some msg := by
      intro t' hne he
      rw [update_of_ne hne] at he
      exact h.apart he (List.mem_cons_self ..)
    by_cases e1 : t1 = t <;> by_cases e2 : t2 = t
    · rw [e1, e2]
    · subst e1
      rw [update_self] at h1
      cases h1
      exact absurd h2 (hother t2 e2)
    · subst e2
      rw [update_self] at h2
      cases h2
      exact absurd h1 (hother t1 e1)
    · rw [update_of_ne e1] at h1
      rw [update_of_ne e2] at h2
      exact h.unique h1 h2

theorem Shares.release (h : Shares maxMsgs held listed) (ht : held t = some msg) :
    Shares maxMsgs (update held t none) (msg :: listed) where
  cover b := by
    rw [h.cover b, mem_cons]
    constructor
    · rintro (hb | ⟨t', ht'⟩)
      · exact .inl (.inr hb)
      · by_cases hne : t' = t
        · subst hne
          rw [ht] at ht'
          cases ht'
          exact .inl (.inl rfl)
        · exact .inr ⟨t', by rwa [update_of_ne hne]⟩
    · rintro ((rfl | hb) | ⟨t', ht'⟩)
      · exact .inr ⟨t, ht⟩
      · exact .inl hb
      · by_cases hne : t' = t
        · subst hne
          rw [update_self] at ht'
          cases ht'
        · rw [update_of_ne hne] at ht'
          exact .inr ⟨t', ht'⟩
  apart {t' b} ht' := by
    have hne : t' ≠ t := by rintro rfl; rw [update_self] at ht'; cases ht'
    rw [update_of_ne hne] at ht'
    rw [mem_cons, not_or]
    exact ⟨fun e => hne (h.unique ht' (e ▸ ht)), h.apart ht'⟩
  unique {t1 t2 b} h1 h2 := by
    have e1 : t1 ≠ t := by rintro rfl; rw [update_self] at h1; cases h1
    have e2 : t2 ≠ t := by rintro rfl; rw [update_self] at h2; cases h2
    rw [update_of_ne e1] at h1
    rw [update_of_ne e2] at h2
    exact h.unique h1 h2

/-- The bytes of a message are in its block. -/
def Holds (mq : RtMessagequeue Tid) (m : Message) : Prop :=
  m.buffer.length ≤ mq.msgSize ∧ (range m.buffer.length).map (mq.data m.msg) = m.buffer

/-- What a call relies on between two sections. -/
def Pc.Sound (mq : RtMessagequeue Tid) : Pc → Prop
  | .sendEnter buffer _ | .sendWait buffer _ _ | .sendFill buffer _ => buffer.length ≤ mq.msgSize
  | .sendLink buffer msg => mq.next msg = none ∧ Holds mq ⟨msg, buffer⟩
  | .urgentEnter buffer | .urgentFill buffer _ => buffer.length ≤ mq.msgSize
  | .urgentLink buffer msg => Holds mq ⟨msg, buffer⟩
  | _ => True

/-- The queue and the calls on it, with the messages in the queue and the blocks
on the free list. -/
structure Inv (mq : RtMessagequeue Tid) (pc : Tid → Pc) (queue : List Message)
    (free : List Nat) : Prop where
  bound : mq.maxMsgs < 2 ^ 16
  lists : Lists mq free (queue.map Message.msg)
  shares : Shares mq.maxMsgs (fun t => (pc t).held) (free ++ queue.map Message.msg)
  entry : mq.entry = queue.length
  stored : ∀ m ∈ queue, Holds mq m
  sound : ∀ t, (pc t).Sound mq

end RtosKernel.RtThread.MessageQueue
