import RtosKernel.RtThread.Scheduler

/-! # The ready lists

The bitmap tells which ready lists have a thread, whether it has one level or two,
so `rt_schedule` finds the first of the most urgent threads. Every function keeps
the threads in the lists where they belong. -/
namespace RtosKernel.RtThread.Scheduler
open Lib.Bits Lib.Containers RtThread.Def RtThread.IpcList Function Option

variable {Tid Mid : Type} [dT : DecidableEq Tid] [dM : DecidableEq Mid]

/-! ## What the bitmap says -/

theorem getLsbD_byte {q : Nat} : (0xff#32).getLsbD q = decide (q < 8) := by
  rw [BitVec.getLsbD_ofNat, Nat.testBit_two_pow_sub_one 8 q]
  by_cases hq : q < 8 <;> simp [hq]
  omega

theorem getLsbD_byteAt (value : BitVec 32) {shift q : Nat} (hs : shift ≤ 24) :
    (byteAt value shift).getLsbD q = (decide (q < 8) && value.getLsbD (shift + q)) := by
  rw [byteAt, BitVec.getLsbD_ushiftRight, BitVec.getLsbD_and, BitVec.getLsbD_shiftLeft,
    Nat.add_sub_cancel_left, getLsbD_byte, Bool.and_comm]
  by_cases hq : q < 8
  · have h32 : shift + q < 32 := by omega
    simp [hq, h32]
  · simp [hq]

theorem lowestBitBitmap_spec : ∀ b < 256, b ≠ 0 → lowestBitBitmap.getD b 0 < 8 ∧
    b.testBit (lowestBitBitmap.getD b 0) = true ∧ ∀ q < lowestBitBitmap.getD b 0, b.testBit q = false := by
  have h : ∀ x ∈ lowestBitBitmap.zipIdx, x.2 ≠ 0 →
      x.1 < 8 ∧ x.2.testBit x.1 = true ∧ ∀ q < x.1, x.2.testBit q = false := by decide +kernel
  rw [show 256 = lowestBitBitmap.length by decide +kernel]
  intro b hb hne
  rw [List.getD_eq_getElem _ 0 hb]
  exact h (_, b) (List.mk_mem_zipIdx_iff_getElem?.mpr (List.getElem?_eq_getElem hb)) hne

/-- The lowest bit of a word that is set. -/
def IsLowest {w : Nat} (value : BitVec w) (p : Nat) : Prop :=
  value.getLsbD p = true ∧ ∀ q < p, value.getLsbD q = false

theorem byteAt_lowest {value : BitVec 32} {shift : Nat} (hs : shift ≤ 24) (hb : byteAt value shift ≠ 0#32)
    (hlow : ∀ q < shift, value.getLsbD q = false) :
    IsLowest value (lowestBitBitmap.getD (byteAt value shift).toNat 0 + shift) := by
  set b := (byteAt value shift).toNat with hbdef
  have hbit (q : Nat) : b.testBit q = (decide (q < 8) && value.getLsbD (shift + q)) := by
    rw [hbdef, ← getLsbD_byteAt value hs]
    rfl
  have hlt : b < 2 ^ 8 := by
    refine Nat.lt_pow_two_of_testBit b fun q hq => ?_
    rw [hbit]
    simp [Nat.not_lt.mpr hq]
  have hne : b ≠ 0 := fun hz => hb (BitVec.eq_of_toNat_eq hz)
  obtain ⟨h8, hset, hclear⟩ := lowestBitBitmap_spec b hlt hne
  rw [hbit, Bool.and_eq_true] at hset
  refine ⟨by rw [Nat.add_comm]; exact hset.2, fun q hq => ?_⟩
  by_cases hqs : q < shift
  · exact hlow q hqs
  · have hq' := hclear (q - shift) (by omega)
    rw [hbit, Nat.add_sub_cancel' (Nat.le_of_not_lt hqs)] at hq'
    simpa [show q - shift < 8 by omega] using hq'

theorem byteAt_zero {value : BitVec 32} {shift : Nat} (hs : shift ≤ 24) (hb : byteAt value shift = 0#32)
    (hlow : ∀ q < shift, value.getLsbD q = false) : ∀ q < shift + 8, value.getLsbD q = false := by
  intro q hq
  by_cases hqs : q < shift
  · exact hlow q hqs
  · have hbit := getLsbD_byteAt value (q := q - shift) hs
    rw [hb, Nat.add_sub_cancel' (Nat.le_of_not_lt hqs)] at hbit
    simpa [show q - shift < 8 by omega] using hbit.symm

theorem rtFfs_spec {value : BitVec 32} (hne : value ≠ 0#32) : 0 < rtFfs value ∧ IsLowest value (rtFfs value - 1) := by
  have h0 : ∀ q < 0, value.getLsbD q = false := fun q hq => absurd hq (Nat.not_lt_zero q)
  unfold rtFfs
  rw [if_neg hne]
  split
  · exact ⟨Nat.succ_pos _, byteAt_lowest (by decide) ‹_› h0⟩
  have h8 := byteAt_zero (by decide) (not_not.mp ‹_›) h0
  split
  · exact ⟨Nat.succ_pos _, byteAt_lowest (by decide) ‹_› h8⟩
  have h16 := byteAt_zero (by decide) (not_not.mp ‹_›) h8
  split
  · exact ⟨Nat.succ_pos _, byteAt_lowest (by decide) ‹_› h16⟩
  have h24 := byteAt_zero (by decide) (not_not.mp ‹_›) h16
  refine ⟨Nat.succ_pos _, byteAt_lowest (by decide) (fun hz => hne ?_) h24⟩
  refine BitVec.eq_of_getLsbD_eq fun q hq => ?_
  rw [byteAt_zero (by decide) hz h24 q hq]
  simp

section ReadyMap
variable {c : Board} {m : ReadyMap} {v : Thread} {lists lists' : Nat → List Tid}

/-- The bitmap tells which lists have a thread. -/
structure ReadyMap.Records (c : Board) (m : ReadyMap) (lists : Nat → List Tid) : Prop where
  low : c.twoLevel = false → Recorded m.group lists
  high : c.twoLevel = true → ∀ n < 32, Recorded (m.table n) fun b => lists (8 * n + b)
  group : c.twoLevel = true → ∀ n < 32, m.group.getLsbD n = true ↔ m.table n ≠ 0#8

/-- The priority attributes of a thread are those of its priority. -/
structure Thread.Attr (c : Board) (v : Thread) : Prop where
  low : c.twoLevel = false → v.numberMask = 1#32 <<< v.currentPriority
  high : c.twoLevel = true → v.number = v.currentPriority / 8 ∧ v.numberMask = 1#32 <<< (v.currentPriority / 8) ∧
    v.highMask = 1#8 <<< (v.currentPriority % 8)

theorem Thread.setPriority_attr (c : Board) (v : Thread) (priority : Nat) : (v.setPriority c priority).Attr c := by
  unfold Thread.setPriority
  by_cases h2 : c.twoLevel = true
  · rw [if_pos h2]
    exact ⟨fun h => absurd (h2.symm.trans h) Bool.noConfusion, fun _ => ⟨rfl, rfl, rfl⟩⟩
  · rw [if_neg h2]
    exact ⟨fun _ => rfl, fun h => absurd h h2⟩

@[simp] theorem Thread.setPriority_currentPriority (c : Board) (v : Thread) (priority : Nat) :
    (v.setPriority c priority).currentPriority = priority := by
  unfold Thread.setPriority
  split <;> rfl

@[simp] theorem Thread.setPriority_stat (c : Board) (v : Thread) (priority : Nat) :
    (v.setPriority c priority).stat = v.stat := by
  unfold Thread.setPriority
  split <;> rfl

theorem Board.le_span (c : Board) {p : Nat} (hp : p < c.priorityMax) :
    (c.twoLevel = false → p < 32) ∧ p / 8 < 32 := by
  have hmax := c.priorityMax_le
  refine ⟨fun h => ?_, by omega⟩
  have hle : ¬ 32 < c.priorityMax := of_decide_eq_false h
  omega

section
variable (h : m.Records c lists)
include h
omit dT

theorem ReadyMap.Records.congr (hl : ∀ q, lists' q ≠ [] ↔ lists q ≠ []) : m.Records c lists' :=
  ⟨fun h2 => (h.low h2).congr hl, fun h2 n hn => (h.high h2 n hn).congr fun _ => hl _, h.group⟩

theorem ReadyMap.Records.set (hv : v.Attr c) (hp : v.currentPriority < c.priorityMax)
    (hl : lists' v.currentPriority ≠ [])
    (hother : ∀ q, q ≠ v.currentPriority → (lists' q ≠ [] ↔ lists q ≠ [])) : (m.set c v).Records c lists' := by
  have hspan := (c.le_span hp).2
  by_cases h2 : c.twoLevel = true
  · obtain ⟨hnumber, hmask, hhigh⟩ := hv.high h2
    have htable : (m.set c v).table = Function.update m.table (v.currentPriority / 8)
        (m.table (v.currentPriority / 8) ||| (1#8 <<< (v.currentPriority % 8))) := by
      rw [ReadyMap.set, if_pos h2, hnumber, hhigh]
    have hrow : Recorded ((m.set c v).table (v.currentPriority / 8))
        fun b => lists' (8 * (v.currentPriority / 8) + b) := by
      rw [htable, update_self]
      refine (h.high h2 _ hspan).set (p := v.currentPriority % 8) ?_ fun q hq => hother _ (by omega)
      rwa [Nat.div_add_mod]
    have hrest (n : Nat) (hn : n ≠ v.currentPriority / 8) : (m.set c v).table n = m.table n := by
      rw [htable, update_of_ne hn]
    refine ⟨fun hno => absurd (h2.symm.trans hno) Bool.noConfusion, fun _ n hn => ?_, fun _ n hn => ?_⟩
    · by_cases hnv : n = v.currentPriority / 8
      · rw [hnv]
        exact hrow
      · rw [hrest n hnv]
        intro b hb
        exact (h.high h2 n hn b hb).trans (hother _ (by omega)).symm
    · change (m.group ||| v.numberMask).getLsbD n = true ↔ _
      rw [hmask, getLsbD_set m.group hn]
      by_cases hnv : n = v.currentPriority / 8
      · have hne : (m.set c v).table n ≠ 0#8 := by
          rw [hnv]
          refine hrow.ne_zero (p := v.currentPriority % 8) (Nat.mod_lt _ (by decide)) ?_
          rwa [Nat.div_add_mod]
        simp [hnv, hnv ▸ hne]
      · rw [hrest n hnv, ← h.group h2 n hn]
        simp [hnv]
  · refine ⟨fun hno => ?_, fun hyes => absurd hyes h2, fun hyes => absurd hyes h2⟩
    change Recorded (m.group ||| v.numberMask) lists'
    rw [hv.low hno]
    exact (h.low hno).set hl hother

theorem ReadyMap.Records.clear (hv : v.Attr c) (hp : v.currentPriority < c.priorityMax)
    (hl : lists' v.currentPriority = [])
    (hother : ∀ q, q ≠ v.currentPriority → (lists' q ≠ [] ↔ lists q ≠ [])) : (m.clear c v).Records c lists' := by
  have hspan := (c.le_span hp).2
  by_cases h2 : c.twoLevel = true
  · obtain ⟨hnumber, hmask, hhigh⟩ := hv.high h2
    set entry := m.table (v.currentPriority / 8) &&& ~~~(1#8 <<< (v.currentPriority % 8)) with hentry
    have hclear : m.clear c v = {
        table := Function.update m.table (v.currentPriority / 8) entry
        group := if entry = 0#8 then m.group &&& ~~~(1#32 <<< (v.currentPriority / 8)) else m.group } := by
      rw [ReadyMap.clear, if_pos h2, hnumber, hhigh, hmask]
    have hrow : Recorded entry fun b => lists' (8 * (v.currentPriority / 8) + b) := by
      refine (h.high h2 _ hspan).clear (p := v.currentPriority % 8) ?_ fun q hq => hother _ (by omega)
      rwa [Nat.div_add_mod]
    rw [hclear]
    refine ⟨fun hno => absurd (h2.symm.trans hno) Bool.noConfusion, fun _ n hn => ?_, fun _ n hn => ?_⟩
    · by_cases hnv : n = v.currentPriority / 8
      · subst hnv
        simp only [update_self]
        exact hrow
      · simp only [update_of_ne hnv]
        intro b hb
        exact (h.high h2 n hn b hb).trans (hother _ (by omega)).symm
    · by_cases hnv : n = v.currentPriority / 8
      · subst hnv
        simp only [update_self]
        split
        · rename_i hz
          simp [hz]
        · rename_i hz
          refine iff_of_true ((h.group h2 _ hn).mpr fun hzero => hz ?_) hz
          rw [hentry, hzero, BitVec.zero_and]
      · simp only [update_of_ne hnv]
        rw [← h.group h2 n hn]
        split
        · rw [getLsbD_clear m.group hn]
          simp [hnv]
        · rfl
  · refine ⟨fun hno => ?_, fun hyes => absurd hyes h2, fun hyes => absurd hyes h2⟩
    rw [ReadyMap.clear, if_neg h2]
    rw [hv.low hno]
    exact (h.low hno).clear hl hother

theorem ReadyMap.Records.marked (h2 : c.twoLevel = true) {p : Nat} (hp : p / 8 < 32) :
    ((m.table (p / 8)).getLsbD (p % 8) = true ↔ lists p ≠ []) ∧
      (lists p ≠ [] → m.group.getLsbD (p / 8) = true) := by
  have hbit : (m.table (p / 8)).getLsbD (p % 8) = true ↔ lists p ≠ [] := by
    have hrow := h.high h2 (p / 8) hp (p % 8) (Nat.mod_lt _ (by decide))
    simp only [Nat.div_add_mod] at hrow
    exact hrow
  refine ⟨hbit, fun hne => (h.group h2 _ hp).mpr fun hz => ?_⟩
  have hset := hbit.mpr hne
  rw [hz] at hset
  simp at hset

theorem ReadyMap.Records.empty (hz : m.group = 0#32) {p : Nat} (hp : p < c.priorityMax) : lists p = [] := by
  by_contra hne
  by_cases h2 : c.twoLevel = true
  · have hbit := (h.marked h2 (c.le_span hp).2).2 hne
    rw [hz] at hbit
    simp at hbit
  · have hno : c.twoLevel = false := Bool.eq_false_iff.mpr h2
    exact (h.low hno).ne_zero ((c.le_span hp).1 hno) hne hz

theorem ReadyMap.Records.highest_twoLevel (hne : m.group ≠ 0#32) (h2 : c.twoLevel = true) :
    lists (m.highest c) ≠ [] ∧ ∀ q < m.highest c, lists q = [] := by
  obtain ⟨_, hset, hclear⟩ := rtFfs_spec hne
  set n := rtFfs m.group - 1 with hn
  have hlt : n < 32 := BitVec.lt_of_getLsbD hset
  have hwide : (m.table n).setWidth 32 ≠ 0#32 := by
    intro hz
    refine (h.group h2 n hlt).mp hset (BitVec.eq_of_toNat_eq ?_)
    have hnat := congrArg BitVec.toNat hz
    simp only [BitVec.toNat_setWidth, BitVec.toNat_ofNat] at hnat ⊢
    omega
  have hbit (q : Nat) (hq : q < 32) : ((m.table n).setWidth 32).getLsbD q = (m.table n).getLsbD q := by
    simp [hq]
  obtain ⟨hpos, hbset, hbclear⟩ := rtFfs_spec hwide
  set b := rtFfs ((m.table n).setWidth 32) - 1 with hb
  rw [hbit b (BitVec.lt_of_getLsbD hbset)] at hbset
  have hb8 : b < 8 := BitVec.lt_of_getLsbD hbset
  have hhigh : m.highest c = 8 * n + b := by
    rw [ReadyMap.highest]
    simp only [if_pos h2, ← hn]
    omega
  rw [hhigh]
  refine ⟨(h.high h2 n hlt b hb8).mp hbset, fun q hq => ?_⟩
  by_contra hq'
  obtain ⟨hmark, hrow⟩ := h.marked h2 (show q / 8 < 32 by omega)
  by_cases hsame : q / 8 = n
  · have hbelow := hbclear (q % 8) (by omega)
    rw [hbit _ (by omega), ← hsame, hmark.mpr hq'] at hbelow
    cases hbelow
  · have hbelow := hclear (q / 8) (by omega)
    rw [hrow hq'] at hbelow
    cases hbelow

theorem ReadyMap.Records.highest (hne : m.group ≠ 0#32) :
    lists (m.highest c) ≠ [] ∧ ∀ q < m.highest c, lists q = [] := by
  by_cases h2 : c.twoLevel = true
  · exact h.highest_twoLevel hne h2
  obtain ⟨_, hset, hclear⟩ := rtFfs_spec hne
  have hlt : rtFfs m.group - 1 < 32 := BitVec.lt_of_getLsbD hset
  have hno : c.twoLevel = false := Bool.eq_false_iff.mpr h2
  have hhigh : m.highest c = rtFfs m.group - 1 := by
    rw [ReadyMap.highest]
    simp only [if_neg h2]
  rw [hhigh]
  refine ⟨(h.low hno _ hlt).mp hset, fun q hq => ?_⟩
  by_contra hq'
  have hmark := (h.low hno q (by omega)).mpr hq'
  rw [hclear q hq] at hmark
  cases hmark

end

end ReadyMap

/-! ## Threads and lists -/

section Fields
variable {c : Board} {k : Kernel Tid Mid} {t x : Tid} {v : Thread} {stat : ThreadStat}

section
omit dM

theorem thread_setThread : (k.setThread t v).thread x = if x = t then v else k.thread x := update_apply ..

@[simp] theorem thread_setThread_self : (k.setThread t v).thread t = v := update_self ..

theorem thread_setThread_of_ne (hx : x ≠ t) : (k.setThread t v).thread x = k.thread x :=
  update_of_ne hx _ _

@[simp] theorem stat_setStat : ((k.setStat t stat).thread t).stat = stat := by
  rw [Kernel.setStat, thread_setThread_self]

theorem thread_setStat_of_ne (hx : x ≠ t) : (k.setStat t stat).thread x = k.thread x := thread_setThread_of_ne hx

end

@[simp] theorem thread_remove : (rtScheduleRemoveThread c k t).thread = k.thread := by
  unfold rtScheduleRemoveThread; simp only; split <;> rfl

@[simp] theorem mutex_remove : (rtScheduleRemoveThread c k t).mutex = k.mutex := by
  unfold rtScheduleRemoveThread; simp only; split <;> rfl

@[simp] theorem lists_remove : (rtScheduleRemoveThread c k t).lists = k.lists.remove t := by
  unfold rtScheduleRemoveThread; simp only; split <;> rfl

theorem container_removed : (rtScheduleRemoveThread c k t).lists.container t = none := by
  rw [lists_remove, container_remove_self]

@[simp] theorem currentThread_remove : (rtScheduleRemoveThread c k t).currentThread = k.currentThread := by
  unfold rtScheduleRemoveThread; simp only; split <;> rfl

theorem insert_current (h : k.currentThread = some t) : rtScheduleInsertThread c k t = k.setStat t .running :=
  if_pos h

theorem insert_ready (h : k.currentThread ≠ some t) :
    rtScheduleInsertThread c k t = { k.setStat t .ready with
      lists := k.lists.pushBack (.ready (k.thread t).currentPriority) t
      map := k.map.set c (k.thread t) } := by
  rw [rtScheduleInsertThread, if_neg h]
  simp only [Kernel.setStat, thread_setThread_self]
  rfl

end Fields

/-- A priority that there is a list for, with its attributes once the thread has been
started. -/
structure Thread.Ranked (c : Board) (v : Thread) : Prop where
  lt : v.currentPriority < c.priorityMax
  attr : v.stat ≠ .init → v.Attr c

structure Queues (c : Board) (k : Kernel Tid Mid) : Prop where
  ok : k.lists.Ok
  records : k.map.Records c k.ready
  own : ∀ t p, k.lists.container t = some (.ready p) → p = (k.thread t).currentPriority
  ranked : ∀ t, (k.thread t).Ranked c

section Queues
variable {c : Board} {k k' : Kernel Tid Mid} {t x : Tid} {v : Thread} {p : Nat} {m : Mid}

section
variable (h : Queues c k)
include h

omit dT dM in
theorem Queues.congr (hl : k'.lists = k.lists) (hm : k'.map = k.map) (ht : k'.thread = k.thread) : Queues c k' := by
  have hr : k'.ready = k.ready := by funext p; rw [Kernel.ready, Kernel.ready, hl]
  exact ⟨hl ▸ h.ok, hm ▸ hr ▸ h.records, hl ▸ ht ▸ h.own, ht ▸ h.ranked⟩

omit dM in
theorem Queues.setThread (hv : v.Ranked c)
    (hp : v.currentPriority = (k.thread t).currentPriority ∨ ∀ p, k.lists.container t ≠ some (.ready p)) :
    Queues c (k.setThread t v) := by
  refine ⟨h.ok, h.records, fun x p hx => ?_, fun x => ?_⟩
  · by_cases hxt : x = t
    · subst hxt
      rw [thread_setThread_self]
      rcases hp with hp | hno
      · rw [hp]
        exact h.own x p hx
      · exact absurd hx (hno p)
    · rw [thread_setThread_of_ne hxt]
      exact h.own x p hx
  · by_cases hxt : x = t
    · subst hxt
      rw [thread_setThread_self]
      exact hv
    · rw [thread_setThread_of_ne hxt]
      exact h.ranked x

theorem Queues.unlink (ht : ∀ p, k.lists.container t ≠ some (.ready p)) :
    Queues c { k with lists := k.lists.remove t } := by
  refine ⟨h.ok.remove t, h.records.congr fun q => ?_, fun x p hx => ?_, h.ranked⟩
  · change (k.lists.remove t).items (.ready q) ≠ [] ↔ _
    rw [items_remove_of_ne (ht q)]
    rfl
  · by_cases hxt : x = t
    · subst hxt
      rw [container_remove_self] at hx
      cases hx
    · refine h.own x p ?_
      rwa [container_remove_of_ne hxt] at hx

theorem Queues.remove (ht : (k.thread t).stat ≠ .init) : Queues c (rtScheduleRemoveThread c k t) := by
  set p := (k.thread t).currentPriority with hp
  have hother : ∀ q, q ≠ p → ((k.lists.remove t).items (.ready q) ≠ [] ↔ k.ready q ≠ []) := by
    intro q hq
    rw [items_remove_of_ne fun hc => hq (h.own t q hc)]
    rfl
  have hrec : (rtScheduleRemoveThread c k t).map.Records c fun q => (k.lists.remove t).items (.ready q) := by
    unfold rtScheduleRemoveThread
    simp only [Kernel.ready, ← hp]
    split
    · rename_i hnil
      exact h.records.clear ((h.ranked t).attr ht) (h.ranked t).lt hnil hother
    · rename_i hne
      refine h.records.congr fun q => ?_
      by_cases hq : q = p
      · rw [hq]
        refine iff_of_true hne fun hnil => hne ?_
        have hsub := items_remove_sublist (s := k.lists) (t := t) (k := .ready p)
        rw [show k.lists.items (.ready p) = [] from hnil] at hsub
        exact List.sublist_nil.mp hsub
      · exact hother q hq
  refine ⟨by rw [lists_remove]; exact h.ok.remove t, ?_, fun x q hx => ?_, by rw [thread_remove]; exact h.ranked⟩
  · have hready : (rtScheduleRemoveThread c k t).ready = fun q => (k.lists.remove t).items (.ready q) := by
      funext q
      rw [Kernel.ready, lists_remove]
    rw [hready]
    exact hrec
  · rw [lists_remove] at hx
    rw [thread_remove]
    by_cases hxt : x = t
    · subst hxt
      rw [container_remove_self] at hx
      cases hx
    · rw [container_remove_of_ne hxt] at hx
      exact h.own x q hx

theorem Queues.insert (hnone : k.lists.container t = none) (ht : (k.thread t).stat ≠ .init)
    (hcur : k.currentThread ≠ some t) : Queues c (rtScheduleInsertThread c k t) := by
  have hset : Queues c (k.setStat t .ready) :=
    h.setThread ⟨(h.ranked t).lt, fun _ => ⟨((h.ranked t).attr ht).low, ((h.ranked t).attr ht).high⟩⟩ (.inl rfl)
  set p := (k.thread t).currentPriority with hp
  rw [insert_ready hcur]
  refine ⟨h.ok.pushBack hnone, ?_, fun x q hx => ?_, hset.ranked⟩
  · refine h.records.set ((h.ranked t).attr ht) (h.ranked t).lt ?_ fun q hq => ?_
    · change (k.lists.pushBack (.ready p) t).items (.ready p) ≠ []
      rw [Lists.pushBack, items_put_self]
      simp
    · change (k.lists.pushBack (.ready p) t).items (.ready q) ≠ [] ↔ _
      rw [Lists.pushBack, items_put_of_ne _ (by simpa using hq)]
      rfl
  · by_cases hxt : x = t
    · subst hxt
      rw [Lists.pushBack, container_put_self, some.injEq, ThreadList.ready.injEq] at hx
      rw [Kernel.setStat, thread_setThread_self, ← hx]
    · rw [Lists.pushBack, container_put_of_ne _ hxt] at hx
      exact hset.own x q hx

theorem Queues.wait (hnone : k.lists.container t = none) {l : List Tid}
    (hl : l.Perm (t :: k.suspendThread m)) : Queues c { k with lists := k.lists.put (.mutex m) t l } := by
  refine ⟨h.ok.put hnone hl, h.records.congr fun q => ?_, fun x q hx => ?_, h.ranked⟩
  · rfl
  · by_cases hxt : x = t
    · subst hxt
      rw [container_put_self] at hx
      cases hx
    · rw [container_put_of_ne _ hxt] at hx
      exact h.own x q hx

end

end Queues

/-! ## States and lists -/

/-- The list and the state of a thread agree. -/
structure Placed (k : Kernel Tid Mid) (t : Tid) : Prop where
  ready : (k.thread t).stat = .ready ↔ ∃ p, k.lists.container t = some (.ready p)
  waits : ∀ m, k.lists.container t = some (.mutex m) → (k.thread t).stat = .suspend
  running : (k.thread t).stat = .running → k.currentThread = some t
  current : k.currentThread = some t → (k.thread t).stat ≠ .ready ∧ (k.thread t).stat ≠ .init

/-- A mutex that is owned knows a priority that there is a list for. -/
structure RtMutex.Ok (c : Board) (v : RtMutex Tid) : Prop where
  original : ∀ t, v.owner = some t → v.originalPriority < c.priorityMax
  hold_lt : v.hold < 256

/-- **What holds between the calls.** -/
structure Inv (c : Board) (k : Kernel Tid Mid) : Prop extends Queues c k where
  placed : ∀ t, Placed k t
  mutexes : ∀ m, (k.mutex m).Ok c

/-- The thread that runs is at least as urgent as every `READY` thread. -/
def Preempts (k : Kernel Tid Mid) : Prop :=
  ∀ current t, k.currentThread = some current → (k.thread t).stat = .ready →
    (k.thread current).currentPriority ≤ (k.thread t).currentPriority

section Inv
variable {c : Board} {k k' : Kernel Tid Mid} {t x a b : Tid} {v : Thread} {p : Nat} {m : Mid}

omit dT dM in
theorem Placed.congr (h : Placed k x) (ht : k'.thread x = k.thread x)
    (hl : k'.lists.container x = k.lists.container x) (hc : k'.currentThread = some x ↔ k.currentThread = some x) :
    Placed k' x := by
  refine ⟨by rw [ht, hl]; exact h.ready, by rw [ht, hl]; exact h.waits, ?_, ?_⟩
  · rw [ht, hc]
    exact h.running
  · rw [ht, hc]
    exact h.current

theorem Placed.remove (h : Placed k x) (hx : x ≠ t) (v : Thread) :
    Placed ((rtScheduleRemoveThread c k t).setThread t v) x := by
  refine h.congr ?_ ?_ ?_
  · rw [thread_setThread_of_ne hx, thread_remove]
  · change (rtScheduleRemoveThread c k t).lists.container x = _
    rw [lists_remove, container_remove_of_ne hx]
  · change (rtScheduleRemoveThread c k t).currentThread = _ ↔ _
    rw [currentThread_remove]

section
omit dT dM

theorem Placed.none_of_running (h : Placed k t) (hrun : (k.thread t).stat = .running) :
    k.lists.container t = none := by
  cases hc : k.lists.container t with
  | none => rfl
  | some l =>
    cases l with
    | ready p =>
      have := h.ready.mpr ⟨p, hc⟩
      rw [hrun] at this
      cases this
    | mutex m =>
      have := h.waits m hc
      rw [hrun] at this
      cases this

theorem Placed.not_ready (h : Placed k t) (hst : (k.thread t).stat ≠ .ready) (p : Nat) :
    k.lists.container t ≠ some (.ready p) := fun hc => hst (h.ready.mpr ⟨p, hc⟩)

theorem Inv.mem_ready (h : Inv c k) : t ∈ k.ready p ↔ (k.thread t).stat = .ready ∧ (k.thread t).currentPriority = p := by
  rw [Kernel.ready, h.ok.mem_iff]
  constructor
  · intro hc
    exact ⟨(h.placed t).ready.mpr ⟨p, hc⟩, (h.own t p hc).symm⟩
  · rintro ⟨hst, rfl⟩
    obtain ⟨q, hq⟩ := (h.placed t).ready.mp hst
    rw [← h.own t q hq]
    exact hq

end

omit dM dT in
theorem Inv.none_ready (h : Inv c k) (hz : k.map.group = 0#32) : (k.thread t).stat ≠ .ready := by
  intro hst
  have hmem : t ∈ k.ready (k.thread t).currentPriority := h.mem_ready.mpr ⟨hst, rfl⟩
  rw [h.records.empty hz (h.ranked t).lt] at hmem
  cases hmem

omit dM dT in
theorem Inv.highest (h : Inv c k) (hne : k.map.group ≠ 0#32) : ∃ b, (k.ready (k.map.highest c)).head? = some b ∧
    (k.thread b).stat = .ready ∧ (k.thread b).currentPriority = k.map.highest c ∧
    ∀ t, (k.thread t).stat = .ready → k.map.highest c ≤ (k.thread t).currentPriority := by
  obtain ⟨hsome, hnone⟩ := h.records.highest hne
  obtain ⟨b, l, hl⟩ := List.exists_cons_of_ne_nil hsome
  have hb : b ∈ k.ready (k.map.highest c) := by rw [hl]; exact List.mem_cons_self
  obtain ⟨hst, hp⟩ := h.mem_ready.mp hb
  refine ⟨b, by rw [hl]; rfl, hst, hp, fun t ht => Nat.le_of_not_lt fun hlt => ?_⟩
  have hmem : t ∈ k.ready (k.thread t).currentPriority := h.mem_ready.mpr ⟨ht, rfl⟩
  rw [hnone _ hlt] at hmem
  cases hmem

omit dT dM in
theorem Inv.build (h : Inv c k) (hm : k'.mutex = k.mutex) (hq : Queues c k') (hp : ∀ x, Placed k' x) : Inv c k' :=
  { toQueues := hq, placed := hp, mutexes := hm ▸ h.mutexes }

theorem Thread.Ranked.setStat (h : v.Ranked c) (hst : v.stat ≠ .init) (stat : ThreadStat) :
    { v with stat }.Ranked c :=
  ⟨h.lt, fun _ => ⟨(h.attr hst).low, (h.attr hst).high⟩⟩

section
omit dM

theorem Placed.of_thread (h : Placed k t) (hst : v.stat = (k.thread t).stat) (x : Tid) (hx : Placed k x) :
    Placed (k.setThread t v) x := by
  by_cases hxt : x = t
  · subst hxt
    constructor
    · rw [thread_setThread_self, hst]; exact h.ready
    · rw [thread_setThread_self, hst]; exact h.waits
    · rw [thread_setThread_self, hst]; exact h.running
    · rw [thread_setThread_self, hst]; exact h.current
  · exact hx.congr (thread_setThread_of_ne hxt) rfl Iff.rfl

theorem Inv.setThread (h : Inv c k) (hst : v.stat = (k.thread t).stat) (hv : v.Ranked c)
    (hp : v.currentPriority = (k.thread t).currentPriority ∨ (k.thread t).stat ≠ .ready) : Inv c (k.setThread t v) :=
  h.build rfl (h.toQueues.setThread hv (hp.imp_right (h.placed t).not_ready))
    fun x => (h.placed t).of_thread hst x (h.placed x)

theorem Inv.touch (h : Inv c k) (t : Tid) (yield : Bool) (err : RtErr) (threadTimer : Bool) :
    Inv c (k.setThread t { k.thread t with yield, error := err, threadTimer }) :=
  h.setThread rfl ⟨(h.ranked t).lt, fun hst => ⟨((h.ranked t).attr hst).low, ((h.ranked t).attr hst).high⟩⟩ (.inl rfl)

end

theorem Queues.activate (hq : Queues c k) (hcur : k.currentThread = some b) (hb : (k.thread b).stat ≠ .init)
    (hp : ∀ x, x ≠ b → Placed k x) :
    Queues c ((rtScheduleRemoveThread c k b).setStat b .running) ∧
      ∀ x, Placed ((rtScheduleRemoveThread c k b).setStat b .running) x := by
  refine ⟨(hq.remove hb).setThread ?_ (.inl rfl), fun x => ?_⟩
  · rw [thread_remove]
    exact (hq.ranked b).setStat hb .running
  by_cases hx : x = b
  · subst hx
    have hrun : (((rtScheduleRemoveThread c k x).setStat x .running).thread x).stat = .running := stat_setStat
    have hnone : ((rtScheduleRemoveThread c k x).setStat x .running).lists.container x = none := container_removed
    constructor
    · rw [hrun, hnone]
      simp
    · rw [hnone]
      intro m hm
      cases hm
    · intro _
      exact currentThread_remove.trans hcur
    · intro _
      rw [hrun]
      decide
  · exact (hp x hx).remove hx _

theorem Queues.pushed (hq : Queues c k) (hnone : k.lists.container t = none) (hinit : (k.thread t).stat ≠ .init)
    (hcur : k.currentThread ≠ some t) : Queues c (rtScheduleInsertThread c k t) ∧
      Placed (rtScheduleInsertThread c k t) t ∧
      ∀ x, x ≠ t → Placed k x → Placed (rtScheduleInsertThread c k t) x := by
  have hq' := hq.insert hnone hinit hcur
  rw [insert_ready hcur] at hq' ⊢
  refine ⟨hq', ?_, fun x hx hp => hp.congr (thread_setThread_of_ne hx) (container_put_of_ne _ hx) Iff.rfl⟩
  have hready : ((k.setStat t .ready).thread t).stat = .ready := stat_setStat
  have hcont : (k.lists.pushBack (.ready (k.thread t).currentPriority) t).container t =
      some (.ready (k.thread t).currentPriority) := container_put_self _
  constructor
  · exact iff_of_true hready ⟨_, hcont⟩
  · intro m hm
    exact absurd (hcont.symm.trans hm) (by simp)
  · intro hrun
    exact absurd (hready.symm.trans hrun) (by decide)
  · intro hc
    exact absurd hc hcur

theorem Inv.switch_running (h : Inv c k) (hcur : k.currentThread = some a) (hrun : (k.thread a).stat = .running)
    (hb : (k.thread b).stat = .ready) (hne : b ≠ a) (p : Nat) : Inv c (switchTo c k a b p true) := by
  set k1 : Kernel Tid Mid := { k with currentPriority := p % 256, currentThread := some b } with hk1
  have hq1 : Queues c k1 := h.toQueues.congr rfl rfl rfl
  have hnone : k1.lists.container a = none := (h.placed a).none_of_running hrun
  have hcur1 : k1.currentThread ≠ some a := fun he => hne (some.inj he)
  obtain ⟨hq2, hpa, hpx⟩ := hq1.pushed hnone (show (k.thread a).stat ≠ .init by rw [hrun]; decide) hcur1
  have heq := insert_ready (c := c) hcur1
  have hb2 : ((rtScheduleInsertThread c k1 a).thread b).stat ≠ .init := by
    rw [heq]
    rw [thread_setStat_of_ne hne, hb]
    decide
  have hdone := hq2.activate (by rw [heq]; rfl) hb2 fun x hx => ?_
  · refine h.build ?_ hdone.1 hdone.2
    change (rtScheduleRemoveThread c (rtScheduleInsertThread c k1 a) b).mutex = _
    rw [mutex_remove, heq]
    rfl
  by_cases hxa : x = a
  · rw [hxa]
    exact hpa
  · refine hpx x hxa ((h.placed x).congr rfl rfl ?_)
    rw [hcur]
    exact iff_of_false (fun he => hx (some.inj he).symm) fun he => hxa (some.inj he).symm

theorem Inv.switch_stopped (h : Inv c k) (hcur : k.currentThread = some a) (hrun : (k.thread a).stat ≠ .running)
    (hb : (k.thread b).stat = .ready) (p : Nat) : Inv c (switchTo c k a b p false) := by
  set k1 : Kernel Tid Mid := { k with currentPriority := p % 256, currentThread := some b } with hk1
  have hq1 : Queues c k1 := h.toQueues.congr rfl rfl rfl
  have hdone := hq1.activate rfl (show (k.thread b).stat ≠ .init by rw [hb]; decide) fun x hx => ?_
  · exact h.build mutex_remove hdone.1 hdone.2
  have hp := h.placed x
  refine ⟨hp.ready, hp.waits, fun hrunx => ?_, fun hc => absurd (some.inj hc).symm hx⟩
  have hxa : x = a := some.inj ((hp.running hrunx).symm.trans hcur)
  exact absurd (hxa ▸ hrunx) hrun

/-! ## `rt_schedule` -/

omit dM in
theorem currentPriority_setStat (stat : ThreadStat) (x : Tid) :
    ((k.setStat t stat).thread x).currentPriority = (k.thread x).currentPriority := by
  rw [Kernel.setStat, thread_setThread]
  split
  · rename_i hx
    rw [hx]
  · rfl

theorem currentPriority_insert (x : Tid) :
    ((rtScheduleInsertThread c k t).thread x).currentPriority = (k.thread x).currentPriority := by
  by_cases hcur : k.currentThread = some t
  · rw [insert_current hcur, currentPriority_setStat]
  · rw [insert_ready hcur]
    exact currentPriority_setStat .ready x

theorem switchTo_thread (need : Bool) (hne : b ≠ a) (x : Tid) :
    ((switchTo c k a b p need).thread x).currentPriority = (k.thread x).currentPriority ∧
      (((switchTo c k a b p need).thread x).stat = .ready →
        x = a ∧ need = true ∨ (k.thread x).stat = .ready) := by
  unfold switchTo
  refine ⟨?_, fun hst => ?_⟩
  · rw [currentPriority_setStat, thread_remove]
    cases need with
    | false => rfl
    | true => exact currentPriority_insert x
  have hxb : x ≠ b := by
    rintro rfl
    rw [stat_setStat] at hst
    cases hst
  rw [thread_setStat_of_ne hxb, thread_remove] at hst
  cases need with
  | false => exact .inr hst
  | true =>
    by_cases hxa : x = a
    · exact .inl ⟨hxa, rfl⟩
    · rw [if_pos rfl, insert_ready (fun he => hne (some.inj he))] at hst
      rw [thread_setStat_of_ne hxa] at hst
      exact .inr hst

theorem switchTo_current (need : Bool) (hne : b ≠ a) : (switchTo c k a b p need).currentThread = some b := by
  change (rtScheduleRemoveThread c _ b).currentThread = some b
  rw [currentThread_remove]
  cases need with
  | false => rfl
  | true =>
    rw [if_pos rfl, insert_ready (fun he => hne (some.inj he))]
    rfl

theorem preempts_switchTo {need : Bool} (hne : b ≠ a) (hb : (k.thread b).currentPriority = p)
    (hleast : ∀ t, (k.thread t).stat = .ready → p ≤ (k.thread t).currentPriority)
    (ha : need = true → p ≤ (k.thread a).currentPriority) : Preempts (switchTo c k a b p need) := by
  intro cur t hcur hst
  rw [switchTo_current need hne] at hcur
  obtain rfl := some.inj hcur
  rw [(switchTo_thread need hne _).1, (switchTo_thread need hne _).1, hb]
  rcases (switchTo_thread need hne t).2 hst with ⟨rfl, hneed⟩ | hold
  · exact ha hneed
  · exact hleast t hold

/-- What a call of the scheduler leaves: a current thread that is the most urgent unless
the scheduler is locked. -/
structure Scheduled (c : Board) (k k' : Kernel Tid Mid) : Prop where
  inv : Inv c k'
  current : k'.currentThread ≠ none
  preempts : k.schedulerLockNest = 0 → Preempts k'

/-- **`rt_schedule` switches to the most urgent thread.** -/
theorem rtSchedule_spec (h : Inv c k) (hcur : k.currentThread = some a) :
    ∃ k', rtSchedule c k = some k' ∧ Scheduled c k k' := by
  unfold rtSchedule
  by_cases hgo : k.schedulerLockNest = 0 ∧ k.map.group ≠ 0#32
  swap
  · rw [if_neg hgo]
    refine ⟨k, rfl, h, by rw [hcur]; simp, fun hlock current t _ hst => ?_⟩
    have hz : k.map.group = 0#32 := not_not.mp fun hne => hgo ⟨hlock, hne⟩
    exact absurd hst (h.none_ready hz)
  obtain ⟨b, hhead, hb, hbp, hleast⟩ := h.highest hgo.2
  rw [if_pos hgo, hcur]
  simp only [bind, bind_some, hhead]
  split
  · rename_i hrun
    have hba : b ≠ a := by
      rintro rfl
      rw [hrun] at hb
      cases hb
    have h1 : Inv c (k.setThread a { k.thread a with yield := false }) := h.touch a false _ _
    have hcp (x : Tid) : ((k.setThread a { k.thread a with yield := false }).thread x).currentPriority =
        (k.thread x).currentPriority ∧
        ((k.setThread a { k.thread a with yield := false }).thread x).stat = (k.thread x).stat := by
      rw [thread_setThread]
      split
      · rename_i hx
        rw [hx]
        exact ⟨rfl, rfl⟩
      · exact ⟨rfl, rfl⟩
    split
    · rename_i hstay
      have hle : (k.thread a).currentPriority ≤ k.map.highest c := by
        rcases hstay with hlt | ⟨heq, _⟩ | heq
        · exact Nat.le_of_lt hlt
        · exact Nat.le_of_eq heq
        · exact absurd heq hba
      have hrun1 : ((k.setThread a { k.thread a with yield := false }).thread a).stat = .running :=
        (hcp a).2.trans hrun
      have hdone := h1.toQueues.activate (b := a) hcur (by rw [hrun1]; decide) fun x _ => h1.placed x
      refine ⟨_, rfl, h1.build mutex_remove hdone.1 hdone.2, ?_, fun _ cur t hc hst => ?_⟩
      · change (rtScheduleRemoveThread c _ a).currentThread ≠ none
        rw [currentThread_remove]
        change k.currentThread ≠ none
        rw [hcur]
        simp
      · change (rtScheduleRemoveThread c _ a).currentThread = some cur at hc
        rw [currentThread_remove] at hc
        obtain rfl := some.inj (hcur.symm.trans hc)
        have hta : t ≠ a := by
          rintro rfl
          rw [stat_setStat] at hst
          cases hst
        rw [thread_setStat_of_ne hta, thread_remove, (hcp t).2] at hst
        rw [currentPriority_setStat, currentPriority_setStat, thread_remove, (hcp a).1, (hcp t).1]
        exact hle.trans (hleast t hst)
    · rename_i hstay
      refine ⟨_, rfl, h1.switch_running hcur ((hcp a).2.trans hrun) ((hcp b).2.trans hb) hba _, ?_, fun _ => ?_⟩
      · rw [switchTo_current true hba]
        simp
      · refine preempts_switchTo hba ((hcp b).1.trans hbp) (fun t ht => ?_) fun _ => ?_
        · rw [(hcp t).1]
          exact hleast t ((hcp t).2.symm.trans ht)
        · rw [(hcp a).1]
          exact Nat.le_of_not_lt fun hlt => hstay (.inl hlt)
  · rename_i hrun
    have hba : b ≠ a := by
      rintro rfl
      exact ((h.placed b).current hcur).1 hb
    rw [if_neg hba]
    refine ⟨_, rfl, h.switch_stopped hcur hrun hb _, ?_, fun _ => ?_⟩
    · rw [switchTo_current false hba]
      simp
    · exact preempts_switchTo hba hbp hleast fun hno => absurd hno (by simp)

theorem rtSchedule_inv (h : Inv c k) (hcur : k.currentThread ≠ none) (hs : rtSchedule c k = some k') : Inv c k' := by
  obtain ⟨a, ha⟩ := ne_none_iff_exists'.mp hcur
  obtain ⟨k1, h1, hdone⟩ := rtSchedule_spec h ha
  rw [hs] at h1
  cases h1
  exact hdone.inv

/-! ## The other functions -/

theorem Inv.enqueue (h : Inv c k) (hst : (k.thread t).stat = .suspend) :
    Inv c (rtScheduleInsertThread c { k with lists := k.lists.remove t } t) := by
  have hno : ∀ p, k.lists.container t ≠ some (.ready p) := (h.placed t).not_ready (by rw [hst]; decide)
  set k1 : Kernel Tid Mid := { k with lists := k.lists.remove t } with hk1
  have hq1 : Queues c k1 := h.toQueues.unlink hno
  have hnone : k1.lists.container t = none := container_remove_self
  have hinit : (k1.thread t).stat ≠ .init := by
    rw [hst]
    decide
  by_cases hcur : k1.currentThread = some t
  · rw [insert_current hcur]
    refine h.build rfl (hq1.setThread ((h.ranked t).setStat hinit .running) (.inl rfl)) fun x => ?_
    by_cases hx : x = t
    · subst hx
      have hrun : ((k1.setStat x .running).thread x).stat = .running := stat_setStat
      have hcont : (k1.setStat x .running).lists.container x = none := hnone
      refine ⟨?_, fun m hm => ?_, fun _ => hcur, fun _ => ?_⟩
      · rw [hrun, hcont]
        simp
      · rw [hcont] at hm
        cases hm
      · rw [hrun]
        decide
    · exact (h.placed x).congr (thread_setThread_of_ne hx) (container_remove_of_ne hx) Iff.rfl
  · obtain ⟨hq2, hpt, hpx⟩ := hq1.pushed hnone hinit hcur
    refine h.build (by rw [insert_ready hcur]; rfl) hq2 fun x => ?_
    by_cases hx : x = t
    · rw [hx]
      exact hpt
    · exact hpx x hx ((h.placed x).congr rfl (container_remove_of_ne hx) Iff.rfl)

theorem rtThreadResume_inv (h : Inv c k) (t : Tid) : Inv c (rtThreadResume c k t).1 := by
  unfold rtThreadResume
  split
  · rename_i hst
    have h1 : Inv c (k.setThread t { k.thread t with threadTimer := false }) := h.touch t _ _ false
    have hst1 : ((k.setThread t { k.thread t with threadTimer := false }).thread t).stat = .suspend := by
      rw [thread_setThread_self]
      exact hst
    exact h1.enqueue hst1
  · exact h

theorem Inv.stop (h : Inv c k) (hcur : k.currentThread = some a) {s : ThreadStat} (hs : s = .suspend ∨ s = .close) :
    Inv c ((rtScheduleRemoveThread c k a).setThread a { k.thread a with stat := s, threadTimer := false }) := by
  have hinit := ((h.placed a).current hcur).2
  have hattr := (h.ranked a).attr hinit
  have hq := h.toQueues.remove hinit
  refine h.build mutex_remove (hq.setThread ⟨(h.ranked a).lt, fun _ => ⟨hattr.low, hattr.high⟩⟩ (.inl ?_)) fun x => ?_
  · rw [thread_remove]
  by_cases hx : x = a
  · subst hx
    refine ⟨?_, fun m hm => ?_, fun hrun => ?_, fun _ => ?_⟩
    · rw [thread_setThread_self]
      change s = .ready ↔ ∃ p, (rtScheduleRemoveThread c k x).lists.container x = _
      rcases hs with rfl | rfl <;> simp
    · exact absurd (container_removed.symm.trans hm) (by simp)
    · rw [thread_setThread_self] at hrun
      rcases hs with rfl | rfl <;> cases hrun
    · rw [thread_setThread_self]
      change s ≠ .ready ∧ s ≠ .init
      rcases hs with rfl | rfl <;> decide
  · exact (h.placed x).remove hx _

theorem rtThreadSuspend_inv (h : Inv c k) (hcur : k.currentThread = some a) : Inv c (rtThreadSuspend c k a).1 := by
  unfold rtThreadSuspend
  split
  · have hstop := h.stop hcur (.inl rfl)
    simp only [thread_remove]
    exact hstop
  · exact h

theorem Thread.setPriority_ranked (hp : p < c.priorityMax) : (v.setPriority c p).Ranked c :=
  ⟨by rw [Thread.setPriority_currentPriority]; exact hp, fun _ => Thread.setPriority_attr c v p⟩

theorem rtThreadChangePriority_inv (h : Inv c k) (t : Tid) (hp : p < c.priorityMax) :
    Inv c (rtThreadChangePriority c k t p) := by
  unfold rtThreadChangePriority
  split
  swap
  · rename_i hst
    exact h.setThread (Thread.setPriority_stat ..) (Thread.setPriority_ranked hp) (.inr hst)
  rename_i hst
  simp only [thread_remove]
  set k1 := (rtScheduleRemoveThread c k t).setThread t ((k.thread t).setPriority c p) with hk1
  have hnone : k1.lists.container t = none := container_removed
  have hstat : (k1.thread t).stat = .ready := by
    rw [hk1, thread_setThread_self, Thread.setPriority_stat]
    exact hst
  have hq1 : Queues c k1 := by
    refine (h.toQueues.remove (by rw [hst]; decide)).setThread (Thread.setPriority_ranked hp) (.inr fun q hq => ?_)
    rw [lists_remove, container_remove_self] at hq
    cases hq
  have hcur : k1.currentThread ≠ some t := by
    change (rtScheduleRemoveThread c k t).currentThread ≠ some t
    rw [currentThread_remove]
    exact fun hc => ((h.placed t).current hc).1 hst
  obtain ⟨hq2, hpt, hpx⟩ := hq1.pushed hnone (by rw [hstat]; decide) hcur
  refine h.build ?_ hq2 fun x => ?_
  · rw [insert_ready hcur]
    exact mutex_remove
  by_cases hx : x = t
  · rw [hx]
    exact hpt
  · exact hpx x hx ((h.placed x).remove hx _)

theorem currentThread_insert : (rtScheduleInsertThread c k t).currentThread = k.currentThread ∧
    (rtScheduleInsertThread c k t).schedulerLockNest = k.schedulerLockNest := by
  unfold rtScheduleInsertThread
  split <;> exact ⟨rfl, rfl⟩

theorem currentThread_resume : (rtThreadResume c k t).1.currentThread = k.currentThread ∧
    (rtThreadResume c k t).1.schedulerLockNest = k.schedulerLockNest := by
  unfold rtThreadResume
  split
  · exact currentThread_insert
  · exact ⟨rfl, rfl⟩

theorem thread_changePriority (h : Inv c k) (hx : x ≠ t) :
    (rtThreadChangePriority c k t p).thread x = k.thread x ∧
      (rtThreadChangePriority c k t p).currentThread = k.currentThread := by
  unfold rtThreadChangePriority
  split
  · rename_i hst
    have hcur : ((rtScheduleRemoveThread c k t).setThread t
        (((rtScheduleRemoveThread c k t).thread t).setPriority c p)).currentThread ≠ some t := by
      change (rtScheduleRemoveThread c k t).currentThread ≠ some t
      rw [currentThread_remove]
      exact fun hc => ((h.placed t).current hc).1 hst
    refine ⟨?_, currentThread_insert.1.trans currentThread_remove⟩
    rw [insert_ready hcur]
    refine (thread_setThread_of_ne hx).trans ((thread_setThread_of_ne hx).trans ?_)
    rw [thread_remove]
  · exact ⟨thread_setThread_of_ne hx, rfl⟩

omit dT in
theorem Inv.setMutex (h : Inv c k) {v : RtMutex Tid} (hv : v.Ok c) : Inv c (k.setMutex m v) := by
  refine { toQueues := h.toQueues.congr rfl rfl rfl, placed := fun x => (h.placed x).congr rfl rfl Iff.rfl
           mutexes := fun m' => ?_ }
  rw [Kernel.setMutex]
  by_cases hm : m' = m
  · subst hm
    simp only [update_self]
    exact hv
  · simp only [update_of_ne hm]
    exact h.mutexes m'

theorem Inv.wait (h : Inv c k) (hnone : k.lists.container t = none) (hst : (k.thread t).stat = .suspend)
    {l : List Tid} (hl : l.Perm (t :: k.suspendThread m)) :
    Inv c { k with lists := k.lists.put (.mutex m) t l } := by
  refine h.build rfl (h.toQueues.wait hnone hl) fun x => ?_
  by_cases hx : x = t
  · subst hx
    have hp := h.placed x
    have hcont : (k.lists.put (.mutex m) x l).container x = some (.mutex m) := container_put_self _
    refine ⟨?_, fun m' _ => hst, hp.running, hp.current⟩
    rw [hst, hcont]
    simp
  · exact (h.placed x).congr rfl (container_put_of_ne _ hx) Iff.rfl

theorem rtThreadStartup_inv (h : Inv c k) (hs : rtThreadStartup c k t = some k') : Inv c k' := by
  unfold rtThreadStartup at hs
  simp only [bind, bind_eq_some_iff] at hs
  obtain ⟨_, hinit, hs⟩ := hs
  have hinit : (k.thread t).stat = .init := of_rtAssert hinit
  set v := { (k.thread t).setPriority c (k.thread t).currentPriority with stat := .suspend, yield := false } with hv
  have hp := h.placed t
  have hno : ∀ q, k.lists.container t ≠ some (.ready q) := hp.not_ready (by rw [hinit]; decide)
  have hattr := Thread.setPriority_attr c (k.thread t) (k.thread t).currentPriority
  have hq : Queues c (k.setThread t v) := by
    refine h.toQueues.setThread ⟨?_, fun _ => ⟨hattr.low, hattr.high⟩⟩ (.inr hno)
    rw [Thread.setPriority_currentPriority]
    exact (h.ranked t).lt
  have h1 : Inv c (k.setThread t v) := by
    refine h.build rfl hq fun x => ?_
    by_cases hx : x = t
    · subst hx
      have hstat : ((k.setThread x v).thread x).stat = .suspend := by rw [thread_setThread_self]
      refine ⟨?_, fun m _ => hstat, fun hrun => ?_, fun hc => absurd hinit (hp.current hc).2⟩
      · rw [hstat]
        exact iff_of_false (by decide) fun ⟨q, hq⟩ => hno q hq
      · rw [hstat] at hrun
        cases hrun
    · exact (h.placed x).congr (thread_setThread_of_ne hx) rfl Iff.rfl
  have h2 := rtThreadResume_inv h1 t
  split at hs
  · cases hs
    exact h2
  · rename_i hcur
    exact rtSchedule_inv h2 hcur hs

theorem rtSystemSchedulerStart_inv (h : Inv c k) (hcur : k.currentThread = none)
    (hs : rtSystemSchedulerStart c k = some k') : Inv c k' := by
  obtain ⟨b, hb, hs⟩ := bind_eq_some_iff.mp hs
  cases hs
  have hready := h.mem_ready.mp (List.mem_of_mem_head? hb)
  have hq1 : Queues c { k with currentThread := some b } := h.toQueues.congr rfl rfl rfl
  have hdone := hq1.activate rfl (show (k.thread b).stat ≠ .init by rw [hready.1]; decide) fun x hx => ?_
  · exact h.build mutex_remove hdone.1 hdone.2
  have hp := h.placed x
  refine ⟨hp.ready, hp.waits, fun hrun => ?_, fun hc => absurd (some.inj hc).symm hx⟩
  have := hp.running hrun
  rw [hcur] at this
  cases this

end Inv

end RtosKernel.RtThread.Scheduler
