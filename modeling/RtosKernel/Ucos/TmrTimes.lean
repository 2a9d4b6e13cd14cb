import RtosKernel.Ucos.TmrState

/-! # When the timers in the list expire

The ticks that remain are the differences of the times at which the timers expire, from the time of the tick
base on, and the timer task wakes when the first of them expires. -/

namespace RtosKernel.Ucos.Timers
open Lib.Word List Function
open Lib.DoublyLinked
open Lib.DeltaQueue

variable {T : Type} [dT : DecidableEq T] {k k' k₁ : Kernel T} {t u p q : T} {time mult r B B' : Nat} {s : TmrState}
  {l l' pre post : List T} {due due' : T → Nat}

/-- The timers `l` expire at the times `due`; the tick base is the time `B`. -/
structure Timed (k : Kernel T) (l : List T) (due : T → Nat) (B : Nat) : Prop where
  listed : Listed k l
  times : Times (fun t => (k.tmr t).remain) due B l
  tickBase : k.tickBase = B % 2 ^ 32
  le : B ≤ k.now
  ahead : ∀ d ∈ l.head?.map due, k.now ≤ d
  first : ∀ d ∈ l.head?.map due, d < B + 2 ^ 31
  near : ∀ t ∈ l, due t < k.now + 2 ^ 31
  wait : ∀ wakeAt, k.phase = .waiting false wakeAt → wakeAt = l.head?.map due
  busy : (∀ signalled wakeAt, k.phase ≠ .waiting signalled wakeAt) → B = k.now

/-- Nothing has changed but the list, the ticks that remain and the tick base. -/
structure Kept (k k' : Kernel T) : Prop where
  state : ∀ t, (k'.tmr t).state = (k.tmr t).state
  core : ∀ t, (k'.tmr t).core = (k.tmr t).core
  now : k'.now = k.now
  startedAt : k'.startedAt = k.startedAt
  fired : k'.fired = k.fired
  phase : k'.phase = k.phase ∨ k'.phase = k.phase.signal

variable {remain : T → Nat}

section
omit dT

theorem Change.kept {tickBase : Nat} {signal : Bool} (h : Change k k' l remain tickBase signal) : Kept k k' :=
  ⟨h.state, h.core, h.now, h.startedAt, h.fired, by rw [h.phase]; cases signal <;> simp⟩

theorem signal_ne_waiting (wakeAt : Option Nat) : k.phase.signal ≠ .waiting false wakeAt := by
  cases k.phase <;> simp [Phase.signal]

theorem Change.timed_signal (h : Change k k' l remain (k.now % 2 ^ 32) true) (ht : Times remain due k.now l)
    (hnear : ∀ t ∈ l, due t < k.now + 2 ^ 31) : Timed k' l due k.now := by
  have hhead : ∀ d ∈ l.head?.map due, k.now ≤ d ∧ d < k.now + 2 ^ 31 := by
    intro d hd
    obtain ⟨t, ht', rfl⟩ := Option.mem_map.mp hd
    have hmem := List.mem_of_mem_head? ht'
    exact ⟨ht.le t hmem, hnear t hmem⟩
  refine ⟨h.listed, ht.congr (fun t _ => h.remain t) fun _ _ => rfl, h.tickBase, h.now.ge, fun d hd => ?_,
    fun d hd => (hhead d hd).2, fun t ht => ?_, fun wakeAt hwait => ?_, fun _ => h.now.symm⟩
  · rw [h.now]
    exact (hhead d hd).1
  · rw [h.now]
    exact hnear t ht
  · exact absurd (h.phase.symm.trans hwait) (signal_ne_waiting wakeAt)

end

section
variable (h : Timed k l due B)
include h

section
omit dT

theorem Change.timed_same (hchange : Change k k' l' remain k.tickBase false)
    (ht : Times remain due' B l') (hhead : l'.head?.map due' = l.head?.map due) (hnear : ∀ t ∈ l', due' t < k.now + 2 ^ 31) :
    Timed k' l' due' B := by
  have hphase : k'.phase = k.phase := hchange.phase
  refine ⟨hchange.listed, ht.congr (fun t _ => hchange.remain t) fun _ _ => rfl, hchange.tickBase.trans h.tickBase, ?_, ?_, ?_, ?_,
    ?_, ?_⟩
  · exact hchange.now ▸ h.le
  · rw [hhead, hchange.now]
    exact h.ahead
  · rw [hhead]
    exact h.first
  · rw [hchange.now]
    exact hnear
  · rw [hhead, hphase]
    exact h.wait
  · rw [hphase, hchange.now]
    exact h.busy

theorem Timed.callTime : callTime k = k.now % 2 ^ 32 := by
  rw [Timers.callTime]
  cases hphase : k.phase with
  | callback p =>
    rw [h.tickBase, h.busy (by simp [hphase])]
  | _ => rfl

theorem Timed.elapsed (hl : l ≠ []) : sub32 (k.now % 2 ^ 32) k.tickBase = k.now - B := by
  obtain ⟨q, tl, rfl⟩ := exists_cons_of_ne_nil hl
  have hle := h.le
  have hahead := h.ahead (due q) rfl
  have hfirst := h.first (due q) rfl
  rw [h.tickBase, sub32]
  omega

theorem Timed.linkDelta (hl : l ≠ []) (hr : (k.tmr p).remain < 2 ^ 31) :
    linkDelta k p (k.now % 2 ^ 32) = k.now + (k.tmr p).remain - B := by
  obtain ⟨q, tl, rfl⟩ := exists_cons_of_ne_nil hl
  have hle := h.le
  have hahead := h.ahead (due q) rfl
  have hfirst := h.first (due q) rfl
  rw [Timers.linkDelta, h.tickBase, sub32, add32]
  omega

end

theorem Timed.link (hp : p ∉ l) (hr : (k.tmr p).remain < 2 ^ 31) (hlinking : Linking k p (k.now % 2 ^ 32) l k') :
    ∃ l' B', Timed k' l' (update due p (k.now + (k.tmr p).remain)) B' ∧ Kept k k' ∧ ∀ t, t ∈ l' ↔ t = p ∨ t ∈ l := by
  have hdue : ∀ t ∈ l, update due p (k.now + (k.tmr p).remain) t = due t := fun t ht =>
    update_of_ne (fun heq : t = p => hp (heq ▸ ht)) _ _
  have hself : update due p (k.now + (k.tmr p).remain) p = k.now + (k.tmr p).remain := update_self ..
  have hnear : ∀ t, t = p ∨ t ∈ l → update due p (k.now + (k.tmr p).remain) t < k.now + 2 ^ 31 := by
    rintro t (rfl | ht)
    · omega
    · rw [hdue t ht]
      exact h.near t ht
  have hle := h.le
  cases hlinking with
  | only hchange =>
    exact ⟨[p], k.now, hchange.timed_signal ⟨hself, trivial⟩ fun t ht => hnear t (by simpa using ht), hchange.kept, by simp⟩
  | @first _ q tl hlt hchange =>
    have hqp : q ≠ p := fun heq => hp (by simp [heq])
    rw [h.linkDelta (cons_ne_nil _ _) hr] at hlt hchange
    obtain ⟨hq, htl⟩ := h.times
    refine ⟨p :: q :: tl, k.now, hchange.timed_signal ⟨?_, ?_, ?_⟩ fun t ht => hnear t (by simpa using ht), hchange.kept, by simp⟩
    · simp only [hself, if_neg hqp.symm]
    · simp only [hself, hdue q (mem_cons_self ..), if_pos] at hq ⊢
      omega
    · have hnodup := (nodup_cons.mp h.listed.linked.nodup).1
      rw [hdue q (mem_cons_self ..)]
      exact htl.congr (fun t ht => if_neg fun heq : t = q => hnodup (heq ▸ ht)) fun t ht => hdue t (mem_cons_of_mem _ ht)
  | @later _ q pre post hle' hlt hchange =>
    have hnodup := (nodup_append.mp h.listed.linked.nodup).2.1
    have hne : ∀ t ∈ q :: pre ++ post, t ≠ p := fun t ht heq => hp (heq ▸ ht)
    rw [h.linkDelta (cons_ne_nil _ _) hr] at hle' hlt hchange
    have htimes := h.times
    refine ⟨q :: pre ++ p :: post, B, hchange.timed_same h (htimes.insert ?_ (fun t ht => ?_) (fun t ht => ?_) (fun t ht => ?_) hdue)
      (by simp [hdue q (mem_cons_self ..)]) (fun t ht => hnear t ?_), hchange.kept, fun t => ?_⟩
    · rw [hself, if_pos rfl]
      show _ = B + behind k (q :: pre) + _
      omega
    · have ht' : t ∈ q :: pre ++ post := mem_append_left _ ht
      rw [if_neg (hne t ht'), if_neg (head_ne_of_mem h.listed.linked.nodup ht)]
    · have ht' : t ∈ q :: pre ++ post := mem_append_right _ (List.mem_of_mem_head? ht)
      have hltt := hlt t ht
      obtain ⟨mid, rfl⟩ : ∃ mid, post = t :: mid := ⟨post.tail, (List.eq_cons_of_mem_head? ht)⟩
      have htime := htimes.time_eq
      have hneart := h.near t ht'
      have hahead := h.ahead (due q) rfl
      have hfirst := h.first (due q) rfl
      rw [if_neg (hne t ht'), if_pos rfl, List.head?_cons, if_pos rfl, sub32_of_le hltt.le (by omega)]
      omega
    · have ht' : t ∈ q :: pre ++ post := mem_append_right _ (mem_of_mem_tail ht)
      rw [if_neg (hne t ht'), if_neg (head_ne_of_mem_tail hnodup ht)]
    · exact mem_insert.mp ht
    · exact mem_insert

end

theorem elapseList_first {elapsed : Nat} (h : elapsed ≤ remain q) :
    elapseList remain elapsed (q :: l) = update remain q (remain q - elapsed) := by
  cases elapsed with
  | zero => simp [elapseList]
  | succ elapsed => rw [elapseList, if_neg (Nat.not_lt.mpr h)]

/-- Some ticks have elapsed from the tick base on, and the timer behind the first one has as many. -/
def Coincides (k : Kernel T) (p : T) : Prop :=
  match (k.tmr p).prevPtr, (k.tmr p).nextPtr with
  | none, some p2 => sub32 (callTime k) k.tickBase ≠ 0 ∧ (k.tmr p2).remain = sub32 (callTime k) k.tickBase
  | _, _ => False

theorem Timed.unlink (h : Timed k l due B) (hcoincides : ¬ Coincides k p) (hunlinking : Unlinking k p (k.now % 2 ^ 32) l k') :
    ∃ l' B', Timed k' l' due B' ∧ Kept k k' ∧ ∀ t, t ∈ l' ↔ t ≠ p ∧ t ∈ l := by
  have hle := h.le
  cases hunlinking with
  | only hchange => exact ⟨[], k.now, hchange.timed_signal trivial nofun, hchange.kept, fun t => by simp⟩
  | @first _ q tl hchange =>
    have hmem : ∀ t, t ∈ q :: tl ↔ t ≠ p ∧ t ∈ p :: q :: tl := fun t => mem_remove (l := []) h.listed.linked.nodup
    obtain ⟨hp, hnodup⟩ := nodup_cons.mp h.listed.linked.nodup
    have hpq : p ≠ q := fun heq => hp (by simp [heq])
    obtain ⟨htp, htq, htl⟩ := h.times
    replace htp : due p = B + (k.tmr p).remain := htp
    replace htq : due q = due p + (k.tmr q).remain := htq
    have hnearq := h.near q (by simp)
    have hahead := h.ahead (due p) rfl
    have hfirst := h.first (due p) rfl
    have hgive : giveBack k p (some q) q = (k.tmr q).remain + (k.tmr p).remain := by
      rw [giveBack, if_pos rfl, add32_of_lt (by omega)]
    -- the first timer has not expired before
    have hremain : unlinkRemain k p q tl (k.now % 2 ^ 32) = update (giveBack k p (some q)) q
        ((k.tmr q).remain + (k.tmr p).remain - (k.now - B)) := by
      rw [unlinkRemain, h.elapsed (cons_ne_nil _ _), elapseList_first (by omega), hgive]
    have hqueue : ∀ t ∈ tl, (if t = p then 0 else unlinkRemain k p q tl (k.now % 2 ^ 32) t) = (k.tmr t).remain := fun t ht => by
      have htq : t ≠ q := fun heq => (nodup_cons.mp hnodup).1 (heq ▸ ht)
      rw [if_neg fun heq : t = p => hp (by simp [← heq, ht]), hremain, update_of_ne htq, giveBack,
        if_neg fun heq => htq (Option.some.inj heq).symm]
    have hq : (if q = p then 0 else unlinkRemain k p q tl (k.now % 2 ^ 32) q) =
        (k.tmr q).remain + (k.tmr p).remain - (k.now - B) := by
      rw [if_neg hpq.symm, hremain, update_self]
    cases hreload : reload k p q tl (k.now % 2 ^ 32) with
    | true =>
      rw [hreload] at hchange
      refine ⟨q :: tl, k.now, hchange.timed_signal ⟨?_, htl.congr hqueue fun _ _ => rfl⟩ fun t ht => h.near t ?_, hchange.kept, hmem⟩
      · exact (show due q = k.now + ((k.tmr q).remain + (k.tmr p).remain - (k.now - B)) by omega).trans
          (congrArg (k.now + ·) hq.symm)
      · exact mem_cons_of_mem _ ht
    | false =>
      rw [hreload] at hchange
      -- nothing has elapsed, and the timer behind expires in the same tick
      have hsame : k.now = B ∧ (k.tmr q).remain = 0 := by
        have hprev : (k.tmr p).prevPtr = none := h.listed.linked.prev_head
        have hnext : (k.tmr p).nextPtr = some q := h.listed.linked.next [] p (q :: tl) rfl
        rw [Coincides, hprev, hnext] at hcoincides
        rw [h.callTime, h.elapsed (cons_ne_nil _ _)] at hcoincides
        rw [reload, hremain, update_self, decide_eq_false_iff_not] at hreload
        omega
      refine ⟨q :: tl, B, hchange.timed_same h ⟨?_, htl.congr hqueue fun _ _ => rfl⟩ ?_ fun t ht => h.near t ?_, hchange.kept, hmem⟩
      · exact (show due q = B + ((k.tmr q).remain + (k.tmr p).remain - (k.now - B)) by omega).trans (congrArg (B + ·) hq.symm)
      · simp only [List.head?_cons, Option.map_some, Option.some.injEq]
        omega
      · exact mem_cons_of_mem _ ht
  | @later _ x pre post hchange =>
    have hmem : ∀ t, t ∈ x :: pre ++ post ↔ t ≠ p ∧ t ∈ x :: pre ++ p :: post := fun t => mem_remove h.listed.linked.nodup
    have hnodup : (x :: pre ++ post).Nodup := (nodup_cons.mp (nodup_middle.mp h.listed.linked.nodup)).2
    have htimes := h.times
    refine ⟨x :: pre ++ post, B, hchange.timed_same h (htimes.remove (fun t ht => ?_) (fun t ht => ?_) fun t ht => ?_) rfl
      fun t ht => h.near t ((hmem t).mp ht).2, hchange.kept, hmem⟩
    · have hne := ((hmem t).mp (mem_append_left _ ht)).1
      rw [if_neg hne, giveBack, if_neg (head_ne_of_mem hnodup ht)]
    · have ht' : t ∈ x :: pre ++ post := mem_append_right _ (List.mem_of_mem_head? ht)
      obtain ⟨mid, rfl⟩ : ∃ mid, post = t :: mid := ⟨post.tail, List.eq_cons_of_mem_head? ht⟩
      have hnear := h.near t ((hmem t).mp ht').2
      have hahead := h.ahead (due x) rfl
      have hfirst := h.first (due x) rfl
      have htp : due p = _ := htimes.time_eq
      have htt : due t = due p + (k.tmr t).remain := (times_append.mp htimes).2.2.1
      rw [if_neg ((hmem t).mp ht').1, giveBack, List.head?_cons, if_pos rfl, add32_of_lt (by omega)]
    · have ht' : t ∈ x :: pre ++ post := mem_append_right _ (mem_of_mem_tail ht)
      rw [if_neg ((hmem t).mp ht').1, giveBack, if_neg (head_ne_of_mem_tail (nodup_append.mp hnodup).2.1 ht)]

section
omit dT

theorem Timed.head_le (h : Timed k (q :: l) due B) : ∀ t ∈ q :: l, due q ≤ due t := by
  intro t ht
  rcases mem_cons.mp ht with rfl | ht
  · exact le_rfl
  · exact h.times.2.le t ht

theorem Listed.unique (h : Listed k l) (h' : Listed k l') : l = l' :=
  eq_of_next h.linked.next h'.linked.next (h.head.symm.trans h'.head)

theorem Timed.congr (h : Timed k l due B) (hl : Listed k' l) (hremain : ∀ t ∈ l, (k'.tmr t).remain = (k.tmr t).remain)
    (hbase : k'.tickBase = k.tickBase) (hnow : k'.now = k.now) (hphase : k'.phase = k.phase) : Timed k' l due B := by
  refine ⟨hl, h.times.congr hremain fun _ _ => rfl, hbase.trans h.tickBase, hnow ▸ h.le, hnow ▸ h.ahead, h.first, hnow ▸ h.near, ?_, ?_⟩
  · rw [hphase]
    exact h.wait
  · rw [hphase, hnow]
    exact h.busy

theorem Timed.phase (phase : Phase T) (h : Timed k l due B) (hk : ∀ signalled wakeAt, k.phase ≠ .waiting signalled wakeAt)
    (hphase : ∀ signalled wakeAt, phase ≠ .waiting signalled wakeAt) : Timed { k with phase } l due B :=
  ⟨h.listed.congr (fun _ _ => rfl) (fun _ _ => rfl) rfl rfl, h.times, h.tickBase, h.le, h.ahead, h.first, h.near,
    fun _ heq => absurd heq (hphase _ _), fun _ => h.busy hk⟩

theorem Timed.not_coincides (h : Timed k l due B) (hk : ∀ signalled wakeAt, k.phase ≠ .waiting signalled wakeAt) :
    ¬ Coincides k p := by
  have hnone : sub32 (k.now % 2 ^ 32) k.tickBase = 0 := by
    rw [h.tickBase, h.busy hk, sub32_of_le le_rfl (Nat.mod_lt _ (by decide)), Nat.sub_self]
  rw [Coincides, h.callTime, hnone]
  cases (k.tmr p).prevPtr with
  | none =>
    cases (k.tmr p).nextPtr with
    | none => exact id
    | some q => exact fun hc => hc.1 rfl
  | some _ => exact id

end

/-! ## The timer task -/

omit dT in
theorem Timed.tick {wakeAt : Option Nat} (h : Timed k l due B) (hphase : k.phase = .waiting false wakeAt)
    (hwake : wakeAt ≠ some k.now) : Timed { k with now := k.now + 1 } l due B := by
  have hwait := h.wait wakeAt hphase
  refine ⟨h.listed.congr (fun _ _ => rfl) (fun _ _ => rfl) rfl rfl, h.times, h.tickBase, h.le.trans (Nat.le_succ _), fun d hd => ?_,
    h.first, fun t ht => (h.near t ht).trans_le (by show _ ≤ k.now + 1 + _; omega), h.wait, fun hbusy => absurd hphase (hbusy _ _)⟩
  have hne : d ≠ k.now := fun heq => hwake (by rw [hwait, hd, heq])
  have hle := h.ahead d hd
  show k.now + 1 ≤ d
  omega

theorem Timed.wake (h : Timed k l due B) (hl : l ≠ []) :
    ∃ k', tmrTaskWake k = .ok k' ∧ Timed k' l due k.now ∧ (∀ t, (k'.tmr t).state = (k.tmr t).state) ∧
      (∀ t, (k'.tmr t).core = (k.tmr t).core) ∧ k'.now = k.now ∧ k'.startedAt = k.startedAt ∧ k'.fired = k.fired ∧
      k'.phase = .processing := by
  obtain ⟨q, tl, rfl⟩ := exists_cons_of_ne_nil hl
  have hwake : tmrTaskWake k = (elapse k.listEntries { k with tickBase := k.now % 2 ^ 32 } (k.now - B) (some q)).map
      fun k => { k with phase := .processing } := by
    rw [tmrTaskWake, show k.listPtr = some q from h.listed.head]
    dsimp only
    rw [h.elapsed hl]
  have helapse := elapse_eq (k := { k with tickBase := k.now % 2 ^ 32 }) (fun t => (k.tmr t).remain) [] (q :: tl) k.listEntries
    (k.now - B) h.listed.linked h.listed.entries.ge
  refine ⟨_, hwake.trans (congrArg (Except.map _) helapse), ?_, fun _ => rfl, fun _ => rfl, rfl, rfl, rfl, rfl⟩
  have hle := h.le
  have hahead := h.ahead (due q) rfl
  have hq : due q = B + (k.tmr q).remain := h.times.1
  have hnodup := (nodup_cons.mp h.listed.linked.nodup).1
  refine ⟨h.listed.congr (fun _ _ => rfl) (fun _ _ => rfl) rfl rfl, ?_, rfl, le_rfl, h.ahead, fun d hd => ?_, h.near, by simp,
    fun _ => rfl⟩
  · refine h.times.shift ?_ fun t ht => ?_
    · show k.now + elapseList _ _ _ q = due q
      rw [elapseList_first (by omega), update_self]
      omega
    · show elapseList _ _ _ t = (k.tmr t).remain
      rw [elapseList_first (by omega), update_of_ne fun heq : t = q => hnodup (heq ▸ ht)]
  · obtain rfl : due q = d := Option.some.inj hd
    exact h.near q (mem_cons_self ..)

end RtosKernel.Ucos.Timers
