import RtosKernel.Ucos.Tmr

/-! # The timer list as a list

Linking and unlinking do what they should to the list whatever the ticks are that remain,
and say which ticks they leave. -/

namespace RtosKernel.Ucos.Timers
open Lib.Word
open Lib.DoublyLinked
open Lib.DeltaList

variable {T : Type} [dT : DecidableEq T] {k k' k'' : Kernel T} {t u p q : T} {v o : Option T} {r time : Nat} {s : TmrState}
  {l pre post : List T}

/-! ## Fields -/

/-- The fields of a timer that only `OSTmrCreate` and `OSTmrDel` write. -/
def Tmr.core (v : Tmr T) : Bool × Nat × Nat × Bool × Bool := (v.typ, v.dly, v.period, v.periodic, v.callback)

@[simp] theorem setNext_nextPtr : ((k.setNext t v).tmr u).nextPtr = if u = t then v else (k.tmr u).nextPtr := by
  by_cases h : u = t <;> simp [Kernel.setNext, Kernel.setTmr, h]

@[simp] theorem setNext_prevPtr : ((k.setNext t v).tmr u).prevPtr = (k.tmr u).prevPtr := by
  by_cases h : u = t <;> simp [Kernel.setNext, Kernel.setTmr, h]

@[simp] theorem setNext_remain : ((k.setNext t v).tmr u).remain = (k.tmr u).remain := by
  by_cases h : u = t <;> simp [Kernel.setNext, Kernel.setTmr, h]

@[simp] theorem setNext_state : ((k.setNext t v).tmr u).state = (k.tmr u).state := by
  by_cases h : u = t <;> simp [Kernel.setNext, Kernel.setTmr, h]

@[simp] theorem setNext_core : ((k.setNext t v).tmr u).core = (k.tmr u).core := by
  by_cases h : u = t <;> simp [Kernel.setNext, Kernel.setTmr, h, Tmr.core]

@[simp] theorem setPrev_nextPtr : ((k.setPrev t v).tmr u).nextPtr = (k.tmr u).nextPtr := by
  by_cases h : u = t <;> simp [Kernel.setPrev, Kernel.setTmr, h]

@[simp] theorem setPrev_prevPtr : ((k.setPrev t v).tmr u).prevPtr = if u = t then v else (k.tmr u).prevPtr := by
  by_cases h : u = t <;> simp [Kernel.setPrev, Kernel.setTmr, h]

@[simp] theorem setPrev_remain : ((k.setPrev t v).tmr u).remain = (k.tmr u).remain := by
  by_cases h : u = t <;> simp [Kernel.setPrev, Kernel.setTmr, h]

@[simp] theorem setPrev_state : ((k.setPrev t v).tmr u).state = (k.tmr u).state := by
  by_cases h : u = t <;> simp [Kernel.setPrev, Kernel.setTmr, h]

@[simp] theorem setPrev_core : ((k.setPrev t v).tmr u).core = (k.tmr u).core := by
  by_cases h : u = t <;> simp [Kernel.setPrev, Kernel.setTmr, h, Tmr.core]

@[simp] theorem setRemain_nextPtr : ((k.setRemain t r).tmr u).nextPtr = (k.tmr u).nextPtr := by
  by_cases h : u = t <;> simp [Kernel.setRemain, Kernel.setTmr, h]

@[simp] theorem setRemain_prevPtr : ((k.setRemain t r).tmr u).prevPtr = (k.tmr u).prevPtr := by
  by_cases h : u = t <;> simp [Kernel.setRemain, Kernel.setTmr, h]

@[simp] theorem setRemain_remain : ((k.setRemain t r).tmr u).remain = if u = t then r else (k.tmr u).remain := by
  by_cases h : u = t <;> simp [Kernel.setRemain, Kernel.setTmr, h]

@[simp] theorem setRemain_state : ((k.setRemain t r).tmr u).state = (k.tmr u).state := by
  by_cases h : u = t <;> simp [Kernel.setRemain, Kernel.setTmr, h]

@[simp] theorem setRemain_core : ((k.setRemain t r).tmr u).core = (k.tmr u).core := by
  by_cases h : u = t <;> simp [Kernel.setRemain, Kernel.setTmr, h, Tmr.core]

@[simp] theorem setState_nextPtr : ((k.setState t s).tmr u).nextPtr = (k.tmr u).nextPtr := by
  by_cases h : u = t <;> simp [Kernel.setState, Kernel.setTmr, h]

@[simp] theorem setState_prevPtr : ((k.setState t s).tmr u).prevPtr = (k.tmr u).prevPtr := by
  by_cases h : u = t <;> simp [Kernel.setState, Kernel.setTmr, h]

@[simp] theorem setState_remain : ((k.setState t s).tmr u).remain = (k.tmr u).remain := by
  by_cases h : u = t <;> simp [Kernel.setState, Kernel.setTmr, h]

@[simp] theorem setState_state : ((k.setState t s).tmr u).state = if u = t then s else (k.tmr u).state := by
  by_cases h : u = t <;> simp [Kernel.setState, Kernel.setTmr, h]

@[simp] theorem setState_core : ((k.setState t s).tmr u).core = (k.tmr u).core := by
  by_cases h : u = t <;> simp [Kernel.setState, Kernel.setTmr, h, Tmr.core]

omit dT in
theorem typ_eq_of_core (h : (k'.tmr t).core = (k.tmr u).core) : (k'.tmr t).typ = (k.tmr u).typ := congrArg Prod.fst h

@[simp] theorem setNext_typ : ((k.setNext t v).tmr u).typ = (k.tmr u).typ := typ_eq_of_core setNext_core

@[simp] theorem setPrev_typ : ((k.setPrev t v).tmr u).typ = (k.tmr u).typ := typ_eq_of_core setPrev_core

@[simp] theorem setRemain_typ : ((k.setRemain t r).tmr u).typ = (k.tmr u).typ := typ_eq_of_core setRemain_core

@[simp] theorem setState_typ : ((k.setState t s).tmr u).typ = (k.tmr u).typ := typ_eq_of_core setState_core

def Phase.signal : Phase T → Phase T
  | .waiting _ wakeAt => .waiting true wakeAt
  | phase => phase

omit dT in
theorem os_TmrCondSignal_eq : os_TmrCondSignal k = { k with phase := k.phase.signal } := by
  rw [os_TmrCondSignal]
  cases h : k.phase <;> simp [Phase.signal, ← h]

/-! ## Lists -/

/-- The timers `l` are linked in this order. -/
structure Listed (k : Kernel T) (l : List T) : Prop where
  linked : Linked (fun t => (k.tmr t).nextPtr) (fun t => (k.tmr t).prevPtr) l
  head : k.listPtr = l.head?
  entries : k.listEntries = l.length

/-- The ticks that remain after some ticks have been taken off the list. -/
def elapseList (remain : T → Nat) : Nat → List T → T → Nat
  | 0, _ => remain
  | _ + 1, [] => remain
  | elapsed + 1, t :: l =>
    if elapsed + 1 > remain t then elapseList (Function.update remain t 0) (elapsed + 1 - remain t) l
    else Function.update remain t (remain t - (elapsed + 1))

variable {remain : T → Nat}

theorem elapseList_of_notMem {elapsed : Nat} (h : t ∉ l) : elapseList remain elapsed l t = remain t := by
  induction l generalizing remain elapsed with
  | nil => cases elapsed <;> rfl
  | cons u l ih =>
    obtain ⟨htu, htl⟩ := List.ne_and_not_mem_of_not_mem_cons h
    cases elapsed with
    | zero => rfl
    | succ elapsed =>
      rw [elapseList]
      by_cases hlt : elapsed + 1 > remain u
      · rw [if_pos hlt, ih htl, Function.update_of_ne htu]
      · rw [if_neg hlt, Function.update_of_ne htu]

/-- All ticks that remain are others. -/
def Kernel.setRemains (k : Kernel T) (remain : T → Nat) : Kernel T :=
  { k with tmr := fun t => { k.tmr t with remain := remain t } }

section
omit dT

@[simp] theorem setRemains_nextPtr : ((k.setRemains remain).tmr t).nextPtr = (k.tmr t).nextPtr := rfl

@[simp] theorem setRemains_prevPtr : ((k.setRemains remain).tmr t).prevPtr = (k.tmr t).prevPtr := rfl

@[simp] theorem setRemains_remain : ((k.setRemains remain).tmr t).remain = remain t := rfl

@[simp] theorem setRemains_state : ((k.setRemains remain).tmr t).state = (k.tmr t).state := rfl

@[simp] theorem setRemains_core : ((k.setRemains remain).tmr t).core = (k.tmr t).core := rfl

end

theorem setRemain_eq : k.setRemain t r = k.setRemains (Function.update (fun u => (k.tmr u).remain) t r) := by
  rw [Kernel.setRemain, Kernel.setTmr, Kernel.setRemains]
  congr 1
  funext u
  by_cases h : u = t <;> simp [h]

theorem elapse_eq (remain : T → Nat) (pre : List T) :
    ∀ (l : List T) (fuel elapsed : Nat), Linked (fun t => (k.tmr t).nextPtr) (fun t => (k.tmr t).prevPtr) (pre ++ l) →
      l.length ≤ fuel →
      elapse fuel (k.setRemains remain) elapsed l.head? = .ok (k.setRemains (elapseList remain elapsed l)) := by
  intro l
  induction l generalizing remain pre with
  | nil =>
    intro fuel elapsed _ _
    cases elapsed <;> simp [elapse, elapseList]
  | cons t l ih =>
    intro fuel elapsed hl hfuel
    cases elapsed with
    | zero => simp [elapse, elapseList]
    | succ elapsed =>
      cases fuel with
      | zero => simp at hfuel
      | succ fuel =>
        have hnext : (k.tmr t).nextPtr = l.head? := hl.next pre t l rfl
        have hset : ∀ r, (k.setRemains remain).setRemain t r = k.setRemains (Function.update remain t r) := fun r => setRemain_eq
        have hrest := fun remain elapsed => ih remain (pre ++ [t]) fuel elapsed (by simpa using hl) (by simpa using hfuel)
        simp only [List.head?_cons, elapse, elapseList, hset]
        by_cases hlt : elapsed + 1 > remain t
        · rw [if_pos hlt, if_pos (show elapsed + 1 > ((k.setRemains remain).tmr t).remain from hlt)]
          exact (congrArg _ hnext).trans (hrest _ _)
        · rw [if_neg hlt, if_neg (show ¬ elapsed + 1 > ((k.setRemains remain).tmr t).remain from hlt)]
          rfl

/-- The list is now `l`, with other ticks that remain and another tick base, and the timer task has been
signalled or not. All else is as it was. -/
structure Change (k k' : Kernel T) (l : List T) (remain : T → Nat) (tickBase : Nat) (signal : Bool) : Prop where
  listed : Listed k' l
  remain : ∀ t, (k'.tmr t).remain = remain t
  tickBase : k'.tickBase = tickBase
  phase : k'.phase = if signal then k.phase.signal else k.phase
  state : ∀ t, (k'.tmr t).state = (k.tmr t).state
  core : ∀ t, (k'.tmr t).core = (k.tmr t).core
  now : k'.now = k.now
  startedAt : k'.startedAt = k.startedAt
  fired : k'.fired = k.fired

/-! ## `OS_TmrLink` -/

/-- The ticks that remain of some timers, taken together. -/
def behind (k : Kernel T) (l : List T) : Nat := (l.map fun t => (k.tmr t).remain).sum

/-- The ticks from the tick base on after which a timer expires that is linked. -/
def linkDelta (k : Kernel T) (p : T) (time : Nat) : Nat := sub32 (add32 time (k.tmr p).remain) k.tickBase

/-- What `OS_TmrLink` does to the list. -/
inductive Linking (k : Kernel T) (p : T) (time : Nat) : List T → Kernel T → Prop
  | only {k' : Kernel T} (h : Change k k' [p] (fun t => (k.tmr t).remain) time true) : Linking k p time [] k'
  | first {k' : Kernel T} {q : T} {l : List T} (hlt : linkDelta k p time < (k.tmr q).remain)
      (h : Change k k' (p :: q :: l)
        (fun t => if t = q then (k.tmr q).remain - linkDelta k p time else (k.tmr t).remain) time true) :
      Linking k p time (q :: l) k'
  | later {k' : Kernel T} {q : T} {pre post : List T} (hle : behind k (q :: pre) ≤ linkDelta k p time)
      (hlt : ∀ u ∈ post.head?, linkDelta k p time - behind k (q :: pre) < (k.tmr u).remain)
      (h : Change k k' (q :: pre ++ p :: post)
        (fun t =>
          if t = p then linkDelta k p time - behind k (q :: pre)
          else if post.head? = some t then sub32 (k.tmr t).remain (linkDelta k p time - behind k (q :: pre))
          else (k.tmr t).remain) k.tickBase false) :
      Linking k p time (q :: pre ++ post) k'

theorem os_TmrLink_some (h : k.listPtr = some q) : os_TmrLink k p time =
    if linkDelta k p time < (k.tmr q).remain ∧ (k.tmr q).prevPtr = none then
      .ok (os_TmrCondSignal { (((k.setRemain q ((k.tmr q).remain - linkDelta k p time)).setPrev p none).setNext p
        (some q)).setPrev q (some p) with listPtr := some p, listEntries := k.listEntries + 1, tickBase := time })
    else
      match walk (fun t => (k.tmr t).nextPtr) (fun t => (k.tmr t).remain) (k.listEntries + 1)
        (sub32 (linkDelta k p time) (k.tmr q).remain) q with
      | none => .error .endless
      | some place => linkAt { k with listEntries := k.listEntries + 1 } p place := by
  unfold os_TmrLink
  split
  · simp_all
  · obtain rfl : _ = q := Option.some.inj (‹k.listPtr = some _›.symm.trans h)
    rfl

theorem linkAt_some {p1 p2 : T} {delta : Nat} (h : (k.tmr p2).prevPtr = some p1) : linkAt k p (delta, q, some p2) =
    .ok (((((((k.setRemain p delta).setPrev p (some p1)).setNext p (some p2)).setRemain p2
      (sub32 ((((k.setRemain p delta).setPrev p (some p1)).setNext p (some p2)).tmr p2).remain delta)).setPrev p2
        (some p)).setNext p1 (some p))) := by
  rw [linkAt]
  simp only [h]

variable (pre) in
theorem linkAt_spec {last : T} (delta : Nat) (h : Listed k (pre ++ post)) (hp : p ∉ pre ++ post)
    (hlast : pre.getLast? = some last) :
    ∃ k', linkAt { k with listEntries := k.listEntries + 1 } p (delta, last, post.head?) = .ok k' ∧
      Change k k' (pre ++ p :: post)
        (fun t => if t = p then delta else if post.head? = some t then sub32 (k.tmr t).remain delta else (k.tmr t).remain)
        k.tickBase false := by
  have hlast' : ∀ y, pre.getLast? = some y ↔ y = last := fun y => by rw [hlast]; simp [eq_comm]
  have hne : ∀ y ∈ pre ++ post, y ≠ p := fun y hy heq => hp (heq ▸ hy)
  have hlastp : p ≠ last := (hne last (List.mem_append_left _ (List.mem_of_getLast? hlast))).symm
  have hhead : k.listPtr = (pre ++ p :: post).head? := by
    cases pre with
    | nil => simp at hlast
    | cons x pre => exact h.head
  have hentries : k.listEntries + 1 = (pre ++ p :: post).length := by
    rw [h.entries]
    simp
    omega
  cases post with
  | nil =>
    refine ⟨_, rfl, ⟨Linked.insert h.linked hp ?_ ?_ (fun y hy => ?_) (fun y hy => ?_), hhead, hentries⟩, fun t => ?_,
      rfl, rfl, fun t => by simp, fun t => by simp, rfl, rfl, rfl⟩
    · simp [hlastp]
    · simp [hlast]
    · simp [hlast', hne y hy]
    · simp [hne y hy]
    · simp
  | cons p2 post =>
    have hprev2 : (k.tmr p2).prevPtr = some last := (h.linked.prev pre p2 post rfl).trans hlast
    have hp2 : p2 ≠ p := hne p2 (by simp)
    refine ⟨_, linkAt_some hprev2, ⟨Linked.insert h.linked hp ?_ ?_ (fun y hy => ?_) (fun y hy => ?_), hhead, hentries⟩, fun t => ?_,
      rfl, rfl, fun t => by simp, fun t => by simp, rfl, rfl, rfl⟩
    · simp [hlastp]
    · simp [hlast, hp2.symm]
    · simp [hlast', hne y hy]
    · simp [hne y hy, eq_comm]
    · by_cases ht : t = p
      · subst ht
        simp [hp2.symm]
      · by_cases ht2 : t = p2
        · subst ht2
          simp [hp2]
        · simp [ht, ht2, Ne.symm ht2]

variable (time) in
theorem os_TmrLink_spec (h : Listed k l) (hp : p ∉ l) : ∃ k', os_TmrLink k p time = .ok k' ∧ Linking k p time l k' := by
  cases l with
  | nil =>
    have hhead : k.listPtr = none := h.head
    refine ⟨_, by rw [os_TmrLink, hhead], .only ?_⟩
    rw [os_TmrCondSignal_eq]
    refine ⟨⟨Linked.insert (l := []) (r := []) h.linked hp ?_ ?_ (by simp) (by simp), rfl, rfl⟩,
      fun t => by simp, rfl, rfl, fun t => by simp, fun t => by simp, rfl, rfl, rfl⟩
    · simp
    · simp
  | cons q tl =>
    have hprev : (k.tmr q).prevPtr = none := h.linked.prev_head
    have hqp : q ≠ p := fun heq => hp (by simp [heq])
    rw [os_TmrLink_some h.head]
    by_cases hlt : linkDelta k p time < (k.tmr q).remain
    · refine ⟨_, if_pos ⟨hlt, hprev⟩, .first hlt ?_⟩
      rw [os_TmrCondSignal_eq]
      refine ⟨⟨Linked.insert (l := []) h.linked hp ?_ ?_ (fun y hy => ?_) (fun y hy => ?_), rfl, ?_⟩,
        fun t => ?_, rfl, rfl, fun t => by simp, fun t => by simp, rfl, rfl, rfl⟩
      · simp
      · simp [Ne.symm hqp]
      · have hy : y ≠ p := fun heq => hp (heq ▸ hy)
        simp [hy]
      · have hy : y ≠ p := fun heq => hp (heq ▸ hy)
        simp [hy, eq_comm]
      · simp [h.entries]
      · simp
    · have hsub : sub32 (linkDelta k p time) (k.tmr q).remain = linkDelta k p time - (k.tmr q).remain :=
        sub32_of_le (Nat.not_lt.mp hlt) (sub32_lt ..)
      obtain ⟨mid, rest, last, rfl, hlast, hmid, hrest, hwalk⟩ := walk_eq (d := fun t => (k.tmr t).remain) tl [] q
        (k.listEntries + 1) (linkDelta k p time - (k.tmr q).remain) h.linked (by simp [h.entries]; omega)
      replace hmid : behind k mid ≤ linkDelta k p time - (k.tmr q).remain := hmid
      have hbehind : behind k (q :: mid) = (k.tmr q).remain + behind k mid := by simp [behind]
      have hdelta : linkDelta k p time - (k.tmr q).remain - behind k mid = linkDelta k p time - behind k (q :: mid) := by
        omega
      rw [if_neg fun hpos => hlt hpos.1, hsub, hwalk]
      obtain ⟨k', heq, hchange⟩ := linkAt_spec (q :: mid) (linkDelta k p time - behind k (q :: mid)) h hp hlast
      exact ⟨k', hdelta ▸ heq, .later (by omega) (hdelta ▸ hrest) hchange⟩

/-! ## `OS_TmrUnlink` -/

/-- The ticks that remain after the first timer has given its own to the second. -/
def giveBack (k : Kernel T) (p : T) (o : Option T) : T → Nat :=
  fun t => if o = some t then add32 (k.tmr t).remain (k.tmr p).remain else (k.tmr t).remain

/-- The ticks that remain after the first timer has left and the elapsed ticks have been taken off. -/
def unlinkRemain (k : Kernel T) (p q : T) (l : List T) (time : Nat) : T → Nat :=
  elapseList (giveBack k p (some q)) (sub32 time k.tickBase) (q :: l)

def reload (k : Kernel T) (p q : T) (l : List T) (time : Nat) : Bool :=
  unlinkRemain k p q l time q ≠ (k.tmr p).remain ∨ unlinkRemain k p q l time q = 0

/-- What `OS_TmrUnlink` does to the list. -/
inductive Unlinking (k : Kernel T) (p : T) (time : Nat) : List T → Kernel T → Prop
  | only {k' : Kernel T} (h : Change k k' [] (fun t => if t = p then 0 else (k.tmr t).remain) time true) :
      Unlinking k p time [p] k'
  | first {k' : Kernel T} {q : T} {l : List T}
      (h : Change k k' (q :: l) (fun t => if t = p then 0 else unlinkRemain k p q l time t)
        (if reload k p q l time then time else k.tickBase) (reload k p q l time)) : Unlinking k p time (p :: q :: l) k'
  | later {k' : Kernel T} {x : T} {pre post : List T}
      (h : Change k k' (x :: pre ++ post) (fun t => if t = p then 0 else giveBack k p post.head? t) k.tickBase false) :
      Unlinking k p time (x :: pre ++ p :: post) k'

variable (time) in
theorem unlinkEnd_spec (signal : Bool) (h : Listed k (q :: l)) (hp : p ∉ q :: l)
    (hsignal : signal = true ↔ (k.tmr q).remain ≠ (k.tmr p).remain ∨ (k.tmr q).remain = 0) :
    Change k (unlinkEnd k p q time) (q :: l) (fun t => if t = p then 0 else (k.tmr t).remain)
      (if signal then time else k.tickBase) signal := by
  have hne : ∀ y ∈ q :: l, y ≠ p := fun y hy heq => hp (heq ▸ hy)
  cases signal with
  | true =>
    have heq : unlinkEnd k p q time = ((os_TmrCondSignal { k with tickBase := time }).setNext p none).setRemain p 0 := by
      exact congrArg (fun k : Kernel T => (k.setNext p none).setRemain p 0) (if_pos (hsignal.mp rfl))
    rw [heq, os_TmrCondSignal_eq]
    refine ⟨⟨h.linked.congr (fun y hy => ?_) (fun y hy => ?_), h.head, h.entries⟩, fun t => ?_, rfl, rfl, fun t => ?_,
      fun t => ?_, rfl, rfl, rfl⟩
    · simp [hne y hy]
    all_goals simp
  | false =>
    have heq : unlinkEnd k p q time = (k.setNext p none).setRemain p 0 := by
      exact congrArg (fun k : Kernel T => (k.setNext p none).setRemain p 0) (if_neg fun h => Bool.false_ne_true (hsignal.mpr h))
    rw [heq]
    refine ⟨⟨h.linked.congr (fun y hy => ?_) (fun y hy => ?_), h.head, h.entries⟩, fun t => ?_, rfl, rfl, fun t => ?_,
      fun t => ?_, rfl, rfl, rfl⟩
    · simp [hne y hy]
    all_goals simp

variable (time) in
theorem unlinkFirst_spec (h : Listed k (p :: q :: l)) : ∃ k', unlinkFirst k p q time = .ok k' ∧
    Change k k' (q :: l) (fun t => if t = p then 0 else unlinkRemain k p q l time t)
      (if reload k p q l time then time else k.tickBase) (reload k p q l time) := by
  obtain ⟨hp, hnodup⟩ := List.nodup_cons.mp h.linked.nodup
  have hne : ∀ y ∈ q :: l, y ≠ p := fun y hy heq => hp (heq ▸ hy)
  have hpq : p ≠ q := (hne q (List.mem_cons_self ..)).symm
  -- the list without its first timer, before the elapsed ticks are taken off
  let k₁ : Kernel T := { ({ k with listEntries := k.listEntries - 1 } : Kernel T).setPrev q none with listPtr := some q }
  have hlinked : Linked (fun t => (k₁.tmr t).nextPtr) (fun t => (k₁.tmr t).prevPtr) (q :: l) := by
    refine Linked.remove (l := []) h.linked (fun y hy => ?_) (fun y hy => ?_)
    · simp [k₁]
    · simp [k₁, eq_comm]
  have hremain : k₁.setRemain q (add32 (k₁.tmr q).remain (k₁.tmr p).remain) = k₁.setRemains (giveBack k p (some q)) := by
    rw [setRemain_eq]
    congr 1
    funext t
    by_cases ht : t = q
    · simp [giveBack, ht, k₁]
    · simp [giveBack, ht, Ne.symm ht, k₁]
  have hentries : k.listEntries - 1 = (q :: l).length := by simp [h.entries]
  have helapse : elapse (k.listEntries - 1) (k₁.setRemain q (add32 (k₁.tmr q).remain (k₁.tmr p).remain))
      (sub32 time k.tickBase) (some q) = .ok (k₁.setRemains (unlinkRemain k p q l time)) := by
    rw [hremain]
    exact elapse_eq _ [] (q :: l) _ _ hlinked hentries.ge
  have hremain_p : unlinkRemain k p q l time p = (k.tmr p).remain := by
    rw [unlinkRemain, elapseList_of_notMem hp]
    simp [giveBack, hpq.symm]
  refine ⟨_, congrArg (Except.map _) helapse, ?_⟩
  have hend := unlinkEnd_spec (k := k₁.setRemains (unlinkRemain k p q l time)) (p := p) time
    (reload k p q l time) ⟨hlinked, rfl, hentries⟩ hp (by simp [reload, hremain_p])
  exact ⟨hend.listed, hend.remain, hend.tickBase, hend.phase, fun t => (hend.state t).trans (by simp [k₁]),
    fun t => (hend.core t).trans (by simp [k₁]), hend.now, hend.startedAt, hend.fired⟩

theorem unlinkLater_spec {p1 : T} (h : Listed k (pre ++ p :: post)) (hlast : pre.getLast? = some p1) :
    Change k (unlinkLater k p p1 post.head?) (pre ++ post) (fun t => if t = p then 0 else giveBack k p post.head? t)
      k.tickBase false := by
  have hlast' : ∀ y, pre.getLast? = some y ↔ y = p1 := fun y => by rw [hlast]; simp [eq_comm]
  obtain ⟨hmem, hnodup⟩ := List.nodup_cons.mp (List.nodup_middle.mp h.linked.nodup)
  have hne : ∀ y ∈ pre ++ post, y ≠ p := fun y hy heq => hmem (heq ▸ hy)
  have hhead : k.listPtr = (pre ++ post).head? := by
    cases pre with
    | nil => simp at hlast
    | cons x pre => exact h.head
  have hentries : k.listEntries - 1 = (pre ++ post).length := by
    rw [h.entries]
    simp
  cases post with
  | nil =>
    refine ⟨⟨Linked.remove h.linked (fun y hy => ?_) (fun y hy => ?_), hhead, hentries⟩, fun t => ?_, rfl, rfl,
      fun t => by simp [unlinkLater], fun t => by simp [unlinkLater], rfl, rfl, rfl⟩
    · simp [unlinkLater, hne y hy, hlast']
    · simp [unlinkLater, hne y hy]
    · simp [unlinkLater, giveBack]
  | cons p2 post =>
    have hp2 : p2 ≠ p := hne p2 (by simp)
    refine ⟨⟨Linked.remove h.linked (fun y hy => ?_) (fun y hy => ?_), hhead, hentries⟩, fun t => ?_, rfl, rfl,
      fun t => by simp [unlinkLater], fun t => by simp [unlinkLater], rfl, rfl, rfl⟩
    · simp [unlinkLater, hne y hy, hlast']
    · simp [unlinkLater, hne y hy, hlast, eq_comm]
    · by_cases ht : t = p2
      · simp [unlinkLater, giveBack, ht, hp2]
      · simp [unlinkLater, giveBack, ht, Ne.symm ht]

variable (time) in
theorem os_TmrUnlink_spec (h : Listed k l) (hp : p ∈ l) :
    ∃ k', os_TmrUnlink k p time = .ok k' ∧ Unlinking k p time l k' := by
  obtain ⟨pre, post, rfl⟩ := List.append_of_mem hp
  have hprev : (k.tmr p).prevPtr = pre.getLast? := h.linked.prev pre p post rfl
  have hnext : (k.tmr p).nextPtr = post.head? := h.linked.next pre p post rfl
  rw [os_TmrUnlink, hprev, hnext]
  cases pre with
  | nil =>
    cases post with
    | nil =>
      refine ⟨_, rfl, .only ?_⟩
      rw [os_TmrCondSignal_eq]
      exact ⟨⟨Linked.remove (l := []) h.linked (by simp) (by simp), rfl, rfl⟩, fun t => by simp, rfl, rfl,
        fun t => by simp, fun t => by simp, rfl, rfl, rfl⟩
    | cons q post =>
      obtain ⟨k', heq, hchange⟩ := unlinkFirst_spec time h
      exact ⟨k', heq, .first hchange⟩
  | cons x pre =>
    obtain ⟨p1, hlast⟩ : ∃ p1, (x :: pre).getLast? = some p1 := ⟨_, List.getLast?_eq_getLast_of_ne_nil (List.cons_ne_nil _ _)⟩
    rw [hlast]
    exact ⟨_, rfl, .later (unlinkLater_spec h hlast)⟩

omit dT in
theorem Change.callback {tickBase : Nat} {signal : Bool} (h : Change k k' l remain tickBase signal) :
    k'.phase = .callback t ↔ k.phase = .callback t := by
  rw [h.phase]
  cases signal with
  | false => exact Iff.rfl
  | true => cases hphase : k.phase <;> simp [Phase.signal]

theorem Linking.change (h : Linking k p time l k') :
    ∃ l' remain tickBase signal, Change k k' l' remain tickBase signal ∧ ∀ t, t ∈ l' ↔ t = p ∨ t ∈ l := by
  cases h with
  | only h => exact ⟨_, _, _, _, h, by simp⟩
  | first _ h => exact ⟨_, _, _, _, h, by simp⟩
  | later _ _ h => exact ⟨_, _, _, _, h, fun _ => mem_insert⟩

theorem Unlinking.change (h : Unlinking k p time l k') (hl : l.Nodup) :
    ∃ l' remain tickBase signal, Change k k' l' remain tickBase signal ∧ ∀ t, t ∈ l' ↔ t ≠ p ∧ t ∈ l := by
  cases h with
  | only h => exact ⟨_, _, _, _, h, fun t => by simp⟩
  | first h => exact ⟨_, _, _, _, h, fun _ => mem_remove (l := []) hl⟩
  | later h => exact ⟨_, _, _, _, h, fun _ => mem_remove hl⟩

end RtosKernel.Ucos.Timers
