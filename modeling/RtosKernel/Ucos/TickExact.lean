import RtosKernel.Ucos.Tick

/-! # The tick list is exact

The tasks of the list are those that wait, in the order of their times, those with the same time in the order in
which they began to wait. -/
namespace RtosKernel.Ucos.Tick
open Lib.Word List Option
open Lib.Runs
open Lib.DoublyLinked
open Lib.DeltaQueue
open Lib.DeltaList

variable {T : Type} [dT : DecidableEq T] {dyn : Bool} {k k' : Kernel T} {t p q : T} {B time ticks : Nat} {L : List (T × Nat)}

/-! ## Fields -/

section Fields
variable {u : T} {v : Option T} {r e step : Nat}

section
omit dT

@[simp] theorem newStep_tickNextPtr : (newStep dyn k e step).tickNextPtr = k.tickNextPtr := by cases dyn <;> rfl
@[simp] theorem newStep_tickPrevPtr : (newStep dyn k e step).tickPrevPtr = k.tickPrevPtr := by cases dyn <;> rfl
@[simp] theorem newStep_tickRemain : (newStep dyn k e step).tickRemain = k.tickRemain := by cases dyn <;> rfl
@[simp] theorem newStep_tcbPtr : (newStep dyn k e step).tcbPtr = k.tcbPtr := by cases dyn <;> rfl
@[simp] theorem newStep_nbrEntries : (newStep dyn k e step).nbrEntries = k.nbrEntries := by cases dyn <;> rfl
@[simp] theorem newStep_now : (newStep dyn k e step).now = k.now := by cases dyn <;> rfl
@[simp] theorem newStep_left : (newStep dyn k e step).left = k.left := by cases dyn <;> rfl

theorem newStep_tickCtrStep (h : dyn = true) : (newStep dyn k e step).tickCtrStep = step := by
  rw [h]
  rfl

end

@[simp] theorem setNext_tickNextPtr : (k.setNext t v).tickNextPtr u = if u = t then v else k.tickNextPtr u :=
  Function.update_apply ..

@[simp] theorem setPrev_tickPrevPtr : (k.setPrev t v).tickPrevPtr u = if u = t then v else k.tickPrevPtr u :=
  Function.update_apply ..

@[simp] theorem setRemain_tickRemain : (k.setRemain t r).tickRemain u = if u = t then r else k.tickRemain u :=
  Function.update_apply ..

@[simp] theorem setNext_tickPrevPtr : (k.setNext t v).tickPrevPtr = k.tickPrevPtr := rfl

@[simp] theorem setNext_tickRemain : (k.setNext t v).tickRemain = k.tickRemain := rfl

@[simp] theorem setPrev_tickNextPtr : (k.setPrev t v).tickNextPtr = k.tickNextPtr := rfl

@[simp] theorem setPrev_tickRemain : (k.setPrev t v).tickRemain = k.tickRemain := rfl

@[simp] theorem setRemain_tickNextPtr : (k.setRemain t r).tickNextPtr = k.tickNextPtr := rfl

@[simp] theorem setRemain_tickPrevPtr : (k.setRemain t r).tickPrevPtr = k.tickPrevPtr := rfl

end Fields

/-! ## The clock -/

/-- `OSTickCtr` is the time `B`, and with a dynamic tick the time has gone on since then. -/
structure Clock (dyn : Bool) (k : Kernel T) (B : Nat) : Prop where
  tickCtr : k.tickCtr = B % 2 ^ 32
  dynamic : dyn = true → B + k.dynCount = k.now
  periodic : dyn = false → B = k.now

section
omit dT

theorem Clock.le (h : Clock dyn k B) : B ≤ k.now := by
  cases dyn with
  | true => exact h.dynamic rfl ▸ Nat.le_add_right ..
  | false => exact (h.periodic rfl).le

theorem Clock.elapsed (h : Clock dyn k B) : os_DynTickGet dyn k = (k.now - B) % 2 ^ 32 := by
  rw [os_DynTickGet]
  cases dyn with
  | true =>
    have := h.dynamic rfl
    rw [if_pos rfl]
    omega
  | false =>
    have := h.periodic rfl
    rw [if_neg Bool.false_ne_true]
    omega

theorem Clock.systemTime (h : Clock dyn k B) : add32 k.tickCtr (os_DynTickGet dyn k) = k.now % 2 ^ 32 := by
  have := h.le
  rw [h.elapsed, h.tickCtr, add32]
  omega

theorem Clock.newStep (step : Nat) (h : Clock dyn k B) (hctr : k'.tickCtr = k.tickCtr) (hnow : k'.now = k.now) :
    Clock dyn (newStep dyn k' (os_DynTickGet dyn k) step) k.now := by
  have htime := h.systemTime
  cases dyn with
  | true =>
    refine ⟨?_, fun _ => hnow.symm, nofun⟩
    show (if _ then _ else k'.tickCtr) = _
    rw [hctr, htime]
    by_cases hzero : os_DynTickGet true k = 0
    · rw [if_neg (not_not.mpr hzero), ← htime, hzero, add32, Nat.add_zero, h.tickCtr, Nat.mod_mod]
    · rw [if_pos hzero]
  | false => exact ⟨by rw [← h.periodic rfl]; exact hctr.trans h.tickCtr, nofun, fun _ => hnow.symm⟩

theorem Clock.congr (h : Clock dyn k B) (hctr : k'.tickCtr = k.tickCtr) (hcount : k'.dynCount = k.dynCount)
    (hnow : k'.now = k.now) : Clock dyn k' B := by
  refine ⟨hctr.trans h.tickCtr, fun hdyn => ?_, fun hdyn => ?_⟩
  · rw [hcount, hnow]
    exact h.dynamic hdyn
  · rw [hnow]
    exact h.periodic hdyn

end

/-- The tasks `L` wait for their times. -/
structure Holds (dyn : Bool) (k : Kernel T) (L : List (T × Nat)) (B : Nat) : Prop where
  linked : Linked k.tickNextPtr k.tickPrevPtr (L.map Prod.fst)
  head : k.tcbPtr = (L.map Prod.fst).head?
  entries : k.nbrEntries = L.length
  out : ∀ t, t ∉ L.map Prod.fst → k.tickPrevPtr t = none
  times : Times (fun p => k.tickRemain p.1) Prod.snd B L
  clock : Clock dyn k B
  step : dyn = true → k.tickCtrStep = (L.head?.map fun p => k.tickRemain p.1).getD 0
  first : ∀ p ∈ L.head?, B < p.2 ∧ p.2 < B + 2 ^ 32
  ahead : ∀ p ∈ L.head?, k.now ≤ p.2
  near : ∀ p ∈ L, p.2 < k.now + 2 ^ 32

section
omit dT

theorem Holds.listed (h : Holds dyn k L B) : k.Listed t ↔ t ∈ L.map Prod.fst := by
  refine ⟨fun hlisted => ?_, fun ht => ?_⟩
  · rcases hlisted with hhead | hprev
    · exact List.mem_of_mem_head? (h.head.symm.trans hhead)
    · exact by_contra fun ht => hprev (h.out t ht)
  · by_cases hprev : k.tickPrevPtr t = none
    · obtain ⟨post, heq⟩ := h.linked.eq_head ht hprev
      exact .inl (by rw [h.head, heq]; rfl)
    · exact .inr hprev

theorem Holds.elapsed (h : Holds dyn k L B) (hL : L ≠ []) : os_DynTickGet dyn k = k.now - B := by
  obtain ⟨p, tl, rfl⟩ := exists_cons_of_ne_nil hL
  have hfirst := h.first p rfl
  have hahead := h.ahead p rfl
  rw [h.clock.elapsed]
  omega

theorem Holds.of_now {L' : List (T × Nat)} {B' : Nat} (hnow : k'.now = k.now)
    (linked : Linked k'.tickNextPtr k'.tickPrevPtr (L'.map Prod.fst)) (head : k'.tcbPtr = (L'.map Prod.fst).head?)
    (entries : k'.nbrEntries = L'.length) (out : ∀ t, t ∉ L'.map Prod.fst → k'.tickPrevPtr t = none)
    (times : Times (fun p => k'.tickRemain p.1) Prod.snd B' L') (clock : Clock dyn k' B')
    (step : dyn = true → k'.tickCtrStep = (L'.head?.map fun p => k'.tickRemain p.1).getD 0)
    (first : ∀ p ∈ L'.head?, B' < p.2 ∧ p.2 < B' + 2 ^ 32) (ahead : ∀ p ∈ L'.head?, k.now ≤ p.2)
    (near : ∀ p ∈ L', p.2 < k.now + 2 ^ 32) : Holds dyn k' L' B' :=
  ⟨linked, head, entries, out, times, clock, step, first, hnow ▸ ahead, hnow ▸ near⟩

theorem ne_of_notMem (h : t ∉ L.map Prod.fst) : ∀ x ∈ L, x.1 ≠ t := fun _ hx heq => h (heq ▸ List.mem_map_of_mem hx)

end

/-! ## Insertion -/

def due (x : T × Nat) : Int := x.2

/-- The task waits too, behind those with the same time. -/
def Inserts (dyn : Bool) (k : Kernel T) (L : List (T × Nat)) (p : T) (time : Nat) (k' : Kernel T) : Prop :=
  (∃ B, Holds dyn k' (insertBy due (p, k.now + time) L) B) ∧ k'.now = k.now ∧ k'.left = k.left

theorem Holds.insert_nil (h : Holds dyn k [] B) (h0 : 0 < time) (hlt : time < 2 ^ 32) :
    Inserts dyn k [] p time
      { newStep dyn { ((k.setRemain p time).setNext p none).setPrev p none with tcbPtr := some p } (os_DynTickGet dyn k) time with
        nbrEntries := 1 } := by
  have hclock : Clock dyn (newStep dyn { ((k.setRemain p time).setNext p none).setPrev p none with tcbPtr := some p }
    (os_DynTickGet dyn k) time) k.now := h.clock.newStep _ rfl rfl
  have hone : ∀ x, x = (p, k.now + time) → k.now < x.2 ∧ x.2 < k.now + 2 ^ 32 := by
    rintro x rfl
    show k.now < k.now + time ∧ k.now + time < k.now + 2 ^ 32
    omega
  refine ⟨⟨k.now, .of_now newStep_now (Linked.insert (l := []) (r := []) h.linked (by simp) ?_ ?_ (by simp) (by simp)) ?_ rfl
    (fun t ht => ?_) ⟨?_, trivial⟩ ⟨hclock.tickCtr, hclock.dynamic, hclock.periodic⟩ (fun hdyn => ?_)
    (fun x hx => hone x (some.inj hx).symm) (fun x hx => (hone x (some.inj hx).symm).1.le)
    fun x hx => (hone x (mem_singleton.mp hx)).2⟩, newStep_now, newStep_left⟩
  · simp
  · simp
  · simp
  · have hne : t ≠ p := by simpa using ht
    simp [hne, h.out t (by simp)]
  · simp
  · simp [newStep_tickCtrStep hdyn]

variable {tl : List (T × Nat)}

theorem Holds.insert_first {d : Nat} (h : Holds dyn k ((q, d) :: tl) B) (hp : p ∉ ((q, d) :: tl).map Prod.fst)
    (h0 : 0 < time) (hlt : k.now + time < d) :
    Inserts dyn k ((q, d) :: tl) p time (newStep dyn { (((((({ k with nbrEntries := k.nbrEntries + 1 } : Kernel T).setRemain p
      time).setRemain q (sub32 (k.tickRemain q) (os_DynTickGet dyn k) - time)).setPrev p none).setNext p (some q)).setPrev q (some p))
        with tcbPtr := some p } (os_DynTickGet dyn k) time) := by
  have hqp : q ≠ p := fun heq => hp (by simp [heq])
  have hnear : d < k.now + 2 ^ 32 := h.near (q, d) (mem_cons_self ..)
  obtain ⟨hq, htl⟩ := h.times
  replace hq : d = B + k.tickRemain q := hq
  have hle := h.clock.le
  have hremain : sub32 (k.tickRemain q) (os_DynTickGet dyn k) = d - k.now := by
    have hfirst := h.first (q, d) rfl
    rw [h.elapsed (cons_ne_nil _ _), sub32_of_le] <;> omega
  have hqtl : ∀ x ∈ tl, x.1 ≠ q := ne_of_notMem (nodup_cons.mp h.linked.nodup).1
  have hptl : ∀ x ∈ tl, x.1 ≠ p := ne_of_notMem fun hmem => hp (mem_cons_of_mem _ hmem)
  have hins : insertBy due (p, k.now + time) ((q, d) :: tl) = (p, k.now + time) :: (q, d) :: tl :=
    insertBy_cons_of_lt (Int.ofNat_lt.mpr hlt)
  have hhead : ∀ x ∈ ((p, k.now + time) :: (q, d) :: tl).head?, k.now < x.2 ∧ x.2 < k.now + 2 ^ 32 := by
    intro x hx
    obtain rfl := some.inj hx
    show k.now < k.now + time ∧ k.now + time < k.now + 2 ^ 32
    omega
  rw [hremain, Inserts, hins]
  refine ⟨⟨k.now, .of_now newStep_now (Linked.insert (l := []) h.linked hp ?_ ?_ (fun y hy => ?_) (fun y hy => ?_)) ?_ ?_
    (fun t ht => ?_) ⟨?_, ?_, ?_⟩ (h.clock.newStep _ rfl rfl) (fun hdyn => ?_) hhead (fun x hx => (hhead x hx).1.le) fun x hx => ?_⟩,
    newStep_now, newStep_left⟩
  · simp
  · simp [hqp.symm]
  · have hy : y ≠ p := fun heq => hp (heq ▸ hy)
    simp [hy]
  · have hy : y ≠ p := fun heq => hp (heq ▸ hy)
    simp [hy, eq_comm]
  · simp
  · rw [newStep_nbrEntries]
    exact congrArg (· + 1) h.entries
  · simp only [map_cons, mem_cons, not_or] at ht
    simp [ht.1, ht.2.1, h.out t (by simp [ht.2.1, ht.2.2])]
  · simp [hqp.symm]
  · simp
    omega
  · exact htl.congr (fun x hx => by simp [hqtl x hx, hptl x hx]) fun _ _ => rfl
  · simp [newStep_tickCtrStep hdyn, hqp.symm]
  · rcases mem_cons.mp hx with rfl | hx
    · exact (hhead _ rfl).2
    · exact h.near x hx

theorem insertAt_some {tcb1 tcb2 : T} {delta : Nat} (h : k.tickPrevPtr tcb2 = some tcb1) : insertAt k p (delta, q, some tcb2) =
    .ok (((((((k.setRemain p delta).setPrev p (some tcb1)).setNext p (some tcb2)).setRemain tcb2
      (sub32 ((((k.setRemain p delta).setPrev p (some tcb1)).setNext p (some tcb2)).tickRemain tcb2) delta)).setPrev tcb2
        (some p)).setNext tcb1 (some p))) := by
  rw [insertAt]
  simp only [h]

/-- What the end of `OS_TickListInsert` writes. -/
structure InsertedAt (k k' : Kernel T) (p last : T) (tcb2 : Option T) (delta : Nat) : Prop where
  next : ∀ t, k'.tickNextPtr t = if t = last then some p else if t = p then tcb2 else k.tickNextPtr t
  prev : ∀ t, k'.tickPrevPtr t = if tcb2 = some t then some p else if t = p then some last else k.tickPrevPtr t
  remain : ∀ t, k'.tickRemain t = if t = p then delta else if tcb2 = some t then sub32 (k.tickRemain t) delta else k.tickRemain t
  tcbPtr : k'.tcbPtr = k.tcbPtr
  nbrEntries : k'.nbrEntries = k.nbrEntries
  tickCtr : k'.tickCtr = k.tickCtr
  tickCtrStep : k'.tickCtrStep = k.tickCtrStep
  dynCount : k'.dynCount = k.dynCount
  now : k'.now = k.now
  left : k'.left = k.left

theorem insertAt_spec (last : T) (tcb2 : Option T) (delta : Nat) (hprev : ∀ t, tcb2 = some t → k.tickPrevPtr t = some last)
    (hp : tcb2 ≠ some p) : ∃ k', insertAt k p (delta, last, tcb2) = .ok k' ∧ InsertedAt k k' p last tcb2 delta := by
  cases tcb2 with
  | none => exact ⟨_, rfl, fun t => by simp, fun t => by simp, fun t => by simp, rfl, rfl, rfl, rfl, rfl, rfl, rfl⟩
  | some q =>
    have hqp : q ≠ p := fun heq => hp (by rw [heq])
    refine ⟨_, insertAt_some (hprev q rfl), fun t => by simp, fun t => by simp [eq_comm], fun t => ?_, rfl, rfl, rfl, rfl, rfl, rfl, rfl⟩
    by_cases ht : t = q
    · simp [ht, hqp]
    · simp [ht, Ne.symm ht]

variable {pre post : List (T × Nat)}

theorem Holds.insert_later {k' : Kernel T} {last : T} {delta : Nat} {x : T × Nat}
    (h : Holds dyn k (x :: pre ++ post) B) (hp : p ∉ (x :: pre ++ post).map Prod.fst)
    (hlast : ((x :: pre).map Prod.fst).getLast? = some last) (hlt : time < 2 ^ 32)
    (hdelta : k.now + time = B + ((x :: pre).map fun y => k.tickRemain y.1).sum + delta)
    (hpost : ∀ y ∈ post.head?, delta < k.tickRemain y.1)
    (hk' : InsertedAt { k with nbrEntries := k.nbrEntries + 1 } k' p last (post.map Prod.fst).head? delta) :
    Inserts dyn k (x :: pre ++ post) p time k' := by
  obtain ⟨hpre, hrest⟩ := times_append.mp h.times
  have hne : ∀ t ∈ (x :: pre ++ post).map Prod.fst, t ≠ p := fun t ht heq => hp (heq ▸ ht)
  have hnodup : ((x :: pre).map Prod.fst ++ post.map Prod.fst).Nodup := map_append (f := Prod.fst) ▸ h.linked.nodup
  have hbehind : ∀ y ∈ post.head?, y.2 = B + ((x :: pre).map fun y => k.tickRemain y.1).sum + k.tickRemain y.1 := by
    intro y hy
    obtain ⟨tl, rfl⟩ : ∃ tl, post = y :: tl := ⟨post.tail, List.eq_cons_of_mem_head? hy⟩
    exact hrest.1
  have hplace : insertBy due (p, k.now + time) (x :: pre ++ post) = x :: pre ++ (p, k.now + time) :: post := by
    refine insertBy_append (fun y hy => ?_) fun y hy => ?_
    · have hsum := hpre.le_sum y hy
      show (y.2 : Int) ≤ ((k.now + time : Nat) : Int)
      omega
    · have htime := hbehind y hy
      have hlty := hpost y hy
      show ((k.now + time : Nat) : Int) < (y.2 : Int)
      omega
  have hlast' : ∀ t, ((x :: pre).map Prod.fst).getLast? = some t ↔ t = last := fun t => by rw [hlast]; simp [eq_comm]
  -- the first of the others has given the new one its ticks, and all the rest have theirs
  have hsame : ∀ y ∈ x :: pre ++ post, (post.map Prod.fst).head? ≠ some y.1 → k'.tickRemain y.1 = k.tickRemain y.1 := by
    intro y hy hnot
    rw [hk'.remain, if_neg (hne _ (List.mem_map_of_mem hy)), if_neg hnot]
  have hself : k'.tickRemain p = delta := by rw [hk'.remain, if_pos rfl]
  rw [Inserts, hplace]
  refine ⟨⟨B, Holds.of_now (k := k) hk'.now ?_ ?_ ?_ (fun t ht => ?_) (h.times.insert ?_ (fun y hy => ?_) (fun y hy => ?_)
    (fun y hy => ?_) fun _ _ => rfl) (h.clock.congr hk'.tickCtr hk'.dynCount hk'.now) (fun hdyn => ?_) h.first h.ahead
    fun y hy => ?_⟩, hk'.now, hk'.left⟩
  · rw [map_append, map_cons]
    have hlinked := h.linked
    rw [map_append] at hlinked hne hp
    have hlastp : p ≠ last := (hne last (mem_append_left _ (List.mem_of_getLast? hlast))).symm
    refine hlinked.insert hp ?_ ?_ (fun y hy => ?_) fun y hy => ?_
    · rw [hk'.next, if_neg hlastp, if_pos rfl]
    · have hnot : (post.map Prod.fst).head? ≠ some p := fun heq => hp (mem_append_right _ (List.mem_of_mem_head? heq))
      rw [hk'.prev]
      exact (if_neg hnot).trans ((if_pos rfl).trans hlast.symm)
    · rw [hk'.next, if_neg (hne y hy)]
      simp only [hlast']
    · rw [hk'.prev, if_neg (hne y hy)]
  · exact hk'.tcbPtr.trans h.head
  · rw [hk'.nbrEntries, h.entries]
    simp
    omega
  · rw [map_append, map_cons (l := post), mem_insert, not_or, ← map_append] at ht
    have hnot : (post.map Prod.fst).head? ≠ some t := fun heq =>
      ht.2 (by rw [map_append]; exact mem_append_right _ (List.mem_of_mem_head? heq))
    rw [hk'.prev, if_neg hnot, if_neg ht.1]
    exact h.out t ht.2
  · rw [hself]
    exact hdelta
  · exact hsame y (mem_append_left _ hy) (head_ne_of_mem hnodup (List.mem_map_of_mem hy))
  · have hymem : y ∈ x :: pre ++ post := mem_append_right _ (List.mem_of_mem_head? hy)
    have hy' : (post.map Prod.fst).head? = some y.1 := by rw [List.head?_map, hy]; rfl
    have htime := hbehind y hy
    have hlty := hpost y hy
    have hnear := h.near y hymem
    have hahead := h.ahead x rfl
    have hxsum := hpre.le_sum x (mem_cons_self ..)
    rw [hself, hk'.remain, if_neg (hne _ (List.mem_map_of_mem hymem)), if_pos hy', sub32_of_le hlty.le (by show k.tickRemain _ < _; omega)]
    show k.tickRemain y.1 - delta + delta = k.tickRemain y.1
    omega
  · exact hsame y (mem_append_right _ (mem_of_mem_tail hy)) (head_ne_of_mem_tail (nodup_append.mp hnodup).2.1
      (by simpa using List.mem_map_of_mem hy))
  · rw [hk'.tickCtrStep]
    refine (h.step hdyn).trans ?_
    show k.tickRemain x.1 = k'.tickRemain x.1
    rw [hsame x (by simp) (head_ne_of_mem hnodup (mem_cons_self ..))]
  · rcases mem_insert.mp hy with rfl | hy
    · show k.now + time < _
      omega
    · exact h.near y hy

theorem os_TickListInsert_some {e base : Nat} (hdelta : sub32 (add32 time base) (add32 k.tickCtr e) = time) (h0 : time ≠ 0)
    (h : k.tcbPtr = some q) : os_TickListInsert dyn k p e base time =
    if time < sub32 (k.tickRemain q) e ∧ k.tickPrevPtr q = none then
      .ok (newStep dyn { (((((({ k with nbrEntries := k.nbrEntries + 1 } : Kernel T).setRemain p time).setRemain q
        (sub32 (k.tickRemain q) e - time)).setPrev p none).setNext p (some q)).setPrev q (some p)) with tcbPtr := some p } e time,
        true)
    else
      match walk k.tickNextPtr k.tickRemain (k.nbrEntries + 1) (sub32 time (sub32 (k.tickRemain q) e)) q with
      | none => .error .endless
      | some place => (insertAt { k with nbrEntries := k.nbrEntries + 1 } p place).map fun k => (k, true) := by
  unfold os_TickListInsert
  rw [hdelta]
  rw [if_neg h0]
  split
  · simp_all
  · obtain rfl : _ = q := some.inj (‹k.tcbPtr = some _›.symm.trans h)
    rfl

theorem os_TickListInsert_spec (h : Holds dyn k L B) (hp : p ∉ L.map Prod.fst) (h0 : 0 < time) (hlt : time < 2 ^ 32) :
    ∃ k', os_TickListInsert dyn k p (os_DynTickGet dyn k) (add32 k.tickCtr (os_DynTickGet dyn k)) time = .ok (k', true) ∧
      Inserts dyn k L p time k' := by
  have hdelta : sub32 (add32 time (add32 k.tickCtr (os_DynTickGet dyn k))) (add32 k.tickCtr (os_DynTickGet dyn k)) = time := by
    rw [h.clock.systemTime, add32, sub32]
    omega
  cases hL : L with
  | nil =>
    subst hL
    rw [os_TickListInsert, hdelta]
    rw [if_neg (by omega)]
    simp only [show k.tcbPtr = none from h.head]
    exact ⟨_, rfl, h.insert_nil h0 hlt⟩
  | cons x tl =>
    subst hL
    rw [os_TickListInsert_some hdelta (by omega) (show k.tcbPtr = some x.1 from h.head)]
    have hle := h.clock.le
    have hx : x.2 = B + k.tickRemain x.1 := h.times.1
    have hfirst := h.first x rfl
    have hahead := h.ahead x rfl
    have hremain : sub32 (k.tickRemain x.1) (os_DynTickGet dyn k) = x.2 - k.now := by
      rw [h.elapsed (cons_ne_nil _ _), sub32_of_le] <;> omega
    have hprev : k.tickPrevPtr x.1 = none := h.linked.prev_head
    rw [hremain]
    by_cases hnew : k.now + time < x.2
    · rw [if_pos ⟨by omega, hprev⟩]
      have hfirst' := h.insert_first hp h0 hnew
      rw [hremain] at hfirst'
      exact ⟨_, rfl, hfirst'⟩
    · rw [if_neg fun hpos => by omega]
      have hsub : sub32 time (x.2 - k.now) = time - (x.2 - k.now) := sub32_of_le (by omega) hlt
      obtain ⟨mid, rest, last, hsplit, hlast, hmid, hrest, hwalk⟩ := walk_eq (d := k.tickRemain) (tl.map Prod.fst) [] x.1
        (k.nbrEntries + 1) (sub32 time (x.2 - k.now)) h.linked (by simp [h.entries]; omega)
      obtain ⟨pre, post, rfl, rfl, rfl⟩ := map_eq_append_iff.mp hsplit
      have hsum : ((x :: pre).map fun y => k.tickRemain y.1).sum = k.tickRemain x.1 + ((pre.map Prod.fst).map k.tickRemain).sum := by
        rw [List.map_map]
        rfl
      rw [hsub] at hmid hrest
      have hnotp : (post.map Prod.fst).head? ≠ some p := fun heq =>
        hp (by simpa using .inr (.inr (by simpa using List.mem_of_mem_head? heq)))
      have hbehind : ∀ t, (post.map Prod.fst).head? = some t → k.tickPrevPtr t = some last := by
        intro t ht
        obtain ⟨rest, hpost⟩ : ∃ rest, post.map Prod.fst = t :: rest := ⟨_, List.eq_cons_of_mem_head? ht⟩
        exact (h.linked.prev (x.1 :: pre.map Prod.fst) t rest (by simp [hpost])).trans hlast
      obtain ⟨k', hat, hinserted⟩ := insertAt_spec (k := { k with nbrEntries := k.nbrEntries + 1 }) (p := p) last
        (post.map Prod.fst).head? (time - (x.2 - k.now) - ((pre.map Prod.fst).map k.tickRemain).sum)
        hbehind hnotp
      rw [hwalk, hsub]
      refine ⟨k', congrArg (Except.map _) hat, h.insert_later hp hlast hlt (by omega) (fun y hy => hrest y.1 ?_) hinserted⟩
      rw [List.head?_map, hy]
      rfl

/-! ## Removal -/

def Removes (dyn : Bool) (k : Kernel T) (L' : List (T × Nat)) (k' : Kernel T) : Prop :=
  (∃ B, Holds dyn k' L' B) ∧ k'.now = k.now ∧ k'.left = k.left

theorem Holds.remove_only {d : Nat} (h : Holds dyn k [(p, d)] B) :
    Removes dyn k [] (newStep dyn { k.setRemain p 0 with tcbPtr := none, nbrEntries := 0 } (os_DynTickGet dyn k) 0) := by
  refine ⟨⟨k.now, Holds.of_now (k := k) newStep_now ?_ ?_ ?_ (fun t ht => ?_) trivial (h.clock.newStep _ rfl rfl)
    (fun hdyn => newStep_tickCtrStep hdyn) nofun nofun nofun⟩, newStep_now, newStep_left⟩
  · exact Linked.remove (l := []) h.linked (by simp) (by simp)
  · simp
  · simp
  · by_cases ht : t = p
    · subst ht
      simpa using h.linked.prev_head
    · simpa using h.out t (by simpa using ht)

/-- `OS_TickListRemove` of the first task, up to where it asks if the next one has the same time. -/
def unlinkFirst (k : Kernel T) (p q : T) : Kernel T :=
  { (k.setPrev q none).setRemain q (add32 (k.tickRemain q) (k.tickRemain p)) with
    tcbPtr := some q, nbrEntries := k.nbrEntries - 1 }

theorem removeFirst_eq (hqp : q ≠ p) {e : Nat} : removeFirst dyn k p q e =
    if add32 (k.tickRemain q) (k.tickRemain p) ≠ k.tickRemain p then
      ((newStep dyn (if dyn = true ∧ e ≠ 0 then (unlinkFirst k p q).setRemain q (sub32 (add32 (k.tickRemain q) (k.tickRemain p)) e)
        else unlinkFirst k p q) e (if dyn = true ∧ e ≠ 0 then sub32 (add32 (k.tickRemain q) (k.tickRemain p)) e
          else add32 (k.tickRemain q) (k.tickRemain p))).setNext p none).setRemain p 0
    else ((unlinkFirst k p q).setNext p none).setRemain p 0 := by
  have hq : (unlinkFirst k p q).tickRemain q = add32 (k.tickRemain q) (k.tickRemain p) := Function.update_self ..
  have hp : (unlinkFirst k p q).tickRemain p = k.tickRemain p := Function.update_of_ne hqp.symm _ _
  change (let k₁ := if (unlinkFirst k p q).tickRemain q ≠ (unlinkFirst k p q).tickRemain p then
      let k₂ := if dyn = true ∧ e ≠ 0 then (unlinkFirst k p q).setRemain q (sub32 ((unlinkFirst k p q).tickRemain q) e)
        else unlinkFirst k p q
      newStep dyn k₂ e (k₂.tickRemain q)
    else unlinkFirst k p q
    (k₁.setNext p none).setRemain p 0) = _
  rw [hq, hp]
  by_cases hsame : add32 (k.tickRemain q) (k.tickRemain p) ≠ k.tickRemain p
  · rw [if_pos hsame, if_pos hsame]
    by_cases hdyn : dyn = true ∧ e ≠ 0
    · simp only [if_pos hdyn, setRemain_tickRemain, if_true]
    · simp only [if_neg hdyn, hq]
  · rw [if_neg hsame, if_neg hsame]

theorem Holds.remove_first {d e : Nat} (h : Holds dyn k ((p, d) :: (q, e) :: tl) B) :
    Removes dyn k ((q, e) :: tl) (removeFirst dyn k p q (os_DynTickGet dyn k)) := by
  obtain ⟨hp, hnodup⟩ := nodup_cons.mp h.linked.nodup
  have hne : ∀ y ∈ ((q, e) :: tl).map Prod.fst, y ≠ p := fun y hy heq => hp (heq ▸ hy)
  have hqp : q ≠ p := hne q (by simp)
  have hqtl : ∀ x ∈ tl, x.1 ≠ q := ne_of_notMem (nodup_cons.mp hnodup).1
  have hptl : ∀ x ∈ tl, x.1 ≠ p := fun x hx => hne _ (List.mem_map_of_mem (mem_cons_of_mem _ hx))
  obtain ⟨htp, htq, htl⟩ := h.times
  replace htp : d = B + k.tickRemain p := htp
  replace htq : e = d + k.tickRemain q := htq
  have hle := h.clock.le
  have hfirst : B < d ∧ d < B + 2 ^ 32 := h.first (p, d) rfl
  have hahead : k.now ≤ d := h.ahead (p, d) rfl
  have hnear : e < k.now + 2 ^ 32 := h.near (q, e) (by simp)
  have helapsed : os_DynTickGet dyn k = k.now - B := h.elapsed (cons_ne_nil _ _)
  have hprevp : k.tickPrevPtr p = none := h.linked.prev_head
  have hlinked : Linked (fun t => if t = p then none else k.tickNextPtr t) (fun t => if t = q then none else k.tickPrevPtr t)
      (((q, e) :: tl).map Prod.fst) := by
    refine Linked.remove (l := []) h.linked (fun y hy => ?_) fun y hy => ?_
    · simp [hne y hy]
    · simp [eq_comm]
  have hout : ∀ t, t ∉ ((q, e) :: tl).map Prod.fst → (if t = q then none else k.tickPrevPtr t) = none := by
    intro t ht
    by_cases htq : t = q
    · rw [if_pos htq]
    · rw [if_neg htq]
      by_cases htp : t = p
      · rw [htp, hprevp]
      · exact h.out t (by simpa using ⟨htp, by simpa using ht⟩)
  have hnearall : ∀ x ∈ (q, e) :: tl, x.2 < k.now + 2 ^ 32 := fun x hx => h.near x (mem_cons_of_mem _ hx)
  have hentries : k.nbrEntries - 1 = ((q, e) :: tl).length := by simp [h.entries]
  rw [removeFirst_eq hqp]
  by_cases hzero : k.tickRemain q = 0
  · -- the next task has the same time, and the interrupt comes when it should
    have hsum : add32 (k.tickRemain q) (k.tickRemain p) = k.tickRemain p := by
      rw [hzero, add32]
      omega
    have hsame : e = d := by omega
    rw [if_neg (not_not.mpr hsum)]
    refine ⟨⟨B, Holds.of_now (k := k) rfl (hlinked.congr (fun y hy => ?_) fun y hy => ?_) rfl hentries (fun t ht => ?_) ⟨?_, ?_⟩
      ⟨h.clock.tickCtr, h.clock.dynamic, h.clock.periodic⟩ (fun hdyn => ?_) (fun x hx => ?_) (fun x hx => ?_) hnearall⟩, rfl, rfl⟩
    · simp [unlinkFirst]
    · simp [unlinkFirst]
    · simpa [unlinkFirst] using hout t ht
    · simp only [unlinkFirst, setRemain_tickRemain, setNext_tickRemain, if_neg hqp, if_pos, hsum]
      omega
    · exact htl.congr (fun x hx => by simp [unlinkFirst, hqtl x hx, hptl x hx]) fun _ _ => rfl
    · have hstep : k.tickCtrStep = k.tickRemain p := h.step hdyn
      exact hstep.trans (by simp [unlinkFirst, hqp, hsum])
    · obtain rfl := some.inj hx
      exact hsame ▸ hfirst
    · obtain rfl := some.inj hx
      exact hsame ▸ hahead
  · have hrest : (if dyn = true ∧ os_DynTickGet dyn k ≠ 0 then
          sub32 (add32 (k.tickRemain q) (k.tickRemain p)) (os_DynTickGet dyn k)
        else add32 (k.tickRemain q) (k.tickRemain p)) = e - k.now := by
      by_cases hsome : dyn = true ∧ os_DynTickGet dyn k ≠ 0
      · rw [if_pos hsome, helapsed, sub32, add32]
        omega
      · rw [if_neg hsome, add32]
        have hnone : os_DynTickGet dyn k = 0 := by
          cases dyn with
          | true => exact not_not.mp fun hne => hsome ⟨rfl, hne⟩
          | false => rfl
        omega
    have hhead : ∀ x ∈ ((q, e) :: tl).head?, k.now < x.2 ∧ x.2 < k.now + 2 ^ 32 := by
      intro x hx
      obtain rfl := some.inj hx
      show k.now < e ∧ e < _
      omega
    rw [if_pos (by rw [add32]; omega), hrest]
    -- what the next task has left, whether or not the elapsed ticks are written at once
    obtain ⟨k₂, hk₂, hremain, hnext, hprev, htcb, hnbr, hctr, hnow, hleft⟩ : ∃ k₂, (if dyn = true ∧ os_DynTickGet dyn k ≠ 0 then
          (unlinkFirst k p q).setRemain q (sub32 (add32 (k.tickRemain q) (k.tickRemain p)) (os_DynTickGet dyn k))
        else unlinkFirst k p q) = k₂ ∧ (∀ t, k₂.tickRemain t = if t = q then e - k.now else k.tickRemain t) ∧ k₂.tickNextPtr = k.tickNextPtr ∧
          (∀ t, k₂.tickPrevPtr t = if t = q then none else k.tickPrevPtr t) ∧ k₂.tcbPtr = some q ∧
          k₂.nbrEntries = k.nbrEntries - 1 ∧ k₂.tickCtr = k.tickCtr ∧ k₂.now = k.now ∧ k₂.left = k.left := by
      rw [← hrest]
      by_cases hsome : dyn = true ∧ os_DynTickGet dyn k ≠ 0
      · rw [if_pos hsome, if_pos hsome]
        exact ⟨_, rfl, fun t => by by_cases ht : t = q <;> simp [unlinkFirst, ht], rfl, fun t => by simp [unlinkFirst], rfl, rfl, rfl, rfl, rfl⟩
      · rw [if_neg hsome, if_neg hsome]
        exact ⟨_, rfl, fun t => by simp [unlinkFirst], rfl, fun t => by simp [unlinkFirst], rfl, rfl, rfl, rfl, rfl⟩
    rw [hk₂]
    have hclock := h.clock.newStep (e - k.now) hctr hnow
    refine ⟨⟨k.now, Holds.of_now (k := k) (newStep_now.trans hnow) (hlinked.congr (fun y hy => ?_) fun y hy => ?_)
      (newStep_tcbPtr.trans htcb) (newStep_nbrEntries.trans (hnbr.trans hentries)) (fun t ht => ?_) ⟨?_, ?_⟩
      ⟨hclock.tickCtr, hclock.dynamic, hclock.periodic⟩ (fun hdyn => ?_) hhead (fun x hx => (hhead x hx).1.le) hnearall⟩,
      newStep_now.trans hnow, newStep_left.trans hleft⟩
    · simp [hnext]
    · simp [hprev]
    · simpa [hprev] using hout t ht
    · simp [hremain, hqp]
      omega
    · exact htl.congr (fun x hx => by simp [hremain, hqtl x hx, hptl x hx]) fun _ _ => rfl
    · exact (newStep_tickCtrStep hdyn).trans (by simp [hremain, hqp])

/-- What `OS_TickListRemove` writes for a task behind another. -/
structure RemovedLater (k k' : Kernel T) (p tcb1 : T) (tcb2 : Option T) : Prop where
  next : ∀ t, t ≠ p → k'.tickNextPtr t = if t = tcb1 then tcb2 else k.tickNextPtr t
  prev : ∀ t, k'.tickPrevPtr t = if t = p then none else if tcb2 = some t then some tcb1 else k.tickPrevPtr t
  remain : ∀ t, t ≠ p → k'.tickRemain t = if tcb2 = some t then add32 (k.tickRemain t) (k.tickRemain p) else k.tickRemain t
  nbrEntries : k'.nbrEntries = k.nbrEntries - 1
  tcbPtr : k'.tcbPtr = k.tcbPtr
  tickCtr : k'.tickCtr = k.tickCtr
  tickCtrStep : k'.tickCtrStep = k.tickCtrStep
  dynCount : k'.dynCount = k.dynCount
  now : k'.now = k.now
  left : k'.left = k.left

theorem removeLater_spec {tcb1 : T} {tcb2 : Option T} : RemovedLater k (removeLater k p tcb1 tcb2) p tcb1 tcb2 := by
  cases tcb2 with
  | none => exact ⟨fun t ht => by simp [removeLater, ht], fun t => by simp [removeLater], fun t ht => by simp [removeLater, ht], rfl,
      rfl, rfl, rfl, rfl, rfl, rfl⟩
  | some q =>
    refine ⟨fun t ht => by simp [removeLater, ht], fun t => by simp [removeLater, eq_comm], fun t ht => ?_, rfl, rfl, rfl, rfl, rfl,
      rfl, rfl⟩
    by_cases htq : t = q
    · subst htq
      simp [removeLater, ht]
    · simp [removeLater, ht, htq, Ne.symm htq]

theorem Holds.remove_later {d : Nat} {last : T} {x : T × Nat}
    (h : Holds dyn k (x :: pre ++ (p, d) :: post) B) (hlast : ((x :: pre).map Prod.fst).getLast? = some last)
    (hk' : RemovedLater k k' p last (post.map Prod.fst).head?) : Removes dyn k (x :: pre ++ post) k' := by
  have hnodup := h.linked.nodup
  rw [map_append, map_cons (l := post)] at hnodup
  have hne : ∀ y ∈ x :: pre ++ post, y.1 ≠ p := by
    intro y hy heq
    have hmem : y.1 ∈ (x :: pre).map Prod.fst ++ post.map Prod.fst := by
      rw [← map_append]
      exact List.mem_map_of_mem hy
    exact ((mem_remove hnodup).mp hmem).1 heq
  have hnodup' : ((x :: pre).map Prod.fst ++ post.map Prod.fst).Nodup := (nodup_cons.mp (nodup_middle.mp hnodup)).2
  have hsplit : ((x :: pre ++ post).map Prod.fst) = (x :: pre).map Prod.fst ++ post.map Prod.fst := map_append
  have hlast' : ∀ t, ((x :: pre).map Prod.fst).getLast? = some t ↔ t = last := fun t => by rw [hlast]; simp [eq_comm]
  have hmemL : ∀ y ∈ x :: pre ++ post, y ∈ x :: pre ++ (p, d) :: post := fun y hy => mem_insert.mpr (.inr hy)
  have hxmem : x ∈ x :: pre := mem_cons_self ..
  -- the first of those behind it has got its ticks, and all the others have theirs
  have hsame : ∀ y ∈ x :: pre ++ post, (post.map Prod.fst).head? ≠ some y.1 → k'.tickRemain y.1 = k.tickRemain y.1 := by
    intro y hy hnot
    rw [hk'.remain _ (hne y hy), if_neg hnot]
  have hprenot : ∀ y ∈ x :: pre, (post.map Prod.fst).head? ≠ some y.1 := fun y hy =>
    head_ne_of_mem hnodup' (List.mem_map_of_mem hy)
  refine ⟨⟨B, Holds.of_now (k := k) hk'.now ?_ (hk'.tcbPtr.trans h.head) ?_ (fun t ht => ?_)
    (h.times.remove (fun y hy => ?_) (fun y hy => ?_) fun y hy => ?_) (h.clock.congr hk'.tickCtr hk'.dynCount hk'.now)
    (fun hdyn => ?_) h.first h.ahead fun y hy => h.near y (hmemL y hy)⟩, hk'.now, hk'.left⟩
  · have hlinked := h.linked
    rw [map_append, map_cons (l := post)] at hlinked
    rw [hsplit]
    refine hlinked.remove (fun y hy => ?_) fun y hy => ?_
    · rw [hk'.next y ((mem_remove hnodup).mp hy).1]
      simp only [hlast']
    · rw [hk'.prev y, if_neg ((mem_remove hnodup).mp hy).1, hlast]
  · rw [hk'.nbrEntries, h.entries]
    simp
    omega
  · rw [hsplit] at ht
    rw [hk'.prev t]
    by_cases htp : t = p
    · rw [if_pos htp]
    · have hnot : (post.map Prod.fst).head? ≠ some t := fun heq => ht (mem_append_right _ (List.mem_of_mem_head? heq))
      rw [if_neg htp, if_neg hnot]
      refine h.out t fun hmem => ?_
      rw [map_append, map_cons (l := post)] at hmem
      exact ht ((mem_insert.mp hmem).resolve_left htp)
  · exact hsame y (mem_append_left _ hy) (hprenot y hy)
  · have hymem : y ∈ x :: pre ++ post := mem_append_right _ (List.mem_of_mem_head? hy)
    obtain ⟨tl, rfl⟩ : ∃ tl, post = y :: tl := ⟨post.tail, List.eq_cons_of_mem_head? hy⟩
    obtain ⟨hpre, hd, hy2, -⟩ := times_append.mp h.times
    replace hd : d = _ + k.tickRemain p := hd
    replace hy2 : y.2 = d + k.tickRemain y.1 := hy2
    have hxsum := hpre.le_sum x hxmem
    have hahead := h.ahead x rfl
    have hnear := h.near y (hmemL y hymem)
    rw [hk'.remain _ (hne y hymem), if_pos (by simp), add32_of_lt (by omega)]
  · exact hsame y (mem_append_right _ (mem_of_mem_tail hy)) (head_ne_of_mem_tail (nodup_append.mp hnodup').2.1
      (by simpa using List.mem_map_of_mem hy))
  · rw [hk'.tickCtrStep]
    refine (h.step hdyn).trans ?_
    show k.tickRemain x.1 = k'.tickRemain x.1
    rw [hsame x (mem_append_left _ hxmem) (hprenot x hxmem)]

theorem filter_ne {d : Nat} (h : ((pre ++ (p, d) :: post).map Prod.fst).Nodup) :
    (pre ++ (p, d) :: post).filter (·.1 ≠ p) = pre ++ post := by
  rw [map_append, map_cons] at h
  have hp := (nodup_cons.mp (nodup_middle.mp h)).1
  rw [← map_append] at hp
  have hall : ∀ x ∈ pre ++ post, decide (x.1 ≠ p) = true := fun x hx => decide_eq_true (ne_of_notMem hp x hx)
  rw [filter_append, filter_cons, if_neg (by simp), ← filter_append]
  exact List.filter_eq_self.mpr hall

theorem os_TickListRemove_spec (h : Holds dyn k L B) (hp : p ∈ L.map Prod.fst) :
    Removes dyn k (L.filter (·.1 ≠ p)) (os_TickListRemove dyn k p) := by
  obtain ⟨⟨p, d⟩, hmem, rfl⟩ := List.mem_map.mp hp
  obtain ⟨pre, post, rfl⟩ := append_of_mem hmem
  have hlinked := h.linked
  have hfilter := filter_ne hlinked.nodup
  rw [map_append, map_cons] at hlinked
  have hprev : k.tickPrevPtr p = (pre.map Prod.fst).getLast? := hlinked.prev _ p _ rfl
  have hnext : k.tickNextPtr p = (post.map Prod.fst).head? := hlinked.next _ p _ rfl
  show Removes dyn k (List.filter (fun x => decide (x.1 ≠ p)) (pre ++ (p, d) :: post)) (os_TickListRemove dyn k p)
  rw [hfilter, os_TickListRemove, hprev, hnext]
  cases pre with
  | nil =>
    cases post with
    | nil => exact h.remove_only
    | cons q tl => exact h.remove_first
  | cons x pre =>
    obtain ⟨last, hlast⟩ : ∃ last, ((x :: pre).map Prod.fst).getLast? = some last :=
      ⟨_, List.getLast?_eq_getLast_of_ne_nil (cons_ne_nil _ _)⟩
    rw [hlast]
    exact h.remove_later hlast removeLater_spec

/-! ## Update -/

/-- The tasks `L` are linked in this order, and no others are. -/
structure Chained (k : Kernel T) (L : List (T × Nat)) : Prop where
  linked : Linked k.tickNextPtr k.tickPrevPtr (L.map Prod.fst)
  head : k.tcbPtr = (L.map Prod.fst).head?
  entries : k.nbrEntries = L.length
  out : ∀ t, t ∉ L.map Prod.fst → k.tickPrevPtr t = none

theorem takeTicks_zero : takeTicks k p 0 = (k, 0) := by
  have hself : k.setRemain p (k.tickRemain p) = k := by
    rw [Kernel.setRemain, Function.update_eq_self]
  rw [takeTicks]
  by_cases hzero : k.tickRemain p ≤ 0
  · rw [if_pos hzero, Nat.le_zero.mp hzero]
    rw [Nat.le_zero.mp hzero] at hself
    rw [hself]
  · rw [if_neg hzero, Nat.sub_zero, hself]

theorem Chained.drop {x y : T × Nat} (left : List (T × Nat)) (h : Chained k (x :: y :: tl)) :
    Chained (({ k with tcbPtr := some y.1, left := left, nbrEntries := k.nbrEntries - 1 } : Kernel T).setPrev y.1 none)
      (y :: tl) := by
  refine ⟨Linked.remove (l := []) h.linked (fun z hz => ?_) fun z hz => ?_, rfl, ?_, fun t ht => ?_⟩
  · simp
  · simp [eq_comm]
  · show k.nbrEntries - 1 = _
    rw [h.entries]
    rfl
  · have hty : t ≠ y.1 := fun heq => ht (by simp [heq])
    rw [setPrev_tickPrevPtr, if_neg hty]
    by_cases htx : t = x.1
    · rw [htx]
      exact h.linked.prev_head
    · exact h.out t (by simpa using ⟨htx, by simpa using ht⟩)

theorem updateLoop_last {fuel : Nat} (hzero : k.tickRemain p = 0) (hnext : k.tickNextPtr p = none) :
    updateLoop fuel k 0 p = .ok { k with tcbPtr := none, left := k.left ++ [(p, k.now)], nbrEntries := 0 } := by
  rw [updateLoop, if_pos hzero]
  simp only [hnext]

theorem updateLoop_next {fuel : Nat} (hzero : k.tickRemain p = 0) (hnext : k.tickNextPtr p = some q) :
    updateLoop (fuel + 1) k 0 p = updateLoop fuel
      (({ k with tcbPtr := some q, left := k.left ++ [(p, k.now)], nbrEntries := k.nbrEntries - 1 } : Kernel T).setPrev q none)
      0 q := by
  rw [updateLoop, if_pos hzero]
  simp only [hnext, takeTicks_zero]

theorem updateLoop_spec : ∀ (tl : List (T × Nat)) (x : T × Nat) (k : Kernel T) (fuel : Nat), Chained k (x :: tl) → tl.length ≤ fuel →
    ∃ k', updateLoop fuel k 0 x.1 = .ok k' ∧ Chained k' ((x :: tl).dropWhile fun y => k.tickRemain y.1 = 0) ∧
      k'.left = k.left ++ ((x :: tl).takeWhile fun y => k.tickRemain y.1 = 0).map (fun y => (y.1, k.now)) ∧
      k'.tickRemain = k.tickRemain ∧ k'.tickCtr = k.tickCtr ∧ k'.now = k.now := by
  intro tl
  induction tl with
  | nil =>
    intro x k fuel h _
    have hnext : k.tickNextPtr x.1 = none := h.linked.next [] x.1 [] rfl
    by_cases hzero : k.tickRemain x.1 = 0
    · rw [dropWhile_cons_of_pos (by simpa using hzero), takeWhile_cons_of_pos (by simpa using hzero)]
      refine ⟨_, updateLoop_last hzero hnext, ⟨Linked.nil, rfl, rfl, fun t _ => ?_⟩, rfl, rfl, rfl, rfl⟩
      by_cases ht : t = x.1
      · rw [ht]
        exact h.linked.prev_head
      · exact h.out t (by simpa using ht)
    · rw [dropWhile_cons_of_neg (by simpa using hzero), takeWhile_cons_of_neg (by simpa using hzero)]
      exact ⟨k, by rw [updateLoop, if_neg hzero], h, by simp, rfl, rfl, rfl⟩
  | cons y tl ih =>
    intro x k fuel h hfuel
    have hnext : k.tickNextPtr x.1 = some y.1 := h.linked.next [] x.1 (y.1 :: tl.map Prod.fst) rfl
    by_cases hzero : k.tickRemain x.1 = 0
    · rw [dropWhile_cons_of_pos (by simpa using hzero), takeWhile_cons_of_pos (by simpa using hzero)]
      cases fuel with
      | zero => simp at hfuel
      | succ fuel =>
        obtain ⟨k', hgo, hchained, hleft, hremain, hctr, hnow⟩ := ih y _ fuel (h.drop (k.left ++ [(x.1, k.now)]))
          (by simpa using hfuel)
        refine ⟨k', (updateLoop_next hzero hnext).trans hgo, hchained, ?_, hremain, hctr, hnow⟩
        rw [hleft]
        exact append_assoc ..
    · rw [dropWhile_cons_of_neg (by simpa using hzero), takeWhile_cons_of_neg (by simpa using hzero)]
      exact ⟨k, by rw [updateLoop, if_neg hzero], h, by simp, rfl, rfl, rfl⟩

variable (ticks) in
theorem os_TickListUpdate_spec {x : T × Nat} (h : Chained k (x :: tl)) (hle : ticks ≤ k.tickRemain x.1) :
    ∃ k', os_TickListUpdate k ticks = .ok k' ∧
      (∀ t, k'.tickRemain t = if t = x.1 then k.tickRemain x.1 - ticks else k.tickRemain t) ∧
      Chained k' ((x :: tl).dropWhile fun y => k'.tickRemain y.1 = 0) ∧
      k'.left = k.left ++ ((x :: tl).takeWhile fun y => k'.tickRemain y.1 = 0).map (fun y => (y.1, k.now)) ∧
      k'.tickCtr = k.tickCtr ∧ k'.now = k.now := by
  have hgo : os_TickListUpdate k ticks =
      updateLoop (takeTicks k x.1 ticks).1.nbrEntries (takeTicks k x.1 ticks).1 (takeTicks k x.1 ticks).2 x.1 := by
    rw [os_TickListUpdate]
    simp only [show k.tcbPtr = some x.1 from h.head]
  have hset : ∀ r, Chained (k.setRemain x.1 r) (x :: tl) := fun r => ⟨h.linked, h.head, h.entries, h.out⟩
  rw [hgo, takeTicks]
  by_cases hall : k.tickRemain x.1 ≤ ticks
  · have hzero : k.tickRemain x.1 - ticks = 0 := by omega
    rw [if_pos hall, show ticks - k.tickRemain x.1 = 0 by omega, hzero]
    obtain ⟨k', heq, hchained, hleft, hremain, hctr, hnow⟩ := updateLoop_spec tl x _ k.nbrEntries (hset 0)
      (by rw [h.entries]; exact Nat.le_succ _)
    rw [← hremain] at hchained hleft
    exact ⟨k', heq, fun t => by rw [hremain, setRemain_tickRemain], hchained, hleft, hctr, hnow⟩
  · have hsome : ¬ (k.setRemain x.1 (k.tickRemain x.1 - ticks)).tickRemain x.1 = 0 := by
      rw [setRemain_tickRemain, if_pos rfl]
      omega
    rw [if_neg hall]
    refine ⟨_, by rw [updateLoop]; exact if_neg hsome, fun t => setRemain_tickRemain, ?_, ?_, rfl, rfl⟩
    · rw [dropWhile_cons_of_neg (by simpa using hsome)]
      exact hset _
    · rw [takeWhile_cons_of_neg (by simpa using hsome)]
      exact (List.append_nil _).symm

variable (dyn ticks) in
theorem os_TickUpdate_spec (h : Chained k L) (htimes : Times (fun p => k.tickRemain p.1) Prod.snd B L) (hctr : k.tickCtr = B % 2 ^ 32)
    (hnow : B + ticks = k.now) (hahead : ∀ x ∈ L.head?, k.now ≤ x.2) (hnear : ∀ x ∈ L, x.2 < k.now + 2 ^ 32) :
    ∃ k', os_TickUpdate dyn k ticks = .ok k' ∧ Holds dyn k' (L.filter (·.2 ≠ k.now)) k.now ∧ k'.now = k.now ∧
      k'.left = k.left ++ L.filter (·.2 = k.now) := by
  have hctr' : add32 k.tickCtr ticks = k.now % 2 ^ 32 := by
    rw [hctr, add32]
    omega
  -- the end of `OS_TickUpdate` sets the step of the first task
  have hset : ∀ k₁ : Kernel T, Chained k₁ (L.filter (·.2 ≠ k.now)) → Times (fun p => k₁.tickRemain p.1) Prod.snd k.now
      (L.filter (·.2 ≠ k.now)) → k₁.tickCtr = k.now % 2 ^ 32 → k₁.now = k.now →
      os_TickListUpdate { k with tickCtr := add32 k.tickCtr ticks } ticks = .ok k₁ →
      ∃ k', os_TickUpdate dyn k ticks = .ok k' ∧ Holds dyn k' (L.filter (·.2 ≠ k.now)) k.now ∧ k'.now = k.now ∧ k'.left = k₁.left := by
    intro k₁ hchained htimes₁ hctr₁ hnow₁ hgo
    have hhead : ∀ x ∈ (L.filter (·.2 ≠ k.now)).head?, k.now < x.2 ∧ x.2 < k.now + 2 ^ 32 := by
      intro x hx
      obtain ⟨hmem, hne⟩ := mem_filter.mp (List.mem_of_mem_head? hx)
      have hle := htimes₁.le x (List.mem_of_mem_head? hx)
      have hne : x.2 ≠ k.now := of_decide_eq_true hne
      exact ⟨by omega, hnear x hmem⟩
    have hnear' : ∀ x ∈ L.filter (·.2 ≠ k.now), x.2 < k.now + 2 ^ 32 := fun x hx => hnear x (mem_filter.mp hx).1
    cases dyn with
    | false =>
      exact ⟨k₁, congrArg (Except.map _) hgo, Holds.of_now (k := k) hnow₁ hchained.linked hchained.head hchained.entries hchained.out htimes₁
        ⟨hctr₁, by simp, fun _ => hnow₁.symm⟩ (by simp) hhead (fun x hx => (hhead x hx).1.le) hnear', hnow₁, rfl⟩
    | true =>
      refine ⟨_, congrArg (Except.map _) hgo, ?_⟩
      generalize hL' : L.filter (·.2 ≠ k.now) = L' at *
      cases L' with
      | nil | cons =>
        have htcb := hchained.head
        simp only [if_pos, htcb]
        exact ⟨Holds.of_now (k := k) hnow₁ hchained.linked htcb hchained.entries hchained.out htimes₁
          ⟨hctr₁, fun _ => hnow₁.symm, by simp⟩ (fun _ => rfl) hhead (fun x hx => (hhead x hx).1.le) hnear', hnow₁, rfl⟩
  cases L with
  | nil =>
    have hgo : os_TickListUpdate { k with tickCtr := add32 k.tickCtr ticks } ticks = .ok { k with tickCtr := add32 k.tickCtr ticks } := by
      rw [os_TickListUpdate]
      simp only [show k.tcbPtr = none from h.head]
    obtain ⟨k', heq, hholds, hnow', hleft⟩ := hset { k with tickCtr := add32 k.tickCtr ticks }
      ⟨h.linked, h.head, h.entries, h.out⟩ trivial hctr' rfl hgo
    exact ⟨k', heq, hholds, hnow', hleft.trans (List.append_nil _).symm⟩
  | cons x tl =>
    have hx : x.2 = B + k.tickRemain x.1 := htimes.1
    have hxnow := hahead x rfl
    have hchained : Chained { k with tickCtr := add32 k.tickCtr ticks } (x :: tl) := ⟨h.linked, h.head, h.entries, h.out⟩
    obtain ⟨k₁, hgo, hremain, hchained₁, hleft₁, hctr₁, hnow₁⟩ := os_TickListUpdate_spec ticks hchained
      (by show ticks ≤ k.tickRemain x.1; omega)
    have hnot := (nodup_cons.mp h.linked.nodup).1
    have htimes₁ : Times (fun p => k₁.tickRemain p.1) Prod.snd k.now (x :: tl) := by
      refine htimes.shift ?_ fun y hy => ?_
      · show k.now + k₁.tickRemain x.1 = x.2
        rw [hremain, if_pos rfl]
        show k.now + (k.tickRemain x.1 - ticks) = x.2
        omega
      · rw [hremain, if_neg (ne_of_notMem hnot y hy)]
    obtain ⟨htake, hdrop, htimes'⟩ := htimes₁.due
    rw [hdrop] at hchained₁ htimes'
    rw [htake] at hleft₁
    obtain ⟨k', heq, hholds, hnow', hleft⟩ := hset k₁ hchained₁ htimes' (hctr₁.trans hctr') hnow₁ hgo
    refine ⟨k', heq, hholds, hnow', hleft.trans (hleft₁.trans (congrArg (k.left ++ ·) ?_))⟩
    rw [map_congr_left (g := id), List.map_id]
    intro y hy
    have hy : y.2 = k.now := of_decide_eq_true (mem_filter.mp hy).2
    exact Prod.ext rfl hy.symm

/-! ## Runs -/

/-- The list holds the tasks that wait. -/
def Exact (dyn : Bool) (k : Kernel T) (s : Waiting T) : Prop :=
  (∃ L B, Holds dyn k L B ∧ Stable due L s.waiting) ∧ k.now = s.now ∧ k.left = s.left

section
omit dT

theorem Exact.start (now : Nat) : Exact dyn (start T now) ⟨now, [], []⟩ :=
  ⟨⟨[], now, ⟨Linked.nil, rfl, rfl, fun _ _ => rfl, trivial, ⟨rfl, fun _ => rfl, fun _ => rfl⟩, fun _ => rfl, nofun, nofun, nofun⟩,
    Stable.nil⟩, rfl, rfl⟩

theorem Holds.le (h : Holds dyn k L B) : ∀ x ∈ L, k.now ≤ x.2 := by
  intro x hx
  cases L with
  | nil => cases hx
  | cons y tl =>
    have hahead := h.ahead y rfl
    rcases mem_cons.mp hx with rfl | hx
    · exact hahead
    · obtain ⟨hy, htl⟩ := h.times
      exact hahead.trans (htl.le x hx)

theorem Holds.count (h : Holds true k L B) : (k.tickCtrStep = 0 ↔ L = []) ∧ ∀ x ∈ L.head?, k.tickCtrStep = x.2 - B ∧
    k.dynCount = k.now - B := by
  have hstep := h.step rfl
  have hclock := h.clock.dynamic rfl
  cases L with
  | nil => exact ⟨⟨fun _ => rfl, fun _ => hstep⟩, nofun⟩
  | cons y tl =>
    have hy : y.2 = B + k.tickRemain y.1 := h.times.1
    have hfirst := h.first y rfl
    replace hstep : k.tickCtrStep = k.tickRemain y.1 := hstep
    refine ⟨⟨fun _ => by omega, nofun⟩, fun x hx => ?_⟩
    obtain rfl := some.inj hx
    omega

theorem due_now {W : List (T × Nat)} (now : Nat) (h : Stable due L W) :
    L.filter (·.2 = now) = W.filter (·.2 = now) ∧ Stable due (L.filter (·.2 ≠ now)) (W.filter (·.2 ≠ now)) := by
  refine ⟨?_, h.filter _⟩
  have hkey : ∀ x : T × Nat, decide (x.2 = now) = decide (due x = now) := fun x =>
    decide_eq_decide.mpr (Int.ofNat_inj (m := x.2) (n := now)).symm
  rw [filter_congr fun x _ => hkey x, filter_congr (l := W) fun x _ => hkey x]
  exact h.same now

end

variable (dyn) in
theorem expire_exact {W : List (T × Nat)} (h : Chained k L) (htimes : Times (fun p => k.tickRemain p.1) Prod.snd B L)
    (hctr : k.tickCtr = B % 2 ^ 32) (hnow : B + ticks = k.now) (hahead : ∀ x ∈ L.head?, k.now ≤ x.2)
    (hnear : ∀ x ∈ L, x.2 < k.now + 2 ^ 32) (hW : Stable due L W) :
    ∃ k', os_TickUpdate dyn k ticks = .ok k' ∧ Exact dyn k' (Waiting.expire ⟨k.now, W, k.left⟩) := by
  obtain ⟨k', heq, hholds, hnow', hleft⟩ := os_TickUpdate_spec dyn _ h htimes hctr hnow hahead hnear
  obtain ⟨hsame, hrest⟩ := due_now k.now hW
  exact ⟨k', heq, ⟨_, _, hholds, hrest⟩, hnow', by rw [hleft, hsame]; rfl⟩

theorem step_exact {s : Waiting T} (h : Exact dyn k s) (e : Event T) :
    step dyn k e = .error .refused ∨ ∃ k', step dyn k e = .ok k' ∧ Exact dyn k' (s.step dyn e) := by
  obtain ⟨⟨L, B, h, hstable⟩, hnow, hleft⟩ := h
  cases e with
  | insert p time =>
    rw [step]
    by_cases hargs : 0 < time ∧ time < 2 ^ 32 ∧ ¬ k.Listed p
    · obtain ⟨h0, hlt, hp⟩ := hargs
      rw [h.listed] at hp
      obtain ⟨k', heq, ⟨B', h'⟩, hnow', hleft'⟩ := os_TickListInsert_spec h hp h0 hlt
      rw [if_pos ⟨h0, hlt, by rwa [h.listed]⟩]
      refine .inr ⟨k', congrArg (Except.map Prod.fst) heq, ⟨_, B', h', ?_⟩, hnow'.trans hnow, hleft'.trans hleft⟩
      rw [hnow]
      exact hstable.insert _
    · exact .inl (if_neg hargs)
  | remove p =>
    rw [step]
    by_cases hp : k.Listed p
    · obtain ⟨⟨B', h'⟩, hnow', hleft'⟩ := os_TickListRemove_spec h (h.listed.mp hp)
      rw [if_pos hp]
      exact .inr ⟨_, rfl, ⟨_, B', h', hstable.filter _⟩, hnow'.trans hnow, hleft'.trans hleft⟩
    · exact .inl (if_neg hp)
  | pass =>
    rw [step]
    by_cases hargs : dyn = true ∧ (k.tickCtrStep = 0 ∨ k.dynCount < k.tickCtrStep)
    · rw [if_pos hargs]
      obtain ⟨rfl, hcount⟩ := hargs
      refine .inr ⟨_, rfl, ⟨L, B, ⟨h.linked, h.head, h.entries, h.out, h.times, ⟨h.clock.tickCtr, fun _ => ?_, nofun⟩, h.step, h.first,
        fun x hx => ?_, fun x hx => ?_⟩, hstable⟩, congrArg (· + 1) hnow, hleft⟩
      · show B + (k.dynCount + 1) = k.now + 1
        have := h.clock.dynamic rfl
        omega
      · show k.now + 1 ≤ x.2
        obtain ⟨hstep, hdyn⟩ := h.count.2 x hx
        have hfirst := h.first x hx
        omega
      · exact (h.near x hx).trans (Nat.add_lt_add_right (Nat.lt_succ_self _) _)
    · exact .inl (if_neg hargs)
  | update =>
    cases dyn with
    | true =>
      rw [step, if_pos rfl]
      by_cases hargs : k.tickCtrStep ≠ 0 ∧ k.dynCount = k.tickCtrStep
      · obtain ⟨h0, hcount⟩ := hargs
        have hclock := h.clock.dynamic rfl
        obtain ⟨k', heq, h'⟩ := expire_exact true ⟨h.linked, h.head, h.entries, h.out⟩ h.times h.clock.tickCtr
          (hcount ▸ hclock) h.ahead h.near hstable
        rw [if_pos ⟨h0, hcount⟩]
        refine .inr ⟨k', heq, ?_⟩
        rw [hnow, hleft] at h'
        exact h'
      · exact .inl (if_neg hargs)
    | false =>
      have hB := h.clock.periodic rfl
      obtain ⟨k', heq, h'⟩ := @expire_exact _ _ false { k with now := k.now + 1 } _ 1 _ _
        ⟨h.linked, h.head, h.entries, h.out⟩ h.times h.clock.tickCtr (congrArg (· + 1) hB)
        (fun x hx => by have := h.first x hx; show k.now + 1 ≤ x.2; omega)
        (fun x hx => (h.near x hx).trans (Nat.add_lt_add_right (Nat.lt_succ_self _) _)) hstable
      refine .inr ⟨k', heq, ?_⟩
      rw [hnow, hleft] at h'
      exact h'

theorem run_exact {events : List (Event T)} (s : Waiting T) (h : Exact dyn k s) (hrun : run (step dyn) k events = .ok k') :
    Exact dyn k' (events.foldl (Waiting.step dyn) s) := by
  induction events generalizing k s with
  | nil =>
    cases hrun
    exact h
  | cons e es ih =>
    obtain ⟨k₁, hstep, hrest⟩ := bind_eq_ok hrun
    rcases step_exact h e with hrefused | ⟨k₂, hstep', h'⟩
    · rw [hrefused] at hstep
      cases hstep
    · cases hstep.symm.trans hstep'
      exact ih _ h' hrest

omit dT in
theorem Holds.due_head (h : Holds dyn k L B) : (∃ x ∈ L, x.2 = k.now) ↔ ∃ x ∈ L.head?, x.2 = k.now := by
  refine ⟨fun ⟨x, hx, hxnow⟩ => ?_, fun ⟨x, hx, hxnow⟩ => ⟨x, List.mem_of_mem_head? hx, hxnow⟩⟩
  cases L with
  | nil => cases hx
  | cons y tl =>
    have hahead := h.ahead y rfl
    rcases mem_cons.mp hx with rfl | hx
    · exact ⟨_, rfl, hxnow⟩
    · obtain ⟨-, htl⟩ := h.times
      have hle := htl.le x hx
      exact ⟨y, rfl, by omega⟩

omit dT in
theorem Holds.not_due (h : Holds false k L B) : ¬ ∃ x ∈ L, x.2 = k.now := by
  rw [h.due_head]
  rintro ⟨x, hx, hxnow⟩
  have hfirst := h.first x hx
  have hB := h.clock.periodic rfl
  omega

theorem pass_or_update (h : Holds true k L B) :
    if ∃ x ∈ L, x.2 = k.now then step true k .pass = .error .refused ∧ ∃ k', step true k .update = .ok k'
    else step true k .pass = .ok { k with now := k.now + 1, dynCount := k.dynCount + 1 } := by
  have hcount := h.count
  simp only [h.due_head]
  cases L with
  | nil =>
    exact if_pos ⟨rfl, .inl (hcount.1.mpr rfl)⟩
  | cons y tl =>
    obtain ⟨hstep, hdyn⟩ := hcount.2 y rfl
    have hfirst := h.first y rfl
    have hahead := h.ahead y rfl
    by_cases hnow : y.2 = k.now
    · rw [if_pos ⟨y, rfl, hnow⟩]
      obtain ⟨k', heq, -⟩ := os_TickUpdate_spec true k.tickCtrStep ⟨h.linked, h.head, h.entries, h.out⟩ h.times
        h.clock.tickCtr (by omega) h.ahead h.near
      exact ⟨if_neg (by rintro ⟨-, h | h⟩ <;> omega), k', (if_pos ⟨by omega, by omega⟩).trans heq⟩
    · rw [if_neg (by rintro ⟨x, hx, hxnow⟩; exact hnow (some.inj hx ▸ hxnow))]
      exact if_pos ⟨rfl, .inr (by omega)⟩

/-- No task waits for a time that has passed. If the time of one has come, the tick is dynamic, its interrupt
comes, and no tick passes before. -/
def OnTime (dyn : Bool) (k : Kernel T) (s : Waiting T) : Prop :=
  (∀ x ∈ s.waiting, s.now ≤ x.2) ∧
    ((∃ x ∈ s.waiting, x.2 = s.now) →
      dyn = true ∧ step dyn k .pass = .error .refused ∧ ∃ k', step dyn k .update = .ok k') ∧
    (dyn = true → (¬ ∃ x ∈ s.waiting, x.2 = s.now) → ∃ k', step dyn k .pass = .ok k')

theorem Exact.onTime {s : Waiting T} (h : Exact dyn k s) : OnTime dyn k s := by
  obtain ⟨⟨L, B, hholds, hstable⟩, hnow, -⟩ := h
  have hdue : (∃ x ∈ s.waiting, x.2 = s.now) ↔ ∃ x ∈ L, x.2 = k.now := by
    rw [hnow]
    exact exists_congr fun x => and_congr_left fun _ => hstable.mem.symm
  rw [OnTime, hdue]
  refine ⟨fun x hx => hnow ▸ hholds.le x (hstable.mem.mpr hx), fun hsome => ?_, fun hdyn hnone => ?_⟩
  · cases dyn with
    | false => exact absurd hsome hholds.not_due
    | true =>
      have h := pass_or_update hholds
      rw [if_pos hsome] at h
      exact ⟨rfl, h⟩
  · subst hdyn
    have h := pass_or_update hholds
    rw [if_neg hnone] at h
    exact ⟨_, h⟩

/-- **The tick list is exact.** After every run, who is still in the list and until when, and who has left it,
when and in which order, is what the tasks that wait for their times say; nobody is left whose time has passed;
and every step returns. -/
theorem tick_list_exact {now : Nat} {events : List (Event T)} (hrun : run (step dyn) (start T now) events = .ok k) :
    Exact dyn k (events.foldl (Waiting.step dyn) ⟨now, [], []⟩) ∧ OnTime dyn k (events.foldl (Waiting.step dyn) ⟨now, [], []⟩) ∧
      ∀ e, step dyn k e ≠ .error .nullPtr ∧ step dyn k e ≠ .error .endless := by
  have h := run_exact _ (Exact.start now) hrun
  refine ⟨h, h.onTime, fun e => ?_⟩
  rcases step_exact h e with hstep | ⟨k', hstep, -⟩ <;> rw [hstep] <;> exact ⟨nofun, nofun⟩

/-- The counter wraps while three tasks wait, two of them for the same time, and the first of them is removed. -/
def overWrap : List (Event (Fin 3)) :=
  [.insert 0 3, .pass, .insert 1 7, .insert 2 7, .pass, .remove 0, .pass, .pass, .pass, .pass, .pass, .pass, .update]

theorem tick_list_exact_three : ∃ k, run (step true) (start (Fin 3) 4294967290) overWrap = .ok k ∧ k.tickCtr = 2 ∧
    Exact true k ⟨4294967298, [], [(1, 4294967298), (2, 4294967298)]⟩ :=
  exists_ok_that (P := fun k => k.tickCtr = 2) (by decide +kernel) fun _ hrun hctr => ⟨hctr, (tick_list_exact hrun).1⟩

end RtosKernel.Ucos.Tick
