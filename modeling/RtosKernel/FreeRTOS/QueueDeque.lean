import RtosKernel.Lib.Window
import RtosKernel.FreeRTOS.Queue

/-! # A queue is a bounded double-ended queue

The items are those in the `uxMessagesWaiting` places behind `pcReadFrom`, and `pcWriteTo` is the place behind
them. -/
namespace RtosKernel.FreeRTOS.Queues
open Lib.Word Lib.Window FreeRTOS.Def List

/-! ## What a queue is for -/

/-- One call on a list of at most `n` items. -/
def dequeStep (n : Nat) (l : List (List UInt8)) : Op → List (List UInt8) × Result
  | .send x .sendToBack => if l.length < n then (l ++ [x], .pdPass) else (l, .errQueueFull)
  | .send x .sendToFront => if l.length < n then (x :: l, .pdPass) else (l, .errQueueFull)
  | .send x .overwrite => ([x], .pdPass)
  | .receive => match l with
    | [] => ([], .errQueueEmpty)
    | x :: l => (l, .item x)
  | .peek => match l with
    | [] => ([], .errQueueEmpty)
    | x :: l => (x :: l, .item x)
  | .reset => ([], .pdPass)

/-- A sequence of calls and what they return. -/
def dequeRun (n : Nat) (l : List (List UInt8)) : List Op → List (List UInt8) × List Result
  | [] => (l, [])
  | op :: ops =>
    let r := dequeStep n l op
    let s := dequeRun n r.1 ops
    (s.1, r.2 :: s.2)

/-! ## Places -/

def Queue.place (q : Queue) (i : Nat) : Int := q.pcHead + (i * q.uxItemSize : Nat)

def Queue.slots (q : Queue) (i : Nat) : List UInt8 := memcpyFrom q.mem (q.place i) q.uxItemSize

variable {c : Build} {q : Queue} {r : Nat} {l : List (List UInt8)} {item : List UInt8}

/-- `pcReadFrom` is at place `r` and the items `l` are behind it. -/
structure Holds (c : Build) (q : Queue) (r : Nat) (l : List (List UInt8)) : Prop where
  size_pos : 0 < q.uxItemSize
  size_lt : q.uxLength * q.uxItemSize < 2 ^ c.sizeBits
  tail : q.pcTail = q.place q.uxLength
  read_lt : r < q.uxLength
  read : q.pcReadFrom = q.place r
  write : q.pcWriteTo = q.place (((r + 1) % q.uxLength + l.length) % q.uxLength)
  count : q.uxMessagesWaiting = l.length
  length_le : l.length ≤ q.uxLength
  items : window q.slots q.uxLength ((r + 1) % q.uxLength) l.length = l

theorem place_lt {i j : Nat} (hs : 0 < q.uxItemSize) (h : i < j) : q.place i < q.place j := by
  unfold Queue.place
  have := Nat.mul_lt_mul_of_pos_right h hs
  omega

theorem place_succ (i : Nat) : q.place (i + 1) = q.place i + q.uxItemSize := by
  unfold Queue.place
  rw [Nat.add_mul]
  omega

theorem place_next (hs : 0 < q.uxItemSize) (ht : q.pcTail = q.place q.uxLength) {i : Nat} (hi : i < q.uxLength) :
    (if q.place i + q.uxItemSize ≥ q.pcTail then q.pcHead else q.place i + q.uxItemSize) =
      q.place ((i + 1) % q.uxLength) := by
  rw [← place_succ, ht]
  rcases Nat.lt_or_ge (i + 1) q.uxLength with hlt | hge
  · have := place_lt hs hlt
    rw [if_neg (by omega), Nat.mod_eq_of_lt hlt]
  · have heq : i + 1 = q.uxLength := by omega
    rw [heq, if_pos (le_refl _), Nat.mod_self]
    simp [Queue.place]

theorem place_prev (hs : 0 < q.uxItemSize) (ht : q.pcTail = q.place q.uxLength) {i : Nat} (hi : i < q.uxLength) :
    ∃ j < q.uxLength, (j + 1) % q.uxLength = i ∧
      (if q.place i - q.uxItemSize < q.pcHead then q.pcTail - q.uxItemSize else q.place i - q.uxItemSize) =
        q.place j := by
  cases i with
  | zero =>
    refine ⟨q.uxLength - 1, by omega, ?_, ?_⟩
    · rw [Nat.sub_add_cancel (by omega), Nat.mod_self]
    · have hlast := place_succ (q := q) (q.uxLength - 1)
      rw [Nat.sub_add_cancel (by omega)] at hlast
      have hzero : q.place 0 = q.pcHead := by simp [Queue.place]
      rw [hzero, if_pos (by omega), ht, hlast]
      omega
  | succ i =>
    refine ⟨i, by omega, Nat.mod_eq_of_lt hi, ?_⟩
    have hge : q.pcHead ≤ q.place i := by
      unfold Queue.place
      omega
    rw [place_succ, if_neg (by omega)]
    omega

theorem place_le {i j : Nat} (h : i < j) : q.place i + q.uxItemSize ≤ q.place j := by
  rw [← place_succ]
  unfold Queue.place
  have := Nat.mul_le_mul_right q.uxItemSize (show i + 1 ≤ j from h)
  omega

theorem slots_memcpyTo (hitem : item.length = q.uxItemSize) {p : Int} {j : Nat} (hp : p = q.place j) :
    ({ q with mem := memcpyTo q.mem p item } : Queue).slots = memcpy q.slots j [item] := by
  subst hp
  funext i
  show memcpyFrom (memcpyTo q.mem (q.place j) item) (q.place i) q.uxItemSize = _
  by_cases hij : i = j
  · subst hij
    rw [memcpy_inside (le_refl _) (by simp)]
    refine ext_getElem (by simp [memcpyFrom, hitem]) fun b hb hb' => ?_
    have hb : b < item.length := by simpa using hb'
    simp [memcpyFrom, memcpyTo, hb]
  · rw [memcpy_outside (by simp; omega)]
    refine map_congr_left fun b hb => ?_
    have hb := mem_range.mp hb
    unfold memcpyTo
    rw [if_neg]
    rcases Nat.lt_or_gt_of_ne hij with hlt | hgt
    · have := place_le (q := q) hlt
      omega
    · have := place_le (q := q) hgt
      omega

/-! ## The calls -/

theorem Holds.length_succ_lt (h : Holds c q r l) (hlt : l.length < q.uxLength) : l.length + 1 < 2 ^ c.sizeBits := by
  have hle := Nat.le_mul_of_pos_right q.uxLength h.size_pos
  have := h.size_lt
  omega

section
variable (h : Holds c q r l) (hitem : item.length = q.uxItemSize)
include h hitem

theorem Holds.sendToBack (hlt : l.length < q.uxLength) :
    Holds c (prvCopyDataToQueue c q item .sendToBack) r (l ++ [item]) := by
  have hne : q.uxItemSize ≠ 0 := Nat.ne_of_gt h.size_pos
  set w := ((r + 1) % q.uxLength + l.length) % q.uxLength with hw
  have hpos : 0 < q.uxLength := Nat.zero_lt_of_lt hlt
  have hwlt : w < q.uxLength := Nat.mod_lt _ hpos
  simp only [prvCopyDataToQueue, if_neg hne]
  refine ⟨h.size_pos, h.size_lt, h.tail, h.read_lt, h.read, ?_, ?_, by simpa using hlt, ?_⟩
  · show (if q.pcWriteTo + q.uxItemSize ≥ q.pcTail then q.pcHead else q.pcWriteTo + q.uxItemSize) = _
    rw [h.write, place_next h.size_pos h.tail hwlt, hw, Nat.mod_add_mod, length_append, length_singleton,
      ← Nat.add_assoc]
    rfl
  · show addw c.sizeBits q.uxMessagesWaiting 1 = _
    rw [h.count, addw_of_lt (h.length_succ_lt hlt)]
    simp
  · show window ({ q with mem := memcpyTo q.mem q.pcWriteTo item } : Queue).slots q.uxLength _ _ = _
    rw [slots_memcpyTo hitem h.write, ← store_of_le (n := q.uxLength) (by rw [length_singleton]; omega)]
    have happ := @window_append _ q.slots q.uxLength ((r + 1) % q.uxLength) l.length [item] (Nat.mod_lt (r + 1) hpos)
      (by simpa using hlt)
    rw [h.items] at happ
    rw [length_append]
    exact happ

theorem Holds.front {q' : Queue} {m : List (List UInt8)}
    (hq' : q' = { q with
      mem := memcpyTo q.mem q.pcReadFrom item
      pcReadFrom := if q.pcReadFrom - q.uxItemSize < q.pcHead then q.pcTail - q.uxItemSize
        else q.pcReadFrom - q.uxItemSize
      uxMessagesWaiting := m.length + 1 })
    (hlt : m.length < q.uxLength)
    (hwrite : q.pcWriteTo = q.place ((r + (m.length + 1)) % q.uxLength))
    (hitems : window q.slots q.uxLength ((r + 1) % q.uxLength) m.length = m) :
    ∃ r', Holds c q' r' (item :: m) := by
  obtain ⟨j, hj, hnext, hplace⟩ := place_prev h.size_pos h.tail h.read_lt
  subst hq'
  refine ⟨j, h.size_pos, h.size_lt, h.tail, hj, ?_, ?_, by simp, by simpa using hlt, ?_⟩
  · show (if q.pcReadFrom - q.uxItemSize < q.pcHead then _ else _) = _
    rw [h.read]
    exact hplace
  · simp only [hnext, length_cons]
    exact hwrite
  · simp only [hnext, length_cons]
    show window ({ q with mem := memcpyTo q.mem q.pcReadFrom item } : Queue).slots q.uxLength _ _ = _
    rw [slots_memcpyTo hitem h.read, window_prepend h.read_lt hlt, hitems]

theorem Holds.sendToFront (hlt : l.length < q.uxLength) :
    ∃ r', Holds c (prvCopyDataToQueue c q item .sendToFront) r' (item :: l) := by
  have hne : q.uxItemSize ≠ 0 := Nat.ne_of_gt h.size_pos
  refine h.front hitem ?_ hlt ?_ h.items
  · simp only [prvCopyDataToQueue, if_neg hne, h.count, reduceCtorEq, false_and, if_false,
      addw_of_lt (h.length_succ_lt hlt)]
  · rw [h.write, Nat.mod_add_mod]
    congr 2
    omega

theorem Holds.overwrite (hone : q.uxLength = 1) :
    ∃ r', Holds c (prvCopyDataToQueue c q item .overwrite) r' [item] := by
  have hne : q.uxItemSize ≠ 0 := Nat.ne_of_gt h.size_pos
  have hle := h.length_le
  have hlt : 1 < 2 ^ c.sizeBits := by
    have hlt := h.size_lt
    rw [hone, Nat.one_mul] at hlt
    omega
  refine h.front hitem (m := []) ?_ (by simp [hone]) ?_ (by simp)
  · have hcount : addw c.sizeBits (if l.length > 0 then l.length - 1 else l.length) 1 = 1 := by
      rw [show (if l.length > 0 then l.length - 1 else l.length) = 0 by split <;> omega]
      exact addw_of_lt hlt
    simp only [prvCopyDataToQueue, if_neg hne, h.count, true_and, hcount, length_nil, Nat.zero_add]
  · rw [h.write, hone]
    congr 1
    omega

end

theorem Holds.read_next (h : Holds c q r l) (hpos : q.uxMessagesWaiting > 0) :
    ∃ x l', l = x :: l' ∧ prvCopyDataFromQueue q = ({ q with pcReadFrom := q.place ((r + 1) % q.uxLength) }, x) ∧
      Holds c { q with
        pcReadFrom := q.place ((r + 1) % q.uxLength), uxMessagesWaiting := q.uxMessagesWaiting - 1 }
        ((r + 1) % q.uxLength) l' := by
  have hne : q.uxItemSize ≠ 0 := Nat.ne_of_gt h.size_pos
  have hlen : 0 < q.uxLength := Nat.zero_lt_of_lt h.read_lt
  have hle := h.length_le
  cases l with
  | nil =>
    rw [h.count] at hpos
    cases hpos
  | cons x l' =>
    have hitems := h.items
    rw [length_cons, Nat.add_comm l'.length, window_add] at hitems
    have hone : window q.slots q.uxLength ((r + 1) % q.uxLength) 1 = [q.slots ((r + 1) % q.uxLength)] := by
      simp [window]
    rw [hone, singleton_append, List.cons.injEq] at hitems
    obtain ⟨hhead, htail⟩ := hitems
    refine ⟨x, l', rfl, ?_, h.size_pos, h.size_lt, h.tail, Nat.mod_lt _ hlen, rfl, ?_, ?_, ?_, ?_⟩
    · simp only [prvCopyDataFromQueue, if_neg hne, h.read]
      rw [place_next h.size_pos h.tail h.read_lt, ← hhead]
      rfl
    · show q.pcWriteTo = q.place ((((r + 1) % q.uxLength + 1) % q.uxLength + l'.length) % q.uxLength)
      have hnext := Nat.mod_add_mod ((r + 1) % q.uxLength + 1) q.uxLength l'.length
      rw [h.write, length_cons, hnext, Nat.add_assoc, Nat.add_comm 1]
    · show q.uxMessagesWaiting - 1 = _
      rw [h.count]
      rfl
    · rw [length_cons] at hle
      exact Nat.le_of_succ_le hle
    · show window q.slots q.uxLength _ _ = _
      rw [window_mod]
      exact htail

/-! ## Runs -/

/-- The storage area stays where it is, and nothing outside of it is written. -/
structure Framed (q q' : Queue) : Prop where
  head : q'.pcHead = q.pcHead
  length : q'.uxLength = q.uxLength
  size : q'.uxItemSize = q.uxItemSize
  outside : ∀ a, a < q.pcHead ∨ q.place q.uxLength ≤ a → q'.mem a = q.mem a

theorem Framed.refl (q : Queue) : Framed q q := ⟨rfl, rfl, rfl, fun _ _ => rfl⟩

theorem Framed.trans {q' q'' : Queue} (h : Framed q q') (h' : Framed q' q'') : Framed q q'' where
  head := h'.head.trans h.head
  length := h'.length.trans h.length
  size := h'.size.trans h.size
  outside a ha := by
    have hplace : q'.place q'.uxLength = q.place q.uxLength := by
      rw [Queue.place, Queue.place, h.head, h.length, h.size]
    rw [h'.outside a (by rw [h.head, hplace]; exact ha), h.outside a ha]

theorem Framed.memcpyTo {q' : Queue} {p : Int} {i : Nat} (hitem : item.length = q.uxItemSize) (hp : p = q.place i)
    (hi : i < q.uxLength) (hhead : q'.pcHead = q.pcHead) (hlength : q'.uxLength = q.uxLength)
    (hsize : q'.uxItemSize = q.uxItemSize) (hmem : q'.mem = Queues.memcpyTo q.mem p item) : Framed q q' := by
  refine ⟨hhead, hlength, hsize, fun a ha => ?_⟩
  have hle := place_le (q := q) hi
  have hge : q.pcHead ≤ q.place i := by
    unfold Queue.place
    omega
  rw [hmem, Queues.memcpyTo, if_neg]
  omega

/-- Items have the size of the queue, and only the one place of a queue of length 1 is overwritten. -/
def Op.Fits (uxLength uxItemSize : Nat) : Op → Prop
  | .send x p => x.length = uxItemSize ∧ (p = .overwrite → uxLength = 1)
  | _ => True

theorem xQueueGenericReset_holds (hs : 0 < q.uxItemSize) (hl : 0 < q.uxLength)
    (hlt : q.uxLength * q.uxItemSize < 2 ^ c.sizeBits) :
    ∃ q', xQueueGenericReset c q = some q' ∧ Framed q q' ∧ Holds c q' (q.uxLength - 1) [] := by
  have hdiv : c.sizeMax / q.uxLength ≥ q.uxItemSize := by
    refine (Nat.le_div_iff_mul_le hl).mpr ?_
    rw [Nat.mul_comm, Build.sizeMax]
    omega
  have hlt' : (q.uxLength - 1) * q.uxItemSize < 2 ^ c.sizeBits :=
    lt_of_le_of_lt (Nat.mul_le_mul_right _ (Nat.sub_le ..)) hlt
  refine ⟨{ q with
    pcTail := q.pcHead + (q.uxLength * q.uxItemSize % 2 ^ c.sizeBits : Nat)
    uxMessagesWaiting := 0
    pcWriteTo := q.pcHead
    pcReadFrom := q.pcHead + ((q.uxLength - 1) * q.uxItemSize % 2 ^ c.sizeBits : Nat) },
    by rw [xQueueGenericReset, configAssert_of ⟨hl, hdiv⟩]; rfl, ⟨rfl, rfl, rfl, fun _ _ => rfl⟩, ?_⟩
  refine ⟨hs, hlt, ?_, by show q.uxLength - 1 < q.uxLength; omega, ?_, ?_, rfl, Nat.zero_le _, rfl⟩
  · show q.pcHead + _ = q.place q.uxLength
    rw [Nat.mod_eq_of_lt hlt, Queue.place]
  · show q.pcHead + _ = q.place (q.uxLength - 1)
    rw [Nat.mod_eq_of_lt hlt', Queue.place]
  · show q.pcHead = q.place (((q.uxLength - 1 + 1) % q.uxLength + 0) % q.uxLength)
    rw [Nat.sub_add_cancel hl, Nat.mod_self]
    simp [Queue.place]

theorem xQueueGenericSend_holds (h : Holds c q r l) {p : CopyPosition}
    (hfit : (Op.send item p).Fits q.uxLength q.uxItemSize) :
    ∃ q' r', xQueueGenericSend c q item p = some (q', (dequeStep q.uxLength l (.send item p)).2) ∧ Framed q q' ∧
      Holds c q' r' (dequeStep q.uxLength l (.send item p)).1 := by
  obtain ⟨hitem, hover⟩ := hfit
  have hassert : ¬ (p = .overwrite ∧ q.uxLength ≠ 1) := fun ⟨hp, hne⟩ => hne (hover hp)
  have hpos : 0 < q.uxLength := Nat.zero_lt_of_lt h.read_lt
  have hne : q.uxItemSize ≠ 0 := Nat.ne_of_gt h.size_pos
  simp only [xQueueGenericSend, configAssert_of hassert, bind, Option.bind_some, h.count]
  have hframe : Framed q (prvCopyDataToQueue c q item p) := by
    cases p with
    | sendToBack =>
      refine .memcpyTo hitem h.write (Nat.mod_lt _ hpos) ?_ ?_ ?_ ?_ <;> simp only [prvCopyDataToQueue, if_neg hne]
    | sendToFront | overwrite =>
      refine .memcpyTo hitem h.read h.read_lt ?_ ?_ ?_ ?_ <;> simp only [prvCopyDataToQueue, if_neg hne]
  cases p with
  | sendToBack =>
    simp only [reduceCtorEq, or_false, dequeStep]
    split
    · rename_i hlt
      exact ⟨_, r, rfl, hframe, h.sendToBack hitem hlt⟩
    · exact ⟨q, r, rfl, .refl q, h⟩
  | sendToFront =>
    simp only [reduceCtorEq, or_false, dequeStep]
    split
    · rename_i hlt
      obtain ⟨r', h'⟩ := h.sendToFront hitem hlt
      exact ⟨_, r', rfl, hframe, h'⟩
    · exact ⟨q, r, rfl, .refl q, h⟩
  | overwrite =>
    obtain ⟨r', h'⟩ := h.overwrite hitem (hover rfl)
    simp only [or_true, if_true, dequeStep]
    exact ⟨_, r', rfl, hframe, h'⟩

theorem step_holds (h : Holds c q r l) {op : Op} (hfit : op.Fits q.uxLength q.uxItemSize) :
    ∃ q' r', step c q op = some (q', (dequeStep q.uxLength l op).2) ∧ Framed q q' ∧
      Holds c q' r' (dequeStep q.uxLength l op).1 := by
  cases op with
  | send x p => exact xQueueGenericSend_holds h hfit
  | receive =>
    simp only [step, xQueueReceive]
    split
    · rename_i hpos
      obtain ⟨x, l', rfl, hcopy, h'⟩ := h.read_next hpos
      rw [hcopy]
      exact ⟨_, _, rfl, ⟨rfl, rfl, rfl, fun _ _ => rfl⟩, h'⟩
    · rename_i hzero
      have hnil : l = [] := eq_nil_of_length_eq_zero (by have := h.count; omega)
      subst hnil
      exact ⟨q, r, rfl, .refl q, h⟩
  | peek =>
    simp only [step, xQueuePeek]
    split
    · rename_i hpos
      obtain ⟨x, l', rfl, hcopy, _⟩ := h.read_next hpos
      rw [hcopy]
      exact ⟨q, r, rfl, .refl q, h⟩
    · have hnil : l = [] := eq_nil_of_length_eq_zero (by have := h.count; omega)
      subst hnil
      exact ⟨q, r, rfl, .refl q, h⟩
  | reset =>
    obtain ⟨q', hq', hframe, h'⟩ := xQueueGenericReset_holds h.size_pos (Nat.zero_lt_of_lt h.read_lt) h.size_lt
    refine ⟨q', _, ?_, hframe, h'⟩
    simp only [step, hq', Option.map_some]
    rfl

theorem run_holds {ops : List Op} (h : Holds c q r l) (hfit : ∀ op ∈ ops, op.Fits q.uxLength q.uxItemSize) :
    ∃ q' r', run c q ops = some (q', (dequeRun q.uxLength l ops).2) ∧ Framed q q' ∧
      Holds c q' r' (dequeRun q.uxLength l ops).1 := by
  induction ops generalizing q r l with
  | nil => exact ⟨q, r, rfl, .refl q, h⟩
  | cons op ops ih =>
    obtain ⟨q1, r1, hstep, hframe, h1⟩ := step_holds h (hfit op (mem_cons_self ..))
    have hfit1 : ∀ op ∈ ops, op.Fits q1.uxLength q1.uxItemSize := by
      rw [hframe.length, hframe.size]
      exact fun op hop => hfit op (mem_cons_of_mem _ hop)
    obtain ⟨q2, r2, hrun, hframe2, h2⟩ := ih h1 hfit1
    rw [hframe.length] at hrun h2
    refine ⟨q2, r2, ?_, hframe.trans hframe2, h2⟩
    rw [run, hstep, Option.bind_some, hrun]
    rfl

theorem xQueueGenericCreate_holds {mem : Int → UInt8} {p : Int} {len size : Nat} (hsize : 1 ≤ size)
    (hq : xQueueGenericCreate c mem p len size = some q) :
    Holds c q (len - 1) [] ∧ q.uxLength = len ∧ q.uxItemSize = size ∧ q.pcHead = p + c.structSize ∧ q.mem = mem := by
  obtain ⟨_, hok, hq⟩ := Option.bind_eq_some_iff.mp hq
  obtain ⟨hlen, hdiv, _⟩ := of_configAssert hok
  have hlt : len * size < 2 ^ c.sizeBits := by
    have hmul := (Nat.le_div_iff_mul_le hlen).mp hdiv
    rw [Nat.mul_comm, Build.sizeMax] at hmul
    omega
  have hne : size ≠ 0 := Nat.ne_of_gt hsize
  simp only [prvInitialiseNewQueue, if_neg hne] at hq
  set q0 : Queue := ⟨p + c.structSize, p + c.structSize, p + c.structSize, p + c.structSize, 0, len, size, mem⟩ with hq0
  obtain ⟨q1, hq1, hframe, h1⟩ := xQueueGenericReset_holds (c := c) (q := q0) hsize hlen hlt
  cases hq1.symm.trans hq
  obtain ⟨_, _, hreset⟩ := Option.bind_eq_some_iff.mp hq
  cases hreset
  exact ⟨h1, rfl, rfl, rfl, rfl⟩

/-- **A queue is a bounded double-ended queue.** Every sequence of calls on a new queue returns what the same
calls on a list of at most `uxQueueLength` items return, the items are those of the list, in the places behind
`pcReadFrom`, and no byte outside of the storage area has changed. -/
theorem queue_refines_deque {mem : Int → UInt8} {p : Int} {len size : Nat} (hsize : 1 ≤ size)
    (hq : xQueueGenericCreate c mem p len size = some q) {ops : List Op} (hops : ∀ op ∈ ops, op.Fits len size) :
    ∃ q' rs l r, run c q ops = some (q', rs) ∧ dequeRun len [] ops = (l, rs) ∧
      q'.uxMessagesWaiting = l.length ∧ l.length ≤ len ∧
      window q'.slots len ((r + 1) % len) l.length = l ∧
      q'.pcHead = p + c.structSize ∧ q'.pcTail = q'.pcHead + (len * size : Nat) ∧
      (r < len ∧ q'.pcReadFrom = q'.pcHead + (r * size : Nat)) ∧
      (∃ w < len, q'.pcWriteTo = q'.pcHead + (w * size : Nat)) ∧
      ∀ a, a < q'.pcHead ∨ q'.pcTail ≤ a → q'.mem a = mem a := by
  obtain ⟨h, rfl, rfl, hhead, rfl⟩ := xQueueGenericCreate_holds hsize hq
  obtain ⟨q', r, hrun, hframe, h'⟩ := run_holds h hops
  have hplace : ∀ i, q'.place i = q'.pcHead + (i * q.uxItemSize : Nat) := fun i => by rw [Queue.place, hframe.size]
  have htail := h'.tail
  have hread := h'.read
  have hwrite := h'.write
  rw [hplace, hframe.length] at htail
  rw [hplace] at hread
  rw [hplace, hframe.length] at hwrite
  have hitems := h'.items
  rw [hframe.length] at hitems
  have hpos : 0 < q.uxLength := Nat.zero_lt_of_lt h.read_lt
  refine ⟨q', _, _, r, hrun, rfl, h'.count, hframe.length ▸ h'.length_le, hitems, hframe.head.trans hhead, htail,
    ⟨hframe.length ▸ h'.read_lt, hread⟩, ⟨_, Nat.mod_lt _ hpos, hwrite⟩, fun a ha => hframe.outside a ?_⟩
  rw [Queue.place, ← hframe.head, ← htail]
  exact ha

/-- Two places of two bytes, with a wrap in both directions. -/
theorem queue_refines_deque_two :
    ∃ q q' rs, xQueueGenericCreate ⟨32, 80⟩ (fun _ => 0) 0x1000 2 2 = some q ∧
      run ⟨32, 80⟩ q [.send [1, 2] .sendToFront, .send [3, 4] .sendToBack, .send [5, 6] .sendToBack, .receive, .peek] =
        some (q', rs) ∧ rs = [.pdPass, .pdPass, .errQueueFull, .item [1, 2], .item [3, 4]] := by
  set q := (xQueueGenericCreate ⟨32, 80⟩ (fun _ => 0) 0x1000 2 2).get (by decide +kernel)
  have hq : xQueueGenericCreate ⟨32, 80⟩ (fun _ => 0) 0x1000 2 2 = some q := (Option.some_get _).symm
  have hops : ∀ op ∈ [Op.send [1, 2] .sendToFront, .send [3, 4] .sendToBack, .send [5, 6] .sendToBack, .receive, .peek],
      op.Fits 2 2 := by simp [Op.Fits]
  obtain ⟨q', rs, l, r, hrun, hspec, _⟩ := queue_refines_deque (by decide) hq hops
  exact ⟨q, q', rs, hq, hrun, by cases hspec; rfl⟩

end RtosKernel.FreeRTOS.Queues
