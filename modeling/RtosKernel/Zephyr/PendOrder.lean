import RtosKernel.Zephyr.Pend
import RtosKernel.Zephyr.PriqRuns

/-! # The order of the wait queues

The keys of a tree stay apart: a thread gets the next one, and the one that gets the last one is alone with it, as
the others are numbered from 0 then. So a queue stays in order as long as no priority that changes takes a waiting
thread past another one. -/

namespace RtosKernel.Zephyr.Pend
open Lib.Runs List Function
open Zephyr.WaitQ
open Zephyr.Priq
open Zephyr.Rb (Heap Fault)

variable {T M O : Type} [ord : LinearOrder T] [dM : DecidableEq M] [dO : DecidableEq O] {b : Backend}

/-- A thread is not behind another one in a queue: by the priorities in a list, by `z_priq_rb_lessthan` in a tree. -/
def Before (b : Backend) (base : T → ThreadBase) (t u : T) : Prop :=
  match b with
  | .dumb => (base t).prio ≤ (base u).prio
  | .scalable => zPriqRbLessthan base t u = true

instance (base : T → ThreadBase) (t u : T) : Decidable (Before b base t u) := by
  cases b <;> unfold Before <;> infer_instance

/-- The threads of a queue are in the order of their present priorities. -/
def Sorted (b : Backend) (base : T → ThreadBase) (d : List T) : Prop := d.Pairwise (Before b base)
  deriving Decidable

section Sorted
variable {base base' : T → ThreadBase} {d : List T} {t u : T}

section
omit ord

theorem Before.prio (h : Before b base t u) : (base t).prio ≤ (base u).prio := by
  cases b with
  | dumb => exact h
  | scalable => exact lessthan_prio h

theorem Before.congr (h : Before b base t u) (ht : base' t = base t) (hu : base' u = base u) : Before b base' t u := by
  cases b with
  | dumb =>
    change (base' t).prio ≤ (base' u).prio
    rw [ht, hu]
    exact h
  | scalable =>
    change zPriqRbLessthan base' t u = true
    rw [lessthan_iff, ht, hu, ← lessthan_iff]
    exact h

theorem Sorted.congr (h : Sorted b base d) (hsame : ∀ t ∈ d, base' t = base t) : Sorted b base' d :=
  List.Pairwise.imp_of_mem (fun ha hb hab => Before.congr hab (hsame _ ha) (hsame _ hb)) h

theorem Sorted.head (h : Sorted b base d) (ht : d.head? = some t) (hu : u ∈ d) : (base t).prio ≤ (base u).prio := by
  cases d with
  | nil => cases ht
  | cons v d =>
    obtain rfl : v = t := Option.some.inj ht
    rcases mem_cons.mp hu with rfl | hu
    · exact le_rfl
    · exact (rel_of_pairwise_cons h hu).prio

end

end Sorted

/-! ## The keys of a tree -/

/-- No two threads of a tree have the same key, and none has one that the next threads get before the last key. -/
structure Keys (base : T → ThreadBase) (next : Nat) (d : List T) : Prop where
  range : next < 2 ^ 32
  apart : ∀ t ∈ d, ∀ u ∈ d, (base t).orderKey = (base u).orderKey → t = u
  below : ∀ t ∈ d, (base t).orderKey < next ∨ (base t).orderKey = 2 ^ 32 - 1

section Keys
variable {base base' : T → ThreadBase} {d : List T} {t u thread : T} {next : Nat}

omit ord in
theorem Keys.congr (h : Keys base next d) (hsame : ∀ t ∈ d, (base' t).orderKey = (base t).orderKey) :
    Keys base' next d := by
  refine ⟨h.range, fun t ht u hu heq => h.apart t ht u hu ?_, fun t ht => ?_⟩
  · rw [← hsame t ht, ← hsame u hu]
    exact heq
  · rw [hsame t ht]
    exact h.below t ht

omit ord in
theorem Keys.sub (h : Keys base next d) {d' : List T} (hsub : ∀ t ∈ d', t ∈ d) : Keys base next d' :=
  ⟨h.range, fun t ht u hu => h.apart t (hsub t ht) u (hsub u hu), fun t ht => h.below t (hsub t ht)⟩

theorem newKeys_member (hnodup : d.Nodup) (hnew : thread ∉ d) (hlen : d.length < 2 ^ 32) (hnext : next < 2 ^ 32)
    (ht : t ∈ d) : ((newKeys base next thread d).1 t).orderKey =
      if next = 2 ^ 32 - 1 then d.idxOf t else (base t).orderKey := by
  rw [newKeys]
  by_cases hwrap : next = 2 ^ 32 - 1
  · rw [if_pos hwrap, if_pos (by omega), show (next + 1) % 2 ^ 32 = 0 by omega,
      renumber_key hnodup (by omega) ht, Nat.zero_add]
  · rw [if_neg hwrap, if_neg (by omega)]
    exact congrArg ThreadBase.orderKey (setOrderKey_other _ (ne_of_mem_of_not_mem ht hnew))

theorem newKeys_thread (hnew : thread ∉ d) : ((newKeys base next thread d).1 thread).orderKey = next := by
  rw [newKeys]
  by_cases hwrap : (next + 1) % 2 ^ 32 = 0
  · rw [if_pos hwrap, renumber_other _ hnew, setOrderKey_self]
  · rw [if_neg hwrap, setOrderKey_self]

theorem newKeys_other (hne : t ≠ thread) (hnot : t ∉ d) : (newKeys base next thread d).1 t = base t := by
  rw [newKeys]
  by_cases hwrap : (next + 1) % 2 ^ 32 = 0
  · rw [if_pos hwrap, renumber_other _ hnot, setOrderKey_other _ hne]
  · rw [if_neg hwrap]
    exact setOrderKey_other _ hne

theorem renumber_next_eq {k : Nat} (hk : k + d.length < 2 ^ 32) : (renumber base k d).2 = k + d.length := by
  induction d generalizing base k with
  | nil => rfl
  | cons u d ih =>
    rw [length_cons] at hk
    rw [renumber, Nat.mod_eq_of_lt (by omega), ih (by omega), length_cons]
    omega

theorem newKeys_next_eq (hlen : d.length < 2 ^ 32) (hnext : next < 2 ^ 32) :
    (newKeys base next thread d).2 = if next = 2 ^ 32 - 1 then d.length else next + 1 := by
  rw [newKeys]
  by_cases hwrap : next = 2 ^ 32 - 1
  · rw [if_pos hwrap, if_pos (by omega), show (next + 1) % 2 ^ 32 = 0 by omega, renumber_next_eq (by omega), Nat.zero_add]
  · rw [if_neg hwrap, if_neg (by omega)]
    exact Nat.mod_eq_of_lt (by omega)

theorem Keys.fresh (h : Keys base next d) (hnodup : d.Nodup) (hnew : thread ∉ d) (hlen : d.length < 2 ^ 32)
    (ht : t ∈ d) : ((newKeys base next thread d).1 t).orderKey ≠ next := by
  have hnext := h.range
  have hidx := idxOf_lt_length_of_mem ht
  rw [newKeys_member hnodup hnew hlen hnext ht]
  by_cases hwrap : next = 2 ^ 32 - 1
  · rw [if_pos hwrap]
    omega
  · rw [if_neg hwrap]
    rcases h.below t ht with hlt | hlast
    · omega
    · omega

theorem Keys.add (h : Keys base next d) (hnodup : d.Nodup) (hnew : thread ∉ d) (hlen : d.length < 2 ^ 32)
    {d' : List T} (hmem : ∀ u ∈ d', u = thread ∨ u ∈ d) :
    Keys (newKeys base next thread d).1 (newKeys base next thread d).2 d' := by
  have hnext := h.range
  refine ⟨newKeys_next, fun t ht u hu heq => ?_, fun t ht => ?_⟩
  · rcases hmem t ht with rfl | ht
    · rcases hmem u hu with rfl | hu
      · rfl
      · rw [newKeys_thread hnew] at heq
        exact absurd heq.symm (h.fresh hnodup hnew hlen hu)
    · rcases hmem u hu with rfl | hu
      · rw [newKeys_thread hnew] at heq
        exact absurd heq (h.fresh hnodup hnew hlen ht)
      · rw [newKeys_member hnodup hnew hlen hnext ht, newKeys_member hnodup hnew hlen hnext hu] at heq
        by_cases hwrap : next = 2 ^ 32 - 1
        · rw [if_pos hwrap, if_pos hwrap] at heq
          exact (idxOf_inj ht).mp heq
        · rw [if_neg hwrap, if_neg hwrap] at heq
          exact h.apart t ht u hu heq
  · rw [newKeys_next_eq hlen hnext]
    rcases hmem t ht with rfl | ht
    · rw [newKeys_thread hnew]
      by_cases hwrap : next = 2 ^ 32 - 1
      · exact .inr hwrap
      · rw [if_neg hwrap]
        exact .inl (Nat.lt_succ_self next)
    · rw [newKeys_member hnodup hnew hlen hnext ht]
      by_cases hwrap : next = 2 ^ 32 - 1
      · rw [if_pos hwrap, if_pos hwrap]
        exact .inl (idxOf_lt_length_of_mem ht)
      · rw [if_neg hwrap, if_neg hwrap]
        exact (h.below t ht).imp (fun hlt => Nat.lt_succ_of_lt hlt) id

omit ord in
theorem exists_ordered_insert (h : Ordered base d) (hkey : ∀ u ∈ d, (base u).orderKey ≠ (base t).orderKey) :
    ∃ d', Ordered base d' ∧ ∀ u, u ∈ d' ↔ u = t ∨ u ∈ d := by
  induction d with
  | nil => exact ⟨[t], pairwise_singleton _ _, fun u => by simp⟩
  | cons v d ih =>
    obtain ⟨hv, hd⟩ := pairwise_cons.mp h
    by_cases htv : zPriqRbLessthan base t v = true
    · refine ⟨t :: v :: d, pairwise_cons.mpr ⟨fun u hu => ?_, h⟩, fun u => mem_cons⟩
      rcases mem_cons.mp hu with rfl | hu
      · exact htv
      · have hvu := hv u hu
        rw [lessthan_iff] at htv hvu ⊢
        omega
    · obtain ⟨d', hd', hmem⟩ := ih hd fun u hu => hkey u (mem_cons_of_mem v hu)
      have hvt : zPriqRbLessthan base v t = true := by
        have hne := hkey v mem_cons_self
        rw [lessthan_iff] at htv ⊢
        omega
      refine ⟨v :: d', pairwise_cons.mpr ⟨fun u hu => ?_, hd'⟩, fun u => ?_⟩
      · rcases (hmem u).mp hu with rfl | hu
        · exact hvt
        · exact hv u hu
      · rw [mem_cons, mem_cons, hmem]
        exact or_left_comm

end Keys

/-! ## One queue -/

/-- A queue holds the threads of a list, which are in order; the keys of a tree are apart. -/
def QueueOk : (b : Backend) → (T → ThreadBase) → WaitQueue T b → List T → Prop
  | .dumb, base, pq, d => pq = d ∧ d.Nodup ∧ Sorted .dumb base d
  | .scalable, base, pq, d => Refines base pq.tree d ∧ Sorted .scalable base d ∧ Keys base pq.nextOrderKey d

section Queue
variable {base base' : T → ThreadBase} {pq : WaitQueue T b} {d : List T} {t thread : T}

section
variable (h : QueueOk b base pq d)
include h

theorem QueueOk.sorted : Sorted b base d := by
  cases b with
  | dumb => exact h.2.2
  | scalable => exact h.2.1

theorem QueueOk.nodup : d.Nodup := by
  cases b with
  | dumb => exact h.2.1
  | scalable => exact Ordered.nodup h.2.1

theorem QueueOk.waiters : waiters pq = .ok d := by
  cases b with
  | dumb => exact congrArg Except.ok h.1
  | scalable => exact h.1.forEach

theorem QueueOk.best : priqWaitBest pq = some d.head? := by
  cases b with
  | dumb =>
    obtain rfl : pq = d := h.1
    rfl
  | scalable => exact h.1.best pq.nextOrderKey

end

theorem QueueOk.init (base : T → ThreadBase) (heap : Heap T) : QueueOk b base (zWaitqInit heap b) [] := by
  cases b with
  | dumb => exact ⟨rfl, nodup_nil, List.Pairwise.nil⟩
  | scalable =>
    refine ⟨⟨.nil, @Rb.Inv.mk T (threadOrder base) _ _ rfl List.Pairwise.nil rfl ⟨0, rfl, le_rfl⟩ le_rfl, rfl⟩,
      List.Pairwise.nil, Nat.two_pow_pos 32, nofun, nofun⟩

theorem QueueOk.reorder (h : QueueOk b base pq d) (hsorted : Sorted b base' d)
    (hkey : ∀ t ∈ d, (base' t).orderKey = (base t).orderKey) : QueueOk b base' pq d := by
  cases b with
  | dumb => exact ⟨h.1, h.2.1, hsorted⟩
  | scalable => exact ⟨h.1.reorder hsorted, hsorted, h.2.2.congr hkey⟩

theorem QueueOk.congr (h : QueueOk b base pq d) (hsame : ∀ t ∈ d, base' t = base t) : QueueOk b base' pq d :=
  h.reorder (h.sorted.congr hsame) fun t ht => congrArg ThreadBase.orderKey (hsame t ht)

omit ord in
theorem sorted_zPriqDumbAdd (h : Sorted .dumb base d) :
    Sorted .dumb base (zPriqDumbAdd (fun t => (base t).prio) thread d) := by
  induction d with
  | nil => exact pairwise_singleton _ _
  | cons u pq ih =>
    obtain ⟨hu, hpq⟩ := pairwise_cons.mp h
    rw [zPriqDumbAdd]
    by_cases hlt : zSchedPrioCmp (fun t => (base t).prio) thread u > 0
    · rw [if_pos hlt]
      have hless : (base thread).prio < (base u).prio := by
        simp only [zSchedPrioCmp] at hlt
        omega
      refine pairwise_cons.mpr ⟨fun x hx => ?_, h⟩
      rcases mem_cons.mp hx with rfl | hx
      · exact hless.le
      · exact hless.le.trans (hu x hx).prio
    · rw [if_neg hlt]
      refine pairwise_cons.mpr ⟨fun x hx => ?_, ih hpq⟩
      rcases mem_zPriqDumbAdd.mp hx with rfl | hx
      · simp only [zSchedPrioCmp] at hlt
        change (base u).prio ≤ (base x).prio
        omega
      · exact hu x hx

theorem QueueOk.add (h : QueueOk b base pq d) (hnew : thread ∉ d) (hlen : b = .scalable → d.length < 2 ^ 32) :
    ∃ base' pq' d', zPriqWaitAdd base thread pq = .ok (base', pq') ∧ QueueOk b base' pq' d' ∧
      (∀ u, u ∈ d' ↔ u = thread ∨ u ∈ d) ∧ (∀ u, (base' u).prio = (base u).prio) ∧
      ∀ u, u ≠ thread → u ∉ d → base' u = base u := by
  cases b with
  | dumb =>
    obtain ⟨rfl, hnodup, hsorted⟩ := h
    exact ⟨base, _, _, rfl, ⟨rfl, nodup_zPriqDumbAdd.mpr ⟨hnew, hnodup⟩, sorted_zPriqDumbAdd hsorted⟩,
      fun _ => mem_zPriqDumbAdd, fun _ => rfl, fun _ _ _ => rfl⟩
  | scalable =>
    obtain ⟨htree, hsorted, hkeys⟩ := h
    replace hlen := hlen rfl
    have hnodup := Ordered.nodup hsorted
    have hordered : Ordered (newKeys base pq.nextOrderKey thread d).1 d :=
      newKeys_ordered hsorted hnew (fun _ => hlen) hkeys.range
    obtain ⟨d', hd', hmem⟩ := exists_ordered_insert (t := thread) hordered fun u hu => by
      rw [newKeys_thread hnew]
      exact hkeys.fresh hnodup hnew hlen hu
    obtain ⟨tree, hgo, htree'⟩ := (htree.reorder hordered).insert hnew hd' hmem
    refine ⟨_, ⟨tree, (newKeys base pq.nextOrderKey thread d).2⟩, d', ?_,
      ⟨htree', hd', hkeys.add hnodup hnew hlen fun u hu => (hmem u).mp hu⟩, hmem, fun _ => newKeys_prio,
      fun _ hne hnot => newKeys_other hne hnot⟩
    rw [zPriqWaitAdd, zPriqRbAdd_eq htree, hgo]
    rfl

theorem QueueOk.remove (h : QueueOk b base pq d) (ht : t ∈ d) :
    ∃ pq', priqWaitRemove base t pq = .ok pq' ∧ QueueOk b base pq' (d.erase t) := by
  cases b with
  | dumb =>
    obtain ⟨rfl, hnodup, hsorted⟩ := h
    exact ⟨_, rfl, rfl, hnodup.erase t, hsorted.sublist erase_sublist⟩
  | scalable =>
    obtain ⟨htree, hsorted, hkeys⟩ := h
    obtain ⟨tree, hgo, htree'⟩ := htree.remove hsorted ht
    refine ⟨⟨tree, if tree.root = none then 0 else pq.nextOrderKey⟩, ?_, htree', hsorted.sublist erase_sublist, ?_⟩
    · change (rbRemoveBy (zPriqRbLessthan base) pq.tree t).bind _ = _
      rw [hgo]
      rfl
    · have hsub := hkeys.sub fun u (hu : u ∈ d.erase t) => mem_of_mem_erase hu
      by_cases hroot : tree.root = none
      · rw [if_pos hroot, htree'.root_eq_none.mp hroot]
        exact ⟨Nat.two_pow_pos 32, nofun, nofun⟩
      · rw [if_neg hroot]
        exact hsub

end Queue

/-! ## All queues -/

/-- The queue of `w` holds the threads that wait there. -/
def Holds (s : System T M O b) (w : Object M O) (d : List T) : Prop :=
  QueueOk b s.base (s.waitq w) d ∧ ∀ t, t ∈ d ↔ s.pendedOn t = some w

def Inv (s : System T M O b) : Prop := ∀ w, ∃ d, Holds s w d

/-- What waits in a tree can be numbered. -/
def Room (s : System T M O b) (w : Object M O) : Prop :=
  b = .scalable → ∀ d : List T, d.Nodup → (∀ t ∈ d, s.pendedOn t = some w) → d.length < 2 ^ 32

/-- With its new priority, a thread that waits keeps its place: no thread ahead of it and no thread behind it is on
the wrong side. -/
def Stays (s : System T M O b) (t : T) (prio : Int) : Prop :=
  ∀ w ∈ s.pendedOn t, ∀ d ∈ (waiters (s.waitq w)).toOption,
    (∀ u ∈ d.take (d.idxOf t), Before b (setPrio s.base t prio) u t) ∧
      ∀ u ∈ d.drop (d.idxOf t + 1), Before b (setPrio s.base t prio) t u

instance (s : System T M O b) (t : T) (prio : Int) : Decidable (Stays s t prio) := by
  unfold Stays
  infer_instance

section Functions
variable {s s' : System T M O b} {t thread : T} {w : Object M O} {prio : Int}

omit dM dO in
theorem Inv.congr (h : Inv s) (hbase : s'.base = s.base) (hwaitq : s'.waitq = s.waitq)
    (hpended : s'.pendedOn = s.pendedOn) : Inv s' := by
  intro w
  obtain ⟨d, hd, hmem⟩ := h w
  refine ⟨d, ?_, ?_⟩
  · rw [hbase, hwaitq]
    exact hd
  · rw [hpended]
    exact hmem

variable {base : T → ThreadBase}

theorem setPrio_other (h : t ≠ thread) : setPrio base thread prio t = base t :=
  update_of_ne h ..

theorem setPrio_orderKey : (setPrio base thread prio t).orderKey = (base t).orderKey := by
  by_cases h : t = thread
  · rw [h, setPrio, update_self]
  · rw [setPrio_other h]

theorem Sorted.stays {d : List T} (h : Sorted b base d) (hnodup : d.Nodup)
    (hahead : ∀ u ∈ d.take (d.idxOf t), Before b (setPrio base t prio) u t)
    (hbehind : ∀ u ∈ d.drop (d.idxOf t + 1), Before b (setPrio base t prio) t u) :
    Sorted b (setPrio base t prio) d := by
  rw [Sorted, pairwise_iff_getElem] at h ⊢
  intro i j hi hj hij
  by_cases hit : d[i] = t
  · have hi' : d.idxOf t = i := by rw [← hit, hnodup.idxOf_getElem]
    rw [hit]
    refine hbehind _ (mem_drop_iff_getElem.mpr ⟨j - (i + 1), by omega, ?_⟩)
    simp only [hi', show i + 1 + (j - (i + 1)) = j by omega]
  · by_cases hjt : d[j] = t
    · have hj' : d.idxOf t = j := by rw [← hjt, hnodup.idxOf_getElem]
      rw [hjt]
      exact hahead _ (mem_take_iff_getElem.mpr ⟨i, by omega, rfl⟩)
    · exact (h i j hi hj hij).congr (setPrio_other hit) (setPrio_other hjt)

omit dM dO in
theorem zSetPrio_inv (h : Inv s) (hstays : Stays s t prio) : Inv (zSetPrio s t prio) := by
  intro w
  obtain ⟨d, hd, hmem⟩ := h w
  refine ⟨d, ?_, hmem⟩
  by_cases ht : t ∈ d
  · have hwait := hd.waiters
    obtain ⟨hahead, hbehind⟩ := hstays w ((hmem t).mp ht) d (by rw [hwait]; rfl)
    exact hd.reorder (hd.sorted.stays hd.nodup hahead hbehind) fun u _ => setPrio_orderKey
  · exact hd.congr fun u hu => setPrio_other fun heq => ht (heq ▸ hu)

theorem addToWaitqLocked_inv (h : Inv s) (hfree : s.pendedOn thread = none) (hroom : Room s w) :
    ∃ s', addToWaitqLocked s thread w = .ok s' ∧ Inv s' := by
  obtain ⟨d, hd, hmem⟩ := h w
  have hnew : thread ∉ d := fun ht => by
    rw [hmem, hfree] at ht
    cases ht
  obtain ⟨base', pq', d', hgo, hd', hmem', -, hother⟩ := hd.add hnew fun hb =>
    hroom hb d hd.nodup fun t ht => (hmem t).mp ht
  refine ⟨_, by rw [addToWaitqLocked, hgo]; rfl, fun w' => ?_⟩
  by_cases hw : w' = w
  · subst hw
    refine ⟨d', ?_, fun t => ?_⟩
    · change QueueOk b base' (update s.waitq w' pq' w') d'
      rw [update_self]
      exact hd'
    · change _ ↔ update s.pendedOn thread (some w') t = some w'
      rw [hmem', hmem]
      by_cases ht : t = thread
      · rw [ht, update_self]
        exact ⟨fun _ => rfl, fun _ => .inl rfl⟩
      · rw [update_of_ne ht]
        exact or_iff_right ht
  · obtain ⟨d₂, hd₂, hmem₂⟩ := h w'
    refine ⟨d₂, ?_, fun t => ?_⟩
    · change QueueOk b base' (update s.waitq w pq' w') d₂
      rw [update_of_ne hw]
      refine hd₂.congr fun t ht => hother t ?_ fun htd => ?_
      · rintro rfl
        rw [hmem₂, hfree] at ht
        cases ht
      · rw [hmem] at htd
        rw [hmem₂, htd] at ht
        exact hw (Option.some.inj ht).symm
    · change _ ↔ update s.pendedOn thread (some w) t = some w'
      by_cases ht : t = thread
      · rw [ht, update_self, hmem₂, hfree]
        exact ⟨nofun, fun heq => absurd (Option.some.inj heq).symm hw⟩
      · rw [update_of_ne ht]
        exact hmem₂ t

theorem unpendThreadNoTimeout_inv (h : Inv s) (hp : s.pendedOn thread = some w) :
    ∃ s', unpendThreadNoTimeout s thread w = .ok s' ∧ Inv s' := by
  obtain ⟨d, hd, hmem⟩ := h w
  obtain ⟨pq', hgo, hd'⟩ := hd.remove ((hmem thread).mpr hp)
  refine ⟨_, by rw [unpendThreadNoTimeout, hgo]; rfl, fun w' => ?_⟩
  by_cases hw : w' = w
  · subst hw
    refine ⟨d.erase thread, ?_, fun t => ?_⟩
    · change QueueOk b s.base (update s.waitq w' pq' w') (d.erase thread)
      rw [update_self]
      exact hd'
    · change _ ↔ update s.pendedOn thread none t = some w'
      rw [hd.nodup.mem_erase_iff, hmem]
      by_cases ht : t = thread
      · rw [ht, update_self]
        exact ⟨fun hc => absurd rfl hc.1, nofun⟩
      · rw [update_of_ne ht]
        exact and_iff_right ht
  · obtain ⟨d₂, hd₂, hmem₂⟩ := h w'
    refine ⟨d₂, ?_, fun t => ?_⟩
    · change QueueOk b s.base (update s.waitq w pq' w') d₂
      rw [update_of_ne hw]
      exact hd₂
    · change _ ↔ update s.pendedOn thread none t = some w'
      by_cases ht : t = thread
      · rw [ht, update_self, hmem₂, hp]
        exact ⟨fun heq => absurd (Option.some.inj heq).symm hw, nofun⟩
      · rw [update_of_ne ht]
        exact hmem₂ t

theorem zUnpendFirstThread_inv (h : Inv s) (w : Object M O) :
    ∃ s' first, zUnpendFirstThread s w = .ok (s', first) ∧ Inv s' ∧
      (∀ t, first = some t → s.pendedOn t = some w ∧
        ∀ u, s.pendedOn u = some w → (s.base t).prio ≤ (s.base u).prio) ∧
      (first = none → ∀ u, s.pendedOn u ≠ some w) := by
  obtain ⟨d, hd, hmem⟩ := h w
  have hbest := hd.best
  cases hhead : d.head? with
  | none =>
    rw [hhead] at hbest
    refine ⟨s, none, by simp only [zUnpendFirstThread, hbest], h, nofun, fun _ u hu => ?_⟩
    rw [List.head?_eq_none_iff.mp hhead] at hmem
    exact absurd ((hmem u).mpr hu) not_mem_nil
  | some t =>
    rw [hhead] at hbest
    have hp := (hmem t).mp (List.mem_of_mem_head? hhead)
    obtain ⟨s', hgo, hs'⟩ := unpendThreadNoTimeout_inv h hp
    refine ⟨s', some t, by simp only [zUnpendFirstThread, hbest, hgo, Except.map], hs', ?_, nofun⟩
    rintro _ ⟨⟩
    exact ⟨hp, fun u hu => hd.sorted.head hhead ((hmem u).mpr hu)⟩

end Functions

/-! ## Runs -/

/-- The priority that `k_mutex_lock` gives to the owner of a mutex it waits for. -/
def raisedPrio (ceiling : Int) (s : System T M O b) (t o : T) : Int :=
  Mutexes.newPrioForInheritance ceiling (s.base t).prio (s.base o).prio

/-- Every thread that waits keeps its place with the priority that an operation gives it. -/
def KeepsPlaces (ceiling : Int) (s : System T M O b) : Op T M O → Prop
  | .prioritySet t prio => Stays s t prio
  | .lock t m noWait => ∀ o ∈ (s.mutex m).owner, (s.mutex m).lockCount ≠ 0 ∧ o ≠ t ∧ noWait = false ∧
      Mutexes.zIsPrioHigher (raisedPrio ceiling s t o) (s.base o).prio → Stays s o (raisedPrio ceiling s t o)
  | .lockTimedOut t => ∀ m ∈ s.lockTimedOut t, ∀ o ∈ (s.mutex m).owner, Stays s o (loweredPrio s ceiling m)
  | _ => True

instance (ceiling : Int) (s : System T M O b) (op : Op T M O) : Decidable (KeepsPlaces ceiling s op) := by
  cases op <;> unfold KeepsPlaces <;> infer_instance

/-- A thread that begins to wait finds room in the tree. -/
def HasRoom (s : System T M O b) : Op T M O → Prop
  | .pend _ o => Room s (.other o)
  | .lock _ m _ => Room s (.mutex m)
  | _ => True

section Steps
variable {ceiling : Int} {s s' : System T M O b} {t o : T} {m : M} {prio : Int}

omit dM dO in
theorem adjustOwnerPrio_inv (h : Inv s) (hstays : ∀ o ∈ (s.mutex m).owner, Stays s o prio)
    (hs : adjustOwnerPrio s m prio = .ok s') : Inv s' := by
  unfold adjustOwnerPrio at hs
  cases howner : (s.mutex m).owner with
  | none =>
    rw [howner] at hs
    cases hs
  | some o =>
    rw [howner] at hs
    cases hs
    split
    · exact zSetPrio_inv h (hstays o howner)
    · exact h

theorem zImplKMutexLock_inv {noWait : Bool} {r : Option Int} (h : Inv s) (hruns : Runs s t)
    (hplaces : KeepsPlaces ceiling s (.lock t m noWait)) (hroom : Room s (.mutex m))
    (hs : zImplKMutexLock s ceiling m t noWait = .ok (s', r)) : Inv s' := by
  unfold zImplKMutexLock at hs
  by_cases hfast : (s.mutex m).lockCount = 0 ∨ (s.mutex m).owner = some t
  · rw [if_pos hfast] at hs
    cases hs
    exact h.congr rfl rfl rfl
  · rw [if_neg hfast] at hs
    obtain ⟨hheld, hother⟩ := not_or.mp hfast
    cases noWait with
    | true =>
      cases hs
      exact h
    | false =>
      cases howner : (s.mutex m).owner with
      | none =>
        rw [howner] at hs
        cases hs
      | some o =>
        simp only [howner, Bool.false_eq_true, if_false] at hs
        have hot : o ≠ t := fun heq => hother (heq ▸ howner)
        -- the owner is raised where it waits; the thread itself does not wait yet
        have hraised : ∃ s₁, Inv s₁ ∧ s₁.pendedOn = s.pendedOn ∧
            ((addToWaitqLocked s₁ t (.mutex m)).bind fun s => .ok (s, none)) = .ok (s', r) := by
          by_cases hup : Mutexes.zIsPrioHigher (raisedPrio ceiling s t o) (s.base o).prio
          · have hstays := hplaces o howner ⟨hheld, hot, rfl, hup⟩
            rw [raisedPrio] at hup hstays
            rw [if_pos hup] at hs
            obtain ⟨s₁, hraise, hs⟩ := bind_eq_ok hs
            refine ⟨s₁, adjustOwnerPrio_inv h (fun o' ho' => ?_) hraise, ?_, hs⟩
            · obtain rfl : o = o' := Option.some.inj (howner.symm.trans ho')
              exact hstays
            · unfold adjustOwnerPrio at hraise
              rw [howner] at hraise
              cases hraise
              split <;> rfl
          · rw [raisedPrio] at hup
            rw [if_neg hup] at hs
            exact ⟨s, h, rfl, hs⟩
        obtain ⟨s₁, h₁, hpended, hs⟩ := hraised
        have hfree : s₁.pendedOn t = none := by
          rw [hpended]
          exact hruns.1
        have hroom₁ : Room s₁ (.mutex m) := by
          unfold Room
          rw [hpended]
          exact hroom
        obtain ⟨s₂, hgo, h₂⟩ := addToWaitqLocked_inv h₁ hfree hroom₁
        rw [hgo] at hs
        cases hs
        exact h₂

theorem zImplKMutexUnlock_inv {r : Int} (h : Inv s) (hruns : Runs s t)
    (hs : zImplKMutexUnlock s m t = .ok (s', r)) : Inv s' := by
  unfold zImplKMutexUnlock at hs
  cases howner : (s.mutex m).owner with
  | none =>
    simp only [howner] at hs
    cases hs
    exact h
  | some o =>
    simp only [howner] at hs
    by_cases hot : o = t
    · subst hot
      rw [if_neg (not_not.mpr rfl)] at hs
      split at hs
      · cases hs
        exact h.congr rfl rfl rfl
      · obtain ⟨s₁, hadjust, hs⟩ := bind_eq_ok hs
        have h₁ : Inv s₁ := adjustOwnerPrio_inv h (fun o' ho' => by
          obtain rfl : o = o' := Option.some.inj (howner.symm.trans ho')
          unfold Stays
          rw [hruns.1]
          exact nofun) hadjust
        obtain ⟨⟨s₂, first⟩, hfirst, hs⟩ := bind_eq_ok hs
        obtain ⟨s₃, first', hgo, h₃, -⟩ := zUnpendFirstThread_inv h₁ (.mutex m)
        rw [hfirst] at hgo
        cases hgo
        cases first with
        | none =>
          cases hs
          exact h₃.congr rfl rfl rfl
        | some newOwner =>
          cases hs
          exact h₃.congr rfl rfl rfl
    · rw [if_pos hot] at hs
      cases hs
      exact h

theorem perform_inv {op : Op T M O} (h : Inv s) (hplaces : KeepsPlaces ceiling s op) (hroom : HasRoom s op)
    (hs : perform ceiling s op = .ok s') : Inv s' := by
  cases op with
  | pend t o =>
    simp only [perform] at hs
    split at hs
    · next hruns =>
      obtain ⟨s₁, hgo, h₁⟩ := addToWaitqLocked_inv h hruns.1 hroom
      rw [hs] at hgo
      cases hgo
      exact h₁
    · cases hs
  | unpendFirst o =>
    obtain ⟨s₁, first, hgo, h₁, -⟩ := zUnpendFirstThread_inv h (.other o)
    rw [perform, hgo] at hs
    cases hs
    exact h₁
  | unpend t =>
    simp only [perform] at hs
    split at hs
    · next o hp =>
      obtain ⟨s₁, hgo, h₁⟩ := unpendThreadNoTimeout_inv h hp
      rw [hs] at hgo
      cases hgo
      exact h₁
    · cases hs
  | timeout t =>
    simp only [perform] at hs
    split at hs
    · next w hp =>
      obtain ⟨s₁, hgo, h₁⟩ := unpendThreadNoTimeout_inv h hp
      rw [zThreadTimeout, hgo] at hs
      cases hs
      cases w with
      | mutex m => exact h₁.congr rfl rfl rfl
      | other o => exact h₁
    · cases hs
  | prioritySet t prio =>
    cases hs
    exact zSetPrio_inv h hplaces
  | lock t m noWait =>
    simp only [perform] at hs
    split at hs
    · next hruns =>
      obtain ⟨⟨s₁, r⟩, hgo, rfl⟩ := map_eq_ok hs
      exact zImplKMutexLock_inv h hruns hplaces hroom hgo
    · cases hs
  | lockTimedOut t =>
    simp only [perform] at hs
    split at hs
    · next m hm =>
      obtain ⟨⟨s₁, r⟩, hgo, rfl⟩ := map_eq_ok hs
      obtain ⟨s₂, hadjust, hret⟩ := bind_eq_ok hgo
      cases hret
      exact (adjustOwnerPrio_inv h (hplaces m hm) hadjust).congr rfl rfl rfl
    · cases hs
  | unlock t m =>
    simp only [perform] at hs
    split at hs
    · next hruns =>
      obtain ⟨⟨s₁, r⟩, hgo, rfl⟩ := map_eq_ok hs
      exact zImplKMutexUnlock_inv h hruns hgo
    · cases hs

omit dM dO in
theorem initial_inv (base : T → ThreadBase) (heap : Object M O → Heap T) (orig : M → Int) :
    Inv (initial b base heap orig) := fun w => ⟨[], QueueOk.init base (heap w), fun _ => ⟨nofun, nofun⟩⟩

end Steps

/-- A wait queue has the threads that wait there, sorted by their present priorities, each is found when it is
taken out, and `z_unpend_first_thread` takes one of the highest priority. -/
structure InOrder (s : System T M O b) (w : Object M O) : Prop where
  sorted : ∃ d, waiters (s.waitq w) = .ok d ∧ (∀ t, t ∈ d ↔ s.pendedOn t = some w) ∧ Sorted b s.base d ∧
    ∀ t ∈ d, ∃ pq, priqWaitRemove s.base t (s.waitq w) = .ok pq ∧ waiters pq = .ok (d.erase t)
  first : ∃ s' first, zUnpendFirstThread s w = .ok (s', first) ∧
    (∀ t, first = some t → s.pendedOn t = some w ∧
      ∀ u, s.pendedOn u = some w → (s.base t).prio ≤ (s.base u).prio) ∧
    (first = none → ∀ u, s.pendedOn u ≠ some w)

theorem Inv.inOrder {s : System T M O b} (h : Inv s) (w : Object M O) : InOrder s w := by
  obtain ⟨d, hd, hmem⟩ := h w
  refine ⟨⟨d, hd.waiters, hmem, hd.sorted, fun t ht => ?_⟩, ?_⟩
  · obtain ⟨pq, hgo, hpq⟩ := hd.remove ht
    exact ⟨pq, hgo, hpq.waiters⟩
  · obtain ⟨s', first, hgo, -, hfirst⟩ := zUnpendFirstThread_inv h w
    exact ⟨s', first, hgo, hfirst⟩

/-- **The wait queues are in order** in every run in which each thread that waits keeps its place with the priorities
it is given. -/
theorem wait_queues_in_order (b : Backend) {ceiling : Int} {base : T → ThreadBase} {heap : Object M O → Heap T}
    {orig : M → Int} {ops : List (Op T M O)} {s : System T M O b}
    (hr : run (perform ceiling) (initial b base heap orig) ops = .ok s)
    (hplaces : Along (perform ceiling) (fun s op => KeepsPlaces ceiling s op ∧ HasRoom s op)
      (initial b base heap orig) ops) (w : Object M O) : InOrder s w := by
  have h : Inv s := run_inv (fun s op s' h hp hs => perform_inv h hp.1 hp.2 hs) (initial_inv base heap orig) hplaces hr
  exact h.inOrder w

def started (n : Nat) (b : Backend) : System (Fin n) Unit Unit b :=
  initial b (fun t => ⟨n - t.val, 0⟩) (fun _ _ => ⟨fun _ => none, .red⟩) fun _ => 0

/-- A thread that owns a mutex is raised while it runs, a thread that waits changes its priority, one times out. -/
def inPlace : List (Op (Fin 4) Unit Unit) :=
  [.lock 0 () false, .pend 2 (), .pend 1 (), .prioritySet 1 4, .lock 3 () false, .timeout 2]

theorem hasRoom_of_card {n : Nat} (hn : n < 2 ^ 32) (s : System (Fin n) Unit Unit b) (op : Op (Fin n) Unit Unit) :
    HasRoom s op := by
  have hroom : ∀ w, Room s w := fun w _ d hd _ =>
    (hd.length_le_card.trans_eq (Fintype.card_fin n)).trans_lt hn
  cases op with
  | pend t o => exact hroom _
  | lock t m noWait => exact hroom _
  | unpendFirst | unpend | timeout | prioritySet | lockTimedOut | unlock => trivial

theorem wait_queues_in_order_four :
    (∃ s, run (perform (-127)) (started 4 .dumb) inPlace = .ok s ∧ ∀ w, InOrder s w) ∧
      ∃ s, run (perform (-127)) (started 4 .scalable) inPlace = .ok s ∧ ∀ w, InOrder s w := by
  have hfits : ∀ b s (op : Op (Fin 4) Unit Unit), KeepsPlaces (-127) s op →
      KeepsPlaces (-127) s op ∧ HasRoom (b := b) s op := fun b s op h => ⟨h, hasRoom_of_card (by decide) s op⟩
  have hplaces : ∀ b, Along (perform (-127)) (KeepsPlaces (-127)) (started 4 b) inPlace := by
    intro b
    cases b <;> decide +kernel
  exact ⟨exists_ok_and (by decide +kernel) fun _ hr => wait_queues_in_order .dumb hr ((hplaces _).mono (hfits _)),
    exists_ok_and (by decide +kernel) fun _ hr => wait_queues_in_order .scalable hr ((hplaces _).mono (hfits _))⟩

/-- The owner of a mutex waits behind another thread when a third one waits for the mutex. -/
def raisedWhileWaiting : List (Op (Fin 3) Unit Unit) :=
  [.lock 0 () false, .pend 1 (), .pend 0 (), .lock 2 () false]

theorem not_inOrder {s : System T M O b} {w : Object M O} {d : List T} (hd : waiters (s.waitq w) = .ok d)
    (hsorted : ¬Sorted b s.base d) : ¬InOrder s w := by
  intro h
  obtain ⟨d', hd', -, hs, -⟩ := h.sorted
  rw [hd] at hd'
  cases hd'
  exact hsorted hs

/-- The owner is raised, but not moved: the thread ahead of it is woken first. In a tree, the owner is not found any
more. -/
theorem wait_queue_out_of_order :
    (∃ s, run (perform (-127)) (started 3 .dumb) raisedWhileWaiting = .ok s ∧ ¬InOrder s (.other ()) ∧
      s.pendedOn 0 = some (.other ()) ∧ (s.base 0).prio < (s.base 1).prio ∧
      ∃ s', zUnpendFirstThread s (.other ()) = .ok (s', some 1)) ∧
    ∃ s, run (perform (-127)) (started 3 .scalable) raisedWhileWaiting = .ok s ∧ ¬InOrder s (.other ()) ∧
      s.pendedOn 0 = some (.other ()) ∧ (s.base 0).prio < (s.base 1).prio ∧
      (∃ s', zUnpendFirstThread s (.other ()) = .ok (s', some 1)) ∧
      ∃ pq, priqWaitRemove s.base 0 (s.waitq (.other ())) = .ok pq ∧ waiters pq = .ok [1, 0] := by
  constructor
  · exact ⟨_, rfl, not_inOrder (d := [1, 0]) rfl (by decide), rfl, by decide, _, rfl⟩
  · exact ⟨_, rfl, not_inOrder (d := [1, 0]) rfl (by decide), rfl, by decide, ⟨_, rfl⟩, _, rfl, rfl⟩

end RtosKernel.Zephyr.Pend
