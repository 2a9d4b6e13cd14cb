import RtosKernel.Zephyr.Priq

/-! # The order of a run queue

`z_priq_rb_lessthan` orders the members as the list does as long as a thread that is added has a larger key than
the members of its priority. -/
namespace RtosKernel.Zephyr.Priq
open Zephyr.WaitQ List
open Lib.Bits (Recorded)

variable {T : Type} {base base' : T → ThreadBase} {a b c t u : T} {pq d m : List T} {p : Int}

/-! ## The comparison -/

theorem lessthan_iff : zPriqRbLessthan base a b = true ↔ (base a).prio < (base b).prio ∨
    ((base a).prio = (base b).prio ∧ (base a).orderKey < (base b).orderKey) := by
  have hcmp : zSchedPrioCmp (fun t => (base t).prio) a b = (base b).prio - (base a).prio := rfl
  rw [zPriqRbLessthan]
  by_cases hlt : (base a).prio < (base b).prio
  · rw [if_pos (by omega)]
    simp [hlt]
  · rw [if_neg (by omega)]
    by_cases hgt : (base b).prio < (base a).prio
    · rw [if_pos (by omega)]
      simp only [Bool.false_eq_true, false_iff]
      omega
    · rw [if_neg (by omega), decide_eq_true_eq]
      omega

theorem lessthan_prio (hab : zPriqRbLessthan base a b = true) : (base a).prio ≤ (base b).prio := by
  rw [lessthan_iff] at hab
  omega

def Ordered (base : T → ThreadBase) (d : List T) : Prop := d.Pairwise fun a b => zPriqRbLessthan base a b = true

theorem Ordered.nodup (h : Ordered base d) : d.Nodup := by
  refine h.imp fun {a b} hab heq => ?_
  rw [heq, lessthan_iff] at hab
  omega

theorem Ordered.congr (h : Ordered base d) (hsame : ∀ t ∈ d, base' t = base t) : Ordered base' d := by
  refine List.Pairwise.imp_of_mem (fun {a b} ha hb hab => ?_) h
  rw [lessthan_iff] at hab ⊢
  rw [hsame a ha, hsame b hb]
  exact hab

theorem Ordered.prios (h : Ordered base d) : d.Pairwise fun a b => (base a).prio ≤ (base b).prio :=
  h.imp lessthan_prio

theorem Ordered.add (h : Ordered base d) (hkey : ∀ u ∈ d, (base u).prio = (base t).prio → (base u).orderKey < (base t).orderKey) :
    Ordered base (zPriqDumbAdd (fun t => (base t).prio) t d) := by
  induction d with
  | nil => exact pairwise_singleton _ _
  | cons u pq ih =>
    obtain ⟨hu, hpq⟩ := pairwise_cons.mp h
    rw [zPriqDumbAdd]
    by_cases hlt : (base t).prio < (base u).prio
    · rw [if_pos (by simp only [zSchedPrioCmp]; omega)]
      refine pairwise_cons.mpr ⟨fun x hx => ?_, h⟩
      rw [lessthan_iff]
      rcases mem_cons.mp hx with rfl | hx
      · exact .inl hlt
      · have hle := lessthan_prio (hu x hx)
        omega
    · rw [if_neg (by simp only [zSchedPrioCmp]; omega)]
      refine pairwise_cons.mpr ⟨fun x hx => ?_, ih hpq fun x hx => hkey x (mem_cons_of_mem u hx)⟩
      rcases mem_zPriqDumbAdd.mp hx with rfl | hx
      · have hless := hkey u (mem_cons_self ..)
        rw [lessthan_iff]
        omega
      · exact hu x hx

variable [ord : LinearOrder T]

theorem setOrderKey_prio (k : Nat) : (setOrderKey base t k u).prio = (base u).prio := by
  by_cases h : u = t
  · subst h
    simp [setOrderKey]
  · simp [setOrderKey, h]

theorem setOrderKey_self (k : Nat) : (setOrderKey base t k t).orderKey = k := by simp [setOrderKey]

theorem setOrderKey_other (k : Nat) (h : u ≠ t) : setOrderKey base t k u = base u := by simp [setOrderKey, h]

theorem renumber_prio (k : Nat) : ((renumber base k d).1 t).prio = (base t).prio := by
  induction d generalizing base k with
  | nil => rfl
  | cons u d ih => rw [renumber, ih, setOrderKey_prio]

theorem renumber_other (k : Nat) (h : t ∉ d) : (renumber base k d).1 t = base t := by
  induction d generalizing base k with
  | nil => rfl
  | cons u d ih =>
    rw [renumber, ih _ fun hm => h (mem_cons_of_mem u hm), setOrderKey_other]
    rintro rfl
    exact h (mem_cons_self ..)

theorem renumber_key {k : Nat} (hnodup : d.Nodup) (hk : k + d.length < 2 ^ 32) (h : t ∈ d) :
    ((renumber base k d).1 t).orderKey = k + d.idxOf t := by
  induction d generalizing base k with
  | nil => cases h
  | cons u d ih =>
    obtain ⟨hu, hd⟩ := nodup_cons.mp hnodup
    simp only [length_cons] at hk
    rw [renumber, Nat.mod_eq_of_lt (by omega)]
    by_cases heq : t = u
    · subst heq
      rw [renumber_other _ hu, setOrderKey_self, idxOf_cons_self, Nat.add_zero]
    · rw [ih hd (by omega) ((mem_cons.mp h).resolve_left heq), idxOf_cons_ne _ (Ne.symm heq)]
      omega

theorem renumber_next {k : Nat} (hk : k < 2 ^ 32) : (renumber base k d).2 < 2 ^ 32 := by
  induction d generalizing base k with
  | nil => exact hk
  | cons u d ih => exact ih (Nat.mod_lt _ (by omega))

theorem Ordered.renumber (h : Ordered base d) (hlen : d.length < 2 ^ 32) : Ordered (Priq.renumber base 0 d).1 d := by
  have hnodup := h.nodup
  rw [Ordered, pairwise_iff_getElem] at h ⊢
  intro i j hi hj hij
  have hbefore := lessthan_prio (h i j hi hj hij)
  rw [lessthan_iff, renumber_prio, renumber_prio, renumber_key hnodup (by omega) (getElem_mem hi),
    renumber_key hnodup (by omega) (getElem_mem hj), hnodup.idxOf_getElem, hnodup.idxOf_getElem]
  omega

/-! ## The members of one priority -/

/-- A list holds the members of each priority in the order they were added. -/
def Fifo (prio : T → Int) (d m : List T) : Prop := ∀ p, d.filter (fun t => prio t = p) = m.filter (fun t => prio t = p)

variable {prio : T → Int}

section
variable (h : Fifo prio d m)
include h

section
omit ord

theorem Fifo.mem_iff : t ∈ d ↔ t ∈ m := by
  have := congrArg (fun l => t ∈ l) (h (prio t))
  simpa using this

theorem Fifo.congr {prio' : T → Int} (hsame : ∀ t ∈ m, prio' t = prio t) : Fifo prio' d m := by
  intro p
  have hfilter : ∀ l : List T, (∀ t ∈ l, t ∈ m) → (l.filter fun t => prio' t = p) = l.filter fun t => prio t = p :=
    fun l hl => filter_congr fun t ht => by rw [hsame t (hl t ht)]
  rw [hfilter d fun t ht => h.mem_iff.mp ht, hfilter m fun t ht => ht]
  exact h p

theorem Fifo.add (hsorted : d.Pairwise fun a b => prio a ≤ prio b) :
    Fifo prio (zPriqDumbAdd prio t d) (m ++ [t]) := by
  intro p
  rw [filter_append, ← h p]
  clear h
  induction d with
  | nil => simp [zPriqDumbAdd]
  | cons u pq ih =>
    obtain ⟨hu, hpq⟩ := pairwise_cons.mp hsorted
    rw [zPriqDumbAdd]
    by_cases hlt : prio t < prio u
    · rw [if_pos (by simp only [zSchedPrioCmp]; omega)]
      by_cases hp : prio t = p
      · -- nothing of the priority of the thread is in the list
        have hnone : (u :: pq).filter (fun t => prio t = p) = [] := by
          rw [filter_eq_nil_iff]
          intro x hx
          rcases mem_cons.mp hx with rfl | hx
          · simp only [decide_eq_true_eq]
            omega
          · have := hu x hx
            simp only [decide_eq_true_eq]
            omega
        rw [hnone, filter_cons_of_pos (by simpa using hp), hnone]
        simp [hp]
      · simp [hp]
    · rw [if_neg (by simp only [zSchedPrioCmp]; omega), filter_cons, filter_cons, ih hpq]
      by_cases hp : prio u = p
      · simp [hp]
      · simp [hp]

end

theorem Fifo.remove : Fifo prio (d.erase t) (m.erase t) := by
  intro p
  rw [← erase_filter, ← erase_filter, h p]

omit ord in
theorem Fifo.eq_of_prio (hp : ∀ t, prio t = p) : d = m := by
  simpa [hp] using h p

end

omit ord in
theorem find_least {x : T} (hx : x ∈ m) (hleast : ∀ u ∈ m, prio x ≤ prio u) :
    (m.find? fun t => decide (∀ u ∈ m, prio t ≤ prio u)) = m.find? fun t => decide (prio t = prio x) :=
  List.find?_congr fun t ht => decide_eq_decide.mpr
    ⟨fun hall => le_antisymm (hall x hx) (hleast t ht), fun heq u hu => heq ▸ hleast u hu⟩

omit ord in
theorem Fifo.head (h : Fifo prio d m) (hsorted : d.Pairwise fun a b => prio a ≤ prio b) :
    d.head? = m.find? fun t => decide (∀ u ∈ m, prio t ≤ prio u) := by
  cases d with
  | nil =>
    obtain rfl : m = [] := eq_nil_iff_forall_not_mem.mpr fun t ht => by cases h.mem_iff.mpr ht
    rfl
  | cons x d =>
    obtain ⟨hx, _⟩ := pairwise_cons.mp hsorted
    have hleast : ∀ u ∈ m, prio x ≤ prio u := by
      intro u hu
      rcases mem_cons.mp (h.mem_iff.mpr hu) with rfl | hu
      · exact le_rfl
      · exact hx u hu
    rw [find_least (h.mem_iff.mp (mem_cons_self ..)) hleast, ← List.head?_filter, ← h (prio x)]
    simp

/-! ## The lists of the priorities -/

/-- Each of the lists holds the members of its priority in the order they were added. -/
structure Sorts (prio : T → Int) (highest : Int) (pq : PriqMq T) (m : List T) : Prop where
  queues : ∀ q : Nat, pq.queues q = m.filter fun t => prio t = highest + q
  bitmask : Recorded pq.bitmask pq.queues

variable {highest : Int} {mq : PriqMq T}

section
omit ord

theorem priorityBit_cast (h : highest ≤ (base t).prio) : highest + priorityBit base highest t = (base t).prio := by
  rw [priorityBit]
  omega

theorem Sorts.congr {prio' : T → Int} (h : Sorts prio highest mq m) (hsame : ∀ t ∈ m, prio' t = prio t) :
    Sorts prio' highest mq m :=
  ⟨fun q => (h.queues q).trans (filter_congr fun t ht => by rw [hsame t ht]), h.bitmask⟩

theorem Sorts.add (h : Sorts (fun t => (base t).prio) highest mq m) (hlow : highest ≤ (base t).prio) :
    Sorts (fun t => (base t).prio) highest (zPriqMqAdd base highest mq t) (m ++ [t]) := by
  have hbit := priorityBit_cast hlow
  refine ⟨fun q => ?_, ?_⟩
  · rw [zPriqMqAdd, filter_append, ← h.queues q]
    by_cases hq : q = priorityBit base highest t
    · subst hq
      simp [hbit]
    · have hne : (base t).prio ≠ highest + q := by omega
      simp [hq, hne]
  · refine h.bitmask.set (by simp [zPriqMqAdd]) fun q hq => ?_
    exact iff_of_eq (congrArg (· ≠ []) (Function.update_of_ne hq _ mq.queues))

end

theorem Sorts.remove (h : Sorts (fun t => (base t).prio) highest mq m) (hlow : highest ≤ (base t).prio) :
    Sorts (fun t => (base t).prio) highest (zPriqMqRemove base highest mq t) (m.erase t) := by
  have hbit := priorityBit_cast hlow
  refine ⟨fun q => ?_, ?_⟩
  · rw [← erase_filter, ← h.queues q]
    rfl
  · have hother : ∀ q, q ≠ priorityBit base highest t → (mq.queues q).erase t = mq.queues q := by
      refine fun q hq => erase_of_not_mem fun hmem => ?_
      rw [h.queues, mem_filter, decide_eq_true_eq] at hmem
      omega
    rw [zPriqMqRemove]
    by_cases hempty : (mq.queues (priorityBit base highest t)).erase t = []
    · rw [if_pos hempty]
      exact h.bitmask.clear hempty fun q hq => iff_of_eq (congrArg (· ≠ []) (hother q hq))
    · rw [if_neg hempty]
      refine h.bitmask.congr fun q => ?_
      by_cases hq : q = priorityBit base highest t
      · subst hq
        simp only [hempty, ne_eq, not_false_eq_true, true_iff]
        intro hnil
        rw [hnil] at hempty
        exact hempty rfl
      · exact iff_of_eq (congrArg (· ≠ []) (hother q hq))

omit ord in
theorem Sorts.best (h : Sorts prio highest mq m) (hrange : ∀ t ∈ m, highest ≤ prio t ∧ prio t < highest + 32) :
    zPriqMqBest mq = m.find? fun t => decide (∀ u ∈ m, prio t ≤ prio u) := by
  -- the list of a member
  have hlist : ∀ t ∈ m, ∃ q < 32, prio t = highest + (q : Nat) ∧ mq.queues q ≠ [] := by
    intro t ht
    obtain ⟨hlow, hhigh⟩ := hrange t ht
    refine ⟨(prio t - highest).toNat, by omega, by omega, ?_⟩
    rw [h.queues]
    refine ne_nil_of_mem (a := t) (mem_filter.mpr ⟨ht, ?_⟩)
    rw [decide_eq_true_eq]
    omega
  rw [zPriqMqBest]
  by_cases hzero : mq.bitmask = 0
  · rw [if_pos hzero]
    cases m with
    | nil => rfl
    | cons t m =>
      obtain ⟨q, hq, -, hne⟩ := hlist t (mem_cons_self ..)
      exact absurd hzero (h.bitmask.ne_zero hq hne)
  · rw [if_neg hzero, h.queues, List.head?_filter]
    have hlt : mq.bitmask.ctz.toNat < 32 := BitVec.lt_def.mp (BitVec.ctz_lt_iff_ne_zero.mpr hzero)
    have hne := (h.bitmask _ hlt).mp (BitVec.getLsbD_true_ctz_of_ne_zero hzero)
    rw [h.queues] at hne
    obtain ⟨x, hx⟩ := exists_mem_of_ne_nil _ hne
    obtain ⟨hxm, hprio⟩ := mem_filter.mp hx
    rw [decide_eq_true_eq] at hprio
    rw [← hprio, find_least hxm fun u hu => ?_]
    obtain ⟨q, hq, hqu, hqne⟩ := hlist u hu
    have hbit := (h.bitmask q hq).mpr hqne
    have hge : mq.bitmask.ctz.toNat ≤ q := by
      by_contra hcon
      rw [BitVec.getLsbD_false_of_lt_ctz (by omega)] at hbit
      cases hbit
    omega

end RtosKernel.Zephyr.Priq
