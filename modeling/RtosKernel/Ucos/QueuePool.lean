import RtosKernel.Ucos.Queue

/-! # The blocks of the pool

Every block is in the free list or in the list of one queue, and in none of them twice. A
message that is put into a queue or taken out moves one block, a flush moves all the blocks
of a queue. -/

namespace RtosKernel.Ucos.Queues
open Lib.LinkedList Function Finset

variable {Q T P : Type} [dQ : DecidableEq Q] [dT : DecidableEq T] {q r : Q} {i : Nat}

section Sum
variable [fQ : Fintype Q] {α : Type}

theorem sum_update (g : α → Nat) (f : Q → α) (q : Q) (v : α) :
    ∑ x, g (update f q v x) + g (f q) = ∑ x, g (f x) + g v := by
  rw [← add_sum_erase _ _ (mem_univ q), ← add_sum_erase _ (fun x => g (f x)) (mem_univ q),
    update_self, sum_congr rfl (g := fun x => g (f x)) fun x hx => by
      rw [update_of_ne (ne_of_mem_erase hx)]]
  omega

theorem two_le_sum (g : Q → Nat) (h : q ≠ r) : g q + g r ≤ ∑ x, g x := by
  rw [← add_sum_erase _ _ (mem_univ q)]
  exact Nat.add_le_add_left (Finset.single_le_sum (fun _ _ => Nat.zero_le _)
    (mem_erase.mpr ⟨h.symm, mem_univ r⟩)) _

end Sum

/-! ## Where the blocks are -/

section Held
variable [fQ : Fintype Q] {s s' : Store Q P} {size : Nat} {qSize : Q → Nat} {free free' l : List Nat} {list : Q → List Nat}
  {v : MsgQ}

/-- The free list and the lists of the queues are linked, they hold each of the blocks once, and the counters are their lengths. -/
structure Held (s : Store Q P) (size : Nat) (qSize : Q → Nat) (free : List Nat) (list : Q → List Nat) : Prop where
  poolPtr : Chain s.nextPtr s.pool.nextPtr free
  chain : ∀ q, Chain s.nextPtr (s.msgQ q).outPtr (list q)
  inPtr : ∀ q, (s.msgQ q).inPtr = (list q).getLast?
  nbrFree : s.pool.nbrFree = free.length
  nbrUsed : s.pool.nbrUsed = ∑ q, (s.msgQ q).nbrEntries
  nbrEntries : ∀ q, (s.msgQ q).nbrEntries = (list q).length
  nbrEntriesSize : ∀ q, (s.msgQ q).nbrEntriesSize = qSize q
  fits : ∀ q, (list q).length ≤ qSize q
  once : ∀ i, free.count i + ∑ q, (list q).count i = if i < size then 1 else 0
  total : free.length + ∑ q, (list q).length = size

section
variable (h : Held s size qSize free list)
include h

section
omit dQ

theorem Held.count_le (i : Nat) : free.count i + ∑ q, (list q).count i ≤ 1 := by
  rw [h.once i]
  split <;> omega

theorem Held.nodup_free : free.Nodup :=
  List.nodup_iff_count_le_one.mpr fun i => (Nat.le_add_right ..).trans (h.count_le i)

theorem Held.nodup (q : Q) : (list q).Nodup :=
  List.nodup_iff_count_le_one.mpr fun i => (Finset.single_le_sum (f := fun q => (list q).count i) (fun _ _ => Nat.zero_le _)
    (mem_univ q)).trans ((Nat.le_add_left ..).trans (h.count_le i))

theorem Held.notMem_free (hi : i ∈ list q) : i ∉ free := by
  intro hfree
  have hle := h.count_le i
  have hone : (list q).count i ≤ ∑ q, (list q).count i :=
    Finset.single_le_sum (f := fun q => (list q).count i) (fun _ _ => Nat.zero_le _) (mem_univ q)
  have hpos := List.count_pos_iff.mpr hi
  have hpos' := List.count_pos_iff.mpr hfree
  omega

end

theorem Held.notMem (hi : i ∈ list q) (hr : r ≠ q) : i ∉ list r := by
  intro hmem
  have hle := h.count_le i
  have htwo : (list r).count i + (list q).count i ≤ ∑ q, (list q).count i := two_le_sum (fun q => (list q).count i) hr
  have hpos := List.count_pos_iff.mpr hi
  have hpos' := List.count_pos_iff.mpr hmem
  omega

omit dQ in
theorem Held.sum_length : s.pool.nbrUsed = ∑ q, (list q).length :=
  h.nbrUsed.trans (sum_congr rfl fun q _ => h.nbrEntries q)

theorem Held.move (hq : s'.msgQ = update s.msgQ q v)
    (hfree : Chain s'.nextPtr s'.pool.nextPtr free') (hchain : Chain s'.nextPtr v.outPtr l)
    (hsame : ∀ i, i ∉ free → i ∉ list q → s'.nextPtr i = s.nextPtr i) (hin : v.inPtr = l.getLast?)
    (hnbrFree : s'.pool.nbrFree = free'.length) (hentries : v.nbrEntries = l.length)
    (hused : s'.pool.nbrUsed + (list q).length = s.pool.nbrUsed + l.length)
    (hsize : v.nbrEntriesSize = (s.msgQ q).nbrEntriesSize) (hfits : l.length ≤ qSize q)
    (hperm : (free' ++ l).Perm (free ++ list q)) : Held s' size qSize free' (update list q l) := by
  have hsum := sum_update List.length list q l
  have hlength := hperm.length_eq
  simp only [List.length_append] at hlength
  refine ⟨hfree, fun r => ?_, fun r => ?_, hnbrFree, ?_, fun r => ?_, fun r => ?_, fun r => ?_, fun i => ?_, ?_⟩
  · by_cases hr : r = q
    · rw [hr, hq, update_self, update_self]
      exact hchain
    · rw [hq, update_of_ne hr, update_of_ne hr]
      exact (h.chain r).frame fun i hi => hsame i (h.notMem_free hi) (h.notMem hi (Ne.symm hr))
  · by_cases hr : r = q
    · rw [hr, hq, update_self, update_self, hin]
    · rw [hq, update_of_ne hr, update_of_ne hr, h.inPtr r]
  · have hsum' := sum_update MsgQ.nbrEntries s.msgQ q v
    have hq' := h.nbrEntries q
    have hused' := h.nbrUsed
    rw [hq]
    omega
  · by_cases hr : r = q
    · rw [hr, hq, update_self, update_self, hentries]
    · rw [hq, update_of_ne hr, update_of_ne hr, h.nbrEntries r]
  · by_cases hr : r = q
    · rw [hr, hq, update_self, hsize, h.nbrEntriesSize]
    · rw [hq, update_of_ne hr, h.nbrEntriesSize]
  · by_cases hr : r = q
    · rw [hr, update_self]
      exact hfits
    · rw [update_of_ne hr]
      exact h.fits r
  · have hcount := hperm.count_eq i
    have hsum' := sum_update (List.count i) list q l
    have honce := h.once i
    simp only [List.count_append] at hcount
    omega
  · have htotal := h.total
    omega

end

/-! ## What the calls do -/

theorem os_MsgQFreeAll_spec (h : Held s size qSize free list) (q : Q) :
    ∃ s', os_MsgQFreeAll s q = .ok (s', (list q).length) ∧
      Held s' size qSize (list q ++ free) (update list q []) ∧ s'.message = s.message := by
  have hentries := h.nbrEntries q
  rw [os_MsgQFreeAll, hentries]
  cases hl : list q with
  | nil =>
    refine ⟨s, if_neg (Nat.lt_irrefl 0), ?_, rfl⟩
    rw [← hl, update_eq_self, hl]
    exact h
  | cons x xs =>
    obtain ⟨last, hlast⟩ : ∃ last, (x :: xs).getLast? = some last :=
      ⟨_, List.getLast?_eq_getLast_of_ne_nil (List.cons_ne_nil _ _)⟩
    have hmem : last ∈ list q := by
      rw [hl]
      exact List.mem_of_getLast? hlast
    have hpos : 0 < (x :: xs).length := Nat.succ_pos _
    rw [if_pos hpos, h.inPtr q, hl, hlast]
    refine ⟨_, rfl, h.move rfl ?_ rfl (fun i _ hi => update_of_ne (show i ≠ last from fun heq => hi (heq ▸ hmem)) _ _) rfl ?_ rfl ?_ rfl
      (Nat.zero_le _) ?_, rfl⟩
    · rw [← hl] at hlast ⊢
      exact (h.chain q).append h.poolPtr hlast (h.nodup q) fun i hi => h.notMem_free hi
    · show s.pool.nbrFree + (x :: xs).length = _
      rw [h.nbrFree, List.length_append, Nat.add_comm]
    · show s.pool.nbrUsed - (x :: xs).length + (list q).length = s.pool.nbrUsed
      have hle : (list q).length ≤ s.pool.nbrUsed := by
        rw [h.sum_length]
        exact Finset.single_le_sum (f := fun q => (list q).length) (fun _ _ => Nat.zero_le _) (mem_univ q)
      rw [← hl]
      omega
    · rw [List.append_nil, ← hl]
      exact List.perm_append_comm

theorem os_MsgQGet_nil (h : Held s size qSize free list) (hl : list q = []) :
    os_MsgQGet s q = .ok (s, .null, .errQEmpty) := by
  have hentries := h.nbrEntries q
  rw [hl] at hentries
  exact if_pos hentries

theorem os_MsgQGet_cons {tl : List Nat} (h : Held s size qSize free list) (hl : list q = i :: tl) :
    ∃ s', os_MsgQGet s q = .ok (s', s.message i, .errNone) ∧ Held s' size qSize (i :: free) (update list q tl) ∧
      s'.message = s.message := by
  have hentries := h.nbrEntries q
  have hchain := h.chain q
  have hin := h.inPtr q
  have hfits := h.fits q
  have hmem : i ∈ list q := hl ▸ List.mem_cons_self ..
  have hused : 0 < s.pool.nbrUsed := by
    rw [h.sum_length]
    exact (List.length_pos_of_mem hmem).trans_le (Finset.single_le_sum (f := fun q => (list q).length)
      (fun _ _ => Nat.zero_le _) (mem_univ q))
  have hnodup := h.nodup q
  rw [hl] at hentries hchain hin hnodup
  rw [List.length_cons] at hentries
  obtain ⟨hout, htl⟩ := hchain
  have hi := (List.nodup_cons.mp hnodup).1
  have hgo : os_MsgQGet s q = .ok
      ({ ((s.setQ q ((s.nextPtr i).elim { s.msgQ q with outPtr := s.nextPtr i, inPtr := none, nbrEntries := 0 }
          fun _ => { s.msgQ q with outPtr := s.nextPtr i, nbrEntries := (s.msgQ q).nbrEntries - 1 })).setNext i
            s.pool.nextPtr) with
        pool := { s.pool with nextPtr := some i, nbrFree := s.pool.nbrFree + 1, nbrUsed := s.pool.nbrUsed - 1 } },
        s.message i, .errNone) := by
    rw [os_MsgQGet, if_neg (by omega), hout]
    dsimp only
    cases s.nextPtr i <;> rfl
  refine ⟨_, hgo, h.move rfl ⟨rfl, ?_⟩ ?_ (fun j _ hj => update_of_ne (show j ≠ i from fun heq => hj (heq ▸ hmem)) _ _) ?_ ?_ ?_ ?_ ?_ ?_
    ?_, rfl⟩
  · show Chain (update s.nextPtr i s.pool.nextPtr) (update s.nextPtr i s.pool.nextPtr i) free
    rw [update_self]
    exact h.poolPtr.update (h.notMem_free hmem)
  · have htl' : Chain (update s.nextPtr i s.pool.nextPtr) (s.nextPtr i) tl := Chain.update htl hi
    cases hnext : s.nextPtr i with
    | none =>
      rw [hnext] at htl'
      exact htl'
    | some x =>
      rw [hnext] at htl'
      exact htl'
  · cases tl with
    | nil =>
      rw [show s.nextPtr i = none from htl]
      rfl
    | cons x xs =>
      rw [show s.nextPtr i = some x from htl.1]
      exact hin.trans List.getLast?_cons_cons
  · exact congrArg (· + 1) h.nbrFree
  · cases tl with
    | nil =>
      rw [show s.nextPtr i = none from htl]
      rfl
    | cons x xs =>
      rw [show s.nextPtr i = some x from htl.1]
      show (s.msgQ q).nbrEntries - 1 = _
      rw [hentries, Nat.add_sub_cancel]
  · show s.pool.nbrUsed - 1 + (list q).length = _
    rw [hl, List.length_cons]
    omega
  · cases s.nextPtr i <;> rfl
  · rw [hl, List.length_cons] at hfits
    omega
  · rw [hl]
    exact List.perm_middle.symm

theorem os_MsgQPut_full (m : Message P) (lifo : Bool) (h : Held s size qSize free list) (hfull : qSize q ≤ (list q).length) :
    os_MsgQPut s q m lifo = .ok (s, .errQMax) := by
  rw [← h.nbrEntries, ← h.nbrEntriesSize] at hfull
  exact if_pos hfull

theorem os_MsgQPut_none (m : Message P) (lifo : Bool) (h : Held s size qSize [] list) (hfull : (list q).length < qSize q) :
    os_MsgQPut s q m lifo = .ok (s, .errMsgPoolEmpty) := by
  rw [← h.nbrEntries, ← h.nbrEntriesSize] at hfull
  rw [os_MsgQPut, if_neg (Nat.not_le.mpr hfull)]
  exact if_pos h.nbrFree

/-- What `putLink` writes. -/
structure PutLink (s s' : Store Q P) (q : Q) (i : Nat) (l l' : List Nat) : Prop where
  msgQ : s'.msgQ = update s.msgQ q (s'.msgQ q)
  chain : Chain s'.nextPtr (s'.msgQ q).outPtr l'
  same : ∀ j, j ≠ i → j ∉ l → s'.nextPtr j = s.nextPtr j
  inPtr : (s'.msgQ q).inPtr = l'.getLast?
  nbrEntries : (s'.msgQ q).nbrEntries = l'.length
  nbrEntriesSize : (s'.msgQ q).nbrEntriesSize = (s.msgQ q).nbrEntriesSize
  pool : s'.pool = s.pool
  message : s'.message = s.message

omit fQ in
theorem putLink_spec (lifo : Bool) (hchain : Chain s.nextPtr (s.msgQ q).outPtr l) (hin : (s.msgQ q).inPtr = l.getLast?)
    (hentries : (s.msgQ q).nbrEntries = l.length) (hnodup : l.Nodup) (hi : i ∉ l) :
    ∃ s', putLink s q i lifo = .ok s' ∧ PutLink s s' q i l (if lifo then i :: l else l ++ [i]) := by
  rw [putLink, hentries]
  cases l with
  | nil =>
    refine ⟨_, if_pos rfl, ?_⟩
    refine ⟨?_, ?_, fun j hj _ => update_of_ne hj _ _, ?_, ?_, ?_, rfl, rfl⟩
    · simp [Store.setQ, Store.setNext]
    · cases lifo <;> simp [Store.setQ, Store.setNext]
    · cases lifo <;> simp [Store.setQ, Store.setNext]
    · cases lifo <;> simp [Store.setQ, Store.setNext]
    · simp [Store.setQ, Store.setNext]
  | cons x xs =>
    rw [if_neg (show (x :: xs).length ≠ 0 from nofun)]
    cases lifo with
    | true =>
      refine ⟨_, if_pos rfl, ?_, ?_, fun j hj _ => update_of_ne hj _ _, ?_, ?_, ?_, rfl, rfl⟩
      · simp [Store.setQ, Store.setNext]
      · refine ⟨by simp [Store.setQ], ?_⟩
        show Chain (update s.nextPtr i (s.msgQ q).outPtr) (update s.nextPtr i (s.msgQ q).outPtr i) (x :: xs)
        rw [update_self]
        exact hchain.update hi
      · simp [Store.setQ, Store.setNext, hin]
      · simp [Store.setQ, Store.setNext]
      · simp [Store.setQ, Store.setNext]
    | false =>
      obtain ⟨last, hlast⟩ : ∃ last, (x :: xs).getLast? = some last :=
        ⟨_, List.getLast?_eq_getLast_of_ne_nil (List.cons_ne_nil _ _)⟩
      have hmem : last ∈ x :: xs := List.mem_of_getLast? hlast
      have hne : last ≠ i := fun heq => hi (heq ▸ hmem)
      rw [if_neg Bool.false_ne_true, hin, hlast]
      refine ⟨_, rfl, ?_, ?_, fun j hj hjl => ?_, ?_, ?_, ?_, rfl, rfl⟩
      · simp [Store.setQ, Store.setNext]
      · show Chain (update (update s.nextPtr last (some i)) i none)
          (update s.msgQ q { s.msgQ q with inPtr := some i, nbrEntries := _ } q).outPtr (x :: xs ++ [i])
        rw [update_self, update_comm hne]
        refine Chain.append (hchain.update hi) ⟨rfl, ?_⟩ hlast hnodup fun y hy hyi => ?_
        · exact update_self ..
        · exact hi (List.mem_singleton.mp hyi ▸ hy)
      · show update (update s.nextPtr last (some i)) i none j = _
        rw [update_of_ne hj, update_of_ne (show j ≠ last from fun heq => hjl (heq ▸ hmem))]
      · show (update s.msgQ q { s.msgQ q with inPtr := some i, nbrEntries := _ } q).inPtr = (x :: xs ++ [i]).getLast?
        rw [update_self, List.getLast?_concat]
      · simp [Store.setQ, Store.setNext]
      · simp [Store.setQ, Store.setNext]

theorem os_MsgQPut_cons (m : Message P) (lifo : Bool) (h : Held s size qSize (i :: free) list)
    (hfull : (list q).length < qSize q) :
    ∃ s', os_MsgQPut s q m lifo = .ok (s', .errNone) ∧
      Held s' size qSize free (update list q (if lifo then i :: list q else list q ++ [i])) ∧
      s'.message = update s.message i m := by
  have hfull' := hfull
  rw [← h.nbrEntries, ← h.nbrEntriesSize] at hfull'
  have hi : i ∉ list q := fun hmem => h.notMem_free hmem (List.mem_cons_self ..)
  obtain ⟨hpool, hfree⟩ := h.poolPtr
  have hnot := (List.nodup_cons.mp h.nodup_free).1
  have hnbrFree := h.nbrFree
  rw [List.length_cons] at hnbrFree
  obtain ⟨s₁, hlink, hs₁⟩ := putLink_spec lifo
    (s := { s with pool := { s.pool with
      nextPtr := s.nextPtr i
      nbrFree := s.pool.nbrFree - 1
      nbrUsed := s.pool.nbrUsed + 1
      nbrUsedMax := max s.pool.nbrUsedMax (s.pool.nbrUsed + 1) } })
    (h.chain q) (h.inPtr q) (h.nbrEntries q) (h.nodup q) hi
  refine ⟨(s₁.setQ q { s₁.msgQ q with nbrEntriesMax := max (s₁.msgQ q).nbrEntriesMax (s₁.msgQ q).nbrEntries }).setMessage i m,
    ?_, h.move (v := { s₁.msgQ q with nbrEntriesMax := max (s₁.msgQ q).nbrEntriesMax (s₁.msgQ q).nbrEntries }) ?_ ?_ hs₁.chain
      (fun j hj hjl => hs₁.same j (fun heq => hj (heq ▸ List.mem_cons_self ..)) hjl) hs₁.inPtr ?_ hs₁.nbrEntries ?_
    hs₁.nbrEntriesSize ?_ ?_, ?_⟩
  · rw [os_MsgQPut, if_neg (Nat.not_le.mpr hfull'), if_neg (by omega), hpool]
    dsimp only
    rw [hlink]
    rfl
  · show update s₁.msgQ q _ = _
    rw [hs₁.msgQ, update_idem]
  · show Chain s₁.nextPtr s₁.pool.nextPtr free
    rw [hs₁.pool]
    refine Chain.frame hfree fun j hj => hs₁.same j (fun heq => hnot (heq ▸ hj)) fun hjl => ?_
    exact h.notMem_free hjl (List.mem_cons_of_mem _ hj)
  · show s₁.pool.nbrFree = _
    rw [hs₁.pool]
    show s.pool.nbrFree - 1 = _
    rw [hnbrFree, Nat.add_sub_cancel]
  · show s₁.pool.nbrUsed + _ = _
    rw [hs₁.pool]
    show s.pool.nbrUsed + 1 + _ = _
    cases lifo <;> simp <;> omega
  · cases lifo <;> simp <;> omega
  · cases lifo with
    | true => exact List.perm_middle
    | false =>
      refine List.perm_append_comm.trans ?_
      show ((list q ++ [i]) ++ free).Perm (i :: free ++ list q)
      rw [List.append_assoc]
      exact List.perm_append_comm
  · show update s₁.message i m = _
    rw [hs₁.message]

/-! ## Initialization -/

omit dQ fQ in
theorem msgPoolInitLoop_spec {s : Store Q P} (loops : Nat) :
    (∀ j, j < i ∨ i + loops ≤ j → (msgPoolInitLoop s i loops).nextPtr j = s.nextPtr j) ∧
      (∀ j, i ≤ j → j < i + loops → (msgPoolInitLoop s i loops).nextPtr j = some (j + 1)) ∧
      (msgPoolInitLoop s i loops).msgQ = s.msgQ := by
  induction loops generalizing s i with
  | zero => exact ⟨fun _ _ => rfl, fun j hle hlt => by omega, rfl⟩
  | succ n ih =>
    rw [msgPoolInitLoop]
    obtain ⟨hout, hin, hq⟩ := ih (i := i + 1) (s := (s.setNext i (some (i + 1))).setMessage i .null)
    refine ⟨fun j hj => ?_, fun j hle hlt => ?_, hq⟩
    · rw [hout j (by omega)]
      exact update_of_ne (show j ≠ i by omega) _ _
    · by_cases hj : j = i
      · rw [hout j (by omega), hj]
        exact update_self ..
      · exact hin j (by omega) (by omega)

theorem chain_range' {next : Nat → Option Nat} {n : Nat} (hnext : ∀ j, i ≤ j → j + 1 < i + n → next j = some (j + 1))
    (hlast : ∀ j, j + 1 = i + n → next j = none) (hn : 0 < n) : Chain next (some i) (List.range' i n) := by
  induction n generalizing i with
  | zero => cases hn
  | succ n ih =>
    refine ⟨rfl, ?_⟩
    cases n with
    | zero => exact hlast i rfl
    | succ n =>
      rw [hnext i (le_refl i) (by omega)]
      exact ih (fun j hle hlt => hnext j (by omega) (by omega)) (fun j hj => hlast j (by omega)) (Nat.succ_pos n)

omit dQ in
theorem os_MsgPoolInit_held {message : Nat → Message P} {nextPtr : Nat → Option Nat} {pool : MsgPool} (hsize : 0 < size) :
    Held (os_MsgPoolInit ⟨nextPtr, message, pool, fun q => os_MsgQInit (qSize q)⟩ size) size qSize (List.range' 0 size)
      fun _ => [] := by
  obtain ⟨-, hin, hq⟩ := msgPoolInitLoop_spec (s := ⟨nextPtr, message, pool, fun q => os_MsgQInit (qSize q)⟩) (i := 0)
    (size - 1)
  have hmsgQ : (os_MsgPoolInit ⟨nextPtr, message, pool, fun q => os_MsgQInit (qSize q)⟩ size).msgQ = fun q =>
      os_MsgQInit (qSize q) := hq
  have hnbrEntries : ∀ q, ((os_MsgPoolInit ⟨nextPtr, message, pool, fun q => os_MsgQInit (qSize q)⟩ size).msgQ q).nbrEntries = 0 :=
    fun q => by rw [hmsgQ]; rfl
  refine ⟨chain_range' (fun j _ hlt => ?_) (fun j hj => ?_) hsize, fun q => ?_, fun q => ?_, (List.length_range' ..).symm, ?_,
    hnbrEntries, fun q => ?_, fun q => Nat.zero_le _, fun i => ?_, ?_⟩
  · refine (update_of_ne (show j ≠ size - 1 by omega) _ _).trans ?_
    exact hin j (Nat.zero_le j) (by omega)
  · obtain rfl : j = size - 1 := by omega
    exact update_self ..
  · rw [hmsgQ]
    rfl
  · rw [hmsgQ]
    rfl
  · exact (Finset.sum_eq_zero fun q _ => hnbrEntries q).symm
  · rw [hmsgQ]
    rfl
  · have hnodup := @List.nodup_range' 0 size 1 Nat.one_pos
    by_cases hi : i < size
    · simp
    · simp
  · simp

end Held

end RtosKernel.Ucos.Queues
