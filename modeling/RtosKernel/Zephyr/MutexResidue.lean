import Mathlib.Data.List.Count
import RtosKernel.Zephyr.Mutex

/-! # Priority inheritance leaves no residue

If locks are given back in the reverse order, the mutex a thread gives back last is the one it took first, when
it had no other, and the priority this mutex remembers is the one the thread was created with. -/

namespace RtosKernel.Zephyr.Mutexes
open Lib.Runs Zephyr.WaitQ List Function Option

variable {T M : Type} [DecidableEq T] [DecidableEq M]

/-- A thread that locks a mutex it owns does not run into the end of the 32-bit count. -/
def Counts (s : System T M) : Event T M → Prop
  | .lock t m _ => (s.mutex m).owner = some t → (s.mutex m).lockCount + 1 < 2 ^ 32
  | _ => True

/-- Locks are given back in the reverse order. -/
def Reverse (s : System T M) : Event T M → Prop
  | .unlock t m => (s.mutex m).owner = some t → (s.held t).head? = some m
  | _ => True

/-- A thread whose wait has timed out finds the mutex locked. -/
def Locked (s : System T M) : Event T M → Prop
  | .timedOut t => ∀ m, s.phase t = .timedOut m → (s.mutex m).lockCount > 0
  | _ => True

/-- The locks a thread holds are counted, and the mutex of the first one remembers its priority. -/
structure Inv (created : T → Int) (s : System T M) : Prop where
  count : ∀ m t, (s.held t).count m = if (s.mutex m).owner = some t then (s.mutex m).lockCount else 0
  locked : ∀ m, 0 < (s.mutex m).lockCount ↔ (s.mutex m).owner ≠ none
  nodup : ∀ m, (s.mutex m).waitQ.Nodup
  waits : ∀ m t, t ∈ (s.mutex m).waitQ → s.phase t = .pending m
  prio : ∀ t, s.held t = [] → s.prio t = created t
  orig : ∀ t m, (s.held t).getLast? = some m → (s.mutex m).ownerOrigPrio = created t

variable {created : T → Int} {ceiling : Int} {s s' : System T M} {t u o : T} {m : M} {p : Int} {e : Event T M}

section
variable (h : Inv created s)
include h

theorem Inv.mem_iff : m ∈ s.held t ↔ (s.mutex m).owner = some t := by
  rw [← count_pos_iff, h.count]
  split
  · rename_i howner
    simp only [howner, iff_true]
    exact (h.locked m).mpr (by rw [howner]; nofun)
  · rename_i howner
    simp [howner]

theorem Inv.free_iff : (s.mutex m).lockCount = 0 ↔ (s.mutex m).owner = none := by
  have hlocked := h.locked m
  rw [Nat.pos_iff_ne_zero] at hlocked
  exact not_iff_not.mp hlocked

theorem Inv.setPrio (howner : (s.mutex m).owner = some o) : Inv created (s.zSetPrio o p) := by
  refine ⟨h.count, h.locked, h.nodup, h.waits, fun t ht => ?_, h.orig⟩
  have hto : t ≠ o := by
    rintro rfl
    have hmem := h.mem_iff.mpr howner
    rw [show s.held t = [] from ht] at hmem
    cases hmem
  rw [prio_zSetPrio, if_neg hto]
  exact h.prio t ht

theorem Inv.setPhase (ht : ∀ m, t ∉ (s.mutex m).waitQ) (q : Phase M) : Inv created (s.setPhase t q) := by
  refine ⟨h.count, h.locked, h.nodup, fun m u hu => ?_, h.prio, h.orig⟩
  have hut : u ≠ t := fun hut => ht m (hut ▸ hu)
  rw [phase_setPhase, if_neg hut]
  exact h.waits m u hu

theorem Inv.not_mem (ht : ∀ m, s.phase t ≠ .pending m) : ∀ m, t ∉ (s.mutex m).waitQ :=
  fun m hmem => ht m (h.waits m t hmem)

theorem Inv.setWaitQ (m : M) {waitQ : List T} (hnodup : waitQ.Nodup)
    (hwaits : ∀ t ∈ waitQ, s.phase t = .pending m) :
    Inv created (s.setMutex m { s.mutex m with waitQ }) := by
  have hsame (m' : M) : ∀ v, v = (s.setMutex m { s.mutex m with waitQ }).mutex m' →
      v.owner = (s.mutex m').owner ∧ v.lockCount = (s.mutex m').lockCount ∧
        v.ownerOrigPrio = (s.mutex m').ownerOrigPrio ∧ v.waitQ = if m' = m then waitQ else (s.mutex m').waitQ := by
    rintro v rfl
    rw [mutex_setMutex]
    split
    · rename_i heq
      subst heq
      exact ⟨rfl, rfl, rfl, rfl⟩
    · exact ⟨rfl, rfl, rfl, rfl⟩
  refine ⟨fun m' t => ?_, fun m' => ?_, fun m' => ?_, fun m' t ht => ?_, h.prio, fun t m' ht => ?_⟩ <;>
    obtain ⟨howner, hcount, horig, hwaitQ⟩ := hsame m' _ rfl
  · rw [howner, hcount]
    exact h.count m' t
  · rw [howner, hcount]
    exact h.locked m'
  · rw [hwaitQ]
    split
    · exact hnodup
    · exact h.nodup m'
  · rw [hwaitQ] at ht
    split at ht
    · rename_i heq
      rw [heq]
      exact hwaits t ht
    · exact h.waits m' t ht
  · rw [horig]
    exact h.orig t m' ht

theorem Inv.change {v : Mutex T} {l : List M} (hwaitQ : v.waitQ = (s.mutex m).waitQ)
    (hbefore : ∀ u, (s.mutex m).owner = some u → u = t) (hafter : ∀ u, v.owner = some u → u = t)
    (hlocked : 0 < v.lockCount ↔ v.owner ≠ none) (hcount : l.count m = v.lockCount)
    (hother : ∀ m' ≠ m, l.count m' = (s.held t).count m') (hprio : l = [] → s.prio t = created t)
    (horig : ∀ m', l.getLast? = some m' → (if m' = m then v else s.mutex m').ownerOrigPrio = created t) :
    Inv created { s with mutex := Function.update s.mutex m v, held := Function.update s.held t l } := by
  have hfree (u : T) (hut : u ≠ t) : (s.held u).count m = 0 := by
    rw [h.count, if_neg fun howner => hut (hbefore u howner)]
  refine ⟨fun m' u => ?_, fun m' => ?_, fun m' => ?_, fun m' u hu => ?_, fun u hu => ?_, fun u m' hu => ?_⟩
  all_goals simp only [update_apply] at *
  · by_cases hut : u = t <;> by_cases hm : m' = m
    · subst hut hm
      rw [if_pos rfl, if_pos rfl, hcount]
      split
      · rfl
      · rename_i hno
        have hnone : v.owner = none := eq_none_iff_forall_ne_some.mpr fun u hu => hno (hafter u hu ▸ hu)
        exact Nat.eq_zero_of_not_pos fun hpos => hlocked.mp hpos hnone
    · subst hut
      rw [if_pos rfl, if_neg hm, hother m' hm, h.count]
    · subst hm
      rw [if_neg hut, if_pos rfl, hfree u hut, if_neg fun howner => hut (hafter u howner)]
    · rw [if_neg hut, if_neg hm, h.count]
  · split
    · exact hlocked
    · exact h.locked m'
  · split
    · rw [hwaitQ]
      exact h.nodup m
    · exact h.nodup m'
  · split at hu
    · rename_i hm
      rw [hwaitQ] at hu
      rw [hm]
      exact h.waits m u hu
    · exact h.waits m' u hu
  · split at hu
    · rename_i hut
      rw [hut]
      exact hprio hu
    · exact h.prio u hu
  · split at hu
    · rename_i hut
      rw [hut]
      exact horig m' hu
    · rename_i hut
      have hm : m' ≠ m := by
        rintro rfl
        have hpos := count_pos_iff.mpr (List.mem_of_mem_getLast? hu)
        rw [hfree u hut] at hpos
        exact Nat.lt_irrefl 0 hpos
      rw [if_neg hm]
      exact h.orig u m' hu

theorem Inv.taken (hfree : (s.mutex m).lockCount = 0) (t : T) : Inv created (s.taken m t) := by
  have howner := h.free_iff.mp hfree
  have hnot : m ∉ s.held t := by
    rw [h.mem_iff, howner]
    nofun
  have hnone : ∀ u, (s.mutex m).owner = some u → u = t := by
    rw [howner]
    nofun
  refine h.change (t := t) (l := m :: s.held t) rfl hnone (fun u hu => (some.inj hu).symm) (by simp)
    (by rw [count_cons_self, count_eq_zero_of_not_mem hnot]) (fun m' hm => count_cons_of_ne hm.symm)
    nofun fun m' hlast => ?_
  by_cases hl : s.held t = []
  · rw [hl, List.getLast?_singleton] at hlast
    rw [if_pos (some.inj hlast).symm]
    exact h.prio t hl
  · rw [List.getLast?_cons_of_ne_nil hl] at hlast
    rw [if_neg fun hm : m' = m => hnot (hm ▸ List.mem_of_mem_getLast? hlast)]
    exact h.orig t m' hlast

section
variable (howner : (s.mutex m).owner = some t)
include howner

theorem Inv.nested
    (hlt : (s.mutex m).lockCount + 1 < 2 ^ 32) : Inv created (s.nested m t) := by
  have hmem := h.mem_iff.mpr howner
  have hcount := h.count m t
  rw [if_pos howner] at hcount
  refine h.change (t := t) (l := m :: s.held t) rfl (fun u hu => ?_) (fun u hu => (some.inj hu).symm) ?_ ?_
    (fun m' hm => count_cons_of_ne hm.symm) nofun fun m' hlast => ?_
  · rw [howner] at hu
    exact (some.inj hu).symm
  · rw [Nat.mod_eq_of_lt hlt]
    simp
  · rw [count_cons_self, hcount, Nat.mod_eq_of_lt hlt]
  · rw [List.getLast?_cons_of_ne_nil (ne_nil_of_mem hmem)] at hlast
    have horig := h.orig t m' hlast
    split
    · rename_i hm
      rw [← hm]
      exact horig
    · exact horig

theorem Inv.held_cons
    (hreverse : (s.held t).head? = some m) :
    s.held t = m :: (s.held t).tail ∧ (s.held t).tail.count m = (s.mutex m).lockCount - 1 := by
  have hheld : s.held t = m :: (s.held t).tail := List.eq_cons_of_mem_head? hreverse
  have hcount := h.count m t
  rw [if_pos howner, hheld, count_cons_self] at hcount
  exact ⟨hheld, by omega⟩

theorem Inv.unnested (hmany : 1 < (s.mutex m).lockCount)
    (hreverse : (s.held t).head? = some m) : Inv created (s.unnested m t) := by
  obtain ⟨hheld, hcount⟩ := h.held_cons howner hreverse
  have herase : (s.held t).erase m = (s.held t).tail := by rw [hheld, erase_cons_head, tail_cons]
  have hmem : m ∈ (s.held t).tail := count_pos_iff.mp (by omega)
  have howners (u : T) (hu : (s.mutex m).owner = some u) : u = t := by
    rw [howner] at hu
    exact (some.inj hu).symm
  refine h.change (t := t) (l := (s.held t).erase m) rfl howners howners ?_ ?_
    (fun m' hm => List.count_erase_of_ne hm) (fun hnil => ?_) fun m' hlast => ?_
  · show 0 < (s.mutex m).lockCount - 1 ↔ _
    simp only [howner, ne_eq, reduceCtorEq, not_false_eq_true, iff_true]
    omega
  · rw [herase, hcount]
  · rw [herase] at hnil
    rw [hnil] at hmem
    cases hmem
  · rw [herase] at hlast
    have horig := h.orig t m' (by rwa [hheld, List.getLast?_cons_of_ne_nil (ne_nil_of_mem hmem)])
    split
    · rename_i hm
      rw [← hm]
      exact horig
    · exact horig

theorem Inv.freed (hlast : (s.mutex m).lockCount ≤ 1)
    (hreverse : (s.held t).head? = some m) : Inv created ((s.restored m t).freed m) := by
  obtain ⟨hheld, hcount⟩ := h.held_cons howner hreverse
  have herase : (s.held t).erase m = (s.held t).tail := by rw [hheld, erase_cons_head, tail_cons]
  have hnot : m ∉ (s.held t).tail := count_eq_zero.mp (by omega)
  have hset := h.setPrio (p := (s.mutex m).ownerOrigPrio) howner
  refine hset.change (t := t) (l := (s.held t).erase m) rfl (fun u hu => ?_) nofun (by simp) ?_
    (fun m' hm => List.count_erase_of_ne hm) (fun hnil => ?_) fun m' hend => ?_
  · rw [mutex_zSetPrio, howner] at hu
    exact (some.inj hu).symm
  · rw [herase]
    exact count_eq_zero.mpr hnot
  · rw [prio_zSetPrio, if_pos rfl]
    refine h.orig t m ?_
    rw [herase] at hnil
    rw [hheld, hnil]
    rfl
  · rw [herase] at hend
    have hmem : m' ∈ (s.held t).tail := List.mem_of_mem_getLast? hend
    rw [if_neg fun hm : m' = m => hnot (hm ▸ hmem)]
    exact h.orig t m' (by rwa [hheld, List.getLast?_cons_of_ne_nil (ne_nil_of_mem hmem)])

end

end

theorem handedOver_eq (hlocked : (s.mutex m).lockCount = 1) :
    s.handedOver m u =
      (((s.freed m).setMutex m { (s.freed m).mutex m with waitQ := (s.mutex m).waitQ.erase u }).setPhase u .idle).taken
        m u := by
  simp only [System.handedOver, System.freed, System.taken, System.setMutex, System.setPhase, System.took,
    update_idem, update_self, hlocked]

section
variable (h : Inv created s)
include h

theorem Inv.handedOver (howner : (s.mutex m).owner = some t)
    (hlast : (s.mutex m).lockCount ≤ 1) (hreverse : (s.held t).head? = some m)
    (hbest : zPriqDumbBest (s.mutex m).waitQ = some u) : Inv created ((s.restored m t).handedOver m u) := by
  have hone : (s.mutex m).lockCount = 1 := by
    have := (h.locked m).mpr (by rw [howner]; nofun)
    omega
  have hu : u ∈ (s.mutex m).waitQ := List.mem_of_mem_head? hbest
  rw [handedOver_eq (s := s.restored m t) hone]
  have hfreed := h.freed howner hlast hreverse
  have hwaitQ : (((s.restored m t).freed m).mutex m).waitQ = (s.mutex m).waitQ := by
    simp [System.freed, System.restored]
  have hqueue := hfreed.setWaitQ m ((h.nodup m).erase u)
    fun x hx => hfreed.waits m x (hwaitQ ▸ mem_of_mem_erase hx)
  refine (hqueue.setPhase (fun m' hmem => ?_) .idle).taken (by simp [System.freed]) u
  have hphase := hqueue.waits m' u hmem
  rw [phase_setMutex, hfreed.waits m u (hwaitQ ▸ hu)] at hphase
  cases hphase
  rw [mutex_setMutex, if_pos rfl] at hmem
  exact (h.nodup m).not_mem_erase hmem

theorem Inv.timeout (hpending : s.phase t = .pending m) : Inv created (zThreadTimeout s m t) := by
  have hqueue := h.setWaitQ m ((h.nodup m).erase t)
    fun x hx => h.waits m x (mem_of_mem_erase hx)
  refine hqueue.setPhase (fun m' hmem => ?_) (.timedOut m)
  have hphase := hqueue.waits m' t hmem
  rw [phase_setMutex, hpending] at hphase
  cases hphase
  rw [mutex_setMutex, if_pos rfl] at hmem
  exact (h.nodup m).not_mem_erase hmem

theorem Inv.raise (howner : (s.mutex m).owner = some o) : Inv created (s.raise o p) := by
  unfold System.raise
  split
  · exact h.setPrio howner
  · exact h

theorem Inv.pend (hidle : s.phase t = .idle) : Inv created (s.zPendCurr m t) := by
  have hnot := h.not_mem (t := t) (by rw [hidle]; nofun)
  refine (h.setPhase hnot (.pending m)).setWaitQ m (nodup_zPriqDumbAdd.mpr ⟨hnot m, h.nodup m⟩) fun x hx => ?_
  rw [phase_setPhase]
  split
  · rfl
  · rename_i hxt
    exact h.waits m x ((mem_zPriqDumbAdd.mp hx).resolve_left hxt)

/-- **One step.** -/
theorem Inv.step (hcounts : Counts s e) (hreverse : Reverse s e)
    (hstep : step ceiling s e = .ok s') : Inv created s' := by
  cases step_outcome hstep with
  | taken hidle hfree => exact h.taken hfree _
  | nested hidle hheld howner => exact h.nested howner (hcounts howner)
  | waits hidle hheld howner hother =>
    refine (h.raise howner).pend ?_
    unfold System.raise
    split <;> exact hidle
  | busy => exact h
  | notOwner howner => exact h
  | unnested hidle howner hmany => exact h.unnested howner hmany (hreverse howner)
  | handedOver hidle howner hlast hbest => exact h.handedOver howner hlast (hreverse howner) hbest
  | freed hidle howner hlast hbest => exact h.freed howner hlast (hreverse howner)
  | timeout hpending => exact h.timeout hpending
  | timedOut hphase howner =>
    exact (h.setPrio howner).setPhase (h.not_mem (by rw [hphase]; nofun)) .idle

end

theorem Inv.start (orig : M → Int) (prio : T → Int) : Inv prio (start orig prio : System T M) := by
  refine ⟨fun m t => rfl, fun m => ?_, fun m => nodup_nil, fun m t => nofun, fun t _ => rfl, fun t m => nofun⟩
  simp [Mutexes.start]

theorem Inv.no_null (h : Inv created s) (hlocked : Locked s e) : Mutexes.step ceiling s e ≠ .error .nullOwner := by
  intro hnull
  obtain ⟨m, howner, ⟨t, rfl, hheld⟩ | ⟨t, rfl, hphase⟩⟩ := step_null hnull
  · exact hheld (h.free_iff.mpr howner)
  · exact (h.locked m).mp (hlocked m hphase) howner

def OwnsNone (s : System T M) (t : T) : Prop := ∀ m, (s.mutex m).owner ≠ some t

theorem Inv.prio_of_none (h : Inv created s) (hnone : OwnsNone s t) : s.prio t = created t := by
  refine h.prio t (eq_nil_iff_forall_not_mem.mpr fun m hm => hnone m (h.mem_iff.mp hm))

/-- **No residue.** After a run in which locks are given back in the reverse order and no count of locks runs over,
a thread that owns no mutex has the priority it was created with. -/
theorem k_mutex_no_residue {orig : M → Int} {prio : T → Int} {es : List (Event T M)}
    (hes : Along (Mutexes.step ceiling) (fun s e => Counts s e ∧ Reverse s e) (Mutexes.start orig prio) es)
    (hrun : run (Mutexes.step ceiling) (Mutexes.start orig prio) es = .ok s) : ∀ t, OwnsNone s t → s.prio t = prio t := by
  have hinv : Inv prio s :=
    run_inv (fun s e s' h hp hstep => h.step hp.1 hp.2 hstep) (.start orig prio) hes hrun
  exact fun t ht => hinv.prio_of_none ht

/-- Thread 0 owns both mutexes, and the first one once more when thread 1 waits for it, gives up and is replaced
by thread 2, which gets it. -/
def nestedLocks : List (Event (Fin 3) (Fin 2)) :=
  [.lock 0 0 false, .lock 0 1 false, .lock 0 0 false, .lock 1 0 false, .timeout 1, .lock 2 0 false, .timedOut 1,
    .unlock 0 0, .unlock 0 1, .unlock 0 0]

instance (s : System T M) (e : Event T M) : Decidable (Counts s e) := by
  cases e <;> unfold Counts <;> infer_instance

instance (s : System T M) (e : Event T M) : Decidable (Reverse s e) := by
  cases e <;> unfold Reverse <;> infer_instance

theorem k_mutex_no_residue_nested :
    ∃ s, run (Mutexes.step (-127)) (Mutexes.start (fun _ => 0) fun t => 5 - t.val) nestedLocks = .ok s ∧
      ∀ t, OwnsNone s t → s.prio t = 5 - t.val :=
  exists_ok_and (by decide +kernel) fun _ hrun => k_mutex_no_residue (by decide +kernel) hrun

/-! The count of locks runs over. -/

/-- The state after the owner has locked the mutex `n` times more. -/
def nestedBy (s : System T M) (m : M) (t : T) (n : Nat) : System T M :=
  { s with
    mutex := Function.update s.mutex m { s.mutex m with lockCount := ((s.mutex m).lockCount + n) % 2 ^ 32 }
    held := Function.update s.held t (replicate n m ++ s.held t) }

theorem step_nested {noWait : Bool} (hidle : s.phase t = .idle) (howner : (s.mutex m).owner = some t)
    (hpos : 0 < (s.mutex m).lockCount) : Mutexes.step ceiling s (.lock t m noWait) = .ok (s.nested m t) := by
  have hne : (s.mutex m).lockCount ≠ 0 := Nat.ne_of_gt hpos
  simp only [Mutexes.step, hidle, kMutexLock, howner, or_true, if_true, if_neg hne]
  rfl

theorem nestedBy_zero (hlt : (s.mutex m).lockCount < 2 ^ 32) : nestedBy s m t 0 = s := by
  have hcount : ((s.mutex m).lockCount + 0) % 2 ^ 32 = (s.mutex m).lockCount := Nat.mod_eq_of_lt hlt
  simp only [nestedBy, hcount, replicate_zero, nil_append, update_eq_self]

theorem nestedBy_succ (howner : (s.mutex m).owner = some t) (n : Nat) :
    (nestedBy s m t n).nested m t = nestedBy s m t (n + 1) := by
  simp only [nestedBy, System.nested, System.setMutex, System.took, update_idem, update_self,
    Nat.mod_add_mod, Nat.add_assoc, replicate_succ, cons_append, ← howner]

theorem run_nested (hidle : s.phase t = .idle) (howner : (s.mutex m).owner = some t) (noWait : Bool) (n : Nat)
    (hpos : 0 < (s.mutex m).lockCount) (hlt : (s.mutex m).lockCount < 2 ^ 32)
    (hle : (s.mutex m).lockCount + n ≤ 2 ^ 32) :
    run (Mutexes.step ceiling) s (replicate n (.lock t m noWait)) = .ok (nestedBy s m t n) := by
  induction n with
  | zero => rw [nestedBy_zero hlt, replicate_zero, run]
  | succ n ih =>
    rw [replicate_succ', run_append (ih (by omega)), run, step_nested]
    · rw [nestedBy_succ howner]
      rfl
    · exact hidle
    · simpa [nestedBy] using howner
    · simp only [nestedBy, update_self]
      omega

theorem along_nested (n : Nat) (noWait : Bool) :
    Along (Mutexes.step ceiling) Reverse s (replicate n (.lock t m noWait)) := by
  induction n generalizing s with
  | zero => trivial
  | succ n ih =>
    refine ⟨trivial, ?_⟩
    cases Mutexes.step ceiling s (.lock t m noWait) with
    | ok s' => exact ih
    | error _ => trivial

/-- Thread 0 has the priority 5 and thread 1 the priority 1. -/
def twoThreads : System (Fin 2) Unit := Mutexes.start (fun _ => 0) fun t => if t = 0 then 5 else 1

/-- Thread 0 owns the mutex and thread 1 waits for it. -/
def boosted : System (Fin 2) Unit := ((twoThreads.taken () 0).raise 0 1).zPendCurr () 1

/-- Thread 0 locks the mutex, and once thread 1 waits for it 2 ^ 32 times more; then it gives one lock back. -/
def overrun : List (Event (Fin 2) Unit) :=
  [.lock 0 () false, .lock 1 () false] ++
    (replicate (2 ^ 32 - 1) (.lock 0 () false) ++ [.lock 0 () false, .unlock 0 ()])

theorem k_mutex_residue_overrun :
    ∃ s, Along (Mutexes.step (-127)) Reverse twoThreads overrun ∧ run (Mutexes.step (-127)) twoThreads overrun = .ok s ∧
      (∀ t m, s.phase t ≠ .timedOut m) ∧ OwnsNone s 0 ∧ s.prio 0 = 1 ∧ twoThreads.prio 0 = 5 := by
  have hfirst : run (Mutexes.step (-127)) twoThreads [.lock 0 () false, .lock 1 () false] = .ok boosted := rfl
  have hmany : run (Mutexes.step (-127)) boosted (replicate (2 ^ 32 - 1) (.lock 0 () false)) =
      .ok (nestedBy boosted () 0 (2 ^ 32 - 1)) :=
    run_nested (by decide) (by decide) false _ (by decide) (by decide) (by decide)
  have hend : (run (Mutexes.step (-127)) (nestedBy boosted () 0 (2 ^ 32 - 1)) [.lock 0 () false, .unlock 0 ()]).toOption.map
      (fun s => (s.prio 0, (s.mutex ()).owner, s.phase 0, s.phase 1)) = some (1, some 1, .idle, .idle) := by
    decide +kernel
  cases hrun : run (Mutexes.step (-127)) (nestedBy boosted () 0 (2 ^ 32 - 1)) [.lock 0 () false, .unlock 0 ()] with
  | error stop =>
    rw [hrun] at hend
    cases hend
  | ok s =>
    rw [hrun] at hend
    simp only [Except.toOption, map_some, some.injEq, Prod.mk.injEq] at hend
    obtain ⟨hprio, howner, hphase₀, hphase₁⟩ := hend
    refine ⟨s, ?_, ?_, ?_, ?_, hprio, rfl⟩
    · exact .append (by decide) hfirst (.append (along_nested _ false) hmany (by decide +kernel))
    · rw [overrun, run_append hfirst, run_append hmany, hrun]
    · refine Fin.forall_fin_two.mpr ⟨fun m => ?_, fun m => ?_⟩
      · rw [hphase₀]
        nofun
      · rw [hphase₁]
        nofun
    · intro m
      rw [howner]
      decide

/-! ## One mutex -/

/-- A mutex is locked exactly if it has an owner, and nobody else has a changed priority. -/
structure OneSafe (prio : T → Int) (s : System T Unit) : Prop where
  locked : 0 < (s.mutex ()).lockCount ↔ (s.mutex ()).owner ≠ none
  prio : ∀ t, (s.mutex ()).owner ≠ some t → s.prio t = prio t

theorem Inv.reverse_one {s : System T Unit} {e : Event T Unit} (h : Inv created s) : Reverse s e := by
  cases e with
  | unlock t m =>
    intro howner
    have hmem := h.mem_iff.mpr howner
    cases hheld : s.held t with
    | nil =>
      rw [hheld] at hmem
      cases hmem
    | cons m' l => rfl
  | _ => trivial

/-- **Timeouts are safe on a locked mutex.** In a run in which a thread whose wait has timed out finds the mutex
locked, and in which no count of locks runs over, the owner is never used while there is none. -/
theorem k_mutex_timeout_safe {orig : Unit → Int} {prio : T → Int} {es : List (Event T Unit)}
    (hes : Along (Mutexes.step ceiling) (fun s e => Counts s e ∧ Locked s e) (Mutexes.start orig prio) es) :
    run (Mutexes.step ceiling) (Mutexes.start orig prio) es ≠ .error .nullOwner ∧
      ∀ s, run (Mutexes.step ceiling) (Mutexes.start orig prio) es = .ok s → OneSafe prio s := by
  have hstep (s : System T Unit) (e : Event T Unit) (s' : System T Unit) (h : Inv prio s)
      (hp : Counts s e ∧ Locked s e) (hgo : Mutexes.step ceiling s e = .ok s') : Inv prio s' :=
    h.step hp.1 h.reverse_one hgo
  refine ⟨run_no_stop hstep (fun s e h hp => h.no_null hp.2) (.start orig prio) hes, fun s hrun => ?_⟩
  have hinv := run_inv hstep (.start orig prio) hes hrun
  exact ⟨hinv.locked (), fun t ht => hinv.prio_of_none fun _ => ht⟩

instance (s : System T M) (e : Event T M) : Decidable (Locked s e) :=
  match e with
  | .timedOut t =>
    match hphase : s.phase t with
    | .timedOut m => decidable_of_iff ((s.mutex m).lockCount > 0) (by simp [Locked, hphase])
    | .idle => isTrue fun m hm => by rw [hphase] at hm; cases hm
    | .pending _ => isTrue fun m hm => by rw [hphase] at hm; cases hm
  | .lock .. => isTrue trivial
  | .unlock .. => isTrue trivial
  | .timeout _ => isTrue trivial

/-- The wait of thread 1 times out; it runs again when thread 0 has given the mutex to thread 2. -/
theorem k_mutex_timeout_safe_three :
    run (Mutexes.step (-127)) (Mutexes.start (fun _ => 0) fun t : Fin 3 => 5 - t.val)
      [.lock 0 () false, .lock 1 () false, .lock 2 () false, .timeout 1, .unlock 0 (), .timedOut 1] ≠
        .error .nullOwner :=
  (k_mutex_timeout_safe (by decide +kernel)).1

/-- The wait of thread 1 times out; when it runs again thread 0 has given the mutex back. -/
theorem k_mutex_timeout_null :
    run (Mutexes.step (-127)) twoThreads [.lock 0 () false, .lock 1 () false, .timeout 1, .unlock 0 (), .timedOut 1] =
      .error .nullOwner := rfl

end RtosKernel.Zephyr.Mutexes
