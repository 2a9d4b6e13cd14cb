import RtosKernel.Ucos.PendAborts

/-! # What aborting waits does

`OS_OPT_POST_NO_SCHED` is compared with, and not masked, in the loop that aborts all the waits for an object, and
`OSTaskSemPendAbort` leaves its critical section between the check and the abort. -/

namespace RtosKernel.Ucos.PendAborts
open Lib.Containers Lib.Runs List

/-! ## The loop -/

section Loop
variable {T K X : Type} {pendList : K → List T} {abort : K → T → Except X K} {I : K → Prop} {k k' : K} {n m m' : Nat}

/-- A round that returns takes the first task out of the pend list, and keeps `I`. -/
def Takes (pendList : K → List T) (abort : K → T → Except X K) (I : K → Prop) : Prop :=
  ∀ k t l k', I k → pendList k = t :: l → abort k t = .ok k' → I k' ∧ (pendList k').length = l.length

theorem abortLoop_all (h : Takes pendList abort I) (hI : I k) (hn : (pendList k).length = n)
    (hgo : abortLoop pendList abort OS_OPT_PEND_ABORT_ALL n k m = .ok (k', m')) : pendList k' = [] ∧ m' = m + n := by
  induction n generalizing k m with
  | zero =>
    cases hgo
    exact ⟨length_eq_zero_iff.mp hn, rfl⟩
  | succ n ih =>
    obtain ⟨t, l, hl⟩ := exists_cons_of_length_eq_add_one hn
    simp only [abortLoop, hl] at hgo
    obtain ⟨k₁, hround, hgo⟩ := bind_eq_ok hgo
    obtain ⟨hI₁, hlen⟩ := h k t l k₁ hI hl hround
    rw [hl] at hn
    obtain ⟨hnil, hm⟩ := ih hI₁ (hlen.trans (Nat.succ.inj hn)) hgo
    exact ⟨hnil, by omega⟩

theorem abortLoop_keeps {opt : Nat} (h : ∀ k t l k', I k → pendList k = t :: l → abort k t = .ok k' → I k') (hI : I k)
    (hgo : abortLoop pendList abort opt n k m = .ok (k', m')) : I k' := by
  induction n generalizing k m with
  | zero =>
    cases hgo
    exact hI
  | succ n ih =>
    rw [abortLoop] at hgo
    split at hgo
    · cases hgo
      exact hI
    · rename_i t l hl
      obtain ⟨k₁, hround, hgo⟩ := bind_eq_ok hgo
      split at hgo
      · cases hgo
        exact h k t l _ hI hl hround
      · exact ih (h k t l k₁ hI hl hround) hgo

theorem pendAbort_keeps {opt : Nat} {r : Result K}
    (h : ∀ k t l k', I k → pendList k = t :: l → abort k t = .ok k' → I k') (hI : I k)
    (hgo : pendAbort pendList abort opt k = .ok r) : I r.kernel := by
  unfold pendAbort at hgo
  split at hgo
  · cases hgo
    exact hI
  · split at hgo
    · cases hgo
      exact hI
    · obtain ⟨⟨k', m⟩, hloop, hr⟩ := map_eq_ok hgo
      cases hr
      exact abortLoop_keeps h hI hloop

/-- Two calls leave the same but for the call of `OSSched`, and nobody waits any more. -/
def OnlySched (pendList : K → List T) (r r' : Except X (Result K)) : Prop :=
  r.map (fun x => (x.kernel, x.nbrTasks, x.err)) = r'.map (fun x => (x.kernel, x.nbrTasks, x.err)) ∧
    ∀ x, r = .ok x ∨ r' = .ok x → pendList x.kernel = []

theorem pendAbort_onlySched_iff (h : Takes pendList abort I) (hI : I k) :
    OnlySched pendList (pendAbort pendList abort (OS_OPT_PEND_ABORT_ALL ||| OS_OPT_POST_NO_SCHED) k)
        (pendAbort pendList abort OS_OPT_PEND_ABORT_ALL k) ↔
      (pendList k).length ≤ 1 ∨ ∃ t stop, (pendList k).head? = some t ∧ abort k t = .error stop := by
  cases hl : pendList k with
  | nil =>
    have hnone (opt : Nat) (hopt : opt = OS_OPT_PEND_ABORT_ALL ||| OS_OPT_POST_NO_SCHED ∨ opt = OS_OPT_PEND_ABORT_ALL) :
        pendAbort pendList abort opt k = .ok ⟨k, 0, .errPendAbortNone, false⟩ := by
      rcases hopt with rfl | rfl <;> simp [pendAbort, hl, OS_OPT_PEND_ABORT_ALL, OS_OPT_POST_NO_SCHED]
    rw [hnone _ (.inl rfl), hnone _ (.inr rfl)]
    refine iff_of_true ⟨rfl, ?_⟩ (.inl (Nat.zero_le 1))
    rintro x (hx | hx)
    · cases hx
      exact hl
    · cases hx
      exact hl
  | cons t l =>
    have hns : pendAbort pendList abort (OS_OPT_PEND_ABORT_ALL ||| OS_OPT_POST_NO_SCHED) k =
        (abort k t).map fun k => ⟨k, 1, .errNone, false⟩ := by
      cases hgo : abort k t <;>
        simp [pendAbort, abortLoop, hl, hgo, Except.bind, Except.map, OS_OPT_PEND_ABORT_ALL, OS_OPT_POST_NO_SCHED]
    have hall : pendAbort pendList abort OS_OPT_PEND_ABORT_ALL k =
        ((abort k t).bind fun k => abortLoop pendList abort OS_OPT_PEND_ABORT_ALL l.length k 1).map
          fun x => ⟨x.1, x.2, .errNone, true⟩ := by
      simp [pendAbort, abortLoop, hl, OS_OPT_PEND_ABORT_ALL, OS_OPT_POST_NO_SCHED]
    rw [hns, hall]
    cases hround : abort k t with
    | error stop =>
      refine iff_of_true ⟨rfl, ?_⟩ (.inr ⟨t, stop, rfl, hround⟩)
      rintro x (hx | hx)
      · cases hx
      · cases hx
    | ok k₁ =>
      obtain ⟨hI₁, hlen⟩ := h k t l k₁ hI hl hround
      cases l with
      | nil =>
        have hnil := length_eq_zero_iff.mp hlen
        refine iff_of_true ⟨rfl, ?_⟩ (.inl (Nat.le_refl 1))
        rintro x (hx | hx)
        · cases hx
          exact hnil
        · cases hx
          exact hnil
      | cons u l =>
        refine iff_of_false (fun hboth => ?_) ?_
        · have hsame := hboth.1
          simp only [Except.bind] at hsame
          cases hloop : abortLoop pendList abort OS_OPT_PEND_ABORT_ALL (u :: l).length k₁ 1 with
          | error stop =>
            rw [hloop] at hsame
            cases hsame
          | ok x =>
            obtain ⟨-, hm⟩ := abortLoop_all h hI₁ hlen hloop
            rw [hloop] at hsame
            simp only [Except.map, Except.ok.injEq, Prod.mk.injEq] at hsame
            rw [length_cons] at hm
            omega
        · rintro (hle | ⟨t', stop, ht, herr⟩)
          · simp at hle
          · cases ht
            rw [hround] at herr
            cases herr

end Loop

variable {T O : Type} [dT : DecidableEq T] [dO : DecidableEq O]

omit dO in
theorem tcb_setTcb {k : Kernel T O} {t u : T} {v : Tcb} : (k.setTcb t v).tcb u = if u = t then v else k.tcb u :=
  Function.update_apply ..

/-! ## Who is in a pend list -/

/-- A task is in the pend list it believes to be in, and waits for an object then; one that waits for nothing is not
recorded as waiting. -/
structure Listed (k : Kernel T O) : Prop where
  lists : k.pend.Ok
  obj : ∀ t o, k.pend.container t = some o → ∃ kind, (k.tcb t).pendOn = .obj kind
  waits : ∀ t, (k.tcb t).pendOn ≠ .nothing → (k.tcb t).waits

section Listed
variable {k k' : Kernel T O} {t : T} {o : O}

omit dT dO in
theorem Listed.waits_of_container (h : Listed k) (ht : k.pend.container t = some o) : (k.tcb t).waits := by
  obtain ⟨kind, hobj⟩ := h.obj t o ht
  exact h.waits t (by rw [hobj]; nofun)

omit dT dO in
theorem Listed.congr (h : Listed k) (htcb : k'.tcb = k.tcb) (hpend : k'.pend = k.pend) : Listed k' :=
  ⟨by rw [hpend]; exact h.lists, by rw [htcb, hpend]; exact h.obj, by rw [htcb]; exact h.waits⟩

section
omit dO

/-- A call ends in its first critical section and changes nothing, or its target waits for its own semaphore. -/
theorem osTaskSemPendAbort_cases (k : Kernel T O) (cur : T) (target : Option T) (opt : Nat) :
    (∃ err, osTaskSemPendAbort k cur target opt = (k, some (false, err))) ∨
      ∃ t, target = some t ∧ (k.tcb t).pendOn = .taskSem ∧
        osTaskSemPendAbort k cur target opt = ({ k with aborting := Function.update k.aborting cur (some t) }, none) := by
  unfold osTaskSemPendAbort
  split
  · exact .inl ⟨_, rfl⟩
  · cases target with
    | none => exact .inl ⟨_, rfl⟩
    | some t =>
      simp only
      split
      · exact .inl ⟨_, rfl⟩
      · split
        · exact .inl ⟨_, rfl⟩
        · exact .inr ⟨t, rfl, not_not.mp ‹_›, rfl⟩

theorem osTaskSemPendAbort_keeps (k : Kernel T O) (cur : T) (target : Option T) (opt : Nat) :
    (osTaskSemPendAbort k cur target opt).1.tcb = k.tcb ∧ (osTaskSemPendAbort k cur target opt).1.pend = k.pend := by
  rcases osTaskSemPendAbort_cases k cur target opt with ⟨err, h⟩ | ⟨t, -, -, h⟩
  · rw [h]
    exact ⟨rfl, rfl⟩
  · rw [h]
    exact ⟨rfl, rfl⟩

theorem Listed.setTcb (h : Listed k) {v : Tcb} (hp : v.pendOn = (k.tcb t).pendOn)
    (hv : (k.tcb t).waits → v.waits) : Listed (k.setTcb t v) := by
  refine ⟨h.lists, fun u o hu => ?_, fun u hu => ?_⟩
  · obtain ⟨kind, hobj⟩ := h.obj u o hu
    refine ⟨kind, ?_⟩
    rw [tcb_setTcb]
    split
    · rename_i hut
      rw [hp, ← hut, hobj]
    · exact hobj
  · rw [tcb_setTcb] at hu ⊢
    split at hu
    · rename_i hut
      rw [if_pos hut]
      rw [hp] at hu
      exact hv (h.waits t hu)
    · rename_i hut
      rw [if_neg hut]
      exact h.waits u hu

end

theorem Listed.readied (h : Listed k) (t : T) (msgPtr msgSize ts : Nat) (status : Status) :
    Listed (k.readied t msgPtr msgSize ts status) := by
  unfold Kernel.readied
  split
  · refine ⟨h.lists.remove t, fun u o hu => ?_, fun u hu => ?_⟩
    · obtain ⟨hut, hu⟩ := container_remove_eq_some.mp hu
      rw [tcb_setTcb, if_neg hut]
      exact h.obj u o hu
    · rw [tcb_setTcb] at hu ⊢
      split at hu
      · cases hu rfl
      · rename_i hut
        rw [if_neg hut]
        exact h.waits u hu
  · exact h

theorem Listed.pend (h : Listed k) (hrdy : (k.tcb t).wait = .rdy) (o : Option O) {pendOn : PendOn}
    (hobj : o ≠ none → ∃ kind, pendOn = .obj kind) (timeout : Bool) : Listed (os_Pend k o t pendOn timeout) := by
  have hnone : k.pend.container t = none := Option.eq_none_iff_forall_ne_some.mpr fun o ho => by
    simpa [Tcb.waits, hrdy] using h.waits_of_container ho
  have hwaits {u : T} {v : Tcb} (hv : v.waits) (hu : ((k.setTcb t v).tcb u).pendOn ≠ .nothing) :
      ((k.setTcb t v).tcb u).waits := by
    rw [tcb_setTcb] at hu ⊢
    split at hu
    · rename_i hut
      rw [if_pos hut]
      exact hv
    · rename_i hut
      rw [if_neg hut]
      exact h.waits u hu
  have hself : ∀ u v, u ≠ t → (k.setTcb t v).tcb u = k.tcb u := fun u v hut => by rw [tcb_setTcb, if_neg hut]
  unfold os_Pend
  cases o with
  | none =>
    refine ⟨h.lists, fun u o hu => ?_, fun u hu => hwaits ?_ hu⟩
    · rw [hself u _ (fun hut => by cases hnone.symm.trans (hut ▸ hu))]
      exact h.obj u o hu
    · cases timeout <;> simp [Tcb.waits]
  | some o =>
    refine ⟨h.lists.insert hnone, fun u o' hu => ?_, fun u hu => hwaits ?_ hu⟩
    · by_cases hut : u = t
      · subst hut
        simpa [Kernel.setTcb] using hobj nofun
      · obtain ⟨kind, hu⟩ := h.obj u o' ((container_put_of_ne _ hut).symm.trans hu)
        exact ⟨kind, (congrArg Tcb.pendOn (hself u _ hut)).trans hu⟩
    · cases timeout <;> simp [Tcb.waits]

/-- `OS_PendAbort` takes the first task of a pend list out of it. -/
theorem readied_takes (o : O) (ts : Nat) :
    Takes (X := Stop) (fun k : Kernel T O => k.pend.items o) (fun k t => .ok (os_PendAbort k t ts .abort)) Listed := by
  rintro k t l _ h hl ⟨⟩
  replace hl : k.pend.items o = t :: l := hl
  refine ⟨h.readied .., ?_⟩
  have hmem : t ∈ k.pend.items o := by
    rw [hl]
    exact mem_cons_self
  have hcontainer := (h.lists.mem_iff t o).mp hmem
  change ((os_PendAbort k t ts .abort).pend.items o).length = l.length
  rw [os_PendAbort, Kernel.readied, if_pos (h.waits_of_container hcontainer), Kernel.setTcb, items_remove h.lists, hl,
    erase_cons_head]

theorem Listed.step {kind : O → Kind} {e : Event T O} (h : Listed k) (hs : step kind k e = .ok k') : Listed k' := by
  have habort : ∀ {o opt ts r}, pendAbort (X := Stop) (fun k : Kernel T O => k.pend.items o)
      (fun k t => .ok (os_PendAbort k t ts .abort)) opt k = .ok r → Listed r.kernel :=
    fun hgo => pendAbort_keeps (fun k t l _ h _ hk => by cases hk; exact h.readied ..) h hgo
  unfold PendAborts.step at hs
  cases e with
  | pend cur o timeout =>
    obtain ⟨hruns, ⟨⟩⟩ := ok_of_ite hs
    exact h.pend hruns.1 _ (fun _ => ⟨_, rfl⟩) _
  | taskPend cur sem timeout =>
    obtain ⟨hruns, ⟨⟩⟩ := ok_of_ite hs
    exact h.pend hruns.1 _ (fun hne => absurd rfl hne) _
  | timeDly cur =>
    obtain ⟨hruns, ⟨⟩⟩ := ok_of_ite hs
    exact h.setTcb rfl fun hw => by simp [Tcb.waits, hruns.1] at hw
  | post t msgPtr msgSize ts =>
    cases hs
    exact h.readied ..
  | timeout t ts =>
    simp only at hs
    split at hs
    · rename_i hdly
      cases hs
      exact h.setTcb rfl fun hw => by simp [Tcb.waits, hdly] at hw
    · cases hs
      exact h.readied ..
    · cases hs
    · cases hs
  | suspend t | resume t =>
    cases hs
    exact h.setTcb rfl id
  | pendAbort o opt ts =>
    simp only at hs
    split at hs
    case h_4 => cases hs
    all_goals
      obtain ⟨r, hgo, rfl⟩ := map_eq_ok hs
      exact habort hgo
  | taskSemPendAbort cur target opt =>
    obtain ⟨-, ⟨⟩⟩ := ok_of_ite hs
    obtain ⟨htcb, hpend⟩ := osTaskSemPendAbort_keeps k cur target opt
    exact h.congr htcb hpend
  | taskSemPendAbortEnd cur ts =>
    simp only at hs
    split at hs
    · obtain ⟨-, ⟨⟩⟩ := ok_of_ite hs
      exact (h.readied _ 0 0 ts .abort).congr rfl rfl
    · cases hs

theorem listed_of_reachable {kind : O → Kind} {prio : T → Nat} {es : List (Event T O)}
    (hr : run (step kind) (start prio) es = .ok k) : Listed k :=
  run_inv (fun _ _ _ h _ hs => h.step hs) ⟨⟨fun t o => by simp [start], fun o => nodup_nil⟩,
    fun _ _ ht => (by cases ht), fun _ ht => absurd rfl ht⟩
    (Along.of_all (p := fun _ _ => True) (fun _ _ => trivial) _) hr

end Listed

/-! ## Aborting all the waits for an object, without calling the scheduler -/

/-- `OSMutexPendAbort` takes the first task of the pend list out of it. -/
theorem abortFirst_takes (c : Mutexes.Config) (fuel : Nat) (m : O) :
    Takes (fun q : Mutexes.Kernel T O => q.pend.items m) (fun q t => Mutexes.abortFirst c fuel q m t)
      Mutexes.Listed := by
  intro q t l q' h hl hgo
  replace hl : q.pend.items m = t :: l := hl
  refine ⟨h.abortFirst hgo, ?_⟩
  have hmem : t ∈ q.pend.items m := by
    rw [hl]
    exact mem_cons_self
  obtain ⟨b, hb⟩ := h.waiting t m ((h.lists.mem_iff t m).mp hmem)
  replace hgo : Mutexes.abortFirst c fuel q m t = .ok q' := hgo
  unfold Mutexes.abortFirst at hgo
  split at hgo
  · cases hgo
  rw [Mutexes.os_PendAbort, Mutexes.readied_eq hb] at hgo
  have hperm := (Mutexes.Similar.disinherit (h.woken t).lists hgo).items m
  have hitems : (q.woken t).pend.items m = l := (items_remove h.lists).trans (by rw [hl, erase_cons_head])
  exact (hperm.trans (.of_eq hitems)).length_eq

/-- **`OS_OPT_POST_NO_SCHED` changes nothing else when `OS_OPT_PEND_ABORT_ALL` is asked for, exactly when at
most one task waits** for the semaphore, the queue or the flag group; for a mutex also when the priorities of
the owners are passed on without end. -/
theorem pendAbort_noSched_iff {kind : O → Kind} {prio prio' : T → Nat} {es : List (Event T O)} {k : Kernel T O}
    {c : Mutexes.Config} {fuel : Nat} {es' : List (Mutexes.Event T O)} {q : Mutexes.Kernel T O}
    (hr : run (step kind) (start prio) es = .ok k)
    (hr' : run (Mutexes.step c fuel) (Mutexes.start prio') es' = .ok q) (o : O) (ts : Nat) :
    (∀ f ∈ [osSemPendAbort, osQPendAbort, osFlagPendAbort],
      OnlySched (fun k : Kernel T O => k.pend.items o) (f k o (OS_OPT_PEND_ABORT_ALL ||| OS_OPT_POST_NO_SCHED) ts)
        (f k o OS_OPT_PEND_ABORT_ALL ts) ↔ (k.pend.items o).length ≤ 1) ∧
    (OnlySched (fun q : Mutexes.Kernel T O => q.pend.items o)
        (osMutexPendAbort c fuel q o (OS_OPT_PEND_ABORT_ALL ||| OS_OPT_POST_NO_SCHED))
        (osMutexPendAbort c fuel q o OS_OPT_PEND_ABORT_ALL) ↔
      (q.pend.items o).length ≤ 1 ∨
        ∃ t stop, (q.pend.items o).head? = some t ∧ Mutexes.abortFirst c fuel q o t = .error stop) := by
  refine ⟨?_, pendAbort_onlySched_iff (abortFirst_takes c fuel o) (Mutexes.listed_of_reachable hr')⟩
  have hsem := (pendAbort_onlySched_iff (readied_takes o ts) (listed_of_reachable hr)).trans
    (or_iff_left fun ⟨t, stop, _, herr⟩ => by cases herr)
  intro f hf
  simp only [mem_cons, not_mem_nil, or_false] at hf
  rcases hf with rfl | rfl | rfl <;> exact hsem

/-- Task 1, and then task 2, wait for the object. -/
def twoWait : List (Event (Fin 3) (Fin 1)) := [.pend 1 0 false, .pend 2 0 true]

theorem pendAbort_noSched_iff_one :
    ∃ (k : Kernel (Fin 3) (Fin 1)) (q : Mutexes.Kernel (Fin 3) (Fin 1)),
      run (step fun _ => .sem) (start fun t => 5 + t.val) (twoWait.take 1) = .ok k ∧
      run (Mutexes.step ⟨64, 255⟩ 3) (Mutexes.start fun t => 5 + t.val) [.pend 0 0 false false, .pend 1 0 false false] =
        .ok q ∧
      OnlySched (fun k => k.pend.items 0) (osSemPendAbort k 0 (OS_OPT_PEND_ABORT_ALL ||| OS_OPT_POST_NO_SCHED) 7)
        (osSemPendAbort k 0 OS_OPT_PEND_ABORT_ALL 7) ∧
      OnlySched (fun q => q.pend.items 0)
        (osMutexPendAbort ⟨64, 255⟩ 3 q 0 (OS_OPT_PEND_ABORT_ALL ||| OS_OPT_POST_NO_SCHED))
        (osMutexPendAbort ⟨64, 255⟩ 3 q 0 OS_OPT_PEND_ABORT_ALL) := by
  refine ⟨_, _, and_then rfl fun hr => and_then rfl fun hr' => ?_⟩
  obtain ⟨hsem, hmutex⟩ := pendAbort_noSched_iff hr hr' 0 7
  exact ⟨(hsem _ mem_cons_self).mpr (by decide), hmutex.mpr (.inl (by decide))⟩

/-- One of two waits is aborted. -/
theorem semPendAbort_noSched_two :
    ∃ k : Kernel (Fin 3) (Fin 1), run (step fun _ => .sem) (start fun t => 5 + t.val) twoWait = .ok k ∧
      ¬OnlySched (fun k => k.pend.items 0) (osSemPendAbort k 0 (OS_OPT_PEND_ABORT_ALL ||| OS_OPT_POST_NO_SCHED) 7)
        (osSemPendAbort k 0 OS_OPT_PEND_ABORT_ALL 7) := by
  have hex : ∃ k : Kernel (Fin 3) (Fin 1), run (step fun _ => .sem) (start fun t => 5 + t.val) twoWait = .ok k ∧
      (osSemPendAbort k 0 (OS_OPT_PEND_ABORT_ALL ||| OS_OPT_POST_NO_SCHED) 7).map Result.nbrTasks = .ok 1 ∧
      (osSemPendAbort k 0 OS_OPT_PEND_ABORT_ALL 7).map Result.nbrTasks = .ok 2 := ⟨_, rfl, rfl, rfl⟩
  obtain ⟨k, hr, hone, htwo⟩ := hex
  refine ⟨k, hr, fun h => ?_⟩
  obtain ⟨r, hgo, hr₁⟩ := map_eq_ok hone
  obtain ⟨r', hgo', hr₂⟩ := map_eq_ok htwo
  have hsame := h.1
  rw [hgo, hgo'] at hsame
  simp only [Except.map, Except.ok.injEq, Prod.mk.injEq] at hsame
  omega

/-! ## Aborting the wait of a task for its own semaphore -/

def Kernel.WaitsOwn (k : Kernel T O) (t : T) : Prop := (k.tcb t).waits ∧ (k.tcb t).pendOn = .taskSem

instance (k : Kernel T O) (t : T) : Decidable (k.WaitsOwn t) := inferInstanceAs (Decidable (_ ∧ _))

/-- A critical section changes its target only in a wait for its own semaphore, and the call returns `OS_TRUE`
exactly if it ended such a wait there. -/
def Proper (k k' : Kernel T O) (t : T) (result : Bool) : Prop :=
  (k'.tcb t ≠ k.tcb t ∨ k'.pend ≠ k.pend → k.WaitsOwn t) ∧ (result = true ↔ k.WaitsOwn t ∧ ¬k'.WaitsOwn t)

/-- The event may end the wait of the task for its own semaphore. -/
def Event.Readies (k : Kernel T O) (t : T) : Event T O → Prop
  | .post u .. | .timeout u _ => u = t
  | .taskSemPendAbortEnd cur _ => k.aborting cur = some t
  | _ => False

section Own
variable {kind : O → Kind} {k k' : Kernel T O} {t u : T}

section
variable (h : k.WaitsOwn t)
include h

omit dT dO in
theorem Kernel.WaitsOwn.congr (htcb : k'.tcb t = k.tcb t) : k'.WaitsOwn t := by
  rw [Kernel.WaitsOwn, htcb]
  exact h

omit dO in
theorem Kernel.WaitsOwn.setTcb {v : Tcb} (hv : u = t → v.wait = (k.tcb t).wait ∧ v.pendOn = .taskSem) :
    (k.setTcb u v).WaitsOwn t := by
  rw [Kernel.WaitsOwn, tcb_setTcb]
  split
  · rename_i hut
    obtain ⟨hwait, hp⟩ := hv hut.symm
    rw [Tcb.waits, hwait]
    exact ⟨h.1, hp⟩
  · exact h

theorem Kernel.WaitsOwn.readied (hut : u ≠ t) (msgPtr msgSize ts : Nat) (status : Status) :
    (k.readied u msgPtr msgSize ts status).WaitsOwn t := by
  unfold Kernel.readied
  split
  · exact h.congr (by rw [tcb_setTcb, if_neg hut.symm])
  · exact h

omit dT dO in
theorem Kernel.WaitsOwn.not_rdy (hu : (k.tcb u).wait = .rdy ∨ (k.tcb u).wait = .dly) : u ≠ t := by
  rintro rfl
  have hwaits := h.1
  rcases hu with hu | hu <;> simp [Tcb.waits, hu] at hwaits

theorem Kernel.WaitsOwn.step {e : Event T O} (hl : Listed k) (hs : step kind k e = .ok k')
    (hno : ¬e.Readies k t) : k'.WaitsOwn t := by
  have habort : ∀ {o opt ts r}, pendAbort (X := Stop) (fun k : Kernel T O => k.pend.items o)
      (fun k t => .ok (os_PendAbort k t ts .abort)) opt k = .ok r → r.kernel.WaitsOwn t := by
    intro o opt ts r hgo
    refine (pendAbort_keeps (I := fun k => Listed k ∧ k.WaitsOwn t) (fun k u l k' hk hu hgo => ?_) ⟨hl, h⟩ hgo).2
    cases hgo
    refine ⟨hk.1.readied .., hk.2.readied ?_ ..⟩
    -- the task is in no pend list
    rintro rfl
    have hmem : u ∈ k.pend.items o := by
      rw [show k.pend.items o = u :: l from hu]
      exact mem_cons_self
    obtain ⟨kind, hobj⟩ := hk.1.obj u o ((hk.1.lists.mem_iff u o).mp hmem)
    cases hk.2.2.symm.trans hobj
  unfold PendAborts.step at hs
  cases e with
  | pend cur o timeout | taskPend cur sem timeout =>
    obtain ⟨hruns, ⟨⟩⟩ := ok_of_ite hs
    exact (h.setTcb fun hcur => absurd hcur (h.not_rdy (.inl hruns.1))).congr rfl
  | timeDly cur =>
    obtain ⟨hruns, ⟨⟩⟩ := ok_of_ite hs
    exact h.setTcb fun hcur => absurd hcur (h.not_rdy (.inl hruns.1))
  | post u msgPtr msgSize ts =>
    cases hs
    exact h.readied hno ..
  | timeout u ts =>
    simp only at hs
    split at hs
    · cases hs
      exact h.setTcb fun hut => absurd hut hno
    · cases hs
      exact h.readied hno ..
    · cases hs
    · cases hs
  | suspend u | resume u =>
    cases hs
    refine h.setTcb fun hut => ?_
    subst hut
    exact ⟨rfl, h.2⟩
  | pendAbort o opt ts =>
    simp only at hs
    split at hs
    case h_4 => cases hs
    all_goals
      obtain ⟨r, hgo, rfl⟩ := map_eq_ok hs
      exact habort hgo
  | taskSemPendAbort cur target opt =>
    obtain ⟨-, ⟨⟩⟩ := ok_of_ite hs
    exact h.congr (congrFun (osTaskSemPendAbort_keeps k cur target opt).1 t)
  | taskSemPendAbortEnd cur ts =>
    simp only at hs
    split at hs
    · rename_i u hu
      obtain ⟨-, ⟨⟩⟩ := ok_of_ite hs
      exact (h.readied (fun hut => hno (hu.trans (congrArg some hut))) 0 0 ts .abort).congr rfl
    · cases hs

end

/-- The task waits for its own semaphore, in a state that steps can reach. -/
def StillWaits (t : T) (k : Kernel T O) : Prop := Listed k ∧ k.WaitsOwn t

theorem StillWaits.run {es : List (Event T O)} (h : StillWaits t k)
    (hes : Along (PendAborts.step kind) (fun k e => ¬e.Readies k t) k es)
    (hrun : run (PendAborts.step kind) k es = .ok k') : StillWaits t k' :=
  run_inv (fun _ _ _ h hno hs => ⟨h.1.step hs, h.2.step h.1 hs hno⟩) h hes hrun

/-- The second critical section does what it should exactly when the task still waits for its own semaphore. -/
theorem taskSemPendAbortEnd_proper_iff (k : Kernel T O) (cur t : T) (ts : Nat) :
    Proper k (taskSemPendAbortEnd k cur t ts).1 t (taskSemPendAbortEnd k cur t ts).2.1 ↔ k.WaitsOwn t := by
  refine ⟨fun h => (h.2.mp rfl).1, fun h => ⟨fun _ => h, iff_of_true rfl ⟨h, fun hstill => ?_⟩⟩⟩
  have hreadied : ((taskSemPendAbortEnd k cur t ts).1.tcb t).pendOn = .nothing := by
    simp [taskSemPendAbortEnd, os_PendAbort, Kernel.readied, h.1, tcb_setTcb]
  cases hreadied.symm.trans hstill.2

/-- **`OSTaskSemPendAbort` aborts only the wait of its target for its own semaphore, and tells so, exactly when
the target still waits for it in the second critical section.** A call that ends in the first one changes
nothing. -/
theorem osTaskSemPendAbort_proper_iff {prio : T → Nat} {es gap : List (Event T O)} {k₁ k₂ : Kernel T O} {cur : T}
    {opt : Nat} (hr : run (PendAborts.step kind) (start prio) es = .ok k)
    (hcheck : osTaskSemPendAbort k cur (some t) opt = (k₁, none)) (hgap : run (PendAborts.step kind) k₁ gap = .ok k₂) :
    (∀ ts, Proper k₂ (taskSemPendAbortEnd k₂ cur t ts).1 t (taskSemPendAbortEnd k₂ cur t ts).2.1 ↔ k₂.WaitsOwn t) ∧
      (Along (PendAborts.step kind) (fun k e => ¬e.Readies k t) k₁ gap → k₂.WaitsOwn t) ∧
      ∀ target opt r, (osTaskSemPendAbort k cur target opt).2 = some r →
        (osTaskSemPendAbort k cur target opt).1 = k ∧ r.1 = false := by
  refine ⟨taskSemPendAbortEnd_proper_iff k₂ cur t, fun hstays => ?_, fun target opt r hret => ?_⟩
  · have hl := listed_of_reachable hr
    rcases osTaskSemPendAbort_cases k cur (some t) opt with ⟨err, h⟩ | ⟨u, ⟨⟩, hsem, h⟩
    · cases hcheck.symm.trans h
    · cases hcheck.symm.trans h
      have hown : k.WaitsOwn t := ⟨hl.waits t (by rw [hsem]; nofun), hsem⟩
      refine (StillWaits.run ?_ hstays hgap).2
      exact ⟨hl.congr rfl rfl, hown⟩
  · rcases osTaskSemPendAbort_cases k cur target opt with ⟨err, h⟩ | ⟨u, -, -, h⟩
    · rw [h] at hret ⊢
      cases hret
      exact ⟨rfl, rfl⟩
    · rw [h] at hret
      cases hret

end Own

/-- Task 1 waits for its own semaphore, and task 0 is about to abort that. -/
def aboutToAbort : List (Event (Fin 3) (Fin 1)) := [.taskPend 1 true true, .taskSemPendAbort 0 (some 1) OS_OPT_POST_NONE]

/-- Meanwhile task 2 waits for a semaphore that is then posted, and task 1 is suspended. -/
def meanwhile : List (Event (Fin 3) (Fin 1)) := [.pend 2 0 true, .post 2 0 0 6, .suspend 1]

theorem osTaskSemPendAbort_proper_iff_one :
    ∃ k : Kernel (Fin 3) (Fin 1), run (step fun _ => .sem) (start fun _ => 5) (aboutToAbort ++ meanwhile) = .ok k ∧
      (taskSemPendAbortEnd k 0 1 7).2.1 = true ∧ Proper k (taskSemPendAbortEnd k 0 1 7).1 1 true := by
  have hex : ∃ k k₁ k₂ : Kernel (Fin 3) (Fin 1),
      run (step fun _ => .sem) (start fun _ => 5) (aboutToAbort.take 1) = .ok k ∧
      osTaskSemPendAbort k 0 (some 1) OS_OPT_POST_NONE = (k₁, none) ∧ run (step fun _ => .sem) k₁ meanwhile = .ok k₂ ∧
      run (step fun _ => .sem) (start fun _ => 5) (aboutToAbort ++ meanwhile) = .ok k₂ := ⟨_, _, _, rfl, rfl, rfl, rfl⟩
  obtain ⟨k, k₁, k₂, hr, hcheck, hgap, hr₂⟩ := hex
  have h := osTaskSemPendAbort_proper_iff hr hcheck hgap
  refine ⟨k₂, hr₂, rfl, (h.1 7).mpr (h.2.1 ?_)⟩
  cases hr
  cases hcheck
  exact ⟨id, show ¬(2 : Fin 3) = 1 by decide, id, trivial⟩

/-- Task 1 times out, and waits for a semaphore that is not its own. This wait is aborted. -/
theorem osTaskSemPendAbort_other_wait :
    ∃ k : Kernel (Fin 3) (Fin 1),
      run (step fun _ => .sem) (start fun _ => 5) (aboutToAbort ++ [.timeout 1 6, .pend 1 0 false]) = .ok k ∧
      k.pend.items 0 = [1] ∧ (taskSemPendAbortEnd k 0 1 7).1.pend.items 0 = [] ∧
      ¬Proper k (taskSemPendAbortEnd k 0 1 7).1 1 (taskSemPendAbortEnd k 0 1 7).2.1 :=
  ⟨_, rfl, rfl, rfl, fun h => absurd (h.2.mp rfl).1 (by decide)⟩

end RtosKernel.Ucos.PendAborts
