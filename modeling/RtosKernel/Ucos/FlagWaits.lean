import RtosKernel.Ucos.Flag

/-! # Satisfied tasks that sleep

A post wakes every task whose condition it makes true, and a task only waits while its condition is false.
Consuming flags looks at nobody: what is consumed for one kind of waiting may be what the other kind waits for.
-/

namespace RtosKernel.Ucos.Flags
open Lib.BitSet List
open Lib.Runs (run Along run_inv exists_ok_and)

variable {T : Type} [dT : DecidableEq T] {w : Nat} {prio : T → Nat} {k k' : Kernel T w} {t u : T} {m mode : Mode}
  {flags rdy pend : BitVec w} {opt : OsOpt}

/-! ## Conditions -/

theorem condition_iff : Condition m (flagsRdy m flags pend) pend ↔ Met m.all pend (if m.set then flags else ~~~flags) := by
  cases m <;> simp [Condition, flagsRdy, Met, Mode.all, Mode.set]

theorem met_or {all : Bool} {x y z : BitVec w} (h : ¬ Met all x y) :
    Met all x (y ||| z) ↔ if all then ~~~y &&& x &&& ~~~z = 0#w else x &&& z ≠ 0#w := by
  cases all with
  | true =>
    rw [met_true, if_pos rfl, eq_zero_iff]
    refine forall_congr' fun i => ?_
    by_cases hi : i < w
    · simp only [BitVec.getLsbD_or, BitVec.getLsbD_and, BitVec.getLsbD_not, hi, decide_true, Bool.true_and]
      cases x.getLsbD i <;> cases y.getLsbD i <;> cases z.getLsbD i <;> simp
    · simp [BitVec.getLsbD_of_ge _ i (Nat.not_lt.mp hi)]
  | false =>
    rw [met_false, if_neg Bool.false_ne_true, and_ne_zero_iff]
    refine exists_congr fun i => ?_
    have hy : x.getLsbD i = true → y.getLsbD i = false := fun hx =>
      Bool.eq_false_iff.mpr fun hy => h (met_false.mpr ⟨i, hx, hy⟩)
    cases hx : x.getLsbD i with
    | false => simp
    | true => simp [hy hx]

/-- The flags consumed by a task that waits for the other kind are those a task waits for: some of
them, or all that are missing. -/
def Crosses (mode : Mode) (flags rdy : BitVec w) (m : Mode) (pend : BitVec w) : Prop :=
  mode.set ≠ m.set ∧
    if m.all then (if m.set then ~~~flags else flags) &&& pend &&& ~~~rdy = 0#w else pend &&& rdy ≠ 0#w

instance : Decidable (Crosses mode flags rdy m pend) := by
  unfold Crosses
  infer_instance

theorem condition_consumed (h : ¬ Condition m (flagsRdy m flags pend) pend) :
    Condition m (flagsRdy m (consumed mode flags rdy) pend) pend ↔ Crosses mode flags rdy m pend := by
  rw [condition_iff] at h ⊢
  by_cases hset : mode.set = m.set
  · -- the flags seen get less
    refine ⟨fun hmet => absurd ?_ h, fun hcross => absurd hset hcross.1⟩
    rw [consumed, hset] at hmet
    cases hm : m.set with
    | true =>
      rw [hm] at hmet
      exact hmet.of_andNot
    | false =>
      rw [hm] at hmet
      simp only [Bool.false_eq_true, if_false] at hmet ⊢
      rw [BitVec.not_or] at hmet
      exact hmet.of_andNot
  · rw [Crosses, consumed, Bool.eq_not.mpr hset]
    simp only [ne_eq, Bool.not_eq_self, not_false_eq_true, true_and]
    cases hm : m.set with
    | true =>
      rw [hm] at h
      exact met_or h
    | false =>
      rw [hm] at h
      simp only [Bool.not_false, Bool.false_eq_true, if_true, if_false] at h ⊢
      rw [BitVec.not_and, BitVec.not_not, met_or h, BitVec.not_not]

/-! ## The pend list -/

variable (prio) in
omit dT in
theorem perm_pendListInsertPrio (t : T) (list : List T) : (pendListInsertPrio prio t list).Perm (t :: list) := by
  induction list with
  | nil => exact .refl _
  | cons next list ih =>
    rw [pendListInsertPrio]
    by_cases hlt : prio t < prio next
    · rw [if_pos hlt]
    · rw [if_neg hlt]
      exact (ih.cons next).trans (.swap _ _ _)

/-- The tasks in the pend list are those that wait, in one of the four modes. -/
structure Inv (k : Kernel T w) : Prop where
  nodup : k.pendList.Nodup
  mem : ∀ t, t ∈ k.pendList ↔ (k.tcb t).taskState ≠ .rdy
  mode : ∀ t ∈ k.pendList, ∃ mode, flagMode (k.tcb t).flagsOpt = some mode

/-- No task in the pend list waits for what is there. -/
def NoneAsleep (k : Kernel T w) : Prop := ∀ u ∈ k.pendList, ¬ Satisfied k u

theorem Inv.wake (hi : Inv k) {v : Tcb w} (hv : v.taskState = .rdy) :
    Inv { k.setTcb t v with pendList := k.pendList.erase t } := by
  refine ⟨hi.nodup.erase t, fun u => ?_, fun u hu => ?_⟩
  · rw [hi.nodup.mem_erase_iff, hi.mem u]
    by_cases hut : u = t
    · subst hut
      simp [Kernel.setTcb, hv]
    · simp [Kernel.setTcb, hut]
  · obtain ⟨hne, hmem⟩ := hi.nodup.mem_erase_iff.mp hu
    obtain ⟨mode, hmode⟩ := hi.mode u hmem
    exact ⟨mode, by simpa [Kernel.setTcb, hne] using hmode⟩

omit dT in
theorem Inv.congr (hi : Inv k) (hlist : k'.pendList = k.pendList) (hstate : ∀ t, (k'.tcb t).taskState = (k.tcb t).taskState)
    (hopt : ∀ t, (k'.tcb t).flagsOpt = (k.tcb t).flagsOpt) : Inv k' := by
  refine ⟨hlist ▸ hi.nodup, fun t => ?_, fun t ht => ?_⟩
  · rw [hlist, hstate t]
    exact hi.mem t
  · rw [hopt t]
    exact hi.mode t (hlist ▸ ht)

omit dT in
theorem satisfied_congr (htcb : k'.tcb u = k.tcb u) (hflags : k'.flags = k.flags) : Satisfied k' u ↔ Satisfied k u := by
  rw [Satisfied, Satisfied, htcb, hflags]

/-- What is left of the pend list after the loop of a post. -/
structure Left (k k' : Kernel T w) (list : List T) : Prop where
  flags : k'.flags = k.flags
  sub : ∀ u ∈ k'.pendList, u ∈ k.pendList ∧ k'.tcb u = k.tcb u
  unsatisfied : ∀ u ∈ k'.pendList, u ∈ list → ¬ Satisfied k u

theorem postLoop_spec {list : List T} (hi : Inv k) (hsub : ∀ u ∈ list, u ∈ k.pendList) (hnodup : list.Nodup) :
    ∃ k', postLoop k list = (k', .errNone) ∧ Inv k' ∧ Left k k' list := by
  induction list generalizing k with
  | nil => exact ⟨k, rfl, hi, rfl, fun u hu => ⟨hu, rfl⟩, fun u _ hu => by cases hu⟩
  | cons t next ih =>
    obtain ⟨ht, hnext⟩ := nodup_cons.mp hnodup
    obtain ⟨mode, hmode⟩ := hi.mode t (hsub t (mem_cons_self ..))
    rw [postLoop, hmode]
    dsimp only
    by_cases hcond : Condition mode (flagsRdy mode k.flags (k.tcb t).flagsPend) (k.tcb t).flagsPend
    · rw [if_pos hcond]
      set k₁ := os_FlagTaskRdy k t (flagsRdy mode k.flags (k.tcb t).flagsPend) with hk₁
      have hi₁ : Inv k₁ := hi.wake rfl
      have hmem₁ : ∀ u, u ∈ k₁.pendList ↔ u ≠ t ∧ u ∈ k.pendList := fun u => hi.nodup.mem_erase_iff
      have htcb₁ : ∀ u, u ≠ t → k₁.tcb u = k.tcb u := fun u hu => Function.update_of_ne hu _ _
      obtain ⟨k', hgo, hi', hflags, hleft, hun⟩ := ih hi₁
        (fun u hu => (hmem₁ u).mpr ⟨ne_of_mem_of_not_mem hu ht, hsub u (mem_cons_of_mem t hu)⟩) hnext
      refine ⟨k', hgo, hi', hflags, fun u hu => ?_, fun u hu hlist => ?_⟩
      · obtain ⟨hu₁, heq⟩ := hleft u hu
        obtain ⟨hne, hmem⟩ := (hmem₁ u).mp hu₁
        exact ⟨hmem, heq.trans (htcb₁ u hne)⟩
      · have hne := ((hmem₁ u).mp (hleft u hu).1).1
        rw [← satisfied_congr (htcb₁ u hne) rfl]
        exact hun u hu ((mem_cons.mp hlist).resolve_left hne)
    · rw [if_neg hcond]
      obtain ⟨k', hgo, hi', hflags, hleft, hun⟩ := ih hi (fun u hu => hsub u (mem_cons_of_mem t hu)) hnext
      refine ⟨k', hgo, hi', hflags, hleft, fun u hu hlist => ?_⟩
      rcases mem_cons.mp hlist with rfl | hlist
      · rintro ⟨mode', hmode', hcond'⟩
        cases hmode.symm.trans hmode'
        exact hcond hcond'
      · exact hun u hu hlist

/-! ## Steps -/

/-- No task in the pend list waits for flags that are consumed for the other kind of waiting. -/
def Spares (k : Kernel T w) (mode : Mode) (rdy : BitVec w) : Prop :=
  ∀ u ∈ k.pendList, ∀ m ∈ flagMode (k.tcb u).flagsOpt, ¬ Crosses mode k.flags rdy m (k.tcb u).flagsPend

instance (mode : Mode) (rdy : BitVec w) : Decidable (Spares k mode rdy) := by
  unfold Spares
  infer_instance

/-- The flags that a call consumes at once, or that a task consumes when it has been woken, and the
mode it waits in. -/
def consumes (k : Kernel T w) : Event T w → Option (Mode × BitVec w)
  | .pend _ flags _ opt _ => (flagMode opt).bind fun mode =>
      if optConsume opt = true ∧ Condition mode (flagsRdy mode k.flags flags) flags then
        some (mode, flagsRdy mode k.flags flags)
      else none
  | .resume cur => (k.call cur).bind fun opt => (flagMode opt).bind fun mode =>
      if optConsume opt = true ∧ (k.tcb cur).pendStatus = .ok then some (mode, (k.tcb cur).flagsRdy) else none
  | _ => none

def SparesOf (k : Kernel T w) : Option (Mode × BitVec w) → Prop
  | some (mode, rdy) => Spares k mode rdy
  | none => True

/-- What an event consumes is not what a task of the other kind waits for. -/
def SparesWaiters (k : Kernel T w) (e : Event T w) : Prop := SparesOf k (consumes k e)

instance : ∀ c : Option (Mode × BitVec w), Decidable (SparesOf k c)
  | some (mode, rdy) => inferInstanceAs (Decidable (Spares k mode rdy))
  | none => isTrue trivial

instance (e : Event T w) : Decidable (SparesWaiters k e) := inferInstanceAs (Decidable (SparesOf k _))

omit dT in
theorem NoneAsleep.consume (h : NoneAsleep k) (hs : Spares k mode rdy) :
    NoneAsleep { k with flags := consumed mode k.flags rdy } := by
  rintro u hu ⟨m, hm, hcond⟩
  have hun : ¬ Condition m (flagsRdy m k.flags (k.tcb u).flagsPend) (k.tcb u).flagsPend := fun hc => h u hu ⟨m, hm, hc⟩
  exact hs u hu m hm ((condition_consumed hun).mp hcond)

omit dT in
theorem NoneAsleep.congr (h : NoneAsleep k) (hflags : k'.flags = k.flags)
    (hlist : ∀ u ∈ k'.pendList, u ∈ k.pendList ∧ (k'.tcb u).flagsOpt = (k.tcb u).flagsOpt ∧
      (k'.tcb u).flagsPend = (k.tcb u).flagsPend) : NoneAsleep k' := by
  rintro u hu ⟨m, hm, hcond⟩
  obtain ⟨hmem, hopt, hpend⟩ := hlist u hu
  rw [hopt] at hm
  rw [hflags, hpend] at hcond
  exact h u hmem ⟨m, hm, hcond⟩

theorem setRdy_keeps {cur : T} (hi : Inv k) (h : NoneAsleep k) :
    Inv (k.setTcb cur { k.tcb cur with flagsRdy := rdy }) ∧ NoneAsleep (k.setTcb cur { k.tcb cur with flagsRdy := rdy }) := by
  have hfield : ∀ {α : Type} (f : Tcb w → α) (u : T), f { k.tcb cur with flagsRdy := rdy } = f (k.tcb cur) →
      f ((k.setTcb cur { k.tcb cur with flagsRdy := rdy }).tcb u) = f (k.tcb u) := by
    intro α f u hf
    by_cases hu : u = cur
    · subst hu
      simpa [Kernel.setTcb] using hf
    · simp [Kernel.setTcb, hu]
  exact ⟨hi.congr rfl (fun u => hfield Tcb.taskState u rfl) fun u => hfield Tcb.flagsOpt u rfl,
    h.congr rfl fun u hu => ⟨hu, hfield Tcb.flagsOpt u rfl, hfield Tcb.flagsPend u rfl⟩⟩

variable (prio) in
theorem block_keeps {cur : T} (timeout : Nat) (hi : Inv k) (h : NoneAsleep k) (hrdy : (k.tcb cur).taskState = .rdy)
    (hmode : flagMode opt = some mode) (hcond : ¬ Condition mode (flagsRdy mode k.flags flags) flags) :
    Inv (os_FlagBlock prio k cur flags opt timeout) ∧ NoneAsleep (os_FlagBlock prio k cur flags opt timeout) := by
  have hnew : cur ∉ k.pendList := fun hmem => (hi.mem cur).mp hmem hrdy
  have hperm := perm_pendListInsertPrio prio cur k.pendList
  have hmem : ∀ u, u ∈ (os_FlagBlock prio k cur flags opt timeout).pendList ↔ u = cur ∨ u ∈ k.pendList := fun u =>
    hperm.mem_iff.trans mem_cons
  have hself : (os_FlagBlock prio k cur flags opt timeout).tcb cur =
      { flagsPend := flags, flagsOpt := opt, flagsRdy := 0#w, pendStatus := .ok,
        taskState := if timeout > 0 then .pendTimeout else .pend } := Function.update_self ..
  have hother : ∀ u, u ≠ cur → (os_FlagBlock prio k cur flags opt timeout).tcb u = k.tcb u :=
    fun u hu => Function.update_of_ne hu _ _
  refine ⟨⟨hperm.nodup_iff.mpr (nodup_cons.mpr ⟨hnew, hi.nodup⟩), fun u => ?_, fun u hu => ?_⟩, fun u hu => ?_⟩
  · rw [hmem u]
    by_cases hu : u = cur
    · subst hu
      rw [hself]
      by_cases ht : timeout > 0 <;> simp [ht]
    · rw [hother u hu, hi.mem u]
      simp [hu]
  · by_cases hne : u = cur
    · subst hne
      rw [hself]
      exact ⟨mode, hmode⟩
    · rw [hother u hne]
      exact hi.mode u (((hmem u).mp hu).resolve_left hne)
  · by_cases hne : u = cur
    · subst hne
      rintro ⟨m, hm, hc⟩
      rw [hself] at hm hc
      cases hmode.symm.trans hm
      exact hcond hc
    · rw [satisfied_congr (hother u hne) rfl]
      exact h u (((hmem u).mp hu).resolve_left hne)

theorem osFlagPend_keeps {cur : T} {timeout : Nat} {schedLocked : Bool} (hi : Inv k) (h : NoneAsleep k)
    (hrdy : (k.tcb cur).taskState = .rdy) (hs : SparesWaiters k (.pend cur flags timeout opt schedLocked)) :
    Inv (osFlagPend prio k cur flags timeout opt schedLocked).1 ∧
      NoneAsleep (osFlagPend prio k cur flags timeout opt schedLocked).1 := by
  rw [osFlagPend]
  cases hmode : flagMode opt with
  | none => exact ⟨hi, h⟩
  | some mode =>
    dsimp only
    by_cases hcond : Condition mode (flagsRdy mode k.flags flags) flags
    · rw [if_pos hcond]
      by_cases hconsume : optConsume opt = true
      · rw [if_pos hconsume]
        have hs : Spares k mode (flagsRdy mode k.flags flags) := by
          simpa only [SparesWaiters, consumes, hmode, Option.bind_some, if_pos (And.intro hconsume hcond), SparesOf] using hs
        exact setRdy_keeps (hi.congr rfl (fun _ => rfl) fun _ => rfl) (h.consume hs)
      · rw [if_neg hconsume]
        exact setRdy_keeps hi h
    · rw [if_neg hcond]
      by_cases hblock : optNonBlocking opt = true
      · rw [if_pos hblock]
        exact ⟨hi, h⟩
      · rw [if_neg hblock]
        cases schedLocked with
        | true => exact ⟨hi, h⟩
        | false =>
          obtain ⟨hi', h'⟩ := block_keeps prio timeout hi h hrdy hmode hcond
          exact ⟨hi'.congr rfl (fun _ => rfl) fun _ => rfl, h'.congr rfl fun u hu => ⟨hu, rfl, rfl⟩⟩

theorem osFlagPendRest_keeps {cur : T} (hi : Inv k) (h : NoneAsleep k) (hcall : k.call cur = some opt)
    (hs : SparesWaiters k (.resume cur)) :
    Inv (osFlagPendRest k cur opt).1 ∧ NoneAsleep (osFlagPendRest k cur opt).1 := by
  have hsame : Inv { k with call := Function.update k.call cur none } ∧
      NoneAsleep { k with call := Function.update k.call cur none } :=
    ⟨hi.congr rfl (fun _ => rfl) fun _ => rfl, h.congr rfl fun u hu => ⟨hu, rfl, rfl⟩⟩
  rw [osFlagPendRest]
  cases hstatus : (k.tcb cur).pendStatus with
  | abort => exact hsame
  | timeout => exact hsame
  | del => exact hsame
  | ok =>
    by_cases hconsume : optConsume opt = true
    · rw [if_pos hconsume]
      cases hmode : flagMode opt with
      | none => exact hsame
      | some mode =>
        obtain ⟨hi', h'⟩ := hsame
        have hs : Spares k mode (k.tcb cur).flagsRdy := by
          simpa only [SparesWaiters, consumes, hcall, hmode, Option.bind_some, if_pos (And.intro hconsume hstatus), SparesOf]
            using hs
        exact ⟨hi'.congr rfl (fun _ => rfl) fun _ => rfl, h'.consume hs⟩
    · rw [if_neg hconsume]
      exact hsame

theorem osFlagPost_keeps (hi : Inv k) (h : NoneAsleep k) :
    Inv (osFlagPost k flags opt).1 ∧ NoneAsleep (osFlagPost k flags opt).1 := by
  rw [osFlagPost]
  cases hflags : postFlags k.flags flags opt with
  | none => exact ⟨hi, h⟩
  | some grpFlags =>
    have hi₀ : Inv { k with flags := grpFlags } := hi.congr rfl (fun _ => rfl) fun _ => rfl
    obtain ⟨k', hgo, hi', hleft⟩ := postLoop_spec hi₀ (fun u hu => hu) hi.nodup
    dsimp only
    rw [hgo]
    refine ⟨hi', fun u hu => ?_⟩
    obtain ⟨hmem, htcb⟩ := hleft.sub u hu
    rw [satisfied_congr htcb hleft.flags]
    exact hleft.unsatisfied u hu hmem

theorem step_keeps {e : Event T w} (h : Inv k ∧ NoneAsleep k) (hs : SparesWaiters k e) (hstep : step prio k e = .ok k') :
    Inv k' ∧ NoneAsleep k' := by
  obtain ⟨hi, hn⟩ := h
  cases e with
  | pend cur flags timeout opt schedLocked =>
    rw [step] at hstep
    by_cases hcan : (k.tcb cur).taskState = .rdy ∧ k.call cur = none
    · rw [if_pos hcan] at hstep
      cases hstep
      exact osFlagPend_keeps hi hn hcan.1 hs
    · rw [if_neg hcan] at hstep
      cases hstep
  | resume cur =>
    rw [step] at hstep
    cases hcall : k.call cur with
    | none =>
      rw [hcall] at hstep
      cases hstep
    | some opt =>
      rw [hcall] at hstep
      dsimp only at hstep
      by_cases hrdy : (k.tcb cur).taskState = .rdy
      · rw [if_pos hrdy] at hstep
        cases hstep
        exact osFlagPendRest_keeps hi hn hcall hs
      · rw [if_neg hrdy] at hstep
        cases hstep
  | post flags opt =>
    cases hstep
    exact osFlagPost_keeps hi hn
  | timeout t =>
    rw [step] at hstep
    by_cases hpend : (k.tcb t).taskState = .pendTimeout
    · rw [if_pos hpend] at hstep
      cases hstep
      refine ⟨hi.wake rfl, hn.congr rfl fun u hu => ?_⟩
      obtain ⟨hne, hmem⟩ := hi.nodup.mem_erase_iff.mp hu
      have htcb : (tickPendTimeout k t).tcb u = k.tcb u := Function.update_of_ne hne _ _
      exact ⟨hmem, congrArg Tcb.flagsOpt htcb, congrArg Tcb.flagsPend htcb⟩
    · rw [if_neg hpend] at hstep
      cases hstep

/-- **No satisfied task sleeps.** In every run in which no flags are consumed that a task of the other
kind waits for, no task in the pend list has a condition that is true of the flags. -/
theorem osFlag_none_asleep (prio : T → Nat) (flags : BitVec w) {events : List (Event T w)}
    (hs : Along (step prio) SparesWaiters (start T flags) events)
    (hrun : run (step prio) (start T flags) events = .ok k) : ∀ t ∈ k.pendList, ¬ Satisfied k t := by
  have hstart : Inv (start T flags) ∧ NoneAsleep (start T flags) :=
    ⟨⟨nodup_nil, fun t => by simp [start], fun t ht => by cases ht⟩, fun t ht => by cases ht⟩
  exact (run_inv (fun k e k' h hs hstep => step_keeps h hs hstep) hstart hs hrun).2

/-- Tasks 0 and 1 wait for flag 0 to be set, task 0 consumes it, and task 2 waits for flag 1 to be cleared. -/
def setAndClear : List (Event (Fin 3) 8) :=
  [.pend 0 1 0 0x0108 false, .pend 1 1 5 0x0004 false, .post 3 0x0000, .pend 2 2 0 0x0001 false, .resume 0, .resume 1,
    .pend 1 4 7 0x0008 false, .timeout 1, .resume 1]

theorem osFlag_none_asleep_three : ∃ k, run (step fun t : Fin 3 => t.val) (start (Fin 3) 0#8) setAndClear = .ok k ∧
    ∀ t ∈ k.pendList, ¬ Satisfied k t :=
  exists_ok_and (by decide +kernel) fun _ hrun => osFlag_none_asleep (fun t : Fin 3 => t.val) 0#8 (by decide +kernel) hrun

/-- Task 1 waits for flag 0 to be cleared. Task 0 consumes flag 0, and task 1 sleeps on. -/
def consumeAlone : List (Event (Fin 2) 8) :=
  [.post 1 0x0000, .pend 1 1 0 0x0002 false, .pend 0 1 0 0x0108 false]

theorem consume_wakes_nobody : ∃ k, run (step fun _ => 0) (start (Fin 2) 0#8) consumeAlone = .ok k ∧
    (∀ t, ¬ Consuming k t) ∧ 1 ∈ k.pendList ∧ Satisfied k 1 :=
  ⟨_, rfl, by decide, by decide, .clrAny, by decide, by decide⟩

end RtosKernel.Ucos.Flags
