import RtosKernel.Ucos.MutexPrio

/-! # Priorities are inherited exactly

In a run without cycles every task has the priority it should have, as long as no task that waits is lowered
when the owner it waits on is more urgent than the task was. -/

namespace RtosKernel.Ucos.Mutexes
open Lib.Containers Lib.Runs Relation

variable {T M : Type} [dT : DecidableEq T] [dM : DecidableEq M]
variable {c : Config} {fuel : Nat} {k k' : Kernel T M} {t u w o cur owner : T} {m : M} {p : Nat} {x : T → Set Nat}

omit dT dM in
theorem Exact.same (h : Exact x k) (hpend : k'.pend = k.pend) (hprio : ∀ u, (k'.tcb u).prio = (k.tcb u).prio)
    (hbase : ∀ u, (k'.tcb u).basePrio = (k.tcb u).basePrio) (hwaits : ∀ w u, WaitsOn k' w u ↔ WaitsOn k w u) :
    Exact x k' := by
  refine ⟨fun m => ?_, fun u => ?_⟩
  · rw [hpend]
    exact (h.sorted m).congr fun u _ => hprio u
  · have hcand : Candidates k' u = Candidates k u := by
      ext q
      simp only [Candidates, Set.mem_ofPred_eq, hbase, hprio, hwaits]
    rw [hcand, hprio]
    exact h.least u

theorem Exact.setOwner (h : Exact x k) (hown : Owned k) (hnone : k.pend.items m = []) (grp : List M) (v : Mutex T) :
    Exact x ((k.setGrp t grp).setMutex m v) := by
  have htcb (u : T) : (((k.setGrp t grp).setMutex m v).tcb u).prio = (k.tcb u).prio ∧
      (((k.setGrp t grp).setMutex m v).tcb u).basePrio = (k.tcb u).basePrio := by
    rw [tcb_setMutex, Kernel.setGrp, tcb_setTcb]
    split <;> rename_i hu <;> simp [hu]
  refine h.same rfl (fun u => (htcb u).1) (fun u => (htcb u).2) fun w u => ?_
  have hnot {m'} (hm' : k.pend.container w = some m') : m' ≠ m := by
    rintro rfl
    have hw := (hown.lists.mem_iff w m').mpr hm'
    rw [hnone] at hw
    cases hw
  constructor
  · rintro ⟨m', hm', ho⟩
    rw [mutex_setMutex, if_neg (hnot hm')] at ho
    exact ⟨m', hm', ho⟩
  · rintro ⟨m', hm', ho⟩
    refine ⟨m', hm', ?_⟩
    rw [mutex_setMutex, if_neg (hnot hm')]
    exact ho

omit dT in
theorem Exact.setCtr (h : Exact x k) (n : Nat) : Exact x (k.setMutex m { k.mutex m with ownerNestingCtr := n }) := by
  refine h.same rfl (fun _ => rfl) (fun _ => rfl) fun w u => ?_
  simp only [WaitsOn, owner_setCtr]
  rfl

/-! ## Waiting -/

/-- What the owner is entitled to as soon as a task waits. -/
def Promised (k : Kernel T M) (owner cur : T) (u : T) : Set Nat := {q | u = owner ∧ q = (k.tcb cur).prio}

theorem waitsOn_wait {timeout : Bool} (hnone : k.pend.container cur = none)
    (howner : (k.mutex m).ownerTCBPtr = some owner) :
    WaitsOn (os_PendListInsertPrio (k.setState cur (.pend timeout)) m cur) w u ↔
      WaitsOn k w u ∨ w = cur ∧ u = owner := by
  unfold WaitsOn
  by_cases hw : w = cur
  · subst hw
    rw [show (os_PendListInsertPrio (k.setState w (.pend timeout)) m w).pend.container w = some m from
      container_put_self _]
    show (∃ m', some m = some m' ∧ (k.mutex m').ownerTCBPtr = some u) ↔ _
    simp only [hnone, Option.some.injEq, exists_eq_left', howner]
    simp [eq_comm]
  · rw [show (os_PendListInsertPrio (k.setState cur (.pend timeout)) m cur).pend.container w = k.pend.container w from
      container_put_of_ne _ hw]
    show (∃ m', _ ∧ (k.mutex m').ownerTCBPtr = some u) ↔ _
    simp [hw]

theorem Exact.wait {timeout : Bool} (h : Exact (Promised k owner cur) k) (hown : Owned k)
    (hrdy : (k.tcb cur).taskState = .rdy) (howner : (k.mutex m).ownerTCBPtr = some owner) :
    Exact (fun _ => ∅) (os_PendListInsertPrio (k.setState cur (.pend timeout)) m cur) := by
  have hnone := hown.listed.container_of_rdy hrdy
  have htcb (u : T) : ((os_PendListInsertPrio (k.setState cur (.pend timeout)) m cur).tcb u).prio = (k.tcb u).prio ∧
      ((os_PendListInsertPrio (k.setState cur (.pend timeout)) m cur).tcb u).basePrio = (k.tcb u).basePrio := by
    rw [os_PendListInsertPrio, Kernel.setState, tcb_setTcb]
    split <;> rename_i hu <;> simp [hu]
  refine ⟨fun m' => ?_, fun u => ?_⟩
  · have hsorted : Sorted (fun u => ((k.setState cur (.pend timeout)).tcb u).prio) (k.pend.items m') :=
      (h.sorted m').congr fun u _ => (htcb u).1
    show Sorted (fun u => ((k.setState cur (.pend timeout)).tcb u).prio) ((k.pend.insert _ m cur).items m')
    by_cases hm : m' = m
    · subst hm
      rw [Lists.insert, items_put_self]
      exact insertBy_sorted hsorted
    · rw [Lists.insert, items_put_of_ne _ hm]
      exact hsorted
  · have hcand : Candidates (os_PendListInsertPrio (k.setState cur (.pend timeout)) m cur) u ∪ ∅ =
        Candidates k u ∪ Promised k owner cur u := by
      ext q
      simp only [Candidates, Promised, Set.mem_union, Set.mem_ofPred_eq, (htcb _).1, (htcb _).2,
        waitsOn_wait hnone howner, Set.mem_empty_iff_false, or_false, or_assoc]
      refine or_congr_right ⟨?_, ?_⟩
      · rintro ⟨w, hw | ⟨rfl, rfl⟩, hq⟩
        · exact .inl ⟨w, hw, hq⟩
        · exact .inr ⟨rfl, hq⟩
      · rintro (⟨w, hw, hq⟩ | ⟨rfl, hq⟩)
        · exact ⟨w, .inl hw, hq⟩
        · exact ⟨cur, .inr ⟨rfl, rfl⟩, hq⟩
    rw [hcand, (htcb u).1]
    exact h.least u

theorem Exact.waits {timeout : Bool} {k₁ : Kernel T M} (h : Exact (fun _ => ∅) k) (hown : Owned k) (hcycle : Acyclic k)
    (hrdy : (k.tcb cur).taskState = .rdy) (howner : (k.mutex m).ownerTCBPtr = some owner)
    (hraise : raise c fuel k owner (k.tcb cur).prio = .ok k₁) :
    Exact (fun _ => ∅) (os_PendListInsertPrio (k₁.setState cur (.pend timeout)) m cur) := by
  have hs := Similar.raise hown.lists hraise
  have hbut : ExactBut (Promised k owner cur) k owner := by
    intro u hu
    have hnone : Promised k owner cur u = ∅ := by
      ext q
      simp [Promised, hu]
    rw [hnone]
    exact h.least u
  have hleast := h.least owner
  rw [Set.union_empty] at hleast
  have hk₁ : Exact (Promised k owner cur) k₁ ∧ (k₁.tcb cur).prio = (k.tcb cur).prio := by
    unfold raise at hraise
    split at hraise
    · rename_i hup
      refine ⟨raise_exact hown hcycle (hown.alive m owner howner) h.sorted hbut ⟨.inr ⟨rfl, rfl⟩, ?_⟩ hup hraise,
        raise_frame hown hcycle (hown.alive m owner howner) hup le_rfl hraise⟩
      rintro q (hq | ⟨-, rfl⟩)
      · exact (Nat.le_of_lt hup).trans (hleast.2 hq)
      · exact le_rfl
    · rename_i hdown
      cases hraise
      refine ⟨hbut.exact h.sorted ⟨.inl hleast.1, ?_⟩, rfl⟩
      rintro q (hq | ⟨-, rfl⟩)
      · exact hleast.2 hq
      · exact Nat.le_of_not_lt hdown
  have hpromised : Promised k₁ owner cur = Promised k owner cur := by
    funext u
    simp only [Promised, hk₁.2]
  refine Exact.wait (hpromised ▸ hk₁.1) (hown.similar hs) ?_ ?_
  · rw [hs.state, hrdy]
  · rw [hs.mutex, howner]

/-! ## Giving up -/

theorem woken_tcb (k : Kernel T M) (t u : T) : ((k.woken t).tcb u).prio = (k.tcb u).prio ∧
    ((k.woken t).tcb u).basePrio = (k.tcb u).basePrio := by
  rw [Kernel.woken, Kernel.setState, tcb_setTcb]
  split
  · rename_i hu
    rw [hu]
    exact ⟨rfl, rfl⟩
  · exact ⟨rfl, rfl⟩

theorem waitsOn_woken : WaitsOn (k.woken t) w u ↔ w ≠ t ∧ WaitsOn k w u := by
  unfold WaitsOn
  by_cases hw : w = t
  · subst hw
    rw [show (k.woken w).pend.container w = none from container_remove_self]
    simp
  · rw [show (k.woken t).pend.container w = k.pend.container w from container_remove_of_ne hw]
    show (∃ m', _ ∧ (k.mutex m').ownerTCBPtr = some u) ↔ _
    simp [hw]

theorem PendSorted.woken (h : PendSorted k) (t : T) : PendSorted (k.woken t) := by
  intro m
  have hsorted : Sorted (fun u => (k.tcb u).prio) ((k.woken t).pend.items m) := (h m).sublist items_remove_sublist
  exact hsorted.congr fun u _ => (woken_tcb k t u).1

theorem mem_candidates_woken {q : Nat} : q ∈ Candidates (k.woken t) o ↔
    q = (k.tcb o).basePrio ∨ ∃ w, w ≠ t ∧ WaitsOn k w o ∧ q = (k.tcb w).prio := by
  simp only [Candidates, Set.mem_ofPred_eq, waitsOn_woken, woken_tcb, and_assoc]

theorem candidates_woken (hnot : ¬WaitsOn k t u) : Candidates (k.woken t) u = Candidates k u := by
  ext q
  rw [mem_candidates_woken]
  refine or_congr_right ⟨?_, ?_⟩
  · rintro ⟨w, -, hw, hq⟩
    exact ⟨w, hw, hq⟩
  · rintro ⟨w, hw, hq⟩
    refine ⟨w, ?_, hw, hq⟩
    rintro rfl
    exact hnot hw

/-- When a task stops waiting its owner need not change, or can be lowered. -/
def LeavesWell (fuel : Nat) (k : Kernel T M) (t : T) : Prop :=
  ∀ o, WaitsOn k t o → (k.tcb o).prio = (k.tcb o).basePrio ∨ (k.tcb o).prio ≠ (k.tcb t).prio ∨
    (∃ w, w ≠ t ∧ WaitsOn k w o ∧ (k.tcb w).prio = (k.tcb o).prio) ∨ Lowers k fuel o

theorem Exact.leaves (h : Exact (fun _ => ∅) k) (hown : Owned k) (hcycle : Acyclic k)
    (hbase : ∀ u, (k.tcb u).basePrio ≤ c.osCfgPrioMax - 1) (hw : WaitsOn k t o) (hwell : LeavesWell fuel k t)
    (hgo : disinherit c fuel (k.woken t) o t = .ok k') : Exact (fun _ => ∅) k' := by
  have hown' := hown.woken t
  have hsorted := h.sorted.woken t
  have hbase' (u : T) : ((k.woken t).tcb u).basePrio ≤ c.osCfgPrioMax - 1 := by
    rw [(woken_tcb k t u).2]
    exact hbase u
  have hbut : ExactBut (fun _ => ∅) (k.woken t) o := by
    intro u hu
    rw [candidates_woken fun hwu => hu (hw.unique hwu), (woken_tcb k t u).1]
    exact h.least u
  have hleast := h.least o
  rw [Set.union_empty] at hleast
  have hbelow : (k.tcb o).prio ∈ lowerBounds (Candidates (k.woken t) o) := by
    intro q hq
    obtain rfl | ⟨w, -, hwo, rfl⟩ := mem_candidates_woken.mp hq
    · exact hleast.2 (.inl rfl)
    · exact hleast.2 (.inr ⟨w, hwo, rfl⟩)
  -- the owner is entitled to its priority without the task
  have hstays (hmem : (k.tcb o).prio ∈ Candidates (k.woken t) o) : Exact (fun _ => ∅) (k.woken t) := by
    refine hbut.exact hsorted ?_
    rw [Set.union_empty, (woken_tcb k t o).1]
    exact ⟨hmem, hbelow⟩
  have hnext := prioOwn_isLeast hown' hsorted (hbase' o)
  unfold disinherit at hgo
  simp only [woken_tcb] at hgo
  by_cases hdue : (k.tcb o).prio ≠ (k.tcb o).basePrio ∧ (k.tcb o).prio = (k.tcb t).prio
  · rw [if_pos hdue] at hgo
    by_cases hne : prioOwn c (k.woken t) o ≠ (k.tcb o).prio
    · rw [if_pos hne] at hgo
      refine lower_exact hown' (hcycle.mono fun _ _ h => (waitsOn_woken.mp h).2) ?_ hsorted hbase' hbut
        (by rw [Set.union_empty]; exact hnext) ?_ (.inl ⟨fuel, ?_⟩) hgo
      · obtain ⟨m, -, ho⟩ := hw
        exact hown'.alive m o ho
      · rw [(woken_tcb k t o).1]
        exact hbelow hnext.1
      · obtain hsame | hother | ⟨w, hwt, hwo, hprio⟩ | hlow := hwell o hw
        · exact absurd hsame hdue.1
        · exact absurd hdue.2 hother
        · refine absurd (le_antisymm (hnext.2 ?_) (hbelow hnext.1)) hne
          exact mem_candidates_woken.mpr (.inr ⟨w, hwt, hwo, hprio.symm⟩)
        · exact hlow.owner hcycle hw (fun y z h => (waitsOn_woken.mp h).2) (fun y z hy h => waitsOn_woken.mpr ⟨hy, h⟩)
            (fun y _ => (woken_tcb k t y).1) fun y _ => (woken_tcb k t y).2
    · rw [if_neg hne] at hgo
      cases hgo
      exact hstays (not_not.mp hne ▸ hnext.1)
  · rw [if_neg hdue] at hgo
    cases hgo
    refine hstays (mem_candidates_woken.mpr ?_)
    obtain hq | ⟨w, hwo, hq⟩ := hleast.1
    · exact .inl hq
    · by_cases hwt : w = t
      · subst hwt
        exact .inl (not_not.mp fun hne => hdue ⟨hne, hq⟩)
      · exact .inr ⟨w, hwt, hwo, hq⟩

/-! ## Handing over -/

theorem release_tcb (k : Kernel T M) (t u : T) (m : M) : ((k.release t m).tcb u).prio = (k.tcb u).prio ∧
    ((k.release t m).tcb u).basePrio = (k.tcb u).basePrio := by
  rw [Kernel.release, tcb_setMutex, Kernel.setGrp, tcb_setTcb]
  split
  · rename_i hu
    rw [hu]
    exact ⟨rfl, rfl⟩
  · exact ⟨rfl, rfl⟩

theorem waitsOn_release : WaitsOn (k.release t m) w u ↔ WaitsOn k w u ∧ k.pend.container w ≠ some m := by
  unfold WaitsOn
  constructor
  · rintro ⟨m', hm', ho⟩
    rw [Kernel.release, mutex_setMutex] at ho
    split at ho
    · cases ho
    rename_i hne
    refine ⟨⟨m', hm', ho⟩, ?_⟩
    rw [show k.pend.container w = some m' from hm']
    exact fun heq => hne (Option.some.inj heq)
  · rintro ⟨⟨m', hm', ho⟩, hne⟩
    refine ⟨m', hm', ?_⟩
    rw [Kernel.release, mutex_setMutex, if_neg]
    · exact ho
    · rintro rfl
      exact hne hm'

theorem Exact.release (h : Exact (fun _ => ∅) k) (howner : (k.mutex m).ownerTCBPtr = some cur) :
    ExactBut (fun _ => ∅) (k.release cur m) cur := by
  intro u hu
  have hcand : Candidates (k.release cur m) u = Candidates k u := by
    ext q
    simp only [Candidates, Set.mem_ofPred_eq, release_tcb, waitsOn_release]
    refine or_congr_right ⟨?_, ?_⟩
    · rintro ⟨w, ⟨hw, -⟩, hq⟩
      exact ⟨w, hw, hq⟩
    · rintro ⟨w, hw, hq⟩
      refine ⟨w, ⟨hw, fun hm => hu ?_⟩, hq⟩
      exact WaitsOn.unique ⟨m, hm, howner⟩ hw
  rw [hcand, (release_tcb k cur u m).1]
  exact h.least u

theorem candidates_release_subset : Candidates (k.release t m) u ⊆ Candidates k u := by
  rintro q (hq | ⟨w, hw, hq⟩)
  · rw [(release_tcb k t u m).2] at hq
    exact .inl hq
  · rw [(release_tcb k t w m).1] at hq
    exact .inr ⟨w, (waitsOn_release.mp hw).1, hq⟩

theorem Exact.lowered (h : Exact (fun _ => ∅) k) (hown : Owned k)
    (hbase : ∀ u, (k.tcb u).basePrio ≤ c.osCfgPrioMax - 1) (hrdy : (k.tcb cur).taskState = .rdy)
    (howner : (k.mutex m).ownerTCBPtr = some cur) : Exact (fun _ => ∅) ((k.release cur m).lowered c cur) := by
  have hown' := hown.release howner
  have hsorted : PendSorted (k.release cur m) := fun m' => (h.sorted m').congr fun u _ => (release_tcb k cur u m).1
  have hbut := h.release howner
  have hnone := hown'.listed.container_of_rdy (t := cur) (by
    rw [Kernel.release, tcb_setMutex, Kernel.setGrp, tcb_setTcb, if_pos rfl]
    exact hrdy)
  have hnot (o : T) : ¬WaitsOn (k.release cur m) cur o := by
    rintro ⟨m', hm', -⟩
    rw [hnone] at hm'
    cases hm'
  have hleast := h.least cur
  rw [Set.union_empty] at hleast
  have hbelow : (k.tcb cur).prio ∈ lowerBounds (Candidates (k.release cur m) cur) :=
    lowerBounds_mono_set candidates_release_subset hleast.2
  have hnext := prioOwn_isLeast (c := c) hown' hsorted (t := cur) (by
    rw [(release_tcb k cur cur m).2]
    exact hbase cur)
  unfold Kernel.lowered
  rw [(release_tcb k cur cur m).1, (release_tcb k cur cur m).2]
  by_cases hdue : (k.tcb cur).prio ≠ (k.tcb cur).basePrio ∧ prioOwn c (k.release cur m) cur > (k.tcb cur).prio
  · rw [if_pos hdue]
    have hsettle : (k.release cur m).settle cur (prioOwn c (k.release cur m) cur) =
        (k.release cur m).setPrio cur (prioOwn c (k.release cur m) cur) := by
      rw [Kernel.settle, hnone]
    rw [← hsettle]
    exact hbut.last hown' hsorted hnot (by rw [Set.union_empty]; exact hnext)
  · rw [if_neg hdue]
    refine hbut.exact hsorted ?_
    rw [Set.union_empty, (release_tcb k cur cur m).1]
    refine ⟨?_, hbelow⟩
    by_cases hne : (k.tcb cur).prio = (k.tcb cur).basePrio
    · rw [hne]
      exact .inl (release_tcb k cur cur m).2.symm
    · have hle : prioOwn c (k.release cur m) cur ≤ (k.tcb cur).prio := Nat.le_of_not_lt fun hlt => hdue ⟨hne, hlt⟩
      rw [le_antisymm (hbelow hnext.1) hle]
      exact hnext.1

theorem take_tcb (k : Kernel T M) (t u : T) (m : M) : ((k.take t m).tcb u).prio = (k.tcb u).prio ∧
    ((k.take t m).tcb u).basePrio = (k.tcb u).basePrio := by
  rw [take_eq, tcb_setMutex, Kernel.setGrp, tcb_setTcb]
  split
  · rename_i hu
    rw [hu]
    exact ⟨rfl, rfl⟩
  · exact ⟨rfl, rfl⟩

theorem waitsOn_take (hnone : (k.mutex m).ownerTCBPtr = none) :
    WaitsOn (k.take t m) w u ↔ WaitsOn k w u ∨ k.pend.container w = some m ∧ u = t := by
  unfold WaitsOn
  rw [show (k.take t m).pend.container w = k.pend.container w from rfl, take_eq]
  simp only [mutex_setMutex]
  constructor
  · rintro ⟨m', hm', ho⟩
    split at ho
    · rename_i heq
      rw [heq] at hm'
      exact .inr ⟨hm', (Option.some.inj ho).symm⟩
    · exact .inl ⟨m', hm', ho⟩
  · rintro (⟨m', hm', ho⟩ | ⟨hm, rfl⟩)
    · refine ⟨m', hm', ?_⟩
      rw [if_neg]
      · exact ho
      · rintro rfl
        rw [hnone] at ho
        cases ho
    · exact ⟨m, hm, by rw [if_pos rfl]⟩

theorem Exact.take (h : Exact (fun _ => ∅) k) (hown : Owned k) (hnone : (k.mutex m).ownerTCBPtr = none)
    (hhead : (k.pend.items m).head? = some t) : Exact (fun _ => ∅) ((k.take t m).woken t) := by
  have ht : k.pend.container t = some m := (hown.lists.mem_iff t m).mp (List.mem_of_mem_head? hhead)
  have hprio (u : T) : (((k.take t m).woken t).tcb u).prio = (k.tcb u).prio :=
    (woken_tcb (k.take t m) t u).1.trans (take_tcb k t u m).1
  have hurgent (w : T) (hw : k.pend.container w = some m) : (k.tcb t).prio ≤ (k.tcb w).prio := by
    obtain ⟨l, hl⟩ : ∃ l, k.pend.items m = t :: l := by
      cases hitems : k.pend.items m with
      | nil =>
        rw [hitems] at hhead
        cases hhead
      | cons u l =>
        rw [hitems] at hhead
        cases hhead
        exact ⟨l, rfl⟩
    have hw := (hown.lists.mem_iff w m).mpr hw
    have hsorted := h.sorted m
    rw [hl] at hw hsorted
    rcases List.mem_cons.mp hw with rfl | hw
    · exact le_rfl
    · exact (List.pairwise_cons.mp hsorted).1 w hw
  refine ⟨fun m' => ?_, fun u => ?_⟩
  · have hsorted : Sorted (fun u => (k.tcb u).prio) (((k.take t m).woken t).pend.items m') :=
      (h.sorted m').sublist items_remove_sublist
    exact hsorted.congr fun u _ => hprio u
  · have hleast := h.least u
    rw [Set.union_empty] at hleast ⊢
    rw [hprio]
    have hmem {q : Nat} : q ∈ Candidates ((k.take t m).woken t) u ↔ q = (k.tcb u).basePrio ∨
        ∃ w, w ≠ t ∧ (WaitsOn k w u ∨ k.pend.container w = some m ∧ u = t) ∧ q = (k.tcb w).prio := by
      rw [mem_candidates_woken]
      simp only [take_tcb, waitsOn_take hnone]
    constructor
    · refine hmem.mpr (hleast.1.imp id ?_)
      rintro ⟨w, hw, hq⟩
      refine ⟨w, ?_, .inl hw, hq⟩
      rintro rfl
      obtain ⟨m', hm', ho⟩ := hw
      rw [ht] at hm'
      cases hm'
      rw [hnone] at ho
      cases ho
    · intro q hq
      obtain hq | ⟨w, -, hw | ⟨hw, rfl⟩, rfl⟩ := hmem.mp hq
      · exact hleast.2 (.inl hq)
      · exact hleast.2 (.inr ⟨w, hw, rfl⟩)
      · exact hurgent w hw

theorem Exact.handedOver (h : Exact (fun _ => ∅) k) (hown : Owned k)
    (hbase : ∀ u, (k.tcb u).basePrio ≤ c.osCfgPrioMax - 1) (hrdy : (k.tcb cur).taskState = .rdy)
    (howner : (k.mutex m).ownerTCBPtr = some cur) (hhead : (k.pend.items m).head? = some t) :
    Exact (fun _ => ∅) ((((k.release cur m).lowered c cur).take t m).readied t) := by
  have hs : Similar (k.release cur m) ((k.release cur m).lowered c cur) := .lowered _ cur
  have hown' : Owned ((k.release cur m).lowered c cur) := (hown.release howner).similar hs
  have hpend : ((k.release cur m).lowered c cur).pend = k.pend := by
    unfold Kernel.lowered
    split <;> rfl
  obtain ⟨timeout, hstate⟩ := hown.waiting t m ((hown.lists.mem_iff t m).mp (List.mem_of_mem_head? hhead))
  have hwaiting : ((((k.release cur m).lowered c cur).take t m).tcb t).taskState = .pend timeout := by
    rw [take_eq, tcb_setMutex, Kernel.setGrp, tcb_setTcb, if_pos rfl]
    show (((k.release cur m).lowered c cur).tcb t).taskState = _
    rw [hs.state, Kernel.release, tcb_setMutex, Kernel.setGrp, tcb_setTcb]
    split
    · rename_i htc
      rw [← htc]
      exact hstate
    · exact hstate
  rw [readied_eq hwaiting]
  refine (h.lowered hown hbase hrdy howner).take hown' ?_ (by rw [hpend]; exact hhead)
  rw [hs.mutex, Kernel.release, mutex_setMutex, if_pos rfl]

/-! ## A new priority -/

/-- `OSTaskChangePrio` before it calls `OS_TaskChangePrio`. -/
def Kernel.rebased (k : Kernel T M) (t : T) (p : Nat) : Kernel T M := k.setTcb t { k.tcb t with basePrio := p }

omit dM in
theorem rebased_tcb (k : Kernel T M) (t u : T) (p : Nat) : ((k.rebased t p).tcb u).prio = (k.tcb u).prio ∧
    ((k.rebased t p).tcb u).basePrio = (if u = t then p else (k.tcb u).basePrio) ∧
    ((k.rebased t p).tcb u).mutexGrp = (k.tcb u).mutexGrp := by
  rw [Kernel.rebased, tcb_setTcb]
  split
  · rename_i hu
    rw [hu]
    exact ⟨rfl, rfl, rfl⟩
  · exact ⟨rfl, rfl, rfl⟩

omit dM in
theorem candidates_rebased (hu : u ≠ t) : Candidates (k.rebased t p) u = Candidates k u := by
  ext q
  simp only [Candidates, Set.mem_ofPred_eq, rebased_tcb, if_neg hu]
  rfl

/-- The task need not change, is raised, or can be lowered. -/
def ChangesWell (fuel : Nat) (k : Kernel T M) (t : T) (p : Nat) : Prop :=
  p < (k.tcb t).prio ∨ Lowers k fuel t ∨
    (p = (k.tcb t).prio ∨ ∃ w, WaitsOn k w t ∧ (k.tcb w).prio = (k.tcb t).prio) ∧
      ∀ o, WaitsOn k t o → (k.tcb o).prio = (k.tcb t).prio

omit dM in
theorem changedPrio_isLeast (h : Exact (fun _ => ∅) k) (hown : Owned k) (hlt : p < c.osCfgPrioMax - 1) :
    IsLeast (Candidates (k.rebased t p) t) (changedPrio c (k.rebased t p) t p) := by
  have hown' : Owned (k.rebased t p) := hown.setTcb rfl rfl
  have hsorted : PendSorted (k.rebased t p) := fun m => (h.sorted m).congr fun u _ => (rebased_tcb k t u p).1
  have hbase : ((k.rebased t p).tcb t).basePrio = p := by rw [(rebased_tcb k t t p).2.1, if_pos rfl]
  have hmin := min_grpHighest_isLeast hown' hsorted (t := t) (p := c.osCfgPrioMax - 1) (by rw [hbase]; exact hlt.le)
  rw [hbase] at hmin
  unfold changedPrio
  dsimp only
  rw [(rebased_tcb k t t p).1, os_MutexGrpPrioFindHighest]
  by_cases hup : p ≤ (k.tcb t).prio
  · rw [if_neg (by omega)]
    have hleast := h.least t
    rw [Set.union_empty] at hleast
    refine ⟨.inl hbase.symm, ?_⟩
    rintro q (rfl | ⟨w, hw, rfl⟩)
    · exact hbase.ge
    · rw [(rebased_tcb k t w p).1]
      exact hup.trans (hleast.2 (.inr ⟨w, hw, rfl⟩))
  · by_cases hgrp : ((k.rebased t p).tcb t).mutexGrp = []
    · rw [if_neg fun hcond => hcond.1 hgrp]
      rw [hgrp, grpHighest, Nat.min_eq_right hlt.le] at hmin
      exact hmin
    · split
      · rw [Nat.min_eq_left (by omega)] at hmin
        exact hmin
      · rename_i hcond
        rw [Nat.min_eq_right (Nat.le_of_not_lt fun hgt => hcond ⟨hgrp, by omega, hgt⟩)] at hmin
        exact hmin

theorem Exact.changed (h : Exact (fun _ => ∅) k) (hown : Owned k) (hcycle : Acyclic k)
    (hbase : ∀ u, (k.tcb u).basePrio ≤ c.osCfgPrioMax - 1) (halive : (k.tcb t).taskState ≠ .del)
    (hlt : p < c.osCfgPrioMax - 1) (hwell : ChangesWell fuel k t p)
    (hgo : os_TaskChangePrio c fuel (k.rebased t p) t (changedPrio c (k.rebased t p) t p) = .ok k') :
    Exact (fun _ => ∅) k' := by
  have hown' : Owned (k.rebased t p) := hown.setTcb rfl rfl
  have hsorted : PendSorted (k.rebased t p) := fun m => (h.sorted m).congr fun u _ => (rebased_tcb k t u p).1
  have hcycle' : Acyclic (k.rebased t p) := hcycle
  have halive' : ((k.rebased t p).tcb t).taskState ≠ .del := by
    rw [Kernel.rebased, tcb_setTcb, if_pos rfl]
    exact halive
  have hbut : ExactBut (fun _ => ∅) (k.rebased t p) t := by
    intro u hu
    rw [candidates_rebased hu, (rebased_tcb k t u p).1]
    exact h.least u
  have hnew := changedPrio_isLeast (t := t) h hown hlt
  have hprio := (rebased_tcb k t t p).1
  have hleast := h.least t
  rw [Set.union_empty] at hleast
  by_cases hup : changedPrio c (k.rebased t p) t p < (k.tcb t).prio
  · exact raise_exact hown' hcycle' halive' hsorted hbut (by rw [Set.union_empty]; exact hnew) (by rw [hprio]; exact hup)
      hgo
  have hdown := Nat.le_of_not_lt hup
  have hbase' (u : T) : ((k.rebased t p).tcb u).basePrio ≤ c.osCfgPrioMax - 1 := by
    rw [(rebased_tcb k t u p).2.1]
    split
    · exact hlt.le
    · exact hbase u
  refine lower_exact hown' hcycle' halive' hsorted hbase' hbut (by rw [Set.union_empty]; exact hnew)
    (by rw [hprio]; exact hdown) ?_ hgo
  have hle : changedPrio c (k.rebased t p) t p ≤ p := hnew.2 (.inl (by rw [(rebased_tcb k t t p).2.1, if_pos rfl]))
  obtain hlt | hlow | ⟨hsame, howner⟩ := hwell
  · omega
  · cases fuel with
    | zero => exact hlow.elim
    | succ n =>
      refine .inl ⟨n + 1, fun o hw => ?_⟩
      obtain ⟨heq, hkeep⟩ := hlow o hw
      rw [(rebased_tcb k t o p).1, hprio, (rebased_tcb k t o p).2.1, if_neg (hcycle.ne hw)]
      refine ⟨heq, hkeep.imp id (Or.imp ?_ fun hnext => ?_)⟩
      · rintro ⟨w, hwt, hwo, hw'⟩
        exact ⟨w, hwt, hwo, by rw [(rebased_tcb k t w p).1, hw']⟩
      · refine hnext.owner hcycle hw (fun _ _ h => h) (fun _ _ _ h => h) (fun y _ => (rebased_tcb k t y p).1)
          fun y hy => ?_
        rw [(rebased_tcb k t y p).2.1, if_neg hy]
  · refine .inr ⟨?_, fun o ho => ?_⟩
    · rw [hprio]
      refine le_antisymm ?_ hdown
      obtain rfl | ⟨w, hw, hw'⟩ := hsame
      · exact hle
      · exact hnew.2 (.inr ⟨w, hw, by rw [(rebased_tcb k t w p).1, hw']⟩)
    · rw [(rebased_tcb k t o p).1, hprio]
      exact howner o ho

/-! ## Every run -/

/-- All that is kept: ownership, the range of the priorities, and that they are inherited exactly. -/
structure Inherits (c : Config) (k : Kernel T M) : Prop where
  consistent : Consistent k
  base : ∀ u, (k.tcb u).basePrio ≤ c.osCfgPrioMax - 1
  exact : Exact (fun _ => ∅) k

/-- Every round of `OSMutexPendAbort` takes out a task that leaves well. -/
def AbortsWell (c : Config) (fuel : Nat) (all : Bool) (m : M) : Nat → Kernel T M → Prop
  | 0, _ => True
  | n + 1, k =>
    match k.pend.items m with
    | [] => True
    | t :: _ => LeavesWell fuel k t ∧ match abortFirst c fuel k m t with
      | .ok k => if all then AbortsWell c fuel all m n k else True
      | .error _ => True

/-- There is no cycle, and a task that waits is lowered only with owners that have its priority. -/
def Heeds (c : Config) (fuel : Nat) (k : Kernel T M) (e : Event T M) : Prop :=
  Acyclic k ∧ match e with
    | .timeout t => LeavesWell fuel k t
    | .pendAbort _ m all => AbortsWell c fuel all m (k.pend.items m).length k
    | .changePrio _ t p => (k.tcb t).taskState ≠ .del → p < c.osCfgPrioMax - 1 → ChangesWell fuel k t p
    | .pend .. => True
    | .post .. => True
    | .del .. => False

omit dT dM in
theorem Consistent.owner_of_pend (h : Consistent k) (ht : k.pend.container t = some m) :
    ∃ o, (k.mutex m).ownerTCBPtr = some o := by
  refine Option.ne_none_iff_exists'.mp fun hnone => ?_
  have ht := (h.owned.lists.mem_iff t m).mpr ht
  rw [h.attended m hnone] at ht
  cases ht

theorem Inherits.leaves (h : Inherits c k) (hcycle : Acyclic k) (ht : k.pend.container t = some m)
    (howner : (k.mutex m).ownerTCBPtr = some o) (hwell : LeavesWell fuel k t)
    (hgo : disinherit c fuel (k.woken t) o t = .ok k') : Inherits c k' ∧ ∀ w u, WaitsOn k' w u → WaitsOn k w u := by
  have hwoken : Consistent (k.woken t) := ⟨h.consistent.owned.woken t, h.consistent.attended.woken t⟩
  have hs := Similar.disinherit hwoken.owned.lists hgo
  refine ⟨⟨hwoken.similar hs, fun u => ?_, ?_⟩, fun w u hw => ?_⟩
  · rw [hs.base, (woken_tcb k t u).2]
    exact h.base u
  · exact h.exact.leaves h.consistent.owned hcycle h.base ⟨m, ht, howner⟩ hwell hgo
  · exact (waitsOn_woken.mp (hs.waitsOn.mp hw)).2

theorem abortFirst_eq (h : Owned k) (ht : k.pend.container t = some m) (howner : (k.mutex m).ownerTCBPtr = some o) :
    abortFirst c fuel k m t = disinherit c fuel (k.woken t) o t := by
  obtain ⟨timeout, hstate⟩ := h.waiting t m ht
  unfold abortFirst
  rw [howner, os_PendAbort, readied_eq hstate]

theorem Inherits.abortLoop {all : Bool} {n : Nat} (h : Inherits c k) (hcycle : Acyclic k)
    (hwell : AbortsWell c fuel all m n k) (hgo : abortLoop c fuel all m n k = .ok k') : Inherits c k' := by
  induction n generalizing k with
  | zero =>
    cases hgo
    exact h
  | succ n ih =>
    simp only [Mutexes.abortLoop, AbortsWell] at hgo hwell
    split at hgo
    · cases hgo
      exact h
    · rename_i t l hl
      rw [hl] at hwell
      obtain ⟨hleaves, hrest⟩ := hwell
      obtain ⟨k₁, hfirst, hgo⟩ := bind_eq_ok hgo
      rw [hfirst] at hrest
      have ht : k.pend.container t = some m := by
        rw [← h.consistent.owned.lists.mem_iff, hl]
        exact List.mem_cons_self
      obtain ⟨o, howner⟩ := h.consistent.owner_of_pend ht
      rw [abortFirst_eq h.consistent.owned ht howner] at hfirst
      obtain ⟨h₁, hsub⟩ := h.leaves hcycle ht howner hleaves hfirst
      cases all with
      | true => exact ih h₁ (hcycle.mono hsub) hrest hgo
      | false =>
        cases hgo
        exact h₁

/-- **One step.** -/
theorem Inherits.step {e : Event T M} (h : Inherits c k) (hheeds : Heeds c fuel k e) (hstep : step c fuel k e = .ok k') :
    Inherits c k' := by
  obtain ⟨hcycle, hwell⟩ := hheeds
  have hown := h.consistent.owned
  have hdel : DeletesUnneeded k e := by
    cases e with
    | del => exact hwell.elim
    | _ => trivial
  have hconsistent := h.consistent.step hdel hstep
  cases step_outcome hstep with
  | same => exact h
  | @taken cur m _ _ hrdy hfree =>
    have hempty := h.consistent.attended m ((hown.counts m).mp hfree)
    refine ⟨hconsistent, fun u => ?_, h.exact.setOwner hown hempty _ _⟩
    rw [(take_tcb k cur u m).2]
    exact h.base u
  | nested hheld => exact ⟨hconsistent, h.base, h.exact.setCtr _⟩
  | @waits cur m owner timeout k₁ hrdy howner hother hraise =>
    refine ⟨hconsistent, fun u => ?_, h.exact.waits hown hcycle hrdy howner hraise⟩
    have hs := Similar.raise hown.lists hraise
    rw [os_PendListInsertPrio, Kernel.setState, tcb_setTcb]
    split
    · rw [hs.base]
      exact h.base cur
    · rw [hs.base]
      exact h.base u
  | unnested howner hpos => exact ⟨hconsistent, h.base, h.exact.setCtr _⟩
  | @freed cur m howner hnone =>
    refine ⟨hconsistent, fun u => ?_, h.exact.setOwner hown hnone _ _⟩
    rw [(release_tcb k cur u m).2]
    exact h.base u
  | @handedOver cur m t hrdy howner hhead =>
    refine ⟨hconsistent, fun u => ?_, h.exact.handedOver hown h.base hrdy howner hhead⟩
    have hbase : ((((k.release cur m).lowered c cur).take t m).tcb u).basePrio = (k.tcb u).basePrio := by
      rw [(take_tcb _ t u m).2, (Similar.lowered (c := c) _ cur).base, (release_tcb k cur u m).2]
    unfold Kernel.readied
    split
    · rw [show os_PendListRemove _ t = _ from rfl]
      exact ((woken_tcb _ t u).2.trans hbase).trans_le (h.base u)
    · rw [hbase]
      exact h.base u
  | aborted hloop => exact h.abortLoop hcycle hwell hloop
  | timedOut hpend howner hdis => exact (h.leaves hcycle hpend howner hwell hdis).1
  | left hpend howner =>
    obtain ⟨o, ho⟩ := h.consistent.owner_of_pend hpend
    rw [howner] at ho
    cases ho
  | @changed cur t p _ halive hlt hchange =>
    refine ⟨hconsistent, fun u => ?_, h.exact.changed hown hcycle h.base halive hlt (hwell halive hlt) hchange⟩
    have hown' : Owned (k.rebased t p) := hown.setTcb rfl rfl
    rw [(Similar.taskChangePrio hown'.lists hchange).base]
    show ((k.rebased t p).tcb u).basePrio ≤ _
    rw [(rebased_tcb k t u p).2.1]
    split
    · exact hlt.le
    · exact h.base u
  | deleted => exact hwell.elim

omit dT dM in
theorem Inherits.start {prio : T → Nat} (hprio : ∀ t, prio t ≤ c.osCfgPrioMax - 1) :
    Inherits c (start prio : Kernel T M) := by
  refine ⟨.start prio, hprio, fun m => List.Pairwise.nil, fun t => ⟨.inl (.inl rfl), ?_⟩⟩
  rintro q ((rfl | ⟨w, ⟨m, hm, -⟩, -⟩) | hq)
  · exact le_rfl
  · cases hm
  · cases hq

/-! ## The loop returns -/

/-- The chain of owners a task waits on is shorter than the number. -/
def Ends (k : Kernel T M) : Nat → T → Prop
  | 0, _ => False
  | n + 1, t => ∀ o, WaitsOn k t o → Ends k n o

section
omit dT dM

theorem Ends.mono {n : Nat} (h : Ends k n t) (hback : ∀ w u, WaitsOn k' w u → WaitsOn k w u) : Ends k' n t := by
  induction n generalizing t with
  | zero => exact h
  | succ n ih => exact fun o ho => ih (h o (hback t o ho))

theorem Ends.acyclic (h : ∀ t, ∃ n, Ends k n t) : Acyclic k := by
  intro t ht
  obtain ⟨n, hn⟩ := h t
  induction n generalizing t with
  | zero => exact hn
  | succ n ih =>
    obtain ⟨o, ho, hrest⟩ := TransGen.head'_iff.mp ht
    exact ih o (TransGen.tail' hrest ho) (hn o ho)

theorem Acyclic.ends [Fintype T] (h : Acyclic k) (hfuel : Fintype.card T ≤ fuel) (t : T) : Ends k fuel t := by
  have hends (n : Nat) (t : T) (hn : {u | TransGen (WaitsOn k) t u}.ncard < n) : Ends k n t := by
    induction n generalizing t with
    | zero => exact absurd hn (Nat.not_lt_zero _)
    | succ n ih =>
      intro o ho
      refine ih o (lt_of_lt_of_le (Set.ncard_lt_ncard ⟨fun u hu => TransGen.head ho hu, fun hsub => ?_⟩)
        (Nat.le_of_lt_succ hn))
      exact h o (hsub (TransGen.single ho))
  rw [← Nat.card_eq_fintype_card] at hfuel
  refine hends _ t (lt_of_lt_of_le (Set.ncard_lt_card fun huniv => h t ?_) hfuel)
  have ht : t ∈ {u | TransGen (WaitsOn k) t u} := by
    rw [huniv]
    trivial
  exact ht

end

theorem taskChangePrio_returns (hown : Owned k) (h : Ends k fuel t) :
    os_TaskChangePrio c fuel k t p ≠ .error .noReturn := by
  induction fuel generalizing k t p with
  | zero => exact h.elim
  | succ fuel ih =>
    have hset := Similar.setPrio k t p
    simp only [os_TaskChangePrio]
    split
    · simp
    · simp
    · split
      · simp
      · rename_i m hm
        have hmoved := hset.trans (.changePrio (hset.lists hown.lists) hm)
        split
        · simp
        · rename_i owner howner
          have hends : Ends (os_PendListChangePrio (k.setPrio t p) m t) fuel owner := by
            refine (h owner ⟨m, hm, ?_⟩).mono fun _ _ => hmoved.waitsOn.mp
            rw [← hmoved.mutex]
            exact howner
          have hown' := hown.similar hmoved
          split <;> split
          · simp
          · exact ih hown' hends
          · split
            · simp
            · exact ih hown' hends
          · exact ih hown' hends

theorem disinherit_returns (hown : Owned k) (h : Ends k fuel owner) : disinherit c fuel k owner t ≠ .error .noReturn := by
  unfold disinherit
  split
  · dsimp only
    split
    · exact taskChangePrio_returns hown h
    · nofun
  · nofun

theorem woken_returns [Fintype T] (hfuel : Fintype.card T ≤ fuel) (hown : Owned k) (hcycle : Acyclic k) :
    disinherit c fuel (k.woken t) o t ≠ .error .noReturn := by
  have hcycle' : Acyclic (k.woken t) := hcycle.mono fun _ _ h => (waitsOn_woken.mp h).2
  exact disinherit_returns (hown.woken t) (hcycle'.ends hfuel o)

theorem abortLoop_returns [Fintype T] (hfuel : Fintype.card T ≤ fuel) {all : Bool} {n : Nat} (h : Inherits c k)
    (hcycle : Acyclic k) (hwell : AbortsWell c fuel all m n k) : abortLoop c fuel all m n k ≠ .error .noReturn := by
  induction n generalizing k with
  | zero => simp [Mutexes.abortLoop]
  | succ n ih =>
    simp only [Mutexes.abortLoop, AbortsWell] at hwell ⊢
    split
    · simp
    · rename_i t l hl
      rw [hl] at hwell
      obtain ⟨hleaves, hrest⟩ := hwell
      have ht : k.pend.container t = some m := by
        rw [← h.consistent.owned.lists.mem_iff, hl]
        exact List.mem_cons_self
      obtain ⟨o, howner⟩ := h.consistent.owner_of_pend ht
      have hfirst : abortFirst c fuel k m t = disinherit c fuel (k.woken t) o t :=
        abortFirst_eq h.consistent.owned ht howner
      intro hstop
      obtain hstop | ⟨k₁, hgo, hstop⟩ := bind_eq_error hstop
      · rw [hfirst] at hstop
        exact woken_returns hfuel h.consistent.owned hcycle hstop
      · rw [hgo] at hrest
        rw [hfirst] at hgo
        obtain ⟨h₁, hsub⟩ := h.leaves hcycle ht howner hleaves hgo
        cases all with
        | true => exact ih h₁ (hcycle.mono hsub) hrest hstop
        | false => cases hstop

theorem pend_returns [Fintype T] (hfuel : Fintype.card T ≤ fuel) (hown : Owned k) (hcycle : Acyclic k)
    {nonBlocking timeout : Bool} : osMutexPend c fuel k cur m nonBlocking timeout ≠ .error .noReturn := by
  unfold osMutexPend
  dsimp only
  split
  · nofun
  · split
    · split <;> nofun
    · split
      · nofun
      · split
        · nofun
        · rename_i owner howner
          intro hstop
          replace hstop := map_eq_error hstop
          split at hstop
          · exact taskChangePrio_returns hown (hcycle.ends hfuel owner) hstop
          · cases hstop

theorem post_returns : osMutexPost c k cur m ≠ .error .noReturn := by
  unfold osMutexPost
  dsimp only
  split
  · nofun
  · split
    · nofun
    · intro hstop
      obtain hstop | ⟨k₁, -, hstop⟩ := bind_eq_error hstop
      · unfold os_MutexGrpRemove at hstop
        split at hstop <;> cases hstop
      · split at hstop <;> cases hstop

theorem step_returns [Fintype T] (hfuel : Fintype.card T ≤ fuel) {e : Event T M} (h : Inherits c k)
    (hheeds : Heeds c fuel k e) : step c fuel k e ≠ .error .noReturn := by
  obtain ⟨hcycle, hwell⟩ := hheeds
  have hown := h.consistent.owned
  intro hstop
  cases e with
  | pend cur m nonBlocking timeout =>
    simp only [step] at hstop
    split at hstop
    · exact pend_returns hfuel hown hcycle (map_eq_error hstop)
    · cases hstop
  | post cur m =>
    simp only [step] at hstop
    split at hstop
    · exact post_returns (map_eq_error hstop)
    · cases hstop
  | pendAbort cur m all =>
    simp only [step] at hstop
    split at hstop
    · replace hstop := map_eq_error hstop
      unfold osMutexPendAbort at hstop
      split at hstop
      · cases hstop
      · exact abortLoop_returns hfuel h hcycle hwell (map_eq_error hstop)
    · cases hstop
  | timeout t =>
    simp only [step, tickPendTimeout] at hstop
    split at hstop
    · split at hstop
      · cases hstop
      split at hstop
      · cases hstop
      · exact woken_returns hfuel hown hcycle hstop
    · cases hstop
  | changePrio cur t p =>
    simp only [step] at hstop
    split at hstop
    · replace hstop := map_eq_error hstop
      unfold osTaskChangePrio at hstop
      split at hstop
      · cases hstop
      split at hstop
      · cases hstop
      have hown' : Owned (k.rebased t p) := hown.setTcb rfl rfl
      have hcycle' : Acyclic (k.rebased t p) := hcycle
      exact taskChangePrio_returns hown' (hcycle'.ends hfuel t) (map_eq_error hstop)
    · cases hstop
  | del => exact hwell.elim

/-- **Priorities are inherited exactly** in every run in which tasks never wait in a cycle and every task that is
lowered while it waits has owners that can be lowered with it; and every call returns. -/
theorem osMutex_prio_exact [Fintype T] {prio : T → Nat} {es : List (Event T M)} (hfuel : Fintype.card T ≤ fuel)
    (hprio : ∀ t, prio t ≤ c.osCfgPrioMax - 1) (hes : Along (step c fuel) (Heeds c fuel) (start prio) es) :
    run (step c fuel) (start prio) es ≠ .error .noReturn ∧
      ∀ k, run (step c fuel) (start prio) es = .ok k →
        (∀ t, IsLeast (Candidates k t) (k.tcb t).prio) ∧ PendSorted k := by
  have hstep (k : Kernel T M) (e : Event T M) (k' : Kernel T M) (h : Inherits c k) (hheeds : Heeds c fuel k e)
      (hgo : step c fuel k e = .ok k') : Inherits c k' := h.step hheeds hgo
  refine ⟨run_no_stop hstep (fun k e h hheeds => step_returns hfuel h hheeds) (.start hprio) hes, fun k hrun => ?_⟩
  have hexact := (run_inv hstep (.start hprio) hes hrun).exact
  refine ⟨fun t => ?_, hexact.sorted⟩
  have hleast := hexact.least t
  rwa [Set.union_empty] at hleast

section Decide
variable [fT : Fintype T] [fM : Fintype M]

instance : Decidable (WaitsOn k t o) := inferInstanceAs (Decidable (∃ _, _ ∧ _))

instance Ends.instDecidable : ∀ n (t : T), Decidable (Ends k n t)
  | 0, _ => inferInstanceAs (Decidable False)
  | n + 1, t =>
    have (o : T) : Decidable (Ends k n o) := Ends.instDecidable n o
    inferInstanceAs (Decidable (∀ o, WaitsOn k t o → Ends k n o))

omit fM dT dM in
theorem acyclic_iff : Acyclic k ↔ ∀ t, Ends k (Fintype.card T) t :=
  ⟨fun h => h.ends le_rfl, fun h => Ends.acyclic fun t => ⟨_, h t⟩⟩

instance : Decidable (Acyclic k) := decidable_of_iff _ acyclic_iff.symm

instance Lowers.instDecidable : ∀ n (t : T), Decidable (Lowers k n t)
  | 0, _ => inferInstanceAs (Decidable False)
  | n + 1, t =>
    have (o : T) : Decidable (Lowers k n o) := Lowers.instDecidable n o
    inferInstanceAs (Decidable (∀ o, WaitsOn k t o → _ ∧ (_ ∨ (∃ w, w ≠ t ∧ WaitsOn k w o ∧ _) ∨ Lowers k n o)))

instance : Decidable (LeavesWell fuel k t) :=
  inferInstanceAs (Decidable (∀ o, WaitsOn k t o → _ ∨ _ ∨ (∃ w, w ≠ t ∧ WaitsOn k w o ∧ _) ∨ _))

instance : Decidable (ChangesWell fuel k t p) :=
  inferInstanceAs (Decidable (_ ∨ _ ∨ (_ ∨ ∃ w, WaitsOn k w t ∧ _) ∧ ∀ o, WaitsOn k t o → _))

instance AbortsWell.instDecidable (all : Bool) (m : M) :
    ∀ n (k : Kernel T M), Decidable (AbortsWell c fuel all m n k)
  | 0, _ => inferInstanceAs (Decidable True)
  | n + 1, k => by
    have hrec (k : Kernel T M) : Decidable (AbortsWell c fuel all m n k) := AbortsWell.instDecidable all m n k
    unfold AbortsWell
    cases k.pend.items m with
    | nil => exact instDecidableTrue
    | cons t l =>
      refine @instDecidableAnd _ _ (inferInstanceAs (Decidable (LeavesWell fuel k t))) ?_
      cases abortFirst c fuel k m t with
      | ok k' => exact inferInstanceAs (Decidable (if all then AbortsWell c fuel all m n k' else True))
      | error stop => exact instDecidableTrue

instance (e : Event T M) : Decidable (Heeds c fuel k e) := by
  refine e.casesOn ?_ ?_ ?_ ?_ ?_ ?_ <;> intros <;> dsimp only [Heeds] <;> infer_instance

end Decide

/-- Tasks 2 and 3 wait for task 1, which waits for task 0. Task 3 gives up, task 2 is lowered and then taken
out, and task 0 posts at its own priority. -/
def fourTasks : List (Event (Fin 4) (Fin 2)) :=
  [.pend 0 0 false false, .pend 1 1 false false, .pend 1 0 false true, .pend 2 1 false true, .pend 3 1 false true,
    .timeout 3, .changePrio 3 2 12, .pendAbort 3 1 true, .post 0 0]

theorem osMutex_prio_exact_four :
    ∃ k, run (step ⟨64, 255⟩ 4) (start fun t : Fin 4 => 20 - 5 * t.val) fourTasks = .ok k ∧
      (∀ t, IsLeast (Candidates k t) (k.tcb t).prio) ∧ PendSorted k :=
  exists_ok_and (by decide +kernel) fun k hrun =>
    (osMutex_prio_exact (le_of_eq (Fintype.card_fin 4)) (by decide) (by decide +kernel)).2 k hrun

/-- Task 1 waits for task 0, which has been raised and given its old priority back. When task 1 is lowered, task
0 is lowered with it. -/
def lowersOwner : List (Event (Fin 2) (Fin 1)) :=
  [.pend 0 0 false false, .changePrio 0 0 10, .pend 1 0 false false, .changePrio 0 0 3, .changePrio 0 1 10]

theorem osMutex_owner_strays :
    ∃ k, run (step ⟨64, 255⟩ 2) (start fun t : Fin 2 => 3 + 2 * t.val) lowersOwner = .ok k ∧
      Along (step ⟨64, 255⟩ 2) (fun k _ => Acyclic k) (start fun t : Fin 2 => 3 + 2 * t.val) lowersOwner ∧
      ¬IsLeast (Candidates k 0) (k.tcb 0).prio := by
  refine exists_ok_that (P := fun k => (k.tcb 0).prio = 10 ∧ (k.tcb 0).basePrio = 3) (by decide +kernel)
    fun k _ ⟨hprio, hbase⟩ => ⟨by decide +kernel, fun hleast => ?_⟩
  have hle : (k.tcb 0).prio ≤ (k.tcb 0).basePrio := hleast.2 (.inl rfl)
  rw [hprio, hbase] at hle
  exact absurd hle (by decide)

end RtosKernel.Ucos.Mutexes
