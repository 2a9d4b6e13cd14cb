import RtosKernel.Ucos.MutexOwners

/-! # The priority a task should have

A task should run at the highest of its own priority and those of the tasks that wait for its mutexes. The loop
of `OS_TaskChangePrio` follows the owners that are waited for; it is right as long as a task that is lowered has
the priority of the owner it waits for. -/

namespace RtosKernel.Ucos.Mutexes
open Lib.Containers Relation List

variable {T M : Type} [dT : DecidableEq T] [dM : DecidableEq M]

/-- A task waits for a mutex of another one. -/
def WaitsOn (k : Kernel T M) (w t : T) : Prop :=
  ∃ m, k.pend.container w = some m ∧ (k.mutex m).ownerTCBPtr = some t

/-- No task waits for itself, however indirectly. -/
def Acyclic (k : Kernel T M) : Prop := ∀ t, ¬TransGen (WaitsOn k) t t

/-- The priorities a task is entitled to. -/
def Candidates (k : Kernel T M) (t : T) : Set Nat :=
  {p | p = (k.tcb t).basePrio ∨ ∃ w, WaitsOn k w t ∧ p = (k.tcb w).prio}

/-- Every pend list is in the order of the present priorities. -/
def PendSorted (k : Kernel T M) : Prop := ∀ m, Sorted (fun t => (k.tcb t).prio) (k.pend.items m)

/-- A task can be lowered: the owner it waits on has its priority and, unless it keeps it for another reason,
can be lowered in turn. The number bounds the chain. -/
def Lowers (k : Kernel T M) : Nat → T → Prop
  | 0, _ => False
  | n + 1, t => ∀ o, WaitsOn k t o → (k.tcb o).prio = (k.tcb t).prio ∧
      ((k.tcb o).basePrio = (k.tcb o).prio ∨ (∃ w, w ≠ t ∧ WaitsOn k w o ∧ (k.tcb w).prio = (k.tcb o).prio) ∨
        Lowers k n o)

variable {c : Config} {fuel : Nat} {k k' : Kernel T M} {t u o s : T} {m : M} {p v : Nat}

section
omit dT dM

theorem WaitsOn.unique (h : WaitsOn k t o) (h' : WaitsOn k t u) : u = o := by
  obtain ⟨m, hm, ho⟩ := h
  obtain ⟨m', hm', hu⟩ := h'
  rw [hm] at hm'
  cases hm'
  rw [ho] at hu
  exact (Option.some.inj hu).symm

theorem Similar.waitsOn (h : Similar k k') : WaitsOn k' t o ↔ WaitsOn k t o := by
  simp only [WaitsOn, h.container, h.mutex]

theorem Acyclic.ne (h : Acyclic k) (hw : WaitsOn k t o) : o ≠ t := by
  rintro rfl
  exact h o (.single hw)

theorem Acyclic.mono (h : Acyclic k) (hsub : ∀ t o, WaitsOn k' t o → WaitsOn k t o) : Acyclic k' :=
  fun t hcycle => h t (TransGen.mono hsub t t hcycle)

end

/-! ## The highest that waits -/

section
omit dT dM

theorem grpHighest_le (p : Nat) (grp : List M) : grpHighest k p grp ≤ p := by
  induction grp generalizing p with
  | nil => exact le_refl p
  | cons m grp ih =>
    rw [grpHighest]
    split
    · refine (ih _).trans ?_
      split <;> omega
    · exact ih p

theorem grpHighest_le_waiting (hsorted : PendSorted k) {grp : List M} (hm : m ∈ grp) (ht : t ∈ k.pend.items m)
    (p : Nat) : grpHighest k p grp ≤ (k.tcb t).prio := by
  induction grp generalizing p with
  | nil => cases hm
  | cons m' grp ih =>
    rw [grpHighest]
    rcases mem_cons.mp hm with rfl | hm
    · obtain ⟨head, l, hl⟩ := exists_cons_of_ne_nil (ne_nil_of_mem ht)
      rw [hl, List.head?_cons]
      have hhead : (k.tcb head).prio ≤ (k.tcb t).prio := by
        have hs := hsorted m
        rw [hl] at hs ht
        rcases mem_cons.mp ht with rfl | ht
        · exact le_refl _
        · exact (pairwise_cons.mp hs).1 t ht
      refine (grpHighest_le _ grp).trans ?_
      split <;> omega
    · split
      · exact ih hm _
      · exact ih hm p

theorem grpHighest_attained (p : Nat) (grp : List M) :
    grpHighest k p grp = p ∨ ∃ m ∈ grp, ∃ t ∈ k.pend.items m, grpHighest k p grp = (k.tcb t).prio := by
  induction grp generalizing p with
  | nil => exact .inl rfl
  | cons m grp ih =>
    rw [grpHighest]
    split
    · rename_i head hhead
      have hmem : head ∈ k.pend.items m := List.mem_of_mem_head? hhead
      rcases ih (if (k.tcb head).prio < p then (k.tcb head).prio else p) with heq | ⟨m', hm', t, ht, heq⟩
      · rw [heq]
        split
        · exact .inr ⟨m, mem_cons_self, head, hmem, rfl⟩
        · exact .inl rfl
      · exact .inr ⟨m', mem_cons_of_mem m hm', t, ht, heq⟩
    · rcases ih p with heq | ⟨m', hm', t, ht, heq⟩
      · exact .inl heq
      · exact .inr ⟨m', mem_cons_of_mem m hm', t, ht, heq⟩

theorem Owned.waitsOn_iff (h : Owned k) : WaitsOn k u t ↔ ∃ m ∈ (k.tcb t).mutexGrp, u ∈ k.pend.items m := by
  constructor
  · rintro ⟨m, hm, ho⟩
    exact ⟨m, (h.grp t m).mpr ho, (h.lists.mem_iff u m).mpr hm⟩
  · rintro ⟨m, hm, hu⟩
    exact ⟨m, (h.lists.mem_iff u m).mp hu, (h.grp t m).mp hm⟩

theorem min_grpHighest_isLeast (h : Owned k) (hsorted : PendSorted k) (hbase : (k.tcb t).basePrio ≤ p) :
    IsLeast (Candidates k t) (min (grpHighest k p (k.tcb t).mutexGrp) (k.tcb t).basePrio) := by
  constructor
  · rcases grpHighest_attained (k := k) p (k.tcb t).mutexGrp with heq | ⟨m, hm, w, hw, heq⟩
    · left
      rw [heq]
      omega
    · rcases Nat.le_total (grpHighest k p (k.tcb t).mutexGrp) (k.tcb t).basePrio with hle | hle
      · right
        rw [Nat.min_eq_left hle]
        exact ⟨w, h.waitsOn_iff.mpr ⟨m, hm, hw⟩, heq⟩
      · left
        exact Nat.min_eq_right hle
  · rintro q (rfl | ⟨w, hw, rfl⟩)
    · exact Nat.min_le_right _ _
    · obtain ⟨m, hm, hw⟩ := h.waitsOn_iff.mp hw
      exact (Nat.min_le_left _ _).trans (grpHighest_le_waiting hsorted hm hw p)

theorem prioOwn_isLeast (h : Owned k) (hsorted : PendSorted k) (hbase : (k.tcb t).basePrio ≤ c.osCfgPrioMax - 1) :
    IsLeast (Candidates k t) (prioOwn c k t) := by
  have hmin : prioOwn c k t = min (grpHighest k (c.osCfgPrioMax - 1) (k.tcb t).mutexGrp) (k.tcb t).basePrio := by
    unfold prioOwn os_MutexGrpPrioFindHighest
    dsimp only
    split <;> omega
  rw [hmin]
  exact min_grpHighest_isLeast h hsorted hbase

end

/-! ## One task changes its priority -/

/-- What a round of `OS_TaskChangePrio` does to its task. -/
def Kernel.settle (k : Kernel T M) (t : T) (prio : Nat) : Kernel T M :=
  match k.pend.container t with
  | none => k.setPrio t prio
  | some m => os_PendListChangePrio (k.setPrio t prio) m t

theorem Similar.settle (h : Owned k) (t : T) (p : Nat) : Similar k (k.settle t p) := by
  have hset := Similar.setPrio k t p
  unfold Kernel.settle
  split
  · exact hset
  · exact hset.trans (.changePrio (hset.lists h.lists) (by assumption))

theorem changePrio_tcb : (os_PendListChangePrio k m t).tcb = k.tcb := by
  unfold os_PendListChangePrio
  split <;> rfl

theorem prio_settle : ((k.settle t p).tcb u).prio = if u = t then p else (k.tcb u).prio := by
  have hset : ((k.setPrio t p).tcb u).prio = if u = t then p else (k.tcb u).prio := by
    rw [Kernel.setPrio, tcb_setTcb]
    split <;> rfl
  unfold Kernel.settle
  split
  · exact hset
  · rw [changePrio_tcb, hset]

/-- The ways a round of `OS_TaskChangePrio` can go. -/
inductive Round (c : Config) (fuel : Nat) (k : Kernel T M) (t : T) (p : Nat) (k' : Kernel T M) : Prop where
  | last (hnot : ∀ o, ¬WaitsOn k t o) (hk : k' = k.settle t p)
  | raises {o : T} (hwaits : WaitsOn k t o) (hup : p < (k.tcb t).prio) (hless : p < (k.tcb o).prio)
      (hgo : os_TaskChangePrio c fuel (k.settle t p) o p = .ok k')
  | raised {o : T} (hwaits : WaitsOn k t o) (hup : p < (k.tcb t).prio) (hmore : (k.tcb o).prio ≤ p)
      (hk : k' = k.settle t p)
  | lowers {o : T} (hwaits : WaitsOn k t o) (hdown : (k.tcb t).prio ≤ p) (heq : (k.tcb o).prio = (k.tcb t).prio)
      (hne : prioOwn c (k.settle t p) o ≠ (k.tcb o).prio)
      (hgo : os_TaskChangePrio c fuel (k.settle t p) o (prioOwn c (k.settle t p) o) = .ok k')
  | lowered {o : T} (hwaits : WaitsOn k t o) (hdown : (k.tcb t).prio ≤ p) (heq : (k.tcb o).prio = (k.tcb t).prio)
      (hown : prioOwn c (k.settle t p) o = (k.tcb o).prio) (hk : k' = k.settle t p)
  | strays {o : T} (hwaits : WaitsOn k t o) (hdown : (k.tcb t).prio ≤ p) (hne : (k.tcb o).prio ≠ (k.tcb t).prio)

theorem taskChangePrio_round (h : Owned k) (hcycle : Acyclic k) (halive : (k.tcb t).taskState ≠ .del)
    (hgo : os_TaskChangePrio c (fuel + 1) k t p = .ok k') : Round c fuel k t p k' := by
  have hnot (hnone : k.pend.container t = none) (o : T) : ¬WaitsOn k t o := by
    rintro ⟨m, hm, -⟩
    rw [hnone] at hm
    cases hm
  simp only [os_TaskChangePrio] at hgo
  cases hstate : (k.tcb t).taskState with
  | del => exact absurd hstate halive
  | rdy =>
    rw [hstate] at hgo
    cases hgo
    have hnone := h.listed.container_of_rdy hstate
    refine .last (hnot hnone) ?_
    rw [Kernel.settle, hnone]
  | pend timeout =>
    rw [hstate] at hgo
    cases hm : k.pend.container t with
    | none =>
      rw [show (k.setPrio t p).pend.container t = none from hm] at hgo
      cases hgo
      refine .last (hnot hm) ?_
      rw [Kernel.settle, hm]
    | some m =>
      rw [show (k.setPrio t p).pend.container t = some m from hm] at hgo
      have hsettle : os_PendListChangePrio (k.setPrio t p) m t = k.settle t p := by
        rw [Kernel.settle, hm]
      dsimp only at hgo
      rw [hsettle, (Similar.settle h t p).mutex] at hgo
      cases ho : (k.mutex m).ownerTCBPtr with
      | none =>
        rw [ho] at hgo
        cases hgo
      | some o =>
        have hwaits : WaitsOn k t o := ⟨m, hm, ho⟩
        have hprio : ((k.settle t p).tcb o).prio = (k.tcb o).prio := by
          rw [prio_settle, if_neg (hcycle.ne hwaits)]
        rw [ho] at hgo
        dsimp only at hgo
        rw [hprio] at hgo
        by_cases hup : (k.tcb t).prio > p
        · rw [if_pos hup] at hgo
          by_cases hmore : (k.tcb o).prio ≤ p
          · rw [if_pos hmore] at hgo
            cases hgo
            exact .raised hwaits hup hmore rfl
          · rw [if_neg hmore] at hgo
            exact .raises hwaits hup (Nat.lt_of_not_le hmore) hgo
        · rw [if_neg hup] at hgo
          have hdown := Nat.le_of_not_lt hup
          by_cases heq : (k.tcb o).prio = (k.tcb t).prio
          · rw [if_pos heq] at hgo
            by_cases hown : prioOwn c (k.settle t p) o = (k.tcb o).prio
            · rw [if_pos hown] at hgo
              cases hgo
              exact .lowered hwaits hdown heq hown rfl
            · rw [if_neg hown] at hgo
              exact .lowers hwaits hdown heq hown hgo
          · exact .strays hwaits hdown heq

theorem items_settle_of_ne (hm : k.pend.container t ≠ some m) : (k.settle t p).pend.items m = k.pend.items m := by
  unfold Kernel.settle
  split
  · rfl
  · rename_i m' hm'
    have hne : m ≠ m' := fun heq => hm (heq ▸ hm')
    unfold os_PendListChangePrio
    split
    · show (((k.pend.remove t).insert _ m' t).items m) = _
      rw [Lists.insert, items_put_of_ne _ hne, items_remove_of_ne hm]
    · rfl

theorem items_settle_self (hown : Owned k) (hm : k.pend.container t = some m) :
    (k.settle t p).pend.items m =
      insertBy (fun u => ((k.settle t p).tcb u).prio) t ((k.pend.items m).erase t) := by
  have ht : t ∈ k.pend.items m := (hown.lists.mem_iff t m).mpr hm
  have hsettle : k.settle t p = os_PendListChangePrio (k.setPrio t p) m t := by rw [Kernel.settle, hm]
  have hprio : (k.settle t p).tcb = (k.setPrio t p).tcb := by rw [hsettle, changePrio_tcb]
  rw [hprio, hsettle]
  unfold os_PendListChangePrio
  split
  · show (((k.pend.remove t).insert _ m t).items m) = _
    rw [Lists.insert, items_put_self, items_remove_self hm]
    rfl
  · rename_i hshort
    show k.pend.items m = _
    cases hl : k.pend.items m with
    | nil =>
      rw [hl] at ht
      cases ht
    | cons u l =>
      cases l with
      | nil =>
        rw [hl, mem_singleton] at ht
        rw [ht, erase_cons_head, insertBy]
      | cons w l => exact absurd hl (hshort u w l)

theorem PendSorted.settle (h : PendSorted k) (hown : Owned k) : PendSorted (k.settle t p) := by
  have hother (l : List T) (hl : t ∉ l) (hs : Sorted (fun u => (k.tcb u).prio) l) :
      Sorted (fun u => ((k.settle t p).tcb u).prio) l := by
    refine hs.congr fun u hu => ?_
    show ((k.settle t p).tcb u).prio = _
    rw [prio_settle, if_neg (by rintro rfl; exact hl hu)]
  intro m
  by_cases hm : k.pend.container t = some m
  · rw [items_settle_self hown hm]
    refine insertBy_sorted (hother _ (fun ht => ?_) ((h m).sublist erase_sublist))
    exact ((hown.lists.nodup m).mem_erase_iff.mp ht).1 rfl
  · rw [items_settle_of_ne hm]
    exact hother _ (fun ht => hm ((hown.lists.mem_iff t m).mp ht)) (h m)

theorem candidates_settle (hown : Owned k) (hnot : ¬WaitsOn k t u) : Candidates (k.settle t p) u = Candidates k u := by
  have hs := Similar.settle hown t p
  ext q
  have hw (w : T) : WaitsOn (k.settle t p) w u ∧ q = ((k.settle t p).tcb w).prio ↔ WaitsOn k w u ∧ q = (k.tcb w).prio := by
    rw [hs.waitsOn, prio_settle]
    constructor
    · rintro ⟨hw, hq⟩
      rw [if_neg (by rintro rfl; exact hnot hw)] at hq
      exact ⟨hw, hq⟩
    · rintro ⟨hw, hq⟩
      rw [if_neg (by rintro rfl; exact hnot hw)]
      exact ⟨hw, hq⟩
  simp only [Candidates, Set.mem_ofPred_eq, hs.base, hw]

theorem mem_candidates_settle (hown : Owned k) (hwaits : WaitsOn k t o) {q : Nat} :
    q ∈ Candidates (k.settle t p) o ↔
      q = (k.tcb o).basePrio ∨ q = p ∨ ∃ w, w ≠ t ∧ WaitsOn k w o ∧ q = (k.tcb w).prio := by
  have hs := Similar.settle hown t p
  simp only [Candidates, Set.mem_ofPred_eq, hs.base, hs.waitsOn, prio_settle]
  refine or_congr_right ⟨?_, ?_⟩
  · rintro ⟨w, hw, hq⟩
    split at hq
    · exact .inl hq
    · rename_i hwt
      exact .inr ⟨w, hwt, hw, hq⟩
  · rintro (rfl | ⟨w, hwt, hw, hq⟩)
    · exact ⟨t, hwaits, (if_pos rfl).symm⟩
    · exact ⟨w, hw, by rw [if_neg hwt]; exact hq⟩

/-- Every task but one has the priority it should have; some may be entitled to more. -/
def ExactBut (x : T → Set Nat) (k : Kernel T M) (t : T) : Prop :=
  ∀ u, u ≠ t → IsLeast (Candidates k u ∪ x u) (k.tcb u).prio

/-- Every task has the priority it should have, and every pend list is in order. -/
structure Exact (x : T → Set Nat) (k : Kernel T M) : Prop where
  sorted : PendSorted k
  least : ∀ u, IsLeast (Candidates k u ∪ x u) (k.tcb u).prio

variable {x : T → Set Nat}

theorem ExactBut.settle (h : ExactBut x k t) (hown : Owned k) (hwaits : WaitsOn k t o)
    (hnew : IsLeast (Candidates k t ∪ x t) p) : ExactBut x (k.settle t p) o := by
  intro u huo
  have hnot : ¬WaitsOn k t u := fun hu => huo (hwaits.unique hu)
  rw [candidates_settle hown hnot, prio_settle]
  by_cases hut : u = t
  · rw [if_pos hut, hut]
    exact hnew
  · rw [if_neg hut]
    exact h u hut

omit dM in
theorem ExactBut.exact (h : ExactBut x k t) (hsorted : PendSorted k)
    (ht : IsLeast (Candidates k t ∪ x t) (k.tcb t).prio) : Exact x k := by
  refine ⟨hsorted, fun u => ?_⟩
  by_cases hut : u = t
  · rw [hut]
    exact ht
  · exact h u hut

theorem ExactBut.last (h : ExactBut x k t) (hown : Owned k) (hsorted : PendSorted k) (hnot : ∀ o, ¬WaitsOn k t o)
    (hnew : IsLeast (Candidates k t ∪ x t) p) : Exact x (k.settle t p) := by
  refine ⟨hsorted.settle hown, fun u => ?_⟩
  rw [candidates_settle hown (hnot u), prio_settle]
  by_cases hut : u = t
  · rw [if_pos hut, hut]
    exact hnew
  · rw [if_neg hut]
    exact h u hut

theorem Acyclic.settle (h : Acyclic k) (hown : Owned k) : Acyclic (k.settle t p) :=
  h.mono fun _ _ => (Similar.settle hown t p).waitsOn.mp

omit dT dM in
theorem WaitsOn.alive (hown : Owned k) (h : WaitsOn k t o) : (k.tcb o).taskState ≠ .del := by
  obtain ⟨m, -, ho⟩ := h
  exact hown.alive m o ho

/-- **Raising** goes on to every owner that is less urgent. -/
theorem raise_exact (hown : Owned k) (hcycle : Acyclic k) (halive : (k.tcb t).taskState ≠ .del)
    (hsorted : PendSorted k) (hbut : ExactBut x k t) (hnew : IsLeast (Candidates k t ∪ x t) p)
    (hup : p < (k.tcb t).prio) (hgo : os_TaskChangePrio c fuel k t p = .ok k') : Exact x k' := by
  induction fuel generalizing k t with
  | zero => cases hgo
  | succ fuel ih =>
    cases taskChangePrio_round hown hcycle halive hgo with
    | last hnot hk =>
      rw [hk]
      exact hbut.last hown hsorted hnot hnew
    | @raises o hwaits _ hless hgo =>
      have hot := hcycle.ne hwaits
      have hprio : ((k.settle t p).tcb o).prio = (k.tcb o).prio := by rw [prio_settle, if_neg hot]
      refine ih (hown.similar (.settle hown t p)) (hcycle.settle hown) ?_ (hsorted.settle hown)
        (hbut.settle hown hwaits hnew) ⟨?_, ?_⟩ (by rw [hprio]; exact hless) hgo
      · rw [(Similar.settle hown t p).state]
        exact hwaits.alive hown
      · exact .inl ((mem_candidates_settle hown hwaits).mpr (.inr (.inl rfl)))
      · have hleast := (hbut o hot).2
        rintro q (hq | hq)
        · obtain rfl | rfl | ⟨w, -, hw, rfl⟩ := (mem_candidates_settle hown hwaits).mp hq
          · exact hless.le.trans (hleast (.inl (.inl rfl)))
          · exact le_refl _
          · exact hless.le.trans (hleast (.inl (.inr ⟨w, hw, rfl⟩)))
        · exact hless.le.trans (hleast (.inr hq))
    | @raised o hwaits _ hmore hk =>
      have hot := hcycle.ne hwaits
      have hprio : ((k.settle t p).tcb o).prio = (k.tcb o).prio := by rw [prio_settle, if_neg hot]
      rw [hk]
      refine (hbut.settle hown hwaits hnew).exact (hsorted.settle hown) ?_
      rw [hprio]
      obtain ⟨hmem, hleast⟩ := hbut o hot
      constructor
      · obtain (hq | ⟨w, hw, hq⟩) | hq := hmem
        · exact .inl ((mem_candidates_settle hown hwaits).mpr (.inl hq))
        · refine .inl ((mem_candidates_settle hown hwaits).mpr (.inr (.inr ⟨w, ?_, hw, hq⟩)))
          rintro rfl
          omega
        · exact .inr hq
      · rintro q (hq | hq)
        · obtain rfl | rfl | ⟨w, -, hw, rfl⟩ := (mem_candidates_settle hown hwaits).mp hq
          · exact hleast (.inl (.inl rfl))
          · exact hmore
          · exact hleast (.inl (.inr ⟨w, hw, rfl⟩))
        · exact hleast (.inr hq)
    | lowers _ hdown => omega
    | lowered _ hdown => omega
    | strays _ hdown => omega

theorem raise_frame (hown : Owned k) (hcycle : Acyclic k) (halive : (k.tcb t).taskState ≠ .del)
    (hup : p < (k.tcb t).prio) (hu : (k.tcb u).prio ≤ p) (hgo : os_TaskChangePrio c fuel k t p = .ok k') :
    (k'.tcb u).prio = (k.tcb u).prio := by
  induction fuel generalizing k t with
  | zero => cases hgo
  | succ fuel ih =>
    have hprio : ((k.settle t p).tcb u).prio = (k.tcb u).prio := by
      rw [prio_settle, if_neg]
      rintro rfl
      omega
    cases taskChangePrio_round hown hcycle halive hgo with
    | last hnot hk => rw [hk, hprio]
    | @raises o hwaits _ hless hgo =>
      rw [← hprio]
      refine ih (hown.similar (.settle hown t p)) (hcycle.settle hown) ?_ ?_ (by rw [hprio]; exact hu) hgo
      · rw [(Similar.settle hown t p).state]
        exact hwaits.alive hown
      · rw [prio_settle, if_neg (hcycle.ne hwaits)]
        exact hless
    | raised _ _ _ hk => rw [hk, hprio]
    | lowers _ hdown => omega
    | lowered _ hdown => omega
    | strays _ hdown => omega

/-! ## Lowering -/

omit dT dM in
theorem Lowers.congr {n : Nat} {y : T} (h : Lowers k n y) (hback : ∀ y z, WaitsOn k' y z → WaitsOn k y z)
    (hwaits : ∀ y z, y ≠ s → WaitsOn k y z → WaitsOn k' y z) (hprio : ∀ y, y ≠ s → (k'.tcb y).prio = (k.tcb y).prio)
    (hbase : ∀ y, y ≠ s → (k'.tcb y).basePrio = (k.tcb y).basePrio) (hoff : ¬ReflTransGen (WaitsOn k) y s)
    (hapart : ∀ z z', ReflTransGen (WaitsOn k) y z → WaitsOn k z z' → ¬WaitsOn k s z') : Lowers k' n y := by
  induction n generalizing y with
  | zero => exact h
  | succ n ih =>
    intro o ho
    have hw := hback y o ho
    obtain ⟨heq, hkeep⟩ := h o hw
    have hys : y ≠ s := by
      rintro rfl
      exact hoff .refl
    have hos : o ≠ s := by
      rintro rfl
      exact hoff (.single hw)
    rw [hprio o hos, hprio y hys, hbase o hos]
    refine ⟨heq, hkeep.imp id (Or.imp ?_ fun hnext => ih hnext (fun hs => hoff (.head hw hs)) ?_)⟩
    · rintro ⟨w, hwy, hwo, hw'⟩
      have hws : w ≠ s := by
        rintro rfl
        exact hapart y o .refl hw hwo
      exact ⟨w, hwy, hwaits w o hws hwo, by rw [hprio w hws, hw']⟩
    · exact fun z z' hz => hapart z z' (.head hw hz)

omit dT dM in
theorem Lowers.owner {n : Nat} (h : Lowers k n o) (hcycle : Acyclic k) (hw : WaitsOn k t o)
    (hback : ∀ y z, WaitsOn k' y z → WaitsOn k y z) (hwaits : ∀ y z, y ≠ t → WaitsOn k y z → WaitsOn k' y z)
    (hprio : ∀ y, y ≠ t → (k'.tcb y).prio = (k.tcb y).prio)
    (hbase : ∀ y, y ≠ t → (k'.tcb y).basePrio = (k.tcb y).basePrio) : Lowers k' n o := by
  refine h.congr hback hwaits hprio hbase (fun ht => ?_) fun z z' hz hz' ht => ?_
  · exact hcycle t (TransGen.head' hw ht)
  · rw [hw.unique ht] at hz'
    exact hcycle o (TransGen.tail' hz hz')

/-- A task is lowered, or set to the priority it has. -/
def Descends (k : Kernel T M) (t : T) (p : Nat) : Prop :=
  (∃ n, Lowers k n t) ∨ p = (k.tcb t).prio ∧ ∀ o, WaitsOn k t o → (k.tcb o).prio = (k.tcb t).prio

theorem prio_le_candidate (hown : Owned k) (hleast : IsLeast (Candidates k o) (k.tcb o).prio) (hwaits : WaitsOn k t o)
    (hdown : (k.tcb t).prio ≤ p) {q : Nat} (hq : q ∈ Candidates (k.settle t p) o) : (k.tcb o).prio ≤ q := by
  obtain rfl | rfl | ⟨w, -, hw, rfl⟩ := (mem_candidates_settle hown hwaits).mp hq
  · exact hleast.2 (.inl rfl)
  · exact (hleast.2 (.inr ⟨t, hwaits, rfl⟩)).trans hdown
  · exact hleast.2 (.inr ⟨w, hw, rfl⟩)

/-- **Lowering** goes on to every owner that has no other reason for its priority. -/
theorem lower_exact (hown : Owned k) (hcycle : Acyclic k) (halive : (k.tcb t).taskState ≠ .del)
    (hsorted : PendSorted k) (hbase : ∀ u, (k.tcb u).basePrio ≤ c.osCfgPrioMax - 1)
    (hbut : ExactBut (fun _ => ∅) k t) (hnew : IsLeast (Candidates k t ∪ ∅) p) (hdown : (k.tcb t).prio ≤ p)
    (hdesc : Descends k t p) (hgo : os_TaskChangePrio c fuel k t p = .ok k') : Exact (fun _ => ∅) k' := by
  induction fuel generalizing k t p with
  | zero => cases hgo
  | succ fuel ih =>
    have hs := Similar.settle hown t p
    have hown' := hown.similar hs
    have hsorted' := hsorted.settle (t := t) (p := p) hown
    have hbase' (u : T) : ((k.settle t p).tcb u).basePrio ≤ c.osCfgPrioMax - 1 := by
      rw [hs.base]
      exact hbase u
    cases taskChangePrio_round hown hcycle halive hgo with
    | last hnot hk =>
      rw [hk]
      exact hbut.last hown hsorted hnot hnew
    | raises _ hup => omega
    | raised _ hup => omega
    | @lowered o hwaits _ heq hkeeps hk =>
      have hprio : ((k.settle t p).tcb o).prio = (k.tcb o).prio := by rw [prio_settle, if_neg (hcycle.ne hwaits)]
      rw [hk]
      refine (hbut.settle hown hwaits hnew).exact hsorted' ?_
      rw [hprio, ← hkeeps, Set.union_empty]
      exact prioOwn_isLeast hown' hsorted' (hbase' o)
    | @lowers o hwaits _ heq hne hgo =>
      have hot := hcycle.ne hwaits
      have hprio : ((k.settle t p).tcb o).prio = (k.tcb o).prio := by rw [prio_settle, if_neg hot]
      have hleast : IsLeast (Candidates k o) (k.tcb o).prio := by
        have := hbut o hot
        rwa [Set.union_empty] at this
      have hnext := prioOwn_isLeast hown' hsorted' (hbase' o)
      have hle := prio_le_candidate hown hleast hwaits hdown hnext.1
      refine ih hown' (hcycle.settle hown) ?_ hsorted' hbase' (hbut.settle hown hwaits hnew)
        (by rw [Set.union_empty]; exact hnext) (by rw [hprio]; exact hle) ?_ hgo
      · rw [hs.state]
        exact hwaits.alive hown
      · obtain ⟨n, hlow⟩ | ⟨hsame, -⟩ := hdesc
        · cases n with
          | zero => exact hlow.elim
          | succ n =>
            have hkept (hmem : (k.tcb o).prio ∈ Candidates (k.settle t p) o) : Descends (k.settle t p) o
                (prioOwn c (k.settle t p) o) := absurd (le_antisymm (hnext.2 hmem) hle) hne
            obtain ⟨-, hkeep | ⟨w, hwt, hw, hkeep⟩ | hlow⟩ := hlow o hwaits
            · exact hkept ((mem_candidates_settle hown hwaits).mpr (.inl hkeep.symm))
            · exact hkept ((mem_candidates_settle hown hwaits).mpr (.inr (.inr ⟨w, hwt, hw, hkeep.symm⟩)))
            · refine .inl ⟨n, hlow.owner hcycle hwaits (fun y z => hs.waitsOn.mp) (fun y z _ => hs.waitsOn.mpr)
                (fun y hy => ?_) fun y _ => hs.base y⟩
              rw [prio_settle, if_neg hy]
        · refine absurd (le_antisymm (hnext.2 ((mem_candidates_settle hown hwaits).mpr ?_)) hle) hne
          exact .inr (.inl (by rw [hsame, heq]))
    | @strays o hwaits _ hne =>
      obtain ⟨n, hlow⟩ | ⟨-, heq⟩ := hdesc
      · cases n with
        | zero => exact hlow.elim
        | succ n => exact absurd (hlow o hwaits).1 hne
      · exact absurd (heq o hwaits) hne

end RtosKernel.Ucos.Mutexes
