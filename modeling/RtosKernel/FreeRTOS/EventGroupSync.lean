import RtosKernel.FreeRTOS.EventGroupBits

/-! # `xEventGroupSync` is a reusable barrier

The bits that are set are those of the tasks that have arrived in the round, and the task that completes the
round releases the others and leaves none of the bits. -/
namespace RtosKernel.FreeRTOS.EventGroups
open Lib.BitSet FreeRTOS.Def List Function Option

variable {Tid : Type} [dT : DecidableEq Tid] {n : Nat}

/-- Tasks that meet: each has bits of its own, and `w` are the bits of all. -/
structure Rendezvous (tasks : List Tid) (own : Tid → EventBits n) (w : EventBits n) : Prop where
  nonempty : tasks ≠ []
  own_ne : ∀ t ∈ tasks, own t ≠ 0#_
  disjoint : ∀ t ∈ tasks, ∀ u ∈ tasks, t ≠ u → own t &&& own u = 0#_
  union : ∀ i, w.getLsbD i = true ↔ ∃ t ∈ tasks, (own t).getLsbD i = true

/-- The tasks call `xEventGroupSync` with their bits and wait without a timeout, and nobody else
uses the bits. -/
def Allowed (tasks : List Tid) (own : Tid → EventBits n) (w : EventBits n) : Event Tid n → Prop
  | .setBits s => s &&& w = 0#_
  | .clearBits s => s &&& w = 0#_
  | .waitBits t v _ => t ∉ tasks ∧ v.uxBitsToWaitFor &&& w = 0#_
  | .sync t s v d => if t ∈ tasks then s = own t ∧ v = w ∧ d ≠ 0 else s &&& w = 0#_ ∧ v &&& w = 0#_
  | .timeout t => t ∉ tasks
  | .finish _ _ => True

/-- The calls of `xEventGroupSync` that a task has made. -/
def calls (t : Tid) (es : List (Event Tid n)) : Nat := es.countP fun e => match e with
  | .sync u _ _ _ => u = t
  | _ => false

/-- The calls that a task has returned from. -/
def returns (t : Tid) (rets : List (Tid × EventBits n)) : Nat := rets.countP fun r => r.1 = t

/-- Where a task is in round `r`, having made `m` calls and returned from `k`. -/
inductive Phase (w : EventBits n) (g : EventGroup Tid n) (t : Tid) (r m k : Nat) : Prop where
  | arrived (hmem : t ∈ g.xTasksWaitingForBits) (hm : m = r + 1) (hk : k = r)
  /-- the round is over, but it has not run yet -/
  | released (hmem : t ∉ g.xTasksWaitingForBits) (hwaits : g.waits t ≠ none) (hvalue : ∃ value, Plain value ∧
      g.item t = released value ∧ value &&& w = w) (hm : m = r) (hk : k + 1 = r)
  | idle (hmem : t ∉ g.xTasksWaitingForBits) (hwaits : g.waits t = none) (hm : m = r) (hk : k = r)

/-- Round `r` is under way. -/
structure Round (tasks : List Tid) (own : Tid → EventBits n) (w : EventBits n) (g : EventGroup Tid n) (r : Nat)
    (made ret : Tid → Nat) : Prop where
  inv : Inv g
  foreign : ∀ t, t ∉ tasks → ∀ v, g.waits t = some v → v.uxBitsToWaitFor &&& w = 0#_
  mine : ∀ t ∈ tasks, ∀ v, g.waits t = some v → v = ⟨w, true, true⟩
  phase : ∀ t ∈ tasks, Phase w g t r (made t) (ret t)
  bits : ∀ i, w.getLsbD i = true →
    (g.uxEventBits.getLsbD i = true ↔ ∃ t ∈ tasks, t ∈ g.xTasksWaitingForBits ∧ (own t).getLsbD i = true)
  missing : ∃ t ∈ tasks, t ∉ g.xTasksWaitingForBits

section Steps
variable {tasks : List Tid} {own : Tid → EventBits n} {w : EventBits n} {g g' : EventGroup Tid n} {r : Nat}
  {made ret : Tid → Nat}

variable {t : Tid}

section
omit dT

theorem Rendezvous.own_sub (hR : Rendezvous tasks own w) (ht : t ∈ tasks) {i : Nat}
    (hi : (own t).getLsbD i = true) : w.getLsbD i = true := (hR.union i).mpr ⟨t, ht, hi⟩

theorem Round.not_all (h : Round tasks own w g r made ret) (hR : Rendezvous tasks own w) (ht : t ∈ tasks)
    (hmiss : t ∉ g.xTasksWaitingForBits) {value : EventBits n}
    (hvalue : ∀ i, w.getLsbD i = true → (own t).getLsbD i = true → value.getLsbD i = true →
      g.uxEventBits.getLsbD i = true) : ¬ Met true w value := by
  intro hmet
  obtain ⟨i, hi⟩ : ∃ i, (own t).getLsbD i = true := by
    by_contra hno
    exact hR.own_ne t ht (eq_zero_iff.mpr fun i => by simpa using fun hi => hno ⟨i, hi⟩)
  have hw := hR.own_sub ht hi
  obtain ⟨u, hu, humem, hui⟩ := (h.bits i hw).mp (hvalue i hw hi (met_true.mp hmet i hw))
  have hne : u ≠ t := fun he => hmiss (he ▸ humem)
  have := and_eq_zero_iff.mp (hR.disjoint u hu t ht hne) i hi
  rw [hui] at this
  cases this

theorem Round.elsewhere (h : Round tasks own w g r made ret) (hinv : Inv g')
    (hmem : ∀ t ∈ tasks, t ∈ g'.xTasksWaitingForBits ↔ t ∈ g.xTasksWaitingForBits)
    (hwaits : ∀ t ∈ tasks, g'.waits t = g.waits t)
    (hitem : ∀ t ∈ tasks, t ∉ g.xTasksWaitingForBits → g.waits t ≠ none → g'.item t = g.item t)
    (hforeign : ∀ t, t ∉ tasks → ∀ v, g'.waits t = some v → v.uxBitsToWaitFor &&& w = 0#_)
    (hbits : ∀ i, w.getLsbD i = true → g'.uxEventBits.getLsbD i = g.uxEventBits.getLsbD i) :
    Round tasks own w g' r made ret where
  inv := hinv
  foreign := hforeign
  mine t ht v hv := h.mine t ht v (hwaits t ht ▸ hv)
  phase t ht := by
    cases h.phase t ht with
    | arrived hm hmade hret => exact .arrived ((hmem t ht).mpr hm) hmade hret
    | released hm hw hv hmade hret =>
      refine .released (fun hm' => hm ((hmem t ht).mp hm')) (by rw [hwaits t ht]; exact hw) ?_ hmade hret
      rw [hitem t ht hm hw]
      exact hv
    | idle hm hw hmade hret =>
      exact .idle (fun hm' => hm ((hmem t ht).mp hm')) (by rw [hwaits t ht]; exact hw) hmade hret
  bits i hi := by
    rw [hbits i hi, h.bits i hi]
    exact exists_congr fun t => and_congr_right fun ht => and_congr_left fun _ => (hmem t ht).symm
  missing := by
    obtain ⟨t, ht, hm⟩ := h.missing
    exact ⟨t, ht, fun hm' => hm ((hmem t ht).mp hm')⟩

end

theorem foreign_bit {s : EventBits n} (hs : s &&& w = 0#_) {i : Nat} (hi : w.getLsbD i = true) : s.getLsbD i = false :=
  and_eq_zero_iff.mp hs i hi

section
variable (h : Round tasks own w g r made ret)
include h

theorem Round.setBits (hR : Rendezvous tasks own w) {s : EventBits n}
    (hs : s &&& w = 0#_) (hplain : Plain s) (hset : SetsBits g (g.uxEventBits ||| s) g') :
    Round tasks own w g' r made ret := by
  have hvalue : ∀ i, w.getLsbD i = true → (g.uxEventBits ||| s).getLsbD i = g.uxEventBits.getLsbD i := fun i hi => by
    rw [BitVec.getLsbD_or, foreign_bit hs hi, Bool.or_false]
  obtain ⟨u, hu, humiss⟩ := h.missing
  have hall : ¬ Met true w (g.uxEventBits ||| s) := h.not_all hR hu humiss fun i hi _ hv => hvalue i hi ▸ hv
  have hnot : ∀ t ∈ tasks, ∀ v, g.waits t = some v → ¬ v.MetBy (g.uxEventBits ||| s) := fun t ht v hv => by
    rw [h.mine t ht v hv]
    exact hall
  refine h.elsewhere (hset.inv h.inv hplain) (fun t ht => ⟨hset.sub t, fun hm => ?_⟩) (fun t _ => by rw [hset.waits])
    (fun t ht hm _ => hset.item_other t fun hm' => absurd hm' hm) (fun t ht v hv => h.foreign t ht v (hset.waits ▸ hv))
    fun i hi => Bool.eq_iff_iff.mpr ?_
  · obtain ⟨v, hv, _⟩ := h.inv.waiting t hm
    exact (hset.mem t v hv).mpr ⟨hm, hnot t ht v hv⟩
  · rw [hset.bits, hvalue i hi, and_iff_left]
    rintro ⟨t, ht, v, hv, hmet, _, hb⟩
    by_cases htask : t ∈ tasks
    · exact hnot t htask v hv hmet
    · rw [foreign_bit (h.foreign t htask v hv) hi] at hb
      cases hb

omit dT in
theorem Round.clear {s : EventBits n} (hs : s &&& w = 0#_) :
    Round tasks own w { g with uxEventBits := g.uxEventBits &&& ~~~s } r made ret := by
  refine h.elsewhere (h.inv.clear s) (fun _ _ => Iff.rfl) (fun _ _ => rfl) (fun _ _ _ _ => rfl) h.foreign fun i hi => ?_
  rw [getLsbD_andNot, foreign_bit hs hi]
  simp

theorem Round.blockOther (ht : t ∉ tasks) (hnone : g.waits t = none)
    {v : Wait n} (hok : v.Ok) (hv : v.uxBitsToWaitFor &&& w = 0#_) (hnot : ¬ v.MetBy g.uxEventBits) :
    Round tasks own w (block g t v) r made ret := by
  have hne : ∀ u ∈ tasks, u ≠ t := fun u hu he => ht (he ▸ hu)
  refine h.elsewhere (h.inv.block hnone hok hnot) (fun u hu => ?_) (fun u hu => update_of_ne (hne u hu) _ _)
    (fun u hu _ _ => update_of_ne (hne u hu) _ _) (fun u hu v' hv' => ?_) fun _ _ => rfl
  · show u ∈ g.xTasksWaitingForBits ++ [t] ↔ _
    simp [hne u hu]
  · by_cases hut : u = t
    · subst hut
      have hself : (block g u v).waits u = some v := update_self ..
      rw [hself] at hv'
      cases hv'
      exact hv
    · exact h.foreign u hu v' ((update_of_ne hut _ _).symm.trans hv')

omit dT in
theorem Round.idle_of_none (ht : t ∈ tasks) (hnone : g.waits t = none) : made t = r ∧ ret t = r := by
  cases h.phase t ht with
  | arrived hm _ _ =>
    obtain ⟨v, hv, _⟩ := h.inv.waiting t hm
    rw [hnone] at hv
    cases hv
  | released _ hw _ _ _ => exact absurd hnone hw
  | idle _ _ hmade hret => exact ⟨hmade, hret⟩

theorem Round.arrive (hR : Rendezvous tasks own w) (ht : t ∈ tasks)
    (hnone : g.waits t = none) (hok : (⟨w, true, true⟩ : Wait n).Ok) (hplain : Plain (own t))
    (hset : SetsBits g (g.uxEventBits ||| own t) g') {u : Tid} (hu : u ∈ tasks) (hut : u ≠ t)
    (hmiss : u ∉ g.xTasksWaitingForBits) :
    ¬ Met true w (g.uxEventBits ||| own t) ∧
      Round tasks own w (block g' t ⟨w, true, true⟩) r (update made t (made t + 1)) ret := by
  obtain ⟨hmade, hret⟩ := h.idle_of_none ht hnone
  have hall : ¬ Met true w (g.uxEventBits ||| own t) := h.not_all hR hu hmiss fun i _ hi hv => by
    rw [BitVec.getLsbD_or, and_eq_zero_iff.mp (hR.disjoint t ht u hu (Ne.symm hut)) i hi, Bool.or_false] at hv
    exact hv
  -- nobody is released: the conditions of the tasks are not met, and the others wait for other bits
  have hnot : ∀ x ∈ g.xTasksWaitingForBits, ∀ v, g.waits x = some v → ¬ v.MetBy (g.uxEventBits ||| own t) := by
    intro x hx v hv hmet
    by_cases hxt : x ∈ tasks
    · rw [h.mine x hxt v hv] at hmet
      exact hall hmet
    · obtain ⟨v', hv', _, _, hno⟩ := h.inv.waiting x hx
      cases hv'.symm.trans hv
      refine hno (hmet.mono fun i hi hb => ?_)
      have hw : ¬ w.getLsbD i = true := fun hw => by
        rw [foreign_bit (h.foreign x hxt v hv) hw] at hi
        cases hi
      have hown : (own t).getLsbD i = false := by
        rw [← Bool.not_eq_true]
        exact fun ho => hw (hR.own_sub ht ho)
      rw [BitVec.getLsbD_or, hown, Bool.or_false] at hb
      exact hb
  have hmem : ∀ x, x ∈ g'.xTasksWaitingForBits ↔ x ∈ g.xTasksWaitingForBits := fun x =>
    ⟨hset.sub x, fun hx => by
      obtain ⟨v, hv, _⟩ := h.inv.waiting x hx
      exact (hset.mem x v hv).mpr ⟨hx, hnot x hx v hv⟩⟩
  have hbits : ∀ i, g'.uxEventBits.getLsbD i = true ↔ (g.uxEventBits ||| own t).getLsbD i = true := fun i => by
    rw [hset.bits, and_iff_left]
    rintro ⟨x, hx, v, hv, hmet, _⟩
    exact hnot x hx v hv hmet
  have hinv' := hset.inv h.inv hplain
  have hnone' : g'.waits t = none := hset.waits ▸ hnone
  have hlist : ∀ x, x ∈ (block g' t ⟨w, true, true⟩).xTasksWaitingForBits ↔ x ∈ g.xTasksWaitingForBits ∨ x = t := by
    intro x
    show x ∈ g'.xTasksWaitingForBits ++ [t] ↔ _
    rw [mem_append, hmem, mem_singleton]
  refine ⟨hall, hinv'.block hnone' hok fun hmet => hall (hmet.mono fun i _ hi => (hbits i).mp hi), fun x hx v hv => ?_,
    fun x hx v hv => ?_, fun x hx => ?_, fun i hi => ?_, ⟨u, hu, fun hm => ?_⟩⟩
  · have hxt : x ≠ t := fun he => hx (he ▸ ht)
    have hv := (update_of_ne hxt _ _).symm.trans hv
    exact h.foreign x hx v (hset.waits ▸ hv)
  · by_cases hxt : x = t
    · subst hxt
      have hself : (block g' x ⟨w, true, true⟩).waits x = some ⟨w, true, true⟩ := update_self ..
      rw [hself] at hv
      cases hv
      rfl
    · have hv := (update_of_ne hxt _ _).symm.trans hv
      exact h.mine x hx v (hset.waits ▸ hv)
  · by_cases hxt : x = t
    · subst hxt
      exact .arrived ((hlist x).mpr (.inr rfl)) (by rw [update_self, hmade]) hret
    · rw [update_of_ne hxt]
      have hnot' : x ∉ g.xTasksWaitingForBits → x ∉ (block g' t ⟨w, true, true⟩).xTasksWaitingForBits :=
        fun hm hm' => hm (((hlist x).mp hm').resolve_right hxt)
      have hw' : (block g' t ⟨w, true, true⟩).waits x = g.waits x := (update_of_ne hxt _ _).trans (by rw [hset.waits])
      cases h.phase x hx with
      | arrived hm hmade hret => exact .arrived ((hlist x).mpr (.inl hm)) hmade hret
      | released hm hw hv hmade hret =>
        refine .released (hnot' hm) (by rw [hw']; exact hw) ?_ hmade hret
        have hi : (block g' t ⟨w, true, true⟩).item x = g.item x :=
          (update_of_ne hxt _ _).trans (hset.item_other x fun hm' => absurd hm' hm)
        rw [hi]
        exact hv
      | idle hm hw hmade hret => exact .idle (hnot' hm) (by rw [hw']; exact hw) hmade hret
  · show g'.uxEventBits.getLsbD i = true ↔ _
    rw [hbits, BitVec.getLsbD_or, Bool.or_eq_true, h.bits i hi]
    constructor
    · rintro (⟨x, hx, hxm, hb⟩ | hb)
      · exact ⟨x, hx, (hlist x).mpr (.inl hxm), hb⟩
      · exact ⟨t, ht, (hlist t).mpr (.inr rfl), hb⟩
    · rintro ⟨x, hx, hxm, hb⟩
      rcases (hlist x).mp hxm with hxm | rfl
      · exact .inl ⟨x, hx, hxm, hb⟩
      · exact .inr hb
  · rcases (hlist u).mp hm with hm | hm
    · exact hmiss hm
    · exact hut hm

theorem Round.complete (hR : Rendezvous tasks own w) (ht : t ∈ tasks)
    (hnone : g.waits t = none) (hplain : Plain (own t)) (hset : SetsBits g (g.uxEventBits ||| own t) g')
    (hall : ∀ u ∈ tasks, u ≠ t → u ∈ g.xTasksWaitingForBits) :
    (g.uxEventBits ||| own t) &&& w = w ∧
      Round tasks own w { g' with uxEventBits := g'.uxEventBits &&& ~~~w } (r + 1) (update made t (made t + 1))
        (update ret t (ret t + 1)) := by
  obtain ⟨hmade, hret⟩ := h.idle_of_none ht hnone
  have hmet : Met true w (g.uxEventBits ||| own t) := met_true.mpr fun i hi => by
    rw [BitVec.getLsbD_or, Bool.or_eq_true]
    obtain ⟨u, hu, hb⟩ := (hR.union i).mp hi
    by_cases hut : u = t
    · exact .inr (hut ▸ hb)
    · exact .inl ((h.bits i hi).mpr ⟨u, hu, hall u hu hut, hb⟩)
  have hout : ∀ x ∈ tasks, x ∉ g'.xTasksWaitingForBits := by
    intro x hx hm
    have hm0 := hset.sub x hm
    obtain ⟨v, hv, _⟩ := h.inv.waiting x hm0
    have hno := ((hset.mem x v hv).mp hm).2
    rw [h.mine x hx v hv] at hno
    exact hno hmet
  have hinv' := hset.inv h.inv hplain
  refine ⟨by simpa [Met] using hmet, hinv'.clear w, fun x hx v hv => h.foreign x hx v (hset.waits ▸ hv),
    fun x hx v hv => h.mine x hx v (hset.waits ▸ hv), fun x hx => ?_, fun i hi => ?_, ⟨t, ht, hout t ht⟩⟩
  · by_cases hxt : x = t
    · subst hxt
      rw [update_self, update_self, hmade, hret]
      exact .idle (hout x hx) (hset.waits ▸ hnone) rfl rfl
    · rw [update_of_ne hxt, update_of_ne hxt]
      have hxm := hall x hx hxt
      obtain ⟨v, hv, _⟩ := h.inv.waiting x hxm
      have hvmet : v.MetBy (g.uxEventBits ||| own t) := by
        rw [h.mine x hx v hv]
        exact hmet
      cases h.phase x hx with
      | arrived _ hmade hret =>
        refine .released (hout x hx) ?_ ⟨g.uxEventBits ||| own t, h.inv.plain.or hplain, ?_, ?_⟩ hmade (by rw [hret])
        · show g'.waits x ≠ none
          rw [hset.waits, hv]
          simp
        · exact hset.item_met x hxm v hv hvmet
        · simpa [Met] using hmet
      | released hm _ _ _ _ => exact absurd hxm hm
      | idle hm _ _ _ => exact absurd hxm hm
  · show (g'.uxEventBits &&& ~~~w).getLsbD i = true ↔ _
    rw [getLsbD_andNot, hi]
    simp only [Bool.not_true, Bool.and_false, Bool.false_eq_true, false_iff]
    rintro ⟨x, hx, hxm, _⟩
    exact hout x hx hxm

end

def bump (f : Tid → Nat) (o : Option Tid) : Tid → Nat := fun t => f t + if o = some t then 1 else 0

theorem bump_some (f : Tid → Nat) (t : Tid) : bump f (some t) = update f t (f t + 1) := by
  funext x
  by_cases hx : x = t
  · subst hx; simp [bump]
  · rw [update_of_ne hx, bump, if_neg (by simpa using Ne.symm hx), Nat.add_zero]

theorem bump_of_not_mem (h : Round tasks own w g r made ret) {o o' : Option Tid} (ho : ∀ t ∈ o, t ∉ tasks)
    (ho' : ∀ t ∈ o', t ∉ tasks) : Round tasks own w g r (bump made o) (bump ret o') where
  inv := h.inv
  foreign := h.foreign
  mine := h.mine
  phase t ht := by
    have h1 : bump made o t = made t := by simpa [bump] using fun he : o = some t => ho t he ht
    have h2 : bump ret o' t = ret t := by simpa [bump] using fun he : o' = some t => ho' t he ht
    rw [h1, h2]
    exact h.phase t ht
  bits := h.bits
  missing := h.missing

/-- The task whose call of `xEventGroupSync` an event is. -/
def Event.syncing : Event Tid n → Option Tid
  | .sync t _ _ _ => some t
  | _ => none

/-- What one event does to the rounds. -/
def Advances (tasks : List Tid) (own : Tid → EventBits n) (w : EventBits n) (made ret : Tid → Nat)
    (g' : EventGroup Tid n) (call : Option Tid) (o : Option (Tid × EventBits n)) : Prop :=
  (∃ r', Round tasks own w g' r' (bump made call) (bump ret (o.map Prod.fst))) ∧
    ∀ t v, o = some (t, v) → t ∈ tasks → v &&& w = w

theorem Round.advances (h : Round tasks own w g' r made ret) {call : Option Tid} {o : Option (Tid × EventBits n)}
    (hcall : ∀ t ∈ call, t ∉ tasks) (ho : ∀ t v, o = some (t, v) → t ∉ tasks) :
    Advances tasks own w made ret g' call o := by
  refine ⟨⟨r, bump_of_not_mem h hcall fun t ht => ?_⟩, fun t v hov ht => absurd ht (ho t v hov)⟩
  obtain ⟨⟨t', v⟩, hov, rfl⟩ := map_eq_some_iff.mp ht
  exact ho t' v hov

section
variable (h : Round tasks own w g r made ret)
include h

theorem xEventGroupWaitBits_advances (ht : t ∉ tasks)
    (hnone : g.waits t = none) {v : Wait n} (hv : v.uxBitsToWaitFor &&& w = 0#_) {d : Nat}
    {res : EventGroup Tid n × Option (EventBits n)} (hgo : xEventGroupWaitBits g t v d = some res) :
    Advances tasks own w made ret res.1 none (res.2.map fun b => (t, b)) := by
  have ho : ∀ x b, res.2.map (fun b => (t, b)) = some (x, b) → x ∉ tasks := by
    intro x b hx
    obtain ⟨_, _, he⟩ := map_eq_some_iff.mp hx
    cases he
    exact ht
  refine Round.advances (r := r) ?_ (by simp) ho
  obtain ⟨hok, heq | heq | ⟨hnot, heq⟩⟩ := xEventGroupWaitBits_cases hgo <;> rw [heq]
  · exact h
  · exact h.clear hv
  · exact h.blockOther ht hnone hok hv hnot

theorem xEventGroupSync_advances (hR : Rendezvous tasks own w)
    (hnone : g.waits t = none) {s v : EventBits n} {d : Nat} (hal : Allowed tasks own w (.sync t s v d))
    {res : EventGroup Tid n × Option (EventBits n)} (hgo : xEventGroupSync g t s v d = some res) :
    Advances tasks own w made ret res.1 (some t) (res.2.map fun b => (t, b)) := by
  obtain ⟨hok, hs, g1, hset, hr⟩ := xEventGroupSync_cases h.inv hgo
  by_cases ht : t ∈ tasks
  · simp only [Allowed, if_pos ht] at hal
    obtain ⟨rfl, rfl, hd⟩ := hal
    by_cases hlast : ∀ u ∈ tasks, u ≠ t → u ∈ g.xTasksWaitingForBits
    · obtain ⟨hall, hround⟩ := h.complete hR ht hnone hs hset hlast
      obtain ⟨-, rfl⟩ := hr.resolve_right fun hno => hno.1 hall
      refine ⟨⟨r + 1, ?_⟩, fun x b hx _ => ?_⟩
      · simp only [map_some, bump_some]
        exact hround
      · cases hx
        exact hall
    · obtain ⟨u, hu, hut, hmiss⟩ : ∃ u ∈ tasks, u ≠ t ∧ u ∉ g.xTasksWaitingForBits := by
        by_contra hno
        exact hlast fun u hu hut => by
          by_contra hm
          exact hno ⟨u, hu, hut, hm⟩
      obtain ⟨hall, hround⟩ := h.arrive hR ht hnone hok hs hset hu hut hmiss
      obtain ⟨-, -, hblock⟩ := hr.resolve_left fun he => hall (by simpa [Met] using he.1)
      obtain ⟨-, rfl⟩ := hblock.resolve_right fun hno => hd hno.1
      refine ⟨⟨r, ?_⟩, fun x b hx _ => by cases hx⟩
      simp only [map_none, bump_some]
      exact hround
  · simp only [Allowed, if_neg ht] at hal
    have ho : ∀ x b, res.2.map (fun b => (t, b)) = some (x, b) → x ∉ tasks := by
      intro x b hx
      obtain ⟨_, _, he⟩ := map_eq_some_iff.mp hx
      cases he
      exact ht
    have h1 : Round tasks own w g1 r made ret := h.setBits hR hal.1 hs hset
    refine Round.advances (r := r) ?_ (fun x hx => by cases hx; exact ht) ho
    rcases hr with ⟨-, rfl⟩ | ⟨-, hnot, ⟨-, rfl⟩ | ⟨-, rfl⟩⟩
    · exact h1.clear hal.2
    · exact h1.blockOther ht (hset.waits ▸ hnone) hok hal.2 hnot
    · exact h1

theorem finish_advances {v : Wait n} (hv : g.waits t = some v)
    (hout : t ∉ g.xTasksWaitingForBits) (normal : EventBits n) :
    Advances tasks own w made ret (finish normal g t v).1 none (some (t, (finish normal g t v).2)) := by
  have hgood := (finish_good h.inv hout v normal).1
  have hlist : (finish normal g t v).1.xTasksWaitingForBits = g.xTasksWaitingForBits := by
    simp only [finish]
    split
    · simp only
      split <;> rfl
    · rfl
  have hwaits : (finish normal g t v).1.waits = update g.waits t none := by
    simp only [finish]
    split
    · simp only
      split <;> rfl
    · rfl
  have hitem : (finish normal g t v).1.item = update g.item t normal := by
    simp only [finish]
    split
    · simp only
      split <;> rfl
    · rfl
  by_cases ht : t ∈ tasks
  · cases h.phase t ht with
    | arrived hm _ _ => exact absurd hm hout
    | idle _ hw _ _ => rw [hv] at hw; cases hw
    | released _ _ hvalue hmade hret =>
      obtain ⟨value, hplain, hi, hsub⟩ := hvalue
      have hret' := finish_released hplain hi v normal
      have hbits : (finish normal g t v).1.uxEventBits = g.uxEventBits := by
        have hbit : (g.item t).getLsbD (n + 1) = true := by
          rw [hi]
          simp [released, unblockedDueToBitSet]
        have hne : g.item t &&& unblockedDueToBitSet n ≠ 0#_ := by
          rw [Ne, unblockedDueToBitSet, and_twoPow_eq_zero, hbit]
          simp
        rw [finish]
        simp only [if_neg hne]
      refine ⟨⟨r, hgood, fun x hx v' hv' => ?_, fun x hx v' hv' => ?_, fun x hx => ?_, fun i hi => ?_, ?_⟩,
        fun x b hx _ => ?_⟩
      · have hxt : x ≠ t := fun he => hx (he ▸ ht)
        rw [hwaits, update_of_ne hxt] at hv'
        exact h.foreign x hx v' hv'
      · by_cases hxt : x = t
        · subst hxt
          rw [hwaits, update_self] at hv'
          cases hv'
        · rw [hwaits, update_of_ne hxt] at hv'
          exact h.mine x hx v' hv'
      · have hm : bump made none x = made x := by simp [bump]
        simp only [map_some, bump_some, hm]
        by_cases hxt : x = t
        · subst hxt
          refine .idle (hlist ▸ hout) ?_ hmade ?_
          · rw [hwaits, update_self]
          · rw [update_self, hret]
        · rw [update_of_ne hxt]
          have hw' : (finish normal g t v).1.waits x = g.waits x := by rw [hwaits, update_of_ne hxt]
          have hi' : (finish normal g t v).1.item x = g.item x := by rw [hitem, update_of_ne hxt]
          cases h.phase x hx with
          | arrived hm hmade hret => exact .arrived (hlist ▸ hm) hmade hret
          | released hm hw hv hmade hret =>
            exact .released (hlist ▸ hm) (by rw [hw']; exact hw) (by rw [hi']; exact hv) hmade hret
          | idle hm hw hmade hret => exact .idle (hlist ▸ hm) (by rw [hw']; exact hw) hmade hret
      · rw [hbits, hlist]
        exact h.bits i hi
      · rw [hlist]
        exact h.missing
      · simp only [some.injEq, Prod.mk.injEq] at hx
        rw [← hx.2, hret']
        exact hsub
  · have hne : ∀ x ∈ tasks, x ≠ t := fun x hx he => ht (he ▸ hx)
    refine Round.advances (r := r) (h.elsewhere hgood (fun x _ => by rw [hlist]) (fun x hx => ?_) (fun x hx _ _ => ?_)
      (fun x hx v' hv' => ?_) fun i hi => ?_) (by simp) fun x b hx => ?_
    · rw [hwaits, update_of_ne (hne x hx)]
    · rw [hitem, update_of_ne (hne x hx)]
    · by_cases hxt : x = t
      · subst hxt
        rw [hwaits, update_self] at hv'
        cases hv'
      · rw [hwaits, update_of_ne hxt] at hv'
        exact h.foreign x hx v' hv'
    · have hfb := foreign_bit (h.foreign t ht v hv) hi
      simp only [finish]
      split
      · simp only
        split
        · rw [getLsbD_andNot, hfb]
          simp
        · rfl
      · rfl
    · cases hx
      exact ht

theorem step_advances (hR : Rendezvous tasks own w) {e : Event Tid n}
    (hal : Allowed tasks own w e) {o : Option (Tid × EventBits n)} (hgo : step g e = some (g', o)) :
    Advances tasks own w made ret g' e.syncing o := by
  cases e with
  | setBits b =>
    obtain ⟨g1, hg1, hgo⟩ := map_eq_some_iff.mp hgo
    cases hgo
    obtain ⟨_, hb, _⟩ := bind_eq_some_iff.mp hg1
    have hb : Plain b := of_configAssert hb
    obtain ⟨g2, hg2, hset⟩ := xEventGroupSetBits_spec h.inv hb
    cases hg2.symm.trans hg1
    exact (h.setBits hR hal hb hset).advances (by simp [Event.syncing]) (by simp)
  | clearBits b =>
    obtain ⟨g1, hg1, hgo⟩ := map_eq_some_iff.mp hgo
    cases hgo
    obtain ⟨_, _, hg1⟩ := bind_eq_some_iff.mp hg1
    cases hg1
    exact (h.clear hal).advances (by simp [Event.syncing]) (by simp)
  | waitBits t v d =>
    simp only [step] at hgo
    split at hgo
    · rename_i hnone
      obtain ⟨res, hres, hgo⟩ := map_eq_some_iff.mp hgo
      cases hgo
      exact xEventGroupWaitBits_advances h hal.1 hnone hal.2 hres
    · cases hgo
  | sync t s v d =>
    simp only [step] at hgo
    split at hgo
    · rename_i hnone
      obtain ⟨res, hres, hgo⟩ := map_eq_some_iff.mp hgo
      cases hgo
      exact xEventGroupSync_advances h hR hnone hal hres
    · cases hgo
  | timeout t =>
    have hgood := (step_good h.inv hgo).1
    simp only [step] at hgo
    split at hgo <;> cases hgo
    have hne : ∀ x ∈ tasks, x ≠ t := fun x hx he => hal (he ▸ hx)
    refine (h.elsewhere hgood (fun x hx => ?_) (fun _ _ => rfl) (fun _ _ _ _ => rfl) h.foreign
      fun _ _ => rfl).advances (by simp [Event.syncing]) (by simp)
    exact mem_erase_of_ne (hne x hx)
  | finish t normal =>
    simp only [step] at hgo
    split at hgo
    · cases hgo
    rename_i v hv
    split at hgo
    · cases hgo
    rename_i hout
    cases hgo
    exact finish_advances h hv hout normal

end

end Steps

/-! ## Runs -/

theorem calls_cons (t : Tid) (e : Event Tid n) (es : List (Event Tid n)) :
    calls t (e :: es) = calls t es + if e.syncing = some t then 1 else 0 := by
  unfold calls
  rw [countP_cons]
  cases e <;> simp [Event.syncing]

theorem returns_append (t : Tid) (o : Option (Tid × EventBits n)) (rets : List (Tid × EventBits n)) :
    returns t (o.toList ++ rets) = returns t rets + if o.map Prod.fst = some t then 1 else 0 := by
  unfold returns
  rw [countP_append, Nat.add_comm]
  cases o <;> simp

section Run
variable {tasks : List Tid} {own : Tid → EventBits n} {w : EventBits n} {g g' : EventGroup Tid n}

theorem run_rounds (hR : Rendezvous tasks own w) {es : List (Event Tid n)} (hes : ∀ e ∈ es, Allowed tasks own w e)
    {r : Nat} {made ret : Tid → Nat} (h : Round tasks own w g r made ret) {rets : List (Tid × EventBits n)}
    (hgo : run g es = some (g', rets)) :
    (∃ r', Round tasks own w g' r' (fun t => made t + calls t es) (fun t => ret t + returns t rets)) ∧
      ∀ t v, (t, v) ∈ rets → t ∈ tasks → v &&& w = w := by
  induction es generalizing g r made ret rets with
  | nil =>
    cases hgo
    exact ⟨⟨r, h⟩, fun t v hm => by cases hm⟩
  | cons e es ih =>
    obtain ⟨⟨g1, o⟩, ⟨g2, rets'⟩, hstep, hrun, ⟨⟩⟩ := Lib.Runs.of_bind_map hgo
    obtain ⟨⟨r1, h1⟩, hval⟩ := step_advances h hR (hes e (mem_cons_self ..)) hstep
    obtain ⟨⟨r2, h2⟩, hvals⟩ := ih (fun e he => hes e (mem_cons_of_mem _ he)) h1 hrun
    refine ⟨⟨r2, ?_⟩, fun t v hm ht => ?_⟩
    · have hmade : (fun t => bump made e.syncing t + calls t es) = fun t => made t + calls t (e :: es) := by
        funext t
        rw [calls_cons, bump]
        omega
      have hret : (fun t => bump ret (o.map Prod.fst) t + returns t rets') =
          fun t => ret t + returns t (o.toList ++ rets') := by
        funext t
        rw [returns_append, bump]
        omega
      rw [hmade, hret] at h2
      exact h2
    · rcases mem_append.mp hm with hm | hm
      · exact hval t v (mem_toList.mp hm) ht
      · exact hvals t v hm ht

/-- **`xEventGroupSync` is a barrier, and it can be used again.** No task has returned from more calls than any
other has made, every return value has the bits of all tasks, and whenever all have made the same number of
calls none of the bits is set. -/
theorem sync_barrier (hR : Rendezvous tasks own w) (item : Tid → EventBits n) {es : List (Event Tid n)}
    (hes : ∀ e ∈ es, Allowed tasks own w e) {rets : List (Tid × EventBits n)}
    (hrun : run (xEventGroupCreate item) es = some (g, rets)) :
    (∀ t ∈ tasks, ∀ u ∈ tasks, returns t rets ≤ calls u es) ∧
      (∀ t v, (t, v) ∈ rets → t ∈ tasks → v &&& w = w) ∧
      ((∀ t ∈ tasks, ∀ u ∈ tasks, calls t es = calls u es) → g.uxEventBits &&& w = 0#_) := by
  have h0 : Round tasks own w (xEventGroupCreate item) 0 (fun _ => 0) (fun _ => 0) := by
    refine ⟨xEventGroupCreate_inv item, fun t _ v hv => ?_, fun t _ v hv => ?_, fun t ht => ?_, fun i _ => ?_, ?_⟩
    · cases hv
    · cases hv
    · exact .idle (by simp [xEventGroupCreate]) rfl rfl rfl
    · simp [xEventGroupCreate]
    · obtain ⟨t, ht⟩ := exists_mem_of_ne_nil _ hR.nonempty
      exact ⟨t, ht, by simp [xEventGroupCreate]⟩
  obtain ⟨⟨r, h⟩, hvals⟩ := run_rounds hR hes h0 hrun
  simp only [Nat.zero_add] at h
  refine ⟨fun t ht u hu => ?_, hvals, fun heq => ?_⟩
  · have hle : returns t rets ≤ r := by
      cases h.phase t ht with
      | arrived _ _ hk => omega
      | released _ _ _ _ hk => omega
      | idle _ _ _ hk => omega
    have hge : r ≤ calls u es := by
      cases h.phase u hu with
      | arrived _ hm _ => omega
      | released _ _ _ hm _ => omega
      | idle _ _ hm _ => omega
    omega
  · obtain ⟨u, hu, hmiss⟩ := h.missing
    have hr : calls u es = r := by
      cases h.phase u hu with
      | arrived hm _ _ => exact absurd hm hmiss
      | released _ _ _ hm _ => exact hm
      | idle _ _ hm _ => exact hm
    refine and_eq_zero_iff.mpr fun i hi => ?_
    rw [← Bool.not_eq_true, h.bits i hi]
    rintro ⟨t, ht, hm, _⟩
    have := heq t ht u hu
    cases h.phase t ht with
    | arrived _ hm _ => omega
    | released hm' _ _ _ _ => exact hm' hm
    | idle hm' _ _ _ => exact hm' hm

/-- Tasks 0 and 1 with a bit each: task 1 is in the second round before task 0 has run again. -/
def twoRounds : List (Event (Fin 2) 24) :=
  [.sync 0 1 3 9, .sync 1 2 3 9, .sync 1 2 3 9, .finish 0 1, .sync 0 1 3 9, .finish 1 1]

theorem sync_barrier_two :
    ∃ g rets, run (xEventGroupCreate fun _ => 1) twoRounds = some (g, rets) ∧
      rets = [(1, 3), (0, 3), (0, 3), (1, 3)] ∧ g.uxEventBits &&& 3 = 0#_ := by
  have hR : Rendezvous [(0 : Fin 2), 1] (fun t => if t = 0 then 1 else 2) (3 : EventBits 24) := by
    refine ⟨by decide, by decide, by decide, fun i => ?_⟩
    by_cases hi : i < 32
    · revert i
      decide
    · simp [BitVec.getLsbD_of_ge _ i (Nat.le_of_not_lt hi)]
  have hes : ∀ e ∈ twoRounds, Allowed [(0 : Fin 2), 1] (fun t => if t = 0 then 1 else 2) (3 : EventBits 24) e := by
    simp [twoRounds, Allowed]
  exact Lib.Runs.exists_pair_that (R := fun _ rets => rets = [(1, 3), (0, 3), (0, 3), (1, 3)]) (by decide +kernel)
    fun g rets hrun hrets => ⟨hrets, (sync_barrier hR (fun _ => 1) hes hrun).2.2 (by decide +kernel)⟩

end Run

end RtosKernel.FreeRTOS.EventGroups
