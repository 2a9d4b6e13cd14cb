import RtosKernel.Zephyr.PriqTree

/-! # The run queues agree

As long as no thread is added behind one of its priority that has a larger key, the three queues have the same
best thread: the earliest added of those with the highest priority. -/
namespace RtosKernel.Zephyr.Priq
open Zephyr.WaitQ List
open Zephyr.Rb (Heap State Fault)
open Lib.Runs (run Along run_inv)

variable {T : Type} [LinearOrder T] {base base' : T → ThreadBase} {t u thread : T} {d m : List T} {highest : Int}
  {s s' : Queues T} {next : Nat}

/-! ## New keys -/

/-- The keys after an addition to a queue with the members `d`, and the next one. -/
def newKeys (base : T → ThreadBase) (next : Nat) (thread : T) (d : List T) : (T → ThreadBase) × Nat :=
  let base := setOrderKey base thread next
  let next := (next + 1) % 2 ^ 32
  if next = 0 then renumber base next d else (base, next)

theorem newKeys_prio : ((newKeys base next thread d).1 t).prio = (base t).prio := by
  rw [newKeys]
  by_cases hwrap : (next + 1) % 2 ^ 32 = 0
  · rw [if_pos hwrap, renumber_prio, setOrderKey_prio]
  · rw [if_neg hwrap, setOrderKey_prio]

theorem newKeys_next : (newKeys base next thread d).2 < 2 ^ 32 := by
  have hlt : (next + 1) % 2 ^ 32 < 2 ^ 32 := Nat.mod_lt _ (by omega)
  rw [newKeys]
  by_cases hwrap : (next + 1) % 2 ^ 32 = 0
  · rw [if_pos hwrap]
    exact renumber_next hlt
  · rw [if_neg hwrap]
    exact hlt

theorem newKeys_ordered (hd : Ordered base d) (hnew : thread ∉ d) (hlen : next + 1 = 2 ^ 32 → d.length < 2 ^ 32)
    (hnext : next < 2 ^ 32) : Ordered (newKeys base next thread d).1 d := by
  have hset : Ordered (setOrderKey base thread next) d :=
    hd.congr fun t ht => setOrderKey_other next fun heq => hnew (heq ▸ ht)
  rw [newKeys]
  by_cases hwrap : (next + 1) % 2 ^ 32 = 0
  · rw [if_pos hwrap, hwrap]
    exact hset.renumber (hlen (by omega))
  · rw [if_neg hwrap]
    exact hset

theorem newKeys_below (hd : Ordered base d) (hnew : thread ∉ d) (hlen : next + 1 = 2 ^ 32 → d.length < 2 ^ 32)
    (hnext : next < 2 ^ 32) (hu : u ∈ d) (hkey : (base u).orderKey < next) :
    ((newKeys base next thread d).1 u).orderKey < ((newKeys base next thread d).1 thread).orderKey := by
  rw [newKeys]
  by_cases hwrap : (next + 1) % 2 ^ 32 = 0
  · have hidx := idxOf_lt_length_of_mem hu
    rw [if_pos hwrap, hwrap, renumber_key hd.nodup (by omega) hu, renumber_other _ hnew, setOrderKey_self]
    omega
  · rw [if_neg hwrap]
    dsimp only
    rw [setOrderKey_self, setOrderKey_other _ (ne_of_mem_of_not_mem hu hnew)]
    exact hkey

theorem zPriqRbAdd_eq {pq : PriqRb T} (hr : Refines base pq.tree d) : zPriqRbAdd base pq thread =
    (Priq.rbInsertBy (zPriqRbLessthan (newKeys base pq.nextOrderKey thread d).1) pq.tree thread).map fun tree =>
      ((newKeys base pq.nextOrderKey thread d).1, ⟨tree, (newKeys base pq.nextOrderKey thread d).2⟩) := by
  rw [zPriqRbAdd, newKeys, hr.forEach]
  by_cases hwrap : (pq.nextOrderKey + 1) % 2 ^ 32 = 0
  · rw [if_pos hwrap, if_pos hwrap]
    rfl
  · rw [if_neg hwrap, if_neg hwrap]
    rfl

/-! ## Runs -/

/-- No member has the priority of a thread that is added and a key that is not smaller; and when the keys are
used up, there are enough for the members. -/
def KeysBelow (s : Queues T) : Op T → Prop
  | .add thread => (∀ u ∈ s.added, (s.base u).prio = (s.base thread).prio → (s.base u).orderKey < s.rb.nextOrderKey) ∧
      (s.rb.nextOrderKey + 1 = 2 ^ 32 → s.added.length < 2 ^ 32)
  | _ => True

/-- The list, the tree and the lists hold the members. -/
structure Inv (highest : Int) (s : Queues T) : Prop where
  nodup : s.added.Nodup
  range : ∀ t ∈ s.added, highest ≤ (s.base t).prio ∧ (s.base t).prio < highest + 32
  ordered : Ordered s.base s.dumb
  fifo : Fifo (fun t => (s.base t).prio) s.dumb s.added
  tree : Refines s.base s.rb.tree s.dumb
  next : s.rb.nextOrderKey < 2 ^ 32
  lists : Sorts (fun t => (s.base t).prio) highest s.mq s.added

theorem Inv.agree (hi : Inv highest s) : Agree s where
  dumb := hi.fifo.head hi.ordered.prios
  rb := (hi.tree.best _).trans (congrArg some (hi.fifo.head hi.ordered.prios))
  mq := hi.lists.best hi.range

theorem initReadyQ_inv (base : T → ThreadBase) (heap : Heap T) : Inv highest (initReadyQ base heap) where
  nodup := nodup_nil
  range := fun t ht => by cases ht
  ordered := List.Pairwise.nil
  fifo := fun _ => rfl
  tree := ⟨.nil, @Rb.Inv.mk T (threadOrder base) _ _ rfl List.Pairwise.nil rfl ⟨0, rfl, le_rfl⟩ le_rfl, rfl⟩
  next := Nat.two_pow_pos 32
  lists := ⟨fun _ => rfl, fun p hp => by simp [initReadyQ]⟩

section
variable (hi : Inv highest s)
include hi

theorem Inv.add (hp : Proper highest s (.add thread)) (hk : KeysBelow s (.add thread)) :
    ∃ s', Priq.add highest s thread = .ok s' ∧ Inv highest s' ∧ s'.added = s.added ++ [thread] ∧
      s'.base = (newKeys s.base s.rb.nextOrderKey thread s.dumb).1 ∧
      s'.rb.nextOrderKey = (newKeys s.base s.rb.nextOrderKey thread s.dumb).2 := by
  obtain ⟨hnew, hlow, hhigh⟩ := hp
  obtain ⟨hbelow, hlen⟩ := hk
  have hnewd : thread ∉ s.dumb := fun h => hnew (hi.fifo.mem_iff.mp h)
  have hlend : s.rb.nextOrderKey + 1 = 2 ^ 32 → s.dumb.length < 2 ^ 32 := by
    intro hwrap
    have hsub := hi.ordered.nodup.subperm fun t ht => hi.fifo.mem_iff.mp ht
    exact hsub.length_le.trans_lt (hlen hwrap)
  set base' := (newKeys s.base s.rb.nextOrderKey thread s.dumb).1 with hbase'
  have hprio : (fun t => (base' t).prio) = fun t => (s.base t).prio := funext fun t => newKeys_prio
  have hordered : Ordered base' s.dumb := newKeys_ordered hi.ordered hnewd hlend hi.next
  have hadded := hordered.add (t := thread) fun u hu heq => by
    rw [congrFun hprio u, congrFun hprio thread] at heq
    exact newKeys_below hi.ordered hnewd hlend hi.next hu (hbelow u (hi.fifo.mem_iff.mp hu) heq)
  obtain ⟨tree, hgo, htree⟩ := (hi.tree.reorder hordered).insert hnewd hadded fun y => mem_zPriqDumbAdd
  let s' : Queues T :=
    { base := base', dumb := zPriqDumbAdd (fun t => (s.base t).prio) thread s.dumb,
      rb := ⟨tree, (newKeys s.base s.rb.nextOrderKey thread s.dumb).2⟩,
      mq := zPriqMqAdd s.base highest s.mq thread, added := s.added ++ [thread] }
  refine ⟨s', ?_, ?_, rfl, rfl, rfl⟩
  · rw [Priq.add, zPriqRbAdd_eq hi.tree, hgo]
    rfl
  · rw [hprio] at hadded htree
    refine ⟨?_, fun t ht => ?_, hadded, ?_, htree, newKeys_next, ?_⟩
    · exact nodup_append.mpr ⟨hi.nodup, nodup_singleton _, by simpa using fun t ht => ne_of_mem_of_not_mem ht hnew⟩
    · show highest ≤ (base' t).prio ∧ (base' t).prio < highest + 32
      rw [congrFun hprio t]
      rcases mem_append.mp ht with ht | ht
      · exact hi.range t ht
      · obtain rfl := mem_singleton.mp ht
        exact ⟨hlow, hhigh⟩
    · show Fifo (fun t => (base' t).prio) _ _
      rw [hprio]
      exact hi.fifo.add hi.ordered.prios
    · show Sorts (fun t => (base' t).prio) _ _ _
      rw [hprio]
      exact hi.lists.add hlow

theorem Inv.remove (hmem : thread ∈ s.added) :
    ∃ s', Priq.remove highest s thread = .ok s' ∧ Inv highest s' ∧ s'.added = s.added.erase thread ∧ s'.base = s.base ∧
      (s'.added ≠ [] → s'.rb.nextOrderKey = s.rb.nextOrderKey) := by
  have hmemd := hi.fifo.mem_iff.mpr hmem
  have hsub : ∀ t ∈ s.added.erase thread, t ∈ s.added := fun t ht => mem_of_mem_erase ht
  obtain ⟨tree, hgo, htree⟩ := hi.tree.remove hi.ordered hmemd
  have hfifo := hi.fifo.remove (t := thread)
  let s' : Queues T :=
    { s with dumb := s.dumb.erase thread, rb := ⟨tree, if tree.root = none then 0 else s.rb.nextOrderKey⟩,
             mq := zPriqMqRemove s.base highest s.mq thread, added := s.added.erase thread }
  refine ⟨s', ?_, ⟨hi.nodup.erase thread, fun t ht => hi.range t (hsub t ht), hi.ordered.sublist erase_sublist,
    hfifo, htree, ?_, hi.lists.remove (hi.range thread hmem).1⟩, rfl, rfl, fun hne => ?_⟩
  · rw [Priq.remove, zPriqRbRemove, hgo]
    rfl
  · show (if tree.root = none then 0 else s.rb.nextOrderKey) < 2 ^ 32
    have := hi.next
    by_cases hroot : tree.root = none
    · rw [if_pos hroot]
      omega
    · rw [if_neg hroot]
      exact this
  · refine if_neg fun hroot => hne ?_
    have hnil := htree.root_eq_none.mp hroot
    exact eq_nil_iff_forall_not_mem.mpr fun t ht => by
      have := hfifo.mem_iff.mpr ht
      rw [hnil] at this
      cases this

theorem Inv.setPrio {prio : Int} (hnew : thread ∉ s.added) :
    Inv highest { s with base := Function.update s.base thread { s.base thread with prio } } := by
  have hsame : ∀ t ∈ s.added, Function.update s.base thread { s.base thread with prio } t = s.base t :=
    fun t ht => Function.update_of_ne (ne_of_mem_of_not_mem ht hnew) _ _
  have hordered : Ordered (Function.update s.base thread { s.base thread with prio }) s.dumb :=
    hi.ordered.congr fun t ht => hsame t (hi.fifo.mem_iff.mp ht)
  refine ⟨hi.nodup, fun t ht => ?_, hordered, hi.fifo.congr fun t ht => congrArg ThreadBase.prio (hsame t ht),
    hi.tree.reorder hordered, hi.next, hi.lists.congr fun t ht => congrArg ThreadBase.prio (hsame t ht)⟩
  dsimp only
  rw [hsame t ht]
  exact hi.range t ht

theorem Inv.step {op : Op T} (hp : Proper highest s op) (hk : KeysBelow s op) :
    ∃ s', Priq.step highest s op = .ok s' ∧ Inv highest s' := by
  cases op with
  | add thread =>
    obtain ⟨s', hgo, hi', -⟩ := hi.add hp hk
    exact ⟨s', hgo, hi'⟩
  | remove thread =>
    obtain ⟨s', hgo, hi', -⟩ := hi.remove hp
    exact ⟨s', hgo, hi'⟩
  | setPrio thread prio => exact ⟨_, rfl, hi.setPrio hp⟩

theorem Inv.run {ops : List (Op T)} (hp : Along (Priq.step highest) (Proper highest) s ops)
    (hk : Along (Priq.step highest) KeysBelow s ops) : ∃ s', Lib.Runs.run (Priq.step highest) s ops = .ok s' ∧ Inv highest s' := by
  induction ops generalizing s with
  | nil => exact ⟨s, rfl, hi⟩
  | cons op ops ih =>
    obtain ⟨s₁, hgo, hi₁⟩ := hi.step hp.1 hk.1
    have hp := hp.2
    have hk := hk.2
    rw [hgo] at hp hk
    obtain ⟨s₂, hrun, hi₂⟩ := ih hi₁ hp hk
    refine ⟨s₂, ?_, hi₂⟩
    rw [Lib.Runs.run, hgo]
    exact hrun

end

/-- **The run queues agree.** If no thread is added behind one of its priority with a key that is not smaller,
the calls return and the three queues have the same best thread, the earliest added of those with the highest
priority. -/
theorem run_queues_agree (highest : Int) (base : T → ThreadBase) (heap : Heap T) {ops : List (Op T)}
    (hproper : Along (Priq.step highest) (Proper highest) (initReadyQ base heap) ops)
    (hkeys : Along (Priq.step highest) KeysBelow (initReadyQ base heap) ops) :
    ∃ s, run (Priq.step highest) (initReadyQ base heap) ops = .ok s ∧ Agree s := by
  obtain ⟨s, hrun, hi⟩ := (initReadyQ_inv base heap).run hproper hkeys
  exact ⟨s, hrun, hi.agree⟩

-- the instances below refer to it by name
local instance lawful : LawfulBEq T := inferInstance

instance (op : Op T) : Decidable (Proper highest s op) := by
  refine op.casesOn ?_ ?_ ?_ <;> intros <;> dsimp only [Proper] <;> infer_instance

instance (op : Op T) : Decidable (KeysBelow s op) := by
  refine op.casesOn ?_ ?_ ?_ <;> intros <;> dsimp only [KeysBelow] <;> infer_instance

def threePrios : List (Op (Fin 4)) :=
  [.setPrio 1 (-1), .setPrio 3 2, .add 0, .add 3, .add 2, .add 1, .remove 1, .setPrio 1 0, .add 1, .remove 0]

theorem run_queues_agree_three :
    ∃ s, run (Priq.step (-2)) (initReadyQ (fun _ => ⟨0, 7⟩) fun _ => ⟨fun _ => none, .red⟩) threePrios = .ok s ∧ Agree s :=
  run_queues_agree (-2) (fun _ => ⟨0, 7⟩) (fun _ => ⟨fun _ => none, .red⟩)
    (show Along (Priq.step (-2)) (Proper (-2)) _ threePrios by decide +kernel) (by decide +kernel)

/-! ## When the keys are used up -/

/-- Thread 0 is a member with the first key, all threads have one priority. -/
structure Alone (next : Nat) (s : Queues (Fin 3)) : Prop where
  inv : Inv 0 s
  added : s.added = [0]
  prio : ∀ t, (s.base t).prio = 0
  key : (s.base 0).orderKey = 0
  next : s.rb.nextOrderKey = next

section UsedUp
variable {s s' : Queues (Fin 3)} {next n : Nat}

theorem Alone.add (h : Alone next s) (hpos : 0 < next) : ∃ s', Priq.step 0 s (.add 1) = .ok s' ∧ Inv 0 s' ∧
    s'.added = [0, 1] ∧ Proper 0 s (.add 1) ∧ s'.base = (newKeys s.base next 1 [0]).1 ∧
    s'.rb.nextOrderKey = (newKeys s.base next 1 [0]).2 := by
  have hp : Proper 0 s (.add 1) := by
    refine ⟨?_, ?_, ?_⟩
    · rw [h.added]
      decide
    · rw [h.prio]
    · rw [h.prio]
      decide
  have hk : KeysBelow s (.add 1) := by
    refine ⟨fun u hu _ => ?_, fun _ => ?_⟩
    · rw [h.added] at hu
      obtain rfl := mem_singleton.mp hu
      rw [h.key, h.next]
      exact hpos
    · rw [h.added]
      decide
  have hdumb : s.dumb = [0] := (h.inv.fifo.eq_of_prio h.prio).trans h.added
  obtain ⟨s', hgo, hi, hadded, hbase, hnext⟩ := h.inv.add hp hk
  rw [h.next, hdumb] at hbase hnext
  exact ⟨s', hgo, hi, by rw [hadded, h.added]; rfl, hp, hbase, hnext⟩

theorem newKeys_lt (hnext : next + 1 < 2 ^ 32) (thread : T) (d : List T) :
    newKeys base next thread d = (setOrderKey base thread next, next + 1) := by
  rw [newKeys, Nat.mod_eq_of_lt hnext, if_neg (Nat.succ_ne_zero next)]

theorem Alone.pair (h : Alone next s) (hpos : 0 < next) (hnext : next + 1 < 2 ^ 32) :
    ∃ s', run (Priq.step 0) s [.add 1, .remove 1] = .ok s' ∧ Alone (next + 1) s' ∧
      Along (Priq.step 0) (Proper 0) s [.add 1, .remove 1] := by
  obtain ⟨s₁, hgo₁, hi₁, hadded₁, hp₁, hbase₁, hnext₁⟩ := h.add hpos
  rw [newKeys_lt hnext] at hbase₁ hnext₁
  dsimp only at hbase₁ hnext₁
  have hmem : (1 : Fin 3) ∈ s₁.added := by
    rw [hadded₁]
    decide
  obtain ⟨s₂, hgo₂, hi₂, hadded₂, hbase₂, hnext₂⟩ := hi₁.remove hmem
  replace hadded₂ : s₂.added = [0] := by
    rw [hadded₂, hadded₁]
    decide
  have hgo₂ : Priq.step 0 s₁ (.remove 1) = .ok s₂ := hgo₂
  refine ⟨s₂, ?_, ⟨hi₂, hadded₂, fun t => ?_, ?_, ?_⟩, ⟨hp₁, ?_⟩⟩
  · rw [Lib.Runs.run, hgo₁]
    show run (Priq.step 0) s₁ [.remove 1] = _
    rw [Lib.Runs.run, hgo₂]
    rfl
  · rw [hbase₂, hbase₁, setOrderKey_prio]
    exact h.prio t
  · rw [hbase₂, hbase₁, setOrderKey_other _ (by decide)]
    exact h.key
  · rw [hnext₂ (by rw [hadded₂]; exact cons_ne_nil _ _), hnext₁]
  · rw [hgo₁]
    refine ⟨hmem, ?_⟩
    rw [hgo₂]
    trivial

theorem Alone.pairs (h : Alone next s) (hpos : 0 < next) (hnext : next + n < 2 ^ 32) :
    ∃ s', run (Priq.step 0) s (replicate n [Op.add 1, Op.remove 1]).flatten = .ok s' ∧ Alone (next + n) s' ∧
      Along (Priq.step 0) (Proper 0) s (replicate n [Op.add 1, Op.remove 1]).flatten := by
  induction n generalizing s next with
  | zero => exact ⟨s, rfl, h, trivial⟩
  | succ n ih =>
    obtain ⟨s₁, hrun₁, h₁, halong₁⟩ := h.pair hpos (by omega)
    obtain ⟨s₂, hrun₂, h₂, halong₂⟩ := ih h₁ (by omega) (by omega)
    rw [replicate_succ, flatten_cons]
    refine ⟨s₂, ?_, ?_, halong₁.append hrun₁ halong₂⟩
    · rw [Lib.Runs.run_append hrun₁]
      exact hrun₂
    · rw [show next + (n + 1) = next + 1 + n by omega]
      exact h₂

theorem Alone.last (h : Alone (2 ^ 32 - 1) s) : ∃ s', run (Priq.step 0) s [.add 1, .add 2, .remove 0] = .ok s' ∧
    Along (Priq.step 0) (Proper 0) s [.add 1, .add 2, .remove 0] ∧ zPriqDumbBest s'.dumb = some 1 ∧
    zPriqMqBest s'.mq = some 1 ∧ zPriqRbBest s'.rb = some (some 2) := by
  obtain ⟨s₁, hgo₁, hi₁, hadded₁, hp₁, hbase₁, hnext₁⟩ := h.add (by decide)
  have hwrap : newKeys s.base (2 ^ 32 - 1) 1 [0] = (setOrderKey (setOrderKey s.base 1 (2 ^ 32 - 1)) 0 0, 1) := rfl
  rw [hwrap] at hbase₁ hnext₁
  dsimp only at hbase₁ hnext₁
  have hprio₁ : ∀ t, (s₁.base t).prio = 0 := fun t => by rw [hbase₁, setOrderKey_prio, setOrderKey_prio, h.prio]
  have hdumb₁ : s₁.dumb = [0, 1] := (hi₁.fifo.eq_of_prio hprio₁).trans hadded₁
  -- thread 2 comes before thread 1 in the tree
  set base := setOrderKey s₁.base 2 1 with hbase
  have hprio : ∀ t, (base t).prio = 0 := fun t => by rw [hbase, setOrderKey_prio, hprio₁]
  have hkeys : (base 0).orderKey = 0 ∧ (base 1).orderKey = 2 ^ 32 - 1 ∧ (base 2).orderKey = 1 := by
    rw [hbase, hbase₁]
    simp [setOrderKey]
  have hless : ∀ a b, (base a).orderKey < (base b).orderKey → zPriqRbLessthan base a b = true :=
    fun a b hab => lessthan_iff.mpr (.inr ⟨(hprio a).trans (hprio b).symm, hab⟩)
  have hold : Ordered base [0, 1] := pairwise_pair.mpr (hless 0 1 (by omega))
  have hnew : Ordered base [0, 2, 1] := by
    refine pairwise_cons.mpr ⟨fun x hx => ?_, pairwise_pair.mpr (hless 2 1 (by omega))⟩
    simp only [mem_cons, not_mem_nil, or_false] at hx
    rcases hx with rfl | rfl
    · exact hless 0 2 (by omega)
    · exact hless 0 1 (by omega)
  have htree₁ := hi₁.tree
  rw [hdumb₁] at htree₁
  have hmem : ∀ y : Fin 3, y ∈ [0, 2, 1] ↔ y = 2 ∨ y ∈ [0, 1] := by decide
  have hfirst : (0 : Fin 3) ∈ [0, 2, 1] := by decide
  obtain ⟨tree₂, hins, htree₂⟩ := (htree₁.reorder hold).insert (by decide) hnew hmem
  obtain ⟨tree₃, hrem, htree₃⟩ := htree₂.remove hnew hfirst
  let mq := zPriqMqRemove base 0 (zPriqMqAdd s₁.base 0 s₁.mq 2) 0
  let s₂ : Queues (Fin 3) := ⟨base, [0, 1, 2], ⟨tree₂, 2⟩, zPriqMqAdd s₁.base 0 s₁.mq 2, [0, 1, 2]⟩
  let s₃ : Queues (Fin 3) := ⟨base, [1, 2], ⟨tree₃, if tree₃.root = none then 0 else 2⟩, mq, [1, 2]⟩
  have hgo₂ : Priq.step 0 s₁ (.add 2) = .ok s₂ := by
    show Priq.add 0 s₁ 2 = _
    rw [Priq.add, zPriqRbAdd_eq hi₁.tree, hnext₁, newKeys_lt (by decide), hins, hdumb₁, hadded₁]
    simp [Bind.bind, Except.bind, Except.map, zPriqDumbAdd, zSchedPrioCmp, hprio₁, s₂, hbase]
  have hgo₃ : Priq.step 0 s₂ (.remove 0) = .ok s₃ := by
    show Priq.remove 0 s₂ 0 = _
    rw [Priq.remove, zPriqRbRemove, hrem]
    rfl
  have hlists : Sorts (fun t => (base t).prio) 0 mq [1, 2] := by
    have hadd := hi₁.lists.add (t := 2) (hprio₁ 2).ge
    rw [hadded₁] at hadd
    exact (hadd.congr fun t _ => (hprio t).trans (hprio₁ t).symm).remove (hprio 0).ge
  refine ⟨s₃, ?_, ⟨hp₁, ?_⟩, rfl, ?_, htree₃.best _⟩
  · rw [Lib.Runs.run, hgo₁]
    show run (Priq.step 0) s₁ [.add 2, .remove 0] = _
    rw [Lib.Runs.run, hgo₂]
    show run (Priq.step 0) s₂ [.remove 0] = _
    rw [Lib.Runs.run, hgo₃]
    rfl
  · rw [hgo₁]
    refine ⟨⟨by rw [hadded₁]; decide, (hprio₁ 2).ge, by rw [hprio₁]; decide⟩, ?_⟩
    rw [hgo₂]
    refine ⟨mem_cons_self .., ?_⟩
    rw [hgo₃]
    trivial
  · refine (hlists.best fun t _ => ?_).trans ?_
    · rw [hprio]
      decide
    · simp [hprio]

/-- Thread 0 stays while thread 1 comes and goes until the last key. -/
def untilLastKey : List (Op (Fin 3)) :=
  [.add 0] ++ ((replicate (2 ^ 32 - 2) [Op.add 1, Op.remove 1]).flatten ++ [.add 1, .add 2, .remove 0])

def started : Queues (Fin 3) := initReadyQ (fun _ => ⟨0, 0⟩) fun _ => ⟨fun _ => none, .red⟩

/-- The thread that gets the last key is overtaken by a thread of its priority that is added later. -/
theorem last_key_overtaken : Along (Priq.step 0) (Proper 0) started untilLastKey ∧
    ∃ s, run (Priq.step 0) started untilLastKey = .ok s ∧ zPriqDumbBest s.dumb = some 1 ∧ zPriqMqBest s.mq = some 1 ∧
      zPriqRbBest s.rb = some (some 2) := by
  have hp : Proper 0 started (.add 0) := by decide
  have hk : KeysBelow started (.add 0) := by decide
  have hi : Inv 0 started := initReadyQ_inv _ _
  obtain ⟨s₁, hgo₁, hi₁, hadded₁, hbase₁, hnext₁⟩ := hi.add hp hk
  have h₁ : Alone 1 s₁ := ⟨hi₁, hadded₁, fun t => by rw [hbase₁, newKeys_prio]; rfl, by rw [hbase₁]; rfl, hnext₁⟩
  have hgo₁ : Priq.step 0 started (.add 0) = .ok s₁ := hgo₁
  have hrun₁ : run (Priq.step 0) started [.add 0] = .ok s₁ := by
    rw [Lib.Runs.run, hgo₁]
    rfl
  have halong₁ : Along (Priq.step 0) (Proper 0) started [.add 0] := by
    refine ⟨hp, ?_⟩
    trivial
  obtain ⟨s₂, hrun₂, h₂, halong₂⟩ := h₁.pairs (n := 2 ^ 32 - 2) (by decide) (by decide)
  obtain ⟨s₃, hrun₃, halong₃, hbest⟩ := h₂.last
  refine ⟨halong₁.append hrun₁ (halong₂.append hrun₂ halong₃), s₃, ?_, hbest⟩
  exact (Lib.Runs.run_append hrun₁).trans ((Lib.Runs.run_append hrun₂).trans hrun₃)

end UsedUp

end RtosKernel.Zephyr.Priq
