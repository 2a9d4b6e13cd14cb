import RtosKernel.Zephyr.PriqLists

/-! # The tree of a run queue

The order of the tree depends on the keys of the threads, which change. For each state the threads have a linear
order, by priority, key and address, that is what `z_priq_rb_lessthan` says of the members; with it the calls
are those of `rb.c`. -/
namespace RtosKernel.Zephyr.Priq
open Zephyr.WaitQ
open Lib.RedBlack (RbTree plug length_inorder_lt)
open Zephyr.Rb (Heap State Fault Owns getChild setChild setColor rbInsert rbRemove findLoop findAndStack
  fixExtraRed fixMissingBlack unlink rbForEach zRbGetMinmax)

variable {T : Type} [LinearOrder T] {base base' : T → ThreadBase} {a b t u node top : T} {d : List T}
  {lessthan : T → T → Bool} {h : Heap T} {s s' : State T} {tree : RbTree T}

/-! ## The calls with an order -/

theorem sorted_eq {l d : List T} (hl : l.Pairwise (· < ·)) (hd : d.Pairwise (· < ·)) (hmem : ∀ y, y ∈ l ↔ y ∈ d) : l = d :=
  hl.eq_of_mem_iff hd hmem

/-- The comparison of a thread with members is that of the order. -/
def Tells (lessthan : T → T → Bool) (node : T) (d : List T) : Prop :=
  ∀ x ∈ d, x ≠ node → lessthan node x = decide (node < x)

theorem findLoopBy_eq {room : Nat} {below : List T} (ho : Owns h (some top) tree)
    (htells : Tells lessthan node tree.inorder) :
    findLoopBy lessthan h node room top below = findLoop h node room top below := by
  induction room generalizing top below tree with
  | zero =>
    rw [findLoopBy, findLoop]
    by_cases heq : top = node
    · rw [if_pos heq, if_pos heq]
    · have hsame := htells top ho.mem heq
      cases hch : getChild h top !lessthan node top with
      | none =>
        rw [hsame] at hch
        simp only [hch]
      | some ch =>
        rw [hsame] at hch
        simp only [hch]
  | succ room ih =>
    rw [findLoopBy, findLoop]
    by_cases heq : top = node
    · rw [if_pos heq, if_pos heq]
    · rw [if_neg heq, if_neg heq, htells top ho.mem heq]
      generalize (!decide (node < top)) = side
      obtain ⟨c, near, far, rfl⟩ := ho.exists_join side
      obtain ⟨-, -, hnear, -⟩ := Rb.owns_join.mp ho
      cases hchild : getChild h top side with
      | none => rfl
      | some ch =>
        rw [show (h top).children side = some ch from hchild] at hnear
        exact ih hnear fun x hx => htells x (Rb.mem_join.mpr (.inr (.inl hx)))

theorem rbInsertBy_eq (hi : Rb.Inv s tree) (hnew : node ∉ tree.inorder) (htells : Tells lessthan node tree.inorder) :
    rbInsertBy lessthan s node = rbInsert s node := by
  rw [rbInsertBy, rbInsert]
  cases hroot : s.root with
  | none => rfl
  | some root =>
    have ho := hi.owns
    rw [hroot] at ho
    replace ho : Owns (setChild (setChild s.heap node false none) node true none) (some root) tree := by
      refine ho.congr fun y hy => ?_
      have hne : y ≠ node := fun heq => hnew (heq ▸ hy)
      rw [Rb.setChild_ne _ _ _ hne, Rb.setChild_ne _ _ _ hne]
    obtain ⟨parent, _, gs, hfind, hv, hplug, -⟩ := Rb.findLoop_spec node s.maxDepth
      (.of_root ho (Rb.sorted_nodup hi.sorted)) (fun f hf => by cases hf) (hi.depth.trans (Nat.le_succ _))
    have hmem : parent ∈ (plug tree []).inorder := hplug ▸ Rb.mem_plug.mpr (.inl hv.tree.mem)
    have hne : parent ≠ node := fun heq => hnew (heq ▸ hmem)
    dsimp only
    rw [findLoopBy_eq ho htells]
    simp only [show findLoop _ node s.maxDepth root [] = _ from hfind, Bind.bind, Except.bind, List.head?_cons, Rb.deref,
      htells parent hmem hne]

theorem rbRemoveBy_eq (hi : Rb.Inv s tree) (htells : Tells lessthan node tree.inorder) :
    rbRemoveBy lessthan s node = rbRemove s node := by
  have hfind : findAndStackBy lessthan s node = findAndStack s node := by
    rw [findAndStackBy, findAndStack]
    cases hroot : s.root with
    | none => rfl
    | some root =>
      have ho := hi.owns
      rw [hroot] at ho
      exact findLoopBy_eq ho htells
  rw [rbRemoveBy, rbRemove, hfind]

def threadKey (base : T → ThreadBase) (t : T) : Int ×ₗ Nat ×ₗ T := toLex ((base t).prio, toLex ((base t).orderKey, t))

omit [LinearOrder T] in
theorem threadKey_injective (base : T → ThreadBase) : Function.Injective (threadKey base) := by
  intro a b hab
  simp only [threadKey, EmbeddingLike.apply_eq_iff_eq, Prod.mk.injEq] at hab
  exact hab.2.2

@[reducible] noncomputable def threadOrder (base : T → ThreadBase) : LinearOrder T :=
  { PartialOrder.lift (threadKey base) (threadKey_injective base) with
    le_total := fun a b => le_total (threadKey base a) (threadKey base b)
    toDecidableLE := fun a b => inferInstanceAs (Decidable (threadKey base a ≤ threadKey base b))
    toDecidableLT := fun a b => inferInstanceAs (Decidable (threadKey base a < threadKey base b))
    toDecidableEq := inferInstance
    min := fun a b => if threadKey base a ≤ threadKey base b then a else b
    max := fun a b => if threadKey base a ≤ threadKey base b then b else a
    compare := fun a b => if threadKey base a < threadKey base b then .lt else if a = b then .eq else .gt
    compare_eq_compareOfLessAndEq := fun _ _ => rfl }

theorem threadOrder_lt : (threadOrder base).lt a b ↔ zPriqRbLessthan base a b = true ∨
    ((base a).prio = (base b).prio ∧ (base a).orderKey = (base b).orderKey ∧ a < b) := by
  show threadKey base a < threadKey base b ↔ _
  rw [threadKey, threadKey, Prod.Lex.toLex_lt_toLex, Prod.Lex.toLex_lt_toLex, lessthan_iff]
  simp only
  tauto

theorem threadOrder_eq (hab : zPriqRbLessthan base a b = true ∨ zPriqRbLessthan base b a = true) :
    zPriqRbLessthan base a b = decide ((threadOrder base).lt a b) := by
  rw [Bool.eq_iff_iff, decide_eq_true_eq, threadOrder_lt]
  refine ⟨.inl, fun hlt => ?_⟩
  rcases hlt with hlt | ⟨hprio, hkey, _⟩
  · exact hlt
  · rw [lessthan_iff, lessthan_iff] at hab
    omega

theorem threadOrder_ordered (hd : Ordered base d) : d.Pairwise (threadOrder base).lt :=
  hd.imp fun hab => threadOrder_lt.mpr (.inl hab)

/-! The calls themselves use of an order that equality can be decided. -/

theorem findLoopBy_threadOrder : @findLoopBy T (threadOrder base) = findLoopBy := by
  delta findLoopBy
  rfl

theorem fixExtraRed_threadOrder : @fixExtraRed T (threadOrder base) = fixExtraRed := by
  delta fixExtraRed
  rfl

theorem fixMissingBlack_threadOrder : @fixMissingBlack T (threadOrder base) = fixMissingBlack := by
  delta fixMissingBlack
  rfl

theorem unlink_threadOrder : @unlink T (threadOrder base) = unlink := by
  delta unlink
  rw [fixMissingBlack_threadOrder]
  rfl

theorem rbInsertBy_threadOrder : @rbInsertBy T (threadOrder base) = rbInsertBy := by
  delta rbInsertBy
  rw [findLoopBy_threadOrder, fixExtraRed_threadOrder]
  rfl

theorem rbRemoveBy_threadOrder : @rbRemoveBy T (threadOrder base) = rbRemoveBy := by
  delta rbRemoveBy findAndStackBy
  rw [findLoopBy_threadOrder, unlink_threadOrder]
  rfl

/-! ## Refinement of the list -/

/-- The tree is a red-black tree with the members of the list from left to right. -/
def Refines (base : T → ThreadBase) (s : State T) (d : List T) : Prop :=
  ∃ tree, @Rb.Inv T (threadOrder base) s tree ∧ tree.inorder = d

theorem Refines.of_mem_iff (hi : @Rb.Inv T (threadOrder base) s tree) (hd : Ordered base d)
    (hmem : ∀ y, y ∈ tree.inorder ↔ y ∈ d) : Refines base s d :=
  ⟨tree, hi, @sorted_eq T (threadOrder base) _ _ (@Rb.Inv.sorted T (threadOrder base) _ _ hi) (threadOrder_ordered hd) hmem⟩

theorem Refines.reorder (hr : Refines base s d) (hd : Ordered base' d) : Refines base' s d := by
  obtain ⟨tree, ⟨howns, -, hroot, hbalanced, hdepth⟩, rfl⟩ := hr
  exact ⟨tree, @Rb.Inv.mk T (threadOrder base') s tree howns (threadOrder_ordered hd) hroot hbalanced hdepth, rfl⟩

theorem Ordered.tells (hd : Ordered base d) (hnode : node ∈ d) :
    @Tells T (threadOrder base) (zPriqRbLessthan base) node d := by
  intro x hx hne
  refine threadOrder_eq ?_
  let R := fun a b => a ≠ b → zPriqRbLessthan base a b = true ∨ zPriqRbLessthan base b a = true
  have hR : ∀ a ∈ d, ∀ b ∈ d, R a b := List.Pairwise.forall_of_forall_of_flip (fun a _ hne => absurd rfl hne)
    (hd.imp fun hab _ => .inl hab) (hd.imp fun hab _ => .inr hab)
  exact hR node hnode x hx (Ne.symm hne)

section
variable (hr : Refines base s d)
include hr

theorem Refines.insert {d' : List T} (hnew : node ∉ d) (hd : Ordered base d')
    (hmem : ∀ y, y ∈ d' ↔ y = node ∨ y ∈ d) :
    ∃ s', rbInsertBy (zPriqRbLessthan base) s node = .ok s' ∧ Refines base s' d' := by
  obtain ⟨tree, hi, rfl⟩ := hr
  have htells : @Tells T (threadOrder base) (zPriqRbLessthan base) node tree.inorder :=
    fun x hx => hd.tells ((hmem node).mpr (.inl rfl)) x ((hmem x).mpr (.inr hx))
  obtain ⟨s', tree', hgo, hi', hmem'⟩ := @Rb.rbInsert_spec T (threadOrder base) s tree node hi hnew
  refine ⟨s', ?_, Refines.of_mem_iff hi' hd fun y => by rw [hmem', hmem]⟩
  rw [← hgo, ← @rbInsertBy_threadOrder T _ base]
  exact @rbInsertBy_eq T (threadOrder base) node _ s tree hi hnew htells

theorem Refines.remove (hd : Ordered base d) (hnode : node ∈ d) :
    ∃ s', rbRemoveBy (zPriqRbLessthan base) s node = .ok s' ∧ Refines base s' (d.erase node) := by
  obtain ⟨tree, hi, rfl⟩ := hr
  have hne : tree ≠ .nil := by
    rintro rfl
    cases hnode
  obtain ⟨s', tree', hgo, hi', hmem⟩ := @Rb.rbRemove_spec T (threadOrder base) s tree node hi hne
  refine ⟨s', ?_, Refines.of_mem_iff hi' (hd.sublist List.erase_sublist) fun y => ?_⟩
  · rw [← hgo, ← @rbRemoveBy_threadOrder T _ base]
    exact @rbRemoveBy_eq T (threadOrder base) node _ s tree hi (hd.tells hnode)
  · rw [hmem, hd.nodup.mem_erase_iff, and_comm]

theorem Refines.root_eq_none : s.root = none ↔ d = [] := by
  obtain ⟨tree, hi, rfl⟩ := hr
  have howns := @Rb.Inv.owns T (threadOrder base) _ _ hi
  cases hroot : s.root with
  | none =>
    rw [hroot] at howns
    simp [Rb.Owns.eq_none howns, RbTree.inorder]
  | some root =>
    rw [hroot] at howns
    simp [List.ne_nil_of_mem (Rb.Owns.mem howns)]

theorem Refines.forEach : rbForEach s (2 ^ s.maxDepth) [] = .ok d := by
  obtain ⟨tree, hi, rfl⟩ := hr
  have hdepth := @Rb.Inv.depth T (threadOrder base) _ _ hi
  have hlen := (length_inorder_lt tree).trans_le (Nat.pow_le_pow_right Nat.two_pos hdepth)
  have hv := @Rb.Inv.valid T _ _ (threadOrder base) hi
  exact Rb.Iterates.rbForEach hv (.inl ⟨rfl, rfl⟩) hlen

theorem Refines.best (key : Nat) : zPriqRbBest ⟨s, key⟩ = some d.head? := by
  obtain ⟨tree, hi, rfl⟩ := hr
  exact @Rb.Inv.minmax T (threadOrder base) _ _ hi false _ le_rfl

end

end RtosKernel.Zephyr.Priq
