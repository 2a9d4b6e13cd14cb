import Mathlib.Data.List.Perm.Subperm
import RtosKernel.Zephyr.RbForeach

/-! # The tree after any sequence of calls

The members are ordered and the tree is balanced, the queries are right, and no
index is outside of a stack. A removal from a tree without nodes uses a null
pointer. -/
namespace RtosKernel.Zephyr.Rb
open Lib.RedBlack List
open Lib.RedBlack.RbTree (join)

variable {Node : Type} [LinearOrder Node] {h h' : Heap Node} {s s' : State Node} {p q : Option Node}
  {t t' a b : RbTree Node} {fs gs : List (Frame Node)} {f : Frame Node} {n x y : Node}

/-! ## Queries -/

theorem minmaxLoop_spec {fuel : Nat} (side : Bool) (ho : Owns h (some n) t) (hfuel : t.depth ≤ fuel) :
    minmaxLoop h side fuel n = if side then t.inorder.getLast? else t.inorder.head? := by
  induction fuel generalizing t n with
  | zero =>
    obtain ⟨c, a, b, rfl⟩ := ho.exists_join side
    simp only [RbTree.depth_join] at hfuel
    omega
  | succ fuel ih =>
    obtain ⟨c, a, b, rfl⟩ := ho.exists_join side
    obtain ⟨_, _, ha, _⟩ := owns_join.mp ho
    rw [minmaxLoop]
    cases hchild : getChild h n side with
    | none =>
      rw [show (h n).children side = none from hchild] at ha
      obtain rfl := ha.eq_none
      cases side <;> simp [inorder_join, RbTree.inorder]
    | some m =>
      rw [show (h n).children side = some m from hchild] at ha
      simp only [RbTree.depth_join] at hfuel
      show minmaxLoop h side fuel m = _
      rw [ih ha (by omega)]
      have hne : a.inorder ≠ [] := ne_nil_of_mem ha.mem
      cases side with
      | false => simp [inorder_join, List.head?_append_of_ne_nil _ hne]
      | true =>
        simp only [inorder_join, if_true]
        rw [List.getLast?_append_of_ne_nil _ (by simp), List.getLast?_cons_of_ne_nil hne]

theorem containsLoop_spec {node : Node} {fuel : Nat} (ho : Owns h p t) (hsorted : t.inorder.Pairwise (· < ·))
    (hfuel : t.depth ≤ fuel) : containsLoop h node fuel p = some (decide (node ∈ t.inorder)) := by
  induction fuel generalizing t p with
  | zero =>
    cases t with
    | nil =>
      obtain rfl : p = none := ho
      simp [containsLoop, RbTree.inorder]
    | node c l x r =>
      simp only [RbTree.depth] at hfuel
      omega
  | succ fuel ih =>
    cases t with
    | nil =>
      obtain rfl : p = none := ho
      simp [containsLoop, RbTree.inorder]
    | node c l x r =>
      obtain ⟨rfl, _, hl, hr⟩ := ho
      simp only [RbTree.depth] at hfuel
      simp only [RbTree.inorder] at hsorted ⊢
      obtain ⟨hsl, hxr, hlr⟩ := pairwise_append.mp hsorted
      obtain ⟨hxr, hsr⟩ := pairwise_cons.mp hxr
      rw [containsLoop]
      by_cases heq : x = node
      · simp [heq]
      · rw [if_neg heq]
        by_cases hlt : x < node
        · have hnl : node ∉ l.inorder := fun hy => lt_asymm hlt (hlr node hy x (mem_cons_self ..))
          rw [getChild, decide_eq_true hlt, ih hr hsr (by omega)]
          simp [hnl, Ne.symm heq]
        · have hgt : node < x := lt_of_le_of_ne (not_lt.mp hlt) (Ne.symm heq)
          have hnr : node ∉ r.inorder := fun hy => lt_asymm hgt (hxr node hy)
          rw [getChild, decide_eq_false hlt, ih hl hsl (by omega)]
          simp [hnr, Ne.symm heq]

theorem Inv.minmax (hi : Inv s t) (side : Bool) {fuel : Nat} (hfuel : s.maxDepth ≤ fuel) :
    zRbGetMinmax s side fuel = some (if side then t.inorder.getLast? else t.inorder.head?) := by
  have ho := hi.owns
  rw [zRbGetMinmax]
  cases hroot : s.root with
  | none =>
    rw [hroot] at ho
    obtain rfl := ho.eq_none
    cases side <;> rfl
  | some root =>
    rw [hroot] at ho
    have hspec := minmaxLoop_spec side ho (hi.depth.trans hfuel)
    have hsome : minmaxLoop s.heap side fuel root ≠ none := by
      rw [hspec]
      have hne := ne_nil_of_mem ho.mem
      cases side <;> simp [hne]
    obtain ⟨x, hx⟩ := Option.ne_none_iff_exists'.mp hsome
    rw [hspec] at hx
    show (minmaxLoop s.heap side fuel root).map some = _
    rw [hspec, hx]
    rfl

/-! ## Runs -/

def Op.members (m : List Node) : Op Node → List Node
  | .insert x => x :: m
  | .remove x => m.filter fun y => y ≠ x

def members (ops : List (Op Node)) : List Node := ops.foldl Op.members []

/-- Every call meets a condition on the members before it. -/
def Along (P : List Node → Op Node → Prop) (m : List Node) : List (Op Node) → Prop
  | [] => True
  | op :: ops => P m op ∧ Along P (op.members m) ops

/-- Only nodes that are not in the tree are inserted. -/
def InsertsNew (m : List Node) : Op Node → Prop
  | .insert x => x ∉ m
  | .remove _ => True

/-- Nothing is removed from a tree without nodes. -/
def TreeNotEmpty (m : List Node) : Op Node → Prop
  | .insert _ => True
  | .remove _ => m ≠ []

instance Along.instDecidable (P : List Node → Op Node → Prop) [∀ m op, Decidable (P m op)] (m : List Node)
    (ops : List (Op Node)) : Decidable (Along P m ops) :=
  match ops with
  | [] => isTrue trivial
  | op :: ops =>
    have := Along.instDecidable P (op.members m) ops
    inferInstanceAs (Decidable (_ ∧ _))

instance (m : List Node) (op : Op Node) : Decidable (InsertsNew m op) := by
  cases op <;> unfold InsertsNew <;> infer_instance

instance (m : List Node) (op : Op Node) : Decidable (TreeNotEmpty m op) := by
  cases op <;> unfold TreeNotEmpty <;> infer_instance

/-- The tree in memory has these members. -/
def Holds (s : State Node) (m : List Node) : Prop := ∃ t, Inv s t ∧ ∀ y, y ∈ t.inorder ↔ y ∈ m

theorem empty_holds (h : Heap Node) : Holds (empty h) [] :=
  ⟨.nil, ⟨rfl, List.Pairwise.nil, rfl, ⟨0, rfl, le_rfl⟩, le_rfl⟩, fun _ => Iff.rfl⟩

variable {m : List Node}

theorem Holds.insert (hs : Holds s m) (hnew : x ∉ m) : ∃ s', rbInsert s x = .ok s' ∧ Holds s' (x :: m) := by
  obtain ⟨t, hi, hmem⟩ := hs
  obtain ⟨s', t', hgo, hi', hmem'⟩ := rbInsert_spec hi fun hx => hnew ((hmem x).mp hx)
  exact ⟨s', hgo, t', hi', fun y => by rw [hmem', hmem, mem_cons]⟩

theorem Holds.remove (hs : Holds s m) (hne : m ≠ []) (x : Node) :
    ∃ s', rbRemove s x = .ok s' ∧ Holds s' (m.filter fun y => y ≠ x) := by
  obtain ⟨t, hi, hmem⟩ := hs
  have htree : t ≠ .nil := by
    rintro rfl
    exact hne (eq_nil_iff_forall_not_mem.mpr fun y hy => by cases (hmem y).mpr hy)
  obtain ⟨s', t', hgo, hi', hmem'⟩ : ∃ s' t', rbRemove s x = .ok s' ∧ Inv s' t' ∧ _ := rbRemove_spec hi htree
  exact ⟨s', hgo, t', hi', fun y => by simp [hmem', hmem]⟩

theorem Holds.step (hs : Holds s m) {op : Op Node} (hnew : InsertsNew m op) (hne : TreeNotEmpty m op) :
    ∃ s', step s op = .ok s' ∧ Holds s' (op.members m) := by
  cases op with
  | insert x => exact hs.insert hnew
  | remove x => exact hs.remove hne x

theorem Holds.run (hs : Holds s m) {ops : List (Op Node)} (hnew : Along InsertsNew m ops)
    (hne : Along TreeNotEmpty m ops) : ∃ s', run s ops = .ok s' ∧ Holds s' (ops.foldl Op.members m) := by
  induction ops generalizing s m with
  | nil => exact ⟨s, rfl, hs⟩
  | cons op ops ih =>
    obtain ⟨s1, hgo, hs1⟩ := hs.step hnew.1 hne.1
    obtain ⟨s2, hrun, hs2⟩ := ih hs1 hnew.2 hne.2
    refine ⟨s2, ?_, hs2⟩
    rw [Rb.run, hgo]
    exact hrun

structure Correct (s : State Node) (m : List Node) : Prop where
  /-- the members are in order; the root is black, no red node has a red child, and every way from
  the root to a null pointer has the same number of black nodes -/
  tree : ∃ t, Owns s.heap s.root t ∧ t.inorder.Pairwise (· < ·) ∧ (∀ y, y ∈ t.inorder ↔ y ∈ m) ∧ t.isRed = false ∧
    ∃ n, Balanced n t
  min : ∀ fuel ≥ s.maxDepth, ∃ r, zRbGetMinmax s false fuel = some r ∧ ∀ x, r = some x ↔ x ∈ m ∧ ∀ y ∈ m, x ≤ y
  max : ∀ fuel ≥ s.maxDepth, ∃ r, zRbGetMinmax s true fuel = some r ∧ ∀ x, r = some x ↔ x ∈ m ∧ ∀ y ∈ m, y ≤ x
  contains : ∀ fuel ≥ s.maxDepth, ∀ x, rbContains s x fuel = some (decide (x ∈ m))

theorem head_least {l : List Node} (hl : l.Pairwise (· < ·)) (x : Node) :
    l.head? = some x ↔ x ∈ l ∧ ∀ y ∈ l, x ≤ y := by
  cases l with
  | nil => simp
  | cons a l =>
    obtain ⟨ha, _⟩ := pairwise_cons.mp hl
    simp only [List.head?_cons, Option.some.injEq]
    constructor
    · rintro rfl
      refine ⟨mem_cons_self .., fun y hy => ?_⟩
      rcases mem_cons.mp hy with rfl | hy
      · exact le_rfl
      · exact (ha y hy).le
    · rintro ⟨hx, hle⟩
      rcases mem_cons.mp hx with rfl | hx
      · rfl
      · exact absurd (hle a (mem_cons_self ..)) (not_le.mpr (ha x hx))

theorem last_greatest {l : List Node} (hl : l.Pairwise (· < ·)) (x : Node) :
    l.getLast? = some x ↔ x ∈ l ∧ ∀ y ∈ l, y ≤ x := by
  rw [← List.head?_reverse]
  have hrev : l.reverse.Pairwise (· > ·) := pairwise_reverse.mpr hl
  have hmem : ∀ y, y ∈ l ↔ y ∈ l.reverse := fun y => mem_reverse.symm
  simp only [hmem]
  exact @head_least Nodeᵒᵈ _ _ hrev x

theorem Holds.correct (hs : Holds s m) : Correct s m := by
  obtain ⟨t, hi, hmem⟩ := hs
  obtain ⟨n, hbal, _⟩ := hi.balanced
  refine ⟨⟨t, hi.owns, hi.sorted, hmem, hi.root, n, hbal⟩, fun fuel hfuel => ⟨_, hi.minmax false hfuel, fun x => ?_⟩,
    fun fuel hfuel => ⟨_, hi.minmax true hfuel, fun x => ?_⟩, fun fuel hfuel x => ?_⟩
  · simp only [Bool.false_eq_true, if_false, head_least hi.sorted, hmem]
  · simp only [if_true, last_greatest hi.sorted, hmem]
  · rw [rbContains, containsLoop_spec hi.owns hi.sorted (hi.depth.trans hfuel)]
    simp only [hmem]

/-- **The tree is right.** For every sequence of insertions of new nodes and removals that does not remove from
a tree without nodes, the calls return, the members are in order in a red-black tree, and the queries are right.
-/
theorem red_black_members (h : Heap Node) {ops : List (Op Node)} (hnew : Along InsertsNew [] ops)
    (hne : Along TreeNotEmpty [] ops) : ∃ s, run (empty h) ops = .ok s ∧ Correct s (members ops) := by
  obtain ⟨s, hrun, hs⟩ := (empty_holds h).run hnew hne
  exact ⟨s, hrun, hs.correct⟩

/-- A node with two children is removed, and a node that is not there. -/
def insertAndRemove : List (Op (Fin 8)) :=
  [.insert 3, .insert 1, .insert 5, .insert 4, .insert 7, .remove 3, .remove 6, .insert 3, .remove 1]

theorem red_black_members_eight : ∃ s, run (empty fun _ => ⟨fun _ => some 0, .red⟩) insertAndRemove = .ok s ∧
    Correct s (members insertAndRemove) ∧ members insertAndRemove = [3, 7, 4, 5] := by
  obtain ⟨s, hrun, hs⟩ := red_black_members (fun _ => ⟨fun _ => some 0, .red⟩)
    (show Along InsertsNew [] insertAndRemove by decide) (by decide)
  exact ⟨s, hrun, hs, by decide⟩

/-- A removal from a tree without nodes: the root, a null pointer, is used. -/
theorem remove_from_empty : Along InsertsNew [] [Op.remove (0 : Fin 1)] ∧
    run (empty fun _ => ⟨fun _ => none, .red⟩) [.remove (0 : Fin 1)] = .error .null := ⟨⟨trivial, trivial⟩, rfl⟩

/-! ## The stack -/

theorem Holds.remove_empty (hs : Holds s []) (x : Node) : rbRemove s x = .error .null := by
  obtain ⟨t, hi, hmem⟩ := hs
  have ho := hi.owns
  cases hroot : s.root with
  | none =>
    show (findAndStack s x).bind _ = _
    rw [findAndStack, hroot]
    rfl
  | some root =>
    rw [hroot] at ho
    cases (hmem root).mp ho.mem

theorem Holds.run_or_null (hs : Holds s m) {ops : List (Op Node)} (hnew : Along InsertsNew m ops) :
    (∃ s', Rb.run s ops = .ok s' ∧ Holds s' (ops.foldl Op.members m)) ∨ Rb.run s ops = .error .null := by
  induction ops generalizing s m with
  | nil => exact .inl ⟨s, rfl, hs⟩
  | cons op ops ih =>
    have hstep : (∃ s', Rb.step s op = .ok s' ∧ Holds s' (op.members m)) ∨ Rb.step s op = .error .null := by
      cases op with
      | insert x => exact .inl (hs.insert hnew.1)
      | remove x =>
        cases m with
        | nil => exact .inr (hs.remove_empty x)
        | cons y m => exact .inl (hs.remove (cons_ne_nil y m) x)
    rw [Rb.run]
    rcases hstep with ⟨s1, hgo, hs1⟩ | hgo
    · rw [hgo]
      exact ih hs1 hnew.2
    · rw [hgo]
      exact .inr rfl

/-- **The stack is never left.** For every sequence of insertions of new nodes and removals, no index is outside
of the stack of a call; the tree is no deeper than `max_depth`, and any number of calls of the foreach loop
return. -/
theorem stack_bounds (h : Heap Node) {ops : List (Op Node)} (hnew : Along InsertsNew [] ops) :
    run (empty h) ops ≠ .error .bounds ∧ ∀ s, run (empty h) ops = .ok s →
      (∃ t, Owns s.heap s.root t ∧ t.depth ≤ s.maxDepth) ∧ ∀ k, ∃ ns, foreachCalls s k [] = .ok ns := by
  rcases (empty_holds h).run_or_null hnew with ⟨s, hrun, t, hi, _⟩ | hrun
  · rw [hrun]
    refine ⟨by simp, fun s' hs' => ?_⟩
    cases hs'
    exact ⟨⟨t, hi.owns, hi.depth⟩, Iterates.foreachCalls hi.valid (.inl ⟨rfl, rfl⟩)⟩
  · rw [hrun]
    exact ⟨by simp, fun s' hs' => by cases hs'⟩

theorem stack_bounds_eight :
    (run (empty fun _ => ⟨fun _ => some 0, .red⟩) insertAndRemove).map State.maxDepth = .ok 4 ∧
      ∀ s, run (empty fun _ => ⟨fun _ => some 0, .red⟩) insertAndRemove = .ok s →
        (∃ t, Owns s.heap s.root t ∧ t.depth ≤ s.maxDepth) ∧ ∀ k, ∃ ns, foreachCalls s k [] = .ok ns :=
  ⟨by decide +kernel, (stack_bounds (fun _ => ⟨fun _ => some 0, .red⟩) (show Along InsertsNew [] insertAndRemove by decide)).2⟩

end RtosKernel.Zephyr.Rb
