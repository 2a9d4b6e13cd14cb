import Mathlib.Data.List.Basic
import Mathlib.Order.Fin.Basic
import RtosKernel.Lib.Runs
import RtosKernel.Zephyr.RbCalls

/-! # The foreach loop

The stack of the loop is the way from the root to the node that was returned last,
with the sides. The nodes that are still to come are those in its right subtree and
those to the right of the way. -/
namespace RtosKernel.Zephyr.Rb
open Lib.RedBlack
open Lib.RedBlack.RbTree (join)

variable {Node : Type} {h : Heap Node} {s : State Node} {t u l r : RbTree Node}
  {fs : List (Frame Node)} {n m : Node} {c : Color} {f : List (Node × Bool)} {rest : List Node}

def marked : Node → List (Frame Node) → List (Node × Bool)
  | n, [] => [(n, false)]
  | n, f :: fs => (n, !f.side) :: marked f.x fs

theorem marked_head (n : Node) (fs : List (Frame Node)) : (marked n fs).head?.map Prod.fst = some n := by
  cases fs <;> rfl

theorem marked_length (n : Node) (fs : List (Frame Node)) : (marked n fs).length = fs.length + 1 := by
  induction fs generalizing n with
  | nil => rfl
  | cons f fs ih => simp [marked, ih]

theorem marked_cons (n : Node) (fs : List (Frame Node)) : ∃ b below, marked n fs = (n, b) :: below ∧
    below.length = fs.length := by
  cases fs with
  | nil => exact ⟨false, [], rfl, rfl⟩
  | cons f fs => exact ⟨_, _, rfl, marked_length f.x fs⟩

/-- The loop is at a node, and `rest` is still to come. -/
def At (h : Heap Node) (t : RbTree Node) (n : Node) (f : List (Node × Bool)) (rest : List Node) : Prop :=
  ∃ c l r fs, f = marked n fs ∧ View h (some n) (join false c l n r) fs ∧ plug (join false c l n r) fs = t ∧
    rest = r.inorder ++ after fs

theorem stackLeftLimb_spec {room : Nat} {isLeft : Bool} {below : List (Node × Bool)}
    (hv : View h (some m) u fs) (hroom : u.depth ≤ room) (hmark : marked m fs = (m, isLeft) :: below) :
    ∃ n f rest, stackLeftLimb h room m isLeft below = .ok f ∧ At h (plug u fs) n f rest ∧
      n :: rest = u.inorder ++ after fs := by
  induction room generalizing m u fs isLeft below with
  | zero =>
    obtain ⟨c, l, r, rfl⟩ := hv.tree.exists_join false
    rw [RbTree.depth_join] at hroom
    omega
  | succ room ih =>
    obtain ⟨c, l, r, rfl⟩ := hv.tree.exists_join false
    rw [RbTree.depth_join] at hroom
    have hdown := hv.down
    rw [stackLeftLimb, getChild]
    cases hchild : (h m).children false with
    | none =>
      rw [hchild] at hdown
      obtain rfl := hdown.tree.eq_none
      exact ⟨m, _, _, rfl, ⟨c, .nil, r, fs, hmark.symm, hv, rfl, rfl⟩, rfl⟩
    | some k =>
      rw [hchild] at hdown
      have hmark' : marked k (⟨false, m, c, r⟩ :: fs) = (k, true) :: (m, isLeft) :: below := by
        rw [marked, hmark]
        rfl
      obtain ⟨n, f, rest, hgo, hat, hrest⟩ := ih hdown (by omega) hmark'
      refine ⟨n, f, rest, hgo, hat, ?_⟩
      rw [hrest, inorder_join]
      simp [after, Frame.after]

theorem unwind_spec (hv : View h (some n) u fs) : (unwind (marked n fs) = [] ∧ after fs = []) ∨
    ∃ m rest, At h (plug u fs) m (unwind (marked n fs)) rest ∧ after fs = m :: rest := by
  induction fs generalizing n u with
  | nil => exact .inl ⟨rfl, rfl⟩
  | cons f fs ih =>
    obtain ⟨side, x, c, other⟩ := f
    cases side with
    | true =>
      have hmark : unwind (marked n (⟨true, x, c, other⟩ :: fs)) = unwind (marked x fs) := by
        obtain ⟨_, _, heq, _⟩ := marked_cons x fs
        rw [marked, heq]
        rfl
      rw [hmark]
      exact ih hv.up
    | false => exact .inr ⟨x, other.inorder ++ after fs, ⟨c, u, other, fs, rfl, hv.up, rfl, rfl⟩, rfl⟩

theorem foreachNext_up {root : Node} (hroot : s.root = some root) (hchild : getChild s.heap n true = none) :
    zRbForeachNext s (marked n fs) =
      .ok ((unwind (marked n fs)).head?.map Prod.fst, unwind (marked n fs)) := by
  cases fs with
  | nil => simp only [zRbForeachNext, marked, hroot, hchild, Bool.false_eq_true, if_false]
  | cons f fs =>
    obtain ⟨side, x, c, other⟩ := f
    obtain ⟨b, below, hmark, _⟩ := marked_cons x fs
    cases side <;> simp [zRbForeachNext, marked, hroot, hchild, hmark, unwind]

theorem foreachNext_down {root : Node} {isLeft : Bool} {below : List (Node × Bool)} (hroot : s.root = some root)
    (hchild : getChild s.heap n true = some m) :
    zRbForeachNext s ((n, isLeft) :: below) =
      (stackLeftLimb s.heap (s.maxDepth - (below.length + 1)) m false ((n, isLeft) :: below)).map
        fun f => (f.head?.map Prod.fst, f) := by
  simp only [zRbForeachNext, hroot, hchild]
  rfl

theorem At.head (hat : At h t n f rest) : f.head?.map Prod.fst = some n := by
  obtain ⟨_, _, _, fs, rfl, _⟩ := hat
  exact marked_head n fs

theorem At.next {root : Node} (hat : At s.heap t n f rest) (hdepth : t.depth ≤ s.maxDepth) (hroot : s.root = some root) :
    (rest = [] ∧ zRbForeachNext s f = .ok (none, [])) ∨
    ∃ m rest' f', rest = m :: rest' ∧ zRbForeachNext s f = .ok (some m, f') ∧ At s.heap t m f' rest' := by
  obtain ⟨c, l, r, fs, rfl, hv, rfl, rfl⟩ := hat
  have hdown := hv.down (s := true) (c := c) (a := r) (b := l)
  cases hchild : (s.heap n).children true with
  | some m =>
    rw [hchild] at hdown
    have hroom := (length_add_depth_le (join false c l n r) fs).trans hdepth
    rw [RbTree.depth_join] at hroom
    obtain ⟨isLeft, below, hmark, hlen⟩ := marked_cons n fs
    have hmark' : marked m (⟨true, n, c, l⟩ :: fs) = (m, false) :: (n, isLeft) :: below := by
      rw [marked, hmark]
      rfl
    obtain ⟨k, f, rest, hgo, hat, hrest⟩ := stackLeftLimb_spec hdown
      (show r.depth ≤ s.maxDepth - (below.length + 1) by omega) hmark'
    refine .inr ⟨k, rest, f, by simpa [after, Frame.after] using hrest.symm, ?_, hat⟩
    rw [hmark, foreachNext_down hroot hchild, hgo, ← hat.head]
    rfl
  | none =>
    rw [hchild] at hdown
    obtain rfl := hdown.tree.eq_none
    rw [foreachNext_up hroot hchild]
    rcases unwind_spec hv with ⟨hnil, hafter⟩ | ⟨m, rest, hat, hafter⟩
    · exact .inl ⟨hafter, by rw [hnil]; rfl⟩
    · exact .inr ⟨m, rest, _, hafter, by rw [hat.head], hat⟩

/-- The loop is before its first call or at a node, and `rest` is still to come. -/
def Iterates (s : State Node) (t : RbTree Node) (f : List (Node × Bool)) (rest : List Node) : Prop :=
  f = [] ∧ rest = t.inorder ∨ ∃ n, At s.heap t n f rest

/-- A tree of distinct nodes that is no deeper than `max_depth`. -/
structure Valid (s : State Node) (t : RbTree Node) : Prop where
  owns : Owns s.heap s.root t
  nodup : t.inorder.Nodup
  depth : t.depth ≤ s.maxDepth

variable [ord : LinearOrder Node]

theorem Inv.valid (hi : Inv s t) : Valid s t := ⟨hi.owns, sorted_nodup hi.sorted, hi.depth⟩

section
variable (hi : Valid s t) (hit : Iterates s t f rest)
include hi hit

omit ord in
theorem Iterates.next :
    (rest = [] ∧ zRbForeachNext s f = .ok (none, [])) ∨
    ∃ m rest' f', rest = m :: rest' ∧ zRbForeachNext s f = .ok (some m, f') ∧ Iterates s t f' rest' := by
  have ho := hi.owns
  cases hroot : s.root with
  | none =>
    rw [hroot] at ho
    obtain rfl := ho.eq_none
    rcases hit with ⟨rfl, rfl⟩ | ⟨n, _, _, _, fs, _, _, hplug, _⟩
    · exact .inl ⟨rfl, by simp only [zRbForeachNext, hroot]⟩
    · have := congrArg RbTree.inorder hplug
      rw [inorder_plug, inorder_join] at this
      simp [RbTree.inorder] at this
  | some root =>
    rcases hit with ⟨rfl, rfl⟩ | ⟨n, hat⟩
    · rw [hroot] at ho
      obtain ⟨m, f, rest, hgo, hat, hrest⟩ := stackLeftLimb_spec (.of_root ho hi.nodup) hi.depth
        (show marked root [] = [(root, false)] from rfl)
      refine .inr ⟨m, rest, f, by simpa [after] using hrest.symm, ?_, .inr ⟨m, hat⟩⟩
      simp only [zRbForeachNext, hroot]
      rw [← hat.head]
      show (stackLeftLimb s.heap s.maxDepth root false []).bind _ = _
      rw [hgo]
      rfl
    · rcases hat.next hi.depth hroot with hlast | ⟨m, rest', f', hrest, hgo, hat⟩
      · exact .inl hlast
      · exact .inr ⟨m, rest', f', hrest, hgo, .inr ⟨m, hat⟩⟩

theorem Iterates.rbForEach {fuel : Nat} (hfuel : rest.length < fuel) : rbForEach s fuel f = .ok rest := by
  induction fuel generalizing f rest with
  | zero => omega
  | succ fuel ih =>
    show (zRbForeachNext s f).bind _ = _
    rcases hit.next hi with ⟨rfl, hgo⟩ | ⟨m, rest', f', rfl, hgo, hit⟩
    · rw [hgo]
      rfl
    · rw [hgo]
      show (Rb.rbForEach s fuel f').map (m :: ·) = _
      rw [ih hit (by simpa using hfuel)]
      rfl

omit ord in
theorem Iterates.foreachCalls (k : Nat) : ∃ ns, foreachCalls s k f = .ok ns := by
  induction k generalizing f rest with
  | zero => exact ⟨[], rfl⟩
  | succ k ih =>
    obtain ⟨o, f', rest', hgo, hit⟩ : ∃ o f' rest', zRbForeachNext s f = .ok (o, f') ∧ Iterates s t f' rest' := by
      rcases hit.next hi with ⟨_, hgo⟩ | ⟨m, rest', f', _, hgo, hit⟩
      · exact ⟨none, [], t.inorder, hgo, .inl ⟨rfl, rfl⟩⟩
      · exact ⟨some m, f', rest', hgo, hit⟩
    obtain ⟨ns, hns⟩ := ih hit
    refine ⟨o :: ns, ?_⟩
    show (zRbForeachNext s f).bind _ = _
    rw [hgo]
    show (Rb.foreachCalls s k f').map (o :: ·) = _
    rw [hns]
    rfl

omit ord in
theorem Iterates.calls : Rb.foreachCalls s (rest.length + 1) f = .ok (rest.map some ++ [none]) := by
  induction rest generalizing f with
  | nil =>
    rcases hit.next hi with ⟨_, hgo⟩ | ⟨_, _, _, hrest, _⟩
    · show (zRbForeachNext s f).bind _ = _
      rw [hgo]
      rfl
    · cases hrest
  | cons n rest ih =>
    rcases hit.next hi with ⟨hrest, _⟩ | ⟨m, rest', f', hrest, hgo, hit⟩
    · cases hrest
    · cases hrest
      show (zRbForeachNext s f).bind _ = _
      rw [hgo]
      show (Rb.foreachCalls s (rest.length + 1) f').map (some n :: ·) = _
      rw [ih hit]
      rfl

end

omit ord in
theorem zRbWalk_spec {p : Option Node} (ho : Owns h p t) {fuel : Nat} (hfuel : t.depth ≤ fuel) :
    zRbWalk h fuel p = some t.inorder := by
  induction t generalizing p fuel with
  | nil =>
    cases ho
    cases fuel <;> rfl
  | node c l x r ihl ihr =>
    obtain ⟨rfl, _, hl, hr⟩ := ho
    cases fuel with
    | zero => simp [RbTree.depth] at hfuel
    | succ fuel =>
      have hdepth : max l.depth r.depth ≤ fuel := by
        rw [RbTree.depth] at hfuel
        omega
      rw [zRbWalk, getChild, getChild, ihl hl ((Nat.le_max_left ..).trans hdepth),
        ihr hr ((Nat.le_max_right ..).trans hdepth)]
      rfl

omit ord in
/-- **The loop visits what the walk visits.** In every tree of distinct nodes that is no deeper than `max_depth`, the
calls of `z_rb_foreach_next` return the nodes in the order of `z_rb_walk`, and then a null pointer. -/
theorem foreach_walks (hv : Valid s t) {fuel : Nat} (hfuel : t.depth ≤ fuel) :
    ∃ ns, zRbWalk s.heap fuel s.root = some ns ∧ ns = t.inorder ∧ ns.Nodup ∧
      foreachCalls s (ns.length + 1) [] = .ok (ns.map some ++ [none]) :=
  ⟨_, zRbWalk_spec hv.owns hfuel, rfl, hv.nodup, Iterates.calls hv (.inl ⟨rfl, rfl⟩)⟩

/-- A root with a left child, which has a right child. -/
def bent : Heap (Fin 3)
  | 0 => ⟨fun side => if side then some 1 else none, .red⟩
  | 1 => ⟨fun _ => none, .black⟩
  | 2 => ⟨fun side => if side then none else some 0, .black⟩

theorem foreach_walks_bent : zRbWalk bent 3 (some 2) = some [0, 1, 2] ∧
    foreachCalls ⟨bent, some 2, 3⟩ 4 [] = .ok [some 0, some 1, some 2, none] := by
  have hv : Valid ⟨bent, some 2, 3⟩ (.node .black (.node .red .nil 0 (.node .black .nil 1 .nil)) 2 .nil) :=
    ⟨by simp [Owns, bent], by decide, by decide⟩
  obtain ⟨ns, hwalk, rfl, _, hcalls⟩ := foreach_walks hv (show _ ≤ 3 by decide)
  exact ⟨hwalk, hcalls⟩

end RtosKernel.Zephyr.Rb
