import Mathlib.Logic.Function.Basic
import RtosKernel.Lib.RedBlack

/-! # The red/black tree (`rb.c`)

The nodes are in memory and have no pointer to their parent, so that every
operation keeps the way from the root on a stack of `max_depth + 1` entries. The
stack is a list with its top first. A fault is what the code must not do: use a
null pointer, or an index outside of the stack. -/
namespace RtosKernel.Zephyr.Rb
open Lib.RedBlack (Color)

/-- A node. The side 1 is `true`. The code keeps the colour in the low bit of the first pointer. -/
structure RbNode (Node : Type) where
  children : Bool → Option Node
  color : Color

abbrev Heap (Node : Type) := Node → RbNode Node

inductive Fault
  | null
  | bounds
  | assert
  /-- a loop takes more steps than there were entries on the stack -/
  | loop
  deriving DecidableEq

variable {Node : Type} [LinearOrder Node] (h : Heap Node)

def getChild (n : Node) (side : Bool) : Option Node := (h n).children side

def setChild (n : Node) (side : Bool) (val : Option Node) : Heap Node :=
  Function.update h n { h n with children := Function.update (h n).children side val }

def getColor (n : Node) : Color := (h n).color

def isBlack (n : Node) : Bool := getColor h n = .black

def isRed (n : Node) : Bool := getColor h n = .red

def setColor (n : Node) (color : Color) : Heap Node := Function.update h n { h n with color := color }

def deref : Option Node → Except Fault Node
  | some n => .ok n
  | none => .error .null

/-- One more entry on a stack of `cap` entries. -/
def push (cap : Nat) (n : Node) (stack : List Node) : Except Fault (List Node) :=
  if stack.length < cap then .ok (n :: stack) else .error .bounds

structure State (Node : Type) where
  heap : Heap Node
  root : Option Node
  maxDepth : Nat

/-- The loop of `find_and_stack`, with room for as many entries. `lessthan_fn` is the order. -/
def findLoop (node : Node) (room : Nat) (top : Node) (below : List Node) : Except Fault (List Node) :=
  if top = node then .ok (top :: below)
  else
    match getChild h top (!decide (node < top)) with
    | none => .ok (top :: below)
    | some ch =>
      match room with
      | 0 => .error .bounds
      | room + 1 => findLoop node room ch (top :: below)

def findAndStack (s : State Node) (node : Node) : Except Fault (List Node) :=
  match s.root with
  | none => .error .null
  | some root => findLoop s.heap node s.maxDepth root []

def getSide (parent child : Node) : Bool := getChild h parent true = some child

/-- The writes of `rotate`. -/
def rotateHeap (child parent : Node) (rest : List Node) : Heap Node :=
  let side := getSide h parent child
  let a := getChild h child side
  let b := getChild h child (!side)
  let h := match rest with
    | grandparent :: _ => setChild h grandparent (getSide h grandparent parent) (some child)
    | [] => h
  let h := setChild h child side a
  let h := setChild h child (!side) (some parent)
  setChild h parent side b

def rotate : List Node → Except Fault (Heap Node × List Node)
  | child :: parent :: rest => .ok (rotateHeap h child parent rest, parent :: child :: rest)
  | _ => .error .bounds

/-- The end of `fix_extra_red`: `lower` is the stack without the node. -/
def rotateLower (node : Node) (lower : List Node) : Except Fault (Heap Node × List Node) := do
  let (h, lower) ← rotate h lower
  match lower with
  | down :: up :: rest => .ok (setColor (setColor h up .black) down .red, node :: down :: up :: rest)
  | _ => .error .bounds

def fixExtraRed (h : Heap Node) : List Node → Except Fault (Heap Node × List Node)
  | [] => .error .bounds
  | [root] => .ok (setColor h root .black, [root])
  | node :: parent :: rest =>
    if isBlack h parent then .ok (h, node :: parent :: rest)
    else
      match rest with
      | [] => .error .bounds
      | grandparent :: rest =>
        let side := getSide h grandparent parent
        match (getChild h grandparent (!side)).filter (isRed h) with
        | some aunt =>
          fixExtraRed (setColor (setColor (setColor h grandparent .red) parent .black) aunt .black) (grandparent :: rest)
        | none =>
          if getSide h parent node ≠ side then do
            let (h, stack) ← rotate h (node :: parent :: grandparent :: rest)
            match stack with
            | node :: lower => rotateLower h node lower
            | [] => .error .bounds
          else rotateLower h node (parent :: grandparent :: rest)

def rbInsert (s : State Node) (node : Node) : Except Fault (State Node) :=
  let h := setChild (setChild s.heap node false none) node true none
  match s.root with
  | none => .ok ⟨setColor h node .black, some node, 1⟩
  | some root => do
    let stack ← findLoop h node s.maxDepth root []
    let parent ← deref stack.head?
    let h := setColor (setChild h parent (!decide (node < parent)) (some node)) node .red
    let stack ← push (s.maxDepth + 1) node stack
    let r ← fixExtraRed h stack
    .ok ⟨r.1, r.2.getLast?, if stack.length > s.maxDepth then stack.length else s.maxDepth⟩

/-- A red sibling takes the place of the parent. The node stays on top of the stack, and the rest of the stack
and the new sibling are returned. -/
def redSibling (cap : Nat) (n parent sib : Node) (nSide : Bool) (rest : List Node) :
    Except Fault (Heap Node × List Node × Node) := do
  let (h, stack) ← rotate h (sib :: parent :: rest)
  let h := setColor (setColor h parent .red) sib .black
  let _ ← push cap n stack
  let sib ← deref (getChild h parent (!nSide))
  .ok (h, stack.tail, sib)

/-- A red child of the sibling on the inner side takes the place of the sibling. -/
def innerRed (cap : Nat) (parent sib : Node) (nSide : Bool) (rest : List Node) : Except Fault (Heap Node × Node) := do
  let inner ← deref (getChild h sib nSide)
  let stack ← push cap inner (sib :: parent :: rest)
  let (h, _) ← rotate h stack
  .ok (setColor (setColor h sib .red) inner .black, inner)

/-- `child == NULL || is_black(child)`. -/
def nullOrBlack (child : Option Node) : Bool := child.all (isBlack h)

/-- The node to be removed leaves the tree. -/
def clearNull (nullNode n parent : Node) (nSide : Bool) : Heap Node :=
  if n = nullNode then setChild h parent nSide none else h

/-- The sibling with its red child on the outer side takes the place of the parent. -/
def outerRed (nullNode n parent sib : Node) (nSide : Bool) (rest : List Node) : Except Fault (Heap Node × List Node) := do
  let outer ← deref (getChild h sib (!nSide))
  let h := setColor (setColor (setColor h sib (getColor h parent)) parent .black) outer .black
  let (h, stack) ← rotate h (sib :: parent :: rest)
  .ok (clearNull h nullNode n parent nSide, stack)

/-- The rest of the loop of `fix_missing_black`: the sibling is black. Returned are the stack and
whether the function returns. -/
def blackSibling (cap : Nat) (nullNode n parent sib : Node) (nSide : Bool) (rest : List Node) :
    Except Fault (Heap Node × List Node × Bool) :=
  if nullOrBlack h (getChild h sib false) && nullOrBlack h (getChild h sib true) then
    let h := setColor (clearNull h nullNode n parent nSide) sib .red
    if isBlack h parent then .ok (h, parent :: rest, false)
    else .ok (setColor h parent .black, n :: parent :: rest, true)
  else do
    let (h, sib) ← match (getChild h sib (!nSide)).filter (isRed h) with
      | some _ => .ok (h, sib)
      | none => innerRed h cap parent sib nSide rest
    let (h, stack) ← outerRed h nullNode n parent sib nSide rest
    .ok (h, stack, true)

/-- `fix_missing_black`, with a stack of `cap` entries. -/
def fixMissingBlack (cap : Nat) (nullNode : Node) : Nat → Heap Node → List Node → Except Fault (Heap Node × List Node)
  | 0, _, _ => .error .loop
  | fuel + 1, h, n :: parent :: rest => do
    let nSide := getSide h parent n
    let sib ← deref (getChild h parent (!nSide))
    let (h, rest, sib) ← if isBlack h sib then .ok (h, rest, sib) else redSibling h cap n parent sib nSide rest
    let (h, stack, done) ← blackSibling h cap nullNode n parent sib nSide rest
    if done then .ok (h, stack) else fixMissingBlack cap nullNode fuel h stack
  | _ + 1, h, stack => .ok (h, stack)

/-- The way to the biggest child of side 0, with room for as many entries. -/
def rightLimb : Nat → Node → List Node → Except Fault (List Node)
  | 0, _, _ => .error .bounds
  | room + 1, node2, below =>
    match getChild h node2 true with
    | none => .ok (node2 :: below)
    | some m => rightLimb room m (node2 :: below)

/-- The children and the colours of `node` and of `node2`, which gets `low` on its left. -/
def exchange (node node2 : Node) (low : Option Node) : Heap Node :=
  let h := setChild h node false (getChild h node2 false)
  let h := setChild h node2 false low
  let h := setChild h node2 true (getChild h node true)
  let h := setChild h node true none
  let ctmp := getColor h node
  let h := setColor h node (getColor h node2)
  setColor h node2 ctmp

/-- `node` and `node2` change their places in the tree. -/
def swapNodes (node node2 loparent : Node) (hiparent : Option Node) : Heap Node :=
  let h := hiparent.elim h fun hiparent => setChild h hiparent (getSide h hiparent node) (some node2)
  if loparent = node then exchange h node node2 (some node)
  else
    let h := setChild h loparent (getSide h loparent node2) (some node)
    exchange h node node2 (getChild h node false)

/-- The first half of `rb_remove`: a node with two children changes places. `rest` is the stack below `node`. -/
def swapDown (cap : Nat) (node : Node) (rest : List Node) : Except Fault (Heap Node × List Node) :=
  match getChild h node false, getChild h node true with
  | some node2, some _ => do
    let limb ← rightLimb h (cap - (rest.length + 1)) node2 []
    match limb with
    | node2 :: mid => .ok (swapNodes h node node2 (mid.headD node) rest.head?, node :: (mid ++ node2 :: rest))
    | [] => .error .bounds
  | _, _ => .ok (h, node :: rest)

/-- The second half of `rb_remove`: the node has at most one child. -/
def unlink (maxDepth : Nat) : List Node → Except Fault (State Node)
  | [] => .error .bounds
  | [node] =>
    match (getChild h node false).or (getChild h node true) with
    | some child => .ok ⟨setColor h child .black, some child, maxDepth⟩
    | none => .ok ⟨h, none, 0⟩
  | node :: parent :: rest =>
    match (getChild h node false).or (getChild h node true) with
    | none =>
      if isBlack h node then do
        let r ← fixMissingBlack (maxDepth + 1) node (rest.length + 2) h (node :: parent :: rest)
        .ok ⟨r.1, r.2.getLast?, maxDepth⟩
      else .ok ⟨setChild h parent (getSide h parent node) none, (parent :: rest).getLast?, maxDepth⟩
    | some child =>
      let h := setChild h parent (getSide h parent node) (some child)
      if isRed h node ∧ isRed h child then .error .assert
      else
        .ok ⟨if isRed h node ∨ isRed h child then setColor h child .black else h, (parent :: rest).getLast?, maxDepth⟩

def rbRemove (s : State Node) (node : Node) : Except Fault (State Node) := do
  let stack ← findAndStack s node
  let top ← deref stack.head?
  if node ≠ top then .ok s
  else do
    let (h, stack) ← swapDown s.heap (s.maxDepth + 1) node stack.tail
    unlink h s.maxDepth stack

/-- The loop of `z_rb_get_minmax`. -/
def minmaxLoop (side : Bool) : Nat → Node → Option Node
  | 0, _ => none
  | fuel + 1, n =>
    match getChild h n side with
    | none => some n
    | some m => minmaxLoop side fuel m

/-- `z_rb_get_minmax`; none if the loop takes more than `fuel` steps. -/
def zRbGetMinmax (s : State Node) (side : Bool) (fuel : Nat) : Option (Option Node) :=
  match s.root with
  | none => some none
  | some root => (minmaxLoop s.heap side fuel root).map some

/-- The loop of `rb_contains`. -/
def containsLoop (node : Node) : Nat → Option Node → Option Bool
  | _, none => some false
  | 0, some _ => none
  | fuel + 1, some n => if n = node then some true else containsLoop node fuel (getChild h n (decide (n < node)))

def rbContains (s : State Node) (node : Node) (fuel : Nat) : Option Bool := containsLoop s.heap node fuel s.root

/-! ## The foreach loop -/

/-- `stack_left_limb`, with room for as many entries. The stack holds the nodes with their `is_left`. -/
def stackLeftLimb : Nat → Node → Bool → List (Node × Bool) → Except Fault (List (Node × Bool))
  | 0, _, _, _ => .error .bounds
  | room + 1, n, isLeft, f =>
    match getChild h n false with
    | none => .ok ((n, isLeft) :: f)
    | some m => stackLeftLimb room m true ((n, isLeft) :: f)

/-- The way up to the parent of a left child. -/
def unwind : List (Node × Bool) → List (Node × Bool)
  | (_, false) :: below :: f => unwind (below :: f)
  | f => f.tail

/-- `z_rb_foreach_next` with a stack of `max_depth` entries. -/
def zRbForeachNext (s : State Node) (f : List (Node × Bool)) : Except Fault (Option Node × List (Node × Bool)) := do
  match s.root, f with
  | none, f => .ok (none, f)
  | some root, [] =>
    let f ← stackLeftLimb s.heap s.maxDepth root false []
    .ok (f.head?.map Prod.fst, f)
  | some _, (n, isLeft) :: below =>
    match getChild s.heap n true with
    | some m =>
      let f ← stackLeftLimb s.heap (s.maxDepth - (below.length + 1)) m false ((n, isLeft) :: below)
      .ok (f.head?.map Prod.fst, f)
    | none =>
      if isLeft then
        match below with
        | [] => .error .bounds
        | (parent, _) :: _ => .ok (some parent, below)
      else
        let f := unwind ((n, isLeft) :: below)
        .ok (f.head?.map Prod.fst, f)

/-- The loop of `RB_FOR_EACH`, from a stack. -/
def rbForEach (s : State Node) : Nat → List (Node × Bool) → Except Fault (List Node)
  | 0, _ => .error .loop
  | fuel + 1, f => do
    let (node, f) ← zRbForeachNext s f
    match node with
    | none => .ok []
    | some node => (rbForEach s fuel f).map (node :: ·)

def foreachCalls (s : State Node) : Nat → List (Node × Bool) → Except Fault (List (Option Node))
  | 0, _ => .ok []
  | k + 1, f => do
    let (node, f) ← zRbForeachNext s f
    (foreachCalls s k f).map (node :: ·)

/-- The nodes that `z_rb_walk` visits, with `fuel` calls inside each other. -/
def zRbWalk : Nat → Option Node → Option (List Node)
  | _, none => some []
  | 0, some _ => none
  | fuel + 1, some n => do
    let smaller ← zRbWalk fuel (getChild h n false)
    let greater ← zRbWalk fuel (getChild h n true)
    return smaller ++ n :: greater

inductive Op (Node : Type)
  | insert (node : Node)
  | remove (node : Node)
  deriving DecidableEq

def step (s : State Node) : Op Node → Except Fault (State Node)
  | .insert node => rbInsert s node
  | .remove node => rbRemove s node

def run (s : State Node) : List (Op Node) → Except Fault (State Node)
  | [] => .ok s
  | op :: ops => (step s op).bind fun s => run s ops

/-- A tree with no nodes, as it is defined by the user. -/
def empty (h : Heap Node) : State Node := ⟨h, none, 0⟩

end RtosKernel.Zephyr.Rb
