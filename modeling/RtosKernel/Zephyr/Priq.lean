import RtosKernel.Lib.Bits
import RtosKernel.Lib.Runs
import RtosKernel.Zephyr.RbRuns
import RtosKernel.Zephyr.WaitQ

/-! # Run queues (`sched.c`, `sched_priq.h`)

A run queue is a list in the order of the priorities, a red-black tree or 32 lists
with a word that tells which of them have a thread. In the tree, threads of one
priority are told apart by a key which the queue hands out; keys are numbers of 32
bits. The three run side by side here, on the same calls. -/
namespace RtosKernel.Zephyr.Priq
open Zephyr.WaitQ
open Zephyr.Rb (Heap State Fault getChild setChild setColor deref push fixExtraRed swapDown unlink
  rbForEach zRbGetMinmax)

/-- What the queues use of `struct _thread_base`. -/
structure ThreadBase where
  prio : Int
  /-- an `uint32_t` -/
  orderKey : Nat
  deriving DecidableEq

variable {T : Type} [LinearOrder T] (base : T → ThreadBase)

/-! ## The list -/

def zPriqDumbRemove (pq : List T) (thread : T) : List T := pq.erase thread

/-! ## The tree -/

section Tree
variable (lessthan : T → T → Bool)

/-- The loop of `find_and_stack`, with the `lessthan_fn` of the tree. -/
def findLoopBy (h : Heap T) (node : T) (room : Nat) (top : T) (below : List T) : Except Fault (List T) :=
  if top = node then .ok (top :: below)
  else
    match getChild h top (!lessthan node top) with
    | none => .ok (top :: below)
    | some ch =>
      match room with
      | 0 => .error .bounds
      | room + 1 => findLoopBy h node room ch (top :: below)

/-- `find_and_stack`. -/
def findAndStackBy (s : State T) (node : T) : Except Fault (List T) :=
  match s.root with
  | none => .error .null
  | some root => findLoopBy lessthan s.heap node s.maxDepth root []

/-- `rb_insert`. -/
def rbInsertBy (s : State T) (node : T) : Except Fault (State T) :=
  let h := setChild (setChild s.heap node false none) node true none
  match s.root with
  | none => .ok ⟨setColor h node .black, some node, 1⟩
  | some root => do
    let stack ← findLoopBy lessthan h node s.maxDepth root []
    let parent ← deref stack.head?
    let h := setColor (setChild h parent (!lessthan node parent) (some node)) node .red
    let stack ← push (s.maxDepth + 1) node stack
    let r ← fixExtraRed h stack
    .ok ⟨r.1, r.2.getLast?, if stack.length > s.maxDepth then stack.length else s.maxDepth⟩

/-- `rb_remove`. -/
def rbRemoveBy (s : State T) (node : T) : Except Fault (State T) := do
  let stack ← findAndStackBy lessthan s node
  let top ← deref stack.head?
  if node ≠ top then .ok s
  else do
    let (h, stack) ← swapDown s.heap (s.maxDepth + 1) node stack.tail
    unlink h s.maxDepth stack

end Tree

structure PriqRb (T : Type) where
  tree : State T
  /-- an `int` of 32 bits that wraps, as an unsigned number -/
  nextOrderKey : Nat

def zPriqRbLessthan (a b : T) : Bool :=
  let cmp := zSchedPrioCmp (fun t => (base t).prio) a b
  if cmp > 0 then true
  else if cmp < 0 then false
  else decide ((base a).orderKey < (base b).orderKey)

def setOrderKey (thread : T) (key : Nat) : T → ThreadBase :=
  Function.update base thread { base thread with orderKey := key }

/-- The body of the loop of `z_priq_rb_add`, for one thread after the other; it does not change the tree. -/
def renumber (base : T → ThreadBase) (next : Nat) : List T → (T → ThreadBase) × Nat
  | [] => (base, next)
  | t :: ts => renumber (setOrderKey base t next) ((next + 1) % 2 ^ 32) ts

def zPriqRbAdd (pq : PriqRb T) (thread : T) : Except Fault ((T → ThreadBase) × PriqRb T) := do
  let base := setOrderKey base thread pq.nextOrderKey
  let next := (pq.nextOrderKey + 1) % 2 ^ 32
  let (base, next) ← if next = 0 then (rbForEach pq.tree (2 ^ pq.tree.maxDepth) []).map (renumber base next)
    else .ok (base, next)
  let tree ← rbInsertBy (zPriqRbLessthan base) pq.tree thread
  .ok (base, ⟨tree, next⟩)

def zPriqRbRemove (pq : PriqRb T) (thread : T) : Except Fault (PriqRb T) := do
  let tree ← rbRemoveBy (zPriqRbLessthan base) pq.tree thread
  .ok ⟨tree, if tree.root = none then 0 else pq.nextOrderKey⟩

/-- `z_priq_rb_best`; none if the way down is longer than `max_depth`. -/
def zPriqRbBest (pq : PriqRb T) : Option (Option T) := zRbGetMinmax pq.tree false pq.tree.maxDepth

structure PriqMq (T : Type) where
  queues : Nat → List T
  bitmask : BitVec 32

/-- The place of a thread in `queues`. `highest` is `K_HIGHEST_THREAD_PRIO`. -/
def priorityBit (highest : Int) (thread : T) : Nat := ((base thread).prio - highest).toNat

def zPriqMqAdd (highest : Int) (pq : PriqMq T) (thread : T) : PriqMq T :=
  let bit := priorityBit base highest thread
  { queues := Function.update pq.queues bit (pq.queues bit ++ [thread]), bitmask := pq.bitmask ||| (1#32 <<< bit) }

/-- `z_priq_mq_remove`. The thread leaves the list it is in. -/
def zPriqMqRemove (highest : Int) (pq : PriqMq T) (thread : T) : PriqMq T :=
  let bit := priorityBit base highest thread
  let queues := fun q => (pq.queues q).erase thread
  { queues := queues, bitmask := if queues bit = [] then pq.bitmask &&& ~~~(1#32 <<< bit) else pq.bitmask }

def zPriqMqBest (pq : PriqMq T) : Option T :=
  if pq.bitmask = 0 then none else (pq.queues pq.bitmask.ctz.toNat).head?

structure Queues (T : Type) where
  base : T → ThreadBase
  dumb : List T
  rb : PriqRb T
  mq : PriqMq T
  /-- the members in the order they were added; no code reads it -/
  added : List T

inductive Op (T : Type)
  | add (thread : T)
  | remove (thread : T)
  | setPrio (thread : T) (prio : Int)

variable (highest : Int) (s : Queues T)

def add (thread : T) : Except Fault (Queues T) := do
  let (base, rb) ← zPriqRbAdd s.base s.rb thread
  .ok { base, rb, dumb := zPriqDumbAdd (fun t => (s.base t).prio) thread s.dumb,
        mq := zPriqMqAdd s.base highest s.mq thread, added := s.added ++ [thread] }

def remove (thread : T) : Except Fault (Queues T) := do
  let rb ← zPriqRbRemove s.base s.rb thread
  .ok { s with rb, dumb := zPriqDumbRemove s.dumb thread, mq := zPriqMqRemove s.base highest s.mq thread,
               added := s.added.erase thread }

def step : Op T → Except Fault (Queues T)
  | .add thread => add highest s thread
  | .remove thread => remove highest s thread
  | .setPrio thread prio => .ok { s with base := Function.update s.base thread { s.base thread with prio } }

/-- The queues after `init_ready_q`. -/
def initReadyQ (base : T → ThreadBase) (heap : Heap T) : Queues T :=
  { base, dumb := [], rb := ⟨⟨heap, none, 0⟩, 0⟩, mq := ⟨fun _ => [], 0⟩, added := [] }

/-- How the queues are used: with a new thread that has one of 32 priorities, with a member, or with a priority
that is fixed while the thread is a member. -/
def Proper (s : Queues T) : Op T → Prop
  | .add thread => thread ∉ s.added ∧ highest ≤ (s.base thread).prio ∧ (s.base thread).prio < highest + 32
  | .remove thread => thread ∈ s.added
  | .setPrio thread _ => thread ∉ s.added

/-- The earliest added of the members with the highest priority. -/
def earliest : Option T := s.added.find? fun t => decide (∀ u ∈ s.added, (s.base t).prio ≤ (s.base u).prio)

/-- The queues agree on the best thread. -/
structure Agree : Prop where
  dumb : zPriqDumbBest s.dumb = earliest s
  rb : zPriqRbBest s.rb = some (earliest s)
  mq : zPriqMqBest s.mq = earliest s

end RtosKernel.Zephyr.Priq
