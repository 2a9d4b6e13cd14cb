import RtosKernel.Lib.Containers
import RtosKernel.Lib.LinkedList
import RtosKernel.Lib.Runs

/-! # Message queues (`os_msg.c`, `os_q.c`)

The messages of all queues are in blocks of one pool. A message that is posted to a queue for which tasks wait
does not get into the queue, but into the control blocks of these tasks. -/

namespace RtosKernel.Ucos.Queues
open Lib.Containers

abbrev OsOpt := BitVec 16

instance : LawfulBEq OsOpt := inferInstance

/-- `OS_OPT_POST_LIFO`. -/
def optLifo (opt : OsOpt) : Bool := opt &&& 0x0010#16 ≠ 0#16

/-- `OS_OPT_POST_ALL`. -/
def optAll (opt : OsOpt) : Bool := opt &&& 0x0200#16 ≠ 0#16

/-- `OS_OPT_PEND_NON_BLOCKING`. -/
def optNonBlocking (opt : OsOpt) : Bool := opt &&& 0x8000#16 ≠ 0#16

/-- The options that `OSQPost` takes if it checks them; `OS_OPT_POST_NO_SCHED` does not matter for the queues. -/
def postOpts : List OsOpt :=
  [0x0000#16, 0x0010#16, 0x0200#16, 0x0210#16, 0x8000#16, 0x8010#16, 0x8200#16, 0x8210#16]

/-- The options that `OSQPend` takes if it checks them. -/
def pendOpts : List OsOpt := [0x0000#16, 0x8000#16]

/-! ## The pool and the queues -/

/-- What a block holds beside its link: `MsgPtr`, `MsgSize` and `MsgTS`. -/
structure Message (P : Type) where
  msgPtr : Option P
  msgSize : Nat
  msgTS : Nat
  deriving DecidableEq

structure MsgPool where
  nextPtr : Option Nat
  nbrFree : Nat
  nbrUsed : Nat
  nbrUsedMax : Nat

structure MsgQ where
  inPtr : Option Nat
  outPtr : Option Nat
  nbrEntriesSize : Nat
  nbrEntries : Nat
  nbrEntriesMax : Nat

/-- The array of `OS_MSG`s, the pool and the queues. A block is its index in the array. -/
structure Store (Q P : Type) where
  nextPtr : Nat → Option Nat
  message : Nat → Message P
  pool : MsgPool
  msgQ : Q → MsgQ

inductive Stop where
  /-- The event cannot happen in this state. -/
  | refused
  | nullPtr
  deriving DecidableEq

inductive Err where
  | errNone
  | errQEmpty
  | errQMax
  | errMsgPoolEmpty
  | errOptInvalid
  | errPendWouldBlock
  | errSchedLocked
  | errPendAbort
  | errTimeout
  | errObjDel
  deriving DecidableEq

variable {Q T P : Type} [DecidableEq Q] [DecidableEq T]

def Store.setNext (s : Store Q P) (i : Nat) (next : Option Nat) : Store Q P :=
  { s with nextPtr := Function.update s.nextPtr i next }

def Store.setMessage (s : Store Q P) (i : Nat) (m : Message P) : Store Q P :=
  { s with message := Function.update s.message i m }

def Store.setQ (s : Store Q P) (q : Q) (v : MsgQ) : Store Q P := { s with msgQ := Function.update s.msgQ q v }

/-- A message of a NULL pointer and size 0. -/
def Message.null : Message P := ⟨none, 0, 0⟩

/-- The loop of `OS_MsgPoolInit`. -/
def msgPoolInitLoop (s : Store Q P) (i : Nat) : Nat → Store Q P
  | 0 => s
  | loops + 1 => msgPoolInitLoop ((s.setNext i (some (i + 1))).setMessage i .null) (i + 1) loops

/-- `OS_MsgPoolInit` for a pool that is not empty. -/
def os_MsgPoolInit (s : Store Q P) (size : Nat) : Store Q P :=
  let loops := size - 1
  let s := ((msgPoolInitLoop s 0 loops).setNext loops none).setMessage loops .null
  { s with pool := { nextPtr := some 0, nbrFree := size, nbrUsed := 0, nbrUsedMax := 0 } }

def os_MsgQInit (size : Nat) : MsgQ where
  inPtr := none
  outPtr := none
  nbrEntriesSize := size
  nbrEntries := 0
  nbrEntriesMax := 0

def os_MsgQFreeAll (s : Store Q P) (q : Q) : Except Stop (Store Q P × Nat) :=
  let v := s.msgQ q
  let qty := v.nbrEntries
  if 0 < v.nbrEntries then
    match v.inPtr with
    | none => .error .nullPtr
    | some i =>
      let s := s.setNext i s.pool.nextPtr
      let s := { s with pool := { s.pool with
          nextPtr := v.outPtr
          nbrUsed := s.pool.nbrUsed - v.nbrEntries
          nbrFree := s.pool.nbrFree + v.nbrEntries } }
      .ok (s.setQ q { v with nbrEntries := 0, nbrEntriesMax := 0, inPtr := none, outPtr := none }, qty)
  else .ok (s, qty)

def os_MsgQGet (s : Store Q P) (q : Q) : Except Stop (Store Q P × Message P × Err) :=
  let v := s.msgQ q
  if v.nbrEntries = 0 then .ok (s, .null, .errQEmpty)
  else
    match v.outPtr with
    | none => .error .nullPtr
    | some i =>
      let message := s.message i
      let v := { v with outPtr := s.nextPtr i }
      let v := match v.outPtr with
        | none => { v with inPtr := none, nbrEntries := 0 }
        | some _ => { v with nbrEntries := v.nbrEntries - 1 }
      let s := (s.setQ q v).setNext i s.pool.nextPtr
      let s := { s with pool := { s.pool with
          nextPtr := some i
          nbrFree := s.pool.nbrFree + 1
          nbrUsed := s.pool.nbrUsed - 1 } }
      .ok (s, message, .errNone)

/-- The block `i` is linked in the list of a queue by `OS_MsgQPut`. -/
def putLink (s : Store Q P) (q : Q) (i : Nat) (lifo : Bool) : Except Stop (Store Q P) :=
  let v := s.msgQ q
  if v.nbrEntries = 0 then
    .ok ((s.setQ q { v with inPtr := some i, outPtr := some i, nbrEntries := 1 }).setNext i none)
  else if lifo then
    .ok ((s.setNext i v.outPtr).setQ q { v with outPtr := some i, nbrEntries := v.nbrEntries + 1 })
  else
    match v.inPtr with
    | none => .error .nullPtr
    | some last =>
      .ok (((s.setNext last (some i)).setNext i none).setQ q { v with inPtr := some i, nbrEntries := v.nbrEntries + 1 })

def os_MsgQPut (s : Store Q P) (q : Q) (message : Message P) (lifo : Bool) : Except Stop (Store Q P × Err) :=
  if (s.msgQ q).nbrEntriesSize ≤ (s.msgQ q).nbrEntries then .ok (s, .errQMax)
  else if s.pool.nbrFree = 0 then .ok (s, .errMsgPoolEmpty)
  else
    match s.pool.nextPtr with
    | none => .error .nullPtr
    | some i =>
      let s := { s with pool := { s.pool with
          nextPtr := s.nextPtr i
          nbrFree := s.pool.nbrFree - 1
          nbrUsed := s.pool.nbrUsed + 1
          nbrUsedMax := max s.pool.nbrUsedMax (s.pool.nbrUsed + 1) } }
      (putLink s q i lifo).map fun s =>
        let v := s.msgQ q
        ((s.setQ q { v with nbrEntriesMax := max v.nbrEntriesMax v.nbrEntries }).setMessage i message, .errNone)

inductive PendStatus where
  | ok
  | abort
  | del
  | timeout
  deriving DecidableEq

inductive TaskState where
  | rdy
  | pend
  | pendTimeout
  deriving DecidableEq

/-- What the queues use of `OS_TCB`; `PendObjPtr` is with the pend lists. -/
structure Tcb (P : Type) where
  taskState : TaskState
  pendStatus : PendStatus
  /-- `MsgPtr`, `MsgSize` and `TS`. -/
  message : Message P

structure Kernel (Q T P : Type) where
  store : Store Q P
  pend : Lists Q T
  tcb : T → Tcb P
  /-- The tasks that have not returned from `OSQPend` after it blocked; no code reads it. -/
  calls : T → Bool

def Kernel.setTcb (k : Kernel Q T P) (t : T) (v : Tcb P) : Kernel Q T P := { k with tcb := Function.update k.tcb t v }

def os_Pend (prio : T → Nat) (k : Kernel Q T P) (q : Q) (t : T) (timeout : Nat) : Kernel Q T P :=
  let k := k.setTcb t { k.tcb t with pendStatus := .ok, taskState := if 0 < timeout then .pendTimeout else .pend }
  { k with pend := k.pend.insert prio q t }

/-- `OS_Post`, of a queue. -/
def os_Post (k : Kernel Q T P) (t : T) (message : Message P) : Kernel Q T P :=
  match (k.tcb t).taskState with
  | .rdy => k
  | .pend | .pendTimeout => { k with pend := k.pend.remove t }.setTcb t { message, taskState := .rdy, pendStatus := .ok }

/-- The loop of `OSQPost`. The task behind the current one is read before that is readied. -/
def postLoop (message : Message P) (all : Bool) (k : Kernel Q T P) : List T → Kernel Q T P
  | [] => k
  | t :: next => if all then postLoop message all (os_Post k t message) next else os_Post k t message

/-- What `OS_TickListUpdate` does to a task whose timeout has expired. -/
def tickPendTimeout (k : Kernel Q T P) (t : T) (ts : Nat) : Kernel Q T P :=
  { k with pend := k.pend.remove t }.setTcb t { message := ⟨none, 0, ts⟩, taskState := .rdy, pendStatus := .timeout }

/-- The configuration: whether arguments are checked, and the priorities of the tasks. -/
structure Config (T : Type) where
  osCfgArgChkEn : Bool
  prio : T → Nat

variable (c : Config T)

def osQPost (k : Kernel Q T P) (q : Q) (message : Message P) (opt : OsOpt) : Except Stop (Kernel Q T P × Err) :=
  if c.osCfgArgChkEn ∧ opt ∉ postOpts then .ok (k, .errOptInvalid)
  else
    match k.pend.items q with
    | [] => (os_MsgQPut k.store q message (optLifo opt)).map fun (store, err) => ({ k with store }, err)
    | tasks => .ok (postLoop message (optAll opt) k tasks, .errNone)

/-- What `OSQPend` returns, and writes to its arguments; what it does not write is 0 here. -/
abbrev Received (P : Type) := Message P × Err

/-- `OSQPend` up to `OSSched`. A call that does not block returns. -/
def osQPend (k : Kernel Q T P) (q : Q) (cur : T) (timeout : Nat) (opt : OsOpt) (schedLocked : Bool) :
    Except Stop (Kernel Q T P × Option (Received P)) :=
  if c.osCfgArgChkEn ∧ opt ∉ pendOpts then .ok (k, some (.null, .errOptInvalid))
  else
    (os_MsgQGet k.store q).map fun (store, message, err) =>
      if err = .errNone then ({ k with store }, some (message, .errNone))
      else if optNonBlocking opt then ({ k with store }, some (.null, .errPendWouldBlock))
      else if schedLocked then ({ k with store }, some (.null, .errSchedLocked))
      else
        let k := os_Pend c.prio { k with store } q cur timeout
        ({ k with calls := Function.update k.calls cur true }, none)

/-- `OSQPend` after `OSSched`. -/
def osQPendRest (k : Kernel Q T P) (cur : T) : Received P :=
  let tcb := k.tcb cur
  match tcb.pendStatus with
  | .ok => (tcb.message, .errNone)
  | .abort => (⟨none, 0, tcb.message.msgTS⟩, .errPendAbort)
  | .timeout => (.null, .errTimeout)
  | .del => (⟨none, 0, tcb.message.msgTS⟩, .errObjDel)

def osQFlush (k : Kernel Q T P) (q : Q) : Except Stop (Kernel Q T P × Nat) :=
  (os_MsgQFreeAll k.store q).map fun (store, entries) => ({ k with store }, entries)

/-! ## Runs -/

inductive Event (Q T P : Type) where
  /-- `OSQPost` by a task or an interrupt handler. -/
  | post (q : Q) (message : Message P) (opt : OsOpt)
  /-- `OSQPend` by a task. -/
  | pend (q : Q) (cur : T) (timeout : Nat) (opt : OsOpt) (schedLocked : Bool)
  /-- A task that has been readied returns from `OSQPend`. -/
  | resume (cur : T)
  | timeout (task : T) (ts : Nat)
  /-- `OSQFlush`. -/
  | flush (q : Q)

inductive Output (P : Type) where
  | posted (err : Err)
  | received (r : Received P)
  | flushed (entries : Nat)
  /-- The call has not returned, or there is none. -/
  | nothing
  deriving DecidableEq

def Output.ofPend : Option (Received P) → Output P
  | some r => .received r
  | none => .nothing

/-- An event, and what its call returns. Any task that is ready may be the one that runs. -/
def perform (k : Kernel Q T P) : Event Q T P → Except Stop (Kernel Q T P × Output P)
  | .post q message opt => (osQPost c k q message opt).map fun (k, err) => (k, .posted err)
  | .pend q cur timeout opt schedLocked =>
    if (k.tcb cur).taskState = .rdy ∧ k.calls cur = false then
      (osQPend c k q cur timeout opt schedLocked).map fun (k, r) => (k, .ofPend r)
    else .error .refused
  | .resume cur =>
    if (k.tcb cur).taskState = .rdy ∧ k.calls cur = true then
      .ok ({ k with calls := Function.update k.calls cur false }, .received (osQPendRest k cur))
    else .error .refused
  | .timeout t ts => if (k.tcb t).taskState = .pendTimeout then .ok (tickPendTimeout k t ts, .nothing) else .error .refused
  | .flush q => (osQFlush k q).map fun (k, entries) => (k, .flushed entries)

def step (k : Kernel Q T P) (e : Event Q T P) : Except Stop (Kernel Q T P) := (perform c k e).map Prod.fst

/-- A pool of `size` blocks as `OS_MsgPoolInit` leaves it, queues as `OSQCreate` leaves them, and tasks that
call nothing yet. -/
def start (T : Type) (message : Nat → Message P) (nextPtr : Nat → Option Nat) (size : Nat) (qSize : Q → Nat) :
    Kernel Q T P where
  store := os_MsgPoolInit ⟨nextPtr, message, ⟨none, 0, 0, 0⟩, fun q => os_MsgQInit (qSize q)⟩ size
  pend := ⟨fun _ => [], fun _ => none⟩
  tcb _ := { taskState := .rdy, pendStatus := .ok, message := .null }
  calls _ := false

end RtosKernel.Ucos.Queues
