import RtosKernel.Lib.BitSet
import RtosKernel.Lib.Runs

/-! # Event flags (`os_flag.c`)

Tasks wait for flags of one group to be set or cleared. A task that waits is in the
pend list until a post or its timeout wakes it. The rest of its call runs when it is
scheduled, and only then are the flags consumed that the post found. -/

namespace RtosKernel.Ucos.Flags
open Lib.BitSet

abbrev OsOpt := BitVec 16

/-- `opt & OS_OPT_PEND_FLAG_MASK`, as far as there is a case for it. -/
inductive Mode where
  | clrAll
  | clrAny
  | setAll
  | setAny
  deriving DecidableEq

/-- `mode = opt & OS_OPT_PEND_FLAG_MASK`; none is the default case. -/
def flagMode (opt : OsOpt) : Option Mode :=
  let mode := opt &&& 0x000F#16
  if mode = 0x0001#16 then some .clrAll
  else if mode = 0x0002#16 then some .clrAny
  else if mode = 0x0004#16 then some .setAll
  else if mode = 0x0008#16 then some .setAny
  else none

/-- `OS_OPT_PEND_FLAG_CONSUME`. -/
def optConsume (opt : OsOpt) : Bool := opt &&& 0x0100#16 ≠ 0#16

/-- `OS_OPT_PEND_NON_BLOCKING`. -/
def optNonBlocking (opt : OsOpt) : Bool := opt &&& 0x8000#16 ≠ 0#16

/-- Whether the mode waits for flags to be set. -/
def Mode.set : Mode → Bool
  | .setAll | .setAny => true
  | .clrAll | .clrAny => false

/-- Whether the mode waits for all of the flags. -/
def Mode.all : Mode → Bool
  | .setAll | .clrAll => true
  | .setAny | .clrAny => false

variable {w : Nat}

def flagsRdy (mode : Mode) (grpFlags flags : BitVec w) : BitVec w :=
  if mode.set then grpFlags &&& flags else ~~~grpFlags &&& flags

/-- What a mode asks of `flags_rdy`. -/
def Condition (mode : Mode) (rdy flags : BitVec w) : Prop := if mode.all then rdy = flags else rdy ≠ 0#w

instance (mode : Mode) (rdy flags : BitVec w) : Decidable (Condition mode rdy flags) := by
  unfold Condition
  infer_instance

/-- What consuming does to the flags of the group. -/
def consumed (mode : Mode) (grpFlags rdy : BitVec w) : BitVec w :=
  if mode.set then grpFlags &&& ~~~rdy else grpFlags ||| rdy

/-! ## The kernel -/

inductive PendStatus where
  | ok
  | abort
  | del
  | timeout
  deriving DecidableEq

inductive TaskState where
  | rdy
  | pend
  | pendTimeout
  deriving DecidableEq

inductive Err where
  | errNone
  | errOptInvalid
  | errPendWouldBlock
  | errSchedLocked
  | errPendAbort
  | errObjDel
  | errTimeout
  | errFlagPendOpt
  deriving DecidableEq

/-- What the flags use of `OS_TCB`. -/
structure Tcb (w : Nat) where
  flagsPend : BitVec w
  flagsOpt : OsOpt
  flagsRdy : BitVec w
  pendStatus : PendStatus
  taskState : TaskState
  deriving DecidableEq

structure Kernel (T : Type) (w : Nat) where
  flags : BitVec w
  pendList : List T
  tcb : T → Tcb w
  /-- The `opt` of the call of `OSFlagPend` that a task has not returned from. -/
  call : T → Option OsOpt

variable {T : Type} [DecidableEq T] (prio : T → Nat)

def Kernel.setTcb (k : Kernel T w) (t : T) (v : Tcb w) : Kernel T w := { k with tcb := Function.update k.tcb t v }

def pendListInsertPrio (t : T) : List T → List T
  | [] => [t]
  | next :: list => if prio t < prio next then t :: next :: list else next :: pendListInsertPrio t list

/-- `OS_FlagBlock`, with `OS_Pend`. -/
def os_FlagBlock (k : Kernel T w) (cur : T) (flags : BitVec w) (opt : OsOpt) (timeout : Nat) : Kernel T w :=
  let taskState : TaskState := if timeout > 0 then .pendTimeout else .pend
  let k := k.setTcb cur { flagsPend := flags, flagsOpt := opt, flagsRdy := 0#w, pendStatus := .ok, taskState }
  { k with pendList := pendListInsertPrio prio cur k.pendList }

/-- `OSFlagPend` up to `OSSched`. A call that does not block returns `flags_rdy` and an error. -/
def osFlagPend (k : Kernel T w) (cur : T) (flags : BitVec w) (timeout : Nat) (opt : OsOpt) (schedLocked : Bool) :
    Kernel T w × Option (BitVec w × Err) :=
  match flagMode opt with
  | none => (k, some (0#w, .errOptInvalid))
  | some mode =>
    let rdy := flagsRdy mode k.flags flags
    if Condition mode rdy flags then
      let k := if optConsume opt then { k with flags := consumed mode k.flags rdy } else k
      (k.setTcb cur { k.tcb cur with flagsRdy := rdy }, some (rdy, .errNone))
    else if optNonBlocking opt then (k, some (0#w, .errPendWouldBlock))
    else if schedLocked then (k, some (0#w, .errSchedLocked))
    else
      let k := os_FlagBlock prio k cur flags opt timeout
      ({ k with call := Function.update k.call cur (some opt) }, none)

/-- `OSFlagPend` after `OSSched`. -/
def osFlagPendRest (k : Kernel T w) (cur : T) (opt : OsOpt) : Kernel T w × (BitVec w × Err) :=
  let k := { k with call := Function.update k.call cur none }
  match (k.tcb cur).pendStatus with
  | .abort => (k, 0#w, .errPendAbort)
  | .timeout => (k, 0#w, .errTimeout)
  | .del => (k, 0#w, .errObjDel)
  | .ok =>
    let rdy := (k.tcb cur).flagsRdy
    if optConsume opt then
      match flagMode opt with
      | none => (k, 0#w, .errOptInvalid)
      | some mode => ({ k with flags := consumed mode k.flags rdy }, rdy, .errNone)
    else (k, rdy, .errNone)

def os_FlagTaskRdy (k : Kernel T w) (t : T) (rdy : BitVec w) : Kernel T w :=
  let k := k.setTcb t { k.tcb t with flagsRdy := rdy, pendStatus := .ok, taskState := .rdy }
  { k with pendList := k.pendList.erase t }

/-- The loop of `OSFlagPost`. The task behind the current one is read before that is woken. -/
def postLoop (k : Kernel T w) : List T → Kernel T w × Err
  | [] => (k, .errNone)
  | t :: next =>
    match flagMode (k.tcb t).flagsOpt with
    | none => (k, .errFlagPendOpt)
    | some mode =>
      let rdy := flagsRdy mode k.flags (k.tcb t).flagsPend
      postLoop (if Condition mode rdy (k.tcb t).flagsPend then os_FlagTaskRdy k t rdy else k) next

/-- The flags after the first switch of `OSFlagPost`. `OS_OPT_POST_NO_SCHED` does not matter for them. -/
def postFlags (grpFlags flags : BitVec w) (opt : OsOpt) : Option (BitVec w) :=
  if opt = 0x0000#16 ∨ opt = 0x8000#16 then some (grpFlags ||| flags)
  else if opt = 0x0001#16 ∨ opt = 0x8001#16 then some (grpFlags &&& ~~~flags)
  else none

def osFlagPost (k : Kernel T w) (flags : BitVec w) (opt : OsOpt) : Kernel T w × (BitVec w × Err) :=
  match postFlags k.flags flags opt with
  | none => (k, 0#w, .errOptInvalid)
  | some grpFlags =>
    let (k, err) := postLoop { k with flags := grpFlags } k.pendList
    (k, if err = .errNone then k.flags else 0#w, err)

/-- What `OS_TickListUpdate` does to a task whose timeout has expired. -/
def tickPendTimeout (k : Kernel T w) (t : T) : Kernel T w :=
  let k := k.setTcb t { k.tcb t with pendStatus := .timeout, taskState := .rdy }
  { k with pendList := k.pendList.erase t }

inductive Event (T : Type) (w : Nat) where
  | pend (cur : T) (flags : BitVec w) (timeout : Nat) (opt : OsOpt) (schedLocked : Bool)
  /-- A task that has been woken goes on with its call. -/
  | resume (cur : T)
  | post (flags : BitVec w) (opt : OsOpt)
  | timeout (task : T)

inductive Stop where
  /-- The event cannot happen in this state. -/
  | refused

def step (k : Kernel T w) : Event T w → Except Stop (Kernel T w)
  | .pend cur flags timeout opt schedLocked =>
    if (k.tcb cur).taskState = .rdy ∧ k.call cur = none then .ok (osFlagPend prio k cur flags timeout opt schedLocked).1
    else .error .refused
  | .resume cur =>
    match k.call cur with
    | some opt => if (k.tcb cur).taskState = .rdy then .ok (osFlagPendRest k cur opt).1 else .error .refused
    | none => .error .refused
  | .post flags opt => .ok (osFlagPost k flags opt).1
  | .timeout t => if (k.tcb t).taskState = .pendTimeout then .ok (tickPendTimeout k t) else .error .refused

/-- A group as `OSFlagCreate` leaves it, and tasks that have not waited yet. -/
def start (T : Type) {w : Nat} (flags : BitVec w) : Kernel T w where
  flags := flags
  pendList := []
  tcb _ := { flagsPend := 0#w, flagsOpt := 0#16, flagsRdy := 0#w, pendStatus := .ok, taskState := .rdy }
  call _ := none

/-- The condition a task waits for is true of the flags. -/
def Satisfied (k : Kernel T w) (t : T) : Prop :=
  ∃ mode, flagMode (k.tcb t).flagsOpt = some mode ∧
    Condition mode (flagsRdy mode k.flags (k.tcb t).flagsPend) (k.tcb t).flagsPend

/-- A task that has been woken has not consumed its flags yet. -/
def Consuming (k : Kernel T w) (t : T) : Prop :=
  (k.tcb t).taskState = .rdy ∧ (k.call t).any optConsume = true
  deriving Decidable

end RtosKernel.Ucos.Flags
