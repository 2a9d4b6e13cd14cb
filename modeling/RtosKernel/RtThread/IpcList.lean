import Mathlib

/-! # Waiting lists of the IPC objects (`ipc.c`)

The `suspend_thread` list of an object is the list of the threads that wait on
it, first to be resumed first. A thread is queued by the flag of the object. -/
namespace RtosKernel.RtThread.IpcList

/-- `RT_IPC_FLAG_FIFO` and `RT_IPC_FLAG_PRIO`. -/
inductive IpcFlag
  | fifo
  | prio
  deriving DecidableEq, Repr

/-- The error codes the IPC calls return. -/
inductive RtErr
  | eok
  | error
  | etimeout
  | efull
  | einval
  deriving DecidableEq, Repr

variable {Tid : Type} {currentPriority : Tid → Nat}

/-- The position search of `RT_IPC_FLAG_PRIO`: before the first thread that is
strictly less urgent, else at the end. -/
def insertByPriority (currentPriority : Tid → Nat) (thread : Tid) : List Tid → List Tid
  | [] => [thread]
  | sthread :: rest =>
    if currentPriority thread < currentPriority sthread then thread :: sthread :: rest
    else sthread :: insertByPriority currentPriority thread rest

/-- The list part of `_ipc_list_suspend`. -/
def ipcListSuspend (currentPriority : Tid → Nat) (flag : IpcFlag) (thread : Tid)
    (list : List Tid) : List Tid :=
  match flag with
  | .fifo => list ++ [thread]
  | .prio => insertByPriority currentPriority thread list

theorem insertByPriority_perm (thread : Tid) (list : List Tid) :
    (insertByPriority currentPriority thread list).Perm (thread :: list) := by
  induction list with
  | nil => exact .refl _
  | cons sthread rest ih =>
    unfold insertByPriority
    split
    · exact .refl _
    · exact (ih.cons _).trans (.swap _ _ _)

theorem ipcListSuspend_perm (flag : IpcFlag) (thread : Tid) (list : List Tid) :
    (ipcListSuspend currentPriority flag thread list).Perm (thread :: list) := by
  cases flag with
  | fifo => exact List.perm_append_singleton thread list
  | prio => exact insertByPriority_perm thread list

@[simp] theorem mem_ipcListSuspend {flag : IpcFlag} {thread x : Tid} {list : List Tid} :
    x ∈ ipcListSuspend currentPriority flag thread list ↔ x = thread ∨ x ∈ list := by
  rw [(ipcListSuspend_perm flag thread list).mem_iff, List.mem_cons]

end RtosKernel.RtThread.IpcList
