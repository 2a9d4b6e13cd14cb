import Mathlib.Data.List.Sort

/-! # Wait queues (`wait_q.h`, `sched.c`)

A wait queue is a list, kept by `z_priq_dumb_add` in the order of the priorities the
threads have when they are added. A smaller number is a higher priority. -/
namespace RtosKernel.Zephyr.WaitQ

variable {T : Type}

/-- `z_sched_prio_cmp`, without deadlines. -/
def zSchedPrioCmp (prio : T → Int) (thread1 thread2 : T) : Int := prio thread2 - prio thread1

def zPriqDumbAdd (prio : T → Int) (thread : T) : List T → List T
  | [] => [thread]
  | t :: pq => if zSchedPrioCmp prio thread t > 0 then thread :: t :: pq else t :: zPriqDumbAdd prio thread pq

def zPriqDumbBest (pq : List T) : Option T := pq.head?

variable {prio : T → Int} {t u : T} {pq : List T}

theorem zPriqDumbAdd_eq_orderedInsert : zPriqDumbAdd prio t pq = pq.orderedInsert (fun a b => prio a < prio b) t := by
  induction pq with
  | nil => rfl
  | cons u pq ih =>
    rw [zPriqDumbAdd, List.orderedInsert_cons, ih]
    simp only [zSchedPrioCmp, gt_iff_lt, Int.sub_pos]

theorem perm_zPriqDumbAdd : (zPriqDumbAdd prio t pq).Perm (t :: pq) := by
  rw [zPriqDumbAdd_eq_orderedInsert]
  exact List.perm_orderedInsert _ _ _

@[simp] theorem mem_zPriqDumbAdd : u ∈ zPriqDumbAdd prio t pq ↔ u = t ∨ u ∈ pq := by
  rw [perm_zPriqDumbAdd.mem_iff, List.mem_cons]

theorem nodup_zPriqDumbAdd : (zPriqDumbAdd prio t pq).Nodup ↔ t ∉ pq ∧ pq.Nodup := by
  rw [perm_zPriqDumbAdd.nodup_iff, List.nodup_cons]

end RtosKernel.Zephyr.WaitQ
