import RtosKernel.Lib.LinkedList
import RtosKernel.Lib.RingFamily

/-! # The linked lists of RT-Thread (`rtservice.h`)

A list is named by its header node; the memory of pointers is passed explicitly. -/
namespace RtosKernel.RtThread.Service
open Lib.LinkedList Lib.Ring Lib.RingFamily Function

variable {α : Type} [DecidableEq α]

def rtSlistInit (next : α → Option α) (l : α) : α → Option α := update next l none

/-- `rt_slist_insert`: behind the header. -/
def rtSlistInsert (next : α → Option α) (l n : α) : α → Option α :=
  update (update next n (next l)) l (some n)

def rtSlistRemove (fuel : Nat) (next : α → Option α) (l n : α) : Option (α → Option α) := do
  let node ← seekPrev next n fuel l
  match next node with
  | none => some next
  | some x => some (update next node (next x))

theorem rtSlistInsert_chain {next : α → Option α} {a n : α} {l : List α}
    (h : Chain next (next a) l) (hn : n ∉ a :: l) (ha : a ∉ l) :
    Chain (rtSlistInsert next a n) (rtSlistInsert next a n a) (n :: l) := h.prepend hn ha

theorem rtSlistRemove_first {next : α → Option α} {a n : α} {fuel : Nat} (h : next a = some n) :
    rtSlistRemove (fuel + 1) next a n = some (update next a (next n)) := by
  simp [rtSlistRemove, seekPrev, h]

/-! ## Doubly linked lists -/

/-- `rt_list_t`, by node. -/
structure RtList (α : Type) where
  next : α → α
  prev : α → α

def rtListInit (m : RtList α) (l : α) : RtList α :=
  ⟨update m.next l l, update m.prev l l⟩

def rtListInsertAfter (m : RtList α) (l n : α) : RtList α :=
  let prev := update m.prev (m.next l) n
  let next := update m.next n (m.next l)
  ⟨update next l n, update prev n l⟩

def rtListRemove (m : RtList α) (n : α) : RtList α :=
  let prev := update m.prev (m.next n) (m.prev n)
  let next := update m.next (prev n) (m.next n)
  ⟨update next n n, update prev n n⟩

def rtListIsempty (m : RtList α) (l : α) : Prop := m.next l = l

instance (m : RtList α) (l : α) : Decidable (rtListIsempty m l) := inferInstanceAs (Decidable (_ = _))

section Family
variable {ι τ : Type} {m : RtList α} {head : ι → α} {item : ι → τ → α} {c c' : ι → List τ} {i : ι}
  {n : α} {t : τ} {l r : List τ}

/-- The lists headed by `head` hold the items `c`. -/
def Holds (m : RtList α) (head : ι → α) (item : ι → τ → α) (c : ι → List τ) : Prop :=
  IsFamily m.next m.prev head item c

omit [DecidableEq α] in
theorem rtListIsempty_iff (h : Holds m head item c) : rtListIsempty m (head i) ↔ c i = [] := by
  unfold rtListIsempty
  rw [(h.ring i).next_eq_head_iff, nodes, List.map_eq_nil_iff]

theorem rtListInit_empty (h : Holds m head item c) (hc : c i = []) : rtListInit m (head i) = m := by
  have hring := h.ring i
  rw [nodes, hc] at hring
  have hn : m.next (head i) = head i := hring.next_head
  have hp : m.prev (head i) = head i := hring.prev_head
  unfold rtListInit
  rw [update_eq_self_iff.mpr hn.symm, update_eq_self_iff.mpr hp.symm]

variable [DecidableEq ι]

theorem rtListRemove_holds (h : Holds m head item c) (hhead : ∀ i, n ≠ head i)
    (hc : ∀ i, nodes item c' i = (nodes item c i).erase n) : Holds (rtListRemove m n) head item c' :=
  IsFamily.unlink h hhead hc

theorem rtListInsertAfter_holds (h : Holds m head item c) (hc : c i = l ++ r)
    (hn : ∀ j, item i t ∉ head j :: nodes item c j) :
    Holds (rtListInsertAfter m (before (head i) (l.map (item i))) (item i t)) head item
      (update c i (l ++ t :: r)) := by
  have hins := IsFamily.insert h hc hn
  have hnodes : nodes item c i = l.map (item i) ++ r.map (item i) := by
    rw [nodes, hc, List.map_append]
  have hring := h.ring i
  rw [hnodes] at hring
  have hnext : m.next (before (head i) (l.map (item i))) = behind (r.map (item i)) (head i) :=
    (links_split.mp hring.links).2.next_eq
  have hne : item i t ≠ behind (r.map (item i)) (head i) := fun e => by
    have hm := behind_mem (r.map (item i)) (head i)
    rw [← e] at hm
    refine hn i ?_
    rw [hnodes]
    simp only [List.mem_append, List.mem_cons, List.not_mem_nil, or_false] at hm ⊢
    tauto
  unfold Holds rtListInsertAfter
  simp only [hnext]
  -- the source writes the two `prev` pointers in the other order
  rw [update_comm hne.symm]
  exact hins

end Family

end RtosKernel.RtThread.Service
