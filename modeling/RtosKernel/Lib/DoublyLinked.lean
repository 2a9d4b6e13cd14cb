import Mathlib.Data.List.Nodup
import Mathlib.Logic.Function.Basic
import Mathlib.Tactic.Tauto

/-! # Doubly linked lists in a memory of pointers

The nodes of a list point to the next and to the previous node, and to nothing at the ends. An insertion or a
removal writes a few pointers, and what it writes is stated pointer by pointer. -/
namespace RtosKernel.Lib.DoublyLinked
open List

variable {α : Type}

/-- The nodes `l` are linked in this order. -/
structure Linked (next prev : α → Option α) (l : List α) : Prop where
  nodup : l.Nodup
  next : ∀ pre x post, l = pre ++ x :: post → next x = post.head?
  prev : ∀ pre x post, l = pre ++ x :: post → prev x = pre.getLast?

/-- Each node of `l` points to the one behind it. -/
def Points (next : α → Option α) (l : List α) : Prop := ∀ pre x post, l = pre ++ x :: post → next x = post.head?

variable {next prev next' prev' : α → Option α} {l pre post : List α} {x y : α}

theorem Linked.nil : Linked next prev [] :=
  ⟨nodup_nil, fun _ _ _ h => by simp at h, fun _ _ _ h => by simp at h⟩

theorem Linked.congr (h : Linked next prev l) (hn : ∀ y ∈ l, next' y = next y) (hp : ∀ y ∈ l, prev' y = prev y) :
    Linked next' prev' l := by
  refine ⟨h.nodup, fun pre x post heq => ?_, fun pre x post heq => ?_⟩
  · rw [hn x (heq ▸ mem_append_right pre (mem_cons_self ..))]
    exact h.next pre x post heq
  · rw [hp x (heq ▸ mem_append_right pre (mem_cons_self ..))]
    exact h.prev pre x post heq

theorem Linked.prev_head (h : Linked next prev (x :: post)) : prev x = none := h.prev [] x post rfl

theorem Linked.eq_head (h : Linked next prev l) (hx : x ∈ l) (hprev : prev x = none) : ∃ post, l = x :: post := by
  obtain ⟨pre, post, rfl⟩ := append_of_mem hx
  obtain rfl : pre = [] := List.getLast?_eq_none_iff.mp ((h.prev _ _ _ rfl).symm.trans hprev)
  exact ⟨post, rfl⟩

theorem eq_of_next {l' : List α} (h : Points next l) (h' : Points next l') (hhead : l.head? = l'.head?) : l = l' := by
  induction l generalizing l' with
  | nil => exact (List.head?_eq_none_iff.mp hhead.symm).symm
  | cons x l ih =>
    cases l' with
    | nil => cases hhead
    | cons y l' =>
      obtain rfl : x = y := Option.some.inj hhead
      congr 1
      refine ih (fun pre z post heq => h (x :: pre) z post (by rw [heq]; rfl))
        (fun pre z post heq => h' (x :: pre) z post (by rw [heq]; rfl)) ?_
      rw [← h [] x l rfl, ← h' [] x l' rfl]

theorem split_cases {pre' post' : List α} (hnodup : (pre ++ x :: post).Nodup) (heq : pre ++ x :: post = pre' ++ y :: post') :
    (y = x ∧ pre' = pre ∧ post' = post) ∨ (∃ mid, pre = pre' ++ y :: mid ∧ post' = mid ++ x :: post) ∨
      (∃ mid, post = mid ++ y :: post' ∧ pre' = pre ++ x :: mid) := by
  rcases append_eq_append_iff.mp heq with ⟨mid, hpre', hpost⟩ | ⟨mid, hpre, hpost'⟩
  · cases mid with
    | nil =>
      simp only [List.append_nil, nil_append, List.cons.injEq] at hpre' hpost
      exact .inl ⟨hpost.1.symm, hpre', hpost.2.symm⟩
    | cons z mid =>
      obtain ⟨rfl, rfl⟩ := hpost
      exact .inr (.inr ⟨mid, rfl, hpre'⟩)
  · cases mid with
    | nil =>
      simp only [List.append_nil, nil_append, List.cons.injEq] at hpre hpost'
      exact .inl ⟨hpost'.1, hpre.symm, hpost'.2⟩
    | cons z mid =>
      obtain ⟨rfl, rfl⟩ := hpost'
      exact .inr (.inl ⟨mid, hpre, rfl⟩)

theorem mem_remove {l r : List α} (h : (l ++ x :: r).Nodup) : y ∈ l ++ r ↔ y ≠ x ∧ y ∈ l ++ x :: r := by
  obtain ⟨hx, -⟩ := nodup_cons.mp (nodup_middle.mp h)
  refine ⟨fun hy => ⟨fun heq => hx (heq ▸ hy), ?_⟩, fun ⟨hne, hy⟩ => ?_⟩
  · simp only [mem_append, mem_cons] at hy ⊢
    tauto
  · simp only [mem_append, mem_cons] at hy ⊢
    tauto

theorem mem_insert : y ∈ pre ++ x :: post ↔ y = x ∨ y ∈ pre ++ post := by
  simp only [mem_append, mem_cons]
  tauto

theorem getLast?_ne {z : α} {mid : List α} (h : (pre ++ y :: z :: mid).Nodup) : (pre ++ y :: z :: mid).getLast? ≠ some y := by
  rw [List.getLast?_append_cons, List.getLast?_cons_cons]
  intro hlast
  exact (nodup_cons.mp (nodup_append.mp h).2.1).1 (List.mem_of_getLast? hlast)

theorem head_ne_of_mem {l r : List α} (h : (l ++ r).Nodup) (hy : y ∈ l) : r.head? ≠ some y := fun hhead =>
  (nodup_append.mp h).2.2 y hy y (List.mem_of_head? hhead) rfl

theorem head_ne_of_mem_tail {r : List α} (h : r.Nodup) (hy : y ∈ r.tail) : r.head? ≠ some y := by
  cases r with
  | nil => nofun
  | cons z r => exact fun hhead => (nodup_cons.mp h).1 (Option.some.inj hhead ▸ hy)

/-- Read from its end, the list is linked by `prev`. -/
theorem prev_iff : (∀ pre x post, l = pre ++ x :: post → prev x = pre.getLast?) ↔ Points prev l.reverse := by
  refine ⟨fun h pre x post heq => ?_, fun h pre x post heq => ?_⟩
  · rw [h post.reverse x pre.reverse (by simpa using congrArg reverse heq), List.getLast?_reverse]
  · rw [h post.reverse x pre.reverse (by simp [heq]), List.head?_reverse]

section Edits
variable [DecidableEq α] {l r : List α}

variable (next) in
theorem next_insert (hnodup : (l ++ x :: r).Nodup) (h : Points next (l ++ r)) (hnx : next' x = r.head?)
    (hn : ∀ y ∈ l ++ r, next' y = if l.getLast? = some y then some x else next y) : Points next' (l ++ x :: r) := by
  intro pre' y post' heq
  have hnodup' : (l ++ r).Nodup := (nodup_cons.mp (nodup_middle.mp hnodup)).2
  rcases split_cases hnodup heq with ⟨rfl, -, rfl⟩ | ⟨mid, rfl, rfl⟩ | ⟨mid, rfl, rfl⟩
  · exact hnx
  · rw [hn y (by simp)]
    cases mid with
    | nil => simp
    | cons z mid =>
      rw [if_neg (getLast?_ne (nodup_append.mp hnodup').1), h pre' _ (z :: mid ++ r) (by simp)]
      rfl
  · rw [hn y (by simp), if_neg, h (l ++ mid) _ post' (by simp)]
    exact fun hlast => (nodup_append.mp hnodup').2.2 y (List.mem_of_getLast? hlast) y (by simp) rfl

theorem Linked.insert (h : Linked next prev (l ++ r)) (hx : x ∉ l ++ r) (hnx : next' x = r.head?)
    (hpx : prev' x = l.getLast?) (hn : ∀ y ∈ l ++ r, next' y = if l.getLast? = some y then some x else next y)
    (hp : ∀ y ∈ l ++ r, prev' y = if r.head? = some y then some x else prev y) :
    Linked next' prev' (l ++ x :: r) := by
  have hnodup : (l ++ x :: r).Nodup := nodup_middle.mpr (nodup_cons.mpr ⟨hx, h.nodup⟩)
  refine ⟨hnodup, next_insert next hnodup h.next hnx hn, prev_iff.mpr ?_⟩
  have hprev := next_insert prev (l := r.reverse) (r := l.reverse) (by simpa using nodup_reverse.mpr hnodup)
    (by simpa using prev_iff.mp h.prev) (by simpa using hpx) fun y hy => by simpa using hp y (by simpa [or_comm] using hy)
  simpa using hprev

variable (next) in
theorem next_remove (hnodup : (l ++ x :: r).Nodup) (h : Points next (l ++ x :: r))
    (hn : ∀ y ∈ l ++ r, next' y = if l.getLast? = some y then r.head? else next y) : Points next' (l ++ r) := by
  intro pre' y post' heq
  have hnodup' : (l ++ r).Nodup := (nodup_cons.mp (nodup_middle.mp hnodup)).2
  have hdisjoint : ∀ y ∈ l, y ∉ r := fun y hy hy' => (nodup_append.mp hnodup').2.2 y hy y hy' rfl
  rw [hn y (heq ▸ by simp)]
  rcases append_eq_append_iff.mp heq with ⟨mid, rfl, rfl⟩ | ⟨mid, rfl, hpost'⟩
  · rw [if_neg, h (l ++ x :: mid) _ post' (by simp)]
    exact fun hlast => hdisjoint y (List.mem_of_getLast? hlast) (by simp)
  · cases mid with
    | nil =>
      simp only [List.append_nil, nil_append] at hpost' hdisjoint h ⊢
      rw [if_neg, h (pre' ++ [x]) _ post' (by simp [← hpost'])]
      exact fun hlast => hdisjoint y (List.mem_of_getLast? hlast) (by simp [← hpost'])
    | cons z mid =>
      obtain ⟨rfl, rfl⟩ := hpost'
      cases mid with
      | nil => simp
      | cons z mid =>
        rw [if_neg (getLast?_ne (nodup_append.mp hnodup').1), h pre' _ (z :: mid ++ x :: r) (by simp)]
        rfl

theorem Linked.remove (h : Linked next prev (l ++ x :: r))
    (hn : ∀ y ∈ l ++ r, next' y = if l.getLast? = some y then r.head? else next y)
    (hp : ∀ y ∈ l ++ r, prev' y = if r.head? = some y then l.getLast? else prev y) : Linked next' prev' (l ++ r) := by
  refine ⟨(nodup_cons.mp (nodup_middle.mp h.nodup)).2, next_remove next h.nodup h.next hn, prev_iff.mpr ?_⟩
  have hprev := next_remove prev (l := r.reverse) (r := l.reverse) (x := x) (by simpa using nodup_reverse.mpr h.nodup)
    (by simpa using prev_iff.mp h.prev) fun y hy => by simpa using hp y (by simpa [or_comm] using hy)
  simpa using hprev

end Edits

end RtosKernel.Lib.DoublyLinked
