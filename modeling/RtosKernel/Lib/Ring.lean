import Mathlib

/-! # Circular doubly linked lists

A memory has a `next` and a `prev` pointer for each node. `Links next prev a l b` says that the nodes between
`a` and `b` are `l`, linked both ways; a ring is the list from its header round to the header again. -/
namespace RtosKernel.Lib.Ring
open List Function

variable {α : Type} {next prev next' prev' : α → α} {a b h n x : α} {l r : List α}

/-- From `a` to `b` through `l`, with every `prev` the way back. -/
def Links (next prev : α → α) : α → List α → α → Prop
  | a, [], b => next a = b ∧ prev b = a
  | a, x :: l, b => next a = x ∧ prev x = a ∧ Links next prev x l b

@[simp] theorem links_nil : Links next prev a [] b ↔ next a = b ∧ prev b = a := Iff.rfl

@[simp] theorem links_cons :
    Links next prev a (x :: l) b ↔ next a = x ∧ prev x = a ∧ Links next prev x l b := Iff.rfl

theorem links_append : ∀ {l : List α} {a : α},
    Links next prev a (l ++ x :: r) b ↔ Links next prev a l x ∧ Links next prev x r b
  | [], a => by simp [and_assoc]
  | y :: l, a => by simp [links_append (l := l), and_assoc]

/-- Only the `next` of the nodes before the last and the `prev` of those behind the
first matter. -/
theorem Links.frame : ∀ {l : List α} {a : α}, Links next prev a l b →
    (∀ y ∈ a :: l, next' y = next y) → (∀ y ∈ l ++ [b], prev' y = prev y) → Links next' prev' a l b
  | [], a, h, hn, hp => ⟨(hn a (by simp)).trans h.1, (hp b (by simp)).trans h.2⟩
  | x :: l, a, h, hn, hp =>
    ⟨(hn a (by simp)).trans h.1, (hp x (by simp)).trans h.2.1,
      h.2.2.frame (fun y hy => hn y (mem_cons_of_mem _ hy))
        fun y hy => hp y (mem_cons_of_mem _ hy)⟩

/-- The node before `b`. -/
def before (a : α) (l : List α) : α := (a :: l).getLast (cons_ne_nil a l)

/-- The node behind `a`. -/
def behind (l : List α) (b : α) : α := (l ++ [b]).head (by simp)

@[simp] theorem before_nil : before a [] = a := rfl

@[simp] theorem before_cons : before a (x :: l) = before x l := by
  simp [before, getLast_cons]

@[simp] theorem before_append_singleton : before a (l ++ [x]) = x := by simp [before]

@[simp] theorem behind_nil : behind [] b = b := rfl

@[simp] theorem behind_cons : behind (x :: l) b = x := rfl

theorem before_mem (a : α) (l : List α) : before a l ∈ a :: l := getLast_mem _

theorem behind_mem (l : List α) (b : α) : behind l b ∈ l ++ [b] := head_mem _

theorem Links.next_eq (h : Links next prev a l b) : next a = behind l b := by
  cases l with
  | nil => exact h.1
  | cons x l => exact h.1

theorem Links.prev_eq : ∀ {l : List α} {a : α}, Links next prev a l b → prev b = before a l
  | [], _, h => h.2
  | x :: l, a, h => by rw [before_cons]; exact h.2.2.prev_eq

theorem Links.prev_behind (hr : Links next prev a r b) : prev (behind r b) = a := by
  cases r with
  | nil => exact hr.2
  | cons x r => exact hr.2.1

theorem Links.det : ∀ {l l' : List α} {a : α}, Links next prev a l b → Links next prev a l' b →
    b ∉ l → b ∉ l' → l = l'
  | [], [], _, _, _, _, _ => rfl
  | [], y :: l', _, h, h', _, hb => by
    exact absurd (by rw [← h.1, h'.1]; simp) hb
  | x :: l, [], _, h, h', hb, _ => by
    exact absurd (by rw [← h'.1, h.1]; simp) hb
  | x :: l, y :: l', _, h, h', hb, hb' => by
    obtain rfl : x = y := h.1.symm.trans h'.1
    rw [h.2.2.det h'.2.2 (fun hm => hb (mem_cons_of_mem _ hm))
      fun hm => hb' (mem_cons_of_mem _ hm)]

/-- The ring with header `h` and the nodes `l`. -/
structure IsRing (next prev : α → α) (h : α) (l : List α) : Prop where
  links : Links next prev h l h
  nodup : (h :: l).Nodup

theorem IsRing.next_head (hr : IsRing next prev h l) : next h = behind l h := hr.links.next_eq

theorem IsRing.prev_head (hr : IsRing next prev h l) : prev h = before h l := hr.links.prev_eq

theorem IsRing.neighbours (hr : IsRing next prev h (l ++ n :: r)) : next n = behind r h ∧ prev n = before h l := by
  obtain ⟨hl, hn⟩ := links_append.mp hr.links
  exact ⟨hn.next_eq, hl.prev_eq⟩

theorem IsRing.frame (hr : IsRing next prev h l) (hn : ∀ y ∈ h :: l, next' y = next y)
    (hp : ∀ y ∈ h :: l, prev' y = prev y) : IsRing next' prev' h l where
  links := hr.links.frame hn fun y hy => hp y (by simpa [or_comm] using hy)
  nodup := hr.nodup

theorem IsRing.next_eq_head_iff (hr : IsRing next prev h l) : next h = h ↔ l = [] := by
  cases l with
  | nil => exact ⟨fun _ => rfl, fun _ => hr.links.1⟩
  | cons x l =>
    refine ⟨fun he => absurd hr.nodup ?_, fun he => by cases he⟩
    have hx : x = h := hr.links.1.symm.trans he
    simp [hx]

theorem links_split : ∀ {l : List α} {a : α}, Links next prev a (l ++ r) b ↔
    Links next prev a l (behind r b) ∧ Links next prev (before a l) r b
  | [], a => by
    refine ⟨fun h => ⟨⟨h.next_eq, ?_⟩, h⟩, fun h => h.2⟩
    cases r with
    | nil => exact h.2
    | cons x r => exact h.2.1
  | x :: l, a => by simp [links_split (l := l), and_assoc]

theorem Links.retarget {c : α} : ∀ {l : List α} {a : α}, Links next prev a l b → (a :: l).Nodup →
    (∀ y ∈ a :: l, y ≠ before a l → next' y = next y) → next' (before a l) = c →
    (∀ y ∈ l, prev' y = prev y) → prev' c = before a l → Links next' prev' a l c
  | [], a, _, _, _, hl, _, hc => ⟨hl, hc⟩
  | x :: l, a, h, hnd, hn, hl, hp, hc => by
    rw [before_cons] at hn hl hc
    have ha : a ≠ before x l := fun e => (nodup_cons.mp hnd).1 (e ▸ before_mem x l)
    refine ⟨(hn a (by simp) ha).trans h.1, (hp x (by simp)).trans h.2.1, ?_⟩
    exact h.2.2.retarget (nodup_cons.mp hnd).2 (fun y hy => hn y (mem_cons_of_mem _ hy))
      hl (fun y hy => hp y (mem_cons_of_mem _ hy)) hc

theorem Links.reenter (hr : Links next prev a r b) (hnd : (r ++ [b]).Nodup)
    (hn : next' n = behind r b) (hnr : ∀ y ∈ r, next' y = next y) (hp : prev' (behind r b) = n)
    (hpr : ∀ y ∈ r ++ [b], y ≠ behind r b → prev' y = prev y) : Links next' prev' n r b := by
  cases r with
  | nil => exact ⟨hn, hp⟩
  | cons x r =>
    refine ⟨hn, hp, hr.2.2.frame hnr fun y hy => hpr y (mem_cons_of_mem _ hy) ?_⟩
    exact ne_of_mem_of_not_mem hy (nodup_cons.mp hnd).1

section
variable (hnd : (h :: (l ++ r)).Nodup)
include hnd

theorem nodup_behind : (r ++ [h]).Nodup :=
  (perm_append_singleton h r).nodup_iff.mpr
    (hnd.sublist ((sublist_append_right l r).cons_cons h))

theorem nodup_before : (h :: l).Nodup :=
  hnd.sublist ((sublist_append_left l r).cons_cons h)

theorem notMem_behind {y : α} (hy : y ∈ l) : y ∉ r ++ [h] := by
  rw [nodup_cons, nodup_append] at hnd
  rw [mem_append, mem_singleton, not_or]
  exact ⟨fun hr => hnd.2.2.2 y hy y hr rfl, fun e => hnd.1 (e ▸ mem_append_left r hy)⟩

theorem notMem_before {y : α} (hy : y ∈ r) : y ∉ h :: l := by
  rw [nodup_cons, nodup_append] at hnd
  rw [mem_cons, not_or]
  exact ⟨fun e => hnd.1 (e ▸ mem_append_right l hy), fun hl => hnd.2.2.2 y hl y hy rfl⟩

end

theorem IsRing.prev_behind (hr : IsRing next prev h (l ++ r)) : prev (behind r h) = before h l :=
  (links_split.mp hr.links).2.prev_behind

theorem IsRing.behind_ne (hr : IsRing next prev h (l ++ n :: r)) : n ≠ behind r h := by
  have hnd := nodup_behind (l := l) hr.nodup
  exact (ne_of_mem_of_not_mem (behind_mem r h) (nodup_cons.mp hnd).1).symm

variable [DecidableEq α]

/-- **Linking a node in** between the parts `l` and `r` of a ring. -/
theorem IsRing.insert (hr : IsRing next prev h (l ++ r)) (hn : n ∉ h :: (l ++ r)) :
    IsRing (update (update next n (behind r h)) (before h l) n)
      (update (update prev n (before h l)) (behind r h) n) h (l ++ n :: r) := by
  have hnd := hr.nodup
  obtain ⟨hl, hrr⟩ := links_split.mp hr.links
  have hnl : n ∉ h :: l := fun hm => hn (by rw [← cons_append]; exact mem_append_left r hm)
  have hnr : n ∉ r ++ [h] := by
    simp only [mem_cons, mem_append, not_or] at hn ⊢
    simp [hn.1, hn.2.2]
  have hbl : before h l ≠ n := fun e => hnl (e ▸ before_mem h l)
  have hbr : behind r h ≠ n := fun e => hnr (e ▸ behind_mem r h)
  refine ⟨links_append.mpr ⟨?_, ?_⟩, ?_⟩
  · refine hl.retarget (nodup_before hnd) (fun y hy hne => ?_) (by simp) (fun y hy => ?_) ?_
    · rw [update_of_ne hne, update_of_ne (ne_of_mem_of_not_mem hy hnl)]
    · rw [update_of_ne (ne_of_mem_of_not_mem (behind_mem r h) (notMem_behind hnd hy)).symm,
        update_of_ne (ne_of_mem_of_not_mem (mem_cons_of_mem _ hy) hnl)]
    · rw [update_of_ne hbr.symm, update_self]
  · refine hrr.reenter (nodup_behind hnd) ?_ (fun y hy => ?_) (by simp) fun y hy hne => ?_
    · rw [update_of_ne hbl.symm, update_self]
    · rw [update_of_ne (ne_of_mem_of_not_mem (before_mem h l) (notMem_before hnd hy)).symm,
        update_of_ne (ne_of_mem_of_not_mem (mem_append_left _ hy) hnr)]
    · rw [update_of_ne hne, update_of_ne (ne_of_mem_of_not_mem hy hnr)]
  · rw [← cons_append]
    exact nodup_middle.mpr (nodup_cons.mpr ⟨hn, hnd⟩)

/-- **Unlinking a node** of a ring. -/
theorem IsRing.remove (hr : IsRing next prev h (l ++ n :: r)) :
    IsRing (update next (before h l) (behind r h))
      (update prev (behind r h) (before h l)) h (l ++ r) := by
  have hnd : (h :: (l ++ r)).Nodup :=
    hr.nodup.sublist (((sublist_cons_self n r).append_left l).cons_cons h)
  obtain ⟨hl, hrr⟩ := links_append.mp hr.links
  refine ⟨links_split.mpr ⟨?_, ?_⟩, hnd⟩
  · refine hl.retarget (nodup_before hnd) (fun y _ hne => update_of_ne hne _ _) (by simp)
      (fun y hy => ?_) (by simp)
    exact update_of_ne (ne_of_mem_of_not_mem (behind_mem r h) (notMem_behind hnd hy)).symm _ _
  · refine hrr.reenter (nodup_behind hnd) (by simp) (fun y hy => ?_) (by simp)
      fun y _ hne => update_of_ne hne _ _
    exact update_of_ne (ne_of_mem_of_not_mem (before_mem h l) (notMem_before hnd hy)).symm _ _

end RtosKernel.Lib.Ring
