import Mathlib

/-! # Lists that know what they contain

Kernels keep their objects in intrusive lists: an item is in at most one list of a family, and it knows in
which. -/
namespace RtosKernel.Lib.Containers
open List Function

variable {K T : Type}

/-! ## Ordered insertion -/

section Insert
variable {t x : T} {value : T → Nat}

/-- Insert an item behind those with a value that is not larger. -/
def insertBy (value : T → Nat) (t : T) : List T → List T
  | [] => [t]
  | x :: l => if value x ≤ value t then x :: insertBy value t l else t :: x :: l

theorem insertBy_perm (value : T → Nat) (t : T) (l : List T) : (insertBy value t l).Perm (t :: l) := by
  induction l with
  | nil => exact .refl _
  | cons y l ih =>
    rw [insertBy]
    split
    · exact (ih.cons y).trans (.swap t y l)
    · exact .refl _

theorem mem_insertBy {l : List T} : x ∈ insertBy value t l ↔ x = t ∨ x ∈ l := by
  rw [(insertBy_perm value t l).mem_iff, mem_cons]

abbrev Sorted (value : T → Nat) (l : List T) : Prop := l.Pairwise fun x y => value x ≤ value y

theorem insertBy_sorted {l : List T} (h : Sorted value l) : Sorted value (insertBy value t l) := by
  induction l with
  | nil => simp [insertBy, Sorted]
  | cons y l ih =>
    obtain ⟨hy, hl⟩ := pairwise_cons.mp h
    rw [insertBy]
    split
    · rename_i hle
      refine pairwise_cons.mpr ⟨fun z hz => ?_, ih hl⟩
      rcases mem_insertBy.mp hz with rfl | hz
      · exact hle
      · exact hy z hz
    · rename_i hlt
      refine pairwise_cons.mpr ⟨fun z hz => ?_, h⟩
      rcases mem_cons.mp hz with rfl | hz
      · omega
      · have := hy z hz; omega

theorem Sorted.congr {value' : T → Nat} {l : List T} (h : Sorted value l) (hv : ∀ x ∈ l, value' x = value x) :
    Sorted value' l :=
  h.imp_of_mem fun hx hy hle => by rw [hv _ hx, hv _ hy]; exact hle

end Insert

/-- A family of lists indexed by `K`, and the list each item is in. -/
structure Lists (K T : Type) where
  items : K → List T
  container : T → Option K

variable [DecidableEq K] [DecidableEq T]

def Lists.remove (s : Lists K T) (t : T) : Lists K T :=
  match s.container t with
  | none => s
  | some k =>
    { items := Function.update s.items k ((s.items k).erase t)
      container := Function.update s.container t none }

/-- Put an item into list `k`, which becomes `l`. -/
def Lists.put (s : Lists K T) (k : K) (t : T) (l : List T) : Lists K T :=
  { items := Function.update s.items k l
    container := Function.update s.container t (some k) }

/-- Put an item at the end of a list. -/
def Lists.pushBack (s : Lists K T) (k : K) (t : T) : Lists K T := s.put k t (s.items k ++ [t])

/-- Put an item into a list that is ordered by `value`. -/
def Lists.insert (s : Lists K T) (value : T → Nat) (k : K) (t : T) : Lists K T :=
  s.put k t (insertBy value t (s.items k))

/-- The lists hold each item where it believes to be, and only once. -/
structure Lists.Ok (s : Lists K T) : Prop where
  mem_iff : ∀ t k, t ∈ s.items k ↔ s.container t = some k
  nodup : ∀ k, (s.items k).Nodup

variable {s : Lists K T} {t x : T} {k j : K} {value : T → Nat}

theorem remove_of_none (h : s.container t = none) : s.remove t = s := by
  unfold Lists.remove
  rw [h]

theorem items_remove_of_ne (h : s.container t ≠ some k) : (s.remove t).items k = s.items k := by
  unfold Lists.remove
  split
  · rfl
  · rename_i j hj
    have hne : k ≠ j := fun he => h (he ▸ hj)
    exact update_of_ne hne _ _

theorem items_remove_self (h : s.container t = some k) : (s.remove t).items k = (s.items k).erase t := by
  simp [Lists.remove, h]

@[simp] theorem container_remove_self : (s.remove t).container t = none := by
  unfold Lists.remove
  split
  · assumption
  · simp

theorem container_remove_of_ne (h : x ≠ t) : (s.remove t).container x = s.container x := by
  unfold Lists.remove
  split
  · rfl
  · exact update_of_ne h _ _

theorem container_remove_eq_some : (s.remove t).container x = some k ↔ x ≠ t ∧ s.container x = some k := by
  by_cases hx : x = t
  · subst hx
    simp
  · rw [container_remove_of_ne hx]
    exact (and_iff_right hx).symm

theorem items_remove (h : s.Ok) : (s.remove t).items k = (s.items k).erase t := by
  by_cases hk : s.container t = some k
  · exact items_remove_self hk
  · have ht : t ∉ s.items k := fun ht => hk ((h.mem_iff t k).mp ht)
    rw [items_remove_of_ne hk, erase_of_not_mem ht]

theorem items_remove_sublist : ((s.remove t).items k).Sublist (s.items k) := by
  by_cases h : s.container t = some k
  · rw [items_remove_self h]
    exact erase_sublist
  · rw [items_remove_of_ne h]

theorem mem_items_remove (h : s.Ok) : x ∈ (s.remove t).items k ↔ x ≠ t ∧ x ∈ s.items k := by
  by_cases hk : s.container t = some k
  · rw [items_remove_self hk, (h.nodup k).mem_erase_iff]
  · rw [items_remove_of_ne hk]
    refine ⟨fun hx => ⟨fun he => hk ?_, hx⟩, And.right⟩
    rw [← he]
    exact (h.mem_iff x k).mp hx

theorem Lists.Ok.remove (h : s.Ok) (t : T) : (s.remove t).Ok where
  mem_iff x k := by
    rw [mem_items_remove h, h.mem_iff]
    by_cases hx : x = t
    · subst hx
      simp
    · rw [container_remove_of_ne hx]
      simp [hx]
  nodup k := items_remove_sublist.nodup (h.nodup k)

@[simp] theorem items_put_self (l : List T) : (s.put k t l).items k = l := update_self ..

theorem items_put_of_ne (l : List T) (h : j ≠ k) : (s.put k t l).items j = s.items j :=
  update_of_ne h _ _

@[simp] theorem container_put_self (l : List T) : (s.put k t l).container t = some k := update_self ..

theorem container_put_of_ne (l : List T) (h : x ≠ t) : (s.put k t l).container x = s.container x :=
  update_of_ne h _ _

section
variable (h : s.Ok) (ht : s.container t = none)
include h ht

theorem Lists.Ok.put {l : List T} (hl : l.Perm (t :: s.items k)) :
    (s.put k t l).Ok where
  mem_iff x j := by
    by_cases hj : j = k
    · subst hj
      rw [items_put_self, hl.mem_iff, mem_cons]
      by_cases hx : x = t
      · subst hx; simp
      · rw [container_put_of_ne l hx, h.mem_iff]; simp [hx]
    · rw [items_put_of_ne l hj]
      by_cases hx : x = t
      · subst hx
        rw [h.mem_iff, ht, container_put_self]
        simp [Ne.symm hj]
      · rw [container_put_of_ne l hx, h.mem_iff]
  nodup j := by
    by_cases hj : j = k
    · subst hj
      rw [items_put_self, hl.nodup_iff, nodup_cons, h.mem_iff, ht]
      exact ⟨by simp, h.nodup _⟩
    · rw [items_put_of_ne l hj]
      exact h.nodup j

theorem Lists.Ok.pushBack : (s.pushBack k t).Ok :=
  h.put ht (perm_append_singleton t _)

theorem Lists.Ok.insert : (s.insert value k t).Ok :=
  h.put ht (insertBy_perm ..)

end

theorem mem_items_pushBack : x ∈ (s.pushBack k t).items j ↔ (x = t ∧ j = k) ∨ x ∈ s.items j := by
  by_cases hj : j = k
  · subst hj
    simp [Lists.pushBack, or_comm]
  · simp [Lists.pushBack, items_put_of_ne _ hj, hj]

theorem mem_items_insert : x ∈ (s.insert value k t).items j ↔ (x = t ∧ j = k) ∨ x ∈ s.items j := by
  by_cases hj : j = k
  · subst hj
    simp [Lists.insert, mem_insertBy]
  · simp [Lists.insert, items_put_of_ne _ hj, hj]

end RtosKernel.Lib.Containers
