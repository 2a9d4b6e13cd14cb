import Mathlib.Data.Set.Card

/-! # Waiting threads and threads that were woken

Threads wait for one of a number of things. Each thing that is added wakes one of
them, and a thread that was woken looks again before it takes one. The account:
while somebody waits, there are no more things than threads on their way to them. -/
namespace RtosKernel.Lib.Wakeups
open List

variable {T : Type}

/-- While somebody waits, at least `available` threads have been woken and have not looked yet. -/
def Enough (waiting : List T) (woken : Set T) (available : Nat) : Prop :=
  waiting ≠ [] → (available : ℕ∞) ≤ woken.encard

variable {waiting waiting' : List T} {woken woken' : Set T} {available n : Nat} {t : T}

theorem Enough.nil : Enough [] woken available := fun h => absurd rfl h

theorem Enough.zero : Enough waiting woken 0 := fun _ => by simp

theorem Enough.mono (h : Enough waiting woken available) (hw : waiting' ≠ [] → waiting ≠ []) (hsub : woken ⊆ woken')
    (hn : n ≤ available) : Enough waiting' woken' n := fun hne =>
  (Nat.cast_le.mpr hn).trans ((h (hw hne)).trans (Set.encard_le_encard hsub))

theorem Enough.wake (h : Enough waiting woken available) (ht : t ∈ waiting) (hnew : t ∉ woken)
    (hsub : insert t woken ⊆ woken') : Enough waiting' woken' (available + 1) := fun _ => by
  have hle := h (ne_nil_of_mem ht)
  calc ((available + 1 : Nat) : ℕ∞) ≤ woken.encard + 1 := by
        rw [Nat.cast_add, Nat.cast_one]
        exact add_le_add_left hle 1
    _ = (insert t woken).encard := (Set.encard_insert_of_notMem hnew).symm
    _ ≤ woken'.encard := Set.encard_le_encard hsub

theorem Enough.take (h : Enough waiting woken (available + 1)) (hw : waiting' ≠ [] → waiting ≠ [])
    (hsub : woken \ {t} ⊆ woken') : Enough waiting' woken' available := fun hne => by
  have hle : ((available + 1 : Nat) : ℕ∞) ≤ woken.encard := h (hw hne)
  have hdiff : woken.encard ≤ (woken \ {t}).encard + 1 := by
    rw [← Set.encard_singleton t]
    exact Set.encard_le_encard_sdiff_add_encard _ _
  have hlt : (available : ℕ∞) + 1 ≤ (woken \ {t}).encard + 1 := by
    rw [Nat.cast_add, Nat.cast_one] at hle
    exact hle.trans hdiff
  exact ((ENat.add_le_add_iff_right ENat.one_ne_top).mp hlt).trans (Set.encard_le_encard hsub)

/-! ## A waiting room -/

/-- The threads that want one of `available` things: those that wait, and those that were woken for one. -/
structure Room (T : Type) where
  wants : T → Prop
  waiting : List T
  available : Nat

def Room.Woken (r : Room T) (t : T) : Prop := r.wants t ∧ t ∉ r.waiting

/-- Every thread that waits wants something, and enough of them are woken. -/
structure Room.Ok (r : Room T) : Prop where
  wants : ∀ t ∈ r.waiting, r.wants t
  nodup : r.waiting.Nodup
  enough : Enough r.waiting {t | r.Woken t} r.available

section Room
variable {r r' : Room T}

/-- Only one thread changes its mind. -/
def Room.Only (t : T) (r r' : Room T) : Prop := ∀ x ≠ t, r'.wants x ↔ r.wants x

theorem Room.Ok.kept (h : r.Ok) (ho : r.Only t r') (ht : t ∉ r'.waiting) (hsub : ∀ x ∈ r'.waiting, x ∈ r.waiting) :
    ∀ x ∈ r'.waiting, r'.wants x := fun x hx =>
  (ho x fun he => ht (he ▸ hx)).mpr (h.wants x (hsub x hx))

theorem Room.Only.woken_sub (ho : r.Only t r') (hsub : ∀ x ∈ r'.waiting, x ∈ r.waiting) :
    {x | r.Woken x} \ {t} ⊆ {x | r'.Woken x} := by
  rintro x ⟨⟨hwants, hx⟩, hne⟩
  exact ⟨(ho x hne).mpr hwants, fun hin => hx (hsub x hin)⟩

theorem Room.Only.woken_sub_all (ho : r.Only t r') (hsub : ∀ x ∈ r'.waiting, x ∈ r.waiting) (hno : ¬r.Woken t) :
    {x | r.Woken x} ⊆ {x | r'.Woken x} := by
  have hdiff : {x | r.Woken x} \ {t} = {x | r.Woken x} := Set.sdiff_singleton_eq_self hno
  exact hdiff ▸ ho.woken_sub hsub

section
variable (h : r.Ok) (ho : r.Only t r')
include h ho

theorem Room.Ok.stay (hw : r'.waiting = r.waiting) (ht : t ∉ r.waiting)
    (ha : r'.available ≤ r.available) (hno : ¬r.Woken t ∨ r'.available = 0) : r'.Ok := by
  have hsub : ∀ x ∈ r'.waiting, x ∈ r.waiting := fun x hx => hw ▸ hx
  refine ⟨h.kept ho (hw ▸ ht) hsub, hw ▸ h.nodup, ?_⟩
  rcases hno with hno | hzero
  · exact h.enough.mono (fun hne => hw ▸ hne) (ho.woken_sub_all hsub hno) ha
  · rw [hzero]
    exact .zero

theorem Room.Ok.wake (hw : r'.waiting = r.waiting.tail) (ht : t ∉ r.waiting)
    (ha : r'.available ≤ r.available + 1) (hno : ¬r.Woken t) : r'.Ok := by
  have hsub : ∀ x ∈ r'.waiting, x ∈ r.waiting := fun x hx => mem_of_mem_tail (hw ▸ hx)
  refine ⟨h.kept ho (fun hin => ht (hsub t hin)) hsub, hw ▸ h.nodup.sublist (tail_sublist _), ?_⟩
  have hwoken := ho.woken_sub_all hsub hno
  cases hwait : r.waiting with
  | nil =>
    rw [hw, hwait]
    exact .nil
  | cons u rest =>
    have hu : u ∈ r.waiting := by rw [hwait]; exact mem_cons_self ..
    have hnodup := h.nodup
    rw [hwait] at hnodup
    have hgone : u ∉ r'.waiting := by
      rw [hw, hwait]
      exact (nodup_cons.mp hnodup).1
    have hwants : r'.wants u := (ho u fun he => ht (he ▸ hu)).mpr (h.wants u hu)
    have hnew : insert u {x | r.Woken x} ⊆ {x | r'.Woken x} := by
      rintro x (rfl | hx)
      · exact ⟨hwants, hgone⟩
      · exact hwoken hx
    have henough : Enough r'.waiting {x | r'.Woken x} (r.available + 1) :=
      h.enough.wake hu (fun hin => hin.2 hu) hnew
    exact henough.mono id subset_rfl ha

theorem Room.Ok.take (hw : r'.waiting = r.waiting) (ht : t ∉ r.waiting)
    (ha : r'.available + 1 ≤ r.available) : r'.Ok := by
  have hsub : ∀ x ∈ r'.waiting, x ∈ r.waiting := fun x hx => hw ▸ hx
  refine ⟨h.kept ho (hw ▸ ht) hsub, hw ▸ h.nodup, ?_⟩
  exact (h.enough.mono (n := r'.available + 1) id subset_rfl ha).take (fun hne => hw ▸ hne) (ho.woken_sub hsub)

theorem Room.Ok.suspend (hw : r'.waiting.Perm (t :: r.waiting)) (ht : t ∉ r.waiting)
    (hwants : r'.wants t) (ha : r'.available = 0) : r'.Ok where
  wants x hx := by
    by_cases he : x = t
    · exact he ▸ hwants
    · exact (ho x he).mpr (h.wants x ((mem_cons.mp (hw.mem_iff.mp hx)).resolve_left he))
  nodup := hw.nodup_iff.mpr (nodup_cons.mpr ⟨ht, h.nodup⟩)
  enough := by
    rw [ha]
    exact .zero

end

theorem Room.Ok.leave [DecidableEq T] (h : r.Ok) (ho : r.Only t r') (hw : r'.waiting = r.waiting.erase t)
    (ht : t ∈ r.waiting) (ha : r'.available ≤ r.available) : r'.Ok := by
  have hsub : ∀ x ∈ r'.waiting, x ∈ r.waiting := fun x hx => mem_of_mem_erase (hw ▸ hx)
  have hgone : t ∉ r'.waiting := by
    rw [hw]
    exact h.nodup.not_mem_erase
  refine ⟨h.kept ho hgone hsub, hw ▸ h.nodup.erase t, ?_⟩
  exact h.enough.mono (fun _ => ne_nil_of_mem ht) (ho.woken_sub_all hsub fun hin => hin.2 ht) ha

theorem Room.ok_nil (hw : r.waiting = []) : r.Ok := by
  refine ⟨?_, ?_, ?_⟩ <;> rw [hw]
  · nofun
  · exact nodup_nil
  · exact .nil

end Room

end RtosKernel.Lib.Wakeups
