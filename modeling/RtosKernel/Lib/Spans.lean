import Mathlib

/-! # Byte ranges handed out around a circular buffer

A ring allocator hands out ranges of a buffer `[b, e)` in increasing order, and wraps to `b` when the end is
reached. `RingLayout` is the shape its ranges keep in allocation order: an upper part in increasing order, then
a lower part, also increasing, that ends before the upper one starts. -/
namespace RtosKernel.Lib.Spans
open List

/-- The range `[start, start + size)`. -/
structure Span where
  start : Nat
  size : Nat
  deriving DecidableEq, Repr

def Span.fin (s : Span) : Nat := s.start + s.size

def Span.Apart (s t : Span) : Prop :=
  ∀ x, ¬ ((s.start ≤ x ∧ x < s.fin) ∧ (t.start ≤ x ∧ x < t.fin))

theorem Span.Apart.symm {s t : Span} (h : s.Apart t) : t.Apart s := fun x hx => h x hx.symm

theorem Span.apart_of_le {s t : Span} (h : s.fin ≤ t.start) : s.Apart t := by
  intro x hx; omega

/-- Ranges in increasing order between `lo` and `hi`. -/
def Asc (hi : Nat) : Nat → List Span → Prop
  | lo, [] => lo ≤ hi
  | lo, s :: rest => lo ≤ s.start ∧ Asc hi s.fin rest

theorem Asc.le {hi : Nat} : ∀ {l : List Span} {lo : Nat}, Asc hi lo l → lo ≤ hi
  | [], _, h => h
  | s :: rest, _, ⟨h, hr⟩ => by
    have := Asc.le hr
    unfold Span.fin at this
    omega

theorem Asc.weaken {hi hi' : Nat} (hh : hi ≤ hi') : ∀ {l : List Span} {lo lo' : Nat},
    lo' ≤ lo → Asc hi lo l → Asc hi' lo' l
  | [], _, _, hl, h => Nat.le_trans hl (Nat.le_trans h hh)
  | _ :: _, _, _, hl, ⟨h, hr⟩ => ⟨Nat.le_trans hl h, hr.weaken hh (Nat.le_refl _)⟩

theorem Asc.bounds {hi : Nat} {x : Span} : ∀ {l : List Span} {lo : Nat}, Asc hi lo l → x ∈ l →
    lo ≤ x.start ∧ x.fin ≤ hi
  | s :: rest, lo, ⟨h, hr⟩, hx => by
    rcases mem_cons.mp hx with rfl | hx
    · exact ⟨h, hr.le⟩
    · obtain ⟨h1, h2⟩ := hr.bounds hx
      unfold Span.fin at h1
      exact ⟨by omega, h2⟩

theorem Asc.pairwise {hi : Nat} : ∀ {l : List Span} {lo : Nat}, Asc hi lo l →
    l.Pairwise fun s t => s.fin ≤ t.start
  | [], _, _ => .nil
  | _ :: _, _, ⟨_, hr⟩ => .cons (fun _ ht => (hr.bounds ht).1) hr.pairwise

variable {l l' : List Span}

theorem Asc.sublist {hi : Nat} (hs : l'.Sublist l) : ∀ {lo : Nat},
    Asc hi lo l → Asc hi lo l' := by
  induction hs with
  | slnil => exact id
  | cons s _ ih =>
    intro lo h
    have hle : lo ≤ s.fin := Nat.le_trans h.1 (Nat.le_add_right _ _)
    exact (ih h.2).weaken (Nat.le_refl _) hle
  | cons_cons s _ ih => intro lo h; exact ⟨h.1, ih h.2⟩

theorem Asc.snoc {hi : Nat} {t s : Span} : ∀ {l : List Span} {lo : Nat}, Asc hi lo (l ++ [t]) →
    t.fin ≤ s.start → s.fin ≤ hi → Asc hi lo (l ++ [t] ++ [s])
  | [], _, h, hs, he => ⟨h.1, hs, he⟩
  | _ :: _, _, h, hs, he => ⟨h.1, Asc.snoc h.2 hs he⟩

/-- The shape of the ranges in use, in allocation order. -/
def RingLayout (b e : Nat) (l : List Span) : Prop :=
  ∃ (up low : List Span) (m : Nat), l = up ++ low ∧ Asc e m up ∧ Asc m b low ∧
    (∀ s ∈ low, s.start < m) ∧ (up = [] → low = [])

theorem RingLayout.nil {b e : Nat} (h : b ≤ e) : RingLayout b e [] :=
  ⟨[], [], e, rfl, Nat.le_refl _, h, by simp, fun _ => rfl⟩

theorem RingLayout.bounds {b e : Nat} (h : RingLayout b e l) {s : Span}
    (hs : s ∈ l) : b ≤ s.start ∧ s.fin ≤ e := by
  obtain ⟨up, low, m, rfl, hup, hlow, _, _⟩ := h
  have hm := hlow.le
  have hm' := hup.le
  rcases mem_append.mp hs with hs | hs
  · have := hup.bounds hs; omega
  · have := hlow.bounds hs; omega

theorem RingLayout.apart {b e : Nat} (h : RingLayout b e l) : l.Pairwise Span.Apart := by
  obtain ⟨up, low, m, rfl, hup, hlow, _, _⟩ := h
  apply pairwise_append.mpr
  refine ⟨hup.pairwise.imp Span.apart_of_le, hlow.pairwise.imp Span.apart_of_le, ?_⟩
  intro s hs t ht
  exact (Span.apart_of_le (Nat.le_trans (hlow.bounds ht).2 (hup.bounds hs).1)).symm

theorem RingLayout.sublist {b e : Nat} (h : RingLayout b e l)
    (hs : l'.Sublist l) : RingLayout b e l' := by
  obtain ⟨up, low, m, rfl, hup, hlow, hlt, _⟩ := h
  obtain ⟨up', low', rfl, hu, hl⟩ := sublist_append_iff.mp hs
  cases up' with
  | nil =>
    -- the upper part is gone: the lower part takes its place
    refine ⟨low', [], b, by simp, ?_, Nat.le_refl _, by simp, fun _ => rfl⟩
    exact (hlow.sublist hl).weaken hup.le (Nat.le_refl _)
  | cons s rest =>
    exact ⟨s :: rest, low', m, rfl, hup.sublist hu, hlow.sublist hl, fun t ht => hlt t (hl.subset ht), by simp⟩

theorem RingLayout.single {b e size : Nat} (h : b + size ≤ e) : RingLayout b e [⟨b, size⟩] :=
  ⟨[⟨b, size⟩], [], b, by simp, ⟨Nat.le_refl _, h⟩, Nat.le_refl _, by simp, fun _ => rfl⟩

section Place

variable {b e size : Nat} {first last : Span} {l : List Span}

section
variable (h : RingLayout b e l) (hf : l.head? = some first) (ht : l.getLast? = some last)
include h hf ht

/-- The first range starts no later than the last one exactly when the layout
has not wrapped. -/
theorem unwrapped_or_wrapped
    :
    (first.start ≤ last.start ∧ Asc e first.start l) ∨
    (last.start < first.start ∧ ∃ up low, l = up ++ low ∧ low.getLast? = some last ∧
      Asc e first.start up ∧ Asc first.start b low ∧ (∀ s ∈ low, s.start < first.start) ∧
      up ≠ []) := by
  obtain ⟨up, low, m, rfl, hup, hlow, hlt, hne⟩ := h
  cases up with
  | nil => rw [hne rfl] at hf; simp at hf
  | cons s rest =>
    have hfs : s = first := by simpa using hf
    subst hfs
    have hup' : Asc e s.start (s :: rest) := ⟨Nat.le_refl _, hup.2⟩
    rcases eq_nil_or_concat' low with rfl | ⟨low', t, rfl⟩
    · rw [List.append_nil] at ht ⊢
      exact .inl ⟨(hup'.bounds (List.mem_of_getLast? ht)).1, hup'⟩
    · have htl : t = last := by
        rw [← append_assoc, List.getLast?_concat] at ht
        exact Option.some.inj ht
      subst htl
      have ht' := hlt t (by simp)
      refine .inr ⟨by have := hup.1; omega, s :: rest, _, rfl, by simp, hup',
        hlow.weaken hup.1 (Nat.le_refl _), ?_, by simp⟩
      intro x hx
      exact Nat.lt_of_lt_of_le (hlt x hx) hup.1

theorem RingLayout.place_up
    (hu : first.start ≤ last.start) (hs : last.fin + size ≤ e) : RingLayout b e (l ++ [⟨last.fin, size⟩]) := by
  have hb := (h.bounds (List.mem_of_head? hf)).1
  rcases unwrapped_or_wrapped h hf ht with ⟨_, hasc⟩ | ⟨hw, _⟩
  · obtain ⟨l', rfl⟩ := List.getLast?_eq_some_iff.mp ht
    exact ⟨_, [], first.start, by simp, hasc.snoc (s := ⟨last.fin, size⟩) (Nat.le_refl _) hs, hb, by simp, by simp⟩
  · omega

theorem RingLayout.place_wrap
    (hu : first.start ≤ last.start) (hpos : 0 < size)
    (hs : b + size ≤ first.start) : RingLayout b e (l ++ [⟨b, size⟩]) := by
  rcases unwrapped_or_wrapped h hf ht with ⟨_, hasc⟩ | ⟨hw, _⟩
  · refine ⟨l, [⟨b, size⟩], first.start, rfl, hasc, ⟨Nat.le_refl _, hs⟩, ?_, ?_⟩
    · intro s hs'
      rw [mem_singleton.mp hs']
      dsimp only
      omega
    · rintro rfl; simp at hf
  · omega

/-- Wrapped: a range that fits between the last and the first one, with a gap to
spare before it. -/
theorem RingLayout.place_low
    (hw : last.start < first.start) (hgap : last.fin < first.start)
    (hs : last.fin + size ≤ first.start) : RingLayout b e (l ++ [⟨last.fin, size⟩]) := by
  rcases unwrapped_or_wrapped h hf ht with ⟨hu, _⟩ | ⟨_, up, low, rfl, hl, hup, hlow, hlt, hne⟩
  · omega
  · obtain ⟨low', rfl⟩ := List.getLast?_eq_some_iff.mp hl
    refine ⟨up, low' ++ [last] ++ [⟨last.fin, size⟩], first.start, by simp, hup,
      hlow.snoc (s := ⟨last.fin, size⟩) (Nat.le_refl _) hs, ?_, fun e => absurd e hne⟩
    intro s hs'
    rcases mem_append.mp hs' with hs' | hs'
    · exact hlt s hs'
    · rw [mem_singleton.mp hs']; exact hgap

end

end Place

/-! ## Ranges that join up -/

def Span.bytes (s : Span) : List Nat := List.range' s.start s.size

/-- From `a` on each range starts where the one before it ends; an empty range may lie anywhere. -/
def Abut : Nat → List Span → Prop
  | _, [] => True
  | a, s :: l => (s.size = 0 ∨ s.start = a) ∧ Abut (a + s.size) l

theorem flatMap_bytes_iff : ∀ {l : List Span} {a : Nat},
    l.flatMap Span.bytes = List.range' a (l.map Span.size).sum ↔ Abut a l
  | [], a => by simp [Abut]
  | s :: l, a => by
    have hsplit : (s :: l).flatMap Span.bytes = List.range' a ((s :: l).map Span.size).sum ↔
        s.bytes = List.range' a s.size ∧
          l.flatMap Span.bytes = List.range' (a + s.size) (l.map Span.size).sum := by
      rw [flatMap_cons, map_cons, sum_cons, ← List.range'_append_1]
      refine ⟨fun h => append_inj h (by simp [Span.bytes]), ?_⟩
      rintro ⟨hs, hl⟩
      rw [hs, hl]
    rw [hsplit, flatMap_bytes_iff, Span.bytes, List.range'_inj]
    simp [Abut]

end RtosKernel.Lib.Spans
