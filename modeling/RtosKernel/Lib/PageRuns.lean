import Mathlib

/-! # Runs of pages

Consecutive pages with one holder. How many of the holders in a list a page has is a number, so that a list splits,
joins and moves its runs by sums; where every page has one holder, the runs are a partition. -/
namespace RtosKernel.Lib.PageRuns

structure Run where
  page : Nat
  pages : Nat
  deriving DecidableEq

def Run.Has (r : Run) (p : Nat) : Prop := r.page ≤ p ∧ p < r.page + r.pages

instance Run.Has.instDecidable (r : Run) (p : Nat) : Decidable (r.Has p) :=
  inferInstanceAs (Decidable (_ ∧ _))

/-- How many runs of a list have the page. -/
def owners (l : List Run) (p : Nat) : Nat := l.countP fun r => r.Has p

variable {r s : Run} {l l' : List Run} {a m n p : Nat}

def Run.at (r : Run) (p : Nat) : Nat := if r.Has p then 1 else 0

@[simp] theorem owners_nil : owners [] p = 0 := rfl

@[simp] theorem owners_cons : owners (r :: l) p = r.at p + owners l p := by
  simp only [owners, Run.at, List.countP_cons, decide_eq_true_eq]
  exact Nat.add_comm ..

@[simp] theorem owners_append : owners (l ++ l') p = owners l p + owners l' p := List.countP_append

theorem owners_perm (h : l.Perm l') : owners l p = owners l' p := h.countP_eq _

theorem Run.at_add (a m n p : Nat) : (Run.mk a (m + n)).at p = (Run.mk a m).at p + (Run.mk (a + m) n).at p := by
  unfold Run.at
  split <;> split <;> split <;> simp only [Run.Has] at * <;> omega

theorem Run.at_pos : 0 < r.at p ↔ r.Has p := by
  unfold Run.at
  split <;> simp [*]

theorem owners_pos (h : r ∈ l) (hp : r.Has p) : 0 < owners l p :=
  List.countP_pos_iff.mpr ⟨r, h, by simpa using hp⟩

/-- Two runs without a page in common. -/
def Run.Apart (r s : Run) : Prop := ∀ p, ¬ (r.Has p ∧ s.Has p)

theorem Run.Apart.symm (h : r.Apart s) : s.Apart r := fun p hp => h p hp.symm

theorem Run.Apart.bounds (h : r.Apart s) (hr : 0 < r.pages) (hs : 0 < s.pages) :
    r.page + r.pages ≤ s.page ∨ s.page + s.pages ≤ r.page := by
  by_contra hne
  rw [not_or, Nat.not_le, Nat.not_le] at hne
  have := h (max r.page s.page)
  simp only [Run.Has] at this
  omega

theorem pairwise_apart (h : ∀ p, owners l p ≤ 1) : l.Pairwise Run.Apart := by
  induction l with
  | nil => exact .nil
  | cons r l ih =>
    refine .cons (fun s hs p hp => ?_) (ih fun p => ?_)
    · have hpos := owners_pos hs hp.2
      have := h p
      rw [owners_cons] at this
      have := Run.at_pos.mpr hp.1
      omega
    · have := h p
      rw [owners_cons] at this
      omega

theorem owners_le_one (h : l.Pairwise Run.Apart) (p : Nat) : owners l p ≤ 1 := by
  induction l with
  | nil => exact Nat.zero_le _
  | cons r l ih =>
    obtain ⟨hr, hl⟩ := List.pairwise_cons.mp h
    have hle := ih hl
    rw [owners_cons]
    by_cases hp : r.Has p
    · have : owners l p = 0 := List.countP_eq_zero.mpr fun s hs hsp => hr s hs p ⟨hp, by simpa using hsp⟩
      have : r.at p = 1 := if_pos hp
      omega
    · have : r.at p = 0 := if_neg hp
      omega

theorem Run.sum_at (h : r.page + r.pages ≤ n) : ∑ p ∈ Finset.range n, r.at p = r.pages := by
  have hfilter : (Finset.range n).filter (fun p => r.Has p) = Finset.Ico r.page (r.page + r.pages) := by
    ext p
    rw [Finset.mem_filter, Finset.mem_range, Finset.mem_Ico, Run.Has]
    omega
  simp only [Run.at]
  rw [← Finset.card_filter, hfilter, Nat.card_Ico, Nat.add_sub_cancel_left]

theorem sum_pages_le (h : ∀ p, owners l p ≤ if p < n then 1 else 0) : (l.map Run.pages).sum ≤ n := by
  have hsum : ∀ l : List Run, (∀ r ∈ l, r.page + r.pages ≤ n ∨ r.pages = 0) →
      (l.map Run.pages).sum = ∑ p ∈ Finset.range n, owners l p := by
    intro l
    induction l with
    | nil => simp
    | cons r l ih =>
      intro hl
      have hr : ∑ p ∈ Finset.range n, r.at p = r.pages := by
        rcases hl r List.mem_cons_self with hle | hz
        · exact Run.sum_at hle
        · rw [hz]
          refine Finset.sum_eq_zero fun p _ => if_neg fun hp => ?_
          simp only [Run.Has, hz] at hp
          omega
      simp only [List.map_cons, List.sum_cons, owners_cons, Finset.sum_add_distrib, hr]
      rw [ih fun s hs => hl s (List.mem_cons_of_mem _ hs)]
  rw [hsum l fun r hr => ?_]
  · calc ∑ p ∈ Finset.range n, owners l p
      _ ≤ ∑ _p ∈ Finset.range n, 1 := Finset.sum_le_sum fun p hp => by
          simpa [Finset.mem_range.mp hp] using h p
      _ = n := by rw [Finset.sum_const, Finset.card_range, smul_eq_mul, Nat.mul_one]
  · by_contra hne
    rw [not_or] at hne
    have hpos := owners_pos hr (p := r.page + r.pages - 1) (by simp only [Run.Has]; omega)
    have := h (r.page + r.pages - 1)
    rw [if_neg (by omega)] at this
    omega

theorem sum_pages_le_of_apart (h : l.Pairwise Run.Apart) (hn : ∀ r ∈ l, r.page + r.pages ≤ n) :
    (l.map Run.pages).sum ≤ n := by
  refine sum_pages_le fun p => ?_
  split
  · exact owners_le_one h p
  · rename_i hp
    refine Nat.le_of_eq (List.countP_eq_zero.mpr fun r hr hrp => ?_)
    have hhas : r.Has p := by simpa using hrp
    have := hn r hr
    have := hhas.2
    omega

end RtosKernel.Lib.PageRuns
