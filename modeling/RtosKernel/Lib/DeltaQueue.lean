import Mathlib

/-! # Queues in order of expiry, kept as differences

A queue holds entries in the order of their keys, those with equal keys in the
order they were added. Where the keys are times, each entry of the queue can
store the difference from the one before it: then adding, taking out or advancing
the time changes one stored value. -/
namespace RtosKernel.Lib.DeltaQueue
open List

/-! ## Order of the keys, then order of adding -/

section Stable
variable {α : Type} (key : α → Int)

/-- Put an entry behind all those with a key that is no greater. -/
def insertBy (x : α) (q : List α) : List α := q.orderedInsert (fun a b => key a < key b) x

/-- The queue `q` holds the entries that were added in the order `b`. -/
structure Stable (q b : List α) : Prop where
  sorted : q.Pairwise fun x y => key x ≤ key y
  same : ∀ k, q.filter (fun x => key x = k) = b.filter (fun x => key x = k)

variable {key}

@[simp] theorem insertBy_nil (x : α) : insertBy key x [] = [x] := rfl

variable {x y : α} {q : List α}

theorem insertBy_cons_of_lt (h : key x < key y) : insertBy key x (y :: q) = x :: y :: q := by
  simp [insertBy, h]

theorem insertBy_cons_of_ge (h : ¬ key x < key y) : insertBy key x (y :: q) = y :: insertBy key x q := by
  simp [insertBy, h]

theorem mem_insertBy : y ∈ insertBy key x q ↔ y = x ∨ y ∈ q := by
  rw [insertBy, mem_orderedInsert]

theorem insertBy_append {pre post : List α} (hpre : ∀ y ∈ pre, key y ≤ key x) (hpost : ∀ y ∈ post.head?, key x < key y) :
    insertBy key x (pre ++ post) = pre ++ x :: post := by
  induction pre with
  | nil =>
    cases post with
    | nil => rfl
    | cons y post => exact insertBy_cons_of_lt (hpost y rfl)
  | cons y pre ih =>
    have hle := hpre y (mem_cons_self ..)
    rw [cons_append, insertBy_cons_of_ge (Int.not_lt.mpr hle), ih fun z hz => hpre z (mem_cons_of_mem _ hz)]
    rfl

theorem insertBy_sorted (h : q.Pairwise fun x y => key x ≤ key y) :
    (insertBy key x q).Pairwise fun x y => key x ≤ key y := by
  induction q with
  | nil => simp
  | cons y q ih =>
    obtain ⟨hy, hq⟩ := pairwise_cons.mp h
    by_cases hlt : key x < key y
    · rw [insertBy_cons_of_lt hlt]
      refine pairwise_cons.mpr ⟨fun z hz => ?_, h⟩
      rcases mem_cons.mp hz with rfl | hz
      · exact hlt.le
      · exact hlt.le.trans (hy z hz)
    · rw [insertBy_cons_of_ge hlt]
      refine pairwise_cons.mpr ⟨fun z hz => ?_, ih hq⟩
      rcases mem_insertBy.mp hz with rfl | hz
      · exact Int.not_lt.mp hlt
      · exact hy z hz

theorem filter_insertBy (h : q.Pairwise fun x y => key x ≤ key y) (k : Int) :
    (insertBy key x q).filter (fun y => key y = k) =
      q.filter (fun y => key y = k) ++ [x].filter (fun y => key y = k) := by
  induction q with
  | nil => simp
  | cons y q ih =>
    obtain ⟨hy, hq⟩ := pairwise_cons.mp h
    by_cases hlt : key x < key y
    · rw [insertBy_cons_of_lt hlt]
      by_cases hk : key x = k
      · -- all that follow have greater keys
        have hnone : (y :: q).filter (fun y => key y = k) = [] := by
          refine filter_eq_nil_iff.mpr fun z hz => ?_
          have hz' : key y ≤ key z := by
            rcases mem_cons.mp hz with rfl | hz
            · exact le_rfl
            · exact hy z hz
          simp only [decide_eq_true_eq]
          omega
        rw [filter_cons, hnone]
        simp [hk]
      · simp [hk]
    · rw [insertBy_cons_of_ge hlt, filter_cons, filter_cons, ih hq]
      split <;> simp

theorem Stable.nil : Stable key [] [] := ⟨List.Pairwise.nil, fun _ => rfl⟩

section
variable {q b : List α} (h : Stable key q b)
include h

theorem Stable.mem : x ∈ q ↔ x ∈ b := by
  have hx : ∀ l : List α, x ∈ l ↔ x ∈ l.filter (fun y => key y = key x) := fun l => by simp
  rw [hx q, hx b, h.same]

theorem Stable.insert (x : α) : Stable key (insertBy key x q) (b ++ [x]) :=
  ⟨insertBy_sorted h.sorted, fun k => by rw [filter_insertBy h.sorted, h.same, filter_append]⟩

theorem Stable.filter (p : α → Bool) : Stable key (q.filter p) (b.filter p) :=
  ⟨h.sorted.filter p, fun k => by
    rw [filter_filter, filter_filter, filter_congr (fun x _ => Bool.and_comm _ _),
      ← filter_filter, h.same, filter_filter, filter_congr (fun x _ => Bool.and_comm _ _)]⟩

end

theorem Stable.head {q b : List α} (h : Stable key (x :: q) b) :
    ∃ l r, b = l ++ x :: r ∧ (∀ y ∈ l, key x < key y) ∧ (∀ y ∈ r, key x ≤ key y) ∧ Stable key q (l ++ r) := by
  have hfirst : b.filter (fun y => key y = key x) = x :: q.filter (fun y => key y = key x) := by
    rw [← h.same]
    simp
  obtain ⟨hx, hq⟩ := pairwise_cons.mp h.sorted
  have hle : ∀ y ∈ b, key x ≤ key y := fun y hy => by
    rcases mem_cons.mp (h.mem.mpr hy) with rfl | hy
    · exact le_rfl
    · exact hx y hy
  obtain ⟨l, r, rfl, hl, _, hr⟩ := filter_eq_cons_iff.mp hfirst
  refine ⟨l, r, rfl, fun y hy => ?_, fun y hy => hle y (by simp [hy]), hq, fun k => ?_⟩
  · have hne : ¬ key y = key x := by simpa using hl y hy
    have := hle y (by simp [hy])
    omega
  · by_cases hk : key x = k
    · subst hk
      have hnil : l.filter (fun y => key y = key x) = [] :=
        filter_eq_nil_iff.mpr fun y hy => by simpa using hl y hy
      rw [filter_append, hnil, nil_append, hr]
    · have hsame := h.same k
      simp only [filter_append, filter_cons, hk, decide_false, Bool.false_eq_true, if_false] at hsame ⊢
      exact hsame

end Stable

section Deltas
variable {α : Type} [DecidableEq α]

/-- `d` holds the differences of the times of the entries `q`, from the time `c` on. -/
def Deltas (d : α → Int) : Int → List (α × Int) → Prop
  | _, [] => True
  | c, p :: q => d p.1 = p.2 - c ∧ c ≤ p.2 ∧ Deltas d p.2 q

variable {d d' : α → Int} {c : Int} {q : List (α × Int)}

omit [DecidableEq α] in
theorem Deltas.congr (h : Deltas d c q) (hd : ∀ p ∈ q, d' p.1 = d p.1) : Deltas d' c q := by
  induction q generalizing c with
  | nil => trivial
  | cons p q ih =>
    exact ⟨(hd p (mem_cons_self ..)).trans h.1, h.2.1, ih h.2.2 fun x hx => hd x (mem_cons_of_mem _ hx)⟩

omit [DecidableEq α] in
theorem Deltas.le (h : Deltas d c q) : ∀ p ∈ q, c ≤ p.2 := by
  induction q generalizing c with
  | nil => exact fun p hp => by cases hp
  | cons p q ih =>
    intro x hx
    rcases mem_cons.mp hx with rfl | hx
    · exact h.2.1
    · exact h.2.1.trans (ih h.2.2 x hx)

theorem Deltas.shift {e : Int} {p : α × Int} (h : Deltas d c (p :: q)) (hnodup : ((p :: q).map Prod.fst).Nodup)
    (he : e ≤ p.2) : Deltas (Function.update d p.1 (p.2 - e)) e (p :: q) := by
  obtain ⟨hp, _⟩ := nodup_cons.mp hnodup
  refine ⟨Function.update_self .., he, h.2.2.congr fun x hx => Function.update_of_ne ?_ _ _⟩
  exact fun heq => hp (heq ▸ mem_map_of_mem hx)

end Deltas

/-! ## Times

The same for natural numbers, with the time of each entry beside the queue. -/

section Times
variable {α : Type}

/-- `d` holds the differences of the times of the entries, from the time `c` on. -/
def Times (d time : α → Nat) : Nat → List α → Prop
  | _, [] => True
  | c, x :: l => time x = c + d x ∧ Times d time (time x) l

variable {d d' time time' : α → Nat} {c e : Nat} {l pre post : List α} {x : α}

theorem Times.congr (h : Times d time c l) (hd : ∀ x ∈ l, d' x = d x) (ht : ∀ x ∈ l, time' x = time x) :
    Times d' time' c l := by
  induction l generalizing c with
  | nil => trivial
  | cons x l ih =>
    obtain ⟨hx, hl⟩ := h
    have hx' : time' x = time x := ht x (mem_cons_self ..)
    refine ⟨by rw [hx', hx, hd x (mem_cons_self ..)], hx' ▸ ?_⟩
    exact ih hl (fun y hy => hd y (mem_cons_of_mem _ hy)) fun y hy => ht y (mem_cons_of_mem _ hy)

theorem Times.le (h : Times d time c l) : ∀ x ∈ l, c ≤ time x := by
  induction l generalizing c with
  | nil => exact fun x hx => by cases hx
  | cons x l ih =>
    obtain ⟨hx, hl⟩ := h
    intro y hy
    rcases mem_cons.mp hy with rfl | hy
    · omega
    · have := ih hl y hy
      omega

theorem Times.le_sum (h : Times d time c l) : ∀ x ∈ l, time x ≤ c + (l.map d).sum := by
  induction l generalizing c with
  | nil => exact fun x hx => by cases hx
  | cons x l ih =>
    obtain ⟨hx, hl⟩ := h
    intro y hy
    rw [map_cons, sum_cons]
    rcases mem_cons.mp hy with rfl | hy
    · omega
    · have := ih hl y hy
      omega

theorem times_append : Times d time c (pre ++ post) ↔ Times d time c pre ∧ Times d time (c + (pre.map d).sum) post := by
  induction pre generalizing c with
  | nil => simp [Times]
  | cons x pre ih =>
    rw [cons_append, Times, Times, ih, map_cons, sum_cons, and_assoc, ← Nat.add_assoc]
    exact and_congr_right fun hx => by rw [hx]

theorem Times.time_eq (h : Times d time c (pre ++ x :: post)) : time x = c + (pre.map d).sum + d x :=
  (times_append.mp h).2.1

theorem Times.due (h : Times d time c l) : l.takeWhile (fun x => d x = 0) = l.filter (fun x => time x = c) ∧
    l.dropWhile (fun x => d x = 0) = l.filter (fun x => time x ≠ c) ∧ Times d time c (l.dropWhile fun x => d x = 0) := by
  induction l with
  | nil => exact ⟨rfl, rfl, trivial⟩
  | cons x l ih =>
    obtain ⟨hx, hl⟩ := h
    by_cases hzero : d x = 0
    · have htime : time x = c := by omega
      obtain ⟨htake, hdrop, htimes⟩ := ih (htime ▸ hl)
      rw [takeWhile_cons_of_pos (by simpa using hzero), dropWhile_cons_of_pos (by simpa using hzero),
        filter_cons_of_pos (by simpa using htime), filter_cons_of_neg (by simpa using htime)]
      exact ⟨congrArg (x :: ·) htake, hdrop, htimes⟩
    · have hlater : ∀ y ∈ x :: l, time y ≠ c := by
        intro y hy
        rcases mem_cons.mp hy with rfl | hy
        · omega
        · have := hl.le y hy
          omega
      rw [takeWhile_cons_of_neg (by simpa using hzero), dropWhile_cons_of_neg (by simpa using hzero)]
      refine ⟨?_, ?_, hx, hl⟩
      · exact (filter_eq_nil_iff.mpr fun y hy => by simpa using hlater y hy).symm
      · exact (List.filter_eq_self.mpr fun y hy => by simpa using hlater y hy).symm

theorem Times.shift (h : Times d time c (x :: l)) (hx : e + d' x = time x) (hd : ∀ y ∈ l, d' y = d y) :
    Times d' time e (x :: l) :=
  ⟨hx.symm, h.2.congr hd fun _ _ => rfl⟩

theorem Times.insert (h : Times d time c (pre ++ post)) (hx : time' x = c + (pre.map d).sum + d' x)
    (hpre : ∀ y ∈ pre, d' y = d y) (hhead : ∀ y ∈ post.head?, d' y + d' x = d y) (hpost : ∀ y ∈ post.tail, d' y = d y)
    (ht : ∀ y ∈ pre ++ post, time' y = time y) : Times d' time' c (pre ++ x :: post) := by
  obtain ⟨hl, hr⟩ := times_append.mp h
  have hsum : (pre.map d').sum = (pre.map d).sum := by rw [map_congr_left hpre]
  refine times_append.mpr ⟨hl.congr hpre fun y hy => ht y (mem_append_left _ hy), by rw [hsum, hx], ?_⟩
  cases post with
  | nil => trivial
  | cons y post =>
    have hy : d' y + d' x = d y := hhead y rfl
    have hty : time' y = time y := ht y (by simp)
    refine ⟨?_, hty ▸ hr.2.congr hpost fun z hz => ht z (by simp [hz])⟩
    have := hr.1
    omega

theorem Times.remove (h : Times d time c (pre ++ x :: post)) (hpre : ∀ y ∈ pre, d' y = d y)
    (hhead : ∀ y ∈ post.head?, d' y = d y + d x) (hpost : ∀ y ∈ post.tail, d' y = d y) : Times d' time c (pre ++ post) := by
  obtain ⟨hl, hx, hr⟩ := times_append.mp h
  have hsum : (pre.map d').sum = (pre.map d).sum := by rw [map_congr_left hpre]
  refine times_append.mpr ⟨hl.congr hpre fun _ _ => rfl, ?_⟩
  cases post with
  | nil => trivial
  | cons y post =>
    have hy : d' y = d y + d x := hhead y rfl
    refine ⟨?_, hr.2.congr hpost fun _ _ => rfl⟩
    have := hr.1
    omega

end Times

end RtosKernel.Lib.DeltaQueue
