import Mathlib

/-! # Singly linked lists in a memory of next pointers

A memory is a function `next` from nodes to optional nodes. `Seg next p l q` says that following pointers from
`p` meets exactly the nodes `l` and then `q`; a chain ends in the null pointer. -/
namespace RtosKernel.Lib.LinkedList
open Function
open List (cons_append cons_ne_nil getLast_cons getLast_mem mem_cons_of_mem nodup_cons)

variable {α : Type}

/-- The nodes met from `p` on are `l`, and the pointer behind them is `q`. -/
def Seg (next : α → Option α) : Option α → List α → Option α → Prop
  | p, [], q => p = q
  | p, x :: xs, q => p = some x ∧ Seg next (next x) xs q

/-- A list that ends in the null pointer. -/
def Chain (next : α → Option α) (p : Option α) (l : List α) : Prop := Seg next p l none

variable {next next' : α → Option α} {p q : Option α}

@[simp] theorem seg_nil : Seg next p [] q ↔ p = q := Iff.rfl

@[simp] theorem seg_cons {x : α} {xs : List α} :
    Seg next p (x :: xs) q ↔ p = some x ∧ Seg next (next x) xs q := Iff.rfl

@[simp] theorem chain_nil : Chain next p [] ↔ p = none :=
  Iff.rfl

@[simp] theorem chain_cons {x : α} {xs : List α} :
    Chain next p (x :: xs) ↔ p = some x ∧ Chain next (next x) xs := Iff.rfl

theorem Seg.frame : ∀ {l : List α} {p : Option α},
    Seg next p l q → (∀ x ∈ l, next' x = next x) → Seg next' p l q
  | [], _, h, _ => h
  | x :: xs, _, ⟨hp, hs⟩, hf => by
    refine ⟨hp, ?_⟩
    rw [hf x (by simp)]
    exact hs.frame fun y hy => hf y (by simp [hy])

theorem Chain.frame {l : List α}
    (h : Chain next p l) (hf : ∀ x ∈ l, next' x = next x) : Chain next' p l :=
  Seg.frame h hf

theorem Chain.det : ∀ {l l' : List α} {p : Option α},
    Chain next p l → Chain next p l' → l = l'
  | [], [], _, _, _ => rfl
  | [], _ :: _, _, h, h' => by rw [chain_nil] at h; rw [chain_cons, h] at h'; simp at h'
  | _ :: _, [], _, h, h' => by rw [chain_nil] at h'; rw [chain_cons, h'] at h; simp at h
  | x :: xs, y :: ys, _, h, h' => by
    rw [chain_cons] at h h'
    have hxy : x = y := Option.some.inj (h.1.symm.trans h'.1)
    subst hxy
    rw [h.2.det h'.2]

theorem Chain.next_prev {n : α} {r : List α} : ∀ {l : List α} {a : α},
    Chain next (next a) (l ++ n :: r) → next ((a :: l).getLast (by simp)) = some n
  | [], _, h => h.1
  | x :: xs, _, h => by
    rw [getLast_cons (cons_ne_nil x xs)]
    exact Chain.next_prev (l := xs) h.2

variable [DecidableEq α]

theorem Chain.update {p v : Option α} {a : α} {l : List α}
    (h : Chain next p l) (ha : a ∉ l) : Chain (Function.update next a v) p l :=
  h.frame fun x hx => update_of_ne (show x ≠ a from fun e => ha (e ▸ hx)) _ _

theorem Chain.prepend {a n : α} {l : List α}
    (h : Chain next (next a) l) (hn : n ∉ a :: l) (ha : a ∉ l) :
    let next' := Function.update (Function.update next n (next a)) a (some n)
    Chain next' (next' a) (n :: l) := by
  intro next'
  have hna : n ≠ a := fun e => hn (by simp [e])
  refine ⟨by simp [next'], ?_⟩
  have hnext : next' n = next a := by simp [next', update_of_ne hna]
  rw [hnext]
  exact (h.update fun hm => hn (mem_cons_of_mem _ hm)).update ha

theorem Chain.snoc {n : α} : ∀ {l : List α} {a : α},
    Chain next (next a) l → (a :: l).Nodup → n ∉ a :: l →
    let next' := Function.update (Function.update next ((a :: l).getLast (by simp)) (some n)) n none
    Chain next' (next' a) (l ++ [n])
  | [], a, _, _, hn => by
    have hna : a ≠ n := fun e => hn (by simp [e])
    simp [update_of_ne hna]
  | x :: xs, a, h, hnd, hn => by
    intro next'
    have hna : a ≠ n := fun e => hn (by simp [e])
    have hlast : a ≠ (a :: x :: xs).getLast (by simp) := by
      rw [getLast_cons (by simp)]
      exact fun e => (nodup_cons.mp hnd).1 (e ▸ getLast_mem _)
    have hx : next' a = some x := by
      simp only [next', update_of_ne hna, update_of_ne hlast]
      exact h.1
    rw [cons_append, chain_cons]
    refine ⟨hx, ?_⟩
    have ih := Chain.snoc (n := n) (l := xs) (a := x) h.2
      (nodup_cons.mp hnd).2 (fun hm => hn (mem_cons_of_mem _ hm))
    simpa only [next', getLast_cons (cons_ne_nil x xs)] using ih

theorem Chain.append_null {n x : α} {l : List α}
    (h : Chain next p (x :: l)) (hnd : (x :: l).Nodup) (hn : n ∉ x :: l) (hnull : next n = none) :
    Chain (Function.update next ((x :: l).getLast (by simp)) (some n)) p (x :: l ++ [n]) := by
  have hlast : n ≠ (x :: l).getLast (by simp) := fun e => hn (e ▸ getLast_mem _)
  have hsame : Function.update (Function.update next ((x :: l).getLast (by simp)) (some n)) n none =
      Function.update next ((x :: l).getLast (by simp)) (some n) := by
    rw [update_eq_self_iff, update_of_ne hlast, hnull]
  have hsnoc := Chain.snoc h.2 hnd hn
  rw [hsame] at hsnoc
  exact ⟨h.1, hsnoc⟩

theorem Chain.append {last : α} {l r : List α} (h : Chain next p l)
    (hr : Chain next q r) (hlast : l.getLast? = some last) (hnd : l.Nodup) (hdisj : ∀ x ∈ l, x ∉ r) :
    Chain (Function.update next last q) p (l ++ r) := by
  induction l generalizing p with
  | nil => cases hlast
  | cons x xs ih =>
    refine ⟨h.1, ?_⟩
    cases xs with
    | nil =>
      obtain rfl : x = last := Option.some.inj hlast
      rw [update_self]
      exact hr.update (hdisj x (List.mem_cons_self ..))
    | cons y ys =>
      obtain ⟨hx, hys⟩ := nodup_cons.mp hnd
      have hlast' : (y :: ys).getLast? = some last := List.getLast?_cons_cons ▸ hlast
      have hne : x ≠ last := fun heq => hx (heq ▸ List.mem_of_getLast? hlast')
      rw [update_of_ne hne]
      exact ih h.2 hlast' hys fun z hz => hdisj z (mem_cons_of_mem _ hz)

theorem Chain.unlink {n : α} {r : List α} : ∀ {l : List α} {a : α},
    Chain next (next a) (l ++ n :: r) → (a :: (l ++ n :: r)).Nodup →
    let next' := Function.update next ((a :: l).getLast (by simp)) (next n)
    Chain next' (next' a) (l ++ r)
  | [], a, h, hnd => by
    intro next'
    have hr : a ∉ r := fun hm => (nodup_cons.mp hnd).1 (by simp [hm])
    have ha : next' a = next n := by simp [next']
    rw [ha]
    exact Chain.update h.2 hr
  | x :: xs, a, h, hnd => by
    intro next'
    have hlast : a ≠ (a :: x :: xs).getLast (by simp) := by
      rw [getLast_cons (by simp)]
      exact fun e => (nodup_cons.mp hnd).1 (e ▸ List.mem_append_left _ (getLast_mem _))
    have hx : next' a = some x := by
      simp only [next', update_of_ne hlast]
      exact h.1
    rw [cons_append, chain_cons]
    refine ⟨hx, ?_⟩
    have ih := Chain.unlink (n := n) (r := r) (l := xs) (a := x) h.2
      (nodup_cons.mp hnd).2
    simpa only [next', getLast_cons (cons_ne_nil x xs)] using ih

/-- Walk from `a` to the node before `n`, or to the last node if `n` is not met.
A walk that uses up its fuel has not ended. -/
def seekPrev (next : α → Option α) (n : α) : Nat → α → Option α
  | 0, _ => none
  | fuel + 1, a =>
    match next a with
    | none => some a
    | some x => if x = n then some a else seekPrev next n fuel x

theorem seekPrev_eq {n : α} {r : List α} : ∀ {l : List α} {a : α} {fuel : Nat},
    Chain next (next a) (l ++ n :: r) → n ∉ l → l.length < fuel →
    seekPrev next n fuel a = some ((a :: l).getLast (by simp))
  | [], a, fuel + 1, h, _, _ => by
    simp [seekPrev, h.1]
  | x :: xs, a, fuel + 1, h, hn, hl => by
    have hxn : x ≠ n := fun e => hn (by simp [e])
    simp only [seekPrev, h.1, if_neg hxn]
    rw [seekPrev_eq h.2 (fun hm => hn (mem_cons_of_mem _ hm))
      (by simp only [List.length_cons] at hl; omega)]
    rw [getLast_cons (cons_ne_nil x xs)]

end RtosKernel.Lib.LinkedList
