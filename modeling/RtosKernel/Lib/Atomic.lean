import Mathlib

/-! # Threads that share state through atomic operations

A program works on shared state only through atomic operations; between two of them other
threads may do theirs. A ledger says what each thread holds. When an operation needs and
changes nothing but what its own thread holds, a program can be proved alone, with the
other threads left out, and every interleaving keeps what was proved. -/

namespace RtosKernel.Lib.Atomic
open Function Finset

/-- A program over the operations `Op`, where `o` returns an `R o`. -/
inductive Prog (Op : Type) (R : Op → Type) (α : Type) where
  | ret (a : α)
  | op (o : Op) (next : R o → Prog Op R α)

variable {Op S H T I : Type} {R : Op → Type} {α β : Type}

def Prog.bind : Prog Op R α → (α → Prog Op R β) → Prog Op R β
  | .ret a, f => f a
  | .op o next, f => .op o fun r => (next r).bind f

def Prog.call (o : Op) : Prog Op R (R o) := .op o .ret

instance : Monad (Prog Op R) where
  pure := .ret
  bind := Prog.bind

/-- What operations do to the shared state and to the ledger of the thread. -/
structure Semantics (S H : Type) (Op : Type) (R : Op → Type) where
  exec : (o : Op) → S → R o × S
  /-- What the thread holds afterwards. -/
  ledger : (o : Op) → R o → H → H
  /-- The thread holds what the operation needs. -/
  can : Op → H → Prop
  /-- The results that are then possible. -/
  may : (o : Op) → R o → H → Prop

variable (d : Semantics S H Op R)

/-- A program that needs no more than it holds and ends with `post` of its result and of what it then holds. -/
def Meets (post : α → H → Prop) : Prog Op R α → H → Prop
  | .ret a, held => post a held
  | .op o next, held => d.can o held ∧ ∀ r, d.may o r held → Meets post (next r) (d.ledger o r held)

/-- Every operation that a thread can do keeps the invariant and has a possible result. -/
def Sound [DecidableEq T] (inv : S → (T → H) → Prop) : Prop :=
  ∀ s held t o, inv s held → d.can o (held t) →
    d.may o (d.exec o s).1 (held t) ∧
      inv (d.exec o s).2 (update held t (d.ledger o (d.exec o s).1 (held t)))

variable {d} {post : α → H → Prop} {post' : β → H → Prop} {p : Prog Op R α} {held : H}

theorem Meets.mono {post₂ : α → H → Prop} (h : Meets d post p held) (himp : ∀ a held, post a held → post₂ a held) :
    Meets d post₂ p held := by
  induction p generalizing held with
  | ret a => exact himp a held h
  | op o next ih => exact ⟨h.1, fun r hr => ih r (h.2 r hr)⟩

theorem Meets.bind {f : α → Prog Op R β} (h : Meets d post p held)
    (hf : ∀ a held, post a held → Meets d post' (f a) held) : Meets d post' (p.bind f) held := by
  induction p generalizing held with
  | ret a => exact hf a held h
  | op o next ih => exact ⟨h.1, fun r hr => ih r (h.2 r hr)⟩

section Threads
variable [DecidableEq T] {inv : S → (T → H) → Prop} {s : S} {holds : T → H} {t : T} {o : Op} {next : R o → Prog Op R α}

/-- **One operation of one thread.** The thread goes on as proved, and the others hold what they held. -/
theorem Sound.step (hd : Sound d inv) (hinv : inv s holds) (h : Meets d post (.op o next) (holds t)) :
    inv (d.exec o s).2 (update holds t (d.ledger o (d.exec o s).1 (holds t))) ∧
      Meets d post (next (d.exec o s).1) (d.ledger o (d.exec o s).1 (holds t)) := by
  obtain ⟨hcan, hnext⟩ := h
  obtain ⟨hmay, hinv'⟩ := hd s holds t o hinv hcan
  exact ⟨hinv', hnext _ hmay⟩

end Threads

/-! ## Threads that hold parts of a set -/

section Parts
variable [DecidableEq I] [DecidableEq T] {parts : T → Finset I} {t u : T} {taken given : Finset I} {i : I}

/-- No two threads hold the same thing. -/
def Apart (parts : T → Finset I) : Prop := ∀ t u, t ≠ u → Disjoint (parts t) (parts u)

theorem Apart.take (h : Apart parts) (hfree : ∀ i ∈ taken, ∀ u, i ∉ parts u) :
    Apart (update parts t (parts t ∪ taken)) := by
  have hnew (u : T) : Disjoint taken (parts u) := disjoint_left.mpr fun i hi => hfree i hi u
  intro u v huv
  by_cases hu : u = t
  · subst hu
    rw [update_self, update_of_ne (Ne.symm huv)]
    exact disjoint_union_left.mpr ⟨h u v huv, hnew v⟩
  · rw [update_of_ne hu]
    by_cases hv : v = t
    · subst hv
      rw [update_self]
      exact disjoint_union_right.mpr ⟨h u v huv, (hnew u).symm⟩
    · rw [update_of_ne hv]
      exact h u v huv

theorem Apart.give (h : Apart parts) : Apart (update parts t (parts t \ given)) := by
  intro u v huv
  by_cases hu : u = t
  · subst hu
    rw [update_self, update_of_ne (Ne.symm huv)]
    exact (h u v huv).mono_left sdiff_subset
  · rw [update_of_ne hu]
    by_cases hv : v = t
    · subst hv
      rw [update_self]
      exact (h u v huv).mono_right sdiff_subset
    · rw [update_of_ne hv]
      exact h u v huv

theorem exists_mem_take : (∃ u, i ∈ update parts t (parts t ∪ taken) u) ↔ i ∈ taken ∨ ∃ u, i ∈ parts u := by
  constructor
  · rintro ⟨u, hu⟩
    by_cases hut : u = t
    · subst hut
      rw [update_self, mem_union] at hu
      exact hu.symm.imp id fun hu => ⟨u, hu⟩
    · rw [update_of_ne hut] at hu
      exact .inr ⟨u, hu⟩
  · rintro (hi | ⟨u, hu⟩)
    · exact ⟨t, by rw [update_self]; exact mem_union_right _ hi⟩
    · refine ⟨u, ?_⟩
      by_cases hut : u = t
      · subst hut
        rw [update_self]
        exact mem_union_left _ hu
      · rw [update_of_ne hut]
        exact hu

theorem Apart.exists_mem_give (h : Apart parts) (hgiven : given ⊆ parts t) :
    (∃ u, i ∈ update parts t (parts t \ given) u) ↔ i ∉ given ∧ ∃ u, i ∈ parts u := by
  constructor
  · rintro ⟨u, hu⟩
    by_cases hut : u = t
    · subst hut
      rw [update_self, mem_sdiff] at hu
      exact ⟨hu.2, u, hu.1⟩
    · rw [update_of_ne hut] at hu
      exact ⟨fun hi => disjoint_left.mp (h u t hut) hu (hgiven hi), u, hu⟩
  · rintro ⟨hi, u, hu⟩
    refine ⟨u, ?_⟩
    by_cases hut : u = t
    · subst hut
      rw [update_self]
      exact mem_sdiff.mpr ⟨hu, hi⟩
    · rw [update_of_ne hut]
      exact hu

omit [DecidableEq I] in
theorem Apart.existsUnique (h : Apart parts) : (∃! u, i ∈ parts u) ↔ ∃ u, i ∈ parts u := by
  refine ⟨fun hu => hu.exists, fun ⟨u, hu⟩ => ⟨u, hu, fun v hv => ?_⟩⟩
  by_contra hvu
  exact disjoint_left.mp (h v u hvu) hv hu

end Parts

end RtosKernel.Lib.Atomic
