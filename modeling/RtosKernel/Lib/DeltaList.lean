import RtosKernel.Lib.DeltaQueue
import RtosKernel.Lib.DoublyLinked

/-! # Delta lists in memory

A list of nodes that each store the difference from the node before it: where a node with
a given difference from the first one belongs is found by a walk along the pointers. -/
namespace RtosKernel.Lib.DeltaList
open Lib.DoublyLinked

variable {α : Type} {next prev : α → Option α} {d : α → Nat}

/-- From a node on, all that belong before a new one: what is left of its difference, the last node passed and
the one that is not. -/
def walk (next : α → Option α) (d : α → Nat) : Nat → Nat → α → Option (Nat × α × Option α)
  | fuel, delta, x =>
    match next x with
    | none => some (delta, x, none)
    | some y =>
      if d y ≤ delta then
        match fuel with
        | 0 => none
        | fuel + 1 => walk next d fuel (delta - d y) y
      else some (delta, x, some y)

theorem walk_eq : ∀ (post pre : List α) (x : α) (fuel delta : Nat),
    Linked next prev (pre ++ x :: post) → post.length ≤ fuel →
    ∃ mid rest last, post = mid ++ rest ∧ (x :: mid).getLast? = some last ∧ (mid.map d).sum ≤ delta ∧
      (∀ y ∈ rest.head?, delta - (mid.map d).sum < d y) ∧
      walk next d fuel delta x = some (delta - (mid.map d).sum, last, rest.head?) := by
  intro post
  induction post with
  | nil =>
    intro pre x fuel delta hl _
    have hnext : next x = none := hl.next pre x [] rfl
    refine ⟨[], [], x, rfl, rfl, Nat.zero_le _, nofun, ?_⟩
    rw [walk, hnext]
    rfl
  | cons y post ih =>
    intro pre x fuel delta hl hfuel
    have hnext : next x = some y := hl.next pre x (y :: post) rfl
    by_cases hle : d y ≤ delta
    · cases fuel with
      | zero => simp at hfuel
      | succ fuel =>
        obtain ⟨mid, rest, last, rfl, hlast, hmid, hrest, heq⟩ := ih (pre ++ [x]) y fuel (delta - d y)
          (by simpa using hl) (by simpa using hfuel)
        have hsum : ((y :: mid).map d).sum = d y + (mid.map d).sum := by simp
        have hdelta : delta - ((y :: mid).map d).sum = delta - d y - (mid.map d).sum := by omega
        refine ⟨y :: mid, rest, last, rfl, hlast, by omega, by rwa [hdelta], ?_⟩
        rw [walk, hnext, hdelta, ← heq]
        exact if_pos hle
    · refine ⟨[], y :: post, x, rfl, rfl, Nat.zero_le _, ?_, ?_⟩
      · simpa using hle
      · rw [walk, hnext]
        exact if_neg hle

end RtosKernel.Lib.DeltaList
