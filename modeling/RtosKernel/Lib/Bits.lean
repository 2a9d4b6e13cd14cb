import Mathlib

/-! # One bit of a machine word

Schedulers keep a word with a bit for each list, set and cleared with
`x |= 1 << p` and `x &= ~(1 << p)`. -/
namespace RtosKernel.Lib.Bits

variable {w p q : Nat}

theorem getLsbD_set (x : BitVec w) (hq : q < w) :
    (x ||| (1#w <<< p)).getLsbD q = (x.getLsbD q || decide (q = p)) := by
  simp only [BitVec.getLsbD_or, BitVec.getLsbD_shiftLeft, BitVec.getLsbD_one, hq]
  by_cases h : q = p
  · subst h
    simp [Nat.zero_lt_of_lt hq]
  · simp [h]
    omega

theorem getLsbD_clear (x : BitVec w) (hq : q < w) :
    (x &&& ~~~(1#w <<< p)).getLsbD q = (x.getLsbD q && decide (q ≠ p)) := by
  by_cases h : q = p
  · subst h
    simp [Nat.zero_lt_of_lt hq]
  · simp [h]
    omega

/-- Bit `p` tells whether list `p` has an item. -/
def Recorded {T : Type} (x : BitVec w) (lists : Nat → List T) : Prop :=
  ∀ p < w, x.getLsbD p = true ↔ lists p ≠ []

section Recorded
variable {T : Type} {x : BitVec w} {lists lists' : Nat → List T}

theorem Recorded.set (h : Recorded x lists) (hp : lists' p ≠ []) (hl : ∀ q, q ≠ p → (lists' q ≠ [] ↔ lists q ≠ [])) :
    Recorded (x ||| (1#w <<< p)) lists' := by
  intro q hq
  rw [getLsbD_set x hq]
  by_cases hqp : q = p
  · subst hqp; simp [hp]
  · simp [hqp, h q hq, hl q hqp]

theorem Recorded.clear (h : Recorded x lists) (hp : lists' p = []) (hl : ∀ q, q ≠ p → (lists' q ≠ [] ↔ lists q ≠ [])) :
    Recorded (x &&& ~~~(1#w <<< p)) lists' := by
  intro q hq
  rw [getLsbD_clear x hq]
  by_cases hqp : q = p
  · subst hqp; simp [hp]
  · simp [hqp, h q hq, hl q hqp]

theorem Recorded.congr (h : Recorded x lists) (hl : ∀ q, lists' q ≠ [] ↔ lists q ≠ []) : Recorded x lists' :=
  fun q hq => (h q hq).trans (hl q).symm

theorem Recorded.ne_zero (h : Recorded x lists) {p : Nat} (hp : p < w) (hl : lists p ≠ []) : x ≠ 0#w := by
  intro hz
  have hbit := (h p hp).mpr hl
  rw [hz] at hbit
  simp at hbit

end Recorded

end RtosKernel.Lib.Bits
