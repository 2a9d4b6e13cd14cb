import Mathlib

/-! # Words as sets of bits

Tasks wait for bits of a word: for any of a set of bits, or for all of them. Both
conditions are read off the word bit by bit, and more bits never undo them. -/
namespace RtosKernel.Lib.BitSet

variable {w : Nat} {x y z : BitVec w}

theorem and_eq_iff : y &&& x = x ↔ ∀ i, x.getLsbD i = true → y.getLsbD i = true := by
  constructor
  · intro h i hi
    rw [← h] at hi
    simp only [BitVec.getLsbD_and, Bool.and_eq_true] at hi
    exact hi.1
  · intro h
    refine BitVec.eq_of_getLsbD_eq fun i _ => ?_
    rw [BitVec.getLsbD_and]
    cases hx : x.getLsbD i with
    | false => simp
    | true => simp [h i hx]

theorem eq_zero_iff : x = 0#w ↔ ∀ i, x.getLsbD i = false := by
  constructor
  · rintro rfl i
    simp
  · exact fun h => BitVec.eq_of_getLsbD_eq fun i _ => by simp [h i]

theorem and_ne_zero_iff : y &&& x ≠ 0#w ↔ ∃ i, x.getLsbD i = true ∧ y.getLsbD i = true := by
  rw [Ne, eq_zero_iff, not_forall]
  refine exists_congr fun i => ?_
  rw [BitVec.getLsbD_and]
  cases x.getLsbD i <;> cases y.getLsbD i <;> simp

theorem and_eq_zero_iff : y &&& x = 0#w ↔ ∀ i, x.getLsbD i = true → y.getLsbD i = false := by
  rw [eq_zero_iff]
  refine forall_congr' fun i => ?_
  rw [BitVec.getLsbD_and]
  cases x.getLsbD i <;> cases y.getLsbD i <;> simp

theorem getLsbD_andNot (x y : BitVec w) (i : Nat) : (x &&& ~~~y).getLsbD i = (x.getLsbD i && !y.getLsbD i) := by
  rw [BitVec.getLsbD_and, BitVec.getLsbD_not]
  by_cases hi : i < w
  · simp [hi]
  · simp [BitVec.getLsbD_of_ge x i (by omega)]

/-- Of all or some of the bits `x`, those waited for are in `y`. -/
def Met (all : Bool) (x y : BitVec w) : Prop := if all then y &&& x = x else y &&& x ≠ 0#w

instance (all : Bool) (x y : BitVec w) : Decidable (Met all x y) := by
  unfold Met
  infer_instance

theorem met_true : Met true x y ↔ ∀ i, x.getLsbD i = true → y.getLsbD i = true := by
  exact and_eq_iff

theorem met_false : Met false x y ↔ ∃ i, x.getLsbD i = true ∧ y.getLsbD i = true := by
  exact and_ne_zero_iff

theorem Met.mono {all : Bool} (h : Met all x y) (hz : ∀ i, x.getLsbD i = true → y.getLsbD i = true → z.getLsbD i = true) :
    Met all x z := by
  cases all with
  | true => exact met_true.mpr fun i hi => hz i hi (met_true.mp h i hi)
  | false =>
    obtain ⟨i, hi, hy⟩ := met_false.mp h
    exact met_false.mpr ⟨i, hi, hz i hi hy⟩

theorem Met.of_andNot {all : Bool} (h : Met all x (y &&& ~~~z)) : Met all x y := by
  refine h.mono fun i _ hi => ?_
  rw [getLsbD_andNot, Bool.and_eq_true] at hi
  exact hi.1

end RtosKernel.Lib.BitSet
