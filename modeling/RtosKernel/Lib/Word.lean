import Mathlib

/-! # Unsigned machine words as natural numbers

Values of a `w`-bit unsigned type are natural numbers below `2 ^ w`, and the operations of the type reduce
modulo `2 ^ w`. -/
namespace RtosKernel.Lib.Word

def add32 (a b : Nat) : Nat := (a + b) % 2 ^ 32

def sub32 (a b : Nat) : Nat := (a + (2 ^ 32 - b % 2 ^ 32)) % 2 ^ 32

theorem add32_lt (a b : Nat) : add32 a b < 2 ^ 32 := Nat.mod_lt _ (by decide)

theorem sub32_lt (a b : Nat) : sub32 a b < 2 ^ 32 := Nat.mod_lt _ (by decide)

theorem add32_of_lt {a b : Nat} (h : a + b < 2 ^ 32) : add32 a b = a + b := Nat.mod_eq_of_lt h

theorem add32_add {a b c : Nat} (h : a + b + c < 2 ^ 32) : add32 (add32 a b) c = a + b + c := by
  rw [add32_of_lt (show a + b < 2 ^ 32 by omega), add32_of_lt h]

theorem sub32_of_le {a b : Nat} (hb : b ≤ a) (ha : a < 2 ^ 32) : sub32 a b = a - b := by
  unfold sub32; omega

/-! ## Any width -/

section Width
variable {w a b k : Nat}

/-- `w`-bit unsigned addition. -/
def addw (w a b : Nat) : Nat := (a + b) % 2 ^ w

/-- `w`-bit unsigned subtraction. -/
def subw (w a b : Nat) : Nat := (a + (2 ^ w - b % 2 ^ w)) % 2 ^ w

theorem addw_lt (w a b : Nat) : addw w a b < 2 ^ w := Nat.mod_lt _ (Nat.two_pow_pos w)

theorem addw_of_lt (h : a + b < 2 ^ w) : addw w a b = a + b := Nat.mod_eq_of_lt h

theorem subw_of_le (hb : b ≤ a) (ha : a < 2 ^ w) : subw w a b = a - b := by
  have hadd : a + (2 ^ w - b) = a - b + 2 ^ w := by omega
  rw [subw, Nat.mod_eq_of_lt (show b < 2 ^ w by omega), hadd, Nat.add_mod_right]
  exact Nat.mod_eq_of_lt (by omega)

theorem addw_of_ge (h : 2 ^ w ≤ a + b) (ha : a < 2 ^ w) (hb : b < 2 ^ w) : addw w a b = a + b - 2 ^ w := by
  rw [addw, Nat.mod_eq_sub_mod h, Nat.mod_eq_of_lt (by omega)]

theorem subw_of_lt (hab : a < b) (hb : b < 2 ^ w) : subw w a b = a + 2 ^ w - b := by
  rw [subw, Nat.mod_eq_of_lt hb, Nat.mod_eq_of_lt (by omega)]
  omega

/-- Clearing the low `k` bits of a word by a mask rounds down to a multiple of
`2 ^ k`. -/
theorem and_maskw (x : Nat) (hk : k ≤ w) (hx : x < 2 ^ w) : x &&& (2 ^ w - 2 ^ k) = x - x % 2 ^ k := by
  have hm : 2 ^ w - 2 ^ k = 2 ^ k * (2 ^ (w - k) - 1) := by
    rw [Nat.mul_sub, ← pow_add, Nat.add_sub_cancel' hk, Nat.mul_one]
  have hq : x - x % 2 ^ k = 2 ^ k * (x / 2 ^ k) := by
    have := Nat.div_add_mod x (2 ^ k); omega
  rw [hm, hq]
  apply Nat.eq_of_testBit_eq
  intro i
  simp only [Nat.testBit_and, Nat.testBit_two_pow_mul, Nat.testBit_two_pow_sub_one, Nat.testBit_div_two_pow]
  by_cases hki : k ≤ i
  · by_cases hi : i < w
    · simp [hki, show i - k < w - k by omega]
    · have : x.testBit i = false := Nat.testBit_lt_two_pow
        (lt_of_lt_of_le hx (Nat.pow_le_pow_right (by decide) (by omega)))
      simp [hki, this]
  · simp [hki]

theorem or_top (h : a < 2 ^ k) : a ||| 2 ^ k = a + 2 ^ k := by
  have := Nat.two_pow_add_eq_or_of_lt h 1
  rw [Nat.mul_one] at this
  rw [Nat.or_comm, ← this, Nat.add_comm]

theorem and_top_eq_zero (h : a < 2 ^ (k + 1)) : a &&& 2 ^ k = 0 ↔ a < 2 ^ k := by
  rw [Nat.and_two_pow]
  constructor
  · intro h0
    by_contra hlt
    have hbit : a.testBit k = true := by
      rw [Nat.testBit_eq_decide_div_mod_eq]
      have hdiv : a / 2 ^ k = 1 := Nat.div_eq_of_lt_le (by omega) (by omega)
      simp [hdiv]
    rw [hbit] at h0
    simp at h0
  · intro hlt
    rw [Nat.testBit_lt_two_pow hlt]
    simp

theorem and_not_top (h : a < 2 ^ k) : (a + 2 ^ k) &&& (2 ^ (k + 1) - 1 - 2 ^ k) = a := by
  have hmask : 2 ^ (k + 1) - 1 - 2 ^ k = 2 ^ k - 1 := by omega
  rw [hmask, Nat.and_two_pow_sub_one_eq_mod, Nat.add_mod_right, Nat.mod_eq_of_lt h]

end Width

theorem and_mask (x k : Nat) (hk : k ≤ 32) (hx : x < 2 ^ 32) :
    x &&& (2 ^ 32 - 2 ^ k) = x - x % 2 ^ k := and_maskw x hk hx

end RtosKernel.Lib.Word
