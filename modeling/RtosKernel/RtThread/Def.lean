import RtosKernel.Lib.Word

/-! # The common definitions of RT-Thread (`rtdef.h`)

The build modelled is a 32-bit one: `rt_size_t`, `rt_ubase_t` and pointers are
32-bit words. `RT_ALIGN_SIZE` is a power of two chosen by the board. -/
namespace RtosKernel.RtThread.Def
open Lib.Word

/-- `RT_ASSERT`, where a failed assertion is `none`. -/
def rtAssert (p : Prop) [Decidable p] : Option Unit := if p then some () else none

@[simp] theorem rtAssert_of {p : Prop} [Decidable p] (h : p) : rtAssert p = some () := if_pos h

theorem of_rtAssert {p : Prop} [Decidable p] {u : Unit} (h : rtAssert p = some u) : p := by
  unfold rtAssert at h
  split at h
  · assumption
  · cases h

/-- `RT_ALIGN`: `((size) + (align) - 1) & ~((align) - 1)`. -/
def rtAlign (size align : Nat) : Nat := add32 size (align - 1) &&& (2 ^ 32 - align)

/-- `RT_ALIGN_DOWN`: `(size) & ~((align) - 1)`. -/
def rtAlignDown (size align : Nat) : Nat := size &&& (2 ^ 32 - align)

variable {size k : Nat}

section
variable (hk : k ≤ 32)
include hk

theorem rtAlignDown_eq (h : size < 2 ^ 32) :
    rtAlignDown size (2 ^ k) = size - size % 2 ^ k := and_mask size k hk h

theorem rtAlign_eq : rtAlign size (2 ^ k) = add32 size (2 ^ k - 1) - add32 size (2 ^ k - 1) % 2 ^ k :=
  and_mask _ k hk (add32_lt _ _)

/-- Whatever the size, wrapped or not, the aligned size is a multiple of the
alignment. -/
theorem rtAlign_dvd : 2 ^ k ∣ rtAlign size (2 ^ k) := by
  rw [rtAlign_eq hk]; exact Nat.dvd_sub_mod _

theorem rtAlign_lt : rtAlign size (2 ^ k) < 2 ^ 32 := by
  rw [rtAlign_eq hk]; exact lt_of_le_of_lt (Nat.sub_le _ _) (add32_lt _ _)

/-- An alignment that does not wrap rounds up: the result is the least multiple
that is no smaller. -/
theorem rtAlign_bounds (h : size + (2 ^ k - 1) < 2 ^ 32) :
    size ≤ rtAlign size (2 ^ k) ∧ rtAlign size (2 ^ k) < size + 2 ^ k := by
  have hp : 0 < 2 ^ k := Nat.two_pow_pos k
  rw [rtAlign_eq hk, add32_of_lt h]
  omega

theorem rtAlign_wrap (hlt : size < 2 ^ 32)
    (h : 2 ^ 32 ≤ size + (2 ^ k - 1)) : rtAlign size (2 ^ k) = 0 := by
  have hp : 2 ^ k ≤ 2 ^ 32 := Nat.pow_le_pow_right (by decide) hk
  have hadd : add32 size (2 ^ k - 1) = size + (2 ^ k - 1) - 2 ^ 32 := by
    unfold add32
    omega
  rw [rtAlign_eq hk, hadd, Nat.mod_eq_of_lt (by omega), Nat.sub_self]

end

/-- The alignment a board is built with: `RT_ALIGN_SIZE` is `2 ^ alignBits`, at
least the size of a word. -/
structure Align where
  alignBits : Nat
  word_le : 2 ≤ alignBits
  le_word : alignBits ≤ 30

def align4 : Align := ⟨2, by decide, by decide⟩

def Align.alignSize (c : Align) : Nat := 2 ^ c.alignBits

section Align
variable (c : Align)

theorem Align.alignSize_le : c.alignSize ≤ 2 ^ 30 := Nat.pow_le_pow_right (by decide) c.le_word

theorem Align.four_dvd_alignSize : 4 ∣ c.alignSize := pow_dvd_pow 2 c.word_le

theorem Align.alignSize_pos : 0 < c.alignSize := Nat.two_pow_pos _

theorem Align.rtAlign_dvd (size : Nat) : c.alignSize ∣ rtAlign size c.alignSize :=
  Def.rtAlign_dvd (c.le_word.trans (by decide))

theorem Align.rtAlign_small (h : size ≤ 32) :
    size ≤ rtAlign size c.alignSize ∧ rtAlign size c.alignSize < size + c.alignSize := by
  have ha := c.alignSize_le
  refine rtAlign_bounds (c.le_word.trans (by decide)) ?_
  unfold Align.alignSize at ha
  omega

theorem Align.rtAlign_le {size n : Nat} (hn : c.alignSize ∣ n) (hlt : n < 2 ^ 32) (h : size ≤ n) :
    rtAlign size c.alignSize ≤ n := by
  have hk : c.alignBits ≤ 32 := c.le_word.trans (by decide)
  have hd : c.alignSize ∣ 2 ^ 32 - n := Nat.dvd_sub (pow_dvd_pow 2 hk) hn
  have hle := Nat.le_of_dvd (by omega) hd
  obtain ⟨_, hub⟩ := rtAlign_bounds hk (show size + (c.alignSize - 1) < 2 ^ 32 by omega)
  change rtAlign size c.alignSize < size + c.alignSize at hub
  by_contra hgt
  have := Nat.le_of_dvd (by omega) (Nat.dvd_sub (c.rtAlign_dvd size) hn)
  omega

theorem Align.rtAlign_cases (hlt : size < 2 ^ 32) :
    size ≤ rtAlign size c.alignSize ∨
      2 ^ 32 ≤ size + (c.alignSize - 1) ∧ rtAlign size c.alignSize = 0 := by
  have hk : c.alignBits ≤ 32 := c.le_word.trans (by decide)
  by_cases hwrap : size + (c.alignSize - 1) < 2 ^ 32
  · exact .inl (rtAlign_bounds hk hwrap).1
  · exact .inr ⟨Nat.le_of_not_lt hwrap, rtAlign_wrap hk hlt (Nat.le_of_not_lt hwrap)⟩

theorem Align.and_of_dvd {c : Align} {x : Nat} (h : c.alignSize ∣ x) : x &&& (c.alignSize - 1) = 0 := by
  rw [Align.alignSize, Nat.and_two_pow_sub_one_eq_mod]
  exact Nat.mod_eq_zero_of_dvd h

end Align

end RtosKernel.RtThread.Def
