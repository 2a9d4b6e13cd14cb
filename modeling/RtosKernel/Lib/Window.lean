import Mathlib

/-! # Windows of a circular store

A circular store of `n` cells is a function on indices of which only those below `n` matter. A window is the
list of cells met when walking `len` steps from `start`, wrapping at `n`. -/
namespace RtosKernel.Lib.Window
open List

variable {β : Type}

/-- Copy `src` into `dst` at offset `off`. -/
def memcpy (dst : Nat → β) (off : Nat) (src : List β) : Nat → β := fun i =>
  if off ≤ i then (src[i - off]?).getD (dst i) else dst i

@[simp] theorem memcpy_nil (dst : Nat → β) (off : Nat) : memcpy dst off [] = dst := by
  funext i; simp [memcpy]

theorem memcpy_inside {dst : Nat → β} {off i : Nat} {src : List β}
    (ho : off ≤ i) (hi : i - off < src.length) : memcpy dst off src i = src[i - off] := by
  simp [memcpy, ho, List.getElem?_eq_getElem hi]

theorem memcpy_outside {dst : Nat → β} {off i : Nat} {src : List β}
    (h : i < off ∨ off + src.length ≤ i) : memcpy dst off src i = dst i := by
  unfold memcpy
  split
  · rw [List.getElem?_eq_none (by omega)]; rfl
  · rfl

theorem memcpy_singleton (dst : Nat → β) (off : Nat) (x : β) : memcpy dst off [x] = Function.update dst off x := by
  funext i
  by_cases hi : i = off
  · subst hi
    simp [memcpy]
  · rw [Function.update_of_ne hi, memcpy_outside]
    simp only [length_singleton]
    omega

/-- The `len` cells from `start` on, wrapping at `n`. -/
def window (buf : Nat → β) (n start len : Nat) : List β :=
  (range len).map fun i => buf ((start + i) % n)

section
variable (buf : Nat → β)
include buf

@[simp] theorem length_window (n start len : Nat) :
    (window buf n start len).length = len := by simp [window]

@[simp] theorem window_zero (n start : Nat) : window buf n start 0 = [] := rfl

@[simp] theorem getElem_window (n start len i : Nat)
    (h : i < (window buf n start len).length) :
    (window buf n start len)[i] = buf ((start + i) % n) := by simp [window]

theorem window_mod (n start len : Nat) : window buf n (start % n) len = window buf n start len := by
  simp [window]

theorem window_add (n start a b : Nat) :
    window buf n start (a + b) = window buf n start a ++ window buf n (start + a) b := by
  simp [window, range_add, Function.comp_def, Nat.add_assoc]

theorem window_take (n start len k : Nat) : (window buf n start len).take k = window buf n start (min k len) := by
  simp [window, ← map_take, take_range]

end

variable {buf : Nat → β}

theorem window_drop {n start len k : Nat} (h : k ≤ len) :
    (window buf n start len).drop k = window buf n (start + k) (len - k) := by
  conv_lhs => rw [show len = k + (len - k) by omega, window_add]
  rw [drop_left' (length_window ..)]

theorem drop_min_length (l : List β) (k : Nat) : l.drop (min k l.length) = l.drop k := by
  rcases Nat.le_total k l.length with h | h
  · rw [Nat.min_eq_left h]
  · rw [Nat.min_eq_right h, drop_length, drop_of_length_le h]

theorem window_congr {buf buf' : Nat → β} {n start len : Nat}
    (h : ∀ i < len, buf' ((start + i) % n) = buf ((start + i) % n)) :
    window buf' n start len = window buf n start len := by
  apply map_congr_left
  intro i hi
  exact h i (mem_range.mp hi)

theorem window_linear {n start len : Nat} (h : start + len ≤ n) :
    window buf n start len = (range len).map fun i => buf (start + i) := by
  apply map_congr_left
  intro i hi
  rw [Nat.mod_eq_of_lt (by have := mem_range.mp hi; omega)]

theorem mod_of_lt_two {x n : Nat} (h : x < 2 * n) : x % n = if x < n then x else x - n := by
  split
  · rename_i hx; exact Nat.mod_eq_of_lt hx
  · rename_i hx
    rw [Nat.mod_eq_sub_mod (by omega)]
    exact Nat.mod_eq_of_lt (by omega)

theorem next_cell {i n : Nat} (hi : i < n) : (if i + 1 ≥ n then 0 else i + 1) = (i + 1) % n := by
  rw [mod_of_lt_two (by omega)]
  split <;> split <;> omega

/-- Write `data` from cell `pos` on, wrapping at `n`. -/
def store (buf : Nat → β) (n pos : Nat) (data : List β) : Nat → β :=
  memcpy (memcpy buf pos (data.take (n - pos))) 0 (data.drop (n - pos))

theorem store_of_le {n pos : Nat} {data : List β} (h : data.length ≤ n - pos) :
    store buf n pos data = memcpy buf pos data := by
  rw [store, take_of_length_le h, drop_of_length_le h, memcpy_nil]

theorem store_inside {n pos k : Nat} {data : List β} (hp : pos < n) (hd : data.length ≤ n) (hk : k < data.length) :
    store buf n pos data ((pos + k) % n) = data[k] := by
  rw [mod_of_lt_two (by omega)]
  split
  · rename_i hlt
    rw [store, memcpy_outside (by simp; omega), memcpy_inside (by omega) (by simp; omega)]
    simp
  · rename_i hge
    rw [store, memcpy_inside (by omega) (by simp; omega)]
    simp only [getElem_drop]
    congr 1
    omega

theorem store_outside {n pos i : Nat} {data : List β} (hp : pos < n) (hi : i < n)
    (h : (i < pos ∧ pos + data.length ≤ n + i) ∨ pos + data.length ≤ i) : store buf n pos data i = buf i := by
  rw [store, memcpy_outside (by simp; omega), memcpy_outside (by simp; omega)]

theorem window_store {n pos : Nat} {data : List β} (hp : pos < n)
    (hd : data.length ≤ n) : window (store buf n pos data) n pos data.length = data := by
  apply ext_getElem (by simp)
  intro i hi hi'
  rw [getElem_window, store_inside hp hd hi']

/-- **Appending.** Storing at the end of a window, without running into its
start, extends it by the stored data. -/
theorem window_append {n start len : Nat} {data : List β} (hs : start < n) (hlen : len + data.length ≤ n) :
    window (store buf n ((start + len) % n) data) n start (len + data.length) =
      window buf n start len ++ data := by
  have hn : 0 < n := by omega
  have hp : (start + len) % n < n := Nat.mod_lt _ hn
  rw [window_add]
  congr 1
  · apply window_congr
    intro i hi
    have hp2 := mod_of_lt_two (x := start + len) (n := n) (by omega)
    have hi2 := mod_of_lt_two (x := start + i) (n := n) (by omega)
    apply store_outside hp (Nat.mod_lt _ hn)
    rw [hp2, hi2]
    split <;> split <;> omega
  · rw [← window_mod]
    exact window_store hp (by omega)

/-- **Prepending.** Storing in the cell before a window that is not full puts the data in front. -/
theorem window_prepend {n pos len : Nat} {x : β} (hp : pos < n) (hlen : len < n) :
    window (memcpy buf pos [x]) n pos (len + 1) = x :: window buf n ((pos + 1) % n) len := by
  rw [Nat.add_comm, window_add, window_mod]
  have hhead : window (memcpy buf pos [x]) n pos 1 = [x] := by
    simp [window, memcpy, Nat.mod_eq_of_lt hp]
  rw [hhead, singleton_append]
  congr 1
  apply window_congr
  intro i hi
  apply memcpy_outside
  rw [mod_of_lt_two (show pos + 1 + i < 2 * n by omega)]
  simp only [length_singleton]
  split <;> omega

end RtosKernel.Lib.Window
