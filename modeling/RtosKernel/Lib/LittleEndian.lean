import Mathlib.Tactic.Common
import Mathlib.Data.Nat.ModEq

/-! # Numbers as bytes, the lowest byte first -/
namespace RtosKernel.Lib.LittleEndian

/-- The `k` low bytes of a number. -/
def bytes : Nat → Nat → List UInt8
  | 0, _ => []
  | k + 1, v => UInt8.ofNat (v % 256) :: bytes k (v / 256)

def value : List UInt8 → Nat
  | [] => 0
  | b :: bs => b.toNat + 256 * value bs

@[simp] theorem length_bytes (k v : Nat) : (bytes k v).length = k := by
  induction k generalizing v with
  | zero => rfl
  | succ k ih => rw [bytes, List.length_cons, ih]

theorem value_bytes (k v : Nat) : value (bytes k v) = v % 256 ^ k := by
  induction k generalizing v with
  | zero => rw [bytes, value, Nat.pow_zero, Nat.mod_one]
  | succ k ih =>
    have hbyte : v % 256 % 2 ^ 8 = v % 256 := Nat.mod_mod v 256
    rw [bytes, value, ih, UInt8.toNat_ofNat', hbyte, Nat.pow_succ', Nat.mod_mul]

theorem value_bytes_of_lt {k v : Nat} (h : v < 256 ^ k) : value (bytes k v) = v := by
  rw [value_bytes, Nat.mod_eq_of_lt h]

end RtosKernel.Lib.LittleEndian
