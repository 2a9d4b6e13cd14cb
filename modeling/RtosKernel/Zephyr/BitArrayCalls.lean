import RtosKernel.Zephyr.BitArrayRegions

/-! # The calls on a region of a bit array, bit by bit

What each call should do is said without masks and bundles: a region that is empty or does
not lie in the array is refused, and otherwise its bits and no others are read and changed.
The check of a region adds its offset and its length in a `size_t` of `w` bits. -/
namespace RtosKernel.Zephyr.BitArrays

/-- A region that is not empty and lies in the array. -/
def Inside (ba : BitArray) (n offset : Nat) : Prop := 0 < n ∧ offset + n ≤ ba.numBits

/-- The bits of a region are all set, or all clear. -/
def AllBits (ba : BitArray) (n offset : Nat) (b : Bool) : Prop :=
  ∀ i, offset ≤ i → i < offset + n → ba.test i = b

structure WritesRegion (ba : BitArray) (n offset : Nat) (b : Bool) (out : Int × BitArray) : Prop where
  refused : ¬Inside ba n offset → out = (einval, ba)
  written : Inside ba n offset → out.1 = 0 ∧ Writes ba out.2 offset n b

/-- A call that turns a region over, if all its bits have the old value. -/
structure TurnsRegion (ba : BitArray) (n offset : Nat) (b : Bool) (ret : Int) (out : Int × BitArray) : Prop where
  refused : ¬Inside ba n offset → out = (einval, ba)
  kept : Inside ba n offset → ¬AllBits ba n offset (!b) → out = (ret, ba)
  written : Inside ba n offset → AllBits ba n offset (!b) → out.1 = 0 ∧ Writes ba out.2 offset n b

/-- The calls on a region, bit by bit. -/
structure RegionCalls (ba : BitArray) (w n offset : Nat) : Prop where
  isSet : sysBitarrayIsRegionSet ba w n offset = true ↔ Inside ba n offset ∧ AllBits ba n offset true
  isCleared : sysBitarrayIsRegionCleared ba w n offset = true ↔ Inside ba n offset ∧ AllBits ba n offset false
  setRegion : WritesRegion ba n offset true (sysBitarraySetRegion ba w n offset)
  clearRegion : WritesRegion ba n offset false (sysBitarrayClearRegion ba w n offset)
  free : TurnsRegion ba n offset false efault (sysBitarrayFree ba w n offset)
  testAndSet : ∀ b, TurnsRegion ba n offset b eexist (sysBitarrayTestAndSetRegion ba w n offset b)

/-- A length and an offset that fit one by one, but the last bit of the region is beyond all sizes. -/
def Wraps (ba : BitArray) (w n offset : Nat) : Prop :=
  0 < n ∧ n ≤ ba.numBits ∧ offset < ba.numBits ∧ 2 ^ w ≤ offset + n - 1

section
variable {ba : BitArray} {w n offset : Nat}

theorem outside_iff (hw : ba.numBits < 2 ^ w) (hwrap : ¬Wraps ba w n offset) :
    ba.outside w n offset = true ↔ ¬Inside ba n offset := by
  constructor
  · intro hout hin
    rw [not_outside hin.1 hin.2 hw] at hout
    cases hout
  · intro hout
    simp only [BitArray.outside, decide_eq_true_eq]
    by_contra hin
    simp only [not_or] at hin
    obtain ⟨hn, hle, hoff, hlast⟩ := hin
    have hend : offset + n - 1 < 2 ^ w := by
      by_contra hge
      exact hwrap ⟨by omega, by omega, by omega, by omega⟩
    rw [offEnd_eq (by omega) (by omega)] at hlast
    exact hout ⟨by omega, by omega⟩

theorem not_outside_of_wraps (hw : ba.numBits < 2 ^ w) (hwrap : Wraps ba w n offset) :
    ba.outside w n offset = false := by
  obtain ⟨hn, hle, hoff, hlast⟩ := hwrap
  have hend : offEnd w offset n = offset + n - 1 - 2 ^ w := by
    rw [offEnd, show offset + n + (2 ^ w - 1) = offset + n - 1 - 2 ^ w + 2 ^ w + 2 ^ w by omega, Nat.add_mod_right,
      Nat.add_mod_right, Nat.mod_eq_of_lt (by omega)]
  simp only [BitArray.outside, decide_eq_false_iff_not, not_or, hend]
  omega

section
variable (hw : ba.numBits < 2 ^ w) (hwrap : ¬Wraps ba w n offset) (b : Bool)
include hw hwrap b

theorem isRegionSetClear_iff :
    isRegionSetClear ba w n offset b = true ↔ Inside ba n offset ∧ AllBits ba n offset b := by
  unfold isRegionSetClear
  by_cases hin : Inside ba n offset
  · rw [if_neg fun hout => (outside_iff hw hwrap).mp hout hin, Option.isNone_iff_eq_none,
      matchRegion_eq_none hin.1 (by have := hin.2; omega)]
    exact ⟨fun h => ⟨hin, h⟩, And.right⟩
  · rw [if_pos ((outside_iff hw hwrap).mpr hin)]
    exact ⟨nofun, fun h => absurd h.1 hin⟩

theorem setClearRegion_writes :
    WritesRegion ba n offset b (setClearRegion ba w n offset b) where
  refused hin := if_pos ((outside_iff hw hwrap).mpr hin)
  written hin := by
    rw [setClearRegion, if_neg fun hout => (outside_iff hw hwrap).mp hout hin]
    exact ⟨rfl, setRegion_writes hin.1 hin.2 hw b⟩

theorem turnsRegion (ret : Int) :
    TurnsRegion ba n offset b ret
      (if ba.outside w n offset then (einval, ba)
      else
        match matchRegion ba w offset n (!b) with
        | none => (0, setRegion ba w offset n b)
        | some _ => (ret, ba)) where
  refused hin := if_pos ((outside_iff hw hwrap).mpr hin)
  kept hin hall := by
    rw [if_neg fun hout => (outside_iff hw hwrap).mp hout hin]
    cases hmatch : matchRegion ba w offset n (!b) with
    | none => exact absurd ((matchRegion_eq_none hin.1 (by have := hin.2; omega)).mp hmatch) hall
    | some mismatch => rfl
  written hin hall := by
    rw [if_neg fun hout => (outside_iff hw hwrap).mp hout hin,
      (matchRegion_eq_none hin.1 (by have := hin.2; omega)).mpr hall]
    exact ⟨rfl, setRegion_writes hin.1 hin.2 hw b⟩

end

/-- **The calls on a region are right bit by bit**, unless the sum of its offset and its length wraps. -/
theorem region_calls_iff (hw : ba.numBits < 2 ^ w) : RegionCalls ba w n offset ↔ ¬Wraps ba w n offset := by
  constructor
  · intro h hwrap
    have hset : sysBitarraySetRegion ba w n offset = (0, BitArrays.setRegion ba w offset n true) := by
      rw [sysBitarraySetRegion, setClearRegion, if_neg (by rw [not_outside_of_wraps hw hwrap]; decide)]
    have hout : ¬Inside ba n offset := by
      intro hin
      have hlast := hwrap.2.2.2
      have hend := hin.2
      omega
    have hret : (0 : Int) = einval := congrArg Prod.fst (hset.symm.trans (h.setRegion.refused hout))
    exact absurd hret (by decide)
  · intro hwrap
    exact {
      isSet := isRegionSetClear_iff hw hwrap true
      isCleared := isRegionSetClear_iff hw hwrap false
      setRegion := setClearRegion_writes hw hwrap true
      clearRegion := setClearRegion_writes hw hwrap false
      free := turnsRegion hw hwrap false efault
      testAndSet := fun b => turnsRegion hw hwrap b eexist }

end

/-- The calls on 70 bits over three bundles, some of which are set. -/
theorem region_calls_iff_seventy : RegionCalls mixed 32 70 20 ↔ ¬Wraps mixed 32 70 20 := region_calls_iff (by decide)

/-- All bits of an array of more than half of all sizes, from its last one on, are set without an error. -/
theorem set_region_wraps : ¬RegionCalls (.define (2 ^ 31 + 1)) 32 (2 ^ 31 + 1) (2 ^ 31) := by
  intro h
  have hrefused := h.setRegion.refused (by rintro ⟨-, hend⟩; exact absurd hend (by decide))
  exact absurd (congrArg Prod.fst hrefused) (by decide)

end RtosKernel.Zephyr.BitArrays
