import Mathlib.Order.Bounds.Basic
import Mathlib.Order.Nat
import RtosKernel.Zephyr.BitArrayCalls

/-! # First fit in a bit array

`sys_bitarray_alloc` goes from one position to the next, each just after a bit that was
reported as a mismatch. The first and the last bundle of a region report a bit that is set,
and then no region over it is free. A bundle in between reports its lowest clear bit: the
region that starts there is passed over. -/
namespace RtosKernel.Zephyr.BitArrays

/-- A region that `sys_bitarray_alloc` may take. -/
def FreeRegion (ba : BitArray) (n offset : Nat) : Prop := Inside ba n offset ∧ AllBits ba n offset false

/-- The positions that the loop of `sys_bitarray_alloc` comes to. -/
inductive Reaches (ba : BitArray) (w n : Nat) : Nat → Prop
  | start : Reaches ba w n (firstFree ba 0 0 ba.numBundles)
  | next {p m : Nat} : Reaches ba w n p → p ≤ ba.numBits - n → matchRegion ba w p n false = some m →
      Reaches ba w n ((m + 1) % 2 ^ 32)

/-- `sys_bitarray_alloc` takes the lowest free region, or nothing if there is none, and its assertion holds. -/
structure FirstFit (ba : BitArray) (w n : Nat) : Prop where
  found : ∀ R, IsLeast {R | FreeRegion ba n R} R →
    (sysBitarrayAlloc ba w n).1 = (0, R) ∧ Writes ba (sysBitarrayAlloc ba w n).2 R n true
  missing : (∀ R, ¬FreeRegion ba n R) → sysBitarrayAlloc ba w n = ((enospc, 0), ba)
  asserted : ∀ p, Reaches ba w n p → p ≤ ba.numBits - n → ∀ x idx, mismatchBundle ba w p n false = some (x, idx) → x ≠ 0

/-- Wherever the search meets a bundle in between that has a bit set, the bundle has a clear bit too, and no free
region starts at the lowest one. -/
def SearchSafe (ba : BitArray) (w n : Nat) : Prop :=
  ∀ p, Reaches ba w n p → p ≤ ba.numBits - n → ∀ idx, StopsBetween ba p n false idx →
    ∃ j < 32, ba.test (32 * idx + j) = false ∧ (∀ i < j, ba.test (32 * idx + i) = true) ∧ ¬FreeRegion ba n (32 * idx + j)

section
variable {ba : BitArray} {w n p m idx bitIdx R : Nat}

/-! ## The start of the search -/

theorem test_of_view_false {j : Nat} (hj : j < 32) {b : Bool} (h : (ba.view false idx).getLsbD j = b) :
    ba.test (32 * idx + j) = !b := by
  cases b with
  | true => exact (getLsbD_view hj false).mp h
  | false =>
    have hne : ba.test (32 * idx + j) ≠ false := by
      intro htest
      rw [(getLsbD_view hj false).mpr htest] at h
      cases h
    exact Bool.eq_true_of_not_eq_false hne

theorem firstFree_full {k : Nat} (hle : bitIdx ≤ 32 * idx) (hfull : ∀ i < 32 * idx, ba.test i = true) :
    ∀ i < firstFree ba idx bitIdx k, ba.test i = true := by
  induction k generalizing idx bitIdx with
  | zero => exact fun i hi => hfull i (lt_of_lt_of_le hi hle)
  | succ k ih =>
    simp only [firstFree, bundleBitness]
    by_cases hz : ~~~ba.bundles idx = 0
    · rw [if_pos hz]
      have hbundle : ∀ j < 32, ba.test (32 * idx + j) = true :=
        (view_not_eq_zero true).mp (by simpa [BitArray.view] using hz)
      refine ih (le_trans (Nat.mod_le _ _) (by omega)) fun i hi => ?_
      by_cases hold : i < 32 * idx
      · exact hfull i hold
      · have hbit := hbundle (i - 32 * idx) (by omega)
        rwa [Nat.add_sub_cancel' (by omega)] at hbit
    · rw [if_neg hz]
      split
      · obtain ⟨j, hj, hbit, hbelow⟩ := findLsbSet_of_ne_zero hz
        have hj32 := BitVec.lt_of_getLsbD hbit
        intro i hi
        by_cases hold : i < 32 * idx
        · exact hfull i hold
        · have hfree := hbelow (i - 32 * idx) (by omega)
          have hset : ba.test (32 * idx + (i - 32 * idx)) = true := test_of_view_false (by omega) hfree
          rwa [Nat.add_sub_cancel' (by omega)] at hset
      · exact fun i hi => hfull i (lt_of_lt_of_le hi hle)

/-! ## One round of the search -/

theorem mismatchBundle_of_stops (hn : 0 < n) (hend : p + n ≤ 2 ^ w) (h : StopsBetween ba p n false idx) :
    mismatchBundle ba w p n false = some (ba.view false idx, idx) := by
  obtain ⟨hlo, hhi⟩ := h.inner
  obtain ⟨j, hj, hfails⟩ := h.fails
  cases hbundle : mismatchBundle ba w p n false with
  | none =>
    have hall := (matchRegion_eq_none hn hend).mp (by rw [matchRegion, hbundle]; rfl)
    rw [hall (32 * idx + j) (by omega) (by omega)] at hfails
    cases hfails
  | some m =>
    obtain ⟨x, i⟩ := m
    rcases mismatchBundle_cases hn hend hbundle with ⟨mask, hcov, hi, hne, -⟩ | ⟨hstop, rfl⟩
    · refine absurd ((hcov.matches_iff false).mpr fun k hk hklo hkhi => ?_) hne
      rcases hi with rfl | rfl
      · exact h.before _ hklo (by omega)
      · exact h.last _ (by omega) hkhi
    · obtain ⟨hlo', hhi'⟩ := hstop.inner
      obtain ⟨j', hj', hfails'⟩ := hstop.fails
      rcases Nat.lt_trichotomy i idx with hlt | rfl | hgt
      · rw [h.before (32 * i + j') (by omega) (by omega)] at hfails'
        cases hfails'
      · rfl
      · rw [hstop.before (32 * idx + j) (by omega) (by omega)] at hfails
        cases hfails

theorem StopsBetween.mismatchBit (h : StopsBetween ba p n false idx) (hsize : p + n < 2 ^ 32)
    (hne : ba.view false idx ≠ 0) :
    ∃ j < 32, mismatchBit (ba.view false idx) idx = 32 * idx + j ∧ ba.test (32 * idx + j) = false ∧
      ∀ i < j, ba.test (32 * idx + i) = true := by
  obtain ⟨hlo, hhi⟩ := h.inner
  obtain ⟨j, hj, hbit, hbelow⟩ := findLsbSet_of_ne_zero hne
  have hj32 := BitVec.lt_of_getLsbD hbit
  refine ⟨j, hj32, ?_, test_of_view_false hj32 hbit, fun i hi => ?_⟩
  · rw [BitArrays.mismatchBit, hj, bundleBitness]
    omega
  · exact test_of_view_false (by omega) (hbelow i hi)

theorem not_freeRegion {i : Nat} (hset : ba.test i = true) (hlo : R ≤ i) (hhi : i < R + n) : ¬FreeRegion ba n R := by
  intro hfree
  rw [hfree.2 i hlo hhi] at hset
  cases hset

/-- **One round passes over no free region**, if the search is safe. -/
theorem round_passes_none (hn : 0 < n) (hle : n ≤ ba.numBits) (hw : ba.numBits < 2 ^ w) (hsize : ba.numBits < 2 ^ 32)
    (hsafe : SearchSafe ba w n) (hreach : Reaches ba w n p) (hp : p ≤ ba.numBits - n)
    (hmatch : matchRegion ba w p n false = some m) (hbelow : ∀ R < p, ¬FreeRegion ba n R) :
    ∀ R ≤ m, ¬FreeRegion ba n R := by
  intro R hR
  obtain ⟨⟨x, idx⟩, hbundle, rfl⟩ := Option.map_eq_some_iff.mp hmatch
  rcases mismatchBundle_cases hn (by omega) hbundle with ⟨mask, hcov, -, hne, rfl⟩ | ⟨hstop, rfl⟩
  · obtain ⟨hlo, hhi, hset⟩ := hcov.mismatch (by omega) hne rfl
    by_cases hlt : R < p
    · exact hbelow R hlt
    · exact not_freeRegion hset hR (by omega)
  · obtain ⟨j, hj, hclear, hset, hnot⟩ := hsafe p hreach hp idx hstop
    obtain ⟨hlo, hhi⟩ := hstop.inner
    have hne : ba.view false idx ≠ 0 := by
      intro hz
      have hfull := test_of_view_false hj (show (ba.view false idx).getLsbD j = false by rw [hz]; simp)
      rw [hclear] at hfull
      cases hfull
    obtain ⟨j', hj', hm, hclear', hset'⟩ := hstop.mismatchBit (by omega) hne
    rw [hm] at hR
    obtain rfl : j' = j := by
      rcases Nat.lt_trichotomy j' j with hlt | heq | hgt
      · exact absurd ((hset j' hlt).symm.trans hclear') (by decide)
      · exact heq
      · exact absurd ((hset' j hgt).symm.trans hclear) (by decide)
    by_cases hlt : R < p
    · exact hbelow R hlt
    · rcases Nat.eq_or_lt_of_le hR with rfl | hRlt
      · exact hnot
      · -- the bundle lies in the region as a whole, and one of its bits is set
        obtain ⟨k, hk, hfails⟩ := hstop.fails
        by_cases hstart : R ≤ 32 * idx + k
        · exact not_freeRegion hfails hstart (by omega)
        · exact not_freeRegion (hset (R - 32 * idx) (by omega)) (by omega : R ≤ 32 * idx + (R - 32 * idx)) (by omega)

/-- **No free region starts before a position of the search**, if it is safe. -/
theorem Reaches.passes_none (hn : 0 < n) (hle : n ≤ ba.numBits) (hw : ba.numBits < 2 ^ w) (hsize : ba.numBits < 2 ^ 32)
    (hsafe : SearchSafe ba w n) (hreach : Reaches ba w n p) : ∀ R < p, ¬FreeRegion ba n R := by
  induction hreach with
  | start =>
    intro R hR
    exact not_freeRegion (firstFree_full (by omega) (fun i hi => by omega) R hR) le_rfl (by omega)
  | next hreach hp hmatch ih =>
    intro R hR
    exact round_passes_none hn hle hw hsize hsafe hreach hp hmatch ih R (by omega)

/-! ## The whole search -/

abbrev search (ba : BitArray) (w n p : Nat) : Option Nat := allocFrom ba w n (ba.numBits - n) (ba.numBits + 1) p

theorem search_hit (hp : p ≤ ba.numBits - n) (h : matchRegion ba w p n false = none) : search ba w n p = some p := by
  rw [search, allocFrom, if_pos hp, h]

theorem search_past (hp : ba.numBits - n < p) : search ba w n p = none := by
  rw [search, allocFrom, if_neg (by omega)]

section
variable (hn : 0 < n) (hle : n ≤ ba.numBits) (hw : ba.numBits < 2 ^ w) (hsize : ba.numBits < 2 ^ 32)
include hn hle hw hsize

theorem search_next
    (hp : p ≤ ba.numBits - n) (h : matchRegion ba w p n false = some m) :
    search ba w n p = search ba w n ((m + 1) % 2 ^ 32) := by
  obtain ⟨hlo, hhi⟩ := matchRegion_mismatch hn (by omega) (by omega) h
  rw [search, allocFrom, if_pos hp, h]
  exact allocFrom_rounds hn (by omega) (by omega) (by omega) (by omega)

theorem Reaches.search_eq
    (hreach : Reaches ba w n p) : search ba w n (firstFree ba 0 0 ba.numBundles) = search ba w n p := by
  induction hreach with
  | start => rfl
  | next hreach hp hmatch ih => rw [ih, search_next hn hle hw hsize hp hmatch]

theorem Reaches.search_ends
    (hreach : Reaches ba w n p) :
    (∃ q, p ≤ q ∧ Reaches ba w n q ∧ search ba w n p = some q ∧ FreeRegion ba n q) ∨
      ∃ q, Reaches ba w n q ∧ search ba w n p = none ∧ ba.numBits - n < q := by
  induction hk : ba.numBits + 1 - p using Nat.strong_induction_on generalizing p with
  | h k ih =>
  by_cases hp : p ≤ ba.numBits - n
  · cases hmatch : matchRegion ba w p n false with
    | none =>
      exact .inl ⟨p, le_rfl, hreach, search_hit hp hmatch, ⟨hn, by omega⟩, (matchRegion_eq_none hn (by omega)).mp hmatch⟩
    | some m =>
      obtain ⟨hlo, hhi⟩ := matchRegion_mismatch hn (by omega) (by omega) hmatch
      rw [search_next hn hle hw hsize hp hmatch]
      rcases ih _ (by omega) (.next hreach hp hmatch) rfl with ⟨q, hq, hend⟩ | hend
      · exact .inl ⟨q, by omega, hend⟩
      · exact .inr hend
  · exact .inr ⟨p, hreach, search_past (by omega), by omega⟩

end

theorem sysBitarrayAlloc_eq (hn : 0 < n) (hle : n ≤ ba.numBits) : sysBitarrayAlloc ba w n =
    match search ba w n (firstFree ba 0 0 ba.numBundles) with
    | some bitIdx => ((0, bitIdx), setRegion ba w bitIdx n true)
    | none => ((enospc, 0), ba) :=
  if_neg (by omega)

/-- **`sys_bitarray_alloc` is a first fit** just when its search is safe. -/
theorem first_fit_iff (hn : 0 < n) (hle : n ≤ ba.numBits) (hw : ba.numBits < 2 ^ w) (hsize : ba.numBits < 2 ^ 32) :
    FirstFit ba w n ↔ SearchSafe ba w n := by
  constructor
  · intro h p hreach hp idx hstop
    have hbundle : mismatchBundle ba w p n false = some (ba.view false idx, idx) :=
      mismatchBundle_of_stops hn (by omega) hstop
    obtain ⟨j, hj, hm, hclear, hset⟩ := hstop.mismatchBit (by omega) (h.asserted p hreach hp _ _ hbundle)
    refine ⟨j, hj, hclear, hset, fun hfree => ?_⟩
    -- the search goes on behind this region, but the lowest one is not there
    have hleast : IsLeast {R | FreeRegion ba n R} (sInf {R | FreeRegion ba n R}) :=
      ⟨Nat.sInf_mem ⟨_, hfree⟩, fun R hR => Nat.sInf_le hR⟩
    have hmatch : matchRegion ba w p n false = some (32 * idx + j) := by
      rw [matchRegion, hbundle, Option.map_some, hm]
    have hnext : Reaches ba w n ((32 * idx + j + 1) % 2 ^ 32) := .next hreach hp hmatch
    have halloc := (h.found _ hleast).1
    rw [sysBitarrayAlloc_eq hn hle, hnext.search_eq hn hle hw hsize] at halloc
    have hinside := hfree.1.2
    rcases hnext.search_ends hn hle hw hsize with ⟨q, hq, -, hsearch, -⟩ | ⟨q, -, hsearch, -⟩
    · rw [hsearch] at halloc
      have hqeq : q = sInf {R | FreeRegion ba n R} := congrArg Prod.snd halloc
      have hlow := Nat.sInf_le (s := {R | FreeRegion ba n R}) hfree
      omega
    · rw [hsearch] at halloc
      exact absurd (congrArg Prod.fst halloc) (by decide : enospc ≠ 0)
  · intro hsafe
    have hends := (@Reaches.start ba w n).search_ends hn hle hw hsize
    refine ⟨fun R hR => ?_, fun hnone => ?_, fun p hreach hp x idx hbundle => ?_⟩
    · rcases hends with ⟨q, -, hq, hsearch, hfree⟩ | ⟨q, hq, -, hpast⟩
      · obtain rfl : q = R := by
          refine le_antisymm (not_lt.mp fun hlt => ?_) (hR.2 hfree)
          exact hq.passes_none hn hle hw hsize hsafe R hlt hR.1
        rw [sysBitarrayAlloc_eq hn hle, hsearch]
        exact ⟨rfl, setRegion_writes hn hfree.1.2 hw true⟩
      · have hend := hR.1.1.2
        exact absurd hR.1 (hq.passes_none hn hle hw hsize hsafe R (by omega))
    · rcases hends with ⟨q, -, -, -, hfree⟩ | ⟨q, -, hsearch, -⟩
      · exact absurd hfree (hnone q)
      · rw [sysBitarrayAlloc_eq hn hle, hsearch]
    · rcases mismatchBundle_cases hn (by omega) hbundle with ⟨mask, -, -, hne, rfl⟩ | ⟨hstop, rfl⟩
      · exact mismatch_ne_zero hne
      · intro hz
        obtain ⟨j, hj, hclear, -⟩ := hsafe p hreach hp idx hstop
        have hfull := test_of_view_false hj (show (ba.view false idx).getLsbD j = false by rw [hz]; simp)
        rw [hclear] at hfull
        cases hfull

end

theorem first_fit_iff_seventy : FirstFit mixed 32 70 ↔ SearchSafe mixed 32 70 :=
  first_fit_iff (by decide) (by decide) (by decide) (by decide)

/-- An array of 103 bits, all clear but bit 32. -/
def bitAfterBundle : BitArray := { BitArray.define 103 with bundles := fun i => if i = 1 then 1#32 else 0#32 }

/-- The 70 bits behind the one that is set are passed over. -/
theorem alloc_misses_region : ¬FirstFit bitAfterBundle 32 70 := by
  intro h
  have hfree : FreeRegion bitAfterBundle 70 33 := by
    refine ⟨⟨by decide, by decide⟩, fun i hlo hhi => ?_⟩
    have hall : ∀ i < 70, bitAfterBundle.test (33 + i) = false := by decide
    have hbit := hall (i - 33) (by omega)
    rwa [Nat.add_sub_cancel' hlo] at hbit
  have hleast : IsLeast {R | FreeRegion bitAfterBundle 70 R} 33 := by
    refine ⟨hfree, fun R hR => ?_⟩
    by_contra hlt
    exact not_freeRegion (i := 32) (by decide) (by omega) (by omega) hR
  have hnospc : sysBitarrayAlloc bitAfterBundle 32 70 = ((enospc, 0), bitAfterBundle) := rfl
  have hfound := (h.found 33 hleast).1
  exact absurd (congrArg Prod.fst hfound) (by decide)

end RtosKernel.Zephyr.BitArrays
