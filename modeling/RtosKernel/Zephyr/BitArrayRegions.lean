import RtosKernel.Zephyr.BitArray

/-! # Bit arrays, bit by bit

Each call is described by the single bits: which it needs, which it changes, and that the
masks and the steps from bundle to bundle reach exactly the bits of the region. -/
namespace RtosKernel.Zephyr.BitArrays
open Lib.BitSet

def BitArray.test (ba : BitArray) (i : Nat) : Bool := (ba.bundles (i / 32)).getLsbD (i % 32)

variable {ba : BitArray} {w offset n i j idx : Nat} {mask : BitVec 32} {b : Bool}

/-! ## Masks -/

theorem getLsbD_bit (hn : n < 32) : (bit n).getLsbD i = decide (i = n) := by
  rw [bit, BitVec.getLsbD_shiftLeft, BitVec.getLsbD_one]
  by_cases h : i = n
  · subst h
    simp [hn]
  · simp [h]
    omega

theorem getLsbD_bit_pred (hn : n < 32) : (bit n - 1).getLsbD i = decide (i < n) := by
  have hlt : 2 ^ n < 2 ^ 32 := Nat.pow_lt_pow_right (by decide) hn
  have hpos := Nat.two_pow_pos n
  have hbit : (bit n).toNat = 2 ^ n := by
    rw [bit, BitVec.toNat_shiftLeft, BitVec.toNat_ofNat, Nat.one_mod_two_pow (by decide), Nat.one_shiftLeft,
      Nat.mod_eq_of_lt hlt]
  have hpred : (bit n - 1).toNat = 2 ^ n - 1 := by
    simp
    omega
  rw [BitVec.getLsbD, hpred, Nat.testBit_two_pow_sub_one]

theorem offEnd_eq (hn : 0 < n) (hend : offset + n ≤ 2 ^ w) : offEnd w offset n = offset + n - 1 := by
  rw [offEnd, show offset + n + (2 ^ w - 1) = (offset + n - 1) + 2 ^ w by omega, Nat.add_mod_right,
    Nat.mod_eq_of_lt (by omega)]

/-- A mask has the bits of a region that lie in a bundle. -/
def Covers (offset n idx : Nat) (mask : BitVec 32) : Prop :=
  ∀ j < 32, mask.getLsbD j = decide (offset ≤ 32 * idx + j ∧ 32 * idx + j < offset + n)

theorem covers_smask (hn : 0 < n) (hend : offset + n ≤ 2 ^ w) :
    Covers offset n (setupBundleData w offset n).sidx (setupBundleData w offset n).smask := by
  intro j hj
  simp only [setupBundleData, bundleBitness, offEnd_eq hn hend]
  have hs : offset % 32 < 32 := Nat.mod_lt _ (by decide)
  have he : (offset + n - 1) % 32 < 32 := Nat.mod_lt _ (by decide)
  by_cases hsame : offset / 32 = (offset + n - 1) / 32
  · rw [if_pos hsame]
    simp only [BitVec.getLsbD_and, BitVec.getLsbD_not, BitVec.getLsbD_or, getLsbD_bit_pred hs, getLsbD_bit_pred he,
      getLsbD_bit he, hj, decide_true, Bool.true_and]
    rw [← Bool.decide_or, ← decide_not, ← Bool.decide_and]
    exact decide_eq_decide.mpr (by omega)
  · rw [if_neg hsame]
    simp only [BitVec.getLsbD_not, getLsbD_bit_pred hs, hj, decide_true, Bool.true_and]
    rw [← decide_not]
    exact decide_eq_decide.mpr (by omega)

theorem covers_emask (hn : 0 < n) (hend : offset + n ≤ 2 ^ w)
    (hne : (setupBundleData w offset n).sidx ≠ (setupBundleData w offset n).eidx) :
    Covers offset n (setupBundleData w offset n).eidx (setupBundleData w offset n).emask := by
  intro j hj
  simp only [setupBundleData, bundleBitness, offEnd_eq hn hend] at hne ⊢
  have he : (offset + n - 1) % 32 < 32 := Nat.mod_lt _ (by decide)
  simp only [BitVec.getLsbD_or, getLsbD_bit_pred he, getLsbD_bit he]
  rw [← Bool.decide_or]
  exact decide_eq_decide.mpr (by omega)

variable {x : BitVec 32}

theorem Covers.and_eq_iff (h : Covers offset n idx mask) :
    x &&& mask = mask ↔ ∀ j < 32, offset ≤ 32 * idx + j → 32 * idx + j < offset + n → x.getLsbD j = true := by
  rw [Lib.BitSet.and_eq_iff]
  constructor
  · intro hx j hj hlo hhi
    exact hx j (by rw [h j hj]; exact decide_eq_true ⟨hlo, hhi⟩)
  · intro hx j hj
    have hj32 : j < 32 := BitVec.lt_of_getLsbD hj
    rw [h j hj32] at hj
    obtain ⟨hlo, hhi⟩ := of_decide_eq_true hj
    exact hx j hj32 hlo hhi

theorem getLsbD_view (hj : j < 32) (matchSet : Bool) :
    (ba.view matchSet idx).getLsbD j = true ↔ ba.test (32 * idx + j) = matchSet := by
  have hdiv : (32 * idx + j) / 32 = idx := by omega
  have hmod : (32 * idx + j) % 32 = j := by omega
  rw [BitArray.test, hdiv, hmod, BitArray.view]
  cases matchSet with
  | true => rw [if_pos rfl]
  | false =>
    simp [hj]

/-! ## Testing a region -/

/-- The bits of a region that lie in a bundle are all as wanted. -/
def BundleMatches (ba : BitArray) (offset n : Nat) (matchSet : Bool) (idx : Nat) : Prop :=
  ∀ j < 32, offset ≤ 32 * idx + j → 32 * idx + j < offset + n → ba.test (32 * idx + j) = matchSet

theorem Covers.matches_iff (h : Covers offset n idx mask) (matchSet : Bool) :
    ba.view matchSet idx &&& mask = mask ↔ BundleMatches ba offset n matchSet idx := by
  rw [h.and_eq_iff]
  refine forall_congr' fun j => forall_congr' fun hj => forall_congr' fun _ => forall_congr' fun _ => ?_
  exact getLsbD_view hj matchSet

theorem view_not (matchSet : Bool) : ba.view (!matchSet) idx = ~~~ba.view matchSet idx := by
  cases matchSet <;> simp [BitArray.view]

theorem view_not_eq_zero (matchSet : Bool) :
    ba.view (!matchSet) idx = 0 ↔ ∀ j < 32, ba.test (32 * idx + j) = matchSet := by
  rw [view_not, show (0 : BitVec 32) = 0#32 from rfl, eq_zero_iff]
  constructor
  · intro h j hj
    have hbit := h j
    rw [← getLsbD_view hj]
    simpa [hj] using hbit
  · intro h j
    by_cases hj : j < 32
    · simp [hj, (getLsbD_view hj matchSet).mpr (h j hj)]
    · simp [hj]

variable {matchSet : Bool}

theorem matchBetween_eq_none {k : Nat} :
    matchBetween ba matchSet idx k = none ↔ ∀ i, idx ≤ i → i < idx + k → ∀ j < 32, ba.test (32 * i + j) = matchSet := by
  induction k generalizing idx with
  | zero =>
    refine ⟨fun _ i hlo hhi => ?_, fun _ => rfl⟩
    omega
  | succ k ih =>
    simp only [matchBetween]
    by_cases hz : ba.view (!matchSet) idx = 0
    · rw [if_neg (not_not.mpr hz), ih]
      refine ⟨fun h i hlo hhi => ?_, fun h i hlo hhi => h i (by omega) (by omega)⟩
      rcases Nat.eq_or_lt_of_le hlo with rfl | hlt
      · exact (view_not_eq_zero matchSet).mp hz
      · exact h i hlt (by omega)
    · rw [if_pos hz]
      refine ⟨nofun, fun h => absurd ((view_not_eq_zero matchSet).mpr (h idx le_rfl (by omega))) hz⟩

theorem bundle_bounds (hn : 0 < n) (hend : offset + n ≤ 2 ^ w) :
    (setupBundleData w offset n).sidx = offset / 32 ∧ (setupBundleData w offset n).eidx = (offset + n - 1) / 32 :=
  ⟨rfl, congrArg (· / 32) (offEnd_eq hn hend)⟩

/-- **A region matches** if all its bits are as wanted. -/
theorem matchRegion_eq_none (hn : 0 < n) (hend : offset + n ≤ 2 ^ w) :
    matchRegion ba w offset n matchSet = none ↔ ∀ i, offset ≤ i → i < offset + n → ba.test i = matchSet := by
  obtain ⟨hs, he⟩ := bundle_bounds hn hend
  have hsmask : ba.view matchSet (setupBundleData w offset n).sidx &&& (setupBundleData w offset n).smask =
        (setupBundleData w offset n).smask ↔ BundleMatches ba offset n matchSet (setupBundleData w offset n).sidx :=
    (covers_smask hn hend).matches_iff matchSet
  -- the region bundle by bundle
  have hbundles : (∀ i, offset ≤ i → i < offset + n → ba.test i = matchSet) ↔
      ∀ idx, (setupBundleData w offset n).sidx ≤ idx → idx ≤ (setupBundleData w offset n).eidx →
        BundleMatches ba offset n matchSet idx := by
    refine ⟨fun h idx _ _ j _ hlo hhi => h _ hlo hhi, fun h i hlo hhi => ?_⟩
    have hi := h (i / 32) (by omega) (by omega) (i % 32) (Nat.mod_lt _ (by decide)) (by omega) (by omega)
    rwa [Nat.div_add_mod] at hi
  rw [hbundles, matchRegion, Option.map_eq_none_iff]
  unfold mismatchBundle
  by_cases hstart : ba.view matchSet (setupBundleData w offset n).sidx &&& (setupBundleData w offset n).smask =
      (setupBundleData w offset n).smask
  · rw [if_neg (not_not.mpr hstart)]
    by_cases hsame : (setupBundleData w offset n).sidx = (setupBundleData w offset n).eidx
    · rw [if_pos hsame]
      refine ⟨fun _ idx hlo hhi => ?_, fun _ => rfl⟩
      obtain rfl : idx = (setupBundleData w offset n).sidx := by omega
      exact hsmask.mp hstart
    · rw [if_neg hsame]
      have hemask : ba.view matchSet (setupBundleData w offset n).eidx &&& (setupBundleData w offset n).emask =
            (setupBundleData w offset n).emask ↔ BundleMatches ba offset n matchSet (setupBundleData w offset n).eidx :=
        (covers_emask hn hend hsame).matches_iff matchSet
      by_cases hend : ba.view matchSet (setupBundleData w offset n).eidx &&& (setupBundleData w offset n).emask =
          (setupBundleData w offset n).emask
      · rw [if_neg (not_not.mpr hend), matchBetween_eq_none]
        constructor
        · intro h idx hlo hhi
          rcases Nat.eq_or_lt_of_le hlo with rfl | hlo
          · exact hsmask.mp hstart
          · rcases Nat.eq_or_lt_of_le hhi with rfl | hhi
            · exact hemask.mp hend
            · exact fun j hj _ _ => h idx hlo (by omega) j hj
        · intro h i hlo hhi j hj
          exact h i (by omega) (by omega) j hj (by omega) (by omega)
      · rw [if_pos hend]
        refine ⟨nofun, fun h => absurd (hemask.mpr (h _ ?_ le_rfl)) hend⟩
        omega
  · rw [if_pos hstart]
    refine ⟨nofun, fun h => absurd (hsmask.mpr (h _ le_rfl ?_)) hstart⟩
    omega

/-! ## Writing a region -/

theorem test_write (toSet : Bool) : (ba.write idx mask toSet).test i =
    if i / 32 = idx ∧ mask.getLsbD (i % 32) = true then toSet else ba.test i := by
  simp only [BitArray.test, BitArray.write, Function.update_apply]
  by_cases hidx : i / 32 = idx
  · rw [if_pos hidx, hidx]
    cases toSet with
    | true =>
      rw [if_pos rfl, BitVec.getLsbD_or]
      cases mask.getLsbD (i % 32) <;> simp
    | false =>
      rw [if_neg (by decide), getLsbD_andNot]
      cases mask.getLsbD (i % 32) <;> simp
  · rw [if_neg hidx, if_neg fun h => hidx h.1]

theorem Covers.test_write (h : Covers offset n idx mask) (toSet : Bool) : (ba.write idx mask toSet).test i =
    if i / 32 = idx ∧ offset ≤ i ∧ i < offset + n then toSet else ba.test i := by
  rw [BitArrays.test_write]
  by_cases hidx : i / 32 = idx
  · have hi : 32 * idx + i % 32 = i := by rw [← hidx, Nat.div_add_mod]
    rw [h _ (Nat.mod_lt _ (by decide)), hi]
    simp [hidx]
  · rw [if_neg fun h => hidx h.1, if_neg fun h => hidx h.1]

theorem test_setBetween (toSet : Bool) (k : Nat) : (setBetween toSet ba idx k).test i =
    if idx ≤ i / 32 ∧ i / 32 < idx + k then toSet else ba.test i := by
  have hi : i % 32 < 32 := Nat.mod_lt _ (by decide)
  induction k generalizing ba idx with
  | zero =>
    rw [setBetween, if_neg (by omega)]
  | succ k ih =>
    rw [setBetween, ih]
    by_cases hidx : i / 32 = idx
    · simp only [BitArray.test, hidx, Function.update_self]
      cases toSet with
      | true =>
        rw [if_pos rfl, BitVec.getLsbD_not]
        simp [hi]
      | false =>
        simp
    · have hother : BitArray.test { ba with
          bundles := Function.update ba.bundles idx (if toSet then ~~~0#32 else 0#32) } i = ba.test i := by
        simp only [BitArray.test, Function.update_of_ne hidx]
      rw [hother]
      refine if_congr ?_ rfl rfl
      omega

theorem size_setBetween (toSet : Bool) (k : Nat) : (setBetween toSet ba idx k).numBits = ba.numBits := by
  induction k generalizing ba idx with
  | zero => rfl
  | succ k ih => rw [setBetween, ih]

/-- **Writing a region** changes its bits and no others. -/
theorem test_setRegion (hn : 0 < n) (hend : offset + n ≤ 2 ^ w) (toSet : Bool) :
    (setRegion ba w offset n toSet).test i = if offset ≤ i ∧ i < offset + n then toSet else ba.test i := by
  obtain ⟨hs, he⟩ := bundle_bounds hn hend
  have hsmask : Covers offset n (setupBundleData w offset n).sidx (setupBundleData w offset n).smask :=
    covers_smask hn hend
  unfold setRegion
  by_cases hsame : (setupBundleData w offset n).sidx = (setupBundleData w offset n).eidx
  · rw [if_pos hsame, hsmask.test_write]
    refine if_congr ?_ rfl rfl
    omega
  · rw [if_neg hsame, test_setBetween, (covers_emask hn hend hsame).test_write, hsmask.test_write]
    split
    · rw [if_pos (by omega)]
    · split
      · rw [if_pos (by omega)]
      · refine if_congr ?_ rfl rfl
        omega

theorem size_setRegion (toSet : Bool) : (setRegion ba w offset n toSet).numBits = ba.numBits := by
  unfold setRegion
  dsimp only
  split
  · rfl
  · rw [size_setBetween]
    rfl

/-! ## The loop that looks for a region -/

theorem findLsbSet_of_ne_zero (hx : x ≠ 0) :
    ∃ j, findLsbSet x = j + 1 ∧ x.getLsbD j = true ∧ ∀ i < j, x.getLsbD i = false := by
  unfold findLsbSet
  split
  · rename_i j hj
    obtain ⟨hbit, -, hbelow⟩ := List.find?_range_eq_some.mp hj
    exact ⟨j, rfl, hbit, fun i hi => by simpa using hbelow i hi⟩
  · rename_i hnone
    refine absurd ((eq_zero_iff (x := x)).mpr fun j => ?_) hx
    by_cases hj : j < 32
    · simpa using List.find?_eq_none.mp hnone j (List.mem_range.mpr hj)
    · exact BitVec.getLsbD_of_ge x j (by omega)

theorem findLsbSet_le (x : BitVec 32) : findLsbSet x ≤ 32 := by
  unfold findLsbSet
  split
  · rename_i j hj
    exact List.mem_range.mp (List.mem_of_find?_eq_some hj)
  · exact Nat.zero_le _

theorem mismatch_ne_zero (hx : x &&& mask ≠ mask) : ~~~x &&& mask ≠ 0 := by
  intro hz
  refine hx ((Lib.BitSet.and_eq_iff).mpr fun j hj => ?_)
  have hbit := (eq_zero_iff.mp hz) j
  rw [BitVec.getLsbD_and, BitVec.getLsbD_not, hj] at hbit
  simpa [BitVec.lt_of_getLsbD hj] using hbit

theorem Covers.mismatch (h : Covers offset n idx mask) (hsize : offset + n < 2 ^ 32)
    (hx : ba.view matchSet idx &&& mask ≠ mask) {m : Nat} (hm : m = mismatchBit (~~~ba.view matchSet idx &&& mask) idx) :
    offset ≤ m ∧ m < offset + n ∧ ba.test m = !matchSet := by
  obtain ⟨j, hj, hbit, -⟩ := findLsbSet_of_ne_zero (mismatch_ne_zero hx)
  rw [BitVec.getLsbD_and, Bool.and_eq_true] at hbit
  have hj32 := BitVec.lt_of_getLsbD hbit.2
  obtain ⟨hlo, hhi⟩ := of_decide_eq_true ((h j hj32).symm.trans hbit.2)
  have hmod : m = 32 * idx + j := by
    rw [hm, mismatchBit, hj, bundleBitness]
    omega
  have hview : (ba.view (!matchSet) idx).getLsbD j = true := by
    rw [view_not]
    exact hbit.1
  rw [hmod]
  exact ⟨hlo, hhi, (getLsbD_view hj32 _).mp hview⟩

theorem matchBetween_mismatch {k : Nat} {i : Nat} (h : matchBetween ba matchSet idx k = some (x, i)) :
    idx ≤ i ∧ i < idx + k ∧ x = ba.view matchSet i ∧ ba.view (!matchSet) i ≠ 0 ∧
      ∀ i', idx ≤ i' → i' < i → ∀ j < 32, ba.test (32 * i' + j) = matchSet := by
  induction k generalizing idx with
  | zero => cases h
  | succ k ih =>
    simp only [matchBetween] at h
    split at h
    · rename_i hne
      cases h
      refine ⟨le_rfl, by omega, ?_, hne, fun i' hlo hhi => by omega⟩
      rw [view_not, BitVec.not_not]
    · rename_i hz
      obtain ⟨hlo, hhi, hx, hne, hbefore⟩ := ih h
      refine ⟨by omega, by omega, hx, hne, fun i' hlo' hhi' => ?_⟩
      rcases Nat.eq_or_lt_of_le hlo' with rfl | hlt
      · exact (view_not_eq_zero matchSet).mp (not_not.mp hz)
      · exact hbefore i' hlt hhi'

/-- The region from an offset on fails to match at an inner bundle: the outer ones match, and so do those before it. -/
structure StopsBetween (ba : BitArray) (offset n : Nat) (matchSet : Bool) (idx : Nat) : Prop where
  inner : offset / 32 < idx ∧ idx < (offset + n - 1) / 32
  before : ∀ i, offset ≤ i → i < 32 * idx → ba.test i = matchSet
  last : ∀ i, 32 * ((offset + n - 1) / 32) ≤ i → i < offset + n → ba.test i = matchSet
  fails : ∃ j < 32, ba.test (32 * idx + j) = !matchSet

theorem mismatchBundle_cases (hn : 0 < n) (hend : offset + n ≤ 2 ^ w)
    (h : mismatchBundle ba w offset n matchSet = some (x, idx)) :
    (∃ mask, Covers offset n idx mask ∧ (idx = offset / 32 ∨ idx = (offset + n - 1) / 32) ∧
        ba.view matchSet idx &&& mask ≠ mask ∧ x = ~~~ba.view matchSet idx &&& mask) ∨
      (StopsBetween ba offset n matchSet idx ∧ x = ba.view matchSet idx) := by
  obtain ⟨hs, he⟩ := bundle_bounds hn hend
  unfold mismatchBundle at h
  dsimp only at h
  split at h
  · rename_i hstart
    cases h
    exact .inl ⟨_, covers_smask hn hend, .inl hs, hstart, rfl⟩
  · rename_i hstart
    split at h
    · cases h
    rename_i hsame
    split at h
    · rename_i hlast
      cases h
      exact .inl ⟨_, covers_emask hn hend hsame, .inr he, hlast, rfl⟩
    · rename_i hlast
      obtain ⟨hlo, hhi, hx, hne, hbefore⟩ := matchBetween_mismatch h
      have hstart := ((covers_smask hn hend).matches_iff matchSet).mp (not_not.mp hstart)
      have hlast := ((covers_emask hn hend hsame).matches_iff matchSet).mp (not_not.mp hlast)
      rw [he] at hlast
      refine .inr ⟨⟨by omega, fun i hi hlt => ?_, fun i hi hlt => ?_, ?_⟩, hx⟩
      · by_cases hfirst : i / 32 = offset / 32
        · have hbit := hstart (i % 32) (Nat.mod_lt _ (by decide)) (by rw [hs]; omega) (by rw [hs]; omega)
          rw [hs, ← hfirst, Nat.div_add_mod] at hbit
          exact hbit
        · have hbit := hbefore (i / 32) (by omega) (by omega) (i % 32) (Nat.mod_lt _ (by decide))
          rwa [Nat.div_add_mod] at hbit
      · have hbit := hlast (i % 32) (Nat.mod_lt _ (by decide)) (by omega) (by omega)
        rwa [show 32 * ((offset + n - 1) / 32) + i % 32 = i by omega] at hbit
      · by_contra hall
        refine hne ((view_not_eq_zero matchSet).mpr fun j hj => ?_)
        by_contra hbit
        refine hall ⟨j, hj, ?_⟩
        cases hb : ba.test (32 * idx + j) <;> cases matchSet <;> simp_all

/-- **The mismatch lies in the region**, or just before one of its bundles. -/
theorem matchRegion_mismatch {mismatch : Nat} (hn : 0 < n) (hend : offset + n ≤ 2 ^ w)
    (hsize : offset + n < 2 ^ 32) (h : matchRegion ba w offset n matchSet = some mismatch) :
    offset ≤ mismatch ∧ mismatch < offset + n := by
  obtain ⟨⟨x, idx⟩, hbundle, rfl⟩ := Option.map_eq_some_iff.mp h
  rcases mismatchBundle_cases hn hend hbundle with ⟨mask, hcov, -, hne, rfl⟩ | ⟨hstop, rfl⟩
  · obtain ⟨hlo, hhi, -⟩ := hcov.mismatch hsize hne rfl
    exact ⟨hlo, hhi⟩
  · obtain ⟨hlo, hhi⟩ := hstop.inner
    have hle := findLsbSet_le (ba.view matchSet idx)
    dsimp only
    rw [mismatchBit, bundleBitness]
    omega

theorem allocFrom_rounds {last bitIdx k k' : Nat} (hn : 0 < n) (hend : last + n ≤ 2 ^ w) (hsize : last + n < 2 ^ 32)
    (hk : last + 1 - bitIdx < k) (hk' : last + 1 - bitIdx < k') :
    allocFrom ba w n last k bitIdx = allocFrom ba w n last k' bitIdx := by
  induction k generalizing bitIdx k' with
  | zero => omega
  | succ k ih =>
    cases k' with
    | zero => omega
    | succ k' =>
      simp only [allocFrom]
      by_cases hle : bitIdx ≤ last
      · rw [if_pos hle, if_pos hle]
        cases hmatch : matchRegion ba w bitIdx n false with
        | none => rfl
        | some mismatch =>
          obtain ⟨hlo, hhi⟩ := matchRegion_mismatch hn (by omega) (by omega) hmatch
          exact ih (by omega) (by omega)
      · rw [if_neg hle, if_neg hle]

theorem allocFrom_spec {last bitIdx k found : Nat} (hn : 0 < n) (hend : last + n ≤ 2 ^ w)
    (h : allocFrom ba w n last k bitIdx = some found) :
    found ≤ last ∧ ∀ i, found ≤ i → i < found + n → ba.test i = false := by
  induction k generalizing bitIdx with
  | zero => cases h
  | succ k ih =>
    simp only [allocFrom] at h
    split at h
    · rename_i hle
      cases hmatch : matchRegion ba w bitIdx n false with
      | none =>
        rw [hmatch] at h
        cases h
        exact ⟨hle, (matchRegion_eq_none hn (by omega)).mp hmatch⟩
      | some mismatch =>
        rw [hmatch] at h
        exact ih h
    · cases h

/-! ## The calls -/

/-- The bits of a region change, and nothing else. -/
structure Writes (ba ba' : BitArray) (offset n : Nat) (toSet : Bool) : Prop where
  size : ba'.numBits = ba.numBits
  inside : offset + n ≤ ba.numBits
  test : ∀ i, ba'.test i = if offset ≤ i ∧ i < offset + n then toSet else ba.test i

theorem setRegion_writes (hn : 0 < n) (hle : offset + n ≤ ba.numBits) (hw : ba.numBits < 2 ^ w) (toSet : Bool) :
    Writes ba (setRegion ba w offset n toSet) offset n toSet :=
  ⟨size_setRegion toSet, hle, fun _ => test_setRegion hn (by omega) toSet⟩

theorem sysBitarrayAlloc_spec {ba' : BitArray} {ret : Int} (hw : ba.numBits < 2 ^ w)
    (h : sysBitarrayAlloc ba w n = ((ret, offset), ba')) :
    (ret = 0 ∧ 0 < n ∧ (∀ i, offset ≤ i → i < offset + n → ba.test i = false) ∧ Writes ba ba' offset n true) ∨
      ret ≠ 0 ∧ ba' = ba := by
  unfold sysBitarrayAlloc at h
  split at h
  · cases h
    exact .inr ⟨by decide, rfl⟩
  · split at h
    · rename_i found hfound
      cases h
      obtain ⟨hle, hclear⟩ := allocFrom_spec (by omega) (by omega) hfound
      exact .inl ⟨rfl, by omega, hclear, setRegion_writes (by omega) (by omega) hw true⟩
    · cases h
      exact .inr ⟨by decide, rfl⟩

theorem inside_of_not_outside (h : ba.outside w n offset = false) (hw : ba.numBits + ba.numBits < 2 ^ w) :
    0 < n ∧ offset + n ≤ ba.numBits := by
  simp only [BitArray.outside, decide_eq_false_iff_not, not_or] at h
  obtain ⟨hn, hle, hoff, hend⟩ := h
  rw [offEnd_eq (by omega) (by omega)] at hend
  omega

theorem not_outside (hn : 0 < n) (hle : offset + n ≤ ba.numBits) (hw : ba.numBits < 2 ^ w) :
    ba.outside w n offset = false := by
  simp only [BitArray.outside, decide_eq_false_iff_not, not_or, offEnd_eq hn (show offset + n ≤ 2 ^ w by omega)]
  omega

theorem sysBitarrayFree_spec (hn : 0 < n) (hle : offset + n ≤ ba.numBits) (hw : ba.numBits < 2 ^ w)
    (hset : ∀ i, offset ≤ i → i < offset + n → ba.test i = true) :
    (sysBitarrayFree ba w n offset).1 = 0 ∧ Writes ba (sysBitarrayFree ba w n offset).2 offset n false := by
  unfold sysBitarrayFree
  rw [if_neg (by rw [not_outside hn hle hw]; decide), (matchRegion_eq_none hn (by omega)).mpr hset]
  exact ⟨rfl, setRegion_writes hn hle hw false⟩

/-- **What is allocated can be freed**, and every bit is then as before. -/
theorem sysBitarrayAlloc_free {ba' : BitArray} (hw : ba.numBits < 2 ^ w) (h : sysBitarrayAlloc ba w n = ((0, offset), ba')) :
    (sysBitarrayFree ba' w n offset).1 = 0 ∧ ∀ i, (sysBitarrayFree ba' w n offset).2.test i = ba.test i := by
  obtain ⟨-, hn, hclear, hsize, hle, htest⟩ | ⟨hne, -⟩ := sysBitarrayAlloc_spec hw h
  · have hset (i : Nat) (hlo : offset ≤ i) (hhi : i < offset + n) : ba'.test i = true := by
      rw [htest, if_pos ⟨hlo, hhi⟩]
    obtain ⟨hret, -, -, hback⟩ := sysBitarrayFree_spec hn (hsize ▸ hle) (hsize ▸ hw) hset
    refine ⟨hret, fun i => ?_⟩
    rw [hback]
    split
    · rename_i hi
      rw [hclear i hi.1 hi.2]
    · rename_i hi
      rw [htest, if_neg hi]
  · exact absurd rfl hne

/-- An array of five bundles: the lowest 16 bits are set, and four bits of the third bundle. -/
def mixed : BitArray :=
  { BitArray.define 160 with bundles := fun i => if i = 0 then 0xffff#32 else if i = 2 then 0xf0#32 else 0#32 }

theorem sysBitarrayAlloc_free_seventy : (sysBitarrayAlloc mixed 32 70).1 = (0, 72) ∧
    ∀ i, (sysBitarrayFree (sysBitarrayAlloc mixed 32 70).2 32 70 72).2.test i = mixed.test i := by
  have halloc : (sysBitarrayAlloc mixed 32 70).1 = (0, 72) := by decide +kernel
  exact ⟨halloc, (sysBitarrayAlloc_free (by decide) (Prod.ext halloc rfl)).2⟩

theorem sysBitarrayTestAndSetRegion_spec {ba' : BitArray} {ret : Int} (hw : ba.numBits + ba.numBits < 2 ^ w)
    (h : sysBitarrayTestAndSetRegion ba w n offset true = (ret, ba')) :
    (ret = 0 ∧ 0 < n ∧ (∀ i, offset ≤ i → i < offset + n → ba.test i = false) ∧ Writes ba ba' offset n true) ∨
      ret ≠ 0 ∧ ba' = ba := by
  unfold sysBitarrayTestAndSetRegion at h
  split at h
  · cases h
    exact .inr ⟨by decide, rfl⟩
  · rename_i hin
    obtain ⟨hn, hle⟩ := inside_of_not_outside (Bool.not_eq_true _ ▸ hin) hw
    split at h
    · rename_i hmatch
      cases h
      exact .inl ⟨rfl, hn, (matchRegion_eq_none hn (by omega)).mp hmatch, setRegion_writes hn hle (by omega) true⟩
    · cases h
      exact .inr ⟨by decide, rfl⟩

end RtosKernel.Zephyr.BitArrays
