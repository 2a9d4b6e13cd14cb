import RtosKernel.Zephyr.MemBlocks

/-! # Memory blocks are neither shared nor leaked

Every call is proved alone, from the bits that are set for its own thread: what it gets was
set for nobody, and what it has got when it fails it gives back. -/

namespace RtosKernel.Zephyr.MemBlocks
open Lib.Atomic Lib.Runs Zephyr.BitArrays Function Finset

variable {p : Pool} {T : Type} [DecidableEq T]

/-! ## The operations of the bit array -/

/-- The bits that are set are those set for some thread, and each for only one. -/
structure Kept (p : Pool) (ba : BitArray) (held : T → Finset Nat) : Prop where
  size : ba.numBits = p.numBlocks
  apart : Apart held
  lt : ∀ t, ∀ i ∈ held t, i < p.numBlocks
  test : ∀ i < p.numBlocks, ba.test i = true ↔ ∃ t, i ∈ held t

theorem Pool.small (p : Pool) : p.numBlocks + p.numBlocks < 2 ^ p.wordBits := by
  have hwide := p.wide
  have hobject := p.object
  have hpos : 1 ≤ 2 ^ p.blkSzShift := Nat.one_le_two_pow
  have hle : p.numBlocks ≤ p.numBlocks * 2 ^ p.blkSzShift := Nat.le_mul_of_pos_right _ hpos
  have hpow : 2 ^ p.wordBits = 2 ^ (p.wordBits - 1) + 2 ^ (p.wordBits - 1) := by
    rw [← Nat.two_mul, ← Nat.pow_succ', Nat.succ_eq_add_one, Nat.sub_add_cancel (by omega)]
  omega

section Operations
variable {ba ba' : BitArray} {held : T → Finset Nat} {t : T} {offset n : Nat}

theorem Kept.take (h : Kept p ba held) (hw : Writes ba ba' offset n true)
    (hclear : ∀ i, offset ≤ i → i < offset + n → ba.test i = false) :
    Kept p ba' (Function.update held t (held t ∪ Finset.Ico offset (offset + n))) := by
  have hinside := hw.inside
  rw [h.size] at hinside
  have hfree (i : Nat) (hi : i ∈ Finset.Ico offset (offset + n)) (u : T) : i ∉ held u := by
    rw [mem_Ico] at hi
    intro hu
    have hset := (h.test i (by omega)).mpr ⟨u, hu⟩
    rw [hclear i hi.1 hi.2] at hset
    cases hset
  refine ⟨hw.size.trans h.size, h.apart.take hfree, fun u i hi => ?_, fun i hi => ?_⟩
  · by_cases hu : u = t
    · subst hu
      rw [update_self, mem_union, mem_Ico] at hi
      rcases hi with hi | hi
      · exact h.lt u i hi
      · omega
    · rw [update_of_ne hu] at hi
      exact h.lt u i hi
  · rw [exists_mem_take, mem_Ico, hw.test]
    split
    · rename_i hin
      exact ⟨fun _ => .inl hin, fun _ => rfl⟩
    · rename_i hout
      rw [h.test i hi]
      exact ⟨.inr, fun hi => hi.resolve_left hout⟩

theorem Kept.give (h : Kept p ba held) (hw : Writes ba ba' offset n false)
    (hheld : Finset.Ico offset (offset + n) ⊆ held t) :
    Kept p ba' (Function.update held t (held t \ Finset.Ico offset (offset + n))) := by
  refine ⟨hw.size.trans h.size, h.apart.give, fun u i hi => ?_, fun i hi => ?_⟩
  · by_cases hu : u = t
    · subst hu
      rw [update_self, mem_sdiff] at hi
      exact h.lt u i hi.1
    · rw [update_of_ne hu] at hi
      exact h.lt u i hi
  · rw [h.apart.exists_mem_give hheld, mem_Ico, hw.test]
    split
    · rename_i hin
      exact ⟨nofun, fun hi => absurd hin hi.1⟩
    · rename_i hout
      rw [h.test i hi]
      exact ⟨fun hi => ⟨hout, hi⟩, And.right⟩

omit [DecidableEq T] in
theorem Kept.disjoint (h : Kept p ba held) (hw : Writes ba ba' offset n true)
    (hclear : ∀ i, offset ≤ i → i < offset + n → ba.test i = false) :
    offset + n ≤ p.numBlocks ∧ Disjoint (held t) (Finset.Ico offset (offset + n)) := by
  have hinside := hw.inside
  rw [h.size] at hinside
  refine ⟨hinside, Finset.disjoint_right.mpr fun i hi hu => ?_⟩
  rw [mem_Ico] at hi
  have hset := (h.test i (by omega)).mpr ⟨t, hu⟩
  rw [hclear i hi.1 hi.2] at hset
  cases hset

end Operations

/-- **Every operation** keeps the bits and those they are set for in step. -/
theorem semantics_sound : Sound (semantics p) (Kept p (T := T)) := by
  intro ba held t o h hcan
  have hsmall := p.small
  obtain ⟨⟨r, ba'⟩, hgo⟩ : ∃ x, (semantics p).exec o ba = x := ⟨_, rfl⟩
  rw [hgo]
  cases o with
  | alloc n =>
    obtain ⟨ret, offset⟩ := r
    show (ret = 0 → _) ∧ Kept p ba' (Function.update held t
      (if ret = 0 then held t ∪ Finset.Ico offset (offset + n) else held t))
    rcases sysBitarrayAlloc_spec (by rw [h.size]; omega) hgo with ⟨rfl, hn, hclear, hw⟩ | ⟨hret, rfl⟩
    · exact ⟨fun _ => h.disjoint hw hclear, h.take hw hclear⟩
    · rw [if_neg hret, update_eq_self]
      exact ⟨fun hz => absurd hz hret, h⟩
  | free n offset =>
    obtain ⟨hn, hheld⟩ := hcan
    have hle : offset + n ≤ p.numBlocks := by
      have hlast := h.lt t (offset + n - 1) (hheld (mem_Ico.mpr (by omega)))
      omega
    have hset (i : Nat) (hlo : offset ≤ i) (hhi : i < offset + n) : ba.test i = true :=
      (h.test i (by omega)).mpr ⟨t, hheld (mem_Ico.mpr ⟨hlo, hhi⟩)⟩
    obtain ⟨hret, hw⟩ := sysBitarrayFree_spec (w := p.wordBits) hn (by rw [h.size]; exact hle) (by rw [h.size]; omega) hset
    replace hgo : sysBitarrayFree ba p.wordBits n offset = (r, ba') := hgo
    rw [hgo] at hret hw
    obtain rfl : r = (0 : Int) := hret
    exact ⟨rfl, h.give hw hheld⟩
  | testAndSetRegion n offset toSet =>
    obtain rfl : toSet = true := hcan
    show (r = (0 : Int) → _) ∧ Kept p ba' (Function.update held t
      (if r = (0 : Int) then held t ∪ Finset.Ico offset (offset + n) else held t))
    rcases sysBitarrayTestAndSetRegion_spec (by rw [h.size]; exact hsmall) hgo with ⟨rfl, hn, hclear, hw⟩ | ⟨hret, rfl⟩
    · exact ⟨fun _ => h.disjoint hw hclear, h.take hw hclear⟩
    · rw [if_neg hret, update_eq_self]
      exact ⟨fun hz => absurd hz hret, h⟩

/-! ## Pointers and bits -/

def Pool.Inside (p : Pool) (ptr : Nat) : Prop := 0 ≤ p.number ptr ∧ p.number ptr < p.numBlocks

/-- The bit of a block in the buffer. -/
def Pool.index (p : Pool) (ptr : Nat) : Nat := (p.number ptr).toNat

section Pointers
variable {ptr i n : Nat}

theorem Pool.Inside.number (h : p.Inside ptr) : p.number ptr = (p.index ptr : Int) := (Int.toNat_of_nonneg h.1).symm

theorem Pool.Inside.index_lt (h : p.Inside ptr) : p.index ptr < p.numBlocks := by
  have hnumber := h.number
  have hlt := h.2
  omega

theorem Pool.blocksFrom_of_inside (h : p.Inside ptr) : p.buffer ≤ ptr ∧ p.blocksFrom ptr = (p.index ptr : Int) := by
  have hpos : (0 : Int) < 2 ^ p.blkSzShift := by positivity
  have hlo : 0 ≤ (ptr : Int) - p.buffer := (Int.le_ediv_iff_mul_le hpos).mp h.1 |>.trans' (by simp)
  have hhi : (ptr : Int) - p.buffer < p.numBlocks * 2 ^ p.blkSzShift := Int.lt_mul_of_ediv_lt hpos h.2
  have hobject : ((p.numBlocks * 2 ^ p.blkSzShift : Nat) : Int) < ((2 ^ (p.wordBits - 1) : Nat) : Int) :=
    Int.ofNat_lt.mpr p.object
  have hwide := p.wide
  have hpow : 2 ^ p.wordBits = 2 * 2 ^ (p.wordBits - 1) := by
    rw [← Nat.pow_succ', Nat.succ_eq_add_one, Nat.sub_add_cancel (by omega)]
  push_cast at hobject
  refine ⟨by omega, ?_⟩
  have hmod : Int.bmod ((ptr : Int) - p.buffer) (2 ^ p.wordBits) = (ptr : Int) - p.buffer := by
    rw [Int.bmod_eq_of_le_mul_two] <;> rw [hpow] <;> push_cast <;> omega
  rw [Pool.blocksFrom, hmod]
  exact h.number

theorem Pool.size_index (h : p.Inside ptr) : p.size (p.blocksFrom ptr) = p.index ptr := by
  have hsmall := p.small
  have hlt := h.index_lt
  rw [Pool.size, (Pool.blocksFrom_of_inside h).2]
  norm_cast
  rw [Nat.mod_eq_of_lt (by omega)]

def Pool.address (p : Pool) (i : Nat) : Nat := p.buffer + i * 2 ^ p.blkSzShift

theorem Pool.address_lt (hi : i < p.numBlocks) : p.address i < 2 ^ p.wordBits := by
  have hfits := p.fits
  have hpos : 0 < 2 ^ p.blkSzShift := Nat.two_pow_pos _
  have hlt : i * 2 ^ p.blkSzShift < p.numBlocks * 2 ^ p.blkSzShift := Nat.mul_lt_mul_of_pos_right hi hpos
  rw [Pool.address]
  omega

theorem Pool.address_ne_zero : p.address i ≠ 0 := by
  have hpos := p.buffer_pos
  rw [Pool.address]
  omega

theorem Pool.number_address : p.number (p.address i) = (i : Int) := by
  rw [Pool.number, Pool.address]
  push_cast
  rw [add_sub_cancel_left, Int.mul_ediv_cancel _ (by positivity)]

end Pointers

/-! ## Each call alone -/

section Calls
variable {held : Finset Nat} {n ptr : Nat}

theorem allocBlocks_meets (hn : 0 < n) : Meets (semantics p)
    (fun ptr held' => ptr = 0 ∧ held' = held ∨ ∃ i, ptr = p.address i ∧ i + n ≤ p.numBlocks ∧
      Disjoint held (Finset.Ico i (i + n)) ∧ held' = held ∪ Finset.Ico i (i + n))
    (allocBlocks p n) held := by
  refine ⟨trivial, fun r hr => ?_⟩
  show Meets (semantics p) _ (if r.1 ≠ 0 then _ else _) (if r.1 = 0 then _ else _)
  by_cases hret : r.1 = 0
  · obtain ⟨hle, hdisjoint⟩ := hr hret
    rw [if_neg (not_not.mpr hret), if_pos hret]
    refine .inr ⟨r.2, ?_, hle, hdisjoint, rfl⟩
    exact Nat.mod_eq_of_lt (p.address_lt (by omega))
  · rw [if_pos hret, if_neg hret]
    exact .inl ⟨rfl, rfl⟩

theorem freeBlocks_meets (hn : 0 < n) (hin : p.Inside ptr)
    (hheld : Finset.Ico (p.index ptr) (p.index ptr + n) ⊆ held) : Meets (semantics p)
    (fun r held' => r = 0 ∧ held' = held \ Finset.Ico (p.index ptr) (p.index ptr + n)) (freeBlocks p ptr n) held := by
  unfold freeBlocks
  rw [if_neg (Nat.not_lt.mpr (Pool.blocksFrom_of_inside hin).1)]
  rw [Pool.size_index hin, if_neg (Nat.not_le.mpr hin.index_lt)]
  refine ⟨⟨hn, hheld⟩, fun r hr => ?_⟩
  obtain rfl : r = (0 : Int) := hr
  exact ⟨rfl, rfl⟩

def Pool.bits (p : Pool) (l : List Nat) : Finset Nat := (l.map p.index).toFinset

theorem Pool.bits_cons (l : List Nat) : p.bits (ptr :: l) = insert (p.index ptr) (p.bits l) := by
  simp [Pool.bits]

theorem Pool.bits_append (l l' : List Nat) : p.bits (l ++ l') = p.bits l ∪ p.bits l' := by
  simp [Pool.bits]

theorem freeEach_meets {l : List Nat} {ret : Int} (hin : ∀ ptr ∈ l, p.Inside ptr) (hnodup : (l.map p.index).Nodup)
    (hheld : p.bits l ⊆ held) :
    Meets (semantics p) (fun r held' => r = ret ∧ held' = held \ p.bits l) (freeEach p l ret) held := by
  induction l generalizing held ret with
  | nil => exact ⟨rfl, by simp [Pool.bits]⟩
  | cons ptr l ih =>
    obtain ⟨hnot, hnodup⟩ := List.nodup_cons.mp hnodup
    rw [Pool.bits_cons] at hheld ⊢
    have hone : Finset.Ico (p.index ptr) (p.index ptr + 1) = {p.index ptr} := Nat.Ico_succ_singleton _
    refine Meets.bind (freeBlocks_meets Nat.one_pos (hin ptr List.mem_cons_self) ?_) fun r held' hr => ?_
    · rw [hone]
      exact (singleton_subset_iff.mpr (Finset.mem_insert_self ..)).trans hheld
    · obtain ⟨rfl, rfl⟩ := hr
      rw [if_neg (by decide), hone]
      refine (ih (fun ptr hptr => hin ptr (List.mem_cons_of_mem _ hptr)) hnodup fun i hi => ?_).mono fun r held' hr => ?_
      · refine mem_sdiff.mpr ⟨hheld (Finset.mem_insert_of_mem hi), fun heq => hnot ?_⟩
        rw [← Finset.mem_singleton.mp heq]
        exact List.mem_toFinset.mp hi
      · refine ⟨hr.1, hr.2.trans ?_⟩
        rw [sdiff_sdiff_left, sup_eq_union, ← Finset.insert_eq]

theorem sysMemBlocksFree_meets {l : List Nat} (hin : ∀ ptr ∈ l, p.Inside ptr) (hnodup : (l.map p.index).Nodup)
    (hheld : p.bits l ⊆ held) :
    Meets (semantics p) (fun r held' => r = 0 ∧ held' = held \ p.bits l) (sysMemBlocksFree p l) held := by
  unfold sysMemBlocksFree
  split
  · rename_i hnil
    obtain rfl := List.length_eq_zero_iff.mp hnil
    exact ⟨rfl, by simp [Pool.bits]⟩
  · have hshort : l.length ≤ p.numBlocks := by
      have hsub : p.bits l ⊆ Finset.range p.numBlocks := by
        intro i hi
        obtain ⟨ptr, hptr, rfl⟩ := List.mem_map.mp (List.mem_toFinset.mp hi)
        exact Finset.mem_range.mpr (hin ptr hptr).index_lt
      have hcard := card_le_card hsub
      rwa [card_range, Pool.bits, List.toFinset_card_of_nodup hnodup, List.length_map] at hcard
    rw [if_neg (Nat.not_lt.mpr hshort)]
    exact freeEach_meets hin hnodup hheld

/-- Blocks that were set for nobody before. -/
structure Fresh (p : Pool) (held : Finset Nat) (l : List Nat) : Prop where
  inside : ∀ ptr ∈ l, p.Inside ptr
  nodup : (l.map p.index).Nodup
  disjoint : Disjoint held (p.bits l)

theorem Pool.inside_address {i : Nat} (hi : i < p.numBlocks) : p.Inside (p.address i) ∧ p.index (p.address i) = i := by
  have hnumber := p.number_address (i := i)
  refine ⟨⟨by omega, by omega⟩, ?_⟩
  rw [Pool.index, hnumber, Int.toNat_natCast]

theorem Fresh.snoc {l : List Nat} {i : Nat} (h : Fresh p held l) (hi : i < p.numBlocks)
    (hnew : Disjoint (held ∪ p.bits l) {i}) : Fresh p held (l ++ [p.address i]) := by
  obtain ⟨hin, hindex⟩ := Pool.inside_address hi
  have hnot := disjoint_singleton_right.mp hnew
  rw [mem_union, not_or] at hnot
  refine ⟨fun ptr hptr => ?_, ?_, ?_⟩
  · rcases List.mem_append.mp hptr with hptr | hptr
    · exact h.inside ptr hptr
    · rw [List.mem_singleton.mp hptr]
      exact hin
  · rw [List.map_append, List.map_singleton, hindex]
    refine List.nodup_append.mpr ⟨h.nodup, List.nodup_singleton i, fun a ha b hb => ?_⟩
    rintro rfl
    rw [List.mem_singleton.mp hb] at ha
    exact hnot.2 (List.mem_toFinset.mpr ha)
  · rw [Pool.bits_append]
    refine disjoint_union_right.mpr ⟨h.disjoint, ?_⟩
    rw [Pool.bits, List.map_singleton, hindex]
    exact disjoint_singleton_right.mpr hnot.1

theorem allocEach_meets {l : List Nat} (h : Fresh p held l) : Meets (semantics p)
    (fun out held' => out.length ≤ l.length + n ∧ Fresh p held out ∧ held' = held ∪ p.bits out)
    (allocEach p n l) (held ∪ p.bits l) := by
  induction n generalizing l with
  | zero => exact ⟨le_rfl, h, rfl⟩
  | succ n ih =>
    refine Meets.bind (allocBlocks_meets Nat.one_pos) fun ptr held' hptr => ?_
    rcases hptr with ⟨rfl, rfl⟩ | ⟨i, rfl, hi, hnew, rfl⟩
    · exact ⟨Nat.le_add_right _ _, h, rfl⟩
    · rw [if_neg Pool.address_ne_zero]
      rw [show Finset.Ico i (i + 1) = {i} from Nat.Ico_succ_singleton i] at hnew ⊢
      have hbits : held ∪ p.bits l ∪ {i} = held ∪ p.bits (l ++ [p.address i]) := by
        simp [Pool.bits, (Pool.inside_address (p := p) (i := i) (by omega)).2]
      rw [hbits]
      refine (ih (h.snoc (by omega) hnew)).mono fun out held' hout => ?_
      rw [List.length_append, List.length_singleton, Nat.add_assoc, Nat.add_comm 1] at hout
      exact hout

theorem sysMemBlocksAlloc_meets : Meets (semantics p)
    (fun r held' => r.ret = 0 ∧ Fresh p held r.out ∧ held' = held ∪ p.bits r.out ∨ r.ret ≠ 0 ∧ held' = held)
    (sysMemBlocksAlloc p n) held := by
  have hnil : Fresh p held [] := ⟨nofun, List.nodup_nil, disjoint_empty_right _⟩
  unfold sysMemBlocksAlloc
  split
  · exact .inl ⟨rfl, hnil, by simp [Pool.bits]⟩
  · split
    · exact .inr ⟨by decide, rfl⟩
    · have heach := allocEach_meets (n := n) hnil
      rw [show held ∪ p.bits [] = held by simp [Pool.bits]] at heach
      refine Meets.bind heach fun out held' hout => ?_
      obtain ⟨hlen, hfresh, rfl⟩ := hout
      split
      · refine Meets.bind (sysMemBlocksFree_meets hfresh.inside hfresh.nodup subset_union_right)
          fun r held' hr => .inr ⟨(by decide : enomem ≠ 0), ?_⟩
        rw [hr.2, union_sdiff_cancel_right hfresh.disjoint]
      · exact .inl ⟨rfl, hfresh, rfl⟩

theorem sysMemBlocksAllocContiguous_meets : Meets (semantics p)
    (fun r held' => r.ret = 0 ∧ (n = 0 ∧ held' = held ∨ ∃ i, r.out = [p.address i] ∧ 0 < n ∧ i + n ≤ p.numBlocks ∧
      Disjoint held (Finset.Ico i (i + n)) ∧ held' = held ∪ Finset.Ico i (i + n)) ∨ r.ret ≠ 0 ∧ held' = held)
    (sysMemBlocksAllocContiguous p n) held := by
  unfold sysMemBlocksAllocContiguous
  split
  · rename_i hzero
    exact .inl ⟨rfl, .inl ⟨hzero, rfl⟩⟩
  · split
    · exact .inr ⟨by decide, rfl⟩
    · rename_i hn _
      refine Meets.bind (allocBlocks_meets (Nat.pos_of_ne_zero hn)) fun ptr held' hptr => ?_
      rcases hptr with ⟨rfl, rfl⟩ | ⟨i, rfl, hi, hnew, rfl⟩
      · exact .inr ⟨by decide, rfl⟩
      · rw [if_neg Pool.address_ne_zero]
        exact .inl ⟨rfl, .inr ⟨i, rfl, Nat.pos_of_ne_zero hn, hi, hnew, rfl⟩⟩

theorem sysMemBlocksFreeContiguous_meets (hin : 0 < n → p.Inside ptr)
    (hheld : Finset.Ico (p.index ptr) (p.index ptr + n) ⊆ held) (hle : 0 < n → p.index ptr + n ≤ p.numBlocks) :
    Meets (semantics p) (fun r held' => r = 0 ∧ held' = held \ Finset.Ico (p.index ptr) (p.index ptr + n))
      (sysMemBlocksFreeContiguous p ptr n) held := by
  unfold sysMemBlocksFreeContiguous
  split
  · rename_i hzero
    exact ⟨rfl, by simp [hzero]⟩
  · rename_i hn
    have hpos := Nat.pos_of_ne_zero hn
    rw [if_neg (by omega)]
    exact freeBlocks_meets hpos (hin hpos) hheld

theorem sysMemBlocksGet_meets : Meets (semantics p)
    (fun r held' => r = 0 ∧ (n = 0 ∧ held' = held ∨ 0 < n ∧ p.size (getOffset p ptr) + n ≤ p.numBlocks ∧
      Disjoint held (Finset.Ico (p.size (getOffset p ptr)) (p.size (getOffset p ptr) + n)) ∧
        held' = held ∪ Finset.Ico (p.size (getOffset p ptr)) (p.size (getOffset p ptr) + n)) ∨
      r ≠ 0 ∧ held' = held)
    (sysMemBlocksGet p ptr n) held := by
  unfold sysMemBlocksGet
  split
  · rename_i hzero
    exact .inl ⟨rfl, .inl ⟨hzero, rfl⟩⟩
  · split
    · exact .inr ⟨by decide, rfl⟩
    · rename_i hn _
      refine ⟨rfl, fun r hr => ?_⟩
      show Meets (semantics p) _ (if (r : Int) ≠ 0 then _ else _) (if r = (0 : Int) then if true then _ else _ else _)
      by_cases hret : r = (0 : Int)
      · obtain ⟨hle, hdisjoint⟩ := hr hret
        rw [if_neg (not_not.mpr hret), if_pos hret, if_pos rfl]
        exact .inl ⟨hret, .inr ⟨Nat.pos_of_ne_zero hn, hle, hdisjoint, rfl⟩⟩
      · rw [if_pos hret, if_neg hret]
        exact .inr ⟨by decide, rfl⟩

end Calls

end RtosKernel.Zephyr.MemBlocks
