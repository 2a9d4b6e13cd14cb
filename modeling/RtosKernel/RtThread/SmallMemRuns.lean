import RtosKernel.RtThread.SmallMemCalls

/-! # Whole runs of the small memory heap -/
namespace RtosKernel.RtThread.SmallMem
open Lib.Word Lib.Window Lib.Tiling RtThread.Def List Option

variable {c : Board} {m m' : RtSmallMem} {pre post blocks : List Block} {o : Nat}

/-! ## Resizing -/

/-- A change of a block that keeps every block in use. -/
def Keeps (c : Board) (m : RtSmallMem) (blocks : List Block) (m' : RtSmallMem) : Prop :=
  ∃ blocks', Same m m' ∧ Inv c m' blocks' ∧
    ∀ x, (⟨x, true⟩ : Block) ∈ blocks' ↔ (⟨x, true⟩ : Block) ∈ blocks

/-- A pointer that is handed out is that of a used block with room for `size` bytes. -/
def Served (c : Board) (size : Nat) (r : RtSmallMem × Nat) : Prop :=
  r.2 ≠ 0 → ∃ o blocks, Inv c r.1 blocks ∧ ⟨o, true⟩ ∈ blocks ∧ r.2 = userPtr c r.1 o ∧
    size ≤ userSize c r.1 o

/-- Shrinking a block in place: the rest becomes a free block, merged with what is
behind it. -/
theorem shrinkBlock_spec {size newsize : Nat} (hi : Inv c m (pre ++ ⟨o, true⟩ :: post))
    (hsize : o + c.sizeofStructMem + size = start post m.heapEnd) (hdvd : c.alignSize ∣ newsize)
    (hpos : 0 < newsize) (hlt : newsize + c.sizeofStructMem < size) :
    ∃ m', shrinkBlock c m o size newsize = some m' ∧ Keeps c m (pre ++ ⟨o, true⟩ :: post) m' ∧
      Served c newsize (m', userPtr c m o) := by
  have hf := hi.fixed
  have ht := hi.tiles
  have hin := hf.inside
  have hm := ht.middle
  have hend := hm.spacedBehind.start_le
  have hsum := ht.used
  have hbound := usedSum_le ht.spaced
  set o2 := o + c.sizeofStructMem + newsize with ho2
  set used' := sub32 m.used (sub32 size newsize) with hused'
  have hf1 : Fixed c { m with used := used' } := hf.keep rfl rfl rfl rfl
  have hm1 : Middle c { m with used := used' } pre ⟨o, true⟩ post :=
    ⟨hm.1, hm.2, hm.3, hm.4, hm.5, hm.6⟩
  obtain ⟨item', hsplit, hlaid, hlast⟩ := splitBlock_laid hf1 hm1 ht.endUsed
    (show o + c.sizeofStructMem + newsize + c.sizeofStructMem < start post m.heapEnd by omega)
  have hadd : add32 (add32 o c.sizeofStructMem) newsize = o2 := by
    rw [hf.add_size (show o + c.sizeofStructMem ≤ m.heapEnd by omega), hf.add_size (by omega)]
  set lfree' := if o2 < m.lfree then o2 else m.lfree with hlfree'
  set m2 : RtSmallMem := { m with used := used', item := item', lfree := lfree' } with hm2
  have hold : usedSum (pre ++ ⟨o, true⟩ :: post) m.heapEnd =
      usedSum (pre ++ [⟨o, true⟩] ++ ⟨o2, false⟩ :: post) m.heapEnd + (size - newsize) := by
    simp only [append_assoc, singleton_append, usedSum_append, start_cons, usedSum_used, usedSum_free]
    omega
  have ht2 : Tiles c m2 (pre ++ [⟨o, true⟩] ++ ⟨o2, false⟩ :: post) := by
    refine ⟨?_, ?_, ?_, ?_, ?_, ?_, hlast⟩
    · rw [append_assoc, singleton_append]
      exact hlaid
    · have := ht.first
      rw [append_assoc, singleton_append]
      rwa [start_append] at this ⊢
    · rw [append_assoc, singleton_append]
      refine spaced_append.mpr ⟨hm.spacedBefore, ?_, ?_, hm.spacedBehind⟩
      · simp only [start_cons]
        omega
      · change o2 + (c.sizeofStructMem + 1) ≤ start post m.heapEnd
        omega
    · intro b hb
      simp only [mem_append, List.mem_cons, not_mem_nil, or_false] at hb
      rcases hb with (hb | rfl) | rfl | hb
      · exact ht.aligned b (by simp [hb])
      · exact ht.aligned _ (by simp)
      · exact Nat.dvd_add (Nat.dvd_add (ht.aligned ⟨o, true⟩ (by simp)) c.sizeofStructMem_dvd) hdvd
      · exact ht.aligned b (by simp [hb])
    · have hlfree := ht.lfree
      have hle := start_le_firstFree hm.spacedBehind
      simp only [hm2, hlfree', append_assoc, singleton_append, firstFree_append,
        firstFree_free, firstFree_used] at hlfree ⊢
      rcases firstFree_cases (Nat.succ_pos _) hm.spacedBefore with hall | ⟨x, hx, hall⟩
      · rw [hall] at hlfree ⊢
        rw [if_pos (by omega)]
      · rw [hall] at hlfree ⊢
        simp only at hx
        rw [if_neg (by omega), hlfree]
    · have hlen : sub32 size newsize = size - newsize := sub32_of_le (by omega) (by omega)
      simp only [hm2, hused', hlen]
      rw [sub32_of_le (by omega) (by omega)]
      omega
  have hf2 : Fixed c m2 := hf.keep rfl rfl rfl rfl
  obtain ⟨item2, hplug, htp⟩ := plugHoles_tiles hf2 ht2
  have hmerged : Merged (pre ++ [⟨o, true⟩]) := hi.merged.before.use List.IsChain.nil
  have hle : used' ≤ m.max := by
    have hlen : sub32 size newsize = size - newsize := sub32_of_le (by omega) (by omega)
    have := hi.max
    rw [hused', hlen, sub32_of_le (by omega) (by omega)]
    omega
  have hinv : Inv c { m2 with item := item2 } (absorb (pre ++ [⟨o, true⟩]) o2 ++ dropFree post) :=
    ⟨hf.keep rfl rfl rfl rfl, htp, hmerged.plug hi.merged.behind, hle⟩
  have hserved : Served c newsize ({ m2 with item := item2 }, userPtr c m o) := by
    rw [absorb_used, append_assoc, append_assoc] at hinv
    refine fun _ => ⟨o, _, hinv, by simp, rfl, ?_⟩
    rw [hinv.tiles.middle.userSize]
    change newsize ≤ o2 - (o + c.sizeofStructMem)
    omega
  refine ⟨{ m2 with item := item2 }, ?_, ⟨_, ⟨rfl, rfl⟩, hinv, fun x => ?_⟩, hserved⟩
  · simp only [shrinkBlock, ← hused', hsplit, hadd]
    exact hplug
  · rw [mem_plug]
    simp only [mem_append, List.mem_cons, not_mem_nil, or_false]
    tauto

/-- What resizing a live block may do. -/
inductive Resizes (c : Board) (m : RtSmallMem) (blocks : List Block) (o newsize : Nat) :
    RtSmallMem × Nat → Prop
  | failed (hsize : rtAlign newsize c.alignSize ≠ 0) : Resizes c m blocks o newsize (m, 0)
  /-- a size of nothing gives the block back -/
  | freed {m' : RtSmallMem} (hsize : rtAlign newsize c.alignSize = 0) :
      Frees c m blocks o m' → Resizes c m blocks o newsize (m', 0)
  | inPlace {m' : RtSmallMem} : Keeps c m blocks m' →
      Resizes c m blocks o newsize (m', userPtr c m o)
  | moved {m1 m' : RtSmallMem} {o' : Nat} {blocks1 : List Block} :
      (∀ x, (⟨x, true⟩ : Block) ∈ blocks1 ↔ x = o' ∨ (⟨x, true⟩ : Block) ∈ blocks) →
      (⟨o', true⟩ : Block) ∉ blocks → Same m m1 → Frees c m1 blocks1 o m' →
      Resizes c m blocks o newsize (m', userPtr c m o')

theorem Inv.withData (hi : Inv c m blocks) (data : Nat → UInt8) : Inv c { m with data } blocks :=
  ⟨hi.fixed.keep rfl rfl rfl rfl, ⟨hi.tiles.1, hi.tiles.2, hi.tiles.3, hi.tiles.4, hi.tiles.5,
    hi.tiles.6, hi.tiles.7⟩, hi.merged, hi.max⟩

/-- **`rt_smem_realloc`** of a live block. -/
theorem rtSmemRealloc_spec (hi : Inv c m blocks) (ho : (⟨o, true⟩ : Block) ∈ blocks) (newsize : Nat) :
    (m.self = 0 ∧ rtSmemRealloc c (enough m) m (userPtr c m o) newsize = none) ∨
      ∃ r, rtSmemRealloc c (enough m) m (userPtr c m o) newsize = some r ∧
        Resizes c m blocks o newsize r ∧ Served c (rtAlign newsize c.alignSize) r ∧
        (rtAlign newsize c.alignSize = 0 → r.2 = 0 ∧ r.1.used < m.used) ∧
        (rtAlign newsize c.alignSize ≠ 0 → r.2 = 0 → r.1 = m) := by
  have hf := hi.fixed
  have ht := hi.tiles
  have hin := hf.inside
  have hS := c.sizeofStructMem_bounds.1
  obtain ⟨pre, post, hsplit⟩ := append_of_mem ho
  have hm : Middle c m pre ⟨o, true⟩ post := Tiles.middle (hsplit ▸ ht)
  have hroom : o + (c.sizeofStructMem + 1) ≤ start post m.heapEnd := hm.room
  have hend := hm.spacedBehind.start_le
  have hnext : (m.item o).next = start post m.heapEnd := by rw [hm.header]
  have hblock := userPtr_block hf (show o + c.sizeofStructMem ≤ m.heapEnd by omega)
  have hdvd := Align.and_of_dvd (userPtr_dvd hi ho)
  obtain ⟨hne, hlow, hhigh⟩ := userPtr_range hf (hroom.trans hend)
  have hold : sub32 (sub32 (m.item o).next o) c.sizeofStructMem =
      start post m.heapEnd - o - c.sizeofStructMem := by
    have hlen : sub32 (start post m.heapEnd) o = start post m.heapEnd - o :=
      sub32_of_le (by omega) (by omega)
    rw [hnext, hlen, sub32_of_le (by omega) (by omega)]
  have hndvd := c.rtAlign_dvd newsize
  have hmax := hf.heapEnd_eq
  simp only [rtSmemRealloc]
  split
  · have hnz : rtAlign newsize c.alignSize ≠ 0 := by omega
    exact .inr ⟨_, rfl, .failed hnz, fun h => absurd rfl h, fun h => absurd h hnz, fun _ _ => rfl⟩
  split
  · rename_i hzero
    rcases rtSmemFree_spec hi ho with ⟨hnull, hfree⟩ | ⟨m', hfree, hfrees, hused, _⟩
    · exact .inl ⟨hnull, by rw [hfree]; rfl⟩
    · refine .inr ⟨_, by rw [hfree]; rfl, .freed hzero hfrees, fun h => absurd rfl h, fun _ => ⟨rfl, hused⟩,
        fun h => absurd hzero h⟩
  rename_i hle hnz
  simp only [rtAssert_of hdvd, rtAssert_of hlow, rtAssert_of hhigh, hblock, hold, bind, bind_some]
  set size := start post m.heapEnd - o - c.sizeofStructMem with hsize
  split
  · rename_i hsame
    refine .inr ⟨_, rfl, .inPlace ⟨blocks, ⟨rfl, rfl⟩, hi, fun _ => Iff.rfl⟩,
      fun _ => ⟨o, blocks, hi, ho, rfl, ?_⟩, fun h => absurd h hnz, fun _ h => absurd h hne⟩
    rw [hm.userSize]
    simp only
    omega
  have hneed : add32 (add32 (rtAlign newsize c.alignSize) c.sizeofStructMem) minSize =
      rtAlign newsize c.alignSize + c.sizeofStructMem + minSize := by
    unfold minSize
    exact add32_add (by omega)
  split
  · subst hsplit
    have hwhole : o + c.sizeofStructMem + size = start post m.heapEnd := by omega
    obtain ⟨m', hs, hk, hserved⟩ := shrinkBlock_spec hi hwhole hndvd (by omega) (by omega)
    exact .inr ⟨_, by rw [hs]; rfl, .inPlace hk, hserved, fun h => absurd h hnz, fun _ h => absurd h hne⟩
  -- allocate, copy and free
  obtain ⟨hup, hround⟩ := hf.rtAlign_le (Nat.le_of_not_lt hle)
  obtain ⟨⟨m1, nmem⟩, ha, hfit⟩ := rtSmemAlloc_firstFit hi hnz hround (le_refl _)
  rw [ha]
  simp only [bind_some]
  rcases hfit.cases hi with hr | ⟨o', blocks1, hp, hsame, hi1, hnew, hmem, hroom1⟩
  · cases hr
    exact .inr ⟨_, rfl, .failed hnz, fun h => absurd rfl h, fun h => absurd h hnz, fun _ _ => rfl⟩
  simp only at hp hsame hi1 hroom1
  have hnmem : nmem ≠ 0 := by rw [hp]; unfold userPtr; omega
  simp only [if_pos hnmem]
  have ho1 : (⟨o, true⟩ : Block) ∈ blocks1 := (hmem o).mpr (.inr ho)
  have hptr : userPtr c m o = userPtr c m1 o := by unfold userPtr; rw [hsame.heapPtr]
  set copied := (List.range (if size < rtAlign newsize c.alignSize then size
    else rtAlign newsize c.alignSize)).map fun i => m1.data (userPtr c m o + i) with hcopied
  have hfree := rtSmemFree_spec (hi1.withData (memcpy m1.data nmem copied)) ho1
  have hptr' : userPtr c { m1 with data := memcpy m1.data nmem copied } o = userPtr c m o := hptr.symm
  rw [hptr'] at hfree
  have hother : o' ≠ o := fun he => hnew (he ▸ ho)
  rcases hfree with ⟨hnull, hfree⟩ | ⟨m', hfree, hfrees, _, hnext'⟩
  · exact .inl ⟨hsame.self ▸ hnull, by rw [hfree]; rfl⟩
  · refine .inr ⟨(m', nmem), by rw [hfree]; rfl, ?_, fun _ => ?_, fun h => absurd h hnz, fun _ h => absurd h hnmem⟩
    · rw [hp]
      refine .moved hmem hnew ?_ hfrees
      exact ⟨hsame.self, hsame.heapPtr⟩
    · -- the new block is still used when the old one is free, and as large
      obtain ⟨blocks', hsame', hi', hmem'⟩ := hfrees
      have ho' : (⟨o', true⟩ : Block) ∈ blocks1 := (hmem o').mpr (.inl rfl)
      refine ⟨o', blocks', hi', (hmem' o').mpr ⟨hother, ho'⟩, ?_, ?_⟩
      · rw [hp]
        unfold userPtr
        rw [hsame'.heapPtr, hsame.heapPtr]
      · have hkeep : userSize c m' o' = userSize c m1 o' := by
          unfold userSize
          rw [hnext' o' ho' hother]
        rw [hkeep]
        exact (hup.trans (le_max_left _ _)).trans hroom1

/-! ## Initialisation -/

/-- The heap as `rt_smem_init` leaves it, whatever its size: one free block up to
the end marker, which points to itself. -/
structure Fresh (c : Board) (m : RtSmallMem) : Prop where
  even : m.self % 2 = 0
  self_lt : m.self < 2 ^ 32
  heapEnd_eq : m.heapEnd = m.memSizeAligned + c.sizeofStructMem
  inside : m.heapPtr + m.heapEnd + c.sizeofStructMem < 2 ^ 32
  heapPtr_dvd : c.alignSize ∣ m.heapPtr
  size_dvd : c.alignSize ∣ m.memSizeAligned
  first : m.item 0 = ⟨m.self, m.heapEnd, 0⟩
  last : m.item m.heapEnd = ⟨m.self + 1, m.heapEnd, m.heapEnd⟩
  lfree : m.lfree = 0
  used : m.used = 0

theorem Fresh.inv (h : Fresh c m) (hmin : c.minSizeAligned ≤ m.memSizeAligned) : Inv c m [⟨0, false⟩] := by
  have hM := c.minSizeAligned_pos
  have hend := h.heapEnd_eq
  refine ⟨⟨h.even, h.self_lt, hend, h.inside, h.heapPtr_dvd, h.size_dvd, hmin⟩,
    ⟨⟨h.first, trivial⟩, rfl, ⟨?_, trivial⟩, ?_, h.lfree, h.used, ?_⟩, .singleton _, ?_⟩
  · change 0 + (c.sizeofStructMem + 1) ≤ m.heapEnd
    omega
  · intro b hb
    rw [List.mem_singleton.mp hb]
    exact Nat.dvd_zero _
  · rw [h.last]
  · rw [h.used]
    exact Nat.zero_le _

/-- **`rt_smem_init`** makes one free block. -/
theorem rtSmemInit_fresh {beginAddr size : Nat} {item : Nat → RtSmallMemItem} {data : Nat → UInt8}
    (h : rtSmemInit c beginAddr size item data = some m) : Fresh c m := by
  have hS := c.sizeofStructMem_bounds
  have hk : c.alignBits ≤ 32 := c.le_word.trans (by decide)
  have hpow : c.alignSize ∣ 2 ^ 32 := pow_dvd_pow 2 hk
  unfold rtSmemInit at h
  simp only at h
  split at h
  case isFalse => cases h
  rename_i hcond
  obtain ⟨hlt, hstart⟩ := hcond
  set smallMem := rtAlign beginAddr c.alignSize with hsmall
  set startAddr := add32 smallMem c.sizeofSmallMem with hstartAddr
  set endAlign := rtAlignDown (add32 beginAddr size) c.alignSize with hendAlign
  -- the region ends at an aligned address, which leaves room to align its start
  have hendEq : endAlign = add32 beginAddr size - add32 beginAddr size % c.alignSize :=
    rtAlignDown_eq hk (add32_lt _ _)
  have hendDvd : c.alignSize ∣ endAlign := by rw [hendEq]; exact Nat.dvd_sub_mod _
  have hendLt : endAlign < 2 ^ 32 := by
    rw [hendEq]; exact lt_of_le_of_lt (Nat.sub_le _ _) (add32_lt _ _)
  have hendLe : endAlign + c.alignSize ≤ 2 ^ 32 := by
    have := Nat.le_of_dvd (by omega) (Nat.dvd_sub hpow hendDvd)
    omega
  have htwo : c.alignSize ∣ 2 * c.sizeofStructMem := Dvd.dvd.mul_left c.sizeofStructMem_dvd 2
  rw [sub32_of_le (le_of_lt hlt) hendLt] at hstart
  obtain ⟨hb1, hb2⟩ : startAddr ≤ rtAlign startAddr c.alignSize ∧
      rtAlign startAddr c.alignSize < startAddr + c.alignSize :=
    rtAlign_bounds hk (show startAddr + (c.alignSize - 1) < 2 ^ 32 by omega)
  have hbDvd : c.alignSize ∣ rtAlign startAddr c.alignSize := c.rtAlign_dvd _
  set beginAlign := rtAlign startAddr c.alignSize with hbegin
  have hbLe : beginAlign ≤ endAlign - 2 * c.sizeofStructMem := by
    by_contra hgt
    have hd : c.alignSize ∣ beginAlign - (endAlign - 2 * c.sizeofStructMem) :=
      Nat.dvd_sub hbDvd (Nat.dvd_sub hendDvd htwo)
    have := Nat.le_of_dvd (by omega) hd
    omega
  have hlen : sub32 endAlign beginAlign = endAlign - beginAlign := sub32_of_le (by omega) hendLt
  have hsize : sub32 (sub32 endAlign beginAlign) (2 * c.sizeofStructMem) =
      endAlign - beginAlign - 2 * c.sizeofStructMem := by
    rw [hlen, sub32_of_le (by omega) (by omega)]
  rw [hsize] at h
  set memSize := endAlign - beginAlign - 2 * c.sizeofStructMem with hmem
  have hadd : add32 memSize c.sizeofStructMem = memSize + c.sizeofStructMem :=
    add32_of_lt (by omega)
  rw [hadd] at h
  have hsmallDvd : c.alignSize ∣ smallMem := c.rtAlign_dvd _
  have heven : smallMem % 2 = 0 := by
    have : 2 ∣ smallMem := ((show 2 ∣ 4 by decide).trans c.four_dvd_alignSize).trans hsmallDvd
    omega
  have hsmallLt : smallMem < 2 ^ 32 := rtAlign_lt hk
  cases h
  refine ⟨heven, hsmallLt, rfl, ?_, hbDvd, ?_, ?_, ?_, rfl, rfl⟩
  · change beginAlign + (memSize + c.sizeofStructMem) + c.sizeofStructMem < 2 ^ 32
    omega
  · exact Nat.dvd_sub (Nat.dvd_sub hendDvd hbDvd) htwo
  · simp only [Function.update_of_ne (show (0 : Nat) ≠ memSize + c.sizeofStructMem by omega),
      Function.update_self, RtSmallMemItem.mk.injEq, and_true]
    refine memFreed_eq ?_ ?_
    · exact heven
    · exact hsmallLt
  · simp only [Function.update_self, RtSmallMemItem.mk.injEq, and_true]
    refine memUsed_eq ?_ ?_
    · exact heven
    · exact hsmallLt

theorem rtSmemInit_inv {beginAddr size : Nat} {item : Nat → RtSmallMemItem} {data : Nat → UInt8}
    (h : rtSmemInit c beginAddr size item data = some m)
    (hmin : c.minSizeAligned ≤ m.memSizeAligned) : Inv c m [⟨0, false⟩] := (rtSmemInit_fresh h).inv hmin

/-! ## Runs -/

inductive Op
  | alloc (size : Nat)
  | realloc (rmem newsize : Nat)
  | free (rmem : Nat)
  deriving DecidableEq, Repr

/-- A heap and the pointers the callers hold. -/
structure State where
  m : RtSmallMem
  live : Finset Nat

/-- The calls that may be made: only live pointers, or none, are given back. -/
def Valid (s : State) : Op → Prop
  | .alloc _ => True
  | .realloc rmem _ => rmem = 0 ∨ rmem ∈ s.live
  | .free rmem => rmem = 0 ∨ rmem ∈ s.live

/-- One call. A resize to a size that rounds up to nothing gives the block back;
one that returns `RT_NULL` for want of memory does not. -/
def step (c : Board) (s : State) : Op → Option State
  | .alloc size => do
    let (m, p) ← rtSmemAlloc c (enough s.m) s.m size
    return ⟨m, if p = 0 then s.live else insert p s.live⟩
  | .realloc rmem newsize => do
    let (m, p) ← rtSmemRealloc c (enough s.m) s.m rmem newsize
    return ⟨m, if p ≠ 0 then insert p (s.live.erase rmem)
      else if rtAlign newsize c.alignSize = 0 then s.live.erase rmem else s.live⟩
  | .free rmem => do
    let m ← rtSmemFree c s.m rmem
    return ⟨m, s.live.erase rmem⟩

/-- The live pointers are those of the used blocks. -/
def Live (c : Board) (s : State) (blocks : List Block) : Prop :=
  ∀ p, p ∈ s.live ↔ ∃ o, (⟨o, true⟩ : Block) ∈ blocks ∧ p = userPtr c s.m o

/-- The heap and the callers between two calls. -/
def Good (c : Board) (s : State) : Prop := ∃ blocks, Inv c s.m blocks ∧ Live c s blocks

variable {s s' : State}

theorem userPtr_ne_zero : userPtr c m o ≠ 0 := by
  have := c.sizeofStructMem_bounds.1
  unfold userPtr
  omega

theorem userPtr_inj {o' : Nat} (h : userPtr c m o = userPtr c m o') : o = o' := by
  unfold userPtr at h
  omega

theorem Same.userPtr (h : Same m m') : userPtr c m' o = userPtr c m o := by
  unfold SmallMem.userPtr
  rw [h.heapPtr]

theorem Live.of_same {live : Finset Nat} (hl : Lib.Tiling.Live (userPtr c m) live blocks) (hsame : Same m m') :
    Live c ⟨m', live⟩ blocks := fun p => by simpa only [hsame.userPtr] using hl p

theorem Allocs.good {r : RtSmallMem × Nat} (hi : Inv c s.m blocks) (hl : Live c s blocks)
    (ha : Allocs c s.m blocks r) : Good c ⟨r.1, if r.2 = 0 then s.live else insert r.2 s.live⟩ := by
  rcases ha with rfl | ⟨o, blocks', hp, hsame, hi', _, hmem⟩
  · exact ⟨blocks, hi, hl⟩
  · refine ⟨blocks', hi', ?_⟩
    rw [hp, if_neg userPtr_ne_zero]
    exact .of_same (Lib.Tiling.Live.insert hl hmem) hsame

theorem Frees.live (hl : Live c s blocks) (hf : Frees c s.m blocks o m') :
    ∃ blocks', Inv c m' blocks' ∧ Live c ⟨m', s.live.erase (userPtr c s.m o)⟩ blocks' := by
  obtain ⟨blocks', hsame, hi', hmem⟩ := hf
  exact ⟨blocks', hi', .of_same (Lib.Tiling.Live.erase (fun _ _ => userPtr_inj) hl hmem) hsame⟩

theorem Resizes.good {newsize : Nat} {r : RtSmallMem × Nat} (hi : Inv c s.m blocks)
    (hl : Live c s blocks) (ho : (⟨o, true⟩ : Block) ∈ blocks) (hr : Resizes c s.m blocks o newsize r) :
    Good c ⟨r.1, if r.2 ≠ 0 then insert r.2 (s.live.erase (userPtr c s.m o))
      else if rtAlign newsize c.alignSize = 0 then s.live.erase (userPtr c s.m o) else s.live⟩ := by
  cases hr with
  | failed hsize => exact ⟨blocks, hi, by simpa [hsize] using hl⟩
  | freed hsize hf =>
    obtain ⟨blocks', hi', hl'⟩ := Frees.live hl hf
    exact ⟨blocks', hi', by simpa [hsize] using hl'⟩
  | inPlace hk =>
    obtain ⟨blocks', hsame, hi', hmem⟩ := hk
    refine ⟨blocks', hi', fun p => ?_⟩
    have hmine : userPtr c s.m o ∈ s.live := (hl _).mpr ⟨o, ho, rfl⟩
    simp only [ne_eq, userPtr_ne_zero, not_false_eq_true, if_true, Finset.insert_erase hmine]
    rw [hl p]
    simp only [hmem, hsame.userPtr]
  | @moved m1 m' o' blocks1 hmem hnew hsame hf =>
    have hne : o' ≠ o := by rintro rfl; exact hnew ho
    -- the run in between: the new block is live, the old one not freed yet
    have hl1 : Live c ⟨m1, insert (userPtr c s.m o') s.live⟩ blocks1 :=
      .of_same (Lib.Tiling.Live.insert hl hmem) hsame
    obtain ⟨blocks', hi', hl'⟩ := Frees.live hl1 hf
    refine ⟨blocks', hi', ?_⟩
    have hptr : userPtr c s.m o' ≠ userPtr c s.m o := fun e => hne (userPtr_inj e)
    simp only [ne_eq, userPtr_ne_zero, not_false_eq_true, if_true]
    rw [hsame.userPtr, Finset.erase_insert_of_ne hptr] at hl'
    exact hl'

theorem rtSmemFree_null : rtSmemFree c m 0 = some m := if_pos rfl

theorem rtSmemRealloc_null (hi : Inv c m blocks) (newsize : Nat) :
    ∃ r, rtSmemRealloc c (enough m) m 0 newsize = some r ∧ Allocs c m blocks r := by
  simp only [rtSmemRealloc]
  split
  · exact ⟨_, rfl, .inl rfl⟩
  split
  · exact ⟨(m, 0), by rw [rtSmemFree_null]; rfl, .inl rfl⟩
  · exact rtSmemAlloc_spec hi _

theorem Live.erase_zero (hl : Live c s blocks) : s.live.erase 0 = s.live := by
  refine Finset.erase_eq_of_notMem fun h0 => ?_
  obtain ⟨o, _, he⟩ := (hl 0).mp h0
  exact userPtr_ne_zero he.symm

/-- **One valid call** keeps the heap good. It returns, unless the heap object lies
at the null address. -/
theorem step_good {op : Op} (hg : Good c s) (hv : Valid s op) :
    (s.m.self = 0 ∧ step c s op = none) ∨ ∃ s', step c s op = some s' ∧ Good c s' ∧ Same s.m s'.m := by
  obtain ⟨blocks, hi, hl⟩ := hg
  cases op with
  | alloc size =>
    obtain ⟨r, hr, ha⟩ := rtSmemAlloc_spec hi size
    refine .inr ⟨_, by simp only [step, hr, bind, bind_some]; rfl, ha.good hi hl, ?_⟩
    rcases ha with rfl | ⟨_, _, _, hsame, _⟩
    · exact ⟨rfl, rfl⟩
    · exact hsame
  | realloc rmem newsize =>
    rcases hv with rfl | hv
    · obtain ⟨r, hr, ha⟩ := rtSmemRealloc_null hi newsize
      refine .inr ⟨_, by simp only [step, hr, bind, bind_some]; rfl, ?_, ?_⟩
      · have := ha.good hi hl
        rw [hl.erase_zero, ite_self]
        by_cases hp : r.2 = 0
        · simpa [hp] using this
        · simpa [hp] using this
      · rcases ha with rfl | ⟨_, _, _, hsame, _⟩
        · exact ⟨rfl, rfl⟩
        · exact hsame
    · obtain ⟨o, ho, rfl⟩ := (hl rmem).mp hv
      rcases rtSmemRealloc_spec hi ho newsize with ⟨hnull, hr⟩ | ⟨r, hr, hres, _⟩
      · exact .inl ⟨hnull, by simp only [step, hr, bind, bind_none]⟩
      · refine .inr ⟨_, by simp only [step, hr, bind, bind_some]; rfl, hres.good hi hl ho, ?_⟩
        cases hres with
        | failed => exact ⟨rfl, rfl⟩
        | freed _ hf => exact hf.choose_spec.1
        | inPlace hk => exact hk.choose_spec.1
        | moved _ _ hsame hf => exact hsame.trans hf.choose_spec.1
  | free rmem =>
    rcases hv with rfl | hv
    · have hs : step c s (.free 0) = some s := by
        simp only [step, rtSmemFree_null, bind, bind_some, hl.erase_zero]
        rfl
      exact .inr ⟨s, hs, ⟨blocks, hi, hl⟩, rfl, rfl⟩
    · obtain ⟨o, ho, rfl⟩ := (hl rmem).mp hv
      rcases rtSmemFree_spec hi ho with ⟨hnull, hr⟩ | ⟨m', hr, hf, _⟩
      · exact .inl ⟨hnull, by simp only [step, hr, bind, bind_none]⟩
      · exact .inr ⟨⟨m', s.live.erase (userPtr c s.m o)⟩,
          by simp only [step, hr, bind, bind_some]; rfl, Frees.live hl hf,
          hf.choose_spec.1⟩

/-- The states reached from a new heap by valid calls that return. -/
inductive Reachable (c : Board) (start : RtSmallMem) : State → Prop
  | init : Reachable c start ⟨start, ∅⟩
  | step {s s' : State} (h : Reachable c start s) (op : Op) (hv : Valid s op)
      (hs : step c s op = some s') : Reachable c start s'

theorem Reachable.good {start : RtSmallMem} (hi : Inv c start [⟨0, false⟩])
    (h : Reachable c start s) : Good c s := by
  induction h with
  | init => exact ⟨_, hi, by simp [Live]⟩
  | step _ op hv hs ih =>
    rcases step_good ih hv with ⟨_, hn⟩ | ⟨s', he, hg, _⟩
    · rw [hs] at hn
      cases hn
    · rw [hs] at he
      cases he
      exact hg

/-- The offsets met by following `next` from 0 to `heap_end` increase; each block points back to the one before
it; no two neighbours are free; `lfree` is the lowest free block, or `heap_end`; and `used` is the sum of the
sizes of the used blocks. -/
def Consistent (m : RtSmallMem) : Prop :=
  ∃ offs : List Nat, offs.head? = some 0 ∧
    (offs ++ [m.heapEnd]).IsChain (fun a b => (m.item a).next = b ∧ a < b) ∧
    (m.item 0).prev = 0 ∧ offs.IsChain (fun a b => (m.item b).prev = a) ∧
    offs.IsChain (fun a b => memIsused (m.item a) = true ∨ memIsused (m.item b) = true) ∧
    m.lfree = (offs.find? fun a => ¬ memIsused (m.item a)).getD m.heapEnd ∧
    m.used = ((offs.filter fun a => memIsused (m.item a)).map fun a => (m.item a).next - a).sum ∧
    m.used ≤ m.max

section Reading
variable {item : Nat → RtSmallMemItem} {pool p h e : Nat}

theorem Laid.next_chain : ∀ {l : List Block} {p : Nat}, Laid item pool p l e → Spaced (h + 1) l e →
    (l.map Block.off ++ [e]).IsChain (fun a b => (item a).next = b ∧ a < b)
  | [], _, _, _ => .singleton e
  | b :: l, p, hl, hs => by
    have ih := hl.2.next_chain hs.2
    have hroom := hs.1
    rw [List.map_cons, cons_append, isChain_cons]
    refine ⟨fun y hy => ?_, ih⟩
    rw [hl.1]
    cases l with
    | nil =>
      simp only [map_nil, nil_append, List.head?_cons, mem_some_iff] at hy
      subst hy
      exact ⟨rfl, by rw [start_nil] at hroom; omega⟩
    | cons b' l =>
      simp only [List.map_cons, cons_append, List.head?_cons, mem_some_iff] at hy
      subst hy
      exact ⟨rfl, by rw [start_cons] at hroom; omega⟩

theorem Laid.prev_chain : ∀ {l : List Block} {p : Nat}, Laid item pool p l e →
    (p :: l.map Block.off).IsChain (fun a b => (item b).prev = a)
  | [], p, _ => .singleton p
  | b :: l, p, hl => by
    rw [List.map_cons, isChain_cons_cons]
    exact ⟨by rw [hl.1], hl.2.prev_chain⟩

end Reading

section Reading
variable (heven : m.self % 2 = 0) {p : Nat}
include heven

theorem Laid.used_iff (hl : Laid m.item m.self p blocks m.heapEnd) {b : Block} (hb : b ∈ blocks) :
    memIsused (m.item b.off) = b.used := by
  obtain ⟨next, prev, hit⟩ := hl.mem hb
  rw [hit, memIsused_eq heven]

theorem Laid.lowest : ∀ {l : List Block} {p : Nat}, Laid m.item m.self p l m.heapEnd →
    firstFree l m.heapEnd =
      ((l.map Block.off).find? fun a => ¬ memIsused (m.item a)).getD m.heapEnd
  | [], _, _ => rfl
  | ⟨o, used⟩ :: l, p, hl => by
    have hu := Laid.used_iff heven hl (List.mem_cons_self ..)
    have ih := Laid.lowest hl.2
    cases used with
    | true => simp [firstFree, hu, ih]
    | false => simp [firstFree, hu]

theorem Laid.usedSum_eq : ∀ {l : List Block} {p : Nat}, Laid m.item m.self p l m.heapEnd →
    usedSum l m.heapEnd =
      (((l.map Block.off).filter fun a => memIsused (m.item a)).map fun a =>
        (m.item a).next - a).sum
  | [], _, _ => rfl
  | ⟨o, used⟩ :: l, p, hl => by
    have hu := Laid.used_iff heven hl (List.mem_cons_self ..)
    have ih := Laid.usedSum_eq hl.2
    have hn : (m.item o).next = start l m.heapEnd := by rw [hl.1]
    cases used with
    | true => simp [hu, ih, hn]
    | false => simp [hu, ih]

end Reading

theorem Inv.consistent (hi : Inv c m blocks) : Consistent m := by
  have ht := hi.tiles
  have heven := hi.fixed.even
  have hend := hi.fixed.heapEnd_eq
  have hS := c.sizeofStructMem_bounds.1
  obtain ⟨used, l, rfl⟩ : ∃ used l, blocks = ⟨0, used⟩ :: l := by
    have hfirst := ht.first
    rcases blocks with _ | ⟨⟨o, used⟩, l⟩
    · rw [start_nil] at hfirst
      omega
    · obtain rfl : o = 0 := hfirst
      exact ⟨used, l, rfl⟩
  refine ⟨(⟨0, used⟩ :: l : List Block).map Block.off, rfl, ht.laid.next_chain ht.spaced, ?_, ?_, ?_,
    ht.lfree.trans (Laid.lowest heven ht.laid), ht.used.trans (Laid.usedSum_eq heven ht.laid), hi.max⟩
  · rw [ht.laid.1]
  · exact List.IsChain.tail ht.laid.prev_chain
  · rw [isChain_map]
    refine List.IsChain.imp_of_mem_imp (fun a b ha hb hab => ?_) hi.merged
    rw [Laid.used_iff heven ht.laid ha, Laid.used_iff heven ht.laid hb]
    exact hab

/-- **The small memory heap stays consistent** in every state that valid calls reach from a heap with room for
the smallest block; and every further valid call returns, unless the heap object was placed at the null address.
-/
theorem smem_consistent {beginAddr size : Nat} {item : Nat → RtSmallMemItem} {data : Nat → UInt8}
    {start : RtSmallMem} (hinit : rtSmemInit c beginAddr size item data = some start)
    (hmin : c.minSizeAligned ≤ start.memSizeAligned) (h : Reachable c start s) :
    Consistent s.m ∧ (s.m.self ≠ 0 → ∀ op, Valid s op → ∃ s', step c s op = some s') := by
  have hg := h.good (rtSmemInit_inv hinit hmin)
  have ⟨_, hi, _⟩ := hg
  refine ⟨hi.consistent, fun hself op hv => ?_⟩
  rcases step_good hg hv with ⟨hnull, _⟩ | ⟨s', hs, _⟩
  · exact absurd hnull hself
  · exact ⟨s', hs⟩

/-- A board with words as the alignment. -/
def smallBoard : Board := ⟨align4, false, 56⟩

/-- Memory that holds nothing in particular. -/
def blank : Nat → RtSmallMemItem := fun _ => ⟨0, 0, 0⟩

/-- The heap of 116 bytes. -/
theorem smallHeap : ∃ start, rtSmemInit smallBoard 4096 196 blank (fun _ => 0) = some start ∧
    smallBoard.minSizeAligned ≤ start.memSizeAligned := ⟨_, rfl, by decide⟩

/-- A block is taken from a heap of 116 bytes and given back. -/
theorem smem_consistent_small : ∃ start s1 s2, rtSmemInit smallBoard 4096 196 blank (fun _ => 0) = some start ∧
    step smallBoard ⟨start, ∅⟩ (.alloc 20) = some s1 ∧ step smallBoard s1 (.free 4164) = some s2 ∧
    Consistent s2.m := by
  obtain ⟨start, hinit, hmin⟩ := smallHeap
  obtain ⟨s1, h1, hl1⟩ : ∃ s1, step smallBoard ⟨start, ∅⟩ (.alloc 20) = some s1 ∧ 4164 ∈ s1.live := by
    cases hinit
    exact ⟨_, rfl, by decide⟩
  have hr1 : Reachable smallBoard start s1 := .step .init (.alloc 20) trivial h1
  have hself : s1.m.self ≠ 0 := by
    cases hinit
    cases h1
    decide
  have hv : Valid s1 (.free 4164) := .inr hl1
  obtain ⟨s2, h2⟩ := (smem_consistent hinit hmin hr1).2 hself _ hv
  exact ⟨start, s1, s2, hinit, h1, h2, (smem_consistent hinit hmin (hr1.step _ hv h2)).1⟩

/-- **No memory is lost.** Whenever the callers have given every block back, the heap is one free block. -/
theorem smem_recovers {beginAddr size : Nat} {item : Nat → RtSmallMemItem} {data : Nat → UInt8}
    {start : RtSmallMem} (hinit : rtSmemInit c beginAddr size item data = some start)
    (hmin : c.minSizeAligned ≤ start.memSizeAligned) (h : Reachable c start s) (hempty : s.live = ∅) :
    s.m.item 0 = ⟨s.m.self, s.m.heapEnd, 0⟩ ∧ s.m.lfree = 0 ∧ s.m.used = 0 := by
  obtain ⟨blocks, hi, hl⟩ := h.good (rtSmemInit_inv hinit hmin)
  have ht := hi.tiles
  have hend := hi.fixed.heapEnd_eq
  have hS := c.sizeofStructMem_bounds.1
  obtain rfl := Live.whole hl hempty hi.merged ht.first (by omega)
  exact ⟨ht.laid.1, ht.lfree, ht.used⟩

/-- A block is taken, moved behind itself and given back. -/
theorem smem_recovers_small : ∃ start s1 s2 s3, rtSmemInit smallBoard 4096 196 blank (fun _ => 0) = some start ∧
    step smallBoard ⟨start, ∅⟩ (.alloc 20) = some s1 ∧ step smallBoard s1 (.realloc 4164 40) = some s2 ∧
    step smallBoard s2 (.free 4196) = some s3 ∧ s2.live = {4196} ∧
    s3.m.item 0 = ⟨s3.m.self, s3.m.heapEnd, 0⟩ ∧ s3.m.lfree = 0 ∧ s3.m.used = 0 := by
  obtain ⟨start, hinit, hmin⟩ := smallHeap
  obtain ⟨s1, h1, hl1⟩ : ∃ s1, step smallBoard ⟨start, ∅⟩ (.alloc 20) = some s1 ∧ 4164 ∈ s1.live := by
    cases hinit
    exact ⟨_, rfl, by decide⟩
  obtain ⟨s2, h2, hl2⟩ : ∃ s2, step smallBoard s1 (.realloc 4164 40) = some s2 ∧ s2.live = {4196} := by
    cases hinit
    cases h1
    exact ⟨_, rfl, by decide⟩
  have hr2 : Reachable smallBoard start s2 :=
    (Reachable.init.step (.alloc 20) trivial h1).step (.realloc 4164 40) (.inr hl1) h2
  have hv : Valid s2 (.free 4196) := .inr (by simp [hl2])
  obtain ⟨s3, h3, hempty⟩ : ∃ s3, step smallBoard s2 (.free 4196) = some s3 ∧ s3.live = ∅ := by
    cases hinit
    cases h1
    cases h2
    exact ⟨_, rfl, by decide⟩
  exact ⟨start, s1, s2, s3, hinit, h1, h2, h3, hl2, smem_recovers hinit hmin (hr2.step _ hv h3) hempty⟩

end RtosKernel.RtThread.SmallMem
