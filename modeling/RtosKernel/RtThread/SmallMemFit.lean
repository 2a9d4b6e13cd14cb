import RtosKernel.RtThread.SmallMemRuns

/-! # What `rt_smem_alloc` finds, and whether it returns

In a heap with room for the smallest block the call is a complete first fit. In
a smaller one, which `rt_smem_init` makes as well, the size is raised above the
capacity after the check: the bound of the search wraps, and the search goes
round on the end marker, whose `next` is itself. -/
namespace RtosKernel.RtThread.SmallMem
open Lib.Word Lib.Tiling RtThread.Def Option

variable {c : Board} {m m' : RtSmallMem} {pre post rest blocks : List Block} {o size : Nat}

/-! ## First fit -/

theorem Tiles.next_eq {b : Block} (ht : Tiles c m (pre ++ b :: post)) :
    (m.item b.off).next = start post m.heapEnd := by rw [ht.middle.header]

theorem Tiles.next_keep {b : Block} (ht : Tiles c m (pre ++ ⟨o, false⟩ :: post))
    (ht' : Tiles c m' (pre ++ ⟨o, true⟩ :: rest)) (hend : m'.heapEnd = m.heapEnd)
    (hrest : rest = post ∨ ∃ n, rest = ⟨n, false⟩ :: post) (hb : b ∈ pre ∨ b ∈ post) :
    (m'.item b.off).next = (m.item b.off).next := by
  rcases hb with hb | hb
  · obtain ⟨l, r, rfl⟩ := List.append_of_mem hb
    rw [List.append_assoc, List.cons_append] at ht ht'
    rw [ht.next_eq, ht'.next_eq, start_append, start_append]
    rfl
  · obtain ⟨l, r, rfl⟩ := List.append_of_mem hb
    have hold : Tiles c m ((pre ++ ⟨o, false⟩ :: l) ++ b :: r) := by simpa using ht
    rw [hold.next_eq, ← hend]
    rcases hrest with rfl | ⟨n, rfl⟩
    · have hnew : Tiles c m' ((pre ++ ⟨o, true⟩ :: l) ++ b :: r) := by simpa using ht'
      exact hnew.next_eq
    · have hnew : Tiles c m' ((pre ++ ⟨o, true⟩ :: ⟨n, false⟩ :: l) ++ b :: r) := by simpa using ht'
      exact hnew.next_eq

theorem isLeast_fits {need : Nat} (hi : Inv c m (pre ++ ⟨o, false⟩ :: post))
    (hfits : Fits c m (pre ++ ⟨o, false⟩ :: post) need o)
    (hbefore : ∀ b ∈ pre, ¬ Fits c m (pre ++ ⟨o, false⟩ :: post) need b.off) :
    IsLeast {x | Fits c m (pre ++ ⟨o, false⟩ :: post) need x} o := by
  refine ⟨hfits, fun x hx => ?_⟩
  rcases List.mem_append.mp hx.1 with hb | hb
  · exact absurd hx (hbefore _ hb)
  · exact (spaced_append.mp hi.tiles.spaced).2.start_le_off hb

/-- **`rt_smem_alloc` is a complete first fit.** It returns `RT_NULL`, with the heap as it was, exactly if no
free block has room for the rounded size, and otherwise the aligned memory of the lowest block that has; every
other used block keeps its extent. -/
theorem rtSmemAlloc_complete {fuel : Nat} (hi : Inv c m blocks) (hpos : 0 < size)
    (hle : size ≤ m.memSizeAligned) (hfuel : enough m ≤ fuel) :
    ∃ m' p, rtSmemAlloc c fuel m size = some (m', p) ∧
      (p = 0 ↔ ∀ o, ¬ Fits c m blocks (need c size) o) ∧ (p = 0 → m' = m) ∧
      (p ≠ 0 → c.alignSize ∣ p ∧ ∃ o blocks', IsLeast {x | Fits c m blocks (need c size) x} o ∧
        p = userPtr c m o ∧ Inv c m' blocks' ∧ ⟨o, true⟩ ∈ blocks' ∧ size ≤ userSize c m' o ∧
        ∀ x, ⟨x, true⟩ ∈ blocks → ⟨x, true⟩ ∈ blocks' ∧ (m'.item x).next = (m.item x).next) := by
  obtain ⟨hup, hround⟩ := hi.fixed.rtAlign_le hle
  obtain ⟨r, hr, hfit⟩ := rtSmemAlloc_firstFit hi (Nat.ne_of_gt hpos) hround hfuel
  cases hfit with
  | none hnone => exact ⟨m, 0, hr, iff_of_true rfl hnone, fun _ => rfl, fun h => absurd rfl h⟩
  | @found pre post rest o m' hblocks hfits hbefore hrest hroom hsame hend hinv =>
    subst hblocks
    have hlow := isLeast_fits hi hfits hbefore
    have hsize : size ≤ userSize c m' o := by
      have hneed : size ≤ need c size := hup.trans (le_max_left _ _)
      rw [hinv.tiles.middle.userSize, hend]
      simp only
      omega
    refine ⟨m', _, hr, iff_of_false userPtr_ne_zero (fun h => h o hfits),
      fun h => absurd h userPtr_ne_zero, fun _ => ⟨userPtr_dvd hi hfits.1, o, _, hlow, rfl, hinv,
        by simp, hsize, fun x hx => ?_⟩⟩
    have hx' : (⟨x, true⟩ : Block) ∈ pre ∨ (⟨x, true⟩ : Block) ∈ post := by simpa using hx
    refine ⟨?_, hi.tiles.next_keep hinv.tiles hend hrest hx'⟩
    rcases hx' with hb | hb
    · simp [hb]
    · rcases hrest with rfl | ⟨n, rfl⟩ <;> simp [hb]

/-- In a heap of 116 bytes there is room for 20, in its first block. -/
theorem rtSmemAlloc_complete_small : ∃ start m' p, rtSmemInit smallBoard 4096 196 blank (fun _ => 0) = some start ∧
    rtSmemAlloc smallBoard (enough start) start 20 = some (m', p) ∧ p = 4164 ∧
    4 ∣ p ∧ 20 ≤ userSize smallBoard m' 0 := by
  obtain ⟨start, hinit, hmin⟩ := smallHeap
  have hi : Inv smallBoard start [⟨0, false⟩] := rtSmemInit_inv hinit hmin
  have hle : 20 ≤ start.memSizeAligned := by
    cases hinit
    decide
  have hfits : Fits smallBoard start [⟨0, false⟩] (need smallBoard 20) 0 := by
    cases hinit
    exact ⟨by simp, by decide⟩
  have haddr : userPtr smallBoard start 0 = 4164 := by
    cases hinit
    decide
  obtain ⟨m', p, hr, hnull, _, hp⟩ := rtSmemAlloc_complete hi (by decide) hle (le_refl _)
  obtain ⟨hdvd, o, blocks', hleast, hptr, _, _, hsize, _⟩ := hp fun h0 => hnull.mp h0 0 hfits
  obtain rfl : o = 0 := by simpa using hleast.1.1
  have hval : p = 4164 := hptr.trans haddr
  exact ⟨start, m', p, hinit, hr, hval, hdvd, hsize⟩

/-! ## Whether the search ends -/

/-- In a heap that has no room for the smallest block the search goes from the free
block to the end marker, and from there to the end marker again. -/
theorem Fresh.allocLoop_spins (h : Fresh c m) (hsmall : m.memSizeAligned < c.minSizeAligned) :
    ∀ {fuel ptr : Nat}, ptr = 0 ∨ ptr = m.heapEnd → allocLoop c m c.minSizeAligned fuel ptr = none
  | 0, _, _ => rfl
  | fuel + 1, ptr, hptr => by
    have hS := c.sizeofStructMem_bounds
    have hM := c.minSizeAligned_le
    have hend := h.heapEnd_eq
    -- the bound wraps: the raised size is above the capacity
    have hbound : ptr ≤ sub32 m.memSizeAligned c.minSizeAligned := by
      unfold sub32
      omega
    have hnext : (m.item ptr).next = m.heapEnd := by
      rcases hptr with rfl | rfl
      · rw [h.first]
      · rw [h.last]
    have hno : ¬ (¬ memIsused (m.item ptr) = true ∧
        c.minSizeAligned ≤ sub32 (m.item ptr).next (add32 ptr c.sizeofStructMem)) := by
      rintro ⟨hfree, hfit⟩
      rcases hptr with rfl | rfl
      · rw [hnext, add32_of_lt (by omega), sub32_of_le (by omega) (by omega)] at hfit
        omega
      · rw [h.last] at hfree
        exact hfree (memIsused_eq h.even true _ _)
    rw [allocLoop, if_pos hbound, if_neg hno, hnext]
    exact h.allocLoop_spins hsmall (.inr rfl)

theorem Fresh.alloc_spins (h : Fresh c m) (hsmall : m.memSizeAligned < c.minSizeAligned)
    (hsize : size ≠ 0) (hle : rtAlign size c.alignSize ≤ m.memSizeAligned) (fuel : Nat) :
    rtSmemAlloc c fuel m size = none := by
  have hraise : rtAlign size c.alignSize < c.minSizeAligned := by omega
  simp only [rtSmemAlloc, if_neg hsize, if_neg (Nat.not_lt.mpr hle), if_pos hraise]
  rw [h.lfree]
  exact h.allocLoop_spins hsmall (.inl rfl)

variable {r : RtSmallMem × Nat}

theorem Fresh.alloc_null (h : Fresh c m) (hsmall : m.memSizeAligned < c.minSizeAligned) {fuel : Nat}
    (hr : rtSmemAlloc c fuel m size = some r) : r = (m, 0) := by
  by_cases hsize : size = 0
  · rw [rtSmemAlloc, if_pos hsize] at hr
    exact (some.inj hr).symm
  by_cases hle : rtAlign size c.alignSize ≤ m.memSizeAligned
  · rw [h.alloc_spins hsmall hsize hle] at hr
    cases hr
  · simp only [rtSmemAlloc, if_neg hsize, if_pos (Nat.lt_of_not_le hle)] at hr
    exact (some.inj hr).symm

theorem Fresh.realloc_null (h : Fresh c m) (hsmall : m.memSizeAligned < c.minSizeAligned) {fuel : Nat}
    (hr : rtSmemRealloc c fuel m 0 size = some r) : r = (m, 0) := by
  simp only [rtSmemRealloc] at hr
  split at hr
  · exact (some.inj hr).symm
  split at hr
  · exact (some.inj hr).symm
  · exact h.alloc_null hsmall hr

variable {start : RtSmallMem} {s : State}

theorem Fresh.reachable (hf : Fresh c start) (hsmall : start.memSizeAligned < c.minSizeAligned)
    (h : Reachable c start s) : s = ⟨start, ∅⟩ := by
  induction h with
  | init => rfl
  | step _ op hv hs ih =>
    subst ih
    cases op with
    | alloc size =>
      obtain ⟨⟨m', p⟩, hr, hs⟩ := bind_eq_some_iff.mp hs
      cases hf.alloc_null hsmall hr
      exact (some.inj hs).symm
    | realloc rmem newsize =>
      obtain rfl : rmem = 0 := by simpa [Valid] using hv
      obtain ⟨⟨m', p⟩, hr, hs⟩ := bind_eq_some_iff.mp hs
      cases hf.realloc_null hsmall hr
      simpa using (some.inj hs).symm
    | free rmem =>
      obtain rfl : rmem = 0 := by simpa [Valid] using hv
      simpa using (some.inj hs).symm

/-- **Exactly when `rt_smem_alloc` returns.** On a heap of whatever size, the call returns just if it is asked
for nothing, if its check turns the size down, or if the heap has room for the smallest block. -/
theorem rtSmemAlloc_returns_iff {beginAddr len : Nat} {item : Nat → RtSmallMemItem} {data : Nat → UInt8}
    (hinit : rtSmemInit c beginAddr len item data = some start) (h : Reachable c start s) (size : Nat) :
    (∃ fuel r, rtSmemAlloc c fuel s.m size = some r) ↔
      size = 0 ∨ start.memSizeAligned < rtAlign size c.alignSize ∨
        c.minSizeAligned ≤ start.memSizeAligned := by
  by_cases hmin : c.minSizeAligned ≤ start.memSizeAligned
  · obtain ⟨blocks, hi, _⟩ := h.good (rtSmemInit_inv hinit hmin)
    obtain ⟨r, hr, _⟩ := rtSmemAlloc_spec hi size
    exact iff_of_true ⟨_, r, hr⟩ (.inr (.inr hmin))
  have hfresh := rtSmemInit_fresh hinit
  have hsmall := Nat.lt_of_not_le hmin
  obtain rfl := hfresh.reachable hsmall h
  constructor
  · rintro ⟨fuel, r, hr⟩
    by_contra hno
    push Not at hno
    rw [hfresh.alloc_spins hsmall hno.1 hno.2.1 fuel] at hr
    cases hr
  · rintro (hzero | hbig | hmin')
    · exact ⟨0, _, if_pos hzero⟩
    · by_cases hzero : size = 0
      · exact ⟨0, _, if_pos hzero⟩
      · exact ⟨0, (start, 0), by simp only [rtSmemAlloc, if_neg hzero, if_pos hbig]⟩
    · exact absurd hmin' hmin

/-- In the heap of 116 bytes the call returns. -/
theorem rtSmemAlloc_returns_small : ∃ start, rtSmemInit smallBoard 4096 196 blank (fun _ => 0) = some start ∧
    ∃ fuel r, rtSmemAlloc smallBoard fuel start 4 = some r := by
  obtain ⟨start, hinit, hmin⟩ := smallHeap
  exact ⟨start, hinit, (rtSmemAlloc_returns_iff hinit .init 4).mpr (.inr (.inr hmin))⟩

/-- `rt_smem_init` accepts 88 bytes, of which 8 are left for blocks: a call for 4
passes the check, and never returns. -/
theorem rtSmemAlloc_spins_small : ∃ start, rtSmemInit smallBoard 4096 88 blank (fun _ => 0) = some start ∧
    Reachable smallBoard start ⟨start, ∅⟩ ∧ start.memSizeAligned = 8 ∧ ¬ ∃ fuel r, rtSmemAlloc smallBoard fuel start 4 = some r := by
  obtain ⟨start, hinit⟩ : ∃ m, rtSmemInit smallBoard 4096 88 blank (fun _ => 0) = some m := ⟨_, rfl⟩
  have hsize : start.memSizeAligned = 8 := by
    cases hinit
    rfl
  refine ⟨start, hinit, .init, hsize, ?_⟩
  rintro ⟨fuel, r, hr⟩
  have hspin := (rtSmemInit_fresh hinit).alloc_spins (by rw [hsize]; decide) (show 4 ≠ 0 by decide)
    (by rw [hsize]; decide) fuel
  rw [hspin] at hr
  cases hr

/-! ## Whether the memory is as large as what was asked for -/

/-- The headers and the counters are as they were. -/
structure Unchanged (m m' : RtSmallMem) : Prop where
  item : m'.item = m.item
  lfree : m'.lfree = m.lfree
  used : m'.used = m.used
  max : m'.max = m.max

/-- A result that keeps the promise: a pointer is that of a used block with room for
`size` bytes, and `RT_NULL` means that nothing has changed. -/
def Sound (c : Board) (m : RtSmallMem) (size : Nat) (r : RtSmallMem × Nat) : Prop :=
  Served c size r ∧ (r.2 = 0 → Unchanged m r.1)

theorem sound_null : Sound c m size (m, 0) := ⟨fun h => absurd rfl h, fun _ => ⟨rfl, rfl, rfl, rfl⟩⟩

theorem FirstFit.sound {need : Nat} (hi : Inv c m blocks)
    (h : FirstFit c m blocks need r) (hneed : size ≤ need) : Sound c m size r := by
  rcases h.cases hi with rfl | ⟨o, blocks', hp, hsame, hi', _, hmem, hroom⟩
  · exact sound_null
  · refine ⟨fun _ => ⟨o, blocks', hi', (hmem o).mpr (.inl rfl), ?_, hneed.trans hroom⟩, fun h0 => ?_⟩
    · rw [hp, hsame.userPtr]
    · exact absurd (hp ▸ h0) userPtr_ne_zero

theorem Inv.userSize_lt (hi : Inv c m blocks) {used : Bool} (hb : (⟨o, used⟩ : Block) ∈ blocks)
    (hwrap : 2 ^ 32 ≤ size + (c.alignSize - 1)) : userSize c m o < size := by
  have hle : o + userSize c m o ≤ m.memSizeAligned := hi.userSize_le hb
  have hin := hi.fixed.inside
  have heq := hi.fixed.heapEnd_eq
  have hS := c.sizeofStructMem_bounds.1
  have halign := Nat.le_of_dvd (by omega) c.sizeofStructMem_dvd
  omega

theorem Reachable.self {start : RtSmallMem} {s : State} (hi : Inv c start [⟨0, false⟩])
    (h : Reachable c start s) : s.m.self = start.self := by
  induction h with
  | init => rfl
  | step hr op hv hs ih =>
    rcases step_good (hr.good hi) hv with ⟨_, hn⟩ | ⟨s', he, _, hsame⟩
    · rw [hs] at hn
      cases hn
    · rw [hs] at he
      cases he
      exact hsame.self.trans ih

section Sizes
variable {beginAddr len rmem : Nat} {item : Nat → RtSmallMemItem} {data : Nat → UInt8}
  {start : RtSmallMem} {s : State}

/-- A size that `rt_smem_alloc` serves: it is rounded up, or wraps where no free block has room for even the
smallest one. -/
def AllocOk (c : Board) (m : RtSmallMem) (size : Nat) : Prop :=
  size ≤ rtAlign size c.alignSize ∨
    ∀ blocks, Inv c m blocks → ∀ o, ¬ Fits c m blocks c.minSizeAligned o

/-- A size that `rt_smem_realloc` serves: it is rounded up, or there is no block. -/
def ReallocOk (c : Board) (rmem size : Nat) : Prop := size ≤ rtAlign size c.alignSize ∨ rmem = 0

/-- **When `rt_smem_alloc` hands out what was asked for**, which is at least a byte. -/
theorem rtSmemAlloc_sound (hinit : rtSmemInit c beginAddr len item data = some start)
    (h : Reachable c start s) (hpos : 0 < size) (hlt : size < 2 ^ 32) :
    (∀ r, rtSmemAlloc c (enough s.m) s.m size = some r → Sound c s.m size r) ↔ AllocOk c s.m size := by
  have hsize := Nat.ne_of_gt hpos
  by_cases hmin : c.minSizeAligned ≤ start.memSizeAligned
  case neg =>
    have hfresh := rtSmemInit_fresh hinit
    have hsmall := Nat.lt_of_not_le hmin
    obtain rfl := hfresh.reachable hsmall h
    refine iff_of_true (fun r hr => ?_) (.inr fun blocks hi => absurd hi.fixed.minSize_le hmin)
    obtain rfl := hfresh.alloc_null hsmall hr
    exact sound_null
  obtain ⟨blocks, hi, _⟩ := h.good (rtSmemInit_inv hinit hmin)
  constructor
  · intro hsound
    rcases c.rtAlign_cases hlt with hup | ⟨hwrap, hzero⟩
    · exact .inl hup
    refine .inr fun blocks hi o hfits => ?_
    -- the size is raised from nothing to the smallest one, and a block is taken for it
    obtain ⟨r, hr, hfit⟩ := rtSmemAlloc_firstFit hi hsize (by rw [hzero]; exact Nat.zero_le _) (le_refl _)
    have hneed : need c size = c.minSizeAligned := by rw [need, hzero, Nat.zero_max]
    rw [hneed] at hfit
    have hp : r.2 ≠ 0 := by
      cases hfit with
      | none hnone => exact absurd hfits (hnone o)
      | found => exact userPtr_ne_zero
    obtain ⟨o', blocks', hi', ho', _, hroom⟩ := (hsound r hr).1 hp
    have := hi'.userSize_lt ho' hwrap
    omega
  · intro hcond r hr
    by_cases hle : rtAlign size c.alignSize ≤ s.m.memSizeAligned
    case neg =>
      simp only [rtSmemAlloc, if_neg hsize, if_pos (Nat.lt_of_not_le hle)] at hr
      cases hr
      exact sound_null
    obtain ⟨r', hr', hfit⟩ := rtSmemAlloc_firstFit hi hsize hle (le_refl _)
    rw [hr] at hr'
    cases hr'
    rcases c.rtAlign_cases hlt with hup | ⟨_, hzero⟩
    · exact hfit.sound hi (hup.trans (le_max_left _ _))
    · have hneed : need c size = c.minSizeAligned := by rw [need, hzero, Nat.zero_max]
      rw [hneed] at hfit
      cases hfit with
      | none => exact sound_null
      | @found _ _ _ o _ _ hfits =>
        rcases hcond with hup | hnone
        · omega
        · exact absurd hfits (hnone _ hi o)

theorem rtSmemRealloc_null_sound (hi : Inv c m blocks) (hlt : size < 2 ^ 32)
    (hr : rtSmemRealloc c (enough m) m 0 size = some r) : Sound c m size r := by
  simp only [rtSmemRealloc] at hr
  split at hr
  · cases hr
    exact sound_null
  rename_i hle
  split at hr
  · cases hr
    exact sound_null
  rename_i hnz
  obtain ⟨hup, hround⟩ := hi.fixed.rtAlign_le (Nat.le_of_not_lt hle)
  obtain ⟨r', hr', hfit⟩ := rtSmemAlloc_firstFit hi hnz hround (le_refl _)
  change rtSmemAlloc c (enough m) m (rtAlign size c.alignSize) = some r at hr
  rw [hr] at hr'
  cases hr'
  have hsize : size ≤ rtAlign size c.alignSize :=
    (c.rtAlign_cases hlt).resolve_right fun hwrap => hnz hwrap.2
  exact hfit.sound hi (hsize.trans (hup.trans (le_max_left _ _)))

/-- **When `rt_smem_realloc` hands out what was asked for.** A size that wraps gives a
live block back instead of resizing it. -/
theorem rtSmemRealloc_sound (hinit : rtSmemInit c beginAddr len item data = some start)
    (hself : start.self ≠ 0) (h : Reachable c start s) (hv : Valid s (.realloc rmem size))
    (hpos : 0 < size) (hlt : size < 2 ^ 32) :
    (∀ r, rtSmemRealloc c (enough s.m) s.m rmem size = some r → Sound c s.m size r) ↔
      ReallocOk c rmem size := by
  by_cases hmin : c.minSizeAligned ≤ start.memSizeAligned
  case neg =>
    have hfresh := rtSmemInit_fresh hinit
    have hsmall := Nat.lt_of_not_le hmin
    obtain rfl := hfresh.reachable hsmall h
    obtain rfl : rmem = 0 := by simpa [Valid] using hv
    refine iff_of_true (fun r hr => ?_) (.inr rfl)
    obtain rfl := hfresh.realloc_null hsmall hr
    exact sound_null
  have hi0 := rtSmemInit_inv hinit hmin
  obtain ⟨blocks, hi, hl⟩ := h.good hi0
  rcases hv with rfl | hv
  · exact iff_of_true (fun r hr => rtSmemRealloc_null_sound hi hlt hr) (.inr rfl)
  obtain ⟨o, ho, rfl⟩ := (hl rmem).mp hv
  obtain ⟨r, hr, _, hserved, hfreed, hfailed⟩ := (rtSmemRealloc_spec hi ho size).resolve_left
    fun hnull => hself (h.self hi0 ▸ hnull.1)
  constructor
  · intro hsound
    rcases c.rtAlign_cases hlt with hup | ⟨_, hzero⟩
    · exact .inl hup
    · obtain ⟨hp, hused⟩ := hfreed hzero
      have := ((hsound r hr).2 hp).used
      omega
  · rintro (hup | h0)
    · intro r' hr'
      rw [hr] at hr'
      cases hr'
      refine ⟨fun hp => ?_, fun hp => ?_⟩
      · obtain ⟨o', blocks', hi', ho', hptr, hroom⟩ := hserved hp
        exact ⟨o', blocks', hi', ho', hptr, hup.trans hroom⟩
      · rw [hfailed (by omega) hp]
        exact ⟨rfl, rfl, rfl, rfl⟩
    · exact absurd h0 userPtr_ne_zero

end Sizes

end RtosKernel.RtThread.SmallMem
