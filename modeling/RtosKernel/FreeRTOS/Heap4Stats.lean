import RtosKernel.FreeRTOS.Heap4Fit

/-! # The statistics of the heap

`vPortGetHeapStats` walks the free list in a loop that looks for `pxEnd` only behind a
block. A heap whose blocks are all allocated has no block in front of `pxEnd`, so the walk
starts at `pxEnd` itself and goes on to its successor, `NULL`. -/
namespace RtosKernel.FreeRTOS.Heap4
open Lib.Word Lib.Tiling FreeRTOS.Def List Option

/-- `HeapStats_t`. -/
structure HeapStats where
  xAvailableHeapSpaceInBytes : Nat
  xSizeOfLargestFreeBlockInBytes : Nat
  xSizeOfSmallestFreeBlockInBytes : Nat
  xNumberOfFreeBlocks : Nat
  xMinimumEverFreeBytesRemaining : Nat
  xNumberOfSuccessfulAllocations : Nat
  xNumberOfSuccessfulFrees : Nat
  deriving DecidableEq, Repr

/-- The loop of `vPortGetHeapStats`: `xBlocks`, `xMaxSize` and `xMinSize` at its end. -/
def statsLoop (c : Board) (h : Heap) : Nat → Nat → Nat → Nat → Nat → Option (Nat × Nat × Nat)
  | 0, _, _, _, _ => none
  | fuel + 1, pxBlock, xBlocks, xMaxSize, xMinSize =>
    -- there is no block at `NULL`
    if pxBlock = 0 then none
    else
      let xBlocks := addw c.sizeBits xBlocks 1
      let xMaxSize := if (h.link pxBlock).xBlockSize > xMaxSize then (h.link pxBlock).xBlockSize else xMaxSize
      let xMinSize := if (h.link pxBlock).xBlockSize < xMinSize then (h.link pxBlock).xBlockSize else xMinSize
      let pxBlock := (h.link pxBlock).pxNextFreeBlock
      if pxBlock ≠ h.pxEnd then statsLoop c h fuel pxBlock xBlocks xMaxSize xMinSize
      else some (xBlocks, xMaxSize, xMinSize)

/-- `vPortGetHeapStats`; `portMAX_DELAY` is the largest `TickType_t`. -/
def vPortGetHeapStats (c : Board) (portMAX_DELAY : Nat) (h : Heap) : Option HeapStats := do
  let pxBlock := (h.link c.xStart).pxNextFreeBlock
  let xMinSize := portMAX_DELAY % 2 ^ c.sizeBits
  let (xBlocks, xMaxSize, xMinSize) ←
    if pxBlock ≠ 0 then statsLoop c h c.enough pxBlock 0 0 xMinSize else some (0, 0, xMinSize)
  return {
    xAvailableHeapSpaceInBytes := h.xFreeBytesRemaining
    xSizeOfLargestFreeBlockInBytes := xMaxSize
    xSizeOfSmallestFreeBlockInBytes := xMinSize
    xNumberOfFreeBlocks := xBlocks
    xMinimumEverFreeBytesRemaining := h.xMinimumEverFreeBytesRemaining
    xNumberOfSuccessfulAllocations := h.xNumberOfSuccessfulAllocations
    xNumberOfSuccessfulFrees := h.xNumberOfSuccessfulFrees }

/-- The addresses at which the walk reads a header. -/
inductive Walks (c : Board) (h : Heap) : Nat → Prop
  | start : (h.link c.xStart).pxNextFreeBlock ≠ 0 → Walks c h (h.link c.xStart).pxNextFreeBlock
  | next {a : Nat} : Walks c h a → a ≠ 0 → (h.link a).pxNextFreeBlock ≠ h.pxEnd → Walks c h (h.link a).pxNextFreeBlock

/-- The walk reads headers of free blocks only, ends, and reports their number and the
largest and the smallest size among them. -/
structure StatsExact (c : Board) (portMAX_DELAY : Nat) (h : Heap) (free : List (Nat × Nat)) : Prop where
  reads : ∀ a, Walks c h a → ∃ x ∈ free, x.1 = a
  reports : ∃ stats, vPortGetHeapStats c portMAX_DELAY h = some stats ∧
    stats.xNumberOfFreeBlocks = free.length ∧
    IsGreatest {n | ∃ x ∈ free, x.2 = n} stats.xSizeOfLargestFreeBlockInBytes ∧
    IsLeast {n | ∃ x ∈ free, x.2 = n} stats.xSizeOfSmallestFreeBlockInBytes

variable {c : Board} {h : Heap} {s s' : State} {bs : List Block} {free : List (Nat × Nat)} {d n : Nat}

/-! ## The walk -/

theorem statsLoop_spec : ∀ {l : List (Nat × Nat)} {x : Nat × Nat} {a k : Nat} (mx mn : Nat) {fuel : Nat},
    FreeBlocks h a (x :: l) → (∀ y ∈ x :: l, y.1 ≠ 0) → k + (l.length + 1) < 2 ^ c.sizeBits → l.length < fuel →
    ∃ mx' mn', statsLoop c h fuel a k mx mn = some (k + (l.length + 1), mx', mn') ∧
      (mx ≤ mx' ∧ (∀ y ∈ x :: l, y.2 ≤ mx') ∧ (mx' = mx ∨ ∃ y ∈ x :: l, y.2 = mx')) ∧
      (mn' ≤ mn ∧ (∀ y ∈ x :: l, mn' ≤ y.2) ∧ (mn' = mn ∨ ∃ y ∈ x :: l, y.2 = mn'))
  | l, x, a, k, mx, mn, fuel + 1, hfree, hnull, hk, hfuel => by
    obtain ⟨-, rfl, hsize, hrest⟩ := hfree
    have hx : x.1 ≠ 0 := hnull x (mem_cons_self ..)
    have hadd : addw c.sizeBits k 1 = k + 1 := addw_of_lt (by omega)
    set mx1 := if x.2 > mx then x.2 else mx with hmx1
    set mn1 := if x.2 < mn then x.2 else mn with hmn1
    have hmx : mx ≤ mx1 ∧ x.2 ≤ mx1 ∧ (mx1 = mx ∨ mx1 = x.2) := by
      rw [hmx1]
      split <;> omega
    have hmn : mn1 ≤ mn ∧ mn1 ≤ x.2 ∧ (mn1 = mn ∨ mn1 = x.2) := by
      rw [hmn1]
      split <;> omega
    have hgo : statsLoop c h (fuel + 1) x.1 k mx mn =
        if (h.link x.1).pxNextFreeBlock ≠ h.pxEnd then statsLoop c h fuel (h.link x.1).pxNextFreeBlock (k + 1) mx1 mn1
        else some (k + 1, mx1, mn1) := by
      rw [statsLoop, if_neg hx]
      simp only [hadd, hsize, ← hmx1, ← hmn1]
    rw [hgo]
    cases l with
    | nil =>
      have hend : (h.link x.1).pxNextFreeBlock = h.pxEnd := hrest
      rw [if_neg (not_not.mpr hend)]
      refine ⟨mx1, mn1, rfl, ⟨hmx.1, fun y hy => ?_, ?_⟩, hmn.1, fun y hy => ?_, ?_⟩
      · rw [mem_singleton.mp hy]
        exact hmx.2.1
      · exact hmx.2.2.imp_right fun he => ⟨x, mem_cons_self .., he.symm⟩
      · rw [mem_singleton.mp hy]
        exact hmn.2.1
      · exact hmn.2.2.imp_right fun he => ⟨x, mem_cons_self .., he.symm⟩
    | cons y l =>
      rw [length_cons] at hk hfuel
      rw [if_pos hrest.1]
      obtain ⟨mx', mn', hgo, ⟨hle, hall, hor⟩, hle', hall', hor'⟩ := statsLoop_spec (k := k + 1) mx1 mn1
        hrest (fun z hz => hnull z (mem_cons_of_mem _ hz)) (by omega) (show l.length < fuel by omega)
      refine ⟨mx', mn', ?_, ⟨hmx.1.trans hle, fun z hz => ?_, ?_⟩, hle'.trans hmn.1, fun z hz => ?_, ?_⟩
      · rw [hgo, length_cons, Nat.add_assoc, Nat.add_comm 1]
      · rcases mem_cons.mp hz with rfl | hz
        · exact hmx.2.1.trans hle
        · exact hall z hz
      · rcases hor with rfl | ⟨z, hz, he⟩
        · exact hmx.2.2.imp_right fun he => ⟨x, mem_cons_self .., he.symm⟩
        · exact .inr ⟨z, mem_cons_of_mem _ hz, he⟩
      · rcases mem_cons.mp hz with rfl | hz
        · exact hle'.trans hmn.2.1
        · exact hall' z hz
      · rcases hor' with rfl | ⟨z, hz, he⟩
        · exact hmn.2.2.imp_right fun he => ⟨x, mem_cons_self .., he.symm⟩
        · exact .inr ⟨z, mem_cons_of_mem _ hz, he⟩

theorem FreeBlocks.next_mem : ∀ {l : List (Nat × Nat)} {a : Nat}, FreeBlocks h a l → ∀ x ∈ l,
    (h.link x.1).pxNextFreeBlock ≠ h.pxEnd → ∃ y ∈ l, y.1 = (h.link x.1).pxNextFreeBlock
  | y :: l, a, hfree, x, hx, hne => by
    obtain ⟨-, rfl, -, hrest⟩ := hfree
    rcases mem_cons.mp hx with rfl | hx
    · cases l with
      | nil => exact absurd hrest hne
      | cons z l => exact ⟨z, by simp, hrest.2.1⟩
    · obtain ⟨z, hz, he⟩ := hrest.next_mem x hx hne
      exact ⟨z, mem_cons_of_mem _ hz, he⟩

theorem Walks.mem {x : Nat × Nat} {l : List (Nat × Nat)} (hfree : FreeIs c h (x :: l)) {a : Nat} (hw : Walks c h a) :
    ∃ y ∈ x :: l, y.1 = a := by
  induction hw with
  | start _ => exact ⟨x, mem_cons_self .., hfree.2.1⟩
  | next _ _ hne ih =>
    obtain ⟨y, hy, rfl⟩ := ih
    exact FreeBlocks.next_mem hfree y hy hne

/-- **The statistics of a sound heap are exact** if there is a free block, and the smallest
one is no larger than `portMAX_DELAY`. -/
theorem Listed.stats_exact_iff (hl : c.Large) (hnull : c.ucHeap ≠ 0) (hi : Listed c h bs) (hfree : FreeIs c h free) :
    StatsExact c d h free ↔ ∃ x ∈ free, x.2 ≤ d % 2 ^ c.sizeBits := by
  have hb := Board.heap_bounds hl
  have hS := c.struct_pos
  have hlt := Board.endAddress_lt hl
  obtain rfl : free = freeExtents bs c.endAddress := hfree.unique hi.freeIs
  have haddr : ∀ y ∈ freeExtents bs c.endAddress, y.1 ≠ 0 := by
    intro y hy
    have hoff := hi.spaced.start_le_off (mem_freeExtents hy)
    rw [hi.starts] at hoff
    simp only at hoff
    omega
  have hlen : (freeExtents bs c.endAddress).length ≤ bs.length := by
    have hsub := (freeExtents_sublist (l := bs) (e := c.endAddress)).length_le
    rwa [length_extents] at hsub
  have hsmall := hi.spaced.length_le hS
  generalize freeExtents bs c.endAddress = free at *
  cases free with
  | nil =>
    refine ⟨fun h => ?_, fun ⟨x, hx, _⟩ => (not_mem_nil hx).elim⟩
    obtain ⟨stats, -, -, ⟨⟨x, hx, _⟩, _⟩, -⟩ := h.reports
    exact (not_mem_nil hx).elim
  | cons x l =>
    have hstart : (h.link c.xStart).pxNextFreeBlock ≠ 0 := by
      rw [← hfree.2.1]
      exact haddr x (mem_cons_self ..)
    rw [length_cons] at hlen
    obtain ⟨mx, mn, hgo, ⟨-, hmx, hmx'⟩, hmnle, hmn, hmn'⟩ := statsLoop_spec (c := c) (k := 0) 0
      (d % 2 ^ c.sizeBits) hfree haddr (by omega) (show l.length < c.enough by unfold Board.enough; omega)
    have hstats : vPortGetHeapStats c d h = some ⟨h.xFreeBytesRemaining, mx, mn, (x :: l).length,
        h.xMinimumEverFreeBytesRemaining, h.xNumberOfSuccessfulAllocations, h.xNumberOfSuccessfulFrees⟩ := by
      simp only [vPortGetHeapStats, if_pos hstart, hgo, bind, bind_some, pure, Nat.zero_add, length_cons]
    constructor
    · intro hexact
      obtain ⟨stats, hst, -, -, ⟨y, hy, hmin⟩, -⟩ := hexact.reports
      rw [hstats] at hst
      cases hst
      exact ⟨y, hy, hmin.le.trans hmnle⟩
    · intro hmax
      refine ⟨fun a hw => hw.mem hfree, _, hstats, rfl, ⟨?_, ?_⟩, ?_, ?_⟩
      · rcases hmx' with rfl | hmem
        · exact ⟨x, mem_cons_self .., Nat.le_zero.mp (hmx x (mem_cons_self ..))⟩
        · exact hmem
      · intro n hn
        obtain ⟨y, hy, rfl⟩ := hn
        exact hmx y hy
      · rcases hmn' with rfl | hmem
        · obtain ⟨y, hy, hle⟩ := hmax
          exact ⟨y, hy, le_antisymm hle (hmn y hy)⟩
        · exact hmem
      · intro n hn
        obtain ⟨y, hy, rfl⟩ := hn
        exact hmn y hy

/-! ## Runs -/

/-- **The statistics are exact** in a run whose allocations take blocks below the bit, in
every state with a free block that is no larger than `portMAX_DELAY`, and in no other. -/
theorem heap_stats_exact_iff (hl : c.Large) (hnull : c.ucHeap ≠ 0) (h0 : h.pxEnd = 0) (hr : ReachableBelow c h s)
    (hinit : s.history ≠ []) :
    ∃ free, FreeIs c s.h free ∧ (StatsExact c d s.h free ↔ ∃ x ∈ free, x.2 ≤ d % 2 ^ c.sizeBits) := by
  obtain ⟨bs, hi⟩ := hr.blocks hl h0
  have hlisted := hi.inv.listed
  rw [hi.first hinit] at hlisted
  exact ⟨_, hlisted.freeIs, hlisted.stats_exact_iff hl hnull hlisted.freeIs⟩

theorem heap_stats_exact_iff_two : ∃ (s : State) (free : List (Nat × Nat)), s.live = {0x1028} ∧ FreeIs smallBoard s.h free ∧
    (StatsExact smallBoard 0xffff s.h free ↔ ∃ x ∈ free, x.2 ≤ 0xffff % 2 ^ smallBoard.sizeBits) := by
  obtain ⟨s, hr, hlive, hne, -⟩ := exists_two_free
  obtain ⟨free, hfree, hiff⟩ := heap_stats_exact_iff (d := 0xffff) (by decide) (by decide) rfl
    (hr.reachableBelow (by decide) (by decide) rfl) hne
  exact ⟨s, free, hlive, hfree, hiff⟩

/-- All of the heap is allocated: the walk starts at `pxEnd` and goes on at `NULL`. -/
theorem heap_stats_full : ∃ s, Reachable smallBoard blank s ∧ s.history ≠ [] ∧ FreeIs smallBoard s.h [] ∧
    Walks smallBoard s.h s.h.pxEnd ∧ Walks smallBoard s.h 0 ∧ vPortGetHeapStats smallBoard 0xffff s.h = none ∧
    ¬StatsExact smallBoard 0xffff s.h [] := by
  set s := (step smallBoard ⟨blank, ∅, []⟩ (.malloc 72)).get (by decide +kernel) with hs
  have hr : Reachable smallBoard blank s := .step .init (.malloc 72) (by decide +kernel) (some_get _).symm
  have hnone : vPortGetHeapStats smallBoard 0xffff s.h = none := by decide +kernel
  have hstart : (s.h.link smallBoard.xStart).pxNextFreeBlock = s.h.pxEnd := by decide +kernel
  have hnext : (s.h.link s.h.pxEnd).pxNextFreeBlock = 0 := by decide +kernel
  have hend : s.h.pxEnd ≠ 0 := by decide +kernel
  have hfirst : Walks smallBoard s.h s.h.pxEnd := hstart ▸ .start (hstart ▸ hend)
  have hsecond : Walks smallBoard s.h 0 := hnext ▸ .next hfirst hend (hnext ▸ hend.symm)
  refine ⟨s, hr, by decide +kernel, by decide +kernel, hfirst, hsecond, hnone, fun hexact => ?_⟩
  obtain ⟨stats, hst, -⟩ := hexact.reports
  rw [hnone] at hst
  cases hst

end RtosKernel.FreeRTOS.Heap4
