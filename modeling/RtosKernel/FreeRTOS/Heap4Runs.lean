import RtosKernel.FreeRTOS.Heap4Calls

/-! # Whole runs of the heap

The callers allocate any size, and give back what they hold. -/
namespace RtosKernel.FreeRTOS.Heap4
open Lib.Word Lib.Tiling FreeRTOS.Def List

inductive Op
  | malloc (xWantedSize : Nat)
  | free (pv : Nat)

/-- The heap, the pointers the callers hold, and what `xFreeBytesRemaining` was behind
each call so far, the last one first. -/
structure State where
  h : Heap
  live : Finset Nat
  history : List Nat

/-- A size is a `size_t`; a pointer that is freed is held. -/
def Valid (c : Board) (s : State) : Op → Prop
  | .malloc xWantedSize => xWantedSize < 2 ^ c.sizeBits
  | .free pv => pv ∈ s.live

instance (c : Board) (s : State) : ∀ op, Decidable (Valid c s op)
  | .malloc n => inferInstanceAs (Decidable (n < 2 ^ c.sizeBits))
  | .free pv => inferInstanceAs (Decidable (pv ∈ s.live))

def step (c : Board) (s : State) : Op → Option State
  | .malloc xWantedSize => do
    let r ← pvPortMalloc c s.h xWantedSize
    return ⟨r.1, if r.2 = 0 then s.live else insert r.2 s.live, r.1.xFreeBytesRemaining :: s.history⟩
  | .free pv => do
    let h ← vPortFree c s.h pv
    return ⟨h, s.live.erase pv, h.xFreeBytesRemaining :: s.history⟩

/-- The states reached by valid calls from a heap that is not initialised. -/
inductive Reachable (c : Board) (h : Heap) : State → Prop
  | init : Reachable c h ⟨h, ∅, []⟩
  | step {s s' : State} (hr : Reachable c h s) (op : Op) (hv : Valid c s op)
      (hs : step c s op = some s') : Reachable c h s'

variable {c : Board} {s s' : State} {bs pre post : List Block} {h : Heap} {n b : Nat}

/-- The pointer to the bytes of a block. -/
def userPtr (c : Board) (b : Nat) : Nat := b + c.heapStructSize

theorem userPtr_injective (c : Board) : Function.Injective (userPtr c) := fun a b hab => by
  unfold userPtr at hab
  omega

/-! ## The free list -/

/-- The blocks of the free list, with their sizes, from the pointer `a` on. -/
def FreeBlocks (h : Heap) : Nat → List (Nat × Nat) → Prop
  | a, [] => a = h.pxEnd
  | a, x :: l => a ≠ h.pxEnd ∧ x.1 = a ∧ (h.link a).xBlockSize = x.2 ∧
    FreeBlocks h (h.link a).pxNextFreeBlock l

/-- `free` is the free list: the addresses of its blocks with their sizes. -/
def FreeIs (c : Board) (h : Heap) (free : List (Nat × Nat)) : Prop := FreeBlocks h (h.link c.xStart).pxNextFreeBlock free

instance (h : Heap) : ∀ (a : Nat) (l : List (Nat × Nat)), Decidable (FreeBlocks h a l)
  | a, [] => inferInstanceAs (Decidable (a = h.pxEnd))
  | a, x :: l =>
    have := instDecidableFreeBlocks h (h.link a).pxNextFreeBlock l
    inferInstanceAs (Decidable (a ≠ h.pxEnd ∧ x.1 = a ∧ (h.link a).xBlockSize = x.2 ∧
      FreeBlocks h (h.link a).pxNextFreeBlock l))

instance (c : Board) (h : Heap) (free : List (Nat × Nat)) : Decidable (FreeIs c h free) :=
  inferInstanceAs (Decidable (FreeBlocks ..))

/-- How much of a free block of some size a request takes. -/
def Board.takenSize (c : Board) (n size : Nat) : Nat :=
  if c.minimumBlockSize < size - c.rounded n then c.rounded n else size

theorem freeBlocks_of (hh : 0 < c.heapStructSize) : ∀ {l : List Block} {a : Nat},
    FreeList (nextOf h) a l h.pxEnd → Sized h l h.pxEnd → Spaced c.heapStructSize l h.pxEnd →
    FreeBlocks h (nextOf h a) (freeExtents l h.pxEnd)
  | [], _, hl, _, _ => hl
  | ⟨_, true⟩ :: l, _, hl, hz, hs => freeBlocks_of (l := l) hh hl hz.2 hs.2
  | ⟨x, false⟩ :: l, a, hl, hz, hs => by
    have hnext : nextOf h a = x := hl.1
    have hroom := hs.1
    have hend := hs.2.start_le
    rw [hnext]
    refine ⟨?_, rfl, hz.1 rfl, freeBlocks_of hh hl.2 hz.2 hs.2⟩
    simp only at hroom
    omega

theorem FreeBlocks.unique : ∀ {l l' : List (Nat × Nat)} {a : Nat}, FreeBlocks h a l → FreeBlocks h a l' → l = l'
  | [], [], _, _, _ => rfl
  | [], _ :: _, _, hl, hl' => absurd hl hl'.1
  | _ :: _, [], _, hl, hl' => absurd hl' hl.1
  | x :: l, y :: l', a, hl, hl' => by
    have hxy : x = y := Prod.ext (hl.2.1.trans hl'.2.1.symm) (hl.2.2.1.symm.trans hl'.2.2.1)
    rw [hxy, hl.2.2.2.unique hl'.2.2.2]

theorem Listed.freeIs (hi : Listed c h bs) : FreeIs c h (freeExtents bs c.endAddress) := by
  have hends := hi.ends
  have hfree := freeBlocks_of c.struct_pos (hends ▸ hi.list) (hends ▸ hi.sized) (hends ▸ hi.spaced)
  rw [hends] at hfree
  exact hfree

theorem start_leftOver : start (leftOver c b (c.rounded n) post) c.endAddress - b =
    c.takenSize n (start post c.endAddress - b) := by
  unfold leftOver Board.takenSize
  split
  · exact Nat.add_sub_cancel_left ..
  · rfl

/-! ## What the runs keep -/

/-- `m` is the least element of the list. -/
def Least (m : Nat) (l : List Nat) : Prop := m ∈ l ∧ ∀ x ∈ l, m ≤ x

theorem Listed.initialised_eq (hl : c.Large) (hi : Listed c h bs) : initialised c h = h := by
  have := Board.heap_bounds hl
  have := c.struct_pos
  refine if_neg ?_
  rw [hi.ends]
  omega

theorem Least.min {m a : Nat} {l : List Nat} (hm : Least m l) : Least (min a m) (a :: l) := by
  refine ⟨?_, fun x hx => ?_⟩
  · rcases min_choice a m with he | he
    · rw [he]
      exact mem_cons_self ..
    · rw [he]
      exact mem_cons_of_mem _ hm.1
  · rcases mem_cons.mp hx with rfl | hx
    · exact min_le_left _ _
    · exact (min_le_right _ _).trans (hm.2 x hx)

theorem Least.cons {m a : Nat} {l : List Nat} (hm : Least m l) (ha : m ≤ a) : Least m (a :: l) := by
  have := hm.min (a := a)
  rwa [min_eq_right ha] at this

/-- The block an allocation takes is smaller than the bit that marks it. -/
def TakesBelow (c : Board) (s : State) : Op → Prop
  | .malloc n => ∀ l1 x l2, FreeIs c (initialised c s.h) (l1 ++ x :: l2) → (∀ y ∈ l1, y.2 < c.rounded n) →
      c.rounded n ≤ x.2 → n < c.allocatedBit → c.takenSize n x.2 < c.allocatedBit
  | .free _ => True

/-- The states reached by valid calls that take blocks below the bit. -/
inductive ReachableBelow (c : Board) (h : Heap) : State → Prop
  | init : ReachableBelow c h ⟨h, ∅, []⟩
  | step {s s' : State} (hr : ReachableBelow c h s) (op : Op) (hv : Valid c s op) (hb : TakesBelow c s op)
      (hs : step c s op = some s') : ReachableBelow c h s'

/-- The blocks of a state, whose allocated ones are below the bit. -/
structure Below (c : Board) (s : State) (bs : List Block) : Prop where
  inv : Inv c (initialised c s.h) bs
  live : Live (userPtr c) s.live bs
  below : Each true (fun _ n => n < c.allocatedBit) bs c.endAddress
  first : s.history ≠ [] → initialised c s.h = s.h
  held : s.live.Nonempty → s.history ≠ []
  least : s.history ≠ [] → Least (initialised c s.h).xMinimumEverFreeBytesRemaining s.history
  fresh : s.history = [] → (initialised c s.h).xMinimumEverFreeBytesRemaining = (initialised c s.h).xFreeBytesRemaining
  least_le : (initialised c s.h).xMinimumEverFreeBytesRemaining ≤ (initialised c s.h).xFreeBytesRemaining

/-- The least amount so far, when there are `a` bytes. -/
theorem Below.track (hi : Below c s bs) {a : Nat} (ha : a ≤ (initialised c s.h).xFreeBytesRemaining) :
    Least (min a (initialised c s.h).xMinimumEverFreeBytesRemaining) (a :: s.history) := by
  by_cases hne : s.history = []
  · rw [hne, hi.fresh hne, min_eq_left ha]
    exact ⟨mem_cons_self .., by simp⟩
  · exact (hi.least hne).min

/-- A call has returned: the heap is initialised, and the history longer. -/
theorem Below.of_call {live : Finset Nat} {history : List Nat} (hl : c.Large) (hi : Inv c h bs)
    (hlive : Live (userPtr c) live bs) (hbelow : Each true (fun _ n => n < c.allocatedBit) bs c.endAddress)
    (hleast : Least h.xMinimumEverFreeBytesRemaining (h.xFreeBytesRemaining :: history)) :
    Below c ⟨h, live, h.xFreeBytesRemaining :: history⟩ bs := by
  have hsame := hi.listed.initialised_eq hl
  refine ⟨by rw [hsame]; exact hi, hlive, hbelow, fun _ => hsame, fun _ => nofun, fun _ => ?_, nofun, ?_⟩ <;> rw [hsame]
  · exact hleast
  · exact hleast.2 _ (mem_cons_self ..)

theorem Below.returns (hl : c.Large) (hi : Below c s bs) {op : Op} (hv : Valid c s op) : (step c s op).isSome := by
  cases op with
  | malloc n =>
    obtain ⟨r, hr, -⟩ := pvPortMalloc_spec hl hi.inv.listed hv
    simp [step, hr]
  | free pv =>
    obtain ⟨b, hb, rfl⟩ := (hi.live pv).mp hv
    obtain ⟨pre, post, rfl⟩ := append_of_mem hb
    have hinv := hi.inv
    rw [hi.first (hi.held ⟨_, hv⟩)] at hinv
    obtain ⟨h', hr, -⟩ := vPortFree_spec hl hinv hi.below.at
    simp [step, userPtr, hr]

theorem Below.pvPortMalloc (hl : c.Large) (hi : Below c s bs) (hn : n < 2 ^ c.sizeBits) (hb : TakesBelow c s (.malloc n))
    (hs : step c s (.malloc n) = some s') : ∃ bs', Below c s' bs' := by
  have hS := c.struct_pos
  obtain ⟨r, hr, hcase⟩ := pvPortMalloc_spec hl hi.inv.listed hn
  simp only [step, hr, bind, Option.bind_some] at hs
  cases hs
  rcases hcase with ⟨rfl, -⟩ | ⟨hlt, pre, b, post, rfl, ht⟩
  · have hleast := hi.track (le_refl _)
    rw [min_eq_right hi.least_le] at hleast
    exact ⟨bs, .of_call hl hi.inv hi.live hi.below hleast⟩
  · have hext : freeExtents (pre ++ ⟨b, false⟩ :: post) c.endAddress =
        freeExtents pre b ++ (b, start post c.endAddress - b) :: freeExtents post c.endAddress := freeExtents_append
    have hsize : start (leftOver c b (c.rounded n) post) c.endAddress - b < c.allocatedBit := by
      rw [start_leftOver]
      exact hb _ _ _ (hext ▸ hi.inv.listed.freeIs) (each_free_iff.mp ht.lowest) ht.fits hlt
    obtain ⟨hbpre, -, hbpost⟩ := each_append.mp hi.below
    have hbytes := ht.bytes
    have hleast := hi.track (show r.1.xFreeBytesRemaining ≤ _ by omega)
    rw [← ht.least] at hleast
    refine ⟨_, .of_call hl (ht.inv hi.inv hsize) ?_ (each_append.mpr ⟨hbpre, fun _ => hsize, each_leftOver hbpost⟩) hleast⟩
    have hne : r.2 ≠ 0 := by
      have := ht.ptr
      omega
    have hmem : ∀ x, (⟨x, true⟩ : Block) ∈ pre ++ ⟨b, true⟩ :: leftOver c b (c.rounded n) post ↔
        x = b ∨ (⟨x, true⟩ : Block) ∈ pre ++ ⟨b, false⟩ :: post := fun x => by
      have := ht.used x
      simp only [mem_append, mem_cons, Block.mk.injEq, and_true, Bool.true_eq_false, and_false, false_or, this]
      tauto
    have hlive := hi.live.insert hmem
    rw [userPtr, ← ht.ptr] at hlive
    simp only [if_neg hne]
    exact hlive

theorem Below.vPortFree (hl : c.Large) (hi : Below c s bs) {pv : Nat} (hv : pv ∈ s.live)
    (hs : step c s (.free pv) = some s') : ∃ bs', Below c s' bs' := by
  have hne := hi.held ⟨pv, hv⟩
  have hinv := hi.inv
  have hleast := hi.least hne
  have hle := hi.least_le
  rw [hi.first hne] at hinv hleast hle
  obtain ⟨b, hb, rfl⟩ := (hi.live pv).mp hv
  obtain ⟨pre, post, rfl⟩ := append_of_mem hb
  obtain ⟨h', hr, hi', hmore, hmin⟩ := vPortFree_spec hl hinv hi.below.at
  rw [← hmin] at hleast hle
  simp only [step, userPtr, hr, bind, Option.bind_some] at hs
  cases hs
  refine ⟨_, .of_call hl hi' ?_ hi.below.plug (hleast.cons (hle.trans hmore))⟩
  refine hi.live.erase (userPtr_injective c) (o := b) fun x => ?_
  rw [mem_plug]
  exact hinv.spaced.mem_others c.struct_pos

theorem ReachableBelow.blocks (hl : c.Large) (h0 : h.pxEnd = 0) (hr : ReachableBelow c h s) : ∃ bs, Below c s bs := by
  induction hr with
  | init =>
    have hinit : initialised c h = prvHeapInit c h := if_pos h0
    refine ⟨[⟨c.alignedHeap.1, false⟩], ?_, fun p => by simp, ⟨nofun, trivial⟩, nofun, nofun, nofun, fun _ => ?_, ?_⟩ <;>
      rw [hinit]
    · exact prvHeapInit_inv hl h
    · rfl
    · exact le_refl _
  | step _ op hv hb hs ih =>
    obtain ⟨bs, hi⟩ := ih
    cases op with
    | malloc n => exact hi.pvPortMalloc hl hv hb hs
    | free pv => exact hi.vPortFree hl hv hs

/-- In a heap that is smaller than the bit every block is. -/
theorem Below.takesBelow (hsm : c.Small) (hi : Below c s bs) : ∀ op, TakesBelow c s op
  | .free _ => trivial
  | .malloc n => by
    intro l1 x l2 hfree _ hfits _
    have hlisted := hi.inv.listed
    have hext := hfree.unique hlisted.freeIs
    have hle := each_free_iff.mp each_le_freeBytes x (by rw [← hext]; simp)
    have hsum := freeBytes_le hlisted.spaced
    rw [hlisted.starts] at hsum
    unfold Board.Small at hsm
    unfold Board.takenSize
    split <;> omega

theorem Reachable.reachableBelow (hl : c.Large) (hsm : c.Small) (h0 : h.pxEnd = 0) (hr : Reachable c h s) :
    ReachableBelow c h s := by
  induction hr with
  | init => exact .init
  | step _ op hv hs ih =>
    obtain ⟨bs, hi⟩ := ih.blocks hl h0
    exact ih.step op hv (hi.takesBelow hsm op) hs

/-- The allocated and the free blocks, `blocks` with their sizes, tile the aligned heap up to `*pxEnd`: the free
ones are those of the free list, by address and never side by side, the others those of the pointers the callers
hold. All sizes are multiples of `portBYTE_ALIGNMENT`. `xFreeBytesRemaining` is the sum of the free sizes,
`xMinimumEverFreeBytesRemaining` the least it was behind any call. Once the callers hold nothing, the free list
is the block `prvHeapInit` made. -/
def Consistent (c : Board) (s : State) : Prop :=
  ∃ blocks free : List (Nat × Nat),
    Abut c.alignedHeap.1 blocks s.h.pxEnd ∧
    FreeBlocks s.h (s.h.link c.xStart).pxNextFreeBlock free ∧ free.Sublist blocks ∧
    free.Pairwise (fun x y => x.1 + x.2 < y.1) ∧
    (∀ x ∈ blocks, x ∉ free ↔ userPtr c x.1 ∈ s.live) ∧
    (∀ p ∈ s.live, ∃ x ∈ blocks, x ∉ free ∧ p = userPtr c x.1) ∧
    (∀ x ∈ blocks, c.byteAlignment ∣ x.2) ∧
    s.h.xFreeBytesRemaining = (free.map Prod.snd).sum ∧
    Least s.h.xMinimumEverFreeBytesRemaining s.history ∧
    (s.live = ∅ → free = [(c.alignedHeap.1, s.h.pxEnd - c.alignedHeap.1)])

theorem extents_aligned (he : c.byteAlignment ∣ s.h.pxEnd) : ∀ {l : List Block},
    (∀ b ∈ l, c.byteAlignment ∣ b.off) → ∀ x ∈ extents l s.h.pxEnd, c.byteAlignment ∣ x.2
  | b :: l, ha, x, hx => by
    have hl : ∀ b ∈ l, c.byteAlignment ∣ b.off := fun y hy => ha y (mem_cons_of_mem _ hy)
    rcases mem_cons.mp hx with rfl | hx
    · refine Nat.dvd_sub ?_ (ha b (mem_cons_self ..))
      cases l with
      | nil => exact he
      | cons y l => exact hl y (mem_cons_self ..)
    · exact extents_aligned he hl x hx

theorem Below.consistent (hl : c.Large) (hg : Below c s bs) (hne : s.history ≠ []) : Consistent c s := by
  have hS := c.struct_pos
  have hi := hg.inv
  have hleast := hg.least hne
  rw [hg.first hne] at hi hleast
  have hends := hi.ends
  have hstarts := hi.starts
  have hsp := hi.spaced
  have hb := Board.heap_bounds hl
  rw [← hends] at hstarts hsp
  -- a block that is not free is held
  have hnot : ∀ x ∈ extents bs s.h.pxEnd, x ∉ freeExtents bs s.h.pxEnd ↔ userPtr c x.1 ∈ s.live := by
    intro x hx
    rw [hg.live]
    rcases mem_extents hx with hf | ⟨pre, post, rfl, hsize⟩
    · refine ⟨fun hn => absurd hf hn, fun ⟨y, hy, hp⟩ => ?_⟩
      obtain rfl := userPtr_injective c hp
      have := hsp.off_unique hS (mem_freeExtents hf) hy
      cases this
    · refine ⟨fun _ => ⟨x.1, by simp, rfl⟩, fun _ hm => ?_⟩
      exact (used_mem_extents hS hsp).2 x.2 hm
  refine ⟨extents bs s.h.pxEnd, freeExtents bs s.h.pxEnd, hstarts ▸ hsp.abut hS, ?_, freeExtents_sublist,
    hi.merged.apart hS hsp, hnot, fun p hp => ?_, ?_, ?_, hleast, fun hempty => ?_⟩
  · exact hends ▸ hi.freeIs
  · obtain ⟨y, hy, rfl⟩ := (hg.live p).mp hp
    obtain ⟨pre, post, rfl⟩ := append_of_mem hy
    obtain ⟨h1, h2⟩ := used_mem_extents hS hsp
    exact ⟨_, h1, h2 _, rfl⟩
  · exact extents_aligned (hends ▸ Board.endAddress_dvd hl) hi.aligned
  · rw [hi.bytes, ← hends, freeBytes_eq]
  · -- merged blocks that are all free are one
    obtain rfl := hg.live.whole hempty hi.merged hstarts (by omega)
    rfl

/-- **The heap stays consistent.** In a run whose allocations take blocks that are smaller than the bit that marks
them, every valid call returns, and behind every call the blocks, the free list and the counters agree. -/
theorem heap_consistent_while_below (hl : c.Large) (h0 : h.pxEnd = 0) (hr : ReachableBelow c h s) :
    (∀ op, Valid c s op → (step c s op).isSome) ∧ (s.history ≠ [] → Consistent c s) := by
  obtain ⟨bs, hg⟩ := hr.blocks hl h0
  exact ⟨fun op hv => hg.returns hl hv, hg.consistent hl⟩

/-- Memory that holds nothing in particular. -/
def blank : Heap := ⟨fun _ => ⟨0, 0⟩, 0, 0, 0, 0, 0, 0⟩

/-- A build with a 16-bit `size_t` and a heap of 100 bytes at an odd address. -/
def smallBoard : Board :=
  ⟨16, 3, 4, 100, 0x1001, 0x100, by decide, by decide, by decide, by decide, by decide, by decide⟩

/-- Two blocks are allocated and the first one is freed. -/
theorem exists_two_free : ∃ s, Reachable smallBoard blank s ∧ s.live = {0x1028} ∧ s.history ≠ [] ∧
    FreeIs smallBoard s.h [(0x1008, 0x18), (0x1038, 0x20)] := by
  set s1 := (step smallBoard ⟨blank, ∅, []⟩ (.malloc 10)).get (by decide +kernel) with h1
  set s2 := (step smallBoard s1 (.malloc 10)).get (by decide +kernel) with h2
  set s3 := (step smallBoard s2 (.free 0x1010)).get (by decide +kernel) with h3
  have hr : Reachable smallBoard blank s3 :=
    .step (.step (.step .init (.malloc 10) (by decide +kernel) (Option.some_get _).symm) (.malloc 10) (by decide +kernel)
      (Option.some_get _).symm) (.free 0x1010) (by decide +kernel) (Option.some_get _).symm
  exact ⟨s3, hr, by decide +kernel, by decide +kernel, by decide +kernel⟩

theorem heap_consistent_small : ∃ s, Reachable smallBoard blank s ∧ s.live = {0x1028} ∧ Consistent smallBoard s := by
  obtain ⟨s, hr, hlive, hne, -⟩ := exists_two_free
  exact ⟨s, hr, hlive,
    (heap_consistent_while_below (by decide) rfl (hr.reachableBelow (by decide) (by decide) rfl)).2 hne⟩

/-- A build with a 16-bit `size_t` and a heap of 36 KiB. -/
def largeBoard : Board :=
  ⟨16, 1, 4, 0x9000, 0x1000, 0x100, by decide, by decide, by decide, by decide, by decide, by decide⟩

/-- The size wanted does not have the top bit, but with the header it is just that bit:
the block is marked as its size says already, and freeing it leaves a block of no
size. -/
theorem heap_loses_half : largeBoard.Large ∧ ∃ s, Reachable largeBoard blank s ∧ s.live = ∅ ∧
    s.h.xFreeBytesRemaining = 0xffc ∧ s.history ≠ [] ∧ ¬ Consistent largeBoard s := by
  refine ⟨by decide, ?_⟩
  set s1 := (step largeBoard ⟨blank, ∅, []⟩ (.malloc 0x7ffc)).get (by decide +kernel) with h1
  set s2 := (step largeBoard s1 (.free 0x1004)).get (by decide +kernel) with h2
  have hr : Reachable largeBoard blank s2 :=
    .step (.step .init (.malloc 0x7ffc) (by decide +kernel) (Option.some_get _).symm) (.free 0x1004)
      (by decide +kernel) (Option.some_get _).symm
  have hfirst : (s2.h.link largeBoard.xStart).pxNextFreeBlock = 0x1000 := by decide +kernel
  have hsize : (s2.h.link 0x1000).xBlockSize = 0 := by decide +kernel
  have hend : s2.h.pxEnd ≠ 0x1000 := by decide +kernel
  have hpos : ∀ (l : List (Nat × Nat)) (a e : Nat), Abut a l e → ∀ x ∈ l, 0 < x.2 := by
    intro l
    induction l with
    | nil => simp
    | cons y l ih =>
      intro a e hab x hx
      rcases mem_cons.mp hx with rfl | hx
      · exact hab.2.1
      · exact ih _ _ hab.2.2 x hx
  refine ⟨s2, hr, by decide +kernel, by decide +kernel, by decide +kernel, ?_⟩
  rintro ⟨blocks, free, hab, hfree, hsub, -⟩
  rw [hfirst] at hfree
  rcases free with _ | ⟨x, free⟩
  · exact hend hfree.symm
  · have := hpos _ _ _ hab x (hsub.subset (mem_cons_self ..))
    have hx := hfree.2.2.1
    omega

end RtosKernel.FreeRTOS.Heap4
