import RtosKernel.FreeRTOS.Heap4Invariant

/-! # What `pvPortMalloc` and `vPortFree` do to the blocks -/
namespace RtosKernel.FreeRTOS.Heap4
open Lib.Word Lib.Tiling FreeRTOS.Def List

def Board.allocatedBit (c : Board) : Nat := 2 ^ (c.sizeBits - 1)

/-- The blocks of the heap are smaller than the bit that marks the allocated ones. -/
def Board.Small (c : Board) : Prop := c.endAddress - c.alignedHeap.1 < c.allocatedBit
  deriving Decidable

/-- The headers of the allocated blocks. -/
def Marked (c : Board) (h : Heap) (l : List Block) (e : Nat) : Prop :=
  Each true (fun o n => h.link o = ⟨0, n + c.allocatedBit⟩) l e

/-- The blocks tile the aligned heap, and the free ones are linked and merged. -/
structure Listed (c : Board) (h : Heap) (bs : List Block) : Prop where
  ends : h.pxEnd = c.endAddress
  bit : h.xBlockAllocatedBit = c.allocatedBit
  spaced : Spaced c.heapStructSize bs c.endAddress
  starts : start bs c.endAddress = c.alignedHeap.1
  aligned : ∀ b ∈ bs, c.byteAlignment ∣ b.off
  merged : Merged bs
  list : FreeList (nextOf h) c.xStart bs c.endAddress
  xStart : (h.link c.xStart).xBlockSize = 0
  last : h.link c.endAddress = ⟨0, 0⟩
  sized : Sized h bs c.endAddress
  bytes : h.xFreeBytesRemaining = freeBytes bs c.endAddress

/-- And the headers tell which block is which. -/
structure Inv (c : Board) (h : Heap) (bs : List Block) : Prop extends listed : Listed c h bs where
  marked : Marked c h bs c.endAddress

variable {c : Board} {h h' : Heap} {l pre post bs : List Block} {o e n b : Nat}

theorem Board.pow_sizeBits (c : Board) : 2 ^ c.sizeBits = 2 * c.allocatedBit := by
  have := c.bits_pos
  rw [Board.allocatedBit, ← Nat.pow_succ', Nat.succ_eq_add_one, Nat.sub_add_cancel this]

/-- **`prvHeapInit`** makes one free block. -/
theorem prvHeapInit_inv (hl : c.Large) (h : Heap) : Inv c (prvHeapInit c h) [⟨c.alignedHeap.1, false⟩] := by
  have hb := Board.heap_bounds hl
  have hlt := Board.endAddress_lt hl
  have hS := c.struct_pos
  have hne1 : c.alignedHeap.1 ≠ c.xStart := Board.xStart_ne hl (le_refl _) (by omega)
  have hne2 : c.endAddress ≠ c.xStart := Board.xStart_ne hl (by omega) (le_refl _)
  have hne3 : c.alignedHeap.1 ≠ c.endAddress := by omega
  have hsize : subw c.sizeBits c.endAddress c.alignedHeap.1 = c.endAddress - c.alignedHeap.1 :=
    subw_of_le (by omega) hlt
  set h1 := (((h.setLink c.xStart ⟨c.alignedHeap.1, 0⟩).setLink c.endAddress ⟨0, 0⟩).setLink
    c.alignedHeap.1 ⟨c.endAddress, c.endAddress - c.alignedHeap.1⟩) with hh1
  have hlink : (prvHeapInit c h).link = h1.link := by
    simp only [prvHeapInit, hsize]
    rfl
  have hstart : h1.link c.alignedHeap.1 = ⟨c.endAddress, c.endAddress - c.alignedHeap.1⟩ := setLink_self ..
  have hx : h1.link c.xStart = ⟨c.alignedHeap.1, 0⟩ := by
    rw [hh1, setLink_of_ne _ _ hne1.symm, setLink_of_ne _ _ hne2.symm, setLink_self]
  have hend : h1.link c.endAddress = ⟨0, 0⟩ := by
    rw [hh1, setLink_of_ne _ _ hne3.symm, setLink_self]
  refine ⟨⟨rfl, rfl, ⟨hb.2.1, trivial⟩, rfl, fun b hb => ?_, .singleton _, ⟨?_, ?_⟩, ?_, ?_,
    ⟨fun _ => ?_, trivial⟩, ?_⟩, nofun, trivial⟩
  · rw [mem_singleton.mp hb]
    exact Board.start_dvd hl
  · rw [nextOf, hlink, hx]
  · show nextOf (prvHeapInit c h) c.alignedHeap.1 = c.endAddress
    rw [nextOf, hlink, hstart]
  · rw [hlink, hx]
  · rw [hlink, hend]
  · show ((prvHeapInit c h).link c.alignedHeap.1).xBlockSize = c.endAddress - c.alignedHeap.1
    rw [hlink, hstart]
  · exact hsize

/-! ## The size that is wanted -/

/-- A request with its header, up to the next multiple of the alignment. -/
def Board.rounded (c : Board) (n : Nat) : Nat := (n + c.heapStructSize + (c.byteAlignment - 1)) / c.byteAlignment * c.byteAlignment

theorem Board.rounded_dvd (c : Board) (n : Nat) : c.byteAlignment ∣ c.rounded n := Dvd.intro_left _ rfl

theorem Board.le_rounded (c : Board) (n : Nat) : n + c.heapStructSize ≤ c.rounded n := by
  have hA := c.align_pos
  have hdiv := Nat.div_add_mod (n + c.heapStructSize + (c.byteAlignment - 1)) c.byteAlignment
  have hmod := Nat.mod_lt (n + c.heapStructSize + (c.byteAlignment - 1)) hA
  rw [Board.rounded, Nat.mul_comm]
  omega

theorem Board.rounded_eq (c : Board) (n : Nat) : c.rounded n =
    if (n + c.heapStructSize) % c.byteAlignment = 0 then n + c.heapStructSize
    else n + c.heapStructSize + (c.byteAlignment - (n + c.heapStructSize) % c.byteAlignment) := by
  have hA := c.align_pos
  have hdiv := Nat.div_add_mod (n + c.heapStructSize) c.byteAlignment
  have hmod := Nat.mod_lt (n + c.heapStructSize) hA
  set q := (n + c.heapStructSize) / c.byteAlignment
  set m := (n + c.heapStructSize) % c.byteAlignment
  rw [Board.rounded, ← hdiv]
  split
  · rename_i h0
    have hquot : (c.byteAlignment * q + m + (c.byteAlignment - 1)) / c.byteAlignment = q := by
      rw [h0, Nat.add_zero, Nat.mul_add_div hA, Nat.div_eq_of_lt (by omega), Nat.add_zero]
    rw [hquot, h0, Nat.add_zero, Nat.mul_comm]
  · rename_i h0
    have hquot : (c.byteAlignment * q + m + (c.byteAlignment - 1)) / c.byteAlignment = q + 1 := by
      rw [show c.byteAlignment * q + m + (c.byteAlignment - 1) = c.byteAlignment * (q + 1) + (m - 1) by
        rw [Nat.mul_add, Nat.mul_one]; omega, Nat.mul_add_div hA, Nat.div_eq_of_lt (by omega), Nat.add_zero]
    rw [hquot, Nat.mul_comm, Nat.mul_add, Nat.mul_one]
    omega

theorem wantedSize_spec (h0 : 0 < n) (hn : n < c.allocatedBit) :
    wantedSize c n = some (if c.rounded n < 2 ^ c.sizeBits then c.rounded n else 0) := by
  have hp := c.pow_sizeBits
  have hS := c.struct_lt
  have hS0 := c.struct_pos
  have hA := c.align_pos
  have hadd : addw c.sizeBits n c.heapStructSize = n + c.heapStructSize := addw_of_lt (by omega)
  unfold wantedSize
  rw [hadd, if_pos ⟨h0, by omega⟩, c.rounded_eq]
  simp only [c.and_mask]
  have hm := Nat.mod_lt (n + c.heapStructSize) hA
  have hdiv := Nat.div_add_mod (n + c.heapStructSize) c.byteAlignment
  by_cases ha : (n + c.heapStructSize) % c.byteAlignment = 0
  · rw [if_neg (by simpa using ha), if_pos ha, if_pos (by omega)]
  · rw [if_pos ha, if_neg ha]
    set m := (n + c.heapStructSize) % c.byteAlignment
    have hdvd : c.byteAlignment ∣ n + c.heapStructSize + (c.byteAlignment - m) := by
      refine ⟨(n + c.heapStructSize) / c.byteAlignment + 1, ?_⟩
      rw [Nat.mul_add, Nat.mul_one]
      omega
    by_cases hlt : n + c.heapStructSize + (c.byteAlignment - m) < 2 ^ c.sizeBits
    · rw [addw_of_lt hlt, if_pos (by omega), if_pos hlt, configAssert_of (Nat.mod_eq_zero_of_dvd hdvd)]
      rfl
    · -- the next multiple of the alignment is the first number that is no size
      obtain ⟨q, hq⟩ := c.align_dvd_pow
      obtain ⟨r, hr⟩ := hdvd
      have hle : n + c.heapStructSize + (c.byteAlignment - m) ≤ 2 ^ c.sizeBits := by
        by_contra hgt
        have hrq : q < r := by
          refine Nat.lt_of_mul_lt_mul_left (a := c.byteAlignment) ?_
          omega
        have hmul := Nat.mul_le_mul_left c.byteAlignment hrq
        rw [Nat.succ_eq_add_one, Nat.mul_add, Nat.mul_one, ← hq, ← hr] at hmul
        omega
      have heq : n + c.heapStructSize + (c.byteAlignment - m) = 2 ^ c.sizeBits := by omega
      have hwrap : addw c.sizeBits (n + c.heapStructSize) (c.byteAlignment - m) = 0 := by
        rw [addw, heq, Nat.mod_self]
      rw [hwrap, if_neg (by omega), if_neg hlt]

/-! ## Taking a block -/

variable {W : Nat}

theorem seekBlock_spec (hW : 0 < W) (hlast : h.link e = ⟨0, 0⟩) :
    ∀ {l : List Block} {a fuel : Nat}, FreeList (nextOf h) a l e → Spaced c.heapStructSize l e →
    Sized h l e → l.length < fuel →
    ∃ prev b, seekBlock h W fuel a (nextOf h a) = some (prev, b) ∧
      (b = e ∧ Each false (fun _ n => n < W) l e ∨ ∃ l1 l2, l = l1 ++ ⟨b, false⟩ :: l2 ∧ prev = lastFree a l1 ∧
        W ≤ start l2 e - b ∧ Each false (fun _ n => n < W) l1 b)
  | [], a, fuel + 1, hl, _, _, _ => by
    have hnext : nextOf h a = e := hl
    refine ⟨a, e, ?_, .inl ⟨rfl, trivial⟩⟩
    rw [seekBlock, hnext, hlast, if_neg (by simp)]
  | ⟨x, true⟩ :: l, a, fuel + 1, hl, hs, hz, hlen => by
    rw [length_cons] at hlen
    obtain ⟨prev, b, hgo, hb⟩ := seekBlock_spec hW hlast (freeList_used.mp hl) hs.2 hz.2
      (show l.length < fuel + 1 by omega)
    refine ⟨prev, b, hgo, hb.imp (fun ⟨he, hsmall⟩ => ⟨he, (fun hu => by cases hu), hsmall⟩) ?_⟩
    rintro ⟨l1, l2, rfl, hprev, hsize, hsmall⟩
    exact ⟨⟨x, true⟩ :: l1, l2, rfl, hprev, hsize, (fun hu => by cases hu), hsmall⟩
  | ⟨x, false⟩ :: l, a, fuel + 1, hl, hs, hz, hlen => by
    have hnext : nextOf h a = x := hl.1
    have hsize : (h.link x).xBlockSize = start l e - x := hz.1 rfl
    rw [length_cons] at hlen
    rw [hnext, seekBlock, hsize]
    by_cases hfit : W ≤ start l e - x
    · rw [if_neg (by omega)]
      exact ⟨a, x, rfl, .inr ⟨[], l, rfl, rfl, hfit, trivial⟩⟩
    · have hfirst := start_le_firstFree hs.2
      have hroom := hs.1
      have hne : (h.link x).pxNextFreeBlock ≠ 0 := by
        have : (h.link x).pxNextFreeBlock = firstFree l e := FreeList.next_eq hl.2
        have := c.struct_pos
        omega
      rw [if_pos ⟨by omega, hne⟩]
      obtain ⟨prev, b, hgo, hb⟩ := seekBlock_spec hW hlast hl.2 hs.2 hz.2
        (show l.length < fuel by omega)
      refine ⟨prev, b, hgo, hb.imp (fun ⟨he, hsmall⟩ => ⟨he, fun _ => not_le.mp hfit, hsmall⟩) ?_⟩
      rintro ⟨l1, l2, rfl, hprev, hsize, hsmall⟩
      refine ⟨⟨x, false⟩ :: l1, l2, rfl, hprev, hsize, fun _ => ?_, hsmall⟩
      rw [start_append] at hfit
      exact not_le.mp hfit

/-- A block `b` that is in no list, with the blocks behind it: the allocation is made
of it. -/
structure Taken (c : Board) (h : Heap) (pre : List Block) (b : Nat) (post : List Block) : Prop where
  spaced : Spaced c.heapStructSize (pre ++ ⟨b, true⟩ :: post) c.endAddress
  aligned : ∀ x ∈ post, c.byteAlignment ∣ x.off
  merged : Merged post
  list : FreeList (nextOf h) c.xStart (pre ++ ⟨b, true⟩ :: post) c.endAddress
  xStart : (h.link c.xStart).xBlockSize = 0
  last : h.link c.endAddress = ⟨0, 0⟩
  before : Sized h pre b
  behind : Sized h post c.endAddress
  size : (h.link b).xBlockSize = start post c.endAddress - b

/-- The headers of the allocated blocks among some are as they were. -/
def Kept (h h' : Heap) (pre post : List Block) : Prop :=
  ∀ x, (⟨x, true⟩ : Block) ∈ pre ∨ (⟨x, true⟩ : Block) ∈ post → h'.link x = h.link x

theorem Kept.trans {h'' : Heap} {post' : List Block} (hk : Kept h h' pre post) (hk' : Kept h' h'' pre post')
    (hpost : ∀ x, (⟨x, true⟩ : Block) ∈ post ↔ (⟨x, true⟩ : Block) ∈ post') : Kept h h'' pre post :=
  fun x hx => (hk' x (hx.imp_right (hpost x).mp)).trans (hk x hx)

theorem used_ne {u : Bool} (hl : c.Large) (hs : Spaced c.heapStructSize (pre ++ ⟨b, u⟩ :: post) c.endAddress)
    (hstart : c.alignedHeap.1 ≤ start (pre ++ ⟨b, u⟩ :: post) c.endAddress) {x : Nat}
    (hx : (⟨x, true⟩ : Block) ∈ pre ∨ (⟨x, true⟩ : Block) ∈ post) :
    x ≠ c.xStart ∧ (x < b ∨ start post c.endAddress ≤ x) ∧ (⟨x, false⟩ : Block) ∉ pre := by
  have hS := c.struct_pos
  obtain ⟨hpre, -, hb, hroom, hend, hbpre, hbpost⟩ := hs.around hS hstart
  rcases hx with hx | hx
  · have hxb := hbpre _ hx
    simp only at hxb
    refine ⟨Board.xStart_ne hl hxb.1 (by omega), .inl hxb.2, fun hf => ?_⟩
    -- a block is used or free
    have := hpre.off_unique hS hf hx
    cases this
  · have hxb := hbpost _ hx
    simp only at hxb
    refine ⟨Board.xStart_ne hl (by omega) hxb.2.le, .inr hxb.1, fun hf => ?_⟩
    have := hbpre _ hf
    simp only at this
    omega

theorem Listed.unlink (hl : c.Large) (hi : Listed c h (pre ++ ⟨b, false⟩ :: post)) :
    Taken c (h.setNext (lastFree c.xStart pre) (h.link b).pxNextFreeBlock) pre b post ∧
      Kept h (h.setNext (lastFree c.xStart pre) (h.link b).pxNextFreeBlock) pre post := by
  have hS := c.struct_pos
  obtain ⟨hs, hpost, hle, hroom, hend, hbpre, hbpost⟩ := hi.spaced.around hS hi.starts.ge
  obtain ⟨hlpre, hlb, hlpost⟩ := freeList_append.mp hi.list
  obtain ⟨hzpre, hzb, hzpost⟩ := each_append.mp hi.sized
  have hx : ∀ x, (⟨x, false⟩ : Block) ∈ pre → x ≠ c.xStart := fun x hm => by
    have := hbpre _ hm
    exact Board.xStart_ne hl this.1 (by simp only at this; omega)
  set it := lastFree c.xStart pre with hit
  have hwhere : it = c.xStart ∨ (⟨it, false⟩ : Block) ∈ pre :=
    (lastFree_mem (l := pre) (a := c.xStart)).imp And.left id
  have hne : ∀ x, b ≤ x → x ≤ c.endAddress → x ≠ it := by
    intro x h1 h2
    rcases hwhere with he | hm
    · rw [he]
      exact Board.xStart_ne hl (by omega) h2
    · have := (hbpre _ hm).2
      simp only at this
      omega
  set h1 := h.setNext it (h.link b).pxNextFreeBlock with hh1
  have hsize : ∀ x, (h1.link x).xBlockSize = (h.link x).xBlockSize := by
    intro x
    by_cases hxi : x = it
    · rw [hxi, hh1, Heap.setNext, setLink_self]
    · rw [hh1, Heap.setNext, setLink_of_ne h _ hxi]
  have hsame : ∀ x, x ≠ it → h1.link x = h.link x := fun x hx => setLink_of_ne h _ hx
  have hnext : nextOf h1 = Function.update (nextOf h) it (nextOf h b) := nextOf_setLink h it _
  have hbnext : nextOf h b = firstFree post c.endAddress := hlpost.next_eq
  refine ⟨⟨hi.spaced.take true, fun x hx => hi.aligned x (by simp [hx]), hi.merged.behind, ?_, ?_, ?_,
    hzpre.imp fun x n _ hn => ?_, hzpost.imp fun x n _ hn => ?_, ?_⟩, fun x hm => ?_⟩
  · refine freeList_append.mpr ⟨?_, ?_⟩
    · rw [hnext, firstFree_used, ← hbnext]
      exact hlpre.relink c.struct_pos hs hx
    · rw [freeList_used, hnext]
      refine FreeList.rehead hlpost ?_ fun x hm => ?_
      · rw [← hit, Function.update_self, hbnext]
      · have := hbpost _ hm
        simp only at this
        exact Function.update_of_ne (hne x (by omega) (by omega)) _ _
  · rw [hsize]
    exact hi.xStart
  · rw [hsame _ (hne _ (by omega) (le_refl _))]
    exact hi.last
  · rw [hsize]
    exact hn
  · rw [hsize]
    exact hn
  · rw [hsize]
    exact hzb rfl
  · obtain ⟨hxs, -, hnot⟩ := used_ne hl hi.spaced hi.starts.ge hm
    exact hsame x (hwhere.elim (fun he => he ▸ hxs) fun hf he => hnot (he ▸ hf))

theorem Taken.split (hl : c.Large) (ht : Taken c h pre b post)
    (hends : h.pxEnd = c.endAddress)
    (hstart : c.alignedHeap.1 ≤ start (pre ++ ⟨b, true⟩ :: post) c.endAddress)
    (hab : c.byteAlignment ∣ b) (hW : c.heapStructSize < W) (hWa : c.byteAlignment ∣ W)
    (hfit : W + c.heapStructSize < start post c.endAddress - b) :
    ∃ h', prvInsertBlockIntoFreeList c
        ((h.setSize (b + W) (start post c.endAddress - b - W)).setSize b W) (b + W) = some h' ∧
      Taken c h' pre b (⟨b + W, false⟩ :: dropFree post) ∧ h' = { h with link := h'.link } ∧ Kept h h' pre post := by
  have hS := c.struct_pos
  obtain ⟨hs, hpost, hle, hroom, hend, hbpre, hbpost⟩ := ht.spaced.around hS hstart
  have hnx : b + W ≠ c.xStart := Board.xStart_ne hl (by omega) (by omega)
  have hbx : b ≠ c.xStart := Board.xStart_ne hl (by omega) (by omega)
  set h1 := (h.setSize (b + W) (start post c.endAddress - b - W)).setSize b W with hh1
  have hnext : nextOf h1 = nextOf h := by
    have hset : ∀ (g : Heap) (a v : Nat), nextOf (g.setSize a v) = nextOf g := fun g a v => by
      rw [Heap.setSize, nextOf_setLink, Function.update_eq_self_iff]
      rfl
    rw [hh1, hset, hset]
  have hsame : ∀ x, x ≠ b → x ≠ b + W → h1.link x = h.link x := fun x hx1 hx2 => by
    rw [hh1, Heap.setSize, setLink_of_ne _ _ hx1, Heap.setSize, setLink_of_ne _ _ hx2]
  have hnew : (h1.link (b + W)).xBlockSize = start post c.endAddress - (b + W) := by
    rw [hh1, Heap.setSize, setLink_of_ne _ _ (by omega), Heap.setSize, setLink_self, Nat.sub_sub]
  have hready : Ready c h1 (pre ++ [⟨b, true⟩]) (b + W) post := by
    have hspaced : Spaced c.heapStructSize (pre ++ [⟨b, true⟩] ++ ⟨b + W, true⟩ :: post) c.endAddress := by
      rw [append_assoc, singleton_append]
      refine spaced_append.mpr ⟨hs, ?_, ?_, hpost⟩
      · show b + c.heapStructSize ≤ b + W
        omega
      · show b + W + c.heapStructSize ≤ start post c.endAddress
        omega
    refine ⟨hspaced, ?_, hends, ?_, ?_, ?_, ?_, hnew⟩
    · rw [append_assoc, start_append]
      rw [start_append] at hstart
      exact hstart
    · rw [hnext, append_assoc, singleton_append]
      obtain ⟨h2, h3⟩ := freeList_append.mp ht.list
      exact freeList_append.mpr ⟨h2, h3⟩
    · rw [hsame _ hbx.symm hnx.symm]
      exact ht.xStart
    · refine each_append.mpr ⟨ht.before.imp fun x n hm hn => ?_, (fun hu => by cases hu), trivial⟩
      have hx := hbpre _ hm
      simp only at hx
      rw [hsame x (by omega) (by omega)]
      exact hn
    · refine ht.behind.imp fun x n hm hn => ?_
      have hx := hbpost _ hm
      simp only at hx
      rw [hsame x (by omega) (by omega)]
      exact hn
  obtain ⟨h', hgo, hins⟩ := hready.insert hl
  have hplug : absorb (pre ++ [⟨b, true⟩]) (b + W) ++ dropFree post =
      pre ++ ⟨b, true⟩ :: ⟨b + W, false⟩ :: dropFree post := by
    rw [absorb_used, append_assoc, append_assoc, singleton_append, singleton_append]
  have hspaced := Spaced.plug hready.spaced
  have hlist := hins.list
  have hsized := hins.sized
  rw [hplug] at hlist hsized hspaced
  -- what the insertion does not touch
  have hframe : ∀ x, x ≠ c.xStart → x ≠ b → x ≠ b + W → (⟨x, false⟩ : Block) ∉ pre →
      h'.link x = h.link x := fun x h1 h2 h3 h4 => by
    rw [hins.frame x h1 h3 (by simp [h4]), hsame x h2 h3]
  have hmerged : Merged (⟨b + W, false⟩ :: dropFree post) := by
    have : Merged (absorb [⟨b, true⟩] (b + W) ++ dropFree post) := .plug (.singleton _) ht.merged
    exact List.IsChain.tail this
  obtain ⟨hzpre, _, hzpost⟩ := each_append.mp hsized
  refine ⟨h', hgo, ⟨hspaced, fun x hx => ?_, hmerged, hlist, hins.xStart, ?_, hzpre, hzpost, ?_⟩, ?_, fun x hm => ?_⟩
  · rcases mem_cons.mp hx with rfl | hx
    · exact Nat.dvd_add hab hWa
    · exact ht.aligned x (mem_dropFree hx)
  · have hnot : (⟨c.endAddress, false⟩ : Block) ∉ pre := fun hm => by
      have := hbpre _ hm
      simp only at this
      omega
    rw [hframe _ (Board.xStart_ne hl (by omega) (le_refl _)) (by omega) (by omega) hnot]
    exact ht.last
  · have hnot : (⟨b, false⟩ : Block) ∉ pre ++ [⟨b, true⟩] := fun hm => by
      rcases mem_append.mp hm with hm | hm
      · exact (hbpre _ hm).2.ne rfl
      · simp at hm
    rw [hins.frame b hbx (by omega) hnot, hh1, Heap.setSize, setLink_self]
    simp
  · rw [hins.rest]
    rfl
  · obtain ⟨hxs, hxb, hnot⟩ := used_ne hl ht.spaced hstart hm
    exact hframe x hxs (by omega) (by omega) hnot

/-- The blocks behind a taken one: a block that is cut off first, if what is left over is large enough. -/
def leftOver (c : Board) (b W : Nat) (post : List Block) : List Block :=
  if c.minimumBlockSize < start post c.endAddress - b - W then ⟨b + W, false⟩ :: dropFree post else post

/-- The blocks behind a taken one and its size, whether it was split or not. -/
structure Splits (c : Board) (h : Heap) (pre : List Block) (b : Nat) (post : List Block) (h' : Heap)
    (post' : List Block) : Prop where
  taken : Taken c h' pre b post'
  rest : h' = { h with link := h'.link }
  bytes : start post' c.endAddress - b + freeBytes post' c.endAddress =
    start post c.endAddress - b + freeBytes post c.endAddress
  used : ∀ x, (⟨x, true⟩ : Block) ∈ post' ↔ (⟨x, true⟩ : Block) ∈ post
  kept : Kept h h' pre post

theorem splitBlock_spec (hl : c.Large) (ht : Taken c h pre b post) (hends : h.pxEnd = c.endAddress)
    (hstart : c.alignedHeap.1 ≤ start (pre ++ ⟨b, true⟩ :: post) c.endAddress)
    (hab : c.byteAlignment ∣ b) (hW : c.heapStructSize < W) (hWa : c.byteAlignment ∣ W)
    (hfit : W ≤ start post c.endAddress - b) :
    ∃ h', splitBlock c h b W = some h' ∧ Splits c h pre b post h' (leftOver c b W post) := by
  have hlt := Board.endAddress_lt hl
  obtain ⟨_, hroom, hpost⟩ := spaced_append.mp ht.spaced
  have hend := hpost.start_le
  have hsub : subw c.sizeBits (start post c.endAddress - b) W = start post c.endAddress - b - W :=
    subw_of_le hfit (by omega)
  unfold splitBlock leftOver
  rw [ht.size, hsub, c.minimumBlockSize_eq]
  by_cases hbig : 2 * c.heapStructSize < start post c.endAddress - b - W
  · have hnew : addw c.sizeBits b W = b + W := addw_of_lt (by omega)
    have haligned : (b + W) &&& c.byteAlignmentMask = 0 := by
      rw [c.and_mask]
      exact Nat.mod_eq_zero_of_dvd (Nat.dvd_add hab hWa)
    obtain ⟨h', hgo, htaken, hrest, hkept⟩ := ht.split hl hends hstart hab hW hWa (by omega)
    rw [if_pos hbig, if_pos hbig, hnew]
    simp only [configAssert_of haligned, bind, Option.bind_some]
    refine ⟨h', hgo, htaken, hrest, ?_, fun x => ?_, hkept⟩
    · have hspaced : Spaced c.heapStructSize ([] ++ ⟨b + W, false⟩ :: post) c.endAddress :=
        ⟨by show b + W + _ ≤ _; omega, hpost⟩
      have hplug := freeBytes_plug hspaced
      simp only [absorb_nil, singleton_append, freeBytes_nil] at hplug
      show b + W - b + _ = _
      omega
    · have : ⟨x, true⟩ ∈ absorb [] (b + W) ++ dropFree post ↔
          (⟨x, true⟩ : Block) ∈ [] ∨ (⟨x, true⟩ : Block) ∈ post := mem_plug
      rw [absorb_nil, singleton_append] at this
      rw [this]
      simp
  · rw [if_neg hbig, if_neg hbig]
    exact ⟨h, rfl, ht, rfl, rfl, fun x => Iff.rfl, fun x _ => rfl⟩

theorem Taken.listed (hl : c.Large) (ht : Taken c h pre b post)
    (hends : h.pxEnd = c.endAddress) (hbit : h.xBlockAllocatedBit = c.allocatedBit)
    (hstart : start (pre ++ ⟨b, true⟩ :: post) c.endAddress = c.alignedHeap.1)
    (hpre : ∀ x ∈ pre, c.byteAlignment ∣ x.off) (hb : c.byteAlignment ∣ b) (hm : Merged pre)
    (h' : Heap) {v : BlockLink} (hends' : h'.pxEnd = h.pxEnd) (hbit' : h'.xBlockAllocatedBit = h.xBlockAllocatedBit)
    (hlink : h'.link = (h.setLink b v).link)
    (hbytes : h'.xFreeBytesRemaining = freeBytes pre b + freeBytes post c.endAddress) :
    Listed c h' (pre ++ ⟨b, true⟩ :: post) ∧ h'.link b = v ∧ Kept h h' pre post := by
  have hS := c.struct_pos
  obtain ⟨hs, hpost, hle, hroom, hend, hbpre, hbpost⟩ := ht.spaced.around hS hstart.ge
  have hmine : h'.link b = v := by rw [hlink, setLink_self]
  have hother : ∀ x, x ≠ b → h'.link x = h.link x := fun x hx => by rw [hlink, setLink_of_ne h v hx]
  have hnotPre : ∀ x ∈ pre, x.off ≠ b := fun x hx => (hbpre x hx).2.ne
  have hnotPost : ∀ x ∈ post, x.off ≠ b := fun x hx => by
    have := hbpost x hx
    omega
  have hbx : b ≠ c.xStart := Board.xStart_ne hl (by omega) (by omega)
  refine ⟨⟨hends'.trans hends, hbit'.trans hbit, ht.spaced, hstart, fun x hx => ?_, hm.use ht.merged, ?_, ?_,
    ?_, ?_, ?_⟩, hmine, fun x hx => ?_⟩
  · rcases mem_append.mp hx with hx | hx
    · exact hpre x hx
    · rcases mem_cons.mp hx with rfl | hx
      · exact hb
      · exact ht.aligned x hx
  · refine ht.list.frame ?_ fun x hx => ?_
    · rw [nextOf, nextOf, hother _ hbx.symm]
    · have hxb : x ≠ b := by
        simp only [mem_append, mem_cons, Block.mk.injEq, Bool.false_eq_true, and_false, false_or] at hx
        rcases hx with hx | hx
        · exact hnotPre _ hx
        · exact hnotPost _ hx
      rw [nextOf, nextOf, hother x hxb]
  · rw [hother _ hbx.symm]
    exact ht.xStart
  · rw [hother _ (by omega)]
    exact ht.last
  · refine each_append.mpr ⟨ht.before.imp fun x n hx hn => ?_, (fun hu => by cases hu),
      ht.behind.imp fun x n hx hn => ?_⟩
    · rw [hother x (hnotPre _ hx)]
      exact hn
    · rw [hother x (hnotPost _ hx)]
      exact hn
  · rw [hbytes, freeBytes_append, freeBytes_used, start_cons]
  · rcases hx with hx | hx
    · exact hother x (hnotPre _ hx)
    · exact hother x (hnotPost _ hx)

/-- What an allocation of `W` bytes, with the header, does: the lowest free block `b` that
is large enough is taken, and what is left over stays free. -/
structure Takes (c : Board) (h : Heap) (W : Nat) (r : Heap × Nat) (pre : List Block) (b : Nat) (post : List Block) :
    Prop where
  lowest : Each false (fun _ n => n < W) pre b
  fits : W ≤ start post c.endAddress - b
  listed : Listed c r.1 (pre ++ ⟨b, true⟩ :: leftOver c b W post)
  header : r.1.link b = ⟨0, (start (leftOver c b W post) c.endAddress - b) ||| c.allocatedBit⟩
  kept : Kept h r.1 pre post
  used : ∀ x, (⟨x, true⟩ : Block) ∈ leftOver c b W post ↔ (⟨x, true⟩ : Block) ∈ post
  ptr : r.2 = b + c.heapStructSize
  bytes : r.1.xFreeBytesRemaining + (start (leftOver c b W post) c.endAddress - b) = h.xFreeBytesRemaining
  least : r.1.xMinimumEverFreeBytesRemaining = min r.1.xFreeBytesRemaining h.xMinimumEverFreeBytesRemaining

/-- **The search of `pvPortMalloc` is a first fit.** -/
theorem takeBlock_spec (hl : c.Large) (hi : Listed c h bs) (hW : c.heapStructSize < W) (hWa : c.byteAlignment ∣ W) :
    ∃ r, takeBlock c h W = some r ∧ (r = (h, 0) ∧ Each false (fun _ n => n < W) bs c.endAddress ∨
      ∃ pre b post, bs = pre ++ ⟨b, false⟩ :: post ∧ Takes c h W r pre b post) := by
  have hlt := Board.endAddress_lt hl
  have hlen := hi.spaced.length_le c.struct_pos
  obtain ⟨prev, b, hseek, hb⟩ := seekBlock_spec (c := c) (show 0 < W by omega) hi.last hi.list hi.spaced
    hi.sized (show bs.length < c.enough by unfold Board.enough; omega)
  have hseek' : seekBlock h W c.enough c.xStart (h.link c.xStart).pxNextFreeBlock = some (prev, b) := hseek
  unfold takeBlock
  simp only [hseek', bind, Option.bind_some, hi.ends]
  rcases hb with ⟨rfl, hsmall⟩ | ⟨pre, post, rfl, rfl, hfit, hlowest⟩
  · exact ⟨(h, 0), if_neg (by simp), .inl ⟨rfl, hsmall⟩⟩
  obtain ⟨hs, hroom, hpost⟩ := spaced_append.mp hi.spaced
  have hend := hpost.start_le
  have hne : b ≠ c.endAddress := by omega
  have hab := hi.aligned ⟨b, false⟩ (by simp)
  have hnext : (h.link (lastFree c.xStart pre)).pxNextFreeBlock = b := (freeList_append.mp hi.list).2.1
  have hpv : addw c.sizeBits b c.heapStructSize = b + c.heapStructSize := addw_of_lt (by omega)
  obtain ⟨ht, hkept⟩ := hi.unlink hl
  have hstart : start (pre ++ ⟨b, true⟩ :: post) c.endAddress = c.alignedHeap.1 := by
    rw [← hi.starts, start_append, start_append]
    rfl
  set h1 := h.setNext (lastFree c.xStart pre) (h.link b).pxNextFreeBlock with hh1
  obtain ⟨h2, hgo, hsp⟩ := splitBlock_spec hl ht hi.ends hstart.ge hab hW hWa hfit
  set post' := leftOver c b W post with hpost'
  have ht2 := hsp.taken
  have hfree2 : h2.xFreeBytesRemaining = h.xFreeBytesRemaining := by rw [hsp.rest]; rfl
  have hmin2 : h2.xMinimumEverFreeBytesRemaining = h.xMinimumEverFreeBytesRemaining := by rw [hsp.rest]; rfl
  have hbit2 : h2.xBlockAllocatedBit = c.allocatedBit := by rw [hsp.rest]; exact hi.bit
  have hends2 : h2.pxEnd = c.endAddress := by rw [hsp.rest]; exact hi.ends
  -- the bytes of the block leave the count
  have hbytes := hi.bytes
  rw [freeBytes_append, freeBytes_free, start_cons] at hbytes
  have hsplit := hsp.bytes
  have hsum := freeBytes_le hi.spaced
  rw [← hi.bytes] at hsum
  have hfree : subw c.sizeBits h2.xFreeBytesRemaining (h2.link b).xBlockSize =
      freeBytes pre b + freeBytes post' c.endAddress := by
    simp only at hbytes
    rw [hfree2, ht2.size, subw_of_le (by omega) (by omega)]
    omega
  have hstart2 : start (pre ++ ⟨b, true⟩ :: post') c.endAddress = c.alignedHeap.1 := by
    rw [← hi.starts, start_append, start_append]
    rfl
  obtain ⟨hlisted, hheader, hkept2⟩ := ht2.listed hl hends2 hbit2 hstart2 (fun x hx => hi.aligned x (by simp [hx]))
    hab hi.merged.before { h2 with
      link := (h2.setLink b ⟨0, (h2.link b).xBlockSize ||| h2.xBlockAllocatedBit⟩).link
      xFreeBytesRemaining := subw c.sizeBits h2.xFreeBytesRemaining (h2.link b).xBlockSize
      xMinimumEverFreeBytesRemaining :=
        if subw c.sizeBits h2.xFreeBytesRemaining (h2.link b).xBlockSize < h2.xMinimumEverFreeBytesRemaining
        then subw c.sizeBits h2.xFreeBytesRemaining (h2.link b).xBlockSize else h2.xMinimumEverFreeBytesRemaining
      xNumberOfSuccessfulAllocations := addw c.sizeBits h2.xNumberOfSuccessfulAllocations 1 } rfl rfl rfl hfree
  refine ⟨_, by rw [if_pos hne, hnext, hpv, hgo]; rfl, .inr ⟨pre, b, post, rfl, hlowest, hfit, hlisted, ?_, ?_,
    hsp.used, rfl, ?_, ?_⟩⟩
  · refine hheader.trans ?_
    rw [ht2.size, hbit2]
  · exact (hkept.trans hsp.kept fun x => Iff.rfl).trans hkept2 fun x => (hsp.used x).symm
  · show subw c.sizeBits h2.xFreeBytesRemaining (h2.link b).xBlockSize + (start post' c.endAddress - b) =
      h.xFreeBytesRemaining
    simp only at hbytes
    omega
  · rw [← hmin2]
    exact (min_def_lt _ _).symm

theorem allocate_spec (hl : c.Large) (hi : Listed c h bs) (hn : n < 2 ^ c.sizeBits) :
    ∃ r, allocate c h n = some r ∧
      (r = (h, 0) ∧ (0 < n → n < c.allocatedBit → Each false (fun _ m => m < c.rounded n) bs c.endAddress) ∨
        n < c.allocatedBit ∧
          ∃ pre b post, bs = pre ++ ⟨b, false⟩ :: post ∧ Takes c h (c.rounded n) r pre b post) := by
  have hsucc : c.sizeBits - 1 + 1 = c.sizeBits := Nat.sub_add_cancel c.bits_pos
  have htop : n &&& c.allocatedBit = 0 ↔ n < c.allocatedBit :=
    and_top_eq_zero (by rw [hsucc]; exact hn)
  have hround := c.le_rounded n
  unfold allocate
  rw [hi.bit]
  by_cases ht : n < c.allocatedBit
  · rw [if_pos (htop.mpr ht)]
    by_cases h0 : 0 < n
    · rw [wantedSize_spec h0 ht]
      simp only [bind, Option.bind_some]
      by_cases hfit : c.rounded n < 2 ^ c.sizeBits ∧ c.rounded n ≤ h.xFreeBytesRemaining
      · rw [if_pos hfit.1, if_pos ⟨by omega, hfit.2⟩]
        obtain ⟨r, hr, hcase⟩ := takeBlock_spec hl hi (by omega) (c.rounded_dvd n)
        exact ⟨r, hr, hcase.imp (fun ⟨he, hsmall⟩ => ⟨he, fun _ _ => hsmall⟩) fun htakes => ⟨ht, htakes⟩⟩
      · refine ⟨(h, 0), if_neg fun hw => hfit ?_, .inl ⟨rfl, fun _ _ => ?_⟩⟩
        · by_cases hlt : c.rounded n < 2 ^ c.sizeBits
          · rw [if_pos hlt] at hw
            exact ⟨hlt, hw.2⟩
          · rw [if_neg hlt] at hw
            exact absurd hw.1 (lt_irrefl 0)
        · -- a block is no larger than all free bytes, and these are a size
          have hend := Board.endAddress_lt hl
          have hsum := freeBytes_le hi.spaced
          rw [← hi.bytes] at hsum
          refine each_le_freeBytes.imp fun x m _ hm => ?_
          rw [← hi.bytes] at hm
          by_contra hge
          exact hfit ⟨by omega, by omega⟩
    · have hzero : wantedSize c n = some 0 := if_neg fun hw => h0 hw.1
      rw [hzero]
      exact ⟨(h, 0), rfl, .inl ⟨rfl, fun hpos => absurd hpos h0⟩⟩
  · rw [if_neg fun hz => ht (htop.mp hz)]
    exact ⟨(h, 0), rfl, .inl ⟨rfl, fun _ hlt => absurd hlt ht⟩⟩

theorem each_leftOver {P : Nat → Nat → Prop} (hp : Each true P post c.endAddress) :
    Each true P (leftOver c b W post) c.endAddress := by
  unfold leftOver
  split
  · exact ⟨(fun hu => by cases hu), hp.dropFree⟩
  · exact hp

theorem Takes.inv {r : Heap × Nat} (hi : Inv c h (pre ++ ⟨b, false⟩ :: post)) (ht : Takes c h W r pre b post)
    (hsize : start (leftOver c b W post) c.endAddress - b < c.allocatedBit) :
    Inv c r.1 (pre ++ ⟨b, true⟩ :: leftOver c b W post) := by
  obtain ⟨hmpre, _, hmpost⟩ := each_append.mp hi.marked
  refine ⟨ht.listed, each_append.mpr ⟨hmpre.imp fun x n hx hn => ?_, fun _ => ?_, ?_⟩⟩
  · rw [ht.kept x (.inl hx)]
    exact hn
  · exact ht.header.trans (congrArg (BlockLink.mk 0) (or_top hsize))
  · refine Each.imp (each_leftOver hmpost) fun x n hx hn => ?_
    rw [ht.kept x (.inr ((ht.used x).mp hx))]
    exact hn

/-- **`pvPortMalloc`** of any size returns: nothing, if the size has the bit or no free block is large enough, or a
block that it has taken. -/
theorem pvPortMalloc_spec (hl : c.Large) (hi : Listed c (initialised c h) bs) (hn : n < 2 ^ c.sizeBits) :
    ∃ r, pvPortMalloc c h n = some r ∧
      (r = (initialised c h, 0) ∧
          (0 < n → n < c.allocatedBit → Each false (fun _ m => m < c.rounded n) bs c.endAddress) ∨
        n < c.allocatedBit ∧
          ∃ pre b post, bs = pre ++ ⟨b, false⟩ :: post ∧ Takes c (initialised c h) (c.rounded n) r pre b post) := by
  obtain ⟨r, hr, hcase⟩ := allocate_spec hl hi hn
  have hassert : r.2 &&& c.byteAlignmentMask = 0 := by
    rcases hcase with ⟨rfl, -⟩ | ⟨-, pre, b, post, rfl, ht⟩
    · exact Nat.zero_and _
    · rw [ht.ptr, c.and_mask]
      exact Nat.mod_eq_zero_of_dvd (Nat.dvd_add (hi.aligned ⟨b, false⟩ (by simp)) c.struct_dvd)
  refine ⟨r, ?_, hcase⟩
  simp only [pvPortMalloc, hr, bind, Option.bind_some, configAssert_of hassert, pure]

/-! ## Giving a block back -/

/-- The mark of the block at `b` is off and its `n` bytes are counted; the rest stands. -/
structure Released (h : Heap) (b n : Nat) (h' : Heap) : Prop where
  block : h'.link b = ⟨0, n⟩
  others : ∀ x, x ≠ b → h'.link x = h.link x
  bytes : h'.xFreeBytesRemaining = h.xFreeBytesRemaining + n
  rest : h' = { h with link := h'.link, xFreeBytesRemaining := h'.xFreeBytesRemaining }

theorem Listed.released (hl : c.Large) (hi : Listed c h (pre ++ ⟨b, true⟩ :: post))
    (hlink : h.link b = ⟨0, start post c.endAddress - b + c.allocatedBit⟩)
    (hsize : start post c.endAddress - b < c.allocatedBit) :
    Released h b (start post c.endAddress - b) (releaseBlock c h b) := by
  have hsucc : c.sizeBits - 1 + 1 = c.sizeBits := Nat.sub_add_cancel c.bits_pos
  have hclear : (start post c.endAddress - b + c.allocatedBit) &&& (2 ^ c.sizeBits - 1 - c.allocatedBit) =
      start post c.endAddress - b := by
    have := and_not_top (k := c.sizeBits - 1) hsize
    rw [hsucc] at this
    exact this
  have hlt := Board.endAddress_lt hl
  have hbytes := hi.bytes
  rw [freeBytes_append, freeBytes_used, start_cons] at hbytes
  have hsum := freeBytes_le (Spaced.plug (o := b) hi.spaced)
  rw [freeBytes_plug hi.spaced] at hsum
  simp only at hbytes
  have hadd : addw c.sizeBits h.xFreeBytesRemaining (start post c.endAddress - b) =
      h.xFreeBytesRemaining + (start post c.endAddress - b) := addw_of_lt (by omega)
  refine ⟨?_, fun x hx => setLink_of_ne h _ hx, ?_, rfl⟩ <;>
    simp only [releaseBlock, hlink, hi.bit, hclear, Heap.setSize, setLink_self]
  exact hadd

variable {h1 h2 : Heap}

/-- The released block is in no list yet. -/
theorem Released.ready (hl : c.Large) (hi : Listed c h (pre ++ ⟨b, true⟩ :: post))
    (hlink : (h.link b).pxNextFreeBlock = 0) (hr : Released h b (start post c.endAddress - b) h1) : Ready c h1 pre b post := by
  have hS := c.struct_pos
  obtain ⟨_, _, hle, hroom, hend, hbpre, hbpost⟩ := hi.spaced.around hS hi.starts.ge
  obtain ⟨hzpre, _, hzpost⟩ := each_append.mp hi.sized
  have hnext : nextOf h1 = nextOf h := by
    funext x
    by_cases hx : x = b
    · rw [hx, nextOf, nextOf, hr.block, hlink]
    · rw [nextOf, nextOf, hr.others x hx]
  refine ⟨hi.spaced, hi.starts.ge, ?_, hnext ▸ hi.list, ?_, hzpre.imp fun x n hx hn => ?_,
    hzpost.imp fun x n hx hn => ?_, ?_⟩
  · rw [hr.rest]
    exact hi.ends
  · rw [hr.others _ (Board.xStart_ne hl (by omega) (by omega)).symm]
    exact hi.xStart
  · rw [hr.others x (hbpre _ hx).2.ne]
    exact hn
  · have := (hbpost _ hx).1
    rw [hr.others x (by simp only at this; omega)]
    exact hn
  · rw [hr.block]

/-- Once it is inserted, the blocks are listed with it. -/
theorem Released.listed (hl : c.Large) (hi : Listed c h (pre ++ ⟨b, true⟩ :: post))
    (hr : Released h b (start post c.endAddress - b) h1) (hins : Inserted c h1 pre b post h2) :
    Listed c h2 (absorb pre b ++ dropFree post) := by
  have hS := c.struct_pos
  obtain ⟨_, _, hle, hroom, hend, hbpre, _⟩ := hi.spaced.around hS hi.starts.ge
  refine ⟨?_, ?_, Spaced.plug hi.spaced, start_plug.trans hi.starts, fun x hx => ?_,
    hi.merged.before.plug hi.merged.behind, hins.list, hins.xStart, ?_, hins.sized, ?_⟩
  · rw [hins.rest, hr.rest]
    exact hi.ends
  · rw [hins.rest, hr.rest]
    exact hi.bit
  · rcases mem_of_plug hx with hx | hx | hx
    · exact hi.aligned x (by simp [hx])
    · rw [hx]
      exact hi.aligned ⟨b, true⟩ (by simp)
    · exact hi.aligned x (by simp [hx])
  · have hnot : (⟨c.endAddress, false⟩ : Block) ∉ pre := fun hm => by
      have := hbpre _ hm
      simp only at this
      omega
    rw [hins.frame _ (Board.xStart_ne hl (by omega) (le_refl _)) (by omega) hnot, hr.others _ (by omega)]
    exact hi.last
  · rw [hins.rest, freeBytes_plug hi.spaced]
    simp only
    rw [hr.bytes, hi.bytes, freeBytes_append, freeBytes_used, start_cons]
    simp only
    omega

theorem Listed.free (hl : c.Large) (hi : Listed c h (pre ++ ⟨b, true⟩ :: post))
    (hlink : h.link b = ⟨0, start post c.endAddress - b + c.allocatedBit⟩)
    (hsize : start post c.endAddress - b < c.allocatedBit) :
    ∃ h', vPortFree c h (b + c.heapStructSize) = some h' ∧ Listed c h' (absorb pre b ++ dropFree post) ∧
      Kept h h' pre post ∧ h'.xFreeBytesRemaining = h.xFreeBytesRemaining + (start post c.endAddress - b) ∧
      h'.xMinimumEverFreeBytesRemaining = h.xMinimumEverFreeBytesRemaining := by
  have hS := c.struct_pos
  have hlt := Board.endAddress_lt hl
  have hp := c.pow_sizeBits
  have hsucc : c.sizeBits - 1 + 1 = c.sizeBits := Nat.sub_add_cancel c.bits_pos
  obtain ⟨_, _, hle, hroom, hend, _, _⟩ := hi.spaced.around hS hi.starts.ge
  have hpx : subw c.sizeBits (b + c.heapStructSize) c.heapStructSize = b := by
    rw [subw_of_le (by omega) (by omega), Nat.add_sub_cancel]
  have hset : (start post c.endAddress - b + c.allocatedBit) &&& c.allocatedBit ≠ 0 := by
    rw [Ne, Board.allocatedBit, and_top_eq_zero (by rw [hsucc, hp]; unfold Board.allocatedBit at *; omega)]
    omega
  have hr := hi.released hl hlink hsize
  obtain ⟨h2, hgo, hins⟩ := (hr.ready hl hi (by rw [hlink])).insert hl
  have hlisted := hr.listed hl hi hins
  refine ⟨{ h2 with xNumberOfSuccessfulFrees := addw c.sizeBits h2.xNumberOfSuccessfulFrees 1 }, ?_,
    { hlisted with }, fun x hx => ?_, ?_, ?_⟩
  · have hne : b + c.heapStructSize ≠ 0 := by omega
    simp only [vPortFree, if_pos hne, hpx, hlink, hi.bit, configAssert_of hset,
      configAssert_of trivial, bind, Option.bind_some, if_pos hset, if_true, hgo, pure]
  · -- the insertion leaves the headers of the allocated blocks alone
    obtain ⟨hxs, hxb, hnot⟩ := used_ne hl hi.spaced hi.starts.ge hx
    have hne : x ≠ b := by omega
    exact (hins.frame x hxs hne hnot).trans (hr.others x hne)
  · show h2.xFreeBytesRemaining = _
    rw [hins.rest]
    exact hr.bytes
  · show h2.xMinimumEverFreeBytesRemaining = _
    rw [hins.rest, hr.rest]

/-- **`vPortFree`** of an allocated block returns, with the block free and merged. -/
theorem vPortFree_spec (hl : c.Large) (hi : Inv c h (pre ++ ⟨b, true⟩ :: post))
    (hsize : start post c.endAddress - b < c.allocatedBit) :
    ∃ h', vPortFree c h (b + c.heapStructSize) = some h' ∧ Inv c h' (absorb pre b ++ dropFree post) ∧
      h.xFreeBytesRemaining ≤ h'.xFreeBytesRemaining ∧
      h'.xMinimumEverFreeBytesRemaining = h.xMinimumEverFreeBytesRemaining := by
  obtain ⟨h', hgo, hlisted, hkept, hbytes, hmin⟩ := hi.listed.free hl hi.marked.at hsize
  refine ⟨h', hgo, ⟨hlisted, Each.imp hi.marked.plug fun x n hm hn => ?_⟩, by omega, hmin⟩
  rw [hkept x (mem_plug.mp hm)]
  exact hn

end RtosKernel.FreeRTOS.Heap4
