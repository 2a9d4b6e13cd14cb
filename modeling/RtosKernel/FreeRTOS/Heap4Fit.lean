import RtosKernel.FreeRTOS.Heap4Runs

/-! # First fit, and back

`pvPortMalloc` takes the lowest free block that is large enough for the request with its
header, and cuts off what is left over. `vPortFree` right behind it undoes just that. -/
namespace RtosKernel.FreeRTOS.Heap4
open Lib.Word Lib.Tiling FreeRTOS.Def

/-- What a request leaves of a free block. -/
def Board.remainder (c : Board) (n : Nat) (x : Nat × Nat) : List (Nat × Nat) :=
  if c.minimumBlockSize < x.2 - c.rounded n then [(x.1 + c.rounded n, x.2 - c.rounded n)] else []

/-- A request is served from the free block `x`. -/
structure ServedFrom (c : Board) (h : Heap) (l1 : List (Nat × Nat)) (x : Nat × Nat) (l2 : List (Nat × Nat)) (n : Nat)
    (r : Heap × Nat) : Prop where
  ptr : r.2 = userPtr c x.1
  aligned : c.byteAlignment ∣ r.2
  /-- the bytes that may be used lie in the part of the block that is taken -/
  usable : r.2 + n ≤ x.1 + c.takenSize n x.2
  inside : c.takenSize n x.2 ≤ x.2
  free : FreeIs c r.1 (l1 ++ c.remainder n x ++ l2)
  bytes : r.1.xFreeBytesRemaining + c.takenSize n x.2 = h.xFreeBytesRemaining
  /-- a taken block that is smaller than the bit is given back without a trace in the free list -/
  restored : c.takenSize n x.2 < c.allocatedBit → ∃ h', vPortFree c r.1 r.2 = some h' ∧
    FreeIs c h' (l1 ++ x :: l2) ∧ h'.xFreeBytesRemaining = h.xFreeBytesRemaining

/-- A request gets the lowest free block that is large enough, and nothing if it has the
top bit or there is no such block. -/
structure FirstFit (c : Board) (h : Heap) (free : List (Nat × Nat)) (n : Nat) (r : Heap × Nat) : Prop where
  null : (c.allocatedBit ≤ n ∨ ∀ x ∈ free, x.2 < c.rounded n) → r = (h, 0)
  found : n < c.allocatedBit → (∃ x ∈ free, c.rounded n ≤ x.2) →
    ∃ l1 x l2, free = l1 ++ x :: l2 ∧ c.rounded n ≤ x.2 ∧ (∀ y ∈ free, c.rounded n ≤ y.2 → x.1 ≤ y.1) ∧
      ServedFrom c h l1 x l2 n r

variable {c : Board} {h : Heap} {bs pre post : List Block} {free : List (Nat × Nat)} {n b : Nat}

theorem freeExtents_leftOver (hm : Merged (pre ++ ⟨b, false⟩ :: post)) :
    freeExtents (leftOver c b (c.rounded n) post) c.endAddress =
      c.remainder n (b, start post c.endAddress - b) ++ freeExtents post c.endAddress := by
  unfold leftOver Board.remainder
  split
  · rw [hm.dropFree_eq]
    show (b + c.rounded n, start post c.endAddress - (b + c.rounded n)) :: freeExtents post c.endAddress = _
    rw [Nat.sub_add_eq]
    rfl
  · rfl

theorem dropFree_leftOver (hm : Merged (pre ++ ⟨b, false⟩ :: post)) : dropFree (leftOver c b (c.rounded n) post) = post := by
  unfold leftOver
  split
  · rw [dropFree_free, hm.dropFree_eq]
  · exact hm.dropFree_eq

/-- **A taken block serves the request**, and giving it back restores the blocks. -/
theorem Takes.served {r : Heap × Nat} (hl : c.Large) (hi : Listed c h (pre ++ ⟨b, false⟩ :: post))
    (ht : Takes c h (c.rounded n) r pre b post) :
    ServedFrom c h (freeExtents pre b) (b, start post c.endAddress - b) (freeExtents post c.endAddress) n r := by
  have hround := c.le_rounded n
  have htaken : c.rounded n ≤ c.takenSize n (start post c.endAddress - b) ∧
      c.takenSize n (start post c.endAddress - b) ≤ start post c.endAddress - b := by
    have hfits := ht.fits
    unfold Board.takenSize
    split <;> exact ⟨by omega, by omega⟩
  have hbytes := ht.bytes
  rw [start_leftOver] at hbytes
  refine ⟨ht.ptr, ?_, ?_, htaken.2, ?_, hbytes, fun hsmall => ?_⟩
  · rw [ht.ptr]
    exact Nat.dvd_add (hi.aligned ⟨b, false⟩ (by simp)) c.struct_dvd
  · rw [ht.ptr]
    show b + c.heapStructSize + n ≤ b + c.takenSize n (start post c.endAddress - b)
    omega
  · have hfree := ht.listed.freeIs
    rw [freeExtents_append] at hfree
    show FreeIs c r.1 _
    rw [List.append_assoc, ← freeExtents_leftOver hi.merged]
    exact hfree
  · rw [← start_leftOver] at hsmall
    obtain ⟨h', hgo, hlisted, -, hback, -⟩ := ht.listed.free hl (ht.header.trans (congrArg (BlockLink.mk 0) (or_top hsmall))) hsmall
    rw [hi.merged.absorb_eq, dropFree_leftOver hi.merged, List.append_assoc, List.singleton_append] at hlisted
    have hfree := hlisted.freeIs
    rw [freeExtents_append] at hfree
    rw [start_leftOver] at hback
    exact ⟨h', by rw [ht.ptr]; exact hgo, hfree, by omega⟩

/-- **`pvPortMalloc` is a complete first fit**: of any request, a heap whose free list is
sound serves the lowest block that is large enough, unless the request has the top bit. -/
theorem malloc_first_fit (hl : c.Large) (hi : ∃ bs, Listed c h bs) (hfree : FreeIs c h free) (h0 : 0 < n)
    (hn : n < 2 ^ c.sizeBits) : ∃ r, pvPortMalloc c h n = some r ∧ FirstFit c h free n r := by
  obtain ⟨bs, hi⟩ := hi
  obtain rfl : free = freeExtents bs c.endAddress := hfree.unique hi.freeIs
  have hinit := hi.initialised_eq hl
  obtain ⟨r, hr, hcase⟩ := pvPortMalloc_spec (h := h) hl (by rw [hinit]; exact hi) hn
  rw [hinit] at hcase
  rcases hcase with ⟨rfl, hnone⟩ | ⟨hlt, pre, b, post, rfl, ht⟩
  · refine ⟨(h, 0), hr, fun _ => rfl, fun hlt hex => ?_⟩
    obtain ⟨x, hx, hfits⟩ := hex
    have hsmall := each_free_iff.mp (hnone h0 hlt) x hx
    omega
  · have hserved := ht.served hl hi
    have hext : freeExtents (pre ++ ⟨b, false⟩ :: post) c.endAddress =
        freeExtents pre b ++ (b, start post c.endAddress - b) :: freeExtents post c.endAddress := freeExtents_append
    refine ⟨r, hr, fun hnull => ?_, fun _ _ => ⟨_, _, _, hext, ht.fits, fun y hy hfits => ?_, hserved⟩⟩
    · rcases hnull with htop | hsmall
      · omega
      · have := hsmall (b, start post c.endAddress - b) (by rw [hext]; simp)
        have := ht.fits
        omega
    · rw [hext] at hy
      rcases List.mem_append.mp hy with hy | hy
      · have hsmall := each_free_iff.mp ht.lowest y hy
        omega
      · have hsorted := hi.merged.apart c.struct_pos hi.spaced
        rw [hext] at hsorted
        rcases List.mem_cons.mp hy with rfl | hy
        · exact le_refl b
        · have hlt := (List.pairwise_cons.mp (List.pairwise_append.mp hsorted).2.1).1 y hy
          omega

/-- Of two free blocks the first one is too small. -/
theorem malloc_first_fit_second : ∃ s r, Reachable smallBoard blank s ∧ s.live = {0x1028} ∧
    pvPortMalloc smallBoard s.h 20 = some r ∧ FirstFit smallBoard s.h [(0x1008, 0x18), (0x1038, 0x20)] 20 r := by
  obtain ⟨s, hr, hlive, hne, hfree⟩ := exists_two_free
  obtain ⟨bs, hi⟩ := (hr.reachableBelow (by decide) (by decide) rfl).blocks (by decide) rfl
  have hlisted := hi.inv.listed
  rw [hi.first hne] at hlisted
  obtain ⟨r, hgo, hfit⟩ := malloc_first_fit (by decide) ⟨bs, hlisted⟩ hfree (by decide : 0 < 20) (by decide)
  exact ⟨s, r, hr, hlive, hgo, hfit⟩

/-- A free block of 0x8ffc bytes has room for 0x8000 bytes with their header, but a request
with the top bit is refused. -/
theorem top_bit_refused : (∃ bs, Listed largeBoard (prvHeapInit largeBoard blank) bs) ∧
    FreeIs largeBoard (prvHeapInit largeBoard blank) [(0x1000, 0x8ffc)] ∧ largeBoard.rounded 0x8000 ≤ 0x8ffc ∧
    (pvPortMalloc largeBoard (prvHeapInit largeBoard blank) 0x8000).map Prod.snd = some 0 :=
  ⟨⟨_, (prvHeapInit_inv (by decide) blank).listed⟩,
    by decide +kernel, by decide, by decide +kernel⟩

end RtosKernel.FreeRTOS.Heap4
